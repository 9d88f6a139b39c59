import Icewind.Rudder.Ast
import Mathlib.Data.List.Perm.Subperm
import Mathlib.Tactic.Tauto

/-!
# Static types

`Statement::typ` looks through operands, and casts ask it for the type of their source.  Here it is
seen as a relation, so that passes can be compared without counting the recursion.

* `Statement.consults` — the operands whose type it looks at.
* `Block.HasTyp` — the type of a statement, for some depth of recursion.
* `Block.WellFormed.typ_eq` — in a well-formed block the arena is always deep enough.
* `Block.Asked` — the statements whose type a run asks for: which one it is, for a sign extension, or that there is one.
* `Block.hasTyp_induction`, `hasTyp_transfer` — a change that keeps the types as they are asked for keeps all types that
  casts see.
-/

namespace Icewind.Rudder

open List Option

/-- The second type is there if the first one is, and is the same if it matters which. -/
def Typ.KeptAs (exact : Bool) (t t' : Option Typ) : Prop := ∀ x, t = some x → ∃ x', t' = some x' ∧ (exact = true → x' = x)

theorem Typ.KeptAs.refl {exact : Bool} {t : Option Typ} : Typ.KeptAs exact t t := fun x h => ⟨x, h, fun _ => rfl⟩

/-- The width of a bit extract is the constant that it was, or one for which there is a type. -/
def Constant.KeptAs (exact : Bool) (c c' : Option Constant) : Prop :=
  c' = c ∨ exact = false ∧ ∃ x, c' = some x ∧ x.extractTyp.isSome

namespace Statement

variable {ρ : Type}

/-- The operands whose type the type of a statement is made of. -/
def consults : Statement ρ → List ρ
  | binaryOperation kind lhs _ => if kind.isComparison then [] else [lhs]
  | ternaryOperation _ a _ _ => [a]
  | unaryOperation kind value => if kind = .ceil ∨ kind = .floor then [] else [value]
  | shiftOperation _ value _ => [value]
  | phiNode members => (members.head?.map Prod.snd).toList
  | select _ trueValue _ => [trueValue]
  | bitExtract value _ _ => [value]
  | bitInsert target _ _ _ => [target]
  | readElement vector _ => [vector]
  | assignElement vector _ _ => [vector]
  | tupleAccess _ source => [source]
  | createTuple values => values
  | _ => []

/-- The operand whose being a constant matters: the width of a bit extract. -/
def widthOperand : Statement ρ → Option ρ
  | bitExtract _ _ width => some width
  | _ => none

/-- The statements that take an element from a type; the others pass types on. -/
def inspects : Statement ρ → Bool
  | readElement _ _ | tupleAccess _ _ => true
  | _ => false

variable {typ typ' : ρ → Option Typ} {exact : Bool}

theorem mapM_keeps : ∀ {values : List ρ} {ts : List Typ}, (∀ x ∈ values, Typ.KeptAs exact (typ x) (typ' x)) →
      values.mapM typ = some ts → ∃ ts', values.mapM typ' = some ts' ∧ (exact = true → ts' = ts)
  | [], ts, _, h => ⟨ts, h, fun _ => rfl⟩
  | x :: values, ts, htyp, h => by
    rw [mapM_cons] at h
    obtain ⟨t, ts', ht, hts', h⟩ := bind₂_eq_some h
    cases h
    obtain ⟨t1, ht1, hsame⟩ := htyp x mem_cons_self t ht
    obtain ⟨ts1, hts1, hsames⟩ := mapM_keeps (fun y hy => htyp y (mem_cons_of_mem _ hy)) hts'
    refine ⟨t1 :: ts1, ?_, fun he => by rw [hsame he, hsames he]⟩
    rw [mapM_cons, ht1, hts1]
    rfl

variable {s : Statement ρ} {const const' : ρ → Option Constant}

/-- **The type depends on the types of the operands it consults and on whether a width is constant.** -/
theorem typOf_keeps (exact : Bool)
    (hconst : ∀ w, s.widthOperand = some w → Constant.KeptAs exact (const w) (const' w))
    (htyp : ∀ x ∈ s.consults, Typ.KeptAs (exact || s.inspects) (typ x) (typ' x)) :
    Typ.KeptAs exact (s.typOf const typ) (s.typOf const' typ') := by
  have hpass : s.inspects = false → ∀ x ∈ s.consults, Typ.KeptAs exact (typ x) (typ' x) := by
    intro hs x hx
    have := htyp x hx
    rwa [hs, Bool.or_false] at this
  have hsame : s.inspects = true → ∀ x ∈ s.consults, ∀ t, typ x = some t → typ' x = some t := by
    intro hs x hx t ht
    obtain ⟨t', ht', heq⟩ := htyp x hx t ht
    rw [ht', heq (by rw [hs, Bool.or_true])]
  cases s with
  | binaryOperation kind lhs rhs =>
    simp only [typOf]
    split
    · exact .refl
    · rename_i hk
      exact hpass rfl lhs (by simp [consults, hk])
  | unaryOperation kind value =>
    simp only [typOf]
    split
    · exact .refl
    · rename_i hk
      exact hpass rfl value (by simp [consults, hk])
  | ternaryOperation _ x _ _ | shiftOperation _ x _ | select _ x _ | bitInsert x _ _ _ | assignElement x _ _ =>
    exact hpass rfl x (by simp [consults])
  | phiNode members =>
    cases members with
    | nil => exact .refl
    | cons m members => exact hpass rfl m.2 (by simp [consults])
  | bitExtract value start width =>
    simp only [typOf]
    rcases hconst width rfl with heq | ⟨rfl, c, hc, htyped⟩
    · rw [heq]
      cases const width with
      | none => exact hpass rfl value (by simp [consults])
      | some c => exact .refl
    · rw [hc]
      obtain ⟨t, ht⟩ := isSome_iff_exists.mp htyped
      exact fun _ _ => ⟨t, ht, nofun⟩
  | readElement x _ | tupleAccess _ x =>
    intro t h
    simp only [typOf] at h ⊢
    cases hx : typ x with
    | none =>
      rw [hx] at h
      cases h
    | some tx =>
      rw [hsame rfl x (by simp [consults]) tx hx]
      rw [hx] at h
      exact ⟨t, h, fun _ => rfl⟩
  | createTuple values =>
    intro t h
    obtain ⟨ts, hts, rfl⟩ := map_eq_some_iff.mp h
    obtain ⟨ts', hts', heq⟩ := mapM_keeps (fun x hx => hpass rfl x (by simpa [consults] using hx)) hts
    refine ⟨.tuple ts', ?_, fun he => by rw [heq he]⟩
    simp only [typOf, hts']
    rfl
  | _ => exact .refl

theorem typOf_mono {t : Typ} (hconst : ∀ w, s.widthOperand = some w → const' w = const w)
    (htyp : ∀ x ∈ s.consults, ∀ t, typ x = some t → typ' x = some t) (h : s.typOf const typ = some t) :
    s.typOf const' typ' = some t := by
  obtain ⟨t', ht', heq⟩ := typOf_keeps true (fun w hw => .inl (hconst w hw))
    (fun x hx t ht => ⟨t, htyp x hx t ht, fun _ => rfl⟩) t h
  rw [ht', heq rfl]

theorem typOf_map {ρ' : Type} (g : ρ → ρ') (const : ρ' → Option Constant) (typ : ρ' → Option Typ)
    (s : Statement ρ) : (s.map g).typOf const typ = s.typOf (const ∘ g) (typ ∘ g) := by
  cases s with
  | phiNode members => cases members <;> rfl
  | createTuple values => simp only [map, typOf, mapM_map]
  | _ => rfl

/-- Replacing a use keeps the type, as far as it matters, if types and constant widths are kept so. -/
theorem typOf_replaceUse [DecidableEq ρ] {useOf replacement : ρ} {s' : Statement ρ} (exact : Bool)
    (hs : s.replaceUse useOf replacement = some s')
    (hconst : ∀ w, s.widthOperand = some w →
      Constant.KeptAs exact (const w) (const' (if w = useOf then replacement else w)))
    (htyp : ∀ x ∈ s.consults, Typ.KeptAs (exact || s.inspects) (typ x) (typ' x))
    (huse : useOf ∈ s.consults → Typ.KeptAs (exact || s.inspects) (typ useOf) (typ' replacement)) :
    Typ.KeptAs exact (s.typOf const typ) (s'.typOf const' typ') := by
  -- the type of an operand after the replacement
  have hite : ∀ x ∈ s.consults,
      Typ.KeptAs (exact || s.inspects) (typ x) (typ' (if x = useOf then replacement else x)) := by
    intro x hx
    split
    · rename_i hxu
      subst hxu
      exact huse hx
    · exact htyp x hx
  cases s with
  | binaryOperation kind lhs rhs =>
    -- the right operand has no part in the type
    obtain ⟨rhs', rfl⟩ : ∃ rhs', s' = .binaryOperation kind (if lhs = useOf then replacement else lhs) rhs' := by
      simp only [replaceUse] at hs
      split
      · rename_i hl
        rw [if_pos hl] at hs
        exact ⟨rhs, (some.inj hs).symm⟩
      · rename_i hl
        rw [if_neg hl] at hs
        exact ⟨replacement, (some.inj (ite_none_right_eq_some.mp hs).2).symm⟩
    exact (typOf_keeps exact hconst hite :)
  | constant | readVariable | readRegister | readPc | jump | phiNode => cases hs
  | _ =>
    cases hs
    rw [typOf_map]
    exact typOf_keeps exact hconst hite

/-- Everything but a phi node consults only its operands. -/
theorem consults_subset (hphi : ∀ members, s ≠ phiNode members) : ∀ x ∈ s.consults, x ∈ s.operands := by
  intro x hx
  cases s with
  | phiNode members => exact absurd rfl (hphi members)
  | binaryOperation kind lhs rhs =>
    simp only [consults] at hx
    split at hx
    · cases hx
    · simp only [mem_singleton] at hx
      simp [operands, hx]
  | unaryOperation kind value =>
    simp only [consults] at hx
    split at hx
    · cases hx
    · simpa [operands] using hx
  | _ => simp_all [consults, operands]

theorem widthOperand_mem {w : ρ} (h : s.widthOperand = some w) : w ∈ s.operands := by
  cases s <;> simp_all [widthOperand, operands]

end Statement

namespace Block

/-- The static type of a statement. -/
def HasTyp (b : Block) (r : Ref) (t : Typ) : Prop := ∃ fuel, b.typAux fuel r = some t

theorem typAux_mono (b : Block) :
    ∀ {m n : Nat} {r : Ref} {t : Typ}, m ≤ n → b.typAux m r = some t → b.typAux n r = some t
  | 0, _, _, _, _, h => by cases h
  | m + 1, n + 1, _, _, hmn, h =>
    Statement.typOf_mono (fun _ _ => rfl) (fun _ _ _ ht => typAux_mono b (Nat.le_of_succ_le_succ hmn) ht) h

variable {b : Block} {r : Ref} {t : Typ}

theorem hasTyp_of_typ (h : b.typ r = some t) : b.HasTyp r t :=
  ⟨_, h⟩

/-- No phi node stands among the statements. -/
def NoPhi (b : Block) (l : List Ref) : Prop := ∀ r ∈ l, ∀ members, b.arena r ≠ .phiNode members

/-- The recursion ends after as many steps as there are statements above. -/
theorem WellFormed.typAux_length (hb : b.WellFormed) :
    ∀ (n : Nat) {done rest : List Ref} {r : Ref} {t : Typ}, b.statements = done ++ r :: rest →
      b.NoPhi (done ++ [r]) → b.typAux n r = some t → b.typAux (done.length + 1) r = some t
  | 0, _, _, _, _, _, _, h => by cases h
  | n + 1, done, rest, r, t, hsplit, hphi, h => by
    have hr : ∀ members, b.arena r ≠ .phiNode members := hphi r (by simp)
    refine Statement.typOf_mono (fun _ _ => rfl) (fun x hx t ht => ?_) h
    -- a consulted operand stands above, where the claim holds already
    have hmem := hb.ordered done r rest hsplit x (Statement.consults_subset hr x hx)
    obtain ⟨above, between, rfl⟩ := append_of_mem hmem
    have hsplit' : b.statements = above ++ x :: (between ++ r :: rest) := by
      rw [hsplit]
      simp
    have habove : b.NoPhi (above ++ [x]) := fun y hy => hphi y (by
      simp only [mem_append, mem_cons, not_mem_nil] at hy ⊢
      tauto)
    have ih := hb.typAux_length n hsplit' habove ht
    exact b.typAux_mono (by simp) ih

theorem WellFormed.length_le (hb : b.WellFormed) : b.statements.length ≤ b.arenaSize := by
  have hsub : b.statements ⊆ List.range b.arenaSize := fun x hx => mem_range.mpr (hb.bounded x hx)
  have hle := (subperm_of_subset hb.nodup hsub).length_le
  rwa [length_range] at hle

variable {done rest : List Ref}

/-- **The type of a statement of a well-formed block is found.** -/
theorem WellFormed.typ_eq (hb : b.WellFormed) (hsplit : b.statements = done ++ r :: rest)
    (hphi : b.NoPhi (done ++ [r])) (h : b.HasTyp r t) : b.typ r = some t := by
  obtain ⟨n, hn⟩ := h
  have hfound := hb.typAux_length n hsplit hphi hn
  refine b.typAux_mono ?_ hfound
  have hlen := hb.length_le
  rw [hsplit, length_append, length_cons] at hlen
  omega

/-- The statements whose type a run asks for, directly or through the types of others.  `exact` says that it matters
which type it is: a sign extension looks at it, or an element is taken from it. -/
inductive Asked (b : Block) : Bool → Ref → Prop
  | cast {r value : Ref} {kind : CastOperationKind} {typ : Typ} : r ∈ b.statements →
      b.arena r = .cast kind typ value → Asked b (decide (kind = .signExtend)) value
  | through {exact : Bool} {r x : Ref} : Asked b exact r → x ∈ (b.arena r).consults →
      Asked b (exact || (b.arena r).inspects) x

variable {exact : Bool}

theorem Asked.exists_cast (h : b.Asked exact r) : ∃ r ∈ b.statements, ∃ kind typ value, b.arena r = .cast kind typ value := by
  induction h with
  | cast hr hs => exact ⟨_, hr, _, _, _, hs⟩
  | through _ _ ih => exact ih

/-- With this constant, or none, in the place of `w` the widths of bit extracts are kept where their types are asked
for. -/
def WidthKept (b : Block) (w : Ref) (found : Option Constant) : Prop :=
  ∀ exact r, b.Asked exact r → (b.arena r).widthOperand = some w → Constant.KeptAs exact (b.constantAt w) found

/-- If the first statement has a type, the second has one in the other block, and the same if it matters which. -/
def TypKept (exact : Bool) (b : Block) (r : Ref) (b' : Block) (r' : Ref) : Prop :=
  ∀ t, b.HasTyp r t → ∃ t', b'.HasTyp r' t' ∧ (exact = true → t' = t)

variable {b' : Block} {S : Bool → Ref → Prop}

theorem keptAs_mono {o : Option Typ} {m n : Nat} (hmn : m ≤ n) (h : Typ.KeptAs exact o (b'.typAux m r)) :
    Typ.KeptAs exact o (b'.typAux n r) := by
  intro t ht
  obtain ⟨t', ht', heq⟩ := h t ht
  exact ⟨t', b'.typAux_mono hmn ht', heq⟩

/-- **Induction over types.**  If the type of each statement of `S` follows from the types of the
operands it consults, then the types of `S` are kept. -/
theorem hasTyp_induction
    (hclosed : ∀ exact r, S exact r → ∀ x ∈ (b.arena r).consults, S (exact || (b.arena r).inspects) x)
    (hstep : ∀ exact r, S exact r → ∀ n m, (∀ x ∈ (b.arena r).consults,
      Typ.KeptAs (exact || (b.arena r).inspects) (b.typAux n x) (b'.typAux m x)) →
      ∀ t, b.typAux (n + 1) r = some t → ∃ t', b'.HasTyp r t' ∧ (exact = true → t' = t))
    (hr : S exact r) : b.TypKept exact r b' r := by
  rintro t ⟨n, hn⟩
  induction n generalizing exact r t with
  | zero => cases hn
  | succ n ih =>
    -- enough fuel for all consulted operands at once
    have hops : ∀ (e : Bool) (l : List Ref), (∀ x ∈ l, S e x) → ∃ m, ∀ x ∈ l,
        Typ.KeptAs e (b.typAux n x) (b'.typAux m x) := by
      intro e l
      induction l with
      | nil => exact fun _ => ⟨0, by simp⟩
      | cons x l ihl =>
        intro hl
        obtain ⟨m, hm⟩ := ihl fun y hy => hl y (mem_cons_of_mem _ hy)
        obtain ⟨k, hk⟩ : ∃ k, Typ.KeptAs e (b.typAux n x) (b'.typAux k x) := by
          cases hx : b.typAux n x with
          | none => exact ⟨0, nofun⟩
          | some tx =>
            obtain ⟨t', ⟨k, hk⟩, heq⟩ := ih (hl x mem_cons_self) tx hx
            exact ⟨k, fun _ h => by cases h; exact ⟨t', hk, heq⟩⟩
        refine ⟨max m k, fun y hy => ?_⟩
        rcases mem_cons.mp hy with rfl | hy
        · exact keptAs_mono (Nat.le_max_right m k) hk
        · exact keptAs_mono (Nat.le_max_left m k) (hm y hy)
    obtain ⟨m, hm⟩ := hops _ _ fun x hx => hclosed exact r hr x hx
    exact hstep exact r hr n m hm t hn

/-- **Types are kept where they are asked for.**  If every statement of `S` that was changed has its
type back, and no constant width appears or disappears, all types of `S` are as before. -/
theorem hasTyp_transfer
    (hclosed : ∀ exact r, S exact r → ∀ x ∈ (b.arena r).consults, S (exact || (b.arena r).inspects) x)
    (hsame : ∀ exact r, S exact r → b'.arena r ≠ b.arena r → b.TypKept exact r b' r)
    (hwidth : ∀ exact r, S exact r → b'.arena r = b.arena r → ∀ w, (b.arena r).widthOperand = some w →
      Constant.KeptAs exact (b.constantAt w) (b'.constantAt w)) (hr : S exact r) : b.TypKept exact r b' r := by
  classical
  refine hasTyp_induction hclosed (fun exact r hr n m hm t hn => ?_) hr
  by_cases heq : b'.arena r = b.arena r
  · obtain ⟨t', ht', hexact⟩ := Statement.typOf_keeps exact (fun w hw => hwidth exact r hr heq w hw) hm t hn
    refine ⟨t', ⟨m + 1, ?_⟩, hexact⟩
    rw [typAux, heq]
    exact ht'
  · exact hsame exact r hr heq t ⟨n + 1, hn⟩

/-- In a well-formed block the operands of a statement above a position stand above it as well. -/
theorem WellFormed.operand_mem (hb : b.WellFormed) (hsplit : b.statements = done ++ rest) {x o : Ref}
    (hx : x ∈ done) (ho : o ∈ (b.arena x).operands) : o ∈ done := by
  obtain ⟨above, below, rfl⟩ := append_of_mem hx
  have := hb.ordered above x (below ++ rest) (by rw [hsplit]; simp) o ho
  simp [this]

theorem WellFormed.not_mem (hb : b.WellFormed) (hsplit : b.statements = done ++ r :: rest) : r ∉ done := by
  have hnodup := hb.nodup
  rw [hsplit] at hnodup
  intro h
  exact (disjoint_of_nodup_append hnodup) h mem_cons_self

/-- The order of the statements, as a check. -/
def orderedFrom (b : Block) : List Ref → List Ref → Bool
  | _, [] => true
  | done, r :: rest =>
    (b.arena r).operands.all (fun o => decide (o ∈ done)) && b.orderedFrom (done ++ [r]) rest

theorem orderedFrom_spec : ∀ {l above : List Ref}, b.orderedFrom above l = true →
      ∀ done r rest, l = done ++ r :: rest → ∀ o ∈ (b.arena r).operands, o ∈ above ++ done
  | [], _, _, done, r, rest, hl, _, _ => by simp at hl
  | x :: l, above, h, done, r, rest, hl, o, ho => by
    obtain ⟨hx, hrest⟩ := Bool.and_eq_true_iff.mp h
    cases done with
    | nil =>
      cases hl
      simpa using of_decide_eq_true (all_eq_true.mp hx o ho)
    | cons y done =>
      cases hl
      have := orderedFrom_spec hrest done r rest rfl o ho
      simpa using this

theorem wellFormed_of_orderedFrom (hnodup : b.statements.Nodup)
    (hbounded : ∀ r ∈ b.statements, r < b.arenaSize) (h : b.orderedFrom [] b.statements = true) :
    b.WellFormed :=
  ⟨hnodup, hbounded, fun done r rest hsplit o ho => by
    simpa using orderedFrom_spec h done r rest hsplit o ho⟩

variable {above below : List Ref}

theorem WellFormed.split_unique (hb : b.WellFormed) (h : b.statements = above ++ r :: below)
    (h' : b.statements = done ++ r :: rest) : above = done ∧ below = rest := by
  have hnodup := hb.nodup
  rw [h] at hnodup
  obtain ⟨hbelow, habove⟩ : r ∉ below ∧ r ∉ above :=
    ⟨(nodup_cons.mp hnodup.of_append_right).1, fun h => (disjoint_of_nodup_append hnodup) h mem_cons_self⟩
  obtain ⟨h1, -, h2⟩ := (append_cons_inj_of_notMem habove hbelow).mp (h.symm.trans h')
  exact ⟨h1, h2⟩

theorem WellFormed.above_subset (hb : b.WellFormed) (h : b.statements = above ++ r :: below)
    (h' : b.statements = done ++ rest) (hr : r ∈ done) : above ⊆ done := by
  obtain ⟨d1, d2, rfl⟩ := append_of_mem hr
  rw [(hb.split_unique h (h'.trans (by simp)) : above = d1 ∧ below = d2 ++ rest).1]
  exact fun x hx => by simp [hx]

theorem WellFormed.hasTyp_above (hb : b.WellFormed) (hsplit : b.statements = done ++ rest)
    (hphi : b.NoPhi done) (hsame : ∀ r ∈ done, b'.arena r = b.arena r) (hr : r ∈ done) (h : b.HasTyp r t) :
    b'.HasTyp r t := by
  have hkept : b.TypKept true r b' r := hasTyp_transfer (S := fun _ r => r ∈ done) (fun _ r hr x hx =>
      hb.operand_mem hsplit hr (Statement.consults_subset (hphi r hr) x hx))
    (fun _ r hr hne => absurd (hsame r hr) hne) (fun _ r hr _ w hw => .inl (by
      unfold constantAt
      rw [hsame w (hb.operand_mem hsplit hr (Statement.widthOperand_mem hw))])) hr
  obtain ⟨t', ht', heq⟩ := hkept t h
  rwa [heq rfl] at ht'

end Block

end Icewind.Rudder
