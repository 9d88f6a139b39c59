import Icewind.Rudder.Runs

/-!
# Replacing statements

Passes that rewrite the statements of a block in place, and keep its values and accesses.

* `logBlock` — the interpreter of a block with a record of every value and every access: reads of
  variables, registers, memory and the PC, calls, and writes.
* `Block.Reaches` — the frames of one run of a block.
* `logBlock_congr` — a block whose statements do the same in every frame of a run has the same log.
* `interpretBlock_set`, `logBlock_set` — one statement is replaced by another that does the same.
* `logBlock_replaceUses` — the uses of one statement are replaced by another with the same value.
-/

namespace Icewind.Rudder

open List Option

/-! ### The log of a block -/

/-- The statements that touch something other than statement values. -/
def Statement.isAccess {ρ : Type} : Statement ρ → Bool
  | .readVariable _ | .writeVariable _ _ | .readRegister _ _ | .writeRegister _ _
  | .readMemory _ _ | .writeMemory _ _ | .atomicOperation _ _ _ _ | .readPc | .writePc _
  | .call _ _ _ => true
  | _ => false

/-- What one statement did: its value, and the access it made with its operands. -/
structure Entry where
  stmt : Ref
  value : Option Value
  access : Option (Statement (Option Value))

def Block.entry (b : Block) (r : Ref) (fr : Frame) (value : Option Value) : Entry :=
  ⟨r, value, if (b.arena r).isAccess then some ((b.arena r).map fr.values) else none⟩

variable {μ : Type} (env : Environment μ)

/-- `interpretStatements`, with a log. -/
def logStatements (call : Calls μ) (b : Block) :
    List Ref → Frame → State μ → Option (BlockResult μ × List Entry)
  | [], _, _ => none
  | r :: rest, fr, st =>
    match execIn env call b r fr st with
    | none => none
    | some (.next value locals flags st) =>
      (logStatements call b rest (fr.next r value locals flags) st).map fun p =>
        (p.1, b.entry r fr value :: p.2)
    | some (.goto target) => some (.nextBlock target fr.locals fr.flags st, [])
    | some (.return_ value) => some (.returnValue value st, [])

/-- `interpretBlock`, with a log. -/
def logBlock (call : Calls μ) (b : Block) (locals : Locals) (flags : Nat) (st : State μ) :
    Option (BlockResult μ × List Entry) :=
  logStatements env call b b.statements (.enter locals flags) st

/-- Without the log it is the interpreter. -/
theorem logStatements_fst (call : Calls μ) (b : Block) : ∀ (l : List Ref) (fr : Frame) (st : State μ),
      (logStatements env call b l fr st).map Prod.fst = interpretStatements env call b l fr st
  | [], _, _ => rfl
  | r :: rest, fr, st => by
    unfold logStatements interpretStatements
    cases execIn env call b r fr st with
    | none => rfl
    | some step =>
      cases step with
      | next value locals flags st' =>
        dsimp only
        rw [Option.map_map, ← logStatements_fst call b rest]
        rfl
      | goto | return_ => rfl

theorem logBlock_fst (call : Calls μ) (b : Block) (locals : Locals) (flags : Nat) (st : State μ) :
    (logBlock env call b locals flags st).map Prod.fst = interpretBlock env call b locals flags st :=
  logStatements_fst env call b _ _ _

/-! ### The frames of a run -/

/-- The run of the block from these local variables, flags and state comes to this frame after the
statements `done`. -/
inductive Block.Reaches (call : Calls μ) (b : Block) (locals : Locals) (flags : Nat) (st : State μ) :
    List Ref → Frame → State μ → Prop
  | enter : Reaches call b locals flags st [] (.enter locals flags) st
  | next {done rest : List Ref} {r : Ref} {fr : Frame} {st₁ st₂ : State μ} {value : Option Value}
    {locals' : Locals} {flags' : Nat} : Reaches call b locals flags st done fr st₁ →
    b.statements = done ++ r :: rest →
    execIn env call b r fr st₁ = some (.next value locals' flags' st₂) →
    Reaches call b locals flags st (done ++ [r]) (fr.next r value locals' flags') st₂

variable {above below : List Ref}

section Reaches

variable {call : Calls μ} {b : Block} {locals : Locals} {flags : Nat} {st : State μ}
  {done : List Ref} {fr : Frame} {st' : State μ}

theorem Block.Reaches.consistent (hb : b.WellFormed)
    (h : b.Reaches env call locals flags st done fr st') : b.Consistent env done fr := by
  induction h with
  | enter => exact fun x hx => by cases hx
  | next _ hsplit hexec ih => exact ih.next env hb hsplit hexec

theorem Block.Reaches.noPhi (h : b.Reaches env call locals flags st done fr st') : b.NoPhi done := by
  induction h with
  | enter => exact fun x hx => by cases hx
  | next _ _ hexec ih =>
    intro x hx members hphi
    rcases mem_append.mp hx with hx | hx
    · exact ih x hx members hphi
    · rw [mem_singleton.mp hx] at hphi
      unfold execIn at hexec
      rw [hphi] at hexec
      cases hexec

theorem Block.reaches_of_nextBlock {target : BlockRef} {locals' : Locals} {flags' : Nat}
    (h : interpretBlock env call b locals flags st = some (.nextBlock target locals' flags' st')) :
    ∃ done fr, b.Reaches env call locals flags st done fr st' ∧ fr.locals = locals' ∧ fr.flags = flags' :=
  (interpretStatements_congr env (b.Reaches env call locals flags st) (fun _ _ _ _ _ _ hsplit hreach hstep =>
      ⟨hstep, fun _ _ _ _ heq => .next hreach hsplit (heq ▸ hstep)⟩)
    b.statements [] _ _ _ rfl .enter h).2 target locals' flags' st' rfl

theorem Block.Reaches.constant (hb : b.WellFormed)
    (h : b.Reaches env call locals flags st done fr st') {x : Ref} (hx : x ∈ done) {c : Constant}
    (hc : b.arena x = .constant c) : fr.values x = some (.fromConstant c) := by
  have := h.consistent env hb x hx (by rw [hc]; trivial)
  rw [hc] at this
  exact this

/-- The run gets past a statement. -/
def Block.Passes (call : Calls μ) (b : Block) (locals : Locals) (flags : Nat) (st : State μ)
    (above : List Ref) (x : Ref) : Prop :=
  ∃ fr st₁ value locals' flags' st₂, b.Reaches env call locals flags st above fr st₁ ∧
    execIn env call b x fr st₁ = some (.next value locals' flags' st₂)

theorem Block.Reaches.passes (hb : b.WellFormed) {x : Ref} (hsplit : b.statements = above ++ x :: below)
    (h : b.Reaches env call locals flags st done fr st') (hx : x ∈ done) :
    b.Passes env call locals flags st above x := by
  induction h with
  | enter => cases hx
  | next hreach hsplit' hexec ih =>
    rcases mem_append.mp hx with hx | hx
    · exact ih hx
    · obtain rfl := mem_singleton.mp hx
      obtain rfl := (hb.split_unique hsplit hsplit').1
      exact ⟨_, _, _, _, _, _, hreach, hexec⟩

/-- A statement that gives the value of another above it keeps that value. -/
theorem Block.Reaches.values_eq (hb : b.WellFormed) {x y : Ref} (hsplit : b.statements = above ++ x :: below)
    (hy : y ∈ above)
    (hvalue : ∀ fr st₁ value locals' flags' st2, b.Reaches env call locals flags st above fr st₁ →
      execIn env call b x fr st₁ = some (.next value locals' flags' st2) →
      value = fr.values y ∧ value.isSome) (h : b.Reaches env call locals flags st done fr st') (hx : x ∈ done) :
    fr.values x = fr.values y := by
  induction h with
  | enter => cases hx
  | @next done rest r fr st₁ st2 value locals' flags' hreach hsplit' hexec ih =>
    have hr := hb.not_mem hsplit'
    by_cases hxr : x = r
    · subst hxr
      have habove : above = done := (hb.split_unique hsplit hsplit').1
      subst habove
      obtain ⟨rfl, hsome⟩ := hvalue fr st₁ _ _ _ _ hreach hexec
      have hyx : y ≠ x := fun h => hr (h ▸ hy)
      rw [fr.next_values_of_ne _ _ _ hyx]
      obtain ⟨v, hv⟩ := isSome_iff_exists.mp hsome
      rw [hv, Frame.next_values_self]
    · have hx' : x ∈ done := by
        rcases mem_append.mp hx with h | h
        · exact h
        · exact absurd (mem_singleton.mp h) hxr
      have hyr : y ≠ r := fun h => hr (h ▸ hb.above_subset hsplit hsplit' hx' hy)
      rw [fr.next_values_of_ne _ _ _ hxr, fr.next_values_of_ne _ _ _ hyr]
      exact ih hx'

end Reaches

/-! ### Blocks with the same log -/

variable {call : Calls μ} {locals : Locals} {st : State μ} {b b' : Block} {call' : Calls μ} {flags : Nat}
  {p : BlockResult μ × List Entry}

/-- **A block whose statements do the same in every frame of a run has the same log.** -/
theorem logBlock_congr (hstatements : b'.statements = b.statements)
    (hstep : ∀ done r rest fr st₁ step, b.statements = done ++ r :: rest →
      b.Reaches env call locals flags st done fr st₁ → execIn env call b r fr st₁ = some step →
      execIn env call' b' r fr st₁ = some step ∧ ∀ value, b'.entry r fr value = b.entry r fr value)
    (h : logBlock env call b locals flags st = some p) : logBlock env call' b' locals flags st = some p := by
  -- over the statements that remain, from any frame of the run
  have hrest : ∀ (rest done : List Ref) (fr : Frame) (st₁ : State μ) (p : BlockResult μ × List Entry),
      b.statements = done ++ rest → b.Reaches env call locals flags st done fr st₁ →
      logStatements env call b rest fr st₁ = some p →
      logStatements env call' b' rest fr st₁ = some p := by
    intro rest
    induction rest with
    | nil =>
      intro done fr st₁ p _ _ h
      cases h
    | cons r rest ih =>
      intro done fr st₁ p hsplit hreach h
      unfold logStatements at h ⊢
      cases hexec : execIn env call b r fr st₁ with
      | none =>
        rw [hexec] at h
        cases h
      | some step =>
        obtain ⟨hexec', hentry⟩ := hstep done r rest fr st₁ step hsplit hreach hexec
        rw [hexec] at h
        rw [hexec']
        cases step with
        | next value locals' flags' st2 =>
          obtain ⟨p', hp', rfl⟩ := map_eq_some_iff.mp h
          dsimp only
          rw [ih (done ++ [r]) _ _ p' (by rw [hsplit]; simp) (.next hreach hsplit hexec) hp',
            map_some, hentry]
        | goto | return_ => exact h
  unfold logBlock at h ⊢
  rw [hstatements]
  exact hrest b.statements [] _ _ p rfl .enter h

/-! ### Static types seen by casts -/

/-- Only casts look at static types. -/
theorem exec_sourceTyp {s : Statement (Option Value)} (hs : ∀ kind typ value, s ≠ .cast kind typ value)
    (typ typ' : Option Typ) : exec env call typ' locals flags st s = exec env call typ locals flags st s := by
  cases s with
  | cast kind typ value => exact absurd rfl (hs kind typ value)
  | return_ value => cases value <;> rfl
  | ternaryOperation kind a b c =>
    cases kind
    rfl
  | _ => rfl

variable {kind : CastOperationKind}

/-- And of those only sign extensions see which it is. -/
theorem Value.cast_sourceTyp (hkind : kind ≠ .signExtend) (source source' typ : Typ) (v : Value) :
    v.cast env source' kind typ = v.cast env source kind typ := by
  cases kind with
  | signExtend => exact absurd rfl hkind
  | _ =>
    cases typ with
    | primitive p => cases p <;> cases v <;> rfl
    | _ => cases v <;> rfl

namespace Block

/-- The source type of the statement is as before, or the statement is a cast that needs no more
than that there is one. -/
def SourceKept (b b' : Block) (r : Ref) : Prop :=
  ∀ kind typ value t, b.arena r = .cast kind typ value → b.typ value = some t →
    b'.sourceTyp r = some t ∨ (kind ≠ .signExtend ∧ ∃ t', b'.sourceTyp r = some t')

end Block

variable {r : Ref} {step : Step μ}

theorem execIn_sourceKept (hcall : Calls.Refines call call') {fr : Frame}
    (hmap : (b'.arena r).map fr.values = (b.arena r).map fr.values) (hsource : b.SourceKept b' r)
    (h : execIn env call b r fr st = some step) : execIn env call' b' r fr st = some step := by
  have h' := execIn_refines env hcall h
  unfold execIn at h' ⊢
  rw [hmap]
  by_cases hs : ∃ kind typ value, b.arena r = .cast kind typ value
  · obtain ⟨kind, typ, value, hs⟩ := hs
    have hsrc : b.sourceTyp r = b.typ value := by
      unfold Block.sourceTyp
      rw [hs]
    rw [hs, hsrc, exec_computes env (by exact trivial)] at h'
    rw [hs, exec_computes env (by exact trivial)]
    obtain ⟨v, hv, hstep⟩ := map_eq_some_iff.mp h'
    obtain ⟨t, ht, hv'⟩ := bind_eq_some_iff.mp hv
    rcases hsource kind typ value t hs ht with hsame | ⟨hkind, t', ht'⟩
    · rw [hsame, ← ht]
      exact h'
    · obtain ⟨w, hw, hv'⟩ := bind_eq_some_iff.mp hv'
      have : evaluate env (b'.sourceTyp r) ((Statement.cast kind typ value).map fr.values) = some v := by
        have hw' : fr.values value = some w := hw
        rw [ht', Statement.map, evaluate, hw']
        exact (Value.cast_sourceTyp env hkind t t' typ w).trans hv'
      rw [this]
      exact congrArg some hstep
  · rw [exec_sourceTyp env ?_ (b.sourceTyp r)]
    · exact h'
    · intro kind typ value heq
      refine hs ?_
      cases harena : b.arena r <;> rw [harena] at heq <;> cases heq
      exact ⟨_, _, _, rfl⟩

variable {done rest : List Ref}

namespace Block

/-- The types that are asked for are kept. -/
def TypesKept (b b' : Block) : Prop := ∀ exact r, b.Asked exact r → b.TypKept exact r b' r

variable {b : Block}

theorem WellFormed.typ_of_mem (hb : b.WellFormed) (hsplit : b.statements = done ++ rest) (hphi : b.NoPhi done)
    {value : Ref} (hvalue : value ∈ done) {t : Typ} (ht : b.HasTyp value t) : b.typ value = some t := by
  obtain ⟨above, below, rfl⟩ := append_of_mem hvalue
  have hsplit' : b.statements = above ++ value :: (below ++ rest) := by
    rw [hsplit]
    simp
  refine hb.typ_eq hsplit' (fun x hx => hphi x ?_) ht
  simp only [mem_append, mem_cons, not_mem_nil] at hx ⊢
  tauto

/-- **A cast finds its source type** if the type of what it casts is kept as far as it looks at it. -/
theorem sourceKept_of_typKept {b' : Block} {r : Ref} (hb' : b'.WellFormed) (hsplit : b'.statements = done ++ rest)
    (hphi : b'.NoPhi done) (h : ∀ kind typ value, b.arena r = .cast kind typ value → ∃ x ∈ done,
      b'.arena r = .cast kind typ x ∧ b.TypKept (decide (kind = .signExtend)) value b' x) : b.SourceKept b' r := by
  intro kind typ value t hs ht
  obtain ⟨x, hx, hs', hkept⟩ := h kind typ value hs
  obtain ⟨t', ht', heq⟩ := hkept t (hasTyp_of_typ ht)
  have hsource : b'.sourceTyp r = some t' := by
    unfold sourceTyp
    rw [hs']
    exact hb'.typ_of_mem hsplit hphi hx ht'
  by_cases hkind : kind = .signExtend
  · exact .inl (by rw [hsource, heq (decide_eq_true hkind)])
  · exact .inr ⟨hkind, t', hsource⟩

section Casts

variable {b b' : Block} (hb' : b'.WellFormed) {done rest : List Ref} {r : Ref}
  (hstatements : b'.statements = b.statements) (hsplit : b.statements = done ++ r :: rest)
  (hphi : b'.NoPhi done) (hr : b'.arena r = b.arena r)
include hb' hstatements hsplit hphi hr

/-- A cast that was left alone finds its source type. -/
theorem TypesKept.sourceKept (h : b.TypesKept b') : b.SourceKept b' r := by
  refine sourceKept_of_typKept hb' (hstatements.trans hsplit) hphi fun kind typ value hs => ⟨value, ?_, hr.trans hs, ?_⟩
  · exact hb'.ordered done r rest (hstatements.trans hsplit) value (by simp [hr, hs, Statement.operands])
  · exact h _ value (.cast (by simp [hsplit]) hs)

/-- So does one with nothing changed above it. -/
theorem sourceKept_of_above (hb : b.WellFormed) (hsame : ∀ x ∈ done, b'.arena x = b.arena x) :
    b.SourceKept b' r := by
  have hphi' : b.NoPhi done := fun x hx => by
    rw [← hsame x hx]
    exact hphi x hx
  refine sourceKept_of_typKept hb' (hstatements.trans hsplit) hphi fun kind typ value hs => ?_
  have hvalue : value ∈ done := hb.ordered done r rest hsplit value (by simp [hs, Statement.operands])
  exact ⟨value, hvalue, hr.trans hs, fun t ht => ⟨t, hb.hasTyp_above hsplit hphi' hsame hvalue ht, fun _ => rfl⟩⟩

end Casts

variable {s : Statement Ref}

/-- **When a new statement keeps the types that are asked for.** -/
theorem typesKept_set {stmt : Ref}
    (htyp : ∀ exact, b.Asked exact stmt → b.TypKept exact stmt (b.set stmt s) stmt)
    (hwidth : b.WidthKept stmt ((b.set stmt s).constantAt stmt)) : b.TypesKept (b.set stmt s) := by
  intro exact r hr
  refine hasTyp_transfer (S := b.Asked) (fun _ _ hr _ hx => .through hr hx) (fun exact r hr hne => ?_)
    (fun exact r hr _ w hw => ?_) hr
  · obtain rfl : r = stmt := by
      by_contra hne'
      exact hne (b.set_arena_of_ne s hne')
    exact htyp exact hr
  · by_cases hws : w = stmt
    · subst hws
      exact hwidth exact r hr hw
    · refine .inl ?_
      unfold constantAt
      rw [b.set_arena_of_ne s hws]

theorem WellFormed.set (hb : b.WellFormed) {stmt : Ref} (hsplit : b.statements = above ++ stmt :: below)
    (hops : ∀ o ∈ s.operands, o ∈ above) :
    (b.set stmt s).WellFormed where
  nodup := hb.nodup
  bounded := hb.bounded
  ordered done r rest hsplit' o ho := by
    by_cases hr : r = stmt
    · subst hr
      rw [b.set_arena_self] at ho
      rw [← (hb.split_unique hsplit hsplit').1]
      exact hops o ho
    · rw [b.set_arena_of_ne s hr] at ho
      exact hb.ordered done r rest hsplit' o ho

end Block

section Set

variable {call call' : Calls μ} (hcall : Calls.Refines call call') {b : Block} (hb : b.WellFormed)
  {locals : Locals} {flags : Nat} {st : State μ} {above below : List Ref} {stmt : Ref}
  {s : Statement Ref} (hsplit : b.statements = above ++ stmt :: below)
  (hops : ∀ o ∈ s.operands, o ∈ above) (hphi : ∀ members, s ≠ .phiNode members)
  (htypes : b.NoPhi above → b.TypesKept (b.set stmt s))
  (hexec : ∀ fr st₁ step, b.Reaches env call locals flags st above fr st₁ →
    execIn env call b stmt fr st₁ = some step →
    execIn env call' (b.set stmt s) stmt fr st₁ = some step)
include hcall hb hsplit hops hphi htypes hexec

/-- One statement is replaced by another that does the same where the run comes to it. -/
theorem execIn_set {fr : Frame} {st₁ : State μ} (hsplit' : b.statements = done ++ r :: rest)
    (hreach : b.Reaches env call locals flags st done fr st₁) (hstep : execIn env call b r fr st₁ = some step) :
    execIn env call' (b.set stmt s) r fr st₁ = some step := by
  have hb' := hb.set hsplit hops
  by_cases hr : r = stmt
  · subst hr
    obtain rfl := (hb.split_unique hsplit hsplit').1
    exact hexec fr st₁ step hreach hstep
  have harena := b.set_arena_of_ne s hr
  have hphi' : (b.set stmt s).NoPhi done := by
    intro x hx members
    by_cases hxs : x = stmt
    · rw [hxs, b.set_arena_self]
      exact hphi members
    · rw [b.set_arena_of_ne s hxs]
      exact hreach.noPhi env x hx members
  -- below the statement the types that are asked for are kept, above it all are
  have hsource : b.SourceKept (b.set stmt s) r := by
    by_cases hdone : stmt ∈ done
    · have habove : b.NoPhi above := fun x hx =>
        hreach.noPhi env x (hb.above_subset hsplit hsplit' hdone hx)
      exact (htypes habove).sourceKept hb' rfl hsplit' hphi' harena
    · exact Block.sourceKept_of_above hb' rfl hsplit' hphi' harena hb fun x hx =>
        b.set_arena_of_ne s fun heq => hdone (heq ▸ hx)
  exact execIn_sourceKept env hcall (by rw [harena]) hsource hstep

/-- **A block with one statement replaced by another that does the same has the same outcome.** -/
theorem interpretBlock_set {result : BlockResult μ}
    (h : interpretBlock env call b locals flags st = some result) :
    interpretBlock env call' (b.set stmt s) locals flags st = some result :=
  (interpretStatements_congr env (b.Reaches env call locals flags st) (fun _ _ _ _ _ _ hsplit' hreach hstep =>
      ⟨execIn_set env hcall hb hsplit hops hphi htypes hexec hsplit' hreach hstep,
        fun _ _ _ _ heq => .next hreach hsplit' (heq ▸ hstep)⟩)
    b.statements [] _ _ _ rfl .enter h).1

/-- **If it makes no other access, the log is the same too.** -/
theorem logBlock_set (hentry : ∀ fr value, (b.set stmt s).entry stmt fr value = b.entry stmt fr value)
    (h : logBlock env call b locals flags st = some p) :
    logBlock env call' (b.set stmt s) locals flags st = some p := by
  refine logBlock_congr env (b.set_statements stmt s) (fun done r rest fr st₁ step hsplit' hreach hstep =>
      ⟨execIn_set env hcall hb hsplit hops hphi htypes hexec hsplit' hreach hstep, ?_⟩) h
  by_cases hr : r = stmt
  · subst hr
    exact hentry fr
  · intro value
    unfold Block.entry
    rw [b.set_arena_of_ne s hr]

end Set

/-! ### Replacing uses -/

variable {useOf replacement : Ref}

namespace Statement

theorem operands_map {ρ ρ' : Type} (g : ρ → ρ') (s : Statement ρ) :
    (s.map g).operands = s.operands.map g := by
  cases s with
  | return_ value => cases value <;> rfl
  | _ => rfl

/-- What `replace_use` gives: all uses replaced, or one of a binary operation. -/
theorem replaceUse_cases {s s' : Statement Ref} (h : s.replaceUse useOf replacement = some s') :
    (s' = s.map (fun x => if x = useOf then replacement else x) ∧
      (∀ members, s ≠ .phiNode members) ∧ ∀ c, s ≠ .constant c) ∨
    (∃ kind rhs, s = .binaryOperation kind useOf rhs ∧ s' = .binaryOperation kind replacement rhs) ∨
    ∃ kind lhs, s = .binaryOperation kind lhs useOf ∧ s' = .binaryOperation kind lhs replacement := by
  cases s <;> simp only [replaceUse, reduceCtorEq] at h
  case binaryOperation kind lhs rhs =>
    split at h
    · rename_i hl
      cases h
      exact .inr (.inl ⟨kind, rhs, by rw [hl], rfl⟩)
    · split at h
      · rename_i hr
        cases h
        exact .inr (.inr ⟨kind, lhs, by rw [hr], rfl⟩)
      · cases h
  all_goals exact .inl ⟨(some.inj h).symm, by simp, by simp⟩

section ReplaceUse

variable {useOf replacement : Ref} {s s' : Statement Ref}
  (h : s.replaceUse useOf replacement = some s')
include h

theorem replaceUse_of_not_mem (hmem : useOf ∉ s.operands) : s' = s := by
  rcases replaceUse_cases h with ⟨rfl, hphi, -⟩ | ⟨kind, rhs, rfl, -⟩ | ⟨kind, lhs, rfl, -⟩
  · refine (map_congr hphi fun o ho => ?_).trans (map_id s)
    exact if_neg fun heq : o = useOf => hmem (heq ▸ ho)
  · exact absurd (by simp [operands]) hmem
  · exact absurd (by simp [operands]) hmem

theorem not_constant_of_replaceUse (c : Constant) : s ≠ .constant c ∧ s' ≠ .constant c := by
  rcases replaceUse_cases h with ⟨rfl, -, hc⟩ | ⟨kind, rhs, rfl, rfl⟩ | ⟨kind, lhs, rfl, rfl⟩
  · refine ⟨hc c, fun heq => ?_⟩
    cases s with
    | constant c' => exact hc c' rfl
    | _ => cases heq
  · exact ⟨nofun, nofun⟩
  · exact ⟨nofun, nofun⟩

theorem not_phi_of_replaceUse (members : List (BlockRef × Ref)) : s' ≠ .phiNode members := by
  rcases replaceUse_cases h with ⟨rfl, hphi, -⟩ | ⟨kind, rhs, rfl, rfl⟩ | ⟨kind, lhs, rfl, rfl⟩
  · intro heq
    cases s with
    | phiNode members => exact hphi members rfl
    | _ => cases heq
  · nofun
  · nofun

theorem operands_of_replaceUse : ∀ o ∈ s'.operands, o = replacement ∨ o ∈ s.operands := by
  intro o ho
  rcases replaceUse_cases h with ⟨rfl, -, -⟩ | ⟨kind, rhs, rfl, rfl⟩ | ⟨kind, lhs, rfl, rfl⟩
  · rw [operands_map] at ho
    obtain ⟨x, hx, rfl⟩ := mem_map.mp ho
    split
    · exact .inl rfl
    · exact .inr hx
  · simp only [operands, mem_cons, not_mem_nil, or_false] at ho ⊢
    tauto
  · simp only [operands, mem_cons, not_mem_nil, or_false] at ho ⊢
    tauto

theorem isAccess_of_replaceUse : s'.isAccess = s.isAccess := by
  rcases replaceUse_cases h with ⟨rfl, -, -⟩ | ⟨kind, rhs, rfl, rfl⟩ | ⟨kind, lhs, rfl, rfl⟩
  · cases s <;> rfl
  · rfl
  · rfl

theorem cast_of_replaceUse {typ : Typ} {value : Ref} (hs : s = .cast kind typ value) :
    s' = .cast kind typ (if value = useOf then replacement else value) := by
  subst hs
  cases h
  rfl

end ReplaceUse

end Statement

namespace Block

/-- Uses of one statement have been replaced by uses of another. -/
structure UsesReplaced (b b' : Block) (useOf replacement : Ref) : Prop where
  statements : b'.statements = b.statements
  arenaSize : b'.arenaSize = b.arenaSize
  arena : ∀ r, b'.arena r = b.arena r ∨
    (r ∈ b.statements ∧ (b.arena r).replaceUse useOf replacement = some (b'.arena r))

/-- The other statement will do where the type of the one is asked for. -/
structure UseKept (b : Block) (useOf replacement : Ref) : Prop where
  typ : ∀ exact, b.Asked exact useOf → b.TypKept exact useOf b replacement
  width : b.WidthKept useOf (b.constantAt replacement)

namespace UsesReplaced

variable {b b' : Block} {useOf replacement : Ref} (h : b.UsesReplaced b' useOf replacement)
include h

theorem constantAt (r : Ref) : b'.constantAt r = b.constantAt r := by
  unfold Block.constantAt
  rcases h.arena r with heq | ⟨-, hreplace⟩
  · rw [heq]
  · have hc := Statement.not_constant_of_replaceUse hreplace
    split
    · rename_i c heq
      exact absurd heq (hc c).2
    · split
      · rename_i c heq
        exact absurd heq (hc c).1
      · rfl

theorem noPhi {done : List Ref} (hphi : b.NoPhi done) : b'.NoPhi done := by
  intro x hx members
  rcases h.arena x with heq | ⟨-, hreplace⟩
  · rw [heq]
    exact hphi x hx members
  · exact Statement.not_phi_of_replaceUse hreplace members

/-- Only statements below the one that is replaced use it. -/
theorem arena_above (hb : b.WellFormed) (hsplit : b.statements = above ++ useOf :: below) (hr : r ∈ above) :
    b'.arena r = b.arena r := by
  rcases h.arena r with heq | ⟨-, hreplace⟩
  · exact heq
  · refine Statement.replaceUse_of_not_mem hreplace fun hmem => ?_
    exact hb.not_mem hsplit (hb.operand_mem hsplit hr hmem)

theorem wellFormed (hb : b.WellFormed) (hsplit : b.statements = above ++ useOf :: below)
    (hrep : replacement ∈ above) :
    b'.WellFormed where
  nodup := h.statements ▸ hb.nodup
  bounded := by
    rw [h.statements, h.arenaSize]
    exact hb.bounded
  ordered done r rest hsplit' o ho := by
    rw [h.statements] at hsplit'
    rcases h.arena r with heq | ⟨-, hreplace⟩
    · rw [heq] at ho
      exact hb.ordered done r rest hsplit' o ho
    · by_cases hmem : useOf ∈ (b.arena r).operands
      · have huse := hb.ordered done r rest hsplit' useOf hmem
        rcases Statement.operands_of_replaceUse hreplace o ho with rfl | ho
        · exact hb.above_subset hsplit hsplit' huse hrep
        · exact hb.ordered done r rest hsplit' o ho
      · rw [Statement.replaceUse_of_not_mem hreplace hmem] at ho
        exact hb.ordered done r rest hsplit' o ho

/-- **When replacing uses keeps the types that are asked for.** -/
theorem typesKept (htyp : ∀ exact, b.Asked exact useOf → b.TypKept exact useOf b' replacement)
    (hwidth : b.WidthKept useOf (b.constantAt replacement)) : b.TypesKept b' := by
  intro exact r hr
  refine hasTyp_induction (S := b.Asked) (fun _ _ hr _ hx => .through hr hx) (fun exact r hr n m hm t hn => ?_) hr
  rcases h.arena r with heq | ⟨-, hreplace⟩
  · obtain ⟨t', ht', hexact⟩ := Statement.typOf_keeps exact (fun w _ => .inl (h.constantAt w)) hm t hn
    refine ⟨t', ⟨m + 1, ?_⟩, hexact⟩
    rw [typAux, heq]
    exact ht'
  · -- enough fuel for the replacement as well
    obtain ⟨k, hk⟩ : ∃ k, useOf ∈ (b.arena r).consults →
        Typ.KeptAs (exact || (b.arena r).inspects) (b.typAux n useOf) (b'.typAux k replacement) := by
      by_cases huse : useOf ∈ (b.arena r).consults
      · cases htu : b.typAux n useOf with
        | none => exact ⟨0, fun _ _ h => by cases h⟩
        | some tu =>
          obtain ⟨t', ⟨k, hk⟩, hexact⟩ := htyp _ (.through hr huse) tu ⟨n, htu⟩
          exact ⟨k, fun _ _ h => by cases h; exact ⟨t', hk, hexact⟩⟩
      · exact ⟨0, fun h => absurd h huse⟩
    have hwidths : ∀ w, (b.arena r).widthOperand = some w →
        Constant.KeptAs exact (b.constantAt w) (b'.constantAt (if w = useOf then replacement else w)) := by
      intro w hw
      rw [h.constantAt]
      split
      · rename_i hwu
        subst hwu
        exact hwidth exact r hr hw
      · exact .inl rfl
    obtain ⟨t', ht', hexact⟩ := Statement.typOf_replaceUse exact hreplace hwidths
      (fun x hx => keptAs_mono (Nat.le_max_left m k) (hm x hx))
      (fun huse => keptAs_mono (Nat.le_max_right m k) (hk huse)) t hn
    exact ⟨t', ⟨max m k + 1, ht'⟩, hexact⟩

end UsesReplaced

end Block

/-- **The uses of a statement are replaced by one with the same value.** -/
theorem logBlock_replaceUses (hcall : Calls.Refines call call') (hb : b.WellFormed)
    (h : b.UsesReplaced b' useOf replacement) (hsplit : b.statements = above ++ useOf :: below)
    (hrep : replacement ∈ above)
    (hkeeps : b.Passes env call locals flags st above useOf → b.UseKept useOf replacement)
    (hvalue : ∀ fr st₁ value locals' flags' st2, b.Reaches env call locals flags st above fr st₁ →
      execIn env call b useOf fr st₁ = some (.next value locals' flags' st2) →
      value = fr.values replacement ∧ value.isSome) (hlog : logBlock env call b locals flags st = some p) :
    logBlock env call' b' locals flags st = some p := by
  have hb' := h.wellFormed hb hsplit hrep
  refine logBlock_congr env h.statements (fun done r rest fr st₁ step hsplit' hreach hstep => ?_) hlog
  by_cases hdone : useOf ∈ done
  · have habove : b.NoPhi above := fun x hx =>
      hreach.noPhi env x (hb.above_subset hsplit hsplit' hdone hx)
    have huse := hkeeps (hreach.passes env hb hsplit hdone)
    have hvalues := hreach.values_eq env hb hsplit hrep hvalue hdone
    have hmap : (b'.arena r).map fr.values = (b.arena r).map fr.values := by
      rcases h.arena r with heq | ⟨-, hreplace⟩
      · rw [heq]
      · exact Statement.replaceUse_map hreplace hvalues
    -- the replacement has its type in the new block too, nothing above it has changed
    have hreptyp : ∀ t, b.HasTyp replacement t → b'.HasTyp replacement t := fun t ht =>
      hb.hasTyp_above hsplit habove (fun x hx => h.arena_above hb hsplit hx) hrep ht
    have huse' : ∀ exact, b.Asked exact useOf → b.TypKept exact useOf b' replacement := by
      intro exact hr t ht
      obtain ⟨t', ht', heq⟩ := huse.typ exact hr t ht
      exact ⟨t', hreptyp t' ht', heq⟩
    have hsource : b.SourceKept b' r := by
      refine Block.sourceKept_of_typKept hb' (h.statements.trans hsplit') (h.noPhi (hreach.noPhi env))
        fun kind typ value hs => ?_
      have hcast : b.Asked _ value := .cast (by simp [hsplit']) hs
      have hvalue : value ∈ done := hb.ordered done r rest hsplit' value (by simp [hs, Statement.operands])
      have hsame := h.typesKept huse' huse.width _ value hcast
      rcases h.arena r with heq | ⟨-, hreplace⟩
      · exact ⟨value, hvalue, heq.trans hs, hsame⟩
      · have hs' := Statement.cast_of_replaceUse hreplace hs
        split at hs'
        · rename_i heq
          subst heq
          exact ⟨replacement, hb.above_subset hsplit hsplit' hdone hrep, hs', huse' _ hcast⟩
        · exact ⟨value, hvalue, hs', hsame⟩
    refine ⟨execIn_sourceKept env hcall hmap hsource hstep, fun value => ?_⟩
    unfold Block.entry
    rw [hmap]
    rcases h.arena r with heq | ⟨-, hreplace⟩
    · rw [heq]
    · rw [Statement.isAccess_of_replaceUse hreplace]
  · -- above the statement nothing has changed
    have hsame : ∀ x ∈ done ++ [r], b'.arena x = b.arena x := by
      intro x hx
      rcases h.arena x with heq | ⟨-, hreplace⟩
      · exact heq
      · refine Statement.replaceUse_of_not_mem hreplace fun hmem => hdone ?_
        rcases mem_append.mp hx with hx | hx
        · exact hb.operand_mem hsplit' hx hmem
        · exact hb.ordered done r rest hsplit' useOf (mem_singleton.mp hx ▸ hmem)
    have hr := hsame r (by simp)
    have hsource := Block.sourceKept_of_above hb' h.statements hsplit'
      (h.noPhi (hreach.noPhi env)) hr hb fun x hx => hsame x (by simp [hx])
    refine ⟨execIn_sourceKept env hcall (by rw [hr]) hsource hstep, fun value => ?_⟩
    unfold Block.entry
    rw [hr]

end Icewind.Rudder
