import Icewind.Rudder.Outcomes

/-!
# Statements copied into another block

* `Embeds` — some statements of a block stand in another block under new names, with all their operands.
* `Embeds.sourceTyp` — their static types are the same there.
* `Embeds.observeStatements` — and so is what they do, in frames with the same values (`FrameEmbeds`).
* `observeStatements_common` — two blocks that begin with the same statements.
-/

namespace Icewind.Rudder

open List

/-! ### Types -/

theorem Statement.typOf_congr {ρ : Type} {const const' : ρ → Option Constant} {typ typ' : ρ → Option Typ}
    {s : Statement ρ} (hconst : ∀ w, s.widthOperand = some w → const' w = const w)
    (htyp : ∀ x ∈ s.consults, typ' x = typ x) : s.typOf const' typ' = s.typOf const typ := by
  refine Option.ext fun t => ⟨fun h => ?_, fun h => ?_⟩
  · exact typOf_mono (fun w hw => (hconst w hw).symm) (fun x hx t ht => (htyp x hx).symm.trans ht) h
  · exact typOf_mono hconst (fun x hx t ht => (htyp x hx).trans ht) h

variable {r : Ref}

/-- As much fuel as there are statements is enough for the type of each of them. -/
theorem Block.WellFormed.typAux_eq {b : Block} (hb : b.WellFormed) (hphi : b.NoPhi b.statements)
    (hr : r ∈ b.statements) {n : Nat} (hn : b.statements.length ≤ n) : b.typAux n r = b.typ r := by
  obtain ⟨done, rest, hsplit⟩ := append_of_mem hr
  have habove : b.NoPhi (done ++ [r]) := fun x hx => hphi x (by
    rw [hsplit]
    simp only [mem_append, mem_cons, not_mem_nil, or_false] at hx ⊢
    tauto)
  refine Option.ext fun t => ⟨fun h => hb.typ_eq hsplit habove ⟨n, h⟩, fun h => ?_⟩
  have hlength := hb.typAux_length _ hsplit habove h
  rw [hsplit, length_append, length_cons] at hn
  exact b.typAux_mono (by omega) hlength

/-! ### Statements under new names -/

/-- The statements stand in the other block under new names, and so do their operands. -/
structure Embeds (b b' : Block) (l : List Ref) (m : Ref → Ref) : Prop where
  arena : ∀ r ∈ l, b'.arena (m r) = (b.arena r).map m
  closed : ∀ r ∈ l, ∀ o ∈ (b.arena r).operands, o ∈ l
  noPhi : b.NoPhi l

namespace Embeds

variable {b b' : Block} {l : List Ref} {m : Ref → Ref}

theorem constantAt (h : Embeds b b' l m) (hr : r ∈ l) : b'.constantAt (m r) = b.constantAt r := by
  unfold Block.constantAt
  rw [h.arena r hr]
  cases b.arena r <;> rfl

theorem typAux (h : Embeds b b' l m) : ∀ (n : Nat) {r : Ref}, r ∈ l → b'.typAux n (m r) = b.typAux n r
  | 0, _, _ => rfl
  | n + 1, r, hr => by
    rw [Block.typAux, Block.typAux, h.arena r hr, Statement.typOf_map]
    refine Statement.typOf_congr (fun w hw => ?_) fun x hx => ?_
    · exact h.constantAt (h.closed r hr w (Statement.widthOperand_mem hw))
    · exact h.typAux n (h.closed r hr x (Statement.consults_subset (h.noPhi r hr) x hx))

/-- **The static types are the same.** -/
theorem sourceTyp (h : Embeds b b' l m) (hb : b.WellFormed) (hphi : b.NoPhi b.statements) (hl : l ⊆ b.statements)
    (hsize : b.statements.length ≤ b'.arenaSize) (hr : r ∈ l) : b'.sourceTyp (m r) = b.sourceTyp r := by
  have hoperands := h.closed r hr
  unfold Block.sourceTyp
  rw [h.arena r hr]
  cases hs : b.arena r with
  | cast kind typ value =>
    have hvalue : value ∈ l := hoperands value (by rw [hs]; exact mem_singleton_self value)
    change b'.typ (m value) = b.typ value
    unfold Block.typ
    rw [h.typAux _ hvalue]
    exact hb.typAux_eq hphi (hl hvalue) hsize
  | _ => rfl

end Embeds

/-! ### What they do -/

/-- Two frames with the same variables, flags and values. -/
structure FrameEmbeds (l : List Ref) (m : Ref → Ref) (fr fr' : Frame) : Prop where
  locals : fr'.locals = fr.locals
  flags : fr'.flags = fr.flags
  values : ∀ r ∈ l, fr'.values (m r) = fr.values r

variable {l : List Ref} {m : Ref → Ref} {fr fr' : Frame}

theorem FrameEmbeds.next (h : FrameEmbeds l m fr fr') (hm : ∀ x ∈ l, ∀ y ∈ l, m x = m y → x = y) (hr : r ∈ l)
    (value : Option Value) (locals : Locals) (flags : Nat) :
    FrameEmbeds l m (fr.next r value locals flags) (fr'.next (m r) value locals flags) := by
  refine ⟨rfl, rfl, fun x hx => ?_⟩
  by_cases hxr : x = r
  · subst hxr
    cases value with
    | some v => rw [Frame.next_values_self, Frame.next_values_self]
    | none => exact h.values x hx
  · rw [fr.next_values_of_ne _ _ _ hxr, fr'.next_values_of_ne _ _ _ fun heq => hxr (hm x hx r hr heq)]
    exact h.values x hx

variable {μ : Type} (env : Environment μ) {b b' : Block}

theorem Embeds.observeStatement (h : Embeds b b' l m) (htyp : ∀ r ∈ l, b'.sourceTyp (m r) = b.sourceTyp r)
    (hfr : FrameEmbeds l m fr fr') (call : Observes μ) (hr : r ∈ l) (s : Seen μ) :
    Rudder.observeStatement env call b' (m r) fr' s = Rudder.observeStatement env call b r fr s := by
  have hmap : (b'.arena (m r)).map fr'.values = (b.arena r).map fr.values := by
    rw [h.arena r hr, Statement.map_map]
    exact Statement.map_congr (h.noPhi r hr) fun o ho => hfr.values o (h.closed r hr o ho)
  unfold Rudder.observeStatement
  rw [hmap, htyp r hr, hfr.locals, hfr.flags]

/-- **The copied statements do what the statements did.** -/
theorem Embeds.observeStatements (h : Embeds b b' l m) (htyp : ∀ r ∈ l, b'.sourceTyp (m r) = b.sourceTyp r)
    (hm : ∀ x ∈ l, ∀ y ∈ l, m x = m y → x = y) (call : Observes μ) :
    ∀ {rest : List Ref} {fr fr' : Frame} {s : Seen μ}, rest ⊆ l → FrameEmbeds l m fr fr' →
      Rudder.observeStatements env call b' (rest.map m) fr' s = Rudder.observeStatements env call b rest fr s
  | [], _, _, _, _, _ => rfl
  | r :: rest, fr, fr', s, hsub, hfr => by
    have hr : r ∈ l := hsub mem_cons_self
    rw [map_cons]
    unfold Rudder.observeStatements
    rw [h.observeStatement env htyp hfr call hr s]
    cases Rudder.observeStatement env call b r fr s with
    | next value locals flags t =>
      exact h.observeStatements htyp hm call (fun x hx => hsub (mem_cons_of_mem r hx))
        (hfr.next hm hr value locals flags)
    | goto target => simp only [hfr.locals, hfr.flags]
    | return_ | panicked | timeout => rfl

/-- **Two blocks that begin with the same statements** are left during them in the same way, or come to the end of
them with the same frame. -/
theorem observeStatements_common {call : Observes μ} : ∀ (l : List Ref) (fr : Frame) (s : Seen μ),
    (∀ r ∈ l, ∀ fr s, observeStatement env call b' r fr s = observeStatement env call b r fr s) →
    (∃ o, ∀ rest, observeStatements env call b (l ++ rest) fr s = o ∧
      observeStatements env call b' (l ++ rest) fr s = o) ∨
    ∃ fr1 s1, (∀ x, x ∉ l → fr1.values x = fr.values x) ∧
      ∀ rest, observeStatements env call b (l ++ rest) fr s = observeStatements env call b rest fr1 s1 ∧
        observeStatements env call b' (l ++ rest) fr s = observeStatements env call b' rest fr1 s1
  | [], fr, s, _ => .inr ⟨fr, s, fun _ _ => rfl, fun _ => ⟨rfl, rfl⟩⟩
  | r :: l, fr, s, hsame => by
    have hr := hsame r mem_cons_self fr s
    have hrest := fun x hx => hsame x (mem_cons_of_mem r hx)
    simp only [cons_append, observeStatements, hr]
    cases observeStatement env call b r fr s with
    | next value locals flags t =>
      rcases observeStatements_common l (fr.next r value locals flags) t hrest with
        hleft | ⟨fr1, s1, hvalues, hthen⟩
      · exact .inl hleft
      · refine .inr ⟨fr1, s1, fun x hx => ?_, hthen⟩
        have hne : x ≠ r := fun h => hx (h ▸ mem_cons_self)
        rw [hvalues x fun h => hx (mem_cons_of_mem r h), fr.next_values_of_ne _ _ _ hne]
    | goto | return_ | panicked | timeout => exact .inl ⟨_, fun _ => ⟨rfl, rfl⟩⟩

end Icewind.Rudder
