import Icewind.X86.AllocatorScan

/-!
# Runs of the allocator's backward scan

* `Timely`, `held_at` — at every point of its live range a virtual register that ends up assigned
  is held by a live physical register.
* `scan_induct` — a property that every step keeps holds after the scan.
* `scan_run` — a scan that skips no instruction is the run of its steps.
-/

namespace Icewind.X86

open List Option

theorem Scan.run_append (st : Scan) (es es' : List Event) :
    st.run (es ++ es') = (st.run es).bind fun s => s.run es' := by
  simp only [Scan.run, foldlM_append]
  rfl

theorem Scan.run_cons (st : Scan) (e : Event) (es : List Event) :
    st.run (e :: es) = (st.step e).bind fun s => s.run es := rfl

/-- **A property every step keeps holds after a run.** -/
theorem Scan.run_induct {Φ : Scan → Prop} : ∀ (es : List Event) {st st' : Scan},
    (∀ e ∈ es, ∀ {s s' : Scan}, Φ s → s.step e = some s' → Φ s') → st.run es = some st' → Φ st → Φ st'
  | [], st, st', _, h, hΦ => by
    cases h
    exact hΦ
  | e :: es, st, st', hs, h, hΦ => by
    obtain ⟨s, h1, h2⟩ := bind_eq_some_iff.mp h
    exact Scan.run_induct es (fun e' he' => hs e' (mem_cons_of_mem _ he')) h2 (hs e mem_cons_self hΦ h1)

variable {es : List Event} {st st' : Scan}

theorem Core.run (hc : Core st) (h : st.run es = some st') : Core st' :=
  Scan.run_induct es (fun _ _ _ _ hc h => hc.step h) h hc

theorem run_ranges (hc : Core st) (h : st.run es = some st') (v : Nat) :
    st'.firstDef v = st.firstDef v ∧ st'.lastUse v = st.lastUse v := by
  have := Scan.run_induct (Φ := fun s => Core s ∧ s.firstDef v = st.firstDef v ∧ s.lastUse v = st.lastUse v)
    es (fun e _ s s' hs h => by
      obtain ⟨hf, hl⟩ := step_ranges hs.1 h v
      exact ⟨hs.1.step h, hf.trans hs.2.1, hl.trans hs.2.2⟩) h ⟨hc, rfl, rfl⟩
  exact this.2

/-- The index of the instruction a step belongs to. -/
def Event.index : Event → Nat
  | .define c _ _ => c
  | .use c _ => c
  | .call c => c

variable {c : Nat} {i : Opcode}

theorem mem_callEvents {e : Event} (h : e ∈ callEvents c i) : e = .call c := by
  unfold callEvents at h
  split at h
  · exact mem_singleton.mp h
  · simp at h

theorem instructionEvents_index {e : Event} (h : e ∈ instructionEvents c i) : e.index = c := by
  simp only [instructionEvents, mem_append, List.mem_map] at h
  rcases h with (⟨_, _, rfl⟩ | ⟨_, _, rfl⟩) | h
  · rfl
  · rfl
  · rw [mem_callEvents h]
    rfl

theorem events_index : ∀ (is : List Opcode) {c : Nat} {e : Event}, e ∈ events c is →
    c ≤ e.index ∧ e.index < c + is.length
  | [], _, _, h => by simp [events] at h
  | i :: is, c, e, h => by
    rcases mem_append.mp h with h | h
    · have := events_index is h
      simp only [length_cons]
      omega
    · rw [instructionEvents_index h]
      simp

theorem events_append (xs ys : List Opcode) : ∀ c, events c (xs ++ ys) = events (c + xs.length) ys ++ events c xs := by
  induction xs with
  | nil => intro c; simp [events]
  | cons x xs ih =>
    intro c
    simp only [cons_append, events, ih, length_cons, append_assoc]
    rw [Nat.add_right_comm, Nat.add_assoc]

/-! ### Where a virtual register is held -/

/-- Registers are assigned no earlier than at the last use, and then held until the first
definition. -/
def Timely (c : Nat) (st : Scan) : Prop :=
  ∀ u l, st.home u ≠ none → st.lastUse u = some l → c ≤ l ∧ (st.Held u ∨ ∃ f, st.firstDef u = some f ∧ c ≤ f)

theorem Timely.homeless {st : Scan} (h : ∀ u, st.home u = none) : Timely c st := by
  intro u l hu
  exact absurd (h u) hu

/-- An operand that is only read defines nothing, any other at most one register. -/
theorem useDefs_defined_length (d : OperandDirection) (o : Operand) :
    (((o.useDefs d).map Prod.fst).filter fun ud => ud.defined.isSome).length ≤
      if d = .in_ then 0 else 1 := by
  unfold Operand.useDefs
  split
  · simp [UseDef.defined]
  · simp [UseDef.defined]
  · cases d <;> simp [UseDef.ofDirection, UseDef.defined]
  · simp

theorem defined_length : ∀ l : List (OperandDirection × Operand),
    (((l.flatMap fun p => p.2.useDefs p.1).map Prod.fst).filter fun ud => ud.defined.isSome).length ≤
      (l.filter fun p => p.1 != .in_).length
  | [] => by simp
  | (d, o) :: l => by
    have hd := useDefs_defined_length d o
    have hl := defined_length l
    simp only [flatMap_cons, map_append, filter_append, length_append, filter_cons]
    cases d
    · rw [if_pos rfl] at hd
      rw [if_neg (by simp)]
      omega
    all_goals
      rw [if_neg (by simp)] at hd
      rw [if_pos (by simp), length_cons]
      omega

/-- No instruction of the table has more than two definitions. -/
theorem definitions_length_le_two (i : Opcode) : i.definitions.length ≤ 2 := by
  refine Nat.le_trans (defined_length i.getApparentOperands) ?_
  cases i with
  | op0 op => cases op <;> simp [Opcode.getApparentOperands]
  | op1 op a => cases op <;> simp [Opcode.getApparentOperands, Op1.direction]
  | op2 op a b => cases op <;> simp [Opcode.getApparentOperands, Op2.direction]
  | op3 op a b c => cases op <;> simp [Opcode.getApparentOperands, Op3.operands]
  | call f a b =>
    have hargs : ∀ rs : List PhysicalRegister,
        (rs.map fun r => ((.in_ : OperandDirection), Operand.preg .w64 r)).filter (fun p => p.1 != .in_) = [] := by
      intro rs
      simp
    simp only [Opcode.getApparentOperands, cons_append, filter_cons, filter_append, hargs]
    refine Nat.le_trans (length_filter_le _ _) ?_
    rw [length_map, length_take]
    exact Nat.min_le_right _ _

section Instruction

variable {c : Nat} {i : Opcode} {st st' : Scan}

/-- A live range that starts at `c` and has a register is held before the instruction. -/
theorem Timely.held (ht : Timely (c + 1) st) {w l : Nat} (hw : st.home w ≠ none)
    (hl : st.lastUse w = some l) (hf : st.firstDef w = some c) : st.Held w := by
  rcases (ht w l hw hl).2 with h | ⟨f, hf', hle⟩
  · exact h
  · rw [hf] at hf'
    cases hf'
    omega

variable {u : Nat}

theorem held_define {ud : UseDef} (hc : Core st) (ht : Timely (c + 1) st) (h : st.step (.define c i ud) = some st')
    (hu : st.Held u) (hf : st.firstDef u ≠ some c) : st'.Held u := by
  obtain ⟨r, hr⟩ := hu
  refine held_step hc h hr ?_
  rintro c' i' ud' w cls l he hd hw hl hh
  cases he
  obtain ⟨p, hp⟩ := ht.held (by rw [hh]; simp) hl hw
  have := hc.home hp
  rw [hh] at this
  cases this
  exact hf (hr.unique hp ▸ hw)

/-- A second definition by the same instruction: a live range that the first one closed has left
no register to give up. -/
theorem held_define_two {a b : UseDef} {st1 : Scan} (hc : Core st) (ht : Timely (c + 1) st)
    (h1 : st.step (.define c i a) = some st1) (h2 : st1.step (.define c i b) = some st') (hu : st.Held u)
    (hf : st.firstDef u ≠ some c) : st'.Held u := by
  have hc1 := hc.step h1
  obtain ⟨r, hr⟩ := held_define hc ht h1 hu hf
  refine held_step hc1 h2 hr ?_
  rintro c' i' ud' w cls l he hd hw hl hh
  cases he
  rw [(step_ranges hc h1 w).1] at hw
  rw [(step_ranges hc h1 w).2] at hl
  -- if `w` were still held it would be held by `r`, and so be `u`
  have not_held : ¬ st1.Held w := by
    rintro ⟨p, hp⟩
    have := hc1.home hp
    rw [hh] at this
    cases this
    exact hf (hr.unique hp ▸ hw)
  have hne : st.home w ≠ none := by
    rcases home_step hc h1 (u := w) (by rw [hh]; simp) with h | ⟨_, _, h, _⟩ | ⟨_, _, _, _, _, _, h, _⟩
    · exact h
    · cases h
    · rw [hl] at h
      cases h
  obtain ⟨p, hp⟩ := ht.held hne hl hw
  cases step_cases hc h1 with
  | define_idle | loaded => exact not_held ⟨p, hp⟩
  | @ended _ _ _ v _ q l' hd' hf' hl' hq =>
    by_cases e : q = p
    · subst e
      have := hc.home hp
      have hh' : st.home w = some r := hh
      rw [this] at hh'
      cases hh'
      exact Bool.noConfusion ((RegisterSet.remove_self st.live _).symm.trans hr.1)
    · exact not_held ⟨p, (RegisterSet.remove_of_ne _ (Ne.symm e)).trans hp.1, hp.2⟩
  | @released _ _ _ q _ _ hq =>
    have hpq : p ≠ q := by
      rintro rfl
      obtain ⟨_, cls', hp'⟩ := hp
      rw [hq] at hp'
      cases hp'
    exact not_held ⟨p, (RegisterSet.remove_of_ne _ hpq).trans hp.1, hp.2⟩
  | define_moves _ _ hm => exact not_held (hm.held_other hc hp)

variable {uds : List UseDef}

theorem held_definitions (hc : Core st) (ht : Timely (c + 1) st) (hlen : uds.length ≤ 2)
    (h : st.run (uds.map (.define c i)) = some st') (hu : st.Held u) (hf : st.firstDef u ≠ some c) : st'.Held u := by
  match uds, hlen with
  | [], _ =>
    cases h
    exact hu
  | [a], _ =>
    obtain ⟨s, h1, h⟩ := bind_eq_some_iff.mp h
    cases h
    exact held_define hc ht h1 hu hf
  | [a, b], _ =>
    obtain ⟨s, s', h1, h2, h⟩ := bind₂_eq_some h
    cases h
    exact held_define_two hc ht h1 h2 hu hf

/-- A run of definitions gives no register to anything that is read. -/
theorem home_definitions {u l : Nat} (hc : Core st) (h : st.run (uds.map (.define c i)) = some st')
    (hl : st.lastUse u = some l) (hu : st'.home u ≠ none) : st.home u ≠ none := by
  intro hn
  have := Scan.run_induct (Φ := fun s => Core s ∧ s.lastUse u = some l ∧ s.home u = none)
    (uds.map (.define c i)) (fun e he s s' hs h => by
      refine ⟨hs.1.step h, (step_ranges hs.1 h u).2.trans hs.2.1, ?_⟩
      by_contra hne
      rcases home_step hs.1 h hne with h | ⟨_, _, h, _⟩ | ⟨_, _, _, _, _, _, h, _⟩
      · exact h hs.2.2
      · obtain ⟨_, _, rfl⟩ := mem_map.mp he
        cases h
      · rw [hs.2.1] at h
        cases h) h ⟨hc, hl, hn⟩
  exact hu this.2.2

/-- **One instruction of the scan.** -/
theorem Timely.instruction (hc : Core st) (ht : Timely (c + 1) st)
    (h : st.run (instructionEvents c i) = some st') : Timely c st' := by
  unfold instructionEvents at h
  rw [append_assoc, Scan.run_append] at h
  obtain ⟨s, hd, h⟩ := bind_eq_some_iff.mp h
  have hcs := hc.run hd
  have hts : Timely c s := by
    intro u l hu hl
    rw [(run_ranges hc hd u).2] at hl
    have hu' := home_definitions hc hd hl hu
    obtain ⟨hle, hh⟩ := ht u l hu' hl
    refine ⟨by omega, ?_⟩
    rw [(run_ranges hc hd u).1]
    by_cases hf : st.firstDef u = some c
    · exact .inr ⟨c, hf, Nat.le_refl _⟩
    · rcases hh with hh | ⟨f, hf', hle'⟩
      · exact .inl (held_definitions hc ht (definitions_length_le_two i) hd hh hf)
      · exact .inr ⟨f, hf', by omega⟩
  refine (Scan.run_induct (Φ := fun s => Core s ∧ Timely c s) _ ?_ h ⟨hcs, hts⟩).2
  intro e he s s' hs h
  have hni : ∀ {c' i' ud}, e ≠ .define c' i' ud := by
    rintro c' i' ud rfl
    rcases mem_append.mp he with he | he
    · obtain ⟨_, _, h⟩ := mem_map.mp he
      cases h
    · cases mem_callEvents he
  have hidx : ∀ {c' ud}, e = .use c' ud → c' = c := by
    rintro c' ud rfl
    rcases mem_append.mp he with he | he
    · obtain ⟨_, _, h⟩ := mem_map.mp he
      cases h
      rfl
    · cases mem_callEvents he
  refine ⟨hs.1.step h, fun u l hu hl => ?_⟩
  rw [(step_ranges hs.1 h u).2] at hl
  rw [(step_ranges hs.1 h u).1]
  rcases home_step hs.1 h hu with hu' | ⟨c', ud, he', hl', hh⟩ | ⟨_, _, _, _, _, he', _⟩
  · obtain ⟨hle, hh⟩ := hs.2 u l hu' hl
    refine ⟨hle, hh.imp_left ?_⟩
    rintro ⟨r, hr⟩
    exact held_step hs.1 h hr fun he' => absurd he' hni
  · rw [hl] at hl'
    cases hl'
    exact ⟨Nat.le_of_eq (hidx he').symm, .inl hh⟩
  · exact absurd he' hni

end Instruction

theorem Timely.run : ∀ (is : List Opcode) {c : Nat} {st st' : Scan}, Core st → Timely (c + is.length) st →
    st.run (events c is) = some st' → Timely c st'
  | [], c, st, st', _, ht, h => by
    cases h
    exact ht
  | i :: is, c, st, st', hc, ht, h => by
    rw [events, Scan.run_append] at h
    obtain ⟨s, h1, h2⟩ := bind_eq_some_iff.mp h
    have ht' : Timely (c + 1 + is.length) st := by
      rwa [length_cons, Nat.add_comm is.length 1, ← Nat.add_assoc] at ht
    exact (Timely.run is hc ht' h1).instruction (hc.run h1) h2

/-- A register that has none when the scan has passed its last use gets none. -/
theorem homeless_run {v l : Nat} (hc : Core st) (h : st.run es = some st') (hl : st.lastUse v = some l)
    (hi : ∀ e ∈ es, e.index ≠ l) (hn : st.home v = none) : st'.home v = none := by
  refine (Scan.run_induct (Φ := fun s => Core s ∧ s.lastUse v = some l ∧ s.home v = none) es
    (fun e he s s' hs h => ⟨hs.1.step h, (step_ranges hs.1 h v).2.trans hs.2.1, ?_⟩) h ⟨hc, hl, hn⟩).2.2
  by_contra hne
  rcases home_step hs.1 h hne with h | ⟨c, ud, rfl, h, _⟩ | ⟨_, _, _, _, _, _, h, _⟩
  · exact h hs.2.2
  · rw [hs.2.1] at h
    cases h
    exact hi _ he rfl
  · rw [hs.2.1] at h
    cases h

/-- **At every point of its live range a register that ends up assigned is held.** -/
theorem held_at {is : List Opcode} {st stk st' : Scan} {k v f l : Nat} (hc : Core st)
    (hn : ∀ u, st.home u = none) (h1 : st.run (events k (is.drop k)) = some stk)
    (h2 : stk.run (events 0 (is.take k)) = some st') (hv : st'.home v ≠ none)
    (hf : st.firstDef v = some f) (hl : st.lastUse v = some l) (hfk : f < k) (hkl : k ≤ l) :
    stk.Held v := by
  have hck := hc.run h1
  have hlk : stk.lastUse v = some l := (run_ranges hc h1 v).2.trans hl
  have hne : stk.home v ≠ none := by
    intro hnk
    refine hv (homeless_run hck h2 hlk ?_ hnk)
    intro e he
    have := (events_index _ he).2
    have hlen : (is.take k).length ≤ k := length_take_le k is
    omega
  have ht : Timely k stk := Timely.run (is.drop k) hc (Timely.homeless hn) h1
  rcases (ht v l hne hlk).2 with h | ⟨f', hf', hle⟩
  · exact h
  · rw [(run_ranges hc h1 v).1, hf] at hf'
    cases hf'
    omega

/-! ### The scan as a run -/

/-- A move from memory. -/
def Opcode.IsLoad (i : Opcode) : Prop :=
  ∃ src dst b x s d g, i = .mov src dst ∧ src.kind = .memory b x s d g

theorem define_cases {ud : UseDef} {skip : Bool} (h : define c i ud st = some (st', skip)) :
    (skip = false ∧ st.step (.define c i ud) = some st') ∨
      (skip = true ∧ st' = st ∧ ∃ v cls, ud.defined = some (.virtual v cls) ∧ st.firstDef v = some c ∧
        st.lastUse v = none ∧ ¬ i.IsLoad) := by
  cases skip with
  | false => exact .inl ⟨rfl, by simp only [Scan.step, h]⟩
  | true =>
    refine .inr ⟨rfl, ?_⟩
    unfold define at h
    split at h
    · rename_i v cls hd
      unfold defineVirtual at h
      dsimp only at h
      split at h
      · rename_i hf
        split at h
        · rename_i hl
          split at h
          · split at h
            · cases h
            · obtain ⟨q, _, h⟩ := bind_eq_some_iff.mp h
              cases h
          · rename_i hn
            cases h
            refine ⟨rfl, v, cls, hd, hf, hl, ?_⟩
            rintro ⟨⟨k, w⟩, dst, b, x, s, d, g, rfl, hk⟩
            subst hk
            exact hn _ _ _ _ _ _ _ rfl
        · obtain ⟨q, _, h⟩ := bind_eq_some_iff.mp h
          cases h
      · cases h
    · obtain ⟨s, _, h⟩ := bind_eq_some_iff.mp h
      cases h
    · cases h

theorem run_uses (c : Nat) : ∀ (uds : List UseDef) (st : Scan),
    uds.foldlM (fun st ud => use c ud st) st = st.run (uds.map (.use c))
  | [], _ => rfl
  | ud :: uds, st => by
    rw [foldlM_cons, map_cons, Scan.run_cons]
    refine congrArg _ (funext fun s => run_uses c uds s)

theorem run_recordCall (c : Nat) (i : Opcode) (st : Scan) : st.run (callEvents c i) = some (recordCall c i st) := by
  cases i <;> rfl

section Induct

variable {Φ : Scan → Prop}

theorem defineAll_induct {c : Nat} {i : Opcode} : ∀ (uds : List UseDef) {st st' : Scan} {skip : Bool},
    (∀ ud ∈ uds, ∀ {s s' : Scan}, Φ s → s.step (.define c i ud) = some s' → Φ s') →
    defineAll c i uds st = some (st', skip) → Φ st → Φ st'
  | [], st, st', skip, _, h, hΦ => by
    cases h
    exact hΦ
  | ud :: uds, st, st', skip, hs, h, hΦ => by
    obtain ⟨⟨s, sk⟩, h1, h⟩ := bind_eq_some_iff.mp h
    rcases define_cases h1 with ⟨rfl, hstep⟩ | ⟨rfl, hst, _⟩
    · exact defineAll_induct uds (fun u hu => hs u (mem_cons_of_mem _ hu)) h (hs ud mem_cons_self hΦ hstep)
    · cases h
      rwa [hst]

/-- **A property every step keeps holds after the scan.** -/
theorem scan_induct : ∀ (is : List Opcode) {c : Nat} {st st' : Scan},
    (∀ {k i}, is[k]? = some i → ∀ e ∈ instructionEvents (c + k) i, ∀ {s s' : Scan}, Φ s → s.step e = some s' → Φ s') →
    scan c is st = some st' → Φ st → Φ st'
  | [], c, st, st', _, h, hΦ => by
    cases h
    exact hΦ
  | i :: is, c, st, st', hs, h, hΦ => by
    obtain ⟨s, h1, h⟩ := bind_eq_some_iff.mp h
    have hΦs : Φ s := by
      refine scan_induct is (fun {k j} hk e he => ?_) h1 hΦ
      refine hs (k := k + 1) (by simpa using hk) e ?_
      rwa [Nat.add_right_comm, Nat.add_assoc] at he
    have hi : ∀ e ∈ instructionEvents c i, ∀ {s s' : Scan}, Φ s → s.step e = some s' → Φ s' :=
      hs (k := 0) rfl
    obtain ⟨⟨s1, skip⟩, h2, h⟩ := bind_eq_some_iff.mp h
    have hΦ1 : Φ s1 := by
      refine defineAll_induct _ (fun ud hud => hi _ ?_) h2 hΦs
      simp only [instructionEvents, mem_append, List.mem_map]
      exact .inl (.inl ⟨ud, hud, rfl⟩)
    dsimp only at h
    split at h
    · cases h
      exact hΦ1
    · obtain ⟨s2, h3, h⟩ := bind_eq_some_iff.mp h
      rw [run_uses] at h3
      have hΦ2 : Φ s2 := by
        refine Scan.run_induct _ (fun e he => hi e ?_) h3 hΦ1
        simp only [instructionEvents, mem_append]
        exact .inl (.inr he)
      refine Scan.run_induct _ (fun e he => hi e ?_) ((run_recordCall c i s2).trans h) hΦ2
      simp only [instructionEvents, mem_append]
      exact .inr he

end Induct

/-- No virtual register is defined by an instruction only to stay unread, loads apart. -/
def Unskipped (st : Scan) (c : Nat) (is : List Opcode) : Prop :=
  ∀ {k i ud v cls}, is[k]? = some i → ud ∈ i.definitions → ud.defined = some (.virtual v cls) →
    st.firstDef v = some (c + k) → st.lastUse v = none → i.IsLoad

theorem defineAll_run : ∀ (uds : List UseDef) {st st' : Scan} {skip : Bool}, Core st →
    (∀ ud ∈ uds, ∀ {v cls}, ud.defined = some (.virtual v cls) → st.firstDef v = some c →
      st.lastUse v = none → i.IsLoad) →
    defineAll c i uds st = some (st', skip) →
    skip = false ∧ st.run (uds.map (.define c i)) = some st'
  | [], st, st', skip, _, _, h => by
    cases h
    exact ⟨rfl, rfl⟩
  | ud :: uds, st, st', skip, hc, hs, h => by
    obtain ⟨⟨s, sk⟩, h1, h⟩ := bind_eq_some_iff.mp h
    rcases define_cases h1 with ⟨rfl, hstep⟩ | ⟨_, _, v, cls, hd, hf, hl, hn⟩
    · have := defineAll_run uds (hc.step hstep) (fun u hu v cls hd hf hl => by
        rw [(step_ranges hc hstep v).1] at hf
        rw [(step_ranges hc hstep v).2] at hl
        exact hs u (mem_cons_of_mem _ hu) hd hf hl) h
      refine ⟨this.1, ?_⟩
      rw [map_cons, Scan.run_cons, hstep]
      exact this.2
    · exact absurd (hs ud mem_cons_self hd hf hl) hn

/-- **A scan that skips nothing is the run of its steps.** -/
theorem scan_run : ∀ (is : List Opcode) {c : Nat} {st st' : Scan}, Core st → Unskipped st c is →
    scan c is st = some st' → st.run (events c is) = some st'
  | [], c, st, st', _, _, h => h
  | i :: is, c, st, st', hc, hu, h => by
    obtain ⟨s, h1, h⟩ := bind_eq_some_iff.mp h
    have hs : st.run (events (c + 1) is) = some s := by
      refine scan_run is hc (fun {k j ud v cls} hk hud hd hf hl => ?_) h1
      refine hu (k := k + 1) (by simpa using hk) hud hd ?_ hl
      rwa [Nat.add_right_comm, Nat.add_assoc] at hf
    have hcs := hc.run hs
    obtain ⟨⟨s1, skip⟩, h2, h⟩ := bind_eq_some_iff.mp h
    obtain ⟨rfl, hd⟩ := defineAll_run _ hcs (fun ud hud v cls hd hf hl => by
      rw [(run_ranges hc hs v).1] at hf
      rw [(run_ranges hc hs v).2] at hl
      exact hu (k := 0) rfl hud hd hf hl) h2
    obtain ⟨s2, h3, h⟩ := bind_eq_some_iff.mp h
    rw [run_uses] at h3
    simp only [events, instructionEvents, Scan.run_append, hs, hd, h3, bind_some]
    exact (run_recordCall c i s2).trans h

end Icewind.X86
