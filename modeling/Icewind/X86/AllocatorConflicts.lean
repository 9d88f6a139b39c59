import Icewind.X86.AllocatorRun
import Icewind.X86.AllocatorCommit

/-!
# Conflicts in the final assignment

* `Allocation` — a successful allocation with its intermediate results.
* `Scan.undisturbed` — no step moves a virtual register out of a given growing set.
* `spoiled` — the virtual registers whose interference set a step leaves incomplete: one that a
  definition of its physical register moved, and those live where a register outside their
  interference set, which could be handed out, is written without being live.
* `Allocation.conflictFree_of_undisturbed` — if no such register is moved again, the final assignment has no
  conflict.
-/

namespace Icewind.X86

open List Option Scan

/-! ## A successful allocation -/

/-- The results of the three passes of `allocate`. -/
structure Allocation (is : List Opcode) (n off : Nat) where
  ranges : RegisterTracker
  /-- The instructions left by the forward pass. -/
  code : List Opcode
  final : Scan
  out : List Opcode
  calculated : calculateVregLiveRanges n is = some (ranges, code)
  scanned : doAllocate ranges code = some final
  committed : commit final.tracker final.liveAtCalls code off = some out

theorem allocate_eq_some {is out : List Opcode} {n off : Nat} :
    allocate is n off = some out ↔ ∃ A : Allocation is n off, A.out = out := by
  constructor
  · intro h
    obtain ⟨⟨t, code⟩, h1, h⟩ := bind_eq_some_iff.mp h
    obtain ⟨st, h2, h3⟩ := bind_eq_some_iff.mp h
    exact ⟨⟨t, code, st, out, h1, h2, h3⟩, rfl⟩
  · rintro ⟨A, rfl⟩
    unfold allocate
    simp only [A.calculated, bind_eq_bind, bind_some, A.scanned]
    exact A.committed

variable {k : Nat}

namespace Allocation

variable {is : List Opcode} {n off : Nat} (A : Allocation is n off)

/-- The state before the scan. -/
def initial : Scan := ⟨A.ranges, .empty, []⟩

/-- The physical register a virtual one is finally assigned. -/
def assigned (v : Nat) : Option PhysicalRegister := A.final.home v

theorem initial_home (v : Nat) : A.initial.home v = none := by
  obtain ⟨count, hr⟩ := calculateVregLiveRanges_spec A.calculated
  exact hr.unassigned v

theorem range_of_liveAt {v k : Nat} (h : LiveAt A.code v k) :
    ∃ f l, A.initial.firstDef v = some f ∧ A.initial.lastUse v = some l ∧ f < k ∧ k ≤ l := by
  obtain ⟨count, hr⟩ := calculateVregLiveRanges_spec A.calculated
  obtain ⟨⟨j, i, hj, hi, hw⟩, j', i', hj', hi', hrd⟩ := h
  have hlt : ∀ {j i}, A.code[j]? = some i → j < is.length := by
    intro j i hi
    rw [← hr.length]
    exact (List.getElem?_eq_some_iff.mp hi).1
  obtain ⟨f, hfj, hf⟩ := hr.written (hlt hi) hi hw
  obtain ⟨l, hjl, hl⟩ : ∃ l, j' ≤ l ∧ A.initial.lastUse v = some l := by
    rcases hr.killed hi' with h | rfl
    · exact hr.read (hlt hi') h hrd
    · simp at hrd
  exact ⟨f, l, hf, hl, by omega, by omega⟩

/-- An instruction is skipped only for a register that stays unassigned, and then the commit
would have failed. -/
theorem unskipped (hs : Slotted is) : Unskipped A.initial 0 A.code := by
  intro k i ud v cls hk hud hd hf hl
  by_contra hn
  rw [Nat.zero_add] at hf
  obtain ⟨w, hm⟩ := mem_getUseDefs_of_definitions hud
  refine commit_assigned (hs.killed A.calculated) A.committed hk hm (UseDef.defined_eq_some hd) ?_
  refine (scan_induct (Φ := fun s => Core s ∧ s.firstDef v = some k ∧ s.lastUse v = none ∧ s.home v = none)
    A.code (fun {k' i'} hk' e he s s' hs h => ?_) A.scanned
    ⟨Core.init _, hf, hl, A.initial_home v⟩).2.2.2
  obtain ⟨hc, hf, hl, hh⟩ := hs
  refine ⟨hc.step h, (step_ranges hc h v).1.trans hf, (step_ranges hc h v).2.trans hl, ?_⟩
  by_contra hne
  rcases home_step hc h hne with h | ⟨_, _, _, h, _⟩ | ⟨c, i1, _, src, dst, rfl, _, h, hi, b, x, y, d, g, hm⟩
  · exact h hh
  · rw [hl] at h
    cases h
  · rw [hf] at h
    cases h
    have hidx : k = k' := by
      have := instructionEvents_index he
      rwa [Nat.zero_add] at this
    have hii : i1 = i' := by
      simp only [instructionEvents, mem_append, List.mem_map] at he
      rcases he with (⟨_, _, he⟩ | ⟨_, _, he⟩) | he
      · cases he
        rfl
      · cases he
      · cases mem_callEvents he
    subst hidx
    rw [hk'] at hk
    cases hk
    exact hn ⟨src, dst, b, x, y, d, g, hii ▸ hi, hm⟩

theorem point (hs : Slotted is) (hk : k ≤ A.code.length) :
    ∃ s, A.initial.run (events k (A.code.drop k)) = some s ∧ Core s ∧
      s.run (events 0 (A.code.take k)) = some A.final := by
  have h := scan_run A.code (Core.init _) (A.unskipped hs) A.scanned
  rw [← take_append_drop k A.code, events_append, run_append] at h
  rw [length_take, Nat.min_eq_left hk, Nat.zero_add] at h
  obtain ⟨s, h1, h2⟩ := bind_eq_some_iff.mp h
  exact ⟨s, h1, (Core.init _).run h1, h2⟩

end Allocation

/-! ## Runs that leave some registers in place -/

/-- No step of the run moves a virtual register of the set, which `mark` lets grow. -/
def Scan.undisturbed (mark : Scan → Event → List Nat) : List Event → Scan → List Nat → Bool
  | [], _, _ => true
  | e :: es, st, g =>
    (match st.moved e with
      | some v => !g.contains v
      | none => true) &&
    match st.step e with
    | some st' => undisturbed mark es st' (mark st e ++ g)
    | none => true

/-- The step moves nothing of the set. -/
def Scan.Spares (st : Scan) (e : Event) (g : List Nat) : Prop := ∀ v, st.moved e = some v → v ∉ g

variable {c : Nat} {i : Opcode} {ud : UseDef} {v : Nat}

section Undisturbed

variable {mark : Scan → Event → List Nat} {st st' : Scan} {g : List Nat}

theorem Scan.undisturbed_cons {e : Event} {es : List Event} (h : st.step e = some st')
    (hu : undisturbed mark (e :: es) st g = true) :
    st.Spares e g ∧ undisturbed mark es st' (mark st e ++ g) = true := by
  simp only [undisturbed, h, Bool.and_eq_true] at hu
  refine ⟨fun v hv => ?_, hu.2⟩
  have := hu.1
  rw [hv] at this
  simpa using this

/-- **A property that undisturbed steps keep holds after an undisturbed run.** -/
theorem Scan.undisturbed_induct {Φ : List Nat → Scan → Prop}
    (hstep : ∀ {g s s' e}, Φ g s → s.step e = some s' → s.Spares e g → Φ (mark s e ++ g) s') :
    ∀ (es : List Event) {st : Scan} {g : List Nat}, undisturbed mark es st g = true →
      st.run es = some st' → Φ g st → ∃ g', Φ g' st'
  | [], st, g, _, h, hΦ => by
    cases h
    exact ⟨g, hΦ⟩
  | e :: es, st, g, hu, h, hΦ => by
    obtain ⟨s, h1, h2⟩ := bind_eq_some_iff.mp h
    obtain ⟨hsp, hu⟩ := undisturbed_cons h1 hu
    exact undisturbed_induct hstep es hu h2 (hstep hΦ h1 hsp)

theorem Scan.undisturbed_append : ∀ (es : List Event) {es' : List Event} {st : Scan} {g : List Nat},
    undisturbed mark (es ++ es') st g = true → st.run es = some st' →
    ∃ g', undisturbed mark es' st' g' = true
  | [], es', st, g, hu, h => by
    cases h
    exact ⟨g, hu⟩
  | e :: es, es', st, g, hu, h => by
    obtain ⟨s, h1, h2⟩ := bind_eq_some_iff.mp h
    exact undisturbed_append es (undisturbed_cons h1 hu).2 h2

variable {p q : PhysicalRegister}

theorem Moves.moved_define (hd : ud.defined = some (.physical p)) (h : Moves st st' v p q) :
    st.moved (.define c i ud) = some v := by
  simp only [moved, hd]
  exact heldBy_eq_some.mpr h.held

theorem Moves.moved_use (hd : ud.used = some (.physical p)) (h : Moves st st' v p q) :
    st.moved (.use c ud) = some v := by
  simp only [moved, hd]
  exact heldBy_eq_some.mpr h.held

end Undisturbed

/-- The virtual registers whose interference set is incomplete after a step. -/
def spoiled (st : Scan) : Event → List Nat
  | .define _ _ ud =>
    match ud.defined with
    | some (.physical p) =>
      if st.live p then (st.heldBy p).toList
      else if ud = .def_ (.physical p) ∧ p ∈ availPhysRegsGpr ++ availPhysRegsXmm then
        (PhysicalRegister.all.filterMap st.heldBy).filter fun v => !st.avoids v p
      else []
    | _ => []
  | _ => []

/-! ## Two virtual registers, and a virtual and a physical one -/

/-- A virtual register that may still be moved keeps away from `p`, if `p` could be handed out. -/
def Wary (g : List Nat) (st : Scan) (v : Nat) (p : PhysicalRegister) : Prop :=
  p ∈ availPhysRegsGpr ++ availPhysRegsXmm → st.Held v → v ∉ g → st.avoids v p = true

/-- `v` is not in `p` and will not be moved there. -/
structure Shuns (g : List Nat) (st : Scan) (v : Nat) (p : PhysicalRegister) : Prop where
  away : st.home v ≠ some p
  wary : Wary g st v p

/-- `u` and `v` are in different registers and will not be moved together. -/
structure Apart (g : List Nat) (st : Scan) (u v : Nat) : Prop where
  away : ∀ p, st.home u = some p → st.home v ≠ some p
  left : ∀ p, st.home v = some p → Wary g st u p
  right : ∀ p, st.home u = some p → Wary g st v p

section Pairs

variable {st st' : Scan} {g : List Nat} {e : Event} {v : Nat}

/-- An assigned register stays where it is, or moves to a register of its class outside its interference set. -/
theorem home_cases (hc : Core st) (h : st.step e = some st') (hv : st.home v ≠ none) :
    st'.home v = st.home v ∨ ∃ q, st.moved e = some v ∧ (∃ p, st.Holds p v ∧ q.class_ = p.class_) ∧
      st.avoids v q = false ∧ st'.home v = some q ∧ st'.Holds q v := by
  cases step_cases hc h with
  | define_idle | ended | released | use_idle | called => exact .inl rfl
  | @loaded c i ud w cls q src dst hd hf hl hn =>
    have hvw : v ≠ w := by
      rintro rfl
      exact hv hn
    exact .inl (by simp only [home, RegisterTracker.modifyVirt_virt, if_neg hvw])
  | @define_moves c i ud w p q _ hd _ hm =>
    by_cases hvw : v = w
    · subst hvw
      have hhome : st'.home v = some q := by rw [hm.home, if_pos rfl]
      exact .inr ⟨q, hm.moved_define hd, ⟨p, hm.held, hm.class_eq⟩, hm.fresh, hhome, hm.holds⟩
    · exact .inl (by rw [hm.home, if_neg hvw])
  | @started c ud w cls q _ hd hl hq hs =>
    have hvw : v ≠ w := by
      rintro rfl
      exact hv hs.homeless
    exact .inl (by rw [hs.home, if_neg hvw])
  | @use_moves c ud w p q _ hd _ _ hm =>
    by_cases hvw : v = w
    · subst hvw
      have hhome : st'.home v = some q := by rw [hm.home, if_pos rfl]
      exact .inr ⟨q, hm.moved_use hd, ⟨p, hm.held, hm.class_eq⟩, hm.fresh, hhome, hm.holds⟩
    · exact .inl (by rw [hm.home, if_neg hvw])
  | occupied _ ho => exact .inl (ho.home v)

theorem home_kept (hc : Core st) (h : st.step e = some st') (hv : st.home v ≠ none) : st'.home v ≠ none := by
  rcases home_cases hc h hv with e | ⟨q, _, _, _, e, _⟩
  · rwa [e]
  · rw [e]
    simp

variable {u : Nat}

theorem Starts.holds_old {q r : PhysicalRegister} (h : Starts st st' v q) (hu : u ≠ v) (hh : st'.Holds r u) :
    st.Holds r u := by
  have hr : r ≠ q := by
    rintro rfl
    exact hu (hh.unique h.holds)
  obtain ⟨hl, cls, ht⟩ := hh
  rw [h.live, RegisterSet.insert_of_ne _ hr] at hl
  exact ⟨hl, cls, (h.tracking r hr).symm.trans ht⟩

variable {p : PhysicalRegister}

theorem Moves.held_old {q : PhysicalRegister} (h : Moves st st' v p q) (hu : u ≠ v) (hh : st'.Held u) :
    st.Held u := by
  obtain ⟨r, hr⟩ := hh
  refine ⟨r, (h.holds_old ?_ hr).2⟩
  rintro rfl
  exact hu (hr.unique h.holds)

theorem Wary.step (hw : Wary g st v p) (hc : Core st) (h : st.step e = some st') (hv : st.home v ≠ none) :
    Wary (spoiled st e ++ g) st' v p := by
  intro hpa hh hg
  have hg' : v ∉ g := fun hm => hg (mem_append_right _ hm)
  replace hw := hw hpa
  cases step_cases hc h with
  | define_idle | use_idle | called => exact hw hh hg'
  | ended | released =>
    obtain ⟨r, hr⟩ := hh
    exact hw ⟨r, (RegisterSet.of_remove hr.1).2, hr.2⟩ hg'
  | @loaded c i ud w cls q src dst hd hf hl hn =>
    have hvw : v ≠ w := by
      rintro rfl
      exact hv hn
    simp only [avoids, RegisterTracker.modifyVirt_virt, if_neg hvw]
    exact hw hh hg'
  | @define_moves c i ud w r q _ hd _ hm =>
    have hvw : v ≠ w := by
      rintro rfl
      refine hg (mem_append_left _ ?_)
      simp only [spoiled, hd, hm.held.1, if_true, heldBy_eq_some.mpr hm.held]
      simp
    exact hm.grows v hvw p (hw (hm.held_old hvw hh) hg')
  | @started c ud w cls q _ hd hl hq hs =>
    have hvw : v ≠ w := by
      rintro rfl
      exact hv hs.homeless
    obtain ⟨r, hr⟩ := hh
    exact hs.grows v hvw p (hw ⟨r, hs.holds_old hvw hr⟩ hg')
  | @use_moves c ud w r q _ hd _ hkeep hm =>
    by_cases hvw : v = w
    · subst hvw
      exact hkeep p (hw ⟨r, hm.held⟩ hg')
    · exact hm.grows v hvw p (hw (hm.held_old hvw hh) hg')
  | occupied _ ho =>
    obtain ⟨r, hr⟩ := hh
    exact ho.grows v p (hw ⟨r, (ho.holds_old hr).2⟩ hg')

theorem Shuns.step (hsh : Shuns g st v p) (hc : Core st) (h : st.step e = some st') (hsp : st.Spares e g)
    (hv : st.home v ≠ none) :
    Shuns (spoiled st e ++ g) st' v p where
  wary := hsh.wary.step hc h hv
  away := by
    rcases home_cases hc h hv with e | ⟨q, hm, ⟨r, hr, _⟩, hq, e, hholds⟩
    · rw [e]
      exact hsh.away
    · rw [e]
      rintro ⟨⟩
      have hpa := (hc.step h).handed hholds
      exact Bool.noConfusion (hq.symm.trans (hsh.wary hpa ⟨r, hr⟩ (hsp v hm)))

/-- Whatever is live is avoided. -/
theorem Wary.of_live (hc : Core st) (hp : st.live p = true) : Wary g st v p := by
  rintro - ⟨r, hr⟩ _
  exact hc.avoids hr hp

theorem Apart.step (ha : Apart g st u v) (hc : Core st) (huv : u ≠ v) (h : st.step e = some st')
    (hsp : st.Spares e g) (hu : st.home u ≠ none) (hv : st.home v ≠ none) :
    Apart (spoiled st e ++ g) st' u v := by
  have hc' := hc.step h
  rcases home_cases hc h hu with eu | ⟨q, hm, ⟨r, hr, _⟩, hq, eu, hl⟩
  · rcases home_cases hc h hv with ev | ⟨q, hm, ⟨r, hr, _⟩, hq, ev, hl⟩
    · refine ⟨?_, fun p hp => ?_, fun p hp => ?_⟩
      · rw [eu, ev]
        exact ha.away
      · rw [ev] at hp
        exact (ha.left p hp).step hc h hu
      · rw [eu] at hp
        exact (ha.right p hp).step hc h hv
    · refine ⟨fun p hp => ?_, fun p hp => ?_, fun p hp => ?_⟩
      · rw [eu] at hp
        rw [ev]
        rintro ⟨⟩
        exact Bool.noConfusion (hq.symm.trans (ha.right _ hp (hc'.handed hl) ⟨r, hr⟩ (hsp v hm)))
      · rw [ev] at hp
        cases hp
        exact Wary.of_live hc' hl.1
      · rw [eu] at hp
        exact (ha.right p hp).step hc h hv
  · have ev : st'.home v = st.home v := by
      rcases home_cases hc h hv with ev | ⟨_, hm', _⟩
      · exact ev
      · rw [hm] at hm'
        cases hm'
        exact absurd rfl huv
    refine ⟨fun p hp => ?_, fun p hp => ?_, fun p hp => ?_⟩
    · rw [eu] at hp
      cases hp
      rw [ev]
      intro hp
      exact Bool.noConfusion (hq.symm.trans (ha.left _ hp (hc'.handed hl) ⟨r, hr⟩ (hsp u hm)))
    · rw [ev] at hp
      exact (ha.left p hp).step hc h hu
    · rw [eu] at hp
      cases hp
      exact Wary.of_live hc' hl.1

theorem Apart.of_held (hc : Core st) (huv : u ≠ v) (hu : st.Held u) (hv : st.Held v) : Apart g st u v := by
  obtain ⟨p, hp⟩ := hu
  obtain ⟨q, hq⟩ := hv
  refine ⟨fun r hr hr' => ?_, fun r hr => ?_, fun r hr => ?_⟩
  · rw [hc.home hp] at hr
    cases hr
    rw [hc.home hq] at hr'
    cases hr'
    exact huv (hp.unique hq)
  · rw [hc.home hq] at hr
    cases hr
    exact Wary.of_live hc hq.1
  · rw [hc.home hp] at hr
    cases hr
    exact Wary.of_live hc hp.1

/-- **A write of a physical register**, through a virtual register that is held. -/
theorem Shuns.of_define (hc : Core st) (h : st.step (.define c i (.def_ (.physical p))) = some st')
    (hv : st.Held v) : Shuns (spoiled st (.define c i (.def_ (.physical p))) ++ g) st' v p := by
  obtain ⟨r, hr⟩ := hv
  have hhome := hc.home hr
  have hd : (UseDef.def_ (.physical p)).defined = some (.physical p) := rfl
  cases step_cases hc h with
  | define_idle _ hp =>
    have hpl : st.live p = false := hp p rfl
    refine ⟨?_, fun hpa _ hg => ?_⟩
    · rw [hhome]
      rintro ⟨⟩
      exact Bool.noConfusion (hpl.symm.trans hr.1)
    · by_contra hn
      refine hg (mem_append_left _ ?_)
      simp only [spoiled, hd, hpl, Bool.false_eq_true, if_false, hpa, and_self, if_true, mem_filter, mem_filterMap]
      exact ⟨⟨r, r.mem_all, heldBy_eq_some.mpr hr⟩, by simpa using hn⟩
  | ended hd' | loaded hd' => cases hd'
  | @released _ _ _ p' hd' hl ht =>
    cases hd'
    refine ⟨?_, fun _ _ _ => hc.avoids hr hl⟩
    change st.home v ≠ some p
    rw [hhome]
    rintro ⟨⟩
    obtain ⟨_, cls, ht'⟩ := hr
    rw [ht] at ht'
    cases ht'
  | @define_moves _ _ _ w p' q _ hd' _ hm =>
    cases hd'
    by_cases hvw : v = w
    · subst hvw
      refine ⟨?_, fun _ _ hg => absurd ?_ hg⟩
      · rw [hm.home, if_pos rfl]
        rintro ⟨⟩
        exact hm.ne hc rfl
      · refine mem_append_left _ ?_
        simp only [spoiled, hd, hm.held.1, if_true, heldBy_eq_some.mpr hm.held]
        simp
    · refine ⟨?_, fun _ _ _ => hm.grows v hvw p (hc.avoids hr hm.held.1)⟩
      rw [hm.home, if_neg hvw, hhome]
      rintro ⟨⟩
      exact hvw (hr.unique hm.held)

/-- **A use of a physical register**, through a virtual register that is held. -/
theorem Shuns.of_use (hc : Core st) (h : st.step (.use c ud) = some st') (hd : ud.used = some (.physical p))
    (hv : st.Held v) : Shuns g st' v p := by
  have hc' := hc.step h
  obtain ⟨hl, ht⟩ : st'.live p = true ∧ st'.tracking p = some (.physical p) := by
    cases step_cases hc h with
    | use_idle _ hn => exact absurd hd (hn p)
    | started hd' =>
      rw [hd] at hd'
      cases hd'
    | use_moves hd' hl _ hm =>
      rw [hd] at hd'
      cases hd'
      exact ⟨hl, hm.vacated hl⟩
    | occupied hd' ho =>
      rw [hd] at hd'
      cases hd'
      exact ⟨by rw [ho.live]; simp, ho.occupied⟩
  obtain ⟨r, hr⟩ := hv
  obtain ⟨r', hr'⟩ := held_step hc h hr (by rintro _ _ _ _ _ _ ⟨⟩)
  refine ⟨?_, Wary.of_live hc' hl⟩
  rw [hc'.home hr']
  rintro ⟨⟩
  obtain ⟨_, cls, ht'⟩ := hr'
  rw [ht] at ht'
  cases ht'

end Pairs

/-! ## Whole runs -/

variable {p : PhysicalRegister}

section Runs

variable {st st' : Scan} {g : List Nat} {es : List Event}

theorem Core.home_ne_none (hc : Core st) (hv : st.Held v) : st.home v ≠ none := by
  obtain ⟨p, hp⟩ := hv
  rw [hc.home hp]
  simp

theorem Apart.run {u v : Nat} (ha : Apart g st u v) (hc : Core st) (huv : u ≠ v)
    (hu : st.home u ≠ none) (hv : st.home v ≠ none) (h : st.run es = some st')
    (hun : undisturbed spoiled es st g = true) : ∃ g', Apart g' st' u v := by
  obtain ⟨g', _, _, _, ha'⟩ := undisturbed_induct
    (Φ := fun g s => Core s ∧ s.home u ≠ none ∧ s.home v ≠ none ∧ Apart g s u v)
    (fun {g s s' e} hΦ h hsp => by
      obtain ⟨hc, hu, hv, ha⟩ := hΦ
      exact ⟨hc.step h, home_kept hc h hu, home_kept hc h hv, ha.step hc huv h hsp hu hv⟩)
    es hun h ⟨hc, hu, hv, ha⟩
  exact ⟨g', ha'⟩

theorem Shuns.run (hsh : Shuns g st v p) (hc : Core st) (hv : st.home v ≠ none) (h : st.run es = some st')
    (hun : undisturbed spoiled es st g = true) : st'.home v ≠ some p := by
  obtain ⟨g', _, _, ha'⟩ := undisturbed_induct (Φ := fun g s => Core s ∧ s.home v ≠ none ∧ Shuns g s v p)
    (fun {g s s' e} hΦ h hsp => by
      obtain ⟨hc, hv, ha⟩ := hΦ
      exact ⟨hc.step h, home_kept hc h hv, ha.step hc h hsp hv⟩)
    es hun h ⟨hc, hv, hsh⟩
  exact ha'.away

theorem held_uses {c v : Nat} {uds : List UseDef} (hc : Core st)
    (h : st.run (uds.map (.use c)) = some st') (hv : st.Held v) : st'.Held v := by
  refine (run_induct (Φ := fun s => Core s ∧ s.Held v) _ (fun e he s s' hs h => ?_) h ⟨hc, hv⟩).2
  obtain ⟨ud, _, rfl⟩ := mem_map.mp he
  obtain ⟨r, hr⟩ := hs.2
  exact ⟨hs.1.step h, held_step hs.1 h hr (by rintro _ _ _ _ _ _ ⟨⟩)⟩

/-- **An instruction that writes `p` inside the live range of `v`.** -/
theorem shuns_of_written {k v : Nat} (hc : Core st) (ht : Timely (k + 1) st) (hv : st.Held v)
    (hf : st.firstDef v ≠ some k) (hp : p ∈ i.writtenPhysicals)
    (h : st.run (instructionEvents k i ++ es) = some st')
    (hun : undisturbed spoiled (instructionEvents k i ++ es) st g = true) : st'.home v ≠ some p := by
  obtain ⟨ud, hud, hd⟩ := Opcode.mem_writtenPhysicals.mp hp
  cases ud with
  | use r => cases hd
  | def_ r =>
    cases hd
    obtain ⟨ds, ds', hds⟩ := append_of_mem hud
    have hev : instructionEvents k i ++ es = ds.map (.define k i) ++
        (.define k i (.def_ (.physical p)) :: (ds'.map (.define k i) ++ (i.uses.map (.use k) ++
          (callEvents k i ++ es)))) := by
      simp only [instructionEvents, hds, map_append, map_cons, append_assoc, cons_append]
    rw [hev, run_append] at h
    rw [hev] at hun
    obtain ⟨s1, s2, h1, h2, h⟩ := bind₂_eq_some h
    obtain ⟨g1, hun⟩ := undisturbed_append _ hun h1
    obtain ⟨_, hun⟩ := undisturbed_cons h2 hun
    have hlen : ds.length ≤ 2 := by
      have := definitions_length_le_two i
      rw [hds, length_append] at this
      omega
    have hc1 := hc.run h1
    have hv1 := held_definitions hc ht hlen h1 hv hf
    exact (Shuns.of_define hc1 h2 hv1).run (hc1.step h2) (home_kept hc1 h2 (hc1.home_ne_none hv1)) h hun
  | useDef r =>
    cases hd
    obtain ⟨us, us', hus⟩ := append_of_mem (Opcode.useDef_mem hud)
    have hev : instructionEvents k i ++ es = i.definitions.map (.define k i) ++ (us.map (.use k) ++
        (.use k (.useDef (.physical p)) :: (us'.map (.use k) ++ (callEvents k i ++ es)))) := by
      simp only [instructionEvents, hus, map_append, map_cons, append_assoc, cons_append]
    rw [hev, run_append] at h
    rw [hev] at hun
    obtain ⟨s1, h1, h⟩ := bind_eq_some_iff.mp h
    rw [run_append] at h
    obtain ⟨s2, s3, h2, h3, h⟩ := bind₂_eq_some h
    obtain ⟨g1, hun⟩ := undisturbed_append _ hun h1
    obtain ⟨g2, hun⟩ := undisturbed_append _ hun h2
    obtain ⟨_, hun⟩ := undisturbed_cons h3 hun
    have hc1 := hc.run h1
    have hc2 := hc1.run h2
    have hv2 := held_uses hc1 h2 (held_definitions hc ht (definitions_length_le_two i) h1 hv hf)
    exact (Shuns.of_use hc2 h3 rfl hv2).run (hc2.step h3) (home_kept hc2 h3 (hc2.home_ne_none hv2)) h hun

end Runs

variable {is : List Opcode}

theorem events_take_succ (h : is[k]? = some i) :
    events 0 (is.take (k + 1)) = instructionEvents k i ++ events 0 (is.take k) := by
  have hk := (List.getElem?_eq_some_iff.mp h).1
  rw [take_add_one, h, Option.toList_some, events_append, length_take,
    Nat.min_eq_left (Nat.le_of_lt hk), Nat.zero_add]
  simp [events]

namespace Allocation

variable {is : List Opcode} {n off : Nat} (A : Allocation is n off)

theorem undisturbed_point {mark : Scan → Event → List Nat} {s : Scan} (hk : k ≤ A.code.length)
    (hu : undisturbed mark (events 0 A.code) A.initial [] = true)
    (h : A.initial.run (events k (A.code.drop k)) = some s) :
    ∃ g, undisturbed mark (events 0 (A.code.take k)) s g = true := by
  rw [← take_append_drop k A.code, events_append, length_take, Nat.min_eq_left hk, Nat.zero_add] at hu
  exact undisturbed_append _ hu h

theorem held_point {k v : Nat} {s : Scan} (h1 : A.initial.run (events k (A.code.drop k)) = some s)
    (h2 : s.run (events 0 (A.code.take k)) = some A.final) (hl : LiveAt A.code v k)
    (hv : A.assigned v ≠ none) : s.Held v := by
  obtain ⟨f, l, hf, hl, hfk, hkl⟩ := A.range_of_liveAt hl
  exact held_at (Core.init _) A.initial_home h1 h2 hv hf hl hfk hkl

/-- **The scan before an instruction that a register is live across**: it is held, and not first written there. -/
theorem point_across {mark : Scan → Event → List Nat} {v : Nat} (hs : Slotted is)
    (hu : undisturbed mark (events 0 A.code) A.initial [] = true) (hl : LiveAcross A.code v k)
    (hk : A.code[k]? = some i) (hv : A.assigned v = some p) :
    ∃ s g, A.initial.run (events (k + 1) (A.code.drop (k + 1))) = some s ∧ Core s ∧ Timely (k + 1) s ∧ s.Held v ∧
      s.firstDef v ≠ some k ∧ s.run (instructionEvents k i ++ events 0 (A.code.take k)) = some A.final ∧
      undisturbed mark (instructionEvents k i ++ events 0 (A.code.take k)) s g = true := by
  have hlt := (List.getElem?_eq_some_iff.mp hk).1
  obtain ⟨s, h1, hc, h2⟩ := A.point hs (k := k + 1) hlt
  have hheld := A.held_point h1 h2 hl.after (by rw [hv]; simp)
  obtain ⟨f, l, hf, _, hfk, _⟩ := A.range_of_liveAt hl.before
  have hfs : s.firstDef v ≠ some k := by
    rw [(run_ranges (Core.init _) h1 v).1]
    intro hf'
    have : some f = some k := hf.symm.trans hf'
    cases this
    omega
  obtain ⟨g, hg⟩ := A.undisturbed_point (Nat.succ_le_of_lt hlt) hu h1
  rw [events_take_succ hk] at h2 hg
  exact ⟨s, g, h1, hc, Timely.run _ (Core.init _) (Timely.homeless A.initial_home) h1, hheld, hfs, h2, hg⟩

section

variable (hs : Slotted is) (hu : undisturbed spoiled (events 0 A.code) A.initial [] = true)

include hs hu

theorem assigned_of_written
    {v k : Nat} (hl : LiveAcross A.code v k) (hk : A.code[k]? = some i) (hp : p ∈ i.writtenPhysicals) :
    A.assigned v ≠ some p := by
  intro hv
  obtain ⟨s, g, -, hc, ht, hheld, hfs, h2, hg⟩ := A.point_across hs hu hl hk hv
  exact shuns_of_written hc ht hheld hfs hp h2 hg hv

theorem assigned_of_overlap
    {u v k : Nat} (huv : u ≠ v) (hlu : LiveAt A.code u k) (hlv : LiveAt A.code v k) (hpu : A.assigned u = some p) :
    A.assigned v ≠ some p := by
  intro hpv
  have hk : k ≤ A.code.length := by
    obtain ⟨_, j, i, hkj, hj, _⟩ := hlu
    have := (List.getElem?_eq_some_iff.mp hj).1
    omega
  obtain ⟨s, h1, hc, h2⟩ := A.point hs hk
  have hu' := A.held_point h1 h2 hlu (by rw [hpu]; simp)
  have hv' := A.held_point h1 h2 hlv (by rw [hpv]; simp)
  obtain ⟨g, hg⟩ := A.undisturbed_point hk hu h1
  obtain ⟨g', ha⟩ := (Apart.of_held hc huv hu' hv').run hc huv (hc.home_ne_none hu') (hc.home_ne_none hv')
    h2 hg
  exact ha.away p hpu hpv

end

/-- The final assignment has no conflict: a register that is live across a write of `p` is not
assigned `p`, and registers live at the same point are assigned different registers. -/
structure ConflictFree : Prop where
  written : ∀ {v k i p}, LiveAcross A.code v k → A.code[k]? = some i → p ∈ i.writtenPhysicals →
    A.assigned v ≠ some p
  overlap : ∀ {u v k p}, u ≠ v → LiveAt A.code u k → LiveAt A.code v k → A.assigned u = some p →
    A.assigned v ≠ some p

/-- **No conflict, however often registers are moved**, as long as none is moved once its
interference set is incomplete. -/
theorem conflictFree_of_undisturbed (hs : Slotted is)
    (hu : undisturbed spoiled (events 0 A.code) A.initial [] = true) : A.ConflictFree where
  written hl hk hp := A.assigned_of_written hs hu hl hk hp
  overlap huv hlu hlv hpu := A.assigned_of_overlap hs hu huv hlu hlv hpu

end Allocation

theorem Slotted.of_no_call (h : is.all fun i => match i with | .call .. => false | _ => true) : Slotted is := by
  intro k f a b hk
  have := all_eq_true.mp h _ (mem_of_getElem? hk)
  cases this

/-- A move by a use of `rax`, then one by a definition of `rcx`. -/
def movedTwice : List Opcode :=
  [.mov (.imm .w64 5) (.vreg .w64 0), .mov (.imm .w64 1) (.preg .w64 .rcx),
    .mov (.imm .w64 3) (.preg .w64 .rax), .mov (.preg .w64 .rax) (.memSegDispl .w64 .fs 8),
    .mov (.vreg .w64 0) (.memSegDispl .w64 .fs 16)]

theorem conflictFree_movedTwice : ∃ A : Allocation movedTwice 1 0,
    undisturbed spoiled (events 0 A.code) A.initial [] = true ∧ A.assigned 0 = some .rdx ∧
      A.ConflictFree := by
  refine ⟨⟨_, _, _, _, rfl, rfl, rfl⟩, by decide +kernel, by decide +kernel, ?_⟩
  exact Allocation.conflictFree_of_undisturbed _ (Slotted.of_no_call (by decide)) (by decide +kernel)

/-- Two definitions of physical registers in the live range of one virtual register: the second
move puts it back into the register that the first definition had moved it out of. -/
def movedBack : List Opcode :=
  [.mov (.imm .w64 5) (.vreg .w64 0), .mov (.imm .w64 1) (.preg .w64 .rcx),
    .mov (.imm .w64 2) (.preg .w64 .rax), .mov (.vreg .w64 0) (.memSegDispl .w64 .fs 8)]

theorem movedBack_conflict : ∃ A : Allocation movedBack 1 0, LiveAcross A.code 0 2 ∧
    (∃ i, A.code[2]? = some i ∧ .rax ∈ i.writtenPhysicals) ∧ A.assigned 0 = some .rax ∧ ¬ A.ConflictFree := by
  have hl : LiveAcross movedBack 0 2 :=
    ⟨⟨0, _, by decide, rfl, by decide⟩, ⟨3, _, by decide, rfl, by decide⟩⟩
  refine ⟨⟨_, movedBack, _, _, rfl, rfl, rfl⟩, hl, ⟨_, rfl, by decide⟩, by decide +kernel, fun h => ?_⟩
  exact h.written (p := .rax) hl rfl (by decide) (by decide +kernel)

end Icewind.X86
