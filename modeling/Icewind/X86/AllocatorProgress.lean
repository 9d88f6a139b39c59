import Icewind.X86.AllocatorConflicts
import Icewind.X86.StraightLine
import Mathlib.Data.List.Nodup

/-!
# The allocator succeeds on straight-line code

* `StraightLine.ranges` — the forward pass kills nothing, and finds the first write and the last read
  of every register.
* `VirtualScan` — during the scan every live physical register holds a virtual one that is live at
  that point, so one is free whenever a register is needed.
* `StraightLine.allocation` — the allocation that results: every instruction is renamed.
-/

namespace Icewind.X86

open List Option Opcode

/-! ## The forward pass -/

/-- The computed ranges are those from the first write to the last read. -/
structure Ranges (is : List Opcode) (t : RegisterTracker) : Prop where
  first : ∀ {v f}, (t.virt v).firstDef = some f →
    ¬ WrittenBefore is v f ∧ ∃ i, is[f]? = some i ∧ v ∈ i.writtenVirtuals
  written : ∀ {v k}, WrittenBefore is v k → ∃ f, f < k ∧ (t.virt v).firstDef = some f
  last : ∀ {v l}, (t.virt v).lastUse = some l → ∃ i, is[l]? = some i ∧ v ∈ i.readVirtuals
  read : ∀ {v k i}, is[k]? = some i → v ∈ i.readVirtuals → ∃ l, k ≤ l ∧ (t.virt v).lastUse = some l
  unassigned : ∀ v, (t.virt v).physicalRegister = none

variable {t : RegisterTracker}

/-- A range is open where the register is live. -/
theorem Ranges.liveAt {is : List Opcode} (hr : Ranges is t) {v k f l : Nat} (hf : (t.virt v).firstDef = some f)
    (hl : (t.virt v).lastUse = some l) (hfk : f < k) (hkl : k ≤ l) : LiveAt is v k := by
  obtain ⟨_, i, hi, hw⟩ := hr.first hf
  obtain ⟨i', hi', hrd⟩ := hr.last hl
  exact ⟨⟨f, i, hfk, hi, hw⟩, l, i', hkl, hi', hrd⟩

variable {ud : UseDef}

namespace StraightLine

variable {n : Nat} {cls : Nat → RegisterClass} {is : List Opcode}

section Forward

variable {k : Nat} {i : Opcode} {st : LiveRanges}

section

variable (hp : StraightLine n cls is)

include hp

theorem not_cmovne (hk : is[k]? = some i) (src dst : Operand) : i ≠ .cmovne src dst := by
  rintro rfl
  exact Bool.noConfusion (hp.plain _ (mem_of_getElem? hk))

theorem not_branch (hk : is[k]? = some i) : i.isBranch = false := by
  have := hp.plain _ (mem_of_getElem? hk)
  unfold isBranch
  split
  all_goals first | rfl | cases this

/-- A definition kills nothing: what it overwrites has been read. -/
theorem rangeDefinition_keeps (hs : Settled cls is) (hi : RangeInv is k k st) (hins : st.instructions = is)
    (hk : is[k]? = some i) (hud : ud ∈ i.definitions) :
    ∃ st', rangeDefinition n k i st ud = some st' ∧ st'.instructions = is ∧
      (∀ r, ud = .useDef r → st' = st) := by
  obtain ⟨r, hd⟩ := isSome_iff_exists.mp (mem_filter.mp hud).2
  obtain ⟨v, hv, rfl⟩ := hp.virtual_of_defined hk hud hd
  have writes : WrittenBefore is v k → ∃ f, st.firstDef v = some f := by
    rintro ⟨j, i', hj, hi', hw⟩
    obtain ⟨f, _, hf⟩ := hi.written hj (hins ▸ hi') hw
    exact ⟨f, hf⟩
  unfold rangeDefinition
  simp only [hd, if_neg (Nat.not_le.mpr hv)]
  cases hf : (st.tracker.virt v).firstDef with
  | none =>
    refine ⟨_, rfl, hins, ?_⟩
    rintro r rfl
    cases hd
    have hr : v ∈ i.readVirtuals := mem_readVirtuals.mpr ⟨_, useDef_mem hud, _, rfl⟩
    obtain ⟨f, hf'⟩ := writes (hp.written_before hk hr)
    rw [LiveRanges.firstDef, hf] at hf'
    cases hf'
  | some f =>
    dsimp only
    split
    · exact absurd rfl (hp.not_cmovne hk _ _)
    · have hn : ¬ ((st.tracker.virt v).lastUse = none ∧ ud = .def_ (.virtual v (cls v)) ∧
          (st.tracker.virt v).lastControlFlowCount = st.controlFlowCount) := by
        rintro ⟨hl, rfl, _⟩
        obtain ⟨hfk, i', hi', hw⟩ := hi.firstDef hf
        obtain ⟨j, i'', hj, hi'', hr⟩ := hs.readBefore v k ⟨i, _, hk, hud⟩ ⟨f, i', hfk, hi', hw⟩
        obtain ⟨l, _, hl'⟩ := hi.read hj hi'' hr
        rw [LiveRanges.lastUse, hl] at hl'
        cases hl'
      rw [if_neg hn]
      exact ⟨st, rfl, hins, fun _ _ => rfl⟩

theorem rangeUses_keep (hk : is[k]? = some i) : ∀ (uds : List UseDef)
    {st : LiveRanges}, (∀ ud ∈ uds, ud ∈ i.uses) → st.instructions = is →
    ∃ st', uds.foldlM (rangeUse n k) st = some st' ∧ st'.instructions = is
  | [], st, _, hins => ⟨st, rfl, hins⟩
  | ud :: uds, st, hu, hins => by
    have hud := hu ud mem_cons_self
    obtain ⟨r, hd⟩ := isSome_iff_exists.mp (mem_filter.mp hud).2
    obtain ⟨v, hv, rfl⟩ := hp.virtual_of_used hk hud hd
    have h1 : rangeUse n k st ud = some (st.reads v k) := by
      unfold rangeUse
      simp only [hd, if_neg (Nat.not_le.mpr hv)]
      rfl
    have hins1 : (st.reads v k).instructions = is := hins
    obtain ⟨st', h, hins'⟩ := rangeUses_keep hk uds (fun u hu' => hu u (mem_cons_of_mem _ hu')) hins1
    refine ⟨st', ?_, hins'⟩
    rw [foldlM_cons, h1]
    exact h

omit hp in
theorem definitions_eq (i : Opcode) :
    i.definitions = (i.getUseDefs.filter fun p => p.1.defined.isSome).map Prod.fst := by
  rw [definitions, List.filter_map]
  rfl

theorem rangeInstruction_keeps (hs : Settled cls is) (hi : RangeInv is k k st) (hins : st.instructions = is)
    (hk : is[k]? = some i) : ∃ st', rangeInstruction n k i st = some st' ∧ st'.instructions = is := by
  have hdef : ∃ st1, i.definitions.foldlM (rangeDefinition n k i) st = some st1 ∧ st1.instructions = is := by
    have keeps := fun (ud : UseDef) (hud : ud ∈ i.definitions) => hp.rangeDefinition_keeps hs hi hins hk hud
    have he := definitions_eq i
    rcases definitions_shape (hp.not_physical hk) (hp.not_call hk) with h | ⟨p, h⟩ | ⟨r, r', w, w', h⟩
    · rw [he, h]
      exact ⟨st, rfl, hins⟩
    · rw [h] at he
      obtain ⟨st1, h1, hins1, _⟩ := keeps p.1 (by simp [he])
      refine ⟨st1, ?_, hins1⟩
      simp [he, h1]
    · -- the entry that is also read changes nothing
      rw [h] at he
      obtain ⟨st1, h1, _, hsame⟩ := keeps (.useDef r) (by simp [he])
      obtain rfl := hsame r rfl
      obtain ⟨st2, h2, hins2, _⟩ := keeps (.def_ r') (by simp [he])
      refine ⟨st2, ?_, hins2⟩
      simp [he, h1, h2]
  obtain ⟨st1, h1, hins1⟩ := hdef
  obtain ⟨st2, h2, hins2⟩ := hp.rangeUses_keep hk i.uses (fun _ h => h) hins1
  refine ⟨st2, ?_, hins2⟩
  unfold rangeInstruction
  simp only [hp.not_branch hk, Bool.false_eq_true, if_false]
  rw [show ({ st with controlFlowCount := st.controlFlowCount } : LiveRanges) = st from rfl, h1]
  exact h2

theorem rangeLoop_keeps (hs : Settled cls is) : ∀ (rest : List Opcode)
    {k : Nat} {st : LiveRanges}, RangeInv is k k st → st.instructions = is → is.drop k = rest →
    ∃ st', rangeLoop n k rest st = some st' ∧ st'.instructions = is
  | [], k, st, _, hins, _ => ⟨st, rfl, hins⟩
  | i :: rest, k, st, hi, hins, hd => by
    have hk : is[k]? = some i := by
      have := congrArg (·[0]?) hd
      simpa using this
    obtain ⟨st1, h1, hins1⟩ := hp.rangeInstruction_keeps hs hi hins hk
    have hd' : is.drop (k + 1) = rest := by
      rw [← drop_drop, hd, drop_one, tail_cons]
    obtain ⟨st', h, hins'⟩ := rangeLoop_keeps hs rest (hi.instruction hk h1) hins1 hd'
    refine ⟨st', ?_, hins'⟩
    rw [rangeLoop, h1]
    exact h

end

end Forward

/-- **The forward pass**: it kills nothing and computes the ranges. -/
theorem ranges (hp : StraightLine n cls is) (hs : Settled cls is) :
    ∃ t, calculateVregLiveRanges n is = some (t, is) ∧ Ranges is t := by
  obtain ⟨st, h, hins⟩ := hp.rangeLoop_keeps hs is (RangeInv.init is) rfl rfl
  have hc : calculateVregLiveRanges n is = some (st.tracker, is) := by
    unfold calculateVregLiveRanges
    rw [h]
    simp [hins]
  refine ⟨st.tracker, hc, ?_⟩
  obtain ⟨count, hr⟩ := calculateVregLiveRanges_spec hc
  have lt : ∀ {k i}, is[k]? = some i → k < is.length := fun h => (List.getElem?_eq_some_iff.mp h).1
  have written : ∀ {v k}, WrittenBefore is v k → ∃ f, f < k ∧ (st.tracker.virt v).firstDef = some f := by
    rintro v k ⟨j, i, hj, hi, hw⟩
    obtain ⟨f, hf, hfd⟩ := hr.written (lt hi) hi hw
    exact ⟨f, by omega, hfd⟩
  refine ⟨fun {v f} hf => ⟨fun hw => ?_, (hr.firstDef hf).2⟩, written, fun {v l} hl => ?_,
    fun hk hrd => hr.read (lt hk) hk hrd, hr.unassigned⟩
  · obtain ⟨f', hlt, hf'⟩ := written hw
    rw [hf] at hf'
    cases hf'
    exact Nat.lt_irrefl _ hlt
  · obtain ⟨_, i, hi, hrd | ⟨src, dst, rfl⟩⟩ := hr.lastUse hl
    · exact ⟨i, hi, hrd⟩
    · exact absurd rfl (hp.not_cmovne hi src dst)

end StraightLine

/-! ## A free register -/

variable {p : PhysicalRegister}

theorem extendTracked_isSome {live : RegisterSet}
    (h : live p = true → ∃ v cls, (t.phys p).tracking = some (.virtual v cls)) :
    ∃ t', extendTracked live t p = some t' := by
  unfold extendTracked
  split
  · rename_i hl
    obtain ⟨v, cls, ht⟩ := h hl
    rw [ht]
    exact ⟨_, rfl⟩
  · exact ⟨t, rfl⟩

/-- The interference loop does not panic where every live register tracks a virtual one. -/
theorem foldlM_extendTracked_isSome (live : RegisterSet) : ∀ (ps : List PhysicalRegister)
    {t : RegisterTracker}, (∀ p ∈ ps, live p = true → ∃ v cls, (t.phys p).tracking = some (.virtual v cls)) →
    ∃ t', ps.foldlM (extendTracked live) t = some t'
  | [], t, _ => ⟨t, rfl⟩
  | p :: ps, t, h => by
    obtain ⟨t1, h1⟩ := extendTracked_isSome (h p mem_cons_self)
    obtain ⟨t', h'⟩ := foldlM_extendTracked_isSome live ps (t := t1) (fun q hq hl => by
      rw [(extendTracked_spec h1).tracking q]
      exact h q (mem_cons_of_mem _ hq) hl)
    refine ⟨t', ?_⟩
    rw [foldlM_cons, h1]
    exact h'

theorem availPhysRegs_nodup (c : RegisterClass) : (availPhysRegs c).Nodup := by
  cases c <;> decide

variable {c : RegisterClass}

theorem allocatePhysReg_none {inUse : RegisterSet} (h : allocatePhysReg c inUse = none)
    (hp : p ∈ availPhysRegs c) : inUse p = true := by
  have := List.find?_eq_none.mp h p (PhysicalRegister.mem_all p)
  simpa [hp] using this

/-- Between two steps of the scan over virtual registers only: the scan is at the point before index
`point`, and has given a register to everything read from index `seen` on. -/
structure VirtualScan (is : List Opcode) (cls : Nat → RegisterClass) (t : RegisterTracker)
    (point seen : Nat) (st : Scan) : Prop where
  core : Core st
  ranges : ∀ v, st.firstDef v = (t.virt v).firstDef ∧ st.lastUse v = (t.virt v).lastUse
  holds : ∀ {p}, st.live p = true → ∃ v, st.Holds p v
  live : ∀ {v}, st.Held v → LiveAt is v point
  assigned : ∀ {v l}, (t.virt v).lastUse = some l → seen ≤ l → st.home v ≠ none
  homes : ∀ {v p}, st.home v = some p → p ∈ availPhysRegs (cls v)

variable {v : Nat}

namespace StraightLine

variable {n : Nat} {cls : Nat → RegisterClass} {is : List Opcode} {t : RegisterTracker} {c : Nat}
  {i : Opcode} {st : Scan} {seen : Nat}

section

variable (hp : StraightLine n cls is)

include hp

/-- **A register is free**: otherwise as many registers of the class as there are would be live
besides the one that needs a register. -/
theorem free_register (hs : VirtualScan is cls t c seen st) (hv : LiveAt is v c) (hn : st.home v = none) :
    ∃ q, allocatePhysReg (cls v) st.live = some q := by
  cases ha : allocatePhysReg (cls v) st.live with
  | some q => exact ⟨q, rfl⟩
  | none =>
    exfalso
    have holder : ∀ p ∈ availPhysRegs (cls v), st.Holds p ((st.heldBy p).getD 0) := by
      intro p hpa
      obtain ⟨u, hu⟩ := hs.holds (allocatePhysReg_none ha hpa)
      rw [Scan.heldBy_eq_some.mpr hu]
      exact hu
    have hnodup : ((availPhysRegs (cls v)).map fun p => (st.heldBy p).getD 0).Nodup := by
      refine List.Nodup.map_on (fun p hpa q hqa he => ?_) (availPhysRegs_nodup _)
      have h1 := hs.core.home (holder p hpa)
      have h2 := hs.core.home (holder q hqa)
      rw [he, h2] at h1
      exact (some.inj h1).symm
    have hlive : ∀ u ∈ (availPhysRegs (cls v)).map (fun p => (st.heldBy p).getD 0),
        cls u = cls v ∧ LiveAt is u c := by
      intro u hu
      obtain ⟨p, hpa, rfl⟩ := mem_map.mp hu
      have hh := holder p hpa
      refine ⟨?_, hs.live ⟨p, hh⟩⟩
      rw [← availPhysRegs_class (hs.homes (hs.core.home hh)), availPhysRegs_class hpa]
    have hmem : v ∉ (availPhysRegs (cls v)).map fun p => (st.heldBy p).getD 0 := by
      intro hu
      obtain ⟨p, hpa, he⟩ := mem_map.mp hu
      have := hs.core.home (holder p hpa)
      rw [he, hn] at this
      cases this
    have := hp.pressure c (cls v) (v :: _) (nodup_cons.mpr ⟨hmem, hnodup⟩) (forall_mem_cons.mpr ⟨⟨rfl, hv⟩, hlive⟩)
    rw [length_cons, length_map, RegisterClass.limit_eq] at this
    omega

/-! ## Steps -/

theorem define_progress (hr : Ranges is t) (hs : VirtualScan is cls t (c + 1) (c + 1) st)
    (hk : is[c]? = some i) (hud : ud ∈ i.definitions) :
    ∃ st', st.step (.define c i ud) = some st' ∧ VirtualScan is cls t (c + 1) (c + 1) st' ∧
      (∀ u, st'.Held u → st.Held u) ∧
      (∀ v cl, ud.defined = some (.virtual v cl) → (t.virt v).firstDef = some c → ¬ st'.Held v) := by
  obtain ⟨r, hd⟩ := isSome_iff_exists.mp (mem_filter.mp hud).2
  obtain ⟨v, hv, rfl⟩ := hp.virtual_of_defined hk hud hd
  by_cases hf : (t.virt v).firstDef = some c
  · -- the register is read later, so it has been assigned
    have hw : v ∈ i.writtenVirtuals := mem_writtenVirtuals.mpr ⟨ud, hud, _, hd⟩
    obtain ⟨_, j, i', hj, hi', hrd⟩ := hp.liveAt_of_first hk hw (hr.first hf).1
    obtain ⟨l, hjl, hl⟩ := hr.read hi' hrd
    obtain ⟨q, hq⟩ := Option.ne_none_iff_exists'.mp (hs.assigned hl (by omega))
    have hstep : st.step (.define c i ud) = some { st with live := st.live.remove q } := by
      have hf' := (hs.ranges v).1.trans hf
      have hl' := (hs.ranges v).2.trans hl
      simp only [Scan.firstDef] at hf'
      simp only [Scan.lastUse] at hl'
      simp only [Scan.home] at hq
      simp [Scan.step, define, hd, defineVirtual, hf', hl', hq]
    have back : ∀ {p u}, ({ st with live := st.live.remove q } : Scan).Holds p u → p ≠ q ∧ st.Holds p u := by
      rintro p u ⟨hl, ht⟩
      obtain ⟨hne, hl⟩ := RegisterSet.of_remove hl
      exact ⟨hne, hl, ht⟩
    refine ⟨_, hstep, ⟨hs.core.step hstep, hs.ranges, fun {p} hl => ?_, fun {u} hu => ?_, hs.assigned,
      hs.homes⟩, fun u hu => ?_, fun u cl hu _ hh => ?_⟩
    · obtain ⟨u, hu⟩ := hs.holds (RegisterSet.of_remove hl).2
      exact ⟨u, hl, hu.2⟩
    · obtain ⟨p, hp'⟩ := hu
      exact hs.live ⟨p, (back hp').2⟩
    · obtain ⟨p, hp'⟩ := hu
      exact ⟨p, (back hp').2⟩
    · rw [hd] at hu
      cases hu
      obtain ⟨p, hp'⟩ := hh
      obtain ⟨hne, hp'⟩ := back hp'
      have := hs.core.home hp'
      rw [hq] at this
      cases this
      exact hne rfl
  · have hstep : st.step (.define c i ud) = some st := by
      have hf' : (st.tracker.virt v).firstDef ≠ some c := by
        intro h
        exact hf ((hs.ranges v).1.symm.trans h)
      simp [Scan.step, define, hd, defineVirtual, hf']
    refine ⟨st, hstep, hs, fun _ h => h, fun u cl hu hfu => ?_⟩
    rw [hd] at hu
    cases hu
    exact absurd hfu hf

theorem definitions_progress (hr : Ranges is t) (hk : is[c]? = some i) :
    ∀ (uds : List UseDef) {st : Scan}, VirtualScan is cls t (c + 1) (c + 1) st →
    (∀ ud ∈ uds, ud ∈ i.definitions) →
    ∃ st', st.run (uds.map (.define c i)) = some st' ∧ VirtualScan is cls t (c + 1) (c + 1) st' ∧
      (∀ u, st'.Held u → st.Held u) ∧
      (∀ ud ∈ uds, ∀ v cl, ud.defined = some (.virtual v cl) → (t.virt v).firstDef = some c → ¬ st'.Held v)
  | [], st, hs, _ => ⟨st, rfl, hs, fun _ h => h, by simp⟩
  | ud :: uds, st, hs, hd => by
    obtain ⟨st1, h1, hs1, hh1, hn1⟩ := hp.define_progress hr hs hk (hd ud mem_cons_self)
    obtain ⟨st', h', hs', hh', hn'⟩ := definitions_progress hr hk uds hs1
      (fun u hu => hd u (mem_cons_of_mem _ hu))
    refine ⟨st', ?_, hs', fun u hu => hh1 u (hh' u hu), fun u hu v cl hv hf hh => ?_⟩
    · rw [map_cons, Scan.run_cons, h1]
      exact h'
    · rcases mem_cons.mp hu with rfl | hu
      · exact hn1 v cl hv hf (hh' v hh)
      · exact hn' u hu v cl hv hf hh

omit hp in
/-- After the definitions only registers written earlier are held. -/
theorem virtualScan_before (hr : Ranges is t) (hs : VirtualScan is cls t (c + 1) (c + 1) st)
    (hk : is[c]? = some i)
    (hn : ∀ ud ∈ i.definitions, ∀ v cl, ud.defined = some (.virtual v cl) →
      (t.virt v).firstDef = some c → ¬ st.Held v) : VirtualScan is cls t c (c + 1) st := by
  refine { hs with live := fun {v} hv => ?_ }
  obtain ⟨hw, j, i', hj, hi', hrd⟩ := hs.live hv
  obtain ⟨f, hf, hfd⟩ := hr.written hw
  obtain ⟨l, hjl, hl⟩ := hr.read hi' hrd
  have hfc : f ≠ c := by
    rintro rfl
    obtain ⟨_, i1, hi1, hw1⟩ := hr.first hfd
    rw [hk] at hi1
    cases hi1
    obtain ⟨ud, hud, cl, hd⟩ := mem_writtenVirtuals.mp hw1
    exact hn ud hud v cl hd hfd hv
  exact hr.liveAt hfd hl (by omega) (by omega)

theorem use_progress (hs : VirtualScan is cls t c (c + 1) st) (hk : is[c]? = some i) (hud : ud ∈ i.uses) :
    ∃ st', st.step (.use c ud) = some st' ∧ VirtualScan is cls t c (c + 1) st' ∧
      (∀ u, st.home u ≠ none → st'.home u ≠ none) ∧
      (∀ v cl, ud.used = some (.virtual v cl) → (t.virt v).lastUse = some c → st'.home v ≠ none) := by
  obtain ⟨r, hd⟩ := isSome_iff_exists.mp (mem_filter.mp hud).2
  obtain ⟨v, hv, rfl⟩ := hp.virtual_of_used hk hud hd
  by_cases hl : st.lastUse v = some c ∧ st.home v = none
  · have hlive : LiveAt is v c :=
      hp.liveAt_of_read hk (mem_readVirtuals.mpr ⟨ud, hud, _, hd⟩)
    obtain ⟨q, hq⟩ := hp.free_register hs hlive hl.2
    obtain ⟨hqa, hqf⟩ := allocatePhysReg_spec hq
    obtain ⟨st', h⟩ : ∃ st', useVirtual c v (cls v) st = some st' := by
      have hl' : (st.tracker.virt v).lastUse = some c ∧ (st.tracker.virt v).physicalRegister = none := hl
      unfold useVirtual
      rw [if_pos hl', hq]
      obtain ⟨t', ht'⟩ := foldlM_extendTracked_isSome (st.live.insert q)
        (availPhysRegsGpr ++ availPhysRegsXmm)
        (t := (st.tracker.modifyVirt v fun t =>
          { t with physicalRegister := some q, interference := st.live.insert q }).modifyPhys q
            fun t => { t with tracking := some (.virtual v (cls v)) }) (fun p _ hpl => by
          rw [RegisterTracker.modifyPhys_phys]
          split
          · exact ⟨v, cls v, rfl⟩
          · rename_i hpq
            rw [RegisterSet.insert_of_ne _ hpq] at hpl
            obtain ⟨u, _, hu⟩ := hs.holds hpl
            exact ⟨u, hu⟩)
      refine ⟨{ st with tracker := t', live := st.live.insert q }, ?_⟩
      simp only [bind_eq_bind, bind_some, updateInterference, ht']
    have hstep : st.step (.use c ud) = some st' := by
      simp only [Scan.step, use, hd]
      exact h
    obtain ⟨q', hq', hst⟩ := useVirtual_starts hl.1 hl.2 h
    have old : ∀ {p u}, p ≠ q' → st'.Holds p u → st.Holds p u := by
      rintro p u hne ⟨hpl, cl, ht⟩
      rw [hst.live, RegisterSet.insert_of_ne _ hne] at hpl
      exact ⟨hpl, cl, (hst.tracking p hne).symm.trans ht⟩
    refine ⟨st', hstep, ⟨hs.core.starts hst, fun u => ?_, fun {p} hpl => ?_, fun {u} hu => ?_,
      fun {u l} hul hle => ?_, fun {u p} hu => ?_⟩, fun u hu => ?_, fun u cl hu _ => ?_⟩
    · exact ⟨(hst.firstDef u).trans (hs.ranges u).1, (hst.lastUse u).trans (hs.ranges u).2⟩
    · by_cases e : p = q'
      · exact e ▸ ⟨v, hst.holds⟩
      · have hpl' := hpl
        rw [hst.live, RegisterSet.insert_of_ne _ e] at hpl'
        obtain ⟨u, _, cl, hu⟩ := hs.holds hpl'
        exact ⟨u, hpl, cl, (hst.tracking p e).trans hu⟩
    · obtain ⟨p, hpu⟩ := hu
      by_cases e : p = q'
      · subst e
        exact hpu.unique hst.holds ▸ hlive
      · exact hs.live ⟨p, old e hpu⟩
    · rw [hst.home]
      split
      · simp
      · exact hs.assigned hul hle
    · rw [hst.home] at hu
      split at hu
      · rename_i e
        cases hu
        exact e ▸ hq'
      · exact hs.homes hu
    · rw [hst.home]
      split
      · simp
      · exact hu
    · rw [hd] at hu
      cases hu
      rw [hst.home, if_pos rfl]
      simp
  · have hstep : st.step (.use c ud) = some st := by
      simp only [Scan.step, use, hd]
      exact if_neg hl
    refine ⟨st, hstep, hs, fun _ h => h, fun u cl hu hlu hn => ?_⟩
    rw [hd] at hu
    cases hu
    exact hl ⟨(hs.ranges v).2.trans hlu, hn⟩

theorem uses_progress (hk : is[c]? = some i) :
    ∀ (uds : List UseDef) {st : Scan}, VirtualScan is cls t c (c + 1) st → (∀ ud ∈ uds, ud ∈ i.uses) →
    ∃ st', st.run (uds.map (.use c)) = some st' ∧ VirtualScan is cls t c (c + 1) st' ∧
      (∀ u, st.home u ≠ none → st'.home u ≠ none) ∧
      (∀ ud ∈ uds, ∀ v cl, ud.used = some (.virtual v cl) → (t.virt v).lastUse = some c → st'.home v ≠ none)
  | [], st, hs, _ => ⟨st, rfl, hs, fun _ h => h, by simp⟩
  | ud :: uds, st, hs, hd => by
    obtain ⟨st1, h1, hs1, hh1, hn1⟩ := hp.use_progress hs hk (hd ud mem_cons_self)
    obtain ⟨st', h', hs', hh', hn'⟩ := uses_progress hk uds hs1 (fun u hu => hd u (mem_cons_of_mem _ hu))
    refine ⟨st', ?_, hs', fun u hu => hh' u (hh1 u hu), fun u hu v cl hv hl => ?_⟩
    · rw [map_cons, Scan.run_cons, h1]
      exact h'
    · rcases mem_cons.mp hu with rfl | hu
      · exact hh' v (hn1 v cl hv hl)
      · exact hn' u hu v cl hv hl

theorem instruction_progress (hr : Ranges is t) (hs : VirtualScan is cls t (c + 1) (c + 1) st)
    (hk : is[c]? = some i) :
    ∃ st', st.run (instructionEvents c i) = some st' ∧ VirtualScan is cls t c c st' := by
  obtain ⟨st1, h1, hs1, _, hn1⟩ := hp.definitions_progress hr hk i.definitions hs (fun _ h => h)
  obtain ⟨st2, h2, hs2, _, hn2⟩ := hp.uses_progress hk i.uses (virtualScan_before hr hs1 hk hn1) (fun _ h => h)
  have hcall : callEvents c i = [] := by
    unfold callEvents
    split
    · exact absurd rfl (hp.not_call hk _ _ _)
    · rfl
  refine ⟨st2, ?_, { hs2 with assigned := fun {v l} hl hle => ?_ }⟩
  · simp only [instructionEvents, hcall, append_nil, Scan.run_append, h1, bind_some, h2]
  · by_cases e : l = c
    · subst e
      obtain ⟨i', hi', hrd⟩ := hr.last hl
      rw [hk] at hi'
      cases hi'
      obtain ⟨ud, hud, cl, hd⟩ := mem_readVirtuals.mp hrd
      exact hn2 ud hud v cl hd hl
    · exact hs2.assigned hl (by omega)

/-- **The scan succeeds.** -/
theorem run_progress (hr : Ranges is t) : ∀ (rest : List Opcode) {c : Nat},
    is.drop c = rest →
    ∃ st, Scan.run ⟨t, .empty, []⟩ (events c rest) = some st ∧ VirtualScan is cls t c c st
  | [], c, hd => by
    refine ⟨_, rfl, Core.init t, fun _ => ⟨rfl, rfl⟩, fun h => ?_, fun h => ?_, fun {v l} hl hle => ?_,
      fun {v p} hv => ?_⟩
    · cases h
    · obtain ⟨p, h, _⟩ := h
      cases h
    · obtain ⟨i, hi, _⟩ := hr.last hl
      have := (List.getElem?_eq_some_iff.mp hi).1
      have := drop_eq_nil_iff.mp hd
      omega
    · have : (t.virt v).physicalRegister = some p := hv
      rw [hr.unassigned] at this
      cases this
  | i :: rest, c, hd => by
    have hk : is[c]? = some i := by
      have := congrArg (·[0]?) hd
      simpa using this
    have hd' : is.drop (c + 1) = rest := by
      rw [← drop_drop, hd, drop_one, tail_cons]
    obtain ⟨st1, h1, hs1⟩ := run_progress hr rest hd'
    obtain ⟨st, h, hs⟩ := hp.instruction_progress hr hs1 hk
    refine ⟨st, ?_, hs⟩
    rw [events, Scan.run_append, h1]
    exact h

end

end StraightLine

variable {i : Opcode}

theorem run_defineAll {c : Nat} : ∀ (uds : List UseDef) {st st' : Scan},
    st.run (uds.map (.define c i)) = some st' → defineAll c i uds st = some (st', false)
  | [], st, st', h => by
    cases h
    rfl
  | ud :: uds, st, st', h => by
    obtain ⟨s, h1, h⟩ := bind_eq_some_iff.mp h
    have hd : define c i ud st = some (s, false) := by
      simp only [Scan.step] at h1
      split at h1
      · rename_i s' hs
        cases h1
        exact hs
      · cases h1
    rw [defineAll, hd]
    exact run_defineAll uds h

theorem run_scan : ∀ (is : List Opcode) {c : Nat} {st st' : Scan},
    st.run (events c is) = some st' → scan c is st = some st'
  | [], c, st, st', h => h
  | i :: is, c, st, st', h => by
    rw [events, Scan.run_append] at h
    obtain ⟨s, h1, h⟩ := bind_eq_some_iff.mp h
    unfold instructionEvents at h
    rw [Scan.run_append, Scan.run_append] at h
    obtain ⟨s2, h2, h3⟩ := bind_eq_some_iff.mp h
    obtain ⟨s1, hd, hu⟩ := bind_eq_some_iff.mp h2
    rw [scan, run_scan is h1]
    simp only [bind_eq_bind, bind_some, scanInstruction, run_defineAll _ hd, Bool.false_eq_true,
      if_false, run_uses, hu]
    exact (run_recordCall c i s2).symm.trans h3

/-! ## Commit -/

/-- The renaming an assignment stands for. -/
def Scan.rename (st : Scan) : Register → Register
  | .virtual v c =>
    match st.home v with
    | some p => .physical p
    | none => .virtual v c
  | r => r

theorem Scan.rename_virtual {st : Scan} (h : st.home v = some p) (c : RegisterClass) :
    st.rename (.virtual v c) = .physical p := by
  simp [Scan.rename, h]

variable {g : Register → Register} {o : Operand}

theorem traverseRegisters_eq {f : Register → Option Register} (hd : o.registers = o.seen)
    (hf : ∀ r ∈ o.seen, f r = some (g r)) : o.traverseRegisters f = some (o.mapRegisters g) := by
  obtain ⟨k, w⟩ := o
  cases k with
  | memory base index scale d s =>
    cases base with
    | none =>
      cases index with
      | none => rfl
      | some x => simp [Operand.registers, Operand.seen] at hd
    | some b =>
      cases index with
      | none => simp [Operand.traverseRegisters, Operand.mapRegisters, hf b (by simp [Operand.seen])]
      | some x =>
        simp [Operand.traverseRegisters, Operand.mapRegisters, hf b (by simp [Operand.seen]),
          hf x (by simp [Operand.seen])]
  | register r => simp [Operand.traverseRegisters, Operand.mapRegisters, hf r (by simp [Operand.seen])]
  | immediate | target => rfl

theorem traverseOperands_eq {f : Operand → Option Operand}
    (hf : ∀ o ∈ i.operands, f o = some (o.mapRegisters g)) :
    i.traverseOperands f = some (i.mapRegisters g) := by
  cases i with
  | op0 op => rfl
  | op1 op a => simp [traverseOperands, mapRegisters, hf a (by simp [operands])]
  | op2 op a b =>
    simp [traverseOperands, mapRegisters, hf a (by simp [operands]), hf b (by simp [operands])]
  | op3 op a b c =>
    simp [traverseOperands, mapRegisters, hf a (by simp [operands]),
      hf b (by simp [operands]), hf c (by simp [operands])]
  | call f a b => simp [traverseOperands, mapRegisters, hf f (by simp [operands])]

theorem exists_direction (h : o ∈ i.operands) : ∃ d, (d, o) ∈ i.getApparentOperands := by
  have hm : o ∈ i.getApparentOperands.map Prod.snd := by
    cases i with
    | op0 op => simp [operands] at h
    | op1 op a =>
      cases mem_singleton.mp h
      cases op <;> simp [getApparentOperands]
    | op2 op a b =>
      simp only [operands, mem_cons, not_mem_nil, or_false] at h
      rcases h with rfl | rfl <;> cases op <;> simp [getApparentOperands]
    | op3 op a b c =>
      simp only [operands, mem_cons, not_mem_nil, or_false] at h
      rcases h with rfl | rfl | rfl <;> cases op <;> simp [getApparentOperands, Op3.operands]
    | call f a b =>
      cases mem_singleton.mp h
      simp [getApparentOperands]
  obtain ⟨⟨d, o'⟩, hd, rfl⟩ := mem_map.mp hm
  exact ⟨d, hd⟩

theorem Operand.mapRegisters_id (o : Operand) : o.mapRegisters id = o := by
  obtain ⟨k, w⟩ := o
  cases k with
  | memory base index scale d s => simp [mapRegisters]
  | register | immediate | target => rfl

theorem Opcode.mapRegisters_id (i : Opcode) : i.mapRegisters id = i := by
  cases i <;> simp [mapRegisters, Operand.mapRegisters_id]

/-- Without calls `commit` succeeds when each instruction can be committed. -/
theorem commit_progress {off : Nat} {calls : List (Nat × RegisterSet)} {code : List Opcode}
    (hn : ∀ (k : Nat) i, code[k]? = some i → ∀ f a b, i ≠ call f a b)
    (hc : ∀ (k : Nat) i, code[k]? = some i → i ≠ .dead → ∃ i', commitOperands t off i = some i') :
    ∀ (m j : Nat) {st : Committing}, j + m = code.length → CommitInv t off calls code j st →
      ∃ st', (List.range' j m).foldlM (commitInstruction t off) st = some st'
  | 0, j, st, _, _ => ⟨st, rfl⟩
  | m + 1, j, st, hj, hi => by
    have hs : Slotted code := by
      intro k f a b hk
      exact absurd rfl (hn k _ hk f a b)
    obtain ⟨i, hk⟩ : ∃ i, code[j]? = some i := ⟨_, List.getElem?_eq_getElem (by omega)⟩
    obtain ⟨st1, h1⟩ : ∃ st1, commitInstruction t off st j = some st1 := by
      unfold commitInstruction
      by_cases hd : i = .dead
      · subst hd
        rw [hi.clear hk fun {m f a b} _ hm => absurd rfl (hn m _ hm f a b)]
        exact ⟨st, rfl⟩
      · rw [hi.ahead (Nat.le_refl j) hk hd]
        obtain ⟨i', ho⟩ := hc j i hk hd
        split
        · rename_i h
          cases h
        · rename_i h
          cases h
          exact absurd rfl hd
        · rename_i h
          cases h
          rw [ho]
          exact ⟨_, commitCall_not_call (commitOperands_not_call ho (hn j _ hk))⟩
    obtain ⟨st', h⟩ := commit_progress hn hc m (j + 1) (by omega) (hi.step hs h1)
    refine ⟨st', ?_⟩
    rw [List.range'_succ, foldlM_cons, h1]
    exact h

namespace StraightLine

variable {n : Nat} {cls : Nat → RegisterClass} {is : List Opcode} {t : RegisterTracker} {k : Nat}
  {i : Opcode} {st : Scan}

section

variable (hp : StraightLine n cls is)

include hp

/-- Every register of an operand is virtual and occurs in the use/def table. -/
theorem operand_register (hk : is[k]? = some i) (ho : o ∈ i.operands)
    {r : Register} (hr : r ∈ o.registers) :
    ∃ v < n, r = .virtual v (cls v) ∧ (v ∈ i.writtenVirtuals ∨ v ∈ i.readVirtuals) := by
  obtain ⟨d, hd⟩ := exists_direction ho
  rw [hp.declared i (mem_of_getElem? hk) o ho, ← Operand.seen_useDefs d o] at hr
  obtain ⟨⟨ud, w⟩, hm, rfl⟩ := mem_map.mp hr
  have hud : (ud, w) ∈ i.getUseDefs := mem_flatMap.mpr ⟨_, hd, hm⟩
  obtain ⟨v, hv, he⟩ := hp.virtual i (mem_of_getElem? hk) _ hud
  refine ⟨v, hv, he, ?_⟩
  cases ud with
  | use | useDef =>
    exact .inr (mem_readVirtuals_iff.mpr ⟨cls v, w, mem_reads.mpr ⟨_, hud, congrArg some he⟩⟩)
  | def_ r =>
    exact .inl (mem_writtenVirtuals_iff.mpr ⟨cls v, w, mem_writes.mpr ⟨_, hud, congrArg some he⟩⟩)

theorem home_of_occurs (hr : Ranges is t) (hs : VirtualScan is cls t 0 0 st)
    (hk : is[k]? = some i) (hv : v ∈ i.writtenVirtuals ∨ v ∈ i.readVirtuals) :
    ∃ p ∈ availPhysRegs (cls v), st.home v = some p := by
  have hread : ∃ (j : Nat) (i' : Opcode), is[j]? = some i' ∧ v ∈ i'.readVirtuals := by
    rcases hv with hv | hv
    · obtain ⟨j, i', _, hj, hr⟩ := hp.read v ⟨k, i, (List.getElem?_eq_some_iff.mp hk).1, hk, hv⟩
      exact ⟨j, i', hj, hr⟩
    · exact ⟨k, i, hk, hv⟩
  obtain ⟨j, i', hj, hrd⟩ := hread
  obtain ⟨l, _, hl⟩ := hr.read hj hrd
  obtain ⟨p, hp'⟩ := Option.ne_none_iff_exists'.mp (hs.assigned hl (Nat.zero_le l))
  exact ⟨p, hs.homes hp', hp'⟩

theorem commitOperands_eq (hr : Ranges is t)
    (hs : VirtualScan is cls t 0 0 st) (off : Nat) (hk : is[k]? = some i) :
    commitOperands st.tracker off i = some (killRedundantMov (i.mapRegisters st.rename)) := by
  have hglobal : i.traverseOperands (commitGlobal off) = some i := by
    have := traverseOperands_eq (f := commitGlobal off) (g := id) (i := i) (fun o ho => by
      rw [Operand.mapRegisters_id]
      unfold commitGlobal
      split
      · rename_i g hg
        obtain ⟨v, _, hv, _⟩ := hp.operand_register hk ho (r := .global g) (by simp [Operand.registers, hg])
        cases hv
      · rfl)
    rwa [mapRegisters_id] at this
  have hregs : i.traverseOperands (Operand.traverseRegisters (commitRegister st.tracker)) =
      some (i.mapRegisters st.rename) := by
    refine traverseOperands_eq fun o ho => ?_
    have hd := hp.declared i (mem_of_getElem? hk) o ho
    refine traverseRegisters_eq hd fun r hr' => ?_
    obtain ⟨v, _, rfl, hv⟩ := hp.operand_register hk ho (hd ▸ hr')
    obtain ⟨p, _, hh⟩ := hp.home_of_occurs hr hs hk hv
    rw [Scan.rename_virtual hh]
    simp only [Scan.home] at hh
    simp [commitRegister, hh]
  unfold commitOperands
  rw [hglobal]
  simp only [bind_eq_bind, bind_some, hregs]

/-- **The allocation of straight-line code**: nothing is killed, every register that occurs is
assigned one of its class, and every instruction is renamed. -/
theorem allocation (hs : Settled cls is) (off : Nat) :
    ∃ A : Allocation is n off, A.code = is ∧
      A.out = is.map (fun i => killRedundantMov (i.mapRegisters A.final.rename)) ∧
      ∀ {k : Nat} {i : Opcode} {v}, is[k]? = some i → (v ∈ i.writtenVirtuals ∨ v ∈ i.readVirtuals) →
        ∃ p ∈ availPhysRegs (cls v), A.assigned v = some p := by
  obtain ⟨t, hc, hr⟩ := hp.ranges hs
  obtain ⟨st, hrun, hvs⟩ := hp.run_progress hr is (c := 0) rfl
  have hsc : doAllocate t is = some st := run_scan is hrun
  have hno : ∀ (k : Nat) i, is[k]? = some i → ∀ f a b, i ≠ call f a b := fun k i hk =>
    hp.not_call hk
  have hco := fun (k : Nat) i (hk : is[k]? = some i) => hp.commitOperands_eq hr hvs off hk
  obtain ⟨out, hout⟩ : ∃ out, commit st.tracker st.liveAtCalls is off = some out := by
    obtain ⟨st', h⟩ := commit_progress hno (fun k i hk _ => ⟨_, hco k i hk⟩) is.length 0
      (Nat.zero_add _) (CommitInv.init st.tracker off st.liveAtCalls is)
    refine ⟨st'.1, ?_⟩
    unfold commit
    rw [range_eq_range', h]
    rfl
  have hsl : Slotted is := by
    intro k f a b hk
    exact absurd rfl (hno k _ hk f a b)
  refine ⟨⟨t, is, st, out, hc, hsc, hout⟩, rfl, ?_, fun hk hv => hp.home_of_occurs hr hvs hk hv⟩
  obtain ⟨rest, hi⟩ := commit_spec hsl hout
  refine ext_getElem? fun k => ?_
  rw [List.getElem?_map]
  cases hk : is[k]? with
  | none =>
    refine List.getElem?_eq_none ?_
    rw [hi.length]
    exact List.getElem?_eq_none_iff.mp hk
  | some i =>
    by_cases hd : i = .dead
    · subst hd
      exact hi.clear hk fun {m f a b} _ hm => absurd rfl (hno m _ hm f a b)
    · obtain ⟨i', ho, hk'⟩ := hi.done (List.getElem?_eq_some_iff.mp hk).1 hk hd
      rw [hco k i hk] at ho
      cases ho
      exact hk'

end

end StraightLine

end Icewind.X86
