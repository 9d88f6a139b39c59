import Icewind.Brig.GicPending

/-!
# What `update` records

The loop of `update` looks for the best of all candidates, and compares it with the priority mask only afterwards.

* `Eligible` — a candidate whose priority value is below the mask.
* `First` — the eligible line of least priority value, and among equals of lowest number.
* `bestIrq_earliest` — a line that the loop passes over for a later one has a greater priority value.
* `update_exact` — `update` records the first eligible line, and raises the flag if it may interrupt the running one.
-/

namespace Icewind.Brig.Gic

open List

structure Eligible (s : Controller) (i : Nat) : Prop where
  line : i < lineCount
  candidate : s.candidate i = true
  below_mask : (s.lines i).priority < s.cpuPmr

/-- **The line that should be recorded.** -/
structure First (s : Controller) (i : Nat) : Prop where
  eligible : Eligible s i
  least : ∀ j, Eligible s j → (s.lines i).priority ≤ (s.lines j).priority
  lowest : ∀ j, Eligible s j → (s.lines j).priority = (s.lines i).priority → i ≤ j

/-- The interrupt has a priority value below that of the running one, if there is one. -/
def Preempts (s : Controller) (i : Nat) : Prop :=
  ∀ r, s.cpuIrqLineRunning = some r → (s.lines i).priority < (s.lines r).priority

variable {b : Nat}

/-- The result of the loop, when it has seen the lines below `n`, is better than the candidates before it. -/
theorem foldl_better_earliest (s : Controller) (n : Nat) (hb : (List.range n).foldl s.better none = some b) :
    ∀ j < b, s.candidate j = true → (s.lines b).priority < (s.lines j).priority := by
  induction n generalizing b with
  | zero => cases hb
  | succ n ih =>
    have hbest := foldl_better_best s n
    rw [range_succ, foldl_append, foldl_cons, foldl_nil] at hb
    generalize (List.range n).foldl s.better none = best at hb hbest ih
    unfold Controller.better at hb
    split at hb
    · cases best with
      | none =>
        cases hb
        intro j hj hc
        obtain ⟨b, hb, -⟩ := hbest.least j (mem_range.mpr hj) hc
        cases hb
      | some b' =>
        dsimp only at hb
        split at hb
        · rename_i hlt
          cases hb
          intro j hj hc
          obtain ⟨b, hb, hle⟩ := hbest.least j (mem_range.mpr hj) hc
          cases hb
          exact Nat.lt_of_lt_of_le hlt hle
        · exact ih hb
    · exact ih hb

variable {s : Controller}

theorem bestIrq_earliest (hb : s.bestIrq = some b) :
    ∀ j < b, s.candidate j = true → (s.lines b).priority < (s.lines j).priority :=
  foldl_better_earliest s lineCount hb

theorem bestIrq_first (hb : s.bestIrq = some b) (hmask : (s.lines b).priority < s.cpuPmr) : First s b := by
  have hbest := bestIrq_spec s
  obtain ⟨hline, hc⟩ := hbest.mem b hb
  refine ⟨⟨mem_range.mp hline, hc, hmask⟩, fun j hj => ?_, fun j hj heq => ?_⟩
  · obtain ⟨b', hb', hle⟩ := hbest.least j (mem_range.mpr hj.line) hj.candidate
    rw [hb] at hb'
    cases hb'
    exact hle
  · by_contra hlt
    have := bestIrq_earliest hb j (Nat.lt_of_not_le hlt) hj.candidate
    omega

theorem First.unique {i j : Nat} (hi : First s i) (hj : First s j) : i = j := by
  have heq : (s.lines i).priority = (s.lines j).priority :=
    Nat.le_antisymm (hi.least j hj.eligible) (hj.least i hi.eligible)
  exact Nat.le_antisymm (hi.lowest j hj.eligible heq.symm) (hj.lowest i hi.eligible heq)

theorem update_pending_iff (hcpu : s.cpuEnabled = true) (hdistributor : s.distributorEnabled = true) (i : Nat) :
    s.update.cpuIrqLinePending = some i ↔ First s i := by
  have hbest := bestIrq_spec s
  have hon : (!s.cpuEnabled || !s.distributorEnabled) = false := by rw [hcpu, hdistributor]; rfl
  unfold Controller.update
  rw [hon, if_neg Bool.false_ne_true]
  split
  · rename_i hnone
    refine ⟨fun h => (by cases h), fun h => ?_⟩
    obtain ⟨b, hb, -⟩ := hbest.least i (mem_range.mpr h.eligible.line) h.eligible.candidate
    rw [hnone] at hb
    cases hb
  · rename_i b hb
    split
    · rename_i hmask
      have hfirst := bestIrq_first hb hmask
      refine ⟨fun h => ?_, fun h => congrArg some (hfirst.unique h)⟩
      cases h
      exact hfirst
    · rename_i hmask
      refine ⟨fun h => (by cases h), fun h => ?_⟩
      -- the mask would hold for the best line too
      obtain ⟨b', hb', hle⟩ := hbest.least i (mem_range.mpr h.eligible.line) h.eligible.candidate
      rw [hb] at hb'
      cases hb'
      exact absurd (Nat.lt_of_le_of_lt hle h.eligible.below_mask) hmask

theorem update_pending_none (hcpu : s.cpuEnabled = true) (hdistributor : s.distributorEnabled = true)
    (hnone : s.update.cpuIrqLinePending = none) (i : Nat) : ¬ Eligible s i := by
  intro hi
  obtain ⟨b, hb, hle⟩ := (bestIrq_spec s).least i (mem_range.mpr hi.line) hi.candidate
  have hfirst := bestIrq_first hb (Nat.lt_of_le_of_lt hle hi.below_mask)
  rw [(update_pending_iff hcpu hdistributor b).mpr hfirst] at hnone
  cases hnone

/-- Without a running interrupt the priority is below `0x100`, as all are that are below the mask. -/
theorem lt_runningPriority_iff (hpmr : s.cpuPmr < 2 ^ 8) {i : Nat} (hi : Eligible s i) :
    (s.lines i).priority < s.runningPriority ↔ Preempts s i := by
  unfold Controller.runningPriority Preempts
  cases hrunning : s.cpuIrqLineRunning with
  | none =>
    have := hi.below_mask
    exact ⟨fun _ r hr => (by cases hr), fun _ => by dsimp only; omega⟩
  | some r =>
    refine ⟨fun h r' hr' => ?_, fun h => h r rfl⟩
    cases hr'
    exact h

theorem update_flag_iff (hcpu : s.cpuEnabled = true) (hdistributor : s.distributorEnabled = true)
    (hpmr : s.cpuPmr < 2 ^ 8) : s.update.interruptPending = 1 ↔ ∃ i, First s i ∧ Preempts s i := by
  rw [update_flag]
  constructor
  · intro hdue
    obtain ⟨i, hi, hc, hmask, hrunning⟩ := hdue.line
    obtain ⟨b, hb, hle⟩ := (bestIrq_spec s).least i (mem_range.mpr hi) hc
    have hfirst := bestIrq_first hb (Nat.lt_of_le_of_lt hle hmask)
    exact ⟨b, hfirst, (lt_runningPriority_iff hpmr hfirst.eligible).mp (Nat.lt_of_le_of_lt hle hrunning)⟩
  · rintro ⟨i, hi, hpreempts⟩
    exact ⟨hcpu, hdistributor, i, hi.eligible.line, hi.eligible.candidate, hi.eligible.below_mask,
      (lt_runningPriority_iff hpmr hi.eligible).mpr hpreempts⟩

theorem update_flag_cases (s : Controller) : s.update.interruptPending = 0 ∨ s.update.interruptPending = 1 := by
  unfold Controller.update
  split
  · exact .inl rfl
  · split
    · exact .inl rfl
    · split
      · change (if _ then 1 else 0) = 0 ∨ (if _ then 1 else 0) = 1
        split
        · exact .inr rfl
        · exact .inl rfl
      · exact .inl rfl

/-- **`update` is exact.**  With both enables on it records the first eligible line, none if there is none, and the flag
is raised just when that line may interrupt the running one; otherwise nothing is recorded and the flag is lowered.
The priority mask is a byte. -/
theorem update_exact (s : Controller) (hpmr : s.cpuPmr < 2 ^ 8) : (s.cpuEnabled = true → s.distributorEnabled = true →
      (∀ i, s.update.cpuIrqLinePending = some i ↔ First s i) ∧
      (s.update.cpuIrqLinePending = none ↔ ∀ i, ¬ Eligible s i) ∧
      (s.update.interruptPending = 1 ↔ ∃ i, First s i ∧ Preempts s i) ∧
      (s.update.interruptPending = 0 ↔ ¬ ∃ i, First s i ∧ Preempts s i)) ∧
    (s.cpuEnabled = false ∨ s.distributorEnabled = false →
      s.update.cpuIrqLinePending = none ∧ s.update.interruptPending = 0) := by
  constructor
  · intro hcpu hdistributor
    have hpending := update_pending_iff hcpu hdistributor
    have hflag := update_flag_iff hcpu hdistributor hpmr
    refine ⟨hpending, ⟨update_pending_none hcpu hdistributor, fun hall => ?_⟩, hflag, ?_⟩
    · cases hline : s.update.cpuIrqLinePending with
      | none => rfl
      | some i => exact absurd ((hpending i).mp hline).eligible (hall i)
    · rw [← hflag]
      rcases update_flag_cases s with h | h
      · rw [h]
        exact ⟨fun _ h => (by cases h), fun _ => rfl⟩
      · rw [h]
        exact ⟨fun h => (by cases h), fun h => absurd rfl h⟩
  · intro hoff
    have hrescinds : (!s.cpuEnabled || !s.distributorEnabled) = true := by
      rcases hoff with h | h
      · rw [h]
        rfl
      · rw [h]
        exact Bool.or_true _
    unfold Controller.update
    rw [hrescinds, if_pos rfl]
    exact ⟨rfl, rfl⟩

/-- Two lines of the same priority are raised while a third one runs. -/
def twoRaised : Controller where
  lines i := { IrqLine.new 0 1 with enabled := true, raised := i == 40 || i == 41, priority := if i = 50 then 32 else 16 }
  distributorEnabled := true
  cpuEnabled := true
  cpuPmr := 255
  cpuIrqLinePending := none
  cpuIrqLineRunning := some 50
  interruptPending := 0

theorem update_exact_twoRaised :
    twoRaised.update.cpuIrqLinePending = some 40 ∧ twoRaised.update.interruptPending = 1 := by
  obtain ⟨hpending, -, hflag, -⟩ := (update_exact twoRaised (by decide)).1 rfl rfl
  have hcandidates : ∀ j, twoRaised.candidate j = true → j = 40 ∨ j = 41 := by
    intro j hj
    simpa [Controller.candidate, twoRaised, IrqLine.new, IrqLine.levelTriggered] using hj
  have hfirst : First twoRaised 40 := by
    refine ⟨⟨by decide, by decide, by decide⟩, fun j hj => ?_, fun j hj _ => ?_⟩
    · rcases hcandidates j hj.candidate with rfl | rfl <;> decide
    · rcases hcandidates j hj.candidate with rfl | rfl <;> decide
  refine ⟨(hpending 40).mpr hfirst, hflag.mpr ⟨40, hfirst, fun r hr => ?_⟩⟩
  cases hr
  decide

end Icewind.Brig.Gic
