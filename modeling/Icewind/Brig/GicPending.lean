import Icewind.Brig.Gic
import Mathlib.Tactic.Common

/-!
# The pending flag and the enable bits of the interrupt controller

* `Due` — an interrupt should be pending: both enables are on and some candidate has a priority value
  below the mask and below the running priority.
* `Current` — nothing has changed since the last `update`; then the flag is right (`Current.flag_iff`).
* `enableAfter` — the enable bit given by the last set- or clear-enable write that selected the line.
* `Meets` — a condition on a step.  Registers whose writes are not followed by an `update` are written
  while no line is pending or raised, or while one of the enables is off; clear-enable writes
  come when all lines of the word are enabled.
* `run_flag_and_enables` — in every run whose steps meet the condition, the flag and all enable bits
  are right after every step.
* `not_flag_nor_enables` — without it neither holds.
-/

namespace Icewind.Brig.Gic

open List Option Controller

/-! ### What should be pending -/

/-- **An interrupt should be pending.** -/
structure Due (s : Controller) : Prop where
  cpu : s.cpuEnabled = true
  distributor : s.distributorEnabled = true
  line : ∃ i < lineCount, s.candidate i = true ∧ (s.lines i).priority < s.cpuPmr ∧
    (s.lines i).priority < s.runningPriority

/-- The best of some candidates. -/
structure Best (s : Controller) (l : List Nat) (best : Option Nat) : Prop where
  mem : ∀ b, best = some b → b ∈ l ∧ s.candidate b = true
  least : ∀ i ∈ l, s.candidate i = true → ∃ b, best = some b ∧ (s.lines b).priority ≤ (s.lines i).priority

variable {s : Controller}

theorem Best.concat {l : List Nat} {best : Option Nat} (h : Best s l best) (i : Nat) :
    Best s (l ++ [i]) (s.better best i) := by
  unfold better
  split
  · rename_i hcandidate
    -- the next line is a candidate, and is taken if it is better
    cases best with
    | none =>
      refine ⟨fun b hb => ?_, fun j hj hc => ?_⟩
      · cases hb
        exact ⟨mem_append_right _ mem_cons_self, hcandidate⟩
      · rcases mem_append.mp hj with hj | hj
        · obtain ⟨b, hb, -⟩ := h.least j hj hc
          cases hb
        · cases mem_singleton.mp hj
          exact ⟨i, rfl, Nat.le_refl _⟩
    | some b =>
      obtain ⟨hb, hbc⟩ := h.mem b rfl
      dsimp only
      split
      · rename_i hlt
        refine ⟨fun b' hb' => ?_, fun j hj hc => ⟨i, rfl, ?_⟩⟩
        · cases hb'
          exact ⟨mem_append_right _ mem_cons_self, hcandidate⟩
        · rcases mem_append.mp hj with hj | hj
          · obtain ⟨b', hb', hle⟩ := h.least j hj hc
            cases hb'
            omega
          · cases mem_singleton.mp hj
            exact Nat.le_refl _
      · rename_i hge
        refine ⟨fun b' hb' => ?_, fun j hj hc => ⟨b, rfl, ?_⟩⟩
        · cases hb'
          exact ⟨mem_append_left _ hb, hbc⟩
        · rcases mem_append.mp hj with hj | hj
          · obtain ⟨b', hb', hle⟩ := h.least j hj hc
            cases hb'
            exact hle
          · cases mem_singleton.mp hj
            omega
  · rename_i hcandidate
    refine ⟨fun b hb => ?_, fun j hj hc => ?_⟩
    · obtain ⟨hmem, hc⟩ := h.mem b hb
      exact ⟨mem_append_left _ hmem, hc⟩
    · rcases mem_append.mp hj with hj | hj
      · exact h.least j hj hc
      · cases mem_singleton.mp hj
        exact absurd hc hcandidate

/-- The loop of `update` when it has seen the lines below `n`. -/
theorem foldl_better_best (s : Controller) (n : Nat) : Best s (List.range n) ((List.range n).foldl s.better none) := by
  induction n with
  | zero => exact ⟨fun b hb => (by cases hb), fun i hi => (by cases hi)⟩
  | succ n ih =>
    rw [range_succ, foldl_append]
    exact ih.concat n

/-- **The loop of `update` finds a candidate of the best priority.** -/
theorem bestIrq_spec (s : Controller) : Best s (List.range lineCount) s.bestIrq := foldl_better_best s lineCount

theorem bestIrq_eq_none (h : ∀ i < lineCount, s.candidate i = false) : s.bestIrq = none := by
  cases hbest : s.bestIrq with
  | none => rfl
  | some b =>
    obtain ⟨hb, hc⟩ := (bestIrq_spec s).mem b hbest
    rw [h b (mem_range.mp hb)] at hc
    cases hc

/-! ### Update -/

variable {s' : Controller}

theorem bestIrq_congr (h : s'.lines = s.lines) : s'.bestIrq = s.bestIrq := by
  have hbetter : s'.better = s.better := by
    unfold better candidate
    rw [h]
  unfold bestIrq
  rw [hbetter]

/-- `update` looks neither at the pending line nor at the flag. -/
theorem update_congr (s : Controller) (p : Option Nat) (f : Nat) :
    update { s with cpuIrqLinePending := p, interruptPending := f } = s.update := by
  have hbest : bestIrq { s with cpuIrqLinePending := p, interruptPending := f } = s.bestIrq :=
    bestIrq_congr rfl
  unfold update
  rw [hbest]
  generalize s.bestIrq = best
  cases best <;> rfl

theorem update_eq (s : Controller) : ∃ p f, s.update = { s with cpuIrqLinePending := p, interruptPending := f } := by
  unfold update
  split
  · exact ⟨_, _, rfl⟩
  · split
    · exact ⟨_, _, rfl⟩
    · split
      · exact ⟨_, _, rfl⟩
      · exact ⟨_, _, rfl⟩

/-- **After an update the flag is right.** -/
theorem update_flag (s : Controller) : s.update.interruptPending = 1 ↔ Due s := by
  have hbest := bestIrq_spec s
  unfold update
  split
  · rename_i hoff
    refine ⟨fun h => (by cases h), fun h => ?_⟩
    simp [h.cpu, h.distributor] at hoff
  · rename_i hon
    simp only [Bool.or_eq_true, Bool.not_eq_true', not_or, Bool.not_eq_false] at hon
    split
    · rename_i hnone
      refine ⟨fun h => (by cases h), fun h => ?_⟩
      obtain ⟨i, hi, hc, -⟩ := h.line
      obtain ⟨b, hb, -⟩ := hbest.least i (mem_range.mpr hi) hc
      rw [hnone] at hb
      cases hb
    · rename_i b hsome
      -- the best line is below a bound if any candidate is
      have hleast : ∀ i < lineCount, s.candidate i = true →
          (s.lines b).priority ≤ (s.lines i).priority := fun i hi hc => by
        obtain ⟨b', hb', hle⟩ := hbest.least i (mem_range.mpr hi) hc
        rw [hsome] at hb'
        cases hb'
        exact hle
      obtain ⟨hb, hbc⟩ := hbest.mem b hsome
      split
      · rename_i hpmr
        refine ⟨fun h => ⟨hon.1, hon.2, b, mem_range.mp hb, hbc, hpmr, ?_⟩, fun h => ?_⟩
        · by_contra hge
          rw [if_neg hge] at h
          cases h
        · obtain ⟨i, hi, hc, -, hrunning⟩ := h.line
          rw [if_pos (Nat.lt_of_le_of_lt (hleast i hi hc) hrunning)]
      · rename_i hpmr
        refine ⟨fun h => (by cases h), fun h => ?_⟩
        obtain ⟨i, hi, hc, hlt, -⟩ := h.line
        exact absurd (Nat.lt_of_le_of_lt (hleast i hi hc) hlt) hpmr

/-- Nothing has changed since the last update. -/
def Current (s : Controller) : Prop := s.update = s

theorem current_update (s : Controller) : Current s.update := by
  obtain ⟨p, f, h⟩ := update_eq s
  have hsame := update_congr s p f
  unfold Current
  rw [h, hsame, h]

/-- **While nothing has changed since the last update, the flag is right.** -/
theorem Current.flag_iff (h : Current s) : s.interruptPending = 1 ↔ Due s := by
  have hflag := update_flag s
  rw [show s.update = s from h] at hflag
  exact hflag

/-- Nothing can be due: one of the enables is off, or no line is pending or raised. -/
def Idle (s : Controller) : Prop :=
  (s.cpuEnabled && s.distributorEnabled) = false ∨
    ∀ i < lineCount, (s.lines i).pending = false ∧ (s.lines i).raised = false

theorem Idle.update_eq (h : Idle s) : s.update = { s with cpuIrqLinePending := none, interruptPending := 0 } := by
  unfold update
  rcases h with hoff | hquiet
  · rw [if_pos]
    revert hoff
    cases s.cpuEnabled <;> cases s.distributorEnabled <;> simp
  · dsimp only
    split
    · rfl
    · have hnone : s.bestIrq = none := bestIrq_eq_none fun i hi => by
        obtain ⟨hpending, hraised⟩ := hquiet i hi
        unfold candidate
        simp [hpending, hraised]
      rw [hnone]

/-- A change between two states in which nothing can be due. -/
theorem Current.of_idle (h : Current s) (hs : Idle s) (hs' : Idle s')
    (hline : s'.cpuIrqLinePending = s.cpuIrqLinePending) (hflag : s'.interruptPending = s.interruptPending) :
    Current s' := by
  have heq := hs.update_eq
  rw [show s.update = s from h] at heq
  unfold Current
  rw [hs'.update_eq]
  rw [heq] at hline hflag
  cases s'
  cases hline
  cases hflag
  rfl

/-! ### Changes that `update` does not see -/

theorem Idle.congr (h : Idle s) (hcpu : s'.cpuEnabled = s.cpuEnabled)
    (hdistributor : s'.distributorEnabled = s.distributorEnabled)
    (hlines : ∀ i, (s'.lines i).pending = (s.lines i).pending ∧ (s'.lines i).raised = (s.lines i).raised) :
    Idle s' := by
  rcases h with hoff | hquiet
  · refine .inl ?_
    rw [hcpu, hdistributor]
    exact hoff
  · refine .inr fun i hi => ?_
    rw [(hlines i).1, (hlines i).2]
    exact hquiet i hi

/-- Two lines that `update` does not tell apart. -/
structure IrqLine.Alike (l l' : IrqLine) : Prop where
  enabled : l'.enabled = l.enabled
  pending : l'.pending = l.pending
  raised : l'.raised = l.raised
  priority : l'.priority = l.priority
  config : l'.config = l.config

theorem IrqLine.Alike.refl (l : IrqLine) : l.Alike l := ⟨rfl, rfl, rfl, rfl, rfl⟩

variable {lines : Nat → IrqLine}

theorem update_lines (h : ∀ i, (s.lines i).Alike (lines i)) :
    update { s with lines := lines } = { s.update with lines := lines } := by
  have hpriority : ∀ i, (lines i).priority = (s.lines i).priority := fun i => (h i).priority
  have hcandidate : candidate { s with lines := lines } = s.candidate := by
    funext i
    unfold candidate IrqLine.levelTriggered
    rw [show ({ s with lines := lines } : Controller).lines = lines from rfl, (h i).enabled,
      (h i).pending, (h i).raised, (h i).config]
  have hbetter : better { s with lines := lines } = s.better := by
    funext best i
    unfold better
    rw [hcandidate]
    cases best <;> simp only [hpriority]
  have hbest : bestIrq { s with lines := lines } = s.bestIrq := by
    unfold bestIrq
    rw [hbetter]
  have hrunning : runningPriority { s with lines := lines } = s.runningPriority := by
    unfold runningPriority
    cases s.cpuIrqLineRunning <;> simp only [hpriority]
  unfold update
  rw [hbest, hrunning]
  generalize s.bestIrq = best
  generalize s.runningPriority = running
  cases best with
  | none => dsimp only; split <;> rfl
  | some b =>
    dsimp only
    rw [hpriority b]
    split
    · rfl
    · split <;> rfl

theorem Current.of_alike (h : Current s) (hlines : ∀ i, (s.lines i).Alike (lines i)) :
    Current { s with lines := lines } := by
  unfold Current
  rw [update_lines hlines, show s.update = s from h]

/-- While no line is pending for the CPU, what is running makes no difference. -/
theorem Current.stop (h : Current s) (hnone : s.cpuIrqLinePending = none) :
    Current { s with cpuIrqLineRunning := none } := by
  have hbest : bestIrq { s with cpuIrqLineRunning := none } = s.bestIrq := bestIrq_congr rfl
  have heq : s.update = s := h
  have hline : s.update.cpuIrqLinePending = none := by rw [heq, hnone]
  have hrescinded : s = { s with cpuIrqLinePending := none, interruptPending := 0 } := by
    rw [← heq]
    revert hline
    unfold update
    generalize s.bestIrq = best
    intro hline
    split
    · rfl
    · rename_i hon
      rw [if_neg hon] at hline
      cases best with
      | none => rfl
      | some b =>
        dsimp only at hline ⊢
        split
        · rename_i hpmr
          rw [if_pos hpmr] at hline
          cases hline
        · rfl
  unfold Current
  unfold update at heq ⊢
  rw [hbest]
  generalize s.bestIrq = best at heq
  split
  · rw [hrescinded]
  · rename_i hon
    rw [if_neg hon] at heq
    cases best with
    | none => rw [hrescinded]
    | some b =>
      dsimp only at heq ⊢
      split
      · rename_i hpmr
        rw [if_pos hpmr] at heq
        rw [← heq] at hnone
        cases hnone
      · rw [hrescinded]

/-! ### Runs -/

/-- A run: the operations one after the other. -/
def Controller.run (s : Controller) : List Op → Option Controller
  | [] => some s
  | op :: ops => (s.step op).bind (·.run ops)

/-- Does a write of a word of enable bits select a line? -/
def selected (base value line : Nat) : Bool :=
  8 * base ≤ line && line < 8 * base + 32 && bitAt value (line - 8 * base)

/-- The enable bit that a write to a register of the distributor gives a line. -/
def DistributorRegister.enable (value line : Nat) : DistributorRegister → Option Bool
  | .isenable base => if selected base value line then some true else none
  | .icenable base => if selected base value line then some false else none
  | _ => none

/-- The enable bit that an operation gives a line. -/
def Op.enable (line : Nat) : Op → Option Bool
  | .writeDistributor offset value =>
    (writtenValue value).bind fun v => (DistributorRegister.at offset).bind (·.enable v line)
  | _ => none

/-- The enable bit of a line, given by the last write that selected it. -/
def enableAfter (ops : List Op) (line : Nat) : Bool :=
  ops.foldl (fun bit op => (op.enable line).getD bit) false

/-! ### The condition -/

/-- No line is pending or raised. -/
def Quiet (s : Controller) : Prop :=
  ∀ i < lineCount, (s.lines i).pending = false ∧ (s.lines i).raised = false

/-- The condition on a write to a register of the distributor. -/
def MeetsRegister (s : Controller) (value : Nat) : DistributorRegister → Prop
  -- no `update` follows a write to these registers
  | .ctlr => Quiet s ∨ s.cpuEnabled = false ∨ s.distributorEnabled = (value &&& 1 == 1)
  | .ipriority _ | .icfg _ => Idle s
  -- the slice ends before the last line
  | .isenable base => Idle s ∧ selected base value 1019 = false
  -- `fetch_nand` enables the lines that are not enabled, and those not selected
  | .icenable base => Idle s ∧ ∀ i < 1019, 8 * base ≤ i → i < 8 * base + 32 → (s.lines i).enabled = true
  -- an `update` follows for the lines that are raised
  | .cpendsgir base => ∀ i < 1019, selected base value i = true → (s.lines i).pending = true → (s.lines i).raised = true
  | .icactive _ | .itargets _ | .sgir => True

/-- **The condition on a step.** -/
def Meets (s : Controller) : Op → Prop
  | .writeCpu offset value => ∀ v, writtenValue value = some v →
    (offset = 0x0000 → Quiet s ∨ s.distributorEnabled = false ∨ s.cpuEnabled = (v &&& 1 == 1)) ∧
    (offset = 0x0004 → Idle s)
  | .writeDistributor offset value => ∀ v r, writtenValue value = some v →
    DistributorRegister.at offset = some r → MeetsRegister s v r
  | _ => True

/-- Every step of a run meets the condition. -/
def MeetsRun (s : Controller) : List Op → Prop
  | [] => True
  | op :: ops => Meets s op ∧ ∀ t, s.step op = some t → MeetsRun t ops

/-! ### Steps -/

variable {slice : Nat × Nat}

theorem linesForBitvector_bits {base : Nat} (h : linesForBitvector base 4 1 = some slice) :
    slice.1 = 8 * base ∧ slice.2 = min (8 * base + 32) 1019 := by
  unfold linesForBitvector at h
  dsimp only at h
  split at h
  · cases h
    constructor <;> omega
  · cases h

theorem update_keeps_lines (s : Controller) : s.update.lines = s.lines := by
  obtain ⟨p, f, h⟩ := update_eq s
  rw [h]

@[simp] theorem setLine_line (s : Controller) (i : Nat) (line : IrqLine) : (s.setLine i line).lines i = line := by
  simp [setLine]

theorem setLine_other (s : Controller) {i j : Nat} (hj : j ≠ i) (line : IrqLine) :
    (s.setLine i line).lines j = s.lines j := by
  simp [setLine, hj]

/-- The enable bits of two states are the same. -/
def SameEnables (s s' : Controller) : Prop := ∀ i, (s'.lines i).enabled = (s.lines i).enabled

theorem SameEnables.setLine (s : Controller) (i : Nat) (line : IrqLine)
    (h : line.enabled = (s.lines i).enabled) : SameEnables s (s.setLine i line) := fun j => by
  by_cases hj : j = i
  · cases hj
    rw [setLine_line]
    exact h
  · rw [setLine_other s hj]

theorem SameEnables.update (h : SameEnables s s') : SameEnables s s'.update := fun i => by
  rw [update_keeps_lines]
  exact h i

/-- What a step does: nothing is out of date after it, and the enable bits are the given ones. -/
structure Sound (s : Controller) (enable : Nat → Option Bool) (s' : Controller) : Prop where
  current : Current s'
  enabled : ∀ i < lineCount, (s'.lines i).enabled = (enable i).getD (s.lines i).enabled

theorem Sound.of_same (hcurrent : Current s') (h : SameEnables s s') : Sound s (fun _ => none) s' :=
  ⟨hcurrent, fun i _ => h i⟩

theorem acknowledge_sound (h : Current s) : Sound s (fun _ => none) s.acknowledge.2 := by
  unfold acknowledge
  split
  · rename_i hnone
    exact .of_same (h.stop hnone) fun _ => rfl
  · rename_i p _
    split
    · exact .of_same h fun _ => rfl
    · dsimp only
      refine .of_same (current_update _) (SameEnables.update ?_)
      exact SameEnables.setLine s p _ rfl

theorem unchain_sameEnables {irqid : Nat} :
    ∀ {fuel : Nat} {last : Option Nat}, s.unchain irqid fuel last = some s' → SameEnables s s'
  | fuel, none, h => by
    cases fuel <;> cases h <;> exact fun _ => rfl
  | 0, some _, h => by cases h
  | fuel + 1, some last, h => by
    unfold unchain at h
    split at h
    · cases h
      exact SameEnables.setLine s last _ rfl
    · exact unchain_sameEnables h

theorem eoi_sound {irqid : Nat} (h : Current s) (heoi : s.eoi irqid = some s') : Sound s (fun _ => none) s' := by
  unfold eoi at heoi
  split at heoi
  · cases heoi
    exact .of_same h fun _ => rfl
  · split at heoi
    · cases heoi
      exact .of_same h fun _ => rfl
    · split at heoi
      · obtain ⟨t, ht, hs'⟩ := map_eq_some_iff.mp heoi
        cases hs'
        exact .of_same (current_update _) (SameEnables.update (unchain_sameEnables ht))
      · cases heoi
        exact .of_same (current_update _) (SameEnables.update fun _ => rfl)

theorem raise_sound {line : Nat} (h : Current s) (hraise : s.raise line = some s') : Sound s (fun _ => none) s' := by
  unfold raise at hraise
  split at hraise
  · cases hraise
    unfold raiseLine
    split
    · exact .of_same h fun _ => rfl
    · exact .of_same (current_update _) (SameEnables.update (SameEnables.setLine s line _ rfl))
  · cases hraise

theorem rescindLine_sound (line : Nat) (h : Current s) : Sound s (fun _ => none) (s.rescindLine line) := by
  unfold rescindLine
  split
  · exact .of_same (current_update _) (SameEnables.update (SameEnables.setLine s line _ rfl))
  · exact .of_same h fun _ => rfl

theorem Idle.cpuWrite {b : Bool} (h : Quiet s ∨ s.distributorEnabled = false) : Idle { s with cpuEnabled := b } := by
  rcases h with h | h
  · exact .inr h
  · refine .inl ?_
    rw [show ({ s with cpuEnabled := b } : Controller).distributorEnabled = false from h, Bool.and_false]

theorem Idle.distributorWrite {b : Bool} (h : Quiet s ∨ s.cpuEnabled = false) :
    Idle { s with distributorEnabled := b } := by
  rcases h with h | h
  · exact .inr h
  · refine .inl ?_
    rw [show ({ s with distributorEnabled := b } : Controller).cpuEnabled = false from h, Bool.false_and]

variable {value : Nat}

theorem writeCpu_sound {offset : Nat} (h : Current s)
    (hctlr : offset = 0x0000 → Quiet s ∨ s.distributorEnabled = false ∨ s.cpuEnabled = (value &&& 1 == 1))
    (hpmr : offset = 0x0004 → Idle s) (hwrite : s.writeCpu offset value = some s') : Sound s (fun _ => none) s' := by
  unfold writeCpu at hwrite
  split at hwrite
  · rename_i hoffset
    cases hwrite
    refine .of_same ?_ fun _ => rfl
    -- the enable is written as it was, or nothing can be due before and after
    rcases hctlr hoffset with hquiet | hoff | hsame
    · exact h.of_idle (.inr hquiet) (Idle.cpuWrite (.inl hquiet)) rfl rfl
    · refine h.of_idle (.inl ?_) (Idle.cpuWrite (.inr hoff)) rfl rfl
      rw [hoff, Bool.and_false]
    · rw [← hsame]
      exact h
  · split at hwrite
    · rename_i hoffset
      cases hwrite
      have hidle := hpmr hoffset
      exact .of_same (h.of_idle hidle (hidle.congr rfl rfl fun _ => ⟨rfl, rfl⟩) rfl rfl) fun _ => rfl
    · split at hwrite
      · exact eoi_sound h hwrite
      · cases hwrite

variable {f : Nat → IrqLine → IrqLine}

theorem mapLines_current (h : Current s) (hidle : Idle s) (slice : Nat × Nat)
    (hf : ∀ i line, (f i line).pending = line.pending ∧ (f i line).raised = line.raised) :
    Current (s.mapLines slice f) := by
  refine h.of_idle hidle (hidle.congr rfl rfl fun i => ?_) rfl rfl
  unfold mapLines
  dsimp only
  split
  · exact hf _ _
  · exact ⟨rfl, rfl⟩

theorem mapLines_sameEnables (s : Controller) (slice : Nat × Nat) (hf : ∀ i line, (f i line).enabled = line.enabled) :
    SameEnables s (s.mapLines slice f) := fun i => by
  unfold mapLines
  dsimp only
  split
  · exact hf _ _
  · rfl

theorem mapLines_alike (h : Current s) (slice : Nat × Nat) (hf : ∀ i line, IrqLine.Alike line (f i line)) :
    Current (s.mapLines slice f) := by
  refine h.of_alike fun i => ?_
  split
  · exact hf _ _
  · exact .refl _

variable {base i : Nat}

theorem isenable_enabled (s : Controller) (hslice : linesForBitvector base 4 1 = some slice) (hi : i < lineCount)
    (hlast : selected base value 1019 = false) :
    ((s.mapLines slice fun index line =>
        { line with enabled := line.enabled || bitAt value index }).lines i).enabled
      = ((DistributorRegister.isenable base).enable value i).getD (s.lines i).enabled := by
  obtain ⟨hfirst, hend⟩ := linesForBitvector_bits hslice
  unfold mapLines DistributorRegister.enable
  rw [hfirst, hend]
  dsimp only
  unfold lineCount at hi
  by_cases hsel : selected base value i = true
  · rw [if_pos hsel]
    have hne : i ≠ 1019 := fun h => by
      rw [h, hlast] at hsel
      cases hsel
    simp only [selected, Bool.and_eq_true, decide_eq_true_eq] at hsel
    obtain ⟨⟨hle, hlt⟩, hbit⟩ := hsel
    rw [if_pos ⟨hle, by omega⟩, hbit, Bool.or_true]
    rfl
  · rw [if_neg hsel]
    split
    · rename_i hin
      have hbit : bitAt value (i - 8 * base) = false := by
        by_contra hbit
        exact hsel (by simp [selected, hin.1, hbit]; omega)
      rw [hbit, Bool.or_false]
      rfl
    · rfl

theorem icenable_enabled (s : Controller) (hslice : linesForBitvector base 4 1 = some slice) (hi : i < lineCount)
    (hlast : (s.lines 1019).enabled = false)
    (hon : ∀ i < 1019, 8 * base ≤ i → i < 8 * base + 32 → (s.lines i).enabled = true) :
    ((s.mapLines slice fun index line =>
        { line with enabled := !(line.enabled && bitAt value index) }).lines i).enabled
      = ((DistributorRegister.icenable base).enable value i).getD (s.lines i).enabled := by
  obtain ⟨hfirst, hend⟩ := linesForBitvector_bits hslice
  unfold mapLines DistributorRegister.enable
  rw [hfirst, hend]
  dsimp only
  unfold lineCount at hi
  by_cases hin : 8 * base ≤ i ∧ i < min (8 * base + 32) 1019
  · rw [if_pos hin]
    rw [hon i (by omega) hin.1 (by omega), Bool.true_and]
    have hsel : selected base value i = bitAt value (i - 8 * base) := by
      simp [selected, hin.1]
      omega
    rw [hsel]
    cases bitAt value (i - 8 * base) <;> rfl
  · rw [if_neg hin]
    by_cases hsel : selected base value i = true
    · -- the last line is selected, and has never been enabled
      rw [if_pos hsel]
      simp only [selected, Bool.and_eq_true, decide_eq_true_eq] at hsel
      have hi' : i = 1019 := by omega
      rw [hi', hlast]
      rfl
    · rw [if_neg hsel]
      rfl

theorem setLine_self (s : Controller) (i : Nat) : s.setLine i (s.lines i) = s := by
  unfold setLine
  rw [Function.update_eq_self]

theorem clearPending_lines (s : Controller) (value start : Nat) {i j : Nat} (hj : j ≠ i) :
    (s.clearPending value start i).lines j = s.lines j := by
  unfold clearPending rescindLine
  dsimp only
  split
  · rw [update_keeps_lines, setLine_other _ hj, setLine_other _ hj]
  · rw [setLine_other _ hj]

/-- One line: if it is raised an `update` follows, and otherwise nothing changes. -/
theorem clearPending_sound {start i : Nat} (h : Current s)
    (hmeets : bitAt value (i - start) = true → (s.lines i).pending = true → (s.lines i).raised = true) :
    Sound s (fun _ => none) (s.clearPending value start i) := by
  unfold clearPending
  dsimp only
  by_cases hraised : (s.lines i).raised = true
  · unfold rescindLine
    rw [setLine_line, if_pos hraised]
    refine .of_same (current_update _) (SameEnables.update fun j => ?_)
    rw [SameEnables.setLine _ i _ (by rw [setLine_line]) j]
    refine SameEnables.setLine s i _ ?_ j
    rfl
  · have hsame : ((s.lines i).pending && !bitAt value (i - start)) = (s.lines i).pending := by
      revert hmeets
      cases (s.lines i).pending <;> cases bitAt value (i - start) <;> simp [hraised]
    rw [hsame, setLine_self]
    exact rescindLine_sound i h

theorem clearPending_loop {start : Nat} : ∀ {l : List Nat} {s : Controller}, Current s → l.Nodup →
    (∀ i ∈ l, bitAt value (i - start) = true → (s.lines i).pending = true → (s.lines i).raised = true) →
    Sound s (fun _ => none) (l.foldl (clearPending value start) s)
  | [], _, h, _, _ => .of_same h fun _ => rfl
  | i :: l, s, h, hnodup, hmeets => by
    obtain ⟨hnot, hnodup⟩ := nodup_cons.mp hnodup
    have hstep := clearPending_sound h (hmeets i mem_cons_self)
    have hmeets' : ∀ j ∈ l, bitAt value (j - start) = true → ((s.clearPending value start i).lines j).pending = true →
        ((s.clearPending value start i).lines j).raised = true := fun j hj => by
      have hne : j ≠ i := fun h => hnot (h ▸ hj)
      rw [clearPending_lines s value start hne]
      exact hmeets j (mem_cons_of_mem i hj)
    have hrest := clearPending_loop hstep.current hnodup hmeets'
    refine ⟨hrest.current, fun j hj => ?_⟩
    exact (hrest.enabled j hj).trans (hstep.enabled j hj)

theorem selected_of_mem (hle : 8 * base ≤ i) (hlt : i < 8 * base + 32) (hbit : bitAt value (i - 8 * base) = true) :
    selected base value i = true := by
  simp [selected, hle, hlt, hbit]

/-- **A write to a register of the distributor.** -/
theorem writeRegister_sound {r : DistributorRegister} (h : Current s) (hlast : (s.lines 1019).enabled = false)
    (hmeets : MeetsRegister s value r) (hwrite : s.writeRegister value r = some s') :
    Sound s (fun i => r.enable value i) s' := by
  cases r with
  | ctlr =>
    cases hwrite
    refine .of_same ?_ fun _ => rfl
    rcases hmeets with hquiet | hoff | hsame
    · exact h.of_idle (.inr hquiet) (Idle.distributorWrite (.inl hquiet)) rfl rfl
    · refine h.of_idle (.inl ?_) (Idle.distributorWrite (.inr hoff)) rfl rfl
      rw [hoff, Bool.false_and]
    · rw [← hsame]
      exact h
  | isenable base =>
    obtain ⟨slice, hslice, hs'⟩ := map_eq_some_iff.mp hwrite
    cases hs'
    exact ⟨mapLines_current h hmeets.1 slice fun _ _ => ⟨rfl, rfl⟩, fun i hi => isenable_enabled s hslice hi hmeets.2⟩
  | icenable base =>
    obtain ⟨slice, hslice, hs'⟩ := map_eq_some_iff.mp hwrite
    cases hs'
    exact ⟨mapLines_current h hmeets.1 slice fun _ _ => ⟨rfl, rfl⟩,
      fun i hi => icenable_enabled s hslice hi hlast hmeets.2⟩
  | icactive | itargets =>
    obtain ⟨slice, hslice, hs'⟩ := map_eq_some_iff.mp hwrite
    cases hs'
    exact .of_same (mapLines_alike h slice fun _ _ => ⟨rfl, rfl, rfl, rfl, rfl⟩)
      (mapLines_sameEnables s slice fun _ _ => rfl)
  | ipriority | icfg =>
    obtain ⟨slice, hslice, hs'⟩ := map_eq_some_iff.mp hwrite
    cases hs'
    exact .of_same (mapLines_current h hmeets slice fun _ _ => ⟨rfl, rfl⟩) (mapLines_sameEnables s slice fun _ _ => rfl)
  | sgir =>
    unfold writeRegister at hwrite
    dsimp only at hwrite
    split at hwrite
    · exact raise_sound h hwrite
    · cases hwrite
      exact .of_same h fun _ => rfl
  | cpendsgir base =>
    obtain ⟨slice, hslice, hs'⟩ := map_eq_some_iff.mp hwrite
    cases hs'
    obtain ⟨hfirst, hend⟩ := linesForBitvector_bits hslice
    refine clearPending_loop h nodup_range' fun i hi hbit => ?_
    rw [hfirst] at hbit
    rw [hfirst, hend, mem_range'_1] at hi
    exact hmeets i (by omega) (selected_of_mem hi.1 (by omega) hbit)

/-- **A step that meets the condition.** -/
theorem step_sound {op : Op} (h : Current s) (hlast : (s.lines 1019).enabled = false) (hmeets : Meets s op)
    (hstep : s.step op = some s') : Sound s (fun i => op.enable i) s' := by
  cases op with
  | readCpu offset len =>
    obtain ⟨⟨response, t⟩, hread, ht⟩ := bind_eq_some_iff.mp hstep
    dsimp only at ht
    split at ht
    · cases ht
      unfold readCpu at hread
      split at hread
      · cases hread
        exact .of_same h fun _ => rfl
      · split at hread
        · rw [← show s.acknowledge.2 = s' from congrArg Prod.snd (some.inj hread)]
          exact acknowledge_sound h
        · split at hread
          · cases hread
            exact .of_same h fun _ => rfl
          · cases hread
    · cases ht
  | writeCpu offset value =>
    obtain ⟨v, hv, hwrite⟩ := bind_eq_some_iff.mp hstep
    obtain ⟨hctlr, hpmr⟩ := hmeets v hv
    exact writeCpu_sound h hctlr hpmr hwrite
  | readDistributor offset len =>
    obtain ⟨response, -, ht⟩ := bind_eq_some_iff.mp hstep
    split at ht
    · cases ht
      exact .of_same h fun _ => rfl
    · cases ht
  | writeDistributor offset value =>
    obtain ⟨v, hv, hwrite⟩ := bind_eq_some_iff.mp hstep
    obtain ⟨r, hr, hwrite⟩ := bind_eq_some_iff.mp hwrite
    have hsound := writeRegister_sound h hlast (hmeets v r hv hr) hwrite
    refine ⟨hsound.current, fun i hi => ?_⟩
    unfold Op.enable
    dsimp only
    rw [hv, hr]
    exact hsound.enabled i hi
  | raise line => exact raise_sound h hstep
  | rescind line =>
    change s.rescind line = some s' at hstep
    unfold rescind at hstep
    split at hstep
    · cases hstep
      exact rescindLine_sound line h
    · cases hstep

/-! ### Every run -/

theorem Meets.last {op : Op} (h : Meets s op) : (op.enable 1019).getD false = false := by
  cases op with
  | writeDistributor offset value =>
    unfold Op.enable
    dsimp only
    cases hv : writtenValue value with
    | none => rfl
    | some v =>
      cases hr : DistributorRegister.at offset with
      | none => rfl
      | some r =>
        have hmeets := h v r hv hr
        dsimp only [bind_some]
        cases r with
        | isenable base =>
          unfold DistributorRegister.enable
          dsimp only
          rw [hmeets.2]
          rfl
        | icenable base =>
          unfold DistributorRegister.enable
          dsimp only
          split <;> rfl
        | _ => rfl
  | _ => rfl

theorem run_sound : ∀ {ops : List Op} {s s' : Controller}, Current s → (s.lines 1019).enabled = false →
    MeetsRun s ops → s.run ops = some s' →
    Current s' ∧ ∀ i < lineCount, (s'.lines i).enabled =
      ops.foldl (fun bit op => (op.enable i).getD bit) (s.lines i).enabled
  | [], s, s', h, _, _, hrun => by
    cases hrun
    exact ⟨h, fun _ _ => rfl⟩
  | op :: ops, s, s', h, hlast, hmeets, hrun => by
    obtain ⟨t, hstep, hrun⟩ := bind_eq_some_iff.mp hrun
    obtain ⟨hop, hmeets⟩ := hmeets
    have hsound := step_sound h hlast hop hstep
    have hlast' : (t.lines 1019).enabled = false := by
      rw [hsound.enabled 1019 (by decide), hlast]
      exact hop.last
    obtain ⟨hcurrent, henabled⟩ := run_sound hsound.current hlast' (hmeets t hstep) hrun
    refine ⟨hcurrent, fun i hi => ?_⟩
    rw [henabled i hi, foldl_cons, hsound.enabled i hi]

/-- **In every run whose steps meet the condition, the enable bit of each line is that of the last write
that selected it, and the flag says whether an interrupt is due.** -/
theorem run_flag_and_enables (ops : List Op) (s : Controller) (hmeets : MeetsRun .new ops)
    (hrun : new.run ops = some s) :
    (∀ line < lineCount, (s.lines line).enabled = enableAfter ops line) ∧ (s.interruptPending = 1 ↔ Due s) := by
  obtain ⟨hcurrent, henabled⟩ := run_sound (s := .new) rfl rfl hmeets hrun
  exact ⟨henabled, hcurrent.flag_iff⟩

/-- A line is enabled, and then raised. -/
theorem run_flag_and_enables_raise : ∃ s, MeetsRun .new [.writeCpu 4 [0xff], .writeDistributor 0 [1], .writeCpu 0 [1],
        .writeDistributor 0x104 [2, 0, 0, 0], .raise 33] ∧
      new.run [.writeCpu 4 [0xff], .writeDistributor 0 [1], .writeCpu 0 [1],
        .writeDistributor 0x104 [2, 0, 0, 0], .raise 33] = some s ∧
      (s.lines 33).enabled = true ∧ (s.interruptPending = 1 ↔ Due s) := by
  have hquiet : Quiet .new := fun _ _ => ⟨rfl, rfl⟩
  have hmeets : MeetsRun .new [.writeCpu 4 [0xff], .writeDistributor 0 [1], .writeCpu 0 [1],
      .writeDistributor 0x104 [2, 0, 0, 0], .raise 33] := by
    refine ⟨fun v _ => ⟨fun h => (by cases h), fun _ => .inr hquiet⟩, fun t ht => ?_⟩
    cases ht
    refine ⟨fun v r _ hr => ?_, fun t ht => ?_⟩
    · cases hr
      exact .inl hquiet
    cases ht
    refine ⟨fun v _ => ⟨fun _ => .inl hquiet, fun h => (by cases h)⟩, fun t ht => ?_⟩
    cases ht
    refine ⟨fun v r hv hr => ?_, fun t ht => ?_⟩
    · cases hv
      cases hr
      exact ⟨.inr hquiet, rfl⟩
    cases ht
    exact ⟨trivial, fun _ _ => trivial⟩
  obtain ⟨henabled, hflag⟩ := run_flag_and_enables _ _ hmeets rfl
  exact ⟨_, hmeets, rfl, henabled 33 (by decide), hflag⟩

/-- **Without the condition neither holds.**  A write to the clear-enable register enables a line that it
does not select; and when the CPU interface is enabled while an interrupt is waiting, the flag stays
down. -/
theorem not_flag_nor_enables : (¬ ∀ ops s, new.run ops = some s →
      ∀ line < lineCount, (s.lines line).enabled = enableAfter ops line) ∧
    ¬ ∀ ops s, new.run ops = some s → (s.interruptPending = 1 ↔ Due s) := by
  refine ⟨fun h => ?_, fun h => ?_⟩
  · have hline := h [.writeDistributor 0x180 [1, 0, 0, 0]] _ rfl 1 (by decide)
    exact absurd hline (by decide)
  · have hflag := h [.writeCpu 4 [0xff], .writeDistributor 0 [1], .writeDistributor 0x104 [2, 0, 0, 0],
      .raise 33, .writeCpu 0 [1]] _ rfl
    have hdue := hflag.mpr ⟨rfl, rfl, 33, by decide, rfl, by decide, by decide⟩
    exact absurd hdue (by decide)

end Icewind.Brig.Gic
