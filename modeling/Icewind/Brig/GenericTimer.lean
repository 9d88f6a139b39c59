import Mathlib.Algebra.Group.Nat.Defs

/-!
# The generic timer

Model of `GenericTimer` in `brig/brig/src/guest/devices/arm/generic_timer.rs`, with the interrupt line it raises and
rescinds.  Numbers are 64 bits wide and wrap around, or an overflow panics in a build with overflow checks.

* `GenericTimer.read`, `write`, `tick`.
* `Right` — the line after a tick and the count that the guest reads are as they should be.
* `run_right_iff` — a run is right if and only if every tick and every read of it meets a condition: the comparison is
  one of signed numbers, the count that is read leaves out the offset, and a build with checks must not overflow.
-/

namespace Icewind.Brig.Timer

open Option

/-- The system registers of the timer. -/
inductive Register where
  | cntkctlEl1 | cntfrqEl0 | cntpctEl0 | cntvctEl0 | cntvctssEl0 | cntpTvalEl0 | cntpCtlEl0 | cntpCvalEl0 | cntvoffEl2
  | cntpsTvalEl1 | cntpsCtlEl1 | cntpsCvalEl1 | cntvTvalEl0 | cntvCtlEl0 | cntvCvalEl0

/-- The timer; `lineRaised` is its line at the interrupt controller. -/
structure GenericTimer where
  enabled : Bool
  counter : BitVec 64
  frequency : BitVec 64
  virtualOffset : BitVec 64
  timerConditionMet : Bool
  timerInterruptMasked : Bool
  timerEnabled : Bool
  compareValue : BitVec 64
  cntkctlEl1 : BitVec 64
  lineRaised : Bool

namespace GenericTimer

def new : GenericTimer := ⟨false, 0, 10_000_000, 0, false, false, false, 0, 0, false⟩

def start (t : GenericTimer) : GenericTimer := { t with enabled := true }

section Ticks

/-- The result of an operation; an overflow panics in a build with overflow checks. -/
def checked (overflowChecks overflow : Bool) (result : BitVec 64) : Option (BitVec 64) :=
  bif overflow && overflowChecks then none else some result

variable (overflowChecks : Bool) (t : GenericTimer)

def virtualCount : Option (BitVec 64) :=
  checked overflowChecks (t.counter.usubOverflow t.virtualOffset) (t.counter - t.virtualOffset)

/-- `interrupt_status`: the difference of the numbers as signed ones is not negative. -/
def interruptStatus : Option Bool :=
  bif t.timerEnabled then do
    let count ← t.virtualCount overflowChecks
    let difference ← checked overflowChecks (count.ssubOverflow t.compareValue) (count - t.compareValue)
    return decide (0 ≤ difference.toInt)
  else some false

/-- The counter is an atomic, whose `fetch_add` wraps around in every build. -/
def fetchAdd (counts : BitVec 64) : GenericTimer := { t with counter := t.counter + counts }

def tick (time : BitVec 64) : Option GenericTimer :=
  bif t.enabled then do
    let product ← checked overflowChecks (time.umulOverflow t.frequency) (time * t.frequency)
    let t := t.fetchAdd (product / 1_000_000_000)
    let interruptStatus ← t.interruptStatus overflowChecks
    return { t with timerConditionMet := interruptStatus, lineRaised := interruptStatus && !t.timerInterruptMasked }
  else some t

end Ticks

/-- What the guest reads; `none` is a `todo!`. -/
def read (t : GenericTimer) : Register → Option (BitVec 64)
  | .cntkctlEl1 => some t.cntkctlEl1
  | .cntfrqEl0 => some t.frequency
  | .cntvctEl0 | .cntvctssEl0 => some t.counter
  | .cntvCtlEl0 =>
    some (.ofNat 64 (t.timerConditionMet.toNat <<< 2 ||| t.timerInterruptMasked.toNat <<< 1 ||| t.timerEnabled.toNat))
  | _ => none

def write (t : GenericTimer) (value : BitVec 64) : Register → Option GenericTimer
  | .cntkctlEl1 => some { t with cntkctlEl1 := value }
  | .cntfrqEl0 => some t
  | .cntvoffEl2 => some { t with virtualOffset := value }
  | .cntvCtlEl0 => some { t with timerEnabled := value.getLsbD 0, timerInterruptMasked := value.getLsbD 1 }
  | .cntvCvalEl0 => some { t with compareValue := value }
  | _ => none

end GenericTimer

/-- What happens to the virtual timer. -/
inductive Op where
  | writeControl (value : BitVec 64)
  | writeCompare (value : BitVec 64)
  | writeOffset (value : BitVec 64)
  | readCount
  | tick (time : BitVec 64)

/-- The next state, and what the guest reads; `none` is a panic. -/
def step (overflowChecks : Bool) (t : GenericTimer) : Op → Option (GenericTimer × Option (BitVec 64))
  | .writeControl value => (t.write value .cntvCtlEl0).map (·, none)
  | .writeCompare value => (t.write value .cntvCvalEl0).map (·, none)
  | .writeOffset value => (t.write value .cntvoffEl2).map (·, none)
  | .readCount => (t.read .cntvctEl0).map (t, ·)
  | .tick time => (t.tick overflowChecks time).map (·, none)

/-- The virtual count, modulo 2^64. -/
def GenericTimer.count (t : GenericTimer) : BitVec 64 := t.counter - t.virtualOffset

/-- **The line is raised after a tick if and only if the timer is enabled, not masked and has reached the compare value,
and the count that is read is the virtual one.** -/
def Right (op : Op) (t : GenericTimer) (value : Option (BitVec 64)) : Prop :=
  match op with
  | .tick _ =>
    t.lineRaised = true ↔ t.timerEnabled = true ∧ t.timerInterruptMasked = false ∧ t.compareValue ≤ t.count
  | .readCount => value = some t.count
  | _ => True

/-- A run goes through and every operation in it is right. -/
def RunRight (overflowChecks : Bool) : GenericTimer → List Op → Prop
  | _, [] => True
  | t, op :: ops =>
    ∃ t' value, step overflowChecks t op = some (t', value) ∧ Right op t' value ∧ RunRight overflowChecks t' ops

/-- The numbers are no more than half of the range apart. -/
def Near (count compare : BitVec 64) : Prop :=
  count.toNat < compare.toNat + 2 ^ 63 ∧ compare.toNat ≤ count.toNat + 2 ^ 63

/-- The timer when the count has gone on. -/
def GenericTimer.advance (t : GenericTimer) (time : BitVec 64) : GenericTimer :=
  t.fetchAdd (time * t.frequency / 1_000_000_000)

/-- Nothing in a tick overflows; the count is only looked at when the timer is enabled. -/
def InRange (t : GenericTimer) (time : BitVec 64) : Prop :=
  time.umulOverflow t.frequency = false ∧ (t.timerEnabled = true →
    (t.advance time).counter.usubOverflow t.virtualOffset = false ∧
      (t.advance time).count.ssubOverflow t.compareValue = false)

/-- The condition for an operation to be right. -/
def Meets (overflowChecks : Bool) (t : GenericTimer) : Op → Prop
  | .tick time => (overflowChecks = true → InRange t time) ∧
      (t.timerEnabled = true → t.timerInterruptMasked = false → Near (t.advance time).count t.compareValue)
  | .readCount => t.virtualOffset = 0
  | _ => True

def RunMeets (overflowChecks : Bool) : GenericTimer → List Op → Prop
  | _, [] => True
  | t, op :: ops => Meets overflowChecks t op ∧
      ∀ t' value, step overflowChecks t op = some (t', value) → RunMeets overflowChecks t' ops

theorem compare_iff (count compare : BitVec 64) :
    (0 ≤ (count - compare).toInt ↔ compare ≤ count) ↔ Near count compare := by
  unfold Near
  rw [BitVec.toInt_eq_toNat_cond, BitVec.toNat_sub, BitVec.le_def]
  split <;> omega

open GenericTimer

variable {overflowChecks : Bool} {t t' : GenericTimer}

theorem checked_eq_some_iff {overflow : Bool} {result r : BitVec 64} :
    checked overflowChecks overflow result = some r ↔
      (overflowChecks = true → overflow = false) ∧ result = r := by
  cases overflow <;> cases overflowChecks <;> simp [checked]

/-- What `interrupt_status` is when nothing overflows. -/
def GenericTimer.reached (t : GenericTimer) : Bool := t.timerEnabled && decide (0 ≤ (t.count - t.compareValue).toInt)

theorem interruptStatus_eq_some_iff {status : Bool} : t.interruptStatus overflowChecks = some status ↔
    (overflowChecks = true → t.timerEnabled = true →
      t.counter.usubOverflow t.virtualOffset = false ∧ t.count.ssubOverflow t.compareValue = false) ∧
      t.reached = status := by
  cases henabled : t.timerEnabled with
  | false => simp [interruptStatus, reached, henabled]
  | true =>
    simp only [interruptStatus, reached, henabled, cond_true, virtualCount,
      bind_eq_bind, bind_eq_some_iff, checked_eq_some_iff, pure_def, some_inj, Bool.true_and]
    constructor
    · rintro ⟨_, ⟨hcount, rfl⟩, _, ⟨hdifference, rfl⟩, h⟩
      exact ⟨fun hchecks _ => ⟨hcount hchecks, hdifference hchecks⟩, h⟩
    · rintro ⟨hrange, h⟩
      exact ⟨_, ⟨fun hchecks => (hrange hchecks trivial).1, rfl⟩, _, ⟨fun hchecks => (hrange hchecks trivial).2, rfl⟩, h⟩

/-- **What a tick does**, and that it panics exactly on an overflow in a build with checks. -/
theorem tick_eq_some_iff (ht : t.enabled = true) {time : BitVec 64} : t.tick overflowChecks time = some t' ↔
    (overflowChecks = true → InRange t time) ∧
      { t.advance time with
        timerConditionMet := (t.advance time).reached
        lineRaised := (t.advance time).reached && !t.timerInterruptMasked } = t' := by
  simp only [tick, ht, cond_true, bind_eq_bind, bind_eq_some_iff, checked_eq_some_iff,
    interruptStatus_eq_some_iff, pure_def, some_inj, InRange]
  constructor
  · rintro ⟨_, ⟨hproduct, rfl⟩, _, ⟨hcount, rfl⟩, h⟩
    exact ⟨fun hchecks => ⟨hproduct hchecks, hcount hchecks⟩, h⟩
  · rintro ⟨hrange, h⟩
    exact ⟨_, ⟨fun hchecks => (hrange hchecks).1, rfl⟩, _, ⟨fun hchecks => (hrange hchecks).2, rfl⟩, h⟩

theorem step_enabled (ht : t.enabled = true) {op : Op} {value : Option (BitVec 64)}
    (h : step overflowChecks t op = some (t', value)) : t'.enabled = true := by
  cases op with
  | writeControl | writeCompare | writeOffset | readCount =>
    cases h
    exact ht
  | tick time =>
    obtain ⟨t₁, htick, h⟩ := map_eq_some_iff.mp h
    cases h
    rw [← ((tick_eq_some_iff ht).mp htick).2]
    exact ht

theorem step_right_iff (ht : t.enabled = true) (op : Op) :
    (∃ t' value, step overflowChecks t op = some (t', value) ∧ Right op t' value) ↔ Meets overflowChecks t op := by
  cases op with
  | writeControl | writeCompare | writeOffset => exact ⟨fun _ => trivial, fun _ => ⟨_, _, rfl, trivial⟩⟩
  | readCount =>
    have hread : Right .readCount t (some t.counter) ↔ t.virtualOffset = 0 := by
      simp only [Right, count, some_inj]
      bv_omega
    refine ⟨?_, fun h => ⟨_, _, rfl, hread.mpr h⟩⟩
    rintro ⟨_, _, h, hright⟩
    cases h
    exact hread.mp hright
  | tick time =>
    -- the comparison only matters while the timer is enabled and not masked
    have hline : (((t.advance time).reached && !t.timerInterruptMasked) = true ↔
          t.timerEnabled = true ∧ t.timerInterruptMasked = false ∧ t.compareValue ≤ (t.advance time).count) ↔
        (t.timerEnabled = true → t.timerInterruptMasked = false → Near (t.advance time).count t.compareValue) := by
      rw [← compare_iff]
      cases henabled : t.timerEnabled <;> cases hmasked : t.timerInterruptMasked <;>
        simp [reached, advance, fetchAdd, henabled]
    constructor
    · rintro ⟨_, _, h, hright⟩
      obtain ⟨t₁, htick, h⟩ := map_eq_some_iff.mp h
      cases h
      obtain ⟨hrange, rfl⟩ := (tick_eq_some_iff ht).mp htick
      exact ⟨hrange, hline.mp hright⟩
    · rintro ⟨hrange, hnear⟩
      exact ⟨_, _, map_eq_some_iff.mpr ⟨_, (tick_eq_some_iff ht).mpr ⟨hrange, rfl⟩, rfl⟩, hline.mpr hnear⟩

/-- **Every run of a timer that has been started is right exactly if all of it meets the condition.** -/
theorem run_right_iff : ∀ {t : GenericTimer} {ops : List Op}, t.enabled = true →
      (RunRight overflowChecks t ops ↔ RunMeets overflowChecks t ops)
  | _, [], _ => Iff.rfl
  | t, op :: ops, ht => by
    constructor
    · rintro ⟨t₁, value₁, hstep₁, hop, hrest⟩
      refine ⟨(step_right_iff ht op).mp ⟨t₁, value₁, hstep₁, hop⟩, fun t₂ value₂ hstep₂ => ?_⟩
      cases hstep₁.symm.trans hstep₂
      exact (run_right_iff (step_enabled ht hstep₁)).mp hrest
    · rintro ⟨hop, hrest⟩
      obtain ⟨t₁, value₁, hstep, hright⟩ := (step_right_iff ht op).mpr hop
      exact ⟨t₁, value₁, hstep, hright, (run_right_iff (step_enabled ht hstep)).mpr (hrest t₁ value₁ hstep)⟩

/-- A count of 10 is taken to have passed the greatest compare value, and a guest with an offset of 4 does not see it. -/
theorem run_not_right :
    (∀ overflowChecks, ¬ RunRight overflowChecks new.start [.writeControl 1, .writeCompare (-1), .tick 1000]) ∧
      ∀ overflowChecks, ¬ RunRight overflowChecks new.start [.writeOffset 4, .tick 1000, .readCount] := by
  constructor
  · rintro _ ⟨t1, _, h1, -, t2, _, h2, -, t3, _, h3, hright, -⟩
    cases h1
    cases h2
    cases h3
    exact absurd (hright.mp rfl).2.2 (by decide)
  · rintro _ ⟨t1, _, h1, -, t2, _, h2, -, t3, _, h3, hright, -⟩
    cases h1
    cases h2
    cases h3
    exact absurd (some.inj hright) (by decide)

theorem run_right_reached :
    RunRight true new.start [.writeControl 1, .writeCompare 5, .tick 1000, .readCount, .tick 1000] := by
  refine (run_right_iff rfl).mpr ⟨trivial, fun _ _ h => ?_⟩
  cases h
  refine ⟨trivial, fun _ _ h => ?_⟩
  cases h
  refine ⟨⟨fun _ => ⟨rfl, fun _ => ⟨rfl, rfl⟩⟩, fun _ _ => ⟨by decide, by decide⟩⟩, fun _ _ h => ?_⟩
  cases h
  refine ⟨rfl, fun _ _ h => ?_⟩
  cases h
  exact ⟨⟨fun _ => ⟨rfl, fun _ => ⟨rfl, rfl⟩⟩, fun _ _ => ⟨by decide, by decide⟩⟩, fun _ _ _ => trivial⟩

end Icewind.Brig.Timer
