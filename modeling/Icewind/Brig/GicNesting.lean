import Icewind.Brig.GicPending

/-!
# Nested interrupts

The active interrupts are a stack that is threaded through the lines: the running line, and from each line the one that
was running when it was acknowledged.

* `perform` — acknowledgements, the matching ends, and the lines of devices, with the interrupts that are active.
* `Restored` — the innermost active interrupt is the running one, with its priority.
* `Nested` — the running line and the links of the lines spell out the active interrupts.
* `run_restored` — this holds through every run in which nothing is acknowledged without a pending line while an
  interrupt is active: such a read forgets the running line.
-/

namespace Icewind.Brig.Gic

open List

inductive Event where
  | acknowledge
  | endOfInterrupt
  | raise (line : Nat)
  | rescind (line : Nat)

/-- An event, with the active interrupts, the last acknowledged first.  The end is that of the first. -/
def perform (s : Controller) (active : List Nat) : Event → Option (Controller × List Nat)
  | .acknowledge => some (s.acknowledge.2, if s.acknowledge.1 = 1023 then active else s.acknowledge.1 :: active)
  | .endOfInterrupt => active.head?.bind fun i => (s.eoi i).map (·, active.tail)
  | .raise line => (s.raise line).map (·, active)
  | .rescind line => (s.rescind line).map (·, active)

/-- **The innermost active interrupt runs with the priority it had at the start, and the priority is the idle one exactly
if none is active.** -/
structure Restored (start s : Controller) (active : List Nat) : Prop where
  running : s.cpuIrqLineRunning = active.head?
  priority : ∀ i ∈ active.head?, s.runningPriority = (start.lines i).priority
  idle : s.runningPriority = 0x100 ↔ active = []

/-- A run goes through, and every state in it is as it should be. -/
def RunRestored (start : Controller) : Controller → List Nat → List Event → Prop
  | s, active, [] => Restored start s active
  | s, active, event :: events => Restored start s active ∧
    ∃ s' active', perform s active event = some (s', active') ∧ RunRestored start s' active' events

/-- An end matches an acknowledgement, lines are there, and without a pending line nothing is acknowledged while an
interrupt is active. -/
def MeetsNesting (s : Controller) (active : List Nat) : Event → Prop
  | .acknowledge => s.cpuIrqLinePending = none → active = []
  | .endOfInterrupt => active ≠ []
  | .raise line | .rescind line => line < lineCount

def RunMeetsNesting : Controller → List Nat → List Event → Prop
  | _, _, [] => True
  | s, active, event :: events => MeetsNesting s active event ∧
    ∀ s' active', perform s active event = some (s', active') → RunMeetsNesting s' active' events

/-- Each active interrupt is linked to the next one. -/
def Linked (lines : Nat → IrqLine) : List Nat → Prop
  | [] => True
  | i :: rest => (lines i).lastActive = rest.head? ∧ Linked lines rest

structure Nested (start s : Controller) (active : List Nat) : Prop where
  running : s.cpuIrqLineRunning = active.head?
  linked : Linked s.lines active
  ordered : active.Pairwise fun i j => (start.lines i).priority < (start.lines j).priority
  bound : ∀ i ∈ active, i < lineCount
  same : ∀ i, (s.lines i).priority = (start.lines i).priority

variable {start s : Controller} {active : List Nat}

theorem Linked.congr {lines lines' : Nat → IrqLine} : ∀ {l : List Nat}, Linked lines l →
    (∀ i ∈ l, (lines' i).lastActive = (lines i).lastActive) → Linked lines' l
  | [], _, _ => trivial
  | i :: _, h, hsame =>
    ⟨(hsame i mem_cons_self).trans h.1, h.2.congr fun j hj => hsame j (mem_cons_of_mem _ hj)⟩

theorem Nested.restored (h : Nested start s active) (hpriority : ∀ i, (start.lines i).priority < 2 ^ 8) :
    Restored start s active := by
  have hrunning := h.running
  cases active with
  | nil => exact ⟨hrunning, nofun, by simp [Controller.runningPriority, hrunning]⟩
  | cons i rest =>
    have heq : s.runningPriority = (start.lines i).priority := by
      rw [Controller.runningPriority, hrunning]
      exact h.same i
    refine ⟨hrunning, fun j hj => ?_, iff_of_false ?_ nofun⟩
    · cases hj
      exact heq
    · rw [heq]
      exact Nat.ne_of_lt (hpriority i)

theorem Nested.update (h : Nested start s active) : Nested start s.update active := by
  obtain ⟨p, f, heq⟩ := update_eq s
  rw [heq]
  exact ⟨h.running, h.linked, h.ordered, h.bound, h.same⟩

/-- Only what devices change in a line. -/
theorem Nested.setLine (h : Nested start s active) (i : Nat) {line : IrqLine}
    (hlast : line.lastActive = (s.lines i).lastActive) (hpriority : line.priority = (s.lines i).priority) :
    Nested start (s.setLine i line) active := by
  have hlines : ∀ j, ((s.setLine i line).lines j).lastActive = (s.lines j).lastActive ∧
      ((s.setLine i line).lines j).priority = (s.lines j).priority := by
    intro j
    by_cases hj : j = i
    · subst hj
      rw [setLine_line]
      exact ⟨hlast, hpriority⟩
    · rw [setLine_other s hj]
      exact ⟨rfl, rfl⟩
  exact ⟨h.running, h.linked.congr fun j _ => (hlines j).1, h.ordered, h.bound, fun j => (hlines j).2.trans (h.same j)⟩

theorem update_pending_lt (s : Controller) : ∀ p ∈ s.update.cpuIrqLinePending, p < lineCount := by
  intro p hp
  have hbest := bestIrq_spec s
  unfold Controller.update at hp
  split at hp
  · cases hp
  · split at hp
    · cases hp
    · rename_i hb
      split at hp
      · cases hp
        exact mem_range.mp (hbest.mem _ hb).1
      · cases hp

/-- A line of a lower priority value than the running one becomes the innermost. -/
theorem Nested.acknowledge (h : Nested start s active) {p : Nat} (hp : p < lineCount)
    (hlt : (s.lines p).priority < s.runningPriority) :
    Nested start { s.setLine p { s.lines p with lastActive := s.cpuIrqLineRunning, pending := false } with
      cpuIrqLineRunning := some p } (p :: active) := by
  -- the innermost interrupt has the least priority value of the active ones
  have hbelow : ∀ i ∈ active, (start.lines p).priority < (start.lines i).priority := by
    have hrunning := h.running
    have hordered := h.ordered
    cases active with
    | nil => exact nofun
    | cons r rest =>
      have heq : s.runningPriority = (start.lines r).priority := by
        rw [Controller.runningPriority, hrunning]
        exact h.same r
      rw [h.same, heq] at hlt
      exact forall_mem_cons.mpr ⟨hlt, fun i hi => Nat.lt_trans hlt (rel_of_pairwise_cons hordered hi)⟩
  have hnew : ∀ i ∈ active, i ≠ p := fun i hi heq => Nat.lt_irrefl _ (heq ▸ hbelow i hi)
  refine ⟨rfl, ⟨?_, h.linked.congr fun i hi => ?_⟩, pairwise_cons.mpr ⟨hbelow, h.ordered⟩,
    forall_mem_cons.mpr ⟨hp, h.bound⟩, fun i => ?_⟩
  · exact (congrArg IrqLine.lastActive (setLine_line s p _)).trans h.running
  · exact congrArg IrqLine.lastActive (setLine_other s (hnew i hi) _)
  · rw [← h.same i]
    by_cases hi : i = p
    · subst hi
      exact (congrArg IrqLine.priority (setLine_line s i _)).trans rfl
    · exact congrArg IrqLine.priority (setLine_other s hi _)

/-- **One event keeps the stack.** -/
theorem Nested.perform (h : Nested start s active) (hpending : ∀ p ∈ s.cpuIrqLinePending, p < lineCount) {event : Event}
    (hmeets : MeetsNesting s active event) :
    ∃ s' active', perform s active event = some (s', active') ∧ Nested start s' active' ∧
      ∀ p ∈ s'.cpuIrqLinePending, p < lineCount := by
  cases event with
  | acknowledge =>
    unfold Gic.perform Controller.acknowledge
    cases hp : s.cpuIrqLinePending with
    | none =>
      refine ⟨_, _, rfl, ?_, nofun⟩
      rw [hmeets hp] at h ⊢
      exact ⟨rfl, trivial, .nil, nofun, h.same⟩
    | some p =>
      dsimp only
      split
      · refine ⟨_, _, rfl, h, ?_⟩
        rw [hp] at hpending
        rwa [hp]
      · rename_i hlt
        have hline := hpending p hp
        have hne : p ≠ 1023 := Nat.ne_of_lt (Nat.lt_trans hline (by decide))
        dsimp only
        rw [if_neg hne]
        have hnested := (h.acknowledge hline (Nat.lt_of_not_le hlt)).update
        exact ⟨_, _, rfl, hnested, update_pending_lt _⟩
  | endOfInterrupt =>
    cases active with
    | nil => exact absurd rfl hmeets
    | cons i rest =>
      refine ⟨Controller.update { s with cpuIrqLineRunning := (s.lines i).lastActive }, rest, ?_, ?_, update_pending_lt _⟩
      · simp [Gic.perform, Controller.eoi, Nat.not_le.mpr (h.bound i mem_cons_self), h.running]
      · exact Nested.update ⟨h.linked.1, h.linked.2, h.ordered.of_cons, fun j hj => h.bound j (mem_cons_of_mem _ hj), h.same⟩
  | raise line =>
    refine ⟨s.raiseLine line, active, by simp [Gic.perform, Controller.raise, show line < lineCount from hmeets], ?_⟩
    unfold Controller.raiseLine
    split
    · exact ⟨h, hpending⟩
    · refine ⟨Nested.update ?_, update_pending_lt _⟩
      exact h.setLine line rfl rfl
  | rescind line =>
    refine ⟨s.rescindLine line, active, by simp [Gic.perform, Controller.rescind, show line < lineCount from hmeets], ?_⟩
    unfold Controller.rescindLine
    split
    · refine ⟨Nested.update ?_, update_pending_lt _⟩
      exact h.setLine line rfl rfl
    · exact ⟨h, hpending⟩

theorem Nested.run (hpriority : ∀ i, (start.lines i).priority < 2 ^ 8) : ∀ {events : List Event} {s : Controller}
    {active : List Nat}, Nested start s active → (∀ p ∈ s.cpuIrqLinePending, p < lineCount) →
    RunMeetsNesting s active events → RunRestored start s active events
  | [], _, _, h, _, _ => h.restored hpriority
  | event :: events, s, active, h, hpending, hmeets => by
    obtain ⟨s', active', hstep, h', hpending'⟩ := h.perform hpending hmeets.1
    exact ⟨h.restored hpriority, s', active', hstep, h'.run hpriority hpending' (hmeets.2 s' active' hstep)⟩

/-- **Nested interrupts are restored in every run** from a state in which none is active and the pending line is one of
the lines; priorities are bytes. -/
theorem run_restored (s : Controller) (events : List Event) (hidle : s.cpuIrqLineRunning = none)
    (hpending : ∀ p ∈ s.cpuIrqLinePending, p < lineCount) (hpriority : ∀ i, (s.lines i).priority < 2 ^ 8)
    (hmeets : RunMeetsNesting s [] events) : RunRestored s s [] events :=
  Nested.run hpriority ⟨hidle, trivial, .nil, nofun, fun _ => rfl⟩ hpending hmeets

/-- Both enables and all lines are on, and lines with greater numbers have lower priority values. -/
def ready : Controller :=
  { Controller.new with
    lines := fun i => { Controller.new.lines i with enabled := true, priority := 0xf0 - i }
    distributorEnabled := true
    cpuEnabled := true
    cpuPmr := 0xff }

set_option maxRecDepth 8000 in
/-- A second acknowledgement, with nothing pending, forgets the interrupt that is running. -/
theorem acknowledge_forgets : ¬ RunRestored ready ready [] [.raise 3, .acknowledge, .acknowledge] := by
  rintro ⟨-, s1, active1, h1, -, s2, active2, h2, -, s3, active3, h3, hrestored⟩
  cases h1
  cases h2
  cases h3
  exact absurd hrestored.running (by decide +kernel)

set_option maxRecDepth 8000 in
theorem run_restored_twice :
    RunRestored ready ready [] [.raise 3, .acknowledge, .raise 5, .acknowledge, .endOfInterrupt] := by
  refine run_restored ready _ rfl nofun (fun i => ?_) ⟨show 3 < lineCount by decide, fun _ _ h => ?_⟩
  · exact Nat.lt_of_le_of_lt (Nat.sub_le _ _) (by decide)
  cases h
  refine ⟨fun h => absurd h (by decide +kernel), fun _ _ h => ?_⟩
  cases h
  refine ⟨show 5 < lineCount by decide, fun _ _ h => ?_⟩
  cases h
  refine ⟨fun h => absurd h (by decide +kernel), fun _ _ h => ?_⟩
  cases h
  exact ⟨ne_of_apply_ne length (by decide +kernel), fun _ _ _ => trivial⟩

end Icewind.Brig.Gic
