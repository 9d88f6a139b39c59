import Mathlib.Logic.Relation

/-!
# Machines with observable events

A machine moves between configurations, either silently or performing one event, and may stop in
a configuration with a result.  It is the common shape of a program run by a program counter, a
walk over a control-flow graph, and a list of instructions with labels.

* `Machine.Run` — a finite run, with the events it performs in order.
* `Machine.Ends` — a run that stops, with its events and its result.
* `Machine.Simulates` — every move of one machine is answered by a run of the other with the same
  event.  `Simulates.run` and `Simulates.ends` carry this from one move to whole runs.
* `Bisimilar.performs_iff` / `Bisimilar.ends_iff` — two machines that simulate each other have the
  same event sequences and stop with the same results.
* `EndSimulates` — a simulation of those moves only after which a run can still end well.
-/

namespace Icewind

/-- Configurations `σ`, events `ε`, results `ω`.  `step c none c'` is a silent move. -/
structure Machine (σ ε ω : Type) where
  step : σ → Option ε → σ → Prop
  final : σ → ω → Prop

namespace Machine

variable {σ τ ε ω : Type} {A : Machine σ ε ω} {B : Machine τ ε ω}

/-- A finite run and the events it performs. -/
inductive Run (A : Machine σ ε ω) : σ → List ε → σ → Prop where
  | refl (s : σ) : Run A s [] s
  | head {s s' s'' : σ} {l : Option ε} {t : List ε} :
      A.step s l s' → Run A s' t s'' → Run A s (l.toList ++ t) s''

/-- The events `t` can be performed from `s`. -/
def Performs (A : Machine σ ε ω) (s : σ) (t : List ε) : Prop := ∃ s', A.Run s t s'

/-- A run from `s` with events `t` that stops with the result `w`. -/
def Ends (A : Machine σ ε ω) (s : σ) (t : List ε) (w : ω) : Prop := ∃ s', A.Run s t s' ∧ A.final s' w

variable {s s' : σ}

theorem Run.step {l : Option ε} (h : A.step s l s') : A.Run s l.toList s' := by
  simpa using Run.head h (Run.refl s')

theorem Run.silent (h : A.step s none s') : A.Run s [] s' := Run.step h

theorem Run.emit {e : ε} (h : A.step s (some e) s') : A.Run s [e] s' := Run.step h

variable {t : List ε} {s s' s'' : σ}

theorem Run.trans {t' : List ε} (h : A.Run s t s') (h' : A.Run s' t' s'') : A.Run s (t ++ t') s'' := by
  induction h with
  | refl => exact h'
  | head hs _ ih => rw [List.append_assoc]; exact Run.head hs (ih h')

theorem Run.trans_nil (h : A.Run s [] s') (h' : A.Run s' t s'') : A.Run s t s'' := h.trans h'

theorem Run.append_nil (h : A.Run s t s') (h' : A.Run s' [] s'') : A.Run s t s'' := by
  simpa using h.trans h'

/-- Every move of `A` is answered by a run of `B` with the same event, and where `A` stops `B`
stops silently with the same result. -/
structure Simulates (A : Machine σ ε ω) (B : Machine τ ε ω) (R : σ → τ → Prop) : Prop where
  step : ∀ {a a' b l}, R a b → A.step a l a' → ∃ b', B.Run b l.toList b' ∧ R a' b'
  final : ∀ {a b w}, R a b → A.final a w → ∃ b', B.Run b [] b' ∧ B.final b' w

variable {R : σ → τ → Prop} {a : σ}

/-- **A simulation carries over to whole runs.** -/
theorem Simulates.run (hS : Simulates A B R) {a' : σ} (h : A.Run a t a') :
    ∀ {b}, R a b → ∃ b', B.Run b t b' ∧ R a' b' := by
  induction h with
  | refl => exact fun hR => ⟨_, Run.refl _, hR⟩
  | head hs _ ih =>
    intro b hR
    obtain ⟨b1, hb1, hR1⟩ := hS.step hR hs
    obtain ⟨b2, hb2, hR2⟩ := ih hR1
    exact ⟨b2, hb1.trans hb2, hR2⟩

variable {b : τ}

theorem Simulates.performs (hS : Simulates A B R) (hR : R a b) (h : A.Performs a t) : B.Performs b t := by
  obtain ⟨a', ha⟩ := h
  obtain ⟨b', hb, _⟩ := hS.run ha hR
  exact ⟨b', hb⟩

theorem Simulates.ends (hS : Simulates A B R) {w : ω} (hR : R a b) (h : A.Ends a t w) : B.Ends b t w := by
  obtain ⟨a', ha, hw⟩ := h
  obtain ⟨b', hb, hR'⟩ := hS.run ha hR
  obtain ⟨b'', hb', hw'⟩ := hS.final hR' hw
  exact ⟨b'', hb.append_nil hb', hw'⟩

/-- The relation is a simulation in both directions. -/
structure Bisimilar (A : Machine σ ε ω) (B : Machine τ ε ω) (R : σ → τ → Prop) : Prop where
  fwd : Simulates A B R
  bwd : Simulates B A (fun b a => R a b)

theorem Bisimilar.performs_iff (hB : Bisimilar A B R) (hR : R a b) (t : List ε) :
    A.Performs a t ↔ B.Performs b t :=
  ⟨hB.fwd.performs hR, hB.bwd.performs hR⟩

theorem Bisimilar.ends_iff (hB : Bisimilar A B R) (hR : R a b) (t : List ε) (w : ω) :
    A.Ends a t w ↔ B.Ends b t w :=
  ⟨hB.fwd.ends hR, hB.bwd.ends hR⟩

/-! ## Simulation of the runs that end well -/

/-- Some run from `s` stops with a result in `W`. -/
def Reaches (A : Machine σ ε ω) (W : ω → Prop) (s : σ) : Prop := ∃ t w, W w ∧ A.Ends s t w

/-- A simulation of the moves after which `A` can still stop with a result in `W`. -/
structure EndSimulates (A : Machine σ ε ω) (B : Machine τ ε ω) (W : ω → Prop) (R : σ → τ → Prop) :
    Prop where
  step : ∀ {a a' b l}, R a b → A.step a l a' → A.Reaches W a' → ∃ b', B.Run b l.toList b' ∧ R a' b'
  final : ∀ {a b w}, R a b → W w → A.final a w → ∃ b', B.Run b [] b' ∧ B.final b' w

/-- **Every run that stops in `W` is matched.** -/
theorem EndSimulates.ends {W : ω → Prop} (hS : EndSimulates A B W R) {w : ω} (hR : R a b) (hw : W w)
    (h : A.Ends a t w) : B.Ends b t w := by
  obtain ⟨a', hr, hf⟩ := h
  induction hr generalizing b with
  | refl =>
    obtain ⟨b', hb, hf'⟩ := hS.final hR hw hf
    exact ⟨b', hb, hf'⟩
  | head hs hr ih =>
    obtain ⟨b1, hb1, hR1⟩ := hS.step hR hs ⟨_, w, hw, _, hr, hf⟩
    obtain ⟨b2, hb2, hf2⟩ := ih hR1 hf
    exact ⟨b2, hb1.trans hb2, hf2⟩

end Machine

end Icewind
