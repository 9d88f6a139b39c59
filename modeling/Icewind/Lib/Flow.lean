import Mathlib.Logic.Function.Basic

/-!
# Events on a graph of blocks

* `Graph` — blocks with lists of events.
* `Trace` — the events along a path.
-/

namespace Icewind.Flow

variable {B E : Type}

structure Graph (B E : Type) where
  events : B → List E
  targets : B → List B

/-- The events along a path, which may end after any block. -/
inductive Trace (G : Graph B E) : B → List E → Prop where
  | last (b : B) : Trace G b (G.events b)
  | next {b t : B} {l : List E} : t ∈ G.targets b → Trace G t l → Trace G b (G.events b ++ l)

/-- The event stands in some block. -/
def Graph.Has (G : Graph B E) (e : E) : Prop := ∃ b, e ∈ G.events b

theorem Trace.has {G : Graph B E} {b : B} {l : List E} (h : Trace G b l) {e : E} (he : e ∈ l) : G.Has e := by
  induction h with
  | last b => exact ⟨b, he⟩
  | @next b t l _ _ ih =>
    rcases List.mem_append.mp he with he | he
    · exact ⟨b, he⟩
    · exact ih he

end Icewind.Flow
