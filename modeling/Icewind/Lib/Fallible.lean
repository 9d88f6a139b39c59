import Mathlib.Data.Option.Basic

/-!
# Fallible computations

* `bind₂_eq_some` — two steps that both succeed.
-/

namespace Icewind

theorem bind₂_eq_some {α β γ : Type} {x : Option α} {f : α → Option β} {g : α → β → Option γ} {c : γ}
    (h : (x.bind fun a => (f a).bind (g a)) = some c) : ∃ a b, x = some a ∧ f a = some b ∧ g a b = some c := by
  obtain ⟨a, ha, h⟩ := Option.bind_eq_some_iff.mp h
  obtain ⟨b, hb, h⟩ := Option.bind_eq_some_iff.mp h
  exact ⟨a, b, ha, hb, h⟩

end Icewind
