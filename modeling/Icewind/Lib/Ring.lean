import Mathlib.Data.Nat.ModEq

/-!
# Rings

A queue kept in a ring of `n` cells: the entry with number `p` of a log lies in the cell `p % n`,
and the entries from a position `lo` on are still needed.

* `mod_ne_of_lt` — two numbers less than `n` apart lie in different cells.
* `Holds` — the cells hold the log from `lo` on.
* `Holds.append` — writing further entries keeps it, while at most `n` entries are needed.
-/

namespace Icewind.Ring

variable {α : Type}

/-- The cell of the `j`-th entry after `p`, while the sum stays below the end of the ring. -/
theorem add_mod_of_lt {n p j : Nat} (h : p % n + j < n) : (p + j) % n = p % n + j := by
  rw [Nat.add_mod, Nat.mod_eq_of_lt (show j < n by omega), Nat.mod_eq_of_lt h]

/-- The cell of the `j`-th entry after `p`, once the sum has passed the end of the ring. -/
theorem add_mod_of_ge {n p j : Nat} (hj : j ≤ n) (hn : 0 < n) (h : n ≤ p % n + j) :
    (p + j) % n = p % n + j - n := by
  have hlt : p % n < n := Nat.mod_lt _ hn
  have hmod : (p + j) % n = (p % n + j) % n := (Nat.mod_add_mod p n j).symm
  rw [hmod, Nat.mod_eq_sub_mod h]
  by_cases hj' : p % n + j - n < n
  · exact Nat.mod_eq_of_lt hj'
  · omega

/-- **Numbers less than `n` apart lie in different cells.** -/
theorem mod_ne_of_lt {n p q : Nat} (hpq : p < q) (hq : q < p + n) : p % n ≠ q % n := by
  intro h
  have hdvd : n ∣ q - p := (Nat.modEq_iff_dvd' (Nat.le_of_lt hpq)).mp h
  have hle : n ≤ q - p := Nat.le_of_dvd (by omega) hdvd
  omega

/-- The cells hold the entries of the log from `lo` on. -/
def Holds (n : Nat) (cell : Nat → Option α) (log : List α) (lo : Nat) : Prop :=
  ∀ p, lo ≤ p → p < log.length → cell (p % n) = log[p]?

variable {n lo lo' : Nat} {cell cell' : Nat → Option α} {log xs : List α}

theorem Holds.nil : Holds n cell [] lo := fun _ _ h => absurd h (Nat.not_lt_zero _)

theorem Holds.advance (h : Holds n cell log lo) (hlo : lo ≤ lo') : Holds n cell log lo' :=
  fun p hp => h p (Nat.le_trans hlo hp)

/-- **New entries go to the cells that are not needed.** -/
theorem Holds.append (h : Holds n cell log lo) (hroom : log.length + xs.length ≤ lo + n)
    (hnew : ∀ j < xs.length, cell' ((log.length + j) % n) = xs[j]?)
    (hold : ∀ i, (∀ j < xs.length, i ≠ (log.length + j) % n) → cell' i = cell i) :
    Holds n cell' (log ++ xs) lo := by
  intro p hp hlen
  rw [List.length_append] at hlen
  by_cases hold' : p < log.length
  · have hapart : ∀ j < xs.length, p % n ≠ (log.length + j) % n :=
      fun j hj => mod_ne_of_lt (by omega) (by omega)
    rw [hold _ hapart, h p hp hold', List.getElem?_append_left hold']
  · have hj : p - log.length < xs.length := by omega
    have hcell := hnew _ hj
    rw [show log.length + (p - log.length) = p by omega] at hcell
    rw [hcell, List.getElem?_append_right (by omega)]

end Icewind.Ring
