import Mathlib.Algebra.Order.Ring.Int
import Mathlib.Data.Int.DivMod
import Mathlib.Algebra.Order.Group.Unbundled.Int
import Mathlib.Tactic.Positivity
import Mathlib.Tactic.Ring

/-!
# Signed integers of a number of bits

Two's complement on unbounded integers: `x.bmod (2 ^ n)` is the signed number that the low `n` bits
of `x` stand for.

* `bmod_two_pow_eq_self_iff` — a number is kept exactly if it fits.
* `emod_eq_bmod_two_pow_iff` — reading the low bits unsigned or signed is the same exactly if the top
  bit is clear.
* `bmod_mul_two_pow_ediv` — shifting left and then right keeps the bits that were not shifted out.
-/

namespace Icewind.SignedBits

variable (x : Int)

theorem bmod_two_pow (n : Nat) : x.bmod (2 ^ (n + 1)) =
      if x % 2 ^ (n + 1) < 2 ^ n then x % 2 ^ (n + 1) else x % 2 ^ (n + 1) - 2 ^ (n + 1) := by
  have hcast : ((2 ^ (n + 1) : Nat) : Int) = 2 ^ (n + 1) := by push_cast; rfl
  have hhalf : ((2 : Int) ^ (n + 1) + 1) / 2 = 2 ^ n := by
    omega
  rw [Int.bmod, hcast, hhalf]

theorem emod_two_pow_bounds (n : Nat) : 0 ≤ x % 2 ^ n ∧ x % 2 ^ n < 2 ^ n :=
  ⟨Int.emod_nonneg x (by positivity), Int.emod_lt_of_pos x (by positivity)⟩

theorem bmod_two_pow_bounds (n : Nat) : -2 ^ n ≤ x.bmod (2 ^ (n + 1)) ∧ x.bmod (2 ^ (n + 1)) < 2 ^ n := by
  obtain ⟨h0, h1⟩ := emod_two_pow_bounds x (n + 1)
  rw [bmod_two_pow]
  generalize x % 2 ^ (n + 1) = r at h0 h1
  split <;> omega

theorem bmod_two_pow_eq_self_iff (n : Nat) : x.bmod (2 ^ (n + 1)) = x ↔ -2 ^ n ≤ x ∧ x < 2 ^ n := by
  refine ⟨fun h => h ▸ bmod_two_pow_bounds x n, fun ⟨h0, h1⟩ => ?_⟩
  have hpow : (2 : Int) ^ (n + 1) = 2 * 2 ^ n := by ring
  rw [bmod_two_pow, hpow]
  generalize (2 : Int) ^ n = k at *
  by_cases hx : 0 ≤ x
  · rw [Int.emod_eq_of_lt hx (by omega), if_pos h1]
  · have hmod : x % (2 * k) = x + 2 * k := by
      rw [← Int.add_emod_right, Int.emod_eq_of_lt (by omega) (by omega)]
    omega

theorem emod_eq_bmod_two_pow_iff (n : Nat) :
    x % 2 ^ (n + 1) = x.bmod (2 ^ (n + 1)) ↔ x % 2 ^ (n + 1) < 2 ^ n := by
  rw [bmod_two_pow]
  split
  · rename_i h
    exact ⟨fun _ => h, fun _ => rfl⟩
  · rename_i h
    exact ⟨fun heq => by omega, fun h' => absurd h' h⟩

/-- A left shift within 64 bits, say, and the arithmetic right shift back. -/
theorem bmod_mul_two_pow_ediv (n s : Nat) :
    (x * 2 ^ s).bmod (2 ^ (n + 1 + s)) / 2 ^ s = x.bmod (2 ^ (n + 1)) := by
  have hs : (0 : Int) < 2 ^ s := by positivity
  have hmod : x * 2 ^ s % 2 ^ (n + 1 + s) = x % 2 ^ (n + 1) * 2 ^ s := by
    rw [pow_add _ (n + 1), mul_comm x, mul_comm (2 ^ (n + 1)), Int.mul_emod_mul_of_pos _ _ hs, mul_comm]
  rw [show n + 1 + s = (n + s) + 1 by omega] at hmod ⊢
  rw [bmod_two_pow, bmod_two_pow, hmod]
  have hlt : x % 2 ^ (n + 1) * 2 ^ s < 2 ^ (n + s) ↔ x % 2 ^ (n + 1) < 2 ^ n := by
    rw [pow_add _ n s]
    exact ⟨fun h => lt_of_mul_lt_mul_right h hs.le, fun h => mul_lt_mul_of_pos_right h hs⟩
  by_cases h : x % 2 ^ (n + 1) < 2 ^ n
  · rw [if_pos (hlt.mpr h), if_pos h, Int.mul_ediv_cancel _ hs.ne']
  · rw [if_neg (fun h' => h (hlt.mp h')), if_neg h]
    have : (2 : Int) ^ (n + s + 1) = 2 ^ (n + 1) * 2 ^ s := by
      rw [← pow_add]
      congr 1
      omega
    rw [this, ← Int.sub_mul, Int.mul_ediv_cancel _ hs.ne']

end Icewind.SignedBits
