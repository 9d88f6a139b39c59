import Icewind.Lib.BitField
import Mathlib.Tactic.Ring

/-!
# Little-endian memory

Memory of bytes with 64-bit addresses, read as numbers with the lowest byte first.

* `read_add` — a read of adjacent pieces.
* `extract_read` — whole bytes inside of what is read are read from inside.
-/

namespace Icewind.Bytes

open BitField

/-- So many bytes from an address on. -/
def read (memory : Nat → UInt8) (address : Nat) : Nat → Nat
  | 0 => 0
  | n + 1 => (memory (address % 2 ^ 64)).toNat + 2 ^ 8 * read memory (address + 1) n

variable (memory : Nat → UInt8)

theorem read_lt (address n : Nat) : read memory address n < 2 ^ (8 * n) := by
  induction n generalizing address with
  | zero => exact Nat.one_pos
  | succ n ih =>
    have hbyte := (memory (address % 2 ^ 64)).toNat_lt
    have hrest := ih (address + 1)
    rw [read, Nat.mul_add, Nat.pow_add]
    omega

variable {memory : Nat → UInt8}

theorem read_congr {a b : Nat} (n : Nat) (h : a % 2 ^ 64 = b % 2 ^ 64) :
    read memory a n = read memory b n := by
  induction n generalizing a b with
  | zero => rfl
  | succ n ih => rw [read, read, h, ih (a := a + 1) (b := b + 1) (by omega)]

theorem read_add (address k n : Nat) :
    read memory address (k + n) = read memory address k + 2 ^ (8 * k) * read memory (address + k) n := by
  induction k generalizing address with
  | zero => simp [read]
  | succ k ih =>
    rw [Nat.succ_add, read, read, ih, Nat.add_right_comm address 1 k, Nat.mul_add 8 k 1, Nat.pow_add,
      Nat.add_assoc address k 1]
    ring

theorem extract_read {address k j n : Nat} (h : k + j ≤ n) :
    extract (read memory address n) (8 * k) (8 * j) = read memory (address + k) j := by
  obtain ⟨r, rfl⟩ := Nat.exists_eq_add_of_le h
  unfold extract
  rw [Nat.add_assoc k j r, read_add, read_add, Nat.add_mul_div_left _ _ (Nat.two_pow_pos _),
    Nat.div_eq_of_lt (read_lt _ _ _), Nat.zero_add, Nat.add_mul_mod_self_left,
    Nat.mod_eq_of_lt (read_lt _ _ _)]

end Icewind.Bytes
