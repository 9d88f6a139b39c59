import Mathlib.Data.Nat.Bitwise

/-!
# Bit fields of natural numbers

* `extract` — the field of a number at a place, as a number.
* `insert` — a number with a field of it replaced.
* `copies` — copies of a field side by side.
* `testBit_extract`, `testBit_insert` — both bit by bit; the other facts about the two follow.
-/

namespace Icewind.BitField

/-- Bits `start` to `start + length` of `x`. -/
def extract (x start length : Nat) : Nat := x / 2 ^ start % 2 ^ length

/-- `x` with its bits `start` to `start + length` replaced by the lowest bits of `y`. -/
def insert (x y start length : Nat) : Nat :=
  2 ^ start * (2 ^ length * (x / 2 ^ (start + length)) + y % 2 ^ length) + x % 2 ^ start

variable {x y z start length : Nat}

theorem testBit_extract (x start length i : Nat) :
    (extract x start length).testBit i = (decide (i < length) && x.testBit (start + i)) := by
  unfold extract
  rw [Nat.testBit_mod_two_pow, Nat.testBit_div_two_pow, Nat.add_comm i start]

theorem testBit_insert (x y start length i : Nat) : (insert x y start length).testBit i =
      if start ≤ i ∧ i < start + length then y.testBit (i - start) else x.testBit i := by
  have hlow : x % 2 ^ start < 2 ^ start := Nat.mod_lt _ (Nat.two_pow_pos start)
  have hmiddle : y % 2 ^ length < 2 ^ length := Nat.mod_lt _ (Nat.two_pow_pos length)
  unfold insert
  rw [Nat.testBit_two_pow_mul_add _ hlow, Nat.testBit_two_pow_mul_add _ hmiddle]
  by_cases hbelow : i < start
  · rw [if_pos hbelow, if_neg (by omega), Nat.testBit_mod_two_pow]
    simp [hbelow]
  · rw [if_neg hbelow]
    by_cases hinside : i - start < length
    · rw [if_pos hinside, if_pos (by omega), Nat.testBit_mod_two_pow]
      simp [hinside]
    · rw [if_neg hinside, if_neg (by omega), Nat.testBit_div_two_pow]
      congr 1
      omega

theorem extract_zero (x length : Nat) : extract x 0 length = x % 2 ^ length := by
  unfold extract
  rw [Nat.pow_zero, Nat.div_one]

theorem extract_lt (x start length : Nat) : extract x start length < 2 ^ length :=
  Nat.mod_lt _ (Nat.two_pow_pos length)

variable {width : Nat}

/-- What lies above all fields stays apart. -/
theorem insert_mod (h : start + length ≤ width) :
    insert x y start length % 2 ^ width = insert (x % 2 ^ width) y start length := by
  apply Nat.eq_of_testBit_eq
  intro i
  rw [Nat.testBit_mod_two_pow, testBit_insert, testBit_insert, Nat.testBit_mod_two_pow]
  by_cases hinside : start ≤ i ∧ i < start + length
  · rw [if_pos hinside, if_pos hinside]
    simp [show i < width by omega]
  · rw [if_neg hinside, if_neg hinside]

theorem insert_lt (hx : x < 2 ^ width) (h : start + length ≤ width) : insert x y start length < 2 ^ width := by
  rw [← Nat.mod_eq_of_lt hx, ← insert_mod h]
  exact Nat.mod_lt _ (Nat.two_pow_pos width)

/-- Only the lowest bits of the replacement are used. -/
theorem insert_mod_right : insert x (y % 2 ^ length) start length = insert x y start length := by
  unfold insert
  rw [Nat.mod_mod]

theorem extract_mod (h : start + length ≤ width) :
    extract (x % 2 ^ width) start length = extract x start length := by
  apply Nat.eq_of_testBit_eq
  intro i
  rw [testBit_extract, testBit_extract, Nat.testBit_mod_two_pow]
  by_cases hi : i < length
  · simp [hi, show start + i < width by omega]
  · simp [hi]

variable {start' length' : Nat}

theorem extract_insert_disjoint (h : start' + length' ≤ start ∨ start + length ≤ start') :
    extract (insert x y start length) start' length' = extract x start' length' := by
  apply Nat.eq_of_testBit_eq
  intro i
  rw [testBit_extract, testBit_extract, testBit_insert]
  by_cases hi : i < length'
  · rw [if_neg (by omega)]
  · simp [hi]

theorem extract_insert_inside (hstart : start ≤ start') (hstop : start' + length' ≤ start + length) :
    extract (insert x y start length) start' length' = extract y (start' - start) length' := by
  apply Nat.eq_of_testBit_eq
  intro i
  rw [testBit_extract, testBit_extract, testBit_insert]
  by_cases hi : i < length'
  · rw [if_pos (by omega)]
    congr 2
    omega
  · simp [hi]

theorem insert_extract : insert x (extract x start length) start length = x := by
  apply Nat.eq_of_testBit_eq
  intro i
  rw [testBit_insert, testBit_extract]
  split
  · rename_i hi
    rw [decide_eq_true (show i - start < length by omega), Bool.true_and, Nat.add_sub_cancel' hi.1]
  · rfl

/-- A field across the start of what was inserted is put together from both sides. -/
theorem extract_insert_across (hstart : start' < start) (hcross : start ≤ start' + length')
    (hstop : start' + length' ≤ start + length) :
    extract (insert x y start length) start' length' =
      insert (extract x start' (start - start')) (extract y 0 (length' - (start - start')))
        (start - start') (length' - (start - start')) := by
  apply Nat.eq_of_testBit_eq
  intro i
  rw [testBit_extract, testBit_insert, testBit_insert]
  by_cases hi : i < length'
  · by_cases hlow : start' + i < start
    · rw [if_neg (by omega), if_neg (by omega), testBit_extract]
      simp [hi, show i < start - start' by omega]
    · rw [if_pos (by omega), if_pos (by omega), testBit_extract]
      simp only [hi, decide_true, Bool.true_and, Nat.zero_add,
        show i - (start - start') < length' - (start - start') by omega]
      congr 1
      omega
  · rw [if_neg (c := start - start' ≤ i ∧ _) (by omega), testBit_extract]
    simp [hi, show ¬ i < start - start' by omega]

/-- So many copies of a number of `length` bits, side by side. -/
def copies (x length : Nat) : Nat → Nat
  | 0 => 0
  | n + 1 => 2 ^ length * copies x length n + x

theorem copies_one (x length : Nat) : copies x length 1 = x := by
  rw [copies, copies, Nat.mul_zero, Nat.zero_add]

theorem copies_lt (hx : x < 2 ^ length) (n : Nat) : copies x length n < 2 ^ (length * n) := by
  induction n with
  | zero => exact Nat.one_pos
  | succ n ih =>
    have hle : 2 ^ length * (copies x length n + 1) ≤ 2 ^ length * 2 ^ (length * n) := Nat.mul_le_mul_left _ ih
    rw [Nat.mul_add_one] at hle
    rw [copies, Nat.mul_add_one, Nat.add_comm (length * n), Nat.pow_add]
    omega

theorem shiftLeft_or_copies (hx : x < 2 ^ length) (n : Nat) :
    copies x length n <<< length ||| x = copies x length (n + 1) := by
  rw [copies, Nat.shiftLeft_eq, Nat.mul_comm, Nat.two_pow_add_eq_or_of_lt hx]

end Icewind.BitField
