import Icewind.Lib.BitField
import Icewind.Rudder.Interpret
import Mathlib.Tactic.Positivity

/-!
# Masks and bit fields of words

The functions of `common/src/bits.rs` as operations on bit fields.

* `and_mask` — a mask takes the lowest bits, up to 64 of them.
* `bitInsert_eq` — `bit_insert` inside a word replaces a field.
* `bitExtract_eq` — `bit_extract` takes a field out.
* `bitInsert_laws` — how the two fit together.
-/

namespace Icewind.Rudder

open BitField

theorem mask_eq (w : Nat) : mask w = 2 ^ min w 64 - 1 := by
  unfold mask
  split
  · rw [Nat.min_eq_left (by omega)]
  · rw [Nat.min_eq_right (by omega)]

variable (v w : Nat)

theorem and_mask : v &&& mask w = v % 2 ^ min w 64 := by
  rw [mask_eq, Nat.and_two_pow_sub_one_eq_mod]

theorem and_mask_lt : v &&& mask w < 2 ^ 64 := by
  rw [and_mask]
  exact lt_of_lt_of_le (Nat.mod_lt _ (by positivity))
    (Nat.pow_le_pow_right (by decide) (Nat.min_le_right w 64))

theorem and_mask_eq_self_iff : v &&& mask w = v ↔ v ≤ mask w := by
  rw [and_mask]
  have hmask := mask_eq w
  have hpos : 0 < 2 ^ min w 64 := by positivity
  rw [hmask, Nat.mod_eq_iff_lt (by omega)]
  omega

theorem and_mask_of_le {value width : Nat} (h : value ≤ mask width) : value &&& mask width = value :=
  (and_mask_eq_self_iff value width).mpr h

theorem and_mask_eq_extract (v : Nat) {l : Nat} (h : l ≤ 64) : v &&& mask l = extract v 0 l := by
  rw [and_mask, Nat.min_eq_left h, extract_zero]

theorem testBit_mask (width i : Nat) : (mask width).testBit i = decide (i < width ∧ i < 64) := by
  rw [mask_eq, Nat.testBit_two_pow_sub_one]
  exact decide_eq_decide.mpr Nat.lt_min

variable {target source start width : Nat}

theorem bitInsert_eq_min (target source : Nat) (hwidth : tryU32 width = some width) (hstart : start < 64)
    (hfits : start + min width 64 ≤ 64) :
    bitInsert target source start width = some (insert (target % 2 ^ 64) source start (min width 64)) := by
  have hhole : (mask width <<< start) % 2 ^ 64 < 2 ^ 64 := Nat.mod_lt _ (Nat.two_pow_pos 64)
  unfold bitInsert
  rw [if_neg (by omega), hwidth, Option.bind_eq_bind, Option.bind_some]
  refine congrArg some ?_
  apply Nat.eq_of_testBit_eq
  intro i
  rw [Nat.testBit_or, Nat.testBit_and,
    show 2 ^ 64 - 1 - (mask width <<< start) % 2 ^ 64 = 2 ^ 64 - ((mask width <<< start) % 2 ^ 64 + 1) by omega,
    Nat.testBit_two_pow_sub_succ hhole, testBit_insert]
  simp only [Nat.testBit_mod_two_pow, Nat.testBit_shiftLeft, Nat.testBit_and, testBit_mask]
  by_cases hi : i < 64
  · by_cases hinside : start ≤ i ∧ i < start + min width 64
    · simp [hi, hinside, show i - start < width by omega, show i - start < 64 by omega]
    · -- outside of the field the hole has no bit
      rw [if_neg hinside]
      by_cases hsi : start ≤ i
      · simp [hi, hsi, show ¬ i - start < width by omega]
      · simp [hi, hsi]
  · rw [if_neg (by omega)]
    simp [hi]

theorem bitInsert_eq (target source : Nat) (hstart : start < 64) (hfits : start + width ≤ 64) :
    bitInsert target source start width = some (insert (target % 2 ^ 64) source start width) := by
  rw [bitInsert_eq_min target source (if_pos (by omega)) hstart (by omega), Nat.min_eq_left (by omega)]

variable {μ : Type} (env : Environment μ)

theorem bitExtract_eq (value length : Nat) {start : Nat} (hstart : start < 64) :
    env.bitExtract value start length = (tryU32 length).map fun length => extract value start (min length 64) := by
  have hshift : env.shiftAmount start = some start := if_pos hstart
  unfold Environment.bitExtract
  rw [hshift]
  cases tryU32 length with
  | none => rfl
  | some length =>
    show some ((value >>> start) &&& mask length) = some _
    rw [and_mask, Nat.shiftRight_eq_div_pow]
    rfl

theorem bitExtract_bitInsert {inserted : Nat} (hstart : start < 64) (hfits : start + width ≤ 64)
    (h : bitInsert target source start width = some inserted) :
    env.bitExtract inserted start width = some (source % 2 ^ width) := by
  have hwidth : tryU32 width = some width := if_pos (by omega)
  rw [bitInsert_eq target source hstart hfits] at h
  cases h
  rw [bitExtract_eq env _ width hstart, hwidth, Option.map_some, Nat.min_eq_left (by omega),
    extract_insert_inside (Nat.le_refl _) (Nat.le_refl _), Nat.sub_self, extract_zero]

/-- **The laws of `bit_insert` and `bit_extract`**: what is inserted comes out again, all other fields stay, and a field
that is put back changes nothing. -/
theorem bitInsert_laws {target : Nat} (source : Nat) {start length : Nat} (htarget : target < 2 ^ 64)
    (hstart : start < 64) (hfits : start + length ≤ 64) :
    ∃ inserted, bitInsert target source start length = some inserted ∧
      env.bitExtract inserted start length = some (source % 2 ^ length) ∧
      (∀ start' length', start' < 64 → start' + length' ≤ start ∨ start + length ≤ start' →
        env.bitExtract inserted start' length' = env.bitExtract target start' length') ∧
      ∃ field, env.bitExtract target start length = some field ∧ bitInsert target field start length = some target := by
  have hlength : tryU32 length = some length := if_pos (by omega)
  have hinsert := bitInsert_eq target source hstart hfits
  refine ⟨_, hinsert, bitExtract_bitInsert env hstart hfits hinsert, fun start' length' hstart' hdisjoint => ?_,
    extract target start length, ?_, ?_⟩
  · rw [bitExtract_eq env _ _ hstart', bitExtract_eq env _ _ hstart', Nat.mod_eq_of_lt htarget]
    unfold tryU32
    split
    · rw [Option.map_some, Option.map_some, extract_insert_disjoint (by omega)]
    · rfl
  · rw [bitExtract_eq env target length hstart, hlength, Option.map_some, Nat.min_eq_left (by omega)]
  · rw [bitInsert_eq target _ hstart hfits, Nat.mod_eq_of_lt htarget, insert_extract]

theorem bitInsert_laws_byte :
    ∃ inserted, bitInsert 255 5 2 4 = some inserted ∧ plainEnvironment.bitExtract inserted 2 4 = some 5 := by
  obtain ⟨inserted, hinsert, hextract, -⟩ :=
    bitInsert_laws plainEnvironment 5 (show 255 < 2 ^ 64 by decide) (show 2 < 64 by decide) (show 2 + 4 ≤ 64 by decide)
  exact ⟨inserted, hinsert, hextract⟩

end Icewind.Rudder
