import Icewind.Rudder.Interpret
import Mathlib.Data.List.Pairwise

/-!
# Accesses to the register file

`RegisterFile::read_raw` and `write_raw` in `brig/dbt/src/register_file.rs`, which `validate_range` guards.

* `StaysIn` — what an access touches lies in a register.
* `staysIn_iff` — so it does exactly if it ends within the register, or behind the bound that is looked up.
* `not_staysIn_interior` — from inside a register, the bound is that of the register after the next.
-/

namespace Icewind.Dbt

open List Rudder

/-- A register: its offset and its size in bytes. -/
abbrev RegisterRange := Nat × Nat

def RegisterRange.Contains (r : RegisterRange) (offset : Nat) : Prop := r.1 ≤ offset ∧ offset < r.1 + r.2

/-- Registers in the order of their offsets, which is that of `register_offsets`. -/
structure RegisterRanges where
  registers : List RegisterRange
  increasing : registers.Pairwise fun r s => r.1 < s.1
  apart : registers.Pairwise fun r s => r.1 + r.2 ≤ s.1

variable {μ : Type} {env : Environment μ}

/-- What is read depends on the register only, and nothing else is written. -/
structure StaysIn (env : Environment μ) (r : RegisterRange) (offset size : Nat) : Prop where
  read : ∀ st st' : State μ, (∀ a, r.Contains a → st.registers a = st'.registers a) →
    readRaw env st offset size = readRaw env st' offset size
  write : ∀ effect value st st', writeRaw env effect offset size value st = some st' →
    ∀ a, ¬ r.Contains a → st'.registers a = st.registers a

/-- The start that `validate_range` finds in `register_offsets`: that of the next register if the offset is the first
byte of `r`, and from inside `r` that of the register after the next. -/
def RegisterRanges.bound (layout : RegisterRanges) (r : RegisterRange) (offset : Nat) : Option Nat :=
  (layout.registers.filter (r.1 < ·.1))[if offset = r.1 then 0 else 1]?.map Prod.fst

/-- The access ends behind that start or behind the register file. -/
def Refused (env : Environment μ) (layout : RegisterRanges) (r : RegisterRange) (offset size : Nat) : Prop :=
  env.registerFileSize < offset + size ∨ ∃ bound, layout.bound r offset = some bound ∧ bound < offset + size

theorem readBytes_congr {registers registers' : Nat → Nat} {size : Nat} : ∀ {offset : Nat},
    (∀ a, offset ≤ a → a < offset + size → registers a = registers' a) →
    readBytes registers offset size = readBytes registers' offset size := by
  induction size with
  | zero => exact fun _ => rfl
  | succ size ih =>
    intro offset h
    rw [readBytes, readBytes, h offset (by omega) (by omega), ih fun a ha hlt => h a (by omega) (by omega)]

theorem staysIn_of_validateRange {r : RegisterRange} {offset size : Nat} (hle : r.1 ≤ offset)
    (h : validateRange env offset size = true → offset + size ≤ r.1 + r.2) : StaysIn env r offset size := by
  constructor
  · intro st st' hsame
    unfold readRaw
    split
    · rename_i hvalid
      have hend := h hvalid
      rw [readBytes_congr fun a ha hlt => hsame a ⟨by omega, by omega⟩]
    · rfl
  · intro effect value st st' hwrite a ha
    unfold writeRaw at hwrite
    split at hwrite
    · rename_i hvalid
      have hend := h hvalid
      cases hwrite
      exact if_neg fun hin => ha ⟨by omega, by omega⟩
    · cases hwrite

/-- The registers behind `r`. -/
theorem RegisterRanges.filter_behind {layout : RegisterRanges} {r : RegisterRange} {before behind : List RegisterRange}
    (hsplit : layout.registers = before ++ r :: behind) : layout.registers.filter (r.1 < ·.1) = behind := by
  have hincreasing := layout.increasing
  rw [hsplit] at hincreasing ⊢
  obtain ⟨-, hbehind, hbefore⟩ := pairwise_append.mp hincreasing
  rw [filter_append, filter_cons_of_neg (by simp), filter_eq_nil_iff.mpr, filter_eq_self.mpr, nil_append]
  · exact fun s hs => decide_eq_true ((pairwise_cons.mp hbehind).1 s hs)
  · intro b hb
    have := hbefore b hb r mem_cons_self
    simp
    omega

/-- The offsets that the binary search passes over: also that of `r` itself, if it is looked for from inside. -/
theorem RegisterRanges.takeWhile_offsets {layout : RegisterRanges} {r : RegisterRange}
    {before behind : List RegisterRange} (hsplit : layout.registers = before ++ r :: behind) {offset : Nat}
    (hoffset : r.Contains offset) : (layout.registers.map Prod.fst).takeWhile (· < offset) =
      (before ++ if offset = r.1 then [] else [r]).map Prod.fst := by
  obtain ⟨hle, hlt⟩ := hoffset
  have hincreasing := layout.increasing
  have hapart := layout.apart
  rw [hsplit] at hincreasing hapart ⊢
  obtain ⟨-, -, hbefore⟩ := pairwise_append.mp hincreasing
  obtain ⟨-, hbehind, -⟩ := pairwise_append.mp hapart
  rw [map_append, map_append, takeWhile_append_of_pos]
  · congr 1
    rw [map_cons]
    by_cases hfirst : offset = r.1
    · rw [if_pos hfirst, takeWhile_cons_of_neg (by simp; omega), map_nil]
    · rw [if_neg hfirst, takeWhile_cons_of_pos (by simp; omega), map_cons, map_nil]
      congr 1
      cases behind with
      | nil => rfl
      | cons s behind =>
        have := (pairwise_cons.mp hbehind).1 s mem_cons_self
        rw [map_cons, takeWhile_cons_of_neg (by simp; omega)]
  · intro start hstart
    obtain ⟨b, hb, rfl⟩ := mem_map.mp hstart
    have := hbefore b hb r mem_cons_self
    exact decide_eq_true (by omega)

/-- **What `validate_range` lets through**: what ends before the next register, or from inside a register
before the one after the next. -/
theorem validateRange_iff {layout : RegisterRanges} (henv : env.registerOffsets = layout.registers.map Prod.fst)
    {r : RegisterRange} (hr : r ∈ layout.registers) {offset : Nat} (hoffset : r.Contains offset) (size : Nat) :
    validateRange env offset size = true ↔ ¬ Refused env layout r offset size := by
  obtain ⟨before, behind, hsplit⟩ := append_of_mem hr
  have hget : env.registerOffsets[(env.registerOffsets.takeWhile (· < offset)).length + 1]? = layout.bound r offset := by
    rw [henv, layout.takeWhile_offsets hsplit hoffset, RegisterRanges.bound, layout.filter_behind hsplit, hsplit,
      length_map, length_append, getElem?_map, getElem?_append_right (by omega)]
    split <;> simp [Nat.add_assoc]
  unfold validateRange Refused
  rw [hget]
  cases layout.bound r offset <;> simp

/-- **An access at an offset inside a register stays in it exactly if it ends within the register or is
refused.** -/
theorem staysIn_iff [Nonempty μ] (layout : RegisterRanges)
    (henv : env.registerOffsets = layout.registers.map Prod.fst) {r : RegisterRange} (hr : r ∈ layout.registers)
    {offset : Nat} (hoffset : r.Contains offset) (size : Nat) :
    StaysIn env r offset size ↔ offset + size ≤ r.1 + r.2 ∨ Refused env layout r offset size := by
  have hvalid := validateRange_iff henv hr hoffset size
  obtain ⟨hle, hlt⟩ := hoffset
  constructor
  · intro h
    by_contra hnot
    obtain ⟨hend, hrefused⟩ := not_or.mp hnot
    -- the write of a one to the first byte behind the register
    obtain ⟨memory⟩ := ‹Nonempty μ›
    have hkept := h.write (.writePc 0) (256 ^ (r.1 + r.2 - offset)) ⟨fun _ => 0, memory, []⟩ _
      (if_pos (hvalid.mpr hrefused)) (r.1 + r.2) fun hin => absurd hin.2 (Nat.lt_irrefl _)
    dsimp only at hkept
    rw [if_pos ⟨by omega, by omega⟩, Nat.div_self (Nat.pow_pos (by decide))] at hkept
    exact absurd hkept (by decide)
  · intro h
    refine staysIn_of_validateRange hle fun hlet => ?_
    exact h.resolve_right (hvalid.mp hlet)

/-- Three registers of 8 bytes. -/
def threeRegisters : RegisterRanges := ⟨[(0, 8), (8, 8), (16, 8)], by decide, by decide⟩

def threeEnvironment : Environment Unit :=
  { plainEnvironment with registerFileSize := 24 + 2 ^ 21, registerOffsets := [0, 8, 16] }

/-- Four bytes from the middle of the first register, and all of the last one. -/
theorem staysIn_iff_three : StaysIn threeEnvironment (0, 8) 4 4 ∧ StaysIn threeEnvironment (16, 8) 16 8 ∧
    (readRaw threeEnvironment ⟨fun _ => 0, (), []⟩ 4 4).isSome ∧
    (readRaw threeEnvironment ⟨fun _ => 0, (), []⟩ 16 8).isSome :=
  ⟨(staysIn_iff threeRegisters rfl (by decide) ⟨by decide, by decide⟩ 4).mpr (.inl (by decide)),
    (staysIn_iff threeRegisters rfl (by decide) ⟨by decide, by decide⟩ 8).mpr (.inl (by decide)), rfl, rfl⟩

/-- Eight bytes from the middle of the first register, and sixteen from the start of the last one. -/
theorem not_staysIn_interior : ¬ StaysIn threeEnvironment (0, 8) 4 8 ∧ ¬ StaysIn threeEnvironment (16, 8) 16 16 := by
  constructor
  · intro h
    have hkept := h.write (.writeRegister 4 8 (256 ^ 4)) (256 ^ 4) ⟨fun _ => 0, (), []⟩ _ rfl 8
    exact absurd (hkept fun h => absurd h.2 (by decide)) (by decide)
  · intro h
    have hkept := h.write (.writeRegister 16 16 (256 ^ 8)) (256 ^ 8) ⟨fun _ => 0, (), []⟩ _ rfl 24
    exact absurd (hkept fun h => absurd h.2 (by decide)) (by decide)

end Icewind.Dbt
