import Mathlib.Data.List.Basic
import Mathlib.Algebra.Group.Nat.Defs

/-!
# The bump allocator

Model of `brig/dbt/src/bump_alloc.rs`.

* `BumpAllocator.allocate`, `BumpAllocator.clear` — what the allocator does; `bumpRun` does both in any order.
* `bumpRun_apart` — the blocks handed out since the last clear lie in the arena, aligned and apart.
-/

namespace Icewind.Dbt

open List Option

/-- A `Layout`: the size rounded up to the alignment fits an `isize`. -/
structure Layout where
  size : Nat
  align : Nat
  exists_align : ∃ k, align = 2 ^ k
  size_add_align : size + align ≤ 2 ^ 63

/-- The arena is a boxed slice, and those are shorter than `2 ^ 63` bytes. -/
structure BumpAllocator where
  len : Fin (2 ^ 63)
  position : Nat

/-- A block, by its offset from the base of the arena. -/
structure Allocation where
  offset : Nat
  layout : Layout

def Allocation.Apart (b c : Allocation) : Prop :=
  b.offset + b.layout.size ≤ c.offset ∨ c.offset + c.layout.size ≤ b.offset

namespace BumpAllocator

def new (len : Fin (2 ^ 63)) : BumpAllocator := ⟨len, 0⟩

def clear (a : BumpAllocator) : BumpAllocator := { a with position := 0 }

/-- `none` is the panic of the slice, and no block is the `AllocError`. -/
def allocate (a : BumpAllocator) (layout : Layout) : Option (BumpAllocator × Option Allocation) :=
  let aligned := (a.position + (layout.align - a.position % layout.align)) % 2 ^ 64
  let nextPosition := (aligned + layout.size) % 2 ^ 64
  if a.len.val ≤ nextPosition then some (a, none)
  else if aligned ≤ nextPosition then some ({ a with position := nextPosition }, some ⟨aligned, layout⟩)
  else none

variable {a : BumpAllocator}

/-- Nothing wraps, so a block starts at or above the position and ends at the new one. -/
theorem allocate_spec (ha : a.position ≤ a.len) (layout : Layout) :
    a.allocate layout = some (a, none) ∨
      ∃ b : Allocation, a.allocate layout = some (⟨a.len, b.offset + b.layout.size⟩, some b) ∧
        a.position ≤ b.offset ∧ b.offset + b.layout.size ≤ a.len ∧ b.layout.align ∣ b.offset := by
  obtain ⟨k, hk⟩ := layout.exists_align
  have hpos : 0 < layout.align := hk ▸ Nat.two_pow_pos k
  have hmod := Nat.mod_lt a.position hpos
  have hlayout := layout.size_add_align
  have hdvd : layout.align ∣ a.position + (layout.align - a.position % layout.align) := by
    refine ⟨a.position / layout.align + 1, ?_⟩
    have hdiv := Nat.div_add_mod a.position layout.align
    rw [Nat.mul_add]
    omega
  unfold allocate
  dsimp only
  rw [Nat.mod_eq_of_lt (show a.position + (layout.align - a.position % layout.align) < 2 ^ 64 by omega),
    Nat.mod_eq_of_lt (by omega)]
  split
  · exact .inl rfl
  · rw [if_pos (by omega)]
    exact .inr ⟨⟨_, layout⟩, rfl, by dsimp only; omega, by dsimp only; omega, hdvd⟩

end BumpAllocator

inductive BumpOperation where
  | allocate (layout : Layout)
  | clear

/-- An operation, with the blocks handed out since the last clear. -/
def bumpStep : BumpAllocator × List Allocation → BumpOperation → Option (BumpAllocator × List Allocation)
  | (a, blocks), .allocate layout => do
    let (a, block) ← a.allocate layout
    some (a, block.toList ++ blocks)
  | (a, _), .clear => some (a.clear, [])

def bumpRun (len : Fin (2 ^ 63)) (operations : List BumpOperation) : Option (BumpAllocator × List Allocation) :=
  operations.foldlM bumpStep (.new len, [])

/-- All blocks end at or below the position. -/
structure BumpInv (len : Fin (2 ^ 63)) (s : BumpAllocator × List Allocation) : Prop where
  len_eq : s.1.len = len
  position_le : s.1.position ≤ len
  below : ∀ b ∈ s.2, b.offset + b.layout.size ≤ s.1.position
  aligned : ∀ b ∈ s.2, b.layout.align ∣ b.offset
  apart : s.2.Pairwise Allocation.Apart

variable {len : Fin (2 ^ 63)} {s : BumpAllocator × List Allocation}

theorem BumpInv.step (h : BumpInv len s) (operation : BumpOperation) :
    ∃ s', bumpStep s operation = some s' ∧ BumpInv len s' := by
  obtain ⟨a, blocks⟩ := s
  obtain ⟨rfl, hposition, hbelow, haligned, hapart⟩ := h
  cases operation with
  | clear => exact ⟨_, rfl, rfl, Nat.zero_le _, by simp, by simp, .nil⟩
  | allocate layout =>
    rcases a.allocate_spec hposition layout with hallocate | ⟨b, hallocate, hle, hend, hdvd⟩
    · refine ⟨(a, blocks), ?_, rfl, hposition, hbelow, haligned, hapart⟩
      simp [bumpStep, hallocate]
    · refine ⟨(⟨a.len, b.offset + b.layout.size⟩, b :: blocks), ?_, rfl, hend, ?_, ?_, ?_⟩
      · simp [bumpStep, hallocate]
      · refine forall_mem_cons.mpr ⟨Nat.le_refl _, fun c hc => ?_⟩
        have := hbelow c hc
        dsimp only at this ⊢
        omega
      · exact forall_mem_cons.mpr ⟨hdvd, haligned⟩
      · exact .cons (fun c hc => .inr (Nat.le_trans (hbelow c hc) hle)) hapart

/-- **Since the last clear, blocks lie in the arena, are aligned and are apart**, and nothing panics. -/
theorem bumpRun_apart (len : Fin (2 ^ 63)) (operations : List BumpOperation) :
    ∃ a blocks, bumpRun len operations = some (a, blocks) ∧
      (∀ b ∈ blocks, b.offset + b.layout.size ≤ len ∧ b.layout.align ∣ b.offset) ∧
      blocks.Pairwise Allocation.Apart := by
  have hrun : ∀ s, BumpInv len s → ∃ s', operations.foldlM bumpStep s = some s' ∧ BumpInv len s' := by
    induction operations with
    | nil => exact fun s h => ⟨s, rfl, h⟩
    | cons operation operations ih =>
      intro s h
      obtain ⟨s1, hstep, h1⟩ := h.step operation
      rw [foldlM_cons, hstep]
      exact ih s1 h1
  obtain ⟨⟨a, blocks⟩, hrun, h⟩ := hrun (.new len, []) ⟨rfl, Nat.zero_le _, by simp, by simp, .nil⟩
  exact ⟨a, blocks, hrun, fun b hb => ⟨Nat.le_trans (h.below b hb) h.position_le, h.aligned b hb⟩, h.apart⟩

end Icewind.Dbt
