import Icewind.Lib.OrderedMap
import Mathlib.Data.List.Pairwise
import Mathlib.Order.Nat
import Mathlib.Algebra.Group.Nat.Defs

/-!
# Address spaces

Model of `AddressSpace` in `brig/common/src/memory.rs`: regions by their base addresses.

* `AddressSpace.addRegion`, `AddressSpace.findRegion` — the two operations.
* `findRegion_correct` — among disjoint regions `find_region` finds the one that contains the address.
-/

namespace Icewind.Brig

open List Option

inductive AddressSpaceRegionKind (δ : Type) where
  | ram
  | io (device : δ)

structure AddressSpaceRegion (δ : Type) where
  name : String
  base : Nat
  size : Nat
  kind : AddressSpaceRegionKind δ

variable {δ : Type}

/-- A `BTreeMap`. -/
abbrev AddressSpace (δ : Type) := List (Nat × AddressSpaceRegion δ)

namespace AddressSpace

def new : AddressSpace δ := []

def addRegion (space : AddressSpace δ) (region : AddressSpaceRegion δ) : AddressSpace δ :=
  OrderedMap.insert region.base region space

/-- Only the last region that does not start above the address is looked at; the sum has 64 bits. -/
def findRegion (space : AddressSpace δ) (address : Nat) : Option (AddressSpaceRegion δ) := do
  let candidate ← OrderedMap.floor address space
  if candidate.2.base ≤ address ∧ address < (candidate.2.base + candidate.2.size) % 2 ^ 64 then some candidate.2
  else none

end AddressSpace

namespace AddressSpaceRegion

def Contains (r : AddressSpaceRegion δ) (address : Nat) : Prop := r.base ≤ address ∧ address < r.base + r.size

def Disjoint (r s : AddressSpaceRegion δ) : Prop := r.base + r.size ≤ s.base ∨ s.base + s.size ≤ r.base

end AddressSpaceRegion

open AddressSpace

theorem foldl_addRegion (regions : List (AddressSpaceRegion δ)) :
    regions.foldl addRegion new = OrderedMap.ofEntries (regions.map fun r => (r.base, r)) := by
  rw [OrderedMap.ofEntries, foldl_map]
  rfl

/-- **`find_region` finds the region of an address**, in whatever order disjoint regions were added. -/
theorem findRegion_correct {regions : List (AddressSpaceRegion δ)}
    (hregions : ∀ r ∈ regions, 0 < r.size ∧ r.base + r.size < 2 ^ 64)
    (hdisjoint : regions.Pairwise AddressSpaceRegion.Disjoint) (address : Nat) :
    (∀ r ∈ regions, r.Contains address → findRegion (regions.foldl addRegion new) address = some r) ∧
      ((∀ r ∈ regions, ¬ r.Contains address) → findRegion (regions.foldl addRegion new) address = none) := by
  rw [foldl_addRegion]
  have hnodup : ((regions.map fun r => (r.base, r)).map Prod.fst).Nodup := by
    rw [List.map_map]
    refine pairwise_map.mpr (hdisjoint.imp_of_mem fun {r s} hr hs h => ?_)
    have hpos := (hregions r hr).1
    have hpos' := (hregions s hs).1
    simp only [Function.comp_apply, AddressSpaceRegion.Disjoint] at h ⊢
    omega
  refine ⟨fun r hr hcontains => ?_, fun hnone => ?_⟩
  · have hfloor : OrderedMap.floor address (OrderedMap.ofEntries (regions.map fun r => (r.base, r))) =
        some (r.base, r) := by
      refine OrderedMap.floor_ofEntries hnodup (mem_map_of_mem hr) hcontains.1 fun e he hle => ?_
      obtain ⟨s, hs, rfl⟩ := mem_map.mp he
      by_cases heq : r = s
      · rw [heq]
      · -- a region that starts behind `r` starts behind the address
        have hsymm : Std.Symm (@AddressSpaceRegion.Disjoint δ) := ⟨fun _ _ => Or.symm⟩
        have hdisjoint := hdisjoint.forall hr hs heq
        unfold AddressSpaceRegion.Disjoint at hdisjoint
        have hend := hcontains.2
        omega
    unfold findRegion
    rw [hfloor, bind_eq_bind, bind_some, if_pos]
    rwa [Nat.mod_eq_of_lt (hregions r hr).2]
  · refine eq_none_iff_forall_ne_some.mpr fun r h => ?_
    obtain ⟨e, hfloor, h⟩ := bind_eq_some_iff.mp h
    obtain ⟨s, hs, rfl⟩ := mem_map.mp (((OrderedMap.ofEntries_spec hnodup).2 e).mp (OrderedMap.mem_of_floor hfloor))
    split at h
    · rename_i hcontains
      rw [Nat.mod_eq_of_lt (hregions s hs).2] at hcontains
      exact hnone s hs hcontains
    · cases h

theorem findRegion_correct_ram :
    findRegion ([⟨"uart", 0x2000, 0x100, .io ()⟩, ⟨"ram", 0, 0x1000, .ram⟩].foldl addRegion new) 0xfff =
      some ⟨"ram", 0, 0x1000, .ram⟩ :=
  (findRegion_correct (by simp) (by simp [AddressSpaceRegion.Disjoint]) 0xfff).1 _ (by simp) ⟨by decide, by decide⟩

end Icewind.Brig
