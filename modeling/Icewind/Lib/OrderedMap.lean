import Mathlib.Data.List.Nodup
import Mathlib.Order.Lattice

/-!
# Ordered maps

Entries in increasing order of their keys.

* `insert` — adds an entry, in place of one with the same key.
* `ofEntries` — the entries of a list, one after the other.
* `floor` — the entry with the greatest key that is not above a bound.
* `floor_ofEntries` — what `floor` finds among entries with different keys.
-/

namespace Icewind.OrderedMap

open List

variable {K V : Type} [LinearOrder K]

def insert (k : K) (v : V) : List (K × V) → List (K × V)
  | [] => [(k, v)]
  | e :: m => if k < e.1 then (k, v) :: e :: m else if k = e.1 then (k, v) :: m else e :: insert k v m

def ofEntries (entries : List (K × V)) : List (K × V) := entries.foldl (fun m e => insert e.1 e.2 m) []

def floor (bound : K) (m : List (K × V)) : Option (K × V) := (m.filter fun e => decide (e.1 ≤ bound)).getLast?

/-- Keys increase. -/
def Sorted (m : List (K × V)) : Prop := m.Pairwise fun a b => a.1 < b.1

variable {e : K × V}

theorem mem_insert {k : K} {v : V} :
    ∀ {m : List (K × V)}, Sorted m → (e ∈ insert k v m ↔ e = (k, v) ∨ (e ∈ m ∧ e.1 ≠ k))
  | [], _ => by simp [insert]
  | a :: m, hm => by
    obtain ⟨ha, hm⟩ := pairwise_cons.mp hm
    unfold insert
    split
    · rename_i hlt
      have hne : ∀ x ∈ a :: m, x.1 ≠ k := forall_mem_cons.mpr ⟨hlt.ne', fun x hx => (hlt.trans (ha x hx)).ne'⟩
      rw [mem_cons]
      exact or_congr_right ⟨fun he => ⟨he, hne e he⟩, fun he => he.1⟩
    · split
      · rename_i heq
        have hne : ∀ x ∈ m, x.1 ≠ k := fun x hx => by
          rw [heq]
          exact (ha x hx).ne'
        rw [mem_cons, mem_cons]
        refine or_congr_right ⟨fun he => ⟨.inr he, hne e he⟩, fun ⟨he, hek⟩ => ?_⟩
        exact he.resolve_left fun hea => hek (by rw [hea, heq])
      · rename_i hne
        rw [mem_cons, mem_insert hm, mem_cons]
        constructor
        · rintro (rfl | he | ⟨he, hek⟩)
          · exact .inr ⟨.inl rfl, fun heq => hne heq.symm⟩
          · exact .inl he
          · exact .inr ⟨.inr he, hek⟩
        · rintro (he | ⟨rfl | he, hek⟩)
          · exact .inr (.inl he)
          · exact .inl rfl
          · exact .inr (.inr ⟨he, hek⟩)

theorem insert_sorted (k : K) (v : V) : ∀ {m : List (K × V)}, Sorted m → Sorted (insert k v m)
  | [], _ => pairwise_singleton _ _
  | a :: m, hm => by
    obtain ⟨ha, htail⟩ := pairwise_cons.mp hm
    unfold insert
    split
    · rename_i hlt
      exact pairwise_cons.mpr ⟨forall_mem_cons.mpr ⟨hlt, fun x hx => hlt.trans (ha x hx)⟩, hm⟩
    · split
      · rename_i heq
        refine pairwise_cons.mpr ⟨fun x hx => ?_, htail⟩
        change k < x.1
        rw [heq]
        exact ha x hx
      · rename_i hlt hne
        refine pairwise_cons.mpr ⟨fun x hx => ?_, insert_sorted k v htail⟩
        rcases (mem_insert htail).mp hx with rfl | ⟨hx, -⟩
        · exact lt_of_le_of_ne (not_lt.mp hlt) (Ne.symm hne)
        · exact ha x hx

variable {entries : List (K × V)}

/-- Inserting entries whose keys are all different, and not in the map. -/
theorem foldl_insert : ∀ {m : List (K × V)}, Sorted m → (entries.map Prod.fst).Nodup →
    (∀ e ∈ entries, ∀ a ∈ m, a.1 ≠ e.1) → Sorted (entries.foldl (fun m e => insert e.1 e.2 m) m) ∧
        ∀ e, e ∈ entries.foldl (fun m e => insert e.1 e.2 m) m ↔ e ∈ entries ∨ e ∈ m := by
  induction entries with
  | nil => exact fun hm _ _ => ⟨hm, fun e => by simp⟩
  | cons a entries ih =>
    intro m hm hnodup hnew
    obtain ⟨ha, hnodup⟩ := nodup_cons.mp hnodup
    have hmem : ∀ e, e ∈ insert a.1 a.2 m ↔ e = a ∨ e ∈ m := by
      intro e
      rw [mem_insert hm]
      exact or_congr_right ⟨fun he => he.1, fun he => ⟨he, hnew a mem_cons_self e he⟩⟩
    obtain ⟨hsorted, hiff⟩ := ih (insert_sorted a.1 a.2 hm) hnodup fun e he x hx => by
      rcases (hmem x).mp hx with rfl | hx
      · exact fun heq => ha (heq ▸ mem_map_of_mem he)
      · exact hnew e (mem_cons_of_mem a he) x hx
    refine ⟨hsorted, fun e => ?_⟩
    rw [foldl_cons, hiff, hmem, mem_cons, or_assoc]
    exact ⟨fun h => h.elim (fun h => .inr (.inl h)) fun h => h.elim .inl fun h => .inr (.inr h),
      fun h => h.elim (fun h => .inr (.inl h)) fun h => h.elim .inl fun h => .inr (.inr h)⟩

theorem getLast?_eq_of_max {m : List (K × V)} (hm : Sorted m) (he : e ∈ m) (hmax : ∀ a ∈ m, a.1 ≤ e.1) :
    m.getLast? = some e := by
  obtain ⟨before, after, rfl⟩ := append_of_mem he
  cases after with
  | nil => simp
  | cons a after =>
    -- what follows `e` would be greater
    have hlt := (pairwise_cons.mp (pairwise_append.mp hm).2.1).1 a mem_cons_self
    exact absurd (hmax a (by simp)) (not_le.mpr hlt)

variable {bound : K}

theorem mem_of_floor {m : List (K × V)} (h : floor bound m = some e) : e ∈ m :=
  (mem_filter.mp (mem_of_getLast? h)).1

variable (hnodup : (entries.map Prod.fst).Nodup)

include hnodup

theorem ofEntries_spec : Sorted (ofEntries entries) ∧ ∀ e, e ∈ ofEntries entries ↔ e ∈ entries := by
  obtain ⟨hsorted, hiff⟩ := foldl_insert (m := []) List.Pairwise.nil hnodup
    fun _ _ a ha => absurd ha not_mem_nil
  exact ⟨hsorted, fun e => (hiff e).trans (or_iff_left not_mem_nil)⟩

/-- **`floor` finds the entry below the bound that none below the bound exceeds.** -/
theorem floor_ofEntries (he : e ∈ entries) (hle : e.1 ≤ bound)
    (hmax : ∀ a ∈ entries, a.1 ≤ bound → a.1 ≤ e.1) : floor bound (ofEntries entries) = some e := by
  obtain ⟨hsorted, hiff⟩ := ofEntries_spec hnodup
  refine getLast?_eq_of_max (hsorted.filter _) ?_ fun a ha => ?_
  · exact mem_filter.mpr ⟨(hiff e).mpr he, decide_eq_true hle⟩
  · obtain ⟨ha, hbound⟩ := mem_filter.mp ha
    exact hmax a ((hiff a).mp ha) (of_decide_eq_true hbound)

end Icewind.OrderedMap
