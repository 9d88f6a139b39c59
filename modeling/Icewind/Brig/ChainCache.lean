import Mathlib.Logic.Function.Basic

/-!
# The chain cache

Model of `DirectMappedCache` in `brig/brig/src/guest/models.rs`: a table from guest program counters
to translated code, one entry for each index.  Emptying the cache writes one key into all entries;
the values stay behind it.

* `DirectMappedCache.Holds` — what is known of every entry whose key is not the one that empties.
-/

namespace Icewind.Brig

/-- `CHAIN_CACHE_ENTRY_COUNT`. -/
def chainCacheEntryCount : Nat := 65536

structure ChainCacheEntry (V : Type) where
  key : Nat
  value : V

/-- `n` entries, addressed by the program counter without its two lowest bits. -/
structure DirectMappedCache (n : Nat) (V : Type) where
  table : Nat → ChainCacheEntry V

namespace DirectMappedCache

variable {n : Nat} {V : Type}

def index (n key : Nat) : Nat := key / 4 % n

def fillKeys (c : DirectMappedCache n V) (key : Nat) : DirectMappedCache n V :=
  ⟨fun i => { c.table i with key := key }⟩

/-- `new`: the table is zeroed memory. -/
def new (n : Nat) (zero : V) (initialKeys : Nat) : DirectMappedCache n V :=
  fillKeys ⟨fun _ => ⟨0, zero⟩⟩ initialKeys

def insert (c : DirectMappedCache n V) (key : Nat) (value : V) : DirectMappedCache n V :=
  ⟨Function.update c.table (index n key) ⟨key, value⟩⟩

def get (c : DirectMappedCache n V) (key : Nat) : Option V :=
  let entry := c.table (index n key)
  if entry.key = key then some entry.value else none

/-- The entries with another key than `empty` satisfy `P`. -/
def Holds (c : DirectMappedCache n V) (empty : Nat) (P : Nat → V → Prop) : Prop :=
  ∀ i, (c.table i).key ≠ empty → P (c.table i).key (c.table i).value

variable {c : DirectMappedCache n V} {empty : Nat} {P Q : Nat → V → Prop}

theorem holds_fillKeys (c : DirectMappedCache n V) (empty : Nat) (P : Nat → V → Prop) :
    (c.fillKeys empty).Holds empty P :=
  fun _ h => absurd rfl h

theorem Holds.insert (h : c.Holds empty P) {key : Nat} {value : V} (hP : P key value) :
    (c.insert key value).Holds empty P := by
  intro i
  unfold DirectMappedCache.insert
  by_cases hi : i = index n key
  · subst hi
    simp only [Function.update_self]
    exact fun _ => hP
  · simp only [Function.update_of_ne hi]
    exact h i

theorem Holds.get (h : c.Holds empty P) {key : Nat} (hkey : key ≠ empty) {value : V}
    (hget : c.get key = some value) : P key value := by
  unfold DirectMappedCache.get at hget
  dsimp only at hget
  split at hget
  · rename_i heq
    cases hget
    have hP := h (index n key) (by rw [heq]; exact hkey)
    rw [heq] at hP
    exact hP
  · cases hget

theorem Holds.mono (h : c.Holds empty P)
    (hPQ : ∀ i, (c.table i).key ≠ empty → P (c.table i).key (c.table i).value →
      Q (c.table i).key (c.table i).value) : c.Holds empty Q :=
  fun i hi => hPQ i hi (h i hi)

end DirectMappedCache

end Icewind.Brig
