import Icewind.Lib.Tables
import Mathlib.Algebra.Group.Nat.Defs

/-!
# Extended page tables

Model of `brig/kernel/src/arch/x86/vmx/ept/mod.rs`: `translate` walks four levels from a
guest-physical address to its leaf entry, and makes the tables it misses from a pool.

* `Ept.descend`, `Ept.translate` — the walk; `none` is a panic.
* `Session` — an extended page table with the leaf slots handed out so far, under lookups and writes
  through any of them.
* `SoundRun` — every slot handed out is the leaf of its address; slots are shared exactly by addresses that
  agree in bits 12 to 47 and never lie in an inner table, inner entries stay, and a leaf changes only through
  its own slot.
-/

namespace Icewind.Kernel

open Function Option

/-- `bit_extract`, for a start and a length below 64. -/
def bitExtract (value start length : Nat) : Nat := (value >>> start) &&& (2 ^ length - 1)

theorem bitExtract_eq (value start length : Nat) :
    bitExtract value start length = value / 2 ^ start % 2 ^ length := by
  rw [bitExtract, Nat.shiftRight_eq_div_pow, Nat.and_two_pow_sub_one_eq_mod]

structure PageTableIndices where
  pml4 : Nat
  pdp : Nat
  pd : Nat
  pt : Nat

/-- `PageTableIndices::from_address`. -/
def PageTableIndices.fromAddress (address : Nat) : PageTableIndices where
  pml4 := bitExtract address 39 9
  pdp := bitExtract address 30 9
  pd := bitExtract address 21 9
  pt := bitExtract address 12 9

/-- `EptEntry`: read, write, execute, four reserved bits, size, four ignored bits, 36 bits of address
and 16 ignored bits. -/
abbrev EptEntry := Nat

variable {t : Nat}

namespace EptEntry

def address (e : EptEntry) : Nat := e / 2 ^ 12 % 2 ^ 36

def setAddress (e : EptEntry) (a : Nat) : EptEntry :=
  e % 2 ^ 12 + a % 2 ^ 36 * 2 ^ 12 + e / 2 ^ 48 * 2 ^ 48

def bit (e : EptEntry) (k : Nat) : Bool := e / 2 ^ k % 2 = 1

def setBit (e : EptEntry) (k : Nat) : EptEntry := if e.bit k then e else e + 2 ^ k

def setRead (e : EptEntry) : EptEntry := e.setBit 0

def setWrite (e : EptEntry) : EptEntry := e.setBit 1

def setExecute (e : EptEntry) : EptEntry := e.setBit 2

def size (e : EptEntry) : Bool := e.bit 7

/-- The entry made for a new table. -/
def forTable (e : EptEntry) (table : Nat) : EptEntry :=
  (((e.setAddress (table >>> 12)).setRead).setWrite).setExecute

/-- The table an entry names. -/
def table (e : EptEntry) : Nat := e.address <<< 12

/-- The table an inner entry names, if it has been made. -/
def next (e : EptEntry) : Option Nat := if e = 0 then none else some e.table

theorem forTable_zero (t : Nat) : forTable 0 t = t / 4096 % 68719476736 * 4096 + 7 := by
  have hread : ∀ x : Nat, setRead (x * 4096) = x * 4096 + 1 := by
    intro x
    have h : ¬ x * 4096 % 2 = 1 := by omega
    simp [setRead, setBit, bit, h]
  have hwrite : ∀ x : Nat, setWrite (x * 4096 + 1) = x * 4096 + 3 := by
    intro x
    have h : ¬ (x * 4096 + 1) / 2 % 2 = 1 := by omega
    simp [setWrite, setBit, bit, h]
  have hexecute : ∀ x : Nat, setExecute (x * 4096 + 3) = x * 4096 + 7 := by
    intro x
    have h : ¬ (x * 4096 + 3) / 4 % 2 = 1 := by omega
    simp [setExecute, setBit, bit, h]
  have haddress : setAddress 0 (t >>> 12) = t / 4096 % 68719476736 * 4096 := by
    simp [setAddress, Nat.shiftRight_eq_div_pow]
  rw [forTable, haddress, hread, hwrite, hexecute]

theorem forTable_zero_ne (t : Nat) : forTable 0 t ≠ 0 := by
  rw [forTable_zero]
  exact Nat.succ_ne_zero _

theorem forTable_zero_size (t : Nat) : (forTable 0 t).size = false := by
  have h : ¬ (t / 4096 % 68719476736 * 4096 + 7) / 128 % 2 = 1 := by omega
  rw [forTable_zero]
  simp [size, bit, h]

/-- The entry names the table it was made for, if that is aligned and below `2^48`. -/
theorem table_forTable_zero (halign : 4096 ∣ t) (hlt : t < 2 ^ 48) : (forTable 0 t).table = t := by
  have h : (t / 4096 % 68719476736 * 4096 + 7) / 4096 % 68719476736 * 4096 = t := by omega
  rw [forTable_zero, table, address, Nat.shiftLeft_eq]
  exact h

end EptEntry

open EptEntry

/-- The tables in memory, by their physical address (a multiple of 4096) and index, and the pool. -/
structure Ept where
  pml4 : Nat
  nextTable : Nat
  endTable : Nat
  mem : Nat → Nat → EptEntry

namespace Ept

def physicalMemoryOffset : Nat := 0xffff_8180_0000_0000

def numTables : Nat := 4096

/-- `allocate_page_table`. -/
def allocatePageTable (ept : Ept) : Option (Nat × Ept) :=
  if ept.endTable ≤ ept.nextTable then none
  else some (ept.nextTable, { ept with nextTable := ept.nextTable + 4096 })

/-- `Ept::new`, where the pool lies at the given virtual address. -/
def new (tables : Nat) (mem : Nat → Nat → EptEntry) : Option Ept :=
  let phys := tables - physicalMemoryOffset
  (allocatePageTable ⟨0, phys, phys + numTables * 4096, mem⟩).map fun r => { r.2 with pml4 := r.1 }

def setEntry (ept : Ept) (table index : Nat) (e : EptEntry) : Ept :=
  { ept with mem := update ept.mem table (update (ept.mem table) index e) }

/-- One level of `translate`: the table below an entry, made if the entry is zero.  At the second
level an entry for a large page panics. -/
def descend (checkSize : Bool) (ept : Ept) (table index : Nat) : Option (Nat × Ept) :=
  let entry := ept.mem table index
  if entry = 0 then
    ept.allocatePageTable.map fun r =>
      let entry := entry.forTable r.1
      (entry.table, r.2.setEntry table index entry)
  else if checkSize && entry.size then none
  else some (entry.table, ept)

/-- `translate`, with the slot of the leaf entry as table and index. -/
def translate (ept : Ept) (guestPhysAddr : Nat) : Option ((Nat × Nat) × Ept) :=
  let indices := PageTableIndices.fromAddress guestPhysAddr
  (ept.descend false ept.pml4 indices.pml4).bind fun r =>
    (r.2.descend true r.1 indices.pdp).bind fun r =>
      (r.2.descend false r.1 indices.pd).map fun r => ((r.1, indices.pt), r.2)

/-- The table at the end of a path of indices. -/
def walk (ept : Ept) (p : List Nat) : Option Nat :=
  Tables.walk ept.mem next ept.pml4 p

/-- A table of one of the three upper levels. -/
def Inner (ept : Ept) (t : Nat) : Prop := ∃ p, p.length < 3 ∧ ept.walk p = some t

/-- A table of leaf entries. -/
def Leaf (ept : Ept) (t : Nat) : Prop := ∃ p, p.length = 3 ∧ ept.walk p = some t

end Ept

/-- An extended page table and the slots handed out, with the address each was handed out for. -/
structure Session where
  ept : Ept
  returned : List (Nat × (Nat × Nat))

inductive Event where
  | lookup (guestPhysAddr : Nat)
  | write (slot : Nat × Nat) (value : EptEntry)

namespace Session

def step (s : Session) : Event → Option Session
  | .lookup a => (s.ept.translate a).map fun r => ⟨r.2, s.returned ++ [(a, r.1)]⟩
  | .write slot value => some { s with ept := s.ept.setEntry slot.1 slot.2 value }

/-- Writes go through slots that have been handed out. -/
def Allowed (s : Session) : Event → Prop
  | .lookup _ => True
  | .write slot _ => ∃ a, (a, slot) ∈ s.returned

/-- The pool has too few tables left for a walk. -/
def Exhausted (s : Session) : Prop := s.ept.endTable < s.ept.nextTable + 3 * 4096

/-- The slot is the entry that the indices of the address lead to in the tables. -/
def Reaches (s : Session) (address : Nat) (slot : Nat × Nat) : Prop :=
  let indices := PageTableIndices.fromAddress address
  s.ept.walk [indices.pml4, indices.pdp, indices.pd] = some slot.1 ∧ slot.2 = indices.pt

/-- Every slot is the leaf that its address leads to; addresses share one exactly if they agree in bits 12 to 47,
and no slot is an inner entry. -/
structure Separate (s : Session) : Prop where
  reached : ∀ x ∈ s.returned, s.Reaches x.1 x.2
  shared : ∀ x ∈ s.returned, ∀ y ∈ s.returned, x.2 = y.2 ↔ x.1 / 2 ^ 12 % 2 ^ 36 = y.1 / 2 ^ 12 % 2 ^ 36
  leaf : ∀ x ∈ s.returned, ¬ s.ept.Inner x.2.1

/-- Inner entries stay once they are made, and the contents of a leaf change only by a write through
its own slot. -/
structure Keeps (s : Session) (e : Event) (s' : Session) : Prop where
  inner : ∀ t i, s.ept.Inner t → s.ept.mem t i ≠ 0 → s'.ept.mem t i = s.ept.mem t i
  leaf : ∀ t i, s.ept.Leaf t → (∀ value, e ≠ .write (t, i) value) → s'.ept.mem t i = s.ept.mem t i

/-- Along the run, until the pool is exhausted, slots are separate and every step keeps the rest. -/
def SoundRun : List Event → Session → Prop
  | [], s => s.Separate
  | e :: es, s => s.Separate ∧ (s.Allowed e →
      match s.step e with
      | none => s.Exhausted
      | some s' => s.Keeps e s' ∧ SoundRun es s')

end Session

/-! ### The invariant of the tables -/

namespace Ept

/-- Tables come from the pool in order, the rest of the pool is zero, the tree is separated, and the
entries of inner tables are zero or made for a table. -/
structure Inv (ept : Ept) : Prop where
  aligned : 4096 ∣ ept.nextTable
  below : ept.endTable < 2 ^ 48
  zero : ∀ t, ept.nextTable ≤ t → t < ept.endTable → ∀ i, ept.mem t i = 0
  separated : Tables.Separated ept.mem next ept.pml4 3
  allocated : ∀ p t, p.length ≤ 3 → ept.walk p = some t → t < ept.nextTable
  small : ∀ t i, ept.Inner t → ept.mem t i ≠ 0 → (ept.mem t i).size = false

/-- What a walk may do to the tables. -/
structure Extends (ept ept' : Ept) : Prop where
  walks : ∀ p t, p.length ≤ 3 → ept.walk p = some t → ept'.walk p = some t
  entries : ∀ t i, ept.mem t i ≠ 0 → ept'.mem t i = ept.mem t i
  leaves : ∀ t i, ept.Leaf t → ept'.mem t i = ept.mem t i
  pool : ept.nextTable ≤ ept'.nextTable
  bound : ept'.endTable = ept.endTable

variable (ept : Ept)

theorem Extends.refl : ept.Extends ept :=
  ⟨fun _ _ _ h => h, fun _ _ _ => rfl, fun _ _ _ => rfl, Nat.le_refl _, rfl⟩

theorem Extends.trans {a b c : Ept} (h : a.Extends b) (h' : b.Extends c) : a.Extends c where
  walks p t hp hw := h'.walks p t hp (h.walks p t hp hw)
  entries t i hne := by
    have hb := h.entries t i hne
    rw [h'.entries t i (by rw [hb]; exact hne), hb]
  leaves t i hleaf := by
    obtain ⟨p, hp, hw⟩ := hleaf
    rw [h'.leaves t i ⟨p, hp, h.walks p t (by omega) hw⟩, h.leaves t i ⟨p, hp, hw⟩]
  pool := Nat.le_trans h.pool h'.pool
  bound := h'.bound.trans h.bound

theorem setEntry_mem_self (t i : Nat) (e : EptEntry) : (ept.setEntry t i e).mem t i = e := by
  simp [setEntry]

theorem setEntry_mem_of_ne {t i t' i' : Nat} (e : EptEntry) (h : (t', i') ≠ (t, i)) :
    (ept.setEntry t i e).mem t' i' = ept.mem t' i' := by
  simp only [setEntry, update_apply]
  split
  · rename_i ht
    subst ht
    simp only [update_apply]
    split
    · rename_i hi
      exact absurd (by rw [hi]) h
    · rfl
  · rfl

variable {ept : Ept}

section

variable (hinv : ept.Inv)

include hinv

theorem Inv.not_inner (h : ept.Leaf t) : ¬ ept.Inner t := by
  rintro ⟨q, hq, hqt⟩
  obtain ⟨p, hp, hpt⟩ := h
  have := hinv.separated p q t (by omega) (by omega) hpt hqt
  subst this
  omega

/-- **Making a table** for a zero entry of an inner table. -/
theorem Inv.make {p : List Nat} {t i : Nat} (hp : p.length < 3) (hwalk : ept.walk p = some t)
    (hzero : ept.mem t i = 0) (hpool : ept.nextTable < ept.endTable) :
    let ept' := ({ ept with nextTable := ept.nextTable + 4096 } : Ept).setEntry t i (forTable 0 ept.nextTable)
    ept'.Inv ∧ ept.Extends ept' ∧ ept'.walk (p ++ [i]) = some ept.nextTable := by
  intro ept'
  have hbelow := hinv.below
  have htable : next (forTable 0 ept.nextTable) = some ept.nextTable := by
    rw [next, if_neg (forTable_zero_ne _), table_forTable_zero hinv.aligned (by omega)]
  have hself : ept'.mem t i = forTable 0 ept.nextTable := setEntry_mem_self ..
  have hne : ∀ t' i', (t', i') ≠ (t, i) → ept'.mem t' i' = ept.mem t' i' :=
    fun t' i' h => setEntry_mem_of_ne _ _ h
  have hfresh : ∀ q : List Nat, q.length ≤ 3 → ept.walk q ≠ some ept.nextTable :=
    fun q hq h => Nat.lt_irrefl _ (hinv.allocated q _ hq h)
  have htn : t < ept.nextTable := hinv.allocated p t (by omega) hwalk
  have hwalks : ∀ q : List Nat, q.length ≤ 3 →
      ept'.walk q = if q = p ++ [i] then some ept.nextTable else ept.walk q := by
    refine Tables.walk_link hinv.separated hwalk hp (by rw [hzero]; rfl) (fun j => ?_)
      (by rw [hself]; exact htable) (fun q f' j _ _ h => by rw [hne f' j h])
    rw [hne _ _ (fun h => by have := congrArg Prod.fst h; dsimp only at this; omega),
      hinv.zero _ (Nat.le_refl _) hpool]
    rfl
  have hextends : ept.Extends ept' := by
    constructor
    case walks =>
      intro q x hq hx
      rw [hwalks q hq, if_neg, hx]
      rintro rfl
      rw [walk, Tables.walk_concat] at hx
      rw [walk] at hwalk
      rw [hwalk, bind_some, hzero] at hx
      cases hx
    case entries =>
      intro t' i' h
      refine hne t' i' fun hpair => h ?_
      obtain ⟨rfl, rfl⟩ := Prod.mk.inj hpair
      exact hzero
    case leaves =>
      intro t' i' hleaf
      refine hne t' i' fun hpair => hinv.not_inner hleaf ?_
      obtain ⟨rfl, rfl⟩ := Prod.mk.inj hpair
      exact ⟨p, hp, hwalk⟩
    case pool => exact Nat.le_add_right ..
    case bound => rfl
  refine ⟨?_, hextends, by rw [hwalks _ (by simp; omega), if_pos rfl]⟩
  constructor
  case aligned => exact Nat.dvd_add hinv.aligned (Nat.dvd_refl _)
  case below => exact hinv.below
  case zero =>
    intro t' hge hlt j
    have hge' : ept.nextTable + 4096 ≤ t' := hge
    rw [hne t' j (fun h => by have := congrArg Prod.fst h; dsimp only at this; omega)]
    exact hinv.zero t' (by omega) hlt j
  case separated => exact hinv.separated.link hfresh hwalks
  case allocated =>
    intro q x hq hx
    show x < ept.nextTable + 4096
    rw [hwalks q hq] at hx
    split at hx
    · cases hx
      omega
    · have := hinv.allocated q x hq hx
      omega
  case small =>
    rintro t' j ⟨q, hq, hx⟩ hnz
    by_cases hpair : (t', j) = (t, i)
    · obtain ⟨rfl, rfl⟩ := Prod.mk.inj hpair
      rw [hself]
      exact forTable_zero_size _
    · rw [hne t' j hpair] at hnz ⊢
      rw [hwalks q (by omega)] at hx
      split at hx
      · -- the new table is still empty
        cases hx
        exact absurd (hinv.zero _ (Nat.le_refl _) hpool j) hnz
      · exact hinv.small t' j ⟨q, hq, hx⟩ hnz

/-- **One level of a walk** keeps the invariant and ends at the path it was asked for; it fails only
if the pool is empty. -/
theorem Inv.descend (checkSize : Bool) {p : List Nat} (i : Nat) (hp : p.length < 3)
    (hwalk : ept.walk p = some t) :
    match ept.descend checkSize t i with
    | none => ept.endTable ≤ ept.nextTable
    | some (g, ept') => ept'.Inv ∧ ept.Extends ept' ∧ ept'.walk (p ++ [i]) = some g ∧
        ept'.nextTable ≤ ept.nextTable + 4096 := by
  unfold Ept.descend
  by_cases hzero : ept.mem t i = 0
  · rw [if_pos hzero, hzero]
    by_cases hpool : ept.endTable ≤ ept.nextTable
    · simp [allocatePageTable, hpool]
    · obtain ⟨hinv', hext, hg⟩ := hinv.make hp hwalk hzero (by omega)
      have hbelow := hinv.below
      have htable := table_forTable_zero hinv.aligned (show ept.nextTable < 2 ^ 48 by omega)
      simp only [allocatePageTable, hpool, if_false, map_some, htable]
      exact ⟨hinv', hext, hg, Nat.le_refl _⟩
  · have hsize := hinv.small t i ⟨p, hp, hwalk⟩ hzero
    rw [if_neg hzero, hsize, Bool.and_false, if_neg (by simp)]
    refine ⟨hinv, Extends.refl ept, ?_, Nat.le_add_right ..⟩
    rw [walk, Tables.walk_concat]
    rw [walk] at hwalk
    rw [hwalk, bind_some, next, if_neg hzero]

/-- **A walk** keeps the invariant and ends at the leaf table of the address. -/
theorem Inv.translate (a : Nat) :
    match ept.translate a with
    | none => ept.endTable < ept.nextTable + 3 * 4096
    | some (slot, ept') => ept'.Inv ∧ ept.Extends ept' ∧
        ept'.walk [bitExtract a 39 9, bitExtract a 30 9, bitExtract a 21 9] = some slot.1 ∧
        slot.2 = bitExtract a 12 9 := by
  unfold Ept.translate
  have h1 := hinv.descend false (p := []) (bitExtract a 39 9) (by simp) rfl
  cases hd1 : ept.descend false ept.pml4 (bitExtract a 39 9) with
  | none =>
    rw [hd1] at h1
    simp only [PageTableIndices.fromAddress, hd1, Option.bind_none]
    omega
  | some r1 =>
    rw [hd1] at h1
    obtain ⟨hinv1, hext1, hw1, hn1⟩ := h1
    simp only [PageTableIndices.fromAddress, hd1, bind_some]
    have h2 := hinv1.descend true (bitExtract a 30 9) (by simp) hw1
    have hb1 := hext1.bound
    cases hd2 : r1.2.descend true r1.1 (bitExtract a 30 9) with
    | none =>
      rw [hd2] at h2
      simp only [Option.bind_none]
      omega
    | some r2 =>
      rw [hd2] at h2
      obtain ⟨hinv2, hext2, hw2, hn2⟩ := h2
      simp only [bind_some]
      have h3 := hinv2.descend false (bitExtract a 21 9) (by simp) hw2
      have hb2 := hext2.bound
      cases hd3 : r2.2.descend false r2.1 (bitExtract a 21 9) with
      | none =>
        rw [hd3] at h3
        simp only [Option.map_none]
        omega
      | some r3 =>
        rw [hd3] at h3
        obtain ⟨hinv3, hext3, hw3, -⟩ := h3
        exact ⟨hinv3, (hext1.trans hext2).trans hext3, hw3, rfl⟩

/-- **A write to a leaf** keeps the invariant and the tree. -/
theorem Inv.setLeaf (hleaf : ept.Leaf t) (i : Nat) (e : EptEntry) :
    (ept.setEntry t i e).Inv ∧ ∀ p : List Nat, p.length ≤ 3 → (ept.setEntry t i e).walk p = ept.walk p := by
  have hinner : ∀ t' i', ept.Inner t' → (ept.setEntry t i e).mem t' i' = ept.mem t' i' := by
    intro t' i' h
    refine setEntry_mem_of_ne _ _ fun hpair => hinv.not_inner hleaf ?_
    obtain ⟨rfl, rfl⟩ := Prod.mk.inj hpair
    exact h
  have hwalks : ∀ p : List Nat, p.length ≤ 3 → (ept.setEntry t i e).walk p = ept.walk p :=
    Tables.walk_congr fun q f hq hf j => by rw [hinner f j ⟨q, hq, hf⟩]
  refine ⟨?_, hwalks⟩
  constructor
  case aligned => exact hinv.aligned
  case below => exact hinv.below
  case zero =>
    intro t' hge hlt j
    obtain ⟨q, hq, hqt⟩ := hleaf
    have htn := hinv.allocated q t (by omega) hqt
    have hge' : ept.nextTable ≤ t' := hge
    rw [setEntry_mem_of_ne _ _ fun h => by have := congrArg Prod.fst h; dsimp only at this; omega]
    exact hinv.zero t' hge hlt j
  case separated => exact hinv.separated.congr hwalks
  case allocated =>
    intro q x hq hx
    rw [hwalks q hq] at hx
    exact hinv.allocated q x hq hx
  case small =>
    rintro t' j ⟨q, hq, hx⟩ hnz
    rw [hwalks q (by omega)] at hx
    rw [hinner t' j ⟨q, hq, hx⟩] at hnz ⊢
    exact hinv.small t' j ⟨q, hq, hx⟩ hnz

end

/-- A fresh extended page table over a zeroed pool.  The pool is somewhere in the mapping of
physical memory. -/
theorem Inv.new {tables : Nat} {mem : Nat → Nat → EptEntry} (halign : 4096 ∣ tables)
    (hlow : physicalMemoryOffset ≤ tables) (hhigh : tables + numTables * 4096 ≤ 2 ^ 64)
    (hzero : ∀ t, tables - physicalMemoryOffset ≤ t →
      t < tables - physicalMemoryOffset + numTables * 4096 → ∀ i, mem t i = 0) :
    ∃ ept, Ept.new tables mem = some ept ∧ ept.Inv := by
  have halign' : 4096 ∣ tables - physicalMemoryOffset :=
    Nat.dvd_sub halign (by decide)
  have hbelow : tables - physicalMemoryOffset + numTables * 4096 < 2 ^ 48 := by
    have hoffset : 2 ^ 64 < 2 ^ 48 + physicalMemoryOffset := by decide
    generalize physicalMemoryOffset = offset at *
    generalize numTables * 4096 = pool at *
    omega
  rw [Ept.new]
  generalize tables - physicalMemoryOffset = base at *
  have hpool : base < base + numTables * 4096 := Nat.lt_add_of_pos_right (by decide)
  refine ⟨⟨base, base + 4096, base + numTables * 4096, mem⟩, ?_, ?_⟩
  · dsimp only [allocatePageTable]
    rw [if_neg (Nat.not_le_of_lt hpool)]
    rfl
  have hroot : ∀ i, next (mem base i) = none := by
    intro i
    rw [hzero _ (Nat.le_refl _) hpool]
    rfl
  -- only the root is there
  have honly : ∀ (p : List Nat) (t : Nat), Tables.walk mem next base p = some t → p = [] ∧ t = base := by
    intro p t h
    cases p with
    | nil =>
      cases h
      exact ⟨rfl, rfl⟩
    | cons i p =>
      rw [Tables.walk, hroot] at h
      cases h
  constructor
  case aligned => exact Nat.dvd_add halign' (Nat.dvd_refl _)
  case below => exact hbelow
  case zero =>
    intro t hge hlt
    exact hzero t (Nat.le_trans (Nat.le_add_right ..) hge) hlt
  case separated =>
    intro p q g _ _ hp hq
    rw [(honly p g hp).1, (honly q g hq).1]
  case allocated =>
    intro p t _ h
    rw [(honly p t h).2]
    exact Nat.lt_add_of_pos_right (by decide)
  case small =>
    rintro t i ⟨p, _, h⟩ hnz
    refine absurd ?_ hnz
    rw [(honly p t h).2]
    exact hzero _ (Nat.le_refl _) hpool i

end Ept

/-! ### Runs -/

/-- The four indices of an address are its bits 12 to 47. -/
theorem indices_eq_iff (a b : Nat) :
    (bitExtract a 39 9 = bitExtract b 39 9 ∧ bitExtract a 30 9 = bitExtract b 30 9 ∧
      bitExtract a 21 9 = bitExtract b 21 9 ∧ bitExtract a 12 9 = bitExtract b 12 9) ↔
    a / 2 ^ 12 % 2 ^ 36 = b / 2 ^ 12 % 2 ^ 36 := by
  have split : ∀ x : Nat, x / 2 ^ 12 % 2 ^ 36 =
      x / 2 ^ 12 % 2 ^ 9 + 2 ^ 9 * (x / 2 ^ 21 % 2 ^ 9 + 2 ^ 9 * (x / 2 ^ 30 % 2 ^ 9 +
        2 ^ 9 * (x / 2 ^ 39 % 2 ^ 9))) := by
    intro x
    omega
  simp only [bitExtract_eq]
  omega

namespace Session

/-- The tables are in order, and every slot handed out is the leaf of its address. -/
structure Inv (s : Session) : Prop where
  tables : s.ept.Inv
  slots : ∀ x ∈ s.returned, s.Reaches x.1 x.2

variable {s : Session}

theorem Inv.isLeaf (hs : s.Inv) {x : Nat × (Nat × Nat)} (hx : x ∈ s.returned) :
    s.ept.Leaf x.2.1 := ⟨_, rfl, (hs.slots x hx).1⟩

theorem Inv.separate (hs : s.Inv) : s.Separate where
  reached := hs.slots
  shared x hx y hy := by
    obtain ⟨hwx, hix⟩ := hs.slots x hx
    obtain ⟨hwy, hiy⟩ := hs.slots y hy
    rw [← indices_eq_iff]
    constructor
    · intro heq
      rw [heq] at hwx hix
      have hpath := hs.tables.separated _ _ _ (by simp) (by simp) hwx hwy
      simp only [List.cons.injEq, and_true] at hpath
      exact ⟨hpath.1, hpath.2.1, hpath.2.2, hix.symm.trans hiy⟩
    · rintro ⟨h1, h2, h3, h4⟩
      dsimp only [PageTableIndices.fromAddress] at hwx hix hwy hiy
      rw [h1, h2, h3, hwy] at hwx
      exact Prod.ext (some.inj hwx).symm (by rw [hix, hiy, h4])
  leaf x hx := hs.tables.not_inner (hs.isLeaf hx)

theorem Inv.lookup {s s' : Session} (hs : s.Inv) {a : Nat} (h : s.step (.lookup a) = some s') :
    s.Keeps (.lookup a) s' ∧ s'.Inv := by
  have htr := hs.tables.translate a
  obtain ⟨⟨slot, ept'⟩, hr, rfl⟩ := map_eq_some_iff.mp h
  rw [hr] at htr
  obtain ⟨hinv, hext, hwalk, hslot⟩ := htr
  refine ⟨⟨fun t i _ hnz => hext.entries t i hnz, fun t i hleaf _ => hext.leaves t i hleaf⟩,
    hinv, fun x hx => ?_⟩
  rcases List.mem_append.mp hx with hx | hx
  · obtain ⟨hw, hi⟩ := hs.slots x hx
    exact ⟨hext.walks _ _ (by simp) hw, hi⟩
  · rw [List.mem_singleton.mp hx]
    exact ⟨hwalk, hslot⟩

theorem Inv.write (hs : s.Inv) {slot : Nat × Nat} {value : EptEntry}
    (hallowed : s.Allowed (.write slot value)) :
    s.Keeps (.write slot value) { s with ept := s.ept.setEntry slot.1 slot.2 value } ∧
      ({ s with ept := s.ept.setEntry slot.1 slot.2 value } : Session).Inv := by
  obtain ⟨a, ha⟩ := hallowed
  have hleaf := hs.isLeaf ha
  obtain ⟨hinv, hwalks⟩ := hs.tables.setLeaf hleaf slot.2 value
  refine ⟨⟨fun t i hinner _ => ?_, fun t i _ hno => ?_⟩, hinv, fun x hx => ?_⟩
  · refine Ept.setEntry_mem_of_ne _ _ fun hpair => hs.tables.not_inner hleaf ?_
    rw [← congrArg Prod.fst hpair]
    exact hinner
  · exact Ept.setEntry_mem_of_ne _ _ fun hpair => hno value (by rw [hpair])
  · obtain ⟨hw, hi⟩ := hs.slots x hx
    exact ⟨(hwalks _ (by simp)).trans hw, hi⟩

theorem Inv.soundRun : ∀ {events : List Event} {s : Session}, s.Inv → SoundRun events s
  | [], _, hs => hs.separate
  | e :: es, s, hs => by
    refine ⟨hs.separate, fun hallowed => ?_⟩
    cases hstep : s.step e with
    | none =>
      cases e with
      | write slot value => cases hstep
      | lookup a =>
        have htr := hs.tables.translate a
        rw [step, Option.map_eq_none_iff] at hstep
        rw [hstep] at htr
        exact htr
    | some s' =>
      cases e with
      | lookup a =>
        obtain ⟨hkeeps, hs'⟩ := hs.lookup hstep
        exact ⟨hkeeps, Inv.soundRun hs'⟩
      | write slot value =>
        cases hstep
        obtain ⟨hkeeps, hs'⟩ := hs.write hallowed
        exact ⟨hkeeps, Inv.soundRun hs'⟩

end Session

/-- **Every run of lookups and leaf writes on a fresh extended page table is sound.** -/
theorem ept_soundRun (tables : Nat) (mem : Nat → Nat → EptEntry) (halign : 4096 ∣ tables)
    (hlow : Ept.physicalMemoryOffset ≤ tables) (hhigh : tables + Ept.numTables * 4096 ≤ 2 ^ 64)
    (hzero : ∀ t, tables - Ept.physicalMemoryOffset ≤ t →
      t < tables - Ept.physicalMemoryOffset + Ept.numTables * 4096 → ∀ i, mem t i = 0)
    (events : List Event) :
    ∃ ept, Ept.new tables mem = some ept ∧ Session.SoundRun events ⟨ept, []⟩ := by
  obtain ⟨ept, hnew, hinv⟩ := Ept.Inv.new halign hlow hhigh hzero
  exact ⟨ept, hnew, Session.Inv.soundRun ⟨hinv, fun _ h => by cases h⟩⟩

/-- A pool at the start of physical memory: one lookup, a write through it, another lookup. -/
theorem ept_soundRun_first : ∃ ept, Ept.new Ept.physicalMemoryOffset (fun _ _ => 0) = some ept ∧
      Session.SoundRun [.lookup 0x1000, .write (0x3000, 1) 7, .lookup 0x2000] ⟨ept, []⟩ :=
  ept_soundRun _ _ (by decide) (Nat.le_refl _) (by decide) (fun _ _ _ _ => rfl) _

end Icewind.Kernel
