import Icewind.Kernel.GuestMappings

/-!
# Write protection against self-modifying code

Model of `smc_protect` and `release_smc_protection` in `brig/kernel/src/arch/x86/memory.rs`.  Protecting clears
`WRITABLE` in the guest half of the top-level table only; a release that walks through a protected entry pushes the
protection down to the table below.

* `smcProtect`, `walkTableSmcReset`, `releaseSmcProtection` — as in the source; `none` is a panic.
* `Mapped` — the page is present at all four levels.  `Tree` — a table has one place.
* `AllWritable` — all entries of a path are writable.
* `walkTableSmcReset_spec` — a level of the walk changes no page: what it makes writable it protects below.
* `writable_iff_released` — a page is writable exactly if it was released after the last protection.
-/

namespace Icewind.Kernel

open List Option

def PageTableEntry.setWritable (e : PageTableEntry) (writable : Bool) : PageTableEntry :=
  { e with flags := { e.flags with writable := writable } }

namespace VirtualMemoryArea

/-! ### The calls -/

/-- `clear_all_writeable_bits`. -/
def clearAllWriteableBits (v : VirtualMemoryArea) (t : Nat) : VirtualMemoryArea :=
  v.setTable t fun i => (v.mem t i).setWritable false

/-- `smc_protect`: the first 256 entries of the top-level table. -/
def smcProtect (v : VirtualMemoryArea) : VirtualMemoryArea :=
  v.setTable v.root fun i => if i < 0x100 then (v.mem v.root i).setWritable false else v.mem v.root i

/-- `walk_table_smc_reset`: the table below an entry.  A protected entry is made writable again, and the table below it
is protected. -/
def walkTableSmcReset (supply : Nat → Nat) (v : VirtualMemoryArea) (table index : Nat) :
    Option (Nat × VirtualMemoryArea) :=
  let entry := v.mem table index
  if entry.flags.writable then
    if entry.flags.hugePage then none else some (entry.addr, v)
  else if entry.isUnused then
    let (frame, v) := v.allocateFrame supply
    some (frame, v.setEntry table index ⟨frame, ⟨true, true, false, 0⟩⟩)
  else if entry.flags.hugePage then none
  else some (entry.addr, (v.setEntry table index (entry.setWritable true)).clearAllWriteableBits entry.addr)

/-- `release_smc_protection`. -/
def releaseSmcProtection (supply : Nat → Nat) (v : VirtualMemoryArea) (address : Nat) : Option VirtualMemoryArea :=
  (v.walkTableSmcReset supply v.root (bitExtract address 39 9)).bind fun r =>
    (r.2.walkTableSmcReset supply r.1 (bitExtract address 30 9)).bind fun r =>
      (r.2.walkTableSmcReset supply r.1 (bitExtract address 21 9)).map fun r =>
        r.2.setEntry r.1 (bitExtract address 12 9) ((r.2.mem r.1 (bitExtract address 12 9)).setWritable true)

/-- Is the page of the address writable at all four levels? -/
def writable (v : VirtualMemoryArea) (address : Nat) : Bool :=
  let l4 := v.mem v.root (bitExtract address 39 9)
  let l3 := v.mem l4.addr (bitExtract address 30 9)
  let l2 := v.mem l3.addr (bitExtract address 21 9)
  let l1 := v.mem l2.addr (bitExtract address 12 9)
  l4.flags.writable && l3.flags.writable && l2.flags.writable && l1.flags.writable

end VirtualMemoryArea

inductive SmcCall where
  | protect
  | release (address : Nat)

variable {a : Nat}

variable (supply : Nat → Nat)

namespace VirtualMemoryArea

def smcCall (supply : Nat → Nat) (v : VirtualMemoryArea) : SmcCall → Option VirtualMemoryArea
  | .protect => some v.smcProtect
  | .release address => v.releaseSmcProtection supply address

def smcCalls (supply : Nat → Nat) (v : VirtualMemoryArea) (calls : List SmcCall) : Option VirtualMemoryArea :=
  calls.foldlM (smcCall supply) v

/-! ### The tree -/

/-- The tables of an address, top level first. -/
def tablePath (address : Nat) : List Nat :=
  [bitExtract address 39 9, bitExtract address 30 9, bitExtract address 21 9]

/-- All indices of an address. -/
def pagePath (address : Nat) : List Nat := tablePath address ++ [bitExtract address 12 9]

/-- A table has one place among the present tables of the guest half. -/
def Tree (v : VirtualMemoryArea) : Prop := Tables.Separated v.view PageTableEntry.nextPresent v.root 3

/-- **A guest address whose 4 KiB page is mapped**: its entries are present, and those of the tables are not huge. -/
structure Mapped (v : VirtualMemoryArea) (address : Nat) : Prop where
  guest : address < 2 ^ 47
  leaf : ∃ t, v.walkPresent (tablePath address) = some t ∧ (v.view t (bitExtract address 12 9)).flags.present = true
  small : ∀ r i t, r ++ [i] <+: tablePath address → v.walkPresent r = some t → (v.view t i).flags.hugePage = false

/-- Only `WRITABLE` has changed. -/
structure SameTree (v v' : VirtualMemoryArea) : Prop where
  root_eq : v'.root = v.root
  addr : ∀ t i, (v'.view t i).addr = (v.view t i).addr
  present : ∀ t i, (v'.view t i).flags.present = (v.view t i).flags.present
  hugePage : ∀ t i, (v'.view t i).flags.hugePage = (v.view t i).flags.hugePage

variable (v : VirtualMemoryArea)

theorem SameTree.refl : SameTree v v :=
  ⟨rfl, fun _ _ => rfl, fun _ _ => rfl, fun _ _ => rfl⟩

variable {v : VirtualMemoryArea}

theorem SameTree.trans {v' v'' : VirtualMemoryArea} (h : SameTree v v') (h' : SameTree v' v'') : SameTree v v'' :=
  ⟨h'.root_eq.trans h.root_eq, fun t i => (h'.addr t i).trans (h.addr t i),
    fun t i => (h'.present t i).trans (h.present t i), fun t i => (h'.hugePage t i).trans (h.hugePage t i)⟩

variable {v' : VirtualMemoryArea}

theorem SameTree.walkPresent (h : SameTree v v') (q : List Nat) : v'.walkPresent q = v.walkPresent q := by
  unfold VirtualMemoryArea.walkPresent
  rw [h.root_eq]
  refine Tables.walk_congr (fun _ f _ _ i => ?_) q (Nat.le_refl q.length)
  unfold PageTableEntry.nextPresent
  rw [h.addr, h.present]

theorem SameTree.tree (h : SameTree v v') (ht : v.Tree) : v'.Tree := by
  intro p q g hp hq hpg hqg
  exact ht p q g hp hq ((h.walkPresent p).symm.trans hpg) ((h.walkPresent q).symm.trans hqg)

theorem SameTree.mapped (h : SameTree v v') (ha : v.Mapped a) : v'.Mapped a := by
  refine ⟨ha.guest, ?_, fun r i t hr ht => ?_⟩
  · obtain ⟨t, ht, hp⟩ := ha.leaf
    exact ⟨t, (h.walkPresent _).trans ht, (h.present t _).trans hp⟩
  · rw [h.walkPresent] at ht
    exact (h.hugePage t i).trans (ha.small r i t hr ht)

variable {q : List Nat} {t i : Nat}

theorem walkPresent_concat (ht : v.walkPresent q = some t) (hp : (v.view t i).flags.present = true) :
    v.walkPresent (q ++ [i]) = some (v.view t i).addr := by
  unfold walkPresent at ht ⊢
  rw [Tables.walk_concat, ht, bind_some, PageTableEntry.nextPresent, if_pos hp]

/-! ### Writable paths -/

/-- All entries of the path are writable. -/
def AllWritable (v : VirtualMemoryArea) (p : List Nat) : Prop :=
  ∀ r i s t, p = r ++ i :: s → r.length ≤ 3 → v.walkPresent r = some t → (v.view t i).flags.writable = true

theorem AllWritable.concat (h : v.AllWritable q) (ht : v.walkPresent q = some t)
    (hw : (v.view t i).flags.writable = true) : v.AllWritable (q ++ [i]) := by
  intro r j s t' hp hlen ht'
  rcases eq_nil_or_concat s with rfl | ⟨s, x, rfl⟩
  · -- the last entry
    obtain ⟨rfl, hij⟩ := append_inj' hp rfl
    cases hij
    rw [ht] at ht'
    cases ht'
    exact hw
  · have hq : q = r ++ j :: s := by
      have heq : q ++ [i] = (r ++ j :: s) ++ [x] := by rw [hp, concat_eq_append]; simp
      exact (append_inj' heq rfl).1
    exact h r j s t' hq hlen ht'

/-- What a level of the walk does: entry `i` of table `t` was protected and becomes writable, the table `g` below it is
protected, and the rest stays. -/
structure PushedDown (v v' : VirtualMemoryArea) (t i g : Nat) : Prop where
  entry_was : (v.view t i).flags.writable = false
  entry : (v'.view t i).flags.writable = true
  below : ∀ j, (v'.view g j).flags.writable = false
  rest : ∀ t' j, t' ≠ g → (t', j) ≠ (t, i) → (v'.view t' j).flags.writable = (v.view t' j).flags.writable

section Level

variable {v v' : VirtualMemoryArea} {q : List Nat} {t i g : Nat}

section

variable (h : PushedDown v v' t i g) (hs : SameTree v v') (htree : v.Tree) (hq : q.length < 3) (ht : v.walkPresent q = some t) (hg : v.walkPresent (q ++ [i]) = some g)

include h hs htree hq ht hg

/-- Paths that were writable stay so: none of them goes through the entry. -/
theorem PushedDown.keeps {p : List Nat} (hp : v.AllWritable p) :
    v'.AllWritable p := by
  intro r j s t' hpath hlen ht'
  rw [hs.walkPresent] at ht'
  by_cases hpair : (t', j) = (t, i)
  · cases hpair
    exact h.entry
  by_cases hbelow : t' = g
  · -- the path would lead through the protected entry
    subst hbelow
    have hr : r = q ++ [i] := htree r (q ++ [i]) t' hlen (by simp; omega) ht' hg
    have hwas := hp q i (j :: s) t (by rw [hpath, hr]; simp) (by omega) ht
    rw [h.entry_was] at hwas
    cases hwas
  · rw [h.rest t' j hbelow hpair]
    exact hp r j s t' hpath hlen ht'

/-- Paths to a page that were not writable stay so: those through the entry are protected below. -/
theorem PushedDown.reflects {p : List Nat} (hlength : p.length = 4)
    (hp : v'.AllWritable p) : v.AllWritable p := by
  have hprotected : ∀ r j s, p = r ++ j :: s → r.length ≤ 3 → v.walkPresent r ≠ some g := by
    intro r j s hpath hlen hr
    have hw := hp r j s g hpath hlen (by rw [hs.walkPresent]; exact hr)
    rw [h.below j] at hw
    cases hw
  intro r j s t' hpath hlen ht'
  by_cases hpair : (t', j) = (t, i)
  · -- the path goes on to the table below
    obtain ⟨rfl, rfl⟩ := Prod.mk.inj hpair
    have hr : r = q := htree r q t' hlen (by omega) ht' ht
    subst hr
    cases s with
    | nil =>
      rw [hpath] at hlength
      simp at hlength
      omega
    | cons j' s => exact absurd hg (hprotected (r ++ [j]) j' s (by rw [hpath]; simp) (by simp; omega))
  by_cases hbelow : t' = g
  · subst hbelow
    exact absurd ht' (hprotected r j s hpath hlen)
  · rw [← h.rest t' j hbelow hpair]
    exact hp r j s t' hpath hlen (by rw [hs.walkPresent]; exact ht')

end

end Level

/-- **A level of the walk changes no page**, and leaves its own entry writable. -/
theorem walkTableSmcReset_spec (htree : v.Tree) (hq : q.length < 3) (ht : v.walkPresent q = some t)
    (hi : ¬ (t = v.root ∧ 0x100 ≤ i)) (hp : (v.view t i).flags.present = true)
    (hsmall : (v.view t i).flags.hugePage = false) :
    ∃ v', v.walkTableSmcReset supply t i = some ((v.view t i).addr, v') ∧ SameTree v v' ∧
      (v'.view t i).flags.writable = true ∧ (∀ p, v.AllWritable p → v'.AllWritable p) ∧
      ∀ p, p.length = 4 → v'.AllWritable p → v.AllWritable p := by
  have hmem : v.mem t i = v.view t i := by rw [view, if_neg hi]
  have hg : v.walkPresent (q ++ [i]) = some (v.view t i).addr := walkPresent_concat ht hp
  unfold walkTableSmcReset
  rw [hmem]
  generalize hentry : v.view t i = entry at hp hsmall hg
  dsimp only
  split
  · rename_i hw
    rw [hsmall, if_neg Bool.false_ne_true]
    exact ⟨v, rfl, .refl v, hentry ▸ hw, fun _ h => h, fun _ _ h => h⟩
  · rename_i hw
    have hunused : entry.isUnused = false := by
      rw [PageTableEntry.isUnused, decide_eq_false_iff_not]
      rintro rfl
      cases hp
    rw [hunused, if_neg Bool.false_ne_true, hsmall, if_neg Bool.false_ne_true]
    have hne : ∀ r, r.length ≤ 3 → r ≠ q ++ [i] → v.walkPresent r ≠ some entry.addr := fun r hr hne hr' =>
      hne (htree r (q ++ [i]) entry.addr hr (by simp; omega) hr' hg)
    have hgt : entry.addr ≠ t := by
      rintro heq
      exact hne q (by omega) (fun h => by simpa using congrArg List.length h) (by rw [ht, heq])
    have hgroot : entry.addr ≠ v.root := by
      rintro heq
      exact hne [] (by simp) (fun h => by simpa using congrArg List.length h) (by rw [heq]; rfl)
    have hview : ∀ t' j, ((v.setEntry t i (entry.setWritable true)).clearAllWriteableBits entry.addr).view t' j =
          if t' = entry.addr then (v.view t' j).setWritable false
          else if (t', j) = (t, i) then entry.setWritable true else v.view t' j := by
      intro t' j
      unfold clearAllWriteableBits
      rw [view_setTable _ _ (by exact hgroot), view_setEntry v _ hi]
      split
      · rename_i heq
        rw [heq, view, if_neg fun h => hgroot h.1]
        unfold setEntry
        dsimp only
        rw [Function.update_of_ne hgt]
      · rfl
    have hsame : SameTree v ((v.setEntry t i (entry.setWritable true)).clearAllWriteableBits entry.addr) := by
      refine ⟨rfl, fun t' j => ?_, fun t' j => ?_, fun t' j => ?_⟩
      all_goals
        rw [hview]
        split
        · rfl
        · split
          · rename_i hpair
            cases hpair
            rw [hentry]
            rfl
          · rfl
    have hpushed : PushedDown v ((v.setEntry t i (entry.setWritable true)).clearAllWriteableBits entry.addr) t i
        entry.addr := by
      refine ⟨by rw [hentry]; simpa using hw, ?_, fun j => ?_, fun t' j hne hpair => ?_⟩
      · rw [hview, if_neg hgt.symm, if_pos rfl]
        rfl
      · rw [hview, if_pos rfl]
        rfl
      · rw [hview, if_neg hne, if_neg hpair]
    exact ⟨_, rfl, hsame, hpushed.entry, fun p => hpushed.keeps hsame htree hq ht hg,
      fun p => hpushed.reflects hsame htree hq ht hg⟩

/-- **Releasing a leaf makes its page writable**, if the tables above it are. -/
theorem setLeaf_spec (htree : v.Tree) {t : Nat} (i : Nat) (hq : q.length = 3) (ht : v.walkPresent q = some t)
    (habove : v.AllWritable q) :
    SameTree v (v.setEntry t i ((v.mem t i).setWritable true)) ∧ ∀ p, p.length = 4 →
        ((v.setEntry t i ((v.mem t i).setWritable true)).AllWritable p ↔ v.AllWritable p ∨ p = q ++ [i]) := by
  have htroot : t ≠ v.root := by
    rintro rfl
    have hnil : q = [] := htree q [] v.root (by omega) (by simp) ht rfl
    rw [hnil] at hq
    cases hq
  have hmem : v.mem t i = v.view t i := by rw [view, if_neg fun h => htroot h.1]
  have hview := view_setEntry v ((v.mem t i).setWritable true) (t := t) (i := i) fun h => htroot h.1
  rw [hmem] at hview ⊢
  have hsame : SameTree v (v.setEntry t i ((v.view t i).setWritable true)) := by
    refine ⟨rfl, fun t' j => ?_, fun t' j => ?_, fun t' j => ?_⟩
    all_goals
      rw [hview]
      split
      · rename_i hpair
        cases hpair
        rfl
      · rfl
  have hkeeps : ∀ p, v.AllWritable p → (v.setEntry t i ((v.view t i).setWritable true)).AllWritable p := by
    intro p hp r j s t' hpath hlen ht'
    rw [hsame.walkPresent] at ht'
    rw [hview]
    split
    · rfl
    · exact hp r j s t' hpath hlen ht'
  refine ⟨hsame, fun p hlength => ⟨fun hp => ?_, fun hp => ?_⟩⟩
  · by_cases hpath : p = q ++ [i]
    · exact .inr hpath
    · refine .inl fun r j s t' hp' hlen ht' => ?_
      have hw := hp r j s t' hp' hlen (by rw [hsame.walkPresent]; exact ht')
      rw [hview] at hw
      split at hw
      · -- another path does not end in this entry
        rename_i hpair
        obtain ⟨rfl, rfl⟩ := Prod.mk.inj hpair
        have hr : r = q := htree r q t' hlen (by omega) ht' ht
        subst hr
        have hs : s = [] := by
          rw [hp', length_append, length_cons, hq] at hlength
          exact length_eq_zero_iff.mp (by omega)
        exact absurd (by rw [hp', hs]) hpath
      · exact hw
  · rcases hp with hp | rfl
    · exact hkeeps p hp
    · exact (hkeeps q habove).concat ((hsame.walkPresent q).trans ht) (by rw [hview, if_pos rfl]; rfl)

/-- A table on a path is named by a present entry of the table above it. -/
theorem walkPresent_concat_eq_some {i g : Nat} (h : v.walkPresent (q ++ [i]) = some g) :
    ∃ t, v.walkPresent q = some t ∧ (v.view t i).flags.present = true ∧ (v.view t i).addr = g := by
  unfold walkPresent at h ⊢
  rw [Tables.walk_concat] at h
  obtain ⟨t, ht, hnext⟩ := bind_eq_some_iff.mp h
  unfold PageTableEntry.nextPresent at hnext
  split at hnext
  · rename_i hp
    exact ⟨t, ht, hp, some.inj hnext⟩
  · cases hnext

theorem Tree.ne_root (htree : v.Tree) {t : Nat} (hq : q.length ≤ 3) (hne : q ≠ []) (ht : v.walkPresent q = some t) :
    t ≠ v.root := by
  rintro rfl
  exact hne (htree q [] v.root hq (by simp) ht rfl)

/-- **A release makes one page writable.** -/
theorem releaseSmcProtection_spec (htree : v.Tree) (ha : v.Mapped a) :
    ∃ v', v.releaseSmcProtection supply a = some v' ∧ SameTree v v' ∧
      ∀ p, p.length = 4 → (v'.AllWritable p ↔ v.AllWritable p ∨ p = pagePath a) := by
  obtain ⟨l1, hl1, -⟩ := ha.leaf
  obtain ⟨l2, hl2, hp2, hn2⟩ := walkPresent_concat_eq_some (q := [bitExtract a 39 9, bitExtract a 30 9]) hl1
  obtain ⟨l3, hl3, hp3, hn3⟩ := walkPresent_concat_eq_some (q := [bitExtract a 39 9]) hl2
  obtain ⟨l4, hl4, hp4, hn4⟩ := walkPresent_concat_eq_some (q := []) hl3
  obtain rfl : v.root = l4 := some.inj hl4
  have hi := index_lt ha.guest
  -- the tables and entries of the address are those of the first state all the way
  obtain ⟨v1, h1, hs1, hw1, hk1, hr1⟩ := walkTableSmcReset_spec supply htree (q := [])
    (by simp) hl4 (by omega) hp4 (ha.small [] _ _ ⟨_, rfl⟩ hl4)
  have ht1 := hs1.tree htree
  have ha1 := hs1.mapped ha
  have hl31 := (hs1.walkPresent _).trans hl3
  obtain ⟨v2, h2, hs2, hw2, hk2, hr2⟩ := walkTableSmcReset_spec supply ht1 (q := [bitExtract a 39 9])
    (by simp) hl31 (fun h => ht1.ne_root (by simp) (by simp) hl31 h.1) ((hs1.present _ _).trans hp3)
    (ha1.small [_] _ _ ⟨_, rfl⟩ hl31)
  have ht2 := hs2.tree ht1
  have ha2 := hs2.mapped ha1
  have hs12 := hs1.trans hs2
  have hl22 := (hs12.walkPresent _).trans hl2
  obtain ⟨v3, h3, hs3, hw3, hk3, hr3⟩ := walkTableSmcReset_spec supply ht2
    (q := [bitExtract a 39 9, bitExtract a 30 9]) (by simp) hl22 (fun h => ht2.ne_root (by simp) (by simp) hl22 h.1)
    ((hs12.present _ _).trans hp2) (ha2.small [_, _] _ _ ⟨_, rfl⟩ hl22)
  have hs13 := hs12.trans hs3
  have hl13 := (hs13.walkPresent _).trans hl1
  have habove : v3.AllWritable (tablePath a) := by
    have hnil : v1.AllWritable [] := fun r i s t h => absurd h (by simp)
    have hone := hnil.concat ((hs1.walkPresent []).trans hl4) hw1
    have htwo := (hk2 _ hone).concat ((hs2.walkPresent _).trans hl31) hw2
    exact (hk3 _ htwo).concat ((hs3.walkPresent _).trans hl22) hw3
  obtain ⟨hs4, hiff⟩ := setLeaf_spec (hs3.tree ht2) (bitExtract a 12 9) rfl hl13 habove
  refine ⟨_, ?_, hs13.trans hs4, fun p hp => ?_⟩
  · unfold releaseSmcProtection
    rw [h1, bind_some]
    rw [hn4, h2, bind_some]
    rw [hs1.addr, hn3, h3]
    dsimp only [map_some]
    rw [hs12.addr, hn2]
  · rw [hiff p hp]
    refine or_congr_left ⟨fun h => ?_, fun h => ?_⟩
    · exact hr1 p hp (hr2 p hp (hr3 p hp h))
    · exact hk3 p (hk2 p (hk1 p h))

/-- **After a protection no page is writable.** -/
theorem smcProtect_spec : SameTree v v.smcProtect ∧ ∀ p, p ≠ [] → ¬ v.smcProtect.AllWritable p := by
  have hview : ∀ t i, v.smcProtect.view t i = if t = v.root then (v.view t i).setWritable false else v.view t i := by
    intro t i
    unfold view smcProtect setTable
    dsimp only
    by_cases ht : t = v.root
    · subst ht
      rw [if_pos rfl, Function.update_self]
      by_cases hi : 0x100 ≤ i
      · rw [if_pos ⟨rfl, hi⟩, if_pos ⟨rfl, hi⟩]
        rfl
      · have hlow : i < 0x100 := Nat.lt_of_not_le hi
        rw [if_neg (fun h => hi h.2), if_pos hlow, if_neg (fun h => hi h.2)]
    · rw [if_neg ht, if_neg (fun h => ht h.1), if_neg (fun h => ht h.1), Function.update_of_ne ht]
  refine ⟨⟨rfl, fun t i => ?_, fun t i => ?_, fun t i => ?_⟩, fun p hp hall => ?_⟩
  · rw [hview]
    split <;> rfl
  · rw [hview]
    split <;> rfl
  · rw [hview]
    split <;> rfl
  · obtain ⟨i, p, rfl⟩ := exists_cons_of_ne_nil hp
    have hw := hall [] i p v.root rfl (by simp) rfl
    rw [hview, if_pos rfl] at hw
    cases hw

/-- The walk of a mapped page looks at the entries of its path. -/
theorem Mapped.writable_iff (htree : v.Tree) (ha : v.Mapped a) : v.writable a = true ↔ v.AllWritable (pagePath a) := by
  obtain ⟨l1, hl1, -⟩ := ha.leaf
  obtain ⟨l2, hl2, hp2, hn2⟩ := walkPresent_concat_eq_some (q := [bitExtract a 39 9, bitExtract a 30 9]) hl1
  obtain ⟨l3, hl3, hp3, hn3⟩ := walkPresent_concat_eq_some (q := [bitExtract a 39 9]) hl2
  obtain ⟨l4, hl4, hp4, hn4⟩ := walkPresent_concat_eq_some (q := []) hl3
  obtain rfl : v.root = l4 := some.inj hl4
  have hi := index_lt ha.guest
  have hroot : v.mem v.root (bitExtract a 39 9) = v.view v.root (bitExtract a 39 9) := by
    rw [view, if_neg (fun h => by omega)]
  have hmem : ∀ {q t} (i : Nat), q.length ≤ 3 → q ≠ [] → v.walkPresent q = some t → v.mem t i = v.view t i := by
    intro q t i hq hne ht
    rw [view, if_neg fun h => htree.ne_root hq hne ht h.1]
  unfold writable
  dsimp only
  rw [hroot, hn4, hmem _ (by simp) (by simp) hl3, hn3, hmem _ (by simp) (by simp) hl2, hn2,
    hmem _ (by simp [tablePath]) (by simp [tablePath]) hl1, Bool.and_eq_true_iff, Bool.and_eq_true_iff,
    Bool.and_eq_true_iff]
  constructor
  · rintro ⟨⟨⟨hw4, hw3⟩, hw2⟩, hw1⟩
    have hnil : v.AllWritable [] := fun r i s t h => absurd h (by simp)
    exact (((hnil.concat hl4 hw4).concat hl3 hw3).concat hl2 hw2).concat hl1 hw1
  · intro hall
    exact ⟨⟨⟨hall [] _ _ _ rfl (by simp) hl4, hall [_] _ _ _ rfl (by simp) hl3⟩,
      hall [_, _] _ _ _ rfl (by simp) hl2⟩, hall (tablePath a) _ [] _ rfl (by simp [tablePath]) hl1⟩

theorem pagePath_eq_iff {a b : Nat} (ha : a < 2 ^ 47) (hb : b < 2 ^ 47) :
    pagePath a = pagePath b ↔ a / 4096 = b / 4096 := by
  have hpage := indices_eq_iff a b
  have hsmall : ∀ x : Nat, x < 2 ^ 47 → x / 2 ^ 12 % 2 ^ 36 = x / 4096 := by
    intro x hx
    omega
  rw [hsmall a ha, hsmall b hb] at hpage
  rw [← hpage]
  unfold pagePath tablePath
  simp

end VirtualMemoryArea

/-! ### Runs -/

/-- **The page was released after the last protection.** -/
def ReleasedSince (calls : List SmcCall) (page : Nat) : Prop :=
  ∃ before after address, calls = before ++ .protect :: after ∧ .protect ∉ after ∧ .release address ∈ after ∧
    address / 4096 = page

variable {calls : List SmcCall}

theorem lastProtect (h : .protect ∈ calls) :
    ∃ before after, calls = before ++ .protect :: after ∧ .protect ∉ after := by
  obtain ⟨after, before, heq, hlast⟩ := eq_append_cons_of_mem (mem_reverse.mpr h)
  refine ⟨before.reverse, after.reverse, ?_, fun h => hlast (mem_reverse.mp h)⟩
  rw [← reverse_reverse calls, heq]
  simp

theorem not_releasedSince_protect (calls : List SmcCall) (page : Nat) : ¬ ReleasedSince (calls ++ [.protect]) page := by
  rintro ⟨before, after, address, heq, hlast, hmem, -⟩
  rcases eq_nil_or_concat after with rfl | ⟨after, c, rfl⟩
  · cases hmem
  · rw [concat_eq_append] at heq hlast
    have happ : calls ++ [.protect] = (before ++ .protect :: after) ++ [c] := heq.trans (by simp)
    have hc := (append_inj' happ rfl).2
    cases hc
    simp at hlast

theorem releasedSince_release (hcalls : .protect ∈ calls) (address page : Nat) :
    ReleasedSince (calls ++ [.release address]) page ↔ ReleasedSince calls page ∨ address / 4096 = page := by
  constructor
  · rintro ⟨before, after, b, heq, hlast, hmem, hpage⟩
    rcases eq_nil_or_concat after with rfl | ⟨after, c, rfl⟩
    · cases hmem
    · rw [concat_eq_append] at heq hlast hmem
      have happ : calls ++ [.release address] = (before ++ .protect :: after) ++ [c] := heq.trans (by simp)
      obtain ⟨hcalls, hc⟩ := append_inj' happ rfl
      cases hc
      rcases mem_append.mp hmem with hmem | hmem
      · exact .inl ⟨before, after, b, hcalls, fun h => hlast (mem_append_left _ h), hmem, hpage⟩
      · cases mem_singleton.mp hmem
        exact .inr hpage
  · rintro (⟨before, after, b, heq, hlast, hmem, hpage⟩ | hpage)
    · refine ⟨before, after ++ [.release address], b, by rw [heq]; simp, fun h => ?_, mem_append_left _ hmem, hpage⟩
      rcases mem_append.mp h with h | h
      · exact hlast h
      · cases mem_singleton.mp h
    · obtain ⟨before, after, heq, hlast⟩ := lastProtect hcalls
      refine ⟨before, after ++ [.release address], address, by rw [heq]; simp, fun h => ?_,
        mem_append_right _ mem_cons_self, hpage⟩
      rcases mem_append.mp h with h | h
      · exact hlast h
      · cases mem_singleton.mp h

/-- A run of calls keeps the tree, and once there was a protection the writable pages are those released since. -/
theorem smcCalls_spec {v : VirtualMemoryArea} (htree : v.Tree) (calls : List SmcCall)
    (hcalls : ∀ a, .release a ∈ calls → v.Mapped a) :
    ∃ v', v.smcCalls supply calls = some v' ∧ v.SameTree v' ∧ (.protect ∈ calls → ∀ a, v.Mapped a →
        (v'.AllWritable (VirtualMemoryArea.pagePath a) ↔ ReleasedSince calls (a / 4096))) := by
  induction calls using List.reverseRecOn with
  | nil => exact ⟨v, rfl, .refl v, fun h => absurd h not_mem_nil⟩
  | append_singleton calls c ih =>
    obtain ⟨v1, hrun, hsame, hiff⟩ := ih fun a ha => hcalls a (mem_append_left _ ha)
    have hstep : v.smcCalls supply (calls ++ [c]) = v1.smcCall supply c := by
      unfold VirtualMemoryArea.smcCalls at hrun ⊢
      rw [foldlM_append, hrun, bind_eq_bind, bind_some, foldlM_cons]
      cases v1.smcCall supply c <;> rfl
    rw [hstep]
    cases c with
    | protect =>
      obtain ⟨hprotected, hnone⟩ := v1.smcProtect_spec
      refine ⟨v1.smcProtect, rfl, hsame.trans hprotected, fun _ a _ => ?_⟩
      exact iff_of_false (hnone _ nofun) (not_releasedSince_protect calls _)
    | release b =>
      have hb := hcalls b (mem_append_right _ mem_cons_self)
      obtain ⟨v2, hrelease, hsame2, hpaths⟩ :=
        VirtualMemoryArea.releaseSmcProtection_spec supply (hsame.tree htree) (hsame.mapped hb)
      refine ⟨v2, hrelease, hsame.trans hsame2, fun hprotect a ha => ?_⟩
      have hprotect : .protect ∈ calls := (mem_append.mp hprotect).resolve_right fun h => by
        cases mem_singleton.mp h
      rw [hpaths _ rfl, hiff hprotect a ha, releasedSince_release hprotect,
        VirtualMemoryArea.pagePath_eq_iff ha.guest hb.guest, eq_comm (a := a / 4096)]

/-- **A mapped guest page is writable at all four levels exactly if it was released after the last protection.**  No
call panics. -/
theorem writable_iff_released (supply : Nat → Nat) {v : VirtualMemoryArea} (htree : v.Tree) (calls : List SmcCall)
    (hcalls : ∀ a, .release a ∈ calls → v.Mapped a) (hprotect : .protect ∈ calls) :
    ∃ v', v.smcCalls supply calls = some v' ∧
      ∀ a, v.Mapped a → (v'.writable a = true ↔ ReleasedSince calls (a / 4096)) := by
  obtain ⟨v', hrun, hsame, hiff⟩ := smcCalls_spec supply htree calls hcalls
  refine ⟨v', hrun, fun a ha => ?_⟩
  rw [(hsame.mapped ha).writable_iff (hsame.tree htree), hiff hprotect a ha]

/-- One table on each level, and two neighbouring pages. -/
def twoPages : VirtualMemoryArea where
  root := 0
  mem t i :=
    if t < 3 ∧ i = 0 then ⟨t + 1, ⟨true, true, false, 0⟩⟩
    else if t = 3 ∧ (i = 1 ∨ i = 2) then ⟨100 + i, ⟨true, true, false, 0⟩⟩
    else .zero
  allocated := 4

theorem twoPages_walk (p : List Nat) (g : Nat) (hp : p.length ≤ 3) (h : twoPages.walkPresent p = some g) :
    g = p.length ∧ p = List.replicate p.length 0 := by
  induction p using List.reverseRecOn generalizing g with
  | nil =>
    cases h
    exact ⟨rfl, rfl⟩
  | append_singleton p i ih =>
    rw [length_append, length_singleton] at hp
    obtain ⟨t, ht, hpresent, rfl⟩ := VirtualMemoryArea.walkPresent_concat_eq_some h
    obtain ⟨rfl, hzeros⟩ := ih t (by omega) ht
    have hview : twoPages.view p.length i = twoPages.mem p.length i := by
      unfold VirtualMemoryArea.view
      split
      · rename_i hhigh
        rw [VirtualMemoryArea.view, if_pos hhigh] at hpresent
        cases hpresent
      · rfl
    rw [hview] at hpresent ⊢
    unfold twoPages at hpresent ⊢
    dsimp only at hpresent ⊢
    by_cases hi : i = 0
    · subst hi
      rw [if_pos ⟨by omega, rfl⟩, length_append, length_singleton]
      exact ⟨rfl, by rw [replicate_succ', ← hzeros]⟩
    · rw [if_neg fun h => hi h.2, if_neg fun h => by omega] at hpresent
      cases hpresent

theorem twoPages_tree : twoPages.Tree := by
  intro p q g hp hq hpg hqg
  obtain ⟨hpg, hpz⟩ := twoPages_walk p g hp hpg
  obtain ⟨hqg, hqz⟩ := twoPages_walk q g hq hqg
  rw [hpz, hqz, ← hpg, ← hqg]

theorem twoPages_mapped (ha : a = 0x1000 ∨ a = 0x2000) : twoPages.Mapped a := by
  have hpath : VirtualMemoryArea.tablePath a = [0, 0, 0] := by rcases ha with rfl | rfl <;> rfl
  refine ⟨by rcases ha with rfl | rfl <;> decide, ⟨3, by rw [hpath]; rfl, by rcases ha with rfl | rfl <;> rfl⟩,
    fun r i t _ _ => ?_⟩
  unfold VirtualMemoryArea.view twoPages
  dsimp only
  repeat' split
  all_goals rfl

theorem writable_iff_released_twoPages :
    ∃ v, twoPages.smcCalls (fun k => k + 200) [.protect, .release 0x1000] = some v ∧
      v.writable 0x1000 = true ∧ v.writable 0x2000 = false := by
  obtain ⟨v, hrun, hiff⟩ := writable_iff_released (fun k => k + 200) twoPages_tree [.protect, .release 0x1000]
    (fun a ha => by
      simp only [mem_cons, not_mem_nil, or_false, reduceCtorEq, false_or, SmcCall.release.injEq] at ha
      exact twoPages_mapped (.inl ha)) mem_cons_self
  refine ⟨v, hrun, (hiff _ (twoPages_mapped (.inl rfl))).mpr ?_, ?_⟩
  · exact ⟨[], [.release 0x1000], 0x1000, rfl, by simp, mem_cons_self, rfl⟩
  · refine Bool.eq_false_iff.mpr fun h => ?_
    have hreleased := (releasedSince_release (mem_singleton_self SmcCall.protect) 0x1000 _).mp
      ((hiff _ (twoPages_mapped (.inr rfl))).mp h)
    rcases hreleased with hreleased | hpage
    · exact not_releasedSince_protect [] _ hreleased
    · cases hpage

end Icewind.Kernel
