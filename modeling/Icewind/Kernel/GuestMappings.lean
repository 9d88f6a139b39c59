import Icewind.Kernel.Ept

/-!
# Guest mappings

Model of the lazy invalidation in `brig/kernel/src/arch/x86/memory.rs`.  Invalidating the guest half
only clears `PRESENT` in the upper half of the top-level table; a later mapping that walks through a
stale entry clears `PRESENT` in the table below.

* `walkAndResetTable`, `mapPagePropagateInvalidation`, `invalidateGuestMappings` — as in the source;
  `none` is a panic.
* `look` — the frame of a page whose entries are `PRESENT` at all four levels.
* `walkAndResetTable_spec` — a level of the walk changes no `look`: what it makes reachable it clears.
* `look_eq_mapped` — a page is present exactly if it was mapped after the last invalidation, and then
  its leaf names the frame of the latest mapping.
-/

namespace Icewind.Kernel

open Function Option

/-- `PageTableFlags`, the flags the code looks at and the others. -/
structure PageTableFlags where
  present : Bool
  writable : Bool
  hugePage : Bool
  others : Nat
  deriving DecidableEq

def PageTableFlags.empty : PageTableFlags := ⟨false, false, false, 0⟩

/-- A page-table entry by its two accessors. -/
structure PageTableEntry where
  addr : Nat
  flags : PageTableFlags
  deriving DecidableEq

namespace PageTableEntry

def zero : PageTableEntry := ⟨0, .empty⟩

def isUnused (e : PageTableEntry) : Bool := e = zero

def setPresent (e : PageTableEntry) (present : Bool) : PageTableEntry :=
  { e with flags := { e.flags with present := present } }

/-- The table an entry names, stale or not. -/
def next (e : PageTableEntry) : Option Nat := if e.isUnused then none else some e.addr

/-- The table a present entry names. -/
def nextPresent (e : PageTableEntry) : Option Nat := if e.flags.present then some e.addr else none

variable {e : PageTableEntry}

theorem next_of_nextPresent {t : Nat} (h : e.nextPresent = some t) : e.next = some t := by
  unfold nextPresent at h
  split at h
  · rename_i hp
    have hused : e.isUnused = false := by
      rw [isUnused, decide_eq_false_iff_not]
      rintro rfl
      cases hp
    rw [next, hused, ← h]
    rfl
  · cases h

theorem next_of_writable (h : e.flags.writable = true) : e.next = some e.addr := by
  have hused : e.isUnused = false := by
    rw [isUnused, decide_eq_false_iff_not]
    rintro rfl
    cases h
  rw [next, hused]
  rfl

/-- What an entry of an inner table is once it is in use: writable, so that it stays in use when
`PRESENT` is cleared, and not huge. -/
def Inner (e : PageTableEntry) : Prop :=
  e.isUnused = false → e.flags.writable = true ∧ e.flags.hugePage = false

/-- An entry of an inner table is marked present only when it is in use; then the mark does not
change the table it names. -/
theorem Inner.next_setPresent (h : e.Inner) {b : Bool} (hb : e.isUnused = false ∨ b = false) :
    (e.setPresent b).next = e.next := by
  cases hu : e.isUnused with
  | true =>
    have hzero : e = zero := of_decide_eq_true hu
    have hfalse : b = false := hb.resolve_left (by rw [hu]; simp)
    rw [hzero, hfalse]
    rfl
  | false =>
    have hw := (h hu).1
    rw [next_of_writable hw, next_of_writable (e := e.setPresent b) hw]
    rfl

theorem Inner.setPresent (h : e.Inner) {b : Bool} (hb : e.isUnused = false ∨ b = false) :
    (e.setPresent b).Inner := by
  intro hused
  cases hu : e.isUnused with
  | true =>
    have hzero : e = zero := of_decide_eq_true hu
    have hfalse : b = false := hb.resolve_left (by rw [hu]; simp)
    rw [hzero, hfalse] at hused
    cases hused
  | false => exact h hu

end PageTableEntry

open PageTableEntry

/-- `VirtualMemoryArea`: the top-level table, all tables by frame, and how many frames have been
allocated. -/
structure VirtualMemoryArea where
  root : Nat
  mem : Nat → Nat → PageTableEntry
  allocated : Nat

namespace VirtualMemoryArea

def setEntry (v : VirtualMemoryArea) (t i : Nat) (e : PageTableEntry) : VirtualMemoryArea :=
  { v with mem := update v.mem t (update (v.mem t) i e) }

def setTable (v : VirtualMemoryArea) (t : Nat) (table : Nat → PageTableEntry) : VirtualMemoryArea :=
  { v with mem := update v.mem t table }

/-- `clear_all_present_bits`. -/
def clearAllPresentBits (v : VirtualMemoryArea) (t : Nat) : VirtualMemoryArea :=
  v.setTable t fun i => (v.mem t i).setPresent false

/-- `HeapStealingFrameAllocator::allocate_frame`: the next frame of the supply, zeroed. -/
def allocateFrame (supply : Nat → Nat) (v : VirtualMemoryArea) : Nat × VirtualMemoryArea :=
  (supply v.allocated,
    { v.setTable (supply v.allocated) (fun _ => .zero) with allocated := v.allocated + 1 })

/-- `walk_and_reset_table`: the table below an entry.  An unused entry gets a new table; a stale one
is made present again, and the table below it is cleared. -/
def walkAndResetTable (supply : Nat → Nat) (v : VirtualMemoryArea) (table index : Nat) :
    Option (Nat × VirtualMemoryArea) :=
  let entry := v.mem table index
  if entry.flags.present then
    if entry.flags.hugePage then none else some (entry.addr, v)
  else if entry.isUnused then
    let (frame, v) := v.allocateFrame supply
    some (frame, v.setEntry table index ⟨frame, ⟨true, true, false, 0⟩⟩)
  else if entry.flags.hugePage then none
  else some (entry.addr, (v.setEntry table index (entry.setPresent true)).clearAllPresentBits entry.addr)

/-- `map_page_propagate_invalidation` of a 4 KiB page. -/
def mapPagePropagateInvalidation (supply : Nat → Nat) (v : VirtualMemoryArea) (address frame : Nat)
    (flags : PageTableFlags) : Option VirtualMemoryArea :=
  (v.walkAndResetTable supply v.root (bitExtract address 39 9)).bind fun r =>
    (r.2.walkAndResetTable supply r.1 (bitExtract address 30 9)).bind fun r =>
      (r.2.walkAndResetTable supply r.1 (bitExtract address 21 9)).map fun r =>
        r.2.setEntry r.1 (bitExtract address 12 9) ⟨frame, flags⟩

/-- `invalidate_guest_mappings`: the first 256 entries of the top-level table. -/
def invalidateGuestMappings (v : VirtualMemoryArea) : VirtualMemoryArea :=
  v.setTable v.root fun i =>
    if i < 0x100 then (v.mem v.root i).setPresent false else v.mem v.root i

/-- The frame in the leaf of a page whose entries are `PRESENT` at all four levels. -/
def look (v : VirtualMemoryArea) (address : Nat) : Option Nat :=
  (v.mem v.root (bitExtract address 39 9)).nextPresent.bind fun l3 =>
    (v.mem l3 (bitExtract address 30 9)).nextPresent.bind fun l2 =>
      (v.mem l2 (bitExtract address 21 9)).nextPresent.bind fun l1 =>
        (v.mem l1 (bitExtract address 12 9)).nextPresent

end VirtualMemoryArea

/-- The page tables, with the frame each page was mapped to since the last invalidation. -/
structure Mappings where
  vma : VirtualMemoryArea
  mapped : Nat → Option Nat

inductive MappingCall where
  | invalidate
  | map (address frame : Nat) (flags : PageTableFlags)

/-- Mappings are of guest-half addresses, with `PRESENT` among the flags. -/
def MappingCall.Allowed : MappingCall → Prop
  | .invalidate => True
  | .map address _ flags => address < 2 ^ 47 ∧ flags.present = true

namespace Mappings

def step (supply : Nat → Nat) (m : Mappings) : MappingCall → Option Mappings
  | .invalidate => some ⟨m.vma.invalidateGuestMappings, fun _ => none⟩
  | .map address frame flags =>
    (m.vma.mapPagePropagateInvalidation supply address frame flags).map fun vma =>
      ⟨vma, update m.mapped (address / 4096) (some frame)⟩

def run (supply : Nat → Nat) : List MappingCall → Mappings → Option Mappings
  | [], m => some m
  | c :: cs, m => (m.step supply c).bind (run supply cs)

end Mappings

/-! ### The tree below the guest half -/

namespace VirtualMemoryArea

/-- The tables as a guest-half address sees them: the other half of the top-level table is never
looked at. -/
def view (v : VirtualMemoryArea) (t i : Nat) : PageTableEntry :=
  if t = v.root ∧ 0x100 ≤ i then .zero else v.mem t i

/-- The table at the end of a path, through stale entries too. -/
def walk (v : VirtualMemoryArea) (p : List Nat) : Option Nat :=
  Tables.walk v.view next v.root p

/-- The table at the end of a path of present entries. -/
def walkPresent (v : VirtualMemoryArea) (p : List Nat) : Option Nat :=
  Tables.walk v.view nextPresent v.root p

/-- What a guest-half page finds: three levels of present tables and a present leaf. -/
def lookup (v : VirtualMemoryArea) (p : List Nat) (i : Nat) : Option Nat :=
  (v.walkPresent p).bind fun t => (v.view t i).nextPresent

/-- The tree is separated, its tables are the root and allocated frames, and the entries of inner
tables are unused or writable and not huge. -/
structure Inv (supply : Nat → Nat) (v : VirtualMemoryArea) : Prop where
  separated : Tables.Separated v.view next v.root 3
  tables : ∀ p t, p.length ≤ 3 → v.walk p = some t → p = [] ∨ ∃ k < v.allocated, t = supply k
  inner : ∀ p t, p.length < 3 → v.walk p = some t → ∀ i, (v.view t i).Inner

/-- The supply never gives a frame twice, nor that of the top-level table. -/
structure Fresh (supply : Nat → Nat) (root : Nat) : Prop where
  injective : Function.Injective supply
  root : ∀ k, supply k ≠ root

variable {v : VirtualMemoryArea}

theorem walk_of_walkPresent : ∀ {p : List Nat} {t : Nat}, v.walkPresent p = some t → v.walk p = some t := by
  intro p
  induction p using List.reverseRecOn with
  | nil => exact fun h => h
  | append_singleton p i ih =>
    intro t h
    rw [walkPresent, Tables.walk_concat] at h
    rw [walk, Tables.walk_concat]
    obtain ⟨f, hf, ht⟩ := bind_eq_some_iff.mp h
    have hwalk : Tables.walk v.view next v.root p = some f := ih hf
    rw [hwalk]
    exact next_of_nextPresent ht

variable {supply : Nat → Nat}

theorem Inv.fresh_frame (hinv : v.Inv supply) (hsupply : Fresh supply v.root) (p : List Nat)
    (hp : p.length ≤ 3) : v.walk p ≠ some (supply v.allocated) := by
  intro h
  rcases hinv.tables p _ hp h with rfl | ⟨k, hk, heq⟩
  · have hroot : v.root = supply v.allocated := some.inj h
    exact hsupply.root _ hroot.symm
  · have := hsupply.injective heq
    omega

/-- What a level of the walk does: entry `i` of table `t` becomes present and leads to `g`, where
nothing is present, and the rest stays. -/
structure Opened (v v' : VirtualMemoryArea) (t i g : Nat) : Prop where
  root_eq : v'.root = v.root
  entry : (v'.view t i).nextPresent = some g
  below : ∀ j, (v'.view g j).nextPresent = none
  rest : ∀ t' j, t' ≠ g → (t', j) ≠ (t, i) → v'.view t' j = v.view t' j

variable {p : List Nat} {t : Nat}

/-- **Opening an entry that was not present changes no lookup.** -/
theorem Opened.lookup_eq {v' : VirtualMemoryArea} {i g : Nat} (h : Opened v v' t i g)
    (hsep : Tables.Separated v.view next v.root 3) (hp : p.length < 3)
    (hwalk : v.walkPresent p = some t) (hstale : (v.view t i).nextPresent = none)
    (hnew : ∀ q, q.length ≤ 3 → v.walkPresent q ≠ some g) :
    v'.walkPresent (p ++ [i]) = some g ∧ ∀ q j, q.length = 3 → v'.lookup q j = v.lookup q j := by
  have hwalks : ∀ q : List Nat, q.length ≤ 3 →
      v'.walkPresent q = if q = p ++ [i] then some g else v.walkPresent q := by
    unfold walkPresent
    rw [h.root_eq]
    refine Tables.walk_link (fun p q g hp hq hpg hqg => hsep p q g hp hq (walk_of_walkPresent hpg)
      (walk_of_walkPresent hqg)) hwalk hp hstale h.below h.entry ?_
    intro q f' j hq hf' hne
    rw [h.rest f' j ?_ hne]
    rintro rfl
    exact hnew q (by omega) hf'
  refine ⟨by rw [hwalks _ (by simp; omega), if_pos rfl], fun q j hq => ?_⟩
  unfold lookup
  rw [hwalks q (by omega)]
  split
  · -- a leaf table that has just been opened
    rename_i hqp
    have hnone : v.walkPresent q = none := by
      rw [hqp, walkPresent, Tables.walk_concat]
      rw [walkPresent] at hwalk
      rw [hwalk, bind_some, hstale]
    rw [hnone, bind_some, h.below]
    rfl
  · cases hqt : v.walkPresent q with
    | none => rfl
    | some t' =>
      rw [bind_some, bind_some, h.rest t' j]
      · rintro rfl
        exact hnew q (by omega) hqt
      · rintro hpair
        have htt : t' = t := congrArg Prod.fst hpair
        subst htt
        have := hsep q p t' (by omega) (by omega) (walk_of_walkPresent hqt) (walk_of_walkPresent hwalk)
        subst this
        omega

/-! ### One level of the walk -/

variable {i : Nat}

/-- A table of an inner level, as the walk of a guest-half address meets it. -/
theorem view_setEntry (v : VirtualMemoryArea) (e : PageTableEntry) (hi : ¬ (t = v.root ∧ 0x100 ≤ i))
    (t' j : Nat) : (v.setEntry t i e).view t' j = if (t', j) = (t, i) then e else v.view t' j := by
  unfold view setEntry
  dsimp only
  by_cases hpair : (t', j) = (t, i)
  · obtain ⟨rfl, rfl⟩ := Prod.mk.inj hpair
    rw [if_pos rfl, if_neg hi, update_self, update_self]
  · rw [if_neg hpair]
    split
    · rfl
    · by_cases ht : t' = t
      · subst ht
        rw [update_self, update_of_ne (fun hj => hpair (by rw [hj]))]
      · rw [update_of_ne ht]

theorem view_setTable (v : VirtualMemoryArea) {g : Nat} (table : Nat → PageTableEntry)
    (hg : g ≠ v.root) (t j : Nat) :
    (v.setTable g table).view t j = if t = g then table j else v.view t j := by
  unfold view setTable
  dsimp only
  by_cases ht : t = g
  · subst ht
    rw [if_neg (fun h => hg h.1), if_pos rfl, update_self]
  · rw [if_neg ht, update_of_ne ht]

section

variable (hinv : v.Inv supply) (hsupply : Fresh supply v.root)

include hinv hsupply

section

variable (hp : p.length < 3) (hwalk : v.walkPresent p = some t) (hi : ¬ (t = v.root ∧ 0x100 ≤ i))

include hp hwalk hi

theorem Inv.allocate
    (hunused : (v.view t i).isUnused = true) :
    let v' := (v.allocateFrame supply).2.setEntry t i ⟨supply v.allocated, ⟨true, true, false, 0⟩⟩
    v'.Inv supply ∧ Opened v v' t i (supply v.allocated) := by
  intro v'
  have hfresh := hinv.fresh_frame hsupply
  have ht := walk_of_walkPresent hwalk
  have htg : t ≠ supply v.allocated := by
    rintro rfl
    exact hfresh p (by omega) ht
  have hview : ∀ t' j, v'.view t' j =
      if (t', j) = (t, i) then ⟨supply v.allocated, ⟨true, true, false, 0⟩⟩
      else if t' = supply v.allocated then .zero else v.view t' j := by
    intro t' j
    have h1 := view_setEntry (v.allocateFrame supply).2
      (⟨supply v.allocated, ⟨true, true, false, 0⟩⟩ : PageTableEntry) hi t' j
    have h2 := view_setTable v (fun _ => zero) (hsupply.root v.allocated) t' j
    exact h1.trans (by rw [show (v.allocateFrame supply).2.view t' j = _ from h2])
  have hself : v'.view t i = ⟨supply v.allocated, ⟨true, true, false, 0⟩⟩ := by
    rw [hview, if_pos rfl]
  have hbelow : ∀ j, v'.view (supply v.allocated) j = .zero := by
    intro j
    rw [hview, if_neg (fun h => htg (congrArg Prod.fst h).symm), if_pos rfl]
  have hrest : ∀ t' j, t' ≠ supply v.allocated → (t', j) ≠ (t, i) → v'.view t' j = v.view t' j := by
    intro t' j hne hpair
    rw [hview, if_neg hpair, if_neg hne]
  have hwalks : ∀ q : List Nat, q.length ≤ 3 →
      v'.walk q = if q = p ++ [i] then some (supply v.allocated) else v.walk q := by
    refine Tables.walk_link hinv.separated ht hp ?_ (fun j => by rw [hbelow j]; rfl)
      (by rw [hself, next_of_writable rfl]) (fun q f' j hq hf' hne => ?_)
    · rw [next, hunused, if_pos rfl]
    · rw [hrest f' j (fun h => hfresh q (by omega) (h ▸ hf')) hne]
  refine ⟨?_, ⟨rfl, by rw [hself]; rfl, fun j => by rw [hbelow j]; rfl, hrest⟩⟩
  constructor
  case separated => exact hinv.separated.link hfresh hwalks
  case tables =>
    intro q x hq hx
    rw [hwalks q hq] at hx
    split at hx
    · cases hx
      exact .inr ⟨v.allocated, Nat.lt_succ_self _, rfl⟩
    · rcases hinv.tables q x hq hx with h | ⟨k, hk, h⟩
      · exact .inl h
      · exact .inr ⟨k, Nat.lt_succ_of_lt hk, h⟩
  case inner =>
    intro q x hq hx j hused
    rw [hwalks q (by omega)] at hx
    split at hx
    · -- the new table is empty
      cases hx
      rw [hbelow j] at hused
      cases hused
    · by_cases hpair : (x, j) = (t, i)
      · obtain ⟨rfl, rfl⟩ := Prod.mk.inj hpair
        rw [hself]
        exact ⟨rfl, rfl⟩
      · rw [hrest x j (fun h => hfresh q (by omega) (h ▸ hx)) hpair] at hused ⊢
        exact hinv.inner q x hq hx j hused

theorem Inv.revive
    (hused : (v.view t i).isUnused = false) : let g := (v.view t i).addr
    let v' := (v.setEntry t i ((v.view t i).setPresent true)).clearAllPresentBits g
    v'.Inv supply ∧ Opened v v' t i g ∧ v.walk (p ++ [i]) = some g := by
  intro g v'
  have ht := walk_of_walkPresent hwalk
  have hnext : (v.view t i).next = some g := by
    rw [next, hused]
    rfl
  have hg : v.walk (p ++ [i]) = some g := by
    rw [walk, Tables.walk_concat]
    rw [walk] at ht
    rw [ht]
    exact hnext
  have hgroot : g ≠ v.root := by
    rcases hinv.tables _ g (by simp; omega) hg with h | ⟨k, _, h⟩
    · simp at h
    · rw [h]
      exact hsupply.root k
  have htg : t ≠ g := by
    intro h
    have := hinv.separated p (p ++ [i]) g (by omega) (by simp; omega) (h ▸ ht) hg
    simp at this
  have hview : ∀ t' j, v'.view t' j =
      if t' = g then (v.view g j).setPresent false
      else if (t', j) = (t, i) then (v.view t i).setPresent true else v.view t' j := by
    intro t' j
    have h1 : ∀ t' j, (v.setEntry t i ((v.view t i).setPresent true)).view t' j =
        if (t', j) = (t, i) then (v.view t i).setPresent true else v.view t' j :=
      view_setEntry v _ hi
    have hmem : ∀ j, (v.setEntry t i ((v.view t i).setPresent true)).mem g j = v.view g j := by
      intro j
      have := h1 g j
      rw [if_neg (fun h => htg (congrArg Prod.fst h).symm), view, if_neg (fun h => hgroot h.1)] at this
      exact this
    have h2 := view_setTable (v.setEntry t i ((v.view t i).setPresent true))
      (fun j => ((v.setEntry t i ((v.view t i).setPresent true)).mem g j).setPresent false)
      hgroot t' j
    exact h2.trans (by rw [hmem, h1])
  have hself : v'.view t i = (v.view t i).setPresent true := by
    rw [hview, if_neg htg, if_pos rfl]
  have hbelow : ∀ j, v'.view g j = (v.view g j).setPresent false := by
    intro j
    rw [hview, if_pos rfl]
  have hrest : ∀ t' j, t' ≠ g → (t', j) ≠ (t, i) → v'.view t' j = v.view t' j := by
    intro t' j hne hpair
    rw [hview, if_neg hne, if_neg hpair]
  -- inner entries keep the tables they name, so the tree stays as it is
  have hinner : ∀ q x, q.length < 3 → v.walk q = some x → ∀ j,
      (v'.view x j).next = (v.view x j).next ∧ (v'.view x j).Inner := by
    intro q x hq hx j
    have he := hinv.inner q x hq hx j
    by_cases hxg : x = g
    · subst hxg
      rw [hbelow j]
      exact ⟨he.next_setPresent (.inr rfl), he.setPresent (.inr rfl)⟩
    · by_cases hpair : (x, j) = (t, i)
      · obtain ⟨rfl, rfl⟩ := Prod.mk.inj hpair
        rw [hself]
        exact ⟨he.next_setPresent (.inl hused), he.setPresent (.inl hused)⟩
      · rw [hrest x j hxg hpair]
        exact ⟨rfl, he⟩
  have hwalks : ∀ q : List Nat, q.length ≤ 3 → v'.walk q = v.walk q :=
    Tables.walk_congr fun q x hq hx j => (hinner q x hq hx j).1
  refine ⟨⟨hinv.separated.congr hwalks, fun q x hq hx => ?_, fun q x hq hx j => ?_⟩,
    ⟨rfl, by rw [hself]; rfl, fun j => by rw [hbelow j]; rfl, hrest⟩, hg⟩
  · rw [hwalks q hq] at hx
    exact hinv.tables q x hq hx
  · rw [hwalks q (by omega)] at hx
    exact (hinner q x hq hx j).2

/-- **One level of the walk.**  It does not panic, keeps the invariant and every lookup, and ends in
the table reached through present entries. -/
theorem walkAndResetTable_spec :
    ∃ g v', v.walkAndResetTable supply t i = some (g, v') ∧ v'.Inv supply ∧ v'.root = v.root ∧
      v'.walkPresent (p ++ [i]) = some g ∧ ∀ q j, q.length = 3 → v'.lookup q j = v.lookup q j := by
  have hmem : v.mem t i = v.view t i := by rw [view, if_neg hi]
  have ht := walk_of_walkPresent hwalk
  have he := hinv.inner p t hp ht i
  unfold walkAndResetTable
  rw [hmem]
  dsimp only
  cases hpres : (v.view t i).flags.present with
  | true =>
    have hnext : (v.view t i).nextPresent = some (v.view t i).addr := by
      rw [nextPresent, hpres]
      rfl
    have hused : (v.view t i).isUnused = false := by
      cases hu : (v.view t i).isUnused with
      | false => rfl
      | true =>
        rw [of_decide_eq_true (p := v.view t i = .zero) hu] at hpres
        cases hpres
    refine ⟨(v.view t i).addr, v, ?_, hinv, rfl, ?_, fun _ _ _ => rfl⟩
    · rw [if_pos rfl, (he hused).2, if_neg (by simp)]
    · rw [walkPresent, Tables.walk_concat]
      rw [walkPresent] at hwalk
      rw [hwalk]
      exact hnext
  | false =>
    have hstale : (v.view t i).nextPresent = none := by
      rw [nextPresent, hpres]
      rfl
    cases hu : (v.view t i).isUnused with
    | true =>
      obtain ⟨hinv', hopen⟩ := hinv.allocate hsupply hp hwalk hi hu
      obtain ⟨hend, hlook⟩ := hopen.lookup_eq hinv.separated hp hwalk hstale
        (fun q hq h => hinv.fresh_frame hsupply q hq (walk_of_walkPresent h))
      exact ⟨_, _, rfl, hinv', hopen.root_eq, hend, hlook⟩
    | false =>
      obtain ⟨hinv', hopen, hg⟩ := hinv.revive hsupply hp hwalk hi hu
      -- the table below the stale entry is reached by no path of present entries
      have hnew : ∀ q : List Nat, q.length ≤ 3 → v.walkPresent q ≠ some (v.view t i).addr := by
        intro q hq h
        have hqp := hinv.separated q (p ++ [i]) _ hq (by simp; omega) (walk_of_walkPresent h) hg
        rw [hqp, walkPresent, Tables.walk_concat] at h
        rw [walkPresent] at hwalk
        rw [hwalk, bind_some, hstale] at h
        cases h
      obtain ⟨hend, hlook⟩ := hopen.lookup_eq hinv.separated hp hwalk hstale hnew
      refine ⟨_, _, ?_, hinv', hopen.root_eq, hend, hlook⟩
      rw [(he hu).2]
      rfl

end

/-! ### Leaves and invalidation -/

theorem Inv.ne_root (hp : p.length ≤ 3) (hne : p ≠ []) (hwalk : v.walk p = some t) : t ≠ v.root := by
  rcases hinv.tables p t hp hwalk with h | ⟨k, _, rfl⟩
  · exact absurd h hne
  · exact hsupply.root k

/-- **Writing a leaf changes one lookup.** -/
theorem Inv.setLeaf (i : Nat) (e : PageTableEntry) (hp : p.length = 3) (hwalk : v.walkPresent p = some t) :
    (v.setEntry t i e).Inv supply ∧ ∀ q j, q.length = 3 →
      (v.setEntry t i e).lookup q j = if q = p ∧ j = i then e.nextPresent else v.lookup q j := by
  have ht := walk_of_walkPresent hwalk
  have htroot : t ≠ v.root := hinv.ne_root hsupply (by omega) (by rintro rfl; cases hp) ht
  have hview := view_setEntry v e (t := t) (i := i) (fun h => htroot h.1)
  -- a leaf table is no inner table
  have hinner : ∀ q x, q.length < 3 → v.walk q = some x → ∀ j, (v.setEntry t i e).view x j = v.view x j := by
    intro q x hq hx j
    rw [hview, if_neg]
    intro hpair
    obtain ⟨rfl, -⟩ := Prod.mk.inj hpair
    have := hinv.separated q p x (by omega) (by omega) hx ht
    subst this
    omega
  have hwalks : ∀ q : List Nat, q.length ≤ 3 → (v.setEntry t i e).walk q = v.walk q :=
    Tables.walk_congr fun q x hq hx j => by rw [hinner q x hq hx j]
  have hpresent : ∀ q : List Nat, q.length ≤ 3 → (v.setEntry t i e).walkPresent q = v.walkPresent q :=
    Tables.walk_congr fun q x hq hx j => by rw [hinner q x hq (walk_of_walkPresent hx) j]
  refine ⟨⟨hinv.separated.congr hwalks, fun q x hq hx => ?_, fun q x hq hx j => ?_⟩, ?_⟩
  · rw [hwalks q hq] at hx
    exact hinv.tables q x hq hx
  · rw [hwalks q (by omega)] at hx
    rw [hinner q x hq hx j]
    exact hinv.inner q x hq hx j
  · intro q j hq
    unfold lookup
    rw [hpresent q (by omega)]
    cases hqt : v.walkPresent q with
    | none =>
      rw [if_neg]
      · rfl
      · rintro ⟨rfl, -⟩
        rw [hwalk] at hqt
        cases hqt
    | some x =>
      rw [bind_some, bind_some, hview]
      by_cases hx : x = t
      · subst hx
        have hqp := hinv.separated q p x (by omega) (by omega) (walk_of_walkPresent hqt) ht
        subst hqp
        simp only [Prod.mk.injEq, true_and]
        split <;> rfl
      · rw [if_neg (fun h => hx (congrArg Prod.fst h)), if_neg]
        rintro ⟨rfl, -⟩
        rw [hwalk] at hqt
        exact hx (some.inj hqt).symm

omit hsupply in
/-- **Invalidation leaves no guest page.** -/
theorem Inv.invalidate : v.invalidateGuestMappings.Inv supply ∧
      ∀ q j, q.length = 3 → v.invalidateGuestMappings.lookup q j = none := by
  have hview : ∀ t i, v.invalidateGuestMappings.view t i =
      if t = v.root then (v.view t i).setPresent false else v.view t i := by
    intro t i
    unfold view invalidateGuestMappings setTable
    dsimp only
    by_cases ht : t = v.root
    · subst ht
      rw [if_pos rfl, update_self]
      by_cases hi : 0x100 ≤ i
      · rw [if_pos ⟨rfl, hi⟩, if_pos ⟨rfl, hi⟩]
        rfl
      · rw [if_neg (fun h => hi h.2), if_pos (by omega), if_neg (fun h => hi h.2)]
    · rw [if_neg (fun h => ht h.1), if_neg ht, if_neg (fun h => ht h.1), update_of_ne ht]
  have hinner : ∀ q x, q.length < 3 → v.walk q = some x → ∀ j,
      (v.invalidateGuestMappings.view x j).next = (v.view x j).next ∧
        (v.invalidateGuestMappings.view x j).Inner := by
    intro q x hq hx j
    have he := hinv.inner q x hq hx j
    rw [hview]
    split
    · exact ⟨he.next_setPresent (.inr rfl), he.setPresent (.inr rfl)⟩
    · exact ⟨rfl, he⟩
  have hwalks : ∀ q : List Nat, q.length ≤ 3 → v.invalidateGuestMappings.walk q = v.walk q :=
    Tables.walk_congr fun q x hq hx j => (hinner q x hq hx j).1
  refine ⟨⟨hinv.separated.congr hwalks, fun q x hq hx => ?_, fun q x hq hx j => ?_⟩, ?_⟩
  · rw [hwalks q hq] at hx
    exact hinv.tables q x hq hx
  · rw [hwalks q (by omega)] at hx
    exact (hinner q x hq hx j).2
  · intro q j hq
    cases q with
    | nil => cases hq
    | cons i q =>
      have hroot : (v.invalidateGuestMappings.view v.root i).nextPresent = none := by
        rw [hview, if_pos rfl]
        rfl
      unfold lookup walkPresent Tables.walk
      rw [show v.invalidateGuestMappings.root = v.root from rfl, hroot]
      rfl

variable {a : Nat}

omit hinv hsupply in
theorem index_lt (ha : a < 2 ^ 47) : bitExtract a 39 9 < 0x100 := by
  rw [bitExtract_eq]
  omega

/-- The lookup of a guest-half address follows its indices. -/
theorem Inv.look_eq (ha : a < 2 ^ 47) :
    v.look a = v.lookup [bitExtract a 39 9, bitExtract a 30 9, bitExtract a 21 9] (bitExtract a 12 9) := by
  have hi := index_lt ha
  have hroot : v.mem v.root (bitExtract a 39 9) = v.view v.root (bitExtract a 39 9) := by
    rw [view, if_neg (fun h => by omega)]
  -- below the root every entry is seen as it is
  have hbelow : ∀ p t i, p.length ≤ 3 → p ≠ [] → v.walkPresent p = some t → v.mem t i = v.view t i := by
    intro p t i hp hne ht
    rw [view, if_neg (fun h => hinv.ne_root hsupply hp hne (walk_of_walkPresent ht) h.1)]
  unfold look lookup walkPresent
  simp only [Tables.walk]
  rw [hroot]
  cases h3 : (v.view v.root (bitExtract a 39 9)).nextPresent with
  | none => rfl
  | some l3 =>
    have hw3 : v.walkPresent [bitExtract a 39 9] = some l3 := by
      simp only [walkPresent, Tables.walk, h3, bind_some]
    simp only [bind_some]
    rw [hbelow _ l3 _ (by simp) (by simp) hw3]
    cases h2 : (v.view l3 (bitExtract a 30 9)).nextPresent with
    | none => rfl
    | some l2 =>
      have hw2 : v.walkPresent [bitExtract a 39 9, bitExtract a 30 9] = some l2 := by
        simp only [walkPresent, Tables.walk, h3, h2, bind_some]
      simp only [bind_some]
      rw [hbelow _ l2 _ (by simp) (by simp) hw2]
      cases h1 : (v.view l2 (bitExtract a 21 9)).nextPresent with
      | none => rfl
      | some l1 =>
        have hw1 : v.walkPresent [bitExtract a 39 9, bitExtract a 30 9, bitExtract a 21 9] = some l1 := by
          simp only [walkPresent, Tables.walk, h3, h2, h1, bind_some]
        simp only [bind_some]
        rw [hbelow _ l1 _ (by simp) (by simp) hw1]

/-- **A mapping of a guest-half page changes the lookup of that page only.** -/
theorem Inv.mapPage (frame : Nat) {flags : PageTableFlags} (ha : a < 2 ^ 47) (hflags : flags.present = true) :
    ∃ v', v.mapPagePropagateInvalidation supply a frame flags = some v' ∧ v'.Inv supply ∧
      v'.root = v.root ∧ ∀ q j, q.length = 3 → v'.lookup q j =
        if q = [bitExtract a 39 9, bitExtract a 30 9, bitExtract a 21 9] ∧ j = bitExtract a 12 9
        then some frame else v.lookup q j := by
  have hi := index_lt ha
  obtain ⟨l3, v1, h1, hinv1, hr1, hw1, hl1⟩ := walkAndResetTable_spec hinv hsupply (p := [])
    (t := v.root) (i := bitExtract a 39 9) (by simp) rfl (by omega)
  have hs1 : Fresh supply v1.root := hr1 ▸ hsupply
  have hn1 := hinv1.ne_root hs1 (by simp) (by simp) (walk_of_walkPresent hw1)
  obtain ⟨l2, v2, h2, hinv2, hr2, hw2, hl2⟩ := walkAndResetTable_spec hinv1 hs1
    (i := bitExtract a 30 9) (by simp) hw1 (fun h => hn1 h.1)
  have hs2 : Fresh supply v2.root := hr2 ▸ hs1
  have hn2 := hinv2.ne_root hs2 (by simp) (by simp) (walk_of_walkPresent hw2)
  obtain ⟨l1, v3, h3, hinv3, hr3, hw3, hl3⟩ := walkAndResetTable_spec hinv2 hs2
    (i := bitExtract a 21 9) (by simp) hw2 (fun h => hn2 h.1)
  have hs3 : Fresh supply v3.root := hr3 ▸ hs2
  obtain ⟨hinv4, hl4⟩ := hinv3.setLeaf hs3 (bitExtract a 12 9) ⟨frame, flags⟩ (by simp) hw3
  refine ⟨v3.setEntry l1 (bitExtract a 12 9) ⟨frame, flags⟩, ?_, hinv4,
    hr3.trans (hr2.trans hr1), fun q j hq => ?_⟩
  · rw [mapPagePropagateInvalidation, h1, bind_some, h2, bind_some, h3]
    rfl
  · have hleaf : (⟨frame, flags⟩ : PageTableEntry).nextPresent = some frame := by
      rw [nextPresent, hflags]
      rfl
    rw [hl4 q j hq, hleaf, hl3 q j hq, hl2 q j hq, hl1 q j hq]
    rfl

end

end VirtualMemoryArea

/-! ### Runs -/

namespace Mappings

/-- The lookups are the mappings since the last invalidation. -/
structure Inv (supply : Nat → Nat) (m : Mappings) : Prop where
  vma : m.vma.Inv supply
  fresh : VirtualMemoryArea.Fresh supply m.vma.root
  look : ∀ a < 2 ^ 47, m.vma.look a = m.mapped (a / 4096)

variable {supply : Nat → Nat}

theorem Inv.step {m : Mappings} (hm : m.Inv supply) {c : MappingCall} (hc : c.Allowed) :
    ∃ m', m.step supply c = some m' ∧ m'.Inv supply := by
  cases c with
  | invalidate =>
    obtain ⟨hinv, hlook⟩ := hm.vma.invalidate
    refine ⟨_, rfl, hinv, hm.fresh, fun a ha => ?_⟩
    rw [hinv.look_eq hm.fresh ha]
    exact hlook _ _ rfl
  | map address frame flags =>
    obtain ⟨v, hv, hinv, hroot, hlook⟩ := hm.vma.mapPage hm.fresh frame hc.1 hc.2
    have hfresh : VirtualMemoryArea.Fresh supply v.root := hroot ▸ hm.fresh
    refine ⟨⟨v, update m.mapped (address / 4096) (some frame)⟩, ?_, hinv, hfresh, fun a ha => ?_⟩
    · rw [Mappings.step, hv]
      rfl
    · -- two guest-half addresses have the same indices exactly if they lie in one page
      have hpage := indices_eq_iff a address
      have hsmall : ∀ x : Nat, x < 2 ^ 47 → x / 2 ^ 12 % 2 ^ 36 = x / 4096 := by
        intro x hx
        omega
      rw [hsmall a ha, hsmall address hc.1] at hpage
      rw [hinv.look_eq hfresh ha, hlook _ _ rfl, ← hm.vma.look_eq hm.fresh ha, hm.look a ha]
      dsimp only
      by_cases heq : a / 4096 = address / 4096
      · obtain ⟨h1, h2, h3, h4⟩ := hpage.mpr heq
        rw [if_pos ⟨by rw [h1, h2, h3], h4⟩, heq, update_self]
      · rw [if_neg, update_of_ne heq]
        rintro ⟨hlist, h4⟩
        simp only [List.cons.injEq, and_true] at hlist
        exact heq (hpage.mp ⟨hlist.1, hlist.2.1, hlist.2.2, h4⟩)

theorem Inv.run : ∀ (calls : List MappingCall) {m : Mappings}, m.Inv supply →
    (∀ c ∈ calls, c.Allowed) → ∃ m', m.run supply calls = some m' ∧ m'.Inv supply
  | [], m, hm, _ => ⟨m, rfl, hm⟩
  | c :: calls, m, hm, hcalls => by
    obtain ⟨m1, h1, hm1⟩ := hm.step (hcalls c (by simp))
    obtain ⟨m2, h2, hm2⟩ := Inv.run calls hm1 fun c hc => hcalls c (by simp [hc])
    exact ⟨m2, by rw [Mappings.run, h1]; exact h2, hm2⟩

theorem Inv.empty {v : VirtualMemoryArea} (hfresh : VirtualMemoryArea.Fresh supply v.root)
    (hempty : ∀ i < 0x100, v.mem v.root i = .zero) : Inv supply ⟨v, fun _ => none⟩ := by
  have hroot : ∀ i, v.view v.root i = .zero := by
    intro i
    unfold VirtualMemoryArea.view
    split
    · rfl
    · rename_i h
      exact hempty i (by omega)
  have hwalk : ∀ p t, v.walk p = some t → p = [] ∧ t = v.root := by
    intro p t h
    cases p with
    | nil => exact ⟨rfl, (some.inj h).symm⟩
    | cons i p =>
      rw [VirtualMemoryArea.walk, Tables.walk, hroot i] at h
      cases h
  have hinv : v.Inv supply := by
    refine ⟨fun p q g _ _ hp hq => ?_, fun p t _ h => .inl (hwalk p t h).1, fun p t _ h i => ?_⟩
    · rw [(hwalk p g hp).1, (hwalk q g hq).1]
    · rw [(hwalk p t h).2, hroot i]
      exact fun h => by cases h
  refine ⟨hinv, hfresh, fun a ha => ?_⟩
  rw [VirtualMemoryArea.look, hempty _ (VirtualMemoryArea.index_lt ha)]
  rfl

/-- **A guest page is present at all four levels exactly if it was mapped after the last
invalidation, and its leaf then names the frame of the latest mapping.**  No call panics. -/
theorem look_eq_mapped {supply : Nat → Nat} {v : VirtualMemoryArea}
    (hfresh : VirtualMemoryArea.Fresh supply v.root)
    (hempty : ∀ i < 0x100, v.mem v.root i = .zero) (calls : List MappingCall)
    (hcalls : ∀ c ∈ calls, c.Allowed) :
    ∃ m, Mappings.run supply calls ⟨v, fun _ => none⟩ = some m ∧
      ∀ a < 2 ^ 47, m.vma.look a = m.mapped (a / 4096) := by
  obtain ⟨m, hrun, hm⟩ := (Inv.empty hfresh hempty).run calls hcalls
  exact ⟨m, hrun, hm.look⟩

/-- A page mapped, invalidated and followed by a mapping of its neighbour through the same stale
tables. -/
theorem look_eq_mapped_remapped : ∃ m, Mappings.run (fun k => k + 1)
        [.map 0x1000 7 ⟨true, true, false, 0⟩, .invalidate, .map 0x2000 9 ⟨true, false, false, 4⟩]
        ⟨⟨0, fun _ _ => .zero, 0⟩, fun _ => none⟩ = some m ∧
      ∀ a < 2 ^ 47, m.vma.look a = m.mapped (a / 4096) :=
  look_eq_mapped ⟨fun _ _ h => Nat.succ.inj h, fun k => Nat.succ_ne_zero k⟩ (fun _ _ => rfl) _ (by
    intro c hc
    simp only [List.mem_cons, List.not_mem_nil, or_false] at hc
    rcases hc with rfl | rfl | rfl
    · exact ⟨by decide, rfl⟩
    · trivial
    · exact ⟨by decide, rfl⟩)

end Mappings

end Icewind.Kernel
