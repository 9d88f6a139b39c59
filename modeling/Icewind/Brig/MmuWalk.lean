import Mathlib.Tactic.Common
import Mathlib.Algebra.Group.Nat.Defs

/-!
# The walk of the guest's page tables

The walk of `brig/brig/src/guest/devices/arm/mmu.rs`, and what the architecture says of a walk of three-level page
tables, without the order in which `translate_l1` to `translate_l3` look at things.

* `translateL1` — the walk from a table of the first level.
* `Reaches` — the descriptors that the walk looks at, one for each level, as long as they are tables.
* `StopsAt` — the last of them.  `StopsAt.unique` — there is only one.
* `Maps`, `Allows` — the descriptor is a block or a page, and its access permission bits allow the access.
* `Fault` — the first fault that applies to a descriptor.
* `translateL1_correct` — the walk is that of the architecture.
-/

namespace Icewind.Brig

inductive TranslationType where
  | read | write | fetch | translate
  deriving DecidableEq

inductive ExecutionLevel where
  | el0 | el1 | el2 | el3
  deriving DecidableEq

inductive FaultLevel where
  | l0 | l1 | l2 | l3
  deriving DecidableEq

inductive FaultType where
  | addressSize | translation | accessFlag | permission
  deriving DecidableEq

structure TranslationError where
  level : FaultLevel
  faultType : FaultType
  translationType : TranslationType
  deriving DecidableEq

def TranslationError.toSyndrome (e : TranslationError) : Nat :=
  let level := match e.level with
    | .l0 => 0
    | .l1 => 1
    | .l2 => 2
    | .l3 => 3
  let typ := match e.faultType with
    | .addressSize => 0
    | .translation => 4
    | .accessFlag => 8
    | .permission => 12
  let access := match e.translationType with
    | .write => 0x40
    | .translate => 0x100
    | _ => 0
  typ ||| level ||| access

/-- A 64-bit entry of a translation table. -/
abbrev Descriptor := Nat

namespace Descriptor

def isValid (d : Descriptor) : Bool := d.testBit 0

def isTableOrPage (d : Descriptor) : Bool := d.testBit 0 && d.testBit 1

/-- `Attributes::USER`, bit 6. -/
def user (d : Descriptor) : Bool := d.testBit 6

/-- `Attributes::READ_ONLY`, bit 7. -/
def readOnly (d : Descriptor) : Bool := d.testBit 7

/-- `Attributes::ACCESSED`, bit 10. -/
def accessed (d : Descriptor) : Bool := d.testBit 10

/-- `output_address`, bits 12 to 47. -/
def outputAddress (d : Descriptor) : Nat := d % 2 ^ 48 / 2 ^ 12 * 2 ^ 12

end Descriptor

structure MmuTranslationContext where
  guestVirtualAddress : Nat
  executionLevel : ExecutionLevel

def hasPermission (ctx : MmuTranslationContext) (typ : TranslationType) (entry : Descriptor) : Bool :=
  match entry.user, entry.readOnly with
  -- EL1 RW, EL0 -
  | false, false => if ctx.executionLevel = .el0 then false else true
  -- EL1 RW, EL0 RW
  | true, false => true
  -- EL1 RO, EL0 -
  | false, true =>
    if ctx.executionLevel = .el0 then false else typ = .read || typ = .translate || typ = .fetch
  -- EL1 RO, EL0 RO
  | true, true => typ = .read || typ = .translate || typ = .fetch

/-- The end of the walk at a block or page of `2 ^ shift` bytes.  The upper bits of the address are
those of the entry, the lower bits those of the virtual address. -/
def translateLeaf (level : FaultLevel) (shift : Nat) (ctx : MmuTranslationContext)
    (typ : TranslationType) (entry : Descriptor) : Except TranslationError Nat :=
  if !entry.accessed then .error ⟨level, .accessFlag, typ⟩
  else if !hasPermission ctx typ entry then .error ⟨level, .permission, typ⟩
  else .ok (entry.outputAddress / 2 ^ shift * 2 ^ shift + ctx.guestVirtualAddress % 2 ^ shift)

/-- The entry of a table for an address. -/
def tableEntry (memory : Nat → Nat) (table shift va : Nat) : Descriptor :=
  memory (table + 8 * (va / 2 ^ shift % 512))

def translateL3 (memory : Nat → Nat) (table : Nat) (ctx : MmuTranslationContext)
    (typ : TranslationType) : Except TranslationError Nat :=
  let entry := tableEntry memory table 12 ctx.guestVirtualAddress
  if !entry.isTableOrPage then .error ⟨.l3, .translation, typ⟩
  else translateLeaf .l3 12 ctx typ entry

def translateL2 (memory : Nat → Nat) (table : Nat) (ctx : MmuTranslationContext)
    (typ : TranslationType) : Except TranslationError Nat :=
  let entry := tableEntry memory table 21 ctx.guestVirtualAddress
  if !entry.isValid then .error ⟨.l2, .translation, typ⟩
  else if entry.isTableOrPage then translateL3 memory entry.outputAddress ctx typ
  else translateLeaf .l2 21 ctx typ entry

def translateL1 (memory : Nat → Nat) (table : Nat) (ctx : MmuTranslationContext)
    (typ : TranslationType) : Except TranslationError Nat :=
  let entry := tableEntry memory table 30 ctx.guestVirtualAddress
  if !entry.isValid then .error ⟨.l1, .translation, typ⟩
  else if entry.isTableOrPage then translateL2 memory entry.outputAddress ctx typ
  else translateLeaf .l1 30 ctx typ entry

/-! ### The architecture -/

/-- The address bits below this one are not translated at the level. -/
def FaultLevel.shift : FaultLevel → Nat
  | .l0 => 39
  | .l1 => 30
  | .l2 => 21
  | .l3 => 12

/-- The descriptor is at this level, and those above it are tables. -/
inductive Reaches (memory : Nat → Nat) (table va : Nat) : FaultLevel → Descriptor → Prop
  | l1 : Reaches memory table va .l1 (tableEntry memory table 30 va)
  | l2 {d : Descriptor} (h : Reaches memory table va .l1 d) (ht : d.isTableOrPage = true) :
      Reaches memory table va .l2 (tableEntry memory d.outputAddress 21 va)
  | l3 {d : Descriptor} (h : Reaches memory table va .l2 d) (ht : d.isTableOrPage = true) :
      Reaches memory table va .l3 (tableEntry memory d.outputAddress 12 va)

/-- **The descriptor where the walk ends**: at the last level, or one that is not a table. -/
structure StopsAt (memory : Nat → Nat) (table va : Nat) (level : FaultLevel) (d : Descriptor) : Prop where
  reaches : Reaches memory table va level d
  last : level = .l3 ∨ d.isTableOrPage = false

/-- A page at the last level, a block above it. -/
def Maps (level : FaultLevel) (d : Descriptor) : Prop :=
  d.isValid = true ∧ (level = .l3 ↔ d.isTableOrPage = true)

/-- The access permission bits: unprivileged code needs the user bit, a write the absence of the read-only bit. -/
def Allows (el : ExecutionLevel) (typ : TranslationType) (d : Descriptor) : Prop :=
  (el = .el0 → d.user = true) ∧ (typ = .write → d.readOnly = false)

/-- **The first fault that applies to the descriptor.** -/
inductive Fault (el : ExecutionLevel) (typ : TranslationType) (level : FaultLevel) (d : Descriptor) : FaultType → Prop
  | translation (h : ¬ Maps level d) : Fault el typ level d .translation
  | accessFlag (hm : Maps level d) (h : d.accessed = false) : Fault el typ level d .accessFlag
  | permission (hm : Maps level d) (ha : d.accessed = true) (h : ¬ Allows el typ d) : Fault el typ level d .permission

theorem Reaches.unique {memory : Nat → Nat} {table va : Nat} {level : FaultLevel} {d d' : Descriptor}
    (h : Reaches memory table va level d) (h' : Reaches memory table va level d') : d = d' := by
  induction h generalizing d' with
  | l1 =>
    cases h'
    rfl
  | l2 _ _ ih =>
    cases h' with
    | l2 h' _ => rw [ih h']
  | l3 _ _ ih =>
    cases h' with
    | l3 h' _ => rw [ih h']

variable {typ : TranslationType}

theorem hasPermission_iff {ctx : MmuTranslationContext} {d : Descriptor} :
    hasPermission ctx typ d = true ↔ Allows ctx.executionLevel typ d := by
  unfold hasPermission Allows
  cases d.user <;> cases d.readOnly <;> cases typ <;> simp

theorem testBit_combined (d va shift i : Nat) (hshift : 12 ≤ shift) :
    (Descriptor.outputAddress d / 2 ^ shift * 2 ^ shift + va % 2 ^ shift).testBit i =
      if i < shift then va.testBit i else decide (i < 48) && d.testBit i := by
  have hbase : Descriptor.outputAddress d / 2 ^ shift = d % 2 ^ 48 / 2 ^ shift := by
    obtain ⟨k, rfl⟩ := Nat.exists_eq_add_of_le hshift
    unfold Descriptor.outputAddress
    rw [Nat.pow_add, ← Nat.div_div_eq_div_mul, Nat.mul_div_cancel _ (Nat.two_pow_pos 12), Nat.div_div_eq_div_mul]
  rw [hbase, Nat.mul_comm, Nat.testBit_two_pow_mul_add _ (Nat.mod_lt _ (Nat.two_pow_pos shift))]
  split
  · rename_i hlt
    rw [Nat.testBit_mod_two_pow, decide_eq_true hlt, Bool.true_and]
  · rename_i hge
    rw [Nat.testBit_div_two_pow, Nat.testBit_mod_two_pow, Nat.sub_add_cancel (Nat.le_of_not_lt hge)]

/-- The end of a walk at a block or page. -/
structure Translated (memory : Nat → Nat) (table : Nat) (ctx : MmuTranslationContext) (typ : TranslationType)
    (addr : Nat) (level : FaultLevel) (leaf : Descriptor) : Prop where
  stops : StopsAt memory table ctx.guestVirtualAddress level leaf
  maps : Maps level leaf
  accessed : leaf.accessed = true
  allows : Allows ctx.executionLevel typ leaf
  address : ∀ i, addr.testBit i =
    if i < level.shift then ctx.guestVirtualAddress.testBit i else decide (i < 48) && leaf.testBit i

/-- The end of a walk at a fault. -/
structure Faulted (memory : Nat → Nat) (table : Nat) (ctx : MmuTranslationContext) (typ : TranslationType)
    (e : TranslationError) (d : Descriptor) : Prop where
  stops : StopsAt memory table ctx.guestVirtualAddress e.level d
  fault : Fault ctx.executionLevel typ e.level d e.faultType
  access : e.translationType = typ

/-- The result of a walk, from the descriptor where it stops. -/
def Ends (memory : Nat → Nat) (table : Nat) (ctx : MmuTranslationContext) (typ : TranslationType) :
    Except TranslationError Nat → Prop
  | .ok addr => ∃ level leaf, Translated memory table ctx typ addr level leaf
  | .error e => ∃ d, Faulted memory table ctx typ e d

section Levels

variable {memory : Nat → Nat} {table : Nat} {ctx : MmuTranslationContext} {typ : TranslationType} {d : Descriptor}
  {level : FaultLevel}

theorem ends_translation (hs : StopsAt memory table ctx.guestVirtualAddress level d) (h : ¬ Maps level d) :
    Ends memory table ctx typ (.error ⟨level, .translation, typ⟩) :=
  ⟨d, hs, .translation h, rfl⟩

/-- A block or page is looked at in the same way on all levels. -/
theorem translateLeaf_ends (hshift : 12 ≤ level.shift) (hs : StopsAt memory table ctx.guestVirtualAddress level d)
    (hm : Maps level d) : Ends memory table ctx typ (translateLeaf level level.shift ctx typ d) := by
  unfold translateLeaf
  split
  · rename_i haccessed
    exact ⟨d, hs, .accessFlag hm (Bool.not_eq_true' _ ▸ haccessed), rfl⟩
  · rename_i haccessed
    have haccessed : d.accessed = true := by simpa using haccessed
    split
    · rename_i hpermission
      refine ⟨d, hs, .permission hm haccessed fun h => ?_, rfl⟩
      rw [hasPermission_iff.mpr h] at hpermission
      cases hpermission
    · rename_i hpermission
      have hallows : Allows ctx.executionLevel typ d := hasPermission_iff.mp (by simpa using hpermission)
      exact ⟨level, d, hs, hm, haccessed, hallows, fun i => testBit_combined d _ _ i hshift⟩

theorem translateL3_ends (hr : Reaches memory table ctx.guestVirtualAddress .l2 d) (ht : d.isTableOrPage = true) :
    Ends memory table ctx typ (translateL3 memory d.outputAddress ctx typ) := by
  have hstops : StopsAt memory table ctx.guestVirtualAddress .l3
      (tableEntry memory d.outputAddress 12 ctx.guestVirtualAddress) := ⟨.l3 hr ht, .inl rfl⟩
  unfold translateL3
  dsimp only
  generalize tableEntry memory d.outputAddress 12 ctx.guestVirtualAddress = entry at hstops
  split
  · rename_i hpage
    refine ends_translation hstops fun hm => ?_
    rw [hm.2.mp rfl] at hpage
    cases hpage
  · rename_i hpage
    have hpage : entry.isTableOrPage = true := by simpa using hpage
    have hvalid : entry.isValid = true := (Bool.and_eq_true_iff.mp hpage).1
    exact translateLeaf_ends (Nat.le_refl 12) hstops ⟨hvalid, fun _ => hpage, fun _ => rfl⟩

/-- The first two levels: a table leads to the next level, anything else ends the walk. -/
theorem upper_ends (level : FaultLevel) (hlevel : level ≠ .l3) (hshift : 12 ≤ level.shift)
    (hr : Reaches memory table ctx.guestVirtualAddress level d) {next : Except TranslationError Nat}
    (hnext : d.isTableOrPage = true → Ends memory table ctx typ next) :
    Ends memory table ctx typ (if !d.isValid then .error ⟨level, .translation, typ⟩
        else if d.isTableOrPage then next else translateLeaf level level.shift ctx typ d) := by
  split
  · rename_i hinvalid
    have hinvalid : d.isValid = false := by simpa using hinvalid
    have hblock : d.isTableOrPage = false := by
      unfold Descriptor.isTableOrPage
      rw [show d.testBit 0 = false from hinvalid]
      rfl
    refine ends_translation ⟨hr, .inr hblock⟩ fun hm => ?_
    rw [hm.1] at hinvalid
    cases hinvalid
  · rename_i hvalid
    split
    · rename_i htable
      exact hnext htable
    · rename_i hblock
      have hblock : d.isTableOrPage = false := by simpa using hblock
      refine translateLeaf_ends hshift ⟨hr, .inr hblock⟩ ⟨by simpa using hvalid, fun h => absurd h hlevel, fun h => ?_⟩
      rw [hblock] at h
      cases h

theorem translateL1_ends (memory : Nat → Nat) (table : Nat) (ctx : MmuTranslationContext) (typ : TranslationType) :
    Ends memory table ctx typ (translateL1 memory table ctx typ) :=
  upper_ends .l1 nofun (by decide) .l1 fun ht =>
    upper_ends .l2 nofun (by decide) (.l2 .l1 ht) (translateL3_ends (.l2 .l1 ht))

end Levels

/-! ### The walk is exact -/

section Exact

variable {memory : Nat → Nat} {table va : Nat} {d d' : Descriptor} {level level' : FaultLevel}

/-- A level is reached only through tables. -/
theorem Reaches.table_above (hr : Reaches memory table va level d) (hr' : Reaches memory table va level' d')
    (hlt : level.shift < level'.shift) : d'.isTableOrPage = true := by
  induction hr with
  | l1 => cases hr' <;> exact absurd hlt (by decide)
  | l2 h ht =>
    cases hr' with
    | l1 => exact h.unique .l1 ▸ ht
    | l2 _ _ | l3 _ _ => exact absurd hlt (by decide)
  | l3 h ht ih =>
    cases hr' with
    | l1 => exact ih (by decide)
    | l2 h' ht' => exact h.unique (.l2 h' ht') ▸ ht
    | l3 _ _ => exact absurd hlt (by decide)

/-- **The walk stops at one descriptor only.** -/
theorem StopsAt.unique (hs : StopsAt memory table va level d) (hs' : StopsAt memory table va level' d') :
    level = level' ∧ d = d' := by
  -- neither level is above the other
  have hle : ∀ {l l' : FaultLevel} {e e' : Descriptor}, StopsAt memory table va l e → StopsAt memory table va l' e' →
      ¬ l.shift < l'.shift := by
    intro l l' e e' h h' hlt
    have htable := h.reaches.table_above h'.reaches hlt
    rcases h'.last with rfl | hblock
    · cases l <;> exact absurd hlt (by decide)
    · rw [htable] at hblock
      cases hblock
  have hlevel : level = level' := by
    have h1 := hle hs hs'
    have h2 := hle hs' hs
    cases level <;> cases level' <;> first | rfl | exact absurd (by decide) h1 | exact absurd (by decide) h2
  subst hlevel
  exact ⟨rfl, hs.reaches.unique hs'.reaches⟩

theorem Fault.unique {el : ExecutionLevel} {f f' : FaultType} (h : Fault el typ level d f)
    (h' : Fault el typ level d f') : f = f' := by
  cases h with
  | translation hm =>
    cases h' with
    | translation _ => rfl
    | accessFlag hm' | permission hm' => exact absurd hm' hm
  | accessFlag hm ha =>
    cases h' with
    | translation hm' => exact absurd hm hm'
    | accessFlag _ _ => rfl
    | permission _ ha' _ =>
      rw [ha] at ha'
      cases ha'
  | permission hm ha _ =>
    cases h' with
    | translation hm' => exact absurd hm hm'
    | accessFlag _ ha' =>
      rw [ha] at ha'
      cases ha'
    | permission _ _ _ => rfl

variable {ctx : MmuTranslationContext} {typ : TranslationType}

theorem Translated.not_faulted {addr : Nat} {e : TranslationError} (h : Translated memory table ctx typ addr level d)
    (h' : Faulted memory table ctx typ e d') : False := by
  obtain ⟨rfl, rfl⟩ := h.stops.unique h'.stops
  cases hf : e.faultType with
  | addressSize => cases hf ▸ h'.fault
  | translation =>
    cases hf ▸ h'.fault with
    | translation hm => exact hm h.maps
  | accessFlag =>
    cases hf ▸ h'.fault with
    | accessFlag _ ha =>
      rw [h.accessed] at ha
      cases ha
  | permission =>
    cases hf ▸ h'.fault with
    | permission _ _ ha => exact ha h.allows

variable {addr : Nat} {e : TranslationError}

theorem translateL1_eq_ok_iff :
    translateL1 memory table ctx typ = .ok addr ↔ ∃ level leaf, Translated memory table ctx typ addr level leaf := by
  have hends := translateL1_ends memory table ctx typ
  refine ⟨fun h => by rwa [h] at hends, fun ⟨level', leaf', h'⟩ => ?_⟩
  cases hresult : translateL1 memory table ctx typ with
  | ok addr' =>
    rw [hresult] at hends
    obtain ⟨level, leaf, htranslated⟩ := hends
    obtain ⟨rfl, rfl⟩ := htranslated.stops.unique h'.stops
    exact congrArg Except.ok (Nat.eq_of_testBit_eq fun i => (htranslated.address i).trans (h'.address i).symm)
  | error e =>
    rw [hresult] at hends
    obtain ⟨d, hfaulted⟩ := hends
    exact (h'.not_faulted hfaulted).elim

theorem translateL1_eq_error_iff :
    translateL1 memory table ctx typ = .error e ↔ ∃ d, Faulted memory table ctx typ e d := by
  have hends := translateL1_ends memory table ctx typ
  refine ⟨fun h => by rwa [h] at hends, fun ⟨d', h'⟩ => ?_⟩
  cases hresult : translateL1 memory table ctx typ with
  | ok addr =>
    rw [hresult] at hends
    obtain ⟨level, leaf, htranslated⟩ := hends
    exact (htranslated.not_faulted h').elim
  | error e' =>
    rw [hresult] at hends
    obtain ⟨d, hfaulted⟩ := hends
    obtain ⟨hlevel, rfl⟩ := hfaulted.stops.unique h'.stops
    have hfault : e'.faultType = e.faultType := hfaulted.fault.unique (hlevel ▸ h'.fault)
    have haccess : e'.translationType = e.translationType := hfaulted.access.trans h'.access.symm
    cases e
    cases e'
    cases hlevel
    cases hfault
    cases haccess
    rfl

/-- What a fetch finds at some level of privilege it also finds at EL1, where every page may be fetched. -/
theorem translateL1_fetch {el : ExecutionLevel} (h : translateL1 memory table ⟨va, el⟩ .fetch = .ok addr) :
    translateL1 memory table ⟨va, .el1⟩ .fetch = .ok addr := by
  obtain ⟨level, leaf, h⟩ := translateL1_eq_ok_iff.mp h
  exact translateL1_eq_ok_iff.mpr ⟨level, leaf, h.stops, h.maps, h.accessed, ⟨nofun, nofun⟩, h.address⟩

theorem translateL1_mod (h : translateL1 memory table ctx typ = .ok addr) :
    addr % 2 ^ 12 = ctx.guestVirtualAddress % 2 ^ 12 := by
  obtain ⟨level, leaf, h⟩ := translateL1_eq_ok_iff.mp h
  have hshift : 12 ≤ level.shift := by cases level <;> decide
  refine Nat.eq_of_testBit_eq fun i => ?_
  rw [Nat.testBit_mod_two_pow, Nat.testBit_mod_two_pow, h.address]
  by_cases hi : i < 12
  · rw [if_pos (Nat.lt_of_lt_of_le hi hshift)]
  · rw [decide_eq_false hi, Bool.false_and, Bool.false_and]

end Exact

/-- **The three-level walk is that of the architecture.**  It gives an address just when the descriptor where it stops
is a block or a page, has its access flag set and allows the access; the address has the bits of the descriptor, and
below the bits that the level translates those of the virtual address.  It fails with the level of the descriptor
where it stops, and with the first fault that applies to it. -/
theorem translateL1_correct (memory : Nat → Nat) (table : Nat) (ctx : MmuTranslationContext) (typ : TranslationType) :
    (∀ addr, translateL1 memory table ctx typ = .ok addr ↔
      ∃ level leaf, Translated memory table ctx typ addr level leaf) ∧
    ∀ e, translateL1 memory table ctx typ = .error e ↔ ∃ d, Faulted memory table ctx typ e d :=
  ⟨fun _ => translateL1_eq_ok_iff, fun _ => translateL1_eq_error_iff⟩

end Icewind.Brig
