import Icewind.Brig.MmuWalk
import Mathlib.Logic.Function.Basic

/-!
# The guest's memory management unit

Model of `brig/brig/src/guest/devices/arm/mmu.rs`: the translation buffers in front of the walk of the
guest's page tables, and the exception a failed walk raises.

* `guestTranslate` — a translation as the rest of the program asks for it.
* `mappedPage` — the page to which an address is mapped for a fetch, without regard to privilege.
* `guestTranslate_fetch` — as long as the fetch buffer is `Fresh`, a translation gives that page and
  keeps the buffer fresh.
* `takeArmException_spec` — an exception changes no mapping.
-/

namespace Icewind.Brig

open Option

/-- The register file by register name. -/
abbrev Registers := String → Nat

/-- What the guest sees of itself: its registers and the 64-bit words of its physical memory. -/
structure Guest where
  registers : Registers
  memory : Nat → Nat

namespace Guest

def write (g : Guest) (register : String) (value : Nat) : Guest :=
  { g with registers := Function.update g.registers register value }

def store (g : Guest) (address value : Nat) : Guest :=
  { g with memory := Function.update g.memory address value }

/-- The program counter, a 64-bit register. -/
def pc (g : Guest) : Nat := g.registers "_PC" % 2 ^ 64

end Guest

/-- The first table of the walk, selected by bit 39 of the address. -/
def tableBase (g : Guest) (va : Nat) : Nat :=
  (if va / 2 ^ 39 % 2 = 0 then g.registers "_TTBR0_EL1_bits" else g.registers "_TTBR1_EL1_bits")
    % 2 ^ 48 / 2 ^ 12 * 2 ^ 12

/-! ### Translation buffers -/

structure TlbEntry where
  guestVirtPage : Nat
  guestPhysPage : Nat

/-- What `clear` leaves: no page has this number. -/
def TlbEntry.cleared : TlbEntry := ⟨2 ^ 64 - 1, 0⟩

/-- The buffers for reads, writes and fetches, each of 4096 entries, and the flag of the execution
context that makes the next walk an unprivileged one. -/
structure Mmu where
  tlb : TranslationType → Nat → TlbEntry
  unprivilegedAccess : Nat

namespace Mmu

def flushTlb (mmu : Mmu) : Mmu := { mmu with tlb := fun _ _ => .cleared }

def insert (mmu : Mmu) (typ : TranslationType) (page phys : Nat) : Mmu :=
  { mmu with
    tlb := Function.update mmu.tlb typ (Function.update (mmu.tlb typ) (page % 4096) ⟨page, phys⟩) }

end Mmu

def mmuEnabled (g : Guest) : Bool := g.registers "SCTLR_EL1_bits" % 2 = 1

/-- `PSTATE_EL`; `none` is the panic on a level that does not exist. -/
def currentEl (g : Guest) : Option ExecutionLevel :=
  match g.registers "PSTATE_EL" % 2 ^ 8 with
  | 0 => some .el0
  | 1 => some .el1
  | 2 => some .el2
  | 3 => some .el3
  | _ => none

/-- `raw_guest_translate` up to the fault.  A walk on behalf of `AT` records its result in `PAR_EL1`
and never faults; `none` is a panic. -/
def rawGuestTranslate (g : Guest) (mmu : Mmu) (va : Nat) (typ : TranslationType) :
    Option (Guest × Mmu × Except TranslationError Nat) := do
  let el ← currentEl g
  if mmu.unprivilegedAccess ≠ 0 ∧ el ≠ .el1 then none
  else
    let level := if mmu.unprivilegedAccess ≠ 0 then .el0 else el
    let mmu := { mmu with unprivilegedAccess := 0 }
    match translateL1 g.memory (tableBase g va) ⟨va, level⟩ typ with
    | .ok addr =>
      if typ = .translate then
        some (g.write "_PAR_EL1_bits" (addr % 2 ^ 48 / 2 ^ 12 * 2 ^ 12), mmu, .ok addr)
      else some (g, mmu, .ok addr)
    | .error e =>
      if typ = .translate then some (g.write "_PAR_EL1_bits" (e.toSyndrome * 2 ||| 1), mmu, .ok 0)
      else some (g, mmu, .error e)

def guestTranslate (g : Guest) (mmu : Mmu) (va : Nat) (typ : TranslationType) :
    Option (Guest × Mmu × Except TranslationError Nat) :=
  if !mmuEnabled g then some (g, mmu, .ok va)
  else if typ = .translate then rawGuestTranslate g mmu va .translate
  else
    let page := va / 2 ^ 12
    let entry := mmu.tlb typ (page % 4096)
    if entry.guestVirtPage = page then some (g, mmu, .ok (entry.guestPhysPage + va % 2 ^ 12))
    else do
      let (g, mmu, result) ← rawGuestTranslate g mmu (page * 2 ^ 12) typ
      match result with
      | .ok phys => some (g, mmu.insert typ page phys, .ok (phys + va % 2 ^ 12))
      | .error e => some (g, mmu, .error e)

/-! ### The mapping of fetches -/

/-- The page of an address. -/
def pageOf (va : Nat) : Nat := va / 2 ^ 12 * 2 ^ 12

@[simp] theorem pageOf_pageOf (va : Nat) : pageOf (pageOf va) = pageOf va := by
  unfold pageOf
  omega

/-- The page at the end of the walk for a fetch, without regard to privilege: at EL1 every page may
be fetched. -/
def walkedPage (g : Guest) (va : Nat) : Option Nat :=
  (translateL1 g.memory (tableBase g (pageOf va)) ⟨pageOf va, .el1⟩ .fetch).toOption

/-- The page to which the page of an address is mapped. -/
def mappedPage (g : Guest) (va : Nat) : Option Nat :=
  if mmuEnabled g then walkedPage g va else some (pageOf va)

theorem walkedPage_pageOf (g : Guest) (va : Nat) : walkedPage g (pageOf va) = walkedPage g va := by
  unfold walkedPage
  rw [pageOf_pageOf]

theorem mappedPage_pageOf (g : Guest) (va : Nat) : mappedPage g (pageOf va) = mappedPage g va := by
  unfold mappedPage
  rw [walkedPage_pageOf, pageOf_pageOf]

/-- The mapping is a matter of the memory and of three registers. -/
structure SameTables (g g' : Guest) : Prop where
  memory : g'.memory = g.memory
  sctlr : g'.registers "SCTLR_EL1_bits" = g.registers "SCTLR_EL1_bits"
  ttbr0 : g'.registers "_TTBR0_EL1_bits" = g.registers "_TTBR0_EL1_bits"
  ttbr1 : g'.registers "_TTBR1_EL1_bits" = g.registers "_TTBR1_EL1_bits"

theorem SameTables.refl (g : Guest) : SameTables g g := ⟨rfl, rfl, rfl, rfl⟩

variable {g g' : Guest}

theorem SameTables.write (h : SameTables g g') (register : String) (value : Nat)
    (hr : register ∉ ["SCTLR_EL1_bits", "_TTBR0_EL1_bits", "_TTBR1_EL1_bits"]) :
    SameTables g (g'.write register value) := by
  have hne : ∀ name ∈ ["SCTLR_EL1_bits", "_TTBR0_EL1_bits", "_TTBR1_EL1_bits"],
      (g'.write register value).registers name = g'.registers name := by
    intro name hname
    refine Function.update_of_ne ?_ ..
    rintro rfl
    exact hr hname
  refine ⟨h.memory, ?_, ?_, ?_⟩
  · rw [hne _ (by simp), h.sctlr]
  · rw [hne _ (by simp), h.ttbr0]
  · rw [hne _ (by simp), h.ttbr1]

theorem SameTables.walkedPage (h : SameTables g g') (va : Nat) : walkedPage g' va = walkedPage g va := by
  unfold Brig.walkedPage tableBase
  rw [h.memory, h.ttbr0, h.ttbr1]

theorem SameTables.mappedPage (h : SameTables g g') (va : Nat) : mappedPage g' va = mappedPage g va := by
  unfold Brig.mappedPage mmuEnabled
  rw [h.walkedPage, h.sctlr]

variable {va : Nat} {typ : TranslationType}

theorem walkedPage_mod {phys : Nat} (h : walkedPage g va = some phys) : phys % 2 ^ 12 = 0 := by
  unfold walkedPage at h
  cases hwalk : translateL1 g.memory (tableBase g (pageOf va)) ⟨pageOf va, .el1⟩ .fetch with
  | error e =>
    rw [hwalk] at h
    cases h
  | ok addr =>
    rw [hwalk] at h
    cases h
    rw [translateL1_mod hwalk]
    unfold pageOf
    dsimp only
    omega

/-- Every entry of the fetch buffer is what a walk finds. -/
def Fresh (g : Guest) (mmu : Mmu) : Prop :=
  ∀ i, (mmu.tlb .fetch i).guestVirtPage ≠ 2 ^ 64 - 1 →
    walkedPage g ((mmu.tlb .fetch i).guestVirtPage * 2 ^ 12) = some (mmu.tlb .fetch i).guestPhysPage

theorem fresh_flushTlb (g : Guest) (mmu : Mmu) : Fresh g mmu.flushTlb :=
  fun _ h => absurd rfl h

variable {mmu : Mmu}

theorem Fresh.congr (h : Fresh g mmu) (hwalk : ∀ i, (mmu.tlb .fetch i).guestVirtPage ≠ 2 ^ 64 - 1 →
      walkedPage g' ((mmu.tlb .fetch i).guestVirtPage * 2 ^ 12) =
        walkedPage g ((mmu.tlb .fetch i).guestVirtPage * 2 ^ 12)) : Fresh g' mmu :=
  fun i hi => (hwalk i hi).trans (h i hi)

theorem Fresh.insert (h : Fresh g mmu) {page phys : Nat}
    (hwalk : walkedPage g (page * 2 ^ 12) = some phys) : Fresh g (mmu.insert .fetch page phys) := by
  intro i
  have htlb : (mmu.insert .fetch page phys).tlb .fetch =
      Function.update (mmu.tlb .fetch) (page % 4096) ⟨page, phys⟩ := by
    simp only [Mmu.insert, Function.update_self]
  rw [htlb]
  by_cases hi : i = page % 4096
  · subst hi
    rw [Function.update_self]
    exact fun _ => hwalk
  · rw [Function.update_of_ne hi]
    exact h i

variable {mmu' : Mmu} {result : Except TranslationError Nat}

/-- Walks do not change the buffers, and those for data and fetches not the guest. -/
theorem rawGuestTranslate_spec (h : rawGuestTranslate g mmu va typ = some (g', mmu', result)) :
    mmu'.tlb = mmu.tlb ∧
      (typ ≠ .translate → g' = g ∧ ∃ el, translateL1 g.memory (tableBase g va) ⟨va, el⟩ typ = result) := by
  obtain ⟨el, -, h⟩ := bind_eq_some_iff.mp h
  split at h
  · cases h
  · dsimp only at h
    split at h <;> rename_i hwalk <;> split at h <;> rename_i htyp <;> cases h
    all_goals first
      | exact ⟨rfl, fun h => absurd htyp h⟩
      | exact ⟨rfl, fun _ => ⟨rfl, _, hwalk⟩⟩

/-- **A translation of a fetch gives the page to which the address is mapped**, from the buffer or
from a walk, and keeps the buffer fresh. -/
theorem guestTranslate_fetch (hva : va < 2 ^ 64) (hfresh : Fresh g mmu)
    (h : guestTranslate g mmu va .fetch = some (g', mmu', result)) :
    g' = g ∧ Fresh g mmu' ∧ ∀ addr, result = .ok addr → mappedPage g va = some (pageOf addr) := by
  unfold guestTranslate at h
  split at h
  · rename_i hoff
    cases h
    refine ⟨rfl, hfresh, fun addr haddr => ?_⟩
    cases haddr
    rw [mappedPage, if_neg (by simpa using hoff)]
  · rename_i hon
    have hpage : va / 2 ^ 12 * 2 ^ 12 = pageOf va := rfl
    have hmapped : ∀ {phys}, walkedPage g (va / 2 ^ 12 * 2 ^ 12) = some phys →
        mappedPage g va = some (pageOf (phys + va % 2 ^ 12)) := fun {phys} h => by
      have hmod := walkedPage_mod h
      rw [hpage, walkedPage_pageOf] at h
      rw [mappedPage, if_pos (by simpa using hon), h]
      congr 1
      unfold pageOf
      omega
    rw [if_neg (by decide)] at h
    dsimp only at h
    split at h
    · rename_i hhit
      cases h
      refine ⟨rfl, hfresh, fun addr haddr => ?_⟩
      cases haddr
      have hentry := hfresh (va / 2 ^ 12 % 4096) (by omega)
      rw [hhit] at hentry
      exact hmapped hentry
    · obtain ⟨⟨g1, mmu1, result1⟩, hraw, h⟩ := bind_eq_some_iff.mp h
      obtain ⟨htlb, hkept⟩ := rawGuestTranslate_spec hraw
      obtain ⟨rfl, el, hwalk⟩ := hkept (by decide)
      have hfresh1 : Fresh g1 mmu1 := by
        unfold Fresh
        rw [htlb]
        exact hfresh
      cases result1 with
      | error e =>
        cases h
        exact ⟨rfl, hfresh1, nofun⟩
      | ok phys =>
        cases h
        have hok : walkedPage g1 (va / 2 ^ 12 * 2 ^ 12) = some phys := by
          unfold walkedPage
          rw [hpage, pageOf_pageOf, ← hpage, translateL1_fetch hwalk]
          rfl
        refine ⟨rfl, hfresh1.insert hok, fun addr haddr => ?_⟩
        cases haddr
        exact hmapped hok

/-- A translation for data or a fetch does not change the guest, and fills entries of its own buffer only. -/
theorem guestTranslate_spec (h : guestTranslate g mmu va typ = some (g', mmu', result)) : (typ ≠ .translate → g' = g) ∧
    ∀ t i, mmu'.tlb t i = mmu.tlb t i ∨ t = typ ∧ (mmu'.tlb t i).guestVirtPage = va / 2 ^ 12 := by
  unfold guestTranslate at h
  split at h
  · cases h
    exact ⟨fun _ => rfl, fun _ _ => .inl rfl⟩
  · split at h
    · rename_i htyp
      exact ⟨fun h => absurd htyp h, fun t i => .inl (by rw [(rawGuestTranslate_spec h).1])⟩
    · rename_i htyp
      dsimp only at h
      split at h
      · cases h
        exact ⟨fun _ => rfl, fun _ _ => .inl rfl⟩
      · obtain ⟨⟨g1, mmu1, result1⟩, hraw, h⟩ := bind_eq_some_iff.mp h
        obtain ⟨htlb, hkept⟩ := rawGuestTranslate_spec hraw
        rw [← htlb]
        cases result1 with
        | error e =>
          cases h
          exact ⟨fun _ => (hkept htyp).1, fun _ _ => .inl rfl⟩
        | ok phys =>
          cases h
          refine ⟨fun _ => (hkept htyp).1, fun t i => ?_⟩
          by_cases hi : t = typ ∧ i = va / 2 ^ 12 % 4096
          · obtain ⟨rfl, rfl⟩ := hi
            exact .inr ⟨rfl, by simp [Mmu.insert]⟩
          · left
            by_cases ht : t = typ
            · subst ht
              simp_all [Mmu.insert]
            · simp [Mmu.insert, ht]

/-- Other translations leave the fetch buffer alone. -/
theorem guestTranslate_tlb (htyp : typ ≠ .fetch) (h : guestTranslate g mmu va typ = some (g', mmu', result)) :
    mmu'.tlb .fetch = mmu.tlb .fetch :=
  funext fun i => ((guestTranslate_spec h).2 .fetch i).resolve_right fun h => htyp h.1.symm

/-! ### Exceptions -/

/-- `write_to_el`: the buffers hold what the other level was allowed. -/
def writeToEl (old new : Nat) (mmu : Mmu) : Mmu := if old ≠ new then mmu.flushTlb else mmu

theorem writeToEl_fresh (h : Fresh g mmu) (old new : Nat) : Fresh g (writeToEl old new mmu) := by
  unfold writeToEl
  split
  · exact fresh_flushTlb g mmu
  · exact h

def getPsrFromPstate (g : Guest) : Nat :=
  let flag (name : String) (bit : Nat) := ((g.registers name % 2 ^ 8) <<< bit) % 2 ^ 32
  flag "PSTATE_N" 31 ||| flag "PSTATE_Z" 30 ||| flag "PSTATE_C" 29 ||| flag "PSTATE_V" 28 |||
    flag "PSTATE_D" 9 ||| flag "PSTATE_A" 8 ||| flag "PSTATE_I" 7 ||| flag "PSTATE_F" 6 |||
    flag "PSTATE_EL" 2 ||| flag "PSTATE_SP" 0

def getExceptionClass (currentEl targetEl typ : Nat) : Option Nat :=
  match typ with
  | 0 => some (0x38 + 4)
  | 1 => some (if targetEl = currentEl then 0x25 else 0x24)
  | 2 => some 0
  | 3 => some (0x11 + 4)
  | 4 => some (if targetEl = currentEl then 0x21 else 0x20)
  | 5 => some 0x07
  | 6 => some 0x32
  | _ => none

/-- The exception registers, which an interrupt (type 255) leaves alone. -/
def writeSyndrome (currentEl targetEl typ syndrome vaddr : Nat) (g : Guest) : Option Guest :=
  if typ = 255 then some g
  else (getExceptionClass currentEl targetEl typ).map fun ec =>
    let g := g.write "ESR_EL1_bits" (ec <<< 26 ||| 1 <<< 25 ||| syndrome % 2 ^ 25)
    if typ = 1 ∨ typ = 4 then g.write "FAR_EL1" vaddr else g

/-- `take_arm_exception`; `none` is a panic. -/
def takeArmException (g : Guest) (mmu : Mmu) (targetEl typ syndrome vaddr retaddr voff : Nat) :
    Option (Guest × Mmu) :=
  let spsr := getPsrFromPstate g
  let currentEl := g.registers "PSTATE_EL" % 2 ^ 8
  let voff := if targetEl > currentEl then voff + 0x400
    else if g.registers "PSTATE_SP" % 2 ^ 8 = 1 then voff + 0x200 else voff
  let mmu := writeToEl currentEl targetEl mmu
  let g := (g.write "PSTATE_EL" targetEl).write "PSTATE_SP" 1
  if targetEl ≠ 1 then none
  else (writeSyndrome currentEl targetEl typ syndrome vaddr
      ((g.write "SPSR_EL1_bits" spsr).write "ELR_EL1" retaddr)).map fun g =>
    let g := (((g.write "PSTATE_D" 1).write "PSTATE_A" 1).write "PSTATE_I" 1).write "PSTATE_F" 1
    (g.write "_PC" ((g.registers "VBAR_EL1" + voff) % 2 ^ 64), mmu)

/-- `guest_page_fault`: an instruction abort for a fetch, otherwise a data abort. -/
def guestPageFault (g : Guest) (mmu : Mmu) (va : Nat) (error : TranslationError) : Option (Guest × Mmu) :=
  takeArmException g mmu 1 (if error.translationType = .fetch then 4 else 1) error.toSyndrome va g.pc 0

theorem writeSyndrome_sameTables {g0 : Guest} {currentEl targetEl typ syndrome vaddr : Nat}
    (h0 : SameTables g0 g) (h : writeSyndrome currentEl targetEl typ syndrome vaddr g = some g') :
    SameTables g0 g' := by
  unfold writeSyndrome at h
  split at h
  · cases h
    exact h0
  · obtain ⟨ec, -, rfl⟩ := map_eq_some_iff.mp h
    split
    · exact (h0.write "ESR_EL1_bits" _ (by decide)).write "FAR_EL1" _ (by decide)
    · exact h0.write "ESR_EL1_bits" _ (by decide)

variable {targetEl typ syndrome vaddr retaddr voff : Nat}

/-- **An exception changes no mapping**, and keeps the fetch buffer fresh. -/
theorem takeArmException_spec
    (h : takeArmException g mmu targetEl typ syndrome vaddr retaddr voff = some (g', mmu')) :
    SameTables g g' ∧ (Fresh g mmu → Fresh g' mmu') := by
  unfold takeArmException at h
  dsimp only at h
  split at h
  · cases h
  · obtain ⟨g1, hg1, heq⟩ := map_eq_some_iff.mp h
    cases heq
    have hbefore : SameTables g g1 := writeSyndrome_sameTables
      (((((SameTables.refl g).write "PSTATE_EL" _ (by decide)).write "PSTATE_SP" _ (by decide)).write
        "SPSR_EL1_bits" _ (by decide)).write "ELR_EL1" _ (by decide)) hg1
    have hmasked := (((hbefore.write "PSTATE_D" 1 (by decide)).write "PSTATE_A" 1 (by decide)).write
      "PSTATE_I" 1 (by decide)).write "PSTATE_F" 1 (by decide)
    refine ⟨hmasked.write "_PC" _ (by decide), fun hfresh => ?_⟩
    exact (writeToEl_fresh hfresh _ _).congr fun i _ =>
      (hmasked.write "_PC" _ (by decide)).walkedPage _

/-- The fetch buffer is left alone or cleared. -/
def TlbKept (mmu mmu' : Mmu) : Prop :=
  mmu'.tlb .fetch = mmu.tlb .fetch ∨ mmu'.tlb .fetch = fun _ => .cleared

theorem TlbKept.trans {mmu1 mmu2 mmu3 : Mmu} (h : TlbKept mmu1 mmu2) (h' : TlbKept mmu2 mmu3) :
    TlbKept mmu1 mmu3 := by
  rcases h' with h' | h'
  · unfold TlbKept
    rw [h']
    exact h
  · exact .inr h'

theorem writeToEl_tlb (old new : Nat) (mmu : Mmu) : TlbKept mmu (writeToEl old new mmu) := by
  unfold writeToEl
  split
  · exact .inr rfl
  · exact .inl rfl

theorem takeArmException_tlb
    (h : takeArmException g mmu targetEl typ syndrome vaddr retaddr voff = some (g', mmu')) :
    TlbKept mmu mmu' := by
  unfold takeArmException at h
  dsimp only at h
  split at h
  · cases h
  · obtain ⟨g1, -, heq⟩ := map_eq_some_iff.mp h
    cases heq
    exact writeToEl_tlb _ _ mmu

theorem Fresh.kept (h : Fresh g mmu) (hkept : TlbKept mmu mmu')
    (hwalk : ∀ i, (mmu.tlb .fetch i).guestVirtPage ≠ 2 ^ 64 - 1 →
      walkedPage g' ((mmu.tlb .fetch i).guestVirtPage * 2 ^ 12) =
        walkedPage g ((mmu.tlb .fetch i).guestVirtPage * 2 ^ 12)) : Fresh g' mmu' := by
  unfold Fresh
  rcases hkept with heq | heq
  · rw [heq]
    exact h.congr hwalk
  · rw [heq]
    exact fun i hi => absurd rfl hi

end Icewind.Brig
