import Icewind.Brig.ChainCache
import Icewind.Brig.Mmu
import Icewind.Rudder.Ast

/-!
# The execution loop

Model of `ModelDevice::block_exec` in `brig/brig/src/guest/models.rs`.  The loop finds the physical
page of the program counter, looks for a translated block there, translates one if there is none,
and runs it; a block that ends without anything to report jumps to the next one through the chain
cache.

The instructions of the guest are not fixed: what a translation reads and writes in the register
file, and what the translated code does when it runs, are inputs of the steps.

* `Machine.dispatch` — one round of the loop up to the start of a block.
* `Machine.finish` — the run of a block up to the start of the next one or back to the loop.
* `Step` — both.  In every state between two steps in which `running` is a block, that block is
  about to run.
* `Performed` — what a run of a block leaves alone.
-/

namespace Icewind.Brig

open Function Option
open Rudder (RegisterCacheType)

/-! ### Cacheable registers -/

/-- The registers of the read-cached kind that are given by their full name. -/
def readCached : List String :=
  ["PSTATE_EL", "PSTATE_SM", "_MPAM1_EL1_bits", "_MPAM3_EL3_bits", "_MPAM3_EL3_bits",
    "MPAM0_EL1_bits", "MPAM2_EL2_bits", "SCR_EL3_bits", "CPTR_EL2_bits", "CPTR_EL3_bits",
    "_EDSCR_bits", "MDCCSR_EL0_bits", "SMCR_EL1_bits", "SMCR_EL2_bits", "SMCR_EL3_LEN_VALUE",
    "SMCR_EL3_bits", "SCTLR_EL1_bits", "SCTLR_EL2_bits", "SCTLR_EL3_bits", "CPACR_EL1_bits",
    "FPCR_bits"]

def startsWith (name start : String) : Bool := start.toList.isPrefixOf name.toList

def endsWith (name ending : String) : Bool := ending.toList.isSuffixOf name.toList

def registerCacheType (name : String) : RegisterCacheType :=
  if name = "FeatureImpl" ∨ endsWith name "IMPLEMENTED" ∨ name = "EL0" ∨ name = "EL1" ∨ name = "EL2" ∨
      name = "EL3" ∨ name = "MPAMIDR_EL1_bits" then .constant
  else if name = "SEE" ∨ name = "have_exception" ∨ startsWith name "current_exception" then .readWrite
  else if startsWith name "SPE" ∨ name ∈ readCached then .read
  else .none

/-! ### Translation -/

/-- What a translated block reports when it returns to the loop, apart from interrupts. -/
structure ExecutionResult where
  needTlbInvalidate : Bool
  needCodeCacheFlush : Bool
  deriving DecidableEq

/-- A translated block: where the loop put it in the block cache, what it reports, and the values of
cacheable registers that it has as constants. -/
structure TranslatedBlock where
  page : Nat
  offset : Nat
  result : ExecutionResult
  embedded : List (String × Nat)
  deriving DecidableEq

/-- An access of the translation to the register file.  Reads are those that no earlier write of the
same function answers. -/
inductive Access where
  | read (register : String)
  | write (register : String) (value : Nat)
  deriving DecidableEq

/-- A translation of a block by what it does with the register file. -/
structure Translation where
  accesses : List Access
  result : ExecutionResult

/-- The constants a translation embeds, and the register file it leaves: constants written to
registers of the read-write kind are written during translation.  `none` is the panic on a write to
a constant register. -/
def translateAccesses : List Access → Registers → Option (List (String × Nat) × Registers)
  | [], registers => some ([], registers)
  | .read register :: rest, registers => do
    let (embedded, registers') ← translateAccesses rest registers
    match registerCacheType register with
    | .none => some (embedded, registers')
    | _ => some ((register, registers register) :: embedded, registers')
  | .write register value :: rest, registers =>
    match registerCacheType register with
    | .constant => none
    | .readWrite => translateAccesses rest (Function.update registers register value)
    | _ => translateAccesses rest registers

/-! ### The machine -/

/-- A pointer to translated code; `none` is the null pointer. -/
abbrev CodePtr := Option TranslatedBlock

structure Machine where
  guest : Guest
  mmu : Mmu
  /-- By the physical page and the offset in it. -/
  blockCache : Nat → Nat → Option TranslatedBlock
  chainCache : DirectMappedCache chainCacheEntryCount CodePtr
  staleCodePages : List Nat
  regionVirtBase : Nat
  regionPhysBase : Nat
  /-- The block that is about to run; `none` at the head of the loop. -/
  running : Option TranslatedBlock

/-- What translated code does, one thing after the other. -/
inductive Effect where
  /-- A write to a register; one to `PSTATE_EL` calls `write_to_el` first. -/
  | writeRegister (register : String) (value : Nat)
  /-- A store, by its physical address. -/
  | store (address value : Nat)
  /-- A read or write of memory for which the host has no mapping. -/
  | readFault (address : Nat)
  | writeFault (address : Nat)
  /-- The address translation instruction. -/
  | translateAddress (address : Nat)
  | setUnprivileged (value : Nat)
  /-- A store to a page with translated code. -/
  | stalePage (page : Nat)

namespace Machine

def initial (guest : Guest) : Machine where
  guest := guest
  mmu := ⟨fun _ _ => .cleared, 0⟩
  blockCache := fun _ _ => none
  chainCache := .new chainCacheEntryCount none 1
  staleCodePages := []
  regionVirtBase := 1
  regionPhysBase := 1
  running := none

/-- Restoring the safepoint leads back to the start of the loop and its initial region. -/
def restoreSafepoint (m : Machine) : Machine :=
  { m with regionVirtBase := 1, regionPhysBase := 1, running := none }

/-- `guest_page_fault`, with the exception taken and the safepoint restored. -/
def fault (m : Machine) (va : Nat) (error : TranslationError) : Option Machine :=
  (guestPageFault m.guest m.mmu va error).map fun (guest, mmu) =>
    { m with guest := guest, mmu := mmu }.restoreSafepoint

/-- Forget the translations of pages that have been written to. -/
def clearStalePages (m : Machine) : Machine :=
  if m.staleCodePages = [] then m
  else { m with
    chainCache := m.chainCache.fillKeys 1
    blockCache := fun page => if page ∈ m.staleCodePages then fun _ => none else m.blockCache page
    staleCodePages := [] }

/-- Find the physical page of the program counter, unless it is still on the page of the last time.
`false` if that faults. -/
def findRegion (m : Machine) : Option (Machine × Bool) :=
  let pc := m.guest.pc
  if pageOf pc ≠ m.regionVirtBase then do
    let (guest, mmu, result) ← guestTranslate m.guest m.mmu pc .fetch
    let m := { m with guest := guest, mmu := mmu }
    match result with
    | .ok phys => some ({ m with regionVirtBase := pageOf pc, regionPhysBase := pageOf phys }, true)
    | .error e => (m.fault (pageOf pc) e).map fun m => (m, false)
  else some (m, true)

/-- The block in the cache, or a new translation.  The translator reads opcodes at their guest virtual addresses; the
host page faults this can cause, which fill the TLB for reads or are taken by the guest, are left out. -/
def findBlock (m : Machine) (translation : Translation) : Option (Machine × TranslatedBlock) :=
  let page := m.regionPhysBase
  let offset := m.guest.pc % 2 ^ 12
  match m.blockCache page offset with
  | some block => some (m, block)
  | none => do
    let (embedded, registers) ← translateAccesses translation.accesses m.guest.registers
    let block := ⟨page, offset, translation.result, embedded⟩
    some ({ m with
      guest := { m.guest with registers := registers }
      blockCache := Function.update m.blockCache page
        (Function.update (m.blockCache page) offset (some block)) }, block)

/-- From the head of the loop to the start of a block.  The program counter is read once, before the
block is translated. -/
def dispatch (m : Machine) (translation : Translation) : Option Machine := do
  let (m, found) ← m.clearStalePages.findRegion
  if found then
    let pc := m.guest.pc
    let (m, block) ← m.findBlock translation
    some { m with
      chainCache := m.chainCache.insert pc (some block)
      running := some block }
  else some m

/-- The fault handler of the host translates the address; `true` if the guest takes a fault. -/
def access (m : Machine) (va : Nat) (typ : TranslationType) : Option (Machine × Bool) := do
  let (guest, mmu, result) ← guestTranslate m.guest m.mmu va typ
  let m := { m with guest := guest, mmu := mmu }
  match result with
  | .ok _ => some (m, false)
  | .error e => (m.fault (pageOf va) e).map fun m => (m, true)

def perform (m : Machine) : Effect → Option (Machine × Bool)
  | .writeRegister register value =>
    let mmu := if register = "PSTATE_EL" then
      writeToEl (m.guest.registers "PSTATE_EL") value m.mmu else m.mmu
    some ({ m with guest := m.guest.write register value, mmu := mmu }, false)
  | .store address value => some ({ m with guest := m.guest.store address value }, false)
  | .readFault address => m.access address .read
  | .writeFault address => m.access address .write
  | .translateAddress address => m.access address .translate
  | .setUnprivileged value =>
    some ({ m with mmu := { m.mmu with unprivilegedAccess := value } }, false)
  | .stalePage page => some ({ m with staleCodePages := page :: m.staleCodePages }, false)

/-- The effects in order; a fault abandons the rest. -/
def performAll : List Effect → Machine → Option (Machine × Bool)
  | [], m => some (m, false)
  | effect :: rest, m => do
    let (m, faulted) ← m.perform effect
    if faulted then some (m, true) else performAll rest m

/-- Forget what the block reports as outdated.  The block cache is kept. -/
def forget (m : Machine) (result : ExecutionResult) : Machine :=
  { m with
    chainCache := if result.needTlbInvalidate ∨ result.needCodeCacheFlush then
      m.chainCache.fillKeys 1 else m.chainCache
    mmu := if result.needTlbInvalidate then m.mmu.flushTlb else m.mmu }

/-- Take a pending interrupt, if interrupts are not masked, and go back to the head of the loop. -/
def interrupt (m : Machine) (interruptPending : Bool) : Option Machine :=
  if interruptPending ∧ m.guest.registers "PSTATE_I" = 0 then
    (takeArmException m.guest m.mmu 1 255 0 0 m.guest.pc 0x80).map fun (guest, mmu) =>
      { m with guest := guest, mmu := mmu, running := none }
  else some { m with running := none }

/-- Run a block.  If it has nothing to report it goes on at the block that the chain cache has for the
program counter; `none` includes a jump through the null pointer. -/
def finish (m : Machine) (block : TranslatedBlock) (effects : List Effect) (interruptPending : Bool) :
    Option Machine := do
  let (m, faulted) ← performAll effects m
  if faulted then some m
  else if interruptPending ∨ block.result.needTlbInvalidate ∨ block.result.needCodeCacheFlush then
    (m.forget block.result).interrupt interruptPending
  else match m.chainCache.get m.guest.pc with
    | none => (m.forget block.result).interrupt false
    | some none => none
    | some (some next) => some { m with running := some next }

end Machine

/-- One step of the machine. -/
inductive Step : Machine → Machine → Prop where
  | dispatch {m m' : Machine} (translation : Translation) :
      m.running = none → m.dispatch translation = some m' → Step m m'
  | finish {m m' : Machine} {block : TranslatedBlock} (effects : List Effect) (interruptPending : Bool) :
      m.running = some block → m.finish block effects interruptPending = some m' → Step m m'

/-! ### What steps leave alone -/

/-- What the run of a block can do to the memory of the loop. -/
structure Performed (m m' : Machine) (faulted : Bool) : Prop where
  blockCache : m'.blockCache = m.blockCache
  chainCache : m'.chainCache = m.chainCache
  tlb : TlbKept m.mmu m'.mmu
  region : faulted = false → m'.regionVirtBase = m.regionVirtBase ∧ m'.regionPhysBase = m.regionPhysBase
  restored : faulted = true → m'.regionVirtBase = 1 ∧ m'.running = none

theorem Performed.refl (m : Machine) : Performed m m false :=
  ⟨rfl, rfl, .inl rfl, fun _ => ⟨rfl, rfl⟩, nofun⟩

variable {faulted : Bool}

theorem Performed.trans {m1 m2 m3 : Machine} (h : Performed m1 m2 false) (h' : Performed m2 m3 faulted) :
    Performed m1 m3 faulted := by
  refine ⟨h'.blockCache.trans h.blockCache, h'.chainCache.trans h.chainCache, h.tlb.trans h'.tlb,
    fun hf => ?_, h'.restored⟩
  obtain ⟨hv, hp⟩ := h.region rfl
  obtain ⟨hv', hp'⟩ := h'.region hf
  exact ⟨hv'.trans hv, hp'.trans hp⟩

variable {m m' : Machine} {error : TranslationError} {va : Nat}

theorem Machine.fault_spec (h : m.fault va error = some m') :
    SameTables m.guest m'.guest ∧ Performed m m' true := by
  obtain ⟨⟨guest, mmu⟩, hfault, rfl⟩ := map_eq_some_iff.mp h
  refine ⟨(takeArmException_spec hfault).1, rfl, rfl, takeArmException_tlb hfault, nofun, fun _ => ⟨rfl, rfl⟩⟩

theorem Machine.access_performed {typ : TranslationType} (htyp : typ ≠ .fetch)
    (h : m.access va typ = some (m', faulted)) : Performed m m' faulted := by
  obtain ⟨⟨guest, mmu, result⟩, htranslate, h⟩ := bind_eq_some_iff.mp h
  have htlb : TlbKept m.mmu mmu := .inl (guestTranslate_tlb htyp htranslate)
  cases result with
  | ok phys =>
    cases h
    exact ⟨rfl, rfl, htlb, fun _ => ⟨rfl, rfl⟩, nofun⟩
  | error e =>
    obtain ⟨m1, hfault, heq⟩ := map_eq_some_iff.mp h
    cases heq
    have hperformed : Performed m { m with guest := guest, mmu := mmu } false :=
      ⟨rfl, rfl, htlb, fun _ => ⟨rfl, rfl⟩, nofun⟩
    exact hperformed.trans (Machine.fault_spec hfault).2

theorem Machine.perform_performed {effect : Effect} (h : m.perform effect = some (m', faulted)) :
    Performed m m' faulted := by
  cases effect with
  | writeRegister register value =>
    cases h
    refine ⟨rfl, rfl, ?_, fun _ => ⟨rfl, rfl⟩, nofun⟩
    split
    · exact writeToEl_tlb _ _ _
    · exact .inl rfl
  | readFault | writeFault | translateAddress => exact Machine.access_performed (by decide) h
  | store | setUnprivileged | stalePage =>
    cases h
    exact ⟨rfl, rfl, .inl rfl, fun _ => ⟨rfl, rfl⟩, nofun⟩

/-- **The run of a block.** -/
theorem Machine.performAll_performed : ∀ {effects : List Effect} {m m' : Machine} {faulted : Bool},
    performAll effects m = some (m', faulted) → Performed m m' faulted := by
  intro effects
  induction effects with
  | nil =>
    intro m m' faulted h
    cases h
    exact .refl m
  | cons effect rest ih =>
    intro m m' faulted h
    obtain ⟨⟨m1, faulted1⟩, hperform, h⟩ := bind_eq_some_iff.mp h
    have hperformed := Machine.perform_performed hperform
    cases faulted1 with
    | true =>
      cases h
      exact hperformed
    | false => exact hperformed.trans (ih h)

variable {accesses : List Access} {registers registers' : Registers} {embedded : List (String × Nat)}

/-- A translation writes only registers of the read-write kind. -/
theorem translateAccesses_kept {name : String} (h : translateAccesses accesses registers = some (embedded, registers'))
    (hname : ∀ value, .write name value ∈ accesses → registerCacheType name ≠ .readWrite) :
    registers' name = registers name := by
  induction accesses generalizing registers registers' embedded with
  | nil =>
    cases h
    rfl
  | cons access rest ih =>
    have hrest : ∀ value, .write name value ∈ rest → registerCacheType name ≠ .readWrite :=
      fun value hmem => hname value (List.mem_cons_of_mem _ hmem)
    cases access with
    | read register =>
      obtain ⟨⟨embedded1, registers1⟩, htranslate, h⟩ := bind_eq_some_iff.mp h
      have hregisters := ih htranslate hrest
      dsimp only at h
      split at h <;> cases h <;> exact hregisters
    | write register value =>
      rw [translateAccesses] at h
      split at h
      · cases h
      · rename_i htype
        have hne : name ≠ register := by
          rintro rfl
          exact hname value List.mem_cons_self htype
        rw [ih h hrest, update_of_ne hne]
      · exact ih h hrest

end Icewind.Brig
