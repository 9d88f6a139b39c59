import Icewind.X86.Encoder
import Mathlib.Logic.Function.Basic

/-!
# The register allocator

Model of `brig/dbt/src/x86/register_allocator.rs`.  A panic of the source is `none`.

* `calculateVregLiveRanges` — forward over the instructions: first definition and last use of every
  virtual register; a definition that is overwritten before any use kills its instruction.
* `doAllocate` — backward over the instructions: a virtual register gets a physical one at its last
  use and gives it up at its first definition.  A physical register that an instruction names
  while a virtual register holds it moves that virtual register.
* `commit` — rewrites the operands, drops redundant moves, and saves registers around calls.
-/

namespace Icewind.X86

/-- `PhysicalRegisterSet`. -/
abbrev RegisterSet := PhysicalRegister → Bool

namespace RegisterSet

def empty : RegisterSet := fun _ => false

def insert (s : RegisterSet) (r : PhysicalRegister) : RegisterSet := Function.update s r true

def remove (s : RegisterSet) (r : PhysicalRegister) : RegisterSet := Function.update s r false

def extend (s other : RegisterSet) : RegisterSet := fun r => s r || other r

/-- `first_difference`: the first register, by index, in `s` and not in `other`. -/
def firstDifference (s other : RegisterSet) : Option PhysicalRegister :=
  PhysicalRegister.all.find? fun r => s r && !other r

end RegisterSet

structure RegisterTrack where
  firstDef : Option Nat
  lastUse : Option Nat
  physicalRegister : Option PhysicalRegister
  tracking : Option Register
  interference : RegisterSet
  lastControlFlowCount : Nat

/-- `RegisterTrack::default`. -/
def RegisterTrack.default : RegisterTrack := ⟨none, none, none, none, .empty, 0⟩

structure RegisterTracker where
  virt : Nat → RegisterTrack
  phys : PhysicalRegister → RegisterTrack

namespace RegisterTracker

def new : RegisterTracker := ⟨fun _ => .default, fun _ => .default⟩

/-- `get`; nothing tracks a global register. -/
def get (t : RegisterTracker) : Register → Option RegisterTrack
  | .physical p => some (t.phys p)
  | .virtual v _ => some (t.virt v)
  | .global _ => none

def modifyVirt (t : RegisterTracker) (v : Nat) (f : RegisterTrack → RegisterTrack) : RegisterTracker :=
  { t with virt := Function.update t.virt v (f (t.virt v)) }

def modifyPhys (t : RegisterTracker) (p : PhysicalRegister) (f : RegisterTrack → RegisterTrack) :
    RegisterTracker :=
  { t with phys := Function.update t.phys p (f (t.phys p)) }

/-- `get_mut`. -/
def modify (t : RegisterTracker) (f : RegisterTrack → RegisterTrack) : Register → Option RegisterTracker
  | .physical p => some (t.modifyPhys p f)
  | .virtual v _ => some (t.modifyVirt v f)
  | .global _ => none

variable (t : RegisterTracker)

@[simp] theorem modifyVirt_phys (v : Nat) (f : RegisterTrack → RegisterTrack) :
    (t.modifyVirt v f).phys = t.phys := rfl

@[simp] theorem modifyPhys_virt (p : PhysicalRegister) (f : RegisterTrack → RegisterTrack) :
    (t.modifyPhys p f).virt = t.virt := rfl

theorem modifyVirt_virt (v u : Nat) (f : RegisterTrack → RegisterTrack) :
    (t.modifyVirt v f).virt u = if u = v then f (t.virt u) else t.virt u := by
  by_cases e : u = v
  · subst e; simp [modifyVirt]
  · simp [modifyVirt, e]

theorem modifyPhys_phys (p r : PhysicalRegister) (f : RegisterTrack → RegisterTrack) :
    (t.modifyPhys p f).phys r = if r = p then f (t.phys r) else t.phys r := by
  by_cases e : r = p
  · subst e; simp [modifyPhys]
  · simp [modifyPhys, e]

end RegisterTracker

namespace Opcode

/-- `JE`, `JNE` and `JMP`, the instructions that count as control flow. -/
def isBranch : Opcode → Bool
  | .je _ | .jne _ | .jmp _ => true
  | _ => false

/-- The entries of the use/def table that write a register. -/
def definitions (i : Opcode) : List UseDef :=
  (i.getUseDefs.map Prod.fst).filter fun ud => ud.defined.isSome

/-- The entries of the use/def table that read a register. -/
def uses (i : Opcode) : List UseDef :=
  (i.getUseDefs.map Prod.fst).filter fun ud => ud.used.isSome

end Opcode

/-! ## Live ranges -/

/-- State of the forward pass. -/
structure LiveRanges where
  tracker : RegisterTracker
  instructions : List Opcode
  controlFlowCount : Nat

/-- A definition met by the forward pass.  Virtual registers index a vector of `n` tracks; every
virtual register of the program is looked up in this pass first, so this is where an index out of
range panics. -/
def rangeDefinition (n current : Nat) (instr : Opcode) (st : LiveRanges) (ud : UseDef) : Option LiveRanges :=
  match ud.defined with
  | some (.virtual v cls) =>
    if n ≤ v then none else
    match (st.tracker.virt v).firstDef with
    | none =>
      some { st with tracker := st.tracker.modifyVirt v fun t =>
        { t with firstDef := some current, lastControlFlowCount := st.controlFlowCount } }
    | some first =>
      match instr with
      | .cmovne _ _ =>
        some { st with tracker := st.tracker.modifyVirt v fun t => { t with lastUse := some current } }
      | _ =>
        if (st.tracker.virt v).lastUse = none ∧ ud = .def_ (.virtual v cls) ∧
            (st.tracker.virt v).lastControlFlowCount = st.controlFlowCount then
          some { st with
            instructions := st.instructions.set first .dead
            tracker := st.tracker.modifyVirt v fun t => { t with firstDef := some current } }
        else some st
  | _ => some st

/-- A use met by the forward pass. -/
def rangeUse (n current : Nat) (st : LiveRanges) (ud : UseDef) : Option LiveRanges :=
  match ud.used with
  | some (.virtual v _) =>
    if n ≤ v then none else
    some { st with tracker := st.tracker.modifyVirt v fun t => { t with lastUse := some current } }
  | _ => some st

/-- One instruction of the forward pass: its definitions before its uses. -/
def rangeInstruction (n current : Nat) (instr : Opcode) (st : LiveRanges) : Option LiveRanges := do
  let count := if instr.isBranch then st.controlFlowCount + 1 else st.controlFlowCount
  let st ← instr.definitions.foldlM (rangeDefinition n current instr) { st with controlFlowCount := count }
  instr.uses.foldlM (rangeUse n current) st

/-- The loop of `calculate_vreg_live_ranges`.  It kills only instructions it has passed, so the
ones still to come are the original ones. -/
def rangeLoop (n : Nat) : Nat → List Opcode → LiveRanges → Option LiveRanges
  | _, [], st => some st
  | current, instr :: rest, st => do
    let st ← rangeInstruction n current instr st
    rangeLoop n (current + 1) rest st

def calculateVregLiveRanges (n : Nat) (instructions : List Opcode) :
    Option (RegisterTracker × List Opcode) := do
  let st ← rangeLoop n 0 instructions ⟨.new, instructions, 0⟩
  some (st.tracker, st.instructions)

/-! ## Allocation -/

def availPhysRegsGpr : List PhysicalRegister :=
  [.rax, .rcx, .rdx, .rbx, .rsi, .rdi, .r8, .r9, .r10, .r11, .r12, .r13, .r14]

def availPhysRegsXmm : List PhysicalRegister :=
  [.xmm0, .xmm1, .xmm2, .xmm3, .xmm4, .xmm5, .xmm6, .xmm7]

/-- The registers the allocator hands out for a class. -/
def availPhysRegs : RegisterClass → List PhysicalRegister
  | .general => availPhysRegsGpr
  | .xmm => availPhysRegsXmm

/-- `allocate_phys_reg`. -/
def allocatePhysReg (cls : RegisterClass) (inUse : RegisterSet) : Option PhysicalRegister :=
  RegisterSet.firstDifference (fun r => (availPhysRegs cls).contains r) inUse

/-- State of the backward scan; the calls met so far, the last one scanned first. -/
structure Scan where
  tracker : RegisterTracker
  live : RegisterSet
  liveAtCalls : List (Nat × RegisterSet)

/-- The live registers are added to the interference of whatever the live register `p` tracks. -/
def extendTracked (live : RegisterSet) (t : RegisterTracker) (p : PhysicalRegister) :
    Option RegisterTracker :=
  if live p then do
    let tracked ← (t.phys p).tracking
    t.modify (fun track => { track with interference := track.interference.extend live }) tracked
  else some t

/-- The loop over all registers that can be handed out. -/
def updateInterference (live : RegisterSet) (t : RegisterTracker) : Option RegisterTracker :=
  (availPhysRegsGpr ++ availPhysRegsXmm).foldlM (extendTracked live) t

/-- Definition of a virtual register; the flag says that the rest of the instruction is skipped. -/
def defineVirtual (current : Nat) (instr : Opcode) (v : Nat) (cls : RegisterClass) (st : Scan) :
    Option (Scan × Bool) :=
  let track := st.tracker.virt v
  if track.firstDef = some current then
    match track.lastUse with
    | none =>
      match instr with
      | .mov ⟨.memory .., _⟩ _ =>
        if track.physicalRegister.isSome then none else do
        let p ← allocatePhysReg cls track.interference
        some ({ st with tracker := st.tracker.modifyVirt v fun t => { t with physicalRegister := some p } },
          false)
      | _ => some (st, true)
    | some _ => do
      let p ← track.physicalRegister
      some ({ st with live := st.live.remove p }, false)
  else some (st, false)

/-- Definition of a physical register. -/
def definePhysical (p : PhysicalRegister) (st : Scan) : Option Scan :=
  if st.live p then
    let live := st.live.remove p
    match (st.tracker.phys p).tracking with
    | some (.virtual v cls) => do
      let q ← allocatePhysReg cls (st.tracker.virt v).interference
      let t := st.tracker.modifyVirt v fun t => { t with physicalRegister := some q }
      let t := t.modifyPhys q fun t => { t with tracking := some (.virtual v cls) }
      let live := live.insert q
      let t := t.modifyVirt v fun t => { t with interference := live }
      let t ← updateInterference live t
      some { st with tracker := t, live := live }
    | _ => some { st with live := live }
  else some st

/-- Use of a virtual register. -/
def useVirtual (current : Nat) (v : Nat) (cls : RegisterClass) (st : Scan) : Option Scan :=
  let track := st.tracker.virt v
  if track.lastUse = some current ∧ track.physicalRegister = none then do
    let p ← allocatePhysReg cls st.live
    let live := st.live.insert p
    let t := st.tracker.modifyVirt v fun t => { t with physicalRegister := some p, interference := live }
    let t := t.modifyPhys p fun t => { t with tracking := some (.virtual v cls) }
    let t ← updateInterference live t
    some { st with tracker := t, live := live }
  else some st

/-- Use of a physical register. -/
def usePhysical (p : PhysicalRegister) (st : Scan) : Option Scan :=
  if st.live p = true ∧ (st.tracker.phys p).tracking ≠ some (.physical p) then do
    let tracked ← (st.tracker.phys p).tracking
    let conflicting ← st.tracker.get tracked
    let q ← allocatePhysReg p.class_ conflicting.interference
    let live := st.live.insert q
    let t ← st.tracker.modify (fun t =>
      { t with physicalRegister := some q, interference := t.interference.extend live }) tracked
    let t := t.modifyPhys q fun t => { t with tracking := some tracked }
    let t ← updateInterference live t
    let t := t.modifyPhys p fun t => { t with tracking := some (.physical p) }
    some { st with tracker := t, live := live }
  else do
    let t := st.tracker.modifyPhys p fun t => { t with tracking := some (.physical p) }
    let live := st.live.insert p
    let t := t.modifyPhys p fun t => { t with interference := live }
    let t ← updateInterference live t
    some { st with tracker := t, live := live }

def define (current : Nat) (instr : Opcode) (ud : UseDef) (st : Scan) : Option (Scan × Bool) :=
  match ud.defined with
  | some (.virtual v cls) => defineVirtual current instr v cls st
  | some (.physical p) => do
    let st ← definePhysical p st
    some (st, false)
  | _ => some (st, false)

def use (current : Nat) (ud : UseDef) (st : Scan) : Option Scan :=
  match ud.used with
  | some (.virtual v cls) => useVirtual current v cls st
  | some (.physical p) => usePhysical p st
  | _ => some st

/-- The loop over the definitions of an instruction, left at the first one that skips it. -/
def defineAll (current : Nat) (instr : Opcode) : List UseDef → Scan → Option (Scan × Bool)
  | [], st => some (st, false)
  | ud :: uds, st => do
    let (st, skip) ← define current instr ud st
    if skip then some (st, true) else defineAll current instr uds st

/-- The live registers at a call. -/
def recordCall (current : Nat) (instr : Opcode) (st : Scan) : Scan :=
  match instr with
  | .call .. => { st with liveAtCalls := (current, st.live) :: st.liveAtCalls }
  | _ => st

/-- One instruction of the scan. -/
def scanInstruction (current : Nat) (instr : Opcode) (st : Scan) : Option Scan := do
  let (st, skip) ← defineAll current instr instr.definitions st
  if skip then some st else
  let st ← instr.uses.foldlM (fun st ud => use current ud st) st
  some (recordCall current instr st)

/-- The scan of the instructions from index `current` on, the last one first. -/
def scan : Nat → List Opcode → Scan → Option Scan
  | _, [], st => some st
  | current, instr :: rest, st => do
    let st ← scan (current + 1) rest st
    scanInstruction current instr st

def doAllocate (t : RegisterTracker) (instructions : List Opcode) : Option Scan :=
  scan 0 instructions ⟨t, .empty, []⟩

/-! ## Commit -/

/-- A global register lives in memory, at an offset from `rbp` that has to fit 32 bits. -/
def commitGlobal (globalRegisterOffset : Nat) (o : Operand) : Option Operand :=
  match o.kind with
  | .register (.global idx) =>
    let displacement := globalRegisterOffset + idx * 16
    if displacement < 2 ^ 31 then some (.memBaseDispl o.width (.physical .rbp) displacement) else none
  | _ => some o

def commitRegister (t : RegisterTracker) : Register → Option Register
  | .virtual v _ => (t.virt v).physicalRegister.map .physical
  | r => some r

/-- A move of a register to itself, unless it clears the upper half. -/
def killRedundantMov (i : Opcode) : Opcode :=
  match i with
  | .mov src dst => if src = dst ∧ src.width ≠ .w32 then .dead else i
  | _ => i

/-- The operands of one instruction. -/
def commitOperands (t : RegisterTracker) (globalRegisterOffset : Nat) (i : Opcode) : Option Opcode := do
  let i ← i.traverseOperands (commitGlobal globalRegisterOffset)
  let i ← i.traverseOperands (Operand.traverseRegisters (commitRegister t))
  some (killRedundantMov i)

/-- The registers saved around a call. -/
def toSave (live : RegisterSet) (nrInputArgs : Nat) (fnPtrRegister : PhysicalRegister) :
    List PhysicalRegister :=
  callerSaved.filter fun r => live r && !(argRegs.take nrInputArgs).contains r && r != fnPtrRegister

/-- `instructions[index] = i`. -/
def store (instructions : List Opcode) (index : Nat) (i : Opcode) : Option (List Opcode) :=
  if index < instructions.length then some (instructions.set index i) else none

/-- Pushes into the slots before the call at `i` and pops into the slots after it. -/
def insertCallSaves (i : Nat) (saved : List PhysicalRegister) (instructions : List Opcode) :
    Option (List Opcode) := do
  let instructions ← saved.zipIdx.foldlM (fun is (reg, sub) =>
    let back := callerSaved.length - sub
    if i < back then none else store is (i - back) (.push (.preg .w64 reg))) instructions
  saved.zipIdx.reverse.foldlM (fun is (reg, sub) =>
    store is (i + (callerSaved.length - sub)) (.pop (.preg .w64 reg))) instructions

/-- State of the commit loop: the instructions and the calls still to come. -/
abbrev Committing := List Opcode × List (Nat × RegisterSet)

def commitCall (i : Nat) (st : Committing) : Opcode → Option Committing
  | .call function nrInputArgs _ =>
    match function.kind, st.2 with
    | .register (.physical fnPtrRegister), (idx, live) :: calls =>
      if idx = i then do
        let instructions ← insertCallSaves i (toSave live nrInputArgs fnPtrRegister) st.1
        some (instructions, calls)
      else none
    | _, _ => none
  | _ => some st

def commitInstruction (t : RegisterTracker) (globalRegisterOffset : Nat) (st : Committing) (i : Nat) :
    Option Committing :=
  match st.1[i]? with
  | none => none
  | some .dead => some st
  | some instr => do
    let instr ← commitOperands t globalRegisterOffset instr
    commitCall i (st.1.set i instr, st.2) instr

def commit (t : RegisterTracker) (calls : List (Nat × RegisterSet)) (instructions : List Opcode)
    (globalRegisterOffset : Nat) : Option (List Opcode) := do
  let st ← (List.range instructions.length).foldlM (commitInstruction t globalRegisterOffset)
    (instructions, calls)
  some st.1

/-- `allocate`. -/
def allocate (instructions : List Opcode) (numVirtualRegisters globalRegisterOffset : Nat) :
    Option (List Opcode) := do
  let (t, instructions) ← calculateVregLiveRanges numVirtualRegisters instructions
  let st ← doAllocate t instructions
  commit st.tracker st.liveAtCalls instructions globalRegisterOffset

end Icewind.X86
