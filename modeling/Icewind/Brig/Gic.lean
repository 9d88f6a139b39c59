import Mathlib.Logic.Function.Basic
import Mathlib.Algebra.Group.Nat.Defs

/-!
# The interrupt controller

Model of `GlobalInterruptController` with its distributor and CPU interface in
`brig/brig/src/guest/devices/arm/a9gic.rs`.

* `Controller` — the lines, the two enables, the priority mask, the pending and the running line, and
  the flag `interrupt_pending` of the guest's execution context.
* `Controller.update` — look for the best line and set the flag.
* `Controller.acknowledge`, `Controller.eoi`, `Controller.raise`, `Controller.rescind`.
* `Controller.step` — an access by the guest or a call by a device.  `none` is a panic, or the search
  along the chain of active lines that does not end.
-/

namespace Icewind.Brig.Gic

structure IrqLine where
  raised : Bool
  enabled : Bool
  active : Bool
  pending : Bool
  priority : Nat
  cpuMask : Nat
  config : Nat
  lastActive : Option Nat

def IrqLine.new (config cpuMask : Nat) : IrqLine :=
  ⟨false, false, false, false, 0, cpuMask, config, none⟩

def IrqLine.edgeTriggered (line : IrqLine) : Bool := line.config &&& 2 == 2

def IrqLine.levelTriggered (line : IrqLine) : Bool := line.config &&& 2 == 0

def lineCount : Nat := 1020

/-- The controller and the flag it raises; `NO_LINE` is `none`. -/
structure Controller where
  lines : Nat → IrqLine
  distributorEnabled : Bool
  cpuEnabled : Bool
  cpuPmr : Nat
  cpuIrqLinePending : Option Nat
  cpuIrqLineRunning : Option Nat
  interruptPending : Nat

/-- `lines_for_bitvector`: the first line and the one after the last; a slice that ends before it
starts panics. -/
def linesForBitvector (base len bits : Nat) : Option (Nat × Nat) :=
  let startIndex := 8 * base / bits
  let endIndex := min (8 * len / bits + startIndex) 1019
  if startIndex ≤ endIndex then some (startIndex, endIndex) else none

namespace Controller

def new : Controller where
  lines i := .new (if i < 16 then 2 else 0) (if i < 32 then 1 else 0)
  distributorEnabled := false
  cpuEnabled := false
  cpuPmr := 0
  cpuIrqLinePending := none
  cpuIrqLineRunning := none
  interruptPending := 0

def setLine (s : Controller) (i : Nat) (line : IrqLine) : Controller :=
  { s with lines := Function.update s.lines i line }

/-- Change the lines of a slice, each with its index in the slice. -/
def mapLines (s : Controller) (slice : Nat × Nat) (f : Nat → IrqLine → IrqLine) : Controller :=
  { s with lines := fun i => if slice.1 ≤ i ∧ i < slice.2 then f (i - slice.1) (s.lines i) else s.lines i }

/-- Is the line a candidate for the pending interrupt? -/
def candidate (s : Controller) (i : Nat) : Bool :=
  (s.lines i).enabled && ((s.lines i).pending || ((s.lines i).levelTriggered && (s.lines i).raised))

/-- The better of the best line so far and the next one. -/
def better (s : Controller) (best : Option Nat) (i : Nat) : Option Nat :=
  if s.candidate i then
    match best with
    | some b => if (s.lines i).priority < (s.lines b).priority then some i else some b
    | none => some i
  else best

/-- `best_irq_idx`. -/
def bestIrq (s : Controller) : Option Nat := (List.range lineCount).foldl s.better none

def runningPriority (s : Controller) : Nat :=
  match s.cpuIrqLineRunning with
  | none => 0x100
  | some i => (s.lines i).priority

def update (s : Controller) : Controller :=
  let rescinded := { s with cpuIrqLinePending := none, interruptPending := 0 }
  if !s.cpuEnabled || !s.distributorEnabled then rescinded
  else match s.bestIrq with
    | none => rescinded
    | some b =>
      if (s.lines b).priority < s.cpuPmr then
        { s with
          cpuIrqLinePending := some b
          interruptPending := if (s.lines b).priority < s.runningPriority then 1 else 0 }
      else rescinded

/-- `acknowledge`: the number that the guest reads. -/
def acknowledge (s : Controller) : Nat × Controller :=
  match s.cpuIrqLinePending with
  | none => (1023, { s with cpuIrqLineRunning := none })
  | some p =>
    if s.runningPriority ≤ (s.lines p).priority then (1023, s)
    else
      let line := { s.lines p with lastActive := s.cpuIrqLineRunning, pending := false }
      (p, update { s.setLine p line with cpuIrqLineRunning := some p })

/-- The search for a line along the chain of active lines.  It has found the line, or reached the end,
after as many steps as there are lines, or goes round in a circle. -/
def unchain (s : Controller) (irqid : Nat) : Nat → Option Nat → Option Controller
  | _, none => some s
  | 0, some _ => none
  | fuel + 1, some last =>
    if last = irqid then
      some (s.setLine last { s.lines last with lastActive := (s.lines irqid).lastActive })
    else s.unchain irqid fuel (s.lines last).lastActive

/-- End of interrupt. -/
def eoi (s : Controller) (irqid : Nat) : Option Controller :=
  if lineCount ≤ irqid then some s
  else match s.cpuIrqLineRunning with
    | none => some s
    | some running =>
      if irqid ≠ running then (s.unchain irqid lineCount (some running)).map update
      else some (update { s with cpuIrqLineRunning := (s.lines running).lastActive })

/-- `raise` of a line that is there. -/
def raiseLine (s : Controller) (i : Nat) : Controller :=
  if (s.lines i).raised then s
  else update (s.setLine i { s.lines i with
    raised := true
    pending := if (s.lines i).edgeTriggered then true else (s.lines i).pending })

def raise (s : Controller) (i : Nat) : Option Controller :=
  if i < lineCount then some (s.raiseLine i) else none

/-- `rescind` of a line that is there. -/
def rescindLine (s : Controller) (i : Nat) : Controller :=
  if (s.lines i).raised then update (s.setLine i { s.lines i with raised := false }) else s

def rescind (s : Controller) (i : Nat) : Option Controller :=
  if i < lineCount then some (s.rescindLine i) else none

end Controller

/-! ### Accesses by the guest -/

/-- The value of a write: one byte or four. -/
def writtenValue : List UInt8 → Option Nat
  | [x] => some x.toNat
  | [a, b, c, d] => some (a.toNat + 2 ^ 8 * b.toNat + 2 ^ 16 * c.toNat + 2 ^ 24 * d.toNat)
  | _ => none

/-- Bit `index` of a written value. -/
def bitAt (value index : Nat) : Bool := (value >>> index) &&& 1 == 1

/-- The registers of the CPU interface. -/
def Controller.readCpu (s : Controller) (offset : Nat) : Option (Nat × Controller) :=
  if offset = 0x0000 then some (s.cpuEnabled.toNat, s)
  else if offset = 0x000c then some s.acknowledge
  else if offset = 0x00fc then some (0, s)
  else none

def Controller.writeCpu (s : Controller) (offset value : Nat) : Option Controller :=
  if offset = 0x0000 then some { s with cpuEnabled := value &&& 1 == 1 }
  else if offset = 0x0004 then some { s with cpuPmr := value &&& 0xff }
  else if offset = 0x0010 then s.eoi value
  else none

/-- The registers of the distributor that can be written, those of an array with their offset in it. -/
inductive DistributorRegister where
  | ctlr
  | isenable (base : Nat)
  | icenable (base : Nat)
  | icactive (base : Nat)
  | ipriority (base : Nat)
  | itargets (base : Nat)
  | icfg (base : Nat)
  | sgir
  | cpendsgir (base : Nat)
  deriving DecidableEq

/-- The register at an offset; what is left panics. -/
def DistributorRegister.at (offset : Nat) : Option DistributorRegister :=
  if offset = 0x0000 then some .ctlr
  else if 0x0100 ≤ offset ∧ offset ≤ 0x017f then some (.isenable (offset - 0x0100))
  else if 0x0180 ≤ offset ∧ offset ≤ 0x01ff then some (.icenable (offset - 0x0180))
  else if 0x0380 ≤ offset ∧ offset ≤ 0x03ff then some (.icactive (offset - 0x0380))
  else if 0x0400 ≤ offset ∧ offset ≤ 0x07fb then some (.ipriority (offset - 0x0400))
  else if 0x0800 ≤ offset ∧ offset ≤ 0x0bfb then some (.itargets (offset - 0x0800))
  else if 0x0c00 ≤ offset ∧ offset ≤ 0x0dff then some (.icfg (offset - 0x0c00))
  else if offset = 0x0f00 then some .sgir
  else if 0x0f10 ≤ offset ∧ offset ≤ 0x0f1f then some (.cpendsgir (offset - 0x0f10))
  else none

/-- The loop of `GICD_CPENDSGIR` over the lines of the slice. -/
def Controller.clearPending (value startIndex : Nat) (s : Controller) (i : Nat) : Controller :=
  let line := s.lines i
  (s.setLine i { line with pending := line.pending && !bitAt value (i - startIndex) }).rescindLine i

def Controller.writeRegister (s : Controller) (value : Nat) : DistributorRegister → Option Controller
  | .ctlr => some { s with distributorEnabled := value &&& 1 == 1 }
  | .isenable base => (linesForBitvector base 4 1).map fun slice =>
    s.mapLines slice fun index line => { line with enabled := line.enabled || bitAt value index }
  -- `fetch_nand`
  | .icenable base => (linesForBitvector base 4 1).map fun slice =>
    s.mapLines slice fun index line => { line with enabled := !(line.enabled && bitAt value index) }
  | .icactive base => (linesForBitvector base 4 1).map fun slice =>
    s.mapLines slice fun index line => { line with active := !(line.active && bitAt value index) }
  | .ipriority base => (linesForBitvector base 4 8).map fun slice =>
    s.mapLines slice fun index line => { line with priority := (value >>> (index * 8)) &&& 0xff }
  | .itargets base => (linesForBitvector base 4 8).map fun slice =>
    s.mapLines slice fun index line => { line with cpuMask := (value >>> (index * 8)) &&& 0xff }
  | .icfg base => (linesForBitvector base 4 2).map fun slice =>
    s.mapLines slice fun index line => { line with config := (value >>> (index * 2)) &&& 0x3 }
  | .sgir => if value % 2 ^ 8 < 16 then s.raise (value % 2 ^ 8) else some s
  | .cpendsgir base => (linesForBitvector base 4 1).map fun slice =>
    (List.range' slice.1 (slice.2 - slice.1)).foldl (Controller.clearPending value slice.1) s

def Controller.writeDistributor (s : Controller) (offset value : Nat) : Option Controller :=
  (DistributorRegister.at offset).bind (s.writeRegister value)

/-- Fields of the lines of a slice, put together. -/
def Controller.gather (s : Controller) (slice : Nat × Nat) (bits : Nat) (field : IrqLine → Nat) : Nat :=
  (List.range (slice.2 - slice.1)).foldl
    (fun acc index => acc ||| (field (s.lines (slice.1 + index)) <<< (index * bits)) % 2 ^ 32) 0

/-- The registers of the distributor that can be read. -/
def Controller.readDistributor (s : Controller) (offset : Nat) : Option Nat :=
  if offset = 0x0000 then some s.distributorEnabled.toNat
  else if offset = 0x0004 then some 0x81f
  else if offset = 0x0008 then some 0x200143b
  else if (0x0100 ≤ offset ∧ offset ≤ 0x017c) ∨ (0x0300 ≤ offset ∧ offset ≤ 0x037c) then some 0
  else if 0x0800 ≤ offset ∧ offset ≤ 0x0bfb then
    (linesForBitvector (offset - 0x0800) 4 8).map (s.gather · 8 IrqLine.cpuMask)
  else if 0x0c00 ≤ offset ∧ offset ≤ 0x0dff then
    (linesForBitvector (offset - 0x0c00) 4 2).map (s.gather · 2 IrqLine.config)
  else [(0x0fe0, 0x90), (0x0fe4, 0xb4), (0x0fe8, 0x2b), (0x0fec, 0x00), (0x0ff0, 0x0d), (0x0ff4, 0xf0),
    (0x0ff8, 0x05), (0x0ffc, 0xb1)].lookup offset

/-- What happens to the controller.  The data of a read are `len` bytes. -/
inductive Op where
  | readCpu (offset len : Nat)
  | writeCpu (offset : Nat) (value : List UInt8)
  | readDistributor (offset len : Nat)
  | writeDistributor (offset : Nat) (value : List UInt8)
  | raise (line : Nat)
  | rescind (line : Nat)

def Controller.step (s : Controller) : Op → Option Controller
  -- the response has four bytes, and `copy_from_slice` panics on other lengths
  | .readCpu offset len => (s.readCpu offset).bind fun (_, s) => if len = 4 then some s else none
  | .writeCpu offset value => (writtenValue value).bind (s.writeCpu offset)
  | .readDistributor offset len =>
    (s.readDistributor offset).bind fun _ => if len = 4 then some s else none
  | .writeDistributor offset value => (writtenValue value).bind (s.writeDistributor offset)
  | .raise line => s.raise line
  | .rescind line => s.rescind line

end Icewind.Brig.Gic
