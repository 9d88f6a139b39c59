import Icewind.Lib.Flow
import Icewind.Rudder.Ast

/-!
# Translation of Rudder functions

Model of `FunctionTranslator` and `translate` in `brig/dbt/src/translate.rs`.  A function is translated
block by block from a queue.  A branch on a constant is followed at once; a branch on a value known
only at run time puts both targets at the end of the queue.  A call is translated in place by a
translator of its own.

Nodes and the way they are built are those of an arbitrary emitter (`Context`).  Of the emitted code
the model has the blocks, their targets, and the accesses to registers of the read-cached kind.

* `translateStatement` — one statement; all that is not about variables, registers, calls or control
  flow is `Context.compute`.
* `translateBlocks` — the loop over the queue.
* `translate` — a function by name, with its calls.  `none` is a panic, the decode error after which the
  instruction is translated once more, or a bound on the number of blocks that is too small.
-/

namespace Icewind.Dbt

open Rudder

/-! ### Types and variables -/

/-- `emitter::Type`. -/
inductive EmitType where
  | unsigned (width : Nat)
  | signed (width : Nat)
  | floating (width : Nat)
  | bits | int | tuple | real
  deriving DecidableEq

/-- `Type::width`; `none` is the `todo!()` of tuples. -/
def EmitType.width : EmitType → Option Nat
  | .unsigned w | .signed w | .floating w => some w
  | .bits | .int | .real => some 64
  | .tuple => none

def emitRudderType : Typ → Option EmitType
  | .primitive (.unsignedInteger w) => some (.unsigned w)
  | .primitive (.signedInteger w) => some (.signed w)
  | .primitive (.floatingPoint w) => some (.floating w)
  | .bits => some .bits
  | .tuple _ => some .tuple
  | .int => some .int
  | .real => some .real
  | .vector _ _ | .string => none

inductive Variable (ν : Type) where
  | virtual (value : Option ν)
  | stack (typ : EmitType) (id : Nat)
  deriving DecidableEq

/-- `VariableStore`, a map in the order of its keys. -/
abbrev VariableStore (ν : Type) := List (String × Variable ν)

def VariableStore.put {ν : Type} (name : String) (v : Variable ν) : VariableStore ν → VariableStore ν
  | [] => [(name, v)]
  | (n, w) :: rest =>
    if name = n then (name, v) :: rest
    else if name < n then (name, v) :: (n, w) :: rest
    else (n, w) :: put name v rest

/-! ### Emitted code -/

/-- Where an access to a register stands: in which translated function, at which place in the order of
translation, to which register and at which offset. -/
structure Site where
  activation : Nat
  order : Nat
  name : String
  offset : Nat

/-- An access to a register of the read-cached kind, with the node that the translation uses for it. -/
inductive Access (ν : Type) where
  | read (site : Site) (typ : EmitType) (node : ν)
  | write (site : Site) (node : ν)

def Access.site {ν : Type} : Access ν → Site
  | .read site _ _ | .write site _ => site

structure X86Block (ν : Type) where
  accesses : List (Access ν)
  targets : List Nat

/-- The contents of the register file, by register and offset. -/
abbrev RegisterFile := String → Nat → Nat

/-- The emitter and the register file.  `activations` and `log` are not in the program: they count the
translated functions, and have the accesses in the order of translation. -/
structure Emission (ν : Type) where
  blocks : Nat → X86Block ν
  blockCount : Nat
  current : Nat
  variableCount : Nat
  registers : RegisterFile
  activations : Nat
  log : List (Access ν)

/-- `panic_block` of the context. -/
def panicBlock : Nat := 1

namespace Emission

variable {ν : Type}

/-- An empty block to start in, and the panic block. -/
def initial (registers : RegisterFile) : Emission ν :=
  ⟨fun _ => ⟨[], []⟩, 2, 0, 0, registers, 0, []⟩

def createBlock (em : Emission ν) : Nat × Emission ν :=
  (em.blockCount, { em with blockCount := em.blockCount + 1 })

/-- End the current block with a jump or branch. -/
def jump (em : Emission ν) (targets : List Nat) : Emission ν :=
  { em with
    blocks := Function.update em.blocks em.current
      { em.blocks em.current with targets := (em.blocks em.current).targets ++ targets } }

/-- Emit an access in the current block. -/
def access (em : Emission ν) (a : Access ν) : Emission ν :=
  { em with
    blocks := Function.update em.blocks em.current
      { em.blocks em.current with accesses := (em.blocks em.current).accesses ++ [a] }
    log := em.log ++ [a] }

/-- The emitted code as a graph. -/
def graph (em : Emission ν) : Flow.Graph Nat (Access ν) where
  events b := (em.blocks b).accesses
  targets b := (em.blocks b).targets

end Emission

/-! ### The translator -/

/-- The emitter, the model, and the functions that are translated without their Rudder body. -/
structure Context (ν : Type) where
  constant : Nat → EmitType → ν
  constantValue : ν → Option Nat
  tupleElements : ν → Option (List ν)
  width : ν → Nat
  readRegister : Nat → EmitType → ν
  readStackVariable : Nat → EmitType → ν
  /-- All other statements; `none` is a panic. -/
  compute : Statement (Option ν) → Option (Option ν)
  functions : Model
  returnType : String → Option Typ
  registerByOffset : Nat → Option String
  regOffset : String → Nat
  cache : String → RegisterCacheType
  intrinsic : String → List ν → Option (Option (Option ν))

structure FunctionTranslator (ν : Type) where
  id : Nat
  name : String
  dynamicBlocks : List ((BlockRef × VariableStore ν) × Nat)
  promotedLocations : String → Option Nat
  cachedRegisters : Nat → Option ν
  bitsStackWidths : Nat → Option Nat
  returnVariables : List (Variable ν)
  /-- Has a return value been written? -/
  previousWrite : Bool
  emission : Emission ν

inductive ControlFlow (ν : Type) where
  | jump (rudder : BlockRef) (x86 : Nat) (vars : VariableStore ν)
  | branch (trueTarget falseTarget : BlockRef) (vars : VariableStore ν)
  | panic
  | return_

inductive StatementResult (ν : Type) where
  | data (value : Option ν)
  | controlFlow (flow : ControlFlow ν)

section

variable {ν : Type} (c : Context ν)

namespace FunctionTranslator

/-- `allocate_variable_id`. -/
def allocateVariableId (t : FunctionTranslator ν) : Nat × FunctionTranslator ν :=
  (t.emission.variableCount,
    { t with emission := { t.emission with variableCount := t.emission.variableCount + 1 } })

def readVariable (t : FunctionTranslator ν) : Variable ν → Option ν
  | .virtual value => value
  | .stack .bits id => (t.bitsStackWidths id).map fun w => c.readStackVariable id (.unsigned w)
  | .stack typ id => some (c.readStackVariable id typ)

def writeVariable (t : FunctionTranslator ν) : Variable ν → ν → Variable ν × FunctionTranslator ν
  | .virtual _, value => (.virtual (some value), t)
  | .stack .bits id, value => (.stack .bits id,
      { t with bitsStackWidths := Function.update t.bitsStackWidths id (some (c.width value)) })
  | .stack typ id, _ => (.stack typ id, t)

/-- Put a local variable on the stack, always at the same place. -/
def promote (t : FunctionTranslator ν) (symbol : Symbol) :
    Variable ν → Option (Variable ν × FunctionTranslator ν)
  | .stack typ id => some (.stack typ id, t)
  | .virtual _ => do
    let typ ← emitRudderType symbol.typ
    match t.promotedLocations symbol.name with
    | some id => some (.stack typ id, t)
    | none =>
      let (id, t) := t.allocateVariableId
      some (.stack typ id,
        { t with promotedLocations := Function.update t.promotedLocations symbol.name (some id) })

/-- Local variables of certain functions that are always put on the stack. -/
def alwaysOnStack (function variable_ : String) : Bool :=
  (variable_ = "address" && function = "execute_aarch64_instrs_memory_pair_general_post_idx") ||
  (variable_ = "result" && function ∈ ["execute_aarch64_instrs_vector_arithmetic_unary_cmp_int_bulk_sisd",
      "execute_aarch64_instrs_vector_arithmetic_binary_uniform_cmp_bitwise_sisd",
      "execute_aarch64_instrs_vector_arithmetic_binary_uniform_cmp_int_sisd",
      "execute_aarch64_instrs_vector_arithmetic_unary_cmp_int_lessthan_sisd"]) ||
  (variable_ = "maxmin" && function ∈ ["execute_aarch64_instrs_vector_reduce_int_max"])

/-- Where a write to a local variable goes: to the stack in blocks behind a branch at run time. -/
def place (t : FunctionTranslator ν) (isDynamic : Bool) (symbol : Symbol) (v : Variable ν) :
    Option (Variable ν × FunctionTranslator ν) :=
  if isDynamic || alwaysOnStack t.name symbol.name then t.promote symbol v else some (v, t)

/-- The types of the variables for the return value. -/
def returnTypes (name : String) : List Typ :=
  match c.returnType name with
  | some (.tuple ts) => ts
  | some t => [t]
  | none => []

def isVirtual : Variable ν → Bool
  | .virtual _ => true
  | .stack _ _ => false

/-- Put the variables of the return value on the stack, at the second write. -/
def promoteReturn : List (Variable ν × Typ) → FunctionTranslator ν →
    Option (List (Variable ν) × FunctionTranslator ν)
  | [], t => some ([], t)
  | (.virtual (some _), typ) :: rest, t => do
    let typ ← emitRudderType typ
    let (id, t) := t.allocateVariableId
    let (rest, t) ← promoteReturn rest t
    some (.stack typ id :: rest, t)
  | _ :: _, _ => none

def writeAll : List (Variable ν) → List ν → FunctionTranslator ν → List (Variable ν) × FunctionTranslator ν
  | v :: vs, value :: values, t =>
    let (v, t) := t.writeVariable c v value
    let (vs, t) := writeAll vs values t
    (v :: vs, t)
  | vs, _, t => (vs, t)

/-- What happens before a return value is written: the variables are either all on the stack or none
of them is. -/
def prepareReturn (t : FunctionTranslator ν) : Option (FunctionTranslator ν) :=
  if t.returnVariables = [] then none
  else if t.returnVariables.all isVirtual then
    if t.previousWrite then
      (promoteReturn (t.returnVariables.zip (returnTypes c t.name)) t).map fun (vs, t) =>
        { t with returnVariables := vs }
    else some { t with previousWrite := true }
  else if t.returnVariables.any isVirtual then none
  else some t

def writeReturnValue (t : FunctionTranslator ν) (value : ν) : Option (FunctionTranslator ν) :=
  (t.prepareReturn c).map fun t =>
    let (vs, t) := writeAll c t.returnVariables ((c.tupleElements value).getD [value]) t
    { t with returnVariables := vs }

/-- `none` inside is the absence of a return value. -/
def readReturnValue (t : FunctionTranslator ν) : Option (Option ν) :=
  match c.returnType t.name with
  | none => some none
  | some (.tuple _) => do
    let values ← t.returnVariables.mapM (t.readVariable c)
    c.compute (.createTuple (values.map some))
  | some _ => do
    let v ← t.returnVariables.head?
    let value ← t.readVariable c v
    some (some value)

/-- The raw value of a register, as wide as the type needs. -/
def readRaw (value : Nat) (typ : EmitType) : Option Nat := do
  let w ← typ.width
  if 1 ≤ w ∧ w ≤ 8 then some (value % 2 ^ 8)
  else if 9 ≤ w ∧ w ≤ 16 then some (value % 2 ^ 16)
  else if 17 ≤ w ∧ w ≤ 32 then some (value % 2 ^ 32)
  else if 33 ≤ w ∧ w ≤ 64 then some (value % 2 ^ 64)
  else none

/-- The site of an access that is translated now. -/
def site (t : FunctionTranslator ν) (name : String) (offset : Nat) : Site :=
  ⟨t.id, t.emission.log.length, name, offset⟩

/-- The contents of a register during translation. -/
def writeRegisterFile (t : FunctionTranslator ν) (name : String) (value : Nat) : FunctionTranslator ν :=
  { t with emission := { t.emission with
      registers := Function.update t.emission.registers name
        (Function.update (t.emission.registers name) (c.regOffset name) value) } }

/-- The node for a read of a cacheable register, from `cached_registers` or the register file. -/
def readNode (cached : Option ν) (value : Nat) (typ : EmitType) : Option ν :=
  match cached with
  | some node => some node
  | none => (readRaw value typ).map (c.constant · typ)

def readRegister (t : FunctionTranslator ν) (offset : Nat) (typ : Typ) :
    Option (ν × FunctionTranslator ν) := do
  let name ← c.registerByOffset offset
  let typ ← emitRudderType typ
  if c.cache name = .none then some (c.readRegister offset typ, t)
  else
    let node ← readNode c (t.cachedRegisters offset) (t.emission.registers name offset) typ
    if c.cache name = .read then
      some (node, { t with emission := t.emission.access (.read (t.site name offset) typ node) })
    else some (node, t)

/-- A write to a register. -/
def writeRegister (t : FunctionTranslator ν) (offset : Nat) (value : ν) : Option (FunctionTranslator ν) := do
  let name ← c.registerByOffset offset
  if name = "current_exception_tag" ∧ c.constantValue value = some 5 then none
  else match c.cache name with
    | .constant => none
    | .readWrite => (c.constantValue value).map fun v => t.writeRegisterFile c name v
    | .read => some { t with
        cachedRegisters := Function.update t.cachedRegisters offset (some value)
        emission := t.emission.access (.write (t.site name offset) value) }
    | .none => some t

/-- `set_current_block`. -/
def enter (t : FunctionTranslator ν) (x86 : Nat) : FunctionTranslator ν :=
  { t with emission := { t.emission with current := x86 } }

/-- The end of a path through the function. -/
def leaveTo (t : FunctionTranslator ν) (x86 : Nat) : FunctionTranslator ν :=
  { t with emission := t.emission.jump [x86] }

/-- A jump to a new block. -/
def jumpTo (t : FunctionTranslator ν) (target : BlockRef) (vars : VariableStore ν) :
    ControlFlow ν × FunctionTranslator ν :=
  let (x86, em) := t.emission.createBlock
  (.jump target x86 vars, { t with emission := em.jump [x86] })

variable [DecidableEq ν]

/-- The block for a target of a branch at run time: one for each value of the variables. -/
def dynamicBlock (t : FunctionTranslator ν) (target : BlockRef) (vars : VariableStore ν) :
    Nat × FunctionTranslator ν :=
  match t.dynamicBlocks.lookup (target, vars) with
  | some x86 => (x86, t)
  | none =>
    let (x86, em) := t.emission.createBlock
    (x86, { t with
      dynamicBlocks := ((target, vars), x86) :: t.dynamicBlocks
      emission := em })

/-- A branch at run time. -/
def branchTo (t : FunctionTranslator ν) (trueTarget falseTarget : BlockRef)
    (vars : VariableStore ν) : ControlFlow ν × FunctionTranslator ν :=
  let (trueX86, t) := t.dynamicBlock trueTarget vars
  let (falseX86, t) := t.dynamicBlock falseTarget vars
  (.branch trueTarget falseTarget vars,
    { t with emission := t.emission.jump [trueX86, falseX86] })

end FunctionTranslator

open FunctionTranslator

/-- Translation of a called function in the current block. -/
abbrev CallTranslator (ν : Type) := String → List ν → Emission ν → Option (Option ν × Emission ν)

variable [DecidableEq ν] (call : CallTranslator ν)

def translateStatement (isDynamic : Bool) (vars : VariableStore ν) (t : FunctionTranslator ν) :
    Statement (Option ν) → Option (StatementResult ν × VariableStore ν × FunctionTranslator ν)
  | .readVariable symbol => do
    let v ← vars.lookup symbol.name
    let value ← t.readVariable c v
    some (.data (some value), vars, t)
  | .writeVariable symbol value => do
    let (v, t) ← t.place isDynamic symbol ((vars.lookup symbol.name).getD (.virtual none))
    let value ← value
    let (v, t) := t.writeVariable c v value
    some (.data none, vars.put symbol.name v, t)
  | .readRegister typ offset => do
    let offset ← offset.bind c.constantValue
    let (value, t) ← t.readRegister c offset typ
    some (.data (some value), vars, t)
  | .writeRegister offset value => do
    let offset ← offset.bind c.constantValue
    let value ← value
    let t ← t.writeRegister c offset value
    some (.data none, vars, t)
  | .call target args _ => do
    let args ← args.mapM id
    if target = "AArch64_IC__1" then some (.data none, vars, t)
    else
      let (value, em) ← call target args t.emission
      some (.data value, vars, { t with emission := em })
  | .jump target =>
    let (flow, t) := t.jumpTo target vars
    some (.controlFlow flow, vars, t)
  | .branch condition trueTarget falseTarget => do
    let condition ← condition
    let (flow, t) := match c.constantValue condition with
      | some 0 => t.jumpTo falseTarget vars
      | some _ => t.jumpTo trueTarget vars
      | none => t.branchTo trueTarget falseTarget vars
    some (.controlFlow flow, vars, t)
  | .return_ none => some (.controlFlow .return_, vars, t)
  | .return_ (some value) => do
    let value ← value
    let t ← t.writeReturnValue c value
    some (.controlFlow .return_, vars, t)
  -- `have_exception` is reset for the other paths
  | .panic _ => some (.controlFlow .panic, vars, t.writeRegisterFile c "have_exception" 0)
  | s => (c.compute s).map fun value => (.data value, vars, t)

/-- The statements of a block, with the nodes of those already translated. -/
def translateStatements (isDynamic : Bool) (blk : Block) : List Ref → (Ref → Option ν) →
    VariableStore ν → FunctionTranslator ν → Option (ControlFlow ν × FunctionTranslator ν)
  | [], _, _, _ => none
  | r :: rest, values, vars, t => do
    let (result, vars, t) ← translateStatement c call isDynamic vars t ((blk.arena r).map values)
    match result with
    | .data none => translateStatements isDynamic blk rest values vars t
    | .data (some value) =>
      translateStatements isDynamic blk rest (Function.update values r (some value)) vars t
    | .controlFlow flow => some (flow, t)

/-- `JumpKind`, an entry of the queue. -/
structure Work (ν : Type) where
  dynamic : Bool
  rudder : BlockRef
  x86 : Nat
  vars : VariableStore ν

/-- `BLOCK_QUEUE_LIMIT`. -/
def blockQueueLimit : Nat := 1000

/-- The loop over the queue. -/
def translateBlocks (f : Function) (exit : Nat) :
    Nat → List (Work ν) → FunctionTranslator ν → Option (FunctionTranslator ν)
  | _, [], t => some t
  | 0, _ :: _, _ => none
  | fuel + 1, work :: queue, t =>
    if queue.length > blockQueueLimit then none
    -- already visited
    else if work.dynamic && !(t.emission.blocks work.x86).targets.isEmpty then
      translateBlocks f exit fuel queue t
    else do
      let blk := f.block work.rudder
      let (flow, t) ← translateStatements c call work.dynamic blk blk.statements (fun _ => none)
        work.vars (t.enter work.x86)
      match flow with
      | .jump rudder x86 vars =>
        translateBlocks f exit fuel (⟨false, rudder, x86, vars⟩ :: queue) t
      | .branch trueTarget falseTarget vars =>
        let trueX86 ← t.dynamicBlocks.lookup (trueTarget, vars)
        let falseX86 ← t.dynamicBlocks.lookup (falseTarget, vars)
        translateBlocks f exit fuel
          (queue ++ [⟨true, trueTarget, trueX86, vars⟩, ⟨true, falseTarget, falseX86, vars⟩]) t
      | .return_ => translateBlocks f exit fuel queue (t.leaveTo exit)
      | .panic => translateBlocks f exit fuel queue (t.leaveTo panicBlock)

/-- `FN_DENYLIST`. -/
def fnDenylist : List String := ["AArch64_TranslateAddress"]

/-- The arguments as variables; a repeated name fails the assertion. -/
def entryVariables : List (Symbol × ν) → Option (VariableStore ν)
  | [] => some []
  | (parameter, argument) :: rest => do
    let vars ← entryVariables rest
    if (vars.lookup parameter.name).isSome then none
    else some (vars.put parameter.name (.virtual (some argument)))

/-- `FunctionTranslator::new` and the start of `translate`: the exit and the entry block, and the jump
to the latter. -/
def FunctionTranslator.new (name : String) (em : Emission ν) : Nat × Nat × FunctionTranslator ν :=
  let (exit, em') := em.createBlock
  let (entry, em') := em'.createBlock
  (exit, entry,
    { id := em.activations
      name := name
      dynamicBlocks := []
      promotedLocations := fun _ => none
      cachedRegisters := fun _ => none
      bitsStackWidths := fun _ => none
      returnVariables := (returnTypes c name).map fun _ => .virtual none
      previousWrite := false
      emission := { em'.jump [entry] with activations := em.activations + 1 } })

def translate : Nat → CallTranslator ν
  | 0, _, _, _ => none
  | fuel + 1, name, arguments, em =>
    if name = "__DecodeA64_Reserved" then translate fuel "AArch64_UndefinedFault" [] em
    else match c.intrinsic name arguments with
      | some result => result.map fun value => (value, em)
      | none => do
        if name ∈ fnDenylist then none
        else
          let f ← c.functions.lookup name
          if f.parameters.length ≠ arguments.length then none
          else
            let vars ← entryVariables (f.parameters.zip arguments)
            let (exit, entry, t) := FunctionTranslator.new c name em
            let t ← translateBlocks c (translate fuel) f exit fuel [⟨false, f.entryBlock, entry, vars⟩] t
            let value ← t.readReturnValue c
            some (value, { t.emission with current := exit })

end

end Icewind.Dbt
