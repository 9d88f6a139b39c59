import Icewind.Rudder.Ast

/-!
# The Rudder interpreter

Model of `brig/dbt/src/interpret.rs`.  A panic is `none`, and so is too little fuel.

* `evaluate` — the statements that only compute a value from their operands.
* `exec` — one statement, from its resolved operands.
* `interpretBlock`, `runBlocks`, `interpret` — the loops over statements, blocks and calls.

The interpreter leaves memory accesses, `ReadPc` and a few value statements as `todo!()`.  An
`Environment` says what they do, so that results hold for every completion of the interpreter; the
interpreter as it stands is the environment where they all are `none`.  Accesses that a program can
observe are appended to a trace.
-/

namespace Icewind.Rudder

inductive Value where
  | unsignedInteger (value width : Nat)
  | signedInteger (value : Int) (width : Nat)
  | floatingPoint (bits : Nat)
  | string (s : String)
  | vector (values : List Value)
  | tuple (values : List Value)

/-- What the guest can see of a run. -/
inductive Effect where
  | writeRegister (offset size value : Nat)
  | writePc (value : Nat)
  | writeMemory (address value : Value)
  | atomicOperation (address compareOperand operand operationKind : Value)

/-- The register file as bytes, the guest memory, and the effects so far. -/
structure State (μ : Type) where
  registers : Nat → Nat
  memory : μ
  trace : List Effect

/-- The parts of a run that the interpreter does not fix. -/
structure Environment (μ : Type) where
  overflowChecks : Bool
  registerFileSize : Nat
  registerOffsets : List Nat
  pcOffset : Nat
  readMemory : Value → Value → μ → Option (Value × μ)
  writeMemory : Value → Value → μ → Option μ
  atomicOperation : Value → Value → Value → Value → μ → Option (Value × μ)
  readPc : (Nat → Nat) → Option Value
  todo : Statement (Option Value) → Option Value

/-- The interpreter as it stands, with overflow checks. -/
def plainEnvironment : Environment Unit where
  overflowChecks := true
  registerFileSize := 0
  registerOffsets := []
  pcOffset := 0
  readMemory := fun _ _ _ => none
  writeMemory := fun _ _ _ => none
  atomicOperation := fun _ _ _ _ _ => none
  readPc := fun _ => none
  todo := fun _ => none

/-! ### Machine integers -/

/-- `x as i64`. -/
def asI64 (x : Nat) : Int := if x < 2 ^ 63 then x else (x : Int) - 2 ^ 64

/-- `x as u64`. -/
def asU64 (x : Int) : Nat := (x % 2 ^ 64).toNat

/-- `mask`: that many ones, at most 64. -/
def mask (width : Nat) : Nat := if width < 64 then 2 ^ width - 1 else 2 ^ 64 - 1

/-- `i64::try_from(x).unwrap()`. -/
def tryI64 (x : Nat) : Option Int := if x < 2 ^ 63 then some x else none

/-- `u64::try_from(x).unwrap()`. -/
def tryU64 (x : Int) : Option Nat := if 0 ≤ x then some x.toNat else none

/-- `u32::try_from(x).unwrap()`. -/
def tryU32 (x : Nat) : Option Nat := if x < 2 ^ 32 then some x else none

/-- `bit_insert`. -/
def bitInsert (target source start length : Nat) : Option Nat :=
  if 64 ≤ start then
    if source = 0 then some 0 else none
  else do
    let length ← tryU32 length
    let hole := (mask length <<< start) % 2 ^ 64
    some ((target &&& (2 ^ 64 - 1 - hole)) ||| ((source &&& mask length) <<< start) % 2 ^ 64)

/-! `checks` says whether the build has overflow checks: overflow panics or wraps. -/

/-- A `u64` result. -/
def u64Result (checks : Bool) (x : Int) : Option Nat :=
  if 0 ≤ x ∧ x < 2 ^ 64 then some x.toNat else if checks then none else some (asU64 x)

/-- An `i64` result. -/
def i64Result (checks : Bool) (x : Int) : Option Int :=
  if -2 ^ 63 ≤ x ∧ x < 2 ^ 63 then some x
  else if checks then none else some (asI64 (asU64 x))

/-- The amount of a 64-bit shift. -/
def shiftResult (checks : Bool) (amount : Nat) : Option Nat :=
  if amount < 64 then some amount else if checks then none else some (amount % 64)

/-- `i64::BITS - width` as an amount of a 64-bit shift. -/
def signShift (checks : Bool) (width : Nat) : Option Nat := do
  let amount ←
    if width ≤ 64 then some (64 - width)
    else if checks then none else some ((2 ^ 32 + 64 - width) % 2 ^ 32)
  shiftResult checks amount

namespace Environment

variable {μ : Type} (env : Environment μ)

def u64 (x : Int) : Option Nat := u64Result env.overflowChecks x

def i64 (x : Int) : Option Int := i64Result env.overflowChecks x

def shiftAmount (amount : Nat) : Option Nat := shiftResult env.overflowChecks amount

/-- `bit_extract`. -/
def bitExtract (value start length : Nat) : Option Nat := do
  some ((value >>> (← env.shiftAmount start)) &&& mask (← tryU32 length))

/-- `sign_extend`. -/
def signExtend (value : Int) (sourceWidth destWidth : Nat) : Option Int := do
  let shift ← signShift env.overflowChecks sourceWidth
  let extended := asI64 (asU64 (value * 2 ^ shift)) / 2 ^ shift
  some (asI64 (asU64 extended &&& mask destWidth))

end Environment

/-! ### Values -/

namespace Value

mutual

/-- `Value::from_constant`. -/
def fromConstant : Constant → Value
  | .unsignedInteger value width => .unsignedInteger value width
  | .signedInteger value width => .signedInteger value width
  | .floatingPoint bits _ => .floatingPoint bits
  | .string s => .string s
  | .tuple cs => .tuple (fromConstants cs)
  | .vector cs => .vector (fromConstants cs)

def fromConstants : List Constant → List Value
  | [] => []
  | c :: cs => fromConstant c :: fromConstants cs

end

/-- `f64` equality on bit patterns: a NaN equals nothing, the two zeros are equal. -/
def f64Eq (x y : Nat) : Bool :=
  let isNaN := fun b : Nat => (b >>> 52) % 2 ^ 11 = 2 ^ 11 - 1 ∧ b % 2 ^ 52 ≠ 0
  let isZero := fun b : Nat => b % 2 ^ 63 = 0
  ¬ isNaN x ∧ ¬ isNaN y ∧ (x = y ∨ (isZero x ∧ isZero y))

mutual

/-- The derived `PartialEq`. -/
def eq : Value → Value → Bool
  | .unsignedInteger v w, .unsignedInteger v' w' => v = v' ∧ w = w'
  | .signedInteger v w, .signedInteger v' w' => v = v' ∧ w = w'
  | .floatingPoint x, .floatingPoint y => f64Eq x y
  | .string s, .string s' => s = s'
  | .vector vs, .vector vs' => eqs vs vs'
  | .tuple vs, .tuple vs' => eqs vs vs'
  | _, _ => false

def eqs : List Value → List Value → Bool
  | [], [] => true
  | v :: vs, v' :: vs' => eq v v' && eqs vs vs'
  | _, _ => false

end

/-- `Value::partial_cmp`. -/
def partialCmp : Value → Value → Option Ordering
  | .unsignedInteger l _, .unsignedInteger r _ => some (compare l r)
  | .signedInteger l _, .signedInteger r _ => some (compare l r)
  | .signedInteger l _, .unsignedInteger r _ => do some (compare l (← tryI64 r))
  | _, _ => none

/-- A truth value, `(b as u64)` of width one. -/
def ofBool (b : Bool) : Value := .unsignedInteger b.toNat 1

variable {μ : Type} (env : Environment μ)

def sub : Value → Value → Option Value
  | .signedInteger l w, .signedInteger r w' => do
    some (.signedInteger (← env.i64 (l - r)) (max w w'))
  | .unsignedInteger l w, .unsignedInteger r w' => do
    some (.unsignedInteger (← env.u64 (l - r)) (max w w'))
  | .signedInteger l w, .unsignedInteger r w' => do
    some (.signedInteger (← env.i64 (l - (← tryI64 r))) (max w w'))
  | _, _ => none

def add : Value → Value → Option Value
  | .signedInteger l w, .signedInteger r w' => do
    some (.signedInteger (← env.i64 (l + r)) (max w w'))
  | .unsignedInteger l w, .signedInteger r w' => do
    some (.signedInteger (← env.i64 ((← tryI64 l) + r)) (max w w'))
  | .signedInteger l w, .unsignedInteger r w' => do
    some (.signedInteger (← env.i64 (l + (← tryI64 r))) (max w w'))
  | _, _ => none

def mul : Value → Value → Option Value
  | .signedInteger l w, .signedInteger r w' => do
    some (.signedInteger (← env.i64 (l * r)) (max w w'))
  | .signedInteger l w, .unsignedInteger r w' => do
    some (.signedInteger (← env.i64 (l * (← tryI64 r))) (max w w'))
  | .unsignedInteger l w, .unsignedInteger r w' => do
    some (.unsignedInteger (← env.u64 (l * r)) (max w w'))
  | _, _ => none

def bitor : Value → Value → Option Value
  | .unsignedInteger l w, .unsignedInteger r w' => some (.unsignedInteger (l ||| r) (max w w'))
  | _, _ => none

def bitand : Value → Value → Option Value
  | .unsignedInteger l w, .unsignedInteger r w' => some (.unsignedInteger (l &&& r) (max w w'))
  | _, _ => none

/-- Division by zero and `i64::MIN / -1` panic in every build. -/
def div : Value → Value → Option Value
  | .signedInteger l w, .signedInteger r w' =>
    if r = 0 ∨ (l = -2 ^ 63 ∧ r = -1) then none else some (.signedInteger (l.tdiv r) (max w w'))
  | _, _ => none

def unary : UnaryOperationKind → Value → Option Value
  | .not, .unsignedInteger value _ => some (ofBool (value = 0))
  | .complement, .unsignedInteger value width =>
    some (.unsignedInteger (2 ^ 64 - 1 - value) width)
  | .negate, .signedInteger value width => do some (.signedInteger (← env.i64 (-value)) width)
  | _, _ => none

def binary : BinaryOperationKind → Value → Value → Option Value
  | .compareEqual, l, r => some (ofBool (l.eq r))
  | .compareNotEqual, l, r => some (ofBool (!l.eq r))
  | .compareLessThan, l, r => do some (ofBool ((← l.partialCmp r) = .lt))
  | .compareLessThanOrEqual, l, r => do some (ofBool ((← l.partialCmp r) ≠ .gt))
  | .compareGreaterThan, l, r => do some (ofBool ((← l.partialCmp r) = .gt))
  | .compareGreaterThanOrEqual, l, r => do some (ofBool ((← l.partialCmp r) ≠ .lt))
  | .sub, l, r => l.sub env r
  | .add, l, r => l.add env r
  | .multiply, l, r => l.mul env r
  | .or, l, r => l.bitor r
  | .and, l, r => l.bitand r
  | .divide, l, r => l.div r
  | _, _, _ => none

/-- `overflowing_shl` and `overflowing_shr` take the amount modulo 64; the signed shift is `<<`. -/
def shift : ShiftOperationKind → Value → Nat → Option Value
  | .logicalShiftLeft, .unsignedInteger value width, amount => do
    let amount ← tryU32 amount
    some (.unsignedInteger ((value <<< (amount % 64)) % 2 ^ 64 &&& mask width) width)
  | .logicalShiftRight, .unsignedInteger value width, amount => do
    let amount ← tryU32 amount
    some (.unsignedInteger ((value >>> (amount % 64)) &&& mask width) width)
  | .logicalShiftLeft, .signedInteger value width, amount => do
    some (.signedInteger (asI64 (asU64 (value * 2 ^ (← env.shiftAmount amount)))) width)
  | _, _, _ => none

/-- `AddWithCarry` on 64 bits: the sum, and the flags as the bits n, z, c, v. -/
def addWithCarry (a b c : Nat) : Nat × Nat :=
  let unsignedSum := a + b + c
  let signedSum := asI64 a + asI64 b + asI64 c
  let result := unsignedSum % 2 ^ 64
  let n := result >>> 63
  let z := (decide (result = 0)).toNat
  let c := (decide (result ≠ unsignedSum)).toNat
  let v := (decide (asI64 result ≠ signedSum)).toNat
  (result, n <<< 3 ||| z <<< 2 ||| c <<< 1 ||| v)

/-- `Cast`; only a sign extension looks at the static type of its source. -/
def cast (sourceTyp : Typ) : CastOperationKind → Typ → Value → Option Value
  | .signExtend, .primitive (.signedInteger width), .signedInteger value _ => do
    some (.signedInteger (← env.signExtend value (← sourceTyp.widthBits) width) width)
  | .truncate, .primitive (.unsignedInteger width), .unsignedInteger value _ =>
    some (.unsignedInteger (value &&& mask width) width)
  | .truncate, .primitive (.signedInteger width), .signedInteger value _ =>
    some (.signedInteger (asI64 (asU64 value &&& mask width)) width)
  | .reinterpret, .primitive (.signedInteger width), .unsignedInteger value _ => do
    some (.signedInteger (← tryI64 (value &&& mask width)) width)
  | .reinterpret, .primitive (.signedInteger width), .signedInteger value _ => do
    some (.signedInteger (← tryI64 (asU64 value &&& mask width)) width)
  | .zeroExtend, .bits, .unsignedInteger value width => some (.unsignedInteger value width)
  | .zeroExtend, .primitive (.unsignedInteger width), .unsignedInteger value _ =>
    some (.unsignedInteger value width)
  | .reinterpret, .primitive (.unsignedInteger targetWidth), .unsignedInteger value width =>
    if targetWidth = width then some (.unsignedInteger value width) else none
  | .zeroExtend, .primitive (.signedInteger width), .unsignedInteger value _ => do
    some (.signedInteger (← tryI64 value) width)
  | .zeroExtend, .primitive (.unsignedInteger width), .signedInteger value _ => do
    some (.unsignedInteger (← tryU64 value) width)
  | .truncate, .primitive (.unsignedInteger width), .signedInteger value _ => do
    some (.unsignedInteger ((← tryU64 value) &&& mask width) width)
  | .convert, .bits, .unsignedInteger value width => some (.unsignedInteger value width)
  | .reinterpret, .primitive (.unsignedInteger width), .signedInteger value _ =>
    some (.unsignedInteger (asU64 value &&& mask width) width)
  | _, _, _ => none

def bitsCast : CastOperationKind → Typ → Value → Nat → Option Value
  | .zeroExtend, .bits, .unsignedInteger value width, targetWidth
  | .signExtend, .bits, .unsignedInteger value width, targetWidth =>
    if width < targetWidth then some (.unsignedInteger (value &&& mask targetWidth) targetWidth)
    else none
  | _, _, _, _ => none

end Value

/-- `resolve_u64`. -/
def resolveU64 : Option Value → Option Nat
  | some (.unsignedInteger value _) => some value
  | some (.signedInteger value _) => tryU64 value
  | _ => none

/-! ### The register file -/

section Registers

variable {μ : Type} (env : Environment μ)

/-- `validate_range`, and the bound of the byte array itself. -/
def validateRange (offset size : Nat) : Bool :=
  decide (offset + size ≤ env.registerFileSize) &&
    match env.registerOffsets[(env.registerOffsets.takeWhile (· < offset)).length + 1]? with
    | some next => decide (offset + size ≤ next)
    | none => true

/-- Little-endian bytes from an offset on. -/
def readBytes (registers : Nat → Nat) (offset : Nat) : Nat → Nat
  | 0 => 0
  | size + 1 => registers offset + 256 * readBytes registers (offset + 1) size

/-- `RegisterFile::read_raw`. -/
def readRaw (st : State μ) (offset size : Nat) : Option Nat :=
  if validateRange env offset size then some (readBytes st.registers offset size) else none

/-- `RegisterFile::write_raw`, with the effect to record. -/
def writeRaw (effect : Effect) (offset size value : Nat) (st : State μ) : Option (State μ) :=
  if validateRange env offset size then
    some { st with
      registers := fun a =>
        if offset ≤ a ∧ a < offset + size then value / 256 ^ (a - offset) % 256 else st.registers a
      trace := st.trace ++ [effect] }
  else none

/-- A write of that many bytes that the value has to fit. -/
def writeSized (size value offset : Nat) (st : State μ) : Option (State μ) :=
  if value < 256 ^ size then writeRaw env (.writeRegister offset size value) offset size value st
  else none

/-- `write_register` of an integer, by its width. -/
def writeScalar (value width offset : Nat) (st : State μ) : Option (State μ) :=
  if width = 0 then some st
  else if width ≤ 8 then writeSized env 1 value offset st
  else if width ≤ 16 then writeSized env 2 value offset st
  else if width ≤ 32 then writeSized env 4 value offset st
  else if width ≤ 64 then writeSized env 8 value offset st
  else if width ≤ 128 then do writeSized env 8 0 (offset + 8) (← writeSized env 8 value offset st)
  else some st

mutual

/-- `write_register`; a vector is written element by element. -/
def writeRegister : Value → Nat → State μ → Option (State μ)
  | .unsignedInteger value width, offset, st => writeScalar env value width offset st
  | .signedInteger value width, offset, st =>
    writeScalar env (asU64 value &&& mask width) width offset st
  | .vector values, offset, st =>
    match values.head? with
    | some (.unsignedInteger _ width) | some (.signedInteger _ width) =>
      writeElements width values offset st
    | _ => none
  | _, _, _ => none

def writeElements (width : Nat) : List Value → Nat → State μ → Option (State μ)
  | [], _, st => some st
  | v :: vs, offset, st => do writeElements width vs (offset + width) (← writeRegister v offset st)

end

/-- The bits of an integer register, by its width. -/
def readScalar (st : State μ) (width offset : Nat) : Option Nat :=
  if width = 0 then some 0
  else if width ≤ 8 then readRaw env st offset 1
  else if width ≤ 16 then readRaw env st offset 2
  else if width ≤ 32 then readRaw env st offset 4
  else if width ≤ 64 then readRaw env st offset 8
  else if width ≤ 128 then do
    let value ← readRaw env st offset 16
    if value < 2 ^ 64 then some value else none
  else some 0

/-- `read_register`. -/
def readRegister (st : State μ) : Typ → Nat → Option Value
  | .primitive (.unsignedInteger width), offset => do
    some (.unsignedInteger ((← readScalar env st width offset) &&& mask width) width)
  | .primitive (.signedInteger width), offset => do
    some (.signedInteger (asI64 ((← readScalar env st width offset) &&& mask width)) width)
  | .vector elementCount elementType, offset => do
    let width ← elementType.widthBytes
    let values ← (List.range elementCount).mapM fun i =>
      readRegister st elementType (offset + i * width)
    some (.vector values)
  | .int, offset => do some (.signedInteger (asI64 (← readRaw env st offset 8)) 64)
  | _, _ => none

end Registers

/-! ### Statements -/

/-- `locals`. -/
abbrev Locals := String → Option Value

/-- What interpreting a function returns, given its name, arguments and the state. -/
abbrev Calls (μ : Type) := String → List Value → State μ → Option (Option Value × State μ)

/-- What a statement does: go on, perhaps with a value, leave the block, or return. -/
inductive Step (μ : Type) where
  | next (value : Option Value) (locals : Locals) (flags : Nat) (st : State μ)
  | goto (target : BlockRef)
  | return_ (value : Option Value)

section Statements

variable {μ : Type} (env : Environment μ)

/-- The statements whose value depends on nothing but their operands. -/
def evaluate (sourceTyp : Option Typ) : Statement (Option Value) → Option Value
  | .constant c => some (.fromConstant c)
  | .unaryOperation kind value => do Value.unary env kind (← value)
  | .binaryOperation kind lhs rhs => do Value.binary env kind (← lhs) (← rhs)
  | .shiftOperation kind value amount => do
    Value.shift env kind (← value) (← resolveU64 amount)
  | .cast kind typ value => do Value.cast env (← sourceTyp) kind typ (← value)
  | .bitsCast kind typ value width => do
    Value.bitsCast kind typ (← value) (← tryU32 (← resolveU64 width))
  | .select condition trueValue falseValue => do
    if (← resolveU64 condition) ≠ 0 then trueValue else falseValue
  | .bitExtract value start width => do
    let v ← value
    let start ← resolveU64 start
    let width ← resolveU64 width
    match v with
    | .unsignedInteger v _ =>
      some (.unsignedInteger (← env.bitExtract v start width) (← tryU32 width))
    | .signedInteger v _ =>
      some (.signedInteger (asI64 (← env.bitExtract (asU64 v) start width)) (← tryU32 width))
    | _ => none
  | .bitInsert target source start width => do
    match ← target with
    | .unsignedInteger t w =>
      some (.unsignedInteger
        (← bitInsert t (← resolveU64 source) (← resolveU64 start) (← resolveU64 width)) w)
    | _ => none
  | .assignElement vector value index => do
    match ← vector with
    | .vector vs =>
      let v ← value
      let i ← resolveU64 index
      if i < vs.length then some (.vector (vs.set i v)) else none
    | _ => none
  | .createBits value width => do
    some (.unsignedInteger (← resolveU64 value) (← tryU32 (← resolveU64 width)))
  | .sizeOf value => do
    match ← value with
    | .unsignedInteger _ width => some (.unsignedInteger width 16)
    | _ => none
  | .createTuple values => do some (.tuple (← values.mapM id))
  | .tupleAccess index source => do
    match ← source with
    | .tuple vs => vs[index]?
    | _ => none
  | .bitReplicate pattern count => env.todo (.bitReplicate pattern count)
  | .readElement vector index => env.todo (.readElement vector index)
  | .matchesUnion value variant => env.todo (.matchesUnion value variant)
  | .unwrapUnion value variant => env.todo (.unwrapUnion value variant)
  | .createReal numerator denominator => env.todo (.createReal numerator denominator)
  | _ => none

/-- The statement in `interpret_block`.  `GetFlags` reads the flags of the addition that ran last,
whichever operation it names. -/
def exec (call : Calls μ) (sourceTyp : Option Typ) (locals : Locals) (flags : Nat) (st : State μ)
    (s : Statement (Option Value)) : Option (Step μ) :=
  match s with
  | .readVariable symbol => do some (.next (some (← locals symbol.name)) locals flags st)
  | .writeVariable symbol value => do
    some (.next none (Function.update locals symbol.name (some (← value))) flags st)
  | .readRegister typ offset => do
    some (.next (some (← readRegister env st typ (← resolveU64 offset))) locals flags st)
  | .writeRegister offset value => do
    some (.next none locals flags (← writeRegister env (← value) (← resolveU64 offset) st))
  | .readMemory address size => do
    let (value, memory) ← env.readMemory (← address) (← size) st.memory
    some (.next (some value) locals flags { st with memory := memory })
  | .writeMemory address value => do
    let a ← address
    let v ← value
    let memory ← env.writeMemory a v st.memory
    some (.next none locals flags
      { st with memory := memory, trace := st.trace ++ [.writeMemory a v] })
  | .atomicOperation address compareOperand operand operationKind => do
    let a ← address
    let c ← compareOperand
    let o ← operand
    let k ← operationKind
    let (value, memory) ← env.atomicOperation a c o k st.memory
    some (.next (some value) locals flags
      { st with memory := memory, trace := st.trace ++ [.atomicOperation a c o k] })
  | .readPc => do some (.next (some (← env.readPc st.registers)) locals flags st)
  | .writePc value => do
    let pc ← resolveU64 value
    some (.next none locals flags (← writeRaw env (.writePc pc) env.pcOffset 8 pc st))
  | .getFlags _ => some (.next (some (.unsignedInteger flags 4)) locals flags st)
  | .ternaryOperation .addWithCarry a b c => do
    match ← a, ← b, ← c with
    | .unsignedInteger a 64, .unsignedInteger b 64, .unsignedInteger c 1 =>
      let (result, flags) := Value.addWithCarry a b c
      some (.next (some (.unsignedInteger result 64)) locals flags st)
    | _, _, _ => none
  | .call target args _ => do
    let (value, st) ← call target (← args.mapM id) st
    some (.next value locals flags st)
  | .jump target => some (.goto target)
  | .branch condition trueTarget falseTarget => do
    some (.goto (if (← resolveU64 condition) ≠ 0 then trueTarget else falseTarget))
  | .return_ none => some (.return_ none)
  | .return_ (some value) => do some (.return_ (some (← value)))
  | .panic _ => none
  | .assert condition => do
    if (← resolveU64 condition) ≠ 0 then some (.next none locals flags st) else none
  | .phiNode _ => none
  | s => do some (.next (some (← evaluate env sourceTyp s)) locals flags st)

end Statements

/-! ### Blocks and functions -/

/-- An `Interpreter` in the middle of a block; `values` are the statement values. -/
structure Frame where
  locals : Locals
  flags : Nat
  values : Ref → Option Value

/-- `statement_values.clear()` at the start of a block. -/
def Frame.enter (locals : Locals) (flags : Nat) : Frame := ⟨locals, flags, fun _ => none⟩

/-- After a statement; one without a value leaves the statement values alone. -/
def Frame.next (fr : Frame) (r : Ref) (value : Option Value) (locals : Locals) (flags : Nat) : Frame :=
  ⟨locals, flags, if value.isSome then Function.update fr.values r value else fr.values⟩

inductive BlockResult (μ : Type) where
  | nextBlock (target : BlockRef) (locals : Locals) (flags : Nat) (st : State μ)
  | returnValue (value : Option Value) (st : State μ)

/-- The static type a cast asks for, `value.get(arena).typ(arena)`. -/
def Block.sourceTyp (b : Block) (r : Ref) : Option Typ :=
  match b.arena r with
  | .cast _ _ value => b.typ value
  | _ => none

section Runs

variable {μ : Type} (env : Environment μ)

/-- One statement of a block in a frame. -/
def execIn (call : Calls μ) (b : Block) (r : Ref) (fr : Frame) (st : State μ) : Option (Step μ) :=
  exec env call (b.sourceTyp r) fr.locals fr.flags st ((b.arena r).map fr.values)

/-- The loop of `interpret_block`; a block that does not end in a terminator is unreachable. -/
def interpretStatements (call : Calls μ) (b : Block) : List Ref → Frame → State μ → Option (BlockResult μ)
  | [], _, _ => none
  | r :: rest, fr, st =>
    match execIn env call b r fr st with
    | none => none
    | some (.next value locals flags st) =>
      interpretStatements call b rest (fr.next r value locals flags) st
    | some (.goto target) => some (.nextBlock target fr.locals fr.flags st)
    | some (.return_ value) => some (.returnValue value st)

/-- `interpret_block`. -/
def interpretBlock (call : Calls μ) (b : Block) (locals : Locals) (flags : Nat) (st : State μ) :
    Option (BlockResult μ) :=
  interpretStatements env call b b.statements (.enter locals flags) st

/-- `locals.extend(parameters.zip(arguments))`. -/
def bindArguments (parameters : List Symbol) (arguments : List Value) : Locals :=
  (parameters.zip arguments).foldl (fun locals p => Function.update locals p.1.name (some p.2)) fun _ => none

/-- The loop of `interpret` over blocks. -/
def runBlocks (M : Model) : Nat → Function → BlockRef → Locals → Nat → State μ →
    Option (Option Value × State μ)
  | 0, _, _, _, _, _ => none
  | fuel + 1, f, block, locals, flags, st =>
    let call : Calls μ := fun name arguments st =>
      match M.lookup name with
      | none => none
      | some g => runBlocks M fuel g g.entryBlock (bindArguments g.parameters arguments) 0 st
    match interpretBlock env call (f.block block) locals flags st with
    | none => none
    | some (.nextBlock next locals flags st) => runBlocks M fuel f next locals flags st
    | some (.returnValue value st) => some (value, st)

/-- `interpret`, for at most `fuel` nested blocks and calls. -/
def interpret (M : Model) (fuel : Nat) : Calls μ := fun name arguments st =>
  match M.lookup name with
  | none => none
  | some f => runBlocks env M fuel f f.entryBlock (bindArguments f.parameters arguments) 0 st

theorem runBlocks_succ (M : Model) (fuel : Nat) (f : Function) (block : BlockRef) (locals : Locals)
    (flags : Nat) (st : State μ) :
    runBlocks env M (fuel + 1) f block locals flags st =
      match interpretBlock env (interpret env M fuel) (f.block block) locals flags st with
      | none => none
      | some (.nextBlock next locals flags st) => runBlocks env M fuel f next locals flags st
      | some (.returnValue value st) => some (value, st) := rfl

end Runs

end Icewind.Rudder
