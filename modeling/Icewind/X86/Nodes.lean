import Icewind.Rudder.Interpret
import Icewind.X86.Encoder

/-!
# Nodes of the emitter

Model of `X86Node` and of the constructors of nodes in `brig/dbt/src/x86/emitter/mod.rs` that simplify what they are
given.  They emit nothing.  `none` is a panic.

* `Node` — a node with its type.  The sum with carry has an identity besides its structure, since the emitter looks
  such nodes up by pointer.
* `Node.constant`, `Node.makeCast`, `Node.makeShift`, `Node.makeAnd` — `constant`, `cast`, `shift`, and
  `binary_operation` of an `And`.
* `Node.makeBitInsert`, `Node.makeBitExtract`, `Node.makeBitReplicate` — `bit_insert`, `bit_extract`,
  `bit_replicate`.
-/

namespace Icewind.X86

/-- `Type` of the emitter. -/
inductive Ty where
  | unsigned (width : Nat)
  | signed (width : Nat)
  | floating (width : Nat)
  | bits
  | int
  | tuple
  | real
  deriving DecidableEq, Repr

/-- `Type::width`; a tuple has none. -/
def Ty.width : Ty → Option Nat
  | .unsigned w | .signed w | .floating w => some w
  | .bits => some 64
  | .int => some 64
  | .tuple => none
  -- only the numerator is stored
  | .real => some 64

/-- `Width::from_uncanonicalized`; zero is an error. -/
def Width.fromUncanonicalized (bits : Nat) : Option Width :=
  if bits = 0 then none
  else if bits ≤ 8 then some .w8
  else if bits ≤ 16 then some .w16
  else if bits ≤ 32 then some .w32
  else if bits ≤ 64 then some .w64
  else some .w128

inductive UnaryOperationKind where
  | not | negate | complement | power2 | absolute | ceil | floor | squareRoot
  deriving DecidableEq, Repr

inductive BinaryOperationKind where
  | add | sub | multiply | divide | modulo | and | or | xor | powI
  | compareEqual | compareNotEqual | compareLessThan | compareLessThanOrEqual | compareGreaterThan
  | compareGreaterThanOrEqual
  deriving DecidableEq, Repr

inductive CastOperationKind where
  | zeroExtend | signExtend | truncate | reinterpret | convert | broadcast
  deriving DecidableEq, Repr

inductive ShiftOperationKind where
  | logicalShiftLeft | logicalShiftRight | arithmeticShiftRight | rotateRight | rotateLeft
  deriving DecidableEq, Repr

/-- `X86Node`, the type first. -/
inductive Node where
  | const (typ : Ty) (value width : Nat)
  | operand (typ : Ty) (op : Operand)
  | functionPointer (typ : Ty) (target : Nat)
  | guestRegister (typ : Ty) (offset : Nat)
  | unaryOperation (typ : Ty) (kind : UnaryOperationKind) (value : Node)
  | binaryOperation (typ : Ty) (kind : BinaryOperationKind) (left right : Node)
  | addWithCarry (typ : Ty) (pointer : Nat) (left right carry : Node)
  | cast (typ : Ty) (kind : CastOperationKind) (value : Node)
  | shift (typ : Ty) (kind : ShiftOperationKind) (value amount : Node)
  | readStackVariable (typ : Ty) (id width : Nat)
  | bitExtract (typ : Ty) (value start length : Node)
  | bitInsert (typ : Ty) (target source start length : Node)
  | bitReplicate (typ : Ty) (pattern count : Node)
  | getFlags (typ : Ty) (operation : Node)
  | real (typ : Ty) (numerator denominator : Node)
  | tuple (typ : Ty) (values : List Node)
  | select (typ : Ty) (condition trueValue falseValue : Node)
  | callReturnValue (typ : Ty)

namespace Node

def typ : Node → Ty
  | .const t _ _ | .operand t _ | .functionPointer t _ | .guestRegister t _ | .unaryOperation t _ _
  | .binaryOperation t _ _ _ | .addWithCarry t _ _ _ _ | .cast t _ _ | .shift t _ _ _ | .readStackVariable t _ _
  | .bitExtract t _ _ _ | .bitInsert t _ _ _ _ | .bitReplicate t _ _ | .getFlags t _ | .real t _ _ | .tuple t _
  | .select t _ _ _ | .callReturnValue t => t

/-- The value of a constant. -/
def asConstant : Node → Option Nat
  | .const _ value _ => some value
  | _ => none

/-! ### Constants, reads and casts -/

/-- `constant`: there are no constants of width zero. -/
def constant (value : Nat) (typ : Ty) : Option Node := do
  let width ← typ.width
  if width = 0 then none else some (.const typ value width)

/-- A number that the emitter makes up; `constant` does not panic on it. -/
def number (value : Nat) : Node := .const (.signed 64) value 64

def readRegister (offset : Nat) (typ : Ty) : Node := .guestRegister typ offset

/-- `sign_extend`: the two shifts panic unless the width is from 1 to 64. -/
def signExtend (value originalWidth : Nat) : Option Nat :=
  if value = 0 then some 0
  else if 1 ≤ originalWidth ∧ originalWidth ≤ 64 then
    let shifted := (value <<< (64 - originalWidth)) % 2 ^ 64
    some (Rudder.asU64 (Rudder.asI64 shifted / 2 ^ (64 - originalWidth)))
  else none

/-- The value of a constant after a cast. -/
def castConstant (value originalWidth targetWidth : Nat) : CastOperationKind → Option Nat
  | .zeroExtend => some (if originalWidth = 64 then value else value &&& Rudder.mask originalWidth)
  | .signExtend => signExtend value originalWidth
  | .truncate => some (value &&& Rudder.mask targetWidth)
  | .reinterpret | .convert | .broadcast => some value

/-- `cast`. -/
def makeCast (value : Node) (target : Ty) (kind : CastOperationKind) : Option Node :=
  match value with
  | .const typ constantValue _ =>
    if target = .bits then none
    else do
      let originalWidth ← typ.width
      let targetWidth ← target.width
      let casted ← castConstant constantValue originalWidth targetWidth kind
      constant casted target
  | _ =>
    match kind with
    | .reinterpret | .truncate => if value.typ = target then some value else some (.cast target kind value)
    | _ => some (.cast target kind value)

/-! ### Shifts -/

/-- The value of a constant shifted by a constant.  The amount is a `u32`. -/
def shiftConstant (value width amount : Nat) : ShiftOperationKind → Option Nat
  | .logicalShiftLeft =>
    if value = 0 then some 0
    else if amount = 0 then some (value &&& Rudder.mask width)
    else do
      let amount ← Rudder.tryU32 amount
      some ((if amount < 64 then (value <<< amount) % 2 ^ 64 else 0) &&& Rudder.mask width)
  | .logicalShiftRight => do
    let amount ← Rudder.tryU32 amount
    some (if amount < 64 then value >>> amount else 0)
  | .arithmeticShiftRight => do
    let amount ← Rudder.tryU32 amount
    if width = 64 then
      if amount < 64 then some (Rudder.asU64 (Rudder.asI64 value / 2 ^ amount)) else none
    else if width = 32 then
      if amount < 32 then some (Rudder.asU64 ((value : Int).bmod (2 ^ 32) / 2 ^ amount)) else none
    else none
  | .rotateRight | .rotateLeft => none

/-- `shift`. -/
def makeShift (value amount : Node) (kind : ShiftOperationKind) : Option Node :=
  match value, amount with
  | .const typ v width, .const _ a _ => do
    let shifted ← shiftConstant v width a kind
    constant shifted typ
  | value, .const amountTyp a amountWidth =>
    if a = 0 then some value else some (.shift value.typ kind value (.const amountTyp a amountWidth))
  | value, amount => some (.shift value.typ kind value amount)

/-! ### And -/

/-- `is_no_op_and`.  The type of the constant is looked at only if the constant is all ones. -/
def isNoOpAnd (left right : Ty) (constant : Nat) : Option Bool := do
  let leftWidth ← left.width
  -- values of over 128 bits are not handled
  if leftWidth > 128 then some false
  else
    let beyondConstants := decide (leftWidth > 64 ∧ constant = 2 ^ 64 - 1)
    if constant = Rudder.mask leftWidth then do
      let rightWidth ← right.width
      some (decide (rightWidth ∈ [8, 16, 32, 64, 128]) || beyondConstants)
    else some beyondConstants

/-- `binary_operation` of an `And`. -/
def makeAnd (left right : Node) : Option Node :=
  match left, right with
  | .const typ l width, .const _ r _ => some (.const typ (l &&& r) width)
  | .const typ l width, right =>
    if l = 0 then constant 0 right.typ
    else do
      if ← isNoOpAnd right.typ typ l then some right
      else some (.binaryOperation typ .and (.const typ l width) right)
  | left, .const typ r width =>
    if r = 0 then constant 0 left.typ
    else do
      if ← isNoOpAnd left.typ typ r then some left
      else some (.binaryOperation typ .and left (.const typ r width))
  | left, right => some (.binaryOperation left.typ .and left right)

/-! ### Bit fields -/

/-- A `u64` result: overflow panics or wraps, as the build has it. -/
def word (overflowChecks : Bool) (x : Int) : Option Nat :=
  if 0 ≤ x ∧ x < 2 ^ 64 then some x.toNat
  else if overflowChecks then none else some (Rudder.asU64 x)

/-- `bit_extract` of `common`. -/
def extractBits (overflowChecks : Bool) (value start length : Nat) : Option Nat := do
  let length ← Rudder.tryU32 length
  if start < 64 then some ((value >>> start) &&& Rudder.mask length)
  else if overflowChecks then none else some ((value >>> (start % 64)) &&& Rudder.mask length)

/-- Is all of the target replaced, as far as machine widths go? -/
def replacesAll (target source : Node) (start length : Nat) : Option Bool :=
  if start = 0 then do
    let lengthWidth ← Width.fromUncanonicalized length
    let sourceWidth ← Width.fromUncanonicalized (← source.typ.width)
    if lengthWidth = sourceWidth then do
      let targetWidth ← Width.fromUncanonicalized (← target.typ.width)
      some (decide (lengthWidth = targetWidth))
    else some false
  else some false

/-- `bit_insert` at places that are not all constant. -/
def makeBitInsertNode (target source start length : Node) : Option Node :=
  match start.asConstant, length.asConstant with
  | some s, some l => do
    if ← replacesAll target source s l then some source
    else some (.bitInsert target.typ target source start length)
  | _, _ => some (.bitInsert target.typ target source start length)

/-- `bit_insert`.  Constants are folded up to 64 bits. -/
def makeBitInsert (target source start length : Node) : Option Node :=
  match target, source.asConstant, start.asConstant, length.asConstant with
  | .const typ t width, some c, some s, some l =>
    if width ≤ 64 then do
      let inserted ← Rudder.bitInsert t c s l
      constant inserted (.unsigned width)
    else makeBitInsertNode (.const typ t width) source start length
  | target, _, _, _ => makeBitInsertNode target source start length

variable (overflowChecks : Bool)

/-- What a bit field is taken from: if there were enough bits before a zero extension, those. -/
def beforeExtension (value : Node) (start length : Nat) : Option Node :=
  match value with
  | .cast (.unsigned w) .zeroExtend before => do
    let width ← before.typ.width
    let stop ← word overflowChecks (start + length)
    some (if width ≥ stop then before else .cast (.unsigned w) .zeroExtend before)
  | value => some value

/-- A bit field as a shift, a truncation and a mask. -/
def shiftAndMask (value start : Node) (length : Nat) : Option Node := do
  let shifted ← makeShift value start .logicalShiftRight
  let target ← Rudder.tryU32 length
  let cast ← makeCast shifted (.unsigned target) .truncate
  let mask ← constant (Rudder.mask target) cast.typ
  makeAnd cast mask

/-- `bit_extract` with constant start and length, of a node that is neither a constant nor a bit insert. -/
def extractKnown (value start : Node) (s l : Nat) : Option Node := do
  match ← beforeExtension overflowChecks value s l with
  | .guestRegister typ offset =>
    if l ∈ [8, 16, 32, 64, 128] then
      match value.typ with
      | .unsigned _ =>
        if s % 8 ≠ 0 then none
        else do
          let offset ← word overflowChecks (offset + s / 8)
          some (readRegister offset (.unsigned l))
      | _ => none
    else shiftAndMask (.guestRegister typ offset) start l
  | before => shiftAndMask before start l

/-- `bit_extract` with constant start and length.  `start` and `length` are the nodes of `s` and `l`. -/
def extractRange : Node → Node → Node → Nat → Nat → Option Node
  | .const _ value _, _, _, s, l => do
    let extracted ← extractBits overflowChecks value s l
    let length ← Rudder.tryU32 l
    constant extracted (.unsigned length)
  | .bitInsert _ target source insertStart insertLength, _, _, s, l =>
    match insertStart.asConstant, insertLength.asConstant with
    | some i, some n =>
      -- exactly what was inserted
      if s = i ∧ l = n then some source
      -- the target up to what was inserted
      else if s = 0 ∧ l = i then do
        let length ← Rudder.tryU32 l
        makeCast target (.unsigned length) .truncate
      else do
        let insertStop ← word overflowChecks (i + n)
        let stop ← word overflowChecks (s + l)
        let last ← word overflowChecks ((stop : Int) - 1)
        let inA := fun x => decide (x < i)
        let inB := fun x => decide (i ≤ x ∧ x < insertStop)
        match inA s, inA last, inB s, inB last with
        | true, true, false, false => extractRange target (number s) (number l) s l
        | false, false, true, true => extractRange source (number (s - i)) (number l) (s - i) l
        | true, false, false, true =>
          -- the end of the target and the start of what was inserted
          let lengthA := i - s
          let lengthB := l - lengthA
          if lengthA + lengthB ≠ l then none
          else do
            let a ← extractRange target (number s) (number lengthA) s lengthA
            let b ← extractRange source (number 0) (number lengthB) 0 lengthB
            let length ← Rudder.tryU32 l
            let expanded ← makeCast a (.unsigned length) .zeroExtend
            makeBitInsert expanded b (number lengthA) (number lengthB)
        | _, _, _, _ => none
    | _, _ => none
  | .binaryOperation typ .multiply left right, start, length, s, l =>
    -- the upper half of a product has an instruction of its own
    if s = 64 ∧ l = 64 then some (.bitExtract typ (.binaryOperation typ .multiply left right) start length)
    else extractKnown overflowChecks (.binaryOperation typ .multiply left right) start s l
  | value, start, _, s, l => extractKnown overflowChecks value start s l

/-- `bit_extract`. -/
def makeBitExtract (value start length : Node) : Option Node :=
  match start.asConstant, length.asConstant with
  | some s, some l => extractRange overflowChecks value start length s l
  | none, some l => do
    let width ← Rudder.tryU32 l
    some (.bitExtract (.unsigned width) value start length)
  | _, none => some (.bitExtract value.typ value start length)

/-- The loop of `bit_replicate`. -/
def replicateBits (pattern width : Nat) : Nat → Nat → Nat
  | 0, dest => dest
  | n + 1, dest => replicateBits pattern width n ((dest <<< width) % 2 ^ 64 ||| pattern)

/-- `bit_replicate`.  Constants are folded up to 64 bits. -/
def makeBitReplicate (pattern count : Node) : Option Node :=
  match pattern, count.asConstant with
  | .const typ p width, some c => do
    let product ← word overflowChecks (width * c)
    if product ≤ 64 then do
      let count ← Rudder.tryU32 c
      constant (replicateBits p width (c - 1) p) (.unsigned (width * count))
    else some (.bitReplicate (.unsigned 64) (.const typ p width) count)
  | pattern, _ => some (.bitReplicate (.unsigned 64) pattern count)

end Node

end Icewind.X86
