import Icewind.Lib.Fallible
import Icewind.Lib.Traversal
import Mathlib.Logic.Function.Basic
import Mathlib.Data.List.Nodup
import Mathlib.Algebra.Group.Int.Defs
import Mathlib.Algebra.Group.Nat.Defs

/-!
# Rudder

Model of the intermediate representation in `common/src/rudder`: types, constants, statements,
blocks and functions.

* `Statement` — all statement kinds, over an arbitrary type `ρ` of operands.  The program has
  `ρ = Ref`; the interpreter looks at a statement with `ρ = Option Value`, its resolved operands.
* `Statement.operands` — what `StatementUseAnalysis::analyse` records as uses.
* `Statement.replaceUse` — `Statement::replace_use`, with its panics.
* `Block.typ` — `Statement::typ`, the static type of a statement.
* `Function.blockIter` — the depth-first `BlockIterator`.  `mem_blockIter_iff` says that it visits the
  blocks that can be reached.
* `Block.WellFormed` — a statement stands once in its block and uses only statements above it.
-/

namespace Icewind.Rudder

open List

/-- `Ref<Statement>`, an index into the statement arena of a block. -/
abbrev Ref := Nat

/-- `Ref<Block>`, an index into the block arena of a function. -/
abbrev BlockRef := Nat

inductive PrimitiveType where
  | unsignedInteger (width : Nat)
  | signedInteger (width : Nat)
  | floatingPoint (width : Nat)
  deriving DecidableEq

def PrimitiveType.width : PrimitiveType → Nat
  | .unsignedInteger w | .signedInteger w | .floatingPoint w => w

/-- `Type` of the source. -/
inductive Typ where
  | primitive (p : PrimitiveType)
  | vector (elementCount : Nat) (elementType : Typ)
  | tuple (ts : List Typ)
  | bits
  | int
  | string
  | real

def Typ.u (width : Nat) : Typ := .primitive (.unsignedInteger width)

def Typ.s (width : Nat) : Typ := .primitive (.signedInteger width)

mutual

/-- `Type::width_bits`; `none` is the panic on a real or on a width that does not fit a `u32`. -/
def Typ.widthBits : Typ → Option Nat
  | .primitive p => some p.width
  | .vector elementCount elementType => do
    let bits := ((← elementType.widthBits) + 7) / 8 * 8 * elementCount
    if bits < 2 ^ 32 then some bits else none
  | .bits => some 64
  | .int => some 64
  | .string => some 32
  | .tuple ts => Typ.sumWidthBits ts
  | .real => none

/-- The fields of a tuple, each rounded up to whole bytes. -/
def Typ.sumWidthBits : List Typ → Option Nat
  | [] => some 0
  | t :: ts => do
    let bits := ((← t.widthBits) + 7) / 8 * 8 + (← Typ.sumWidthBits ts)
    if bits < 2 ^ 32 then some bits else none

end

/-- `Type::width_bytes`. -/
def Typ.widthBytes (t : Typ) : Option Nat := t.widthBits.map fun bits => (bits + 7) / 8

/-- `Constant`; a float is kept as its bit pattern. -/
inductive Constant where
  | unsignedInteger (value width : Nat)
  | signedInteger (value : Int) (width : Nat)
  | floatingPoint (bits width : Nat)
  | string (s : String)
  | tuple (cs : List Constant)
  | vector (cs : List Constant)

mutual

/-- `Constant::typ`; an empty vector panics. -/
def Constant.typ : Constant → Option Typ
  | .unsignedInteger _ width => some (.u width)
  | .signedInteger _ width => some (.s width)
  | .floatingPoint _ width => some (.primitive (.floatingPoint width))
  | .string _ => some .string
  | .vector [] => none
  | .vector (c :: cs) => c.typ.map (.vector (cs.length + 1))
  | .tuple cs => (Constant.typs cs).map .tuple

def Constant.typs : List Constant → Option (List Typ)
  | [] => some []
  | c :: cs => do some ((← c.typ) :: (← Constant.typs cs))

end

/-- The type of a bit extract with this width. -/
def Constant.extractTyp : Constant → Option Typ
  | .unsignedInteger l _ => if l < 2 ^ 32 then some (.u l) else none
  | .signedInteger l _ => if 0 ≤ l ∧ l < 2 ^ 32 then some (.u l.toNat) else none
  | _ => none

structure Symbol where
  name : String
  typ : Typ

inductive UnaryOperationKind where
  | not | negate | complement | power2 | absolute | ceil | floor | squareRoot
  deriving DecidableEq

inductive BinaryOperationKind where
  | add | sub | multiply | divide | modulo | and | or | xor | powI
  | compareEqual | compareNotEqual | compareLessThan | compareLessThanOrEqual
  | compareGreaterThan | compareGreaterThanOrEqual
  deriving DecidableEq

def BinaryOperationKind.isComparison : BinaryOperationKind → Bool
  | .compareEqual | .compareNotEqual | .compareLessThan | .compareLessThanOrEqual
  | .compareGreaterThan | .compareGreaterThanOrEqual => true
  | _ => false

inductive TernaryOperationKind where
  | addWithCarry
  deriving DecidableEq

inductive CastOperationKind where
  | zeroExtend | signExtend | truncate | reinterpret | convert | broadcast
  deriving DecidableEq

inductive ShiftOperationKind where
  | logicalShiftLeft | logicalShiftRight | arithmeticShiftRight | rotateRight | rotateLeft
  deriving DecidableEq

inductive Statement (ρ : Type) where
  | constant (value : Constant)
  | readVariable (symbol : Symbol)
  | writeVariable (symbol : Symbol) (value : ρ)
  | readRegister (typ : Typ) (offset : ρ)
  | writeRegister (offset value : ρ)
  | readMemory (address size : ρ)
  | writeMemory (address value : ρ)
  | atomicOperation (address compareOperand operand operationKind : ρ)
  | readPc
  | writePc (value : ρ)
  | getFlags (operation : ρ)
  | unaryOperation (kind : UnaryOperationKind) (value : ρ)
  | binaryOperation (kind : BinaryOperationKind) (lhs rhs : ρ)
  | ternaryOperation (kind : TernaryOperationKind) (a b c : ρ)
  | shiftOperation (kind : ShiftOperationKind) (value amount : ρ)
  | call (target : String) (args : List ρ) (returnType : Option Typ)
  | cast (kind : CastOperationKind) (typ : Typ) (value : ρ)
  | bitsCast (kind : CastOperationKind) (typ : Typ) (value width : ρ)
  | jump (target : BlockRef)
  | branch (condition : ρ) (trueTarget falseTarget : BlockRef)
  | phiNode (members : List (BlockRef × ρ))
  | return_ (value : Option ρ)
  | select (condition trueValue falseValue : ρ)
  | bitExtract (value start width : ρ)
  | bitInsert (target source start width : ρ)
  | bitReplicate (pattern count : ρ)
  | readElement (vector index : ρ)
  | assignElement (vector value index : ρ)
  | panic (value : ρ)
  | assert (condition : ρ)
  | createBits (value width : ρ)
  | sizeOf (value : ρ)
  | matchesUnion (value : ρ) (variant : String)
  | unwrapUnion (value : ρ) (variant : String)
  | createReal (numerator denominator : ρ)
  | createTuple (values : List ρ)
  | tupleAccess (index : Nat) (source : ρ)

namespace Statement

variable {ρ ρ' ρ'' : Type}

/-- The statement with its operands replaced. -/
def map (g : ρ → ρ') : Statement ρ → Statement ρ'
  | constant value => constant value
  | readVariable symbol => readVariable symbol
  | writeVariable symbol value => writeVariable symbol (g value)
  | readRegister typ offset => readRegister typ (g offset)
  | writeRegister offset value => writeRegister (g offset) (g value)
  | readMemory address size => readMemory (g address) (g size)
  | writeMemory address value => writeMemory (g address) (g value)
  | atomicOperation address compareOperand operand operationKind =>
    atomicOperation (g address) (g compareOperand) (g operand) (g operationKind)
  | readPc => readPc
  | writePc value => writePc (g value)
  | getFlags operation => getFlags (g operation)
  | unaryOperation kind value => unaryOperation kind (g value)
  | binaryOperation kind lhs rhs => binaryOperation kind (g lhs) (g rhs)
  | ternaryOperation kind a b c => ternaryOperation kind (g a) (g b) (g c)
  | shiftOperation kind value amount => shiftOperation kind (g value) (g amount)
  | call target args returnType => call target (args.map g) returnType
  | cast kind typ value => cast kind typ (g value)
  | bitsCast kind typ value width => bitsCast kind typ (g value) (g width)
  | jump target => jump target
  | branch condition trueTarget falseTarget => branch (g condition) trueTarget falseTarget
  | phiNode members => phiNode (members.map fun m => (m.1, g m.2))
  | return_ value => return_ (value.map g)
  | select condition trueValue falseValue => select (g condition) (g trueValue) (g falseValue)
  | bitExtract value start width => bitExtract (g value) (g start) (g width)
  | bitInsert target source start width => bitInsert (g target) (g source) (g start) (g width)
  | bitReplicate pattern count => bitReplicate (g pattern) (g count)
  | readElement vector index => readElement (g vector) (g index)
  | assignElement vector value index => assignElement (g vector) (g value) (g index)
  | panic value => panic (g value)
  | assert condition => assert (g condition)
  | createBits value width => createBits (g value) (g width)
  | sizeOf value => sizeOf (g value)
  | matchesUnion value variant => matchesUnion (g value) variant
  | unwrapUnion value variant => unwrapUnion (g value) variant
  | createReal numerator denominator => createReal (g numerator) (g denominator)
  | createTuple values => createTuple (values.map g)
  | tupleAccess index source => tupleAccess index (g source)

/-- The operands `StatementUseAnalysis::analyse` passes to `add_use`: all but those of a phi node. -/
def operands : Statement ρ → List ρ
  | constant _ | readVariable _ | readPc | jump _ | phiNode _ => []
  | writeVariable _ value => [value]
  | readRegister _ offset => [offset]
  | writeRegister offset value => [offset, value]
  | readMemory address size => [address, size]
  | writeMemory address value => [address, value]
  | atomicOperation address compareOperand operand operationKind =>
    [address, compareOperand, operand, operationKind]
  | writePc value => [value]
  | getFlags operation => [operation]
  | unaryOperation _ value => [value]
  | binaryOperation _ lhs rhs => [lhs, rhs]
  | ternaryOperation _ a b c => [a, b, c]
  | shiftOperation _ value amount => [value, amount]
  | call _ args _ => args
  | cast _ _ value => [value]
  | bitsCast _ _ value width => [value, width]
  | branch condition _ _ => [condition]
  | return_ value => value.toList
  | select condition trueValue falseValue => [condition, trueValue, falseValue]
  | bitExtract value start width => [value, start, width]
  | bitInsert target source start width => [target, source, start, width]
  | bitReplicate pattern count => [pattern, count]
  | readElement vector index => [vector, index]
  | assignElement vector value index => [vector, value, index]
  | panic value => [value]
  | assert condition => [condition]
  | createBits value width => [value, width]
  | sizeOf value => [value]
  | matchesUnion value _ => [value]
  | unwrapUnion value _ => [value]
  | createReal numerator denominator => [numerator, denominator]
  | createTuple values => values
  | tupleAccess _ source => [source]

/-- `Statement::replace_use`.  A binary operation has one operand replaced, the left one first, and
panics when neither is `useOf`; statements without operands to replace are `todo!()`. -/
def replaceUse [DecidableEq ρ] (useOf replacement : ρ) : Statement ρ → Option (Statement ρ)
  | binaryOperation kind lhs rhs =>
    if lhs = useOf then some (binaryOperation kind replacement rhs)
    else if rhs = useOf then some (binaryOperation kind lhs replacement)
    else none
  | constant _ | readVariable _ | readRegister _ _ | readPc | jump _ | phiNode _ => none
  | s => some (s.map fun x => if x = useOf then replacement else x)

/-- One unfolding of `Statement::typ`, where `const` gives the constant an operand is, if it is one,
and `typ` the type of an operand.  A missing type and a panic are both `none`: every caller
unwraps the result. -/
def typOf (const : ρ → Option Constant) (typ : ρ → Option Typ) : Statement ρ → Option Typ
  | constant c => c.typ
  | readVariable symbol => some symbol.typ
  | readRegister t _ => some t
  | readMemory _ _ | atomicOperation _ _ _ _ => some .bits
  | binaryOperation kind lhs _ => if kind.isComparison then some (.u 1) else typ lhs
  | ternaryOperation _ a _ _ => typ a
  | unaryOperation kind value =>
    if kind = .ceil ∨ kind = .floor then some (.s 64) else typ value
  | shiftOperation _ value _ => typ value
  | call _ _ returnType => returnType
  | cast _ t _ | bitsCast _ t _ _ => some t
  | phiNode members => members.head?.bind fun m => typ m.2
  | select _ trueValue _ => typ trueValue
  | readPc => some (.u 64)
  | bitExtract value _ width =>
    match const width with
    | some c => c.extractTyp
    | none => typ value
  | bitInsert target _ _ _ => typ target
  | bitReplicate _ _ | createBits _ _ => some .bits
  | readElement vector _ =>
    match typ vector with
    | some (.vector _ elementType) => some elementType
    | _ => none
  | assignElement vector _ _ => typ vector
  | sizeOf _ => some (.u 16)
  | matchesUnion _ _ => some (.u 1)
  | unwrapUnion _ _ => none
  | tupleAccess index source =>
    match typ source with
    | some (.tuple ts) => ts[index]?
    | _ => none
  | getFlags _ => some (.u 4)
  | createTuple values => (values.mapM typ).map .tuple
  | createReal _ _ => some .real
  | writeVariable _ _ | writeRegister _ _ | writeMemory _ _ | writePc _ | jump _ | branch _ _ _
  | return_ _ | panic _ | assert _ => none

/-- Does the statement write the variable? -/
def Writes (name : String) : Statement ρ → Prop
  | writeVariable symbol _ => symbol.name = name
  | _ => False

instance (name : String) (s : Statement ρ) : Decidable (s.Writes name) := by
  unfold Writes
  split <;> infer_instance

theorem map_map (g : ρ' → ρ'') (h : ρ → ρ') (s : Statement ρ) : (s.map h).map g = s.map (g ∘ h) := by
  cases s <;> simp [map, Function.comp_def]

theorem map_id (s : Statement ρ) : s.map id = s := by
  cases s <;> simp [map]

/-- Replacing an operand by one that is mapped to the same thing changes nothing after the map. -/
theorem replaceUse_map [DecidableEq ρ] {useOf replacement : ρ} {s s' : Statement ρ} {g : ρ → ρ'}
    (h : s.replaceUse useOf replacement = some s') (hg : g useOf = g replacement) :
    s'.map g = s.map g := by
  have hite : g ∘ (fun x => if x = useOf then replacement else x) = g := by
    funext x
    dsimp only [Function.comp]
    split
    · rename_i hx
      rw [hx, hg]
    · rfl
  cases s <;> simp only [replaceUse, reduceCtorEq] at h
  case binaryOperation kind lhs rhs =>
    split at h
    · rename_i hl
      cases h
      simp [map, hl, hg]
    · split at h
      · rename_i hr
        cases h
        simp [map, hr, hg]
      · cases h
  all_goals
    cases h
    rw [map_map, hite]

end Statement

/-- A basic block: its statement arena and the statements in order. -/
structure Block where
  arenaSize : Nat
  arena : Ref → Statement Ref
  statements : List Ref

namespace Block

/-- `*stmt.get_mut(arena) = s`. -/
def set (b : Block) (r : Ref) (s : Statement Ref) : Block :=
  { b with arena := Function.update b.arena r s }

variable (b : Block)

@[simp] theorem set_statements (r : Ref) (s : Statement Ref) : (b.set r s).statements = b.statements := rfl

@[simp] theorem set_arenaSize (r : Ref) (s : Statement Ref) : (b.set r s).arenaSize = b.arenaSize := rfl

@[simp] theorem set_arena_self (r : Ref) (s : Statement Ref) : (b.set r s).arena r = s := Function.update_self ..

theorem set_arena_of_ne {r r' : Ref} (s : Statement Ref) (h : r' ≠ r) :
    (b.set r s).arena r' = b.arena r' := Function.update_of_ne h ..

/-- The constant a statement is, if it is one. -/
def constantAt (b : Block) (r : Ref) : Option Constant :=
  match b.arena r with
  | .constant c => some c
  | _ => none

/-- The recursion of `Statement::typ`.  A chain of operands without a cycle is no longer than the
arena, so that running out of fuel is a recursion that does not end. -/
def typAux (b : Block) : Nat → Ref → Option Typ
  | 0, _ => none
  | fuel + 1, r => (b.arena r).typOf b.constantAt (b.typAux fuel)

/-- `stmt.get(arena).typ(arena)`. -/
def typ (b : Block) (r : Ref) : Option Typ := b.typAux b.arenaSize r

/-- `Block::targets`. -/
def targets (b : Block) : List BlockRef :=
  b.statements.flatMap fun r =>
    match b.arena r with
    | .jump target => [target]
    | .branch _ trueTarget falseTarget => [trueTarget, falseTarget]
    | _ => []

/-- Each statement stands once in the block, and its operands are statements above it. -/
structure WellFormed (b : Block) : Prop where
  nodup : b.statements.Nodup
  bounded : ∀ r ∈ b.statements, r < b.arenaSize
  ordered : ∀ done r rest, b.statements = done ++ r :: rest → ∀ o ∈ (b.arena r).operands, o ∈ done

end Block

/-- A function: what the passes and the interpreter read of it. -/
structure Function where
  parameters : List Symbol
  localVariables : List Symbol
  blockCount : Nat
  block : BlockRef → Block
  entryBlock : BlockRef

/-- The functions of a model by name. -/
abbrev Model := List (String × Function)

/-- How accesses to a register are translated. -/
inductive RegisterCacheType where
  | none | read | readWrite | constant
  deriving DecidableEq

namespace Function

def setBlock (f : Function) (b : BlockRef) (blk : Block) : Function :=
  { f with block := Function.update f.block b blk }

variable (f : Function)

@[simp] theorem setBlock_block_self (b : BlockRef) (blk : Block) :
    (f.setBlock b blk).block b = blk := Function.update_self ..

theorem setBlock_block_of_ne {b b' : BlockRef} (blk : Block) (h : b' ≠ b) :
    (f.setBlock b blk).block b' = f.block b' := Function.update_of_ne h ..

@[simp] theorem setBlock_entryBlock (b : BlockRef) (blk : Block) : (f.setBlock b blk).entryBlock = f.entryBlock := rfl

@[simp] theorem setBlock_parameters (b : BlockRef) (blk : Block) : (f.setBlock b blk).parameters = f.parameters := rfl

@[simp] theorem setBlock_blockCount (b : BlockRef) (blk : Block) : (f.setBlock b blk).blockCount = f.blockCount := rfl

/-- `Function::block_iter`: `BlockIterator::next` until it is exhausted. -/
def blockIter (f : Function) : List BlockRef :=
  Traversal.visits (fun b => (f.block b).targets) f.blockCount f.entryBlock

/-- All references are within their arenas. -/
structure RefsValid (f : Function) : Prop where
  entry : f.entryBlock < f.blockCount
  targets : ∀ b < f.blockCount, ∀ t ∈ (f.block b).targets, t < f.blockCount

/-- A block that can be reached from the entry block. -/
def Reached (f : Function) (b : BlockRef) : Prop :=
  Relation.ReflTransGen (fun a t => t ∈ (f.block a).targets) f.entryBlock b

/-- **The iterator visits the blocks that can be reached.** -/
theorem mem_blockIter_iff {f : Function} (hf : f.RefsValid) {b : BlockRef} : b ∈ f.blockIter ↔ f.Reached b :=
  Traversal.mem_visits_iff hf.entry hf.targets

/-- The iterator visits the entry block, and with a block all its targets. -/
theorem blockIter_closed {f : Function} (hf : f.RefsValid) :
    f.entryBlock ∈ f.blockIter ∧ ∀ b ∈ f.blockIter, ∀ t ∈ (f.block b).targets, t ∈ f.blockIter :=
  ⟨(mem_blockIter_iff hf).mpr .refl, fun _ hb _ ht =>
    (mem_blockIter_iff hf).mpr (.tail ((mem_blockIter_iff hf).mp hb) ht)⟩

end Function

end Icewind.Rudder
