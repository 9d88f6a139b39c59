/-!
# BOOM abstract syntax

Types, values and statements of the BOOM intermediate language (`borealis/src/boom/mod.rs`).
Interned strings are strings; `Shared<T>` cells are their contents, since no function modelled
here writes through a shared value.
-/

namespace Icewind.Boom

/-- Size of a BOOM type in bits. -/
inductive Size where
  | static (bits : Nat)
  | unknown
  deriving DecidableEq, Repr

inductive Ty where
  | unit
  | string
  | bool
  | bit
  | real
  | float
  | integer (size : Size)
  | bits (size : Size)
  | constant (value : Int)
  | union (name : String) (fields : List (String × Ty))
  | struct (name : String) (fields : List (String × Ty))
  | tuple (elements : List Ty)
  | vector (element : Ty)
  | fixedVector (length : Nat) (element : Ty)
  | reference (target : Ty)
  | roundingMode

inductive Literal where
  | int (value : Int)
  /-- Little-endian order. -/
  | bits (value : List Bool)
  | bit (value : Bool)
  | bool (value : Bool)
  | string (value : String)
  | vector (elements : List Literal)
  | unit
  | reference (name : String)
  | undefined

/-- The binary operations of BOOM. -/
inductive BinOp where
  | equal
  | notEqual
  | lessThan
  | lessThanOrEqual
  | greaterThan
  | greaterThanOrEqual
  | subtract
  | add
  | or
  | multiply
  | and
  | xor
  | divide
  | leftShift
  | rightShift
  | rotateRight
  | rotateLeft
  deriving DecidableEq, Repr

inductive Value where
  | identifier (name : String)
  | literal (value : Literal)
  | not (value : Value)
  | complement (value : Value)
  | binary (op : BinOp) (lhs rhs : Value)
  | cast (value : Value) (typ : Ty)
  | struct (name : String) (fields : List (String × Value))
  | field (value : Value) (name : String)
  | ctorKind (value : Value) (identifier : String)
  | ctorUnwrap (value : Value) (identifier : String)
  | real (numerator denominator : Value)
  | tuple (values : List Value)
  | vectorAccess (value index : Value)
  | vectorMutate (vector element index : Value)

inductive Expression where
  | identifier (name : String)
  | field (expression : Expression) (name : String)
  | address (expression : Expression)
  | tuple (expressions : List Expression)

inductive Statement where
  | variableDeclaration (name : String) (typ : Ty)
  | copy (expression : Expression) (value : Value)
  | functionCall (expression : Option Expression) (name : String) (arguments : List Value)
  | label (name : String)
  | goto (name : String)
  | jump (condition : Value) (target : String)
  | end_ (name : String)
  | undefined
  | if_ (condition : Value) (ifBody elseBody : List Statement)
  | exit (name : String)
  | comment (text : String)
  /-- Fatal error, printing the supplied value. -/
  | panic (value : Value)

end Icewind.Boom
