import Icewind.Boom.ControlFlow

/-!
# JIB to BOOM conversion of a function body

Model of `BoomEmitter::convert_body` and `convert_instruction` (`borealis/src/jib/convert.rs`).
The JIB types come from the `isla_lib` crate: types, expressions, locations and exit causes are
type variables, and `Converters` holds the emitter's own conversions of them (`none` where a
conversion panics).

* `Instr` — a JIB instruction; `pcMachine` runs a list of them by a program counter.
* `blockLocations` — the pre-scan that allocates a block for every target and every position after
  a goto, jump, end or exit.
* `convertBody` — the loop over the instructions that fills and links these blocks.
-/

namespace Icewind.Jib

open Icewind.Boom

/-- `isla_lib::ir::Instr`; source locations and call flags are not used by the conversion. -/
inductive Instr (ty exp loc cause : Type) where
  | decl (name : String) (typ : ty)
  | init (name : String) (typ : ty) (value : exp)
  | copy (location : loc) (value : exp)
  | call (location : loc) (name : String) (args : List exp)
  | monomorphize
  | primopUnary
  | primopBinary
  | primopVariadic
  | primopReset
  | arbitrary
  | jump (condition : exp) (target : Nat)
  | goto (target : Nat)
  | exit (cause : cause)
  | end_

/-- The conversions of `isla_lib` data the emitter performs. -/
structure Converters (ty exp loc cause : Type) where
  convertType : ty → Option Ty
  convertExpression : exp → Option Value
  convertLocation : loc → Option Expression
  /-- `format!("\x7bcause:?\x7d")`. -/
  debugCause : cause → String

variable {ty exp loc cause : Type}

/-- `convert_instruction`: the statements of a non-control instruction, `none` where it panics. -/
def Converters.convertInstruction (em : Converters ty exp loc cause) :
    Instr ty exp loc cause → Option (List Statement)
  | .decl name typ => do
    let typ ← em.convertType typ
    some [.variableDeclaration name typ]
  | .init name typ value => do
    let typ ← em.convertType typ
    let value ← em.convertExpression value
    some [.variableDeclaration name typ, .copy (.identifier name) value]
  | .copy location value => do
    let location ← em.convertLocation location
    let value ← em.convertExpression value
    some [.copy location value]
  | .call location name args => do
    let location ← em.convertLocation location
    let args ← args.mapM em.convertExpression
    some [.functionCall (some location) name args]
  | .arbitrary => some [.undefined]
  | .monomorphize | .primopUnary | .primopBinary | .primopVariadic | .primopReset => none
  | .jump .. | .goto _ | .exit _ | .end_ => none

/-! ## The linear list, run by a program counter -/

/-- Position of a linear run: statements of the current instruction still to perform, and the
program counter. -/
structure PcPos where
  pending : List Statement
  pc : Nat

/-- One move of a linear run. -/
inductive PcStep (em : Converters ty exp loc cause) (instrs : List (Instr ty exp loc cause)) :
    PcPos → Option Heap.Event → PcPos → Prop where
  | exec {s : Statement} {rest : List Statement} {pc : Nat} :
      PcStep em instrs ⟨s :: rest, pc⟩ (some (.exec s)) ⟨rest, pc⟩
  | plain {pc : Nat} {i : Instr ty exp loc cause} {ss : List Statement} :
      instrs[pc]? = some i → em.convertInstruction i = some ss →
      PcStep em instrs ⟨[], pc⟩ none ⟨ss, pc + 1⟩
  | goto {pc target : Nat} : instrs[pc]? = some (.goto target) → PcStep em instrs ⟨[], pc⟩ none ⟨[], target⟩
  | jump {pc target : Nat} {e : exp} {c : Value} (taken : Bool) :
      instrs[pc]? = some (.jump e target) → em.convertExpression e = some c →
      PcStep em instrs ⟨[], pc⟩ (some (.branch c taken)) ⟨[], if taken then target else pc + 1⟩

/-- A linear run ends at `End`, returning the variable `return`, or at `Exit`. -/
inductive PcFinal (em : Converters ty exp loc cause) (instrs : List (Instr ty exp loc cause)) :
    PcPos → Heap.Result → Prop where
  | end_ {pc : Nat} :
      instrs[pc]? = some .end_ → PcFinal em instrs ⟨[], pc⟩ (.ret (some (.identifier "return")))
  | exit {pc : Nat} {c : cause} : instrs[pc]? = some (.exit c) →
      PcFinal em instrs ⟨[], pc⟩ (.panic (.literal (.string (em.debugCause c))))

def pcMachine (em : Converters ty exp loc cause) (instrs : List (Instr ty exp loc cause)) :
    Machine PcPos Heap.Event Heap.Result := ⟨PcStep em instrs, PcFinal em instrs⟩

/-! ## `convert_body` -/

/-- The block that starts at an instruction index (`BTreeMap<usize, ControlFlowBlock>`). -/
abbrev Locations := Nat → Option BlockId

/-- `BTreeMap::insert` of a new block; a block already there is dropped. -/
def insertBlock (st : Locations × Heap) (index : Nat) : Locations × Heap :=
  let (b, h) := st.2.new
  (Function.update st.1 index (some b), match st.1 index with | some old => h.drop old | none => h)

/-- The indices an instruction opens blocks at. -/
def opened (index : Nat) : Instr ty exp loc cause → List Nat
  | .goto target | .jump _ target => [target, index + 1]
  | .end_ | .exit _ => [index + 1]
  | _ => []

/-- The pre-scan. -/
def blockLocations (instrs : List (Instr ty exp loc cause)) (h : Heap) : Locations × Heap :=
  (instrs.zipIdx.flatMap fun p => opened p.2 p.1).foldl insertBlock (fun _ => none, h)

/-- State of the main loop: heap, `current_block`, `current_statements`. -/
structure Conv where
  heap : Heap
  current : BlockId
  statements : List Statement

/-- Store the statements collected so far and close the current block. -/
def Conv.close (c : Conv) (t : Terminator) : Option Heap :=
  (c.heap.setStatements c.current c.statements).setTerminator c.current t

/-- If the index was the target of a jump, start a new block (unless already on it). -/
def enterBlock (locs : Locations) (index : Nat) (c : Conv) : Option Conv :=
  match locs index with
  | none => some c
  | some next =>
    if next ≠ c.current then do
      let h ← c.close (.unconditional next)
      some ⟨h.addParent next c.current, next, []⟩
    else some c

/-- One instruction of the main loop. -/
def convertStep (em : Converters ty exp loc cause) (locs : Locations) (index : Nat)
    (i : Instr ty exp loc cause) (c : Conv) : Option Conv :=
  match i with
  | .goto target => do
    let target ← locs target
    let h ← c.close (.unconditional target)
    let next ← locs (index + 1)
    some ⟨h.addParent target c.current, next, []⟩
  | .jump condition target => do
    let fallthrough ← locs (index + 1)
    let target ← locs target
    let condition ← em.convertExpression condition
    let h ← c.close (.conditional condition target fallthrough)
    some ⟨h.addParent target c.current, fallthrough, []⟩
  | .end_ => do
    let h ← c.close (.ret (some (.identifier "return")))
    let next ← locs (index + 1)
    some ⟨h, next, []⟩
  | .exit cause => do
    let h ← c.close (.panic (.literal (.string (em.debugCause cause))))
    let next ← locs (index + 1)
    some ⟨h, next, []⟩
  | i => do
    let ss ← em.convertInstruction i
    some { c with statements := c.statements ++ ss }

/-- The main loop, from index `index` on. -/
def convertLoop (em : Converters ty exp loc cause) (locs : Locations) :
    Nat → List (Instr ty exp loc cause) → Conv → Option Conv
  | _, [], c => some c
  | index, i :: is, c => do
    let c ← enterBlock locs index c
    let c ← convertStep em locs index i c
    convertLoop em locs (index + 1) is c

/-- `convert_body`: the entry block and the heap it lives in, `none` if the conversion panics. -/
def Converters.convertBody (em : Converters ty exp loc cause)
    (instrs : List (Instr ty exp loc cause)) : Option (BlockId × Heap) := do
  let (locs, h) := blockLocations instrs Heap.empty
  let (entry, h) := h.new
  let c ← convertLoop em locs 0 instrs ⟨h, entry, []⟩
  some (entry, c.heap)

end Icewind.Jib
