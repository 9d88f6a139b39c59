import Icewind.Boom.ControlFlow

/-!
# Control-flow graphs of legacy JIB functions

Model of `ControlFlowGraphBuilder` (`borealis/src/jib_legacy/control_flow.rs`): a structured
statement list becomes a graph of blocks in two passes.

* `processStatements` — cuts the list into blocks whose jump targets may still be labels.
* `resolveBlock` — copies the blocks reachable from the entry, replacing labels by blocks.
* `structured` — execution of the statement list itself: the rest of the list is the continuation.
-/

namespace Icewind.JibLegacy

open Icewind.Boom Function

/-! ## Unresolved blocks -/

/-- `MaybeUnresolvedJumpTarget`; a block is named by its id. -/
inductive JumpTarget where
  | resolved (target : Nat)
  | unresolved (label : String)

/-- `MaybeUnresolvedTerminator`. -/
inductive PendingTerminator where
  | ret (name : String)
  | conditional (condition : Value) (target fallthrough : JumpTarget)
  | unconditional (target : JumpTarget)
  | undefined
  | unknown
  | panic (value : Value)

/-- `MaybeUnresolvedControlFlowBlock`. -/
structure PendingBlock where
  label : Option String
  statements : List Statement
  terminator : PendingTerminator

def PendingBlock.new : PendingBlock := ⟨none, [], .unknown⟩

def PendingBlock.hasTerminator (b : PendingBlock) : Bool :=
  match b.terminator with
  | .unknown => false
  | _ => true

/-- The builder while it processes statements; block ids from `next` on are unused. -/
structure Builder where
  next : Nat
  block : Nat → PendingBlock
  labels : String → Option Nat
  current : Nat

namespace Builder

/-- `MaybeUnresolvedControlFlowBlock::new`. -/
def newBlock (B : Builder) : Nat × Builder :=
  (B.next, { B with next := B.next + 1, block := update B.block B.next PendingBlock.new })

def modifyCurrent (B : Builder) (f : PendingBlock → PendingBlock) : Builder :=
  { B with block := update B.block B.current (f (B.block B.current)) }

/-- Panics (`none`) on a block that has a terminator. -/
def setTerminator (B : Builder) (t : PendingTerminator) : Option Builder :=
  if (B.block B.current).hasTerminator then none
  else some (B.modifyCurrent ({ · with terminator := t }))

/-- Panics (`none`) on a block that has a terminator. -/
def addStatement (B : Builder) (s : Statement) : Option Builder :=
  if (B.block B.current).hasTerminator then none
  else some (B.modifyCurrent fun b => { b with statements := b.statements ++ [s] })

/-- End the current block and go on in a new, detached one. -/
def endBlock (B : Builder) (t : PendingTerminator) : Option Builder := do
  let B ← B.setTerminator t
  let (next, B) := B.newBlock
  some { B with current := next }

end Builder

mutual

/-- One statement of `process_statements`. -/
def processStatement : Statement → Builder → Option Builder
  | .label l, B => do
    let (next, B) := B.newBlock
    let B := { B with
      labels := update B.labels l (some next)
      block := update B.block next { B.block next with label := some l } }
    let B ← B.setTerminator (.unconditional (.resolved next))
    some { B with current := next }
  | .if_ condition ifBody elseBody, B => do
    let (ifBlock, B) := B.newBlock
    let (elseBlock, B) := B.newBlock
    let (postBlock, B) := B.newBlock
    let B ← B.setTerminator (.conditional condition (.resolved ifBlock) (.resolved elseBlock))
    let B ← processStatements ifBody { B with current := ifBlock }
    let B ← B.setTerminator (.unconditional (.resolved postBlock))
    let B ← processStatements elseBody { B with current := elseBlock }
    let B ← B.setTerminator (.unconditional (.resolved postBlock))
    some { B with current := postBlock }
  | .jump condition target, B => do
    let (fallthrough, B) := B.newBlock
    let B ← B.setTerminator (.conditional condition (.unresolved target) (.resolved fallthrough))
    some { B with current := fallthrough }
  | .goto l, B => B.endBlock (.unconditional (.unresolved l))
  | .end_ name, B => B.endBlock (.ret name)
  | .undefined, B => B.endBlock .undefined
  | .panic value, B => B.endBlock (.panic value)
  | s, B => B.addStatement s

/-- `process_statements`. -/
def processStatements : List Statement → Builder → Option Builder
  | [], B => some B
  | s :: ss, B => do
    let B ← processStatement s B
    processStatements ss B

end

/-! ## Resolution -/

/-- `resolved_blocks`, and the heap of resolved blocks. -/
structure Resolver where
  resolved : Nat → Option BlockId
  heap : Heap

/-- The block a jump target names, `none` if the label has no entry. -/
def Builder.target (B : Builder) : JumpTarget → Option Nat
  | .resolved target => some target
  | .unresolved label => B.labels label

/-- `resolve_block` first makes the new block and enters it in the map, so that jumps back to it
find it while its targets are being resolved. -/
def beginBlock (B : Builder) (unresolved : Nat) (st : Resolver) : Resolver :=
  let (block, h) := st.heap.new
  let h := h.setLabel block (B.block unresolved).label
  let h := h.setStatements block (B.block unresolved).statements
  ⟨update st.resolved unresolved (some block), h⟩

/-- The terminator of a resolved block; `resolve` is the recursive call. -/
def resolveTerminator (B : Builder) (resolve : Nat → Resolver → Option (BlockId × Resolver))
    (st : Resolver) : PendingTerminator → Option (Terminator × Resolver)
  | .ret name => some (.ret (some (.identifier name)), st)
  | .undefined => some (.panic (.literal (.string "undefined terminator")), st)
  | .panic value => some (.panic value, st)
  | .conditional condition target fallthrough => do
    let target ← B.target target
    let (target, st) ← resolve target st
    let fallthrough ← B.target fallthrough
    let (fallthrough, st) ← resolve fallthrough st
    some (.conditional condition target fallthrough, st)
  | .unconditional target => do
    let target ← B.target target
    let (target, st) ← resolve target st
    some (.unconditional target, st)
  | .unknown => none

/-- `resolve_block`; `none` is a panic, or too little fuel for the recursion. -/
def resolveBlock (B : Builder) : Nat → Nat → Resolver → Option (BlockId × Resolver)
  | 0, _, _ => none
  | fuel + 1, unresolved, st =>
    match st.resolved unresolved with
    -- already resolved
    | some block => some (block, st)
    | none => do
      let block := st.heap.next
      let st := beginBlock B unresolved st
      let (terminator, st) ← resolveTerminator B (resolveBlock B fuel) st (B.block unresolved).terminator
      let h ← st.heap.setTerminator block terminator
      some (block, { st with heap := h })

/-- `ControlFlowGraphBuilder::from_statements`: the entry block and its heap.  The recursion
resolves a new block at each level, so it is no deeper than the number of blocks. -/
def fromStatements (statements : List Statement) : Option (BlockId × Heap) := do
  let B ← processStatements statements ⟨1, fun _ => .new, fun _ => none, 0⟩
  let (entry, st) ← resolveBlock B (B.next + 1) 0 ⟨fun _ => none, Heap.empty⟩
  some (entry, st.heap)

/-! ## Execution of the structured list -/

/-- Statements the builder copies into a block. -/
def Plain : Statement → Prop
  | .label _ | .if_ .. | .jump .. | .goto _ | .end_ _ | .undefined | .panic _ => False
  | _ => True

mutual

/-- What is executed after a label of the statement, `k` being executed after the statement. -/
def afterIn (l : String) (k : List Statement) : Statement → Option (List Statement)
  | .label l' => if l' = l then some k else none
  | .if_ _ ifBody elseBody => (afterLabel l k ifBody).or (afterLabel l k elseBody)
  | _ => none

/-- What is executed after a label of the list, `k` being executed after the list. -/
def afterLabel (l : String) (k : List Statement) : List Statement → Option (List Statement)
  | [] => none
  | s :: ss => (afterIn l (ss ++ k) s).or (afterLabel l k ss)

end

/-- One move of the structured execution.  A configuration is what remains to be executed. -/
inductive Step (program : List Statement) :
    List Statement → Option Heap.Event → List Statement → Prop where
  | plain {s : Statement} {k : List Statement} : Plain s → Step program (s :: k) (some (.exec s)) k
  | label {l : String} {k : List Statement} : Step program (.label l :: k) none k
  | if_ {c : Value} {ifBody elseBody k : List Statement} (taken : Bool) :
      Step program (.if_ c ifBody elseBody :: k) (some (.branch c taken))
        ((if taken then ifBody else elseBody) ++ k)
  | jump {c : Value} {l : String} {k k' : List Statement} :
      afterLabel l [] program = some k' → Step program (.jump c l :: k) (some (.branch c true)) k'
  | skip {c : Value} {l : String} {k : List Statement} :
      Step program (.jump c l :: k) (some (.branch c false)) k
  | goto {l : String} {k k' : List Statement} :
      afterLabel l [] program = some k' → Step program (.goto l :: k) none k'

/-- Where the structured execution stops; `Undefined` is a panic with a fixed message. -/
inductive Final : List Statement → Heap.Result → Prop where
  | end_ {name : String} {k : List Statement} : Final (.end_ name :: k) (.ret (some (.identifier name)))
  | undefined {k : List Statement} :
      Final (.undefined :: k) (.panic (.literal (.string "undefined terminator")))
  | panic {v : Value} {k : List Statement} : Final (.panic v :: k) (.panic v)

def structured (program : List Statement) : Machine (List Statement) Heap.Event Heap.Result :=
  ⟨Step program, Final⟩

end Icewind.JibLegacy
