import Icewind.Lib.Machine
import Icewind.X86.Encoder

/-!
# Layout of a translation

Model of the layout part of `X86TranslationContext::compile` (`brig/dbt/src/x86/mod.rs`), register
allocation left aside: order the blocks depth first, thread jumps through empty blocks, concatenate,
delete jumps to the next instruction, and put labels on the first instruction that is left.

* `emptyBlockJumpThreading`, `linkBlocks` — the work queue.
* `layout` — the instruction list and the label of every jump target; `none` where the code panics.
* `walk` — execution of the block graph; `flat` — execution of the laid-out list.
-/

namespace Icewind.X86

structure X86Block where
  instructions : List Opcode
  next : List BlockRef
  linked : Bool

/-- The blocks of a translation; ids below the arena's size are in use. -/
abbrev Arena := BlockRef → X86Block

namespace Arena

def modify (a : Arena) (b : BlockRef) (f : X86Block → X86Block) : Arena :=
  Function.update a b (f (a b))

/-- `*instructions.last_mut().unwrap() = i`. -/
def replaceLast (is : List Opcode) (i : Opcode) : Option (List Opcode) :=
  if is = [] then none else some (is.dropLast ++ [i])

end Arena

/-- `empty_block_jump_threading`.  `none` is a panic, or too little fuel for the recursion. -/
def emptyBlockJumpThreading : Nat → Arena → BlockRef → Option Arena
  | 0, _, _ => none
  | fuel + 1, arena, current =>
    match (arena current).next with
    | [child] =>
      match (arena child).instructions with
      | [.jmp op] => do
        let is ← Arena.replaceLast (arena current).instructions (.jmp op)
        match op.kind with
        | .target grandchild =>
          emptyBlockJumpThreading fuel
            (arena.modify current fun b => { b with instructions := is, next := [grandchild] }) current
        | _ => none
      | _ => some arena
    | _ => some arena

/-- The work queue: the last block of the queue is taken first. -/
def linkBlocks (size : Nat) : Nat → Arena → List BlockRef → List BlockRef → Option (Arena × List BlockRef)
  | _, arena, [], allBlocks => some (arena, allBlocks)
  | 0, _, _ :: _, _ => none
  | fuel + 1, arena, block :: queue, allBlocks =>
    if (arena block).linked then linkBlocks size fuel arena queue allBlocks
    else do
      let arena := arena.modify block ({ · with linked := true })
      let arena ← emptyBlockJumpThreading (size + 1) arena block
      linkBlocks size fuel arena ((arena block).next.reverse ++ queue) (allBlocks ++ [block])

/-- `block_to_instruction_index`: where the instructions of a block begin. -/
def blockToInstructionIndex (arena : Arena) : List BlockRef → Nat → BlockRef → Option Nat
  | [], _, _ => none
  | b :: bs, index, target =>
    if b = target then some index
    else blockToInstructionIndex arena bs (index + (arena b).instructions.length) target

/-- Deletes a jump to the next instruction. -/
def killFallthrough (position : BlockRef → Option Nat) (index : Nat) : Opcode → Option Opcode
  | .jmp op =>
    match op.kind with
    | .target t => do
      let p ← position t
      some (if p = index + 1 then .dead else .jmp op)
    | _ => some (.jmp op)
  | i => some i

def killFallthroughs (position : BlockRef → Option Nat) : Nat → List Opcode → Option (List Opcode)
  | _, [] => some []
  | index, i :: is => do
    let i ← killFallthrough position index i
    let is ← killFallthroughs position (index + 1) is
    some (i :: is)

/-- The first instruction at or after `index` that is not dead. -/
def nextValid (is : List Opcode) (index : Nat) : Option Nat :=
  ((is.drop index).findIdx? (· ≠ .dead)).map (index + ·)

/-- The block a direct jump goes to. -/
def Opcode.jumpTarget : Opcode → Option BlockRef
  | .je op | .jne op | .jmp op =>
    match op.kind with
    | .target t => some t
    | _ => none
  | _ => none

/-- The labels: for every jump target, the instruction its label is set on. -/
def blockLabels (position : BlockRef → Option Nat) (is : List Opcode) :
    List Opcode → (BlockRef → Option Nat) → Option (BlockRef → Option Nat)
  | [], labels => some labels
  | i :: rest, labels =>
    match i.jumpTarget with
    | none => blockLabels position is rest labels
    | some t => do
      let p ← position t
      let p ← nextValid is p
      blockLabels position is rest (Function.update labels t (some p))

/-- The laid-out code. -/
structure Code where
  instructions : List Opcode
  labels : BlockRef → Option Nat

/-- `compile` without register allocation and encoding. -/
def layout (arena : Arena) (size : Nat) (initial panic : BlockRef) : Option Code := do
  let (arena, allBlocks) ← linkBlocks size (2 * size + 3) arena [initial, panic] []
  let position := blockToInstructionIndex arena allBlocks 0
  let is ← killFallthroughs position 0 (allBlocks.flatMap fun b => (arena b).instructions)
  let labels ← blockLabels position is is (fun _ => none)
  some ⟨is, labels⟩

/-! ## Execution -/

/-- What a run performs: instructions that are no jumps, and outcomes of conditional jumps. -/
inductive JumpEvent where
  | exec (i : Opcode)
  | branch (taken : Bool)

/-- The instructions that end a run: return, interrupt, and a jump out of the code. -/
def Opcode.leaves : Opcode → Bool
  | .ret => true
  | .int _ => true
  | .jmp op => match op.kind with | .target _ => false | _ => true
  | _ => false

/-- Instructions that are passed. -/
def Opcode.passes : Opcode → Bool
  | .jmp _ | .je _ | .jne _ | .ret | .int _ => false
  | _ => true

/-- What passing an instruction performs.  The empty slots that `emit_call` leaves around a call are passed
silently. -/
def Opcode.event (i : Opcode) : Option JumpEvent := if i = .dead then none else some (.exec i)

/-- Walking the block graph; a configuration is what is left of the current block. -/
inductive WalkStep (arena : Arena) : List Opcode → Option JumpEvent → List Opcode → Prop where
  | exec {i : Opcode} {rest : List Opcode} : i.passes = true → WalkStep arena (i :: rest) i.event rest
  | jmp {t : BlockRef} {rest : List Opcode} :
      WalkStep arena (.jmp (.target t) :: rest) none (arena t).instructions
  | taken {t : BlockRef} {rest : List Opcode} :
      WalkStep arena (.jne (.target t) :: rest) (some (.branch true)) (arena t).instructions
  | passed {t : BlockRef} {rest : List Opcode} :
      WalkStep arena (.jne (.target t) :: rest) (some (.branch false)) rest

inductive WalkFinal : List Opcode → Opcode → Prop where
  | leaves {i : Opcode} {rest : List Opcode} : i.leaves = true → WalkFinal (i :: rest) i

def walk (arena : Arena) : Machine (List Opcode) JumpEvent Opcode := ⟨WalkStep arena, WalkFinal⟩

/-- Running the laid-out code; a configuration is an instruction index. -/
inductive FlatStep (c : Code) : Nat → Option JumpEvent → Nat → Prop where
  | exec {p : Nat} {i : Opcode} : c.instructions[p]? = some i → i.passes = true →
      FlatStep c p i.event (p + 1)
  | jmp {p l : Nat} {t : BlockRef} : c.instructions[p]? = some (.jmp (.target t)) →
      c.labels t = some l → FlatStep c p none l
  | taken {p l : Nat} {t : BlockRef} : c.instructions[p]? = some (.jne (.target t)) →
      c.labels t = some l → FlatStep c p (some (.branch true)) l
  | passed {p l : Nat} {t : BlockRef} : c.instructions[p]? = some (.jne (.target t)) →
      c.labels t = some l → FlatStep c p (some (.branch false)) (p + 1)

inductive FlatFinal (c : Code) : Nat → Opcode → Prop where
  | leaves {p : Nat} {i : Opcode} : c.instructions[p]? = some i → i.leaves = true → FlatFinal c p i

def flat (c : Code) : Machine Nat JumpEvent Opcode := ⟨FlatStep c, FlatFinal c⟩

end Icewind.X86
