import Icewind.Lib.Machine
import Icewind.Boom.Ast
import Mathlib.Logic.Function.Basic

/-!
# BOOM control-flow graphs

Blocks live in a heap: a `ControlFlowBlock` of the source is a reference-counted cell, named here
by its id.  `parents` holds weak references, so a parent that is no longer live is skipped.

* `Heap.setTerminator` — `ControlFlowBlock::set_terminator`, `none` when `remove_parent` panics.
* `Heap.setTerminator_fresh` — on a block that has no targets yet it cannot panic, and it changes
  the statements and the terminator of no other block.
* `Heap.machine` — execution of a graph: a block's statements in order, then its terminator.
-/

namespace Icewind.Boom

open Function

abbrev BlockId := Nat

/-- How a block hands over control. -/
inductive Terminator where
  | ret (value : Option Value)
  | panic (value : Value)
  | conditional (condition : Value) (target fallthrough : BlockId)
  | unconditional (target : BlockId)

/-- `Terminator::default`. -/
def Terminator.default : Terminator := .panic (.literal (.string "default terminator"))

def Terminator.targets : Terminator → List BlockId
  | .ret _ => []
  | .panic _ => []
  | .conditional _ target fallthrough => [target, fallthrough]
  | .unconditional target => [target]

/-- `ControlFlowBlockInner`; the id is the block's key in the heap. -/
structure Block where
  label : Option String
  parents : List BlockId
  statements : List Statement
  terminator : Terminator

/-- `ControlFlowBlockInner::default`. -/
def Block.new : Block := ⟨none, [], [], .default⟩

/-- All blocks: the next unused id, which blocks are still referenced, and their contents. -/
structure Heap where
  next : BlockId
  live : BlockId → Bool
  block : BlockId → Block

def Heap.empty : Heap := ⟨0, fun _ => false, fun _ => Block.new⟩

namespace Heap

def modify (h : Heap) (b : BlockId) (f : Block → Block) : Heap :=
  { h with block := update h.block b (f (h.block b)) }

/-- `ControlFlowBlock::new`. -/
def new (h : Heap) : BlockId × Heap :=
  (h.next, ⟨h.next + 1, update h.live h.next true, update h.block h.next Block.new⟩)

/-- The last strong reference to a block goes away. -/
def drop (h : Heap) (b : BlockId) : Heap := { h with live := update h.live b false }

def setLabel (h : Heap) (b : BlockId) (l : Option String) : Heap := h.modify b ({ · with label := l })

def setStatements (h : Heap) (b : BlockId) (ss : List Statement) : Heap :=
  h.modify b ({ · with statements := ss })

/-- Dead weak pointers are dropped, then the new parent is inserted. -/
def addParent (h : Heap) (b parent : BlockId) : Heap :=
  h.modify b fun blk => { blk with parents := (blk.parents.filter h.live).insert parent }

/-- Panics (`none`) when the parent is not there. -/
def removeParent (h : Heap) (b parent : BlockId) : Option Heap :=
  if parent ∈ (h.block b).parents then
    some (h.modify b fun blk => { blk with parents := blk.parents.filter (· ≠ parent) })
  else none

/-- `dedup_by`: drops an element equal to the one before it. -/
def dedup : List BlockId → List BlockId
  | x :: y :: rest => if x = y then dedup (y :: rest) else x :: dedup (y :: rest)
  | l => l

/-- `ControlFlowBlock::set_terminator`. -/
def setTerminator (h : Heap) (b : BlockId) (t : Terminator) : Option Heap := do
  let h ← (dedup (h.block b).terminator.targets).foldlM (fun h child => h.removeParent child b) h
  let h := t.targets.foldl (fun h child => h.addParent child b) h
  some (h.modify b ({ · with terminator := t }))

/-! ## What the operations change -/

/-- The statements and the terminator of every block. -/
def code (h : Heap) (b : BlockId) : List Statement × Terminator :=
  ((h.block b).statements, (h.block b).terminator)

theorem modify_block (h : Heap) (b b' : BlockId) (f : Block → Block) :
    (h.modify b f).block b' = if b' = b then f (h.block b) else h.block b' := by
  simp [modify, update_apply]

@[simp] theorem addParent_code (h : Heap) (b parent : BlockId) : (h.addParent b parent).code = h.code := by
  funext b'
  simp only [code, addParent, modify_block]
  split
  · rename_i e; subst e; rfl
  · rfl

theorem new_code (h : Heap) : h.new.2.code = update h.code h.next ([], .default) := by
  funext b
  simp only [code, new, update_apply]
  split <;> rfl

theorem setLabel_code (h : Heap) (b : BlockId) (l : Option String) : (h.setLabel b l).code = h.code := by
  funext b'
  simp only [code, setLabel, modify_block]
  split
  · rename_i e; subst e; rfl
  · rfl

@[simp] theorem drop_code (h : Heap) (b : BlockId) : (h.drop b).code = h.code := rfl

theorem foldl_addParent_code (b : BlockId) :
    ∀ (ts : List BlockId) (h : Heap), (ts.foldl (fun h child => h.addParent child b) h).code = h.code
  | [], _ => rfl
  | t :: ts, h => by
    rw [List.foldl_cons, foldl_addParent_code b ts, addParent_code]

theorem foldl_addParent_next (b : BlockId) :
    ∀ (ts : List BlockId) (h : Heap), (ts.foldl (fun h child => h.addParent child b) h).next = h.next
  | [], _ => rfl
  | t :: ts, h => by
    rw [List.foldl_cons, foldl_addParent_next b ts]
    rfl

theorem setStatements_code (h : Heap) (b : BlockId) (ss : List Statement) :
    (h.setStatements b ss).code = update h.code b (ss, (h.code b).2) := by
  funext b'
  simp only [code, setStatements, modify_block, update_apply]
  split <;> rfl

/-- **A block without targets gets its first terminator**: no panic, and only that block's code
changes. -/
theorem setTerminator_fresh {h : Heap} {b : BlockId} (hf : (h.code b).2.targets = []) (t : Terminator) :
    ∃ h', h.setTerminator b t = some h' ∧ h'.next = h.next ∧ h'.code = update h.code b ((h.code b).1, t) := by
  have hf' : (h.block b).terminator.targets = [] := hf
  refine ⟨(t.targets.foldl (fun h child => h.addParent child b) h).modify b ({ · with terminator := t }),
    by simp only [setTerminator, hf', dedup, List.foldlM_nil]; rfl, ?_, ?_⟩
  · exact foldl_addParent_next b t.targets h
  · have hc := foldl_addParent_code b t.targets h
    funext b'
    have hb := congrFun hc b
    have hb' := congrFun hc b'
    simp only [code, modify_block, update_apply]
    split
    · rw [(Prod.mk.inj hb).1]
    · exact hb'

/-! ## Execution -/

/-- What a run observes: statements, and the outcome of each condition. -/
inductive Event where
  | exec (statement : Statement)
  | branch (condition : Value) (taken : Bool)

/-- How a run stops. -/
inductive Result where
  | ret (value : Option Value)
  | panic (value : Value)

/-- A position in a block: the statements still to execute before the terminator. -/
structure Pos where
  block : BlockId
  rest : List Statement

/-- The start of a block. -/
def start (h : Heap) (b : BlockId) : Pos := ⟨b, (h.block b).statements⟩

/-- One move of a graph walk. -/
inductive Step (h : Heap) : Pos → Option Event → Pos → Prop where
  | exec {b : BlockId} {s : Statement} {rest : List Statement} :
      Step h ⟨b, s :: rest⟩ (some (.exec s)) ⟨b, rest⟩
  | jump {b t : BlockId} : (h.block b).terminator = .unconditional t → Step h ⟨b, []⟩ none (h.start t)
  | branch {b t f : BlockId} {c : Value} (taken : Bool) : (h.block b).terminator = .conditional c t f →
      Step h ⟨b, []⟩ (some (.branch c taken)) (h.start (if taken then t else f))

/-- Where a graph walk stops. -/
inductive Final (h : Heap) : Pos → Result → Prop where
  | ret {b : BlockId} {v : Option Value} : (h.block b).terminator = .ret v → Final h ⟨b, []⟩ (.ret v)
  | panic {b : BlockId} {v : Value} : (h.block b).terminator = .panic v → Final h ⟨b, []⟩ (.panic v)

/-- Execution of a control-flow graph, for every outcome of its conditions. -/
def machine (h : Heap) : Machine Pos Event Result := ⟨Step h, Final h⟩

end Heap

end Icewind.Boom
