import Icewind.Boom.ControlFlow
import Icewind.Rudder.Ast

/-!
# The block iterators

Rudder's `BlockIterator` and BOOM's `ControlFlowBlockIterator` are one depth-first search.

* `blockIterators_spec` — each ends, after the blocks that can be reached, dominators first.
-/

namespace Icewind

open Traversal

/-- `BlockIterator::next`. -/
def Rudder.BlockIterator.next (f : Rudder.Function) :=
  Traversal.next fun b => (f.block b).targets

/-- `ControlFlowBlockIterator::next`. -/
def Boom.ControlFlowBlockIterator.next (h : Boom.Heap) :=
  Traversal.next fun b => (h.block b).terminator.targets

/-- **Both iterators end and list the blocks that can be reached**, cycles or not. -/
theorem blockIterators_spec :
    (∀ (f : Rudder.Function) (start : Rudder.BlockRef), start < f.blockCount →
      (∀ b < f.blockCount, ∀ t ∈ (f.block b).targets, t < f.blockCount) →
      ∃ bs, Yields (Rudder.BlockIterator.next f) [] [start] bs ∧ Lists (fun b => (f.block b).targets) start bs) ∧
    ∀ (h : Boom.Heap) (start : Boom.BlockId), start < h.next →
      (∀ b < h.next, ∀ t ∈ (h.block b).terminator.targets, t < h.next) →
      ∃ bs, Yields (Boom.ControlFlowBlockIterator.next h) [] [start] bs ∧
        Lists (fun b => (h.block b).terminator.targets) start bs :=
  ⟨fun _ _ hstart hvalid => exists_yields hstart hvalid, fun _ _ hstart hvalid => exists_yields hstart hvalid⟩

/-- A loop: block 1 goes on to 3 or to 2, which goes back. -/
def Rudder.loopFunction : Rudder.Function :=
  ⟨[], [], 4, fun b => ⟨1, fun _ => [.jump 1, .branch 0 2 3, .jump 1].getD b (.return_ none), [0]⟩, 0⟩

def Boom.loopHeap : Boom.Heap where
  next := 4
  live _ := true
  block b := { Block.new with
    terminator := [.unconditional 1, .conditional (.literal (.bool true)) 2 3, .unconditional 1].getD b (.ret none) }

theorem blockIterators_spec_loop :
    (∃ bs, Yields (Rudder.BlockIterator.next Rudder.loopFunction) [] [0] bs ∧
      Lists (fun b => (Rudder.loopFunction.block b).targets) 0 bs) ∧
    ∃ bs, Yields (Boom.ControlFlowBlockIterator.next Boom.loopHeap) [] [0] bs ∧
      Lists (fun b => (Boom.loopHeap.block b).terminator.targets) 0 bs :=
  ⟨blockIterators_spec.1 _ 0 (by decide) (by decide), blockIterators_spec.2 _ 0 (by decide) (by decide)⟩

end Icewind
