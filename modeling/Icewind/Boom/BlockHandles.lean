import Icewind.Boom.FoldUnconditionals

/-!
# Blocks and the handles on them

A `ControlFlowBlock` is a strong handle.  A block is freed with its last handle and the last terminator that refers to
it, and freeing it frees what only its own terminator referred to.

* `Session` — the heap, and the handles that the program holds.
* `Session.Permits` — the calls it can make: it must hold the blocks that it passes.
* `Session.call` — a call, and the blocks that it frees; `none` is a panic.
* `Session.parents_exact` — after any calls, no call panics and the parents of a block are the blocks that have it as
  a target.
-/

namespace Icewind.Boom

open List

/-- The heap, and one entry for each handle that is held. -/
structure Session where
  heap : Heap
  held : List BlockId

inductive BlockCall where
  | new
  /-- One more handle on a block. -/
  | handle (b : BlockId)
  | setTerminator (b : BlockId) (t : Terminator)
  /-- A handle goes away. -/
  | drop (b : BlockId)

namespace Session

def empty : Session := ⟨.empty, []⟩

/-- A handle is the clone of another, a target of a block that is held, or a parent of one. -/
def Permits (s : Session) : BlockCall → Prop
  | .new => True
  | .handle b => b ∈ s.held ∨ ∃ a ∈ s.held, b ∈ s.heap.targets a ∨ b ∈ s.heap.parentsOf a
  | .setTerminator b t => b ∈ s.held ∧ ∀ x ∈ t.targets, x ∈ s.held
  | .drop b => b ∈ s.held

/-- Frees the blocks that are no longer referred to. -/
def collect (s : Session) : Session := { s with heap := { s.heap with live := s.heap.refCount s.held } }

def call (s : Session) : BlockCall → Option Session
  | .new => some ⟨s.heap.new.2, s.heap.new.1 :: s.held⟩
  | .handle b => some { s with held := b :: s.held }
  | .setTerminator b t => do
    let heap ← s.heap.setTerminator b t
    some (collect { s with heap := heap })
  | .drop b => some (collect { s with held := s.held.erase b })

/-- The sessions that calls lead to. -/
inductive Reached : Session → Prop
  | empty : Reached .empty
  | call {s s' : Session} {c : BlockCall} (hs : Reached s) (hc : s.Permits c) (h : s.call c = some s') : Reached s'

/-- What is held is allocated. -/
structure Inv (s : Session) : Prop where
  linked : s.heap.Linked
  held_live : ∀ b ∈ s.held, s.heap.live b

theorem Inv.empty : Inv .empty := ⟨Heap.Made.empty.linked, fun _ hb => absurd hb not_mem_nil⟩

variable {s : Session}

theorem Inv.collect (hi : s.Inv) : s.collect.Inv := by
  have hkeeps := s.heap.refCount_keeps s.held
  exact ⟨hi.linked.collect hkeeps.was_live (hkeeps.closed hi.linked), hkeeps.root hi.held_live⟩

theorem Inv.handle_live (hi : s.Inv) {b : BlockId} (hb : s.Permits (.handle b)) : s.heap.live b := by
  rcases hb with hb | ⟨a, ha, hb | hb⟩
  · exact hi.held_live b hb
  · exact hi.linked.targets_live a (hi.held_live a ha) b hb
  · exact (Heap.mem_parentsOf.mp hb).2

theorem new_live {h : Heap} (b : BlockId) : h.new.2.live b = (decide (b = h.next) || h.live b) := by
  simp only [Heap.new, Function.update_apply]
  split <;> simp [*]

/-- **A call that can be made does not panic**, and keeps the invariant. -/
theorem call_spec (hi : s.Inv) {c : BlockCall} (hc : s.Permits c) : ∃ s', s.call c = some s' ∧ s'.Inv := by
  cases c with
  | new =>
    refine ⟨_, rfl, Heap.new_linked hi.linked, fun b hb => ?_⟩
    rw [new_live]
    rcases mem_cons.mp hb with heq | hb
    · exact Bool.or_eq_true_iff.mpr (.inl (decide_eq_true heq))
    · exact Bool.or_eq_true_iff.mpr (.inr (hi.held_live b hb))
  | handle b =>
    refine ⟨_, rfl, hi.linked, fun x hx => ?_⟩
    rcases mem_cons.mp hx with rfl | hx
    · exact hi.handle_live hc
    · exact hi.held_live x hx
  | setTerminator b t =>
    obtain ⟨hb, ht⟩ := hc
    obtain ⟨heap, hset, hlinked, -, hlive, -⟩ :=
      Heap.setTerminator_linked hi.linked (hi.held_live b hb) fun x hx => hi.held_live x (ht x hx)
    have hinv : Inv { s with heap := heap } := ⟨hlinked, fun x hx => hlive ▸ hi.held_live x hx⟩
    refine ⟨_, ?_, hinv.collect⟩
    simp only [call, hset]
    rfl
  | drop b =>
    have hinv : Inv { s with held := s.held.erase b } :=
      ⟨hi.linked, fun x hx => hi.held_live x (mem_of_mem_erase hx)⟩
    exact ⟨_, rfl, hinv.collect⟩

theorem Reached.inv (hs : Reached s) : s.Inv := by
  induction hs with
  | empty => exact .empty
  | call _ hc h ih =>
    obtain ⟨s', hcall, hinv⟩ := call_spec ih hc
    rw [h] at hcall
    cases hcall
    exact hinv

/-- **Parents are exact.**  Whatever calls were made, none that can be made next panics, and the parents of a block that
is allocated are, each once, the allocated blocks whose terminator has it as a target. -/
theorem parents_exact {s : Session} (hs : Reached s) : (∀ c, s.Permits c → s.call c ≠ none) ∧ ∀ b, s.heap.live b →
        (s.heap.parentsOf b).Nodup ∧ ∀ p, p ∈ s.heap.parentsOf b ↔ s.heap.live p ∧ b ∈ s.heap.targets p := by
  have hi := hs.inv
  refine ⟨fun c hc => ?_, fun b hb => ⟨(hi.linked.nodup b).filter _, fun p => ⟨fun hp => ?_, fun ⟨hp, hmem⟩ => ?_⟩⟩⟩
  · obtain ⟨s', hcall, -⟩ := call_spec hi hc
    rw [hcall]
    exact Option.some_ne_none s'
  · have hlive := (Heap.mem_parentsOf.mp hp).2
    exact ⟨hlive, (hi.linked.mem_parentsOf_iff hb hlive).mp hp⟩
  · exact (hi.linked.mem_parentsOf_iff hb hp).mpr hmem

/-- One block that jumps to itself on both outcomes of a condition, with its handle dropped.  It stays allocated. -/
def selfLoop : List BlockCall :=
  [.new, .setTerminator 0 (.conditional (.literal .unit) 0 0), .drop 0]

theorem parents_exact_selfLoop :
    ∃ s, Reached s ∧ selfLoop.foldlM call Session.empty = some s ∧ s.heap.live 0 ∧ s.heap.parentsOf 0 = [0] ∧
      ((∀ c, s.Permits c → s.call c ≠ none) ∧ ∀ b, s.heap.live b →
          (s.heap.parentsOf b).Nodup ∧ ∀ p, p ∈ s.heap.parentsOf b ↔ s.heap.live p ∧ b ∈ s.heap.targets p) := by
  have h1 := Reached.empty.call (c := .new) trivial rfl
  have h2 := h1.call (c := .setTerminator 0 (.conditional (.literal .unit) 0 0)) ⟨mem_cons_self, fun x hx => by
      rcases mem_cons.mp hx with rfl | hx
      · exact mem_cons_self
      · rcases mem_cons.mp hx with rfl | hx
        · exact mem_cons_self
        · cases hx⟩ rfl
  have h3 := h2.call (c := .drop 0) mem_cons_self rfl
  exact ⟨_, h3, rfl, rfl, rfl, parents_exact h3⟩

end Session

end Icewind.Boom
