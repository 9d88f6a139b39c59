import Icewind.X86.Layout
import Mathlib.Data.Finset.Card
import Mathlib.Tactic.Tauto

/-!
# The laid-out code executes like the block graph

* `Emitted` — block graphs of the shapes the emitter makes.
* `emptyBlockJumpThreading_spec`, `linkBlocks_spec` — ordering and threading terminate, and threading
  only redirects a final jump along a chain of empty blocks.
* `threaded_bisimilar` — the threaded graph executes like the original one.
* `flat_bisimilar` — the concatenated code, with its deleted jumps and moved labels, executes like
  the threaded graph.
* `layout_executions` — both together.
-/

namespace Icewind.X86

open Relation List Option Opcode

/-! ## Graphs the emitter makes -/

/-- Instructions before the end of a block: no jumps, apart from those to the panic block.  Empty slots are among
them. -/
def Body (panic : BlockRef) (is : List Opcode) : Prop :=
  ∀ i ∈ is, i.passes = true ∨ i = .jne (.target panic)

/-- The shapes of emitted blocks: instructions and next blocks. -/
inductive Shape (arena : Arena) (panic : BlockRef) : List Opcode → List BlockRef → Prop where
  | jump {body : List Opcode} {t : BlockRef} : Body panic body → Shape arena panic (body ++ [.jmp (.target t)]) [t]
  | branch {body : List Opcode} {t f : BlockRef} : Body panic body →
      Shape arena panic (body ++ [.jne (.target t), .jmp (.target f)]) [t, f]
  | ret {body : List Opcode} : Body panic body → Shape arena panic (body ++ [.ret]) []
  | int {body : List Opcode} {n : Operand} : Body panic body → Shape arena panic (body ++ [.int n]) []
  | indirect {body : List Opcode} {r : BlockRef} {op : Operand} :
      (∀ i ∈ body, i.passes = true ∨ i = .jne (.target panic) ∨ i = .jne (.target r)) →
      .jne (.target r) ∈ body → (arena r).instructions = [.ret] → (jmp op).leaves = true →
      Shape arena panic (body ++ [.jmp op]) [r]

/-- The block holds a single jump. -/
def Single (arena : Arena) (b t : BlockRef) : Prop := (arena b).instructions = [.jmp (.target t)]

/-- A chain of blocks that hold a single jump. -/
abbrev Chain (arena : Arena) : BlockRef → BlockRef → Prop := ReflTransGen (Single arena)

/-- A graph of emitted blocks. -/
structure Emitted (arena : Arena) (size : Nat) (initial panic : BlockRef) : Prop where
  initial_lt : initial < size
  panic_lt : panic < size
  shape : ∀ b, b < size → Shape arena panic (arena b).instructions (arena b).next
  next_lt : ∀ b, b < size → ∀ t ∈ (arena b).next, t < size
  unlinked : ∀ b, (arena b).linked = false
  acyclic : ∀ b, ¬ TransGen (Single arena) b b

/-! ## Threading -/

/-- What threading may have done to a block. -/
inductive Rethread (arena : Arena) (is : List Opcode) (next : List BlockRef) :
    List Opcode → List BlockRef → Prop where
  | same : Rethread arena is next is next
  | moved {body : List Opcode} {t t' : BlockRef} : is = body ++ [.jmp (.target t)] → next = [t] →
      Chain arena t t' → Rethread arena is next (body ++ [.jmp (.target t')]) [t']

/-- The arena while blocks are linked, compared with the original one. -/
def Threaded (arena₀ arena : Arena) : Prop :=
  ∀ b, Rethread arena₀ (arena₀ b).instructions (arena₀ b).next (arena b).instructions (arena b).next

open Classical in
/-- How many blocks a chain from a block can pass. -/
noncomputable def chainRank (arena : Arena) (size : Nat) (b : BlockRef) : Nat :=
  ((Finset.range size).filter fun x => TransGen (Single arena) b x).card

theorem chainRank_le (arena : Arena) (size : Nat) (b : BlockRef) : chainRank arena size b ≤ size := by
  classical
  refine Nat.le_trans (Finset.card_filter_le _ _) ?_
  simp

variable {t : BlockRef}

section Emitted

variable {arena₀ arena : Arena} {size : Nat} {initial panic : BlockRef} {b : BlockRef}

section

variable (hE : Emitted arena₀ size initial panic)

include hE

theorem chainRank_lt (ht : t < size) (h : TransGen (Single arena₀) b t) :
    chainRank arena₀ size t < chainRank arena₀ size b := by
  classical
  refine Finset.card_lt_card (Finset.ssubset_iff_of_subset ?_ |>.mpr ⟨t, ?_, ?_⟩)
  · intro x hx
    simp only [Finset.mem_filter] at hx ⊢
    exact ⟨hx.1, h.trans hx.2⟩
  · simp [ht, h]
  · simp [hE.acyclic t]

variable {op : Operand}

theorem Emitted.single_next (hb : b < size) (h : (arena₀ b).instructions = [.jmp op]) :
    ∃ t, op = .target t ∧ (arena₀ b).next = [t] := by
  have hs := hE.shape b hb
  rw [h] at hs
  generalize hn : (arena₀ b).next = next at hs
  generalize hi : [jmp op] = is at hs
  cases hs with
  | @jump body t _ =>
    cases body with
    | nil => cases hi; exact ⟨t, rfl, rfl⟩
    | cons _ _ => simp at hi
  | @branch body t f _ => cases body <;> simp at hi
  | @ret body _ => cases body <;> simp [jmp, ret] at hi
  | @int body n _ => cases body <;> simp [jmp, int] at hi
  | @indirect body r op' _ hmem _ _ =>
    cases body with
    | nil => simp at hmem
    | cons _ _ => simp at hi

theorem chain_lt (hb : b < size) (h : Chain arena₀ b t) : t < size := by
  induction h with
  | refl => exact hb
  | tail _ hs ih =>
    obtain ⟨t', ht, hn⟩ := hE.single_next ih hs
    cases ht
    exact hE.next_lt _ ih _ (by simp [hn])

section

variable (hT : Threaded arena₀ arena) (hb : b < size)

include hT hb

theorem Threaded.single (h : (arena b).instructions = [.jmp op]) :
    ∃ g, op = .target g ∧ TransGen (Single arena₀) b g := by
  have hR := hT b
  rw [h] at hR
  generalize hi : [jmp op] = is' at hR
  generalize hn : (arena b).next = next' at hR
  cases hR with
  | same =>
    obtain ⟨t, ht, _⟩ := hE.single_next hb hi.symm
    subst ht
    exact ⟨t, rfl, .single hi.symm⟩
  | @moved body t t' his _ hc =>
    cases body with
    | nil =>
      cases hi
      exact ⟨t', rfl, .head' his hc⟩
    | cons _ _ => simp at hi

theorem Threaded.next_lt (ht : t ∈ (arena b).next) : t < size := by
  have hR := hT b
  generalize (arena b).instructions = is' at hR
  generalize (arena b).next = next' at hR ht
  cases hR with
  | same => exact hE.next_lt b hb t ht
  | @moved body u u' _ hn hc =>
    have : t = u' := by simpa using ht
    subst this
    exact chain_lt hE (hE.next_lt b hb u (by simp [hn])) hc

/-- A block whose only next block holds a single jump ends in the jump to that block. -/
theorem Threaded.jump_of_next {child : BlockRef}
    (hnext : (arena b).next = [child]) (hchild : (arena child).instructions = [.jmp op]) :
    ∃ body t, (arena b).instructions = body ++ [.jmp (.target child)] ∧
      (arena₀ b).instructions = body ++ [.jmp (.target t)] ∧ (arena₀ b).next = [t] ∧
      Chain arena₀ t child := by
  have hR := hT b
  rw [hnext] at hR
  generalize hi : (arena b).instructions = is' at hR
  generalize hn : [child] = next' at hR
  cases hR with
  | same =>
    have hs := hE.shape b hb
    rw [← hn] at hs
    generalize hi0 : (arena₀ b).instructions = is at hs
    generalize hn' : [child] = next at hs
    cases hs with
    | @jump body t _ => cases hn'; exact ⟨body, child, rfl, rfl, hn.symm, .refl⟩
    | branch | ret | int => cases hn'
    | @indirect body r op' _ _ hr _ =>
      cases hn'
      -- the RET-only block is not threaded through
      have hRc := hT child
      rw [hchild, hr] at hRc
      generalize hi' : [jmp op] = is'' at hRc
      generalize (arena child).next = next'' at hRc
      cases hRc with
      | same => cases hi'
      | @moved body' u u' his _ _ =>
        cases body' with
        | nil => cases his
        | cons _ _ => simp at his
  | @moved body t t' his hn0 hc => cases hn; exact ⟨body, t, rfl, his, hn0, hc⟩

end

/-- **Threading terminates, and only redirects the final jump of the block along a chain.** -/
theorem emptyBlockJumpThreading_spec {current : BlockRef} (hcur : current < size) :
    ∀ (fuel : Nat) (arena : Arena), Threaded arena₀ arena →
    (∀ child, (arena current).next = [child] → chainRank arena₀ size child < fuel) → 0 < fuel →
    ∃ arena', emptyBlockJumpThreading fuel arena current = some arena' ∧ Threaded arena₀ arena' ∧
      (∀ b, b ≠ current → arena' b = arena b) ∧ (arena' current).linked = (arena current).linked
  | 0, _, _, _, h0 => absurd h0 (Nat.lt_irrefl 0)
  | fuel + 1, arena, hT, hfuel, _ => by
    have hsame : ∃ arena', some arena = some arena' ∧ Threaded arena₀ arena' ∧
        (∀ b, b ≠ current → arena' b = arena b) ∧ (arena' current).linked = (arena current).linked :=
      ⟨arena, rfl, hT, fun _ _ => rfl, rfl⟩
    unfold emptyBlockJumpThreading
    split
    · rename_i child hnext
      split
      · rename_i op hchild
        have hchild' : (arena child).instructions = [.jmp op] := hchild
        have hlt : child < size := hT.next_lt hE hcur (by simp [hnext])
        obtain ⟨g, rfl, hg⟩ := hT.single hE hlt hchild'
        obtain ⟨body, t, hi, hi0, hn0, hc⟩ := hT.jump_of_next hE hcur hnext hchild'
        have hlast : Arena.replaceLast (arena current).instructions (.jmp (.target g)) =
            some (body ++ [.jmp (.target g)]) := by
          rw [hi]; simp [Arena.replaceLast]
        -- the block now jumps past `child`
        have hT' : Threaded arena₀ (arena.modify current fun b =>
            { b with instructions := body ++ [.jmp (.target g)], next := [g] }) := by
          intro b
          by_cases hb : b = current
          · subst hb
            simp only [Arena.modify, Function.update_self]
            exact .moved hi0 hn0 (hc.trans hg.to_reflTransGen)
          · simp only [Arena.modify, Function.update_of_ne hb]
            exact hT b
        have hglt : g < size := chain_lt hE hlt hg.to_reflTransGen
        have hrank := chainRank_lt hE hglt hg
        have hfc := hfuel child hnext
        obtain ⟨arena', he, hT'', hother, hlinked⟩ := emptyBlockJumpThreading_spec hcur fuel _ hT' (fun c hc' => by
            have : c = g := by simpa [Arena.modify] using hc'.symm
            subst this
            omega) (by omega)
        refine ⟨arena', ?_, hT'', fun b hb => ?_, ?_⟩
        · rw [hlast]; exact he
        · rw [hother b hb, Arena.modify, Function.update_of_ne hb]
        · rw [hlinked, Arena.modify, Function.update_self]
      · exact hsame
    · exact hsame

/-! ## The work queue -/

/-- Invariant of the work queue. -/
structure QueueInv (arena₀ arena : Arena) (size : Nat) (initial panic : BlockRef)
    (queue allBlocks : List BlockRef) : Prop where
  threaded : Threaded arena₀ arena
  linked : ∀ b, (arena b).linked = true ↔ b ∈ allBlocks
  nodup : allBlocks.Nodup
  lt : ∀ b, b ∈ allBlocks ∨ b ∈ queue → b < size
  closed : ∀ b ∈ allBlocks, ∀ t ∈ (arena b).next, t ∈ allBlocks ∨ t ∈ queue
  panic : panic ∈ allBlocks ∨ panic ∈ queue
  first : allBlocks.head? = some initial ∨ allBlocks = [] ∧ queue.head? = some initial

/-- What the work queue ends with: an order of the blocks that contains every next block. -/
structure Linked (arena₀ arena : Arena) (size : Nat) (initial panic : BlockRef)
    (allBlocks : List BlockRef) : Prop where
  threaded : Threaded arena₀ arena
  lt : ∀ b ∈ allBlocks, b < size
  closed : ∀ b ∈ allBlocks, ∀ t ∈ (arena b).next, t ∈ allBlocks
  panic : panic ∈ allBlocks
  first : allBlocks.head? = some initial

theorem Threaded.next_length (hT : Threaded arena₀ arena) (hb : b < size) : (arena b).next.length ≤ 2 := by
  have hR := hT b
  generalize (arena b).instructions = is' at hR
  generalize (arena b).next = next' at hR
  cases hR with
  | same =>
    have hs := hE.shape b hb
    generalize (arena₀ b).instructions = is at hs
    generalize (arena₀ b).next = next at hs
    cases hs <;> simp
  | moved => simp

omit hE in
theorem nodup_length_le {size : Nat} {l : List Nat} (hnd : l.Nodup) (hlt : ∀ b ∈ l, b < size) : l.length ≤ size := by
  have hsub : l.toFinset ⊆ Finset.range size := fun b hb => by
    simpa using hlt b (by simpa using hb)
  have := Finset.card_le_card hsub
  rwa [toFinset_card_of_nodup hnd, Finset.card_range] at this

theorem QueueInv.link {queue allBlocks : List BlockRef}
    (h : QueueInv arena₀ arena size initial panic (b :: queue) allBlocks) (hb : (arena b).linked = false) :
    ∃ arena', emptyBlockJumpThreading (size + 1) (arena.modify b ({ · with linked := true })) b = some arena' ∧
      QueueInv arena₀ arena' size initial panic ((arena' b).next.reverse ++ queue) (allBlocks ++ [b]) := by
  have hlt : b < size := h.lt b (Or.inr (by simp))
  have hnot : b ∉ allBlocks := fun hm => by simp [(h.linked b).mpr hm] at hb
  have hT : Threaded arena₀ (arena.modify b ({ · with linked := true })) := by
    intro x
    by_cases hx : x = b
    · subst hx
      simpa [Arena.modify] using h.threaded x
    · simpa [Arena.modify, Function.update_of_ne hx] using h.threaded x
  obtain ⟨arena', he, hT', hother, hlinked⟩ := emptyBlockJumpThreading_spec hE hlt (size + 1) _ hT
    (fun child _ => Nat.lt_succ_of_le (chainRank_le _ _ child)) (Nat.succ_pos _)
  have hother' : ∀ x, x ≠ b → arena' x = arena x := fun x hx => by
    rw [hother x hx, Arena.modify, Function.update_of_ne hx]
  refine ⟨arena', he, hT', ?_, ?_, ?_, ?_, ?_, ?_⟩
  · intro x
    by_cases hx : x = b
    · subst hx
      simp [hlinked, Arena.modify]
    · rw [hother' x hx, h.linked x]
      simp [hx]
  · exact nodup_append.mpr ⟨h.nodup, by simp, fun x hx y hy e => by
      have : y = b := by simpa using hy
      exact hnot (this ▸ e ▸ hx)⟩
  · intro x hx
    simp only [mem_append, mem_singleton, mem_reverse] at hx
    rcases hx with (hx | rfl) | hx | hx
    · exact h.lt x (Or.inl hx)
    · exact hlt
    · exact hT'.next_lt hE hlt hx
    · exact h.lt x (Or.inr (mem_cons_of_mem _ hx))
  · intro x hx t ht
    simp only [mem_append, mem_singleton, mem_reverse] at hx ⊢
    rcases hx with hx | rfl
    · have hxb : x ≠ b := fun e => hnot (e ▸ hx)
      rw [hother' x hxb] at ht
      have := h.closed x hx t ht
      simp only [mem_cons] at this
      tauto
    · tauto
  · have := h.panic
    simp only [mem_append, mem_cons, mem_reverse] at this ⊢
    tauto
  · refine Or.inl ?_
    rcases h.first with hf | ⟨rfl, hf⟩
    · cases allBlocks with
      | nil => cases hf
      | cons _ _ => simpa using hf
    · simpa using hf

/-- **The work queue empties**, and the order it leaves is closed under next blocks. -/
theorem linkBlocks_spec : ∀ (fuel : Nat) (arena : Arena) (queue allBlocks : List BlockRef),
      QueueInv arena₀ arena size initial panic queue allBlocks →
      queue.length + 2 * (size - allBlocks.length) ≤ fuel →
      ∃ arena' allBlocks', linkBlocks size fuel arena queue allBlocks = some (arena', allBlocks') ∧
        Linked arena₀ arena' size initial panic allBlocks'
  | fuel, arena, [], allBlocks, h, _ => by
    refine ⟨arena, allBlocks, by unfold linkBlocks; rfl, h.threaded, fun b hb => h.lt b (Or.inl hb), ?_, ?_, ?_⟩
    · exact fun b hb t ht => (h.closed b hb t ht).resolve_right (by simp)
    · exact h.panic.resolve_right (by simp)
    · exact h.first.resolve_right (by simp)
  | 0, _, b :: queue, _, _, hf => by simp at hf
  | fuel + 1, arena, b :: queue, allBlocks, h, hf => by
    unfold linkBlocks
    cases hl : (arena b).linked with
    | true =>
      have hmem : b ∈ allBlocks := (h.linked b).mp hl
      have hqueue : ∀ t, t ∈ allBlocks ∨ t ∈ b :: queue → t ∈ allBlocks ∨ t ∈ queue := by
        simp only [mem_cons]
        rintro t (hm | rfl | hm)
        · exact Or.inl hm
        · exact Or.inl hmem
        · exact Or.inr hm
      refine linkBlocks_spec fuel arena queue allBlocks ⟨h.threaded, h.linked, h.nodup, ?_, ?_, ?_, ?_⟩ ?_
      · exact fun x hx => h.lt x (hx.imp_right (mem_cons_of_mem _))
      · exact fun x hx t ht => hqueue t (h.closed x hx t ht)
      · exact hqueue panic h.panic
      · rcases h.first with hf' | ⟨rfl, _⟩
        · exact Or.inl hf'
        · simp at hmem
      · simp only [length_cons] at hf
        omega
    | false =>
      obtain ⟨arena', he, h'⟩ := h.link hE hl
      simp only [Bool.false_eq_true, if_false, he]
      have hlt : b < size := h.lt b (Or.inr (by simp))
      have hn : (arena' b).next.length ≤ 2 := h'.threaded.next_length hE hlt
      have hlen := nodup_length_le h'.nodup (fun x hx => h'.lt x (Or.inl hx))
      refine linkBlocks_spec fuel arena' _ _ h' ?_
      simp only [length_cons, length_append, length_reverse, length_nil] at hf hlen ⊢
      omega

theorem linkBlocks_initial : ∃ arena' allBlocks, linkBlocks size (2 * size + 3) arena₀ [initial, panic] [] =
        some (arena', allBlocks) ∧ Linked arena₀ arena' size initial panic allBlocks := by
  refine linkBlocks_spec hE _ _ _ _ ⟨fun _ => .same, ?_, by simp, ?_, by simp, by simp, by simp⟩ ?_
  · simp [hE.unlinked]
  · intro b hb
    have : b = initial ∨ b = panic := by simpa using hb
    rcases this with rfl | rfl
    · exact hE.initial_lt
    · exact hE.panic_lt
  · simp only [length_cons, length_nil]
    omega

end

end Emitted

/-! ## The threaded graph executes like the original one -/

variable {l : Option JumpEvent}

section Threading

variable {arena₀ arena : Arena}

/-- What is left of a block, before and after threading. -/
def Redirected (arena₀ : Arena) (r₀ r : List Opcode) : Prop :=
  r₀ = r ∨ ∃ body t t', r₀ = body ++ [.jmp (.target t)] ∧ r = body ++ [.jmp (.target t')] ∧ Chain arena₀ t t'

theorem Threaded.redirected (hT : Threaded arena₀ arena) (b : BlockRef) :
    Redirected arena₀ (arena₀ b).instructions (arena b).instructions := by
  have hR := hT b
  generalize (arena b).instructions = is' at hR
  generalize (arena b).next = next' at hR
  cases hR with
  | same => exact Or.inl rfl
  | moved his _ hc => exact Or.inr ⟨_, _, _, his, rfl, hc⟩

/-- A chain is walked silently. -/
theorem walk_chain {t t' : BlockRef} (hc : Chain arena₀ t t') :
    (walk arena₀).Run [.jmp (.target t)] [] (arena₀ t').instructions := by
  induction hc with
  | refl => exact .silent (A := walk arena₀) .jmp
  | tail _ hs ih =>
    rw [hs] at ih
    exact ih.trans (.silent (A := walk arena₀) .jmp)

theorem WalkStep.transfer {arena' : Arena} {R : List Opcode → List Opcode → Prop} {i : Opcode}
    {rest rest' r : List Opcode} (hrest : R rest rest')
    (hblocks : ∀ t, R (arena t).instructions (arena' t).instructions) (hs : WalkStep arena (i :: rest) l r) :
    ∃ r', (walk arena').Run (i :: rest') l.toList r' ∧ R r r' := by
  cases hs with
  | exec hp => exact ⟨_, .step (A := walk arena') (.exec hp), hrest⟩
  | @jmp t => exact ⟨_, .silent (A := walk arena') .jmp, hblocks t⟩
  | @taken t => exact ⟨_, .emit (A := walk arena') .taken, hblocks t⟩
  | passed => exact ⟨_, .emit (A := walk arena') .passed, hrest⟩

theorem walk_step_redirected (hT : Threaded arena₀ arena) {r0 r0' r : List Opcode} (hR : Redirected arena₀ r0 r)
    (hs : WalkStep arena₀ r0 l r0') : ∃ r', (walk arena).Run r l.toList r' ∧ Redirected arena₀ r0' r' := by
  rcases hR with rfl | ⟨body, t, t', rfl, rfl, hc⟩
  · cases r0 with
    | nil => cases hs
    | cons i rest => exact hs.transfer (Or.inl rfl) hT.redirected
  · cases body with
    | nil =>
      -- the walk of the original graph passes the chain one block at a time
      cases hs with
      | exec hp => cases hp
      | jmp =>
        rcases hc.cases_head with rfl | ⟨u, hs', hc'⟩
        · exact ⟨_, .silent (A := walk arena) .jmp, hT.redirected t⟩
        · exact ⟨_, .refl _, Or.inr ⟨[], u, t', hs', rfl, hc'⟩⟩
    | cons i body => exact WalkStep.transfer (Or.inr ⟨body, t, t', rfl, rfl, hc⟩) hT.redirected hs

theorem walk_step_original (hT : Threaded arena₀ arena) {r0 r r' : List Opcode} (hR : Redirected arena₀ r0 r)
    (hs : WalkStep arena r l r') : ∃ r0', (walk arena₀).Run r0 l.toList r0' ∧ Redirected arena₀ r0' r' := by
  rcases hR with rfl | ⟨body, t, t', rfl, rfl, hc⟩
  · cases r0 with
    | nil => cases hs
    | cons i rest => exact hs.transfer (R := fun r r0 => Redirected arena₀ r0 r) (Or.inl rfl) hT.redirected
  · cases body with
    | nil =>
      cases hs with
      | exec hp => cases hp
      | jmp => exact ⟨_, walk_chain hc, hT.redirected t'⟩
    | cons i body =>
      exact WalkStep.transfer (R := fun r r0 => Redirected arena₀ r0 r) (Or.inr ⟨body, t, t', rfl, rfl, hc⟩)
        hT.redirected hs

theorem redirected_final {r0 r : List Opcode} {i : Opcode} (hR : Redirected arena₀ r0 r) :
    WalkFinal r0 i ↔ WalkFinal r i := by
  rcases hR with rfl | ⟨body, t, t', rfl, rfl, hc⟩
  · exact Iff.rfl
  · cases body with
    | nil => constructor <;> intro hf <;> cases hf with | leaves hl => cases hl
    | cons j body => constructor <;> intro hf <;> cases hf with | leaves hl => exact .leaves hl

/-- **The threaded graph executes like the original one.** -/
theorem threaded_bisimilar (hT : Threaded arena₀ arena) :
    Machine.Bisimilar (walk arena₀) (walk arena) (Redirected arena₀) where
  fwd :=
    { step := fun hR hs => walk_step_redirected hT hR hs
      final := fun hR hf => ⟨_, .refl _, (redirected_final hR).mp hf⟩ }
  bwd :=
    { step := fun hR hs => walk_step_original hT hR hs
      final := fun hR hf => ⟨_, .refl _, (redirected_final hR).mpr hf⟩ }

end Threading

/-! ## Blocks end by leaving or by a jump -/

/-- What is left of a block: its last instruction leaves or jumps, and `ok` holds of every target. -/
inductive Tail (ok : BlockRef → Prop) : List Opcode → Prop where
  | passes {i : Opcode} {rest : List Opcode} : i.passes = true → Tail ok rest → Tail ok (i :: rest)
  | jne {t : BlockRef} {rest : List Opcode} : ok t → Tail ok rest → Tail ok (.jne (.target t) :: rest)
  | jmp {t : BlockRef} : ok t → Tail ok [.jmp (.target t)]
  | leaves {i : Opcode} : i.leaves = true → Tail ok [i]

variable {ok : BlockRef → Prop}

theorem Tail.append {tail : List Opcode} (h : Tail ok tail) :
    ∀ body : List Opcode, (∀ i ∈ body, i.passes = true ∨ ∃ t, i = .jne (.target t) ∧ ok t) → Tail ok (body ++ tail)
  | [], _ => h
  | i :: body, hb => by
    have ih := h.append body fun j hj => hb j (mem_cons_of_mem _ hj)
    rcases hb i (by simp) with hp | ⟨t, rfl, ht⟩
    · exact .passes hp ih
    · exact .jne ht ih

variable {is : List Opcode}

theorem Tail.ne_nil (h : Tail ok is) : is ≠ [] := by
  cases h <;> simp

section Linked

variable {arena₀ arena : Arena} {size : Nat} {initial panic : BlockRef} {allBlocks : List BlockRef}

theorem Body.tail {body tail : List Opcode} (hb : Body panic body) (hp : panic ∈ allBlocks)
    (ht : Tail (· ∈ allBlocks) tail) : Tail (· ∈ allBlocks) (body ++ tail) :=
  ht.append body fun i hi => (hb i hi).imp_right fun e => ⟨panic, e, hp⟩

theorem Linked.tail (hE : Emitted arena₀ size initial panic)
    (hL : Linked arena₀ arena size initial panic allBlocks) {b : BlockRef} (hb : b ∈ allBlocks) :
    Tail (· ∈ allBlocks) (arena b).instructions := by
  have hclosed := hL.closed b hb
  have hR := hL.threaded b
  have hs := hE.shape b (hL.lt b hb)
  generalize (arena b).instructions = is' at hR ⊢
  generalize (arena b).next = next' at hR hclosed
  generalize (arena₀ b).instructions = is at hR hs
  generalize (arena₀ b).next = next at hR hs
  cases hR with
  | same =>
    cases hs with
    | jump hbody => exact hbody.tail hL.panic (.jmp (hclosed _ (by simp)))
    | branch hbody =>
      exact hbody.tail hL.panic (.jne (hclosed _ (by simp)) (.jmp (hclosed _ (by simp))))
    | ret hbody | int hbody => exact hbody.tail hL.panic (.leaves rfl)
    | @indirect body r op hbody _ _ hleaves =>
      refine (Tail.leaves hleaves).append body fun i hi => ?_
      rcases hbody i hi with h | h | h
      · exact Or.inl h
      · exact Or.inr ⟨panic, h, hL.panic⟩
      · exact Or.inr ⟨r, h, hclosed r (by simp)⟩
  | @moved body t t' his hn hc =>
    have hbody : Body panic body := by
      subst hn
      generalize hn' : [t] = next at hs
      cases hs with
      | jump hbody => rwa [← (append_inj' his rfl).1]
      | branch | ret | int => cases hn'
      | @indirect body' r op _ _ _ hleaves =>
        have he := (append_inj' his rfl).2
        cases he
        cases hleaves
    exact hbody.tail hL.panic (.jmp (hclosed t' (by simp)))

/-! ## Positions of blocks -/

/-- The concatenated instructions. -/
def concat (arena : Arena) (allBlocks : List BlockRef) : List Opcode :=
  allBlocks.flatMap fun b => (arena b).instructions

theorem blockToInstructionIndex_isSome (arena : Arena) : ∀ (bs : List BlockRef) (k : Nat) {b : BlockRef}, b ∈ bs →
    (blockToInstructionIndex arena bs k b).isSome
  | [], _, _, h => by simp at h
  | b' :: bs, k, b, h => by
    unfold blockToInstructionIndex
    split
    · rfl
    · rename_i hne
      have hb : b ∈ bs := (mem_cons.mp h).resolve_left (fun e => hne e.symm)
      exact blockToInstructionIndex_isSome arena bs _ hb

theorem blockToInstructionIndex_spec : ∀ (bs : List BlockRef) (k : Nat) {b q : Nat},
    blockToInstructionIndex arena bs k b = some q →
    ∃ p rest, q = k + p ∧ (concat arena bs).drop p = (arena b).instructions ++ rest
  | [], _, _, _, h => by cases h
  | b' :: bs, k, b, q, h => by
    unfold blockToInstructionIndex at h
    split at h
    · rename_i he
      subst he
      cases h
      exact ⟨0, concat arena bs, rfl, rfl⟩
    · obtain ⟨p, rest, hq, hd⟩ := blockToInstructionIndex_spec bs _ h
      refine ⟨(arena b').instructions.length + p, rest, by omega, ?_⟩
      show ((arena b').instructions ++ concat arena bs).drop _ = _
      rw [drop_length_add_append]
      exact hd

/-! ## Deleted jumps -/

variable {position : BlockRef → Option Nat}

theorem killFallthroughs_spec : ∀ (is : List Opcode) (k : Nat), (∀ t, .jmp (.target t) ∈ is → (position t).isSome) →
      (∀ op, .jmp op ∈ is → (∃ t, op = .target t) ∨ (jmp op).leaves = true) →
      ∃ is', killFallthroughs position k is = some is' ∧ is'.length = is.length ∧
        ∀ n i, is[n]? = some i → ∃ i', killFallthrough position (k + n) i = some i' ∧ is'[n]? = some i'
  | [], _, _, _ => ⟨[], rfl, rfl, fun n i h => by simp at h⟩
  | i :: is, k, hpos, htarget => by
    have hi : ∃ i', killFallthrough position k i = some i' := by
      unfold killFallthrough
      split
      · rename_i op
        rcases htarget op (mem_cons_self ..) with ⟨t, rfl⟩ | hl
        · obtain ⟨p, hp⟩ := isSome_iff_exists.mp (hpos t (mem_cons_self ..))
          simp [Operand.target, hp]
        · cases hk : op.kind with
          | target t => simp [leaves, hk] at hl
          | _ => exact ⟨_, rfl⟩
      · exact ⟨_, rfl⟩
    obtain ⟨i', hi'⟩ := hi
    obtain ⟨is', he, hlen, hget⟩ := killFallthroughs_spec is (k + 1) (fun t ht => hpos t (mem_cons_of_mem _ ht))
      (fun op hop => htarget op (mem_cons_of_mem _ hop))
    refine ⟨i' :: is', by simp [killFallthroughs, hi', he], by simp [hlen], ?_⟩
    intro n j hj
    cases n with
    | zero =>
      cases hj
      exact ⟨i', hi', rfl⟩
    | succ n =>
      obtain ⟨j', hj', hg⟩ := hget n j hj
      exact ⟨j', by rwa [show k + (n + 1) = k + 1 + n by omega], hg⟩

variable {i : Opcode}

variable (n : Nat)

/-- Only a direct jump can be deleted. -/
theorem killFallthrough_other (h : ∀ t, i ≠ .jmp (.target t)) (hj : ∀ op, i = .jmp op → (jmp op).leaves = true) :
    killFallthrough position n i = some i := by
  unfold killFallthrough
  split
  · rename_i op
    have hl := hj op rfl
    cases hk : op.kind with
    | target t => simp [leaves, hk] at hl
    | _ => rfl
  · rfl

theorem killFallthrough_passes (h : i.passes = true) : killFallthrough position n i = some i :=
  killFallthrough_other n (fun t e => by subst e; cases h) (fun op e => by subst e; cases h)

theorem killFallthrough_leaves (h : i.leaves = true) : killFallthrough position n i = some i :=
  killFallthrough_other n (fun t e => by subst e; cases h) (fun op e => by subst e; exact h)

theorem killFallthrough_jmp {p : Nat} (h : position t = some p) :
    killFallthrough position n (.jmp (.target t)) = some (if p = n + 1 then .dead else .jmp (.target t)) := by
  simp [killFallthrough, jmp, Operand.target, h]

/-! ## Labels -/

variable {j : Nat}

theorem nextValid_spec {index : Nat} (hj : index ≤ j) (hi : is[j]? = some i) (hne : i ≠ .dead) :
    ∃ l, nextValid is index = some l ∧ index ≤ l ∧ ∀ k, index ≤ k → k < l → is[k]? = some .dead := by
  unfold nextValid
  cases hf : (is.drop index).findIdx? (· ≠ .dead) with
  | none =>
    rw [List.findIdx?_eq_none_iff] at hf
    have hmem : i ∈ is.drop index := by
      refine mem_of_getElem? (i := j - index) ?_
      rw [List.getElem?_drop, show index + (j - index) = j by omega]
      exact hi
    exact absurd (hf i hmem) (by simpa using hne)
  | some m =>
    rw [List.findIdx?_eq_some_iff_getElem] at hf
    obtain ⟨hm, _, hdead⟩ := hf
    refine ⟨index + m, rfl, Nat.le_add_right _ _, fun k hk hkl => ?_⟩
    have hkm : k - index < m := by omega
    have := hdead (k - index) hkm
    simp only [getElem_drop, ne_eq, decide_not, Bool.not_eq_true', Bool.not_eq_false,
      decide_eq_true_eq, show index + (k - index) = k by omega] at this
    rw [List.getElem?_eq_getElem (by simp at hm; omega), this]

/-- Every jump target gets the label of its first instruction that is left. -/
theorem blockLabels_spec (position : BlockRef → Option Nat) (is : List Opcode) :
    ∀ (rest : List Opcode) (labels : BlockRef → Option Nat),
      (∀ i ∈ rest, ∀ t, i.jumpTarget = some t → ((position t).bind (nextValid is)).isSome) →
      ∃ labels', blockLabels position is rest labels = some labels' ∧
        ∀ t, (labels t = (position t).bind (nextValid is) ∨ ∃ i ∈ rest, i.jumpTarget = some t) →
          labels' t = (position t).bind (nextValid is)
  | [], labels, _ => ⟨labels, rfl, fun t ht => ht.resolve_right (by simp)⟩
  | i :: rest, labels, h => by
    have hrest : ∀ j ∈ rest, ∀ t, j.jumpTarget = some t → ((position t).bind (nextValid is)).isSome :=
      fun j hj => h j (mem_cons_of_mem _ hj)
    unfold blockLabels
    cases hi : i.jumpTarget with
    | none =>
      obtain ⟨labels', he, hl⟩ := blockLabels_spec position is rest labels hrest
      refine ⟨labels', he, fun t ht => hl t (ht.imp_right ?_)⟩
      rintro ⟨j, hj, hjt⟩
      rcases mem_cons.mp hj with rfl | hj
      · rw [hi] at hjt; cases hjt
      · exact ⟨j, hj, hjt⟩
    | some u =>
      obtain ⟨l, hl⟩ := isSome_iff_exists.mp (h i (by simp) u hi)
      obtain ⟨p, hp, hv⟩ := bind_eq_some_iff.mp hl
      obtain ⟨labels', he, hl'⟩ := blockLabels_spec position is rest (Function.update labels u (some l)) hrest
      refine ⟨labels', by simp [hp, hv, he], fun t ht => hl' t ?_⟩
      by_cases htu : t = u
      · subst htu
        exact Or.inl (by rw [Function.update_self, hl])
      · rw [Function.update_of_ne htu]
        refine ht.imp_right ?_
        rintro ⟨j, hj, hjt⟩
        rcases mem_cons.mp hj with rfl | hj
        · exact absurd (some.inj (hjt.symm.trans hi)) htu
        · exact ⟨j, hj, hjt⟩

/-! ## The laid-out code -/

/-- The code is the concatenation of the blocks with jumps to the next instruction deleted, and the
label of a jump target is past deleted instructions only. -/
structure Laid (arena : Arena) (allBlocks : List BlockRef) (c : Code) : Prop where
  instr : ∀ (n : Nat) (i : Opcode), (concat arena allBlocks)[n]? = some i → ∃ i',
    killFallthrough (blockToInstructionIndex arena allBlocks 0) n i = some i' ∧ c.instructions[n]? = some i'
  length : c.instructions.length = (concat arena allBlocks).length
  label : ∀ (n : Nat) (i : Opcode) (t : BlockRef), c.instructions[n]? = some i → i.jumpTarget = some t →
    ∃ p l, blockToInstructionIndex arena allBlocks 0 t = some p ∧ c.labels t = some l ∧ p ≤ l ∧
      ∀ k, p ≤ k → k < l → c.instructions[k]? = some .dead

theorem Tail.mem (h : Tail ok is) (hi : i ∈ is) :
    i.passes = true ∨ i.leaves = true ∨ ∃ t, ok t ∧ (i = .jne (.target t) ∨ i = .jmp (.target t)) := by
  induction h with
  | passes hp _ ih =>
    rcases mem_cons.mp hi with rfl | hi
    · exact Or.inl hp
    · exact ih hi
  | jne ht _ ih =>
    rcases mem_cons.mp hi with rfl | hi
    · exact Or.inr (Or.inr ⟨_, ht, Or.inl rfl⟩)
    · exact ih hi
  | jmp ht =>
    have := mem_singleton.mp hi
    exact Or.inr (Or.inr ⟨_, ht, Or.inr this⟩)
  | leaves hl => exact Or.inr (Or.inl (mem_singleton.mp hi ▸ hl))

theorem Tail.getLast_ne_dead (h : Tail ok is) : is.getLast? ≠ some .dead := by
  induction h with
  | passes _ hrest ih | jne _ hrest ih =>
    obtain ⟨j, rest, rfl⟩ := exists_cons_of_ne_nil hrest.ne_nil
    rw [getLast?_cons_cons]
    exact ih
  | jmp => nofun
  | leaves hl =>
    intro h
    cases h
    cases hl

theorem Linked.mem_concat (hE : Emitted arena₀ size initial panic)
    (hL : Linked arena₀ arena size initial panic allBlocks) (hi : i ∈ concat arena allBlocks) :
    i.passes = true ∨ i.leaves = true ∨ ∃ t ∈ allBlocks, i = .jne (.target t) ∨ i = .jmp (.target t) := by
  obtain ⟨b, hb, hib⟩ := mem_flatMap.mp hi
  exact (hL.tail hE hb).mem hib

theorem Opcode.jumpTarget_of_passes (h : i.passes = true) : i.jumpTarget = none := by
  unfold jumpTarget
  split
  · cases h
  · cases h
  · cases h
  · rfl

theorem Opcode.jumpTarget_of_leaves (h : i.leaves = true) : i.jumpTarget = none := by
  unfold jumpTarget
  split
  · cases h
  · cases h
  · rename_i op
    cases hk : op.kind with
    | target t => simp [leaves, hk] at h
    | _ => rfl
  · rfl

theorem Linked.position_lt (hE : Emitted arena₀ size initial panic)
    (hL : Linked arena₀ arena size initial panic allBlocks) (ht : t ∈ allBlocks) :
    ∃ p, blockToInstructionIndex arena allBlocks 0 t = some p ∧ p < (concat arena allBlocks).length := by
  obtain ⟨p, hp⟩ := isSome_iff_exists.mp (blockToInstructionIndex_isSome arena allBlocks 0 ht)
  refine ⟨p, hp, ?_⟩
  obtain ⟨p', rest, rfl, hd⟩ := blockToInstructionIndex_spec allBlocks 0 hp
  have hne := (hL.tail hE ht).ne_nil
  have hlen := congrArg List.length hd
  simp only [length_drop, length_append] at hlen
  have : 0 < (arena t).instructions.length := length_pos_iff.mpr hne
  omega

variable {n : Nat}

/-- An empty slot has an instruction behind it. -/
theorem Linked.dead_lt (hE : Emitted arena₀ size initial panic) (hL : Linked arena₀ arena size initial panic allBlocks)
    (hi : (concat arena allBlocks)[n]? = some .dead) : n + 1 < (concat arena allBlocks).length := by
  have hlast : ∀ bs ⊆ allBlocks, (concat arena bs).getLast? ≠ some .dead := by
    intro bs
    induction bs with
    | nil => nofun
    | cons b bs ih =>
      intro hbs h
      rw [concat, flatMap_cons, getLast?_append] at h
      rcases Option.or_eq_some_iff.mp h with h | ⟨-, h⟩
      · exact ih (fun x hx => hbs (mem_cons_of_mem _ hx)) h
      · exact (hL.tail hE (hbs mem_cons_self)).getLast_ne_dead h
  obtain ⟨hlt, -⟩ := List.getElem?_eq_some_iff.mp hi
  refine Nat.lt_of_le_of_ne hlt fun heq => hlast allBlocks (fun _ h => h) ?_
  rw [getLast?_eq_getElem?, ← heq]
  exact hi

/-- Deleting leaves an instruction as it is, or deletes a jump to the next one. -/
theorem Linked.killed (hE : Emitted arena₀ size initial panic) (hL : Linked arena₀ arena size initial panic allBlocks)
    {i' : Opcode} (hi : (concat arena allBlocks)[n]? = some i)
    (hk : killFallthrough (blockToInstructionIndex arena allBlocks 0) n i = some i') :
    i' = i ∧ i ≠ .dead ∨ i' = .dead ∧ n + 1 < (concat arena allBlocks).length := by
  rcases hL.mem_concat hE (mem_of_getElem? hi) with h | h | ⟨t, ht, rfl | rfl⟩
  · rw [killFallthrough_passes n h] at hk
    cases hk
    by_cases hdead : i = .dead
    · subst hdead
      exact Or.inr ⟨rfl, hL.dead_lt hE hi⟩
    · exact Or.inl ⟨rfl, hdead⟩
  · rw [killFallthrough_leaves n h] at hk
    cases hk
    exact Or.inl ⟨rfl, fun e => by subst e; cases h⟩
  · cases hk
    exact Or.inl ⟨rfl, by simp [jne, dead]⟩
  · obtain ⟨p, hp, hlt⟩ := hL.position_lt hE ht
    rw [killFallthrough_jmp n hp] at hk
    split at hk
    · cases hk; exact Or.inr ⟨rfl, by omega⟩
    · cases hk; exact Or.inl ⟨rfl, by simp [jmp, dead]⟩

/-- **The layout never panics.** -/
theorem layout_spec (hE : Emitted arena₀ size initial panic) :
    ∃ c arena allBlocks, layout arena₀ size initial panic = some c ∧
      Linked arena₀ arena size initial panic allBlocks ∧ Laid arena allBlocks c := by
  obtain ⟨arena, allBlocks, hlink, hL⟩ := linkBlocks_initial hE
  have hpos : ∀ t, .jmp (.target t) ∈ concat arena allBlocks →
      (blockToInstructionIndex arena allBlocks 0 t).isSome := by
    intro t ht
    rcases hL.mem_concat hE ht with h | h | ⟨t', ht', h | h⟩
    · cases h
    · cases h
    · cases h
    · cases h
      exact blockToInstructionIndex_isSome arena allBlocks 0 ht'
  have htarget : ∀ op, .jmp op ∈ concat arena allBlocks → (∃ t, op = .target t) ∨ (jmp op).leaves = true := by
    intro op hop
    rcases hL.mem_concat hE hop with h | h | ⟨t', _, h | h⟩
    · cases h
    · exact Or.inr h
    · cases h
    · cases h
      exact Or.inl ⟨t', rfl⟩
  obtain ⟨is, hkill, hlen, hget⟩ := killFallthroughs_spec (concat arena allBlocks) 0 hpos htarget
  simp only [Nat.zero_add] at hget
  have hkilled : ∀ (n : Nat) (hn : n < (concat arena allBlocks).length), ∃ i, is[n]? = some i ∧
      (i = (concat arena allBlocks)[n] ∧ i ≠ .dead ∨ i = .dead ∧ n + 1 < (concat arena allBlocks).length) := by
    intro n hn
    obtain ⟨i, hk, hi⟩ := hget n _ (List.getElem?_eq_getElem hn)
    rcases hL.killed hE (List.getElem?_eq_getElem hn) hk with ⟨rfl, hne⟩ | h
    · exact ⟨_, hi, Or.inl ⟨rfl, hne⟩⟩
    · exact ⟨_, hi, Or.inr h⟩
  -- the last instruction is not deleted: no block begins after it
  have hlast : ∃ i, is[(concat arena allBlocks).length - 1]? = some i ∧ i ≠ .dead := by
    obtain ⟨p, _, hp⟩ := hL.position_lt hE hL.panic
    obtain ⟨i, hi, ⟨_, hne⟩ | ⟨_, hlt⟩⟩ := hkilled ((concat arena allBlocks).length - 1) (by omega)
    · exact ⟨i, hi, hne⟩
    · omega
  have htargets : ∀ i ∈ is, ∀ t, i.jumpTarget = some t → t ∈ allBlocks := by
    intro i hi t ht
    obtain ⟨n, hn⟩ := List.getElem?_of_mem hi
    have hlt : n < (concat arena allBlocks).length := hlen ▸ (List.getElem?_eq_some_iff.mp hn).1
    obtain ⟨i', hi', h⟩ := hkilled n hlt
    cases hn.symm.trans hi'
    rcases h with ⟨rfl, _⟩ | ⟨rfl, _⟩
    swap
    · cases ht
    rcases hL.mem_concat hE (getElem_mem hlt) with h | h | ⟨t', ht', h | h⟩
    · rw [jumpTarget_of_passes h] at ht; cases ht
    · rw [jumpTarget_of_leaves h] at ht; cases ht
    · rw [h] at ht; cases ht; exact ht'
    · rw [h] at ht; cases ht; exact ht'
  have hvalid : ∀ t ∈ allBlocks, ∃ p l, blockToInstructionIndex arena allBlocks 0 t = some p ∧
      nextValid is p = some l ∧ p ≤ l ∧ ∀ k, p ≤ k → k < l → is[k]? = some .dead := by
    intro t ht
    obtain ⟨p, hp, hplt⟩ := hL.position_lt hE ht
    obtain ⟨i, hi, hne⟩ := hlast
    obtain ⟨l, hl, hle, hd⟩ := nextValid_spec (show p ≤ _ by omega) hi hne
    exact ⟨p, l, hp, hl, hle, hd⟩
  obtain ⟨labels, hlabels, hlabel⟩ := blockLabels_spec
    (blockToInstructionIndex arena allBlocks 0) is is (fun _ => none) (fun i hi t ht => by
      obtain ⟨p, l, hp, hl, _⟩ := hvalid t (htargets i hi t ht)
      simp [hp, hl])
  refine ⟨⟨is, labels⟩, arena, allBlocks, ?_, hL, ⟨hget, hlen, ?_⟩⟩
  · show (linkBlocks size (2 * size + 3) arena₀ [initial, panic] [] >>= _) = _
    rw [hlink]
    show ((killFallthroughs _ 0 (concat arena allBlocks)) >>= _) = _
    rw [hkill]
    show (blockLabels _ is is _ >>= _) = _
    rw [hlabels]
    rfl
  · intro n i t hi ht
    have hmem := mem_of_getElem? hi
    obtain ⟨p, l, hp, hl, hle, hd⟩ := hvalid t (htargets i hmem t ht)
    refine ⟨p, l, hp, ?_, hle, hd⟩
    show labels t = some l
    rw [hlabel t (Or.inr ⟨i, hmem, ht⟩), hp, bind_some, hl]

/-! ## The laid-out code executes like the threaded graph -/

/-- What is left of a block begins at some index, and from there to the program counter everything
is deleted. -/
def Placed (arena : Arena) (allBlocks : List BlockRef) (c : Code) (rest : List Opcode) (j : Nat) : Prop :=
  ∃ n after, (concat arena allBlocks).drop n = rest ++ after ∧ Tail (· ∈ allBlocks) rest ∧ n ≤ j ∧
    ∀ k, n ≤ k → k < j → c.instructions[k]? = some .dead

variable {c : Code} {rest : List Opcode} {after : List Opcode}

theorem placed_next (hd : (concat arena allBlocks).drop n = i :: rest ++ after) (ht : Tail (· ∈ allBlocks) rest) :
    Placed arena allBlocks c rest (n + 1) := by
  refine ⟨n + 1, after, ?_, ht, Nat.le_refl _, fun k hk hkn => absurd hk (by omega)⟩
  rw [← drop_drop, hd]
  rfl

theorem placed_past (hd : (concat arena allBlocks).drop n = i :: rest ++ after) (ht : Tail (· ∈ allBlocks) rest)
    (hlt : n < j) (hdead : ∀ k, n ≤ k → k < j → c.instructions[k]? = some .dead) :
    Placed arena allBlocks c rest j := by
  refine ⟨n + 1, after, ?_, ht, hlt, fun k hk hkj => hdead k (by omega) hkj⟩
  rw [← drop_drop, hd]
  rfl

theorem not_leaves_of_passes (h : i.passes = true) : i.leaves = false := by
  unfold leaves
  split
  · cases h
  · cases h
  · cases h
  · rfl

section

variable (hE : Emitted arena₀ size initial panic) (hL : Linked arena₀ arena size initial panic allBlocks)
    (hC : Laid arena allBlocks c)

include hE hL hC

omit hC in
theorem placed_start {p l : Nat} (ht : t ∈ allBlocks) (hp : blockToInstructionIndex arena allBlocks 0 t = some p)
    (hl : p ≤ l) (hd : ∀ k, p ≤ k → k < l → c.instructions[k]? = some .dead) :
    Placed arena allBlocks c (arena t).instructions l := by
  obtain ⟨p', after, hp', hdrop⟩ := blockToInstructionIndex_spec allBlocks 0 hp
  have : p' = p := by omega
  subst this
  exact ⟨p', after, hdrop, hL.tail hE ht, hl, hd⟩

/-- The instruction of the code at the head of what is left of a block. -/
inductive Head (arena : Arena) (allBlocks : List BlockRef) (c : Code) (n : Nat) : List Opcode → Prop where
  | passes {i : Opcode} {rest : List Opcode} : i.passes = true → c.instructions[n]? = some i →
      Tail (· ∈ allBlocks) rest → Head arena allBlocks c n (i :: rest)
  | jne {t : BlockRef} {l : Nat} {rest : List Opcode} : c.instructions[n]? = some (.jne (.target t)) →
      c.labels t = some l → Placed arena allBlocks c (arena t).instructions l →
      Tail (· ∈ allBlocks) rest → Head arena allBlocks c n (.jne (.target t) :: rest)
  | dead {t : BlockRef} {after : List Opcode} : c.instructions[n]? = some .dead →
      (concat arena allBlocks).drop (n + 1) = (arena t).instructions ++ after →
      Tail (· ∈ allBlocks) (arena t).instructions → Head arena allBlocks c n [.jmp (.target t)]
  | jmp {t : BlockRef} {l : Nat} : c.instructions[n]? = some (.jmp (.target t)) → c.labels t = some l →
      Placed arena allBlocks c (arena t).instructions l → Head arena allBlocks c n [.jmp (.target t)]
  | leaves {i : Opcode} : i.leaves = true → c.instructions[n]? = some i → Head arena allBlocks c n [i]

theorem head_of_tail (hd : (concat arena allBlocks).drop n = rest ++ after) (ht : Tail (· ∈ allBlocks) rest) :
    Head arena allBlocks c n rest := by
  have hget : ∀ i rest', rest = i :: rest' → (concat arena allBlocks)[n]? = some i := by
    intro i rest' hr
    have := congrArg (·[0]?) hd
    simpa [hr] using this
  have hlabel : ∀ i t, c.instructions[n]? = some i → i.jumpTarget = some t → t ∈ allBlocks →
      ∃ l, c.labels t = some l ∧ Placed arena allBlocks c (arena t).instructions l := by
    intro i t hi hj ht
    obtain ⟨p, l, hp, hl, hle, hdead⟩ := hC.label n i t hi hj
    exact ⟨l, hl, placed_start hE hL ht hp hle hdead⟩
  cases ht with
  | @passes i rest hp hrest =>
    obtain ⟨i', hk, hi'⟩ := hC.instr n i (hget i rest rfl)
    rw [killFallthrough_passes n hp] at hk
    cases hk
    exact .passes hp hi' hrest
  | @jne t rest hmem hrest =>
    obtain ⟨i', hk, hi'⟩ := hC.instr n _ (hget _ rest rfl)
    cases hk
    obtain ⟨l, hl, hpl⟩ := hlabel _ t hi' rfl hmem
    exact .jne hi' hl hpl hrest
  | @jmp t hmem =>
    obtain ⟨i', hk, hi'⟩ := hC.instr n _ (hget _ [] rfl)
    obtain ⟨p, hp, _⟩ := hL.position_lt hE hmem
    rw [killFallthrough_jmp n hp] at hk
    split at hk
    · rename_i hpn
      cases hk
      subst hpn
      obtain ⟨p', after', hp', hdrop⟩ := blockToInstructionIndex_spec allBlocks 0 hp
      rw [Nat.zero_add] at hp'
      exact .dead hi' (hp' ▸ hdrop) (hL.tail hE hmem)
    · cases hk
      obtain ⟨l, hl, hpl⟩ := hlabel _ t hi' rfl hmem
      exact .jmp hi' hl hpl
  | @leaves i hl =>
    obtain ⟨i', hk, hi'⟩ := hC.instr n i (hget i [] rfl)
    rw [killFallthrough_leaves n hl] at hk
    cases hk
    exact .leaves hl hi'

section

variable (hP : Placed arena allBlocks c rest j)

include hP

theorem placed_step {rest' : List Opcode} (hs : WalkStep arena rest l rest') :
    ∃ j', (flat c).Run j l.toList j' ∧ Placed arena allBlocks c rest' j' := by
  obtain ⟨n, after, hd, ht, hle, hdead⟩ := hP
  have hh := head_of_tail hE hL hC hd ht
  rcases Nat.eq_or_lt_of_le hle with rfl | hlt
  · cases hh with
    | passes hp hi hrest =>
      cases hs with
      | exec => exact ⟨n + 1, .step (A := flat c) (.exec hi hp), placed_next hd hrest⟩
      | jmp | taken | passed => cases hp
    | jne hi hl hpl hrest =>
      cases hs with
      | exec hp => cases hp
      | taken => exact ⟨_, .emit (A := flat c) (.taken hi hl), hpl⟩
      | passed => exact ⟨n + 1, .emit (A := flat c) (.passed hi hl), placed_next hd hrest⟩
    | dead hi hdrop htail =>
      cases hs with
      | exec hp => cases hp
      | jmp =>
        exact ⟨n + 1, .silent (A := flat c) (.exec hi rfl), n + 1, _, hdrop, htail, Nat.le_refl _,
          fun k hk hkn => absurd hk (by omega)⟩
    | jmp hi hl hpl =>
      cases hs with
      | exec hp => cases hp
      | jmp => exact ⟨_, .silent (A := flat c) (.jmp hi hl), hpl⟩
    | leaves hl hi =>
      cases hs with
      | exec hp => rw [not_leaves_of_passes hp] at hl; cases hl
      | jmp | taken | passed => cases hl
  · -- the code is already past the empty slot or the deleted jump
    have hdn := hdead n (Nat.le_refl n) hlt
    cases hh with
    | passes hp hi hrest =>
      cases hi.symm.trans hdn
      cases hs with
      | exec => exact ⟨j, .refl j, placed_past hd hrest hlt hdead⟩
    | jne hi | jmp hi => cases hi.symm.trans hdn
    | dead hi hdrop htail =>
      cases hs with
      | exec hp => cases hp
      | jmp => exact ⟨j, .refl j, n + 1, _, hdrop, htail, hlt, fun k hk hkj => hdead k (by omega) hkj⟩
    | leaves hl hi => cases hi.symm.trans hdn; cases hl

omit hP in
/-- The walk catches up with the program counter over deleted jumps. -/
theorem catch_up : ∀ (d : Nat) {rest : List Opcode} {j n : Nat} {after : List Opcode}, j = n + d →
      (concat arena allBlocks).drop n = rest ++ after → Tail (· ∈ allBlocks) rest →
      (∀ k, n ≤ k → k < j → c.instructions[k]? = some .dead) →
      ∃ rest' after', (walk arena).Run rest [] rest' ∧
        (concat arena allBlocks).drop j = rest' ++ after' ∧ Tail (· ∈ allBlocks) rest'
  | 0, rest, j, n, after, hj, hd, ht, _ => ⟨rest, after, .refl _, by rw [hj]; exact hd, ht⟩
  | d + 1, rest, j, n, after, hj, hd, ht, hdead => by
    have hdn := hdead n (Nat.le_refl n) (by omega)
    cases head_of_tail hE hL hC hd ht with
    | @passes i rest hp hi hrest =>
      cases hi.symm.trans hdn
      have hdrop : (concat arena allBlocks).drop (n + 1) = rest ++ after := by
        rw [← drop_drop, hd]
        rfl
      obtain ⟨rest', after', hr, hd', ht'⟩ := catch_up d (by omega) hdrop hrest (fun k hk hkj => hdead k (by omega) hkj)
      exact ⟨rest', after', (Machine.Run.silent (A := walk arena) (.exec hp)).trans_nil hr, hd', ht'⟩
    | jne hi | jmp hi => cases hi.symm.trans hdn
    | dead hi hdrop htail =>
      obtain ⟨rest', after', hr, hd', ht'⟩ := catch_up d (by omega) hdrop htail (fun k hk hkj => hdead k (by omega) hkj)
      exact ⟨rest', after', (Machine.Run.silent (A := walk arena) .jmp).trans_nil hr, hd', ht'⟩
    | leaves hl hi => cases hi.symm.trans hdn; cases hl

theorem Placed.catch_up :
    ∃ rest' after, (walk arena).Run rest [] rest' ∧ (concat arena allBlocks).drop j = rest' ++ after ∧
      Head arena allBlocks c j rest' := by
  obtain ⟨n, after, hd, ht, hle, hdead⟩ := hP
  obtain ⟨rest', after', hr, hd', ht'⟩ := X86.catch_up hE hL hC (j - n) (by omega) hd ht hdead
  exact ⟨rest', after', hr, hd', head_of_tail hE hL hC hd' ht'⟩

theorem flat_step {j' : Nat} (hs : FlatStep c j l j') :
    ∃ rest', (walk arena).Run rest l.toList rest' ∧ Placed arena allBlocks c rest' j' := by
  obtain ⟨rest1, after, hr, hd, hh⟩ := hP.catch_up hE hL hC
  cases hh with
  | passes hp hi hrest =>
    cases hs with
    | exec hi' _ =>
      cases hi.symm.trans hi'
      exact ⟨_, hr.trans_nil (.step (A := walk arena) (.exec hp)), placed_next hd hrest⟩
    | jmp hi' | taken hi' | passed hi' => cases hi.symm.trans hi'; cases hp
  | jne hi hl hpl hrest =>
    cases hs with
    | exec hi' hp => cases hi.symm.trans hi'; cases hp
    | jmp hi' => cases hi.symm.trans hi'
    | taken hi' hl' =>
      cases hi.symm.trans hi'
      cases hl.symm.trans hl'
      exact ⟨_, hr.trans_nil (.emit (A := walk arena) .taken), hpl⟩
    | passed hi' hl' =>
      cases hi.symm.trans hi'
      exact ⟨_, hr.trans_nil (.emit (A := walk arena) .passed), placed_next hd hrest⟩
  | dead hi hdrop htail =>
    cases hs with
    | exec hi' =>
      cases hi.symm.trans hi'
      exact ⟨_, hr.trans_nil (.silent (A := walk arena) .jmp), j + 1, _, hdrop, htail, Nat.le_refl _,
        fun k hk hkn => absurd hk (by omega)⟩
    | jmp hi' | taken hi' | passed hi' => cases hi.symm.trans hi'
  | jmp hi hl hpl =>
    cases hs with
    | exec hi' hp => cases hi.symm.trans hi'; cases hp
    | taken hi' | passed hi' => cases hi.symm.trans hi'
    | jmp hi' hl' =>
      cases hi.symm.trans hi'
      cases hl.symm.trans hl'
      exact ⟨_, hr.trans_nil (.silent (A := walk arena) .jmp), hpl⟩
  | leaves hl hi =>
    cases hs with
    | exec hi' hp =>
      cases hi.symm.trans hi'
      rw [not_leaves_of_passes hp] at hl
      cases hl
    | jmp hi' | taken hi' | passed hi' => cases hi.symm.trans hi'; cases hl

theorem placed_final (hf : WalkFinal rest i) : FlatFinal c j i := by
  obtain ⟨n, after, hd, ht, hle, hdead⟩ := hP
  cases hf with
  | leaves hl =>
    cases head_of_tail hE hL hC hd ht with
    | passes hp => rw [not_leaves_of_passes hp] at hl; cases hl
    | jne | dead | jmp => cases hl
    | leaves _ hi =>
      rcases Nat.eq_or_lt_of_le hle with rfl | hlt
      · exact .leaves hi hl
      · cases hi.symm.trans (hdead n (Nat.le_refl n) hlt)
        cases hl

theorem flat_final (hf : FlatFinal c j i) : ∃ rest', (walk arena).Run rest [] rest' ∧ WalkFinal rest' i := by
  obtain ⟨rest1, after, hr, hd, hh⟩ := hP.catch_up hE hL hC
  cases hf with
  | leaves hi hl =>
    cases hh with
    | passes hp hi' =>
      cases hi.symm.trans hi'
      rw [not_leaves_of_passes hp] at hl
      cases hl
    | jne hi' | dead hi' | jmp hi' => cases hi.symm.trans hi'; cases hl
    | leaves _ hi' =>
      cases hi.symm.trans hi'
      exact ⟨_, hr, .leaves hl⟩

end

/-- **The laid-out code executes like the threaded graph.** -/
theorem flat_bisimilar : Machine.Bisimilar (walk arena) (flat c) (Placed arena allBlocks c) where
  fwd :=
    { step := fun hP hs => placed_step hE hL hC hP hs
      final := fun hP hf => ⟨_, .refl _, placed_final hE hL hC hP hf⟩ }
  bwd :=
    { step := fun hP hs => flat_step hE hL hC hP hs
      final := fun hP hf => flat_final hE hL hC hP hf }

omit hC in
theorem placed_entry : Placed arena allBlocks c (arena initial).instructions 0 := by
  have hfirst := hL.first
  cases allBlocks with
  | nil => cases hfirst
  | cons b bs =>
    have hb : b = initial := by simpa using hfirst
    subst hb
    exact ⟨0, concat arena bs, rfl, hL.tail hE (by simp), Nat.le_refl 0, fun k _ hk => absurd hk (by omega)⟩

end

end Linked

/-- **The laid-out code executes like the block graph**: the layout does not panic, and for every
outcome of the conditional jumps the code, from its first instruction, performs the instructions that
walking the graph from the entry block performs, and leaves by the same instruction. -/
theorem layout_executions {arena : Arena} {size : Nat} {initial panic : BlockRef}
    (hE : Emitted arena size initial panic) :
    ∃ c, layout arena size initial panic = some c ∧
      (∀ t, (walk arena).Performs (arena initial).instructions t ↔ (flat c).Performs 0 t) ∧
      (∀ t i, (walk arena).Ends (arena initial).instructions t i ↔ (flat c).Ends 0 t i) := by
  obtain ⟨c, arena', allBlocks, hc, hL, hC⟩ := layout_spec hE
  have hR := hL.threaded.redirected initial
  have hP : Placed arena' allBlocks c (arena' initial).instructions 0 := placed_entry hE hL
  refine ⟨c, hc, fun t => ?_, fun t i => ?_⟩
  · exact ((threaded_bisimilar hL.threaded).performs_iff hR t).trans ((flat_bisimilar hE hL hC).performs_iff hP t)
  · exact ((threaded_bisimilar hL.threaded).ends_iff hR t i).trans ((flat_bisimilar hE hL hC).ends_iff hP t i)

/-- A loop: block `0` calls, tests and goes back through the empty block `2`, or on through the empty
block `3` to the return in `4`; block `1` is the panic block. -/
def loopArena : Arena
  | 0 => ⟨[.dead, .call (.preg .w64 .rax) 0 0, .dead, .jne (.target 2), .jmp (.target 3)], [2, 3], false⟩
  | 1 => ⟨[.int (.imm .w8 3)], [], false⟩
  | 2 => ⟨[.jmp (.target 0)], [0], false⟩
  | 3 => ⟨[.jmp (.target 4)], [4], false⟩
  | 4 => ⟨[.ret], [], false⟩
  | _ => ⟨[], [], false⟩

theorem loopArena_single {b t : BlockRef} (h : Single loopArena b t) : b = 2 ∧ t = 0 ∨ b = 3 ∧ t = 4 := by
  match b, h with
  | 0, h => cases h
  | 1, h => cases h
  | 2, h => cases h; exact Or.inl ⟨rfl, rfl⟩
  | 3, h => cases h; exact Or.inr ⟨rfl, rfl⟩
  | 4, h => cases h
  | _ + 5, h => cases h

theorem loopArena_emitted : Emitted loopArena 5 0 1 := by
  have hbody : ∀ i ∈ [dead, .call (.preg .w64 .rax) 0 0, dead], i.passes = true ∨ i = .jne (.target 1) := by
    simp [passes]
  have hnil : Body 1 [] := by simp [Body]
  refine ⟨by decide, by decide, ?_, ?_, ?_, ?_⟩
  · intro b hb
    match b, hb with
    | 0, _ => exact Shape.branch hbody
    | 1, _ => exact Shape.int hnil
    | 2, _ | 3, _ => exact Shape.jump hnil
    | 4, _ => exact Shape.ret hnil
  · intro b hb
    match b, hb with
    | 0, _ | 1, _ | 2, _ | 3, _ | 4, _ => simp [loopArena]
  · intro b
    match b with
    | 0 | 1 | 2 | 3 | 4 => rfl
    | _ + 5 => rfl
  · intro b h
    -- a single jump leads to a block that holds none
    obtain ⟨u, hb, hu⟩ := TransGen.head'_iff.mp h
    rcases hu.cases_head with rfl | ⟨v, hv, _⟩
    · rcases loopArena_single hb with ⟨rfl, h⟩ | ⟨rfl, h⟩ <;> cases h
    · rcases loopArena_single hb with ⟨_, rfl⟩ | ⟨_, rfl⟩ <;>
        rcases loopArena_single hv with ⟨h, _⟩ | ⟨h, _⟩ <;> cases h

theorem layout_executions_loopArena : ∃ c, layout loopArena 5 0 1 = some c ∧
      (flat c).Ends 0 [.exec (.call (.preg .w64 .rax) 0 0), .branch true, .exec (.call (.preg .w64 .rax) 0 0),
        .branch false] .ret := by
  obtain ⟨c, hc, _, hends⟩ := layout_executions loopArena_emitted
  refine ⟨c, hc, (hends _ _).mp ⟨[.ret], ?_, .leaves rfl⟩⟩
  have hcall : (walk loopArena).Run (loopArena 0).instructions [.exec (.call (.preg .w64 .rax) 0 0)]
      [.jne (.target 2), .jmp (.target 3)] :=
    .head (l := none) (WalkStep.exec rfl) (.head (l := some _) (WalkStep.exec rfl)
      (.head (l := none) (WalkStep.exec rfl) (.refl _)))
  refine hcall.trans (.head (l := some _) (WalkStep.taken (t := 2)) ?_)
  refine .head (l := none) (WalkStep.jmp (t := 0)) (hcall.trans ?_)
  refine .head (l := some _) (WalkStep.passed (t := 2)) ?_
  refine .head (l := none) (WalkStep.jmp (t := 3)) ?_
  exact .head (l := none) (WalkStep.jmp (t := 4)) (.refl _)

end Icewind.X86
