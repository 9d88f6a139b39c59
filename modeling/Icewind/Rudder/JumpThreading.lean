import Icewind.Rudder.Outcomes
import Icewind.Rudder.PurityExact
import Mathlib.Algebra.Order.BigOperators.Group.List
import Mathlib.Algebra.Order.Ring.Nat
import Mathlib.Data.Finset.Range
import Mathlib.Data.Finset.Card

/-!
# Jump threading

Model of `borealis/src/rudder/opt/jump_threading.rs`.

* `targetForThreadable`, `runOnBlock`, `run` — the pass; `repeated` — the pass, again and again while it
  reports a change.
* `Threads.unseen` — sending one jump or branch on to where its target jumps cannot be seen.
* `Ranks` — a number for each block that becomes smaller along blocks that are a single jump.  There is one
  if they make no cycle (`exists_ranks`), and it is one still after the pass (`Threads.ready`).
* `jumpThreading_unseen` — the pass cannot be seen, and repeating it ends.
-/

namespace Icewind.Rudder.JumpThreading

open Relation List Option

/-! ### The pass -/

/-- `target_for_threadable`. -/
def targetForThreadable (f : Function) (b : BlockRef) : Option BlockRef :=
  if (f.block b).statements.length = 1 then
    (f.block b).terminatorStatement.bind fun terminator =>
      match (f.block b).arena terminator with
      | .jump target => some target
      | _ => none
  else none

/-- `run_on_block`; `none` is the panic on a block without statements. -/
def runOnBlock (f : Function) (b : BlockRef) : Option (Function × Bool) :=
  (f.block b).terminatorStatement.map fun terminator =>
    match (f.block b).arena terminator with
    | .jump target =>
      match targetForThreadable f target with
      | some threadTo => (f.setBlock b ((f.block b).set terminator (.jump threadTo)), true)
      | none => (f, false)
    | .branch condition trueTarget falseTarget =>
      if (targetForThreadable f trueTarget).isSome || (targetForThreadable f falseTarget).isSome then
        (f.setBlock b ((f.block b).set terminator (.branch condition
          ((targetForThreadable f trueTarget).getD trueTarget)
          ((targetForThreadable f falseTarget).getD falseTarget))), true)
      else (f, false)
    | _ => (f, false)

def runOnBlocks : List BlockRef → Function → Option (Function × Bool) := forEach runOnBlock

def run (f : Function) : Option (Function × Bool) := runOnBlocks f.blockIter f

/-- The pass is run again while it reports a change, at most so many times. -/
def repeated : Nat → Function → Option Function
  | 0, _ => none
  | n + 1, f => (run f).bind fun (f, changed) => if changed then repeated n f else some f

/-! ### One block -/

/-- A block that consists of a single jump. -/
def SingleJump (f : Function) (b target : BlockRef) : Prop :=
  ∃ r, (f.block b).statements = [r] ∧ (f.block b).arena r = .jump target

variable {f : Function} {b target : BlockRef}

theorem targetForThreadable_eq_some : targetForThreadable f b = some target ↔ SingleJump f b target := by
  unfold targetForThreadable SingleJump Block.terminatorStatement
  split
  · rename_i hlen
    obtain ⟨r, hr⟩ := length_eq_one_iff.mp hlen
    rw [hr]
    change (match (f.block b).arena r with | .jump target => some target | _ => none) = some target ↔ _
    refine ⟨fun h => ⟨r, rfl, ?_⟩, ?_⟩
    · split at h
      · rename_i t heq
        cases h
        exact heq
      · cases h
    · rintro ⟨r', hr', hjump⟩
      cases hr'
      rw [hjump]
  · rename_i hlen
    refine ⟨fun h => (by cases h), ?_⟩
    rintro ⟨r, hr, -⟩
    rw [hr] at hlen
    exact absurd rfl hlen

/-- A target that stays, or is sent on to where it jumps. -/
def SentOn (f : Function) (target target' : BlockRef) : Prop := target' = target ∨ SingleJump f target target'

/-- The statement goes where it went, or is sent on from there. -/
inductive Retargets (f : Function) : Statement Ref → Statement Ref → Prop
  | jump {target target' : BlockRef} (h : SingleJump f target target') : Retargets f (.jump target) (.jump target')
  | branch {condition : Ref} {trueTarget falseTarget trueTarget' falseTarget' : BlockRef}
      (ht : SentOn f trueTarget trueTarget') (hf : SentOn f falseTarget falseTarget')
      (hsome : SingleJump f trueTarget trueTarget' ∨ SingleJump f falseTarget falseTarget') :
      Retargets f (.branch condition trueTarget falseTarget) (.branch condition trueTarget' falseTarget')

/-- The terminator of the block is replaced by one that sends on. -/
structure Threads (f : Function) (b : BlockRef) (f' : Function) : Prop where
  step : ∃ terminator s, (f.block b).terminatorStatement = some terminator ∧
    Retargets f ((f.block b).arena terminator) s ∧ f' = f.setBlock b ((f.block b).set terminator s)

theorem sentOn_getD (f : Function) (target : BlockRef) :
    SentOn f target ((targetForThreadable f target).getD target) := by
  cases h : targetForThreadable f target with
  | none => exact .inl rfl
  | some target' => exact .inr (targetForThreadable_eq_some.mp h)

variable {f' : Function}

/-- **What the pass does to a block.** -/
theorem runOnBlock_cases {changed : Bool} (h : runOnBlock f b = some (f', changed)) :
    (changed = false ∧ f' = f) ∨ (changed = true ∧ Threads f b f') := by
  obtain ⟨terminator, hterminator, h⟩ := map_eq_some_iff.mp h
  split at h
  · rename_i target harena
    split at h
    · rename_i threadTo hto
      cases h
      refine .inr ⟨rfl, terminator, _, hterminator, ?_, rfl⟩
      rw [harena]
      exact .jump (targetForThreadable_eq_some.mp hto)
    · cases h
      exact .inl ⟨rfl, rfl⟩
  · rename_i condition trueTarget falseTarget harena
    split at h
    · rename_i hsome
      cases h
      refine .inr ⟨rfl, terminator, _, hterminator, ?_, rfl⟩
      rw [harena]
      refine .branch (sentOn_getD f trueTarget) (sentOn_getD f falseTarget) ?_
      rcases Bool.or_eq_true_iff.mp hsome with hsome | hsome
      · obtain ⟨target, htarget⟩ := isSome_iff_exists.mp hsome
        rw [htarget]
        exact .inl (targetForThreadable_eq_some.mp htarget)
      · obtain ⟨target, htarget⟩ := isSome_iff_exists.mp hsome
        rw [htarget]
        exact .inr (targetForThreadable_eq_some.mp htarget)
    · cases h
      exact .inl ⟨rfl, rfl⟩
  · cases h
    exact .inl ⟨rfl, rfl⟩

variable {terminator : Ref}

/-- Jumps and branches have no type and are no constants, so that types do not change. -/
theorem Retargets.sourceTyp {b : Block} {s : Statement Ref} (h : Retargets f (b.arena terminator) s) (x : Ref) :
    (b.set terminator s).sourceTyp x = b.sourceTyp x := by
  refine Block.sourceTyp_congr (by rfl) (fun x => ?_) x
  by_cases hx : x = terminator
  · subst hx
    rw [b.set_arena_self]
    generalize b.arena x = old at h
    cases h <;> rfl
  · rw [b.set_arena_of_ne s hx]

variable {μ : Type} (env : Environment μ)

/-- The block is left for the target it was left for, or for the one it is sent on to. -/
inductive SendsOn (f : Function) : BlockOutcome μ → BlockOutcome μ → Prop
  | same (o : BlockOutcome μ) : SendsOn f o o
  | on {target target' : BlockRef} {locals : Locals} {flags : Nat} {s : Seen μ} (h : SingleJump f target target') :
      SendsOn f (.next target locals flags s) (.next target' locals flags s)

variable {target' : BlockRef}

theorem SentOn.sendsOn (h : SentOn f target target') (locals : Locals) (flags : Nat) (s : Seen μ) :
    SendsOn f (.next target locals flags s) (.next target' locals flags s) := by
  rcases h with rfl | h
  · exact .same _
  · exact .on h

variable {new : Statement Ref} {old : Statement Ref}

theorem Retargets.statement (h : Retargets f old new) (call : Observes μ) (sourceTyp : Option Typ) (fr : Frame)
    (s : Seen μ) :
    (∃ target target', SentOn f target target' ∧
      observeExec env call sourceTyp fr.locals fr.flags s (old.map fr.values) = .goto target ∧
      observeExec env call sourceTyp fr.locals fr.flags s (new.map fr.values) = .goto target') ∨
    (∃ t, observeExec env call sourceTyp fr.locals fr.flags s (old.map fr.values) = .panicked t ∧
      observeExec env call sourceTyp fr.locals fr.flags s (new.map fr.values) = .panicked t) := by
  cases h with
  | jump h => exact .inl ⟨_, _, .inr h, rfl, rfl⟩
  | branch ht hf hsome =>
    rename_i condition trueTarget falseTarget trueTarget' falseTarget'
    simp only [observeExec, Statement.map, exec]
    cases resolveU64 (fr.values condition) with
    | none => exact .inr ⟨s, rfl, rfl⟩
    | some v =>
      refine .inl ⟨if v ≠ 0 then trueTarget else falseTarget, if v ≠ 0 then trueTarget' else falseTarget', ?_, rfl, rfl⟩
      split
      · exact ht
      · exact hf

theorem Retargets.statements {b : Block} (h : Retargets f (b.arena terminator) new) (call : Observes μ) :
    ∀ (l : List Ref) (fr : Frame) (s : Seen μ),
    SendsOn f (observeStatements env call b l fr s) (observeStatements env call (b.set terminator new) l fr s)
  | [], _, s => .same (.panicked s)
  | r :: rest, fr, s => by
    unfold observeStatements observeStatement
    rw [h.sourceTyp r]
    by_cases hr : r = terminator
    · subst hr
      rw [b.set_arena_self]
      rcases h.statement env call (b.sourceTyp r) fr s with ⟨target, target', hsent, hold, hnew⟩ | ⟨t, hold, hnew⟩
      · rw [hold, hnew]
        exact hsent.sendsOn _ _ _
      · rw [hold, hnew]
        exact .same _
    · rw [b.set_arena_of_ne new hr]
      cases observeExec env call (b.sourceTyp r) fr.locals fr.flags s ((b.arena r).map fr.values) with
      | next value locals flags t => exact h.statements call rest _ t
      | goto | return_ | panicked | timeout => exact .same _

theorem SingleJump.observeBlock (h : SingleJump f b target) (call : Observes μ) (locals : Locals) (flags : Nat)
    (s : Seen μ) : Rudder.observeBlock env call (f.block b) locals flags s = .next target locals flags s := by
  obtain ⟨r, hr, hjump⟩ := h
  unfold Rudder.observeBlock
  rw [hr, observeStatements, observeStatement, hjump]
  rfl

theorem Threads.fuses (h : Threads f b f') : Fuses env f f' := by
  obtain ⟨terminator, new, -, hretargets, rfl⟩ := h.step
  intro call b' locals flags s
  by_cases hb : b' = b
  · subst hb
    rw [f.setBlock_block_self]
    have hsends := hretargets.statements env call (f.block b').statements (.enter locals flags) s
    change SendsOn f (observeBlock env call (f.block b') locals flags s)
      (observeBlock env call ((f.block b').set terminator new) locals flags s) at hsends
    generalize observeBlock env call (f.block b') locals flags s = o at hsends
    generalize observeBlock env call ((f.block b').set terminator new) locals flags s = o' at hsends
    cases hsends with
    | same => exact .inl rfl
    | on hjump => exact .inr ⟨_, _, _, _, rfl, (hjump.observeBlock env call _ _ _).symm⟩
  · rw [f.setBlock_block_of_ne _ hb]
    exact .inl rfl

/-- **Sending a jump or a branch on cannot be seen.** -/
theorem Threads.unseen (h : Threads f b f') : Unseen env f f' := by
  obtain ⟨terminator, new, -, -, hf'⟩ := h.step
  refine .of_fuses env ?_ ?_ (h.fuses env)
  · rw [hf']
    rfl
  · rw [hf']
    rfl

/-! ### The pass ends -/

/-- Every block has a terminator. -/
def Terminated (f : Function) : Prop := ∀ b < f.blockCount, (f.block b).statements ≠ []

/-- A number that becomes smaller along blocks that are a single jump. -/
def Ranks (f : Function) (rank : BlockRef → Nat) : Prop :=
  ∀ b < f.blockCount, ∀ target, SingleJump f b target → rank target < rank b

/-- What a function has to be for the pass. -/
structure Ready (f : Function) (rank : BlockRef → Nat) : Prop where
  refs : f.RefsValid
  terminated : Terminated f
  ranks : Ranks f rank

/-- The ranks of the targets of a statement. -/
def weight (rank : BlockRef → Nat) (s : Statement Ref) : Nat := (s.targets.map rank).sum

/-- The ranks of the targets of all blocks. -/
def totalWeight (rank : BlockRef → Nat) (f : Function) : Nat :=
  ((List.range f.blockCount).map fun b =>
    ((f.block b).statements.map fun r => weight rank ((f.block b).arena r)).sum).sum

variable {rank : BlockRef → Nat}

theorem SentOn.rank_le (hrank : Ranks f rank) (htarget : target < f.blockCount) (h : SentOn f target target') :
    rank target' ≤ rank target := by
  rcases h with rfl | h
  · exact Nat.le_refl _
  · exact Nat.le_of_lt (hrank _ htarget _ h)

theorem Retargets.weight_lt (hrank : Ranks f rank) (h : Retargets f old new)
    (hold : ∀ t ∈ old.targets, t < f.blockCount) : weight rank new < weight rank old := by
  cases h with
  | jump h =>
    have hlt := hrank _ (hold _ (mem_singleton_self _)) _ h
    simp only [weight, Statement.targets, map_cons, map_nil, sum_cons, sum_nil]
    omega
  | branch ht hf hsome =>
    have htrue := hold _ mem_cons_self
    have hfalse := hold _ (mem_cons_of_mem _ (mem_singleton_self _))
    have hle := ht.rank_le hrank htrue
    have hle' := hf.rank_le hrank hfalse
    simp only [weight, Statement.targets, map_cons, map_nil, sum_cons, sum_nil]
    rcases hsome with h | h
    · have hlt := hrank _ htrue _ h
      omega
    · have hlt := hrank _ hfalse _ h
      omega

theorem Threads.totalWeight_lt (hf : Ready f rank) (hb : b < f.blockCount) (h : Threads f b f') :
    totalWeight rank f' < totalWeight rank f := by
  obtain ⟨terminator, new, hterminator, hretargets, rfl⟩ := h.step
  have hlt := hretargets.weight_lt hf.ranks fun t ht =>
    hf.refs.targets b hb t (Block.mem_targets.mpr ⟨terminator, mem_of_getLast? hterminator, ht⟩)
  -- only the terminator of the one block counts for less
  have hblock : (((f.block b).set terminator new).statements.map fun r =>
      weight rank (((f.block b).set terminator new).arena r)).sum <
      ((f.block b).statements.map fun r => weight rank ((f.block b).arena r)).sum := by
    refine sum_lt_sum _ _ (fun r hr => ?_) ⟨terminator, mem_of_getLast? hterminator, ?_⟩
    · by_cases hr : r = terminator
      · subst hr
        rw [Block.set_arena_self]
        exact Nat.le_of_lt hlt
      · rw [Block.set_arena_of_ne _ new hr]
    · rw [Block.set_arena_self]
      exact hlt
  refine sum_lt_sum _ _ (fun c _ => ?_) ⟨b, mem_range.mpr hb, ?_⟩
  · by_cases hc : c = b
    · subst hc
      rw [f.setBlock_block_self]
      exact Nat.le_of_lt hblock
    · rw [f.setBlock_block_of_ne _ hc]
  · rw [f.setBlock_block_self]
    exact hblock

theorem SingleJump.target_lt (h : SingleJump f b target) (hrefs : f.RefsValid) (hb : b < f.blockCount) :
    target < f.blockCount := by
  obtain ⟨r, hr, hjump⟩ := h
  refine hrefs.targets b hb target (Block.mem_targets.mpr ⟨r, by rw [hr]; exact mem_singleton_self r, ?_⟩)
  rw [hjump]
  exact mem_singleton_self target

theorem Retargets.targets (hrefs : f.RefsValid) (h : Retargets f old new) (hold : ∀ t ∈ old.targets, t < f.blockCount) :
    ∀ t ∈ new.targets, t < f.blockCount := by
  have hsent : ∀ {t t'}, t < f.blockCount → SentOn f t t' → t' < f.blockCount := by
    rintro t t' ht (rfl | h)
    · exact ht
    · exact h.target_lt hrefs ht
  cases h with
  | jump h =>
    intro t ht
    rw [mem_singleton.mp ht]
    exact h.target_lt hrefs (hold _ (mem_singleton_self _))
  | branch hst hsf hsome =>
    intro t ht
    rcases mem_cons.mp ht with rfl | ht
    · exact hsent (hold _ mem_cons_self) hst
    · rw [mem_singleton.mp ht]
      exact hsent (hold _ (mem_cons_of_mem _ (mem_singleton_self _))) hsf

theorem Threads.ready (hf : Ready f rank) (hb : b < f.blockCount) (h : Threads f b f') :
    Ready f' rank ∧ f'.blockCount = f.blockCount := by
  obtain ⟨terminator, new, hterminator, hretargets, rfl⟩ := h.step
  have hmem := mem_of_getLast? hterminator
  refine ⟨⟨⟨hf.refs.entry, fun c hc t ht => ?_⟩, fun c hc => ?_, fun c hc target hjump => ?_⟩, rfl⟩
  · by_cases hcb : c = b
    · subst hcb
      rw [f.setBlock_block_self] at ht
      obtain ⟨r, hr, htr⟩ := Block.mem_targets.mp ht
      by_cases hrt : r = terminator
      · subst hrt
        rw [Block.set_arena_self] at htr
        exact hretargets.targets hf.refs (fun t ht => hf.refs.targets c hc t (Block.mem_targets.mpr ⟨r, hmem, ht⟩)) t htr
      · rw [Block.set_arena_of_ne _ new hrt] at htr
        exact hf.refs.targets c hc t (Block.mem_targets.mpr ⟨r, hr, htr⟩)
    · rw [f.setBlock_block_of_ne _ hcb] at ht
      exact hf.refs.targets c hc t ht
  · by_cases hcb : c = b
    · subst hcb
      rw [f.setBlock_block_self]
      exact hf.terminated c hc
    · rw [f.setBlock_block_of_ne _ hcb]
      exact hf.terminated c hc
  · -- a block that is a single jump still goes to something smaller
    obtain ⟨r, hr, hjump⟩ := hjump
    by_cases hcb : c = b
    · subst hcb
      rw [f.setBlock_block_self] at hr hjump
      rw [Block.set_statements] at hr
      have hrt : terminator = r := by
        rw [hr] at hmem
        exact mem_singleton.mp hmem
      subst hrt
      rw [Block.set_arena_self] at hjump
      rw [hjump] at hretargets
      generalize hold : (f.block c).arena terminator = old at hretargets
      cases hretargets with
      | jump h =>
        have hfirst : SingleJump f c _ := ⟨terminator, hr, hold⟩
        exact Nat.lt_trans (hf.ranks _ (hfirst.target_lt hf.refs hc) _ h) (hf.ranks c hc _ hfirst)
    · rw [f.setBlock_block_of_ne _ hcb] at hr hjump
      exact hf.ranks c hc target ⟨r, hr, hjump⟩

/-- **The pass over some blocks.** -/
theorem runOnBlocks_spec : ∀ {l : List BlockRef} {f : Function}, Ready f rank →
    (∀ b ∈ l, b < f.blockCount) → ∃ f' changed, runOnBlocks l f = some (f', changed) ∧ Unseen env f f' ∧
      Ready f' rank ∧ totalWeight rank f' ≤ totalWeight rank f ∧
      (changed = true → totalWeight rank f' < totalWeight rank f)
  | [], f, hf, _ => ⟨f, false, rfl, .refl env f, hf, Nat.le_refl _, fun h => (by cases h)⟩
  | b :: rest, f, hf, hl => by
    have hb := hl b mem_cons_self
    have hrest : ∀ c ∈ rest, c < f.blockCount := fun c hc => hl c (mem_cons_of_mem b hc)
    obtain ⟨⟨f1, changed1⟩, hrun⟩ : ∃ r, runOnBlock f b = some r := by
      obtain ⟨terminator, hterminator⟩ : ∃ r, (f.block b).terminatorStatement = some r :=
        ⟨_, List.getLast?_eq_some_getLast (hf.terminated b hb)⟩
      unfold runOnBlock
      rw [hterminator]
      exact ⟨_, rfl⟩
    rcases runOnBlock_cases hrun with ⟨rfl, rfl⟩ | ⟨rfl, hthreads⟩
    · obtain ⟨f2, changed2, hrun2, hunseen, hready, hle, hlt⟩ := runOnBlocks_spec hf hrest
      exact ⟨f2, _, forEach_cons hrun hrun2, hunseen, hready, hle, hlt⟩
    · obtain ⟨hready1, hcount⟩ := hthreads.ready hf hb
      have hlt1 := hthreads.totalWeight_lt hf hb
      obtain ⟨f2, changed2, hrun2, hunseen, hready, hle, hlt⟩ :=
        runOnBlocks_spec hready1 fun c hc => (by rw [hcount]; exact hrest c hc)
      exact ⟨f2, _, forEach_cons hrun hrun2, (hthreads.unseen env).trans env hunseen, hready,
        Nat.le_of_lt (Nat.lt_of_le_of_lt hle hlt1), fun _ => Nat.lt_of_le_of_lt hle hlt1⟩

theorem reached_lt (hf : f.RefsValid) (h : f.Reached b) : b < f.blockCount := by
  induction h with
  | refl => exact hf.entry
  | tail _ ht ih => exact hf.targets _ ih _ ht

theorem run_spec (hf : Ready f rank) : ∃ f' changed, run f = some (f', changed) ∧ Unseen env f f' ∧ Ready f' rank ∧
      (changed = true → totalWeight rank f' < totalWeight rank f) := by
  obtain ⟨f', changed, hrun, hunseen, hready, -, hlt⟩ := runOnBlocks_spec env hf
    fun b hb => reached_lt hf.refs ((Function.mem_blockIter_iff hf.refs).mp hb)
  exact ⟨f', changed, hrun, hunseen, hready, hlt⟩

theorem repeated_spec : ∀ (n : Nat) {f : Function}, Ready f rank → totalWeight rank f < n →
    ∃ f', repeated n f = some f' ∧ Unseen env f f'
  | 0, _, _, h => absurd h (Nat.not_lt_zero _)
  | n + 1, f, hf, h => by
    obtain ⟨f1, changed, hrun, hunseen, hready, hlt⟩ := run_spec env hf
    unfold repeated
    rw [hrun, bind_some]
    dsimp only
    cases changed with
    | false => exact ⟨f1, rfl, hunseen⟩
    | true =>
      obtain ⟨f2, hrepeated, hunseen2⟩ := repeated_spec n hready (Nat.lt_of_lt_of_le (hlt rfl) (Nat.le_of_lt_succ h))
      exact ⟨f2, hrepeated, hunseen.trans env hunseen2⟩

/-! ### Ranks -/

open Classical in
/-- **Blocks that are a single jump and make no cycle have ranks**: the number of blocks that can be reached
through them. -/
theorem exists_ranks (hf : f.RefsValid) (h : ∀ b < f.blockCount, ¬ TransGen (SingleJump f) b b) :
    ∃ rank : BlockRef → Nat, Ranks f rank := by
  refine ⟨fun b => ((Finset.range f.blockCount).filter fun t => TransGen (SingleJump f) b t).card,
    fun b hb target hjump => ?_⟩
  have htarget : target < f.blockCount := hjump.target_lt hf hb
  refine Finset.card_lt_card ((Finset.ssubset_iff_of_subset fun t ht => ?_).mpr ⟨target, ?_, fun hmem => ?_⟩)
  · rw [Finset.mem_filter] at ht ⊢
    exact ⟨ht.1, .head hjump ht.2⟩
  · rw [Finset.mem_filter]
    exact ⟨Finset.mem_range.mpr htarget, .single hjump⟩
  · exact h target htarget (Finset.mem_filter.mp hmem).2

/-- **Jump threading cannot be seen, and repeating the pass while it reports a change ends.** -/
theorem jumpThreading_unseen (f : Function) (hrefs : f.RefsValid) (hterminated : Terminated f)
    (hcycle : ∀ b < f.blockCount, ¬ TransGen (SingleJump f) b b) :
    (∃ f' changed, run f = some (f', changed) ∧ Unseen env f f') ∧
      ∃ n f', repeated n f = some f' ∧ Unseen env f f' := by
  obtain ⟨rank, hranks⟩ := exists_ranks hrefs hcycle
  have hready : Ready f rank := ⟨hrefs, hterminated, hranks⟩
  obtain ⟨f', changed, hrun, hunseen, -, -⟩ := run_spec env hready
  exact ⟨⟨f', changed, hrun, hunseen⟩, _, repeated_spec env _ hready (Nat.lt_succ_self _)⟩

/-- Two blocks that jump, and one that returns. -/
def twoJumps : Function :=
  ⟨[], [], 3, fun b => ⟨1, fun _ => if b < 2 then .jump (b + 1) else .return_ none, [0]⟩, 0⟩

theorem jumpThreading_unseen_twoJumps : ∃ f', run twoJumps = some (f', true) ∧ (f'.block 0).targets = [2] ∧
      Unseen (μ := Unit) ⟨true, 0, [], 0, fun _ _ _ => none, fun _ _ _ => none, fun _ _ _ _ _ => none, fun _ => none,
        fun _ => none⟩ twoJumps f' := by
  have hjump : ∀ b target, SingleJump twoJumps b target → b < target := by
    rintro b target ⟨r, -, hr⟩
    change (if b < 2 then Statement.jump (b + 1) else .return_ none) = .jump target at hr
    split at hr <;> cases hr
    exact Nat.lt_succ_self b
  have hcycle : ∀ b target, TransGen (SingleJump twoJumps) b target → b < target := by
    intro b target h
    induction h with
    | single h => exact hjump _ _ h
    | tail _ h ih => exact Nat.lt_trans ih (hjump _ _ h)
  obtain ⟨⟨f', changed, hrun, hunseen⟩, -⟩ := jumpThreading_unseen (μ := Unit)
    ⟨true, 0, [], 0, fun _ _ _ => none, fun _ _ _ => none, fun _ _ _ _ _ => none, fun _ => none, fun _ => none⟩ twoJumps
    ⟨by decide, fun b hb t ht => by
      obtain ⟨r, -, hr⟩ := Block.mem_targets.mp ht
      change t ∈ (if b < 2 then Statement.jump (b + 1) else .return_ none : Statement Ref).targets at hr
      split at hr
      · rw [mem_singleton.mp hr]
        change b + 1 < 3
        omega
      · cases hr⟩
    (fun _ _ h => by cases h) (fun b _ h => Nat.lt_irrefl b (hcycle b b h))
  cases hrun
  exact ⟨_, rfl, rfl, hunseen⟩

end Icewind.Rudder.JumpThreading
