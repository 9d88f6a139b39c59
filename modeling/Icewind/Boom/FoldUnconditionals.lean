import Icewind.Boom.Parents
import Mathlib.Data.Finset.Card
import Mathlib.Data.Finset.Range

/-!
# Folding unconditional jumps

Model of `borealis/src/boom/passes/fold_unconditionals.rs`.

* `Runtime` — what the pass does not fix: in which order the set of parents is walked, and which blocks are freed
  between two iterations.  A block that is held or referred to stays.  `Runtime.refCounting` is one.
* `visit`, `foldGraph` — the pass.
* `Rewrites` — what one iteration does to the code of the graph.
* `ReachesExit` — from the block a return or a panic can be reached.  An empty block that jumps to itself cannot.
* `FoldInv`, `visit_spec` — an iteration does not panic, keeps the graph linked, and makes `cost` smaller.
* `foldLoop_spec` — so the pass ends.
-/

namespace Icewind.Boom

open List Function

/-! ### The pass -/

/-- The order in which the parents of a block come out of their hash set, and which blocks are still allocated after
an iteration, from the blocks that are held. -/
structure Runtime where
  order : Heap → BlockId → List BlockId
  order_perm : ∀ h b, (order h b).Perm (h.parentsOf b)
  collect : Heap → List BlockId → BlockId → Bool
  collect_live : ∀ h roots b, collect h roots b → h.live b
  collect_root : ∀ h roots, (∀ r ∈ roots, h.live r) → ∀ r ∈ roots, collect h roots r
  collect_closed : ∀ h roots, h.Linked → ∀ b, collect h roots b → ∀ t ∈ h.targets b, collect h roots t

/-! Reference counting satisfies these laws. -/

/-- The blocks that are still referred to, when only the blocks of `live` are left. -/
def Heap.referenced (h : Heap) (roots : List BlockId) (live : BlockId → Bool) (b : BlockId) : Bool :=
  live b && (roots.contains b || (List.range h.next).any fun p => live p && (h.targets p).contains b)

variable {b : BlockId} {h : Heap} {live : BlockId → Bool} {roots : List BlockId}

theorem Heap.referenced_iff :
    h.referenced roots live b ↔ live b ∧ (b ∈ roots ∨ ∃ p < h.next, live p ∧ b ∈ h.targets p) := by
  simp [referenced]

/-- What the laws say of the blocks that stay. -/
structure Heap.Keeps (h : Heap) (roots : List BlockId) (live : BlockId → Bool) : Prop where
  was_live : ∀ b, live b → h.live b
  root : (∀ r ∈ roots, h.live r) → ∀ r ∈ roots, live r
  closed : h.Linked → ∀ b, live b → ∀ t ∈ h.targets b, live t

theorem Heap.Keeps.referenced (hk : h.Keeps roots live) : h.Keeps roots (h.referenced roots live) := by
  refine ⟨?_, ?_, ?_⟩
  · exact fun b hb => hk.was_live b (referenced_iff.mp hb).1
  · exact fun hroots r hr => referenced_iff.mpr ⟨hk.root hroots r hr, .inl hr⟩
  · intro hl b hb t ht
    have hblive := (referenced_iff.mp hb).1
    exact referenced_iff.mpr ⟨hk.closed hl b hblive t ht, .inr ⟨b, hl.live_lt b (hk.was_live b hblive), hblive, ht⟩⟩

/-- Freeing a block drops its references, so blocks are freed until none is without one. -/
def Heap.refCount (h : Heap) (roots : List BlockId) : BlockId → Bool := (h.referenced roots)^[h.next] h.live

theorem Heap.refCount_keeps (h : Heap) (roots : List BlockId) : h.Keeps roots (h.refCount roots) := by
  unfold refCount
  induction h.next with
  | zero => exact ⟨fun _ hb => hb, fun hroots => hroots, fun hl => hl.targets_live⟩
  | succ n ih =>
    rw [Function.iterate_succ_apply']
    exact ih.referenced

/-- Reference counting, and parents in the order in which they were added. -/
def Runtime.refCounting : Runtime where
  order h b := h.parentsOf b
  order_perm _ _ := .refl _
  collect := Heap.refCount
  collect_live h roots := (h.refCount_keeps roots).was_live
  collect_root h roots := (h.refCount_keeps roots).root
  collect_closed h roots := (h.refCount_keeps roots).closed

/-- The terminator of a parent of the current block, with the child in its place; `none` is a panic. -/
def Terminator.redirect (current child : BlockId) : Terminator → Option Terminator
  | .conditional condition target fallthrough =>
    match decide (target = current), decide (fallthrough = current) with
    | true, true => some (.unconditional child)
    | true, false => some (.conditional condition child fallthrough)
    | false, true => some (.conditional condition target child)
    | false, false => none
  | .unconditional target => if target = current then some (.unconditional child) else none
  | .ret _ | .panic _ => none

namespace FoldUnconditionals

structure FoldState where
  heap : Heap
  processed : List BlockId
  /-- The top of the stack comes first. -/
  toVisit : List BlockId
  didChange : Bool

/-- The body of the loop over the parents of an empty block. -/
def bypass (current child : BlockId) (h : Heap) (parent : BlockId) : Option Heap :=
  ((h.block parent).terminator.redirect current child).bind (h.setTerminator parent)

/-- The block is left as it is, and its targets are visited. -/
def process (st : FoldState) (current : BlockId) (rest : List BlockId) : FoldState :=
  { st with processed := current :: st.processed, toVisit := (st.heap.targets current).reverse ++ rest }

/-- The body of the loop; `none` is a failed assertion or another panic. -/
def visit (R : Runtime) (st : FoldState) (current : BlockId) (rest : List BlockId) : Option FoldState :=
  if current ∈ st.processed then some { st with toVisit := rest }
  else
    match (st.heap.block current).terminator with
    | .unconditional child =>
      if (st.heap.parentsOf child).length = 1 then
        if st.heap.parentsOf child = [current] ∧ current ≠ child then
          let statements := (st.heap.block current).statements ++ (st.heap.block child).statements
          let heap := st.heap.setStatements current statements
          (heap.setTerminator current (heap.block child).terminator).map fun heap =>
            { st with heap := heap, toVisit := current :: rest, didChange := true }
        else none
      else if (st.heap.block current).statements.isEmpty then
        ((R.order st.heap current).foldlM (bypass current child) st.heap).map fun heap =>
          { st with heap := heap, toVisit := (R.order heap current).reverse ++ rest, didChange := true }
      else some (process st current rest)
    | _ => some (process st current rest)

/-- The references of an iteration go away. -/
def collect (R : Runtime) (entry : BlockId) (st : FoldState) : FoldState :=
  { st with heap := { st.heap with live := R.collect st.heap (entry :: st.toVisit) } }

def foldLoop (R : Runtime) (entry : BlockId) : Nat → FoldState → Option FoldState
  | 0, _ => none
  | fuel + 1, st =>
    match st.toVisit with
    | [] => some st
    | current :: rest => (visit R st current rest).bind fun st => foldLoop R entry fuel (collect R entry st)

def foldGraph (R : Runtime) (fuel : Nat) (h : Heap) (entry : BlockId) : Option FoldState :=
  foldLoop R entry fuel ⟨h, [], [entry], false⟩

/-! ### What one iteration does -/

/-- What an iteration does to statements and terminators. -/
inductive Rewrites (h h' : Heap) : Prop
  | same (hcode : h'.code = h.code)
  | fold {current child : BlockId} (hjump : (h.block current).terminator = .unconditional child) (hne : child ≠ current)
      (hcode : h'.code = update h.code current ((h.code current).1 ++ (h.code child).1, (h.code child).2))
  | bypass {current child : BlockId} (hempty : h.code current = ([], .unconditional child))
      (hstatements : ∀ b, (h'.code b).1 = (h.code b).1)
      (hterminator : ∀ b, (h'.code b).2 = (h.code b).2 ∨ (h.code b).2.redirect current child = some (h'.code b).2)
      (hself : h'.code current = h.code current)

/-- From the block a return or a panic can be reached. -/
inductive ReachesExit (h : Heap) : BlockId → Prop
  | exit {b : BlockId} (hb : h.targets b = []) : ReachesExit h b
  | step {b t : BlockId} (ht : t ∈ h.targets b) (hexit : ReachesExit h t) : ReachesExit h b

theorem targets_eq (h : Heap) (b : BlockId) : h.targets b = (h.code b).2.targets := rfl

/-- A block that jumps to itself reaches no exit. -/
theorem ReachesExit.not_self (hexit : ReachesExit h b) : h.targets b ≠ [b] := by
  induction hexit with
  | exit hb =>
    rw [hb]
    nofun
  | step ht _ ih =>
    intro hself
    rw [hself] at ht
    rw [mem_singleton.mp ht] at ih
    exact ih hself

variable {current : BlockId} {t : Terminator}

theorem redirect_isSome (child : BlockId) (h : current ∈ t.targets) : ∃ t', t.redirect current child = some t' := by
  cases t with
  | ret | panic => cases h
  | unconditional target =>
    have heq : target = current := (mem_singleton.mp h).symm
    exact ⟨_, if_pos heq⟩
  | conditional condition target fallthrough =>
    simp only [Terminator.targets, mem_cons, not_mem_nil, or_false] at h
    unfold Terminator.redirect
    by_cases ht : target = current <;> by_cases hf : fallthrough = current
    · simp [ht, hf]
    · simp [ht, hf]
    · simp [ht, hf]
    · rcases h with h | h
      · exact absurd h.symm ht
      · exact absurd h.symm hf

variable {child : BlockId}

theorem redirect_targets {t t' : Terminator} (h : t.redirect current child = some t') :
    (∀ x ∈ t'.targets, x = child ∨ (x ≠ current ∧ x ∈ t.targets)) ∧
      ∀ x ∈ t.targets, (if x = current then child else x) ∈ t'.targets := by
  cases t with
  | ret | panic => cases h
  | unconditional target =>
    rw [Terminator.redirect] at h
    split at h
    · rename_i heq
      cases h
      refine ⟨fun x hx => .inl (mem_singleton.mp hx), fun x hx => ?_⟩
      rw [mem_singleton.mp hx, if_pos heq]
      exact mem_singleton_self child
    · cases h
  | conditional condition target fallthrough =>
    unfold Terminator.redirect at h
    by_cases ht : target = current <;> by_cases hf : fallthrough = current
    · simp only [ht, hf, decide_true] at h
      cases h
      refine ⟨fun x hx => .inl (mem_singleton.mp hx), fun x hx => ?_⟩
      simp only [Terminator.targets, ht, hf, mem_cons, not_mem_nil, or_false, or_self] at hx
      rw [if_pos hx]
      exact mem_singleton_self child
    · simp only [ht, hf, decide_true, decide_false] at h
      cases h
      simp only [Terminator.targets, mem_cons, not_mem_nil, or_false]
      refine ⟨?_, ?_⟩
      · rintro x (rfl | rfl)
        · exact .inl rfl
        · exact .inr ⟨hf, .inr rfl⟩
      · rintro x (rfl | rfl)
        · exact .inl (if_pos ht)
        · exact .inr (if_neg hf)
    · simp only [ht, hf, decide_true, decide_false] at h
      cases h
      simp only [Terminator.targets, mem_cons, not_mem_nil, or_false]
      refine ⟨?_, ?_⟩
      · rintro x (rfl | rfl)
        · exact .inr ⟨ht, .inl rfl⟩
        · exact .inl rfl
      · rintro x (rfl | rfl)
        · exact .inl (if_neg ht)
        · exact .inr (if_pos hf)
    · simp only [ht, hf, decide_false] at h
      cases h

/-- **Rewriting keeps the exits within reach.** -/
theorem Rewrites.reachesExit {h h' : Heap} (hrewrites : Rewrites h h') (hexit : ReachesExit h b) :
    ReachesExit h' b := by
  cases hrewrites with
  | same hcode =>
    induction hexit with
    | exit hb => exact .exit (by rw [targets_eq, hcode]; exact hb)
    | step ht _ ih => exact .step (by rw [targets_eq, hcode]; exact ht) ih
  | fold hjump hne hcode =>
    rename_i current child
    have hother : ∀ x, x ≠ current → h'.targets x = h.targets x := fun x hx => by
      rw [targets_eq, hcode, update_of_ne hx]
      rfl
    have hself : h'.targets current = h'.targets child := by
      rw [hother child hne, targets_eq, hcode, update_self]
      rfl
    induction hexit with
    | @exit x hb =>
      by_cases hx : x = current
      · rw [hx] at hb
        unfold Heap.targets at hb
        rw [hjump] at hb
        cases hb
      · exact .exit (by rw [hother x hx]; exact hb)
    | @step x t ht _ ih =>
      by_cases hx : x = current
      · subst hx
        unfold Heap.targets at ht
        rw [hjump] at ht
        rw [mem_singleton.mp ht] at ih
        -- the block now goes where its child goes
        cases ih with
        | exit hb => exact .exit (hself.trans hb)
        | step ht hexit => exact .step (by rw [hself]; exact ht) hexit
      · exact .step (by rw [hother x hx]; exact ht) ih
  | bypass hempty hstatements hterminator hself =>
    rename_i current child
    have hcurrent : h'.targets current = [child] := by
      rw [targets_eq, hself, hempty]
      rfl
    induction hexit with
    | @exit x hb =>
      rcases hterminator x with hx | hx
      · exact .exit (by rw [targets_eq, hx]; exact hb)
      · refine .exit (eq_nil_iff_forall_not_mem.mpr fun y hy => ?_)
        change (h.code x).2.targets = [] at hb
        cases hcode : (h.code x).2 with
        | ret | panic =>
          rw [hcode] at hx
          cases hx
        | unconditional | conditional =>
          rw [hcode] at hb
          cases hb
    | @step x t ht _ ih =>
      rcases hterminator x with hx | hx
      · exact .step (by rw [targets_eq, hx]; exact ht) ih
      · have htarget := (redirect_targets hx).2 t ht
        by_cases htc : t = current
        · rw [if_pos htc] at htarget
          refine .step htarget ?_
          rw [htc] at ih
          -- the empty block can only have got to the exit through its child
          cases ih with
          | exit hb =>
            rw [hcurrent] at hb
            cases hb
          | step ht hexit =>
            rw [hcurrent] at ht
            rw [← mem_singleton.mp ht]
            exact hexit
        · rw [if_neg htc] at htarget
          exact .step htarget ih

/-! ### The loop over the parents -/

theorem targets_update {h h' : Heap} {ss : List Statement} (hcode : h'.code = update h.code b (ss, t)) (x : BlockId) :
    h'.targets x = if x = b then t.targets else h.targets x := by
  rw [targets_eq, hcode, update_apply]
  split <;> rfl

/-- **All parents of an empty block are redirected.** -/
theorem bypass_spec (current child : BlockId) : ∀ {ps : List BlockId} {h : Heap}, h.Linked → ps.Nodup →
    (∀ p ∈ ps, h.live p ∧ current ∈ h.targets p) → h.live child →
    ∃ h', ps.foldlM (bypass current child) h = some h' ∧ h'.Linked ∧ h'.next = h.next ∧ h'.live = h.live ∧
      (∀ b, (h'.code b).1 = (h.code b).1) ∧ (∀ b, b ∉ ps → h'.code b = h.code b) ∧
      ∀ b ∈ ps, (h.code b).2.redirect current child = some (h'.code b).2
  | [], h, hl, _, _, _ => ⟨h, rfl, hl, rfl, rfl, fun _ => rfl, fun _ _ => rfl, fun _ hb => absurd hb not_mem_nil⟩
  | p :: ps, h, hl, hnodup, hparents, hchild => by
    obtain ⟨hp, hnodup⟩ := nodup_cons.mp hnodup
    obtain ⟨hplive, hptarget⟩ := hparents p mem_cons_self
    obtain ⟨t, ht⟩ := redirect_isSome child hptarget
    have htlive : ∀ x ∈ t.targets, h.live x := by
      intro x hx
      rcases (redirect_targets ht).1 x hx with rfl | ⟨-, hx⟩
      · exact hchild
      · exact hl.targets_live p hplive x hx
    obtain ⟨h1, hset, hl1, hnext1, hlive1, hcode1⟩ := Heap.setTerminator_linked hl hplive htlive
    have hother : ∀ b, b ≠ p → h1.code b = h.code b := fun b hb => by rw [hcode1, update_of_ne hb]
    obtain ⟨h', hfold, hl', hnext', hlive', hstatements', hsame', hredirect'⟩ :=
      bypass_spec current child hl1 hnodup (fun q hq => by
        have hne : q ≠ p := fun heq => hp (heq ▸ hq)
        obtain ⟨hqlive, hqtarget⟩ := hparents q (mem_cons_of_mem p hq)
        rw [hlive1, targets_eq, hother q hne]
        exact ⟨hqlive, hqtarget⟩) (by rw [hlive1]; exact hchild)
    refine ⟨h', ?_, hl', hnext'.trans hnext1, hlive'.trans hlive1, fun b => ?_, fun b hb => ?_, fun b hb => ?_⟩
    · have hbypass : bypass current child h p = some h1 := by
        unfold bypass
        rw [ht]
        exact hset
      rw [foldlM_cons, hbypass]
      exact hfold
    · rw [hstatements' b, hcode1, update_apply]
      split
      · rename_i heq
        rw [heq]
      · rfl
    · have hne : b ≠ p := fun heq => hb (heq ▸ mem_cons_self)
      rw [hsame' b fun h => hb (mem_cons_of_mem p h), hother b hne]
    · by_cases hbp : b = p
      · subst hbp
        rw [hsame' b hp, hcode1, update_self]
        exact ht
      · have hredirect := hredirect' b ((mem_cons.mp hb).resolve_left hbp)
        rwa [hother b hbp] at hredirect

/-! ### The invariant -/

/-- The invariant of the loop. -/
structure FoldInv (entry : BlockId) (st : FoldState) : Prop where
  linked : st.heap.Linked
  entry_live : st.heap.live entry
  visit_live : ∀ b ∈ st.toVisit, st.heap.live b
  exits : ∀ b, st.heap.live b → ReachesExit st.heap b

open Classical in
/-- The blocks that are a target of a live block. -/
noncomputable def targeted (h : Heap) : Finset BlockId :=
  (Finset.range h.next).filter fun x => ∃ b, h.live b ∧ x ∈ h.targets b

open Classical in
theorem mem_targeted (hl : h.Linked) {x : BlockId} : x ∈ targeted h ↔ ∃ b, h.live b ∧ x ∈ h.targets b := by
  unfold targeted
  rw [Finset.mem_filter]
  refine ⟨fun hx => hx.2, fun ⟨b, hb, hx⟩ => ⟨?_, b, hb, hx⟩⟩
  exact Finset.mem_range.mpr (hl.live_lt x (hl.targets_live b hb x hx))

/-- The blocks that have not been processed. -/
def unprocessed (st : FoldState) : Finset BlockId := (Finset.range st.heap.next).filter fun b => b ∉ st.processed

/-- What becomes smaller with every iteration: a fold takes away a target, processing a block can push two others. -/
noncomputable def cost (st : FoldState) : Nat :=
  (targeted st.heap).card + 3 * (unprocessed st).card + st.toVisit.length

variable {entry : BlockId} {st : FoldState}

variable (R : Runtime)

theorem collect_spec (h : FoldInv entry st) :
    FoldInv entry (collect R entry st) ∧ cost (collect R entry st) ≤ cost st ∧
      Rewrites st.heap (collect R entry st).heap := by
  have hroots : ∀ r ∈ entry :: st.toVisit, st.heap.live r := by
    intro r hr
    rcases mem_cons.mp hr with rfl | hr
    · exact h.entry_live
    · exact h.visit_live r hr
  have hroot := R.collect_root st.heap _ hroots
  have hsame : Rewrites st.heap (collect R entry st).heap := .same rfl
  have hlinked : (collect R entry st).heap.Linked :=
    h.linked.collect (R.collect_live st.heap _) (R.collect_closed st.heap _ h.linked)
  refine ⟨⟨hlinked, hroot entry mem_cons_self, fun b hb => hroot b (mem_cons_of_mem entry hb), fun b hb =>
    hsame.reachesExit (h.exits b (R.collect_live _ _ b hb))⟩, ?_, hsame⟩
  have hsub : targeted (collect R entry st).heap ⊆ targeted st.heap := by
    intro x hx
    obtain ⟨b, hb, hx⟩ := (mem_targeted hlinked).mp hx
    exact (mem_targeted h.linked).mpr ⟨b, R.collect_live _ _ b hb, hx⟩
  have hcard := Finset.card_le_card hsub
  change (targeted (collect R entry st).heap).card + 3 * (unprocessed st).card + st.toVisit.length ≤ cost st
  unfold cost
  omega

variable {rest : List BlockId}

theorem process_spec (h : FoldInv entry st) (hvisit : st.toVisit = current :: rest) (hcurrent : current ∉ st.processed) :
    FoldInv entry (process st current rest) ∧ cost (process st current rest) < cost st := by
  have hlive : st.heap.live current := h.visit_live current (by rw [hvisit]; exact mem_cons_self)
  refine ⟨⟨h.linked, h.entry_live, fun b hb => ?_, h.exits⟩, ?_⟩
  · rcases mem_append.mp hb with hb | hb
    · exact h.linked.targets_live current hlive b (mem_reverse.mp hb)
    · exact h.visit_live b (by rw [hvisit]; exact mem_cons_of_mem current hb)
  · have hless : (unprocessed (process st current rest)).card < (unprocessed st).card := by
      refine Finset.card_lt_card ((Finset.ssubset_iff_of_subset fun b hb => ?_).mpr ⟨current, ?_, fun hmem => ?_⟩)
      · obtain ⟨hlt, hb⟩ := Finset.mem_filter.mp hb
        exact Finset.mem_filter.mpr ⟨hlt, fun hmem => hb (mem_cons_of_mem current hmem)⟩
      · exact Finset.mem_filter.mpr ⟨Finset.mem_range.mpr (h.linked.live_lt current hlive), hcurrent⟩
      · exact (Finset.mem_filter.mp hmem).2 mem_cons_self
    have htwo : (st.heap.targets current).length ≤ 2 := by
      unfold Heap.targets
      cases (st.heap.block current).terminator <;> simp [Terminator.targets]
    have hlength : (process st current rest).toVisit.length = (st.heap.targets current).length + rest.length := by
      change ((st.heap.targets current).reverse ++ rest).length = _
      rw [length_append, length_reverse]
    have hlength' : st.toVisit.length = rest.length + 1 := by
      rw [hvisit]
      rfl
    have htargeted : (targeted (process st current rest).heap).card = (targeted st.heap).card := rfl
    unfold cost
    omega

theorem rewritten_spec (h : FoldInv entry st) (hvisit : st.toVisit = current :: rest) {heap : Heap}
    {toVisit : List BlockId} (hl : heap.Linked) (hnext : heap.next = st.heap.next) (hlive : heap.live = st.heap.live)
    (hrewrites : Rewrites st.heap heap) (hsub : toVisit ⊆ current :: rest) :
    FoldInv entry { st with heap := heap, toVisit := toVisit, didChange := true } ∧
      cost { st with heap := heap, toVisit := toVisit, didChange := true } =
        (targeted heap).card + 3 * (unprocessed st).card + toVisit.length := by
  refine ⟨⟨hl, ?_, fun b hb => ?_, fun b hb => ?_⟩, ?_⟩
  · change heap.live entry
    rw [hlive]
    exact h.entry_live
  · change heap.live b
    rw [hlive]
    exact h.visit_live b (by rw [hvisit]; exact hsub hb)
  · refine hrewrites.reachesExit (h.exits b ?_)
    rw [← hlive]
    exact hb
  · unfold cost unprocessed
    rw [hnext]

/-- **Folding a child into its only parent.** -/
theorem fold_spec (h : FoldInv entry st) (hvisit : st.toVisit = current :: rest)
    (hjump : (st.heap.block current).terminator = .unconditional child) (hparents : st.heap.parentsOf child = [current])
    (hne : child ≠ current) :
    ∃ heap, ((st.heap.setStatements current
        ((st.heap.block current).statements ++ (st.heap.block child).statements)).setTerminator current
        (((st.heap.setStatements current
          ((st.heap.block current).statements ++ (st.heap.block child).statements)).block child).terminator) = some heap) ∧
      FoldInv entry { st with heap := heap, toVisit := current :: rest, didChange := true } ∧
      cost { st with heap := heap, toVisit := current :: rest, didChange := true } < cost st ∧
      Rewrites st.heap heap := by
  have hcurrent : st.heap.live current := h.visit_live current (by rw [hvisit]; exact mem_cons_self)
  have hmem : child ∈ st.heap.targets current := by
    unfold Heap.targets
    rw [hjump]
    exact mem_singleton_self child
  have hchild := h.linked.targets_live current hcurrent child hmem
  generalize hss : (st.heap.block current).statements ++ (st.heap.block child).statements = ss
  have hl1 := Heap.setStatements_linked h.linked current ss
  have hcode1 := Heap.setStatements_code st.heap current ss
  have hterminator : ((st.heap.setStatements current ss).block child).terminator = (st.heap.code child).2 := by
    have hcode := congrFun hcode1 child
    rw [update_of_ne hne] at hcode
    exact congrArg Prod.snd hcode
  obtain ⟨heap, hset, hl, hnext, hlive, hcode⟩ := Heap.setTerminator_linked hl1 (b := current)
    (t := ((st.heap.setStatements current ss).block child).terminator) hcurrent fun x hx => by
      rw [hterminator] at hx
      exact h.linked.targets_live child hchild x hx
  have hcode' : heap.code = update st.heap.code current
      ((st.heap.code current).1 ++ (st.heap.code child).1, (st.heap.code child).2) := by
    rw [hcode, hterminator, hcode1, update_idem, update_self, ← hss]
    rfl
  have hrewrites : Rewrites st.heap heap := .fold hjump hne hcode'
  have htargets := targets_update hcode'
  -- the child is no longer a target
  have hfewer : (targeted heap).card < (targeted st.heap).card := by
    refine Finset.card_lt_card ((Finset.ssubset_iff_of_subset fun x hx => ?_).mpr ⟨child, ?_, fun hx => ?_⟩)
    · obtain ⟨b, hb, hx⟩ := (mem_targeted hl).mp hx
      rw [hlive] at hb
      rw [htargets b] at hx
      refine (mem_targeted h.linked).mpr ?_
      split at hx
      · exact ⟨child, hchild, hx⟩
      · exact ⟨b, hb, hx⟩
    · exact (mem_targeted h.linked).mpr ⟨current, hcurrent, hmem⟩
    · obtain ⟨b, hb, hx⟩ := (mem_targeted hl).mp hx
      rw [hlive] at hb
      rw [htargets b] at hx
      have honly : ∀ p, st.heap.live p → child ∈ st.heap.targets p → p = current := by
        intro p hp hpt
        have hmem := (h.linked.mem_parentsOf_iff hchild hp).mpr hpt
        rw [hparents] at hmem
        exact mem_singleton.mp hmem
      split at hx
      · exact hne (honly child hchild hx)
      · rename_i hbc
        exact hbc (honly b hb hx)
  obtain ⟨hinv, hcost⟩ := rewritten_spec h hvisit hl hnext hlive hrewrites (Subset.refl _)
  refine ⟨heap, hset, hinv, ?_, hrewrites⟩
  rw [hcost, cost, hvisit]
  omega

/-- **Bypassing an empty block.** -/
theorem empty_spec (h : FoldInv entry st) (hvisit : st.toVisit = current :: rest)
    (hempty : st.heap.code current = ([], .unconditional child)) :
    ∃ heap, (R.order st.heap current).foldlM (bypass current child) st.heap = some heap ∧ R.order heap current = [] ∧
      FoldInv entry { st with heap := heap, toVisit := rest, didChange := true } ∧
      cost { st with heap := heap, toVisit := rest, didChange := true } < cost st ∧ Rewrites st.heap heap := by
  have hcurrent : st.heap.live current := h.visit_live current (by rw [hvisit]; exact mem_cons_self)
  have hcurrentTargets : st.heap.targets current = [child] := by
    rw [targets_eq, hempty]
    rfl
  have hmem : child ∈ st.heap.targets current := by
    rw [hcurrentTargets]
    exact mem_singleton_self child
  have hchild := h.linked.targets_live current hcurrent child hmem
  have hne : child ≠ current := by
    rintro rfl
    exact (h.exits child hcurrent).not_self hcurrentTargets
  have hperm := R.order_perm st.heap current
  have hparents : ∀ p, p ∈ R.order st.heap current ↔ st.heap.live p ∧ current ∈ st.heap.targets p := by
    intro p
    rw [hperm.mem_iff]
    refine ⟨fun hp => ?_, fun ⟨hp, hpt⟩ => (h.linked.mem_parentsOf_iff hcurrent hp).mpr hpt⟩
    have hp' := (Heap.mem_parentsOf.mp hp).2
    exact ⟨hp', (h.linked.mem_parentsOf_iff hcurrent hp').mp hp⟩
  have hnodup : (R.order st.heap current).Nodup := hperm.nodup_iff.mpr ((h.linked.nodup current).filter _)
  obtain ⟨heap, hfold, hl, hnext, hlive, hstatements, hsame, hredirect⟩ :=
    bypass_spec current child h.linked hnodup (fun p hp => (hparents p).mp hp) hchild
  have hself : current ∉ R.order st.heap current := fun hmem => by
    have hmem' := ((hparents current).mp hmem).2
    rw [hcurrentTargets] at hmem'
    exact hne (mem_singleton.mp hmem').symm
  have hrewrites : Rewrites st.heap heap := by
    refine .bypass hempty hstatements (fun b => ?_) (hsame current hself)
    by_cases hb : b ∈ R.order st.heap current
    · exact .inr (hredirect b hb)
    · exact .inl (congrArg Prod.snd (hsame b hb))
  -- no block has the empty block as a target any more
  have hnone : ∀ p, st.heap.live p → current ∉ heap.targets p := by
    intro p hp hpt
    by_cases hpo : p ∈ R.order st.heap current
    · rcases (redirect_targets (hredirect p hpo)).1 current hpt with heq | ⟨hne', -⟩
      · exact hne heq.symm
      · exact hne' rfl
    · rw [targets_eq, hsame p hpo] at hpt
      exact hpo ((hparents p).mpr ⟨hp, hpt⟩)
  have horder : R.order heap current = [] := by
    have hparentsOf : heap.parentsOf current = [] := by
      refine eq_nil_iff_forall_not_mem.mpr fun p hp => ?_
      have hplive := (Heap.mem_parentsOf.mp hp).2
      have hcurrent' : heap.live current := by
        rw [hlive]
        exact hcurrent
      have hpt := (hl.mem_parentsOf_iff hcurrent' hplive).mp hp
      rw [hlive] at hplive
      exact hnone p hplive hpt
    have hperm' := R.order_perm heap current
    rw [hparentsOf] at hperm'
    exact hperm'.eq_nil
  have hsub : targeted heap ⊆ targeted st.heap := by
    intro x hx
    obtain ⟨b, hb, hx⟩ := (mem_targeted hl).mp hx
    rw [hlive] at hb
    refine (mem_targeted h.linked).mpr ?_
    by_cases hbo : b ∈ R.order st.heap current
    · rcases (redirect_targets (hredirect b hbo)).1 x hx with rfl | ⟨-, hx⟩
      · exact ⟨current, hcurrent, hmem⟩
      · exact ⟨b, hb, hx⟩
    · rw [targets_eq, hsame b hbo] at hx
      exact ⟨b, hb, hx⟩
  have hcard := Finset.card_le_card hsub
  obtain ⟨hinv, hcost⟩ := rewritten_spec h hvisit hl hnext hlive hrewrites (subset_cons_self current rest)
  refine ⟨heap, hfold, horder, hinv, ?_, hrewrites⟩
  rw [hcost, cost, hvisit, length_cons]
  omega

/-- **One iteration** does not panic, keeps the invariant and makes the cost smaller. -/
theorem visit_spec (h : FoldInv entry st) (hvisit : st.toVisit = current :: rest) :
    ∃ st', visit R st current rest = some st' ∧ FoldInv entry st' ∧ cost st' < cost st ∧ Rewrites st.heap st'.heap := by
  have hcurrent : st.heap.live current := h.visit_live current (by rw [hvisit]; exact mem_cons_self)
  have hlength : st.toVisit.length = rest.length + 1 := by
    rw [hvisit]
    rfl
  unfold visit
  split
  · refine ⟨_, rfl, ⟨h.linked, h.entry_live, fun b hb => h.visit_live b ?_, h.exits⟩, ?_, .same rfl⟩
    · rw [hvisit]
      exact mem_cons_of_mem current hb
    · change (targeted st.heap).card + 3 * (unprocessed st).card + rest.length < cost st
      unfold cost
      omega
  · rename_i hprocessed
    have hprocess := process_spec h hvisit hprocessed
    split
    · rename_i child hjump
      have hmem : child ∈ st.heap.targets current := by
        unfold Heap.targets
        rw [hjump]
        exact mem_singleton_self child
      have hchild := h.linked.targets_live current hcurrent child hmem
      have hne : child ≠ current := by
        rintro rfl
        refine (h.exits child hcurrent).not_self ?_
        unfold Heap.targets
        rw [hjump]
        rfl
      split
      · rename_i hone
        obtain ⟨p, hp⟩ := length_eq_one_iff.mp hone
        have hparent := (h.linked.mem_parentsOf_iff hchild hcurrent).mpr hmem
        rw [hp] at hparent
        rw [← mem_singleton.mp hparent] at hp
        rw [if_pos ⟨hp, hne.symm⟩]
        obtain ⟨heap, hset, hinv, hcost, hrewrites⟩ := fold_spec h hvisit hjump hp hne
        refine ⟨_, ?_, hinv, hcost, hrewrites⟩
        dsimp only
        rw [hset]
        rfl
      · split
        · rename_i hempty
          have hcode : st.heap.code current = ([], .unconditional child) :=
            Prod.ext (isEmpty_iff.mp hempty) hjump
          obtain ⟨heap, hfold, horder, hinv, hcost, hrewrites⟩ := empty_spec R h hvisit hcode
          refine ⟨_, ?_, hinv, hcost, hrewrites⟩
          rw [hfold, Option.map_some, horder]
          rfl
        · exact ⟨_, rfl, hprocess.1, hprocess.2, .same rfl⟩
    · exact ⟨_, rfl, hprocess.1, hprocess.2, .same rfl⟩

/-- The graph after some iterations. -/
inductive RewritesAll : Heap → Heap → Prop
  | refl (h : Heap) : RewritesAll h h
  | head {h₁ h₂ h₃ : Heap} (hfirst : Rewrites h₁ h₂) (hrest : RewritesAll h₂ h₃) : RewritesAll h₁ h₃

/-- **The loop ends**, with more fuel than the cost. -/
theorem foldLoop_spec (R : Runtime) : ∀ (fuel : Nat) {st : FoldState}, FoldInv entry st →
    cost st < fuel → ∃ st', foldLoop R entry fuel st = some st' ∧ RewritesAll st.heap st'.heap
  | 0, _, _, hfuel => absurd hfuel (Nat.not_lt_zero _)
  | fuel + 1, st, h, hfuel => by
    unfold foldLoop
    cases hvisit : st.toVisit with
    | nil => exact ⟨st, rfl, .refl _⟩
    | cons current rest =>
      obtain ⟨st1, hstep, hinv1, hcost1, hrewrites1⟩ := visit_spec R h hvisit
      obtain ⟨hinv2, hcost2, hrewrites2⟩ := collect_spec R hinv1
      obtain ⟨st', hloop, hall⟩ := foldLoop_spec R fuel hinv2 (by omega)
      refine ⟨st', ?_, .head hrewrites1 (.head hrewrites2 hall)⟩
      dsimp only
      rw [hstep]
      exact hloop

end FoldUnconditionals

end Icewind.Boom
