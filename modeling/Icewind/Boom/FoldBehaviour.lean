import Icewind.Boom.FoldUnconditionals
import Mathlib.Tactic.IntervalCases

/-!
# Folding preserves behaviour

* `Semantics` — what statements do to a state, and which conditions hold in it.  Conditions have no side effects.
* `Heap.machineIn` — execution of a graph from a state: its events are the statements, its results the returns and
  panics with the state they happen in.
* `Rewrites.bisimilar` — one iteration of the pass, by a relation of positions for each kind of rewriting.
* `foldGraph_preserves` — the pass.
-/

namespace Icewind.Boom

open Function

/-! ### Execution from a state -/

/-- A statement that cannot be executed stops the run. -/
structure Semantics (σ : Type) where
  exec : Statement → σ → Option σ
  holds : Value → σ → Bool

/-- How a run ends. -/
inductive End where
  | ret (value : Option Value)
  | panic (value : Value)
  | stopped (statement : Statement)

namespace Heap

variable {σ : Type} (S : Semantics σ)

inductive StepIn (h : Heap) : Pos × σ → Option Statement → Pos × σ → Prop where
  | exec {b : BlockId} {s : Statement} {rest : List Statement} {x x' : σ} (hexec : S.exec s x = some x') :
      StepIn h (⟨b, s :: rest⟩, x) (some s) (⟨b, rest⟩, x')
  | jump {b t : BlockId} {x : σ} (ht : (h.code b).2 = .unconditional t) :
      StepIn h (⟨b, []⟩, x) none (⟨t, (h.code t).1⟩, x)
  | branch {b t f : BlockId} {c : Value} {x : σ} (ht : (h.code b).2 = .conditional c t f) : StepIn h (⟨b, []⟩, x) none
        (⟨if S.holds c x then t else f, (h.code (if S.holds c x then t else f)).1⟩, x)

inductive FinalIn (h : Heap) : Pos × σ → End × σ → Prop where
  | ret {b : BlockId} {v : Option Value} {x : σ} (ht : (h.code b).2 = .ret v) : FinalIn h (⟨b, []⟩, x) (.ret v, x)
  | panic {b : BlockId} {v : Value} {x : σ} (ht : (h.code b).2 = .panic v) : FinalIn h (⟨b, []⟩, x) (.panic v, x)
  | stopped {b : BlockId} {s : Statement} {rest : List Statement} {x : σ} (hexec : S.exec s x = none) :
      FinalIn h (⟨b, s :: rest⟩, x) (.stopped s, x)

/-- Execution of a control-flow graph. -/
def machineIn (h : Heap) : Machine (Pos × σ) Statement (End × σ) := ⟨StepIn S h, FinalIn S h⟩

/-- **From every state, execution performs the same statements and ends in the same way.** -/
def SameBehaviour (entry : BlockId) (h h' : Heap) : Prop :=
  ∀ x : σ, (∀ t, (h.machineIn S).Performs (h.start entry, x) t ↔ (h'.machineIn S).Performs (h'.start entry, x) t) ∧
    ∀ t w, (h.machineIn S).Ends (h.start entry, x) t w ↔ (h'.machineIn S).Ends (h'.start entry, x) t w

theorem SameBehaviour.refl (entry : BlockId) (h : Heap) : SameBehaviour S entry h h :=
  fun _ => ⟨fun _ => Iff.rfl, fun _ _ => Iff.rfl⟩

theorem SameBehaviour.trans {entry : BlockId} {h1 h2 h3 : Heap} (h : SameBehaviour S entry h1 h2)
    (h' : SameBehaviour S entry h2 h3) : SameBehaviour S entry h1 h3 :=
  fun x => ⟨fun t => ((h x).1 t).trans ((h' x).1 t), fun t w => ((h x).2 t w).trans ((h' x).2 t w)⟩

theorem start_eq (h : Heap) (b : BlockId) : h.start b = ⟨b, (h.code b).1⟩ := rfl

end Heap

/-- The block that is executed next, if any. -/
def Terminator.next {σ : Type} (S : Semantics σ) (x : σ) : Terminator → Option BlockId
  | .unconditional t => some t
  | .conditional c t f => some (if S.holds c x then t else f)
  | .ret _ | .panic _ => none

namespace Heap

variable {σ : Type} {S : Semantics σ} {h : Heap} {b t : BlockId} {x : σ}

theorem StepIn.of_next (hnext : (h.code b).2.next S x = some t) : StepIn S h (⟨b, []⟩, x) none (⟨t, (h.code t).1⟩, x) := by
  cases hcode : (h.code b).2 with
  | unconditional u =>
    rw [hcode] at hnext
    cases hnext
    exact .jump hcode
  | conditional c u f =>
    rw [hcode] at hnext
    cases hnext
    exact .branch hcode
  | ret | panic =>
    rw [hcode] at hnext
    cases hnext

theorem StepIn.next {l : Option Statement} {q : Pos × σ} (hstep : StepIn S h (⟨b, []⟩, x) l q) :
    l = none ∧ ∃ t, (h.code b).2.next S x = some t ∧ q = (⟨t, (h.code t).1⟩, x) := by
  cases hstep with
  | jump ht | branch ht => exact ⟨rfl, _, congrArg (Terminator.next S x) ht, rfl⟩

theorem FinalIn.next {w : End × σ} (hfinal : FinalIn S h (⟨b, []⟩, x) w) : (h.code b).2.next S x = none := by
  cases hfinal with
  | ret ht | panic ht => exact congrArg (Terminator.next S x) ht

end Heap

namespace FoldUnconditionals

open Heap (Pos StepIn FinalIn)

variable {σ : Type} (S : Semantics σ)

/-! ### Positions that move together -/

/-- The two positions make the same moves, and end alike. -/
structure Aligned (h h' : Heap) (R : Pos → Pos → Prop) (p p' : Pos) : Prop where
  forth : ∀ {x l q}, StepIn S h (p, x) l q → ∃ q', StepIn S h' (p', x) l (q', q.2) ∧ R q.1 q'
  back : ∀ {x l q'}, StepIn S h' (p', x) l q' → ∃ q, StepIn S h (p, x) l (q, q'.2) ∧ R q q'.1
  final : ∀ {x w}, FinalIn S h (p, x) w ↔ FinalIn S h' (p', x) w

/-- The first position has only a silent move to make before they do. -/
structure Stutters (h h' : Heap) (R : Pos → Pos → Prop) (p p' q : Pos) : Prop where
  move : ∀ x, StepIn S h (p, x) none (q, x)
  only : ∀ {x l r}, StepIn S h (p, x) l r → l = none ∧ r = (q, x)
  final : ∀ {x w}, ¬ FinalIn S h (p, x) w
  related : R q p'
  aligned : Aligned S h h' R q p'

variable {h h' : Heap}

/-- **A relation of positions that move together**, up to silent moves of the first, makes the graphs bisimilar. -/
theorem bisimilar_of_aligned {R : Pos → Pos → Prop}
    (hR : ∀ {p p'}, R p p' → Aligned S h h' R p p' ∨ ∃ q, Stutters S h h' R p p' q) :
    Machine.Bisimilar (h.machineIn S) (h'.machineIn S) fun a b => R a.1 b.1 ∧ a.2 = b.2 := by
  refine ⟨⟨?_, ?_⟩, ⟨?_, ?_⟩⟩
  · rintro ⟨p, x⟩ a' ⟨p', x'⟩ l ⟨hrel, heq⟩ hstep
    subst heq
    rcases hR hrel with hal | ⟨q, hst⟩
    · obtain ⟨q', hq', hrel'⟩ := hal.forth hstep
      exact ⟨(q', a'.2), Machine.Run.step hq', hrel', rfl⟩
    · obtain ⟨rfl, rfl⟩ := hst.only hstep
      exact ⟨(p', x), .refl _, hst.related, rfl⟩
  · rintro ⟨p, x⟩ ⟨p', x'⟩ w ⟨hrel, heq⟩ hfinal
    subst heq
    rcases hR hrel with hal | ⟨q, hst⟩
    · exact ⟨(p', x), .refl _, hal.final.mp hfinal⟩
    · exact absurd hfinal hst.final
  · rintro ⟨p', x'⟩ a' ⟨p, x⟩ l ⟨hrel, heq⟩ hstep
    subst heq
    rcases hR hrel with hal | ⟨q, hst⟩
    · obtain ⟨r, hr, hrel'⟩ := hal.back hstep
      exact ⟨(r, a'.2), Machine.Run.step hr, hrel', rfl⟩
    · obtain ⟨r, hr, hrel'⟩ := hst.aligned.back hstep
      exact ⟨(r, a'.2), (Machine.Run.silent (hst.move x)).trans_nil (Machine.Run.step hr), hrel', rfl⟩
  · rintro ⟨p', x'⟩ ⟨p, x⟩ w ⟨hrel, heq⟩ hfinal
    subst heq
    rcases hR hrel with hal | ⟨q, hst⟩
    · exact ⟨(p, x), .refl _, hal.final.mpr hfinal⟩
    · exact ⟨(q, x), Machine.Run.silent (hst.move x), hst.aligned.final.mpr hfinal⟩

section Align

variable {h h' : Heap} {R : Pos → Pos → Prop} {b b' : BlockId}

theorem aligned_statement {s : Statement} {rest rest' : List Statement} (hR : R ⟨b, rest⟩ ⟨b', rest'⟩) :
    Aligned S h h' R ⟨b, s :: rest⟩ ⟨b', s :: rest'⟩ := by
  refine ⟨?_, ?_, fun {x w} => ⟨?_, ?_⟩⟩
  · intro x l q hstep
    cases hstep with
    | exec hexec => exact ⟨_, .exec hexec, hR⟩
  · intro x l q' hstep
    cases hstep with
    | exec hexec => exact ⟨_, .exec hexec, hR⟩
  · intro hfinal
    cases hfinal with
    | stopped hexec => exact .stopped hexec
  · intro hfinal
    cases hfinal with
    | stopped hexec => exact .stopped hexec

theorem aligned_next (hfinal : ∀ {x w}, FinalIn S h (⟨b, []⟩, x) w ↔ FinalIn S h' (⟨b', []⟩, x) w)
    (f : BlockId → BlockId) (hnext : ∀ x, (h'.code b').2.next S x = ((h.code b).2.next S x).map f)
    (hR : ∀ t, R ⟨t, (h.code t).1⟩ ⟨f t, (h'.code (f t)).1⟩) : Aligned S h h' R ⟨b, []⟩ ⟨b', []⟩ := by
  refine ⟨?_, ?_, hfinal⟩
  · intro x l q hstep
    obtain ⟨rfl, t, ht, rfl⟩ := hstep.next
    refine ⟨_, .of_next ((hnext x).trans ?_), hR t⟩
    rw [ht]
    rfl
  · intro x l q' hstep
    obtain ⟨rfl, t', ht', rfl⟩ := hstep.next
    obtain ⟨t, ht, rfl⟩ := Option.map_eq_some_iff.mp ((hnext x).symm.trans ht')
    exact ⟨_, .of_next ht, hR t⟩

theorem aligned_terminator (ht : (h'.code b').2 = (h.code b).2)
    (hR : ∀ t, R ⟨t, (h.code t).1⟩ ⟨t, (h'.code t).1⟩) : Aligned S h h' R ⟨b, []⟩ ⟨b', []⟩ := by
  refine aligned_next S (fun {x w} => ⟨?_, ?_⟩) id (fun x => ?_) hR
  · intro hfinal
    cases hfinal with
    | ret hret => exact .ret (ht.trans hret)
    | panic hpanic => exact .panic (ht.trans hpanic)
  · intro hfinal
    cases hfinal with
    | ret hret => exact .ret (ht.symm.trans hret)
    | panic hpanic => exact .panic (ht.symm.trans hpanic)
  · rw [ht, Option.map_id, id]

theorem stutters_jump {t : BlockId} {p' : Pos} (ht : (h.code b).2 = .unconditional t)
    (hR : R ⟨t, (h.code t).1⟩ p') (hal : Aligned S h h' R ⟨t, (h.code t).1⟩ p') :
    Stutters S h h' R ⟨b, []⟩ p' ⟨t, (h.code t).1⟩ := by
  refine ⟨fun _ => .jump ht, ?_, ?_, hR, hal⟩
  · intro x l r hstep
    obtain ⟨rfl, t', ht', rfl⟩ := hstep.next
    rw [ht] at ht'
    cases ht'
    exact ⟨rfl, rfl⟩
  · intro x w hfinal
    have hnone := hfinal.next
    rw [ht] at hnone
    cases hnone

end Align

/-! ### Folding -/

/-- Positions before and after a child has been appended to the current block. -/
inductive FoldPos (current child : BlockId) (childStatements : List Statement) : Pos → Pos → Prop
  | other {b : BlockId} (rest : List Statement) (hb : b ≠ current) : FoldPos current child childStatements ⟨b, rest⟩ ⟨b, rest⟩
  | current (rest : List Statement) :
      FoldPos current child childStatements ⟨current, rest⟩ ⟨current, rest ++ childStatements⟩
  | child (rest : List Statement) : FoldPos current child childStatements ⟨child, rest⟩ ⟨current, rest⟩

section Fold

variable {h h' : Heap} {current child : BlockId}
  (hcode : h'.code = update h.code current ((h.code current).1 ++ (h.code child).1, (h.code child).2))
include hcode

theorem fold_start (b : BlockId) : FoldPos current child (h.code child).1 ⟨b, (h.code b).1⟩ ⟨b, (h'.code b).1⟩ := by
  by_cases hb : b = current
  · subst hb
    rw [hcode, update_self]
    exact .current _
  · rw [hcode, update_of_ne hb]
    exact .other _ hb

/-- In the child, the current block does what the child did. -/
theorem fold_child (rest : List Statement) :
    Aligned S h h' (FoldPos current child (h.code child).1) ⟨child, rest⟩ ⟨current, rest⟩ := by
  cases rest with
  | nil => exact aligned_terminator S (by rw [hcode, update_self]) (fold_start hcode)
  | cons s rest => exact aligned_statement S (.child rest)

theorem fold_aligned (hjump : (h.code current).2 = .unconditional child) {p p' : Pos}
    (hR : FoldPos current child (h.code child).1 p p') :
    Aligned S h h' (FoldPos current child (h.code child).1) p p' ∨
      ∃ q, Stutters S h h' (FoldPos current child (h.code child).1) p p' q := by
  cases hR with
  | other rest hb =>
    cases rest with
    | nil => exact .inl (aligned_terminator S (by rw [hcode, update_of_ne hb]) (fold_start hcode))
    | cons s rest => exact .inl (aligned_statement S (.other rest hb))
  | current rest =>
    cases rest with
    | nil => exact .inr ⟨_, stutters_jump S hjump (.child _) (fold_child S hcode _)⟩
    | cons s rest => exact .inl (aligned_statement S (.current rest))
  | child rest => exact .inl (fold_child S hcode rest)

end Fold

/-! ### Bypassing -/

/-- Positions before and after an empty block has been bypassed. -/
inductive BypassPos (current child : BlockId) (childStatements : List Statement) : Pos → Pos → Prop
  | same (p : Pos) : BypassPos current child childStatements p p
  | skip : BypassPos current child childStatements ⟨current, []⟩ ⟨child, childStatements⟩

/-- Where a target is redirected to. -/
def redirected (current child t : BlockId) : BlockId := if t = current then child else t

variable {current child : BlockId} {t t' : Terminator}

/-- A redirected terminator goes to the redirected target, whichever way the branch goes. -/
theorem redirect_next (h : t.redirect current child = some t') (x : σ) :
    t'.next S x = (t.next S x).map (redirected current child) := by
  cases t with
  | ret | panic => cases h
  | unconditional target =>
    rw [Terminator.redirect] at h
    split at h
    · rename_i heq
      cases h
      exact congrArg some (if_pos heq).symm
    · cases h
  | conditional c target fallthrough =>
    unfold Terminator.redirect at h
    unfold redirected
    by_cases ht : target = current <;> by_cases hf : fallthrough = current <;> simp only [ht, hf, decide_true, decide_false] at h
    · cases h
      cases hc : S.holds c x <;> simp [Terminator.next, hc, ht, hf]
    · cases h
      cases hc : S.holds c x <;> simp [Terminator.next, hc, ht, hf]
    · cases h
      cases hc : S.holds c x <;> simp [Terminator.next, hc, ht, hf]
    · cases h

theorem redirect_not_final (h : t.redirect current child = some t') (x : σ) :
    t.next S x ≠ none ∧ t'.next S x ≠ none := by
  have hnext := redirect_next S h x
  rw [hnext, Ne, Ne, Option.map_eq_none_iff, and_self]
  cases t with
  | ret | panic => cases h
  | unconditional | conditional => nofun

section Bypass

variable {h h' : Heap} {current child : BlockId} (hempty : h.code current = ([], .unconditional child))
  (hstatements : ∀ b, (h'.code b).1 = (h.code b).1)
include hempty hstatements

theorem bypass_target (t : BlockId) : BypassPos current child (h.code child).1 ⟨t, (h.code t).1⟩
      ⟨redirected current child t, (h'.code (redirected current child t)).1⟩ := by
  rw [hstatements]
  unfold redirected
  split
  · rename_i heq
    rw [heq, hempty]
    exact .skip
  · exact .same _

section

variable (hterminator : ∀ b, (h'.code b).2 = (h.code b).2 ∨ (h.code b).2.redirect current child = some (h'.code b).2)

include hterminator

theorem bypass_same (p : Pos) :
    Aligned S h h' (BypassPos current child (h.code child).1) p p := by
  obtain ⟨b, rest⟩ := p
  cases rest with
  | cons s rest => exact aligned_statement S (.same _)
  | nil =>
    rcases hterminator b with heq | hredirect
    · refine aligned_terminator S heq fun t => ?_
      rw [hstatements]
      exact .same _
    · refine aligned_next S (fun {x w} => ⟨?_, ?_⟩) (redirected current child) (redirect_next S hredirect)
        (bypass_target hempty hstatements)
      · exact fun hfinal => absurd hfinal.next (redirect_not_final S hredirect x).1
      · exact fun hfinal => absurd hfinal.next (redirect_not_final S hredirect x).2

theorem bypass_aligned {p p' : Pos}
    (hR : BypassPos current child (h.code child).1 p p') :
    Aligned S h h' (BypassPos current child (h.code child).1) p p' ∨
      ∃ q, Stutters S h h' (BypassPos current child (h.code child).1) p p' q := by
  cases hR with
  | same p => exact .inl (bypass_same S hempty hstatements hterminator p)
  | skip =>
    exact .inr ⟨_, stutters_jump S (congrArg Prod.snd hempty) (.same _) (bypass_same S hempty hstatements hterminator _)⟩

end

end Bypass

/-! ### The pass -/

/-- **One iteration preserves behaviour.** -/
theorem Rewrites.sameBehaviour (hrewrites : Rewrites h h') (entry : BlockId) : Heap.SameBehaviour S entry h h' := by
  cases hrewrites with
  | same hcode =>
    have hB : Machine.Bisimilar (h.machineIn S) (h'.machineIn S) fun a b => a.1 = b.1 ∧ a.2 = b.2 := by
      refine bisimilar_of_aligned S fun {p p'} heq => ?_
      subst heq
      obtain ⟨b, rest⟩ := p
      cases rest with
      | cons s rest => exact .inl (aligned_statement S rfl)
      | nil => exact .inl (aligned_terminator S (by rw [hcode]) fun t => by rw [hcode])
    have hstart : h.start entry = h'.start entry := by rw [Heap.start_eq, Heap.start_eq, hcode]
    exact fun x => ⟨hB.performs_iff ⟨hstart, rfl⟩, hB.ends_iff ⟨hstart, rfl⟩⟩
  | fold hjump hne hcode =>
    have hB := bisimilar_of_aligned S (fold_aligned S hcode hjump)
    exact fun x => ⟨hB.performs_iff ⟨fold_start hcode entry, rfl⟩, hB.ends_iff ⟨fold_start hcode entry, rfl⟩⟩
  | @bypass current child hempty hstatements hterminator hself =>
    have hB := bisimilar_of_aligned S (bypass_aligned S hempty hstatements hterminator)
    have hstart : BypassPos current child (h.code child).1 (h.start entry) (h'.start entry) := by
      rw [Heap.start_eq, Heap.start_eq, hstatements]
      exact .same _
    exact fun x => ⟨hB.performs_iff ⟨hstart, rfl⟩, hB.ends_iff ⟨hstart, rfl⟩⟩

theorem RewritesAll.sameBehaviour (hrewrites : RewritesAll h h') (entry : BlockId) :
    Heap.SameBehaviour S entry h h' := by
  induction hrewrites with
  | refl h => exact .refl S entry h
  | head hfirst _ ih => exact .trans S (Rewrites.sameBehaviour S hfirst entry) ih

/-- **The pass ends without a panic and preserves behaviour**, on every graph from whose live blocks a return or a
panic can be reached. -/
theorem foldGraph_preserves (R : Runtime) {h : Heap} (hmade : h.Made) {entry : BlockId} (hentry : h.live entry)
    (hexit : ∀ b, h.live b → ReachesExit h b) :
    ∃ n, ∀ fuel > n, ∃ st, foldGraph R fuel h entry = some st ∧
      ∀ (σ : Type) (S : Semantics σ), Heap.SameBehaviour S entry h st.heap := by
  have hinv : FoldInv entry ⟨h, [], [entry], false⟩ :=
    ⟨hmade.linked, hentry, fun b hb => List.mem_singleton.mp hb ▸ hentry, hexit⟩
  refine ⟨cost ⟨h, [], [entry], false⟩, fun fuel hfuel => ?_⟩
  obtain ⟨st, hfold, hrewrites⟩ := foldLoop_spec R fuel hinv hfuel
  exact ⟨st, hfold, fun σ S => RewritesAll.sameBehaviour S hrewrites entry⟩

/-- Two ways from block 0 to block 3, one through an empty block. -/
def twoWays : Option Heap := do
  let h := Heap.empty.new.2.new.2.new.2.new.2
  let h ← h.setTerminator 0 (.conditional (.identifier "c") 1 2)
  let h ← h.setTerminator 1 (.unconditional 3)
  let h ← (h.setStatements 2 [.copy (.identifier "x") (.identifier "y")]).setTerminator 2 (.unconditional 3)
  h.setTerminator 3 (.ret none)

theorem foldGraph_preserves_twoWays : ∃ h, twoWays = some h ∧
    ∃ n, ∀ fuel > n, ∃ st, foldGraph .refCounting fuel h 0 = some st ∧
      ∀ (σ : Type) (S : Semantics σ), Heap.SameBehaviour S 0 h st.heap := by
  have hm0 : Heap.Made Heap.empty.new.2.new.2.new.2.new.2 := .new (.new (.new (.new .empty)))
  have hm1 := Heap.Made.setTerminator hm0 (b := 0) (t := .conditional (.identifier "c") 1 2) rfl (by decide) rfl
  have hm2 := Heap.Made.setTerminator hm1 (b := 1) (t := .unconditional 3) rfl (by decide) rfl
  have hm3 := Heap.Made.setTerminator (hm2.setStatements 2 [.copy (.identifier "x") (.identifier "y")]) (b := 2)
    (t := .unconditional 3) rfl (by decide) rfl
  have hm := Heap.Made.setTerminator hm3 (b := 3) (t := .ret none) rfl (by decide) rfl
  refine ⟨_, rfl, foldGraph_preserves .refCounting hm rfl fun b hb => ?_⟩
  have hlt : b < 4 := hm.linked.live_lt b hb
  interval_cases b
  · exact .step (t := 1) List.mem_cons_self (.step (t := 3) List.mem_cons_self (.exit rfl))
  · exact .step (t := 3) List.mem_cons_self (.exit rfl)
  · exact .step (t := 3) List.mem_cons_self (.exit rfl)
  · exact .exit rfl

end FoldUnconditionals

end Icewind.Boom
