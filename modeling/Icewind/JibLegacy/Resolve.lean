import Icewind.JibLegacy.Process
import Mathlib.Data.Finset.Card

/-!
# Resolution of the pending graph

* `Sound` — the blocks resolved so far carry the code of their pending blocks, those still being
  resolved apart.
* `resolveBlock_spec` — with fuel for every block still unresolved, `resolve_block` does not panic
  and keeps `Sound`.
* `resolved_bisimilar` — the resolved graph executes like the pending one.
* `fromStatements_executions` — the graph built for a statement list executes like the list.
-/

namespace Icewind.JibLegacy

open Icewind.Boom List Function Option PendingTerminator

/-! ## Which blocks can be resolved -/

def PendingTerminator.targets : PendingTerminator → List JumpTarget
  | .conditional _ target fallthrough => [target, fallthrough]
  | .unconditional target => [target]
  | _ => []

/-- A set of blocks, closed under jumps, that all have a terminator and existing targets. -/
structure Resolvable (B : Builder) (good : Nat → Prop) : Prop where
  lt : ∀ b, good b → b < B.next
  known : ∀ b, good b → (B.block b).terminator ≠ .unknown
  target : ∀ b, good b → ∀ t ∈ (B.block b).terminator.targets, ∃ n, B.target t = some n ∧ good n

/-- The resolved terminator of a pending one. -/
inductive Resolves (B : Builder) (m : Nat → Option BlockId) : PendingTerminator → Terminator → Prop where
  | ret {name : String} : Resolves B m (.ret name) (.ret (some (.identifier name)))
  | undefined : Resolves B m .undefined (.panic (.literal (.string "undefined terminator")))
  | panic {v : Value} : Resolves B m (.panic v) (.panic v)
  | conditional {c : Value} {t f : JumpTarget} {n n' : Nat} {r r' : BlockId} :
      B.target t = some n → m n = some r → B.target f = some n' → m n' = some r' →
      Resolves B m (.conditional c t f) (.conditional c r r')
  | unconditional {t : JumpTarget} {n : Nat} {r : BlockId} :
      B.target t = some n → m n = some r → Resolves B m (.unconditional t) (.unconditional r)

variable {B : Builder}

theorem Resolves.mono {m m' : Nat → Option BlockId} {t : PendingTerminator} {t' : Terminator}
    (hm : ∀ b r, m b = some r → m' b = some r) (h : Resolves B m t t') : Resolves B m' t t' := by
  cases h with
  | ret => exact .ret
  | undefined => exact .undefined
  | panic => exact .panic
  | conditional h1 h2 h3 h4 => exact .conditional h1 (hm _ _ h2) h3 (hm _ _ h4)
  | unconditional h1 h2 => exact .unconditional h1 (hm _ _ h2)

/-! ## The invariant of `resolve_block` -/

/-- Invariant of the resolver; the blocks in `active` are still being resolved. -/
structure Sound (B : Builder) (active : List Nat) (st : Resolver) : Prop where
  lt : ∀ b r, st.resolved b = some r → r < st.heap.next
  inj : ∀ b b' r, st.resolved b = some r → st.resolved b' = some r → b = b'
  done : ∀ b r, st.resolved b = some r → b ∉ active →
    ∃ t, st.heap.code r = ((B.block b).statements, t) ∧ Resolves B st.resolved (B.block b).terminator t

/-- What a call of `resolve_block` keeps. -/
structure Grows (st st' : Resolver) : Prop where
  next_le : st.heap.next ≤ st'.heap.next
  resolved : ∀ b r, st.resolved b = some r → st'.resolved b = some r
  code : ∀ b r, st.resolved b = some r → st'.heap.code r = st.heap.code r

theorem Grows.refl (st : Resolver) : Grows st st :=
  ⟨Nat.le_refl _, fun _ _ h => h, fun _ _ _ => rfl⟩

variable {st : Resolver}

theorem Grows.trans {st' st'' : Resolver} (h : Grows st st') (h' : Grows st' st'') : Grows st st'' :=
  ⟨Nat.le_trans h.next_le h'.next_le, fun b r hb => h'.resolved b r (h.resolved b r hb),
    fun b r hb => (h'.code b r (h.resolved b r hb)).trans (h.code b r hb)⟩

/-- The blocks not resolved yet. -/
def unresolved (B : Builder) (st : Resolver) : Finset Nat :=
  (Finset.range B.next).filter fun b => st.resolved b = none

variable {st' : Resolver}

theorem Grows.unresolved_card_le (h : Grows st st') : (unresolved B st').card ≤ (unresolved B st).card := by
  refine Finset.card_le_card fun b hb => ?_
  simp only [unresolved, Finset.mem_filter] at hb ⊢
  refine ⟨hb.1, ?_⟩
  cases hr : st.resolved b with
  | none => rfl
  | some r => rw [h.resolved b r hr] at hb; cases hb.2

theorem beginBlock_code (B : Builder) (b : Nat) (st : Resolver) : (beginBlock B b st).heap.code =
      update st.heap.code st.heap.next ((B.block b).statements, .default) := by
  show ((st.heap.new.2.setLabel st.heap.next _).setStatements st.heap.next _).code = _
  simp only [Heap.setStatements_code, Heap.setLabel_code, Heap.new_code, update_self, update_idem]

theorem beginBlock_resolved (B : Builder) (b : Nat) (st : Resolver) :
    (beginBlock B b st).resolved = update st.resolved b (some st.heap.next) := rfl

variable {active : List Nat} {b : Nat}

theorem beginBlock_grows (hS : Sound B active st) (hb : st.resolved b = none) :
    Grows st (beginBlock B b st) := by
  refine ⟨Nat.le_succ _, ?_, ?_⟩
  · intro b' r hr
    have hne : b' ≠ b := fun e => by rw [e, hb] at hr; cases hr
    exact (update_of_ne hne _ _).trans hr
  · intro b' r hr
    have hne : r ≠ st.heap.next := Nat.ne_of_lt (hS.lt b' r hr)
    rw [beginBlock_code, update_of_ne hne]

theorem beginBlock_sound (hS : Sound B active st) (hb : st.resolved b = none) :
    Sound B (b :: active) (beginBlock B b st) := by
  have hg := beginBlock_grows hS hb
  have hcase : ∀ b' r, (beginBlock B b st).resolved b' = some r →
      b' = b ∧ r = st.heap.next ∨ b' ≠ b ∧ st.resolved b' = some r := by
    intro b' r hr
    simp only [beginBlock_resolved, update_apply] at hr
    split at hr
    · cases hr; exact Or.inl ⟨‹b' = b›, rfl⟩
    · exact Or.inr ⟨‹b' ≠ b›, hr⟩
  refine ⟨?_, ?_, ?_⟩
  · intro b' r hr
    rcases hcase b' r hr with ⟨_, rfl⟩ | ⟨_, hr⟩
    · exact Nat.lt_succ_self _
    · exact Nat.lt_succ_of_lt (hS.lt b' r hr)
  · intro b1 b2 r h1 h2
    rcases hcase b1 r h1 with ⟨e1, hr1⟩ | ⟨_, old1⟩ <;>
      rcases hcase b2 r h2 with ⟨e2, hr2⟩ | ⟨_, old2⟩
    · rw [e1, e2]
    · exact absurd (hS.lt _ _ old2) (by rw [hr1]; exact Nat.lt_irrefl _)
    · exact absurd (hS.lt _ _ old1) (by rw [hr2]; exact Nat.lt_irrefl _)
    · exact hS.inj b1 b2 r old1 old2
  · intro b' r hr hact
    rcases hcase b' r hr with ⟨rfl, _⟩ | ⟨_, hr⟩
    · simp at hact
    · obtain ⟨t, hc, ht⟩ := hS.done b' r hr (fun hm => hact (mem_cons_of_mem _ hm))
      exact ⟨t, (hg.code b' r hr).trans hc, ht.mono hg.resolved⟩

theorem beginBlock_unresolved_lt (hlt : b < B.next) (hb : st.resolved b = none) :
    (unresolved B (beginBlock B b st)).card < (unresolved B st).card := by
  refine Finset.card_lt_card (Finset.ssubset_iff_subset_ne.mpr ⟨?_, ?_⟩)
  · intro b' hb'
    simp only [unresolved, beginBlock_resolved, Finset.mem_filter, update_apply] at hb' ⊢
    refine ⟨hb'.1, ?_⟩
    have h2 := hb'.2
    split at h2
    · cases h2
    · exact h2
  · intro he
    have hmem : b ∈ unresolved B st := by simp [unresolved, hlt, hb]
    rw [← he] at hmem
    have hnone := (Finset.mem_filter.mp hmem).2
    simp [beginBlock_resolved] at hnone

theorem setTerminator_sound {t : Terminator} (hb : st.resolved b = none) (hg : Grows (beginBlock B b st) st')
    (hS : Sound B (b :: active) st') (ht : Resolves B st'.resolved (B.block b).terminator t) :
    ∃ h, st'.heap.setTerminator st.heap.next t = some h ∧ Sound B active ⟨st'.resolved, h⟩ ∧
      (∀ b' r, st.resolved b' = some r → h.code r = st'.heap.code r) ∧ h.next = st'.heap.next := by
  have hr1 : (beginBlock B b st).resolved b = some st.heap.next := update_self ..
  have hr := hg.resolved b _ hr1
  have hcode : st'.heap.code st.heap.next = ((B.block b).statements, .default) := by
    rw [hg.code b _ hr1, beginBlock_code, update_self]
  obtain ⟨h, he, hnext, hcode'⟩ := Heap.setTerminator_fresh (h := st'.heap) (b := st.heap.next)
    (by rw [hcode]; rfl) t
  rw [hcode] at hcode'
  have hother : ∀ b' r, b' ≠ b → st'.resolved b' = some r → h.code r = st'.heap.code r := by
    intro b' r hne hr'
    have hrne : r ≠ st.heap.next := fun e => hne (hS.inj b' b _ (e ▸ hr') hr)
    rw [hcode', update_of_ne hrne]
  refine ⟨h, he, ⟨?_, hS.inj, ?_⟩, ?_, hnext⟩
  · intro b' r hr'
    exact hnext ▸ hS.lt b' r hr'
  · intro b' r hr' hact
    by_cases hbb : b' = b
    · subst hbb
      have hre : r = st.heap.next := some.inj (hr'.symm.trans hr)
      subst hre
      exact ⟨t, by simp [hcode'], ht⟩
    · obtain ⟨t', hc, ht'⟩ := hS.done b' r hr' (fun hm => hact ((mem_cons.mp hm).resolve_left hbb))
      exact ⟨t', (hother b' r hbb hr').trans hc, ht'⟩
  · intro b' r hr'
    have hne : b' ≠ b := fun e => by rw [e, hb] at hr'; cases hr'
    exact hother b' r hne (hg.resolved b' r ((update_of_ne hne _ _).trans hr'))

/-! ## `resolve_block` -/

/-- What a call of `resolve_block` for `b` gives. -/
def Resolved (B : Builder) (active : List Nat) (b : Nat) (st : Resolver)
    (res : Option (BlockId × Resolver)) : Prop :=
  ∃ r st', res = some (r, st') ∧ st'.resolved b = some r ∧ Sound B active st' ∧ Grows st st'

theorem resolveBlock_none (fuel : Nat) (hb : st.resolved b = none) : resolveBlock B (fuel + 1) b st =
      (resolveTerminator B (resolveBlock B fuel) (beginBlock B b st) (B.block b).terminator).bind fun p =>
        (p.2.heap.setTerminator st.heap.next p.1).bind fun h =>
          some (st.heap.next, { p.2 with heap := h }) := by
  rw [resolveBlock, hb]
  rfl

variable {good : Nat → Prop}

theorem resolveTerminator_spec {resolve : Nat → Resolver → Option (BlockId × Resolver)}
    (hgood : Resolvable B good) (hb : good b) (hS : Sound B active st)
    (ih : ∀ {n : Nat} {st' : Resolver}, good n → Sound B active st' → Grows st st' →
      Resolved B active n st' (resolve n st')) :
    ∃ t st', resolveTerminator B resolve st (B.block b).terminator = some (t, st') ∧
      Sound B active st' ∧ Grows st st' ∧ Resolves B st'.resolved (B.block b).terminator t := by
  have htarget := hgood.target b hb
  have hknown := hgood.known b hb
  cases ht : (B.block b).terminator with
  | ret name => exact ⟨_, st, rfl, hS, Grows.refl st, .ret⟩
  | undefined => exact ⟨_, st, rfl, hS, Grows.refl st, .undefined⟩
  | panic v => exact ⟨_, st, rfl, hS, Grows.refl st, .panic⟩
  | unknown => exact absurd ht hknown
  | unconditional t =>
    rw [ht] at htarget
    obtain ⟨n, hn, hgn⟩ := htarget t (by simp [targets])
    obtain ⟨r, st1, he, hr, hS1, hg1⟩ := ih hgn hS (Grows.refl st)
    exact ⟨.unconditional r, st1, by simp [resolveTerminator, hn, he], hS1, hg1, .unconditional hn hr⟩
  | conditional c t f =>
    rw [ht] at htarget
    obtain ⟨n, hn, hgn⟩ := htarget t (by simp [targets])
    obtain ⟨n', hn', hgn'⟩ := htarget f (by simp [targets])
    obtain ⟨r, st1, he, hr, hS1, hg1⟩ := ih hgn hS (Grows.refl st)
    obtain ⟨r', st2, he', hr', hS2, hg2⟩ := ih hgn' hS1 hg1
    exact ⟨.conditional c r r', st2, by simp [resolveTerminator, hn, he, hn', he'], hS2,
      hg1.trans hg2, .conditional hn (hg2.resolved _ _ hr) hn' hr'⟩

/-- **`resolve_block` does not panic on resolvable blocks**, and every block it resolves carries
the code of its pending block. -/
theorem resolveBlock_spec (hgood : Resolvable B good) :
    ∀ (fuel : Nat) {active : List Nat} {b : Nat} {st : Resolver}, good b → Sound B active st →
      (unresolved B st).card < fuel → Resolved B active b st (resolveBlock B fuel b st)
  | 0, _, _, _, _, _, hf => absurd hf (Nat.not_lt_zero _)
  | fuel + 1, active, b, st, hb, hS, hf => by
    cases hres : st.resolved b with
    | some r => exact ⟨r, st, by simp [resolveBlock, hres], hres, hS, Grows.refl st⟩
    | none =>
      have hlt := beginBlock_unresolved_lt (hgood.lt b hb) hres
      have hg1 := beginBlock_grows hS hres
      -- a recursive call starts with at least `b` more blocks resolved
      obtain ⟨t, st2, he, hS2, hg2, ht⟩ := resolveTerminator_spec hgood hb (beginBlock_sound hS hres)
        (fun hn hS' hg' => resolveBlock_spec hgood fuel hn hS' (by
          have := hg'.unresolved_card_le (B := B)
          omega))
      obtain ⟨h, hh, hS3, hcode, hnext⟩ := setTerminator_sound hres hg2 hS2 ht
      refine ⟨st.heap.next, ⟨st2.resolved, h⟩, ?_, ?_, hS3, ?_⟩
      · rw [resolveBlock_none fuel hres, he, bind_some, hh, bind_some]
      · exact hg2.resolved b _ (update_self ..)
      · refine ⟨?_, fun b' r hr => hg2.resolved b' r (hg1.resolved b' r hr), fun b' r hr => ?_⟩
        · exact hnext ▸ Nat.le_trans hg1.next_le hg2.next_le
        · rw [hcode b' r hr, hg2.code b' r (hg1.resolved b' r hr), hg1.code b' r hr]

/-! ## Execution of the resolved graph -/

/-- The same position in the resolved graph. -/
def Copied (m : Nat → Option BlockId) (q q' : Heap.Pos) : Prop :=
  m q.block = some q'.block ∧ q'.rest = q.rest

variable {n : Nat}

section Bisimulation

variable {B : Builder} {st : Resolver}

theorem copied_start (hS : Sound B [] st) {r : BlockId} (hn : st.resolved n = some r) :
    Copied st.resolved (B.start n) (st.heap.start r) := by
  obtain ⟨t, hc, _⟩ := hS.done n r hn (by simp)
  exact ⟨hn, congrArg Prod.fst hc⟩

theorem Sound.terminator (hS : Sound B [] st) {r : BlockId} (hn : st.resolved n = some r) :
    Resolves B st.resolved (B.block n).terminator (st.heap.block r).terminator := by
  obtain ⟨t, hc, ht⟩ := hS.done n r hn (by simp)
  have : (st.heap.block r).terminator = t := congrArg Prod.snd hc
  rwa [this]

/-- **The resolved graph executes like the pending one.** -/
theorem resolved_bisimilar (hS : Sound B [] st) :
    Machine.Bisimilar B.machine st.heap.machine (Copied st.resolved) where
  fwd :=
    { step := by
        rintro q q' ⟨r, rest⟩ l ⟨hb, hrest⟩ hs
        cases hs with
        | exec => cases hrest; exact ⟨_, .emit (A := st.heap.machine) .exec, hb, rfl⟩
        | jump ht hn =>
          cases hrest
          have hterm := hS.terminator hb
          simp only [ht] at hterm
          generalize ht' : (st.heap.block r).terminator = t' at hterm
          cases hterm with
          | unconditional h1 h2 =>
            cases h1.symm.trans hn
            exact ⟨_, .silent (A := st.heap.machine) (.jump ht'), copied_start hS h2⟩
        | branch taken ht hn =>
          cases hrest
          have hterm := hS.terminator hb
          simp only [ht] at hterm
          generalize ht' : (st.heap.block r).terminator = t' at hterm
          cases hterm with
          | conditional h1 h2 h3 h4 =>
            refine ⟨_, .emit (A := st.heap.machine) (.branch taken ht'), ?_⟩
            cases taken with
            | true => cases h1.symm.trans hn; exact copied_start hS h2
            | false => cases h3.symm.trans hn; exact copied_start hS h4
      final := by
        rintro q ⟨r, rest⟩ w ⟨hb, hrest⟩ hf
        have hterm := hS.terminator hb
        generalize ht' : (st.heap.block r).terminator = t' at hterm
        cases hf with
        | ret ht =>
          cases hrest
          simp only [ht] at hterm
          cases hterm
          exact ⟨_, .refl _, .ret ht'⟩
        | undefined ht =>
          cases hrest
          simp only [ht] at hterm
          cases hterm
          exact ⟨_, .refl _, .panic ht'⟩
        | panic ht =>
          cases hrest
          simp only [ht] at hterm
          cases hterm
          exact ⟨_, .refl _, .panic ht'⟩ }
  bwd :=
    { step := by
        rintro q q' ⟨b, rest⟩ l ⟨hb, hrest⟩ hs
        cases hs with
        | exec => cases hrest; exact ⟨_, .emit (A := B.machine) .exec, hb, rfl⟩
        | jump ht' =>
          cases hrest
          have hterm := hS.terminator hb
          simp only [ht'] at hterm
          generalize ht : (B.block b).terminator = t at hterm
          cases hterm with
          | unconditional h1 h2 =>
            exact ⟨_, .silent (A := B.machine) (.jump ht h1), copied_start hS h2⟩
        | branch taken ht' =>
          cases hrest
          have hterm := hS.terminator hb
          simp only [ht'] at hterm
          generalize ht : (B.block b).terminator = t at hterm
          cases hterm with
          | conditional h1 h2 h3 h4 =>
            cases taken with
            | true => exact ⟨_, .emit (A := B.machine) (.branch true ht h1), copied_start hS h2⟩
            | false => exact ⟨_, .emit (A := B.machine) (.branch false ht h3), copied_start hS h4⟩
      final := by
        rintro q ⟨b, rest⟩ w ⟨hb, hrest⟩ hf
        have hterm := hS.terminator hb
        generalize ht : (B.block b).terminator = t at hterm
        cases hf with
        | ret ht' =>
          cases hrest
          simp only [ht'] at hterm
          cases hterm
          exact ⟨_, .refl _, .ret ht⟩
        | panic ht' =>
          cases hrest
          simp only [ht'] at hterm
          cases hterm with
          | undefined => exact ⟨_, .refl _, .undefined ht⟩
          | panic => exact ⟨_, .refl _, .panic ht⟩ }

end Bisimulation

/-! ## Well-formed programs -/

mutual

/-- The labels a statement jumps to. -/
def jumpsIn : Statement → List String
  | .goto l => [l]
  | .jump _ l => [l]
  | .if_ _ ifBody elseBody => jumpsOf ifBody ++ jumpsOf elseBody
  | _ => []

/-- The labels a list jumps to. -/
def jumpsOf : List Statement → List String
  | [] => []
  | s :: ss => jumpsIn s ++ jumpsOf ss

end

theorem jumpsOf_append : ∀ ss k : List Statement, jumpsOf (ss ++ k) = jumpsOf ss ++ jumpsOf k
  | [], k => by simp [jumpsOf]
  | s :: ss, k => by simp [jumpsOf, jumpsOf_append ss k]

mutual

variable {k' : List Statement}

theorem jumpsOf_afterIn {l : String} : ∀ (s : Statement) (k : List Statement),
    afterIn l k s = some k' → jumpsOf k' ⊆ jumpsIn s ++ jumpsOf k
  | .label l', k, h => by
    simp only [afterIn] at h
    split at h
    · cases h; simp [jumpsIn]
    · cases h
  | .if_ _ ifBody elseBody, k, h => by
    simp only [afterIn, Option.or_eq_some_iff] at h
    simp only [jumpsIn, append_assoc]
    rcases h with h | ⟨_, h⟩
    · exact List.Subset.trans (jumpsOf_afterLabel ifBody k h) (by simp)
    · exact List.Subset.trans (jumpsOf_afterLabel elseBody k h) (by simp)
  | .variableDeclaration _ _, _, h | .copy _ _, _, h | .functionCall _ _ _, _, h | .goto _, _, h
  | .jump _ _, _, h | .end_ _, _, h | .undefined, _, h | .exit _, _, h | .comment _, _, h
  | .panic _, _, h => by simp [afterIn] at h

theorem jumpsOf_afterLabel {l : String} : ∀ (ss : List Statement) (k : List Statement),
    afterLabel l k ss = some k' → jumpsOf k' ⊆ jumpsOf ss ++ jumpsOf k
  | [], _, h => by simp [afterLabel] at h
  | s :: ss, k, h => by
    simp only [afterLabel, Option.or_eq_some_iff] at h
    simp only [jumpsOf, append_assoc]
    rcases h with h | ⟨_, h⟩
    · simpa [jumpsOf_append] using jumpsOf_afterIn s (ss ++ k) h
    · exact List.Subset.trans (jumpsOf_afterLabel ss k h) (by simp)

end

/-- A program the builder accepts: distinct labels, every jump names one, and no path of execution
falls off the end. -/
structure WellFormed (program : List Statement) : Prop where
  labels : (labelsOf program).Nodup
  jumps : ∀ l ∈ jumpsOf program, l ∈ labelsOf program
  ends : ∀ t k, (structured program).Run program t k → k ≠ []

variable {program : List Statement} {l : Option Heap.Event} {k k' : List Statement}

/-- Execution never reaches a jump that is not in the program. -/
theorem step_jumpsOf (hs : Step program k l k') (hk : jumpsOf k ⊆ jumpsOf program) :
    jumpsOf k' ⊆ jumpsOf program := by
  cases hs with
  | plain | label | skip => exact fun l hl => hk (by simp [jumpsOf, hl])
  | if_ taken =>
    refine fun l hl => hk ?_
    rw [jumpsOf_append] at hl
    simp only [jumpsOf, jumpsIn, mem_append] at hl ⊢
    cases taken <;> tauto
  | jump ha | goto ha => simpa [jumpsOf] using jumpsOf_afterLabel program [] ha

theorem run_jumpsOf {t : List Heap.Event} (hr : (structured program).Run k t k')
    (hk : jumpsOf k ⊆ jumpsOf program) : jumpsOf k' ⊆ jumpsOf program := by
  induction hr with
  | refl => exact hk
  | head hs _ ih => exact ih (step_jumpsOf hs hk)

theorem run_plain (k : List Statement) :
    ∀ ss : List Statement, (∀ s ∈ ss, Plain s) → (structured program).Run (ss ++ k) (ss.map .exec) k
  | [], _ => .refl k
  | s :: ss, hp =>
    (Machine.Run.emit (A := structured program) (Step.plain (hp s (by simp)))).trans
      (run_plain k ss fun s' hs' => hp s' (mem_cons_of_mem _ hs'))

theorem pending_run_rest (b : Nat) : ∀ ss : List Statement, B.machine.Run ⟨b, ss⟩ (ss.map .exec) ⟨b, []⟩
  | [] => .refl _
  | _ :: ss => (Machine.Run.emit (A := B.machine) .exec).trans (pending_run_rest b ss)

/-- The blocks execution can reach. -/
def Reached (B : Builder) (b : Nat) : Prop := ∃ t, B.machine.Run (B.start 0) t (B.start b)

theorem Reached.step (hb : Reached B b) (hs : PendingStep B ⟨b, []⟩ l (B.start n)) : Reached B n := by
  obtain ⟨t, hr⟩ := hb
  exact ⟨_, (hr.trans (pending_run_rest b _)).trans (.step (A := B.machine) hs)⟩

/-- **The blocks a well-formed program can reach can all be resolved.** -/
theorem reached_resolvable {M : Meaning} (hW : WellFormed program) (hC : Covers program B M)
    (h0 : 0 < B.next) (hrest : M.rest 0 = program) : Resolvable B (Reached B) := by
  -- what remains at a reached block is reached by the program itself
  have hremains : ∀ b, Reached B b → ∃ t k, (structured program).Run program t k ∧
      Remains B M k (B.start b) := by
    rintro b ⟨t, hr⟩
    have h₀ := remains_start hC h0
    rw [hrest] at h₀
    obtain ⟨k, hk, hR⟩ := (pending_bisimilar hC).bwd.run hr h₀
    exact ⟨t, k, hk, hR⟩
  have hlabel : ∀ {t : List Heap.Event} {k : List Statement} {l : String},
      (structured program).Run program t k → l ∈ jumpsOf k → ∃ n, B.labels l = some n := by
    intro t k l hr hl
    exact isSome_iff_exists.mp (hC.entered l (hW.jumps l (run_jumpsOf hr (fun _ h => h) hl)))
  refine ⟨?_, ?_, ?_⟩
  · intro b hb
    obtain ⟨_, _, _, hlt, _⟩ := hremains b hb
    exact hlt
  · intro b hb hu
    obtain ⟨t, k, hr, _, k', rfl, hp, hc⟩ := hremains b hb
    simp only [Builder.start, hu] at hc
    cases hc
    exact hW.ends _ _ (hr.trans (run_plain [] _ hp)) rfl
  · intro b hb t ht
    obtain ⟨tr, k, hr, _, k', rfl, hp, hc⟩ := hremains b hb
    have hr' := hr.trans (run_plain k' _ hp)
    simp only [Builder.start] at hc
    generalize hterm : (B.block b).terminator = term at ht hc
    -- a target is a block, or a label that was entered
    have htarget : ∃ n, B.target t = some n := by
      cases hc with
      | label | leave | if_ =>
        simp only [targets, mem_cons, not_mem_nil, or_false] at ht
        first
          | (subst ht; exact ⟨_, rfl⟩)
          | (rcases ht with rfl | rfl <;> exact ⟨_, rfl⟩)
      | jump =>
        simp only [targets, mem_cons, not_mem_nil, or_false] at ht
        rcases ht with rfl | rfl
        · exact hlabel hr' (by simp [jumpsOf, jumpsIn])
        · exact ⟨_, rfl⟩
      | goto =>
        simp only [targets, mem_cons, not_mem_nil, or_false] at ht
        subst ht
        exact hlabel hr' (by simp [jumpsOf, jumpsIn])
      | ret | undefined | panic | unknown => simp [targets] at ht
    obtain ⟨n, hn⟩ := htarget
    refine ⟨n, hn, ?_⟩
    cases term with
    | unconditional t' =>
      have : t = t' := by simpa [targets] using ht
      subst this
      exact hb.step (.jump hterm hn)
    | conditional c t' f' =>
      have : t = t' ∨ t = f' := by simpa [targets] using ht
      rcases this with rfl | rfl
      · exact hb.step (.branch true hterm hn)
      · exact hb.step (.branch false hterm hn)
    | _ => simp [targets] at ht

/-- **The graph built for a structured statement list executes like the list**: the builder does
not panic, and for every outcome of the conditions the graph performs the same statements and stops
in the same way. -/
theorem fromStatements_executions {program : List Statement} (hW : WellFormed program) :
    ∃ entry h, fromStatements program = some (entry, h) ∧
      (∀ t, (structured program).Performs program t ↔ h.machine.Performs (h.start entry) t) ∧
      (∀ t r, (structured program).Ends program t r ↔ h.machine.Ends (h.start entry) t r) := by
  obtain ⟨B, M, he, hC, h0, hrest⟩ := processStatements_covers hW.labels
  have hgood := reached_resolvable hW hC h0 hrest
  have hsound : Sound B [] ⟨fun _ => none, Heap.empty⟩ :=
    ⟨fun _ _ h => (by cases h), fun _ _ _ h => (by cases h), fun _ _ h => (by cases h)⟩
  obtain ⟨entry, st, hres, hentry, hS, _⟩ := resolveBlock_spec hgood (B.next + 1) (b := 0)
    ⟨[], .refl _⟩ hsound (by simp [unresolved])
  have hR0 : Remains B M program (B.start 0) := by
    have h₀ := remains_start hC h0
    rwa [hrest] at h₀
  have hR1 := copied_start hS hentry
  refine ⟨entry, st.heap, by simp [fromStatements, he, hres], fun t => ?_, fun t r => ?_⟩
  · exact ((pending_bisimilar hC).performs_iff hR0 t).trans ((resolved_bisimilar hS).performs_iff hR1 t)
  · exact ((pending_bisimilar hC).ends_iff hR0 t r).trans ((resolved_bisimilar hS).ends_iff hR1 t r)

/-- `top: if (c) { x = v; goto top; } else { }  end r`. -/
def loopProgram : List Statement :=
  [.label "top",
    .if_ (.identifier "c") [.copy (.identifier "x") (.identifier "v"), .goto "top"] [], .end_ "r"]

/-- The configurations of this program. -/
inductive LoopConfig : List Statement → Prop where
  | top : LoopConfig loopProgram
  | test : LoopConfig loopProgram.tail
  | body : LoopConfig [.copy (.identifier "x") (.identifier "v"), .goto "top", .end_ "r"]
  | back : LoopConfig [.goto "top", .end_ "r"]
  | end_ : LoopConfig [.end_ "r"]

theorem LoopConfig.step (hk : LoopConfig k) (hs : Step loopProgram k l k') : LoopConfig k' := by
  cases hk with
  | top =>
    cases hs with
    | plain hp => cases hp
    | label => exact .test
  | test =>
    cases hs with
    | plain hp => cases hp
    | if_ taken =>
      cases taken with
      | true => exact .body
      | false => exact .end_
  | body => cases hs with | plain => exact .back
  | back =>
    cases hs with
    | plain hp => cases hp
    | goto ha =>
      have hk' : loopProgram.tail = k' := by simpa [loopProgram, afterLabel, afterIn] using ha
      exact hk' ▸ .test
  | end_ => cases hs with | plain hp => cases hp

theorem loopProgram_wellFormed : WellFormed loopProgram := by
  refine ⟨by simp [loopProgram, labelsOf, labelsIn],
    by simp [loopProgram, jumpsOf, jumpsIn, labelsOf, labelsIn], ?_⟩
  have hinv : ∀ {t k k'}, (structured loopProgram).Run k t k' → LoopConfig k → LoopConfig k' := by
    intro t k k' hr
    induction hr with
    | refl => exact id
    | head hs _ ih => exact fun hk => ih (hk.step hs)
  intro t k hr he
  subst he
  cases hinv hr .top

theorem fromStatements_executions_loopProgram : ∃ entry h, fromStatements loopProgram = some (entry, h) ∧
      h.machine.Ends (h.start entry) [.branch (.identifier "c") false] (.ret (some (.identifier "r"))) := by
  obtain ⟨entry, h, he, _, hends⟩ := fromStatements_executions loopProgram_wellFormed
  refine ⟨entry, h, he, (hends _ _).mp ⟨[.end_ "r"], ?_, .end_⟩⟩
  refine .head (l := none) Step.label ?_
  exact .head (l := some _) (Step.if_ false) (.refl _)

end Icewind.JibLegacy
