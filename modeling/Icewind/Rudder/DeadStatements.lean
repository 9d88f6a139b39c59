import Icewind.Rudder.Passes
import Icewind.Rudder.Purity

/-!
# Dead statement elimination

Model of `borealis/src/rudder/opt/dead_stmt_elimination.rs` and of the part of
`StatementUseAnalysis` it asks (`borealis/src/rudder/analysis/dfa.rs`).

* `DeadStmtElimination.run` — the pass on one function, with the purity of functions as it was
  determined before.
* `Drops` — one list of statements is another without some dead ones.
  `interpretStatements_drops` runs the two side by side.
* `eliminate_refines` — any number of runs of the pass keep what a returning run returns and does,
  as long as no dead statement reaches an atomic operation.
* `not_keeps_atomic` — the pass removes an atomic operation whose result is not used.

A dead statement can panic, an assertion in a called function for one.  The pass is meant to remove
those, so that only runs that return are compared.
-/

namespace Icewind.Rudder

open List Option

/-! ### The pass -/

variable {f f' : Function} {r : Ref} {b : Block}

namespace DeadStmtElimination

/-- `StatementUseAnalysis::has_side_effects`; `none` is the `unwrap` of a call to a function the
purity analysis does not know. -/
def hasSideEffects {ρ : Type} (table : PurityAnalysis.Table) : Statement ρ → Option Bool
  | .call target _ _ => (table target).map fun isPure => !isPure
  | .writeVariable _ _ | .writeRegister _ _ | .writeMemory _ _ | .writePc _ | .readMemory _ _
  | .jump _ | .branch _ _ _ | .return_ _ | .panic _ | .assert _ => some true
  | _ => some false

/-- `StatementUseAnalysis::has_uses`. -/
def hasUses (b : Block) (stmt : Ref) : Bool :=
  b.statements.any fun user => decide (stmt ∈ (b.arena user).operands)

/-- `StatementUseAnalysis::is_dead`. -/
def isDead (table : PurityAnalysis.Table) (b : Block) (stmt : Ref) : Option Bool :=
  (hasSideEffects table (b.arena stmt)).map fun effects => !effects && !hasUses b stmt

/-- `Block::kill_statement`; the statement stays in the arena. -/
def killStatement (b : Block) (stmt : Ref) : Block :=
  { b with statements := b.statements.erase stmt }

/-- The loop of `run_on_block`: it returns at the first statement it kills. -/
def killFirst (table : PurityAnalysis.Table) (b : Block) : List Ref → Option (Block × Bool)
  | [] => some (b, false)
  | stmt :: rest =>
    match isDead table b stmt with
    | none => none
    | some true => some (killStatement b stmt, true)
    | some false => killFirst table b rest

def runOnBlock (table : PurityAnalysis.Table) (b : Block) : Option (Block × Bool) :=
  killFirst table b b.statements

def run (table : PurityAnalysis.Table) (f : Function) : Option (Function × Bool) :=
  f.forBlocks (runOnBlock table) f.blockIter

/-! ### What it removes -/

/-- The statement has no side effects and no uses in the block. -/
structure Dead (table : PurityAnalysis.Table) (b : Block) (r : Ref) : Prop where
  effects : hasSideEffects table (b.arena r) = some false
  unused : ∀ user ∈ b.statements, r ∉ (b.arena user).operands

variable {table : PurityAnalysis.Table}

theorem isDead_iff : isDead table b r = some true ↔ Dead table b r := by
  unfold isDead
  constructor
  · intro h
    obtain ⟨effects, heffects, h⟩ := map_eq_some_iff.mp h
    obtain ⟨h1, h2⟩ := Bool.and_eq_true_iff.mp h
    have huses : hasUses b r = false := by simpa using h2
    refine ⟨heffects.trans (congrArg some (by simpa using h1)), fun user huser hmem => ?_⟩
    have : hasUses b r = true := any_eq_true.mpr ⟨user, huser, decide_eq_true hmem⟩
    rw [huses] at this
    cases this
  · intro h
    have huses : hasUses b r = false := by
      refine any_eq_false.mpr fun user huser => ?_
      simpa using h.unused user huser
    rw [h.effects, huses]
    rfl

variable {changed : Bool}

/-- The statement that is killed in the block, the first dead one. -/
def Kills (table : PurityAnalysis.Table) (b : Block) (r : Ref) : Prop :=
  b.statements.find? (fun r => decide (isDead table b r = some true)) = some r

theorem Kills.dead (h : Kills table b r) : Dead table b r :=
  isDead_iff.mp (of_decide_eq_true (find?_some h : _))

theorem killFirst_cases {b b' : Block} : ∀ {l : List Ref}, killFirst table b l = some (b', changed) → b' = b ∨
    ∃ r, l.find? (fun r => decide (isDead table b r = some true)) = some r ∧ b' = killStatement b r
  | [], h => by
    cases h
    exact .inl rfl
  | stmt :: rest, h => by
    rw [killFirst] at h
    split at h
    · cases h
    · rename_i hdead
      cases h
      exact .inr ⟨stmt, find?_cons_of_pos (decide_eq_true hdead), rfl⟩
    · rename_i hdead
      rcases killFirst_cases h with h | ⟨r, hr, h⟩
      · exact .inl h
      · exact .inr ⟨r, (find?_cons_of_neg (by simp [hdead])).trans hr, h⟩

/-- `l'` is `l` without some of the statements in `D`. -/
inductive Drops (D : Ref → Prop) : List Ref → List Ref → Prop
  | nil : Drops D [] []
  | keep {r : Ref} {l l' : List Ref} : Drops D l l' → Drops D (r :: l) (r :: l')
  | drop {r : Ref} {l l' : List Ref} : D r → Drops D l l' → Drops D (r :: l) l'

namespace Drops

variable {D : Ref → Prop}

theorem refl : ∀ l : List Ref, Drops D l l
  | [] => .nil
  | _ :: l => .keep (refl l)

theorem erase (hr : D r) : ∀ l : List Ref, Drops D l (l.erase r)
  | [] => .nil
  | x :: l => by
    rw [erase_cons]
    split
    · rename_i h
      obtain rfl : x = r := by simpa using h
      exact .drop hr (refl l)
    · exact .keep (erase hr l)

theorem filter {p : Ref → Bool} : ∀ {l : List Ref}, (∀ r ∈ l, p r = false → D r) → Drops D l (l.filter p)
  | [], _ => .nil
  | x :: l, h => by
    have hl := filter fun r hr => h r (mem_cons_of_mem x hr)
    cases hx : p x with
    | true =>
      rw [filter_cons_of_pos hx]
      exact .keep hl
    | false =>
      rw [filter_cons_of_neg (by simp [hx])]
      exact .drop (h x mem_cons_self hx) hl

variable {l l' : List Ref}

theorem flatMap_eq {α : Type} {g : Ref → List α} (hg : ∀ r, D r → g r = []) (h : Drops D l l') :
    l'.flatMap g = l.flatMap g := by
  induction h with
  | nil => rfl
  | keep _ ih => rw [flatMap_cons, flatMap_cons, ih]
  | drop hr _ ih => rw [flatMap_cons, hg _ hr, ih, nil_append]

theorem subset (h : Drops D l l') : l' ⊆ l := by
  induction h with
  | nil => exact fun _ h => h
  | keep _ ih => exact cons_subset_cons _ ih
  | drop _ _ ih => exact subset_cons_of_subset _ ih

end Drops

/-- `f'` is `f` without some of the statements that are killed. -/
structure Removes (table : PurityAnalysis.Table) (f f' : Function) : Prop where
  parameters : f'.parameters = f.parameters
  entryBlock : f'.entryBlock = f.entryBlock
  blockCount : f'.blockCount = f.blockCount
  block : ∀ b, ∃ l, Drops (Kills table (f.block b)) (f.block b).statements l ∧
    f'.block b = { f.block b with statements := l }

theorem run_removes (h : run table f = some (f', changed)) : Removes table f f' := by
  have hpassed := Function.forBlocks_spec _ f f' changed f.blockIter_nodup h
  refine ⟨hpassed.parameters, hpassed.entryBlock, hpassed.blockCount, fun b => ?_⟩
  by_cases hb : b ∈ f.blockIter
  · obtain ⟨changed', hpass⟩ := hpassed.passed b hb
    rcases killFirst_cases hpass with h | ⟨r, hkills, h⟩
    · exact ⟨_, .refl _, h⟩
    · exact ⟨_, .erase hkills _, h⟩
  · exact ⟨_, .refl _, hpassed.other b hb⟩

theorem Dead.targets (h : Dead table b r) : (b.arena r).targets = [] := by
  have heffects := h.effects
  cases hs : b.arena r with
  | jump | branch =>
    rw [hs] at heffects
    cases heffects
  | _ => rfl

theorem Removes.sameFlow (h : Removes table f f') : f.SameFlow f' := by
  refine ⟨h.entryBlock, h.blockCount, fun b => ?_⟩
  obtain ⟨l, hdrops, hblock⟩ := h.block b
  rw [hblock]
  refine hdrops.flatMap_eq fun r hr => ?_
  have htargets := hr.dead.targets
  cases hs : (f.block b).arena r <;> rw [hs] at htargets <;> first | rfl | cases htargets

theorem Removes.reachableStatements (h : Removes table f f') :
    f'.reachableStatements ⊆ f.reachableStatements := by
  intro s hs
  obtain ⟨b, hb, hs⟩ := mem_flatMap.mp hs
  obtain ⟨r, hr, rfl⟩ := mem_map.mp hs
  obtain ⟨l, hdrops, hblock⟩ := h.block b
  rw [h.sameFlow.blockIter] at hb
  rw [hblock] at hr ⊢
  exact Function.mem_reachableStatements hb (hdrops.subset hr)

end DeadStmtElimination

/-! ### Flags -/

/-- The statement sets the flags of the interpreter. -/
def Statement.IsTernary {ρ : Type} : Statement ρ → Prop
  | .ternaryOperation _ _ _ _ => True
  | _ => False

instance {ρ : Type} (s : Statement ρ) : Decidable s.IsTernary :=
  decidable_of_bool (s matches .ternaryOperation _ _ _ _) (by cases s <;> simp [Statement.IsTernary])

theorem Statement.isTernary_map {ρ ρ' : Type} {g : ρ → ρ'} {s : Statement ρ} :
    (s.map g).IsTernary ↔ s.IsTernary := by
  cases s <;> exact Iff.rfl

/-- The operation that has set the flags after these statements. -/
def Block.lastTernary (b : Block) (done : List Ref) : Option Ref :=
  done.reverse.find? fun r => decide (b.arena r).IsTernary

/-- Every `GetFlags` asks for the flags of the last operation above it. -/
def Block.FlagsPaired (b : Block) : Prop :=
  ∀ done r rest, b.statements = done ++ r :: rest →
    ∀ operation, b.arena r = .getFlags operation → b.lastTernary done = some operation

def Function.FlagsPaired (f : Function) : Prop := ∀ b ∈ f.blockIter, (f.block b).FlagsPaired

theorem Block.lastTernary_concat (b : Block) (done : List Ref) (r : Ref) : b.lastTernary (done ++ [r]) =
      if (b.arena r).IsTernary then some r else b.lastTernary done := by
  unfold lastTernary
  by_cases h : (b.arena r).IsTernary <;> simp [h]

/-! ### Running with and without dead statements -/

variable (table : PurityAnalysis.Table)

namespace DeadStmtElimination

variable {μ : Type} (env : Environment μ)

theorem hasSideEffects_map {ρ ρ' : Type} (g : ρ → ρ') (s : Statement ρ) :
    hasSideEffects table (s.map g) = hasSideEffects table s := by
  cases s <;> rfl

end DeadStmtElimination

/-- The step with other flags in its frame. -/
def Step.withFlags {μ : Type} (flags : Nat) : Step μ → Step μ
  | .next value locals _ st => .next value locals flags st
  | step => step

variable {flags flags' : Nat} {value : Option Value}

section Flags

variable {μ : Type} (env : Environment μ) {call : Calls μ} {sourceTyp : Option Typ}
  {locals : Locals} {st : State μ} {s : Statement (Option Value)}

/-- The flags before a statement matter to `GetFlags` only.  An addition with carry overwrites
them, the others pass them on. -/
theorem exec_withFlags (hget : (∃ operation, s = .getFlags operation) → flags' = flags) :
    exec env call sourceTyp locals flags' st s = (exec env call sourceTyp locals flags st s).map fun step =>
        if s.IsTernary then step else step.withFlags flags' := by
  cases s with
  | getFlags operation =>
    rw [hget ⟨operation, rfl⟩]
    rfl
  | ternaryOperation kind a b c =>
    cases kind
    have hid : (fun step : Step μ =>
        if (Statement.ternaryOperation .addWithCarry a b c).IsTernary then step
        else step.withFlags flags') = id := funext fun _ => if_pos trivial
    rw [hid, Option.map_id]
    rfl
  | return_ value =>
    cases value with
    | none => rfl
    | some value => cases value <;> rfl
  | assert condition =>
    simp only [exec, bind_eq_bind, map_bind, Function.comp_def]
    congr 1
    funext v
    split <;> rfl
  | _ =>
    simp [exec, map_bind, Step.withFlags, Statement.IsTernary]

theorem exec_next_flags {locals' : Locals} {st' : State μ} (hternary : ¬ s.IsTernary)
    (h : exec env call sourceTyp locals flags st s = some (.next value locals' flags' st')) :
    flags' = flags := by
  have heq : exec env call sourceTyp locals flags st s =
      (exec env call sourceTyp locals flags st s).map fun step =>
        if s.IsTernary then step else step.withFlags flags := exec_withFlags env fun _ => rfl
  rw [h, map_some, if_neg hternary] at heq
  cases heq
  rfl

end Flags

namespace DeadStmtElimination

/-- A statement without side effects goes on and leaves the local variables alone, and the flags
unless it is an addition with carry. -/
theorem exec_dead {μ : Type} (env : Environment μ) {table : PurityAnalysis.Table} {call : Calls μ}
    {sourceTyp : Option Typ} {locals : Locals} {flags : Nat} {st : State μ} {s : Statement (Option Value)}
    {step : Step μ} (hs : hasSideEffects table s = some false)
    (h : exec env call sourceTyp locals flags st s = some step) :
    ∃ value flags' st', step = .next value locals flags' st' ∧ (¬ s.IsTernary → flags' = flags) := by
  cases step with
  | goto target =>
    have htarget := exec_goto env h
    cases s <;> first | exact absurd htarget not_mem_nil | cases hs
  | return_ value =>
    obtain ⟨v, rfl, -⟩ := exec_return env h
    cases hs
  | next value locals' flags' st' =>
    refine ⟨value, flags', st', ?_, fun hternary => exec_next_flags env hternary h⟩
    rcases (exec_next env h).1 with ⟨symbol, v, rfl, -⟩ | ⟨-, rfl⟩
    · cases hs
    · rfl

section Blocks

variable {μ : Type} (env : Environment μ) {table : PurityAnalysis.Table} {T : String → Prop}
  {paired : Prop} {D : Ref → Prop} {b : Block}

/-- The frames with and without some dead statements.  The flags may differ where the last operation
that has set them is one of these, if nothing asks for those. -/
structure FrameRel (D : Ref → Prop) (b : Block) (paired : Prop) (done : List Ref) (fr fr' : Frame) : Prop where
  locals : fr'.locals = fr.locals
  values : ∀ x, ¬ D x → fr'.values x = fr.values x
  flags : fr'.flags = fr.flags ∨ paired ∧ ∀ operation, b.lastTernary done = some operation → D operation

/-- What makes some dead statements of a block harmless: they do nothing to the state, and if one of
them sets the flags then nobody asks for its flags. -/
structure HarmlessIn (table : PurityAnalysis.Table) (T : String → Prop) (paired : Prop) (D : Ref → Prop) (b : Block) :
    Prop where
  dead : ∀ r, D r → Dead table b r
  quiet : ∀ r, D r → (b.arena r).Quiet T
  ternary : ∀ r, D r → (b.arena r).IsTernary → paired
  flags : paired → b.FlagsPaired

variable {locals : Locals}

theorem FrameRel.enter (h : flags' = flags ∨ paired) :
    FrameRel D b paired [] (.enter locals flags) (.enter locals flags') :=
  ⟨rfl, fun _ _ => rfl, h.imp_right fun hp => ⟨hp, fun _ h => by cases h⟩⟩

variable {fr fr' : Frame}

theorem FrameRel.next_values {done : List Ref} (h : FrameRel D b paired done fr fr')
    (x : Ref) (hx : ¬ D x) :
    (fr'.next r value locals flags').values x = (fr.next r value locals flags).values x := by
  unfold Frame.next
  cases value with
  | none => exact h.values x hx
  | some v =>
    by_cases hxr : x = r
    · subst hxr
      simp
    · simp [Function.update_of_ne hxr, h.values x hx]

theorem FrameRel.drop {call : Calls μ} (hcall : Calls.Quiet T call)
    (hb : HarmlessIn table T paired D b) {done : List Ref} {r : Ref}
    {st : State μ} {step : Step μ} (hdead : D r)
    (h : FrameRel D b paired done fr fr') (hexec : execIn env call b r fr st = some step) :
    ∃ value flags, step = .next value fr.locals flags st ∧
      FrameRel D b paired (done ++ [r]) (fr.next r value fr.locals flags) fr' := by
  have heffects := (hb.dead r hdead).effects
  rw [← hasSideEffects_map table fr.values] at heffects
  obtain ⟨value, flags, st', rfl, hflags⟩ := exec_dead env heffects hexec
  have hst : st' = st :=
    exec_quiet env hcall (Statement.quiet_map.mpr (hb.quiet r hdead)) hexec
  subst hst
  refine ⟨value, flags, rfl, h.locals, fun x hx => ?_, ?_⟩
  · have hne : x ≠ r := fun heq => hx (heq ▸ hdead)
    rw [fr.next_values_of_ne _ _ _ hne]
    exact h.values x hx
  · rw [Block.lastTernary_concat]
    by_cases hternary : (b.arena r).IsTernary
    · refine .inr ⟨hb.ternary r hdead hternary, fun operation hop => ?_⟩
      rw [if_pos hternary] at hop
      cases hop
      exact hdead
    · rw [if_neg hternary]
      have : flags = fr.flags := hflags fun h => hternary (Statement.isTernary_map.mp h)
      subst this
      exact h.flags

/-- The two steps of a statement that is kept. -/
inductive StepRel (D : Ref → Prop) (b : Block) (paired : Prop) (done : List Ref)
    (r : Ref) (fr fr' : Frame) : Step μ → Step μ → Prop
  | next {value : Option Value} {locals : Locals} {flags flags' : Nat} {st : State μ} :
    FrameRel D b paired (done ++ [r]) (fr.next r value locals flags) (fr'.next r value locals flags') →
    StepRel D b paired done r fr fr' (.next value locals flags st) (.next value locals flags' st)
  | goto {target : BlockRef} : StepRel D b paired done r fr fr' (.goto target) (.goto target)
  | return_ {value : Option Value} : StepRel D b paired done r fr fr' (.return_ value) (.return_ value)

variable {call call' : Calls μ}

theorem FrameRel.keep (hrefines : Calls.Refines call call')
    (hb : HarmlessIn table T paired D b) {done rest : List Ref} {r : Ref}
    {st : State μ} {step : Step μ} (hsplit : b.statements = done ++ r :: rest)
    (h : FrameRel D b paired done fr fr') (hexec : execIn env call b r fr st = some step) :
    ∃ step', execIn env call' b r fr' st = some step' ∧ StepRel D b paired done r fr fr' step step' := by
  have hr : r ∈ b.statements := by simp [hsplit]
  have hphi : ∀ members, b.arena r ≠ .phiNode members := by
    intro members hphi
    unfold execIn at hexec
    rw [hphi] at hexec
    cases hexec
  -- the operands are not dead, this statement uses them
  have hmap : (b.arena r).map fr'.values = (b.arena r).map fr.values :=
    Statement.map_congr hphi fun o ho => h.values o fun hdead => (hb.dead o hdead).unused r hr ho
  -- neither is the operation whose flags it asks for
  have hget : (∃ operation, (b.arena r).map fr.values = .getFlags operation) → fr'.flags = fr.flags := by
    rintro ⟨operation, hget⟩
    rcases h.flags with hflags | ⟨hp, hdead⟩
    · exact hflags
    · cases hs : b.arena r <;> rw [hs] at hget <;> cases hget
      rename_i operation
      have hop := hdead operation (hb.flags hp done r rest hsplit operation hs)
      exact absurd (by simp [hs, Statement.operands]) ((hb.dead operation hop).unused r hr)
  have hexec' : execIn env call' b r fr' st =
      some (if ((b.arena r).map fr.values).IsTernary then step else step.withFlags fr'.flags) := by
    unfold execIn
    rw [hmap, h.locals, exec_withFlags env hget, exec_refines env hrefines hexec]
    rfl
  refine ⟨_, hexec', ?_⟩
  cases step with
  | goto target => split <;> exact .goto
  | return_ value => split <;> exact .return_
  | next value locals flags st' =>
    split
    · exact .next ⟨rfl, h.next_values, .inl rfl⟩
    · rename_i hternary
      have hflags := exec_next_flags env hternary hexec
      subst hflags
      refine .next ⟨rfl, h.next_values, ?_⟩
      rw [Block.lastTernary_concat, if_neg fun h => hternary (Statement.isTernary_map.mpr h)]
      exact h.flags

/-- **The block without some of its dead statements does what the block does.** -/
theorem interpretStatements_drops (hcall : Calls.Quiet T call)
    (hrefines : Calls.Refines call call') (hb : HarmlessIn table T paired D b) {l l' : List Ref}
    (hdrops : Drops D l l') :
    ∀ (done : List Ref) (fr fr' : Frame) (st : State μ) (result : BlockResult μ),
      b.statements = done ++ l → FrameRel D b paired done fr fr' →
      interpretStatements env call b l fr st = some result →
      ∃ result', interpretStatements env call' b l' fr' st = some result' ∧
        result.Related (fun _ locals flags locals' flags' =>
          locals' = locals ∧ (flags' = flags ∨ paired)) result' := by
  induction hdrops with
  | nil =>
    intro done fr fr' st result _ _ h
    cases h
  | @keep r l l' _ ih =>
    intro done fr fr' st result hsplit hrel h
    unfold interpretStatements at h ⊢
    cases hexec : execIn env call b r fr st with
    | none =>
      rw [hexec] at h
      cases h
    | some step =>
      obtain ⟨step', hexec', hstep⟩ := hrel.keep env hrefines hb hsplit hexec
      rw [hexec] at h
      rw [hexec']
      cases hstep with
      | next hrel' => exact ih _ _ _ _ _ (by rw [hsplit]; simp) hrel' h
      | goto =>
        cases h
        exact ⟨_, rfl, rfl, rfl, hrel.locals, hrel.flags.imp_right And.left⟩
      | return_ =>
        cases h
        exact ⟨_, rfl, rfl, rfl⟩
  | @drop r l l' hdead _ ih =>
    intro done fr fr' st result hsplit hrel h
    unfold interpretStatements at h
    cases hexec : execIn env call b r fr st with
    | none =>
      rw [hexec] at h
      cases h
    | some step =>
      obtain ⟨value, flags, rfl, hrel'⟩ := hrel.drop env hcall hb hdead hexec
      rw [hexec] at h
      exact ih _ _ _ _ _ (by rw [hsplit]; simp) hrel' h

end Blocks

/-! ### Runs of the pass -/

/-- An atomic operation can be reached from the statement. -/
def MayAtomic (M : Model) : Statement Ref → Prop
  | .atomicOperation _ _ _ _ => True
  | .call target _ _ => M.MayAtomic target
  | _ => False

/-- No statement that is killed reaches an atomic operation, and if one sets the flags then every `GetFlags`
asks for the flags of the last operation above it. -/
structure Harmless (table : PurityAnalysis.Table) (M : Model) (f : Function) : Prop where
  atomic : ∀ b ∈ f.blockIter, ∀ r, Kills table (f.block b) r → ¬ MayAtomic M ((f.block b).arena r)
  flags : (∃ b ∈ f.blockIter, ∃ r, Kills table (f.block b) r ∧ ((f.block b).arena r).IsTernary) → f.FlagsPaired

/-- The calls that leave the state alone. -/
def Silent (table : PurityAnalysis.Table) (M : Model) (name : String) : Prop :=
  table name = some true ∧ ¬ M.MayAtomic name

theorem Dead.quiet {table : PurityAnalysis.Table} {M : Model} (h : Dead table b r)
    (hatomic : ¬ MayAtomic M (b.arena r)) : (b.arena r).Quiet (Silent table M) := by
  have heffects := h.effects
  cases hs : b.arena r with
  | call target args returnType =>
    rw [hs] at heffects hatomic
    obtain ⟨isPure, hpure, hnot⟩ := map_eq_some_iff.mp heffects
    cases isPure with
    | false => cases hnot
    | true => exact ⟨hpure, hatomic⟩
  | atomicOperation address compareOperand operand operationKind =>
    rw [hs] at hatomic
    exact hatomic trivial
  | writeRegister | writeMemory | readMemory | writePc =>
    rw [hs] at heffects
    cases heffects
  | _ => trivial

section Model

variable {μ : Type} (env : Environment μ) {table : PurityAnalysis.Table} {M : Model}

theorem Harmless.block {f : Function} (h : Harmless table M f) {b : BlockRef} (hb : b ∈ f.blockIter) :
    HarmlessIn table (Silent table M) f.FlagsPaired (Kills table (f.block b)) (f.block b) where
  dead _ hkills := hkills.dead
  quiet r hkills := hkills.dead.quiet (h.atomic b hb r hkills)
  ternary r hkills hternary := h.flags ⟨b, hb, r, hkills, hternary⟩
  flags hpaired := hpaired b hb

/-- **A function without the statements that are killed simulates the function.** -/
theorem Removes.functionSim (hf : f.RefsValid) (hharmless : Harmless table M f) (h : Removes table f f') :
    FunctionSim env (Calls.Quiet (Silent table M)) f f' fun b locals flags locals' flags' =>
      b ∈ f.blockIter ∧ locals' = locals ∧ (flags' = flags ∨ f.FlagsPaired) where
  entryBlock := h.entryBlock
  entry arguments := by
    rw [h.parameters]
    exact ⟨(Function.blockIter_closed hf).1, rfl, .inl rfl⟩
  block := by
    rintro call call' hcall hrefines b locals flags _ flags' st result ⟨hb, rfl, hflags⟩ hrun
    obtain ⟨l, hdrops, hblock⟩ := h.block b
    obtain ⟨result', hrun', hrelated⟩ := interpretStatements_drops env hcall hrefines
      (hharmless.block hb) hdrops [] _ _ st result rfl (FrameRel.enter hflags) hrun
    refine ⟨result', ?_, ?_⟩
    · have harena : (f'.block b).arena = (f.block b).arena := by rw [hblock]
      have hsize : (f'.block b).arenaSize = (f.block b).arenaSize := by rw [hblock]
      have hstatements : (f'.block b).statements = l := by rw [hblock]
      rw [interpretBlock, hstatements, interpretStatements_of_arena_eq env harena hsize]
      exact hrun'
    · cases result with
      | nextBlock target locals1 flags1 st1 =>
        have htarget : target ∈ f.blockIter := (Function.blockIter_closed hf).2 b hb target
          (interpretStatements_target env _ _ _ _ _ _ _ (fun _ h => h) hrun)
        cases result' with
        | nextBlock target' locals2 flags2 st2 =>
          obtain ⟨h1, h2, h3⟩ := hrelated
          exact ⟨h1, h2, htarget, h3⟩
        | returnValue value st2 => exact hrelated
      | returnValue value st1 =>
        cases result' with
        | nextBlock | returnValue => exact hrelated

/-- One run of the pass on one function of the model, on a function whose dead statements are
harmless. -/
def Eliminates (table : PurityAnalysis.Table) (M M' : Model) : Prop :=
  ∃ name f f' changed, M.lookup name = some f ∧ run table f = some (f', changed) ∧
    Harmless table M f ∧ M' = M.put name f'

/-- What the passes keep: the purity that was determined at first, and the references. -/
structure Prepared (table : PurityAnalysis.Table) (M : Model) : Prop where
  sound : PurityAnalysis.Sound M table
  valid : ∀ name f, M.lookup name = some f → f.RefsValid

theorem Eliminates.prepared {M' : Model} (hM : Prepared table M) (h : Eliminates table M M') :
    Prepared table M' := by
  obtain ⟨name, f, f', changed, hf, hrun, -, rfl⟩ := h
  have hremoves := run_removes hrun
  refine ⟨fun other hother => ?_, fun other g hg => ?_⟩
  · obtain ⟨g, hg, hpure⟩ := hM.sound other hother
    by_cases hne : other = name
    · subst hne
      obtain rfl : f = g := some.inj (hf.symm.trans hg)
      exact ⟨f', Model.lookup_put_self f' hf, fun s hs => hpure s (hremoves.reachableStatements hs)⟩
    · exact ⟨g, (Model.lookup_put_of_ne f' hne).trans hg, hpure⟩
  · rcases Model.lookup_put_cases hf hg with ⟨-, rfl⟩ | ⟨-, hg⟩
    · exact hremoves.sameFlow.refsValid (hM.valid name f hf)
    · exact hM.valid other g hg

theorem Eliminates.refines {M' : Model} (hM : Prepared table M) (h : Eliminates table M M')
    (fuel : Nat) : Calls.Refines (interpret env M fuel) (interpret env M' fuel) := by
  obtain ⟨name, f, f', changed, hf, hrun, hharmless, rfl⟩ := h
  exact refines_put env (interpret_quiet env (hM.sound.quietOn hM.valid)) hf
    ((run_removes hrun).functionSim env (hM.valid name f hf) hharmless) fuel

/-- **However often the pass runs, on functions whose dead statements are harmless, a call that
returned returns the same and has the same effects.** -/
theorem eliminate_refines {M₀ M' : Model} {names : List String}
    (hnew : PurityAnalysis.new M₀ names = some table)
    (hvalid : ∀ name f, M₀.lookup name = some f → f.RefsValid)
    (hsteps : Relation.ReflTransGen (Eliminates table) M₀ M') (fuel : Nat) :
    Calls.Refines (interpret env M₀ fuel) (interpret env M' fuel) := by
  have hrun : Prepared table M' ∧ Calls.Refines (interpret env M₀ fuel) (interpret env M' fuel) := by
    induction hsteps with
    | refl => exact ⟨⟨PurityAnalysis.new_sound hnew, hvalid⟩, fun _ _ _ _ h => h⟩
    | tail _ hstep ih => exact ⟨hstep.prepared ih.1, ih.2.trans (hstep.refines env ih.1 fuel)⟩
  exact hrun.2

end Model

/-! ### Atomic operations that are not used -/

/-- Memory whose atomic operations all give zero. -/
def atomicEnvironment : Environment Unit where
  overflowChecks := true
  registerFileSize := 0
  registerOffsets := []
  pcOffset := 0
  readMemory := fun _ _ _ => none
  writeMemory := fun _ _ _ => none
  atomicOperation := fun _ _ _ _ memory => some (.unsignedInteger 0 64, memory)
  readPc := fun _ => none
  todo := fun _ => none

def initialState : State Unit := ⟨fun _ => 0, (), []⟩

/-- `MemAtomic(0, 0, 0, 0)` without a use of its result. -/
def atomicBlock : Block where
  arenaSize := 3
  arena := fun
    | 0 => .constant (.unsignedInteger 0 64)
    | 1 => .atomicOperation 0 0 0 0
    | _ => .return_ none
  statements := [0, 1, 2]

/-- A comparison that is not used, and a disjunction. -/
def unusedBlock : Block where
  arenaSize := 4
  arena := fun
    | 0 => .constant (.unsignedInteger 1 64)
    | 1 => .binaryOperation .compareEqual 0 0
    | 2 => .binaryOperation .or 0 0
    | _ => .return_ (some 2)
  statements := [0, 1, 2, 3]

def oneBlock (b : Block) : Function := ⟨[], [], 1, fun _ => b, 0⟩

theorem unused_harmless (M : Model) : Harmless table M (oneBlock unusedBlock) := by
  have hkills : ∀ {b r}, Kills table ((oneBlock unusedBlock).block b) r → r = 1 := fun h => (some.inj h).symm
  refine ⟨fun b _ r hr h => ?_, ?_⟩
  · rw [hkills hr] at h
    exact h
  · rintro ⟨b, -, r, hr, h⟩
    rw [hkills hr] at h
    exact absurd h id

/-- The comparison is removed and the disjunction is still returned. -/
theorem eliminate_refines_unused :
    ∃ table M', PurityAnalysis.new [("f", oneBlock unusedBlock)] ["f"] = some table ∧
      Relation.ReflTransGen (Eliminates table) [("f", oneBlock unusedBlock)] M' ∧
      (M'.lookup "f").map (fun f => (f.block 0).statements) = some [0, 2, 3] ∧
      (interpret atomicEnvironment [("f", oneBlock unusedBlock)] 1 "f" [] initialState).isSome ∧
      Calls.Refines (interpret atomicEnvironment [("f", oneBlock unusedBlock)] 1)
        (interpret atomicEnvironment M' 1) := by
  have hnew : ∃ table, PurityAnalysis.new [("f", oneBlock unusedBlock)] ["f"] = some table :=
    ⟨_, rfl⟩
  obtain ⟨table, hnew⟩ := hnew
  have hstep : Eliminates table [("f", oneBlock unusedBlock)] (Model.put [("f", oneBlock unusedBlock)] "f"
        ((oneBlock unusedBlock).setBlock 0 (killStatement unusedBlock 1))) :=
    ⟨"f", oneBlock unusedBlock, _, true, rfl, rfl, unused_harmless table _, rfl⟩
  refine ⟨table, _, hnew, .single hstep, rfl, rfl,
    eliminate_refines atomicEnvironment hnew ?_ (.single hstep) 1⟩
  intro name f hf
  have : f = oneBlock unusedBlock := by
    rw [lookup_cons] at hf
    split at hf <;> cases hf
    rfl
  subst this
  exact ⟨Nat.one_pos, fun b _ t ht => by simp [oneBlock, unusedBlock, Block.targets] at ht⟩

/-- The pass removes the atomic operation, and with it the access to memory. -/
theorem not_keeps_atomic : ∃ table f', PurityAnalysis.new [("f", oneBlock atomicBlock)] ["f"] = some table ∧
      run table (oneBlock atomicBlock) = some (f', true) ∧
      (interpret atomicEnvironment [("f", oneBlock atomicBlock)] 1 "f" [] initialState).map
          (fun r => r.2.trace) =
        some [.atomicOperation (.unsignedInteger 0 64) (.unsignedInteger 0 64)
          (.unsignedInteger 0 64) (.unsignedInteger 0 64)] ∧
      (interpret atomicEnvironment (Model.put [("f", oneBlock atomicBlock)] "f" f') 1 "f" []
          initialState).map (fun r => r.2.trace) = some [] :=
  ⟨_, _, rfl, rfl, rfl, rfl⟩

end DeadStmtElimination

end Icewind.Rudder
