import Icewind.Rudder.Passes

/-!
# What can be seen of a run

The interpreter again, with everything that can be seen of it: the writes to variables as well as the
effects, in their order, and the difference between a panic and a run that goes on.

* `observe` — the interpreter; `observe_result` says that it returns what `interpret` returns.
* `SameOutcomes` — two models cannot be told apart: the same runs return the same, panic after the same
  events, or do not end.
* `Fuses` — a block does what it did, or what it and the block after it did together.
* `Unseen.of_fuses` — passes over a function that fuse blocks in this way cannot be seen.
-/

namespace Icewind.Rudder

/-- What a statement does to variables, registers, memory and PC. -/
inductive Event where
  | effect (effect : Effect)
  | writeVariable (name : String) (value : Value)

/-- The state, and what has happened so far. -/
structure Seen (μ : Type) where
  state : State μ
  events : List Event

/-- How a call ends, or that the fuel has run out. -/
inductive Outcome (μ : Type) where
  | returned (value : Option Value) (s : Seen μ)
  | panicked (s : Seen μ)
  | timeout

abbrev Observes (μ : Type) := String → List Value → Seen μ → Outcome μ

inductive StatementOutcome (μ : Type) where
  | next (value : Option Value) (locals : Locals) (flags : Nat) (s : Seen μ)
  | goto (target : BlockRef)
  | return_ (value : Option Value)
  | panicked (s : Seen μ)
  | timeout

inductive BlockOutcome (μ : Type) where
  | next (target : BlockRef) (locals : Locals) (flags : Nat) (s : Seen μ)
  | returned (value : Option Value) (s : Seen μ)
  | panicked (s : Seen μ)
  | timeout

/-- The events of a statement, other than a call, that leads to the state. -/
def Seen.after {μ : Type} (s : Seen μ) (statement : Statement (Option Value)) (st : State μ) : Seen μ where
  state := st
  events := s.events ++ match statement with
    | .writeVariable symbol (some value) => [.writeVariable symbol.name value]
    | _ => (st.trace.drop s.state.trace.length).map .effect

variable {μ : Type} (env : Environment μ)

/-- A step of the interpreter, where nothing is a panic. -/
def StatementOutcome.ofStep (s : Seen μ) (statement : Statement (Option Value)) : Option (Step μ) → StatementOutcome μ
  | none => .panicked s
  | some (.next value locals flags st) => .next value locals flags (s.after statement st)
  | some (.goto target) => .goto target
  | some (.return_ value) => .return_ value

/-- The end of a call. -/
def StatementOutcome.ofCall (locals : Locals) (flags : Nat) : Outcome μ → StatementOutcome μ
  | .returned value s => .next value locals flags s
  | .panicked s => .panicked s
  | .timeout => .timeout

/-- A statement with its operands resolved.  Calls are followed into the function that is called; the other
statements are those of the interpreter. -/
def observeExec (call : Observes μ) (sourceTyp : Option Typ) (locals : Locals) (flags : Nat) (s : Seen μ)
    (statement : Statement (Option Value)) : StatementOutcome μ :=
  match statement with
  | .call target args _ =>
    match args.mapM id with
    | none => .panicked s
    | some arguments => .ofCall locals flags (call target arguments s)
  | statement => .ofStep s statement (exec env (fun _ _ _ => none) sourceTyp locals flags s.state statement)

def observeStatement (call : Observes μ) (b : Block) (r : Ref) (fr : Frame) (s : Seen μ) : StatementOutcome μ :=
  observeExec env call (b.sourceTyp r) fr.locals fr.flags s ((b.arena r).map fr.values)

def observeStatements (call : Observes μ) (b : Block) : List Ref → Frame → Seen μ → BlockOutcome μ
  | [], _, s => .panicked s
  | r :: rest, fr, s =>
    match observeStatement env call b r fr s with
    | .next value locals flags s => observeStatements call b rest (fr.next r value locals flags) s
    | .goto target => .next target fr.locals fr.flags s
    | .return_ value => .returned value s
    | .panicked s => .panicked s
    | .timeout => .timeout

def observeBlock (call : Observes μ) (b : Block) (locals : Locals) (flags : Nat) (s : Seen μ) : BlockOutcome μ :=
  observeStatements env call b b.statements (.enter locals flags) s

def observeBlocks (M : Model) : Nat → Function → BlockRef → Locals → Nat → Seen μ → Outcome μ
  | 0, _, _, _, _, _ => .timeout
  | fuel + 1, f, block, locals, flags, s =>
    let call : Observes μ := fun name arguments s =>
      match M.lookup name with
      | none => .panicked s
      | some g => observeBlocks M fuel g g.entryBlock (bindArguments g.parameters arguments) 0 s
    match observeBlock env call (f.block block) locals flags s with
    | .next target locals flags s => observeBlocks M fuel f target locals flags s
    | .returned value s => .returned value s
    | .panicked s => .panicked s
    | .timeout => .timeout

/-- **The interpreter, with everything that can be seen of it.** -/
def observe (M : Model) (fuel : Nat) : Observes μ := fun name arguments s =>
  match M.lookup name with
  | none => .panicked s
  | some f => observeBlocks env M fuel f f.entryBlock (bindArguments f.parameters arguments) 0 s

theorem observeBlocks_succ (M : Model) (fuel : Nat) (f : Function) (block : BlockRef) (locals : Locals)
    (flags : Nat) (s : Seen μ) :
    observeBlocks env M (fuel + 1) f block locals flags s =
      match observeBlock env (observe env M fuel) (f.block block) locals flags s with
      | .next target locals flags s => observeBlocks env M fuel f target locals flags s
      | .returned value s => .returned value s
      | .panicked s => .panicked s
      | .timeout => .timeout := rfl

/-! ### More fuel -/

/-- Calls that end do so in the same way. -/
def Observes.Refines (call call' : Observes μ) : Prop :=
  ∀ name arguments s, call name arguments s ≠ .timeout → call' name arguments s = call name arguments s

variable {call : Observes μ} {call' : Observes μ} {s : Seen μ} {b : Block}

theorem observeStatement_refines (h : call.Refines call') {r : Ref} {fr : Frame}
    (hne : observeStatement env call b r fr s ≠ .timeout) :
    observeStatement env call' b r fr s = observeStatement env call b r fr s := by
  revert hne
  unfold observeStatement
  cases (b.arena r).map fr.values with
  | call target args returnType =>
    unfold observeExec
    dsimp only
    cases args.mapM id with
    | none => exact fun _ => rfl
    | some arguments =>
      dsimp only
      intro hne
      have hcall : call target arguments s ≠ .timeout := fun h => by
        rw [h] at hne
        exact hne rfl
      rw [h target arguments s hcall]
  | _ => exact fun _ => rfl

theorem observeStatements_refines (h : call.Refines call') :
    ∀ {l : List Ref} {fr : Frame} {s : Seen μ}, observeStatements env call b l fr s ≠ .timeout →
      observeStatements env call' b l fr s = observeStatements env call b l fr s
  | [], _, _, _ => rfl
  | r :: rest, fr, s, hne => by
    unfold observeStatements at hne ⊢
    have hstatement : observeStatement env call b r fr s ≠ .timeout := fun h => by
      rw [h] at hne
      exact hne rfl
    rw [observeStatement_refines env h hstatement]
    split at hne
    · exact observeStatements_refines h hne
    all_goals rfl

variable {locals : Locals} {flags : Nat}

theorem observeBlock_refines (h : call.Refines call') (hne : observeBlock env call b locals flags s ≠ .timeout) :
    observeBlock env call' b locals flags s = observeBlock env call b locals flags s :=
  observeStatements_refines env h hne

/-! ### Fusing blocks -/

/-- Each block of the function does what it did, or what it and the block after it did together. -/
def Fuses (f f' : Function) : Prop :=
  ∀ (call : Observes μ) (b : BlockRef) (locals : Locals) (flags : Nat) (s : Seen μ),
    observeBlock env call (f'.block b) locals flags s = observeBlock env call (f.block b) locals flags s ∨
    ∃ target locals₁ flags₁ s₁, observeBlock env call (f.block b) locals flags s = .next target locals₁ flags₁ s₁ ∧
      observeBlock env call (f'.block b) locals flags s = observeBlock env call (f.block target) locals₁ flags₁ s₁

theorem Fuses.refl (f : Function) : Fuses env f f := fun _ _ _ _ _ => .inl rfl

/-- The functions of the second model are those of the first with blocks fused. -/
structure ModelFuses (M M' : Model) : Prop where
  absent : ∀ name, M.lookup name = none → M'.lookup name = none
  present : ∀ name f, M.lookup name = some f → ∃ f', M'.lookup name = some f' ∧ f'.entryBlock = f.entryBlock ∧
    f'.parameters = f.parameters ∧ Fuses env f f'

theorem ModelFuses.refl (M : Model) : ModelFuses env M M :=
  ⟨fun _ h => h, fun _ f h => ⟨f, h, rfl, rfl, .refl env f⟩⟩

variable {M M' : Model}

/-- What holds of the blocks of functions that are fused holds of calls. -/
theorem ModelFuses.calls (hM : ModelFuses env M M') {n m : Nat} {P : Outcome μ → Outcome μ → Prop}
    (hpanic : ∀ s, P (.panicked s) (.panicked s))
    (h : ∀ f f', Fuses env f f' → ∀ b locals flags s,
      P (observeBlocks env M n f b locals flags s) (observeBlocks env M' m f' b locals flags s)) (name : String)
    (arguments : List Value) (s : Seen μ) :
    P (observe env M n name arguments s) (observe env M' m name arguments s) := by
  unfold observe
  cases hf : M.lookup name with
  | none =>
    rw [hM.absent name hf]
    exact hpanic s
  | some f =>
    obtain ⟨f', hf', hentry, hparameters, hfuses⟩ := hM.present name f hf
    rw [hf']
    dsimp only
    rw [hentry, hparameters]
    exact h f f' hfuses _ _ _ _

/-- A run of the first model is one of the second, with no more fuel. -/
theorem ModelFuses.forward (hM : ModelFuses env M M') (n : Nat) :
    ∀ m, n ≤ m → ∀ f f', Fuses env f f' → ∀ b locals flags s, observeBlocks env M n f b locals flags s ≠ .timeout →
      observeBlocks env M' m f' b locals flags s = observeBlocks env M n f b locals flags s := by
  induction n using Nat.strongRecOn with
  | ind n ih =>
    intro m hnm f f' hf b locals flags s hne
    have hcalls : ∀ k < n, ∀ j, k ≤ j → (observe env M k).Refines (observe env M' j) :=
      fun k hk j hkj => hM.calls env (P := fun o o' => o ≠ .timeout → o' = o) (fun _ _ => rfl) (ih k hk j hkj)
    cases n with
    | zero => exact absurd rfl hne
    | succ k =>
      obtain ⟨j, rfl⟩ : ∃ j, m = j + 1 := ⟨m - 1, by omega⟩
      rw [observeBlocks_succ] at hne ⊢
      rw [observeBlocks_succ]
      have hblock : observeBlock env (observe env M k) (f.block b) locals flags s ≠ .timeout := fun h => by
        rw [h] at hne
        exact hne rfl
      have hsame := observeBlock_refines env (hcalls k (by omega) j (by omega)) hblock
      rcases hf (observe env M' j) b locals flags s with heq | ⟨target, locals1, flags1, s1, hnext, heq⟩
      · rw [heq, hsame]
        split at hne
        · exact ih k (by omega) j (by omega) f f' hf _ _ _ _ hne
        all_goals rfl
      · -- the two blocks one after the other
        rw [hsame] at hnext
        rw [hnext] at hne ⊢
        dsimp only at hne ⊢
        cases k with
        | zero => exact absurd rfl hne
        | succ k =>
          rw [observeBlocks_succ] at hne ⊢
          have hblock1 : observeBlock env (observe env M k) (f.block target) locals1 flags1 s1 ≠ .timeout :=
            fun h => by
              rw [h] at hne
              exact hne rfl
          rw [heq, observeBlock_refines env (hcalls k (by omega) j (by omega)) hblock1]
          split at hne
          · exact ih k (by omega) j (by omega) f f' hf _ _ _ _ hne
          all_goals rfl

/-- **More fuel does not change how a run ends.** -/
theorem observe_mono (M : Model) {n m : Nat} (h : n ≤ m) : (observe env M n).Refines (observe env M m) :=
  (ModelFuses.refl env M).calls env (P := fun o o' => o ≠ .timeout → o' = o) (fun _ _ => rfl)
    ((ModelFuses.refl env M).forward env n m h)

/-- A run of the second model is one of the first, with twice the fuel. -/
theorem ModelFuses.backward (hM : ModelFuses env M M') (n : Nat) :
    ∀ m, 2 * n ≤ m → ∀ f f', Fuses env f f' → ∀ b locals flags s,
      observeBlocks env M' n f' b locals flags s ≠ .timeout →
      observeBlocks env M m f b locals flags s = observeBlocks env M' n f' b locals flags s := by
  induction n with
  | zero => exact fun _ _ _ _ _ _ _ _ _ hne => absurd rfl hne
  | succ k ih =>
    intro m hnm f f' hf b locals flags s hne
    obtain ⟨i, rfl⟩ : ∃ i, m = i + 2 := ⟨m - 2, by omega⟩
    rw [observeBlocks_succ] at hne ⊢
    rw [observeBlocks_succ]
    have hblock : observeBlock env (observe env M' k) (f'.block b) locals flags s ≠ .timeout := fun h => by
      rw [h] at hne
      exact hne rfl
    have hsame := observeBlock_refines env (hM.calls env (P := fun o o' => o' ≠ .timeout → o = o') (fun _ _ => rfl)
      (ih i (by omega))) hblock
    rcases hf (observe env M i) b locals flags s with heq | ⟨target, locals1, flags1, s1, hnext, heq⟩
    · rw [hsame] at heq
      rw [heq] at hblock
      rw [observeBlock_refines env (observe_mono env M (Nat.le_succ i)) hblock, heq]
      rw [heq] at hne
      split at hne
      · exact ih (i + 1) (by omega) f f' hf _ _ _ _ hne
      all_goals rfl
    · have hfirst : observeBlock env (observe env M i) (f.block b) locals flags s ≠ .timeout := by
        rw [hnext]
        exact fun h => (by cases h)
      rw [observeBlock_refines env (observe_mono env M (Nat.le_succ i)) hfirst, hnext]
      dsimp only
      rw [observeBlocks_succ, ← heq, hsame]
      split at hne
      · exact ih i (by omega) f f' hf _ _ _ _ hne
      all_goals rfl

/-! ### Models that cannot be told apart -/

/-- **Calls end in the same way in the two models: they return the same after the same events, panic after the
same events, or do not end.** -/
def SameOutcomes (M M' : Model) : Prop :=
  ∀ name arguments s outcome, outcome ≠ .timeout → ((∃ fuel, observe env M fuel name arguments s = outcome) ↔
      ∃ fuel, observe env M' fuel name arguments s = outcome)

theorem SameOutcomes.trans {M1 M2 M3 : Model} (h : SameOutcomes env M1 M2) (h' : SameOutcomes env M2 M3) :
    SameOutcomes env M1 M3 := fun name arguments s outcome hne =>
  (h name arguments s outcome hne).trans (h' name arguments s outcome hne)

theorem ModelFuses.sameOutcomes (hM : ModelFuses env M M') : SameOutcomes env M M' := by
  intro name arguments s outcome hne
  refine ⟨?_, ?_⟩
  · rintro ⟨fuel, rfl⟩
    exact ⟨fuel, hM.calls env (P := fun o o' => o ≠ .timeout → o' = o) (fun _ _ => rfl)
      (hM.forward env fuel fuel (Nat.le_refl _)) name arguments s hne⟩
  · rintro ⟨fuel, rfl⟩
    exact ⟨2 * fuel, hM.calls env (P := fun o o' => o' ≠ .timeout → o = o') (fun _ _ => rfl)
      (hM.backward env fuel (2 * fuel) (Nat.le_refl _)) name arguments s hne⟩

/-- Putting the second function in the place of the first cannot be seen. -/
def Unseen (f f' : Function) : Prop :=
  ∀ (M : Model) (name : String), M.lookup name = some f → SameOutcomes env M (M.put name f')

/-- **A pass over one function that fuses blocks cannot be seen.** -/
theorem Unseen.of_fuses {f f' : Function} (hentry : f'.entryBlock = f.entryBlock)
    (hparameters : f'.parameters = f.parameters) (hfuses : Fuses env f f') : Unseen env f f' := by
  intro M name hf
  refine ModelFuses.sameOutcomes env ⟨fun other hother => ?_, fun other g hg => ?_⟩
  · have hne : other ≠ name := fun h => by
      rw [h, hf] at hother
      cases hother
    rw [Model.lookup_put_of_ne f' hne, hother]
  · by_cases hne : other = name
    · subst hne
      obtain rfl : f = g := Option.some.inj (hf.symm.trans hg)
      exact ⟨f', Model.lookup_put_self f' hf, hentry, hparameters, hfuses⟩
    · exact ⟨g, (Model.lookup_put_of_ne f' hne).trans hg, rfl, rfl, .refl env g⟩

theorem Unseen.refl (f : Function) : Unseen env f f := .of_fuses env rfl rfl (.refl env f)

theorem Unseen.trans {f1 f2 f3 : Function} (h : Unseen env f1 f2) (h' : Unseen env f2 f3) : Unseen env f1 f3 := by
  intro M name hf
  have hput := Model.lookup_put_self f2 hf
  have hsame : ∀ other, (M.put name f3).lookup other = ((M.put name f2).put name f3).lookup other := by
    intro other
    by_cases hne : other = name
    · subst hne
      rw [Model.lookup_put_self f3 hf, Model.lookup_put_self f3 hput]
    · rw [Model.lookup_put_of_ne f3 hne, Model.lookup_put_of_ne f3 hne, Model.lookup_put_of_ne f2 hne]
  exact ((h M name hf).trans env (h' _ name hput)).trans env (ModelFuses.sameOutcomes env
    ⟨fun n hn => (hsame n).trans hn, fun n f hf => ⟨f, (hsame n).trans hf, rfl, rfl, .refl env f⟩⟩)

/-! ### The interpreter itself -/

/-- What is returned, if anything. -/
def Outcome.result : Outcome μ → Option (Option Value × State μ)
  | .returned value s => some (value, s.state)
  | _ => none

def StatementOutcome.result : StatementOutcome μ → Option (Step μ)
  | .next value locals flags s => some (.next value locals flags s.state)
  | .goto target => some (.goto target)
  | .return_ value => some (.return_ value)
  | _ => none

def BlockOutcome.result : BlockOutcome μ → Option (BlockResult μ)
  | .next target locals flags s => some (.nextBlock target locals flags s.state)
  | .returned value s => some (.returnValue value s.state)
  | _ => none

/-- Calls return what they return in the interpreter. -/
def Observes.Agrees (call : Observes μ) (call' : Calls μ) : Prop :=
  ∀ name arguments s, (call name arguments s).result = call' name arguments s.state

variable {statement : Statement (Option Value)} {sourceTyp : Option Typ}

theorem exec_of_not_call {call : Calls μ} (call' : Calls μ) {st : State μ}
    (h : ∀ target args returnType, statement ≠ .call target args returnType) :
    exec env call sourceTyp locals flags st statement = exec env call' sourceTyp locals flags st statement := by
  cases statement with
  | call target args returnType => exact absurd rfl (h target args returnType)
  | return_ value => cases value <;> rfl
  | _ => rfl

theorem observeExec_of_not_call (h : ∀ target args returnType, statement ≠ .call target args returnType) :
    observeExec env call sourceTyp locals flags s statement =
      .ofStep s statement (exec env (fun _ _ _ => none) sourceTyp locals flags s.state statement) := by
  cases statement with
  | call target args returnType => exact absurd rfl (h target args returnType)
  | _ => rfl

variable {call' : Calls μ}

theorem observeExec_result (h : call.Agrees call') (sourceTyp : Option Typ) (locals : Locals) (flags : Nat) (s : Seen μ)
    (statement : Statement (Option Value)) :
    (observeExec env call sourceTyp locals flags s statement).result =
      exec env call' sourceTyp locals flags s.state statement := by
  by_cases hcall : ∃ target args returnType, statement = .call target args returnType
  · obtain ⟨target, args, returnType, rfl⟩ := hcall
    simp only [observeExec, exec]
    cases args.mapM id with
    | none => rfl
    | some arguments =>
      have hcall := h target arguments s
      dsimp only [Option.bind_eq_bind, Option.bind_some]
      rw [← hcall]
      cases call target arguments s <;> rfl
  · have hne : ∀ target args returnType, statement ≠ .call target args returnType :=
      fun target args returnType heq => hcall ⟨target, args, returnType, heq⟩
    rw [observeExec_of_not_call env hne, exec_of_not_call env call' hne]
    cases exec env call' sourceTyp locals flags s.state statement with
    | none => rfl
    | some step => cases step <;> rfl

theorem observeStatements_result (h : call.Agrees call') (b : Block) : ∀ (l : List Ref) (fr : Frame) (s : Seen μ),
      (observeStatements env call b l fr s).result = interpretStatements env call' b l fr s.state
  | [], _, _ => rfl
  | r :: rest, fr, s => by
    unfold observeStatements interpretStatements
    have hresult : (observeStatement env call b r fr s).result = execIn env call' b r fr s.state :=
      observeExec_result env h _ _ _ s _
    rw [← hresult]
    cases observeStatement env call b r fr s with
    | next value locals flags s => exact observeStatements_result h b rest _ s
    | _ => rfl

theorem observeBlocks_result (M : Model) {fuel : Nat} (h : (observe env M fuel).Agrees (interpret env M fuel))
    (ih : ∀ f b locals flags s, (observeBlocks env M fuel f b locals flags s).result =
      runBlocks env M fuel f b locals flags s.state) (f : Function) (b : BlockRef) (locals : Locals) (flags : Nat)
    (s : Seen μ) : (observeBlocks env M (fuel + 1) f b locals flags s).result =
      runBlocks env M (fuel + 1) f b locals flags s.state := by
  have hblock : (observeBlock env (observe env M fuel) (f.block b) locals flags s).result =
      interpretBlock env (interpret env M fuel) (f.block b) locals flags s.state :=
    observeStatements_result env h (f.block b) _ _ s
  rw [observeBlocks_succ, runBlocks_succ, ← hblock]
  cases observeBlock env (observe env M fuel) (f.block b) locals flags s with
  | next target locals flags s => exact ih f target locals flags s
  | _ => rfl

/-- **What is returned is what the interpreter returns.** -/
theorem observe_result (M : Model) (fuel : Nat) : (observe env M fuel).Agrees (interpret env M fuel) := by
  have hobserve : ∀ {n : Nat}, (∀ f b locals flags s, (observeBlocks env M n f b locals flags s).result =
      runBlocks env M n f b locals flags s.state) → (observe env M n).Agrees (interpret env M n) := by
    intro n h name arguments s
    unfold observe interpret
    cases M.lookup name with
    | none => rfl
    | some f => exact h f _ _ _ s
  have hblocks : ∀ f b locals flags s, (observeBlocks env M fuel f b locals flags s).result =
      runBlocks env M fuel f b locals flags s.state := by
    induction fuel with
    | zero => exact fun _ _ _ _ _ => rfl
    | succ fuel ih => exact observeBlocks_result env M (hobserve ih) ih
  exact hobserve hblocks

theorem SameOutcomes.interpret (h : SameOutcomes env M M') (name : String) (arguments : List Value) (st : State μ)
    (r : Option Value × State μ) :
    (∃ fuel, Rudder.interpret env M fuel name arguments st = some r) ↔
      ∃ fuel, Rudder.interpret env M' fuel name arguments st = some r := by
  -- a run that returns is seen to return after some events
  have hseen : ∀ {M : Model} {fuel : Nat}, Rudder.interpret env M fuel name arguments st = some r →
      ∃ events, observe env M fuel name arguments ⟨st, []⟩ = .returned r.1 ⟨r.2, events⟩ := by
    intro M fuel hr
    have hresult := observe_result env M fuel name arguments ⟨st, []⟩
    rw [hr] at hresult
    cases hobserve : observe env M fuel name arguments ⟨st, []⟩ with
    | returned value s =>
      rw [hobserve] at hresult
      cases hresult
      exact ⟨s.events, rfl⟩
    | panicked | timeout =>
      rw [hobserve] at hresult
      cases hresult
  have hback : ∀ {M : Model} {fuel : Nat} {events : List Event},
      observe env M fuel name arguments ⟨st, []⟩ = .returned r.1 ⟨r.2, events⟩ →
      Rudder.interpret env M fuel name arguments st = some r := by
    intro M fuel events hr
    have hresult := observe_result env M fuel name arguments ⟨st, []⟩
    rw [hr] at hresult
    exact hresult.symm
  refine ⟨?_, ?_⟩
  · rintro ⟨fuel, hr⟩
    obtain ⟨events, hobserve⟩ := hseen hr
    obtain ⟨fuel', hr'⟩ := (h name arguments ⟨st, []⟩ _ (fun heq => (by cases heq))).mp ⟨fuel, hobserve⟩
    exact ⟨fuel', hback hr'⟩
  · rintro ⟨fuel, hr⟩
    obtain ⟨events, hobserve⟩ := hseen hr
    obtain ⟨fuel', hr'⟩ := (h name arguments ⟨st, []⟩ _ (fun heq => (by cases heq))).mpr ⟨fuel, hobserve⟩
    exact ⟨fuel', hback hr'⟩

end Icewind.Rudder
