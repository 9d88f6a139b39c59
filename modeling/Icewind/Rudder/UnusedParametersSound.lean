import Icewind.Rudder.UnusedParameters
import Icewind.Rudder.Outcomes

/-!
# Removing unused parameters cannot be seen

* `LocalsAgree` — variables agree where the function uses them.
* `ArgumentsValued` — the arguments of calls are statements that have a value.
* `OutcomeCovers` — a run ends as before, or it panicked before and something may depend on that.
* `observeStatements_covers`, `observe_covers` — one block, and then whole runs.
* `removeUnusedParameters_spec` — the pass, for every schedule.
-/

namespace Icewind.Rudder.RemoveUnusedParameters

open List Option SymbolUseAnalysis

/-! ### Variables -/

/-- The variables that the function uses have the same values. -/
def LocalsAgree (f : Function) (locals locals' : Locals) : Prop :=
  ∀ name, isSymbolDead f name = false → locals' name = locals name

variable {f : Function} {locals locals' : Locals}

theorem LocalsAgree.update (h : LocalsAgree f locals locals') (name : String) (value : Option Value) :
    LocalsAgree f (Function.update locals name value) (Function.update locals' name value) := by
  intro other hother
  by_cases hne : other = name
  · rw [hne, Function.update_self, Function.update_self]
  · rw [Function.update_of_ne hne, Function.update_of_ne hne]
    exact h other hother

variable {name : String}

theorem LocalsAgree.update_dead (h : LocalsAgree f locals locals')
    (hdead : isSymbolDead f name = true) (value : Option Value) :
    LocalsAgree f (Function.update locals name value) locals' := by
  intro other hother
  have hne : other ≠ name := fun heq => by
    rw [heq, hdead] at hother
    cases hother
  rw [Function.update_of_ne hne]
  exact h other hother

/-- **Binding the arguments that are kept to the parameters that are kept.** -/
theorem bindArguments_agree (f : Function) : ∀ (ps : List Symbol) (args : List Value) {locals locals' : Locals},
    LocalsAgree f locals locals' →
    LocalsAgree f ((ps.zip args).foldl (fun locals p => Function.update locals p.1.name (some p.2)) locals)
      (((kept (isSymbolDead f) ps).zip (keepArguments (isSymbolDead f) ps args)).foldl
        (fun locals p => Function.update locals p.1.name (some p.2)) locals')
  | [], args, _, _, h => by
    cases args <;> exact h
  | p :: ps, [], _, _, h => by
    rw [keepArguments, zip_nil_right, zip_nil_right]
    · exact h
    · simp
  | p :: ps, a :: args, locals, locals', h => by
    unfold kept keepArguments
    cases hdead : isSymbolDead f p.name with
    | true =>
      rw [filter_cons_of_neg (by simp [hdead]), if_pos rfl]
      exact bindArguments_agree f ps args (h.update_dead hdead (some a))
    | false =>
      rw [filter_cons_of_pos (by simp [hdead]), if_neg Bool.false_ne_true]
      exact bindArguments_agree f ps args (h.update p.name (some a))

/-- A variable that a statement in a reachable block uses is not dead. -/
theorem isSymbolDead_eq_false (hf : f.RefsValid) {b : BlockRef} (hb : f.Reached b) {r : Ref}
    (hr : r ∈ (f.block b).statements)
    (h : ((f.block b).arena r).Writes name ∨ ((f.block b).arena r).Reads name) :
    isSymbolDead f name = false := by
  refine Bool.eq_false_iff.mpr fun hdead => ?_
  have hblock := all_eq_true.mp hdead b ((Function.mem_blockIter_iff hf).mpr hb)
  have hstatement := all_eq_true.mp hblock r hr
  simp only [Bool.not_eq_true', Bool.or_eq_false_iff, decide_eq_false_iff_not] at hstatement
  exact h.elim hstatement.1 hstatement.2

/-! ### Statements that have a value -/

/-- Every return of the function has a value. -/
def ReturnsValue (f : Function) : Prop := ¬ f.Contains (.return_ none)

/-- A statement that has a value. -/
def HasValue (M : Model) : Statement Ref → Prop
  | .call target _ _ => ∀ g, M.lookup target = some g → ReturnsValue g
  | .writeVariable _ _ | .writeRegister _ _ | .writeMemory _ _ | .writePc _ | .jump _ | .branch _ _ _ | .return_ _
  | .panic _ | .assert _ | .phiNode _ => False
  | _ => True

/-- **Every argument of a call is an earlier statement that has a value.** -/
def ArgumentsValued (M : Model) : Prop :=
  ∀ name f, M.lookup name = some f → ∀ b, f.Reached b → ∀ done r rest,
    (f.block b).statements = done ++ r :: rest → ∀ target args returnType,
      (f.block b).arena r = .call target args returnType → ∀ a ∈ args, a ∈ done ∧ HasValue M ((f.block b).arena a)

variable {μ : Type} (env : Environment μ)

/-- Calls of functions that return values return values. -/
def CallsValued (M : Model) (call : Observes μ) : Prop :=
  ∀ name g, M.lookup name = some g → ReturnsValue g →
    ∀ arguments s value t, call name arguments s = .returned value t → value.isSome

variable {call : Calls μ} {value : Option Value} {flags : Nat} {M : Model}

theorem exec_valued {sourceTyp : Option Typ} {fr : Frame} {st st' : State μ} {s : Statement Ref}
    (hcall : ∀ target args returnType, s ≠ .call target args returnType) (h : HasValue M s)
    (hexec : exec env call sourceTyp fr.locals fr.flags st (s.map fr.values) = some (.next value locals flags st')) :
    value.isSome := by
  refine (exec_next env hexec).2.2 ?_
  cases s with
  | call target args returnType => exact absurd rfl (hcall target args returnType)
  | writeVariable | writeRegister | writeMemory | writePc | assert => exact absurd h id
  | _ => rfl

/-- A call is followed into the function; anything else is a step of the interpreter. -/
theorem observeStatement_cases (call : Observes μ) (b : Block) (r : Ref) (fr : Frame) (s : Seen μ) :
    (∃ target args returnType, b.arena r = .call target args returnType ∧ observeStatement env call b r fr s =
        match (args.map fr.values).mapM id with
        | none => .panicked s
        | some arguments => .ofCall fr.locals fr.flags (call target arguments s)) ∨
    (∀ target args returnType, b.arena r ≠ .call target args returnType) ∧
      observeStatement env call b r fr s = .ofStep s ((b.arena r).map fr.values)
        (exec env (fun _ _ _ => none) (b.sourceTyp r) fr.locals fr.flags s.state ((b.arena r).map fr.values)) := by
  cases hs : b.arena r with
  | call target args returnType =>
    refine .inl ⟨target, args, returnType, rfl, ?_⟩
    unfold observeStatement
    rw [hs]
    rfl
  | _ =>
    refine .inr ⟨nofun, ?_⟩
    unfold observeStatement
    rw [hs]
    rfl

theorem observeStatement_valued {call : Observes μ} (hcall : CallsValued M call) {b : Block} {r : Ref}
    (hvalue : HasValue M (b.arena r))
    (habsent : ∀ name arguments s, M.lookup name = none → call name arguments s = .panicked s) {fr : Frame} {s : Seen μ}
    {t : Seen μ} (hnext : observeStatement env call b r fr s = .next value locals flags t) : value.isSome := by
  rcases observeStatement_cases env call b r fr s with ⟨target, args, returnType, hs, hobserve⟩ | ⟨hs, hobserve⟩
  · rw [hobserve] at hnext
    rw [hs] at hvalue
    cases hargs : (args.map fr.values).mapM id with
    | none =>
      rw [hargs] at hnext
      cases hnext
    | some arguments =>
      rw [hargs] at hnext
      dsimp only at hnext
      cases hg : M.lookup target with
      | none =>
        rw [habsent target arguments s hg] at hnext
        cases hnext
      | some g =>
        cases hreturned : call target arguments s with
        | returned v u =>
          rw [hreturned] at hnext
          cases hnext
          exact hcall target g hg (hvalue g hg) arguments s _ _ hreturned
        | panicked | timeout =>
          rw [hreturned] at hnext
          cases hnext
  · rw [hobserve] at hnext
    cases hexec : exec env (fun _ _ _ => none) (b.sourceTyp r) fr.locals fr.flags s.state
        ((b.arena r).map fr.values) with
    | none =>
      rw [hexec] at hnext
      cases hnext
    | some step =>
      rw [hexec] at hnext
      cases step with
      | next v l fl st =>
        cases hnext
        exact exec_valued env hs hvalue hexec
      | goto | return_ => cases hnext

theorem observeStatement_leaves (call : Observes μ) (b : Block) (r : Ref) (fr : Frame) (s : Seen μ) :
    (∀ target, observeStatement env call b r fr s = .goto target → target ∈ (b.arena r).targets) ∧
    ∀ value, observeStatement env call b r fr s = .return_ value → value.isSome ∨ b.arena r = .return_ none := by
  rcases observeStatement_cases env call b r fr s with ⟨target, args, returnType, hs, hobserve⟩ | ⟨hs, hobserve⟩
  · have hcall : ∀ o : Outcome μ, (∀ target, StatementOutcome.ofCall fr.locals fr.flags o ≠ .goto target) ∧
        ∀ value, StatementOutcome.ofCall fr.locals fr.flags o ≠ .return_ value := by
      intro o
      cases o <;> exact ⟨nofun, nofun⟩
    rw [hobserve]
    cases (args.map fr.values).mapM id with
    | none => exact ⟨nofun, nofun⟩
    | some arguments =>
      exact ⟨fun t h => absurd h ((hcall _).1 t), fun v h => absurd h ((hcall _).2 v)⟩
  · rw [hobserve]
    cases hexec : exec env (fun _ _ _ => none) (b.sourceTyp r) fr.locals fr.flags s.state
        ((b.arena r).map fr.values) with
    | none => exact ⟨nofun, nofun⟩
    | some step =>
      cases step with
      | next v l fl st => exact ⟨nofun, nofun⟩
      | goto target =>
        refine ⟨fun t h => ?_, nofun⟩
        cases h
        have htarget := exec_goto env hexec
        rwa [Statement.targets_map] at htarget
      | return_ v =>
        refine ⟨nofun, fun value h => ?_⟩
        cases h
        obtain ⟨w, hreturn, hv⟩ := exec_return env hexec
        cases harena : b.arena r <;> rw [harena] at hreturn <;> cases hreturn
        refine hv.imp_right fun hnone => ?_
        rw [Option.map_eq_none_iff.mp hnone]

/-- A block is left for one of its targets, and returns no value only by a return without one. -/
theorem observeStatements_leaves {call : Observes μ} {b : Block} : ∀ {l : List Ref} {fr : Frame} {s : Seen μ},
    l ⊆ b.statements →
    (∀ target locals flags t, observeStatements env call b l fr s = .next target locals flags t → target ∈ b.targets) ∧
    ∀ value t, observeStatements env call b l fr s = .returned value t →
      value.isSome ∨ ∃ r ∈ b.statements, b.arena r = .return_ none
  | [], _, _, _ => ⟨nofun, nofun⟩
  | r :: rest, fr, s, hsub => by
    have hr : r ∈ b.statements := hsub mem_cons_self
    obtain ⟨hgoto, hreturn⟩ := observeStatement_leaves env call b r fr s
    unfold observeStatements
    cases hstatement : observeStatement env call b r fr s with
    | next value locals flags t =>
      exact observeStatements_leaves fun x hx => hsub (mem_cons_of_mem r hx)
    | goto target =>
      refine ⟨fun t l f u h => ?_, by simp⟩
      cases h
      exact Block.mem_targets.mpr ⟨r, hr, hgoto _ hstatement⟩
    | return_ value =>
      refine ⟨by simp, fun v t h => ?_⟩
      cases h
      exact (hreturn _ hstatement).imp_right fun hnone => ⟨r, hr, hnone⟩
    | panicked | timeout => simp

theorem observeBlock_leaves (call : Observes μ) (b : Block) (locals : Locals) (flags : Nat) (s : Seen μ) :
    (∀ target locals' flags' t, observeBlock env call b locals flags s = .next target locals' flags' t →
      target ∈ b.targets) ∧
    ∀ value t, observeBlock env call b locals flags s = .returned value t →
      value.isSome ∨ ∃ r ∈ b.statements, b.arena r = .return_ none :=
  observeStatements_leaves env fun _ hx => hx

/-- **A function all of whose returns have a value returns a value.** -/
theorem observeBlocks_valued (M : Model) (hf : ReturnsValue f) : ∀ (fuel : Nat) {b : BlockRef}
    {locals : Locals} {flags : Nat} {s : Seen μ} {value : Option Value} {t : Seen μ}, f.Reached b →
    observeBlocks env M fuel f b locals flags s = .returned value t → value.isSome
  | 0, _, _, _, _, _, _, _, h => by cases h
  | fuel + 1, b, locals, flags, s, value, t, hb, h => by
    rw [observeBlocks_succ] at h
    cases hblock : observeBlock env (observe env M fuel) (f.block b) locals flags s with
    | next target locals' flags' s' =>
      rw [hblock] at h
      exact observeBlocks_valued M hf fuel (hb.tail ((observeBlock_leaves env _ _ _ _ _).1 _ _ _ _ hblock)) h
    | returned v u =>
      rw [hblock] at h
      cases h
      rcases (observeBlock_leaves env _ _ _ _ _).2 _ _ hblock with hsome | ⟨r, hr, hnone⟩
      · exact hsome
      · exact absurd ⟨b, hb, r, hr, hnone⟩ hf
    | panicked | timeout =>
      rw [hblock] at h
      cases h

theorem observe_valued (M : Model) (fuel : Nat) : CallsValued M (observe env M fuel) := by
  intro name g hg hvalue arguments s value t h
  unfold observe at h
  rw [hg] at h
  exact observeBlocks_valued env M hvalue fuel .refl h

theorem observe_absent (M : Model) (fuel : Nat) (name : String) (arguments : List Value) (s : Seen μ)
    (h : M.lookup name = none) : observe env M fuel name arguments s = .panicked s := by
  unfold observe
  rw [h]

/-! ### Arguments -/

theorem keepArguments_map {α β : Type} (g : α → β) (dead : String → Bool) : ∀ (ps : List Symbol) (args : List α),
    keepArguments dead ps (args.map g) = (keepArguments dead ps args).map g
  | [], [] => rfl
  | [], _ :: _ => rfl
  | _ :: _, [] => rfl
  | p :: ps, a :: args => by
    rw [map_cons, keepArguments, keepArguments, keepArguments_map g dead ps args]
    split <;> rfl

theorem keptArguments_map {α β : Type} (g : α → β) (M : Model) (target : String) (args : List α) :
    keptArguments M target (args.map g) = (keptArguments M target args).map g := by
  unfold keptArguments
  cases M.lookup target with
  | none => rfl
  | some f => exact keepArguments_map g _ _ _

theorem mapM_id_eq_some {values : List (Option Value)} {arguments : List Value} :
    values.mapM id = some arguments ↔ values = arguments.map some := by
  induction values generalizing arguments with
  | nil =>
    cases arguments with
    | nil => exact ⟨fun _ => rfl, fun _ => rfl⟩
    | cons a arguments => exact ⟨nofun, nofun⟩
  | cons v values ih =>
    rw [mapM_cons]
    refine ⟨fun h => ?_, fun h => ?_⟩
    · obtain ⟨w, rest, hw, hrest, h⟩ := bind₂_eq_some h
      cases h
      rw [ih.mp hrest, map_cons]
      exact congrArg (· :: _) hw
    · cases arguments with
      | nil => cases h
      | cons a arguments =>
        obtain ⟨rfl, hrest⟩ := List.cons.inj h
        rw [ih.mpr hrest]
        rfl

/-! ### Blocks -/

theorem FixedBlock.sourceTyp {b b' : Block} (h : FixedBlock M b b') (r : Ref) :
    b'.sourceTyp r = b.sourceTyp r := by
  refine Block.sourceTyp_congr h.arenaSize (fun x => ?_) r
  by_cases hx : x ∈ b.statements
  · rw [h.arena x hx]
    cases b.arena x <;> rfl
  · rw [h.other x hx]

/-- The step with other variables in its frame. -/
def Step.withLocals (locals : Locals) : Step μ → Step μ
  | .next value _ flags st => .next value locals flags st
  | step => step

/-- The variables before a statement matter to reads and writes of variables only. -/
theorem exec_withLocals {sourceTyp : Option Typ} (locals locals' : Locals) {st : State μ} {s : Statement (Option Value)}
    (hread : ∀ symbol, s ≠ .readVariable symbol) (hwrite : ∀ symbol value, s ≠ .writeVariable symbol value) :
    exec env call sourceTyp locals' flags st s =
      (exec env call sourceTyp locals flags st s).map (Step.withLocals locals') := by
  cases s with
  | readVariable symbol => exact absurd rfl (hread symbol)
  | writeVariable symbol value => exact absurd rfl (hwrite symbol value)
  | ternaryOperation kind a b c =>
    cases kind
    cases a <;> cases b <;> cases c <;> try rfl
    simp only [exec, bind_eq_bind, bind_some]
    split <;> rfl
  | return_ value =>
    cases value with
    | none => rfl
    | some value => cases value <;> rfl
  | assert condition =>
    simp only [exec, bind_eq_bind, map_bind, Function.comp_def]
    congr 1
    funext v
    split <;> rfl
  | _ => simp [exec, map_bind, Function.comp_def, Step.withLocals]

/-- A run ends as before, or it panicked before, for want of an argument. -/
def OutcomeCovers (strict : Prop) (o o' : Outcome μ) : Prop := o' = o ∨ ¬ strict ∧ ∃ s, o = .panicked s

inductive StatementCovers (strict : Prop) (f : Function) : StatementOutcome μ → StatementOutcome μ → Prop
  | next {value : Option Value} {locals locals' : Locals} {flags : Nat} {s : Seen μ} (h : LocalsAgree f locals locals') :
      StatementCovers strict f (.next value locals flags s) (.next value locals' flags s)
  | goto (target : BlockRef) : StatementCovers strict f (.goto target) (.goto target)
  | return_ (value : Option Value) : StatementCovers strict f (.return_ value) (.return_ value)
  | panicked (s : Seen μ) : StatementCovers strict f (.panicked s) (.panicked s)
  | timeout : StatementCovers strict f .timeout .timeout
  | lost (h : ¬ strict) (s : Seen μ) (o : StatementOutcome μ) : StatementCovers strict f (.panicked s) o

inductive BlockCovers (strict : Prop) (f : Function) : BlockOutcome μ → BlockOutcome μ → Prop
  | next {target : BlockRef} {locals locals' : Locals} {flags : Nat} {s : Seen μ} (h : LocalsAgree f locals locals') :
      BlockCovers strict f (.next target locals flags s) (.next target locals' flags s)
  | same (o : BlockOutcome μ) : BlockCovers strict f o o
  | lost (h : ¬ strict) (s : Seen μ) (o : BlockOutcome μ) : BlockCovers strict f (.panicked s) o

/-- Calls with the arguments that are kept. -/
def CallsCover (strict : Prop) (M : Model) (call call' : Observes μ) : Prop :=
  ∀ name arguments s, OutcomeCovers strict (call name arguments s) (call' name (keptArguments M name arguments) s)

/-- The frames of a block before and after the pass. -/
structure FrameAgrees (f : Function) (fr fr' : Frame) : Prop where
  locals : LocalsAgree f fr.locals fr'.locals
  flags : fr'.flags = fr.flags
  values : fr'.values = fr.values

theorem ofStep_covers (strict : Prop) {sourceTyp : Option Typ} (h : LocalsAgree f locals locals') {s : Seen μ}
    {statement : Statement (Option Value)}
    (hused : ∀ name, statement.Writes name ∨ statement.Reads name → isSymbolDead f name = false) :
    StatementCovers strict f (.ofStep s statement (exec env call sourceTyp locals flags s.state statement))
      (.ofStep s statement (exec env call sourceTyp locals' flags s.state statement)) := by
  by_cases hread : ∃ symbol, statement = .readVariable symbol
  · obtain ⟨symbol, rfl⟩ := hread
    simp only [exec]
    rw [h symbol.name (hused symbol.name (.inr rfl))]
    cases locals symbol.name with
    | none => exact .panicked s
    | some v => exact .next h
  by_cases hwrite : ∃ symbol value, statement = .writeVariable symbol value
  · obtain ⟨symbol, value, rfl⟩ := hwrite
    cases value with
    | none => exact .panicked s
    | some v => exact .next (h.update symbol.name (some v))
  have hread' : ∀ symbol, statement ≠ .readVariable symbol := fun symbol heq => hread ⟨symbol, heq⟩
  have hwrite' : ∀ symbol value, statement ≠ .writeVariable symbol value :=
    fun symbol value heq => hwrite ⟨symbol, value, heq⟩
  rw [exec_withLocals env locals locals' hread' hwrite']
  cases hexec : exec env call sourceTyp locals flags s.state statement with
  | none => exact .panicked s
  | some step =>
    cases step with
    | next value locals1 flags1 st =>
      rcases (exec_next env hexec).1 with ⟨symbol, v, heq, -⟩ | ⟨-, rfl⟩
      · exact absurd heq (hwrite' symbol _)
      · exact .next h
    | goto target => exact .goto target
    | return_ value => exact .return_ value

theorem OutcomeCovers.ofCall {strict : Prop} {o o' : Outcome μ} (h : OutcomeCovers strict o o')
    (hlocals : LocalsAgree f locals locals') (flags : Nat) :
    StatementCovers strict f (.ofCall locals flags o) (.ofCall locals' flags o') := by
  rcases h with rfl | ⟨hlost, s, rfl⟩
  · cases o' with
    | returned value s => exact .next hlocals
    | panicked s => exact .panicked s
    | timeout => exact .timeout
  · exact .lost hlost s _

section Block

variable {strict : Prop} {M : Model} {f : Function} {b b' : Block} {call call' : Observes μ}
  (hb : FixedBlock M b b') (hcalls : CallsCover strict M call call')
  (hused : ∀ r ∈ b.statements, ∀ name, (b.arena r).Writes name ∨ (b.arena r).Reads name → isSymbolDead f name = false)
include hb hcalls hused

/-- **One statement.** -/
theorem observeStatement_covers {r : Ref} (hr : r ∈ b.statements) {fr fr' : Frame} (hfr : FrameAgrees f fr fr')
    (hvalues : strict → ∀ target args returnType, b.arena r = .call target args returnType →
      ∀ a ∈ args, (fr.values a).isSome) (s : Seen μ) :
    StatementCovers strict f (observeStatement env call b r fr s) (observeStatement env call' b' r fr' s) := by
  have harena := hb.arena r hr
  rcases observeStatement_cases env call b r fr s with ⟨target, args, returnType, hs, hobserve⟩ | ⟨hs, hobserve⟩
  · rw [hs] at harena
    have hobserve' : observeStatement env call' b' r fr' s =
        match (keptArguments M target (args.map fr.values)).mapM id with
        | none => .panicked s
        | some arguments => .ofCall fr'.locals fr'.flags (call' target arguments s) := by
      unfold observeStatement
      rw [harena, hfr.values, keptArguments_map]
      rfl
    rw [hobserve, hobserve', hfr.flags]
    cases harguments : (args.map fr.values).mapM id with
    | some arguments =>
      rw [mapM_id_eq_some.mp harguments, keptArguments_map, mapM_id_eq_some.mpr rfl]
      exact (hcalls target arguments s).ofCall hfr.locals fr.flags
    | none =>
      refine .lost (fun hstrict => ?_) s _
      -- all arguments have values
      have hall := hvalues hstrict target args returnType hs
      have hsome : (args.map fr.values).mapM id = some (args.map fun a => ((fr.values a).getD (.string ""))) := by
        refine mapM_id_eq_some.mpr ?_
        rw [List.map_map]
        refine map_congr_left fun a ha => ?_
        obtain ⟨v, hv⟩ := isSome_iff_exists.mp (hall a ha)
        rw [Function.comp_apply, hv]
        rfl
      rw [harguments] at hsome
      cases hsome
  · have hsame : b'.arena r = b.arena r := by
      rw [harena]
      cases hs' : b.arena r with
      | call target args returnType => exact absurd hs' (hs target args returnType)
      | _ => rfl
    have hobserve' : observeStatement env call' b' r fr' s = .ofStep s ((b.arena r).map fr.values)
        (exec env (fun _ _ _ => none) (b.sourceTyp r) fr'.locals fr.flags s.state ((b.arena r).map fr.values)) := by
      rcases observeStatement_cases env call' b' r fr' s with ⟨target, args, returnType, hcall, -⟩ | ⟨-, hobserve'⟩
      · exact absurd (hsame.symm.trans hcall) (hs target args returnType)
      · rw [hobserve', hsame, hb.sourceTyp, hfr.values, hfr.flags]
    rw [hobserve, hobserve']
    refine ofStep_covers env strict hfr.locals fun name hname => hused r hr name ?_
    cases hs' : b.arena r with
    | _ =>
      rw [hs'] at hname
      exact hname

/-- **The statements of a block**: frames stay in agreement, and statements that have a value have got one. -/
theorem observeStatements_covers (hvalued : strict → CallsValued M call)
    (habsent : ∀ name arguments s, M.lookup name = none → call name arguments s = .panicked s)
    (harguments : strict → ∀ done r rest, b.statements = done ++ r :: rest → ∀ target args returnType,
      b.arena r = .call target args returnType → ∀ a ∈ args, a ∈ done ∧ HasValue M (b.arena a)) :
    ∀ {rest : List Ref} (done : List Ref) {fr fr' : Frame} {s : Seen μ}, b.statements = done ++ rest → FrameAgrees f fr fr' →
      (strict → ∀ a ∈ done, HasValue M (b.arena a) → (fr.values a).isSome) →
      BlockCovers strict f (observeStatements env call b rest fr s) (observeStatements env call' b' rest fr' s)
  | [], _, _, _, s, _, _, _ => .same (.panicked s)
  | r :: rest, done, fr, fr', s, hsplit, hfr, hvalues => by
    have hr : r ∈ b.statements := by
      rw [hsplit]
      simp
    have hstatement := observeStatement_covers env hb hcalls hused hr hfr (fun hstrict target args returnType hs a ha =>
      have ⟨hdone, hvalue⟩ := harguments hstrict done r rest hsplit target args returnType hs a ha
      hvalues hstrict a hdone hvalue) s
    have hgives : ∀ {value locals flags t}, observeStatement env call b r fr s = .next value locals flags t → strict →
        HasValue M (b.arena r) → value.isSome := fun hnext hstrict hvalue =>
      observeStatement_valued env (hvalued hstrict) hvalue habsent hnext
    unfold observeStatements
    generalize observeStatement env call b r fr s = o at hstatement hgives ⊢
    generalize observeStatement env call' b' r fr' s = o' at hstatement ⊢
    cases hstatement with
    | next hlocals =>
      rename_i value locals locals' flags t
      refine observeStatements_covers hvalued habsent harguments (done ++ [r]) (by rw [hsplit]; simp) ?_ ?_
      · refine ⟨hlocals, rfl, ?_⟩
        change (if value.isSome then Function.update fr'.values r value else fr'.values) = _
        rw [hfr.values]
        rfl
      · intro hstrict a ha hvalue
        change ((if value.isSome then Function.update fr.values r value else fr.values) a).isSome
        by_cases har : a = r
        · subst har
          have hsome := hgives rfl hstrict hvalue
          rw [if_pos hsome, Function.update_self]
          exact hsome
        · have hold := hvalues hstrict a ((mem_append.mp ha).resolve_right fun h => har (mem_singleton.mp h)) hvalue
          split
          · rw [Function.update_of_ne har]
            exact hold
          · exact hold
    | goto target =>
      dsimp only
      rw [hfr.flags]
      exact .next hfr.locals
    | return_ | panicked | timeout => exact .same _
    | lost hlost t o => exact .lost hlost t _

end Block

/-! ### Runs -/

section Runs

variable {strict : Prop} {M M' : Model} (hM : Valid M) (hstrict : strict → ArgumentsValued M)
include hM hstrict

theorem observeBlock_covers {f f' : Function} (hf : M.lookup name = some f)
    (hfixed : FixedFunction M f f') {b : BlockRef} (hb : f.Reached b) {fuel : Nat}
    (hcalls : CallsCover strict M (observe env M fuel) (observe env M' fuel)) {locals locals' : Locals}
    (hlocals : LocalsAgree f locals locals') (flags : Nat) (s : Seen μ) :
    BlockCovers strict f (observeBlock env (observe env M fuel) (f.block b) locals flags s)
      (observeBlock env (observe env M' fuel) (f'.block b) locals' flags s) := by
  have hblock := hfixed.block b hb
  unfold observeBlock
  rw [hblock.statements]
  exact observeStatements_covers env hblock hcalls
    (fun r hr n hn => isSymbolDead_eq_false (hM.refs name f hf) hb hr hn) (fun _ => observe_valued env M fuel)
    (observe_absent env M fuel) (fun h => hstrict h name f hf b hb) [] rfl ⟨hlocals, rfl, rfl⟩
    fun _ a ha => absurd ha not_mem_nil

theorem observeBlocks_covers : ∀ {fuel : Nat} {name : String} {f f' : Function}, M.lookup name = some f →
    FixedFunction M f f' → ∀ {b : BlockRef}, f.Reached b → ∀ {locals locals' : Locals},
    LocalsAgree f locals locals' → ∀ (flags : Nat) (s : Seen μ),
    (∀ n < fuel, CallsCover strict M (observe env M n) (observe env M' n)) →
    OutcomeCovers strict (observeBlocks env M fuel f b locals flags s) (observeBlocks env M' fuel f' b locals' flags s)
  | 0, _, _, _, _, _, _, _, _, _, _, _, _, _ => .inl rfl
  | fuel + 1, name, f, f', hf, hfixed, b, hb, locals, locals', hlocals, flags, s, hcalls => by
    have hblock := observeBlock_covers env hM hstrict hf hfixed hb (hcalls fuel (Nat.lt_succ_self fuel)) hlocals flags s
    have htargets := (observeBlock_leaves env (observe env M fuel) (f.block b) locals flags s).1
    rw [observeBlocks_succ, observeBlocks_succ]
    generalize observeBlock env (observe env M fuel) (f.block b) locals flags s = o at hblock htargets ⊢
    generalize observeBlock env (observe env M' fuel) (f'.block b) locals' flags s = o' at hblock ⊢
    have hnext : ∀ {target : BlockRef} {l l' : Locals}, target ∈ (f.block b).targets → LocalsAgree f l l' →
        ∀ flags s, OutcomeCovers strict (observeBlocks env M fuel f target l flags s)
          (observeBlocks env M' fuel f' target l' flags s) := fun htarget hl flags s =>
      observeBlocks_covers hf hfixed (hb.tail htarget) hl flags s fun n hn => hcalls n (Nat.lt_succ_of_lt hn)
    cases hblock with
    | next hl => exact hnext (htargets _ _ _ _ rfl) hl _ _
    | same =>
      cases o with
      | next target l fl t => exact hnext (htargets _ _ _ _ rfl) (fun _ _ => rfl) fl t
      | returned | panicked | timeout => exact .inl rfl
    | lost hlost t => exact .inr ⟨hlost, t, rfl⟩

/-- **Every run with the arguments that are kept ends as before**, or it panicked before. -/
theorem observe_covers (hfixes : Fixes M M') (fuel : Nat) : CallsCover strict M (observe env M fuel) (observe env M' fuel) := by
  induction fuel using Nat.strongRecOn with
  | ind fuel ih =>
    intro name arguments s
    cases hf : M.lookup name with
    | none =>
      rw [observe_absent env M fuel name arguments s hf, observe_absent env M' fuel name _ s (hfixes.absent name hf)]
      exact .inl rfl
    | some f =>
      obtain ⟨f', hf', hfixed⟩ := hfixes.present name f hf
      unfold observe keptArguments
      rw [hf, hf']
      dsimp only
      rw [hfixed.entryBlock]
      refine observeBlocks_covers env hM hstrict hf hfixed .refl ?_ 0 s ih
      unfold bindArguments
      rw [hfixed.parameters]
      exact bindArguments_agree f f.parameters arguments fun _ _ => rfl

end Runs

/-- **Removing unused parameters**: no interleaving of the tasks panics.  When they have ended, the call sites are
fixed without a panic if every call has its arguments.  Every function then keeps the parameters it uses, and every
call of a function of the model the arguments of those, in the same order.  A run with the arguments that are kept is
the run it was, unless that panicked; where arguments have values it is the run it was in any case. -/
theorem removeUnusedParameters_spec (M : Model) (hM : Valid M) (hdistinct : DistinctParameters M)
    (schedule : List String) : ∃ st, (Removal.start M).run schedule = some st ∧ (st.Finished →
      (CallsComplete M → ∃ M' changed, fixCallSites st.deadParameters (st.model M) = some (M', changed)) ∧
      ∀ M' changed, fixCallSites st.deadParameters (st.model M) = some (M', changed) → Fixes M M' ∧
        (∀ fuel name arguments s,
          observe env M' fuel name (keptArguments M name arguments) s = observe env M fuel name arguments s ∨
            ∃ t, observe env M fuel name arguments s = .panicked t) ∧
        (ArgumentsValued M → ∀ fuel name arguments s,
          observe env M' fuel name (keptArguments M name arguments) s = observe env M fuel name arguments s)) := by
  obtain ⟨st, hrun, hinv⟩ := (Removal.start_inv M).run hdistinct schedule
  refine ⟨st, hrun, fun hfinished => ⟨fixCallSites_total hM hinv hfinished, fun M' changed hfix => ?_⟩⟩
  have hfixes := fixCallSites_fixes hM hinv hfinished hfix
  refine ⟨hfixes, fun fuel name arguments s => ?_, fun hvalued fuel name arguments s => ?_⟩
  · rcases observe_covers env hM (False.elim) hfixes fuel name arguments s with hsame | ⟨-, hpanicked⟩
    · exact .inl hsame
    · exact .inr hpanicked
  · rcases observe_covers env hM (fun _ => hvalued) hfixes fuel name arguments s with hsame | ⟨hlost, -⟩
    · exact hsame
    · exact absurd trivial hlost

/-- A function that uses the second of its three parameters. -/
def usesSecond : Function where
  parameters := [⟨"a", .u 64⟩, ⟨"b", .u 64⟩, ⟨"c", .u 64⟩]
  localVariables := []
  blockCount := 1
  block := fun _ =>
    { arenaSize := 2
      arena := fun
        | 0 => .readVariable ⟨"b", .u 64⟩
        | _ => .return_ (some 0)
      statements := [0, 1] }
  entryBlock := 0

/-- A function that calls it. -/
def callsIt : Function where
  parameters := [⟨"x", .u 64⟩]
  localVariables := []
  blockCount := 1
  block := fun _ =>
    { arenaSize := 5
      arena := fun
        | 0 => .constant (.unsignedInteger 1 64)
        | 1 => .constant (.unsignedInteger 2 64)
        | 2 => .constant (.unsignedInteger 3 64)
        | 3 => .call "f" [0, 1, 2] (some (.u 64))
        | _ => .return_ (some 3)
      statements := [0, 1, 2, 3, 4] }
  entryBlock := 0

def twoFunctions : Model := [("f", usesSecond), ("main", callsIt)]

theorem twoFunctions_lookup (h : twoFunctions.lookup name = some f) :
    (name = "f" ∧ f = usesSecond) ∨ (name = "main" ∧ f = callsIt) := by
  unfold twoFunctions at h
  rw [lookup_cons, lookup_cons] at h
  cases hf : name == "f" with
  | true =>
    rw [hf] at h
    cases h
    exact .inl ⟨eq_of_beq hf, rfl⟩
  | false =>
    rw [hf] at h
    cases hmain : name == "main" with
    | true =>
      rw [hmain] at h
      cases h
      exact .inr ⟨eq_of_beq hmain, rfl⟩
    | false =>
      rw [hmain] at h
      cases h

theorem twoFunctions_valid : Valid twoFunctions := by
  refine ⟨by decide, fun name f hf => ?_, fun name f hf b _ => ?_⟩
  · rcases twoFunctions_lookup hf with ⟨-, rfl⟩ | ⟨-, rfl⟩ <;>
      exact ⟨Nat.one_pos, fun b _ t ht => absurd ht not_mem_nil⟩
  · rcases twoFunctions_lookup hf with ⟨-, rfl⟩ | ⟨-, rfl⟩
    · change ([0, 1] : List Ref).Nodup
      decide
    · change ([0, 1, 2, 3, 4] : List Ref).Nodup
      decide

theorem twoFunctions_distinct : DistinctParameters twoFunctions := by
  intro name f hf
  rcases twoFunctions_lookup hf with ⟨-, rfl⟩ | ⟨-, rfl⟩ <;> decide

theorem twoFunctions_argumentsValued : ArgumentsValued twoFunctions := by
  intro name f hf b _ done r rest hsplit target args returnType hs a ha
  rcases twoFunctions_lookup hf with ⟨-, rfl⟩ | ⟨-, rfl⟩
  · match r with
    | 0 => cases hs
    | _ + 1 => cases hs
  · have hwellFormed : (callsIt.block 0).WellFormed :=
      Block.wellFormed_of_orderedFrom (by decide) (by decide) (by decide)
    change (callsIt.block 0).arena r = .call target args returnType at hs
    refine ⟨hwellFormed.ordered done r rest hsplit a (by rw [hs]; exact ha), ?_⟩
    match r with
    | 0 => cases hs
    | 1 => cases hs
    | 2 => cases hs
    | 3 =>
      cases hs
      simp only [mem_cons, not_mem_nil, or_false] at ha
      rcases ha with rfl | rfl | rfl <;> exact trivial
    | _ + 4 => cases hs

/-- Two tasks taking turns: the call keeps its second argument. -/
theorem removeUnusedParameters_spec_twoFunctions :
    ∃ st M', (Removal.start twoFunctions).run ["f", "main", "f", "f"] = some st ∧ st.Finished ∧
      st.deadParameters = [("f", 2), ("main", 0), ("f", 0)] ∧
      fixCallSites st.deadParameters (st.model twoFunctions) = some (M', true) ∧
      (M'.lookup "main").map (fun f => (f.parameters.length, (f.block 0).arena 3)) =
        some (0, .call "f" [1] (some (.u 64))) ∧
      ∀ (env : Environment Unit) fuel arguments s,
        observe env M' fuel "f" (keptArguments twoFunctions "f" arguments) s =
          observe env twoFunctions fuel "f" arguments s := by
  have hspec := fun env : Environment Unit =>
    removeUnusedParameters_spec env twoFunctions twoFunctions_valid twoFunctions_distinct ["f", "main", "f", "f"]
  obtain ⟨st, hrun, hinv⟩ := (Removal.start_inv twoFunctions).run twoFunctions_distinct ["f", "main", "f", "f"]
  have hremaining : ∀ name, name = "f" ∨ name = "main" → ((Removal.start twoFunctions).run ["f", "main", "f", "f"]).bind
        (fun st => (st.tasks name).map Task.remaining) = some [] := by
    rintro name (rfl | rfl) <;> rfl
  have hfinished : st.Finished := by
    intro name task htask
    cases hf : twoFunctions.lookup name with
    | none =>
      rw [(hinv.absent name hf).1] at htask
      cases htask
    | some f =>
      have hname := hremaining name ((twoFunctions_lookup hf).imp And.left And.left)
      rw [hrun, bind_some, htask] at hname
      exact some.inj hname
  have hfix : ∃ M', ((Removal.start twoFunctions).run ["f", "main", "f", "f"]).bind
      (fun st => fixCallSites st.deadParameters (st.model twoFunctions)) = some (M', true) ∧
      (M'.lookup "main").map (fun f => (f.parameters.length, (f.block 0).arena 3)) =
        some (0, .call "f" [1] (some (.u 64))) := ⟨_, rfl, rfl⟩
  have hdead : ((Removal.start twoFunctions).run ["f", "main", "f", "f"]).map Removal.deadParameters =
      some [("f", 2), ("main", 0), ("f", 0)] := rfl
  obtain ⟨M', hfix, hmain⟩ := hfix
  rw [hrun] at hfix hdead
  refine ⟨st, M', hrun, hfinished, some.inj hdead, hfix, hmain, fun env fuel arguments s => ?_⟩
  obtain ⟨st', hrun', hthen⟩ := hspec env
  obtain rfl : st = st' := some.inj (hrun.symm.trans hrun')
  exact ((hthen hfinished).2 M' true hfix).2.2 twoFunctions_argumentsValued fuel "f" arguments s

end Icewind.Rudder.RemoveUnusedParameters
