import Icewind.Rudder.Interpret
import Icewind.Rudder.Typing

/-!
# Runs of the interpreter

What passes need to know of `interpret`, proved once.

* `Calls.Refines` — every call that returns does so in the same way.
* `FunctionSim` — a relation between the local variables of two functions that their blocks keep.
  `interpret_refines` extends it to calls and runs of any length.
* `interpretStatements_congr` — two blocks that do the same statement by statement.
* `Block.Consistent` — the statements that only compute a value would compute it again.
-/

namespace Icewind.Rudder

open List Option

variable {μ : Type} (env : Environment μ)

/-! ### Statements -/

namespace Statement

variable {ρ ρ' : Type}

/-- The statements that do nothing but compute a value from their operands. -/
def Computes : Statement ρ → Prop
  | constant _ | unaryOperation _ _ | binaryOperation _ _ _ | shiftOperation _ _ _ | cast _ _ _
  | bitsCast _ _ _ _ | select _ _ _ | bitExtract _ _ _ | bitInsert _ _ _ _ | assignElement _ _ _
  | createBits _ _ | sizeOf _ | createTuple _ | tupleAccess _ _ | bitReplicate _ _
  | readElement _ _ | matchesUnion _ _ | unwrapUnion _ _ | createReal _ _ => True
  | _ => False

variable {s : Statement ρ}

theorem map_congr {g h : ρ → ρ'} (hphi : ∀ members, s ≠ phiNode members)
    (hgh : ∀ o ∈ s.operands, g o = h o) : s.map g = s.map h := by
  cases s with
  | phiNode members => exact absurd rfl (hphi members)
  | call target args returnType =>
    have hargs : args.map g = args.map h := map_congr_left hgh
    simp only [map, hargs]
  | createTuple values =>
    have hvalues : values.map g = values.map h := map_congr_left hgh
    simp only [map, hvalues]
  | return_ value =>
    cases value with
    | none => rfl
    | some o => simp [map, hgh o (by simp [operands])]
  | _ => simp_all [map, operands]

theorem Computes.not_phi (h : s.Computes) : ∀ members, s ≠ phiNode members := by
  rintro members rfl
  exact h

theorem computes_map {g : ρ → ρ'} : (s.map g).Computes ↔ s.Computes := by
  cases s <;> exact Iff.rfl

end Statement

variable {call : Calls μ} {sourceTyp : Option Typ} {locals : Locals} {flags : Nat} {st : State μ}
    {s : Statement (Option Value)}

theorem exec_computes (h : s.Computes) : exec env call sourceTyp locals flags st s =
      (evaluate env sourceTyp s).map fun v => .next (some v) locals flags st := by
  cases s <;> first | exact absurd h id | skip
  all_goals
    simp only [exec]
    cases evaluate env sourceTyp _ <;> rfl

/-! ### Calls -/

/-- What returns in the one returns the same in the other. -/
def Calls.Refines (call call' : Calls μ) : Prop :=
  ∀ name arguments st r, call name arguments st = some r → call' name arguments st = some r

variable {call' : Calls μ} {step : Step μ}

theorem exec_refines (h : Calls.Refines call call')
    (hexec : exec env call sourceTyp locals flags st s = some step) :
    exec env call' sourceTyp locals flags st s = some step := by
  cases s with
  | call target args returnType =>
    simp only [exec] at hexec ⊢
    obtain ⟨values, r, hvalues, hr, hexec⟩ := bind₂_eq_some hexec
    rw [hvalues, bind_eq_bind, bind_some, h _ _ _ _ hr]
    exact hexec
  | return_ value => cases value <;> exact hexec
  | _ => exact hexec

variable {b : Block}

theorem execIn_refines (h : Calls.Refines call call') {r : Ref} {fr : Frame}
    (hexec : execIn env call b r fr st = some step) : execIn env call' b r fr st = some step :=
  exec_refines env h hexec

/-! ### Where blocks go -/

/-- Where a statement can go. -/
def Statement.targets {ρ : Type} : Statement ρ → List BlockRef
  | .jump target => [target]
  | .branch _ trueTarget falseTarget => [trueTarget, falseTarget]
  | _ => []

variable {target : BlockRef}

theorem Block.mem_targets : target ∈ b.targets ↔ ∃ r ∈ b.statements, target ∈ (b.arena r).targets := by
  unfold Block.targets
  rw [mem_flatMap]
  refine exists_congr fun r => and_congr_right fun _ => ?_
  cases b.arena r <;> exact Iff.rfl

theorem Statement.targets_map {ρ ρ' : Type} (g : ρ → ρ') (s : Statement ρ) :
    (s.map g).targets = s.targets := by
  cases s <;> rfl

/-- The statement leaves registers, memory and trace alone if calls to `T` do. -/
def Statement.Quiet {ρ : Type} (T : String → Prop) : Statement ρ → Prop
  | .call target _ _ => T target
  | .writeMemory _ _ | .writePc _ | .writeRegister _ _ | .readMemory _ _
  | .atomicOperation _ _ _ _ => False
  | _ => True

/-- The statements that may give no value where they go on. -/
def Statement.mayBeVoid {ρ : Type} : Statement ρ → Bool
  | .writeVariable _ _ | .writeRegister _ _ | .writeMemory _ _ | .writePc _ | .assert _ | .call _ _ _ => true
  | _ => false

variable {value : Option Value} {st' : State μ}

/-- **A statement that goes on**: only writes of variables change variables, and quiet statements leave the state
alone. -/
theorem exec_next {locals' : Locals} {flags' : Nat}
    (h : exec env call sourceTyp locals flags st s = some (.next value locals' flags' st')) :
    ((∃ symbol v, s = .writeVariable symbol (some v) ∧ value = none ∧
        locals' = Function.update locals symbol.name (some v)) ∨
      (∀ symbol v, s ≠ .writeVariable symbol v) ∧ locals' = locals) ∧
    (s.Quiet (fun _ => False) → st' = st) ∧ (s.mayBeVoid = false → value.isSome) := by
  cases s with
  | jump | phiNode | panic => cases h
  | branch => simp [exec, bind_eq_some_iff] at h
  | return_ value => cases value <;> simp [exec, bind_eq_some_iff] at h
  | writeVariable symbol v =>
    obtain ⟨w, rfl, h⟩ := bind_eq_some_iff.mp h
    cases h
    exact ⟨.inl ⟨symbol, w, rfl, rfl, rfl⟩, fun _ => rfl, nofun⟩
  | ternaryOperation kind a b c =>
    cases kind
    obtain ⟨va, vb, -, -, h⟩ := bind₂_eq_some h
    obtain ⟨vc, -, h⟩ := bind_eq_some_iff.mp h
    split at h <;> cases h
    exact ⟨.inr ⟨nofun, rfl⟩, fun _ => rfl, fun _ => rfl⟩
  | assert condition =>
    obtain ⟨v, -, h⟩ := bind_eq_some_iff.mp h
    split at h <;> cases h
    exact ⟨.inr ⟨nofun, rfl⟩, fun _ => rfl, nofun⟩
  | _ =>
    simp only [exec, bind_eq_bind, bind_eq_some_iff, some.injEq, Step.next.injEq] at h
    refine ⟨.inr ⟨nofun, by tauto⟩, fun hquiet => ?_, fun hvoid => ?_⟩
    · first | exact absurd hquiet id | tauto
    · cases value with
      | some v => rfl
      | none => simp [Statement.mayBeVoid] at h hvoid

theorem exec_goto (h : exec env call sourceTyp locals flags st s = some (.goto target)) : target ∈ s.targets := by
  cases s with
  | jump t =>
    cases h
    exact mem_singleton_self _
  | branch condition trueTarget falseTarget =>
    obtain ⟨v, -, h⟩ := bind_eq_some_iff.mp h
    cases h
    split <;> simp [Statement.targets]
  | return_ value => cases value <;> simp [exec, bind_eq_some_iff] at h
  | ternaryOperation kind a b c =>
    cases kind
    obtain ⟨va, vb, -, -, h⟩ := bind₂_eq_some h
    obtain ⟨vc, -, h⟩ := bind_eq_some_iff.mp h
    split at h <;> cases h
  | _ => simp [exec, bind_eq_some_iff] at h

theorem exec_return (h : exec env call sourceTyp locals flags st s = some (.return_ value)) :
    ∃ v, s = .return_ v ∧ (value.isSome ∨ v = none) := by
  cases s with
  | return_ v =>
    cases v with
    | none => exact ⟨none, rfl, .inr rfl⟩
    | some v =>
      obtain ⟨w, -, h⟩ := bind_eq_some_iff.mp h
      cases h
      exact ⟨_, rfl, .inl rfl⟩
  | ternaryOperation kind a b c =>
    cases kind
    obtain ⟨va, vb, -, -, h⟩ := bind₂_eq_some h
    obtain ⟨vc, -, h⟩ := bind_eq_some_iff.mp h
    split at h <;> cases h
  | _ => simp [exec, bind_eq_some_iff] at h

theorem interpretStatements_target :
    ∀ (l : List Ref) (fr : Frame) (st : State μ) (target : BlockRef) (locals : Locals)
      (flags : Nat) (st' : State μ), l ⊆ b.statements →
      interpretStatements env call b l fr st = some (.nextBlock target locals flags st') →
      target ∈ b.targets
  | [], _, _, _, _, _, _, _, h => by cases h
  | r :: rest, fr, st, target, locals, flags, st', hsub, h => by
    unfold interpretStatements at h
    cases hexec : execIn env call b r fr st with
    | none =>
      rw [hexec] at h
      cases h
    | some step =>
      rw [hexec] at h
      cases step with
      | next value locals' flags' st'' =>
        exact interpretStatements_target rest _ _ _ _ _ _ (fun x hx => hsub (mem_cons_of_mem _ hx)) h
      | goto target' =>
        cases h
        have htarget := exec_goto env hexec
        rw [Statement.targets_map] at htarget
        exact Block.mem_targets.mpr ⟨r, hsub mem_cons_self, htarget⟩
      | return_ value => cases h

/-! ### Simulation of functions -/

/-- The two outcomes of a block are the same, with related local variables and flags. -/
def BlockResult.Related (R : BlockRef → Locals → Nat → Locals → Nat → Prop) :
    BlockResult μ → BlockResult μ → Prop
  | .nextBlock target locals flags st, .nextBlock target' locals' flags' st' =>
    target' = target ∧ st' = st ∧ R target locals flags locals' flags'
  | .returnValue value st, .returnValue value' st' => value' = value ∧ st' = st
  | _, _ => False

/-- `f'` does what `f` does, block by block, where calls do at least what they did and are known to
have the property `P`. -/
structure FunctionSim (P : Calls μ → Prop) (f f' : Function)
    (R : BlockRef → Locals → Nat → Locals → Nat → Prop) : Prop where
  entryBlock : f'.entryBlock = f.entryBlock
  entry : ∀ arguments, R f.entryBlock (bindArguments f.parameters arguments) 0
    (bindArguments f'.parameters arguments) 0
  block : ∀ call call' : Calls μ, P call → Calls.Refines call call' →
    ∀ b locals flags locals' flags' st result, R b locals flags locals' flags' →
      interpretBlock env call (f.block b) locals flags st = some result →
      ∃ result', interpretBlock env call' (f'.block b) locals' flags' st = some result' ∧
        result.Related R result'

variable {P : Calls μ → Prop}

theorem FunctionSim.runBlocks {f f' : Function} {R : BlockRef → Locals → Nat → Locals → Nat → Prop}
    (hsim : FunctionSim env P f f' R) {M M' : Model} (hP : ∀ fuel, P (interpret env M fuel)) :
    ∀ (fuel : Nat), (∀ n < fuel, Calls.Refines (interpret env M n) (interpret env M' n)) →
      ∀ (b : BlockRef) (locals : Locals) (flags : Nat) (locals' : Locals) (flags' : Nat)
        (st : State μ) (r : Option Value × State μ), R b locals flags locals' flags' →
      Rudder.runBlocks env M fuel f b locals flags st = some r →
      Rudder.runBlocks env M' fuel f' b locals' flags' st = some r
  | 0, _, _, _, _, _, _, _, _, _, h => by cases h
  | fuel + 1, hcalls, b, locals, flags, locals', flags', st, r, hR, h => by
    rw [runBlocks_succ] at h ⊢
    cases hblock : interpretBlock env (interpret env M fuel) (f.block b) locals flags st with
    | none =>
      rw [hblock] at h
      cases h
    | some result =>
      obtain ⟨result', hblock', hrel⟩ := hsim.block _ _ (hP fuel) (hcalls fuel (Nat.lt_succ_self _))
        b locals flags locals' flags' st result hR hblock
      rw [hblock] at h
      rw [hblock']
      cases result with
      | nextBlock target locals1 flags1 st1 =>
        cases result' with
        | nextBlock target' locals2 flags2 st2 =>
          obtain ⟨rfl, rfl, hR'⟩ := hrel
          exact hsim.runBlocks hP fuel (fun n hn => hcalls n (Nat.lt_succ_of_lt hn)) _ _ _ _ _ _ _ hR' h
        | returnValue value st2 => exact absurd hrel id
      | returnValue value st1 =>
        cases result' with
        | nextBlock target' locals2 flags2 st2 => exact absurd hrel id
        | returnValue value' st2 =>
          obtain ⟨rfl, rfl⟩ := hrel
          exact h

/-- **Simulation of every function is refinement of the model.** -/
theorem interpret_refines {M M' : Model} (hP : ∀ fuel, P (interpret env M fuel))
    (hM : ∀ name f, M.lookup name = some f → ∃ f' R, M'.lookup name = some f' ∧ FunctionSim env P f f' R) :
    ∀ fuel, Calls.Refines (interpret env M fuel) (interpret env M' fuel) := by
  intro fuel
  induction fuel using Nat.strongRecOn with
  | ind fuel ih =>
    intro name arguments st r h
    unfold interpret at h ⊢
    cases hf : M.lookup name with
    | none =>
      rw [hf] at h
      cases h
    | some f =>
      obtain ⟨f', R, hf', hsim⟩ := hM name f hf
      rw [hf] at h
      rw [hf']
      dsimp only at h ⊢
      rw [hsim.entryBlock]
      exact hsim.runBlocks env hP fuel ih _ _ _ _ _ _ _ (hsim.entry arguments) h

/-! ### Blocks that do the same -/

variable {b' : Block}

/-- **Two blocks with the same statements, each of which does the same in every frame the invariant
allows, do the same.**  The invariant also holds where the block is left. -/
theorem interpretStatements_congr (Inv : List Ref → Frame → State μ → Prop)
    (hstep : ∀ done r rest fr st step, b.statements = done ++ r :: rest → Inv done fr st →
      execIn env call b r fr st = some step → execIn env call' b' r fr st = some step ∧
        ∀ value locals flags st', step = .next value locals flags st' →
          Inv (done ++ [r]) (fr.next r value locals flags) st') :
    ∀ (rest done : List Ref) (fr : Frame) (st : State μ) (result : BlockResult μ),
      b.statements = done ++ rest → Inv done fr st →
      interpretStatements env call b rest fr st = some result →
      interpretStatements env call' b' rest fr st = some result ∧
        ∀ target locals flags st', result = .nextBlock target locals flags st' →
          ∃ done fr, Inv done fr st' ∧ fr.locals = locals ∧ fr.flags = flags
  | [], _, _, _, _, _, _, h => by cases h
  | r :: rest, done, fr, st, result, hsplit, hinv, h => by
    unfold interpretStatements at h ⊢
    cases hexec : execIn env call b r fr st with
    | none =>
      rw [hexec] at h
      cases h
    | some step =>
      obtain ⟨hexec', hnext⟩ := hstep done r rest fr st step hsplit hinv hexec
      rw [hexec] at h
      rw [hexec']
      cases step with
      | next value locals flags st' =>
        exact interpretStatements_congr Inv hstep rest (done ++ [r]) _ _ _ (by rw [hsplit]; simp)
          (hnext _ _ _ _ rfl) h
      | goto target =>
        cases h
        refine ⟨rfl, fun target' locals flags st' heq => ?_⟩
        cases heq
        exact ⟨done, fr, hinv, rfl, rfl⟩
      | return_ value =>
        cases h
        exact ⟨rfl, fun target' locals flags st' heq => by cases heq⟩

/-- What the statement adds to the types of a block: its type, its value as a constant and the type of what it casts. -/
def Statement.typing (s : Statement Ref) (constants : Ref → Option Constant) (types : Ref → Option Typ) :
    Option Typ × Option Constant × Option Typ :=
  (s.typOf constants types, match s with | .constant c => some c | _ => none,
    match s with | .cast _ _ value => types value | _ => none)

theorem Block.sourceTyp_congr (hsize : b'.arenaSize = b.arenaSize)
    (h : ∀ x, (b'.arena x).typing = (b.arena x).typing) (r : Ref) : b'.sourceTyp r = b.sourceTyp r := by
  have hconstant : b'.constantAt = b.constantAt :=
    funext fun x => congrArg (fun typing => (typing b.constantAt b.typ).2.1) (h x)
  have htyp : ∀ n, b'.typAux n = b.typAux n := by
    intro n
    induction n with
    | zero => rfl
    | succ n ih =>
      funext x
      show ((b'.arena x).typing b'.constantAt (b'.typAux n)).1 = _
      rw [h, hconstant, ih]
      rfl
  show ((b'.arena r).typing b'.constantAt (b'.typAux b'.arenaSize)).2.2 = _
  rw [h, hconstant, hsize, htyp]
  rfl

theorem interpretStatements_of_arena_eq (harena : b'.arena = b.arena) (hsize : b'.arenaSize = b.arenaSize) :
    ∀ (l : List Ref) (fr : Frame) (st : State μ),
      interpretStatements env call b' l fr st = interpretStatements env call b l fr st
  | [], _, _ => rfl
  | r :: rest, fr, st => by
    have hexec : execIn env call b' r fr st = execIn env call b r fr st := by
      unfold execIn
      rw [Block.sourceTyp_congr hsize fun _ => by rw [harena], harena]
    unfold interpretStatements
    rw [hexec]
    split
    · rfl
    · exact interpretStatements_of_arena_eq harena hsize rest _ _
    · rfl
    · rfl

/-! ### Values that would be computed again -/

namespace Block

/-- Every statement above that only computes has the value it would compute now. -/
def Consistent (b : Block) (done : List Ref) (fr : Frame) : Prop :=
  ∀ x ∈ done, (b.arena x).Computes → fr.values x = evaluate env (b.sourceTyp x) ((b.arena x).map fr.values)

end Block

theorem Frame.next_values_of_ne (fr : Frame) {r x : Ref} (value : Option Value) (locals : Locals)
    (flags : Nat) (h : x ≠ r) : (fr.next r value locals flags).values x = fr.values x := by
  unfold Frame.next
  split
  · exact Function.update_of_ne h ..
  · rfl

theorem Frame.next_values_self (fr : Frame) (r : Ref) (v : Value) (locals : Locals) (flags : Nat) :
    (fr.next r (some v) locals flags).values r = some v := by
  simp [Frame.next]

/-- **A step keeps the values above it consistent.** -/
theorem Block.Consistent.next (hb : b.WellFormed) {done rest : List Ref} {r : Ref} {fr : Frame}
    (hsplit : b.statements = done ++ r :: rest) (h : b.Consistent env done fr)
    (hexec : execIn env call b r fr st = some (.next value locals flags st')) :
    b.Consistent env (done ++ [r]) (fr.next r value locals flags) := by
  have hr := hb.not_mem hsplit
  intro x hx hcomp
  -- the operands of `x` stand above `r`
  have hops : ∀ o ∈ (b.arena x).operands, o ≠ r := by
    intro o ho
    have hmem : o ∈ done := by
      rcases mem_append.mp hx with hx | hx
      · exact hb.operand_mem hsplit hx ho
      · rw [mem_singleton.mp hx] at ho
        exact hb.ordered done r rest hsplit o ho
    rintro rfl
    exact hr hmem
  have hmap : (b.arena x).map (fr.next r value locals flags).values = (b.arena x).map fr.values :=
    Statement.map_congr hcomp.not_phi fun o ho => fr.next_values_of_ne _ _ _ (hops o ho)
  rw [hmap]
  rcases mem_append.mp hx with hx | hx
  · rw [fr.next_values_of_ne _ _ _ (fun heq : x = r => hr (heq ▸ hx))]
    exact h x hx hcomp
  · obtain rfl := mem_singleton.mp hx
    rw [execIn, exec_computes env (Statement.computes_map.mpr hcomp)] at hexec
    obtain ⟨v, hv, hstep⟩ := map_eq_some_iff.mp hexec
    cases hstep
    rw [Frame.next_values_self, hv]

end Icewind.Rudder
