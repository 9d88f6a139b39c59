import Icewind.Rudder.Runs

/-!
# Purity analysis

Model of `borealis/src/rudder/analysis/pure.rs`, and what its answer means for the interpreter.

* `PurityAnalysis.determinePurityRecursive`, `new` — the analysis with its table of answers.
* `PurityAnalysis.new_sound` — a function found pure contains no write and no memory read, and calls
  only functions found pure.
* `interpret_quiet` — functions whose statements and callees do nothing to the state leave it as it
  is.

The analysis takes atomic operations for pure, so that its answer alone does not give the second.
-/

namespace Icewind.Rudder

open List Option

/-- `INTRINSICS`. -/
def intrinsics : List String := ["sail_tlbi", "AArch64_IC__1"]

/-- The statements of the blocks `block_iter` visits. -/
def Function.reachableStatements (f : Function) : List (Statement Ref) :=
  f.blockIter.flatMap fun b => (f.block b).statements.map (f.block b).arena

variable {M : Model}

namespace PurityAnalysis

/-- `functions`: what has been determined so far. -/
abbrev Table := String → Option Bool

/-- The `all` over the statements of a function, which stops at the first impure one.  Panics and
assertions are pure (`TREAT_PANICS_AS_PURE_DANGEROUS_UNSAFE`). -/
def allPure (determine : Table → String → Option (Bool × Table)) (seen : List String) :
    List (Statement Ref) → Table → Option (Bool × Table)
  | [], table => some (true, table)
  | .call target _ _ :: rest, table =>
    if target ∈ seen then some (false, table)
    else match determine table target with
      | none => none
      | some (false, table) => some (false, table)
      | some (true, table) => allPure determine seen rest table
  | .writeMemory _ _ :: _, table | .writePc _ :: _, table | .writeRegister _ _ :: _, table
  | .readMemory _ _ :: _, table => some (false, table)
  | _ :: rest, table => allPure determine seen rest table

/-- `determine_purity_recursive`; `none` is the panic on a function that is not in the model. -/
def determinePurityRecursive (M : Model) : Nat → List String → Table → String → Option (Bool × Table)
  | 0, _, _, _ => none
  | fuel + 1, seen, table, name =>
    match table name with
    | some isPure => some (isPure, table)
    | none =>
      match M.lookup name with
      | none => none
      | some f =>
        (allPure (determinePurityRecursive M fuel (name :: seen)) (name :: seen)
          f.reachableStatements table).map fun r => (r.1, Function.update r.2 name (some r.1))

/-- The loop of `PurityAnalysis::new` over the names of the functions.  The names on the stack are
distinct names of the model, so that the recursion is no deeper than the model is long. -/
def determineAll (M : Model) : List String → Table → Option Table
  | [], table => some table
  | name :: names, table => do
    let (_, table) ← determinePurityRecursive M (M.length + 1) [] table name
    determineAll M names table

/-- `PurityAnalysis::new`, for an order of the names in the hash map. -/
def new (M : Model) (names : List String) : Option Table :=
  determineAll M names fun name => if name ∈ intrinsics then some false else none

/-! ### Soundness -/

/-- What the analysis takes for pure, given its answers for functions. -/
def PureStatement (table : Table) : Statement Ref → Prop
  | .call target _ _ => table target = some true
  | .writeMemory _ _ | .writePc _ | .writeRegister _ _ | .readMemory _ _ => False
  | _ => True

/-- Functions found pure have pure statements only. -/
def Sound (M : Model) (table : Table) : Prop :=
  ∀ name, table name = some true → ∃ f, M.lookup name = some f ∧
    ∀ s ∈ f.reachableStatements, PureStatement table s

/-- Answers are not changed. -/
def Table.Extends (table table' : Table) : Prop :=
  ∀ name isPure, table name = some isPure → table' name = some isPure

theorem PureStatement.extend {table table' : Table} (h : table.Extends table') {s : Statement Ref}
    (hs : PureStatement table s) : PureStatement table' s := by
  cases s <;> first | exact h _ _ hs | exact hs

/-- What one call of the analysis does to the table: it answers for the function, leaves those it is
in the middle of alone, and keeps the table sound. -/
structure Determines (M : Model) (seen : List String) (table : Table) (name : String) (isPure : Bool)
    (table' : Table) : Prop where
  answer : table' name = some isPure
  extends_ : table.Extends table'
  seen : ∀ n ∈ seen, table' n = table n
  sound : Sound M table'

/-- The same for the statements of a function. -/
structure Scanned (M : Model) (seen : List String) (table : Table) (l : List (Statement Ref)) (isPure : Bool)
    (table' : Table) : Prop where
  extends_ : table.Extends table'
  seen : ∀ n ∈ seen, table' n = table n
  sound : Sound M table'
  pure : isPure = true → ∀ s ∈ l, PureStatement table' s

theorem allPure_spec {determine : Table → String → Option (Bool × Table)} {seen : List String}
    (hdet : ∀ table name isPure table', name ∉ seen → Sound M table →
      determine table name = some (isPure, table') → Determines M seen table name isPure table') :
    ∀ (l : List (Statement Ref)) (table : Table) (isPure : Bool) (table' : Table), Sound M table →
      allPure determine seen l table = some (isPure, table') → Scanned M seen table l isPure table'
  | [], _, _, _, hsound, h => by
    cases h
    exact ⟨fun _ _ h => h, fun _ _ => rfl, hsound, fun _ s hs => by cases hs⟩
  | s :: rest, table, isPure, table', hsound, h => by
    -- a statement that stops the loop, and one that does not
    have hstop (h : some (false, table) = some (isPure, table')) : Scanned M seen table (s :: rest) isPure table' := by
      cases h
      exact ⟨fun _ _ h => h, fun _ _ => rfl, hsound, fun h => by cases h⟩
    have hgo (hs : PureStatement table s) (h : allPure determine seen rest table = some (isPure, table')) :
        Scanned M seen table (s :: rest) isPure table' := by
      obtain ⟨hext, hseen, hsound', hall⟩ := allPure_spec hdet rest table isPure table' hsound h
      refine ⟨hext, hseen, hsound', fun hp t ht => ?_⟩
      rcases mem_cons.mp ht with rfl | ht
      · exact hs.extend hext
      · exact hall hp t ht
    cases s with
    | call target args returnType =>
      simp only [allPure] at h
      split at h
      · exact hstop h
      · rename_i htarget
        cases hd : determine table target with
        | none =>
          rw [hd] at h
          cases h
        | some r =>
          obtain ⟨isPure1, table1⟩ := r
          have hd1 := hdet table target isPure1 table1 htarget hsound hd
          rw [hd] at h
          cases isPure1 with
          | false =>
            cases h
            exact ⟨hd1.extends_, hd1.seen, hd1.sound, fun h => by cases h⟩
          | true =>
            obtain ⟨hext, hseen, hsound', hall⟩ := allPure_spec hdet rest table1 isPure table' hd1.sound h
            refine ⟨fun n p hn => hext n p (hd1.extends_ n p hn),
              fun n hn => (hseen n hn).trans (hd1.seen n hn), hsound', fun hp t ht => ?_⟩
            rcases mem_cons.mp ht with rfl | ht
            · exact hext _ _ hd1.answer
            · exact hall hp t ht
    | writeMemory | writePc | writeRegister | readMemory => exact hstop h
    | _ => exact hgo trivial h

theorem determinePurityRecursive_spec :
    ∀ (fuel : Nat) (seen : List String) (table : Table) (name : String) (isPure : Bool)
      (table' : Table), name ∉ seen → Sound M table →
      determinePurityRecursive M fuel seen table name = some (isPure, table') →
      Determines M seen table name isPure table'
  | 0, _, _, _, _, _, _, _, h => by cases h
  | fuel + 1, seen, table, name, isPure, table', hname, hsound, h => by
    rw [determinePurityRecursive] at h
    cases htable : table name with
    | some p =>
      rw [htable] at h
      cases h
      exact ⟨htable, fun _ _ h => h, fun _ _ => rfl, hsound⟩
    | none =>
      rw [htable] at h
      dsimp only at h
      cases hf : M.lookup name with
      | none =>
        rw [hf] at h
        cases h
      | some f =>
        rw [hf] at h
        obtain ⟨⟨p, table1⟩, hall, hr⟩ := map_eq_some_iff.mp h
        cases hr
        obtain ⟨hext, hseen, hsound1, hpure⟩ := allPure_spec (fun t n p t' hn hs hd =>
            determinePurityRecursive_spec fuel (name :: seen) t n p t' hn hs hd)
          _ _ _ _ hsound hall
        -- the function itself has had no answer in between
        have hnone : table1 name = none := (hseen name mem_cons_self).trans htable
        have hext1 : Table.Extends table1 (Function.update table1 name (some p)) := by
          intro n q hn
          have hne : n ≠ name := by
            rintro rfl
            rw [hnone] at hn
            cases hn
          rw [Function.update_of_ne hne]
          exact hn
        refine ⟨Function.update_self .., fun n q hn => hext1 n q (hext n q hn), fun n hn => ?_, ?_⟩
        · have hne : n ≠ name := fun h => hname (h ▸ hn)
          rw [Function.update_of_ne hne]
          exact hseen n (mem_cons_of_mem _ hn)
        · intro n hn
          by_cases hne : n = name
          · subst hne
            rw [Function.update_self] at hn
            exact ⟨f, hf, fun s hs => (hpure (some.inj hn) s hs).extend hext1⟩
          · rw [Function.update_of_ne hne] at hn
            obtain ⟨g, hg, hall⟩ := hsound1 n hn
            exact ⟨g, hg, fun s hs => (hall s hs).extend hext1⟩

theorem determineAll_sound : ∀ (names : List String) (table table' : Table), Sound M table →
      determineAll M names table = some table' → Sound M table'
  | [], _, _, hsound, h => by
    cases h
    exact hsound
  | name :: names, table, table', hsound, h => by
    obtain ⟨⟨p, table1⟩, hd, h⟩ := bind_eq_some_iff.mp h
    exact determineAll_sound names table1 table'
      (determinePurityRecursive_spec _ [] table name p table1 (by simp) hsound hd).sound h

/-- **A function found pure contains no write and calls only functions found pure.** -/
theorem new_sound {names : List String} {table : Table} (h : new M names = some table) : Sound M table := by
  refine determineAll_sound names _ table ?_ h
  intro name hname
  dsimp only at hname
  split at hname <;> cases hname

end PurityAnalysis

/-! ### Statements that do nothing to the state -/

variable {T : String → Prop}

theorem Statement.quiet_map {ρ ρ' : Type} {g : ρ → ρ'} {s : Statement ρ} : (s.map g).Quiet T ↔ s.Quiet T := by
  cases s <;> exact Iff.rfl

variable {μ : Type} (env : Environment μ)

/-- Calls to the functions of `T` leave the state alone. -/
def Calls.Quiet (T : String → Prop) (call : Calls μ) : Prop :=
  ∀ name, T name → ∀ arguments st r, call name arguments st = some r → r.2 = st

variable {call : Calls μ}

theorem exec_quiet (hcall : Calls.Quiet T call) {sourceTyp : Option Typ} {locals locals' : Locals} {flags flags' : Nat}
    {st st' : State μ} {s : Statement (Option Value)} {value : Option Value} (hs : s.Quiet T)
    (h : exec env call sourceTyp locals flags st s = some (.next value locals' flags' st')) : st' = st := by
  cases s with
  | call target args returnType =>
    obtain ⟨values, r, hvalues, hr, h⟩ := bind₂_eq_some h
    cases h
    exact hcall target hs _ _ _ hr
  | _ => exact (exec_next env h).2.1 hs

/-- The state a block is left in. -/
def BlockResult.state : BlockResult μ → State μ
  | .nextBlock _ _ _ st => st
  | .returnValue _ st => st

theorem interpretStatements_quiet (hcall : Calls.Quiet T call) {b : Block} :
    ∀ (l : List Ref) (fr : Frame) (st : State μ) (result : BlockResult μ), (∀ r ∈ l, (b.arena r).Quiet T) →
      interpretStatements env call b l fr st = some result → result.state = st
  | [], _, _, _, _, h => by cases h
  | r :: rest, fr, st, result, hquiet, h => by
    unfold interpretStatements at h
    cases hexec : execIn env call b r fr st with
    | none =>
      rw [hexec] at h
      cases h
    | some step =>
      rw [hexec] at h
      cases step with
      | next value locals flags st' =>
        have hst := exec_quiet env hcall (Statement.quiet_map.mpr (hquiet r mem_cons_self)) hexec
        subst hst
        exact interpretStatements_quiet hcall rest _ _ _ (fun x hx => hquiet x (mem_cons_of_mem _ hx)) h
      | goto | return_ =>
        cases h
        rfl

/-- All statements of the functions of `T` are quiet. -/
def Model.QuietOn (M : Model) (T : String → Prop) : Prop :=
  ∀ name, T name → ∃ f, M.lookup name = some f ∧ f.RefsValid ∧ ∀ s ∈ f.reachableStatements, s.Quiet T

theorem Function.mem_reachableStatements {f : Function} {b : BlockRef} {r : Ref}
    (hb : b ∈ f.blockIter) (hr : r ∈ (f.block b).statements) :
    (f.block b).arena r ∈ f.reachableStatements :=
  mem_flatMap.mpr ⟨b, hb, mem_map.mpr ⟨r, hr, rfl⟩⟩

theorem runBlocks_quiet {f : Function} (hf : f.RefsValid) (hquiet : ∀ s ∈ f.reachableStatements, s.Quiet T) :
    ∀ (fuel : Nat), (∀ n < fuel, Calls.Quiet T (interpret env M n)) →
      ∀ (b : BlockRef) (locals : Locals) (flags : Nat) (st : State μ)
        (r : Option Value × State μ), b ∈ f.blockIter →
      runBlocks env M fuel f b locals flags st = some r → r.2 = st
  | 0, _, _, _, _, _, _, _, h => by cases h
  | fuel + 1, hcalls, b, locals, flags, st, r, hb, h => by
    rw [runBlocks_succ] at h
    cases hblock : interpretBlock env (interpret env M fuel) (f.block b) locals flags st with
    | none =>
      rw [hblock] at h
      cases h
    | some result =>
      have hst : result.state = st :=
        interpretStatements_quiet env (hcalls fuel (Nat.lt_succ_self _)) _ _ _ _
          (fun x hx => hquiet _ (f.mem_reachableStatements hb hx)) hblock
      rw [hblock] at h
      cases result with
      | nextBlock target locals1 flags1 st1 =>
        have htarget : target ∈ f.blockIter := (Function.blockIter_closed hf).2 b hb target
          (interpretStatements_target env _ _ _ _ _ _ _ (fun _ h => h) hblock)
        exact (runBlocks_quiet hf hquiet fuel (fun n hn => hcalls n (Nat.lt_succ_of_lt hn))
          _ _ _ _ _ htarget h).trans hst
      | returnValue value st1 =>
        cases h
        exact hst

/-- **Functions whose statements and callees leave the state alone leave the state alone.** -/
theorem interpret_quiet (hT : M.QuietOn T) : ∀ fuel, Calls.Quiet T (interpret env M fuel) := by
  intro fuel
  induction fuel using Nat.strongRecOn with
  | ind fuel ih =>
    intro name hname arguments st r h
    obtain ⟨f, hf, hvalid, hquiet⟩ := hT name hname
    unfold interpret at h
    rw [hf] at h
    exact runBlocks_quiet env hvalid hquiet fuel ih _ _ _ _ _ (Function.blockIter_closed hvalid).1 h

/-! ### Atomic operations -/

/-- An atomic operation can be reached from the function. -/
inductive Model.MayAtomic (M : Model) : String → Prop
  | here {name : String} {f : Function} {address compareOperand operand operationKind : Ref} :
    M.lookup name = some f →
    Statement.atomicOperation address compareOperand operand operationKind
      ∈ f.reachableStatements → MayAtomic M name
  | call {name target : String} {f : Function} {args : List Ref} {returnType : Option Typ} :
    M.lookup name = some f → Statement.call target args returnType ∈ f.reachableStatements →
    MayAtomic M target → MayAtomic M name

/-- Where no atomic operation can be reached, the answer of the analysis is right. -/
theorem PurityAnalysis.Sound.quietOn {table : PurityAnalysis.Table} (hsound : PurityAnalysis.Sound M table)
    (hvalid : ∀ name f, M.lookup name = some f → f.RefsValid) :
    M.QuietOn fun name => table name = some true ∧ ¬ M.MayAtomic name := by
  rintro name ⟨hpure, hatomic⟩
  obtain ⟨f, hf, hall⟩ := hsound name hpure
  refine ⟨f, hf, hvalid name f hf, fun s hs => ?_⟩
  have hs' := hall s hs
  cases s with
  | call target args returnType => exact ⟨hs', fun h => hatomic (.call hf hs h)⟩
  | atomicOperation address compareOperand operand operationKind =>
    exact absurd (.here hf hs) hatomic
  | writeRegister | writeMemory | readMemory | writePc => exact hs'
  | _ => trivial

end Icewind.Rudder
