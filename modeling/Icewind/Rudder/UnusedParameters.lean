import Icewind.Rudder.Propagation
import Icewind.Rudder.PurityExact

/-!
# Removing unused parameters

Model of `borealis/src/rudder/opt/remove_unused_parameters.rs`, with `remove_parameter` of
`common/src/rudder/function.rs`.

* `Task`, `Removal` — the parallel loop that removes parameters: a task for each function, and the shared vector of
  removed positions.  A schedule says which task goes on next.
* `removeArguments`, `fixCallSites` — the loop that fixes the call sites.
* `run_task` — after every schedule, each task has removed the parameters it has looked at, and its positions are
  in the vector from the last to the first, among those of the other tasks.
* `removeArguments_some` — removing arguments at those positions leaves the arguments of the parameters kept.
* `fixCallSites_fixes` — so every call in a block that can be reached is fixed.
-/

namespace Icewind.Rudder

open List Option SymbolUseAnalysis

/-! ### The pass -/

/-- `Function::remove_parameter`; `none` is the `unwrap` where there is no such parameter. -/
def Function.removeParameter (f : Function) (symbol : Symbol) : Option Function :=
  (f.parameters.findIdx? fun target => decide (target.name = symbol.name)).map fun idx =>
    { f with parameters := f.parameters.eraseIdx idx }

/-- `is_symbol_dead`: no block uses the variable. -/
def SymbolUseAnalysis.isSymbolDead (f : Function) (name : String) : Bool :=
  f.blockIter.all fun b => (f.block b).statements.all fun r =>
    !(decide (((f.block b).arena r).Writes name) || decide (((f.block b).arena r).Reads name))

namespace RemoveUnusedParameters

/-- The body of the first loop for one function, with the parameters it has still to look at. -/
structure Task where
  function : Function
  dead : String → Bool
  remaining : List (Symbol × Nat)

/-- `function.parameters().iter().enumerate().rev()`. -/
def Task.new (f : Function) : Task := ⟨f, isSymbolDead f, f.parameters.zipIdx.reverse⟩

/-- One parameter, with what is pushed.  Only the push can be seen by the other tasks. -/
def Task.step (name : String) (task : Task) : Option (Task × List (String × Nat)) :=
  match task.remaining with
  | [] => some (task, [])
  | (symbol, i) :: rest =>
    if task.dead symbol.name then
      (task.function.removeParameter symbol).map fun f =>
        ({ task with function := f, remaining := rest }, [(name, i)])
    else
      some ({ task with remaining := rest }, [])

/-- The first loop under way. -/
structure Removal where
  tasks : String → Option Task
  deadParameters : List (String × Nat)

namespace Removal

def start (M : Model) : Removal := ⟨fun name => (M.lookup name).map .new, []⟩

/-- The task of the function goes on. -/
def step (st : Removal) (name : String) : Option Removal :=
  match st.tasks name with
  | none => some st
  | some task => (task.step name).map fun (task, pushed) =>
    ⟨Function.update st.tasks name (some task), st.deadParameters ++ pushed⟩

/-- The tasks go on in the order of the schedule. -/
def run : List String → Removal → Option Removal
  | [], st => some st
  | name :: schedule, st => (st.step name).bind (run schedule)

/-- All tasks have ended. -/
def Finished (st : Removal) : Prop := ∀ name task, st.tasks name = some task → task.remaining = []

/-- The functions as the tasks leave them. -/
def model (st : Removal) (M : Model) : Model :=
  M.map fun p => (p.1, ((st.tasks p.1).map Task.function).getD p.2)

end Removal

/-- `args.remove(index)` for each of the positions; `none` is the panic where there is no such argument. -/
def removeArguments {α : Type} : List Nat → List α → Option (List α)
  | [], args => some args
  | index :: rest, args => if index < args.length then removeArguments rest (args.eraseIdx index) else none

def fixStatement (deadParameters : List (String × Nat)) : Statement Ref → Option (Statement Ref × Bool)
  | .call target args returnType =>
    let indices := (deadParameters.filter fun p => p.1 = target).map Prod.snd
    (removeArguments indices args).map fun args => (.call target args returnType, !indices.isEmpty)
  | s => some (s, false)

def fixBlock (deadParameters : List (String × Nat)) (b : Block) : Option (Block × Bool) :=
  b.forStatements (fun b r => (fixStatement deadParameters (b.arena r)).map fun (s, changed) => (b.set r s, changed))
    b.statements

/-- The second loop. -/
def fixCallSites (deadParameters : List (String × Nat)) : Model → Option (Model × Bool)
  | [] => some ([], false)
  | (name, f) :: rest => do
    let (f, changed) ← f.forBlocks (fixBlock deadParameters) f.blockIter
    let (rest, changed') ← fixCallSites deadParameters rest
    some ((name, f) :: rest, changed || changed')

/-! ### The first loop -/

/-- The positions of dead parameters, from the last to the first. -/
def deadIndices (dead : String → Bool) (parameters : List Symbol) (start : Nat) : List Nat :=
  ((parameters.zipIdx start).reverse.filter fun p => dead p.1.name).map Prod.snd

variable (dead : String → Bool)

theorem deadIndices_cons (p : Symbol) (ps : List Symbol) (start : Nat) :
    deadIndices dead (p :: ps) start = deadIndices dead ps (start + 1) ++ if dead p.name then [start] else [] := by
  unfold deadIndices
  rw [zipIdx_cons, reverse_cons, filter_append, map_append]
  congr 1
  cases h : dead p.name <;> simp [h]

/-- The parameters that are kept. -/
def kept (dead : String → Bool) (parameters : List Symbol) : List Symbol :=
  parameters.filter fun p => !dead p.name

/-- A task in the middle of its loop: it has looked at the parameters at the end of the list. -/
structure Task.At (f : Function) (pushed : List Nat) (todo done : List Symbol) (task : Task) : Prop where
  split : f.parameters = todo ++ done
  dead : task.dead = isSymbolDead f
  remaining : task.remaining = todo.zipIdx.reverse
  function : task.function =
    { f with parameters := todo ++ kept (isSymbolDead f) done }
  pushed : pushed = deadIndices (isSymbolDead f) done todo.length

variable {f : Function}

theorem removeParameter_last {front back : List Symbol} {p : Symbol}
    (hparameters : f.parameters = (front ++ [p]) ++ back) (hnodup : ∀ q ∈ front, q.name ≠ p.name) :
    f.removeParameter p = some { f with parameters := front ++ back } := by
  have hfind : f.parameters.findIdx? (fun target => decide (target.name = p.name)) = some front.length := by
    rw [hparameters, append_assoc, List.findIdx?_append,
      List.findIdx?_eq_none_iff.mpr fun q hq => decide_eq_false (hnodup q hq)]
    simp [List.findIdx?_cons]
  unfold Function.removeParameter
  rw [hfind, hparameters, map_some, append_assoc, eraseIdx_append_of_length_le (Nat.le_refl _), Nat.sub_self]
  rfl

/-- **One step of a task** does not panic. -/
theorem Task.At.step (hnodup : (f.parameters.map Symbol.name).Nodup) {pushed : List Nat} {todo done : List Symbol}
    {task : Task} (h : Task.At f pushed todo done task) (name : String) :
    ∃ task' indices todo' done', task.step name = some (task', indices.map (name, ·)) ∧
      Task.At f (pushed ++ indices) todo' done' task' := by
  rcases eq_nil_or_concat' todo with rfl | ⟨todo', p, rfl⟩
  · refine ⟨task, [], [], done, ?_, ?_⟩
    · unfold Task.step
      rw [h.remaining]
      rfl
    · rw [append_nil]
      exact h
  · have hremaining : task.remaining = (p, todo'.length) :: todo'.zipIdx.reverse := by
      rw [h.remaining, zipIdx_append, reverse_append]
      simp
    have hsplit : f.parameters = todo' ++ p :: done := by
      rw [h.split]
      simp
    have hdistinct : ∀ q ∈ todo', q.name ≠ p.name := by
      intro q hq heq
      rw [hsplit, map_append] at hnodup
      exact disjoint_of_nodup_append hnodup (mem_map_of_mem hq) (by rw [heq]; simp)
    have hindices := deadIndices_cons (isSymbolDead f) p done todo'.length
    have hlength : (todo' ++ [p]).length = todo'.length + 1 := by simp
    unfold Task.step
    rw [hremaining]
    dsimp only
    cases hdead : isSymbolDead f p.name with
    | true =>
      rw [if_pos (by rw [h.dead]; exact hdead)]
      have hremove := removeParameter_last (f := task.function) (p := p) (by rw [h.function]) hdistinct
      rw [hremove]
      refine ⟨_, [todo'.length], todo', p :: done, rfl, hsplit, h.dead, rfl, ?_, ?_⟩
      · rw [h.function]
        simp [kept, hdead]
      · rw [hindices, if_pos hdead, h.pushed, hlength]
    | false =>
      rw [if_neg (by rw [h.dead, hdead]; exact Bool.false_ne_true)]
      refine ⟨_, [], todo', p :: done, rfl, hsplit, h.dead, rfl, ?_, ?_⟩
      · rw [h.function]
        simp [kept, hdead]
      · rw [hindices, if_neg (by rw [hdead]; exact Bool.false_ne_true), h.pushed, hlength]

/-- The positions of a function among all that have been pushed. -/
def positions (deadParameters : List (String × Nat)) (name : String) : List Nat :=
  (deadParameters.filter fun p => p.1 = name).map Prod.snd

theorem positions_append (l l' : List (String × Nat)) (name : String) :
    positions (l ++ l') name = positions l name ++ positions l' name := by
  unfold positions
  rw [filter_append, map_append]

theorem positions_pushed (indices : List Nat) (name other : String) :
    positions (indices.map (name, ·)) other = if name = other then indices else [] := by
  unfold positions
  split
  · rename_i h
    simp [h, List.filter_map, Function.comp_def]
  · rename_i h
    simp [h, List.filter_map, Function.comp_def]

/-- Every task is in the middle of its loop. -/
structure Removal.Inv (M : Model) (st : Removal) : Prop where
  absent : ∀ name, M.lookup name = none → st.tasks name = none ∧ positions st.deadParameters name = []
  present : ∀ name f, M.lookup name = some f → ∃ task todo done, st.tasks name = some task ∧
    Task.At f (positions st.deadParameters name) todo done task

theorem Removal.start_inv (M : Model) : (Removal.start M).Inv M := by
  refine ⟨fun name h => ⟨?_, rfl⟩, fun name f h => ⟨.new f, f.parameters, [], ?_, ?_⟩⟩
  · change (M.lookup name).map Task.new = none
    rw [h]
    rfl
  · change (M.lookup name).map Task.new = some _
    rw [h]
    rfl
  · refine ⟨(append_nil _).symm, rfl, rfl, ?_, rfl⟩
    simp [kept, Task.new]

/-- The models the pass is for. -/
def DistinctParameters (M : Model) : Prop :=
  ∀ name f, M.lookup name = some f → (f.parameters.map Symbol.name).Nodup

variable {M : Model} {st : Removal}

theorem Removal.Inv.step (hM : DistinctParameters M) (h : st.Inv M) (name : String) :
    ∃ st', st.step name = some st' ∧ st'.Inv M := by
  unfold Removal.step
  cases hlookup : M.lookup name with
  | none =>
    rw [(h.absent name hlookup).1]
    exact ⟨st, rfl, h⟩
  | some f =>
    obtain ⟨task, todo, done, htask, hat⟩ := h.present name f hlookup
    obtain ⟨task', indices, todo', done', hstep, hat'⟩ := hat.step (hM name f hlookup) name
    rw [htask]
    dsimp only
    rw [hstep]
    refine ⟨_, rfl, fun other hother => ?_, fun other g hother => ?_⟩
    · have hne : other ≠ name := fun heq => by
        rw [heq, hlookup] at hother
        cases hother
      obtain ⟨htasks, hpositions⟩ := h.absent other hother
      refine ⟨?_, ?_⟩
      · rw [← htasks]
        exact Function.update_of_ne hne _ _
      · dsimp only
        rw [positions_append, positions_pushed, if_neg hne.symm, hpositions]
        rfl
    · dsimp only
      rw [positions_append, positions_pushed]
      by_cases hne : other = name
      · subst hne
        rw [hlookup] at hother
        cases hother
        rw [if_pos rfl]
        exact ⟨task', todo', done', Function.update_self _ _ _, hat'⟩
      · rw [if_neg (Ne.symm hne), append_nil, Function.update_of_ne hne]
        exact h.present other g hother

/-- **No schedule panics, and after every schedule each task is in the middle of its loop.** -/
theorem Removal.Inv.run (hM : DistinctParameters M) :
    ∀ (schedule : List String) {st : Removal}, st.Inv M → ∃ st', st.run schedule = some st' ∧ st'.Inv M
  | [], st, h => ⟨st, rfl, h⟩
  | name :: schedule, st, h => by
    obtain ⟨st1, hstep, h1⟩ := h.step hM name
    obtain ⟨st2, hrun, h2⟩ := h1.run hM schedule
    refine ⟨st2, ?_, h2⟩
    unfold Removal.run
    rw [hstep]
    exact hrun

variable {name : String}

/-- Where all tasks have ended, they have removed the dead parameters. -/
theorem Removal.Inv.finished (h : st.Inv M) (hfinished : st.Finished) (hf : M.lookup name = some f) :
    (∃ task, st.tasks name = some task ∧ task.function = { f with parameters := kept (isSymbolDead f) f.parameters }) ∧
    positions st.deadParameters name = deadIndices (isSymbolDead f) f.parameters 0 := by
  obtain ⟨task, todo, done, htask, hat⟩ := h.present name f hf
  have htodo : todo = [] := by
    have hremaining := hat.remaining.symm.trans (hfinished name task htask)
    simpa using hremaining
  subst htodo
  have hdone : f.parameters = done := hat.split
  refine ⟨⟨task, htask, ?_⟩, ?_⟩
  · rw [hat.function, hdone]
    rfl
  · rw [hat.pushed, hdone]
    rfl

/-! ### The arguments -/

/-- The arguments of the parameters that are kept. -/
def keepArguments {α : Type} (dead : String → Bool) : List Symbol → List α → List α
  | p :: ps, a :: args => if dead p.name then keepArguments dead ps args else a :: keepArguments dead ps args
  | _, args => args

variable {α : Type}

theorem removeArguments_append : ∀ (l l' : List Nat) (args : List α),
    removeArguments (l ++ l') args = (removeArguments l args).bind (removeArguments l')
  | [], _, _ => rfl
  | index :: rest, l', args => by
    rw [cons_append, removeArguments, removeArguments]
    split
    · exact removeArguments_append rest l' _
    · rfl

theorem removeArguments_succ (a : α) : ∀ (l : List Nat) (args : List α),
    removeArguments (l.map (· + 1)) (a :: args) = (removeArguments l args).map (a :: ·)
  | [], _ => rfl
  | index :: rest, args => by
    rw [map_cons, removeArguments, removeArguments]
    simp only [length_cons, Nat.add_lt_add_iff_right, eraseIdx_cons_succ]
    split
    · exact removeArguments_succ a rest _
    · rfl

theorem deadIndices_succ (dead : String → Bool) : ∀ (ps : List Symbol) (start : Nat),
    deadIndices dead ps (start + 1) = (deadIndices dead ps start).map (· + 1)
  | [], _ => rfl
  | p :: ps, start => by
    rw [deadIndices_cons, deadIndices_cons, map_append, deadIndices_succ dead ps (start + 1)]
    split <;> rfl

theorem removeArguments_cons (p : Symbol) (ps : List Symbol) (a : α) (args : List α) :
    removeArguments (deadIndices dead (p :: ps) 0) (a :: args) =
      (removeArguments (deadIndices dead ps 0) args).map fun args' => if dead p.name then args' else a :: args' := by
  rw [deadIndices_cons, deadIndices_succ, removeArguments_append, removeArguments_succ]
  cases removeArguments (deadIndices dead ps 0) args with
  | none => rfl
  | some args' => cases dead p.name <;> rfl

theorem removeArguments_nil {l : List Nat} {args' : List α} (h : removeArguments l ([] : List α) = some args') :
    args' = [] := by
  cases l with
  | nil =>
    cases h
    rfl
  | cons index rest =>
    cases h

/-- **Removing arguments from the last position to the first leaves those of the parameters that are kept.** -/
theorem removeArguments_some {dead : String → Bool} : ∀ {ps : List Symbol} {args args' : List α},
    removeArguments (deadIndices dead ps 0) args = some args' → args' = keepArguments dead ps args
  | [], args, args', h => by
    cases h
    cases args <;> rfl
  | p :: ps, [], args', h => removeArguments_nil h
  | p :: ps, a :: args, args', h => by
    rw [removeArguments_cons] at h
    obtain ⟨args1, hargs1, rfl⟩ := map_eq_some_iff.mp h
    rw [removeArguments_some hargs1, keepArguments]

theorem removeArguments_complete (dead : String → Bool) : ∀ {ps : List Symbol} {args : List α},
    ps.length ≤ args.length → ∃ args', removeArguments (deadIndices dead ps 0) args = some args'
  | [], args, _ => ⟨args, rfl⟩
  | p :: ps, [], h => absurd h (Nat.not_succ_le_zero _)
  | p :: ps, a :: args, h => by
    obtain ⟨args', hargs'⟩ := removeArguments_complete dead (Nat.le_of_succ_le_succ h)
    rw [removeArguments_cons, hargs']
    exact ⟨_, rfl⟩

/-- The arguments that a call keeps. -/
def keptArguments {α : Type} (M : Model) (target : String) (args : List α) : List α :=
  match M.lookup target with
  | none => args
  | some g => keepArguments (isSymbolDead g) g.parameters args

/-- The statement with its call fixed. -/
def fixed {ρ : Type} (M : Model) : Statement ρ → Statement ρ
  | .call target args returnType => .call target (keptArguments M target args) returnType
  | s => s

/-! ### The second loop -/

/-- The block with all its calls fixed. -/
structure FixedBlock (M : Model) (b b' : Block) : Prop where
  statements : b'.statements = b.statements
  arenaSize : b'.arenaSize = b.arenaSize
  arena : ∀ r ∈ b.statements, b'.arena r = fixed M (b.arena r)
  other : ∀ r, r ∉ b.statements → b'.arena r = b.arena r

/-- **The function without its dead parameters and with its calls fixed.** -/
structure FixedFunction (M : Model) (f f' : Function) : Prop where
  parameters : f'.parameters = kept (isSymbolDead f) f.parameters
  entryBlock : f'.entryBlock = f.entryBlock
  block : ∀ b, f.Reached b → FixedBlock M (f.block b) (f'.block b)

/-- The positions of every function are there, from the last to the first. -/
def Complete (M : Model) (deadParameters : List (String × Nat)) : Prop :=
  ∀ name, positions deadParameters name =
    match M.lookup name with
    | none => []
    | some f => deadIndices (isSymbolDead f) f.parameters 0

theorem Removal.Inv.complete (h : st.Inv M) (hfinished : st.Finished) : Complete M st.deadParameters := by
  intro name
  cases hf : M.lookup name with
  | none => exact (h.absent name hf).2
  | some f => exact (h.finished hfinished hf).2

variable {deadParameters : List (String × Nat)} {changed : Bool}

section

variable (hdead : Complete M deadParameters)

include hdead

theorem fixStatement_fixed {s s' : Statement Ref} (h : fixStatement deadParameters s = some (s', changed)) :
    s' = fixed M s := by
  cases s with
  | call target args returnType =>
    obtain ⟨args', hargs', h⟩ := map_eq_some_iff.mp h
    cases h
    change removeArguments (positions deadParameters target) args = some args' at hargs'
    rw [hdead target] at hargs'
    change _ = Statement.call target (keptArguments M target args) returnType
    unfold keptArguments
    cases hg : M.lookup target with
    | none =>
      rw [hg] at hargs'
      cases hargs'
      rfl
    | some g =>
      rw [hg] at hargs'
      rw [removeArguments_some hargs']
  | _ =>
    cases h
    rfl

/-- The call has an argument for each parameter of a function of the model. -/
def CallComplete (M : Model) : Statement Ref → Prop
  | .call target args _ => ∀ g, M.lookup target = some g → g.parameters.length ≤ args.length
  | _ => True

theorem fixStatement_complete {s : Statement Ref} (h : CallComplete M s) :
    ∃ p, fixStatement deadParameters s = some p := by
  cases s with
  | call target args returnType =>
    change ∃ p, Option.map _ (removeArguments (positions deadParameters target) args) = some p
    rw [hdead target]
    cases hg : M.lookup target with
    | none => exact ⟨_, rfl⟩
    | some g =>
      obtain ⟨args', hargs'⟩ :=
        removeArguments_complete (isSymbolDead g) (h g hg)
      rw [hargs']
      exact ⟨_, rfl⟩
  | _ => exact ⟨_, rfl⟩

theorem forStatements_fixed : ∀ {l : List Ref} {b b' : Block} {changed : Bool}, l.Nodup →
      Block.forStatements (fun b r => (fixStatement deadParameters (b.arena r)).map fun (s, changed) =>
        (b.set r s, changed)) l b = some (b', changed) →
      b'.statements = b.statements ∧ b'.arenaSize = b.arenaSize ∧ (∀ r ∈ l, b'.arena r = fixed M (b.arena r)) ∧
        ∀ r, r ∉ l → b'.arena r = b.arena r
  | [], b, b', changed, _, h => by
    cases h
    exact ⟨rfl, rfl, fun _ h => absurd h not_mem_nil, fun _ _ => rfl⟩
  | r :: rest, b, b', changed, hnodup, h => by
    obtain ⟨b1, changed1, changed2, hfirst, hrest, -⟩ := forEach_eq_some h
    obtain ⟨⟨s, changed⟩, hs, hset⟩ := map_eq_some_iff.mp hfirst
    cases hset
    obtain ⟨hr, hnodup⟩ := nodup_cons.mp hnodup
    obtain ⟨hstatements, hsize, harena, hother⟩ := forStatements_fixed hnodup hrest
    refine ⟨hstatements, hsize, fun x hx => ?_, fun x hx => ?_⟩
    · by_cases hxr : x = r
      · rw [hxr, hother r hr, b.set_arena_self]
        exact fixStatement_fixed hdead hs
      · rw [harena x ((mem_cons.mp hx).resolve_left hxr), b.set_arena_of_ne s hxr]
    · have hxr : x ≠ r := fun h => hx (h ▸ mem_cons_self)
      rw [hother x fun h => hx (mem_cons_of_mem r h), b.set_arena_of_ne s hxr]

theorem fixBlock_fixed {b b' : Block} (hnodup : b.statements.Nodup) (h : fixBlock deadParameters b = some (b', changed)) :
    FixedBlock M b b' := by
  obtain ⟨hstatements, hsize, harena, hother⟩ := forStatements_fixed hdead hnodup h
  exact ⟨hstatements, hsize, harena, hother⟩

theorem forStatements_complete : ∀ {l : List Ref} {b : Block}, l.Nodup → (∀ r ∈ l, CallComplete M (b.arena r)) →
      ∃ p, Block.forStatements (fun b r => (fixStatement deadParameters (b.arena r)).map fun (s, changed) =>
        (b.set r s, changed)) l b = some p
  | [], b, _, _ => ⟨_, rfl⟩
  | r :: rest, b, hnodup, hcalls => by
    obtain ⟨hr, hnodup⟩ := nodup_cons.mp hnodup
    obtain ⟨⟨s, changed⟩, hs⟩ := fixStatement_complete hdead (hcalls r mem_cons_self)
    obtain ⟨p, hp⟩ := forStatements_complete (b := b.set r s) hnodup fun x hx => by
      have hne : x ≠ r := fun h => hr (h ▸ hx)
      rw [b.set_arena_of_ne s hne]
      exact hcalls x (mem_cons_of_mem r hx)
    exact ⟨_, forEach_cons (by rw [hs]; rfl) hp⟩

end

theorem forBlocks_complete {pass : Block → Option (Block × Bool)} : ∀ {l : List BlockRef} {f : Function}, l.Nodup →
    (∀ b ∈ l, ∃ p, pass (f.block b) = some p) → ∃ p, f.forBlocks pass l = some p
  | [], f, _, _ => ⟨_, rfl⟩
  | b :: rest, f, hnodup, hpass => by
    obtain ⟨hb, hnodup⟩ := nodup_cons.mp hnodup
    obtain ⟨⟨b', changed⟩, hb'⟩ := hpass b mem_cons_self
    obtain ⟨p, hp⟩ := forBlocks_complete (f := f.setBlock b b') hnodup fun x hx => by
      have hne : x ≠ b := fun h => hb (h ▸ hx)
      rw [f.setBlock_block_of_ne b' hne]
      exact hpass x (mem_cons_of_mem b hx)
    exact ⟨_, forEach_cons (by rw [hb']; rfl) hp⟩

/-- What a model has to be: names stand for one function, references are valid, and no statement stands in a block
twice. -/
structure Valid (M : Model) : Prop where
  names : (M.map Prod.fst).Nodup
  refs : ∀ name f, M.lookup name = some f → f.RefsValid
  nodup : ∀ name f, M.lookup name = some f → ∀ b, f.Reached b → (f.block b).statements.Nodup

/-- Every call has an argument for each parameter. -/
def CallsComplete (M : Model) : Prop :=
  ∀ name f, M.lookup name = some f → ∀ s, f.Contains s → CallComplete M s

theorem lookup_model (st : Removal) (M : Model) (name : String) :
    (st.model M).lookup name = (M.lookup name).map fun f => ((st.tasks name).map Task.function).getD f := by
  induction M with
  | nil => rfl
  | cons p M ih =>
    unfold Removal.model at ih ⊢
    rw [map_cons, lookup_cons, lookup_cons]
    cases hname : name == p.1 with
    | true =>
      rw [← eq_of_beq hname]
      rfl
    | false => exact ih

theorem fixCallSites_lookup : ∀ {M M' : Model} {changed : Bool},
    fixCallSites deadParameters M = some (M', changed) → ∀ name, (M.lookup name = none → M'.lookup name = none) ∧
      ∀ f, M.lookup name = some f → ∃ f' changed',
        f.forBlocks (fixBlock deadParameters) f.blockIter = some (f', changed') ∧ M'.lookup name = some f'
  | [], M', changed, h, name => by
    cases h
    exact ⟨fun _ => rfl, fun f hf => by cases hf⟩
  | (n, g) :: M, M', changed, h, name => by
    obtain ⟨⟨g', changed1⟩, hg, h⟩ := bind_eq_some_iff.mp h
    obtain ⟨⟨M1, changed2⟩, hM1, h⟩ := bind_eq_some_iff.mp h
    cases h
    rw [lookup_cons, lookup_cons]
    cases hname : name == n with
    | true =>
      refine ⟨fun h => (by cases h), fun f hf => ?_⟩
      cases hf
      exact ⟨g', changed1, hg, rfl⟩
    | false => exact fixCallSites_lookup hM1 name

theorem fixCallSites_complete : ∀ {M : Model},
    (∀ p ∈ M, ∃ q, p.2.forBlocks (fixBlock deadParameters) p.2.blockIter = some q) →
    ∃ q, fixCallSites deadParameters M = some q
  | [], _ => ⟨_, rfl⟩
  | (n, g) :: M, h => by
    obtain ⟨q, hq⟩ := h (n, g) mem_cons_self
    obtain ⟨q', hq'⟩ := fixCallSites_complete fun p hp => h p (mem_cons_of_mem _ hp)
    unfold fixCallSites
    rw [hq]
    dsimp only [bind_eq_bind, bind_some]
    rw [hq']
    exact ⟨_, rfl⟩

/-- **The pass.** -/
structure Fixes (M M' : Model) : Prop where
  absent : ∀ name, M.lookup name = none → M'.lookup name = none
  present : ∀ name f, M.lookup name = some f → ∃ f', M'.lookup name = some f' ∧ FixedFunction M f f'

/-- A function as its task leaves it has the same blocks. -/
theorem blockIter_parameters (f : Function) (parameters : List Symbol) :
    Function.blockIter { f with parameters := parameters } = f.blockIter :=
  Function.SameFlow.blockIter (f := f) ⟨rfl, rfl, fun _ => rfl⟩

theorem Removal.Inv.lookup_model (h : st.Inv M) (hfinished : st.Finished) (hf : M.lookup name = some f) :
    (st.model M).lookup name = some { f with parameters := kept (isSymbolDead f) f.parameters } := by
  obtain ⟨⟨task, htask, hfunction⟩, -⟩ := h.finished hfinished hf
  rw [RemoveUnusedParameters.lookup_model, hf, htask, map_some, map_some, getD_some, hfunction]

/-- **What the second loop makes of the model after the first.** -/
theorem fixCallSites_fixes {M' : Model} (hM : Valid M) (h : st.Inv M) (hfinished : st.Finished)
    (hfix : fixCallSites st.deadParameters (st.model M) = some (M', changed)) : Fixes M M' := by
  have hdead := h.complete hfinished
  refine ⟨fun name hname => ?_, fun name f hf => ?_⟩
  · refine (fixCallSites_lookup hfix name).1 ?_
    rw [lookup_model, hname]
    rfl
  · obtain ⟨f', changed', hforBlocks, hf'⟩ := (fixCallSites_lookup hfix name).2 _ (h.lookup_model hfinished hf)
    rw [blockIter_parameters] at hforBlocks
    have hpassed := Function.forBlocks_spec _ _ _ _ f.blockIter_nodup hforBlocks
    refine ⟨f', hf', hpassed.parameters, hpassed.entryBlock, fun b hb => ?_⟩
    obtain ⟨changed1, hblock⟩ := hpassed.passed b ((Function.mem_blockIter_iff (hM.refs name f hf)).mpr hb)
    exact fixBlock_fixed hdead (hM.nodup name f hf b hb) hblock

theorem lookup_of_mem (hnames : (M.map Prod.fst).Nodup) (h : (name, f) ∈ M) : M.lookup name = some f := by
  induction M with
  | nil => cases h
  | cons p M ih =>
    obtain ⟨hp, hnames⟩ := nodup_cons.mp hnames
    rw [lookup_cons]
    rcases mem_cons.mp h with rfl | h
    · rw [beq_self_eq_true]
    · have hne : (name == p.1) = false := beq_eq_false_iff_ne.mpr fun heq => hp (by
        rw [← heq]
        exact mem_map_of_mem h)
      rw [hne]
      exact ih hnames h

/-- **The second loop does not panic where every call has its arguments.** -/
theorem fixCallSites_total (hM : Valid M) (h : st.Inv M) (hfinished : st.Finished) (hcalls : CallsComplete M) :
    ∃ M' changed, fixCallSites st.deadParameters (st.model M) = some (M', changed) := by
  have hdead := h.complete hfinished
  have hall : ∀ p ∈ st.model M, ∃ q, p.2.forBlocks (fixBlock st.deadParameters) p.2.blockIter = some q := by
    rintro ⟨name, g⟩ hmem
    obtain ⟨⟨n, f⟩, hf, heq⟩ := mem_map.mp hmem
    have hlookup := lookup_of_mem hM.names hf
    obtain ⟨⟨task, htask, hfunction⟩, -⟩ := h.finished hfinished hlookup
    rw [htask, map_some, getD_some, hfunction] at heq
    cases heq
    rw [blockIter_parameters]
    refine forBlocks_complete f.blockIter_nodup fun b hb => ?_
    have hreached := (Function.mem_blockIter_iff (hM.refs n f hlookup)).mp hb
    exact forStatements_complete hdead (hM.nodup n f hlookup b hreached) fun r hr =>
      hcalls n f hlookup _ ⟨b, hreached, r, hr, rfl⟩
  obtain ⟨⟨M', changed⟩, hfix⟩ := fixCallSites_complete hall
  exact ⟨M', changed, hfix⟩

end RemoveUnusedParameters

end Icewind.Rudder
