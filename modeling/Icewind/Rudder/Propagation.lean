import Icewind.Rudder.ConstantFolding
import Mathlib.Data.List.Induction

/-!
# Propagation of constants, variables and tuples

Model of `borealis/src/rudder/opt/constant_propagation.rs`, `variable_elimination.rs` and
`local_tuple_removal.rs`, and of the `SymbolUseAnalysis` they ask
(`borealis/src/rudder/analysis/dfa.rs`).

* `ConstantPropagation.run`, `VariableElimination.run`, `LocalTupleRemoval.run` — the passes.
* `Block.lastWrite` — the value last written to a variable in a block.  `Reaches.lastWrite` says
  that a run has it in its local variables.
* `OnlyWrites` — all writes of a variable write the same constant, so that a run never reads
  anything else from it.
* `propagation_refines` — any number of runs of the passes keep what a returning run returns and
  does, as long as no static type that is asked for changes.
* `not_keeps_extended` — a propagated width changes what a sign extension sees.
-/

namespace Icewind.Rudder

open List Option

/-! ### The passes -/

/-- Does the statement read the variable? -/
def Statement.Reads {ρ : Type} (name : String) : Statement ρ → Prop
  | .readVariable symbol => symbol.name = name
  | _ => False

instance {ρ : Type} (name : String) (s : Statement ρ) : Decidable (s.Reads name) :=
  decidable_of_bool (match s with | .readVariable symbol => decide (symbol.name = name) | _ => false)
    (by cases s <;> simp [Statement.Reads])

namespace SymbolUseAnalysis

/-- The statements of the visited blocks that satisfy the predicate. -/
def statementsWith (f : Function) (P : Statement Ref → Prop) [DecidablePred P] : List (Ref × BlockRef) :=
  f.blockIter.flatMap fun b =>
    ((f.block b).statements.filter fun r => decide (P ((f.block b).arena r))).map fun r => (r, b)

/-- `get_symbol_writes`. -/
def writes (f : Function) (name : String) : List (Ref × BlockRef) :=
  statementsWith f (Statement.Writes name)

/-- `get_symbol_reads`. -/
def reads (f : Function) (name : String) : List (Ref × BlockRef) :=
  statementsWith f (Statement.Reads name)

/-- `is_symbol_local`: the variable is used in one block. -/
def isSymbolLocal (f : Function) (name : String) : Bool :=
  decide ((f.blockIter.filter fun b => (f.block b).statements.any fun r =>
    decide (((f.block b).arena r).Writes name) || decide (((f.block b).arena r).Reads name)).length = 1)

end SymbolUseAnalysis

/-- The uses of a statement are replaced by what was found for it. -/
def Block.replaceFound (b : Block) (uses : Ref → List Ref) (stmt : Ref) : Option Ref → Option (Block × Bool)
  | none => some (b, false)
  | some value => (b.replaceUses stmt value (uses stmt)).map (·, !(uses stmt).isEmpty)

/-- What was last written to the variable that the statement reads. -/
def recentWrite (isLocal : String → Bool) (writes : String → Option Ref) (b : Block) (stmt : Ref) : Option Ref :=
  match b.arena stmt with
  | .readVariable symbol => if isLocal symbol.name then writes symbol.name else none
  | _ => none

/-- One statement of the loop of `simplify_block_local_writes` and of variable elimination, with the most recent writes
and the block.  `uses` are those of the block as it was at the start. -/
def propagateWrite (isLocal : String → Bool) (uses : Ref → List Ref) (s : (String → Option Ref) × Block) (stmt : Ref) :
    Option (((String → Option Ref) × Block) × Bool) :=
  match s.2.arena stmt with
  | .writeVariable symbol value =>
    some ((if isLocal symbol.name then Function.update s.1 symbol.name (some value) else s.1, s.2), false)
  | _ => (s.2.replaceFound uses stmt (recentWrite isLocal s.1 s.2 stmt)).map fun p => ((s.1, p.1), p.2)

def propagateWrites (isLocal : String → Bool) (b : Block) : Option (Block × Bool) :=
  (forEach (propagateWrite isLocal b.usesOf) b.statements (fun _ => none, b)).map fun p => (p.1.2, p.2)

namespace ConstantPropagation

/-- A read becomes the constant; `none` is the panic on something else. -/
def replaceRead (c : Constant) (f : Function) (p : Ref × BlockRef) : Option (Function × Bool) :=
  match (f.block p.2).arena p.1 with
  | .readVariable _ => some (f.setBlock p.2 ((f.block p.2).set p.1 (.constant c)), true)
  | _ => none

/-- The constant that a single write writes; the writes were collected from `f₀`. -/
def candidate (f₀ f : Function) (name : String) : Option (Option Constant) :=
  match SymbolUseAnalysis.writes f₀ name with
  | [(stmt, block)] =>
    match (f.block block).arena stmt with
    | .writeVariable _ value => some ((f.block block).constantAt value)
    | _ => none
  | _ => some none

/-- All reads of the variable, in all blocks, become the constant that is written to it. -/
def propagateConstant (f₀ f : Function) (symbol : Symbol) : Option (Function × Bool) :=
  match candidate f₀ f symbol.name with
  | none => none
  | some none => some (f, false)
  | some (some c) => forEach (replaceRead c) (SymbolUseAnalysis.reads f₀ symbol.name) f

def simplifyBlockLocalWrites (b : Block) : Option (Block × Bool) := propagateWrites (fun _ => true) b

def run (f : Function) : Option (Function × Bool) := do
  let (f, changed) ← forEach (propagateConstant f) f.localVariables f
  let (f, changed') ← f.forBlocks simplifyBlockLocalWrites f.blockIter
  some (f, changed || changed')

end ConstantPropagation

namespace VariableElimination

/-- `run_on_block`; a read is dead exactly when it has no uses. -/
def runOnBlock (isLocal : String → Bool) (b : Block) : Option (Block × Bool) := propagateWrites isLocal b

def run (f : Function) : Option (Function × Bool) :=
  f.forBlocks (runOnBlock (SymbolUseAnalysis.isSymbolLocal f)) f.blockIter

end VariableElimination

namespace LocalTupleRemoval

/-- The element that an access takes from a tuple made in the block; an index out of bounds fails the assertion. -/
def tupleElement (b : Block) (stmt : Ref) : Option (Option Ref) :=
  match b.arena stmt with
  | .tupleAccess index source =>
    match b.arena source with
    | .createTuple items => items[index]?.map some
    | _ => some none
  | _ => some none

/-- One statement of the loop of `run_on_block`. -/
def removeTuple (uses : Ref → List Ref) (b : Block) (stmt : Ref) : Option (Block × Bool) :=
  (tupleElement b stmt).bind (b.replaceFound uses stmt)

def runOnBlock (b : Block) : Option (Block × Bool) := forEach (removeTuple b.usesOf) b.statements b

def run (f : Function) : Option (Function × Bool) := f.forBlocks runOnBlock f.blockIter

end LocalTupleRemoval

/-! ### Blocks that do the same -/

variable {μ : Type} (env : Environment μ)

/-- The second block does what the first does, from any variables, flags and state. -/
def BlockSim (b b' : Block) : Prop :=
  ∀ (call call' : Calls μ), Calls.Refines call call' → ∀ locals flags st result,
    interpretBlock env call b locals flags st = some result →
    interpretBlock env call' b' locals flags st = some result

theorem BlockSim.refl (b : Block) : BlockSim env b b :=
  fun _ _ hcall _ _ _ _ h => interpretBlock_refines env hcall h

variable {b1 b2 b3 : Block}

theorem BlockSim.trans (h : BlockSim env b1 b2) (h' : BlockSim env b2 b3) : BlockSim env b1 b3 :=
  fun call call' hcall locals flags st result hrun =>
    h' call' call' (fun _ _ _ _ h => h) locals flags st result
      (h call call' hcall locals flags st result hrun)

variable {b : Block} {above below : List Ref} {b' : Block} {useOf replacement : Ref}

/-- Replacing uses by something with the same value keeps what the block does. -/
theorem blockSim_replaceUses (hb : b.WellFormed) (h : b.UsesReplaced b' useOf replacement)
    (hsplit : b.statements = above ++ useOf :: below) (hrep : replacement ∈ above)
    (hkept : b.UseKept useOf replacement)
    (hvalue : ∀ (call : Calls μ) locals flags st fr st1 value locals' flags' st2,
      b.Reaches env call locals flags st above fr st1 →
      execIn env call b useOf fr st1 = some (.next value locals' flags' st2) →
      value = fr.values replacement ∧ value.isSome) : BlockSim env b b' := by
  intro call call' hcall locals flags st result hrun
  rw [← logBlock_fst] at hrun ⊢
  obtain ⟨p, hp, rfl⟩ := map_eq_some_iff.mp hrun
  rw [logBlock_replaceUses env hcall hb h hsplit hrep (fun _ => hkept) (hvalue call locals flags st) hp]
  rfl

/-! ### Local variables in a run -/

variable {call : Calls μ} {locals : Locals} {flags : Nat} {value : Option Value} {fr : Frame} {r : Ref}
  {st st' : State μ}

theorem execIn_locals (h : execIn env call b r fr st = some (.next value locals flags st')) :
    (∃ symbol x v, b.arena r = .writeVariable symbol x ∧ fr.values x = some v ∧ value = none ∧
      locals = Function.update fr.locals symbol.name (some v)) ∨
    (∀ symbol x, b.arena r ≠ .writeVariable symbol x) ∧ locals = fr.locals := by
  rcases (exec_next env h).1 with ⟨symbol, v, hs, hvalue, hlocals⟩ | ⟨hs, hlocals⟩
  · cases harena : b.arena r with
    | writeVariable symbol' x =>
      rw [harena] at hs
      obtain ⟨rfl, hx⟩ := Statement.writeVariable.inj hs
      exact .inl ⟨_, x, v, rfl, hx, hvalue, hlocals⟩
    | _ =>
      rw [harena] at hs
      cases hs
  · refine .inr ⟨fun symbol x harena => ?_, hlocals⟩
    rw [harena] at hs
    exact hs symbol (fr.values x) rfl

namespace Block

/-- The value last written to the variable by these statements. -/
def lastWrite (b : Block) (name : String) (done : List Ref) : Option Ref :=
  done.foldl (fun written r =>
    match b.arena r with
    | .writeVariable symbol value => if symbol.name = name then some value else written
    | _ => written) none

theorem lastWrite_concat (b : Block) (name : String) (done : List Ref) (r : Ref) :
    b.lastWrite name (done ++ [r]) =
      match b.arena r with
      | .writeVariable symbol value => if symbol.name = name then some value else b.lastWrite name done
      | _ => b.lastWrite name done := by
  unfold lastWrite
  rw [foldl_append]
  rfl

variable {name : String} {b : Block} {done : List Ref}

theorem lastWrite_concat_of_ne (h : ∀ symbol value, b.arena r ≠ .writeVariable symbol value) :
    b.lastWrite name (done ++ [r]) = b.lastWrite name done := by
  rw [lastWrite_concat]
  split
  · rename_i symbol value hs
    exact absurd hs (h symbol value)
  · rfl

theorem lastWrite_congr {b b' : Block} (name : String) :
    ∀ {done : List Ref}, (∀ r ∈ done, b'.arena r = b.arena r) →
      b'.lastWrite name done = b.lastWrite name done := by
  intro done h
  refine foldl_ext _ _ none fun written r hr => ?_
  rw [h r hr]

/-- The value that was written stands above. -/
theorem WellFormed.lastWrite_mem (hb : b.WellFormed) {v : Ref} :
    ∀ {done rest : List Ref}, b.statements = done ++ rest → b.lastWrite name done = some v → v ∈ done := by
  intro done
  induction done using List.reverseRecOn with
  | nil =>
    intro rest _ h
    cases h
  | append_singleton done r ih =>
    intro rest hsplit h
    have hsplit' : b.statements = done ++ r :: rest := by
      rw [hsplit]
      simp
    rw [lastWrite_concat] at h
    split at h
    · rename_i symbol value hs
      split at h
      · cases h
        exact mem_append_left _ (hb.ordered done r rest hsplit' v (by simp [hs, Statement.operands]))
      · exact mem_append_left _ (ih hsplit' h)
    · exact mem_append_left _ (ih hsplit' h)

/-- **A variable has the value last written to it.** -/
theorem Reaches.lastWrite {call : Calls μ} {locals : Locals} {flags : Nat} (hb : b.WellFormed)
    (h : b.Reaches env call locals flags st done fr st') {v : Ref} (hv : b.lastWrite name done = some v) :
    fr.locals name = fr.values v ∧ (fr.values v).isSome := by
  induction h with
  | enter => cases hv
  | @next done rest r fr st1 st2 value locals' flags' hreach hsplit hexec ih =>
    have hr := hb.not_mem hsplit
    have hne : v ∈ done → v ≠ r := fun hmem heq => hr (heq ▸ hmem)
    rcases execIn_locals env hexec with ⟨symbol, x, w, hs, hx, rfl, rfl⟩ | ⟨hs, rfl⟩
    · -- a write has no value of its own
      have hvalues : (fr.next r none (Function.update fr.locals symbol.name (some w)) flags').values =
          fr.values := rfl
      rw [hvalues]
      rw [lastWrite_concat, hs] at hv
      dsimp only at hv
      split at hv
      · rename_i hname
        cases hv
        rw [hx]
        refine ⟨?_, rfl⟩
        change Function.update fr.locals symbol.name (some w) name = some w
        rw [← hname, Function.update_self]
      · rename_i hname
        change Function.update fr.locals symbol.name (some w) name = fr.values v ∧ _
        rw [Function.update_of_ne (Ne.symm hname)]
        exact ih hv
    · rw [lastWrite_concat_of_ne hs] at hv
      rw [fr.next_values_of_ne _ _ _ (hne (hb.lastWrite_mem hsplit hv))]
      exact ih hv

end Block

/-! ### Block-local writes -/

variable {symbol : Symbol}

theorem execIn_readVariable (hs : b.arena r = .readVariable symbol)
    (h : execIn env call b r fr st = some (.next value locals flags st')) :
    ∃ v, fr.locals symbol.name = some v ∧ value = some v ∧ locals = fr.locals ∧ flags = fr.flags ∧
      st' = st := by
  unfold execIn at h
  rw [hs] at h
  obtain ⟨v, hv, h⟩ := bind_eq_some_iff.mp h
  cases h
  exact ⟨v, hv, rfl, rfl, rfl, rfl⟩

/-- **The uses of a read can be replaced by the value last written.** -/
theorem blockSim_read (hb : b.WellFormed) {stmt v : Ref} (hsplit : b.statements = above ++ stmt :: below)
    (hs : b.arena stmt = .readVariable symbol) (hv : b.lastWrite symbol.name above = some v)
    (hkept : b.UseKept stmt v) (h : b.UsesReplaced b' stmt v) : b'.WellFormed ∧ BlockSim env b b' := by
  have hmem := hb.lastWrite_mem hsplit hv
  refine ⟨h.wellFormed hb hsplit hmem, blockSim_replaceUses env hb h hsplit hmem hkept ?_⟩
  intro call locals flags st fr st1 value locals' flags' st2 hreach hexec
  obtain ⟨w, hw, rfl, -⟩ := execIn_readVariable env hs hexec
  obtain ⟨hlast, -⟩ := hreach.lastWrite env hb hv
  exact ⟨hw.symm.trans hlast, rfl⟩

/-- What a pass keeps of a block. -/
structure BlockKeeps (b b' : Block) : Prop where
  wellFormed : b'.WellFormed
  sim : BlockSim env b b'
  statements : b'.statements = b.statements
  targets : b'.targets = b.targets

theorem BlockKeeps.refl (hb : b.WellFormed) : BlockKeeps env b b :=
  ⟨hb, .refl env b, rfl, rfl⟩

theorem BlockKeeps.trans (h : BlockKeeps env b1 b2) (h' : BlockKeeps env b2 b3) : BlockKeeps env b1 b3 :=
  ⟨h'.wellFormed, h.sim.trans env h'.sim, h'.statements.trans h.statements, h'.targets.trans h.targets⟩

theorem Block.targets_eq (b : Block) : b.targets = b.statements.flatMap fun r => (b.arena r).targets := by
  unfold Block.targets
  congr 1
  funext r
  cases b.arena r <;> rfl

theorem Block.UsesReplaced.targets (h : b.UsesReplaced b' useOf replacement) : b'.targets = b.targets := by
  have hr : ∀ r, (b'.arena r).targets = (b.arena r).targets := by
    intro r
    rcases h.arena r with heq | ⟨-, hreplace⟩
    · rw [heq]
    · rcases Statement.replaceUse_cases hreplace with
        ⟨heq, -⟩ | ⟨kind, rhs, heq, heq'⟩ | ⟨kind, lhs, heq, heq'⟩
      · rw [heq, Statement.targets_map]
      · rw [heq, heq']
        rfl
      · rw [heq, heq']
        rfl
  rw [Block.targets_eq, Block.targets_eq, h.statements, funext hr]

/-- The loop remembers the values last written to the variables it looks at. -/
def WritesInv (isLocal : String → Bool) (b : Block) (done : List Ref) (writes : String → Option Ref) : Prop :=
  ∀ name v, writes name = some v → b.lastWrite name done = some v ∧ isLocal name = true

variable {isLocal : String → Bool} {done : List Ref} {writes : String → Option Ref}

theorem WritesInv.write (h : WritesInv isLocal b done writes) {stmt value : Ref}
    (hs : b.arena stmt = .writeVariable symbol value) :
    WritesInv isLocal b (done ++ [stmt])
      (if isLocal symbol.name then Function.update writes symbol.name (some value) else writes) := by
  intro name v hv
  rw [Block.lastWrite_concat, hs]
  dsimp only
  split at hv
  · rename_i hlocal
    by_cases hname : symbol.name = name
    · subst hname
      rw [Function.update_self] at hv
      cases hv
      rw [if_pos rfl]
      exact ⟨rfl, hlocal⟩
    · rw [Function.update_of_ne (Ne.symm hname)] at hv
      rw [if_neg hname]
      exact h name v hv
  · rename_i hlocal
    have hname : symbol.name ≠ name := by
      rintro rfl
      exact hlocal (h _ v hv).2
    rw [if_neg hname]
    exact h name v hv

theorem WritesInv.other (h : WritesInv isLocal b done writes) {stmt : Ref}
    (hs : ∀ symbol value, b.arena stmt ≠ .writeVariable symbol value) :
    WritesInv isLocal b (done ++ [stmt]) writes := by
  intro name v hv
  rw [Block.lastWrite_concat_of_ne hs]
  exact h name v hv

variable {stmt : Ref} {rest : List Ref} {b₀ : Block} {changed : Bool}

theorem usesOf_spec (b : Block) (stmt : Ref) : (b.usesOf stmt).Nodup ∧ b.usesOf stmt ⊆ b.statements :=
  ⟨nodup_dedup _, fun _ hx => Block.mem_usesOf hx⟩

/-- **One replacement**, of uses that were found in the block `b₀` at the start of the pass. -/
theorem BlockKeeps.replaceFound {found : Option Ref} (h : BlockKeeps env b₀ b)
    (hsim : ∀ value b', found = some value → b.UsesReplaced b' stmt value → b'.WellFormed ∧ BlockSim env b b')
    (hrun : b.replaceFound b₀.usesOf stmt found = some (b', changed)) :
    BlockKeeps env b₀ b' ∧ (b' = b ∨ ∃ value, found = some value ∧ b.UsesReplaced b' stmt value) := by
  cases found with
  | none =>
    cases hrun
    exact ⟨h, .inl rfl⟩
  | some value =>
    obtain ⟨b1, hreplace, heq⟩ := map_eq_some_iff.mp hrun
    cases heq
    obtain ⟨hnodup, hsub⟩ := usesOf_spec b₀ stmt
    rw [← h.statements] at hsub
    have hreplaced := (Block.replaceUses_spec hnodup hsub hreplace).1
    obtain ⟨hb1, hsim1⟩ := hsim value b' rfl hreplaced
    exact ⟨h.trans env ⟨hb1, hsim1, hreplaced.statements, hreplaced.targets⟩, .inr ⟨value, rfl, hreplaced⟩⟩

theorem recentWrite_eq_some {value : Ref} (h : recentWrite isLocal writes b stmt = some value) :
    ∃ symbol, b.arena stmt = .readVariable symbol ∧ writes symbol.name = some value := by
  unfold recentWrite at h
  split at h
  · rename_i symbol hs
    split at h
    · exact ⟨symbol, hs, h⟩
    · cases h
  · cases h

/-- One statement of the loop over reads and writes. -/
theorem propagateWrite_keeps {s s' : (String → Option Ref) × Block} (hkeeps : BlockKeeps env b₀ s.2)
    (hsplit : b₀.statements = done ++ stmt :: rest) (hinv : WritesInv isLocal s.2 done s.1)
    (hkept : ∀ value, recentWrite isLocal s.1 s.2 stmt = some value → s.2.UseKept stmt value)
    (h : propagateWrite isLocal b₀.usesOf s stmt = some (s', changed)) :
    BlockKeeps env b₀ s'.2 ∧ WritesInv isLocal s'.2 (done ++ [stmt]) s'.1 := by
  have hb := hkeeps.wellFormed
  rw [← hkeeps.statements] at hsplit
  unfold propagateWrite at h
  split at h
  · rename_i symbol value hs
    cases h
    exact ⟨hkeeps, hinv.write hs⟩
  · rename_i hs
    have hother := hinv.other hs
    obtain ⟨⟨b', changed'⟩, hrun, heq⟩ := map_eq_some_iff.mp h
    cases heq
    obtain ⟨hkeeps', hsame⟩ := hkeeps.replaceFound env (fun value b1 hfound hreplaced => by
      obtain ⟨symbol, hread, hwrite⟩ := recentWrite_eq_some hfound
      exact blockSim_read env hb hsplit hread (hinv _ _ hwrite).1 (hkept value hfound) hreplaced) hrun
    refine ⟨hkeeps', ?_⟩
    rcases hsame with rfl | ⟨value, hfound, hreplaced⟩
    · exact hother
    -- nothing up to the read has changed
    have harena : ∀ r ∈ done ++ [stmt], b'.arena r = s.2.arena r := by
      intro r hr
      rcases mem_append.mp hr with hr | hr
      · exact hreplaced.arena_above hb hsplit hr
      · obtain rfl := mem_singleton.mp hr
        obtain ⟨symbol, hread, -⟩ := recentWrite_eq_some hfound
        rcases hreplaced.arena r with heq | ⟨-, hreplace⟩
        · exact heq
        · rw [hread] at hreplace
          cases hreplace
    intro name v hv
    rw [Block.lastWrite_congr name harena]
    exact hother name v hv

/-- At every replacement in the loop over the reads and writes of a block, the new operand will do where the type of the
old one is asked for. -/
def WritesKept (isLocal : String → Bool) (b : Block) : Prop :=
  Along (propagateWrite isLocal b.usesOf)
    (fun s stmt => ∀ value, recentWrite isLocal s.1 s.2 stmt = some value → s.2.UseKept stmt value)
    b.statements (fun _ => none, b)

/-- **The loop over reads and writes keeps what the block does.** -/
theorem propagateWrites_keeps (hb : b.WellFormed) (hkept : WritesKept isLocal b)
    (h : propagateWrites isLocal b = some (b', changed)) : BlockKeeps env b b' := by
  obtain ⟨⟨⟨writes, b1⟩, changed1⟩, hloop, heq⟩ := map_eq_some_iff.mp h
  cases heq
  have hinv := hkept.forEach (d := [])
    (Φ := fun done rest s => BlockKeeps env b s.2 ∧ b.statements = done ++ rest ∧ WritesInv isLocal s.2 done s.1)
    (fun {done rest stmt s s' changed} hs hok hstep => by
      obtain ⟨hkeeps, hsplit, hinv⟩ := hs
      obtain ⟨hkeeps', hinv'⟩ := propagateWrite_keeps env hkeeps hsplit hinv hok hstep
      exact ⟨hkeeps', by rw [hsplit, append_assoc]; rfl, hinv'⟩)
    hloop ⟨.refl env hb, rfl, nofun⟩
  exact hinv.1

/-! ### Tuples -/

theorem mapM_id_getElem {vs : List (Option Value)} {ws : List Value} {i : Nat} {x : Option Value} :
    vs.mapM id = some ws → vs[i]? = some x → ws[i]? = x ∧ x.isSome := by
  induction vs generalizing ws i with
  | nil =>
    intro _ h
    simp at h
  | cons v vs ih =>
    intro h hx
    rw [mapM_cons] at h
    obtain ⟨w, ws', hw, hws', h⟩ := bind₂_eq_some h
    cases h
    cases i with
    | zero =>
      simp only [List.getElem?_cons_zero, some.injEq] at hx
      subst hx
      have hv : v = some w := hw
      rw [hv]
      exact ⟨rfl, rfl⟩
    | succ i =>
      rw [List.getElem?_cons_succ] at hx ⊢
      exact ih hws' hx

/-- **The uses of an access to a tuple that is made in the block can be replaced by its element.** -/
theorem blockSim_tuple (hb : b.WellFormed) {stmt source element : Ref} {index : Nat} {items : List Ref}
    (hsplit : b.statements = above ++ stmt :: below) (hs : b.arena stmt = .tupleAccess index source)
    (hsource : b.arena source = .createTuple items) (helement : items[index]? = some element)
    (hkept : b.UseKept stmt element) (h : b.UsesReplaced b' stmt element) :
    b'.WellFormed ∧ BlockSim env b b' := by
  have hmemSource : source ∈ above := hb.ordered above stmt below hsplit source
    (by simp [hs, Statement.operands])
  have hmem : element ∈ above := hb.operand_mem hsplit hmemSource
    (by rw [hsource]; exact mem_of_getElem? helement)
  refine ⟨h.wellFormed hb hsplit hmem, blockSim_replaceUses env hb h hsplit hmem hkept ?_⟩
  intro call locals flags st fr st1 value locals' flags' st2 hreach hexec
  have htuple := hreach.consistent env hb source hmemSource (by rw [hsource]; trivial)
  rw [hsource] at htuple
  unfold execIn at hexec
  rw [hs, exec_computes env (by exact trivial)] at hexec
  obtain ⟨w, hw, hstep⟩ := map_eq_some_iff.mp hexec
  cases hstep
  obtain ⟨t, ht, hw⟩ := bind_eq_some_iff.mp hw
  rw [ht] at htuple
  obtain ⟨vs, hvs, htuple⟩ := bind_eq_some_iff.mp htuple.symm
  cases htuple
  have hget : (items.map fr.values)[index]? = some (fr.values element) := by
    rw [List.getElem?_map, helement]
    rfl
  obtain ⟨h1, h2⟩ := mapM_id_getElem hvs hget
  exact ⟨hw.symm.trans h1, rfl⟩

open LocalTupleRemoval in
theorem tupleElement_eq_some {element : Ref} (h : tupleElement b stmt = some (some element)) :
    ∃ index source items, b.arena stmt = .tupleAccess index source ∧ b.arena source = .createTuple items ∧
      items[index]? = some element := by
  unfold tupleElement at h
  split at h
  · rename_i index source hs
    split at h
    · rename_i items hsource
      obtain ⟨e, he, heq⟩ := map_eq_some_iff.mp h
      cases heq
      exact ⟨index, source, items, hs, hsource, he⟩
    · cases h
  · cases h

/-- The condition at every replacement of tuple removal. -/
def TuplesKept (b : Block) : Prop :=
  Along (LocalTupleRemoval.removeTuple b.usesOf)
    (fun b stmt => ∀ element, LocalTupleRemoval.tupleElement b stmt = some (some element) → b.UseKept stmt element)
    b.statements b

theorem removeTuples_keeps (hb : b.WellFormed) (hkept : TuplesKept b)
    (h : LocalTupleRemoval.runOnBlock b = some (b', changed)) : BlockKeeps env b b' := by
  have hinv := hkept.forEach (d := [])
    (Φ := fun done rest b1 => BlockKeeps env b b1 ∧ b.statements = done ++ rest)
    (fun {done rest stmt b1 b2 changed} hs hok hstep => by
      obtain ⟨hkeeps, hsplit⟩ := hs
      obtain ⟨found, hfound, hstep⟩ := bind_eq_some_iff.mp hstep
      refine ⟨(hkeeps.replaceFound env (fun element b' heq hreplaced => ?_) hstep).1, ?_⟩
      · subst heq
        obtain ⟨index, source, items, hs, hsource, helement⟩ := tupleElement_eq_some hfound
        exact blockSim_tuple env hkeeps.wellFormed (hkeeps.statements.trans hsplit) hs hsource helement
          (hok element hfound) hreplaced
      · rw [hsplit, append_assoc]
        rfl)
    h ⟨.refl env hb, rfl⟩
  exact hinv.1

/-! ### Constants -/

/-- All writes of the variable write this constant. -/
def OnlyWrites (f : Function) (name : String) (c : Constant) : Prop :=
  ∀ b ∈ f.blockIter, ∀ r ∈ (f.block b).statements, ∀ symbol value,
    (f.block b).arena r = .writeVariable symbol value → symbol.name = name →
    (f.block b).constantAt value = some c

/-- The variable has not been written, or has that constant. -/
def NoneOr (name : String) (c : Constant) (locals : Locals) : Prop :=
  locals name = none ∨ locals name = some (.fromConstant c)

variable {name : String} {c : Constant}

/-- A block in which only the constant is written keeps it that way. -/
theorem Block.Reaches.noneOr (hb : b.WellFormed)
    (hwrites : ∀ r ∈ b.statements, ∀ symbol value,
      b.arena r = .writeVariable symbol value → symbol.name = name → b.constantAt value = some c)
    (hlocals : NoneOr name c locals) (h : b.Reaches env call locals flags st done fr st') :
    NoneOr name c fr.locals := by
  induction h with
  | enter => exact hlocals
  | @next done rest r fr st1 st2 value locals' flags' hreach hsplit hexec ih =>
    rcases execIn_locals env hexec with ⟨symbol, x, w, hs, hx, rfl, rfl⟩ | ⟨-, rfl⟩
    · change NoneOr name c (Function.update fr.locals symbol.name (some w))
      unfold NoneOr
      by_cases hname : symbol.name = name
      · have hc := constantAt_eq_some (hwrites r (by simp [hsplit]) symbol x hs hname)
        have hmem : x ∈ done := hb.ordered done r rest hsplit x (by simp [hs, Statement.operands])
        rw [hreach.constant env hb hmem hc] at hx
        cases hx
        rw [← hname, Function.update_self]
        exact .inr rfl
      · rw [Function.update_of_ne (Ne.symm hname)]
        exact ih
    · exact ih

/-- The constant will do where the type of the read is asked for. -/
structure ReadKept (b : Block) (read : Ref) (c : Constant) : Prop where
  typ : ∀ exact, b.Asked exact read → ∀ t, b.HasTyp read t → ∃ t', c.typ = some t' ∧ (exact = true → t' = t)
  width : b.WidthKept read (some c)

variable {read : Ref}

theorem ReadKept.typesKept (h : ReadKept b read c) : b.TypesKept (b.set read (.constant c)) := by
  refine Block.typesKept_set (fun exact hr t ht => ?_) ?_
  · obtain ⟨t', ht', heq⟩ := h.typ exact hr t ht
    refine ⟨t', ⟨1, ?_⟩, heq⟩
    rw [Block.typAux, b.set_arena_self]
    exact ht'
  · rw [Block.constantAt, b.set_arena_self]
    exact h.width

theorem bindArguments_eq_none :
    ∀ {parameters : List Symbol} {arguments : List Value}, (∀ p ∈ parameters, p.name ≠ name) →
      bindArguments parameters arguments name = none := by
  intro parameters arguments h
  have hfold : ∀ (l : List (Symbol × Value)) (locals : Locals), (∀ p ∈ l, p.1.name ≠ name) →
      locals name = none →
      (l.foldl (fun (locals : Locals) p => Function.update locals p.1.name (some p.2)) locals) name =
        none := by
    intro l
    induction l with
    | nil => exact fun _ _ h => h
    | cons p l ih =>
      intro locals hl hnone
      refine ih _ (fun q hq => hl q (mem_cons_of_mem _ hq)) ?_
      dsimp only
      rw [Function.update_of_ne (Ne.symm (hl p mem_cons_self))]
      exact hnone
  refine hfold _ _ (fun p hp => h p.1 ?_) rfl
  exact (of_mem_zip (show (p.1, p.2) ∈ _ from hp)).1

/-- What the passes rely on, and keep. -/
structure Function.Prepared (f : Function) : Prop where
  valid : f.RefsValid
  wellFormed : ∀ b ∈ f.blockIter, (f.block b).WellFormed
  distinct : ∀ x ∈ f.localVariables, ∀ p ∈ f.parameters, p.name ≠ x.name

/-- Putting the second function in the place of the first keeps what calls return and do. -/
def Simulates (f f' : Function) : Prop :=
  ∀ (M : Model) (name : String), M.lookup name = some f →
    ∀ fuel, Calls.Refines (interpret env M fuel) (interpret env (M.put name f') fuel)

theorem Model.put_put (M : Model) (name : String) (f f' : Function) :
    (M.put name f).put name f' = M.put name f' := by
  unfold Model.put
  rw [List.map_map]
  refine map_congr_left fun p _ => ?_
  dsimp only [Function.comp]
  split <;> rfl

variable {f : Function}

theorem Model.put_self {M : Model} (h : M.lookup name = some f) (fuel : Nat) :
    Calls.Refines (interpret env M fuel) (interpret env (M.put name f) fuel) :=
  refines_put env (P := fun _ => True) (fun _ => trivial) h (FunctionSim.refl env _ f) fuel

theorem Simulates.refl (f : Function) : Simulates env f f :=
  fun _ _ h fuel => Model.put_self env h fuel

theorem Simulates.trans {f1 f2 f3 : Function} (h : Simulates env f1 f2) (h' : Simulates env f2 f3) :
    Simulates env f1 f3 := by
  intro M name hf fuel
  have := h' (M.put name f2) name (Model.lookup_put_self f2 hf) fuel
  rw [Model.put_put] at this
  exact (h M name hf fuel).trans this

/-- A function whose visited blocks do the same to local variables that are as they should be, and leave them so. -/
theorem simulates_of_blocks {f' : Function} (I : Locals → Prop) (hf : f.RefsValid)
    (hparameters : f'.parameters = f.parameters) (hentry : f'.entryBlock = f.entryBlock)
    (hinit : ∀ arguments, I (bindArguments f.parameters arguments))
    (hblocks : ∀ b ∈ f.blockIter, ∀ call call' : Calls μ, Calls.Refines call call' → ∀ locals flags st result,
      I locals → interpretBlock env call (f.block b) locals flags st = some result →
      interpretBlock env call' (f'.block b) locals flags st = some result ∧
        ∀ target locals' flags' st', result = .nextBlock target locals' flags' st' → I locals') :
    Simulates env f f' := by
  intro M name hlookup
  have hsim : FunctionSim env (fun _ => True) f f' fun b locals flags locals' flags' =>
      b ∈ f.blockIter ∧ I locals ∧ locals' = locals ∧ flags' = flags := by
    refine ⟨hentry, fun arguments => ?_, ?_⟩
    · rw [hparameters]
      exact ⟨(Function.blockIter_closed hf).1, hinit arguments, rfl, rfl⟩
    · rintro call call' - hcall b locals flags _ _ st result ⟨hb, hlocals, rfl, rfl⟩ hrun
      obtain ⟨hrun', hnext⟩ := hblocks b hb call call' hcall _ _ st result hlocals hrun
      refine ⟨result, hrun', ?_⟩
      cases result with
      | nextBlock target locals1 flags1 st1 =>
        exact ⟨rfl, rfl, (Function.blockIter_closed hf).2 b hb target
          (interpretStatements_target env _ _ _ _ _ _ _ (fun _ h => h) hrun), hnext _ _ _ _ rfl, rfl, rfl⟩
      | returnValue value st1 => exact ⟨rfl, rfl⟩
  exact refines_put env (fun _ => trivial) hlookup hsim

variable {block : BlockRef}

/-- **A read of a variable to which only a constant is written can be replaced by the constant.** -/
theorem simulates_constant (hf : f.Prepared) (hname : ∀ p ∈ f.parameters, p.name ≠ name)
    (hwrites : OnlyWrites f name c) (hblock : block ∈ f.blockIter)
    (hread : read ∈ (f.block block).statements) (hs : (f.block block).arena read = .readVariable symbol)
    (hsymbol : symbol.name = name) (hkept : ReadKept (f.block block) read c) :
    Simulates env f (f.setBlock block ((f.block block).set read (.constant c))) := by
  refine simulates_of_blocks env (NoneOr name c) hf.valid rfl rfl (fun _ => .inl (bindArguments_eq_none hname)) ?_
  intro b hb call call' hcall locals flags st result hlocals hrun
  have hwf := hf.wellFormed b hb
  refine ⟨?_, fun target locals' flags' st' heq => ?_⟩
  · by_cases hbb : b = block
    · subst hbb
      rw [Function.setBlock_block_self]
      obtain ⟨above, below, hsplit⟩ := append_of_mem hread
      refine interpretBlock_set env hcall hwf hsplit (by simp [Statement.operands])
        (fun _ h => by cases h)
        (fun _ => hkept.typesKept) (fun fr st1 step hreach hexec => ?_) hrun
      -- the read gives the constant, or the run has panicked
      unfold execIn at hexec ⊢
      rw [hs] at hexec
      obtain ⟨v, hv, hstep⟩ := bind_eq_some_iff.mp hexec
      rw [Block.set_arena_self]
      rcases hreach.noneOr env hwf (hwrites b hb) hlocals with hnone | hconst
      · rw [hsymbol, hnone] at hv
        cases hv
      · rw [hsymbol, hconst] at hv
        cases hv
        exact hstep
    · rw [Function.setBlock_block_of_ne f _ hbb]
      exact interpretBlock_refines env hcall hrun
  · subst heq
    obtain ⟨done, fr, hreach, rfl, rfl⟩ := Block.reaches_of_nextBlock env hrun
    exact hreach.noneOr env hwf (hwrites b hb) hlocals

/-- Reads of the first function have become constants in the second. -/
structure ConstantsPut (f₀ f : Function) : Prop where
  parameters : f.parameters = f₀.parameters
  localVariables : f.localVariables = f₀.localVariables
  entryBlock : f.entryBlock = f₀.entryBlock
  blockCount : f.blockCount = f₀.blockCount
  statements : ∀ b, (f.block b).statements = (f₀.block b).statements
  arena : ∀ b r, (f.block b).arena r = (f₀.block b).arena r ∨
    ((∃ symbol, (f₀.block b).arena r = .readVariable symbol) ∧ ∃ c, (f.block b).arena r = .constant c)

variable {f₀ : Function}

theorem ConstantsPut.arena_eq (h : ConstantsPut f₀ f) {s : Statement Ref} (hs : (f.block block).arena r = s)
    (hconst : ∀ c, s ≠ .constant c) : (f₀.block block).arena r = s := by
  rcases h.arena block r with heq | ⟨-, c, hc⟩
  · exact heq ▸ hs
  · exact absurd (hs ▸ hc) (hconst c)

theorem ConstantsPut.sameFlow (h : ConstantsPut f₀ f) : f₀.SameFlow f := by
  refine ⟨h.entryBlock, h.blockCount, fun b => ?_⟩
  rw [Block.targets_eq, Block.targets_eq, h.statements]
  congr 1
  funext r
  rcases h.arena b r with heq | ⟨⟨symbol, hs⟩, c, hc⟩
  · rw [heq]
  · rw [hs, hc]
    rfl

theorem ConstantsPut.trans {f1 f2 : Function} (h : ConstantsPut f₀ f1) (h' : ConstantsPut f1 f2) :
    ConstantsPut f₀ f2 := by
  refine ⟨h'.parameters.trans h.parameters, h'.localVariables.trans h.localVariables,
    h'.entryBlock.trans h.entryBlock, h'.blockCount.trans h.blockCount,
    fun b => (h'.statements b).trans (h.statements b), fun b r => ?_⟩
  rcases h'.arena b r with heq' | ⟨⟨symbol, hs⟩, hc⟩
  · rw [heq']
    exact h.arena b r
  · rcases h.arena b r with heq | ⟨hread, c, hc'⟩
    · exact .inr ⟨⟨symbol, heq ▸ hs⟩, hc⟩
    · rw [hs] at hc'
      cases hc'

theorem ConstantsPut.refl (f : Function) : ConstantsPut f f :=
  ⟨rfl, rfl, rfl, rfl, fun _ => rfl, fun _ _ => .inl rfl⟩

theorem constantsPut_setBlock (c : Constant) (hs : (f.block block).arena read = .readVariable symbol) :
    ConstantsPut f (f.setBlock block ((f.block block).set read (.constant c))) := by
  refine ⟨rfl, rfl, rfl, rfl, fun b => ?_, fun b r => ?_⟩
  · by_cases hb : b = block
    · subst hb
      rw [Function.setBlock_block_self]
      rfl
    · rw [Function.setBlock_block_of_ne f _ hb]
  · by_cases hb : b = block
    · subst hb
      rw [Function.setBlock_block_self]
      by_cases hr : r = read
      · subst hr
        exact .inr ⟨⟨symbol, hs⟩, c, Block.set_arena_self ..⟩
      · exact .inl (Block.set_arena_of_ne _ _ hr)
    · rw [Function.setBlock_block_of_ne f _ hb]
      exact .inl rfl

theorem Function.Prepared.setConstant (hf : f.Prepared) (c : Constant)
    (hread : read ∈ (f.block block).statements) (hs : (f.block block).arena read = .readVariable symbol) :
    (f.setBlock block ((f.block block).set read (.constant c))).Prepared := by
  have hflow := (constantsPut_setBlock c hs).sameFlow
  refine ⟨hflow.refsValid hf.valid, fun b hb => ?_, hf.distinct⟩
  rw [hflow.blockIter] at hb
  by_cases hbb : b = block
  · subst hbb
    rw [Function.setBlock_block_self]
    obtain ⟨above, below, hsplit⟩ := append_of_mem hread
    exact (hf.wellFormed b hb).set hsplit (by simp [Statement.operands])
  · rw [Function.setBlock_block_of_ne f _ hbb]
    exact hf.wellFormed b hb

theorem OnlyWrites.setConstant (h : OnlyWrites f name c)
    (hs : (f.block block).arena read = .readVariable symbol) :
    OnlyWrites (f.setBlock block ((f.block block).set read (.constant c))) name c := by
  have hput := constantsPut_setBlock c hs
  intro b hb r hr symbol' value hwrite hname
  rw [hput.sameFlow.blockIter] at hb
  rw [hput.statements b] at hr
  have hc := constantAt_eq_some (h b hb r hr symbol' value (hput.arena_eq hwrite nofun) hname)
  -- what was a constant has not been replaced
  have hvalue : ((f.setBlock block ((f.block block).set read (.constant c))).block b).arena value =
      .constant c := by
    rcases hput.arena b value with heq | ⟨⟨symbol'', hread⟩, -⟩
    · rw [heq, hc]
    · rw [hc] at hread
      cases hread
  unfold Block.constantAt
  rw [hvalue]

theorem mem_statementsWith {P : Statement Ref → Prop} [DecidablePred P] {b : BlockRef} :
    (r, b) ∈ SymbolUseAnalysis.statementsWith f P ↔
      b ∈ f.blockIter ∧ r ∈ (f.block b).statements ∧ P ((f.block b).arena r) := by
  unfold SymbolUseAnalysis.statementsWith
  rw [mem_flatMap]
  constructor
  · rintro ⟨b', hb', hr⟩
    obtain ⟨r', hr', heq⟩ := mem_map.mp hr
    cases heq
    obtain ⟨h1, h2⟩ := mem_filter.mp hr'
    exact ⟨hb', h1, of_decide_eq_true h2⟩
  · rintro ⟨hb, hr, hP⟩
    exact ⟨b, hb, mem_map.mpr ⟨r, mem_filter.mpr ⟨hr, decide_eq_true hP⟩, rfl⟩⟩

/-- A candidate is a variable to which only that constant is written. -/
theorem candidate_onlyWrites (hput : ConstantsPut f₀ f)
    (h : ConstantPropagation.candidate f₀ f name = some (some c)) : OnlyWrites f name c := by
  unfold ConstantPropagation.candidate at h
  split at h
  · rename_i stmt block hwrites
    split at h
    · rename_i symbol1 value1 hs1
      intro b hb r hr symbol value hs hname
      have hmem : (r, b) ∈ SymbolUseAnalysis.writes f₀ name := by
        refine mem_statementsWith.mpr ⟨?_, ?_, ?_⟩
        · rw [← hput.sameFlow.blockIter]
          exact hb
        · rw [← hput.statements b]
          exact hr
        · rw [hput.arena_eq hs nofun]
          exact hname
      rw [hwrites] at hmem
      cases mem_singleton.mp hmem
      rw [hs1] at hs
      cases hs
      exact some.inj h
    · cases h
  · cases h

/-- The condition at every read that becomes the constant. -/
def ReadsKept (c : Constant) : List (Ref × BlockRef) → Function → Prop :=
  Along (ConstantPropagation.replaceRead c) fun f p => ReadKept (f.block p.2) p.1 c

/-- What holds while constants are put in place of reads of `f₀`. -/
structure PutFrom (f₀ f : Function) : Prop where
  simulates : Simulates env f₀ f
  prepared : f.Prepared
  put : ConstantsPut f₀ f

/-- One read becomes the constant. -/
theorem replaceRead_put {f' : Function} {p : Ref × BlockRef} (hname : ∀ p ∈ f₀.parameters, p.name ≠ name)
    (hp : p ∈ SymbolUseAnalysis.reads f₀ name) (hf : PutFrom env f₀ f) (hwrites : OnlyWrites f name c)
    (hkept : ReadKept (f.block p.2) p.1 c) (h : ConstantPropagation.replaceRead c f p = some (f', changed)) :
    PutFrom env f₀ f' ∧ OnlyWrites f' name c := by
  obtain ⟨read, block⟩ := p
  unfold ConstantPropagation.replaceRead at h
  split at h
  · rename_i symbol hs
    cases h
    obtain ⟨hblock, hread, hreads⟩ := mem_statementsWith.mp hp
    have hput := hf.put
    -- it is still the read that was found
    have hsymbol : symbol.name = name := by
      rw [hput.arena_eq hs nofun] at hreads
      exact hreads
    rw [← hput.sameFlow.blockIter] at hblock
    rw [← hput.statements block] at hread
    have hparams : ∀ p ∈ f.parameters, p.name ≠ name := by
      rw [hput.parameters]
      exact hname
    have hstep := simulates_constant env hf.prepared hparams hwrites hblock hread hs hsymbol hkept
    exact ⟨⟨hf.simulates.trans env hstep, hf.prepared.setConstant c hread hs, hput.trans (constantsPut_setBlock c hs)⟩,
      hwrites.setConstant hs⟩
  · cases h

/-- The condition along the loop over the local variables. -/
def ConstantsKept (f : Function) : Prop :=
  Along (ConstantPropagation.propagateConstant f) (fun f' symbol =>
    ∀ c, ConstantPropagation.candidate f f' symbol.name = some (some c) →
      ReadsKept c (SymbolUseAnalysis.reads f symbol.name) f') f.localVariables f

theorem propagateConstant_put {f' : Function} (hname : ∀ p ∈ f₀.parameters, p.name ≠ symbol.name)
    (hf : PutFrom env f₀ f)
    (hkept : ∀ c, ConstantPropagation.candidate f₀ f symbol.name = some (some c) →
      ReadsKept c (SymbolUseAnalysis.reads f₀ symbol.name) f)
    (h : ConstantPropagation.propagateConstant f₀ f symbol = some (f', changed)) : PutFrom env f₀ f' := by
  unfold ConstantPropagation.propagateConstant at h
  split at h
  · cases h
  · cases h
    exact hf
  · rename_i c hc
    have hinv := (hkept c hc).forEach (d := [])
      (Φ := fun _ rest f1 => rest ⊆ SymbolUseAnalysis.reads f₀ symbol.name ∧ PutFrom env f₀ f1 ∧
        OnlyWrites f1 symbol.name c)
      (fun {done rest p f1 f2 changed} hs hok hstep => by
        obtain ⟨hreads, hf1, hwrites⟩ := hs
        obtain ⟨hp, hrest⟩ := cons_subset.mp hreads
        exact ⟨hrest, replaceRead_put env hname hp hf1 hwrites hok hstep⟩)
      h ⟨Subset.refl _, hf, candidate_onlyWrites hf.put hc⟩
    exact hinv.2.1

theorem propagateConstants_simulates {f' : Function} (hf : f.Prepared) (hkept : ConstantsKept f)
    (h : forEach (ConstantPropagation.propagateConstant f) f.localVariables f = some (f', changed)) :
    Simulates env f f' ∧ f'.Prepared := by
  have hinv := hkept.forEach (d := [])
    (Φ := fun _ rest f1 => rest ⊆ f.localVariables ∧ PutFrom env f f1)
    (fun {done rest symbol f1 f2 changed} hs hok hstep => by
      obtain ⟨hsub, hf1⟩ := hs
      obtain ⟨hsymbol, hrest⟩ := cons_subset.mp hsub
      exact ⟨hrest, propagateConstant_put env (hf.distinct symbol hsymbol) hf1 hok hstep⟩)
    h ⟨Subset.refl _, .refl env f, hf, .refl f⟩
  exact ⟨hinv.2.simulates, hinv.2.prepared⟩

/-! ### Runs of the passes -/

theorem forBlocks_simulates {pass : Block → Option (Block × Bool)} {f' : Function} (hf : f.Prepared)
    (hpass : ∀ b ∈ f.blockIter, ∀ blk changed, pass (f.block b) = some (blk, changed) →
      BlockKeeps env (f.block b) blk) (h : f.forBlocks pass f.blockIter = some (f', changed)) :
    Simulates env f f' ∧ f'.Prepared := by
  have hpassed := Function.forBlocks_spec _ f f' changed f.blockIter_nodup h
  have hkeeps : ∀ b ∈ f.blockIter, BlockKeeps env (f.block b) (f'.block b) := fun b hb => by
    obtain ⟨changed', hblock⟩ := hpassed.passed b hb
    exact hpass b hb _ changed' hblock
  have hflow : f.SameFlow f' := by
    refine ⟨hpassed.entryBlock, hpassed.blockCount, fun b => ?_⟩
    by_cases hb : b ∈ f.blockIter
    · exact (hkeeps b hb).targets
    · rw [hpassed.other b hb]
  refine ⟨simulates_of_blocks env (fun _ => True) hf.valid hpassed.parameters hpassed.entryBlock (fun _ => trivial)
    fun b hb call call' hcall _ _ st result _ hrun => ⟨(hkeeps b hb).sim call call' hcall _ _ st result hrun, by simp⟩,
    hflow.refsValid hf.valid, fun b hb => ?_, ?_⟩
  · rw [hflow.blockIter] at hb
    exact (hkeeps b hb).wellFormed
  · rw [hpassed.localVariables, hpassed.parameters]
    exact hf.distinct

inductive PropagationPass where
  | constantPropagation | variableElimination | localTupleRemoval
  deriving DecidableEq

namespace PropagationPass

def run : PropagationPass → Function → Option (Function × Bool)
  | constantPropagation => ConstantPropagation.run
  | variableElimination => VariableElimination.run
  | localTupleRemoval => LocalTupleRemoval.run

/-- At every replacement in the run of the pass, the types that are asked for are kept. -/
def Kept : PropagationPass → Function → Prop
  | constantPropagation, f => ConstantsKept f ∧
      ∀ f' changed, forEach (ConstantPropagation.propagateConstant f) f.localVariables f = some (f', changed) →
        ∀ b ∈ f'.blockIter, WritesKept (fun _ => true) (f'.block b)
  | variableElimination, f =>
    ∀ b ∈ f.blockIter, WritesKept (SymbolUseAnalysis.isSymbolLocal f) (f.block b)
  | localTupleRemoval, f => ∀ b ∈ f.blockIter, TuplesKept (f.block b)

/-- **One run of a pass.** -/
theorem run_simulates {pass : PropagationPass} {f f' : Function} (hf : f.Prepared) (hkept : pass.Kept f)
    (h : pass.run f = some (f', changed)) : Simulates env f f' ∧ f'.Prepared := by
  cases pass with
  | constantPropagation =>
    obtain ⟨⟨f1, changed1⟩, hconstants, h⟩ := bind_eq_some_iff.mp h
    obtain ⟨⟨f2, changed2⟩, hblocks, h⟩ := bind_eq_some_iff.mp h
    cases h
    obtain ⟨hsim, hf1⟩ := propagateConstants_simulates env hf hkept.1 hconstants
    obtain ⟨hsim', hf'⟩ := forBlocks_simulates env hf1
      (fun b hb _ _ => propagateWrites_keeps env (hf1.wellFormed b hb)
        (hkept.2 f1 changed1 hconstants b hb)) hblocks
    exact ⟨hsim.trans env hsim', hf'⟩
  | variableElimination =>
    exact forBlocks_simulates env hf
      (fun b hb _ _ => propagateWrites_keeps env (hf.wellFormed b hb) (hkept b hb)) h
  | localTupleRemoval =>
    exact forBlocks_simulates env hf
      (fun b hb _ _ => removeTuples_keeps env (hf.wellFormed b hb) (hkept b hb)) h

end PropagationPass

/-- One run of one of the passes that keeps the types that are asked for. -/
def Propagates (f f' : Function) : Prop :=
  ∃ (pass : PropagationPass) (changed : Bool), pass.run f = some (f', changed) ∧ pass.Kept f

/-- **However often the passes run, in any order, as long as they keep the types that are asked for, a call
that returned returns the same and has the same effects.** -/
theorem propagation_refines {f f' : Function} (hf : f.Prepared)
    (hruns : Relation.ReflTransGen Propagates f f') {M : Model} {name : String}
    (hlookup : M.lookup name = some f) (fuel : Nat) :
    Calls.Refines (interpret env M fuel) (interpret env (M.put name f') fuel) := by
  have hboth : Simulates env f f' ∧ f'.Prepared := by
    induction hruns with
    | refl => exact ⟨.refl env f, hf⟩
    | tail _ hstep ih =>
      obtain ⟨pass, changed, hrun, hkept⟩ := hstep
      obtain ⟨hsim, hf'⟩ := pass.run_simulates env ih.2 hkept hrun
      exact ⟨ih.1.trans env hsim, hf'⟩
  exact hboth.1 M name hlookup fuel

/-! ### Functions to which the passes apply -/

/-- In a block without casts no type is asked for. -/
theorem readKept_of_not_asked (h : ∀ exact r, ¬ b.Asked exact r) (read : Ref) (c : Constant) : ReadKept b read c :=
  ⟨fun _ hr => absurd hr (h _ _), fun _ _ hr => absurd hr (h _ _)⟩

/-- A constant is written to a variable. -/
def writeBlock : Block where
  arenaSize := 3
  arena := fun
    | 0 => .constant (.unsignedInteger 8 64)
    | 1 => .writeVariable ⟨"n", .u 64⟩ 0
    | _ => .jump 1
  statements := [0, 1, 2]

/-- What the variable has is returned. -/
def readBlock : Block where
  arenaSize := 2
  arena := fun
    | 0 => .readVariable ⟨"n", .u 64⟩
    | _ => .return_ (some 0)
  statements := [0, 1]

def acrossBlocks : Function :=
  ⟨[], [⟨"n", .u 64⟩], 2, fun b => if b = 0 then writeBlock else readBlock, 0⟩

/-- A width goes through a variable, and the extracted bits are sign extended. -/
def extendedBlock : Block where
  arenaSize := 8
  arena := fun
    | 0 => .constant (.unsignedInteger 8 64)
    | 1 => .writeVariable ⟨"n", .u 64⟩ 0
    | 2 => .readVariable ⟨"n", .u 64⟩
    | 3 => .constant (.signedInteger 255 64)
    | 4 => .constant (.unsignedInteger 0 64)
    | 5 => .bitExtract 3 4 2
    | 6 => .cast .signExtend (.s 64) 5
    | _ => .return_ (some 6)
  statements := [0, 1, 2, 3, 4, 5, 6, 7]

def extendedFunction : Function := ⟨[], [⟨"n", .u 64⟩], 1, fun _ => extendedBlock, 0⟩

theorem acrossBlocks_prepared : acrossBlocks.Prepared := by
  have hiter : acrossBlocks.blockIter = [0, 1] := by decide
  refine ⟨⟨by decide, ?_⟩, fun b hb => ?_, by simp [acrossBlocks]⟩
  · decide
  · rw [hiter] at hb
    simp only [mem_cons, not_mem_nil, or_false] at hb
    rcases hb with rfl | rfl
    · exact Block.wellFormed_of_orderedFrom (b := writeBlock) (by decide) (by decide) (by decide)
    · exact Block.wellFormed_of_orderedFrom (b := readBlock) (by decide) (by decide) (by decide)

theorem readBlock_not_asked (exact : Bool) (r : Ref) : ¬ readBlock.Asked exact r := by
  intro h
  obtain ⟨r, hr, kind, typ, value, hs⟩ := h.exists_cast
  change r ∈ [0, 1] at hr
  simp only [mem_cons, not_mem_nil, or_false] at hr
  rcases hr with rfl | rfl <;> cases hs

/-- No read of the function stands below a write in its block, so only the first phase does
something. -/
theorem acrossBlocks_kept : PropagationPass.constantPropagation.Kept acrossBlocks := by
  have hcandidate : ConstantPropagation.candidate acrossBlocks acrossBlocks "n" =
      some (some (.unsignedInteger 8 64)) := rfl
  refine ⟨?_, fun f' changed h b hb => ?_⟩
  · refine ⟨fun c hc => ?_, fun _ _ _ => trivial⟩
    cases hcandidate.symm.trans hc
    exact ⟨readKept_of_not_asked readBlock_not_asked 0 _, fun _ _ _ => trivial⟩
  · cases h
    change b ∈ [0, 1] at hb
    simp only [mem_cons, not_mem_nil, or_false] at hb
    rcases hb with rfl | rfl
    · refine ⟨nofun, fun _ _ h => ?_⟩
      cases h
      refine ⟨nofun, fun _ _ h => ?_⟩
      cases h
      exact ⟨nofun, fun _ _ _ => trivial⟩
    · refine ⟨nofun, fun _ _ h => ?_⟩
      cases h
      exact ⟨nofun, fun _ _ _ => trivial⟩

/-- The read in the second block becomes the constant. -/
theorem propagation_refines_acrossBlocks : ∃ f', Relation.ReflTransGen Propagates acrossBlocks f' ∧
      (f'.block 1).arena 0 = .constant (.unsignedInteger 8 64) ∧
      (interpret plainEnvironment [("f", acrossBlocks)] 2 "f" [] ⟨fun _ => 0, (), []⟩).isSome ∧
      Calls.Refines (interpret plainEnvironment [("f", acrossBlocks)] 2)
        (interpret plainEnvironment (Model.put [("f", acrossBlocks)] "f" f') 2) := by
  have hrun : ∃ f', PropagationPass.constantPropagation.run acrossBlocks = some (f', true) ∧
      (f'.block 1).arena 0 = .constant (.unsignedInteger 8 64) := ⟨_, rfl, rfl⟩
  obtain ⟨f', hrun, hconstant⟩ := hrun
  have hstep : Propagates acrossBlocks f' := ⟨_, _, hrun, acrossBlocks_kept⟩
  exact ⟨f', .single hstep, hconstant, rfl,
    propagation_refines plainEnvironment acrossBlocks_prepared (.single hstep) rfl 2⟩

/-- After the width has been propagated the extracted byte is known as such, and is extended. -/
theorem not_keeps_extended :
    extendedFunction.Prepared ∧ ∃ f', ConstantPropagation.run extendedFunction = some (f', true) ∧
      (interpret plainEnvironment [("f", extendedFunction)] 1 "f" [] ⟨fun _ => 0, (), []⟩).map Prod.fst =
        some (some (.signedInteger 255 64)) ∧
      (interpret plainEnvironment [("f", f')] 1 "f" [] ⟨fun _ => 0, (), []⟩).map Prod.fst =
        some (some (.signedInteger (-1) 64)) := by
  refine ⟨⟨⟨by decide, by decide⟩, fun b _ => ?_, by simp [extendedFunction]⟩, _, rfl, rfl, rfl⟩
  exact Block.wellFormed_of_orderedFrom (b := extendedBlock) (by decide) (by decide) (by decide)

end Icewind.Rudder
