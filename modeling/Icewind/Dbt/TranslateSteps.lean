import Icewind.Dbt.Translate

/-!
# What a step of the translation can do

* `Quiet` — a step that concerns variables only.
* `StatementStep` — what the translation of a statement can do to the translator.
  `translateStatement_step` says that this is all.
* `LoopStep` — what the loop over the queue can do with an entry; `translateBlocks_step` says that it
  takes such steps.
-/

namespace Icewind.Dbt

open Rudder FunctionTranslator Option FunctionTranslator

variable {ν : Type}

/-- Only variables have changed. -/
structure Quiet (t t' : FunctionTranslator ν) : Prop where
  id : t'.id = t.id
  dynamicBlocks : t'.dynamicBlocks = t.dynamicBlocks
  cachedRegisters : t'.cachedRegisters = t.cachedRegisters
  emission : ∃ n, t'.emission = { t.emission with variableCount := n }

theorem Quiet.refl (t : FunctionTranslator ν) : Quiet t t := ⟨rfl, rfl, rfl, _, rfl⟩

theorem Quiet.trans {t1 t2 t3 : FunctionTranslator ν} (h : Quiet t1 t2) (h' : Quiet t2 t3) : Quiet t1 t3 := by
  obtain ⟨n, hn⟩ := h.emission
  obtain ⟨n', hn'⟩ := h'.emission
  refine ⟨h'.id.trans h.id, h'.dynamicBlocks.trans h.dynamicBlocks, h'.cachedRegisters.trans h.cachedRegisters, n', ?_⟩
  rw [hn', hn]

variable {isDynamic : Bool}

section

variable (c : Context ν)

theorem quiet_allocateVariableId (t : FunctionTranslator ν) : Quiet t t.allocateVariableId.2 :=
  ⟨rfl, rfl, rfl, _, rfl⟩

theorem quiet_writeVariable (t : FunctionTranslator ν) (v : Variable ν) (value : ν) :
    Quiet t (t.writeVariable c v value).2 := by
  unfold writeVariable
  split
  · exact .refl t
  · exact ⟨rfl, rfl, rfl, _, rfl⟩
  · exact .refl t

variable {t t' : FunctionTranslator ν} {symbol : Symbol} {v v' : Variable ν}

theorem quiet_promote (h : t.promote symbol v = some (v', t')) : Quiet t t' := by
  cases v with
  | stack typ id =>
    cases h
    exact .refl t
  | virtual value =>
    obtain ⟨typ, -, h⟩ := bind_eq_some_iff.mp h
    split at h
    · cases h
      exact .refl t
    · cases h
      exact ⟨rfl, rfl, rfl, _, rfl⟩

theorem quiet_place (h : t.place isDynamic symbol v = some (v', t')) : Quiet t t' := by
  unfold place at h
  split at h
  · exact quiet_promote h
  · cases h
    exact .refl t

theorem quiet_promoteReturn : ∀ {l : List (Variable ν × Typ)} {t t' : FunctionTranslator ν}
    {vs : List (Variable ν)}, promoteReturn l t = some (vs, t') → Quiet t t' := by
  intro l
  induction l with
  | nil =>
    intro t t' vs h
    cases h
    exact .refl t
  | cons p rest ih =>
    intro t t' vs h
    obtain ⟨v, typ⟩ := p
    cases v with
    | stack typ' id => cases h
    | virtual value =>
      cases value with
      | none => cases h
      | some value =>
        obtain ⟨typ', ⟨vs', t''⟩, -, hrest, heq⟩ := bind₂_eq_some h
        cases heq
        exact (quiet_allocateVariableId t).trans (ih hrest)

theorem quiet_writeAll : ∀ (vs : List (Variable ν)) (values : List ν) (t : FunctionTranslator ν),
    Quiet t (writeAll c vs values t).2 := by
  intro vs
  induction vs with
  | nil => exact fun _ t => .refl t
  | cons v vs ih =>
    intro values t
    cases values with
    | nil => exact .refl t
    | cons value values => exact (quiet_writeVariable c t v value).trans (ih values _)

theorem quiet_prepareReturn (h : t.prepareReturn c = some t') : Quiet t t' := by
  unfold prepareReturn at h
  split at h
  · cases h
  · split at h
    · split at h
      · obtain ⟨⟨vs, t2⟩, hreturn, rfl⟩ := map_eq_some_iff.mp h
        have h2 := quiet_promoteReturn hreturn
        exact ⟨h2.id, h2.dynamicBlocks, h2.cachedRegisters, h2.emission⟩
      · cases h
        exact ⟨rfl, rfl, rfl, _, rfl⟩
    · split at h
      · cases h
      · cases h
        exact .refl t

theorem quiet_writeReturnValue {value : ν} (h : t.writeReturnValue c value = some t') : Quiet t t' := by
  obtain ⟨t1, hprepare, rfl⟩ := map_eq_some_iff.mp h
  have hall := quiet_writeAll c t1.returnVariables ((c.tupleElements value).getD [value]) t1
  exact (quiet_prepareReturn c hprepare).trans ⟨hall.id, hall.dynamicBlocks, hall.cachedRegisters, hall.emission⟩

end

/-! ### Statements -/

variable {result : StatementResult ν}

section

variable [DecidableEq ν] (c : Context ν) (call : CallTranslator ν)

/-- What the translation of a statement can do. -/
inductive StatementStep (vars : VariableStore ν) (t : FunctionTranslator ν) :
    StatementResult ν → FunctionTranslator ν → Prop where
  | quiet {t' : FunctionTranslator ν} (value : Option ν) : Quiet t t' → StatementStep vars t (.data value) t'
  | registerFile {name : String} (value : Nat) : c.cache name = .readWrite →
      StatementStep vars t (.data none) (t.writeRegisterFile c name value)
  | read {name : String} {offset : Nat} {typ : EmitType} {node : ν} :
      c.registerByOffset offset = some name → c.cache name = .read →
      readNode c (t.cachedRegisters offset) (t.emission.registers name offset) typ = some node →
      StatementStep vars t (.data (some node))
        { t with emission := t.emission.access (.read (t.site name offset) typ node) }
  | write {name : String} {offset : Nat} (node : ν) : c.registerByOffset offset = some name → c.cache name = .read →
      StatementStep vars t (.data none)
        { t with
          cachedRegisters := Function.update t.cachedRegisters offset (some node)
          emission := t.emission.access (.write (t.site name offset) node) }
  | call {target : String} {args : List ν} {value : Option ν} {em : Emission ν} :
      call target args t.emission = some (value, em) →
      StatementStep vars t (.data value) { t with emission := em }
  | jump (target : BlockRef) : StatementStep vars t (.controlFlow (t.jumpTo target vars).1) (t.jumpTo target vars).2
  | branch (trueTarget falseTarget : BlockRef) :
      StatementStep vars t (.controlFlow (t.branchTo trueTarget falseTarget vars).1)
        (t.branchTo trueTarget falseTarget vars).2
  | return_ {t' : FunctionTranslator ν} : Quiet t t' → StatementStep vars t (.controlFlow .return_) t'
  | panic : StatementStep vars t (.controlFlow .panic) (t.writeRegisterFile c "have_exception" 0)

variable {c call} {isDynamic : Bool} {vars vars' : VariableStore ν} {t t' : FunctionTranslator ν}

theorem readRegister_step {offset : Nat} {typ : Typ} {node : ν} (h : t.readRegister c offset typ = some (node, t')) :
    StatementStep c call vars t (.data (some node)) t' := by
  obtain ⟨name, et, hname, -, h⟩ := bind₂_eq_some h
  split at h
  · cases h
    exact .quiet _ (.refl t)
  · obtain ⟨node', hnode, h⟩ := bind_eq_some_iff.mp h
    split at h
    · rename_i hread
      cases h
      exact .read hname hread hnode
    · cases h
      exact .quiet _ (.refl t)

theorem writeRegister_step {offset : Nat} {value : ν} (h : t.writeRegister c offset value = some t') :
    StatementStep c call vars t (.data none) t' := by
  obtain ⟨name, hname, h⟩ := bind_eq_some_iff.mp h
  split at h
  · cases h
  · split at h
    · cases h
    · rename_i hcache
      obtain ⟨v, -, rfl⟩ := map_eq_some_iff.mp h
      exact .registerFile v hcache
    · rename_i hcache
      cases h
      exact .write value hname hcache
    · cases h
      exact .quiet _ (.refl t)

/-- **The translation of a statement is one of these steps.** -/
theorem translateStatement_step {s : Statement (Option ν)}
    (h : translateStatement c call isDynamic vars t s = some (result, vars', t')) :
    StatementStep c call vars t result t' := by
  unfold translateStatement at h
  split at h
  · obtain ⟨v, value, -, -, h⟩ := bind₂_eq_some h
    cases h
    exact .quiet _ (.refl t)
  · obtain ⟨⟨v, t1⟩, hplace, h⟩ := bind_eq_some_iff.mp h
    obtain ⟨value, -, h⟩ := bind_eq_some_iff.mp h
    cases h
    exact .quiet _ ((quiet_place hplace).trans (quiet_writeVariable c t1 v value))
  · obtain ⟨offset, ⟨value, t1⟩, -, hread, h⟩ := bind₂_eq_some h
    cases h
    exact readRegister_step hread
  · obtain ⟨offset, value, -, -, h⟩ := bind₂_eq_some h
    obtain ⟨t1, hwrite, h⟩ := bind_eq_some_iff.mp h
    cases h
    exact writeRegister_step hwrite
  · obtain ⟨args, -, h⟩ := bind_eq_some_iff.mp h
    split at h
    · cases h
      exact .quiet _ (.refl t)
    · obtain ⟨⟨value, em⟩, hcall, h⟩ := bind_eq_some_iff.mp h
      cases h
      exact .call hcall
  · cases h
    exact .jump _
  · obtain ⟨condition, -, h⟩ := bind_eq_some_iff.mp h
    dsimp only at h
    split at h
    · cases h
      exact .jump _
    · cases h
      exact .jump _
    · cases h
      exact .branch _ _
  · cases h
    exact .return_ (.refl t)
  · obtain ⟨value, t1, -, hreturn, h⟩ := bind₂_eq_some h
    cases h
    exact .return_ (quiet_writeReturnValue c hreturn)
  · cases h
    exact .panic
  · obtain ⟨value, -, heq⟩ := map_eq_some_iff.mp h
    cases heq
    exact .quiet _ (.refl t)

end

/-! ### Branches -/

variable [DecidableEq ν]

theorem dynamicBlock_emission (t : FunctionTranslator ν) (target : BlockRef) (vars : VariableStore ν) :
    (t.dynamicBlock target vars).2.id = t.id ∧ (t.dynamicBlock target vars).2.cachedRegisters = t.cachedRegisters ∧
      ∃ n, t.emission.blockCount ≤ n ∧
        (t.dynamicBlock target vars).2.emission = { t.emission with blockCount := n } := by
  unfold dynamicBlock
  split
  · exact ⟨rfl, rfl, _, Nat.le_refl _, rfl⟩
  · exact ⟨rfl, rfl, _, Nat.le_succ _, rfl⟩

/-! ### The loop -/

/-- How the loop over the queue goes on after a block. -/
inductive Continues (exit : Nat) (queue : List (Work ν)) (t : FunctionTranslator ν) :
    ControlFlow ν → List (Work ν) → FunctionTranslator ν → Prop where
  | jump (rudder : BlockRef) (x86 : Nat) (vars : VariableStore ν) :
      Continues exit queue t (.jump rudder x86 vars) (⟨false, rudder, x86, vars⟩ :: queue) t
  | branch {trueTarget falseTarget : BlockRef} {vars : VariableStore ν} {trueX86 falseX86 : Nat} :
      t.dynamicBlocks.lookup (trueTarget, vars) = some trueX86 →
      t.dynamicBlocks.lookup (falseTarget, vars) = some falseX86 →
      Continues exit queue t (.branch trueTarget falseTarget vars)
        (queue ++ [⟨true, trueTarget, trueX86, vars⟩, ⟨true, falseTarget, falseX86, vars⟩]) t
  | return_ : Continues exit queue t .return_ queue (t.leaveTo exit)
  | panic : Continues exit queue t .panic queue (t.leaveTo panicBlock)

/-- What the loop can do with the first entry of the queue. -/
inductive LoopStep (c : Context ν) (call : CallTranslator ν) (f : Function) (exit : Nat) (work : Work ν)
    (queue : List (Work ν)) (t : FunctionTranslator ν) :
    List (Work ν) → FunctionTranslator ν → Prop where
  | visited : LoopStep c call f exit work queue t queue t
  | block {flow : ControlFlow ν} {t₁ t' : FunctionTranslator ν} {queue' : List (Work ν)} :
      (work.dynamic = true → (t.emission.blocks work.x86).targets = []) →
      translateStatements c call work.dynamic (f.block work.rudder) (f.block work.rudder).statements
        (fun _ => none) work.vars (t.enter work.x86) = some (flow, t₁) →
      Continues exit queue t₁ flow queue' t' →
      LoopStep c call f exit work queue t queue' t'

variable {c : Context ν} {call : CallTranslator ν} {t : FunctionTranslator ν} {f : Function} {work : Work ν}

/-- **The loop takes one of these steps and goes on.** -/
theorem translateBlocks_step {exit fuel : Nat} {queue : List (Work ν)} {t'' : FunctionTranslator ν}
    (h : translateBlocks c call f exit (fuel + 1) (work :: queue) t = some t'') :
    ∃ queue' t', LoopStep c call f exit work queue t queue' t' ∧
      translateBlocks c call f exit fuel queue' t' = some t'' := by
  rw [translateBlocks] at h
  split at h
  · cases h
  · split at h
    · exact ⟨queue, t, .visited, h⟩
    · rename_i hvisited
      have htargets : work.dynamic = true → (t.emission.blocks work.x86).targets = [] := by
        simpa using hvisited
      obtain ⟨⟨flow, t1⟩, hstatements, h⟩ := bind_eq_some_iff.mp h
      dsimp only at h
      split at h
      · exact ⟨_, _, .block htargets hstatements (.jump _ _ _), h⟩
      · obtain ⟨trueX86, falseX86, htrue, hfalse, h⟩ := bind₂_eq_some h
        exact ⟨_, _, .block htargets hstatements (.branch htrue hfalse), h⟩
      · exact ⟨_, _, .block htargets hstatements .return_, h⟩
      · exact ⟨_, _, .block htargets hstatements .panic, h⟩

end Icewind.Dbt
