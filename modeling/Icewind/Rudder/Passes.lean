import Icewind.Rudder.Replacing
import Mathlib.Data.List.Dedup

/-!
# Passes over functions

* `Block.replaceUses` — `replace_use` in all statements of a set of uses.
* `Function.forBlocks` — a pass that goes over the blocks of a function.  `forBlocks_spec` says that
  it visits each of them once.
* `Function.SameFlow` — passes that leave the control flow alone leave `block_iter` alone.
* `refines_put` — a pass that simulates one function refines the model.
-/

namespace Icewind.Rudder

open List Option

/-- `for x in list { changed |= pass(state, x) }`, where `none` is a panic. -/
def forEach {σ α : Type} (pass : σ → α → Option (σ × Bool)) : List α → σ → Option (σ × Bool)
  | [], s => some (s, false)
  | x :: rest, s => do
    let (s, changed) ← pass s x
    let (s, changed') ← forEach pass rest s
    some (s, changed || changed')

theorem forEach_cons {σ α : Type} {pass : σ → α → Option (σ × Bool)} {x : α} {rest : List α} {s s1 s2 : σ}
    {changed changed' : Bool} (hx : pass s x = some (s1, changed)) (hrest : forEach pass rest s1 = some (s2, changed')) :
    forEach pass (x :: rest) s = some (s2, changed || changed') := by
  rw [forEach, hx]
  dsimp only [bind_eq_bind, bind_some]
  rw [hrest]
  rfl

theorem forEach_eq_some {σ α : Type} {pass : σ → α → Option (σ × Bool)} {x : α} {rest : List α} {s s2 : σ}
    {changed : Bool} (h : forEach pass (x :: rest) s = some (s2, changed)) : ∃ s1 changed1 changed2,
      pass s x = some (s1, changed1) ∧ forEach pass rest s1 = some (s2, changed2) ∧ changed = (changed1 || changed2) := by
  rw [forEach] at h
  obtain ⟨⟨s1, changed1⟩, hx, h⟩ := bind_eq_some_iff.mp h
  obtain ⟨⟨s2, changed2⟩, hrest, h⟩ := bind_eq_some_iff.mp h
  cases h
  exact ⟨s1, changed1, changed2, hx, hrest, rfl⟩

/-- The condition holds at every item as the loop comes to it. -/
def Along {σ α : Type} (pass : σ → α → Option (σ × Bool)) (Ok : σ → α → Prop) : List α → σ → Prop
  | [], _ => True
  | x :: rest, s => Ok s x ∧ ∀ s' changed, pass s x = some (s', changed) → Along pass Ok rest s'

/-- **What every step of the loop that meets the condition keeps, the loop keeps**, of the items that are done and those
to come. -/
theorem Along.forEach {σ α : Type} {pass : σ → α → Option (σ × Bool)} {Ok : σ → α → Prop}
    {Φ : List α → List α → σ → Prop}
    (hstep : ∀ {done rest x s s' changed}, Φ done (x :: rest) s → Ok s x → pass s x = some (s', changed) →
      Φ (done ++ [x]) rest s') :
    ∀ {l d : List α} {s s' : σ} {changed : Bool}, Along pass Ok l s →
      Rudder.forEach pass l s = some (s', changed) → Φ d l s → Φ (d ++ l) [] s'
  | [], done, s, s', _, _, h, hs => by
    cases h
    rwa [append_nil]
  | x :: rest, done, s, s', _, hok, h, hs => by
    obtain ⟨s1, changed1, changed2, hx, hrest, -⟩ := forEach_eq_some h
    have := Along.forEach hstep (hok.2 s1 changed1 hx) hrest (hstep hs hok.1 hx)
    rwa [append_assoc] at this

/-! ### Uses -/

namespace Block

/-- `for stmt in block.statements().collect() { changed |= run_on_stmt(stmt, arena) }`. -/
def forStatements (pass : Block → Ref → Option (Block × Bool)) (l : List Ref) (b : Block) : Option (Block × Bool) :=
  forEach pass l b

/-- `build`: a new statement at the end of the block. -/
def build (b : Block) (s : Statement Ref) : Block where
  arenaSize := b.arenaSize + 1
  arena := Function.update b.arena b.arenaSize s
  statements := b.statements ++ [b.arenaSize]

/-- `Block::terminator_statement`. -/
def terminatorStatement (b : Block) : Option Ref := b.statements.getLast?

/-- `StatementUseAnalysis::get_uses`. -/
def usesOf (b : Block) (stmt : Ref) : List Ref :=
  (b.statements.filter fun user => decide (stmt ∈ (b.arena user).operands)).dedup

/-- `replace_use` in each of the statements. -/
def replaceUses (b : Block) (useOf replacement : Ref) : List Ref → Option Block
  | [] => some b
  | user :: users => do
    let s ← (b.arena user).replaceUse useOf replacement
    (b.set user s).replaceUses useOf replacement users

theorem mem_usesOf {b : Block} {stmt user : Ref} (h : user ∈ b.usesOf stmt) : user ∈ b.statements :=
  (mem_filter.mp (mem_dedup.mp h)).1

theorem replaceUses_spec {useOf replacement : Ref} :
    ∀ {users : List Ref} {b b' : Block}, users.Nodup → users ⊆ b.statements →
      b.replaceUses useOf replacement users = some b' →
      b.UsesReplaced b' useOf replacement ∧ ∀ r, r ∉ users → b'.arena r = b.arena r
  | [], b, b', _, _, h => by
    cases h
    exact ⟨⟨rfl, rfl, fun _ => .inl rfl⟩, fun _ _ => rfl⟩
  | user :: users, b, b', hnodup, hsub, h => by
    obtain ⟨s, hs, h⟩ := bind_eq_some_iff.mp h
    obtain ⟨huser, hnodup⟩ := nodup_cons.mp hnodup
    obtain ⟨ih, hother⟩ := replaceUses_spec (b := b.set user s) hnodup
      (fun x hx => hsub (mem_cons_of_mem _ hx)) h
    refine ⟨⟨ih.statements, ih.arenaSize, fun r => ?_⟩, fun r hr => ?_⟩
    · by_cases hr : r = user
      · subst hr
        right
        rw [hother r huser, b.set_arena_self]
        exact ⟨hsub mem_cons_self, hs⟩
      · have := ih.arena r
        rwa [b.set_arena_of_ne s hr] at this
    · rw [hother r fun h => hr (mem_cons_of_mem _ h),
        b.set_arena_of_ne s fun heq : r = user => hr (heq ▸ mem_cons_self)]

end Block

variable (f : Function)

namespace Function

/-! ### Control flow -/

theorem blockIter_nodup : f.blockIter.Nodup := Traversal.visits_nodup

/-- The blocks of the functions go to the same blocks. -/
structure SameFlow (f f' : Function) : Prop where
  entryBlock : f'.entryBlock = f.entryBlock
  blockCount : f'.blockCount = f.blockCount
  targets : ∀ b, (f'.block b).targets = (f.block b).targets

namespace SameFlow

variable {f f' : Function} (h : SameFlow f f')
include h

theorem blockIter : f'.blockIter = f.blockIter := by
  rw [Function.blockIter, Function.blockIter, h.entryBlock, h.blockCount, funext h.targets]

theorem refsValid (hf : f.RefsValid) : f'.RefsValid := by
  refine ⟨?_, fun b hb t ht => ?_⟩
  · rw [h.entryBlock, h.blockCount]
    exact hf.entry
  · rw [h.blockCount] at hb ⊢
    rw [h.targets] at ht
    exact hf.targets b hb t ht

end SameFlow

/-! ### Going over the blocks -/

/-- `for block in f.block_iter().collect() { changed |= run_on_block(f.arena_mut(), block) }`. -/
def forBlocks (pass : Block → Option (Block × Bool)) (l : List BlockRef) (f : Function) : Option (Function × Bool) :=
  forEach (fun f b => (pass (f.block b)).map fun p => (f.setBlock b p.1, p.2)) l f

/-- The blocks of the list have been through the pass, the others are as they were. -/
structure Passed (pass : Block → Option (Block × Bool)) (l : List BlockRef) (f f' : Function) :
    Prop where
  parameters : f'.parameters = f.parameters
  localVariables : f'.localVariables = f.localVariables
  blockCount : f'.blockCount = f.blockCount
  entryBlock : f'.entryBlock = f.entryBlock
  passed : ∀ b ∈ l, ∃ changed, pass (f.block b) = some (f'.block b, changed)
  other : ∀ b, b ∉ l → f'.block b = f.block b

theorem forBlocks_spec {pass : Block → Option (Block × Bool)} :
    ∀ (l : List BlockRef) (f f' : Function) (changed : Bool), l.Nodup →
      forBlocks pass l f = some (f', changed) → Passed pass l f f'
  | [], f, f', changed, _, h => by
    cases h
    exact ⟨rfl, rfl, rfl, rfl, fun b hb => by simp at hb, fun _ _ => rfl⟩
  | b :: rest, f, f', changed, hnodup, h => by
    obtain ⟨f1, changed1, changed2, hb, hrest, -⟩ := forEach_eq_some h
    obtain ⟨⟨blk, changed1⟩, hblk, heq⟩ := map_eq_some_iff.mp hb
    cases heq
    obtain ⟨hb, hnodup⟩ := nodup_cons.mp hnodup
    have ih := forBlocks_spec rest (f.setBlock b blk) f' changed2 hnodup hrest
    refine ⟨ih.parameters, ih.localVariables, ih.blockCount, ih.entryBlock, fun b' hb' => ?_,
      fun b' hb' => ?_⟩
    · by_cases hne : b' = b
      · subst hne
        refine ⟨changed1, ?_⟩
        rw [ih.other b' hb, setBlock_block_self]
        exact hblk
      · have := ih.passed b' ((mem_cons.mp hb').resolve_left hne)
        rwa [setBlock_block_of_ne f blk hne] at this
    · have hne : b' ≠ b := fun h => hb' (h ▸ mem_cons_self)
      rw [ih.other b' fun h => hb' (mem_cons_of_mem _ h), setBlock_block_of_ne f blk hne]

end Function

/-! ### Models -/

variable {M : Model}

namespace Model

/-- The model with another function under the name. -/
def put (M : Model) (name : String) (f : Function) : Model :=
  M.map fun p => if p.1 = name then (p.1, f) else p

variable {name other : String}

theorem lookup_put_of_ne (h : other ≠ name) : (M.put name f).lookup other = M.lookup other := by
  induction M with
  | nil => rfl
  | cons p M ih =>
    obtain ⟨n, g⟩ := p
    unfold put at ih ⊢
    rw [map_cons]
    dsimp only
    split
    · rename_i hn
      have : (other == n) = false := by simpa [hn] using h
      rw [lookup_cons, lookup_cons, this]
      exact ih
    · rw [lookup_cons, lookup_cons, ih]

theorem lookup_put_self {name : String} {f0 : Function} (h : M.lookup name = some f0) :
    (M.put name f).lookup name = some f := by
  induction M with
  | nil => cases h
  | cons p M ih =>
    obtain ⟨n, g⟩ := p
    unfold put at ih ⊢
    rw [map_cons]
    split
    · rename_i hn
      subst hn
      simp
    · rename_i hn
      have : (name == n) = false := by simpa using Ne.symm hn
      rw [lookup_cons, this] at h
      rw [lookup_cons, this]
      exact ih h

/-- A function of the new model is the new one or one of the others. -/
theorem lookup_put_cases {f f0 g : Function} (hf : M.lookup name = some f0)
    (h : (M.put name f).lookup other = some g) :
    (other = name ∧ g = f) ∨ (other ≠ name ∧ M.lookup other = some g) := by
  by_cases hne : other = name
  · subst hne
    rw [lookup_put_self f hf] at h
    exact .inl ⟨rfl, (some.inj h).symm⟩
  · rw [lookup_put_of_ne f hne] at h
    exact .inr ⟨hne, h⟩

end Model

variable {μ : Type} (env : Environment μ)

theorem Calls.Refines.trans {call1 call2 call3 : Calls μ} (h : Calls.Refines call1 call2)
    (h' : Calls.Refines call2 call3) : Calls.Refines call1 call3 :=
  fun name arguments st r hr => h' name arguments st r (h name arguments st r hr)

theorem interpretBlock_refines {call call' : Calls μ} (h : Calls.Refines call call') {b : Block}
    {locals : Locals} {flags : Nat} {st : State μ} {result : BlockResult μ}
    (hblock : interpretBlock env call b locals flags st = some result) :
    interpretBlock env call' b locals flags st = some result :=
  (interpretStatements_congr env (fun _ _ _ => True)
    (fun _ _ _ _ _ _ _ _ hexec => ⟨execIn_refines env h hexec, fun _ _ _ _ _ => trivial⟩)
    b.statements [] _ _ _ rfl trivial hblock).1

theorem FunctionSim.refl (P : Calls μ → Prop) (f : Function) :
    FunctionSim env P f f fun _ locals flags locals' flags' => locals' = locals ∧ flags' = flags where
  entryBlock := rfl
  entry _ := ⟨rfl, rfl⟩
  block := by
    rintro call call' - h b locals flags _ _ st result ⟨rfl, rfl⟩ hblock
    refine ⟨result, interpretBlock_refines env h hblock, ?_⟩
    cases result with
    | nextBlock target locals flags st => exact ⟨rfl, rfl, rfl, rfl⟩
    | returnValue value st => exact ⟨rfl, rfl⟩

/-- **Simulation of one function is refinement of the model.** -/
theorem refines_put {P : Calls μ → Prop} (hP : ∀ fuel, P (interpret env M fuel)) {name : String}
    {f f' : Function} (hf : M.lookup name = some f) {R : BlockRef → Locals → Nat → Locals → Nat → Prop}
    (hsim : FunctionSim env P f f' R) :
    ∀ fuel, Calls.Refines (interpret env M fuel) (interpret env (M.put name f') fuel) := by
  refine interpret_refines env hP fun other g hg => ?_
  by_cases hne : other = name
  · subst hne
    obtain rfl : f = g := some.inj (hf.symm.trans hg)
    exact ⟨f', R, Model.lookup_put_self f' hf, hsim⟩
  · exact ⟨g, _, (Model.lookup_put_of_ne f' hne).trans hg, FunctionSim.refl env P g⟩

end Icewind.Rudder
