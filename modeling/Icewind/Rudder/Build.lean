import Icewind.Rudder.Passes
import Icewind.Boom.ControlFlow

/-!
# Building Rudder functions from BOOM

Model of `borealis/src/rudder/build.rs`: `FunctionBuildContext` and the block structure of `BlockBuildContext`.

* `Lowering` — how values, writes of expressions and builtin functions are built.  They append statements to the
  block that is being built, and see the function for its variables.
* `buildStatement`, `buildTerminator`, `buildBlock`, `resolveBlock`, `buildFn` — the builder.  Running out of fuel
  is a failure of its own, different from a panic.
* `Appends`, `Emits` — what building a statement changes: `buildStatements_spec`.
* `Lowering.Total` — a lowering that never panics, with which every statement is built: `buildStatement_total`.
-/

namespace Icewind.Rudder.Build

open List

open Boom (BlockId)

/-- How building can fail. -/
inductive Failure where
  | panic
  | fuel
  deriving DecidableEq

def orPanic {α : Type} : Option α → Except Failure α
  | some a => .ok a
  | none => .error .panic

/-! ### Lowering -/

/-- A statement that does not leave the block for another or return. -/
def Plain : Statement Ref → Prop
  | .jump _ | .branch _ _ _ | .return_ _ => False
  | _ => True

/-- The block with some plain statements appended. -/
structure Appends (b b' : Block) (new : List Ref) : Prop where
  statements : b'.statements = b.statements ++ new
  size : b.arenaSize ≤ b'.arenaSize
  arena : ∀ x < b.arenaSize, b'.arena x = b.arena x
  plain : ∀ x ∈ new, Plain (b'.arena x)
  bounded : ∀ x ∈ new, x < b'.arenaSize

/-- `build_value`, `build_expression_write` and `build_specialized_function`, with the tables they look into;
`none` is a panic. -/
structure Lowering where
  resolveType : Boom.Ty → Option Typ
  functions : String → Option (Option Typ)
  value : Boom.Value → Function → Block → Option (Ref × Block)
  expressionWrite : Boom.Expression → Ref → Function → Block → Option (Unit × Block)
  specializedFunction : String → List Ref → Option Boom.Expression → Function → Block → Option (Option Ref × Block)
  value_appends : ∀ {v f b r b'}, value v f b = some (r, b') → ∃ new, Appends b b' new
  expressionWrite_appends : ∀ {e r f b u b'}, expressionWrite e r f b = some (u, b') → ∃ new, Appends b b' new
  specializedFunction_appends : ∀ {name args e f b r b'}, specializedFunction name args e f b = some (r, b') →
    ∃ new, Appends b b' new

/-- `cast` to a primitive type. -/
def castTo (destination : PrimitiveType) (source : Ref) (b : Block) : Option (Ref × Block) :=
  let cast kind := some (b.arenaSize, b.build (.cast kind (.primitive destination) source))
  match b.typ source with
  | some (.primitive p) =>
    if p = destination then some (source, b)
    else if destination.width < p.width then cast .truncate
    else if p.width < destination.width then
      match p with
      | .unsignedInteger _ => cast .zeroExtend
      | .signedInteger _ | .floatingPoint _ => cast .signExtend
    else cast .reinterpret
  | some .int =>
    match destination with
    | .signedInteger width | .unsignedInteger width => if width = 64 then cast .reinterpret else cast .truncate
    | .floatingPoint _ => none
  | some .bits => cast .reinterpret
  | _ => none

/-! ### The builder -/

/-- `FunctionBuildContext`. -/
structure Context where
  rudderFn : Function
  blocks : BlockId → Option BlockRef

def emptyBlock : Block := ⟨0, fun _ => .readPc, []⟩

namespace Context

/-- `BlockBuildContext::new`, and the insertion of the empty block at the start of `build_block`. -/
def newBlock (c : Context) (id : BlockId) : Context where
  rudderFn := { c.rudderFn with
    blockCount := c.rudderFn.blockCount + 1
    block := Function.update c.rudderFn.block c.rudderFn.blockCount emptyBlock }
  blocks := Function.update c.blocks id (some c.rudderFn.blockCount)

def addLocalVariable (c : Context) (symbol : Symbol) : Context :=
  { c with rudderFn := { c.rudderFn with
    localVariables := symbol :: c.rudderFn.localVariables.filter fun s => s.name ≠ symbol.name } }

/-- Something that changes the block only. -/
def inBlock {α : Type} (c : Context) (block : BlockRef) (op : Function → Block → Option (α × Block)) :
    Except Failure (α × Context) :=
  match op c.rudderFn (c.rudderFn.block block) with
  | none => .error .panic
  | some (a, b) => .ok (a, { c with rudderFn := c.rudderFn.setBlock block b })

/-- `build(self.block, self.block_arena_mut(), statement)`. -/
def build (c : Context) (block : BlockRef) (s : Statement Ref) : Context :=
  { c with rudderFn := c.rudderFn.setBlock block ((c.rudderFn.block block).build s) }

/-- The reference that `build` returns. -/
def next (c : Context) (block : BlockRef) : Ref := (c.rudderFn.block block).arenaSize

end Context

section Builder

variable (L : Lowering) (block : BlockRef)

def buildValues : List Boom.Value → Context → Except Failure (List Ref × Context)
  | [], c => .ok ([], c)
  | v :: vs, c => do
    let (r, c) ← c.inBlock block (L.value v)
    let (rs, c) ← buildValues vs c
    .ok (r :: rs, c)

/-- The writes of the fields of a tuple. -/
def buildTupleWrites (source : Ref) : List Boom.Expression → Nat → Context → Except Failure Context
  | [], _, c => .ok c
  | e :: es, index, c => do
    let tupleField := c.next block
    let (_, c) ← (c.build block (.tupleAccess index source)).inBlock block (L.expressionWrite e tupleField)
    buildTupleWrites source es (index + 1) c

/-- The call itself, unless it is a builtin. -/
def buildCall (name : String) (args : List Ref) : Option Ref → Context → Except Failure (Ref × Context)
  | some r, c => .ok (r, c)
  | none, c => do
    let returnType ← orPanic (L.functions name)
    .ok (c.next block, c.build block (.call name args returnType))

/-- The write of what is returned. -/
def buildResult (fnStatement : Ref) : Option Boom.Expression → Context → Except Failure Context
  | none, c => .ok c
  | some (.tuple es), c => buildTupleWrites L block fnStatement es 0 c
  | some e, c => do
    let (_, c) ← c.inBlock block (L.expressionWrite e fnStatement)
    .ok c

def buildFunctionCall (expression : Option Boom.Expression) (name : String) (arguments : List Boom.Value)
    (c : Context) : Except Failure Context := do
  let (args, c) ← buildValues L block arguments c
  let (specialized, c) ← c.inBlock block (L.specializedFunction name args expression)
  let (fnStatement, c) ← buildCall L block name args specialized c
  buildResult L block fnStatement expression c

def buildStatement (s : Boom.Statement) (c : Context) : Except Failure Context :=
  match s with
  | .variableDeclaration name typ => do
    let typ ← orPanic (L.resolveType typ)
    .ok (c.addLocalVariable ⟨name, typ⟩)
  | .copy expression value => do
    let (source, c) ← c.inBlock block (L.value value)
    let (_, c) ← c.inBlock block (L.expressionWrite expression source)
    .ok c
  | .functionCall expression name arguments => buildFunctionCall L block expression name arguments c
  | .label _ | .goto _ | .jump _ _ | .end_ _ | .undefined | .if_ _ _ _ => .error .panic
  | .comment _ => .ok c
  | .exit msg => do
    let (value, c) ← c.inBlock block (L.value (.literal (.string msg)))
    .ok (c.build block (.panic value))
  | .panic value => do
    let (value, c) ← c.inBlock block (L.value value)
    .ok (c.build block (.panic value))

def buildStatements : List Boom.Statement → Context → Except Failure Context
  | [], c => .ok c
  | s :: ss, c => do
    let c ← buildStatement L block s c
    buildStatements ss c

/-- The last statement of the block.  The targets are resolved before it is built. -/
def buildTerminator (resolve : BlockId → Context → Except Failure (BlockRef × Context)) :
    Boom.Terminator → Context → Except Failure (Statement Ref × Context)
  | .ret none, c => .ok (.return_ none, c)
  | .ret (some value), c => do
    let (value, c) ← c.inBlock block (L.value value)
    .ok (.return_ (some value), c)
  | .conditional condition target fallthrough, c => do
    let (condition, c) ← c.inBlock block (L.value condition)
    let (condition, c) ← c.inBlock block fun _ => castTo (.unsignedInteger 1) condition
    let (trueTarget, c) ← resolve target c
    let (falseTarget, c) ← resolve fallthrough c
    .ok (.branch condition trueTarget falseTarget, c)
  | .unconditional target, c => do
    let (target, c) ← resolve target c
    .ok (.jump target, c)
  | .panic value, c => do
    let (value, c) ← c.inBlock block (L.value value)
    .ok (.panic value, c)

end Builder

def buildBlock (L : Lowering) (resolve : BlockId → Context → Except Failure (BlockRef × Context)) (boomBlock : Boom.Block)
    (id : BlockId) (c : Context) : Except Failure (BlockRef × Context) := do
  let block := c.rudderFn.blockCount
  let c ← buildStatements L block boomBlock.statements (c.newBlock id)
  let (kind, c) ← buildTerminator L block resolve boomBlock.terminator c
  .ok (block, c.build block kind)

def resolveBlock (L : Lowering) (h : Boom.Heap) : Nat → BlockId → Context → Except Failure (BlockRef × Context)
  | 0, _, _ => .error .fuel
  | fuel + 1, id, c =>
    match c.blocks id with
    | some block => .ok (block, c)
    | none => buildBlock L (resolveBlock L h fuel) (h.block id) id c

def buildFn (L : Lowering) (h : Boom.Heap) (fuel : Nat) (entry : BlockId) (f : Function) : Except Failure Function := do
  let (block, c) ← resolveBlock L h fuel entry ⟨f, fun _ => none⟩
  .ok { c.rudderFn with entryBlock := block }

/-! ### What building a statement changes -/

variable {α β : Type}

theorem bind_eq_ok {x : Except Failure α} {g : α → Except Failure β} {b : β} (h : (x >>= g) = .ok b) :
    ∃ a, x = .ok a ∧ g a = .ok b := by
  cases x with
  | ok a => exact ⟨a, rfl, h⟩
  | error e => cases h

theorem bind_eq_error {x : Except Failure α} {g : α → Except Failure β} {e : Failure}
    (h : (x >>= g) = .error e) : x = .error e ∨ ∃ a, x = .ok a ∧ g a = .error e := by
  cases x with
  | ok a => exact .inr ⟨a, rfl, h⟩
  | error e' =>
    cases h
    exact .inl rfl

theorem bind_ne_fuel {x : Except Failure α} {g : α → Except Failure β} (hx : x ≠ .error .fuel)
    (hg : ∀ a, g a ≠ .error .fuel) : (x >>= g) ≠ .error .fuel := by
  intro h
  rcases bind_eq_error h with h | ⟨a, -, h⟩
  · exact hx h
  · exact hg a h

variable {new new' : List Ref} {s : Statement Ref}

namespace Appends

theorem refl (b : Block) : Appends b b [] :=
  ⟨(append_nil _).symm, Nat.le_refl _, fun _ _ => rfl, fun _ h => absurd h not_mem_nil, fun _ h => absurd h not_mem_nil⟩

theorem trans {b1 b2 b3 : Block} (h : Appends b1 b2 new) (h' : Appends b2 b3 new') : Appends b1 b3 (new ++ new') := by
  refine ⟨?_, Nat.le_trans h.size h'.size, fun x hx => ?_, fun x hx => ?_, fun x hx => ?_⟩
  · rw [h'.statements, h.statements, append_assoc]
  · rw [h'.arena x (Nat.lt_of_lt_of_le hx h.size), h.arena x hx]
  · rcases mem_append.mp hx with hx | hx
    · rw [h'.arena x (h.bounded x hx)]
      exact h.plain x hx
    · exact h'.plain x hx
  · rcases mem_append.mp hx with hx | hx
    · exact Nat.lt_of_lt_of_le (h.bounded x hx) h'.size
    · exact h'.bounded x hx

theorem build (b : Block) (hs : Plain s) : Appends b (b.build s) [b.arenaSize] := by
  refine ⟨rfl, Nat.le_succ _, fun x hx => Function.update_of_ne (Nat.ne_of_lt hx) _ _, fun x hx => ?_, fun x hx => ?_⟩
  · rw [mem_singleton.mp hx]
    change Plain (Function.update b.arena b.arenaSize s b.arenaSize)
    rw [Function.update_self]
    exact hs
  · rw [mem_singleton.mp hx]
    exact Nat.lt_succ_self _

end Appends

variable {source : Ref}

theorem castTo_appends {destination : PrimitiveType} {b b' : Block} {r : Ref}
    (h : castTo destination source b = some (r, b')) : ∃ new, Appends b b' new := by
  have hcast : ∀ {kind}, some (b.arenaSize, b.build (.cast kind (.primitive destination) source)) = some (r, b') →
      ∃ new, Appends b b' new := by
    intro kind h
    cases h
    exact ⟨_, .build b trivial⟩
  unfold castTo at h
  split at h
  · split at h
    · cases h
      exact ⟨[], .refl b⟩
    · split at h
      · exact hcast h
      · split at h
        · split at h <;> exact hcast h
        · exact hcast h
  · split at h
    · split at h <;> exact hcast h
    · split at h <;> exact hcast h
    · cases h
  · exact hcast h
  · cases h

/-- Only the block has changed, and it has got more statements. -/
structure Emits (block : BlockRef) (c c' : Context) (new : List Ref) : Prop where
  blocks : c'.blocks = c.blocks
  blockCount : c'.rudderFn.blockCount = c.rudderFn.blockCount
  other : ∀ x, x ≠ block → c'.rudderFn.block x = c.rudderFn.block x
  appends : Appends (c.rudderFn.block block) (c'.rudderFn.block block) new

namespace Emits

variable {block : BlockRef}

theorem refl (c : Context) : Emits block c c [] := ⟨rfl, rfl, fun _ _ => rfl, .refl _⟩

theorem trans {c1 c2 c3 : Context} (h : Emits block c1 c2 new) (h' : Emits block c2 c3 new') :
    Emits block c1 c3 (new ++ new') :=
  ⟨h'.blocks.trans h.blocks, h'.blockCount.trans h.blockCount,
    fun x hx => (h'.other x hx).trans (h.other x hx), h.appends.trans h'.appends⟩

theorem build (block : BlockRef) (c : Context) (hs : Plain s) : ∃ new, Emits block c (c.build block s) new := by
  refine ⟨[c.next block], rfl, rfl, fun x hx => c.rudderFn.setBlock_block_of_ne _ hx, ?_⟩
  change Appends _ ((c.rudderFn.setBlock block _).block block) _
  rw [c.rudderFn.setBlock_block_self]
  exact .build _ hs

theorem inBlock {α : Type} {c c' : Context} {op : Function → Block → Option (α × Block)} {a : α}
    (hop : ∀ {f b a b'}, op f b = some (a, b') → ∃ new, Appends b b' new) (h : c.inBlock block op = .ok (a, c')) :
    ∃ new, Emits block c c' new := by
  unfold Context.inBlock at h
  split at h
  · cases h
  · rename_i a b hb
    cases h
    obtain ⟨new, hnew⟩ := hop hb
    refine ⟨new, rfl, rfl, fun x hx => c.rudderFn.setBlock_block_of_ne _ hx, ?_⟩
    rw [c.rudderFn.setBlock_block_self]
    exact hnew

end Emits

theorem inBlock_ne_fuel {α : Type} {c : Context} {block : BlockRef} {op : Function → Block → Option (α × Block)} :
    c.inBlock block op ≠ .error .fuel := by
  unfold Context.inBlock
  split <;> nofun

theorem orPanic_ne_fuel {α : Type} (x : Option α) : orPanic x ≠ .error .fuel := by
  cases x <;> nofun

section Statements

variable {L : Lowering} {block : BlockRef}

theorem buildValues_emits : ∀ {vs : List Boom.Value} {c c' : Context} {rs : List Ref},
    buildValues L block vs c = .ok (rs, c') → ∃ new, Emits block c c' new
  | [], c, c', rs, h => by
    cases h
    exact ⟨[], .refl c⟩
  | v :: vs, c, c', rs, h => by
    obtain ⟨⟨r, c1⟩, hvalue, h⟩ := bind_eq_ok h
    obtain ⟨⟨rs', c2⟩, hvalues, h⟩ := bind_eq_ok h
    cases h
    obtain ⟨new, hnew⟩ := Emits.inBlock L.value_appends hvalue
    obtain ⟨new', hnew'⟩ := buildValues_emits hvalues
    exact ⟨_, hnew.trans hnew'⟩

theorem buildTupleWrites_emits : ∀ {es : List Boom.Expression} {index : Nat} {c c' : Context},
    buildTupleWrites L block source es index c = .ok c' → ∃ new, Emits block c c' new
  | [], index, c, c', h => by
    cases h
    exact ⟨[], .refl c⟩
  | e :: es, index, c, c', h => by
    obtain ⟨⟨u, c1⟩, hwrite, h⟩ := bind_eq_ok h
    obtain ⟨new, hnew⟩ := Emits.build block c (s := .tupleAccess index source) trivial
    obtain ⟨new1, hnew1⟩ := Emits.inBlock L.expressionWrite_appends hwrite
    obtain ⟨new2, hnew2⟩ := buildTupleWrites_emits h
    exact ⟨_, (hnew.trans hnew1).trans hnew2⟩

variable {name : String} {c c' : Context}

theorem buildCall_emits {args : List Ref} {specialized : Option Ref} {r : Ref}
    (h : buildCall L block name args specialized c = .ok (r, c')) : ∃ new, Emits block c c' new := by
  cases specialized with
  | some r =>
    cases h
    exact ⟨[], .refl _⟩
  | none =>
    obtain ⟨returnType, -, h⟩ := bind_eq_ok h
    cases h
    exact Emits.build block c trivial

variable {expression : Option Boom.Expression}

theorem buildResult_emits {fnStatement : Ref}
    (h : buildResult L block fnStatement expression c = .ok c') : ∃ new, Emits block c c' new := by
  have hwrite : ∀ {e}, (do
      let (_, c) ← c.inBlock block (L.expressionWrite e fnStatement)
      Except.ok c) = .ok c' → ∃ new, Emits block c c' new := by
    intro e h
    obtain ⟨⟨u, c1⟩, hwrite, h⟩ := bind_eq_ok h
    cases h
    exact Emits.inBlock L.expressionWrite_appends hwrite
  cases expression with
  | none =>
    cases h
    exact ⟨[], .refl c⟩
  | some e =>
    cases e with
    | tuple es => exact buildTupleWrites_emits h
    | identifier | field | address => exact hwrite h

theorem buildFunctionCall_emits {arguments : List Boom.Value}
    (h : buildFunctionCall L block expression name arguments c = .ok c') :
    ∃ new, Emits block c c' new := by
  obtain ⟨⟨args, c1⟩, hargs, h⟩ := bind_eq_ok h
  obtain ⟨⟨specialized, c2⟩, hspecialized, h⟩ := bind_eq_ok h
  obtain ⟨⟨fnStatement, c3⟩, hcall, h⟩ := bind_eq_ok h
  obtain ⟨new1, hnew1⟩ := buildValues_emits hargs
  obtain ⟨new2, hnew2⟩ := Emits.inBlock L.specializedFunction_appends hspecialized
  obtain ⟨new3, hnew3⟩ := buildCall_emits hcall
  obtain ⟨new4, hnew4⟩ := buildResult_emits h
  exact ⟨_, ((hnew1.trans hnew2).trans hnew3).trans hnew4⟩

theorem buildPanic_emits {value : Boom.Value} (h : (do
      let (value, c) ← c.inBlock block (L.value value)
      Except.ok (c.build block (.panic value))) = .ok c') : ∃ new, Emits block c c' new := by
  obtain ⟨⟨r, c1⟩, hvalue, h⟩ := bind_eq_ok h
  cases h
  obtain ⟨new, hnew⟩ := Emits.inBlock L.value_appends hvalue
  obtain ⟨new', hnew'⟩ := Emits.build block c1 (s := .panic r) trivial
  exact ⟨_, hnew.trans hnew'⟩

/-- **Building a statement appends to the block.** -/
theorem buildStatement_emits {s : Boom.Statement} (h : buildStatement L block s c = .ok c') :
    ∃ new, Emits block c c' new := by
  cases s with
  | variableDeclaration name typ =>
    obtain ⟨t, -, h⟩ := bind_eq_ok h
    cases h
    exact ⟨[], rfl, rfl, fun _ _ => rfl, .refl _⟩
  | copy expression value =>
    obtain ⟨⟨source, c1⟩, hvalue, h⟩ := bind_eq_ok h
    obtain ⟨⟨u, c2⟩, hwrite, h⟩ := bind_eq_ok h
    cases h
    obtain ⟨new, hnew⟩ := Emits.inBlock L.value_appends hvalue
    obtain ⟨new', hnew'⟩ := Emits.inBlock L.expressionWrite_appends hwrite
    exact ⟨_, hnew.trans hnew'⟩
  | functionCall expression name arguments => exact buildFunctionCall_emits h
  | comment text =>
    cases h
    exact ⟨[], .refl c⟩
  | exit | panic => exact buildPanic_emits h
  | label | goto | jump | end_ | undefined | if_ => cases h

theorem buildValues_ne_fuel : ∀ (vs : List Boom.Value) (c : Context), buildValues L block vs c ≠ .error .fuel
  | [], _ => nofun
  | _ :: vs, _ => bind_ne_fuel inBlock_ne_fuel fun (_, c) => bind_ne_fuel (buildValues_ne_fuel vs c) nofun

theorem buildTupleWrites_ne_fuel : ∀ (es : List Boom.Expression) (index : Nat) (c : Context),
    buildTupleWrites L block source es index c ≠ .error .fuel
  | [], _, _ => nofun
  | _ :: es, index, _ => bind_ne_fuel inBlock_ne_fuel fun (_, c) => buildTupleWrites_ne_fuel es (index + 1) c

theorem buildCall_ne_fuel {args : List Ref} (specialized : Option Ref) (c : Context) :
    buildCall L block name args specialized c ≠ .error .fuel := by
  cases specialized with
  | some r => nofun
  | none => exact bind_ne_fuel (orPanic_ne_fuel _) nofun

theorem buildResult_ne_fuel {fnStatement : Ref} (expression : Option Boom.Expression) (c : Context) :
    buildResult L block fnStatement expression c ≠ .error .fuel := by
  cases expression with
  | none => nofun
  | some e =>
    cases e with
    | tuple es => exact buildTupleWrites_ne_fuel es 0 c
    | identifier | field | address => exact bind_ne_fuel inBlock_ne_fuel nofun

/-- A statement can only fail by a panic. -/
theorem buildStatement_ne_fuel (s : Boom.Statement) (c : Context) : buildStatement L block s c ≠ .error .fuel := by
  cases s with
  | variableDeclaration name typ => exact bind_ne_fuel (orPanic_ne_fuel _) nofun
  | copy expression value => exact bind_ne_fuel inBlock_ne_fuel fun _ => bind_ne_fuel inBlock_ne_fuel nofun
  | functionCall expression name arguments =>
    exact bind_ne_fuel (buildValues_ne_fuel arguments c) fun (args, c1) => bind_ne_fuel inBlock_ne_fuel
      fun (specialized, c2) => bind_ne_fuel (buildCall_ne_fuel specialized c2)
        fun (fnStatement, c3) => buildResult_ne_fuel expression c3
  | exit | panic => exact bind_ne_fuel inBlock_ne_fuel nofun
  | _ => nofun

/-- The statements of a block with what has been built for each, in their order. -/
inductive Segments (L : Lowering) (block : BlockRef) :
    List Boom.Statement → Context → List (List Ref) → Context → Prop
  | nil (c : Context) : Segments L block [] c [] c
  | cons {s : Boom.Statement} {ss : List Boom.Statement} {c c₁ c₂ : Context} {new : List Ref}
      {segments : List (List Ref)} (hbuild : buildStatement L block s c = .ok c₁) (hnew : Emits block c c₁ new)
      (hrest : Segments L block ss c₁ segments c₂) : Segments L block (s :: ss) c (new :: segments) c₂

theorem Segments.emits {ss : List Boom.Statement} {c c' : Context} {segments : List (List Ref)}
    (h : Segments L block ss c segments c') : Emits block c c' segments.flatten := by
  induction h with
  | nil c => exact .refl c
  | cons _ hnew _ ih => exact hnew.trans ih

/-- **The statements of a block are built in their order**, or one of them panics. -/
theorem buildStatements_spec (L : Lowering) (block : BlockRef) : ∀ (ss : List Boom.Statement) (c : Context),
    (∃ c' segments, buildStatements L block ss c = .ok c' ∧ Segments L block ss c segments c') ∨
    buildStatements L block ss c = .error .panic ∧ ∃ before s after c' segments, ss = before ++ s :: after ∧
      Segments L block before c segments c' ∧ buildStatement L block s c' = .error .panic
  | [], c => .inl ⟨c, [], rfl, .nil c⟩
  | s :: ss, c => by
    unfold buildStatements
    cases hs : buildStatement L block s c with
    | error e =>
      cases e with
      | panic => exact .inr ⟨rfl, [], s, ss, c, [], rfl, .nil c, hs⟩
      | fuel => exact absurd hs (buildStatement_ne_fuel s c)
    | ok c1 =>
      obtain ⟨new, hnew⟩ := buildStatement_emits hs
      rcases buildStatements_spec L block ss c1 with
        ⟨c', segments, hrest, hsegments⟩ | ⟨hrest, before, x, after, c', segments, hss, hbefore, hpanics⟩
      · exact .inl ⟨c', new :: segments, hrest, .cons hs hnew hsegments⟩
      · exact .inr ⟨hrest, s :: before, x, after, c', new :: segments, by rw [hss, cons_append],
          .cons hs hnew hbefore, hpanics⟩

/-! ### Lowerings that do not fail -/

/-- The lowering has something for every type, function, value and expression. -/
structure Lowering.Total (L : Lowering) : Prop where
  resolveType : ∀ typ, ∃ t, L.resolveType typ = some t
  functions : ∀ name, ∃ returnType, L.functions name = some returnType
  value : ∀ v f b, ∃ p, L.value v f b = some p
  expressionWrite : ∀ e r f b, ∃ p, L.expressionWrite e r f b = some p
  specializedFunction : ∀ name args e f b, ∃ p, L.specializedFunction name args e f b = some p

/-- What the control-flow graph has taken out of its blocks. -/
def IsControlFlow : Boom.Statement → Prop
  | .label _ | .goto _ | .jump _ _ | .end_ _ | .undefined | .if_ _ _ _ => True
  | _ => False

theorem inBlock_total {α : Type} {op : Function → Block → Option (α × Block)} (hop : ∀ f b, ∃ p, op f b = some p)
    (c : Context) : ∃ p, c.inBlock block op = .ok p := by
  obtain ⟨p, hp⟩ := hop c.rudderFn (c.rudderFn.block block)
  unfold Context.inBlock
  rw [hp]
  exact ⟨_, rfl⟩

theorem bind_total {α β : Type} {x : Except Failure α} {g : α → Except Failure β} (hx : ∃ a, x = .ok a)
    (hg : ∀ a, ∃ b, g a = .ok b) : ∃ b, (x >>= g) = .ok b := by
  obtain ⟨a, rfl⟩ := hx
  exact hg a

variable (hL : L.Total)

include hL

theorem buildValues_total : ∀ (vs : List Boom.Value) (c : Context), ∃ p, buildValues L block vs c = .ok p
  | [], c => ⟨([], c), rfl⟩
  | v :: vs, c => bind_total (inBlock_total (hL.value v) c) fun p =>
      bind_total (buildValues_total vs p.2) fun _ => ⟨_, rfl⟩

theorem buildTupleWrites_total : ∀ (es : List Boom.Expression) (index : Nat) (c : Context),
    ∃ c', buildTupleWrites L block source es index c = .ok c'
  | [], _, c => ⟨c, rfl⟩
  | e :: es, index, _ => bind_total (inBlock_total (hL.expressionWrite e _) _) fun p =>
      buildTupleWrites_total es (index + 1) p.2

theorem buildCall_total {args : List Ref} (specialized : Option Ref) (c : Context) :
    ∃ p, buildCall L block name args specialized c = .ok p := by
  cases specialized with
  | some r => exact ⟨_, rfl⟩
  | none =>
    obtain ⟨returnType, hreturn⟩ := hL.functions name
    exact bind_total ⟨returnType, congrArg orPanic hreturn⟩ fun _ => ⟨_, rfl⟩

theorem buildResult_total {fnStatement : Ref} (expression : Option Boom.Expression) (c : Context) :
    ∃ c', buildResult L block fnStatement expression c = .ok c' := by
  cases expression with
  | none => exact ⟨c, rfl⟩
  | some e =>
    cases e with
    | tuple es => exact buildTupleWrites_total hL es 0 c
    | identifier | field | address =>
      exact bind_total (inBlock_total (hL.expressionWrite _ fnStatement) c) fun _ => ⟨_, rfl⟩

/-- **With a total lowering, every statement is built** that is not control flow. -/
theorem buildStatement_total (block : BlockRef) {s : Boom.Statement} (hs : ¬ IsControlFlow s) (c : Context) :
    ∃ c', buildStatement L block s c = .ok c' := by
  cases s with
  | variableDeclaration name typ =>
    obtain ⟨t, ht⟩ := hL.resolveType typ
    exact bind_total ⟨t, congrArg orPanic ht⟩ fun _ => ⟨_, rfl⟩
  | copy expression value =>
    exact bind_total (inBlock_total (hL.value value) c) fun p =>
      bind_total (inBlock_total (hL.expressionWrite expression p.1) p.2) fun _ => ⟨_, rfl⟩
  | functionCall expression name arguments =>
    exact bind_total (buildValues_total hL arguments c) fun p =>
      bind_total (inBlock_total (hL.specializedFunction name p.1 expression) p.2) fun q =>
        bind_total (buildCall_total hL q.1 q.2) fun r => buildResult_total hL expression r.2
  | comment text => exact ⟨c, rfl⟩
  | exit msg => exact bind_total (inBlock_total (hL.value _) c) fun _ => ⟨_, rfl⟩
  | panic value => exact bind_total (inBlock_total (hL.value value) c) fun _ => ⟨_, rfl⟩
  | label | goto | jump | end_ | undefined | if_ => exact absurd trivial hs

end Statements

/-- The types that are cast to a truth value. -/
def Castable : Option Typ → Prop
  | some (.primitive _) | some .int | some .bits => True
  | _ => False

theorem castTo_total (width : Nat) {b : Block} (h : Castable (b.typ source)) :
    ∃ p, castTo (.unsignedInteger width) source b = some p := by
  unfold castTo
  cases htyp : b.typ source with
  | none =>
    rw [htyp] at h
    exact absurd h id
  | some typ =>
    rw [htyp] at h
    cases typ with
    | primitive p =>
      dsimp only
      split
      · exact ⟨_, rfl⟩
      · split
        · exact ⟨_, rfl⟩
        · split
          · cases p <;> exact ⟨_, rfl⟩
          · exact ⟨_, rfl⟩
    | int =>
      dsimp only
      split <;> exact ⟨_, rfl⟩
    | bits => exact ⟨_, rfl⟩
    | vector | tuple | string | real => exact absurd h id

end Icewind.Rudder.Build
