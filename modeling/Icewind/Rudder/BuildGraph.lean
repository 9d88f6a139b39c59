import Icewind.Rudder.Build
import Icewind.Rudder.PurityExact
import Mathlib.Data.Finset.Card

/-!
# The blocks of a built function

* `Corresponds` — a terminator and the statement built for it, with the images of its targets.
* `Built` — a finished block: what has been built for its statements in their order, then its terminator.
* `Grows` — what resolving a block does while others are half built: these stay as they are, and every block that is
  registered in between is finished.
* `resolveBlock_spec` — with as much fuel as there are blocks to register, resolving ends.
* `Panics`, `Lowers` — what makes building panic, and lowerings with which it never does.
* `buildFn_spec` — the built function has the shape of the graph.
-/

namespace Icewind.Rudder.Build

open Relation List Option
open Boom (BlockId)

/-! ### The graph -/

/-- A block that can be reached from another. -/
def Reach (h : Boom.Heap) (a b : BlockId) : Prop :=
  ReflTransGen (fun a t => t ∈ (h.block a).terminator.targets) a b

/-- The targets of blocks are blocks. -/
def Closed (h : Boom.Heap) : Prop := ∀ b < h.next, ∀ t ∈ (h.block b).terminator.targets, t < h.next

/-- The statement is of the kind of the terminator, and its targets are the images of those of the terminator. -/
inductive Corresponds (image : BlockId → Option BlockRef) : Boom.Terminator → Statement Ref → Prop
  | retNone : Corresponds image (.ret none) (.return_ none)
  | ret (value : Boom.Value) (r : Ref) : Corresponds image (.ret (some value)) (.return_ (some r))
  | panic (value : Boom.Value) (r : Ref) : Corresponds image (.panic value) (.panic r)
  | conditional {condition : Boom.Value} {target fallthrough : BlockId} {trueTarget falseTarget : BlockRef} (r : Ref)
      (ht : image target = some trueTarget) (hf : image fallthrough = some falseTarget) :
      Corresponds image (.conditional condition target fallthrough) (.branch r trueTarget falseTarget)
  | unconditional {target : BlockId} {target' : BlockRef} (ht : image target = some target') :
      Corresponds image (.unconditional target) (.jump target')

variable {image : BlockId → Option BlockRef} {s : Statement Ref} {image' : BlockId → Option BlockRef}
  {t : Boom.Terminator}

theorem Corresponds.mono (h : Corresponds image t s) (himage : ∀ i r, image i = some r → image' i = some r) :
    Corresponds image' t s := by
  cases h with
  | retNone => exact .retNone
  | ret value r => exact .ret value r
  | panic value r => exact .panic value r
  | conditional r ht hf => exact .conditional r (himage _ _ ht) (himage _ _ hf)
  | unconditional ht => exact .unconditional (himage _ _ ht)

theorem Corresponds.targets (h : Corresponds image t s) :
    (∀ i ∈ t.targets, ∃ r ∈ s.targets, image i = some r) ∧ ∀ r ∈ s.targets, ∃ i ∈ t.targets, image i = some r := by
  cases h with
  | retNone | ret | panic => exact ⟨nofun, nofun⟩
  | conditional r ht hf =>
    simp only [Boom.Terminator.targets, Statement.targets, mem_cons, not_mem_nil, or_false]
    refine ⟨?_, ?_⟩
    · rintro i (rfl | rfl)
      · exact ⟨_, .inl rfl, ht⟩
      · exact ⟨_, .inr rfl, hf⟩
    · rintro r (rfl | rfl)
      · exact ⟨_, .inl rfl, ht⟩
      · exact ⟨_, .inr rfl, hf⟩
  | unconditional ht =>
    simp only [Boom.Terminator.targets, Statement.targets, mem_singleton]
    refine ⟨?_, ?_⟩
    · rintro i rfl
      exact ⟨_, rfl, ht⟩
    · rintro r rfl
      exact ⟨_, rfl, ht⟩

/-- **A finished block**: what was built for each statement, in their order, what was built for the value of the
terminator, and the terminator.  No other statement of it is a jump, a branch or a return. -/
structure Built (L : Lowering) (image : BlockId → Option BlockRef) (boomBlock : Boom.Block) (block : BlockRef)
    (b : Block) : Prop where
  parts : ∃ (c c' : Context) (segments : List (List Ref)) (value : List Ref) (terminator : Ref),
    (c.rudderFn.block block).statements = [] ∧ Segments L block boomBlock.statements c segments c' ∧
    b.statements = segments.flatten ++ value ++ [terminator] ∧
    (∀ x ∈ segments.flatten, b.arena x = (c'.rudderFn.block block).arena x) ∧
    (∀ x ∈ segments.flatten ++ value, Plain (b.arena x)) ∧
    Corresponds image boomBlock.terminator (b.arena terminator)

variable {L : Lowering} {boomBlock : Boom.Block} {block : BlockRef}

theorem Built.mono {b : Block} (h : Built L image boomBlock block b)
    (himage : ∀ i r, image i = some r → image' i = some r) : Built L image' boomBlock block b := by
  obtain ⟨c, c', segments, value, terminator, hempty, hsegments, hstatements, harena, hplain, hcorresponds⟩ := h.parts
  exact ⟨c, c', segments, value, terminator, hempty, hsegments, hstatements, harena, hplain, hcorresponds.mono himage⟩

theorem Built.targets {b : Block} (h : Built L image boomBlock block b) :
    (∀ i ∈ boomBlock.terminator.targets, ∃ r ∈ b.targets, image i = some r) ∧
      ∀ r ∈ b.targets, ∃ i ∈ boomBlock.terminator.targets, image i = some r := by
  obtain ⟨c, c', segments, value, terminator, -, -, hstatements, -, hplain, hcorresponds⟩ := h.parts
  have hmem : terminator ∈ b.statements := by
    rw [hstatements]
    simp
  refine ⟨fun i hi => ?_, fun r hr => ?_⟩
  · obtain ⟨r, hr, himage⟩ := hcorresponds.targets.1 i hi
    exact ⟨r, Block.mem_targets.mpr ⟨terminator, hmem, hr⟩, himage⟩
  · obtain ⟨x, hx, hr⟩ := Block.mem_targets.mp hr
    rw [hstatements] at hx
    rcases mem_append.mp hx with hx | hx
    · have hx' := hplain x hx
      cases hs : b.arena x with
      | jump | branch =>
        rw [hs] at hx'
        exact absurd hx' id
      | _ =>
        rw [hs] at hr
        cases hr
    · rw [mem_singleton.mp hx] at hr
      exact hcorresponds.targets.2 r hr

/-! ### Resolving -/

/-- What is registered: different blocks for different ids. -/
structure Inv (c : Context) : Prop where
  lt : ∀ id r, c.blocks id = some r → r < c.rudderFn.blockCount
  injective : ∀ id id' r, c.blocks id = some r → c.blocks id' = some r → id = id'

/-- **What resolving a block changes.**  Blocks that were there, finished or not, are as they were; blocks that are
registered now are finished and can be reached. -/
structure Grows (L : Lowering) (h : Boom.Heap) (id : BlockId) (c c' : Context) : Prop where
  count : c.rudderFn.blockCount ≤ c'.rudderFn.blockCount
  kept : ∀ x < c.rudderFn.blockCount, c'.rudderFn.block x = c.rudderFn.block x
  blocks : ∀ i r, c.blocks i = some r → c'.blocks i = some r
  new : ∀ i r, c.blocks i = none → c'.blocks i = some r →
    Reach h id i ∧ Built L c'.blocks (h.block i) r (c'.rudderFn.block r)
  inv : Inv c'

variable {h : Boom.Heap} {c : Context}

theorem Grows.refl (id : BlockId) (hc : Inv c) : Grows L h id c c :=
  ⟨Nat.le_refl _, fun _ _ => rfl, fun _ _ hr => hr, fun _ _ hnone hsome => (by
    rw [hnone] at hsome
    cases hsome), hc⟩

variable {id : BlockId}

theorem Grows.trans {c1 c2 c3 : Context} (h1 : Grows L h id c1 c2) (h2 : Grows L h id c2 c3) : Grows L h id c1 c3 := by
  refine ⟨Nat.le_trans h1.count h2.count, fun x hx => ?_, fun i r hr => h2.blocks i r (h1.blocks i r hr),
    fun i r hnone hsome => ?_, h2.inv⟩
  · rw [h2.kept x (Nat.lt_of_lt_of_le hx h1.count), h1.kept x hx]
  · cases hi : c2.blocks i with
    | none => exact h2.new i r hi hsome
    | some r' =>
      have heq : r' = r := some.inj ((h2.blocks i r' hi).symm.trans hsome)
      subst heq
      obtain ⟨hreach, hbuilt⟩ := h1.new i r' hnone hi
      rw [← h2.kept r' (h1.inv.lt i r' hi)] at hbuilt
      exact ⟨hreach, hbuilt.mono h2.blocks⟩

variable {c' : Context}

theorem Grows.target {t : BlockId} (hg : Grows L h t c c') (ht : t ∈ (h.block id).terminator.targets) :
    Grows L h id c c' :=
  ⟨hg.count, hg.kept, hg.blocks, fun i r hnone hsome =>
    ⟨.head ht (hg.new i r hnone hsome).1, (hg.new i r hnone hsome).2⟩, hg.inv⟩

theorem Emits.inv {new : List Ref} (h : Emits block c c' new) (hc : Inv c) : Inv c' := by
  refine ⟨fun id r hr => ?_, fun id id' r hr hr' => ?_⟩
  · rw [h.blocks] at hr
    rw [h.blockCount]
    exact hc.lt id r hr
  · rw [h.blocks] at hr hr'
    exact hc.injective id id' r hr hr'

/-- The value that is built for a terminator. -/
def terminatorValue : Boom.Terminator → Option Boom.Value
  | .ret value => value
  | .panic value | .conditional value _ _ => some value
  | .unconditional _ => none

/-- The statements up to some place have been built into an empty block. -/
def Builds (L : Lowering) (block : BlockRef) (ss : List Boom.Statement) (c' : Context) : Prop :=
  ∃ c segments, c.rudderFn.block block = emptyBlock ∧ Segments L block ss c segments c'

/-- **Building the block panics**, at a statement with those before it built, or with all of them built at the value of
the terminator or at the cast of the condition that has been built. -/
inductive Panics (L : Lowering) (b : Boom.Block) : Prop
  | statement {before after : List Boom.Statement} {s : Boom.Statement} {block : BlockRef} {c : Context}
      (hb : b.statements = before ++ s :: after) (hbuilds : Builds L block before c)
      (h : buildStatement L block s c = .error .panic)
  | value {value : Boom.Value} {block : BlockRef} {c : Context} (hb : terminatorValue b.terminator = some value)
      (hbuilds : Builds L block b.statements c) (h : L.value value c.rudderFn (c.rudderFn.block block) = none)
  | cast {condition : Boom.Value} {target fallthrough : BlockId} {block : BlockRef} {c : Context} {r : Ref} {blk : Block}
      (hb : b.terminator = .conditional condition target fallthrough) (hbuilds : Builds L block b.statements c)
      (hvalue : L.value condition c.rudderFn (c.rudderFn.block block) = some (r, blk))
      (h : castTo (.unsignedInteger 1) r blk = none)

/-- Some block that can be reached panics. -/
def PanicsFrom (L : Lowering) (h : Boom.Heap) (id : BlockId) : Prop := ∃ i, Reach h id i ∧ Panics L (h.block i)

theorem PanicsFrom.target {t : BlockId} (hp : PanicsFrom L h t) (ht : t ∈ (h.block id).terminator.targets) :
    PanicsFrom L h id :=
  hp.imp fun _ ⟨hreach, hpanics⟩ => ⟨.head ht hreach, hpanics⟩

/-- **What never panics**: a total lowering of blocks without control flow, whose conditions have types that can be
cast. -/
structure Lowers (L : Lowering) (h : Boom.Heap) (id : BlockId) : Prop where
  total : L.Total
  statements : ∀ i, Reach h id i → ∀ s ∈ (h.block i).statements, ¬ IsControlFlow s
  conditions : ∀ i, Reach h id i → ∀ condition target fallthrough,
    (h.block i).terminator = .conditional condition target fallthrough →
    ∀ f b r b', L.value condition f b = some (r, b') → Castable (b'.typ r)

theorem Lowers.not_panicsFrom (hlowers : Lowers L h id) : ¬ PanicsFrom L h id := by
  rintro ⟨i, hreach, hpanics⟩
  cases hpanics with
  | @statement before after s block c hb _ hstatement =>
    obtain ⟨c', hok⟩ := buildStatement_total hlowers.total block
      (hlowers.statements i hreach s (by rw [hb]; simp)) c
    rw [hok] at hstatement
    cases hstatement
  | @value value block c _ _ hnone =>
    obtain ⟨p, hp⟩ := hlowers.total.value value c.rudderFn (c.rudderFn.block block)
    rw [hp] at hnone
    cases hnone
  | cast hb _ hvalue hnone =>
    obtain ⟨p, hp⟩ := castTo_total 1 (hlowers.conditions i hreach _ _ _ hb _ _ _ _ hvalue)
    rw [hp] at hnone
    cases hnone

/-- Resolving a block gives its image, or it panics. -/
def Resolves (L : Lowering) (h : Boom.Heap) (id : BlockId) (c : Context) (result : Except Failure (BlockRef × Context)) :
    Prop :=
  (∃ block c', result = .ok (block, c') ∧ Grows L h id c c' ∧ c'.blocks id = some block) ∨
    result = .error .panic ∧ PanicsFrom L h id

theorem inBlock_cases {α : Type} (c : Context) (block : BlockRef) (op : Function → Block → Option (α × Block)) :
    (∃ a b, c.inBlock block op = .ok (a, { c with rudderFn := c.rudderFn.setBlock block b }) ∧
      op c.rudderFn (c.rudderFn.block block) = some (a, b)) ∨
    c.inBlock block op = .error .panic ∧ op c.rudderFn (c.rudderFn.block block) = none := by
  unfold Context.inBlock
  split
  · rename_i h
    exact .inr ⟨rfl, h⟩
  · rename_i a b h
    exact .inl ⟨a, b, rfl, h⟩

section Terminator

variable {L : Lowering} {h : Boom.Heap} {id : BlockId} {block : BlockRef} {c : Context} (hc : Inv c)
  {resolve : BlockId → Context → Except Failure (BlockRef × Context)}

/-- The terminator with the targets resolved, after what was built for its value. -/
def Terminates (L : Lowering) (h : Boom.Heap) (id : BlockId) (block : BlockRef) (c : Context)
    (result : Except Failure (Statement Ref × Context)) : Prop :=
  (∃ s c₁ c' value, result = .ok (s, c') ∧ Emits block c c₁ value ∧ Grows L h id c₁ c' ∧
    Corresponds c'.blocks (h.block id).terminator s) ∨
  result = .error .panic ∧ PanicsFrom L h id

include hc in
theorem terminates_value {value : Boom.Value} (kind : Ref → Statement Ref)
    (hcorresponds : ∀ r, Corresponds c.blocks (h.block id).terminator (kind r))
    (hpanics : L.value value c.rudderFn (c.rudderFn.block block) = none → Panics L (h.block id)) :
    Terminates L h id block c (do
      let (r, c) ← c.inBlock block (L.value value)
      .ok (kind r, c)) := by
  rcases inBlock_cases c block (L.value value) with ⟨r, b, hvalue, -⟩ | ⟨hvalue, hnone⟩
  · obtain ⟨new, hnew⟩ := Emits.inBlock L.value_appends hvalue
    rw [hvalue]
    refine .inl ⟨kind r, _, _, new, rfl, hnew, .refl id (hnew.inv hc), ?_⟩
    rw [hnew.blocks]
    exact hcorresponds r
  · rw [hvalue]
    exact .inr ⟨rfl, id, .refl, hpanics hnone⟩

include hc in
/-- **The terminator**, when its targets can be resolved. -/
theorem buildTerminator_spec (block : BlockRef) (hbuilds : Builds L block (h.block id).statements c)
    (hresolve : ∀ t ∈ (h.block id).terminator.targets, ∀ c', Inv c' → (∀ i r, c.blocks i = some r → c'.blocks i = some r) →
      Resolves L h t c' (resolve t c')) :
    Terminates L h id block c (buildTerminator L block resolve (h.block id).terminator c) := by
  cases ht : (h.block id).terminator with
  | ret value =>
    cases value with
    | none =>
      refine .inl ⟨.return_ none, c, c, [], rfl, .refl c, .refl id hc, ?_⟩
      rw [ht]
      exact .retNone
    | some value =>
      refine terminates_value hc (fun r => .return_ (some r)) (fun r => ?_) fun hnone =>
        .value (by rw [ht]; rfl) hbuilds hnone
      rw [ht]
      exact .ret value r
  | panic value =>
    refine terminates_value hc .panic (fun r => ?_) fun hnone => .value (by rw [ht]; rfl) hbuilds hnone
    rw [ht]
    exact .panic value r
  | unconditional target =>
    have hmem : target ∈ (h.block id).terminator.targets := by
      rw [ht]
      exact mem_singleton_self target
    rw [buildTerminator]
    rcases hresolve target hmem c hc fun _ _ hr => hr with ⟨target', c', hok, hgrows, himage⟩ | ⟨hpanic, hfrom⟩
    · rw [hok]
      refine .inl ⟨.jump target', c, c', [], rfl, .refl c, hgrows.target hmem, ?_⟩
      rw [ht]
      exact .unconditional himage
    · rw [hpanic]
      exact .inr ⟨rfl, hfrom.target hmem⟩
  | conditional condition target fallthrough =>
    have hmem : target ∈ (h.block id).terminator.targets := by
      rw [ht]
      exact mem_cons_self
    have hmem' : fallthrough ∈ (h.block id).terminator.targets := by
      rw [ht]
      exact mem_cons_of_mem _ (mem_singleton_self _)
    rw [buildTerminator]
    rcases inBlock_cases c block (L.value condition) with ⟨r, b, hvalue, hb⟩ | ⟨hvalue, hnone⟩
    · obtain ⟨new, hnew⟩ := Emits.inBlock L.value_appends hvalue
      rw [hvalue]
      have hcasts := inBlock_cases { c with rudderFn := c.rudderFn.setBlock block b } block
        fun _ => castTo (.unsignedInteger 1) r
      rw [show (c.rudderFn.setBlock block b).block block = b from c.rudderFn.setBlock_block_self _ _] at hcasts
      generalize ({ c with rudderFn := c.rudderFn.setBlock block b } : Context) = c1 at hnew hcasts ⊢
      change Terminates L h id block c (do
        let condition ← c1.inBlock block fun _ => castTo (.unsignedInteger 1) r
        let trueTarget ← resolve target condition.2
        let falseTarget ← resolve fallthrough trueTarget.2
        .ok (.branch condition.1 trueTarget.1 falseTarget.1, falseTarget.2))
      rcases hcasts with ⟨r2, b2, hcast, -⟩ | ⟨hcast, hnone⟩
      · generalize ({ c1 with rudderFn := c1.rudderFn.setBlock block b2 } : Context) = c2 at hcast
        obtain ⟨new2, hnew2⟩ := Emits.inBlock castTo_appends hcast
        have hemits := hnew.trans hnew2
        have hkept : ∀ i r, c.blocks i = some r → c2.blocks i = some r := fun i r hr => by
          rw [hemits.blocks]
          exact hr
        rw [hcast]
        change Terminates L h id block c (do
          let trueTarget ← resolve target c2
          let falseTarget ← resolve fallthrough trueTarget.2
          .ok (.branch r2 trueTarget.1 falseTarget.1, falseTarget.2))
        rcases hresolve target hmem c2 (hemits.inv hc) hkept with ⟨t', c3, hok, hgrows, himage⟩ | ⟨hpanic, hfrom⟩
        · rw [hok]
          change Terminates L h id block c (do
            let falseTarget ← resolve fallthrough c3
            .ok (.branch r2 t' falseTarget.1, falseTarget.2))
          rcases hresolve fallthrough hmem' c3 hgrows.inv (fun i r hr => hgrows.blocks i r (hkept i r hr)) with
            ⟨f', c4, hok', hgrows', himage'⟩ | ⟨hpanic, hfrom⟩
          · rw [hok']
            refine .inl ⟨.branch r2 t' f', c2, c4, _, rfl, hemits, (hgrows.target hmem).trans (hgrows'.target hmem'), ?_⟩
            rw [ht]
            exact .conditional r2 (hgrows'.blocks _ _ himage) himage'
          · rw [hpanic]
            exact .inr ⟨rfl, hfrom.target hmem'⟩
        · rw [hpanic]
          exact .inr ⟨rfl, hfrom.target hmem⟩
      · rw [hcast]
        exact .inr ⟨rfl, id, .refl, .cast ht hbuilds hb hnone⟩
    · rw [hvalue]
      exact .inr ⟨rfl, id, .refl, .value (by rw [ht]; rfl) hbuilds hnone⟩

end Terminator

/-! ### One block -/

theorem newBlock_inv (hc : Inv c) (id : BlockId) : Inv (c.newBlock id) := by
  have hcases : ∀ {i r}, (c.newBlock id).blocks i = some r →
      (i = id ∧ r = c.rudderFn.blockCount) ∨ (i ≠ id ∧ c.blocks i = some r) := by
    intro i r hr
    change Function.update c.blocks id (some c.rudderFn.blockCount) i = some r at hr
    by_cases hi : i = id
    · rw [hi, Function.update_self] at hr
      exact .inl ⟨hi, (some.inj hr).symm⟩
    · rw [Function.update_of_ne hi] at hr
      exact .inr ⟨hi, hr⟩
  refine ⟨fun i r hr => ?_, fun i i' r hr hr' => ?_⟩
  · change r < c.rudderFn.blockCount + 1
    rcases hcases hr with ⟨-, rfl⟩ | ⟨-, hr⟩
    · exact Nat.lt_succ_self _
    · exact Nat.lt_succ_of_lt (hc.lt i r hr)
  · rcases hcases hr with ⟨hi, hnew⟩ | ⟨-, hold⟩ <;> rcases hcases hr' with ⟨hi', hnew'⟩ | ⟨-, hold'⟩
    · exact hi.trans hi'.symm
    · exact absurd (hc.lt i' r hold') (by rw [hnew]; exact Nat.lt_irrefl _)
    · exact absurd (hc.lt i r hold) (by rw [hnew']; exact Nat.lt_irrefl _)
    · exact hc.injective i i' r hold hold'

theorem built_of_parts {c0 c1 c2 : Context} {segments : List (List Ref)} {value : List Ref}
    (hempty : (c0.rudderFn.block block).statements = [])
    (hsegments : Segments L block boomBlock.statements c0 segments c1) (hvalue : Emits block c1 c2 value)
    (hs : Corresponds image boomBlock.terminator s) :
    Built L image boomBlock block ((c2.rudderFn.block block).build s) := by
  have hall := (hsegments.emits.trans hvalue).appends
  have harena : ∀ x < (c2.rudderFn.block block).arenaSize,
      ((c2.rudderFn.block block).build s).arena x = (c2.rudderFn.block block).arena x :=
    fun x hx => Function.update_of_ne (Nat.ne_of_lt hx) _ _
  refine ⟨c0, c1, segments, value, (c2.rudderFn.block block).arenaSize, hempty, hsegments, ?_, fun x hx => ?_,
    fun x hx => ?_, ?_⟩
  · change (c2.rudderFn.block block).statements ++ _ = _
    rw [hall.statements, hempty, nil_append]
  · have hx' := hsegments.emits.appends.bounded x hx
    rw [harena x (Nat.lt_of_lt_of_le hx' hvalue.appends.size), hvalue.appends.arena x hx']
  · rw [harena x (hall.bounded x hx)]
    exact hall.plain x hx
  · change Corresponds image boomBlock.terminator
      (Function.update (c2.rudderFn.block block).arena (c2.rudderFn.block block).arenaSize s _)
    rw [Function.update_self]
    exact hs

/-- **Building a block**, when its targets can be resolved once it is registered. -/
theorem buildBlock_spec (hc : Inv c) (hid : c.blocks id = none)
    {resolve : BlockId → Context → Except Failure (BlockRef × Context)}
    (hresolve : ∀ t ∈ (h.block id).terminator.targets, ∀ c', Inv c' →
      (∀ i r, (c.newBlock id).blocks i = some r → c'.blocks i = some r) → Resolves L h t c' (resolve t c')) :
    Resolves L h id c (buildBlock L resolve (h.block id) id c) := by
  have hnew : ∀ x, x ≠ c.rudderFn.blockCount → (c.newBlock id).rudderFn.block x = c.rudderFn.block x :=
    fun x hx => Function.update_of_ne hx _ _
  have hempty : (c.newBlock id).rudderFn.block c.rudderFn.blockCount = emptyBlock := Function.update_self ..
  unfold buildBlock
  dsimp only
  rcases buildStatements_spec L c.rudderFn.blockCount (h.block id).statements (c.newBlock id) with
    ⟨c1, segments, hstatements, hsegments⟩ | ⟨hpanic, before, s, after, c', segments, hs, hbefore, hs'⟩
  · have hemits := hsegments.emits
    rw [hstatements]
    change Resolves L h id c (do
      let built ← buildTerminator L c.rudderFn.blockCount resolve (h.block id).terminator c1
      .ok (c.rudderFn.blockCount, built.2.build c.rudderFn.blockCount built.1))
    rcases buildTerminator_spec (hemits.inv (newBlock_inv hc id)) c.rudderFn.blockCount ⟨_, _, hempty, hsegments⟩
      (fun t ht c' hc' hkept => hresolve t ht c' hc' fun i r hr => hkept i r (by rw [hemits.blocks]; exact hr)) with
      ⟨s, c2, c3, value, hok, hvalue, hgrows, hcorresponds⟩ | ⟨hpanic, hfrom⟩
    · rw [hok]
      have hboth := hemits.trans hvalue
      have hcount : c2.rudderFn.blockCount = c.rudderFn.blockCount + 1 := hboth.blockCount
      have hlt : c.rudderFn.blockCount < c2.rudderFn.blockCount := by
        rw [hcount]
        exact Nat.lt_succ_self _
      have himage : c2.blocks id = some c.rudderFn.blockCount := by
        rw [hboth.blocks]
        exact Function.update_self _ _ _
      have hself : (c3.build c.rudderFn.blockCount s).rudderFn.block c.rudderFn.blockCount =
          (c2.rudderFn.block c.rudderFn.blockCount).build s := by
        change (c3.rudderFn.setBlock _ _).block _ = _
        rw [c3.rudderFn.setBlock_block_self, hgrows.kept _ hlt]
      have hother : ∀ x, x ≠ c.rudderFn.blockCount →
          (c3.build c.rudderFn.blockCount s).rudderFn.block x = c3.rudderFn.block x :=
        fun x hx => c3.rudderFn.setBlock_block_of_ne _ hx
      refine .inl ⟨c.rudderFn.blockCount, c3.build c.rudderFn.blockCount s, rfl, ?_, hgrows.blocks _ _ himage⟩
      refine ⟨?_, fun x hx => ?_, fun i r hr => hgrows.blocks i r ?_, fun i r hnone hsome => ?_,
        hgrows.inv.lt, hgrows.inv.injective⟩
      · have hle := hgrows.count
        rw [hcount] at hle
        exact Nat.le_of_succ_le hle
      · have hne : x ≠ c.rudderFn.blockCount := Nat.ne_of_lt hx
        rw [hother x hne, hgrows.kept x (Nat.lt_trans hx hlt), hboth.other x hne, hnew x hne]
      · have hne : i ≠ id := fun heq => by
          rw [heq, hid] at hr
          cases hr
        rw [hboth.blocks]
        change Function.update c.blocks id _ i = some r
        rw [Function.update_of_ne hne]
        exact hr
      · change c3.blocks i = some r at hsome
        by_cases hi : i = id
        · subst hi
          have heq : c.rudderFn.blockCount = r := some.inj ((hgrows.blocks _ _ himage).symm.trans hsome)
          subst heq
          rw [hself]
          exact ⟨.refl, built_of_parts (by rw [hempty]; rfl) hsegments hvalue hcorresponds⟩
        · have hnone' : c2.blocks i = none := by
            rw [hboth.blocks]
            change Function.update c.blocks id _ i = none
            rw [Function.update_of_ne hi]
            exact hnone
          have hne : r ≠ c.rudderFn.blockCount := fun heq =>
            hi (hgrows.inv.injective i id r hsome (by rw [heq]; exact hgrows.blocks _ _ himage))
          rw [hother r hne]
          exact hgrows.new i r hnone' hsome
    · rw [hpanic]
      exact .inr ⟨rfl, hfrom⟩
  · rw [hpanic]
    exact .inr ⟨rfl, id, .refl, .statement hs ⟨_, _, hempty, hbefore⟩ hs'⟩

/-! ### The whole graph -/

/-- How many blocks are still to be registered. -/
def unregistered (h : Boom.Heap) (c : Context) : Nat := ((Finset.range h.next).filter fun i => c.blocks i = none).card

theorem unregistered_newBlock (hid : id < h.next) (hnone : c.blocks id = none)
    (hkept : ∀ i r, (c.newBlock id).blocks i = some r → c'.blocks i = some r) :
    unregistered h c' < unregistered h c := by
  have hregistered : ∀ i, c'.blocks i = none → i ≠ id ∧ c.blocks i = none := by
    intro i hi
    have hne : i ≠ id := fun heq => by
      rw [heq, hkept id c.rudderFn.blockCount (Function.update_self _ _ _)] at hi
      cases hi
    refine ⟨hne, ?_⟩
    cases hci : c.blocks i with
    | none => rfl
    | some r =>
      rw [hkept i r ((Function.update_of_ne hne _ _).trans hci)] at hi
      cases hi
  refine Finset.card_lt_card ((Finset.ssubset_iff_of_subset fun i hi => ?_).mpr ⟨id, ?_, fun hmem => ?_⟩)
  · rw [Finset.mem_filter] at hi ⊢
    exact ⟨hi.1, (hregistered i hi.2).2⟩
  · rw [Finset.mem_filter]
    exact ⟨Finset.mem_range.mpr hid, hnone⟩
  · exact (hregistered id (Finset.mem_filter.mp hmem).2).1 rfl

/-- **Resolving a block ends**, with as much fuel as there are blocks to register. -/
theorem resolveBlock_spec (L : Lowering) (hh : Closed h) : ∀ (fuel : Nat) {id : BlockId} {c : Context},
    Inv c → id < h.next → unregistered h c < fuel → Resolves L h id c (resolveBlock L h fuel id c)
  | 0, _, _, _, _, hfuel => absurd hfuel (Nat.not_lt_zero _)
  | fuel + 1, id, c, hc, hid, hfuel => by
    unfold resolveBlock
    cases hblock : c.blocks id with
    | some block => exact .inl ⟨block, c, rfl, .refl id hc, hblock⟩
    | none =>
      refine buildBlock_spec hc hblock fun t ht c' hc' hkept => ?_
      have hless := unregistered_newBlock hid hblock hkept
      exact resolveBlock_spec L hh fuel hc' (hh id hid t ht) (Nat.lt_of_lt_of_le hless (Nat.le_of_lt_succ hfuel))

/-- **The built function has the shape of the graph**: its image is a bijection between the blocks that can be
reached. -/
structure SameShape (L : Lowering) (h : Boom.Heap) (entry : BlockId) (f : Function)
    (image : BlockId → Option BlockRef) : Prop where
  entryBlock : image entry = some f.entryBlock
  domain : ∀ id, Reach h entry id ↔ ∃ r, image id = some r
  injective : ∀ id id' r, image id = some r → image id' = some r → id = id'
  range : ∀ r, f.Reached r ↔ ∃ id, image id = some r
  built : ∀ id r, image id = some r → Built L image (h.block id) r (f.block r)

theorem buildFn_cases (L : Lowering) (h : Boom.Heap) (hh : Closed h) (entry : BlockId) (hentry : entry < h.next)
    (f : Function) (fuel : Nat) (hfuel : h.next < fuel) :
    (∃ f' image, buildFn L h fuel entry f = .ok f' ∧ SameShape L h entry f' image) ∨
      buildFn L h fuel entry f = .error .panic ∧ PanicsFrom L h entry := by
  have hstart : Inv ⟨f, fun _ => none⟩ := ⟨nofun, nofun⟩
  have hunregistered : unregistered h ⟨f, fun _ => none⟩ < fuel := by
    refine Nat.lt_of_le_of_lt (Finset.card_filter_le _ _) ?_
    rw [Finset.card_range]
    exact hfuel
  unfold buildFn
  rcases resolveBlock_spec L hh fuel hstart hentry hunregistered with ⟨block, c, hok, hgrows, himage⟩ | ⟨hpanic, hfrom⟩
  · rw [hok]
    refine .inl ⟨_, c.blocks, rfl, ?_⟩
    have hbuilt : ∀ id r, c.blocks id = some r → Built L c.blocks (h.block id) r (c.rudderFn.block r) :=
      fun id r hr => (hgrows.new id r rfl hr).2
    -- a block that can be reached is registered, since the block before it is finished
    have hdomain : ∀ id, Reach h entry id → ∃ r, c.blocks id = some r := by
      intro id hreach
      induction hreach with
      | refl => exact ⟨block, himage⟩
      | tail _ ht ih =>
        obtain ⟨r, hr⟩ := ih
        obtain ⟨t, -, ht⟩ := (hbuilt _ r hr).targets.1 _ ht
        exact ⟨t, ht⟩
    have hrange : ∀ id r, Reach h entry id → c.blocks id = some r →
        Function.Reached { c.rudderFn with entryBlock := block } r := by
      intro id r hreach
      induction hreach generalizing r with
      | refl =>
        intro hr
        rw [himage] at hr
        cases hr
        exact .refl
      | tail hbefore ht ih =>
        intro hr
        obtain ⟨r', hr'⟩ := hdomain _ hbefore
        obtain ⟨t, htargets, htimage⟩ := (hbuilt _ r' hr').targets.1 _ ht
        have heq : t = r := some.inj (htimage.symm.trans hr)
        subst heq
        exact (ih r' hr').tail htargets
    refine ⟨himage, fun id => ⟨hdomain id, fun ⟨r, hr⟩ => (hgrows.new id r rfl hr).1⟩, hgrows.inv.injective,
      fun r => ⟨fun hreached => ?_, fun ⟨id, hr⟩ => hrange id r (hgrows.new id r rfl hr).1 hr⟩, hbuilt⟩
    induction hreached with
    | refl => exact ⟨entry, himage⟩
    | tail _ ht ih =>
      obtain ⟨id, hid⟩ := ih
      obtain ⟨t, -, htimage⟩ := (hbuilt id _ hid).targets.2 _ ht
      exact ⟨t, htimage⟩
  · rw [hpanic]
    exact .inr ⟨rfl, hfrom⟩

/-- **Building ends**, and gives a function of the same shape unless a statement or a value that can be reached
panics, which never happens with a lowering that does not fail. -/
theorem buildFn_spec (L : Lowering) (h : Boom.Heap) (hh : Closed h) (entry : BlockId) (hentry : entry < h.next)
    (f : Function) (fuel : Nat) (hfuel : h.next < fuel) :
    ((∃ f' image, buildFn L h fuel entry f = .ok f' ∧ SameShape L h entry f' image) ∨
      buildFn L h fuel entry f = .error .panic ∧ PanicsFrom L h entry) ∧
    (Lowers L h entry → ∃ f' image, buildFn L h fuel entry f = .ok f' ∧ SameShape L h entry f' image) := by
  have hcases := buildFn_cases L h hh entry hentry f fuel hfuel
  exact ⟨hcases, fun hlowers => hcases.resolve_right fun hpanic => hlowers.not_panicsFrom hpanic.2⟩

/-- A lowering in which every value is true, and calls are all that is written. -/
def trueLowering : Lowering where
  resolveType := fun _ => some .int
  functions := fun _ => some none
  value := fun _ _ b => some (b.arenaSize, b.build (.constant (.unsignedInteger 1 1)))
  expressionWrite := fun _ _ _ b => some ((), b)
  specializedFunction := fun _ _ _ _ b => some (none, b)
  value_appends := fun h => by
    cases h
    exact ⟨_, .build _ trivial⟩
  expressionWrite_appends := fun h => by
    cases h
    exact ⟨[], .refl _⟩
  specializedFunction_appends := fun h => by
    cases h
    exact ⟨[], .refl _⟩

/-- A loop: a call and a branch to a block that jumps back, or to one that returns. -/
def loopGraph : Boom.Heap where
  next := 3
  live := fun _ => true
  block
    | 0 => ⟨none, [1], [.functionCall none "f" []], .conditional (.identifier "c") 1 2⟩
    | 1 => ⟨none, [0], [], .unconditional 0⟩
    | _ => ⟨none, [0], [], .ret none⟩

theorem loopGraph_closed : Closed loopGraph := by
  intro b hb t ht
  match b with
  | 0 =>
    change t ∈ [1, 2] at ht
    simp only [mem_cons, not_mem_nil, or_false] at ht
    rcases ht with rfl | rfl <;> decide
  | 1 =>
    rw [mem_singleton.mp ht]
    decide
  | _ + 2 => cases ht

theorem loopGraph_lowers : Lowers trueLowering loopGraph 0 where
  total := ⟨fun _ => ⟨_, rfl⟩, fun _ => ⟨_, rfl⟩, fun _ _ _ => ⟨_, rfl⟩, fun _ _ _ _ => ⟨_, rfl⟩,
    fun _ _ _ _ _ => ⟨_, rfl⟩⟩
  statements := by
    intro i _ s hs
    match i with
    | 0 =>
      rw [mem_singleton.mp hs]
      exact id
    | 1 | _ + 2 => cases hs
  conditions := by
    intro _ _ _ _ _ _ f b r b' hvalue
    cases hvalue
    rw [Block.typ, Block.build, Block.typAux]
    simp only [Function.update_self]
    trivial

theorem buildFn_spec_loopGraph :
    ∃ f' image, buildFn trueLowering loopGraph 4 0 ⟨[], [], 1, fun _ => emptyBlock, 0⟩ = .ok f' ∧
      f'.entryBlock = 1 ∧ (f'.block 1).targets = [2, 3] ∧ (f'.block 2).targets = [1] ∧
      SameShape trueLowering loopGraph 0 f' image := by
  obtain ⟨f', image, hok, hshape⟩ := (buildFn_spec trueLowering loopGraph loopGraph_closed 0 (by decide)
    ⟨[], [], 1, fun _ => emptyBlock, 0⟩ 4 (by decide)).2 loopGraph_lowers
  refine ⟨f', image, hok, ?_, ?_, ?_, hshape⟩ <;> cases hok <;> rfl

end Icewind.Rudder.Build
