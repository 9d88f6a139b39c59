import Icewind.Rudder.Embedding
import Icewind.Rudder.DeadStatements
import Icewind.Rudder.JumpThreading

/-!
# The block inliner

Model of `borealis/src/rudder/opt/block_inliner.rs`, with `import_statement` of
`common/src/rudder/statement.rs`.

* `Statement.remap` — the operands of a statement looked up in the mapping.
* `importStatements`, `runInlinerBlock`, `run` — the pass.
* `Fused` — what becomes of a block that ends in a jump: its statements without the jump, and the statements of
  the target under new names.  `importBlock_fused` says that importing ends in it.
* `Inlines.unseen` — inlining one block cannot be seen.
* `blockInliner_unseen` — nor can any number of runs of the pass.
-/

namespace Icewind.Rudder

open List Option

/-- The match of `import_statement`: `none` is the panic on an operand without a mapping, and the `todo!()` for a
phi node. -/
def Statement.remap (mapping : Ref → Option Ref) : Statement Ref → Option (Statement Ref)
  | .phiNode _ => none
  | s => if s.operands.all fun o => (mapping o).isSome then some (s.map fun o => (mapping o).getD o) else none

variable {mapping : Ref → Option Ref}

theorem Statement.remap_eq {m : Ref → Ref} {s : Statement Ref} (hphi : ∀ members, s ≠ .phiNode members)
    (h : ∀ o ∈ s.operands, mapping o = some (m o)) : s.remap mapping = some (s.map m) := by
  have hall : (s.operands.all fun o => (mapping o).isSome) = true :=
    all_eq_true.mpr fun o ho => by
      rw [h o ho]
      rfl
  have hmap : s.map (fun o => (mapping o).getD o) = s.map m := Statement.map_congr hphi fun o ho => by
    rw [h o ho]
    rfl
  rw [← hmap]
  cases s with
  | phiNode members => exact absurd rfl (hphi members)
  | _ =>
    unfold remap
    exact if_pos hall

namespace BlockInliner

open Relation DeadStmtElimination

/-! ### The pass -/

def inlineSizeThreshold : Nat := 5

def endsInReturn (b : Block) : Bool :=
  match b.terminatorStatement.map b.arena with
  | some (.return_ _) => true
  | _ => false

/-- The loop over the statements of the target block, with the mapping so far. -/
def importStatements (source target : BlockRef) : List Ref → (Ref → Option Ref) → Function → Option Function
  | [], _, f => some f
  | r :: rest, mapping, f =>
    (((f.block target).arena r).remap mapping).bind fun s =>
      importStatements source target rest (Function.update mapping r (some (f.block source).arenaSize))
        (f.setBlock source ((f.block source).build s))

/-- `run_inliner_block`. -/
def runInlinerBlock (f : Function) (source : BlockRef) : Option (Function × Bool) :=
  (f.block source).terminatorStatement.bind fun terminator =>
    match (f.block source).arena terminator with
    | .jump target =>
      if inlineSizeThreshold < (f.block target).statements.length || endsInReturn (f.block target) then
        some (f, false)
      else
        let killed := f.setBlock source (killStatement (f.block source) terminator)
        (importStatements source target (killed.block target).statements (fun _ => none) killed).map (·, true)
    | _ => some (f, false)

def runInlinerBlocks : List BlockRef → Function → Option (Function × Bool) := forEach runInlinerBlock

def run (f : Function) : Option (Function × Bool) := runInlinerBlocks f.blockIter f

/-- Some runs of the pass, one after the other. -/
def runs : Nat → Function → Option Function
  | 0, f => some f
  | n + 1, f => (run f).bind fun (f, _) => runs n f

/-! ### Importing -/

/-- Importing, as it is while the target is another block. -/
def importBlock (target : Block) : List Ref → (Ref → Option Ref) → Block → Option Block
  | [], _, b => some b
  | r :: rest, mapping, b =>
    ((target.arena r).remap mapping).bind fun s =>
      importBlock target rest (Function.update mapping r (some b.arenaSize)) (b.build s)

variable {f : Function} {target : BlockRef}

theorem importStatements_eq {source : BlockRef} (hne : target ≠ source) :
    ∀ (l : List Ref) (mapping : Ref → Option Ref) (b : Block),
      importStatements source target l mapping (f.setBlock source b) =
        (importBlock (f.block target) l mapping b).map (f.setBlock source)
  | [], _, _ => rfl
  | r :: rest, mapping, b => by
    unfold importStatements importBlock
    rw [f.setBlock_block_of_ne b hne, f.setBlock_block_self]
    cases ((f.block target).arena r).remap mapping with
    | none => rfl
    | some s =>
      have hset : (f.setBlock source b).setBlock source (b.build s) = f.setBlock source (b.build s) := by
        simp only [Function.setBlock, Function.update_idem]
      rw [bind_some, bind_some, hset]
      exact importStatements_eq hne rest _ _

/-- The new name of a statement of the target. -/
def place (b target : Block) (r : Ref) : Ref := b.arenaSize + target.statements.idxOf r

/-- The block in the middle of importing: some statements of the target are there. -/
structure Importing (b target : Block) (init done : List Ref) (mapping : Ref → Option Ref) (b' : Block) : Prop where
  size : b'.arenaSize = b.arenaSize + done.length
  statements : b'.statements = init ++ done.map (place b target)
  old : ∀ x < b.arenaSize, b'.arena x = b.arena x
  new : ∀ r ∈ done, b'.arena (place b target r) = (target.arena r).map (place b target)
  mapping : ∀ r, mapping r = if r ∈ done then some (place b target r) else none

/-- **What becomes of the block.** -/
structure Fused (b target : Block) (init : List Ref) (b' : Block) : Prop where
  size : b'.arenaSize = b.arenaSize + target.statements.length
  statements : b'.statements = init ++ target.statements.map (place b target)
  old : ∀ x < b.arenaSize, b'.arena x = b.arena x
  new : ∀ r ∈ target.statements, b'.arena (place b target r) = (target.arena r).map (place b target)

variable {done rest : List Ref} {r : Ref}

theorem place_done {b target : Block} (hsplit : target.statements = done ++ rest) (hr : r ∈ done) :
    place b target r < b.arenaSize + done.length := by
  unfold place
  rw [hsplit, idxOf_append_of_mem hr]
  exact Nat.add_lt_add_left (idxOf_lt_length_iff.mpr hr) _

theorem Importing.step {b target b' : Block} {init done rest : List Ref} (htarget : target.WellFormed)
    (hphi : target.NoPhi target.statements) (hsplit : target.statements = done ++ r :: rest)
    (h : Importing b target init done mapping b') :
    (target.arena r).remap mapping = some ((target.arena r).map (place b target)) ∧
      Importing b target init (done ++ [r]) (Function.update mapping r (some b'.arenaSize))
        (b'.build ((target.arena r).map (place b target))) := by
  have hnext : place b target r = b'.arenaSize := by
    rw [place, hsplit, idxOf_append_of_notMem (htarget.not_mem hsplit), idxOf_cons_self, Nat.add_zero, h.size]
  have hmem : r ∈ target.statements := by
    rw [hsplit]
    simp
  refine ⟨Statement.remap_eq (hphi r hmem) fun o ho => ?_, ?_, ?_, ?_, ?_, ?_⟩
  · rw [h.mapping o, if_pos (htarget.ordered done r rest hsplit o ho)]
  · change b'.arenaSize + 1 = _
    rw [h.size, length_append]
    rfl
  · change b'.statements ++ [b'.arenaSize] = _
    rw [h.statements, ← hnext, map_append, append_assoc]
    rfl
  · intro x hx
    have hne : x ≠ b'.arenaSize := by
      rw [h.size]
      exact (Nat.lt_add_right _ hx).ne
    change Function.update b'.arena b'.arenaSize _ x = _
    rw [Function.update_of_ne hne]
    exact h.old x hx
  · intro x hx
    change Function.update b'.arena b'.arenaSize _ _ = _
    rcases mem_append.mp hx with hx | hx
    · have hne : place b target x ≠ b'.arenaSize := by
        rw [h.size]
        exact (place_done hsplit hx).ne
      rw [Function.update_of_ne hne]
      exact h.new x hx
    · rw [mem_singleton.mp hx, hnext, Function.update_self]
  · intro x
    by_cases hx : x = r
    · subst hx
      rw [Function.update_self, if_pos (by simp), hnext]
    · rw [Function.update_of_ne hx, h.mapping x]
      simp [hx]

/-- **Importing the statements of a well-formed block does not panic, and ends in the fused block.** -/
theorem importBlock_fused {b target : Block} {init : List Ref} (htarget : target.WellFormed)
    (hphi : target.NoPhi target.statements) : ∀ {rest done : List Ref} {mapping : Ref → Option Ref} {b' : Block},
    target.statements = done ++ rest → Importing b target init done mapping b' →
    ∃ b'', importBlock target rest mapping b' = some b'' ∧ Fused b target init b''
  | [], done, mapping, b', hsplit, h => by
    rw [append_nil] at hsplit
    subst hsplit
    exact ⟨b', rfl, h.size, h.statements, h.old, h.new⟩
  | r :: rest, done, mapping, b', hsplit, h => by
    obtain ⟨hremap, hstep⟩ := h.step htarget hphi hsplit
    unfold importBlock
    rw [hremap, bind_some]
    exact importBlock_fused htarget hphi (by rw [hsplit]; simp) hstep

/-! ### The fused block -/

theorem place_injective {b target : Block} {x y : Ref} (hx : x ∈ target.statements)
    (h : place b target x = place b target y) : x = y :=
  (idxOf_inj hx).mp (Nat.add_left_cancel h)

theorem le_place (b target : Block) (r : Ref) : b.arenaSize ≤ place b target r := Nat.le_add_right _ _

namespace Fused

variable {b target b' : Block} {init : List Ref} {terminator : Ref} {μ : Type} (env : Environment μ)

section

variable (h : Fused b target init b')

include h

theorem embeds_init (hb : b.WellFormed) (hphi : b.NoPhi b.statements) (hinit : b.statements = init ++ [terminator]) :
    Embeds b b' init id := by
  have hsub : ∀ r ∈ init, r ∈ b.statements := fun r hr => by
    rw [hinit]
    exact mem_append_left _ hr
  refine ⟨fun r hr => ?_, fun r hr o ho => ?_, fun r hr => hphi r (hsub r hr)⟩
  · rw [Statement.map_id]
    exact h.old r (hb.bounded r (hsub r hr))
  · obtain ⟨done, rest, rfl⟩ := append_of_mem hr
    exact mem_append_left _ (hb.ordered done r (rest ++ [terminator]) (by rw [hinit]; simp) o ho)

theorem embeds_target (htarget : target.WellFormed) (hphi : target.NoPhi target.statements) :
    Embeds target b' target.statements (place b target) := by
  refine ⟨h.new, fun r hr o ho => ?_, hphi⟩
  obtain ⟨done, rest, hsplit⟩ := append_of_mem hr
  rw [hsplit]
  exact mem_append_left _ (htarget.ordered done r rest hsplit o ho)

theorem split (hsplit : b'.statements = done ++ r :: rest) :
    (∃ rest', init = done ++ r :: rest') ∨
      ∃ done' r' rest', target.statements = done' ++ r' :: rest' ∧ done = init ++ done'.map (place b target) ∧
        r = place b target r' := by
  have hcopied : ∀ copied : List Ref, done = init ++ copied →
      target.statements.map (place b target) = copied ++ r :: rest →
      ∃ done' r' rest', target.statements = done' ++ r' :: rest' ∧ done = init ++ done'.map (place b target) ∧
        r = place b target r' := by
    intro copied hdone hmap
    obtain ⟨done', tail, htarget, rfl, htail⟩ := map_eq_append_iff.mp hmap
    obtain ⟨r', rest', rfl, rfl, -⟩ := map_eq_cons_iff.mp htail
    exact ⟨done', r', rest', htarget, hdone, rfl⟩
  rw [h.statements] at hsplit
  rcases append_eq_append_iff.mp hsplit with ⟨copied, hdone, hmap⟩ | ⟨left, hinit, hmap⟩
  · exact .inr (hcopied copied hdone hmap)
  · cases left with
    | nil =>
      rw [append_nil] at hinit
      exact .inr (hcopied [] (by rw [hinit, append_nil]) hmap.symm)
    | cons r' rest' =>
      cases hmap
      exact .inl ⟨rest', hinit⟩

section

variable (hb : b.WellFormed) (hinit : b.statements = init ++ [terminator])

include hb hinit

theorem wellFormed (htarget : target.WellFormed) :
    b'.WellFormed := by
  have hbounded : ∀ r ∈ init, r < b.arenaSize := fun r hr => hb.bounded r (by
    rw [hinit]
    exact mem_append_left _ hr)
  refine ⟨?_, fun r hr => ?_, fun done r rest hsplit o ho => ?_⟩
  · rw [h.statements]
    refine List.Nodup.append ?_ (htarget.nodup.map_on fun x hx y _ heq => place_injective hx heq) ?_
    · have hnodup := hb.nodup
      rw [hinit] at hnodup
      exact hnodup.of_append_left
    · intro r hr hr'
      obtain ⟨x, -, rfl⟩ := mem_map.mp hr'
      exact absurd (hbounded _ hr) (Nat.not_lt.mpr (le_place b target x))
  · rw [h.statements] at hr
    rw [h.size]
    rcases mem_append.mp hr with hr | hr
    · exact Nat.lt_add_right _ (hbounded r hr)
    · obtain ⟨x, hx, rfl⟩ := mem_map.mp hr
      exact Nat.add_lt_add_left (idxOf_lt_length_iff.mpr hx) _
  · rcases h.split hsplit with ⟨rest', hrest⟩ | ⟨done', r', rest', hrest, rfl, rfl⟩
    · have hr : r < b.arenaSize := hbounded r (by rw [hrest]; simp)
      rw [h.old r hr] at ho
      exact hb.ordered done r (rest' ++ [terminator]) (by rw [hinit, hrest]; simp) o ho
    · rw [h.new r' (by rw [hrest]; simp), Statement.operands_map] at ho
      obtain ⟨x, hx, rfl⟩ := mem_map.mp ho
      exact mem_append_right _ (mem_map_of_mem (htarget.ordered done' r' rest' hrest x hx))

theorem cases (hr : r ∈ b'.statements) :
    (r ∈ b.statements ∧ b'.arena r = b.arena r) ∨
      ∃ r' ∈ target.statements, b'.arena r = (target.arena r').map (place b target) := by
  rw [h.statements] at hr
  rcases mem_append.mp hr with hr | hr
  · have hmem : r ∈ b.statements := by
      rw [hinit]
      exact mem_append_left _ hr
    exact .inl ⟨hmem, h.old r (hb.bounded r hmem)⟩
  · obtain ⟨x, hx, rfl⟩ := mem_map.mp hr
    exact .inr ⟨x, hx, h.new x hx⟩

theorem noPhi (hphi : b.NoPhi b.statements)
    (hphi' : target.NoPhi target.statements) : b'.NoPhi b'.statements := by
  intro r hr members heq
  rcases h.cases hb hinit hr with ⟨hr, harena⟩ | ⟨x, hx, harena⟩
  · exact hphi r hr members (harena.symm.trans heq)
  · rw [harena] at heq
    cases hs : target.arena x with
    | phiNode members => exact hphi' x hx members hs
    | _ =>
      rw [hs] at heq
      cases heq

theorem targets :
    ∀ t ∈ b'.targets, t ∈ b.targets ∨ t ∈ target.targets := by
  intro t ht
  obtain ⟨r, hr, htr⟩ := Block.mem_targets.mp ht
  rcases h.cases hb hinit hr with ⟨hr, harena⟩ | ⟨x, hx, harena⟩
  · rw [harena] at htr
    exact .inl (Block.mem_targets.mpr ⟨r, hr, htr⟩)
  · rw [harena, Statement.targets_map] at htr
    exact .inr (Block.mem_targets.mpr ⟨x, hx, htr⟩)

end

theorem terminatorStatement (htarget : target.statements ≠ []) :
    ∃ r ∈ target.statements, target.terminatorStatement = some r ∧
      b'.terminatorStatement = some (place b target r) := by
  refine ⟨target.statements.getLast htarget, getLast_mem htarget, List.getLast?_eq_some_getLast htarget, ?_⟩
  unfold Block.terminatorStatement
  rw [h.statements, List.getLast?_append_of_ne_nil _ (by simpa using htarget), List.getLast?_map,
    List.getLast?_eq_some_getLast htarget]
  rfl

/-- **The fused block does what the block and its target did together.** -/
theorem observeBlock (hb : b.WellFormed) (hphi : b.NoPhi b.statements) (hinit : b.statements = init ++ [terminator])
    {t : BlockRef} (hjump : b.arena terminator = .jump t) (htarget : target.WellFormed)
    (hphi' : target.NoPhi target.statements) (call : Observes μ) (locals : Locals) (flags : Nat) (s : Seen μ) :
    Rudder.observeBlock env call b' locals flags s = Rudder.observeBlock env call b locals flags s ∨
      ∃ locals1 flags1 s1, Rudder.observeBlock env call b locals flags s = .next t locals1 flags1 s1 ∧
        Rudder.observeBlock env call b' locals flags s = Rudder.observeBlock env call target locals1 flags1 s1 := by
  have hfirst := h.embeds_init hb hphi hinit
  have hsize : b.statements.length ≤ b'.arenaSize := by
    rw [h.size]
    exact Nat.le_trans hb.length_le (Nat.le_add_right _ _)
  have hsub : init ⊆ b.statements := fun r hr => by
    rw [hinit]
    exact mem_append_left _ hr
  have hsame : ∀ r ∈ init, ∀ fr s, observeStatement env call b' r fr s = observeStatement env call b r fr s :=
    fun r hr fr s => hfirst.observeStatement env (fun _ hx => hfirst.sourceTyp hb hphi hsub hsize hx)
      ⟨rfl, rfl, fun _ _ => rfl⟩ call hr s
  unfold Rudder.observeBlock
  rw [h.statements, hinit]
  rcases observeStatements_common env init (.enter locals flags) s hsame with
    ⟨o, hleft⟩ | ⟨fr1, s1, hvalues, hthen⟩
  · exact .inl ((hleft _).2.trans (hleft _).1.symm)
  · refine .inr ⟨fr1.locals, fr1.flags, s1, ?_, ?_⟩
    · rw [(hthen _).1]
      unfold observeStatements observeStatement
      rw [hjump]
      rfl
    · have hsecond := h.embeds_target htarget hphi'
      have hlength : target.statements.length ≤ b'.arenaSize := by
        rw [h.size]
        exact Nat.le_add_left _ _
      rw [(hthen _).2]
      refine hsecond.observeStatements env (fun _ hx => hsecond.sourceTyp htarget hphi' (fun _ hy => hy) hlength hx)
        (fun x hx y _ heq => place_injective hx heq) call (fun _ hx => hx) ⟨rfl, rfl, fun r _ => ?_⟩
      -- the new names have no value before the copied statements give them one
      exact hvalues _ fun hmem => absurd (hb.bounded _ (hsub hmem)) (Nat.not_lt.mpr (le_place b target r))

end

end Fused

/-! ### One block -/

/-- The block ends in an unconditional jump to the other. -/
def JumpsTo (f : Function) (b target : BlockRef) : Prop :=
  ∃ r, (f.block b).terminatorStatement = some r ∧ (f.block b).arena r = .jump target

/-- What a function has to be for the pass. -/
structure Ready (f : Function) : Prop where
  refs : f.RefsValid
  terminated : ∀ b < f.blockCount, (f.block b).statements ≠ []
  wellFormed : ∀ b < f.blockCount, (f.block b).WellFormed
  noPhi : ∀ b < f.blockCount, (f.block b).NoPhi (f.block b).statements
  acyclic : ∀ b < f.blockCount, ¬ TransGen (JumpsTo f) b b

/-- A block is fused with the one it jumps to. -/
structure Inlines (f : Function) (source : BlockRef) (f' : Function) : Prop where
  step : ∃ init terminator target b', (f.block source).statements = init ++ [terminator] ∧
    (f.block source).arena terminator = .jump target ∧ Fused (f.block source) (f.block target) init b' ∧
    f' = f.setBlock source b'

variable {b : BlockRef}

theorem Ready.target_lt (hf : Ready f) (hb : b < f.blockCount) (h : JumpsTo f b target) : target < f.blockCount := by
  obtain ⟨r, hr, hjump⟩ := h
  refine hf.refs.targets b hb target (Block.mem_targets.mpr ⟨r, mem_of_getLast? hr, ?_⟩)
  rw [hjump]
  exact mem_singleton_self target

/-- **What the pass does to a block**, and that it does not panic. -/
theorem runInlinerBlock_cases (hf : Ready f) (hb : b < f.blockCount) :
    runInlinerBlock f b = some (f, false) ∨ ∃ f', runInlinerBlock f b = some (f', true) ∧ Inlines f b f' := by
  obtain ⟨terminator, hterminator⟩ : ∃ r, (f.block b).terminatorStatement = some r :=
    ⟨_, List.getLast?_eq_some_getLast (hf.terminated b hb)⟩
  unfold runInlinerBlock
  rw [hterminator, bind_some]
  split
  · rename_i target harena
    split
    · exact .inl rfl
    · have hjumps : JumpsTo f b target := ⟨terminator, hterminator, harena⟩
      have htarget := hf.target_lt hb hjumps
      have hne : target ≠ b := by
        rintro rfl
        exact hf.acyclic target hb (.single hjumps)
      obtain ⟨init, hinit⟩ := List.getLast?_eq_some_iff.mp hterminator
      have hkilled : (killStatement (f.block b) terminator).statements = init := by
        have hnodup := (hf.wellFormed b hb).nodup
        change (f.block b).statements.erase terminator = init
        rw [hinit] at hnodup ⊢
        have hnotMem : terminator ∉ init := fun hmem =>
          disjoint_of_nodup_append hnodup hmem (mem_singleton_self terminator)
        rw [erase_append_right _ hnotMem, erase_cons_head, append_nil]
      have hstart : Importing (f.block b) (f.block target) init [] (fun _ => none)
          (killStatement (f.block b) terminator) :=
        ⟨rfl, by rw [hkilled]; simp, fun _ _ => rfl, fun _ h => absurd h not_mem_nil, fun _ => rfl⟩
      obtain ⟨b', himport, hfused⟩ :=
        importBlock_fused (hf.wellFormed target htarget) (hf.noPhi target htarget) (nil_append _).symm hstart
      refine .inr ⟨f.setBlock b b', ?_, init, terminator, target, b', hinit, harena, hfused, rfl⟩
      dsimp only
      rw [f.setBlock_block_of_ne _ hne, importStatements_eq hne, himport]
      rfl
  · exact .inl rfl

variable {μ : Type} (env : Environment μ)

theorem jumpsTo_of_split {init : List Ref} {terminator : Ref} (hinit : (f.block b).statements = init ++ [terminator])
    (harena : (f.block b).arena terminator = .jump target) : JumpsTo f b target :=
  ⟨terminator, List.getLast?_eq_some_iff.mpr ⟨init, hinit⟩, harena⟩

variable {f' : Function}

section

variable (hf : Ready f) (hb : b < f.blockCount) (h : Inlines f b f')

include hf hb h

theorem Inlines.fuses : Fuses env f f' := by
  obtain ⟨init, terminator, target, b', hinit, harena, hfused, rfl⟩ := h.step
  have htarget := hf.target_lt hb (jumpsTo_of_split hinit harena)
  intro call c locals flags s
  by_cases hc : c = b
  · subst hc
    rw [f.setBlock_block_self]
    rcases hfused.observeBlock env (hf.wellFormed c hb) (hf.noPhi c hb) hinit harena (hf.wellFormed target htarget)
      (hf.noPhi target htarget) call locals flags s with hsame | ⟨locals1, flags1, s1, hnext, hthen⟩
    · exact .inl hsame
    · exact .inr ⟨target, locals1, flags1, s1, hnext, hthen⟩
  · rw [f.setBlock_block_of_ne _ hc]
    exact .inl rfl

/-- **Inlining a block cannot be seen.** -/
theorem Inlines.unseen :
    Unseen env f f' := by
  obtain ⟨init, terminator, target, b', -, -, -, hf'⟩ := h.step
  refine .of_fuses env ?_ ?_ (h.fuses env hf hb)
  · rw [hf']
    rfl
  · rw [hf']
    rfl

/-- **The function stays ready**: a jump of the new function is a chain of jumps of the old one. -/
theorem Inlines.ready :
    Ready f' ∧ f'.blockCount = f.blockCount := by
  obtain ⟨init, terminator, target, b', hinit, harena, hfused, rfl⟩ := h.step
  have hjumps : JumpsTo f b target := jumpsTo_of_split hinit harena
  have htarget := hf.target_lt hb hjumps
  have hblock : ∀ {P : Block → Prop}, P b' → (∀ c < f.blockCount, P (f.block c)) →
      ∀ c < f.blockCount, P ((f.setBlock b b').block c) := by
    intro P hnew hold c hc
    by_cases hcb : c = b
    · rw [hcb, f.setBlock_block_self]
      exact hnew
    · rw [f.setBlock_block_of_ne _ hcb]
      exact hold c hc
  obtain ⟨last, hlast, htargetLast, hfusedLast⟩ := hfused.terminatorStatement (hf.terminated target htarget)
  have hwellFormed := hfused.wellFormed (hf.wellFormed b hb) hinit (hf.wellFormed target htarget)
  refine ⟨⟨⟨hf.refs.entry, hblock (P := fun c => ∀ t ∈ c.targets, t < f.blockCount) ?_ hf.refs.targets⟩,
    hblock (P := fun c => c.statements ≠ []) ?_ hf.terminated, hblock hwellFormed hf.wellFormed,
    hblock (P := fun c => c.NoPhi c.statements) ?_ hf.noPhi, fun c hc hcycle => ?_⟩, rfl⟩
  · intro t ht
    rcases hfused.targets (hf.wellFormed b hb) hinit t ht with ht | ht
    · exact hf.refs.targets b hb t ht
    · exact hf.refs.targets target htarget t ht
  · intro hnil
    rw [Block.terminatorStatement, hnil] at hfusedLast
    cases hfusedLast
  · exact hfused.noPhi (hf.wellFormed b hb) hinit (hf.noPhi b hb) (hf.noPhi target htarget)
  · have hchain : ∀ x y, JumpsTo (f.setBlock b b') x y → TransGen (JumpsTo f) x y := by
      rintro x y ⟨r, hr, hjump⟩
      by_cases hxb : x = b
      · subst hxb
        rw [f.setBlock_block_self] at hr hjump
        rw [hfusedLast] at hr
        cases hr
        rw [hfused.new last hlast] at hjump
        refine .head hjumps (.single ⟨last, htargetLast, ?_⟩)
        cases hs : (f.block target).arena last with
        | jump t =>
          rw [hs] at hjump
          cases hjump
          rfl
        | _ =>
          rw [hs] at hjump
          cases hjump
      · rw [f.setBlock_block_of_ne _ hxb] at hr hjump
        exact .single ⟨r, hr, hjump⟩
    have hcycle' : TransGen (JumpsTo f) c c := by
      refine TransGen.trans_induction_on (motive := fun {x y} _ => TransGen (JumpsTo f) x y) hcycle
        (fun h => hchain _ _ h) (fun _ _ h1 h2 => h1.trans h2)
    exact hf.acyclic c hc hcycle'

end

/-! ### The pass -/

theorem runInlinerBlocks_spec : ∀ {l : List BlockRef} {f : Function}, Ready f → (∀ b ∈ l, b < f.blockCount) →
    ∃ f' changed, runInlinerBlocks l f = some (f', changed) ∧ Unseen env f f' ∧ Ready f'
  | [], f, hf, _ => ⟨f, false, rfl, .refl env f, hf⟩
  | b :: rest, f, hf, hl => by
    have hb := hl b mem_cons_self
    have hrest : ∀ c ∈ rest, c < f.blockCount := fun c hc => hl c (mem_cons_of_mem b hc)
    rcases runInlinerBlock_cases hf hb with hrun | ⟨f1, hrun, hinlines⟩
    · obtain ⟨f2, changed, hrun2, hunseen, hready⟩ := runInlinerBlocks_spec hf hrest
      exact ⟨f2, _, forEach_cons hrun hrun2, hunseen, hready⟩
    · obtain ⟨hready1, hcount⟩ := hinlines.ready hf hb
      obtain ⟨f2, changed, hrun2, hunseen, hready⟩ :=
        runInlinerBlocks_spec hready1 fun c hc => (by rw [hcount]; exact hrest c hc)
      exact ⟨f2, _, forEach_cons hrun hrun2, (hinlines.unseen env hf hb).trans env hunseen, hready⟩

theorem run_spec (hf : Ready f) : ∃ f' changed, run f = some (f', changed) ∧ Unseen env f f' ∧ Ready f' :=
  runInlinerBlocks_spec env hf fun _ hb =>
    JumpThreading.reached_lt hf.refs ((Function.mem_blockIter_iff hf.refs).mp hb)

/-- **No number of runs of the block inliner can be seen.** -/
theorem blockInliner_unseen (f : Function) (hf : Ready f) (n : Nat) : ∃ f', runs n f = some f' ∧ Unseen env f f' := by
  induction n generalizing f with
  | zero => exact ⟨f, rfl, .refl env f⟩
  | succ n ih =>
    obtain ⟨f1, changed, hrun, hunseen, hready⟩ := run_spec env hf
    obtain ⟨f2, hruns, hunseen2⟩ := ih f1 hready
    refine ⟨f2, ?_, hunseen.trans env hunseen2⟩
    unfold runs
    rw [hrun]
    exact hruns

/-- A block that jumps to one that writes a variable and jumps to one that returns. -/
def writeBetween : Function where
  parameters := []
  localVariables := []
  blockCount := 3
  block
    | 0 => ⟨1, fun _ => .jump 1, [0]⟩
    | 1 =>
      ⟨3, fun
        | 0 => .constant (.unsignedInteger 7 64)
        | 1 => .writeVariable ⟨"x", .u 64⟩ 0
        | _ => .jump 2, [0, 1, 2]⟩
    | _ => ⟨1, fun _ => .return_ none, [0]⟩
  entryBlock := 0

theorem writeBetween_jumpsTo (h : JumpsTo writeBetween b target) : b < target := by
  obtain ⟨r, hr, hjump⟩ := h
  match b with
  | 0 =>
    cases hjump
    exact Nat.one_pos
  | 1 =>
    cases hr
    cases hjump
    exact Nat.one_lt_two
  | _ + 2 => cases hjump

theorem writeBetween_ready : Ready writeBetween := by
  have hblocks : ∀ {P : Block → Prop}, P (writeBetween.block 0) → P (writeBetween.block 1) →
      P (writeBetween.block 2) → ∀ b < writeBetween.blockCount, P (writeBetween.block b) := by
    intro P h0 h1 h2 b hb
    match b with
    | 0 => exact h0
    | 1 => exact h1
    | 2 => exact h2
    | b + 3 => exact absurd hb (Nat.not_lt.mpr (Nat.le_add_left 3 b))
  refine ⟨⟨by decide, ?_⟩, ?_, ?_, ?_, fun b _ hcycle => ?_⟩
  · exact hblocks (P := fun c => ∀ t ∈ c.targets, t < 3) (by decide) (by decide) (by decide)
  · exact hblocks (P := fun c => c.statements ≠ []) (by decide) (by decide) (by decide)
  · exact hblocks (Block.wellFormed_of_orderedFrom (by decide) (by decide) (by decide))
      (Block.wellFormed_of_orderedFrom (by decide) (by decide) (by decide))
      (Block.wellFormed_of_orderedFrom (by decide) (by decide) (by decide))
  · refine hblocks (P := fun c => c.NoPhi c.statements) ?_ ?_ ?_ <;> intro r hr members heq
    · cases heq
    · change r ∈ [0, 1, 2] at hr
      simp only [mem_cons, not_mem_nil, or_false] at hr
      rcases hr with rfl | rfl | rfl <;> cases heq
    · cases heq
  · have hlt : ∀ {x y : BlockRef}, TransGen (JumpsTo writeBetween) x y → x < y := by
      intro x y h
      induction h with
      | single h => exact writeBetween_jumpsTo h
      | tail _ h ih => exact Nat.lt_trans ih (writeBetween_jumpsTo h)
    exact Nat.lt_irrefl b (hlt hcycle)

theorem blockInliner_unseen_writeBetween : ∃ f', runs 2 writeBetween = some f' ∧ (f'.block 0).statements = [1, 2, 3] ∧
      (f'.block 0).arena 2 = .writeVariable ⟨"x", .u 64⟩ 1 ∧ (f'.block 0).arena 3 = .jump 2 ∧
      Unseen (μ := Unit) ⟨true, 0, [], 0, fun _ _ _ => none, fun _ _ _ => none, fun _ _ _ _ _ => none, fun _ => none,
        fun _ => none⟩ writeBetween f' := by
  obtain ⟨f', hruns, hunseen⟩ := blockInliner_unseen (μ := Unit)
    ⟨true, 0, [], 0, fun _ _ _ => none, fun _ _ _ => none, fun _ _ _ _ _ => none, fun _ => none, fun _ => none⟩
    writeBetween writeBetween_ready 2
  cases hruns
  exact ⟨_, rfl, rfl, rfl, rfl, hunseen⟩

end BlockInliner

end Icewind.Rudder
