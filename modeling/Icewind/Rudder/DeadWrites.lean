import Icewind.Rudder.DeadStatements
import Icewind.Rudder.UnusedParametersSound

/-!
# Dead write elimination

Model of `borealis/src/rudder/opt/dead_write_elimination.rs`.

* `killed`, `run` — the pass.
* `DeadWrite`, `withoutDeadWrites` — the writes to variables that are not read, and the function without them.
* `interpretStatements_drops` — leaving some of them out is not noticed.
* `deadWriteElimination_spec` — the pass removes them and nothing else, and keeps what calls return and do.
-/

namespace Icewind.Rudder.DeadWriteElimination

open List Option SymbolUseAnalysis DeadStmtElimination RemoveUnusedParameters

/-! ### The pass -/

/-- The variable has no reads, and is not the one for the result. -/
def Unread (f : Function) (name : String) : Prop := name ≠ "return" ∧ reads f name = []

instance (f : Function) (name : String) : Decidable (Unread f name) := inferInstanceAs (Decidable (_ ∧ _))

/-- The writes that the two loops come to, in whatever order the map gives the variables. -/
def killed (f : Function) : List (Ref × BlockRef) :=
  f.localVariables.flatMap fun symbol => if Unread f symbol.name then writes f symbol.name else []

/-- `kill_statement` for each of them; `none` is the `unwrap` in `index_of_statement`. -/
def killWrites : List (Ref × BlockRef) → Function → Option Function
  | [], f => some f
  | (write, b) :: rest, f =>
    if write ∈ (f.block b).statements then killWrites rest (f.setBlock b (killStatement (f.block b) write))
    else none

def run (f : Function) : Option (Function × Bool) := (killWrites (killed f) f).map (·, !(killed f).isEmpty)

/-! ### The writes that are removed -/

/-- Some statement that can be reached reads the variable. -/
def IsRead (f : Function) (name : String) : Prop :=
  ∃ b r symbol, f.Reached b ∧ r ∈ (f.block b).statements ∧ (f.block b).arena r = .readVariable symbol ∧
    symbol.name = name

/-- **A write that is removed**: one to a local variable that is not read and is not the one for the result. -/
structure DeadWrite (f : Function) (b : BlockRef) (r : Ref) : Prop where
  reached : f.Reached b
  listed : r ∈ (f.block b).statements
  write : ∃ symbol value, (f.block b).arena r = .writeVariable symbol value ∧ symbol.name ≠ "return" ∧
    symbol.name ∈ f.localVariables.map Symbol.name ∧ ¬ IsRead f symbol.name

open Classical in
/-- The function without these writes. -/
noncomputable def withoutDeadWrites (f : Function) : Function :=
  { f with block := fun b =>
    { f.block b with statements := (f.block b).statements.filter fun r => ¬ DeadWrite f b r } }

variable {f g : Function} {b : BlockRef} {p : Ref × BlockRef}

theorem reads_eq_nil_iff (hf : f.RefsValid) {name : String} : reads f name = [] ↔ ¬ IsRead f name := by
  rw [eq_nil_iff_forall_not_mem, ← not_exists]
  refine not_congr ⟨?_, ?_⟩
  · rintro ⟨⟨r, b⟩, hmem⟩
    obtain ⟨hb, hr, hreads⟩ := mem_statementsWith.mp hmem
    refine ⟨b, r, ?_⟩
    cases hs : (f.block b).arena r <;> rw [hs] at hreads <;> first | exact absurd hreads id | skip
    exact ⟨_, (Function.mem_blockIter_iff hf).mp hb, hr, rfl, hreads⟩
  · rintro ⟨b, r, symbol, hb, hr, harena, hname⟩
    refine ⟨(r, b), mem_statementsWith.mpr ⟨(Function.mem_blockIter_iff hf).mpr hb, hr, ?_⟩⟩
    rw [harena]
    exact hname

theorem mem_writes_iff (hf : f.RefsValid) {name : String} : p ∈ writes f name ↔ f.Reached p.2 ∧
    p.1 ∈ (f.block p.2).statements ∧
    ∃ symbol value, (f.block p.2).arena p.1 = .writeVariable symbol value ∧ symbol.name = name := by
  refine mem_statementsWith.trans (and_congr (Function.mem_blockIter_iff hf) (and_congr_right fun _ => ⟨fun h => ?_, ?_⟩))
  · cases hs : (f.block p.2).arena p.1 <;> rw [hs] at h <;> first | exact absurd h id | skip
    exact ⟨_, _, rfl, h⟩
  · rintro ⟨symbol, value, harena, hname⟩
    rw [harena]
    exact hname

/-- **What the loops come to are the dead writes.** -/
theorem mem_killed_iff (hf : f.RefsValid) : p ∈ killed f ↔ DeadWrite f p.2 p.1 := by
  rw [killed, mem_flatMap]
  constructor
  · rintro ⟨symbol, hsymbol, hp⟩
    split at hp
    · rename_i hunread
      obtain ⟨hb, hr, written, value, harena, hname⟩ := (mem_writes_iff hf).mp hp
      rw [← hname] at hunread
      exact ⟨hb, hr, written, value, harena, hunread.1, hname ▸ mem_map_of_mem hsymbol,
        (reads_eq_nil_iff hf).mp hunread.2⟩
    · cases hp
  · rintro ⟨hb, hr, symbol, value, harena, hreturn, hlocal, hread⟩
    obtain ⟨known, hknown, hname⟩ := mem_map.mp hlocal
    refine ⟨known, hknown, ?_⟩
    rw [hname, if_pos ⟨hreturn, (reads_eq_nil_iff hf).mpr hread⟩]
    exact (mem_writes_iff hf).mpr ⟨hb, hr, symbol, value, harena, rfl⟩

/-- No statement is killed twice. -/
theorem killed_nodup (hf : f.RefsValid) (hnames : (f.localVariables.map Symbol.name).Nodup)
    (hnodup : ∀ b, (f.block b).statements.Nodup) : (killed f).Nodup := by
  refine nodup_flatMap.mpr ⟨fun symbol _ => ?_, (pairwise_map.mp hnames).imp fun hne p hp hp' => ?_⟩
  · split
    · refine nodup_flatMap.mpr ⟨fun b _ => ((hnodup b).filter _).map fun _ _ h => congrArg Prod.fst h,
        f.blockIter_nodup.imp fun hne p hp hp' => ?_⟩
      obtain ⟨_, -, rfl⟩ := mem_map.mp hp
      obtain ⟨_, -, hp'⟩ := mem_map.mp hp'
      exact hne (congrArg Prod.snd hp').symm
    · exact nodup_nil
  · dsimp only at hp hp'
    split at hp <;> split at hp' <;> first | cases hp | cases hp' | skip
    obtain ⟨-, -, _, _, harena, hname⟩ := (mem_writes_iff hf).mp hp
    obtain ⟨-, -, _, _, harena', hname'⟩ := (mem_writes_iff hf).mp hp'
    cases harena.symm.trans harena'
    exact hne (hname.symm.trans hname')

/-- **Killing different statements that are there does not panic**, and leaves out these and no others. -/
theorem killWrites_eq : ∀ {l : List (Ref × BlockRef)} {g : Function}, l.Nodup →
    (∀ b, (g.block b).statements.Nodup) → (∀ p ∈ l, p.1 ∈ (g.block p.2).statements) →
    killWrites l g = some { g with block := fun b =>
      { g.block b with statements := (g.block b).statements.filter fun r => (r, b) ∉ l } }
  | [], g, _, _, _ => by simp [killWrites]
  | (r, b) :: l, g, hnodup, hg, hmem => by
    obtain ⟨hr, hnodup⟩ := nodup_cons.mp hnodup
    obtain ⟨hfirst, hmem⟩ := forall_mem_cons.mp hmem
    have hblock : ∀ c, (g.setBlock b (killStatement (g.block b) r)).block c =
        { g.block c with statements := (g.block c).statements.filter fun x => (x, c) ≠ (r, b) } := by
      intro c
      by_cases hc : c = b
      · subst hc
        rw [g.setBlock_block_self, killStatement, (hg c).erase_eq_filter]
        congr 1
        exact filter_congr fun x _ => by by_cases hx : x = r <;> simp [hx]
      · rw [g.setBlock_block_of_ne _ hc, filter_eq_self.mpr (by simp [hc])]
    rw [killWrites, if_pos hfirst, killWrites_eq hnodup (fun c => ?_) fun p hp => ?_]
    · refine congrArg (fun block => some { g with block := block }) (funext fun c => ?_)
      dsimp only
      rw [hblock, List.filter_filter]
      congr 1
      exact filter_congr fun x _ => by simp [and_comm]
    · rw [hblock]
      exact (hg c).filter _
    · rw [hblock]
      refine mem_filter.mpr ⟨hmem p hp, decide_eq_true fun h : (p.1, p.2) = (r, b) => hr ?_⟩
      rw [← h]
      exact hp

theorem run_eq (hf : f.RefsValid) (hnames : (f.localVariables.map Symbol.name).Nodup)
    (hnodup : ∀ b, (f.block b).statements.Nodup) : run f = some (withoutDeadWrites f, !(killed f).isEmpty) := by
  have hfilter : ∀ b, ((f.block b).statements.filter fun r => (r, b) ∉ killed f) =
      ((withoutDeadWrites f).block b).statements := fun b =>
    filter_congr fun r _ => decide_eq_decide.mpr (not_congr (mem_killed_iff (p := (r, b)) hf))
  rw [run, killWrites_eq (killed_nodup hf hnames hnodup) hnodup fun p hp => ((mem_killed_iff hf).mp hp).listed]
  simp only [hfilter]
  rfl

/-! ### What is kept -/

/-- The variables that the function reads have the same values. -/
def Agree (f : Function) (locals locals' : Locals) : Prop := ∀ name, IsRead f name → locals' name = locals name

variable {μ : Type} (env : Environment μ) {call : Calls μ} {sourceTyp : Option Typ} {locals locals' : Locals}
  {flags : Nat} {st : State μ}

theorem exec_agree (h : Agree f locals locals') {s : Statement (Option Value)} {step : Step μ}
    (hreads : ∀ name, s.Reads name → IsRead f name)
    (hexec : exec env call sourceTyp locals flags st s = some step) :
    ∃ locals1, exec env call sourceTyp locals' flags st s = some (Step.withLocals locals1 step) ∧
      ∀ value l fl st', step = .next value l fl st' → Agree f l locals1 := by
  by_cases hwrite : ∃ symbol value, s = .writeVariable symbol value
  · obtain ⟨symbol, value, rfl⟩ := hwrite
    obtain ⟨v, rfl, hexec⟩ := bind_eq_some_iff.mp hexec
    cases hexec
    refine ⟨Function.update locals' symbol.name (some v), rfl, ?_⟩
    rintro _ _ _ _ ⟨⟩ name hname
    by_cases hne : name = symbol.name
    · simp [hne]
    · simp [hne, h name hname]
  have hwrite' : ∀ symbol value, s ≠ .writeVariable symbol value := fun symbol value heq => hwrite ⟨symbol, value, heq⟩
  have hsame : exec env call sourceTyp locals' flags st s =
      (exec env call sourceTyp locals flags st s).map (Step.withLocals locals') := by
    by_cases hread : ∃ symbol, s = .readVariable symbol
    · obtain ⟨symbol, rfl⟩ := hread
      simp only [exec]
      rw [h symbol.name (hreads symbol.name rfl)]
      cases locals symbol.name <;> rfl
    · exact exec_withLocals env locals locals' (fun symbol heq => hread ⟨symbol, heq⟩) hwrite'
  refine ⟨locals', by rw [hsame, hexec]; rfl, ?_⟩
  rintro value l fl st' rfl
  rcases (exec_next env hexec).1 with ⟨symbol, v, heq, -⟩ | ⟨-, rfl⟩
  · exact absurd heq (hwrite' symbol _)
  · exact h

/-- **Dropping the writes is not noticed.** -/
theorem interpretStatements_drops (hb : f.Reached b) {l l' : List Ref} (h : Drops (DeadWrite f b) l l') :
    l ⊆ (f.block b).statements → ∀ (fr : Frame) {locals' : Locals} {st : State μ} {result : BlockResult μ},
    Agree f fr.locals locals' → interpretStatements env call (f.block b) l fr st = some result →
    ∃ result', interpretStatements env call (f.block b) l' { fr with locals := locals' } st = some result' ∧
      result.Related (fun _ locals flags locals' flags' => Agree f locals locals' ∧ flags' = flags) result' := by
  induction h with
  | nil =>
    intro _ _ _ _ _ _ hrun
    cases hrun
  | @keep r l l' _ ih =>
    intro hl fr locals' st result hagree hrun
    obtain ⟨hr, hl⟩ := cons_subset.mp hl
    have hreads : ∀ name, (((f.block b).arena r).map fr.values).Reads name → IsRead f name := by
      intro name hread
      cases hs : (f.block b).arena r <;> rw [hs] at hread <;> first | exact absurd hread id | skip
      exact ⟨b, r, _, hb, hr, hs, hread⟩
    unfold interpretStatements at hrun ⊢
    cases hexec : execIn env call (f.block b) r fr st with
    | none => simp [hexec] at hrun
    | some step =>
      obtain ⟨locals1, hexec', hnext⟩ := exec_agree env hagree hreads hexec
      rw [hexec] at hrun
      rw [show execIn env call (f.block b) r { fr with locals := locals' } st = _ from hexec']
      cases step with
      | next value locals2 flags2 st2 => exact ih hl _ (hnext _ _ _ _ rfl) hrun
      | goto target =>
        cases hrun
        exact ⟨_, rfl, rfl, rfl, hagree, rfl⟩
      | return_ value =>
        cases hrun
        exact ⟨_, rfl, rfl, rfl⟩
  | @drop r l l' hdead _ ih =>
    intro hl fr locals' st result hagree hrun
    obtain ⟨symbol, value, harena, -, -, hread⟩ := hdead.write
    rw [interpretStatements, execIn, harena] at hrun
    cases hvalue : fr.values value with
    | none => simp [Statement.map, exec, hvalue] at hrun
    | some v =>
      simp only [Statement.map, exec, hvalue, bind_eq_bind, bind_some] at hrun
      refine ih (cons_subset.mp hl).2 (fr.next r none (Function.update _ _ _) _) (fun name hname => ?_) hrun
      have hne : name ≠ symbol.name := fun heq => hread (heq ▸ hname)
      simp [Frame.next, hne, hagree name hname]

theorem withoutDeadWrites_simulates : Simulates env f (withoutDeadWrites f) := by
  intro M name hlookup
  have hsim : FunctionSim env (fun _ => True) f (withoutDeadWrites f) fun b locals flags locals' flags' =>
      f.Reached b ∧ Agree f locals locals' ∧ flags' = flags := by
    refine ⟨rfl, fun arguments => ⟨.refl, fun _ _ => rfl, rfl⟩, ?_⟩
    rintro call call' - hcall b locals _ locals' flags st result ⟨hb, hagree, rfl⟩ hrun
    have hdrops : Drops (DeadWrite f b) (f.block b).statements ((withoutDeadWrites f).block b).statements :=
      .filter fun r _ h => by simpa using h
    obtain ⟨result', hrun', hrelated⟩ := interpretStatements_drops env hb hdrops (fun _ hx => hx)
      (.enter locals flags) hagree (interpretBlock_refines env hcall hrun)
    have harena : ((withoutDeadWrites f).block b).arena = (f.block b).arena := rfl
    refine ⟨result', by rw [interpretBlock, interpretStatements_of_arena_eq env harena rfl]; exact hrun', ?_⟩
    cases result with
    | nextBlock target locals1 flags1 st1 =>
      cases result' with
      | nextBlock target' locals2 flags2 st2 =>
        exact ⟨hrelated.1, hrelated.2.1, hb.tail
          (interpretStatements_target env _ _ _ _ _ _ _ (fun _ h => h) hrun), hrelated.2.2⟩
      | returnValue => exact absurd hrelated id
    | returnValue value st1 => cases result' <;> exact hrelated
  exact refines_put env (fun _ => trivial) hlookup hsim

/-- **Dead write elimination does not panic, removes the dead writes and no other statement, reports whether there was
one, and keeps what calls return and do.** -/
theorem deadWriteElimination_spec (f : Function) (hf : f.RefsValid)
    (hnames : (f.localVariables.map Symbol.name).Nodup) (hnodup : ∀ b, (f.block b).statements.Nodup) :
    ∃ changed, run f = some (withoutDeadWrites f, changed) ∧ (changed = true ↔ ∃ b r, DeadWrite f b r) ∧
      Simulates env f (withoutDeadWrites f) := by
  refine ⟨_, run_eq hf hnames hnodup, ?_, withoutDeadWrites_simulates env⟩
  rw [Bool.not_eq_true', isEmpty_eq_false_iff_exists_mem]
  exact ⟨fun ⟨p, hp⟩ => ⟨p.2, p.1, (mem_killed_iff hf).mp hp⟩, fun ⟨b, r, h⟩ => ⟨(r, b), (mem_killed_iff hf).mpr h⟩⟩

/-- A write to `x`, which is not read. -/
def writeUnread : Function where
  parameters := []
  localVariables := [⟨"x", .u 64⟩]
  blockCount := 1
  block _ := ⟨3, fun
    | 0 => .constant (.unsignedInteger 7 64)
    | 1 => .writeVariable ⟨"x", .u 64⟩ 0
    | _ => .return_ (some 0), [0, 1, 2]⟩
  entryBlock := 0

theorem deadWriteElimination_spec_writeUnread : run writeUnread = some (withoutDeadWrites writeUnread, true) ∧
    DeadWrite writeUnread 0 1 ∧ ((withoutDeadWrites writeUnread).block 0).statements = [0, 2] ∧
    Simulates atomicEnvironment writeUnread (withoutDeadWrites writeUnread) := by
  have hf : writeUnread.RefsValid :=
    ⟨by decide, fun _ _ t ht => absurd (show t ∈ ([] : List BlockRef) from ht) not_mem_nil⟩
  obtain ⟨changed, hrun, -, hsim⟩ := deadWriteElimination_spec atomicEnvironment writeUnread hf (by decide)
    fun _ => (by decide : [0, 1, 2].Nodup)
  have hdead : DeadWrite writeUnread 0 1 := (mem_killed_iff (p := (1, 0)) hf).mp (by decide)
  obtain ⟨hfunction, rfl⟩ := Prod.mk.inj (some.inj hrun)
  rw [← hfunction] at hsim ⊢
  exact ⟨rfl, hdead, rfl, hsim⟩

end Icewind.Rudder.DeadWriteElimination
