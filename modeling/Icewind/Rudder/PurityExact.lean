import Icewind.Rudder.Purity

/-!
# Purity analysis finds exactly the pure functions

* `Model.CallsTo` — a statement in a reachable block of the one function calls the other.
* `Model.Clean` — following calls no impure statement, no intrinsic and no cycle is reached.
* `determinePurityRecursive_exact` — an answer is final, whatever functions are being looked at when it is given:
  each of them reaches the one that is answered for.
* `new_exact` — a function is found pure if and only if it is clean, for every order of the functions.
-/

namespace Icewind.Rudder

open Relation List

/-! ### Blocks that can be reached -/

namespace Function

/-- A statement of a block that can be reached. -/
def Contains (f : Function) (s : Statement Ref) : Prop :=
  ∃ b, f.Reached b ∧ ∃ r ∈ (f.block b).statements, (f.block b).arena r = s

theorem mem_reachableStatements_iff {f : Function} (hf : f.RefsValid) {s : Statement Ref} :
    s ∈ f.reachableStatements ↔ f.Contains s := by
  unfold reachableStatements Contains
  rw [mem_flatMap]
  refine exists_congr fun b => and_congr (mem_blockIter_iff hf) ?_
  rw [mem_map]

end Function

/-! ### What purity is -/

/-- The statements classified as impure. -/
def Statement.Impure {ρ : Type} : Statement ρ → Prop
  | .writeMemory _ _ | .writePc _ | .writeRegister _ _ | .readMemory _ _ => True
  | _ => False

variable {M : Model} {name : String}

namespace Model

/-- A statement that can be reached in the function calls the target. -/
def CallsTo (M : Model) (name target : String) : Prop :=
  ∃ f args returnType, M.lookup name = some f ∧ f.Contains (.call target args returnType)

/-- **Following calls from the function, no impure statement, no intrinsic and no cycle is reached.** -/
def Clean (M : Model) (name : String) : Prop :=
  ∀ n, ReflTransGen M.CallsTo name n →
    n ∉ intrinsics ∧ (∀ f, M.lookup n = some f → ∀ s, f.Contains s → ¬ s.Impure) ∧ ¬ TransGen M.CallsTo n n

variable {name target : String}

theorem Clean.callee (h : M.Clean name) (hcall : M.CallsTo name target) :
    M.Clean target := fun n hn => h n (.head hcall hn)

/-- A function is clean if its own statements and its callees are. -/
theorem clean_of_callees {f : Function} (hf : M.lookup name = some f) (hintrinsic : name ∉ intrinsics)
    (hstatements : ∀ s, f.Contains s → ¬ s.Impure) (hcallees : ∀ target, M.CallsTo name target → M.Clean target) :
    M.Clean name := by
  intro n hn
  rcases ReflTransGen.cases_head hn with rfl | ⟨target, hcall, hrest⟩
  · refine ⟨hintrinsic, fun g hg => ?_, fun hcycle => ?_⟩
    · rw [hf] at hg
      cases hg
      exact hstatements
    · -- a cycle through the function is one through a callee
      obtain ⟨target, hcall, hback⟩ := TransGen.head'_iff.mp hcycle
      exact (hcallees target hcall target .refl).2.2 (.tail' hback hcall)
  · exact hcallees target hcall n hrest

/-- Every call in a reachable block is to a function of the model or to an intrinsic. -/
def CallsKnown (M : Model) : Prop :=
  ∀ name target, M.CallsTo name target → (M.lookup target).isSome ∨ target ∈ intrinsics

end Model

/-! ### The analysis -/

namespace PurityAnalysis

/-- All answers so far are right, and intrinsics have one. -/
structure Verdicts (M : Model) (table : Table) : Prop where
  right : ∀ name isPure, table name = some isPure → (isPure = true ↔ M.Clean name)
  intrinsic : ∀ name ∈ intrinsics, (table name).isSome

/-- No answer is lost. -/
def Table.Grows (table table' : Table) : Prop := ∀ name, (table name).isSome → (table' name).isSome

/-- What a call of the analysis for a function gives, with right answers in the table. -/
structure Answers (M : Model) (table : Table) (name : String) (isPure : Bool) (table' : Table) : Prop where
  answer : table' name = some isPure
  verdicts : Verdicts M table'
  grows : table.Grows table'

/-- A statement that keeps the analysis going, for a function whose callees are determined so. -/
def Fine (M : Model) : Statement Ref → Prop
  | .call target _ _ => M.Clean target
  | s => ¬ s.Impure

/-- A statement at which the analysis stops, with the functions on the stack. -/
def Stops (M : Model) (seen : List String) : Statement Ref → Prop
  | .call target _ _ => target ∈ seen ∨ ¬ M.Clean target
  | s => s.Impure

/-- The analysis comes to the end of the statements of a function: all are fine, or there is one at which it stops. -/
def Scans (M : Model) (determine : Table → String → Option (Bool × Table)) (seen : List String)
    (l : List (Statement Ref)) (table : Table) : Prop :=
  ∃ isPure table', allPure determine seen l table = some (isPure, table') ∧ Verdicts M table' ∧
    table.Grows table' ∧ (isPure = true → ∀ s ∈ l, Fine M s) ∧ (isPure = false → ∃ s ∈ l, Stops M seen s)

variable {seen : List String}

theorem allPure_exact {determine : Table → String → Option (Bool × Table)} :
    ∀ {l : List (Statement Ref)} {table : Table}, Verdicts M table →
      (∀ target args returnType, .call target args returnType ∈ l → target ∉ seen → ∀ table, Verdicts M table →
        ∃ isPure table', determine table target = some (isPure, table') ∧ Answers M table target isPure table') →
      Scans M determine seen l table
  | [], table, hverdicts, _ =>
    ⟨true, table, rfl, hverdicts, fun _ h => h, fun _ s hs => (by cases hs), fun h => (by cases h)⟩
  | s :: rest, table, hverdicts, hdetermine => by
    have hrest := fun target args returnType h => hdetermine target args returnType (mem_cons_of_mem s h)
    -- a statement that stops the loop, and one that does not
    have hstop : Stops M seen s → allPure determine seen (s :: rest) table = some (false, table) →
        Scans M determine seen (s :: rest) table := fun hs h =>
      ⟨false, table, h, hverdicts, fun _ h => h, fun h => (by cases h), fun _ => ⟨s, mem_cons_self, hs⟩⟩
    have hgo : ∀ table1, Verdicts M table1 → table.Grows table1 → Fine M s →
        allPure determine seen (s :: rest) table = allPure determine seen rest table1 →
        Scans M determine seen (s :: rest) table := fun table1 hverdicts1 hgrows hs h => by
      obtain ⟨isPure, table', hall, hverdicts', hgrows', hfine, hstops⟩ := allPure_exact hverdicts1 hrest
      refine ⟨isPure, table', h.trans hall, hverdicts', fun n hn => hgrows' n (hgrows n hn), fun hp t ht => ?_,
        fun hp => ?_⟩
      · rcases mem_cons.mp ht with rfl | ht
        · exact hs
        · exact hfine hp t ht
      · obtain ⟨t, ht, hts⟩ := hstops hp
        exact ⟨t, mem_cons_of_mem s ht, hts⟩
    cases s with
    | call target args returnType =>
      by_cases hseen : target ∈ seen
      · exact hstop (.inl hseen) (if_pos hseen)
      · obtain ⟨isPure, table1, hd, hanswers⟩ :=
          hdetermine target args returnType mem_cons_self hseen table hverdicts
        have hright := hanswers.verdicts.right target isPure hanswers.answer
        cases isPure with
        | true =>
          refine hgo table1 hanswers.verdicts hanswers.grows (hright.mp rfl) ?_
          simp only [allPure, if_neg hseen, hd]
        | false =>
          have hnot : ¬ M.Clean target := fun h => (by cases hright.mpr h)
          refine ⟨false, table1, ?_, hanswers.verdicts, hanswers.grows, fun h => (by cases h),
            fun _ => ⟨_, mem_cons_self, .inr hnot⟩⟩
          simp only [allPure, if_neg hseen, hd]
    | writeMemory | writePc | writeRegister | readMemory => exact hstop trivial rfl
    | _ => exact hgo table hverdicts (fun _ h => h) (fun h => h) rfl

/-- The functions on the stack are distinct functions of the model, and each reaches the one that is looked at
next. -/
structure Stack (M : Model) (seen : List String) (name : String) : Prop where
  nodup : seen.Nodup
  known : ∀ n ∈ seen, (M.lookup n).isSome
  reaches : ∀ n ∈ seen, ReflTransGen M.CallsTo n name

theorem lookup_isSome_mem (h : (M.lookup name).isSome) : name ∈ M.map Prod.fst := by
  obtain ⟨f, hf⟩ := Option.isSome_iff_exists.mp h
  obtain ⟨l1, l2, hM, -⟩ := lookup_eq_some_iff.mp hf
  rw [hM]
  simp

theorem Stack.length_le (h : Stack M seen name) : seen.length ≤ M.length := by
  have hsub : seen ⊆ M.map Prod.fst := fun n hn => lookup_isSome_mem (h.known n hn)
  have hle := (h.nodup.subperm hsub).length_le
  rw [length_map] at hle
  exact hle

/-- **An answer is right, although it may have been given while other functions were being looked at.** -/
theorem determinePurityRecursive_exact (hrefs : ∀ name f, M.lookup name = some f → f.RefsValid)
    (hcalls : M.CallsKnown) : ∀ (fuel : Nat) {seen : List String} {table : Table} {name : String},
    Stack M seen name → name ∉ seen → M.length < fuel + seen.length → Verdicts M table →
    (table name).isSome ∨ (M.lookup name).isSome →
    ∃ isPure table', determinePurityRecursive M fuel seen table name = some (isPure, table') ∧
      Answers M table name isPure table'
  | 0, seen, _, _, hstack, _, hfuel, _, _ => by
    have hle := hstack.length_le
    omega
  | fuel + 1, seen, table, name, hstack, hname, hfuel, hverdicts, hknown => by
    cases htable : table name with
    | some isPure =>
      refine ⟨isPure, table, ?_, htable, hverdicts, fun _ h => h⟩
      rw [determinePurityRecursive, htable]
    | none =>
      have hsome : (M.lookup name).isSome := by
        rcases hknown with h | h
        · rw [htable] at h
          cases h
        · exact h
      obtain ⟨f, hf⟩ := Option.isSome_iff_exists.mp hsome
      have hmem : ∀ s, s ∈ f.reachableStatements ↔ f.Contains s :=
        fun s => f.mem_reachableStatements_iff (hrefs name f hf)
      have hcallsTo : ∀ target args returnType, .call target args returnType ∈ f.reachableStatements →
          M.CallsTo name target := fun target args returnType h => ⟨f, args, returnType, hf, (hmem _).mp h⟩
      have hdetermine : ∀ target args returnType, .call target args returnType ∈ f.reachableStatements →
          target ∉ name :: seen → ∀ table, Verdicts M table → ∃ isPure table',
            determinePurityRecursive M fuel (name :: seen) table target = some (isPure, table') ∧
              Answers M table target isPure table' := by
        intro target args returnType hcall htarget table hverdicts
        have hto := hcallsTo target args returnType hcall
        refine determinePurityRecursive_exact hrefs hcalls fuel ⟨nodup_cons.mpr ⟨hname, hstack.nodup⟩, ?_, ?_⟩
          htarget (by rw [length_cons]; omega) hverdicts ?_
        · intro n hn
          rcases mem_cons.mp hn with rfl | hn
          · exact hsome
          · exact hstack.known n hn
        · intro n hn
          rcases mem_cons.mp hn with rfl | hn
          · exact .single hto
          · exact (hstack.reaches n hn).tail hto
        · rcases hcalls name target hto with h | h
          · exact .inr h
          · exact .inl (hverdicts.intrinsic target h)
      obtain ⟨isPure, table1, hall, hverdicts1, hgrows, hfine, hstops⟩ := allPure_exact hverdicts hdetermine
      have hintrinsic : name ∉ intrinsics := fun h => by
        have := hverdicts.intrinsic name h
        rw [htable] at this
        cases this
      have hright : isPure = true ↔ M.Clean name := by
        refine ⟨fun hp => ?_, fun hclean => ?_⟩
        · refine Model.clean_of_callees hf hintrinsic (fun s hs => ?_) fun target hto => ?_
          · have := hfine hp s ((hmem s).mpr hs)
            cases s <;> first | exact this | exact fun h => h
          · obtain ⟨g, args, returnType, hg, hs⟩ := hto
            rw [hf] at hg
            cases hg
            exact hfine hp _ ((hmem _).mpr hs)
        · by_contra hp
          obtain ⟨s, hs, hstop⟩ := hstops (Bool.eq_false_iff.mpr hp)
          cases s with
          | call target args returnType =>
            have hto := hcallsTo target args returnType hs
            rcases hstop with hseen | hnot
            · -- the callee is on the stack, and so reaches its caller
              have hback : ReflTransGen M.CallsTo target name := by
                rcases mem_cons.mp hseen with rfl | hseen
                · exact .refl
                · exact hstack.reaches target hseen
              exact (hclean name .refl).2.2 (.head' hto hback)
            · exact hnot (hclean.callee hto)
          | _ => exact (hclean name .refl).2.1 f hf _ ((hmem _).mp hs) hstop
      refine ⟨isPure, Function.update table1 name (some isPure), ?_, Function.update_self .., ⟨?_, ?_⟩, ?_⟩
      · rw [determinePurityRecursive, htable]
        rw [hf]
        dsimp only
        rw [hall]
        rfl
      · intro n p hn
        by_cases hne : n = name
        · subst hne
          rw [Function.update_self] at hn
          cases hn
          exact hright
        · rw [Function.update_of_ne hne] at hn
          exact hverdicts1.right n p hn
      · intro n hn
        have hne : n ≠ name := fun h => hintrinsic (h ▸ hn)
        rw [Function.update_of_ne hne]
        exact hverdicts1.intrinsic n hn
      · intro n hn
        by_cases hne : n = name
        · subst hne
          rw [Function.update_self]
          rfl
        · rw [Function.update_of_ne hne]
          exact hgrows n hn

theorem determineAll_exact (hrefs : ∀ name f, M.lookup name = some f → f.RefsValid) (hcalls : M.CallsKnown) :
    ∀ {names : List String} {table : Table}, Verdicts M table →
    (∀ n ∈ names, (M.lookup n).isSome) →
    ∃ table', determineAll M names table = some table' ∧ Verdicts M table' ∧ table.Grows table' ∧
      ∀ n ∈ names, (table' n).isSome
  | [], table, hverdicts, _ => ⟨table, rfl, hverdicts, fun _ h => h, fun _ h => (by cases h)⟩
  | name :: names, table, hverdicts, hnames => by
    have hstack : Stack M [] name := ⟨nodup_nil, fun _ h => (by cases h), fun _ h => (by cases h)⟩
    obtain ⟨isPure, table1, hd, hanswers⟩ := determinePurityRecursive_exact hrefs hcalls (M.length + 1)
      hstack (by simp) (by simp) hverdicts (.inr (hnames name mem_cons_self))
    obtain ⟨table', hall, hverdicts', hgrows, hsome⟩ := determineAll_exact hrefs hcalls hanswers.verdicts
      fun n hn => hnames n (mem_cons_of_mem _ hn)
    refine ⟨table', ?_, hverdicts', fun n hn => hgrows n (hanswers.grows n hn), fun n hn => ?_⟩
    · unfold determineAll
      rw [hd]
      exact hall
    · rcases mem_cons.mp hn with rfl | hn
      · refine hgrows n ?_
        rw [hanswers.answer]
        rfl
      · exact hsome n hn

/-- **The analysis ends, and it finds a function pure if and only if no impure statement, no intrinsic and no
cycle is reached from it; for every order of the functions.** -/
theorem new_exact (M : Model) (names : List String) (hrefs : ∀ name f, M.lookup name = some f → f.RefsValid)
    (hcalls : M.CallsKnown) (hnames : ∀ n, n ∈ names ↔ (M.lookup n).isSome) :
    ∃ table, new M names = some table ∧ ∀ name, (M.lookup name).isSome →
      ∃ isPure, table name = some isPure ∧ (isPure = true ↔ M.Clean name) := by
  have hverdicts : Verdicts M fun name => if name ∈ intrinsics then some false else none := by
    refine ⟨fun name isPure h => ?_, fun name h => ?_⟩
    · split at h
      · rename_i hname
        cases h
        exact ⟨fun h => (by cases h), fun h => absurd hname (h name .refl).1⟩
      · cases h
    · rw [if_pos h]
      rfl
  obtain ⟨table, hall, hright, -, hsome⟩ :=
    determineAll_exact hrefs hcalls hverdicts fun n hn => (hnames n).mp hn
  refine ⟨table, hall, fun name hname => ?_⟩
  obtain ⟨isPure, hpure⟩ := Option.isSome_iff_exists.mp (hsome name ((hnames name).mpr hname))
  exact ⟨isPure, hpure, hright.right name isPure hpure⟩

/-- A function that calls another one and returns. -/
def calling (target : String) : Function :=
  ⟨[], [], 1, fun _ => ⟨2, fun r => if r = 0 then .call target [] none else .return_ none, [0, 1]⟩, 0⟩

/-- Two functions that call each other are both found impure, in either order. -/
theorem new_exact_cycle :
    ∃ table, new [("f", calling "g"), ("g", calling "f")] ["g", "f"] = some table ∧ table "f" = some false ∧
      ¬ Model.Clean [("f", calling "g"), ("g", calling "f")] "f" := by
  have hlookup : ∀ name f, [("f", calling "g"), ("g", calling "f")].lookup name = some f →
      ∃ target, f = calling target ∧ (target = "f" ∨ target = "g") := by
    intro name f hf
    rw [lookup_cons] at hf
    split at hf
    · cases hf
      exact ⟨"g", rfl, .inr rfl⟩
    · rw [lookup_cons] at hf
      split at hf <;> cases hf
      exact ⟨"f", rfl, .inl rfl⟩
  obtain ⟨table, hnew, hexact⟩ := new_exact [("f", calling "g"), ("g", calling "f")] ["g", "f"]
    (fun name f hf => by
      obtain ⟨target, rfl, -⟩ := hlookup name f hf
      exact ⟨Nat.one_pos, fun b _ t ht => by simp [calling, Block.targets] at ht⟩)
    (fun name target hcall => by
      obtain ⟨f, args, returnType, hf, b, -, r, -, hr⟩ := hcall
      obtain ⟨target', rfl, htarget⟩ := hlookup name f hf
      unfold calling at hr
      dsimp only at hr
      split at hr <;> cases hr
      rcases htarget with rfl | rfl <;> exact .inl rfl)
    (fun n => by
      rw [lookup_cons, lookup_cons]
      by_cases hf : n = "f"
      · simp [hf]
      · by_cases hg : n = "g"
        · simp [hg]
        · have hf' : (n == "f") = false := beq_eq_false_iff_ne.mpr hf
          have hg' : (n == "g") = false := beq_eq_false_iff_ne.mpr hg
          rw [hf', hg']
          simp [hf, hg])
  have htable : table "f" = some false := by
    cases hnew
    rfl
  obtain ⟨isPure, hpure, hright⟩ := hexact "f" rfl
  rw [htable] at hpure
  cases hpure
  exact ⟨table, hnew, htable, fun hclean => (by cases hright.mpr hclean)⟩

end PurityAnalysis

end Icewind.Rudder
