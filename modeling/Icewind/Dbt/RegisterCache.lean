import Icewind.Dbt.TranslateSteps

/-!
# The register cache of the translator

`cached_registers` has the node last written to a read-cached register in the order in which blocks are
translated, whatever path they are on.

* `lastWhere` — the last write of a list of accesses to a site with a property.
* `Logged` — the emitted accesses are those of the log; a read uses the last write before it in the log that
  the same translator made at the same offset.
* `Caches` — the cache has these writes.
* `translate_logs` — the translation of a function with its calls keeps this.
-/

namespace Icewind.Dbt

open Rudder FunctionTranslator List Option

variable {ν : Type}

/-! ### Last writes -/

/-- A write to a site with the property, with its node. -/
def Access.writeWhere (P : Site → Prop) [DecidablePred P] : Access ν → Option (Site × ν)
  | .read _ _ _ => none
  | .write site node => if P site then some (site, node) else none

/-- The last such write. -/
def lastWhere (P : Site → Prop) [DecidablePred P] (l : List (Access ν)) : Option (Site × ν) :=
  (l.filterMap (Access.writeWhere P)).getLast?

section

variable {P : Site → Prop} [DecidablePred P] {l l' : List (Access ν)} {a : Access ν}

theorem writeWhere_eq_some {p : Site × ν} : a.writeWhere P = some p ↔ a = .write p.1 p.2 ∧ P p.1 := by
  cases a with
  | read => simp [Access.writeWhere]
  | write site node =>
    obtain ⟨s, n⟩ := p
    by_cases hP : P site <;> grind [Access.writeWhere]

theorem lastWhere_mem {p : Site × ν} (h : lastWhere P l = some p) : .write p.1 p.2 ∈ l ∧ P p.1 := by
  obtain ⟨a, ha, hp⟩ := mem_filterMap.mp (mem_of_getLast? h)
  obtain ⟨rfl, hP⟩ := writeWhere_eq_some.mp hp
  exact ⟨ha, hP⟩

theorem lastWhere_append_of_none (h : ∀ a ∈ l', a.writeWhere P = none) : lastWhere P (l ++ l') = lastWhere P l := by
  unfold lastWhere
  rw [filterMap_append, filterMap_eq_nil_iff.mpr h, append_nil]

theorem lastWhere_concat {p : Site × ν} (h : a.writeWhere P = some p) : lastWhere P (l ++ [a]) = some p := by
  unfold lastWhere
  simp [h]

theorem lastWhere_eq_none (h : lastWhere P l = none) {site : Site} {node : ν} (hmem : .write site node ∈ l) :
    ¬ P site := by
  intro hP
  have hnil : l.filterMap (Access.writeWhere P) = [] := getLast?_eq_none_iff.mp h
  have hnone := filterMap_eq_nil_iff.mp hnil _ hmem
  simp [Access.writeWhere, hP] at hnone

/-- Among accesses in their order it comes last. -/
theorem lastWhere_order (hsorted : l.Pairwise fun a b => a.site.order < b.site.order) {p : Site × ν}
    (h : lastWhere P l = some p) {site : Site} {node : ν} (hmem : .write site node ∈ l) (hP : P site) :
    site.order ≤ p.1.order := by
  obtain ⟨init, hinit⟩ := List.getLast?_eq_some_iff.mp h
  have hpair : (init ++ [p]).Pairwise fun q q' => q.1.order < q'.1.order := by
    rw [← hinit]
    refine hsorted.filterMap _ fun a a' hlt q hq q' hq' => ?_
    rw [(writeWhere_eq_some.mp hq).1, (writeWhere_eq_some.mp hq').1] at hlt
    exact hlt
  have hwrite : (site, node) ∈ init ++ [p] := by
    rw [← hinit]
    exact mem_filterMap.mpr ⟨_, hmem, writeWhere_eq_some.mpr ⟨rfl, hP⟩⟩
  rcases mem_append.mp hwrite with hwrite | hwrite
  · exact Nat.le_of_lt ((pairwise_append.mp hpair).2.2 _ hwrite p mem_cons_self)
  · cases mem_singleton.mp hwrite
    exact Nat.le_refl _

end

/-! ### The log -/

/-- A write by the translator at the offset. -/
def Site.By (id offset : Nat) (site : Site) : Prop := site.activation = id ∧ site.offset = offset

instance (id offset : Nat) : DecidablePred (Site.By id offset) := fun _ => inferInstanceAs (Decidable (_ ∧ _))

variable (c : Context ν) (rf : RegisterFile)

/-- The node of a read after some accesses, in the order of translation. -/
def nodeAfter (site : Site) (typ : EmitType) (l : List (Access ν)) : Option ν :=
  readNode c ((lastWhere (Site.By site.activation site.offset) l).map Prod.snd) (rf site.name site.offset) typ

structure Logged (em : Emission ν) : Prop where
  numbered : ∀ i (a : Access ν), em.log[i]? = some a → a.site.order = i
  emitted : ∀ a, em.graph.Has a ↔ a ∈ em.log
  named : ∀ a ∈ em.log, c.registerByOffset a.site.offset = some a.site.name
  dated : ∀ a ∈ em.log, a.site.activation < em.activations
  reads : ∀ before site typ node after, em.log = before ++ .read site typ node :: after →
    nodeAfter c rf site typ before = some node
  registers : ∀ name, c.cache name = .read → em.registers name = rf name

/-- `cached_registers` has what this translator wrote. -/
structure Caches (t : FunctionTranslator ν) : Prop where
  id : t.id < t.emission.activations
  logged : Logged c rf t.emission
  cached : ∀ offset, t.cachedRegisters offset = (lastWhere (Site.By t.id offset) t.emission.log).map Prod.snd

/-- Accesses of the translator `first` and of later ones were added to the log. -/
structure Advances (first : Nat) (em em' : Emission ν) : Prop where
  log : ∃ new, em'.log = em.log ++ new ∧ ∀ a ∈ new, first ≤ a.site.activation
  activations : em.activations ≤ em'.activations

/-- A step from one state of the translator to another. -/
def Keeps (t t' : FunctionTranslator ν) : Prop :=
  Caches c rf t → Caches c rf t' ∧ t'.id = t.id ∧ Advances t.id t.emission t'.emission

/-- The same for calls, whose translators are new. -/
def CallLogs (call : CallTranslator ν) : Prop :=
  ∀ target args em value em', call target args em = some (value, em') → Logged c rf em →
    Logged c rf em' ∧ Advances em.activations em em'

variable {c rf} {em em' : Emission ν} {t t' : FunctionTranslator ν}

theorem Advances.of_log {first : Nat} (hlog : em'.log = em.log) (hactivations : em.activations ≤ em'.activations) :
    Advances first em em' :=
  ⟨⟨[], by simp [hlog], by simp⟩, hactivations⟩

theorem Advances.trans {first : Nat} {em1 em2 em3 : Emission ν} (h : Advances first em1 em2)
    (h' : Advances first em2 em3) : Advances first em1 em3 := by
  obtain ⟨new, hnew, hall⟩ := h.log
  obtain ⟨new', hnew', hall'⟩ := h'.log
  refine ⟨⟨new ++ new', by rw [hnew', hnew, append_assoc], fun a ha => ?_⟩, Nat.le_trans h.activations h'.activations⟩
  exact (mem_append.mp ha).elim (hall a) (hall' a)

theorem Keeps.refl (t : FunctionTranslator ν) : Keeps c rf t t :=
  fun h => ⟨h, rfl, .of_log rfl (Nat.le_refl _)⟩

theorem Keeps.trans {t1 t2 t3 : FunctionTranslator ν} (h : Keeps c rf t1 t2) (h' : Keeps c rf t2 t3) :
    Keeps c rf t1 t3 := by
  intro h1
  obtain ⟨h2, hid, hadvances⟩ := h h1
  obtain ⟨h3, hid', hadvances'⟩ := h' h2
  exact ⟨h3, hid'.trans hid, hadvances.trans (hid ▸ hadvances')⟩

/-- A step that emits no access. -/
theorem Logged.silent (h : Logged c rf em) (hlog : em'.log = em.log)
    (haccesses : ∀ b, (em'.blocks b).accesses = (em.blocks b).accesses) (hactivations : em.activations ≤ em'.activations)
    (hregisters : ∀ name, c.cache name = .read → em'.registers name = em.registers name) : Logged c rf em' := by
  refine ⟨by rw [hlog]; exact h.numbered, fun a => ?_, by rw [hlog]; exact h.named, fun a ha => ?_,
    by rw [hlog]; exact h.reads, fun name hname => (hregisters name hname).trans (h.registers name hname)⟩
  · rw [hlog, ← h.emitted]
    simp only [Flow.Graph.Has, Emission.graph, haccesses]
  · rw [hlog] at ha
    exact Nat.lt_of_lt_of_le (h.dated a ha) hactivations

theorem Keeps.silent (hid : t'.id = t.id) (hcached : t'.cachedRegisters = t.cachedRegisters)
    (hlog : t'.emission.log = t.emission.log)
    (haccesses : ∀ b, (t'.emission.blocks b).accesses = (t.emission.blocks b).accesses)
    (hactivations : t'.emission.activations = t.emission.activations)
    (hregisters : ∀ name, c.cache name = .read → t'.emission.registers name = t.emission.registers name) :
    Keeps c rf t t' := by
  intro h
  refine ⟨⟨?_, h.logged.silent hlog haccesses (Nat.le_of_eq hactivations.symm) hregisters, ?_⟩, hid,
    .of_log hlog (Nat.le_of_eq hactivations.symm)⟩
  · rw [hid, hactivations]
    exact h.id
  · rw [hid, hcached, hlog]
    exact h.cached

theorem Logged.access (h : Logged c rf em) {a : Access ν} (horder : a.site.order = em.log.length)
    (hname : c.registerByOffset a.site.offset = some a.site.name) (hdated : a.site.activation < em.activations)
    (hread : ∀ site typ node, a = .read site typ node → nodeAfter c rf site typ em.log = some node) :
    Logged c rf (em.access a) := by
  have hlog : (em.access a).log = em.log ++ [a] := rfl
  have hnew : ∀ {P : Access ν → Prop}, (∀ x ∈ em.log, P x) → P a → ∀ x ∈ em.log ++ [a], P x := by
    intro P hold ha x hx
    rcases mem_append.mp hx with hx | hx
    · exact hold x hx
    · exact mem_singleton.mp hx ▸ ha
  refine ⟨fun i x hi => ?_, fun x => ?_, hnew h.named hname, hnew h.dated hdated, fun before site typ node after heq => ?_,
    h.registers⟩
  · rw [hlog] at hi
    rcases Nat.lt_or_ge i em.log.length with hlt | hge
    · rw [getElem?_append_left hlt] at hi
      exact h.numbered i x hi
    · rw [getElem?_append_right hge] at hi
      obtain ⟨hzero, rfl⟩ := List.getElem?_eq_some_iff.mp hi
      rw [getElem_singleton]
      rw [length_singleton] at hzero
      omega
  · have hblock : ∀ b, x ∈ ((em.access a).blocks b).accesses ↔
        x ∈ (em.blocks b).accesses ∨ (b = em.current ∧ x = a) := by
      intro b
      by_cases hb : b = em.current
      · subst hb
        simp [Emission.access]
      · simp [Emission.access, hb]
    rw [hlog, mem_append, mem_singleton, ← h.emitted]
    simp only [Flow.Graph.Has, Emission.graph, hblock, exists_or, exists_eq_left]
  · rw [hlog] at heq
    rcases eq_nil_or_concat after with rfl | ⟨rest, last, rfl⟩
    · obtain ⟨rfl, ha⟩ := append_inj' heq rfl
      cases ha
      exact hread _ _ _ rfl
    · rw [concat_eq_append, ← cons_append, ← append_assoc] at heq
      exact h.reads before site typ node rest (append_inj' heq rfl).1

theorem Advances.access {a : Access ν} {first : Nat} (h : first ≤ a.site.activation) :
    Advances first em (em.access a) :=
  ⟨⟨[a], rfl, by simpa using h⟩, Nat.le_refl _⟩

/-! ### Steps -/

theorem logged_initial : Logged c rf (.initial rf) :=
  ⟨by simp [Emission.initial], by simp [Emission.initial, Flow.Graph.Has, Emission.graph],
    by simp [Emission.initial], by simp [Emission.initial], by simp [Emission.initial], fun _ _ => rfl⟩

theorem Quiet.keeps (h : Quiet t t') : Keeps c rf t t' := by
  obtain ⟨n, hn⟩ := h.emission
  exact .silent h.id h.cachedRegisters (by rw [hn]) (fun b => by rw [hn]) (by rw [hn]) fun name _ => by rw [hn]

theorem keeps_writeRegisterFile (t : FunctionTranslator ν) {name : String} (value : Nat) (hname : c.cache name ≠ .read) :
    Keeps c rf t (t.writeRegisterFile c name value) := by
  refine .silent rfl rfl rfl (fun _ => rfl) rfl fun name' hname' => Function.update_of_ne ?_ ..
  rintro rfl
  exact hname hname'

theorem accesses_jump (em : Emission ν) (targets : List Nat) (b : Nat) :
    ((em.jump targets).blocks b).accesses = (em.blocks b).accesses := by
  by_cases hb : b = em.current
  · subst hb
    simp [Emission.jump]
  · simp [Emission.jump, hb]

theorem keeps_leaveTo (t : FunctionTranslator ν) (x86 : Nat) : Keeps c rf t (t.leaveTo x86) :=
  .silent rfl rfl rfl (accesses_jump _ _) rfl fun _ _ => rfl

/-- A new translator starts with an empty cache, and has written nothing. -/
theorem Logged.new (h : Logged c rf em) (name : String) : Caches c rf (FunctionTranslator.new c name em).2.2 := by
  refine ⟨Nat.lt_succ_self _, h.silent rfl (accesses_jump _ _) (Nat.le_succ _) fun _ _ => rfl, fun offset => ?_⟩
  change none = (lastWhere (Site.By em.activations offset) em.log).map Prod.snd
  cases hlast : lastWhere (Site.By em.activations offset) em.log with
  | none => rfl
  | some p =>
    obtain ⟨hmem, hby, -⟩ := lastWhere_mem hlast
    exact absurd hby (Nat.ne_of_lt (h.dated _ hmem))

variable [DecidableEq ν] {call : CallTranslator ν} {vars : VariableStore ν} {result : StatementResult ν}

section

variable (hcall : CallLogs c rf call) (hexception : c.cache "have_exception" = .readWrite)

include hcall hexception

/-- **A statement.** -/
theorem StatementStep.keeps (h : StatementStep c call vars t result t') : Keeps c rf t t' := by
  cases h with
  | quiet _ hquiet | return_ hquiet => exact hquiet.keeps
  | @registerFile name value hcache => exact keeps_writeRegisterFile t value (by rw [hcache]; decide)
  | @read name offset typ node hname hcache hnode =>
    intro h
    refine ⟨⟨h.id, h.logged.access rfl hname h.id ?_, fun offset' => ?_⟩, rfl, .access (Nat.le_refl _)⟩
    · rintro _ _ _ ⟨⟩
      change readNode c ((lastWhere (Site.By t.id offset) _).map Prod.snd) (rf name offset) typ = some node
      rw [← h.logged.registers name hcache, ← h.cached offset]
      exact hnode
    · refine (h.cached offset').trans (congrArg _ (lastWhere_append_of_none fun a ha => ?_).symm)
      rw [mem_singleton.mp ha]
      rfl
  | @write name offset node hname hcache =>
    intro h
    refine ⟨⟨h.id, h.logged.access rfl hname h.id (by simp), fun offset' => ?_⟩, rfl, .access (Nat.le_refl _)⟩
    change Function.update t.cachedRegisters offset (some node) offset' =
      (lastWhere _ (t.emission.log ++ [.write (t.site name offset) node])).map Prod.snd
    by_cases hoffset : offset' = offset
    · subst hoffset
      rw [Function.update_self, lastWhere_concat (p := (t.site name offset', node))
        (writeWhere_eq_some.mpr ⟨rfl, rfl, rfl⟩)]
      rfl
    · rw [Function.update_of_ne hoffset, h.cached offset', lastWhere_append_of_none]
      intro a ha
      rw [mem_singleton.mp ha]
      exact if_neg fun hby => hoffset hby.2.symm
  | @call target args value em hrun =>
    intro h
    obtain ⟨hlogged, hadvances⟩ := hcall _ _ _ _ _ hrun h.logged
    obtain ⟨new, hnew, hall⟩ := hadvances.log
    refine ⟨⟨Nat.lt_of_lt_of_le h.id hadvances.activations, hlogged, fun offset => ?_⟩, rfl,
      ⟨new, hnew, fun a ha => Nat.le_trans (Nat.le_of_lt h.id) (hall a ha)⟩, hadvances.activations⟩
    -- the writes of the called functions are not this translator's
    change t.cachedRegisters offset = (lastWhere _ em.log).map Prod.snd
    rw [hnew, lastWhere_append_of_none, h.cached offset]
    intro a ha
    have hge := hall a ha
    have hid := h.id
    refine eq_none_iff_forall_ne_some.mpr fun p hp => ?_
    obtain ⟨rfl, hby, -⟩ := writeWhere_eq_some.mp hp
    change t.emission.activations ≤ p.1.activation at hge
    change p.1.activation = t.id at hby
    omega
  | jump target => exact .silent rfl rfl rfl (accesses_jump _ _) rfl fun _ _ => rfl
  | branch trueTarget falseTarget =>
    obtain ⟨hid1, hcached1, n1, -, hem1⟩ := dynamicBlock_emission t trueTarget vars
    obtain ⟨hid2, hcached2, n2, -, hem2⟩ := dynamicBlock_emission (t.dynamicBlock trueTarget vars).2 falseTarget vars
    rw [hem1] at hem2
    refine .silent (hid2.trans hid1) (hcached2.trans hcached1) ?_ ?_ ?_ ?_ <;> unfold branchTo <;> dsimp only <;>
      rw [hem2]
    · rfl
    · exact accesses_jump _ _
    · rfl
    · exact fun _ _ => rfl
  | panic => exact keeps_writeRegisterFile t 0 (by rw [hexception]; decide)

theorem translateStatements_keeps {isDynamic : Bool} {blk : Block} : ∀ {l : List Ref} {values : Ref → Option ν}
    {vars : VariableStore ν} {t t' : FunctionTranslator ν} {flow : ControlFlow ν},
    translateStatements c call isDynamic blk l values vars t = some (flow, t') → Keeps c rf t t' := by
  intro l
  induction l with
  | nil =>
    intro values vars t t' flow h
    cases h
  | cons r rest ih =>
    intro values vars t t' flow h
    obtain ⟨⟨result, vars1, t1⟩, hstatement, h⟩ := bind_eq_some_iff.mp h
    have hstep := (translateStatement_step hstatement).keeps hcall hexception
    dsimp only at h
    split at h
    · exact hstep.trans (ih h)
    · exact hstep.trans (ih h)
    · cases h
      exact hstep

/-- **The whole queue.** -/
theorem translateBlocks_keeps {f : Function} {exit : Nat} : ∀ (fuel : Nat) {queue : List (Work ν)}
    {t t' : FunctionTranslator ν}, translateBlocks c call f exit fuel queue t = some t' → Keeps c rf t t'
  | _, [], t, _, h => by
    rw [translateBlocks] at h
    cases h
    exact .refl t
  | 0, _ :: _, _, _, h => by cases h
  | fuel + 1, work :: queue, t, t', h => by
    obtain ⟨queue1, t1, hstep, h⟩ := translateBlocks_step h
    refine Keeps.trans ?_ (translateBlocks_keeps fuel h)
    cases hstep with
    | visited => exact .refl t
    | @block flow t2 _ _ _ hstatements hcontinues =>
      have henter : Keeps c rf t (t.enter work.x86) := .silent rfl rfl rfl (fun _ => rfl) rfl fun _ _ => rfl
      refine (henter.trans (translateStatements_keeps hcall hexception hstatements)).trans ?_
      cases hcontinues with
      | jump | branch => exact .refl _
      | return_ => exact keeps_leaveTo _ _
      | panic => exact keeps_leaveTo _ _

end

/-! ### Functions with their calls -/

/-- **A function with its calls.** -/
theorem translate_logs (hexception : c.cache "have_exception" = .readWrite) :
    ∀ fuel, CallLogs c rf (translate c fuel) := by
  intro fuel
  induction fuel with
  | zero =>
    intro target args em value em' h
    cases h
  | succ fuel ih =>
    intro target args em value em' h hlogged
    rw [translate] at h
    split at h
    · exact ih _ _ _ _ _ h hlogged
    · split at h
      · obtain ⟨value', -, heq⟩ := map_eq_some_iff.mp h
        cases heq
        exact ⟨hlogged, .of_log rfl (Nat.le_refl _)⟩
      · split at h
        · cases h
        · obtain ⟨f, -, h⟩ := bind_eq_some_iff.mp h
          split at h
          · cases h
          · obtain ⟨vars, t, -, hblocks, h⟩ := bind₂_eq_some h
            obtain ⟨value', -, h⟩ := bind_eq_some_iff.mp h
            cases h
            obtain ⟨hcaches, -, hlog, hactivations⟩ :=
              translateBlocks_keeps ih hexception fuel hblocks (hlogged.new target)
            exact ⟨hcaches.logged.silent rfl (fun _ => rfl) (Nat.le_refl _) fun _ _ => rfl, hlog,
              Nat.le_trans (Nat.le_succ _) hactivations⟩

end Icewind.Dbt
