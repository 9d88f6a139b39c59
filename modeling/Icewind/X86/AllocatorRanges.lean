import Icewind.X86.RegisterAllocator

/-!
# Live ranges

What the forward pass of the allocator computes.

* `Opcode.writtenVirtuals`, `Opcode.readVirtuals`, `Opcode.writtenPhysicals` — the registers an
  instruction writes and reads.
* `LiveAt`, `LiveAcross` — a virtual register between a write and a later read of it.
* `calculateVregLiveRanges_spec` — the computed range covers every point where the register is
  live in the list the pass leaves, which is the original one but for killed instructions.
-/

namespace Icewind.X86

open List Option LiveRanges RegisterTracker

variable {v : Nat}

namespace Opcode

/-- The virtual registers written. -/
def writtenVirtuals (i : Opcode) : List Nat :=
  i.definitions.filterMap fun ud =>
    match ud.defined with
    | some (.virtual v _) => some v
    | _ => none

/-- The virtual registers read. -/
def readVirtuals (i : Opcode) : List Nat :=
  i.uses.filterMap fun ud =>
    match ud.used with
    | some (.virtual v _) => some v
    | _ => none

/-- The physical registers written. -/
def writtenPhysicals (i : Opcode) : List PhysicalRegister :=
  i.definitions.filterMap fun ud =>
    match ud.defined with
    | some (.physical p) => some p
    | _ => none

variable {i : Opcode}

theorem mem_writtenVirtuals :
    v ∈ i.writtenVirtuals ↔ ∃ ud ∈ i.definitions, ∃ cls, ud.defined = some (.virtual v cls) := by
  simp only [writtenVirtuals, mem_filterMap]
  refine exists_congr fun ud => and_congr_right fun _ => ?_
  constructor
  · intro h
    split at h
    · rename_i u cls hd
      cases h
      exact ⟨cls, hd⟩
    · cases h
  · rintro ⟨cls, hd⟩
    rw [hd]

theorem mem_readVirtuals : v ∈ i.readVirtuals ↔ ∃ ud ∈ i.uses, ∃ cls, ud.used = some (.virtual v cls) := by
  simp only [readVirtuals, mem_filterMap]
  refine exists_congr fun ud => and_congr_right fun _ => ?_
  constructor
  · intro h
    split at h
    · rename_i u cls hd
      cases h
      exact ⟨cls, hd⟩
    · cases h
  · rintro ⟨cls, hd⟩
    rw [hd]

theorem mem_writtenPhysicals {p : PhysicalRegister} :
    p ∈ i.writtenPhysicals ↔ ∃ ud ∈ i.definitions, ud.defined = some (.physical p) := by
  simp only [writtenPhysicals, mem_filterMap]
  refine exists_congr fun ud => and_congr_right fun _ => ?_
  constructor
  · intro h
    split at h
    · rename_i r hd
      cases h
      exact hd
    · cases h
  · intro hd
    rw [hd]

/-- An entry that reads and writes is among the definitions and among the uses. -/
theorem useDef_mem {r : Register} (h : .useDef r ∈ i.definitions) : .useDef r ∈ i.uses := by
  simp only [definitions, uses, mem_filter] at h ⊢
  exact ⟨h.1, rfl⟩

@[simp] theorem dead_writtenVirtuals : Opcode.dead.writtenVirtuals = [] := rfl

@[simp] theorem dead_readVirtuals : Opcode.dead.readVirtuals = [] := rfl

end Opcode

/-- At the point before index `k`, the register has been written and is read again. -/
def LiveAt (is : List Opcode) (v k : Nat) : Prop :=
  (∃ j i, j < k ∧ is[j]? = some i ∧ v ∈ i.writtenVirtuals) ∧
  (∃ j i, k ≤ j ∧ is[j]? = some i ∧ v ∈ i.readVirtuals)

/-- The register is written before the instruction at `k` and read after it. -/
def LiveAcross (is : List Opcode) (v k : Nat) : Prop :=
  (∃ j i, j < k ∧ is[j]? = some i ∧ v ∈ i.writtenVirtuals) ∧
  (∃ j i, k < j ∧ is[j]? = some i ∧ v ∈ i.readVirtuals)

variable {is : List Opcode}

theorem LiveAcross.before {v k : Nat} (h : LiveAcross is v k) : LiveAt is v k := by
  obtain ⟨hw, j, i, hj, hi, hr⟩ := h
  exact ⟨hw, j, i, Nat.le_of_lt hj, hi, hr⟩

theorem LiveAcross.after {v k : Nat} (h : LiveAcross is v k) : LiveAt is v (k + 1) := by
  obtain ⟨⟨j, i, hj, hi, hw⟩, j', i', hj', hi', hr⟩ := h
  exact ⟨⟨j, i, Nat.lt_succ_of_lt hj, hi, hw⟩, j', i', hj', hi', hr⟩

/-! ## The forward pass -/

namespace LiveRanges

def firstDef (st : LiveRanges) (v : Nat) : Option Nat := (st.tracker.virt v).firstDef

def lastUse (st : LiveRanges) (v : Nat) : Option Nat := (st.tracker.virt v).lastUse

def lastCount (st : LiveRanges) (v : Nat) : Nat := (st.tracker.virt v).lastControlFlowCount

/-- The first definition of a register. -/
def opens (st : LiveRanges) (v current : Nat) : LiveRanges :=
  { st with tracker := st.tracker.modifyVirt v fun t =>
    { t with firstDef := some current, lastControlFlowCount := st.controlFlowCount } }

/-- A use of a register. -/
def reads (st : LiveRanges) (v current : Nat) : LiveRanges :=
  { st with tracker := st.tracker.modifyVirt v fun t => { t with lastUse := some current } }

/-- A definition that kills the one before it, at `first`. -/
def kills (st : LiveRanges) (v current first : Nat) : LiveRanges :=
  { st with
    instructions := st.instructions.set first .dead
    tracker := st.tracker.modifyVirt v fun t => { t with firstDef := some current } }

end LiveRanges

/-- Everything a definition can do in the forward pass. -/
inductive RangeCase (current : Nat) (instr : Opcode) (st : LiveRanges) (ud : UseDef) : LiveRanges → Prop where
  | other : (∀ v cls, ud.defined ≠ some (.virtual v cls)) → RangeCase current instr st ud st
  | opens {v : Nat} {cls : RegisterClass} : ud.defined = some (.virtual v cls) → st.firstDef v = none →
      RangeCase current instr st ud (st.opens v current)
  | cmovne {v : Nat} {cls : RegisterClass} {src dst : Operand} : ud.defined = some (.virtual v cls) →
      instr = .cmovne src dst → st.firstDef v ≠ none → RangeCase current instr st ud (st.reads v current)
  | kills {v f : Nat} {cls : RegisterClass} : ud = .def_ (.virtual v cls) → st.firstDef v = some f →
      st.lastUse v = none → st.lastCount v = st.controlFlowCount →
      RangeCase current instr st ud (st.kills v current f)
  | keeps {v : Nat} {cls : RegisterClass} : ud.defined = some (.virtual v cls) → st.firstDef v ≠ none →
      ¬ (st.lastUse v = none ∧ ud = .def_ (.virtual v cls) ∧ st.lastCount v = st.controlFlowCount) →
      RangeCase current instr st ud st

theorem rangeDefinition_cases {n current : Nat} {instr : Opcode} {st st' : LiveRanges} {ud : UseDef}
    (h : rangeDefinition n current instr st ud = some st') : RangeCase current instr st ud st' := by
  unfold rangeDefinition at h
  split at h
  · rename_i v cls hd
    split at h
    · cases h
    · split at h
      · rename_i hf
        cases h
        exact .opens hd hf
      · rename_i f hf
        have hf' : st.firstDef v ≠ none := by
          simp only [LiveRanges.firstDef, hf]
          simp
        split at h
        · cases h
          exact .cmovne hd rfl hf'
        · split at h
          · rename_i hk
            cases h
            exact .kills hk.2.1 hf hk.1 hk.2.2
          · rename_i hk
            cases h
            exact .keeps hd hf' hk
  · rename_i hd
    cases h
    exact .other hd

/-- The instructions before `done` are accounted for, and nothing from `top` on has been looked at. -/
structure RangeInv (is : List Opcode) (done top : Nat) (st : LiveRanges) : Prop where
  length : st.instructions.length = is.length
  killed : ∀ {k : Nat} {i}, st.instructions[k]? = some i → is[k]? = some i ∨ i = Opcode.dead
  ahead : ∀ {k : Nat}, top ≤ k → st.instructions[k]? = is[k]?
  firstDef : ∀ {v f}, st.firstDef v = some f → f < top ∧ ∃ i, is[f]? = some i ∧ v ∈ i.writtenVirtuals
  lastUse : ∀ {v l}, st.lastUse v = some l → l < top ∧ ∃ i, is[l]? = some i ∧
    (v ∈ i.readVirtuals ∨ ∃ src dst, i = .cmovne src dst)
  written : ∀ {v k i}, k < done → st.instructions[k]? = some i → v ∈ i.writtenVirtuals →
    ∃ f, f ≤ k ∧ st.firstDef v = some f
  read : ∀ {v k i}, k < done → is[k]? = some i → v ∈ i.readVirtuals → ∃ l, k ≤ l ∧ st.lastUse v = some l
  count : ∀ v, st.lastCount v ≤ st.controlFlowCount
  unassigned : ∀ v, (st.tracker.virt v).physicalRegister = none
  /-- As long as a definition can still be killed it is the only one. -/
  sole : ∀ {v}, st.lastUse v = none → st.lastCount v = st.controlFlowCount →
    ∀ {k i}, k < done → st.instructions[k]? = some i → v ∈ i.writtenVirtuals → st.firstDef v = some k

/-- Within the instruction at `current`, after some of its definitions and uses. -/
structure RangeMid (is : List Opcode) (current : Nat) (instr : Opcode) (defs uses : List UseDef)
    (st : LiveRanges) : Prop extends RangeInv is current (current + 1) st where
  here : is[current]? = some instr
  defined : ∀ ud ∈ defs, ∀ {v cls}, ud.defined = some (.virtual v cls) →
    ∃ f, f ≤ current ∧ st.firstDef v = some f
  solely : ∀ ud ∈ defs, ∀ {v cls}, ud = .def_ (.virtual v cls) → st.lastUse v = none →
    st.lastCount v = st.controlFlowCount → st.firstDef v = some current
  used : ∀ ud ∈ uses, ∀ {v cls}, ud.used = some (.virtual v cls) → st.lastUse v = some current

namespace LiveRanges

variable (st : LiveRanges) (v u current f : Nat)

theorem opens_firstDef : (st.opens v current).firstDef u = if u = v then some current else st.firstDef u := by
  simp only [firstDef, opens, modifyVirt_virt]
  split <;> rfl

theorem opens_lastUse : (st.opens v current).lastUse u = st.lastUse u := by
  simp only [lastUse, opens, modifyVirt_virt]
  split <;> rfl

theorem opens_lastCount :
    (st.opens v current).lastCount u = if u = v then st.controlFlowCount else st.lastCount u := by
  simp only [lastCount, opens, modifyVirt_virt]
  split <;> rfl

theorem reads_firstDef : (st.reads v current).firstDef u = st.firstDef u := by
  simp only [firstDef, reads, modifyVirt_virt]
  split <;> rfl

theorem reads_lastUse : (st.reads v current).lastUse u = if u = v then some current else st.lastUse u := by
  simp only [lastUse, reads, modifyVirt_virt]
  split <;> rfl

theorem reads_lastCount : (st.reads v current).lastCount u = st.lastCount u := by
  simp only [lastCount, reads, modifyVirt_virt]
  split <;> rfl

theorem kills_firstDef :
    (st.kills v current f).firstDef u = if u = v then some current else st.firstDef u := by
  simp only [firstDef, kills, modifyVirt_virt]
  split <;> rfl

theorem kills_lastUse : (st.kills v current f).lastUse u = st.lastUse u := by
  simp only [lastUse, kills, modifyVirt_virt]
  split <;> rfl

theorem kills_lastCount : (st.kills v current f).lastCount u = st.lastCount u := by
  simp only [lastCount, kills, modifyVirt_virt]
  split <;> rfl

end LiveRanges

section Forward

variable {is : List Opcode} {current : Nat} {instr : Opcode} {defs us : List UseDef}
  {st st' : LiveRanges}

theorem LiveRanges.kills_instructions {v f k u : Nat} {i : Opcode}
    (h : (st.kills v current f).instructions[k]? = some i) (hu : u ∈ i.writtenVirtuals) :
    k ≠ f ∧ st.instructions[k]? = some i := by
  have h' : (st.instructions.set f .dead)[k]? = some i := h
  rw [List.getElem?_set] at h'
  split at h'
  · split at h'
    · cases h'
      simp at hu
    · cases h'
  · rename_i e
    exact ⟨fun e' => e e'.symm, h'⟩

variable {ud : UseDef} {cls : RegisterClass} {n : Nat}

section

variable (hm : RangeMid is current instr defs [] st)

include hm

section

variable (hud : ud ∈ instr.definitions) (hd : ud.defined = some (.virtual v cls))

include hud hd

/-- A definition after which the register starts here, and no earlier instruction writes it. -/
theorem RangeMid.defines
    (hlen : st'.instructions.length = is.length)
    (hkill : ∀ {k : Nat} {i}, st'.instructions[k]? = some i → is[k]? = some i ∨ i = Opcode.dead)
    (hahead : ∀ {k : Nat}, current + 1 ≤ k → st'.instructions[k]? = is[k]?)
    (hf : ∀ u, st'.firstDef u = if u = v then some current else st.firstDef u)
    (hl : ∀ u, st'.lastUse u = st.lastUse u) (hn : st'.controlFlowCount = st.controlFlowCount)
    (hc : ∀ u, st'.lastCount u = st.lastCount u ∨ st'.lastCount u = st.controlFlowCount)
    (hne : ∀ u ≠ v, st'.lastCount u = st.lastCount u)
    (hun : ∀ u, (st'.tracker.virt u).physicalRegister = (st.tracker.virt u).physicalRegister)
    (hold : ∀ {k : Nat} {i u}, st'.instructions[k]? = some i → u ∈ i.writtenVirtuals →
      st.instructions[k]? = some i)
    (hv : ∀ {k : Nat} {i}, k < current → st'.instructions[k]? = some i → v ∉ i.writtenVirtuals) :
    RangeMid is current instr (ud :: defs) [] st' where
  length := hlen
  killed := hkill
  ahead := hahead
  here := hm.here
  firstDef := by
    intro u f h
    rw [hf] at h
    split at h
    · rename_i e
      cases h
      exact ⟨Nat.lt_succ_self _, instr, hm.here, e ▸ Opcode.mem_writtenVirtuals.mpr ⟨ud, hud, cls, hd⟩⟩
    · exact hm.firstDef h
  lastUse := by
    intro u l h
    rw [hl] at h
    exact hm.lastUse h
  written := by
    intro u k i hk hi hw
    have huv : u ≠ v := by
      rintro rfl
      exact hv hk hi hw
    rw [hf, if_neg huv]
    exact hm.written hk (hold hi hw) hw
  read := by
    intro u k i hk hi hr
    rw [hl]
    exact hm.read hk hi hr
  count := by
    intro u
    rw [hn]
    rcases hc u with e | e
    · rw [e]
      exact hm.count u
    · exact Nat.le_of_eq e
  unassigned u := (hun u).trans (hm.unassigned u)
  sole := by
    intro u hu hcu k i hk hi hw
    have huv : u ≠ v := by
      rintro rfl
      exact hv hk hi hw
    rw [hl] at hu
    rw [hne u huv, hn] at hcu
    rw [hf, if_neg huv]
    exact hm.sole hu hcu hk (hold hi hw) hw
  defined := by
    intro ud' hud' u cls' hu
    rw [hf]
    split
    · exact ⟨current, Nat.le_refl _, rfl⟩
    · rename_i huv
      rcases mem_cons.mp hud' with rfl | hud'
      · rw [hd] at hu
        cases hu
        exact absurd rfl huv
      · exact hm.defined ud' hud' hu
  solely := by
    intro ud' hud' u cls' hu hlu hcu
    rw [hf]
    split
    · rfl
    · rename_i huv
      rcases mem_cons.mp hud' with rfl | hud'
      · rw [hu] at hd
        cases hd
        exact absurd rfl huv
      · rw [hl] at hlu
        rw [hne u huv, hn] at hcu
        exact hm.solely ud' hud' hu hlu hcu
  used := by
    intro ud' hud'
    simp at hud'

theorem RangeMid.opens
    (hn : st.firstDef v = none) : RangeMid is current instr (ud :: defs) [] (st.opens v current) := by
  refine hm.defines hud hd hm.length hm.killed hm.ahead (fun u => st.opens_firstDef v u current)
    (fun u => st.opens_lastUse v u current) rfl (fun u => ?_) (fun u hu => ?_) (fun u => ?_)
    (fun hi _ => hi) ?_
  · rw [opens_lastCount]
    split
    · exact .inr rfl
    · exact .inl rfl
  · rw [opens_lastCount, if_neg hu]
  · simp only [LiveRanges.opens, modifyVirt_virt]
    split <;> rfl
  · intro k i hk hi hw
    obtain ⟨f, _, hf⟩ := hm.written hk hi hw
    rw [hn] at hf
    cases hf

end

theorem RangeMid.kills {v f : Nat} (hud : ud ∈ instr.definitions) (hd : ud = .def_ (.virtual v cls))
    (hf : st.firstDef v = some f) (hl : st.lastUse v = none) (hc : st.lastCount v = st.controlFlowCount) :
    RangeMid is current instr (ud :: defs) [] (st.kills v current f) := by
  have hd' : ud.defined = some (.virtual v cls) := by
    rw [hd]
    rfl
  refine hm.defines hud hd' ?_ ?_ ?_ (fun u => st.kills_firstDef v u current f)
    (fun u => st.kills_lastUse v u current f) rfl (fun u => .inl (st.kills_lastCount v u current f))
    (fun u _ => st.kills_lastCount v u current f) (fun u => ?_)
    (fun hi hw => (kills_instructions hi hw).2) ?_
  · simp [LiveRanges.kills, hm.length]
  · intro k i hi
    have hi' : (st.instructions.set f .dead)[k]? = some i := hi
    rw [List.getElem?_set] at hi'
    split at hi'
    · split at hi'
      · cases hi'
        exact .inr rfl
      · cases hi'
    · exact hm.killed hi'
  · intro k hk
    have hfk := (hm.firstDef hf).1
    rw [← hm.ahead hk]
    exact List.getElem?_set_ne (by omega)
  · simp only [LiveRanges.kills, modifyVirt_virt]
    split <;> rfl
  · intro k i hk hi hw
    obtain ⟨hkf, hi⟩ := kills_instructions hi hw
    have := hm.sole hl hc hk hi hw
    rw [hf] at this
    cases this
    exact hkf rfl

omit hm in
/-- A register that is used here; `defs'` and `us'` may list that use. -/
theorem RangeMid.reads {defs' us' : List UseDef} (hm : RangeMid is current instr defs us st)
    (hr : v ∈ instr.readVirtuals ∨ ∃ src dst, instr = .cmovne src dst)
    (hd : ∀ ud ∈ defs', ud ∈ defs ∨ ∃ cls, ud.defined = some (.virtual v cls) ∧ st.firstDef v ≠ none)
    (hu : ∀ ud ∈ us', ud ∈ us ∨ ∃ cls, ud.used = some (.virtual v cls)) :
    RangeMid is current instr defs' us' (st.reads v current) where
  length := hm.length
  killed := hm.killed
  ahead := hm.ahead
  here := hm.here
  firstDef := by
    intro u f h
    rw [reads_firstDef] at h
    exact hm.firstDef h
  lastUse := by
    intro u l h
    rw [reads_lastUse] at h
    split at h
    · rename_i e
      cases h
      exact ⟨Nat.lt_succ_self _, instr, hm.here, e ▸ hr⟩
    · exact hm.lastUse h
  written := by
    intro u k i hk hi hw
    rw [reads_firstDef]
    exact hm.written hk hi hw
  read := by
    intro u k i hk hi hw
    rw [reads_lastUse]
    split
    · exact ⟨current, Nat.le_of_lt hk, rfl⟩
    · exact hm.read hk hi hw
  count := by
    intro u
    rw [reads_lastCount]
    exact hm.count u
  unassigned := by
    intro u
    have := hm.unassigned u
    simp only [LiveRanges.reads, modifyVirt_virt]
    split <;> exact this
  sole := by
    intro u hlu hcu k i hk hi hw
    rw [reads_lastUse] at hlu
    rw [reads_lastCount] at hcu
    rw [reads_firstDef]
    split at hlu
    · cases hlu
    · exact hm.sole hlu hcu hk hi hw
  defined := by
    intro ud hud u cls hdu
    rw [reads_firstDef]
    rcases hd ud hud with hud | ⟨cls', hv, hf⟩
    · exact hm.defined ud hud hdu
    · rw [hv] at hdu
      cases hdu
      obtain ⟨f, hf⟩ := Option.ne_none_iff_exists'.mp hf
      exact ⟨f, Nat.le_of_lt_succ (hm.firstDef hf).1, hf⟩
  solely := by
    intro ud hud u cls hdu hlu hcu
    rw [reads_lastUse] at hlu
    rw [reads_lastCount] at hcu
    rw [reads_firstDef]
    split at hlu
    · cases hlu
    · rename_i huv
      rcases hd ud hud with hud | ⟨cls', hv, _⟩
      · exact hm.solely ud hud hdu hlu hcu
      · rw [hdu] at hv
        cases hv
        exact absurd rfl huv
  used := by
    intro ud hud u cls hdu
    rw [reads_lastUse]
    split
    · rfl
    · rename_i huv
      rcases hu ud hud with hud | ⟨cls', hv⟩
      · exact hm.used ud hud hdu
      · rw [hdu] at hv
        cases hv
        exact absurd rfl huv

theorem RangeMid.definition (hud : ud ∈ instr.definitions)
    (h : rangeDefinition n current instr st ud = some st') :
    RangeMid is current instr (ud :: defs) [] st' := by
  cases rangeDefinition_cases h with
  | other hd =>
    refine { hm with defined := fun ud' hud' v cls hv => ?_, solely := fun ud' hud' v cls hv => ?_ }
    · rcases mem_cons.mp hud' with rfl | hud'
      · exact absurd hv (hd v cls)
      · exact hm.defined ud' hud' hv
    · rcases mem_cons.mp hud' with rfl | hud'
      · exact absurd (hv ▸ rfl) (hd v cls)
      · exact hm.solely ud' hud' hv
  | opens hd hf => exact hm.opens hud hd hf
  | @cmovne v cls src dst hd hi hf =>
    refine hm.reads (.inr ⟨src, dst, hi⟩) (fun ud' hud' => ?_) (fun ud' hud' => .inl hud')
    rcases mem_cons.mp hud' with rfl | hud'
    · exact .inr ⟨cls, hd, hf⟩
    · exact .inl hud'
  | kills hd hf hl hc => exact hm.kills hud hd hf hl hc
  | @keeps v cls hd hf hk =>
    refine { hm with defined := fun ud' hud' u cls' hu => ?_, solely := fun ud' hud' u cls' hu hlu hcu => ?_ }
    · rcases mem_cons.mp hud' with rfl | hud'
      · rw [hd] at hu
        cases hu
        obtain ⟨f, hf⟩ := Option.ne_none_iff_exists'.mp hf
        exact ⟨f, Nat.le_of_lt_succ (hm.firstDef hf).1, hf⟩
      · exact hm.defined ud' hud' hu
    · rcases mem_cons.mp hud' with rfl | hud'
      · rw [hu] at hd
        cases hd
        exact absurd ⟨hlu, hu, hcu⟩ hk
      · exact hm.solely ud' hud' hu hlu hcu

end

theorem RangeMid.use (hm : RangeMid is current instr defs us st) (hud : ud ∈ instr.uses)
    (h : rangeUse n current st ud = some st') : RangeMid is current instr defs (ud :: us) st' := by
  unfold rangeUse at h
  split at h
  · rename_i v cls hd
    split at h
    · cases h
    · cases h
      refine hm.reads (.inl (Opcode.mem_readVirtuals.mpr ⟨ud, hud, cls, hd⟩)) (fun _ h => .inl h)
        (fun ud' hud' => ?_)
      rcases mem_cons.mp hud' with rfl | hud'
      · exact .inr ⟨cls, hd⟩
      · exact .inl hud'
  · rename_i hd
    cases h
    exact { hm with used := forall_mem_cons.mpr ⟨fun hv => absurd hv (hd _ _), hm.used⟩ }

/-- A loop over definitions or uses, with the list of those that are done. -/
theorem foldlM_done {f : LiveRanges → UseDef → Option LiveRanges} {P : List UseDef → LiveRanges → Prop} :
    ∀ (uds : List UseDef) {us : List UseDef} {st : LiveRanges}, P us st →
    (∀ ud ∈ uds, ∀ {us st st1}, P us st → f st ud = some st1 → P (ud :: us) st1) →
    uds.foldlM f st = some st' → ∃ us', (∀ ud ∈ uds, ud ∈ us') ∧ (∀ ud ∈ us, ud ∈ us') ∧ P us' st'
  | [], us, st, hm, _, h => by
    cases h
    exact ⟨us, by simp, fun _ h => h, hm⟩
  | ud :: uds, us, st, hm, hs, h => by
    rw [foldlM_cons] at h
    obtain ⟨st1, h1, h⟩ := bind_eq_some_iff.mp h
    obtain ⟨us', hd, hk, hm'⟩ := foldlM_done uds (hs ud mem_cons_self hm h1) (fun u hu => hs u (mem_cons_of_mem _ hu)) h
    exact ⟨us', forall_mem_cons.mpr ⟨hk _ mem_cons_self, hd⟩, fun u hu => hk u (mem_cons_of_mem _ hu), hm'⟩

theorem RangeMid.finish (hm : RangeMid is current instr defs us st)
    (hd : ∀ ud ∈ instr.definitions, ud ∈ defs) (hu : ∀ ud ∈ instr.uses, ud ∈ us) :
    RangeInv is (current + 1) (current + 1) st := by
  have here : ∀ {v i}, st.instructions[current]? = some i → v ∈ i.writtenVirtuals → i = instr := by
    intro v i hi hw
    rcases hm.killed hi with h | rfl
    · rw [hm.here] at h
      cases h
      rfl
    · simp at hw
  refine { hm.toRangeInv with written := ?_, read := ?_, sole := ?_ }
  · intro v k i hk hi hw
    rcases Nat.lt_succ_iff_lt_or_eq.mp hk with hk | rfl
    · exact hm.written hk hi hw
    · obtain rfl := here hi hw
      obtain ⟨ud, hud, cls, hv⟩ := Opcode.mem_writtenVirtuals.mp hw
      exact hm.defined ud (hd ud hud) hv
  · intro v k i hk hi hr
    rcases Nat.lt_succ_iff_lt_or_eq.mp hk with hk | rfl
    · exact hm.read hk hi hr
    · rw [hm.here] at hi
      cases hi
      obtain ⟨ud, hud, cls, hv⟩ := Opcode.mem_readVirtuals.mp hr
      exact ⟨k, Nat.le_refl _, hm.used ud (hu ud hud) hv⟩
  · intro v hl hc k i hk hi hw
    rcases Nat.lt_succ_iff_lt_or_eq.mp hk with hk | rfl
    · exact hm.sole hl hc hk hi hw
    · obtain rfl := here hi hw
      obtain ⟨ud, hud, cls, hv⟩ := Opcode.mem_writtenVirtuals.mp hw
      cases ud with
      | use r => cases hv
      | def_ r =>
        cases hv
        exact hm.solely _ (hd _ hud) rfl hl hc
      | useDef r =>
        cases hv
        have := hm.used _ (hu _ (Opcode.useDef_mem hud)) rfl
        rw [hl] at this
        cases this

theorem RangeInv.instruction (hi : RangeInv is current current st) (here : is[current]? = some instr)
    (h : rangeInstruction n current instr st = some st') : RangeInv is (current + 1) (current + 1) st' := by
  obtain ⟨st1, h1, h2⟩ := bind_eq_some_iff.mp h
  generalize hcount : (if instr.isBranch then st.controlFlowCount + 1 else st.controlFlowCount) = count at h1
  have hle : count = st.controlFlowCount ∨ count = st.controlFlowCount + 1 := by
    rw [← hcount]
    split <;> simp
  have hm : RangeMid is current instr [] [] { st with controlFlowCount := count } :=
    { length := hi.length, killed := hi.killed, written := hi.written, read := hi.read, here := here
      unassigned := hi.unassigned
      ahead := fun hk => hi.ahead (Nat.le_of_succ_le hk)
      firstDef := fun hf => ⟨Nat.lt_succ_of_lt (hi.firstDef hf).1, (hi.firstDef hf).2⟩
      lastUse := fun hl => ⟨Nat.lt_succ_of_lt (hi.lastUse hl).1, (hi.lastUse hl).2⟩
      count := fun v => by
        have : st.lastCount v ≤ count := by
          have := hi.count v
          omega
        exact this
      sole := fun {v} hl hc k i hk hin hw => by
        have hc' : st.lastCount v = count := hc
        have := hi.count v
        exact hi.sole hl (by omega) hk hin hw
      defined := by simp
      solely := by simp
      used := by simp }
  obtain ⟨defs, hd, _, hm1⟩ := foldlM_done (P := (RangeMid is current instr · [])) _ hm
    (fun ud hud _ _ _ hm h => hm.definition hud h) h1
  obtain ⟨us, hu, _, hm2⟩ := foldlM_done (P := RangeMid is current instr defs) _ hm1
    (fun ud hud _ _ _ hm h => hm.use hud h) h2
  exact hm2.finish hd hu

theorem RangeInv.loop : ∀ (rest : List Opcode) {current : Nat} {st : LiveRanges},
    RangeInv is current current st → is.drop current = rest →
    rangeLoop n current rest st = some st' → RangeInv is is.length is.length st'
  | [], current, st, hi, hd, h => by
    cases h
    have hlen : is.length ≤ current := drop_eq_nil_iff.mp hd
    refine { hi with
      firstDef := fun hf => ?_, lastUse := fun hl => ?_, ahead := fun {k} hk => ?_
      written := fun hk => hi.written (by omega), read := fun hk => hi.read (by omega)
      sole := fun hl hc k i hk => hi.sole hl hc (by omega) }
    · rw [List.getElem?_eq_none (by rw [hi.length]; exact hk), List.getElem?_eq_none hk]
    · obtain ⟨_, i, hi', hw⟩ := hi.firstDef hf
      exact ⟨(List.getElem?_eq_some_iff.mp hi').1, i, hi', hw⟩
    · obtain ⟨_, i, hi', hw⟩ := hi.lastUse hl
      exact ⟨(List.getElem?_eq_some_iff.mp hi').1, i, hi', hw⟩
  | instr :: rest, current, st, hi, hd, h => by
    obtain ⟨st1, h1, h2⟩ := bind_eq_some_iff.mp h
    have here : is[current]? = some instr := by
      have := congrArg (·[0]?) hd
      simpa using this
    refine RangeInv.loop rest (hi.instruction here h1) ?_ h2
    rw [← drop_drop, hd, drop_one, tail_cons]

end Forward

theorem RangeInv.init (is : List Opcode) : RangeInv is 0 0 ⟨.new, is, 0⟩ where
  length := rfl
  killed h := .inl h
  ahead _ := rfl
  firstDef h := by cases h
  lastUse h := by cases h
  written h := absurd h (Nat.not_lt_zero _)
  read h := absurd h (Nat.not_lt_zero _)
  count _ := Nat.le_refl _
  unassigned _ := rfl
  sole _ _ _ _ h := absurd h (Nat.not_lt_zero _)

/-- **The computed live ranges**: `code` is the list the pass leaves. -/
theorem calculateVregLiveRanges_spec {n : Nat} {is code : List Opcode} {t : RegisterTracker}
    (h : calculateVregLiveRanges n is = some (t, code)) :
    ∃ count, RangeInv is is.length is.length ⟨t, code, count⟩ := by
  obtain ⟨st, hs, h⟩ := bind_eq_some_iff.mp h
  cases h
  exact ⟨st.controlFlowCount, RangeInv.loop is (RangeInv.init is) rfl hs⟩

end Icewind.X86
