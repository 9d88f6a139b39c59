import Icewind.X86.RegisterAllocator

/-!
# Steps of the allocator's backward scan

* `Scan.step` — one definition, one use or one call of the scan.
* `StepCase`, `step_cases` — everything a step can do.
* `Core` — a live physical register tracks itself or the one virtual register assigned to it, and
  whatever is live is in the interference set of every virtual register that is held.
* `held_step`, `home_step` — how a step changes where virtual registers are.
-/

namespace Icewind.X86

open Option RegisterTracker RegisterSet

/-! ## Register sets -/

variable {q : PhysicalRegister}

namespace RegisterSet

variable (s : RegisterSet)

@[simp] theorem insert_self (r : PhysicalRegister) : s.insert r r = true := by
  simp [insert]

variable {r : PhysicalRegister}

theorem insert_of_ne (h : q ≠ r) : s.insert r q = s q := by
  simp [insert, h]

@[simp] theorem remove_self (r : PhysicalRegister) : s.remove r r = false := by
  simp [remove]

theorem remove_of_ne (h : q ≠ r) : s.remove r q = s q := by
  simp [remove, h]

theorem of_remove {s : RegisterSet} (h : s.remove r q = true) : q ≠ r ∧ s q = true := by
  by_cases e : q = r
  · subst e; simp at h
  · exact ⟨e, by rwa [remove_of_ne _ e] at h⟩

theorem firstDifference_spec {s other : RegisterSet} (h : s.firstDifference other = some r) :
    s r = true ∧ other r = false := by
  have := List.find?_some h
  simpa using this

end RegisterSet

variable {cls : RegisterClass}

theorem allocatePhysReg_spec {inUse : RegisterSet} (h : allocatePhysReg cls inUse = some q) :
    q ∈ availPhysRegs cls ∧ inUse q = false := by
  have := firstDifference_spec h
  simpa using this

theorem availPhysRegs_subset (h : q ∈ availPhysRegs cls) : q ∈ availPhysRegsGpr ++ availPhysRegsXmm := by
  cases cls
  · exact List.mem_append_left _ h
  · exact List.mem_append_right _ h

theorem availPhysRegs_class (h : q ∈ availPhysRegs cls) : q.class_ = cls := by
  cases cls <;> cases q <;> revert h <;> decide

/-! ## The interference loop -/

/-- What the loop over `ps` does: it only enlarges interference sets, and whatever a live register
of `ps` tracks then interferes with everything live. -/
structure Spread (live : RegisterSet) (ps : List PhysicalRegister) (t t' : RegisterTracker) : Prop where
  tracking : ∀ p, (t'.phys p).tracking = (t.phys p).tracking
  track : ∀ v, ∃ s, t'.virt v = { t.virt v with interference := s }
  grows : ∀ v q, (t.virt v).interference q = true → (t'.virt v).interference q = true
  reached : ∀ p ∈ ps, live p = true → ∀ v cls, (t.phys p).tracking = some (.virtual v cls) →
    ∀ q, live q = true → (t'.virt v).interference q = true

theorem Spread.refl (live : RegisterSet) (t : RegisterTracker) : Spread live [] t t where
  tracking _ := rfl
  track _ := ⟨_, rfl⟩
  grows _ _ h := h
  reached _ hp := by simp at hp

variable {live : RegisterSet} {t t' : RegisterTracker} {p : PhysicalRegister}

theorem extendTracked_spec (h : extendTracked live t p = some t') : Spread live [p] t t' := by
  unfold extendTracked at h
  split at h
  · obtain ⟨tracked, ht, h⟩ := bind_eq_some_iff.mp h
    cases tracked with
    | physical r =>
      simp only [RegisterTracker.modify, some.injEq] at h
      subst h
      refine ⟨fun q => ?_, fun v => ⟨_, rfl⟩, fun v q hq => hq, ?_⟩
      · rw [modifyPhys_phys]
        split <;> rfl
      · intro q hq _ v cls hv
        rw [List.mem_singleton.mp hq, ht] at hv
        cases hv
    | virtual r rc =>
      simp only [RegisterTracker.modify, some.injEq] at h
      subst h
      refine ⟨fun q => rfl, fun v => ?_, fun v q hq => ?_, ?_⟩
      · rw [modifyVirt_virt]
        split <;> exact ⟨_, rfl⟩
      · rw [modifyVirt_virt]
        split
        · simp [RegisterSet.extend, hq]
        · exact hq
      · intro q hq _ v cls hv q' hq'
        rw [List.mem_singleton.mp hq, ht] at hv
        cases hv
        simp [modifyVirt_virt, RegisterSet.extend, hq']
    | global g => cases h
  · rename_i hl
    cases h
    refine ⟨fun _ => rfl, fun _ => ⟨_, rfl⟩, fun _ _ hq => hq, ?_⟩
    intro q hq hlq
    rw [List.mem_singleton.mp hq] at hlq
    exact absurd hlq hl

theorem Spread.trans {ps qs : List PhysicalRegister} {t t' t'' : RegisterTracker} (h : Spread live ps t t')
    (h' : Spread live qs t' t'') : Spread live (ps ++ qs) t t'' where
  tracking p := (h'.tracking p).trans (h.tracking p)
  track v := by
    obtain ⟨s, hs⟩ := h.track v
    obtain ⟨s', hs'⟩ := h'.track v
    exact ⟨s', by rw [hs', hs]⟩
  grows v q hq := h'.grows v q (h.grows v q hq)
  reached p hp hl v cls hv q hq := by
    rcases List.mem_append.mp hp with hp | hp
    · exact h'.grows v q (h.reached p hp hl v cls hv q hq)
    · exact h'.reached p hp hl v cls ((h.tracking p).trans hv) q hq

theorem foldlM_extendTracked_spec (live : RegisterSet) : ∀ (ps : List PhysicalRegister)
    {t t' : RegisterTracker}, ps.foldlM (extendTracked live) t = some t' → Spread live ps t t'
  | [], t, t', h => by
    cases h
    exact Spread.refl live t
  | p :: ps, t, t', h => by
    rw [List.foldlM_cons] at h
    obtain ⟨t1, h1, h⟩ := bind_eq_some_iff.mp h
    exact (extendTracked_spec h1).trans (foldlM_extendTracked_spec live ps h)

theorem updateInterference_spec (h : updateInterference live t = some t') :
    Spread live (availPhysRegsGpr ++ availPhysRegsXmm) t t' :=
  foldlM_extendTracked_spec live _ h

/-! ## What the scan keeps track of -/

namespace Scan

/-- The physical register assigned to a virtual one. -/
def home (st : Scan) (v : Nat) : Option PhysicalRegister := (st.tracker.virt v).physicalRegister

/-- The interference set of a virtual register. -/
def avoids (st : Scan) (v : Nat) : RegisterSet := (st.tracker.virt v).interference

def tracking (st : Scan) (p : PhysicalRegister) : Option Register := (st.tracker.phys p).tracking

def firstDef (st : Scan) (v : Nat) : Option Nat := (st.tracker.virt v).firstDef

def lastUse (st : Scan) (v : Nat) : Option Nat := (st.tracker.virt v).lastUse

/-- The live register `p` holds the virtual register `v`. -/
def Holds (st : Scan) (p : PhysicalRegister) (v : Nat) : Prop :=
  st.live p = true ∧ ∃ cls, st.tracking p = some (.virtual v cls)

/-- Some live register holds `v`. -/
def Held (st : Scan) (v : Nat) : Prop := ∃ p, st.Holds p v

end Scan

/-- The invariant every step keeps. -/
structure Core (st : Scan) : Prop where
  tracked : ∀ {p}, st.live p = true →
    st.tracking p = some (.physical p) ∨ ∃ v cls, st.tracking p = some (.virtual v cls)
  home : ∀ {p v}, st.Holds p v → st.home v = some p
  avoids : ∀ {p v q}, st.Holds p v → st.live q = true → st.avoids v q = true
  avail : ∀ {p v cls}, st.live p = true → st.tracking p = some (.virtual v cls) → p ∈ availPhysRegs cls

theorem Core.handed {st : Scan} {p : PhysicalRegister} {v : Nat} (hc : Core st) (h : st.Holds p v) :
    p ∈ availPhysRegsGpr ++ availPhysRegsXmm := by
  obtain ⟨hl, cls, ht⟩ := h
  exact availPhysRegs_subset (hc.avail hl ht)

theorem Core.init (t : RegisterTracker) : Core ⟨t, .empty, []⟩ where
  tracked h := by cases h
  home h := by cases h.1
  avoids h := by cases h.1
  avail h := by cases h

/-- The live ranges and the recorded calls stay as they are, and afterwards everything live is in
the interference set of every virtual register that is held. -/
structure Settles (st st' : Scan) : Prop where
  firstDef : ∀ v, st'.firstDef v = st.firstDef v
  lastUse : ∀ v, st'.lastUse v = st.lastUse v
  calls : st'.liveAtCalls = st.liveAtCalls
  avoids : ∀ {p v q}, p ∈ availPhysRegsGpr ++ availPhysRegsXmm → st'.Holds p v → st'.live q = true →
    st'.avoids v q = true

/-- The virtual register `v` is put into the register `q`. -/
structure Places (st st' : Scan) (v : Nat) (q : PhysicalRegister) : Prop extends Settles st st' where
  avail : ∀ {cls}, st'.tracking q = some (.virtual v cls) → q ∈ availPhysRegs cls
  holds : st'.Holds q v
  home : ∀ u, st'.home u = if u = v then some q else st.home u
  grows : ∀ u ≠ v, ∀ r, st.avoids u r = true → st'.avoids u r = true

/-- A virtual register without a register gets a free one. -/
structure Starts (st st' : Scan) (v : Nat) (q : PhysicalRegister) : Prop extends Places st st' v q where
  homeless : st.home v = none
  free : st.live q = false
  live : st'.live = st.live.insert q
  tracking : ∀ r ≠ q, st'.tracking r = st.tracking r

/-- The virtual register `v`, held by `p`, moves to `q`. -/
structure Moves (st st' : Scan) (v : Nat) (p q : PhysicalRegister) : Prop extends Places st st' v q where
  held : st.Holds p v
  fresh : st.avoids v q = false
  class_eq : q.class_ = p.class_
  vacated : st'.live p = true → st'.tracking p = some (.physical p)
  live : ∀ r ≠ p, r ≠ q → st'.live r = st.live r
  tracking : ∀ r ≠ p, r ≠ q → st'.tracking r = st.tracking r

/-- The register `p` becomes live on its own account. -/
structure Occupies (st st' : Scan) (p : PhysicalRegister) : Prop extends Settles st st' where
  free : ∀ v, ¬ st.Holds p v
  live : st'.live = st.live.insert p
  occupied : st'.tracking p = some (.physical p)
  tracking : ∀ r ≠ p, st'.tracking r = st.tracking r
  home : ∀ u, st'.home u = st.home u
  grows : ∀ u r, st.avoids u r = true → st'.avoids u r = true

/-! ## Each operation of the scan -/

variable {live : RegisterSet} {v : Nat}

section Operations

variable {st st' : Scan}

theorem Spread.home {ps : List PhysicalRegister} (hs : Spread live ps t t') (v : Nat) :
    (t'.virt v).physicalRegister = (t.virt v).physicalRegister := by
  obtain ⟨s, e⟩ := hs.track v
  rw [e]

/-- The common end of the operations that make a register live: the interference loop. -/
theorem settles_of_spread (hs : Spread live (availPhysRegsGpr ++ availPhysRegsXmm) t t')
    (hf : ∀ v, (t.virt v).firstDef = st.firstDef v) (hl : ∀ v, (t.virt v).lastUse = st.lastUse v) :
    Settles st { st with tracker := t', live := live } where
  firstDef v := by
    obtain ⟨s, e⟩ := hs.track v
    simp only [Scan.firstDef, e]
    exact hf v
  lastUse v := by
    obtain ⟨s, e⟩ := hs.track v
    simp only [Scan.lastUse, e]
    exact hl v
  calls := rfl
  avoids := by
    rintro p v q hp ⟨hpl, cls, ht⟩ hq
    exact hs.reached p hp hpl v cls ((hs.tracking p).symm.trans ht) q hq

/-- The tracker `t` puts `v` into `q`, then the interference loop runs. -/
theorem places_of_spread (st : Scan) (cls : RegisterClass) {live s : RegisterSet}
    (hs : Spread live (availPhysRegsGpr ++ availPhysRegsXmm) t t')
    (hv : ∀ u, t.virt u = if u = v then
      { st.tracker.virt u with physicalRegister := some q, interference := s } else st.tracker.virt u)
    (hq : q ∈ availPhysRegs cls) (hl : live q = true)
    (ht : (t.phys q).tracking = some (.virtual v cls)) :
    Places st { st with tracker := t', live := live } v q := by
  refine { settles_of_spread hs (fun u => ?_) (fun u => ?_) with
    avail := fun {cls'} ht' => ?_
    holds := ⟨hl, cls, (hs.tracking q).trans ht⟩
    home := fun u => ?_
    grows := fun u hu r hr => hs.grows u r ?_ }
  · rw [hv u]
    split <;> rfl
  · rw [hv u]
    split <;> rfl
  · cases ((hs.tracking q).trans ht).symm.trans ht'
    exact hq
  · simp only [Scan.home, hs.home, hv u]
    split <;> rfl
  · rw [hv u, if_neg hu]
    exact hr

variable {p : PhysicalRegister} {cls : RegisterClass}

/-- A definition of a register that holds a virtual one moves that one away. -/
theorem definePhysical_moves (hc : Core st) (hl : st.live p = true) (ht : st.tracking p = some (.virtual v cls))
    (h : definePhysical p st = some st') : st'.live p = false ∧ ∃ q, Moves st st' v p q := by
  have hh : st.Holds p v := ⟨hl, cls, ht⟩
  unfold definePhysical at h
  rw [if_pos hl] at h
  unfold Scan.tracking at ht
  simp only [ht] at h
  obtain ⟨q, t, hq, hu, h⟩ := bind₂_eq_some h
  cases h
  obtain ⟨hqa, hqf⟩ := allocatePhysReg_spec hq
  have hpq : p ≠ q := by
    rintro rfl
    exact Bool.noConfusion (hqf.symm.trans (hc.avoids hh hl))
  have hs := updateInterference_spec hu
  have hpl : (st.live.remove p).insert q p = false := by
    rw [insert_of_ne _ hpq, remove_self]
  have hP := places_of_spread st cls (v := v) (q := q) (s := (st.live.remove p).insert q) hs (fun u => by
      simp only [modifyVirt_virt, modifyPhys_virt]
      split <;> rfl) hqa (insert_self _ _) (by
      simp [modifyPhys_phys])
  have hclass : q.class_ = p.class_ :=
    (availPhysRegs_class hqa).trans (availPhysRegs_class (hc.avail hl ht)).symm
  refine ⟨hpl, q,
    { hP with held := hh, fresh := hqf, class_eq := hclass, vacated := ?_, live := ?_, tracking := ?_ }⟩
  · intro hp
    exact Bool.noConfusion (hpl.symm.trans hp)
  · intro r hrp hrq
    exact (insert_of_ne _ hrq).trans (remove_of_ne _ hrp)
  · intro r _ hrq
    simp [Scan.tracking, hs.tracking, modifyPhys_phys, hrq]

theorem useVirtual_starts {c v : Nat} (hl : st.lastUse v = some c) (hn : st.home v = none)
    (h : useVirtual c v cls st = some st') : ∃ q ∈ availPhysRegs cls, Starts st st' v q := by
  unfold useVirtual at h
  rw [if_pos ⟨hl, hn⟩] at h
  obtain ⟨q, t, hq, hu, h⟩ := bind₂_eq_some h
  cases h
  obtain ⟨hqa, hqf⟩ := allocatePhysReg_spec hq
  have hs := updateInterference_spec hu
  have hP := places_of_spread st cls (v := v) (q := q) (s := st.live.insert q) hs (fun u => by
      simp only [modifyVirt_virt, modifyPhys_virt])
    hqa (insert_self _ _) (by simp [modifyPhys_phys])
  refine ⟨q, hqa, { hP with homeless := hn, free := hqf, live := rfl, tracking := ?_ }⟩
  intro r hr
  simp [Scan.tracking, hs.tracking, modifyPhys_phys, hr]

/-- A use of a register that holds a virtual one moves that one away, and keeps its interference. -/
theorem usePhysical_moves (hc : Core st) (hl : st.live p = true) (ht : st.tracking p = some (.virtual v cls))
    (h : usePhysical p st = some st') :
    st'.live p = true ∧ (∀ r, st.avoids v r = true → st'.avoids v r = true) ∧ ∃ q, Moves st st' v p q := by
  have hh : st.Holds p v := ⟨hl, cls, ht⟩
  unfold Scan.tracking at ht
  unfold usePhysical at h
  rw [if_pos ⟨hl, by rw [ht]; simp⟩] at h
  simp only [ht, RegisterTracker.get, RegisterTracker.modify, bind_eq_bind, bind_some] at h
  obtain ⟨q, t, hq, hu, h⟩ := bind₂_eq_some h
  cases h
  obtain ⟨hqa, hqf⟩ := allocatePhysReg_spec hq
  have hcls : p.class_ = cls := availPhysRegs_class (hc.avail hl ht)
  have hpq : p ≠ q := by
    rintro rfl
    exact Bool.noConfusion (hqf.symm.trans (hc.avoids hh hl))
  have hs := updateInterference_spec hu
  have hP := places_of_spread st cls (v := v) (q := q)
    (s := (st.tracker.virt v).interference.extend (st.live.insert q)) hs
    (fun u => by
      simp only [modifyVirt_virt, modifyPhys_virt]
      split
      · rename_i e; subst e; rfl
      · rfl)
    (hcls ▸ hqa) (insert_self _ _) (by simp [modifyPhys_phys])
  have hpl : st.live.insert q p = true := (insert_of_ne _ hpq).trans hl
  refine ⟨hpl, ?_, q, { hP with
    held := hh, fresh := hqf, class_eq := availPhysRegs_class hqa, vacated := ?_, live := ?_, tracking := ?_
    avoids := ?_, holds := ?_, avail := ?_ }⟩
  · intro r hr
    refine hs.grows v r ?_
    have hr' : (st.tracker.virt v).interference r = true := hr
    simp [modifyVirt_virt, RegisterSet.extend, hr']
  · rintro r u a hr ⟨hrl, cls', hrt⟩ ha
    refine hP.avoids hr ⟨hrl, cls', ?_⟩ ha
    have hrp : r ≠ p := by
      rintro rfl
      simp [Scan.tracking, modifyPhys_phys] at hrt
    simpa [Scan.tracking, modifyPhys_phys, hrp] using hrt
  · intro cls' hqt
    exact hP.avail (by simpa [Scan.tracking, modifyPhys_phys, hpq.symm] using hqt)
  · obtain ⟨hql, cls', hqt⟩ := hP.holds
    exact ⟨hql, cls', by simpa [Scan.tracking, modifyPhys_phys, hpq.symm] using hqt⟩
  · intro _
    simp [Scan.tracking, modifyPhys_phys]
  · intro r _ hrq
    exact insert_of_ne _ hrq
  · intro r hrp hrq
    simp [Scan.tracking, modifyPhys_phys, hs.tracking, hrp, hrq]

theorem usePhysical_occupies (hc : Core st) (hn : ∀ v, ¬ st.Holds p v) (h : usePhysical p st = some st') :
    Occupies st st' p := by
  unfold usePhysical at h
  split at h
  · rename_i hp
    rcases hc.tracked hp.1 with ht | ⟨v, cls, ht⟩
    · exact absurd ht hp.2
    · exact absurd ⟨hp.1, cls, ht⟩ (hn v)
  · obtain ⟨t, hu, h⟩ := bind_eq_some_iff.mp h
    cases h
    have hs := updateInterference_spec hu
    refine { settles_of_spread hs (fun _ => rfl) (fun _ => rfl) with
      free := hn, live := rfl, occupied := ?_, tracking := ?_, home := ?_, grows := ?_ }
    · simp [Scan.tracking, hs.tracking, modifyPhys_phys]
    · intro r hr
      simp [Scan.tracking, hs.tracking, modifyPhys_phys, hr]
    · intro u
      simp [Scan.home, hs.home]
    · intro u r hr
      exact hs.grows u r hr

end Operations

/-! ## The scan as a sequence of steps -/

/-- One step of the scan: a definition or a use of the instruction at an index, or its record as a
call. -/
inductive Event where
  | define (current : Nat) (instr : Opcode) (ud : UseDef)
  | use (current : Nat) (ud : UseDef)
  | call (current : Nat)

/-- A step; skipping an instruction is not one. -/
def Scan.step (st : Scan) : Event → Option Scan
  | .define current instr ud =>
    match define current instr ud st with
    | some (st', false) => some st'
    | _ => none
  | .use current ud => use current ud st
  | .call current => some { st with liveAtCalls := (current, st.live) :: st.liveAtCalls }

def Scan.run (st : Scan) (es : List Event) : Option Scan := es.foldlM Scan.step st

def callEvents (current : Nat) : Opcode → List Event
  | .call .. => [.call current]
  | _ => []

/-- The steps of one instruction. -/
def instructionEvents (current : Nat) (instr : Opcode) : List Event :=
  instr.definitions.map (.define current instr) ++ instr.uses.map (.use current) ++ callEvents current instr

/-- The steps of the instructions from index `current` on, the last instruction first. -/
def events : Nat → List Opcode → List Event
  | _, [] => []
  | current, instr :: rest => events (current + 1) rest ++ instructionEvents current instr

/-- The virtual register a physical one holds. -/
def Scan.heldBy (st : Scan) (p : PhysicalRegister) : Option Nat :=
  if st.live p then
    match st.tracking p with
    | some (.virtual v _) => some v
    | _ => none
  else none

theorem Scan.heldBy_eq_some {st : Scan} : st.heldBy p = some v ↔ st.Holds p v := by
  unfold Scan.heldBy Scan.Holds
  split
  · rename_i hl
    split
    · rename_i u cls ht
      rw [ht]
      simp [hl]
    · rename_i hn
      simp only [reduceCtorEq, hl, true_and, false_iff, not_exists]
      intro cls ht
      exact hn v cls ht
  · rename_i hl
    simp [hl]

/-- The virtual register a step moves to another physical register. -/
def Scan.moved (st : Scan) : Event → Option Nat
  | .define _ _ ud =>
    match ud.defined with
    | some (.physical p) => st.heldBy p
    | _ => none
  | .use _ ud =>
    match ud.used with
    | some (.physical p) => st.heldBy p
    | _ => none
  | .call _ => none

/-- **Everything a step can do.** -/
inductive StepCase (st : Scan) : Event → Scan → Prop where
  /-- Nothing to do: not the first definition, or not the last use, or a register that is not live. -/
  | define_idle {c : Nat} {i : Opcode} {ud : UseDef} :
      (∀ v cls, ud.defined = some (.virtual v cls) → st.firstDef v ≠ some c) →
      (∀ p, ud.defined = some (.physical p) → st.live p = false) →
      StepCase st (.define c i ud) st
  /-- The live range of a virtual register starts here. -/
  | ended {c : Nat} {i : Opcode} {ud : UseDef} {v : Nat} {cls : RegisterClass} {p : PhysicalRegister} {l : Nat} :
      ud.defined = some (.virtual v cls) → st.firstDef v = some c → st.lastUse v = some l →
      st.home v = some p → StepCase st (.define c i ud) { st with live := st.live.remove p }
  /-- A load whose result is never read. -/
  | loaded {c : Nat} {i : Opcode} {ud : UseDef} {v : Nat} {cls : RegisterClass} {q : PhysicalRegister}
      {src dst : Operand} :
      ud.defined = some (.virtual v cls) → st.firstDef v = some c → st.lastUse v = none →
      st.home v = none → i = .mov src dst → (∃ b x s d g, src.kind = .memory b x s d g) →
      StepCase st (.define c i ud)
        { st with tracker := st.tracker.modifyVirt v fun t => { t with physicalRegister := some q } }
  | released {c : Nat} {i : Opcode} {ud : UseDef} {p : PhysicalRegister} :
      ud.defined = some (.physical p) → st.live p = true → st.tracking p = some (.physical p) →
      StepCase st (.define c i ud) { st with live := st.live.remove p }
  | define_moves {c : Nat} {i : Opcode} {ud : UseDef} {v : Nat} {p q : PhysicalRegister} {st' : Scan} :
      ud.defined = some (.physical p) → st'.live p = false → Moves st st' v p q →
      StepCase st (.define c i ud) st'
  | use_idle {c : Nat} {ud : UseDef} :
      (∀ v cls, ud.used = some (.virtual v cls) → st.lastUse v = some c → st.home v ≠ none) →
      (∀ p, ud.used ≠ some (.physical p)) → StepCase st (.use c ud) st
  | started {c : Nat} {ud : UseDef} {v : Nat} {cls : RegisterClass} {q : PhysicalRegister} {st' : Scan} :
      ud.used = some (.virtual v cls) → st.lastUse v = some c → q ∈ availPhysRegs cls →
      Starts st st' v q → StepCase st (.use c ud) st'
  | use_moves {c : Nat} {ud : UseDef} {v : Nat} {p q : PhysicalRegister} {st' : Scan} :
      ud.used = some (.physical p) → st'.live p = true →
      (∀ r, st.avoids v r = true → st'.avoids v r = true) → Moves st st' v p q →
      StepCase st (.use c ud) st'
  | occupied {c : Nat} {ud : UseDef} {p : PhysicalRegister} {st' : Scan} :
      ud.used = some (.physical p) → Occupies st st' p → StepCase st (.use c ud) st'
  | called {c : Nat} : StepCase st (.call c) { st with liveAtCalls := (c, st.live) :: st.liveAtCalls }

section Steps

variable {st st' : Scan} {p : PhysicalRegister} {v : Nat}
variable {e : Event}
variable {q : PhysicalRegister}
variable {u : Nat}

section

variable (hc : Core st)

include hc

theorem definePhysical_cases {c : Nat} {i : Opcode} {ud : UseDef} (hd : ud.defined = some (.physical p))
    (h : definePhysical p st = some st') : StepCase st (.define c i ud) st' := by
  by_cases hl : st.live p = true
  · rcases hc.tracked hl with ht | ⟨v, cls, ht⟩
    · unfold definePhysical at h
      unfold Scan.tracking at ht
      simp only [hl, if_true, ht, some.injEq] at h
      subst h
      exact .released hd hl ht
    · obtain ⟨hl', q, hm⟩ := definePhysical_moves hc hl ht h
      exact .define_moves hd hl' hm
  · unfold definePhysical at h
    rw [if_neg hl] at h
    cases h
    refine .define_idle (fun v cls hv => ?_) (fun r hr => ?_)
    · rw [hd] at hv; cases hv
    · rw [hd] at hr; cases hr
      exact Bool.eq_false_iff.mpr hl

omit hc in
theorem defineVirtual_cases {c : Nat} {i : Opcode} {ud : UseDef} (hd : ud.defined = some (.virtual v cls))
    (h : defineVirtual c i v cls st = some (st', false)) : StepCase st (.define c i ud) st' := by
  unfold defineVirtual at h
  dsimp only at h
  split at h
  · rename_i hf
    split at h
    · rename_i hu
      split at h
      · split at h
        · cases h
        · rename_i hn
          obtain ⟨q, _, h⟩ := bind_eq_some_iff.mp h
          cases h
          exact .loaded hd hf hu (by simpa [Scan.home] using hn) rfl ⟨_, _, _, _, _, rfl⟩
      · cases h
    · rename_i l hu
      obtain ⟨p, hp, h⟩ := bind_eq_some_iff.mp h
      cases h
      exact .ended hd hf hu hp
  · rename_i hf
    cases h
    refine .define_idle (fun u c' hv => ?_) (fun r hr => ?_)
    · rw [hd] at hv; cases hv
      exact hf
    · rw [hd] at hr; cases hr

theorem step_cases (h : st.step e = some st') : StepCase st e st' := by
  cases e with
  | define c i ud =>
    simp only [Scan.step] at h
    split at h
    · rename_i s hs
      cases h
      unfold define at hs
      split at hs
      · rename_i v cls hd
        exact defineVirtual_cases hd hs
      · rename_i p hd
        obtain ⟨s', hs', e⟩ := bind_eq_some_iff.mp hs
        cases e
        exact definePhysical_cases hc hd hs'
      · rename_i hv hp
        cases hs
        exact .define_idle (fun v cls hd => absurd hd (hv v cls)) (fun p hd => absurd hd (hp p))
    · cases h
  | use c ud =>
    simp only [Scan.step] at h
    unfold use at h
    split at h
    · rename_i v cls hd
      by_cases hs : st.lastUse v = some c ∧ st.home v = none
      · obtain ⟨q, hq, hst⟩ := useVirtual_starts hs.1 hs.2 h
        exact .started hd hs.1 hq hst
      · have h' : st = st' := by
          exact some.inj ((if_neg hs).symm.trans h)
        subst h'
        refine .use_idle (fun u c' hu hl hn => ?_) (fun p hp => ?_)
        · rw [hd] at hu; cases hu
          exact hs ⟨hl, hn⟩
        · rw [hd] at hp; cases hp
    · rename_i p hd
      by_cases hh : ∃ v, st.Holds p v
      · obtain ⟨v, hl, cls, ht⟩ := hh
        obtain ⟨hl', hg, q, hm⟩ := usePhysical_moves hc hl ht h
        exact .use_moves hd hl' hg hm
      · exact .occupied hd (usePhysical_occupies hc (fun v hv => hh ⟨v, hv⟩) h)
    · rename_i hv hp
      cases h
      exact .use_idle (fun v cls hd => absurd hd (hv v cls)) hp
  | call c =>
    cases h
    exact .called

/-! ## Steps keep the invariant -/

theorem Core.shrink (h : ∀ p, live p = true → st.live p = true) : Core { st with live := live } where
  tracked hp := hc.tracked (h _ hp)
  home hp := hc.home ⟨h _ hp.1, hp.2⟩
  avoids hp hq := hc.avoids ⟨h _ hp.1, hp.2⟩ (h _ hq)
  avail hp := hc.avail (h _ hp)

omit hc in
theorem Scan.Holds.unique {u : Nat} (hu : st.Holds p u) (hv : st.Holds p v) : u = v := by
  obtain ⟨_, cls, ht⟩ := hu
  obtain ⟨_, cls', ht'⟩ := hv
  rw [ht] at ht'
  cases ht'
  rfl

/-- Putting a virtual register into a register keeps the invariant if the others hold what they held. -/
theorem Core.places (h : Places st st' v q)
    (tracked : ∀ {r}, r ≠ q → st'.live r = true →
      st'.tracking r = some (.physical r) ∨ ∃ v cls, st'.tracking r = some (.virtual v cls))
    (old : ∀ {r u cls}, r ≠ q → st'.live r = true → st'.tracking r = some (.virtual u cls) →
      u ≠ v ∧ st.live r = true ∧ st.tracking r = some (.virtual u cls)) : Core st' := by
  have avail : ∀ {r u cls}, st'.live r = true → st'.tracking r = some (.virtual u cls) → r ∈ availPhysRegs cls := by
    intro r u cls hl ht
    by_cases e : r = q
    · subst e
      have huv : u = v := Scan.Holds.unique ⟨hl, cls, ht⟩ h.holds
      exact h.avail (huv ▸ ht)
    · obtain ⟨-, hl', ht'⟩ := old e hl ht
      exact hc.avail hl' ht'
  have handed : ∀ {r u}, st'.Holds r u → r ∈ availPhysRegsGpr ++ availPhysRegsXmm := by
    rintro r u ⟨hl, cls, ht⟩
    exact availPhysRegs_subset (avail hl ht)
  refine ⟨fun {r} hl => ?_, fun {r u} hr => ?_, fun hr hl => h.avoids (handed hr) hr hl, avail⟩
  · by_cases e : r = q
    · subst e
      exact .inr ⟨v, h.holds.2⟩
    · exact tracked e hl
  · rw [h.home]
    by_cases e : r = q
    · subst e
      rw [if_pos (hr.unique h.holds)]
    · obtain ⟨hl, cls, ht⟩ := hr
      obtain ⟨huv, hold⟩ := old e hl ht
      rw [if_neg huv, hc.home ⟨hold.1, cls, hold.2⟩]

theorem Core.starts (h : Starts st st' v q) : Core st' := by
  have live : ∀ {r}, r ≠ q → st'.live r = true → st.live r = true := by
    intro r hr hl
    rwa [h.live, insert_of_ne _ hr] at hl
  refine hc.places h.toPlaces (fun {r} hr hl => ?_) (fun {r u cls} hr hl ht => ?_)
  · rw [h.tracking r hr]
    exact hc.tracked (live hr hl)
  · rw [h.tracking r hr] at ht
    refine ⟨?_, live hr hl, ht⟩
    rintro rfl
    cases h.homeless.symm.trans (hc.home ⟨live hr hl, cls, ht⟩)

theorem Moves.ne (h : Moves st st' v p q) : p ≠ q := by
  rintro rfl
  exact Bool.noConfusion (h.fresh.symm.trans (hc.avoids h.held h.held.1))

/-- The target of a move is a register that is not live. -/
theorem Moves.free (h : Moves st st' v p q) : st.live q = false := by
  refine Bool.eq_false_iff.mpr fun hq => ?_
  exact Bool.noConfusion (h.fresh.symm.trans (hc.avoids h.held hq))

variable {r : PhysicalRegister}

omit hc in
/-- After a move every other register still holds what it held. -/
theorem Moves.holds_old (h : Moves st st' v p q) (hr : r ≠ q) (hh : st'.Holds r u) : r ≠ p ∧ st.Holds r u := by
  obtain ⟨hl, cls, ht⟩ := hh
  have hp : r ≠ p := by
    rintro rfl
    rw [h.vacated hl] at ht
    cases ht
  exact ⟨hp, (h.live r hp hr).symm.trans hl, cls, (h.tracking r hp hr).symm.trans ht⟩

theorem Core.moves (h : Moves st st' v p q) : Core st' := by
  refine hc.places h.toPlaces (fun {r} hr hl => ?_) (fun {r u cls} hr hl ht => ?_)
  · by_cases ep : r = p
    · subst ep
      exact .inl (h.vacated hl)
    · rw [h.tracking r ep hr]
      exact hc.tracked ((h.live r ep hr).symm.trans hl)
  · obtain ⟨hp, hold⟩ := h.holds_old hr ⟨hl, cls, ht⟩
    refine ⟨?_, hold.1, (h.tracking r hp hr).symm.trans ht⟩
    rintro rfl
    exact hp (some.inj ((hc.home hold).symm.trans (hc.home h.held)))

omit hc in
theorem Occupies.holds_old (h : Occupies st st' p) (hh : st'.Holds r u) : r ≠ p ∧ st.Holds r u := by
  obtain ⟨hl, cls, ht⟩ := hh
  have hp : r ≠ p := by
    rintro rfl
    rw [h.occupied] at ht
    cases ht
  rw [h.live, insert_of_ne _ hp] at hl
  exact ⟨hp, hl, cls, (h.tracking r hp).symm.trans ht⟩

theorem Core.occupies (h : Occupies st st' p) : Core st' where
  tracked := by
    intro r hl
    by_cases e : r = p
    · subst e
      exact .inl h.occupied
    · rw [h.tracking r e]
      refine hc.tracked ?_
      rwa [h.live, insert_of_ne _ e] at hl
  home hr := (h.home _).trans (hc.home (h.holds_old hr).2)
  avoids hr hl := h.avoids (hc.handed (h.holds_old hr).2) hr hl
  avail := by
    intro r u cls hl ht
    obtain ⟨hp, hold⟩ := h.holds_old ⟨hl, cls, ht⟩
    exact hc.avail hold.1 ((h.tracking r hp).symm.trans ht)

/-- **Every step keeps the invariant.** -/
theorem Core.step (h : st.step e = some st') : Core st' := by
  cases step_cases hc h with
  | define_idle | use_idle => exact hc
  | ended | released => exact hc.shrink fun _ hp => (of_remove hp).2
  | @loaded c i ud v cls q src dst hd hf hu hn =>
    have other : ∀ {p u}, st.Holds p u → u ≠ v := by
      rintro p u hp rfl
      rw [hc.home hp] at hn
      cases hn
    refine ⟨hc.tracked, fun {p u} hp => ?_, fun {p u q} hp hq => ?_, hc.avail⟩
    · simp only [Scan.home, modifyVirt_virt, if_neg (other hp)]
      exact hc.home hp
    · simp only [Scan.avoids, modifyVirt_virt, if_neg (other hp)]
      exact hc.avoids hp hq
  | define_moves _ _ hm | use_moves _ _ _ hm => exact hc.moves hm
  | started _ _ _ hs => exact hc.starts hs
  | occupied _ ho => exact hc.occupies ho
  | called => exact ⟨hc.tracked, hc.home, hc.avoids, hc.avail⟩

theorem step_ranges (h : st.step e = some st') (v : Nat) :
    st'.firstDef v = st.firstDef v ∧ st'.lastUse v = st.lastUse v := by
  cases step_cases hc h with
  | define_idle | ended | released | use_idle | called => exact ⟨rfl, rfl⟩
  | loaded =>
    simp only [Scan.firstDef, Scan.lastUse, modifyVirt_virt]
    split <;> exact ⟨rfl, rfl⟩
  | define_moves _ _ hm | use_moves _ _ _ hm => exact ⟨hm.firstDef v, hm.lastUse v⟩
  | started _ _ _ hs => exact ⟨hs.firstDef v, hs.lastUse v⟩
  | occupied _ ho => exact ⟨ho.firstDef v, ho.lastUse v⟩

theorem Moves.held_other (h : Moves st st' v p q) (hu : st.Holds r u) : st'.Held u := by
  by_cases e : u = v
  · subst e
    exact ⟨q, h.holds⟩
  · have hp : r ≠ p := by
      rintro rfl
      exact e (hu.unique h.held)
    have hq : r ≠ q := by
      rintro rfl
      exact Bool.noConfusion ((h.free hc).symm.trans hu.1)
    obtain ⟨hl, cls, ht⟩ := hu
    exact ⟨r, (h.live r hp hq).trans hl, cls, (h.tracking r hp hq).trans ht⟩

/-- **What is held stays held**, unless a live range that has the same register starts here. -/
theorem held_step (h : st.step e = some st') (hu : st.Holds r u)
    (hend : ∀ {c i ud w cls l}, e = .define c i ud → ud.defined = some (.virtual w cls) →
      st.firstDef w = some c → st.lastUse w = some l → st.home w ≠ some r) : st'.Held u := by
  cases step_cases hc h with
  | define_idle | loaded | use_idle | called => exact ⟨r, hu⟩
  | @ended c i ud v cls p l hd hf hl hp =>
    have hrp : r ≠ p := by
      rintro rfl
      exact hend rfl hd hf hl hp
    exact ⟨r, (remove_of_ne _ hrp).trans hu.1, hu.2⟩
  | @released c i ud p hd hl ht =>
    have hrp : r ≠ p := by
      rintro rfl
      obtain ⟨_, cls, ht'⟩ := hu
      rw [ht] at ht'
      cases ht'
    exact ⟨r, (remove_of_ne _ hrp).trans hu.1, hu.2⟩
  | define_moves _ _ hm | use_moves _ _ _ hm => exact hm.held_other hc hu
  | @started c ud v cls q _ hd hl hq hs =>
    have hrq : r ≠ q := by
      rintro rfl
      exact Bool.noConfusion (hs.free.symm.trans hu.1)
    obtain ⟨hl, cls, ht⟩ := hu
    refine ⟨r, ?_, cls, (hs.tracking r hrq).trans ht⟩
    rw [hs.live, insert_of_ne _ hrq, hl]
  | @occupied c ud p _ hd ho =>
    have hrp : r ≠ p := by
      rintro rfl
      exact ho.free u hu
    obtain ⟨hl, cls, ht⟩ := hu
    refine ⟨r, ?_, cls, (ho.tracking r hrp).trans ht⟩
    rw [ho.live, insert_of_ne _ hrp, hl]

/-- How a virtual register comes by a physical one. -/
theorem home_step (h : st.step e = some st') (hu : st'.home u ≠ none) :
    st.home u ≠ none ∨ (∃ c ud, e = .use c ud ∧ st.lastUse u = some c ∧ st'.Held u) ∨
      (∃ c i ud src dst, e = .define c i ud ∧ st.lastUse u = none ∧ st.firstDef u = some c ∧
        i = .mov src dst ∧ ∃ b x s d g, src.kind = .memory b x s d g) := by
  cases step_cases hc h with
  | define_idle | ended | released | use_idle | called => exact .inl hu
  | @loaded c i ud v cls q src dst hd hf hl hn hi hm =>
    by_cases e : u = v
    · subst e
      exact .inr (.inr ⟨c, i, ud, src, dst, rfl, hl, hf, hi, hm⟩)
    · simp only [Scan.home, modifyVirt_virt, if_neg e] at hu
      exact .inl hu
  | define_moves _ _ hm | use_moves _ _ _ hm =>
    rw [hm.home] at hu
    split at hu
    · rename_i e
      rw [e, hc.home hm.held]
      exact .inl (by simp)
    · exact .inl hu
  | @started c ud v cls q _ hd hl hq hs =>
    rw [hs.home] at hu
    split at hu
    · rename_i e
      subst e
      exact .inr (.inl ⟨c, ud, rfl, hl, q, hs.holds⟩)
    · exact .inl hu
  | occupied _ ho =>
    rw [ho.home] at hu
    exact .inl hu

end

end Steps

end Icewind.X86
