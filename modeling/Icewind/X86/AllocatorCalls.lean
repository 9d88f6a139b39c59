import Icewind.X86.AllocatorConflicts

/-!
# Registers saved around calls

* `calledAcross` — the virtual registers held in general registers where the scan records a call, but for the one that
  the call goes through.
* `Allocation.live_at_call` — if none of them is moved afterwards, the registers recorded for a call
  contain the final register of every virtual register that is live across it.
* `Cpu.execAll` — pushes, a call that may change every register the callee need not preserve, and pops.
* `Allocation.keptAcross_of_undisturbed` — such a virtual register keeps its value across the call.
-/

namespace Icewind.X86

open List Option

/-- The instruction is a call through the virtual register `v`. -/
def Opcode.callsThrough (i : Opcode) (v : Nat) : Bool :=
  match i with
  | .call ⟨.register (.virtual u _), _⟩ _ _ => u == v
  | _ => false

/-- The virtual registers to be saved at a call: vector registers are not, nor is the function pointer. -/
def calledAcross (code : List Opcode) (st : Scan) : Event → List Nat
  | .call k => ((PhysicalRegister.all.filter (·.isGpr)).filterMap st.heldBy).filter fun v =>
      !code[k]?.any (·.callsThrough v)
  | _ => []

theorem commitOperands_callsThrough {t : RegisterTracker} {off a b v : Nat} {f : Operand} {fn : PhysicalRegister}
    {w : Width} (h : commitOperands t off (.call f a b) = some (.call ⟨.register (.physical fn), w⟩ a b))
    (hv : (Opcode.call f a b).callsThrough v = true) : (t.virt v).physicalRegister = some fn := by
  unfold Opcode.callsThrough at hv
  split at hv
  · rename_i u cls w' a' b' heq
    cases heq
    cases beq_iff_eq.mp hv
    unfold commitOperands at h
    obtain ⟨i, i', hglobal, hcall, h⟩ := bind₂_eq_some h
    cases hglobal
    obtain ⟨o, ho, hcall⟩ := bind_eq_some_iff.mp hcall
    cases hcall
    cases h
    obtain ⟨r, hr, ho⟩ := bind_eq_some_iff.mp ho
    cases ho
    exact (map_eq_some_iff.mp hr).elim fun p' hp' => Register.physical.inj hp'.2 ▸ hp'.1
  · cases hv

variable {p : PhysicalRegister}

section Calls

variable {st st' : Scan} {x : Nat × RegisterSet}

theorem calls_step {e : Event} (hc : Core st) (h : st.step e = some st') (hx : x ∈ st'.liveAtCalls) :
    x ∈ st.liveAtCalls ∨ (e = .call x.1 ∧ x.2 = st.live) := by
  cases step_cases hc h with
  | define_idle | ended | loaded | released | use_idle => exact .inl hx
  | define_moves _ _ hm | use_moves _ _ _ hm => exact .inl (hm.calls ▸ hx)
  | started _ _ _ hs => exact .inl (hs.calls ▸ hx)
  | occupied _ ho => exact .inl (ho.calls ▸ hx)
  | called =>
    rcases mem_cons.mp hx with rfl | hx
    · exact .inr ⟨rfl, rfl⟩
    · exact .inl hx

variable {es : List Event}

theorem calls_run (hc : Core st) (h : st.run es = some st') (hx : x ∈ st'.liveAtCalls) :
    x ∈ st.liveAtCalls ∨ .call x.1 ∈ es := by
  refine (Scan.run_induct
    (Φ := fun s => Core s ∧ ∀ {x}, x ∈ s.liveAtCalls → x ∈ st.liveAtCalls ∨ .call x.1 ∈ es)
    es (fun e he s s' hs h => ⟨hs.1.step h, fun {y} hy => ?_⟩) h ⟨hc, fun h => .inl h⟩).2 hx
  rcases calls_step hs.1 h hy with hy | ⟨rfl, _⟩
  · exact hs.2 hy
  · exact .inr he

/-- A register of the set that is not moved keeps its home. -/
theorem home_pinned {mark : Scan → Event → List Nat} {g : List Nat} {v : Nat} (hc : Core st)
    (h : st.run es = some st') (hun : Scan.undisturbed mark es st g = true) (hv : st.home v = some p)
    (hg : v ∈ g) : st'.home v = some p := by
  obtain ⟨g', _, hv', _⟩ := Scan.undisturbed_induct (Φ := fun g s => Core s ∧ s.home v = some p ∧ v ∈ g)
    (fun {g s s' e} hΦ h hsp => by
      obtain ⟨hc, hv, hg⟩ := hΦ
      refine ⟨hc.step h, ?_, mem_append_right _ hg⟩
      rcases home_cases hc h (by rw [hv]; simp) with e | ⟨_, hm, _⟩
      · rw [e, hv]
      · exact absurd hg (hsp v hm)) es hun h ⟨hc, hv, hg⟩
  exact hv'

/-- A virtual register stays in registers of one class. -/
theorem home_class {v : Nat} (hc : Core st) (h : st.run es = some st') (hv : st.home v = some p) :
    ∃ q, st'.home v = some q ∧ q.class_ = p.class_ := by
  refine (Scan.run_induct (Φ := fun s => Core s ∧ ∃ q, s.home v = some q ∧ q.class_ = p.class_) es
    (fun e _ s s' hs h => ?_) h ⟨hc, p, hv, rfl⟩).2
  obtain ⟨hc, q, hq, hclass⟩ := hs
  refine ⟨hc.step h, ?_⟩
  rcases home_cases hc h (by rw [hq]; simp) with e | ⟨r, _, ⟨q', hq', hr⟩, _, e, _⟩
  · exact ⟨q, e.trans hq, hclass⟩
  · cases (hc.home hq').symm.trans hq
    exact ⟨r, e, hr.trans hclass⟩

end Calls

theorem isGpr_of_callerSaved {q : PhysicalRegister} (hp : p ∈ callerSaved) (h : p.class_ = q.class_) :
    q.isGpr = true := by
  have hgeneral : p.class_ = .general := by
    revert hp
    cases p <;> decide
  rw [hgeneral, PhysicalRegister.class_] at h
  split at h
  · assumption
  · cases h

namespace Allocation

variable {is : List Opcode} {n off : Nat} (A : Allocation is n off)

/-- **The registers recorded for a call contain what is live across it.** -/
theorem live_at_call (hs : Slotted is)
    (hu : Scan.undisturbed (calledAcross A.code) (events 0 A.code) A.initial [] = true) {k v : Nat} {f : Operand}
    {a b : Nat} {live : RegisterSet} (hk : A.code[k]? = some (.call f a b))
    (hf : (Opcode.call f a b).callsThrough v = false) (hl : LiveAcross A.code v k) (hv : A.assigned v = some p)
    (hp : p ∈ callerSaved) (hlive : (k, live) ∈ A.final.liveAtCalls) : live p = true := by
  obtain ⟨s, g, h1, hc, ht, hheld, hfs, h2, hg⟩ := A.point_across hs hu hl hk hv
  -- the definitions and the uses of the call, the record, and the instructions before the call
  have hev : instructionEvents k (.call f a b) ++ events 0 (A.code.take k) =
      (Opcode.call f a b).definitions.map (.define k (.call f a b)) ++
        ((Opcode.call f a b).uses.map (.use k) ++ (.call k :: events 0 (A.code.take k))) := by
    simp only [instructionEvents, callEvents, append_assoc, cons_append, nil_append]
  rw [hev, Scan.run_append] at h2
  rw [hev] at hg
  obtain ⟨s1, hd, h2⟩ := bind_eq_some_iff.mp h2
  rw [Scan.run_append] at h2
  obtain ⟨s2, hus, h2⟩ := bind_eq_some_iff.mp h2
  rw [Scan.run_cons] at h2
  obtain ⟨s3, hcall, h2⟩ := bind_eq_some_iff.mp h2
  obtain ⟨g1, hg⟩ := Scan.undisturbed_append _ hg hd
  obtain ⟨g2, hg⟩ := Scan.undisturbed_append _ hg hus
  obtain ⟨_, hg⟩ := Scan.undisturbed_cons hcall hg
  have hc1 := hc.run hd
  have hc2 := hc1.run hus
  have hc3 := hc2.step hcall
  obtain ⟨q, hq⟩ := held_uses hc1 hus (held_definitions hc ht (definitions_length_le_two _) hd hheld hfs)
  have h3 : s3.home v = some q := by
    cases hcall
    exact hc2.home hq
  have hgpr : q.isGpr = true := by
    obtain ⟨p', hp', hclass⟩ := home_class hc3 h2 h3
    cases hp'.symm.trans hv
    exact isGpr_of_callerSaved hp hclass
  have hmark : v ∈ calledAcross A.code s2 (.call k) ++ g2 := by
    refine mem_append_left _ (mem_filter.mpr ⟨mem_filterMap.mpr ⟨q, ?_, Scan.heldBy_eq_some.mpr hq⟩, ?_⟩)
    · exact mem_filter.mpr ⟨q.mem_all, hgpr⟩
    · simp [hk, hf]
  have hpq : p = q := by
    have := home_pinned hc3 h2 hg h3 hmark
    exact some.inj (hv.symm.trans this)
  -- the only record with this index is the one made here
  have hrec : live = s2.live := by
    rcases calls_run hc3 h2 hlive with hx | he
    · rcases calls_step hc2 hcall hx with hx | ⟨_, hx⟩
      · exfalso
        rcases calls_run hc1 hus hx with hx | he
        · rcases calls_run hc hd hx with hx | he
          · rcases calls_run (Core.init _) h1 hx with hx | he
            · simp at hx
            · have : k + 1 ≤ k := (events_index _ he).1
              omega
          · obtain ⟨_, _, he⟩ := mem_map.mp he
            cases he
        · obtain ⟨_, _, he⟩ := mem_map.mp he
          cases he
      · exact hx
    · exfalso
      have : k < 0 + (A.code.take k).length := (events_index _ he).2
      have hlen : (A.code.take k).length ≤ k := length_take_le k A.code
      omega
  rw [hrec, hpq]
  exact hq.1

end Allocation

/-! ## The value of a saved register -/

/-- Registers, and the stack from its top. -/
structure Cpu where
  regs : PhysicalRegister → Nat
  stack : List Nat

/-- The registers a callee need not preserve. -/
def clobbered (r : PhysicalRegister) : Bool := callerSaved.contains r || r.isXmm

/-- Slots and calls.  A callee leaves the stack as it found it and any value in the registers it
need not preserve. -/
def Cpu.exec (callee : (PhysicalRegister → Nat) → PhysicalRegister → Nat) (cpu : Cpu) : Opcode → Cpu
  | .push ⟨.register (.physical r), _⟩ => { cpu with stack := cpu.regs r :: cpu.stack }
  | .pop ⟨.register (.physical r), _⟩ =>
    ⟨Function.update cpu.regs r (cpu.stack.headD 0), cpu.stack.tail⟩
  | .call .. => { cpu with regs := fun r => if clobbered r then callee cpu.regs r else cpu.regs r }
  | _ => cpu

def Cpu.execAll (callee : (PhysicalRegister → Nat) → PhysicalRegister → Nat) (cpu : Cpu)
    (is : List Opcode) : Cpu := is.foldl (Cpu.exec callee) cpu

section Exec

variable (callee : (PhysicalRegister → Nat) → PhysicalRegister → Nat)

theorem Cpu.execAll_append (cpu : Cpu) (xs ys : List Opcode) :
    cpu.execAll callee (xs ++ ys) = (cpu.execAll callee xs).execAll callee ys := foldl_append

theorem Cpu.execAll_push : ∀ (rs : List PhysicalRegister) (cpu : Cpu),
    cpu.execAll callee (rs.map fun r => .push (.preg .w64 r)) =
      ⟨cpu.regs, (rs.map cpu.regs).reverse ++ cpu.stack⟩
  | [], cpu => rfl
  | r :: rs, cpu => by
    have ih := Cpu.execAll_push rs ⟨cpu.regs, cpu.regs r :: cpu.stack⟩
    rw [map_cons, map_cons, reverse_cons, append_assoc]
    exact ih

theorem Cpu.execAll_dead : ∀ (n : Nat) (cpu : Cpu), cpu.execAll callee (List.replicate n .dead) = cpu
  | 0, _ => rfl
  | n + 1, cpu => Cpu.execAll_dead n cpu

theorem Cpu.execAll_pop (vals : PhysicalRegister → Nat) (rest : List Nat) :
    ∀ (rs : List PhysicalRegister) (regs : PhysicalRegister → Nat),
      (Cpu.mk regs (rs.map vals ++ rest)).execAll callee (rs.map fun r => .pop (.preg .w64 r)) =
        ⟨fun r => if r ∈ rs then vals r else regs r, rest⟩
  | [], regs => by simp [Cpu.execAll]
  | r :: rs, regs => by
    have ih := Cpu.execAll_pop vals rest rs (Function.update regs r (vals r))
    refine Eq.trans ih ?_
    congr 1
    funext q
    by_cases hq : q = r
    · subst hq
      simp
    · simp [hq]

/-- **Pushes, the call, pops in reverse order**: the pushed registers and the stack are as before. -/
theorem Cpu.execAll_window (saved : List PhysicalRegister) (n : Nat) (function : Operand) (a b : Nat)
    (cpu : Cpu) :
    let cpu' := cpu.execAll callee ((saved.map fun r => .push (.preg .w64 r)) ++
      (List.replicate n .dead ++ (.call function a b :: (List.replicate n .dead ++
        saved.reverse.map fun r => .pop (.preg .w64 r)))))
    cpu'.stack = cpu.stack ∧ ∀ r, r ∈ saved ∨ clobbered r = false → cpu'.regs r = cpu.regs r := by
  intro cpu'
  have h : cpu' = ⟨fun r => if r ∈ saved.reverse then cpu.regs r else
      if clobbered r then callee cpu.regs r else cpu.regs r, cpu.stack⟩ := by
    have hcall := Cpu.execAll_pop callee cpu.regs cpu.stack saved.reverse
      (fun r => if clobbered r then callee cpu.regs r else cpu.regs r)
    rw [map_reverse] at hcall
    simp only [cpu', Cpu.execAll_append, Cpu.execAll_push, Cpu.execAll_dead]
    change Cpu.execAll callee (Cpu.exec callee _ (.call function a b)) _ = _
    rw [Cpu.execAll_append, Cpu.execAll_dead]
    exact hcall
  rw [h]
  refine ⟨rfl, fun r hr => ?_⟩
  rcases hr with hr | hr
  · simp [hr]
  · simp [hr]

end Exec

theorem Saves.window {k : Nat} {saved : List PhysicalRegister} {is : List Opcode} {i : Opcode}
    (h : Saves k saved is) (hk : is[k]? = some i) (hle : callerSaved.length ≤ k)
    (hlen : saved.length ≤ callerSaved.length) :
    (is.drop (k - callerSaved.length)).take (2 * callerSaved.length + 1) =
      (saved.map fun r => .push (.preg .w64 r)) ++
        (List.replicate (callerSaved.length - saved.length) .dead ++ (i ::
          (List.replicate (callerSaved.length - saved.length) .dead ++
            saved.reverse.map fun r => .pop (.preg .w64 r)))) := by
  generalize hN : callerSaved.length = N at *
  refine ext_getElem? fun j => ?_
  have hl : (is.drop (k - N))[j]? = is[k - N + j]? := List.getElem?_drop
  by_cases hj : j < 2 * N + 1
  · rw [List.getElem?_take_of_lt hj, hl]
    by_cases h1 : j < saved.length
    · -- a push
      rw [List.getElem?_append_left (by simpa using h1), List.getElem?_map, List.getElem?_eq_getElem h1]
      have := (h.filled (List.getElem?_eq_getElem h1)).1
      rwa [hN, show k - (N - j) = k - N + j by omega] at this
    rw [List.getElem?_append_right (by simpa using h1), length_map]
    by_cases h2 : j < N
    · -- an empty slot before the call
      have hlt : j - saved.length < N - saved.length := by omega
      rw [List.getElem?_append_left (by simpa using hlt), List.getElem?_replicate_of_lt hlt]
      have := (h.empty (d := N - j) (by omega) (by omega)).1
      rwa [show k - (N - j) = k - N + j by omega] at this
    rw [List.getElem?_append_right (by rw [length_replicate]; omega), length_replicate]
    by_cases h3 : j = N
    · subst h3
      rw [show j - saved.length - (j - saved.length) = 0 by omega, List.getElem?_cons_zero,
        show k - j + j = k by omega]
      exact hk
    obtain ⟨m, hm⟩ : ∃ m, j - saved.length - (N - saved.length) = m + 1 := ⟨j - N - 1, by omega⟩
    rw [hm, List.getElem?_cons_succ]
    by_cases h4 : m < N - saved.length
    · -- an empty slot after the call
      rw [List.getElem?_append_left (by simpa using h4), List.getElem?_replicate_of_lt h4]
      have := (h.empty (d := j - N) (by omega) (by omega)).2
      rwa [show k + (j - N) = k - N + j by omega] at this
    · -- a pop
      rw [List.getElem?_append_right (by rw [length_replicate]; omega), length_replicate,
        List.getElem?_map, List.getElem?_reverse (by omega)]
      have hsub : saved.length - 1 - (m - (N - saved.length)) < saved.length := by omega
      have := (h.filled (List.getElem?_eq_getElem hsub)).2
      rw [List.getElem?_eq_getElem hsub]
      rwa [hN, show k + (N - (saved.length - 1 - (m - (N - saved.length)))) = k - N + j by omega] at this
  · rw [List.getElem?_take_eq_none (by omega), List.getElem?_eq_none]
    simp only [length_append, length_map, length_replicate, length_cons, length_reverse]
    omega

namespace Allocation

variable {is : List Opcode} {n off : Nat} (A : Allocation is n off)

/-- The call at `k`, committed with the function pointer in `fn`, keeps the value of the register
`p`: it is pushed before the call and popped after it, the pops in the reverse order of the pushes,
and the values of `p` before and after agree whatever the callee does. -/
structure KeptAcross (k : Nat) (fn p : PhysicalRegister) : Prop where
  pushed : ∃ j, j < k ∧ k ≤ j + callerSaved.length ∧ A.out[j]? = some (.push (.preg .w64 p))
  popped : ∃ j, k < j ∧ j ≤ k + callerSaved.length ∧ A.out[j]? = some (.pop (.preg .w64 p))
  reversed : ∃ (saved : List PhysicalRegister) (w : Width) (a b : Nat), p ∈ saved ∧
    (A.out.drop (k - callerSaved.length)).take (2 * callerSaved.length + 1) =
      (saved.map fun r => .push (.preg .w64 r)) ++
        (List.replicate (callerSaved.length - saved.length) .dead ++
          (.call ⟨.register (.physical fn), w⟩ a b ::
            (List.replicate (callerSaved.length - saved.length) .dead ++
              saved.reverse.map fun r => .pop (.preg .w64 r))))
  value : ∀ callee (cpu : Cpu), (cpu.execAll callee
    ((A.out.drop (k - callerSaved.length)).take (2 * callerSaved.length + 1))).regs p = cpu.regs p

/-- **A register that is live across a call is saved**, if no virtual register held in a general register at a call, the
function pointer apart, is moved after the scan has passed that call. -/
theorem keptAcross_of_undisturbed (hs : Slotted is)
    (hu : Scan.undisturbed (calledAcross A.code) (events 0 A.code) A.initial [] = true) {k v : Nat}
    {f : Operand} {a b : Nat} {p : PhysicalRegister} (hk : A.code[k]? = some (.call f a b))
    (hl : LiveAcross A.code v k) (hv : A.assigned v = some p) (hp : p ∈ callerSaved)
    (harg : p ∉ argRegs.take a) :
    ∃ fn w, A.out[k]? = some (.call ⟨.register (.physical fn), w⟩ a b) ∧ (p ≠ fn → A.KeptAcross k fn p) := by
  have hsc : Slotted A.code := hs.killed A.calculated
  obtain ⟨rest, hi⟩ := commit_spec hsc A.committed
  have hlt := (List.getElem?_eq_some_iff.mp hk).1
  obtain ⟨fn, w, live, hf, hlive, hsv⟩ := hi.saves hlt hk
  obtain ⟨i', ho, hout⟩ := hi.done hlt hk (by rintro ⟨⟩)
  rw [hf] at ho
  cases ho
  refine ⟨fn, w, hout, fun hfn => ?_⟩
  have hthrough : (Opcode.call f a b).callsThrough v = false := by
    refine Bool.eq_false_iff.mpr fun hthrough => hfn ?_
    exact some.inj (hv.symm.trans (commitOperands_callsThrough hf hthrough))
  have hmem : p ∈ toSave live a fn := by
    refine mem_filter.mpr ⟨hp, ?_⟩
    simp [A.live_at_call hs hu hk hthrough hl hv hp hlive, harg, hfn]
  have hlen := toSave_length live a fn
  have hkle := (hsc hk).1
  have hwin := hsv.window hout hkle hlen
  obtain ⟨sub, hsub⟩ := mem_iff_getElem?.mp hmem
  have hsl := (List.getElem?_eq_some_iff.mp hsub).1
  obtain ⟨hpush, hpop⟩ := hsv.filled hsub
  refine ⟨⟨_, by omega, by omega, hpush⟩, ⟨_, by omega, by omega, hpop⟩, ⟨_, w, a, b, hmem, hwin⟩,
    fun callee cpu => ?_⟩
  rw [hwin]
  exact (Cpu.execAll_window callee _ _ _ a b cpu).2 p (.inl hmem)

end Allocation

/-- A call with its slots. -/
def slottedCall (function : Operand) : List Opcode :=
  List.replicate 9 .dead ++ .call function 0 0 :: List.replicate 9 .dead

/-- A value that is live across a call. -/
def savedAcrossCall : List Opcode :=
  [.mov (.imm .w64 7) (.vreg .w64 0), .mov (.imm .w64 4096) (.vreg .w64 1)] ++
    slottedCall (.vreg .w64 1) ++ [.mov (.vreg .w64 0) (.memSegDispl .w64 .fs 8)]

theorem keptAcross_savedAcrossCall : ∃ A : Allocation savedAcrossCall 2 0,
    Scan.undisturbed (calledAcross A.code) (events 0 A.code) A.initial [] = true ∧ A.assigned 0 = some .rax ∧
      ∃ fn w, A.out[11]? = some (.call ⟨.register (.physical fn), w⟩ 0 0) ∧
        (.rax ≠ fn → A.KeptAcross 11 fn .rax) := by
  have hl : LiveAcross savedAcrossCall 0 11 :=
    ⟨⟨0, _, by decide, rfl, by decide⟩, ⟨21, _, by decide, rfl, by decide⟩⟩
  refine ⟨⟨_, savedAcrossCall, _, _, rfl, rfl, rfl⟩, by decide +kernel, by decide +kernel, ?_⟩
  exact Allocation.keptAcross_of_undisturbed _ (slotted_sound (by decide +kernel)) (by decide +kernel) rfl hl
    (by decide +kernel) (by decide) (by decide)

/-- The same with a definition of `rax` before the call: it moves the value out of `rax` after the
scan has passed the call. -/
def movedAfterCall : List Opcode :=
  [.mov (.imm .w64 7) (.vreg .w64 0), .mov (.imm .w64 4096) (.vreg .w64 1),
    .mov (.imm .w64 2) (.preg .w64 .rax)] ++
    slottedCall (.vreg .w64 1) ++ [.mov (.vreg .w64 0) (.memSegDispl .w64 .fs 8)]

theorem movedAfterCall_lost : ∃ A : Allocation movedAfterCall 2 0, Slotted movedAfterCall ∧
    A.code[12]? = some (.call (.vreg .w64 1) 0 0) ∧ LiveAcross A.code 0 12 ∧
    A.assigned 0 = some .rdx ∧ .rdx ∈ callerSaved ∧ .rdx ∉ argRegs.take 0 ∧
    A.out[12]? = some (.call (.preg .w64 .rcx) 0 0) ∧ .push (.preg .w64 .rdx) ∉ A.out ∧
    ¬ A.KeptAcross 12 .rcx .rdx := by
  have hl : LiveAcross movedAfterCall 0 12 :=
    ⟨⟨0, _, by decide, rfl, by decide⟩, ⟨22, _, by decide, rfl, by decide⟩⟩
  refine ⟨⟨_, movedAfterCall, _, _, rfl, rfl, rfl⟩, slotted_sound (by decide +kernel), rfl, hl,
    by decide +kernel, by decide, by decide, by decide +kernel, by decide +kernel, fun h => ?_⟩
  have := h.value (fun _ _ => 1) ⟨fun _ => 0, []⟩
  revert this
  decide +kernel

end Icewind.X86
