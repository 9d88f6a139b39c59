import Icewind.X86.AllocatorRanges

/-!
# What `commit` leaves

* `Slotted` — every call has nine unused slots of its own on either side, as the emitter lays it out.
* `CommitInv`, `commit_spec` — on a slotted list, `commit` rewrites the operands of every
  instruction, and fills the slots of a call with the pushes and pops of the registers it saves.
-/

namespace Icewind.X86

open List Option Opcode

/-! ## Operands -/

/-- The register of an entry of the use/def table. -/
def UseDef.reg : UseDef → Register
  | .use r => r
  | .def_ r => r
  | .useDef r => r

variable {r : Register}

theorem UseDef.defined_eq_some {ud : UseDef} (h : ud.defined = some r) : ud.reg = r := by
  cases ud <;> simp_all [UseDef.defined, UseDef.reg]

theorem UseDef.used_eq_some {ud : UseDef} (h : ud.used = some r) : ud.reg = r := by
  cases ud <;> simp_all [UseDef.used, UseDef.reg]

/-- The registers `get_use_defs` finds in an operand. -/
def Operand.seen (o : Operand) : List Register :=
  match o.kind with
  | .memory (some base) none .. => [base]
  | .memory (some base) (some index) .. => [base, index]
  | .register r => [r]
  | _ => []

theorem Operand.seen_useDefs (d : OperandDirection) (o : Operand) : (o.useDefs d).map (fun p => p.1.reg) = o.seen := by
  obtain ⟨k, w⟩ := o
  cases k with
  | memory base index scale displacement segment => cases base <;> cases index <;> rfl
  | register r => cases d <;> rfl
  | immediate | target => rfl

variable {i : Opcode} {o : Operand}

theorem mem_getApparentOperands {d : OperandDirection} (h : (d, o) ∈ i.getApparentOperands) :
    o ∈ i.operands ∨ ∃ w p, o = Operand.preg w p := by
  unfold getApparentOperands at h
  split at h
  · simp only [mem_cons, Prod.mk.injEq, not_mem_nil, or_false] at h
    rcases h with ⟨_, rfl⟩ | ⟨_, rfl⟩ <;> exact .inr ⟨_, _, rfl⟩
  · simp at h
  · simp only [mem_cons, Prod.mk.injEq, not_mem_nil, or_false] at h
    rcases h with ⟨_, rfl⟩ | ⟨_, rfl⟩ | ⟨_, rfl⟩
    · exact .inr ⟨_, _, rfl⟩
    · exact .inr ⟨_, _, rfl⟩
    · exact .inl (by simp [operands])
  · simp only [mem_cons, Prod.mk.injEq, not_mem_nil, or_false] at h
    rcases h with ⟨_, rfl⟩ | ⟨_, rfl⟩ | ⟨_, rfl⟩
    · exact .inr ⟨_, _, rfl⟩
    · exact .inr ⟨_, _, rfl⟩
    · exact .inl (by simp [operands])
  · simp only [mem_cons, Prod.mk.injEq, not_mem_nil, or_false] at h
    exact .inl (by simp [operands, h.2])
  · simp only [mem_cons, Prod.mk.injEq, not_mem_nil, or_false] at h
    rcases h with ⟨_, rfl⟩ | ⟨_, rfl⟩ | ⟨_, rfl⟩
    · exact .inl (by simp [operands])
    · exact .inl (by simp [operands])
    · exact .inr ⟨_, _, rfl⟩
  · simp only [mem_cons, Prod.mk.injEq, not_mem_nil, or_false] at h
    rcases h with ⟨_, rfl⟩ | ⟨_, rfl⟩ <;> exact .inl (by simp [operands])
  · unfold Op3.operands at h
    split at h <;>
    · simp only [mem_cons, Prod.mk.injEq, not_mem_nil, or_false] at h
      rcases h with ⟨_, rfl⟩ | ⟨_, rfl⟩ | ⟨_, rfl⟩ <;> exact .inl (by simp [operands])
  · simp only [cons_append, mem_cons, mem_append, List.mem_map, Prod.mk.injEq] at h
    rcases h with ⟨_, rfl⟩ | ⟨_, _, _, rfl⟩ | ⟨_, _, _, rfl⟩
    · exact .inl (by simp [operands])
    · exact .inr ⟨_, _, rfl⟩
    · exact .inr ⟨_, _, rfl⟩

variable {ud : UseDef × Width} {cls : RegisterClass} {v : Nat}

theorem mem_operands_of_useDef (h : ud ∈ i.getUseDefs) (hv : ud.1.reg = .virtual v cls) :
    ∃ o ∈ i.operands, .virtual v cls ∈ o.seen := by
  obtain ⟨⟨d, o⟩, ho, hm⟩ := mem_flatMap.mp h
  have hs : .virtual v cls ∈ o.seen := by
    rw [← Operand.seen_useDefs d o, ← hv]
    exact mem_map_of_mem hm
  rcases mem_getApparentOperands ho with ho | ⟨w, p, rfl⟩
  · exact ⟨o, ho, hs⟩
  · simp [Operand.seen, Operand.preg] at hs

theorem mem_getUseDefs_of_definitions {ud : UseDef} (h : ud ∈ i.definitions) : ∃ w, (ud, w) ∈ i.getUseDefs := by
  obtain ⟨⟨u, w⟩, hm, rfl⟩ := mem_map.mp (mem_filter.mp h).1
  exact ⟨w, hm⟩

theorem mem_getUseDefs_of_uses {ud : UseDef} (h : ud ∈ i.uses) : ∃ w, (ud, w) ∈ i.getUseDefs := by
  obtain ⟨⟨u, w⟩, hm, rfl⟩ := mem_map.mp (mem_filter.mp h).1
  exact ⟨w, hm⟩

variable {i' : Opcode}

theorem traverseOperands_spec {f : Operand → Option Operand} (h : i.traverseOperands f = some i') (ho : o ∈ i.operands) :
    ∃ o', f o = some o' ∧ o' ∈ i'.operands := by
  cases i with
  | op0 op => simp [operands] at ho
  | op1 op a =>
    obtain ⟨a', ha, h⟩ := bind_eq_some_iff.mp h
    cases h
    cases mem_singleton.mp ho
    exact ⟨a', ha, by simp [operands]⟩
  | op2 op a b =>
    obtain ⟨a', b', ha, hb, h⟩ := bind₂_eq_some h
    cases h
    simp only [operands, mem_cons, not_mem_nil, or_false] at ho
    rcases ho with rfl | rfl
    · exact ⟨a', ha, by simp [operands]⟩
    · exact ⟨b', hb, by simp [operands]⟩
  | op3 op a b c =>
    obtain ⟨a', b', ha, hb, h⟩ := bind₂_eq_some h
    obtain ⟨c', hc, h⟩ := bind_eq_some_iff.mp h
    cases h
    simp only [operands, mem_cons, not_mem_nil, or_false] at ho
    rcases ho with rfl | rfl | rfl
    · exact ⟨a', ha, by simp [operands]⟩
    · exact ⟨b', hb, by simp [operands]⟩
    · exact ⟨c', hc, by simp [operands]⟩
  | call f a b =>
    obtain ⟨f', hf, h⟩ := bind_eq_some_iff.mp h
    cases h
    cases mem_singleton.mp ho
    exact ⟨f', hf, by simp [operands]⟩

theorem traverseRegisters_spec {f : Register → Option Register} {o o' : Operand} (h : o.traverseRegisters f = some o')
    (hr : r ∈ o.seen) : f r ≠ none := by
  obtain ⟨k, w⟩ := o
  cases k with
  | memory base index scale displacement segment =>
    cases base with
    | none => cases index <;> simp [Operand.seen] at hr
    | some b =>
      cases index with
      | none =>
        obtain ⟨b', hb, _⟩ := bind_eq_some_iff.mp h
        cases mem_singleton.mp hr
        simp [hb]
      | some x =>
        obtain ⟨b', x', hb, hx, _⟩ := bind₂_eq_some h
        simp only [Operand.seen, mem_cons, not_mem_nil, or_false] at hr
        rcases hr with rfl | rfl
        · simp [hb]
        · simp [hx]
  | register q =>
    obtain ⟨q', hq, _⟩ := bind_eq_some_iff.mp h
    cases mem_singleton.mp hr
    simp [hq]
  | immediate | target => simp [Operand.seen] at hr

variable {off : Nat}

theorem commitGlobal_of_virtual (h : .virtual v cls ∈ o.seen) : commitGlobal off o = some o := by
  unfold commitGlobal
  split
  · rename_i g hk
    simp [Operand.seen, hk] at h
  · rfl

variable {t : RegisterTracker}

theorem commitOperands_assigned (h : commitOperands t off i = some i') (hud : ud ∈ i.getUseDefs)
    (hv : ud.1.reg = .virtual v cls) : (t.virt v).physicalRegister ≠ none := by
  obtain ⟨i1, i2, h1, h2, _⟩ := bind₂_eq_some h
  obtain ⟨o, ho, hs⟩ := mem_operands_of_useDef hud hv
  obtain ⟨o1, hg, ho1⟩ := traverseOperands_spec h1 ho
  rw [commitGlobal_of_virtual hs] at hg
  cases hg
  obtain ⟨o2, hr, _⟩ := traverseOperands_spec h2 ho1
  intro hn
  exact traverseRegisters_spec hr hs (by simp [commitRegister, hn])

/-! ## Filling the slots of a call -/

theorem foldlM_store {α : Type} {f : List Opcode → α → Option (List Opcode)} (slot : α → Nat) (val : α → Opcode)
    (hf : ∀ is a is', f is a = some is' → slot a < is.length ∧ is' = is.set (slot a) (val a)) :
    ∀ (l : List α) {is is' : List Opcode}, l.foldlM f is = some is' →
      is'.length = is.length ∧ (∀ k, (∀ a ∈ l, slot a ≠ k) → is'[k]? = is[k]?) ∧
      (l.Pairwise (fun a b => slot a ≠ slot b) → ∀ a ∈ l, is'[slot a]? = some (val a))
  | [], is, is', h => by
    cases h
    exact ⟨rfl, fun _ _ => rfl, fun _ a ha => by simp at ha⟩
  | a :: l, is, is', h => by
    rw [foldlM_cons] at h
    obtain ⟨is1, h1, h⟩ := bind_eq_some_iff.mp h
    obtain ⟨hlt, rfl⟩ := hf _ _ _ h1
    obtain ⟨hlen, hk, hv⟩ := foldlM_store slot val hf l h
    refine ⟨by rw [hlen, length_set], fun k hne => ?_, fun hp b hb => ?_⟩
    · rw [hk k fun b hb => hne b (mem_cons_of_mem _ hb)]
      exact List.getElem?_set_ne (hne a mem_cons_self)
    · obtain ⟨hpa, hpl⟩ := pairwise_cons.mp hp
      rcases mem_cons.mp hb with rfl | hb
      · rw [hk (slot b) fun c hc => (hpa c hc).symm]
        exact List.getElem?_set_self hlt
      · exact hv hpl b hb

variable {k : Nat} {is is' : List Opcode}

theorem store_spec (h : store is k i = some is') : k < is.length ∧ is' = is.set k i := by
  unfold store at h
  split at h
  · rename_i hk
    cases h
    exact ⟨hk, rfl⟩
  · cases h

theorem zipIdx_pairwise {α : Type} (l : List α) : l.zipIdx.Pairwise (fun a b => a.2 ≠ b.2) := by
  have : (l.zipIdx.map Prod.snd).Pairwise (· ≠ ·) := by
    rw [zipIdx_map_snd]
    exact nodup_range'
  exact pairwise_map.mp this

theorem toSave_length (live : RegisterSet) (n : Nat) (fn : PhysicalRegister) :
    (toSave live n fn).length ≤ callerSaved.length := length_filter_le _ _

variable {saved : List PhysicalRegister}

/-- The slots of the call at `m` hold pushes and pops of `saved`, and nothing else changes. -/
theorem insertCallSaves_spec {m : Nat} (h : insertCallSaves m saved is = some is') (hm : callerSaved.length ≤ m)
    (hlen : saved.length ≤ callerSaved.length) :
    is'.length = is.length ∧
    (∀ k, (∀ d, callerSaved.length - saved.length < d → d ≤ callerSaved.length → k ≠ m - d ∧ k ≠ m + d) →
      is'[k]? = is[k]?) ∧
    (∀ sub r, saved[sub]? = some r → is'[m - (callerSaved.length - sub)]? = some (.push (.preg .w64 r)) ∧
      is'[m + (callerSaved.length - sub)]? = some (.pop (.preg .w64 r))) := by
  obtain ⟨is1, h1, h2⟩ := bind_eq_some_iff.mp h
  have bound : ∀ a ∈ saved.zipIdx, a.2 < saved.length := by
    rintro ⟨r, sub⟩ ha
    exact (List.getElem?_eq_some_iff.mp (mk_mem_zipIdx_iff_getElem?.mp ha)).1
  obtain ⟨hl1, hk1, hv1⟩ := foldlM_store (fun a : PhysicalRegister × Nat => m - (callerSaved.length - a.2))
    (fun a => .push (.preg .w64 a.1)) (fun is a is' ha => by
      dsimp only at ha
      split at ha
      · cases ha
      · exact store_spec ha) _ h1
  obtain ⟨hl2, hk2, hv2⟩ := foldlM_store (fun a : PhysicalRegister × Nat => m + (callerSaved.length - a.2))
    (fun a => .pop (.preg .w64 a.1)) (fun is a is' ha => store_spec ha) _ h2
  have hp1 : saved.zipIdx.Pairwise (fun a b => m - (callerSaved.length - a.2) ≠ m - (callerSaved.length - b.2)) := by
    refine (zipIdx_pairwise saved).imp_of_mem fun {a b} ha hb hab => ?_
    have := bound a ha
    omega
  have hp2 : saved.zipIdx.reverse.Pairwise
      (fun a b => m + (callerSaved.length - a.2) ≠ m + (callerSaved.length - b.2)) := by
    rw [pairwise_reverse]
    refine (zipIdx_pairwise saved).imp_of_mem fun {a b} ha hb hab => ?_
    have := bound a ha
    omega
  refine ⟨hl2.trans hl1, fun k hk => ?_, fun sub r hr => ?_⟩
  · rw [hk2 k fun a ha => ?_, hk1 k fun a ha => ?_]
    · have := bound a ha
      exact (hk (callerSaved.length - a.2) (by omega) (by omega)).1.symm
    · have := bound a (mem_reverse.mp ha)
      exact (hk (callerSaved.length - a.2) (by omega) (by omega)).2.symm
  · have hm' : (r, sub) ∈ saved.zipIdx := mk_mem_zipIdx_iff_getElem?.mpr hr
    refine ⟨?_, hv2 hp2 (r, sub) (mem_reverse.mpr hm')⟩
    rw [hk2 _ fun a ha => ?_]
    · exact hv1 hp1 (r, sub) hm'
    · have := bound a (mem_reverse.mp ha)
      omega

/-! ## The commit loop -/

/-- Every call has nine `DEAD` slots of its own on either side, as `emit_call` lays them out. -/
def Slotted (is : List Opcode) : Prop :=
  ∀ {k f a b}, is[k]? = some (.call f a b) → callerSaved.length ≤ k ∧
    (∀ d, 1 ≤ d → d ≤ callerSaved.length → is[k - d]? = some .dead ∧ is[k + d]? = some .dead) ∧
    ∀ {k' f' a' b'}, k < k' → is[k']? = some (.call f' a' b') → k + 2 * callerSaved.length < k'

def Opcode.isCall : Opcode → Bool
  | .call .. => true
  | _ => false

/-- `Slotted`, as a check. -/
def slotted (is : List Opcode) : Bool :=
  (List.range is.length).all fun k =>
    !(is[k]?.any isCall) || (callerSaved.length ≤ k && ((List.range (callerSaved.length + 1)).all fun d =>
        d == 0 || (is[k - d]? == some .dead && is[k + d]? == some .dead)) &&
      (List.range is.length).all fun k' =>
        k' ≤ k || !(is[k']?.any isCall) || k + 2 * callerSaved.length < k')

variable {is : List Opcode}

theorem slotted_sound (h : slotted is = true) : Slotted is := by
  intro k f a b hk
  have hlt := (List.getElem?_eq_some_iff.mp hk).1
  have := all_eq_true.mp h k (mem_range.mpr hlt)
  simp only [hk, Option.any_some, isCall, Bool.not_true, Bool.false_or, Bool.and_eq_true, decide_eq_true_eq] at this
  obtain ⟨⟨h1, h2⟩, h3⟩ := this
  refine ⟨h1, fun d hd hd' => ?_, fun {k' f' a' b'} hkk hk' => ?_⟩
  · have := all_eq_true.mp h2 d (mem_range.mpr (by omega))
    simpa [show d ≠ 0 by omega] using this
  · have := all_eq_true.mp h3 k' (mem_range.mpr (List.getElem?_eq_some_iff.mp hk').1)
    simpa [hk', isCall, show ¬ k' ≤ k by omega] using this

/-- The slots of the call at `k` in the committed list `is`: the registers of `saved` pushed in
order before the call and popped in reverse order after it, and the other slots empty. -/
structure Saves (k : Nat) (saved : List PhysicalRegister) (is : List Opcode) : Prop where
  filled : ∀ {sub r}, saved[sub]? = some r → is[k - (callerSaved.length - sub)]? = some (.push (.preg .w64 r)) ∧
    is[k + (callerSaved.length - sub)]? = some (.pop (.preg .w64 r))
  empty : ∀ {d}, 1 ≤ d → d + saved.length ≤ callerSaved.length → is[k - d]? = some .dead ∧ is[k + d]? = some .dead

/-- Before index `j` of the commit loop. -/
structure CommitInv (t : RegisterTracker) (off : Nat) (calls : List (Nat × RegisterSet))
    (code : List Opcode) (j : Nat) (st : Committing) : Prop where
  length : st.1.length = code.length
  pending : ∀ e ∈ st.2, e ∈ calls
  ahead : ∀ {k i}, j ≤ k → code[k]? = some i → i ≠ dead → st.1[k]? = some i
  slots : ∀ {k : Nat}, code[k]? = some dead →
    st.1[k]? = some .dead ∨ (∃ r, st.1[k]? = some (.pop (.preg .w64 r))) ∨ k < j
  clear : ∀ {k : Nat}, code[k]? = some dead →
    (∀ {m f a b}, m < j → code[m]? = some (.call f a b) → k + callerSaved.length < m ∨ m + callerSaved.length < k) →
    st.1[k]? = some .dead
  done : ∀ {k i}, k < j → code[k]? = some i → i ≠ dead → ∃ i', commitOperands t off i = some i' ∧ st.1[k]? = some i'
  saves : ∀ {k f a b}, k < j → code[k]? = some (.call f a b) → ∃ fn w live,
    commitOperands t off (.call f a b) = some (.call ⟨.register (.physical fn), w⟩ a b) ∧
    (k, live) ∈ calls ∧ Saves k (toSave live a fn) st.1

section Loop

variable {t : RegisterTracker} {off : Nat} {calls : List (Nat × RegisterSet)} {code : List Opcode} {j : Nat}
  {st st' : Committing} {i : Opcode} {f : Operand} {a b : Nat}

/-- Slots are `DEAD`, so no other instruction stands there. -/
theorem Slotted.ne_slot (hs : Slotted code) {m : Nat} (hm : code[m]? = some (.call f a b)) (hk : code[k]? = some i)
    (hi : i ≠ .dead) {d : Nat} (hd : 1 ≤ d) (hd' : d ≤ callerSaved.length) : k ≠ m - d ∧ k ≠ m + d := by
  obtain ⟨_, hdead, _⟩ := hs hm
  constructor
  · rintro rfl
    rw [(hdead d hd hd').1] at hk
    cases hk
    exact hi rfl
  · rintro rfl
    rw [(hdead d hd hd').2] at hk
    cases hk
    exact hi rfl

theorem CommitInv.skip (hi : CommitInv t off calls code j st) (hd : code[j]? = some .dead) :
    CommitInv t off calls code (j + 1) st where
  length := hi.length
  pending := hi.pending
  ahead hk := hi.ahead (Nat.le_of_succ_le hk)
  slots hk := (hi.slots hk).imp_right (Or.imp_right Nat.lt_succ_of_lt)
  clear hk hm := hi.clear hk fun hlt => hm (Nat.lt_succ_of_lt hlt)
  done := by
    intro k i hk hc hne
    rcases Nat.lt_succ_iff_lt_or_eq.mp hk with hk | rfl
    · exact hi.done hk hc hne
    · rw [hd] at hc
      cases hc
      exact absurd rfl hne
  saves := by
    intro k f a b hk hc
    rcases Nat.lt_succ_iff_lt_or_eq.mp hk with hk | rfl
    · exact hi.saves hk hc
    · rw [hd] at hc
      cases hc

theorem Saves.set (h : Saves k saved is) (hlen : saved.length ≤ callerSaved.length)
    (hj : ∀ d, 1 ≤ d → d ≤ callerSaved.length → j ≠ k - d ∧ j ≠ k + d) :
    Saves k saved (is.set j i) where
  filled := by
    intro sub r hr
    have hlt := (List.getElem?_eq_some_iff.mp hr).1
    obtain ⟨h1, h2⟩ := hj (callerSaved.length - sub) (by omega) (by omega)
    rw [List.getElem?_set_ne h1, List.getElem?_set_ne h2]
    exact h.filled hr
  empty := by
    intro d hd hd'
    obtain ⟨h1, h2⟩ := hj d hd (by omega)
    rw [List.getElem?_set_ne h1, List.getElem?_set_ne h2]
    exact h.empty hd hd'

theorem CommitInv.plain (hs : Slotted code) (hi : CommitInv t off calls code j st) (hc : code[j]? = some i)
    (hne : i ≠ .dead) (hncall : ∀ f a b, i ≠ .call f a b) (h : commitOperands t off i = some i') :
    CommitInv t off calls code (j + 1) (st.1.set j i', st.2) where
  length := by rw [length_set, hi.length]
  pending := hi.pending
  ahead := by
    intro k i1 hk hc1 hne1
    rw [List.getElem?_set_ne (by omega)]
    exact hi.ahead (Nat.le_of_succ_le hk) hc1 hne1
  slots := by
    intro k hk
    have hkj : j ≠ k := by
      rintro rfl
      rw [hc] at hk
      cases hk
      exact hne rfl
    rw [List.getElem?_set_ne hkj]
    exact (hi.slots hk).imp_right (Or.imp_right Nat.lt_succ_of_lt)
  clear := by
    intro k hk hm
    have hkj : j ≠ k := by
      rintro rfl
      rw [hc] at hk
      cases hk
      exact hne rfl
    rw [List.getElem?_set_ne hkj]
    exact hi.clear hk fun hlt => hm (Nat.lt_succ_of_lt hlt)
  done := by
    intro k i1 hk hc1 hne1
    rcases Nat.lt_succ_iff_lt_or_eq.mp hk with hk | rfl
    · rw [List.getElem?_set_ne (by omega)]
      exact hi.done hk hc1 hne1
    · rw [hc] at hc1
      cases hc1
      refine ⟨i', h, List.getElem?_set_self ?_⟩
      rw [hi.length]
      exact (List.getElem?_eq_some_iff.mp hc).1
  saves := by
    intro k f a b hk hck
    rcases Nat.lt_succ_iff_lt_or_eq.mp hk with hk | rfl
    · obtain ⟨fn, w, live, hf, hl, hsv⟩ := hi.saves hk hck
      exact ⟨fn, w, live, hf, hl, hsv.set (toSave_length _ _ _) fun d hd hd' => hs.ne_slot hck hc hne hd hd'⟩
    · rw [hc] at hck
      cases hck
      exact absurd rfl (hncall f a b)

theorem CommitInv.call (hs : Slotted code) (hi : CommitInv t off calls code j st) {fn : PhysicalRegister} {w : Width}
    {live : RegisterSet} {rest : List (Nat × RegisterSet)} (hc : code[j]? = some (.call f a b))
    (h : commitOperands t off (.call f a b) = some (.call ⟨.register (.physical fn), w⟩ a b))
    (hp : st.2 = (j, live) :: rest)
    (hi' : insertCallSaves j (toSave live a fn) (st.1.set j (.call ⟨.register (.physical fn), w⟩ a b)) = some is) :
    CommitInv t off calls code (j + 1) (is, rest) := by
  obtain ⟨hj, hdead, hfar⟩ := hs hc
  have hlt : j < st.1.length := by
    rw [hi.length]
    exact (List.getElem?_eq_some_iff.mp hc).1
  have hsave := toSave_length live a fn
  obtain ⟨hlen, hout, hfill⟩ := insertCallSaves_spec hi' hj hsave
  -- outside its slots the call changes only itself
  have other : ∀ {k : Nat}, j ≠ k → (k + callerSaved.length < j ∨ j + callerSaved.length < k ∨
      ∃ i, code[k]? = some i ∧ i ≠ .dead) → is[k]? = st.1[k]? := by
    intro k hjk hk
    rw [hout k, List.getElem?_set_ne hjk]
    intro d hd hd'
    rcases hk with hk | hk | ⟨i, hi, hne⟩
    · omega
    · omega
    · exact hs.ne_slot hc hi hne (by omega) hd'
  have here : is[j]? = some (.call ⟨.register (.physical fn), w⟩ a b) := by
    rw [hout j, List.getElem?_set_self hlt]
    intro d hd _
    omega
  have pend : ∀ e ∈ rest, e ∈ calls := fun e he => hi.pending e (by rw [hp]; simp [he])
  -- a slot that is not filled
  have unfilled : ∀ {d}, 1 ≤ d → d + (toSave live a fn).length ≤ callerSaved.length →
      is[j - d]? = st.1[j - d]? ∧ is[j + d]? = st.1[j + d]? := by
    intro d hd hd'
    rw [hout (j - d), hout (j + d), List.getElem?_set_ne (by omega), List.getElem?_set_ne (by omega)]
    · exact ⟨rfl, rfl⟩
    · intro d' hd1 hd2
      omega
    · intro d' hd1 hd2
      omega
  refine ⟨by rw [hlen, length_set, hi.length], pend, ?_, ?_, ?_, ?_, ?_⟩
  · intro k i hk hck hne
    rw [other (by omega) (.inr (.inr ⟨i, hck, hne⟩))]
    exact hi.ahead (Nat.le_of_succ_le hk) hck hne
  · intro k hk
    by_cases hkj : k < j + 1
    · exact .inr (.inr hkj)
    by_cases hfark : j + callerSaved.length < k
    · rw [other (by omega) (.inr (.inl hfark))]
      exact (hi.slots hk).imp_right (Or.imp_right Nat.lt_succ_of_lt)
    obtain ⟨d, rfl⟩ : ∃ d, k = j + d := ⟨k - j, by omega⟩
    by_cases hd : d + (toSave live a fn).length ≤ callerSaved.length
    · rw [(unfilled (by omega) hd).2]
      exact (hi.slots hk).imp_right (Or.imp_right Nat.lt_succ_of_lt)
    · obtain ⟨r, hr⟩ : ∃ r, (toSave live a fn)[callerSaved.length - d]? = some r :=
        ⟨_, List.getElem?_eq_getElem (by omega)⟩
      have := (hfill _ r hr).2
      rw [show callerSaved.length - (callerSaved.length - d) = d by omega] at this
      exact .inr (.inl ⟨r, this⟩)
  · intro k hk hm
    have hkj := hm (Nat.lt_succ_self j) hc
    rw [other (by omega) (hkj.imp_right .inl)]
    exact hi.clear hk fun hlt => hm (Nat.lt_succ_of_lt hlt)
  · intro k i hk hck hne
    rcases Nat.lt_succ_iff_lt_or_eq.mp hk with hk | rfl
    · rw [other (by omega) (.inr (.inr ⟨i, hck, hne⟩))]
      exact hi.done hk hck hne
    · rw [hc] at hck
      cases hck
      exact ⟨_, h, here⟩
  · intro k f' a' b' hk hck
    rcases Nat.lt_succ_iff_lt_or_eq.mp hk with hk | rfl
    · obtain ⟨fn', w', live', hf, hl, hsv⟩ := hi.saves hk hck
      have hkj := (hs hck).2.2 hk hc
      refine ⟨fn', w', live', hf, hl, fun {sub r} hr => ?_, fun {d} hd hd' => ?_⟩
      · rw [other (by omega) (.inl (by omega)), other (by omega) (.inl (by omega))]
        exact hsv.filled hr
      · rw [other (by omega) (.inl (by omega)), other (by omega) (.inl (by omega))]
        exact hsv.empty hd hd'
    · rw [hc] at hck
      cases hck
      refine ⟨fn, w, live, h, hi.pending _ (by rw [hp]; simp), fun {sub r} hr => hfill sub r hr, ?_⟩
      intro d hd hd'
      rw [(unfilled hd hd').1, (unfilled hd hd').2]
      obtain ⟨h1, h2⟩ := hdead d hd (by omega)
      refine ⟨hi.clear h1 fun {m f a b} hm hcm => ?_, hi.clear h2 fun {m f a b} hm hcm => ?_⟩
      · have := (hs hcm).2.2 hm hc
        omega
      · have := (hs hcm).2.2 hm hc
        omega

theorem commitOperands_pop (r : PhysicalRegister) :
    commitOperands t off (.pop (.preg .w64 r)) = some (.pop (.preg .w64 r)) := rfl

/-- A committed call is a call through a physical register. -/
theorem commitOperands_call (h : commitOperands t off (.call f a b) = some i') : ∃ f', i' = .call f' a b := by
  obtain ⟨i1, h1, h⟩ := bind_eq_some_iff.mp h
  obtain ⟨f1, _, h1⟩ := bind_eq_some_iff.mp h1
  cases h1
  obtain ⟨i2, h2, h⟩ := bind_eq_some_iff.mp h
  obtain ⟨f2, _, h2⟩ := bind_eq_some_iff.mp h2
  cases h2
  cases h
  exact ⟨f2, rfl⟩

/-- Nothing else becomes a call. -/
theorem commitOperands_not_call (h : commitOperands t off i = some i') (hn : ∀ f a b, i ≠ .call f a b) (f : Operand)
    (a b : Nat) : i' ≠ .call f a b := by
  have kept : ∀ {g : Operand → Option Operand} {i1 i2 : Opcode}, i1.traverseOperands g = some i2 →
      (∀ f a b, i1 ≠ .call f a b) → ∀ f a b, i2 ≠ .call f a b := by
    rintro g i1 i2 h hn f a b rfl
    cases i1 with
    | op0 op => cases h
    | op1 op x =>
      obtain ⟨_, _, h⟩ := bind_eq_some_iff.mp h
      cases h
    | op2 op x y =>
      obtain ⟨_, _, _, _, h⟩ := bind₂_eq_some h
      cases h
    | op3 op x y z =>
      obtain ⟨_, _, _, _, h⟩ := bind₂_eq_some h
      obtain ⟨_, _, h⟩ := bind_eq_some_iff.mp h
      cases h
    | call x y z => exact hn x y z rfl
  obtain ⟨i1, i2, h1, h2, h⟩ := bind₂_eq_some h
  have hn2 := kept h2 (kept h1 hn)
  cases h
  unfold killRedundantMov
  split
  · split
    · rintro ⟨⟩
    · exact hn2 f a b
  · exact hn2 f a b

theorem commitCall_not_call (hn : ∀ f a b, i ≠ .call f a b) : commitCall j st i = some st := by
  unfold commitCall
  split
  · exact absurd rfl (hn _ _ _)
  · rfl

theorem CommitInv.step (hs : Slotted code) (hi : CommitInv t off calls code j st)
    (h : commitInstruction t off st j = some st') : CommitInv t off calls code (j + 1) st' := by
  unfold commitInstruction at h
  split at h
  · cases h
  · rename_i hj
    cases h
    obtain ⟨i, hc⟩ : ∃ i, code[j]? = some i := by
      refine ⟨_, List.getElem?_eq_getElem ?_⟩
      rw [← hi.length]
      exact (List.getElem?_eq_some_iff.mp hj).1
    refine hi.skip ?_
    by_cases hne : i = .dead
    · rw [hc, hne]
    · have := hi.ahead (Nat.le_refl j) hc hne
      rw [hj] at this
      cases this
      exact absurd rfl hne
  · rename_i instr hnd hj
    have hlt := (List.getElem?_eq_some_iff.mp hj).1
    obtain ⟨instr', ho, h⟩ := bind_eq_some_iff.mp h
    obtain ⟨i, hc⟩ : ∃ i, code[j]? = some i := ⟨_, List.getElem?_eq_getElem (hi.length ▸ hlt)⟩
    by_cases hne : i = .dead
    · subst hne
      obtain ⟨r, hr⟩ : ∃ r, instr = .pop (.preg .w64 r) := by
        rcases hi.slots hc with h' | ⟨r, h'⟩ | h'
        · rw [hj] at h'
          cases h'
          exact absurd rfl hnd
        · rw [hj] at h'
          cases h'
          exact ⟨r, rfl⟩
        · exact absurd h' (Nat.lt_irrefl j)
      subst hr
      rw [commitOperands_pop] at ho
      cases ho
      have hset : st.1.set j (.pop (.preg .w64 r)) = st.1 := by
        obtain ⟨hlt, he⟩ := List.getElem?_eq_some_iff.mp hj
        rw [← he]
        exact set_getElem_self hlt
      rw [hset] at h
      cases h
      exact hi.skip hc
    · have hij := hi.ahead (Nat.le_refl j) hc hne
      rw [hj] at hij
      cases hij
      by_cases hcall : ∃ f a b, instr = .call f a b
      · obtain ⟨f, a, b, rfl⟩ := hcall
        obtain ⟨f', rfl⟩ := commitOperands_call ho
        unfold commitCall at h
        dsimp only at h
        split at h
        · rename_i fn idx live rest hk hp
          split at h
          · rename_i hidx
            subst hidx
            obtain ⟨is, hins, h⟩ := bind_eq_some_iff.mp h
            cases h
            obtain ⟨k, w⟩ := f'
            cases hk
            exact hi.call hs hc ho hp hins
          · cases h
        · cases h
      · have hn : ∀ f a b, instr ≠ .call f a b := fun f a b e => hcall ⟨f, a, b, e⟩
        rw [commitCall_not_call (commitOperands_not_call ho hn)] at h
        cases h
        exact hi.plain hs hc hne hn ho

theorem CommitInv.loop (hs : Slotted code) : ∀ (n j : Nat) {st : Committing}, CommitInv t off calls code j st →
    (List.range' j n).foldlM (commitInstruction t off) st = some st' →
    CommitInv t off calls code (j + n) st'
  | 0, j, st, hi, h => by
    cases h
    exact hi
  | n + 1, j, st, hi, h => by
    rw [List.range'_succ, foldlM_cons] at h
    obtain ⟨st1, h1, h⟩ := bind_eq_some_iff.mp h
    have := CommitInv.loop hs n (j + 1) (hi.step hs h1) h
    rwa [Nat.add_right_comm, Nat.add_assoc] at this

end Loop

theorem CommitInv.init (t : RegisterTracker) (off : Nat) (calls : List (Nat × RegisterSet))
    (code : List Opcode) : CommitInv t off calls code 0 (code, calls) where
  length := rfl
  pending _ he := he
  ahead _ hc _ := hc
  slots hk := .inl hk
  clear hk _ := hk
  done hk := absurd hk (Nat.not_lt_zero _)
  saves hk := absurd hk (Nat.not_lt_zero _)

variable {calls : List (Nat × RegisterSet)} {code out : List Opcode}

/-- **What `commit` leaves.** -/
theorem commit_spec (hs : Slotted code) (h : commit t calls code off = some out) :
    ∃ rest, CommitInv t off calls code code.length (out, rest) := by
  obtain ⟨st, hl, h⟩ := bind_eq_some_iff.mp h
  cases h
  rw [range_eq_range'] at hl
  refine ⟨st.2, ?_⟩
  have := CommitInv.loop hs code.length 0 (CommitInv.init t off calls code) hl
  rwa [Nat.zero_add] at this

/-- **Every virtual register of a committed program is assigned.** -/
theorem commit_assigned (hs : Slotted code) (h : commit t calls code off = some out) (hk : code[k]? = some i)
    (hud : ud ∈ i.getUseDefs) (hv : ud.1.reg = .virtual v cls) : (t.virt v).physicalRegister ≠ none := by
  obtain ⟨rest, hi⟩ := commit_spec hs h
  have hne : i ≠ .dead := by
    rintro rfl
    simp [getUseDefs, getApparentOperands] at hud
  obtain ⟨i', ho, _⟩ := hi.done (List.getElem?_eq_some_iff.mp hk).1 hk hne
  exact commitOperands_assigned ho hud hv

theorem Slotted.killed {is code : List Opcode} {n : Nat} (hs : Slotted is)
    (h : calculateVregLiveRanges n is = some (t, code)) : Slotted code := by
  obtain ⟨count, hr⟩ := calculateVregLiveRanges_spec h
  have call : ∀ {k : Nat} {f a b}, code[k]? = some (call f a b) → is[k]? = some (call f a b) := by
    intro k f a b hk
    rcases hr.killed hk with h | h
    · exact h
    · cases h
  have dead : ∀ {k : Nat}, is[k]? = some dead → code[k]? = some dead := by
    intro k hk
    obtain ⟨i, hi⟩ : ∃ i, code[k]? = some i := by
      refine ⟨_, List.getElem?_eq_getElem ?_⟩
      rw [hr.length]
      exact (List.getElem?_eq_some_iff.mp hk).1
    rcases hr.killed hi with h | h
    · rw [hk] at h
      cases h
      exact hi
    · rw [hi, h]
  intro k f a b hk
  obtain ⟨h1, h2, h3⟩ := hs (call hk)
  refine ⟨h1, fun d hd hd' => ⟨dead (h2 d hd hd').1, dead (h2 d hd hd').2⟩, fun hlt hk' => h3 hlt (call hk')⟩

end Icewind.X86
