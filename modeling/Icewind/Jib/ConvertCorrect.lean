import Icewind.Jib.Convert

/-!
# `convert_body` preserves execution

* `closing` — what the block that is open at an index still has to execute, and its terminator,
  read off the instruction list.
* `convertLoop_spec` — the loop writes exactly this into the heap, block by block.
* `convertBody_spec` — the graph `convert_body` builds: the block of every index.
* `convertBody_executions` — a run of the list by a program counter that ends in `End` or `Exit`
  and a run of the graph are the same.
-/

namespace Icewind.Jib

open Icewind.Boom List Function Option

variable {ty exp loc cause : Type} {em : Converters ty exp loc cause} {locs : Locations}

/-! ## Reading the graph off the list -/

/-- The terminator a control instruction gives its block. -/
def terminatorOf (em : Converters ty exp loc cause) (locs : Locations) (k : Nat) :
    Instr ty exp loc cause → Option Terminator
  | .goto target => (locs target).map .unconditional
  | .jump condition target => do
    let fallthrough ← locs (k + 1)
    let target ← locs target
    let condition ← em.convertExpression condition
    some (.conditional condition target fallthrough)
  | .end_ => some (.ret (some (.identifier "return")))
  | .exit c => some (.panic (.literal (.string (em.debugCause c))))
  | _ => none

def Instr.isControl : Instr ty exp loc cause → Bool
  | .goto _ | .jump .. | .end_ | .exit _ => true
  | _ => false

/-- What is left of the open block at index `k`: its statements from there on and its terminator;
`none` if the list falls off its end first. -/
def closing (em : Converters ty exp loc cause) (locs : Locations) :
    Nat → List (Instr ty exp loc cause) → Option (List Statement × Terminator)
  | _, [] => none
  | k, i :: is =>
    if i.isControl then (terminatorOf em locs k i).map fun t => ([], t)
    else do
      let ss ← em.convertInstruction i
      let (s, t) ← match is, locs (k + 1) with
        | [], _ => none
        | _ :: _, some b => some ([], .unconditional b)
        | _ :: _, none => closing em locs (k + 1) is
      some (ss ++ s, t)

/-- The same, when the block open before index `k` is `cur`: an index that starts another block
closes it. -/
def remaining (em : Converters ty exp loc cause) (locs : Locations) (cur : BlockId) (k : Nat) :
    List (Instr ty exp loc cause) → Option (List Statement × Terminator)
  | [] => none
  | is => match locs k with
    | some b => if b = cur then closing em locs k is else some ([], .unconditional b)
    | none => closing em locs k is

variable {k : Nat} {i : Instr ty exp loc cause} {is : List (Instr ty exp loc cause)} {t : Terminator}

theorem closing_control (hc : i.isControl = true) (ht : terminatorOf em locs k i = some t) :
    closing em locs k (i :: is) = some ([], t) := by
  simp [closing, hc, ht]

variable {ss : List Statement}

theorem closing_plain {cur : BlockId} (hc : i.isControl = false) (hs : em.convertInstruction i = some ss)
    (hcur : locs (k + 1) ≠ some cur) :
    closing em locs k (i :: is) = (remaining em locs cur (k + 1) is).map fun p => (ss ++ p.1, p.2) := by
  rw [closing.eq_def]
  simp only [hc, hs]
  cases is with
  | nil => rfl
  | cons i' is =>
    cases hl : locs (k + 1) with
    | none =>
      simp only [remaining, hl]
      cases closing em locs (k + 1) (i' :: is) <;> rfl
    | some b =>
      have hb : b ≠ cur := fun e => hcur (by rw [hl, e])
      simp [remaining, hl, hb]

/-! ## The loop -/

/-- An instruction the emitter can convert: its conversions do not panic. -/
def Converters.Converts (em : Converters ty exp loc cause) : Instr ty exp loc cause → Prop
  | .jump condition _ => (em.convertExpression condition).isSome
  | .goto _ | .end_ | .exit _ => True
  | i => (em.convertInstruction i).isSome

/-- Different indices have different blocks. -/
def Injective (locs : Locations) : Prop :=
  ∀ i j b, locs i = some b → locs j = some b → i = j

/-- Before the loop body at index `k`: the current block is still open, and no block of an index
from `k` on has been filled. -/
structure LoopPre (locs : Locations) (k : Nat) (c : Conv) : Prop where
  cur : (c.heap.code c.current).2 = .default
  here : locs k = some c.current → c.statements = []
  later : ∀ j, k < j → locs j ≠ some c.current
  fresh : ∀ j b, k ≤ j → locs j = some b → c.heap.code b = ([], .default)

/-- The code `F` of the blocks after the loop has run over `is` from index `k`. -/
structure LoopPost (em : Converters ty exp loc cause) (locs : Locations) (k : Nat)
    (is : List (Instr ty exp loc cause)) (c : Conv) (F : BlockId → List Statement × Terminator) :
    Prop where
  cur : F c.current = ((remaining em locs c.current k is).map fun p =>
    (c.statements ++ p.1, p.2)).getD (c.heap.code c.current)
  located : ∀ j b, k ≤ j → locs j = some b → b ≠ c.current →
    F b = (closing em locs j (is.drop (j - k))).getD ([], .default)
  frame : ∀ b, b ≠ c.current → (∀ j, k ≤ j → locs j ≠ some b) → F b = c.heap.code b

variable {c : Conv}

theorem Conv.close_spec (hc : (c.heap.code c.current).2 = .default) (t : Terminator) :
    ∃ h, c.close t = some h ∧ h.code = update c.heap.code c.current (c.statements, t) := by
  have hs := Heap.setStatements_code c.heap c.current c.statements
  have hf : ((c.heap.setStatements c.current c.statements).code c.current).2.targets = [] := by
    rw [hs, update_self, hc]; rfl
  obtain ⟨h, he, _, hcode⟩ := Heap.setTerminator_fresh hf t
  refine ⟨h, he, ?_⟩
  rw [hcode, hs, update_self, update_idem]

theorem enterBlock_spec (hinj : Injective locs) (hpre : LoopPre locs k c) :
    ∃ c1, enterBlock locs k c = some c1 ∧ LoopPre locs k c1 ∧ (∀ b, locs k = some b → b = c1.current) ∧
      (c1 = c ∨ locs k = some c1.current ∧ c1.current ≠ c.current ∧ c1.statements = [] ∧
        c1.heap.code = update c.heap.code c.current (c.statements, .unconditional c1.current)) := by
  unfold enterBlock
  cases hk : locs k with
  | none => exact ⟨c, rfl, hpre, by simp, Or.inl rfl⟩
  | some next =>
    by_cases hn : next = c.current
    · exact ⟨c, by simp [hn], hpre, by simp [hn], Or.inl rfl⟩
    · obtain ⟨h, he, hcode⟩ := Conv.close_spec hpre.cur (.unconditional next)
      have hne : ∀ j b, k ≤ j → locs j = some b → b ≠ c.current := by
        intro j b hj hb e
        rcases Nat.eq_or_lt_of_le hj with rfl | hj
        · exact hn (by rw [← e]; exact some.inj (hk.symm.trans hb))
        · exact hpre.later j hj (e ▸ hb)
      refine ⟨⟨h.addParent next c.current, next, []⟩, by simp [hn, he], ⟨?_, fun _ => rfl, ?_, ?_⟩,
        by simp, Or.inr ⟨rfl, hn, rfl, by simpa using hcode⟩⟩
      · simp [hcode, update_of_ne hn, hpre.fresh k next (Nat.le_refl k) hk]
      · intro j hj hb
        exact absurd (hinj j k next hb hk) (by omega)
      · intro j b hj hb
        simp [hcode, update_of_ne (hne j b hj hb), hpre.fresh j b hj hb]

variable {F : BlockId → List Statement × Terminator}

/-- Entering a block only moves what is collected there. -/
theorem LoopPost.of_enter {c1 : Conv} (hpre : LoopPre locs k c) (hpre1 : LoopPre locs k c1)
    (hk : locs k = some c1.current) (hne : c1.current ≠ c.current) (hs : c1.statements = [])
    (hcode : c1.heap.code = update c.heap.code c.current (c.statements, .unconditional c1.current))
    (hpost : LoopPost em locs k (i :: is) c1 F) : LoopPost em locs k (i :: is) c F := by
  have hno : ∀ j, k ≤ j → locs j ≠ some c.current := by
    intro j hj hb
    rcases Nat.eq_or_lt_of_le hj with rfl | hj
    · exact hne (some.inj (hk.symm.trans hb))
    · exact hpre.later j hj hb
  refine ⟨?_, ?_, ?_⟩
  · rw [hpost.frame c.current hne.symm hno, hcode]
    simp [remaining, hk, hne]
  · intro j b hj hb _
    by_cases hb1 : b = c1.current
    · -- the block just entered
      subst hb1
      have hjk : j = k := by
        rcases Nat.eq_or_lt_of_le hj with rfl | hj
        · rfl
        · exact absurd hb (hpre1.later j hj)
      subst hjk
      rw [hpost.cur, hs, hpre1.fresh j _ hj hb]
      simp only [remaining, hb, if_true, Nat.sub_self, drop_zero, nil_append]
      cases closing em locs j (i :: is) <;> rfl
    · exact hpost.located j b hj hb hb1
  · intro b hb hl
    have hb1 : b ≠ c1.current := fun e => hl k (Nat.le_refl k) (e ▸ hk)
    rw [hpost.frame b hb1 hl, hcode, update_of_ne hb]

theorem remaining_here {cur : BlockId} (hk : ∀ b, locs k = some b → b = cur) :
    remaining em locs cur k (i :: is) = closing em locs k (i :: is) := by
  simp only [remaining]
  split
  · rename_i b hb; simp [hk b hb]
  · rfl

/-- The blocks of later indices are those of the rest of the list. -/
theorem drop_of_ne {j : Nat} {b : BlockId} (hk : ∀ b, locs k = some b → b = c.current) (hj : k ≤ j)
    (hb : locs j = some b) (hbc : b ≠ c.current) : k + 1 ≤ j ∧ (i :: is).drop (j - k) = is.drop (j - (k + 1)) := by
  rcases Nat.eq_or_lt_of_le hj with rfl | hj
  · exact absurd (hk b hb) hbc
  · exact ⟨hj, by rw [show j - k = (j - (k + 1)) + 1 by omega, drop_succ_cons]⟩

/-! ### Control instructions -/

theorem succ_mem_opened (k : Nat) (hc : i.isControl = true) : k + 1 ∈ opened k i := by
  cases i <;> simp [Instr.isControl, opened] at hc ⊢

theorem terminatorOf_goto {target : Nat} (hopen : ∀ j ∈ opened k (.goto target : Instr ty exp loc cause), (locs j).isSome) :
    ∃ b, locs target = some b ∧ terminatorOf em locs k (.goto target) = some (.unconditional b) := by
  obtain ⟨b, hb⟩ := isSome_iff_exists.mp (hopen target (by simp [opened]))
  exact ⟨b, hb, by simp only [terminatorOf, hb]; rfl⟩

theorem terminatorOf_jump {e : exp} {v : Value} {target : Nat}
    (hopen : ∀ j ∈ opened k (.jump e target : Instr ty exp loc cause), (locs j).isSome)
    (hv : em.convertExpression e = some v) : ∃ b f, locs target = some b ∧ locs (k + 1) = some f ∧
      terminatorOf em locs k (.jump e target) = some (.conditional v b f) := by
  obtain ⟨b, hb⟩ := isSome_iff_exists.mp (hopen target (by simp [opened]))
  obtain ⟨f, hf⟩ := isSome_iff_exists.mp (hopen (k + 1) (by simp [opened]))
  exact ⟨b, f, hb, hf, by simp only [terminatorOf, hb, hf, hv]; rfl⟩

theorem convertStep_control (hc : i.isControl = true) (hconv : em.Converts i)
    (hopen : ∀ j ∈ opened k i, (locs j).isSome) (hcur : (c.heap.code c.current).2 = .default) :
    ∃ t c2, terminatorOf em locs k i = some t ∧ convertStep em locs k i c = some c2 ∧
      locs (k + 1) = some c2.current ∧ c2.statements = [] ∧
      c2.heap.code = update c.heap.code c.current (c.statements, t) := by
  obtain ⟨next, hnext⟩ := isSome_iff_exists.mp (hopen _ (succ_mem_opened k hc))
  cases i with
  | goto target =>
    obtain ⟨b, hb, ht⟩ := terminatorOf_goto hopen
    obtain ⟨h, he, hcode⟩ := Conv.close_spec hcur (.unconditional b)
    exact ⟨_, ⟨h.addParent b c.current, next, []⟩, ht,
      by simp [convertStep, hb, he, hnext], hnext, rfl, by simpa using hcode⟩
  | jump condition target =>
    obtain ⟨v, hv⟩ := isSome_iff_exists.mp hconv
    obtain ⟨b, f, hb, hf, ht⟩ := terminatorOf_jump hopen hv
    obtain ⟨h, he, hcode⟩ := Conv.close_spec hcur (.conditional v b f)
    exact ⟨_, ⟨h.addParent b c.current, f, []⟩, ht, by simp [convertStep, hb, he, hf, hv], hf, rfl,
      by simpa using hcode⟩
  | end_ =>
    obtain ⟨h, he, hcode⟩ := Conv.close_spec hcur (.ret (some (.identifier "return")))
    exact ⟨_, ⟨h, next, []⟩, rfl, by simp [convertStep, he, hnext], hnext, rfl, hcode⟩
  | exit cs =>
    obtain ⟨h, he, hcode⟩ := Conv.close_spec hcur (.panic (.literal (.string (em.debugCause cs))))
    exact ⟨_, ⟨h, next, []⟩, rfl, by simp [convertStep, he, hnext], hnext, rfl, hcode⟩
  | _ => cases hc

theorem LoopPre.control {c2 : Conv} (hinj : Injective locs) (hpre : LoopPre locs k c)
    (hnext : locs (k + 1) = some c2.current) (hs : c2.statements = [])
    (hcode : c2.heap.code = update c.heap.code c.current (c.statements, t)) : LoopPre locs (k + 1) c2 := by
  have hfresh : ∀ j b, k + 1 ≤ j → locs j = some b → c2.heap.code b = ([], .default) := by
    intro j b hj hb
    have hne : b ≠ c.current := fun e => hpre.later j hj (e ▸ hb)
    rw [hcode, update_of_ne hne, hpre.fresh j b (by omega) hb]
  refine ⟨by rw [hfresh (k + 1) _ (Nat.le_refl _) hnext], fun _ => hs, ?_, hfresh⟩
  intro j hj hb
  exact absurd (hinj j (k + 1) _ hb hnext) (by omega)

theorem LoopPost.control {c2 : Conv} (hinj : Injective locs) (hpre : LoopPre locs k c)
    (hk : ∀ b, locs k = some b → b = c.current) (hc : i.isControl = true)
    (ht : terminatorOf em locs k i = some t) (hnext : locs (k + 1) = some c2.current)
    (hs : c2.statements = []) (hcode : c2.heap.code = update c.heap.code c.current (c.statements, t))
    (hpost : LoopPost em locs (k + 1) is c2 F) : LoopPost em locs k (i :: is) c F := by
  have hpre2 := hpre.control hinj hnext hs hcode
  have hne : c.current ≠ c2.current := fun e => hpre.later (k + 1) (by omega) (e ▸ hnext)
  refine ⟨?_, ?_, ?_⟩
  · rw [hpost.frame c.current hne (fun j hj => hpre.later j (by omega)), hcode, remaining_here hk,
      closing_control hc ht]
    simp
  · intro j b hj hb hbc
    obtain ⟨hjk, hdrop⟩ := drop_of_ne hk hj hb hbc
    rw [hdrop]
    by_cases hb2 : b = c2.current
    · -- the block after the control instruction
      subst hb2
      have hjk' : j = k + 1 := hinj j (k + 1) _ hb hnext
      subst hjk'
      rw [hpost.cur, hs, hpre2.fresh _ _ hjk hb, Nat.sub_self, drop_zero]
      cases is with
      | nil => simp [remaining, closing]
      | cons i' is =>
        simp only [remaining, hb, if_true, nil_append]
        cases closing em locs (k + 1) (i' :: is) <;> rfl
    · exact hpost.located j b hjk hb hb2
  · intro b hb hl
    have hb2 : b ≠ c2.current := fun e => hl (k + 1) (by omega) (e ▸ hnext)
    rw [hpost.frame b hb2 (fun j hj => hl j (by omega)), hcode, update_of_ne hb]

/-! ### Plain instructions -/

theorem convertStep_plain (locs : Locations) (k : Nat) (c : Conv) (hc : i.isControl = false)
    (hconv : em.Converts i) :
    ∃ ss, em.convertInstruction i = some ss ∧
      convertStep em locs k i c = some { c with statements := c.statements ++ ss } := by
  have hsome : (em.convertInstruction i).isSome := by
    cases i <;> first | exact hconv | cases hc
  obtain ⟨ss, hss⟩ := isSome_iff_exists.mp hsome
  refine ⟨ss, hss, ?_⟩
  cases i <;> first | (simp only [convertStep, hss]; rfl) | cases hc

theorem LoopPre.plain (hpre : LoopPre locs k c) (ss : List Statement) :
    LoopPre locs (k + 1) { c with statements := c.statements ++ ss } :=
  ⟨hpre.cur, fun h => absurd h (hpre.later (k + 1) (by omega)),
    fun j hj => hpre.later j (by omega), fun j b hj => hpre.fresh j b (by omega)⟩

theorem LoopPost.plain (hpre : LoopPre locs k c) (hk : ∀ b, locs k = some b → b = c.current)
    (hc : i.isControl = false) (hs : em.convertInstruction i = some ss)
    (hpost : LoopPost em locs (k + 1) is { c with statements := c.statements ++ ss } F) :
    LoopPost em locs k (i :: is) c F := by
  refine ⟨?_, ?_, ?_⟩
  · rw [hpost.cur, remaining_here hk, closing_plain hc hs (hpre.later (k + 1) (by omega))]
    cases remaining em locs c.current (k + 1) is <;> simp
  · intro j b hj hb hbc
    obtain ⟨hjk, hdrop⟩ := drop_of_ne hk hj hb hbc
    rw [hdrop]
    exact hpost.located j b hjk hb hbc
  · intro b hb hl
    exact hpost.frame b hb (fun j hj => hl j (by omega))

/-- **The loop over convertible instructions whose targets have blocks does not panic, and leaves
in every block what `closing` reads off the list.** -/
theorem convertLoop_spec (hinj : Injective locs) :
    ∀ (is : List (Instr ty exp loc cause)) (k : Nat) (c : Conv), LoopPre locs k c →
      (∀ i ∈ is, em.Converts i) →
      (∀ n i, is[n]? = some i → ∀ j ∈ opened (k + n) i, (locs j).isSome) →
      ∃ c', convertLoop em locs k is c = some c' ∧ LoopPost em locs k is c c'.heap.code
  | [], k, c, hpre, _, _ =>
    ⟨c, rfl, ⟨by simp [remaining], fun j b hj hb _ => by simp [hpre.fresh j b hj hb, closing],
      fun _ _ _ => rfl⟩⟩
  | i :: is, k, c, hpre, hconv, hopen => by
    obtain ⟨c1, he1, hpre1, hk1, hc1⟩ := enterBlock_spec hinj hpre
    have hconv' : ∀ i' ∈ is, em.Converts i' := fun i' hi => hconv i' (mem_cons_of_mem _ hi)
    have hopen' : ∀ n i', is[n]? = some i' → ∀ j ∈ opened (k + 1 + n) i', (locs j).isSome := by
      intro n i' hn j hj
      exact hopen (n + 1) i' (by simpa using hn) j (by rwa [show k + (n + 1) = k + 1 + n by omega])
    have hmain : ∃ c', (convertStep em locs k i c1 >>= convertLoop em locs (k + 1) is) = some c' ∧
        LoopPost em locs k (i :: is) c1 c'.heap.code := by
      cases hctl : i.isControl with
      | true =>
        obtain ⟨t, c2, ht, he2, hnext, hs2, hcode2⟩ := convertStep_control hctl
          (hconv i (by simp)) (fun j hj => hopen 0 i (by simp) j (by simpa using hj)) hpre1.cur
        obtain ⟨c', he', hpost⟩ := convertLoop_spec hinj is (k + 1) c2
          (hpre1.control hinj hnext hs2 hcode2) hconv' hopen'
        exact ⟨c', by simp [he2, he'], hpost.control hinj hpre1 hk1 hctl ht hnext hs2 hcode2⟩
      | false =>
        obtain ⟨ss, hss, he2⟩ := convertStep_plain locs k c1 hctl (hconv i (by simp))
        obtain ⟨c', he', hpost⟩ := convertLoop_spec hinj is (k + 1) _ (hpre1.plain ss) hconv' hopen'
        exact ⟨c', by simp [he2, he'], hpost.plain hpre1 hk1 hctl hss⟩
    obtain ⟨c', he', hpost⟩ := hmain
    refine ⟨c', by simpa [convertLoop, he1] using he', ?_⟩
    rcases hc1 with rfl | ⟨hk, hne, hs, hcode⟩
    · exact hpost
    · exact hpost.of_enter hpre hpre1 hk hne hs hcode

/-! ## The pre-scan and the whole conversion -/

/-- While the pre-scan runs: every block is fresh, and no two indices share one. -/
structure ScanInv (st : Locations × Heap) : Prop where
  inj : Injective st.1
  lt : ∀ j b, st.1 j = some b → b < st.2.next
  fresh : ∀ b, st.2.code b = ([], .default)

variable (st : Locations × Heap)

theorem insertBlock_fst (index : Nat) : (insertBlock st index).1 = update st.1 index (some st.2.next) := rfl

theorem insertBlock_next (index : Nat) : (insertBlock st index).2.next = st.2.next + 1 := by
  unfold insertBlock Heap.new
  cases st.1 index <;> rfl

theorem insertBlock_code (index : Nat) :
    (insertBlock st index).2.code = update st.2.code st.2.next ([], .default) := by
  rw [← Heap.new_code]
  unfold insertBlock
  cases st.1 index <;> rfl

theorem ScanInv.insertBlock {st : Locations × Heap} (h : ScanInv st) (index : Nat) :
    ScanInv (insertBlock st index) := by
  refine ⟨?_, ?_, ?_⟩
  · intro i j b hi hj
    rw [insertBlock_fst, update_apply] at hi hj
    split at hi <;> split at hj
    · rw [‹i = index›, ‹j = index›]
    · cases hi; exact absurd (h.lt j _ hj) (Nat.lt_irrefl _)
    · cases hj; exact absurd (h.lt i _ hi) (Nat.lt_irrefl _)
    · exact h.inj i j b hi hj
  · intro j b hb
    rw [insertBlock_fst, update_apply] at hb
    rw [insertBlock_next]
    split at hb
    · cases hb; exact Nat.lt_succ_self _
    · exact Nat.lt_succ_of_lt (h.lt j b hb)
  · intro b
    rw [insertBlock_code, update_apply]
    split
    · rfl
    · exact h.fresh b

theorem ScanInv.foldl : ∀ (js : List Nat) {st : Locations × Heap}, ScanInv st →
    ScanInv (js.foldl Jib.insertBlock st)
  | [], _, h => h
  | j :: js, _, h => ScanInv.foldl js (h.insertBlock j)

theorem foldl_insertBlock_isSome {j : Nat} : ∀ (js : List Nat) (st : Locations × Heap),
    j ∈ js ∨ (st.1 j).isSome → ((js.foldl insertBlock st).1 j).isSome
  | [], _, h => h.resolve_left (by simp)
  | j' :: js, st, h => by
    refine foldl_insertBlock_isSome js (insertBlock st j') ?_
    rw [insertBlock_fst, update_apply]
    by_cases he : j = j'
    · exact Or.inr (by simp [he])
    · rw [if_neg he]
      rcases h with h | h
      · exact Or.inl (by simpa [he] using h)
      · exact Or.inr h

variable {instrs : List (Instr ty exp loc cause)}

/-- A graph that holds, block by block, what `closing` reads off the list. -/
structure Built (em : Converters ty exp loc cause) (instrs : List (Instr ty exp loc cause))
    (locs : Locations) (entry : BlockId) (h : Heap) : Prop where
  opened : ∀ n i, instrs[n]? = some i → ∀ j ∈ opened n i, (locs j).isSome
  located : ∀ j b, locs j = some b → h.code b = (closing em locs j (instrs.drop j)).getD ([], .default)
  first : h.code entry = (remaining em locs entry 0 instrs).getD ([], .default)
  entry_ne : ∀ j, locs j ≠ some entry

/-- **The graph `convert_body` builds.** -/
theorem convertBody_spec {em : Converters ty exp loc cause} (hconv : ∀ i ∈ instrs, em.Converts i) :
    ∃ entry h, em.convertBody instrs = some (entry, h) ∧
      Built em instrs (blockLocations instrs Heap.empty).1 entry h := by
  have hscan : ScanInv (blockLocations instrs Heap.empty) :=
    ScanInv.foldl _ ⟨fun _ _ _ h => by simp at h, fun _ _ h => by simp at h, fun _ => rfl⟩
  have hop : ∀ n i, instrs[n]? = some i → ∀ j ∈ opened n i, ((blockLocations instrs Heap.empty).1 j).isSome :=
    fun n i hn j hj =>
      foldl_insertBlock_isSome _ _ (Or.inl (mem_flatMap.mpr ⟨(i, n), mem_zipIdx_iff_getElem?.mpr hn, hj⟩))
  rcases hst : blockLocations instrs Heap.empty with ⟨locs, h0⟩
  rw [hst] at hscan hop
  have hne : ∀ j, locs j ≠ some h0.next := fun j hb => absurd (hscan.lt j _ hb) (by simp)
  have hfresh : ∀ b, (h0.new).2.code b = ([], .default) := by
    intro b
    rw [Heap.new_code, update_apply]
    split
    · rfl
    · exact hscan.fresh b
  obtain ⟨c', he, hpost⟩ := convertLoop_spec hscan.inj instrs 0 ⟨(h0.new).2, h0.next, []⟩
    ⟨by rw [hfresh], fun _ => rfl, fun j _ => hne j, fun j b _ _ => hfresh b⟩ hconv
    (fun n i hn j hj => hop n i hn j (by simpa using hj))
  refine ⟨h0.next, c'.heap, ?_, hop, ?_, ?_, hne⟩
  · unfold Converters.convertBody
    rw [hst]
    simp only [Heap.new] at he ⊢
    simp [he]
  · intro j b hb
    exact hpost.located j b (Nat.zero_le j) hb (fun e => hne j (hb.trans (congrArg some e)))
  · rw [hpost.cur, hfresh]
    cases remaining em locs h0.next 0 instrs <;> rfl

/-! ### When the conversion panics -/

theorem convertStep_converts {c' : Conv} (h : convertStep em locs k i c = some c') : em.Converts i := by
  cases i with
  | goto | end_ | exit => trivial
  | jump condition target =>
    simp only [convertStep, bind_eq_bind, bind_eq_some_iff] at h
    obtain ⟨_, _, _, _, v, hv, _⟩ := h
    exact isSome_iff_exists.mpr ⟨v, hv⟩
  | _ =>
    simp only [convertStep, bind_eq_bind, bind_eq_some_iff] at h
    obtain ⟨ss, hss, _⟩ := h
    exact isSome_iff_exists.mpr ⟨ss, hss⟩

theorem convertLoop_converts : ∀ (is : List (Instr ty exp loc cause)) (k : Nat) (c c' : Conv),
    convertLoop em locs k is c = some c' → ∀ i ∈ is, em.Converts i
  | [], _, _, _, _ => by simp
  | i :: is, k, c, c', h => by
    simp only [convertLoop, bind_eq_bind, bind_eq_some_iff] at h
    obtain ⟨c1, _, c2, h2, h3⟩ := h
    intro i' hi'
    rcases mem_cons.mp hi' with rfl | hi'
    · exact convertStep_converts h2
    · exact convertLoop_converts is (k + 1) c2 c' h3 i' hi'

/-- `convert_body` panics exactly when the conversion of some instruction's data does. -/
theorem convertBody_isSome_iff : (em.convertBody instrs).isSome ↔ ∀ i ∈ instrs, em.Converts i := by
  constructor
  · intro h
    obtain ⟨r, hr⟩ := isSome_iff_exists.mp h
    simp only [Converters.convertBody, bind_eq_bind, bind_eq_some_iff] at hr
    obtain ⟨c, hc, _⟩ := hr
    exact convertLoop_converts _ _ _ _ hc
  · intro h
    obtain ⟨entry, g, he, _⟩ := convertBody_spec h
    simp [he]

/-! ## Positions of the list and positions of the graph -/

section Simulation

variable {instrs : List (Instr ty exp loc cause)} {entry : BlockId} {h : Heap}

/-- The graph is in the block that is open at the program counter. -/
def Inside (em : Converters ty exp loc cause) (instrs : List (Instr ty exp loc cause))
    (locs : Locations) (h : Heap) (p : PcPos) (q : Heap.Pos) : Prop :=
  ∃ s, closing em locs p.pc (instrs.drop p.pc) = some (s, (h.code q.block).2) ∧ q.rest = p.pending ++ s

/-- The graph is at the end of the block before the program counter's. -/
def Entering (locs : Locations) (h : Heap) (p : PcPos) (q : Heap.Pos) : Prop :=
  ∃ b, locs p.pc = some b ∧ (h.code q.block).2 = .unconditional b ∧ q.rest = p.pending

def Related (em : Converters ty exp loc cause) (instrs : List (Instr ty exp loc cause))
    (locs : Locations) (h : Heap) (p : PcPos) (q : Heap.Pos) : Prop :=
  Inside em instrs locs h p q ∨ Entering locs h p q

/-- A run that does not stop at a block without a terminator. -/
def Proper (r : Heap.Result) : Prop := r ≠ .panic (.literal (.string "default terminator"))

variable {i : Instr ty exp loc cause}

theorem isControl_of_convertInstruction (hs : em.convertInstruction i = some ss) : i.isControl = false := by
  cases i <;> first | rfl | cases hs

variable {pc : Nat}

theorem drop_of_getElem? (hi : instrs[pc]? = some i) : instrs.drop pc = i :: instrs.drop (pc + 1) := by
  obtain ⟨hlt, rfl⟩ := List.getElem?_eq_some_iff.mp hi
  exact drop_eq_getElem_cons hlt

theorem closing_at_control (hi : instrs[pc]? = some i) (hc : i.isControl = true)
    (ht : terminatorOf em locs pc i = some t) : closing em locs pc (instrs.drop pc) = some ([], t) := by
  rw [drop_of_getElem? hi, closing_control hc ht]

variable {q : Heap.Pos}

theorem Inside.plain (hi : instrs[pc]? = some i) (hc : i.isControl = false)
    (hs : em.convertInstruction i = some ss) (hin : Inside em instrs locs h ⟨[], pc⟩ q) :
    Related em instrs locs h ⟨ss, pc + 1⟩ q := by
  obtain ⟨s, hcl, hrest⟩ := hin
  rw [drop_of_getElem? hi, closing.eq_def] at hcl
  simp only [hc, hs] at hcl
  cases hd : instrs.drop (pc + 1) with
  | nil => simp [hd] at hcl
  | cons i' is =>
    cases hl : locs (pc + 1) with
    | some b =>
      simp [hd, hl] at hcl
      exact Or.inr ⟨b, hl, hcl.2.symm, by rw [hrest, ← hcl.1]; rfl⟩
    | none =>
      simp only [hd, hl] at hcl
      cases hcl' : closing em locs (pc + 1) (i' :: is) with
      | none => simp [hcl'] at hcl
      | some r =>
        simp [hcl'] at hcl
        refine Or.inl ⟨r.1, ?_, by rw [hrest, ← hcl.1]; rfl⟩
        rw [hd, hcl', ← hcl.2]

variable {t : List Heap.Event} {r : Heap.Result}

/-- A run of the list that ends has a closed block ahead of it. -/
theorem closing_isSome_of_ends (hB : Built em instrs locs entry h) {p p' : PcPos}
    (hr : (pcMachine em instrs).Run p t p') (hf : (pcMachine em instrs).final p' r) :
    (closing em locs p.pc (instrs.drop p.pc)).isSome := by
  induction hr with
  | refl =>
    cases hf with
    | end_ hi | exit hi => rw [closing_at_control hi rfl rfl]; rfl
  | head hs _ ih =>
    have ih := ih hf
    cases hs with
    | exec => exact ih
    | @plain pc i ss hi hss =>
      have hc := isControl_of_convertInstruction hss
      rw [drop_of_getElem? hi, closing.eq_def]
      simp only [hc, hss]
      cases hd : instrs.drop (pc + 1) with
      | nil => rw [hd] at ih; cases ih
      | cons i' is =>
        rw [hd] at ih
        cases hl : locs (pc + 1) with
        | some b => simp
        | none =>
          obtain ⟨r', hr'⟩ := isSome_iff_exists.mp ih
          simp [hr']
    | @goto pc target hi =>
      obtain ⟨b, -, ht⟩ := terminatorOf_goto (hB.opened _ _ hi)
      rw [closing_at_control hi rfl ht]; rfl
    | @jump pc target e c taken hi hv =>
      obtain ⟨b, f, -, -, ht⟩ := terminatorOf_jump (hB.opened _ _ hi) hv
      rw [closing_at_control hi rfl ht]; rfl

variable {b : BlockId}

theorem inside_start (hB : Built em instrs locs entry h) (hb : locs pc = some b)
    (hcl : (closing em locs pc (instrs.drop pc)).isSome) : Inside em instrs locs h ⟨[], pc⟩ (h.start b) := by
  obtain ⟨⟨s, t⟩, hst⟩ := isSome_iff_exists.mp hcl
  have hcode := hB.located pc b hb
  rw [hst, getD_some] at hcode
  refine ⟨s, ?_, ?_⟩
  · rw [hst]; simp only [Heap.start, hcode]
  · exact congrArg Prod.fst hcode

theorem Related.enter (hB : Built em instrs locs entry h) (hR : Related em instrs locs h ⟨[], pc⟩ q)
    (hcl : (closing em locs pc (instrs.drop pc)).isSome) :
    ∃ q', h.machine.Run q [] q' ∧ Inside em instrs locs h ⟨[], pc⟩ q' := by
  rcases hR with hin | ⟨b, hb, ht, hrest⟩
  · exact ⟨q, .refl q, hin⟩
  · obtain ⟨qb, qr⟩ := q
    cases hrest
    exact ⟨h.start b, .silent (A := h.machine) (Heap.Step.jump ht), inside_start hB hb hcl⟩

/-- At a control instruction the graph comes to the end of a block with that terminator. -/
theorem Related.control {t : Terminator} (hB : Built em instrs locs entry h)
    (hR : Related em instrs locs h ⟨[], pc⟩ q) (hi : instrs[pc]? = some i) (hc : i.isControl = true)
    (ht : terminatorOf em locs pc i = some t) :
    ∃ b, h.machine.Run q [] ⟨b, []⟩ ∧ (h.block b).terminator = t := by
  have hcl := closing_at_control hi hc ht
  obtain ⟨⟨qb, qr⟩, hq, s, hs, hrest⟩ := hR.enter hB (by rw [hcl]; rfl)
  cases hcl.symm.trans hs
  cases hrest
  exact ⟨qb, hq, rfl⟩

/-- **Moves of the list are answered by the graph.** -/
theorem pc_endSimulates (hB : Built em instrs locs entry h) :
    Machine.EndSimulates (pcMachine em instrs) h.machine (fun _ => True) (Related em instrs locs h) where
  step := by
    intro p p' q l hR hs hreach
    have hcl : (closing em locs p.pc (instrs.drop p.pc)).isSome := by
      obtain ⟨_, _, _, _, hr, hf⟩ := hreach
      exact closing_isSome_of_ends hB (.head hs hr) hf
    have hcl' : (closing em locs p'.pc (instrs.drop p'.pc)).isSome := by
      obtain ⟨_, _, _, _, hr, hf⟩ := hreach
      exact closing_isSome_of_ends hB hr hf
    cases hs with
    | @exec s rest pc =>
      obtain ⟨qb, qr⟩ := q
      rcases hR with ⟨s', hcl, hrest⟩ | ⟨b, hb, ht, hrest⟩
      · cases hrest
        exact ⟨_, .emit (A := h.machine) Heap.Step.exec, Or.inl ⟨s', hcl, rfl⟩⟩
      · cases hrest
        exact ⟨_, .emit (A := h.machine) Heap.Step.exec, Or.inr ⟨b, hb, ht, rfl⟩⟩
    | @plain pc i ss hi hss =>
      obtain ⟨q', hq, hin⟩ := hR.enter hB hcl
      exact ⟨q', hq, hin.plain hi (isControl_of_convertInstruction hss) hss⟩
    | @goto pc target hi =>
      obtain ⟨b, hb, ht⟩ := terminatorOf_goto (hB.opened _ _ hi)
      obtain ⟨_, hq, ht⟩ := hR.control hB hi rfl ht
      exact ⟨_, hq.trans (.silent (A := h.machine) (Heap.Step.jump ht)), Or.inl (inside_start hB hb hcl')⟩
    | @jump pc target e c taken hi hv =>
      obtain ⟨b, f, hb, hf, ht⟩ := terminatorOf_jump (hB.opened _ _ hi) hv
      obtain ⟨_, hq, ht⟩ := hR.control hB hi rfl ht
      refine ⟨_, hq.trans (.emit (A := h.machine) (Heap.Step.branch taken ht)), Or.inl ?_⟩
      refine inside_start hB ?_ hcl'
      cases taken
      · exact hf
      · exact hb
  final := by
    intro p q r hR _ hf
    cases hf with
    | end_ hi =>
      obtain ⟨_, hq, ht⟩ := hR.control hB hi rfl rfl
      exact ⟨_, hq, Heap.Final.ret ht⟩
    | exit hi =>
      obtain ⟨_, hq, ht⟩ := hR.control hB hi rfl rfl
      exact ⟨_, hq, Heap.Final.panic ht⟩

/-! ### From the graph back to the list -/

/-- Where the list is about to do something observable, or to leave the block. -/
inductive Settled (em : Converters ty exp loc cause) (instrs : List (Instr ty exp loc cause))
    (locs : Locations) (h : Heap) (q : Heap.Pos) : PcPos → Prop where
  | pending {s : Statement} {rest : List Statement} {pc : Nat} :
      Related em instrs locs h ⟨s :: rest, pc⟩ q → Settled em instrs locs h q ⟨s :: rest, pc⟩
  | control {pc : Nat} {i : Instr ty exp loc cause} : instrs[pc]? = some i → i.isControl = true →
      terminatorOf em locs pc i = some (h.code q.block).2 → q.rest = [] →
      Settled em instrs locs h q ⟨[], pc⟩
  | entering {pc : Nat} : Entering locs h ⟨[], pc⟩ q → Settled em instrs locs h q ⟨[], pc⟩

variable {k : Nat}

theorem terminatorOf_unconditional (ht : terminatorOf em locs k i = some (.unconditional b)) :
    ∃ target, i = .goto target ∧ locs target = some b := by
  cases i with
  | goto target =>
    simp only [terminatorOf, map_eq_some_iff] at ht
    obtain ⟨b', hb, he⟩ := ht
    cases he
    exact ⟨target, rfl, hb⟩
  | jump => simp [terminatorOf, bind_eq_some_iff] at ht
  | _ => cases ht

theorem terminatorOf_conditional {c : Value} {t f : BlockId}
    (ht : terminatorOf em locs k i = some (.conditional c t f)) :
    ∃ e target, i = .jump e target ∧ locs (k + 1) = some f ∧ locs target = some t ∧
      em.convertExpression e = some c := by
  cases i with
  | jump e target =>
    simp only [terminatorOf, bind_eq_bind, bind_eq_some_iff] at ht
    obtain ⟨f', hf, b, hb, v, hv, he⟩ := ht
    cases he
    exact ⟨e, target, rfl, hf, hb, hv⟩
  | goto => simp [terminatorOf] at ht
  | _ => cases ht

theorem terminatorOf_ret {v : Option Value} (ht : terminatorOf em locs k i = some (.ret v)) :
    i = .end_ ∧ v = some (.identifier "return") := by
  cases i with
  | end_ => cases ht; exact ⟨rfl, rfl⟩
  | goto => simp [terminatorOf] at ht
  | jump => simp [terminatorOf, bind_eq_some_iff] at ht
  | _ => cases ht

theorem terminatorOf_panic {v : Value} (ht : terminatorOf em locs k i = some (.panic v)) :
    ∃ c, i = .exit c ∧ v = .literal (.string (em.debugCause c)) := by
  cases i with
  | exit c => cases ht; exact ⟨c, rfl, rfl⟩
  | goto => simp [terminatorOf] at ht
  | jump => simp [terminatorOf, bind_eq_some_iff] at ht
  | _ => cases ht

/-- The list silently runs over the instructions that convert to no statements. -/
theorem Inside.settle : ∀ (is : List (Instr ty exp loc cause)) (pc : Nat),
    instrs.drop pc = is → Inside em instrs locs h ⟨[], pc⟩ q →
    ∃ p, (pcMachine em instrs).Run ⟨[], pc⟩ [] p ∧ Settled em instrs locs h q p
  | [], pc, hd, hin => by
    obtain ⟨s, hcl, _⟩ := hin
    simp [hd, closing] at hcl
  | i :: is, pc, hd, hin => by
    have hi : instrs[pc]? = some i := by
      have := congrArg (·[0]?) hd
      simpa using this
    have hd' : instrs.drop (pc + 1) = is := by
      have := drop_of_getElem? hi
      rw [hd] at this
      exact (List.cons.inj this).2.symm
    cases hc : i.isControl with
    | true =>
      obtain ⟨s, hcl, hrest⟩ := hin
      rw [hd, closing.eq_def] at hcl
      simp only [hc, if_true, map_eq_some_iff] at hcl
      obtain ⟨t, ht, he⟩ := hcl
      cases he
      exact ⟨_, .refl _, .control hi hc ht hrest⟩
    | false =>
      cases hss : em.convertInstruction i with
      | none =>
        obtain ⟨s, hcl, _⟩ := hin
        rw [hd, closing.eq_def] at hcl
        simp [hc, hss] at hcl
      | some ss =>
        have hrun : (pcMachine em instrs).Run ⟨[], pc⟩ [] ⟨ss, pc + 1⟩ :=
          .silent (A := pcMachine em instrs) (PcStep.plain hi hss)
        have hR := hin.plain hi hc hss
        cases ss with
        | cons s rest => exact ⟨_, hrun, .pending hR⟩
        | nil =>
          rcases hR with hin' | hent
          · obtain ⟨p, hp, hset⟩ := Inside.settle is (pc + 1) hd' hin'
            exact ⟨p, hrun.trans hp, hset⟩
          · exact ⟨_, hrun, .entering hent⟩

theorem Related.settle {p : PcPos} (hR : Related em instrs locs h p q) :
    ∃ p', (pcMachine em instrs).Run p [] p' ∧ Settled em instrs locs h q p' := by
  obtain ⟨pending, pc⟩ := p
  cases pending with
  | cons s rest => exact ⟨_, .refl _, .pending hR⟩
  | nil =>
    rcases hR with hin | hent
    · exact hin.settle _ pc rfl
    · exact ⟨_, .refl _, .entering hent⟩

theorem not_reaches_default (hcode : h.code b = ([], .default)) : ¬ h.machine.Reaches Proper (h.start b) := by
  have hst : h.start b = ⟨b, []⟩ := congrArg (Heap.Pos.mk b) (congrArg Prod.fst hcode)
  have hterm : (h.block b).terminator = .default := congrArg Prod.snd hcode
  rintro ⟨t, r, hproper, q, hr, hf⟩
  rw [hst] at hr
  cases hr with
  | refl =>
    cases hf with
    | ret ht => rw [hterm] at ht; cases ht
    | panic ht => rw [hterm] at ht; cases ht; exact hproper rfl
  | head hs _ =>
    cases hs with
    | jump ht | branch _ ht => rw [hterm] at ht; cases ht

theorem Settled.at_end {p : PcPos} (hset : Settled em instrs locs h ⟨b, []⟩ p) : ∃ pc, p = ⟨[], pc⟩ ∧
    ((∃ i, instrs[pc]? = some i ∧ terminatorOf em locs pc i = some (h.code b).2) ∨
      ∃ b', locs pc = some b' ∧ (h.code b).2 = .unconditional b') := by
  cases hset with
  | pending hR => rcases hR with ⟨_, _, hrest⟩ | ⟨_, _, _, hrest⟩ <;> cases hrest
  | control hi _ hterm _ => exact ⟨_, rfl, .inl ⟨_, hi, hterm⟩⟩
  | entering hent => exact ⟨_, rfl, .inr (hent.imp fun _ h => ⟨h.1, h.2.1⟩)⟩

section

variable (hB : Built em instrs locs entry h)

include hB

theorem closing_isSome_of_reaches (hb : locs pc = some b)
    (hreach : h.machine.Reaches Proper (h.start b)) : (closing em locs pc (instrs.drop pc)).isSome := by
  cases hcl : closing em locs pc (instrs.drop pc) with
  | some r => rfl
  | none =>
    have hcode := hB.located pc b hb
    rw [hcl, Option.getD_none] at hcode
    exact absurd hreach (not_reaches_default hcode)

/-- **Moves of the graph are answered by the list.** -/
theorem graph_endSimulates :
    Machine.EndSimulates h.machine (pcMachine em instrs) Proper
      (fun q p => Related em instrs locs h p q) where
  step := by
    intro q q' p l hR hs hreach
    obtain ⟨p', hp, hset⟩ := hR.settle
    cases hs with
    | @exec b s rest =>
      cases hset with
      | @pending s' rest' pc hR' =>
        have hrun : (pcMachine em instrs).Run ⟨s' :: rest', pc⟩ [.exec s'] ⟨rest', pc⟩ :=
          .emit (A := pcMachine em instrs) PcStep.exec
        rcases hR' with ⟨s'', hcl, hrest⟩ | ⟨b', hb', ht, hrest⟩
        · cases hrest
          exact ⟨_, hp.trans hrun, Or.inl ⟨s'', hcl, rfl⟩⟩
        · cases hrest
          exact ⟨_, hp.trans hrun, Or.inr ⟨b', hb', ht, rfl⟩⟩
      | control _ _ _ hrest => cases hrest
      | entering hent => obtain ⟨_, _, _, hrest⟩ := hent; cases hrest
    | @jump b t ht =>
      obtain ⟨pc, rfl, ⟨i, hi, hterm⟩ | ⟨b', hb', ht'⟩⟩ := hset.at_end
      · obtain ⟨target, rfl, hb⟩ := terminatorOf_unconditional (hterm.trans (congrArg some ht))
        exact ⟨_, hp.trans (.silent (A := pcMachine em instrs) (PcStep.goto hi)),
          Or.inl (inside_start hB hb (closing_isSome_of_reaches hB hb hreach))⟩
      · cases ht'.symm.trans ht
        exact ⟨_, hp, Or.inl (inside_start hB hb' (closing_isSome_of_reaches hB hb' hreach))⟩
    | @branch b t f c taken ht =>
      obtain ⟨pc, rfl, ⟨i, hi, hterm⟩ | ⟨_, _, ht'⟩⟩ := hset.at_end
      · obtain ⟨e, target, rfl, hf, hb, hv⟩ := terminatorOf_conditional (hterm.trans (congrArg some ht))
        have hl : locs (if taken then target else pc + 1) = some (if taken then t else f) := by
          cases taken
          · exact hf
          · exact hb
        exact ⟨_, hp.trans (.emit (A := pcMachine em instrs) (PcStep.jump taken hi hv)),
          Or.inl (inside_start hB hl (closing_isSome_of_reaches hB hl hreach))⟩
      · cases ht'.symm.trans ht
  final := by
    intro q p r hR _ hf
    obtain ⟨p', hp, hset⟩ := hR.settle
    cases hf with
    | @ret b v ht =>
      obtain ⟨pc, rfl, ⟨i, hi, hterm⟩ | ⟨_, _, ht'⟩⟩ := hset.at_end
      · obtain ⟨rfl, rfl⟩ := terminatorOf_ret (hterm.trans (congrArg some ht))
        exact ⟨_, hp, PcFinal.end_ hi⟩
      · cases ht'.symm.trans ht
    | @panic b v ht =>
      obtain ⟨pc, rfl, ⟨i, hi, hterm⟩ | ⟨_, _, ht'⟩⟩ := hset.at_end
      · obtain ⟨cs, rfl, rfl⟩ := terminatorOf_panic (hterm.trans (congrArg some ht))
        exact ⟨_, hp, PcFinal.exit hi⟩
      · cases ht'.symm.trans ht

/-- At the entry block the two are related, as soon as either can end. -/
theorem entry_related (hrem : (remaining em locs entry 0 instrs).isSome) :
    Related em instrs locs h ⟨[], 0⟩ (h.start entry) := by
  have hcode := hB.first
  obtain ⟨⟨s, t⟩, hst⟩ := isSome_iff_exists.mp hrem
  rw [hst, getD_some] at hcode
  have hs : (h.block entry).statements = s := congrArg Prod.fst hcode
  have ht : (h.code entry).2 = t := congrArg Prod.snd hcode
  cases instrs with
  | nil => cases hst
  | cons i is =>
    simp only [remaining] at hst
    split at hst
    · rename_i b hb
      rw [if_neg (fun e => hB.entry_ne 0 (hb.trans (congrArg some e)))] at hst
      cases hst
      exact Or.inr ⟨b, hb, ht, hs⟩
    · exact Or.inl ⟨s, by rw [drop_zero, hst, ← ht]; rfl, hs⟩

theorem pc_ends_graph (he : (pcMachine em instrs).Ends ⟨[], 0⟩ t r) :
    h.machine.Ends (h.start entry) t r := by
  have hcl : (closing em locs 0 instrs).isSome := by
    obtain ⟨_, hr, hf⟩ := he
    simpa using closing_isSome_of_ends hB hr hf
  have hrem : (remaining em locs entry 0 instrs).isSome := by
    cases instrs with
    | nil => cases hcl
    | cons i is =>
      simp only [remaining]
      split
      · split
        · exact hcl
        · rfl
      · exact hcl
  exact (pc_endSimulates hB).ends (entry_related hB hrem) trivial he

theorem graph_ends_pc (hr : Proper r)
    (he : h.machine.Ends (h.start entry) t r) : (pcMachine em instrs).Ends ⟨[], 0⟩ t r := by
  have hrem : (remaining em locs entry 0 instrs).isSome := by
    cases hrem : remaining em locs entry 0 instrs with
    | some _ => rfl
    | none =>
      have hcode := hB.first
      rw [hrem, Option.getD_none] at hcode
      exact absurd ⟨t, r, hr, he⟩ (not_reaches_default hcode)
  exact (graph_endSimulates hB).ends (entry_related hB hrem) hr he

end

end Simulation

/-- **`convert_body` preserves execution.**  It builds a graph unless the conversion of an
instruction's data panics, and the runs of the list that reach `End` or `Exit` are the runs of the
graph that stop at a terminator it was given, with the same statements, the same outcomes of the
jump conditions and the same result. -/
theorem convertBody_executions (em : Converters ty exp loc cause) (instrs : List (Instr ty exp loc cause)) :
    ((em.convertBody instrs).isSome ↔ ∀ i ∈ instrs, em.Converts i) ∧
    ∀ entry h, em.convertBody instrs = some (entry, h) →
      (∀ t r, (pcMachine em instrs).Ends ⟨[], 0⟩ t r → h.machine.Ends (h.start entry) t r) ∧
      (∀ t r, Proper r → h.machine.Ends (h.start entry) t r → (pcMachine em instrs).Ends ⟨[], 0⟩ t r) := by
  refine ⟨convertBody_isSome_iff, fun entry h he => ?_⟩
  obtain ⟨entry', h', he', hB⟩ := convertBody_spec (convertBody_isSome_iff.mp (by rw [he]; rfl))
  cases he.symm.trans he'
  exact ⟨fun _ _ => pc_ends_graph hB, fun _ _ => graph_ends_pc hB⟩

/-- A loop that is left once its condition holds: `0: jump c to 2; 1: goto 0; 2: x = v; 3: end`. -/
def loopExample : List (Instr Unit String String Unit) :=
  [.jump "c" 2, .goto 0, .copy "x" "v", .end_]

/-- Names convert to identifiers. -/
def namesAsIdentifiers : Converters Unit String String Unit :=
  ⟨fun _ => some .unit, fun e => some (.identifier e), fun l => some (.identifier l), fun _ => "MatchFailure"⟩

theorem convertBody_executions_loopExample :
    ∃ entry h, namesAsIdentifiers.convertBody loopExample = some (entry, h) ∧ h.machine.Ends (h.start entry)
        [.branch (.identifier "c") false, .branch (.identifier "c") true,
          .exec (.copy (.identifier "x") (.identifier "v"))]
        (.ret (some (.identifier "return"))) := by
  have hsome : (namesAsIdentifiers.convertBody loopExample).isSome := rfl
  obtain ⟨⟨entry, h⟩, he⟩ := isSome_iff_exists.mp hsome
  refine ⟨entry, h, he, ((convertBody_executions namesAsIdentifiers loopExample).2 entry h he).1 _ _ ?_⟩
  refine ⟨⟨[], 3⟩, ?_, PcFinal.end_ rfl⟩
  refine .head (l := some _) (PcStep.jump false (e := "c") rfl rfl) ?_
  refine .head (l := none) (PcStep.goto rfl) ?_
  refine .head (l := some _) (PcStep.jump true (e := "c") rfl rfl) ?_
  refine .head (l := none) (PcStep.plain rfl rfl) ?_
  exact .head (l := some _) PcStep.exec (.refl _)

end Icewind.Jib
