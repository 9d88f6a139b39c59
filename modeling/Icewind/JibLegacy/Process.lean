import Icewind.JibLegacy.ControlFlow
import Mathlib.Tactic.Tauto

/-!
# The blocks cut by `process_statements`

* `Meaning` — what remains to be executed at the start of each block, and how many `If` bodies
  the block is inside.
* `Closes` — a terminator stands for the head of what remains at the end of its block.
* `processStatements_spec` — every block the builder makes stands for its part of the list, and
  every label is entered with what follows it.
* `pending_bisimilar` — the pending graph executes like the structured list.
-/

namespace Icewind.JibLegacy

open Icewind.Boom List Function Option PendingBlock

/-! ## Meaning of blocks -/

structure Meaning where
  rest : Nat → List Statement
  depth : Nat → Nat

def Meaning.set (M : Meaning) (b : Nat) (k : List Statement) (d : Nat) : Meaning :=
  ⟨update M.rest b k, update M.depth b d⟩

/-- At the end of a block of depth `d` the terminator performs the head of what remains, or leaves
an `If` body; targets are below `n`. -/
inductive Closes (M : Meaning) (n d : Nat) : PendingTerminator → List Statement → Prop where
  | label {l : String} {t : Nat} : t < n → Closes M n d (.unconditional (.resolved t)) (.label l :: M.rest t)
  | leave {t : Nat} : t < n → M.depth t < d → Closes M n d (.unconditional (.resolved t)) (M.rest t)
  | if_ {c : Value} {a b : Nat} {ifBody elseBody k : List Statement} : a < n → b < n →
      M.rest a = ifBody ++ k → M.rest b = elseBody ++ k →
      Closes M n d (.conditional c (.resolved a) (.resolved b)) (.if_ c ifBody elseBody :: k)
  | jump {c : Value} {l : String} {t : Nat} : t < n →
      Closes M n d (.conditional c (.unresolved l) (.resolved t)) (.jump c l :: M.rest t)
  | goto {l : String} {k : List Statement} : Closes M n d (.unconditional (.unresolved l)) (.goto l :: k)
  | ret {name : String} {k : List Statement} : Closes M n d (.ret name) (.end_ name :: k)
  | undefined {k : List Statement} : Closes M n d .undefined (.undefined :: k)
  | panic {v : Value} {k : List Statement} : Closes M n d (.panic v) (.panic v :: k)
  | unknown : Closes M n d .unknown []

/-- A block stands for its part of the list. -/
def Means (M : Meaning) (n b : Nat) (blk : PendingBlock) : Prop :=
  ∃ k, M.rest b = blk.statements ++ k ∧ (∀ s ∈ blk.statements, Plain s) ∧
    Closes M n (M.depth b) blk.terminator k

/-- Two meanings agree on the blocks below `n`. -/
def Meaning.Agree (n : Nat) (M M' : Meaning) : Prop :=
  ∀ b, b < n → M'.rest b = M.rest b ∧ M'.depth b = M.depth b

theorem Meaning.agree_set (M : Meaning) (n : Nat) (k : List Statement) (d : Nat) :
    M.Agree n (M.set n k d) := by
  intro b hb
  have hne : b ≠ n := by omega
  simp [Meaning.set, update_of_ne hne]

variable {M : Meaning} {d : Nat} {t : PendingTerminator} {k : List Statement} {M' : Meaning}

theorem Closes.mono {n n' : Nat} (hM : M.Agree n M') (hn : n ≤ n') (h : Closes M n d t k) :
    Closes M' n' d t k := by
  cases h with
  | label ht => rw [← (hM _ ht).1]; exact .label (by omega)
  | leave ht hd => rw [← (hM _ ht).1]; exact .leave (by omega) (by rw [(hM _ ht).2]; exact hd)
  | if_ ha hb ea eb =>
    exact .if_ (by omega) (by omega) ((hM _ ha).1.trans ea) ((hM _ hb).1.trans eb)
  | jump ht => rw [← (hM _ ht).1]; exact .jump (by omega)
  | goto => exact .goto
  | ret => exact .ret
  | undefined => exact .undefined
  | panic => exact .panic
  | unknown => exact .unknown

theorem Means.mono {n n' b : Nat} {blk : PendingBlock} (hM : M.Agree n M') (hn : n ≤ n') (hb : b < n)
    (h : Means M n b blk) : Means M' n' b blk := by
  obtain ⟨k, hk, hp, hc⟩ := h
  refine ⟨k, (hM b hb).1.trans hk, hp, ?_⟩
  rw [(hM b hb).2]
  exact hc.mono hM hn

/-! ## Invariant of the builder -/

/-- The current block is open, `k` remains to be processed for it at depth `d`; the blocks in
`pending` are allocated but not begun; all others are closed. -/
structure Open (B : Builder) (M : Meaning) (pending : List Nat) (k : List Statement) (d : Nat) : Prop where
  current_lt : B.current < B.next
  unknown : (B.block B.current).terminator = .unknown
  plain : ∀ s ∈ (B.block B.current).statements, Plain s
  rest : M.rest B.current = (B.block B.current).statements ++ k
  depth : M.depth B.current = d
  begun : ∀ b ∈ pending, b < B.next ∧ b ≠ B.current ∧ (B.block b).statements = [] ∧
    (B.block b).terminator = .unknown
  closed : ∀ b, b < B.next → b ≠ B.current → b ∉ pending → Means M B.next b (B.block b)

/-- What the builder leaves alone: blocks older than `B₀`, its current one apart. -/
structure Since (B₀ : Builder) (M₀ : Meaning) (B : Builder) (M : Meaning) : Prop where
  next_le : B₀.next ≤ B.next
  agree : M₀.Agree B₀.next M
  block : ∀ b, b < B₀.next → b ≠ B₀.current → B.block b = B₀.block b
  current : B.current = B₀.current ∨ B₀.next ≤ B.current

theorem Since.refl (B : Builder) (M : Meaning) : Since B M B M :=
  ⟨Nat.le_refl _, fun _ _ => ⟨rfl, rfl⟩, fun _ _ _ => rfl, Or.inl rfl⟩

theorem Since.trans {B0 B1 B2 : Builder} {M0 M1 M2 : Meaning} (h1 : Since B0 M0 B1 M1)
    (h2 : Since B1 M1 B2 M2) : Since B0 M0 B2 M2 := by
  have hle := h1.next_le
  refine ⟨Nat.le_trans hle h2.next_le, ?_, ?_, ?_⟩
  · intro b hb
    obtain ⟨hr1, hd1⟩ := h1.agree b hb
    obtain ⟨hr2, hd2⟩ := h2.agree b (by omega)
    exact ⟨hr2.trans hr1, hd2.trans hd1⟩
  · intro b hb hne
    have hne1 : b ≠ B1.current := by
      rcases h1.current with h | h <;> omega
    rw [h2.block b (by omega) hne1, h1.block b hb hne]
  · rcases h2.current with h | h
    · rw [h]; exact h1.current
    · exact Or.inr (Nat.le_trans hle h)

variable {B : Builder} {pending : List Nat}

theorem Open.newBlock (h : Open B M pending k d) (k' : List Statement) (d' : Nat) :
    Open B.newBlock.2 (M.set B.next k' d') (B.next :: pending) k d := by
  have hcur := h.current_lt
  have hne : B.current ≠ B.next := by omega
  have hagree := M.agree_set B.next k' d'
  have hblk : ∀ b, b ≠ B.next → B.newBlock.2.block b = B.block b :=
    fun b hb => update_of_ne hb _ _
  refine ⟨Nat.lt_succ_of_lt hcur, ?_, ?_, ?_, ?_, ?_, ?_⟩
  · exact (congrArg terminator (hblk _ hne)).trans h.unknown
  · show ∀ s ∈ (B.newBlock.2.block B.current).statements, Plain s
    rw [hblk _ hne]; exact h.plain
  · show (M.set B.next k' d').rest B.current = (B.newBlock.2.block B.current).statements ++ k
    rw [hblk _ hne, (hagree _ hcur).1]; exact h.rest
  · exact (hagree _ hcur).2.trans h.depth
  · intro b hb
    rcases mem_cons.mp hb with rfl | hb
    · refine ⟨Nat.lt_succ_self _, hne.symm, ?_, ?_⟩ <;> simp [Builder.newBlock, new]
    · obtain ⟨hlt, hbc, hs, ht⟩ := h.begun b hb
      rw [hblk b (by omega)]
      exact ⟨Nat.lt_succ_of_lt hlt, hbc, hs, ht⟩
  · intro b hb hbc hbp
    have hb' : b ≠ B.next := fun e => hbp (by simp [e])
    have hlt : b < B.next := by
      have : b < B.next + 1 := hb
      omega
    rw [hblk b hb']
    exact (h.closed b hlt hbc (fun hm => hbp (mem_cons_of_mem _ hm))).mono hagree (Nat.le_succ _) hlt

theorem Since.newBlock (B : Builder) (M : Meaning) (k : List Statement) (d : Nat) :
    Since B M B.newBlock.2 (M.set B.next k d) := by
  refine ⟨Nat.le_succ _, M.agree_set B.next k d, ?_, Or.inl rfl⟩
  intro b hb _
  exact update_of_ne (show b ≠ B.next by omega) _ _

theorem Open.enter (h : Open B M pending k d) (next : Nat) (pending' : List Nat) (ht : Closes M B.next d t k)
    (hp : ∀ b, b ∈ pending ↔ b = next ∨ b ∈ pending') (hnew : next ∉ pending') :
    B.setTerminator t = some (B.modifyCurrent ({ · with terminator := t })) ∧
      Open { B.modifyCurrent ({ · with terminator := t }) with current := next } M pending'
        (M.rest next) (M.depth next) := by
  obtain ⟨hlt, hnc, hs, hu⟩ := h.begun next ((hp next).mpr (Or.inl rfl))
  have hterm : (B.block B.current).hasTerminator = false := by
    simp [hasTerminator, h.unknown]
  have hblk : ∀ b, b ≠ B.current → (B.modifyCurrent ({ · with terminator := t })).block b = B.block b :=
    fun b hb => update_of_ne hb _ _
  refine ⟨by simp [Builder.setTerminator, hterm], ⟨hlt, ?_, ?_, ?_, rfl, ?_, ?_⟩⟩
  · simpa [hblk next hnc] using hu
  · simp [hblk next hnc, hs]
  · simp [hblk next hnc, hs]
  · intro b hb
    obtain ⟨hlt', hbc, hs', hu'⟩ := h.begun b ((hp b).mpr (Or.inr hb))
    simp only [hblk b hbc]
    exact ⟨hlt', fun e => hnew (e ▸ hb), hs', hu'⟩
  · intro b hb hbn hbp
    by_cases hbc : b = B.current
    · -- the block just closed
      subst hbc
      refine ⟨k, ?_, ?_, ?_⟩
      · simpa [Builder.modifyCurrent] using h.rest
      · simpa [Builder.modifyCurrent] using h.plain
      · simpa [Builder.modifyCurrent, h.depth] using ht
    · simp only [hblk b hbc]
      exact h.closed b hb hbc (fun hm => ((hp b).mp hm).elim hbn hbp)

theorem Since.enter {B0 : Builder} {M0 : Meaning} {next : Nat} (h : Since B0 M0 B M) (hnext : B0.next ≤ next)
    (t : PendingTerminator) :
    Since B0 M0 { B.modifyCurrent ({ · with terminator := t }) with current := next } M := by
  refine ⟨h.next_le, h.agree, ?_, Or.inr hnext⟩
  intro b hb hne
  have hbc : b ≠ B.current := by
    rcases h.current with e | e <;> omega
  exact (update_of_ne hbc _ _).trans (h.block b hb hne)

theorem Open.relabel {B' : Builder} (h : Open B M pending k d) (hn : B'.next = B.next)
    (hc : B'.current = B.current)
    (hb : ∀ b, (B'.block b).statements = (B.block b).statements ∧
      (B'.block b).terminator = (B.block b).terminator) : Open B' M pending k d := by
  refine ⟨by rw [hn, hc]; exact h.current_lt, ?_, ?_, ?_, by rw [hc]; exact h.depth, ?_, ?_⟩
  · rw [hc, (hb _).2]; exact h.unknown
  · rw [hc, (hb _).1]; exact h.plain
  · rw [hc, (hb _).1]; exact h.rest
  · intro b hbp
    rw [hn, hc, (hb b).1, (hb b).2]
    exact h.begun b hbp
  · intro b hlt hbc hbp
    rw [hn] at hlt ⊢
    obtain ⟨k', hk, hp, hcl⟩ := h.closed b hlt (hc ▸ hbc) hbp
    exact ⟨k', by rw [(hb b).1]; exact hk, by rw [(hb b).1]; exact hp, by rw [(hb b).2]; exact hcl⟩

/-! ## Labels -/

mutual

/-- The labels in a statement. -/
def labelsIn : Statement → List String
  | .label l => [l]
  | .if_ _ ifBody elseBody => labelsOf ifBody ++ labelsOf elseBody
  | _ => []

/-- The labels in a list, in order. -/
def labelsOf : List Statement → List String
  | [] => []
  | s :: ss => labelsIn s ++ labelsOf ss

end

/-- The labels `names`, and no others, were entered, each with what is executed after it. -/
structure Named (names : List String) (after : String → Option (List Statement)) (B B' : Builder)
    (M' : Meaning) : Prop where
  old : ∀ l, l ∉ names → B'.labels l = B.labels l ∧ after l = none
  new : ∀ l, l ∈ names → ∃ n, n < B'.next ∧ B'.labels l = some n ∧ after l = some (M'.rest n)

theorem Named.append {names names' : List String} {after after' : String → Option (List Statement)}
    {B1 B2 : Builder} {M1 M2 : Meaning} (hd : ∀ l ∈ names, l ∉ names') (h1 : Named names after B B1 M1)
    (h2 : Named names' after' B1 B2 M2) (hs : Since B1 M1 B2 M2) :
    Named (names ++ names') (fun l => (after l).or (after' l)) B B2 M2 := by
  refine ⟨?_, ?_⟩
  · intro l hl
    simp only [mem_append, not_or] at hl
    obtain ⟨e1, a1⟩ := h1.old l hl.1
    obtain ⟨e2, a2⟩ := h2.old l hl.2
    exact ⟨e2.trans e1, by simp [a1, a2]⟩
  · intro l hl
    rcases mem_append.mp hl with hl | hl
    · obtain ⟨n, hn, el, ea⟩ := h1.new l hl
      refine ⟨n, Nat.lt_of_lt_of_le hn hs.next_le, ?_, ?_⟩
      · rw [(h2.old l (hd l hl)).1, el]
      · simp [ea, (hs.agree n hn).1]
    · obtain ⟨n, hn, el, ea⟩ := h2.new l hl
      have hno : l ∉ names := fun h => hd l h hl
      exact ⟨n, hn, el, by simp [(h1.old l hno).2, ea]⟩

theorem Named.same {B' : Builder} (h : B'.labels = B.labels) : Named [] (fun _ => none) B B' M' :=
  ⟨fun l _ => ⟨congrFun h l, rfl⟩, fun _ hl => by simp at hl⟩

/-! ## `process_statements` -/

/-- Processing code with the given labels from `B`, of which `k` follows. -/
def Processed (names : List String) (after : String → Option (List Statement)) (B : Builder)
    (M : Meaning) (pending : List Nat) (k : List Statement) (d : Nat) (r : Option Builder) : Prop :=
  ∃ B' M', r = some B' ∧ Open B' M' pending k d ∧ Since B M B' M' ∧ Named names after B B' M'

variable {s : Statement}

section

variable (h : Open B M pending (s :: k) d)

include h

theorem addStatement_spec (hs : Plain s) :
    Processed [] (fun _ => none) B M pending k d (B.addStatement s) := by
  have hterm : (B.block B.current).hasTerminator = false := by
    simp [hasTerminator, h.unknown]
  have hblk : ∀ b, b ≠ B.current →
      (B.modifyCurrent fun b => { b with statements := b.statements ++ [s] }).block b = B.block b :=
    fun b hb => update_of_ne hb _ _
  refine ⟨B.modifyCurrent fun b => { b with statements := b.statements ++ [s] }, M,
    by simp [Builder.addStatement, hterm], ⟨h.current_lt, ?_, ?_, ?_, h.depth, ?_, ?_⟩, ?_,
    Named.same rfl⟩
  · simpa [Builder.modifyCurrent] using h.unknown
  · intro s' hs'
    have hmem : s' ∈ (B.block B.current).statements ∨ s' = s := by
      simpa [Builder.modifyCurrent] using hs'
    rcases hmem with hm | rfl
    · exact h.plain s' hm
    · exact hs
  · simpa [Builder.modifyCurrent] using h.rest
  · intro b hb
    obtain ⟨hlt, hbc, hs', hu⟩ := h.begun b hb
    rw [hblk b hbc]
    exact ⟨hlt, hbc, hs', hu⟩
  · intro b hb hbc hbp
    rw [hblk b hbc]
    exact h.closed b hb hbc hbp
  · exact ⟨Nat.le_refl _, fun _ _ => ⟨rfl, rfl⟩, fun b _ hb => hblk b hb, Or.inl rfl⟩

/-- A statement that ends the block; what follows it goes to a new, detached block. -/
theorem endBlock_spec
    (ht : Closes (M.set B.next k d) (B.next + 1) d t (s :: k)) :
    Processed [] (fun _ => none) B M pending k d (B.endBlock t) := by
  have hne : B.current ≠ B.next := by have := h.current_lt; omega
  have hnp : B.next ∉ pending := fun hm => absurd (h.begun _ hm).1 (Nat.lt_irrefl _)
  obtain ⟨_, hopen⟩ := (h.newBlock k d).enter B.next pending ht (fun b => mem_cons) hnp
  have hterm : (B.block B.current).hasTerminator = false := by
    simp [hasTerminator, h.unknown]
  refine ⟨_, _, ?_, ?_, (Since.newBlock B M k d).enter (Nat.le_refl _) t, Named.same rfl⟩
  · simp [Builder.endBlock, Builder.setTerminator, hterm, Builder.newBlock, Builder.modifyCurrent,
      update_of_ne hne, update_comm hne]
  · simpa [Meaning.set] using hopen

/-- A statement that ends the block by a terminator to the block of what follows. -/
theorem newBlock_enter_spec
    (ht : Closes (M.set B.next k d) (B.next + 1) d t (s :: k)) :
    B.newBlock.2.setTerminator t = some (B.newBlock.2.modifyCurrent ({ · with terminator := t })) ∧
      Open { B.newBlock.2.modifyCurrent ({ · with terminator := t }) with current := B.next }
        (M.set B.next k d) pending k d := by
  have hnp : B.next ∉ pending := fun hm => absurd (h.begun _ hm).1 (Nat.lt_irrefl _)
  obtain ⟨he, hopen⟩ := (h.newBlock k d).enter B.next pending ht (fun b => mem_cons) hnp
  exact ⟨he, by simpa [Meaning.set] using hopen⟩

end

theorem label_spec {l : String} (h : Open B M pending (.label l :: k) d) :
    Processed [l] (afterIn · k (.label l)) B M pending k d (processStatement (.label l) B) := by
  have hclose : Closes (M.set B.next k d) (B.next + 1) d (.unconditional (.resolved B.next))
      (.label l :: k) := by
    have := Closes.label (M := M.set B.next k d) (d := d) (l := l) (Nat.lt_succ_self B.next)
    simpa [Meaning.set] using this
  obtain ⟨_, hopen⟩ := newBlock_enter_spec h hclose
  have hne : B.current ≠ B.next := by have := h.current_lt; omega
  have hterm : (B.block B.current).hasTerminator = false := by
    simp [hasTerminator, h.unknown]
  refine ⟨{ B.newBlock.2.modifyCurrent ({ · with terminator := .unconditional (.resolved B.next) }) with
      current := B.next
      labels := update B.labels l (some B.next)
      block := update (update B.block B.next { new with label := some l })
        B.current { B.block B.current with terminator := .unconditional (.resolved B.next) } },
    M.set B.next k d, ?_, hopen.relabel rfl rfl ?_, ?_, ?_⟩
  · simp [processStatement, Builder.newBlock, Builder.setTerminator, update_of_ne hne, hterm,
      Builder.modifyCurrent]
  · intro b
    by_cases hb : b = B.next
    · subst hb
      simp [Builder.modifyCurrent, Builder.newBlock, update_of_ne hne.symm]
    · by_cases hbc : b = B.current
      · subst hbc
        simp [Builder.modifyCurrent, Builder.newBlock, update_of_ne hne]
      · simp [Builder.modifyCurrent, Builder.newBlock, update_of_ne hbc, update_of_ne hb]
  · refine ⟨Nat.le_succ _, M.agree_set B.next k d, ?_, Or.inr (Nat.le_refl _)⟩
    intro b hb hbc
    have hbn : b ≠ B.next := by omega
    simp [update_of_ne hbc, update_of_ne hbn]
  · refine ⟨?_, ?_⟩
    · intro l' hl'
      have hll : l' ≠ l := by simpa using hl'
      exact ⟨update_of_ne hll _ _, by simp [afterIn, hll.symm]⟩
    · intro l' hl'
      have hll : l' = l := by simpa using hl'
      subst hll
      exact ⟨B.next, Nat.lt_succ_self _, by simp, by simp [afterIn, Meaning.set]⟩

theorem jump_spec {c : Value} {l : String} (h : Open B M pending (.jump c l :: k) d) :
    Processed [] (fun _ => none) B M pending k d (processStatement (.jump c l) B) := by
  have hclose : Closes (M.set B.next k d) (B.next + 1) d
      (.conditional c (.unresolved l) (.resolved B.next)) (.jump c l :: k) := by
    have := Closes.jump (M := M.set B.next k d) (d := d) (c := c) (l := l) (Nat.lt_succ_self B.next)
    simpa [Meaning.set] using this
  obtain ⟨he, hopen⟩ := newBlock_enter_spec h hclose
  refine ⟨_, _, ?_, hopen, (Since.newBlock B M k d).enter (Nat.le_refl _) _, Named.same rfl⟩
  simp only [processStatement]
  rw [show (B.newBlock) = (B.next, B.newBlock.2) from rfl]
  simp only [he]
  rfl

theorem if_spec {c : Value} {ifBody elseBody : List Statement}
    (hif : ∀ {B : Builder} {M : Meaning} {pending : List Nat} {d : Nat}, Open B M pending (ifBody ++ k) d →
      Processed (labelsOf ifBody) (afterLabel · k ifBody) B M pending k d (processStatements ifBody B))
    (helse : ∀ {B : Builder} {M : Meaning} {pending : List Nat} {d : Nat},
      Open B M pending (elseBody ++ k) d →
      Processed (labelsOf elseBody) (afterLabel · k elseBody) B M pending k d
        (processStatements elseBody B)) (hdisj : ∀ l ∈ labelsOf ifBody, l ∉ labelsOf elseBody)
    (h : Open B M pending (.if_ c ifBody elseBody :: k) d) :
    Processed (labelsOf ifBody ++ labelsOf elseBody)
      (fun l => (afterLabel l k ifBody).or (afterLabel l k elseBody)) B M pending k d
      (processStatement (.if_ c ifBody elseBody) B) := by
  have hp : ∀ b ∈ pending, b < B.next := fun b hb => (h.begun b hb).1
  -- the three blocks
  have o3 := ((h.newBlock (ifBody ++ k) (d + 1)).newBlock (elseBody ++ k) (d + 1)).newBlock k d
  have s3 := ((Since.newBlock B M (ifBody ++ k) (d + 1)).trans
    (Since.newBlock _ _ (elseBody ++ k) (d + 1))).trans (Since.newBlock _ _ k d)
  generalize hB3 : (B.newBlock.2.newBlock.2).newBlock.2 = B3 at o3 s3
  generalize hM3 : ((M.set B.next (ifBody ++ k) (d + 1)).set B.newBlock.2.next (elseBody ++ k)
    (d + 1)).set B.newBlock.2.newBlock.2.next k d = M3 at o3 s3
  have hnext3 : B3.next = B.next + 3 := by rw [← hB3]; rfl
  have hlabels3 : B3.labels = B.labels := by rw [← hB3]; rfl
  have rIf : M3.rest B.next = ifBody ++ k ∧ M3.depth B.next = d + 1 := by
    rw [← hM3]; simp [Meaning.set, Builder.newBlock, update_apply]; omega
  have rElse : M3.rest (B.next + 1) = elseBody ++ k ∧ M3.depth (B.next + 1) = d + 1 := by
    rw [← hM3]; simp [Meaning.set, Builder.newBlock]
  have rPost : M3.rest (B.next + 2) = k ∧ M3.depth (B.next + 2) = d := by
    rw [← hM3]; simp [Meaning.set, Builder.newBlock]
  -- the condition, and the first body
  obtain ⟨e4, o4⟩ := o3.enter B.next ((B.next + 2) :: (B.next + 1) :: pending)
    (.if_ (by omega) (by omega) rIf.1 rElse.1)
    (fun b => by simp only [mem_cons, Builder.newBlock]; tauto)
    (fun hm => by
      rcases mem_cons.mp hm with e | hm
      · omega
      · rcases mem_cons.mp hm with e | hm
        · omega
        · exact absurd (hp _ hm) (Nat.lt_irrefl _))
  have s4 := s3.enter (Nat.le_refl B.next) (.conditional c (.resolved B.next) (.resolved (B.next + 1)))
  rw [rIf.1, rIf.2] at o4
  obtain ⟨B5, M5, e5, o5, s5, n5⟩ := hif o4
  have hle5 : B.next + 3 ≤ B5.next := hnext3 ▸ s5.next_le
  have a5 : ∀ b, b < B.next + 3 → M5.rest b = M3.rest b ∧ M5.depth b = M3.depth b :=
    fun b hb => s5.agree b (show b < B3.next by omega)
  -- leaving it, and the second body
  have c5 : Closes M5 B5.next (d + 1) (.unconditional (.resolved (B.next + 2))) k := by
    have := Closes.leave (M := M5) (n := B5.next) (d := d + 1) (t := B.next + 2) (by omega)
      (by rw [(a5 _ (by omega)).2, rPost.2]; omega)
    rwa [(a5 _ (by omega)).1, rPost.1] at this
  obtain ⟨e6, o6⟩ := o5.enter (B.next + 1) ((B.next + 2) :: pending) c5
    (fun b => by simp only [mem_cons]; tauto)
    (fun hm => by
      rcases mem_cons.mp hm with e | hm
      · omega
      · exact absurd (hp _ hm) (by omega))
  have s6 := (s4.trans s5).enter (Nat.le_succ B.next) (.unconditional (.resolved (B.next + 2)))
  rw [(a5 _ (by omega)).1, (a5 _ (by omega)).2, rElse.1, rElse.2] at o6
  obtain ⟨B7, M7, e7, o7, s7, n7⟩ := helse o6
  have hle7 : B5.next ≤ B7.next := s7.next_le
  have a7 : ∀ b, b < B5.next → M7.rest b = M5.rest b ∧ M7.depth b = M5.depth b := s7.agree
  -- leaving that one
  have r7 : M7.rest (B.next + 2) = k ∧ M7.depth (B.next + 2) = d := by
    rw [(a7 _ (by omega)).1, (a7 _ (by omega)).2, (a5 _ (by omega)).1, (a5 _ (by omega)).2]
    exact rPost
  have c7 : Closes M7 B7.next (d + 1) (.unconditional (.resolved (B.next + 2))) k := by
    have := Closes.leave (M := M7) (n := B7.next) (d := d + 1) (t := B.next + 2) (by omega)
      (by rw [r7.2]; omega)
    rwa [r7.1] at this
  obtain ⟨e8, o8⟩ := o7.enter (B.next + 2) pending c7 (fun b => mem_cons)
    (fun hm => absurd (hp _ hm) (by omega))
  rw [r7.1, r7.2] at o8
  refine ⟨_, M7, ?_, o8, (s6.trans s7).enter (by omega) _, ?_⟩
  · have hdef : processStatement (.if_ c ifBody elseBody) B =
        (B.newBlock.2.newBlock.2.newBlock.2.setTerminator
          (.conditional c (.resolved B.next) (.resolved (B.next + 1)))).bind fun B4 =>
        (processStatements ifBody { B4 with current := B.next }).bind fun B5 =>
        (B5.setTerminator (.unconditional (.resolved (B.next + 2)))).bind fun B6 =>
        (processStatements elseBody { B6 with current := B.next + 1 }).bind fun B7 =>
        (B7.setTerminator (.unconditional (.resolved (B.next + 2)))).bind fun B8 =>
        some { B8 with current := B.next + 2 } := by
      rw [processStatement]; rfl
    rw [hdef, hB3, e4, bind_some, e5, bind_some, e6, bind_some, e7, bind_some, e8, bind_some]
  · have hn : Named (labelsOf ifBody) (afterLabel · k ifBody) B
        { B5.modifyCurrent ({ · with terminator := .unconditional (.resolved (B.next + 2)) }) with
          current := B.next + 1 } M5 :=
      ⟨fun l hl => ⟨(n5.old l hl).1.trans (congrFun hlabels3 l), (n5.old l hl).2⟩, n5.new⟩
    have hn' := hn.append hdisj n7 s7
    exact ⟨hn'.old, hn'.new⟩

mutual

theorem processStatement_spec : ∀ (s : Statement), (labelsIn s).Nodup →
    ∀ {k : List Statement} {B : Builder} {M : Meaning} {pending : List Nat} {d : Nat},
    Open B M pending (s :: k) d →
    Processed (labelsIn s) (afterIn · k s) B M pending k d (processStatement s B)
  | .label _, _, _, _, _, _, _, h => by simpa only [labelsIn] using label_spec h
  | .jump _ _, _, _, _, _, _, _, h => by simpa only [labelsIn, afterIn] using jump_spec h
  | .goto _, _, _, _, _, _, _, h => by
    simpa only [labelsIn, afterIn, processStatement] using endBlock_spec h .goto
  | .end_ _, _, _, _, _, _, _, h => by
    simpa only [labelsIn, afterIn, processStatement] using endBlock_spec h .ret
  | .undefined, _, _, _, _, _, _, h => by
    simpa only [labelsIn, afterIn, processStatement] using endBlock_spec h .undefined
  | .panic _, _, _, _, _, _, _, h => by
    simpa only [labelsIn, afterIn, processStatement] using endBlock_spec h .panic
  | .variableDeclaration _ _, _, _, _, _, _, _, h | .copy _ _, _, _, _, _, _, _, h
  | .functionCall _ _ _, _, _, _, _, _, _, h | .exit _, _, _, _, _, _, _, h
  | .comment _, _, _, _, _, _, _, h => by
    simpa only [labelsIn, afterIn, processStatement] using addStatement_spec h trivial
  | .if_ c ifBody elseBody, hnd, k, B, M, pending, d, h => by
    rw [labelsIn, nodup_append] at hnd
    obtain ⟨hi, he, hdisj⟩ := hnd
    simpa only [labelsIn, afterIn] using if_spec (fun h => processStatements_spec ifBody hi h)
      (fun h => processStatements_spec elseBody he h) (fun l hl hl' => hdisj l hl l hl' rfl) h

theorem processStatements_spec : ∀ (ss : List Statement), (labelsOf ss).Nodup →
    ∀ {k : List Statement} {B : Builder} {M : Meaning} {pending : List Nat} {d : Nat},
    Open B M pending (ss ++ k) d →
    Processed (labelsOf ss) (afterLabel · k ss) B M pending k d (processStatements ss B)
  | [], _, k, B, M, pending, d, h => by
    refine ⟨B, M, rfl, h, Since.refl B M, ?_⟩
    simpa only [labelsOf, afterLabel] using Named.same rfl
  | s :: ss, hnd, k, B, M, pending, d, h => by
    rw [labelsOf, nodup_append] at hnd
    obtain ⟨hs, hss, hdisj⟩ := hnd
    obtain ⟨B1, M1, e1, o1, s1, n1⟩ := processStatement_spec s hs (k := ss ++ k) h
    obtain ⟨B2, M2, e2, o2, s2, n2⟩ := processStatements_spec ss hss o1
    refine ⟨B2, M2, by simp [processStatements, e1, e2], o2, s1.trans s2, ?_⟩
    simpa only [labelsOf, afterLabel] using n1.append (fun l hl hl' => hdisj l hl l hl' rfl) n2 s2

end

/-! ## Execution of the pending graph -/

def Builder.start (B : Builder) (b : Nat) : Heap.Pos := ⟨b, (B.block b).statements⟩

/-- One move in the pending graph; labels are looked up as they are jumped to. -/
inductive PendingStep (B : Builder) : Heap.Pos → Option Heap.Event → Heap.Pos → Prop where
  | exec {b : Nat} {s : Statement} {rest : List Statement} :
      PendingStep B ⟨b, s :: rest⟩ (some (.exec s)) ⟨b, rest⟩
  | jump {b n : Nat} {t : JumpTarget} : (B.block b).terminator = .unconditional t →
      B.target t = some n → PendingStep B ⟨b, []⟩ none (B.start n)
  | branch {b n : Nat} {c : Value} {t f : JumpTarget} (taken : Bool) :
      (B.block b).terminator = .conditional c t f → B.target (if taken then t else f) = some n →
      PendingStep B ⟨b, []⟩ (some (.branch c taken)) (B.start n)

inductive PendingFinal (B : Builder) : Heap.Pos → Heap.Result → Prop where
  | ret {b : Nat} {name : String} : (B.block b).terminator = .ret name →
      PendingFinal B ⟨b, []⟩ (.ret (some (.identifier name)))
  | undefined {b : Nat} : (B.block b).terminator = .undefined →
      PendingFinal B ⟨b, []⟩ (.panic (.literal (.string "undefined terminator")))
  | panic {b : Nat} {v : Value} : (B.block b).terminator = .panic v → PendingFinal B ⟨b, []⟩ (.panic v)

def Builder.machine (B : Builder) : Machine Heap.Pos Heap.Event Heap.Result :=
  ⟨PendingStep B, PendingFinal B⟩

/-- All blocks stand for their part of the program, and labels for what follows them. -/
structure Covers (program : List Statement) (B : Builder) (M : Meaning) : Prop where
  means : ∀ b, b < B.next → Means M B.next b (B.block b)
  label : ∀ l n, B.labels l = some n → n < B.next ∧ afterLabel l [] program = some (M.rest n)
  after : ∀ l k, afterLabel l [] program = some k → ∃ n, n < B.next ∧ B.labels l = some n ∧ M.rest n = k
  entered : ∀ l ∈ labelsOf program, (B.labels l).isSome

/-- **The builder covers its program**: it does not panic, and block `0` stands for the whole. -/
theorem processStatements_covers {program : List Statement} (hnd : (labelsOf program).Nodup) :
    ∃ B M, processStatements program ⟨1, fun _ => .new, fun _ => none, 0⟩ = some B ∧
      Covers program B M ∧ 0 < B.next ∧ M.rest 0 = program := by
  have h : Open ⟨1, fun _ => .new, fun _ => none, 0⟩ ⟨fun _ => program, fun _ => 0⟩ [] (program ++ []) 0 := by
    refine ⟨Nat.zero_lt_one, rfl, fun s hs => ?_, by simp [new], rfl, by simp, ?_⟩
    · simp [new] at hs
    · intro b hb hne
      exact absurd (Nat.lt_one_iff.mp hb) hne
  obtain ⟨B, M, he, ho, hs, hn⟩ := processStatements_spec program hnd h
  refine ⟨B, M, he, ⟨?_, ?_, ?_, ?_⟩, hs.next_le, (hs.agree 0 Nat.zero_lt_one).1⟩
  · intro b hb
    by_cases hbc : b = B.current
    · subst hbc
      exact ⟨[], ho.rest, ho.plain, by rw [ho.unknown]; exact .unknown⟩
    · exact ho.closed b hb hbc (by simp)
  · intro l n hl
    by_cases hmem : l ∈ labelsOf program
    · obtain ⟨n', hn', hl', ha⟩ := hn.new l hmem
      rw [hl'] at hl
      cases hl
      exact ⟨hn', ha⟩
    · rw [(hn.old l hmem).1] at hl
      cases hl
  · intro l k ha
    by_cases hmem : l ∈ labelsOf program
    · obtain ⟨n', hn', hl', ha'⟩ := hn.new l hmem
      exact ⟨n', hn', hl', some.inj (ha'.symm.trans ha)⟩
    · rw [(hn.old l hmem).2] at ha
      cases ha
  · intro l hmem
    obtain ⟨n', _, hl', _⟩ := hn.new l hmem
    rw [hl']; rfl

section Bisimulation

variable {program : List Statement} {B : Builder} {M : Meaning}

/-- What remains of the program at a position of the graph. -/
def Remains (B : Builder) (M : Meaning) (k : List Statement) (q : Heap.Pos) : Prop :=
  q.block < B.next ∧ ∃ k', k = q.rest ++ k' ∧ (∀ s ∈ q.rest, Plain s) ∧
    Closes M B.next (M.depth q.block) (B.block q.block).terminator k'

theorem remains_start (hC : Covers program B M) {b : Nat} (hb : b < B.next) :
    Remains B M (M.rest b) (B.start b) := by
  obtain ⟨k, hk, hp, hc⟩ := hC.means b hb
  exact ⟨hb, k, hk, hp, hc⟩

variable {l : Option Heap.Event}

/-- The list's move from the end of an `If` body is made after silently leaving that body. -/
theorem structured_step (hC : Covers program B M) {k k' : List Statement} (hs : Step program k l k') :
    ∀ (D : Nat) {q : Heap.Pos}, M.depth q.block < D → Remains B M k q →
    ∃ q', B.machine.Run q l.toList q' ∧ Remains B M k' q'
  | 0, _, hD, _ => absurd hD (Nat.not_lt_zero _)
  | D + 1, ⟨b, s :: rest⟩, _, ⟨hb, k1, hk, hp, hc⟩ => by
    -- a statement of the block
    have hps : Plain s := hp s (by simp)
    subst hk
    cases hs with
    | plain => exact ⟨⟨b, rest⟩, .emit (A := B.machine) .exec, hb, k1, rfl,
        fun s' hs' => hp s' (mem_cons_of_mem _ hs'), hc⟩
    | _ => cases hps
  | D + 1, ⟨b, []⟩, hD, ⟨hb, k1, hk, hp, hc⟩ => by
    rw [nil_append] at hk
    subst hk
    generalize ht : (B.block b).terminator = t at hc
    cases hc with
    | label hlt =>
      cases hs with
      | plain hps => cases hps
      | label => exact ⟨_, .silent (A := B.machine) (.jump ht rfl), remains_start hC hlt⟩
    | leave hlt hd =>
      have hd' : M.depth _ < D := Nat.lt_of_lt_of_le hd (Nat.le_of_lt_succ hD)
      obtain ⟨q', hq', hR'⟩ := structured_step hC hs D hd' (remains_start hC hlt)
      exact ⟨q', (Machine.Run.silent (A := B.machine) (.jump ht rfl)).trans_nil hq', hR'⟩
    | if_ ha hb' ea eb =>
      cases hs with
      | plain hps => cases hps
      | if_ taken =>
        cases taken with
        | true =>
          refine ⟨_, .emit (A := B.machine) (.branch true ht rfl), ?_⟩
          have := remains_start hC ha
          rwa [ea] at this
        | false =>
          refine ⟨_, .emit (A := B.machine) (.branch false ht rfl), ?_⟩
          have := remains_start hC hb'
          rwa [eb] at this
    | jump hlt =>
      cases hs with
      | plain hps => cases hps
      | jump ha =>
        obtain ⟨n, hn, hl, rfl⟩ := hC.after _ _ ha
        exact ⟨_, .emit (A := B.machine) (.branch true ht hl), remains_start hC hn⟩
      | skip => exact ⟨_, .emit (A := B.machine) (.branch false ht rfl), remains_start hC hlt⟩
    | goto =>
      cases hs with
      | plain hps => cases hps
      | goto ha =>
        obtain ⟨n, hn, hl, rfl⟩ := hC.after _ _ ha
        exact ⟨_, .silent (A := B.machine) (.jump ht hl), remains_start hC hn⟩
    | ret | undefined | panic =>
      cases hs with
      | plain hps => cases hps
    | unknown => cases hs

theorem structured_final (hC : Covers program B M) {k : List Statement} {r : Heap.Result}
    (hf : Final k r) : ∀ (D : Nat) {q : Heap.Pos}, M.depth q.block < D → Remains B M k q →
    ∃ q', B.machine.Run q [] q' ∧ PendingFinal B q' r
  | 0, _, hD, _ => absurd hD (Nat.not_lt_zero _)
  | D + 1, ⟨b, s :: rest⟩, _, ⟨hb, k1, hk, hp, hc⟩ => by
    have hps : Plain s := hp s (by simp)
    subst hk
    cases hf <;> cases hps
  | D + 1, ⟨b, []⟩, hD, ⟨hb, k1, hk, hp, hc⟩ => by
    rw [nil_append] at hk
    subst hk
    generalize ht : (B.block b).terminator = t at hc
    cases hc with
    | leave hlt hd =>
      have hd' : M.depth _ < D := Nat.lt_of_lt_of_le hd (Nat.le_of_lt_succ hD)
      obtain ⟨q', hq', hf'⟩ := structured_final hC hf D hd' (remains_start hC hlt)
      exact ⟨q', (Machine.Run.silent (A := B.machine) (.jump ht rfl)).trans_nil hq', hf'⟩
    | ret => cases hf; exact ⟨_, .refl _, .ret ht⟩
    | undefined => cases hf; exact ⟨_, .refl _, .undefined ht⟩
    | panic => cases hf; exact ⟨_, .refl _, .panic ht⟩
    | _ => cases hf

variable {k : List Statement}

theorem pending_step (hC : Covers program B M) {q q' : Heap.Pos} (hR : Remains B M k q)
    (hs : PendingStep B q l q') : ∃ k', (structured program).Run k l.toList k' ∧ Remains B M k' q' := by
  obtain ⟨hb, k1, rfl, hp, hc⟩ := hR
  cases hs with
  | @exec b s rest =>
    refine ⟨rest ++ k1, .emit (A := structured program) (.plain (hp s (by simp))), hb, k1, rfl, ?_, hc⟩
    exact fun s' hs' => hp s' (mem_cons_of_mem _ hs')
  | @jump b n t ht hn =>
    simp only [ht] at hc
    cases hc with
    | label hlt =>
      cases hn
      exact ⟨_, .silent (A := structured program) .label, remains_start hC hlt⟩
    | leave hlt _ =>
      cases hn
      exact ⟨_, .refl _, remains_start hC hlt⟩
    | goto =>
      obtain ⟨hlt, ha⟩ := hC.label _ n hn
      exact ⟨_, .silent (A := structured program) (.goto ha), remains_start hC hlt⟩
  | @branch b n c t f taken ht hn =>
    simp only [ht] at hc
    cases hc with
    | if_ ha hb' ea eb =>
      refine ⟨_, .emit (A := structured program) (.if_ taken), ?_⟩
      cases taken with
      | true =>
        cases hn
        have := remains_start hC ha
        rwa [ea] at this
      | false =>
        cases hn
        have := remains_start hC hb'
        rwa [eb] at this
    | jump hlt =>
      cases taken with
      | true =>
        obtain ⟨hlt', ha⟩ := hC.label _ n hn
        exact ⟨_, .emit (A := structured program) (.jump ha), remains_start hC hlt'⟩
      | false =>
        cases hn
        exact ⟨_, .emit (A := structured program) .skip, remains_start hC hlt⟩

theorem pending_final {q : Heap.Pos} {r : Heap.Result} (hR : Remains B M k q) (hf : PendingFinal B q r) :
    Final k r := by
  obtain ⟨hb, k1, rfl, hp, hc⟩ := hR
  cases hf with
  | ret ht => simp only [ht] at hc; cases hc; exact .end_
  | undefined ht => simp only [ht] at hc; cases hc; exact .undefined
  | panic ht => simp only [ht] at hc; cases hc; exact .panic

/-- **The pending graph executes like the structured list.** -/
theorem pending_bisimilar (hC : Covers program B M) :
    Machine.Bisimilar (structured program) B.machine (Remains B M) where
  fwd :=
    { step := fun hR hs => structured_step hC hs _ (Nat.lt_succ_self _) hR
      final := fun hR hf => structured_final hC hf _ (Nat.lt_succ_self _) hR }
  bwd :=
    { step := fun hR hs => pending_step hC hR hs
      final := fun hR hf => ⟨_, .refl _, pending_final hR hf⟩ }

end Bisimulation

end Icewind.JibLegacy
