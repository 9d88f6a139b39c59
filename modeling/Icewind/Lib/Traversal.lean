import Mathlib.Logic.Relation

/-!
# Depth-first orders

A search with a stack through a graph on numbers, whose edges lead to the `targets` of a node.

* `visits` — the nodes in the order in which they are first taken from the stack.
* `next`, `Yields` — the same search as an iterator.
* `mem_visits_iff`, `visits_nodup` — these are the nodes that can be reached, each of them once.
* `exists_yields` — the iterator ends, and no node comes before one that every path to it passes.
-/

namespace Icewind.Traversal

open List Relation

section

variable (targets : Nat → List Nat)

/-- The nodes that are visited from here on: `remaining` is the stack, its top first. -/
def order : Nat → List Nat → List Nat → List Nat
  | 0, _, _ => []
  | _ + 1, _, [] => []
  | fuel + 1, visited, current :: remaining =>
    if current ∈ visited then order fuel visited remaining
    else current :: order fuel (current :: visited) ((targets current).reverse ++ remaining)

/-- The targets of the nodes that have not been visited. -/
def unvisited (visited : List Nat) : Nat → Nat
  | 0 => 0
  | n + 1 => unvisited visited n + if n ∈ visited then 0 else (targets n).length

/-- The search from the entry: every target of every node is pushed at most once. -/
def visits (count entry : Nat) : List Nat := order targets (unvisited targets [] count + 1) [] [entry]

/-- The next node, with the visited nodes and the stack after it. -/
def next (visited : List Nat) : List Nat → Option (Nat × List Nat × List Nat)
  | [] => none
  | current :: remaining =>
    if current ∈ visited then next visited remaining
    else some (current, current :: visited, (targets current).reverse ++ remaining)

/-- What an iterator gives, up to its end. -/
inductive Yields (next : List Nat → List Nat → Option (Nat × List Nat × List Nat)) :
    List Nat → List Nat → List Nat → Prop where
  | done {visited remaining : List Nat} : next visited remaining = none → Yields next visited remaining []
  | more {visited remaining visited' remaining' cs : List Nat} {c : Nat} :
      next visited remaining = some (c, visited', remaining') → Yields next visited' remaining' cs →
      Yields next visited remaining (c :: cs)

/-- All paths from the entry to `b` pass `d`: none avoids it. -/
def Dominates (entry d b : Nat) : Prop :=
  entry ≠ d → ¬ ReflTransGen (fun a t => t ∈ targets a ∧ t ≠ d) entry b

/-- What can be reached from the entry: each node once, after those that dominate it. -/
structure Lists (entry : Nat) (bs : List Nat) : Prop where
  nodup : bs.Nodup
  mem_iff {b : Nat} : b ∈ bs ↔ ReflTransGen (fun a t => t ∈ targets a) entry b
  dominated {before after : List Nat} {b d : Nat} :
    bs = before ++ b :: after → Dominates targets entry d b → d ≠ b → d ∈ before

end

variable {targets : Nat → List Nat} {count entry : Nat}

theorem Yields.skip {visited remaining cs : List Nat} {c : Nat} (hc : c ∈ visited)
    (h : Yields (next targets) visited remaining cs) : Yields (next targets) visited (c :: remaining) cs := by
  have hnext : next targets visited (c :: remaining) = next targets visited remaining := if_pos hc
  cases h with
  | done h => exact .done (hnext.trans h)
  | more h hs => exact .more (hnext.trans h) hs

theorem unvisited_cons {visited : List Nat} {c : Nat} (hc : c ∉ visited) : ∀ {n : Nat}, c < n →
    unvisited targets visited n = unvisited targets (c :: visited) n + (targets c).length
  | n + 1, hn => by
    have hbelow : ∀ m : Nat, m ≤ c → unvisited targets (c :: visited) m = unvisited targets visited m := by
      intro m hm
      induction m with
      | zero => rfl
      | succ m ih =>
        have hmc : m ≠ c := Nat.ne_of_lt hm
        simp [unvisited, ih (Nat.le_of_succ_le hm), hmc]
    rcases Nat.lt_succ_iff_lt_or_eq.mp hn with h | rfl
    · have ih := unvisited_cons hc h
      have hnc : n ≠ c := by omega
      simp only [unvisited, mem_cons, hnc, false_or]
      omega
    · simp [unvisited, hc, hbelow c (Nat.le_refl c)]

/-- With enough fuel the search ends; everything on the stack is visited, and with a node its targets. -/
theorem order_closed (hvalid : ∀ b < count, ∀ t ∈ targets b, t < count) :
    ∀ (fuel : Nat) (visited remaining : List Nat), (∀ r ∈ remaining, r < count) →
      remaining.length + unvisited targets visited count ≤ fuel →
      Yields (next targets) visited remaining (order targets fuel visited remaining) ∧
      (∀ r ∈ remaining, r ∈ visited ∨ r ∈ order targets fuel visited remaining) ∧
      ∀ b ∈ order targets fuel visited remaining, ∀ t ∈ targets b,
        t ∈ visited ∨ t ∈ order targets fuel visited remaining
  | fuel, visited, [], _, _ => by
    have hdone : Yields (next targets) visited [] [] := .done rfl
    cases fuel <;> simpa [order]
  | 0, _, c :: remaining, _, hfuel => by simp at hfuel
  | fuel + 1, visited, c :: remaining, hr, hfuel => by
    simp only [length_cons] at hfuel
    by_cases hc : c ∈ visited
    · have ih := order_closed hvalid fuel visited remaining (fun r h => hr r (mem_cons_of_mem _ h)) (by omega)
      rw [order, if_pos hc]
      exact ⟨ih.1.skip hc, forall_mem_cons.mpr ⟨.inl hc, ih.2.1⟩, ih.2.2⟩
    · have hcn : c < count := hr c mem_cons_self
      have hun : unvisited targets visited count = _ := unvisited_cons hc hcn
      have ih := order_closed hvalid fuel (c :: visited) ((targets c).reverse ++ remaining) (fun r h => by
          rcases mem_append.mp h with h | h
          · exact hvalid c hcn r (mem_reverse.mp h)
          · exact hr r (mem_cons_of_mem _ h))
        (by simp only [length_append, length_reverse]; omega)
      rw [order, if_neg hc]
      have hmem : ∀ {t}, t ∈ c :: visited ∨ t ∈ order targets fuel (c :: visited) ((targets c).reverse ++ remaining) →
          t ∈ visited ∨ t ∈ c :: order targets fuel (c :: visited) ((targets c).reverse ++ remaining) := by
        rintro t (h | h)
        · rcases mem_cons.mp h with rfl | h
          · exact .inr mem_cons_self
          · exact .inl h
        · exact .inr (mem_cons_of_mem _ h)
      refine ⟨.more (if_neg hc) ih.1, fun r h => ?_, fun b hb t ht => hmem ?_⟩
      · rcases mem_cons.mp h with rfl | h
        · exact .inr mem_cons_self
        · exact hmem (ih.2.1 r (mem_append_right _ h))
      · rcases mem_cons.mp hb with rfl | hb
        · exact ih.2.1 t (mem_append_left _ (mem_reverse.mpr ht))
        · exact ih.2.2 b hb t ht

/-- Up to the first node outside `P`, nodes are reached by paths within `P`. -/
theorem order_reached {P : Nat → Prop} : ∀ {fuel : Nat} {visited remaining before after : List Nat} {b : Nat},
    (∀ r ∈ remaining, P r → ReflTransGen (fun a t => t ∈ targets a ∧ P t) entry r) →
    order targets fuel visited remaining = before ++ b :: after → (∀ a ∈ before, P a) → P b →
    ReflTransGen (fun a t => t ∈ targets a ∧ P t) entry b
  | 0, _, _, before, _, _, _, h, _, _ => by cases before <;> cases h
  | _ + 1, _, [], before, _, _, _, h, _, _ => by cases before <;> cases h
  | fuel + 1, visited, c :: remaining, before, after, b, hremaining, h, hbefore, hb => by
    obtain ⟨hc, hrest⟩ := forall_mem_cons.mp hremaining
    unfold order at h
    split at h
    · exact order_reached hrest h hbefore hb
    cases before with
    | nil =>
      cases h
      exact hc hb
    | cons a before =>
      obtain ⟨rfl, htail⟩ := cons.inj h
      obtain ⟨ha, hbefore⟩ := forall_mem_cons.mp hbefore
      refine order_reached (fun r hr hP => ?_) htail hbefore hb
      rcases mem_append.mp hr with hr | hr
      · exact (hc ha).tail ⟨mem_reverse.mp hr, hP⟩
      · exact hrest r hr hP

theorem order_nodup : ∀ (fuel : Nat) (visited remaining : List Nat),
    (order targets fuel visited remaining).Nodup ∧ ∀ b ∈ order targets fuel visited remaining, b ∉ visited
  | 0, _, _ => by simp [order]
  | _ + 1, _, [] => by simp [order]
  | fuel + 1, visited, current :: remaining => by
    rw [order]
    split
    · exact order_nodup fuel visited remaining
    · rename_i hcurrent
      obtain ⟨hnodup, hnew⟩ := order_nodup fuel (current :: visited) ((targets current).reverse ++ remaining)
      refine ⟨nodup_cons.mpr ⟨fun h => hnew _ h mem_cons_self, hnodup⟩, fun b hb => ?_⟩
      rcases mem_cons.mp hb with rfl | hb
      · exact hcurrent
      · exact fun h => hnew b hb (mem_cons_of_mem _ h)

theorem visits_nodup : (visits targets count entry).Nodup := (order_nodup _ _ _).1

theorem visits_dominated {before after : List Nat} {b d : Nat}
    (h : visits targets count entry = before ++ b :: after) (hd : Dominates targets entry d b) (hne : d ≠ b) :
    d ∈ before := by
  have hfirst : visits targets count entry =
      entry :: order targets (unvisited targets [] count) [entry] ((targets entry).reverse ++ []) := rfl
  refine Decidable.byContradiction fun hbefore => ?_
  have hentry : entry ≠ d := by
    rintro rfl
    cases before <;> grind
  refine hd hentry (order_reached (P := (· ≠ d)) (fun r hr _ => ?_) h (fun a ha heq => hbefore (heq ▸ ha)) hne.symm)
  rw [mem_singleton.mp hr]

section

variable (hentry : entry < count) (hvalid : ∀ b < count, ∀ t ∈ targets b, t < count)

include hentry hvalid

theorem visits_closed : Yields (next targets) [] [entry] (visits targets count entry) ∧
    (∀ r ∈ [entry], r ∈ [] ∨ r ∈ visits targets count entry) ∧
    ∀ b ∈ visits targets count entry, ∀ t ∈ targets b, t ∈ [] ∨ t ∈ visits targets count entry :=
  order_closed hvalid (unvisited targets [] count + 1) [] [entry] (by simpa using hentry) (by simp; omega)

/-- **The search visits the nodes that can be reached.** -/
theorem mem_visits_iff {b : Nat} :
    b ∈ visits targets count entry ↔ ReflTransGen (fun a t => t ∈ targets a) entry b := by
  constructor
  · intro hb
    obtain ⟨before, after, hsplit⟩ := append_of_mem hb
    refine ReflTransGen.mono (fun _ _ h => h.1) _ _
      (order_reached (P := fun _ => True) (fun r hr _ => ?_) hsplit (by simp) trivial)
    rw [mem_singleton.mp hr]
  · intro hb
    obtain ⟨-, hfirst, hclosed⟩ := visits_closed hentry hvalid
    induction hb with
    | refl => simpa using hfirst
    | tail _ ht ih => simpa using hclosed _ ih _ ht

/-- **The iterator ends, after the nodes that can be reached.** -/
theorem exists_yields : ∃ bs, Yields (next targets) [] [entry] bs ∧ Lists targets entry bs :=
  ⟨_, (visits_closed hentry hvalid).1, visits_nodup, mem_visits_iff hentry hvalid, visits_dominated⟩

end

end Icewind.Traversal
