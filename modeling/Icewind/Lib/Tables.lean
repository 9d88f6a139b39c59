import Mathlib.Data.List.Induction
import Mathlib.Logic.Function.Basic

/-!
# Trees of tables

Tables in frames, whose entries may name further tables, as in multi-level page tables.  `mem f i`
is the entry `i` of the table in frame `f`, and `next e` the frame an entry names, if any.

* `walk` — follow a path of indices from a root table.
* `Separated` — paths up to the depth of the tree that lead to the same frame are equal, so that a
  table has one place in the tree.
* `walk_congr` — changes that name the same frames do not change the tree.
* `walk_link` — a fresh, empty table put into an entry that names none adds one path.
-/

namespace Icewind.Tables

variable {F I E : Type} (mem : F → I → E) (next : E → Option F)

/-- The frame at the end of a path. -/
def walk : F → List I → Option F
  | f, [] => some f
  | f, i :: p => (next (mem f i)).bind fun g => walk g p

theorem walk_append (f : F) (p q : List I) :
    walk mem next f (p ++ q) = (walk mem next f p).bind fun g => walk mem next g q := by
  induction p generalizing f with
  | nil => rfl
  | cons i p ih =>
    simp only [List.cons_append, walk]
    cases next (mem f i) with
    | none => rfl
    | some g => exact ih g

theorem walk_concat (f : F) (p : List I) (i : I) :
    walk mem next f (p ++ [i]) = (walk mem next f p).bind fun g => next (mem g i) := by
  rw [walk_append]
  congr 1
  funext g
  simp [walk]

/-- A table has one place among the paths up to the given length. -/
def Separated (root : F) (depth : Nat) : Prop :=
  ∀ p q g, p.length ≤ depth → q.length ≤ depth →
    walk mem next root p = some g → walk mem next root q = some g → p = q

variable {mem next} {mem' : F → I → E} {root f g : F} {depth : Nat} {p : List I} {i : I}

/-- **Entries that name the same frames make the same tree.**  Only the entries of inner tables
matter. -/
theorem walk_congr (h : ∀ q f, q.length < depth → walk mem next root q = some f →
      ∀ i, next (mem' f i) = next (mem f i)) :
    ∀ q : List I, q.length ≤ depth → walk mem' next root q = walk mem next root q := by
  intro q
  induction q using List.reverseRecOn with
  | nil => exact fun _ => rfl
  | append_singleton q j ih =>
    intro hlen
    rw [List.length_append, List.length_singleton] at hlen
    rw [walk_concat, walk_concat, ih (by omega)]
    cases hq : walk mem next root q with
    | none => rfl
    | some f => exact h q f (by omega) hq j

theorem Separated.congr (hsep : Separated mem next root depth)
    (h : ∀ q : List I, q.length ≤ depth → walk mem' next root q = walk mem next root q) :
    Separated mem' next root depth := by
  intro p q g hp hq hpg hqg
  rw [h p hp] at hpg
  rw [h q hq] at hqg
  exact hsep p q g hp hq hpg hqg

variable [DecidableEq I]

/-- **A fresh table adds one path.**  The entry that is linked named no table before, the new table
is empty and has no place in the tree, and all other entries of inner tables stay. -/
theorem walk_link (hsep : Separated mem next root depth) (hp : walk mem next root p = some f)
    (hplen : p.length < depth) (hnone : next (mem f i) = none)
    (hempty : ∀ j, next (mem' g j) = none) (hlink : next (mem' f i) = some g)
    (hother : ∀ q f' j, q.length < depth → walk mem next root q = some f' → (f', j) ≠ (f, i) →
      next (mem' f' j) = next (mem f' j)) :
    ∀ q : List I, q.length ≤ depth →
      walk mem' next root q = if q = p ++ [i] then some g else walk mem next root q := by
  intro q
  induction q using List.reverseRecOn with
  | nil => exact fun _ => by rw [if_neg (by simp)]; rfl
  | append_singleton q j ih =>
    intro hlen
    rw [List.length_append, List.length_singleton] at hlen
    rw [walk_concat, walk_concat, ih (by omega)]
    by_cases hq : q = p ++ [i]
    · -- below the new table there is nothing yet, nor was there before
      have hne : ¬ q ++ [j] = p ++ [i] := by
        intro h
        have := congrArg List.length h
        simp [hq] at this
      rw [if_pos hq, if_neg hne, hq, walk_concat, hp]
      simp [hempty, hnone]
    · rw [if_neg hq]
      cases hwalk : walk mem next root q with
      | none =>
        have hne : ¬ q ++ [j] = p ++ [i] := by
          intro h
          rw [(List.append_inj' h rfl).1, hp] at hwalk
          cases hwalk
        rw [if_neg hne]
        rfl
      | some f' =>
        by_cases hnew : q ++ [j] = p ++ [i]
        · obtain ⟨rfl, hj⟩ := List.append_inj' hnew rfl
          obtain rfl : j = i := by simpa using hj
          rw [hp] at hwalk
          cases hwalk
          rw [if_pos rfl]
          exact hlink
        · rw [if_neg hnew]
          refine hother q f' j (by omega) hwalk fun hpair => hnew ?_
          obtain ⟨rfl, rfl⟩ := Prod.mk.inj hpair
          rw [hsep q p f' (by omega) (by omega) hwalk hp]

/-- The tree with the fresh table is separated again. -/
theorem Separated.link (hsep : Separated mem next root depth)
    (hfresh : ∀ q : List I, q.length ≤ depth → walk mem next root q ≠ some g)
    (hwalk : ∀ q : List I, q.length ≤ depth →
      walk mem' next root q = if q = p ++ [i] then some g else walk mem next root q) :
    Separated mem' next root depth := by
  intro q1 q2 x h1 h2 hx1 hx2
  rw [hwalk q1 h1] at hx1
  rw [hwalk q2 h2] at hx2
  split at hx1
  · rename_i he1
    split at hx2
    · rename_i he2
      rw [he1, he2]
    · cases hx1
      exact absurd hx2 (hfresh q2 h2)
  · split at hx2
    · cases hx2
      exact absurd hx1 (hfresh q1 h1)
    · exact hsep q1 q2 x h1 h2 hx1 hx2

end Icewind.Tables
