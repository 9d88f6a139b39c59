import Icewind.Boom.Ast
import Mathlib.Logic.Function.Basic

/-!
# Destruction of composite copies

Model of `destruct_variable` and of the copies that `destruct_locals` makes of a copy between two locations
(`borealis/src/boom/passes/destruct_composites.rs`).

* `destructVariable` — the leaf variables of a variable of composite type.
* `Leaf` — the leaves of a type, by the paths that lead to them; `destructVariable_lists` — they are what is listed.
* `traverseTypFromLocation`, `destructLocations` — the variable and the type of a location, and the copies.
* `destructLocations_spec` — one after the other, the copies of the leaves do what the copy as a whole did.
-/

namespace Icewind.Boom.DestructComposites

/-! ### Leaf variables -/

/-- `union_tag_ident`. -/
def unionTagIdent (ident : String) : String := ident ++ "_tag"

/-- `union_value_ident`. -/
def unionValueIdent (root variant : String) : String := root ++ "_" ++ variant

/-- `struct_field_ident`. -/
def structFieldIdent (root field : String) : String := root ++ "_" ++ field

/-- `is_type_composite`. -/
def isTypeComposite : Ty → Bool
  | .union _ _ | .struct _ _ => true
  | .fixedVector _ element | .vector element => isTypeComposite element
  | _ => false

mutual

/-- `destruct_variable`.  The variables of a vector's elements are leaves already, so that the last round over the result
only concerns fields. -/
def destructVariable (root : String) : Ty → List (String × Ty)
  | .struct _ fields => destructFields (structFieldIdent root) fields
  | .union _ fields => (unionTagIdent root, .integer (.static 64)) :: destructFields (unionValueIdent root) fields
  | .fixedVector length element =>
    if isTypeComposite element then (destructVariable root element).map fun p => (p.1, .fixedVector length p.2)
    else [(root, .fixedVector length element)]
  | .vector element =>
    if isTypeComposite element then (destructVariable root element).map fun p => (p.1, .vector p.2)
    else [(root, .vector element)]
  | typ => [(root, typ)]

def destructFields (ident : String → String) : List (String × Ty) → List (String × Ty)
  | [] => []
  | (field, typ) :: rest =>
    (if isTypeComposite typ then destructVariable (ident field) typ else [(ident field, typ)]) ++
      destructFields ident rest

end

/-- A step from a composite to a part of it. -/
inductive Part where
  | field (name : String)
  | tag
  | variant (name : String)
  deriving DecidableEq

/-- The variable of a part. -/
def Part.ident (root : String) : Part → String
  | .field name => structFieldIdent root name
  | .tag => unionTagIdent root
  | .variant name => unionValueIdent root name

/-- The variable of what a path of parts leads to. -/
def identAt (root : String) (path : List Part) : String := path.foldl Part.ident root

theorem identAt_append (root : String) (path path' : List Part) :
    identAt root (path ++ path') = identAt (identAt root path) path' := List.foldl_append

/-- Neither a structure nor a union nor a vector. -/
def Simple : Ty → Prop
  | .struct _ _ | .union _ _ | .fixedVector _ _ | .vector _ => False
  | _ => True

/-- **A leaf of a type**: the path to it, and its own type.  The leaves of a vector are vectors of the leaves of its
elements, and a union has its tag as a leaf. -/
inductive Leaf : Ty → List Part → Ty → Prop
  | simple {typ : Ty} (h : Simple typ) : Leaf typ [] typ
  | field {struct name : String} {fields : List (String × Ty)} {typ leaf : Ty} {path : List Part}
      (hfield : (name, typ) ∈ fields) (h : Leaf typ path leaf) : Leaf (.struct struct fields) (.field name :: path) leaf
  | tag {union : String} {fields : List (String × Ty)} : Leaf (.union union fields) [.tag] (.integer (.static 64))
  | variant {union name : String} {fields : List (String × Ty)} {typ leaf : Ty} {path : List Part}
      (hfield : (name, typ) ∈ fields) (h : Leaf typ path leaf) : Leaf (.union union fields) (.variant name :: path) leaf
  | fixedVector {length : Nat} {element leaf : Ty} {path : List Part} (h : Leaf element path leaf) :
      Leaf (.fixedVector length element) path (.fixedVector length leaf)
  | vector {element leaf : Ty} {path : List Part} (h : Leaf element path leaf) :
      Leaf (.vector element) path (.vector leaf)

/-- What is not composite is left as it is, so that the tests before the recursive calls are not needed. -/
theorem destructVariable_of_not_composite (root : String) {typ : Ty} (h : isTypeComposite typ = false) :
    destructVariable root typ = [(root, typ)] := by
  cases typ with
  | struct | union => cases h
  | fixedVector length element | vector element =>
    rw [isTypeComposite] at h
    rw [destructVariable, if_neg (by simp [h])]
  | _ => rfl

theorem destructVariable_fixedVector (root : String) (length : Nat) (element : Ty) :
    destructVariable root (.fixedVector length element) =
      (destructVariable root element).map fun p => (p.1, .fixedVector length p.2) := by
  rw [destructVariable]
  split
  · rfl
  · rename_i h
    rw [destructVariable_of_not_composite root (Bool.eq_false_iff.mpr h)]
    rfl

theorem destructVariable_vector (root : String) (element : Ty) :
    destructVariable root (.vector element) = (destructVariable root element).map fun p => (p.1, .vector p.2) := by
  rw [destructVariable]
  split
  · rfl
  · rename_i h
    rw [destructVariable_of_not_composite root (Bool.eq_false_iff.mpr h)]
    rfl

theorem destructFields_cons (ident : String → String) (field : String) (typ : Ty) (rest : List (String × Ty)) :
    destructFields ident ((field, typ) :: rest) = destructVariable (ident field) typ ++ destructFields ident rest := by
  rw [destructFields]
  split
  · rfl
  · rename_i h
    rw [destructVariable_of_not_composite _ (Bool.eq_false_iff.mpr h)]

/-- The paths to the leaves, in the order of the list. -/
structure Lists (typ : Ty) (paths : List (List Part × Ty)) : Prop where
  idents : ∀ root, destructVariable root typ = paths.map fun p => (identAt root p.1, p.2)
  leaves : ∀ path leaf, (path, leaf) ∈ paths ↔ Leaf typ path leaf

theorem Lists.simple {typ : Ty} (h : Simple typ) : Lists typ [([], typ)] := by
  constructor
  · intro root
    cases typ with
    | struct | union | fixedVector | vector => exact absurd h id
    | _ => rfl
  · intro path leaf
    rw [List.mem_singleton, Prod.mk.injEq]
    constructor
    · rintro ⟨rfl, rfl⟩
      exact .simple h
    · intro hleaf
      cases hleaf with
      | simple => exact ⟨rfl, rfl⟩
      | field | tag | variant | fixedVector | vector => exact absurd h id

variable {element : Ty}

/-- The leaves of a vector, of either kind. -/
theorem Lists.elements {paths : List (List Part × Ty)} (h : Lists element paths) {vector : Ty → Ty}
    (hidents : ∀ root, destructVariable root (vector element) =
      (destructVariable root element).map fun p => (p.1, vector p.2))
    (hleaf : ∀ path leaf, Leaf (vector element) path leaf ↔ ∃ leaf', Leaf element path leaf' ∧ vector leaf' = leaf) :
    Lists (vector element) (paths.map fun p => (p.1, vector p.2)) := by
  constructor
  · intro root
    rw [hidents, h.idents, List.map_map, List.map_map]
    rfl
  · intro path leaf
    rw [List.mem_map, hleaf]
    constructor
    · rintro ⟨p, hmem, heq⟩
      cases heq
      exact ⟨_, (h.leaves _ _).mp hmem, rfl⟩
    · rintro ⟨leaf', h', rfl⟩
      exact ⟨_, (h.leaves _ _).mpr h', rfl⟩

theorem leaf_fixedVector {length : Nat} (path : List Part) (leaf : Ty) :
    Leaf (.fixedVector length element) path leaf ↔ ∃ leaf', Leaf element path leaf' ∧ .fixedVector length leaf' = leaf := by
  constructor
  · intro h
    cases h with
    | simple hsimple => exact absurd hsimple id
    | fixedVector h => exact ⟨_, h, rfl⟩
  · rintro ⟨leaf', h, rfl⟩
    exact .fixedVector h

theorem leaf_vector (path : List Part) (leaf : Ty) :
    Leaf (.vector element) path leaf ↔ ∃ leaf', Leaf element path leaf' ∧ .vector leaf' = leaf := by
  constructor
  · intro h
    cases h with
    | simple hsimple => exact absurd hsimple id
    | vector h => exact ⟨_, h, rfl⟩
  · rintro ⟨leaf', h, rfl⟩
    exact .vector h

/-- The same for the fields, each with its name. -/
structure ListsFields (fields : List (String × Ty)) (paths : List (String × List Part × Ty)) : Prop where
  idents : ∀ ident, destructFields ident fields = paths.map fun p => (identAt (ident p.1) p.2.1, p.2.2)
  leaves : ∀ name path leaf, (name, path, leaf) ∈ paths ↔ ∃ typ, (name, typ) ∈ fields ∧ Leaf typ path leaf

variable {fields : List (String × Ty)} {paths : List (String × List Part × Ty)}

theorem ListsFields.struct (h : ListsFields fields paths) (name : String) :
    Lists (.struct name fields) (paths.map fun p => (.field p.1 :: p.2.1, p.2.2)) := by
  constructor
  · intro root
    rw [destructVariable, h.idents, List.map_map]
    rfl
  · intro path leaf
    rw [List.mem_map]
    constructor
    · rintro ⟨⟨field, path', leaf'⟩, hmem, heq⟩
      cases heq
      obtain ⟨typ, hfield, hleaf⟩ := (h.leaves _ _ _).mp hmem
      exact .field hfield hleaf
    · intro hleaf
      cases hleaf with
      | simple hsimple => exact absurd hsimple id
      | field hfield hleaf => exact ⟨_, (h.leaves _ _ _).mpr ⟨_, hfield, hleaf⟩, rfl⟩

theorem ListsFields.union (h : ListsFields fields paths) (name : String) :
    Lists (.union name fields)
      (([.tag], .integer (.static 64)) :: paths.map fun p => (.variant p.1 :: p.2.1, p.2.2)) := by
  constructor
  · intro root
    rw [destructVariable, h.idents, List.map_cons, List.map_map]
    rfl
  · intro path leaf
    rw [List.mem_cons, List.mem_map]
    constructor
    · rintro (heq | ⟨⟨field, path', leaf'⟩, hmem, heq⟩)
      · cases heq
        exact .tag
      · cases heq
        obtain ⟨typ, hfield, hleaf⟩ := (h.leaves _ _ _).mp hmem
        exact .variant hfield hleaf
    · intro hleaf
      cases hleaf with
      | simple hsimple => exact absurd hsimple id
      | tag => exact .inl rfl
      | variant hfield hleaf => exact .inr ⟨_, (h.leaves _ _ _).mpr ⟨_, hfield, hleaf⟩, rfl⟩

theorem ListsFields.cons {field : String} {typ : Ty} {rest : List (String × Ty)} {paths : List (List Part × Ty)}
    {paths' : List (String × List Part × Ty)} (h : Lists typ paths) (hrest : ListsFields rest paths') :
    ListsFields ((field, typ) :: rest) (paths.map (fun p => (field, p.1, p.2)) ++ paths') := by
  constructor
  · intro ident
    rw [destructFields_cons, h.idents, hrest.idents, List.map_append, List.map_map]
    rfl
  · intro name path leaf
    rw [List.mem_append, List.mem_map, hrest.leaves]
    constructor
    · rintro (⟨p, hmem, heq⟩ | ⟨typ', hfield, hleaf⟩)
      · cases heq
        exact ⟨typ, .head _, (h.leaves _ _).mp hmem⟩
      · exact ⟨typ', .tail _ hfield, hleaf⟩
    · rintro ⟨typ', hfield, hleaf⟩
      rcases List.mem_cons.mp hfield with heq | hfield
      · cases heq
        exact .inl ⟨_, (h.leaves _ _).mpr hleaf, rfl⟩
      · exact .inr ⟨typ', hfield, hleaf⟩

mutual

/-- **`destruct_variable` lists exactly the leaves of the type**, under their names. -/
theorem destructVariable_lists : ∀ typ, ∃ paths, Lists typ paths
  | .struct name fields => (destructFields_lists fields).imp' _ fun _ h => h.struct name
  | .union name fields => (destructFields_lists fields).imp' _ fun _ h => h.union name
  | .fixedVector length element => (destructVariable_lists element).imp' _ fun _ h =>
    h.elements (fun root => destructVariable_fixedVector root length element) leaf_fixedVector
  | .vector element => (destructVariable_lists element).imp' _ fun _ h =>
    h.elements (fun root => destructVariable_vector root element) leaf_vector
  | .unit | .string | .bool | .bit | .real | .float | .integer _ | .bits _ | .constant _ | .tuple _ | .reference _
  | .roundingMode => ⟨_, .simple trivial⟩

theorem destructFields_lists : ∀ fields, ∃ paths, ListsFields fields paths
  | [] => ⟨[], fun _ => rfl, fun _ _ _ => by simp⟩
  | (field, typ) :: rest => by
    obtain ⟨paths, h⟩ := destructVariable_lists typ
    obtain ⟨paths', hrest⟩ := destructFields_lists rest
    exact ⟨_, .cons h hrest⟩

end

/-! ### Locations -/

/-- Either a destination or a source location. -/
inductive DataLocation where
  | identifier (name : String)
  | fields (root : String) (names : List String)

def DataLocation.root : DataLocation → String
  | .identifier root | .fields root _ => root

/-- The way from the root to the location. -/
def DataLocation.path : DataLocation → List Part
  | .identifier _ => []
  | .fields _ names => names.map .field

/-- The loop of `traverse_typ_from_location`; a union on the way is a `todo!`. -/
def traverseFields : List String → String → Ty → Option (String × Ty)
  | [], ident, typ => some (ident, typ)
  | field :: rest, ident, .struct _ fields => do
    let next ← fields.find? (·.1 = field)
    traverseFields rest (structFieldIdent ident field) next.2
  | _ :: _, _, _ => none

/-- `traverse_typ_from_location`. -/
def traverseTypFromLocation (typ : Ty) : DataLocation → Option (String × Ty)
  | .identifier name => some (name, typ)
  | .fields root names => traverseFields names root typ

/-- What stands at a path of fields in a value of the type. -/
inductive At : Ty → List Part → Ty → Prop
  | here (typ : Ty) : At typ [] typ
  | field {struct name : String} {fields : List (String × Ty)} {next typ : Ty} {path : List Part}
      (hfield : fields.find? (·.1 = name) = some (name, next)) (h : At next path typ) :
      At (.struct struct fields) (.field name :: path) typ

theorem traverseFields_of_at : ∀ {names : List String} {root : String} {typ found : Ty},
    At typ (names.map .field) found →
    traverseFields names root typ = some (identAt root (names.map .field), found)
  | [], _, _, _, h => by
    cases h
    rfl
  | name :: names, root, _, found, h => by
    cases h with
    | field hfield h =>
      rw [traverseFields, hfield]
      exact traverseFields_of_at h

theorem traverseTypFromLocation_of_at {location : DataLocation} {typ found : Ty} (h : At typ location.path found) :
    traverseTypFromLocation typ location = some (identAt location.root location.path, found) := by
  cases location with
  | identifier name =>
    cases h
    rfl
  | fields root names => exact traverseFields_of_at h

/-- The value of the variable, or its element if a vector is accessed. -/
def accessed (vectorAccess : Option Value) (name : String) : Value :=
  match vectorAccess with
  | none => .identifier name
  | some index => .vectorAccess (.identifier name) index

section

variable (destructedLocalVariables destructedRegisters : String → Option Ty)

/-- The type of a location's root, if it was destructed. -/
def rootTyp (location : DataLocation) : Option Ty :=
  (destructedLocalVariables location.root).or (destructedRegisters location.root)

/-- What `destruct_locals` makes of a copy, once its source and destination are known; `none` is a panic. -/
def destructLocations (source destination : DataLocation) (vectorAccess : Option Value) (copy : Statement) :
    Option (List Statement) :=
  match rootTyp destructedLocalVariables destructedRegisters source,
    rootTyp destructedLocalVariables destructedRegisters destination with
  | some srcTyp, some dstTyp => do
    let src ← traverseTypFromLocation srcTyp source
    let dst ← traverseTypFromLocation dstTyp destination
    some (((destructVariable src.1 src.2).zip (destructVariable dst.1 dst.2)).map fun p =>
      .copy (.identifier p.2.1) (accessed vectorAccess p.1.1))
  | some srcTyp, none => do
    let src ← traverseTypFromLocation srcTyp source
    let .identifier dst := destination | none
    some [.copy (.identifier dst) (accessed vectorAccess src.1)]
  | none, some dstTyp => do
    let dst ← traverseTypFromLocation dstTyp destination
    let .identifier src := source | none
    some [.copy (.identifier dst.1) (accessed vectorAccess src)]
  | none, none => some [copy]

end

/-! ### What the copies do -/

section

variable {α : Type}

/-- A copy from one variable to another. -/
def execute (state : String → α) : Statement → Option (String → α)
  | .copy (.identifier dst) (.identifier src) => some (Function.update state dst (state src))
  | _ => none

/-- Sources that are not among the destinations keep their values, so that the order does not matter. -/
theorem execute_copies {ι : Type} (src dst : ι → String) : ∀ {l : List ι} (state : String → α),
    (∀ x ∈ l, ∀ y ∈ l, src x ≠ dst y) → (∀ x ∈ l, ∀ y ∈ l, dst x = dst y → src x = src y) →
    ∃ state', (l.map fun x => .copy (.identifier (dst x)) (.identifier (src x))).foldlM execute state = some state' ∧
      (∀ x ∈ l, state' (dst x) = state (src x)) ∧ ∀ name, (∀ x ∈ l, name ≠ dst x) → state' name = state name
  | [], state, _, _ => ⟨state, rfl, nofun, fun _ _ => rfl⟩
  | x :: l, state, hsrc, hdst => by
    obtain ⟨state', hrun, hcopied, hkept⟩ := execute_copies src dst (l := l) (Function.update state (dst x) (state (src x)))
      (fun y hy z hz => hsrc y (.tail _ hy) z (.tail _ hz)) fun y hy z hz => hdst y (.tail _ hy) z (.tail _ hz)
    have hlater : ∀ y ∈ l, state' (dst y) = state (src y) := fun y hy => by
      rw [hcopied y hy, Function.update_of_ne (hsrc y (.tail _ hy) x (.head _))]
    refine ⟨state', hrun, fun y hy => ?_, fun name hname => ?_⟩
    · rcases List.mem_cons.mp hy with rfl | hy
      · -- a later copy to the same variable is from the same one
        by_cases hagain : ∃ z ∈ l, dst y = dst z
        · obtain ⟨z, hz, heq⟩ := hagain
          rw [heq, hlater z hz, hdst y (.head _) z (.tail _ hz) heq]
        · rw [hkept (dst y) fun z hz heq => hagain ⟨z, hz, heq⟩, Function.update_self]
      · exact hlater y hy
    · rw [hkept name fun z hz => hname z (.tail _ hz), Function.update_of_ne (hname x (.head _))]

variable {locals registers : String → Option Ty} {source destination : DataLocation} {srcTyp dstTyp typ : Ty}
  (copy : Statement)

/-- The variable of a leaf of what is at the location. -/
def DataLocation.leafIdent (location : DataLocation) (path : List Part) : String :=
  identAt location.root (location.path ++ path)

/-- The variables of the leaves on both sides are different ones. -/
structure Apart (typ : Ty) (source destination : DataLocation) : Prop where
  own : ∀ path path' leaf leaf', Leaf typ path leaf → Leaf typ path' leaf' →
    destination.leafIdent path = destination.leafIdent path' → path = path'
  both : ∀ path path' leaf leaf', Leaf typ path leaf → Leaf typ path' leaf' →
    source.leafIdent path ≠ destination.leafIdent path'

theorem destructLocations_eq (hsrcTyp : rootTyp locals registers source = some srcTyp)
    (hdstTyp : rootTyp locals registers destination = some dstTyp) (hsrc : At srcTyp source.path typ)
    (hdst : At dstTyp destination.path typ) {paths : List (List Part × Ty)} (hpaths : Lists typ paths) :
    destructLocations locals registers source destination none copy = some (paths.map fun p =>
      .copy (.identifier (destination.leafIdent p.1)) (.identifier (source.leafIdent p.1))) := by
  rw [destructLocations, hsrcTyp, hdstTyp]
  simp only [traverseTypFromLocation_of_at hsrc, traverseTypFromLocation_of_at hdst, Option.bind_eq_bind,
    Option.bind_some, hpaths.idents, List.zip_map', List.map_map, DataLocation.leafIdent, identAt_append]
  rfl

/-- **A copy between two locations of the same type**: the copies of the leaves, one after the other, give each leaf of
the destination the old value of that of the source, and change no other variable. -/
theorem destructLocations_spec (hsrcTyp : rootTyp locals registers source = some srcTyp)
    (hdstTyp : rootTyp locals registers destination = some dstTyp) (hsrc : At srcTyp source.path typ)
    (hdst : At dstTyp destination.path typ) (hapart : Apart typ source destination) (state : String → α) :
    ∃ code state', destructLocations locals registers source destination none copy = some code ∧
      code.foldlM execute state = some state' ∧
      (∀ path leaf, Leaf typ path leaf → state' (destination.leafIdent path) = state (source.leafIdent path)) ∧
      ∀ name, (∀ path leaf, Leaf typ path leaf → name ≠ destination.leafIdent path) → state' name = state name := by
  obtain ⟨paths, hpaths⟩ := destructVariable_lists typ
  have hleaf : ∀ p ∈ paths, Leaf typ p.1 p.2 := fun p hp => (hpaths.leaves p.1 p.2).mp hp
  obtain ⟨state', hrun, hcopied, hkept⟩ := execute_copies (fun p => source.leafIdent p.1)
    (fun p => destination.leafIdent p.1) (l := paths) state
    (fun p hp q hq => hapart.both _ _ _ _ (hleaf p hp) (hleaf q hq)) fun p hp q hq heq => by
      rw [hapart.own _ _ _ _ (hleaf p hp) (hleaf q hq) heq]
  refine ⟨_, state', destructLocations_eq copy hsrcTyp hdstTyp hsrc hdst hpaths, hrun, fun path leaf h => ?_,
    fun name hname => hkept name fun p hp => hname _ _ (hleaf p hp)⟩
  exact hcopied (path, leaf) ((hpaths.leaves _ _).mpr h)

end

/-- A structure with a vector of unions. -/
def nested : Ty := .struct "S" [("a", .bool), ("b", .fixedVector 2 (.union "U" [("some", .bit), ("none", .unit)]))]

/-- The variable `x` is such a structure, and the register `r` has one in its field `f`. -/
def nestedTyp (name : String) : Option Ty :=
  if name = "x" then some nested else if name = "r" then some (.struct "R" [("f", nested)]) else none

def nestedPaths : List (List Part) :=
  [[.field "a"], [.field "b", .tag], [.field "b", .variant "some"], [.field "b", .variant "none"]]

theorem nested_leaf {path : List Part} {leaf : Ty} (h : Leaf nested path leaf) : path ∈ nestedPaths := by
  cases h with
  | simple h => exact absurd h id
  | field hfield h =>
    simp only [List.mem_cons, Prod.mk.injEq, List.not_mem_nil, or_false] at hfield
    rcases hfield with ⟨rfl, rfl⟩ | ⟨rfl, rfl⟩
    · cases h
      decide
    · cases h with
      | simple h => exact absurd h id
      | fixedVector h =>
        cases h with
        | simple h => exact absurd h id
        | tag => decide
        | variant hfield h =>
          simp only [List.mem_cons, Prod.mk.injEq, List.not_mem_nil, or_false] at hfield
          rcases hfield with ⟨rfl, rfl⟩ | ⟨rfl, rfl⟩ <;> cases h <;> decide

theorem destructLocations_spec_nested :
    ∃ code state', destructLocations (fun _ => none) nestedTyp (.identifier "x") (.fields "r" ["f"]) none .undefined =
        some code ∧
      code.foldlM execute id = some state' ∧ state' "r_f_b_tag" = "x_b_tag" ∧ state' "x_b_tag" = "x_b_tag" := by
  have hown : ∀ p ∈ nestedPaths, ∀ q ∈ nestedPaths, (DataLocation.fields "r" ["f"]).leafIdent p =
      (DataLocation.fields "r" ["f"]).leafIdent q → p = q := by decide
  have hboth : ∀ p ∈ nestedPaths, ∀ q ∈ nestedPaths, (DataLocation.identifier "x").leafIdent p ≠
      (DataLocation.fields "r" ["f"]).leafIdent q := by decide
  have hother : ∀ p ∈ nestedPaths, "x_b_tag" ≠ (DataLocation.fields "r" ["f"]).leafIdent p := by decide
  obtain ⟨code, state', hcode, hrun, hcopied, hkept⟩ := destructLocations_spec .undefined
    (show rootTyp (fun _ => none) nestedTyp (.identifier "x") = some nested from rfl)
    (show rootTyp (fun _ => none) nestedTyp (.fields "r" ["f"]) = some (.struct "R" [("f", nested)]) from rfl)
    (.here _) (.field rfl (.here _)) ⟨fun _ _ _ _ h h' => hown _ (nested_leaf h) _ (nested_leaf h'),
      fun _ _ _ _ h h' => hboth _ (nested_leaf h) _ (nested_leaf h')⟩ id
  exact ⟨code, state', hcode, hrun, hcopied [.field "b", .tag] _ (.field (.tail _ (.head _)) (.fixedVector .tag)),
    hkept "x_b_tag" fun _ _ h => hother _ (nested_leaf h)⟩

end Icewind.Boom.DestructComposites
