import Icewind.Rudder.ConstantFolding

/-!
# Bit simplification

Model of `borealis/src/rudder/opt/bit_simplification.rs` and `useless_cast_elimination.rs`; the rule
for `And` is in `ConstantFolding.runOnStmt`.

* `Rewriting` — what a rule puts in the place of a statement, most often a copy of the statement
  that defines one of its operands.
* `BitSimplification.rewriting`, `andRewriting`, `UselessCastElimination.rewriting` — the rules.
* `Rewriting.Exact` — the values for which a rule gives the same value.
* `simplify_logBlock` — rewritings that copy only statements that compute, for such values and
  without a change to types that are asked for, keep all values and all accesses of a run of the block.
* `not_copies_call` — the rules also copy calls, which are then made twice.
-/

namespace Icewind.Rudder

open List Option Statement

/-! ### The rules -/

/-- What a rule puts in the place of a statement. -/
inductive Rewriting where
  | extractEntire (value : Ref) (width : Int)
  | extractOfInsert (source : Ref) (start width : Int)
  | insertEntire (target source : Ref) (width : Int)
  | createConstant (value width : Nat)
  | createCast (kind : CastOperationKind) (value : Ref) (width : Nat)
  | createCopy (value : Ref) (width : Nat)
  | andMask (lhs : Ref) (mask maskWidth : Nat)
  | reinterpret (typ : Typ) (value : Ref)

namespace Rewriting

/-- The operand whose statement is copied. -/
def copied : Rewriting → Option Ref
  | extractEntire value _ | extractOfInsert value _ _ | insertEntire _ value _ | createCopy value _
  | andMask value _ _ | reinterpret _ value => some value
  | createConstant _ _ | createCast _ _ _ => none

/-- `stmt.get_mut(arena).replace(..)`. -/
def statement (b : Block) : Rewriting → Statement Ref
  | extractEntire value _ | extractOfInsert value _ _ | insertEntire _ value _ | createCopy value _
  | andMask value _ _ | reinterpret _ value => b.arena value
  | createConstant value width => .constant (.unsignedInteger (value &&& mask width) width)
  | createCast kind value width => .cast kind (.u width) value

/-- The block and whether it has changed. -/
def apply (b : Block) (stmt : Ref) : Option Rewriting → Block × Bool
  | none => (b, false)
  | some rw => (b.set stmt (rw.statement b), true)

end Rewriting

open Rewriting

namespace BitSimplification

/-- A constant zero of either signedness. -/
def isZero : Statement Ref → Bool
  | .constant (.signedInteger value _) => decide (value = 0)
  | .constant (.unsignedInteger value _) => decide (value = 0)
  | _ => false

/-- The width as an `i64`; other constants panic. -/
def widthOf : Constant → Option Int
  | .unsignedInteger value _ => tryI64 value
  | .signedInteger value _ => some value
  | _ => none

/-- The value of a signed constant. -/
def signedAt (b : Block) (r : Ref) : Option Int :=
  match b.arena r with
  | .constant (.signedInteger value _) => some value
  | _ => none

/-- `value.typ(arena).unwrap().width_bits()`. -/
def bitsAt (b : Block) (r : Ref) : Option Nat := (b.typ r).bind Typ.widthBits

/-- `bit_extract_entire_value`; `none` is a panic, and `some none` the answer `false`. -/
def bitExtractEntireValue (b : Block) (value start width : Ref) : Option (Option Rewriting) :=
  if isZero (b.arena start) then
    match b.constantAt width with
    | none => some none
    | some c => do
      let width ← widthOf c
      let bits ← bitsAt b value
      some (if width = bits then some (.extractEntire value width) else none)
  else some none

/-- `bit_extract_of_bit_insert`. -/
def bitExtractOfBitInsert (b : Block) (value start width : Ref) : Option Rewriting :=
  match signedAt b start, signedAt b width, b.arena value with
  | some extractStart, some extractWidth, .bitInsert _ source insertStart insertWidth =>
    if signedAt b insertStart = some extractStart ∧ signedAt b insertWidth = some extractWidth then
      some (.extractOfInsert source extractStart extractWidth)
    else none
  | _, _, _ => none

/-- `bit_insert_entire_value`. -/
def bitInsertEntireValue (b : Block) (target source start width : Ref) : Option (Option Rewriting) :=
  if isZero (b.arena start) then
    match b.constantAt width with
    | none => some none
    | some c => do
      let width ← widthOf c
      let sourceBits ← bitsAt b source
      if width = sourceBits then
        let targetBits ← bitsAt b target
        some (if width = targetBits then some (.insertEntire target source width) else none)
      else some none
  else some none

/-- The branches of `create_bits` for a width that is known. -/
def createBitsOf (b : Block) (source : Ref) (width : Nat) : Option Rewriting :=
  match b.constantAt source with
  | some (.unsignedInteger value _) => some (.createConstant value width)
  | some _ => none
  | none => do
    let bits ← bitsAt b source
    some (if bits < width then .createCast .zeroExtend source width
      else if bits = width then .createCopy source width
      else .createCast .truncate source width)

/-- `create_bits`. -/
def createBits (b : Block) (source width : Ref) : Option (Option Rewriting) :=
  match b.constantAt width with
  | some (.unsignedInteger value _) => do
    let width ← tryU32 value
    let _ ← b.typ source
    some (some (← createBitsOf b source width))
  | some (.signedInteger value _) => do
    let width ← tryU32 (← tryU64 value)
    let _ ← b.typ source
    some (some (← createBitsOf b source width))
  | _ => some none

def rewriting (b : Block) (stmt : Ref) : Option (Option Rewriting) :=
  match b.arena stmt with
  | .bitExtract value start width =>
    match bitExtractEntireValue b value start width with
    | none => none
    | some (some rw) => some (some rw)
    | some none => some (bitExtractOfBitInsert b value start width)
  | .bitInsert target source start width => bitInsertEntireValue b target source start width
  | .createBits value width => createBits b value width
  | _ => some none

/-- `run_on_stmt`. -/
def runOnStmt (b : Block) (stmt : Ref) : Option (Block × Bool) :=
  (rewriting b stmt).map (apply b stmt)

/-- `run_on_block`. -/
def runOnBlock (b : Block) : Option (Block × Bool) := b.forStatements runOnStmt b.statements

def run (f : Function) : Option (Function × Bool) := f.forBlocks runOnBlock f.blockIter

end BitSimplification

/-- The rule for `And` with a constant mask. -/
def andRewriting (b : Block) (lhs rhs : Ref) : Option (Option Rewriting) :=
  match b.constantAt rhs with
  | some (.unsignedInteger value width) => do
    let bits ← BitSimplification.bitsAt b lhs
    some (if value = mask bits ∨ value = 2 ^ 64 - 1 then some (.andMask lhs value width) else none)
  | _ => some none

variable {b : Block}

/-- It is the one constant folding has. -/
theorem ConstantFolding.runOnStmt_and (fl : FloatOps) (checks : Bool) {stmt lhs rhs : Ref}
    (hs : b.arena stmt = .binaryOperation .and lhs rhs) (hlhs : b.constantAt lhs = none) :
    runOnStmt fl checks b stmt = (andRewriting b lhs rhs).map (apply b stmt) := by
  unfold runOnStmt andRewriting BitSimplification.bitsAt
  rw [hs]
  dsimp only
  rw [hlhs]
  cases b.constantAt rhs with
  | none => rfl
  | some c =>
    cases c with
    | unsignedInteger value width =>
      cases b.typ lhs with
      | none => rfl
      | some typ =>
        cases hbits : typ.widthBits with
        | none => simp [hbits]
        | some bits =>
          simp only [hbits, bind_eq_bind, bind_some, map_some, if_true]
          split <;> rfl
    | _ => rfl

mutual

/-- The derived `PartialEq` of types. -/
def Typ.eq : Typ → Typ → Bool
  | .primitive p, .primitive p' => decide (p = p')
  | .vector n t, .vector n' t' => decide (n = n') && t.eq t'
  | .tuple ts, .tuple ts' => Typ.eqs ts ts'
  | .bits, .bits | .int, .int | .string, .string | .real, .real => true
  | _, _ => false

def Typ.eqs : List Typ → List Typ → Bool
  | [], [] => true
  | t :: ts, t' :: ts' => t.eq t' && Typ.eqs ts ts'
  | _, _ => false

end

namespace UselessCastElimination

/-- A cast to the type of its source.  A source without a type is not an error here. -/
def rewriting (b : Block) (stmt : Ref) : Option Rewriting :=
  match b.arena stmt with
  | .cast .reinterpret typ value =>
    match b.typ value with
    | some source => if typ.eq source then some (.reinterpret typ value) else none
    | none => none
  | _ => none

/-- From a vector to one of length zero with the same elements. -/
def forgetsLength : Typ → Typ → Bool
  | .vector elementCount sourceElement, .vector 0 targetElement =>
    decide (0 < elementCount) && targetElement.eq sourceElement
  | _, _ => false

/-- The loop of `run_on_block`; `uses` are those of the block as it was at the start.  It returns
when it has removed a conversion. -/
def runOnStatements (uses : Ref → List Ref) : List Ref → Block → Option (Block × Bool)
  | [], b => some (b, false)
  | stmt :: rest, b =>
    match b.arena stmt with
    | .cast .convert typ value => do
      let source ← b.typ value
      if (source.eq typ || forgetsLength source typ) && !(uses stmt).isEmpty then
        (b.replaceUses stmt value (uses stmt)).map fun b => (b, true)
      else runOnStatements uses rest b
    | _ => runOnStatements uses rest (apply b stmt (rewriting b stmt)).1

def runOnBlock (b : Block) : Option (Block × Bool) := runOnStatements b.usesOf b.statements b

def run (f : Function) : Option (Function × Bool) := f.forBlocks runOnBlock f.blockIter

end UselessCastElimination

/-! ### Masks -/

theorem lt_two_pow_of_le_mask {value width : Nat} (h : value ≤ mask width) : value < 2 ^ min width 64 := by
  rw [mask_eq] at h
  have := Nat.two_pow_pos (min width 64)
  omega

/-! ### Where a rule gives the same value -/

/-- An unsigned integer of that width, within it. -/
def UnsignedOf (width : Int) (value : Option Value) : Prop :=
  ∃ v w : Nat, value = some (.unsignedInteger v w) ∧ (w : Int) = width ∧ v ≤ mask w

/-- A signed integer of that width whose bits are not cut. -/
def SignedOf (width : Int) (value : Option Value) : Prop :=
  ∃ (v : Int) (w : Nat), value = some (.signedInteger v w) ∧ (w : Int) = width ∧ v < 2 ^ 63 ∧
    ((64 ≤ w ∧ -2 ^ 63 ≤ v) ∨ (0 ≤ v ∧ v ≤ mask w))

/-- The operands are such that the rule gives the value of the statement. -/
def Rewriting.Exact (fr : Frame) : Rewriting → Prop
  | extractEntire value width =>
    UnsignedOf width (fr.values value) ∨ SignedOf width (fr.values value)
  | extractOfInsert source start width =>
    0 ≤ start ∧ start < 64 ∧ start + width ≤ 64 ∧ UnsignedOf width (fr.values source)
  | insertEntire target source width =>
    UnsignedOf width (fr.values target) ∧ UnsignedOf width (fr.values source)
  | createConstant value width => value ≤ mask width
  | createCast kind value width =>
    kind = .truncate → ∀ v, resolveU64 (fr.values value) = some v → v ≤ mask width
  | createCopy value width => ∃ v, fr.values value = some (.unsignedInteger v width)
  | andMask lhs mask maskWidth =>
    ∃ v w, fr.values lhs = some (.unsignedInteger v w) ∧ v ≤ mask ∧ maskWidth ≤ w
  | reinterpret typ value =>
    (∃ v w w', typ = .u w' ∧ fr.values value = some (.unsignedInteger v w)) ∨
      ∃ v w, typ = .s w ∧ fr.values value = some (.signedInteger v w) ∧ 0 ≤ v ∧ v < 2 ^ 63 ∧ v ≤ mask w

section Values

variable {μ : Type} (env : Environment μ) {sourceTyp : Option Typ}

theorem asI64_asU64_of_bounds {v : Int} (h : -2 ^ 63 ≤ v) (h' : v < 2 ^ 63) : asI64 (asU64 v) = v := by
  unfold asI64 asU64
  split <;> omega

theorem asU64_of_nonneg {v : Int} (h : 0 ≤ v) (h' : v < 2 ^ 63) : (asU64 v : Int) = v := by
  unfold asU64
  omega

theorem le_mask_of_asU64 {v : Int} {width : Nat} (h : 0 ≤ v) (h' : v < 2 ^ 63) (hm : v ≤ mask width) :
    asU64 v ≤ mask width := by
  have := asU64_of_nonneg h h'
  omega

theorem bitExtract_zero (v width n : Nat) (hn : tryU32 width = some n) :
    env.bitExtract v 0 width = some (v &&& mask n) := by
  rw [bitExtract_eq env v width (by decide), hn, and_mask, ← BitField.extract_zero]
  rfl

variable {n : Nat}

theorem tryU32_eq {width : Nat} (h : tryU32 width = some n) : n = width := by
  unfold tryU32 at h
  split at h <;> cases h
  rfl

variable {v : Value}

theorem extractEntire_value {value start width : Option Value} (hstart : resolveU64 start = some 0)
    (hwidth : resolveU64 width = some n) (hexact : UnsignedOf n value ∨ SignedOf n value)
    (h : evaluate env sourceTyp (.bitExtract value start width) = some v) : value = some v := by
  simp only [evaluate, hstart, hwidth, bind_eq_bind, bind_some] at h
  rcases hexact with ⟨a, w, rfl, hw, ha⟩ | ⟨a, w, rfl, hw, ha, hcases⟩
  · obtain rfl : w = n := by omega
    obtain ⟨x, m, hx, hm, h⟩ := bind₂_eq_some h
    cases h
    obtain rfl := tryU32_eq hm
    rw [bitExtract_zero env a m m hm, and_mask_of_le ha] at hx
    cases hx
    rfl
  · obtain rfl : w = n := by omega
    obtain ⟨x, m, hx, hm, h⟩ := bind₂_eq_some h
    cases h
    obtain rfl := tryU32_eq hm
    rw [bitExtract_zero env _ m m hm] at hx
    cases hx
    have heq : asI64 (asU64 a &&& mask m) = a := by
      rcases hcases with ⟨hw, hlow⟩ | ⟨hlow, hle⟩
      · have hle : asU64 a ≤ mask m := by
          rw [mask_eq, Nat.min_eq_right hw]
          unfold asU64
          omega
        rw [and_mask_of_le hle, asI64_asU64_of_bounds hlow ha]
      · rw [and_mask_of_le (le_mask_of_asU64 hlow ha hle), asI64_asU64_of_bounds (by omega) ha]
    rw [heq]

theorem extractOfInsert_value {target source start width start' width' : Option Value} {s : Nat}
    {w : Value} {τ : Option Typ} (hstart : resolveU64 start = some s)
    (hwidth : resolveU64 width = some n) (hstart' : resolveU64 start' = some s)
    (hwidth' : resolveU64 width' = some n) (hs : s < 64) (hfits : s + n ≤ 64)
    (hexact : UnsignedOf n source)
    (hinsert : evaluate env τ (.bitInsert target source start' width') = some w)
    (h : evaluate env sourceTyp (.bitExtract (some w) start width) = some v) : source = some v := by
  obtain ⟨a, k, rfl, hk, ha⟩ := hexact
  obtain rfl : k = n := by omega
  have hsource : resolveU64 (some (.unsignedInteger a k)) = some a := rfl
  simp only [evaluate, hstart', hwidth', hsource, bind_eq_bind, bind_some] at hinsert
  obtain ⟨t, -, hinsert'⟩ := bind_eq_some_iff.mp hinsert
  cases t with
  | unsignedInteger tv tw =>
    obtain ⟨x, hx, hw⟩ := bind_eq_some_iff.mp hinsert'
    cases hw
    simp only [evaluate, hstart, hwidth, bind_eq_bind, bind_some] at h
    obtain ⟨y, m, hy, hm, h⟩ := bind₂_eq_some h
    cases h
    obtain rfl := tryU32_eq hm
    have hlt := lt_two_pow_of_le_mask ha
    rw [Nat.min_eq_left (by omega)] at hlt
    rw [bitExtract_bitInsert env hs hfits hx, Nat.mod_eq_of_lt hlt] at hy
    cases hy
    rfl
  | _ => cases hinsert'

theorem insertEntire_value {target source start width : Option Value}
    (hstart : resolveU64 start = some 0) (hwidth : resolveU64 width = some n)
    (htarget : UnsignedOf n target) (hsource : UnsignedOf n source)
    (h : evaluate env sourceTyp (.bitInsert target source start width) = some v) :
    source = some v := by
  obtain ⟨t, tw, rfl, htw, ht⟩ := htarget
  obtain ⟨a, aw, rfl, haw, ha⟩ := hsource
  obtain rfl : tw = n := by omega
  obtain rfl : aw = tw := by omega
  have hsource : resolveU64 (some (.unsignedInteger a aw)) = some a := rfl
  simp only [evaluate, hstart, hwidth, hsource, bind_eq_bind, bind_some] at h
  obtain ⟨x, hx, h⟩ := bind_eq_some_iff.mp h
  cases h
  have hlength : tryU32 aw = some aw := by
    obtain ⟨m, hm, -⟩ := bind_eq_some_iff.mp hx
    rwa [tryU32_eq hm] at hm
  have hword : 2 ^ min aw 64 ≤ 2 ^ 64 := Nat.pow_le_pow_right (by decide) (Nat.min_le_right aw 64)
  have ht := lt_two_pow_of_le_mask ht
  -- nothing of the target is left
  have hinsert : BitField.insert t a 0 (min aw 64) = a := by
    rw [BitField.insert, Nat.zero_add, Nat.div_eq_of_lt ht, Nat.mod_eq_of_lt (lt_two_pow_of_le_mask ha)]
    simp [Nat.mod_one]
  rw [bitInsert_eq_min t a hlength (by decide) (by omega), Nat.mod_eq_of_lt (Nat.lt_of_lt_of_le ht hword), hinsert] at hx
  cases hx
  rfl

theorem createBits_value {value width : Option Value} (hwidth : resolveU64 width = some n)
    (h : evaluate env sourceTyp (.createBits value width) = some v) :
    ∃ a, resolveU64 value = some a ∧ v = .unsignedInteger a n := by
  simp only [evaluate, hwidth, bind_eq_bind, bind_some] at h
  obtain ⟨a, m, ha, hm, h⟩ := bind₂_eq_some h
  cases h
  obtain rfl := tryU32_eq hm
  exact ⟨a, ha, rfl⟩

variable {value : Option Value}

theorem createCast_value {kind : CastOperationKind} (hkind : kind = .zeroExtend ∨ kind = .truncate) {t : Typ} {a : Nat} (ha : resolveU64 value = some a)
    (hexact : kind = .truncate → a ≤ mask n) :
    evaluate env (some t) (.cast kind (.u n) value) = some (.unsignedInteger a n) := by
  unfold resolveU64 at ha
  split at ha
  · cases ha
    rcases hkind with rfl | rfl
    · rfl
    · simp only [evaluate, bind_eq_bind, bind_some, Typ.u, Value.cast]
      rw [and_mask_of_le (hexact rfl)]
  · rename_i v w
    rcases hkind with rfl | rfl
    · simp only [evaluate, bind_eq_bind, bind_some, Typ.u, Value.cast, ha]
    · simp only [evaluate, bind_eq_bind, bind_some, Typ.u, Value.cast, ha]
      rw [and_mask_of_le (hexact rfl)]
  · cases ha

theorem andMask_value {lhs rhs : Option Value} {m mw bits : Nat}
    (hrhs : rhs = some (.unsignedInteger m mw)) (hm : m = mask bits ∨ m = 2 ^ 64 - 1)
    (hexact : ∃ a w, lhs = some (.unsignedInteger a w) ∧ a ≤ m ∧ mw ≤ w)
    (h : evaluate env sourceTyp (.binaryOperation .and lhs rhs) = some v) : lhs = some v := by
  obtain ⟨a, w, rfl, ha, hw⟩ := hexact
  have hand : a &&& m = a := by
    rcases hm with rfl | rfl
    · exact and_mask_of_le ha
    · have hones : 2 ^ 64 - 1 = mask 64 := by decide
      rw [hones] at ha ⊢
      exact and_mask_of_le ha
  subst hrhs
  cases h
  rw [hand, Nat.max_eq_left hw]

theorem reinterpret_value {typ : Typ}
    (hexact : (∃ a w w', typ = .u w' ∧ value = some (.unsignedInteger a w)) ∨
      ∃ a w, typ = .s w ∧ value = some (.signedInteger a w) ∧ 0 ≤ a ∧ a < 2 ^ 63 ∧ a ≤ mask w)
    (h : evaluate env sourceTyp (.cast .reinterpret typ value) = some v) : value = some v := by
  obtain ⟨t, -, h⟩ := bind_eq_some_iff.mp h
  rcases hexact with ⟨a, w, w', rfl, rfl⟩ | ⟨a, w, rfl, rfl, hlow, hhigh, hle⟩
  · have hcast : (if w' = w then some (Value.unsignedInteger a w) else none) = some v := h
    split at hcast <;> cases hcast
    rfl
  · have hcast : ((tryI64 (asU64 a &&& mask w)).bind fun x => some (.signedInteger x w)) = some v :=
      h
    obtain ⟨x, hx, hv⟩ := bind_eq_some_iff.mp hcast
    cases hv
    rw [and_mask_of_le (le_mask_of_asU64 hlow hhigh hle)] at hx
    unfold tryI64 at hx
    split at hx <;> cases hx
    rw [asU64_of_nonneg hlow hhigh]

end Values

/-! ### What the rules find -/

/-- The width of a constant, where the rules take one. -/
def ConstantWidth (b : Block) (r : Ref) (n : Nat) : Prop :=
  ∃ c, b.arena r = .constant c ∧ resolveU64 (some (.fromConstant c)) = some n

/-- The rule that has been found for a statement, with what was found. -/
inductive Fired (b : Block) (stmt : Ref) : Rewriting → Prop
  | extractEntire {value start width : Ref} {n : Nat} :
    b.arena stmt = .bitExtract value start width → ConstantWidth b start 0 →
    ConstantWidth b width n → (∃ t, b.typ value = some t) → Fired b stmt (.extractEntire value n)
  | extractOfInsert {value start width target source insertStart insertWidth : Ref} {s n : Int}
    {w₁ w₂ w₃ w₄ : Nat} : b.arena stmt = .bitExtract value start width →
    b.arena value = .bitInsert target source insertStart insertWidth →
    b.arena start = .constant (.signedInteger s w₁) →
    b.arena width = .constant (.signedInteger n w₂) →
    b.arena insertStart = .constant (.signedInteger s w₃) →
    b.arena insertWidth = .constant (.signedInteger n w₄) →
    Fired b stmt (.extractOfInsert source s n)
  | insertEntire {target source start width : Ref} {n : Nat} :
    b.arena stmt = .bitInsert target source start width → ConstantWidth b start 0 →
    ConstantWidth b width n → Fired b stmt (.insertEntire target source n)
  | createConstant {value width : Ref} {n v w : Nat} : b.arena stmt = .createBits value width →
    ConstantWidth b width n → b.arena value = .constant (.unsignedInteger v w) →
    Fired b stmt (.createConstant v n)
  | createCast {value width : Ref} {n : Nat} {kind : CastOperationKind} :
    b.arena stmt = .createBits value width → ConstantWidth b width n →
    (∃ t, b.typ value = some t) → kind = .zeroExtend ∨ kind = .truncate →
    Fired b stmt (.createCast kind value n)
  | createCopy {value width : Ref} {n : Nat} : b.arena stmt = .createBits value width →
    ConstantWidth b width n → Fired b stmt (.createCopy value n)
  | andMask {lhs rhs : Ref} {m mw bits : Nat} : b.arena stmt = .binaryOperation .and lhs rhs →
    b.arena rhs = .constant (.unsignedInteger m mw) → m = mask bits ∨ m = 2 ^ 64 - 1 →
    Fired b stmt (.andMask lhs m mw)
  | reinterpret {typ : Typ} {value : Ref} : b.arena stmt = .cast .reinterpret typ value →
    Fired b stmt (.reinterpret typ value)

namespace BitSimplification

variable {b : Block}

theorem constantWidth_zero {r : Ref} (h : isZero (b.arena r)) : ConstantWidth b r 0 := by
  unfold isZero at h
  split at h
  case h_3 => cases h
  all_goals
    rename_i value width heq
    obtain rfl : value = 0 := of_decide_eq_true h
    exact ⟨_, heq, rfl⟩

theorem constantWidth_of_widthOf {r : Ref} {c : Constant} {n : Nat} (hc : b.constantAt r = some c)
    (h : widthOf c = some (n : Int)) : ConstantWidth b r n := by
  refine ⟨c, constantAt_eq_some hc, ?_⟩
  unfold widthOf at h
  split at h
  · unfold tryI64 at h
    split at h
    · have := some.inj h
      exact congrArg some (by omega)
    · cases h
  · cases h
    change tryU64 (n : Int) = some n
    exact if_pos (Int.natCast_nonneg n)
  · cases h

theorem arena_of_signedAt {r : Ref} {v : Int} (h : signedAt b r = some v) :
    ∃ w, b.arena r = .constant (.signedInteger v w) := by
  unfold signedAt at h
  split at h
  · rename_i value w heq
    cases h
    exact ⟨w, heq⟩
  · cases h

variable {stmt : Ref} {rw : Rewriting} {value start width : Ref}

theorem bitExtractEntireValue_fired
    (hs : b.arena stmt = .bitExtract value start width)
    (h : bitExtractEntireValue b value start width = some (some rw)) : Fired b stmt rw := by
  unfold bitExtractEntireValue at h
  split at h
  · rename_i hzero
    split at h
    · cases h
    · rename_i c hc
      obtain ⟨n, bits, hn, hbits, h⟩ := bind₂_eq_some h
      have h' := some.inj h
      split at h'
      · rename_i heq
        cases h'
        subst heq
        obtain ⟨t, ht, -⟩ := bind_eq_some_iff.mp hbits
        exact .extractEntire hs (constantWidth_zero hzero) (constantWidth_of_widthOf hc hn) ⟨t, ht⟩
      · cases h'
  · cases h

theorem bitExtractOfBitInsert_fired
    (hs : b.arena stmt = .bitExtract value start width)
    (h : bitExtractOfBitInsert b value start width = some rw) : Fired b stmt rw := by
  unfold bitExtractOfBitInsert at h
  split at h
  · rename_i s n target source insertStart insertWidth hstart hwidth hvalue
    split at h
    · rename_i hboth
      cases h
      obtain ⟨w1, h1⟩ := arena_of_signedAt hstart
      obtain ⟨w2, h2⟩ := arena_of_signedAt hwidth
      obtain ⟨w3, h3⟩ := arena_of_signedAt hboth.1
      obtain ⟨w4, h4⟩ := arena_of_signedAt hboth.2
      exact .extractOfInsert hs hvalue h1 h2 h3 h4
    · cases h
  · cases h

theorem bitInsertEntireValue_fired {target source start width : Ref}
    (hs : b.arena stmt = .bitInsert target source start width)
    (h : bitInsertEntireValue b target source start width = some (some rw)) : Fired b stmt rw := by
  unfold bitInsertEntireValue at h
  split at h
  · rename_i hzero
    split at h
    · cases h
    · rename_i c hc
      obtain ⟨n, bits, hn, hbits, h⟩ := bind₂_eq_some h
      split at h
      · rename_i heq
        subst heq
        obtain ⟨bits', hbits', h⟩ := bind_eq_some_iff.mp h
        have h' := some.inj h
        split at h'
        · cases h'
          exact .insertEntire hs (constantWidth_zero hzero) (constantWidth_of_widthOf hc hn)
        · cases h'
      · cases h
  · cases h

theorem createBitsOf_fired {source width : Ref} {n : Nat}
    (hs : b.arena stmt = .createBits source width) (hwidth : ConstantWidth b width n)
    (h : createBitsOf b source n = some rw) : Fired b stmt rw := by
  unfold createBitsOf at h
  split at h
  · rename_i v w hc
    cases h
    exact .createConstant hs hwidth (constantAt_eq_some hc)
  · cases h
  · obtain ⟨bits, hbits, h⟩ := bind_eq_some_iff.mp h
    obtain ⟨t, ht, -⟩ := bind_eq_some_iff.mp hbits
    have h' := some.inj h
    split at h'
    · cases h'
      exact .createCast hs hwidth ⟨t, ht⟩ (.inl rfl)
    · split at h'
      · cases h'
        exact .createCopy hs hwidth
      · cases h'
        exact .createCast hs hwidth ⟨t, ht⟩ (.inr rfl)

theorem createBits_fired {source width : Ref} (hs : b.arena stmt = .createBits source width)
    (h : createBits b source width = some (some rw)) : Fired b stmt rw := by
  unfold createBits at h
  split at h
  · rename_i value w hc
    obtain ⟨n, t, hn, -, h⟩ := bind₂_eq_some h
    obtain ⟨rw', hrw, h⟩ := bind_eq_some_iff.mp h
    cases h
    obtain rfl := tryU32_eq hn
    exact createBitsOf_fired hs ⟨_, constantAt_eq_some hc, rfl⟩ hrw
  · rename_i value w hc
    obtain ⟨m, n, hm, hn, h⟩ := bind₂_eq_some h
    obtain ⟨t, rw', -, hrw, h⟩ := bind₂_eq_some h
    cases h
    obtain rfl := tryU32_eq hn
    exact createBitsOf_fired hs ⟨_, constantAt_eq_some hc, hm⟩ hrw
  · cases h

theorem rewriting_fired (h : rewriting b stmt = some (some rw)) : Fired b stmt rw := by
  unfold rewriting at h
  split at h
  · rename_i value start width hs
    split at h
    · cases h
    · rename_i rw' hrw
      cases h
      exact bitExtractEntireValue_fired hs hrw
    · exact bitExtractOfBitInsert_fired hs (some.inj h)
  · rename_i target source start width hs
    exact bitInsertEntireValue_fired hs h
  · rename_i value width hs
    exact createBits_fired hs h
  · cases h

end BitSimplification

variable {rw : Rewriting}

theorem andRewriting_fired {stmt lhs rhs : Ref}
    (hs : b.arena stmt = .binaryOperation .and lhs rhs)
    (h : andRewriting b lhs rhs = some (some rw)) : Fired b stmt rw := by
  unfold andRewriting at h
  split at h
  · rename_i m mw hc
    obtain ⟨bits, hbits, h⟩ := bind_eq_some_iff.mp h
    have h' := some.inj h
    split at h'
    · rename_i hm
      cases h'
      exact .andMask hs (constantAt_eq_some hc) hm
    · cases h'
  · cases h

variable {stmt : Ref}

theorem UselessCastElimination.rewriting_fired
    (h : rewriting b stmt = some rw) : Fired b stmt rw := by
  unfold rewriting at h
  split at h
  · rename_i typ value hs
    split at h
    · split at h <;> cases h
      exact .reinterpret hs
    · cases h
  · cases h

/-! ### Applying a rule -/

/-- The static type of what is put in the place of the statement. -/
def Rewriting.HasTyp (b : Block) (t : Typ) : Rewriting → Prop
  | extractEntire value _ | extractOfInsert value _ _ | insertEntire _ value _ | createCopy value _
  | andMask value _ _ | reinterpret _ value => b.HasTyp value t
  | createConstant _ width | createCast _ _ width => t = .u width

section Applying

variable {b : Block} {stmt : Ref} {rw : Rewriting}

theorem Rewriting.statement_of_copied {x : Ref} (h : rw.copied = some x) :
    rw.statement b = b.arena x := by
  cases rw <;> cases h <;> rfl

theorem Rewriting.hasTyp_of_copied {x : Ref} (h : rw.copied = some x) {t : Typ}
    (ht : rw.HasTyp b t) : b.HasTyp x t := by
  cases rw <;> cases h <;> exact ht

/-- The statement has no effect of its own and is not a constant. -/
theorem Fired.computes (h : Fired b stmt rw) : (b.arena stmt).Computes ∧ b.constantAt stmt = none := by
  unfold Block.constantAt
  cases h with
  | extractEntire hs | extractOfInsert hs | insertEntire hs | createConstant hs | createCast hs | createCopy hs
  | andMask hs | reinterpret hs => rw [hs]; exact ⟨trivial, rfl⟩

variable {above below : List Ref} (hb : b.WellFormed)
  (hsplit : b.statements = above ++ stmt :: below)
include hb hsplit

/-- What is copied stands above, and so do the operands of the new statement. -/
theorem Fired.copied_mem (h : Fired b stmt rw) {x : Ref} (hx : rw.copied = some x) : x ∈ above := by
  have hops := hb.ordered above stmt below hsplit
  cases h with
  | extractEntire hs | insertEntire hs | createCopy hs | andMask hs | reinterpret hs =>
    cases hx
    exact hops _ (by simp [hs, operands])
  | extractOfInsert hs hvalue =>
    cases hx
    have hmem := hops _ (by rw [hs]; exact mem_cons_self)
    exact hb.operand_mem hsplit hmem (by simp [hvalue, operands])
  | createConstant | createCast => cases hx

theorem Fired.operands_mem (h : Fired b stmt rw) : ∀ o ∈ (rw.statement b).operands, o ∈ above := by
  intro o ho
  cases hx : rw.copied with
  | some x =>
    rw [statement_of_copied hx] at ho
    exact hb.operand_mem hsplit (h.copied_mem hb hsplit hx) ho
  | none =>
    cases h with
    | createConstant hs => cases ho
    | createCast hs =>
      obtain rfl := mem_singleton.mp ho
      exact hb.ordered above stmt below hsplit _ (by simp [hs, operands])
    | _ => cases hx

theorem Rewriting.hasTyp_set (hphi : b.NoPhi above) (hmem : ∀ x, rw.copied = some x → x ∈ above)
    {t : Typ} (ht : rw.HasTyp b t) : (b.set stmt (rw.statement b)).HasTyp stmt t := by
  cases hx : rw.copied with
  | some x =>
    have hxs : x ≠ stmt := fun heq => hb.not_mem hsplit (heq ▸ hmem x hx)
    have habove : ∀ y ∈ above, (b.set stmt (rw.statement b)).arena y = b.arena y := fun y hy =>
      b.set_arena_of_ne _ fun heq => hb.not_mem hsplit (heq ▸ hy)
    obtain ⟨n, hn⟩ := hb.hasTyp_above hsplit hphi habove (hmem x hx) (rw.hasTyp_of_copied hx ht)
    refine ⟨n, ?_⟩
    cases n with
    | zero => cases hn
    | succ n =>
      rw [Block.typAux] at hn ⊢
      rw [b.set_arena_of_ne _ hxs, ← statement_of_copied hx] at hn
      rw [b.set_arena_self]
      exact hn
  | none =>
    refine ⟨1, ?_⟩
    rw [Block.typAux, b.set_arena_self]
    cases rw with
    | createConstant | createCast =>
      cases ht
      rfl
    | _ => cases hx

/-- Static types above the statement are found in the new block too. -/
theorem typ_set_of_mem {s : Statement Ref} (hphi : b.NoPhi above) (hops : ∀ o ∈ s.operands, o ∈ above)
    {value : Ref} (hvalue : value ∈ above) {t : Typ} (ht : b.typ value = some t) :
    (b.set stmt s).typ value = some t := by
  have habove : ∀ y ∈ above, (b.set stmt s).arena y = b.arena y := fun y hy =>
    b.set_arena_of_ne _ fun heq => hb.not_mem hsplit (heq ▸ hy)
  refine (hb.set hsplit hops).typ_of_mem hsplit (fun y hy => ?_) hvalue
    (hb.hasTyp_above hsplit hphi habove hvalue (Block.hasTyp_of_typ ht))
  rw [habove y hy]
  exact hphi y hy

end Applying

section Running

variable {μ : Type} (env : Environment μ) {call : Calls μ} {b : Block} {stmt : Ref} {rw : Rewriting}
  {above below : List Ref} {locals : Locals} {flags : Nat} {st st₁ : State μ} {fr : Frame}
  (hb : b.WellFormed) (hsplit : b.statements = above ++ stmt :: below)
  (hreach : b.Reaches env call locals flags st above fr st₁)
include hb hreach

theorem ConstantWidth.value {r : Ref} {n : Nat} (h : ConstantWidth b r n) (hr : r ∈ above) :
    resolveU64 (fr.values r) = some n := by
  obtain ⟨c, hc, hn⟩ := h
  rw [hreach.constant env hb hr hc]
  exact hn

include hsplit

/-- A copy of a statement that only computes gives its value again. -/
theorem evaluate_copy {x : Ref} (hx : x ∈ above) (hcomp : (b.arena x).Computes) {v : Value}
    (hv : fr.values x = some v) :
    evaluate env ((b.set stmt (b.arena x)).sourceTyp stmt) ((b.arena x).map fr.values) = some v := by
  have heval := hreach.consistent env hb x hx hcomp
  rw [hv] at heval
  by_cases hcast : ∃ kind typ value, b.arena x = .cast kind typ value
  · obtain ⟨kind, typ, value, hcast⟩ := hcast
    have hsource : b.sourceTyp x = b.typ value := by
      unfold Block.sourceTyp
      rw [hcast]
    have hsource' : (b.set stmt (b.arena x)).sourceTyp stmt = (b.set stmt (b.arena x)).typ value := by
      unfold Block.sourceTyp
      rw [b.set_arena_self, hcast]
    rw [hsource, hcast] at heval
    obtain ⟨t, ht, -⟩ := bind_eq_some_iff.mp heval.symm
    have hvalue : value ∈ above := hb.operand_mem hsplit hx (by simp [hcast, operands])
    rw [hsource', typ_set_of_mem hb hsplit (hreach.noPhi env)
      (fun o ho => hb.operand_mem hsplit hx ho) hvalue ht, ← ht, hcast]
    exact heval.symm
  · have hnone : ∀ b' : Block, ∀ r, b'.arena r = b.arena x → b'.sourceTyp r = none := by
      intro b' r hr
      unfold Block.sourceTyp
      rw [hr]
      cases hs : b.arena x with
      | cast kind typ value => exact absurd ⟨kind, typ, value, hs⟩ hcast
      | _ => rfl
    rw [hnone _ _ (b.set_arena_self stmt _), ← hnone b x rfl]
    exact heval.symm

/-- **The new statement has the value of the old one.** -/
theorem Fired.evaluate (h : Fired b stmt rw) (hexact : rw.Exact fr)
    (hcopied : ∀ x, rw.copied = some x → (b.arena x).Computes) {v : Value}
    (hv : Rudder.evaluate env (b.sourceTyp stmt) ((b.arena stmt).map fr.values) = some v) :
    Rudder.evaluate env ((b.set stmt (rw.statement b)).sourceTyp stmt)
      ((rw.statement b).map fr.values) = some v := by
  have hops := hb.ordered above stmt below hsplit
  -- for a copy it is enough that the operand has that value
  have hcopy : ∀ x, rw.copied = some x → fr.values x = some v →
      Rudder.evaluate env ((b.set stmt (rw.statement b)).sourceTyp stmt)
        ((rw.statement b).map fr.values) = some v := by
    intro x hx hxv
    rw [statement_of_copied hx]
    exact evaluate_copy env hb hsplit hreach (h.copied_mem hb hsplit hx) (hcopied x hx) hxv
  cases h with
  | extractEntire hs hstart hwidth =>
    rw [hs] at hv
    refine hcopy _ rfl (extractEntire_value env ?_ ?_ hexact hv)
    · exact hstart.value env hb hreach (hops _ (by simp [hs, operands]))
    · exact hwidth.value env hb hreach (hops _ (by simp [hs, operands]))
  | @extractOfInsert value start width target source insertStart insertWidth s n w1 w2 w3 w4
      hs hvalue hstart hwidth hinsertStart hinsertWidth =>
    obtain ⟨hs0, hs1, hfits, hsource⟩ := hexact
    have hmem : value ∈ above := hops _ (by simp [hs, operands])
    have hn : 0 ≤ n := by
      obtain ⟨a, w, -, hw, -⟩ := hsource
      omega
    obtain ⟨s, rfl⟩ := Int.eq_ofNat_of_zero_le hs0
    obtain ⟨n, rfl⟩ := Int.eq_ofNat_of_zero_le hn
    -- the inserted value is what the insert computes
    have hinsert := hreach.consistent env hb value hmem (by rw [hvalue]; trivial)
    rw [hvalue] at hinsert
    have hconst : ∀ {r : Ref} {k : Nat} {w : Nat}, r ∈ above →
        b.arena r = .constant (.signedInteger (k : Int) w) → resolveU64 (fr.values r) = some k := by
      intro r k w hr hc
      rw [hreach.constant env hb hr hc]
      change tryU64 (k : Int) = some k
      exact if_pos (Int.natCast_nonneg k)
    rw [hs] at hv
    have hextract : ∃ w, fr.values value = some w := by
      obtain ⟨w, hw, -⟩ := bind_eq_some_iff.mp hv
      exact ⟨w, hw⟩
    obtain ⟨w, hw⟩ := hextract
    have hv' : Rudder.evaluate env (b.sourceTyp stmt)
        (.bitExtract (some w) (fr.values start) (fr.values width)) = some v := by
      rw [← hw]
      exact hv
    exact hcopy source rfl (extractOfInsert_value env (τ := b.sourceTyp value)
      (hconst (hops _ (by simp [hs, operands])) hstart)
      (hconst (hops _ (by simp [hs, operands])) hwidth)
      (hconst (hb.operand_mem hsplit hmem (by simp [hvalue, operands])) hinsertStart)
      (hconst (hb.operand_mem hsplit hmem (by simp [hvalue, operands])) hinsertWidth)
      (by omega) (by omega) hsource (hinsert.symm.trans hw) hv')
  | insertEntire hs hstart hwidth =>
    rw [hs] at hv
    refine hcopy _ rfl (insertEntire_value env ?_ ?_ hexact.1 hexact.2 hv)
    · exact hstart.value env hb hreach (hops _ (by simp [hs, operands]))
    · exact hwidth.value env hb hreach (hops _ (by simp [hs, operands]))
  | createConstant hs hwidth hvalue =>
    rw [hs] at hv
    obtain ⟨a, ha, rfl⟩ := createBits_value env
      (hwidth.value env hb hreach (hops _ (by simp [hs, operands]))) hv
    rw [hreach.constant env hb (hops _ (by simp [hs, operands])) hvalue] at ha
    cases ha
    refine congrArg some ?_
    change Value.unsignedInteger _ _ = _
    rw [and_mask_of_le hexact]
  | @createCast value width n kind hs hwidth htyp hkind =>
    rw [hs] at hv
    obtain ⟨a, ha, rfl⟩ := createBits_value env
      (hwidth.value env hb hreach (hops _ (by simp [hs, operands]))) hv
    obtain ⟨t, ht⟩ := htyp
    have hmem : value ∈ above := hops _ (by simp [hs, operands])
    have hsource : (b.set stmt (statement b (.createCast kind value n))).sourceTyp stmt = some t := by
      unfold Block.sourceTyp
      rw [b.set_arena_self]
      refine typ_set_of_mem (s := .cast kind (.u n) value) hb hsplit (hreach.noPhi env)
        (fun o ho => ?_) hmem ht
      obtain rfl := mem_singleton.mp ho
      exact hmem
    rw [hsource]
    exact createCast_value env hkind ha fun hk => hexact hk a ha
  | createCopy hs hwidth =>
    rw [hs] at hv
    obtain ⟨a, ha, rfl⟩ := createBits_value env
      (hwidth.value env hb hreach (hops _ (by simp [hs, operands]))) hv
    obtain ⟨a', ha'⟩ := hexact
    rw [ha'] at ha
    cases ha
    exact hcopy _ rfl ha'
  | andMask hs hrhs hm =>
    rw [hs] at hv
    exact hcopy _ rfl (andMask_value env
      (hreach.constant env hb (hops _ (by simp [hs, operands])) hrhs) hm hexact hv)
  | reinterpret hs =>
    rw [hs] at hv
    exact hcopy _ rfl (reinterpret_value env hexact hv)

end Running

/-! ### Runs of the passes -/

section Passes

variable {μ : Type} (env : Environment μ) (call : Calls μ) (locals : Locals) (flags : Nat)
  (st : State μ)

/-- The rewriting is sound in a run of the block: it copies only a statement that computes, the
types that are asked for stay, and the operands are within their widths where the run comes to the
statement. -/
structure Rewriting.Sound (b : Block) (stmt : Ref) (rw : Rewriting) : Prop where
  computes : ∀ x, rw.copied = some x → (b.arena x).Computes
  typ : ∀ exact, b.Asked exact stmt → ∀ t, b.HasTyp stmt t → ∃ t', rw.HasTyp b t' ∧ (exact = true → t' = t)
  width : b.WidthKept stmt ((b.set stmt (rw.statement b)).constantAt stmt)
  exact : ∀ above below fr st₁, b.statements = above ++ stmt :: below →
    b.Reaches env call locals flags st above fr st₁ → rw.Exact fr

variable {env call locals flags st}

theorem Fired.logBlock (hb : b.WellFormed)
    (hstmt : stmt ∈ b.statements) (h : Fired b stmt rw)
    (hsound : rw.Sound env call locals flags st b stmt) {p : BlockResult μ × List Entry}
    (hlog : Rudder.logBlock env call b locals flags st = some p) :
    (b.set stmt (rw.statement b)).WellFormed ∧
      Rudder.logBlock env call (b.set stmt (rw.statement b)) locals flags st = some p := by
  obtain ⟨above, below, hsplit⟩ := append_of_mem hstmt
  obtain ⟨hcomp, hconst⟩ := h.computes
  have hmem := fun x (hx : rw.copied = some x) => h.copied_mem hb hsplit hx
  -- the new statement computes as well
  have hcomp' : (rw.statement b).Computes := by
    cases hx : rw.copied with
    | some x =>
      rw [statement_of_copied hx]
      exact hsound.computes x hx
    | none =>
      cases rw with
      | createConstant | createCast => trivial
      | _ => cases hx
  refine ⟨hb.set hsplit (h.operands_mem hb hsplit), logBlock_set env (fun _ _ _ _ h => h) hb hsplit
    (h.operands_mem hb hsplit) hcomp'.not_phi (fun hphi => ?_) (fun fr st₁ step hreach hexec => ?_)
    (fun fr value => ?_) hlog⟩
  · refine Block.typesKept_set (fun exact hr t ht => ?_) hsound.width
    obtain ⟨t', ht', heq⟩ := hsound.typ exact hr t ht
    exact ⟨t', hasTyp_set hb hsplit hphi hmem ht', heq⟩
  · unfold execIn at hexec ⊢
    rw [exec_computes env (computes_map.mpr hcomp)] at hexec
    obtain ⟨v, hv, hstep⟩ := map_eq_some_iff.mp hexec
    have hv' := h.evaluate env hb hsplit hreach (hsound.exact above below fr st₁ hsplit hreach)
      hsound.computes hv
    rw [b.set_arena_self, exec_computes env (computes_map.mpr hcomp'), hv']
    exact congrArg some hstep
  · -- neither is an access
    have hno : ∀ s : Statement Ref, s.Computes → s.isAccess = false := by
      intro s hs
      cases s <;> first | rfl | exact absurd hs id
    unfold Block.entry
    rw [b.set_arena_self, hno _ hcomp, hno _ hcomp']
    rfl

end Passes

mutual

theorem Typ.eq_of_eq : ∀ {t t' : Typ}, t.eq t' = true → t = t'
  | .primitive p, .primitive p', h => congrArg Typ.primitive (of_decide_eq_true h)
  | .vector n t, .vector n' t', h => by
    obtain ⟨hn, ht⟩ := Bool.and_eq_true_iff.mp h
    rw [of_decide_eq_true hn, Typ.eq_of_eq ht]
  | .tuple ts, .tuple ts', h => congrArg Typ.tuple (Typ.eqs_of_eqs h)
  | .bits, .bits, _ => rfl
  | .int, .int, _ => rfl
  | .string, .string, _ => rfl
  | .real, .real, _ => rfl

theorem Typ.eqs_of_eqs : ∀ {ts ts' : List Typ}, Typ.eqs ts ts' = true → ts = ts'
  | [], [], _ => rfl
  | t :: ts, t' :: ts', h => by
    obtain ⟨ht, hts⟩ := Bool.and_eq_true_iff.mp h
    rw [Typ.eq_of_eq ht, Typ.eqs_of_eqs hts]

end

theorem Constant.typ_ne_bits (c : Constant) : c.typ ≠ some .bits := by
  cases c with
  | tuple cs =>
    rw [Constant.typ]
    cases Constant.typs cs <;> nofun
  | vector cs =>
    cases cs with
    | nil => nofun
    | cons c cs =>
      rw [Constant.typ]
      cases c.typ <;> nofun
  | _ => nofun

section Passes

variable {μ : Type} {env : Environment μ} {call : Calls μ} {locals : Locals} {flags : Nat}
  {st : State μ}

/-- A conversion gives back what it is given, and there is none but to bit vectors. -/
theorem convert_value {sourceTyp : Option Typ} {typ : Typ} {value : Option Value} {v : Value}
    (h : evaluate env sourceTyp (.cast .convert typ value) = some v) :
    value = some v ∧ typ = .bits := by
  obtain ⟨t, -, h⟩ := bind_eq_some_iff.mp h
  obtain ⟨w, rfl, h⟩ := bind_eq_some_iff.mp h
  cases typ with
  | primitive p => cases p <;> cases w <;> cases h
  | bits =>
    cases w <;> cases h
    exact ⟨rfl, rfl⟩
  | _ => cases w <;> cases h

variable {p : BlockResult μ × List Entry} {b b' : Block}

/-- **The uses of a conversion can be replaced by uses of its source.** -/
theorem convert_logBlock {stmt value : Ref} {typ source : Typ} (hb : b.WellFormed)
    (hstmt : stmt ∈ b.statements) (hs : b.arena stmt = .cast .convert typ value)
    (hsource : b.typ value = some source)
    (hsame : (source.eq typ || UselessCastElimination.forgetsLength source typ) = true)
    (huses : b.UsesReplaced b' stmt value) (hlog : logBlock env call b locals flags st = some p) :
    b'.WellFormed ∧ logBlock env call b' locals flags st = some p := by
  obtain ⟨above, below, hsplit⟩ := append_of_mem hstmt
  have hvalue : value ∈ above := hb.ordered above stmt below hsplit value (by simp [hs, operands])
  -- what the run knows when it has got past the conversion
  have hpast : ∀ fr st₁ v locals' flags' st2,
      execIn env call b stmt fr st₁ = some (.next v locals' flags' st2) →
      (v = fr.values value ∧ v.isSome) ∧ typ = .bits := by
    intro fr st₁ v locals' flags' st2 hexec
    unfold execIn at hexec
    rw [hs, exec_computes env (by exact trivial)] at hexec
    obtain ⟨w, hw, hstep⟩ := map_eq_some_iff.mp hexec
    cases hstep
    obtain ⟨h1, h2⟩ := convert_value hw
    exact ⟨⟨h1.symm, rfl⟩, h2⟩
  refine ⟨huses.wellFormed hb hsplit hvalue, logBlock_replaceUses env (fun _ _ _ _ h => h) hb huses
    hsplit hvalue ?_ (fun fr st₁ v locals' flags' st2 _ hexec => (hpast _ _ _ _ _ _ hexec).1) hlog⟩
  rintro ⟨fr, st₁, v, locals', flags', st2, -, hexec⟩
  obtain rfl := (hpast _ _ _ _ _ _ hexec).2
  have hbits : source = .bits := by
    rcases Bool.or_eq_true_iff.mp hsame with h | h
    · exact Typ.eq_of_eq h
    · cases source <;> cases h
  subst hbits
  have hstmtTyp : ∀ t, b.HasTyp stmt t → t = .bits := by
    rintro t ⟨n, hn⟩
    cases n with
    | zero => cases hn
    | succ n =>
      rw [Block.typAux, hs] at hn
      cases hn
      rfl
  refine ⟨fun _ _ t ht => ⟨.bits, Block.hasTyp_of_typ hsource, fun _ => (hstmtTyp t ht).symm⟩, fun _ _ _ _ => .inl ?_⟩
  · -- neither is a constant
    have hnone : b.constantAt value = none := by
      cases hc : b.constantAt value with
      | none => rfl
      | some c =>
        obtain ⟨n, hn⟩ := Block.hasTyp_of_typ hsource
        cases n with
        | zero => cases hn
        | succ n =>
          rw [Block.typAux, constantAt_eq_some hc] at hn
          exact absurd hn c.typ_ne_bits
    rw [hnone]
    unfold Block.constantAt
    rw [hs]

variable (env call locals flags st)

/-- One step of a pass, where its rewriting is sound in the run. -/
inductive SimplifyStep (b : Block) : Block → Prop
  | bits {b' : Block} {stmt : Ref} {changed : Bool} : stmt ∈ b.statements →
    BitSimplification.runOnStmt b stmt = some (b', changed) →
    (∀ rw, BitSimplification.rewriting b stmt = some (some rw) →
      rw.Sound env call locals flags st b stmt) → SimplifyStep b b'
  | and {b' : Block} {stmt lhs rhs : Ref} {fl : FloatOps} {checks changed : Bool} :
    stmt ∈ b.statements → b.arena stmt = .binaryOperation .and lhs rhs →
    b.constantAt lhs = none → ConstantFolding.runOnStmt fl checks b stmt = some (b', changed) →
    (∀ rw, andRewriting b lhs rhs = some (some rw) → rw.Sound env call locals flags st b stmt) →
    SimplifyStep b b'
  | reinterpret {stmt : Ref} : stmt ∈ b.statements →
    (∀ rw, UselessCastElimination.rewriting b stmt = some rw →
      rw.Sound env call locals flags st b stmt) →
    SimplifyStep b (apply b stmt (UselessCastElimination.rewriting b stmt)).1
  | convert {b' : Block} {stmt value : Ref} {typ source : Typ} {users : List Ref} :
    stmt ∈ b.statements → b.arena stmt = .cast .convert typ value → b.typ value = some source →
    (source.eq typ || UselessCastElimination.forgetsLength source typ) = true →
    users.Nodup → users ⊆ b.statements → b.replaceUses stmt value users = some b' →
    SimplifyStep b b'

variable {env call locals flags st}

theorem apply_logBlock {changed : Bool} {found : Option (Option Rewriting)}
    (hb : b.WellFormed) (hstmt : stmt ∈ b.statements) (hrun : found.map (apply b stmt) = some (b', changed))
    (hfired : ∀ rw, found = some (some rw) → Fired b stmt rw)
    (hsound : ∀ rw, found = some (some rw) → rw.Sound env call locals flags st b stmt)
    (hlog : logBlock env call b locals flags st = some p) :
    b'.WellFormed ∧ logBlock env call b' locals flags st = some p := by
  obtain ⟨rule, hrule, happly⟩ := map_eq_some_iff.mp hrun
  cases rule with
  | none =>
    cases happly
    exact ⟨hb, hlog⟩
  | some rw =>
    cases happly
    exact (hfired rw hrule).logBlock hb hstmt (hsound rw hrule) hlog

theorem SimplifyStep.logBlock (hb : b.WellFormed)
    (h : SimplifyStep env call locals flags st b b')
    (hlog : Rudder.logBlock env call b locals flags st = some p) :
    b'.WellFormed ∧ Rudder.logBlock env call b' locals flags st = some p := by
  cases h with
  | bits hstmt hrun hsound =>
    exact apply_logBlock hb hstmt hrun (fun _ => BitSimplification.rewriting_fired) hsound hlog
  | and hstmt hs hlhs hrun hsound =>
    rw [ConstantFolding.runOnStmt_and _ _ hs hlhs] at hrun
    exact apply_logBlock hb hstmt hrun (fun _ => andRewriting_fired hs) hsound hlog
  | reinterpret hstmt hsound =>
    exact apply_logBlock hb hstmt rfl
      (fun _ h => UselessCastElimination.rewriting_fired (some.inj h)) (fun rw h => hsound rw (some.inj h)) hlog
  | convert hstmt hs hsource hsame hnodup hsub hreplace =>
    exact convert_logBlock hb hstmt hs hsource hsame (Block.replaceUses_spec hnodup hsub hreplace).1 hlog

/-- **Any sequence of steps of the passes whose rewritings are sound in a run keeps the values and
accesses of that run, in their order.** -/
theorem simplify_logBlock {b b' : Block} (hb : b.WellFormed)
    (hsteps : Relation.ReflTransGen (SimplifyStep env call locals flags st) b b')
    {p : BlockResult μ × List Entry} (hlog : logBlock env call b locals flags st = some p) :
    logBlock env call b' locals flags st = some p := by
  have hboth : b'.WellFormed ∧ logBlock env call b' locals flags st = some p := by
    induction hsteps with
    | refl => exact ⟨hb, hlog⟩
    | tail _ hstep ih => exact hstep.logBlock ih.1 ih.2
  exact hboth.2

/-! ### The loops -/

theorem Rewriting.apply_statements (b : Block) (stmt : Ref) (found : Option Rewriting) :
    (apply b stmt found).1.statements = b.statements := by
  cases found <;> rfl

/-- Bit simplification of a block is a sequence of steps, for all of its statements as for some of them. -/
theorem BitSimplification.runOnBlock_steps {b b' : Block} {l : List Ref} {changed : Bool} (hsub : l ⊆ b.statements)
    (h : b.forStatements runOnStmt l = some (b', changed))
    (hsound : Along runOnStmt
      (fun b stmt => ∀ rw, rewriting b stmt = some (some rw) → rw.Sound env call locals flags st b stmt) l b) :
    Relation.ReflTransGen (SimplifyStep env call locals flags st) b b' := by
  have hinv := hsound.forEach (d := [])
    (Φ := fun _ rest b1 => rest ⊆ b1.statements ∧ Relation.ReflTransGen (SimplifyStep env call locals flags st) b b1)
    (fun {done rest stmt b1 b2 changed} hs hok hstep => by
      obtain ⟨hsub, hsteps⟩ := hs
      obtain ⟨hstmt, hrest⟩ := cons_subset.mp hsub
      have hstatements : b2.statements = b1.statements := by
        obtain ⟨found, -, happly⟩ := map_eq_some_iff.mp hstep
        have := apply_statements b1 stmt found
        rwa [happly] at this
      exact ⟨hstatements ▸ hrest, hsteps.tail (.bits hstmt hstep hok)⟩)
    h ⟨hsub, .refl⟩
  exact hinv.2

/-- So is a run of useless cast elimination of a block `b₀`. -/
theorem UselessCastElimination.runOnBlock_steps {b0 b' : Block} : ∀ {l : List Ref} {b : Block} {changed : Bool},
    l ⊆ b.statements → b.statements = b0.statements → runOnStatements b0.usesOf l b = some (b', changed) →
    Along (fun b stmt => some (apply b stmt (rewriting b stmt)))
      (fun b stmt => ∀ rw, rewriting b stmt = some rw → rw.Sound env call locals flags st b stmt) l b →
    Relation.ReflTransGen (SimplifyStep env call locals flags st) b b'
  | [], _, _, _, _, h, _ => by
    cases h
    exact .refl
  | stmt :: rest, b, _, hsub, hsame, h, ⟨hok, hsound⟩ => by
    obtain ⟨hstmt, hrest⟩ := cons_subset.mp hsub
    rw [runOnStatements] at h
    split at h
    · rename_i typ value hs
      obtain ⟨source, hsource, h⟩ := bind_eq_some_iff.mp h
      have hnone : rewriting b stmt = none := by
        unfold rewriting
        rw [hs]
      have hsound := hsound b false (by simp only [hnone, apply])
      split at h
      · rename_i hfires
        obtain ⟨b1, hreplace, h⟩ := map_eq_some_iff.mp h
        cases h
        refine .single (.convert hstmt hs hsource (Bool.and_eq_true_iff.mp hfires).1 (nodup_dedup _) ?_ hreplace)
        rw [hsame]
        exact fun x hx => Block.mem_usesOf hx
      · exact runOnBlock_steps hrest hsame h hsound
    · have hstatements := apply_statements b stmt (rewriting b stmt)
      refine .head (.reinterpret hstmt hok) (runOnBlock_steps ?_ (hstatements.trans hsame) h (hsound _ _ rfl))
      rw [hstatements]
      exact hrest

end Passes

/-! ### A rewriting that is sound, and one that is not -/

/-- All eight bits of a disjunction. -/
def extractBlock : Block where
  arenaSize := 6
  arena := fun
    | 0 => .constant (.unsignedInteger 5 8)
    | 1 => .binaryOperation .or 0 0
    | 2 => .constant (.signedInteger 0 64)
    | 3 => .constant (.signedInteger 8 64)
    | 4 => .bitExtract 1 2 3
    | _ => .return_ (some 4)
  statements := [0, 1, 2, 3, 4, 5]

/-- All 64 bits of the result of a call. -/
def callBlock : Block where
  arenaSize := 5
  arena := fun
    | 0 => .constant (.signedInteger 0 64)
    | 1 => .constant (.signedInteger 64 64)
    | 2 => .call "f" [] (some (.u 64))
    | 3 => .bitExtract 2 0 1
    | _ => .return_ (some 3)
  statements := [0, 1, 2, 3, 4]

/-- Every call gives seven. -/
def callSeven : Calls Unit := fun _ _ st => some (some (.unsignedInteger 7 64), st)

theorem extractBlock_wellFormed : extractBlock.WellFormed :=
  Block.wellFormed_of_orderedFrom (by decide) (by decide) (by decide)

theorem extractBlock_sound (locals : Locals) (flags : Nat) (st : State Unit) :
    (extractEntire 1 8).Sound plainEnvironment callSeven locals flags st extractBlock 4 := by
  have hcast : ∀ exact r, ¬ extractBlock.Asked exact r := by
    intro exact r h
    obtain ⟨r, hr, kind, typ, value, hs⟩ := h.exists_cast
    change r ∈ [0, 1, 2, 3, 4, 5] at hr
    simp only [mem_cons, not_mem_nil, or_false] at hr
    rcases hr with rfl | rfl | rfl | rfl | rfl | rfl <;> cases hs
  refine ⟨fun x hx => ?_, fun exact h => absurd h (hcast _ _), fun exact r h => absurd h (hcast _ _), ?_⟩
  · cases hx
    trivial
  · intro above below fr st₁ hsplit hreach
    -- the disjunction has been computed
    have hmem : ∀ r ∈ [0, 1], r ∈ above := fun r hr => by
      have hplace : extractBlock.statements = [0, 1, 2, 3] ++ 4 :: [5] := rfl
      rw [← (extractBlock_wellFormed.split_unique hplace hsplit).1]
      simp only [mem_cons, not_mem_nil, or_false] at hr
      rcases hr with rfl | rfl <;> simp
    have hzero := hreach.constant plainEnvironment extractBlock_wellFormed (hmem 0 (by simp)) rfl
    have hone := hreach.consistent plainEnvironment extractBlock_wellFormed 1 (hmem 1 (by simp)) trivial
    refine .inl ⟨5, 8, ?_, rfl, by decide⟩
    rw [hone]
    change evaluate plainEnvironment _ (.binaryOperation .or (fr.values 0) (fr.values 0)) = _
    rw [hzero]
    rfl

/-- The extract becomes a disjunction, with the same log. -/
theorem simplify_logBlock_extract : ∃ b' p, BitSimplification.runOnBlock extractBlock = some (b', true) ∧
      b'.arena 4 = .binaryOperation .or 0 0 ∧
      logBlock plainEnvironment callSeven extractBlock (fun _ => none) 0 ⟨fun _ => 0, (), []⟩ = some p ∧
      logBlock plainEnvironment callSeven b' (fun _ => none) 0 ⟨fun _ => 0, (), []⟩ = some p := by
  refine ⟨_, _, rfl, rfl, rfl, simplify_logBlock extractBlock_wellFormed
    (.single (.bits (show 4 ∈ extractBlock.statements by decide) rfl fun rw hrw => ?_)) rfl⟩
  cases hrw
  exact extractBlock_sound _ _ _

/-- The call whose result is extracted entirely is made once before the pass and twice after it. -/
theorem not_copies_call : ∃ b', BitSimplification.runOnBlock callBlock = some (b', true) ∧
      (logBlock plainEnvironment callSeven callBlock (fun _ => none) 0 ⟨fun _ => 0, (), []⟩).map
          (fun p => p.2.filterMap Entry.access) = some [.call "f" [] (some (.u 64))] ∧
      (logBlock plainEnvironment callSeven b' (fun _ => none) 0 ⟨fun _ => 0, (), []⟩).map
          (fun p => p.2.filterMap Entry.access) =
        some [.call "f" [] (some (.u 64)), .call "f" [] (some (.u 64))] :=
  ⟨_, rfl, rfl, rfl⟩

end Icewind.Rudder
