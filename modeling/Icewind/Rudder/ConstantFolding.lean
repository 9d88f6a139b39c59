import Icewind.Lib.SignedBits
import Icewind.Rudder.BitFields
import Icewind.Rudder.Passes

/-!
# Constant folding

Model of `borealis/src/rudder/opt/constant_folding.rs` with the arithmetic on constants of
`common/src/rudder/constant`, and its comparison with the interpreter.  A panic is `none`.

* `Constant.newSigned`, `Constant.add`, … — the operators on constants.
* `ConstantFolding.runOnStmt`, `runOnBlock`, `run` — the pass.
* `Block.FoldExact` — where folding and interpreting agree, as a condition on the operands.
* `runOnStmt_agrees_iff` — over integer constants the folded constant is the interpreter's value
  exactly there.

The two implementations differ in how they bring a result back to its width: the folding operators
wrap it to the width of the left operand, the interpreter leaves it as it is.
-/

namespace Icewind.Rudder

open Option SignedBits

/-- `f64` arithmetic on bit patterns, and the conversion of an `i32`. -/
structure FloatOps where
  add : Nat → Nat → Nat
  sub : Nat → Nat → Nat
  mul : Nat → Nat → Nat
  div : Nat → Nat → Nat
  powi : Nat → Int → Nat
  ofI32 : Int → Nat
  partialCmp : Nat → Nat → Option Ordering

/-! ### Operators on constants

`checks` says whether the build has overflow checks. -/

namespace Constant

/-- `Constant::new_signed`. -/
def newSigned (checks : Bool) (value : Int) (width : Nat) : Option Constant := do
  let masked := asU64 value &&& mask width
  let shift ← signShift checks width
  some (.signedInteger (asI64 (asU64 (asI64 masked * 2 ^ shift)) / 2 ^ shift) width)

/-- `Constant::new_unsigned`. -/
def newUnsigned (value width : Nat) : Constant := .unsignedInteger (value &&& mask width) width

/-- `Constant::new_float`. -/
def newFloat (bits width : Nat) : Option Constant :=
  if width = 64 then some (.floatingPoint bits width) else none

variable (fl : FloatOps) (checks : Bool)

def add : Constant → Constant → Option Constant
  | .unsignedInteger l w, .unsignedInteger r _ => do
    some (newUnsigned (← u64Result checks (l + r)) w)
  | .signedInteger l w, .unsignedInteger r _ => do
    newSigned checks (← i64Result checks (l + (← tryI64 r))) w
  | .unsignedInteger l w, .signedInteger r _ => do
    newSigned checks (← i64Result checks ((← tryI64 l) + r)) w
  | .signedInteger l w, .signedInteger r _ => do
    newSigned checks (← i64Result checks (l + r)) w
  | .floatingPoint l w, .floatingPoint r _ => newFloat (fl.add l r) w
  | _, _ => none

/-- The difference of an unsigned and a signed constant is not wrapped to its width. -/
def sub : Constant → Constant → Option Constant
  | .unsignedInteger l w, .unsignedInteger r _ => do
    some (newUnsigned (← u64Result checks ((l : Int) - r)) w)
  | .signedInteger l w, .signedInteger r _ => do
    newSigned checks (← i64Result checks (l - r)) w
  | .floatingPoint l w, .floatingPoint r _ => newFloat (fl.sub l r) w
  | .unsignedInteger l w, .signedInteger r w' =>
    if w = w' then do some (.signedInteger (← i64Result checks ((← tryI64 l) - r)) w) else none
  | _, _ => none

def mul : Constant → Constant → Option Constant
  | .unsignedInteger l w, .unsignedInteger r _ => do
    some (newUnsigned (← u64Result checks (l * r)) w)
  | .signedInteger l w, .signedInteger r _ => do
    newSigned checks (← i64Result checks (l * r)) w
  | .signedInteger l w, .unsignedInteger r _ => do
    newSigned checks (← i64Result checks (l * (← tryI64 r))) w
  | .floatingPoint l w, .floatingPoint r _ => newFloat (fl.mul l r) w
  | _, _ => none

def div : Constant → Constant → Option Constant
  | .unsignedInteger l w, .unsignedInteger r _ =>
    if r = 0 then none else some (newUnsigned (l / r) w)
  | .signedInteger l w, .signedInteger r _ =>
    if r = 0 ∨ (l = -2 ^ 63 ∧ r = -1) then none else newSigned checks (l.tdiv r) w
  | .floatingPoint l w, .floatingPoint r _ => newFloat (fl.div l r) w
  | _, _ => none

def not : Constant → Option Constant
  | .unsignedInteger value width => some (newUnsigned (2 ^ 64 - 1 - value) width)
  | _ => none

def bitxor : Constant → Constant → Option Constant
  | .unsignedInteger l w, .unsignedInteger r _ => some (newUnsigned (l ^^^ r) w)
  | _, _ => none

def powi : Constant → Constant → Option Constant
  | .floatingPoint value width, .signedInteger i _ =>
    if -2 ^ 31 ≤ i ∧ i < 2 ^ 31 then newFloat (fl.powi value i) width else none
  | _, _ => none

mutual

/-- The derived `PartialEq`. -/
def eq : Constant → Constant → Bool
  | .unsignedInteger v w, .unsignedInteger v' w' => v = v' ∧ w = w'
  | .signedInteger v w, .signedInteger v' w' => v = v' ∧ w = w'
  | .floatingPoint x w, .floatingPoint y w' => Value.f64Eq x y ∧ w = w'
  | .string s, .string s' => s = s'
  | .tuple cs, .tuple cs' => eqs cs cs'
  | .vector cs, .vector cs' => eqs cs cs'
  | _, _ => false

def eqs : List Constant → List Constant → Bool
  | [], [] => true
  | c :: cs, c' :: cs' => eq c c' && eqs cs cs'
  | _, _ => false

end

/-- `Constant::partial_cmp`; constants of different kinds are not comparable, which makes every
comparison false. -/
def partialCmp : Constant → Constant → Option Ordering
  | .unsignedInteger l _, .unsignedInteger r _ => some (compare l r)
  | .signedInteger l _, .signedInteger r _ => some (compare l r)
  | .floatingPoint l _, .floatingPoint r _ => fl.partialCmp l r
  | _, _ => none

/-- `(b as u64)` of width one. -/
def ofBool (b : Bool) : Constant := newUnsigned b.toNat 1

end Constant

/-! ### The pass -/

namespace ConstantFolding

variable (fl : FloatOps) (checks : Bool)

def foldBinary (lhs rhs : Constant) : BinaryOperationKind → Option Constant
  | .add => lhs.add fl checks rhs
  | .sub => lhs.sub fl checks rhs
  | .multiply => lhs.mul fl checks rhs
  | .divide => lhs.div fl checks rhs
  | .modulo => none
  | .and => none
  | .or => none
  | .xor => lhs.bitxor rhs
  | .powI => lhs.powi fl rhs
  | .compareEqual => some (.ofBool (lhs.eq rhs))
  | .compareNotEqual => some (.ofBool (!lhs.eq rhs))
  | .compareLessThan => some (.ofBool (lhs.partialCmp fl rhs = some .lt))
  | .compareLessThanOrEqual =>
    some (.ofBool (lhs.partialCmp fl rhs = some .lt ∨ lhs.partialCmp fl rhs = some .eq))
  | .compareGreaterThan => some (.ofBool (lhs.partialCmp fl rhs = some .gt))
  | .compareGreaterThanOrEqual =>
    some (.ofBool (lhs.partialCmp fl rhs = some .gt ∨ lhs.partialCmp fl rhs = some .eq))

/-- `cast_integer`. -/
def castInteger : Constant → Typ → Option Constant
  | .unsignedInteger value _, .primitive (.signedInteger width) =>
    Constant.newSigned checks (asI64 value) width
  | .signedInteger value _, .primitive (.signedInteger width) => Constant.newSigned checks value width
  | .signedInteger value _, .primitive (.unsignedInteger width) => do
    some (Constant.newUnsigned (← tryU64 value) width)
  | .unsignedInteger value _, .primitive (.unsignedInteger width) =>
    some (Constant.newUnsigned value width)
  | .signedInteger value _, .primitive (.floatingPoint width) =>
    if -2 ^ 31 ≤ value ∧ value < 2 ^ 31 then Constant.newFloat (fl.ofI32 value) width else none
  | _, _ => none

/-- The fold of a truncation. -/
def truncate : Constant → Typ → Option Constant
  | .unsignedInteger value _, .primitive (.unsignedInteger width) =>
    some (Constant.newUnsigned value width)
  | .signedInteger value _, .primitive (.unsignedInteger width) => do
    some (Constant.newUnsigned (← tryU64 value) width)
  | .signedInteger value _, .primitive (.signedInteger width) => Constant.newSigned checks value width
  | .unsignedInteger value _, .primitive (.signedInteger width) => do
    Constant.newSigned checks (← tryI64 value) width
  | _, _ => none

/-- `u32::try_from(..).unwrap()` of a constant width. -/
def constantWidth : Constant → Option Nat
  | .signedInteger value _ => do tryU32 (← tryU64 value)
  | .unsignedInteger value _ => tryU32 value
  | _ => none

/-- `stmt.get_mut(arena).replace(Statement::Constant(c)); true`. -/
def replaceBy (b : Block) (stmt : Ref) (c : Constant) : Block × Bool :=
  (b.set stmt (.constant c), true)

/-- `run_on_stmt`; the Boolean says whether the statement was replaced. -/
def runOnStmt (b : Block) (stmt : Ref) : Option (Block × Bool) :=
  match b.arena stmt with
  | .unaryOperation kind value =>
    match b.constantAt value with
    | some c => if kind = .not then c.not.map (replaceBy b stmt) else some (b, false)
    | none => some (b, false)
  | .binaryOperation kind lhs rhs =>
    match b.constantAt lhs, b.constantAt rhs with
    | some l, some r => (foldBinary fl checks l r kind).map (replaceBy b stmt)
    | none, some (.unsignedInteger value _) =>
      if kind = .and then do
        let width ← (← b.typ lhs).widthBits
        if value = mask width ∨ value = 2 ^ 64 - 1 then some (b.set stmt (b.arena lhs), true)
        else some (b, false)
      else some (b, false)
    | _, _ => some (b, false)
  | .createBits value width =>
    match b.constantAt value, b.constantAt width with
    | some v, some w => do
      let targetWidth ← constantWidth w
      match v with
      | .unsignedInteger v _ =>
        some (replaceBy b stmt (.unsignedInteger (v &&& mask targetWidth) targetWidth))
      | _ => none
    | _, _ => some (b, false)
  | .sizeOf value =>
    match b.typ value with
    | some .bits => some (b, false)
    | some typ => typ.widthBits.map fun width => replaceBy b stmt (.unsignedInteger width 16)
    | none => none
  | .cast kind typ value =>
    match b.constantAt value with
    | none => some (b, false)
    | some c =>
      match kind with
      | .zeroExtend | .signExtend =>
        match typ with
        | .primitive _ => (castInteger fl checks c typ).map (replaceBy b stmt)
        | _ => some (b, false)
      | .truncate => (truncate checks c typ).map (replaceBy b stmt)
      | .reinterpret => (castInteger fl checks c typ).map (replaceBy b stmt)
      | .convert | .broadcast => some (b, false)
  | _ => some (b, false)

def runOnStatements : List Ref → Block → Option (Block × Bool) := Block.forStatements (runOnStmt fl checks)

/-- `run_on_block`. -/
def runOnBlock (b : Block) : Option (Block × Bool) := runOnStatements fl checks b.statements b

def runOnBlocks : List BlockRef → Function → Option (Function × Bool) := Function.forBlocks (runOnBlock fl checks)

/-- `run`: the blocks are collected first. -/
def run (f : Function) : Option (Function × Bool) := runOnBlocks fl checks f.blockIter f

end ConstantFolding

/-! ### Where folding is exact -/

/-- A constant of an integer type of at most 64 bits: its value is one of that type. -/
def Constant.IsInteger : Constant → Prop
  | .unsignedInteger value width => width ≤ 64 ∧ value < 2 ^ width
  | .signedInteger value width =>
    1 ≤ width ∧ width ≤ 64 ∧ -2 ^ (width - 1) ≤ value ∧ value < 2 ^ (width - 1)
  | _ => False

/-- The width can be made a signed constant of: a shift by `64 - width` overflows otherwise. -/
def WidthOk (checks : Bool) (width : Nat) : Prop := checks = true → 1 ≤ width ∧ width ≤ 64

/-- The value fits a signed integer of that width.  Above 64 bits, in a build that wraps, the shift
amounts count modulo 64. -/
def FitsSigned (checks : Bool) (width : Nat) (value : Int) : Prop :=
  WidthOk checks width ∧
    if width = 0 then value = 0
    else -2 ^ ((width - 1) % 64) ≤ value ∧ value < 2 ^ ((width - 1) % 64)

/-- The low bits of the value mean the same as a signed and as an unsigned number. -/
def SignClear (checks : Bool) (width : Nat) (value : Int) : Prop :=
  WidthOk checks width ∧ (width ≠ 0 → if width < 64 then value % 2 ^ width < 2 ^ (width - 1)
      else -2 ^ ((width - 1) % 64) ≤ value ∧ value < 2 ^ ((width - 1) % 64))

/-- The right operand is not wider, and the result `x`, computed in 64 bits without a panic, fits the
width of the left one. -/
def ExactSigned (checks : Bool) (width width' : Nat) (x : Int) : Prop :=
  width' ≤ width ∧ (checks = true → -2 ^ 63 ≤ x ∧ x < 2 ^ 63) ∧ FitsSigned checks width (x.bmod (2 ^ 64))

def ExactUnsigned (checks : Bool) (width width' : Nat) (x : Int) : Prop :=
  width' ≤ width ∧ (checks = true → 0 ≤ x ∧ x < 2 ^ 64) ∧ x % 2 ^ 64 < 2 ^ width

/-- `Not` is the logical negation for the interpreter and the bitwise one for folding. -/
def ExactUnary : UnaryOperationKind → Constant → Prop
  | .not, .unsignedInteger _ width => width = 1
  | _, _ => True

/-- Folding has no bitwise `And` and `Or` and no difference of a signed and an unsigned constant, and
takes every order between a signed and an unsigned constant to be false. -/
def ExactBinary (checks : Bool) : BinaryOperationKind → Constant → Constant → Prop
  | .add, .signedInteger l w, .signedInteger r w' => ExactSigned checks w w' (l + r)
  | .add, .unsignedInteger l w, .signedInteger r w' => ExactSigned checks w w' (l + r)
  | .add, .signedInteger l w, .unsignedInteger r w' => ExactSigned checks w w' (l + r)
  | .sub, .signedInteger l w, .signedInteger r w' => ExactSigned checks w w' (l - r)
  | .sub, .unsignedInteger l w, .unsignedInteger r w' =>
    ExactUnsigned checks w w' ((l : Int) - r)
  | .sub, .signedInteger _ _, .unsignedInteger _ _ => False
  | .multiply, .signedInteger l w, .signedInteger r w' => ExactSigned checks w w' (l * r)
  | .multiply, .signedInteger l w, .unsignedInteger r w' => ExactSigned checks w w' (l * r)
  | .multiply, .unsignedInteger l w, .unsignedInteger r w' => ExactUnsigned checks w w' (l * r)
  | .divide, .signedInteger l w, .signedInteger r w' => ExactSigned checks w w' (l.tdiv r)
  | .and, _, _ => False
  | .or, _, _ => False
  | .compareLessThan, .signedInteger l _, .unsignedInteger r _ => r ≤ l
  | .compareLessThanOrEqual, .signedInteger l _, .unsignedInteger r _ => r < l
  | .compareGreaterThan, .signedInteger l _, .unsignedInteger r _ => l ≤ r
  | .compareGreaterThanOrEqual, .signedInteger l _, .unsignedInteger r _ => l < r
  | _, _, _ => True

/-- The interpreter zero-extends without masking and never gives a negative result in fewer than 64
bits; folding masks and sign-extends, and panics on a negative value cast to unsigned. -/
def ExactCast (checks : Bool) : CastOperationKind → Typ → Constant → Prop
  | .zeroExtend, .primitive (.unsignedInteger width), .unsignedInteger value _ => value ≤ mask width
  | .zeroExtend, .primitive (.unsignedInteger width), .signedInteger value _ => value ≤ mask width
  | .zeroExtend, .primitive (.signedInteger width), .unsignedInteger value _ =>
    FitsSigned checks width value
  | .signExtend, .primitive (.signedInteger width), .signedInteger value _ =>
    SignClear checks width value
  | .truncate, .primitive (.signedInteger width), .signedInteger value _ =>
    SignClear checks width value
  | .reinterpret, .primitive (.signedInteger width), .unsignedInteger value _ =>
    SignClear checks width value
  | .reinterpret, .primitive (.signedInteger width), .signedInteger value _ =>
    SignClear checks width value
  | .reinterpret, .primitive (.unsignedInteger _), .signedInteger value _ => 0 ≤ value
  | _, _, _ => True

namespace Block

/-- The statement is a unary or binary operation or a cast over integer constants. -/
def OverIntegers (b : Block) : Statement Ref → Prop
  | .unaryOperation _ value => ∃ c, b.arena value = .constant c ∧ c.IsInteger
  | .binaryOperation _ lhs rhs =>
    (∃ c, b.arena lhs = .constant c ∧ c.IsInteger) ∧ ∃ c, b.arena rhs = .constant c ∧ c.IsInteger
  | .cast _ typ value =>
    (∀ p, typ = .primitive p → p.width < 2 ^ 32) ∧ ∃ c, b.arena value = .constant c ∧ c.IsInteger
  | _ => False

/-- Folding and interpreting the statement agree. -/
def FoldExact (b : Block) (checks : Bool) : Statement Ref → Prop
  | .unaryOperation kind value => ∀ c, b.arena value = .constant c → ExactUnary kind c
  | .binaryOperation kind lhs rhs =>
    ∀ l r, b.arena lhs = .constant l → b.arena rhs = .constant r → ExactBinary checks kind l r
  | .cast kind typ value => ∀ c, b.arena value = .constant c → ExactCast checks kind typ c
  | _ => True

/-- The values of operands that are constants. -/
def constantValues (b : Block) (r : Ref) : Option Value := (b.constantAt r).map .fromConstant

end Block

/-- A fold that does not panic and leaves the statement alone or puts the constant of that value in
its place. -/
def FoldsTo (b : Block) (stmt : Ref) (v : Value) (result : Option (Block × Bool)) : Prop :=
  result = some (b, false) ∨ ∃ c, result = some (b.set stmt (.constant c), true) ∧ Value.fromConstant c = v

/-! ### Machine integers as residues -/

theorem asI64_asU64 (x : Int) : asI64 (asU64 x) = x.bmod (2 ^ 64) := by
  obtain ⟨h0, h1⟩ := emod_two_pow_bounds x 64
  rw [bmod_two_pow x 63]
  unfold asI64 asU64
  generalize x % 2 ^ (63 + 1) = r at *
  split <;> split <;> omega

theorem asU64_natCast {v : Nat} (hv : v < 2 ^ 64) : asU64 v = v := by
  unfold asU64
  omega

theorem asI64_eq_bmod (v : Nat) (hv : v < 2 ^ 64) : asI64 v = (v : Int).bmod (2 ^ 64) := by
  rw [← asI64_asU64, asU64_natCast hv]

variable {c : Constant} {b : Block}

theorem constantAt_eq_some {r : Ref} (h : b.constantAt r = some c) : b.arena r = .constant c := by
  unfold Block.constantAt at h
  split at h
  · rename_i heq
    cases h
    exact heq
  · cases h

theorem asU64_and_mask (x : Int) (w : Nat) : ((asU64 x &&& mask w : Nat) : Int) = x % 2 ^ min w 64 := by
  have hdvd : (2 : Int) ^ min w 64 ∣ 2 ^ 64 := pow_dvd_pow 2 (Nat.min_le_right w 64)
  obtain ⟨h0, -⟩ := emod_two_pow_bounds x 64
  rw [and_mask, asU64, Int.natCast_emod, Int.toNat_of_nonneg h0, Int.natCast_pow]
  exact Int.emod_emod_of_dvd x hdvd

/-- The value `new_signed` gives: the bits up to the width, and from 64 on the width modulo 64. -/
def signedOf (width : Nat) (value : Int) : Int :=
  if width = 0 then 0 else value.bmod (2 ^ ((width - 1) % 64 + 1))

variable {width : Nat} {checks : Bool}

theorem signShift_of_not_ok (h : ¬ WidthOk checks width) : signShift checks width = none := by
  unfold WidthOk at h
  cases checks with
  | false => simp at h
  | true =>
    unfold signShift shiftResult
    by_cases hw : width ≤ 64
    · have h0 : width = 0 := by
        omega
      subst h0
      rfl
    · simp [hw]

theorem signShift_of_ok (h : WidthOk checks width) (hlt : width < 2 ^ 32) :
    signShift checks width = some (if width = 0 then 0 else 63 - (width - 1) % 64) := by
  unfold WidthOk at h
  unfold signShift shiftResult
  by_cases h0 : width = 0
  · subst h0
    cases checks with
    | false => rfl
    | true => simp at h
  · rw [if_neg h0]
    by_cases hw : width ≤ 64
    · have hmod : (width - 1) % 64 = width - 1 := Nat.mod_eq_of_lt (by omega)
      have hamount : 64 - width < 64 := by omega
      simp only [hw, if_true, hmod, bind_eq_bind, bind_some, hamount]
      congr 1
      omega
    · have hc : checks = false := by
        cases checks with
        | false => rfl
        | true => exact absurd (h rfl).2 hw
      subst hc
      have hamount : (2 ^ 32 + 64 - width) % 2 ^ 32 = 2 ^ 32 + 64 - width :=
        Nat.mod_eq_of_lt (by omega)
      simp only [hw, if_false, Bool.false_eq_true, hamount, bind_eq_bind, bind_some]
      split <;> · congr 1; omega

/-- **What `new_signed` computes.** -/
theorem newSigned_eq (checks : Bool) (value : Int) (hlt : width < 2 ^ 32) : WidthOk checks width ∧
        Constant.newSigned checks value width = some (.signedInteger (signedOf width value) width) ∨
      ¬ WidthOk checks width ∧ Constant.newSigned checks value width = none := by
  by_cases h : WidthOk checks width
  · refine .inl ⟨h, ?_⟩
    unfold Constant.newSigned
    rw [signShift_of_ok h hlt, bind_eq_bind, bind_some, asI64_asU64]
    congr 2
    by_cases h0 : width = 0
    · subst h0
      simp [signedOf, mask, asI64]
    · rw [if_neg h0, signedOf, if_neg h0]
      generalize hn : (width - 1) % 64 = n
      have hle : n + 1 ≤ min width 64 := by omega
      have h64 : (64 : Nat) = n + 1 + (63 - n) := by omega
      conv_lhs => rw [h64]
      rw [show 63 - n = n + 1 + (63 - n) - (n + 1) by omega, Nat.add_sub_cancel_left,
        bmod_mul_two_pow_ediv, asI64_eq_bmod _ (and_mask_lt _ _), asU64_and_mask,
        Int.bmod_bmod_of_dvd (pow_dvd_pow 2 (by omega))]
      rw [← Int.emod_bmod (value % 2 ^ min width 64), ← Int.emod_bmod value]
      congr 1
      push_cast
      exact Int.emod_emod_of_dvd _ (pow_dvd_pow 2 hle)
  · refine .inr ⟨h, ?_⟩
    unfold Constant.newSigned
    rw [signShift_of_not_ok h]
    rfl

theorem i64Result_eq (checks : Bool) (x : Int) :
    (checks = true → -2 ^ 63 ≤ x ∧ x < 2 ^ 63) ∧ i64Result checks x = some (x.bmod (2 ^ 64)) ∨
      ¬ (checks = true → -2 ^ 63 ≤ x ∧ x < 2 ^ 63) ∧ i64Result checks x = none := by
  unfold i64Result
  by_cases h : -2 ^ 63 ≤ x ∧ x < 2 ^ 63
  · exact .inl ⟨fun _ => h, by rw [if_pos h, (bmod_two_pow_eq_self_iff x 63).mpr h]⟩
  · rw [if_neg h]
    cases checks with
    | false => exact .inl ⟨by simp, by rw [if_neg (by simp), asI64_asU64]⟩
    | true => exact .inr ⟨fun h' => h (h' rfl), rfl⟩

theorem u64Result_eq (checks : Bool) (x : Int) :
    (checks = true → 0 ≤ x ∧ x < 2 ^ 64) ∧ u64Result checks x = some (asU64 x) ∨
      ¬ (checks = true → 0 ≤ x ∧ x < 2 ^ 64) ∧ u64Result checks x = none := by
  unfold u64Result
  by_cases h : 0 ≤ x ∧ x < 2 ^ 64
  · refine .inl ⟨fun _ => h, ?_⟩
    rw [if_pos h, asU64, Int.emod_eq_of_lt h.1 h.2]
  · rw [if_neg h]
    cases checks with
    | false => exact .inl ⟨by simp, rfl⟩
    | true => exact .inr ⟨fun h' => h (h' rfl), rfl⟩

theorem signedOf_eq_self_iff (width : Nat) (value : Int) : signedOf width value = value ↔
      if width = 0 then value = 0
      else -2 ^ ((width - 1) % 64) ≤ value ∧ value < 2 ^ ((width - 1) % 64) := by
  unfold signedOf
  split
  · exact eq_comm
  · exact bmod_two_pow_eq_self_iff value _

variable {value : Int}

/-- The low bits read as an unsigned number, as the interpreter does, and as a signed one. -/
theorem lowBits_eq_signedOf_iff (hvalue : 64 ≤ width → -2 ^ 63 ≤ value ∧ value < 2 ^ 63) :
    asI64 (asU64 value &&& mask width) = signedOf width value ↔
      (width ≠ 0 → if width < 64 then value % 2 ^ width < 2 ^ (width - 1)
        else -2 ^ ((width - 1) % 64) ≤ value ∧ value < 2 ^ ((width - 1) % 64)) := by
  have hlow := asU64_and_mask value width
  by_cases h0 : width = 0
  · subst h0
    simp [signedOf, mask, asI64]
  · rw [signedOf, if_neg h0]
    by_cases hw : width < 64
    · have hsmall : asI64 (asU64 value &&& mask width) = value % 2 ^ width := by
        have hlt : value % 2 ^ width < 2 ^ 63 := lt_of_lt_of_le (emod_two_pow_bounds value width).2
          (pow_le_pow_right₀ (by decide) (by omega))
        rw [Nat.min_eq_left (by omega)] at hlow
        rw [asI64, if_pos (by omega), hlow]
      have hmod : (width - 1) % 64 + 1 = width - 1 + 1 := by omega
      have hpred : value % 2 ^ width = value % 2 ^ (width - 1 + 1) := by
        rw [Nat.sub_add_cancel (by omega)]
      rw [hsmall, hmod, hpred, emod_eq_bmod_two_pow_iff]
      simp [h0, hw]
    · have hbig : asI64 (asU64 value &&& mask width) = value := by
        have hself : asU64 value &&& mask width = asU64 value := by
          rw [and_mask, Nat.min_eq_right (by omega)]
          exact Nat.mod_eq_of_lt (by unfold asU64; omega)
        rw [hself, asI64_asU64]
        exact (bmod_two_pow_eq_self_iff value 63).mpr (hvalue (by omega))
      rw [hbig, eq_comm, bmod_two_pow_eq_self_iff]
      simp [h0, hw]

theorem signedOf_asI64 (width : Nat) {value : Nat} (hvalue : value < 2 ^ 64) :
    signedOf width (asI64 value) = signedOf width value := by
  unfold signedOf
  split
  · rfl
  · rw [asI64_eq_bmod value hvalue]
    exact Int.bmod_bmod_of_dvd (pow_dvd_pow 2 (by omega))

variable {y : Int}

theorem tryI64_eq_some {x : Nat} (h : tryI64 x = some y) : x < 2 ^ 63 ∧ y = x := by
  unfold tryI64 at h
  split at h
  · exact ⟨by assumption, (some.inj h).symm⟩
  · cases h

variable {x : Int}

theorem tryU64_eq_some {y : Nat} (h : tryU64 x = some y) : 0 ≤ x ∧ x = y := by
  unfold tryU64 at h
  split at h
  · have := some.inj h
    omega
  · cases h

/-! ### Agreement, operator by operator

`FoldsLike c v`: folding gives a constant of that value. -/

/-- The constant exists, which means that folding does not panic, and has the value. -/
def FoldsLike (c : Option Constant) (v : Value) : Prop := ∃ d, c = some d ∧ Value.fromConstant d = v

theorem foldsTo_map_iff (b : Block) (stmt : Ref) (v : Value) (c : Option Constant) :
    FoldsTo b stmt v (c.map (ConstantFolding.replaceBy b stmt)) ↔ FoldsLike c v := by
  cases c with
  | none =>
    refine ⟨?_, fun ⟨d, hd, _⟩ => by cases hd⟩
    rintro (h | ⟨d, hd, _⟩)
    · cases h
    · cases hd
  | some c =>
    constructor
    · rintro (h | ⟨d, hd, hv⟩)
      · have hflag : true = false := congrArg Prod.snd (some.inj h)
        cases hflag
      · have harena : (b.set stmt (.constant c)).arena stmt = (b.set stmt (.constant d)).arena stmt :=
          congrArg (fun x : Block × Bool => x.1.arena stmt) (some.inj hd)
        rw [Block.set_arena_self, Block.set_arena_self] at harena
        exact ⟨c, rfl, by rw [Statement.constant.inj harena]; exact hv⟩
    · rintro ⟨d, hd, hv⟩
      exact .inr ⟨d, by rw [hd]; rfl, hv⟩

variable {v : Value}

theorem foldsLike_some : FoldsLike (some c) v ↔ Value.fromConstant c = v :=
  ⟨fun ⟨_, hd, hv⟩ => by rw [some.inj hd]; exact hv, fun h => ⟨c, rfl, h⟩⟩

theorem not_foldsLike_none : ¬ FoldsLike none v := by
  rintro ⟨d, hd, -⟩
  cases hd

/-- `new_signed` gives the value if the value is what the bits stand for. -/
theorem foldsLike_newSigned {width' : Nat} (hlt : width < 2 ^ 32) :
    FoldsLike (Constant.newSigned checks value width) (.signedInteger y width') ↔
      WidthOk checks width ∧ signedOf width value = y ∧ width = width' := by
  rcases newSigned_eq checks value hlt with ⟨hok, h⟩ | ⟨hok, h⟩
  · rw [h, foldsLike_some, Value.fromConstant, Value.signedInteger.injEq]
    exact ⟨fun h => ⟨hok, h⟩, fun h => h.2⟩
  · rw [h]
    exact iff_of_false not_foldsLike_none fun h => hok h.1

theorem max_eq_left_iff' {w w' : Nat} : w = max w w' ↔ w' ≤ w := by omega

/-- Signed arithmetic: the interpreter has the 64-bit result `x` in the larger width. -/
theorem foldsLike_signed {ec : Bool} (fc : Bool) {w : Nat} (w' : Nat) (hlt : w < 2 ^ 32)
    (h : ((i64Result ec x).bind fun y => some (.signedInteger y (max w w'))) = some v) :
    FoldsLike ((i64Result fc x).bind fun z => Constant.newSigned fc z w) v ↔ ExactSigned fc w w' x := by
  obtain ⟨y, hy, rfl⟩ : ∃ y, y = x.bmod (2 ^ 64) ∧ v = .signedInteger y (max w w') := by
    rcases i64Result_eq ec x with ⟨-, h'⟩ | ⟨-, h'⟩ <;> rw [h'] at h <;> cases h
    exact ⟨_, rfl, rfl⟩
  rcases i64Result_eq fc x with ⟨hin, h'⟩ | ⟨hin, h'⟩
  · rw [h', bind_some, foldsLike_newSigned hlt, hy, signedOf_eq_self_iff, max_eq_left_iff']
    exact ⟨fun ⟨h1, h2, h3⟩ => ⟨h3, hin, h1, h2⟩, fun ⟨h1, _, h3, h4⟩ => ⟨h3, h4, h1⟩⟩
  · rw [h']
    exact iff_of_false not_foldsLike_none fun h => hin h.2.1

theorem foldsLike_unsigned {ec fc : Bool} {w w' : Nat} (hw : w ≤ 64)
    (h : ((u64Result ec x).bind fun y => some (.unsignedInteger y (max w w'))) = some v) :
    FoldsLike ((u64Result fc x).bind fun z => some (Constant.newUnsigned z w)) v ↔ ExactUnsigned fc w w' x := by
  obtain ⟨y, hy, rfl⟩ : ∃ y, y = asU64 x ∧ v = .unsignedInteger y (max w w') := by
    rcases u64Result_eq ec x with ⟨-, h'⟩ | ⟨-, h'⟩ <;> rw [h'] at h <;> cases h
    exact ⟨_, rfl, rfl⟩
  have hfits : asU64 x &&& mask w = asU64 x ↔ x % 2 ^ 64 < 2 ^ w := by
    obtain ⟨h0, -⟩ := emod_two_pow_bounds x 64
    have hcast : ((2 ^ w : Nat) : Int) = 2 ^ w := by push_cast; rfl
    rw [and_mask, Nat.min_eq_left hw, Nat.mod_eq_iff_lt (by positivity), asU64]
    omega
  rcases u64Result_eq fc x with ⟨hin, h'⟩ | ⟨hin, h'⟩
  · rw [h', bind_some, foldsLike_some, Constant.newUnsigned, Value.fromConstant,
      Value.unsignedInteger.injEq, hy, hfits, max_eq_left_iff']
    exact ⟨fun ⟨h1, h2⟩ => ⟨h2, hin, h1⟩, fun ⟨h1, _, h3⟩ => ⟨h3, h1⟩⟩
  · rw [h']
    exact iff_of_false not_foldsLike_none fun h => hin h.2.1

theorem foldsLike_newUnsigned {value y width' : Nat} :
    FoldsLike (some (Constant.newUnsigned value width)) (.unsignedInteger y width') ↔
      value &&& mask width = y ∧ width = width' := by
  rw [foldsLike_some, Constant.newUnsigned, Value.fromConstant, Value.unsignedInteger.injEq]

theorem fromConstant_ofBool (b : Bool) : Value.fromConstant (.ofBool b) = Value.ofBool b := by
  cases b <;> rfl

theorem foldsLike_ofBool {p q : Bool} : FoldsLike (some (Constant.ofBool p)) (Value.ofBool q) ↔ p = q := by
  rw [foldsLike_some, fromConstant_ofBool]
  cases p <;> cases q <;> simp [Value.ofBool]

variable {o : Ordering}

/-- The order of a signed and an unsigned number, where folding says no. -/
theorem partialCmp_mixed {l : Int} {r w w' : Nat}
    (h : Value.partialCmp (.signedInteger l w) (.unsignedInteger r w') = some o) : o = compare l r := by
  obtain ⟨r', hr', ho⟩ := bind_eq_some_iff.mp h
  rw [(tryI64_eq_some hr').2] at ho
  exact (some.inj ho).symm

variable {μ : Type} {env : Environment μ} {fl : FloatOps} {checks : Bool} {v : Value}

/-- A quotient of 64-bit numbers is one, but for the one that overflows. -/
theorem tdiv_range {l r : Int} (hl : -2 ^ 63 ≤ l ∧ l < 2 ^ 63)
    (hdef : ¬ (r = 0 ∨ l = -2 ^ 63 ∧ r = -1)) : -2 ^ 63 ≤ l.tdiv r ∧ l.tdiv r < 2 ^ 63 := by
  have habs : (l.tdiv r).natAbs = l.natAbs / r.natAbs := Int.natAbs_tdiv l r
  by_cases hr : r = 1 ∨ r = -1
  · rcases hr with rfl | rfl
    · rw [Int.tdiv_one]
      exact hl
    · rw [Int.tdiv_neg, Int.tdiv_one]
      omega
  · have hhalf : l.natAbs / r.natAbs ≤ l.natAbs / 2 := Nat.div_le_div_left (by omega) (by decide)
    omega

theorem Constant.IsInteger.i64 (h : (Constant.signedInteger value width).IsInteger) :
    -2 ^ 63 ≤ value ∧ value < 2 ^ 63 := by
  obtain ⟨h1, h2, h3, h4⟩ := h
  have hpow : (2 : Int) ^ (width - 1) ≤ 2 ^ 63 := pow_le_pow_right₀ (by decide) (by omega)
  omega

theorem Constant.IsInteger.width_lt (h : (Constant.signedInteger value width).IsInteger) : width < 2 ^ 32 :=
  Nat.lt_of_le_of_lt h.2.1 (by decide)

theorem Constant.IsInteger.cases (h : c.IsInteger) :
    (∃ value width, c = .unsignedInteger value width) ∨ ∃ value width, c = .signedInteger value width := by
  cases c with
  | unsignedInteger value width => exact .inl ⟨value, width, rfl⟩
  | signedInteger value width => exact .inr ⟨value, width, rfl⟩
  | _ => exact absurd h id

variable {l r : Constant}

section

variable (hl : l.IsInteger) (hr : r.IsInteger)

include hl hr

theorem add_agrees_iff
    (h : Value.add env (.fromConstant l) (.fromConstant r) = some v) :
    FoldsLike (l.add fl checks r) v ↔ ExactBinary checks .add l r := by
  rcases hl.cases with ⟨l, w, rfl⟩ | ⟨l, w, rfl⟩ <;> rcases hr.cases with ⟨r, w', rfl⟩ | ⟨r, w', rfl⟩
  · cases h
  · obtain ⟨l', hl', h⟩ := bind_eq_some_iff.mp h
    rw [Constant.add, hl']
    rw [(tryI64_eq_some hl').2] at h ⊢
    exact foldsLike_signed checks w' (Nat.lt_of_le_of_lt hl.1 (by decide)) h
  · obtain ⟨r', hr', h⟩ := bind_eq_some_iff.mp h
    rw [Constant.add, hr']
    rw [(tryI64_eq_some hr').2] at h ⊢
    exact foldsLike_signed checks w' hl.width_lt h
  · exact foldsLike_signed checks w' hl.width_lt h

theorem sub_agrees_iff
    (h : Value.sub env (.fromConstant l) (.fromConstant r) = some v) :
    FoldsLike (l.sub fl checks r) v ↔ ExactBinary checks .sub l r := by
  rcases hl.cases with ⟨l, w, rfl⟩ | ⟨l, w, rfl⟩ <;> rcases hr.cases with ⟨r, w', rfl⟩ | ⟨r, w', rfl⟩
  · exact foldsLike_unsigned hl.1 h
  · cases h
  · exact iff_of_false not_foldsLike_none id
  · exact foldsLike_signed checks w' hl.width_lt h

theorem mul_agrees_iff
    (h : Value.mul env (.fromConstant l) (.fromConstant r) = some v) :
    FoldsLike (l.mul fl checks r) v ↔ ExactBinary checks .multiply l r := by
  rcases hl.cases with ⟨l, w, rfl⟩ | ⟨l, w, rfl⟩ <;> rcases hr.cases with ⟨r, w', rfl⟩ | ⟨r, w', rfl⟩
  · rw [Value.fromConstant, Value.fromConstant, Value.mul] at h
    rw [Constant.mul, ExactBinary]
    exact foldsLike_unsigned hl.1 h
  · cases h
  · obtain ⟨r', hr', h⟩ := bind_eq_some_iff.mp h
    rw [Constant.mul, hr']
    rw [(tryI64_eq_some hr').2] at h ⊢
    exact foldsLike_signed checks w' hl.width_lt h
  · exact foldsLike_signed checks w' hl.width_lt h

theorem div_agrees_iff
    (h : Value.div (.fromConstant l) (.fromConstant r) = some v) :
    FoldsLike (l.div fl checks r) v ↔ ExactBinary checks .divide l r := by
  rcases hl.cases with ⟨l, w, rfl⟩ | ⟨l, w, rfl⟩ <;> rcases hr.cases with ⟨r, w', rfl⟩ | ⟨r, w', rfl⟩
  · cases h
  · cases h
  · cases h
  · simp only [Value.fromConstant, Value.div] at h
    rw [Constant.div]
    split at h
    · cases h
    · rename_i hdef
      cases h
      -- a quotient of 64-bit numbers is one, but for the overflowing one
      have hrange := tdiv_range hl.i64 hdef
      have hy : i64Result checks (l.tdiv r) = some (l.tdiv r) := if_pos hrange
      have := foldsLike_signed checks w' hl.width_lt (by rw [hy]; rfl)
      rw [hy] at this
      rw [if_neg hdef]
      exact this

theorem eq_fromConstant :
    (Value.fromConstant l).eq (.fromConstant r) = l.eq r := by
  rcases hl.cases with ⟨l, w, rfl⟩ | ⟨l, w, rfl⟩ <;> rcases hr.cases with ⟨r, w', rfl⟩ | ⟨r, w', rfl⟩ <;> rfl

end

/-- Where the interpreter compares two constants, folding does so too, or they are a signed and an
unsigned one. -/
theorem partialCmp_fromConstant (fl : FloatOps) (hl : l.IsInteger) (hr : r.IsInteger)
    (h : Value.partialCmp (.fromConstant l) (.fromConstant r) = some o) :
    l.partialCmp fl r = some o ∨
      ∃ x w y w', l = .signedInteger x w ∧ r = .unsignedInteger y w' ∧ o = compare x (y : Int) := by
  rcases hl.cases with ⟨x, w, rfl⟩ | ⟨x, w, rfl⟩ <;> rcases hr.cases with ⟨y, w', rfl⟩ | ⟨y, w', rfl⟩
  · exact .inl h
  · cases h
  · exact .inr ⟨x, w, y, w', rfl, rfl, partialCmp_mixed h⟩
  · exact .inl h

/-- The order comparisons: `test` is what the interpreter asks of an order, and `mixed` what remains of
that for a signed and an unsigned constant, which folding takes to be unordered. -/
theorem order_agrees_iff (fl : FloatOps) (hl : l.IsInteger) (hr : r.IsInteger) (test : Ordering → Bool)
    (fold : Option Ordering → Bool) {exact : Prop} (hfold : ∀ o, fold (some o) = test o)
    (hnone : fold none = false) (hsame : ∀ o, l.partialCmp fl r = some o → exact)
    (hmixed : ∀ x w y w', l = .signedInteger x w → r = .unsignedInteger y w' →
      (exact ↔ test (compare x (y : Int)) = false))
    (h : ((Value.partialCmp (.fromConstant l) (.fromConstant r)).bind fun o =>
      some (Value.ofBool (test o))) = some v) :
    FoldsLike (some (.ofBool (fold (l.partialCmp fl r)))) v ↔ exact := by
  obtain ⟨o, ho, hv⟩ := bind_eq_some_iff.mp h
  cases hv
  rw [foldsLike_ofBool]
  rcases partialCmp_fromConstant fl hl hr ho with hcmp | ⟨x, w, y, w', rfl, rfl, rfl⟩
  · rw [hcmp, hfold]
    exact iff_of_true rfl (hsame o hcmp)
  · have hcmp : Constant.partialCmp fl (.signedInteger x w) (.unsignedInteger y w') = none := rfl
    rw [hmixed x w y w' rfl rfl, hcmp, hnone]
    exact eq_comm

theorem not_mixed (h : l.partialCmp fl r = some o) :
    ∀ kind : BinaryOperationKind, kind.isComparison = true → ExactBinary checks kind l r := by
  intro kind hkind
  cases kind <;> simp only [BinaryOperationKind.isComparison, Bool.false_eq_true] at hkind
  all_goals cases l <;> cases r <;> trivial

/-- **Binary operations.** -/
theorem foldBinary_agrees_iff {kind : BinaryOperationKind} (hl : l.IsInteger) (hr : r.IsInteger)
    (h : Value.binary env kind (.fromConstant l) (.fromConstant r) = some v) :
    FoldsLike (ConstantFolding.foldBinary fl checks l r kind) v ↔ ExactBinary checks kind l r := by
  have hsame : ∀ o, l.partialCmp fl r = some o → ∀ kind : BinaryOperationKind,
      kind.isComparison = true → ExactBinary checks kind l r := fun o => not_mixed
  cases kind with
  | add => exact add_agrees_iff hl hr h
  | sub => exact sub_agrees_iff hl hr h
  | multiply => exact mul_agrees_iff hl hr h
  | divide => exact div_agrees_iff hl hr h
  | modulo | xor | powI => cases h
  | and | or => exact iff_of_false not_foldsLike_none id
  | compareEqual | compareNotEqual =>
    cases h
    rw [ConstantFolding.foldBinary, foldsLike_ofBool, eq_fromConstant hl hr]
    exact iff_of_true rfl trivial
  | compareLessThan =>
    refine order_agrees_iff fl hl hr (fun o => o = .lt) (fun o => o = some .lt)
      (fun o => by cases o <;> rfl) rfl (fun o ho => hsame o ho _ rfl) ?_ h
    rintro x w y w' rfl rfl
    simp [ExactBinary, compare_lt_iff_lt]
  | compareLessThanOrEqual =>
    refine order_agrees_iff fl hl hr (fun o => o ≠ .gt) (fun o => o = some .lt ∨ o = some .eq)
      (fun o => by cases o <;> rfl) rfl (fun o ho => hsame o ho _ rfl) ?_ h
    rintro x w y w' rfl rfl
    simp [ExactBinary, compare_gt_iff_gt]
  | compareGreaterThan =>
    refine order_agrees_iff fl hl hr (fun o => o = .gt) (fun o => o = some .gt)
      (fun o => by cases o <;> rfl) rfl (fun o ho => hsame o ho _ rfl) ?_ h
    rintro x w y w' rfl rfl
    simp [ExactBinary, compare_gt_iff_gt]
  | compareGreaterThanOrEqual =>
    refine order_agrees_iff fl hl hr (fun o => o ≠ .lt) (fun o => o = some .gt ∨ o = some .eq)
      (fun o => by cases o <;> rfl) rfl (fun o ho => hsame o ho _ rfl) ?_ h
    rintro x w y w' rfl rfl
    simp [ExactBinary, compare_lt_iff_lt]

/-- **The negation** of a constant. -/
theorem not_agrees_iff (hc : c.IsInteger) (h : Value.unary env .not (.fromConstant c) = some v) :
    FoldsLike c.not v ↔ ExactUnary .not c := by
  cases c with
  | unsignedInteger value width =>
    cases h
    rw [Constant.not, Value.ofBool, foldsLike_newUnsigned, ExactUnary]
    refine ⟨fun h => h.2, ?_⟩
    rintro rfl
    refine ⟨?_, rfl⟩
    have hvalue : value = 0 ∨ value = 1 := by
      have := hc.2
      omega
    rcases hvalue with rfl | rfl <;> decide
  | signedInteger value width => cases h
  | _ => exact absurd hc id

theorem Constant.IsInteger.u64 {value : Nat} (h : (Constant.unsignedInteger value width).IsInteger) :
    value < 2 ^ 64 :=
  lt_of_lt_of_le h.2 (Nat.pow_le_pow_right (by decide) h.1)

/-- Where the interpreter keeps the low bits of a value as they are. -/
theorem foldsLike_lowBits (checks : Bool) (hlt : width < 2 ^ 32)
    (hvalue : 64 ≤ width → -2 ^ 63 ≤ value ∧ value < 2 ^ 63) :
    FoldsLike (Constant.newSigned checks value width)
      (.signedInteger (asI64 (asU64 value &&& mask width)) width) ↔ SignClear checks width value := by
  rw [foldsLike_newSigned hlt, SignClear, ← lowBits_eq_signedOf_iff hvalue]
  exact ⟨fun ⟨h1, h2, _⟩ => ⟨h1, h2.symm⟩, fun ⟨h1, h2⟩ => ⟨h1, h2.symm, rfl⟩⟩

theorem signExtend_eq {w : Nat} (hc : (Constant.signedInteger value w).IsInteger)
    (h : env.signExtend value w width = some y) : y = asI64 (asU64 value &&& mask width) := by
  obtain ⟨h1, h2, h3⟩ := hc
  have hamount : 64 - w < 64 := by omega
  simp only [Environment.signExtend, signShift, h2, if_true, bind_eq_bind, bind_some, shiftResult, hamount] at h
  cases h
  have h64 : (64 : Nat) = w - 1 + 1 + (64 - w) := by omega
  have hself : asI64 (asU64 (value * 2 ^ (64 - w))) / 2 ^ (64 - w) = value := by
    rw [asI64_asU64]
    conv_lhs => rw [show (2 : Nat) ^ 64 = 2 ^ (w - 1 + 1 + (64 - w)) by rw [← h64]]
    rw [bmod_mul_two_pow_ediv]
    exact (bmod_two_pow_eq_self_iff value _).mpr h3
  rw [hself]

theorem asI64_of_lt {x : Nat} (h : x < 2 ^ 63) : asI64 x = x := if_pos h

/-- **Extensions.** -/
theorem extend_agrees_iff {p : PrimitiveType} {t : Typ} {kind : CastOperationKind}
    (hkind : kind = .zeroExtend ∨ kind = .signExtend) (hc : c.IsInteger) (hp : p.width < 2 ^ 32)
    (ht : c.typ = some t) (h : Value.cast env t kind (.primitive p) (.fromConstant c) = some v) :
    FoldsLike (ConstantFolding.castInteger fl checks c (.primitive p)) v ↔
      ExactCast checks kind (.primitive p) c := by
  rcases hkind with rfl | rfl
  · cases c with
    | unsignedInteger value w =>
      cases p with
      | unsignedInteger width =>
        cases h
        rw [ConstantFolding.castInteger, foldsLike_newUnsigned, and_mask_eq_self_iff]
        exact and_iff_left rfl
      | signedInteger width =>
        obtain ⟨y, hy, hv⟩ := bind_eq_some_iff.mp h
        cases hv
        obtain ⟨hlt, rfl⟩ := tryI64_eq_some hy
        have hw : width < 2 ^ 32 := hp
        rw [ConstantFolding.castInteger, asI64_of_lt hlt, foldsLike_newSigned hw,
          signedOf_eq_self_iff, ExactCast, FitsSigned]
        exact ⟨fun ⟨h1, h2, _⟩ => ⟨h1, h2⟩, fun ⟨h1, h2⟩ => ⟨h1, h2, rfl⟩⟩
      | floatingPoint width => cases h
    | signedInteger value w =>
      cases p with
      | unsignedInteger width =>
        obtain ⟨y, hy, hv⟩ := bind_eq_some_iff.mp h
        cases hv
        obtain ⟨h0, rfl⟩ := tryU64_eq_some hy
        rw [ConstantFolding.castInteger, hy, bind_eq_bind, bind_some,
          foldsLike_newUnsigned, and_mask_eq_self_iff, ExactCast, Int.ofNat_le]
        exact and_iff_left rfl
      | signedInteger | floatingPoint => cases h
    | _ => exact absurd hc id
  · cases c with
    | unsignedInteger value w => cases p <;> cases h
    | signedInteger value w =>
      cases p with
      | unsignedInteger | floatingPoint => cases h
      | signedInteger width =>
        cases ht
        obtain ⟨y, hy, hv⟩ := bind_eq_some_iff.mp h
        cases hv
        rw [signExtend_eq hc hy]
        exact foldsLike_lowBits checks hp fun _ => hc.i64
    | _ => exact absurd hc id

/-- **Truncations.** -/
theorem truncate_agrees_iff {typ t : Typ} (hc : c.IsInteger)
    (htyp : ∀ p, typ = .primitive p → p.width < 2 ^ 32)
    (h : Value.cast env t .truncate typ (.fromConstant c) = some v) :
    FoldsLike (ConstantFolding.truncate checks c typ) v ↔ ExactCast checks .truncate typ c := by
  cases typ with
  | primitive p =>
    cases c with
    | unsignedInteger value w =>
      cases p with
      | unsignedInteger width =>
        cases h
        rw [ConstantFolding.truncate, foldsLike_newUnsigned]
        exact iff_of_true ⟨rfl, rfl⟩ trivial
      | signedInteger | floatingPoint => cases h
    | signedInteger value w =>
      cases p with
      | unsignedInteger width =>
        obtain ⟨y, hy, hv⟩ := bind_eq_some_iff.mp h
        cases hv
        rw [ConstantFolding.truncate, hy, bind_eq_bind, bind_some, foldsLike_newUnsigned]
        exact iff_of_true ⟨rfl, rfl⟩ trivial
      | signedInteger width =>
        cases h
        exact foldsLike_lowBits checks (htyp _ rfl) fun _ => hc.i64
      | floatingPoint width => cases h
    | _ => exact absurd hc id
  | _ => cases c <;> cases h

/-- **Reinterpretations.** -/
theorem reinterpret_agrees_iff {typ t : Typ} (hc : c.IsInteger)
    (htyp : ∀ p, typ = .primitive p → p.width < 2 ^ 32)
    (h : Value.cast env t .reinterpret typ (.fromConstant c) = some v) :
    FoldsLike (ConstantFolding.castInteger fl checks c typ) v ↔ ExactCast checks .reinterpret typ c := by
  cases typ with
  | primitive p =>
    cases c with
    | unsignedInteger value w =>
      cases p with
      | unsignedInteger width =>
        simp only [Value.fromConstant, Value.cast] at h
        split at h
        · rename_i hw
          cases h
          subst hw
          have hself : value &&& mask width = value := by
            rw [and_mask, Nat.min_eq_left hc.1, Nat.mod_eq_of_lt hc.2]
          rw [ConstantFolding.castInteger, foldsLike_newUnsigned]
          exact iff_of_true ⟨hself, rfl⟩ trivial
        · cases h
      | signedInteger width =>
        obtain ⟨y, hy, hv⟩ := bind_eq_some_iff.mp h
        cases hv
        obtain ⟨hlt, rfl⟩ := tryI64_eq_some hy
        have hrange : 64 ≤ width → -2 ^ 63 ≤ (value : Int) ∧ (value : Int) < 2 ^ 63 := by
          intro hw
          rw [and_mask, Nat.min_eq_right hw, Nat.mod_eq_of_lt hc.u64] at hlt
          omega
        have hw : width < 2 ^ 32 := htyp _ rfl
        have hlow := foldsLike_lowBits checks hw hrange
        rw [asU64_natCast hc.u64, asI64_of_lt hlt] at hlow
        rw [ConstantFolding.castInteger, foldsLike_newSigned hw,
          signedOf_asI64 width hc.u64, ← foldsLike_newSigned hw]
        exact hlow
      | floatingPoint width => cases h
    | signedInteger value w =>
      cases p with
      | unsignedInteger width =>
        cases h
        rw [ConstantFolding.castInteger, ExactCast]
        unfold tryU64
        split
        · rename_i h0
          have hu : asU64 value = value.toNat := by
            have := hc.i64
            unfold asU64
            omega
          rw [bind_eq_bind, bind_some, foldsLike_newUnsigned, hu]
          exact iff_of_true ⟨rfl, rfl⟩ h0
        · rename_i h0
          exact iff_of_false not_foldsLike_none h0
      | signedInteger width =>
        obtain ⟨y, hy, hv⟩ := bind_eq_some_iff.mp h
        cases hv
        obtain ⟨hlt, rfl⟩ := tryI64_eq_some hy
        have hw : width < 2 ^ 32 := htyp _ rfl
        have hlow := foldsLike_lowBits checks hw (fun _ => hc.i64)
        rw [asI64_of_lt hlt] at hlow
        exact hlow
      | floatingPoint width => cases h
    | _ => exact absurd hc id
  | _ => cases c <;> cases h

/-! ### The pass against the interpreter -/

theorem Block.constantAt_of_arena {r : Ref} (h : b.arena r = .constant c) :
    b.constantAt r = some c := by
  rw [constantAt, h]

theorem Block.typ_of_constant {r : Ref} {t : Typ} (h : b.arena r = .constant c)
    (ht : b.typ r = some t) : c.typ = some t := by
  rw [typ] at ht
  cases hn : b.arenaSize with
  | zero =>
    rw [hn] at ht
    cases ht
  | succ n =>
    rw [hn, typAux, h] at ht
    exact ht

/-- **Folding a statement over integer constants gives the interpreter's value, in the same type and
width, exactly where `FoldExact` says so.**  The interpreter (in either build) evaluates the
statement without a panic; the fold, in either build, may panic. -/
theorem runOnStmt_agrees_iff {μ : Type} (env : Environment μ) (fl : FloatOps) (checks : Bool)
    {v : Value} (b : Block) (stmt : Ref) (hover : b.OverIntegers (b.arena stmt))
    (heval : evaluate env (b.sourceTyp stmt) ((b.arena stmt).map b.constantValues) = some v) :
    FoldsTo b stmt v (ConstantFolding.runOnStmt fl checks b stmt) ↔ b.FoldExact checks (b.arena stmt) := by
  unfold ConstantFolding.runOnStmt
  cases hstmt : b.arena stmt with
  | unaryOperation kind value =>
    rw [hstmt] at hover heval
    obtain ⟨c, hc, hint⟩ := hover
    have hat := Block.constantAt_of_arena hc
    have hval : Value.unary env kind (.fromConstant c) = some v := by
      simpa [Statement.map, evaluate, Block.constantValues, hat] using heval
    have hexact : b.FoldExact checks (.unaryOperation kind value) ↔ ExactUnary kind c := by
      simp [Block.FoldExact, hc]
    rw [hexact]
    dsimp only
    rw [hat]
    dsimp only
    split
    · rename_i hk
      subst hk
      rw [foldsTo_map_iff, not_agrees_iff hint hval]
    · rename_i hk
      refine iff_of_true (.inl rfl) ?_
      unfold ExactUnary
      split
      · exact absurd rfl hk
      · trivial
  | binaryOperation kind lhs rhs =>
    rw [hstmt] at hover heval
    obtain ⟨⟨l, hl, hlint⟩, r, hr, hrint⟩ := hover
    have hlat := Block.constantAt_of_arena hl
    have hrat := Block.constantAt_of_arena hr
    have hval : Value.binary env kind (.fromConstant l) (.fromConstant r) = some v := by
      simpa [Statement.map, evaluate, Block.constantValues, hlat, hrat] using heval
    have hexact : b.FoldExact checks (.binaryOperation kind lhs rhs) ↔ ExactBinary checks kind l r := by
      simp [Block.FoldExact, hl, hr]
    rw [hexact]
    dsimp only
    rw [hlat, hrat]
    rw [foldsTo_map_iff, foldBinary_agrees_iff hlint hrint hval]
  | cast kind typ value =>
    have hsource : b.sourceTyp stmt = b.typ value := by rw [Block.sourceTyp, hstmt]
    rw [hsource] at heval
    rw [hstmt] at hover heval
    obtain ⟨htyp, c, hc, hint⟩ := hover
    have hat := Block.constantAt_of_arena hc
    obtain ⟨t, ht, hval⟩ := bind_eq_some_iff.mp heval
    have hval : Value.cast env t kind typ (.fromConstant c) = some v := by
      simpa [Block.constantValues, hat] using hval
    have hctyp := Block.typ_of_constant hc ht
    have hexact : b.FoldExact checks (.cast kind typ value) ↔ ExactCast checks kind typ c := by
      simp [Block.FoldExact, hc]
    rw [hexact]
    dsimp only
    rw [hat]
    cases kind with
    | zeroExtend =>
      cases typ with
      | primitive p =>
        rw [foldsTo_map_iff, extend_agrees_iff (.inl rfl) hint (htyp p rfl) hctyp hval]
      | _ => exact iff_of_true (.inl rfl) trivial
    | signExtend =>
      cases typ with
      | primitive p =>
        rw [foldsTo_map_iff, extend_agrees_iff (.inr rfl) hint (htyp p rfl) hctyp hval]
      | _ => exact iff_of_true (.inl rfl) trivial
    | truncate =>
      rw [foldsTo_map_iff, truncate_agrees_iff hint htyp hval]
    | reinterpret =>
      rw [foldsTo_map_iff, reinterpret_agrees_iff hint htyp hval]
    | convert | broadcast =>
      exact iff_of_true (.inl rfl) (by unfold ExactCast; split <;> trivial)
  | _ =>
    rw [hstmt] at hover
    exact absurd hover id

/-- No float is involved. -/
def noFloats : FloatOps :=
  ⟨fun _ _ => 0, fun _ _ => 0, fun _ _ => 0, fun _ _ => 0, fun _ _ => 0, fun _ => 0, fun _ _ => none⟩

/-- `3i8 + 4i8`. -/
def sumBlock : Block where
  arenaSize := 3
  arena := fun
    | 0 => .constant (.signedInteger 3 8)
    | 1 => .constant (.signedInteger 4 8)
    | _ => .binaryOperation .add 0 1
  statements := [0, 1, 2]

/-- The sum is in range, so that both sides of the equivalence hold for it. -/
theorem runOnStmt_agrees_iff_sum : evaluate plainEnvironment (sumBlock.sourceTyp 2)
        ((sumBlock.arena 2).map sumBlock.constantValues) = some (.signedInteger 7 8) ∧
      (FoldsTo sumBlock 2 (.signedInteger 7 8) (ConstantFolding.runOnStmt noFloats true sumBlock 2) ↔
        sumBlock.FoldExact true (sumBlock.arena 2)) :=
  ⟨rfl, runOnStmt_agrees_iff plainEnvironment noFloats true sumBlock 2
    ⟨⟨_, rfl, by decide, by decide, by decide, by decide⟩,
      _, rfl, by decide, by decide, by decide, by decide⟩ rfl⟩

/-- `!5u8`. -/
def notBlock : Block where
  arenaSize := 2
  arena := fun
    | 0 => .constant (.unsignedInteger 5 8)
    | _ => .unaryOperation .not 0
  statements := [0, 1]

/-- The interpreter gives `0u1`, folding `250u8`. -/
theorem not_folds_to_complement : notBlock.OverIntegers (notBlock.arena 1) ∧
      evaluate plainEnvironment (notBlock.sourceTyp 1)
        ((notBlock.arena 1).map notBlock.constantValues) = some (.unsignedInteger 0 1) ∧
      (∃ b', ConstantFolding.runOnStmt noFloats true notBlock 1 = some (b', true) ∧
        b'.arena 1 = .constant (.unsignedInteger 250 8)) ∧
      ¬ FoldsTo notBlock 1 (.unsignedInteger 0 1) (ConstantFolding.runOnStmt noFloats true notBlock 1) := by
  refine ⟨⟨_, rfl, by decide, by decide⟩, rfl, ⟨_, rfl, rfl⟩, ?_⟩
  rintro (h | ⟨c, hc, hv⟩)
  · have hflag : true = false := congrArg Prod.snd (some.inj h)
    cases hflag
  · have harena : Statement.constant (.unsignedInteger 250 8) = Statement.constant c :=
      congrArg (fun x : Block × Bool => x.1.arena 1) (some.inj hc)
    cases harena
    cases hv

end Icewind.Rudder
