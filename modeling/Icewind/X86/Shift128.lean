import Icewind.X86.BitExtract
import Icewind.X86.Emit

/-!
# Right shifts of 128-bit values

The case of a `Shift` node in `to_operand_inner` (`brig/dbt/src/x86/emitter/to_operand.rs`).

* `shiftToOperand` — that case, from the operands of its parts on, with the code of its own that the upper half of a
  product has.
* `shiftsRight_iff` — no operands get past the `movzx` of `shift_right_128` or, in vector registers, past the `mov` for
  the upper half, so that only shifts that need no code are right.
-/

namespace Icewind.X86

open Option Instruction Emit Node

/-- The amount of a shift, moved to `cl` if it is in a register. -/
def shiftAmount (amount : Operand) (width : Width) : Emit Operand :=
  match amount.kind with
  | .register _ => do
    let cl := Operand.preg .w8 .rcx
    pushChecked (mov ⟨amount.kind, width⟩ cl)
    pure cl
  | _ => pure amount

/-- `shift_right_128`. -/
def shiftRight128 (value amount : Operand) : Emit Operand := do
  let lowHalf := Operand.vreg .w64 (← nextVreg)
  pushChecked (mov value lowHalf)
  let one := Operand.imm .w8 1
  let highHalf := Operand.vreg .w64 (← nextVreg)
  pushInstruction (.op3 .pextr one value highHalf)
  let amount ← shiftAmount amount amount.width
  pushInstruction (.op3 .shrd amount highHalf lowHalf)
  pushInstruction (.op2 .shr amount highHalf)
  let result := Operand.vreg .w128 (← nextVreg)
  pushChecked (movzx lowHalf result)
  pushInstruction (.op3 .pinsr one highHalf result)
  pure result

/-- The upper half of a product. -/
def upperHalf (a b : Operand) : Emit Operand := do
  let dstHi := Operand.preg .w64 .rdx
  let dstLo := Operand.preg .w64 .rax
  let src := Operand.vreg .w64 (← nextVreg)
  pushChecked (mov a src)
  pushChecked (mov b dstLo)
  pushInstruction (.op3 .mul src dstLo dstHi)
  pure dstHi

/-- The other shifts. -/
def shiftOperands (kind : ShiftOperationKind) (value amount : Operand) : Emit Operand :=
  if value.width = .w128 then
    if kind = .logicalShiftRight then shiftRight128 value amount else ofOption none
  else do
    let dst := Operand.vreg value.width (← nextVreg)
    pushChecked (mov value dst)
    let amount ← shiftAmount amount .w8
    match kind with
    | .logicalShiftLeft => pushInstruction (.op2 .shl amount dst)
    | .logicalShiftRight => pushInstruction (.op2 .shr amount dst)
    | .arithmeticShiftRight => pushInstruction (.op2 .sar amount dst)
    | .rotateRight | .rotateLeft => ofOption none
    pure dst

/-- A `Shift` node whose parts have operands. -/
def shiftToOperand (kind : ShiftOperationKind) (value amount : Node) (operandOf : Node → Operand) : Emit Operand :=
  match value, amount, kind with
  | .binaryOperation _ .multiply a b, .const _ 64 _, .logicalShiftRight => upperHalf (operandOf a) (operandOf b)
  | value, amount, kind => shiftOperands kind (operandOf value) (operandOf amount)

/-- A 128-bit operand: a vector register or an immediate. -/
def Operand.Wide (o : Operand) : Prop := o.width = .w128 ∧ (o.isImmediate = true ∨ o.registerClass = some .xmm)

theorem Operand.Wide.mov {o : Operand} (h : o.Wide) (reg : Nat) : mov o (.vreg .w64 reg) = none := by
  obtain ⟨hwidth, himm | hclass⟩ := h
  · simp [Instruction.mov, hwidth, himm]
  · have hdifferent : differentClasses o (.vreg .w64 reg) = true := by
      rw [differentClasses, hclass]
      rfl
    simp [Instruction.mov, hdifferent]

theorem bind_panics {α β : Type} {x : Emit α} {f : α → Emit β} (h : ∀ a e, f a e = none) (e : Emitter) :
    (x >>= f) e = none :=
  bind_eq_none_iff.mpr fun p _ => h p.1 p.2

/-- **No operands get to the end of `shift_right_128`.** -/
theorem shiftRight128_panics (value amount : Operand) : ∀ e, shiftRight128 value amount e = none := by
  refine bind_panics fun low => bind_panics fun _ => bind_panics fun high => bind_panics fun _ => ?_
  refine bind_panics fun count => bind_panics fun _ => bind_panics fun _ => bind_panics fun result e => ?_
  -- the result is a vector register, which `movzx` refuses
  rfl

theorem upperHalf_panics {a : Operand} (ha : a.Wide) (b : Operand) : ∀ e, upperHalf a b e = none := by
  refine bind_panics fun src e => ?_
  rw [ha.mov]
  rfl

/-- A right shift gives the shifted value: its node stands for it, and is the value, a constant, or a shift for which
there is code, from the operands of its parts on. -/
def ShiftsRight (m : Meaning) (value amount : Node) (operandOf : Node → Operand) (e : Emitter) : Prop :=
  ∃ n, makeShift value amount .logicalShiftRight = some n ∧ n.denote m = value.denote m / 2 ^ amount.denote m ∧
    (n = value ∨ n.asConstant.isSome ∨ (shiftToOperand .logicalShiftRight value amount operandOf e).isSome)

/-- The node and, if it is a product, its factors have 128-bit operands. -/
structure WideOperands (operandOf : Node → Operand) (value : Node) : Prop where
  width : (operandOf value).width = .w128
  factors : ∀ {typ a b}, value = .binaryOperation typ .multiply a b → (operandOf a).Wide ∧ (operandOf b).Wide

variable {operandOf : Node → Operand}

theorem shiftToOperand_panics {kind : ShiftOperationKind} {value : Node} (hkind : kind = .logicalShiftRight)
    (hwide : WideOperands operandOf value) (amount : Node) (e : Emitter) :
    shiftToOperand kind value amount operandOf e = none := by
  unfold shiftToOperand
  split
  · exact upperHalf_panics (hwide.factors rfl).1 _ e
  · rw [shiftOperands, if_pos hwide.width, if_pos hkind]
    exact shiftRight128_panics _ _ e

theorem not_shiftsRight {m : Meaning} {value amount : Node} (hwide : WideOperands operandOf value)
    (hmake : makeShift value amount .logicalShiftRight = some (.shift value.typ .logicalShiftRight value amount))
    (e : Emitter) : ¬ ShiftsRight m value amount operandOf e := by
  rintro ⟨n, hn, -, h⟩
  cases hmake.symm.trans hn
  rcases h with h | h | h
  · have := congrArg sizeOf h
    simp at this
    omega
  · cases h
  · rw [shiftToOperand_panics rfl hwide] at h
    cases h

/-- **The shift of a 128-bit value is right exactly if the amount is the constant zero or both are constants.** -/
theorem shiftsRight_iff {m : Meaning} {value amount : Node} (hvalue : value.typ.width = some 128)
    (hwide : WideOperands operandOf value) (hconst : ∀ x, value.asConstant = some x → x < 2 ^ 64)
    (hamount : ∀ n, amount.asConstant = some n → amount.IsNumber n) (hrange : amount.denote m < 128) (e : Emitter) :
    ShiftsRight m value amount operandOf e ↔
      amount.asConstant = some 0 ∨ value.asConstant.isSome ∧ amount.asConstant.isSome := by
  cases hn : amount.asConstant with
  | none =>
    refine ⟨fun h => absurd h (not_shiftsRight hwide ?_ e), by simp⟩
    unfold makeShift
    split <;> first | cases hn | rfl
  | some n =>
    have hdenote := (hamount n hn).denote m
    obtain ⟨typ, w, rfl, -⟩ := hamount n hn
    cases hx : value.asConstant with
    | some x =>
      have hlt := hconst x hx
      cases value <;> cases hx
      rename_i t width
      have htyp : t.width = some 128 := hvalue
      have hsome : shiftConstant x width n .logicalShiftRight = some (if n < 64 then x >>> n else 0) := by
        rw [shiftConstant, Rudder.tryU32, if_pos (by omega)]
        rfl
      have hsmall : x < 2 ^ t.width.getD 0 := by
        rw [htyp]
        exact hlt.trans (by decide)
      refine ⟨fun _ => .inr ⟨rfl, rfl⟩, fun _ => ⟨.const t (x / 2 ^ n) 128, ?_, ?_, .inr (.inl rfl)⟩⟩
      · rw [makeShift, hsome, shiftConstant_right hlt hsome, bind_eq_bind, bind_some, constant, htyp]
        rfl
      · rw [hdenote]
        show _ % _ = x % _ / _
        rw [Nat.mod_eq_of_lt hsmall, Nat.mod_eq_of_lt ((Nat.div_le_self _ _).trans_lt hsmall)]
    | none =>
      rw [← hn]
      by_cases hzero : n = 0
      · subst hzero
        refine ⟨fun _ => .inl rfl, fun _ => ⟨value, ?_, by rw [hdenote, Nat.pow_zero, Nat.div_one], .inl rfl⟩⟩
        rw [makeShift_other hx, if_pos rfl]
      · refine ⟨fun h => absurd h (not_shiftsRight hwide ?_ e), by simp [hzero, asConstant]⟩
        rw [makeShift_other hx, if_neg hzero]

/-- The operands of a 128-bit guest register and of an amount. -/
def registerOperands : Node → Operand
  | .const _ value _ => .imm .w8 value
  | _ => .vreg .w128 0

/-- A guest register shifted by nothing. -/
theorem shiftsRight_iff_zero :
    ShiftsRight ⟨fun _ => 7, fun _ => 0⟩ (.guestRegister (.unsigned 128) 0) (.const (.unsigned 8) 0 8) registerOperands
      ⟨1, []⟩ := by
  refine (shiftsRight_iff rfl ⟨rfl, by rintro _ _ _ ⟨⟩⟩ (by nofun) ?_ (by decide) _).mpr (.inl rfl)
  rintro _ ⟨⟩
  exact ⟨_, _, rfl, by decide⟩

/-- There is no code for a guest register shifted by four. -/
theorem not_shiftsRight_four :
    ¬ ShiftsRight ⟨fun _ => 7, fun _ => 0⟩ (.guestRegister (.unsigned 128) 0) (.const (.unsigned 8) 4 8)
      registerOperands ⟨1, []⟩ :=
  not_shiftsRight ⟨rfl, by rintro _ _ _ ⟨⟩⟩ rfl _

end Icewind.X86
