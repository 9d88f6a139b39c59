import Icewind.X86.Nodes

/-!
# Emitting instructions

The state of `X86Emitter` while it fills a block, and the constructors of instructions that check their operands
(`brig/dbt/src/x86/emitter/mod.rs`, `brig/dbt/src/x86/encoder/mod.rs`).  `none` is a panic; an error of a constructor
is one too, since every caller unwraps it.

* `Emit` — computations of the emitter.
* `Emit.nextVreg`, `Emit.pushInstruction` — `next_vreg` and `push_instruction`.
* `Instruction.mov`, `Instruction.movzx`, `Instruction.movd`, `Instruction.movq` — the checked constructors.
-/

namespace Icewind.X86

/-- `Register::class`; variables have none. -/
def Register.class? : Register → Option RegisterClass
  | .global _ => none
  | .virtual _ cls => some cls
  | .physical r => some r.class_

/-- `Operand::register_class`. -/
def Operand.registerClass (o : Operand) : Option RegisterClass :=
  match o.kind with
  | .register r => r.class?
  | _ => none

def Operand.isImmediate (o : Operand) : Bool :=
  match o.kind with
  | .immediate _ => true
  | _ => false

/-- `Operand::vreg_xmm`. -/
def Operand.vregXmm (w : Width) (reg : Nat) : Operand := ⟨.register (.virtual reg .xmm), w⟩

/-! ### Instructions -/

namespace Instruction

/-- A 128-bit general register. -/
def oversize (o : Operand) : Bool :=
  match o.kind with
  | .register (.physical r) => decide (o.width = .w128) && r.isGpr
  | _ => false

/-- Registers of two different classes. -/
def differentClasses (src dst : Operand) : Bool :=
  match src.registerClass, dst.registerClass with
  | some s, some d => decide (s ≠ d)
  | _, _ => false

/-- `Instruction::mov`. -/
def mov (src dst : Operand) : Option Opcode :=
  if oversize src then none
  else if oversize dst then none
  else if src.width ≠ .w128 ∧ src.width ≠ dst.width then none
  else if src.isImmediate ∧ src.width = .w128 then none
  else if differentClasses src dst then none
  else some (.mov src dst)

/-- `Instruction::movzx`. -/
def movzx (src dst : Operand) : Option Opcode :=
  if src.width.bits ≥ dst.width.bits then none
  else if src.isImmediate ∧ dst.width = .w128 then none
  else if src.registerClass = some .xmm then none
  else if dst.registerClass = some .xmm then none
  else some (.op2 .movzx src dst)

/-- `Instruction::movd`. -/
def movd (src dst : Operand) : Option Opcode :=
  if src.registerClass = dst.registerClass then none
  else if src.width ≠ dst.width then none
  else some (.op2 .movd src dst)

/-- `Instruction::movq`. -/
def movq (src dst : Operand) : Option Opcode :=
  if src.isImmediate ∧ dst.registerClass = some .xmm then none
  else if src.registerClass = dst.registerClass then none
  else if src.width ≠ dst.width then none
  else some (.op2 .movq src dst)

end Instruction

/-! ### The emitter -/

/-- `X86Emitter`, with the instructions of the current block. -/
structure Emitter where
  nextVreg : Nat
  code : List Opcode

abbrev Emit := StateT Emitter Option

namespace Emit

/-- `next_vreg`. -/
def nextVreg : Emit Nat := fun e => some (e.nextVreg, { e with nextVreg := e.nextVreg + 1 })

/-- `push_instruction`. -/
def pushInstruction (i : Opcode) : Emit Unit := fun e => some ((), { e with code := e.code ++ [i] })

/-- `push_instruction` of an instruction that may be refused. -/
def pushChecked (i : Option Opcode) : Emit Unit := fun e => i.bind fun i => pushInstruction i e

/-- A computation without effects, which may panic. -/
def ofOption {α : Type} (x : Option α) : Emit α := fun e => x.map fun a => (a, e)

variable {α β : Type} {x : Emit α} {f : α → Emit β} {e e' : Emitter} {b : β}

theorem bind_eq_some : (x >>= f) e = some (b, e') ↔ ∃ a e1, x e = some (a, e1) ∧ f a e1 = some (b, e') := by
  constructor
  · intro h
    obtain ⟨⟨a, e1⟩, hx, hf⟩ := Option.bind_eq_some_iff.mp h
    exact ⟨a, e1, hx, hf⟩
  · rintro ⟨a, e1, hx, hf⟩
    exact Option.bind_eq_some_iff.mpr ⟨(a, e1), hx, hf⟩

theorem ofOption_some_bind (a : α) : (ofOption (some a) >>= f) = f a := rfl

end Emit

end Icewind.X86
