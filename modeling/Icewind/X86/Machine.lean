import Icewind.Lib.Bytes
import Icewind.X86.Encoder
import Mathlib.Logic.Function.Basic

/-!
# Registers and memory at every width

What the instructions that move and combine values do, at 8 to 64 bits, as they are encoded in
`brig/dbt/src/x86/encoder/instructions`.  Registers are those of the instructions before register allocation, and
memory is bytes.

* `Machine.read`, `Machine.write` — an operand at its width.  A write of 8 or 16 bits keeps the rest of the register,
  one of 32 bits clears it.
* `Opcode.effect` — one instruction.  `none` is an instruction or operand that is not modelled.
* `Machine.run` — instructions one after the other.
-/

namespace Icewind.X86

open BitField

structure Machine where
  registers : Register → Nat
  memory : Nat → UInt8

namespace Machine

/-- The address of a memory operand with a base only. -/
def address (m : Machine) (base : Register) (displacement : Int) : Nat :=
  ((m.registers base + displacement) % 2 ^ 64).toNat

def read (m : Machine) (o : Operand) : Option Nat :=
  match o.kind with
  | .immediate value => some (value % 2 ^ o.width.bits)
  | .register r => some (m.registers r % 2 ^ o.width.bits)
  | .memory (some base) none _ displacement none =>
    some (Bytes.read m.memory (m.address base displacement) (o.width.bits / 8))
  | _ => none

def set (m : Machine) (r : Register) (value : Nat) : Machine :=
  { m with registers := Function.update m.registers r value }

/-- A write to a register. -/
def write (m : Machine) (o : Operand) (value : Nat) : Option Machine :=
  match o.kind, o.width with
  | .register r, .w8 => some (m.set r (insert (m.registers r) value 0 8))
  | .register r, .w16 => some (m.set r (insert (m.registers r) value 0 16))
  | .register r, .w32 => some (m.set r (value % 2 ^ 32))
  | .register r, .w64 => some (m.set r (value % 2 ^ 64))
  | _, _ => none

end Machine

def Opcode.effect (i : Opcode) (m : Machine) : Option Machine :=
  match i with
  | .mov src dst | .op2 .movzx src dst => do
    let value ← m.read src
    m.write dst value
  -- a shift by the width or more is encoded as `xor`
  | .op2 .shl ⟨.immediate amount, _⟩ dst => do
    let value ← m.read dst
    m.write dst (if dst.width.bits ≤ amount then 0 else value <<< amount)
  | .op2 .or src dst => do
    let value ← m.read src
    let old ← m.read dst
    m.write dst (old ||| value)
  | _ => none

section Effect

variable {m : Machine} {src dst : Operand} {value old amount : Nat}

theorem effect_mov_of_read (hread : m.read src = some value) : Opcode.effect (.mov src dst) m = m.write dst value := by
  simp [Opcode.effect, hread]

theorem effect_movzx_of_read (hread : m.read src = some value) :
    Opcode.effect (.op2 .movzx src dst) m = m.write dst value := by
  simp [Opcode.effect, hread]

theorem effect_shl_of_read (w : Width) (hread : m.read dst = some value) (hamount : amount < dst.width.bits) :
    Opcode.effect (.op2 .shl (.imm w amount) dst) m = m.write dst (value <<< amount) := by
  simp [Opcode.effect, Operand.imm, hread, Nat.not_le.mpr hamount]

theorem effect_or_of_read (hsrc : m.read src = some value) (hdst : m.read dst = some old) :
    Opcode.effect (.op2 .or src dst) m = m.write dst (old ||| value) := by
  simp [Opcode.effect, hsrc, hdst]

end Effect

namespace Machine

def run : List Opcode → Machine → Option Machine
  | [], m => some m
  | i :: rest, m => (i.effect m).bind (run rest)

theorem run_append (l l' : List Opcode) (m : Machine) : run (l ++ l') m = (run l m).bind (run l') := by
  induction l generalizing m with
  | nil => rfl
  | cons i rest ih =>
    rw [List.cons_append, run, run, Option.bind_assoc]
    congr 1
    funext m'
    exact ih m'

variable {w : Width}

/-- A register written at a width holds the value at that width, and the others are unchanged. -/
theorem write_register (m : Machine) (r : Register) (hw : w.bits ≤ 64) (value : Nat) :
    ∃ m', m.write ⟨.register r, w⟩ value = some m' ∧ m'.read ⟨.register r, w⟩ = some (value % 2 ^ w.bits) ∧
      (∀ r', r' ≠ r → m'.registers r' = m.registers r') ∧ m'.memory = m.memory := by
  have hother : ∀ v r', r' ≠ r → (m.set r v).registers r' = m.registers r' := fun v r' hne =>
    Function.update_of_ne hne _ _
  have hself : ∀ v, (m.set r v).read ⟨.register r, w⟩ = some (v % 2 ^ w.bits) := fun v => by
    show some (Function.update m.registers r v r % 2 ^ w.bits) = _
    rw [Function.update_self]
  have hlow : ∀ n, insert (m.registers r) value 0 n % 2 ^ n = value % 2 ^ n := fun n => by
    unfold BitField.insert
    rw [Nat.pow_zero, Nat.one_mul, Nat.mod_one, Nat.add_zero, Nat.mul_add_mod, Nat.mod_mod]
  cases w with
  | w8 => exact ⟨_, rfl, (hself _).trans (congrArg some (hlow 8)), hother _, rfl⟩
  | w16 => exact ⟨_, rfl, (hself _).trans (congrArg some (hlow 16)), hother _, rfl⟩
  | w32 | w64 => exact ⟨_, rfl, (hself _).trans (congrArg some (Nat.mod_mod _ _)), hother _, rfl⟩
  | w128 => exact absurd hw (by decide)

end Machine

end Icewind.X86
