import Icewind.X86.Encoder
import Mathlib.Logic.Function.Basic

/-!
# Running x86 instructions

What the instructions of a block epilogue do on the host, as they are encoded in
`brig/dbt/src/x86/encoder/instructions`.  Registers are those of the instructions, before or after
register allocation.

* `Host.read`, `Host.write` — operands at their width; a 32-bit write clears the upper half of the
  register.
* `Opcode.exec` — one instruction.  `none` is an instruction or operand that is not modelled.
* `Host.run` — instructions one after the other, until one of them leaves.
-/

namespace Icewind.X86

/-- Registers, the zero flag, and memory by 64-bit words: addressed directly, and relative to FS. -/
structure Host where
  registers : Register → Nat
  zero : Bool
  memory : Nat → Nat
  fs : Int → Nat

inductive Outcome where
  | next (h : Host)
  | branch (block : BlockRef)
  | jump (address : Nat)
  | ret

def MemoryScale.factor : MemoryScale → Nat
  | .s1 => 1
  | .s2 => 2
  | .s4 => 4
  | .s8 => 8

namespace Host

/-- The address of `memory_operand_to_iced`. -/
def address (h : Host) (base : Register) (index : Option Register) (scale : MemoryScale)
    (displacement : Int) : Nat :=
  let index := match index with
    | some r => h.registers r * scale.factor
    | none => 0
  (((h.registers base + index : Nat) + displacement) % 2 ^ 64).toNat

def read (h : Host) (o : Operand) : Option Nat :=
  match o.kind with
  | .immediate value => some (value % 2 ^ o.width.bits)
  | .register r => some (h.registers r % 2 ^ o.width.bits)
  | .memory (some base) index scale displacement none =>
    some (h.memory (h.address base index scale displacement) % 2 ^ o.width.bits)
  | .memory none none _ displacement (some .fs) => some (h.fs displacement % 2 ^ o.width.bits)
  | _ => none

def set (h : Host) (r : Register) (value : Nat) : Host :=
  { h with registers := Function.update h.registers r value }

@[simp] theorem set_memory (h : Host) (r : Register) (value : Nat) : (h.set r value).memory = h.memory := rfl

@[simp] theorem set_self (h : Host) (r : Register) (value : Nat) : (h.set r value).registers r = value :=
  Function.update_self _ _ _

theorem set_of_ne (h : Host) {r r' : Register} (value : Nat) (hne : r' ≠ r) :
    (h.set r value).registers r' = h.registers r' := Function.update_of_ne hne _ _

/-- A write to a register. -/
def write (h : Host) (o : Operand) (value : Nat) : Option Host :=
  match o.kind, o.width with
  | .register r, .w64 => some (h.set r (value % 2 ^ 64))
  | .register r, .w32 => some (h.set r (value % 2 ^ 32))
  | _, _ => none

end Host

def Opcode.exec (i : Opcode) (h : Host) : Option Outcome :=
  match i with
  | .mov src dst | .op2 .movzx src dst => do
    let value ← h.read src
    let h ← h.write dst value
    some (.next h)
  -- a shift by the width or more is encoded as `xor`
  | .op2 .shl ⟨.immediate amount, _⟩ dst => do
    let value ← h.read dst
    let h ← h.write dst (if dst.width.bits ≤ amount then 0 else value <<< amount)
    some (.next h)
  | .op2 .shr ⟨.immediate amount, _⟩ dst => do
    let value ← h.read dst
    let h ← h.write dst (value >>> (amount % dst.width.bits))
    some (.next h)
  | .op2 .or src dst => do
    let value ← h.read src
    let old ← h.read dst
    let h ← h.write dst (old ||| value)
    some (.next h)
  | .op2 .test a b => do
    let a ← h.read a
    let b ← h.read b
    some (.next { h with zero := decide (a &&& b = 0) })
  | .op2 .cmp a b => do
    let a ← h.read a
    let b ← h.read b
    some (.next { h with zero := decide (a = b) })
  | .jne ⟨.target block, _⟩ => some (if h.zero then .next h else .branch block)
  | .jmp ⟨.memory (some base) index scale displacement none, _⟩ =>
    some (.jump (h.memory (h.address base index scale displacement) % 2 ^ 64))
  | .ret => some .ret
  | _ => none

/-- Instructions of a block. -/
def Host.run : List Opcode → Host → Option Outcome
  | [], h => some (.next h)
  | i :: rest, h => do
    match ← i.exec h with
    | .next h => Host.run rest h
    | outcome => some outcome

theorem Host.run_cons {i : Opcode} {h h' : Host} (hexec : i.exec h = some (.next h'))
    (rest : List Opcode) : Host.run (i :: rest) h = Host.run rest h' := by
  rw [Host.run, hexec]
  rfl

theorem Host.run_leave {i : Opcode} {h : Host} {outcome : Outcome} (hexec : i.exec h = some outcome)
    (hleave : ∀ h', outcome ≠ .next h') (rest : List Opcode) : Host.run (i :: rest) h = some outcome := by
  rw [Host.run, hexec]
  cases outcome with
  | next h' => exact absurd rfl (hleave h')
  | branch | jump | ret => rfl

theorem Host.run_append {l l' : List Opcode} {h h' : Host} (hrun : Host.run l h = some (.next h')) :
    Host.run (l ++ l') h = Host.run l' h' := by
  induction l generalizing h with
  | nil =>
    cases hrun
    rfl
  | cons i l ih =>
    obtain ⟨outcome, hexec, hrun⟩ := Option.bind_eq_some_iff.mp hrun
    cases outcome with
    | next h1 =>
      rw [List.cons_append, Host.run_cons hexec]
      exact ih hrun
    | branch | jump | ret => cases hrun

/-! ### Virtual registers -/

variable {h : Host} {r value : Nat}

theorem Host.read_vreg64 (hr : h.registers (.virtual r .general) = value) (hvalue : value < 2 ^ 64) :
    h.read (.vreg .w64 r) = some value := by
  change some (h.registers (.virtual r .general) % 2 ^ 64) = _
  rw [hr, Nat.mod_eq_of_lt hvalue]

theorem exec_mov64 {src : Operand} (hread : h.read src = some value) (hvalue : value < 2 ^ 64) :
    Opcode.exec (.mov src (.vreg .w64 r)) h = some (.next (h.set (.virtual r .general) value)) := by
  change ((h.read src).bind fun v => (h.write (.vreg .w64 r) v).bind fun h => some (Outcome.next h)) = _
  rw [hread]
  change some (Outcome.next (h.set (.virtual r .general) (value % 2 ^ 64))) = _
  rw [Nat.mod_eq_of_lt hvalue]

end Icewind.X86
