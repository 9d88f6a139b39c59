import Icewind.Lib.Fallible
import Mathlib.Data.List.Basic
import Mathlib.Algebra.Group.Int.Defs
import Mathlib.Algebra.Group.Nat.Defs

/-!
# x86 instructions and their operands

Model of `brig/dbt/src/x86/encoder/mod.rs`: the opcodes of the translator, grouped by the number
of their operands, and which operands an instruction reads and writes.

* `Opcode` — an instruction; `Op0` to `Op3` list the mnemonics of each arity.
* `Opcode.getApparentOperands` — operands with direction, implicit registers included.
* `Opcode.getUseDefs` — registers read and written, in the order the register allocator sees them.
* `Operand.traverseRegisters`, `Opcode.traverseOperands` — the registers `get_use_defs_mut` and the
  operands `get_operands_mut` let the allocator rewrite.
-/

namespace Icewind.X86

/-! ## Operands -/

inductive Width where
  | w8
  | w16
  | w32
  | w64
  | w128
  deriving DecidableEq, Repr

/-- `Width::as_u16`. -/
def Width.bits : Width → Nat
  | .w8 => 8
  | .w16 => 16
  | .w32 => 32
  | .w64 => 64
  | .w128 => 128

inductive SegmentRegister where
  | fs
  | gs
  deriving DecidableEq, Repr

inductive PhysicalRegister where
  | rax | rcx | rdx | rbx | rsi | rdi | rsp | rbp
  | r8 | r9 | r10 | r11 | r12 | r13 | r14 | r15
  | xmm0 | xmm1 | xmm2 | xmm3 | xmm4 | xmm5 | xmm6 | xmm7
  deriving DecidableEq, Repr

inductive RegisterClass where
  | general
  | xmm
  deriving DecidableEq, Repr

namespace PhysicalRegister

/-- All registers, by index. -/
def all : List PhysicalRegister :=
  [rax, rcx, rdx, rbx, rsi, rdi, rsp, rbp, r8, r9, r10, r11, r12, r13, r14, r15,
    xmm0, xmm1, xmm2, xmm3, xmm4, xmm5, xmm6, xmm7]

def isXmm : PhysicalRegister → Bool
  | xmm0 | xmm1 | xmm2 | xmm3 | xmm4 | xmm5 | xmm6 | xmm7 => true
  | _ => false

def isGpr (r : PhysicalRegister) : Bool := !r.isXmm

def class_ (r : PhysicalRegister) : RegisterClass := if r.isGpr then .general else .xmm

theorem mem_all (r : PhysicalRegister) : r ∈ all := by cases r <;> simp [all]

end PhysicalRegister

inductive Register where
  | physical (reg : PhysicalRegister)
  | virtual (index : Nat) (cls : RegisterClass)
  | global (index : Nat)
  deriving DecidableEq, Repr

inductive MemoryScale where
  | s1
  | s2
  | s4
  | s8
  deriving DecidableEq, Repr

/-- Blocks are named by their index in the arena. -/
abbrev BlockRef := Nat

inductive OperandKind where
  | immediate (value : Nat)
  | memory (base index : Option Register) (scale : MemoryScale) (displacement : Int)
      (segmentOverride : Option SegmentRegister)
  | register (reg : Register)
  | target (block : BlockRef)
  deriving DecidableEq, Repr

structure Operand where
  kind : OperandKind
  width : Width
  deriving DecidableEq, Repr

namespace Operand

def imm (w : Width) (value : Nat) : Operand := ⟨.immediate value, w⟩

/-- `Operand::preg`; the source panics on a 128-bit general register. -/
def preg (w : Width) (reg : PhysicalRegister) : Operand := ⟨.register (.physical reg), w⟩

/-- `Operand::vreg`. -/
def vreg (w : Width) (reg : Nat) : Operand :=
  ⟨.register (.virtual reg (if w.bits > 64 then .xmm else .general)), w⟩

def memBaseDispl (w : Width) (base : Register) (displacement : Int) : Operand :=
  ⟨.memory (some base) none .s1 displacement none, w⟩

def memSegDispl (w : Width) (segment : SegmentRegister) (displacement : Int) : Operand :=
  ⟨.memory none none .s1 displacement (some segment), w⟩

def target (block : BlockRef) : Operand := ⟨.target block, .w64⟩

end Operand

/-! ## Opcodes -/

/-- Opcodes without explicit operands. -/
inductive Op0 where
  | cqo | ret | nop | dead | label
  deriving DecidableEq, Repr

/-- Opcodes with one operand. -/
inductive Op1 where
  | inc | idiv | div | not | neg | jmp | push | pop
  | sets | sete | setc | seto | setne | setnz | setb | setbe | seta | setg | setge | setl | setle | setae
  | je | jne | int | ptwrite
  deriving DecidableEq, Repr

/-- Opcodes with two operands. -/
inductive Op2 where
  | mov | movzx | movsx | movq | movd | cmove | cmovne | cmpxchg
  | cvtsi2sd | cvtsi2ss | cvtsd2si | cvtss2si | cvtss2sd | cvtsd2ss | cvttss2si
  | lea | shl | shr | sar | add | sub | or | xor | and | imul
  | mulpd | mulps | addpd | addps | subpd | divpd | divps | subps | sqrtss | sqrtsd
  | punpckl | punpcklwd | punpcklqdq | test | cmp | out
  deriving DecidableEq, Repr

/-- Opcodes with three operands. -/
inductive Op3 where
  | shld | shrd | adc | mul | imul1 | cmppd | cmpps | bextr | pextr | pinsr | pshuflw
  deriving DecidableEq, Repr

/-- An instruction: an opcode and its operands. -/
inductive Opcode where
  | op0 (op : Op0)
  | op1 (op : Op1) (a : Operand)
  | op2 (op : Op2) (a b : Operand)
  | op3 (op : Op3) (a b c : Operand)
  | call (function : Operand) (nrInputArgs nrOutputArgs : Nat)
  deriving DecidableEq, Repr

namespace Opcode

@[match_pattern] def dead : Opcode := .op0 .dead
@[match_pattern] def ret : Opcode := .op0 .ret
@[match_pattern] def jmp (tgt : Operand) : Opcode := .op1 .jmp tgt
@[match_pattern] def je (tgt : Operand) : Opcode := .op1 .je tgt
@[match_pattern] def jne (tgt : Operand) : Opcode := .op1 .jne tgt
@[match_pattern] def int (n : Operand) : Opcode := .op1 .int n
@[match_pattern] def push (src : Operand) : Opcode := .op1 .push src
@[match_pattern] def pop (dest : Operand) : Opcode := .op1 .pop dest
@[match_pattern] def mov (src dst : Operand) : Opcode := .op2 .mov src dst
@[match_pattern] def cmovne (src dst : Operand) : Opcode := .op2 .cmovne src dst

end Opcode

/-- The operands written in the instruction. -/
def Opcode.operands : Opcode → List Operand
  | .op0 _ => []
  | .op1 _ a => [a]
  | .op2 _ a b => [a, b]
  | .op3 _ a b c => [a, b, c]
  | .call function _ _ => [function]

/-! ## Directions -/

inductive OperandDirection where
  | in_
  | out
  | inOut
  deriving DecidableEq, Repr

def Op1.direction : Op1 → OperandDirection
  | .sets | .sete | .setc | .seto | .setne | .setnz | .setb | .setbe | .seta | .setg | .setge
  | .setl | .setle | .setae | .pop => .out
  | .not | .neg | .inc => .inOut
  | .idiv | .div | .jmp | .je | .jne | .int | .push | .ptwrite => .in_

/-- Direction of the second operand; the first is read. -/
def Op2.direction : Op2 → OperandDirection
  | .mov | .movzx | .movsx | .movq | .movd | .lea | .cmove | .cmovne | .cvtsi2sd | .cvtsi2ss
  | .cvtsd2si | .cvtss2sd | .cvtss2si | .cvttss2si | .cvtsd2ss | .sqrtss | .sqrtsd => .out
  | .shl | .shr | .sar | .or | .xor | .add | .sub | .and | .imul | .mulpd | .mulps | .addpd
  | .addps | .subpd | .divpd | .divps | .subps | .punpckl | .punpcklwd | .punpcklqdq
  | .cmpxchg => .inOut
  | .test | .cmp | .out => .in_

/-- The operands of a three-operand opcode in the order of the table, with their directions. -/
def Op3.operands (op : Op3) (a b c : Operand) : List (OperandDirection × Operand) :=
  match op with
  | .cmppd | .cmpps | .pshuflw => [(.in_, a), (.inOut, b), (.in_, c)]
  | .mul | .imul1 => [(.in_, a), (.inOut, b), (.out, c)]
  -- `(amount, hi, lo)`
  | .shrd | .shld => [(.in_, a), (.in_, c), (.inOut, b)]
  | .bextr | .pextr => [(.in_, a), (.in_, b), (.out, c)]
  | .adc | .pinsr => [(.in_, a), (.in_, b), (.inOut, c)]

/-- Argument registers of the System V calling convention (`ARG_REGS`). -/
def argRegs : List PhysicalRegister := [.rdi, .rsi, .rdx, .rcx, .r8, .r9]

/-- `CALLER_SAVED`. -/
def callerSaved : List PhysicalRegister := [.rax, .rdi, .rsi, .rdx, .rcx, .r8, .r9, .r10, .r11]

namespace Opcode

/-- `get_apparent_operands`. -/
def getApparentOperands : Opcode → List (OperandDirection × Operand)
  | .op0 .cqo => [(.inOut, .preg .w64 .rax), (.out, .preg .w64 .rdx)]
  | .op0 _ => []
  | .op1 .idiv divisor | .op1 .div divisor =>
    [(.inOut, .preg divisor.width .rdx), (.inOut, .preg divisor.width .rax), (.in_, divisor)]
  | .op1 op a => [(op.direction, a)]
  | .op2 .cmpxchg src dst => [(.in_, src), (.inOut, dst), (.in_, .preg .w64 .rax)]
  | .op2 op a b => [(.in_, a), (op.direction, b)]
  | .op3 op a b c => op.operands a b c
  | .call function nrInputArgs nrOutputArgs =>
    (.in_, function) :: ((argRegs.take nrInputArgs).map fun r => (.in_, .preg .w64 r)) ++
      (([.rax, .rdx] : List PhysicalRegister).take nrOutputArgs).map fun r => (.out, .preg .w64 r)

end Opcode

inductive UseDef where
  | use (reg : Register)
  | def_ (reg : Register)
  | useDef (reg : Register)
  deriving DecidableEq, Repr

namespace UseDef

def ofDirection (d : OperandDirection) (r : Register) : UseDef :=
  match d with
  | .in_ => .use r
  | .out => .def_ r
  | .inOut => .useDef r

/-- The register, if it is written. -/
def defined : UseDef → Option Register
  | .use _ => none
  | .def_ r | .useDef r => some r

/-- The register, if it is read. -/
def used : UseDef → Option Register
  | .def_ _ => none
  | .use r | .useDef r => some r

end UseDef

/-- The registers of one operand.  A memory operand without a base contributes none. -/
def Operand.useDefs (d : OperandDirection) (o : Operand) : List (UseDef × Width) :=
  match o.kind with
  | .memory (some base) none .. => [(.use base, .w64)]
  | .memory (some base) (some index) .. => [(.use base, .w64), (.use index, .w64)]
  | .register r => [(.ofDirection d r, o.width)]
  | _ => []

/-- `get_use_defs`. -/
def Opcode.getUseDefs (i : Opcode) : List (UseDef × Width) :=
  i.getApparentOperands.flatMap fun p => p.2.useDefs p.1

/-! ## Rewriting registers -/

/-- The registers `get_use_defs_mut` gives out of an operand, rewritten by a function that may
panic. -/
def Operand.traverseRegisters (f : Register → Option Register) (o : Operand) : Option Operand :=
  match o.kind with
  | .memory (some base) none scale d s => do
    let base ← f base
    some { o with kind := .memory (some base) none scale d s }
  | .memory (some base) (some index) scale d s => do
    let base ← f base
    let index ← f index
    some { o with kind := .memory (some base) (some index) scale d s }
  | .register r => do
    let r ← f r
    some { o with kind := .register r }
  | _ => some o

/-- Every explicit operand rewritten (`get_operands_mut`). -/
def Opcode.traverseOperands (f : Operand → Option Operand) : Opcode → Option Opcode
  | .op0 op => some (.op0 op)
  | .op1 op a => do
    let a ← f a
    some (.op1 op a)
  | .op2 op a b => do
    let a ← f a
    let b ← f b
    some (.op2 op a b)
  | .op3 op a b c => do
    let a ← f a
    let b ← f b
    let c ← f c
    some (.op3 op a b c)
  | .call function i o => do
    let function ← f function
    some (.call function i o)

end Icewind.X86
