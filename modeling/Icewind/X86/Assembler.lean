import Icewind.X86.Encoder

/-!
# Host instructions

What the code assembler is asked to assemble, and which registers an assembled instruction reads and writes, after the
operand encoding tables of the architecture manual.

* `Asm` — a mnemonic and its operands, the destination first.
* `Mnemonic.destination` — how the first operand is accessed; the others are read.  `Mnemonic.implicit` — registers
  that are not among the operands.
* `Asm.reads`, `Asm.writes` — the registers of an instruction.  A register is the whole register, whatever part of it
  an operand names.  Flags, the instruction pointer and segment registers are not counted.
-/

namespace Icewind.X86

/-- The registers of the translator, and the one that only `not` uses. -/
inductive HostRegister where
  | phys (reg : PhysicalRegister)
  | xmm8
  deriving DecidableEq, Repr

/-- A register, or the part of it that an operand names. -/
structure AsmRegister where
  reg : HostRegister
  width : Width
  deriving DecidableEq, Repr

structure AsmMemory where
  /-- `byte_ptr`, `word_ptr`, `dword_ptr`, `qword_ptr` or `xmmword_ptr`. -/
  size : Option Width
  base : Option PhysicalRegister
  index : Option (PhysicalRegister × MemoryScale)
  displacement : Int
  segment : Option SegmentRegister
  deriving DecidableEq, Repr

/-- Labels are numbered. -/
abbrev CodeLabel := Nat

inductive AsmOperand where
  | reg (r : AsmRegister)
  | mem (m : AsmMemory)
  | imm (value : Int)
  | label (l : CodeLabel)
  deriving DecidableEq, Repr

inductive Mnemonic where
  | nop | stc | cqo | ret
  | mov | movzx | movsx | movsxd | movq | movd | movdqa | movdqu | lea
  | xor | pxor | pcmpeqd | or | por | and | pand | add | adc | sub | cmp | test | not | neg | inc
  | shl | shr | sar | shrd | pslldq | psrldq
  | imul | imul2 | imul3 | mul | idiv | div
  | jmp | je | jne | call | push | pop | int | out | ptwrite
  | sets | sete | setc | seto | setne | setnz | setb | setbe | seta | setg | setge | setl | setle | setae
  | cmove | cmovne | cmpxchg | bextr
  | mulpd | mulps | addpd | addps | subpd | subps | divpd | divps | cmppd | cmpps | sqrtsd
  | cvtsi2sd | cvtsi2ss | cvtss2si | cvtsd2si | cvtss2sd | cvttss2si | cvtsd2ss
  | pinsrb | pinsrw | pinsrd | pinsrq | pextrq | punpcklqdq | pshuflw
  deriving DecidableEq, Repr

structure Asm where
  mnemonic : Mnemonic
  operands : List AsmOperand
  deriving DecidableEq, Repr

inductive Access where
  | read
  | write
  | update
  deriving DecidableEq, Repr

def Access.isRead : Access → Bool
  | .write => false
  | .read | .update => true

def Access.isWrite : Access → Bool
  | .read => false
  | .write | .update => true

/-- How the first operand is accessed. -/
def Mnemonic.destination : Mnemonic → Access
  | .nop | .stc | .cqo | .ret => .read
  | .cmp | .test | .jmp | .je | .jne | .call | .push | .int | .out | .ptwrite | .imul | .mul | .idiv | .div => .read
  | .mov | .movzx | .movsx | .movsxd | .movq | .movd | .movdqa | .movdqu | .lea | .imul3 | .pop | .bextr | .pextrq
  | .pshuflw | .sqrtsd | .cvtsi2sd | .cvtsi2ss | .cvtss2si | .cvtsd2si | .cvtss2sd | .cvttss2si | .cvtsd2ss
  | .sets | .sete | .setc | .seto | .setne | .setnz | .setb | .setbe | .seta | .setg | .setge | .setl | .setle
  | .setae => .write
  | .xor | .pxor | .pcmpeqd | .or | .por | .and | .pand | .add | .adc | .sub | .not | .neg | .inc | .shl | .shr | .sar
  | .shrd | .pslldq | .psrldq | .imul2 | .cmove | .cmovne | .cmpxchg | .mulpd | .mulps | .addpd | .addps | .subpd
  | .subps | .divpd | .divps | .cmppd | .cmpps | .pinsrb | .pinsrw | .pinsrd | .pinsrq | .punpcklqdq => .update

/-- The registers that are accessed without being operands. -/
def Mnemonic.implicit : Mnemonic → List (Access × PhysicalRegister)
  | .imul | .mul => [(.update, .rax), (.write, .rdx)]
  | .idiv | .div => [(.update, .rax), (.update, .rdx)]
  | .cqo => [(.read, .rax), (.write, .rdx)]
  | .cmpxchg => [(.update, .rax)]
  | .push | .pop | .call | .ret | .int => [(.update, .rsp)]
  | _ => []

/-- With the same register twice the result does not depend on what it holds. -/
def Mnemonic.cancels : Mnemonic → Bool
  | .xor | .pxor | .pcmpeqd => true
  | _ => false

def AsmMemory.registers (m : AsmMemory) : List HostRegister :=
  (m.base.toList ++ m.index.toList.map Prod.fst).map .phys

/-- The registers of an address are read, whatever is done to the memory. -/
def AsmOperand.reads (access : Access) : AsmOperand → List HostRegister
  | .reg r => if access.isRead then [r.reg] else []
  | .mem m => m.registers
  | .imm _ | .label _ => []

def AsmOperand.writes (access : Access) : AsmOperand → List HostRegister
  | .reg r => if access.isWrite then [r.reg] else []
  | .mem _ | .imm _ | .label _ => []

namespace Asm

/-- Whether the instruction is `xor r, r` or the like. -/
def isIdiom (a : Asm) : Bool :=
  match a.operands with
  | [.reg r, .reg s] => a.mnemonic.cancels && decide (r = s)
  | _ => false

def explicitReads (a : Asm) : List HostRegister :=
  match a.operands with
  | [] => []
  | first :: rest => first.reads a.mnemonic.destination ++ rest.flatMap (AsmOperand.reads .read)

def explicitWrites (a : Asm) : List HostRegister :=
  match a.operands with
  | [] => []
  | first :: _ => first.writes a.mnemonic.destination

def implicitReads (a : Asm) : List HostRegister := (a.mnemonic.implicit.filter (·.1.isRead)).map (.phys ·.2)

def implicitWrites (a : Asm) : List HostRegister := (a.mnemonic.implicit.filter (·.1.isWrite)).map (.phys ·.2)

/-- The registers that the instruction reads. -/
def reads (a : Asm) : List HostRegister := (if a.isIdiom then [] else a.explicitReads) ++ a.implicitReads

/-- The registers that the instruction writes. -/
def writes (a : Asm) : List HostRegister := a.explicitWrites ++ a.implicitWrites

end Asm

end Icewind.X86
