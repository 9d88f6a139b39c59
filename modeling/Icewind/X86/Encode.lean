import Icewind.X86.Assembler

/-!
# Encoding

Model of `Instruction::encode` and of `brig/dbt/src/x86/encoder/instructions`: what the assembler is given for an
instruction.  `none` is a panic, of the encoder or of a conversion that is unwrapped.  Which immediates the assembler
itself refuses is left out.

* `PhysicalRegister.tryInto` — the register at a width, `none` for a register of the other class.
* `Operand.view` — the shapes of operands that the encoder tells apart.
* `Opcode.encode` — the encoder, with one function for each module of `instructions`.
-/

namespace Icewind.X86

/-! ### Operands -/

/-- `AsmRegister8::try_from` to `AsmRegister64::try_from` and, at 128 bits, `AsmRegisterXmm::try_from`. -/
def PhysicalRegister.tryInto (r : PhysicalRegister) (w : Width) : Option AsmRegister :=
  if r.isXmm = decide (w = .w128) then some ⟨.phys r, w⟩ else none

/-- `memory_operand_to_iced`. -/
def memoryOperandToIced (size : Option Width) (base : PhysicalRegister) (index : Option Register) (scale : MemoryScale)
    (displacement : Int) : Option AsmMemory :=
  if base.isXmm then none
  else
    match index with
    | some (.physical index) =>
      if index.isXmm then none else some ⟨size, some base, some (index, scale), displacement, none⟩
    | _ => some ⟨size, some base, none, displacement, none⟩

/-- `segment_memory_operand_to_iced`. -/
def segmentMemoryOperandToIced (size : Option Width) (segment : SegmentRegister) (index : Option Register)
    (scale : MemoryScale) (displacement : Int) : Option AsmMemory :=
  match index with
  | some (.physical index) =>
    if index.isXmm then none else some ⟨size, none, some (index, scale), displacement, some segment⟩
  | _ => some ⟨size, none, none, displacement, some segment⟩

/-- A memory operand with a base, as the patterns of the encoder take it apart. -/
structure BasedMemory where
  base : PhysicalRegister
  index : Option Register
  scale : MemoryScale
  displacement : Int

def BasedMemory.toIced (m : BasedMemory) (size : Option Width) : Option AsmMemory :=
  memoryOperandToIced size m.base m.index m.scale m.displacement

/-- A memory operand that is relative to a segment. -/
structure SegmentMemory where
  segment : SegmentRegister
  index : Option Register
  scale : MemoryScale
  displacement : Int

def SegmentMemory.toIced (m : SegmentMemory) (size : Option Width) : Option AsmMemory :=
  segmentMemoryOperandToIced size m.segment m.index m.scale m.displacement

/-- The shapes that the patterns of the encoder match. -/
inductive OperandView where
  | imm (value : Nat)
  | reg (r : PhysicalRegister)
  | mem (m : BasedMemory)
  | segment (m : SegmentMemory)
  | target (block : BlockRef)
  | other

def Operand.view (o : Operand) : OperandView :=
  match o.kind with
  | .immediate value => .imm value
  | .register (.physical r) => .reg r
  | .memory (some (.physical base)) index scale displacement _ => .mem ⟨base, index, scale, displacement⟩
  | .memory none index scale displacement (some segment) => .segment ⟨segment, index, scale, displacement⟩
  | .target block => .target block
  | _ => .other

/-- `Operand::as_register`. -/
def Operand.asRegister (o : Operand) : Option Register :=
  match o.kind with
  | .register r => some r
  | _ => none

/-! ### Immediates -/

/-- `i32::try_from` of a `u64`. -/
def tryI32 (value : Nat) : Option Int := if value < 2 ^ 31 then some value else none

/-- `u32::try_from` of a `u64`. -/
def tryU32 (value : Nat) : Option Int := if value < 2 ^ 32 then some value else none

/-- `value as i32`. -/
def asI32 (value : Nat) : Int := (value : Int).bmod (2 ^ 32)

/-- `value as u32`. -/
def asU32 (value : Nat) : Int := (value : Int) % 2 ^ 32

/-- `i32::try_from(value as i64)`. -/
def tryI32Signed (value : Nat) : Option Int :=
  let signed := (value : Int).bmod (2 ^ 64)
  if -2 ^ 31 ≤ signed ∧ signed < 2 ^ 31 then some signed else none

/-- `i32::MAX as u64`. -/
def i32Max : Nat := 2 ^ 31 - 1

/-! ### One host instruction -/

section Emit

variable (m : Mnemonic)

/-- One register. -/
def emitR (w : Width) (r : PhysicalRegister) : Option (List Asm) := do
  let r ← r.tryInto w
  some [⟨m, [.reg r]⟩]

/-- Destination and source register. -/
def emitRR (wd ws : Width) (dst src : PhysicalRegister) : Option (List Asm) := do
  let dst ← dst.tryInto wd
  let src ← src.tryInto ws
  some [⟨m, [.reg dst, .reg src]⟩]

/-- A register and an immediate. -/
def emitRI (w : Width) (dst : PhysicalRegister) (value : Int) : Option (List Asm) := do
  let dst ← dst.tryInto w
  some [⟨m, [.reg dst, .imm value]⟩]

/-- Two registers and an immediate. -/
def emitRRI (wd ws : Width) (dst src : PhysicalRegister) (value : Int) : Option (List Asm) := do
  let dst ← dst.tryInto wd
  let src ← src.tryInto ws
  some [⟨m, [.reg dst, .reg src, .imm value]⟩]

/-- A register and memory. -/
def emitRM (w : Width) (dst : PhysicalRegister) (src : Option AsmMemory) : Option (List Asm) := do
  let dst ← dst.tryInto w
  let src ← src
  some [⟨m, [.reg dst, .mem src]⟩]

/-- Memory and a register. -/
def emitMR (dst : Option AsmMemory) (w : Width) (src : PhysicalRegister) : Option (List Asm) := do
  let dst ← dst
  let src ← src.tryInto w
  some [⟨m, [.mem dst, .reg src]⟩]

/-- Memory and an immediate. -/
def emitMI (dst : Option AsmMemory) (value : Int) : Option (List Asm) := do
  let dst ← dst
  some [⟨m, [.mem dst, .imm value]⟩]

/-- Memory. -/
def emitM (op : Option AsmMemory) : Option (List Asm) := do
  let op ← op
  some [⟨m, [.mem op]⟩]

end Emit

/-- One after the other. -/
def emitBoth (first second : Option (List Asm)) : Option (List Asm) := do
  let first ← first
  let second ← second
  some (first ++ second)

/-! ### `instructions` -/

/-- `add dst, 0xff` of the carry operand sets the carry flag. -/
def Adc.setCarry (carry : PhysicalRegister) : Option (List Asm) := emitRI .add .w8 carry (-1)

/-- `adc::encode` at one of its two widths. -/
def Adc.encodeAt (w : Width) (src : OperandView) (dst : PhysicalRegister) (carry : OperandView) : Option (List Asm) :=
  match src, carry with
  | .reg src, .reg carry => emitBoth (Adc.setCarry carry) (emitRR .adc w w dst src)
  | .reg src, .imm carryIn =>
    if carryIn = 0 then emitRR .add w w dst src
    else if carryIn = 1 then emitBoth (some [⟨.stc, []⟩]) (emitRR .adc w w dst src)
    else none
  | .imm src, .imm carryIn => (tryI32 ((src + carryIn) % 2 ^ 64)).bind (emitRI .add w dst)
  | .imm src, .reg carry =>
    if src = 0 then emitBoth (emitRR .movzx w .w8 carry carry) (emitRR .add w w dst carry) else none
  | _, _ => none

/-- `adc::encode`. -/
def Adc.encode (src dst carry : Operand) : Option (List Asm) :=
  match dst.view, src.width, dst.width, carry.width with
  | .reg r, .w64, .w64, .w8 => Adc.encodeAt .w64 src.view r carry.view
  | .reg r, .w32, .w32, .w8 => Adc.encodeAt .w32 src.view r carry.view
  | _, _, _, _ => none

/-- `add::encode`. -/
def Add.encode (src dst : Operand) : Option (List Asm) :=
  match src.view, dst.view with
  | .reg s, .reg d =>
    match src.width, dst.width with
    | .w64, .w64 => emitRR .add .w64 .w64 d s
    | .w32, .w32 => emitRR .add .w32 .w32 d s
    | .w16, .w16 => emitRR .add .w16 .w16 d s
    | .w8, .w8 => emitRR .add .w8 .w8 d s
    | _, _ => none
  | .imm v, .reg d =>
    match dst.width with
    | .w64 => (tryI32Signed v).bind (emitRI .add .w64 d)
    | .w32 => (tryI32Signed v).bind (emitRI .add .w32 d)
    | _ => none
  | .imm v, .mem m =>
    match src.width, dst.width with
    | .w64, .w64 => if v < i32Max then (tryI32Signed v).bind (emitMI .add (m.toIced (some .w64))) else none
    | _, _ => none
  | _, _ => none

/-- `and::encode`. -/
def And.encode (src dst : Operand) : Option (List Asm) :=
  match src.view, dst.view with
  | .imm left, .reg right =>
    match dst.width with
    | .w8 => if left > i32Max then none else emitRI .and .w8 right (asI32 left)
    | .w16 => if left > i32Max then none else emitRI .and .w16 right (asI32 left)
    | .w32 => if left > 2 ^ 32 - 1 then none else emitRI .and .w32 right (asU32 left)
    | .w64 => if left > i32Max then none else emitRI .and .w64 right (asI32 left)
    | .w128 => none
  | .imm left, .mem m =>
    match dst.width with
    | .w64 => if left > i32Max then none else emitMI .and (m.toIced (some .w64)) (asI32 left)
    | .w8 => if left > 2 ^ 8 - 1 then none else emitMI .and (m.toIced (some .w8)) (asU32 left)
    | _ => none
  | .reg left, .reg right =>
    match src.width, dst.width with
    | .w64, .w64 => emitRR .and .w64 .w64 right left
    | .w32, .w32 => emitRR .and .w32 .w32 right left
    | .w8, .w8 => emitRR .and .w8 .w8 right left
    | .w128, .w128 => emitRR .pand .w128 .w128 right left
    | _, _ => none
  | _, _ => none

/-- `cmovne::encode`.  There is no conditional move of a byte. -/
def Cmovne.encode (src dst : Operand) : Option (List Asm) :=
  match src.view, dst.view with
  | .reg s, .reg d =>
    match src.width, dst.width with
    | .w64, .w64 => emitRR .cmovne .w64 .w64 d s
    | .w32, .w32 => emitRR .cmovne .w32 .w32 d s
    | .w8, .w8 => emitRR .cmovne .w16 .w16 d s
    | _, _ => none
  | _, _ => none

/-- `cmp::encode`. -/
def Cmp.encode (left right : Operand) : Option (List Asm) :=
  match left.view, right.view with
  | .reg l, .reg r =>
    match left.width, right.width with
    | .w8, .w8 => emitRR .cmp .w8 .w8 r l
    | .w16, .w16 => emitRR .cmp .w16 .w16 r l
    | .w32, .w32 => emitRR .cmp .w32 .w32 r l
    | .w64, .w64 => emitRR .cmp .w64 .w64 r l
    | _, _ => none
  | .imm l, .reg r =>
    match left.width, right.width with
    | _, .w64 => (tryI32 l).bind (emitRI .cmp .w64 r)
    | _, .w32 => (tryI32 l).bind (emitRI .cmp .w32 r)
    | .w8, .w8 => (tryI32 l).bind (emitRI .cmp .w8 r)
    | .w16, .w16 => (tryI32 l).bind (emitRI .cmp .w16 r)
    | _, _ => none
  | _, _ => none

/-- `lea::encode`. -/
def Lea.encode (src dst : Operand) : Option (List Asm) :=
  match src.view, dst.view, src.width, dst.width with
  | .mem m, .reg d, .w64, .w64 => emitRM .lea .w64 d (m.toIced (some .w64))
  | _, _, _, _ => none

/-- `mov::encode` between registers. -/
def Mov.registers (s d : PhysicalRegister) : Width → Width → Option (List Asm)
  | .w64, .w64 => if s.isXmm then none else emitRR .mov .w64 .w64 d s
  | .w128, .w128 => emitRR .movdqa .w128 .w128 d s
  | .w8, .w8 => emitRR .mov .w8 .w8 d s
  | .w32, .w32 => if s.isXmm then emitRR .movq .w128 .w128 d s else emitRR .mov .w32 .w32 d s
  | .w16, .w16 => emitRR .mov .w16 .w16 d s
  | .w128, .w32 => emitRR .movd .w32 .w128 d s
  | .w128, .w64 => emitRR .movq .w128 .w128 d s
  | _, _ => none

/-- `mov::encode` from memory. -/
def Mov.load (m : BasedMemory) (d : PhysicalRegister) : Width → Width → Option (List Asm)
  | .w64, .w64 => if d.isXmm then none else emitRM .mov .w64 d (m.toIced none)
  | .w8, .w8 => emitRM .mov .w8 d (m.toIced none)
  | .w16, .w16 => emitRM .mov .w16 d (m.toIced none)
  | .w32, .w32 => emitRM .mov .w32 d (m.toIced none)
  | .w128, .w128 => emitRM .movdqu .w128 d (m.toIced (some .w128))
  | _, _ => none

/-- `mov::encode` from memory relative to a segment. -/
def Mov.loadSegment (m : SegmentMemory) (d : PhysicalRegister) : Width → Width → Option (List Asm)
  | .w64, .w64 => emitRM .mov .w64 d (m.toIced none)
  | .w32, .w32 => emitRM .mov .w64 d (m.toIced none)
  | _, _ => none

/-- `mov::encode` to memory. -/
def Mov.store (s : PhysicalRegister) (m : BasedMemory) : Width → Width → Option (List Asm)
  | .w8, .w8 => emitMR .mov (m.toIced none) .w8 s
  | .w16, .w16 => emitMR .mov (m.toIced none) .w16 s
  | .w32, .w32 => emitMR .mov (m.toIced none) .w32 s
  | .w64, .w64 => emitMR .mov (m.toIced none) .w64 s
  | .w128, .w128 => emitMR .movdqu (m.toIced (some .w128)) .w128 s
  | _, _ => none

/-- `mov::encode` of an immediate to memory; 64 bits are stored as two halves. -/
def Mov.storeImmediate (v : Nat) (m : BasedMemory) : Width → Width → Option (List Asm)
  | .w32, .w32 => emitMI .mov (m.toIced (some .w32)) (asU32 v)
  | .w8, .w8 => (tryU32 v).bind (emitMI .mov (m.toIced (some .w8)))
  | .w16, .w16 => (tryU32 v).bind (emitMI .mov (m.toIced (some .w16)))
  | .w64, .w64 =>
    emitBoth (emitMI .mov (m.toIced (some .w32)) (asU32 v))
      (emitMI .mov ({ m with displacement := m.displacement + 4 }.toIced (some .w32)) (asU32 (v / 2 ^ 32)))
  | _, _ => none

/-- `mov::encode` of an immediate to a register; zero is written with an exclusive or. -/
def Mov.immediate (v : Nat) (d : PhysicalRegister) : Width → Width → Option (List Asm)
  | .w8, .w8 => if v = 0 then emitRR .xor .w8 .w8 d d else (tryI32 v).bind (emitRI .mov .w8 d)
  | .w16, .w16 => if v = 0 then emitRR .xor .w16 .w16 d d else (tryI32 v).bind (emitRI .mov .w16 d)
  | .w64, .w64 =>
    if d.isGpr then
      if v = 0 then emitRR .xor .w32 .w32 d d
      else if v < i32Max then (tryI32 v).bind (emitRI .mov .w32 d)
      else emitRI .mov .w64 d v
    else if v = 0 then emitRR .pxor .w128 .w128 d d
    else none
  | .w32, .w32 =>
    if d.isGpr then if v = 0 then emitRR .xor .w32 .w32 d d else emitRI .mov .w32 d (asU32 v)
    else if v = 0 then emitRR .pxor .w128 .w128 d d
    else none
  | .w8, .w32 => if v = 0 then emitRR .xor .w32 .w32 d d else (tryI32 v).bind (emitRI .mov .w32 d)
  | .w8, .w64 => (tryI32 v).bind (emitRI .mov .w32 d)
  | .w32, .w64 => (tryI32 v).bind (emitRI .mov .w32 d)
  | .w16, .w64 => (tryI32 v).bind (emitRI .mov .w32 d)
  | _, _ => none

/-- `mov::encode`. -/
def Mov.encode (src dst : Operand) : Option (List Asm) :=
  match src.view, dst.view with
  | .reg s, .reg d => Mov.registers s d src.width dst.width
  | .mem m, .reg d => Mov.load m d src.width dst.width
  | .segment m, .reg d => Mov.loadSegment m d src.width dst.width
  | .reg s, .mem m => Mov.store s m src.width dst.width
  | .imm v, .mem m => Mov.storeImmediate v m src.width dst.width
  | .imm v, .segment m =>
    match src.width, dst.width with
    | .w32, .w32 => (tryI32 v).bind (emitMI .mov (m.toIced (some .w32)))
    | _, _ => none
  | .imm v, .reg d => Mov.immediate v d src.width dst.width
  | _, _ => none

/-- `movd::encode`. -/
def Movd.encode (src dst : Operand) : Option (List Asm) :=
  match src.view, dst.view with
  | .reg s, .reg d =>
    match src.width, dst.width with
    | .w16, .w16 | .w32, .w32 =>
      if s.isXmm then emitRR .movd .w32 .w128 d s else emitRR .movd .w128 .w32 d s
    | _, _ => none
  | _, _ => none

/-- `movq::encode`. -/
def Movq.encode (src dst : Operand) : Option (List Asm) :=
  match src.view, dst.view with
  | .reg s, .reg d =>
    match src.width, dst.width with
    | .w64, .w64 => if s.isXmm then emitRR .movq .w64 .w128 d s else emitRR .movq .w128 .w64 d s
    | .w128, .w64 => emitRR .movq .w64 .w128 d s
    | .w64, .w128 => emitRR .movq .w128 .w64 d s
    | .w32, .w32 =>
      if s.isGpr && d.isXmm then emitRR .movq .w128 .w64 d s
      else if s.isXmm && d.isGpr then emitRR .movq .w64 .w128 d s
      else none
    | _, _ => none
  | .mem m, .reg d =>
    match src.width, dst.width with
    | .w64, .w64 => if d.isXmm then emitRM .movq .w128 d (m.toIced (some .w64)) else none
    | _, _ => none
  | _, _ => none

/-- `movsx::encode`. -/
def Movsx.encode (src dst : Operand) : Option (List Asm) :=
  match src.view, dst.view with
  | .reg s, .reg d =>
    match src.width, dst.width with
    | .w32, .w64 => emitRR .movsxd .w64 .w32 d s
    | .w16, .w32 => emitRR .movsx .w32 .w16 d s
    | .w16, .w64 => emitRR .movsx .w64 .w16 d s
    | .w8, .w64 => emitRR .movsx .w64 .w8 d s
    | .w8, .w32 => emitRR .movsx .w32 .w8 d s
    | _, _ => none
  | _, _ => none

/-- `movzx::encode`. -/
def Movzx.encode (src dst : Operand) : Option (List Asm) :=
  match src.view, dst.view with
  | .imm v, .reg d =>
    match src.width, dst.width with
    | .w64, .w128 => if v = 0 then emitRR .pxor .w128 .w128 d d else none
    | .w8, .w32 => if v < 2 ^ 8 then emitRI .mov .w32 d v else none
    | .w8, .w64 => if v < 2 ^ 8 then emitRI .mov .w32 d v else none
    | .w16, .w64 => emitRI .mov .w32 d (asI32 v)
    | .w16, .w32 => emitRI .mov .w32 d (asI32 v)
    | .w32, .w64 => emitRI .mov .w32 d (asI32 v)
    | _, _ => none
  | .reg s, .reg d =>
    match src.width, dst.width with
    | .w8, .w32 => emitRR .movzx .w32 .w8 d s
    | .w8, .w64 => emitRR .movzx .w64 .w8 d s
    | .w8, .w16 => emitRR .movzx .w16 .w8 d s
    | .w16, .w32 => emitRR .movzx .w32 .w16 d s
    | .w16, .w64 => emitRR .movzx .w64 .w16 d s
    | .w32, .w64 => emitRR .mov .w32 .w32 d s
    | _, _ => none
  | _, _ => none

/-- `not::encode`.  A vector is inverted with the help of `xmm8`. -/
def Not.encode (dst : Operand) : Option (List Asm) :=
  match dst.view with
  | .reg value =>
    match dst.width with
    | .w128 => do
      let value ← value.tryInto .w128
      some [⟨.pcmpeqd, [.reg ⟨.xmm8, .w128⟩, .reg ⟨.xmm8, .w128⟩]⟩, ⟨.pxor, [.reg value, .reg ⟨.xmm8, .w128⟩]⟩]
    | .w64 => emitR .not .w64 value
    | .w32 => emitR .not .w32 value
    | .w16 => emitR .not .w16 value
    | .w8 => emitR .not .w8 value
  | _ => none

/-- `or::encode`. -/
def Or.encode (src dst : Operand) : Option (List Asm) :=
  match src.view, dst.view with
  | .imm left, .reg right =>
    match src.width, dst.width with
    | .w8, .w8 => (tryI32 left).bind (emitRI .or .w8 right)
    | .w8, .w32 => (tryI32 left).bind (emitRI .or .w32 right)
    | .w32, .w32 => if left ≤ 2 ^ 32 - 1 then emitRI .or .w32 right (asU32 left) else none
    | .w64, .w64 => if left < i32Max then emitRI .or .w64 right (asI32 left) else none
    | _, _ => none
  | .reg left, .reg right =>
    match src.width, dst.width with
    | .w8, .w8 => emitRR .or .w8 .w8 right left
    | .w16, .w16 => emitRR .or .w16 .w16 right left
    | .w32, .w32 => emitRR .or .w32 .w32 right left
    | .w64, .w64 => emitRR .or .w64 .w64 right left
    | .w128, .w128 => emitRR .por .w128 .w128 right left
    | _, _ => none
  | _, _ => none

/-- `ptwrite::encode`. -/
def Ptwrite.encode (data : Operand) : Option (List Asm) :=
  match data.view, data.width with
  | .reg r, .w64 => emitR .ptwrite .w64 r
  | _, _ => none

/-- `setne::encode`.  The exclusive or comes between the comparison and the use of its flags. -/
def Setne.encode (dst : Operand) : Option (List Asm) :=
  match dst.view, dst.width with
  | .reg target, .w64 => emitBoth (emitRR .xor .w32 .w32 target target) (emitR .setne .w8 target)
  | .reg target, .w8 => emitR .setne .w8 target
  | _, _ => none

/-- `shl::encode` by an immediate; a shift by the width or more gives zero. -/
def Shl.immediate (w : Width) (amount : Nat) (value : PhysicalRegister) : Option (List Asm) :=
  if amount ≥ w.bits then emitRR .xor w w value value else (tryU32 amount).bind (emitRI .shl w value)

/-- `shl::encode`. -/
def Shl.encode (amount value : Operand) : Option (List Asm) :=
  match amount.view, value.view with
  | .imm n, .reg v =>
    match value.width with
    | .w8 => Shl.immediate .w8 n v
    | .w16 => Shl.immediate .w16 n v
    | .w32 => Shl.immediate .w32 n v
    | .w64 => Shl.immediate .w64 n v
    | .w128 => if n % 8 = 0 then (tryU32 (n / 8)).bind (emitRI .pslldq .w128 v) else none
  | .reg .rcx, .reg v =>
    match amount.width, value.width with
    | .w8, .w64 => emitRR .shl .w64 .w8 v .rcx
    | .w8, .w32 => emitRR .shl .w32 .w8 v .rcx
    | _, _ => none
  | _, _ => none

/-- `shr::encode`. -/
def Shr.encode (amount value : Operand) : Option (List Asm) :=
  match amount.view, value.view with
  | .imm n, .reg v =>
    match value.width with
    | .w8 => (tryU32 n).bind (emitRI .shr .w8 v)
    | .w16 => (tryU32 n).bind (emitRI .shr .w16 v)
    | .w32 => (tryU32 n).bind (emitRI .shr .w32 v)
    | .w64 => (tryU32 n).bind (emitRI .shr .w64 v)
    | .w128 => if n % 8 ≠ 0 then none else (tryU32 (n / 8)).bind (emitRI .psrldq .w128 v)
  | .reg .rcx, .reg v =>
    match amount.width, value.width with
    | .w8, .w64 => if v = .rcx then none else emitRR .shr .w64 .w8 v .rcx
    | .w8, .w32 => if v = .rcx then none else emitRR .shr .w32 .w8 v .rcx
    | _, _ => none
  | _, _ => none

/-- `sub::encode`. -/
def Sub.encode (src dst : Operand) : Option (List Asm) :=
  match src.view, dst.view with
  | .imm v, .reg d =>
    match src.width, dst.width with
    | _, .w64 => (tryI32 v).bind (emitRI .sub .w64 d)
    | _, .w32 => (tryI32 v).bind (emitRI .sub .w32 d)
    | .w64, .w8 => (tryI32 v).bind (emitRI .sub .w8 d)
    | .w8, .w8 => (tryI32 v).bind (emitRI .sub .w8 d)
    | .w16, .w16 => (tryI32 v).bind (emitRI .sub .w16 d)
    | _, _ => none
  | .reg s, .reg d =>
    match src.width, dst.width with
    | .w32, .w32 => emitRR .sub .w32 .w32 d s
    | .w64, .w64 => emitRR .sub .w64 .w64 d s
    | _, _ => none
  | _, _ => none

/-- `test::encode`. -/
def Test.encode (src dst : Operand) : Option (List Asm) :=
  match src.view, dst.view with
  | .reg left, .reg right =>
    match src.width, dst.width with
    | .w64, .w64 => emitRR .test .w64 .w64 left right
    | .w8, .w8 => emitRR .test .w8 .w8 left right
    | .w32, .w32 => emitRR .test .w32 .w32 left right
    | _, _ => none
  | _, _ => none

/-- `xor::encode`. -/
def Xor.encode (src dst : Operand) : Option (List Asm) :=
  match src.view, dst.view with
  | .reg s, .reg d =>
    match src.width, dst.width with
    | .w64, .w64 => emitRR .xor .w64 .w64 d s
    | .w128, .w128 => emitRR .pxor .w128 .w128 d s
    | .w32, .w32 => emitRR .xor .w32 .w32 d s
    | .w8, .w8 => emitRR .xor .w8 .w8 d s
    | _, _ => none
  | .imm v, .reg d =>
    match src.width, dst.width with
    | .w64, .w64 => (tryI32 v).bind (emitRI .xor .w64 d)
    | .w32, .w32 => (tryU32 v).bind (emitRI .xor .w32 d)
    | _, _ => none
  | _, _ => none

/-! ### `Instruction::encode` -/

/-- A jump to a block, for which there must be a label. -/
def encodeJump (m : Mnemonic) (labels : BlockRef → Option CodeLabel) (block : BlockRef) : Option (List Asm) := do
  let label ← labels block
  some [⟨m, [.label label]⟩]

/-- `set` of a register, at any width. -/
def encodeSet (m : Mnemonic) (dst : Operand) : Option (List Asm) :=
  match dst.view with
  | .reg d => emitR m .w8 d
  | _ => none

/-- `set` of a register at any width, or of a byte in memory. -/
def encodeSetOrStore (m : Mnemonic) (dst : Operand) : Option (List Asm) :=
  match dst.view with
  | .reg d => emitR m .w8 d
  | .mem mem =>
    match dst.width with
    | .w8 => emitM m (mem.toIced none)
    | _ => none
  | _ => none

/-- `set` of a byte register. -/
def encodeSetByte (m : Mnemonic) (dst : Operand) : Option (List Asm) :=
  match dst.view, dst.width with
  | .reg d, .w8 => emitR m .w8 d
  | _, _ => none

/-- An instruction with one 64-bit register. -/
def encodeR64 (m : Mnemonic) (op : Operand) : Option (List Asm) :=
  match op.view, op.width with
  | .reg r, .w64 => emitR m .w64 r
  | _, _ => none

/-- An instruction between registers whose operands have the given widths, assembled at the widths `wd` and `ws`. -/
def encodeRegisters (m : Mnemonic) (srcWidth dstWidth wd ws : Width) (src dst : Operand) : Option (List Asm) :=
  match src.view, dst.view with
  | .reg s, .reg d => if src.width = srcWidth ∧ dst.width = dstWidth then emitRR m wd ws d s else none
  | _, _ => none

/-- The opcodes with one operand. -/
def Op1.encode (labels : BlockRef → Option CodeLabel) (op : Op1) (a : Operand) : Option (List Asm) :=
  match op with
  | .setne => Setne.encode a
  | .not => Not.encode a
  | .ptwrite => Ptwrite.encode a
  | .jne =>
    match a.view with
    | .target block => encodeJump .jne labels block
    | _ => none
  | .je =>
    match a.view with
    | .target block => encodeJump .je labels block
    | _ => none
  | .jmp =>
    match a.view with
    | .target block => encodeJump .jmp labels block
    | .mem m => emitM .jmp (m.toIced (some .w64))
    | _ => none
  | .seta => encodeSet .seta a
  | .setg => encodeSet .setg a
  | .setae => encodeSet .setae a
  | .setge => encodeSet .setge a
  | .sete => encodeSetOrStore .sete a
  | .seto => encodeSetOrStore .seto a
  | .setc => encodeSetOrStore .setc a
  | .sets => encodeSetOrStore .sets a
  | .setb => encodeSetByte .setb a
  | .setnz => encodeSetByte .setnz a
  | .setbe => encodeSetByte .setbe a
  | .setle => encodeSetByte .setle a
  | .setl => encodeSetByte .setl a
  | .neg =>
    match a.view with
    | .reg r => emitR .neg .w64 r
    | _ => none
  | .int =>
    match a.view with
    | .imm n => (tryI32 n).bind fun n => some [⟨.int, [.imm n]⟩]
    | _ => none
  | .push => encodeR64 .push a
  | .pop => encodeR64 .pop a
  | .idiv => encodeR64 .idiv a
  | .div => encodeR64 .div a
  | .inc =>
    match a.view, a.width with
    | .segment m, .w64 => emitM .inc (m.toIced (some .w64))
    | _, _ => none

/-- `SAR`.  The assembler takes the amount from `cl` only. -/
def Sar.encode (amount value : Operand) : Option (List Asm) :=
  match amount.view, value.view with
  | .reg .rcx, .reg v =>
    match amount.width, value.width with
    | .w8, .w64 => emitRR .sar .w64 .w8 v .rcx
    | .w8, .w32 => emitRR .sar .w32 .w8 v .rcx
    | _, _ => none
  | .imm n, .reg v =>
    match amount.width, value.width with
    | .w64, .w64 => (tryI32 n).bind (emitRI .sar .w64 v)
    | .w64, .w32 => (tryI32 n).bind (emitRI .sar .w32 v)
    | _, _ => none
  | _, _ => none

/-- `IMUL`. -/
def Imul.encode (src dst : Operand) : Option (List Asm) :=
  match src.view, dst.view with
  | .imm left, .reg d =>
    match src.width, dst.width with
    | .w64, .w64 => (tryI32 left).bind (emitRRI .imul3 .w64 .w64 d d)
    | _, _ => none
  | .reg s, .reg d =>
    match src.width, dst.width with
    | .w64, .w64 => emitRR .imul2 .w64 .w64 d s
    | _, _ => none
  | _, _ => none

/-- `CMPXCHG`. -/
def Cmpxchg.encode (src dst : Operand) : Option (List Asm) :=
  match src.view, dst.view with
  | .reg s, .mem m =>
    match src.width, dst.width with
    | .w64, .w64 => emitMR .cmpxchg (m.toIced (some .w64)) .w64 s
    | .w32, .w32 => emitMR .cmpxchg (m.toIced (some .w32)) .w32 s
    | .w8, .w8 => emitMR .cmpxchg (m.toIced (some .w8)) .w8 s
    | _, _ => none
  | _, _ => none

/-- `OUT`.  The assembler takes the value from `al` only. -/
def Out.encode (port value : Operand) : Option (List Asm) :=
  match port.view, value.view with
  | .imm n, .reg .rax =>
    match port.width, value.width with
    | .w8, .w8 => (tryI32 n).bind fun n => some [⟨.out, [.imm n, .reg ⟨.phys .rax, .w8⟩]⟩]
    | _, _ => none
  | _, _ => none

/-- `CVTSI2SD`. -/
def Cvtsi2sd.encode (src dst : Operand) : Option (List Asm) :=
  match src.width with
  | .w64 => encodeRegisters .cvtsi2sd .w64 .w64 .w128 .w64 src dst
  | .w32 => encodeRegisters .cvtsi2sd .w32 .w64 .w128 .w32 src dst
  | _ => none

/-- `CVTSI2SS`. -/
def Cvtsi2ss.encode (src dst : Operand) : Option (List Asm) :=
  match src.width with
  | .w32 => encodeRegisters .cvtsi2ss .w32 .w32 .w128 .w32 src dst
  | .w64 => encodeRegisters .cvtsi2ss .w64 .w32 .w128 .w64 src dst
  | _ => none

/-- `CVTSD2SI`. -/
def Cvtsd2si.encode (src dst : Operand) : Option (List Asm) :=
  match dst.width with
  | .w32 => encodeRegisters .cvtsd2si .w64 .w32 .w32 .w128 src dst
  | .w64 => encodeRegisters .cvtsd2si .w64 .w64 .w64 .w128 src dst
  | _ => none

/-- `SUBPS`, which looks at no width. -/
def Subps.encode (src dst : Operand) : Option (List Asm) :=
  match src.view, dst.view with
  | .reg s, .reg d => emitRR .subps .w128 .w128 d s
  | _, _ => none

/-- The opcodes with two operands. -/
def Op2.encode (op : Op2) (a b : Operand) : Option (List Asm) :=
  match op with
  | .mov => Mov.encode a b
  | .movzx => Movzx.encode a b
  | .movsx => Movsx.encode a b
  | .movd => Movd.encode a b
  | .movq => Movq.encode a b
  | .shl => Shl.encode a b
  | .shr => Shr.encode a b
  | .and => And.encode a b
  | .lea => Lea.encode a b
  | .add => Add.encode a b
  | .sub => Sub.encode a b
  | .test => Test.encode a b
  | .or => Or.encode a b
  | .cmp => Cmp.encode a b
  | .xor => Xor.encode a b
  | .cmovne => Cmovne.encode a b
  | .sar => Sar.encode a b
  | .cmove => encodeRegisters .cmove .w64 .w64 .w64 .w64 a b
  | .mulpd => encodeRegisters .mulpd .w64 .w64 .w128 .w128 a b
  | .mulps => encodeRegisters .mulps .w32 .w32 .w128 .w128 a b
  | .addpd => encodeRegisters .addpd .w64 .w64 .w128 .w128 a b
  | .addps => encodeRegisters .addps .w32 .w32 .w128 .w128 a b
  | .subpd => encodeRegisters .subpd .w64 .w64 .w128 .w128 a b
  | .divpd => encodeRegisters .divpd .w64 .w64 .w128 .w128 a b
  | .divps => encodeRegisters .divps .w32 .w32 .w128 .w128 a b
  | .subps => Subps.encode a b
  | .imul => Imul.encode a b
  | .out => Out.encode a b
  | .punpckl => encodeRegisters .punpcklqdq .w128 .w128 .w128 .w128 a b
  | .punpcklwd => encodeRegisters .punpcklqdq .w128 .w128 .w128 .w128 a b
  | .punpcklqdq => encodeRegisters .punpcklqdq .w128 .w128 .w128 .w128 a b
  | .cmpxchg => Cmpxchg.encode a b
  | .cvtsi2sd => Cvtsi2sd.encode a b
  | .cvtss2si => encodeRegisters .cvtss2si .w32 .w64 .w64 .w128 a b
  | .cvtsi2ss => Cvtsi2ss.encode a b
  | .cvtsd2si => Cvtsd2si.encode a b
  | .cvtss2sd => encodeRegisters .cvtss2sd .w32 .w64 .w128 .w128 a b
  | .cvttss2si => encodeRegisters .cvttss2si .w32 .w32 .w32 .w128 a b
  | .cvtsd2ss => encodeRegisters .cvtsd2ss .w64 .w32 .w128 .w128 a b
  | .sqrtsd => encodeRegisters .sqrtsd .w64 .w64 .w128 .w128 a b
  | .sqrtss => none

/-- `SHRD(amount, hi, lo)`. -/
def Shrd.encode (amount hi lo : Operand) : Option (List Asm) :=
  match amount.view, hi.view, lo.view with
  | .imm n, .reg h, .reg l =>
    match hi.width, lo.width with
    | .w64, .w64 => (tryI32 n).bind (emitRRI .shrd .w64 .w64 l h)
    | _, _ => none
  | _, _, _ => none

/-- `MUL` and `IMUL1`; the two halves of the product must be `rdx` and `rax`. -/
def encodeMul (m : Mnemonic) (src dstLo dstHi : Operand) : Option (List Asm) :=
  match src.view, dstLo.view, dstHi.view with
  | .reg s, .reg lo, .reg hi =>
    match src.width, dstLo.width, dstHi.width with
    | .w64, .w64, .w64 => if hi = .rdx ∧ lo = .rax then emitR m .w64 s else none
    | _, _, _ => none
  | _, _, _ => none

/-- `BEXTR(ctrl, src, dst)`. -/
def Bextr.encode (ctrl src dst : Operand) : Option (List Asm) :=
  match ctrl.view, src.view, dst.view with
  | .reg c, .reg s, .reg d =>
    match ctrl.width, src.width, dst.width with
    | .w64, .w64, .w64 => do
      let d ← d.tryInto .w64
      let s ← s.tryInto .w64
      let c ← c.tryInto .w64
      some [⟨.bextr, [.reg d, .reg s, .reg c]⟩]
    | _, _, _ => none
  | _, _, _ => none

/-- `PINSR(index, src, dst)`. -/
def Pinsr.encode (index src dst : Operand) : Option (List Asm) :=
  match index.view, src.view, dst.view with
  | .imm n, .reg s, .reg d =>
    match index.width, src.width, dst.width with
    | .w8, .w16, .w128 => (tryI32 n).bind (emitRRI .pinsrw .w128 .w32 d s)
    | .w8, .w32, .w128 => (tryI32 n).bind (emitRRI .pinsrd .w128 .w32 d s)
    | .w8, .w64, .w128 => (tryI32 n).bind (emitRRI .pinsrq .w128 .w64 d s)
    | .w8, .w8, .w128 => (tryI32 n).bind (emitRRI .pinsrb .w128 .w32 d s)
    | _, _, _ => none
  | _, _, _ => none

/-- `PEXTR(index, src, dst)`. -/
def Pextr.encode (index src dst : Operand) : Option (List Asm) :=
  match index.view, src.view, dst.view with
  | .imm n, .reg s, .reg d =>
    match index.width, src.width, dst.width with
    | .w8, .w128, .w64 => (tryI32 n).bind (emitRRI .pextrq .w64 .w128 d s)
    | _, _, _ => none
  | _, _, _ => none

/-- `PSHUFLW(src, dst, select)`; only the selector 0 is there. -/
def Pshuflw.encode (src dst select : Operand) : Option (List Asm) :=
  match src.view, dst.view, select.view with
  | .reg s, .reg d, .imm n =>
    match src.width, dst.width, select.width with
    | .w128, .w128, .w8 => if n = 0 then emitRRI .pshuflw .w128 .w128 d s 0 else none
    | _, _, _ => none
  | _, _, _ => none

/-- `CMPPD` and `CMPPS`, whose registers are operands of the width `w`. -/
def encodeCompare (m : Mnemonic) (w : Width) (src dst predicate : Operand) : Option (List Asm) :=
  match src.view, dst.view, predicate.view with
  | .reg s, .reg d, .imm n =>
    if src.width = w ∧ dst.width = w ∧ predicate.width = .w8 then (tryI32 n).bind (emitRRI m .w128 .w128 d s) else none
  | _, _, _ => none

/-- The opcodes with three operands. -/
def Op3.encode (op : Op3) (a b c : Operand) : Option (List Asm) :=
  match op with
  | .adc => Adc.encode a b c
  | .shrd => Shrd.encode a b c
  | .shld => none
  | .mul => encodeMul .mul a b c
  | .imul1 => encodeMul .imul a b c
  | .cmppd => encodeCompare .cmppd .w64 a b c
  | .cmpps => encodeCompare .cmpps .w32 a b c
  | .bextr => Bextr.encode a b c
  | .pextr => Pextr.encode a b c
  | .pinsr => Pinsr.encode a b c
  | .pshuflw => Pshuflw.encode a b c

/-- **`Instruction::encode`**. -/
def Opcode.encode (labels : BlockRef → Option CodeLabel) : Opcode → Option (List Asm)
  | .op0 .dead | .op0 .label => some []
  | .op0 .nop => some [⟨.nop, []⟩]
  | .op0 .ret => some [⟨.ret, []⟩]
  | .op0 .cqo => some [⟨.cqo, []⟩]
  | .op1 op a => op.encode labels a
  | .op2 op a b => op.encode a b
  | .op3 op a b c => op.encode a b c
  | .call function _ _ => encodeR64 .call function

end Icewind.X86
