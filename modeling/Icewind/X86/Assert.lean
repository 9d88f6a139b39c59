import Icewind.X86.Encode
import Icewind.X86.Machine
import Icewind.X86.Nodes

/-!
# Assertions

`X86Emitter::assert` (`brig/dbt/src/x86/emitter/mod.rs`), as it is encoded.

* `Asm.exec` — one host instruction, on the registers and the zero flag.
* `assertCode` — the instructions, with the register that holds the negated condition.
* `Condition.Sound` — what has to hold where a condition is zero.
* `asserts_iff` — there the panic block is reached exactly if the condition is zero, and nowhere else.
* `not_asserts_zero` — a zero is moved to R15 by `xor`, between the test and the jump.
-/

namespace Icewind.X86

open Option Operand

structure AsmMachine extends Machine where
  zero : Bool

inductive Exit where
  | next
  | jump (l : CodeLabel)
  | interrupt (n : Int)

namespace Asm

/-- A source, at the width of the destination. -/
def source (m : Machine) (w : Width) : AsmOperand → Option Nat
  | .imm v => some (v % 2 ^ w.bits).toNat
  | .reg ⟨.phys r, _⟩ => m.read (.preg w r)
  | _ => none

/-- What is written to the destination, if it is, and the zero flag. -/
def result (zero : Bool) (old value : Nat) : Mnemonic → Option (Option Nat × Bool)
  | .mov => some (some value, zero)
  | .and => some (some (old &&& value), old &&& value = 0)
  | .xor => some (some (old ^^^ value), old ^^^ value = 0)
  | .cmp => some (none, old = value)
  | .test => some (none, old &&& value = 0)
  | _ => none

/-- `none` is an instruction that is not modelled. -/
def exec (c : AsmMachine) : Asm → Option (Exit × AsmMachine)
  | ⟨.jne, [.label l]⟩ => some (if c.zero then .next else .jump l, c)
  | ⟨.int, [.imm n]⟩ => some (.interrupt n, c)
  | ⟨.sete, [.reg ⟨.phys r, w⟩]⟩ => (c.write (preg w r) c.zero.toNat).map fun m => (.next, ⟨m, c.zero⟩)
  | ⟨op, [.reg ⟨.phys r, w⟩, src]⟩ => do
    let value ← source c.toMachine w src
    let (new, zero) ← result c.zero (c.registers (.physical r) % 2 ^ w.bits) value op
    let m ← match new with
      | none => some c.toMachine
      | some new => c.write (preg w r) new
    some (.next, ⟨m, zero⟩)
  | _ => none

def run : List Asm → AsmMachine → Option (Exit × AsmMachine)
  | [], c => some (.next, c)
  | a :: rest, c => do
    match ← a.exec c with
    | (.next, c) => run rest c
    | left => some left

end Asm

/-- The node of a condition, with the width of its type: a constant, or a value in an operand. -/
inductive Condition where
  | constant (value width : Nat)
  | operand (value : Operand) (width : Nat)

/-- The value of the condition, at the width of its type. -/
def Condition.value (c : AsmMachine) : Condition → Option Nat
  | .constant value width => some (value % 2 ^ width)
  | .operand value width => (c.read value).map (· % 2 ^ width)

/-- `assert`, with the case of `Not` in `unary_operation_to_operand`, for which `dst` is allocated. -/
def assertCode (condition : Condition) (dst : PhysicalRegister) (metadata : Nat) (panicBlock : BlockRef) :
    Option (List Opcode) :=
  match condition with
  | .constant value _ => some (if value = 0 then [.op1 .int (imm .w8 0x52)] else [])
  | .operand value width => do
    let width ← Width.fromUncanonicalized width
    let dst := preg width dst
    some [.op2 .cmp (imm width 0) value, .op1 .sete dst, .op2 .and (imm width 1) dst,
      .op2 .test dst dst, .op2 .mov (imm .w64 metadata) (preg .w64 .r15), .jne (target panicBlock)]

/-- From the state, the encoded instructions go to the panic block, or stop with the interrupt, exactly if the condition
is zero, and then with the metadata in R15. -/
def Asserts (condition : Condition) (dst : PhysicalRegister) (metadata : Nat) (c : AsmMachine) : Prop :=
  ∀ labels panicBlock l, labels panicBlock = some l →
    ∃ code, (assertCode condition dst metadata panicBlock).bind (·.mapM (·.encode labels)) = some code ∧
      ∃ e c', Asm.run code.flatten c = some (e, c') ∧
        if condition.value c = some 0 then
          (e = .jump l ∨ e = .interrupt 0x52) ∧ c'.registers (.physical .r15) = metadata
        else e = .next

/-- There is code for the test of a condition in the operand: a general register at a width at which it is compared, for
a type that is tested at 8, 32 or 64 bits. -/
def Testable (value : Operand) (width : Nat) : Prop :=
  ∃ w vw r, Width.fromUncanonicalized width = some w ∧ (w = .w8 ∨ w = .w32 ∨ w = .w64) ∧
    value = preg vw r ∧ r.isGpr ∧ (vw = .w32 ∨ vw = .w64 ∨ vw = w)

/-- What has to hold where the condition is zero: an operand is zero as a whole, also above the width of the type, and
the metadata is not zero; a constant has no bits above its width, and R15 has the metadata already. -/
def Condition.Sound (metadata : Nat) (c : AsmMachine) : Condition → Prop
  | .constant value width => value % 2 ^ width = 0 → value = 0 ∧ c.registers (.physical .r15) = metadata
  | .operand value width => Testable value width ∧
      ((c.read value).map (· % 2 ^ width) = some 0 → c.read value = some 0 ∧ metadata ≠ 0)

variable {metadata : Nat} {r dst : PhysicalRegister} {w vw : Width}

/-- Metadata is moved, at 32 bits if it fits, and the flag stays for the jump unless it is zero. -/
theorem encode_metadata (hlt : metadata < 2 ^ 64) (l : CodeLabel) : ∃ code,
    Mov.encode (imm .w64 metadata) (preg .w64 .r15) = some code ∧ ∀ m zero, ∃ c' : AsmMachine,
      c'.registers (.physical .r15) = metadata ∧ Asm.run (code ++ [⟨.jne, [.label l]⟩]) ⟨m, zero⟩ =
        some (if zero ∨ metadata = 0 then .next else .jump l, c') := by
  have hset (m : Machine) {w : Width} (hw : metadata < 2 ^ w.bits) : (m.set (.physical .r15)
      (((metadata : Int) % 2 ^ w.bits).toNat % 2 ^ w.bits)).registers (.physical .r15) = metadata := by
    have hcast : ((metadata : Int) % 2 ^ w.bits).toNat = metadata % 2 ^ w.bits := by norm_cast
    simp [Machine.set, hcast, Nat.mod_eq_of_lt hw]
  show ∃ code, (if metadata = 0 then _ else if metadata < i32Max then (tryI32 metadata).bind _ else _) = some code ∧ _
  by_cases hzero : metadata = 0
  · subst hzero
    rw [if_pos rfl]
    refine ⟨_, rfl, fun m zero => ⟨⟨m.set (.physical .r15) 0, true⟩, by simp [Machine.set], ?_⟩⟩
    simp [Asm.run, Asm.exec, Asm.source, Asm.result, Machine.read, Machine.write, preg]
  rw [if_neg hzero]
  by_cases h : metadata < i32Max
  · have hlt : metadata < 2 ^ 31 := h.trans (by decide)
    rw [if_pos h, tryI32, if_pos hlt]
    refine ⟨_, rfl, fun m zero => ⟨⟨_, zero⟩, hset m (w := .w32) (hlt.trans (by decide)), ?_⟩⟩
    simp only [hzero, or_false]
    cases zero <;> rfl
  · rw [if_neg h]
    refine ⟨_, rfl, fun m zero => ⟨⟨_, zero⟩, hset m (w := .w64) hlt, ?_⟩⟩
    simp only [hzero, or_false]
    cases zero <;> rfl

/-- The condition is compared, negated and tested. -/
def testCode (vw w : Width) (r dst : PhysicalRegister) : List Asm :=
  let d := .reg ⟨.phys dst, w⟩
  [⟨.cmp, [.reg ⟨.phys r, vw⟩, .imm 0]⟩, ⟨.sete, [.reg ⟨.phys dst, .w8⟩]⟩, ⟨.and, [d, .imm 1]⟩, ⟨.test, [d, d]⟩]

theorem run_testCode (vw : Width) (r dst : PhysicalRegister) (c : AsmMachine) (hw : w.bits ≤ 64) (rest : List Asm) : ∃ m : Machine,
    Asm.run (testCode vw w r dst ++ rest) c = Asm.run rest ⟨m, c.registers (.physical r) % 2 ^ vw.bits ≠ 0⟩ := by
  generalize hflag : decide (c.registers (.physical r) % 2 ^ vw.bits = 0) = flag
  obtain ⟨m1, hwrite1, hread1, -⟩ := c.write_register (w := .w8) (.physical dst) (by decide) flag.toNat
  obtain ⟨m2, hwrite2, hread2, -⟩ := m1.write_register (.physical dst) hw flag.toNat
  have hlow : m1.registers (.physical dst) % 2 ^ w.bits % 2 = flag.toNat := by
    have hbyte : m1.registers (.physical dst) % 256 = flag.toNat % 256 := some.inj hread1
    have := flag.toNat_lt
    rw [Nat.mod_mod_of_dvd _ (by cases w <;> decide)]
    omega
  have hone : ((1 : Int) % 2 ^ w.bits).toNat = 1 := by cases w <;> decide
  have hnot : decide (flag.toNat % 2 ^ w.bits = 0) = !flag := by cases w <;> cases flag <;> decide
  have hread : m2.registers (.physical dst) % 2 ^ w.bits = flag.toNat % 2 ^ w.bits := some.inj hread2
  refine ⟨m2, ?_⟩
  simp [testCode, Asm.run, Asm.exec, Asm.source, Asm.result, hflag, hone, hlow, preg, hwrite1, hwrite2, Machine.read,
    hread, hnot]

theorem PhysicalRegister.tryInto_gpr (hr : r.isGpr) (hw : w ≠ .w128) : r.tryInto w = some ⟨.phys r, w⟩ := by
  have hxmm : r.isXmm = false := by simpa [isGpr] using hr
  rw [tryInto, hxmm, if_pos (by simp [hw])]

theorem PhysicalRegister.isGpr_of_tryInto {a : AsmRegister} (hw : w ≠ .w128) (h : r.tryInto w = some a) : r.isGpr := by
  unfold tryInto at h
  split at h
  · rename_i hxmm
    simp [isGpr, hxmm, hw]
  · cases h

/-- What can be compared with an immediate zero. -/
theorem encode_cmp {value : Operand} {code : List Asm} (h : Cmp.encode (imm w 0) value = some code) :
    ∃ vw r, value = preg vw r ∧ r.isGpr ∧ (vw = .w32 ∨ vw = .w64 ∨ vw = w) := by
  have hemit : ∀ {v : Width} {r : PhysicalRegister} {code}, v ≠ .w128 →
      (tryI32 0).bind (emitRI .cmp v r) = some code → r.isGpr := by
    intro v r code hv h
    obtain ⟨a, ha, -⟩ := bind_eq_some_iff.mp (show (r.tryInto v).bind _ = some code from h)
    exact PhysicalRegister.isGpr_of_tryInto hv ha
  obtain ⟨kind, width⟩ := value
  unfold Cmp.encode at h
  cases hview : Operand.view ⟨kind, width⟩ with
  | reg r =>
    rw [hview] at h
    have hkind : kind = .register (.physical r) := by
      unfold view at hview
      split at hview <;> cases hview
      assumption
    subst hkind
    refine ⟨width, r, rfl, ?_⟩
    cases width with
    | w64 => exact ⟨hemit (by decide) h, .inr (.inl rfl)⟩
    | w32 => exact ⟨hemit (by decide) h, .inl rfl⟩
    | w8 =>
      cases w with
      | w8 => exact ⟨hemit (by decide) h, .inr (.inr rfl)⟩
      | _ => cases h
    | w16 =>
      cases w with
      | w16 => exact ⟨hemit (by decide) h, .inr (.inr rfl)⟩
      | _ => cases h
    | w128 => cases w <;> cases h
  | _ =>
    rw [hview] at h
    cases h

/-- **Only testable operands are encoded.** -/
theorem testable_of_encode {value : Operand} {width : Nat} {labels : BlockRef → Option CodeLabel}
    {panicBlock : BlockRef} {code : List (List Asm)}
    (h : (assertCode (.operand value width) dst metadata panicBlock).bind (·.mapM (·.encode labels)) = some code) :
    Testable value width := by
  obtain ⟨is, his, hcode⟩ := bind_eq_some_iff.mp h
  obtain ⟨w, hw, his⟩ := bind_eq_some_iff.mp his
  cases his
  simp only [List.mapM_cons, bind_eq_bind, bind_eq_some_iff] at hcode
  obtain ⟨cmp, hcmp, _, ⟨sete, hsete, _, ⟨and, hand, _, ⟨test, htest, _⟩, _⟩, _⟩, _⟩ := hcode
  obtain ⟨vw, r, hvalue, hr, hvw⟩ := encode_cmp hcmp
  refine ⟨w, vw, r, hw, ?_, hvalue, hr, hvw⟩
  cases w with
  | w8 => exact .inl rfl
  | w32 => exact .inr (.inl rfl)
  | w64 => exact .inr (.inr rfl)
  | w16 | w128 => cases htest

/-- **The code for an operand** jumps exactly if the operand is zero and the metadata is not. -/
theorem run_assertCode {value : Operand} {width : Nat} (hvalue : Testable value width) (hdst : dst.isGpr)
    (hlt : metadata < 2 ^ 64) (c : AsmMachine) (labels : BlockRef → Option CodeLabel) (panicBlock : BlockRef)
    {l : CodeLabel} (hl : labels panicBlock = some l) :
    ∃ code c', (assertCode (.operand value width) dst metadata panicBlock).bind (·.mapM (·.encode labels)) = some code ∧
      Asm.run code.flatten c = some (if c.read value = some 0 ∧ metadata ≠ 0 then .jump l else .next, c') ∧
      c'.registers (.physical .r15) = metadata := by
  obtain ⟨w, vw, r, hwidth, hw, rfl, hr, hvw⟩ := hvalue
  obtain ⟨mov, hmov, hrun⟩ := encode_metadata hlt l
  obtain ⟨hand, htest, hwide, hbits⟩ : And.encode (imm w 1) (preg w dst) = emitRI .and w dst 1 ∧
      Test.encode (preg w dst) (preg w dst) = emitRR .test w w dst dst ∧ w ≠ .w128 ∧ w.bits ≤ 64 := by
    rcases hw with rfl | rfl | rfl <;> exact ⟨rfl, rfl, by decide, by decide⟩
  obtain ⟨hcmp, hvwide⟩ : Cmp.encode (imm w 0) (preg vw r) = emitRI .cmp vw r 0 ∧ vw ≠ .w128 := by
    rcases hvw with rfl | rfl | rfl
    · exact ⟨by cases w <;> rfl, by decide⟩
    · exact ⟨by cases w <;> rfl, by decide⟩
    · rcases hw with rfl | rfl | rfl <;> exact ⟨rfl, by decide⟩
  have hsete : Op1.sete.encode labels (preg w dst) = emitR .sete .w8 dst := rfl
  have hjne : Op1.jne.encode labels (target panicBlock) = encodeJump .jne labels panicBlock := rfl
  have hcode : (assertCode (.operand (preg vw r) width) dst metadata panicBlock).bind (·.mapM (·.encode labels)) =
      some ((testCode vw w r dst).map ([·]) ++ [mov, [⟨.jne, [.label l]⟩]]) := by
    simp [assertCode, hwidth, Opcode.encode, Op2.encode, hcmp, hsete, hand, htest, hmov, hjne, emitRI, emitR, emitRR,
      encodeJump, PhysicalRegister.tryInto_gpr, hr, hdst, hwide, hvwide, hl, testCode]
  obtain ⟨m, htest⟩ := run_testCode vw r dst c hbits (mov ++ [⟨.jne, [.label l]⟩])
  obtain ⟨c', hr15, hrun⟩ := hrun m (c.registers (.physical r) % 2 ^ vw.bits ≠ 0)
  refine ⟨_, c', hcode, htest.trans (hrun.trans ?_), hr15⟩
  have hread : c.read (preg vw r) = some (c.registers (.physical r) % 2 ^ vw.bits) := rfl
  rw [hread]
  by_cases hzero : c.registers (.physical r) % 2 ^ vw.bits = 0 <;> by_cases hm : metadata = 0 <;> simp [hzero, hm]

theorem asserts_constant (value width : Nat) (c : AsmMachine) :
    Asserts (.constant value width) dst metadata c ↔ Condition.Sound metadata c (.constant value width) := by
  by_cases hvalue : value = 0
  · subst hvalue
    constructor
    · intro h _
      obtain ⟨code, hcode, e, c', hrun, hresult⟩ := h (fun _ => some 0) 0 0 rfl
      cases hcode
      cases hrun
      rw [if_pos (by simp [Condition.value])] at hresult
      exact ⟨rfl, hresult.2⟩
    · intro h labels panicBlock l _
      refine ⟨_, rfl, .interrupt 0x52, c, rfl, ?_⟩
      rw [if_pos (by simp [Condition.value])]
      exact ⟨.inr rfl, (h (Nat.zero_mod _)).2⟩
  · have hcode : ∀ labels panicBlock, (assertCode (.constant value width) dst metadata panicBlock).bind
        (·.mapM (·.encode labels)) = some [] := by simp [assertCode, hvalue]
    constructor
    · intro h hzero
      obtain ⟨code, hcode', e, c', hrun, hresult⟩ := h (fun _ => some 0) 0 0 rfl
      cases (hcode _ _).symm.trans hcode'
      cases hrun
      rw [if_pos (by simp [Condition.value, hzero])] at hresult
      rcases hresult.1 with he | he <;> cases he
    · intro h labels panicBlock l _
      have hne : value % 2 ^ width ≠ 0 := fun hzero => hvalue (h hzero).1
      exact ⟨[], hcode _ _, .next, c, rfl, by simp [Condition.value, hne]⟩

/-- **An assertion panics exactly if its condition is zero, exactly where the condition is sound.** -/
theorem asserts_iff (condition : Condition) (hdst : dst.isGpr) (hlt : metadata < 2 ^ 64) (c : AsmMachine) :
    Asserts condition dst metadata c ↔ condition.Sound metadata c := by
  cases condition with
  | constant value width => exact asserts_constant value width c
  | operand value width =>
    constructor
    · intro h
      obtain ⟨code, hcode, e, c', hrun, hresult⟩ := h (fun _ => some 0) 0 0 rfl
      have htestable := testable_of_encode hcode
      refine ⟨htestable, fun hzero => ?_⟩
      obtain ⟨code', c'', hcode', hrun', -⟩ := run_assertCode htestable hdst hlt c (fun _ => some 0) 0 rfl
      cases hcode.symm.trans hcode'
      obtain ⟨rfl, rfl⟩ := Prod.mk.inj (some.inj (hrun.symm.trans hrun'))
      rw [if_pos (show Condition.value c (.operand value width) = some 0 from hzero)] at hresult
      by_contra hnot
      rw [if_neg hnot] at hresult
      rcases hresult.1 with he | he <;> cases he
    · rintro ⟨htestable, hzero⟩ labels panicBlock l hl
      obtain ⟨code, c', hcode, hrun, hr15⟩ := run_assertCode htestable hdst hlt c labels panicBlock hl
      refine ⟨code, hcode, _, c', hrun, ?_⟩
      by_cases hvalue : Condition.value c (.operand value width) = some 0
      · rw [if_pos hvalue, if_pos (hzero hvalue)]
        exact ⟨.inl rfl, hr15⟩
      · rw [if_neg hvalue, if_neg]
        rintro ⟨hread, -⟩
        exact hvalue (by simp [Condition.value, hread])

/-- A one-bit condition in `al`, and the same with its complement left above it. -/
theorem asserts_iff_bit : Asserts (.operand (preg .w8 .rax) 1) .rcx 1 ⟨⟨fun _ => 0, fun _ => 0⟩, false⟩ ∧
    Asserts (.operand (preg .w8 .rax) 1) .rcx 0 ⟨⟨fun _ => 1, fun _ => 0⟩, false⟩ ∧
    ¬ Asserts (.operand (preg .w8 .rax) 1) .rcx 1 ⟨⟨fun _ => 0xfe, fun _ => 0⟩, false⟩ := by
  have htestable : Testable (preg .w8 .rax) 1 := ⟨.w8, .w8, .rax, rfl, .inl rfl, rfl, rfl, .inr (.inr rfl)⟩
  refine ⟨(asserts_iff _ rfl (by decide) _).mpr ⟨htestable, fun _ => ⟨rfl, by decide⟩⟩,
    (asserts_iff _ rfl (by decide) _).mpr ⟨htestable, fun h => absurd h (by decide)⟩, fun h => ?_⟩
  exact absurd (((asserts_iff _ rfl (by decide) _).mp h).2 rfl).1 (by decide)

/-- **With metadata zero, a condition that is zero does not panic**: the `xor` sets the flag that the jump looks at. -/
theorem not_asserts_zero : ¬ Asserts (.operand (preg .w8 .rax) 8) .rcx 0 ⟨⟨fun _ => 0, fun _ => 0⟩, false⟩ := by
  intro h
  obtain ⟨code, hcode, e, c', hrun, hpanics⟩ := h (fun _ => some 0) 0 0 rfl
  cases hcode
  cases hrun
  simp [Condition.value, Machine.read, preg] at hpanics

end Icewind.X86
