import Icewind.X86.BitExtract
import Icewind.X86.Emit
import Icewind.X86.Machine

/-!
# Replication of bits

The two ways a bit pattern is replicated: `bit_replicate` folds constants, and the case of a `BitReplicate` node in
`to_operand_inner` (`brig/dbt/src/x86/emitter/to_operand.rs`) emits shifts and ors.

* `bitReplicateToOperand` — that case, from the operands of the pattern and of the count on.
* `Node.makeBitReplicate_copies` — the loop on constants.
* `run_replicateLoop` — the emitted loop, on the machine.

Principal result: `bitReplicate_correct`.
-/

namespace Icewind.X86

open BitField List Option Instruction Emit

/-! ### The emitted code -/

/-- The loop over the copies after the first. -/
def replicateLoop (patternWidth : Nat) (pattern dest : Operand) : Nat → Emit Unit
  | 0 => pure ()
  | n + 1 => do
    pushInstruction (.op2 .shl (.imm .w8 patternWidth) dest)
    pushInstruction (.op2 .or pattern dest)
    replicateLoop patternWidth pattern dest n

/-- The product of `u32`s: overflow panics or wraps, as the build has it. -/
def mulU32 (overflowChecks : Bool) (a b : Nat) : Option Nat :=
  if a * b < 2 ^ 32 then some (a * b)
  else if overflowChecks then none else some (a * b % 2 ^ 32)

/-- Copies in a vector register, for the two shapes there are instructions for. -/
def replicateVector (pattern : Operand) (count : Nat) : Emit Operand :=
  match pattern.width, count with
  | .w16, 8 => do
    let reg ← nextVreg
    pushChecked (movd pattern (.vregXmm .w16 reg))
    let patternXmm := Operand.vregXmm .w128 reg
    pushInstruction (.op3 .pshuflw patternXmm patternXmm (.imm .w8 0))
    pushInstruction (.op2 .punpcklwd patternXmm patternXmm)
    pure patternXmm
  | .w64, 2 => do
    let reg ← nextVreg
    pushChecked (movq pattern (.vregXmm .w64 reg))
    let patternXmm := Operand.vregXmm .w128 reg
    pushInstruction (.op2 .punpcklqdq patternXmm patternXmm)
    pure patternXmm
  | _, _ => ofOption none

/-- The pattern at the width of the destination. -/
def extendPattern (pattern : Operand) (width : Width) : Emit Operand :=
  if pattern.width ≠ width then do
    let reg ← nextVreg
    let patternZx := Operand.vreg width reg
    pushChecked (movzx pattern patternZx)
    pure patternZx
  else pure pattern

/-- Copies in a general register. -/
def replicateGeneral (patternWidth : Nat) (pattern : Operand) (count : Nat) (width : Width) : Emit Operand := do
  let pattern ← extendPattern pattern width
  let reg ← nextVreg
  let dest := Operand.vreg width reg
  pushChecked (mov pattern dest)
  replicateLoop patternWidth pattern dest (count - 1)
  pure dest

/-- A `BitReplicate` node whose pattern and count have operands. -/
def bitReplicateToOperand (overflowChecks : Bool) (patternWidth : Nat) (pattern count : Operand) : Emit Operand :=
  match count.kind with
  | .immediate count =>
    if count = 0 then ofOption none
    else do
      let count32 ← ofOption (Rudder.tryU32 count)
      let product ← ofOption (mulU32 overflowChecks patternWidth count32)
      let width ← ofOption (Width.fromUncanonicalized product)
      if width = .w128 then replicateVector pattern count
      else replicateGeneral patternWidth pattern count width
  | _ => ofOption none

/-! ### Constants -/

theorem Node.replicateBits_copies {p w : Nat} (hp : p < 2 ^ w) {k : Nat} (n : Nat) (h : w * (k + n) ≤ 64) :
    Node.replicateBits p w n (copies p w k) = copies p w (k + n) := by
  induction n generalizing k with
  | zero => rfl
  | succ n ih =>
    have hfits : copies p w k <<< w < 2 ^ 64 := by
      rw [Nat.shiftLeft_eq, Nat.mul_comm]
      have hlt : 2 ^ w * copies p w k < 2 ^ w * 2 ^ (w * k) :=
        Nat.mul_lt_mul_of_pos_left (copies_lt hp k) (Nat.two_pow_pos w)
      rw [← Nat.pow_add] at hlt
      refine Nat.lt_of_lt_of_le hlt (Nat.pow_le_pow_right (by decide) ?_)
      have : w * (k + 1) ≤ w * (k + (n + 1)) := Nat.mul_le_mul_left w (by omega)
      rw [Nat.mul_add_one] at this
      omega
    rw [Node.replicateBits, Nat.mod_eq_of_lt hfits, shiftLeft_or_copies hp, ih (by rwa [Nat.add_right_comm])]
    congr 1
    omega

theorem Node.makeBitReplicate_copies {checks : Bool} {typ : Ty} {pattern count : Node} {w c p : Nat}
    (hc : 1 ≤ c) (hwc : w * c ≤ 64) (hp : p < 2 ^ w) (htyp : typ.width = some w)
    (hpattern : Node.constant p typ = some pattern) (hcount : count.IsNumber c) :
    makeBitReplicate checks pattern count = some (.const (.unsigned (w * c)) (copies p w c) (w * c)) := by
  obtain ⟨width, hwidth, hpos, rfl⟩ := constant_eq_some.mp hpattern
  obtain rfl : w = width := some.inj (htyp.symm.trans hwidth)
  have hc64 : c ≤ 64 := Nat.le_trans (Nat.le_mul_of_pos_left c (Nat.pos_of_ne_zero hpos)) hwc
  have hbits : replicateBits p w (c - 1) p = copies p w c := by
    have := replicateBits_copies hp (k := 1) (c - 1) (by rwa [Nat.add_sub_cancel' hc])
    rwa [copies_one, Nat.add_sub_cancel' hc] at this
  have hword : word checks ((w : Int) * c) = some (w * c) := by
    have := word_of_lt checks (y := w * c) (by omega)
    rwa [Nat.cast_mul] at this
  unfold makeBitReplicate
  rw [hcount.asConstant]
  dsimp only
  rw [hword, bind_eq_bind, bind_some, if_pos hwc, Rudder.tryU32, if_pos (by omega), bind_some, hbits]
  refine constant_eq_some.mpr ⟨w * c, rfl, ?_, rfl⟩
  exact Nat.mul_ne_zero hpos (by omega)

/-! ### The machine -/

/-- The instructions of the loop. -/
def loopCode (patternWidth : Nat) (pattern dest : Operand) : Nat → List Opcode
  | 0 => []
  | n + 1 =>
    .op2 .shl (.imm .w8 patternWidth) dest :: .op2 .or pattern dest :: loopCode patternWidth pattern dest n

theorem replicateLoop_eq (patternWidth : Nat) (pattern dest : Operand) (n : Nat) (e : Emitter) :
    replicateLoop patternWidth pattern dest n e =
      some ((), { e with code := e.code ++ loopCode patternWidth pattern dest n }) := by
  induction n generalizing e with
  | zero =>
    rw [loopCode, append_nil]
    rfl
  | succ n ih =>
    refine (ih _).trans ?_
    simp only [loopCode, append_assoc, cons_append, nil_append]

namespace Machine

variable {m : Machine} {r d : Register} {v w : Width} {p k : Nat}

theorem read_congr {m' : Machine} (h : m'.registers r = m.registers r) :
    m'.read ⟨.register r, w⟩ = m.read ⟨.register r, w⟩ := by
  show some (m'.registers r % _) = some (m.registers r % _)
  rw [h]

theorem effect_into {i : Opcode} {value : Nat} (hw : w.bits ≤ 64) (hne : r ≠ d)
    (hi : i.effect m = m.write ⟨.register d, w⟩ value) (hvalue : value < 2 ^ w.bits) :
    ∃ m', i.effect m = some m' ∧ m'.read ⟨.register d, w⟩ = some value ∧ m'.registers r = m.registers r := by
  obtain ⟨m', hwrite, hread, hother, -⟩ := m.write_register d hw value
  rw [Nat.mod_eq_of_lt hvalue] at hread
  exact ⟨m', hi.trans hwrite, hread, hother r hne⟩

variable {patternWidth : Nat}

section

variable (hw : w.bits ≤ 64) (hne : r ≠ d) (hp : p < 2 ^ patternWidth) (hpw : 1 ≤ patternWidth)

include hw hne hp hpw

theorem effect_round (hk : 1 ≤ k)
    (hfits : patternWidth * (k + 1) ≤ w.bits) (hpattern : m.read ⟨.register r, w⟩ = some p)
    (hdest : m.read ⟨.register d, w⟩ = some (copies p patternWidth k)) :
    ∃ m', (Opcode.effect (.op2 .shl (.imm .w8 patternWidth) ⟨.register d, w⟩) m).bind
        (Opcode.effect (.op2 .or ⟨.register r, w⟩ ⟨.register d, w⟩)) = some m' ∧
      m'.read ⟨.register r, w⟩ = some p ∧ m'.read ⟨.register d, w⟩ = some (copies p patternWidth (k + 1)) := by
  have hcopies : copies p patternWidth (k + 1) < 2 ^ w.bits :=
    Nat.lt_of_lt_of_le (copies_lt hp (k + 1)) (Nat.pow_le_pow_right (by decide) hfits)
  have hamount : patternWidth < w.bits := by
    have : patternWidth * 1 ≤ patternWidth * k := Nat.mul_le_mul_left _ hk
    rw [Nat.mul_add_one] at hfits
    omega
  have hshifted : copies p patternWidth k <<< patternWidth < 2 ^ w.bits := by
    rw [Nat.shiftLeft_eq, Nat.mul_comm]
    rw [copies] at hcopies
    omega
  obtain ⟨m1, hshl, hread1, hr1⟩ := effect_into (m := m) (r := r) hw hne (effect_shl_of_read .w8 hdest hamount) hshifted
  have hpattern1 : m1.read ⟨.register r, w⟩ = some p := (read_congr hr1).trans hpattern
  obtain ⟨m2, hor, hread2, hr2⟩ := effect_into (m := m1) (r := r)
    hw hne (effect_or_of_read hpattern1 hread1) (by rwa [shiftLeft_or_copies hp])
  rw [shiftLeft_or_copies hp] at hread2
  exact ⟨m2, by rw [hshl]; exact hor, (read_congr hr2).trans hpattern1, hread2⟩

/-- The loop adds as many copies as it has rounds. -/
theorem run_loopCode (n : Nat)
    (hk : 1 ≤ k) (hfits : patternWidth * (k + n) ≤ w.bits) (hpattern : m.read ⟨.register r, w⟩ = some p)
    (hdest : m.read ⟨.register d, w⟩ = some (copies p patternWidth k)) :
    ∃ m', run (loopCode patternWidth ⟨.register r, w⟩ ⟨.register d, w⟩ n) m = some m' ∧
      m'.read ⟨.register d, w⟩ = some (copies p patternWidth (k + n)) := by
  induction n generalizing m k with
  | zero => exact ⟨m, rfl, hdest⟩
  | succ n ih =>
    have hround : patternWidth * (k + 1) ≤ w.bits :=
      Nat.le_trans (Nat.mul_le_mul_left _ (by omega)) hfits
    obtain ⟨m1, hrun, hpattern1, hdest1⟩ := effect_round hw hne hp hpw hk hround hpattern hdest
    have hsum : k + 1 + n = k + (n + 1) := by omega
    obtain ⟨m', hrest, hread⟩ := ih (k := k + 1) (by omega) (by rwa [hsum]) hpattern1 hdest1
    refine ⟨m', ?_, by rwa [hsum] at hread⟩
    rw [loopCode, run]
    simp only [run]
    rw [← Option.bind_assoc, hrun, bind_some]
    exact hrest

end

theorem effect_mov (hw : w.bits ≤ 64) (hne : r ≠ d) (hread : m.read ⟨.register r, v⟩ = some p) (hp : p < 2 ^ w.bits)
    {op : Op2} (hop : op = .mov ∨ op = .movzx) :
    ∃ m', Opcode.effect (.op2 op ⟨.register r, v⟩ ⟨.register d, w⟩) m = some m' ∧
      m'.read ⟨.register d, w⟩ = some p ∧ m'.registers r = m.registers r := by
  refine effect_into hw hne ?_ hp
  obtain rfl | rfl := hop
  · exact effect_mov_of_read hread
  · exact effect_movzx_of_read hread

end Machine

/-! ### The operand of a replication -/

variable {r : Register} {v w : Width} {e e' : Emitter} {dest : Operand} {pw c p : Nat}

/-- The register is not one that is still to be handed out. -/
def Register.Old (r : Register) (e : Emitter) : Prop := ∀ i cls, r = .virtual i cls → i < e.nextVreg

theorem Register.Old.ne_next (h : r.Old e) (cls : RegisterClass) : r ≠ .virtual e.nextVreg cls := fun heq =>
  Nat.lt_irrefl _ (h _ _ heq)

theorem vreg_eq (hw : w.bits ≤ 64) (i : Nat) : Operand.vreg w i = ⟨.register (.virtual i .general), w⟩ := by
  unfold Operand.vreg
  rw [if_neg (by omega)]

theorem mov_general (hw : w.bits ≤ 64) (hr : r.class? ≠ some .xmm) (i : Nat) :
    mov ⟨.register r, w⟩ ⟨.register (.virtual i .general), w⟩ =
      some (.mov ⟨.register r, w⟩ ⟨.register (.virtual i .general), w⟩) := by
  have hwide : w ≠ .w128 := by
    rintro rfl
    exact absurd hw (by decide)
  have hclasses : differentClasses ⟨.register r, w⟩ ⟨.register (.virtual i .general), w⟩ = false := by
    unfold differentClasses Operand.registerClass
    dsimp only
    cases hclass : r.class? with
    | none => rfl
    | some cls =>
      cases cls with
      | general => rfl
      | xmm => exact absurd hclass hr
  have hoversize : oversize ⟨.register r, w⟩ = false := by
    unfold oversize
    cases r <;> simp [hwide]
  unfold mov
  rw [hoversize, hclasses]
  simp [oversize, Operand.isImmediate]

theorem movzx_eq_some {src dst : Operand} {i : Opcode} (h : movzx src dst = some i) : i = .op2 .movzx src dst := by
  unfold movzx at h
  repeat' split at h
  all_goals cases h
  rfl

theorem movzx_general (hw : w.bits ≤ 64) (hr : r.class? ≠ some .xmm) (hv : v.bits < w.bits) (i : Nat) :
    movzx ⟨.register r, v⟩ (.vreg w i) = some (.op2 .movzx ⟨.register r, v⟩ (.vreg w i)) := by
  have hclass : Operand.registerClass ⟨.register r, v⟩ ≠ some .xmm := hr
  rw [vreg_eq hw]
  have hdst : Operand.registerClass ⟨.register (.virtual i .general), w⟩ ≠ some .xmm := nofun
  unfold movzx
  rw [if_neg (Nat.not_le.mpr hv), if_neg (by simp [Operand.isImmediate]), if_neg hclass, if_neg hdst]

/-- What the code from `e` to `e'` does: `q` then holds, at its width, what `o` held before. -/
def Carries (e e' : Emitter) (o q : Operand) (value result : Nat) : Prop :=
  ∃ code, e'.code = e.code ++ code ∧
    ∀ m : Machine, m.read o = some value → ∃ m', m.run code = some m' ∧ m'.read q = some result

theorem extendPattern_spec {q : Operand} (hw : w.bits ≤ 64) (hr : r.class? ≠ some .xmm) (hold : r.Old e)
    (hp : p < 2 ^ w.bits) (h : extendPattern ⟨.register r, v⟩ w e = some (q, e')) :
    ∃ r', q = ⟨.register r', w⟩ ∧ r'.class? ≠ some .xmm ∧ r'.Old e' ∧ Carries e e' ⟨.register r, v⟩ q p p := by
  unfold extendPattern at h
  split at h
  · obtain ⟨i, e1, hnext, hrest⟩ := bind_eq_some.mp h
    obtain ⟨_, e2, hpush, hdone⟩ := bind_eq_some.mp hrest
    obtain ⟨opcode, hmovzx, hpushed⟩ := bind_eq_some_iff.mp hpush
    cases hnext
    cases hpushed
    cases hdone
    rw [movzx_eq_some hmovzx, vreg_eq hw]
    refine ⟨_, rfl, nofun, ?_, _, rfl, ?_⟩
    · intro i cls heq
      cases heq
      exact Nat.lt_succ_self _
    · intro m hread
      obtain ⟨m', heffect, hm', -⟩ := Machine.effect_mov hw (hold.ne_next .general) hread hp (.inr rfl)
      exact ⟨m', by rw [Machine.run, heffect]; rfl, hm'⟩
  · rename_i hsame
    cases h
    obtain rfl : v = w := not_not.mp hsame
    exact ⟨r, rfl, hr, hold, [], (append_nil _).symm, fun m hread => ⟨m, rfl, hread⟩⟩

/-- **The emitted code replicates the pattern.** -/
theorem replicateGeneral_carries (hw : w.bits ≤ 64) (hr : r.class? ≠ some .xmm) (hold : r.Old e) (hpw : 1 ≤ pw)
    (hc : 1 ≤ c) (hfits : pw * c ≤ w.bits) (hp : p < 2 ^ pw)
    (h : replicateGeneral pw ⟨.register r, v⟩ c w e = some (dest, e')) :
    Carries e e' ⟨.register r, v⟩ dest p (copies p pw c) := by
  have hpw' : p < 2 ^ w.bits := by
    have : pw * 1 ≤ pw * c := Nat.mul_le_mul_left _ hc
    exact Nat.lt_of_lt_of_le hp (Nat.pow_le_pow_right (by decide) (by omega))
  obtain ⟨q, e1, hextend, h1⟩ := bind_eq_some.mp h
  obtain ⟨i, e2, hnext, h2⟩ := bind_eq_some.mp h1
  obtain ⟨_, e3, hmov, h3⟩ := bind_eq_some.mp h2
  obtain ⟨_, e4, hloop, hdone⟩ := bind_eq_some.mp h3
  obtain ⟨r', rfl, hr', hold', code, hcode, hcarry⟩ := extendPattern_spec hw hr hold hpw' hextend
  cases hnext
  rw [vreg_eq hw] at hmov hloop hdone
  rw [pushChecked, mov_general hw hr'] at hmov
  cases hmov
  rw [replicateLoop_eq] at hloop
  cases hloop
  cases hdone
  have hne := hold'.ne_next .general
  refine ⟨code ++ (.mov ⟨.register r', w⟩ ⟨.register (.virtual e1.nextVreg .general), w⟩ ::
    loopCode pw ⟨.register r', w⟩ ⟨.register (.virtual e1.nextVreg .general), w⟩ (c - 1)), ?_, ?_⟩
  · simp only [hcode, append_assoc, cons_append, nil_append]
  · intro m hread
    obtain ⟨m1, hrun1, hread1⟩ := hcarry m hread
    obtain ⟨m2, heffect, hread2, hsame⟩ := Machine.effect_mov hw hne hread1 hpw' (.inl rfl)
    have hpattern : m2.read ⟨.register r', w⟩ = some p := (Machine.read_congr hsame).trans hread1
    rw [← copies_one p pw] at hread2
    have hsum : 1 + (c - 1) = c := by omega
    obtain ⟨m3, hrun3, hread3⟩ := Machine.run_loopCode hw hne hp hpw (c - 1) (Nat.le_refl 1) (by rwa [hsum]) hpattern hread2
    rw [hsum] at hread3
    refine ⟨m3, ?_, hread3⟩
    rw [Machine.run_append, hrun1, bind_some, Machine.run]
    exact (congrArg (Option.bind · _) heffect).trans hrun3

theorem pushChecked_some {i : Option Opcode} {opcode : Opcode} (h : i = some opcode) (e : Emitter) :
    pushChecked i e = some ((), { e with code := e.code ++ [opcode] }) := by
  rw [h]
  rfl

theorem extendPattern_returns (hw : w.bits ≤ 64) (hr : r.class? ≠ some .xmm) (hv : v.bits ≤ w.bits) (e : Emitter) :
    ∃ q e', extendPattern ⟨.register r, v⟩ w e = some (q, e') := by
  unfold extendPattern
  split
  · rename_i hne
    have hlt : v.bits < w.bits := by
      cases v <;> cases w <;> first | exact absurd rfl hne | simp [Width.bits] at hv ⊢
    have hpush := pushChecked_some (movzx_general hw hr hlt e.nextVreg) { e with nextVreg := e.nextVreg + 1 }
    exact ⟨_, _, bind_eq_some.mpr ⟨_, _, rfl, bind_eq_some.mpr ⟨(), _, hpush, rfl⟩⟩⟩
  · exact ⟨_, _, rfl⟩

/-- The lowering gets to its end if the pattern is not wider than the destination. -/
theorem replicateGeneral_returns (hw : w.bits ≤ 64) (hr : r.class? ≠ some .xmm) (hold : r.Old e) (hv : v.bits ≤ w.bits)
    (pw c : Nat) : ∃ dest e', replicateGeneral pw ⟨.register r, v⟩ c w e = some (dest, e') := by
  obtain ⟨q, e1, hextend⟩ := extendPattern_returns hw hr hv e
  obtain ⟨r', rfl, hr', -, -⟩ := extendPattern_spec hw hr hold (Nat.two_pow_pos _) hextend
  have hmov := mov_general hw hr' e1.nextVreg
  rw [← vreg_eq hw] at hmov
  have hpush := pushChecked_some hmov { e1 with nextVreg := e1.nextVreg + 1 }
  exact ⟨_, _, bind_eq_some.mpr ⟨_, e1, hextend, bind_eq_some.mpr ⟨_, _, rfl, bind_eq_some.mpr
    ⟨(), _, hpush, bind_eq_some.mpr ⟨(), _, replicateLoop_eq _ _ _ _ _, rfl⟩⟩⟩⟩⟩

/-! ### Both ways -/

theorem fromUncanonicalized_bits {bits : Nat} (h : Width.fromUncanonicalized bits = some w) (hbits : bits ≤ 64) :
    1 ≤ bits ∧ bits ≤ w.bits ∧ w.bits ≤ 64 := by
  unfold Width.fromUncanonicalized at h
  repeat' split at h
  all_goals cases h
  all_goals simp only [Width.bits]
  all_goals omega

/-- Rounding up keeps the order. -/
theorem fromUncanonicalized_mono {a b : Nat} (ha : Width.fromUncanonicalized a = some v) (hab : a ≤ b) :
    ∃ w, Width.fromUncanonicalized b = some w ∧ v.bits ≤ w.bits := by
  unfold Width.fromUncanonicalized at ha ⊢
  repeat' split at ha
  all_goals cases ha
  all_goals
    repeat' split
    all_goals first | exact ⟨_, rfl, by decide⟩ | omega

theorem bitReplicateToOperand_eq {checks : Bool} {width : Width} {e : Emitter} {pattern : Operand} (hc : 1 ≤ c)
    (hpw : 1 ≤ pw) (hfits : pw * c ≤ 64) (hwidth : Width.fromUncanonicalized (pw * c) = some w) :
    bitReplicateToOperand checks pw pattern (.imm width c) e = replicateGeneral pw pattern c w e := by
  have hc64 : c ≤ 64 := Nat.le_trans (Nat.le_mul_of_pos_left c hpw) hfits
  have hcount : Rudder.tryU32 c = some c := if_pos (by omega)
  have hproduct : mulU32 checks pw c = some (pw * c) := if_pos (by omega)
  have hw : w ≠ .w128 := by
    rintro rfl
    exact absurd (fromUncanonicalized_bits hwidth hfits).2.2 (by decide)
  unfold bitReplicateToOperand Operand.imm
  dsimp only
  rw [if_neg (by omega), hcount, ofOption_some_bind, hproduct, ofOption_some_bind, hwidth,
    ofOption_some_bind, if_neg hw]

/-- **Both ways of replicating a pattern of `pw` bits give `c` copies of it.**  A constant pattern is folded; for one
in a register, of the rounded-up width or any other that the lowering accepts, the emitted code computes the copies. -/
theorem bitReplicate_correct (checks : Bool) (pw c p : Nat) (hc : 1 ≤ c) (hfits : pw * c ≤ 64) (hp : p < 2 ^ pw) :
    (∀ typ pattern count, typ.width = some pw → Node.constant p typ = some pattern → count.IsNumber c →
      Node.makeBitReplicate checks pattern count = some (.const (.unsigned (pw * c)) (copies p pw c) (pw * c))) ∧
    ∀ (e : Emitter) (r : Register) (countWidth : Width), r.class? ≠ some .xmm → r.Old e → 1 ≤ pw →
      (∀ v, Width.fromUncanonicalized pw = some v →
        ∃ dest e', bitReplicateToOperand checks pw ⟨.register r, v⟩ (.imm countWidth c) e = some (dest, e')) ∧
      ∀ v dest e', bitReplicateToOperand checks pw ⟨.register r, v⟩ (.imm countWidth c) e = some (dest, e') →
        Carries e e' ⟨.register r, v⟩ dest p (copies p pw c) := by
  refine ⟨fun typ pattern count htyp hpattern hcount =>
    Node.makeBitReplicate_copies hc hfits hp htyp hpattern hcount, ?_⟩
  intro e r countWidth hr hold hpw
  obtain ⟨v0, hv0⟩ : ∃ v, Width.fromUncanonicalized pw = some v := by
    unfold Width.fromUncanonicalized
    rw [if_neg (by omega)]
    repeat' split
    all_goals exact ⟨_, rfl⟩
  obtain ⟨w, hwidth, hle⟩ := fromUncanonicalized_mono hv0 (Nat.le_mul_of_pos_right pw hc)
  obtain ⟨-, hbits, hw⟩ := fromUncanonicalized_bits hwidth hfits
  constructor
  · intro v hv
    obtain rfl : v0 = v := some.inj (hv0.symm.trans hv)
    rw [bitReplicateToOperand_eq hc hpw hfits hwidth]
    exact replicateGeneral_returns hw hr hold hle pw c
  · intro v dest e' h
    rw [bitReplicateToOperand_eq hc hpw hfits hwidth] at h
    exact replicateGeneral_carries hw hr hold hpw hc hbits hp h

/-- A pattern of three bits, five times. -/
theorem bitReplicate_correct_threeBits : Node.makeBitReplicate true (.const (.unsigned 3) 5 3) (Node.number 5) =
        some (.const (.unsigned 15) 0b101101101101101 15) ∧
      ∃ dest e', bitReplicateToOperand true 3 (.vreg .w8 0) (.imm .w64 5) ⟨1, []⟩ = some (dest, e') ∧
        Carries ⟨1, []⟩ e' (.vreg .w8 0) dest 5 0b101101101101101 := by
  obtain ⟨hfold, hcode⟩ := bitReplicate_correct true 3 5 5 (by decide) (by decide) (by decide)
  have hold : (Register.virtual 0 .general).Old ⟨1, []⟩ := by
    intro i cls h
    cases h
    exact Nat.one_pos
  obtain ⟨hreturns, hcarries⟩ := hcode ⟨1, []⟩ (.virtual 0 .general) .w64 nofun hold (by decide)
  obtain ⟨dest, e', h⟩ := hreturns .w8 rfl
  exact ⟨hfold (.unsigned 3) _ _ rfl rfl (Node.isNumber_number (by decide)), dest, e', h, hcarries .w8 dest e' h⟩

end Icewind.X86
