import Icewind.X86.Encode

/-!
# The operand tables against the encoder

`get_apparent_operands` tells the register allocator what an instruction reads and writes; the encoder decides what it
really does.

* `Opcode.getOperandsMut` — the second table, over the operands that can be rewritten.
* `Covered` — all registers that the code reads are reported as used, all that it writes as defined.
* `Opcode.Regular` — the instructions that are not among the exceptions.
* `Opcode.reported_iff` — for these, and only for these, both tables are right.
-/

namespace Icewind.X86

open List Option Operand

/-! ### The table of `get_operands_mut` -/

def Op1.directionMut : Op1 → OperandDirection
  | .idiv | .div | .jmp | .jne | .je | .int | .push | .ptwrite => .in_
  | .sete | .setne | .setnz | .setb | .setbe | .seta | .setg | .setae | .sets | .seto | .setc | .setge | .setl | .setle
  | .pop => .out
  | .not | .neg | .inc => .inOut

/-- Direction of the second operand; the first is read. -/
def Op2.directionMut : Op2 → OperandDirection
  | .mov | .movzx | .movsx | .movq | .movd | .lea | .cmove | .cmovne | .cvtsi2sd | .cvtsi2ss | .cvtsd2si | .cvtss2sd
  | .cvtss2si | .cvttss2si | .cvtsd2ss | .sqrtss | .sqrtsd => .out
  | .shl | .shr | .sar | .or | .xor | .add | .sub | .and | .imul | .addpd | .addps | .subpd | .divpd | .divps | .subps
  | .mulpd | .mulps | .punpckl | .punpcklwd | .punpcklqdq | .cmpxchg => .inOut
  | .test | .cmp | .out => .in_

def Op3.operandsMut (op : Op3) (a b c : Operand) : List (OperandDirection × Operand) :=
  match op with
  | .cmppd | .cmpps | .pshuflw => [(.in_, a), (.inOut, b), (.in_, c)]
  | .mul | .imul1 => [(.in_, a), (.inOut, b), (.out, c)]
  | .shrd | .shld => [(.in_, a), (.in_, c), (.inOut, b)]
  | .bextr | .pextr => [(.in_, a), (.in_, b), (.out, c)]
  | .adc | .pinsr => [(.in_, a), (.in_, b), (.inOut, c)]

namespace Opcode

/-- `get_operands_mut`, which panics on a dead instruction. -/
def getOperandsMut : Opcode → Option (List (OperandDirection × Operand))
  | .op0 .dead => none
  | .op0 _ => some []
  | .op1 op a => some [(op.directionMut, a)]
  | .op2 op a b => some [(.in_, a), (op.directionMut, b)]
  | .op3 op a b c => some (op.operandsMut a b c)
  | .call function _ _ => some [(.in_, function)]

/-- **The two tables agree**: the second one has an entry for each operand of the instruction, and these entries are in
the first one too, which has only the implicit registers besides. -/
def SameDirections (i : Opcode) : Prop :=
  ∃ entries, i.getOperandsMut = some entries ∧ (entries.map Prod.snd).Perm i.operands ∧
    entries.Sublist i.getApparentOperands

end Opcode

variable (op : Op3)

theorem Op3.operandsMut_perm (a b c : Operand) : ((op.operandsMut a b c).map Prod.snd).Perm [a, b, c] := by
  cases op
  case shld | shrd => exact .cons a (.swap b c [])
  all_goals exact .refl _

/-- **The two tables agree on every instruction but a dead one.** -/
theorem Opcode.sameDirections {i : Opcode} (h : i ≠ .dead) : i.SameDirections := by
  cases i with
  | op0 op =>
    cases op with
    | dead => exact absurd rfl h
    | cqo => exact ⟨[], rfl, .refl _, nil_sublist _⟩
    | ret | nop | label => exact ⟨[], rfl, .refl _, .refl _⟩
  | op1 op a =>
    refine ⟨_, rfl, .refl _, ?_⟩
    cases op
    case idiv | div => exact .cons _ (.cons _ (.refl _))
    all_goals exact .refl _
  | op2 op a b =>
    refine ⟨_, rfl, .refl _, ?_⟩
    cases op
    case cmpxchg => exact .cons_cons _ (.cons_cons _ (nil_sublist _))
    all_goals exact .refl _
  | op3 op a b c =>
    refine ⟨_, rfl, op.operandsMut_perm a b c, ?_⟩
    exact .refl _
  | call function nrInputArgs nrOutputArgs => exact ⟨_, rfl, .refl _, .cons_cons _ (nil_sublist _)⟩

/-- The second table has nothing for a dead instruction. -/
theorem Op0.sameDirections_iff (op : Op0) : Opcode.SameDirections (.op0 op) ↔ op ≠ .dead := by
  constructor
  · rintro ⟨entries, hentries, -⟩ rfl
    cases hentries
  · intro halive
    exact Opcode.sameDirections fun heq => halive (Opcode.op0.inj heq)

/-! ### Covering -/

/-- The registers that a table reports as used. -/
def usesOf (entries : List (OperandDirection × Operand)) : List Register :=
  (entries.flatMap fun p => p.2.useDefs p.1).filterMap (·.1.used)

/-- The registers that a table reports as defined. -/
def defsOf (entries : List (OperandDirection × Operand)) : List Register :=
  (entries.flatMap fun p => p.2.useDefs p.1).filterMap (·.1.defined)

/-- The register is in the list; `xmm8` is in none. -/
def HostRegister.In (r : HostRegister) (l : List Register) : Prop :=
  match r with
  | .phys p => .physical p ∈ l
  | .xmm8 => False

/-- The entries report all that the code reads and writes. -/
structure Covered (entries : List (OperandDirection × Operand)) (code : List Asm) : Prop where
  reads : ∀ a ∈ code, ∀ r ∈ a.reads, r.In (usesOf entries)
  writes : ∀ a ∈ code, ∀ r ∈ a.writes, r.In (defsOf entries)

/-- **Every register that the code reads is reported as a use, every register that it writes as a def.** -/
def Opcode.Covers (i : Opcode) (code : List Asm) : Prop := Covered i.getApparentOperands code

section Entries

variable {entries : List (OperandDirection × Operand)} {code code' : List Asm}

theorem Covered.nil : Covered entries [] := ⟨nofun, nofun⟩

theorem Covered.append (h : Covered entries code) (h' : Covered entries code') : Covered entries (code ++ code') := by
  constructor
  · intro a ha
    exact (mem_append.mp ha).elim (h.reads a) (h'.reads a)
  · intro a ha
    exact (mem_append.mp ha).elim (h.writes a) (h'.writes a)

/-- Whatever is emitted is covered. -/
def Emits (entries : List (OperandDirection × Operand)) (emitted : Option (List Asm)) : Prop :=
  ∀ ⦃code⦄, emitted = some code → Covered entries code

theorem Emits.none : Emits entries none := nofun

theorem Emits.some (h : Covered entries code) : Emits entries (some code) := by
  intro code' hcode
  cases hcode
  exact h

theorem Emits.bind {α : Type} {v : Option α} {f : α → Option (List Asm)} (h : ∀ x, v = .some x → Emits entries (f x)) :
    Emits entries (v.bind f) := by
  intro code hcode
  obtain ⟨x, hx, hf⟩ := bind_eq_some_iff.mp hcode
  exact h x hx hf

theorem Emits.both {first second : Option (List Asm)} (hfirst : Emits entries first) (hsecond : Emits entries second) :
    Emits entries (emitBoth first second) :=
  .bind fun _ hc => .bind fun _ hc' => .some ((hfirst hc).append (hsecond hc'))

/-- The entries report the access to a register. -/
structure Reported (entries : List (OperandDirection × Operand)) (access : Access) (r : PhysicalRegister) : Prop where
  use : access.isRead → .physical r ∈ usesOf entries
  defined : access.isWrite → .physical r ∈ defsOf entries

/-- The entries report the registers of an address. -/
def ReportedAddress (entries : List (OperandDirection × Operand)) (m : AsmMemory) : Prop :=
  ∀ r ∈ m.registers, r.In (usesOf entries)

/-- The entries report what is done to an operand. -/
def ReportedOperand (entries : List (OperandDirection × Operand)) (access : Access) : AsmOperand → Prop
  | .reg ⟨.phys r, _⟩ => Reported entries access r
  | .reg ⟨.xmm8, _⟩ => False
  | .mem m => ReportedAddress entries m
  | .imm _ | .label _ => True

variable {access : Access} {o : AsmOperand}

theorem ReportedOperand.reads (h : ReportedOperand entries access o) : ∀ r ∈ o.reads access, r.In (usesOf entries) := by
  intro r hr
  cases o with
  | reg x =>
    obtain ⟨reg, w⟩ := x
    cases reg with
    | phys p =>
      rw [AsmOperand.reads] at hr
      split at hr
      · rename_i hread
        rw [mem_singleton.mp hr]
        exact h.use hread
      · cases hr
    | xmm8 => exact h.elim
  | mem m => exact h r hr
  | imm | label => cases hr

theorem ReportedOperand.writes (h : ReportedOperand entries access o) :
    ∀ r ∈ o.writes access, r.In (defsOf entries) := by
  intro r hr
  cases o with
  | reg x =>
    obtain ⟨reg, w⟩ := x
    cases reg with
    | phys p =>
      rw [AsmOperand.writes] at hr
      split at hr
      · rename_i hwrite
        rw [mem_singleton.mp hr]
        exact h.defined hwrite
      · cases hr
    | xmm8 => exact h.elim
  | mem | imm | label => cases hr

variable {m : Mnemonic}

/-- **An instruction is covered when its operands and its implicit registers are reported.** -/
theorem covered_instruction {first : AsmOperand} {rest : List AsmOperand}
    (hfirst : ReportedOperand entries m.destination first) (hrest : ∀ o ∈ rest, ReportedOperand entries .read o)
    (himplicit : ∀ x ∈ m.implicit, Reported entries x.1 x.2) : Covered entries [⟨m, first :: rest⟩] := by
  constructor
  · intro a ha r hr
    rw [mem_singleton.mp ha] at hr
    rcases mem_append.mp hr with hr | hr
    · split at hr
      · cases hr
      · rcases mem_append.mp hr with hr | hr
        · exact hfirst.reads r hr
        · obtain ⟨o, ho, hr⟩ := mem_flatMap.mp hr
          exact (hrest o ho).reads r hr
    · obtain ⟨x, hx, rfl⟩ := mem_map.mp hr
      obtain ⟨hx, hread⟩ := mem_filter.mp hx
      exact (himplicit x hx).use hread
  · intro a ha r hr
    rw [mem_singleton.mp ha] at hr
    rcases mem_append.mp hr with hr | hr
    · exact hfirst.writes r hr
    · obtain ⟨x, hx, rfl⟩ := mem_map.mp hr
      obtain ⟨hx, hwrite⟩ := mem_filter.mp hx
      exact (himplicit x hx).defined hwrite

theorem covered_instruction_single (ho : ReportedOperand entries m.destination o)
    (himplicit : ∀ x ∈ m.implicit, Reported entries x.1 x.2) : Covered entries [⟨m, [o]⟩] :=
  covered_instruction ho (fun _ ho => absurd ho not_mem_nil) himplicit

theorem no_implicit (h : m.implicit = []) : ∀ x ∈ m.implicit, Reported entries x.1 x.2 := by
  rw [h]
  nofun

theorem covered_pair {first second : AsmOperand} (hfirst : ReportedOperand entries m.destination first)
    (hsecond : ReportedOperand entries .read second) (himplicit : m.implicit = []) :
    Covered entries [⟨m, [first, second]⟩] := by
  refine covered_instruction hfirst ?_ (no_implicit himplicit)
  intro o ho
  rw [mem_singleton.mp ho]
  exact hsecond

variable {r : PhysicalRegister} {w : Width}

/-- Zeroing a register reads nothing. -/
theorem covered_idiom (hcancels : m.cancels = true) (himplicit : m.implicit = []) (hr : .physical r ∈ defsOf entries) :
    Covered entries [⟨m, [.reg ⟨.phys r, w⟩, .reg ⟨.phys r, w⟩]⟩] := by
  constructor
  · intro a ha x hx
    rw [mem_singleton.mp ha] at hx
    rcases mem_append.mp hx with hx | hx
    · have hidiom : Asm.isIdiom ⟨m, [.reg ⟨.phys r, w⟩, .reg ⟨.phys r, w⟩]⟩ = true := by simp [Asm.isIdiom, hcancels]
      rw [if_pos hidiom] at hx
      cases hx
    · rw [Asm.implicitReads, himplicit] at hx
      cases hx
  · intro a ha x hx
    rw [mem_singleton.mp ha] at hx
    rcases mem_append.mp hx with hx | hx
    · change x ∈ if m.destination.isWrite then [HostRegister.phys r] else [] at hx
      split at hx
      · rw [mem_singleton.mp hx]
        exact hr
      · cases hx
    · rw [Asm.implicitWrites, himplicit] at hx
      cases hx

/-! ### What is emitted -/

theorem tryInto_eq_some {x : AsmRegister} (h : r.tryInto w = some x) : x = ⟨.phys r, w⟩ := by
  unfold PhysicalRegister.tryInto at h
  split at h
  · cases h
    rfl
  · cases h

theorem emitR_eq_some (h : emitR m w r = some code) : code = [⟨m, [.reg ⟨.phys r, w⟩]⟩] := by
  obtain ⟨x, hx, h⟩ := bind_eq_some_iff.mp h
  cases tryInto_eq_some hx
  cases h
  rfl

variable {s : PhysicalRegister} {d : PhysicalRegister}

theorem emitRR_eq_some {wd ws : Width} (h : emitRR m wd ws d s = some code) :
    code = [⟨m, [.reg ⟨.phys d, wd⟩, .reg ⟨.phys s, ws⟩]⟩] := by
  obtain ⟨x, y, hx, hy, h⟩ := bind₂_eq_some h
  cases tryInto_eq_some hx
  cases tryInto_eq_some hy
  cases h
  rfl

theorem emitRI_eq_some {v : Int} (h : emitRI m w d v = some code) : code = [⟨m, [.reg ⟨.phys d, w⟩, .imm v]⟩] := by
  obtain ⟨x, hx, h⟩ := bind_eq_some_iff.mp h
  cases tryInto_eq_some hx
  cases h
  rfl

theorem emitRRI_eq_some {wd ws : Width} {v : Int} (h : emitRRI m wd ws d s v = some code) :
    code = [⟨m, [.reg ⟨.phys d, wd⟩, .reg ⟨.phys s, ws⟩, .imm v]⟩] := by
  obtain ⟨x, y, hx, hy, h⟩ := bind₂_eq_some h
  cases tryInto_eq_some hx
  cases tryInto_eq_some hy
  cases h
  rfl

theorem emitMR_eq_some {dst : Option AsmMemory} (h : emitMR m dst w s = some code) :
    ∃ x, dst = some x ∧ code = [⟨m, [.mem x, .reg ⟨.phys s, w⟩]⟩] := by
  obtain ⟨x, y, hx, hy, h⟩ := bind₂_eq_some h
  cases tryInto_eq_some hy
  cases h
  exact ⟨x, hx, rfl⟩

section Plain

variable {wd ws : Width} {d : PhysicalRegister} {v : Int} {op : Option AsmMemory} (himplicit : m.implicit = [])
include himplicit

theorem Emits.reg (hr : Reported entries m.destination r) : Emits entries (emitR m w r) := by
  intro code h
  rw [emitR_eq_some h]
  exact covered_instruction_single hr (no_implicit himplicit)

section

variable (hd : Reported entries m.destination d)

include hd

theorem Emits.rr (hs : Reported entries .read s) : Emits entries (emitRR m wd ws d s) := by
  intro code h
  rw [emitRR_eq_some h]
  exact covered_pair hd hs himplicit

theorem Emits.ri : Emits entries (emitRI m w d v) := by
  intro code h
  rw [emitRI_eq_some h]
  exact covered_pair hd trivial himplicit

theorem Emits.rri (hs : Reported entries .read s) : Emits entries (emitRRI m wd ws d s v) := by
  intro code h
  rw [emitRRI_eq_some h]
  exact covered_instruction hd (forall_mem_cons.mpr ⟨hs, forall_mem_singleton.mpr trivial⟩) (no_implicit himplicit)

theorem Emits.rm (hop : ∀ x, op = .some x → ReportedAddress entries x) : Emits entries (emitRM m w d op) := by
  refine .bind fun y hy => .bind fun x hx => .some ?_
  cases tryInto_eq_some hy
  exact covered_pair hd (hop x hx) himplicit

end

section

variable (hop : ∀ x, op = .some x → ReportedAddress entries x)

include hop

theorem Emits.mr (hs : Reported entries .read s) : Emits entries (emitMR m op w s) := by
  intro code h
  obtain ⟨x, hx, rfl⟩ := emitMR_eq_some h
  exact covered_pair (hop x hx) hs himplicit

theorem Emits.mi : Emits entries (emitMI m op v) :=
  .bind fun x hx => .some (covered_pair (hop x hx) trivial himplicit)

theorem Emits.mem : Emits entries (emitM m op) :=
  .bind fun x hx => .some (covered_instruction_single (hop x hx) (no_implicit himplicit))

end

end Plain

/-! ### What is reported of an operand -/

/-- The direction allows the access. -/
def Access.allowedBy : Access → OperandDirection → Bool
  | .read, .in_ | .write, .out | _, .inOut => true
  | _, _ => false

variable {d : OperandDirection} {o : Operand}

theorem view_reg (h : o.view = .reg r) : o.kind = .register (.physical r) := by
  unfold view at h
  split at h <;> cases h
  assumption

theorem view_mem {m : BasedMemory} (h : o.view = .mem m) :
    ∃ segment, o.kind = .memory (some (.physical m.base)) m.index m.scale m.displacement segment := by
  unfold view at h
  split at h <;> cases h
  exact ⟨_, by assumption⟩

variable {m : SegmentMemory}

theorem view_segment (h : o.view = .segment m) :
    o.kind = .memory none m.index m.scale m.displacement (some m.segment) := by
  unfold view at h
  split at h <;> cases h
  assumption

variable (ud : UseDef × Width)

theorem mem_usesOf {r : Register} (hmem : (d, o) ∈ entries) (hud : ud ∈ o.useDefs d) (hr : ud.1.used = some r) :
    r ∈ usesOf entries :=
  mem_filterMap.mpr ⟨ud, mem_flatMap.mpr ⟨(d, o), hmem, hud⟩, hr⟩

theorem mem_defsOf {r : Register} (hmem : (d, o) ∈ entries) (hud : ud ∈ o.useDefs d) (hr : ud.1.defined = some r) :
    r ∈ defsOf entries :=
  mem_filterMap.mpr ⟨ud, mem_flatMap.mpr ⟨(d, o), hmem, hud⟩, hr⟩

theorem reported_of_view (h : o.view = .reg r) (hmem : (d, o) ∈ entries) (hallowed : access.allowedBy d = true) :
    Reported entries access r := by
  have hud : (UseDef.ofDirection d (.physical r), o.width) ∈ o.useDefs d := by
    rw [useDefs, view_reg h]
    exact mem_singleton_self _
  constructor
  · intro hread
    refine mem_usesOf _ hmem hud ?_
    cases access <;> cases d <;> first | rfl | exact absurd hread (by decide) | exact absurd hallowed (by decide)
  · intro hwrite
    refine mem_defsOf _ hmem hud ?_
    cases access <;> cases d <;> first | rfl | exact absurd hwrite (by decide) | exact absurd hallowed (by decide)

theorem reported_of_inOut (access : Access) (h : o.view = .reg r) (hmem : (.inOut, o) ∈ entries) :
    Reported entries access r :=
  reported_of_view h hmem (by cases access <;> rfl)

theorem reported_used (h : o.view = .reg r) (hmem : (d, o) ∈ entries) (hallowed : Access.allowedBy .read d = true) :
    .physical r ∈ usesOf entries :=
  (reported_of_view h hmem hallowed).use rfl

theorem reported_defined (h : o.view = .reg r) (hmem : (d, o) ∈ entries) (hallowed : Access.allowedBy .write d = true) :
    .physical r ∈ defsOf entries :=
  (reported_of_view h hmem hallowed).defined rfl

/-- The registers of a memory operand are reported as used, at any displacement. -/
theorem reportedAddress_of_view {m : BasedMemory} {size : Option Width} {displacement : Int} {x : AsmMemory}
    (h : o.view = .mem m) (hmem : (d, o) ∈ entries)
    (hx : memoryOperandToIced size m.base m.index m.scale displacement = some x) : ReportedAddress entries x := by
  obtain ⟨segment, hkind⟩ := view_mem h
  unfold memoryOperandToIced at hx
  split at hx
  · cases hx
  split at hx
  · rename_i index hindex
    rw [hindex] at hkind
    split at hx <;> cases hx
    have hud : o.useDefs d = [(.use (.physical m.base), .w64), (.use (.physical index), .w64)] := by
      rw [useDefs, hkind]
    exact forall_mem_cons.mpr ⟨mem_usesOf _ hmem (hud ▸ mem_cons_self) rfl,
      forall_mem_singleton.mpr (mem_usesOf _ hmem (hud ▸ mem_cons_of_mem _ mem_cons_self) rfl)⟩
  · cases hx
    intro r hr
    rw [mem_singleton.mp hr]
    refine mem_usesOf (.use (.physical m.base), .w64) hmem ?_ rfl
    cases hindex : m.index with
    | none | some =>
      rw [hindex] at hkind
      rw [useDefs, hkind]
      exact mem_cons_self

/-- Memory that is relative to a segment has no registers. -/
theorem reportedAddress_of_segment {size : Option Width} {x : AsmMemory} (h : m.index = none)
    (hx : m.toIced size = some x) : ReportedAddress entries x := by
  unfold SegmentMemory.toIced segmentMemoryOperandToIced at hx
  rw [h] at hx
  cases hx
  exact nofun

end Entries

/-! ### Two operands -/

variable {o : Operand}

section Two

/-- Whatever is emitted is covered by a source that is read and a destination. -/
abbrev EmitsTwo (d : OperandDirection) (src dst : Operand) : Option (List Asm) → Prop := Emits [(.in_, src), (d, dst)]

variable {d : OperandDirection} {src dst : Operand} {m : Mnemonic} {w wd ws : Width} {s t : PhysicalRegister} {v : Int}

theorem src_mem : (.in_, src) ∈ [(OperandDirection.in_, src), (d, dst)] := mem_cons_self

theorem dst_mem : (d, dst) ∈ [(OperandDirection.in_, src), (d, dst)] := mem_cons_of_mem _ mem_cons_self

theorem two_idiom (ht : dst.view = .reg t) (hallowed : Access.allowedBy .write d = true) (hcancels : m.cancels = true)
    (himplicit : m.implicit = []) : EmitsTwo d src dst (emitRR m wd wd t t) := by
  intro code h
  rw [emitRR_eq_some h]
  exact covered_idiom hcancels himplicit (reported_defined ht dst_mem hallowed)

variable {bm : BasedMemory} {sm : SegmentMemory} {size : Option Width}

section Plain

variable (himplicit : m.implicit = [])
include himplicit

theorem two_mr (hs : src.view = .reg s) (ht : dst.view = .mem bm) : EmitsTwo d src dst (emitMR m (bm.toIced size) ws s) :=
  .mr himplicit (fun _ => reportedAddress_of_view ht dst_mem) (reported_of_view hs src_mem rfl)

theorem two_mi (ht : dst.view = .mem bm) : EmitsTwo d src dst (emitMI m (bm.toIced size) v) :=
  .mi himplicit fun _ => reportedAddress_of_view ht dst_mem

theorem two_mi_bind {v : Option Int} (ht : dst.view = .mem bm) :
    EmitsTwo d src dst (v.bind (emitMI m (bm.toIced size))) :=
  .bind fun _ _ => two_mi himplicit ht

variable (hallowed : m.destination.allowedBy d = true)
include hallowed

theorem two_rr (hs : src.view = .reg s) (ht : dst.view = .reg t) : EmitsTwo d src dst (emitRR m wd ws t s) :=
  .rr himplicit (reported_of_view ht dst_mem hallowed) (reported_of_view hs src_mem rfl)

theorem two_ri (ht : dst.view = .reg t) : EmitsTwo d src dst (emitRI m w t v) :=
  .ri himplicit (reported_of_view ht dst_mem hallowed)

theorem two_ri_bind {v : Option Int} (ht : dst.view = .reg t) : EmitsTwo d src dst (v.bind (emitRI m w t)) :=
  .bind fun _ _ => two_ri himplicit hallowed ht

theorem two_rm (hs : src.view = .mem bm) (ht : dst.view = .reg t) :
    EmitsTwo d src dst (emitRM m w t (bm.toIced size)) :=
  .rm himplicit (reported_of_view ht dst_mem hallowed) fun _ => reportedAddress_of_view hs src_mem

end Plain

/-! ### The modules of `instructions` -/

theorem Add.encode_covered : EmitsTwo .inOut src dst (Add.encode src dst) := by
  unfold Add.encode
  split
  · split <;> first | exact two_rr rfl rfl ‹_› ‹_› | exact .none
  · rename_i ht
    split <;> first | exact two_ri_bind rfl rfl ht | exact .none
  · rename_i ht
    split
    · split
      · exact two_mi_bind rfl ht
      · exact .none
    · exact .none
  · exact .none

theorem And.encode_covered : EmitsTwo .inOut src dst (And.encode src dst) := by
  unfold And.encode
  split
  · split
    case h_5 => exact .none
    all_goals split
    all_goals first | exact two_ri rfl rfl ‹_› | exact .none
  · split
    case h_3 => exact .none
    all_goals split
    all_goals first | exact two_mi rfl ‹_› | exact .none
  · split <;> first | exact two_rr rfl rfl ‹_› ‹_› | exact .none
  · exact .none

theorem Cmp.encode_covered : EmitsTwo .in_ src dst (Cmp.encode src dst) := by
  unfold Cmp.encode
  split
  · split <;> first | exact two_rr rfl rfl ‹_› ‹_› | exact .none
  · split <;> first | exact two_ri_bind rfl rfl ‹_› | exact .none
  · exact .none

theorem Lea.encode_covered : EmitsTwo .out src dst (Lea.encode src dst) := by
  unfold Lea.encode
  split
  · exact two_rm rfl rfl ‹_› ‹_›
  · exact .none

theorem Mov.registers_covered (hs : src.view = .reg s) (ht : dst.view = .reg t) :
    EmitsTwo .out src dst (Mov.registers s t ws wd) := by
  unfold Mov.registers
  split
  case h_1 =>
    split
    · exact .none
    · exact two_rr rfl rfl hs ht
  case h_4 => split <;> exact two_rr rfl rfl hs ht
  all_goals first | exact two_rr rfl rfl hs ht | exact .none

theorem Mov.load_covered (hs : src.view = .mem bm) (ht : dst.view = .reg t) :
    EmitsTwo .out src dst (Mov.load bm t ws wd) := by
  unfold Mov.load
  split
  case h_1 =>
    split
    · exact .none
    · exact two_rm rfl rfl hs ht
  all_goals first | exact two_rm rfl rfl hs ht | exact .none

theorem Mov.store_covered (hs : src.view = .reg s) (ht : dst.view = .mem bm) :
    EmitsTwo .out src dst (Mov.store s bm ws wd) := by
  unfold Mov.store
  split <;> first | exact two_mr rfl hs ht | exact .none

theorem Mov.storeImmediate_covered {v : Nat} (ht : dst.view = .mem bm) :
    EmitsTwo .out src dst (Mov.storeImmediate v bm ws wd) := by
  unfold Mov.storeImmediate
  split
  · exact two_mi rfl ht
  · exact two_mi_bind rfl ht
  · exact two_mi_bind rfl ht
  · -- both halves of a 64-bit store have the registers of the operand
    exact .both (two_mi rfl ht) (.mi rfl fun _ => reportedAddress_of_view (m := bm) ht dst_mem)
  · exact .none

theorem Mov.immediate_covered {v : Nat} (ht : dst.view = .reg t) : EmitsTwo .out src dst (Mov.immediate v t ws wd) := by
  unfold Mov.immediate
  split
  all_goals repeat' split
  all_goals first
    | exact two_idiom ht rfl rfl rfl
    | exact two_ri rfl rfl ht
    | exact two_ri_bind rfl rfl ht
    | exact .none

/-- A segment is only used without an index. -/
def Operand.Plain (o : Operand) : Prop :=
  ∀ index scale displacement segment, o.kind = .memory none index scale displacement segment → index = none

theorem Operand.Plain.reported {entries : List (OperandDirection × Operand)} (h : o.Plain) (ho : o.view = .segment sm) :
    ∀ x, sm.toIced size = some x → ReportedAddress entries x :=
  fun _ => reportedAddress_of_segment (h _ _ _ _ (view_segment ho))

theorem Mov.encode_covered (hsrc : src.Plain) (hdst : dst.Plain) : EmitsTwo .out src dst (Mov.encode src dst) := by
  unfold Mov.encode
  split
  · exact Mov.registers_covered ‹_› ‹_›
  · exact Mov.load_covered ‹_› ‹_›
  · rename_i hs ht
    unfold Mov.loadSegment
    split <;> first | exact .rm rfl (reported_of_view ht dst_mem rfl) (hsrc.reported hs) | exact .none
  · exact Mov.store_covered ‹_› ‹_›
  · exact Mov.storeImmediate_covered ‹_›
  · rename_i hs ht
    split
    · exact .bind fun _ _ => .mi rfl (hdst.reported ht)
    · exact .none
  · exact Mov.immediate_covered ‹_›
  · exact .none

theorem Movd.encode_covered : EmitsTwo .out src dst (Movd.encode src dst) := by
  unfold Movd.encode
  split
  · split
    case h_3 => exact .none
    all_goals split <;> exact two_rr rfl rfl ‹_› ‹_›
  · exact .none

theorem Movq.encode_covered : EmitsTwo .out src dst (Movq.encode src dst) := by
  unfold Movq.encode
  split
  · split
    all_goals repeat' split
    all_goals first | exact two_rr rfl rfl ‹_› ‹_› | exact .none
  · split
    · split
      · exact two_rm rfl rfl ‹_› ‹_›
      · exact .none
    · exact .none
  · exact .none

theorem Movsx.encode_covered : EmitsTwo .out src dst (Movsx.encode src dst) := by
  unfold Movsx.encode
  split
  · split <;> first | exact two_rr rfl rfl ‹_› ‹_› | exact .none
  · exact .none

theorem Movzx.encode_covered : EmitsTwo .out src dst (Movzx.encode src dst) := by
  unfold Movzx.encode
  split
  · rename_i ht
    split
    all_goals repeat' split
    all_goals first | exact two_idiom ht rfl rfl rfl | exact two_ri rfl rfl ht | exact .none
  · split <;> first | exact two_rr rfl rfl ‹_› ‹_› | exact .none
  · exact .none

theorem Or.encode_covered : EmitsTwo .inOut src dst (Or.encode src dst) := by
  unfold Or.encode
  split
  · rename_i ht
    split
    all_goals repeat' split
    all_goals first | exact two_ri rfl rfl ht | exact two_ri_bind rfl rfl ht | exact .none
  · split <;> first | exact two_rr rfl rfl ‹_› ‹_› | exact .none
  · exact .none

theorem Shl.immediate_covered {n : Nat} (ht : dst.view = .reg t) : EmitsTwo .inOut src dst (Shl.immediate wd n t) := by
  unfold Shl.immediate
  split
  · exact two_idiom ht rfl rfl rfl
  · exact two_ri_bind rfl rfl ht

theorem Shl.encode_covered : EmitsTwo .inOut src dst (Shl.encode src dst) := by
  unfold Shl.encode
  split
  · rename_i ht
    split
    case h_5 =>
      split
      · exact two_ri_bind rfl rfl ht
      · exact .none
    all_goals exact Shl.immediate_covered ht
  · split <;> first | exact two_rr rfl rfl ‹_› ‹_› | exact .none
  · exact .none

theorem Shr.encode_covered : EmitsTwo .inOut src dst (Shr.encode src dst) := by
  unfold Shr.encode
  split
  · rename_i ht
    split
    case h_5 =>
      split
      · exact .none
      · exact two_ri_bind rfl rfl ht
    all_goals exact two_ri_bind rfl rfl ht
  · split
    all_goals repeat' split
    all_goals first | exact two_rr rfl rfl ‹_› ‹_› | exact .none
  · exact .none

theorem Sub.encode_covered : EmitsTwo .inOut src dst (Sub.encode src dst) := by
  unfold Sub.encode
  split
  · rename_i ht
    split <;> first | exact two_ri_bind rfl rfl ht | exact .none
  · split <;> first | exact two_rr rfl rfl ‹_› ‹_› | exact .none
  · exact .none

/-- The operands are the other way round. -/
theorem Test.encode_covered : EmitsTwo .in_ src dst (Test.encode src dst) := by
  unfold Test.encode
  split
  · rename_i hs ht
    split
    all_goals first
      | exact .rr rfl (reported_of_view hs src_mem rfl) (reported_of_view ht dst_mem rfl)
      | exact .none
  · exact .none

theorem Xor.encode_covered : EmitsTwo .inOut src dst (Xor.encode src dst) := by
  unfold Xor.encode
  split
  · split <;> first | exact two_rr rfl rfl ‹_› ‹_› | exact .none
  · rename_i ht
    split <;> first | exact two_ri_bind rfl rfl ht | exact .none
  · exact .none

theorem Sar.encode_covered : EmitsTwo .inOut src dst (Sar.encode src dst) := by
  unfold Sar.encode
  split
  · split <;> first | exact two_rr rfl rfl ‹_› ‹_› | exact .none
  · rename_i ht
    split <;> first | exact two_ri_bind rfl rfl ht | exact .none
  · exact .none

theorem Imul.encode_covered : EmitsTwo .inOut src dst (Imul.encode src dst) := by
  unfold Imul.encode
  split
  · rename_i ht
    split
    · exact .bind fun _ _ => .rri rfl (reported_of_view ht dst_mem rfl) (reported_of_view ht dst_mem rfl)
    · exact .none
  · split <;> first | exact two_rr rfl rfl ‹_› ‹_› | exact .none
  · exact .none

theorem encodeRegisters_covered {srcWidth dstWidth : Width} (himplicit : m.implicit = [])
    (hallowed : m.destination.allowedBy d = true) :
    EmitsTwo d src dst (encodeRegisters m srcWidth dstWidth wd ws src dst) := by
  unfold encodeRegisters
  split
  · split
    · exact two_rr himplicit hallowed ‹_› ‹_›
    · exact .none
  · exact .none

theorem Out.encode_covered : EmitsTwo .in_ src dst (Out.encode src dst) := by
  unfold Out.encode
  split
  · rename_i ht
    split
    · exact .bind fun _ _ => .some (covered_pair trivial (reported_of_view ht dst_mem rfl) rfl)
    · exact .none
  · exact .none

theorem Cvtsi2sd.encode_covered : EmitsTwo .out src dst (Cvtsi2sd.encode src dst) := by
  unfold Cvtsi2sd.encode
  split <;> first | exact encodeRegisters_covered rfl rfl | exact .none

theorem Cvtsi2ss.encode_covered : EmitsTwo .out src dst (Cvtsi2ss.encode src dst) := by
  unfold Cvtsi2ss.encode
  split <;> first | exact encodeRegisters_covered rfl rfl | exact .none

theorem Cvtsd2si.encode_covered : EmitsTwo .out src dst (Cvtsd2si.encode src dst) := by
  unfold Cvtsd2si.encode
  split <;> first | exact encodeRegisters_covered rfl rfl | exact .none

theorem Subps.encode_covered : EmitsTwo .inOut src dst (Subps.encode src dst) := by
  unfold Subps.encode
  split
  · exact two_rr rfl rfl ‹_› ‹_›
  · exact .none

end Two

/-! ### One operand -/

section One

variable {d : OperandDirection} {a : Operand} {m : Mnemonic} {w : Width} {r : PhysicalRegister}

theorem encodeR64_eq_some {code : List Asm} (h : encodeR64 m a = some code) :
    ∃ r, a.view = .reg r ∧ code = [⟨m, [.reg ⟨.phys r, .w64⟩]⟩] := by
  unfold encodeR64 at h
  split at h
  · exact ⟨_, ‹_›, emitR_eq_some h⟩
  · cases h

/-- A division has its dividend in `rdx` and `rax`. -/
theorem encodeDiv_covered (hreads : m.destination = .read) (himplicit : m.implicit = [(.update, .rax), (.update, .rdx)]) :
    Emits [(.inOut, .preg a.width .rdx), (.inOut, .preg a.width .rax), (.in_, a)] (encodeR64 m a) := by
  intro code h
  obtain ⟨r, hr, rfl⟩ := encodeR64_eq_some h
  refine covered_instruction_single (reported_of_view (d := .in_) hr (by simp) (by rw [hreads]; rfl)) ?_
  rw [himplicit]
  exact forall_mem_cons.mpr ⟨reported_of_view (d := .inOut) (o := .preg a.width .rax) rfl (by simp) rfl,
    forall_mem_singleton.mpr (reported_of_view (d := .inOut) (o := .preg a.width .rdx) rfl (by simp) rfl)⟩

variable (himplicit : m.implicit = [])
include himplicit

theorem one_r (hallowed : m.destination.allowedBy d = true) (hr : a.view = .reg r) : Emits [(d, a)] (emitR m w r) :=
  .reg himplicit (reported_of_view hr mem_cons_self hallowed)

theorem one_m {bm : BasedMemory} {size : Option Width} (ha : a.view = .mem bm) :
    Emits [(d, a)] (emitM m (bm.toIced size)) :=
  .mem himplicit fun _ => reportedAddress_of_view ha mem_cons_self

theorem encodeJump_covered {labels : BlockRef → Option CodeLabel} {block : BlockRef} :
    Emits [(d, a)] (encodeJump m labels block) :=
  .bind fun _ _ => .some (covered_instruction_single trivial (no_implicit himplicit))

variable (hallowed : m.destination.allowedBy d = true)
include hallowed

theorem encodeSet_covered : Emits [(d, a)] (encodeSet m a) := by
  unfold encodeSet
  split
  · exact one_r himplicit hallowed ‹_›
  · exact .none

theorem encodeSetOrStore_covered : Emits [(d, a)] (encodeSetOrStore m a) := by
  unfold encodeSetOrStore
  split
  · exact one_r himplicit hallowed ‹_›
  · split
    · exact one_m himplicit ‹_›
    · exact .none
  · exact .none

theorem encodeSetByte_covered : Emits [(d, a)] (encodeSetByte m a) := by
  unfold encodeSetByte
  split
  · exact one_r himplicit hallowed ‹_›
  · exact .none

omit himplicit hallowed

theorem Setne.encode_covered : Emits [(.out, a)] (Setne.encode a) := by
  unfold Setne.encode
  split
  · rename_i hr _
    refine .both (fun _ h => ?_) (one_r rfl rfl hr)
    rw [emitRR_eq_some h]
    exact covered_idiom rfl rfl (reported_defined hr mem_cons_self rfl)
  · exact one_r rfl rfl ‹_›
  · exact .none

theorem Ptwrite.encode_covered : Emits [(.in_, a)] (Ptwrite.encode a) := by
  unfold Ptwrite.encode
  split
  · exact one_r rfl rfl ‹_›
  · exact .none

end One

/-! ### Three operands -/

variable {w : Width}

section Three

variable {a b c : Operand} {m : Mnemonic}

theorem encodeCompare_covered (hupdates : m.destination = .update) (himplicit : m.implicit = []) :
    Emits [(.in_, a), (.inOut, b), (.in_, c)] (encodeCompare m w a b c) := by
  unfold encodeCompare
  split
  · rename_i ha hb _
    split
    · exact .bind fun _ _ => .rri himplicit (reported_of_view (d := .inOut) hb (by simp) (by rw [hupdates]; rfl))
        (reported_of_view (d := .in_) ha (by simp) rfl)
    · exact .none
  · exact .none

theorem Pshuflw.encode_covered : Emits [(.in_, a), (.inOut, b), (.in_, c)] (Pshuflw.encode a b c) := by
  unfold Pshuflw.encode
  split
  · rename_i ha hb _
    split
    · split
      · exact .rri rfl (reported_of_view (d := .inOut) hb (by simp) rfl) (reported_of_view (d := .in_) ha (by simp) rfl)
      · exact .none
    · exact .none
  · exact .none

theorem Pinsr.encode_covered : Emits [(.in_, a), (.in_, b), (.inOut, c)] (Pinsr.encode a b c) := by
  unfold Pinsr.encode
  split
  · rename_i hb hc
    have hb : Reported [(.in_, a), (.in_, b), (.inOut, c)] .read _ := reported_of_view (d := .in_) hb (by simp) rfl
    split <;> first | exact .bind fun _ _ => .rri rfl (reported_of_inOut _ hc (by simp)) hb | exact .none
  · exact .none

theorem Pextr.encode_covered : Emits [(.in_, a), (.in_, b), (.out, c)] (Pextr.encode a b c) := by
  unfold Pextr.encode
  split
  · rename_i hb hc
    split
    · exact .bind fun _ _ => .rri rfl (reported_of_view (d := .out) hc (by simp) rfl)
        (reported_of_view (d := .in_) hb (by simp) rfl)
    · exact .none
  · exact .none

theorem Bextr.encode_covered : Emits [(.in_, a), (.in_, b), (.out, c)] (Bextr.encode a b c) := by
  unfold Bextr.encode
  split
  · rename_i ha hb hc
    split
    · refine .bind fun x hx => .bind fun y hy => .bind fun z hz => .some ?_
      cases tryInto_eq_some hx
      cases tryInto_eq_some hy
      cases tryInto_eq_some hz
      refine covered_instruction (reported_of_view (d := .out) hc (by simp) rfl) ?_ (no_implicit rfl)
      exact forall_mem_cons.mpr ⟨reported_of_view (d := .in_) hb (by simp) rfl,
        forall_mem_singleton.mpr (reported_of_view (d := .in_) ha (by simp) rfl)⟩
    · exact .none
  · exact .none

theorem encodeMul_covered (hreads : m.destination = .read) (himplicit : m.implicit = [(.update, .rax), (.write, .rdx)]) :
    Emits [(.in_, a), (.inOut, b), (.out, c)] (encodeMul m a b c) := by
  unfold encodeMul
  split
  · rename_i ha hb hc
    split
    · split
      · rename_i heq
        rw [heq.2] at hb
        rw [heq.1] at hc
        intro code h
        rw [emitR_eq_some h]
        refine covered_instruction_single (reported_of_view (d := .in_) ha (by simp) (by rw [hreads]; rfl)) ?_
        rw [himplicit]
        exact forall_mem_cons.mpr ⟨reported_of_view (d := .inOut) hb (by simp) rfl,
          forall_mem_singleton.mpr (reported_of_view (d := .out) hc (by simp) rfl)⟩
      · exact .none
    · exact .none
  · exact .none

end Three

/-! ### The exceptions -/

variable (d : OperandDirection)

theorem usesOf_cons (o : Operand) (entries : List (OperandDirection × Operand)) :
    usesOf ((d, o) :: entries) = (o.useDefs d).filterMap (·.1.used) ++ usesOf entries := by
  simp [usesOf]

theorem defsOf_cons (o : Operand) (entries : List (OperandDirection × Operand)) :
    defsOf ((d, o) :: entries) = (o.useDefs d).filterMap (·.1.defined) ++ defsOf entries := by
  simp [defsOf]

theorem defined_in (o : Operand) : (o.useDefs .in_).filterMap (·.1.defined) = [] := by
  unfold useDefs
  split <;> rfl

theorem defined_inOut (o : Operand) : (o.useDefs .inOut).filterMap (·.1.defined) = o.asRegister.toList := by
  unfold useDefs asRegister
  split <;> simp_all [UseDef.defined, UseDef.ofDirection]

variable {r : PhysicalRegister}

theorem asRegister_of_view (h : o.view = .reg r) : o.asRegister = some (.physical r) := by
  rw [asRegister, view_reg h]

theorem view_of_asRegister (h : o.asRegister = some (.physical r)) : o.view = .reg r := by
  unfold asRegister at h
  split at h
  · rename_i hkind
    cases h
    rw [view, hkind]
  · cases h

section Exceptions

variable {code : List Asm}

/-- All that is reported as defined by `ADC` is its carry operand, and by `SHRD` its high half. -/
theorem defsOf_lastInOut (a b c : Operand) : defsOf [(.in_, a), (.in_, b), (.inOut, c)] = c.asRegister.toList := by
  rw [defsOf_cons, defsOf_cons, defsOf_cons, defined_in, defined_in, defined_inOut]
  exact append_nil _

variable {r : PhysicalRegister}

/-- The sum is written to the register that `ADC` reports as read only. -/
theorem Adc.encodeAt_writes {src carry : OperandView} (h : Adc.encodeAt w src r carry = some code) :
    ∃ a ∈ code, .phys r ∈ a.writes := by
  have hadd : ∀ {m : Mnemonic} {s : PhysicalRegister} {c : List Asm}, m.destination = .update →
      emitRR m w w r s = some c → ∃ a ∈ c, .phys r ∈ a.writes := by
    intro m s c hm hc
    rw [emitRR_eq_some hc]
    refine ⟨_, mem_cons_self, mem_append_left _ ?_⟩
    change _ ∈ if m.destination.isWrite then _ else _
    rw [hm]
    exact mem_cons_self
  have hboth : ∀ {first second : Option (List Asm)}, (∀ c, second = some c → ∃ a ∈ c, .phys r ∈ a.writes) →
      emitBoth first second = some code → ∃ a ∈ code, .phys r ∈ a.writes := by
    intro first second hsecond hc
    obtain ⟨c, c', -, hc', hc⟩ := bind₂_eq_some hc
    cases hc
    obtain ⟨a, ha, hr⟩ := hsecond c' hc'
    exact ⟨a, mem_append_right _ ha, hr⟩
  unfold Adc.encodeAt at h
  split at h
  · exact hboth (fun c hc => hadd rfl hc) h
  · split at h
    · exact hadd rfl h
    · split at h
      · exact hboth (fun c hc => hadd rfl hc) h
      · cases h
  · obtain ⟨x, -, h⟩ := bind_eq_some_iff.mp h
    rw [emitRI_eq_some h]
    exact ⟨_, mem_cons_self, mem_cons_self⟩
  · split at h
    · exact hboth (fun c hc => hadd rfl hc) h
    · cases h
  · cases h

variable {src dst : Operand} {carry : Operand}

/-- The carry operand is the destination: then it is reported as updated. -/
theorem Adc.encodeAt_covered (hcarry : carry.view = .reg r) :
    Emits [(.in_, src), (.in_, dst), (.inOut, carry)] (Adc.encodeAt w src.view r carry.view) := by
  have hr : ∀ {access}, Reported [(.in_, src), (.in_, dst), (.inOut, carry)] access r :=
    reported_of_inOut _ hcarry (by simp)
  unfold Adc.encodeAt
  rw [hcarry]
  split
  · rename_i hs heq
    cases heq
    exact .both (.ri rfl hr) (.rr rfl hr (reported_of_view (d := .in_) hs (by simp) rfl))
  · rename_i heq
    cases heq
  · rename_i heq
    cases heq
  · rename_i heq
    cases heq
    split
    · exact .both (.rr rfl hr hr) (.rr rfl hr hr)
    · exact .none
  · exact .none

/-- **`ADC` is right only when its destination is its carry operand.** -/
theorem Adc.encode_covered_iff (h : Adc.encode src dst carry = some code) :
    Covered [(.in_, src), (.in_, dst), (.inOut, carry)] code ↔ dst.asRegister = carry.asRegister := by
  obtain ⟨w, r, hdst, hat⟩ : ∃ w r, dst.view = .reg r ∧ Adc.encodeAt w src.view r carry.view = some code := by
    unfold Adc.encode at h
    split at h
    · exact ⟨_, _, ‹_›, h⟩
    · exact ⟨_, _, ‹_›, h⟩
    · cases h
  constructor
  · intro hcovered
    obtain ⟨a, ha, hr⟩ := Adc.encodeAt_writes hat
    have hdef : .physical r ∈ defsOf [(.in_, src), (.in_, dst), (.inOut, carry)] := hcovered.writes a ha _ hr
    rw [defsOf_lastInOut] at hdef
    rw [asRegister_of_view hdst]
    exact (Option.mem_toList.mp hdef).symm
  · intro heq
    rw [asRegister_of_view hdst] at heq
    exact Adc.encodeAt_covered (view_of_asRegister heq.symm) hat

/-- **`SHRD` shifts into the low half, but the high half is reported as updated.** -/
theorem Shrd.encode_covered_iff {amount hi lo : Operand} (h : Shrd.encode amount hi lo = some code) :
    Covered [(.in_, amount), (.in_, lo), (.inOut, hi)] code ↔ hi.asRegister = lo.asRegister := by
  unfold Shrd.encode at h
  split at h
  · rename_i l _ hhi hlo
    split at h
    · constructor
      · intro hcovered
        obtain ⟨v, -, h⟩ := bind_eq_some_iff.mp h
        rw [emitRRI_eq_some h] at hcovered
        have hdef : .physical l ∈ defsOf [(.in_, amount), (.in_, lo), (.inOut, hi)] :=
          hcovered.writes _ mem_cons_self (.phys l) mem_cons_self
        rw [defsOf_lastInOut] at hdef
        rw [asRegister_of_view hlo]
        exact Option.mem_toList.mp hdef
      · intro heq
        rw [asRegister_of_view hlo] at heq
        have hl := view_of_asRegister heq
        rw [hhi] at hl
        cases hl
        refine Emits.bind (fun _ _ => .rri rfl ?_ ?_) h
        · exact reported_of_view (d := .inOut) hhi (by simp) rfl
        · exact reported_of_view (d := .in_) hlo (by simp) rfl
    · cases h
  · cases h

/-- A conditional move keeps its destination when the condition does not hold, but reports it as written only. -/
theorem conditionalMove_covered_iff {m : Mnemonic} {s t : PhysicalRegister} (hs : src.view = .reg s)
    (ht : dst.view = .reg t) (hm : m.destination = .update) (hcancels : m.cancels = false) (himplicit : m.implicit = [])
    (h : emitRR m w w t s = some code) : Covered [(.in_, src), (.out, dst)] code ↔ src.asRegister = dst.asRegister := by
  rw [asRegister_of_view hs, asRegister_of_view ht, emitRR_eq_some h]
  constructor
  · intro hcovered
    have hread : HostRegister.phys t ∈ Asm.reads ⟨m, [.reg ⟨.phys t, w⟩, .reg ⟨.phys s, w⟩]⟩ := by
      simp [Asm.reads, Asm.isIdiom, hcancels, Asm.explicitReads, AsmOperand.reads, hm, Access.isRead]
    have huse : .physical t ∈ usesOf [(.in_, src), (.out, dst)] := hcovered.reads _ mem_cons_self _ hread
    rw [usesOf_cons, usesOf_cons, useDefs, useDefs, view_reg hs, view_reg ht] at huse
    exact congrArg some (mem_singleton.mp huse).symm
  · intro heq
    cases heq
    refine covered_instruction ⟨fun _ => ?_, fun _ => reported_defined ht dst_mem rfl⟩ ?_ (no_implicit himplicit)
    · exact reported_used hs src_mem rfl
    · intro o ho
      rw [mem_singleton.mp ho]
      exact reported_of_view hs src_mem rfl

theorem Cmovne.encode_covered_iff (h : Cmovne.encode src dst = some code) :
    Covered [(.in_, src), (.out, dst)] code ↔ src.asRegister = dst.asRegister := by
  unfold Cmovne.encode at h
  split at h
  · split at h <;> first | exact conditionalMove_covered_iff ‹_› ‹_› rfl rfl rfl h | cases h
  · cases h

theorem cmove_covered_iff (h : encodeRegisters .cmove .w64 .w64 .w64 .w64 src dst = some code) :
    Covered [(.in_, src), (.out, dst)] code ↔ src.asRegister = dst.asRegister := by
  unfold encodeRegisters at h
  split at h
  · split at h
    · exact conditionalMove_covered_iff ‹_› ‹_› rfl rfl rfl h
    · cases h
  · cases h

variable {entries : List (OperandDirection × Operand)} {m : Mnemonic} {ops : List AsmOperand}

/-- What an instruction writes without naming it must be reported. -/
theorem not_covered_of_write (himplicit : (.update, r) ∈ m.implicit) (hdefs : .physical r ∉ defsOf entries) :
    ¬ Covered entries [⟨m, ops⟩] := by
  intro hcovered
  refine hdefs (hcovered.writes _ mem_cons_self (.phys r) (mem_append_right _ ?_))
  exact mem_map.mpr ⟨_, mem_filter.mpr ⟨himplicit, rfl⟩, rfl⟩

theorem not_covered_of_read (himplicit : (.update, r) ∈ m.implicit) (huses : .physical r ∉ usesOf entries) :
    ¬ Covered entries [⟨m, ops⟩] := by
  intro hcovered
  refine huses (hcovered.reads _ mem_cons_self (.phys r) (mem_append_right _ ?_))
  exact mem_map.mpr ⟨_, mem_filter.mpr ⟨himplicit, rfl⟩, rfl⟩

theorem not_mem_defsOf_in {r : Register} (a : Operand) : r ∉ defsOf [(.in_, a)] := by
  rw [defsOf_cons, defined_in]
  exact not_mem_nil

/-- `CMPXCHG` writes the value it finds to `rax`. -/
theorem Cmpxchg.encode_not_covered (h : Cmpxchg.encode src dst = some code) :
    ¬ Covered [(.in_, src), (.inOut, dst), (.in_, .preg .w64 .rax)] code := by
  have hdefs : ∀ {bm}, dst.view = .mem bm →
      .physical .rax ∉ defsOf [(.in_, src), (.inOut, dst), (.in_, .preg .w64 .rax)] := by
    intro bm hmem
    obtain ⟨segment, hkind⟩ := view_mem hmem
    rw [defsOf_cons, defsOf_cons, defsOf_cons, defined_in, defined_in, defined_inOut, asRegister, hkind]
    exact not_mem_nil
  have hnot : ∀ {bm size w s}, dst.view = .mem bm → emitMR .cmpxchg (bm.toIced size) w s = some code →
      ¬ Covered [(.in_, src), (.inOut, dst), (.in_, .preg .w64 .rax)] code := by
    intro bm size w s hmem hc
    obtain ⟨x, -, rfl⟩ := emitMR_eq_some hc
    exact not_covered_of_write mem_cons_self (hdefs hmem)
  unfold Cmpxchg.encode at h
  split at h
  · split at h <;> first | exact hnot ‹_› h | cases h
  · cases h

/-- `not` of a vector uses `xmm8`. -/
theorem Not.encode_covered_iff {a : Operand} (h : Not.encode a = some code) :
    Covered [(.inOut, a)] code ↔ a.width ≠ .w128 := by
  unfold Not.encode at h
  split at h
  · rename_i hr
    split at h
    case h_1 hw =>
      obtain ⟨x, -, h⟩ := bind_eq_some_iff.mp h
      cases h
      refine iff_of_false ?_ (absurd hw)
      intro hcovered
      exact hcovered.writes _ mem_cons_self .xmm8 mem_cons_self
    all_goals
      rename_i hw
      rw [hw]
      exact iff_of_true (one_r rfl rfl hr h) (by decide)
  · cases h

/-- A call writes `rsp`, and reports only its results as written. -/
theorem call_not_covered {function : Operand} {nrInputArgs nrOutputArgs : Nat}
    (h : encodeR64 .call function = some code) :
    ¬ Covered (Opcode.getApparentOperands (.call function nrInputArgs nrOutputArgs)) code := by
  obtain ⟨r, -, rfl⟩ := encodeR64_eq_some h
  refine not_covered_of_write mem_cons_self fun hdef => ?_
  obtain ⟨ud, hud, hdefined⟩ := mem_filterMap.mp hdef
  obtain ⟨p, hp, hud⟩ := mem_flatMap.mp hud
  rcases mem_cons.mp hp with rfl | hp
  · exact not_mem_defsOf_in function (mem_defsOf ud mem_cons_self hud hdefined)
  rcases mem_append.mp hp with hp | hp
  · obtain ⟨x, -, rfl⟩ := mem_map.mp hp
    cases mem_singleton.mp hud
    cases hdefined
  · obtain ⟨x, hx, rfl⟩ := mem_map.mp hp
    cases mem_singleton.mp hud
    cases hdefined
    have hresult : PhysicalRegister.rsp ∈ [PhysicalRegister.rax, .rdx] := mem_of_mem_take hx
    exact absurd hresult (by decide)

end Exceptions

/-! ### Every instruction -/

/-- What the emitter can build: memory operands without a base come from `mem_seg_displ`. -/
def Opcode.Buildable (i : Opcode) : Prop := ∀ o ∈ i.operands, o.Plain

def Op1.Regular (op : Op1) (a : Operand) : Prop :=
  match op with
  | .push | .pop | .int => False
  | .not => a.width ≠ .w128
  | _ => True

def Op2.Regular (op : Op2) (src dst : Operand) : Prop :=
  match op with
  | .cmove | .cmovne => src.asRegister = dst.asRegister
  | .cmpxchg => False
  | _ => True

def Op3.Regular (op : Op3) (_ b c : Operand) : Prop :=
  match op with
  | .adc => b.asRegister = c.asRegister
  | .shrd => b.asRegister = c.asRegister
  | _ => True

/-- The instructions whose directions are right: no stack operation, no compare-and-exchange, no inverted vector, no
dead one (`emit_call` pushes these, and the second table panics on them), and no add with carry, double shift or
conditional move unless the operand that is written happens to be the one that is reported so. -/
def Opcode.Regular : Opcode → Prop
  | .op0 op => op ≠ .ret ∧ op ≠ .dead
  | .op1 op a => op.Regular a
  | .op2 op a b => op.Regular a b
  | .op3 op a b c => op.Regular a b c
  | .call _ _ _ => False

section Opcodes

variable {labels : BlockRef → Option CodeLabel} {a b c : Operand} {code : List Asm}

theorem Op1.covers_iff (op : Op1) (ha : a.Plain) (h : op.encode labels a = some code) :
    Opcode.Covers (.op1 op a) code ↔ op.Regular a := by
  cases op
  case not => exact Not.encode_covered_iff h
  case push =>
    obtain ⟨r, -, rfl⟩ := encodeR64_eq_some h
    exact iff_of_false (not_covered_of_write mem_cons_self (not_mem_defsOf_in a)) id
  case pop =>
    obtain ⟨r, hr, rfl⟩ := encodeR64_eq_some h
    refine iff_of_false (not_covered_of_read mem_cons_self ?_) id
    change _ ∉ usesOf [(.out, a)]
    rw [usesOf_cons, useDefs, view_reg hr]
    exact not_mem_nil
  case int =>
    unfold Op1.encode at h
    dsimp only at h
    split at h
    · obtain ⟨n, -, h⟩ := bind_eq_some_iff.mp h
      cases h
      exact iff_of_false (not_covered_of_write mem_cons_self (not_mem_defsOf_in a)) id
    · cases h
  all_goals refine iff_of_true ?_ trivial
  case setne => exact Setne.encode_covered h
  case ptwrite => exact Ptwrite.encode_covered h
  case idiv | div => exact encodeDiv_covered rfl rfl h
  case seta | setg | setae | setge => exact encodeSet_covered rfl rfl h
  case sete | seto | setc | sets => exact encodeSetOrStore_covered rfl rfl h
  case setb | setnz | setbe | setle | setl => exact encodeSetByte_covered rfl rfl h
  case inc =>
    unfold Op1.encode at h
    dsimp only at h
    split at h
    · rename_i hview _
      exact Emits.mem rfl (ha.reported hview) h
    · cases h
  case neg =>
    unfold Op1.encode at h
    dsimp only at h
    split at h
    · exact one_r rfl rfl ‹_› h
    · cases h
  case jmp =>
    unfold Op1.encode at h
    dsimp only at h
    split at h
    · exact encodeJump_covered rfl h
    · exact one_m rfl ‹_› h
    · cases h
  case je | jne =>
    unfold Op1.encode at h
    dsimp only at h
    split at h
    · exact encodeJump_covered rfl h
    · cases h

theorem Op2.covers_iff (op : Op2) (ha : a.Plain) (hb : b.Plain) (h : op.encode a b = some code) :
    Opcode.Covers (.op2 op a b) code ↔ op.Regular a b := by
  cases op
  case cmpxchg => exact iff_of_false (Cmpxchg.encode_not_covered h) id
  case cmovne => exact Cmovne.encode_covered_iff h
  case cmove => exact cmove_covered_iff h
  all_goals refine iff_of_true ?_ trivial
  case mov => exact Mov.encode_covered ha hb h
  case movzx => exact Movzx.encode_covered h
  case movsx => exact Movsx.encode_covered h
  case movq => exact Movq.encode_covered h
  case movd => exact Movd.encode_covered h
  case lea => exact Lea.encode_covered h
  case shl => exact Shl.encode_covered h
  case shr => exact Shr.encode_covered h
  case sar => exact Sar.encode_covered h
  case add => exact Add.encode_covered h
  case sub => exact Sub.encode_covered h
  case or => exact Or.encode_covered h
  case xor => exact Xor.encode_covered h
  case and => exact And.encode_covered h
  case imul => exact Imul.encode_covered h
  case subps => exact Subps.encode_covered h
  case test => exact Test.encode_covered h
  case cmp => exact Cmp.encode_covered h
  case out => exact Out.encode_covered h
  case cvtsi2sd => exact Cvtsi2sd.encode_covered h
  case cvtsi2ss => exact Cvtsi2ss.encode_covered h
  case cvtsd2si => exact Cvtsd2si.encode_covered h
  case sqrtss => cases h
  all_goals exact encodeRegisters_covered rfl rfl h

theorem Op3.covers_iff (h : op.encode a b c = some code) : Opcode.Covers (.op3 op a b c) code ↔ op.Regular a b c := by
  cases op
  case adc => exact Adc.encode_covered_iff h
  case shrd => exact Shrd.encode_covered_iff h
  case shld => cases h
  all_goals refine iff_of_true ?_ trivial
  case mul | imul1 => exact encodeMul_covered rfl rfl h
  case cmppd | cmpps => exact encodeCompare_covered rfl rfl h
  case bextr => exact Bextr.encode_covered h
  case pextr => exact Pextr.encode_covered h
  case pinsr => exact Pinsr.encode_covered h
  case pshuflw => exact Pshuflw.encode_covered h

theorem Op0.covers_iff (op : Op0) (h : Opcode.encode labels (.op0 op) = some code) :
    Opcode.Covers (.op0 op) code ↔ op ≠ .ret := by
  cases op with
  | ret =>
    cases h
    exact iff_of_false (not_covered_of_write mem_cons_self not_mem_nil) (absurd rfl)
  | cqo =>
    cases h
    refine iff_of_true ⟨?_, ?_⟩ nofun
    · intro x hx r hr
      cases mem_singleton.mp hx
      cases mem_singleton.mp hr
      exact reported_used (d := .inOut) (o := .preg .w64 .rax) rfl mem_cons_self rfl
    · intro x hx r hr
      cases mem_singleton.mp hx
      cases mem_singleton.mp hr
      exact reported_defined (d := .out) (o := .preg .w64 .rdx) rfl (mem_cons_of_mem _ mem_cons_self) rfl
  | nop =>
    cases h
    refine iff_of_true ⟨?_, ?_⟩ nofun
    · intro x hx r hr
      cases mem_singleton.mp hx
      cases hr
    · intro x hx r hr
      cases mem_singleton.mp hx
      cases hr
  | dead | label =>
    cases h
    exact iff_of_true .nil nofun

/-- **The reported directions cover the encoding, and the two tables agree, for the regular instructions and for no
other**: over every instruction that the emitter can build, with any registers assigned to its operands. -/
theorem Opcode.reported_iff {i : Opcode} (hi : i.Buildable) (h : i.encode labels = some code) :
    i.Covers code ∧ i.SameDirections ↔ i.Regular := by
  cases i with
  | op0 op =>
    rw [Op0.covers_iff op h, Op0.sameDirections_iff]
    exact Iff.rfl
  | op1 op a =>
    have hsame : (Opcode.op1 op a).SameDirections := Opcode.sameDirections nofun
    rw [and_iff_left hsame]
    exact Op1.covers_iff op (hi a mem_cons_self) h
  | op2 op a b =>
    have hsame : (Opcode.op2 op a b).SameDirections := Opcode.sameDirections nofun
    rw [and_iff_left hsame]
    exact Op2.covers_iff op (hi a mem_cons_self) (hi b (mem_cons_of_mem _ mem_cons_self)) h
  | op3 op a b c =>
    have hsame : (Opcode.op3 op a b c).SameDirections := Opcode.sameDirections nofun
    rw [and_iff_left hsame]
    exact Op3.covers_iff op h
  | call function nrInputArgs nrOutputArgs => exact iff_of_false (fun hboth => call_not_covered h hboth.1) id

end Opcodes

/-- `adc rdi, rsi` with the carry in `cl`, as the emitter builds it for an addition with carry. -/
def addWithCarry : Opcode := .op3 .adc (.preg .w64 .rsi) (.preg .w64 .rdi) (.preg .w8 .rcx)

/-- The sum goes to `rdi`, which is reported as read only. -/
theorem addWithCarry_unreported : addWithCarry.Buildable ∧ ∃ code, addWithCarry.encode (fun _ => none) = some code ∧
      ¬ (addWithCarry.Covers code ∧ addWithCarry.SameDirections) := by
  refine ⟨?_, _, rfl, fun hboth => ?_⟩
  · intro o ho index scale displacement segment hkind
    simp only [addWithCarry, Opcode.operands, mem_cons, not_mem_nil, or_false] at ho
    rcases ho with rfl | rfl | rfl <;> cases hkind
  · have heq := (Adc.encode_covered_iff rfl).mp hboth.1
    exact absurd heq (by decide)

/-- `add rdi, rsi`. -/
def addRegisters : Opcode := .op2 .add (.preg .w64 .rsi) (.preg .w64 .rdi)

theorem reported_addRegisters :
    ∃ code, addRegisters.encode (fun _ => none) = some code ∧ code ≠ [] ∧ addRegisters.Regular ∧
      (addRegisters.Covers code ∧ addRegisters.SameDirections ↔ addRegisters.Regular) := by
  refine ⟨_, rfl, nofun, trivial, Opcode.reported_iff ?_ (rfl : addRegisters.encode (fun _ => none) = _)⟩
  intro o ho index scale displacement segment hkind
  simp only [addRegisters, Opcode.operands, mem_cons, not_mem_nil, or_false] at ho
  rcases ho with rfl | rfl <;> cases hkind

end Icewind.X86
