import Icewind.X86.AllocatorCommit
import Mathlib.Data.List.Perm.Subperm

/-!
# Straight-line code over virtual registers

* `Semantics` — what instructions compute, over any state of memory and flags: an instruction is a
  function of the values it reads to the values it writes, whatever registers they stand in.
* `run` — execution of a list of instructions, over virtual or physical registers.
* `StraightLine` — a list without jumps, calls and conditional moves whose registers are all virtual
  and written before they are read.
* `Opcode.mapRegisters` — an instruction with its registers renamed, and what renaming leaves alone.
-/

namespace Icewind.X86

open List Option Opcode

/-! ## Renaming registers -/

/-- All registers of an operand, whether or not the use/def table shows them. -/
def Operand.registers (o : Operand) : List Register :=
  match o.kind with
  | .memory base index .. => base.toList ++ index.toList
  | .register r => [r]
  | _ => []

def Operand.mapRegisters (g : Register → Register) (o : Operand) : Operand :=
  match o.kind with
  | .memory base index scale d s => { o with kind := .memory (base.map g) (index.map g) scale d s }
  | .register r => { o with kind := .register (g r) }
  | _ => o

def Opcode.mapRegisters (g : Register → Register) : Opcode → Opcode
  | .op0 op => .op0 op
  | .op1 op a => .op1 op (a.mapRegisters g)
  | .op2 op a b => .op2 op (a.mapRegisters g) (b.mapRegisters g)
  | .op3 op a b c => .op3 op (a.mapRegisters g) (b.mapRegisters g) (c.mapRegisters g)
  | .call function i o => .call (function.mapRegisters g) i o

def UseDef.map (g : Register → Register) : UseDef → UseDef
  | .use r => .use (g r)
  | .def_ r => .def_ (g r)
  | .useDef r => .useDef (g r)

variable (d : OperandDirection) (o : Operand)

section Rename

variable {g h : Register → Register}

@[simp] theorem Operand.mapRegisters_width : (o.mapRegisters g).width = o.width := by
  unfold Operand.mapRegisters
  split <;> rfl

theorem Operand.mapRegisters_mapRegisters : (o.mapRegisters g).mapRegisters h = o.mapRegisters fun r => h (g r) := by
  obtain ⟨k, w⟩ := o
  cases k with
  | memory base index scale d s => simp [mapRegisters, Function.comp_def]
  | register | immediate | target => rfl

theorem Operand.mapRegisters_congr {o : Operand} (hr : ∀ r ∈ o.registers, g r = h r) :
    o.mapRegisters g = o.mapRegisters h := by
  obtain ⟨k, w⟩ := o
  cases k with
  | memory base index scale d s =>
    have hb : base.map g = base.map h := by
      cases base with
      | none => rfl
      | some b => simp [hr b (by simp [registers])]
    have hx : index.map g = index.map h := by
      cases index with
      | none => rfl
      | some x => simp [hr x (by simp [registers])]
    simp [mapRegisters, hb, hx]
  | register r => simp [mapRegisters, hr r (by simp [registers])]
  | immediate | target => rfl

theorem Operand.registers_mapRegisters : (o.mapRegisters g).registers = o.registers.map g := by
  obtain ⟨k, w⟩ := o
  cases k with
  | memory base index scale d s => cases base <;> cases index <;> rfl
  | register | immediate | target => rfl

theorem Operand.useDefs_mapRegisters (o : Operand) :
    (o.mapRegisters g).useDefs d = (o.useDefs d).map fun p => (p.1.map g, p.2) := by
  obtain ⟨k, w⟩ := o
  cases k with
  | memory base index scale displacement segment => cases base <;> cases index <;> rfl
  | register r => cases d <;> rfl
  | immediate | target => rfl

theorem Opcode.operands_mapRegisters (i : Opcode) :
    (i.mapRegisters g).operands = i.operands.map (Operand.mapRegisters g) := by
  cases i <;> rfl

theorem Opcode.mapRegisters_mapRegisters (i : Opcode) :
    (i.mapRegisters g).mapRegisters h = i.mapRegisters fun r => h (g r) := by
  cases i <;> simp [mapRegisters, Operand.mapRegisters_mapRegisters]

theorem Opcode.mapRegisters_congr {i : Opcode} (hr : ∀ o ∈ i.operands, ∀ r ∈ o.registers, g r = h r) :
    i.mapRegisters g = i.mapRegisters h := by
  have ho : ∀ o ∈ i.operands, o.mapRegisters g = o.mapRegisters h := fun o ho =>
    Operand.mapRegisters_congr (hr o ho)
  cases i with
  | op0 op => rfl
  | op1 op a => simp [mapRegisters, ho a (by simp [operands])]
  | op2 op a b => simp [mapRegisters, ho a (by simp [operands]), ho b (by simp [operands])]
  | op3 op a b c =>
    simp [mapRegisters, ho a (by simp [operands]), ho b (by simp [operands]), ho c (by simp [operands])]
  | call f a b => simp [mapRegisters, ho f (by simp [operands])]

/-- Implicit operands are physical registers, which the renaming leaves alone. -/
theorem Opcode.getApparentOperands_mapRegisters (hg : ∀ p, g (.physical p) = .physical p) (i : Opcode) :
    (i.mapRegisters g).getApparentOperands = i.getApparentOperands.map fun p => (p.1, p.2.mapRegisters g) := by
  have hp : ∀ w p, (Operand.preg w p).mapRegisters g = .preg w p := by
    intro w p
    simp [Operand.preg, Operand.mapRegisters, hg]
  cases i with
  | op0 op | op1 op | op2 op => cases op <;> simp [mapRegisters, getApparentOperands, hp]
  | op3 op a b c => cases op <;> simp [mapRegisters, getApparentOperands, Op3.operands]
  | call f a b => simp [mapRegisters, getApparentOperands, hp, Function.comp_def]

theorem Opcode.getUseDefs_mapRegisters (hg : ∀ p, g (.physical p) = .physical p) (i : Opcode) :
    (i.mapRegisters g).getUseDefs = i.getUseDefs.map fun p => (p.1.map g, p.2) := by
  simp only [getUseDefs, getApparentOperands_mapRegisters hg, flatMap_map, map_flatMap, Operand.useDefs_mapRegisters]

end Rename

/-! ## Execution -/

def Register.cls : Register → RegisterClass
  | .physical p => p.class_
  | .virtual _ c => c
  | .global _ => .general

/-- An instruction without the names of its registers. -/
def Opcode.shape (i : Opcode) : Opcode := i.mapRegisters fun r => .virtual 0 r.cls

/-- The registers read, in the order of the table. -/
def Opcode.reads (i : Opcode) : List (Register × Width) :=
  i.getUseDefs.filterMap fun p => p.1.used.map fun r => (r, p.2)

/-- The registers written, in the order of the table. -/
def Opcode.writes (i : Opcode) : List (Register × Width) :=
  i.getUseDefs.filterMap fun p => p.1.defined.map fun r => (r, p.2)

/-- What instructions compute, with everything but registers in a state `σ`.  An instruction reads
and writes exactly what the use/def table declares: it maps the values read, in the order of the
table, to the value of each register written and a new state. -/
structure Semantics (σ : Type) where
  exec : Opcode → List Nat → σ → (Nat → Nat) × σ
  /-- A move of something to itself changes no memory and no flags. -/
  mov_state : ∀ o values s, (exec (.mov o o) values s).2 = s
  /-- A move between registers writes the value read. -/
  mov_value : ∀ r w x s, (exec (.mov ⟨.register r, w⟩ ⟨.register r, w⟩) [x] s).1 0 = x

abbrev RegisterFile := Register → Nat

/-- A write of `w` bits.  In a general register a 32-bit write clears the upper half; any other
write leaves the bits above `w` alone. -/
def writeBits (c : RegisterClass) (w : Width) (old value : Nat) : Nat :=
  if c = .general ∧ w = .w32 then value % 2 ^ 32
  else old / 2 ^ w.bits * 2 ^ w.bits + value % 2 ^ w.bits

def writeRegister (R : RegisterFile) (p : Register × Width) (value : Nat) : RegisterFile :=
  Function.update R p.1 (writeBits p.1.cls p.2 (R p.1) value)

/-- Write the `j`-th value and the following ones, in order. -/
def writeAll (values : Nat → Nat) : Nat → List (Register × Width) → RegisterFile → RegisterFile
  | _, [], R => R
  | j, p :: ps, R => writeAll values (j + 1) ps (writeRegister R p (values j))

def readRegister (R : RegisterFile) (p : Register × Width) : Nat := R p.1 % 2 ^ p.2.bits

/-- Execute one instruction. -/
def step {σ : Type} (S : Semantics σ) (c : RegisterFile × σ) (i : Opcode) : RegisterFile × σ :=
  if i = .dead then c
  else
    let r := S.exec i.shape (i.reads.map (readRegister c.1)) c.2
    (writeAll r.1 0 i.writes c.1, r.2)

/-- Execute a list of instructions. -/
def run {σ : Type} (S : Semantics σ) (is : List Opcode) (c : RegisterFile × σ) : RegisterFile × σ :=
  is.foldl (step S) c

/-! ## Well-formed straight-line code -/

/-- Neither a jump nor a call nor a conditional move. -/
def Opcode.isPlain : Opcode → Bool
  | .jmp _ | .je _ | .jne _ | .op2 .cmove _ _ | .cmovne _ _ | .call .. => false
  | _ => true

/-- How many low bits of each virtual register a write makes known. -/
def learn (known : Nat → Nat) (p : Register × Width) : Nat → Nat :=
  match p.1 with
  | .virtual v c =>
    Function.update known v (if c = .general ∧ p.2 = .w32 then 64 else max (known v) p.2.bits)
  | _ => known

/-- How many low bits of each virtual register a list of instructions has written. -/
def knownBits (is : List Opcode) : Nat → Nat := is.foldl (fun known i => i.writes.foldl learn known) fun _ => 0

/-- The number of registers the allocator has for each class. -/
def RegisterClass.limit : RegisterClass → Nat
  | .general => 13
  | .xmm => 8

/-- An instruction before index `k` writes the register. -/
def WrittenBefore (is : List Opcode) (v k : Nat) : Prop :=
  ∃ j i, j < k ∧ is[j]? = some i ∧ v ∈ i.writtenVirtuals

/-- An instruction before index `k` reads the register. -/
def ReadBefore (is : List Opcode) (v k : Nat) : Prop :=
  ∃ j i, j < k ∧ is[j]? = some i ∧ v ∈ i.readVirtuals

/-- The instruction at `k` writes the register without reading it by the same operand. -/
def PurelyWritten (is : List Opcode) (v k : Nat) : Prop :=
  ∃ i c, is[k]? = some i ∧ .def_ (.virtual v c) ∈ i.definitions

/-- Straight-line code over the virtual registers below `n`, `cls` giving the class of each. -/
structure StraightLine (n : Nat) (cls : Nat → RegisterClass) (is : List Opcode) : Prop where
  plain : ∀ i ∈ is, i.isPlain = true
  /-- The use/def table declares every register of an operand. -/
  declared : ∀ i ∈ is, ∀ o ∈ i.operands, o.registers = o.seen
  virtual : ∀ i ∈ is, ∀ p ∈ i.getUseDefs, ∃ v < n, p.1.reg = .virtual v (cls v)
  /-- All bits that are read have been written before. -/
  written : ∀ (k : Nat) (i : Opcode), is[k]? = some i → ∀ p ∈ i.reads, ∀ v c, p.1 = .virtual v c →
    p.2.bits ≤ knownBits (is.take k) v
  /-- Whatever is written is read somewhere. -/
  read : ∀ v, WrittenBefore is v is.length → ReadBefore is v is.length
  /-- A register that is purely overwritten has been read, at the latest by the same instruction. -/
  overwritten : ∀ v k, PurelyWritten is v k → WrittenBefore is v k → ReadBefore is v (k + 1)
  /-- At no point are more registers of a class live than the allocator has. -/
  pressure : ∀ (k : Nat) (c : RegisterClass) (vs : List Nat), vs.Nodup →
    (∀ v ∈ vs, cls v = c ∧ LiveAt is v k) → vs.length ≤ c.limit

/-- What the allocator needs beyond that of a register that is purely overwritten: an earlier
instruction has read it, and if it is not read again, any other register of its class that is live
then is at some point live together with it. -/
structure Settled (cls : Nat → RegisterClass) (is : List Opcode) : Prop where
  readBefore : ∀ v k, PurelyWritten is v k → WrittenBefore is v k → ReadBefore is v k
  together : ∀ v k u, PurelyWritten is v k → ¬ LiveAt is v (k + 1) → u ≠ v → cls u = cls v →
    LiveAt is u (k + 1) → ∃ j, LiveAt is u j ∧ LiveAt is v j

/-! ## Known bits -/

variable {v : Nat}

theorem learn_ne {known : Nat → Nat} {p : Register × Width} (h : learn known p v ≠ 0) :
    known v ≠ 0 ∨ ∃ c, p.1 = .virtual v c := by
  obtain ⟨r, w⟩ := p
  cases r with
  | virtual u c =>
    by_cases e : v = u
    · subst e
      exact .inr ⟨c, rfl⟩
    · exact .inl (by simpa [learn, e] using h)
  | physical | global => exact .inl h

theorem foldl_learn_ne : ∀ (ps : List (Register × Width)) {known : Nat → Nat},
    ps.foldl learn known v ≠ 0 → known v ≠ 0 ∨ ∃ p ∈ ps, ∃ c, p.1 = .virtual v c
  | [], _, h => .inl h
  | p :: ps, known, h => by
    rcases foldl_learn_ne ps h with h | ⟨q, hq, hc⟩
    · rcases learn_ne h with h | ⟨c, hc⟩
      · exact .inl h
      · exact .inr ⟨p, mem_cons_self, c, hc⟩
    · exact .inr ⟨q, mem_cons_of_mem _ hq, hc⟩

variable {i : Opcode} {r : Register}

theorem mem_writes {w : Width} : (r, w) ∈ i.writes ↔ ∃ ud, (ud, w) ∈ i.getUseDefs ∧ ud.defined = some r := by
  simp [writes, mem_filterMap, map_eq_some_iff]

theorem mem_reads {w : Width} : (r, w) ∈ i.reads ↔ ∃ ud, (ud, w) ∈ i.getUseDefs ∧ ud.used = some r := by
  simp [reads, mem_filterMap, map_eq_some_iff]

variable {ud : UseDef}

theorem mem_definitions (h : ud.defined = some r) : ud ∈ i.definitions ↔ ∃ w, (ud, w) ∈ i.getUseDefs := by
  simp [definitions, h]

theorem mem_uses (h : ud.used = some r) : ud ∈ i.uses ↔ ∃ w, (ud, w) ∈ i.getUseDefs := by
  simp [uses, h]

theorem mem_writtenVirtuals_iff : v ∈ i.writtenVirtuals ↔ ∃ c w, (.virtual v c, w) ∈ i.writes := by
  rw [mem_writtenVirtuals]
  constructor
  · rintro ⟨ud, hud, c, hd⟩
    obtain ⟨w, hw⟩ := (mem_definitions hd).mp hud
    exact ⟨c, w, mem_writes.mpr ⟨ud, hw, hd⟩⟩
  · rintro ⟨c, w, hw⟩
    obtain ⟨ud, hud, hd⟩ := mem_writes.mp hw
    exact ⟨ud, (mem_definitions hd).mpr ⟨w, hud⟩, c, hd⟩

theorem mem_readVirtuals_iff : v ∈ i.readVirtuals ↔ ∃ c w, (.virtual v c, w) ∈ i.reads := by
  rw [mem_readVirtuals]
  constructor
  · rintro ⟨ud, hud, c, hd⟩
    obtain ⟨w, hw⟩ := (mem_uses hd).mp hud
    exact ⟨c, w, mem_reads.mpr ⟨ud, hw, hd⟩⟩
  · rintro ⟨c, w, hw⟩
    obtain ⟨ud, hud, hd⟩ := mem_reads.mp hw
    exact ⟨ud, (mem_uses hd).mpr ⟨w, hud⟩, c, hd⟩

variable {is : List Opcode}

theorem knownBits_take_succ {k : Nat} (hk : is[k]? = some i) :
    knownBits (is.take (k + 1)) = i.writes.foldl learn (knownBits (is.take k)) := by
  simp [knownBits, take_add_one, hk]

theorem knownBits_ne : ∀ {k : Nat}, knownBits (is.take k) v ≠ 0 → WrittenBefore is v k
  | 0, h => by simp [knownBits] at h
  | k + 1, h => by
    cases hk : is[k]? with
    | none =>
      rw [take_add_one, hk] at h
      obtain ⟨j, i, hj, hi⟩ := knownBits_ne (k := k) (by simpa using h)
      exact ⟨j, i, by omega, hi⟩
    | some i =>
      rw [knownBits_take_succ hk] at h
      rcases foldl_learn_ne _ h with h | ⟨⟨r, w⟩, hp, c, rfl⟩
      · obtain ⟨j, i, hj, hi⟩ := knownBits_ne h
        exact ⟨j, i, by omega, hi⟩
      · exact ⟨k, i, Nat.lt_succ_self k, hk, mem_writtenVirtuals_iff.mpr ⟨c, w, hp⟩⟩

theorem Width.bits_pos (w : Width) : 0 < w.bits := by cases w <;> decide

theorem RegisterClass.limit_eq (c : RegisterClass) : c.limit = (availPhysRegs c).length := by
  cases c <;> rfl

namespace StraightLine

variable {n : Nat} {cls : Nat → RegisterClass} {is : List Opcode} (hp : StraightLine n cls is)
include hp

variable {k : Nat} {i : Opcode}

section

variable (hk : is[k]? = some i)

include hk

theorem virtual_of_defined {r : Register} (hud : ud ∈ i.definitions) (hd : ud.defined = some r) :
    ∃ v < n, r = .virtual v (cls v) := by
  obtain ⟨w, hw⟩ := mem_getUseDefs_of_definitions hud
  obtain ⟨v, hv, hr⟩ := hp.virtual i (mem_of_getElem? hk) _ hw
  exact ⟨v, hv, (UseDef.defined_eq_some hd).symm.trans hr⟩

theorem virtual_of_used {r : Register} (hud : ud ∈ i.uses) (hd : ud.used = some r) :
    ∃ v < n, r = .virtual v (cls v) := by
  obtain ⟨w, hw⟩ := mem_getUseDefs_of_uses hud
  obtain ⟨v, hv, hr⟩ := hp.virtual i (mem_of_getElem? hk) _ hw
  exact ⟨v, hv, (UseDef.used_eq_some hd).symm.trans hr⟩

variable {v : Nat}

theorem written_before (hr : v ∈ i.readVirtuals) : WrittenBefore is v k := by
  obtain ⟨c, w, hw⟩ := mem_readVirtuals_iff.mp hr
  have : w.bits ≤ knownBits (is.take k) v := hp.written k i hk _ hw v c rfl
  have := w.bits_pos
  exact knownBits_ne (by omega)

theorem liveAt_of_read (hr : v ∈ i.readVirtuals) : LiveAt is v k :=
  ⟨hp.written_before hk hr, k, i, Nat.le_refl k, hk, hr⟩

/-- A register is read after it is written for the first time. -/
theorem liveAt_of_first (hw : v ∈ i.writtenVirtuals) (hf : ¬ WrittenBefore is v k) : LiveAt is v (k + 1) := by
  have hlt := (List.getElem?_eq_some_iff.mp hk).1
  obtain ⟨j, i', _, hj, hr⟩ := hp.read v ⟨k, i, hlt, hk, hw⟩
  obtain ⟨j', i'', hlt', hj', hw'⟩ := hp.written_before hj hr
  refine ⟨⟨k, i, Nat.lt_succ_self k, hk, hw⟩, j, i', ?_, hj, hr⟩
  by_contra hle
  exact hf ⟨j', i'', by omega, hj', hw'⟩

theorem not_physical : ∀ p ∈ i.getUseDefs, ∀ r, p.1.reg ≠ .physical r := by
  intro p hm r hr
  obtain ⟨v, _, hv⟩ := hp.virtual i (mem_of_getElem? hk) p hm
  rw [hr] at hv
  cases hv

theorem not_call (f : Operand) (a b : Nat) : i ≠ .call f a b := by
  rintro rfl
  exact Bool.noConfusion (hp.plain _ (mem_of_getElem? hk))

end

end StraightLine

/-! ## The definitions of an instruction over virtual registers -/

theorem useDefs_defined (o : Operand) : ((o.useDefs d).filter fun p => p.1.defined.isSome) = [] ∨
      d ≠ .in_ ∧ ∃ r w, ((o.useDefs d).filter fun p => p.1.defined.isSome) = [(.ofDirection d r, w)] := by
  unfold Operand.useDefs
  split
  · exact .inl rfl
  · exact .inl rfl
  · rename_i r _
    cases d with
    | in_ => exact .inl rfl
    | out | inOut => exact .inr ⟨by decide, r, o.width, rfl⟩
  · exact .inl rfl

theorem useDefs_in : ((o.useDefs .in_).filter fun p => p.1.defined.isSome) = [] := by
  rcases useDefs_defined .in_ o with h | ⟨h, _⟩
  · exact h
  · exact absurd rfl h

/-- What an instruction over virtual registers can write: nothing, one register, or a register that
it also reads and then one that it does not. -/
def DefinitionShape (ps : List (UseDef × Width)) : Prop :=
  ps = [] ∨ (∃ p, ps = [p]) ∨ ∃ r r' w w', ps = [(.useDef r, w), (.def_ r', w')]

theorem DefinitionShape.operand (o : Operand) : DefinitionShape ((o.useDefs d).filter fun p => p.1.defined.isSome) := by
  rcases useDefs_defined d o with h | ⟨_, r, w, h⟩
  · exact .inl h
  · exact .inr (.inl ⟨_, h⟩)

theorem definitions_shape (hv : ∀ p ∈ i.getUseDefs, ∀ r, p.1.reg ≠ .physical r) (hc : ∀ f a b, i ≠ .call f a b) :
    DefinitionShape (i.getUseDefs.filter fun p => p.1.defined.isSome) := by
  have implicit : ∀ {d w r}, (d, Operand.preg w r) ∉ i.getApparentOperands := by
    intro d w r hm
    refine hv (.ofDirection d (.physical r), w) (mem_flatMap.mpr ⟨_, hm, by simp [Operand.useDefs, Operand.preg]⟩) r ?_
    cases d <;> rfl
  cases i with
  | op0 op =>
    cases op with
    | cqo => exact absurd (by simp [getApparentOperands]) (implicit (d := .inOut) (w := .w64) (r := .rax))
    | _ => exact .inl rfl
  | op1 op a =>
    cases op with
    | idiv | div =>
      exact absurd (by simp [getApparentOperands]) (implicit (d := .inOut) (w := a.width) (r := .rax))
    | _ =>
      simp only [getUseDefs, getApparentOperands, flatMap_cons, flatMap_nil, append_nil]
      exact DefinitionShape.operand _ _
  | op2 op a b =>
    cases op with
    | cmpxchg =>
      exact absurd (by simp [getApparentOperands]) (implicit (d := .in_) (w := .w64) (r := .rax))
    | _ =>
      simp only [getUseDefs, getApparentOperands, flatMap_cons, flatMap_nil,
        append_nil, filter_append, useDefs_in, nil_append]
      exact DefinitionShape.operand _ _
  | op3 op a b c =>
    cases op with
    | mul | imul1 =>
      simp only [getUseDefs, getApparentOperands, Op3.operands, flatMap_cons,
        flatMap_nil, append_nil, filter_append, useDefs_in, nil_append]
      rcases useDefs_defined .inOut b with hb | ⟨_, r, w, hb⟩
      · rw [hb, nil_append]
        exact DefinitionShape.operand _ _
      · rcases useDefs_defined .out c with hc | ⟨_, r', w', hc⟩
        · rw [hb, hc, append_nil]
          exact .inr (.inl ⟨_, rfl⟩)
        · rw [hb, hc]
          exact .inr (.inr ⟨r, r', w, w', rfl⟩)
    | _ =>
      simp only [getUseDefs, getApparentOperands, Op3.operands, flatMap_cons,
        flatMap_nil, append_nil, filter_append, useDefs_in, nil_append]
      exact DefinitionShape.operand _ _
  | call f a b => exact absurd rfl (hc f a b)

/-! ## Checking concrete code -/

section Check

variable {is : List Opcode} {v k : Nat}

instance : Decidable (WrittenBefore is v k) :=
  decidable_of_iff (∃ j < k, (is[j]?.any fun i => decide (v ∈ i.writtenVirtuals)) = true) <| by
    simp only [WrittenBefore, Option.any_eq_true, decide_eq_true_eq]
    exact ⟨fun ⟨j, hj, i, hi, hw⟩ => ⟨j, i, hj, hi, hw⟩, fun ⟨j, i, hj, hi, hw⟩ => ⟨j, hj, i, hi, hw⟩⟩

instance : Decidable (ReadBefore is v k) :=
  decidable_of_iff (∃ j < k, (is[j]?.any fun i => decide (v ∈ i.readVirtuals)) = true) <| by
    simp only [ReadBefore, Option.any_eq_true, decide_eq_true_eq]
    exact ⟨fun ⟨j, hj, i, hi, hr⟩ => ⟨j, i, hj, hi, hr⟩, fun ⟨j, i, hj, hi, hr⟩ => ⟨j, hj, i, hi, hr⟩⟩

instance : Decidable (LiveAt is v k) :=
  decidable_of_iff (WrittenBefore is v k ∧
      ∃ j < is.length, k ≤ j ∧ (is[j]?.any fun i => decide (v ∈ i.readVirtuals)) = true) <| by
    simp only [LiveAt, WrittenBefore, Option.any_eq_true, decide_eq_true_eq]
    refine and_congr_right fun _ => ⟨fun ⟨j, _, hk, i, hi, hr⟩ => ⟨j, i, hk, hi, hr⟩, ?_⟩
    rintro ⟨j, i, hk, hi, hr⟩
    exact ⟨j, (List.getElem?_eq_some_iff.mp hi).1, hk, i, hi, hr⟩

instance : Decidable (PurelyWritten is v k) :=
  decidable_of_iff ((is[k]?.any fun i => decide (.def_ (.virtual v .general) ∈ i.definitions ∨
      .def_ (.virtual v .xmm) ∈ i.definitions)) = true) <| by
    simp only [PurelyWritten, Option.any_eq_true, decide_eq_true_eq]
    constructor
    · rintro ⟨i, hi, hd | hd⟩
      · exact ⟨i, _, hi, hd⟩
      · exact ⟨i, _, hi, hd⟩
    · rintro ⟨i, c, hi, hd⟩
      cases c
      · exact ⟨i, hi, .inl hd⟩
      · exact ⟨i, hi, .inr hd⟩

theorem PurelyWritten.lt (h : PurelyWritten is v k) : k < is.length := by
  obtain ⟨i, c, hi, _⟩ := h
  exact (List.getElem?_eq_some_iff.mp hi).1

theorem LiveAt.lt (h : LiveAt is v k) : k < is.length := by
  obtain ⟨_, j, i, hj, hi, _⟩ := h
  have := (List.getElem?_eq_some_iff.mp hi).1
  omega

end Check

variable {cls : Nat → RegisterClass}

theorem StraightLine.of_bounded {n : Nat} (plain : ∀ i ∈ is, i.isPlain = true)
    (declared : ∀ i ∈ is, ∀ o ∈ i.operands, o.registers = o.seen)
    (virtual : ∀ i ∈ is, ∀ p ∈ i.getUseDefs, ∃ v < n, p.1.reg = .virtual v (cls v))
    (written : ∀ p ∈ is.zipIdx, ∀ q ∈ p.1.reads, ∀ v < n, q.1 = .virtual v (cls v) →
      q.2.bits ≤ knownBits (is.take p.2) v) (read : ∀ v < n, WrittenBefore is v is.length → ReadBefore is v is.length)
    (overwritten : ∀ v < n, ∀ k < is.length, PurelyWritten is v k → WrittenBefore is v k → ReadBefore is v (k + 1))
    (pressure : ∀ k < is.length,
      ((List.range n).filter fun v => decide (cls v = .general ∧ LiveAt is v k)).length ≤ 13 ∧
      ((List.range n).filter fun v => decide (cls v = .xmm ∧ LiveAt is v k)).length ≤ 8) : StraightLine n cls is := by
  have lt : ∀ {v k}, WrittenBefore is v k → v < n := by
    rintro v k ⟨j, i, _, hi, hw⟩
    obtain ⟨ud, hud, c, hd⟩ := mem_writtenVirtuals.mp hw
    obtain ⟨w, hm⟩ := mem_getUseDefs_of_definitions hud
    obtain ⟨u, hu, he⟩ := virtual i (mem_of_getElem? hi) _ hm
    have := (UseDef.defined_eq_some hd).symm.trans he
    cases this
    exact hu
  refine ⟨plain, declared, virtual, fun k i hk q hq v c hv => ?_, fun v hw => read v (lt hw) hw,
    fun v k hp hw => overwritten v (lt hw) k hp.lt hp hw, fun k c vs hnd hvs => ?_⟩
  · obtain ⟨r, w⟩ := q
    obtain ⟨ud, hud, hd⟩ := mem_reads.mp hq
    obtain ⟨u, hu, he⟩ := virtual i (mem_of_getElem? hk) _ hud
    have h := (UseDef.used_eq_some hd).symm.trans he
    subst h
    cases hv
    exact written (i, k) (mk_mem_zipIdx_iff_getElem?.mpr hk) _ hq _ hu rfl
  · cases vs with
    | nil => exact Nat.zero_le _
    | cons v vs =>
      have hk := (hvs v mem_cons_self).2.lt
      have hsub : (v :: vs).length ≤ ((List.range n).filter fun v => decide (cls v = c ∧ LiveAt is v k)).length := by
        refine (subperm_of_subset hnd fun u hu => mem_filter.mpr ⟨?_, ?_⟩).length_le
        · exact mem_range.mpr (lt (hvs u hu).2.1)
        · exact decide_eq_true (hvs u hu)
      cases c
      · exact Nat.le_trans hsub (pressure k hk).1
      · exact Nat.le_trans hsub (pressure k hk).2

/-- Code in which everything that is purely overwritten has been read and is read again. -/
theorem Settled.of_read {n : Nat} (hp : StraightLine n cls is)
    (readBefore : ∀ v < n, ∀ k < is.length, PurelyWritten is v k → WrittenBefore is v k → ReadBefore is v k)
    (readAfter : ∀ v < n, ∀ k < is.length, PurelyWritten is v k → LiveAt is v (k + 1)) : Settled cls is := by
  have lt : ∀ {v k}, PurelyWritten is v k → v < n := by
    rintro v k ⟨i, c, hi, hd⟩
    obtain ⟨u, hu, he⟩ := hp.virtual_of_defined hi hd rfl
    cases he
    exact hu
  exact ⟨fun v k hv => readBefore v (lt hv) k hv.lt hv, fun v k u hv hl => absurd (readAfter v (lt hv) k hv.lt hv) hl⟩

end Icewind.X86
