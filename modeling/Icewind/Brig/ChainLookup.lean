import Icewind.Brig.ChainCache
import Icewind.X86.Exec
import Mathlib.Data.Nat.Bitwise

/-!
# The lookup of the chain cache in emitted code

Model of `X86Emitter::leave_with_cache` in `brig/dbt/src/x86/emitter/mod.rs`: at the end of a block,
if nothing is pending, the emitted code looks up the guest program counter in the table of the chain
cache and jumps to the code found there.

* `leaveWithCache` — the emitted instructions: `pendingCheck`, then `lookup`.
* `CacheOp`, `history` — what is done to the cache, and the last insertion into each slot since the
  last time the keys were filled.
* `lookup_jumps_iff` — the emitted lookup jumps to an address if and only if the last insertion into
  the slot of the program counter had this program counter and this address; so it agrees with `get`.
  If nothing is pending, the whole epilogue does what the lookup does.
-/

namespace Icewind.Brig

open X86

/-! ### The emitted code -/

/-- Is anything pending?  `interruptPending` is the offset of the flag in the execution context. -/
def pendingCheck (interruptPending : Int) (executionResult : Nat) (returnBlock : BlockRef) : List Opcode :=
  let rax := Operand.preg .w32 .rax
  [.mov (.memSegDispl .w32 .fs interruptPending) rax, .op2 .shl (.imm .w32 2) rax] ++
    (if executionResult ≠ 0 then [.op2 .or (.imm .w32 executionResult) rax] else []) ++
    [.op2 .test rax rax, .jne (.target returnBlock)]

/-- The lookup, with virtual registers from `vreg` on. -/
def lookup (chainCache : Nat) (pcOffset : Int) (returnBlock : BlockRef) (vreg : Nat) : List Opcode :=
  let pc := Operand.vreg .w64 vreg
  let shiftedPc := Operand.vreg .w64 (vreg + 1)
  let masked := Operand.vreg .w32 (vreg + 2)
  let tag := Operand.vreg .w64 (vreg + 3)
  let chainCacheReg := Operand.vreg .w64 (vreg + 4)
  let entry (displacement : Int) : Operand :=
    ⟨.memory (some (.virtual (vreg + 4) .general)) (some (.virtual (vreg + 2) .general)) .s1 displacement
      none, .w64⟩
  [.mov (.memBaseDispl .w64 (.physical .rbp) pcOffset) pc, .mov pc shiftedPc,
    .op2 .shr (.imm .w8 2) shiftedPc,
    -- the lower 16 bits, for 65536 entries
    .op2 .movzx (.vreg .w16 (vreg + 1)) masked,
    -- 16 bytes for each entry
    .op2 .shl (.imm .w64 4) masked,
    .mov (.imm .w64 chainCache) chainCacheReg,
    .mov (entry 0) tag,
    .op2 .cmp tag pc,
    .jne (.target returnBlock),
    .jmp (entry 8)]

def leaveWithCache (chainCache : Nat) (pcOffset interruptPending : Int) (executionResult : Nat)
    (returnBlock : BlockRef) (vreg : Nat) : List Opcode :=
  pendingCheck interruptPending executionResult returnBlock ++ lookup chainCache pcOffset returnBlock vreg

/-! ### The cache -/

/-- What the execution loop does to the cache. -/
inductive CacheOp where
  | insert (key value : UInt64)
  | fillKeys

def CacheOp.apply (c : DirectMappedCache chainCacheEntryCount UInt64) :
    CacheOp → DirectMappedCache chainCacheEntryCount UInt64
  | .insert key value => c.insert key.toNat value
  | .fillKeys => c.fillKeys 1

/-- The cache after some operations. -/
def cacheAfter (ops : List CacheOp) : DirectMappedCache chainCacheEntryCount UInt64 :=
  ops.foldl CacheOp.apply (.new chainCacheEntryCount 0 1)

/-- The last insertion into a slot since the last fill, given that before. -/
def CacheOp.history (slot : Nat) (last : Option (UInt64 × UInt64)) : CacheOp → Option (UInt64 × UInt64)
  | .insert key value =>
    if DirectMappedCache.index chainCacheEntryCount key.toNat = slot then some (key, value) else last
  | .fillKeys => none

/-- The last insertion into a slot since the last fill. -/
def history (ops : List CacheOp) (slot : Nat) : Option (UInt64 × UInt64) :=
  ops.foldl (CacheOp.history slot) none

/-- The entry of a slot: the last insertion, or a filled key in front of some value. -/
def Shows (entry : ChainCacheEntry UInt64) : Option (UInt64 × UInt64) → Prop
  | some (key, value) => entry = ⟨key.toNat, value⟩
  | none => entry.key = 1

theorem Shows.apply {c : DirectMappedCache chainCacheEntryCount UInt64} {slot : Nat}
    {last : Option (UInt64 × UInt64)} (h : Shows (c.table slot) last) (op : CacheOp) :
    Shows ((op.apply c).table slot) (op.history slot last) := by
  cases op with
  | insert key value =>
    unfold CacheOp.apply CacheOp.history DirectMappedCache.insert
    by_cases hslot : DirectMappedCache.index chainCacheEntryCount key.toNat = slot
    · subst hslot
      simp only [Function.update_self, if_true]
      rfl
    · simp only [Function.update_of_ne (Ne.symm hslot), if_neg hslot]
      exact h
  | fillKeys => rfl

variable (ops : List CacheOp)

/-- **Every slot shows its history.** -/
theorem shows_cacheAfter (slot : Nat) : Shows ((cacheAfter ops).table slot) (history ops slot) := by
  suffices h : ∀ (c : DirectMappedCache chainCacheEntryCount UInt64) (last : Option (UInt64 × UInt64)),
      Shows (c.table slot) last →
      Shows ((ops.foldl CacheOp.apply c).table slot) (ops.foldl (CacheOp.history slot) last) from
    h _ _ rfl
  induction ops with
  | nil => exact fun _ _ h => h
  | cons op ops ih => exact fun c last h => ih _ _ (h.apply op)

/-! ### The table in memory -/

/-- The table of the cache at an address of memory, two words for each entry. -/
structure Laid (memory : Nat → Nat) (base : Nat) (c : DirectMappedCache chainCacheEntryCount UInt64) :
    Prop where
  room : base + 16 * chainCacheEntryCount ≤ 2 ^ 64
  key : ∀ i < chainCacheEntryCount, memory (base + 16 * i) = (c.table i).key
  value : ∀ i < chainCacheEntryCount, memory (base + 16 * i + 8) = (c.table i).value.toNat

theorem entry_address (h : Host) (displacement : Nat) {base slot vreg : Nat}
    (hroom : base + 16 * chainCacheEntryCount ≤ 2 ^ 64) (hslot : slot < chainCacheEntryCount)
    (hdisplacement : displacement < 16)
    (hbase : h.registers (.virtual (vreg + 4) .general) = base)
    (hmasked : h.registers (.virtual (vreg + 2) .general) = 16 * slot) :
    h.address (.virtual (vreg + 4) .general) (some (.virtual (vreg + 2) .general)) .s1 displacement =
      base + 16 * slot + displacement := by
  unfold Host.address
  simp only [hbase, hmasked, MemoryScale.factor]
  omega

/-- **What the lookup does**: compare the key of the slot, and jump to the value behind it. -/
theorem run_lookup (h : Host) {base : Nat} {pcOffset : Int} {pc : UInt64} (returnBlock : BlockRef)
    (vreg : Nat) (hroom : base + 16 * chainCacheEntryCount ≤ 2 ^ 64)
    (hpc : h.memory (h.address (.physical .rbp) none .s1 pcOffset) = pc.toNat) :
    Host.run (lookup base pcOffset returnBlock vreg) h =
      let slot := DirectMappedCache.index chainCacheEntryCount pc.toNat
      some (if h.memory (base + 16 * slot) % 2 ^ 64 = pc.toNat
        then .jump (h.memory (base + 16 * slot + 8) % 2 ^ 64) else .branch returnBlock) := by
  have hpc64 : pc.toNat < 2 ^ 64 := pc.toNat_lt
  let slot := DirectMappedCache.index chainCacheEntryCount pc.toNat
  have hslot : slot < chainCacheEntryCount := Nat.mod_lt _ (by decide)
  let reg (k : Nat) := Register.virtual (vreg + k) .general
  have hne : ∀ {k k' : Nat}, k ≠ k' → reg k ≠ reg k' := by
    intro k k' hk heq
    injection heq with heq _
    omega
  let h1 := h.set (reg 0) pc.toNat
  have e1 : Opcode.exec (.mov (.memBaseDispl .w64 (.physical .rbp) pcOffset) (.vreg .w64 vreg)) h =
      some (.next h1) := by
    refine exec_mov64 ?_ hpc64
    change some (h.memory (h.address (.physical .rbp) none .s1 pcOffset) % 2 ^ 64) = _
    rw [hpc, Nat.mod_eq_of_lt hpc64]
  let h2 := h1.set (reg 1) pc.toNat
  have e2 : Opcode.exec (.mov (.vreg .w64 vreg) (.vreg .w64 (vreg + 1))) h1 = some (.next h2) :=
    exec_mov64 (Host.read_vreg64 (h.set_self _ _) hpc64) hpc64
  let h3 := h2.set (reg 1) (pc.toNat / 4)
  have e3 : Opcode.exec (.op2 .shr (.imm .w8 2) (.vreg .w64 (vreg + 1))) h2 = some (.next h3) := by
    change some (Outcome.next (h2.set (reg 1) ((h2.registers (reg 1) % 2 ^ 64) >>> 2 % 2 ^ 64))) = _
    rw [h1.set_self, Nat.mod_eq_of_lt hpc64, Nat.shiftRight_eq_div_pow, Nat.mod_eq_of_lt]
    omega
  let h4 := h3.set (reg 2) slot
  have e4 : Opcode.exec (.op2 .movzx (.vreg .w16 (vreg + 1)) (.vreg .w32 (vreg + 2))) h3 =
      some (.next h4) := by
    change some (Outcome.next (h3.set (reg 2) (h3.registers (reg 1) % 2 ^ 16 % 2 ^ 32))) = _
    rw [h2.set_self, Nat.mod_eq_of_lt (show pc.toNat / 4 % 2 ^ 16 < 2 ^ 32 by omega)]
    rfl
  let h5 := h4.set (reg 2) (16 * slot)
  have e5 : Opcode.exec (.op2 .shl (.imm .w64 4) (.vreg .w32 (vreg + 2))) h4 = some (.next h5) := by
    change some (Outcome.next (h4.set (reg 2) ((h4.registers (reg 2) % 2 ^ 32) <<< 4 % 2 ^ 32))) = _
    unfold chainCacheEntryCount at hslot
    rw [h3.set_self, Nat.mod_eq_of_lt (show slot < 2 ^ 32 by omega), Nat.shiftLeft_eq, Nat.mul_comm,
      Nat.mod_eq_of_lt]
    omega
  let h6 := h5.set (reg 4) base
  have e6 : Opcode.exec (.mov (.imm .w64 base) (.vreg .w64 (vreg + 4))) h5 = some (.next h6) := by
    have hbase : base < 2 ^ 64 := by
      omega
    refine exec_mov64 ?_ hbase
    change some (base % 2 ^ 64) = _
    rw [Nat.mod_eq_of_lt hbase]
  have hmasked6 : h6.registers (reg 2) = 16 * slot :=
    (h5.set_of_ne _ (hne (by decide))).trans (h4.set_self _ _)
  have htag := entry_address h6 0 hroom hslot (by decide) (h5.set_self _ _) hmasked6
  let key := h.memory (base + 16 * slot) % 2 ^ 64
  have hkey : key < 2 ^ 64 := Nat.mod_lt _ (by decide)
  let h7 := h6.set (reg 3) key
  have e7 : Opcode.exec (.mov ⟨.memory (some (reg 4)) (some (reg 2)) .s1 0 none, .w64⟩
      (.vreg .w64 (vreg + 3))) h6 = some (.next h7) := by
    refine exec_mov64 ?_ hkey
    change some (h.memory (h6.address (reg 4) (some (reg 2)) .s1 (0 : Nat)) % 2 ^ 64) = _
    rw [htag]
    rfl
  have hpc7 : h7.registers (reg 0) = pc.toNat := by
    rw [h6.set_of_ne _ (hne (by decide)), h5.set_of_ne _ (hne (by decide)),
      h4.set_of_ne _ (hne (by decide)), h3.set_of_ne _ (hne (by decide)),
      h2.set_of_ne _ (hne (by decide)), h1.set_of_ne _ (hne (by decide))]
    exact h.set_self _ _
  let h8 : Host := { h7 with zero := decide (key = pc.toNat) }
  have e8 : Opcode.exec (.op2 .cmp (.vreg .w64 (vreg + 3)) (.vreg .w64 vreg)) h7 = some (.next h8) := by
    change ((h7.read (.vreg .w64 (vreg + 3))).bind fun a => (h7.read (.vreg .w64 vreg)).bind fun b =>
      some (Outcome.next { h7 with zero := decide (a = b) })) = _
    rw [Host.read_vreg64 (h6.set_self _ _) hkey, Host.read_vreg64 (r := vreg) hpc7 hpc64]
    rfl
  have e9 : Opcode.exec (.jne (.target returnBlock)) h8 =
      some (if key = pc.toNat then .next h8 else .branch returnBlock) := by
    change some (if decide (key = pc.toNat) = true then Outcome.next h8 else .branch returnBlock) = _
    simp only [decide_eq_true_eq]
  unfold lookup
  rw [Host.run_cons e1, Host.run_cons e2, Host.run_cons e3, Host.run_cons e4, Host.run_cons e5,
    Host.run_cons e6, Host.run_cons e7, Host.run_cons e8]
  by_cases heq : key = pc.toNat
  · rw [if_pos heq] at e9
    rw [Host.run_cons e9]
    have hmasked8 : h8.registers (reg 2) = 16 * slot :=
      (h6.set_of_ne _ (hne (by decide))).trans hmasked6
    have hbase8 : h8.registers (reg 4) = base :=
      (h6.set_of_ne _ (hne (by decide))).trans (h5.set_self _ _)
    have hvalue := entry_address h8 8 hroom hslot (by decide) hbase8 hmasked8
    change some (Outcome.jump (h.memory (h8.address (reg 4) (some (reg 2)) .s1 (8 : Nat)) % 2 ^ 64)) = _
    rw [hvalue]
    exact congrArg some (if_pos heq).symm
  · rw [if_neg heq] at e9
    rw [Host.run_leave e9 (fun _ h => by cases h)]
    exact congrArg some (if_neg heq).symm

/-- If nothing is pending, the epilogue goes on to the lookup with a change to RAX only. -/
theorem run_leaveWithCache (h : Host) {base : Nat} {pcOffset interruptPending : Int} {pc : UInt64}
    (returnBlock : BlockRef) (vreg : Nat) (hroom : base + 16 * chainCacheEntryCount ≤ 2 ^ 64)
    (hpc : h.memory (h.address (.physical .rbp) none .s1 pcOffset) = pc.toNat)
    (hidle : h.fs interruptPending % 2 ^ 32 = 0) :
    Host.run (leaveWithCache base pcOffset interruptPending 0 returnBlock vreg) h =
      Host.run (lookup base pcOffset returnBlock vreg) h := by
  let h1 := h.set (.physical .rax) 0
  have e1 : Opcode.exec (.mov (.memSegDispl .w32 .fs interruptPending) (.preg .w32 .rax)) h =
      some (.next h1) := by
    change some (Outcome.next (h.set (.physical .rax) (h.fs interruptPending % 2 ^ 32 % 2 ^ 32))) = _
    rw [hidle, Nat.zero_mod]
  let h2 := h1.set (.physical .rax) 0
  have e2 : Opcode.exec (.op2 .shl (.imm .w32 2) (.preg .w32 .rax)) h1 = some (.next h2) := by
    change some (Outcome.next (h1.set (.physical .rax)
      ((h1.registers (.physical .rax) % 2 ^ 32) <<< 2 % 2 ^ 32))) = _
    rfl
  let h3 : Host := { h2 with zero := true }
  have e3 : Opcode.exec (.op2 .test (.preg .w32 .rax) (.preg .w32 .rax)) h2 = some (.next h3) := by
    change some (Outcome.next { h2 with zero := decide (h2.registers (.physical .rax) % 2 ^ 32 &&&
      h2.registers (.physical .rax) % 2 ^ 32 = 0) }) = _
    rw [h1.set_self]
    rfl
  have hcheck : Host.run (leaveWithCache base pcOffset interruptPending 0 returnBlock vreg) h =
      Host.run (lookup base pcOffset returnBlock vreg) h3 := by
    refine Host.run_append ?_
    change Host.run [_, _, _, _] h = _
    rw [Host.run_cons e1, Host.run_cons e2, Host.run_cons e3]
    rfl
  have hbase : h3.address (.physical .rbp) none .s1 pcOffset = h.address (.physical .rbp) none .s1 pcOffset := by
    have hne : Register.physical .rbp ≠ .physical .rax := by decide
    have hrbp : h3.registers (.physical .rbp) = h.registers (.physical .rbp) :=
      (h1.set_of_ne 0 hne).trans (h.set_of_ne 0 hne)
    simp only [Host.address, hrbp]
  rw [hcheck, run_lookup h3 returnBlock vreg hroom (hbase ▸ hpc), run_lookup h returnBlock vreg hroom hpc]
  rfl

/-! ### Agreement -/

theorem get_eq_some_iff {pc : UInt64} (hpc : pc ≠ 1) (v : UInt64) :
    (cacheAfter ops).get pc.toNat = some v ↔
      history ops (DirectMappedCache.index chainCacheEntryCount pc.toNat) = some (pc, v) := by
  have hshows := shows_cacheAfter ops (DirectMappedCache.index chainCacheEntryCount pc.toNat)
  unfold DirectMappedCache.get
  generalize (cacheAfter ops).table _ = entry at hshows
  generalize history ops _ = last at hshows
  rcases last with _ | ⟨key, value⟩
  · have hkey : entry.key ≠ pc.toNat := by
      rw [show entry.key = 1 from hshows]
      exact fun h => hpc (UInt64.toNat_inj.mp h.symm)
    simp [hkey]
  · cases (show entry = _ from hshows)
    by_cases hkey : key = pc
    · subst hkey
      simp
    · have hne : key.toNat ≠ pc.toNat := fun h => hkey (UInt64.toNat_inj.mp h)
      simp [hne, hkey]

/-- **The emitted lookup jumps to an address if and only if the last insertion into the slot of the
program counter since the last fill had this program counter and this address**, and if and only if
`get` finds this address.  If nothing is pending, the epilogue has the same outcome. -/
theorem lookup_jumps_iff (ops : List CacheOp) (h : Host) (pcOffset interruptPending : Int) (returnBlock : BlockRef)
    (vreg base : Nat) (pc v : UInt64) (hpc : pc ≠ 1) (hlaid : Laid h.memory base (cacheAfter ops))
    (hmemory : h.memory (h.address (.physical .rbp) none .s1 pcOffset) = pc.toNat) :
    (Host.run (lookup base pcOffset returnBlock vreg) h = some (.jump v.toNat) ↔
      history ops (DirectMappedCache.index chainCacheEntryCount pc.toNat) = some (pc, v)) ∧
    (Host.run (lookup base pcOffset returnBlock vreg) h = some (.jump v.toNat) ↔
      (cacheAfter ops).get pc.toNat = some v) ∧
    (h.fs interruptPending % 2 ^ 32 = 0 →
      Host.run (leaveWithCache base pcOffset interruptPending 0 returnBlock vreg) h =
        Host.run (lookup base pcOffset returnBlock vreg) h) := by
  suffices hget : Host.run (lookup base pcOffset returnBlock vreg) h = some (.jump v.toNat) ↔
      (cacheAfter ops).get pc.toNat = some v from ⟨hget.trans (get_eq_some_iff ops hpc v), hget,
        run_leaveWithCache h returnBlock vreg hlaid.room hmemory⟩
  have hslot : DirectMappedCache.index chainCacheEntryCount pc.toNat < chainCacheEntryCount :=
    Nat.mod_lt _ (by decide)
  have hshows := shows_cacheAfter ops (DirectMappedCache.index chainCacheEntryCount pc.toNat)
  rw [run_lookup h returnBlock vreg hlaid.room hmemory]
  dsimp only
  rw [hlaid.key _ hslot, hlaid.value _ hslot]
  unfold DirectMappedCache.get
  generalize (cacheAfter ops).table _ = entry at hshows
  have hkey : entry.key % 2 ^ 64 = entry.key := by
    refine Nat.mod_eq_of_lt ?_
    generalize history ops _ = last at hshows
    rcases last with _ | ⟨key, value⟩
    · rw [show entry.key = 1 from hshows]
      decide
    · rw [show entry = _ from hshows]
      exact key.toNat_lt
  rw [hkey, Nat.mod_eq_of_lt entry.value.toNat_lt]
  by_cases heq : entry.key = pc.toNat
  · simp [heq, UInt64.toNat_inj]
  · simp [heq]

/-- Memory with a table at 0x1000 and the program counter 0x40000 behind it. -/
def lookupHost (ops : List CacheOp) : Host where
  registers
    | .physical .rbp => 0x200000
    | _ => 0
  zero := false
  memory a :=
    if a = 0x200000 then 0x40000
    else
      let entry := (cacheAfter ops).table ((a - 0x1000) / 16)
      if a % 16 = 0 then entry.key else entry.value.toNat
  fs _ := 0

theorem lookupHost_laid : Laid (lookupHost ops).memory 0x1000 (cacheAfter ops) := by
  refine ⟨by decide, fun i hi => ?_, fun i hi => ?_⟩ <;> unfold chainCacheEntryCount at hi <;>
    unfold lookupHost <;> dsimp only
  · rw [if_neg (by omega), if_pos (by omega), show (0x1000 + 16 * i - 0x1000) / 16 = i by omega]
  · rw [if_neg (by omega), if_neg (by omega), show (0x1000 + 16 * i + 8 - 0x1000) / 16 = i by omega]

/-- Two program counters that share a slot: the last one is found. -/
theorem lookup_jumps_collision : (Host.run (leaveWithCache 0x1000 0 24 0 7 0)
        (lookupHost [.insert 0x40000 0x10, .fillKeys, .insert 0x80000 0x20, .insert 0x40000 0x30]) =
      some (.jump 0x30)) ∧
    (Host.run (leaveWithCache 0x1000 0 24 0 7 0)
        (lookupHost [.insert 0x40000 0x10, .fillKeys, .insert 0x40000 0x30, .insert 0x80000 0x20]) ≠
      some (.jump 0x30)) := by
  have h ops := lookup_jumps_iff ops (lookupHost ops) 0 24 7 0 0x1000 0x40000 0x30 (by decide)
    (lookupHost_laid ops) rfl
  refine ⟨((h _).2.2 rfl).trans ((h _).1.mpr (by decide)), ?_⟩
  rw [(h _).2.2 rfl]
  exact mt (h _).1.mp (by decide)

end Icewind.Brig
