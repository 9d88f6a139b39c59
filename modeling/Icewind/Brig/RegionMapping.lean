import Icewind.Brig.ExecutionLoop

/-!
# Executed blocks and the mapping of their page

The execution loop remembers in three places to which physical page a virtual page is mapped: the
region of the last block it looked up, the fetch buffer, and the chain cache.

* `MappingInv` — what is remembered is the mapping the guest has now.
* `MappingKept` — the run of a block changes no mapping that is still remembered afterwards.  The
  region is forgotten only when a fault restarts the loop.
* `running_mapped` — in runs that keep the mappings, every block that runs has been looked up under
  the page to which the program counter is mapped.
* `not_remapped` — a block that remaps its own page and invalidates the translation buffers is
  followed by a block from the old page.
-/

namespace Icewind.Brig

open Function Option

/-! ### The invariant -/

/-- What the loop remembers is what the guest's mapping is. -/
structure MappingInv (m : Machine) : Prop where
  fresh : Fresh m.guest m.mmu
  region : m.regionVirtBase ≠ 1 → mappedPage m.guest m.regionVirtBase = some m.regionPhysBase
  blocks : ∀ page offset block, m.blockCache page offset = some block → block.page = page
  chain : m.chainCache.Holds 1 fun key ptr =>
    ∃ block, ptr = some block ∧ mappedPage m.guest key = some block.page
  running : ∀ block, m.running = some block → mappedPage m.guest m.guest.pc = some block.page

theorem pageOf_ne_one (va : Nat) : pageOf va ≠ 1 := by
  unfold pageOf
  omega

variable {m m' : Machine} {error : TranslationError} {va : Nat} {faulted : Bool}

theorem MappingInv.clearStalePages (h : MappingInv m) : MappingInv m.clearStalePages := by
  unfold Machine.clearStalePages
  split
  · exact h
  · refine ⟨h.fresh, h.region, fun page offset block hblock => ?_, DirectMappedCache.holds_fillKeys _ _ _,
      h.running⟩
    dsimp only at hblock
    split at hblock
    · cases hblock
    · exact h.blocks page offset block hblock

theorem MappingInv.fault (h : MappingInv m) (hfault : m.fault va error = some m') : MappingInv m' := by
  obtain ⟨htables, hperformed⟩ := Machine.fault_spec hfault
  obtain ⟨hregion, hrunning⟩ := hperformed.restored rfl
  refine ⟨h.fresh.kept hperformed.tlb fun i _ => htables.walkedPage _, fun hne => absurd hregion hne,
    fun page offset block hblock => ?_, ?_, fun block hblock => ?_⟩
  · rw [hperformed.blockCache] at hblock
    exact h.blocks page offset block hblock
  · rw [hperformed.chainCache]
    exact h.chain.mono fun i _ ⟨block, hptr, hmapped⟩ =>
      ⟨block, hptr, (htables.mappedPage _).trans hmapped⟩
  · rw [hrunning] at hblock
    cases hblock

theorem MappingInv.findRegion {found : Bool} (h : MappingInv m) (hrunning : m.running = none)
    (hfind : m.findRegion = some (m', found)) :
    MappingInv m' ∧ m'.running = none ∧
      (found = true → mappedPage m'.guest m'.guest.pc = some m'.regionPhysBase) := by
  unfold Machine.findRegion at hfind
  dsimp only at hfind
  split at hfind
  · obtain ⟨⟨guest, mmu, result⟩, htranslate, hfind⟩ := bind_eq_some_iff.mp hfind
    obtain ⟨hguest, hfresh, hok⟩ := guestTranslate_fetch (Nat.mod_lt _ (Nat.two_pow_pos 64)) h.fresh htranslate
    subst hguest
    have hinv : MappingInv { m with guest := m.guest, mmu := mmu } :=
      ⟨hfresh, h.region, h.blocks, h.chain, h.running⟩
    cases result with
    | ok phys =>
      cases hfind
      have hmapped := hok phys rfl
      refine ⟨⟨hfresh, fun _ => ?_, h.blocks, h.chain, h.running⟩, hrunning, fun _ => hmapped⟩
      rw [mappedPage_pageOf]
      exact hmapped
    | error e =>
      obtain ⟨m1, hfault, heq⟩ := map_eq_some_iff.mp hfind
      cases heq
      exact ⟨hinv.fault hfault, ((Machine.fault_spec hfault).2.restored rfl).2, nofun⟩
  · rename_i hsame
    cases hfind
    have hsame : pageOf m.guest.pc = m.regionVirtBase := not_not.mp hsame
    refine ⟨h, hrunning, fun _ => ?_⟩
    rw [← mappedPage_pageOf, hsame]
    exact h.region (hsame ▸ pageOf_ne_one _)

variable {block : TranslatedBlock} {translation : Translation}

/-- Translating a block changes no mapping and not the program counter. -/
theorem MappingInv.findBlock (h : MappingInv m) (hrunning : m.running = none)
    (hfind : m.findBlock translation = some (m', block)) :
    MappingInv m' ∧ block.page = m.regionPhysBase ∧ SameTables m.guest m'.guest ∧
      m'.guest.pc = m.guest.pc := by
  unfold Machine.findBlock at hfind
  dsimp only at hfind
  split at hfind
  · rename_i b hb
    cases hfind
    exact ⟨h, h.blocks _ _ _ hb, .refl _, rfl⟩
  · obtain ⟨⟨embedded, registers⟩, htranslate, hfind⟩ := bind_eq_some_iff.mp hfind
    cases hfind
    have hregisters : ∀ name, registerCacheType name ≠ .readWrite → registers name = m.guest.registers name :=
      fun name hname => translateAccesses_kept htranslate fun _ _ => hname
    have htables : SameTables m.guest { m.guest with registers := registers } :=
      ⟨rfl, hregisters _ (by decide), hregisters _ (by decide), hregisters _ (by decide)⟩
    refine ⟨⟨h.fresh.congr fun i _ => htables.walkedPage _, fun hne => ?_, fun page offset b hb => ?_,
      h.chain.mono fun i _ ⟨b, hptr, hmapped⟩ => ⟨b, hptr, (htables.mappedPage _).trans hmapped⟩,
      fun b hb => ?_⟩, rfl, htables, ?_⟩
    · exact (htables.mappedPage _).trans (h.region hne)
    · by_cases hpage : page = m.regionPhysBase
      · subst hpage
        dsimp only at hb
        rw [update_self] at hb
        by_cases hoffset : offset = m.guest.pc % 2 ^ 12
        · rw [hoffset, update_self] at hb
          cases hb
          rfl
        · rw [update_of_ne hoffset] at hb
          exact h.blocks _ _ _ hb
      · dsimp only at hb
        rw [update_of_ne hpage] at hb
        exact h.blocks _ _ _ hb
    · dsimp only at hb
      rw [hrunning] at hb
      cases hb
    · unfold Guest.pc
      dsimp only
      rw [hregisters "_PC" (by decide)]

/-- **A round of the loop starts a block of the page of the program counter.** -/
theorem MappingInv.dispatch (h : MappingInv m) (hrunning : m.running = none)
    (hdispatch : m.dispatch translation = some m') : MappingInv m' := by
  obtain ⟨⟨m1, found⟩, hregion, hdispatch⟩ := bind_eq_some_iff.mp hdispatch
  have hclear : m.clearStalePages.running = none := by
    unfold Machine.clearStalePages
    split <;> exact hrunning
  obtain ⟨h1, hrunning1, hmapped⟩ := h.clearStalePages.findRegion hclear hregion
  cases found with
  | false =>
    cases hdispatch
    exact h1
  | true =>
    obtain ⟨⟨m2, block⟩, hblock, hdispatch⟩ := bind_eq_some_iff.mp hdispatch
    cases hdispatch
    obtain ⟨h2, hpage, htables, hpc⟩ := h1.findBlock hrunning1 hblock
    have hmapped2 : mappedPage m2.guest m1.guest.pc = some block.page := by
      rw [htables.mappedPage, hpage]
      exact hmapped rfl
    refine ⟨h2.fresh, h2.region, h2.blocks, h2.chain.insert ⟨block, rfl, hmapped2⟩, fun b hb => ?_⟩
    cases hb
    rw [hpc]
    exact hmapped2

/-! ### Runs of blocks -/

/-- The run of the block changes no mapping that the loop goes on to remember: not that of the region,
unless a fault restarts the loop; and, unless the block has the translation buffers invalidated, not
that of a page in the chain cache or in the fetch buffer.  It does not end at address 1, with which
entries of the chain cache are marked as empty. -/
structure MappingKept (m : Machine) (block : TranslatedBlock) (m' : Machine) (faulted : Bool) :
    Prop where
  region : faulted = false → m.regionVirtBase ≠ 1 →
    mappedPage m'.guest m.regionVirtBase = mappedPage m.guest m.regionVirtBase
  chain : faulted = true ∨ block.result.needTlbInvalidate = false → ∀ i, (m.chainCache.table i).key ≠ 1 →
      mappedPage m'.guest (m.chainCache.table i).key = mappedPage m.guest (m.chainCache.table i).key
  tlb : faulted = true ∨ block.result.needTlbInvalidate = false →
    ∀ i, (m.mmu.tlb .fetch i).guestVirtPage ≠ 2 ^ 64 - 1 →
      walkedPage m'.guest ((m.mmu.tlb .fetch i).guestVirtPage * 2 ^ 12) =
        walkedPage m.guest ((m.mmu.tlb .fetch i).guestVirtPage * 2 ^ 12)
  pc : faulted = false → m'.guest.pc ≠ 1

/-- One step, with the condition on runs of blocks. -/
inductive KeptStep : Machine → Machine → Prop where
  | dispatch {m m' : Machine} (translation : Translation) :
      m.running = none → m.dispatch translation = some m' → KeptStep m m'
  | finish {m m' m₁ : Machine} {block : TranslatedBlock} {faulted : Bool} (effects : List Effect)
      (interruptPending : Bool) :
      m.running = some block → m.finish block effects interruptPending = some m' →
      Machine.performAll effects m = some (m₁, faulted) → MappingKept m block m₁ faulted →
      KeptStep m m'

variable {interruptPending : Bool}

theorem MappingInv.interrupt (h : MappingInv { m with running := none })
    (hinterrupt : m.interrupt interruptPending = some m') : MappingInv m' := by
  unfold Machine.interrupt at hinterrupt
  split at hinterrupt
  · obtain ⟨⟨guest, mmu⟩, hexception, rfl⟩ := map_eq_some_iff.mp hinterrupt
    obtain ⟨htables, hfresh⟩ := takeArmException_spec hexception
    exact ⟨hfresh h.fresh, fun hne => (htables.mappedPage _).trans (h.region hne), h.blocks,
      h.chain.mono fun i _ ⟨b, hptr, hmapped⟩ => ⟨b, hptr, (htables.mappedPage _).trans hmapped⟩,
      nofun⟩
  · cases hinterrupt
    exact h

theorem mappingInv_forget {result : ExecutionResult}
    (hregion : m.regionVirtBase ≠ 1 → mappedPage m.guest m.regionVirtBase = some m.regionPhysBase)
    (hblocks : ∀ page offset block, m.blockCache page offset = some block → block.page = page)
    (hkept : result.needTlbInvalidate = false → Fresh m.guest m.mmu ∧ m.chainCache.Holds 1 fun key ptr =>
        ∃ block, ptr = some block ∧ mappedPage m.guest key = some block.page)
    (h : (m.forget result).interrupt interruptPending = some m') : MappingInv m' := by
  refine MappingInv.interrupt ?_ h
  cases htlb : result.needTlbInvalidate with
  | true =>
    refine ⟨?_, hregion, hblocks, ?_, nofun⟩
    · simp only [Machine.forget, htlb, if_true]
      exact fresh_flushTlb m.guest m.mmu
    · simp only [Machine.forget, htlb, true_or, if_true]
      exact DirectMappedCache.holds_fillKeys _ _ _
  | false =>
    obtain ⟨hfresh, hchain⟩ := hkept htlb
    refine ⟨?_, hregion, hblocks, ?_, nofun⟩
    · simp only [Machine.forget, htlb, Bool.false_eq_true, if_false]
      exact hfresh
    · simp only [Machine.forget, htlb, Bool.false_eq_true, false_or]
      split
      · exact DirectMappedCache.holds_fillKeys _ _ _
      · exact hchain

/-- **A run of a block that keeps the mappings keeps the invariant.** -/
theorem MappingInv.finish {m1 : Machine} {effects : List Effect} (h : MappingInv m)
    (hfinish : m.finish block effects interruptPending = some m')
    (hperform : Machine.performAll effects m = some (m1, faulted)) (hkept : MappingKept m block m1 faulted) :
    MappingInv m' := by
  have hperformed := Machine.performAll_performed hperform
  have hblocks : ∀ page offset b, m1.blockCache page offset = some b → b.page = page := by
    rw [hperformed.blockCache]
    exact h.blocks
  have hremembered : faulted = true ∨ block.result.needTlbInvalidate = false →
      Fresh m1.guest m1.mmu ∧ m1.chainCache.Holds 1 fun key ptr =>
        ∃ b, ptr = some b ∧ mappedPage m1.guest key = some b.page := by
    intro hor
    refine ⟨h.fresh.kept hperformed.tlb (hkept.tlb hor), ?_⟩
    rw [hperformed.chainCache]
    exact h.chain.mono fun i hi ⟨b, hptr, hmapped⟩ =>
      ⟨b, hptr, (hkept.chain hor i hi).trans hmapped⟩
  unfold Machine.finish at hfinish
  rw [hperform] at hfinish
  cases faulted with
  | true =>
    cases hfinish
    obtain ⟨hregion, hrunning⟩ := hperformed.restored rfl
    obtain ⟨hfresh, hchain⟩ := hremembered (.inl rfl)
    refine ⟨hfresh, fun hne => absurd hregion hne, hblocks, hchain, fun b hb => ?_⟩
    rw [hrunning] at hb
    cases hb
  | false =>
    obtain ⟨hvirt, hphys⟩ := hperformed.region rfl
    have hregion : m1.regionVirtBase ≠ 1 →
        mappedPage m1.guest m1.regionVirtBase = some m1.regionPhysBase := by
      rw [hvirt, hphys]
      exact fun hne => (hkept.region rfl hne).trans (h.region hne)
    have hnothing : block.result.needTlbInvalidate = false → Fresh m1.guest m1.mmu ∧
        m1.chainCache.Holds 1 fun key ptr =>
          ∃ b, ptr = some b ∧ mappedPage m1.guest key = some b.page := fun hno => hremembered (.inr hno)
    simp only [bind_eq_bind, bind_some, Bool.false_eq_true, if_false] at hfinish
    split at hfinish
    · exact mappingInv_forget hregion hblocks hnothing hfinish
    · rename_i hquiet
      have hno : block.result.needTlbInvalidate = false := by
        cases hb : block.result.needTlbInvalidate with
        | false => rfl
        | true => exact absurd (.inr (.inl hb)) hquiet
      split at hfinish
      · exact mappingInv_forget hregion hblocks hnothing hfinish
      · cases hfinish
      · rename_i next hget
        cases hfinish
        obtain ⟨hfresh, hchain⟩ := hnothing hno
        refine ⟨hfresh, hregion, hblocks, hchain, fun b hb => ?_⟩
        cases hb
        obtain ⟨b, hptr, hmapped⟩ := hchain.get (hkept.pc rfl) hget
        cases hptr
        exact hmapped

theorem mappingInv_run {guest : Guest} (hrun : Relation.ReflTransGen KeptStep (.initial guest) m) :
    MappingInv m := by
  induction hrun with
  | refl =>
    exact ⟨fun _ h => absurd rfl h, fun h => absurd rfl h, nofun, DirectMappedCache.holds_fillKeys _ _ _, nofun⟩
  | tail _ hstep ih =>
    cases hstep with
    | dispatch translation hrunning hdispatch => exact ih.dispatch hrunning hdispatch
    | finish effects interruptPending _ hfinish hperform hkept =>
      exact ih.finish hfinish hperform hkept

/-- **Every block that runs has been looked up under the page to which the program counter is mapped**,
in runs that keep the mappings. -/
theorem running_mapped {guest : Guest} {m : Machine} {block : TranslatedBlock}
    (hrun : Relation.ReflTransGen KeptStep (.initial guest) m) (hblock : m.running = some block) :
    mappedPage m.guest m.guest.pc = some block.page :=
  (mappingInv_run hrun).running block hblock

/-! ### A guest that changes its tables -/

/-- The page at `0x10000` is mapped to `0x20000`, and the program starts there. -/
def mappedGuest : Guest where
  registers := fun name =>
    if name = "SCTLR_EL1_bits" ∨ name = "PSTATE_EL" then 1
    else if name = "_TTBR0_EL1_bits" then 0x1000
    else if name = "_PC" then 0x10000 else 0
  memory := fun address =>
    if address = 0x1000 then 0x2003
    else if address = 0x2000 then 0x3003
    else if address = 0x3080 then 0x20403 else 0

/-- A block that invalidates the translation buffers. -/
def invalidation : Translation := ⟨[], ⟨true, false⟩⟩

/-- A store to the table of the last level, and a jump back to the start. -/
def remap (address : Nat) : List Effect := [.store address 0x30403, .writeRegister "_PC" 0x10000]

set_option maxRecDepth 20000 in
/-- Another page is mapped, and the next block is still from the page of the program counter. -/
theorem running_mapped_other :
    ∃ m block, Relation.ReflTransGen KeptStep (.initial mappedGuest) m ∧ m.running = some block ∧
      mappedPage mappedGuest 0x11000 = none ∧ mappedPage m.guest 0x11000 = some 0x30000 ∧
      mappedPage m.guest m.guest.pc = some block.page := by
  have hrun : ∃ m block, Relation.ReflTransGen KeptStep (.initial mappedGuest) m ∧
      m.running = some block ∧ mappedPage m.guest 0x11000 = some 0x30000 := by
    refine ⟨_, _, .tail (.tail (.tail .refl (.dispatch invalidation rfl rfl))
      (.finish (remap 0x3088) false rfl rfl rfl ⟨fun _ _ => rfl, nofun, nofun, fun _ => ?_⟩))
      (.dispatch invalidation rfl rfl), rfl, rfl⟩
    decide
  obtain ⟨m, block, hrun, hblock, hother⟩ := hrun
  exact ⟨m, block, hrun, hblock, by decide, hother, running_mapped hrun hblock⟩

set_option maxRecDepth 20000 in
/-- The page has been mapped to `0x30000`, and a block from `0x20000` runs. -/
theorem not_remapped :
    ∃ m block, Relation.ReflTransGen Step (.initial mappedGuest) m ∧ m.running = some block ∧
      block.page = 0x20000 ∧ mappedPage m.guest m.guest.pc = some 0x30000 :=
  ⟨_, _, .tail (.tail (.tail .refl (.dispatch invalidation rfl rfl))
    (.finish (remap 0x3080) false rfl rfl)) (.dispatch invalidation rfl rfl), rfl, rfl, rfl⟩

end Icewind.Brig
