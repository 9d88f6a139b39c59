import Icewind.X86.AllocatorProgress
import Mathlib.Data.Nat.ModEq

/-!
# Allocated straight-line code computes the same

* `Renaming` — an assignment of registers that keeps apart what is live at the same time.
* `Agree` — the registers live at a point have the same known bits in both register files.
* `Renaming.run` — the renamed code, with redundant moves killed, computes what the original does.
* `allocate_preserves` — so does the code `allocate` returns, for straight-line code in which
  overwritten registers are settled; `lateOverwrite_corrupts` shows why that is needed.
-/

namespace Icewind.X86

open List Opcode

/-! ## Writing some of the bits -/

/-- Agreement on `m` bits becomes agreement on the bits known after a write. -/
theorem writeBits_mod {m a b : Nat} (h : a % 2 ^ m = b % 2 ^ m) (c : RegisterClass) (w : Width) (x : Nat) :
    writeBits c w a x % 2 ^ (if c = .general ∧ w = .w32 then 64 else max m w.bits) =
      writeBits c w b x % 2 ^ (if c = .general ∧ w = .w32 then 64 else max m w.bits) := by
  unfold writeBits
  by_cases hc : c = .general ∧ w = .w32
  · rw [if_pos hc, if_pos hc, if_pos hc]
  · rw [if_neg hc, if_neg hc, if_neg hc]
    by_cases hm : m ≤ w.bits
    · rw [Nat.max_eq_right hm, Nat.mul_add_mod_self_right, Nat.mul_add_mod_self_right]
    · have hle : w.bits ≤ m := by omega
      rw [Nat.max_eq_left hle]
      have hlow : a % 2 ^ w.bits = b % 2 ^ w.bits := Nat.ModEq.of_dvd (Nat.pow_dvd_pow 2 hle) h
      have hhigh : a / 2 ^ w.bits * 2 ^ w.bits ≡ b / 2 ^ w.bits * 2 ^ w.bits [MOD 2 ^ m] := by
        refine Nat.ModEq.add_right_cancel' (a % 2 ^ w.bits) ?_
        rw [Nat.div_add_mod', hlow, Nat.div_add_mod']
        exact h
      exact Nat.ModEq.add_right _ hhigh

variable {c : RegisterClass} {w : Width}

theorem writeBits_self (hc : ¬ (c = .general ∧ w = .w32)) (a : Nat) : writeBits c w a (a % 2 ^ w.bits) = a := by
  unfold writeBits
  rw [if_neg hc, Nat.mod_mod, Nat.div_add_mod']

theorem writeBits_low (hc : ¬ (c = .general ∧ w = .w32)) (a x : Nat) :
    writeBits c w a x % 2 ^ w.bits = x % 2 ^ w.bits := by
  unfold writeBits
  rw [if_neg hc, Nat.mul_add_mod_self_right, Nat.mod_mod]

/-! ## Renamings -/

/-- A renaming of the virtual registers of `is` to physical ones of their class that keeps apart
registers live at the same time. -/
structure Renaming (cls : Nat → RegisterClass) (is : List Opcode) (g : Register → Register) : Prop where
  physical : ∀ p, g (.physical p) = .physical p
  assigns : ∀ {k : Nat} {i : Opcode} {v}, is[k]? = some i → (v ∈ i.writtenVirtuals ∨ v ∈ i.readVirtuals) →
    ∃ p, g (.virtual v (cls v)) = .physical p ∧ p.class_ = cls v
  apart : ∀ {u v j}, u ≠ v → LiveAt is u j → LiveAt is v j → g (.virtual u (cls u)) ≠ g (.virtual v (cls v))

/-- The registers of `live` have the same known bits. -/
def Agree (cls : Nat → RegisterClass) (g : Register → Register) (live : Nat → Prop) (known : Nat → Nat)
    (R R' : RegisterFile) : Prop :=
  ∀ v, live v → R (.virtual v (cls v)) % 2 ^ known v = R' (g (.virtual v (cls v))) % 2 ^ known v

variable {u v : Nat}

section Writes

variable {cls : Nat → RegisterClass} {g : Register → Register} {live live' : Nat → Prop}
  {known : Nat → Nat} {R R' : RegisterFile} {v : Nat} {w : Width}

theorem learn_self (known : Nat → Nat) (v : Nat) (c : RegisterClass) (w : Width) :
    learn known (.virtual v c, w) v = if c = .general ∧ w = .w32 then 64 else max (known v) w.bits := by
  simp [learn]

theorem learn_of_ne (known : Nat → Nat) (h : u ≠ v) (c : RegisterClass) (w : Width) :
    learn known (.virtual v c, w) u = known u := by
  simp [learn, h]

/-- The same value written on both sides.  Registers live afterwards are either the one written, or
were live before and are not renamed to the same register. -/
theorem Agree.write (ha : Agree cls g live known R R')
    (hc : (g (.virtual v (cls v))).cls = cls v) (hold : live' v → live v ∨ known v = 0)
    (hne : ∀ u, u ≠ v → live' u → live u ∧ g (.virtual u (cls u)) ≠ g (.virtual v (cls v))) (x : Nat) :
    Agree cls g live' (learn known (.virtual v (cls v), w)) (writeRegister R (.virtual v (cls v), w) x)
      (writeRegister R' (g (.virtual v (cls v)), w) x) := by
  intro u hu
  by_cases e : u = v
  · subst e
    have h : R (.virtual u (cls u)) % 2 ^ known u = R' (g (.virtual u (cls u))) % 2 ^ known u := by
      rcases hold hu with hl | h0
      · exact ha u hl
      · rw [h0, Nat.pow_zero, Nat.mod_one, Nat.mod_one]
    simp only [writeRegister, Function.update_self, learn_self, hc]
    exact writeBits_mod h (cls u) w x
  · obtain ⟨hl, hg⟩ := hne u e hu
    have hr : Register.virtual u (cls u) ≠ .virtual v (cls v) := by
      intro h
      cases h
      exact e rfl
    simp only [writeRegister, Function.update_of_ne hr, Function.update_of_ne hg, learn_of_ne _ e]
    exact ha u hl

/-- A write on one side only, of a value the other side has already. -/
theorem Agree.write_left (ha : Agree cls g live known R R') (x : Nat)
    (hv : live' v → R' (g (.virtual v (cls v))) % 2 ^ learn known (.virtual v (cls v), w) v =
      writeBits (cls v) w (R (.virtual v (cls v))) x % 2 ^ learn known (.virtual v (cls v), w) v)
    (hne : ∀ u, u ≠ v → live' u → live u) :
    Agree cls g live' (learn known (.virtual v (cls v), w)) (writeRegister R (.virtual v (cls v), w) x) R' := by
  intro u hu
  by_cases e : u = v
  · subst e
    simp only [writeRegister, Function.update_self]
    exact (hv hu).symm
  · have hr : Register.virtual u (cls u) ≠ .virtual v (cls v) := by
      intro h
      cases h
      exact e rfl
    simp only [writeRegister, Function.update_of_ne hr, learn_of_ne _ e]
    exact ha u (hne u e hu)

end Writes

/-! ## What renaming does to an instruction -/

section Instruction

variable {g : Register → Register}

theorem Opcode.reads_mapRegisters (hg : ∀ p, g (.physical p) = .physical p) (i : Opcode) :
    (i.mapRegisters g).reads = i.reads.map fun p => (g p.1, p.2) := by
  simp only [reads, getUseDefs_mapRegisters hg, filterMap_map, map_filterMap]
  congr 1
  funext p
  obtain ⟨ud, w⟩ := p
  cases ud <;> rfl

theorem Opcode.writes_mapRegisters (hg : ∀ p, g (.physical p) = .physical p) (i : Opcode) :
    (i.mapRegisters g).writes = i.writes.map fun p => (g p.1, p.2) := by
  simp only [writes, getUseDefs_mapRegisters hg, filterMap_map, map_filterMap]
  congr 1
  funext p
  obtain ⟨ud, w⟩ := p
  cases ud <;> rfl

theorem writes_eq (i : Opcode) :
    i.writes = (i.getUseDefs.filter fun p => p.1.defined.isSome).map fun p => (p.1.reg, p.2) := by
  unfold writes
  generalize i.getUseDefs = ps
  induction ps with
  | nil => rfl
  | cons p ps ih =>
    obtain ⟨ud, w⟩ := p
    cases ud with
    | use r => simpa [show (UseDef.use r).defined = none from rfl] using ih
    | def_ r => simpa [show (UseDef.def_ r).defined = some r from rfl] using ⟨rfl, ih⟩
    | useDef r => simpa [show (UseDef.useDef r).defined = some r from rfl] using ⟨rfl, ih⟩

theorem mapRegisters_eq_dead {i : Opcode} : i.mapRegisters g = .dead ↔ i = .dead := by
  cases i <;> simp [mapRegisters, dead]

end Instruction

namespace Renaming

variable {n : Nat} {cls : Nat → RegisterClass} {is : List Opcode} {g : Register → Register} {k : Nat}
  {i : Opcode}

theorem cls_eq (hg : Renaming cls is g) (hk : is[k]? = some i) {v : Nat}
    (hv : v ∈ i.writtenVirtuals ∨ v ∈ i.readVirtuals) : (g (.virtual v (cls v))).cls = cls v := by
  obtain ⟨p, hp, hc⟩ := hg.assigns hk hv
  rw [hp]
  exact hc

section

variable (hp : StraightLine n cls is) (hg : Renaming cls is g) (hk : is[k]? = some i)

include hp hg hk

theorem shape_eq :
    (i.mapRegisters g).shape = i.shape := by
  unfold shape
  rw [mapRegisters_mapRegisters]
  refine mapRegisters_congr fun o ho r hr => ?_
  obtain ⟨v, _, rfl, hv⟩ := hp.operand_register hk ho hr
  rw [hg.cls_eq hk hv]
  rfl

theorem values_eq
    {R R' : RegisterFile} (ha : Agree cls g (LiveAt is · k) (knownBits (is.take k)) R R') :
    (i.mapRegisters g).reads.map (readRegister R') = i.reads.map (readRegister R) := by
  rw [reads_mapRegisters hg.physical, map_map]
  refine map_congr_left fun ⟨r, w⟩ hr => ?_
  obtain ⟨ud, hud, hd⟩ := mem_reads.mp hr
  obtain ⟨v, _, rfl⟩ := hp.virtual_of_used hk ((mem_uses hd).mpr ⟨w, hud⟩) hd
  have hlive := hp.liveAt_of_read hk (mem_readVirtuals_iff.mpr ⟨cls v, w, hr⟩)
  have hbits : w.bits ≤ knownBits (is.take k) v := hp.written k i hk _ hr v (cls v) rfl
  exact (Nat.ModEq.of_dvd (Nat.pow_dvd_pow 2 hbits) (ha v hlive)).symm

end

end Renaming

variable {is : List Opcode}

theorem LiveAt.pred {k v : Nat} {i : Opcode} (hk : is[k]? = some i) (h : LiveAt is v (k + 1)) :
    LiveAt is v k ∨ v ∈ i.writtenVirtuals := by
  obtain ⟨⟨j, i', hj, hi', hw⟩, j', i'', hj', hi'', hr⟩ := h
  by_cases e : j = k
  · subst e
    rw [hk] at hi'
    cases hi'
    exact .inr hw
  · exact .inl ⟨⟨j, i', by omega, hi', hw⟩, j', i'', by omega, hi'', hr⟩

/-- A register that is live after the instruction and written before it is live before it. -/
theorem LiveAt.of_succ {k v : Nat} (h : LiveAt is v (k + 1)) (hw : WrittenBefore is v k) : LiveAt is v k := by
  obtain ⟨_, j', i'', hj', hi'', hr⟩ := h
  exact ⟨hw, j', i'', by omega, hi'', hr⟩

/-! ## One instruction -/

namespace Renaming

variable {n : Nat} {cls : Nat → RegisterClass} {is : List Opcode} {g : Register → Register} {k : Nat}
  {i : Opcode} {R R' : RegisterFile}

/-- A register that is written and live afterwards was live before, or nothing of it is known. -/
theorem live_or_unknown {v : Nat} (h : LiveAt is v (k + 1)) :
    LiveAt is v k ∨ knownBits (is.take k) v = 0 := by
  by_cases h0 : knownBits (is.take k) v = 0
  · exact .inr h0
  · exact .inl (h.of_succ (knownBits_ne h0))

/-- A register purely written at `k` shares its register with nothing else that is live then. -/
theorem apart_of_pure (hs : Settled cls is) (hg : Renaming cls is g) (hv : PurelyWritten is v k) (huv : u ≠ v)
    (hu : LiveAt is u (k + 1)) : g (.virtual u (cls u)) ≠ g (.virtual v (cls v)) := by
  by_cases hlive : LiveAt is v (k + 1)
  · exact hg.apart huv hu hlive
  · by_cases hc : cls u = cls v
    · obtain ⟨j, hju, hjv⟩ := hs.together v k u hv hlive huv hc hu
      exact hg.apart huv hju hjv
    · intro he
      obtain ⟨⟨j, i1, _, hj, hw⟩, _⟩ := hu
      obtain ⟨i2, c, hi2, hd⟩ := hv
      have hw2 : v ∈ i2.writtenVirtuals := mem_writtenVirtuals.mpr ⟨_, hd, c, rfl⟩
      have h1 := hg.cls_eq hj (.inl hw)
      rw [he, hg.cls_eq hi2 (.inl hw2)] at h1
      exact hc h1.symm

section

variable (hp : StraightLine n cls is)

include hp

/-- **The registers after an instruction**, whatever values it writes. -/
theorem writes_agree (hs : Settled cls is) (hg : Renaming cls is g) (hk : is[k]? = some i)
    (ha : Agree cls g (LiveAt is · k) (knownBits (is.take k)) R R') (values : Nat → Nat) :
    Agree cls g (LiveAt is · (k + 1)) (knownBits (is.take (k + 1))) (writeAll values 0 i.writes R)
      (writeAll values 0 (i.mapRegisters g).writes R') := by
  have virtual : ∀ p ∈ i.getUseDefs, ∃ v, p.1.reg = .virtual v (cls v) := fun p hm => by
    obtain ⟨v, _, hv⟩ := hp.virtual i (mem_of_getElem? hk) p hm
    exact ⟨v, hv⟩
  have mem : ∀ {p}, p ∈ (i.getUseDefs.filter fun p => p.1.defined.isSome) →
      p ∈ i.getUseDefs ∧ p.1 ∈ i.definitions := by
    intro p hm
    refine ⟨(mem_filter.mp hm).1, ?_⟩
    rw [StraightLine.definitions_eq]
    exact mem_map_of_mem hm
  rw [knownBits_take_succ hk, writes_mapRegisters hg.physical, writes_eq]
  have hpred := fun {u} (h : LiveAt is u (k + 1)) => h.pred hk
  have hwritten : ∀ u, u ∈ i.writtenVirtuals →
      ∃ p ∈ (i.getUseDefs.filter fun p => p.1.defined.isSome), p.1.reg = .virtual u (cls u) := by
    intro u hu
    obtain ⟨c, w, hw⟩ := mem_writtenVirtuals_iff.mp hu
    rw [writes_eq] at hw
    obtain ⟨p, hm, he⟩ := mem_map.mp hw
    obtain ⟨v, hv⟩ := virtual p (mem hm).1
    have : p.1.reg = .virtual u c := congrArg Prod.fst he
    rw [hv] at this
    cases this
    exact ⟨p, hm, hv⟩
  rcases definitions_shape (hp.not_physical hk) (hp.not_call hk) with h | ⟨⟨ud, w⟩, h⟩ | ⟨r, r', w, w', h⟩
  · -- nothing is written
    rw [h] at hwritten ⊢
    intro u hu
    refine ha u ((hpred hu).resolve_right fun hw => ?_)
    obtain ⟨p, hm, _⟩ := hwritten u hw
    simp at hm
  · -- one register
    have hmem := mem (p := (ud, w)) (by rw [h]; simp)
    obtain ⟨v, hv⟩ := virtual _ hmem.1
    rw [h] at hwritten ⊢
    simp only [map_cons, map_nil, foldl_cons, foldl_nil, writeAll, hv]
    have hvw : v ∈ i.writtenVirtuals := by
      refine mem_writtenVirtuals.mpr ⟨ud, hmem.2, cls v, ?_⟩
      obtain ⟨r, hd⟩ := Option.isSome_iff_exists.mp (mem_filter.mp hmem.2).2
      rw [hd, ← UseDef.defined_eq_some hd, hv]
    refine ha.write (hg.cls_eq hk (.inl hvw)) live_or_unknown (fun u huv hu => ?_) _
    have hu0 : LiveAt is u k := by
      refine (hpred hu).resolve_right fun hw => huv ?_
      obtain ⟨p, hm, he⟩ := hwritten u hw
      cases mem_singleton.mp hm
      rw [hv] at he
      cases he
      rfl
    refine ⟨hu0, ?_⟩
    cases ud with
    | use r => exact absurd (mem_filter.mp hmem.2).2 (by simp [UseDef.defined])
    | def_ r =>
      cases hv
      exact hg.apart_of_pure hs ⟨i, cls v, hk, hmem.2⟩ huv hu
    | useDef r =>
      cases hv
      refine hg.apart huv hu0 (hp.liveAt_of_read hk ?_)
      exact mem_readVirtuals.mpr ⟨_, useDef_mem hmem.2, cls v, rfl⟩
  · -- a register that is also read, then another one
    have hmem := mem (p := (.useDef r, w)) (by rw [h]; simp)
    have hmem' := mem (p := (.def_ r', w')) (by rw [h]; simp)
    obtain ⟨v, hv⟩ := virtual _ hmem.1
    obtain ⟨v', hv'⟩ := virtual _ hmem'.1
    rw [h] at hwritten ⊢
    cases hv
    cases hv'
    have hread : v ∈ i.readVirtuals :=
      mem_readVirtuals.mpr ⟨_, useDef_mem hmem.2, cls v, rfl⟩
    have hlive := hp.liveAt_of_read hk hread
    have hvw' : v' ∈ i.writtenVirtuals := mem_writtenVirtuals.mpr ⟨_, hmem'.2, cls v', rfl⟩
    have ha1 : Agree cls g (LiveAt is · k) (learn (knownBits (is.take k)) (.virtual v (cls v), w)) _ _ :=
      ha.write (hg.cls_eq hk (.inr hread)) .inl (fun u huv hu => ⟨hu, hg.apart huv hu hlive⟩) (values 0)
    refine ha1.write (hg.cls_eq hk (.inl hvw')) (fun hl => ?_) (fun u huv hu => ?_) _
    · by_cases e : v' = v
      · subst e
        exact .inl hlive
      · rw [learn_of_ne _ e]
        exact live_or_unknown hl
    · refine ⟨?_, hg.apart_of_pure hs ⟨i, cls v', hk, hmem'.2⟩ huv hu⟩
      rcases hpred hu with hu0 | hw
      · exact hu0
      · obtain ⟨p, hm, he⟩ := hwritten u hw
        simp only [mem_cons, not_mem_nil, or_false] at hm
        rcases hm with rfl | rfl
        · cases he
          exact hlive
        · cases he
          exact absurd rfl huv

variable {src dst : Operand}

/-- Without register names the operands of a move that the renaming makes redundant are the same. -/
theorem killed_shape (hg : Renaming cls is g) (hk : is[k]? = some (.mov src dst))
    (he : src.mapRegisters g = dst.mapRegisters g) :
    (mov src dst).shape =
      .mov (dst.mapRegisters fun r => .virtual 0 r.cls) (dst.mapRegisters fun r => .virtual 0 r.cls) := by
  have bare : ∀ o ∈ (mov src dst).operands,
      o.mapRegisters (fun r => .virtual 0 r.cls) = (o.mapRegisters g).mapRegisters fun r => .virtual 0 r.cls := by
    intro o ho
    rw [Operand.mapRegisters_mapRegisters]
    refine Operand.mapRegisters_congr fun r hr => ?_
    obtain ⟨v, _, rfl, hv⟩ := hp.operand_register hk ho hr
    rw [hg.cls_eq hk hv]
    rfl
  have h1 := bare src (by simp [operands])
  have h2 := bare dst (by simp [operands])
  rw [he, ← h2] at h1
  simp only [shape, mov, mapRegisters, h1]

theorem killed_register (hg : Renaming cls is g)
    (hk : is[k]? = some (.mov ⟨.register (.virtual u (cls u)), w⟩ ⟨.register (.virtual v (cls v)), w⟩))
    (he : g (.virtual u (cls u)) = g (.virtual v (cls v))) (hw : w ≠ .w32)
    (ha : Agree cls g (LiveAt is · k) (knownBits (is.take k)) R R') :
    Agree cls g (LiveAt is · (k + 1)) (learn (knownBits (is.take k)) (.virtual v (cls v), w))
      (writeRegister R (.virtual v (cls v), w) (R (.virtual u (cls u)) % 2 ^ w.bits)) R' := by
  have hread : (Register.virtual u (cls u), w) ∈ (mov ⟨.register (.virtual u (cls u)), w⟩
      ⟨.register (.virtual v (cls v)), w⟩).reads := mem_singleton.mpr rfl
  have hlive := hp.liveAt_of_read hk (mem_readVirtuals_iff.mpr ⟨cls u, w, hread⟩)
  have hbits : w.bits ≤ knownBits (is.take k) u := hp.written k _ hk _ hread u (cls u) rfl
  have hlow : R (.virtual u (cls u)) % 2 ^ w.bits = R' (g (.virtual v (cls v))) % 2 ^ w.bits := by
    rw [← he]
    exact Nat.ModEq.of_dvd (Nat.pow_dvd_pow 2 hbits) (ha u hlive)
  have hnc : ¬ (cls v = .general ∧ w = .w32) := fun h => hw h.2
  refine ha.write_left _ (fun hl => ?_) (fun z hz hl => ?_)
  · rw [learn_self, if_neg hnc]
    by_cases hle : knownBits (is.take k) v ≤ w.bits
    · rw [Nat.max_eq_right hle, writeBits_low hnc, Nat.mod_mod, hlow]
    · -- more than the moved bits is known, so it is a move of a register to itself
      have hlv : LiveAt is v k := (live_or_unknown hl).resolve_right (by omega)
      have huv : u = v := by
        by_contra hne
        exact hg.apart hne hlive hlv he
      subst huv
      rw [Nat.max_eq_left (by omega), writeBits_self hnc]
      exact (ha u hlv).symm
  · refine (hl.pred hk).resolve_right fun hzw => ?_
    obtain ⟨c, w', hm⟩ := mem_writtenVirtuals_iff.mp hzw
    cases mem_singleton.mp hm
    exact hz rfl

omit hp in
theorem mov_writes (hd : ∀ r, dst.kind ≠ .register r) : (mov src dst).writes = [] := by
  have hdst : ((dst.useDefs .out).filter fun p => p.1.defined.isSome) = [] := by
    unfold Operand.useDefs
    split
    · rfl
    · rfl
    · rename_i r hr
      exact absurd hr (hd r)
    · rfl
  rw [writes_eq, mov, getUseDefs, getApparentOperands]
  · simp only [flatMap_cons, flatMap_nil, append_nil, filter_append, useDefs_in, Op2.direction, hdst, map_nil]
  · rintro ⟨⟩

variable {σ : Type}

/-- A move that the renaming makes redundant: on the other side nothing happens. -/
theorem killed_agree (hg : Renaming cls is g) (hk : is[k]? = some (.mov src dst))
    (he : src.mapRegisters g = dst.mapRegisters g) (hw : src.width ≠ .w32)
    (ha : Agree cls g (LiveAt is · k) (knownBits (is.take k)) R R') (S : Semantics σ) (m : σ)
    {r : (Nat → Nat) × σ} (hr : S.exec (mov src dst).shape ((mov src dst).reads.map (readRegister R)) m = r) :
    Agree cls g (LiveAt is · (k + 1)) (knownBits (is.take (k + 1)))
      (writeAll r.1 0 (mov src dst).writes R) R' ∧ r.2 = m := by
  rw [hg.killed_shape hp hk he] at hr
  have hstate : r.2 = m := by
    rw [← hr]
    exact S.mov_state _ _ m
  refine ⟨?_, hstate⟩
  rw [knownBits_take_succ hk]
  by_cases hd : ∃ rd, dst.kind = .register rd
  · obtain ⟨rd, hd⟩ := hd
    obtain ⟨kd, w⟩ := dst
    obtain ⟨ks, ws⟩ := src
    have hwidth := congrArg Operand.width he
    rw [Operand.mapRegisters_width, Operand.mapRegisters_width] at hwidth
    cases hwidth
    cases hd
    cases ks with
    | register rs =>
      obtain ⟨v, _, rfl, _⟩ := hp.operand_register hk (o := ⟨.register rd, w⟩)
        (by simp [operands]) (r := rd) (by simp [Operand.registers])
      obtain ⟨u, _, rfl, _⟩ := hp.operand_register hk (o := ⟨.register rs, w⟩)
        (by simp [operands]) (r := rs) (by simp [Operand.registers])
      have hval : r.1 0 = R (.virtual u (cls u)) % 2 ^ w.bits := by
        rw [← hr]
        exact S.mov_value _ w _ m
      have := hg.killed_register hp hk (by simpa [Operand.mapRegisters] using he) hw ha
      rw [← hval] at this
      exact this
    | _ => simp [Operand.mapRegisters] at he
  · have hnone : (mov src dst).writes = [] := mov_writes fun r hr => hd ⟨r, hr⟩
    rw [hnone]
    intro z hz
    refine ha z ((hz.pred hk).resolve_right fun hzw => ?_)
    obtain ⟨c, w', hm⟩ := mem_writtenVirtuals_iff.mp hzw
    rw [hnone] at hm
    simp at hm

/-- **One instruction**: the renamed one, killed if it is redundant, keeps the live registers in
agreement and computes the same state. -/
theorem step (hs : Settled cls is) (hg : Renaming cls is g) (hk : is[k]? = some i) (S : Semantics σ)
    {c c' : RegisterFile × σ} (ha : Agree cls g (LiveAt is · k) (knownBits (is.take k)) c.1 c'.1)
    (hm : c'.2 = c.2) :
    Agree cls g (LiveAt is · (k + 1)) (knownBits (is.take (k + 1))) (X86.step S c i).1
        (X86.step S c' (killRedundantMov (i.mapRegisters g))).1 ∧
      (X86.step S c' (killRedundantMov (i.mapRegisters g))).2 = (X86.step S c i).2 := by
  by_cases hkill : ∃ src dst, i = .mov src dst ∧ src.mapRegisters g = dst.mapRegisters g ∧ src.width ≠ .w32
  · obtain ⟨src, dst, rfl, he, hw⟩ := hkill
    have hd : killRedundantMov ((mov src dst).mapRegisters g) = .dead :=
      if_pos ⟨he, by rwa [Operand.mapRegisters_width]⟩
    obtain ⟨ha', hst⟩ := hg.killed_agree hp hk he hw ha S c.2 rfl
    rw [hd]
    exact ⟨ha', hm.trans hst.symm⟩
  · have hn : killRedundantMov (i.mapRegisters g) = i.mapRegisters g := by
      unfold killRedundantMov
      split
      · rename_i src dst hi
        refine if_neg ?_
        rintro ⟨he, hw⟩
        cases i with
        | op2 op a b =>
          injection hi with ho hsrc hdst
          subst ho hsrc hdst
          exact hkill ⟨a, b, rfl, he, by rwa [Operand.mapRegisters_width] at hw⟩
        | _ => cases hi
      · rfl
    rw [hn]
    unfold X86.step
    by_cases hd : i = .dead
    · subst hd
      exact ⟨hg.writes_agree hp hs hk ha fun _ => 0, hm⟩
    · rw [if_neg hd, if_neg fun h => hd (mapRegisters_eq_dead.mp h), hg.shape_eq hp hk,
        hg.values_eq hp hk ha, hm]
      exact ⟨hg.writes_agree hp hs hk ha _, rfl⟩

/-- **A run of renamed straight-line code computes the same.** -/
theorem run (hs : Settled cls is) (hg : Renaming cls is g) (S : Semantics σ) (R R' : RegisterFile) (m : σ) :
    ∀ k ≤ is.length, Agree cls g (LiveAt is · k) (knownBits (is.take k)) (X86.run S (is.take k) (R, m)).1
          (X86.run S ((is.take k).map fun i => killRedundantMov (i.mapRegisters g)) (R', m)).1 ∧
        (X86.run S ((is.take k).map fun i => killRedundantMov (i.mapRegisters g)) (R', m)).2 =
          (X86.run S (is.take k) (R, m)).2
  | 0, _ => by
    refine ⟨?_, rfl⟩
    rintro v ⟨⟨j, _, hj, _⟩, _⟩
    exact absurd hj (Nat.not_lt_zero j)
  | k + 1, hle => by
    obtain ⟨ha, hm⟩ := run hs hg S R R' m k (by omega)
    have hk : is[k]? = some is[k] := List.getElem?_eq_getElem (by omega)
    have := hg.step hp hs hk S ha hm
    have htake : is.take (k + 1) = is.take k ++ [is[k]] := by
      rw [take_add_one, hk]
      rfl
    rw [htake] at this ⊢
    simpa only [X86.run, map_append, map_cons, map_nil, foldl_append, foldl_cons, foldl_nil] using this

end

end Renaming

/-! ## The allocator -/

theorem mem_events : ∀ (is : List Opcode) {c : Nat} {e : Event}, e ∈ events c is →
    ∃ k i, is[k]? = some i ∧ e ∈ instructionEvents (c + k) i
  | [], _, _, h => by simp [events] at h
  | i :: is, c, e, h => by
    rcases mem_append.mp h with h | h
    · obtain ⟨k, i', hk, he⟩ := mem_events is h
      refine ⟨k + 1, i', by simpa using hk, ?_⟩
      rwa [Nat.add_right_comm, Nat.add_assoc] at he
    · exact ⟨0, i, rfl, h⟩

theorem Scan.undisturbed_of_unmoved {mark : Scan → Event → List Nat} : ∀ (es : List Event) {st : Scan}
    {g : List Nat}, (∀ e ∈ es, ∀ s : Scan, s.moved e = none) → Scan.undisturbed mark es st g = true
  | [], _, _, _ => rfl
  | e :: es, st, g, h => by
    simp only [Scan.undisturbed, h e mem_cons_self st, Bool.true_and]
    split
    · exact undisturbed_of_unmoved es fun e' he' => h e' (mem_cons_of_mem _ he')
    · rfl

namespace StraightLine

variable {n : Nat} {cls : Nat → RegisterClass} {is : List Opcode}

/-- Without physical registers nothing is ever moved. -/
theorem unmoved (hp : StraightLine n cls is) {e : Event} (he : e ∈ events 0 is) (s : Scan) :
    s.moved e = none := by
  obtain ⟨k, i, hk, he⟩ := mem_events is he
  simp only [instructionEvents, mem_append, mem_map] at he
  rcases he with (⟨ud, hud, rfl⟩ | ⟨ud, hud, rfl⟩) | he
  · obtain ⟨r, hd⟩ := Option.isSome_iff_exists.mp (mem_filter.mp hud).2
    obtain ⟨v, _, rfl⟩ := hp.virtual_of_defined hk hud hd
    simp [Scan.moved, hd]
  · obtain ⟨r, hd⟩ := Option.isSome_iff_exists.mp (mem_filter.mp hud).2
    obtain ⟨v, _, rfl⟩ := hp.virtual_of_used hk hud hd
    simp [Scan.moved, hd]
  · rw [mem_callEvents he]
    rfl

/-- The assignment of a successful allocation is a renaming that keeps live registers apart. -/
theorem rename_final (hp : StraightLine n cls is) {off : Nat} (A : Allocation is n off) (hcode : A.code = is)
    (hh : ∀ {k : Nat} {i : Opcode} {v}, is[k]? = some i → (v ∈ i.writtenVirtuals ∨ v ∈ i.readVirtuals) →
      ∃ p ∈ availPhysRegs (cls v), A.assigned v = some p) : Renaming cls is A.final.rename where
  physical _ := rfl
  assigns hk hv := by
    obtain ⟨p, hpa, hp'⟩ := hh hk hv
    exact ⟨p, Scan.rename_virtual hp' _, availPhysRegs_class hpa⟩
  apart := by
    intro u v j huv hu hv he
    have hslot : Slotted is := fun {k f a b} hk => absurd rfl (hp.not_call hk f a b)
    have hun : Scan.undisturbed spoiled (events 0 A.code) A.initial [] = true := by
      rw [hcode]
      exact Scan.undisturbed_of_unmoved _ fun e he s => hp.unmoved he s
    obtain ⟨⟨_, _, _, hku, hwu⟩, _⟩ := id hu
    obtain ⟨⟨_, _, _, hkv, hwv⟩, _⟩ := id hv
    obtain ⟨p, _, hpu⟩ := hh hku (.inl hwu)
    obtain ⟨q, _, hqv⟩ := hh hkv (.inl hwv)
    rw [Scan.rename_virtual hpu, Scan.rename_virtual hqv] at he
    cases he
    rw [← hcode] at hu hv
    exact A.assigned_of_overlap hslot hun huv hu hv hpu hqv

end StraightLine

/-- `allocate` returns a list without virtual registers which, run from any register file, leaves
memory as the original list does. -/
def AllocatesCorrectly (is : List Opcode) (n off : Nat) : Prop :=
  ∃ out, allocate is n off = some out ∧ (∀ i ∈ out, ∀ o ∈ i.operands, ∀ v c, .virtual v c ∉ o.registers) ∧
    ∀ (σ : Type) (S : Semantics σ) (R R' : RegisterFile) (m : σ), (run S out (R', m)).2 = (run S is (R, m)).2

/-- **Allocated straight-line code leaves memory as the original does.** -/
theorem allocate_preserves {n : Nat} {cls : Nat → RegisterClass} {is : List Opcode}
    (hp : StraightLine n cls is) (hs : Settled cls is) (off : Nat) : AllocatesCorrectly is n off := by
  obtain ⟨A, hcode, hout, hh⟩ := hp.allocation hs off
  have hg := hp.rename_final A hcode hh
  refine ⟨A.out, allocate_eq_some.mpr ⟨A, rfl⟩, ?_, fun σ S R R' m => ?_⟩
  · intro i hi o ho v c hr
    rw [hout] at hi
    obtain ⟨i0, hi0, rfl⟩ := mem_map.mp hi
    obtain ⟨k, hk⟩ := mem_iff_getElem?.mp hi0
    have hmem : o ∈ (i0.mapRegisters A.final.rename).operands := by
      unfold killRedundantMov at ho
      split at ho
      · split at ho
        · simp [operands] at ho
        · exact ho
      · exact ho
    rw [operands_mapRegisters] at hmem
    obtain ⟨o0, ho0, rfl⟩ := mem_map.mp hmem
    rw [Operand.registers_mapRegisters] at hr
    obtain ⟨r, hr, he⟩ := mem_map.mp hr
    obtain ⟨u, _, rfl, hu⟩ := hp.operand_register hk ho0 hr
    obtain ⟨p, hp', _⟩ := hg.assigns hk hu
    rw [hp'] at he
    cases he
  · have := (hg.run hp hs S R R' m is.length (Nat.le_refl _)).2
    rwa [take_length, ← hout] at this

/-- A register in two parts of the code, with another one between them. -/
def reused : List Opcode :=
  [.mov (.imm .w64 1) (.vreg .w64 0), .mov (.vreg .w64 0) (.memSegDispl .w64 .fs 8),
    .mov (.imm .w64 2) (.vreg .w64 1), .mov (.imm .w64 3) (.vreg .w64 0),
    .mov (.vreg .w64 1) (.memSegDispl .w64 .fs 16), .mov (.vreg .w64 0) (.memSegDispl .w64 .fs 24)]

theorem allocate_preserves_reused : AllocatesCorrectly reused 2 0 := by
  have hp : StraightLine 2 (fun _ => .general) reused := by
    apply StraightLine.of_bounded <;> decide +kernel
  have hs : Settled (fun _ => .general) reused := by
    apply Settled.of_read hp <;> decide +kernel
  exact allocate_preserves hp hs 0

/-- Moves only: a memory of one cell for each displacement, and no other instruction does anything. -/
def movSemantics : Semantics (Int → Nat) where
  exec i values m :=
    match i with
    | .mov ⟨.immediate x, _⟩ ⟨.register _, _⟩ => (fun _ => x, m)
    | .mov ⟨.register _, _⟩ ⟨.register _, _⟩ => (fun _ => values.headD 0, m)
    | .mov ⟨.register _, _⟩ ⟨.memory _ _ _ d _, _⟩ => (fun _ => 0, Function.update m d (values.headD 0))
    | _ => (fun _ => 0, m)
  mov_state o values s := by
    obtain ⟨k, w⟩ := o
    cases k <;> rfl
  mov_value r w x s := rfl

/-- The same without the last read: the second write of register 0 comes after its live range, and
hits the physical register that register 1 has been given meanwhile. -/
def lateOverwrite : List Opcode :=
  [.mov (.imm .w64 1) (.vreg .w64 0), .mov (.vreg .w64 0) (.memSegDispl .w64 .fs 8),
    .mov (.imm .w64 2) (.vreg .w64 1), .mov (.imm .w64 3) (.vreg .w64 0),
    .mov (.vreg .w64 1) (.memSegDispl .w64 .fs 16)]

theorem lateOverwrite_corrupts :
    StraightLine 2 (fun _ => .general) lateOverwrite ∧ ¬ AllocatesCorrectly lateOverwrite 2 0 := by
  refine ⟨by apply StraightLine.of_bounded <;> decide +kernel, ?_⟩
  rintro ⟨out, ho, _, hrun⟩
  -- both registers end up in `rax`
  have hout : allocate lateOverwrite 2 0 = some
      [.mov (.imm .w64 1) (.preg .w64 .rax), .mov (.preg .w64 .rax) (.memSegDispl .w64 .fs 8),
        .mov (.imm .w64 2) (.preg .w64 .rax), .mov (.imm .w64 3) (.preg .w64 .rax),
        .mov (.preg .w64 .rax) (.memSegDispl .w64 .fs 16)] := by decide +kernel
  cases ho
  have := congrFun (hrun _ movSemantics (fun _ => 0) (fun _ => 0) (fun _ => 0)) 16
  revert this
  decide +kernel

end Icewind.X86
