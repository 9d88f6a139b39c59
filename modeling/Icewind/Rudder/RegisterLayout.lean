import Icewind.Lib.OrderedMap
import Icewind.Rudder.Ast
import Mathlib.Data.List.Pairwise
import Mathlib.Order.Nat

/-!
# The register file

Model of `BuildContext::add_register` in `borealis/src/rudder/build.rs` and of the register maps of `Model`.

* `BuildContext.addRegister` — the next register, and the offset that follows it.
* `ModelRegisters.new`, `ModelRegisters.getRegisterByOffset` — the names by offset, and the search for one.
* `LayoutInv` — a register lies below those that were added after it.
* `layout_correct` — offsets are aligned, ranges are disjoint, and an offset in a range leads to its register.
-/

namespace Icewind.Rudder

open List

structure RegisterDescriptor where
  typ : Typ
  offset : Nat
  cache : RegisterCacheType

/-- The entries of a hash map, with different keys. -/
abbrev RegisterMap := List (String × RegisterDescriptor)

/-- `HashMap::insert`. -/
def RegisterMap.insert (m : RegisterMap) (name : String) (d : RegisterDescriptor) : RegisterMap :=
  (name, d) :: m.filter fun e => decide (e.1 ≠ name)

/-- What `BuildContext` keeps of registers. -/
structure BuildContext where
  registers : RegisterMap
  nextRegisterOffset : Nat

namespace BuildContext

def default : BuildContext := ⟨[], 0⟩

/-- `u64::next_multiple_of(8)`. -/
def nextMultipleOf8 (n : Nat) : Nat := (n + 7) / 8 * 8

/-- `add_register`; `none` is the panic on a type without a width.  The offset is a `u64` in the source: it stays below
`2 ^ 64` with less than `2 ^ 32` registers, whose widths are `u32`. -/
def addRegister (ctx : BuildContext) (name : String) (typ : Typ) : Option BuildContext := do
  let bytes ← typ.widthBytes
  some
    { registers := RegisterMap.insert ctx.registers name ⟨typ, ctx.nextRegisterOffset, .none⟩
      -- 8 byte aligned
      nextRegisterOffset := ctx.nextRegisterOffset + nextMultipleOf8 bytes }

/-- The registers of the model, as `from_boom` adds them. -/
def addRegisters (registers : List (String × Typ)) : Option BuildContext :=
  registers.foldlM (fun ctx r => ctx.addRegister r.1 r.2) default

end BuildContext

/-- The register maps of `Model`. -/
structure ModelRegisters where
  registers : RegisterMap
  /-- A `BTreeMap`. -/
  registersByOffset : List (Nat × String)

namespace ModelRegisters

/-- `Model::new`; `order` is the order in which the hash map gives its entries out. -/
def new (registers order : RegisterMap) : ModelRegisters :=
  ⟨registers, OrderedMap.ofEntries (order.map fun e => (e.2.offset, e.1))⟩

def getRegisterByOffset (m : ModelRegisters) (offset : Nat) : Option String :=
  (OrderedMap.floor offset m.registersByOffset).map Prod.snd

end ModelRegisters

namespace RegisterDescriptor

/-- The offset lies in the bytes of the register. -/
def Contains (d : RegisterDescriptor) (offset : Nat) : Prop :=
  ∃ bytes, d.typ.widthBytes = some bytes ∧ d.offset ≤ offset ∧ offset < d.offset + bytes

/-- The register has bytes, and they end at or before the offset. -/
def EndsBy (d : RegisterDescriptor) (offset : Nat) : Prop :=
  ∃ bytes, d.typ.widthBytes = some bytes ∧ 0 < bytes ∧ d.offset + bytes ≤ offset

variable {d : RegisterDescriptor}

theorem EndsBy.mono {a b : Nat} (h : d.EndsBy a) (hab : a ≤ b) : d.EndsBy b := by
  obtain ⟨bytes, hbytes, hpos, hle⟩ := h
  exact ⟨bytes, hbytes, hpos, hle.trans hab⟩

theorem EndsBy.offset_lt {a : Nat} (h : d.EndsBy a) : d.offset < a := by
  obtain ⟨bytes, -, hpos, hle⟩ := h
  omega

theorem EndsBy.lt_of_contains {a x : Nat} (h : d.EndsBy a) (hx : d.Contains x) : x < a := by
  obtain ⟨bytes, hbytes, -, hle⟩ := h
  obtain ⟨bytes', hbytes', -, hlt⟩ := hx
  rw [hbytes] at hbytes'
  cases hbytes'
  omega

end RegisterDescriptor

theorem le_nextMultipleOf8 (n : Nat) : n ≤ BuildContext.nextMultipleOf8 n := by
  unfold BuildContext.nextMultipleOf8
  omega

theorem nextMultipleOf8_mod (n : Nat) : BuildContext.nextMultipleOf8 n % 8 = 0 := Nat.mul_mod_left _ 8

/-- The type has a positive width. -/
def Typ.Positive (t : Typ) : Prop := ∃ bits, t.widthBits = some bits ∧ 0 < bits

theorem Typ.Positive.widthBytes {t : Typ} (h : t.Positive) : ∃ bytes, t.widthBytes = some bytes ∧ 0 < bytes := by
  obtain ⟨bits, hbits, hpos⟩ := h
  refine ⟨(bits + 7) / 8, ?_, by omega⟩
  unfold Typ.widthBytes
  rw [hbits]
  rfl

/-- What holds after each register; the one that was added last comes first. -/
structure LayoutInv (ctx : BuildContext) : Prop where
  next_aligned : ctx.nextRegisterOffset % 8 = 0
  aligned : ∀ e ∈ ctx.registers, e.2.offset % 8 = 0
  below_next : ∀ e ∈ ctx.registers, e.2.EndsBy ctx.nextRegisterOffset
  ordered : ctx.registers.Pairwise fun later earlier => earlier.2.EndsBy later.2.offset

theorem LayoutInv.default : LayoutInv .default :=
  ⟨rfl, fun _ he => absurd he not_mem_nil, fun _ he => absurd he not_mem_nil, .nil⟩

variable {ctx : BuildContext}

/-- **Adding a register** keeps the layout, and leaves the entries of other names as they are. -/
theorem addRegister_spec (hi : LayoutInv ctx) (name : String) {typ : Typ} (hpos : typ.Positive) :
    ∃ ctx', ctx.addRegister name typ = some ctx' ∧ LayoutInv ctx' ∧
      ctx'.registers = RegisterMap.insert ctx.registers name ⟨typ, ctx.nextRegisterOffset, .none⟩ := by
  obtain ⟨bytes, hbytes, hpos⟩ := hpos.widthBytes
  have hnext := le_nextMultipleOf8 bytes
  have hold : ∀ e ∈ ctx.registers.filter fun e => decide (e.1 ≠ name), e ∈ ctx.registers :=
    fun e he => (mem_filter.mp he).1
  refine ⟨⟨RegisterMap.insert ctx.registers name ⟨typ, ctx.nextRegisterOffset, .none⟩,
    ctx.nextRegisterOffset + BuildContext.nextMultipleOf8 bytes⟩, ?_, ⟨?_, fun e he => ?_, fun e he => ?_, ?_⟩, rfl⟩
  · unfold BuildContext.addRegister
    rw [hbytes]
    rfl
  · have := hi.next_aligned
    have := nextMultipleOf8_mod bytes
    dsimp only
    omega
  · rcases mem_cons.mp he with rfl | he
    · exact hi.next_aligned
    · exact hi.aligned e (hold e he)
  · rcases mem_cons.mp he with rfl | he
    · exact ⟨bytes, hbytes, hpos, Nat.add_le_add_left hnext _⟩
    · exact (hi.below_next e (hold e he)).mono (Nat.le_add_right _ _)
  · exact pairwise_cons.mpr ⟨fun e he => hi.below_next e (hold e he), hi.ordered.filter _⟩

theorem addRegisters_spec {registers : List (String × Typ)} : ∀ {ctx : BuildContext}, LayoutInv ctx →
    (registers.map Prod.fst).Nodup → (∀ r ∈ registers, r.2.Positive) →
    (∀ e ∈ ctx.registers, e.1 ∉ registers.map Prod.fst) →
      ∃ ctx', registers.foldlM (fun ctx r => ctx.addRegister r.1 r.2) ctx = some ctx' ∧ LayoutInv ctx' ∧
        ctx'.registers.map (fun e => (e.1, e.2.typ)) =
          registers.reverse ++ ctx.registers.map fun e => (e.1, e.2.typ) := by
  induction registers with
  | nil => exact fun hi _ _ _ => ⟨_, rfl, hi, rfl⟩
  | cons r registers ih =>
    intro ctx hi hnodup hpos hnew
    obtain ⟨hr, hnodup⟩ := nodup_cons.mp hnodup
    obtain ⟨ctx1, hadd, hi1, hregs⟩ := addRegister_spec hi r.1 (hpos r mem_cons_self)
    -- the name is new, so nothing is replaced
    have hkeep : ctx.registers.filter (fun e => decide (e.1 ≠ r.1)) = ctx.registers :=
      filter_eq_self.mpr fun e he => decide_eq_true fun heq => hnew e he (heq ▸ mem_cons_self)
    unfold RegisterMap.insert at hregs
    rw [hkeep] at hregs
    obtain ⟨ctx', hfold, hi', hmap⟩ := ih hi1 hnodup (fun x hx => hpos x (mem_cons_of_mem r hx)) fun e he => by
        rw [hregs] at he
        rcases mem_cons.mp he with rfl | he
        · exact hr
        · exact fun hmem => hnew e he (mem_cons_of_mem _ hmem)
    refine ⟨ctx', ?_, hi', ?_⟩
    · rw [foldlM_cons, hadd]
      exact hfold
    · rw [hmap, hregs]
      simp

variable {e : String × RegisterDescriptor} {f : String × RegisterDescriptor}

section

variable (hi : LayoutInv ctx) (he : e ∈ ctx.registers) (hf : f ∈ ctx.registers) (hne : e ≠ f)

include hi he hf hne

theorem LayoutInv.apart :
    e.2.EndsBy f.2.offset ∨ f.2.EndsBy e.2.offset := by
  have hpairwise : ctx.registers.Pairwise fun a b => a.2.EndsBy b.2.offset ∨ b.2.EndsBy a.2.offset :=
    hi.ordered.imp .inr
  have : Std.Symm fun a b : String × RegisterDescriptor => a.2.EndsBy b.2.offset ∨ b.2.EndsBy a.2.offset :=
    ⟨fun _ _ => Or.symm⟩
  exact hpairwise.forall he hf hne

theorem LayoutInv.disjoint
    {offset : Nat} (hcontains : e.2.Contains offset) : ¬ f.2.Contains offset := by
  intro hcontains'
  have hle : e.2.offset ≤ offset := hcontains.elim fun _ h => h.2.1
  have hle' : f.2.offset ≤ offset := hcontains'.elim fun _ h => h.2.1
  rcases hi.apart he hf hne with hends | hends
  · exact absurd (hends.lt_of_contains hcontains) (not_lt.mpr hle')
  · exact absurd (hends.lt_of_contains hcontains') (not_lt.mpr hle)

end

/-- An offset in the range of a register leads to it, in whatever order the map gives its entries out. -/
theorem LayoutInv.getRegisterByOffset (hi : LayoutInv ctx) {order : RegisterMap} (horder : order.Perm ctx.registers)
    (he : e ∈ ctx.registers) {offset : Nat} (hoffset : e.2.Contains offset) :
    (ModelRegisters.new ctx.registers order).getRegisterByOffset offset = some e.1 := by
  have hfloor : OrderedMap.floor offset (ModelRegisters.new ctx.registers order).registersByOffset =
      some (e.2.offset, e.1) := by
    refine OrderedMap.floor_ofEntries ?_ (mem_map.mpr ⟨e, horder.mem_iff.mpr he, rfl⟩) ?_ fun a ha hle => ?_
    · -- the offsets of the entries decrease
      rw [map_map]
      refine (horder.map _).nodup_iff.mpr (pairwise_map.mpr (hi.ordered.imp fun hends => ?_))
      exact hends.offset_lt.ne'
    · obtain ⟨_, -, hle, -⟩ := hoffset
      exact hle
    · obtain ⟨f, hf, rfl⟩ := mem_map.mp ha
      by_cases heq : f = e
      · rw [heq]
      · rcases hi.apart (horder.mem_iff.mp hf) he heq with hends | hends
        · exact hends.offset_lt.le
        · exact absurd (hends.lt_of_contains hoffset) (not_lt.mpr hle)
  unfold ModelRegisters.getRegisterByOffset
  rw [hfloor]
  rfl

/-- **The layout of the register file.**  Registers with different names and positive widths are laid out: each of them
has an entry, at an aligned offset, no offset lies in two of them, and an offset that lies in one leads to it. -/
theorem layout_correct (registers : List (String × Typ)) (hnodup : (registers.map Prod.fst).Nodup)
    (hpos : ∀ r ∈ registers, r.2.Positive) :
    ∃ ctx, BuildContext.addRegisters registers = some ctx ∧
      (∀ r ∈ registers, ∃ d, (r.1, d) ∈ ctx.registers ∧ d.typ = r.2) ∧
      (ctx.registers.map Prod.fst).Nodup ∧
      (∀ e ∈ ctx.registers, e.2.offset % 8 = 0) ∧
      (∀ e ∈ ctx.registers, ∀ f ∈ ctx.registers, e.1 ≠ f.1 → ∀ offset, e.2.Contains offset → ¬ f.2.Contains offset) ∧
      ∀ order : RegisterMap, order.Perm ctx.registers → ∀ e ∈ ctx.registers, ∀ offset, e.2.Contains offset →
        (ModelRegisters.new ctx.registers order).getRegisterByOffset offset = some e.1 := by
  obtain ⟨ctx, hadd, hi, hmap⟩ := addRegisters_spec .default hnodup hpos fun _ he => absurd he not_mem_nil
  change ctx.registers.map (fun e => (e.1, e.2.typ)) = registers.reverse ++ [] at hmap
  rw [append_nil] at hmap
  refine ⟨ctx, hadd, fun r hr => ?_, ?_, hi.aligned, fun e he f hf hne offset hoffset => ?_,
    fun order horder e he offset hoffset => hi.getRegisterByOffset horder he hoffset⟩
  · have hmem : r ∈ ctx.registers.map fun e => (e.1, e.2.typ) := hmap ▸ mem_reverse.mpr hr
    obtain ⟨e, he, rfl⟩ := mem_map.mp hmem
    exact ⟨e.2, he, rfl⟩
  · have hnames : ctx.registers.map Prod.fst = (registers.map Prod.fst).reverse := by
      rw [← map_reverse, ← hmap, map_map]
      rfl
    rw [hnames]
    exact nodup_reverse.mpr hnodup
  · exact hi.disjoint he hf (fun heq => hne (congrArg Prod.fst heq)) hoffset

theorem layout_correct_flags : ∃ ctx, BuildContext.addRegisters [("flag", .u 1), ("q0", .u 128)] = some ctx ∧
      ctx.registers.map (fun e => (e.1, e.2.offset)) = [("q0", 8), ("flag", 0)] ∧
      (ModelRegisters.new ctx.registers ctx.registers).getRegisterByOffset 9 = some "q0" := by
  have hpos : ∀ r ∈ [("flag", Typ.u 1), ("q0", Typ.u 128)], r.2.Positive := by
    intro r hr
    rcases mem_cons.mp hr with rfl | hr
    · exact ⟨1, rfl, by decide⟩
    · rcases mem_cons.mp hr with rfl | hr
      · exact ⟨128, rfl, by decide⟩
      · cases hr
  obtain ⟨ctx, hadd, -, -, -, -, hlookup⟩ :=
    layout_correct [("flag", .u 1), ("q0", .u 128)] (by decide) hpos
  have hctx : ctx = ⟨[("q0", ⟨.u 128, 8, .none⟩), ("flag", ⟨.u 1, 0, .none⟩)], 24⟩ :=
    Option.some.inj (hadd.symm.trans rfl)
  subst hctx
  exact ⟨_, hadd, rfl, hlookup _ (.refl _) _ mem_cons_self 9 ⟨16, rfl, by decide, by decide⟩⟩

end Icewind.Rudder
