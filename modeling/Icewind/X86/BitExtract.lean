import Icewind.Lib.Bytes
import Icewind.Rudder.BitFields
import Icewind.X86.Nodes

/-!
# Bit fields of nodes

What nodes denote, and that `bit_extract` denotes a bit field of its argument.

* `Node.denote` — the value of a node at its type.  The register file is little-endian; kinds of nodes that
  `bit_extract` neither looks into nor makes have any value of their type.
* `Node.WellFormed` — bit inserts have a constant range inside the target and a source as wide as the range.
* `Node.Field` — what each constructor keeps: the node denotes the field, and a constant is as wide as the field.

Principal result: `Node.makeBitExtract_denotes`.
-/

namespace Icewind.X86

open BitField Option

/-- What nodes are evaluated in. -/
structure Meaning where
  registerFile : Nat → UInt8
  other : Node → Nat

/-- A value at a type. -/
def Ty.wrap (typ : Ty) (x : Nat) : Nat := x % 2 ^ typ.width.getD 0

namespace Node

/-- The value of a node. -/
def denote (m : Meaning) : Node → Nat
  | .const typ value _ => typ.wrap value
  | .guestRegister typ offset => typ.wrap (Bytes.read m.registerFile offset ((typ.width.getD 0 + 7) / 8))
  | .binaryOperation typ .and left right => typ.wrap (left.denote m &&& right.denote m)
  | .cast typ .zeroExtend value => typ.wrap (value.denote m)
  | .cast typ .truncate value => typ.wrap (value.denote m)
  | .shift typ .logicalShiftRight value amount => typ.wrap (value.denote m / 2 ^ amount.denote m)
  | .bitExtract typ value start length => typ.wrap (extract (value.denote m) (start.denote m) (length.denote m))
  | .bitInsert typ target source start length =>
    typ.wrap (insert (target.denote m) (source.denote m) (start.denote m) (length.denote m))
  | n => n.typ.wrap (m.other n)

/-- The node is a constant whose type can hold its value. -/
def IsNumber (n : Node) (x : Nat) : Prop :=
  ∃ typ width, n = .const typ x width ∧ x < 2 ^ typ.width.getD 0

/-- Constants have at most 64 bits; bit inserts have a constant range inside the target and a source as wide as it. -/
def WellFormed : Node → Prop
  | .const typ value width => typ.width = some width ∧ width ≤ 64 ∧ value < 2 ^ 64
  | .cast typ .zeroExtend value => typ.width.getD 0 < 2 ^ 32 ∧ value.WellFormed
  | .bitInsert typ target source start length =>
    typ = target.typ ∧ target.WellFormed ∧ source.WellFormed ∧ typ.width.getD 0 < 2 ^ 32 ∧
      ∃ s l, start.IsNumber s ∧ length.IsNumber l ∧ source.typ.width = some l ∧ s + l ≤ typ.width.getD 0
  | n => n.typ.width.getD 0 < 2 ^ 32

/-- If the node is a constant, it is well formed. -/
def FitsConstant (n : Node) : Prop := ∀ typ value width, n = .const typ value width → n.WellFormed

/-- The node denotes `x`, a field of `length` bits; a constant has all of them. -/
structure Field (m : Meaning) (n : Node) (length x : Nat) : Prop where
  denotes : n.denote m = x
  fits : n.FitsConstant
  wide : ∀ typ value width, n = .const typ value width → length ≤ width

variable {m : Meaning} {n value start length : Node} {s l w x : Nat}

/-! ### Values at types -/

theorem denote_lt (m : Meaning) (n : Node) : n.denote m < 2 ^ n.typ.width.getD 0 := by
  unfold denote
  split <;> exact Nat.mod_lt _ (Nat.two_pow_pos _)

theorem denote_lt_of_width (hw : n.typ.width = some w) : n.denote m < 2 ^ w := by
  have := denote_lt m n
  rwa [hw] at this

theorem IsNumber.denote (h : n.IsNumber x) (m : Meaning) : n.denote m = x := by
  obtain ⟨typ, width, rfl, hlt⟩ := h
  exact Nat.mod_eq_of_lt hlt

theorem IsNumber.asConstant (h : n.IsNumber x) : n.asConstant = some x := by
  obtain ⟨typ, width, rfl, -⟩ := h
  rfl

theorem isNumber_number (h : x < 2 ^ 64) : (number x).IsNumber x := ⟨.signed 64, 64, rfl, h⟩

theorem WellFormed.fitsConstant (h : n.WellFormed) : n.FitsConstant := fun _ _ _ _ => h

theorem WellFormed.width_lt (h : n.WellFormed) (hw : n.typ.width = some w) : w < 2 ^ 32 := by
  have hlt : n.typ.width.getD 0 < 2 ^ 32 := by
    unfold WellFormed at h
    split at h
    · obtain ⟨hwidth, hle, -⟩ := h
      simp only [typ, hwidth, getD_some]
      omega
    · exact h.1
    · exact h.2.2.2.1
    · exact h
  rwa [hw] at hlt

variable {typ : Ty} {v width : Nat}

theorem extract_denote_const (hw : typ.width = some width) (h : s + l ≤ width) :
    extract ((Node.const typ v width).denote m) s l = extract v s l := by
  show extract (v % 2 ^ typ.width.getD 0) s l = extract v s l
  rw [hw]
  exact extract_mod h

/-- A well-formed node as a field of itself. -/
theorem WellFormed.field (h : n.WellFormed) (hw : n.typ.width = some l) : n.Field m l (n.denote m) := by
  refine ⟨rfl, h.fitsConstant, ?_⟩
  rintro typ v width rfl
  exact Nat.le_of_eq (some.inj (hw.symm.trans h.1))

theorem Field.of_not_constant (h : n.denote m = x) (hn : n.asConstant = none) : n.Field m l x := by
  refine ⟨h, ?_, ?_⟩
  · rintro typ v width rfl
    cases hn
  · rintro typ v width rfl
    cases hn

/-! ### The constructors -/

theorem constant_eq_some :
    constant v typ = some n ↔ ∃ width, typ.width = some width ∧ width ≠ 0 ∧ n = .const typ v width := by
  unfold constant
  constructor
  · intro h
    obtain ⟨width, hwidth, h⟩ := bind_eq_some_iff.mp h
    split at h
    · cases h
    · rename_i hzero
      cases h
      exact ⟨width, hwidth, hzero, rfl⟩
  · rintro ⟨width, hwidth, hzero, rfl⟩
    simp [hwidth, hzero]

theorem field_constant (hl : l ≤ 64) (hv : v < 2 ^ 64) (h : constant v (.unsigned l) = some n) :
    n.Field m l (v % 2 ^ l) ∧ n.typ = .unsigned l := by
  obtain ⟨width, hwidth, -, rfl⟩ := constant_eq_some.mp h
  cases hwidth
  refine ⟨⟨rfl, fun _ _ _ _ => ⟨rfl, hl, hv⟩, ?_⟩, rfl⟩
  intro typ v width hn
  cases hn
  exact Nat.le_refl _

theorem field_constant_of_lt (hl : l ≤ 64) (hx : x < 2 ^ l) (h : constant x (.unsigned l) = some n) :
    n.Field m l x ∧ n.typ = .unsigned l := by
  have hword : x < 2 ^ 64 := Nat.lt_of_lt_of_le hx (Nat.pow_le_pow_right (by decide) hl)
  have hfield := field_constant (m := m) hl hword h
  rwa [Nat.mod_eq_of_lt hx] at hfield

variable {target : Ty}

theorem makeCast_const {width' : Nat} {kind : CastOperationKind} (hwidth : typ.width = some width)
    (htarget : target.width = some width') (hbits : target ≠ .bits) :
    makeCast (.const typ v width) target kind =
      (castConstant v width width' kind).bind fun casted => constant casted target := by
  unfold makeCast
  dsimp only
  rw [if_neg hbits, hwidth, htarget]
  rfl

theorem makeCast_truncate_other (h : value.asConstant = none) : makeCast value target .truncate =
      if value.typ = target then some value else some (.cast target .truncate value) := by
  cases value <;> first | rfl | cases h

theorem makeCast_zeroExtend_other (h : value.asConstant = none) :
    makeCast value target .zeroExtend = some (.cast target .zeroExtend value) := by
  cases value <;> first | rfl | cases h

theorem makeCast_truncate (hv : value.FitsConstant) (hw : value.typ.width = some w) (hlw : l ≤ w) (hl : l ≤ 64)
    (h : makeCast value (.unsigned l) .truncate = some n) :
    n.Field m l (extract (value.denote m) 0 l) ∧ n.typ = .unsigned l := by
  cases hconst : value.asConstant with
  | some v =>
    cases value with
    | const typ v width =>
      have hwidth : typ.width = some width := (hv _ _ _ rfl).1
      have hle : 0 + l ≤ width := by
        have : w = width := some.inj (hw.symm.trans hwidth)
        omega
      rw [makeCast_const hwidth rfl (by simp)] at h
      obtain ⟨casted, hcasted, h⟩ := bind_eq_some_iff.mp h
      cases hcasted
      rw [Rudder.and_mask_eq_extract v hl] at h
      rw [extract_denote_const hwidth hle]
      exact field_constant_of_lt hl (extract_lt v 0 l) h
    | _ => cases hconst
  | none =>
    rw [makeCast_truncate_other hconst] at h
    rw [extract_zero]
    split at h
    · rename_i htyp
      have hlt : value.denote m < 2 ^ l := denote_lt_of_width (by rw [htyp]; rfl)
      cases h
      exact ⟨.of_not_constant (Nat.mod_eq_of_lt hlt).symm hconst, htyp⟩
    · cases h
      exact ⟨.of_not_constant rfl rfl, rfl⟩

theorem makeCast_zeroExtend {y : Nat} (hy : value.Field m s y) (hlt : y < 2 ^ l) (hl : l ≤ 64)
    (h : makeCast value (.unsigned l) .zeroExtend = some n) : n.Field m l y ∧ n.typ = .unsigned l := by
  cases hconst : value.asConstant with
  | some v =>
    cases value with
    | const typ v width =>
      obtain ⟨hwidth, hle, hv⟩ := hy.fits _ _ _ rfl
      have hdenote : v % 2 ^ width = y := by
        have := hy.denotes
        simpa only [denote, Ty.wrap, hwidth, getD_some] using this
      rw [makeCast_const hwidth rfl (by simp)] at h
      obtain ⟨casted, hcasted, h⟩ := bind_eq_some_iff.mp h
      cases hcasted
      have hcasted : (if width = 64 then v else v &&& Rudder.mask width) = y := by
        split
        · rename_i h64
          rw [h64, Nat.mod_eq_of_lt hv] at hdenote
          exact hdenote
        · rw [Rudder.and_mask_eq_extract v hle, extract_zero]
          exact hdenote
      rw [hcasted] at h
      exact field_constant_of_lt hl hlt h
    | _ => cases hconst
  | none =>
    rw [makeCast_zeroExtend_other hconst] at h
    cases h
    refine ⟨.of_not_constant ?_ rfl, rfl⟩
    show value.denote m % 2 ^ l = y
    rw [hy.denotes]
    exact Nat.mod_eq_of_lt hlt

theorem makeShift_other {a : Nat} {kind : ShiftOperationKind} (h : value.asConstant = none) :
    makeShift value (.const typ a width) kind =
      if a = 0 then some value else some (.shift value.typ kind value (.const typ a width)) := by
  cases value <;> first | rfl | cases h

/-- Shifting a constant by 64 or more leaves nothing, as it should. -/
theorem shiftConstant_right {shifted : Nat} (hv : v < 2 ^ 64)
    (h : shiftConstant v width s .logicalShiftRight = some shifted) : shifted = v / 2 ^ s := by
  unfold shiftConstant Rudder.tryU32 at h
  obtain ⟨amount, hamount, h⟩ := bind_eq_some_iff.mp h
  split at hamount <;> cases hamount
  split at h
  · cases h
    exact Nat.shiftRight_eq_div_pow v s
  · rename_i hs
    cases h
    have : 2 ^ 64 ≤ 2 ^ s := Nat.pow_le_pow_right (by decide) (Nat.le_of_not_lt hs)
    exact (Nat.div_eq_of_lt (Nat.lt_of_lt_of_le hv this)).symm

theorem makeShift_right (hstart : start.IsNumber s) (hv : value.FitsConstant) (hw : value.typ.width = some w)
    (hsl : s + l ≤ w) (h : makeShift value start .logicalShiftRight = some n) :
    extract (n.denote m) 0 l = extract (value.denote m) s l ∧ n.typ = value.typ ∧ n.FitsConstant := by
  have hnumber := hstart.denote m
  obtain ⟨startTyp, startWidth, rfl, -⟩ := hstart
  cases hconst : value.asConstant with
  | some v =>
    cases value with
    | const typ v width =>
      obtain ⟨hwidth, hle, hlt⟩ := hv _ _ _ rfl
      have hww : w = width := some.inj (hw.symm.trans hwidth)
      obtain ⟨shifted, hshifted, h⟩ := bind_eq_some_iff.mp h
      obtain ⟨width', hwidth', -, rfl⟩ := constant_eq_some.mp h
      obtain rfl : width = width' := some.inj (hwidth.symm.trans hwidth')
      have hvalue : shifted = v / 2 ^ s := shiftConstant_right hlt hshifted
      refine ⟨?_, rfl, ?_⟩
      · rw [extract_denote_const hwidth (by omega), extract_denote_const hwidth (by omega), hvalue, extract_zero]
        rfl
      · intro _ _ _ _
        exact ⟨hwidth, hle, hvalue ▸ Nat.lt_of_le_of_lt (Nat.div_le_self _ _) hlt⟩
    | _ => cases hconst
  | none =>
    rw [makeShift_other hconst] at h
    split at h
    · rename_i hzero
      cases h
      subst hzero
      exact ⟨rfl, rfl, hv⟩
    · cases h
      refine ⟨?_, rfl, fun _ _ _ hn => nomatch hn⟩
      show extract (value.typ.wrap (value.denote m / 2 ^ Node.denote m (.const startTyp s startWidth))) 0 l = _
      unfold Ty.wrap
      rw [hw, getD_some, extract_mod (by omega), hnumber, extract_zero]
      rfl

theorem makeAnd_other {r : Nat} (h : value.asConstant = none) : makeAnd value (.const typ r width) =
      if r = 0 then constant 0 value.typ
      else (isNoOpAnd value.typ typ r).bind fun noOp =>
        if noOp then some value else some (.binaryOperation typ .and value (.const typ r width)) := by
  cases value <;> first | rfl | cases h

theorem makeAnd_mask {mask : Node} (hn : value.Field m l x) (htyp : value.typ = .unsigned l) (hl : 1 ≤ l) (hl' : l ≤ 64)
    (hmask : constant (Rudder.mask l) value.typ = some mask) (h : makeAnd value mask = some n) :
    n.Field m l x ∧ n.typ = .unsigned l := by
  have hlt : x < 2 ^ l := hn.denotes ▸ denote_lt_of_width (by rw [htyp]; rfl)
  have hones : Rudder.mask l = 2 ^ l - 1 := by rw [Rudder.mask_eq, Nat.min_eq_left hl']
  have hpos : Rudder.mask l ≠ 0 := by
    have : 2 ^ 1 ≤ 2 ^ l := Nat.pow_le_pow_right (by decide) hl
    omega
  have hand : ∀ y, y % 2 ^ l = x → y &&& Rudder.mask l = x := fun y hy => by
    rw [Rudder.and_mask_eq_extract y hl', extract_zero, hy]
  rw [htyp] at hmask
  obtain ⟨width, hwidth, -, rfl⟩ := constant_eq_some.mp hmask
  cases hwidth
  cases hconst : value.asConstant with
  | some v =>
    cases value with
    | const typ v width =>
      obtain rfl : typ = .unsigned l := htyp
      obtain ⟨hwidth, -, -⟩ := hn.fits _ _ _ rfl
      cases hwidth
      cases h
      have hv : v % 2 ^ l = x := hn.denotes
      rw [hand v hv]
      exact field_constant_of_lt hl' hlt (constant_eq_some.mpr ⟨l, rfl, by omega, rfl⟩)
    | _ => cases hconst
  | none =>
    rw [makeAnd_other hconst, if_neg hpos] at h
    obtain ⟨noOp, -, h⟩ := bind_eq_some_iff.mp h
    split at h
    · cases h
      exact ⟨hn, htyp⟩
    · cases h
      refine ⟨.of_not_constant ?_ rfl, rfl⟩
      show (value.denote m &&& Rudder.mask l % 2 ^ l) % 2 ^ l = x
      rw [hn.denotes, Nat.mod_eq_of_lt (show Rudder.mask l < 2 ^ l by omega), hand x (Nat.mod_eq_of_lt hlt)]
      exact Nat.mod_eq_of_lt hlt

theorem shiftAndMask_field (hstart : start.IsNumber s) (hv : value.FitsConstant) (hw : value.typ.width = some w)
    (hl : 1 ≤ l) (hl' : l ≤ 64) (hsl : s + l ≤ w) (h : shiftAndMask value start l = some n) :
    n.Field m l (extract (value.denote m) s l) := by
  have htarget : Rudder.tryU32 l = some l := if_pos (by omega)
  obtain ⟨shifted, hshifted, h⟩ := bind_eq_some_iff.mp h
  rw [htarget, bind_eq_bind, bind_some] at h
  obtain ⟨cast, mask, hcast, hmask, h⟩ := bind₂_eq_some h
  obtain ⟨hshift, hshiftTyp, hfits⟩ := makeShift_right (m := m) hstart hv hw hsl hshifted
  obtain ⟨hfield, htyp⟩ := makeCast_truncate (m := m) hfits (hshiftTyp ▸ hw) (by omega) hl' hcast
  rw [hshift] at hfield
  exact (makeAnd_mask hfield htyp hl hl' hmask h).1

/-! ### Registers -/

variable {checks : Bool}

theorem word_mod {y : Int} {z : Nat} (h : word checks y = some z) : (z : Int) % 2 ^ 64 = y % 2 ^ 64 := by
  unfold word at h
  split at h
  · cases h
    rw [Int.toNat_of_nonneg (by omega)]
  · split at h
    · cases h
    · cases h
      unfold Rudder.asU64
      rw [Int.toNat_of_nonneg (Int.emod_nonneg _ (by decide)), Int.emod_emod_of_dvd _ (Int.dvd_refl _)]

theorem word_of_lt (checks : Bool) {y : Nat} (h : y < 2 ^ 64) : word checks (y : Int) = some y := by
  unfold word
  rw [if_pos (by omega), Int.toNat_natCast]

/-- A field of whole bytes of a register is a register. -/
theorem guestRegister_field {offset offset' : Nat} (hw : typ.width = some w) (hl : 8 ∣ l) (hl' : 1 ≤ l) (hs : s % 8 = 0)
    (hsl : s + l ≤ w) (hoffset : offset' % 2 ^ 64 = (offset + s / 8) % 2 ^ 64) :
    (readRegister offset' (.unsigned l)).denote m = extract ((guestRegister typ offset).denote m) s l := by
  obtain ⟨j, rfl⟩ := hl
  obtain ⟨k, rfl⟩ := Nat.dvd_of_mod_eq_zero hs
  show Bytes.read m.registerFile offset' ((8 * j + 7) / 8) % 2 ^ (8 * j) =
    extract (Bytes.read m.registerFile offset ((typ.width.getD 0 + 7) / 8) % 2 ^ typ.width.getD 0) (8 * k) (8 * j)
  rw [hw, getD_some, extract_mod hsl, Bytes.extract_read (by omega), show (8 * j + 7) / 8 = j by omega,
    Nat.mod_eq_of_lt (Bytes.read_lt _ _ _)]
  apply Bytes.read_congr
  rw [hoffset, Nat.mul_div_cancel_left k (by decide)]

theorem beforeExtension_spec {before : Node} (hv : value.WellFormed) (hw : value.typ.width = some w)
    (hsl : s + l ≤ w) (h : beforeExtension checks value s l = some before) :
    extract (before.denote m) s l = extract (value.denote m) s l ∧ before.FitsConstant ∧
      ∃ w', before.typ.width = some w' ∧ s + l ≤ w' := by
  have hlt := hv.width_lt hw
  unfold beforeExtension at h
  split at h
  · rename_i castWidth pre
    obtain ⟨width, stop, hwidth, hstop, h⟩ := bind₂_eq_some h
    have hstop : s + l = stop := by
      have := (word_of_lt checks (y := s + l) (by omega)).symm.trans (by exact_mod_cast hstop)
      exact some.inj this
    cases hw
    split at h
    · cases h
      refine ⟨?_, hv.2.fitsConstant, width, hwidth, by omega⟩
      exact (extract_mod (x := before.denote m) hsl).symm
    · cases h
      exact ⟨rfl, hv.fitsConstant, _, rfl, hsl⟩
  · cases h
    exact ⟨rfl, hv.fitsConstant, w, hw, hsl⟩

theorem extractKnown_field (hstart : start.IsNumber s) (hv : value.WellFormed) (hw : value.typ.width = some w)
    (hl : 1 ≤ l) (hl' : l ≤ 64) (hsl : s + l ≤ w) (h : extractKnown checks value start s l = some n) :
    n.Field m l (extract (value.denote m) s l) := by
  obtain ⟨before, hbefore, h⟩ := bind_eq_some_iff.mp h
  obtain ⟨hextract, hfits, w', hw', hsl'⟩ := beforeExtension_spec (m := m) hv hw hsl hbefore
  rw [← hextract]
  split at h
  · rename_i typ offset
    split at h
    · rename_i hmachine
      split at h
      · split at h
        · cases h
        · rename_i hs
          obtain ⟨offset', hoffset, h⟩ := bind_eq_some_iff.mp h
          cases h
          have hmod := word_mod hoffset
          refine .of_not_constant (guestRegister_field hw' ?_ hl (by omega) hsl' (by omega)) rfl
          simp only [List.mem_cons, List.not_mem_nil, or_false] at hmachine
          omega
      · cases h
    · exact shiftAndMask_field hstart hfits hw' hl hl' hsl' h
  · exact shiftAndMask_field hstart hfits hw' hl hl' hsl' h

/-! ### Inserts -/

variable {target source : Node}

theorem makeBitInsertNode_of_pos {a b : Nat} (ha : 1 ≤ a) :
    makeBitInsertNode target source (number a) (number b) =
      some (.bitInsert target.typ target source (number a) (number b)) := by
  have hall : replacesAll target source a b = some false := if_neg (by omega)
  show ((replacesAll target source a b).bind fun all => if all then some source else _) = _
  rw [hall]
  rfl

/-- Putting a field on top of another. -/
theorem makeBitInsert_field {a b y : Nat} (ha : 1 ≤ a) (hb : 1 ≤ b) (hab : a + b ≤ 64)
    (htarget : target.Field m (a + b) x) (htyp : target.typ = .unsigned (a + b)) (hsource : source.Field m b y)
    (hy : y < 2 ^ b) (h : makeBitInsert target source (number a) (number b) = some n) :
    n.Field m (a + b) (insert x y a b) := by
  have hx : x < 2 ^ (a + b) := htarget.denotes ▸ denote_lt_of_width (by rw [htyp]; rfl)
  -- unless both are constants
  have hnode : ∀ {n'}, makeBitInsertNode target source (number a) (number b) = some n' →
      n'.Field m (a + b) (insert x y a b) := by
    intro n' h'
    rw [makeBitInsertNode_of_pos ha] at h'
    cases h'
    refine .of_not_constant ?_ rfl
    show target.typ.wrap (insert (target.denote m) (source.denote m) ((number a).denote m) ((number b).denote m)) = _
    rw [htyp, htarget.denotes, hsource.denotes, (isNumber_number (by omega)).denote, (isNumber_number (by omega)).denote]
    exact Nat.mod_eq_of_lt (insert_lt hx (Nat.le_refl _))
  unfold makeBitInsert at h
  split at h
  · rename_i typ t width c a' b' hc ha' hb'
    cases ha'
    cases hb'
    obtain ⟨hwidth, hle, ht⟩ := htarget.fits _ _ _ rfl
    rw [if_pos hle] at h
    obtain ⟨inserted, hinserted, h⟩ := bind_eq_some_iff.mp h
    obtain rfl : typ = .unsigned (a + b) := htyp
    cases hwidth
    rw [Rudder.bitInsert_eq _ _ (by omega) hab, Nat.mod_eq_of_lt ht] at hinserted
    have hinserted := (some.inj hinserted).symm
    cases source with
    | const sourceTyp c' sourceWidth =>
      cases hc
      obtain ⟨hsourceWidth, -, -⟩ := hsource.fits _ _ _ rfl
      have hbits : c % 2 ^ b = y := by
        have hdenote : c % 2 ^ sourceWidth = y := by
          have := hsource.denotes
          simpa only [denote, Ty.wrap, hsourceWidth, getD_some] using this
        rw [← Nat.mod_mod_of_dvd c (Nat.pow_dvd_pow 2 (hsource.wide _ _ _ rfl)), hdenote, Nat.mod_eq_of_lt hy]
      have hfield := (field_constant (m := m) hab (hinserted ▸ insert_lt ht hab) h).1
      have htx : t % 2 ^ (a + b) = x := htarget.denotes
      rwa [hinserted, insert_mod (Nat.le_refl _), htx, ← insert_mod_right, hbits] at hfield
    | _ => cases hc
  · exact hnode h

/-! ### Extraction -/

theorem extractBits_eq {extracted : Nat} (hl : l ≤ 64) (hsl : s + l ≤ 64) (hl' : 1 ≤ l)
    (h : extractBits checks v s l = some extracted) : extracted = extract v s l := by
  obtain ⟨length, hlength, h⟩ := bind_eq_some_iff.mp h
  unfold Rudder.tryU32 at hlength
  rw [if_pos (by omega)] at hlength
  cases hlength
  rw [if_pos (by omega)] at h
  cases h
  rw [Rudder.and_mask_eq_extract _ hl, extract_zero, Nat.shiftRight_eq_div_pow]
  rfl

/-- `bit_extract` of a constant. -/
theorem extractRange_const (hv : (Node.const typ v width).WellFormed) (hl : 1 ≤ l) (hl' : l ≤ 64) (hsl : s + l ≤ width)
    (h : extractRange checks (.const typ v width) start length s l = some n) :
    n.Field m l (extract ((Node.const typ v width).denote m) s l) := by
  obtain ⟨hwidth, hle, -⟩ := hv
  obtain ⟨extracted, hextracted, h⟩ := bind_eq_some_iff.mp h
  rw [Rudder.tryU32, if_pos (by omega), bind_eq_bind, bind_some, extractBits_eq hl' (by omega) hl hextracted] at h
  rw [extract_denote_const hwidth hsl]
  exact (field_constant_of_lt hl' (extract_lt v s l) h).1

theorem denote_bitInsert {target source insertStart insertLength : Node} {i j : Nat}
    (hv : (Node.bitInsert typ target source insertStart insertLength).WellFormed) (hi : insertStart.IsNumber i)
    (hj : insertLength.IsNumber j) (hij : i + j ≤ typ.width.getD 0) :
    (Node.bitInsert typ target source insertStart insertLength).denote m =
      insert (target.denote m) (source.denote m) i j := by
  show typ.wrap (insert (target.denote m) (source.denote m) (insertStart.denote m) (insertLength.denote m)) = _
  rw [hi.denote, hj.denote]
  have hlt := denote_lt m target
  rw [← hv.1] at hlt
  exact Nat.mod_eq_of_lt (insert_lt hlt hij)

/-- **A constant range of a node**: by induction on the nesting of the inserts. -/
theorem extractRange_field (hv : value.WellFormed) (hw : value.typ.width = some w) (hstart : start.IsNumber s)
    (hlength : length.IsNumber l) (hl : 1 ≤ l) (hl' : l ≤ 64) (hsl : s + l ≤ w)
    (h : extractRange checks value start length s l = some n) : n.Field m l (extract (value.denote m) s l) := by
  induction value, start, length, s, l using extractRange.induct generalizing n w with
  | case1 typ v width start length s l =>
    obtain rfl : width = w := some.inj (hv.1.symm.trans hw)
    exact extractRange_const hv hl hl' hsl h
  | case2 typ target source insertStart insertLength start length s l i j hj hi hexact =>
    -- exactly what was inserted
    obtain ⟨-, -, hsource, -, i', j', hi', hj', hwidth, hij⟩ := id hv
    cases hi'.asConstant.symm.trans hi
    cases hj'.asConstant.symm.trans hj
    obtain ⟨rfl, rfl⟩ := hexact
    simp only [extractRange, hi, hj, and_self, if_true] at h
    cases h
    rw [denote_bitInsert hv hi' hj' hij, extract_insert_inside (Nat.le_refl _) (Nat.le_refl _), Nat.sub_self,
      extract_zero, Nat.mod_eq_of_lt (denote_lt_of_width hwidth)]
    exact hsource.field hwidth
  | case3 typ target source insertStart insertLength start length s l i j hj hi hexact hlow =>
    -- the target below what was inserted
    obtain ⟨htyp, htarget, -, -, i', j', hi', hj', -, hij⟩ := id hv
    cases hi'.asConstant.symm.trans hi
    cases hj'.asConstant.symm.trans hj
    obtain ⟨rfl, rfl⟩ := hlow
    simp only [extractRange, hi, hj, if_neg hexact, and_self, if_true] at h
    rw [Rudder.tryU32, if_pos (by omega), bind_eq_bind, bind_some] at h
    rw [denote_bitInsert hv hi' hj' hij, extract_insert_disjoint (.inl (by omega))]
    exact (makeCast_truncate htarget.fitsConstant (htyp ▸ hw) (by omega) hl' h).1
  | case4 typ target source insertStart insertLength start length s l i j hj hi hexact hlow ihTarget ihSource ihA ihB =>
    obtain ⟨htyp, htarget, hsource, hbound, i', j', hi', hj', hwidth, hij⟩ := id hv
    cases hi'.asConstant.symm.trans hi
    cases hj'.asConstant.symm.trans hj
    have hw' : typ.width = some w := hw
    have htargetWidth : target.typ.width = some w := htyp ▸ hw'
    rw [hw', getD_some] at hbound
    have hijw : i + j ≤ w := by
      rw [hw'] at hij
      exact hij
    have hlast : ((s + l : Nat) : Int) - 1 = ((s + l - 1 : Nat) : Int) := by omega
    simp only [extractRange, hi, hj, if_neg hexact, if_neg hlow, ← Nat.cast_add, bind_eq_bind,
      word_of_lt checks (show i + j < 2 ^ 64 by omega), word_of_lt checks (show s + l < 2 ^ 64 by omega), bind_some, hlast,
      word_of_lt checks (show s + l - 1 < 2 ^ 64 by omega)] at h
    rw [denote_bitInsert hv hi' hj' hij]
    split at h
    · -- in the target
      rename_i hs hend _ _
      rw [decide_eq_true_eq] at hs hend
      rw [extract_insert_disjoint (.inl (by omega))]
      exact ihTarget htarget htargetWidth (isNumber_number (by omega)) (isNumber_number (by omega)) hl hl' hsl h
    · -- in what was inserted
      rename_i _ _ hs hend
      rw [decide_eq_true_eq] at hs hend
      rw [extract_insert_inside hs.1 (by omega)]
      exact ihSource hsource hwidth (isNumber_number (by omega)) (isNumber_number (by omega)) hl hl' (by omega) h
    · -- across the start of what was inserted
      rename_i hs hnot _ hend
      rw [decide_eq_true_eq] at hs hend
      split at h
      · cases h
      · rename_i hsum
        obtain ⟨a, b, ha, hb, h⟩ := bind₂_eq_some h
        rw [Rudder.tryU32, if_pos (by omega), bind_some] at h
        obtain ⟨expanded, hexpanded, h⟩ := bind_eq_some_iff.mp h
        have hcut : i - s + (l - (i - s)) = l := by omega
        have hA := ihA htarget htargetWidth (isNumber_number (by omega)) (isNumber_number (by omega)) (by omega)
          (by omega) (by omega) ha
        have hB := ihB hsource hwidth (isNumber_number (by omega)) (isNumber_number (by omega)) (by omega)
          (by omega) (by omega) hb
        have hlt : extract (target.denote m) s (i - s) < 2 ^ l :=
          Nat.lt_of_lt_of_le (extract_lt _ _ _) (Nat.pow_le_pow_right (by decide) (by omega))
        obtain ⟨hE, hEtyp⟩ := makeCast_zeroExtend hA hlt hl' hexpanded
        rw [extract_insert_across hs (by omega) (by omega)]
        rw [← hcut] at hE hEtyp
        have := makeBitInsert_field (by omega) (by omega) (by omega) hE hEtyp hB (extract_lt _ _ _) h
        rwa [hcut] at this
    · cases h
  | case5 typ target source insertStart insertLength start length s l hnone =>
    obtain ⟨-, -, -, -, i, j, hi, hj, -⟩ := hv
    exact (hnone i j hi.asConstant hj.asConstant).elim
  | case6 typ left right start length s l hupper =>
    -- the upper half of a product
    obtain ⟨rfl, rfl⟩ := hupper
    cases h
    refine .of_not_constant ?_ rfl
    show typ.wrap (extract _ (start.denote m) (length.denote m)) = _
    rw [hstart.denote, hlength.denote]
    unfold Ty.wrap
    rw [show typ.width = some w from hw, getD_some]
    exact Nat.mod_eq_of_lt (Nat.lt_of_lt_of_le (extract_lt _ _ _) (Nat.pow_le_pow_right (by decide) (by omega)))
  | case7 typ left right start length s l hupper =>
    simp only [extractRange, if_neg hupper] at h
    exact extractKnown_field hstart hv hw hl hl' hsl h
  | case8 value start length s l hconst hinsert hproduct =>
    rw [extractRange] at h
    · exact extractKnown_field hstart hv hw hl hl' hsl h
    · exact hconst
    · exact hinsert
    · exact hproduct

/-- **Whenever `bit_extract` returns, the node denotes the requested bits of the value.** -/
theorem makeBitExtract_denotes (checks : Bool) (m : Meaning) (value start length n : Node) (s l w : Nat)
    (hv : value.WellFormed) (hw : value.typ.width = some w) (hstart : start.IsNumber s) (hlength : length.IsNumber l)
    (hl : 1 ≤ l) (hl' : l ≤ 64) (hsl : s + l ≤ w) (h : makeBitExtract checks value start length = some n) :
    n.denote m = value.denote m / 2 ^ s % 2 ^ l := by
  unfold makeBitExtract at h
  rw [hstart.asConstant, hlength.asConstant] at h
  exact (extractRange_field hv hw hstart hlength hl hl' hsl h).denotes

/-- A halfword put on top of a word. -/
def wordAndHalfword : Node :=
  .bitInsert (.unsigned 64) (.cast (.unsigned 64) .zeroExtend (.guestRegister (.unsigned 32) 16))
    (.guestRegister (.unsigned 16) 40) (number 32) (number 16)

/-- The last byte of the word and the first byte of the halfword are read from the registers. -/
theorem makeBitExtract_denotes_across :
    (Node.bitInsert (.unsigned 16) (.cast (.unsigned 16) .zeroExtend (.guestRegister (.unsigned 8) 19))
        (.guestRegister (.unsigned 8) 40) (number 8) (number 8)).denote ⟨UInt8.ofNat, fun _ => 0⟩ =
      wordAndHalfword.denote ⟨UInt8.ofNat, fun _ => 0⟩ / 2 ^ 24 % 2 ^ 16 := by
  refine makeBitExtract_denotes false _ wordAndHalfword (number 24) (number 16) _ 24 16 64 ?_ rfl
    (isNumber_number (by decide)) (isNumber_number (by decide)) (by decide) (by decide) (by decide) rfl
  refine ⟨rfl, ⟨by decide, ?_⟩, ?_, by decide, 32, 16, isNumber_number (by decide), isNumber_number (by decide), rfl,
    by decide⟩
  · show (32 : Nat) < 2 ^ 32
    decide
  · show (16 : Nat) < 2 ^ 32
    decide

end Node

end Icewind.X86
