import Icewind.Rudder.BitSimplification

/-!
# Concatenation of bit vectors

Model of `generate_concat` (`borealis/src/rudder/build.rs`), and what the interpreter makes of the statements that it
builds.

* `generateConcat` — with lengths in the types, a zero extension and a bit insert; otherwise `SizeOf`, an addition of
  the lengths, `CreateBits` and a bit insert.
* `concat_iff` — run by the interpreter, the first gives the concatenation.  The second panics: `SizeOf` gives unsigned
  integers, and `Value::add` has no case for two of them.
-/

namespace Icewind.Rudder

open BitField Option Statement

/-- A bit vector of that length, known from the type or not. -/
def Typ.OfLength (t : Typ) (length : Nat) : Prop := t = .u length ∨ t = .bits

/-- The statements for lengths that are known. -/
def staticConcat (left right : Ref) (leftWidth rightWidth : Nat) (b : Block) : Ref × Block :=
  let n := b.arenaSize
  let b := b.build (.cast .zeroExtend (.u (leftWidth + rightWidth)) right)
  let b := b.build (.constant (.newUnsigned leftWidth 16))
  let b := b.build (.constant (.newUnsigned rightWidth 16))
  (n + 3, b.build (.bitInsert n left (n + 2) (n + 1)))

/-- The statements for lengths that are found out when they run. -/
def dynamicConcat (left right : Ref) (b : Block) : Ref × Block :=
  let n := b.arenaSize
  let b := b.build (.sizeOf left)
  let b := b.build (.sizeOf right)
  let b := b.build (.binaryOperation .add n (n + 1))
  let b := b.build (.createBits right (n + 2))
  (n + 4, b.build (.bitInsert (n + 3) left (n + 1) n))

/-- `generate_concat`. -/
def generateConcat (left right : Ref) (b : Block) : Option (Ref × Block) :=
  match b.typ left, b.typ right with
  | some (.primitive (.unsignedInteger l)), some (.primitive (.unsignedInteger r)) => some (staticConcat left right l r b)
  | some .bits, some .bits | some .bits, some (.primitive (.unsignedInteger _))
  | some (.primitive (.unsignedInteger _)), some .bits => some (dynamicConcat left right b)
  | _, _ => none

variable {s : Statement Ref}

theorem Block.build_arena_of_lt {b : Block} {x : Ref} (h : x < b.arenaSize) :
    (b.build s).arena x = b.arena x := Function.update_of_ne (Nat.ne_of_lt h) _ _

/-- Statements that are appended do not change the types of those that are there. -/
theorem Block.WellFormed.typAux_kept {b b' : Block} (hb : b.WellFormed) (hphi : b.NoPhi b.statements)
    (hsame : ∀ r ∈ b.statements, b'.arena r = b.arena r) :
    ∀ (n : Nat) {r : Ref} {t : Typ}, r ∈ b.statements → b.typAux n r = some t → b'.typAux n r = some t
  | 0, _, _, _, h => by cases h
  | n + 1, r, t, hr, h => by
    have hsplit : b.statements = b.statements ++ [] := (List.append_nil _).symm
    rw [typAux, hsame r hr]
    refine typOf_mono (fun w hw => ?_) (fun x hx t ht => ?_) h
    · unfold constantAt
      rw [hsame w (hb.operand_mem hsplit hr (widthOperand_mem hw))]
    · exact hb.typAux_kept hphi hsame n (hb.operand_mem hsplit hr (consults_subset (hphi r hr) x hx)) ht

/-- One number above another. -/
theorem insert_eq_or {x y l r : Nat} (hx : x < 2 ^ l) (hy : y < 2 ^ r) : insert y x r l = x <<< r ||| y := by
  unfold BitField.insert
  rw [Nat.div_eq_of_lt (Nat.lt_of_lt_of_le hy (Nat.pow_le_pow_right (by decide) (Nat.le_add_right r l))), Nat.mul_zero,
    Nat.zero_add, Nat.mod_eq_of_lt hx, Nat.mod_eq_of_lt hy, Nat.two_pow_add_eq_or_of_lt hy, Nat.shiftLeft_eq,
    Nat.mul_comm]

section

variable {μ : Type} (env : Environment μ) (call : Calls μ)

/-- The value that a block returns which goes on with the statements of the concatenation and returns its result. -/
def runConcat (left right : Ref) (b : Block) (fr : Frame) (st : State μ) : Option (BlockResult μ) := do
  let (result, b') ← generateConcat left right b
  let b' := b'.build (.return_ (some result))
  interpretStatements env call b' (b'.statements.drop b.statements.length) fr st

variable {left right : Ref} {b : Block} {fr : Frame} {st : State μ} {x y l r : Nat}

theorem interpretStatements_computes {ref : Ref} {rest : List Ref} (hs : b.arena ref = s) (hcomputes : s.Computes) :
    interpretStatements env call b (ref :: rest) fr st =
      (evaluate env (b.sourceTyp ref) (s.map fr.values)).bind fun v =>
        interpretStatements env call b rest (fr.next ref (some v) fr.locals fr.flags) st := by
  rw [interpretStatements, execIn, hs, exec_computes env (computes_map.mpr hcomputes)]
  cases evaluate env (b.sourceTyp ref) (s.map fr.values) <;> rfl

/-- The addition of the lengths panics. -/
theorem run_dynamicConcat (st : State μ) (hleft : fr.values left = some (.unsignedInteger x l))
    (hright : fr.values right = some (.unsignedInteger y r)) (hr : right < b.arenaSize) :
    let c := dynamicConcat left right b
    let b' := c.2.build (.return_ (some c.1))
    interpretStatements env call b' (b'.statements.drop b.statements.length) fr st = none := by
  intro c b'
  have hnew : b'.statements.drop b.statements.length = [b.arenaSize, b.arenaSize + 1, b.arenaSize + 2, b.arenaSize + 3,
      b.arenaSize + 4, b.arenaSize + 5] := by
    simp [b', c, dynamicConcat, Block.build]
  have h0 : b'.arena b.arenaSize = .sizeOf left := by simp [b', c, dynamicConcat, Block.build, Nat.add_assoc]
  have h1 : b'.arena (b.arenaSize + 1) = .sizeOf right := by
    simp [b', c, dynamicConcat, Block.build, Nat.add_assoc]
  have h2 : b'.arena (b.arenaSize + 2) = .binaryOperation .add b.arenaSize (b.arenaSize + 1) := by
    simp [b', c, dynamicConcat, Block.build, Nat.add_assoc]
  have hne : right ≠ b.arenaSize := Nat.ne_of_lt hr
  rw [hnew, interpretStatements_computes env call h0 trivial]
  simp only [map, evaluate, hleft, bind_eq_bind, bind_some]
  rw [interpretStatements_computes env call h1 trivial]
  simp only [map, evaluate, Frame.next, Option.isSome_some, if_true, Function.update_of_ne hne, hright,
    bind_eq_bind, bind_some]
  rw [interpretStatements_computes env call h2 trivial]
  simp [map, evaluate, Frame.next, Value.binary, Value.add]

theorem run_staticConcat (hleft : fr.values left = some (.unsignedInteger x l))
    (hright : fr.values right = some (.unsignedInteger y r)) (hl : left < b.arenaSize) (hlr : l + r ≤ 64)
    (hl1 : 1 ≤ l) (hx : x < 2 ^ l) (hy : y < 2 ^ r) :
    let c := staticConcat left right l r b
    let b' := c.2.build (.return_ (some c.1))
    (∃ t, b'.typ right = some t) →
    interpretStatements env call b' (b'.statements.drop b.statements.length) fr st =
      some (.returnValue (some (.unsignedInteger (x <<< r ||| y) (l + r))) st) := by
  rintro c b' ⟨t, ht⟩
  have hnew : b'.statements.drop b.statements.length = [b.arenaSize, b.arenaSize + 1, b.arenaSize + 2, b.arenaSize + 3,
      b.arenaSize + 4] := by
    simp [b', c, staticConcat, Block.build]
  have h0 : b'.arena b.arenaSize = .cast .zeroExtend (.u (l + r)) right := by
    simp [b', c, staticConcat, Block.build, Nat.add_assoc]
  have h1 : b'.arena (b.arenaSize + 1) = .constant (.newUnsigned l 16) := by
    simp [b', c, staticConcat, Block.build, Nat.add_assoc]
  have h2 : b'.arena (b.arenaSize + 2) = .constant (.newUnsigned r 16) := by
    simp [b', c, staticConcat, Block.build, Nat.add_assoc]
  have h3 : b'.arena (b.arenaSize + 3) = .bitInsert b.arenaSize left (b.arenaSize + 2) (b.arenaSize + 1) := by
    simp [b', c, staticConcat, Block.build, Nat.add_assoc]
  have h4 : b'.arena (b.arenaSize + 4) = .return_ (some (b.arenaSize + 3)) := by
    simp [b', c, staticConcat, Block.build, Nat.add_assoc]
  have hsource : b'.sourceTyp b.arenaSize = some t := by
    unfold Block.sourceTyp
    rw [h0]
    exact ht
  have hlength : ∀ w, w ≤ 64 → w &&& mask 16 = w := fun w hw =>
    and_mask_of_le (Nat.le_trans hw (by decide))
  have hinsert : bitInsert y x r l = some (x <<< r ||| y) := by
    have hword : y < 2 ^ 64 := Nat.lt_of_lt_of_le hy (Nat.pow_le_pow_right (by decide) (by omega))
    rw [bitInsert_eq y x (by omega) (by omega), Nat.mod_eq_of_lt hword, insert_eq_or hx hy]
  have hne : left ≠ b.arenaSize ∧ left ≠ b.arenaSize + 1 ∧ left ≠ b.arenaSize + 2 :=
    ⟨Nat.ne_of_lt hl, Nat.ne_of_lt (Nat.lt_succ_of_lt hl), Nat.ne_of_lt (Nat.lt_add_right 2 hl)⟩
  rw [hnew, interpretStatements_computes env call h0 trivial]
  simp only [map, evaluate, hright, hsource, bind_eq_bind, bind_some, Typ.u, Value.cast]
  rw [interpretStatements_computes env call h1 trivial]
  simp only [map, evaluate, bind_some]
  rw [interpretStatements_computes env call h2 trivial]
  simp only [map, evaluate, bind_some]
  rw [interpretStatements_computes env call h3 trivial]
  simp [map, evaluate, Frame.next, hne, hleft, resolveU64, Constant.newUnsigned,
    Value.fromConstant, hlength l (by omega), hlength r (by omega), hinsert, interpretStatements, execIn, h4, exec]

/-- **The statements give the concatenation exactly if the types tell both lengths.** -/
theorem concat_iff (leftTyp rightTyp : Typ) (hb : b.WellFormed) (hphi : b.NoPhi b.statements)
    (hl : left ∈ b.statements) (hr : right ∈ b.statements) (hleftTyp : b.typ left = some leftTyp)
    (hrightTyp : b.typ right = some rightTyp) (hleftLength : leftTyp.OfLength l) (hrightLength : rightTyp.OfLength r)
    (hl₁ : 1 ≤ l) (hlr : l + r ≤ 64) (hx : x < 2 ^ l) (hy : y < 2 ^ r)
    (hleft : fr.values left = some (.unsignedInteger x l)) (hright : fr.values right = some (.unsignedInteger y r)) :
    runConcat env call left right b fr st = some (.returnValue (some (.unsignedInteger (x <<< r ||| y) (l + r))) st) ↔
      leftTyp ≠ .bits ∧ rightTyp ≠ .bits := by
  have hl' := hb.bounded left hl
  have hr' := hb.bounded right hr
  have hdynamic := run_dynamicConcat env call st hleft hright hr'
  unfold runConcat generateConcat
  rw [hleftTyp, hrightTyp]
  rcases hleftLength with rfl | rfl
  · rcases hrightLength with rfl | rfl
    · refine iff_of_true ?_ ⟨nofun, nofun⟩
      refine run_staticConcat env call hleft hright hl' hlr hl₁ hx hy ⟨.u r, ?_⟩
      -- the type of the right operand is still found
      have hsame : ∀ z ∈ b.statements, ((staticConcat left right l r b).2.build (.return_ (some
          (staticConcat left right l r b).1))).arena z = b.arena z := fun z hz =>
        have hlt := hb.bounded z hz
        (Block.build_arena_of_lt (Nat.lt_add_right 4 hlt)).trans <|
          (Block.build_arena_of_lt (Nat.lt_add_right 3 hlt)).trans <|
          (Block.build_arena_of_lt (Nat.lt_add_right 2 hlt)).trans <|
          (Block.build_arena_of_lt (Nat.lt_add_right 1 hlt)).trans (Block.build_arena_of_lt hlt)
      have hkept := hb.typAux_kept hphi hsame b.arenaSize hr hrightTyp
      exact Block.typAux_mono _ (Nat.le_add_right _ 5) hkept
    · exact iff_of_false (fun h => nomatch hdynamic.symm.trans h) fun h => h.2 rfl
  · rcases hrightLength with rfl | rfl
    · exact iff_of_false (fun h => nomatch hdynamic.symm.trans h) fun h => h.1 rfl
    · exact iff_of_false (fun h => nomatch hdynamic.symm.trans h) fun h => h.1 rfl

end

/-- Two variables that hold the bits `101` and `11`. -/
def bitsBlock (leftTyp rightTyp : Typ) : Block where
  arenaSize := 2
  arena := fun
    | 0 => .readVariable ⟨"left", leftTyp⟩
    | _ => .readVariable ⟨"right", rightTyp⟩
  statements := [0, 1]

/-- After the two reads. -/
def bitsFrame : Frame where
  values := fun
    | 0 => some (.unsignedInteger 5 3)
    | 1 => some (.unsignedInteger 3 2)
    | _ => none
  locals := fun _ => none
  flags := 0

variable (leftTyp rightTyp : Typ)

theorem bitsBlock_wellFormed : (bitsBlock leftTyp rightTyp).WellFormed :=
  Block.wellFormed_of_orderedFrom (show [0, 1].Nodup by decide) (show ∀ r ∈ [0, 1], r < 2 by decide) rfl

theorem bitsBlock_noPhi : (bitsBlock leftTyp rightTyp).NoPhi (bitsBlock leftTyp rightTyp).statements := by
  intro r hr members
  rcases List.mem_pair.mp hr with rfl | rfl <;> nofun

theorem concat_iff_known :
    runConcat plainEnvironment callSeven 0 1 (bitsBlock (.u 3) (.u 2)) bitsFrame ⟨fun _ => 0, (), []⟩ =
      some (.returnValue (some (.unsignedInteger 23 5)) ⟨fun _ => 0, (), []⟩) :=
  (concat_iff (x := 5) (y := 3) plainEnvironment callSeven (.u 3) (.u 2) (bitsBlock_wellFormed _ _)
    (bitsBlock_noPhi _ _) (show 0 ∈ [0, 1] by decide) (show 1 ∈ [0, 1] by decide) rfl rfl (.inl rfl) (.inl rfl)
    (by decide) (by decide) (by decide) (by decide) rfl rfl).mpr ⟨nofun, nofun⟩

/-- The same bits in variables whose types do not tell the lengths. -/
theorem concat_bits_panics : (bitsBlock .bits .bits).WellFormed ∧ (bitsBlock .bits .bits).typ 0 = some .bits ∧
      (bitsBlock .bits .bits).typ 1 = some .bits ∧ bitsFrame.values 0 = some (.unsignedInteger 5 3) ∧
      bitsFrame.values 1 = some (.unsignedInteger 3 2) ∧
      runConcat plainEnvironment callSeven 0 1 (bitsBlock .bits .bits) bitsFrame ⟨fun _ => 0, (), []⟩ = none :=
  ⟨bitsBlock_wellFormed _ _, rfl, rfl, rfl, rfl, rfl⟩

end Icewind.Rudder
