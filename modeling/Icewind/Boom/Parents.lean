import Icewind.Boom.ControlFlow
import Mathlib.Data.List.Dedup
import Mathlib.Data.List.Nodup

/-!
# Parents of blocks

* `Heap.Linked` — the parents of a live block are, among live blocks, exactly those that have it as a target.
* `setTerminator_linked` — on a linked heap `set_terminator` does not panic and keeps it linked.
* `Made`, `Made.linked` — every heap built with the operations of `ControlFlowBlock` is linked.
-/

namespace Icewind.Boom

open List Function

namespace Heap

/-- `ControlFlowBlock::parents`. -/
def parentsOf (h : Heap) (b : BlockId) : List BlockId := (h.block b).parents.filter h.live

/-- The targets of a block. -/
def targets (h : Heap) (b : BlockId) : List BlockId := (h.block b).terminator.targets

/-- **Targets and parents agree**, among the blocks that are live. -/
structure Linked (h : Heap) : Prop where
  live_lt : ∀ b, h.live b → b < h.next
  parents_lt : ∀ t, ∀ b ∈ (h.block t).parents, b < h.next
  nodup : ∀ t, (h.block t).parents.Nodup
  targets_live : ∀ b, h.live b → ∀ t ∈ h.targets b, h.live t
  parent : ∀ b, h.live b → ∀ t ∈ h.targets b, b ∈ (h.block t).parents
  target : ∀ t, h.live t → ∀ b ∈ (h.block t).parents, h.live b → t ∈ h.targets b

variable {h : Heap}

theorem mem_parentsOf {b p : BlockId} : p ∈ h.parentsOf b ↔ p ∈ (h.block b).parents ∧ h.live p :=
  mem_filter

theorem Linked.mem_parentsOf_iff (hl : h.Linked) {b p : BlockId} (hb : h.live b) (hp : h.live p) :
    p ∈ h.parentsOf b ↔ b ∈ h.targets p := by
  rw [mem_parentsOf]
  exact ⟨fun ⟨hmem, _⟩ => hl.target b hb p hmem hp, fun hmem => ⟨hl.parent p hp b hmem, hp⟩⟩

/-! ### Setting a terminator -/

/-- What removing and adding parents leaves alone. -/
structure SameCode (h h' : Heap) : Prop where
  next : h'.next = h.next
  live : h'.live = h.live
  code : h'.code = h.code

theorem SameCode.refl (h : Heap) : SameCode h h := ⟨rfl, rfl, rfl⟩

theorem SameCode.trans {h1 h2 h3 : Heap} (h : SameCode h1 h2) (h' : SameCode h2 h3) : SameCode h1 h3 :=
  ⟨h'.next.trans h.next, h'.live.trans h.live, h'.code.trans h.code⟩

theorem modify_parents (h : Heap) (b x : BlockId) (g : List BlockId → List BlockId) :
    SameCode h (h.modify b fun blk => { blk with parents := g blk.parents }) ∧
      ((h.modify b fun blk => { blk with parents := g blk.parents }).block x).parents =
        if x = b then g (h.block x).parents else (h.block x).parents := by
  refine ⟨⟨rfl, rfl, ?_⟩, ?_⟩
  · funext y
    simp only [code, modify_block]
    split
    · rename_i heq
      rw [heq]
    · rfl
  · rw [modify_block]
    split
    · rename_i heq
      rw [heq]
    · rfl

theorem removeParents {b : BlockId} : ∀ {l : List BlockId} {h : Heap}, l.Nodup → (∀ x ∈ l, b ∈ (h.block x).parents) →
    ∃ h', l.foldlM (fun h child => h.removeParent child b) h = some h' ∧ SameCode h h' ∧ ∀ x, (h'.block x).parents =
        if x ∈ l then (h.block x).parents.filter (fun p => decide (p ≠ b)) else (h.block x).parents
  | [], h, _, _ => ⟨h, rfl, .refl h, fun x => by rw [if_neg not_mem_nil]⟩
  | y :: l, h, hnodup, hmem => by
    obtain ⟨hy, hnodup⟩ := nodup_cons.mp hnodup
    have hremove : h.removeParent y b =
        some (h.modify y fun blk => { blk with parents := blk.parents.filter (· ≠ b) }) :=
      if_pos (hmem y mem_cons_self)
    have hsame := fun x => modify_parents h y x (fun ps => ps.filter (· ≠ b))
    obtain ⟨h', hfold, hcode, hparents⟩ :=
      removeParents (h := h.modify y fun blk => { blk with parents := blk.parents.filter (· ≠ b) }) hnodup
        fun x hx => by
          have hne : x ≠ y := fun heq => hy (heq ▸ hx)
          rw [(hsame x).2, if_neg hne]
          exact hmem x (mem_cons_of_mem y hx)
    refine ⟨h', ?_, (hsame y).1.trans hcode, fun x => ?_⟩
    · rw [foldlM_cons, hremove]
      exact hfold
    · rw [hparents x, (hsame x).2]
      by_cases hxy : x = y
      · subst hxy
        rw [if_neg hy, if_pos rfl, if_pos mem_cons_self]
      · rw [if_neg hxy]
        by_cases hx : x ∈ l
        · rw [if_pos hx, if_pos (mem_cons_of_mem y hx)]
        · rw [if_neg hx, if_neg fun h => (mem_cons.mp h).elim hxy hx]

theorem addParents (b : BlockId) : ∀ (l : List BlockId) (h : Heap),
    SameCode h (l.foldl (fun h child => h.addParent child b) h) ∧
      ∀ x, ((h.block x).parents.Nodup → ((l.foldl (fun h child => h.addParent child b) h).block x).parents.Nodup) ∧
        (∀ p ∈ ((l.foldl (fun h child => h.addParent child b) h).block x).parents, (p = b ∧ x ∈ l) ∨
          p ∈ (h.block x).parents) ∧
        (∀ p ∈ (h.block x).parents, h.live p → p ∈ ((l.foldl (fun h child => h.addParent child b) h).block x).parents) ∧
        (x ∈ l → h.live b → b ∈ ((l.foldl (fun h child => h.addParent child b) h).block x).parents)
  | [], h => ⟨.refl h, fun x => ⟨id, fun p hp => .inr hp, fun p hp _ => hp, nofun⟩⟩
  | y :: l, h => by
    have hsame := fun x => modify_parents h y x (fun ps => (ps.filter h.live).insert b)
    obtain ⟨hcode, hrest⟩ := addParents b l (h.addParent y b)
    refine ⟨(hsame y).1.trans hcode, fun x => ?_⟩
    have hfirst : ((h.addParent y b).block x).parents =
        if x = y then ((h.block x).parents.filter h.live).insert b else (h.block x).parents := (hsame x).2
    obtain ⟨hnodup, honly, hkeep, hnew⟩ := hrest x
    rw [foldl_cons]
    rw [hfirst] at hnodup honly hkeep
    refine ⟨fun hx => hnodup ?_, fun p hp => ?_, fun p hp hlive => hkeep p ?_ hlive, fun hx hlive => ?_⟩
    · split
      · exact (hx.filter _).insert
      · exact hx
    · rcases honly p hp with ⟨rfl, hx⟩ | hp
      · exact .inl ⟨rfl, mem_cons_of_mem y hx⟩
      · split at hp
        · rename_i hxy
          rcases mem_insert_iff.mp hp with rfl | hp
          · exact .inl ⟨rfl, hxy ▸ mem_cons_self⟩
          · exact .inr (mem_filter.mp hp).1
        · exact .inr hp
    · split
      · exact mem_insert_of_mem (mem_filter.mpr ⟨hp, hlive⟩)
      · exact hp
    · rcases mem_cons.mp hx with hxy | hx
      · refine hkeep b ?_ hlive
        rw [if_pos hxy]
        exact mem_insert_self
      · exact hnew hx hlive

theorem dedup_targets (t : Terminator) : (dedup t.targets).Nodup ∧ ∀ x, x ∈ dedup t.targets ↔ x ∈ t.targets := by
  cases t with
  | ret | panic => exact ⟨nodup_nil, fun _ => Iff.rfl⟩
  | unconditional target => exact ⟨nodup_singleton target, fun _ => Iff.rfl⟩
  | conditional condition target fallthrough =>
    simp only [Terminator.targets, dedup]
    split
    · rename_i heq
      rw [heq]
      simp
    · rename_i hne
      simp [hne]

section

variable (hl : h.Linked)

include hl

/-- **On a linked heap `set_terminator` does not panic**, and the heap stays linked. -/
theorem setTerminator_linked {b : BlockId} (hb : h.live b) {t : Terminator}
    (ht : ∀ x ∈ t.targets, h.live x) :
    ∃ h', h.setTerminator b t = some h' ∧ h'.Linked ∧ h'.next = h.next ∧ h'.live = h.live ∧
      h'.code = update h.code b ((h.code b).1, t) := by
  obtain ⟨hnodup, hdedup⟩ := dedup_targets (h.block b).terminator
  obtain ⟨h1, hremove, hcode1, hparents1⟩ := removeParents (b := b) (h := h) hnodup
    fun x hx => hl.parent b hb x ((hdedup x).mp hx)
  obtain ⟨hcode2, hparents2⟩ := addParents b t.targets h1
  obtain ⟨h2, hadd⟩ : ∃ h2, t.targets.foldl (fun h child => h.addParent child b) h1 = h2 := ⟨_, rfl⟩
  rw [hadd] at hcode2 hparents2
  have hsame := hcode1.trans hcode2
  -- the terminator itself changes no parents
  have hblock : ∀ x, ((h2.modify b ({ · with terminator := t })).block x).parents = (h2.block x).parents := by
    intro x
    rw [modify_block]
    split
    · rename_i heq
      rw [heq]
    · rfl
  have hcode : (h2.modify b ({ · with terminator := t })).code = update h.code b ((h.code b).1, t) := by
    rw [← hsame.code]
    funext x
    simp only [code, modify_block, update_apply]
    split
    · rfl
    · rfl
  have htargets : ∀ x, (h2.modify b ({ · with terminator := t })).targets x =
      if x = b then t.targets else h.targets x := by
    intro x
    change ((h2.modify b ({ · with terminator := t })).code x).2.targets = _
    rw [hcode, update_apply]
    split <;> rfl
  have hnew : (h2.modify b ({ · with terminator := t })).live = h.live := hsame.live
  have hold : ∀ {x p}, p ∈ (h1.block x).parents → p ∈ (h.block x).parents ∧ (x ∈ h.targets b → p ≠ b) := by
    intro x p hp
    rw [hparents1 x] at hp
    split at hp
    · obtain ⟨hp, hne⟩ := mem_filter.mp hp
      exact ⟨hp, fun _ => of_decide_eq_true hne⟩
    · rename_i hx
      exact ⟨hp, fun hmem => absurd ((hdedup x).mpr hmem) hx⟩
  have hkept : ∀ {x p}, p ∈ (h.block x).parents → p ≠ b → p ∈ (h1.block x).parents := by
    intro x p hp hne
    rw [hparents1 x]
    split
    · exact mem_filter.mpr ⟨hp, decide_eq_true hne⟩
    · exact hp
  refine ⟨h2.modify b ({ · with terminator := t }), ?_, ⟨fun x hx => ?_, fun x p hp => ?_, fun x => ?_,
    fun x hx y hy => ?_, fun x hx y hy => ?_, fun y hy x hx hlive => ?_⟩, hsame.next, hnew, hcode⟩
  · unfold setTerminator
    rw [hremove]
    dsimp only [Option.bind_eq_bind, Option.bind_some]
    rw [hadd]
  · rw [hnew] at hx
    change x < h2.next
    rw [hsame.next]
    exact hl.live_lt x hx
  · change p < h2.next
    rw [hsame.next]
    rw [hblock x] at hp
    rcases (hparents2 x).2.1 p hp with ⟨rfl, -⟩ | hp
    · exact hl.live_lt p hb
    · exact hl.parents_lt x p (hold hp).1
  · rw [hblock x]
    refine (hparents2 x).1 ?_
    rw [hparents1 x]
    split
    · exact (hl.nodup x).filter _
    · exact hl.nodup x
  · rw [hnew] at hx ⊢
    rw [htargets x] at hy
    split at hy
    · exact ht y hy
    · exact hl.targets_live x hx y hy
  · rw [hnew] at hx
    rw [htargets x] at hy
    rw [hblock y]
    split at hy
    · rename_i hxb
      rw [hxb]
      exact (hparents2 y).2.2.2 hy (by rw [hcode1.live]; exact hb)
    · rename_i hxb
      exact (hparents2 y).2.2.1 x (hkept (hl.parent x hx y hy) hxb) (by rw [hcode1.live]; exact hx)
  · rw [hnew] at hy hlive
    rw [hblock y] at hx
    rw [htargets x]
    rcases (hparents2 y).2.1 x hx with ⟨hxb, hmem⟩ | hx
    · rw [if_pos hxb]
      exact hmem
    · obtain ⟨hx, hne⟩ := hold hx
      have htarget := hl.target y hy x hx hlive
      have hxb : x ≠ b := fun heq => hne (heq ▸ htarget) heq
      rw [if_neg hxb]
      exact htarget

/-- `Linked` looks at parents and terminators only. -/
theorem Linked.congr {h' : Heap} (hnext : h'.next = h.next) (hlive : h'.live = h.live)
    (hblock : ∀ x, (h'.block x).parents = (h.block x).parents ∧ (h'.block x).terminator = (h.block x).terminator) :
    h'.Linked := by
  have htargets : ∀ x, h'.targets x = h.targets x := fun x => congrArg Terminator.targets (hblock x).2
  refine ⟨fun b hb => ?_, fun t p hp => ?_, fun t => ?_, fun x hx t ht => ?_, fun x hx t ht => ?_,
    fun t ht x hx hx' => ?_⟩
  · rw [hlive] at hb
    rw [hnext]
    exact hl.live_lt b hb
  · rw [(hblock t).1] at hp
    rw [hnext]
    exact hl.parents_lt t p hp
  · rw [(hblock t).1]
    exact hl.nodup t
  · rw [hlive] at hx ⊢
    rw [htargets x] at ht
    exact hl.targets_live x hx t ht
  · rw [hlive] at hx
    rw [htargets x] at ht
    rw [(hblock t).1]
    exact hl.parent x hx t ht
  · rw [hlive] at ht hx'
    rw [(hblock t).1] at hx
    rw [htargets x]
    exact hl.target t ht x hx hx'

theorem setStatements_linked (b : BlockId) (ss : List Statement) : (h.setStatements b ss).Linked := by
  refine hl.congr rfl rfl fun x => ?_
  unfold setStatements
  rw [modify_block]
  split
  · rename_i heq
    rw [heq]
    exact ⟨rfl, rfl⟩
  · exact ⟨rfl, rfl⟩

theorem setLabel_linked (b : BlockId) (l : Option String) : (h.setLabel b l).Linked := by
  refine hl.congr rfl rfl fun x => ?_
  unfold setLabel
  rw [modify_block]
  split
  · rename_i heq
    rw [heq]
    exact ⟨rfl, rfl⟩
  · exact ⟨rfl, rfl⟩

theorem Linked.collect {live : BlockId → Bool} (hlive : ∀ b, live b → h.live b)
    (hclosed : ∀ b, live b → ∀ t ∈ h.targets b, live t) : Linked { h with live := live } :=
  ⟨fun b hb => hl.live_lt b (hlive b hb), hl.parents_lt, hl.nodup, hclosed,
    fun b hb => hl.parent b (hlive b hb), fun t ht b hb hb' => hl.target t (hlive t ht) b hb (hlive b hb')⟩

theorem new_linked : h.new.2.Linked := by
  have hnew : ∀ x, h.new.2.block x = if x = h.next then Block.new else h.block x := fun x => by
    simp only [new, update_apply]
  have hlive : ∀ {x}, h.new.2.live x → x = h.next ∨ (x ≠ h.next ∧ h.live x) := by
    intro x hx
    simp only [new, update_apply] at hx
    split at hx
    · rename_i heq
      exact .inl heq
    · rename_i hne
      exact .inr ⟨hne, hx⟩
  have hstays : ∀ {x}, h.live x → h.new.2.live x := by
    intro x hx
    simp only [new, update_apply]
    split
    · rfl
    · exact hx
  have hlt : ∀ {x}, h.live x → x ≠ h.next := fun hx => Nat.ne_of_lt (hl.live_lt _ hx)
  refine ⟨fun x hx => ?_, fun t p hp => ?_, fun t => ?_, fun x hx t ht => ?_, fun x hx t ht => ?_,
    fun t ht x hx hx' => ?_⟩
  · change x < h.next + 1
    rcases hlive hx with rfl | ⟨-, hx⟩
    · exact Nat.lt_succ_self _
    · exact Nat.lt_succ_of_lt (hl.live_lt x hx)
  · change p < h.next + 1
    rw [hnew t] at hp
    split at hp
    · cases hp
    · exact Nat.lt_succ_of_lt (hl.parents_lt t p hp)
  · rw [hnew t]
    split
    · exact nodup_nil
    · exact hl.nodup t
  · unfold targets at ht
    rw [hnew x] at ht
    rcases hlive hx with rfl | ⟨hne, hx⟩
    · rw [if_pos rfl] at ht
      cases ht
    · rw [if_neg hne] at ht
      exact hstays (hl.targets_live x hx t ht)
  · unfold targets at ht
    rw [hnew x] at ht
    rcases hlive hx with rfl | ⟨hne, hx⟩
    · rw [if_pos rfl] at ht
      cases ht
    · rw [if_neg hne] at ht
      rw [hnew t, if_neg (hlt (hl.targets_live x hx t ht))]
      exact hl.parent x hx t ht
  · rw [hnew t] at hx
    rcases hlive ht with rfl | ⟨hne, ht⟩
    · rw [if_pos rfl] at hx
      cases hx
    · rw [if_neg hne] at hx
      have hxne : x ≠ h.next := Nat.ne_of_lt (hl.parents_lt t x hx)
      have hxlive := ((hlive hx').resolve_left hxne).2
      unfold targets
      rw [hnew x, if_neg hxne]
      exact hl.target t ht x hx hxlive

end

/-- **The heaps that are built with the operations of `ControlFlowBlock`.**  A block goes away when no block that is
live refers to it. -/
inductive Made : Heap → Prop
  | empty : Made .empty
  | new {h : Heap} (hm : Made h) : Made h.new.2
  | setLabel {h : Heap} (hm : Made h) (b : BlockId) (l : Option String) : Made (h.setLabel b l)
  | setStatements {h : Heap} (hm : Made h) (b : BlockId) (ss : List Statement) : Made (h.setStatements b ss)
  | setTerminator {h h' : Heap} (hm : Made h) {b : BlockId} {t : Terminator} (hb : h.live b)
      (ht : ∀ x ∈ t.targets, h.live x) (hset : h.setTerminator b t = some h') : Made h'
  | drop {h : Heap} (hm : Made h) {b : BlockId} (hb : ∀ a, h.live a → a ≠ b → b ∉ h.targets a) : Made (h.drop b)

theorem Made.linked (hm : Made h) : h.Linked := by
  induction hm with
  | empty => exact ⟨nofun, fun _ _ hb => absurd hb not_mem_nil, fun _ => nodup_nil, nofun, nofun, nofun⟩
  | new _ ih => exact new_linked ih
  | setLabel _ b l ih => exact setLabel_linked ih b l
  | setStatements _ b ss ih => exact setStatements_linked ih b ss
  | setTerminator _ hb ht hset ih =>
    obtain ⟨h', hset', hl, -⟩ := setTerminator_linked ih hb ht
    rw [hset] at hset'
    cases hset'
    exact hl
  | @drop h _ b hb ih =>
    have hlive : ∀ {x}, update h.live b false x = true → x ≠ b ∧ h.live x := by
      intro x hx
      rw [update_apply] at hx
      split at hx
      · cases hx
      · rename_i hne
        exact ⟨hne, hx⟩
    refine ih.collect (fun x hx => (hlive hx).2) fun x hx t ht => ?_
    obtain ⟨hne, hx⟩ := hlive hx
    have htb : t ≠ b := fun heq => hb x hx hne (heq ▸ ht)
    rw [update_of_ne htb]
    exact ih.targets_live x hx t ht

end Heap

end Icewind.Boom
