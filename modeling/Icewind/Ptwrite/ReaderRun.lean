import Icewind.Ptwrite.Windows

/-!
# The reader and the ring buffer

The processor writes a trace to the ring while the reader takes it out.

* `nextData_window` — the window between tail and head goes on where the last one ended.
* `Interleaving` — any interleaving of bytes written by the processor and rounds of the reader.
* `interleaving_written` — while the windows meet the condition, the tail never passes the head, and the
  file has the payloads of the packets before the tail.
-/

namespace Icewind.Ptwrite

open List Function

/-- The processor writes a byte at the head. -/
def RingBufferAux.push (r : RingBufferAux) (b : UInt8) : RingBufferAux :=
  { r with
    auxArea := update r.auxArea (r.auxHead % bufferSize) b
    auxHead := r.auxHead + 1 }

/-- The ring holds the bytes between tail and head. -/
structure HoldsTrace (bytes : List UInt8) (r : RingBufferAux) : Prop where
  order : r.auxTail ≤ r.auxHead
  head : r.auxHead ≤ bytes.length
  cells : Ring.Holds bufferSize (fun i => some (r.auxArea i)) (bytes.take r.auxHead) r.auxTail

variable {bytes : List UInt8} {r : RingBufferAux}

section

variable (h : HoldsTrace bytes r)

include h

theorem HoldsTrace.get {p : Nat} (hle : r.auxTail ≤ p) (hlt : p < r.auxHead) :
    some (r.auxArea (p % bufferSize)) = bytes[p]? := by
  have hhead := h.head
  have hcell := h.cells p hle (by rw [length_take]; omega)
  rw [List.getElem?_take_of_lt hlt] at hcell
  exact hcell

theorem HoldsTrace.push {b : UInt8} (hb : bytes[r.auxHead]? = some b)
    (hroom : r.auxHead < r.auxTail + bufferSize) : HoldsTrace bytes (r.push b) := by
  obtain ⟨hlt, hget⟩ := List.getElem?_eq_some_iff.mp hb
  have hlen : (bytes.take r.auxHead).length = r.auxHead := by
    rw [length_take]
    omega
  have horder := h.order
  refine ⟨by change r.auxTail ≤ r.auxHead + 1; omega, hlt, ?_⟩
  change Ring.Holds bufferSize _ (bytes.take (r.auxHead + 1)) r.auxTail
  rw [take_add_one, hb]
  refine h.cells.append ?_ ?_ ?_
  · rw [hlen]
    exact hroom
  · intro j hj
    rw [hlen]
    have hj0 : j = 0 := by
      simp at hj
      omega
    subst hj0
    change some (update r.auxArea _ b ((r.auxHead + 0) % bufferSize)) = some b
    rw [Nat.add_zero, update_self]
  · intro i hi
    have hne := hi 0 (by simp)
    rw [hlen, Nat.add_zero] at hne
    change some (update r.auxArea _ b i) = _
    rw [update_of_ne hne]

theorem HoldsTrace.slice (start len : Nat) (hstart : r.auxTail ≤ start)
    (hend : start + len ≤ r.auxHead) (hfits : start % bufferSize + len ≤ bufferSize) :
    r.slice (start % bufferSize) len = (bytes.drop start).take len := by
  refine ext_getElem? fun i => ?_
  unfold RingBufferAux.slice
  by_cases hi : i < len
  · have hcell := h.get (p := start + i) (by omega) (by omega)
    rw [Ring.add_mod_of_lt (by omega)] at hcell
    rw [List.getElem?_map, List.getElem?_range hi, List.getElem?_take_of_lt hi, List.getElem?_drop, ← hcell]
    rfl
  · rw [List.getElem?_eq_none (by simp; omega), List.getElem?_eq_none (by simp; omega)]

/-- **The window between tail and head.** -/
theorem nextData_window (hroom : r.auxHead - r.auxTail ≤ bufferSize * 4 / 5) :
    (r.auxHead = r.auxTail ∧ r.nextData = some none) ∨
      ∃ w, r.nextData = some (some w) ∧ w.bytes = (bytes.drop r.auxTail).take (r.auxHead - r.auxTail) := by
  have horder := h.order
  have htail := wrapped_lt r.auxTail
  have hpos : 0 < bufferSize := by decide
  unfold RingBufferAux.nextData
  rw [if_neg (by omega), if_neg (by omega)]
  dsimp only
  -- the head is the tail and the bytes between them, modulo the size
  have hdiff : r.auxHead = r.auxTail + (r.auxHead - r.auxTail) := by omega
  by_cases hwrap : r.auxTail % bufferSize + (r.auxHead - r.auxTail) < bufferSize
  · have hmod : r.auxHead % bufferSize = r.auxTail % bufferSize + (r.auxHead - r.auxTail) := by
      rw [← Ring.add_mod_of_lt hwrap, ← hdiff]
    split
    · refine .inr ⟨_, rfl, ?_⟩
      change r.slice _ (r.auxHead % bufferSize - r.auxTail % bufferSize) ++ [] = _
      rw [show r.auxHead % bufferSize - r.auxTail % bufferSize = r.auxHead - r.auxTail by omega,
        h.slice _ _ (Nat.le_refl _) (by omega) (by omega), append_nil]
    · rw [if_neg (by omega)]
      exact .inl ⟨by omega, rfl⟩
  · have hmod : r.auxHead % bufferSize = r.auxTail % bufferSize + (r.auxHead - r.auxTail) - bufferSize := by
      rw [← Ring.add_mod_of_ge (by omega) hpos (by omega), ← hdiff]
    rw [dif_neg (by omega), if_pos (by omega)]
    refine .inr ⟨_, rfl, ?_⟩
    -- the second slice starts at the next multiple of the size
    have hstart : (r.auxTail + (bufferSize - r.auxTail % bufferSize)) % bufferSize = 0 := by
      rw [Ring.add_mod_of_ge (by omega) hpos (by omega)]
      omega
    have hsecond := h.slice (r.auxTail + (bufferSize - r.auxTail % bufferSize)) (r.auxHead % bufferSize)
      (by omega) (by omega) (by omega)
    rw [hstart] at hsecond
    change r.slice _ (bufferSize - r.auxTail % bufferSize) ++ r.slice 0 (r.auxHead % bufferSize) = _
    rw [h.slice _ _ (Nat.le_refl _) (by omega) (by omega), hsecond, ← drop_drop, ← take_add]
    congr 1
    omega

end

/-! ### Interleavings -/

/-- The reader as it is between two rounds. -/
def Reader.reading (r : Reader) : Reading := ⟨r.ring.auxTail, r.written⟩

/-- The condition on a round: the ring is not filled by more than 80 percent, and the window meets its
condition. -/
structure RoundMeets (is : List (List Packet)) (r : Reader) : Prop where
  room : r.ring.auxHead - r.ring.auxTail ≤ bufferSize * 4 / 5
  window : ∀ w, r.ring.nextData = some (some w) → Meets is r.reading w

/-- Bytes of the trace are written to free cells of the ring, and the reader has its rounds, in any order. -/
inductive Interleaving (bytes : List UInt8) (is : List (List Packet)) : Reader → Prop
  | start (auxArea : Nat → UInt8) : Interleaving bytes is ⟨⟨auxArea, 0, 0⟩, []⟩
  | trace {r : Reader} {b : UInt8} (h : Interleaving bytes is r) (hb : bytes[r.ring.auxHead]? = some b)
      (hroom : r.ring.auxHead < r.ring.auxTail + bufferSize) : Interleaving bytes is { r with ring := r.ring.push b }
  | round {r r' : Reader} (h : Interleaving bytes is r) (hmeets : RoundMeets is r) (hround : r.round = some r') :
      Interleaving bytes is r'

/-- What holds between two rounds. -/
structure ReaderInv (is : List (List Packet)) (r : Reader) : Prop where
  ring : HoldsTrace (trace is.flatten) r.ring
  reading : ∃ rest, After is r.reading rest

variable {is : List (List Packet)}

/-- **A round.** -/
theorem ReaderInv.round {r : Reader} (hitems : ∀ item ∈ is, IsItem item) (h : ReaderInv is r) (hmeets : RoundMeets is r) :
    ∃ r', r.round = some r' ∧ ReaderInv is r' := by
  obtain ⟨rest, hafter⟩ := h.reading
  have horder := h.ring.order
  rcases nextData_window h.ring hmeets.room with ⟨-, hnone⟩ | ⟨w, hw, hbytes⟩
  · refine ⟨r, ?_, h⟩
    unfold Reader.round
    rw [hnone]
    rfl
  · have hcontinues : Continues (trace is.flatten) r.reading w := by
      unfold Continues
      rw [hbytes]
      exact List.take_prefix _ _
    obtain ⟨t, rest', hstep, hafter', hle, hbound, -⟩ := step_after hitems hafter hcontinues (hmeets.window w hw)
    obtain ⟨⟨out, n⟩, hdecode, rfl⟩ := Option.map_eq_some_iff.mp hstep
    refine ⟨⟨{ r.ring with auxTail := r.ring.auxTail + n }, r.written ++ out⟩, ?_, ⟨?_, h.ring.head, ?_⟩, rest', hafter'⟩
    · unfold Reader.round
      rw [hw, Option.bind_some]
      dsimp only
      rw [hdecode]
      rfl
    · have hlen := congrArg List.length hbytes
      rw [length_take, length_drop] at hlen
      change r.ring.auxTail + n ≤ r.ring.auxHead
      change r.ring.auxTail + n ≤ r.ring.auxTail + w.bytes.length at hbound
      omega
    · exact h.ring.cells.advance (Nat.le_add_right _ _)

/-- **In every interleaving the tail does not pass the head, the file has the payloads of the packets before
the tail, and the next round that meets the condition does not panic.** -/
theorem interleaving_written {packets : List Packet} {r : Reader} (hitems : items packets = some is)
    (h : Interleaving (trace packets) is r) :
    r.ring.auxTail ≤ r.ring.auxHead ∧
      (∃ done rest, packets = done ++ rest ∧ r.ring.auxTail = (trace done).length ∧ r.written = payloads done) ∧
      (RoundMeets is r → ∃ r', r.round = some r') := by
  obtain ⟨hflatten, hisItem⟩ := items_spec hitems
  have hinv : ReaderInv is r := by
    rw [← hflatten] at h
    induction h with
    | start auxArea =>
      exact ⟨⟨Nat.le_refl 0, Nat.zero_le _, fun p _ hp => by simp at hp⟩, is, ⟨[], rfl, rfl, rfl⟩⟩
    | trace _ hb hroom ih => exact ⟨ih.ring.push hb hroom, ih.reading⟩
    | round _ hmeets hround ih =>
      obtain ⟨r', hr', hinv⟩ := ih.round hisItem hmeets
      rw [hround] at hr'
      cases hr'
      exact hinv
  obtain ⟨rest, hafter⟩ := hinv.reading
  obtain ⟨done, his, hconsumed, hwritten⟩ := hafter.split
  refine ⟨hinv.ring.order, ⟨done.flatten, rest.flatten, ?_, hconsumed, hwritten⟩, fun hmeets => ?_⟩
  · rw [← hflatten, his, flatten_append]
  · obtain ⟨r', hr', -⟩ := hinv.round hisItem hmeets
    exact ⟨r', hr'⟩

/-- The processor writes several bytes. -/
theorem Interleaving.traces {bytes : List UInt8} : ∀ (bs : List UInt8) {r : Reader}, Interleaving bytes is r →
    bs <+: bytes.drop r.ring.auxHead → r.ring.auxHead + bs.length ≤ r.ring.auxTail + bufferSize →
    Interleaving bytes is { r with ring := bs.foldl .push r.ring }
  | [], _, h, _, _ => h
  | b :: bs, r, h, ⟨rest, hrest⟩, hroom => by
    rw [length_cons] at hroom
    have hdrop : bytes.drop (r.ring.auxHead + 1) = bs ++ rest := by
      rw [← drop_drop, ← hrest]
      rfl
    have hb : bytes[r.ring.auxHead]? = some b := by
      rw [← head?_drop, ← hrest]
      rfl
    refine (h.trace hb (by omega)).traces bs ⟨rest, hdrop.symm⟩ ?_
    change r.ring.auxHead + 1 + bs.length ≤ r.ring.auxTail + bufferSize
    omega

/-- A PAD packet is written and taken out, and then a PTW packet. -/
theorem interleaving_written_ptw : ∃ r r', Interleaving (trace [.pad, .ptw #v[1, 2, 3, 4, 5, 6, 7, 8]])
      [[.pad], [.ptw #v[1, 2, 3, 4, 5, 6, 7, 8]]] r ∧ r.ring.auxTail = 1 ∧ r.round = some r' ∧
      r'.ring.auxTail = 11 ∧ r'.written = [0x0807060504030201] := by
  have hmay : ∀ n, n = 1 ∨ n = 11 → MayEnd [[.pad], [.ptw #v[1, 2, 3, 4, 5, 6, 7, 8]]] n 0 := by
    intro n hn before item after his hlt hgt
    rcases before with _ | ⟨first, _ | ⟨second, before⟩⟩
    · cases his
      rcases hn with rfl | rfl <;> exact absurd hgt (by decide)
    · cases his
      rcases hn with rfl | rfl
      · exact absurd hlt (by decide)
      · exact absurd hgt (by decide)
    · simp at his
  have hpad : Interleaving (trace [.pad, .ptw #v[1, 2, 3, 4, 5, 6, 7, 8]]) [[.pad], [.ptw #v[1, 2, 3, 4, 5, 6, 7, 8]]]
      ⟨⟨update (fun _ => 1) 0 0, 1, 1⟩, []⟩ :=
    .round (.trace (.start fun _ => 1) rfl (by decide)) ⟨by decide, fun w hw => by cases hw; exact hmay 1 (.inl rfl)⟩ rfl
  have hptw := hpad.traces [0x02, 0x32, 1, 2, 3, 4, 5, 6, 7, 8] ⟨[], rfl⟩ (by decide)
  obtain ⟨r', hround⟩ := (interleaving_written rfl hptw).2.2
    ⟨by decide, fun w hw => by cases hw; exact hmay 11 (.inr rfl)⟩
  refine ⟨_, r', hptw, rfl, hround, ?_⟩
  cases hround
  exact ⟨rfl, rfl⟩

end Icewind.Ptwrite
