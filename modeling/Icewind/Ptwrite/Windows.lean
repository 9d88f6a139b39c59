import Icewind.Ptwrite.Decoder
import Mathlib.Tactic.Common

/-!
# Decoding a trace window by window

* `Packet` — the packets of a trace, with the lengths that they have; `trace` — their bytes.
* `items` — what the decoder takes in one go.  It takes one byte too many for a PIP or a VMCS packet, so
  that one of the next packet's bytes goes with it; nothing is lost if that packet is a single byte.
* `Meets` — a condition on a window: where its first slice may end inside of a packet.
* `decode_window` — what the decoder makes of a window that meets the condition.
* `windows_decode_trace` — however a trace is delivered in such windows, the payloads are those of the trace.
* `not_windows_decode_trace` — without the condition the decoder panics, or reports bytes as consumed that
  have not arrived.
-/

namespace Icewind.Ptwrite

open Decoder

/-! ### Packets -/

/-- The packets that the decoder knows. -/
inductive Packet where
  | pad
  | tnt8 (byte : UInt8) (even : byte &&& 0x01 = 0) (pad : byte ≠ 0x00) (ext : byte ≠ 0x02)
  | psb
  | psbend
  | cbr (ratio : Vector UInt8 2)
  | ptw (payload : Vector UInt8 8)
  | pip (cr3 : Vector UInt8 6)
  | vmcs (pointer : Vector UInt8 5)

open List Option

variable (p : Packet)

namespace Packet

def bytes : Packet → List UInt8
  | pad => [0x00]
  | tnt8 byte .. => [byte]
  | psb => (List.replicate 8 [0x02, 0x82]).flatten
  | psbend => [0x02, 0x23]
  | cbr ratio => 0x02 :: 0x03 :: ratio.toList
  | ptw payload => 0x02 :: 0x32 :: payload.toList
  | pip cr3 => 0x02 :: 0x43 :: cr3.toList
  | vmcs pointer => 0x02 :: 0xc8 :: pointer.toList

def payload : Packet → Option Nat
  | ptw payload => some (fromNeBytes payload.toList)
  | _ => none

/-- The decoder takes a byte too many. -/
def overrun : Packet → Bool
  | pip _ | vmcs _ => true
  | _ => false

theorem bytes_length : ∀ p : Packet, p.bytes.length = match p with
    | pad | tnt8 .. => 1
    | psb => 16
    | psbend => 2
    | cbr _ => 4
    | ptw _ => 10
    | pip _ => 8
    | vmcs _ => 7
  | pad | tnt8 .. | psb | psbend => rfl
  | cbr _ | ptw _ | pip _ | vmcs _ => by simp [bytes]

theorem bytes_pos : 0 < p.bytes.length := by
  rw [bytes_length]
  cases p <;> simp

end Packet

/-- The bytes of some packets. -/
def trace (packets : List Packet) : List UInt8 := packets.flatMap Packet.bytes

/-- The payloads of some packets. -/
def payloads (packets : List Packet) : List Nat := packets.filterMap Packet.payload

@[simp] theorem trace_nil : trace [] = [] := rfl

@[simp] theorem trace_cons (ps : List Packet) : trace (p :: ps) = p.bytes ++ trace ps := rfl

variable (ps qs : List Packet)

@[simp] theorem trace_append : trace (ps ++ qs) = trace ps ++ trace qs :=
  flatMap_append

@[simp] theorem payloads_nil : payloads [] = [] := rfl

@[simp] theorem payloads_cons (ps : List Packet) : payloads (p :: ps) = p.payload.toList ++ payloads ps := by
  unfold payloads
  rw [filterMap_cons]
  cases p.payload <;> rfl

theorem payloads_append : payloads (ps ++ qs) = payloads ps ++ payloads qs :=
  filterMap_append

/-! ### Items -/

/-- The packets, as the decoder takes them: every packet by itself, but a PIP or a VMCS packet with the
packet of one byte that follows it. -/
def items : List Packet → Option (List (List Packet))
  | [] => some []
  | [p] => if p.overrun then none else some [[p]]
  | p :: q :: ps =>
    if p.overrun then if q.bytes.length = 1 then (items ps).map ([p, q] :: ·) else none
    else (items (q :: ps)).map ([p] :: ·)

inductive IsItem : List Packet → Prop
  | single {p : Packet} (h : p.overrun = false) : IsItem [p]
  | pair {p q : Packet} (h : p.overrun = true) (hq : q.bytes.length = 1) : IsItem [p, q]

theorem items_spec : ∀ {packets : List Packet} {is : List (List Packet)}, items packets = some is →
    is.flatten = packets ∧ ∀ item ∈ is, IsItem item
  | [], is, h => by
    cases h
    exact ⟨rfl, fun _ h => (by cases h)⟩
  | [p], is, h => by
    unfold items at h
    split at h
    · cases h
    · rename_i hp
      cases h
      exact ⟨rfl, forall_mem_singleton.mpr (.single (Bool.eq_false_iff.mpr hp))⟩
  | p :: q :: ps, is, h => by
    unfold items at h
    split at h
    · rename_i hp
      split at h
      · rename_i hq
        obtain ⟨js, hjs, his⟩ := map_eq_some_iff.mp h
        obtain ⟨hflatten, hmem⟩ := items_spec hjs
        cases his
        exact ⟨by rw [flatten_cons, hflatten]; rfl, forall_mem_cons.mpr ⟨.pair hp hq, hmem⟩⟩
      · cases h
    · rename_i hp
      obtain ⟨js, hjs, his⟩ := map_eq_some_iff.mp h
      obtain ⟨hflatten, hmem⟩ := items_spec hjs
      cases his
      exact ⟨by rw [flatten_cons, hflatten]; rfl, forall_mem_cons.mpr ⟨.single (Bool.eq_false_iff.mpr hp), hmem⟩⟩

/-- Does an item have a payload? -/
def carries (item : List Packet) : Bool := (payloads item).length == 1

theorem payloads_pair {p q : Packet} (hp : p.overrun = true) (hq : q.bytes.length = 1) : payloads [p, q] = [] := by
  have hpnone : p.payload = none := by
    cases p with
    | ptw payload => cases hp
    | _ => rfl
  have hqnone : q.payload = none := by
    cases q with
    | ptw payload => simp [Packet.bytes] at hq
    | _ => rfl
  simp [hpnone, hqnone]

namespace IsItem

variable {item : List Packet}

/-- Only a PTW packet has a payload. -/
theorem ptw_or_none (hitem : IsItem item) :
    (∃ payload, item = [.ptw payload]) ∨ payloads item = [] := by
  cases hitem with
  | single hp =>
    rename_i p
    cases p with
    | ptw payload => exact .inl ⟨payload, rfl⟩
    | _ => exact .inr rfl
  | pair hp hq => exact .inr (payloads_pair hp hq)

theorem ptw (hitem : IsItem item) (h : carries item = true) :
    ∃ payload, item = [.ptw payload] := by
  rcases hitem.ptw_or_none with hptw | hnone
  · exact hptw
  · simp [carries, hnone] at h

theorem payloads_eq (hitem : IsItem item) :
    payloads item = (payloads item).head?.toList := by
  rcases hitem.ptw_or_none with ⟨payload, rfl⟩ | hnone
  · rfl
  · rw [hnone]
    rfl

theorem pos (hitem : IsItem item) : 0 < (trace item).length := by
  cases hitem with
  | single hp =>
    rename_i p
    have hpos := p.bytes_pos
    simp
    omega
  | pair hp hq =>
    simp
    omega

end IsItem

/-! ### One packet -/

namespace Decoder

variable {d : Decoder}

theorem nextPacket_end (h : d.main.length ≤ d.position) :
    d.nextPacket = some (.error .endOfData, d) := if_pos h

theorem nextPacket_plain {b : UInt8} (h : d.main[d.position]? = some b)
    (heven : b &&& 0x01 = 0) (hext : b ≠ 0x02) : d.nextPacket = some (.ok none, d.step 1) := by
  obtain ⟨hlt, -⟩ := List.getElem?_eq_some_iff.mp h
  unfold nextPacket currentByte
  rw [if_neg (by omega), h, bind_some, if_neg hext, if_pos heven]
  exact ite_self _

theorem nextPacket_ext {ext : UInt8} (h : d.main[d.position]? = some 0x02)
    (hext : d.main[d.position + 1]? = some ext) :
    d.nextPacket = (d.step 2).extPacket ext := by
  obtain ⟨hlt, -⟩ := List.getElem?_eq_some_iff.mp h
  unfold nextPacket currentByte
  rw [if_neg (by omega), h, bind_some, if_neg (by decide), if_pos rfl]
  change (d.main[d.position + 1]?).bind _ = _
  rw [hext]
  rfl

end Decoder

/-- The decoder has reached some bytes: the first `m` of them are left in its first slice, and `n` more are
in the second. -/
structure At (d : Decoder) (bytes : List UInt8) (m n : Nat) : Prop where
  main : d.main.drop d.position = bytes.take m
  length : d.main.length = d.position + m
  secondary : d.secondary.getD [] = (bytes.drop m).take n
  available : (d.secondary.getD []).length = n

variable {d : Decoder} {m n : Nat} {bytes : List UInt8}

theorem At.get {k : Nat} (h : At d bytes m n) (hk : k < m) : d.main[d.position + k]? = bytes[k]? := by
  rw [← List.getElem?_drop, h.main, List.getElem?_take_of_lt hk]

theorem At.skip (bytes more : List UInt8) (h : At d (bytes ++ more) m n) (hle : bytes.length ≤ m) :
    At (d.step bytes.length) more (m - bytes.length) n := by
  refine ⟨?_, ?_, ?_, h.available⟩
  · change d.main.drop (d.position + bytes.length) = _
    rw [← drop_drop, h.main, drop_take, drop_left]
  · change d.main.length = d.position + bytes.length + _
    have := h.length
    omega
  · change d.secondary.getD [] = _
    rw [h.secondary, drop_append, drop_eq_nil_of_le hle, nil_append]

variable {more : List UInt8}

theorem At.payload_main (h : At d (bytes ++ more) m n) (hlen : bytes.length = 8) (hm : 8 ≤ m) :
    d.payload = some (some (fromNeBytes bytes)) := by
  have hlength := h.length
  have htake : (d.main.drop d.position).take 8 = bytes := by
    rw [h.main, take_take, Nat.min_eq_left hm, take_append_of_le_length (by omega), take_of_length_le (by omega)]
  unfold Decoder.payload
  rw [if_neg (by omega), if_pos (by omega), htake]

theorem At.payload_secondary (h : At d (bytes ++ more) 0 n) (hlen : bytes.length = 8) (hn : 8 ≤ n) :
    d.payload = some (some (fromNeBytes bytes)) := by
  have hlength := h.length
  have hsecondary := h.secondary
  have havailable := h.available
  unfold Decoder.payload
  rw [if_pos (by omega)]
  cases hsec : d.secondary with
  | none =>
    rw [hsec] at havailable
    change 0 = n at havailable
    omega
  | some secondary =>
    rw [hsec] at havailable hsecondary
    change secondary.length = n at havailable
    change secondary = _ at hsecondary
    have htake : secondary.take 8 = bytes := by
      rw [hsecondary, drop_zero, take_take, Nat.min_eq_left hn,
        take_append_of_le_length (by omega), take_of_length_le (by omega)]
    dsimp only
    rw [if_pos (by omega), htake]

theorem At.payload_missing (h : At d bytes 0 n) (hn : n < 8) : d.payload = some none := by
  have hlength := h.length
  have havailable := h.available
  unfold Decoder.payload
  rw [if_pos (by omega)]
  cases hsec : d.secondary with
  | none => rfl
  | some secondary =>
    rw [hsec] at havailable
    change secondary.length = n at havailable
    dsimp only
    rw [if_neg (by omega)]

theorem At.ext {ext : UInt8} (h : At d (0x02 :: ext :: bytes) m n) (hm : 2 ≤ m) :
    d.nextPacket = (d.step 2).extPacket ext :=
  nextPacket_ext (h.get (k := 0) (by omega)) (h.get (k := 1) (by omega))

theorem At.plain {b : UInt8} (h : At d (b :: bytes) m n) (hm : 0 < m) (heven : b &&& 0x01 = 0) (hext : b ≠ 0x02) :
    d.nextPacket = some (.ok none, d.step 1) :=
  nextPacket_plain (h.get (k := 0) hm) heven hext

/-- **The decoder goes past an item and gives its payload.** -/
theorem At.item {item : List Packet} (hitem : IsItem item) (h : At d (trace item ++ more) m n) (hm : 0 < m)
    (hsplit : (trace item).length ≤ m ∨ 2 ≤ m ∧ (carries item = true → m = 2 ∧ 8 ≤ n)) :
    d.nextPacket = some (.ok (payloads item).head?, d.step (trace item).length) := by
  have hm2 : 2 ≤ (trace item).length → 2 ≤ m := fun h2 => by
    rcases hsplit with hsplit | hsplit
    · omega
    · exact hsplit.1
  cases hitem with
  | single hp =>
    rename_i p
    cases p with
    | pad => exact h.plain hm rfl (by decide)
    | tnt8 byte even hpad hext => exact h.plain hm even hext
    | psb | psbend => exact h.ext (hm2 (by decide))
    | cbr ratio =>
      rw [h.ext (hm2 (by simp [Packet.bytes]))]
      simp [Decoder.extPacket, Decoder.step, Packet.bytes, payloads, Packet.payload]
    | ptw payload =>
      rw [h.ext (hm2 (by simp [Packet.bytes]))]
      have hlen : payload.toList.length = 8 := by simp
      have hpayload : (d.step 2).payload = some (some (fromNeBytes payload.toList)) := by
        have hskip : At (d.step 2) (payload.toList ++ more) (m - 2) n := by
          refine At.skip [0x02, 0x32] _ ?_ (hm2 (by simp [Packet.bytes]))
          simpa [Packet.bytes] using h
        rcases hsplit with hsplit | ⟨-, hsplit⟩
        · have hle : 10 ≤ m := by simpa [Packet.bytes] using hsplit
          exact hskip.payload_main hlen (by omega)
        · obtain ⟨hm2, hn⟩ := hsplit rfl
          rw [hm2] at hskip
          exact hskip.payload_secondary hlen hn
      unfold Decoder.extPacket
      rw [hpayload]
      simp [Decoder.step, Packet.bytes, payloads, Packet.payload]
    | pip | vmcs => cases hp
  | pair hp hq =>
    rename_i p q
    rw [payloads_pair hp hq]
    cases p with
    | pip cr3 =>
      rw [h.ext (hm2 (by simp [Packet.bytes]))]
      have hlen : (trace [.pip cr3, q]).length = 9 := by
        rw [trace_cons, trace_cons, length_append, length_append, hq]
        simp [Packet.bytes]
      rw [hlen]
      rfl
    | vmcs pointer =>
      rw [h.ext (hm2 (by simp [Packet.bytes]))]
      have hlen : (trace [.vmcs pointer, q]).length = 8 := by
        rw [trace_cons, trace_cons, length_append, length_append, hq]
        simp [Packet.bytes]
      rw [hlen]
      rfl
    | _ => cases hp

/-- The decoder goes back to the start of a PTW packet whose payload has not arrived. -/
theorem At.missing {item : List Packet} (hitem : IsItem item) (h : At d (trace item ++ more) 2 n)
    (hcarries : carries item = true) (hn : n < 8) : d.nextPacket = some (.error .missingData, d) := by
  obtain ⟨payload, rfl⟩ := hitem.ptw hcarries
  rw [h.ext (Nat.le_refl 2)]
  have hskip : At (d.step 2) (payload.toList ++ more) 0 n := by
    refine At.skip [0x02, 0x32] _ ?_ (Nat.le_refl 2)
    simpa [Packet.bytes] using h
  unfold Decoder.extPacket
  rw [hskip.payload_missing hn]
  simp [Decoder.step]

/-! ### The loops -/

/-- A run of the decoder over packets, to the end of the data. -/
inductive Runs : Decoder → List Nat → Decoder → Prop
  | stop {d d' : Decoder} {e : DecodeError} (h : d.nextPacket = some (.error e, d'))
      (he : e = .missingData ∨ e = .endOfData) : Runs d [] d'
  | packet {d d' : Decoder} {k : Nat} {x : Option Nat} {out : List Nat}
      (h : d.nextPacket = some (.ok x, d.step k)) (hk : 0 < k) (rest : Runs (d.step k) out d') :
      Runs d (x.toList ++ out) d'

theorem position_lt {d' : Decoder} {x : Option Nat} (h : d.nextPacket = some (.ok x, d')) :
    d.position < d.main.length := by
  by_contra hge
  rw [nextPacket_end (by omega)] at h
  cases h

variable {out : List Nat}

theorem Runs.next {d' : Decoder} (h : Runs d out d') : ∀ fuel : Nat, 0 < fuel →
    d.main.length < d.position + fuel →
    (out = [] ∧ Decoder.nextLoop fuel d = some (none, d')) ∨
      ∃ payload out' k, out = payload :: out' ∧ d.position < d.main.length ∧ 0 < k ∧
        Decoder.nextLoop fuel d = some (some payload, d.step k) ∧ Runs (d.step k) out' d' := by
  induction h with
  | stop h he =>
    intro fuel hpos hfuel
    obtain ⟨fuel, rfl⟩ := Nat.exists_eq_succ_of_ne_zero (Nat.ne_of_gt hpos)
    refine .inl ⟨rfl, ?_⟩
    unfold Decoder.nextLoop
    rw [h]
    rcases he with rfl | rfl <;> rfl
  | packet h hk rest ih =>
    rename_i d d' k x out
    intro fuel hpos hfuel
    have hlt := position_lt h
    obtain ⟨fuel, rfl⟩ := Nat.exists_eq_succ_of_ne_zero (Nat.ne_of_gt hpos)
    cases x with
    | some payload =>
      refine .inr ⟨payload, out, k, rfl, hlt, hk, ?_, rest⟩
      unfold Decoder.nextLoop
      rw [h]
    | none =>
      have hloop : Decoder.nextLoop (fuel + 1) d = Decoder.nextLoop fuel (d.step k) := by
        rw [Decoder.nextLoop, h]
      rw [hloop]
      have hfuel' : (d.step k).main.length < (d.step k).position + fuel := by
        change d.main.length < d.position + k + fuel
        omega
      rcases ih fuel (by omega) hfuel' with hnone | ⟨payload, out', k', hout, -, hk', hnext, hrest⟩
      · exact .inl hnone
      · refine .inr ⟨payload, out', k + k', hout, hlt, by omega, ?_, ?_⟩
        · rw [hnext]
          simp only [Decoder.step, Nat.add_assoc]
        · rw [show d.step (k + k') = (d.step k).step k' by simp only [Decoder.step, Nat.add_assoc]]
          exact hrest

theorem Runs.drain : ∀ (fuel : Nat) {d d' : Decoder} {out : List Nat}, Runs d out d' → 0 < fuel →
    d.main.length < d.position + fuel → Decoder.drain fuel d = some (out, d')
  | 0, _, _, _, _, hpos, _ => absurd hpos (Nat.lt_irrefl 0)
  | fuel + 1, d, d', out, h, _, hfuel => by
    rcases h.next (d.main.length + 1) (by omega) (by omega) with
      ⟨hout, hnext⟩ | ⟨payload, out', k, hout, hlt, hk, hnext, hrest⟩
    · unfold Decoder.drain Decoder.next
      rw [hnext, hout]
    · have hfuel' : (d.step k).main.length < (d.step k).position + fuel := by
        change d.main.length < d.position + k + fuel
        omega
      have hdrain := Runs.drain fuel hrest (by omega) hfuel'
      unfold Decoder.drain Decoder.next
      rw [hnext, hout]
      dsimp only
      rw [hdrain]
      rfl

theorem Runs.decode {main : List UInt8} {secondary : Option (List UInt8)} (h : Runs (.new main secondary) out d) :
    decode main secondary = some (out, d.position) := by
  unfold Ptwrite.decode
  rw [Runs.drain _ h (Nat.succ_pos _) (by change main.length < 0 + (main.length + 1); omega)]
  rfl

/-! ### One window -/

/-- The first slice may end after `m` bytes of some items, with `n` bytes in the second: it does not end
inside of an item; or it ends after two bytes of a packet with a payload; or after two bytes or more of
another item, all of which has arrived. -/
def MayEnd (is : List (List Packet)) (m n : Nat) : Prop :=
  ∀ before item after, is = before ++ item :: after → (trace before.flatten).length < m →
    m < (trace before.flatten).length + (trace item).length →
    (trace before.flatten).length + 2 ≤ m ∧
      if carries item then m = (trace before.flatten).length + 2
      else (trace before.flatten).length + (trace item).length ≤ m + n

theorem MayEnd.drop (before is : List (List Packet)) (h : MayEnd (before ++ is) ((trace before.flatten).length + m) n) :
    MayEnd is m n := by
  intro mid item after his hlt hend
  have hmay := h (before ++ mid) item after (by rw [his, append_assoc])
  rw [flatten_append, trace_append, length_append] at hmay
  obtain ⟨htwo, hrest⟩ := hmay (by omega) (by omega)
  refine ⟨by omega, ?_⟩
  split
  · rename_i hcarries
    rw [if_pos hcarries] at hrest
    omega
  · rename_i hcarries
    rw [if_neg hcarries] at hrest
    omega

/-- The items that the decoder takes from a window. -/
def taken (n : Nat) : List (List Packet) → Nat → List (List Packet)
  | [], _ => []
  | item :: is, m =>
    if m = 0 then []
    else if (trace item).length ≤ m then item :: taken n is (m - (trace item).length)
    else if (trace item).length ≤ m + n then [item]
    else []

/-- **What the decoder makes of a window.** -/
theorem runs_items : ∀ {is : List (List Packet)} {d : Decoder} {m : Nat},
    (∀ item ∈ is, IsItem item) → At d (trace is.flatten) m n → MayEnd is m n →
    Runs d (payloads (taken n is m).flatten) (d.step (trace (taken n is m).flatten).length)
  | [], d, m, _, h, _ => by
    have hmain := congrArg List.length h.main
    have hlength := h.length
    simp at hmain
    exact .stop (nextPacket_end (by omega)) (.inr rfl)
  | item :: is, d, m, hitems, h, hmay => by
    have hitem := hitems item mem_cons_self
    have hlength := h.length
    have hpos := hitem.pos
    rw [flatten_cons, trace_append] at h
    unfold taken
    split
    · exact .stop (nextPacket_end (by omega)) (.inr rfl)
    · rename_i hm
      split
      · -- the item lies in the first slice
        rename_i hle
        have hrest := runs_items (fun i hi => hitems i (mem_cons_of_mem _ hi)) (At.skip _ _ h hle)
          (MayEnd.drop [item] is (by
            rw [flatten_singleton, Nat.add_sub_cancel' hle]
            exact hmay))
        have hpacket := h.item hitem (by omega) (.inl hle)
        rw [flatten_cons, payloads_append, hitem.payloads_eq, trace_append, length_append]
        have hrun := Runs.packet hpacket hpos hrest
        simpa only [Decoder.step, Nat.add_assoc] using hrun
      · rename_i hgt
        obtain ⟨htwo, hrest⟩ := hmay [] item is rfl (by simp; omega) (by simp; omega)
        simp only [flatten_nil, trace_nil, length_nil, Nat.zero_add] at htwo hrest
        split
        · -- it goes on in the second slice, where all of it has arrived
          rename_i hle
          have hcarries : carries item = true → m = 2 ∧ 8 ≤ n := fun hc => by
            rw [if_pos hc] at hrest
            obtain ⟨payload, rfl⟩ := hitem.ptw hc
            simp [Packet.bytes] at hle
            omega
          have hpacket := h.item hitem (by omega) (.inr ⟨htwo, hcarries⟩)
          rw [flatten_singleton, hitem.payloads_eq]
          have hend : (d.step (trace item).length).main.length ≤ (d.step (trace item).length).position := by
            change d.main.length ≤ d.position + (trace item).length
            omega
          have hrun := Runs.packet hpacket hpos (.stop (nextPacket_end hend) (.inr rfl))
          rw [append_nil] at hrun
          exact hrun
        · -- a packet with a payload that has not arrived
          rename_i hlt
          have hcarries : carries item = true := by
            by_contra hc
            rw [if_neg hc] at hrest
            omega
          rw [if_pos hcarries] at hrest
          have hn : n < 8 := by
            obtain ⟨payload, rfl⟩ := hitem.ptw hcarries
            simp [Packet.bytes] at hlt
            omega
          rw [hrest] at h
          exact .stop (h.missing hitem hcarries hn) (.inl rfl)

theorem taken_append (n : Nat) : ∀ (is : List (List Packet)) (m : Nat), ∃ rest, is = taken n is m ++ rest
  | [], _ => ⟨[], rfl⟩
  | item :: is, m => by
    unfold taken
    split
    · exact ⟨item :: is, rfl⟩
    · split
      · obtain ⟨rest, hrest⟩ := taken_append n is (m - (trace item).length)
        exact ⟨rest, by rw [cons_append, ← hrest]⟩
      · split
        · exact ⟨is, rfl⟩
        · exact ⟨item :: is, rfl⟩

/-- No more is taken than has arrived. -/
theorem taken_length (n : Nat) : ∀ (is : List (List Packet)) (m : Nat), (trace (taken n is m).flatten).length ≤ m + n
  | [], _ => Nat.zero_le _
  | item :: is, m => by
    unfold taken
    split
    · exact Nat.zero_le _
    · split
      · have ih := taken_length n is (m - (trace item).length)
        rw [flatten_cons, trace_append, length_append]
        omega
      · split
        · rename_i hle
          rw [flatten_singleton]
          exact hle
        · exact Nat.zero_le _

theorem taken_all (n : Nat) : ∀ {is : List (List Packet)}, (∀ item ∈ is, IsItem item) →
    taken n is (trace is.flatten).length = is
  | [], _ => rfl
  | item :: is, hitems => by
    have hpos := (hitems item mem_cons_self).pos
    have ih := taken_all n fun i hi => hitems i (mem_cons_of_mem item hi)
    unfold taken
    rw [flatten_cons, trace_append, length_append, if_neg (by omega), if_pos (by omega), Nat.add_sub_cancel_left, ih]

variable (is : List (List Packet))

theorem mayEnd_all (n : Nat) : MayEnd is (trace is.flatten).length n := by
  intro before item after his _ hlt
  rw [his, flatten_append, flatten_cons] at hlt
  simp only [trace_append, length_append] at hlt
  omega

theorem taken_pos {item : List Packet} (hitem : IsItem item) (hm : 0 < m) (hle : (trace item).length ≤ m + n) :
    0 < (trace (taken n (item :: is) m).flatten).length := by
  have hpos := hitem.pos
  unfold taken
  rw [if_neg (by omega)]
  split
  · rw [flatten_cons, trace_append, length_append]
    omega
  · rw [flatten_singleton]
    exact hpos

variable {is : List (List Packet)}

/-- Where the first slice may end, an item is there as a whole once its first packet is. -/
theorem MayEnd.complete {item : List Packet} {p : Packet} {ps : List Packet} (h : MayEnd (item :: is) m n)
    (hitem : IsItem item) (hp : (item :: is).flatten = p :: ps) (hm : 0 < m) (hle : p.bytes.length ≤ m + n) :
    (trace item).length ≤ m + n := by
  cases hitem with
  | single _ =>
    cases hp
    rw [trace_cons, trace_nil, append_nil]
    exact hle
  | pair hover hq =>
    rename_i p q
    by_contra hgt
    obtain ⟨-, hrest⟩ := h [] [p, q] is rfl hm (by simp only [flatten_nil, trace_nil, length_nil]; omega)
    have hcarries : carries [p, q] = false := by
      unfold carries
      rw [payloads_pair hover hq]
      rfl
    rw [hcarries] at hrest
    simp at hrest hgt
    omega

/-- **A trace as a whole.** -/
theorem decode_trace {packets : List Packet} (h : items packets = some is) :
    decode (trace packets) none = some (payloads packets, (trace packets).length) := by
  obtain ⟨hflatten, hitems⟩ := items_spec h
  have hat : At (.new (trace packets) none) (trace is.flatten) (trace is.flatten).length 0 := by
    rw [hflatten]
    refine ⟨?_, ?_, ?_, rfl⟩
    · rw [take_length]
      rfl
    · exact (Nat.zero_add _).symm
    · rw [drop_length]
      rfl
  have hruns := runs_items hitems hat (mayEnd_all is 0)
  rw [taken_all 0 hitems, hflatten] at hruns
  rw [hruns.decode]
  simp [Decoder.step, Decoder.new]

/-! ### Runs of windows -/

/-- What has been consumed and written so far. -/
structure Reading where
  consumed : Nat
  written : List Nat

def Reading.start : Reading := ⟨0, []⟩

def Reading.step (s : Reading) (w : Window) : Option Reading :=
  (decode w.main w.secondary).map fun (payloads, consumed) => ⟨s.consumed + consumed, s.written ++ payloads⟩

def Reading.run (s : Reading) : List Window → Option Reading
  | [] => some s
  | w :: ws => (s.step w).bind (·.run ws)

/-- A window goes on where the bytes consumed so far ended. -/
def Continues (bytes : List UInt8) (s : Reading) (w : Window) : Prop := w.bytes <+: bytes.drop s.consumed

/-- **The condition on a window.** -/
def Meets (is : List (List Packet)) (s : Reading) (w : Window) : Prop :=
  MayEnd is (s.consumed + w.main.length) (w.secondary.getD []).length

/-- All windows of a run have a property that depends on the state before. -/
def Throughout (P : Reading → Window → Prop) (s : Reading) : List Window → Prop
  | [] => True
  | w :: ws => P s w ∧ ∀ t, s.step w = some t → Throughout P t ws

/-- The state after some of the items. -/
structure After (is : List (List Packet)) (s : Reading) (rest : List (List Packet)) : Prop where
  split : ∃ done, is = done ++ rest ∧ s.consumed = (trace done.flatten).length ∧ s.written = payloads done.flatten

/-- **A window.** -/
theorem step_after {rest : List (List Packet)} {s : Reading} {w : Window} (hitems : ∀ item ∈ is, IsItem item)
    (h : After is s rest) (hcontinues : Continues (trace is.flatten) s w) (hmeets : Meets is s w) :
    ∃ t rest', s.step w = some t ∧ After is t rest' ∧ s.consumed ≤ t.consumed ∧
      t.consumed ≤ s.consumed + w.bytes.length ∧
      ∀ p ps, rest.flatten = p :: ps → p.bytes.length ≤ w.bytes.length → s.consumed < t.consumed := by
  obtain ⟨done, his, hconsumed, hwritten⟩ := h.split
  have hlen : w.bytes.length = w.main.length + (w.secondary.getD []).length := length_append
  have hmay : MayEnd rest w.main.length (w.secondary.getD []).length := by
    refine MayEnd.drop done rest ?_
    rw [← his, ← hconsumed]
    exact hmeets
  have hbytes : (trace is.flatten).drop s.consumed = trace rest.flatten := by
    rw [his, flatten_append, trace_append, hconsumed, drop_left]
  have hat : At (.new w.main w.secondary) (trace rest.flatten) w.main.length (w.secondary.getD []).length := by
    obtain ⟨more, hmore⟩ := hcontinues
    rw [hbytes] at hmore
    rw [← hmore]
    refine ⟨?_, (Nat.zero_add _).symm, ?_, rfl⟩
    · rw [Window.bytes, append_assoc, take_left]
      rfl
    · rw [Window.bytes, append_assoc, drop_left, take_left]
      rfl
  have hruns := runs_items (fun i hi => hitems i (by rw [his]; exact mem_append_right _ hi)) hat hmay
  have hdecode := hruns.decode
  generalize htaken : taken (w.secondary.getD []).length rest w.main.length = now at hruns hdecode
  obtain ⟨rest', hrest⟩ := taken_append (w.secondary.getD []).length rest w.main.length
  have hle := taken_length (w.secondary.getD []).length rest w.main.length
  rw [htaken] at hrest hle
  have hposition : ((Decoder.new w.main w.secondary).step (trace now.flatten).length).position
      = (trace now.flatten).length := Nat.zero_add _
  rw [hposition] at hdecode
  refine ⟨⟨s.consumed + (trace now.flatten).length, s.written ++ payloads now.flatten⟩, rest', ?_, ⟨done ++ now, ?_, ?_, ?_⟩,
    Nat.le_add_right _ _, ?_, ?_⟩
  · unfold Reading.step
    rw [hdecode]
    rfl
  · rw [append_assoc, ← hrest, his]
  · rw [flatten_append, trace_append, length_append, hconsumed]
  · rw [flatten_append, payloads_append, hwritten]
  · change s.consumed + _ ≤ _
    omega
  · intro p ps hp hcomplete
    have hmain : 0 < w.main.length := length_pos_iff.mpr w.main_ne
    obtain ⟨item, is', rfl⟩ : ∃ item is', rest = item :: is' := by
      cases rest with
      | nil => cases hp
      | cons item is' => exact ⟨item, is', rfl⟩
    have hitem := hitems item (by rw [his]; simp)
    have hpos := taken_pos (n := (w.secondary.getD []).length) is' hitem hmain
      (hmay.complete hitem hp (by omega) (by omega))
    rw [htaken] at hpos
    change s.consumed < s.consumed + _
    omega

/-- **A run.** -/
theorem run_after (hitems : ∀ item ∈ is, IsItem item) :
    ∀ {ws : List Window} {s : Reading} {rest : List (List Packet)}, After is s rest →
      Throughout (Continues (trace is.flatten)) s ws → Throughout (Meets is) s ws →
      ∃ t rest', s.run ws = some t ∧ After is t rest'
  | [], s, rest, h, _, _ => ⟨s, rest, rfl, h⟩
  | w :: ws, s, rest, h, hcontinues, hmeets => by
    obtain ⟨t, rest', hstep, hafter, -⟩ := step_after hitems h hcontinues.1 hmeets.1
    obtain ⟨t', rest'', hrun, hafter'⟩ := run_after hitems hafter (hcontinues.2 t hstep) (hmeets.2 t hstep)
    refine ⟨t', rest'', ?_, hafter'⟩
    unfold Reading.run
    rw [hstep]
    exact hrun

theorem cut_unique {before after before' after' : List Packet} (h : before ++ after = before' ++ after')
    (hlen : (trace before).length = (trace before').length) : before = before' ∧ after = after' := by
  have hnil : ∀ ps : List Packet, (trace ps).length = 0 → ps = [] := fun ps hps => by
    cases ps with
    | nil => rfl
    | cons p ps =>
      have hpos := p.bytes_pos
      rw [trace_cons, length_append] at hps
      omega
  rcases append_eq_append_iff.mp h with ⟨mid, hb, ha⟩ | ⟨mid, hb, ha⟩
  · rw [hb, trace_append, length_append] at hlen
    have hmid := hnil mid (by omega)
    rw [hmid, append_nil] at hb
    rw [hmid, nil_append] at ha
    exact ⟨hb.symm, ha⟩
  · rw [hb, trace_append, length_append] at hlen
    have hmid := hnil mid (by omega)
    rw [hmid, append_nil] at hb
    rw [hmid, nil_append] at ha
    exact ⟨hb, ha.symm⟩

/-- **However a trace is delivered in windows that meet the condition, the decoder does not panic, and what it
has written are the payloads of the packets that it has consumed; in the end those of the whole trace, as
decoding it at once gives them.  From each window it consumes no more than is there, and something once the
next packet has arrived.** -/
theorem windows_decode_trace (packets : List Packet) (is : List (List Packet)) (ws : List Window)
    (hitems : items packets = some is) (hcontinues : Throughout (Continues (trace packets)) .start ws)
    (hmeets : Throughout (Meets is) .start ws) :
    decode (trace packets) none = some (payloads packets, (trace packets).length) ∧
    ∃ s, Reading.start.run ws = some s ∧
      (∃ done rest, packets = done ++ rest ∧ s.consumed = (trace done).length ∧ s.written = payloads done) ∧
      (s.consumed = (trace packets).length → s.written = payloads packets) ∧
      ∀ w, Continues (trace packets) s w → Meets is s w →
        ∃ t, s.step w = some t ∧ s.consumed ≤ t.consumed ∧ t.consumed ≤ s.consumed + w.bytes.length ∧
          ∀ before p after, packets = before ++ p :: after → s.consumed = (trace before).length →
            p.bytes.length ≤ w.bytes.length → s.consumed < t.consumed := by
  obtain ⟨hflatten, hisItem⟩ := items_spec hitems
  rw [← hflatten] at hcontinues
  have hstart : After is .start is := ⟨[], rfl, rfl, rfl⟩
  obtain ⟨s, rest, hrun, hafter⟩ := run_after hisItem hstart hcontinues hmeets
  obtain ⟨done, his, hconsumed, hwritten⟩ := hafter.split
  have hpackets : packets = done.flatten ++ rest.flatten := by
    rw [← hflatten, his, flatten_append]
  refine ⟨decode_trace hitems, s, hrun, ⟨done.flatten, rest.flatten, hpackets, hconsumed, hwritten⟩, fun hall => ?_,
    fun w hw hmeet => ?_⟩
  · have hend : done.flatten ++ rest.flatten = packets ++ [] := by rw [append_nil, ← hpackets]
    rw [hwritten, (cut_unique hend (hconsumed.symm.trans hall)).1]
  · rw [← hflatten] at hw
    obtain ⟨t, rest', hstep, -, hle, hbound, hprogress⟩ := step_after hisItem hafter hw hmeet
    refine ⟨t, hstep, hle, hbound, fun before p after hbefore hlen => ?_⟩
    have hcut := cut_unique (hpackets.symm.trans hbefore) (hconsumed.symm.trans hlen)
    exact hprogress p after hcut.2

/-- A PTW packet whose payload comes later, at the start of the ring. -/
theorem windows_decode_trace_ring : ∃ s, Reading.start.run [⟨Packet.psb.bytes ++ [0x02, 0x32], none, by decide⟩,
        ⟨[0x02, 0x32], some [1, 2, 3, 4, 5, 6, 7, 8], by decide⟩] = some s ∧
      s.consumed = 26 ∧ s.written = payloads [.psb, .ptw #v[1, 2, 3, 4, 5, 6, 7, 8]] := by
  have hmay : ∀ n, MayEnd [[.psb], [.ptw #v[1, 2, 3, 4, 5, 6, 7, 8]]] 18 n := by
    intro n before item after his hlt hgt
    rcases before with _ | ⟨first, _ | ⟨second, before⟩⟩
    · cases his
      exact absurd hgt (by decide)
    · cases his
      refine ⟨by decide, ?_⟩
      rw [if_pos (by decide)]
      decide
    · simp at his
  obtain ⟨-, s, hrun, -, hall, -⟩ := windows_decode_trace [.psb, .ptw #v[1, 2, 3, 4, 5, 6, 7, 8]]
    [[.psb], [.ptw #v[1, 2, 3, 4, 5, 6, 7, 8]]]
    [⟨Packet.psb.bytes ++ [0x02, 0x32], none, by decide⟩, ⟨[0x02, 0x32], some [1, 2, 3, 4, 5, 6, 7, 8], by decide⟩] rfl
    ⟨by unfold Continues; decide, fun t ht => by
      cases ht
      exact ⟨by unfold Continues; decide, fun _ _ => trivial⟩⟩
    ⟨by exact hmay 0, fun t ht => by
      cases ht
      exact ⟨hmay 8, fun _ _ => trivial⟩⟩
  have hconsumed : s.consumed = 26 := by
    cases hrun
    rfl
  exact ⟨s, hrun, hconsumed, hall hconsumed⟩

/-- **Without the condition neither holds.**  The decoder panics if a window ends inside of the payload of a
PTW packet; and if a window ends inside of a PSB packet, bytes that have not arrived are reported as
consumed. -/
theorem not_windows_decode_trace :
    (¬ ∀ packets ws, Throughout (Continues (trace packets)) .start ws → ∃ s, Reading.start.run ws = some s) ∧
    ¬ ∀ packets w t, Continues (trace packets) .start w → Reading.start.step w = some t →
      t.consumed ≤ w.bytes.length := by
  refine ⟨fun h => ?_, fun h => ?_⟩
  · obtain ⟨s, hs⟩ := h [.ptw #v[1, 2, 3, 4, 5, 6, 7, 8]] [⟨[0x02, 0x32, 1], none, by decide⟩]
      ⟨by unfold Continues; decide, fun _ _ => trivial⟩
    cases hs
  · have hle := h [.psb] ⟨[0x02, 0x82, 0x02], none, by decide⟩ _ (by unfold Continues; decide) rfl
    exact absurd hle (by decide)

end Icewind.Ptwrite
