import Icewind.Lib.Ring

/-!
# The shared ring buffer

Model of `common/src/ringbuffer.rs`: one producer and one consumer over shared memory, with head
and tail as running counters in the header.

* `RingBuffer.write`, `RingBuffer.read` — as the code computes them; `none` is a panic.
* `Session` — a ring buffer with the bytes accepted and consumed so far.
* `Delivered` — the consumed bytes are a prefix of the accepted ones, and the rest is still there.

A buffer that is completely full has equal wrapped indices, and the code takes it for an empty one:
`write` offers the whole buffer and `read` runs into `unreachable!()`.  `run_delivers` is the
correctness of every run that does not go on from there.
-/

namespace Icewind.Common

open List

/-- `usize` addition: overflow panics or wraps, as the build has it. -/
def addUsize (overflowChecks : Bool) (x y : Nat) : Option Nat :=
  if x + y < 2 ^ 64 then some (x + y)
  else if overflowChecks then none else some ((x + y) % 2 ^ 64)

/-- `MaybeSplitBuffer`, what a reader is shown. -/
inductive MaybeSplitBuffer where
  | single (buf : List UInt8)
  | split (a b : List UInt8)

namespace MaybeSplitBuffer

def bytes : MaybeSplitBuffer → List UInt8
  | single buf => buf
  | split a b => a ++ b

def len : MaybeSplitBuffer → Nat
  | single buf => buf.length
  | split a b => a.length + b.length

theorem len_eq (buf : MaybeSplitBuffer) : buf.len = buf.bytes.length := by
  cases buf <;> simp [len, bytes]

end MaybeSplitBuffer

/-- The header fields and the buffer behind them. -/
structure RingBuffer where
  capacity : Nat
  head : Nat
  tail : Nat
  buffer : List UInt8

/-- `buf[start..][..src.len()].copy_from_slice(src)`. -/
def copyAt (buf : List UInt8) (start : Nat) (src : List UInt8) : List UInt8 :=
  buf.take start ++ src ++ buf.drop (start + src.length)

namespace RingBuffer

/-- `init`: the capacity is the length of the memory behind the header. -/
def init (buffer : List UInt8) : RingBuffer := ⟨buffer.length, 0, 0, buffer⟩

/-- The lengths of the slices `a`, from the wrapped head on, and `b`, from the start of the buffer. -/
def freeSlices (rb : RingBuffer) : Nat × Nat :=
  let headWrapped := rb.head % rb.capacity
  let tailWrapped := rb.tail % rb.capacity
  if tailWrapped ≤ headWrapped then (rb.buffer.length - headWrapped, tailWrapped)
  else (tailWrapped - headWrapped, 0)

/-- `write`, with the number of bytes written.  The remainder by a capacity of zero panics. -/
def write (overflowChecks : Bool) (rb : RingBuffer) (data : List UInt8) : Option (Nat × RingBuffer) :=
  if rb.capacity < data.length ∨ rb.capacity = 0 then none
  else
    let a := rb.freeSlices.1
    let b := rb.freeSlices.2
    let total := min (a + b) data.length
    let firstWrite := min a data.length
    let buffer := copyAt rb.buffer (rb.head % rb.capacity) (data.take firstWrite)
    let buffer :=
      if firstWrite < total then copyAt buffer 0 ((data.take total).drop firstWrite) else buffer
    (addUsize overflowChecks rb.head total).map fun head =>
      (total, { rb with head := head, buffer := buffer })

/-- What `read` shows to its callback: nothing if head and tail agree. -/
def shown (rb : RingBuffer) : Option (Option MaybeSplitBuffer) :=
  if rb.head = rb.tail then some none
  else if rb.capacity = 0 then none
  else
    let headWrapped := rb.head % rb.capacity
    let tailWrapped := rb.tail % rb.capacity
    if headWrapped = tailWrapped then none
    else if tailWrapped < headWrapped then
      some (some (.single ((rb.buffer.take headWrapped).drop tailWrapped)))
    else
      some (some (.split ((rb.buffer.take rb.capacity).drop tailWrapped) (rb.buffer.take headWrapped)))

/-- `read` with a callback that says how many bytes it consumed. -/
def read (overflowChecks : Bool) (rb : RingBuffer) (f : MaybeSplitBuffer → Nat) : Option RingBuffer :=
  match rb.shown with
  | none => none
  | some none => some rb
  | some (some buf) =>
    (addUsize overflowChecks (f buf) rb.tail).map fun tail => { rb with tail := tail }

end RingBuffer

/-- A ring buffer with its history: the accepted bytes of all writes and the consumed bytes of all
reads, in order. -/
structure Session where
  ring : RingBuffer
  accepted : List UInt8
  consumed : List UInt8

inductive Call where
  | write (data : List UInt8)
  | read (f : MaybeSplitBuffer → Nat)

/-- A write is at most as long as the capacity; a callback consumes at most what it is shown. -/
def Call.WellBehaved (capacity : Nat) : Call → Prop
  | .write data => data.length ≤ capacity
  | .read f => ∀ buf, f buf ≤ buf.len

namespace Session

def fresh (buffer : List UInt8) : Session := ⟨.init buffer, [], []⟩

def step (overflowChecks : Bool) (s : Session) : Call → Option Session
  | .write data =>
    (s.ring.write overflowChecks data).map fun r =>
      { s with ring := r.2, accepted := s.accepted ++ data.take r.1 }
  | .read f =>
    (s.ring.read overflowChecks f).map fun ring =>
      { s with
        ring := ring
        consumed := s.consumed ++
          match s.ring.shown with
          | some (some buf) => buf.bytes.take (f buf)
          | _ => [] }

/-- The calls of both sides in the order in which they happen. -/
def run (overflowChecks : Bool) : List Call → Session → Option Session
  | [], s => some s
  | c :: cs, s => (s.step overflowChecks c).bind (run overflowChecks cs)

/-- The unread bytes. -/
def unread (s : Session) : List UInt8 := s.accepted.drop s.consumed.length

/-- The bytes consumed are the first of the bytes accepted, every other accepted byte is still in
its cell, and a reader is shown exactly those. -/
structure Delivered (s : Session) : Prop where
  inOrder : s.consumed <+: s.accepted
  kept : Ring.Holds s.ring.capacity (fun i => s.ring.buffer[i]?) s.accepted s.consumed.length
  handed : ∀ buf, s.ring.shown = some (some buf) → buf.bytes = s.unread

/-- No read and no write of data is made on a completely full buffer, and the head counter does not
reach the end of `usize`. -/
def Roomy (s : Session) : Call → Prop
  | .write data => (data = [] ∨ s.ring.head < s.ring.tail + s.ring.capacity) ∧
      s.ring.head + data.length < 2 ^ 64
  | .read _ => s.ring.head < s.ring.tail + s.ring.capacity

/-- Every step of the run is roomy. -/
def RoomyRun (overflowChecks : Bool) : List Call → Session → Prop
  | [], _ => True
  | c :: cs, s => s.Roomy c ∧ ∀ s', s.step overflowChecks c = some s' → RoomyRun overflowChecks cs s'

end Session

/-! ### The invariant -/

/-- Head and tail count the accepted and the consumed bytes, and the unread bytes are in place. -/
structure Session.Inv (capacity : Nat) (s : Session) : Prop where
  capacity_eq : s.ring.capacity = capacity
  length_eq : s.ring.buffer.length = capacity
  head_eq : s.ring.head = s.accepted.length
  tail_eq : s.ring.tail = s.consumed.length
  head_lt : s.ring.head < 2 ^ 64
  bounded : s.accepted.length ≤ s.consumed.length + capacity
  inOrder : s.consumed <+: s.accepted
  kept : Ring.Holds capacity (fun i => s.ring.buffer[i]?) s.accepted s.consumed.length

variable {buf src : List UInt8}

theorem getElem?_copyAt {start : Nat} (h : start + src.length ≤ buf.length) (i : Nat) :
    (copyAt buf start src)[i]? =
      if start ≤ i ∧ i < start + src.length then src[i - start]? else buf[i]? := by
  have htake : (buf.take start).length = start := by rw [length_take]; omega
  unfold copyAt
  by_cases hlow : i < start
  · rw [if_neg (by omega), append_assoc, List.getElem?_append_left (by omega), List.getElem?_take_of_lt hlow]
  · by_cases hmid : i < start + src.length
    · rw [if_pos (by omega), List.getElem?_append_left (by rw [length_append]; omega),
        List.getElem?_append_right (by omega), htake]
    · rw [if_neg (by omega), List.getElem?_append_right (by rw [length_append]; omega),
        List.getElem?_drop, length_append, htake]
      congr 1
      omega

theorem length_copyAt {start : Nat} (h : start + src.length ≤ buf.length) :
    (copyAt buf start src).length = buf.length := by
  simp only [copyAt, length_append, length_take, length_drop]
  omega

/-- The wrapped head in terms of the wrapped tail and the number of unread bytes. -/
theorem wrapped_head {n head tail : Nat} (hn : 0 < n) (hle : tail ≤ head) (hroom : head < tail + n) :
    (tail % n + (head - tail) < n ∧ head % n = tail % n + (head - tail)) ∨
    (n ≤ tail % n + (head - tail) ∧ head % n = tail % n + (head - tail) - n) := by
  have hsum : head = tail + (head - tail) := by omega
  by_cases h : tail % n + (head - tail) < n
  · exact .inl ⟨h, by rw [← Ring.add_mod_of_lt h, ← hsum]⟩
  · have hge : n ≤ tail % n + (head - tail) := by omega
    exact .inr ⟨hge, by rw [← Ring.add_mod_of_ge (by omega) hn hge, ← hsum]⟩

variable {data : List UInt8}

namespace RingBuffer

/-- What `write` leaves: it accepts as much as there is room for, and puts it behind the head. -/
structure Written (rb rb' : RingBuffer) (data : List UInt8) (total : Nat) : Prop where
  le : total ≤ data.length
  room : rb.head + total ≤ rb.tail + rb.capacity
  capacity_eq : rb'.capacity = rb.capacity
  length_eq : rb'.buffer.length = rb.buffer.length
  head_eq : rb'.head = rb.head + total
  tail_eq : rb'.tail = rb.tail
  new : ∀ j < total, rb'.buffer[(rb.head + j) % rb.capacity]? = data[j]?
  old : ∀ i, (∀ j < total, i ≠ (rb.head + j) % rb.capacity) → rb'.buffer[i]? = rb.buffer[i]?

variable {rb : RingBuffer}

theorem write_nil {overflowChecks : Bool} (hcap : 0 < rb.capacity) (hhead : rb.head < 2 ^ 64) :
    rb.write overflowChecks [] = some (0, rb) := by
  have hpos : ¬ rb.capacity = 0 := by omega
  have hadd : addUsize overflowChecks rb.head 0 = some rb.head := by
    rw [addUsize, if_pos (by omega), Nat.add_zero]
  simp [write, hpos, hadd, copyAt]

theorem freeSlices_spec (hlen : rb.buffer.length = rb.capacity) (hcap : 0 < rb.capacity)
    (hle : rb.tail ≤ rb.head) (hroom : rb.head < rb.tail + rb.capacity) :
    rb.freeSlices.1 + rb.freeSlices.2 = rb.capacity - (rb.head - rb.tail) ∧
    rb.head % rb.capacity + rb.freeSlices.1 ≤ rb.capacity ∧
    (0 < rb.freeSlices.2 → rb.head % rb.capacity + rb.freeSlices.1 = rb.capacity) ∧
    rb.freeSlices.2 ≤ rb.head % rb.capacity := by
  have ht : rb.tail % rb.capacity < rb.capacity := Nat.mod_lt _ hcap
  have hwrap := wrapped_head hcap hle hroom
  unfold freeSlices
  dsimp only
  split
  · dsimp only
    omega
  · dsimp only
    omega

/-- **A write on a buffer that is not full** puts the bytes it accepts into free cells. -/
theorem write_spec (overflowChecks : Bool) (hlen : rb.buffer.length = rb.capacity) (hcap : 0 < rb.capacity)
    (hle : rb.tail ≤ rb.head) (hroom : rb.head < rb.tail + rb.capacity) (hdata : data.length ≤ rb.capacity)
    (hover : rb.head + data.length < 2 ^ 64) :
    ∃ total rb', rb.write overflowChecks data = some (total, rb') ∧ Written rb rb' data total := by
  obtain ⟨hsum, ha, hb, hbh⟩ := freeSlices_spec hlen hcap hle hroom
  unfold write
  rw [if_neg (by omega)]
  dsimp only
  generalize rb.freeSlices.1 = a at *
  generalize rb.freeSlices.2 = b at *
  have hfirst : (data.take (min a data.length)).length = min a data.length := by
    rw [length_take]
    omega
  have hbound1 : rb.head % rb.capacity + (data.take (min a data.length)).length ≤ rb.buffer.length := by omega
  have hget1 := getElem?_copyAt hbound1
  have hlen1 := length_copyAt hbound1
  rw [hfirst] at hget1
  -- the part of the data that goes behind the head, before the end of the buffer
  have hsrc : ∀ k < min a data.length, (data.take (min a data.length))[k]? = data[k]? :=
    fun k hk => List.getElem?_take_of_lt hk
  have hadd : addUsize overflowChecks rb.head (min (a + b) data.length) =
      some (rb.head + min (a + b) data.length) := by
    rw [addUsize, if_pos (by omega)]
  rw [hadd]
  refine ⟨_, _, rfl, ?_⟩
  by_cases hwrap : min a data.length < min (a + b) data.length
  · -- the data goes on at the start of the buffer
    have hrest : ((data.take (min (a + b) data.length)).drop (min a data.length)).length =
        min (a + b) data.length - min a data.length := by
      rw [length_drop, length_take]
      omega
    have hbound2 : 0 + ((data.take (min (a + b) data.length)).drop (min a data.length)).length ≤
        (copyAt rb.buffer (rb.head % rb.capacity) (data.take (min a data.length))).length := by
      omega
    have hget2 := getElem?_copyAt hbound2
    have hlen2 := length_copyAt hbound2
    rw [hrest] at hget2
    simp only [if_pos hwrap]
    constructor
    case le | room => omega
    case capacity_eq => rfl
    case length_eq => exact hlen2.trans hlen1
    case head_eq | tail_eq => rfl
    case new =>
      intro j hj
      by_cases hja : j < a
      · have hpos : (rb.head + j) % rb.capacity = rb.head % rb.capacity + j :=
          Ring.add_mod_of_lt (by omega)
        rw [hget2, if_neg (by omega), hget1, if_pos (by omega), hpos, Nat.add_sub_cancel_left]
        exact hsrc j (by omega)
      · have hpos : (rb.head + j) % rb.capacity = rb.head % rb.capacity + j - rb.capacity :=
          Ring.add_mod_of_ge (by omega) hcap (by omega)
        rw [hget2, if_pos (by omega), List.getElem?_drop, List.getElem?_take_of_lt (by omega)]
        congr 1
        omega
    case old =>
      intro i hi
      have hlow : ¬ (0 ≤ i ∧ i < 0 + (min (a + b) data.length - min a data.length)) := by
        rintro ⟨-, hlt⟩
        refine hi (a + i) (by omega) ?_
        rw [Ring.add_mod_of_ge (by omega) hcap (by omega)]
        omega
      have hhigh : ¬ (rb.head % rb.capacity ≤ i ∧ i < rb.head % rb.capacity + min a data.length) := by
        rintro ⟨hge, hlt⟩
        refine hi (i - rb.head % rb.capacity) (by omega) ?_
        rw [Ring.add_mod_of_lt (by omega)]
        omega
      rw [hget2, if_neg hlow, hget1, if_neg hhigh]
  · -- everything fits before the end of the buffer
    have htotal : min (a + b) data.length = min a data.length := by omega
    simp only [if_neg hwrap]
    rw [htotal]
    constructor
    case le | room => omega
    case capacity_eq => rfl
    case length_eq => exact hlen1
    case head_eq | tail_eq => rfl
    case new =>
      intro j hj
      have hpos : (rb.head + j) % rb.capacity = rb.head % rb.capacity + j :=
        Ring.add_mod_of_lt (by omega)
      rw [hget1, if_pos (by omega), hpos, Nat.add_sub_cancel_left]
      exact hsrc j hj
    case old =>
      intro i hi
      have hhigh : ¬ (rb.head % rb.capacity ≤ i ∧ i < rb.head % rb.capacity + min a data.length) := by
        rintro ⟨hge, hlt⟩
        refine hi (i - rb.head % rb.capacity) (by omega) ?_
        rw [Ring.add_mod_of_lt (by omega)]
        omega
      rw [hget1, if_neg hhigh]

end RingBuffer

namespace Session

variable {capacity : Nat} {s : Session}

/-- **A reader of a buffer that is not full** is shown the unread bytes, if there are any. -/
theorem Inv.shown (hs : s.Inv capacity) (hcap : 0 < capacity)
    (hroom : s.ring.head < s.ring.tail + s.ring.capacity) :
    (s.ring.shown = some none ∧ s.unread = []) ∨
    ∃ buf, s.ring.shown = some (some buf) ∧ buf.bytes = s.unread := by
  have hle : s.consumed.length ≤ s.accepted.length := hs.inOrder.length_le
  have hhead := hs.head_eq
  have htail := hs.tail_eq
  have hlen := hs.length_eq
  have hcapacity := hs.capacity_eq
  unfold RingBuffer.shown
  by_cases heq : s.ring.head = s.ring.tail
  · rw [if_pos heq]
    exact .inl ⟨rfl, drop_eq_nil_of_le (by omega)⟩
  rw [if_neg heq, if_neg (by omega)]
  have hcell : ∀ j, s.ring.tail + j < s.ring.head →
      s.ring.buffer[(s.ring.tail + j) % s.ring.capacity]? = s.unread[j]? := by
    intro j hj
    have hkept := hs.kept (s.ring.tail + j) (by omega) (by omega)
    rw [hcapacity, unread, List.getElem?_drop, ← htail]
    exact hkept
  have hunread : s.unread.length = s.ring.head - s.ring.tail := by
    rw [unread, length_drop]
    omega
  have ht : s.ring.tail % s.ring.capacity < s.ring.capacity := Nat.mod_lt _ (by omega)
  rcases wrapped_head (by omega) (show s.ring.tail ≤ s.ring.head by omega) hroom with h | h
  · rw [if_neg (by omega), if_pos (by omega)]
    refine .inr ⟨_, rfl, ?_⟩
    apply ext_getElem?
    intro j
    rw [MaybeSplitBuffer.bytes, List.getElem?_drop]
    by_cases hj : s.ring.tail + j < s.ring.head
    · rw [List.getElem?_take_of_lt (by omega), ← hcell j hj, Ring.add_mod_of_lt (by omega)]
    · rw [List.getElem?_eq_none (by rw [length_take]; omega), List.getElem?_eq_none (by omega)]
  · rw [if_neg (by omega), if_neg (by omega)]
    refine .inr ⟨_, rfl, ?_⟩
    have hsplit : ((s.ring.buffer.take s.ring.capacity).drop (s.ring.tail % s.ring.capacity)).length =
        s.ring.capacity - s.ring.tail % s.ring.capacity := by
      rw [length_drop, length_take]
      omega
    apply ext_getElem?
    intro j
    rw [MaybeSplitBuffer.bytes]
    by_cases hlow : j < s.ring.capacity - s.ring.tail % s.ring.capacity
    · rw [List.getElem?_append_left (by omega), List.getElem?_drop,
        List.getElem?_take_of_lt (by omega), ← hcell j (by omega), Ring.add_mod_of_lt (by omega)]
    · rw [List.getElem?_append_right (by omega), hsplit]
      by_cases hj : s.ring.tail + j < s.ring.head
      · rw [List.getElem?_take_of_lt (by omega), ← hcell j hj,
          Ring.add_mod_of_ge (by omega) (by omega) (by omega)]
        congr 1
        omega
      · rw [List.getElem?_eq_none (by rw [length_take]; omega), List.getElem?_eq_none (by omega)]

theorem Inv.fresh (buffer : List UInt8) : (Session.fresh buffer).Inv buffer.length where
  capacity_eq := rfl
  length_eq := rfl
  head_eq := rfl
  tail_eq := rfl
  head_lt := by simp [Session.fresh, RingBuffer.init]
  bounded := Nat.zero_le _
  inOrder := prefix_rfl
  kept := Ring.Holds.nil

variable {overflowChecks : Bool}

section

variable (hs : s.Inv capacity) (hcap : 0 < capacity)

include hs hcap

/-- **A write keeps the invariant.** -/
theorem Inv.write (hdata : data.length ≤ capacity)
    (hroomy : s.Roomy (.write data)) :
    ∃ s', s.step overflowChecks (.write data) = some s' ∧ s'.Inv capacity := by
  have hcapacity := hs.capacity_eq
  have hle : s.ring.tail ≤ s.ring.head := by
    rw [hs.tail_eq, hs.head_eq]
    exact hs.inOrder.length_le
  obtain ⟨hroom, hover⟩ := hroomy
  rcases hroom with rfl | hroom
  · refine ⟨s, ?_, hs⟩
    rw [step, RingBuffer.write_nil (by omega) hs.head_lt]
    simp
  obtain ⟨total, rb', hwrite, hw⟩ := RingBuffer.write_spec overflowChecks
    (hs.length_eq.trans hcapacity.symm) (by omega) hle hroom (by omega) hover
  have hhead := hs.head_eq
  have htail := hs.tail_eq
  have htotal := hw.le
  have htaken : (data.take total).length = total := by
    rw [length_take]
    omega
  refine ⟨{ s with ring := rb', accepted := s.accepted ++ data.take total }, by rw [step, hwrite]; rfl, ?_⟩
  constructor
  case capacity_eq => exact hw.capacity_eq.trans hcapacity
  case length_eq => exact hw.length_eq.trans hs.length_eq
  case head_eq => rw [length_append, htaken, ← hhead]; exact hw.head_eq
  case tail_eq => exact hw.tail_eq.trans htail
  case head_lt => have := hw.head_eq; dsimp only; omega
  case bounded => have := hw.room; rw [length_append]; dsimp only; omega
  case inOrder => exact hs.inOrder.trans (prefix_append ..)
  case kept =>
    have hroom' := hw.room
    refine hs.kept.append (by omega) (fun j hj => ?_) (fun i hi => ?_)
    · rw [← hhead, ← hcapacity, hw.new j (by omega), List.getElem?_take_of_lt (by omega)]
    · refine hw.old i fun j hj => ?_
      rw [hhead, hcapacity]
      exact hi j (by omega)

/-- **A read keeps the invariant.** -/
theorem Inv.read {f : MaybeSplitBuffer → Nat}
    (hf : ∀ buf, f buf ≤ buf.len) (hroomy : s.Roomy (.read f)) :
    ∃ s', s.step overflowChecks (.read f) = some s' ∧ s'.Inv capacity := by
  have hle : s.consumed.length ≤ s.accepted.length := hs.inOrder.length_le
  rcases hs.shown hcap hroomy with ⟨hshown, -⟩ | ⟨buf, hshown, hbytes⟩
  · refine ⟨s, ?_, hs⟩
    simp [step, RingBuffer.read, hshown]
  have hlen : f buf ≤ s.accepted.length - s.consumed.length := by
    have := hf buf
    rw [MaybeSplitBuffer.len_eq, hbytes, unread, length_drop] at this
    exact this
  have hhead := hs.head_eq
  have htail := hs.tail_eq
  have hlt := hs.head_lt
  have hadd : addUsize overflowChecks (f buf) s.ring.tail = some (f buf + s.ring.tail) := by
    rw [addUsize, if_pos (by omega)]
  have htaken : (s.unread.take (f buf)).length = f buf := by
    rw [length_take, unread, length_drop]
    omega
  refine ⟨{ s with
      ring := { s.ring with tail := f buf + s.ring.tail }
      consumed := s.consumed ++ s.unread.take (f buf) }, ?_, ?_⟩
  · simp only [step, RingBuffer.read, hshown, hadd, Option.map_some, hbytes]
  constructor
  case capacity_eq => exact hs.capacity_eq
  case length_eq => exact hs.length_eq
  case head_eq => exact hs.head_eq
  case tail_eq => rw [length_append, htaken]; dsimp only; omega
  case head_lt => exact hs.head_lt
  case bounded => have := hs.bounded; rw [length_append, htaken]; dsimp only; omega
  case inOrder =>
    have hpre : s.accepted = s.consumed ++ s.unread := by
      obtain ⟨rest, hrest⟩ := hs.inOrder
      rw [unread, ← hrest, drop_left]
    rw [hpre]
    exact (prefix_append_right_inj _).mpr (List.take_prefix ..)
  case kept => exact hs.kept.advance (by rw [length_append]; omega)

theorem Inv.step (overflowChecks : Bool) {c : Call}
    (hc : c.WellBehaved capacity) (hroomy : s.Roomy c) :
    ∃ s', s.step overflowChecks c = some s' ∧ s'.Inv capacity := by
  cases c with
  | write data => exact hs.write hcap hc hroomy
  | read f => exact hs.read hcap hc hroomy

end

theorem Inv.run (hcap : 0 < capacity) : ∀ {calls : List Call} {s : Session}, s.Inv capacity →
      (∀ c ∈ calls, c.WellBehaved capacity) → RoomyRun overflowChecks calls s →
      ∃ s', Session.run overflowChecks calls s = some s' ∧ s'.Inv capacity
  | [], s, hs, _, _ => ⟨s, rfl, hs⟩
  | c :: cs, s, hs, hwell, hroomy => by
    obtain ⟨s', hstep, hs'⟩ := hs.step hcap overflowChecks (hwell c mem_cons_self) hroomy.1
    obtain ⟨t, hrun, ht⟩ := Inv.run hcap hs' (fun c hc => hwell c (mem_cons_of_mem _ hc)) (hroomy.2 s' hstep)
    exact ⟨t, by rw [Session.run, hstep]; exact hrun, ht⟩

/-- The invariant gives what the user of the buffer wants.  On a completely full buffer nothing is
shown at all. -/
theorem Inv.delivered (hs : s.Inv capacity) (hcap : 0 < capacity) : s.Delivered where
  inOrder := hs.inOrder
  kept := by rw [hs.capacity_eq]; exact hs.kept
  handed := by
    intro buf hbuf
    by_cases hroom : s.ring.head < s.ring.tail + s.ring.capacity
    · rcases hs.shown hcap hroom with ⟨hnone, -⟩ | ⟨buf', hsome, hbytes⟩
      · rw [hnone] at hbuf
        cases hbuf
      · rw [hsome] at hbuf
        cases hbuf
        exact hbytes
    · have hfull : s.ring.head = s.ring.tail + s.ring.capacity := by
        have := hs.bounded
        have := hs.head_eq
        have := hs.tail_eq
        have := hs.capacity_eq
        omega
      have hne : ¬ s.ring.head = s.ring.tail := by have := hs.capacity_eq; omega
      have hpos : ¬ s.ring.capacity = 0 := by have := hs.capacity_eq; omega
      rw [RingBuffer.shown, if_neg hne, if_neg hpos] at hbuf
      rw [if_pos (by rw [hfull, Nat.add_mod_right])] at hbuf
      cases hbuf

/-- **Every run that makes no read and no write of data on a completely full buffer goes through
and delivers.** -/
theorem run_delivers (overflowChecks : Bool) (buffer : List UInt8) (hcap : 0 < buffer.length)
    (calls : List Call) (hwell : ∀ c ∈ calls, c.WellBehaved buffer.length)
    (hroomy : RoomyRun overflowChecks calls (fresh buffer)) :
    ∃ s, run overflowChecks calls (fresh buffer) = some s ∧ s.Delivered := by
  obtain ⟨s, hrun, hs⟩ := Inv.run hcap (Inv.fresh buffer) hwell hroomy
  exact ⟨s, hrun, hs.delivered hcap⟩

theorem RoomyRun.cons {c : Call} {cs : List Call} {s' : Session} (hroomy : s.Roomy c)
    (hstep : s.step overflowChecks c = some s') (hrun : RoomyRun overflowChecks cs s') :
    RoomyRun overflowChecks (c :: cs) s := by
  refine ⟨hroomy, fun t ht => ?_⟩
  rw [hstep] at ht
  cases ht
  exact hrun

/-- Two cells: write one byte, read it, then fill the buffer across its end. -/
theorem run_delivers_across_end :
    ∃ s, run true [.write [1], .read fun buf => buf.len, .write [2, 3]] (fresh [0, 0]) = some s ∧
      s.Delivered := by
  refine run_delivers true [0, 0] (by decide) _ ?_ ?_
  · intro c hc
    simp only [mem_cons, not_mem_nil, or_false] at hc
    rcases hc with rfl | rfl | rfl
    · exact (by decide : 1 ≤ 2)
    · exact fun buf => Nat.le_refl _
    · exact Nat.le_refl 2
  · refine RoomyRun.cons ⟨.inr (by decide), by decide⟩ rfl ?_
    refine RoomyRun.cons (by decide : 1 < 0 + 2) rfl ?_
    exact RoomyRun.cons ⟨.inr (by decide), by decide⟩ rfl trivial

/-- A buffer of one byte is full after one byte, and the next read panics. -/
theorem full_read_panics : ¬ ∀ (overflowChecks : Bool) (buffer : List UInt8) (calls : List Call),
      0 < buffer.length → (∀ c ∈ calls, c.WellBehaved buffer.length) →
      ∃ s, run overflowChecks calls (fresh buffer) = some s ∧ s.Delivered := by
  intro h
  obtain ⟨s, hrun, -⟩ := h true [0] [.write [7], .read fun _ => 0] (by decide) (by
    intro c hc
    simp only [mem_cons, not_mem_nil, or_false] at hc
    rcases hc with rfl | rfl
    · exact Nat.le_refl 1
    · exact fun buf => Nat.zero_le _)
  cases hrun

end Session

end Icewind.Common
