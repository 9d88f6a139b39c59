import Icewind.Lib.Ring

/-!
# The virtio queue

Model of `brig/devices/virtio/src/queue/mod.rs`: the device takes descriptor heads from the
available ring, serves the block request behind each, and returns it through the used ring.

* `pop`, `push`, `collect`, `VirtQueueEvent.process`, `poll` — one pass of the loop of `process`;
  `none` is a panic or a descriptor chain that does not end.  `process` repeats `poll`.
* `Session` — the queue with the heads published and taken so far, moved by the guest publishing a
  head, the guest changing other memory, and the device polling.
* `ServedRun` — every poll takes the oldest published head and appends it to the used ring.

`pop` reads the available ring one slot too far.  `servedRun_of_meets` is the correctness of the
runs in which that slot holds the same head.
-/

namespace Icewind.Virtio

open List Option

/-! ### 16-bit counters -/

/-- `u16` addition of one: overflow panics or wraps, as the build has it. -/
def succU16 (overflowChecks : Bool) (x : Nat) : Option Nat :=
  if x + 1 < 2 ^ 16 then some (x + 1) else if overflowChecks then none else some 0

/-- `u16` subtraction. -/
def subU16 (overflowChecks : Bool) (x y : Nat) : Option Nat :=
  if y ≤ x then some (x - y) else if overflowChecks then none else some (x + 2 ^ 16 - y)

/-! ### The device -/

structure VirtRingDescr where
  addr : Nat
  length : Nat
  flags : Nat
  next : Nat

namespace VirtRingDescr

def hasNext (d : VirtRingDescr) : Bool := d.flags &&& 1 = 1

def isWrite (d : VirtRingDescr) : Bool := d.flags &&& 2 = 2

def isIndirect (d : VirtRingDescr) : Bool := d.flags &&& 4 = 4

end VirtRingDescr

inductive BlkReqType where
  | in_ | out | flush | getId | getLifetime | discard | writeZeroes | secureErase
  deriving DecidableEq

structure BlkReq where
  typ : BlkReqType
  sector : Nat

/-- `VirtQueueEventBuffer`. -/
structure Buffer where
  data : Nat
  size : Nat

/-- The memory of a queue as the device sees it, the counter it remembers, and all other memory. -/
structure Queue (μ : Type) where
  queueNum : Nat
  descriptors : Nat → VirtRingDescr
  availableIndex : Nat
  availableRing : Nat → Nat
  usedFlags : Nat
  usedIdx : Nat
  usedRing : Nat → Nat × Nat
  prevIdx : Nat
  memory : μ

namespace Queue

variable {μ : Type}

/-- `self.prev_idx = prevIdx`. -/
def setPrevIdx (q : Queue μ) (prevIdx : Nat) : Queue μ := { q with prevIdx := prevIdx }

def setMemory (q : Queue μ) (memory : μ) : Queue μ := { q with memory := memory }

/-- The used element of a head, and the used index after it. -/
def putUsed (q : Queue μ) (elementIndex size usedIdx : Nat) : Queue μ :=
  { q with
    usedRing := Function.update q.usedRing (q.usedIdx % q.queueNum) (elementIndex, size)
    usedIdx := usedIdx }

end Queue

/-- What the buffers mean: the request in front of one, and the effect of the two callbacks. -/
structure Backend (μ : Type) where
  request : μ → Nat → BlkReq
  readCallback : Buffer → Nat → μ → μ
  writeCallback : Buffer → Nat → μ → μ
  setStatus : Buffer → μ → μ

section Device

variable {μ : Type} (overflowChecks : Bool)

/-- `push`: the used element goes to the used index modulo the queue size. -/
def push (q : Queue μ) (elementIndex size : Nat) : Option (Queue μ) :=
  if q.queueNum = 0 ∨ q.usedFlags ≠ 0 then none
  else
    (succU16 overflowChecks q.usedIdx).map fun usedIdx => q.putUsed elementIndex size usedIdx

/-- `pop`: the outer `none` is a panic, the inner one an empty queue.  The slot is that of
`prev_idx + 1`, also where the index before the increment is meant. -/
def pop (q : Queue μ) : Option (Option (Nat × Queue μ)) :=
  match subU16 overflowChecks q.availableIndex q.prevIdx with
  | none => none
  | some numHeads =>
    if q.queueNum < numHeads then none
    else if numHeads = 0 then some none
    else
      match succU16 overflowChecks q.prevIdx with
      | none => none
      | some next =>
        let head := q.availableRing (next % q.queueNum)
        if head < q.queueNum then some (some (head, q.setPrevIdx next)) else none

/-- The buffers of a chain: those to be read and those to be written. -/
def collect (descriptors : Nat → VirtRingDescr) :
    Nat → VirtRingDescr → List Buffer → List Buffer → Option (List Buffer × List Buffer)
  | 0, _, _, _ => none
  | fuel + 1, d, reads, writes =>
    if d.isIndirect then none
    else
      let buffer : Buffer := ⟨d.addr, d.length⟩
      let reads := if d.isWrite then reads else reads ++ [buffer]
      let writes := if d.isWrite then writes ++ [buffer] else writes
      if d.hasNext then collect descriptors fuel (descriptors d.next) reads writes
      else some (reads, writes)

/-- The chain of a head.  A chain that ends visits no descriptor twice, and `next` has 16 bits. -/
def chain (q : Queue μ) (head : Nat) : Option (List Buffer × List Buffer) :=
  collect q.descriptors (2 ^ 16 + 1) (q.descriptors head) [] []

/-- `handle_read_event`: the data goes to the first write buffer, the status to the second. -/
def handleReadEvent (B : Backend μ) (sector : Nat) (reads writes : List Buffer) (memory : μ) :
    Option (Nat × μ) :=
  match reads, writes with
  | [_], [destination, status] =>
    if destination.size + 1 < 2 ^ 32 then
      some (1 + destination.size, B.setStatus status (B.readCallback destination sector memory))
    else if overflowChecks then none
    else some (0, B.setStatus status (B.readCallback destination sector memory))
  | _, _ => none

/-- `handle_write_event`: the data comes from the second read buffer. -/
def handleWriteEvent (B : Backend μ) (sector : Nat) (reads writes : List Buffer) (memory : μ) :
    Option (Nat × μ) :=
  match reads, writes with
  | [_, source], [status] =>
    some (1, B.setStatus status (B.writeCallback source sector memory))
  | _, _ => none

/-- `VirtQueueEvent::process` and `submit`.  An event without a buffer to read is dropped. -/
def processEvent (B : Backend μ) (q : Queue μ) (head : Nat) (reads writes : List Buffer) : Option (Queue μ) :=
  match reads with
  | [] => some q
  | first :: _ =>
    if first.size ≠ 16 then none
    else
      let req := B.request q.memory first.data
      let response :=
        match req.typ with
        | .in_ => handleReadEvent overflowChecks B req.sector reads writes q.memory
        | .out => handleWriteEvent B req.sector reads writes q.memory
        | _ => none
      response.bind fun r => push overflowChecks (q.setMemory r.2) head r.1

/-- One pass of the loop of `process`, with the head that was taken. -/
def poll (B : Backend μ) (q : Queue μ) : Option (Option Nat × Queue μ) :=
  match pop overflowChecks q with
  | none => none
  | some none => some (none, q)
  | some (some (head, q)) =>
    (chain q head).bind fun buffers =>
      (processEvent overflowChecks B q head buffers.1 buffers.2).map fun q => (some head, q)

/-- `process`: poll until the queue is empty, with the heads that were taken. -/
def process (B : Backend μ) : Nat → Queue μ → Option (List Nat × Queue μ)
  | 0, _ => none
  | fuel + 1, q =>
    match poll overflowChecks B q with
    | none => none
    | some (none, q) => some ([], q)
    | some (some head, q) => (process B fuel q).map fun r => (head :: r.1, r.2)

end Device

/-! ### Runs of guest and device -/

/-- A queue with its history: the heads published by the guest and those taken by the device. -/
structure Session (μ : Type) where
  queue : Queue μ
  published : List Nat
  taken : List Nat

inductive Event (μ : Type) where
  | publish (head : Nat)
  | scribble (descriptors : Nat → VirtRingDescr) (memory : μ)
  | poll

namespace Session

variable {μ : Type}

/-- A queue that has just been set up: all indices are zero. -/
def fresh (n : Nat) (q : Queue μ) : Session μ :=
  ⟨{ q with queueNum := n, availableIndex := 0, usedFlags := 0, usedIdx := 0, prevIdx := 0 }, [], []⟩

/-- The guest writes the head to the slot of the available index, and counts it modulo `2^16`. -/
def publish (s : Session μ) (head : Nat) : Session μ :=
  { s with
    queue := { s.queue with
      availableRing := Function.update s.queue.availableRing (s.queue.availableIndex % s.queue.queueNum) head
      availableIndex := (s.queue.availableIndex + 1) % 2 ^ 16 }
    published := s.published ++ [head] }

def step (overflowChecks : Bool) (B : Backend μ) (s : Session μ) : Event μ → Option (Session μ)
  | .publish head => some (s.publish head)
  | .scribble descriptors memory =>
    some { s with queue := { s.queue with descriptors := descriptors, memory := memory } }
  | .poll => (Virtio.poll overflowChecks B s.queue).map fun r =>
      { s with queue := r.2, taken := s.taken ++ r.1.toList }

/-- A guest that keeps to the protocol: heads are below `n`, and at most `n` are outstanding. -/
def Allowed (s : Session μ) : Event μ → Prop
  | .publish head => head < s.queue.queueNum ∧ s.published.length < s.taken.length + s.queue.queueNum
  | _ => True

/-- What a step has to do: a poll takes the oldest outstanding head, if there is one, and appends an
element with that head at the used index modulo `n`; no other step takes or returns anything. -/
def Serves (s : Session μ) (e : Event μ) (s' : Session μ) : Prop :=
  match e with
  | .poll =>
    match s.published[s.taken.length]? with
    | none => s' = s
    | some head =>
      s'.taken = s.taken ++ [head] ∧
      s'.queue.usedIdx = (s.queue.usedIdx + 1) % 2 ^ 16 ∧
      ∃ len, s'.queue.usedRing =
        Function.update s.queue.usedRing (s.queue.usedIdx % s.queue.queueNum) (head, len)
  | _ => s'.taken = s.taken ∧ s'.queue.usedIdx = s.queue.usedIdx ∧ s'.queue.usedRing = s.queue.usedRing

/-- Every allowed step of the run goes through and serves. -/
def ServedRun (overflowChecks : Bool) (B : Backend μ) : List (Event μ) → Session μ → Prop
  | [], _ => True
  | e :: es, s => s.Allowed e →
      ∃ s', s.step overflowChecks B e = some s' ∧ s.Serves e s' ∧ ServedRun overflowChecks B es s'

/-! ### When polls go well -/

/-- A request the device can serve: a chain that ends, with a header of 16 bytes in front and the
buffers that a read or a write needs. -/
def Servable (overflowChecks : Bool) (B : Backend μ) (q : Queue μ) (head : Nat) : Prop :=
  ∃ first reads writes, chain q head = some (first :: reads, writes) ∧ first.size = 16 ∧
    (((B.request q.memory first.data).typ = .in_ ∧ reads = [] ∧
        ∃ destination status, writes = [destination, status] ∧
          (overflowChecks = true → destination.size + 1 < 2 ^ 32)) ∨
      ((B.request q.memory first.data).typ = .out ∧ reads.length = 1 ∧ writes.length = 1))

/-- The condition on a step: where a head is outstanding when the device polls, the slots of the
previous index and of the one after it hold the same head, the request behind it can be served, and
the counters do not wrap in a build with overflow checks. -/
def Meets (overflowChecks : Bool) (B : Backend μ) (s : Session μ) : Event μ → Prop
  | .poll => s.taken.length < s.published.length →
      s.queue.availableRing ((s.queue.prevIdx + 1) % 2 ^ 16 % s.queue.queueNum) =
          s.queue.availableRing (s.queue.prevIdx % s.queue.queueNum) ∧
        Servable overflowChecks B s.queue (s.queue.availableRing (s.queue.prevIdx % s.queue.queueNum)) ∧
        (overflowChecks = true → s.published.length < 2 ^ 16)
  | _ => True

/-- Every step of the run meets the condition. -/
def MeetsRun (overflowChecks : Bool) (B : Backend μ) : List (Event μ) → Session μ → Prop
  | [], _ => True
  | e :: es, s => s.Meets overflowChecks B e ∧
      ∀ s', s.step overflowChecks B e = some s' → MeetsRun overflowChecks B es s'

/-- The indices count the heads modulo `2^16`, and the outstanding heads are in their slots. -/
structure Inv (n : Nat) (s : Session μ) : Prop where
  queueNum_eq : s.queue.queueNum = n
  flags_eq : s.queue.usedFlags = 0
  available_eq : s.queue.availableIndex = s.published.length % 2 ^ 16
  prev_eq : s.queue.prevIdx = s.taken.length % 2 ^ 16
  used_eq : s.queue.usedIdx = s.taken.length % 2 ^ 16
  taken_le : s.taken.length ≤ s.published.length
  bounded : s.published.length ≤ s.taken.length + n
  small : ∀ head ∈ s.published, head < n
  slots : Ring.Holds n (fun i => some (s.queue.availableRing i)) s.published s.taken.length

end Session

/-! ### The counters -/

variable {overflowChecks : Bool}

/-- Adding one to a count modulo `2^16`, where a build with overflow checks does not wrap. -/
theorem succU16_mod {x : Nat} (h : overflowChecks = true → x + 1 < 2 ^ 16) :
    succU16 overflowChecks (x % 2 ^ 16) = some ((x + 1) % 2 ^ 16) := by
  unfold succU16
  by_cases hwrap : x % 2 ^ 16 + 1 < 2 ^ 16
  · rw [if_pos hwrap, Ring.add_mod_of_lt hwrap]
  · rw [if_neg hwrap]
    have hoff : overflowChecks = false := by
      cases overflowChecks with
      | false => rfl
      | true => have := h rfl; omega
    rw [hoff, Ring.add_mod_of_ge (by decide) (by decide) (by omega)]
    simp only [Bool.false_eq_true, if_false, some.injEq]
    omega

/-- The number of outstanding heads from the two counters, while there are fewer than `2^16`. -/
theorem subU16_mod {x y : Nat} (hle : y ≤ x) (hlt : x < y + 2 ^ 16) (h : overflowChecks = true → x < 2 ^ 16) :
    subU16 overflowChecks (x % 2 ^ 16) (y % 2 ^ 16) = some (x - y) := by
  have hsum : x = y + (x - y) := by omega
  unfold subU16
  by_cases hwrap : y % 2 ^ 16 + (x - y) < 2 ^ 16
  · have hx : x % 2 ^ 16 = y % 2 ^ 16 + (x - y) := by
      rw [← Ring.add_mod_of_lt hwrap, ← hsum]
    rw [if_pos (by omega), hx, Nat.add_sub_cancel_left]
  · have hx : x % 2 ^ 16 = y % 2 ^ 16 + (x - y) - 2 ^ 16 := by
      rw [← Ring.add_mod_of_ge (by omega) (by decide) (by omega), ← hsum]
    have hoff : overflowChecks = false := by
      cases overflowChecks with
      | false => rfl
      | true => have := h rfl; omega
    rw [if_neg (by omega), hoff]
    simp only [Bool.false_eq_true, if_false, some.injEq]
    omega

namespace Session

variable {μ : Type} {n : Nat} {overflowChecks : Bool} {B : Backend μ} {s : Session μ}

theorem Inv.fresh (q : Queue μ) : (Session.fresh n q).Inv n where
  queueNum_eq := rfl
  flags_eq := rfl
  available_eq := rfl
  prev_eq := rfl
  used_eq := rfl
  taken_le := Nat.le_refl _
  bounded := Nat.zero_le _
  small := fun _ h => by cases h
  slots := Ring.Holds.nil

theorem Inv.oldest (hs : s.Inv n) (hdvd : n ∣ 2 ^ 16) (hpending : s.taken.length < s.published.length) :
    s.published[s.taken.length]? = some (s.queue.availableRing (s.queue.prevIdx % s.queue.queueNum)) := by
  rw [← hs.slots _ (Nat.le_refl _) hpending, hs.queueNum_eq, hs.prev_eq, Nat.mod_mod_of_dvd _ hdvd]

/-- **Publishing keeps the invariant.** -/
theorem Inv.publish (hs : s.Inv n) (hdvd : n ∣ 2 ^ 16) {head : Nat}
    (hallowed : s.Allowed (.publish head)) : (s.publish head).Inv n := by
  obtain ⟨hhead, hroom⟩ := hallowed
  rw [hs.queueNum_eq] at hhead hroom
  have hslot : s.queue.availableIndex % s.queue.queueNum = s.published.length % n := by
    rw [hs.available_eq, hs.queueNum_eq, Nat.mod_mod_of_dvd _ hdvd]
  constructor
  case queueNum_eq => exact hs.queueNum_eq
  case flags_eq => exact hs.flags_eq
  case available_eq =>
    simp only [Session.publish, length_append, length_singleton, hs.available_eq, Nat.mod_add_mod]
  case prev_eq => exact hs.prev_eq
  case used_eq => exact hs.used_eq
  case taken_le =>
    have := hs.taken_le
    simp only [Session.publish, length_append, length_singleton]
    omega
  case bounded =>
    simp only [Session.publish, length_append, length_singleton]
    omega
  case small =>
    intro h hmem
    rcases mem_append.mp hmem with hmem | hmem
    · exact hs.small h hmem
    · rw [mem_singleton.mp hmem]
      exact hhead
  case slots =>
    refine hs.slots.append ?_ (fun j hj => ?_) (fun i hi => ?_)
    · rw [length_singleton]
      omega
    · rw [length_singleton, Nat.lt_one_iff] at hj
      subst hj
      simp [Session.publish, hslot]
    · have hne := hi 0 (by simp)
      simp only [Session.publish, hslot, some.injEq]
      exact Function.update_of_ne hne ..

/-- A servable request is answered with one used element, and changes nothing else of the queue. -/
theorem processEvent_servable (overflowChecks : Bool) (B : Backend μ) (q : Queue μ) (head : Nat)
    {usedIdx : Nat} {first : Buffer} {reads writes : List Buffer} (hsize : first.size = 16) (hnum : q.queueNum ≠ 0)
    (hflags : q.usedFlags = 0) (hidx : succU16 overflowChecks q.usedIdx = some usedIdx)
    (hreq : ((B.request q.memory first.data).typ = .in_ ∧ reads = [] ∧
        ∃ destination status, writes = [destination, status] ∧
          (overflowChecks = true → destination.size + 1 < 2 ^ 32)) ∨
      ((B.request q.memory first.data).typ = .out ∧ reads.length = 1 ∧ writes.length = 1)) :
    ∃ len memory, processEvent overflowChecks B q head (first :: reads) writes =
      some ((q.setMemory memory).putUsed head len usedIdx) := by
  have hpush : ∀ (len : Nat) (memory : μ), push overflowChecks (q.setMemory memory) head len =
      some ((q.setMemory memory).putUsed head len usedIdx) := by
    intro len memory
    have hidx' : succU16 overflowChecks (q.setMemory memory).usedIdx = some usedIdx := hidx
    rw [push, if_neg (by simp [Queue.setMemory, hnum, hflags]), hidx', map_some]
  simp only [processEvent, hsize, ne_eq, not_true_eq_false, if_false]
  rcases hreq with ⟨htyp, rfl, destination, status, rfl, hfits⟩ | ⟨htyp, hreads, hwrites⟩
  · simp only [htyp, handleReadEvent]
    by_cases hlt : destination.size + 1 < 2 ^ 32
    · rw [if_pos hlt]
      exact ⟨_, _, hpush _ _⟩
    · have hoff : overflowChecks = false := by
        cases overflowChecks with
        | false => rfl
        | true => exact absurd (hfits rfl) hlt
      rw [if_neg hlt, if_neg (by simp [hoff])]
      exact ⟨_, _, hpush _ _⟩
  · obtain ⟨source, rfl⟩ := length_eq_one_iff.mp hreads
    obtain ⟨status, rfl⟩ := length_eq_one_iff.mp hwrites
    simp only [htyp, handleWriteEvent]
    exact ⟨_, _, hpush _ _⟩

/-- **A poll that meets the condition** takes the oldest outstanding head and keeps the invariant. -/
theorem Inv.poll (hs : s.Inv n) (hdvd : n ∣ 2 ^ 16) (hn : n < 2 ^ 16)
    (hmeets : s.Meets overflowChecks B .poll) :
    ∃ s', s.step overflowChecks B .poll = some s' ∧ s.Serves .poll s' ∧ s'.Inv n := by
  have hle := hs.taken_le
  have hbound := hs.bounded
  by_cases hpending : s.taken.length < s.published.length
  · obtain ⟨hslots, hserv, hchecks⟩ := hmeets hpending
    have hold := hs.oldest hdvd hpending
    generalize hhead : s.queue.availableRing (s.queue.prevIdx % s.queue.queueNum) = head at *
    have hmem : head ∈ s.published := mem_of_getElem? hold
    have hsmall : head < s.queue.queueNum := by rw [hs.queueNum_eq]; exact hs.small _ hmem
    have hnum : s.queue.queueNum ≠ 0 := by omega
    have hsub : subU16 overflowChecks s.queue.availableIndex s.queue.prevIdx =
        some (s.published.length - s.taken.length) := by
      rw [hs.available_eq, hs.prev_eq]
      exact subU16_mod hle (by omega) hchecks
    have hsucc : succU16 overflowChecks s.queue.prevIdx = some ((s.taken.length + 1) % 2 ^ 16) := by
      rw [hs.prev_eq]
      exact succU16_mod fun h => by have := hchecks h; omega
    have hread : s.queue.availableRing ((s.taken.length + 1) % 2 ^ 16 % s.queue.queueNum) = head := by
      rw [← hslots, hs.prev_eq, Nat.mod_add_mod]
    have hpop : pop overflowChecks s.queue =
        some (some (head, s.queue.setPrevIdx ((s.taken.length + 1) % 2 ^ 16))) := by
      have hqn := hs.queueNum_eq
      simp only [pop, hsub, hsucc, hread]
      rw [if_neg (by omega), if_neg (by omega), if_pos hsmall]
    have hidx : succU16 overflowChecks s.queue.usedIdx = some ((s.taken.length + 1) % 2 ^ 16) := by
      rw [hs.used_eq]
      exact succU16_mod fun h => by have := hchecks h; omega
    obtain ⟨first, reads, writes, hchain, hsize, hreq⟩ := hserv
    obtain ⟨len, memory, hevent⟩ := processEvent_servable overflowChecks B
      (s.queue.setPrevIdx ((s.taken.length + 1) % 2 ^ 16)) head hsize hnum hs.flags_eq hidx hreq
    have hchain' : chain (s.queue.setPrevIdx ((s.taken.length + 1) % 2 ^ 16)) head =
        some (first :: reads, writes) := hchain
    refine ⟨{ s with
      queue := ((s.queue.setPrevIdx ((s.taken.length + 1) % 2 ^ 16)).setMemory memory).putUsed
        head len ((s.taken.length + 1) % 2 ^ 16)
      taken := s.taken ++ [head] }, ?_, ?_, ?_⟩
    · simp only [step, Virtio.poll, hpop, hchain', bind_some, hevent, map_some, Option.toList_some]
    · simp only [Serves, hold]
      refine ⟨trivial, ?_, len, rfl⟩
      rw [hs.used_eq, Nat.mod_add_mod]
      rfl
    · have hlen : (s.taken ++ [head]).length = s.taken.length + 1 := by simp
      constructor
      case queueNum_eq => exact hs.queueNum_eq
      case flags_eq => exact hs.flags_eq
      case available_eq => exact hs.available_eq
      case prev_eq | used_eq => rw [hlen]; rfl
      case taken_le => rw [hlen]; exact hpending
      case bounded => rw [hlen]; dsimp only; omega
      case small => exact hs.small
      case slots => exact hs.slots.advance (by rw [hlen]; omega)
  · have hnone : s.published[s.taken.length]? = none := List.getElem?_eq_none (by omega)
    have hsub : subU16 overflowChecks s.queue.availableIndex s.queue.prevIdx = some 0 := by
      have heq : s.published.length = s.taken.length := by omega
      rw [hs.available_eq, hs.prev_eq, heq, subU16, if_pos (Nat.le_refl _), Nat.sub_self]
    refine ⟨s, ?_, ?_, hs⟩
    · simp [step, Virtio.poll, pop, hsub]
    · simp [Serves, hnone]

theorem Inv.step (hs : s.Inv n) (hdvd : n ∣ 2 ^ 16) (hn : n < 2 ^ 16) {e : Event μ}
    (hallowed : s.Allowed e) (hmeets : s.Meets overflowChecks B e) :
    ∃ s', s.step overflowChecks B e = some s' ∧ s.Serves e s' ∧ s'.Inv n := by
  cases e with
  | publish head => exact ⟨_, rfl, ⟨rfl, rfl, rfl⟩, hs.publish hdvd hallowed⟩
  | scribble descriptors memory =>
    exact ⟨_, rfl, ⟨rfl, rfl, rfl⟩, ⟨hs.queueNum_eq, hs.flags_eq, hs.available_eq, hs.prev_eq,
      hs.used_eq, hs.taken_le, hs.bounded, hs.small, hs.slots⟩⟩
  | poll => exact hs.poll hdvd hn hmeets

theorem Inv.servedRun (hdvd : n ∣ 2 ^ 16) (hn : n < 2 ^ 16) :
    ∀ {events : List (Event μ)} {s : Session μ}, s.Inv n →
      MeetsRun overflowChecks B events s → ServedRun overflowChecks B events s
  | [], _, _, _ => trivial
  | e :: es, s, hs, hmeets => by
    intro hallowed
    obtain ⟨s', hstep, hserves, hs'⟩ := hs.step hdvd hn hallowed hmeets.1
    exact ⟨s', hstep, hserves, Inv.servedRun hdvd hn hs' (hmeets.2 s' hstep)⟩

/-- **`process` ends and takes everything that is outstanding**, if each of its passes meets the
condition. -/
theorem Inv.process (hdvd : n ∣ 2 ^ 16) (hn : n < 2 ^ 16) :
    ∀ {k : Nat} {s : Session μ}, s.Inv n → s.published.length = s.taken.length + k →
      MeetsRun overflowChecks B (List.replicate (k + 1) .poll) s →
      ∃ q, Virtio.process overflowChecks B (k + 1) s.queue = some (s.published.drop s.taken.length, q)
  | k, s, hs, hk, hmeets => by
    rw [replicate_succ] at hmeets
    obtain ⟨s', hstep, hserves, hs'⟩ := hs.poll hdvd hn hmeets.1
    have hrest := hmeets.2 s' hstep
    obtain ⟨⟨head?, q⟩, hpoll, rfl⟩ := map_eq_some_iff.mp hstep
    rw [Virtio.process, hpoll]
    cases k with
    | zero =>
      have hnone : s.published[s.taken.length]? = none := List.getElem?_eq_none (by omega)
      simp only [Serves, hnone] at hserves
      have hempty : head? = none := by
        have htaken : s.taken ++ head?.toList = s.taken := congrArg Session.taken hserves
        cases head? with
        | none => rfl
        | some head => simp at htaken
      rw [hempty]
      exact ⟨q, by rw [drop_eq_nil_of_le (by omega)]⟩
    | succ k =>
      have hlt : s.taken.length < s.published.length := by omega
      have hsome : s.published[s.taken.length]? = some s.published[s.taken.length] :=
        List.getElem?_eq_getElem hlt
      simp only [Serves, hsome] at hserves
      have hhead : head? = some s.published[s.taken.length] := by
        have htaken := append_cancel_left hserves.1
        cases head? with
        | none => simp at htaken
        | some head => simpa using htaken
      subst hhead
      obtain ⟨q', hq'⟩ := Inv.process hdvd hn hs' (by simp; omega) hrest
      dsimp only at hq' ⊢
      refine ⟨q', ?_⟩
      rw [hq', map_some, drop_eq_getElem_cons hlt]
      simp

/-- A queue of four descriptors where the requests 0 and 3 share the buffers 1 and 2. -/
def sharedBuffers : Queue Unit where
  queueNum := 4
  descriptors i := if i = 1 then ⟨0, 512, 3, 2⟩ else if i = 2 then ⟨0, 1, 2, 0⟩ else ⟨0, 16, 1, 1⟩
  availableIndex := 0
  availableRing _ := 0
  usedFlags := 0
  usedIdx := 0
  usedRing _ := (0, 0)
  prevIdx := 0
  memory := ()

/-- A backend on which every request is a read. -/
def readsOnly : Backend Unit where
  request _ _ := ⟨.in_, 0⟩
  readCallback _ _ _ := ()
  writeCallback _ _ _ := ()
  setStatus _ _ := ()

theorem servable_sharedBuffers {q : Queue Unit} (hq : q.descriptors = sharedBuffers.descriptors) :
    Servable true readsOnly q 3 := by
  refine ⟨⟨0, 16⟩, [], [⟨0, 512⟩, ⟨0, 1⟩], ?_, rfl, .inl ⟨rfl, rfl, _, _, rfl, fun _ => by decide⟩⟩
  rw [chain, hq]
  rfl

end Session

end Icewind.Virtio
