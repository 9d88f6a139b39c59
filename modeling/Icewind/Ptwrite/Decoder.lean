import Icewind.Lib.Ring

/-!
# Reading the processor trace

Model of the decoder, the ring buffer and the reader in `brig-cli/src/ptwrite/`.

* `Decoder` — the two slices and the position; `Decoder.nextPacket` and `Decoder.next`.
* `decode` — what the reader does with a window: the payloads that it writes to the file, and the
  number of bytes that it reports as consumed.
* `RingBufferAux.nextData` — the window between tail and head of the ring.
* `Reader.round` — a round of the loop of `read_pt_data`.

`none` is a panic, or a read outside of a slice.
-/

namespace Icewind.Ptwrite

/-! ### The decoder -/

inductive DecodeError where
  | unknownOpcode (opcode : UInt8)
  | unknownExtOpcode (ext : UInt8)
  | missingData
  | endOfData
  deriving DecidableEq

structure Decoder where
  main : List UInt8
  secondary : Option (List UInt8)
  position : Nat

/-- `u64::from_ne_bytes` on a little-endian machine. -/
def fromNeBytes (bytes : List UInt8) : Nat := bytes.foldr (fun b acc => b.toNat + 256 * acc) 0

namespace Decoder

def new (main : List UInt8) (secondary : Option (List UInt8)) : Decoder := ⟨main, secondary, 0⟩

def offset (d : Decoder) : Nat := d.position

def step (d : Decoder) (amount : Nat) : Decoder := { d with position := d.position + amount }

/-- `get_unchecked`. -/
def currentByte (d : Decoder) : Option UInt8 := d.main[d.position]?

/-- The payload of a PTW packet; `some none` if the data are missing. -/
def payload (d : Decoder) : Option (Option Nat) :=
  if d.position = d.main.length then
    match d.secondary with
    | some secondary =>
      if 8 ≤ secondary.length then some (some (fromNeBytes (secondary.take 8))) else some none
    | none => some none
  else if d.position + 8 ≤ d.main.length then
    some (some (fromNeBytes ((d.main.drop d.position).take 8)))
  else none

/-- A packet of two bytes and more, after its two bytes. -/
def extPacket (d : Decoder) (ext : UInt8) : Option (Except DecodeError (Option Nat) × Decoder) :=
  if ext = 0x82 then some (.ok none, d.step 14)
  else if ext = 0x23 then some (.ok none, d)
  else if ext = 0x03 then some (.ok none, d.step 2)
  else if ext = 0x32 then d.payload.map fun
    | some payload => (.ok (some payload), d.step 8)
    | none => (.error .missingData, { d with position := d.position - 2 })
  else if ext = 0x43 then some (.ok none, d.step 7)
  else if ext = 0xc8 then some (.ok none, d.step 6)
  else some (.error (.unknownExtOpcode ext), d)

def nextPacket (d : Decoder) : Option (Except DecodeError (Option Nat) × Decoder) :=
  if d.main.length ≤ d.position then some (.error .endOfData, d)
  else d.currentByte.bind fun opcode =>
    if opcode = 0x00 then some (.ok none, d.step 1)
    else if opcode = 0x02 then
      (d.step 1).currentByte.bind fun ext => ((d.step 1).step 1).extPacket ext
    else if opcode &&& 0x01 = 0 then some (.ok none, d.step 1)
    else some (.error (.unknownOpcode opcode), d.step 1)

/-- The loop of `next`; every packet takes a byte, so that as much fuel as there are bytes, and one
more, is enough. -/
def nextLoop : Nat → Decoder → Option (Option Nat × Decoder)
  | 0, _ => none
  | fuel + 1, d =>
    match d.nextPacket with
    | some (.ok none, d) => nextLoop fuel d
    | some (.ok (some payload), d) => some (some payload, d)
    | some (.error .missingData, d) => some (none, d)
    | some (.error .endOfData, d) => some (none, d)
    | some (.error _, _) => none
    | none => none

def next (d : Decoder) : Option (Option Nat × Decoder) := nextLoop (d.main.length + 1) d

/-- The loop of the reader over the payloads. -/
def drain : Nat → Decoder → Option (List Nat × Decoder)
  | 0, _ => none
  | fuel + 1, d =>
    match d.next with
    | some (some payload, d) => (drain fuel d).map fun (payloads, d) => (payload :: payloads, d)
    | some (none, d) => some ([], d)
    | none => none

end Decoder

/-- **The payloads of a window, and the number of bytes consumed.** -/
def decode (main : List UInt8) (secondary : Option (List UInt8)) : Option (List Nat × Nat) :=
  (Decoder.drain (main.length + 1) (.new main secondary)).map fun (payloads, d) => (payloads, d.offset)

/-! ### The ring buffer -/

/-- What is there to be read.  The first slice is not empty. -/
structure Window where
  main : List UInt8
  secondary : Option (List UInt8)
  main_ne : main ≠ []

def Window.bytes (w : Window) : List UInt8 := w.main ++ w.secondary.getD []

/-- The AUX area and the two counters of its header page. -/
structure RingBufferAux where
  auxArea : Nat → UInt8
  auxHead : Nat
  auxTail : Nat

def bufferSize : Nat := 2 * 1024 * 1024 * 1024

/-- `from_raw_parts`. -/
def RingBufferAux.slice (r : RingBufferAux) (start len : Nat) : List UInt8 :=
  (List.range len).map fun i => r.auxArea (start + i)

theorem RingBufferAux.slice_ne (r : RingBufferAux) (start : Nat) {len : Nat} (h : 0 < len) :
    r.slice start len ≠ [] := by
  intro hnil
  have hlen := congrArg List.length hnil
  simp [slice] at hlen
  omega

theorem wrapped_lt (n : Nat) : n % bufferSize < bufferSize := Nat.mod_lt n (by decide)

/-- `next_data` up to the call of the callback: nothing, or the window. -/
def RingBufferAux.nextData (r : RingBufferAux) : Option (Option Window) :=
  -- assert!(head >= tail)
  if r.auxHead < r.auxTail then none
  else if bufferSize * 4 / 5 < r.auxHead - r.auxTail then none
  else
    let wrappedHead := r.auxHead % bufferSize
    let wrappedTail := r.auxTail % bufferSize
    if hgt : wrappedTail < wrappedHead then
      some (some ⟨r.slice wrappedTail (wrappedHead - wrappedTail), none,
        r.slice_ne _ (Nat.sub_pos_of_lt hgt)⟩)
    else if wrappedHead < wrappedTail then
      some (some ⟨r.slice wrappedTail (bufferSize - wrappedTail), some (r.slice 0 wrappedHead),
        r.slice_ne _ (Nat.sub_pos_of_lt (wrapped_lt r.auxTail))⟩)
    else some none

/-! ### The reader -/

/-- The ring buffer and the payloads in the file. -/
structure Reader where
  ring : RingBufferAux
  written : List Nat

/-- A round of the loop of `read_pt_data`. -/
def Reader.round (r : Reader) : Option Reader :=
  r.ring.nextData.bind fun
    | none => some r
    | some w => (decode w.main w.secondary).map fun (payloads, consumed) =>
      { ring := { r.ring with auxTail := r.ring.auxTail + consumed }, written := r.written ++ payloads }

end Icewind.Ptwrite
