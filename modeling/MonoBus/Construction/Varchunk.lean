import MonoBus.Framework.RingMemory
import MonoBus.Framework.Transition

/-!
# The ring between the network and the beat (`varchunk.h`)

The producer is the thread of `_loop`: `_write_req`, the bytes received into what was granted, and
`_write_adv`.  The consumer is the thread of `_beat`: `varchunk_read_request`,
`_handle_osc_packet` and `varchunk_read_advance`.  A step is one load or store of `head` or `tail`,
or one access to a byte of `buf`.
-/

namespace MonoBus

/-! ## The arithmetic of requests -/

/-- `VARCHUNK_PAD`.  The mask `~7U` has 32 bits. -/
def varchunkPad (n : ℕ) : ℕ := (n + 7) &&& 0xfffffff8

/-- What `varchunk_write_request_max` stores in `rsvd` and `gapd`, and the index in `buf` it
returns. -/
structure Reservation where
  rsvd : ℕ
  gapd : ℕ
  ptr : ℕ

/-- The size of the writable buffer. -/
def writableSpace (size head tail : ℕ) : ℕ :=
  if tail < head then ((tail + size - head) &&& (size - 1)) - 1
  else if head < tail then tail - head - 1
  else size - 1

/-- `varchunk_write_request_max` with the `head` and the `tail` it has loaded; `*maximum` is
`rsvd`. -/
def varchunkWriteRequestMax (size head tail minimum : ℕ) : Option Reservation :=
  let padded := 16 + varchunkPad minimum
  let space := writableSpace size head tail
  let fin := head + space
  if size < fin then
    let len1 := size - head
    if len1 < padded then
      let len2 := fin &&& (size - 1)
      if len2 < padded then none
      else some { rsvd := len2, gapd := len1, ptr := 8 }
    else some { rsvd := len1, gapd := 0, ptr := head + 8 }
  else if space < padded then none
  else some { rsvd := space, gapd := 0, ptr := head + 8 }

/-- The bytes of an element header: `size` and `gap`. -/
def elmntBytes (size gap : ℕ) : List UInt8 := le32 size ++ le32 gap

/-- The stores of `varchunk_write_advance` to `buf`, in their order. -/
def headerStores (head gapd written : ℕ) : List (ℕ × UInt8) :=
  if 0 < gapd then
    storesAt head (elmntBytes (gapd - 8) 1) ++ storesAt 0 (elmntBytes written 0)
  else storesAt head (elmntBytes written 0)

/-- The size of the readable buffer. -/
def readableSpace (size head tail : ℕ) : ℕ :=
  if tail < head then head - tail else (head + size - tail) &&& (size - 1)

/-! ## States -/

/-- Where the producer is: between two calls, in `varchunk_write_request_max`, with a grant that
it may fill, and in `varchunk_write_advance`. -/
inductive ProducerPc
  | idle
  | loadHead (minimum : ℕ)
  | loadTail (minimum head : ℕ)
  | granted (r : Reservation) (minimum : ℕ)
  | advance (r : Reservation) (written : ℕ)
  | header (r : Reservation) (written head : ℕ) (stores : List (ℕ × UInt8))

/-- Where the consumer is, with the bytes it has got of what it reads: a field of an element header
or the chunk that it handles. -/
inductive ConsumerPc
  | idle
  | loadHead (tail : ℕ)
  | readGap (tail : ℕ) (got : List UInt8)
  | skipGap (tail : ℕ)
  | readSize (elmnt : ℕ) (got : List UInt8)
  | handle (ptr toread : ℕ) (got : List UInt8)
  | loadTail
  | readAgain (tail : ℕ) (got : List UInt8)
  | storeTail (tail read : ℕ)

/-- The ring and its two parties.  The last four fields record what happened: the bytes of the
chunk that was advanced last, as they stood in `buf` when `varchunk_write_advance` was called; the
chunks that were advanced, each with its place in `buf` and these bytes; how many of them the
consumer has released; and what it has read of those it handled. -/
structure Varchunk where
  buf : ℕ → UInt8
  head : ℕ
  tail : ℕ
  producer : ProducerPc
  consumer : ConsumerPc
  advancing : List UInt8
  advanced : List (ℕ × List UInt8)
  released : ℕ
  handled : List (List UInt8)

/-- The chunks that were advanced and are not released. -/
def Varchunk.unread (s : Varchunk) : List (ℕ × List UInt8) := s.advanced.drop s.released

/-- `varchunk_new`.  Nothing is stored in `buf`. -/
def Varchunk.new (buf : ℕ → UInt8) : Varchunk where
  buf := buf
  head := 0
  tail := 0
  producer := .idle
  consumer := .idle
  advancing := []
  advanced := []
  released := 0
  handled := []

/-! ## Steps -/

/-- What the producer does with the answer to its request. -/
def ProducerPc.ofRequest (minimum : ℕ) : Option Reservation → ProducerPc
  | none => .idle
  | some r => .granted r minimum

/-- A step of the producer, with the index of `buf` it stores to.  Which sizes it may write into a
grant is a parameter.  It may also request again before it has advanced. -/
inductive ProducerStep (size : ℕ) (permit : Reservation → ℕ → ℕ → Prop) :
    Varchunk → Option ℕ → Varchunk → Prop
  | request (s : Varchunk) {minimum : ℕ} :
      s.producer = .idle ∨ (∃ r m, s.producer = .granted r m) → minimum < 2 ^ 31 →
      ProducerStep size permit s none { s with producer := .loadHead minimum }
  | loadHead (s : Varchunk) {minimum : ℕ} : s.producer = .loadHead minimum →
      ProducerStep size permit s none { s with producer := .loadTail minimum s.head }
  | loadTail (s : Varchunk) {minimum head : ℕ} : s.producer = .loadTail minimum head →
      ProducerStep size permit s none { s with
        producer := .ofRequest minimum (varchunkWriteRequestMax size head s.tail minimum) }
  | fill (s : Varchunk) {r : Reservation} {minimum : ℕ} (i : ℕ) (b : UInt8) :
      s.producer = .granted r minimum → permit r minimum (i + 1) →
      ProducerStep size permit s (some (r.ptr + i))
        { s with buf := Function.update s.buf (r.ptr + i) b }
  | advance (s : Varchunk) {r : Reservation} {minimum : ℕ} (written : ℕ) :
      s.producer = .granted r minimum → permit r minimum written →
      ProducerStep size permit s none { s with
        producer := .advance r written
        advancing := bytesAt s.buf r.ptr written }
  | loadOwnHead (s : Varchunk) {r : Reservation} {written : ℕ} :
      s.producer = .advance r written →
      ProducerStep size permit s none { s with
        producer := .header r written s.head (headerStores s.head r.gapd written) }
  | storeHeader (s : Varchunk) {r : Reservation} {written head x : ℕ} {b : UInt8}
      {stores : List (ℕ × UInt8)} : s.producer = .header r written head ((x, b) :: stores) →
      ProducerStep size permit s (some x) { s with
        buf := Function.update s.buf x b
        producer := .header r written head stores }
  | storeHead (s : Varchunk) {r : Reservation} {written head : ℕ} :
      s.producer = .header r written head [] →
      ProducerStep size permit s none { s with
        head := (head + (r.gapd + 8 + varchunkPad written)) &&& (size - 1)
        producer := .idle
        advanced := s.advanced ++ [(r.ptr, s.advancing)] }

/-- What `varchunk_read_request` reads first, with the `tail` and the `head` it has loaded. -/
def readStart (size tail head : ℕ) : ConsumerPc :=
  let space := readableSpace size head tail
  if 0 < space then
    if size < tail + space then .readGap tail [] else .readSize tail []
  else .idle

/-- The next step of the consumer. -/
def consumerStep (size : ℕ) (s : Varchunk) : Varchunk :=
  match s.consumer with
  | .idle => { s with consumer := .loadHead s.tail }
  | .loadHead tail => { s with consumer := readStart size tail s.head }
  | .readGap tail got =>
      if got.length < 4 then
        { s with consumer := .readGap tail (got ++ [s.buf (tail + 4 + got.length)]) }
      else if leNat got ≠ 0 then { s with consumer := .skipGap tail }
      else { s with consumer := .readSize tail [] }
  | .skipGap tail =>
      { s with tail := (tail + (size - tail)) &&& (size - 1), consumer := .readSize 0 [] }
  | .readSize elmnt got =>
      if got.length < 4 then
        { s with consumer := .readSize elmnt (got ++ [s.buf (elmnt + got.length)]) }
      else { s with consumer := .handle (elmnt + 8) (leNat got) [] }
  | .handle ptr toread got =>
      if got.length < toread then
        { s with consumer := .handle ptr toread (got ++ [s.buf (ptr + got.length)]) }
      else { s with consumer := .loadTail, handled := s.handled ++ [got] }
  | .loadTail => { s with consumer := .readAgain s.tail [] }
  | .readAgain tail got =>
      if got.length < 4 then
        { s with consumer := .readAgain tail (got ++ [s.buf (tail + got.length)]) }
      else { s with consumer := .storeTail tail (leNat got) }
  | .storeTail tail read =>
      { s with
        tail := (tail + (8 + varchunkPad read)) &&& (size - 1)
        consumer := .idle
        released := s.released + 1 }

/-- The two parties on an empty ring: either of them takes a step. -/
def varchunkSystem (size : ℕ) (permit : Reservation → ℕ → ℕ → Prop) : System Varchunk where
  init s := ∃ buf, s = .new buf
  step s t := (∃ stored, ProducerStep size permit s stored t) ∨ t = consumerStep size s

end MonoBus
