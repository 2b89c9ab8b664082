import MonoBus.Construction.Lifecycle
import MonoBus.Construction.Panel

/-!
# The messages of a beat and where they are stored

`_beat` writes each of its messages to one array of 512 bytes.  `monobusMessageTraced` is
`monobus_message` with a record of the offsets it stores to; without the record it is the same
program (`monobusMessageTraced_eq`), and the record is always that of a pointer which moves on by
one with each store.
-/

namespace MonoBus

/-! ## The payloads -/

/-- The bytes of `led_setup`. -/
def ledSetup : List UInt8 :=
  [0x00, 0xff, 0x2f, 0x10, 0x20, 0x40, 0x60, 0x90, 0xc0, 0xf0, 0x03, 0x13, 0x33, 0x53, 0x83, 0xb3,
    0xe3]

/-- The bytes of `led_outset`. -/
def ledOutset : List UInt8 :=
  [0x01, 0x00, 0x00, 0x00, 0x00, 0x00, UInt8.ofNat lengthSer, 0x07]

/-- The payload that `_beat` sends with a command, where `p` is `led_outdat`. -/
def CommandType.payload (p : LedOutdat) : CommandType → List UInt8
  | .status => []
  | .ledSetup => MonoBus.ledSetup
  | .ledOutset => MonoBus.ledOutset
  | .ledOutdat => p.toBytes
  | .ledOutput => []

/-- What `_beat` makes of `led_outdat` before it sends the messages of a group. -/
def BeatPhase.prepare (state : State) (p : LedOutdat) : BeatPhase → Run LedOutdat
  | .setup => .ok p
  | .frame => serialize state p
  | .final => .ok { p with bitmap := fun _ => 0 }

lemma BeatPhase.prepare_ok (state : State) (p : LedOutdat) (phase : BeatPhase) :
    ∃ p', phase.prepare state p = .ok p' := by
  cases phase with
  | setup => exact ⟨p, rfl⟩
  | frame => exact ⟨_, serialize_eq state p⟩
  | final => exact ⟨_, rfl⟩

lemma length_toBytes (p : LedOutdat) : p.toBytes.length = lengthSer + 2 := by
  rw [LedOutdat.toBytes, List.length_cons, List.length_cons, List.length_ofFn]

/-- The bitmap is the longest payload. -/
lemma CommandType.length_payload_le (p : LedOutdat) (t : CommandType) :
    (t.payload p).length ≤ lengthSer + 2 := by
  cases t with
  | status => exact Nat.zero_le _
  | ledSetup => exact Nat.le_of_ble_eq_true rfl
  | ledOutset => exact Nat.le_of_ble_eq_true rfl
  | ledOutdat => exact (length_toBytes p).le
  | ledOutput => exact Nat.zero_le _

/-! ## The stores of a message -/

/-- A destination and the offsets that have been stored to. -/
structure TracedDst where
  dst : Dst
  stores : List ℕ
  stores_eq : stores = List.range dst.ptr

namespace TracedDst

/-- `*ptr++ = byt`. -/
def store (d : TracedDst) (byt : UInt8) : TracedDst where
  dst := d.dst.store byt
  stores := d.stores ++ [d.dst.ptr]
  stores_eq := by rw [d.stores_eq, Dst.store_ptr, List.range_succ]

/-- The `switch` of `monobus_message`. -/
def storeEscaped (d : TracedDst) (byt : UInt8) : TracedDst :=
  if byt = framing then (d.store escape).store (byt ^^^ 0x20)
  else if byt = escape then (d.store escape).store (byt ^^^ 0x20)
  else d.store byt

lemma dst_storeEscaped (d : TracedDst) (byt : UInt8) :
    (d.storeEscaped byt).dst = d.dst.storeEscaped byt := by
  unfold storeEscaped Dst.storeEscaped
  split_ifs <;> rfl

lemma dst_foldl_storeEscaped (d : TracedDst) (src : List UInt8) :
    (src.foldl storeEscaped d).dst = src.foldl Dst.storeEscaped d.dst := by
  induction src generalizing d with
  | nil => rfl
  | cons byt src ih => rw [List.foldl_cons, List.foldl_cons, ih, dst_storeEscaped]

end TracedDst

/-- `monobus_message` with a record of its stores. -/
def monobusMessageTraced (dst : ℕ → UInt8) (_dstLen : ℕ) (command id : UInt8)
    (src : List UInt8) : TracedDst :=
  let d : TracedDst := ⟨⟨dst, 0⟩, [], rfl⟩
  let d := d.store framing
  let d := d.store (command ||| id)
  let d := src.foldl TracedDst.storeEscaped d
  let crc := monobusCrc8 0xff (d.dst.slice 1 (d.dst.ptr - 1))
  let d := d.storeEscaped crc
  d.store framing

/-- Without the record it is `monobus_message`. -/
theorem monobusMessageTraced_eq (dst : ℕ → UInt8) (dstLen : ℕ) (command id : UInt8)
    (src : List UInt8) :
    ((monobusMessageTraced dst dstLen command id src).dst.mem,
      (monobusMessageTraced dst dstLen command id src).dst.ptr) =
      monobusMessage dst dstLen command id src := by
  unfold monobusMessageTraced monobusMessage
  simp only [TracedDst.store, TracedDst.dst_storeEscaped, TracedDst.dst_foldl_storeEscaped]

end MonoBus
