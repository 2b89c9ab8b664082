import MonoBus.Framework.Stuffing

/-!
# The MonoBus frame (`monobus_crc8`, `monobus_message`)

`monobus_message` writes through a moving pointer into a buffer whose length it ignores.  The
model keeps the pointer: a `Dst` is the memory behind `dst` together with the offset of the
next write, `store` is `*ptr++ = byt`, and the check byte is computed from the bytes read back
from that memory, as the source does.

`monobusMessage_eq` then says what has been written, independently of what the buffer held
before: the delimited body `busBody`, at the offsets from `0` on and nowhere else.
-/

namespace MonoBus

/-! ## Constants -/

/-- `FRAMING`. -/
def framing : UInt8 := 0x7e

/-- `ESCAPE`. -/
def escape : UInt8 := 0x7d

/-- `command_type_t`. -/
inductive CommandType
  | status
  | ledSetup
  | ledOutset
  | ledOutdat
  | ledOutput
  deriving DecidableEq, Repr

/-- The value the enumeration gives a command. -/
def CommandType.toByte : CommandType → UInt8
  | .status => 0x80
  | .ledSetup => 0xb0
  | .ledOutset => 0xc0
  | .ledOutdat => 0xd0
  | .ledOutput => 0xe0

lemma CommandType.toByte_bit7 (t : CommandType) : t.toByte.toNat.testBit 7 = true := by
  cases t <;> decide

lemma bit7_or {command : UInt8} (h : command.toNat.testBit 7 = true) (id : UInt8) :
    (command ||| id).toNat.testBit 7 = true := by
  rw [UInt8.toNat_or, Nat.testBit_or, h, Bool.true_or]

/-! ## The check byte -/

/-- `monobus_crc8`. -/
def monobusCrc8 (seed : UInt8) (data : List UInt8) : UInt8 :=
  let crc := ~~~seed
  let crc := data.foldl (fun crc byt => crc ^^^ byt) crc
  ~~~crc

/-! ## Writing through the pointer -/

/-- The memory behind `dst` and the offset `ptr - dst` of the next write. -/
structure Dst where
  mem : ℕ → UInt8
  ptr : ℕ

namespace Dst

/-- `*ptr++ = byt`. -/
def store (d : Dst) (byt : UInt8) : Dst where
  mem := Function.update d.mem d.ptr byt
  ptr := d.ptr + 1

@[simp] lemma store_ptr (d : Dst) (byt : UInt8) : (d.store byt).ptr = d.ptr + 1 := rfl

/-- The `switch` of `monobus_message`, run on payload bytes and on the check byte alike. -/
def storeEscaped (d : Dst) (byt : UInt8) : Dst :=
  if byt = framing then (d.store escape).store (byt ^^^ 0x20)
  else if byt = escape then (d.store escape).store (byt ^^^ 0x20)
  else d.store byt

/-- The `len` bytes from offset `i` on. -/
def slice (d : Dst) (i len : ℕ) : List UInt8 :=
  (List.range len).map fun k => d.mem (i + k)

/-- Writing a run of bytes one after the other. -/
def storeAll (d : Dst) (bs : List UInt8) : Dst := bs.foldl store d

@[simp] lemma storeAll_nil (d : Dst) : d.storeAll [] = d := rfl

@[simp] lemma storeAll_cons (d : Dst) (b : UInt8) (bs : List UInt8) :
    d.storeAll (b :: bs) = (d.store b).storeAll bs := rfl

lemma storeAll_append (d : Dst) (bs cs : List UInt8) :
    d.storeAll (bs ++ cs) = (d.storeAll bs).storeAll cs := by
  simp [storeAll, List.foldl_append]

lemma ptr_storeAll (d : Dst) (bs : List UInt8) : (d.storeAll bs).ptr = d.ptr + bs.length := by
  induction bs generalizing d with
  | nil => rfl
  | cons b bs ih =>
      rw [storeAll_cons, ih, List.length_cons, store_ptr]
      omega

/-- A run of writes touches the next `bs.length` cells and leaves `bs` in them. -/
lemma mem_storeAll (d : Dst) (bs : List UInt8) (i : ℕ) :
    (d.storeAll bs).mem i =
      if h : d.ptr ≤ i ∧ i - d.ptr < bs.length then bs.get ⟨i - d.ptr, h.2⟩ else d.mem i := by
  induction bs generalizing d with
  | nil => simp
  | cons b bs ih =>
      rw [storeAll_cons, ih]
      rcases lt_trichotomy i d.ptr with hlt | heq | hgt
      · rw [dif_neg (by rw [store_ptr]; omega), dif_neg (by omega)]
        exact Function.update_of_ne (by omega) _ _
      · subst heq
        rw [dif_neg (by rw [store_ptr]; omega), dif_pos (by simp)]
        simp [store]
      · have hsucc : i - d.ptr = (i - (d.store b).ptr) + 1 := by
          rw [store_ptr]; omega
        by_cases hin : i - d.ptr < (b :: bs).length
        · have hin' : i - (d.store b).ptr < bs.length := by
            rw [List.length_cons] at hin; omega
          rw [dif_pos ⟨by rw [store_ptr]; omega, hin'⟩, dif_pos ⟨hgt.le, hin⟩]
          simp [hsucc]
        · have hin' : ¬ i - (d.store b).ptr < bs.length := by
            rw [List.length_cons] at hin; omega
          rw [dif_neg (fun h => hin' h.2), dif_neg (fun h => hin h.2)]
          exact Function.update_of_ne (by omega) _ _

/-- What a run of writes left is what reading it back returns. -/
lemma slice_storeAll (d : Dst) (bs : List UInt8) :
    (d.storeAll bs).slice d.ptr bs.length = bs := by
  apply List.ext_getElem
  · simp [slice]
  · intro k hk hk'
    simp only [slice, List.getElem_map, List.getElem_range, mem_storeAll]
    rw [dif_pos ⟨by omega, by omega⟩]
    simp

end Dst

/-! ## The frame -/

/-- `monobus_message`: the memory behind `dst` afterwards, and the returned length. -/
def monobusMessage (dst : ℕ → UInt8) (_dstLen : ℕ) (command id : UInt8) (src : List UInt8) :
    (ℕ → UInt8) × ℕ :=
  let d : Dst := ⟨dst, 0⟩
  let d := d.store framing
  let d := d.store (command ||| id)
  let d := src.foldl Dst.storeEscaped d
  let crc := monobusCrc8 0xff (d.slice 1 (d.ptr - 1))
  let d := d.storeEscaped crc
  let d := d.store framing
  (d.mem, d.ptr)

/-- The frame a call returns: the first `len` bytes of `dst`. -/
def monobusFrame (dst : ℕ → UInt8) (dstLen : ℕ) (command id : UInt8) (src : List UInt8) :
    List UInt8 :=
  let (mem, len) := monobusMessage dst dstLen command id src
  (List.range len).map mem

/-- The escape code of the bus. -/
def busCode : EscapeCode UInt8 where
  flag := framing
  esc := escape
  markFlag := framing ^^^ 0x20
  markEsc := escape ^^^ 0x20
  esc_ne_flag := by decide
  markFlag_ne_flag := by decide
  markEsc_ne_flag := by decide
  markFlag_ne_markEsc := by decide

/-- The header byte and the stuffed payload: the bytes the check byte covers. -/
def busCovered (header : UInt8) (src : List UInt8) : List UInt8 :=
  header :: busCode.stuff src

/-- The check byte of a frame. -/
def busCheck (header : UInt8) (src : List UInt8) : UInt8 :=
  monobusCrc8 0xff (busCovered header src)

/-- What stands between the two framing bytes. -/
def busBody (header : UInt8) (src : List UInt8) : List UInt8 :=
  busCovered header src ++ busCode.stuffOne (busCheck header src)

lemma Dst.storeEscaped_eq (d : Dst) (byt : UInt8) :
    d.storeEscaped byt = d.storeAll (busCode.stuffOne byt) := by
  unfold storeEscaped EscapeCode.stuffOne
  by_cases hflag : byt = framing
  · simp [hflag, busCode]
  · by_cases hesc : byt = escape
    · subst hesc
      simp [hflag, busCode]
    · simp [hflag, hesc, busCode]

lemma Dst.foldl_storeEscaped_eq (d : Dst) (src : List UInt8) :
    src.foldl Dst.storeEscaped d = d.storeAll (busCode.stuff src) := by
  induction src generalizing d with
  | nil => rfl
  | cons b bs ih =>
      rw [List.foldl_cons, ih, storeEscaped_eq, EscapeCode.stuff_cons, storeAll_append]

/-- The pointer program writes the delimited body from offset `0` on. -/
theorem monobusMessage_eq (dst : ℕ → UInt8) (dstLen : ℕ) (command id : UInt8)
    (src : List UInt8) :
    let frame := delimit framing (busBody (command ||| id) src)
    monobusMessage dst dstLen command id src =
      ((Dst.storeAll ⟨dst, 0⟩ frame).mem, frame.length) := by
  set header := command ||| id with hheader
  -- the state in which the check byte is computed
  set d₀ : Dst := (⟨dst, 0⟩ : Dst).store framing with hd₀
  have hcovered : src.foldl Dst.storeEscaped (d₀.store header) =
      d₀.storeAll (busCovered header src) := by
    rw [Dst.foldl_storeEscaped_eq]
    rfl
  have hread : (d₀.storeAll (busCovered header src)).slice 1
      ((d₀.storeAll (busCovered header src)).ptr - 1) = busCovered header src := by
    have hptr : (d₀.storeAll (busCovered header src)).ptr - 1 =
        (busCovered header src).length := by
      rw [Dst.ptr_storeAll]
      simp [hd₀, Dst.store]
    rw [hptr]
    exact d₀.slice_storeAll (busCovered header src)
  have hwrites : ((d₀.storeAll (busCovered header src)).storeEscaped
      (busCheck header src)).store framing =
        Dst.storeAll ⟨dst, 0⟩ (delimit framing (busBody header src)) := by
    rw [Dst.storeEscaped_eq, ← Dst.storeAll_append, ← busBody, delimit, Dst.storeAll_cons,
      Dst.storeAll_append]
    rfl
  have hlen : (Dst.storeAll ⟨dst, 0⟩ (delimit framing (busBody header src))).ptr =
      (delimit framing (busBody header src)).length := by
    rw [Dst.ptr_storeAll]
    simp
  simp only [monobusMessage, ← hheader, ← hd₀, hcovered, hread]
  rw [← busCheck, hwrites, hlen]

/-- The returned frame, whatever the buffer held before. -/
theorem monobusFrame_eq (dst : ℕ → UInt8) (dstLen : ℕ) (command id : UInt8)
    (src : List UInt8) :
    monobusFrame dst dstLen command id src =
      delimit framing (busBody (command ||| id) src) := by
  simp only [monobusFrame, monobusMessage_eq]
  have hread := Dst.slice_storeAll ⟨dst, 0⟩ (delimit framing (busBody (command ||| id) src))
  simpa [Dst.slice] using hread

end MonoBus
