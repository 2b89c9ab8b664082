import MonoBus.Construction.BeatFrames

/-!
# Every frame fits

A frame is as long as its payload, and four bytes more, and one more for each byte of the payload
and for the check byte where it is escaped.  Escaping at most doubles what it is applied to, so
the longest message of a beat, the one with the bitmap, fits its array whatever it shows.
-/

namespace MonoBus

def frameLength (command id : UInt8) (src : List UInt8) : ℕ :=
  src.length + 4 + src.countP (fun b => b = 0x7d ∨ b = 0x7e) +
    if busCheck (command ||| id) src = 0x7d ∨ busCheck (command ||| id) src = 0x7e then 1 else 0

lemma frameLength_le (command id : UInt8) (src : List UInt8) :
    frameLength command id src ≤ 2 * src.length + 5 := by
  have hcount := src.countP_le_length (p := fun b => decide (b = 0x7d ∨ b = 0x7e))
  unfold frameLength
  split_ifs <;> omega

lemma isSpecial_busCode : busCode.isSpecial = fun b => decide (b = 0x7d ∨ b = 0x7e) := by
  funext b
  exact decide_eq_decide.mpr or_comm

lemma length_busBody (header : UInt8) (src : List UInt8) :
    (busBody header src).length =
      src.length + 2 + src.countP (fun b => b = 0x7d ∨ b = 0x7e) +
        if busCheck header src = 0x7d ∨ busCheck header src = 0x7e then 1 else 0 := by
  rw [busBody, busCovered, List.length_append, List.length_cons, EscapeCode.length_stuff,
    EscapeCode.length_stuffOne, isSpecial_busCode]
  simp only [decide_eq_true_eq]
  omega

lemma length_monobusMessage (dst : ℕ → UInt8) (dstLen : ℕ) (command id : UInt8)
    (src : List UInt8) :
    (monobusMessage dst dstLen command id src).2 = frameLength command id src := by
  rw [monobusMessage_eq]
  show (delimit framing (busBody (command ||| id) src)).length = _
  rw [delimit, List.length_cons, List.length_append, length_busBody, List.length_singleton,
    frameLength]
  omega

/-- The stores go through the frame from its first byte to its last. -/
lemma stores_monobusMessageTraced (dst : ℕ → UInt8) (dstLen : ℕ) (command id : UInt8)
    (src : List UInt8) :
    (monobusMessageTraced dst dstLen command id src).stores =
      List.range (frameLength command id src) := by
  have hptr := congrArg Prod.snd (monobusMessageTraced_eq dst dstLen command id src)
  rw [TracedDst.stores_eq, ← length_monobusMessage dst dstLen, ← hptr]

/-- The memory is overwritten with the frame up to the returned length. -/
lemma mem_monobusMessage (dst : ℕ → UInt8) (dstLen : ℕ) (command id : UInt8)
    (src : List UInt8) (i : ℕ) :
    (monobusMessage dst dstLen command id src).1 i =
      if i < frameLength command id src then
        (delimit framing (busBody (command ||| id) src)).getD i 0 else dst i := by
  have hlength := length_monobusMessage dst dstLen command id src
  rw [monobusMessage_eq] at hlength ⊢
  rw [← hlength]
  show (Dst.storeAll ⟨dst, 0⟩ _).mem i = _
  rw [Dst.mem_storeAll]
  by_cases hi : i < (delimit framing (busBody (command ||| id) src)).length
  · rw [dif_pos ⟨Nat.zero_le i, hi⟩, if_pos hi, List.getD_eq_getElem _ _ hi]
    rfl
  · rw [dif_neg (fun h => hi h.2), if_neg hi]

lemma frameLength_lt_of_beat (p : LedOutdat) (t : CommandType) :
    frameLength t.toByte 0x2 (t.payload p) < 512 := by
  have hlength := frameLength_le t.toByte 0x2 (t.payload p)
  have hpayload : (t.payload p).length ≤ 226 := t.length_payload_le p
  omega

/-- A message of a beat stays in its array, with any bitmap. -/
lemma stores_lt_of_beat (dst : ℕ → UInt8) (p : LedOutdat) (t : CommandType) :
    (∀ i ∈ (monobusMessageTraced dst 512 t.toByte 0x2 (t.payload p)).stores, i < 512) ∧
      ∀ i, 512 ≤ i → (monobusMessage dst 512 t.toByte 0x2 (t.payload p)).1 i = dst i := by
  have hfits := frameLength_lt_of_beat p t
  refine ⟨fun i hi => ?_, fun i hi => ?_⟩
  · rw [stores_monobusMessageTraced, List.mem_range] at hi
    omega
  · rw [mem_monobusMessage, if_neg (by omega)]

/-- **The length of a frame is exact, and every frame of a beat fits.**  `monobus_message` stores
to the offsets below the length it returns, to each once and in their order: the record is one of
its own stores, behind the length its memory is as before, and below the length it does not
depend on what was there.  Whatever the display shows and whatever the previous beat left, no
message of a beat leaves its array of 512 bytes, nor does the message with any other bitmap. -/
theorem frameLength_exact_and_fits :
    (∀ (dst : ℕ → UInt8) (dstLen : ℕ) (command id : UInt8) (src : List UInt8),
      ((monobusMessageTraced dst dstLen command id src).dst.mem,
          (monobusMessageTraced dst dstLen command id src).dst.ptr) =
        monobusMessage dst dstLen command id src ∧
      (monobusMessageTraced dst dstLen command id src).stores =
        List.range (frameLength command id src) ∧
      (monobusMessage dst dstLen command id src).2 = frameLength command id src ∧
      (∀ i, frameLength command id src ≤ i →
        (monobusMessage dst dstLen command id src).1 i = dst i) ∧
      (∀ dst' : ℕ → UInt8, ∀ i < frameLength command id src,
        (monobusMessage dst dstLen command id src).1 i =
          (monobusMessage dst' dstLen command id src).1 i) ∧
      src.length + 4 ≤ frameLength command id src ∧
      frameLength command id src ≤ 2 * src.length + 5) ∧
    (∀ (phase : BeatPhase) (state : State) (previous : LedOutdat),
      ∃ p, phase.prepare state previous = .ok p ∧
        ∀ t ∈ phase.commands, ∀ (dst : ℕ → UInt8),
          (∀ i ∈ (monobusMessageTraced dst 512 t.toByte 0x2 (t.payload p)).stores, i < 512) ∧
          ∀ i, 512 ≤ i → (monobusMessage dst 512 t.toByte 0x2 (t.payload p)).1 i = dst i) ∧
    ∀ (dst : ℕ → UInt8) (bitmap : Fin lengthSer → UInt8),
      (∀ i ∈ (monobusMessageTraced dst 512 CommandType.ledOutdat.toByte 0x2
        (ledOutdat bitmap).toBytes).stores, i < 512) ∧
      ∀ i, 512 ≤ i → (monobusMessage dst 512 CommandType.ledOutdat.toByte 0x2
        (ledOutdat bitmap).toBytes).1 i = dst i := by
  refine ⟨fun dst dstLen command id src => ?_, fun phase state previous => ?_,
    fun dst bitmap => ?_⟩
  · refine ⟨monobusMessageTraced_eq dst dstLen command id src,
      stores_monobusMessageTraced dst dstLen command id src,
      length_monobusMessage dst dstLen command id src,
      fun i hi => by rw [mem_monobusMessage, if_neg hi.not_gt],
      fun dst' i hi => by rw [mem_monobusMessage, mem_monobusMessage, if_pos hi, if_pos hi], ?_,
      frameLength_le command id src⟩
    unfold frameLength
    omega
  · obtain ⟨p, hp⟩ := phase.prepare_ok state previous
    exact ⟨p, hp, fun t _ dst => stores_lt_of_beat dst p t⟩
  · exact stores_lt_of_beat dst (ledOutdat bitmap) .ledOutdat

end MonoBus
