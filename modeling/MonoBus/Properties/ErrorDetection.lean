import MonoBus.Framework.SingleError
import MonoBus.Properties.Framing

/-!
# What the check byte detects

The check byte is the complement of the sum of the bytes it covers, so the bytes between the
delimiters add up to one of two values: to one if the check byte is escaped, to the other if it
is not (`parity_busBody`).  An error in one byte changes the sum.  If the result is a frame
again, exactly one of the two check bytes is therefore escaped, and then the error is in the
escape: it has become the last byte of a longer payload, or that byte has become an escape.
-/

namespace MonoBus

/-! ## The sum of a body -/

def parity (bs : List UInt8) : UInt8 := checkSum (fun a b => a ^^^ b) 0 bs

lemma monobusCrc8_eq (data : List UInt8) : monobusCrc8 0xff data = parity data ^^^ 0xff := by
  rw [monobusCrc8, parity, checkSum]
  exact (UInt8.xor_neg_one).symm

/-- The check byte is one of the two bytes that `monobus_message` escapes. -/
def CheckEscaped (header : UInt8) (src : List UInt8) : Prop :=
  busCheck header src = framing ∨ busCheck header src = escape

/-- An escaped byte looks like one of two marks behind its escape. -/
lemma mark_iff (c : UInt8) :
    c ^^^ 0x20 = 0x5d ∨ c ^^^ 0x20 = 0x5e ↔ c = framing ∨ c = escape := by
  have hback (m : UInt8) : c ^^^ 0x20 = m ^^^ 0x20 ↔ c = m := UInt8.xor_left_inj 0x20
  rw [or_comm, ← hback framing, ← hback escape]
  exact Iff.rfl

/-- The marks are not escaped. -/
lemma not_escaped_of_mark {c : UInt8} (h : c = 0x5d ∨ c = 0x5e) :
    ¬ (c = framing ∨ c = escape) := by
  rcases h with rfl | rfl
  · decide
  · decide

section Body

variable {header header' : UInt8} {src src' u v : List UInt8} {x y z : UInt8}

lemma busBody_of_escaped (h : CheckEscaped header src) :
    busBody header src = busCovered header src ++ [escape, busCheck header src ^^^ 0x20] := by
  rw [busBody, EscapeCode.stuffOne]
  rcases h with h | h
  · rw [h]
    rfl
  · rw [h]
    rfl

lemma busBody_of_not_escaped (h : ¬ CheckEscaped header src) :
    busBody header src = busCovered header src ++ [busCheck header src] := by
  rw [CheckEscaped, not_or] at h
  rw [busBody, busCode.stuffOne_of_ne h.1 h.2]

lemma parity_busBody (h : CheckEscaped header src) : parity (busBody header src) = 0xa2 := by
  have hcheck := monobusCrc8_eq (busCovered header src)
  rw [busBody_of_escaped h, List.append_cons, parity, checkSum_concat, checkSum_concat, busCheck,
    hcheck, ← parity]
  generalize parity (busCovered header src) = t
  calc
    t ^^^ escape ^^^ (t ^^^ 0xff ^^^ 0x20) = t ^^^ t ^^^ (escape ^^^ 0xff ^^^ 0x20) := by ac_rfl
    _ = 0xa2 := by rw [UInt8.xor_self]; rfl

lemma parity_busBody_of_not_escaped (h : ¬ CheckEscaped header src) :
    parity (busBody header src) = 0xff := by
  have hcheck := monobusCrc8_eq (busCovered header src)
  rw [busBody_of_not_escaped h, parity, checkSum_concat, busCheck, hcheck, ← parity,
    ← UInt8.xor_assoc, UInt8.xor_self, UInt8.zero_xor]

/-- An error is caught if both check bytes are escaped, or none. -/
lemma escaped_differ (hbody : busBody header src = u ++ x :: v)
    (hbody' : busBody header' src' = u ++ y :: v) (hxy : x ≠ y) :
    ¬ (CheckEscaped header src ↔ CheckEscaped header' src') := by
  intro hiff
  have hsum : parity (busBody header src) = parity (busBody header' src') := by
    by_cases h : CheckEscaped header src
    · rw [parity_busBody h, parity_busBody (hiff.mp h)]
    · rw [parity_busBody_of_not_escaped h,
        parity_busBody_of_not_escaped fun h' => h (hiff.mpr h')]
  have hexchange := checkSum_exchange (fun a b : UInt8 => a ^^^ b) 0 u v x y
  rw [← hbody, ← hbody', ← parity, ← parity, hsum] at hexchange
  exact hxy ((UInt8.xor_right_inj _).mp hexchange).symm

/-! ## The last covered byte -/

lemma busCovered_concat (hne : x ≠ framing) (hne' : x ≠ escape) :
    busCovered header (src ++ [x]) = busCovered header src ++ [x] := by
  rw [busCovered, EscapeCode.stuff_append, EscapeCode.stuff_singleton,
    busCode.stuffOne_of_ne hne hne']
  rfl

lemma busCheck_concat (hne : x ≠ framing) (hne' : x ≠ escape) :
    busCheck header (src ++ [x]) = busCheck header src ^^^ x := by
  rw [busCheck, busCheck, busCovered_concat hne hne', monobusCrc8_eq, monobusCrc8_eq, parity,
    checkSum_concat, ← parity]
  ac_rfl

lemma busCheck_blank (header : UInt8) (src : List UInt8) :
    busCheck header (src ++ [0x20]) = busCheck header src ^^^ 0x20 :=
  busCheck_concat (by decide) (by decide)

/-- The last covered byte is the header, the mark of an escaped byte, or the last byte of the
payload. -/
lemma last_of_busCovered (h : busCovered header src = u ++ [x]) :
    x = header ∨ x = framing ^^^ 0x20 ∨ x = escape ^^^ 0x20 ∨
      x ≠ escape ∧ ∃ src', src = src' ++ [x] := by
  cases u with
  | nil => exact .inl (List.cons.inj h).1.symm
  | cons b u =>
      obtain ⟨-, hstuff⟩ := List.cons.inj h
      rcases busCode.last_of_stuff hstuff with hmark | hmark | ⟨hesc, src', hsrc, -⟩
      · exact .inr (.inl hmark)
      · exact .inr (.inr (.inl hmark))
      · exact .inr (.inr (.inr ⟨hesc, src', hsrc⟩))

/-- The covered bytes do not end in an escape. -/
lemma busCovered_ne_concat_escape (hheader : header.toNat.testBit 7 = true) :
    busCovered header src ≠ u ++ [escape] := by
  intro h
  rcases last_of_busCovered h with rfl | hmark | hmark | ⟨hne, -⟩
  · exact absurd hheader (by decide)
  · exact absurd hmark (by decide)
  · exact absurd hmark (by decide)
  · exact hne rfl

/-! ## Errors in one byte of a body -/

/-- Between two bodies of which only the first has an escaped check byte, the error is in that
escape. -/
lemma error_in_escape (hheader' : header'.toNat.testBit 7 = true)
    (hbody : busBody header src = u ++ x :: v) (hbody' : busBody header' src' = u ++ y :: v)
    (h : CheckEscaped header src) (h' : ¬ CheckEscaped header' src') :
    x = escape ∧ y = 0x20 ∧ v = [busCheck header' src'] ∧
      busCheck header' src' = busCheck header src ^^^ 0x20 ∧
      busCovered header' src' = u ++ [y] := by
  have hexchange := checkSum_exchange (fun a b : UInt8 => a ^^^ b) 0 u v x y
  rw [← hbody, ← hbody', ← parity, ← parity, parity_busBody h,
    parity_busBody_of_not_escaped h'] at hexchange
  rw [busBody_of_escaped h, List.append_cons] at hbody
  rw [busBody_of_not_escaped h'] at hbody'
  rcases List.eq_nil_or_concat v with rfl | ⟨v, z, rfl⟩
  · -- the error would be in the check byte, behind an escape that both bodies have
    obtain ⟨hu, -⟩ := List.append_inj' hbody rfl
    obtain ⟨hu', -⟩ := List.append_inj' hbody' rfl
    exact absurd (hu'.trans hu.symm) (busCovered_ne_concat_escape hheader')
  · rw [List.concat_eq_append, ← List.cons_append, ← List.append_assoc] at hbody hbody'
    obtain ⟨hinit, hz⟩ := List.append_inj' hbody rfl
    obtain ⟨hinit', hz'⟩ := List.append_inj' hbody' rfl
    rcases List.eq_nil_or_concat v with rfl | ⟨v, w, rfl⟩
    · obtain ⟨-, hx⟩ := List.append_inj' hinit rfl
      obtain rfl : escape = x := List.singleton_inj.mp hx
      have hy : y = 0x20 := by
        calc
          y = 0xa2 ^^^ (0xa2 ^^^ y) := by rw [← UInt8.xor_assoc, UInt8.xor_self, UInt8.zero_xor]
          _ = 0xa2 ^^^ (0xff ^^^ escape) := by rw [hexchange]
          _ = 0x20 := rfl
      rw [List.singleton_inj] at hz hz'
      refine ⟨rfl, hy, ?_, ?_, hinit'⟩
      · rw [hz']
        rfl
      · rw [hz', hz]
    · -- the escape would be in both bodies
      rw [List.concat_eq_append, ← List.cons_append, ← List.append_assoc] at hinit hinit'
      obtain ⟨-, hw⟩ := List.append_inj' hinit rfl
      rw [← hw] at hinit'
      exact absurd hinit' (busCovered_ne_concat_escape hheader')

/-- The pattern of an error that is not caught: the byte in front of the last one is replaced,
and it was, or becomes, the escape of the check byte. -/
def EscapeExchanged (header : UInt8) (src : List UInt8) (y : UInt8) : Prop :=
  CheckEscaped header src ∧ y = 0x20 ∨
    src.getLast? = some 0x20 ∧ (busCheck header src = 0x5d ∨ busCheck header src = 0x5e) ∧
      y = escape

/-- An escape in front of the check byte becomes the last byte of the payload. -/
lemma body_of_escape_erased (hbody : busBody header src = u ++ [x, z])
    (h : CheckEscaped header src) : busBody header (src ++ [0x20]) = u ++ [0x20, z] := by
  have hcheck := busCheck_blank header src
  have hplain : ¬ CheckEscaped header (src ++ [0x20]) := by
    rw [CheckEscaped, hcheck]
    exact not_escaped_of_mark ((mark_iff _).mpr h)
  rw [busBody_of_escaped h] at hbody
  obtain ⟨hu, hlast⟩ := List.append_inj' hbody rfl
  rw [busBody_of_not_escaped hplain, hcheck, busCovered_concat (by decide) (by decide), hu,
    List.append_assoc]
  simp only [List.cons.injEq] at hlast
  rw [hlast.2.1]
  rfl

/-- The last byte of the payload becomes an escape in front of the check byte. -/
lemma body_of_escape_made (hbody : busBody header (src ++ [0x20]) = u ++ [x, z])
    (h : busCheck header (src ++ [0x20]) = 0x5d ∨ busCheck header (src ++ [0x20]) = 0x5e) :
    busBody header src = u ++ [escape, z] := by
  have hcheck := busCheck_blank header src
  have hplain : ¬ CheckEscaped header (src ++ [0x20]) := not_escaped_of_mark h
  have hescaped : CheckEscaped header src := by
    rw [hcheck] at h
    exact (mark_iff _).mp h
  rw [busBody_of_not_escaped hplain, busCovered_concat (by decide) (by decide),
    List.append_assoc] at hbody
  obtain ⟨hu, hlast⟩ := List.append_inj' hbody rfl
  simp only [List.cons_append, List.nil_append, List.cons.injEq] at hlast
  rw [busBody_of_escaped hescaped, ← hcheck, hlast.2.1, hu]

/-- Which errors lead from a body to a body. -/
lemma busBody_error_iff (hheader : header.toNat.testBit 7 = true)
    (hbody : busBody header src = u ++ x :: v) (hxy : x ≠ y) :
    (∃ header' src', header'.toNat.testBit 7 = true ∧
      busBody header' src' = u ++ y :: v) ↔ v.length = 1 ∧ EscapeExchanged header src y := by
  constructor
  · rintro ⟨header', src', hheader', hbody'⟩
    have hdiffer := escaped_differ hbody hbody' hxy
    by_cases h : CheckEscaped header src
    · have h' : ¬ CheckEscaped header' src' := fun h' => hdiffer ⟨fun _ => h', fun _ => h⟩
      obtain ⟨-, hy, hv, -, -⟩ := error_in_escape hheader' hbody hbody' h h'
      exact ⟨by rw [hv]; rfl, .inl ⟨h, hy⟩⟩
    · have h' : CheckEscaped header' src' := by
        by_contra h'
        exact hdiffer ⟨fun hh => absurd hh h, fun hh => absurd hh h'⟩
      -- the same with the two bodies exchanged
      obtain ⟨hy, hx, hv, hcheck, hcovered⟩ := error_in_escape hheader hbody' hbody h' h
      refine ⟨by rw [hv]; rfl, .inr ⟨?_, ?_, hy⟩⟩
      · rw [hx] at hcovered
        rcases last_of_busCovered hcovered with rfl | hmark | hmark | ⟨-, cs, rfl⟩
        · exact absurd hheader (by decide)
        · exact absurd hmark (by decide)
        · exact absurd hmark (by decide)
        · exact List.getLast?_concat
      · rw [hcheck]
        exact (mark_iff _).mpr h'
  · rintro ⟨hlength, hexchanged⟩
    obtain ⟨z, rfl⟩ := List.length_eq_one_iff.mp hlength
    rcases hexchanged with ⟨h, rfl⟩ | ⟨hlast, h, rfl⟩
    · exact ⟨header, src ++ [0x20], hheader, body_of_escape_erased hbody h⟩
    · obtain ⟨cs, rfl⟩ := List.getLast?_eq_some_iff.mp hlast
      exact ⟨header, cs, hheader, body_of_escape_made hbody h⟩

end Body

/-! ## Errors in one byte of a frame -/

/-- The frames `monobus_message` returns for commands with bit 7 set. -/
def IsFrame (frame : List UInt8) : Prop :=
  ∃ (dst : ℕ → UInt8) (dstLen : ℕ) (command id : UInt8) (src : List UInt8),
    command.toNat.testBit 7 = true ∧ frame = monobusFrame dst dstLen command id src

/-- The byte strings differ in byte `i` only, which stands between the delimiters. -/
structure BodyError (frame frame' : List UInt8) (i : ℕ) : Prop
    extends OneError frame frame' i where
  pos : 0 < i
  lt : i + 1 < frame.length

lemma delimit_inj {body body' : List UInt8}
    (h : delimit framing body = delimit framing body') : body = body' :=
  List.append_cancel_right (List.cons.inj h).2

lemma BodyError.split {body frame' : List UInt8} {i : ℕ}
    (h : BodyError (delimit framing body) frame' i) :
    ∃ u x y v, body = u ++ x :: v ∧ frame' = delimit framing (u ++ y :: v) ∧
      i = u.length + 1 ∧ x ≠ y := by
  obtain ⟨u, x, y, v, hframe, hframe', rfl, hxy⟩ := h.toOneError.split
  have hpos := h.pos
  have hlt := h.lt
  rw [hframe, List.length_append, List.length_cons] at hlt
  cases u with
  | nil => exact absurd hpos (lt_irrefl 0)
  | cons b u =>
      have hb : framing = b := (List.cons.inj hframe).1
      have htail : body ++ [framing] = u ++ x :: v := (List.cons.inj hframe).2
      rcases List.eq_nil_or_concat v with rfl | ⟨v, z, rfl⟩
      · rw [List.length_nil] at hlt
        omega
      · rw [List.concat_eq_append, ← List.cons_append, ← List.append_assoc] at htail
        obtain ⟨hbody, hz⟩ := List.append_inj' htail rfl
        refine ⟨u, x, y, v, hbody, ?_, rfl, hxy⟩
        rw [hframe', ← hb, ← List.singleton_inj.mp hz, delimit]
        simp

/-- A byte string between delimiters is a frame if what it delimits is a body. -/
lemma isFrame_delimit {body : List UInt8} :
    IsFrame (delimit framing body) ↔
      ∃ header src, header.toNat.testBit 7 = true ∧ busBody header src = body := by
  constructor
  · rintro ⟨dst, dstLen, command, id, src, hcommand, hframe⟩
    rw [monobusFrame_eq] at hframe
    exact ⟨command ||| id, src, bit7_or hcommand id, (delimit_inj hframe).symm⟩
  · rintro ⟨header, src, hheader, rfl⟩
    refine ⟨fun _ => 0, 0, header, 0, src, hheader, ?_⟩
    rw [monobusFrame_eq, UInt8.or_zero]

/-- **What a single-byte error can do.**  A frame with one byte replaced between its delimiters
is a frame again exactly in two cases, both with the error two bytes in front of the closing
delimiter.  Either the check byte is escaped and its escape is replaced by `0x20`, or the payload
ends in `0x20`, the check byte is what an escaped check byte looks like, and that `0x20` is
replaced by an escape. -/
theorem singleByteError_iff {command : UInt8} (hcommand : command.toNat.testBit 7 = true)
    (dst : ℕ → UInt8) (dstLen : ℕ) (id : UInt8) (src : List UInt8) {frame' : List UInt8} {i : ℕ}
    (herror : BodyError (monobusFrame dst dstLen command id src) frame' i) :
    IsFrame frame' ↔
      i + 3 = frame'.length ∧
        (CheckEscaped (command ||| id) src ∧ frame'[i]? = some 0x20 ∨
          src.getLast? = some 0x20 ∧
            (busCheck (command ||| id) src = 0x5d ∨ busCheck (command ||| id) src = 0x5e) ∧
              frame'[i]? = some 0x7d) := by
  have hheader := bit7_or hcommand id
  rw [monobusFrame_eq] at herror
  obtain ⟨u, x, y, v, hbody, rfl, rfl, hxy⟩ := herror.split
  rw [isFrame_delimit, busBody_error_iff hheader hbody hxy]
  have hlength : u.length + 1 + 3 = (delimit framing (u ++ y :: v)).length ↔ v.length = 1 := by
    simp only [delimit, List.length_cons, List.length_append, List.length_nil]
    omega
  have hy : (delimit framing (u ++ y :: v))[u.length + 1]? = some y := by
    simp [delimit]
  rw [hlength, hy, Option.some_inj, Option.some_inj]
  exact Iff.rfl

/-- The check byte of this frame is the framing byte, escaped. -/
lemma escapedCheck_frame :
    monobusFrame (fun _ => 0) 512 0x80 0x00 [0x01] = [0x7e, 0x80, 0x01, 0x7d, 0x5e, 0x7e] := by
  rw [monobusFrame_eq]
  decide

/-- The escape of its check byte replaced by a blank. -/
lemma escapedCheck_error :
    BodyError (monobusFrame (fun _ => 0) 512 0x80 0x00 [0x01])
      [0x7e, 0x80, 0x01, 0x20, 0x5e, 0x7e] 3 := by
  rw [escapedCheck_frame]
  have hne : (0x7d : UInt8) ≠ 0x20 := by decide
  have herror := OneError.of_split [0x7e, 0x80, 0x01] [0x5e, 0x7e] hne
  exact { toOneError := herror, pos := by simp, lt := by simp }

theorem singleByteError_blank : IsFrame [0x7e, 0x80, 0x01, 0x20, 0x5e, 0x7e] :=
  (singleByteError_iff (by decide) (fun _ => 0) 512 0x00 [0x01] escapedCheck_error).mpr
    ⟨rfl, .inl ⟨.inl (by decide), rfl⟩⟩

/-- The blank makes it the frame of the payload `01 20`. -/
theorem singleByteError_undetected :
    ¬ ∀ (command : UInt8), command.toNat.testBit 7 = true →
      ∀ (dst : ℕ → UInt8) (dstLen : ℕ) (id : UInt8) (src : List UInt8) (frame' : List UInt8)
        (i : ℕ), BodyError (monobusFrame dst dstLen command id src) frame' i →
          ¬ IsFrame frame' := by
  intro h
  apply h 0x80 (by decide) _ _ _ _ _ _ escapedCheck_error
  refine ⟨fun _ => 0, 512, 0x80, 0x00, [0x01, 0x20], by decide, ?_⟩
  rw [monobusFrame_eq]
  decide

end MonoBus
