import MonoBus.Construction.Slip

/-!
# A TCP stream of SLIP frames (`stream.h`)

The sender encodes each message in `tx_buf`.  The receiver appends what `recv` gives it to the
bytes it has kept in `rx_buf`, passes on the messages of all complete frames, and moves the rest
to the start of the buffer for the next call.  As decoding works in place, the rest is what the
decoder has left of it (`slipReceive_frames`).
-/

namespace MonoBus

/-- `sizeof(stream->rx_buf)`, which is also the size of `tx_buf`. -/
def rxBufSize : ℕ := 0x4000

/-- The send loop of `_lv2_osc_stream_run_tcp`: the bytes that are sent for a list of messages. -/
def slipSend (tx : List UInt8) : List (List UInt8) → List UInt8
  | [] => []
  | buf :: messages =>
      if buf.length ≤ rxBufSize then
        let (tx, tosend) := slipEncodeInline (buf ++ tx.drop buf.length) buf.length
        tx.take tosend ++ slipSend tx messages
      else slipSend tx messages

/-- The loop over the bytes of `rx_buf`: the messages that are passed to `write_adv`, and the
bytes that remain for the next call. -/
def slipReceive : ℕ → List UInt8 → List (List UInt8) × List UInt8
  | 0, rx => ([], rx)
  | fuel + 1, rx =>
      if rx.length = 0 then ([], rx)
      else
        let (rx, size, parsed) := slipDecodeInline rx
        let written := if size ≠ 0 then [rx.take size] else []
        if parsed ≠ 0 then
          let (more, rx) := slipReceive fuel (rx.drop parsed)
          (written ++ more, rx)
        else (written, rx)

/-- The receiving part of `_lv2_osc_stream_run_tcp`, with the first `rx_off` bytes of `rx_buf` and
what `recv` returns. -/
def runTcp (rx recvd : List UInt8) : List (List UInt8) × List UInt8 :=
  slipReceive (rx ++ recvd).length (rx ++ recvd)

/-- Calls of `lv2_osc_stream_pollin` one after the other: the bytes kept in `rx_buf` before the
first, what each `recv` returns, and the messages that are written. -/
inductive Pollins : List UInt8 → List (List UInt8) → List (List UInt8) → Prop
  | nil (rx : List UInt8) : Pollins rx [] []
  | cons {rx recvd : List UInt8} {recvs written : List (List UInt8)} :
      recvd ≠ [] → rx.length + recvd.length ≤ rxBufSize →
      Pollins (runTcp rx recvd).2 recvs written →
      Pollins rx (recvd :: recvs) ((runTcp rx recvd).1 ++ written)

/-- What is in `rx_buf` after some calls. -/
def rxAfter (rx : List UInt8) (recvs : List (List UInt8)) : List UInt8 :=
  recvs.foldl (fun rx recvd => (runTcp rx recvd).2) rx

lemma rxAfter_concat (rx : List UInt8) (before : List (List UInt8)) (recvd : List UInt8) :
    rxAfter rx (before ++ [recvd]) = (runTcp (rxAfter rx before) recvd).2 := by
  simp [rxAfter]

/-! ## The sender -/

/-- The frames of a list of messages. -/
def slipFrames (messages : List (List UInt8)) : List UInt8 := messages.flatMap slipFrame

@[simp] lemma slipFrames_nil : slipFrames [] = [] := rfl

@[simp] lemma slipFrames_cons (message : List UInt8) (messages : List (List UInt8)) :
    slipFrames (message :: messages) = slipFrame message ++ slipFrames messages := rfl

@[simp] lemma slipFrames_append (xs ys : List (List UInt8)) :
    slipFrames (xs ++ ys) = slipFrames xs ++ slipFrames ys := List.flatMap_append

/-- Messages whose frames fit into the buffer are sent as their frames. -/
lemma slipSend_eq : ∀ (messages : List (List UInt8)) (tx : List UInt8), tx.length = rxBufSize →
    (∀ m ∈ messages, m ≠ [] ∧ (slipFrame m).length < rxBufSize) →
    slipSend tx messages = slipFrames messages := by
  intro messages
  induction messages with
  | nil => intro tx _ _; rfl
  | cons m messages ih =>
      intro tx htx hmessages
      obtain ⟨hne, hfits⟩ := hmessages m List.mem_cons_self
      have hframe := length_slipFrame m
      have hstuff := slipCode.length_stuff m
      have hbuf : (m ++ tx.drop m.length).length = rxBufSize := by
        rw [List.length_append, List.length_drop]
        omega
      have hencode := slipEncodeInline_eq hne (le_of_lt (hfits.trans_eq hbuf.symm))
      rw [slipSend, if_pos (by omega), hencode]
      simp only [List.take_left', slipFrames_cons]
      rw [ih _ ?_ fun m' hm' => hmessages m' (List.mem_cons_of_mem m hm')]
      rw [List.length_append, List.length_drop, hbuf]
      omega

/-! ## The receiver -/

/-- The reader stores no further than it has read. -/
lemma readInPlace_of_some {rx rest : List UInt8}
    (h : (slipCode.readBody (slipCode.frameBody rx)).2 = some rest) :
    (slipCode.readInPlace rx).take (slipCode.readBody (slipCode.frameBody rx)).1.length =
        (slipCode.readBody (slipCode.frameBody rx)).1 ∧
      (slipCode.readInPlace rx).drop (rx.length - rest.length) = rest ∧
      rest.length < rx.length := by
  obtain ⟨body, hbody, hle, -⟩ := slipCode.stuff_of_readBody
    (Prod.ext (y := ((slipCode.readBody (slipCode.frameBody rx)).1, some rest)) rfl h)
  have hstuff := slipCode.length_stuff (slipCode.readBody (slipCode.frameBody rx)).1
  have hsplit := slipCode.length_frameBody rx
  have hlen : (slipCode.frameBody rx).length = body.length + (rest.length + 1) := by
    rw [hbody, List.length_append, List.length_cons]
  have hsuffix : rx.drop (rx.length - rest.length) = rest := by
    have htail : rest <:+ rx := by
      have hframe : slipCode.frameBody rx <:+ rx := by
        unfold EscapeCode.frameBody
        split_ifs
        · exact List.tail_suffix rx
        · exact List.suffix_rfl
      refine List.IsSuffix.trans ⟨body ++ [slipCode.flag], ?_⟩ hframe
      rw [hbody, List.append_assoc, List.singleton_append]
    exact (List.suffix_iff_eq_drop.mp htail).symm
  refine ⟨by rw [EscapeCode.readInPlace, List.take_left], ?_, by omega⟩
  rw [EscapeCode.readInPlace, List.drop_append, List.drop_eq_nil_of_le (by omega),
    List.nil_append, List.drop_drop]
  have hskip : (slipCode.readBody (slipCode.frameBody rx)).1.length +
      (rx.length - rest.length - (slipCode.readBody (slipCode.frameBody rx)).1.length) =
        rx.length - rest.length := by omega
  rw [hskip, hsuffix]

/-- Without a complete frame nothing is written. -/
lemma slipReceive_of_none (fuel : ℕ) {rx : List UInt8} (hfuel : rx.length ≤ fuel)
    (h : (slipCode.readBody (slipCode.frameBody rx)).2 = none) :
    slipReceive fuel rx = ([], slipCode.readInPlace rx) := by
  cases rx with
  | nil => cases fuel <;> rfl
  | cons b rx =>
      cases fuel with
      | zero => simp at hfuel
      | succ fuel =>
          rw [slipReceive, if_neg (by simp), slipDecodeInline_eq, h]
          rfl

/-- A complete frame is taken off; its message is written if the frame starts with `SLIP_END` and
the message is not empty. -/
lemma slipReceive_of_some (fuel : ℕ) {rx rest : List UInt8}
    (h : (slipCode.readBody (slipCode.frameBody rx)).2 = some rest) :
    slipReceive (fuel + 1) rx =
      ((if rx.head? = some slipEnd ∧ (slipCode.readBody (slipCode.frameBody rx)).1 ≠ [] then
          [(slipCode.readBody (slipCode.frameBody rx)).1] else []) ++ (slipReceive fuel rest).1,
        (slipReceive fuel rest).2) := by
  obtain ⟨htake, hdrop, hlt⟩ := readInPlace_of_some h
  rw [slipReceive, if_neg (by omega), slipDecodeInline_eq, h]
  simp only
  rw [if_pos (show rx.length - rest.length ≠ 0 by omega), hdrop]
  congr 2
  by_cases hhead : rx.head? = some slipEnd
  · by_cases hout : (slipCode.readBody (slipCode.frameBody rx)).1 = []
    · simp [hhead, hout]
    · simp only [hhead, if_true, true_and, ne_eq, List.length_eq_zero_iff, hout,
        not_false_eq_true, htake]
  · simp [hhead]

/-- **Complete frames.**  The messages of frames that were not touched are written, and the part
of a frame behind them is read in place. -/
theorem slipReceive_frames {part : List UInt8}
    (hpart : (slipCode.readBody (slipCode.frameBody part)).2 = none) :
    ∀ (messages : List (List UInt8)) (fuel : ℕ), (∀ m ∈ messages, m ≠ []) →
      (slipFrames messages ++ part).length ≤ fuel →
      slipReceive fuel (slipFrames messages ++ part) = (messages, slipCode.readInPlace part) := by
  intro messages
  induction messages with
  | nil => exact fun fuel _ hfuel => slipReceive_of_none fuel hfuel hpart
  | cons m messages ih =>
      intro fuel hne hfuel
      have hrx : slipFrames (m :: messages) ++ part =
          slipEnd :: (slipCode.stuff m ++ slipEnd :: (slipFrames messages ++ part)) := by
        simp [slipFrame, delimit]
      have hread : slipCode.readBody (slipCode.frameBody (slipFrames (m :: messages) ++ part)) =
          (m, some (slipFrames messages ++ part)) := by
        rw [hrx]
        exact slipCode.readBody_stuff m _
      rw [hrx, List.length_cons, List.length_append, List.length_cons] at hfuel
      obtain ⟨fuel, rfl⟩ : ∃ k, fuel = k + 1 := ⟨fuel - 1, by omega⟩
      have hrest := ih fuel (fun m' hm' => hne m' (List.mem_cons_of_mem m hm')) (by omega)
      rw [slipReceive_of_some fuel (congrArg Prod.snd hread), hread, hrest, hrx]
      simp [hne m List.mem_cons_self]

/-- **Nothing comes from nothing.**  The frames of what is written are at most as long as what is
taken for them; and if they are as long, they are what is taken. -/
theorem slipReceive_bound (fuel : ℕ) {rx : List UInt8} (hfuel : rx.length ≤ fuel) :
    ∃ used part, rx = used ++ part ∧
      (slipCode.readBody (slipCode.frameBody part)).2 = none ∧
      (slipReceive fuel rx).2 = slipCode.readInPlace part ∧
      (slipFrames (slipReceive fuel rx).1).length ≤ used.length ∧
      ((slipFrames (slipReceive fuel rx).1).length = used.length →
        used = slipFrames (slipReceive fuel rx).1) := by
  induction fuel generalizing rx with
  | zero =>
      obtain rfl : rx = [] := List.length_eq_zero_iff.mp (by omega)
      exact ⟨[], [], rfl, rfl, rfl, le_rfl, fun _ => rfl⟩
  | succ fuel ih =>
      cases hread : (slipCode.readBody (slipCode.frameBody rx)).2 with
      | none =>
          rw [slipReceive_of_none (fuel + 1) hfuel hread]
          exact ⟨[], rx, rfl, hread, rfl, le_rfl, fun _ => rfl⟩
      | some rest =>
          obtain ⟨-, -, hlt⟩ := readInPlace_of_some hread
          obtain ⟨used, part, rfl, hpart, hleft, hle, heq⟩ := @ih rest (by omega)
          obtain ⟨body, hbody, hbound, hsame⟩ := slipCode.stuff_of_readBody
            (Prod.ext (y := ((slipCode.readBody (slipCode.frameBody rx)).1, some (used ++ part)))
              rfl hread)
          rw [slipReceive_of_some fuel hread]
          set out := (slipCode.readBody (slipCode.frameBody rx)).1 with hout
          by_cases hhead : rx.head? = some slipEnd
          · -- the frame starts with `SLIP_END`
            obtain ⟨rx', hcons⟩ : ∃ rx', rx = slipEnd :: rx' :=
              ⟨rx.tail, List.eq_cons_of_mem_head? hhead⟩
            have htail : rx' = body ++ slipEnd :: (used ++ part) := by
              rw [hcons] at hbody
              exact hbody
            refine ⟨delimit slipEnd body ++ used, part, ?_, hpart, hleft, ?_, ?_⟩
            · rw [hcons, htail]
              simp [delimit]
            · by_cases hnil : out = []
              · simp only [hhead, hnil, ne_eq, not_true_eq_false, and_false, if_false,
                  List.nil_append, List.length_append]
                omega
              · simp only [hhead, hnil, ne_eq, not_false_eq_true, and_self, if_true,
                  List.singleton_append, slipFrames_cons, List.length_append, slipFrame, delimit,
                  List.length_cons, List.length_nil]
                omega
            · by_cases hnil : out = []
              · simp only [hhead, hnil, ne_eq, not_true_eq_false, and_false, if_false,
                  List.nil_append, List.length_append, delimit, List.length_cons]
                omega
              · simp only [hhead, hnil, ne_eq, not_false_eq_true, and_self, if_true,
                  List.singleton_append, slipFrames_cons, List.length_append, slipFrame, delimit,
                  List.length_cons, List.length_nil]
                intro hlen
                rw [hsame (by omega)]
                exact congrArg _ (heq (by omega))
          · -- it does not, so nothing is written for it
            refine ⟨body ++ slipEnd :: used, part, ?_, hpart, hleft, ?_, ?_⟩
            · have hframe : slipCode.frameBody rx = rx := if_neg hhead
              rw [← hframe, hbody]
              simp [slipCode]
            · simp only [hhead, false_and, if_false, List.nil_append, List.length_append,
                List.length_cons]
              omega
            · simp only [hhead, false_and, if_false, List.nil_append, List.length_append,
                List.length_cons]
              omega

/-- One call: what is taken, and the part of a frame behind it, which keeps its length. -/
lemma runTcp_bound (rx recvd : List UInt8) :
    ∃ used part, rx ++ recvd = used ++ part ∧
      (slipCode.readBody (slipCode.frameBody part)).2 = none ∧
      (runTcp rx recvd).2 = slipCode.readInPlace part ∧
      (runTcp rx recvd).2.length = part.length ∧
      (slipFrames (runTcp rx recvd).1).length ≤ used.length ∧
      ((slipFrames (runTcp rx recvd).1).length = used.length →
        used = slipFrames (runTcp rx recvd).1) := by
  obtain ⟨used, part, hused, hpart, hrx, hle, heq⟩ := slipReceive_bound (rx ++ recvd).length le_rfl
  refine ⟨used, part, hused, hpart, hrx, ?_, hle, heq⟩
  rw [runTcp, hrx, (slipCode.readInPlace_of_none hpart).1]

end MonoBus
