import MonoBus.Construction.SlipStream
import MonoBus.Framework.CutFrames

/-!
# A sender of SLIP frames (`stream.h`)

`send` and `write` may take a part of a frame only.  Then the sender reports an error and leaves
the loop, but it leaves the message in the ring too: the next call sends its frame from the start.
The loop is the same for a socket and for a serial line.  That a socket is closed when `send` fails
means that no call follows on the same connection.
-/

namespace MonoBus

/-- What `send` returns: an error, whatever its number, or how much of the frame it has taken. -/
inductive SendAnswer
  | refused
  | sent (n : ℕ)

/-- The sending part of a stream: `tx_buf`, the messages `read_req` has still to hand out, and the
bytes that have been sent.  `done` and `cuts` record what has happened: the messages that have been
sent, each with the places where sending it has stopped before, and those places for the first one
that is left. -/
structure SlipSender where
  tx : List UInt8
  queue : List (List UInt8)
  wire : List UInt8
  done : List (List UInt8 × List ℕ)
  cuts : List ℕ

namespace SlipSender

/-- The send loop of `_lv2_osc_stream_run_tcp` and `_lv2_osc_stream_run_ser`, with the answers it
gets.  It takes a missing answer for a refusal. -/
def loop (s : SlipSender) : List (List UInt8) → List SendAnswer → SlipSender
  | [], _ => { s with queue := [] }
  | buf :: queue, answers =>
      let (tx, tosend) :=
        if buf.length ≤ rxBufSize then
          slipEncodeInline (buf ++ s.tx.drop buf.length) buf.length
        else (s.tx, 0)
      if tosend = 0 then
        loop { s with tx := tx, done := s.done ++ [(buf, s.cuts)], cuts := [] } queue answers
      else
        match answers with
        | .sent n :: answers =>
            if tosend ≤ n then
              loop {
                s with
                tx := tx
                wire := s.wire ++ tx.take tosend
                done := s.done ++ [(buf, s.cuts)]
                cuts := [] } queue answers
            else {
              s with
              tx := tx
              queue := buf :: queue
              wire := s.wire ++ tx.take n
              cuts := s.cuts ++ [n] }
        | _ => { s with tx := tx, queue := buf :: queue }

/-- A call, with the messages that have been queued before it. -/
def call (s : SlipSender) (queued : List (List UInt8)) (answers : List SendAnswer) : SlipSender :=
  s.loop (s.queue ++ queued) answers

/-- Some calls. -/
def calls (s : SlipSender) (cs : List (List (List UInt8) × List SendAnswer)) : SlipSender :=
  cs.foldl (fun s c => s.call c.1 c.2) s

/-- Before the first call. -/
def idle (tx : List UInt8) : SlipSender where
  tx := tx
  queue := []
  wire := []
  done := []
  cuts := []

/-! ## What has been sent -/

/-- The rings hold 8192 bytes. -/
def Sendable (m : List UInt8) : Prop := m ≠ [] ∧ m.length < 0x2000

/-- The frame of a message from a ring fits into `tx_buf`, even if all of its bytes are escaped. -/
lemma Sendable.length_le {m : List UInt8} (h : Sendable m) :
    (slipFrame m).length ≤ rxBufSize := by
  have hcount : m.countP slipCode.isSpecial ≤ m.length := List.countP_le_length
  rw [length_slipFrame, slipCode.length_stuff]
  have hlt := h.2
  unfold rxBufSize
  omega

/-- A sender in the middle of a run that was given `messages`. -/
structure Sending (s : SlipSender) (messages : List (List UInt8)) : Prop where
  tx : s.tx.length = rxBufSize
  messages : s.done.map Prod.fst ++ s.queue = messages
  wire : s.wire = (s.done.flatMap fun job => slipCode.resent job.1 job.2) ++
    s.cuts.flatMap fun n => (slipFrame (s.queue.headD [])).take n
  done : ∀ job ∈ s.done, ∀ n ∈ job.2, n < (slipFrame job.1).length
  cuts : ∀ n ∈ s.cuts, n < (slipFrame (s.queue.headD [])).length
  idle : s.queue = [] → s.cuts = []

lemma sending_idle {tx : List UInt8} (h : tx.length = rxBufSize) : (idle tx).Sending [] where
  tx := h
  messages := rfl
  wire := rfl
  done _ hjob := absurd hjob List.not_mem_nil
  cuts _ hn := absurd hn List.not_mem_nil
  idle _ := rfl

lemma Sending.append {s : SlipSender} {messages : List (List UInt8)} (h : s.Sending messages)
    (queued : List (List UInt8)) :
    { s with queue := s.queue ++ queued }.Sending (messages ++ queued) where
  tx := h.tx
  messages := by rw [← h.messages, List.append_assoc]
  wire := by
    rw [h.wire]
    cases hqueue : s.queue with
    | nil => rw [h.idle hqueue]; rfl
    | cons m queue => rfl
  done := h.done
  cuts n hn := by
    have hlt := h.cuts n hn
    cases hqueue : s.queue with
    | nil => exact absurd (h.idle hqueue ▸ hn) List.not_mem_nil
    | cons m queue => rwa [hqueue] at hlt
  idle hnil := h.idle (List.append_eq_nil_iff.mp hnil).1

lemma slipEncodeInline_tx {tx m : List UInt8} (htx : tx.length = rxBufSize) (hm : Sendable m) :
    ∃ tx', slipEncodeInline (m ++ tx.drop m.length) m.length = (tx', (slipFrame m).length) ∧
      tx'.length = rxBufSize ∧ ∀ n ≤ (slipFrame m).length, tx'.take n = (slipFrame m).take n := by
  have hle := hm.length_le
  have hbuf : (m ++ tx.drop m.length).length = rxBufSize := by
    rw [List.length_append, List.length_drop, htx]
    have hlt := hm.2
    unfold rxBufSize at *
    omega
  refine ⟨_, slipEncodeInline_eq hm.1 (hle.trans_eq hbuf.symm), ?_, fun n hn => ?_⟩
  · rw [List.length_append, List.length_drop, hbuf]
    omega
  · exact List.take_append_of_le_length hn

section Loop

variable {s : SlipSender} {messages queue : List (List UInt8)} {m tx : List UInt8}

lemma loop_cons (htx : s.tx.length = rxBufSize) (hm : Sendable m) (queue : List (List UInt8))
    (answers : List SendAnswer) :
    ∃ tx, tx.length = rxBufSize ∧ s.loop (m :: queue) answers =
      match answers with
      | .sent n :: answers =>
          if (slipFrame m).length ≤ n then
            loop {
              s with
              tx := tx
              wire := s.wire ++ slipFrame m
              done := s.done ++ [(m, s.cuts)]
              cuts := [] } queue answers
          else {
            s with
            tx := tx
            queue := m :: queue
            wire := s.wire ++ (slipFrame m).take n
            cuts := s.cuts ++ [n] }
      | _ => { s with tx := tx, queue := m :: queue } := by
  have hlength : m.length ≤ rxBufSize := by
    have hlt := hm.2
    unfold rxBufSize
    omega
  obtain ⟨tx, hencode, htx', htake⟩ := slipEncodeInline_tx htx hm
  have hne : (slipFrame m).length ≠ 0 := by
    rw [length_slipFrame]
    omega
  refine ⟨tx, htx', ?_⟩
  rw [SlipSender.loop, if_pos hlength, hencode]
  dsimp only
  rw [if_neg hne, htake _ le_rfl, List.take_length]
  match answers with
  | [] => rfl
  | .refused :: _ => rfl
  | .sent n :: answers =>
      dsimp only
      split_ifs with hall
      · rfl
      · rw [htake n (not_le.mp hall).le]

lemma Sending.next (h : { s with queue := m :: queue }.Sending messages)
    (htx : tx.length = rxBufSize) :
    { s with
      tx := tx
      queue := queue
      wire := s.wire ++ slipFrame m
      done := s.done ++ [(m, s.cuts)]
      cuts := [] }.Sending messages where
  tx := htx
  messages := by
    rw [← h.messages, List.map_append, List.append_assoc]
    rfl
  wire := by
    have hwire := h.wire
    dsimp only at hwire
    rw [hwire, List.flatMap_append, List.flatMap_singleton, EscapeCode.resent, List.flatMap_nil,
      List.append_nil, ← List.append_assoc]
    rfl
  done := by
    intro job hjob
    obtain hjob | hjob := List.mem_append.mp hjob
    · exact h.done job hjob
    · obtain rfl := List.mem_singleton.mp hjob
      exact h.cuts
  cuts n hn := absurd hn List.not_mem_nil
  idle _ := rfl

lemma Sending.cut {n : ℕ} (h : { s with queue := m :: queue }.Sending messages)
    (htx : tx.length = rxBufSize) (hn : n < (slipFrame m).length) :
    { s with
      tx := tx
      queue := m :: queue
      wire := s.wire ++ (slipFrame m).take n
      cuts := s.cuts ++ [n] }.Sending messages where
  tx := htx
  messages := h.messages
  wire := by
    have hwire := h.wire
    dsimp only at hwire ⊢
    rw [hwire, List.flatMap_append, List.flatMap_singleton, List.append_assoc]
    rfl
  done := h.done
  cuts k hk := by
    obtain hk | hk := List.mem_append.mp hk
    · exact h.cuts k hk
    · exact (List.mem_singleton.mp hk).trans_lt hn
  idle hnil := absurd hnil (List.cons_ne_nil _ _)

lemma Sending.refused (h : { s with queue := queue }.Sending messages)
    (htx : tx.length = rxBufSize) : { s with tx := tx, queue := queue }.Sending messages where
  tx := htx
  messages := h.messages
  wire := h.wire
  done := h.done
  cuts := h.cuts
  idle := h.idle

/-- **The send loop.**  Whatever `send` answers, the messages are sent one after the other, and what
has been sent of each is its frame, behind the parts at which sending stopped before. -/
theorem Sending.loop {answers : List SendAnswer} (h : { s with queue := queue }.Sending messages)
    (hsend : ∀ m ∈ queue, Sendable m) : (s.loop queue answers).Sending messages := by
  induction queue generalizing s answers with
  | nil => exact h
  | cons m queue ih =>
      have hrest (x : List UInt8) (hx : x ∈ queue) : Sendable x :=
        hsend x (List.mem_cons_of_mem m hx)
      obtain ⟨tx, htx, hloop⟩ :=
        loop_cons (s := s) h.tx (hsend m List.mem_cons_self) queue answers
      rw [hloop]
      match answers with
      | [] => exact h.refused htx
      | .refused :: _ => exact h.refused htx
      | .sent n :: answers =>
          dsimp only
          split_ifs with hall
          · exact ih (h.next htx) hrest
          · exact h.cut htx (not_le.mp hall)

end Loop

theorem Sending.calls {s : SlipSender} {messages : List (List UInt8)}
    {cs : List (List (List UInt8) × List SendAnswer)} (h : s.Sending messages)
    (hmessages : ∀ m ∈ messages, Sendable m) (hqueued : ∀ m ∈ cs.flatMap Prod.fst, Sendable m) :
    (s.calls cs).Sending (messages ++ cs.flatMap Prod.fst) := by
  induction cs generalizing s messages with
  | nil =>
      rw [List.flatMap_nil, List.append_nil]
      exact h
  | cons c cs ih =>
      rw [List.flatMap_cons, ← List.append_assoc]
      have hsend (m : List UInt8) (hm : m ∈ messages ++ c.1) : Sendable m :=
        (List.mem_append.mp hm).elim (hmessages m) fun hm =>
          hqueued m (List.mem_flatMap.mpr ⟨c, List.mem_cons_self, hm⟩)
      have hloop : (s.call c.1 c.2).Sending (messages ++ c.1) := by
        refine (h.append c.1).loop fun m hm => hsend m ?_
        rw [← (h.append c.1).messages]
        exact List.mem_append_right _ hm
      exact ih hloop hsend fun m hm => hqueued m (by
        rw [List.flatMap_cons]
        exact List.mem_append_right _ hm)

end SlipSender

/-! ## The receiver -/

/-- Whenever the receiver has been called, the bytes it keeps are the last ones that have come, as
they have come: decoding in place has left them alone. -/
def KeptAsReceived (recvs : List (List UInt8)) : Prop :=
  ∀ before after, recvs = before ++ after → rxAfter [] before <:+ before.flatten

/-- **The receiver is the reader.**  What one call writes is what is read up to the part of a frame
that remains. -/
theorem slipReceive_eq_read (fuel : ℕ) {rx : List UInt8} (hfuel : rx.length ≤ fuel) :
    ∃ used part, rx = used ++ part ∧
      slipCode.read .between used = (.between, (slipReceive fuel rx).1) ∧
      (slipCode.readBody (slipCode.frameBody part)).2 = none ∧
      (slipReceive fuel rx).2 = slipCode.readInPlace part := by
  induction fuel generalizing rx with
  | zero =>
      obtain rfl := List.length_eq_zero_iff.mp (Nat.le_zero.mp hfuel)
      exact ⟨[], [], rfl, rfl, rfl, rfl⟩
  | succ fuel ih =>
      match hbody : slipCode.readBody (slipCode.frameBody rx) with
      | (body, none) =>
          rw [slipReceive_of_none (fuel + 1) hfuel (by rw [hbody])]
          exact ⟨[], rx, rfl, rfl, by rw [hbody], rfl⟩
      | (body, some rest) =>
          obtain ⟨-, -, hlt⟩ := readInPlace_of_some (by rw [hbody])
          obtain ⟨ys, hys, hread⟩ := slipCode.exists_read_between hbody
          obtain ⟨used, part, hrest, hused, hpart, hkept⟩ := @ih rest (by omega)
          rw [slipReceive_of_some fuel (by rw [hbody]), hbody]
          refine ⟨ys ++ used, part, by rw [hys, hrest, List.append_assoc], ?_, hpart, hkept⟩
          rw [EscapeCode.read_append, hread, hused]
          rfl

/-- What calls write that keep every part of a frame as it has come is what is read of the stream,
symbol by symbol. -/
theorem written_eq_read {rx : List UInt8} {recvs written : List (List UInt8)}
    (h : Pollins rx recvs written) : ∀ {seen : List UInt8}, rx <:+ seen →
    (slipCode.readBody (slipCode.frameBody rx)).2 = none →
    (∀ before after, recvs = before ++ after → rxAfter rx before <:+ seen ++ before.flatten) →
    written = (slipCode.read .between (rx ++ recvs.flatten)).2 := by
  induction h with
  | nil rx =>
      intro seen _ hnone _
      rw [List.flatten_nil, List.append_nil, (slipCode.read_between_of_none hnone).1]
  | @cons rx recvd recvs written _ _ _ ih =>
      intro seen hrx _ hkept
      obtain ⟨used, part, hsplit, hused, hpart, hleft⟩ :=
        slipReceive_eq_read (rx ++ recvd).length le_rfl
      have hfirst : (runTcp rx recvd).2 <:+ seen ++ recvd := by
        simpa [rxAfter] using hkept [recvd] recvs rfl
      -- the part of a frame that remains is as long as what is kept, so it is what is kept
      have hsuffix : part <:+ seen ++ recvd := by
        obtain ⟨front, rfl⟩ := hrx
        exact ⟨front ++ used, by rw [List.append_assoc, ← hsplit, List.append_assoc]⟩
      have hlength : (runTcp rx recvd).2.length = part.length :=
        (congrArg List.length hleft).trans (slipCode.readInPlace_of_none hpart).1
      have hsame : (runTcp rx recvd).2 = part :=
        (List.suffix_of_suffix_length_le hfirst hsuffix hlength.le).eq_of_length hlength
      rw [hsame] at ih hfirst
      have hrest := @ih (seen ++ recvd) hfirst hpart fun before after hrecvs => by
        have hnext := hkept (recvd :: before) after (by rw [hrecvs]; rfl)
        rw [← hsame]
        simpa [rxAfter] using hnext
      rw [List.flatten_cons, ← List.append_assoc, hsplit, List.append_assoc,
        EscapeCode.read_append, hused, ← hrest]
      rfl

/-- Pieces that end behind complete frames, as the receiver sees them, leave nothing to keep. -/
lemma keptAsReceived_of_between {recvs : List (List UInt8)}
    (h : ∀ before after, recvs = before ++ after →
      (slipCode.read .between before.flatten).1 = .between) : KeptAsReceived recvs := by
  suffices hnil : ∀ before after, recvs = before ++ after → rxAfter [] before = [] from
    fun before after hrecvs => by
      rw [hnil before after hrecvs]
      exact List.nil_suffix
  intro before
  induction before using List.reverseRecOn with
  | nil => exact fun _ _ => rfl
  | append_singleton before recvd ih =>
      intro after hrecvs
      have hbefore : recvs = before ++ recvd :: after := by simpa using hrecvs
      obtain ⟨used, part, hsplit, hused, hpart, hleft⟩ :=
        slipReceive_eq_read ([] ++ recvd).length (le_refl ([] ++ recvd).length)
      rw [rxAfter_concat, ih _ hbefore, runTcp, hleft]
      have hplace := h _ after hrecvs
      rw [List.flatten_append, List.flatten_singleton, EscapeCode.read_append,
        h before _ hbefore, ← List.nil_append recvd, hsplit, EscapeCode.read_append, hused]
        at hplace
      rw [(slipCode.read_between_of_none hpart).2 hplace]
      rfl

end MonoBus
