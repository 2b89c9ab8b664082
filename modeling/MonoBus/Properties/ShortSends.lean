import MonoBus.Construction.SlipSender
import MonoBus.Properties.Segmentation

/-!
# Frames that are sent in part

A short send costs the message that it cuts, and no other (`slip_short_sends`).  Sending the frame
again from its start seldom repairs it: the receiver takes the first `SLIP_END` of the second frame
for the end of the first.  A message that is cut once comes through if and only if the cut is at
one of three places (`slip_short_sends_iff`).

This is so for pieces that leave what is kept of a frame as it has come (`KeptAsReceived`), as all
pieces do that end behind a complete frame.  Others may cost a message that no send has cut, as
`slip_segmentation_iff` says.
-/

namespace MonoBus

open SlipSender

section Sends

variable {tx : List UInt8} {cs : List (List (List UInt8) × List SendAnswer)}

lemma sending_calls (htx : tx.length = rxBufSize)
    (hqueued : ∀ m ∈ cs.flatMap Prod.fst, Sendable m) :
    ((idle tx).calls cs).Sending (cs.flatMap Prod.fst) :=
  (sending_idle htx).calls (fun _ hm => absurd hm List.not_mem_nil) hqueued

lemma ne_nil_of_done {s : SlipSender} {messages : List (List UInt8)} (h : s.Sending messages)
    (hmessages : ∀ m ∈ messages, Sendable m) : ∀ job ∈ s.done, job.1 ≠ [] := by
  intro job hjob
  refine (hmessages job.1 ?_).1
  rw [← h.messages]
  exact List.mem_append_left _ (List.mem_map_of_mem hjob)

lemma written_eq {s : SlipSender} {messages recvs written : List (List UInt8)}
    (h : s.Sending messages) (hmessages : ∀ m ∈ messages, Sendable m)
    (hwire : recvs.flatten = s.wire) (hrun : Pollins [] recvs written)
    (hkept : KeptAsReceived recvs) :
    written = (s.done.flatMap fun job => slipCode.received job.1 job.2) ++
      (slipCode.read .between
        (s.cuts.flatMap fun n => (slipFrame (s.queue.headD [])).take n)).2 := by
  rw [written_eq_read hrun List.suffix_rfl rfl hkept, List.nil_append, hwire, h.wire,
    EscapeCode.read_append, slipCode.read_resent (ne_nil_of_done h hmessages)]

end Sends

/-- **A short send costs no other message.**  Whatever is queued and whatever `send` answers, the
messages are sent in order, and what the receiver writes of the stream, if it keeps parts of frames
as they come, is, message by message, what it would write of that message alone.  A message that was
never cut is written as it is.  Of one that was cut once it writes the bytes in front of the cut, or
these and the whole message if the cut is in an escape sequence. -/
theorem slip_short_sends {tx : List UInt8} {cs : List (List (List UInt8) × List SendAnswer)}
    {recvs written : List (List UInt8)} (htx : tx.length = rxBufSize)
    (hqueued : ∀ m ∈ cs.flatMap Prod.fst, Sendable m)
    (hwire : recvs.flatten = ((idle tx).calls cs).wire) (hrun : Pollins [] recvs written)
    (hkept : KeptAsReceived recvs) :
    let s := (idle tx).calls cs
    s.done.map Prod.fst ++ s.queue = cs.flatMap Prod.fst ∧
      (s.done.flatMap fun job => slipCode.received job.1 job.2) <+: written ∧
      (s.queue = [] → written = s.done.flatMap fun job => slipCode.received job.1 job.2) ∧
      ∀ job ∈ s.done, (job.2 = [] → slipCode.received job.1 job.2 = [job.1]) ∧
        ∀ n > 0, job.2 = [n] → ∃ j ≤ job.1.length,
          (n = (slipCode.stuff (job.1.take j)).length + 1 ∧
            slipCode.received job.1 job.2 = if j = 0 then [] else [job.1.take j]) ∨
          (n = (slipCode.stuff (job.1.take j)).length + 2 ∧
            slipCode.received job.1 job.2 = [job.1.take j ++ job.1]) := by
  have hsending := sending_calls htx hqueued
  have hne := ne_nil_of_done hsending hqueued
  have hwritten := written_eq hsending hqueued hwire hrun hkept
  refine ⟨hsending.messages, ?_, fun hnil => ?_, fun job hjob => ⟨fun hcuts => ?_, ?_⟩⟩
  · rw [hwritten]
    exact List.prefix_append _ _
  · rw [hwritten, hsending.idle hnil, List.flatMap_nil, EscapeCode.read_nil, List.append_nil]
  · rw [hcuts, slipCode.received_nil (hne job hjob)]
  · intro n hpos hcuts
    have hlt : n < (slipFrame job.1).length := hsending.done job hjob n (by simp [hcuts])
    obtain ⟨j, hj, ⟨hn, hread⟩ | ⟨hn, -, hread⟩⟩ := slipCode.received_eq (hne job hjob) hpos hlt
    · refine ⟨j, hj, .inl ⟨hn, ?_⟩⟩
      rw [hcuts, hread]
      cases j with
      | zero => rfl
      | succ j =>
          have htake : job.1.take (j + 1) ≠ [] := by simp [hne job hjob]
          rw [if_neg htake, if_neg j.succ_ne_zero]
    · exact ⟨j, hj, .inr ⟨hn, by rw [hcuts, hread]⟩⟩

/-- **When a resent frame repairs the damage.**  If everything has been sent in the end, and no
message has been cut more than once, a receiver that keeps parts of frames as they come writes the
messages as they were queued if and only if every cut is at the start of a frame, in front of its
last byte, or in the escape sequence of its first byte. -/
theorem slip_short_sends_iff {tx : List UInt8} {cs : List (List (List UInt8) × List SendAnswer)}
    {recvs written : List (List UInt8)} (htx : tx.length = rxBufSize)
    (hqueued : ∀ m ∈ cs.flatMap Prod.fst, Sendable m)
    (hwire : recvs.flatten = ((idle tx).calls cs).wire) (hrun : Pollins [] recvs written)
    (hkept : KeptAsReceived recvs) (hall : ((idle tx).calls cs).queue = [])
    (honce : ∀ job ∈ ((idle tx).calls cs).done, job.2.length ≤ 1) :
    written = cs.flatMap Prod.fst ↔
      ∀ job ∈ ((idle tx).calls cs).done, ∀ n ∈ job.2,
        n = 0 ∨ n + 1 = (slipFrame job.1).length ∨
          n = 2 ∧ ∃ b ∈ job.1.head?, b = slipEnd ∨ b = slipEsc := by
  have hsending := sending_calls htx hqueued
  have hmessages := hsending.messages
  rw [hall, List.append_nil] at hmessages
  rw [written_eq hsending hqueued hwire hrun hkept, hsending.idle hall, List.flatMap_nil,
    EscapeCode.read_nil, List.append_nil, ← hmessages,
    slipCode.flatMap_received_iff (ne_nil_of_done hsending hqueued) honce hsending.done]
  simp only [EscapeCode.HarmlessCut, EscapeCode.isSpecial, decide_eq_true_eq]
  rfl

/-! ## A message that is cut once -/

/-- A message of two bytes, of whose frame `send` takes `n` bytes and then everything. -/
def cutOnce (n : ℕ) : List (List (List UInt8) × List SendAnswer) :=
  [([[0x2f, 0x61]], [.sent n]), ([], [.sent 4])]

lemma length_txZero : txZero.length = rxBufSize := List.length_replicate

lemma sendable_cutOnce (n : ℕ) : ∀ m ∈ (cutOnce n).flatMap Prod.fst, Sendable m := by
  intro m hm
  obtain rfl := List.mem_singleton.mp hm
  exact ⟨by simp, by decide⟩

lemma calls_cutOnce {n : ℕ} (hn : n < 4) :
    ((idle txZero).calls (cutOnce n)).queue = [] ∧
      ((idle txZero).calls (cutOnce n)).done = [([0x2f, 0x61], [n])] ∧
      ((idle txZero).calls (cutOnce n)).wire =
        (slipFrame [0x2f, 0x61]).take n ++ slipFrame [0x2f, 0x61] := by
  have hm : Sendable [0x2f, 0x61] := sendable_cutOnce n _ (by simp [cutOnce])
  have hsize : (slipFrame [0x2f, 0x61]).length = 4 := rfl
  obtain ⟨tx₁, htx₁, hloop₁⟩ := loop_cons (s := idle txZero) length_txZero hm [] [.sent n]
  let s : SlipSender := ⟨tx₁, [[0x2f, 0x61]], (slipFrame [0x2f, 0x61]).take n, [], [n]⟩
  have hcall₁ : (idle txZero).call [[0x2f, 0x61]] [.sent n] = s := by
    rw [call, show (idle txZero).queue = [] from rfl, List.nil_append, hloop₁, hsize]
    exact if_neg (not_le.mpr hn)
  obtain ⟨tx₂, -, hloop₂⟩ := loop_cons (s := s) htx₁ hm [] [.sent 4]
  have hcalls : (idle txZero).calls (cutOnce n) = s.loop [[0x2f, 0x61]] [.sent 4] := by
    rw [calls, cutOnce, List.foldl_cons, hcall₁, List.foldl_cons, List.foldl_nil, call]
    rfl
  rw [hcalls, hloop₂, hsize]
  exact ⟨rfl, rfl, rfl⟩

/-- The receiver is called when the first byte of the second frame has come, and for the rest. -/
def polledTwice (n : ℕ) : List (List UInt8) :=
  [(slipFrame [0x2f, 0x61]).take n ++ [0xc0], [0x2f, 0x61, 0xc0]]

lemma flatten_polledTwice {n : ℕ} (hn : n < 4) :
    (polledTwice n).flatten = ((idle txZero).calls (cutOnce n)).wire := by
  have hframe : slipFrame [0x2f, 0x61] = [0xc0] ++ [0x2f, 0x61, 0xc0] := by decide
  rw [(calls_cutOnce hn).2.2, polledTwice, List.flatten_cons, List.flatten_singleton,
    List.append_assoc, ← hframe]

lemma keptAsReceived_polledTwice {n : ℕ}
    (hfirst : (slipCode.read .between ((slipFrame [0x2f, 0x61]).take n ++ [0xc0])).1 = .between) :
    KeptAsReceived (polledTwice n) := by
  refine keptAsReceived_of_between fun before after hrecvs => ?_
  rcases before with _ | ⟨recvd, _ | ⟨recvd', before⟩⟩
  · rfl
  · obtain ⟨rfl, -⟩ := List.cons.inj hrecvs
    rwa [List.flatten_singleton]
  · obtain ⟨rfl, hrest⟩ := List.cons.inj hrecvs
    obtain ⟨rfl, hnil⟩ := List.cons.inj hrest
    obtain rfl := (List.append_eq_nil_iff.mp hnil.symm).1
    have hrest : (slipCode.read .between [0x2f, 0x61, 0xc0]).1 = .between := by decide
    rwa [List.flatten_cons, List.flatten_singleton, EscapeCode.read_append, hfirst]

/-- Of a message that is cut behind its first byte, this byte is all that is written. -/
theorem slip_short_sends_cutOnce :
    Pollins [] (polledTwice 2) (slipCode.received [0x2f, 0x61] [2]) ∧
      slipCode.received [0x2f, 0x61] [2] = [[0x2f]] := by
  obtain ⟨hqueue, hdone, -⟩ := calls_cutOnce (n := 2) (by decide)
  have hrun : Pollins [] (polledTwice 2) [[0x2f]] :=
    Pollins.cons (by decide) (by decide) (.cons (by decide) (by decide)
      (.nil (runTcp (runTcp [] [0xc0, 0x2f, 0xc0]).2 [0x2f, 0x61, 0xc0]).2))
  obtain ⟨-, -, hwritten, -⟩ := slip_short_sends length_txZero (sendable_cutOnce 2)
    (flatten_polledTwice (by decide)) hrun (keptAsReceived_polledTwice (by decide))
  have hreceived : [[0x2f]] = slipCode.received [0x2f, 0x61] [2] := by
    simpa [hdone] using hwritten hqueue
  exact ⟨hreceived ▸ hrun, hreceived.symm⟩

/-- A message that is cut in front of its last byte comes through. -/
theorem slip_short_sends_iff_cutOnce :
    ∃ written, Pollins [] (polledTwice 3) written ∧ written = [[0x2f, 0x61]] := by
  obtain ⟨hqueue, hdone, -⟩ := calls_cutOnce (n := 3) (by decide)
  have hrun := Pollins.cons (by decide) (by decide) (.cons (by decide) (by decide)
    (.nil (runTcp (runTcp [] [0xc0, 0x2f, 0x61, 0xc0]).2 [0x2f, 0x61, 0xc0]).2))
  have hmem {job : List UInt8 × List ℕ} (hjob : job ∈ ((idle txZero).calls (cutOnce 3)).done) :
      job = ([0x2f, 0x61], [3]) := by
    rw [hdone] at hjob
    exact List.mem_singleton.mp hjob
  refine ⟨_, hrun, (slip_short_sends_iff length_txZero (sendable_cutOnce 3)
    (flatten_polledTwice (by decide)) hrun (keptAsReceived_polledTwice (by decide)) hqueue
    fun job hjob => by rw [hmem hjob]; rfl).mpr fun job hjob n hn => ?_⟩
  rw [hmem hjob] at hn ⊢
  obtain rfl := List.mem_singleton.mp hn
  exact .inr (.inl rfl)

end MonoBus
