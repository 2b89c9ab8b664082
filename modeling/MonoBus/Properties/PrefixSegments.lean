import MonoBus.Construction.PrefixStream

/-!
# Segments of a stream of frames with their size in front

A ring that is full delays messages and loses none, as they stay in the socket
(`prefix_waits`).  But the receiver depends on the network for its frames: the messages come through
if and only if whatever arrives between two calls are whole frames, of messages for which the chunks
have room (`prefix_segmentation_iff`).
-/

namespace MonoBus

/-! ## A ring that is full -/

/-- **Back pressure.**  If whole frames arrive between the calls, of messages that fit into the
chunks that are handed out, then however many chunks there are in a call, the messages are written
in order and the others wait in the socket. -/
theorem prefix_waits {calls : List (List (List UInt8) × List PrefixChunk)}
    (hmessages : ∀ m ∈ calls.flatMap Prod.fst, m ≠ [] ∧ m.length + 4 ≤ rxBufSize)
    (hfits : ∀ m ∈ calls.flatMap Prod.fst, ∀ c ∈ calls, ∀ buf ∈ c.2, m.length ≤ buf.room) :
    ∃ written rest,
      prefixReceives [] (calls.map fun c => (prefixFrames c.1, c.2)) =
        .ok (written, prefixFrames rest) ∧
      written ++ rest = calls.flatMap Prod.fst := by
  -- what waits in front of some of the calls is like the messages that are still to come
  have hcalls : ∀ (later : List (List (List UInt8) × List PrefixChunk))
      (waiting : List (List UInt8)), (∀ c ∈ later, c ∈ calls) →
      (∀ m ∈ waiting, m ∈ calls.flatMap Prod.fst) →
      ∃ written rest,
        prefixReceives (prefixFrames waiting) (later.map fun c => (prefixFrames c.1, c.2)) =
          .ok (written, prefixFrames rest) ∧
        written ++ rest = waiting ++ later.flatMap Prod.fst := by
    intro later
    induction later with
    | nil => exact fun waiting _ _ => ⟨[], waiting, rfl, by simp⟩
    | cons c later ih =>
        intro waiting hlater hwaiting
        have hc := hlater c List.mem_cons_self
        have hall : ∀ m ∈ waiting ++ c.1, m ∈ calls.flatMap Prod.fst := by
          intro m hm
          obtain hm | hm := List.mem_append.mp hm
          · exact hwaiting m hm
          · exact List.mem_flatMap.mpr ⟨c, hc, hm⟩
        have hreceive := @prefixReceive_frames c.2 (waiting ++ c.1)
          (fun m hm => hmessages m (hall m hm))
          fun x hx => hfits x.1 (hall _ (List.of_mem_zip hx).1) c hc x.2 (List.of_mem_zip hx).2
        obtain ⟨written, rest, hreceives, hsplit⟩ := ih ((waiting ++ c.1).drop c.2.length)
          (fun x hx => hlater x (List.mem_cons_of_mem c hx))
          fun m hm => hall m (List.mem_of_mem_drop hm)
        refine ⟨(waiting ++ c.1).take c.2.length ++ written, rest, ?_, ?_⟩
        · rw [List.map_cons, prefixReceives, ← prefixFrames_append, hreceive, Run.ok_bind]
          dsimp only
          rw [hreceives]
          rfl
        · rw [List.append_assoc, hsplit, ← List.append_assoc, List.take_append_drop,
            List.append_assoc, List.flatMap_cons]
  exact hcalls calls [] (fun _ hc => hc) fun _ hm => absurd hm List.not_mem_nil

/-- Chunks that `write_req` hands out, with no more room than was asked for. -/
def zeroChunks (n : ℕ) : List PrefixChunk := List.replicate n ⟨[0, 0, 0], streamReqbuf, le_rfl⟩

/-- Two messages arrive while there is room for one, and nothing more before the next call. -/
def oneAtATime : List (List (List UInt8) × List PrefixChunk) :=
  [([[0x2f, 1], [0x2f, 2]], zeroChunks 1), ([], zeroChunks 2)]

/-- The second message is written in the second call. -/
theorem prefix_waits_oneAtATime :
    (∃ written rest,
      prefixReceives [] (oneAtATime.map fun c => (prefixFrames c.1, c.2)) =
        .ok (written, prefixFrames rest) ∧ written ++ rest = [[0x2f, 1], [0x2f, 2]]) ∧
      prefixReceive (zeroChunks 1) (prefixFrames [[0x2f, 1], [0x2f, 2]]) =
        .ok ([[0x2f, 1]], prefixFrames [[0x2f, 2]]) :=
  ⟨@prefix_waits oneAtATime (by decide) (by decide),
    prefixReceive_frame (by decide) (by decide) rfl⟩

/-! ## Segments -/

section Segments

variable {calls : List (List UInt8 × List PrefixChunk)} {messages written : List (List UInt8)}

/-- In each call there are chunks for everything that could have arrived: a frame has at least four
bytes. -/
def Roomy (calls : List (List UInt8 × List PrefixChunk)) : Prop :=
  ∀ c ∈ calls, c.1.length ≤ 4 * c.2.length

/-- In each call whole frames arrive, and their messages have room in the chunks. -/
def WholeFrames (calls : List (List UInt8 × List PrefixChunk)) (messages : List (List UInt8)) :
    Prop :=
  ∃ sent : List (List (List UInt8)), sent.flatten = messages ∧
    List.Forall₂ (fun c frames => c.1 = prefixFrames frames ∧ FitsChunks frames c.2) calls sent

/-- The frames of what is written are at least as long as what has arrived. -/
lemma prefixReceives_bound {left : List UInt8} (h : prefixReceives [] calls = .ok (written, left))
    (hroomy : Roomy calls) :
    (calls.map Prod.fst).flatten.length ≤ (prefixFrames written).length := by
  induction calls generalizing written with
  | nil => exact Nat.zero_le _
  | cons c calls ih =>
      rw [prefixReceives] at h
      obtain ⟨⟨w, mid⟩, hcall, h⟩ := Run.bind_eq_ok.mp h
      obtain ⟨⟨more, left'⟩, hmore, h⟩ := Run.bind_eq_ok.mp h
      simp only [Run.pure_eq, Except.ok.injEq, Prod.mk.injEq] at h
      obtain ⟨rfl, rfl⟩ := h
      obtain ⟨hle, -, hleft⟩ := prefixReceive_bound hcall
      obtain rfl := hleft (hroomy c List.mem_cons_self)
      have hle' := ih hmore fun x hx => hroomy x (List.mem_cons_of_mem c hx)
      rw [List.map_cons, List.flatten_cons, List.length_append, prefixFrames_append,
        List.length_append]
      rw [List.nil_append, List.length_nil, add_zero] at hle
      omega

/-- If everything comes through, each call writes the frames of its segment, as they are no longer
than the segment. -/
lemma wholeFrames_of_receives (hroomy : Roomy calls)
    (hsent : (calls.map Prod.fst).flatten = prefixFrames messages)
    (h : prefixReceives [] calls = .ok (messages, [])) : WholeFrames calls messages := by
  induction calls generalizing messages with
  | nil =>
      obtain ⟨rfl, -⟩ := Prod.mk.inj (Except.ok.inj h)
      exact ⟨[], rfl, .nil⟩
  | cons c calls ih =>
      rw [prefixReceives] at h
      obtain ⟨⟨w, mid⟩, hcall, h⟩ := Run.bind_eq_ok.mp h
      obtain ⟨⟨more, left⟩, hmore, h⟩ := Run.bind_eq_ok.mp h
      simp only [Run.pure_eq, Except.ok.injEq, Prod.mk.injEq] at h
      obtain ⟨rfl, rfl⟩ := h
      have hroomy' : Roomy calls := fun x hx => hroomy x (List.mem_cons_of_mem c hx)
      obtain ⟨hle, hfits, hleft⟩ := prefixReceive_bound hcall
      obtain rfl := hleft (hroomy c List.mem_cons_self)
      have hle' := prefixReceives_bound hmore hroomy'
      rw [List.map_cons, List.flatten_cons, prefixFrames_append] at hsent
      have hlength := congrArg List.length hsent
      rw [List.length_append, List.length_append] at hlength
      rw [List.nil_append, List.length_nil, add_zero] at hle
      obtain ⟨hsegment, hrest⟩ := List.append_inj hsent (by omega)
      obtain ⟨sent, rfl, hsents⟩ := ih hroomy' hrest hmore
      exact ⟨w :: sent, rfl, .cons ⟨hsegment, hfits⟩ hsents⟩

lemma four_mul_length_le (messages : List (List UInt8)) :
    4 * messages.length ≤ (prefixFrames messages).length := by
  induction messages with
  | nil => exact le_rfl
  | cons m messages ih =>
      rw [prefixFrames_cons, List.length_append, length_prefixFrame, List.length_cons]
      omega

/-- If whole frames arrive in each call, everything comes through. -/
lemma receives_of_wholeFrames (hroomy : Roomy calls)
    (hmessages : ∀ m ∈ messages, m ≠ [] ∧ m.length + 4 ≤ rxBufSize)
    (h : WholeFrames calls messages) : prefixReceives [] calls = .ok (messages, []) := by
  obtain ⟨sent, rfl, hsent⟩ := h
  induction hsent with
  | nil => rfl
  | @cons c frames calls sent hc _ ih =>
      obtain ⟨hsegment, hfits⟩ := hc
      rw [List.flatten_cons] at hmessages
      have hcount := four_mul_length_le frames
      have hlength := hroomy c List.mem_cons_self
      rw [hsegment] at hlength
      have hreceive := prefixReceive_frames
        (fun m hm => hmessages m (List.mem_append_left _ hm)) hfits
      rw [List.take_of_length_le (by omega), List.drop_of_length_le (by omega)] at hreceive
      rw [prefixReceives, List.nil_append, hsegment, hreceive, Run.ok_bind]
      dsimp only
      rw [prefixFrames_nil, ih (fun x hx => hroomy x (List.mem_cons_of_mem c hx))
        fun m hm => hmessages m (List.mem_append_right _ hm)]
      rfl

end Segments

/-- **Segments.**  The messages that are written are those that were sent if and only if each
segment is made of whole frames, and each message has room in the chunk it is received into. -/
theorem prefix_segmentation_iff {calls : List (List UInt8 × List PrefixChunk)}
    {messages : List (List UInt8)} (hroomy : Roomy calls)
    (hmessages : ∀ m ∈ messages, m ≠ [] ∧ m.length + 4 ≤ rxBufSize)
    (hsent : (calls.map Prod.fst).flatten = prefixSend messages) :
    prefixReceives [] calls = .ok (messages, []) ↔ WholeFrames calls messages := by
  rw [prefixSend_eq fun m hm => (hmessages m hm).2] at hsent
  exact ⟨wholeFrames_of_receives hroomy hsent, receives_of_wholeFrames hroomy hmessages⟩

/-- A message of two bytes that arrives in two segments. -/
def inTwo : List (List UInt8 × List PrefixChunk) :=
  [([0, 0, 0, 2, 0x2f], zeroChunks 5), ([0x61], zeroChunks 1)]

/-- Two messages are written: its first byte, and a byte that was in the ring before. -/
theorem prefix_segmentation_iff_inTwo :
    prefixReceives [] inTwo = .ok ([[0x2f], [0]], []) ∧ ¬ WholeFrames inTwo [[0x2f, 0x61]] := by
  have hrun : prefixReceives [] inTwo = .ok ([[0x2f], [0]], []) := by
    simp [prefixReceives, prefixReceive, inTwo, zeroChunks, beNat, streamReqbuf]
  refine ⟨hrun, fun hwhole => ?_⟩
  have hiff := @prefix_segmentation_iff inTwo [[0x2f, 0x61]]
    (by unfold Roomy; decide) (by decide) (by decide)
  rw [hrun] at hiff
  exact absurd (hiff.mpr hwhole) (by decide)

end MonoBus
