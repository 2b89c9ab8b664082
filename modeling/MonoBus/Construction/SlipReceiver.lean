import MonoBus.Properties.Segmentation
import MonoBus.Framework.CutFrames

/-!
# A receiver of SLIP frames with a full ring (`stream.h`)

If `write_req` has no room for a message, the receiver leaves its loop and keeps everything from
that frame on.  But the frame has been decoded in place: what is kept starts with the message and
not with its `SLIP_END`.
-/

namespace MonoBus

/-- The loop over the bytes of `rx_buf`, with the answers of `write_req`: the messages for which it
is called, each with the answer, and the bytes that remain.  A missing answer is a refusal. -/
def slipReceiveWith : ℕ → List UInt8 → List Bool → List (List UInt8 × Bool) × List UInt8
  | 0, rx, _ => ([], rx)
  | fuel + 1, rx, grants =>
      if rx.length = 0 then ([], rx)
      else
        let (rx, size, parsed) := slipDecodeInline rx
        if size ≠ 0 then
          match grants with
          | true :: grants =>
              if parsed ≠ 0 then
                let (more, left) := slipReceiveWith fuel (rx.drop parsed) grants
                ((rx.take size, true) :: more, left)
              else ([(rx.take size, true)], rx)
          | _ => ([(rx.take size, false)], rx)
        else if parsed ≠ 0 then slipReceiveWith fuel (rx.drop parsed) grants
        else ([], rx)

/-- The receiving part of `_lv2_osc_stream_run_tcp`. -/
def runTcpWith (rx recvd : List UInt8) (grants : List Bool) :
    List (List UInt8 × Bool) × List UInt8 :=
  slipReceiveWith (rx ++ recvd).length (rx ++ recvd) grants

/-- Calls of it, each with what `recv` returns and the answers of `write_req`. -/
def runsTcpWith :
    List UInt8 → List (List UInt8 × List Bool) → List (List UInt8 × Bool) × List UInt8
  | rx, [] => ([], rx)
  | rx, (recvd, grants) :: calls =>
      let (requests, rx) := runTcpWith rx recvd grants
      let (more, left) := runsTcpWith rx calls
      (requests ++ more, left)

/-! ## One frame -/

section Frame

variable {fuel : ℕ} {rx rest : List UInt8} {grants : List Bool}

/-- A body in front of which there is no `SLIP_END` is dropped. -/
lemma slipReceiveWith_drop (hhead : rx.head? ≠ some slipEnd)
    (h : (slipCode.readBody (slipCode.frameBody rx)).2 = some rest) :
    slipReceiveWith (fuel + 1) rx grants = slipReceiveWith fuel rest grants := by
  obtain ⟨-, hdrop, hlt⟩ := readInPlace_of_some h
  rw [slipReceiveWith, if_neg (by omega), slipDecodeInline_eq, h]
  dsimp only
  rw [if_neg hhead, if_neg (by simp), if_pos (show rx.length - rest.length ≠ 0 by omega), hdrop]

lemma slipReceiveWith_request (hhead : rx.head? = some slipEnd) {message : List UInt8}
    (hne : message ≠ []) (h : slipCode.readBody (slipCode.frameBody rx) = (message, some rest)) :
    slipReceiveWith (fuel + 1) rx grants =
      match grants with
      | true :: grants =>
          ((message, true) :: (slipReceiveWith fuel rest grants).1,
            (slipReceiveWith fuel rest grants).2)
      | _ => ([(message, false)], message ++ rx.drop message.length) := by
  obtain ⟨htake, hdrop, hlt⟩ := readInPlace_of_some (congrArg Prod.snd h)
  rw [slipReceiveWith, if_neg (by omega), slipDecodeInline_eq, h]
  rw [h] at htake
  dsimp only at htake ⊢
  rw [if_pos hhead, if_pos (by simpa using hne), htake]
  match grants with
  | true :: grants =>
      dsimp only
      rw [if_pos (show rx.length - rest.length ≠ 0 by omega), hdrop]
  | [] => rw [EscapeCode.readInPlace, h]
  | false :: grants => rw [EscapeCode.readInPlace, h]

end Frame

/-! ## Frames -/

/-- What is kept of a frame whose message is refused. -/
def refusedFrame (m : List UInt8) : List UInt8 := m ++ (slipFrame m).drop m.length

/-- The end of what is kept is the end of the frame. -/
lemma exists_refusedFrame {m : List UInt8} (hm : m ≠ []) (hspaced : slipCode.Spaced m) :
    ∃ xs b, refusedFrame m = xs ++ [b, slipEnd] ∧ b ≠ slipEsc ∧ b ≠ slipEnd ∧
      slipCode.Spaced (xs ++ [b, slipEnd]) := by
  obtain ⟨front, b, hstuff, hesc⟩ := exists_stuff_eq_append hm
  have hnotMem := slipCode.flag_notMem_stuff m
  have hlength := slipCode.length_stuff m
  rw [hstuff, List.length_append, List.length_singleton] at hlength
  rw [hstuff] at hnotMem
  obtain ⟨k, hk⟩ : ∃ k, m.length = k + 1 :=
    Nat.exists_eq_succ_of_ne_zero (mt List.length_eq_zero_iff.mp hm)
  have hframe : (slipFrame m).drop m.length = front.drop k ++ [b, slipEnd] := by
    have hlist : slipFrame m = slipEnd :: (front ++ [b, slipEnd]) := by
      simp [slipFrame, delimit, hstuff]
    rw [hlist, hk, List.drop_succ_cons, List.drop_append_of_le_length (by omega)]
  have htail : slipCode.flag ∉ front.drop k ++ [b] := fun hmem => hnotMem (by
    obtain hmem | hmem := List.mem_append.mp hmem
    · exact List.mem_append_left _ (List.mem_of_mem_drop hmem)
    · exact List.mem_append_right _ hmem)
  refine ⟨m ++ front.drop k, b, ?_, hesc, ?_, ?_⟩
  · rw [refusedFrame, hframe, List.append_assoc]
  · rintro rfl
    exact htail (List.mem_append_right _ List.mem_cons_self)
  · have happend := hspaced.append slipCode (by simp) htail
    rwa [← List.append_assoc, List.append_assoc] at happend

/-- Behind the end of one of its bodies is its end, or a shorter list of the same kind. -/
lemma eq_nil_or_of_through {b : UInt8} (hflag : b ≠ slipEnd) {xs body ys : List UInt8}
    (h : xs ++ [b, slipEnd] = body ++ slipEnd :: ys) :
    ys = [] ∨ ∃ xs', ys = xs' ++ [b, slipEnd] ∧ xs = body ++ slipEnd :: xs' := by
  obtain rfl | ⟨ys, last, rfl⟩ := List.eq_nil_or_concat ys
  · exact .inl rfl
  · have hends : (xs ++ [b]) ++ [slipEnd] = (body ++ slipEnd :: ys) ++ [last] := by
      simpa using h
    obtain ⟨hfront, hlast⟩ := List.append_inj' hends rfl
    obtain rfl : slipEnd = last := (List.cons.inj hlast).1
    obtain rfl | ⟨xs', b', rfl⟩ := List.eq_nil_or_concat ys
    · exact absurd (List.cons.inj (List.append_inj' hfront rfl).2).1 hflag
    · have hfronts : xs ++ [b] = (body ++ slipEnd :: xs') ++ [b'] := by
        simpa using hfront
      obtain ⟨hxs, hb⟩ := List.append_inj' hfronts rfl
      obtain rfl : b = b' := (List.cons.inj hb).1
      exact .inr ⟨xs', by simp, hxs⟩

/-- It is dropped by the next call. -/
lemma slipReceiveWith_spaced {b : UInt8} (hesc : b ≠ slipEsc) (hflag : b ≠ slipEnd)
    (grants : List Bool) (rest xs : List UInt8) (fuel : ℕ)
    (hspaced : slipCode.Spaced (xs ++ [b, slipEnd]))
    (hfuel : (xs ++ b :: slipEnd :: rest).length ≤ fuel) :
    ∃ fuel' ≥ rest.length,
      slipReceiveWith fuel (xs ++ b :: slipEnd :: rest) grants =
        slipReceiveWith fuel' rest grants := by
  induction hn : xs.length using Nat.strong_induction_on generalizing xs fuel with
  | _ n ih =>
      rw [List.length_append, List.length_cons, List.length_cons] at hfuel
      obtain ⟨fuel, rfl⟩ : ∃ f, fuel = f + 1 := Nat.exists_eq_succ_of_ne_zero (by omega)
      have hhead : (xs ++ b :: slipEnd :: rest).head? ≠ some slipEnd := by
        cases xs with
        | nil => simpa using hflag
        | cons x xs =>
            have hx : x ≠ slipEnd := hspaced.head_ne slipCode
            simpa using hx
      have hbody : slipCode.frameBody (xs ++ b :: slipEnd :: rest) = xs ++ b :: slipEnd :: rest :=
        if_neg hhead
      obtain ⟨ys, body, hread, hsplit⟩ := slipCode.readBody_through hesc xs rest
      rw [slipReceiveWith_drop hhead (by rw [hbody]; exact hread)]
      obtain rfl | ⟨xs', rfl, rfl⟩ := eq_nil_or_of_through hflag hsplit
      · exact ⟨fuel, by omega, rfl⟩
      · rw [List.length_append, List.length_cons] at hn hfuel
        have hspaced' : slipCode.Spaced (xs' ++ [b, slipEnd]) := by
          rw [List.append_assoc, List.cons_append] at hspaced
          exact hspaced.of_append slipCode
        obtain ⟨fuel', hle, hrest⟩ := ih xs'.length (by omega) xs' fuel hspaced' (by
          rw [List.length_append, List.length_cons, List.length_cons]
          omega) rfl
        exact ⟨fuel', hle, by rw [← hrest]; simp⟩

end MonoBus
