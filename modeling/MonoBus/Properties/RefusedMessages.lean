import MonoBus.Construction.SlipReceiver

/-!
# Messages for which there is no room

A message that `write_req` refuses is lost, as its frame is no frame any more when the receiver
comes back to it.  But the loss goes no further: every message is requested once, in order and
unchanged, and behind a refused one the receiver finds the next frame again
(`slip_requests`).  Only a message that starts with `SLIP_END` or has two of them in a row could be
taken for a frame of its own.
-/

namespace MonoBus

/-- A message that is not empty and could not be taken for a frame. -/
def PlainMessage (m : List UInt8) : Prop := m ≠ [] ∧ slipCode.Spaced m

instance (m : List UInt8) : Decidable (PlainMessage m) :=
  inferInstanceAs (Decidable (m ≠ [] ∧ slipCode.Spaced m))

/-- What remains of frames is nothing, or what is kept of a refused frame and the frames behind
it. -/
inductive Kept : List UInt8 → List (List UInt8) → Prop
  | nothing : Kept [] []
  | refused {m : List UInt8} (h : PlainMessage m) (rest : List (List UInt8)) :
      Kept (refusedFrame m ++ slipFrames rest) rest

section Calls

variable {fuel : ℕ} {rx : List UInt8} {messages rest : List (List UInt8)}

/-- The frame of a message is read as it was sent. -/
lemma readBody_frameBody_slipFrame (m tail : List UInt8) :
    slipCode.readBody (slipCode.frameBody (slipFrame m ++ tail)) = (m, some tail) := by
  have hlist : slipFrame m ++ tail = slipEnd :: (slipCode.stuff m ++ slipEnd :: tail) := by
    simp [slipFrame, delimit]
  rw [hlist]
  exact (congrArg slipCode.readBody (if_pos rfl)).trans (slipCode.readBody_stuff m tail)

/-- The loop requests the messages of its frames, up to the first that is refused. -/
lemma slipReceiveWith_frames (hplain : ∀ m ∈ messages, PlainMessage m) (grants : List Bool)
    (hfuel : (slipFrames messages).length ≤ fuel) :
    ∃ rest, ((slipReceiveWith fuel (slipFrames messages) grants).1.map Prod.fst) ++ rest =
        messages ∧
      Kept (slipReceiveWith fuel (slipFrames messages) grants).2 rest := by
  induction messages generalizing fuel grants with
  | nil =>
      refine ⟨[], ?_, ?_⟩
      · cases fuel <;> rfl
      · cases fuel <;> exact .nothing
  | cons m messages ih =>
      have hm := hplain m List.mem_cons_self
      rw [slipFrames_cons, List.length_append, length_slipFrame] at hfuel
      obtain ⟨fuel, rfl⟩ : ∃ f, fuel = f + 1 := Nat.exists_eq_succ_of_ne_zero (by omega)
      have hhead : (slipFrame m ++ slipFrames messages).head? = some slipEnd := rfl
      rw [slipFrames_cons,
        slipReceiveWith_request hhead hm.1 (readBody_frameBody_slipFrame m (slipFrames messages))]
      have hkept : Kept (m ++ (slipFrame m ++ slipFrames messages).drop m.length) messages := by
        have hle : m.length ≤ (slipFrame m).length := by
          rw [length_slipFrame, slipCode.length_stuff]
          omega
        rw [List.drop_append_of_le_length hle, ← List.append_assoc]
        exact .refused hm messages
      match grants with
      | true :: grants =>
          obtain ⟨rest, hrest, hkept⟩ := @ih fuel
            (fun x hx => hplain x (List.mem_cons_of_mem m hx)) grants (by omega)
          exact ⟨rest, congrArg (m :: ·) hrest, hkept⟩
      | [] => exact ⟨messages, rfl, hkept⟩
      | false :: _ => exact ⟨messages, rfl, hkept⟩

/-- A call drops what is kept of a refused frame and goes on with the frames behind it. -/
lemma runTcpWith_of_kept (h : Kept rx rest) (grants : List Bool)
    (hplain : ∀ m ∈ rest ++ messages, PlainMessage m) :
    ∃ rest', ((runTcpWith rx (slipFrames messages) grants).1.map Prod.fst) ++ rest' =
        rest ++ messages ∧
      Kept (runTcpWith rx (slipFrames messages) grants).2 rest' := by
  unfold runTcpWith
  cases h with
  | nothing => exact slipReceiveWith_frames hplain grants le_rfl
  | @refused m hm rest =>
      obtain ⟨xs, b, hframe, hesc, hflag, hspaced⟩ := exists_refusedFrame hm.1 hm.2
      have hlist : refusedFrame m ++ slipFrames rest ++ slipFrames messages =
          xs ++ b :: slipEnd :: slipFrames (rest ++ messages) := by
        rw [hframe, slipFrames_append]
        simp
      rw [hlist]
      obtain ⟨fuel, hfuel, hdropped⟩ := slipReceiveWith_spaced hesc hflag grants
        (slipFrames (rest ++ messages)) xs _ hspaced le_rfl
      rw [hdropped]
      exact slipReceiveWith_frames hplain grants hfuel

end Calls

/-- **A refused message is lost, and only it.**  Whatever `write_req` answers: if every `recv`
returns whole frames, then each message that has arrived is requested exactly once, in order and as
it was sent, except those that still stand in `rx_buf` behind a refused one. -/
theorem slip_requests {calls : List (List (List UInt8) × List Bool)}
    (hplain : ∀ m ∈ calls.flatMap Prod.fst, PlainMessage m) :
    ∃ rest,
      (runsTcpWith [] (calls.map fun c => (slipFrames c.1, c.2))).1.map Prod.fst ++ rest =
        calls.flatMap Prod.fst ∧
      Kept (runsTcpWith [] (calls.map fun c => (slipFrames c.1, c.2))).2 rest := by
  have hruns : ∀ (rx : List UInt8) (rest : List (List UInt8)), Kept rx rest →
      (∀ m ∈ rest, PlainMessage m) → ∃ rest',
      (runsTcpWith rx (calls.map fun c => (slipFrames c.1, c.2))).1.map Prod.fst ++ rest' =
        rest ++ calls.flatMap Prod.fst ∧
      Kept (runsTcpWith rx (calls.map fun c => (slipFrames c.1, c.2))).2 rest' := by
    induction calls with
    | nil => exact fun rx rest h _ => ⟨rest, by simp [runsTcpWith], h⟩
    | cons c calls ih =>
        intro rx rest h hrest
        rw [List.flatMap_cons] at hplain
        have hall : ∀ m ∈ rest ++ c.1, PlainMessage m := by
          intro m hm
          obtain hm | hm := List.mem_append.mp hm
          · exact hrest m hm
          · exact hplain m (List.mem_append_left _ hm)
        obtain ⟨rest₁, hcall, hkept₁⟩ := runTcpWith_of_kept h c.2 hall
        obtain ⟨rest₂, hcalls, hkept₂⟩ := ih
          (fun m hm => hplain m (List.mem_append_right _ hm)) _ _ hkept₁
          fun m hm => hall m (by rw [← hcall]; exact List.mem_append_right _ hm)
        refine ⟨rest₂, ?_, hkept₂⟩
        rw [List.map_cons, runsTcpWith]
        dsimp only
        rw [List.map_append, List.append_assoc, hcalls, ← List.append_assoc, hcall,
          List.append_assoc, List.flatMap_cons]
  exact hruns [] [] .nothing fun _ hm => absurd hm List.not_mem_nil

/-- Two messages arrive and the first is refused; then there is room, and a third arrives. -/
def fullRing : List (List (List UInt8) × List Bool) :=
  [([[0x2f, 1], [0x2f, 2]], [false]), ([[0x2f, 3]], [true, true])]

/-- All three are requested, and the last two are written. -/
theorem slip_requests_fullRing :
    (runsTcpWith [] (fullRing.map fun c => (slipFrames c.1, c.2))).1 =
        [([0x2f, 1], false), ([0x2f, 2], true), ([0x2f, 3], true)] ∧
      ∃ rest,
        (runsTcpWith [] (fullRing.map fun c => (slipFrames c.1, c.2))).1.map Prod.fst ++ rest =
          [[0x2f, 1], [0x2f, 2], [0x2f, 3]] := by
  obtain ⟨rest, hrequests, -⟩ := @slip_requests fullRing (by decide)
  exact ⟨by decide, rest, hrequests⟩

end MonoBus
