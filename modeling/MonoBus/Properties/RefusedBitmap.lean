import MonoBus.Construction.LayerEffects

/-!
# Messages whose bitmaps are refused

A bitmap that is too short for its width and height is not set.  The message then ends like one
without a bitmap, so `_priority` clears the rectangle its integer arguments describe.  The state
stays as it is exactly if the layer is defined nowhere in that rectangle
(`refusedBitmap_unchanged_iff`).
-/

namespace MonoBus

/-- The local variables of `_priority` behind a list of arguments, as far as the integers among
them determine them. -/
def PriorityLocals.behind (l : PriorityLocals) (args : List OscArgument) : PriorityLocals :=
  args.foldl (fun l x => match x with
    | .int32 v => l.storeInt32 v
    | _ => l) l

/-- A message with a bitmap in which every bitmap is shorter than the width and the height in
front of it require. -/
structure RefusedBitmap where
  args : List OscArgument
  has_blob : ∃ blob, .blob blob ∈ args
  too_short : ∀ (i : ℕ) (blob : OscBlob), args[i]? = some (.blob blob) →
    ¬ SizeCheck (PriorityLocals.initial.behind (args.take i)).width
      (PriorityLocals.initial.behind (args.take i)).height blob

/-- The local variables at the end of the message. -/
def RefusedBitmap.locals (m : RefusedBitmap) : PriorityLocals :=
  PriorityLocals.initial.behind m.args

lemma argOps_of_refused :
    ∀ (args : List OscArgument) (off : ℕ) (l : PriorityLocals),
      (∀ (i : ℕ) (blob : OscBlob), args[i]? = some (.blob blob) →
        ¬ SizeCheck (l.behind (args.take i)).width (l.behind (args.take i)).height blob) →
      argOps off l args = ([], l.behind args) := by
  intro args
  induction args with
  | nil => intro off l _; rfl
  | cons x args ih =>
      intro off l hrefused
      have hstep : stepOps off l x = ([], l.behind [x]) := by
        cases x with
        | blob blob =>
            have hcheck : ¬ Int32.ofNat blob.data.length ≥ l.totLen := hrefused 0 blob rfl
            rw [stepOps, if_neg hcheck]
            rfl
        | _ => rfl
      have htail := ih (off + x.encode.length) (l.behind [x]) fun i blob hblob =>
        hrefused (i + 1) blob hblob
      rw [argOps, hstep]
      show ([] ++ (argOps _ (l.behind [x]) args).1, (argOps _ (l.behind [x]) args).2) = _
      rw [htail]
      rfl

lemma set_behind (l : PriorityLocals) (args : List OscArgument) :
    (l.behind args).set = l.set := by
  induction args generalizing l with
  | nil => rfl
  | cons x args ih =>
      refine (ih _).trans ?_
      cases x with
      | int32 v => exact set_storeInt32 l v
      | _ => rfl

/-- A message none of whose bitmaps is accepted clears a rectangle of its layer. -/
lemma messageOps_of_refused (m : RefusedBitmap) : messageOps m.args = [m.locals.clrOp] := by
  have hrun := argOps_of_refused m.args 0 .initial m.too_short
  have hset : m.locals.set = false := set_behind .initial m.args
  rw [messageOps, hrun]
  show (if m.locals.set then [] else [] ++ [m.locals.clrOp]) = _
  rw [hset]
  rfl

lemma handleMessage_of_refused (m : RefusedBitmap) {prio : Prio} {fn : Fnmatch}
    (pkt : Packet (messageTo (.ofPrio prio) m.args).encode) (state : State) :
    pkt.handleMessage Call.exec fn state =
      clrPixels state prio m.locals.offx m.locals.offy m.locals.width m.locals.height := by
  rw [handleMessage_ofPrio, messageOps_of_refused]
  exact bind_pure _

/-- Erasing a layer changes a pixel exactly where the layer is defined. -/
lemma erase_eq_self_iff (px : Pixel) (prio : Prio) :
    px.erase prio = px ↔ px.defined prio = false := by
  constructor
  · intro h
    have hdefined := Pixel.defined_erase prio prio px
    rw [h] at hdefined
    simpa using hdefined
  · intro h
    apply Pixel.ext_layer
    intro p
    rw [layer_erase]
    split_ifs with hp
    · rw [hp, Pixel.layer, h]
    · rfl

/-- **Refused bitmaps.**  A message whose bitmaps are all refused leaves mask and bits of every
pixel as they are if and only if its layer is defined at none of the pixels of the rectangle
its integers give. -/
theorem refusedBitmap_unchanged_iff (m : RefusedBitmap) (prio : Prio) (fn : Fnmatch)
    (pkt : Packet (messageTo (.ofPrio prio) m.args).encode) (state : State) :
    pkt.handleMessage Call.exec fn state = .ok state ↔
      ∀ c, touches m.locals.offx m.locals.offy m.locals.width m.locals.height c →
        (state c).defined prio = false := by
  rw [handleMessage_of_refused, clrPixels_eq, Except.ok.injEq, funext_iff]
  refine forall_congr' fun c => ?_
  by_cases hc : touches m.locals.offx m.locals.offy m.locals.width m.locals.height c
  · rw [if_pos hc, erase_eq_self_iff]
    exact (imp_iff_right hc).symm
  · rw [if_neg hc]
    exact iff_of_true rfl fun h => absurd h hc

/-! ## One byte for two rows -/

/-- A bitmap of two rows that comes with one byte. -/
def oneByteForTwoRows : RefusedBitmap where
  args := setArgs 0 0 8 2 (.ofByte 0x80)
  has_blob := ⟨.ofByte 0x80, by simp [setArgs]⟩
  too_short
    | 0, _, h | 1, _, h | 2, _, h | 3, _, h => by simp [setArgs] at h
    | 4, blob, h => by
        obtain rfl : OscBlob.ofByte 0x80 = blob := by simpa [setArgs] using h
        decide
    | i + 5, _, h => by simp [setArgs] at h

def cornerLit : State := fun c => if c = (0, 0) then ⟨1, 1⟩ else ⟨0, 0⟩

/-- The refused bitmap clears the pixel. -/
theorem refusedBitmap_counterexample :
    ¬ ∀ (m : RefusedBitmap) (prio : Prio) (fn : Fnmatch)
      (pkt : Packet (messageTo (.ofPrio prio) m.args).encode) (state : State),
      pkt.handleMessage Call.exec fn state = .ok state := by
  intro h
  have hrun := h oneByteForTwoRows 0 .wildcard (Packet.placed _ (by decide)) cornerLit
  rw [handleMessage_of_refused, clrPixels_eq] at hrun
  have hcorner := congrFun (Except.ok.inj hrun) (0, 0)
  have htouched : touches oneByteForTwoRows.locals.offx oneByteForTwoRows.locals.offy
      oneByteForTwoRows.locals.width oneByteForTwoRows.locals.height (0, 0) :=
    mem_rectKeys.mpr ⟨by decide, by decide⟩
  rw [if_pos htouched, erase_eq_self_iff] at hcorner
  exact absurd hcorner (by decide)

end MonoBus
