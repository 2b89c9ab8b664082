import MonoBus.Construction.SlipStream

/-!
# Segments of a TCP stream

The pieces in which the frames arrive are up to the network.  Between calls the receiver keeps the
part of a frame that has arrived, but as decoding works in place it may keep it in another form.
The messages come through if and only if the part is there as it was sent when the end of the
frame arrives (`slip_segmentation_iff`); and it is, wherever the cuts leave it unchanged.
-/

namespace MonoBus

/-! ## Cuts -/

/-- When the last byte of a frame arrives, `rx_buf` holds the part of the frame that came before as
it was sent.  The frame is that of `m`, `recvs` have arrived before, and `recvd` brings its last
byte. -/
def IntactAtEnds (messages recvs : List (List UInt8)) : Prop :=
  ∀ before recvd after, recvs = before ++ recvd :: after →
    ∀ sent m rest, messages = sent ++ m :: rest →
      (slipFrames sent).length ≤ before.flatten.length →
      before.flatten.length < (slipFrames (sent ++ [m])).length →
      (slipFrames (sent ++ [m])).length ≤ before.flatten.length + recvd.length →
      rxAfter [] before = before.flatten.drop (slipFrames sent).length

/-- A cut behind the first `k` bytes of the frame of `m` leaves the part in front of it as it is:
the bytes of the message that are complete there are also the first bytes of the frame. -/
def SafeCut (m : List UInt8) (k : ℕ) : Prop :=
  ∀ j ≤ m.length, (slipCode.stuff (m.take j)).length < k → m.take j <+: slipFrame m

/-- All pieces end at a safe cut. -/
def SafeCuts (messages recvs : List (List UInt8)) : Prop :=
  ∀ before after, recvs = before ++ after →
    ∀ sent m rest, messages = sent ++ m :: rest →
      (slipFrames sent).length ≤ before.flatten.length →
      before.flatten.length < (slipFrames (sent ++ [m])).length →
      SafeCut m (before.flatten.length - (slipFrames sent).length)

/-! ## Parts of frames -/

/-- A proper part of the first frame, from its start. -/
def PartOf (part : List UInt8) : List (List UInt8) → Prop
  | [] => part = []
  | m :: _ => part <+: slipFrame m ∧ part.length < (slipFrame m).length

lemma partOf_nil (messages : List (List UInt8)) : PartOf [] messages := by
  cases messages with
  | nil => rfl
  | cons m messages => exact ⟨List.nil_prefix, by simp [slipFrame, delimit]⟩

/-- What has been received of a stream of frames: complete frames and a part of the next. -/
lemma exists_part : ∀ {messages : List (List UInt8)} {xs : List UInt8},
    xs <+: slipFrames messages →
    ∃ sent rest part, messages = sent ++ rest ∧ xs = slipFrames sent ++ part ∧
      PartOf part rest := by
  intro messages
  induction messages with
  | nil =>
      intro xs h
      exact ⟨[], [], xs, rfl, rfl, List.prefix_nil.mp h⟩
  | cons m messages ih =>
      intro xs h
      rw [slipFrames_cons] at h
      by_cases hlt : xs.length < (slipFrame m).length
      · exact ⟨[], m :: messages, xs, rfl, rfl,
          List.prefix_of_prefix_length_le h (List.prefix_append _ _) hlt.le, hlt⟩
      · obtain ⟨ys, rfl⟩ := List.prefix_of_prefix_length_le (List.prefix_append _ _) h (by omega)
        obtain ⟨sent, rest, part, rfl, rfl, hpart⟩ := ih ((List.prefix_append_right_inj _).mp h)
        exact ⟨m :: sent, rest, part, rfl, by simp, hpart⟩

lemma prefix_of_length_lt {sent rest sent' rest' : List (List UInt8)} {m : List UInt8}
    (h : sent ++ rest = sent' ++ m :: rest')
    (hlt : (slipFrames sent).length < (slipFrames (sent' ++ [m])).length) : sent <+: sent' := by
  obtain hsub | ⟨more, rfl⟩ := List.prefix_or_prefix_of_prefix
    (List.prefix_append sent rest) (h ▸ List.prefix_append sent' (m :: rest'))
  · exact hsub
  · cases more with
    | nil => simp
    | cons m₁ more =>
        rw [List.append_assoc] at h
        obtain ⟨rfl, -⟩ := List.cons.inj (List.append_cancel_left h)
        simp only [slipFrames_append, slipFrames_cons, List.length_append, slipFrames_nil,
          List.length_nil] at hlt
        omega

/-- The start of a proper part of a frame, and what the reader gets from it. -/
lemma readBody_part {part m : List UInt8} (h : part <+: slipFrame m)
    (hlt : part.length < (slipFrame m).length) :
    ∃ j ≤ m.length, slipCode.readBody (slipCode.frameBody part) = (m.take j, none) ∧
      (part = [] ∨ (slipCode.stuff (m.take j)).length < part.length) ∧
      ∀ i ≤ m.length, (slipCode.stuff (m.take i)).length < part.length → i ≤ j := by
  cases part with
  | nil => exact ⟨0, Nat.zero_le _, rfl, .inl rfl, fun i _ hi => absurd hi (Nat.not_lt_zero _)⟩
  | cons b part =>
      rw [slipFrame, delimit] at h
      obtain ⟨rfl, hbody⟩ := List.cons_prefix_cons.mp h
      have hlen := length_slipFrame m
      rw [List.length_cons] at hlt
      have hprefix : part <+: slipCode.stuff m :=
        List.prefix_of_prefix_length_le hbody (List.prefix_append _ _) (by omega)
      obtain ⟨j, hj, hread, hfits, hmax⟩ := slipCode.readBody_of_prefix hprefix
      refine ⟨j, hj, hread, .inr ?_, fun i hi hfit => hmax i hi ?_⟩
      · rw [List.length_cons]
        omega
      · rw [List.length_cons] at hfit
        omega

lemma readBody_partOf {part : List UInt8} {messages : List (List UInt8)}
    (h : PartOf part messages) : (slipCode.readBody (slipCode.frameBody part)).2 = none := by
  cases messages with
  | nil =>
      obtain rfl : part = [] := h
      rfl
  | cons m messages =>
      obtain ⟨j, -, hread, -⟩ := readBody_part h.1 h.2
      rw [hread]

/-- A cut is safe exactly if reading in place leaves the part as it is. -/
lemma readInPlace_eq_iff {part m : List UInt8} (h : part <+: slipFrame m)
    (hlt : part.length < (slipFrame m).length) :
    slipCode.readInPlace part = part ↔ SafeCut m part.length := by
  obtain ⟨j, hj, hread, hfits, hmax⟩ := readBody_part h hlt
  have hstuff := slipCode.length_stuff (m.take j)
  have hout : (m.take j).length ≤ part.length := by
    obtain rfl | hfits := hfits
    · have hle := (slipCode.length_of_readBody hread).1
      exact hle
    · omega
  have hsame : slipCode.readInPlace part = part ↔ m.take j <+: part := by
    rw [EscapeCode.readInPlace, hread]
    constructor
    · intro heq
      exact ⟨_, heq⟩
    · rintro ⟨tail, htail⟩
      simp [← htail]
  rw [hsame]
  constructor
  · intro hprefix i hi hfit
    have hle := hmax i hi hfit
    have htake : m.take i <+: m.take j := List.take_prefix_take_left hle
    exact (htake.trans hprefix).trans h
  · intro hsafe
    obtain rfl | hfits := hfits
    · rw [List.prefix_nil, ← List.length_eq_zero_iff]
      exact Nat.le_zero.mp hout
    · exact List.prefix_of_prefix_length_le (hsafe j hj hfits) h hout

/-! ## From one call to the next -/

/-- The same from the middle of a run: `part` of the first frame has been received, and `rx` is what
has become of it. -/
def IntactFrom (rx part : List UInt8) (messages recvs : List (List UInt8)) : Prop :=
  ∀ before recvd after, recvs = before ++ recvd :: after →
    ∀ sent m rest, messages = sent ++ m :: rest →
      (slipFrames sent).length ≤ (part ++ before.flatten).length →
      (part ++ before.flatten).length < (slipFrames (sent ++ [m])).length →
      (slipFrames (sent ++ [m])).length ≤ (part ++ before.flatten).length + recvd.length →
      rxAfter rx before = (part ++ before.flatten).drop (slipFrames sent).length

section Step

variable {rx part part' recvd m : List UInt8} {messages sent rest recvs : List (List UInt8)}

/-- A call, if it brings the end of the first frame, must find the part intact; and so must the
calls that follow, for the frames that follow. -/
lemma intactFrom_cons (hpart : PartOf part (m :: messages)) (hsplit : m :: messages = sent ++ rest)
    (hrecvd : part ++ recvd = slipFrames sent ++ part') :
    IntactFrom rx part (m :: messages) (recvd :: recvs) ↔
      ((slipFrame m).length ≤ part.length + recvd.length → rx = part) ∧
        IntactFrom (runTcp rx recvd).2 part' rest recvs := by
  have hreceived (before : List (List UInt8)) : part ++ (recvd :: before).flatten =
      slipFrames sent ++ (part' ++ before.flatten) := by
    rw [List.flatten_cons, ← List.append_assoc, hrecvd, List.append_assoc]
  have hlength (before : List (List UInt8)) := congrArg List.length (hreceived before)
  have hframes (ms : List (List UInt8)) :
      (slipFrames (sent ++ ms)).length = (slipFrames sent).length + (slipFrames ms).length := by
    rw [slipFrames_append, List.length_append]
  simp only [List.length_append] at hlength
  constructor
  · intro h
    constructor
    · intro hend
      have hfirst := h [] recvd recvs rfl [] m messages rfl (Nat.zero_le _)
        (by simpa using hpart.2) (by simpa using hend)
      simpa [rxAfter] using hfirst
    · intro before recvd' after hrecvs sent' m' rest' hrest hle hlt hend
      have hsent : m :: messages = (sent ++ sent') ++ m' :: rest' := by
        rw [hsplit, hrest, List.append_assoc]
      have hbefore := hlength before
      have hprevious := hframes sent'
      have hthis := hframes (sent' ++ [m'])
      rw [← List.append_assoc] at hthis
      rw [List.length_append] at hle hlt hend
      have hnext := h (recvd :: before) recvd' after (by rw [hrecvs]; rfl) (sent ++ sent') m' rest'
        hsent (by rw [List.length_append]; omega) (by rw [List.length_append]; omega)
        (by rw [List.length_append]; omega)
      rw [hreceived, hprevious, ← List.drop_drop, List.drop_left] at hnext
      exact hnext
  · rintro ⟨hfirst, hnext⟩ before recvd' after hrecvs sent' m' rest' hsent hle hlt hend
    rw [List.length_append] at hle hlt hend
    cases before with
    | nil =>
        obtain ⟨rfl, -⟩ := List.cons.inj hrecvs
        rw [List.flatten_nil, List.length_nil, Nat.add_zero] at hle hlt hend
        -- the part is shorter than the first frame
        cases sent' with
        | nil =>
            obtain ⟨rfl, -⟩ := List.cons.inj hsent
            rw [List.nil_append, slipFrames_cons, slipFrames_nil, List.append_nil] at hend
            simpa [rxAfter] using hfirst hend
        | cons m₀ sent' =>
            obtain ⟨rfl, -⟩ := List.cons.inj hsent
            have hshort := hpart.2
            rw [slipFrames_cons, List.length_append] at hle
            omega
    | cons recvd₀ before =>
        obtain ⟨rfl, hafter⟩ := List.cons.inj hrecvs
        have hbefore := hlength before
        -- the frame in question is one of those that follow
        have hsub : sent <+: sent' := prefix_of_length_lt (hsplit.symm.trans hsent) (by omega)
        obtain ⟨sent'', rfl⟩ := hsub
        have hprevious := hframes sent''
        have hthis := hframes (sent'' ++ [m'])
        rw [← List.append_assoc] at hthis
        have hrest : rest = sent'' ++ m' :: rest' := by
          rw [hsplit, List.append_assoc] at hsent
          exact List.append_cancel_left hsent
        have hmain := hnext before recvd' after hafter sent'' m' rest' hrest
          (by rw [List.length_append]; omega) (by rw [List.length_append]; omega)
          (by rw [List.length_append]; omega)
        rw [hreceived, hprevious, ← List.drop_drop, List.drop_left]
        exact hmain

lemma exists_tail (hsplit : m :: messages = sent ++ rest)
    (hrecvd : part ++ recvd = slipFrames sent ++ part') (hpart' : PartOf part' rest)
    (hend : (slipFrame m).length ≤ part.length + recvd.length) :
    ∃ tail, part ++ recvd = slipFrame m ++ tail := by
  cases sent with
  | nil =>
      obtain rfl : m :: messages = rest := hsplit
      obtain rfl : part ++ recvd = part' := hrecvd
      have hshort := hpart'.2
      rw [List.length_append] at hshort
      omega
  | cons m₀ sent =>
      obtain ⟨rfl, -⟩ := List.cons.inj hsplit
      refine ⟨slipFrames sent ++ part', ?_⟩
      rw [hrecvd, slipFrames_cons, List.append_assoc]

lemma eq_of_inside (hsplit : m :: messages = sent ++ rest)
    (hrecvd : part ++ recvd = slipFrames sent ++ part')
    (hlt : part.length + recvd.length < (slipFrame m).length) :
    sent = [] ∧ rest = m :: messages ∧ part' = part ++ recvd := by
  cases sent with
  | nil => exact ⟨rfl, hsplit.symm, hrecvd.symm⟩
  | cons m₀ sent =>
      obtain ⟨rfl, -⟩ := List.cons.inj hsplit
      have hlen := congrArg List.length hrecvd
      simp only [slipFrames_cons, List.length_append] at hlen
      omega

lemma PartOf.eq_nil (hpart : PartOf part messages) (hall : part = slipFrames messages) :
    messages = [] := by
  cases messages with
  | nil => rfl
  | cons m messages =>
      have hlt := hpart.2
      rw [hall, slipFrames_cons, List.length_append] at hlt
      omega

/-- Bytes that are gone do not come back: a part that has become shorter is not intact when the
end of its frame arrives. -/
lemma not_intactFrom_of_short (hne : ∀ recvd ∈ recvs, recvd ≠ []) (hpart : PartOf part messages)
    (hall : part ++ recvs.flatten = slipFrames messages) (hshort : rx.length < part.length) :
    ¬ IntactFrom rx part messages recvs := by
  induction recvs generalizing rx part messages with
  | nil =>
      rw [List.flatten_nil, List.append_nil] at hall
      rw [hall, hpart.eq_nil hall] at hshort
      exact absurd hshort (Nat.not_lt_zero _)
  | cons recvd recvs ih =>
      rw [List.flatten_cons, ← List.append_assoc] at hall
      obtain ⟨sent, rest, part', hsplit, hrecvd, hpart'⟩ := exists_part ⟨_, hall⟩
      cases messages with
      | nil =>
          obtain rfl : part = [] := hpart
          exact absurd hshort (Nat.not_lt_zero _)
      | cons m messages =>
          rw [intactFrom_cons hpart hsplit hrecvd]
          rintro ⟨hfirst, hnext⟩
          by_cases hend : (slipFrame m).length ≤ part.length + recvd.length
          · rw [hfirst hend] at hshort
            exact lt_irrefl _ hshort
          · obtain ⟨rfl, rfl, rfl⟩ := eq_of_inside hsplit hrecvd (by omega)
            obtain ⟨used, left, hused, -, -, hkept, -⟩ := runTcp_bound rx recvd
            have hlen := congrArg List.length hused
            refine ih (fun recvd' h => hne recvd' (List.mem_cons_of_mem _ h)) hpart' hall ?_ hnext
            rw [hkept, List.length_append]
            rw [List.length_append, List.length_append] at hlen
            omega

/-- The last symbol of a stuffed message is no escape symbol. -/
lemma exists_stuff_eq_append (hm : m ≠ []) :
    ∃ front b, slipCode.stuff m = front ++ [b] ∧ b ≠ slipCode.esc := by
  have hne : slipCode.stuff m ≠ [] :=
    fun h => hm (slipCode.stuff_injective (h.trans slipCode.stuff_nil.symm))
  obtain ⟨front, b, hstuff⟩ : ∃ front b, slipCode.stuff m = front ++ [b] :=
    ⟨_, _, (List.dropLast_append_getLast hne).symm⟩
  refine ⟨front, b, hstuff, ?_⟩
  rcases slipCode.last_of_stuff hstuff with rfl | rfl | ⟨hesc, -⟩
  · decide
  · decide
  · exact hesc

/-- The last byte of a frame makes the receiver take something. -/
lemma readBody_of_end (hm : m ≠ []) (hpart : PartOf part (m :: messages))
    (hlast : rx.getLast? = part.getLast?) {tail : List UInt8}
    (hrecvd : part ++ recvd = slipFrame m ++ tail) :
    (slipCode.readBody (slipCode.frameBody (rx ++ recvd))).2 ≠ none := by
  obtain ⟨front, b, hstuff, hb⟩ := exists_stuff_eq_append hm
  have hframe : slipFrame m ++ tail = (slipEnd :: front) ++ (b :: slipEnd :: tail) := by
    simp [slipFrame, delimit, hstuff]
  have hlen := length_slipFrame m
  have hlt := hpart.2
  rw [hstuff, List.length_append, List.length_singleton] at hlen
  rw [hframe] at hrecvd
  -- wherever the cut is, the end follows the last symbol of the stuffed message
  obtain ⟨xs, hxs⟩ : ∃ xs, rx ++ recvd = xs ++ b :: slipEnd :: tail := by
    obtain ⟨more, -, hmore⟩ | ⟨more, hmore, hrest⟩ := List.append_eq_append_iff.mp hrecvd
    · exact ⟨rx ++ more, by rw [hmore, List.append_assoc]⟩
    · rcases more with _ | ⟨a, _ | ⟨a', more⟩⟩
      · exact ⟨rx, congrArg (rx ++ ·) hrest.symm⟩
      · obtain ⟨rfl, rfl⟩ := List.cons.inj hrest
        rw [hmore, List.getLast?_concat] at hlast
        obtain ⟨xs, rfl⟩ := List.getLast?_eq_some_iff.mp hlast
        exact ⟨xs, by simp⟩
      · have hlong := congrArg List.length hmore
        simp only [List.length_append, List.length_cons] at hlong
        omega
  rw [hxs]
  exact slipCode.readBody_frameBody_ne_none hb xs tail

/-- If everything that is taken is a frame of the next message, the part was intact. -/
lemma eq_part_of_used (hm : m ≠ []) (hpart : PartOf part (m :: messages))
    (hlen : rx.length = part.length) (hlast : rx.getLast? = part.getLast?) {tail left : List UInt8}
    (hrecvd : part ++ recvd = slipFrame m ++ tail) {written more : List (List UInt8)}
    (hmessages : written ++ more = m :: messages) (hused : rx ++ recvd = slipFrames written ++ left)
    (hleft : (slipCode.readBody (slipCode.frameBody left)).2 = none) : rx = part := by
  cases written with
  | nil =>
      rw [slipFrames_nil, List.nil_append] at hused
      rw [← hused] at hleft
      exact absurd hleft (readBody_of_end hm hpart hlast hrecvd)
  | cons m' written =>
      obtain ⟨rfl, -⟩ := List.cons.inj hmessages
      rw [slipFrames_cons, List.append_assoc] at hused
      -- both start like the frame, and end within it
      have hlt := hpart.2
      have hrx : rx <+: slipFrame m' :=
        List.prefix_of_prefix_length_le ⟨recvd, hused⟩ (List.prefix_append _ _) (by omega)
      have hboth := List.prefix_of_prefix_length_le hrx hpart.1 hlen.le
      exact hboth.eq_of_length hlen

lemma length_le_of_used {used : List UInt8} {written more : List (List UInt8)}
    (hne : used ≠ []) (hused : used = slipFrames written)
    (hmessages : written ++ more = m :: messages) : (slipFrame m).length ≤ used.length := by
  cases written with
  | nil => exact absurd (hused.trans slipFrames_nil) hne
  | cons m' written =>
      obtain ⟨rfl, -⟩ := List.cons.inj hmessages
      rw [hused, slipFrames_cons, List.length_append]
      exact Nat.le_add_right _ _

end Step

lemma eq_nil_of_length_slipFrames {messages : List (List UInt8)}
    (h : (slipFrames messages).length = 0) : messages = [] := by
  cases messages with
  | nil => rfl
  | cons m messages => simp [slipFrame, delimit] at h

lemma Pollins.ne_nil {rx : List UInt8} {recvs written : List (List UInt8)}
    (h : Pollins rx recvs written) : ∀ recvd ∈ recvs, recvd ≠ [] := by
  induction h with
  | nil rx => simp
  | cons hne _ _ ih => exact List.forall_mem_cons.mpr ⟨hne, ih⟩

lemma Pollins.length_le {rx : List UInt8} {recvs written : List (List UInt8)}
    (h : Pollins rx recvs written) :
    (slipFrames written).length ≤ rx.length + recvs.flatten.length := by
  induction h with
  | nil rx => exact Nat.zero_le _
  | @cons rx recvd recvs written _ _ _ ih =>
      obtain ⟨used, left, hused, -, -, hkept, hle, -⟩ := runTcp_bound rx recvd
      have hsplit := congrArg List.length hused
      rw [List.length_append, List.length_append] at hsplit
      rw [slipFrames_append, List.length_append, List.flatten_cons, List.length_append]
      omega

/-- From the middle of a run: as long as no byte has been lost, the remaining messages are written
exactly if each frame is intact when its end arrives. -/
theorem written_eq_iff {rx : List UInt8} {recvs written : List (List UInt8)}
    (h : Pollins rx recvs written) : ∀ {part : List UInt8} {messages : List (List UInt8)},
    (∀ m ∈ messages, m ≠ []) → PartOf part messages →
    part ++ recvs.flatten = slipFrames messages →
    rx.length = part.length → rx.getLast? = part.getLast? →
    (written = messages ↔ IntactFrom rx part messages recvs) := by
  induction h with
  | nil rx =>
      intro part messages _ hpart hall _ _
      rw [List.flatten_nil, List.append_nil] at hall
      refine iff_of_true (hpart.eq_nil hall).symm fun before recvd after hrecvs => ?_
      exact absurd hrecvs (by simp)
  | @cons rx recvd recvs written hne hfits hrun ih =>
      intro part messages hmessages hpart hall hlen hlast
      rw [List.flatten_cons, ← List.append_assoc] at hall
      obtain ⟨sent, rest, part', hsplit, hrecvd, hpart'⟩ := exists_part ⟨_, hall⟩
      have hrest : part' ++ recvs.flatten = slipFrames rest := by
        rw [hrecvd, hsplit, slipFrames_append, List.append_assoc] at hall
        exact List.append_cancel_left hall
      cases messages with
      | nil =>
          have hnil := congrArg List.length hall
          simp only [slipFrames_nil, List.length_append, List.length_nil] at hnil
          exact absurd (List.length_eq_zero_iff.mp (by omega)) hne
      | cons m messages =>
          obtain ⟨used, left, hused, hleft, hrx, hkept, hle, heq⟩ := runTcp_bound rx recvd
          have hbytes := congrArg List.length hused
          have htotal := congrArg List.length hall
          have hmore := hrun.length_le
          simp only [List.length_append] at hbytes htotal
          -- the messages that are written account for every byte
          have hexact (h : (runTcp rx recvd).1 ++ written = m :: messages) :
              used = slipFrames (runTcp rx recvd).1 := by
            have hframes := congrArg List.length (congrArg slipFrames h)
            rw [slipFrames_append, List.length_append] at hframes
            exact heq (by omega)
          have hrestne : ∀ m' ∈ rest, m' ≠ [] := fun m' hm' =>
            hmessages m' (hsplit ▸ List.mem_append_right _ hm')
          rw [intactFrom_cons hpart hsplit hrecvd]
          by_cases hintact : rx = part
          · -- the frames that are complete come through
            subst hintact
            have hpart'' := readBody_partOf hpart'
            have hcall : runTcp rx recvd = (sent, slipCode.readInPlace part') := by
              rw [runTcp, hrecvd]
              refine slipReceive_frames hpart'' sent _ (fun m' hm' => ?_) le_rfl
              exact hmessages m' (hsplit ▸ List.mem_append_left _ hm')
            have hsame := slipCode.readInPlace_of_none hpart''
            rw [hcall] at ih ⊢
            rw [hsplit, List.append_cancel_left_eq]
            exact (ih hrestne hpart' hrest hsame.1 hsame.2).trans (and_iff_right fun _ => rfl).symm
          by_cases hend : (slipFrame m).length ≤ part.length + recvd.length
          · -- the end of a frame arrives that is not intact
            refine iff_of_false (fun hwritten => hintact ?_) fun h => hintact (h.1 hend)
            obtain ⟨tail, htail⟩ := exists_tail hsplit hrecvd hpart' hend
            rw [hexact hwritten] at hused
            exact eq_part_of_used (hmessages m List.mem_cons_self) hpart hlen hlast htail hwritten
              hused hleft
          · obtain ⟨rfl, rfl, rfl⟩ := eq_of_inside hsplit hrecvd (by omega)
            rw [and_iff_right fun h => absurd h hend]
            by_cases hnone : used = []
            · -- nothing is taken
              subst hnone
              obtain rfl : rx ++ recvd = left := hused
              have hnothing : (runTcp rx recvd).1 = [] :=
                eq_nil_of_length_slipFrames (by simpa using hle)
              have hsame := slipCode.readInPlace_of_none hleft
              rw [hnothing, List.nil_append]
              refine ih hmessages hpart' hrest ?_ ?_
              · rw [hkept, List.length_append, List.length_append, hlen]
              · rw [hrx, hsame.2, List.getLast?_append_of_ne_nil _ hne,
                  List.getLast?_append_of_ne_nil _ hne]
            · -- something is lost
              refine iff_of_false (fun hwritten => ?_) (not_intactFrom_of_short ?_ hpart' hrest ?_)
              · have hlong := length_le_of_used hnone (hexact hwritten) hwritten
                omega
              · exact hrun.ne_nil
              · have hpos := List.length_pos_iff.mpr hnone
                rw [hkept, List.length_append]
                omega

/-! ## Safe cuts -/

section Safe

variable {messages recvs : List (List UInt8)}

/-- While the pieces end at safe cuts, `rx_buf` holds the part that has been received. -/
lemma rxAfter_of_safeCuts (hne : ∀ m ∈ messages, m ≠ [])
    (hall : recvs.flatten = slipFrames messages) (hsafe : SafeCuts messages recvs)
    (before : List (List UInt8)) : ∀ after, recvs = before ++ after →
    ∃ sent rest part, messages = sent ++ rest ∧ before.flatten = slipFrames sent ++ part ∧
      PartOf part rest ∧ rxAfter [] before = part := by
  induction before using List.reverseRecOn with
  | nil => exact fun _ _ => ⟨[], messages, [], rfl, rfl, partOf_nil messages, rfl⟩
  | append_singleton before recvd ih =>
      intro after hrecvs
      obtain ⟨sent, rest, part, hsplit, hbefore, hpart, hrx⟩ := ih (recvd :: after)
        (by rw [hrecvs, List.append_assoc]; rfl)
      have hflat : slipFrames sent ++ (part ++ recvd ++ after.flatten) =
          slipFrames sent ++ slipFrames rest := by
        rw [← slipFrames_append, ← hsplit, ← hall, hrecvs]
        simp [hbefore]
      obtain ⟨more, rest', part', rfl, hrecvd, hpart'⟩ :=
        exists_part ⟨_, List.append_cancel_left hflat⟩
      have hreceived : (before ++ [recvd]).flatten = slipFrames (sent ++ more) ++ part' := by
        rw [List.flatten_append, hbefore, slipFrames_append, List.append_assoc, List.append_assoc,
          ← hrecvd]
        simp
      refine ⟨sent ++ more, rest', part', by rw [hsplit, List.append_assoc], hreceived, hpart', ?_⟩
      have hcall : runTcp part recvd = (more, slipCode.readInPlace part') := by
        rw [runTcp, hrecvd]
        refine slipReceive_frames (readBody_partOf hpart') more _ (fun m hm => hne m ?_) le_rfl
        rw [hsplit]
        exact List.mem_append_right _ (List.mem_append_left _ hm)
      rw [rxAfter_concat, hrx, hcall]
      -- the cut at the end of this piece is safe
      cases rest' with
      | nil =>
          obtain rfl : part' = [] := hpart'
          rfl
      | cons m rest' =>
          have hcut := hsafe (before ++ [recvd]) after hrecvs (sent ++ more) m rest'
            (by rw [hsplit, List.append_assoc])
            (by rw [hreceived, List.length_append]; omega) (by
              have hlt := hpart'.2
              simp only [hreceived, slipFrames_append, slipFrames_cons, slipFrames_nil,
                List.length_append, List.length_nil]
              omega)
          rw [hreceived, List.length_append, Nat.add_sub_cancel_left] at hcut
          exact (readInPlace_eq_iff hpart'.1 hpart'.2).mpr hcut

/-- Then each frame is intact when its end arrives. -/
lemma intactAtEnds_of_safeCuts (hne : ∀ m ∈ messages, m ≠ [])
    (hall : recvs.flatten = slipFrames messages) (hsafe : SafeCuts messages recvs) :
    IntactAtEnds messages recvs := by
  intro before recvd after hrecvs sent m rest hmessages hle hlt _
  obtain ⟨sent', rest', part, hsplit, hbefore, hpart, hrx⟩ :=
    rxAfter_of_safeCuts hne hall hsafe before (recvd :: after) hrecvs
  have hlen := congrArg List.length hbefore
  rw [List.length_append] at hlen
  have hsub : sent' <+: sent := prefix_of_length_lt (hsplit.symm.trans hmessages) (by omega)
  have hsub' : sent <+: sent' := by
    cases rest' with
    | nil =>
        rw [List.append_nil] at hsplit
        rw [← hsplit, hmessages]
        exact List.prefix_append _ _
    | cons m' rest' =>
        refine prefix_of_length_lt (hmessages.symm.trans hsplit) ?_
        have hshort := hpart.2
        simp only [slipFrames_append, slipFrames_cons, slipFrames_nil, List.length_append,
          List.length_nil]
        omega
  obtain rfl : sent' = sent := hsub.eq_of_length (le_antisymm hsub.length_le hsub'.length_le)
  rw [hrx, hbefore, List.drop_left]

end Safe

/-- **Segments of a TCP stream.**  The messages that are written are those that were sent if and
only if each frame is intact when its end arrives; and they are if all pieces end at safe cuts. -/
theorem slip_segmentation_iff {messages recvs written : List (List UInt8)} {tx : List UInt8}
    (htx : tx.length = rxBufSize) (hmessages : ∀ m ∈ messages, m ≠ [] ∧ slipSize m < rxBufSize)
    (hsent : recvs.flatten = slipSend tx messages) (h : Pollins [] recvs written) :
    (written = messages ↔ IntactAtEnds messages recvs) ∧
      (SafeCuts messages recvs → written = messages) := by
  have hne : ∀ m ∈ messages, m ≠ [] := fun m hm => (hmessages m hm).1
  have hall : recvs.flatten = slipFrames messages := by
    rw [hsent, slipSend_eq messages tx htx]
    intro m hm
    rw [← slipSize_eq]
    exact hmessages m hm
  have hiff : written = messages ↔ IntactAtEnds messages recvs :=
    written_eq_iff h hne (partOf_nil messages) hall rfl rfl
  exact ⟨hiff, fun hsafe => hiff.mpr (intactAtEnds_of_safeCuts hne hall hsafe)⟩

/-! ## A message in two pieces -/

def txZero : List UInt8 := List.replicate rxBufSize 0

/-- Cut behind its opening `SLIP_END`, a frame of one byte comes through. -/
theorem slip_segmentation_iff_opening : ∃ written,
    Pollins [] [[0xc0], [0x2f, 0xc0]] written ∧ written = [[0x2f]] := by
  have hmessages : ∀ m ∈ [[0x2f]], m ≠ [] ∧ slipSize m < rxBufSize := by decide
  have hframes : ∀ m ∈ [[0x2f]], m ≠ [] ∧ (slipFrame m).length < rxBufSize := by decide
  have hsent : [[0xc0], [0x2f, 0xc0]].flatten = slipSend txZero [[0x2f]] :=
    (slipSend_eq _ _ List.length_replicate hframes).symm
  have hrun := Pollins.cons (by decide) (by decide)
    (.cons (by decide) (by decide) (.nil (runTcp (runTcp [] [0xc0]).2 [0x2f, 0xc0]).2))
  refine ⟨_, hrun, (slip_segmentation_iff List.length_replicate hmessages hsent hrun).2 ?_⟩
  intro before after hrecvs sent m rest hm hle hlt j hj hfit
  obtain ⟨rfl, rfl, rfl⟩ : sent = [] ∧ m = [0x2f] ∧ rest = [] := by
    cases sent with
    | nil => simpa using hm.symm
    | cons m₀ sent => simp at hm
  -- fewer than two bytes of the frame are in front of any cut within it
  have hcut : before.flatten.length ≤ 1 := by
    match before, hrecvs with
    | [], _ => decide
    | [_], hrecvs =>
        obtain ⟨rfl, -⟩ := List.cons.inj hrecvs
        decide
    | first :: second :: before, hrecvs =>
        obtain ⟨hfirst, htail⟩ := List.cons.inj hrecvs
        obtain ⟨hsecond, -⟩ := List.cons.inj htail
        rw [← hfirst, ← hsecond] at hlt
        have hlong : (slipFrames ([] ++ [[0x2f]])).length = 3 := rfl
        simp only [List.flatten_cons, List.length_append, List.length_cons, List.length_nil] at hlt
        omega
  have hnone : (slipCode.stuff (List.take j [0x2f])).length = 0 := by
    rw [slipFrames_nil, List.length_nil, Nat.sub_zero] at hfit
    omega
  have hle := slipCode.length_stuff (List.take j [0x2f])
  have hnil : List.take j [(0x2f : UInt8)] = [] := List.length_eq_zero_iff.mp (by omega)
  rw [hnil]
  exact List.nil_prefix

/-- Cut behind its first byte, a message of two bytes is lost. -/
theorem slip_segmentation_counterexample :
    ¬ ∀ (messages recvs written : List (List UInt8)) (tx : List UInt8), tx.length = rxBufSize →
      (∀ m ∈ messages, m ≠ [] ∧ slipSize m < rxBufSize) →
      recvs.flatten = slipSend tx messages → Pollins [] recvs written → written = messages := by
  intro h
  have hmessages : ∀ m ∈ [[0x2f, 0x61]], m ≠ [] ∧ slipSize m < rxBufSize := by decide
  have hframes : ∀ m ∈ [[0x2f, 0x61]], m ≠ [] ∧ (slipFrame m).length < rxBufSize := by decide
  have hsent : [[0xc0, 0x2f], [0x61, 0xc0]].flatten = slipSend txZero [[0x2f, 0x61]] :=
    (slipSend_eq _ _ List.length_replicate hframes).symm
  have hrun : Pollins [] [[0xc0, 0x2f], [0x61, 0xc0]] [] :=
    .cons (by decide) (by decide) (.cons (by decide) (by decide) (.nil _))
  cases h _ _ _ txZero List.length_replicate hmessages hsent hrun

end MonoBus
