import MonoBus.Construction.LayerEffects

/-!
# A pattern path against the literal paths it matches

All priorities that match a pattern share one argument record, and the first of them consumes
it; the others find no argument and clear their whole layer.  The result is that of the
messages to the literal paths, handled one by one in any order, exactly where this makes no
difference: the message draws nothing on the display, and all but the first of the priorities
are defined only where it clears.  And a bit that is read behind the message is different for
each of them, since other bytes stand there.
-/

namespace MonoBus

/-! ## Drawing the same operations on several layers -/

section Layers

variable {mem : Memory} {a : ℕ} {ops : List LayerOp}

/-- Drawing on several layers, one after the other, acts on each of them by itself. -/
lemma foldlM_drawOps_ok (hread : ∀ op ∈ ops, op.Readable mem a) :
    ∀ {prios : List Prio} (state : State), prios.Nodup →
      ∃ state', prios.foldlM (fun state prio => drawOps Call.exec prio mem a ops state) state =
          .ok state' ∧
        ∀ c p, (state' c).layer p =
          if p ∈ prios then actAll mem a c ops ((state c).layer p) else (state c).layer p := by
  intro prios
  induction prios with
  | nil => intro state _; exact ⟨state, rfl, fun c p => by simp⟩
  | cons prio prios ih =>
      intro state hnodup
      obtain ⟨hprio, hprios⟩ := List.nodup_cons.mp hnodup
      obtain ⟨state₁, hrun₁, hact₁⟩ := drawOps_ok prio state hread
      obtain ⟨state', hrun, hact⟩ := ih state₁ hprios
      refine ⟨state', ?_, fun c p => ?_⟩
      · rw [List.foldlM_cons, hrun₁]
        exact hrun
      · rw [hact, hact₁]
        by_cases hp : p = prio
        · simp [hp, hprio]
        · simp [hp]

/-- The clear a handler performs when it finds no argument. -/
def clearAll : LayerOp := .clr 0 0 (Int32.ofNat widthNet) (Int32.ofNat heightNet)

lemma clears_clearAll (c : Coord) : clearAll.Clears c := by
  have hrow := c.1.isLt
  have hcol := c.2.isLt
  refine (touches_iff_inRect (by decide) (by decide) c).mpr ⟨⟨?_, ?_⟩, ?_, ?_⟩
  · simp
  · have hheight : (Int32.ofNat heightNet).toInt = heightNet := by decide
    rw [hheight, Int32.toInt_zero, zero_add]
    exact_mod_cast hrow
  · simp
  · have hwidth : (Int32.ofNat widthNet).toInt = widthNet := by decide
    rw [hwidth, Int32.toInt_zero, zero_add]
    exact_mod_cast hcol

lemma actAll_clearAll (c : Coord) (layer : Bool × Bool) :
    actAll mem a c [clearAll] layer = (false, layer.2) := by
  have hclears := clears_clearAll c
  have hpaints : ¬ clearAll.Paints c := by simp [clearAll, LayerOp.Paints]
  simp [actAll, LayerOp.act, hpaints, hclears]

end Layers

/-! ## One message, handled for several priorities -/

/-- The shared record does no harm: no priority matches; or the message reads its own argument
data only, paints nothing on the display if several priorities match, and the priorities behind
the first are defined only where it clears. -/
def SharedRecordHarmless (args : List OscArgument) (prios : List Prio) (state : State) : Prop :=
  prios = [] ∨
    (∀ op ∈ messageOps args, op.InData (args.flatMap OscArgument.encode).length) ∧
      ∀ prio ∈ prios.tail, ∀ c, (∀ op ∈ messageOps args, ¬ op.Paints c) ∧
        ((state c).defined prio = true → ∃ op ∈ messageOps args, op.Clears c)

section Dispatch

variable {mem : Memory} {a : ℕ} {args : List OscArgument} {prios : List Prio}

lemma dispatchOps_cons (prio : Prio) (prios : List Prio) (state : State) :
    dispatchOps Call.exec mem a args (prio :: prios) state =
      (drawOps Call.exec prio mem a (messageOps args) state >>=
        prios.foldlM fun state prio => drawOps Call.exec prio mem a [clearAll] state) := by
  rw [dispatchOps]
  refine bind_congr fun state₁ => ?_
  refine foldlM_congr_mem (fun state prio _ => ?_) state₁
  simp [drawOps, clearAll, LayerOp.call]

/-- The first priority draws the message, the others are cleared. -/
lemma dispatchOps_ok (hread : ∀ op ∈ messageOps args, op.Readable mem a) {prio : Prio}
    (hnodup : (prio :: prios).Nodup) (state : State) :
    ∃ state', dispatchOps Call.exec mem a args (prio :: prios) state = .ok state' ∧
      ∀ c p, (state' c).layer p =
        if p = prio then actAll mem a c (messageOps args) ((state c).layer p)
        else if p ∈ prios then (false, ((state c).layer p).2) else (state c).layer p := by
  obtain ⟨hprio, hprios⟩ := List.nodup_cons.mp hnodup
  obtain ⟨state₁, hrun₁, hact₁⟩ := drawOps_ok prio state hread
  have hclear : ∀ op ∈ [clearAll], op.Readable mem a := by simp [clearAll, LayerOp.Readable]
  obtain ⟨state', hrun, hact⟩ := foldlM_drawOps_ok hclear state₁ hprios
  refine ⟨state', ?_, fun c p => ?_⟩
  · rw [dispatchOps_cons, hrun₁]
    exact hrun
  · rw [hact, hact₁]
    by_cases hp : p = prio
    · simp [hp, hprio]
    · simp [hp, actAll_clearAll]

/-- Where the blobs can be read, one order agrees with the dispatch exactly if the message
undefines every layer behind the first and keeps its value bits. -/
lemma foldlM_drawOps_eq_iff (hread : ∀ op ∈ messageOps args, op.Readable mem a) {prio : Prio}
    (hnodup : (prio :: prios).Nodup) (state : State) {order : List Prio}
    (horder : order.Perm (prio :: prios)) :
    order.foldlM (fun state prio => drawOps Call.exec prio mem a (messageOps args) state) state =
        dispatchOps Call.exec mem a args (prio :: prios) state ↔
      ∀ p ∈ prios, ∀ c, actAll mem a c (messageOps args) ((state c).layer p) =
        (false, ((state c).layer p).2) := by
  obtain ⟨state₁, hrun₁, hlayer₁⟩ := dispatchOps_ok hread hnodup state
  obtain ⟨state₂, hrun₂, hlayer₂⟩ := foldlM_drawOps_ok hread state
    (horder.nodup_iff.mpr hnodup)
  rw [hrun₂, hrun₁, Except.ok.injEq]
  constructor
  · rintro rfl p hp c
    have hne : p ≠ prio := fun h => (List.nodup_cons.mp hnodup).1 (h ▸ hp)
    have hmem : p ∈ order := horder.mem_iff.mpr (List.mem_cons_of_mem prio hp)
    have hboth := (hlayer₂ c p).symm.trans (hlayer₁ c p)
    rwa [if_pos hmem, if_neg hne, if_pos hp] at hboth
  · intro h
    funext c
    refine Pixel.ext_layer fun p => ?_
    rw [hlayer₂, hlayer₁]
    by_cases hp : p = prio
    · rw [if_pos (horder.mem_iff.mpr (by simp [hp])), if_pos hp]
    · by_cases hp' : p ∈ prios
      · rw [if_pos (horder.mem_iff.mpr (by simp [hp'])), if_neg hp, if_pos hp', h p hp' c]
      · rw [if_neg (fun hmem => by simpa [hp, hp'] using horder.mem_iff.mp hmem),
          if_neg hp, if_neg hp']

/-- A message whose dispatch succeeds has read all its bits. -/
lemma readable_of_dispatchOps {prio : Prio} {state state' : State}
    (h : dispatchOps Call.exec mem a args (prio :: prios) state = .ok state') :
    ∀ op ∈ messageOps args, op.Readable mem a := by
  rw [dispatchOps_cons] at h
  obtain ⟨state₁, hrun, -⟩ := Run.bind_eq_ok.mp h
  by_contra hbad
  push Not at hbad
  rw [drawOps_error prio hbad] at hrun
  cases hrun

end Dispatch

/-! ## The messages -/

/-- The messages to the literal paths, handled one after the other in any order, and the message to
the pattern lead to the same state. -/
def DispatchAgrees (fn : Fnmatch) {segment : PathSegment} {args : List OscArgument}
    (pattern : Embedded (messageTo segment args).encode)
    (literal : ∀ prio, Embedded (messageTo (.ofPrio prio) args).encode) (state : State) : Prop :=
  ∀ order : List Prio, order.Perm (matchingPrios fn segment) → ∃ state',
    order.foldlM (fun state prio => (literal prio).handleMessage Call.exec fn state) state =
      .ok state' ∧
    pattern.handleMessage Call.exec fn state = .ok state'

section Messages

variable {fn : Fnmatch} {segment : PathSegment} {args : List OscArgument} {state : State}
  {pattern : Embedded (messageTo segment args).encode}
  {literal : ∀ prio, Embedded (messageTo (.ofPrio prio) args).encode}

/-- The messages to two paths draw the same for one priority, if no bit is read behind them. -/
lemma handleMessage_literal
    (hdata : ∀ op ∈ messageOps args, op.InData (args.flatMap OscArgument.encode).length)
    (prio : Prio) (state : State) :
    (literal prio).handleMessage Call.exec fn state =
      drawOps Call.exec prio pattern.mem pattern.argAddr (messageOps args) state := by
  rw [← drawOps_congr prio hdata (literal prio).at_data pattern.at_data,
    Embedded.handleMessage_messageTo, matchingPrios_ofPrio]
  simp [dispatchOps]

lemma dispatchAgrees_iff
    (hdata : ∀ op ∈ messageOps args, op.InData (args.flatMap OscArgument.encode).length) :
    DispatchAgrees fn pattern literal state ↔
      ∀ prio ∈ (matchingPrios fn segment).tail, ∀ c, (∀ op ∈ messageOps args, ¬ op.Paints c) ∧
        ((state c).defined prio = true → ∃ op ∈ messageOps args, op.Clears c) := by
  have hread : ∀ op ∈ messageOps args, op.Readable pattern.mem pattern.argAddr :=
    fun op hop => (hdata op hop).readable pattern.at_data
  have hnodup := nodup_matchingPrios fn segment
  unfold DispatchAgrees
  simp only [@handleMessage_literal fn segment args pattern literal hdata,
    Embedded.handleMessage_messageTo]
  cases hprios : matchingPrios fn segment with
  | nil =>
      refine iff_of_true (fun order horder => ⟨state, ?_, rfl⟩) (by simp)
      rw [horder.eq_nil]
      rfl
  | cons prio prios =>
      rw [hprios] at hnodup
      obtain ⟨state', hdispatch, -⟩ := dispatchOps_ok hread hnodup state
      have hiff {order : List Prio} (horder : order.Perm (prio :: prios)) :=
        foldlM_drawOps_eq_iff hread hnodup state horder
      rw [hdispatch] at hiff ⊢
      have hcleared : ∀ p c, actAll pattern.mem pattern.argAddr c (messageOps args)
          ((state c).layer p) = (false, ((state c).layer p).2) ↔
            (∀ op ∈ messageOps args, ¬ op.Paints c) ∧
              ((state c).defined p = true → ∃ op ∈ messageOps args, op.Clears c) :=
        fun p c => actAll_eq_cleared_iff args _
      simp only [hcleared] at hiff
      rw [List.tail_cons]
      constructor
      · intro h
        obtain ⟨state'', hfold, hsame⟩ := h _ (List.Perm.refl _)
        exact (hiff (List.Perm.refl _)).mp (hfold.trans hsame.symm)
      · exact fun h order horder => ⟨state', (hiff horder).mpr h, rfl⟩

end Messages

/-- **A pattern against the literal paths it matches.**  If the shared argument record does no harm,
the messages to the literal paths, handled one after the other in any order, lead to the same
state as the message to the pattern, wherever the messages stand and whatever stands around them;
and with nothing around them they do so only then. -/
theorem patternDispatch_iff (fn : Fnmatch) (segment : PathSegment) (args : List OscArgument)
    (pkt : Packet (messageTo segment args).encode)
    (literal : ∀ prio, Packet (messageTo (.ofPrio prio) args).encode) (state : State) :
    (SharedRecordHarmless args (matchingPrios fn segment) state →
      ∀ (pattern : Embedded (messageTo segment args).encode)
        (literal : ∀ prio, Embedded (messageTo (.ofPrio prio) args).encode),
        DispatchAgrees fn pattern literal state) ∧
    (DispatchAgrees fn pkt.embedded (fun prio => (literal prio).embedded) state →
      SharedRecordHarmless args (matchingPrios fn segment) state) := by
  constructor
  · rintro (hnone | ⟨hdata, hharmless⟩) pattern literal
    · intro order horder
      rw [hnone] at horder
      refine ⟨state, by rw [horder.eq_nil]; rfl, ?_⟩
      rw [Embedded.handleMessage_messageTo, hnone]
      rfl
    · exact (dispatchAgrees_iff hdata).mpr hharmless
  · intro hagrees
    cases hprios : matchingPrios fn segment with
    | nil => exact .inl rfl
    | cons prio prios =>
        obtain ⟨state', -, hpattern⟩ := hagrees _ (List.Perm.refl _)
        rw [Embedded.handleMessage_messageTo, hprios] at hpattern
        have hread := readable_of_dispatchOps hpattern
        -- with nothing behind the message, what can be read lies in it
        have hdata : ∀ op ∈ messageOps args,
            op.InData (args.flatMap OscArgument.encode).length :=
          fun op hop => (hread op hop).inData (within_messageOps args op hop) pkt.embedded.at_data
            pkt.limit_eq
        refine .inr ⟨hdata, ?_⟩
        rw [← hprios]
        exact (dispatchAgrees_iff hdata).mp hagrees

/-! ## A pattern with two matches -/

def thirties : PathSegment where
  chars := ['3', '?'].map Char.toUInt8
  no_slash := by decide
  no_nul := by decide

/-- A bitmap of one pixel for the top left corner. -/
def cornerArgs : List OscArgument :=
  setArgs 0 0 1 1 (.ofByte 0x80)

/-- The message to the pattern lights the pixel on layer 30 only, the two messages to the
literal paths light it on layer 31 too. -/
theorem patternDispatch_counterexample :
    ¬ ∀ order : List Prio, order.Perm (matchingPrios .wildcard thirties) →
      order.foldlM (fun state prio =>
        (Packet.placed (messageTo (.ofPrio prio) cornerArgs).encode
          (by revert prio; decide)).handleMessage Call.exec .wildcard state) State.zero =
        (Packet.placed (messageTo thirties cornerArgs).encode (by decide)).handleMessage
          Call.exec .wildcard State.zero := by
  set pkt : Packet (messageTo thirties cornerArgs).encode := .placed _ (by decide) with hpkt
  have hmatch : matchingPrios .wildcard thirties = [30, 31] := by decide
  have hops : messageOps cornerArgs = [.set 0 0 1 1 20] := by decide
  have hpaint : (LayerOp.set 0 0 1 1 20).Paints (0, 0) := by decide
  have hread : ∀ op ∈ messageOps cornerArgs, op.Readable pkt.mem pkt.argAddr := by
    intro op hop
    rw [hops, List.mem_singleton] at hop
    rw [hop]
    intro c hc
    have hblob : (Ptr.mk pkt.mem (pkt.argAddr + 20)).Holds
        ((monobusStrideForWidth (1 : Int32).toUInt32).toNat * (1 : Int32).toInt.toNat) :=
      show pkt.mem.Holds _ _ by decide
    exact exists_blobBit (by decide) (by decide) (fun _ _ => hblob)
      ((touches_iff_inRect (by decide) (by decide) c).mp hc)
  have hdata : ∀ op ∈ messageOps cornerArgs,
      op.InData (cornerArgs.flatMap OscArgument.encode).length :=
    fun op hop => (hread op hop).inData (within_messageOps cornerArgs op hop)
      pkt.embedded.at_data pkt.limit_eq
  intro h
  have hsame := h [30, 31] (hmatch ▸ List.Perm.refl _)
  have hliteral (prio : Prio) (state : State) :=
    @handleMessage_literal .wildcard thirties cornerArgs pkt.embedded
      (fun prio => (Packet.placed (messageTo (.ofPrio prio) cornerArgs).encode
        (by revert prio; decide)).embedded) hdata prio state
  rw [handleMessage_messageTo, hmatch] at hsame
  have hcleared := (foldlM_drawOps_eq_iff hread (by decide) State.zero (List.Perm.refl _)).mp
    ((foldlM_congr_mem (fun state prio _ => (hliteral prio state).symm) _).trans hsame)
  have hnone := (actAll_eq_cleared_iff cornerArgs _).mp (hcleared 31 (by decide) (0, 0))
  exact hnone.1 _ (hops ▸ List.mem_singleton_self _) hpaint

end MonoBus
