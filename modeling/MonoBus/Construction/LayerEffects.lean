import MonoBus.Construction.MessageCalls

/-!
# What a message does to the layers

The effect of an operation on one pixel and one layer is a function of the mask bit and the
value bit of that layer (`LayerOp.act`), and no operation touches another layer than its own.
A run of operations therefore acts on each layer by itself: `drawOps_ok` gives its result layer
by layer, and `drawOps_error` says that a blob read beyond the object is the only way to fail.

The blobs are read relative to the argument data.  As long as no bit is read behind these, the
effects are the same wherever the data stand (`drawOps_congr`).
-/

namespace MonoBus

/-! ## One layer of a pixel -/

/-- The mask bit and the value bit of a layer. -/
def Pixel.layer (px : Pixel) (p : Prio) : Bool × Bool := (px.defined p, px.value p)

lemma Pixel.ext_layer {px px' : Pixel} (h : ∀ p, px.layer p = px'.layer p) : px = px' := by
  have hword : ∀ {w w' : UInt32},
      (∀ p : Prio, w.toBitVec.getLsbD p = w'.toBitVec.getLsbD p) → w = w' := by
    intro w w' hbits
    apply UInt32.toBitVec_inj.mp
    exact BitVec.eq_of_getLsbD_eq fun i hi => hbits ⟨i, hi⟩
  cases px
  cases px'
  simp only [Pixel.mk.injEq]
  exact ⟨hword fun p => (Prod.mk.inj (h p)).1, hword fun p => (Prod.mk.inj (h p)).2⟩

lemma layer_paint (px : Pixel) (prio p : Prio) (bit : Bool) :
    (px.paint prio bit).layer p = if p = prio then (true, bit) else px.layer p := by
  by_cases hp : p = prio <;> simp [Pixel.layer, hp]

lemma layer_erase (px : Pixel) (prio p : Prio) :
    (px.erase prio).layer p = if p = prio then (false, (px.layer p).2) else px.layer p := by
  by_cases hp : p = prio <;> simp [Pixel.layer, hp]

/-! ## The effect of one operation -/

namespace LayerOp

/-- The bits an operation asks for lie in the object. -/
def Readable (mem : Memory) (a : ℕ) : LayerOp → Prop
  | .set offx offy width height blob => ∀ c, touches offx offy width height c →
      ∃ b, blobBit offx offy width ⟨mem, a + blob⟩ c = .ok b
  | .clr .. => True

/-- The bit an operation reads for a pixel. -/
def bit (mem : Memory) (a : ℕ) (c : Coord) : LayerOp → Bool
  | .set offx offy width _ blob => readBit offx offy width ⟨mem, a + blob⟩ c
  | .clr .. => false

/-- Whether an operation paints a pixel. -/
def Paints (c : Coord) : LayerOp → Prop
  | .set offx offy width height _ => touches offx offy width height c
  | .clr .. => False

/-- Whether an operation clears a pixel. -/
def Clears (c : Coord) : LayerOp → Prop
  | .set .. => False
  | .clr offx offy width height => touches offx offy width height c

instance (c : Coord) (op : LayerOp) : Decidable (op.Paints c) := by
  cases op <;> unfold Paints <;> infer_instance

instance (c : Coord) (op : LayerOp) : Decidable (op.Clears c) := by
  cases op <;> unfold Clears <;> infer_instance

/-- The effect of an operation on its own layer of a pixel. -/
def act (mem : Memory) (a : ℕ) (c : Coord) (op : LayerOp) (layer : Bool × Bool) : Bool × Bool :=
  if op.Paints c then (true, op.bit mem a c)
  else if op.Clears c then (false, layer.2)
  else layer

variable {mem : Memory} {a : ℕ} {op : LayerOp}

/-- An operation whose bits can be read acts on its own layer and leaves the others alone. -/
lemma exec_ok (prio : Prio) (state : State) (h : op.Readable mem a) :
    ∃ state', (op.call prio mem a).exec state = .ok state' ∧
      ∀ c p, (state' c).layer p =
        if p = prio then op.act mem a c ((state c).layer p) else (state c).layer p := by
  cases op with
  | set offx offy width height blob =>
      refine ⟨_, setPixels_eq fun c hc => readBit_eq (h c hc), fun c p => ?_⟩
      by_cases hc : touches offx offy width height c
      · simp [act, Paints, bit, hc, layer_paint]
      · simp [act, Paints, Clears, hc]
  | clr offx offy width height =>
      refine ⟨_, clrPixels_eq state prio offx offy width height, fun c p => ?_⟩
      by_cases hc : touches offx offy width height c
      · simp [act, Paints, Clears, hc, layer_erase]
      · simp [act, Paints, Clears, hc]

lemma exec_error (prio : Prio) (state : State) (h : ¬ op.Readable mem a) :
    (op.call prio mem a).exec state = .error .outOfRange := by
  cases op with
  | set offx offy width height blob =>
      have hfail : ¬ ∃ state', setPixels state prio offx offy width height ⟨mem, a + blob⟩ =
          .ok state' := fun ⟨state', hok⟩ => h (blobBit_ok_of_setPixels hok)
      rw [call, Call.exec]
      cases hrun : setPixels state prio offx offy width height ⟨mem, a + blob⟩ with
      | ok state' => exact absurd ⟨state', hrun⟩ hfail
      | error e => rw [error_of_setPixels hrun]
  | clr offx offy width height => exact absurd trivial h

end LayerOp

/-! ## The effect of a run -/

/-- The effect of a run of operations on one layer of a pixel. -/
def actAll (mem : Memory) (a : ℕ) (c : Coord) (ops : List LayerOp) (layer : Bool × Bool) :
    Bool × Bool :=
  ops.foldl (fun layer op => op.act mem a c layer) layer

section Run

variable {mem : Memory} {a : ℕ} (prio : Prio)

lemma drawOps_ok :
    ∀ {ops : List LayerOp} (state : State), (∀ op ∈ ops, op.Readable mem a) →
      ∃ state', drawOps Call.exec prio mem a ops state = .ok state' ∧
        ∀ c p, (state' c).layer p =
          if p = prio then actAll mem a c ops ((state c).layer p) else (state c).layer p := by
  intro ops
  induction ops with
  | nil => intro state _; exact ⟨state, rfl, fun c p => by simp [actAll]⟩
  | cons op ops ih =>
      intro state hread
      obtain ⟨state₁, hop, hact⟩ := LayerOp.exec_ok prio state (hread op List.mem_cons_self)
      obtain ⟨state', hrun, hacts⟩ := ih state₁
        (fun op' hop' => hread op' (List.mem_cons_of_mem op hop'))
      refine ⟨state', ?_, fun c p => ?_⟩
      · rw [drawOps, List.foldlM_cons, hop]
        exact hrun
      · rw [hacts, hact]
        by_cases hp : p = prio <;> simp [hp, actAll]

lemma drawOps_error {ops : List LayerOp} (h : ∃ op ∈ ops, ¬ op.Readable mem a) (state : State) :
    drawOps Call.exec prio mem a ops state = .error .outOfRange := by
  induction ops generalizing state with
  | nil => simp at h
  | cons op ops ih =>
      rw [drawOps, List.foldlM_cons]
      by_cases hop : op.Readable mem a
      · obtain ⟨state₁, hrun, -⟩ := LayerOp.exec_ok prio state hop
        obtain ⟨op', hmem, hop'⟩ := h
        rcases List.mem_cons.mp hmem with rfl | hmem
        · exact absurd hop hop'
        · rw [hrun]
          exact ih ⟨op', hmem, hop'⟩ state₁
      · rw [LayerOp.exec_error prio state hop]
        rfl

end Run

/-! ## Messages either set or clear -/

lemma set_storeInt32 (l : PriorityLocals) (i : Int32) : (l.storeInt32 i).set = l.set := by
  unfold PriorityLocals.storeInt32
  split_ifs <;> rfl

/-- The operations in the loop are sets, and the flag `set` records that there was one. -/
lemma argOps_sets :
    ∀ (xs : List OscArgument) (off : ℕ) (l : PriorityLocals),
      (∀ op ∈ (argOps off l xs).1, ∀ c, ¬ op.Clears c) ∧
        ((argOps off l xs).2.set = true ↔ l.set = true ∨ (argOps off l xs).1 ≠ []) := by
  intro xs
  induction xs with
  | nil => intro off l; simp [argOps]
  | cons x xs ih =>
      intro off l
      obtain ⟨hclears, hset⟩ := ih (off + x.encode.length) (stepOps off l x).2
      have hstep : (∀ op ∈ (stepOps off l x).1, ∀ c, ¬ op.Clears c) ∧
          ((stepOps off l x).2.set = true ↔ l.set = true ∨ (stepOps off l x).1 ≠ []) := by
        cases x with
        | int32 v => simp [stepOps, set_storeInt32]
        | blob b =>
            simp only [stepOps]
            split
            · simp [LayerOp.Clears]
            · simp
        | _ => simp [stepOps]
      refine ⟨fun op hop => ?_, ?_⟩
      · rcases List.mem_append.mp hop with hop | hop
        · exact hstep.1 op hop
        · exact hclears op hop
      · simp only [argOps, hset, hstep.2, ne_eq, List.append_eq_nil_iff]
        tauto

/-- A message makes one clear or only sets. -/
lemma messageOps_cases (args : List OscArgument) :
    (∃ offx offy width height, messageOps args = [.clr offx offy width height]) ∨
      ∀ op ∈ messageOps args, ∀ c, ¬ op.Clears c := by
  obtain ⟨hclears, hset⟩ := argOps_sets args 0 .initial
  simp only [messageOps]
  split
  · exact .inr hclears
  · next hnone =>
      left
      have hnil : (argOps 0 .initial args).1 = [] := by
        by_contra hne
        exact hnone (hset.mpr (.inr hne))
      rw [hnil]
      exact ⟨_, _, _, _, rfl⟩

/-- Sets that do not paint a pixel leave it alone, and any that does defines the layer there. -/
lemma actAll_of_sets (mem : Memory) (a : ℕ) {c : Coord} :
    ∀ {ops : List LayerOp} (layer : Bool × Bool), (∀ op ∈ ops, ¬ op.Clears c) →
      ((∀ op ∈ ops, ¬ op.Paints c) → actAll mem a c ops layer = layer) ∧
        ((actAll mem a c ops layer).1 = true ↔ layer.1 = true ∨ ∃ op ∈ ops, op.Paints c) := by
  intro ops
  induction ops with
  | nil => intro layer _; simp [actAll]
  | cons op ops ih =>
      intro layer hclears
      have hop := hclears op List.mem_cons_self
      obtain ⟨hsame, hmask⟩ := ih (op.act mem a c layer)
        (fun op' h => hclears op' (List.mem_cons_of_mem op h))
      have hcons : actAll mem a c (op :: ops) layer = actAll mem a c ops (op.act mem a c layer) :=
        rfl
      rw [hcons, hmask]
      by_cases hpaint : op.Paints c
      · simp [LayerOp.act, hpaint]
      · have hact : op.act mem a c layer = layer := by simp [LayerOp.act, hpaint, hop]
        rw [hact] at hsame ⊢
        refine ⟨fun h => hsame fun op' hop' => h op' (List.mem_cons_of_mem op hop'), ?_⟩
        simp [hpaint]

/-- When the operations of a message leave a layer of a pixel undefined and its value bit as
it was: none paints the pixel, and if the layer was defined there, one clears it. -/
lemma actAll_eq_cleared_iff {mem : Memory} {a : ℕ} {c : Coord} (args : List OscArgument)
    (layer : Bool × Bool) :
    actAll mem a c (messageOps args) layer = (false, layer.2) ↔
      (∀ op ∈ messageOps args, ¬ op.Paints c) ∧
        (layer.1 = true → ∃ op ∈ messageOps args, op.Clears c) := by
  rcases messageOps_cases args with ⟨offx, offy, width, height, hops⟩ | hsets
  · rw [hops]
    by_cases hc : touches offx offy width height c
    · simp [actAll, LayerOp.act, LayerOp.Paints, LayerOp.Clears, hc]
    · cases layer
      simp [actAll, LayerOp.act, LayerOp.Paints, LayerOp.Clears, hc]
  · have hclears : ∀ op ∈ messageOps args, ¬ op.Clears c := fun op hop => hsets op hop c
    obtain ⟨hsame, hmask⟩ := actAll_of_sets mem a layer hclears
    constructor
    · intro h
      rw [h] at hmask
      have hnone : ¬ (layer.1 = true ∨ ∃ op ∈ messageOps args, op.Paints c) :=
        fun hor => by simpa using hmask.mpr hor
      rw [not_or] at hnone
      exact ⟨fun op hop hp => hnone.2 ⟨op, hop, hp⟩, fun hm => absurd hm hnone.1⟩
    · rintro ⟨hpaint, hdef⟩
      rw [hsame hpaint]
      have hundef : layer.1 = false := by
        by_contra hm
        obtain ⟨op, hop, hc⟩ := hdef (by simpa using hm)
        exact hclears op hop hc
      exact Prod.ext hundef rfl

/-! ## The blobs are relative to the argument data -/

section Relocation

/-- The bits an operation asks for lie within the first `n` bytes of the argument data. -/
def LayerOp.InData (n : ℕ) : LayerOp → Prop
  | .set offx offy width height blob => ∀ c, touches offx offy width height c →
      blob + (getBitIndex (keyOf offx offy c).1.toUInt32 (keyOf offx offy c).2.toUInt32
        width.toUInt32).toNat < n
  | .clr .. => True

/-- Whether the blob of an operation starts within the first `n` bytes of the data. -/
def LayerOp.Within (n : ℕ) : LayerOp → Prop
  | .set _ _ _ _ blob => blob ≤ n
  | .clr .. => True

/-- The blobs of a message start within its argument data. -/
lemma within_argOps :
    ∀ (xs : List OscArgument) (off : ℕ) (l : PriorityLocals), ∀ op ∈ (argOps off l xs).1,
      op.Within (off + (xs.flatMap OscArgument.encode).length) := by
  intro xs
  induction xs with
  | nil => intro off l op hop; simp [argOps] at hop
  | cons x xs ih =>
      intro off l op hop
      rw [List.flatMap_cons, List.length_append]
      rcases List.mem_append.mp hop with hop | hop
      · cases x with
        | blob b =>
            simp only [stepOps] at hop
            split at hop
            · rw [List.mem_singleton.mp hop]
              simp only [LayerOp.Within, OscArgument.encode, List.length_append, length_be32]
              omega
            · simp at hop
        | _ => simp [stepOps] at hop
      · have htail := ih _ _ op hop
        cases op with
        | set offx offy width height blob => simpa [LayerOp.Within, Nat.add_assoc] using htail
        | clr offx offy width height => trivial

lemma within_messageOps (args : List OscArgument) :
    ∀ op ∈ messageOps args, op.Within (args.flatMap OscArgument.encode).length := by
  intro op hop
  have hargs := within_argOps args 0 .initial
  rw [Nat.zero_add] at hargs
  simp only [messageOps] at hop
  split at hop
  · exact hargs op hop
  · rcases List.mem_append.mp hop with hop | hop
    · exact hargs op hop
    · rw [List.mem_singleton.mp hop]
      trivial

variable {mem mem' : Memory} {a a' : ℕ} {data : List UInt8}

/-- A byte of the data is the same wherever the data stand. -/
lemma index_data (h : mem.At a data) {o i : ℕ} (hi : o + i < data.length) :
    (Ptr.mk mem (a + o)).index i = .ok (data.getD (o + i) 0) := by
  rw [← Ptr.index_of_at h hi, Ptr.index, Ptr.index, addPtr, addPtr, Nat.add_assoc]

lemma LayerOp.InData.readable {op : LayerOp} (hop : op.InData data.length) (h : mem.At a data) :
    op.Readable mem a := by
  cases op with
  | set offx offy width height blob =>
      intro c hc
      rw [blobBit, getBit, index_data h (hop c hc)]
      exact ⟨_, rfl⟩
  | clr offx offy width height => trivial

/-- Where nothing stands behind the data, no other bits can be read. -/
lemma LayerOp.Readable.inData {op : LayerOp} (hop : op.Readable mem a)
    (hwithin : op.Within data.length) (h : mem.At a data) (hend : mem.limit = a + data.length) :
    op.InData data.length := by
  cases op with
  | set offx offy width height blob =>
      intro c hc
      set i := getBitIndex (keyOf offx offy c).1.toUInt32 (keyOf offx offy c).2.toUInt32
        width.toUInt32 with hi
      obtain ⟨bit, hbit⟩ := hop c hc
      obtain ⟨byte, hbyte, -⟩ := Run.bind_eq_ok.mp hbit
      have hholds : mem.Holds (addPtr (a + blob) i.toNat) 1 :=
        Memory.exists_load_iff.mp ⟨byte, hbyte⟩
      have hlt := h.end_lt
      have hindex := i.toNat_lt
      have hblob : blob ≤ data.length := hwithin
      have hlast := hholds.2
      rw [addPtr_of_lt (by omega), hend] at hlast
      omega
  | clr offx offy width height => trivial

/-- The same argument data give the same drawing, whatever stands around them. -/
lemma drawOps_congr {ops : List LayerOp} (prio : Prio) (hops : ∀ op ∈ ops, op.InData data.length)
    (h : mem.At a data) (h' : mem'.At a' data) (state : State) :
    drawOps Call.exec prio mem a ops state = drawOps Call.exec prio mem' a' ops state := by
  refine foldlM_congr_mem (fun state op hop => ?_) state
  have hdata := hops op hop
  cases op with
  | set offx offy width height blob =>
      have hbit : ∀ c, touches offx offy width height c →
          blobBit offx offy width ⟨mem, a + blob⟩ c =
            blobBit offx offy width ⟨mem', a' + blob⟩ c := by
        intro c hc
        rw [blobBit, blobBit, getBit, getBit, index_data h (hdata c hc),
          index_data h' (hdata c hc)]
      have hread := hdata.readable h'
      rw [LayerOp.call, LayerOp.call, Call.exec, Call.exec,
        setPixels_eq fun c hc => (hbit c hc).trans (readBit_eq (hread c hc)),
        setPixels_eq fun c hc => readBit_eq (hread c hc)]
  | clr offx offy width height => rfl

end Relocation

end MonoBus
