import MonoBus.Construction.OscEncoding
import MonoBus.Construction.Dispatch

/-!
# The calls a message makes

`_priority` walks over the arguments of a message and calls `_set_pixels` and `_clr_pixels`.
Which calls it makes depends on the arguments alone: `messageOps` is their list, with each blob
given by its offset into the argument data.  `priority_eq` says that the handler performs them,
and leaves an argument record behind in which no type tag is left.

A message whose path ends in a pattern is handed to every priority that matches.  The first of
them consumes the shared record, so the others find no argument and clear their whole layer
(`handleOscMessage_eq`).  A literal path reaches its own priority only
(`handleMessage_ofPrio`).
-/

namespace MonoBus

/-! ## Arguments as operations on a layer -/

/-- What `_priority` does to its layer.  A blob is the offset of its body in the argument
data. -/
inductive LayerOp
  | set (offx offy width height : Int32) (blob : ℕ)
  | clr (offx offy width height : Int32)
  deriving DecidableEq, Repr

/-- The call for a priority, with the argument data standing at address `a`. -/
def LayerOp.call (prio : Prio) (mem : Memory) (a : ℕ) : LayerOp → Call
  | .set offx offy width height blob => .setPixels prio offx offy width height ⟨mem, a + blob⟩
  | .clr offx offy width height => .clrPixels prio offx offy width height

/-- The operations of one argument that stands at offset `off`, and the locals behind it. -/
def stepOps (off : ℕ) (l : PriorityLocals) : OscArgument → List LayerOp × PriorityLocals
  | .int32 v => ([], l.storeInt32 v)
  | .blob b =>
      if Int32.ofNat b.data.length ≥ l.totLen then
        ([.set l.offx l.offy l.width l.height (off + 4)], { l with set := true })
      else ([], l)
  | _ => ([], l)

/-- The operations of a list of arguments that stands at offset `off`. -/
def argOps : ℕ → PriorityLocals → List OscArgument → List LayerOp × PriorityLocals
  | _, l, [] => ([], l)
  | off, l, x :: xs =>
      let head := stepOps off l x
      let tail := argOps (off + x.encode.length) head.2 xs
      (head.1 ++ tail.1, tail.2)

/-- The clear that a message without an accepted blob ends with. -/
def PriorityLocals.clrOp (l : PriorityLocals) : LayerOp :=
  .clr l.offx l.offy l.width l.height

/-- The operations of a message. -/
def messageOps (args : List OscArgument) : List LayerOp :=
  let run := argOps 0 .initial args
  if run.2.set then run.1 else run.1 ++ [run.2.clrOp]

/-- The arguments of a message that sets a bitmap. -/
def setArgs (offx offy width height : Int32) (blob : OscBlob) : List OscArgument :=
  [.int32 offx, .int32 offy, .int32 width, .int32 height, .blob blob]

/-- Whether the size check lets a bitmap pass. -/
def SizeCheck (width height : Int32) (blob : OscBlob) : Prop :=
  Int32.ofNat blob.data.length ≥
    (monobusStrideForWidth width.toUInt32 * height.toUInt32).toInt32

instance (width height : Int32) (blob : OscBlob) : Decidable (SizeCheck width height blob) := by
  unfold SizeCheck; infer_instance

/-- The product the size check computes, as the number of bytes it stands for. -/
lemma stride_mul_height_eq {width height : Int32} (hheight : 0 ≤ height.toInt) :
    (monobusStrideForWidth width.toUInt32 * height.toUInt32).toInt32 =
      Int32.ofNat ((monobusStrideForWidth width.toUInt32).toNat * height.toInt.toNat) := by
  have hnat : height.toUInt32.toNat = height.toInt.toNat := by
    have hbounds := int32_toInt_bounds height
    have hmod := int32_toNat_toUInt32 height
    omega
  rw [← toInt32_ofNat]
  congr 1
  apply UInt32.toNat_inj.mp
  rw [UInt32.toNat_mul, hnat, UInt32.toNat_ofNat']

/-- Where that number is an `int32_t`, the check compares the lengths. -/
lemma sizeCheck_iff_le {width height : Int32} {blob : OscBlob} (hheight : 0 ≤ height.toInt)
    (hlt : (monobusStrideForWidth width.toUInt32).toNat * height.toInt.toNat < 2 ^ 31) :
    SizeCheck width height blob ↔
      (monobusStrideForWidth width.toUInt32).toNat * height.toInt.toNat ≤ blob.data.length := by
  rw [SizeCheck, stride_mul_height_eq hheight, ge_iff_le, Int32.le_iff_toInt_le,
    toInt_ofNat_of_lt hlt, toInt_ofNat_of_lt blob.data_lt]
  exact Int.ofNat_le

/-- A bitmap that passes the size check is set, and its place is cleared otherwise. -/
lemma messageOps_setArgs (offx offy width height : Int32) (blob : OscBlob) :
    messageOps (setArgs offx offy width height blob) =
      if SizeCheck width height blob then [.set offx offy width height 20]
      else [.clr offx offy width height] := by
  -- the locals behind the four integers
  set l : PriorityLocals := ⟨false, 4, offx, offy, width, height⟩ with hl
  have hlocals : (((PriorityLocals.initial.storeInt32 offx).storeInt32 offy).storeInt32
      width).storeInt32 height = l := rfl
  have hargs : argOps 0 .initial (setArgs offx offy width height blob) =
      ((stepOps 16 l (.blob blob)).1 ++ [], (stepOps 16 l (.blob blob)).2) := by
    simp only [setArgs, argOps, stepOps, hlocals, OscArgument.encode, length_be32,
      List.nil_append]
  have hcheck : Int32.ofNat blob.data.length ≥ l.totLen ↔ SizeCheck width height blob := Iff.rfl
  simp only [messageOps, hargs, stepOps, hcheck, List.append_nil]
  split_ifs <;> simp_all [PriorityLocals.clrOp]

/-! ## The handler performs them -/

section Priority

variable {σ : Type} (draw : σ → Call → Run σ) (prio : Prio)

/-- Perform operations with the argument data standing at address `a`. -/
def drawOps (mem : Memory) (a : ℕ) (ops : List LayerOp) (data : σ) : Run σ :=
  ops.foldlM (fun data op => draw data (op.call prio mem a)) data

variable {draw prio}

lemma drawOps_append (mem : Memory) (a : ℕ) (ops ops' : List LayerOp) (data : σ) :
    drawOps draw prio mem a (ops ++ ops') data =
      (drawOps draw prio mem a ops data >>= drawOps draw prio mem a ops') :=
  List.foldlM_append

lemma priorityStep_loadInto {mem : Memory} {a off : ℕ} {x : OscArgument} {arg : OscArg}
    (htag : arg.tag = x.tag) (l : PriorityLocals) (data : σ) :
    priorityStep draw prio mem (x.loadInto arg (a + off)) l data = (do
      let data ← drawOps draw prio mem a (stepOps off l x).1 data
      .ok ((stepOps off l x).2, data)) := by
  have hkind : OscType.ofByte (x.loadInto arg (a + off)).tag = some x.oscType := by
    rw [OscArgument.loadInto_tag, htag, OscArgument.tag, OscType.ofByte_code]
  unfold priorityStep
  rw [hkind]
  cases x with
  | blob b =>
      have hsize : (OscArgument.loadInto arg (a + off) (.blob b)).size =
          Int32.ofNat b.data.length := rfl
      simp only [OscArgument.oscType, stepOps, hsize]
      split
      · simp [drawOps, LayerOp.call, OscArgument.loadInto, OscValue.blob, Nat.add_assoc]
      · simp [drawOps]
  | int32 v =>
      simp [OscArgument.oscType, OscArgument.loadInto, stepOps, OscValue.int, drawOps]
  | _ => simp [OscArgument.oscType, stepOps, drawOps]

/-- The loop, entered with the first argument loaded: it performs the operations of all
arguments and drops all type tags. -/
lemma priorityLoop_eq (draw : σ → Call → Run σ) {a : ℕ} :
    ∀ (xs : List OscArgument) {x : OscArgument} (off : ℕ) {r : OscReader} {arg : OscArg},
      arg.type = (x :: xs).map OscArgument.tag → r.Rest (xs.flatMap OscArgument.encode) →
      r.ptr = a + (off + x.encode.length) → arg.end_ = r.end_ →
      ∃ arg' : OscArg, arg'.type = [] ∧ ∀ prio l data,
        priorityLoop draw prio (xs.length + 1) r (x.loadInto arg (a + off)) l data = (do
          let data ← drawOps draw prio r.mem a (argOps off l (x :: xs)).1 data
          .ok (arg', (argOps off l (x :: xs)).2, data)) := by
  intro xs
  induction xs with
  | nil =>
      intro x off r arg htype hrest hptr hend
      have htag : arg.tag = x.tag := by simp [OscArg.tag, htype]
      set arg' : OscArg := { x.loadInto arg (a + off) with type := [] } with harg'
      have hgo := OscReader.argIsEnd_loadInto htag hrest hend (a + off)
      have hnext : r.argNext (x.loadInto arg (a + off)) = .ok (some (arg', r)) := by
        simp only [OscReader.argNext, OscArgument.loadInto_type, htype, List.map_cons,
          List.map_nil, List.tail_cons, ← harg']
        exact OscReader.argRaw_of_nil rfl
      have hstop : r.argIsEnd arg' = true := OscReader.argIsEnd_of_nil rfl
      refine ⟨arg', rfl, fun prio l data => ?_⟩
      rw [priorityLoop, hgo, priorityStep_loadInto htag]
      simp only [argOps, List.append_nil, bind_assoc, Run.ok_bind, hnext]
      simp [priorityLoop, hstop]
  | cons y ys ih =>
      intro x off r arg htype hrest hptr hend
      have htag : arg.tag = x.tag := by simp [OscArg.tag, htype]
      rw [List.flatMap_cons] at hrest
      have hgo := OscReader.argIsEnd_loadInto htag hrest hend (a + off)
      -- the record the next round finds, before its argument is loaded
      set arg₁ : OscArg := { x.loadInto arg (a + off) with type := arg.type.tail } with harg₁
      have htype₁ : arg₁.type = (y :: ys).map OscArgument.tag := by simp [harg₁, htype]
      have hend₁ : arg₁.end_ = r.end_ := by simp [harg₁, hend]
      have hnext : r.argNext (x.loadInto arg (a + off)) =
          .ok (some (y.loadInto arg₁ (a + (off + x.encode.length)),
            r.advance y.encode.length)) := by
        rw [OscReader.argNext, OscArgument.loadInto_type, ← harg₁,
          OscReader.argRaw_encode (by simp [OscArg.tag, htype₁]) hrest, hptr]
      obtain ⟨arg', htype', hrun⟩ := ih (off + x.encode.length) htype₁ hrest.advance
        (by rw [hrest.advance_ptr, hptr]; omega) hend₁
      refine ⟨arg', htype', fun prio l data => ?_⟩
      rw [List.length_cons, priorityLoop, hgo, priorityStep_loadInto htag]
      simp only [Bool.false_eq_true, if_false, bind_assoc, Run.ok_bind, hnext, hrun,
        OscReader.advance_mem]
      simp only [argOps, drawOps_append, bind_assoc]

lemma priorityLoop_of_atEnd {r : OscReader} {arg : OscArg} (hend : r.argIsEnd arg = true)
    (fuel : ℕ) (l : PriorityLocals) (data : σ) :
    priorityLoop draw prio fuel r arg l data = .ok (arg, l, data) := by
  cases fuel with
  | zero => rw [priorityLoop, if_pos hend]
  | succ fuel => rw [priorityLoop, if_pos hend]

/-- A handler that finds no argument clears its whole layer. -/
lemma priority_of_atEnd {r : OscReader} {arg : OscArg} (hend : r.argIsEnd arg = true) (idx : ℕ)
    (data : σ) :
    priority draw r arg idx data = (do
      let data ← draw data (.clrPixels (Fin.ofNat 32 idx) 0 0
        (Int32.ofNat widthNet) (Int32.ofNat heightNet))
      .ok (arg, data)) := by
  rw [priority, priorityLoop_of_atEnd hend]
  rfl

/-- It finds none in a record without type tags. -/
lemma priority_of_consumed {r : OscReader} {arg : OscArg} (htype : arg.type = []) (idx : ℕ)
    (data : σ) :
    priority draw r arg idx data = (do
      let data ← draw data (.clrPixels (Fin.ofNat 32 idx) 0 0
        (Int32.ofNat widthNet) (Int32.ofNat heightNet))
      .ok (arg, data)) :=
  priority_of_atEnd (OscReader.argIsEnd_of_nil htype) idx data

/-- **The handler on a message.**  Once the first argument has been read, the handler performs
the operations of the message and consumes all of its arguments. -/
theorem priority_eq (draw : σ → Call → Run σ) (args : List OscArgument) (path : CString)
    {r : OscReader} (hrest : r.Rest (args.flatMap OscArgument.encode)) :
    ∃ (arg arg' : OscArg) (r' : OscReader),
      r.argRaw (OscReader.headerArg path (args.map OscArgument.oscType) r.end_) =
        .ok (some (arg, r')) ∧
      arg.path = path.chars ∧ arg'.type = [] ∧
      ∀ idx (data : σ), priority draw r' arg idx data = (do
        let data ← drawOps draw (Fin.ofNat 32 idx) r.mem r.ptr (messageOps args) data
        .ok (arg', data)) := by
  cases args with
  | nil =>
      set arg := OscReader.headerArg path [] r.end_ with harg
      refine ⟨arg, arg, r, OscReader.argRaw_of_nil rfl, rfl, rfl, fun idx data => ?_⟩
      rw [priority_of_consumed rfl]
      simp [drawOps, messageOps, argOps, PriorityLocals.initial, PriorityLocals.clrOp,
        LayerOp.call]
  | cons x xs =>
      set arg₀ := OscReader.headerArg path ((x :: xs).map OscArgument.oscType) r.end_ with harg₀
      have htype₀ : arg₀.type = (x :: xs).map OscArgument.tag := by
        simp [harg₀, OscReader.headerArg, OscArgument.tag]
      have htag₀ : arg₀.tag = x.tag := by simp [OscArg.tag, htype₀]
      rw [List.flatMap_cons] at hrest
      obtain ⟨arg', htype', hloop⟩ := priorityLoop_eq draw (a := r.ptr) xs 0
        htype₀ hrest.advance (by rw [hrest.advance_ptr, Nat.zero_add]) rfl
      refine ⟨x.loadInto arg₀ r.ptr, arg', r.advance x.encode.length,
        OscReader.argRaw_encode htag₀ hrest, ?_, htype', fun idx data => ?_⟩
      · simp [harg₀, OscReader.headerArg]
      · have hfuel : (x.loadInto arg₀ r.ptr).type.length = xs.length + 1 := by simp [htype₀]
        simp only [Nat.add_zero, OscReader.advance_mem] at hloop
        simp only [priority, hfuel, hloop, bind_assoc, Run.ok_bind, messageOps]
        by_cases hset : (argOps 0 .initial (x :: xs)).2.set = true
        · simp [hset]
        · simp [hset, drawOps, LayerOp.call, PriorityLocals.clrOp]

end Priority

/-! ## Paths -/

/-- What stands between two slashes of a path. -/
structure PathSegment where
  chars : List UInt8
  no_slash : '/'.toUInt8 ∉ chars
  no_nul : 0 ∉ chars

namespace PathSegment

/-- The path `/monobus/segment`. -/
def path (segment : PathSegment) : CString where
  chars := '/'.toUInt8 :: (rootName ++ '/'.toUInt8 :: segment.chars)
  no_nul := by
    intro h
    rcases List.mem_cons.mp h with h | h
    · exact absurd h (by decide)
    · rcases List.mem_append.mp h with h | h
      · exact absurd h (by decide)
      · rcases List.mem_cons.mp h with h | h
        · exact absurd h (by decide)
        · exact segment.no_nul h

/-- The name of a priority. -/
def ofPrio (prio : Prio) : PathSegment where
  chars := priorityName prio
  no_slash := by revert prio; decide
  no_nul := by revert prio; decide

lemma splitOn_path (segment : PathSegment) :
    segment.path.chars.tail.splitOn '/'.toUInt8 = [rootName, segment.chars] := by
  have hroot : '/'.toUInt8 ∉ rootName := by decide
  rw [path, List.tail_cons, List.splitOn_append_cons_self, List.splitOn_eq_singleton hroot,
    List.splitOn_eq_singleton segment.no_slash]
  rfl

end PathSegment

/-- The priorities whose names match, in the order of their table. -/
def matchingPrios (fn : Fnmatch) (segment : PathSegment) : List Prio :=
  (List.finRange 32).filter fun prio => oscPatternMatch fn segment.chars (priorityName prio)

lemma nodup_matchingPrios (fn : Fnmatch) (segment : PathSegment) :
    (matchingPrios fn segment).Nodup := (List.nodup_finRange 32).filter _

/-- A literal path matches its own priority only. -/
lemma matchingPrios_ofPrio (fn : Fnmatch) (prio : Prio) :
    matchingPrios fn (.ofPrio prio) = [prio] := by
  have hordinary : (priorityName prio).all isOrdinary = true := by revert prio; decide
  have hmatch : ∀ q : Prio, oscPatternMatch fn (priorityName prio) (priorityName q) =
      decide (priorityName prio = priorityName q) :=
    fun q => oscPatternMatch_of_ordinary fn _ (List.all_eq_true.mp hordinary)
  simp only [matchingPrios, PathSegment.ofPrio, hmatch]
  clear hordinary hmatch
  revert prio
  decide

/-! ## The whole message -/

section Dispatch

variable {σ : Type} {draw : σ → Call → Run σ} {fn : Fnmatch}

lemma zipIdx_treePriority : (treePriority draw).zipIdx =
    (List.finRange 32).map fun prio =>
      (OscTree.mk (priorityName prio) none (some (priority draw)), (prio : ℕ)) := rfl

/-- A path of two segments: the tables hand the message to each priority that matches the second,
one after the other, if the first matches the root. -/
lemma oscTreesInternal_segments (root segment : List UInt8) (r : OscReader) (arg : OscArg)
    (data : σ) :
    oscTreesInternal fn r [root, segment] arg (treeRoot draw) data =
      if oscPatternMatch fn root rootName then
        ((List.finRange 32).filter fun prio =>
          oscPatternMatch fn segment (priorityName prio)).foldlM
            (fun s (prio : Prio) => priority draw r s.1 prio s.2) (arg, data)
      else .ok (arg, data) := by
  have hzip : (treeRoot draw).zipIdx =
      [(OscTree.mk rootName (some (treePriority draw)) none, 0)] := rfl
  rw [oscTreesInternal, hzip]
  simp only [List.foldlM_cons, List.foldlM_nil, OscTree.name, OscTree.trees, OscTree.branch,
    callBranch, Run.ok_bind]
  rw [bind_pure, oscTreesInternal, zipIdx_treePriority, List.foldlM_map, List.foldlM_filter]
  rfl

lemma oscTreesInternal_treeRoot (segment : PathSegment) (r : OscReader) (arg : OscArg)
    (data : σ) :
    oscTreesInternal fn r [rootName, segment.chars] arg (treeRoot draw) data =
      (matchingPrios fn segment).foldlM
        (fun s (prio : Prio) => priority draw r s.1 prio s.2) (arg, data) := by
  have hroot : oscPatternMatch fn rootName rootName = true := by
    rw [oscPatternMatch_of_ordinary fn rootName (List.all_eq_true.mp (by decide))]
    simp
  rw [oscTreesInternal_segments, if_pos hroot, matchingPrios]

/-- What a message does once it has been dispatched to the priorities `prios`: the first of
them performs its operations, and the others clear their whole layer. -/
def dispatchOps (draw : σ → Call → Run σ) (mem : Memory) (a : ℕ) (args : List OscArgument) :
    List Prio → σ → Run σ
  | [], data => .ok data
  | prio :: prios, data => do
      let data ← drawOps draw prio mem a (messageOps args) data
      prios.foldlM (fun data prio =>
        draw data (.clrPixels prio 0 0 (Int32.ofNat widthNet) (Int32.ofNat heightNet))) data

/-- Behind a consumed record every handler clears its layer. -/
lemma foldlM_priority_consumed {r : OscReader} {arg : OscArg} (htype : arg.type = []) :
    ∀ (prios : List Prio) (data : σ),
      prios.foldlM (fun s (prio : Prio) => priority draw r s.1 prio s.2) (arg, data) = (do
        let data ← prios.foldlM (fun data prio =>
          draw data (.clrPixels prio 0 0 (Int32.ofNat widthNet) (Int32.ofNat heightNet))) data
        .ok (arg, data)) := by
  intro prios
  induction prios with
  | nil => intro data; rfl
  | cons prio prios ih =>
      intro data
      have hprio : Fin.ofNat 32 (prio : ℕ) = prio := Fin.ofNat_val_eq_self prio
      simp only [List.foldlM_cons, priority_of_consumed htype, hprio, bind_assoc, Run.ok_bind, ih]

/-- **Handling a message.**  The handler dispatches the operations of the message to the
priorities its path matches. -/
theorem handleOscMessage_eq {msg : OscMessage} {segment : PathSegment}
    (hpath : msg.path = segment.path) {r : OscReader} (hrest : r.Rest msg.encode) (data : σ) :
    handleOscMessage draw fn r msg.encode.length data =
      dispatchOps draw r.mem
        (r.ptr + (OscMessage.header msg.path (msg.args.map OscArgument.oscType)).length)
        msg.args (matchingPrios fn segment) data := by
  have hbody := hrest.advance
  obtain ⟨arg, arg', r', hraw, hargpath, htype, hpriority⟩ :=
    priority_eq draw msg.args msg.path hbody
  rw [OscReader.advance_end] at hraw
  rw [hrest.advance_ptr, OscReader.advance_mem] at hpriority
  rw [handleOscMessage, oscReaderMatch, OscMessage.encode, OscReader.argBegin_header hrest, hraw]
  simp only [Run.ok_bind, hargpath, hpath, segment.splitOn_path, oscTreesInternal_treeRoot]
  cases matchingPrios fn segment with
  | nil => rfl
  | cons prio prios =>
      have hprio : Fin.ofNat 32 (prio : ℕ) = prio := Fin.ofNat_val_eq_self prio
      simp only [List.foldlM_cons, hpriority, hprio, bind_assoc, Run.ok_bind,
        foldlM_priority_consumed htype, dispatchOps, hpath, bind_pure]

end Dispatch

/-! ## Messages in packets -/

section Packets

variable {σ : Type} {draw : σ → Call → Run σ} {fn : Fnmatch}

/-- `_handle_osc_message` on a packet. -/
def Packet.handleMessage (draw : σ → Call → Run σ) (fn : Fnmatch) {bytes : List UInt8}
    (pkt : Packet bytes) (data : σ) : Run σ :=
  handleOscMessage draw fn pkt.reader bytes.length data

/-- Where the argument data of a message stand in its packet. -/
def Packet.argAddr {msg : OscMessage} (pkt : Packet msg.encode) : ℕ :=
  pkt.mem.base + (OscMessage.header msg.path (msg.args.map OscArgument.oscType)).length

/-- The message with the given arguments to a path `/monobus/segment`. -/
abbrev messageTo (segment : PathSegment) (args : List OscArgument) : OscMessage :=
  ⟨segment.path, args⟩

lemma handleMessage_messageTo {segment : PathSegment} {args : List OscArgument}
    (pkt : Packet (messageTo segment args).encode) (data : σ) :
    pkt.handleMessage draw fn data =
      dispatchOps draw pkt.mem pkt.argAddr args (matchingPrios fn segment) data :=
  handleOscMessage_eq rfl pkt.rest_reader data

/-- A message to a literal path draws on the layer of that priority. -/
theorem handleMessage_ofPrio {prio : Prio} {args : List OscArgument}
    (pkt : Packet (messageTo (.ofPrio prio) args).encode) (data : σ) :
    pkt.handleMessage draw fn data =
      drawOps draw prio pkt.mem pkt.argAddr (messageOps args) data := by
  rw [handleMessage_messageTo, matchingPrios_ofPrio]
  simp [dispatchOps]

/-- `_handle_osc_message` on a message with other bytes around it. -/
def Embedded.handleMessage (draw : σ → Call → Run σ) (fn : Fnmatch) {bytes : List UInt8}
    (pkt : Embedded bytes) (data : σ) : Run σ :=
  handleOscMessage draw fn (OscReader.initializeAt pkt.mem pkt.buf bytes.length) bytes.length data

/-- Where the argument data of a message stand. -/
def Embedded.argAddr {msg : OscMessage} (pkt : Embedded msg.encode) : ℕ :=
  pkt.buf + (OscMessage.header msg.path (msg.args.map OscArgument.oscType)).length

lemma Embedded.at_data {msg : OscMessage} (pkt : Embedded msg.encode) :
    pkt.mem.At pkt.argAddr (msg.args.flatMap OscArgument.encode) := pkt.at_.right

/-- A packet with nothing around it ends with the data. -/
lemma Packet.limit_eq {msg : OscMessage} (pkt : Packet msg.encode) :
    pkt.mem.limit = pkt.embedded.argAddr + (msg.args.flatMap OscArgument.encode).length := by
  have hlength : pkt.mem.bytes.length = _ :=
    (congrArg List.length pkt.bytes_eq).trans List.length_append
  rw [Memory.limit, hlength, ← Nat.add_assoc]
  rfl

lemma Embedded.handleMessage_messageTo {segment : PathSegment} {args : List OscArgument}
    (pkt : Embedded (messageTo segment args).encode) (data : σ) :
    pkt.handleMessage draw fn data =
      dispatchOps draw pkt.mem pkt.argAddr args (matchingPrios fn segment) data :=
  handleOscMessage_eq rfl (OscReader.rest_initializeAt pkt.at_) data

/-- Where the argument data and the blob of a bitmap stand. -/
lemma Packet.at_blob {segment : PathSegment} {offx offy width height : Int32} {blob : OscBlob}
    (pkt : Packet (messageTo segment (setArgs offx offy width height blob)).encode) :
    pkt.mem.At (pkt.argAddr + 20) blob.data := by
  have hargs : pkt.mem.At pkt.argAddr
      ((setArgs offx offy width height blob).flatMap OscArgument.encode) := by
    refine ⟨_, [], ?_, rfl⟩
    rw [pkt.bytes_eq, OscMessage.encode, List.append_nil]
  set ints := be32 offx.toUInt32 ++ be32 offy.toUInt32 ++ be32 width.toUInt32 ++
    be32 height.toUInt32 ++ be32 (UInt32.ofNat blob.data.length) with hints
  have hsplit : (setArgs offx offy width height blob).flatMap OscArgument.encode =
      ints ++ (blob.data ++ blob.pad) := by
    simp [setArgs, OscArgument.encode, hints]
  have hlen : ints.length = 20 := by simp [hints]
  rw [hsplit] at hargs
  have hbody := hargs.right
  rw [hlen] at hbody
  exact hbody.left

end Packets

/-! ## The calls as a trace -/

/-- Record a call instead of performing it. -/
def record (calls : List Call) (call : Call) : Run (List Call) := .ok (calls ++ [call])

lemma drawOps_record (prio : Prio) (mem : Memory) (a : ℕ) (ops : List LayerOp)
    (calls : List Call) :
    drawOps record prio mem a ops calls = .ok (calls ++ ops.map (LayerOp.call prio mem a)) := by
  induction ops generalizing calls with
  | nil => simp [drawOps]
  | cons op ops ih =>
      rw [drawOps, List.foldlM_cons, record, Run.ok_bind]
      simpa [drawOps] using ih (calls ++ [op.call prio mem a])

lemma drawOps_exec (prio : Prio) (mem : Memory) (a : ℕ) (ops : List LayerOp) (state : State) :
    drawOps Call.exec prio mem a ops state =
      (ops.map (LayerOp.call prio mem a)).foldlM Call.exec state := by
  rw [drawOps, List.foldlM_map]

end MonoBus
