import MonoBus.Properties.BusReader
import MonoBus.Construction.BeatThread

/-!
# What the thread of the beat sends

Whatever arrives and however long the thread runs, its bytes are a stream the receiver of the bus
reads: the setup, three messages for each beat, and three messages with a dark picture at the end.
The picture of a beat is the display after everything the beat has handled.
-/

namespace MonoBus

/-- The messages of a group as a receiver gets them, where `p` is `led_outdat`. -/
def BeatPhase.contents (p : LedOutdat) (phase : BeatPhase) : List (UInt8 × List UInt8) :=
  phase.commands.map fun command => (command.toByte ||| 0x2, command.payload p)

/-- The picture a panel makes of the payload of a bitmap message. -/
def panelPicture (payload : List UInt8) (c : Coord) : Bool :=
  byteBit (payload.getD (2 + serByte c) 0) (serBit c)

/-- The pictures a panel shows, one after the other. -/
def panelPictures (xs : List (UInt8 × List UInt8)) : List (Coord → Bool) :=
  (xs.filter fun x => x.1 = CommandType.ledOutdat.toByte ||| 0x2).map fun x => panelPicture x.2

lemma panelPictures_append (xs ys : List (UInt8 × List UInt8)) :
    panelPictures (xs ++ ys) = panelPictures xs ++ panelPictures ys := by
  rw [panelPictures, List.filter_append, List.map_append]
  rfl

/-! ## One group -/

lemma getD_toBytes (p : LedOutdat) (i : Fin lengthSer) : p.toBytes.getD (2 + i) 0 = p.bitmap i := by
  have hlt : (i : ℕ) < (List.ofFn p.bitmap).length := by
    rw [List.length_ofFn]
    exact i.isLt
  rw [LedOutdat.toBytes, Nat.add_comm, List.getD_cons_succ, List.getD_cons_succ,
    List.getD_eq_getElem _ _ hlt, List.getElem_ofFn]

lemma panelPicture_ledOutdat (bitmap : Fin lengthSer → UInt8) (c : Coord) :
    panelPicture (ledOutdat bitmap).toBytes c = byteBit (bitmap (serByte c)) (serBit c) := by
  unfold panelPicture
  rw [getD_toBytes]
  rfl

lemma panelPicture_serBitmap (state : State) :
    panelPicture (ledOutdat (serBitmap state)).toBytes = displayBit state := by
  funext c
  rw [panelPicture_ledOutdat, byteBit_serBitmap]

lemma panelPicture_blank : panelPicture (ledOutdat fun _ => 0).toBytes = fun _ => false := by
  funext c
  rw [panelPicture_ledOutdat]
  exact Nat.zero_testBit _

/-- A group without a bitmap shows nothing. -/
lemma panelPictures_setup (p : LedOutdat) : panelPictures (BeatPhase.setup.contents p) = [] := rfl

lemma panelPictures_frame (p : LedOutdat) :
    panelPictures (BeatPhase.frame.contents p) = [panelPicture p.toBytes] := rfl

lemma panelPictures_final (p : LedOutdat) :
    panelPictures (BeatPhase.final.contents p) = [panelPicture p.toBytes] := rfl

/-! ## Streams -/

/-- What the receiver reads of some bytes, whatever follows them. -/
def ReadsAs (bytes : List UInt8) (xs : List (UInt8 × List UInt8)) : Prop :=
  ∃ ms : List BusMessage, ms.map BusMessage.content = xs ∧
    bytes = ms.flatMap fun m => delimit framing (busBody m.header m.payload)

lemma ReadsAs.nil : ReadsAs [] [] := ⟨[], rfl, rfl⟩

lemma ReadsAs.append {bytes bytes' : List UInt8} {xs xs' : List (UInt8 × List UInt8)}
    (h : ReadsAs bytes xs) (h' : ReadsAs bytes' xs') : ReadsAs (bytes ++ bytes') (xs ++ xs') := by
  obtain ⟨ms, rfl, rfl⟩ := h
  obtain ⟨ms', rfl, rfl⟩ := h'
  exact ⟨ms ++ ms', List.map_append, List.flatMap_append.symm⟩

lemma ReadsAs.readBus_eq {bytes : List UInt8} {xs : List (UInt8 × List UInt8)}
    (h : ReadsAs bytes xs) : readBus bytes = some xs := by
  obtain ⟨ms, rfl, rfl⟩ := h
  exact BusMessage.readBus_delimit ms

lemma readsAs_command (command : CommandType) (p : LedOutdat) :
    ReadsAs (delimit framing (busBody (command.toByte ||| 0x2) (command.payload p)))
      [(command.toByte ||| 0x2, command.payload p)] :=
  ⟨[.ofCommandType command 0x2 (by decide) (command.payload p)], rfl, (List.append_nil _).symm⟩

lemma readsAs_commands (commands : List CommandType) (p : LedOutdat) :
    ReadsAs (commands.flatMap fun command =>
        delimit framing (busBody (command.toByte ||| 0x2) (command.payload p)))
      (commands.map fun command => (command.toByte ||| 0x2, command.payload p)) := by
  induction commands with
  | nil => exact .nil
  | cons command commands ih => exact (readsAs_command command p).append ih

namespace BeatThread

/-- `led_outdat` never changes but for its bitmap. -/
lemma outdat_of_ledOutdat {p : LedOutdat} {previous : Fin lengthSer → UInt8}
    (hp : p = ledOutdat previous) (bitmap : Fin lengthSer → UInt8) :
    { p with bitmap := bitmap } = ledOutdat bitmap := by
  rw [hp]
  rfl

lemma sent_setup (t : BeatThread) : t.setup.sent = t.sent ++ BeatPhase.setup.commands.flatMap
    fun command => delimit framing (busBody (command.toByte ||| 0x2)
      (command.payload t.outdat)) := by
  simp only [setup, xmit_sent, xmit_outdat, BeatPhase.commands, List.flatMap_cons,
    List.flatMap_nil, List.append_assoc, List.append_nil]

lemma sent_final (t : BeatThread) : t.final.sent = t.sent ++ BeatPhase.final.commands.flatMap
    fun command => delimit framing (busBody (command.toByte ||| 0x2)
      (command.payload { t.outdat with bitmap := fun _ => 0 })) := by
  simp only [final, xmit_sent, xmit_outdat, BeatPhase.commands, List.flatMap_cons,
    List.flatMap_nil, List.append_assoc, List.append_nil, CommandType.payload]

lemma readsAs_beats {libc : Libc} {rate : FrameRate} {fuel : ℕ} {t t' : BeatThread}
    {rounds : List (List Memory)} {records : List BeatRecord}
    {xs : List (UInt8 × List UInt8)} (h : beats libc rate fuel t rounds = .ok (t', records))
    (hxs : ReadsAs t.sent xs) (hp : ∃ previous, t.outdat = ledOutdat previous) :
    ReadsAs t'.sent (xs ++ records.flatMap fun r =>
        BeatPhase.frame.contents (ledOutdat (serBitmap r.shown))) ∧
      ∃ previous, t'.outdat = ledOutdat previous := by
  induction rounds generalizing t xs records with
  | nil =>
      obtain ⟨rfl, rfl⟩ := Prod.mk.inj (Except.ok.inj h)
      exact ⟨by simpa using hxs, hp⟩
  | cons packets rounds ih =>
      obtain ⟨⟨t₁, record⟩, hbeat, h⟩ := Run.bind_eq_ok.mp h
      obtain ⟨⟨t₂, records'⟩, hrest, h⟩ := Run.bind_eq_ok.mp h
      obtain ⟨rfl, rfl⟩ := Prod.mk.inj (Except.ok.inj h)
      obtain ⟨mid, hbeaten⟩ := beaten_of_beat hbeat
      obtain ⟨previous, hp⟩ := hp
      have houtdat : t₁.outdat = ledOutdat (serBitmap record.shown) :=
        hbeaten.outdat.trans (outdat_of_ledOutdat hp _)
      have hsent : ReadsAs t₁.sent
          (xs ++ BeatPhase.frame.contents (ledOutdat (serBitmap record.shown))) := by
        rw [hbeaten.sent, houtdat]
        exact hxs.append (readsAs_commands _ _)
      rw [List.flatMap_cons, ← List.append_assoc]
      exact ih hrest hsent ⟨_, houtdat⟩

end BeatThread

lemma panelPictures_beats (records : List BeatRecord) :
    panelPictures (records.flatMap fun r =>
      BeatPhase.frame.contents (ledOutdat (serBitmap r.shown))) =
        records.map fun r => displayBit r.shown := by
  induction records with
  | nil => rfl
  | cons r records ih =>
      rw [List.flatMap_cons, panelPictures_append, ih, panelPictures_frame,
        panelPicture_serBitmap]
      rfl

/-- What the receiver reads of a whole run. -/
def BeatThread.stream (previous : Fin lengthSer → UInt8) (records : List BeatRecord) :
    List (UInt8 × List UInt8) :=
  BeatPhase.setup.contents (ledOutdat previous) ++
    records.flatMap (fun r => BeatPhase.frame.contents (ledOutdat (serBitmap r.shown))) ++
    BeatPhase.final.contents (ledOutdat fun _ => 0)

lemma panelPictures_stream (previous : Fin lengthSer → UInt8) (records : List BeatRecord) :
    panelPictures (BeatThread.stream previous records) =
      records.map (fun r => displayBit r.shown) ++ [fun _ => false] := by
  rw [BeatThread.stream, panelPictures_append, panelPictures_append, panelPictures_setup,
    panelPictures_beats, panelPictures_final, panelPicture_blank, List.nil_append]

lemma readsAs_run {libc : Libc} {rate : FrameRate} {fuel : ℕ} {now : Timespec}
    {state : State} {allocs : ℕ} {previous : Fin lengthSer → UInt8} {dst : ℕ → UInt8}
    {rounds : List (List Memory)} {t' : BeatThread} {records : List BeatRecord}
    (h : (BeatThread.created state allocs previous dst).run libc rate fuel now rounds =
      .ok (t', records)) : ReadsAs t'.sent (BeatThread.stream previous records) := by
  obtain ⟨⟨t₁, records'⟩, hbeats, h⟩ := Run.bind_eq_ok.mp h
  obtain ⟨rfl, rfl⟩ := Prod.mk.inj (Except.ok.inj h)
  have hsetup : ReadsAs ({ BeatThread.created state allocs previous dst with
      to_ := now.firstBeat }.setup).sent (BeatPhase.setup.contents (ledOutdat previous)) := by
    rw [BeatThread.sent_setup]
    exact ReadsAs.nil.append (readsAs_commands _ _)
  obtain ⟨hsent, previous', hp⟩ := BeatThread.readsAs_beats hbeats hsetup ⟨previous, rfl⟩
  have hfinal := hsent.append (readsAs_commands BeatPhase.final.commands (ledOutdat fun _ => 0))
  rw [← BeatThread.outdat_of_ledOutdat hp, ← BeatThread.sent_final,
    BeatThread.outdat_of_ledOutdat hp] at hfinal
  exact hfinal

/-- **The stream of a thread.**  In any run the receiver of the bus reads the setup, then the three
messages of each beat, and then the three messages of the end; and the panel shows the displays
after the beats, one after the other, and is dark at the end. -/
theorem beatThread_bus {libc : Libc} {rate : FrameRate} {fuel : ℕ} {now : Timespec}
    {state : State} {allocs : ℕ} {previous : Fin lengthSer → UInt8} {dst : ℕ → UInt8}
    {rounds : List (List Memory)} {t' : BeatThread} {records : List BeatRecord}
    (h : (BeatThread.created state allocs previous dst).run libc rate fuel now rounds =
      .ok (t', records)) :
    ∃ xs, readBus t'.sent = some xs ∧
      xs = BeatPhase.setup.contents (ledOutdat previous) ++
        records.flatMap (fun r => BeatPhase.frame.contents (ledOutdat (serBitmap r.shown))) ++
        BeatPhase.final.contents (ledOutdat fun _ => 0) ∧
      panelPictures xs = records.map (fun r => displayBit r.shown) ++ [fun _ => false] :=
  ⟨_, (readsAs_run h).readBus_eq, rfl, panelPictures_stream previous records⟩

/-- Eight pixels on the last layer, of which the first and the last are lit. -/
def eightLitMessage : OscMessage :=
  messageTo (.ofPrio (Fin.last 31)) (setArgs 1 2 8 1 (.ofByte 0x81))

lemma length_eightLitMessage_le : eightLitMessage.encode.length ≤ 2 ^ 62 := by decide

/-- A packet with this message. -/
def eightLit : Memory := (Packet.placed eightLitMessage.encode length_eightLitMessage_le).mem

/-- The bitmap behind the packet has the first pixel lit. -/
lemma exists_readRing_eightLit :
    ∃ mid, readRing Call.exec .simple 5 ⟨State.zero, [], 0⟩ [eightLit] = .ok mid ∧
      mid.list = [] ∧ displayBit mid.state (2, 1) = true := by
  have hlit : ((readRing Call.exec .simple 5 ⟨State.zero, [], 0⟩ [eightLit]).toOption.map
      fun app => (app.list.length, displayBit app.state (2, 1))) = some (0, true) := by
    decide +kernel
  cases hring : readRing Call.exec .simple 5 ⟨State.zero, [], 0⟩ [eightLit] with
  | error e =>
      rw [hring] at hlit
      cases hlit
  | ok mid =>
      rw [hring] at hlit
      obtain ⟨hlist, hbit⟩ := Prod.mk.inj (Option.some.inj hlit)
      exact ⟨mid, rfl, List.length_eq_zero_iff.mp hlist, hbit⟩

/-- The panel shows the first pixel at the beat that has received the packet, and is dark then. -/
theorem beatThread_bus_eightLit :
    ∃ t' r xs, (BeatThread.created State.zero 0 (fun _ => 0) fun _ => 0).run .simple
        ⟨2, by decide⟩ 5 ⟨0, 0, by decide⟩ [[eightLit]] = .ok (t', [r]) ∧
      readBus t'.sent = some xs ∧
      (panelPictures xs).map (fun picture => picture (2, 1)) = [true, false] := by
  obtain ⟨mid, hring, hnil, hlit⟩ := exists_readRing_eightLit
  let t := { BeatThread.created State.zero 0 (fun _ => 0) fun _ => 0 with
    to_ := (⟨0, 0, by decide⟩ : Timespec).firstBeat }.setup
  have hlist : readListTraced Call.exec .simple 5 t.to_ mid = .ok (mid, []) := by
    rw [readListTraced, hnil]
  obtain ⟨t₁, r, hbeat, hr, -, -⟩ := @BeatThread.exists_beat .simple ⟨2, by decide⟩ 5 t
    [eightLit] mid mid [] hring hlist
  have hrun : (BeatThread.created State.zero 0 (fun _ => 0) fun _ => 0).run .simple
      ⟨2, by decide⟩ 5 ⟨0, 0, by decide⟩ [[eightLit]] = .ok (t₁.final, [r]) := by
    rw [BeatThread.run, BeatThread.beats, hbeat]
    rfl
  obtain ⟨xs, hread, -, hpictures⟩ := beatThread_bus hrun
  refine ⟨_, r, xs, hrun, hread, ?_⟩
  rw [hpictures, hr, List.map_singleton, List.singleton_append, List.map_cons, List.map_singleton,
    hlit]

end MonoBus
