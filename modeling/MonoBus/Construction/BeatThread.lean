import MonoBus.Construction.BeatFrames
import MonoBus.Properties.Conservation

/-!
# The thread of the beat (`_beat`)

The thread sends two messages, then beats at its deadlines, and at its end sends a dark picture.
How many beats it makes is up to the flag `done`, so a run has any number of them.  A transmission
that fails sets that flag and changes nothing else: `sent` holds what is handed to
`ftdi_write_data`, whatever becomes of it.
-/

namespace MonoBus

/-! ## Deadlines -/

/-- `fps`.  A rate of zero is no rate: `_beat` divides by it. -/
structure FrameRate where
  fps : UInt32
  pos : 0 < fps.toNat

/-- `step_ns`. -/
def FrameRate.stepNs (rate : FrameRate) : ℕ := nsecs / rate.fps.toNat

/-- The loop that carries nanoseconds to seconds. -/
def carrySeconds (sec : ℤ) (nsec : ℕ) : ℤ × ℕ :=
  if nsecs ≤ nsec then carrySeconds (sec + 1) (nsec - nsecs) else (sec, nsec)
termination_by nsec
decreasing_by
  unfold nsecs at *
  omega

/-- It leaves less than a second, and the time as it was. -/
lemma carrySeconds_spec (sec : ℤ) (nsec : ℕ) :
    (carrySeconds sec nsec).2 < nsecs ∧
      (carrySeconds sec nsec).1 * nsecs + (carrySeconds sec nsec).2 = sec * nsecs + nsec := by
  induction sec, nsec using carrySeconds.induct with
  | case1 sec nsec hle ih =>
      rw [carrySeconds, if_pos hle]
      refine ⟨ih.1, ih.2.trans ?_⟩
      rw [Nat.cast_sub hle]
      ring
  | case2 sec nsec hlt =>
      rw [carrySeconds, if_neg hlt]
      exact ⟨not_le.mp hlt, rfl⟩

/-- The first deadline. -/
def Timespec.firstBeat (now : Timespec) : Timespec where
  sec := now.sec + 1
  nsec := 0
  nsec_lt := by decide

/-- The next deadline. -/
def Timespec.nextBeat (to_ : Timespec) (stepNs : ℕ) : Timespec where
  sec := (carrySeconds to_.sec (to_.nsec + stepNs)).1
  nsec := (carrySeconds to_.sec (to_.nsec + stepNs)).2
  nsec_lt := (carrySeconds_spec _ _).1

@[simp] lemma Timespec.toNsecs_nextBeat (to_ : Timespec) (stepNs : ℕ) :
    (to_.nextBeat stepNs).toNsecs = to_.toNsecs + stepNs := by
  rw [toNsecs, nextBeat, (carrySeconds_spec _ _).2, toNsecs, Nat.cast_add, add_assoc]

/-- The difference `_beat` computes is that of the two times. -/
lemma Timespec.diff_eq (to_ elmnt : Timespec) :
    to_.diff elmnt = to_.toNsecs - elmnt.toNsecs := by
  unfold diff toNsecs
  ring

/-! ## Transmissions -/

/-- What `_beat` works on: its part of `app_t`, `led_outdat`, the array for its messages, its
deadline, and the bytes it has handed to `ftdi_write_data`. -/
structure BeatThread where
  app : App State
  outdat : LedOutdat
  dst : ℕ → UInt8
  to_ : Timespec
  sent : List UInt8

/-- What a new thread finds: the bitmap as calls of `_loop` before have left it, and an empty list.
The deadline is set by the thread. -/
def BeatThread.created (state : State) (allocs : ℕ) (previous : Fin lengthSer → UInt8)
    (dst : ℕ → UInt8) : BeatThread where
  app := ⟨state, [], allocs⟩
  outdat := ledOutdat previous
  dst := dst
  to_ := ⟨0, 0, by decide⟩
  sent := []

/-- What happened in a beat: its deadline, the messages that were put on the list, the messages
that were dispatched from it, and the bitmap at its end. -/
structure BeatRecord where
  to_ : Timespec
  scheduled : List Sched
  dispatched : List Sched
  shown : State

namespace BeatThread

/-- `monobus_message` and `_ftdi_xmit`. -/
def xmit (t : BeatThread) (command : CommandType) : BeatThread :=
  let (dst, sz) := monobusMessage t.dst 512 command.toByte 0x2 (command.payload t.outdat)
  { t with dst := dst, sent := t.sent ++ (List.range sz).map dst }

/-- The messages in front of the loop. -/
def setup (t : BeatThread) : BeatThread := (t.xmit .status).xmit .ledSetup

/-- The messages behind the loop. -/
def final (t : BeatThread) : BeatThread :=
  let t := t.xmit .ledOutset
  let t := { t with outdat := { t.outdat with bitmap := fun _ => 0 } }
  (t.xmit .ledOutdat).xmit .ledOutput

/-- One round of the loop. -/
def beat (libc : Libc) (rate : FrameRate) (fuel : ℕ) (t : BeatThread) (packets : List Memory) :
    Run (BeatThread × BeatRecord) := do
  let mid ← readRing Call.exec libc fuel t.app packets
  let (app, dispatched) ← readListTraced Call.exec libc fuel t.to_ mid
  let record : BeatRecord :=
    { to_ := t.to_
      scheduled := mid.list.drop t.app.list.length
      dispatched := dispatched
      shown := app.state }
  let t := { t with app := app }.xmit .ledOutset
  let outdat ← serialize app.state t.outdat
  let t := ({ t with outdat := outdat }.xmit .ledOutdat).xmit .ledOutput
  return ({ t with to_ := t.to_.nextBeat rate.stepNs }, record)

/-- The loop, with the packets that each round finds in the ring. -/
def beats (libc : Libc) (rate : FrameRate) (fuel : ℕ) :
    BeatThread → List (List Memory) → Run (BeatThread × List BeatRecord)
  | t, [] => .ok (t, [])
  | t, packets :: rounds => do
      let (t, record) ← beat libc rate fuel t packets
      let (t, records) ← beats libc rate fuel t rounds
      return (t, record :: records)

/-- `_beat`, called at time `now`. -/
def run (libc : Libc) (rate : FrameRate) (fuel : ℕ) (now : Timespec) (t : BeatThread)
    (rounds : List (List Memory)) : Run (BeatThread × List BeatRecord) := do
  let (t, records) ← beats libc rate fuel { t with to_ := now.firstBeat }.setup rounds
  return (t.final, records)

/-! ## Fields -/

section Fields

variable (t : BeatThread) (command : CommandType)

@[simp] lemma xmit_app : (t.xmit command).app = t.app := rfl

@[simp] lemma xmit_outdat : (t.xmit command).outdat = t.outdat := rfl

@[simp] lemma xmit_to : (t.xmit command).to_ = t.to_ := rfl

lemma xmit_sent : (t.xmit command).sent =
    t.sent ++ delimit framing (busBody (command.toByte ||| 0x2) (command.payload t.outdat)) :=
  congrArg (t.sent ++ ·) (monobusFrame_eq t.dst 512 command.toByte 0x2 (command.payload t.outdat))

end Fields

/-! ## One beat -/

section Beat

variable {libc : Libc} {rate : FrameRate} {fuel : ℕ} {t t' : BeatThread} {packets : List Memory}
  {record : BeatRecord}

/-- Everything a beat does. -/
structure Beaten (libc : Libc) (rate : FrameRate) (fuel : ℕ) (t : BeatThread)
    (packets : List Memory) (t' : BeatThread) (record : BeatRecord) (mid : App State) : Prop where
  ring : readRing Call.exec libc fuel t.app packets = .ok mid
  list : readListTraced Call.exec libc fuel t.to_ mid = .ok (t'.app, record.dispatched)
  scheduled : record.scheduled = mid.list.drop t.app.list.length
  shown : record.shown = t'.app.state
  deadline : record.to_ = t.to_
  next : t'.to_ = t.to_.nextBeat rate.stepNs
  outdat : t'.outdat = { t.outdat with bitmap := serBitmap record.shown }
  sent : t'.sent = t.sent ++ BeatPhase.frame.commands.flatMap fun command =>
    delimit framing (busBody (command.toByte ||| 0x2) (command.payload t'.outdat))

lemma beaten_of_beat (h : beat libc rate fuel t packets = .ok (t', record)) :
    ∃ mid, Beaten libc rate fuel t packets t' record mid := by
  obtain ⟨mid, hring, h⟩ := Run.bind_eq_ok.mp h
  obtain ⟨⟨app, dispatched⟩, hlist, h⟩ := Run.bind_eq_ok.mp h
  dsimp only at h
  rw [serialize_eq] at h
  obtain ⟨rfl, rfl⟩ := Prod.mk.inj (Except.ok.inj h)
  refine ⟨mid, hring, hlist, rfl, rfl, rfl, rfl, rfl, ?_⟩
  simp only [xmit_sent, xmit_outdat, BeatPhase.commands, List.flatMap_cons, List.flatMap_nil,
    List.append_assoc, List.append_nil, CommandType.payload]

/-- A beat whose packets and messages are handled without a fault. -/
lemma exists_beat {mid app : App State} {dispatched : List Sched}
    (hring : readRing Call.exec libc fuel t.app packets = .ok mid)
    (hlist : readListTraced Call.exec libc fuel t.to_ mid = .ok (app, dispatched)) :
    ∃ t' record, beat libc rate fuel t packets = .ok (t', record) ∧
      record = ⟨t.to_, mid.list.drop t.app.list.length, dispatched, app.state⟩ ∧
      t'.app = app ∧ t'.to_ = t.to_.nextBeat rate.stepNs := by
  let t₁ := { t with app := app }.xmit .ledOutset
  let t₂ := { t₁ with outdat := { t.outdat with bitmap := serBitmap app.state } }
  refine ⟨{ (t₂.xmit .ledOutdat).xmit .ledOutput with to_ := t.to_.nextBeat rate.stepNs }, _, ?_,
    rfl, rfl, rfl⟩
  rw [beat, hring, Run.ok_bind, hlist, Run.ok_bind]
  dsimp only
  rw [serialize_eq]
  rfl

end Beat

end BeatThread

end MonoBus
