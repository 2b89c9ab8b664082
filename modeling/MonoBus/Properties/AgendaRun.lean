import MonoBus.Framework.Agenda
import MonoBus.Construction.Drawing
import MonoBus.Properties.BusStream
import MonoBus.Properties.DispatchBeat

/-!
# From packets to the panel

The whole daemon, said without bytes, pointers and words: drawings arrive in rounds, each for now or
for a second; those for a second wait in the order they arrived; and the panel shows, after every
round, the top of 32 layers.  The thread of the beat does nothing else (`beatThread_shows_agenda`).
-/

namespace MonoBus

/-! ## Packets of drawings -/

/-- A drawing as it arrives: for now, or with its timetag. -/
def Drawing.arrival (x : UInt64 × Drawing) : Option UInt64 × Drawing :=
  (if x.1 = oscImmediate then none else some x.1, x.2)

def Drawing.content (x : UInt64 × Drawing) : UInt64 × List UInt8 := (x.1, x.2.message.encode)

/-- A packet, nested in any way, whose messages are drawings. -/
structure DrawingPacket where
  tree : OscPacket
  drawings : List (UInt64 × Drawing)
  leaves_eq : tree.leaves oscImmediate = drawings.map Drawing.content
  wellSized : tree.WellSized
  pkt : Packet tree.encode

/-- If the packet has messages to be scheduled, there is memory for them. -/
def DrawingPacket.MemoryLasts (libc : Libc) (p : DrawingPacket) : Prop :=
  ∀ x ∈ p.drawings, x.1 = oscImmediate ∨ libc.malloc.Grants (sizeofSched + p.tree.encode.length)

def arrivalsOf (packets : List DrawingPacket) : List (Option UInt64 × Drawing) :=
  packets.flatMap fun p => p.drawings.map Drawing.arrival

/-! ## The relation -/

/-- The bitmap represents the stack, and the list holds the messages that wait. -/
structure Keeps (app : App State) (A : Agenda RefLayers UInt64 Drawing) : Prop where
  state : Represents app.state A.state
  list : app.list.map Sched.content = A.pending.map Drawing.content

section Receive

variable {libc : Libc} {mem : Memory} {app : App State} {A : Agenda RefLayers UInt64 Drawing}

/-- A message is drawn at once or put on the list. -/
lemma Keeps.visit {v : Visit} {x : UInt64 × Drawing} (hcontent : v.content = Drawing.content x)
    (hat : mem.At v.addr v.bytes)
    (hgrants : x.1 = oscImmediate ∨ libc.malloc.Grants (sizeofSched + mem.bytes.length))
    (h : Keeps app A) :
    ∃ app', v.run Call.exec libc mem app = .ok app' ∧
      Keeps app' (A.receive (Drawing.draw libc.fnmatch) (Drawing.arrival x)) := by
  obtain ⟨timetag, d⟩ := x
  obtain ⟨htimetag, hbytes⟩ := Prod.mk.inj hcontent
  by_cases himmediate : timetag = oscImmediate
  · rw [hbytes] at hat
    obtain ⟨state', hhandle, hrep⟩ := handleOscMessage_draws d libc.fnmatch hat h.state
    refine ⟨{ app with state := state' }, ?_, ?_⟩
    · rw [Visit.run, if_pos (htimetag.trans himmediate), hbytes, hhandle]
      rfl
    · simp only [Agenda.receive, Drawing.arrival, if_pos himmediate]
      exact ⟨hrep, h.list⟩
  · obtain ⟨app', hrun⟩ : ∃ app', v.run Call.exec libc mem app = .ok app' := by
      rw [Visit.run, if_neg (by rwa [htimetag])]
      obtain ⟨-, hschedule⟩ | ⟨_, -, -, -, hschedule⟩ :=
        @schedule_eq _ libc _ _ _ app v.timetag hat
      · exact ⟨_, hschedule⟩
      · exact ⟨_, hschedule⟩
    have hlist := list_of_run hat (hgrants.resolve_left himmediate) hrun
    have hstate : app'.state = app.state := by
      rw [Visit.run, if_neg (by rwa [htimetag])] at hrun
      rcases schedule_cases hrun with hnone | ⟨_, -, hsome⟩
      · rw [hnone]
      · rw [hsome]
    refine ⟨app', hrun, ?_⟩
    simp only [Agenda.receive, Drawing.arrival, if_neg himmediate]
    refine ⟨hstate ▸ h.state, hlist.trans ?_⟩
    rw [h.list, hcontent, List.map_append]
    simp [scheduled, Drawing.content, himmediate]

lemma Keeps.visits :
    ∀ {xs : List (UInt64 × Drawing)} {vs : List Visit} {app : App State}
      {A : Agenda RefLayers UInt64 Drawing}, vs.map Visit.content = xs.map Drawing.content →
      (∀ v ∈ vs, mem.At v.addr v.bytes) →
      (∀ x ∈ xs, x.1 = oscImmediate ∨
        libc.malloc.Grants (sizeofSched + mem.bytes.length)) → Keeps app A →
      ∃ app', vs.foldlM (Visit.run Call.exec libc mem) app = .ok app' ∧
        Keeps app' ((xs.map Drawing.arrival).foldl
          (Agenda.receive (Drawing.draw libc.fnmatch)) A) := by
  intro xs
  induction xs with
  | nil =>
      intro vs app A hmap _ _ h
      rw [List.map_nil, List.map_eq_nil_iff] at hmap
      exact ⟨app, by rw [hmap]; rfl, h⟩
  | cons x xs ih =>
      intro vs app A hmap hat hgrants h
      rw [List.map_cons, List.map_eq_cons_iff] at hmap
      obtain ⟨v, vs, rfl, hcontent, hmap⟩ := hmap
      obtain ⟨app₁, hrun, h₁⟩ := h.visit hcontent (hat v List.mem_cons_self)
        (hgrants x List.mem_cons_self)
      obtain ⟨app', hruns, h'⟩ := ih hmap (fun w hw => hat w (List.mem_cons_of_mem v hw))
        (fun y hy => hgrants y (List.mem_cons_of_mem x hy)) h₁
      refine ⟨app', ?_, h'⟩
      rw [List.foldlM_cons, hrun]
      exact hruns

lemma exists_readRing :
    ∀ packets : List DrawingPacket, (∀ p ∈ packets, p.MemoryLasts libc) →
      ∃ fuel₀, ∀ fuel ≥ fuel₀, ∀ (app : App State) (A : Agenda RefLayers UInt64 Drawing),
        Keeps app A → ∃ app',
          readRing Call.exec libc fuel app (packets.map fun p => p.pkt.mem) = .ok app' ∧
          Keeps app' ((arrivalsOf packets).foldl
            (Agenda.receive (Drawing.draw libc.fnmatch)) A) := by
  intro packets
  induction packets with
  | nil => exact fun _ => ⟨0, fun _ _ app A h => ⟨app, rfl, h⟩⟩
  | cons p packets ih =>
      intro hgrants
      obtain ⟨fuel₁, hvisits⟩ :=
        OscPacket.handleOscPacket_eq_visits Call.exec libc p.pkt.mem p.tree p.wellSized
      obtain ⟨fuel₂, hring⟩ := ih fun q hq => hgrants q (List.mem_cons_of_mem p hq)
      refine ⟨max fuel₁ fuel₂, fun fuel hfuel app A h => ?_⟩
      have hat : p.pkt.mem.At p.pkt.mem.base p.tree.encode := p.pkt.rest_reader.at_
      have hmap := (OscPacket.map_visits oscImmediate p.pkt.mem.base p.tree).trans p.leaves_eq
      obtain ⟨app₁, hrun, h₁⟩ := h.visits hmap
        (OscPacket.at_of_mem_visits oscImmediate p.tree hat)
        (by rw [p.pkt.bytes_eq]; exact hgrants p List.mem_cons_self)
      obtain ⟨app', hrest, h'⟩ := hring fuel (by omega) app₁ _ h₁
      refine ⟨app', ?_, ?_⟩
      · rw [readRing, List.map_cons, List.foldlM_cons, p.pkt.bytes_eq,
          hvisits fuel (by omega) app oscImmediate _ hat, hrun]
        exact hrest
      · rwa [arrivalsOf, List.flatMap_cons, List.foldl_append]

end Receive

/-! ## The list -/

/-- Whether a timetag is due in a second since 1970. -/
def dueIn (sec : ℤ) (timetag : UInt64) : Bool := (timetag >>> 32).toNat - jan1970 ≤ sec

lemma Keeps.exists_readList {libc : Libc} {to_ : Timespec} :
    ∀ {pending : List (UInt64 × Drawing)} {fuel : ℕ} {app : App State} {L : RefLayers},
      pending.length < fuel → Keeps app ⟨L, pending⟩ →
      ∃ app' elmnts, readListTraced Call.exec libc fuel to_ app = .ok (app', elmnts) ∧
        Keeps app' ((⟨L, pending⟩ : Agenda RefLayers UInt64 Drawing).release
          (Drawing.draw libc.fnmatch) (dueIn to_.sec)) := by
  intro pending
  induction pending with
  | nil =>
      intro fuel app L hfuel h
      obtain ⟨fuel, rfl⟩ := Nat.exists_eq_succ_of_ne_zero (Nat.ne_of_gt hfuel)
      have hnil : app.list = [] := List.map_eq_nil_iff.mp h.list
      refine ⟨app, [], ?_, h⟩
      rw [readListTraced, hnil]
  | cons x pending ih =>
      intro fuel app L hfuel h
      obtain ⟨fuel, rfl⟩ : ∃ n, fuel = n + 2 := ⟨fuel - 2, by rw [List.length_cons] at hfuel; omega⟩
      obtain ⟨elmnt, rest, hlist, hcontent, hrest⟩ := List.map_eq_cons_iff.mp h.list
      obtain ⟨htimetag, hbytes⟩ := Prod.mk.inj hcontent
      have hdue : to_.reaches elmnt = dueIn to_.sec x.1 := by
        rw [reaches_eq, dueIn, ← htimetag]
        rfl
      cases hreach : to_.reaches elmnt with
      | false =>
          have hlt : to_.diff elmnt.to_ < 0 := not_le.mp (of_decide_eq_false hreach)
          refine ⟨app, [], ?_, ?_⟩
          · rw [readListTraced, hlist]
            exact if_pos hlt
          · rw [Agenda.release_of_not_due (hdue.symm.trans hreach)]
            exact h
      | true =>
          have hle : ¬ to_.diff elmnt.to_ < 0 := not_lt.mpr (of_decide_eq_true hreach)
          have hat : elmnt.buf.At elmnt.buf.base x.2.message.encode := by
            rw [← hbytes]
            exact elmnt.buf.at_base
          obtain ⟨state', hhandle, hrep⟩ := handleOscMessage_draws x.2 libc.fnmatch hat h.state
          have hpacket : handleOscPacket Call.exec libc (fuel + 1) app oscImmediate elmnt.buf
              elmnt.buf.base elmnt.len = .ok { app with state := state' } := by
            rw [handleOscPacket_message _ _ _ _ hat, if_pos rfl, Sched.len, hbytes, hhandle]
            rfl
          obtain ⟨app', elmnts, hread, h'⟩ := @ih (fuel + 1) ⟨state', rest, app.allocs⟩
            (x.2.draw libc.fnmatch L) (by rw [List.length_cons] at hfuel; omega) ⟨hrep, hrest⟩
          refine ⟨app', elmnt :: elmnts, ?_, ?_⟩
          · rw [readListTraced, hlist]
            simp only [if_neg hle, hpacket, Run.ok_bind, hlist, Sched.next_cons, hread]
            rfl
          · rwa [Agenda.release_of_due (hdue.symm.trans hreach)]

/-! ## The run -/

/-- What is due in beat `k` of a thread that is started at time `now`. -/
def FrameRate.dueAt (rate : FrameRate) (now : Timespec) (k : ℕ) : UInt64 → Bool :=
  dueIn (now.sec + 1 + (k * rate.stepNs / nsecs : ℕ))

lemma Timespec.sec_eq {to_ : Timespec} {start : ℤ} {n : ℕ}
    (h : to_.toNsecs = start * nsecs + n) : to_.sec = start + (n / nsecs : ℕ) := by
  have hlt := to_.nsec_lt
  unfold toNsecs nsecs at *
  omega

namespace BeatThread

/-- The beats of a run show what the agenda shows. -/
lemma exists_beats {libc : Libc} {rate : FrameRate} {now : Timespec} :
    ∀ (rounds : List (List DrawingPacket)) (k : ℕ) (A : Agenda RefLayers UInt64 Drawing),
      (∀ packets ∈ rounds, ∀ p ∈ packets, p.MemoryLasts libc) →
      ∃ fuel₀, ∀ fuel ≥ fuel₀, ∀ t : BeatThread, Keeps t.app A →
        t.to_.toNsecs = (now.sec + 1) * nsecs + (k * rate.stepNs : ℕ) →
        ∃ t' records, beats libc rate fuel t
            (rounds.map fun packets => packets.map fun p => p.pkt.mem) = .ok (t', records) ∧
          List.Forall₂ (fun r L => Represents r.shown L) records
            (A.shown (Drawing.draw libc.fnmatch) (rate.dueAt now) k (rounds.map arrivalsOf)) := by
  intro rounds
  induction rounds with
  | nil => exact fun k A _ => ⟨0, fun fuel _ t _ _ => ⟨t, [], rfl, .nil⟩⟩
  | cons packets rounds ih =>
      intro k A hgrants
      set act := Drawing.draw libc.fnmatch
      obtain ⟨fuel₁, hring⟩ := exists_readRing packets (hgrants packets List.mem_cons_self)
      obtain ⟨fuel₂, hbeats⟩ := ih (k + 1) (A.round act (rate.dueAt now k) (arrivalsOf packets))
        fun qs hqs => hgrants qs (List.mem_cons_of_mem packets hqs)
      let mid := (arrivalsOf packets).foldl (Agenda.receive act) A
      refine ⟨max (max fuel₁ fuel₂) (mid.pending.length + 1), fun fuel hfuel t h hto => ?_⟩
      obtain ⟨app₁, hread, h₁⟩ : ∃ app', _ ∧ Keeps app' mid := hring fuel (by omega) t.app A h
      have hlt : mid.pending.length < fuel := by omega
      obtain ⟨app₂, elmnts, hlist, h₂⟩ := @Keeps.exists_readList libc t.to_ mid.pending fuel app₁
        mid.state hlt h₁
      obtain ⟨t₁, record, hbeat, hrecord, happ, hnext⟩ := @exists_beat libc rate _ _ _ _ _ _
        hread hlist
      -- the deadline of the next beat, and what was due in this one
      have hto₁ : t₁.to_.toNsecs = (now.sec + 1) * nsecs + ((k + 1) * rate.stepNs : ℕ) := by
        rw [hnext, Timespec.toNsecs_nextBeat, hto]
        push_cast
        ring
      have hdue : dueIn t.to_.sec = rate.dueAt now k := by
        rw [FrameRate.dueAt, Timespec.sec_eq hto]
      rw [hdue] at h₂
      obtain ⟨t', records, hrest, hshown⟩ := hbeats fuel (by omega) t₁ (happ ▸ h₂) hto₁
      refine ⟨t', record :: records, ?_, ?_⟩
      · rw [List.map_cons, beats, hbeat, Run.ok_bind]
        dsimp only
        rw [hrest]
        rfl
      · rw [List.map_cons, Agenda.shown]
        refine .cons ?_ hshown
        rw [hrecord]
        exact h₂.state

end BeatThread

/-- What a panel shows of the reference stack. -/
def RefLayers.picture (L : RefLayers) : Coord → Bool := fun c => (L.top c).getD false

section Run

variable {libc : Libc} {rate : FrameRate} {now : Timespec} {allocs : ℕ}
  {previous : Fin lengthSer → UInt8} {dst : ℕ → UInt8} {rounds : List (List DrawingPacket)}

lemma exists_run (rate : FrameRate) (now : Timespec) (allocs : ℕ)
    (previous : Fin lengthSer → UInt8) (dst : ℕ → UInt8)
    (hgrants : ∀ packets ∈ rounds, ∀ p ∈ packets, p.MemoryLasts libc) :
    ∃ fuel₀, ∀ fuel ≥ fuel₀, ∃ t' records,
      (BeatThread.created State.zero allocs previous dst).run libc rate fuel now
        (rounds.map fun packets => packets.map fun p => p.pkt.mem) = .ok (t', records) ∧
      List.Forall₂ (fun r L => Represents r.shown L) records
        ((⟨Layers.empty, []⟩ : Agenda RefLayers UInt64 Drawing).shown
          (Drawing.draw libc.fnmatch) (rate.dueAt now) 0 (rounds.map arrivalsOf)) := by
  obtain ⟨fuel₀, hbeats⟩ := @BeatThread.exists_beats libc rate now rounds 0
    ⟨Layers.empty, []⟩ hgrants
  refine ⟨fuel₀, fun fuel hfuel => ?_⟩
  -- what the thread starts with
  set t := { BeatThread.created State.zero allocs previous dst with to_ := now.firstBeat }.setup
    with ht
  have happ : t.app = ⟨State.zero, [], allocs⟩ := by
    simp only [ht, BeatThread.setup, BeatThread.xmit_app, BeatThread.created]
  have hto : t.to_.toNsecs = (now.sec + 1) * nsecs + (0 * rate.stepNs : ℕ) := by
    simp [ht, BeatThread.setup, Timespec.firstBeat, Timespec.toNsecs]
  have hkeeps : Keeps t.app ⟨Layers.empty, []⟩ := by
    rw [happ]
    exact ⟨represents_zero, rfl⟩
  obtain ⟨t₁, records, hrun, hshown⟩ := hbeats fuel hfuel t hkeeps hto
  refine ⟨t₁.final, records, ?_, hshown⟩
  rw [BeatThread.run, hrun]
  rfl

lemma pictures_of_run {state : State} {fuel : ℕ} {packets : List (List Memory)} {t' : BeatThread}
    {records : List BeatRecord} {tops : List RefLayers}
    (h : (BeatThread.created state allocs previous dst).run libc rate fuel now packets =
      .ok (t', records))
    (hstacks : List.Forall₂ (fun r L => Represents r.shown L) records tops) :
    ∃ xs, readBus t'.sent = some xs ∧
      panelPictures xs = tops.map RefLayers.picture ++ [fun _ => false] := by
  refine ⟨_, (readsAs_run h).readBus_eq, (panelPictures_stream previous records).trans ?_⟩
  congr 1
  refine List.forall₂_eq_eq_eq ▸ List.forall₂_map_left_iff.mpr (List.forall₂_map_right_iff.mpr ?_)
  exact hstacks.imp fun r L hrep => funext fun c => displayBit_of_represents hrep c

/-- **The daemon keeps an agenda.**  Let packets of drawings arrive in any rounds, and let memory
last.  Then the thread makes its beats without a fault, and the panel shows the tops of the stacks
of the agenda: what comes for now is drawn in the round it arrives in, and what comes for a second
is drawn, in the order of arrival, in the first round in which nothing in front of it waits for a
second that is still to come. -/
theorem beatThread_shows_agenda (libc : Libc) (rate : FrameRate) (now : Timespec) (allocs : ℕ)
    (previous : Fin lengthSer → UInt8) (dst : ℕ → UInt8) (rounds : List (List DrawingPacket))
    (hgrants : ∀ packets ∈ rounds, ∀ p ∈ packets, p.MemoryLasts libc) :
    ∃ fuel₀, ∀ fuel ≥ fuel₀, ∃ t' records xs,
      (BeatThread.created State.zero allocs previous dst).run libc rate fuel now
        (rounds.map fun packets => packets.map fun p => p.pkt.mem) = .ok (t', records) ∧
      readBus t'.sent = some xs ∧
      panelPictures xs = ((⟨Layers.empty, []⟩ : Agenda RefLayers UInt64 Drawing).shown
        (Drawing.draw libc.fnmatch) (rate.dueAt now) 0 (rounds.map arrivalsOf)).map
          RefLayers.picture ++ [fun _ => false] := by
  obtain ⟨fuel₀, hrun⟩ := exists_run rate now allocs previous dst hgrants
  refine ⟨fuel₀, fun fuel hfuel => ?_⟩
  obtain ⟨t', records, hrun, hstacks⟩ := hrun fuel hfuel
  obtain ⟨xs, hread, hpictures⟩ := pictures_of_run hrun hstacks
  exact ⟨t', records, xs, hrun, hread, hpictures⟩

end Run

/-! ## A drawing for now and a clear for later -/

/-- Eight pixels on the last layer. -/
def paintEight : Drawing where
  segment := .ofPrio (Fin.last 31)
  args := setArgs 1 2 8 1 (.ofByte 0x81)
  tame := by decide

/-- The last layer is cleared. -/
def clearLast : Drawing where
  segment := .ofPrio (Fin.last 31)
  args := []
  tame := by decide

/-- The pixels are for now, and the clear is for second 5. -/
def paintThenClear : DrawingPacket where
  tree := .bundle oscImmediate [.message paintEight.message.encode.tail,
    .bundle 0x83aa7e8580000000 [.message clearLast.message.encode.tail]]
  drawings := [(oscImmediate, paintEight), (0x83aa7e8580000000, clearLast)]
  leaves_eq := by rfl
  wellSized := by
    simp only [OscPacket.WellSized, OscPacket.WellSizedItems]
    exact ⟨by decide, trivial, by decide, ⟨by decide, trivial, trivial⟩, trivial⟩
  pkt := .placed _ (by decide)

/-- A pixel of the drawing is lit after the beat at second 4 and dark after that at second 5. -/
theorem beatThread_shows_agenda_paintThenClear :
    ∃ fuel₀, ∀ fuel ≥ fuel₀, ∃ t' records xs,
      (BeatThread.created State.zero 0 (fun _ => 0) fun _ => 0).run .simple ⟨1, by decide⟩ fuel
        ⟨3, 0, by decide⟩ [[paintThenClear.pkt.mem], []] = .ok (t', records) ∧
      readBus t'.sent = some xs ∧
      (panelPictures xs).map (fun picture => picture (2, 1)) = [true, false, false] := by
  have hlit : (((⟨Layers.empty, []⟩ : Agenda RefLayers UInt64 Drawing).shown
      (Drawing.draw Libc.simple.fnmatch)
      ((⟨1, by decide⟩ : FrameRate).dueAt ⟨3, 0, by decide⟩) 0
      ([[paintThenClear], []].map arrivalsOf)).map RefLayers.picture).map
        (fun picture => picture (2, 1)) = [true, false] := by
    decide +kernel
  have hgrants : Libc.simple.malloc.Grants (sizeofSched + paintThenClear.tree.encode.length) :=
    Malloc.plenty_grants (by decide)
  obtain ⟨fuel₀, hrun⟩ := beatThread_shows_agenda .simple ⟨1, by decide⟩ ⟨3, 0, by decide⟩ 0
    (fun _ => 0) (fun _ => 0) [[paintThenClear], []]
    (by simpa [DrawingPacket.MemoryLasts] using fun _ _ _ => .inr hgrants)
  refine ⟨fuel₀, fun fuel hfuel => ?_⟩
  obtain ⟨t', records, xs, hrun, hread, hpictures⟩ := hrun fuel hfuel
  refine ⟨t', records, xs, hrun, hread, ?_⟩
  rw [hpictures, List.map_append, hlit]
  rfl

end MonoBus
