import MonoBus.Framework.DrainRounds
import MonoBus.Construction.BeatThread

/-!
# Which beat dispatches a message

The deadlines of a thread are `step_ns` apart, to the nanosecond.  As the list is in the order of
arrival and a beat stops at the first message that is not due, a message is dispatched by the first
beat whose deadline has reached its own second and the seconds of all messages that were scheduled
before it.
-/

namespace MonoBus

/-! ## The list in a beat -/

section List

variable {σ : Type} {draw : σ → Call → Run σ} {libc : Libc}

lemma prefix_of_handleOscPacket {fuel : ℕ} {app app' : App σ} {timetag : UInt64} {mem : Memory}
    {buf len : ℕ} (h : handleOscPacket draw libc fuel app timetag mem buf len = .ok app') :
    app.list <+: app'.list := by
  refine (handleOscPacket_keeps (P := fun app' : App σ => app.list <+: app'.list) ?_ ?_ ?_
    fuel).1 _ _ _ _ _ _ h List.prefix_rfl
  · exact fun _ _ h => h
  · exact fun _ h => h
  · exact fun _ _ _ h => h.trans (List.prefix_append _ _)

lemma prefix_of_readRing {fuel : ℕ} {packets : List Memory} {app app' : App σ}
    (h : readRing draw libc fuel app packets = .ok app') : app.list <+: app'.list := by
  induction packets generalizing app with
  | nil => rw [← Except.ok.inj h]
  | cons buf packets ih =>
      rw [readRing, List.foldlM_cons] at h
      obtain ⟨mid, hmid, h⟩ := Run.bind_eq_ok.mp h
      exact (prefix_of_handleOscPacket hmid).trans (ih h)

end List

namespace BeatRecord

/-- A beat as a round of a queue. -/
def toRound (r : BeatRecord) : DrainRound Sched where
  arrived := r.scheduled
  test := r.to_.reaches
  taken := r.dispatched

end BeatRecord

namespace BeatThread

section Runs

variable {libc : Libc} {rate : FrameRate} {fuel : ℕ} {t t' : BeatThread}
  {rounds : List (List Memory)} {records before after : List BeatRecord} {r : BeatRecord}

/-- The beat of a record starts from what the beats before it have left. -/
lemma exists_beaten (h : beats libc rate fuel t rounds = .ok (t', records))
    (hrecords : records = before ++ r :: after) :
    ∃ t₁ t₂ packets mid,
      beats libc rate fuel t (rounds.take before.length) = .ok (t₁, before) ∧
      rounds[before.length]? = some packets ∧ Beaten libc rate fuel t₁ packets t₂ r mid ∧
      t₁.to_.toNsecs = t.to_.toNsecs + before.length * rate.stepNs := by
  induction rounds generalizing t records before with
  | nil =>
      obtain ⟨-, rfl⟩ := Prod.mk.inj (Except.ok.inj h)
      exact absurd hrecords.symm (by simp)
  | cons packets rounds ih =>
      obtain ⟨⟨t₁, record⟩, hbeat, h⟩ := Run.bind_eq_ok.mp h
      obtain ⟨⟨t₂, records'⟩, hrest, h⟩ := Run.bind_eq_ok.mp h
      obtain ⟨rfl, rfl⟩ := Prod.mk.inj (Except.ok.inj h)
      obtain ⟨mid, hbeaten⟩ := beaten_of_beat hbeat
      cases before with
      | nil =>
          obtain ⟨rfl, -⟩ := List.cons.inj hrecords
          exact ⟨t, t₁, packets, mid, rfl, rfl, hbeaten, by simp⟩
      | cons r₀ before =>
          obtain ⟨rfl, hrecords'⟩ := List.cons.inj hrecords
          obtain ⟨t₃, t₄, packets', mid', hbefore, hround, hbeaten', hdeadline⟩ :=
            ih hrest hrecords'
          refine ⟨t₃, t₄, packets', mid', ?_, hround, hbeaten', ?_⟩
          · rw [List.length_cons, List.take_succ_cons, beats, hbeat, Run.ok_bind]
            dsimp only
            rw [hbefore]
            rfl
          · rw [hdeadline, hbeaten.next, Timespec.toNsecs_nextBeat, List.length_cons]
            push_cast
            ring

lemma deadline_of_beats (h : beats libc rate fuel t rounds = .ok (t', records))
    (hrecords : records = before ++ r :: after) :
    r.to_.toNsecs = t.to_.toNsecs + before.length * rate.stepNs := by
  obtain ⟨t₁, t₂, packets, mid, -, -, hbeaten, hdeadline⟩ := exists_beaten h hrecords
  rw [hbeaten.deadline, hdeadline]

lemma reaches_mono {to_ to_' : Timespec} (hle : to_.toNsecs ≤ to_'.toNsecs) {elmnt : Sched}
    (h : to_.reaches elmnt = true) : to_'.reaches elmnt = true := by
  rw [reaches_iff] at h ⊢
  have hlt := to_'.nsec_lt
  unfold Timespec.toNsecs at hle
  by_contra hnot
  have hsec : to_'.sec + 1 ≤ to_.sec := by omega
  have hmul : (to_'.sec + 1) * nsecs ≤ to_.sec * nsecs :=
    mul_le_mul_of_nonneg_right hsec (by positivity)
  rw [add_mul, one_mul] at hmul
  omega

/-- The tests of the beats only become weaker. -/
lemma weakening_of_beats (h : beats libc rate fuel t rounds = .ok (t', records)) :
    Weakening (records.map BeatRecord.toRound) := by
  rw [Weakening, List.pairwise_map, List.pairwise_iff_getElem]
  intro i j hi hj hij elmnt
  have hat (k : ℕ) (hk : k < records.length) :
      records = records.take k ++ records[k] :: records.drop (k + 1) := by
    rw [List.getElem_cons_drop, List.take_append_drop]
  refine reaches_mono ?_
  rw [deadline_of_beats h (hat i hi), deadline_of_beats h (hat j hj), List.length_take_of_le hi.le,
    List.length_take_of_le hj.le, add_le_add_iff_left]
  exact mul_le_mul_of_nonneg_right (by exact_mod_cast hij.le) (by positivity)

lemma Beaten.state_eq {packets : List Memory} {record : BeatRecord} {mid : App State}
    (h : Beaten libc rate fuel t packets t' record mid) (hlist : t.app.ListsMessages) :
    mid.list = t.app.list ++ record.scheduled ∧
      record.dispatched.foldlM (Sched.handle Call.exec libc) mid.state = .ok record.shown := by
  refine ⟨?_, ?_⟩
  · rw [h.scheduled]
    exact List.prefix_append_drop (prefix_of_readRing h.ring)
  · rw [h.shown]
    exact (readListTraced_eq_ok (readRing_listsMessages h.ring hlist) h.list).2.2

lemma Beaten.list_eq {packets : List Memory} {record : BeatRecord} {mid : App State}
    (h : Beaten libc rate fuel t packets t' record mid) (hlist : t.app.ListsMessages) :
    record.dispatched = (t.app.list ++ record.scheduled).takeWhile record.to_.reaches ∧
      t'.app.list = (t.app.list ++ record.scheduled).dropWhile record.to_.reaches ∧
      t'.app.ListsMessages := by
  have hmid := readRing_listsMessages h.ring hlist
  obtain ⟨htaken, hleft, -⟩ := readListTraced_eq_ok hmid h.list
  have harrived : t.app.list ++ record.scheduled = mid.list := (h.state_eq hlist).1.symm
  rw [harrived, h.deadline]
  refine ⟨htaken, hleft, fun elmnt helmnt => hmid elmnt ?_⟩
  rw [hleft] at helmnt
  exact (List.dropWhile_suffix _).subset helmnt

lemma listsMessages_of_beats (h : beats libc rate fuel t rounds = .ok (t', records))
    (hlist : t.app.ListsMessages) : t'.app.ListsMessages := by
  induction rounds generalizing t records with
  | nil =>
      obtain ⟨rfl, -⟩ := Prod.mk.inj (Except.ok.inj h)
      exact hlist
  | cons packets rounds ih =>
      obtain ⟨⟨t₁, record⟩, hbeat, h⟩ := Run.bind_eq_ok.mp h
      obtain ⟨⟨t₂, records'⟩, hrest, h⟩ := Run.bind_eq_ok.mp h
      obtain ⟨rfl, -⟩ := Prod.mk.inj (Except.ok.inj h)
      obtain ⟨mid, hbeaten⟩ := beaten_of_beat hbeat
      exact ih hrest (hbeaten.list_eq hlist).2.2

/-- The beats drain the list in rounds. -/
lemma drains_of_beats (h : beats libc rate fuel t rounds = .ok (t', records))
    (hlist : t.app.ListsMessages) : Drains t.app.list (records.map BeatRecord.toRound) := by
  induction rounds generalizing t records with
  | nil =>
      obtain ⟨-, rfl⟩ := Prod.mk.inj (Except.ok.inj h)
      exact .nil _
  | cons packets rounds ih =>
      obtain ⟨⟨t₁, record⟩, hbeat, h⟩ := Run.bind_eq_ok.mp h
      obtain ⟨⟨t₂, records'⟩, hrest, h⟩ := Run.bind_eq_ok.mp h
      obtain ⟨rfl, rfl⟩ := Prod.mk.inj (Except.ok.inj h)
      obtain ⟨mid, hbeaten⟩ := beaten_of_beat hbeat
      obtain ⟨htaken, hleft, hlist₁⟩ := hbeaten.list_eq hlist
      rw [List.map_cons]
      refine .cons htaken ?_
      show Drains ((t.app.list ++ record.scheduled).dropWhile record.to_.reaches) _
      rw [← hleft]
      exact ih hrest hlist₁

end Runs

end BeatThread

/-! ## The beat of a message -/

/-- The second of a message, since 1970. -/
def Sched.second (elmnt : Sched) : ℤ := (elmnt.timetag >>> 32).toNat - jan1970

lemma reaches_eq (to_ : Timespec) :
    to_.reaches = fun elmnt => decide (elmnt.second ≤ to_.sec) := by
  funext elmnt
  rw [Bool.eq_iff_iff, reaches_iff, decide_eq_true_iff, elmnt.sec_eq, Sched.second]

/-- **Deadlines and messages.**  In any run of the thread a beat is `step_ns` after the one before,
and the first is at the start of a second.  The messages that have been dispatched up to a beat are
the longest part, from the front, of all that have been scheduled in which no second is later than
that of its deadline.  And the bitmap of a beat is what its packets, and then the calls of the
handler with the messages it dispatches, make of the bitmap that the beats before it have left. -/
theorem beatThread_dispatch {libc : Libc} {rate : FrameRate} {fuel : ℕ} {now : Timespec}
    {state : State} {allocs : ℕ} {previous : Fin lengthSer → UInt8} {dst : ℕ → UInt8}
    {rounds : List (List Memory)} {t' : BeatThread} {records : List BeatRecord}
    (h : (BeatThread.created state allocs previous dst).run libc rate fuel now rounds =
      .ok (t', records)) :
    ∀ before r after, records = before ++ r :: after →
      r.to_.toNsecs = (now.sec + 1) * nsecs + before.length * rate.stepNs ∧
      (before ++ [r]).flatMap BeatRecord.dispatched =
        ((before ++ [r]).flatMap BeatRecord.scheduled).takeWhile
          (fun elmnt => elmnt.second ≤ r.to_.sec) ∧
      ∃ t packets mid,
        (BeatThread.created state allocs previous dst).run libc rate fuel now
          (rounds.take before.length) = .ok (t, before) ∧
        rounds[before.length]? = some packets ∧
        readRing Call.exec libc fuel t.app packets = .ok mid ∧
        mid.list = t.app.list ++ r.scheduled ∧
        r.dispatched.foldlM (Sched.handle Call.exec libc) mid.state = .ok r.shown := by
  intro before r after hrecords
  obtain ⟨⟨t₁, records'⟩, hbeats, h⟩ := Run.bind_eq_ok.mp h
  obtain ⟨-, rfl⟩ := Prod.mk.inj (Except.ok.inj h)
  have hlist : App.ListsMessages ⟨state, [], allocs⟩ := by simp [App.ListsMessages]
  refine ⟨?_, ?_, ?_⟩
  · rw [BeatThread.deadline_of_beats hbeats hrecords]
    simp [BeatThread.setup, Timespec.firstBeat, Timespec.toNsecs]
  · have htaken := (BeatThread.drains_of_beats hbeats hlist).taken_eq
      (BeatThread.weakening_of_beats hbeats)
      (congrArg (List.map BeatRecord.toRound) hrecords |>.trans (List.map_append ..))
    rw [← reaches_eq]
    simpa [takings, arrivals, List.flatMap_map, BeatRecord.toRound, BeatThread.setup,
      BeatThread.created] using htaken
  · obtain ⟨t, t₂, packets, mid, hbefore, hround, hbeaten, -⟩ :=
      BeatThread.exists_beaten hbeats hrecords
    obtain ⟨hmid, hdispatched⟩ :=
      hbeaten.state_eq (BeatThread.listsMessages_of_beats hbefore hlist)
    refine ⟨t.final, packets, mid, ?_, hround, hbeaten.ring, hmid, hdispatched⟩
    rw [BeatThread.run, hbefore]
    rfl

/-- A run in which a message for half a second after second 5 arrives before the beat at
second 4. -/
lemma exists_run_halfPastFive :
    ∃ t' r₁ r₂, (BeatThread.created State.zero 0 (fun _ => 0) fun _ => 0).run .simple
        ⟨1, by decide⟩ 5 ⟨3, 0, by decide⟩
        [[(Packet.placed halfPastFive (by decide)).mem], []] = .ok (t', [r₁, r₂]) ∧
      r₁.scheduled = [halfPastFiveElmnt] ∧ r₁.dispatched = [] ∧
      r₂.scheduled = [] ∧ r₂.dispatched = [halfPastFiveElmnt] := by
  let t := { BeatThread.created State.zero 0 (fun _ => 0) fun _ => 0 with
    to_ := (⟨3, 0, by decide⟩ : Timespec).firstBeat }.setup
  have happ : t.app = ⟨State.zero, [], 0⟩ := rfl
  have hto : t.to_ = ⟨4, 0, by decide⟩ := rfl
  obtain ⟨t₁, r₁, hbeat₁, hr₁, happ₁, hto₁⟩ := @BeatThread.exists_beat .simple ⟨1, by decide⟩ 5 t
    [(Packet.placed halfPastFive (by decide)).mem] ⟨State.zero, [halfPastFiveElmnt], 1⟩
    ⟨State.zero, [halfPastFiveElmnt], 1⟩ [] (by rw [happ]; rfl) (by rw [hto]; rfl)
  have hdue : ¬ t₁.to_.diff halfPastFiveElmnt.to_ < 0 := by
    rw [hto₁, Timespec.diff_eq, Timespec.toNsecs_nextBeat]
    decide
  have hlist : readListTraced Call.exec .simple 5 t₁.to_ ⟨State.zero, [halfPastFiveElmnt], 1⟩ =
      .ok (⟨State.zero, [], 1⟩, [halfPastFiveElmnt]) := by
    rw [readListTraced]
    dsimp only
    rw [if_neg hdue]
    rfl
  obtain ⟨t₂, r₂, hbeat₂, hr₂, -, -⟩ := @BeatThread.exists_beat .simple ⟨1, by decide⟩ 5 t₁ []
    ⟨State.zero, [halfPastFiveElmnt], 1⟩ ⟨State.zero, [], 1⟩ [halfPastFiveElmnt]
    (by rw [happ₁]; rfl) hlist
  refine ⟨t₂.final, r₁, r₂, ?_, by rw [hr₁, happ]; rfl, by rw [hr₁], by rw [hr₂, happ₁]; rfl,
    by rw [hr₂]⟩
  rw [BeatThread.run, BeatThread.beats, hbeat₁, Run.ok_bind]
  dsimp only
  rw [BeatThread.beats, hbeat₂]
  rfl

/-- It waits for the beat at second 5. -/
theorem beatThread_dispatch_halfPastFive :
    ∃ t' r₁ r₂, (BeatThread.created State.zero 0 (fun _ => 0) fun _ => 0).run .simple
        ⟨1, by decide⟩ 5 ⟨3, 0, by decide⟩
        [[(Packet.placed halfPastFive (by decide)).mem], []] = .ok (t', [r₁, r₂]) ∧
      r₁.dispatched = [] ∧ r₂.dispatched = [halfPastFiveElmnt] ∧
      r₂.to_.toNsecs = 5 * nsecs ∧
      [r₁, r₂].flatMap BeatRecord.dispatched =
        ([r₁, r₂].flatMap BeatRecord.scheduled).takeWhile
          fun elmnt => elmnt.second ≤ r₂.to_.sec := by
  obtain ⟨t', r₁, r₂, hrun, -, hr₁, -, hr₂⟩ := exists_run_halfPastFive
  obtain ⟨hdeadline, hdispatched, -⟩ := beatThread_dispatch hrun [r₁] r₂ [] rfl
  refine ⟨t', r₁, r₂, hrun, hr₁, hr₂, hdeadline.trans ?_, hdispatched⟩
  show (3 + 1 : ℤ) * nsecs + (1 : ℕ) * (nsecs : ℕ) = 5 * nsecs
  ring

end MonoBus
