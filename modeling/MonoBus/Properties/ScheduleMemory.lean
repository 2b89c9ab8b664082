import MonoBus.Construction.SchedMemory
import MonoBus.Properties.DispatchBeat

/-!
# The memory of scheduled messages

A run of the thread schedules and dispatches messages, and `_sched_deinit` follows it.  Here the
same calls are made on elements in memory.  As long as `malloc` is sound they touch allocated
elements only, dispatch the same messages in the same beats, and in the end every element that
`malloc` has handed out has been freed once.
-/

namespace MonoBus

/-- What `malloc` promises: an element that it hands out is not null, and no element that is in use
has its address. -/
def MallocSound : List Sched → List BeatRecord → Prop
  | _, [] => True
  | pending, r :: records =>
      (∀ elmnt ∈ r.scheduled, elmnt.address ≠ 0) ∧
        ((pending ++ r.scheduled).map Sched.address).Nodup ∧
          MallocSound ((pending ++ r.scheduled).dropWhile r.to_.reaches) records

namespace SchedStore

def beat (fuel : ℕ) (s : SchedStore) (r : BeatRecord) : Run (SchedStore × List Sched) := do
  let s ← r.scheduled.foldlM (fun s elmnt => s.schedule fuel elmnt) s
  s.readList r.to_ fuel

/-- The calls of some beats, and what each of them dispatches. -/
def beats (fuel : ℕ) : SchedStore → List BeatRecord → Run (SchedStore × List (List Sched))
  | s, [] => .ok (s, [])
  | s, r :: records => do
      let (s, elmnts) ← s.beat fuel r
      let (s, dispatched) ← beats fuel s records
      return (s, elmnts :: dispatched)

section Calls

variable {s : SchedStore} {list scheduled : List Sched} {fuel : ℕ}

lemma Holds.foldlM (h : s.Holds list) (hne : ∀ elmnt ∈ scheduled, elmnt.address ≠ 0)
    (hnodup : ((list ++ scheduled).map Sched.address).Nodup)
    (hfuel : (list ++ scheduled).length < fuel) :
    ∃ s', scheduled.foldlM (fun s elmnt => s.schedule fuel elmnt) s = .ok s' ∧
      s'.Holds (list ++ scheduled) := by
  induction scheduled generalizing s list with
  | nil => exact ⟨s, rfl, by rwa [List.append_nil]⟩
  | cons elmnt scheduled ih =>
      have hnew : elmnt.address ∉ list.map Sched.address := by
        rw [List.map_append, List.map_cons, List.nodup_append] at hnodup
        exact fun hmem => hnodup.2.2 _ hmem _ List.mem_cons_self rfl
      have hlength : list.length < fuel := by
        rw [List.length_append] at hfuel
        omega
      obtain ⟨s₁, hschedule, hheld⟩ := h.schedule (hne elmnt List.mem_cons_self) hnew hlength
      rw [List.append_cons] at hnodup hfuel ⊢
      obtain ⟨s', hrest, hheld'⟩ := ih hheld
        (fun x hx => hne x (List.mem_cons_of_mem elmnt hx)) hnodup hfuel
      exact ⟨s', by rw [List.foldlM_cons, hschedule, Run.ok_bind, hrest], hheld'⟩

lemma Holds.beat (h : s.Holds list) {r : BeatRecord}
    (hne : ∀ elmnt ∈ r.scheduled, elmnt.address ≠ 0)
    (hnodup : ((list ++ r.scheduled).map Sched.address).Nodup)
    (hfuel : (list ++ r.scheduled).length < fuel) :
    ∃ s', s.beat fuel r = .ok (s', (list ++ r.scheduled).takeWhile r.to_.reaches) ∧
      s'.Holds ((list ++ r.scheduled).dropWhile r.to_.reaches) := by
  obtain ⟨s₁, hschedule, hheld⟩ := h.foldlM hne hnodup hfuel
  obtain ⟨s', hread, hheld'⟩ := hheld.readList hfuel
  exact ⟨s', by rw [SchedStore.beat, hschedule, Run.ok_bind, hread], hheld'⟩

end Calls

section Runs

open BeatThread

variable {libc : Libc} {rate : FrameRate} {fuel fuel' : ℕ} {t t' : BeatThread}
  {rounds : List (List Memory)} {records : List BeatRecord} {s : SchedStore}

lemma Holds.beats (h : s.Holds t.app.list)
    (hbeats : BeatThread.beats libc rate fuel t rounds = .ok (t', records))
    (hlist : t.app.ListsMessages) (hmalloc : MallocSound t.app.list records)
    (hfuel : t.app.list.length + (records.flatMap BeatRecord.scheduled).length < fuel') :
    ∃ s', s.beats fuel' records = .ok (s', records.map BeatRecord.dispatched) ∧
      s'.Holds t'.app.list ∧ t'.app.list.length < fuel' := by
  induction rounds generalizing t records s with
  | nil =>
      obtain ⟨rfl, rfl⟩ := Prod.mk.inj (Except.ok.inj hbeats)
      exact ⟨s, rfl, h, by simpa using hfuel⟩
  | cons packets rounds ih =>
      obtain ⟨⟨t₁, r⟩, hbeat, hbeats⟩ := Run.bind_eq_ok.mp hbeats
      obtain ⟨⟨t₂, records'⟩, hrest, hbeats⟩ := Run.bind_eq_ok.mp hbeats
      obtain ⟨rfl, rfl⟩ := Prod.mk.inj (Except.ok.inj hbeats)
      obtain ⟨mid, hbeaten⟩ := beaten_of_beat hbeat
      obtain ⟨htaken, hleft, hlist₁⟩ := hbeaten.list_eq hlist
      obtain ⟨hne, hnodup, hmalloc₁⟩ := hmalloc
      rw [List.flatMap_cons, List.length_append] at hfuel
      have hlength : (t.app.list ++ r.scheduled).length < fuel' := by
        rw [List.length_append]
        omega
      obtain ⟨s₁, hrun, hheld⟩ := h.beat hne hnodup hlength
      rw [← hleft] at hheld hmalloc₁
      have hle : t₁.app.list.length ≤ (t.app.list ++ r.scheduled).length := by
        rw [hleft]
        exact (List.dropWhile_suffix _).length_le
      obtain ⟨s', hruns, hheld', hlength'⟩ := ih hheld hrest hlist₁ hmalloc₁ (by
        rw [List.length_append] at hle
        omega)
      refine ⟨s', ?_, hheld', hlength'⟩
      rw [SchedStore.beats, hrun, Run.ok_bind]
      dsimp only
      rw [hruns, List.map_cons, htaken]
      rfl

end Runs

lemma Holds.cells_eq_none {s : SchedStore} (h : s.Holds []) (a : ℕ) : s.cells a = none := by
  by_contra hcell
  obtain ⟨cell, hcell⟩ := Option.ne_none_iff_exists'.mp hcell
  refine absurd (h.only a ?_) List.not_mem_nil
  rw [SchedStore.elmntAt, hcell]
  exact Option.some_ne_none cell.elmnt

end SchedStore

/-- **No access after a free, no second free, no leak.**  In any run of the thread with a sound
`malloc` the calls on elements in memory touch allocated elements only.  They dispatch what the run
dispatches, and after `_sched_deinit` every element has been freed exactly once, while it was
allocated. -/
theorem beatThread_memory {libc : Libc} {rate : FrameRate} {fuel : ℕ} {now : Timespec}
    {state : State} {allocs : ℕ} {previous : Fin lengthSer → UInt8} {dst : ℕ → UInt8}
    {rounds : List (List Memory)} {t' : BeatThread} {records : List BeatRecord}
    (h : (BeatThread.created state allocs previous dst).run libc rate fuel now rounds =
      .ok (t', records)) (hmalloc : MallocSound [] records) :
    ∃ fuel₀, ∀ fuel' ≥ fuel₀, ∃ s s',
      SchedStore.empty.beats fuel' records = .ok (s, records.map BeatRecord.dispatched) ∧
      s.Holds t'.app.list ∧
      s.schedDeinit fuel' = .ok s' ∧
      (∀ a, s'.cells a = none) ∧ ReleasedOnce s'.trace ∧ NoStray (fun _ => True) [] s'.trace := by
  obtain ⟨⟨t₁, records'⟩, hbeats, h⟩ := Run.bind_eq_ok.mp h
  obtain ⟨rfl, rfl⟩ := Prod.mk.inj (Except.ok.inj h)
  refine ⟨(records'.flatMap BeatRecord.scheduled).length + 1, fun fuel' hfuel => ?_⟩
  have hlist : App.ListsMessages ⟨state, [], allocs⟩ := by simp [App.ListsMessages]
  obtain ⟨s, hrun, hheld, hlength⟩ := SchedStore.holds_empty.beats hbeats hlist hmalloc (by
    show 0 + _ < fuel'
    omega)
  obtain ⟨s', hdeinit, hnothing⟩ := hheld.schedDeinit hlength
  exact ⟨s, s', hrun, hheld, hdeinit, hnothing.cells_eq_none,
    releasedOnce_of_settle hnothing.ledger, noStray_of_settle (s := 0) hnothing.ledger⟩

/-! ## Two messages -/

instance decidableMallocSound :
    ∀ (pending : List Sched) (records : List BeatRecord), Decidable (MallocSound pending records)
  | _, [] => isTrue trivial
  | pending, r :: records =>
      have := decidableMallocSound ((pending ++ r.scheduled).dropWhile r.to_.reaches) records
      inferInstanceAs (Decidable (_ ∧ _ ∧ _))

/-- An allocator that has a page for each of its first calls. -/
def Malloc.pages : Malloc where
  run k n := if k < 1024 ∧ n ≤ 4096 then some (4096 * (k + 1)) else none
  fits := by
    intro k n a h
    split_ifs at h with hlt
    simp only [Option.some.injEq] at h
    omega

/-- A bundle with the message of `halfPastFive`, for second 9. -/
def atNine : List UInt8 :=
  OscReader.bundleLiteral ++ be64 0x83aa7e8900000000 ++ be32 8 ++ strayMessage

lemma length_halfPastFive_le : halfPastFive.length ≤ 2 ^ 62 := by decide

lemma length_atNine_le : atNine.length ≤ 2 ^ 62 := by decide

/-- Both bundles arrive before the beat at second 4, and the beat at second 5 is the last one. -/
def runToFive : Run (BeatThread × List BeatRecord) :=
  (BeatThread.created State.zero 0 (fun _ => 0) fun _ => 0).run ⟨.wildcard, .pages⟩
    ⟨1, Nat.one_pos⟩ 5 ⟨3, 0, SchedStore.nsecs_pos⟩
    [[(Packet.placed halfPastFive length_halfPastFive_le).mem,
      (Packet.placed atNine length_atNine_le).mem], []]

/-- The first message is dispatched and freed, and the second one is left to `_sched_deinit`. -/
theorem beatThread_memory_runToFive :
    ∃ (t' : BeatThread) (records : List BeatRecord) (fuel : ℕ) (s s' : SchedStore),
      runToFive = .ok (t', records) ∧
      records.map (fun r => r.dispatched.map Sched.address) = [[], [4096]] ∧
      t'.app.list.map Sched.address = [8192] ∧
      SchedStore.empty.beats fuel records = .ok (s, records.map BeatRecord.dispatched) ∧
      s.schedDeinit fuel = .ok s' ∧ ReleasedOnce s'.trace := by
  have hvalues : runToFive.toOption.map (fun x => (decide (MallocSound [] x.2),
      x.2.map (fun r => r.dispatched.map Sched.address), x.1.app.list.map Sched.address)) =
        some (true, [[], [4096]], [8192]) := by
    decide +kernel
  cases hrun : runToFive with
  | error e =>
      rw [hrun] at hvalues
      cases hvalues
  | ok x =>
      obtain ⟨t', records⟩ := x
      rw [hrun] at hvalues
      obtain ⟨hmalloc, hvalues⟩ := Prod.mk.inj (Option.some.inj hvalues)
      obtain ⟨hdispatched, hlist⟩ := Prod.mk.inj hvalues
      obtain ⟨fuel₀, hmemory⟩ := beatThread_memory hrun (of_decide_eq_true hmalloc)
      obtain ⟨s, s', hbeats, -, hdeinit, -, honce, -⟩ := hmemory fuel₀ le_rfl
      exact ⟨t', records, fuel₀, s, s', rfl, hdispatched, hlist, hbeats, hdeinit, honce⟩

end MonoBus
