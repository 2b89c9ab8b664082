import MonoBus.Properties.BundleTraversal
import MonoBus.Properties.Schedule

/-!
# Scheduled messages are conserved

A run of the daemon handles packets and drains its list.  Two histories go with it: the messages
that were handed to `_sched_append`, and the calls of `_handle_osc_message`, at once or from the
list.  Since new elements are appended and the loop of `_beat` takes from the front, what was
handed over is always what was dispatched followed by the list, and the bitmap is what the calls
make of the first one, in their order (`scheduled_conserved`): nothing is lost or dispatched twice,
and messages take effect in the order they arrived.
-/

namespace MonoBus

/-! ## Calls of the handler -/

/-- A call of `_handle_osc_message`, with a message in a packet or with an element of the list. -/
inductive HandlerCall
  | packet (mem : Memory) (v : Visit)
  | list (elmnt : Sched)

def HandlerCall.content : HandlerCall → UInt64 × List UInt8
  | .packet _ v => v.content
  | .list elmnt => elmnt.content

def HandlerCall.run {σ : Type} (draw : σ → Call → Run σ) (libc : Libc) (state : σ) :
    HandlerCall → Run σ
  | .packet mem v =>
      handleOscMessage draw libc.fnmatch (OscReader.initializeAt mem v.addr v.bytes.length)
        v.bytes.length state
  | .list elmnt => elmnt.handle draw libc state

/-- The calls for the messages of a packet that are handled at once. -/
def callsAtOnce (mem : Memory) (vs : List Visit) : List HandlerCall :=
  (vs.filter fun v => v.timetag = oscImmediate).map (.packet mem)

/-- The message of a call from the list. -/
def HandlerCall.dispatched? : HandlerCall → Option (UInt64 × List UInt8)
  | .packet .. => none
  | .list elmnt => some elmnt.content

/-- The messages that were dispatched from the list. -/
def dispatched (calls : List HandlerCall) : List (UInt64 × List UInt8) :=
  calls.filterMap HandlerCall.dispatched?

@[simp] lemma dispatched_append (calls calls' : List HandlerCall) :
    dispatched (calls ++ calls') = dispatched calls ++ dispatched calls' := List.filterMap_append

@[simp] lemma dispatched_atOnce (mem : Memory) (vs : List Visit) :
    dispatched (callsAtOnce mem vs) = [] := by
  simp [dispatched, callsAtOnce, HandlerCall.dispatched?]

@[simp] lemma dispatched_list (elmnts : List Sched) :
    dispatched (elmnts.map .list) = elmnts.map Sched.content := by
  rw [dispatched, List.filterMap_map]
  exact congrFun List.filterMap_eq_map elmnts

lemma exists_call_of_dispatched {calls : List HandlerCall} {pre post : List (UInt64 × List UInt8)}
    {message : UInt64 × List UInt8} (h : dispatched calls = pre ++ message :: post) :
    ∃ before elmnt after, calls = before ++ .list elmnt :: after ∧ elmnt.content = message ∧
      dispatched after = post := by
  obtain ⟨calls₁, calls₂, rfl, -, hcalls₂⟩ := List.filterMap_eq_append_iff.mp h
  obtain ⟨calls₃, call, after, rfl, -, hcall, hafter⟩ := List.filterMap_eq_cons_iff.mp hcalls₂
  cases call with
  | packet mem v => cases hcall
  | list elmnt =>
      exact ⟨calls₁ ++ calls₃, elmnt, after, by rw [List.append_assoc], Option.some.inj hcall,
        hafter⟩

/-- Two messages that were dispatched were in two calls, in the same order. -/
lemma exists_calls_of_dispatched {calls : List HandlerCall}
    {pre between post : List (UInt64 × List UInt8)} {message message' : UInt64 × List UInt8}
    (h : dispatched calls = pre ++ message :: (between ++ message' :: post)) :
    ∃ before elmnt mid elmnt' after,
      calls = before ++ .list elmnt :: (mid ++ .list elmnt' :: after) ∧
        elmnt.content = message ∧ elmnt'.content = message' := by
  obtain ⟨before, elmnt, rest, rfl, helmnt, hrest⟩ := exists_call_of_dispatched h
  obtain ⟨mid, elmnt', after, rfl, helmnt', -⟩ := exists_call_of_dispatched hrest
  exact ⟨before, elmnt, mid, elmnt', after, rfl, helmnt, helmnt'⟩

/-! ## Runs -/

section Runs

variable {σ : Type} (draw : σ → Call → Run σ) (libc : Libc)

/-- `readList`, which also returns the elements it dispatches, in order. -/
def readListTraced : ℕ → Timespec → App σ → Run (App σ × List Sched)
  | 0, _, _ => .error .outOfFuel
  | fuel + 1, to_, app =>
      match app.list with
      | [] => .ok (app, [])
      | elmnt :: _ =>
          if to_.diff elmnt.to_ < 0 then .ok (app, [])
          else do
            let app ← handleOscPacket draw libc fuel app oscImmediate elmnt.buf elmnt.buf.base
              elmnt.len
            let (app, dispatched) ← readListTraced fuel to_
              { app with list := elmnt.next app.list }
            return (app, elmnt :: dispatched)

/-- Runs of the daemon from a bitmap to an application, with the messages handed to
`_sched_append` and the calls of `_handle_osc_message` so far.  Every packet is well-formed, and
memory lasts. -/
inductive Serves (state : σ) : App σ → List (UInt64 × List UInt8) → List HandlerCall → Prop
  | start (allocs : ℕ) : Serves state ⟨state, [], allocs⟩ [] []
  | packet {app app' : App σ} {handed : List (UInt64 × List UInt8)} {calls : List HandlerCall}
      {fuel : ℕ} {timetag : UInt64} {tree : OscPacket} (pkt : Packet tree.encode) :
      Serves state app handed calls → tree.WellSized →
      libc.malloc.Grants (sizeofSched + tree.encode.length) →
      pkt.handle draw libc fuel app timetag = .ok app' →
      Serves state app' (handed ++ scheduled (tree.leaves timetag))
        (calls ++ callsAtOnce pkt.mem (tree.visits timetag pkt.mem.base))
  | beat {app app' : App σ} {handed : List (UInt64 × List UInt8)} {calls : List HandlerCall}
      {fuel : ℕ} {to_ : Timespec} {elmnts : List Sched} :
      Serves state app handed calls →
      readListTraced draw libc fuel to_ app = .ok (app', elmnts) →
      Serves state app' handed (calls ++ elmnts.map .list)

variable {draw libc}

/-- Without its trace the loop is that of `_beat`. -/
theorem readListTraced_fst (fuel : ℕ) (to_ : Timespec) (app : App σ) :
    (do
      let (app, _) ← readListTraced draw libc fuel to_ app
      Except.ok app) = readList draw libc fuel to_ app := by
  induction fuel generalizing app with
  | zero => rfl
  | succ fuel ih =>
      rw [readListTraced, readList]
      cases app.list with
      | nil => rfl
      | cons elmnt list =>
          dsimp only
          split_ifs
          · rfl
          · rw [bind_assoc]
            refine bind_congr fun app₁ => ?_
            rw [← ih, bind_assoc]
            rfl

/-- The loop takes what it dispatches off the front of the list. -/
lemma list_of_readListTraced {fuel : ℕ} {to_ : Timespec} {app app' : App σ}
    {elmnts : List Sched} (hlist : app.ListsMessages)
    (h : readListTraced draw libc fuel to_ app = .ok (app', elmnts)) :
    app.list = elmnts ++ app'.list := by
  induction fuel generalizing app elmnts with
  | zero => cases h
  | succ fuel ih =>
      rw [readListTraced] at h
      split at h
      next hnil =>
        cases h
        rfl
      next elmnt rest hcons =>
        split_ifs at h
        · cases h
          rfl
        · obtain ⟨mid, hmid, h⟩ := Run.bind_eq_ok.mp h
          obtain ⟨⟨last, tail⟩, htail, h⟩ := Run.bind_eq_ok.mp h
          obtain ⟨rfl, rfl⟩ := Prod.mk.inj (Except.ok.inj h)
          obtain ⟨state, -, rfl⟩ := handleOscPacket_elmnt
            (hlist elmnt (hcons ▸ List.mem_cons_self)) hmid
          have hnext : elmnt.next app.list = rest := by rw [hcons, Sched.next_cons]
          have hrest : App.ListsMessages ⟨state, elmnt.next app.list, app.allocs⟩ := by
            intro e he
            rw [hnext] at he
            exact hlist e (hcons ▸ List.mem_cons_of_mem _ he)
          have hsplit := ih hrest htail
          rw [hcons, List.cons_append, ← hsplit, hnext]

lemma readListTraced_eq_ok {fuel : ℕ} {to_ : Timespec} {app app' : App σ} {elmnts : List Sched}
    (hlist : app.ListsMessages) (h : readListTraced draw libc fuel to_ app = .ok (app', elmnts)) :
    elmnts = app.list.takeWhile to_.reaches ∧ app'.list = app.list.dropWhile to_.reaches ∧
      elmnts.foldlM (Sched.handle draw libc) app.state = .ok app'.state := by
  have hread : readList draw libc fuel to_ app = .ok app' := by
    rw [← readListTraced_fst, h]
    rfl
  obtain ⟨hhandled, hleft⟩ := readList_eq_ok hlist hread
  have hall : elmnts ++ app'.list = app.list.takeWhile to_.reaches ++ app'.list := by
    rw [← list_of_readListTraced hlist h, hleft, List.takeWhile_append_dropWhile]
  have htaken := List.append_cancel_right hall
  exact ⟨htaken, hleft, by rwa [htaken]⟩

/-- The messages of a packet change the bitmap by those that are handled at once. -/
lemma state_of_foldlM_visits {mem : Memory} :
    ∀ {vs : List Visit} {app app' : App σ}, vs.foldlM (Visit.run draw libc mem) app = .ok app' →
      (callsAtOnce mem vs).foldlM (HandlerCall.run draw libc) app.state = .ok app'.state := by
  intro vs
  induction vs with
  | nil =>
      intro app app' h
      rw [← Except.ok.inj h]
      rfl
  | cons v vs ih =>
      intro app app' h
      rw [List.foldlM_cons] at h
      obtain ⟨mid, hmid, h⟩ := Run.bind_eq_ok.mp h
      have hrest := ih h
      rw [Visit.run] at hmid
      split_ifs at hmid with himmediate
      · obtain ⟨state, hstate, hmid⟩ := Run.bind_eq_ok.mp hmid
        rw [← Except.ok.inj hmid] at hrest
        rw [callsAtOnce, List.filter_cons_of_pos (by simpa using himmediate), List.map_cons,
          List.foldlM_cons, HandlerCall.run, hstate]
        exact hrest
      · have hstate : mid.state = app.state := by
          obtain rfl | ⟨_, -, rfl⟩ := schedule_cases hmid <;> rfl
        rw [callsAtOnce, List.filter_cons_of_neg (by simpa using himmediate), ← hstate]
        exact hrest

namespace Serves

variable {state : σ} {app : App σ} {handed : List (UInt64 × List UInt8)}
  {calls : List HandlerCall}

lemma listsMessages (h : Serves draw libc state app handed calls) : app.ListsMessages := by
  induction h with
  | start allocs => simp [App.ListsMessages]
  | packet pkt _ _ _ hhandle ih => exact handleOscPacket_listsMessages hhandle ih
  | beat _ hread ih =>
      have hsplit := list_of_readListTraced ih hread
      intro elmnt helmnt
      exact ih elmnt (hsplit ▸ List.mem_append_right _ helmnt)

lemma handed_eq (h : Serves draw libc state app handed calls) :
    handed = dispatched calls ++ app.list.map Sched.content := by
  induction h with
  | start allocs => rfl
  | packet pkt _ hsize hgrants hhandle ih =>
      rw [list_of_handle hsize pkt hgrants hhandle, ← List.append_assoc, dispatched_append,
        dispatched_atOnce, List.append_nil, ← ih]
  | beat hserves hread ih =>
      have hsplit := list_of_readListTraced hserves.listsMessages hread
      rw [ih, hsplit, List.map_append, dispatched_append, dispatched_list, List.append_assoc]

lemma state_eq (h : Serves draw libc state app handed calls) :
    calls.foldlM (HandlerCall.run draw libc) state = .ok app.state := by
  induction h with
  | start allocs => rfl
  | packet pkt _ hsize _ hhandle ih =>
      rw [List.foldlM_append, ih]
      exact state_of_foldlM_visits (visits_of_handle hsize pkt hhandle)
  | beat hserves hread ih =>
      rw [List.foldlM_append, ih, Run.ok_bind, List.foldlM_map]
      exact (readListTraced_eq_ok hserves.listsMessages hread).2.2

end Serves

/-- **Conservation.**  After every packet and every beat of a run the messages that were handed
to `_sched_append` are those that were dispatched, followed by those in the list, all in the
order they arrived and with their bytes.  The bitmap is what the calls of the handler make of the
first one, one after the other, and the messages from the list are among them in the order they
arrived: those of one timetag are dispatched in that order, and of two messages the call for the
later one starts from a bitmap in which the earlier one has already been drawn. -/
theorem scheduled_conserved {state : σ} {app : App σ} {handed : List (UInt64 × List UInt8)}
    {calls : List HandlerCall} (h : Serves draw libc state app handed calls) :
    calls.foldlM (HandlerCall.run draw libc) state = .ok app.state ∧
      handed = dispatched calls ++ app.list.map Sched.content ∧
      (∀ timetag, ((dispatched calls).filter fun message => message.1 = timetag) <+:
        handed.filter fun message => message.1 = timetag) ∧
      ∀ first earlier between later last,
        handed = first ++ earlier :: (between ++ later :: last) →
        first.length + between.length + 1 < (dispatched calls).length →
        ∃ before call mid call' after,
          calls = before ++ .list call :: (mid ++ .list call' :: after) ∧
          call.content = earlier ∧ call'.content = later ∧
          ∃ state', (before ++ .list call :: mid).foldlM (HandlerCall.run draw libc) state =
              .ok state' ∧
            (HandlerCall.list call' :: after).foldlM (HandlerCall.run draw libc) state' =
              .ok app.state := by
  have hsplit := h.handed_eq
  refine ⟨h.state_eq, hsplit, fun timetag => ?_, ?_⟩
  · rw [hsplit, List.filter_append]
    exact List.prefix_append _ _
  · intro first earlier between later last hhanded hlength
    -- the two messages stand in the part that was dispatched
    have hpre : first ++ earlier :: (between ++ [later]) <+: dispatched calls := by
      have hhanded' : first ++ earlier :: (between ++ [later]) <+: handed :=
        ⟨last, by simp [hhanded]⟩
      refine List.prefix_of_prefix_length_le hhanded' (hsplit ▸ ?_) ?_
      · exact List.prefix_append _ _
      · simp only [List.length_append, List.length_cons, List.length_nil]
        omega
    obtain ⟨last', hdispatched⟩ := hpre
    rw [List.append_assoc, List.cons_append, List.append_assoc, List.singleton_append]
      at hdispatched
    obtain ⟨before, call, mid, call', after, rfl, hcall, hcall'⟩ :=
      exists_calls_of_dispatched hdispatched.symm
    have hstate := h.state_eq
    have hassoc : before ++ HandlerCall.list call :: (mid ++ .list call' :: after) =
        (before ++ .list call :: mid) ++ .list call' :: after := by simp
    rw [hassoc, List.foldlM_append] at hstate
    obtain ⟨state', hbefore, hafter⟩ := Run.bind_eq_ok.mp hstate
    exact ⟨before, call, mid, call', after, rfl, hcall, hcall', state', hbefore, hafter⟩

end Runs

/-! ## Two messages and a beat -/

/-- Another message that no entry of the tables matches. -/
def strayMessage' : List UInt8 := ['/', 'b'].map Char.toUInt8 ++ [0, 0, ','.toUInt8, 0, 0, 0]

/-- A bundle with both messages. -/
def strayPacket : OscPacket := .bundle 7 [.message strayMessage.tail, .message strayMessage'.tail]

lemma length_strayMessage_le : strayMessage.length ≤ 2 ^ 62 := by decide

def strayElmnts : List Sched :=
  [.plenty 7 strayMessage length_strayMessage_le, .plenty 7 strayMessage' length_strayMessage_le]

/-- The messages are scheduled, and dispatched in their order by the next beat. -/
theorem scheduled_conserved_stray :
    ∃ app calls, Serves Call.exec .simple State.zero app
        [(7, strayMessage), (7, strayMessage')] calls ∧
      dispatched calls = [(7, strayMessage), (7, strayMessage')] ∧
      ∃ before call mid call' after,
        calls = before ++ .list call :: (mid ++ .list call' :: after) ∧
        call.content = (7, strayMessage) ∧ call'.content = (7, strayMessage') := by
  have hsize : strayPacket.WellSized := by
    simp only [strayPacket, OscPacket.WellSized, OscPacket.WellSizedItems]
    exact ⟨by decide, trivial, by decide, trivial, trivial⟩
  have hgrants : Malloc.plenty.Grants (sizeofSched + strayPacket.encode.length) :=
    Malloc.plenty_grants (by decide)
  obtain ⟨fuel, hrun⟩ := OscPacket.handleOscPacket_eq_visits Call.exec .simple
    (Packet.placed strayPacket.encode (by decide)).mem strayPacket hsize
  have hhandle : (Packet.placed strayPacket.encode (by decide)).handle Call.exec .simple fuel
      ⟨State.zero, [], 0⟩ 1 = .ok ⟨State.zero, strayElmnts, 2⟩ :=
    hrun fuel le_rfl ⟨State.zero, [], 0⟩ 1 _
      (Packet.placed strayPacket.encode (by decide)).rest_reader.at_
  have hread : readListTraced Call.exec .simple 4 ⟨0, 0, by decide⟩
      ⟨State.zero, strayElmnts, 2⟩ = .ok (⟨State.zero, [], 2⟩, strayElmnts) := rfl
  have hserves := Serves.beat (.packet _ (.start 0) hsize hgrants hhandle) hread
  obtain ⟨-, -, -, horder⟩ := scheduled_conserved hserves
  obtain ⟨before, call, mid, call', after, hcalls, hcall, hcall', -⟩ :=
    horder [] (7, strayMessage) [] (7, strayMessage') [] rfl (by decide)
  exact ⟨_, _, hserves, rfl, before, call, mid, call', after, hcalls, hcall, hcall'⟩

end MonoBus
