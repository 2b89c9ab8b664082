import MonoBus.Construction.Resources

/-!
# The ledger of a call of `_loop`

The fields of `app_t` own what they point to: `streams` and `rings`.  Each function of the source
has a lemma that says how the ledger changes by what the fields own, whatever else is held
(`Settled.streamReinit`, `Settled.oscDeinit` and so on).  What is not covered by them is a
cleanup whose fields do not own what they hold.
-/

namespace MonoBus

/-- What a pointer to a ring owns. -/
def ringAt : Option ℕ → Multiset Handle
  | some varchunk => {.ring varchunk}
  | none => 0

/-- What a file descriptor owns. -/
def descriptorAt (fd : ℤ) : Multiset Handle := if fd ≥ 0 then {.descriptor fd.toNat} else 0

lemma descriptorAt_of_neg {fd : ℤ} (h : fd < 0) : descriptorAt fd = 0 := if_neg (not_le.mpr h)

@[simp] lemma descriptorAt_neg_one : descriptorAt (-1) = 0 := descriptorAt_of_neg (by norm_num)

@[simp] lemma descriptorAt_natCast (n : ℕ) : descriptorAt n = {.descriptor n} := by
  rw [descriptorAt, if_pos (Int.natCast_nonneg n), Int.toNat_natCast]

namespace LoopApp

variable {app app' app'' : LoopApp} {r s : Multiset Handle} {x : Handle} {url : StreamUrl}
  {simulate : Bool}

/-- What the stream owns. -/
def streams (app : LoopApp) : Multiset Handle := descriptorAt app.sock + descriptorAt app.fd

/-- What the pointers to the rings own. -/
def rings (app : LoopApp) : Multiset Handle := ringAt app.rx + ringAt app.tx

/-- The record is in order, and `s` is held. -/
def Settled (app : LoopApp) (s : Multiset Handle) : Prop := settle 0 app.history = some s

/-- The functions that leave the rings alone. -/
structure SameRings (app app' : LoopApp) : Prop where
  rx : app'.rx = app.rx
  tx : app'.tx = app.tx
  past : app'.past = app.past

lemma SameRings.refl (app : LoopApp) : SameRings app app := ⟨rfl, rfl, rfl⟩

lemma SameRings.trans (h : SameRings app app') (h' : SameRings app' app'') :
    SameRings app app'' :=
  ⟨h'.rx.trans h.rx, h'.tx.trans h.tx, h'.past.trans h.past⟩

lemma SameRings.rings_eq (h : SameRings app app') : app'.rings = app.rings := by
  rw [rings, rings, h.rx, h.tx]

/-! ## One event -/

lemma Settled.acquire (h : Settled app s) (hx : x ∉ s) : Settled (app.acquire x) ({x} + s) := by
  show settle 0 (app.past ++ (app.trace ++ [.acquire x])) = _
  rw [← List.append_assoc, ← history, settle_append, h]
  exact settle_acquire hx

lemma Settled.release (h : Settled app ({x} + s)) : Settled (app.release x) s := by
  show settle 0 (app.past ++ (app.trace ++ [.release x])) = _
  rw [← List.append_assoc, ← history, settle_append, h, Option.bind_some,
    settle_release (Multiset.mem_add.mpr (.inl (Multiset.mem_singleton_self x)))]
  rw [Multiset.singleton_add, Multiset.erase_cons_head]
  rfl

/-- A number that is handed out is not in the ledger. -/
lemma Settled.notMem_grant {mk : ℕ → Handle} (h : Settled app s) (grant : Grant mk) :
    mk (grant.pick app.history) ∉ s := by
  rw [← held_of_settle h]
  exact grant.fresh app.history

/-! ## The stream -/

lemma sameRings_closeSocket (app : LoopApp) (fd : ℤ) : SameRings app (app.closeSocket fd) := by
  unfold closeSocket
  split_ifs
  · exact ⟨rfl, rfl, rfl⟩
  · exact .refl app

lemma Settled.closeSocket {fd : ℤ} (h : Settled app (descriptorAt fd + s)) :
    Settled (app.closeSocket fd) s := by
  unfold descriptorAt at h
  unfold LoopApp.closeSocket
  split_ifs at h ⊢
  · exact h.release
  · rwa [zero_add] at h

lemma sameRings_closeFd (app : LoopApp) : SameRings app app.closeFd := by
  have hsame := sameRings_closeSocket app app.fd
  exact ⟨hsame.rx, hsame.tx, hsame.past⟩

lemma sameRings_closeSock (app : LoopApp) : SameRings app app.closeSock := by
  have hsame := sameRings_closeSocket app app.sock
  exact ⟨hsame.rx, hsame.tx, hsame.past⟩

lemma sameRings_streamDeinit (app : LoopApp) : SameRings app app.streamDeinit :=
  (sameRings_closeFd app).trans (sameRings_closeSock app.closeFd)

lemma sock_closeFd (app : LoopApp) : app.closeFd.sock = app.sock := by
  unfold closeFd closeSocket
  split_ifs <;> rfl

lemma fd_closeSock (app : LoopApp) : app.closeSock.fd = app.fd := by
  unfold closeSock closeSocket
  split_ifs <;> rfl

lemma Settled.closeFd (h : Settled app (descriptorAt app.fd + s)) : Settled app.closeFd s :=
  Settled.closeSocket h

lemma Settled.closeSock (h : Settled app (descriptorAt app.sock + s)) : Settled app.closeSock s :=
  Settled.closeSocket h

/-- Without the connection the stream owns its socket. -/
lemma Settled.closeFd_of_streams (h : Settled app (app.streams + s)) :
    Settled app.closeFd (descriptorAt app.closeFd.sock + s) := by
  rw [sock_closeFd]
  apply Settled.closeFd
  rwa [← add_assoc, add_comm (descriptorAt app.fd)]

/-- Without the socket it owns the connection. -/
lemma Settled.closeSock_of_streams (h : Settled app (app.streams + s)) :
    Settled app.closeSock (descriptorAt app.closeSock.fd + s) := by
  rw [fd_closeSock]
  apply Settled.closeSock
  rwa [← add_assoc]

/-- `lv2_osc_stream_deinit` releases what the stream owns. -/
lemma Settled.streamDeinit (h : Settled app (app.streams + s)) : Settled app.streamDeinit s :=
  h.closeFd_of_streams.closeSock

/-- No descriptor is left. -/
structure Closed (app : LoopApp) : Prop where
  sock : app.sock = -1
  fd : app.fd = -1

lemma Closed.streams_eq (h : Closed app) : app.streams = 0 := by
  rw [streams, h.sock, h.fd, descriptorAt_neg_one, zero_add]

lemma closed_streamDeinit (app : LoopApp) : Closed app.streamDeinit where
  sock := rfl
  fd := fd_closeSock app.closeFd

lemma Settled.openSock (h : Settled app s) (sock : Grant .descriptor) :
    Settled (app.openSock sock) (descriptorAt (app.openSock sock).sock + s) := by
  show Settled (app.acquire (.descriptor (sock.pick app.history))) _
  have hsock : (app.openSock sock).sock = (sock.pick app.history : ℕ) := rfl
  rw [hsock, descriptorAt_natCast]
  exact h.acquire (h.notMem_grant sock)

lemma Settled.acceptFd (h : Settled app s) (fd : Grant .descriptor) :
    Settled (app.acceptFd fd) (descriptorAt (app.acceptFd fd).fd + s) := by
  show Settled (app.acquire (.descriptor (fd.pick app.history))) _
  have hfd : (app.acceptFd fd).fd = (fd.pick app.history : ℕ) := rfl
  rw [hfd, descriptorAt_natCast]
  exact h.acquire (h.notMem_grant fd)

lemma closed_closeSock (h : app.fd = -1) : Closed app.closeSock where
  sock := rfl
  fd := (fd_closeSock app).trans h

/-- `_lv2_osc_stream_reinit` leaves a descriptor that the stream owns, and none if it fails. -/
structure Reinits (s : Multiset Handle) (app : LoopApp) (result : LoopApp × Bool) : Prop where
  same : SameRings app result.1
  fd : result.1.fd = -1
  settled : Settled result.1 (result.1.streams + s)
  sock : result.2 = false → result.1.sock = -1

/-- Behind the label `fail` nothing is open, whatever is returned. -/
lemma reinits_fail (hsame : SameRings app app') (hfd : app'.fd = -1)
    (hsettled : Settled app' (descriptorAt app'.sock + s)) (ok : Bool) :
    Reinits s app (app'.closeSock, ok) where
  same := hsame.trans (sameRings_closeSock app')
  fd := (fd_closeSock app').trans hfd
  settled := by
    rw [(closed_closeSock hfd).streams_eq, zero_add]
    exact hsettled.closeSock
  sock := fun _ => rfl

lemma reinits_opened (hsame : SameRings app app') (hfd : app'.fd = -1)
    (hsettled : Settled app' (descriptorAt app'.sock + s)) (connected : Bool) :
    Reinits s app ({ app' with connected := connected }, true) where
  same := ⟨hsame.rx, hsame.tx, hsame.past⟩
  fd := hfd
  settled := by
    show Settled app' (descriptorAt app'.sock + descriptorAt app'.fd + s)
    rwa [hfd, descriptorAt_neg_one, add_zero]
  sock := by simp

lemma reinits_streamReinit (h : Settled app (app.streams + s)) (url : StreamUrl)
    (answer : StreamAnswer) : Reinits s app (streamReinit url answer app) := by
  have hclosed := closed_streamDeinit app
  have hsame := sameRings_streamDeinit app
  have hdeinit := h.streamDeinit
  unfold streamReinit
  generalize app.streamDeinit = app' at hclosed hsame hdeinit
  have hsame' : ∀ sock, SameRings app (app'.openSock sock) := fun sock =>
    ⟨hsame.rx, hsame.tx, hsame.past⟩
  have hopen := hdeinit.openSock
  cases answer with
  | refused =>
      refine reinits_fail hsame hclosed.fd ?_ false
      rwa [hclosed.sock, descriptorAt_neg_one, zero_add]
  | unopened =>
      refine @reinits_fail _ { app' with sock := -1 } _
        ⟨hsame.rx, hsame.tx, hsame.past⟩ hclosed.fd ?_ false
      rw [descriptorAt_neg_one, zero_add]
      exact hdeinit
  | dropped sock => exact reinits_fail (hsame' sock) hclosed.fd (hopen sock) false
  | unresolved sock => exact reinits_fail (hsame' sock) hclosed.fd (hopen sock) true
  | opened sock connected =>
      have hany := reinits_opened (hsame' sock) hclosed.fd (hopen sock)
      cases url with
      | udp => exact hany (app'.openSock sock).connected
      | serial => exact hany true
      | tcpServer => exact hany (app'.openSock sock).connected
      | tcpClient => exact hany ((app'.openSock sock).connected || connected)

/-! ## Polling -/

/-- A server that is not connected has no connection to lose. -/
def Accepting (url : StreamUrl) (app : LoopApp) : Prop :=
  url = .tcpServer → app.connected = false → app.fd = -1

/-- What a function of the stream keeps, with anything else held. -/
structure KeepsStream (url : StreamUrl) (s : Multiset Handle) (app app' : LoopApp) : Prop where
  settled : Settled app' (app'.streams + s)
  accepting : Accepting url app'
  same : SameRings app app'

lemma KeepsStream.refl (h : Settled app (app.streams + s)) (haccepting : Accepting url app) :
    KeepsStream url s app app :=
  ⟨h, haccepting, .refl app⟩

lemma KeepsStream.trans (h : KeepsStream url s app app') (h' : KeepsStream url s app' app'') :
    KeepsStream url s app app'' :=
  ⟨h'.settled, h'.accepting, h.same.trans h'.same⟩

lemma KeepsStream.set_connected (hurl : url ≠ .tcpServer) (h : KeepsStream url s app app')
    (connected : Bool) : KeepsStream url s app { app' with connected := connected } where
  settled := h.settled
  accepting := fun hurl' => absurd hurl' hurl
  same := ⟨h.same.rx, h.same.tx, h.same.past⟩

lemma keepsStream_hangUp {server : Bool} (hserver : url = .tcpServer → server = true)
    (fails : Bool) (h : Settled app (app.streams + s)) (haccepting : Accepting url app) :
    KeepsStream url s app (hangUp server fails app) := by
  unfold hangUp
  by_cases hfails : app.connected ∧ (if server then app.fd else app.sock) ≥ 0 ∧ fails
  · rw [if_pos hfails]
    cases server with
    | true =>
        have hsame := sameRings_closeFd app
        refine ⟨?_, fun _ _ => rfl, ⟨hsame.rx, hsame.tx, hsame.past⟩⟩
        show Settled app.closeFd (descriptorAt app.closeFd.sock + descriptorAt (-1) + s)
        rw [descriptorAt_neg_one, add_zero]
        exact h.closeFd_of_streams
    | false =>
        have hurl : url ≠ .tcpServer := fun hurl => absurd (hserver hurl) (by simp)
        refine KeepsStream.set_connected hurl ⟨?_, fun hurl' => absurd hurl' hurl,
          sameRings_closeSock app⟩ false
        show Settled app.closeSock (descriptorAt (-1) + descriptorAt app.closeSock.fd + s)
        rw [descriptorAt_neg_one, zero_add]
        exact h.closeSock_of_streams
  · rw [if_neg hfails]
    exact .refl h haccepting

/-- A server that is not connected accepts: the descriptor that is overwritten is not open. -/
lemma keepsStream_accept (answer : Option (Grant .descriptor)) (hfd : app.fd = -1)
    (h : Settled app (app.streams + s)) :
    KeepsStream url s app (app.acceptConnection answer) := by
  have hidle : Settled app (descriptorAt app.sock + s) := by
    rwa [streams, hfd, descriptorAt_neg_one, add_zero] at h
  cases answer with
  | none =>
      refine ⟨?_, fun _ _ => rfl, ⟨rfl, rfl, rfl⟩⟩
      show Settled app (descriptorAt app.sock + descriptorAt (-1) + s)
      rwa [descriptorAt_neg_one, add_zero]
  | some fd =>
      refine ⟨?_, fun _ (hnot : true = false) => absurd hnot (by simp), ⟨rfl, rfl, rfl⟩⟩
      have haccept := hidle.acceptFd fd
      show Settled (app.acceptFd fd)
        (descriptorAt app.sock + descriptorAt (app.acceptFd fd).fd + s)
      rwa [add_comm (descriptorAt app.sock), add_assoc]

/-- A client opens its socket again, if it is closed. -/
lemma keepsStream_reopen (hurl : url ≠ .tcpServer) (answer : StreamAnswer)
    (h : Settled app (app.streams + s)) :
    KeepsStream url s app
      (if app.sock < 0 then (streamReinit url answer app).1 else app) := by
  split_ifs
  · have hreinit := reinits_streamReinit h url answer
    exact ⟨hreinit.settled, fun hurl' => absurd hurl' hurl, hreinit.same⟩
  · exact .refl h fun hurl' => absurd hurl' hurl

lemma keepsStream_handleConnections {server : Bool} (hserver : url = .tcpServer ↔ server = true)
    (answer : PollAnswer) (h : Settled app (app.streams + s)) (haccepting : Accepting url app) :
    KeepsStream url s app (handleConnections url server answer app) := by
  unfold handleConnections
  by_cases hconnected : app.connected = true
  · rw [if_pos hconnected]
    exact .refl h haccepting
  · rw [if_neg hconnected]
    cases server with
    | true =>
        have hfd := haccepting (hserver.mpr rfl) (Bool.eq_false_of_not_eq_true hconnected)
        exact keepsStream_accept answer.accept hfd h
    | false =>
        have hurl : url ≠ .tcpServer := fun hurl => absurd (hserver.mp hurl) (by simp)
        have hreopen := keepsStream_reopen hurl answer.reinit h
        dsimp only
        by_cases hconnect : answer.connect = true
        · rw [if_pos hconnect]
          exact hreopen.set_connected hurl true
        · rw [if_neg hconnect]
          exact hreopen

lemma keepsStream_streamRunTcp {server : Bool} (hserver : url = .tcpServer ↔ server = true)
    (answer : PollAnswer) (h : Settled app (app.streams + s)) (haccepting : Accepting url app) :
    KeepsStream url s app (streamRunTcp url server answer app) := by
  have hconnections := keepsStream_handleConnections hserver answer h haccepting
  have hsend := keepsStream_hangUp hserver.mp answer.sendFails hconnections.settled
    hconnections.accepting
  have hrecv := keepsStream_hangUp hserver.mp answer.recvFails hsend.settled hsend.accepting
  exact (hconnections.trans hsend).trans hrecv

lemma keepsStream_streamPollin (answer : Option PollAnswer) (h : Settled app (app.streams + s))
    (haccepting : Accepting url app) : KeepsStream url s app (streamPollin url app answer) := by
  cases answer with
  | none => exact .refl h haccepting
  | some answer =>
      cases url with
      | udp => exact .refl h haccepting
      | serial =>
          show KeepsStream .serial s app (streamRunSer answer app)
          unfold streamRunSer
          split_ifs
          · exact (KeepsStream.refl h haccepting).set_connected (by simp) false
          · exact .refl h haccepting
      | tcpServer => exact keepsStream_streamRunTcp (by simp) answer h haccepting
      | tcpClient => exact keepsStream_streamRunTcp (by simp) answer h haccepting

lemma keepsStream_polls (polls : List (Option PollAnswer)) (h : Settled app (app.streams + s))
    (haccepting : Accepting url app) :
    KeepsStream url s app (polls.foldl (streamPollin url) app) := by
  induction polls generalizing app with
  | nil => exact .refl h haccepting
  | cons answer polls ih =>
      have hstep := keepsStream_streamPollin answer h haccepting
      exact hstep.trans (ih hstep.settled hstep.accepting)

/-! ## The rings -/

lemma Settled.varchunkFree {varchunk : Option ℕ} (h : Settled app (ringAt varchunk + s)) :
    Settled (app.varchunkFree varchunk) s := by
  cases varchunk with
  | none =>
      show Settled app s
      rwa [ringAt, zero_add] at h
  | some varchunk => exact Settled.release h

/-- Only the record changes. -/
def SameFields (app app' : LoopApp) : Prop := ∃ trace, app' = { app with trace := trace }

lemma SameFields.trans (h : SameFields app app') (h' : SameFields app' app'') :
    SameFields app app'' := by
  obtain ⟨trace, rfl⟩ := h
  obtain ⟨trace', rfl⟩ := h'
  exact ⟨trace', rfl⟩

lemma SameFields.sameRings (h : SameFields app app') : SameRings app app' := by
  obtain ⟨trace, rfl⟩ := h
  exact ⟨rfl, rfl, rfl⟩

lemma SameFields.closed (h : SameFields app app') (hclosed : Closed app) : Closed app' := by
  obtain ⟨trace, rfl⟩ := h
  exact ⟨hclosed.sock, hclosed.fd⟩

lemma SameFields.streams_eq (h : SameFields app app') : app'.streams = app.streams := by
  obtain ⟨trace, rfl⟩ := h
  rfl

lemma SameFields.fd_eq (h : SameFields app app') : app'.fd = app.fd := by
  obtain ⟨trace, rfl⟩ := h
  rfl

lemma sameFields_release (app : LoopApp) (x : Handle) : SameFields app (app.release x) := ⟨_, rfl⟩

lemma sameFields_acquire (app : LoopApp) (x : Handle) : SameFields app (app.acquire x) := ⟨_, rfl⟩

lemma sameFields_varchunkFree (app : LoopApp) (varchunk : Option ℕ) :
    SameFields app (app.varchunkFree varchunk) := by
  cases varchunk with
  | none => exact ⟨app.trace, rfl⟩
  | some varchunk => exact sameFields_release app _

/-- Everything the fields own is released. -/
structure Cleaned (s : Multiset Handle) (app app' : LoopApp) : Prop where
  settled : Settled app' s
  closed : Closed app'
  same : SameRings app app'

/-- `_osc_deinit` releases what the stream and the pointers to the rings own. -/
lemma cleaned_oscDeinit (h : Settled app (app.streams + (app.rings + s))) :
    Cleaned s app app.oscDeinit := by
  have hstream := sameRings_streamDeinit app
  have hrx := sameFields_varchunkFree app.streamDeinit app.streamDeinit.rx
  have htx := sameFields_varchunkFree (app.streamDeinit.varchunkFree app.streamDeinit.rx)
    (app.streamDeinit.varchunkFree app.streamDeinit.rx).tx
  refine ⟨?_, htx.closed (hrx.closed (closed_streamDeinit app)),
    hstream.trans (hrx.trans htx).sameRings⟩
  apply Settled.varchunkFree
  rw [hrx.sameRings.tx, hstream.tx]
  apply Settled.varchunkFree
  rw [hstream.rx, ← add_assoc]
  exact h.streamDeinit

/-- A call of `_loop` begins with nothing held.  The stream is closed if a ring is refused, and
`rb.tx` is NULL if the first ring is. -/
structure Ready (app : LoopApp) (call : LoopCall) : Prop where
  settled : Settled app 0
  closed : call.RefusesRing → Closed app
  tx : call.rx = none → app.tx = none

/-- What `_osc_init` leaves. -/
structure OscInits (app : LoopApp) (call : LoopCall) (result : LoopApp × Bool) : Prop where
  past : result.1.past = app.past
  tx : result.1.tx = none ↔ call.RefusesRing
  ok : result.2 = true → Settled result.1 (result.1.streams + result.1.rings)
  fd : result.1.fd = -1
  failed : result.2 = false → Settled result.1 0 ∧ Closed result.1

/-- `lv2_osc_stream_init` overwrites descriptors, but none that is open. -/
lemma reinits_streamInit (h : Settled app app.rings) (url : StreamUrl) (answer : StreamAnswer) :
    Reinits app.rings app (streamInit url answer app) := by
  set zeroed : LoopApp := { app with sock := -1, fd := -1, connected := false }
  have hzeroed : Settled zeroed (zeroed.streams + app.rings) := by
    show Settled app (descriptorAt (-1) + descriptorAt (-1) + app.rings)
    rwa [descriptorAt_neg_one, zero_add, zero_add]
  have hreinit := reinits_streamReinit hzeroed url answer
  exact ⟨⟨hreinit.same.rx, hreinit.same.tx, hreinit.same.past⟩, hreinit.fd, hreinit.settled,
    hreinit.sock⟩

lemma oscInits_of_cleaned {call : LoopCall} (h : Cleaned 0 app' app'')
    (hpast : app'.past = app.past) (htx : app'.tx = none ↔ call.RefusesRing) :
    OscInits app call (app'', false) where
  past := h.same.past.trans hpast
  tx := by rw [← htx, h.same.tx]
  ok := by simp
  fd := h.closed.fd
  failed := fun _ => ⟨h.settled, h.closed⟩

/-- A refused ring: the fields still own what is held. -/
lemma oscInits_refused {call : LoopCall} (h : Settled app' app'.rings) (hclosed : Closed app')
    (hpast : app'.past = app.past) (htx : app'.tx = none) (hcall : call.RefusesRing) :
    OscInits app call (app'.oscDeinit, false) := by
  refine oscInits_of_cleaned (cleaned_oscDeinit ?_) hpast ⟨fun _ => hcall, fun _ => htx⟩
  rwa [hclosed.streams_eq, zero_add, add_zero]

/-- Both rings granted: the stream succeeds, or the rings are released. -/
lemma oscInits_stream {call : LoopCall} {result : LoopApp × Bool}
    (h : Reinits app'.rings app' result) (hpast : app'.past = app.past)
    (htx : app'.tx ≠ none) (hcall : ¬ call.RefusesRing) :
    OscInits app call (if result.2 then (result.1, true) else (result.1.oscDeinit, false)) := by
  have hpast' := h.same.past.trans hpast
  have htx' : result.1.tx = none ↔ call.RefusesRing := by
    rw [h.same.tx]
    exact ⟨fun hnone => absurd hnone htx, fun hrefuses => absurd hrefuses hcall⟩
  have hsettled := h.settled
  rw [← h.same.rings_eq] at hsettled
  by_cases hok : result.2 = true
  · rw [if_pos hok]
    exact ⟨hpast', htx', fun _ => hsettled, h.fd, fun hnot => absurd hnot (by simp)⟩
  · rw [if_neg hok]
    refine oscInits_of_cleaned (cleaned_oscDeinit ?_) hpast' htx'
    rwa [add_zero]

lemma oscInits_oscInit {call : LoopCall} (h : Ready app call) (url : StreamUrl) :
    OscInits app call (oscInit url call app) := by
  unfold oscInit
  cases hrx : call.rx with
  | none =>
      have hrefuses : call.RefusesRing := .inl hrx
      have hclosed := h.closed hrefuses
      have htx := h.tx hrx
      refine oscInits_refused ?_ ⟨hclosed.sock, hclosed.fd⟩ rfl htx hrefuses
      show Settled app (ringAt none + ringAt app.tx)
      rw [htx]
      exact h.settled
  | some ring =>
      set app₁ : LoopApp :=
        { app.acquire (.ring (ring.pick app.history)) with rx := ring.pick app.history } with happ₁
      have hfirst : Settled app₁ (ringAt app₁.rx + 0) :=
        h.settled.acquire (h.settled.notMem_grant ring)
      cases htx : call.tx with
      | none =>
          have hrefuses : call.RefusesRing := .inr htx
          have hclosed := h.closed hrefuses
          exact oscInits_refused hfirst ⟨hclosed.sock, hclosed.fd⟩ rfl rfl hrefuses
      | some ring' =>
          have hcall : ¬ call.RefusesRing := by simp [LoopCall.RefusesRing, hrx, htx]
          set app₂ : LoopApp :=
            { app₁.acquire (.ring (ring'.pick app₁.history)) with tx := ring'.pick app₁.history }
            with happ₂
          have hsecond : Settled app₂ app₂.rings := by
            have hacquire := hfirst.acquire (hfirst.notMem_grant ring')
            rw [add_zero] at hacquire
            rw [rings, add_comm]
            exact hacquire
          have htx₂ : app₂.tx ≠ none := by simp [happ₂]
          have hpast : app₂.past = app.past := rfl
          exact oscInits_stream (reinits_streamInit hsecond url call.stream) hpast htx₂ hcall

/-! ## The serial line and the thread -/

/-- What the open device owns, and nothing in a simulation. -/
def ftdiAt (simulate : Bool) : Multiset Handle := if simulate then 0 else {.usb} + {.context}

lemma thread_notMem_ftdiAt (simulate : Bool) : Handle.thread ∉ ftdiAt simulate := by
  cases simulate <;> simp [ftdiAt]

/-- The fields own rings and descriptors. -/
lemma isRingOrDescriptor_of_mem (h : x ∈ app.streams + app.rings) : x.IsRingOrDescriptor := by
  have hdescriptor (fd : ℤ) (hx : x ∈ descriptorAt fd) : x.IsRingOrDescriptor := by
    unfold descriptorAt at hx
    split_ifs at hx
    · rw [Multiset.mem_singleton.mp hx]
      exact trivial
    · exact absurd hx (Multiset.notMem_zero x)
  have hring (varchunk : Option ℕ) (hx : x ∈ ringAt varchunk) : x.IsRingOrDescriptor := by
    cases varchunk with
    | none => exact absurd hx (Multiset.notMem_zero x)
    | some varchunk =>
        rw [Multiset.mem_singleton.mp hx]
        exact trivial
  simp only [streams, rings, Multiset.mem_add] at h
  rcases h with (h | h) | (h | h)
  · exact hdescriptor _ h
  · exact hdescriptor _ h
  · exact hring _ h
  · exact hring _ h

/-- `_ftdi_init` releases what it has acquired if it fails. -/
structure FtdiInits (simulate : Bool) (s : Multiset Handle) (app : LoopApp)
    (result : LoopApp × Bool) : Prop where
  same : SameFields app result.1
  ok : result.2 = true → Settled result.1 (ftdiAt simulate + s)
  failed : result.2 = false → Settled result.1 s

lemma ftdiInits_failed (hsame : SameFields app app') (h : Settled app' s) :
    FtdiInits simulate s app (app', false) :=
  ⟨hsame, by simp, fun _ => h⟩

lemma ftdiInits_ftdiInit (h : Settled app s) (hs : ∀ x ∈ s, x.IsRingOrDescriptor)
    (fails : Option FtdiStep) : FtdiInits simulate s app (ftdiInit simulate fails app) := by
  unfold ftdiInit
  cases simulate with
  | true =>
      refine ⟨⟨app.trace, rfl⟩, fun _ => ?_, fun hnot => absurd hnot (by simp)⟩
      show Settled app (0 + s)
      rwa [zero_add]
  | false =>
      have hcontext := h.acquire (x := .context) fun hx => hs _ hx
      have husb := hcontext.acquire (x := .usb) (by
        rw [Multiset.mem_add, not_or]
        exact ⟨by simp, fun hx => hs _ hx⟩)
      have hsame := sameFields_acquire app .context
      have hsame' := hsame.trans (sameFields_acquire _ .usb)
      rw [if_neg Bool.false_ne_true]
      split_ifs
      · exact ftdiInits_failed ⟨app.trace, rfl⟩ h
      · exact ftdiInits_failed (hsame.trans (sameFields_release _ .context)) hcontext.release
      · exact ftdiInits_failed (hsame.trans (sameFields_release _ .context)) hcontext.release
      · exact ftdiInits_failed ((hsame'.trans (sameFields_release _ .usb)).trans
          (sameFields_release _ .context)) husb.release.release
      · refine ⟨hsame', fun _ => ?_, fun hnot => absurd hnot (by simp)⟩
        show Settled _ ({.usb} + {.context} + s)
        rw [add_assoc]
        exact husb

lemma Settled.ftdiDeinit (h : Settled app (ftdiAt simulate + s)) :
    Settled (ftdiDeinit simulate app) s := by
  cases simulate with
  | true =>
      show Settled app s
      rwa [ftdiAt, if_pos rfl, zero_add] at h
  | false =>
      rw [ftdiAt, if_neg Bool.false_ne_true, add_assoc] at h
      exact h.release.release

lemma sameFields_ftdiDeinit (simulate : Bool) (app : LoopApp) :
    SameFields app (ftdiDeinit simulate app) := by
  cases simulate with
  | true => exact ⟨app.trace, rfl⟩
  | false => exact (sameFields_release app .usb).trans (sameFields_release _ .context)

/-! ## A call of `_loop` -/

/-- What a call leaves. -/
structure LoopEnds (app : LoopApp) (call : LoopCall) (app' : LoopApp) : Prop where
  settled : Settled app' 0
  closed : Closed app'
  past : app'.past = app.history
  tx : app'.tx = none ↔ call.RefusesRing

lemma loopEnds_of_cleaned {call : LoopCall} {result : LoopApp × Bool}
    (hinit : OscInits { app with past := app.history, trace := [] } call result)
    (hsame : SameRings result.1 app') (h : Cleaned 0 app' app'') : LoopEnds app call app'' where
  settled := h.settled
  closed := h.closed
  past := (h.same.past.trans hsame.past).trans hinit.past
  tx := by rw [h.same.tx, hsame.tx, hinit.tx]

/-- What `_osc_deinit` finds when the functions before it have changed only the record. -/
lemma SameFields.cleaned (h : SameFields app app')
    (hsettled : Settled app' (app.streams + app.rings)) : Cleaned 0 app' app'.oscDeinit := by
  apply cleaned_oscDeinit
  rwa [add_zero, h.streams_eq, h.sameRings.rings_eq]

/-- Behind the thread: polling, and the cleanup at the end of `_loop`. -/
lemma cleaned_run (url : StreamUrl) (polls : List (Option PollAnswer)) (hfd : app.fd = -1)
    (h : Settled app ({.thread} + (ftdiAt simulate + (app.streams + app.rings)))) :
    ∃ app', SameRings app app' ∧
      Cleaned 0 app' (ftdiDeinit simulate
        (polls.foldl (streamPollin url) app).threadDeinit).oscDeinit := by
  have hframe : Settled app (app.streams + (app.rings + (ftdiAt simulate + {.thread}))) := by
    convert h using 1
    abel
  have hpolls := keepsStream_polls polls hframe fun (_ : url = .tcpServer) _ => hfd
  set polled := polls.foldl (streamPollin url) app
  have hthread : Settled polled
      ({.thread} + (ftdiAt simulate + (polled.streams + polled.rings))) := by
    rw [hpolls.same.rings_eq]
    convert hpolls.settled using 1
    abel
  have hsame := (sameFields_release polled .thread).trans (sameFields_ftdiDeinit simulate _)
  exact ⟨_, hpolls.same.trans hsame.sameRings, hsame.cleaned hthread.release.ftdiDeinit⟩

/-- **A call of `_loop`.**  If it is ready, it ends with nothing held, whatever fails. -/
theorem loopEnds_loop {call : LoopCall} (h : Ready app call) (simulate : Bool) (url : StreamUrl) :
    LoopEnds app call (app.loop simulate url call).1 := by
  have hready : Ready { app with past := app.history, trace := [] } call := by
    refine ⟨?_, fun hcall => ⟨(h.closed hcall).sock, (h.closed hcall).fd⟩, h.tx⟩
    show settle 0 (app.history ++ []) = some 0
    rw [List.append_nil]
    exact h.settled
  have hinit := oscInits_oscInit hready url
  unfold loop
  dsimp only
  generalize oscInit url call _ = result at hinit ⊢
  obtain ⟨app₁, ok⟩ := result
  cases ok with
  | false =>
      obtain ⟨hsettled, hclosed⟩ := hinit.failed rfl
      exact ⟨hsettled, hclosed, hinit.past, hinit.tx⟩
  | true =>
      have hok := hinit.ok rfl
      have hftdi : FtdiInits simulate _ app₁ (ftdiInit simulate call.ftdi app₁) :=
        ftdiInits_ftdiInit hok (fun x hx => isRingOrDescriptor_of_mem hx) call.ftdi
      rw [if_neg (show ¬ (!true) = true by simp)]
      generalize ftdiInit simulate call.ftdi app₁ = result at hftdi ⊢
      obtain ⟨app₂, ok⟩ := result
      cases ok with
      | false =>
          exact loopEnds_of_cleaned hinit hftdi.same.sameRings
            (hftdi.same.cleaned (hftdi.failed rfl))
      | true =>
          have hdevice := hftdi.ok rfl
          unfold threadInit
          cases call.thread with
          | false =>
              have hsame := hftdi.same.trans (sameFields_ftdiDeinit simulate app₂)
              exact loopEnds_of_cleaned hinit hsame.sameRings (hsame.cleaned hdevice.ftdiDeinit)
          | true =>
              have hthread : Settled (app₂.acquire .thread)
                  ({.thread} + (ftdiAt simulate + (app₁.streams + app₁.rings))) := by
                apply hdevice.acquire
                rw [Multiset.mem_add, not_or]
                exact ⟨thread_notMem_ftdiAt simulate, fun hx => isRingOrDescriptor_of_mem hx⟩
              have hsame := hftdi.same.trans (sameFields_acquire app₂ .thread)
              rw [← hsame.streams_eq, ← hsame.sameRings.rings_eq] at hthread
              have hfd : (app₂.acquire .thread).fd = -1 := hsame.fd_eq.trans hinit.fd
              obtain ⟨app₃, hsame₃, hcleaned⟩ := cleaned_run url call.polls hfd hthread
              exact loopEnds_of_cleaned hinit (hsame.sameRings.trans hsame₃) hcleaned

end LoopApp

end MonoBus
