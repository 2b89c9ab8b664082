import MonoBus.Construction.ResourceLedger

/-!
# Cleanup behind a failed initialization

`_osc_deinit` is called when `_osc_init` fails, before it has set all of the fields it releases.
Before the first call of `_loop` the descriptors in these fields are `0`, the standard input, as
long as `lv2_osc_stream_init` has not run; in a later call `rb.tx` still points to the ring of
the call before.  Apart from that every call releases what it has acquired, and nothing else.
-/

namespace MonoBus

/-- In the call that ends here everything that is acquired is released exactly once, and no ring
pointer or descriptor is released that is not held. -/
def LoopApp.Clean (app : LoopApp) : Prop :=
  ReleasedOnce app.trace ∧ NoStray Handle.IsRingOrDescriptor app.past app.trace

/-- Both rings are granted in the first call, and the first of them is refused only in a call that
follows one in which a ring is refused. -/
def RingsGranted (calls : List LoopCall) : Prop :=
  (∀ call ∈ calls.head?, ¬ call.RefusesRing) ∧
    calls.IsChain fun before call => call.rx = none → before.RefusesRing

namespace LoopApp

variable {app app' : LoopApp} {call before : LoopCall} {simulate : Bool} {url : StreamUrl}

/-! ## Calls that clean up -/

lemma clean_of_loopEnds (hstart : Settled app 0) (h : LoopEnds app call app') : app'.Clean := by
  have hhistory : settle 0 (app'.past ++ app'.trace) = some 0 := h.settled
  have hpast : settle 0 app'.past = some 0 := by
    rw [h.past]
    exact hstart
  refine ⟨releasedOnce_of_settle ?_, noStray_of_settle hhistory⟩
  rwa [settle_append, hpast, Option.bind_some] at hhistory

/-! ## Calls that do not -/

lemma not_clean_of_stray {t after : List (LedgerEvent Handle)} {x : Handle}
    (htrace : app.trace = t ++ .release x :: after) (hkind : x.IsRingOrDescriptor)
    (hx : x ∉ held (app.past ++ t)) : ¬ app.Clean :=
  fun h => hx (h.2 t x after htrace hkind)

lemma loop_of_refused_rx (hrx : call.rx = none) :
    (app.loop simulate url call).1 =
      { app with past := app.history, trace := [], rx := none }.oscDeinit := by
  unfold loop oscInit
  rw [hrx]
  rfl

lemma loop_of_refused_tx {ring : Grant .ring} (hrx : call.rx = some ring) (htx : call.tx = none) :
    (app.loop simulate url call).1 =
      ({ app with
          past := app.history
          trace := [.acquire (.ring (ring.pick (app.history ++ [])))]
          rx := some (ring.pick (app.history ++ []))
          tx := none } : LoopApp).oscDeinit := by
  unfold loop oscInit
  rw [hrx, htx]
  rfl

/-- The first call closes a descriptor that nobody has opened. -/
lemma not_clean_start (h : call.RefusesRing) : ¬ (start.loop simulate url call).1.Clean := by
  cases hrx : call.rx with
  | none =>
      rw [loop_of_refused_rx hrx]
      refine not_clean_of_stray (t := []) rfl trivial ?_
      exact Multiset.notMem_zero _
  | some ring =>
      have htx : call.tx = none := h.resolve_left (by simp [hrx])
      rw [loop_of_refused_tx hrx htx]
      refine not_clean_of_stray (x := .descriptor 0) (t := [_]) rfl trivial ?_
      show Handle.descriptor 0 ∉ Handle.ring _ ::ₘ (0 : Multiset Handle)
      simp

/-- A later call releases the ring of the call before again. -/
lemma not_clean_of_dangling (hsettled : Settled app 0) (hclosed : Closed app)
    (hrx : call.rx = none) (htx : app.tx ≠ none) : ¬ (app.loop simulate url call).1.Clean := by
  obtain ⟨varchunk, htx⟩ := Option.ne_none_iff_exists'.mp htx
  have hloop : (app.loop simulate url call).1 =
      { app with
        past := app.history
        trace := [.release (.ring varchunk)]
        rx := none } := by
    rw [loop_of_refused_rx hrx]
    simp [oscDeinit, streamDeinit, closeFd, closeSock, closeSocket, varchunkFree, release,
      hclosed.fd, hclosed.sock, htx]
  rw [hloop]
  refine not_clean_of_stray (x := .ring varchunk) (t := []) rfl trivial ?_
  show Handle.ring varchunk ∉ held (app.history ++ [])
  rw [List.append_nil, held_of_settle hsettled]
  exact Multiset.notMem_zero _

/-! ## Runs -/

/-- The calls behind a call with which everything was in order. -/
lemma clean_iff_of_before (hsettled : Settled app 0) (hclosed : Closed app)
    (htx : app.tx = none ↔ before.RefusesRing) (calls : List LoopCall) :
    (∀ app' ∈ loopStates simulate url app calls, app'.Clean) ↔
      (before :: calls).IsChain fun before call => call.rx = none → before.RefusesRing := by
  induction calls generalizing app before with
  | nil => simp [loopStates]
  | cons call calls ih =>
      rw [loopStates, List.forall_mem_cons, List.isChain_cons_cons]
      by_cases hcall : call.rx = none → before.RefusesRing
      · have hready : Ready app call := ⟨hsettled, fun _ => hclosed, fun hrx => htx.mpr (hcall hrx)⟩
        have hends := loopEnds_loop hready simulate url
        rw [ih hends.settled hends.closed hends.tx]
        exact and_congr_left fun _ => iff_of_true (clean_of_loopEnds hsettled hends) hcall
      · rw [Classical.not_imp] at hcall
        obtain ⟨hrx, hbefore⟩ := hcall
        have hnot : ¬ (app.loop simulate url call).1.Clean :=
          not_clean_of_dangling hsettled hclosed hrx fun hnone => hbefore (htx.mp hnone)
        exact iff_of_false (fun h => hnot h.1) fun h => hbefore (h.1 hrx)

end LoopApp

/-- **Initialization failures.**  In every sequence of calls of `_loop`, with any step failing in
each of them, every call releases what it has acquired exactly once and releases no ring pointer
or descriptor that is not held, exactly if both rings are granted in the first call and the first
ring is never refused right after a call in which both were granted. -/
theorem initFailures_clean_iff (simulate : Bool) (url : StreamUrl) (calls : List LoopCall) :
    (∀ app ∈ LoopApp.loopStates simulate url .start calls, app.Clean) ↔ RingsGranted calls := by
  cases calls with
  | nil => simp [LoopApp.loopStates, RingsGranted]
  | cons call calls =>
      rw [LoopApp.loopStates, List.forall_mem_cons, RingsGranted, List.head?_cons]
      have hsettled : LoopApp.Settled .start 0 := rfl
      by_cases hcall : call.RefusesRing
      · exact iff_of_false (fun h => LoopApp.not_clean_start hcall h.1)
          fun h => h.1 call rfl hcall
      · have hready : LoopApp.Ready .start call := ⟨hsettled, fun h => absurd h hcall, fun _ => rfl⟩
        have hends := LoopApp.loopEnds_loop hready simulate url
        rw [LoopApp.clean_iff_of_before hends.settled hends.closed hends.tx]
        refine and_congr_left fun _ => iff_of_true (LoopApp.clean_of_loopEnds hsettled hends) ?_
        intro call' hcall'
        rwa [← Option.some_inj.mp hcall']

def refusesRx : LoopCall where
  rx := none
  tx := none
  stream := .refused
  ftdi := none
  thread := false
  polls := []

def served : LoopCall where
  rx := some (.above .ring fun _ => rfl)
  tx := some (.above .ring fun _ => rfl)
  stream := .opened (.above .descriptor fun _ => rfl) false
  ftdi := none
  thread := true
  polls := []

/-- The first call closes descriptor `0`, twice, if its first ring is refused.  Behind a call that
is served, such a call frees the second ring again. -/
theorem initFailures_stray :
    (LoopApp.loopStates true .udp .start [refusesRx]).map LoopApp.trace =
        [[.release (.descriptor 0), .release (.descriptor 0)]] ∧
      (LoopApp.loopStates true .udp .start [served, refusesRx]).map LoopApp.trace =
        [[.acquire (.ring 1), .acquire (.ring 2), .acquire (.descriptor 4), .acquire .thread,
          .release .thread, .release (.descriptor 4), .release (.ring 1), .release (.ring 2)],
          [.release (.ring 2)]] ∧
      ¬ ∀ (simulate : Bool) (url : StreamUrl) (calls : List LoopCall),
        ∀ app ∈ LoopApp.loopStates simulate url .start calls, app.Clean := by
  refine ⟨by decide, by decide, fun h => ?_⟩
  have hclean := h true .udp [refusesRx] _ List.mem_cons_self
  exact LoopApp.not_clean_start (.inl rfl) hclean

end MonoBus
