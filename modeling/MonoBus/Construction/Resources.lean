import MonoBus.Framework.Ledger

/-!
# What a call of `_loop` acquires and releases

The initializations of `_loop` share their cleanup with its end, and the fields they work on keep
their values from one call to the next; before the first they are zero, as `app` is static.  The
model keeps these fields and a record of what is acquired and released.  What the system answers
is given for each call: the step that fails, if any, and a number that is not in use where it
hands one out.
-/

namespace MonoBus

/-- What the daemon acquires: a block of `varchunk_new`, an open file, the context of libftdi, its
USB device, and the thread of `_beat`. -/
inductive Handle
  | ring (varchunk : ℕ)
  | descriptor (fd : ℕ)
  | context
  | usb
  | thread
  deriving DecidableEq

/-- It is released by a pointer to a ring or by a file descriptor. -/
def Handle.IsRingOrDescriptor : Handle → Prop
  | .ring _ => True
  | .descriptor _ => True
  | _ => False

/-- The numbers that the system hands out: none that is in use. -/
structure Grant (mk : ℕ → Handle) where
  pick : List (LedgerEvent Handle) → ℕ
  fresh : ∀ history, mk (pick history) ∉ held history

/-- The number of a ring or a descriptor. -/
def Handle.number : Handle → ℕ
  | .ring varchunk => varchunk
  | .descriptor fd => fd
  | _ => 0

/-- A system that hands out numbers above all that are in use. -/
def Grant.above (mk : ℕ → Handle) (hmk : ∀ n, (mk n).number = n) : Grant mk where
  pick history := ((held history).map Handle.number).sum + 1
  fresh := by
    intro history hmem
    have hle := Multiset.single_le_sum (fun _ _ => Nat.zero_le _) _
      (Multiset.mem_map_of_mem Handle.number hmem)
    rw [hmk] at hle
    omega

/-- The kinds of URL: only TCP connections are accepted, and opened again. -/
inductive StreamUrl
  | udp
  | serial
  | tcpServer
  | tcpClient
  deriving DecidableEq

/-- How `_lv2_osc_stream_reinit` ends: without asking for a descriptor, without getting one, by
closing it when a later step fails, or with an open stream.  `getaddrinfo` need not set `errno`
when it fails; where it is zero the descriptor is closed, and the function returns zero. -/
inductive StreamAnswer
  | refused
  | unopened
  | dropped (sock : Grant .descriptor)
  | unresolved (sock : Grant .descriptor)
  | opened (sock : Grant .descriptor) (connected : Bool)

/-- What happens to a TCP connection in one call of `lv2_osc_stream_pollin`. -/
structure PollAnswer where
  accept : Option (Grant .descriptor)
  reinit : StreamAnswer
  connect : Bool
  sendFails : Bool
  recvFails : Bool

/-- The calls of `_ftdi_init`. -/
inductive FtdiStep
  | init
  | setInterface
  | usbOpen
  | usbReset
  | setBaudrate
  | setLineProperty
  | usbPurgeBuffers
  | setflowctrl
  | setrts
  deriving DecidableEq

/-- What the system answers during a call of `_loop`: `ftdi` is the step of `_ftdi_init` that
fails, and a call of `lv2_osc_stream_pollin` without an answer is one whose `poll` fails. -/
structure LoopCall where
  rx : Option (Grant .ring)
  tx : Option (Grant .ring)
  stream : StreamAnswer
  ftdi : Option FtdiStep
  thread : Bool
  polls : List (Option PollAnswer)

/-- One of the two rings is refused. -/
def LoopCall.RefusesRing (call : LoopCall) : Prop := call.rx = none ∨ call.tx = none

/-- The fields `rb.rx`, `rb.tx`, `stream.sock`, `stream.fd` and `stream.connected` of `app_t`, and
the record of the calls of `_loop` that are over and of the current one. -/
structure LoopApp where
  rx : Option ℕ
  tx : Option ℕ
  sock : ℤ
  fd : ℤ
  connected : Bool
  past : List (LedgerEvent Handle)
  trace : List (LedgerEvent Handle)

namespace LoopApp

/-- `static app_t app`. -/
def start : LoopApp where
  rx := none
  tx := none
  sock := 0
  fd := 0
  connected := false
  past := []
  trace := []

/-- The whole record. -/
def history (app : LoopApp) : List (LedgerEvent Handle) := app.past ++ app.trace

def acquire (app : LoopApp) (h : Handle) : LoopApp :=
  { app with trace := app.trace ++ [.acquire h] }

def release (app : LoopApp) (h : Handle) : LoopApp :=
  { app with trace := app.trace ++ [.release h] }

/-! ## The stream -/

/-- `_close_socket`, where the caller sets its variable to `-1`. -/
def closeSocket (app : LoopApp) (fd : ℤ) : LoopApp :=
  if fd ≥ 0 then app.release (.descriptor fd.toNat) else app

/-- `_close_socket(&stream->fd)`. -/
def closeFd (app : LoopApp) : LoopApp := { app.closeSocket app.fd with fd := -1 }

/-- `_close_socket(&stream->sock)`. -/
def closeSock (app : LoopApp) : LoopApp := { app.closeSocket app.sock with sock := -1 }

/-- `lv2_osc_stream_deinit`. -/
def streamDeinit (app : LoopApp) : LoopApp := app.closeFd.closeSock

/-- `stream->sock = socket(...)` or `open(...)`. -/
def openSock (app : LoopApp) (sock : Grant .descriptor) : LoopApp :=
  { app.acquire (.descriptor (sock.pick app.history)) with sock := sock.pick app.history }

/-- `stream->fd = accept(...)`. -/
def acceptFd (app : LoopApp) (fd : Grant .descriptor) : LoopApp :=
  { app.acquire (.descriptor (fd.pick app.history)) with fd := fd.pick app.history }

/-- `_lv2_osc_stream_reinit`, and whether it succeeds. -/
def streamReinit (url : StreamUrl) (answer : StreamAnswer) (app : LoopApp) : LoopApp × Bool :=
  let app := app.streamDeinit
  match answer with
  | .refused => (app.closeSock, false)
  | .unopened => ({ app with sock := -1 }.closeSock, false)
  | .dropped sock => ((app.openSock sock).closeSock, false)
  | .unresolved sock => ((app.openSock sock).closeSock, true)
  | .opened sock connected =>
      let app := app.openSock sock
      match url with
      | .serial => ({ app with connected := true }, true)
      | .tcpClient => ({ app with connected := app.connected || connected }, true)
      | _ => (app, true)

/-- `lv2_osc_stream_init`. -/
def streamInit (url : StreamUrl) (answer : StreamAnswer) (app : LoopApp) : LoopApp × Bool :=
  streamReinit url answer { app with sock := -1, fd := -1, connected := false }

/-- The branches of `_lv2_osc_stream_run_tcp` that end a connection: a descriptor that is open
is closed if `fails`. -/
def hangUp (server fails : Bool) (app : LoopApp) : LoopApp :=
  if app.connected ∧ (if server then app.fd else app.sock) ≥ 0 ∧ fails then
    { (if server then app.closeFd else app.closeSock) with connected := false }
  else app

/-- A server that is not connected asks for a connection. -/
def acceptConnection (app : LoopApp) : Option (Grant .descriptor) → LoopApp
  | some fd => { app.acceptFd fd with connected := true }
  | none => { app with fd := -1 }

/-- The beginning of `_lv2_osc_stream_run_tcp`. -/
def handleConnections (url : StreamUrl) (server : Bool) (answer : PollAnswer) (app : LoopApp) :
    LoopApp :=
  if app.connected then app
  else if server then app.acceptConnection answer.accept
  else
    let app := if app.sock < 0 then (streamReinit url answer.reinit app).1 else app
    if answer.connect then { app with connected := true } else app

/-- `_lv2_osc_stream_run_tcp`: handle connections, send, receive. -/
def streamRunTcp (url : StreamUrl) (server : Bool) (answer : PollAnswer) (app : LoopApp) :
    LoopApp :=
  let app := handleConnections url server answer app
  let app := hangUp server answer.sendFails app
  hangUp server answer.recvFails app

/-- `_lv2_osc_stream_run_ser`. -/
def streamRunSer (answer : PollAnswer) (app : LoopApp) : LoopApp :=
  if app.sock ≥ 0 ∧ answer.recvFails then { app with connected := false } else app

/-- `lv2_osc_stream_pollin`. -/
def streamPollin (url : StreamUrl) (app : LoopApp) : Option PollAnswer → LoopApp
  | none => app
  | some answer =>
      match url with
      | .udp => app
      | .serial => streamRunSer answer app
      | .tcpServer => streamRunTcp url true answer app
      | .tcpClient => streamRunTcp url false answer app

/-! ## The rings -/

/-- `varchunk_new`. -/
def varchunkNew (answer : Option (Grant .ring)) (app : LoopApp) : LoopApp × Option ℕ :=
  match answer with
  | some ring => (app.acquire (.ring (ring.pick app.history)), some (ring.pick app.history))
  | none => (app, none)

/-- `varchunk_free`, if the pointer is not NULL. -/
def varchunkFree (app : LoopApp) : Option ℕ → LoopApp
  | some varchunk => app.release (.ring varchunk)
  | none => app

/-- `_osc_deinit`. -/
def oscDeinit (app : LoopApp) : LoopApp :=
  let app := app.streamDeinit
  let app := app.varchunkFree app.rx
  app.varchunkFree app.tx

/-- `_osc_init`, and whether it succeeds. -/
def oscInit (url : StreamUrl) (call : LoopCall) (app : LoopApp) : LoopApp × Bool :=
  let (app, rx) := app.varchunkNew call.rx
  let app := { app with rx := rx }
  if rx.isNone then (app.oscDeinit, false)
  else
    let (app, tx) := app.varchunkNew call.tx
    let app := { app with tx := tx }
    if tx.isNone then (app.oscDeinit, false)
    else
      let (app, ok) := app.streamInit url call.stream
      if ok then (app, true) else (app.oscDeinit, false)

/-! ## The serial line and the thread -/

/-- `_ftdi_init`, and whether it succeeds.  The steps behind the opening of the device all fail
in the same way. -/
def ftdiInit (simulate : Bool) (fails : Option FtdiStep) (app : LoopApp) : LoopApp × Bool :=
  if simulate then (app, true)
  else if fails = some .init then (app, false)
  else
    let app := app.acquire .context
    if fails = some .setInterface then (app.release .context, false)
    else if fails = some .usbOpen then (app.release .context, false)
    else
      let app := app.acquire .usb
      if fails.isSome then ((app.release .usb).release .context, false)
      else (app, true)

/-- `_ftdi_deinit`. -/
def ftdiDeinit (simulate : Bool) (app : LoopApp) : LoopApp :=
  if simulate then app else (app.release .usb).release .context

/-- `_thread_init`, and whether it succeeds. -/
def threadInit (ok : Bool) (app : LoopApp) : LoopApp × Bool :=
  if ok then (app.acquire .thread, true) else (app, false)

/-- `_thread_deinit`. -/
def threadDeinit (app : LoopApp) : LoopApp := app.release .thread

/-! ## The loop -/

/-- `_loop`, and whether it returns `0`. -/
def loop (simulate : Bool) (url : StreamUrl) (call : LoopCall) (app : LoopApp) : LoopApp × Bool :=
  let app := { app with past := app.history, trace := [] }
  let (app, ok) := app.oscInit url call
  if !ok then (app, false)
  else
    let (app, ok) := app.ftdiInit simulate call.ftdi
    if !ok then (app.oscDeinit, false)
    else
      let (app, ok) := app.threadInit call.thread
      if !ok then ((app.ftdiDeinit simulate).oscDeinit, false)
      else
        let app := call.polls.foldl (streamPollin url) app
        let app := app.threadDeinit
        let app := app.ftdiDeinit simulate
        (app.oscDeinit, true)

/-- The states in which the calls of `_loop` return that `main` makes one after the other. -/
def loopStates (simulate : Bool) (url : StreamUrl) : LoopApp → List LoopCall → List LoopApp
  | _, [] => []
  | app, call :: calls =>
      let app := (app.loop simulate url call).1
      app :: loopStates simulate url app calls

end LoopApp

end MonoBus
