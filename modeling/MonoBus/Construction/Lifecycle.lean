import MonoBus.Construction.BusMessage
import MonoBus.Framework.Transition

/-!
# Start and stop of the daemon (`monobusd.c`)

Three parties share the flags `reconnect` and `done`: `main` with the calls of `_loop`, the
thread of `_beat`, and any number of signal handlers.  A step is an access to a flag, or a point
at which a call of `_loop` or a transmission can go one way or the other.  A transmission that
fails is one step with the store that follows it, as nobody else can see the failure.
-/

namespace MonoBus

/-- Where `main` is.  Between two calls of `_loop`, and before the first, it is `outside`. -/
inductive MainPc
  | outside
  | oscInit
  | ftdiInit
  | threadInit
  | clearDone
  | loadDone
  | pollin
  | threadDeinit
  | loadReconnect
  | exited
  deriving DecidableEq

/-- The three groups of transmissions of `_beat`. -/
inductive BeatPhase
  | setup
  | frame
  | final
  deriving DecidableEq

/-- The messages of a group. -/
def BeatPhase.commands : BeatPhase → List CommandType
  | .setup => [.status, .ledSetup]
  | .frame => [.ledOutset, .ledOutdat, .ledOutput]
  | .final => [.ledOutset, .ledOutdat, .ledOutput]

/-- Where `_beat` is: no thread, with messages of a group to transmit, at the head of the loop, or
at its end. -/
inductive BeatPc
  | absent
  | xmit (phase : BeatPhase) (commands : List CommandType)
  | loadDone
  | returned
  deriving DecidableEq

/-- It has left its loop. -/
def BeatPc.left : BeatPc → Bool
  | .xmit .final _ => true
  | .returned => true
  | _ => false

/-- What follows the last message of a group. -/
def BeatPhase.next : BeatPhase → BeatPc
  | .final => .returned
  | _ => .loadDone

/-- The flags, the parties, and the number of handlers between their two stores.  The last two
fields tell whether a handler has ended, and whether a transmission has failed, since the last
call of `_loop` began. -/
structure Lifecycle where
  reconnect : Bool
  done : Bool
  main : MainPc
  beat : BeatPc
  handlers : ℕ
  signalled : Bool
  failed : Bool

/-- The start of `main`, with or without the option `-A`. -/
def Lifecycle.start (reconnect : Bool) : Lifecycle where
  reconnect := reconnect
  done := false
  main := .outside
  beat := .absent
  handlers := 0
  signalled := false
  failed := false

/-- The three initializations of `_loop`. -/
inductive LoopInit
  | osc
  | ftdi
  | thread

/-- Where an initialization is called. -/
def LoopInit.pc : LoopInit → MainPc
  | .osc => .oscInit
  | .ftdi => .ftdiInit
  | .thread => .threadInit

/-- The state behind an initialization that succeeds. -/
def LoopInit.succeed : LoopInit → Lifecycle → Lifecycle
  | .osc, s => { s with main := .ftdiInit }
  | .ftdi, s => { s with main := .threadInit }
  | .thread, s => { s with main := .clearDone, beat := .xmit .setup BeatPhase.setup.commands }

/-- `_sig`. -/
inductive SigStep : Lifecycle → Lifecycle → Prop
  | clearReconnect (s : Lifecycle) :
      SigStep s { s with reconnect := false, handlers := s.handlers + 1 }
  | setDone (s : Lifecycle) : 0 < s.handlers →
      SigStep s { s with done := true, handlers := s.handlers - 1, signalled := true }

/-- `_beat`. -/
inductive BeatStep : Lifecycle → Lifecycle → Prop
  | sent (s : Lifecycle) {phase : BeatPhase} {command : CommandType}
      {commands : List CommandType} : s.beat = .xmit phase (command :: commands) →
      BeatStep s { s with beat := .xmit phase commands }
  | failed (s : Lifecycle) {phase : BeatPhase} {command : CommandType}
      {commands : List CommandType} : s.beat = .xmit phase (command :: commands) →
      BeatStep s { s with beat := .xmit phase commands, done := true, failed := true }
  | next (s : Lifecycle) {phase : BeatPhase} : s.beat = .xmit phase [] →
      BeatStep s { s with beat := phase.next }
  | interrupted (s : Lifecycle) : s.beat = .loadDone → s.done = false → BeatStep s s
  | enter (s : Lifecycle) : s.beat = .loadDone → s.done = false →
      BeatStep s { s with beat := .xmit .frame BeatPhase.frame.commands }
  | leave (s : Lifecycle) : s.beat = .loadDone → s.done = true →
      BeatStep s { s with beat := .xmit .final BeatPhase.final.commands }

/-- `main` and `_loop`. -/
inductive MainStep : Lifecycle → Lifecycle → Prop
  | call (s : Lifecycle) : s.main = .outside →
      MainStep s { s with main := .oscInit, signalled := false, failed := false }
  | init (s : Lifecycle) (i : LoopInit) : s.main = i.pc → MainStep s (i.succeed s)
  | initFailed (s : Lifecycle) (i : LoopInit) : s.main = i.pc →
      MainStep s { s with main := .loadReconnect }
  | clearDone (s : Lifecycle) : s.main = .clearDone →
      MainStep s { s with main := .loadDone, done := false }
  | goOn (s : Lifecycle) : s.main = .loadDone → s.done = false →
      MainStep s { s with main := .pollin }
  | polled (s : Lifecycle) : s.main = .pollin → MainStep s { s with main := .loadDone }
  | stop (s : Lifecycle) : s.main = .loadDone → s.done = true →
      MainStep s { s with main := .threadDeinit }
  | joined (s : Lifecycle) : s.main = .threadDeinit → s.beat = .returned →
      MainStep s { s with main := .loadReconnect, beat := .absent }
  | again (s : Lifecycle) : s.main = .loadReconnect → s.reconnect = true →
      MainStep s { s with main := .outside }
  | exit (s : Lifecycle) : s.main = .loadReconnect → s.reconnect = false →
      MainStep s { s with main := .exited }

/-- The daemon: any of the parties takes a step. -/
def lifecycle : System Lifecycle where
  init s := ∃ reconnect, s = .start reconnect
  step s t := SigStep s t ∨ BeatStep s t ∨ MainStep s t

end MonoBus
