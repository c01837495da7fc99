import BoardTrial.Board.LiveBoard
import BoardTrial.RuleText.Diagnostic
import BoardTrial.Script

/-!
# Sessions

A trial that runs by itself while a host talks to it. The host puts requests into a queue; the trial
takes them one at a time, in the order in which they were put, makes the gesture and gives the
answer. It stops when it concludes, when its time limit is reached, or when the host has left and
nothing is queued; requests still in the queue are lost then. A host may ask for the answer to a
request, and once for the result of the trial.

The state changes only by the small steps of `Session.step`, which may come in any order: the host
may put a request between any two steps of the trial, even after the last, as long as the queue is
there. What a host does (`notify`, `play`, `call`, `settle`, `advance`, `finished`) is made of them.

This module models the task of a session and the handle of its host. What the runtime schedules, the
choice between a request and the time limit among it, is left to the order of events. Not modelled:
the sentence that is shown to a participant, the identifier of a session (a name that its messages
are given from outside), and what is logged.
-/

namespace BoardTrial

/-- A gesture put to a session. -/
structure Request where
  /-- The gesture. -/
  gesture : Gesture
  /-- Whether the host waits for the answer. -/
  wantsAck : Bool

/-- The answer to a request. -/
structure Ack where
  /-- What the gesture did, if something was submitted. -/
  offer : Option Offer
  /-- Whether the trial had concluded then. -/
  concluded : Bool
  deriving DecidableEq

/-- What a trial is doing. -/
inductive Stage where
  /-- It waits for a request, for its time limit, or for the host to leave. -/
  | waiting
  /-- It has taken a request and not made the gesture. -/
  | serving (r : Request)
  /-- It has made the gesture of a request and not answered. -/
  | answering (r : Request) (ack : Ack)
  /-- It takes no more requests, but there is still a queue. -/
  | stopping
  /-- It has stopped, and the queue is gone. -/
  | stopped

namespace Stage

/-- Whether requests can be put into the queue. -/
def isOpen : Stage → Bool
  | stopped => false
  | _ => true

/-- What a trial does next when it has given an answer. -/
def after (ack : Ack) : Stage := if ack.concluded then stopping else waiting

/-- The request that has been taken and is not done with, if there is one. -/
def inHand : Stage → List Request
  | serving r | answering r _ => [r]
  | _ => []

end Stage

/-- A trial and the queue of requests to it. -/
structure Session where
  /-- The trial. -/
  trial : Trial
  /-- The time limit in milliseconds, if there is one. -/
  limit : Option Nat
  /-- What the trial is doing. -/
  stage : Stage := .waiting
  /-- The requests that have been put and not taken. -/
  queue : List Request := []
  /-- How many requests are done with. -/
  served : Nat := 0
  /-- The answers given, each with the number of its request. -/
  acks : List (Nat × Ack) := []
  /-- How much time has passed, in milliseconds. -/
  clock : Nat := 0
  /-- Whether the host is still there. -/
  hosted : Bool := true
  /-- Whether the host has asked for the result. -/
  asked : Bool := false

/-- Why a session does not do what it is asked for. -/
inductive SessionError where
  /-- The session has stopped, or the result has been asked for before. -/
  | closed
  /-- A script cannot be read. -/
  | badScript (e : ScriptError)
  deriving DecidableEq

namespace SessionError

/-- The message for an error of the session named `id`. -/
def message (id : String) : SessionError → String
  | closed => "trial session " ++ id ++ " is closed"
  | badScript e => e.message

end SessionError

namespace Session

/-- A session in which nothing has happened. -/
def start (l : Layout) (r : Rule) (limit : Option Nat) : Session :=
  { trial := .start l r .centers, limit }

/-- The session of the rule that a text says. -/
def ofText (l : Layout) (src : String) (limit : Option Nat) : Except (List Diagnostic) Session :=
  (start l · limit) <$> Rule.read src

/-- The result of the trial, once it has been handed out. -/
def result? (s : Session) : Option TrialResult := s.trial.judge.results.head?

/-- Whether requests can be put into the queue. -/
def isOpen (s : Session) : Bool := s.stage.isOpen

/-- Whether the time limit has been reached. -/
def isDue (s : Session) : Bool := s.limit.any (· ≤ s.clock)

/-! ### Small steps -/

/-- Something that happens to a session. -/
inductive Event where
  /-- The host puts a request into the queue. -/
  | put (r : Request)
  /-- The trial takes the first request of the queue. -/
  | take
  /-- The trial makes the gesture of the request. -/
  | perform
  /-- The trial answers the request, if the host waits for the answer. -/
  | answer
  /-- The trial notices that its time limit has been reached. -/
  | timeOut
  /-- The trial notices that the host has left and nothing is queued. -/
  | abandon
  /-- The queue of a trial that takes no more requests goes, with all that is in it. -/
  | close
  /-- Time passes. -/
  | pass (ms : Nat)
  /-- The host asks for the result. -/
  | ask
  /-- The host leaves. -/
  | leave

/-- Puts a request into the queue, if there is one. -/
def put (s : Session) (r : Request) : Session :=
  if s.isOpen then { s with queue := s.queue ++ [r] } else s

/-- Takes the first request of the queue. -/
def take (s : Session) : Session :=
  match s.stage, s.queue with
  | .waiting, r :: rest => { s with stage := .serving r, queue := rest }
  | _, _ => s

/-- Makes the gesture of the request that has been taken. -/
def perform (s : Session) : Session :=
  match s.stage with
  | .serving r =>
    let reply := s.trial.perform r.gesture
    { s with trial := reply.2, stage := .answering r ⟨reply.1, Trial.isConcluded reply.2⟩ }
  | _ => s

/-- Answers the request whose gesture has been made. No more are taken if that concluded the
trial. -/
def answer (s : Session) : Session :=
  match s.stage with
  | .answering r ack =>
    { s with
      stage := .after ack
      served := s.served + 1
      acks := if r.wantsAck then s.acks ++ [(s.served, ack)] else s.acks }
  | _ => s

/-- Gives the trial up if its time limit has been reached. -/
def timeOut (s : Session) : Session :=
  match s.stage with
  | .waiting => if s.isDue then { s with trial := Trial.expire s.trial, stage := .stopping } else s
  | _ => s

/-- Takes no more requests if the host has left and nothing is queued. -/
def abandon (s : Session) : Session :=
  match s.stage with
  | .waiting => if !s.hosted && s.queue.isEmpty then { s with stage := .stopping } else s
  | _ => s

/-- Drops the queue once no more requests are taken. -/
def close (s : Session) : Session :=
  match s.stage with
  | .stopping => { s with stage := .stopped, queue := [] }
  | _ => s

/-- What happens to a session by one event. An event that cannot happen changes nothing. -/
def step (s : Session) : Event → Session
  | .put r => if s.hosted then s.put r else s
  | .take => s.take
  | .perform => s.perform
  | .answer => s.answer
  | .timeOut => s.timeOut
  | .abandon => s.abandon
  | .close => s.close
  | .pass ms => { s with clock := s.clock + ms }
  | .ask => { s with asked := true }
  | .leave => { s with hosted := false }

/-- What happens to a session by one event after another. -/
def run (s : Session) (es : List Event) : Session := es.foldl step s

/-! ### What a host does -/

/-- Lets the trial serve the first request. -/
def serve (s : Session) : Session := s.run [.take, .perform, .answer]

/-- Lets the trial serve the first `n` requests. -/
def serveMany : Nat → Session → Session
  | 0, s => s
  | n + 1, s => serveMany n s.serve

/-- How many requests have been taken or are queued, and are not done with. -/
def backlog (s : Session) : Nat := s.stage.inHand.length + s.queue.length

/-- Lets the trial serve everything that is queued. -/
def settle (s : Session) : Session := (serveMany s.backlog s).close

/-- Puts gestures into the queue, without waiting for answers. -/
def putAll (s : Session) (gs : List Gesture) : Session := gs.foldl (fun s g => s.put ⟨g, false⟩) s

/-- Puts a gesture into the queue. -/
def notify (s : Session) (g : Gesture) : Except SessionError Session :=
  if s.isOpen then .ok (s.put ⟨g, false⟩) else .error .closed

/-- Puts the gestures of a script into the queue, all or none: how many there were. -/
def play (s : Session) (src : String) : Except SessionError (Nat × Session) :=
  match Script.read src with
  | .error e => .error (.badScript e)
  | .ok [] => .ok (0, s)
  | .ok gs => if s.isOpen then .ok (gs.length, s.putAll gs) else .error .closed

/-- Puts gestures into the queue one after another, without waiting for answers, while other things
happen before each of them. It ends at the first that cannot be put. -/
def notifyAll (s : Session) (amid : Nat → List Event) :
    List Gesture → Except SessionError Unit × Session
  | [] => (.ok (), s)
  | g :: gs =>
    match (s.run (amid 0)).notify g with
    | .error e => (.error e, s.run (amid 0))
    | .ok s' => s'.notifyAll (fun i => amid (i + 1)) gs

/-- Puts the gestures of a script into the queue, while other things happen before each of them: how
many there were. -/
def playAmid (s : Session) (amid : Nat → List Event) (src : String) :
    Except SessionError Nat × Session :=
  match Script.read src with
  | .error e => (.error (.badScript e), s)
  | .ok gs =>
    let after := s.notifyAll amid gs
    (after.1.map fun () => gs.length, after.2)

/-- The number that the next request gets: requests are numbered as they are put. -/
def nextNumber (s : Session) : Nat := s.served + s.backlog

/-- What a host is told that waits for the answer to request number `n`, if anything yet. A request
that is not served before the session stops is lost. -/
def answerTo? (s : Session) (n : Nat) : Option (Except SessionError Ack) :=
  match s.acks.lookup n with
  | some ack => some (.ok ack)
  | none => if s.isOpen then none else some (.error .closed)

/-- What a host is told that waits for the result, if anything yet. A session that stops without a
result has none to tell. -/
def outcome? (s : Session) : Option (Except SessionError TrialResult) :=
  match s.result? with
  | some r => some (.ok r)
  | none => if s.isOpen then none else some (.error .closed)

/-- What a host that asks for the result is told once more events have happened, if anything yet.
Only who asks first waits for the result. -/
def answerToAsk? (s : Session) (es : List Event) : Option (Except SessionError TrialResult) :=
  if s.asked then some (.error .closed) else (s.run (.ask :: es)).outcome?

/-- Puts a gesture into the queue and waits for the answer. -/
def call (s : Session) (g : Gesture) : Except SessionError Ack × Session :=
  let after := (s.put ⟨g, true⟩).settle
  if s.isOpen then ((after.answerTo? s.nextNumber).getD (.error .closed), after)
  else (.error .closed, s)

/-- Lets the trial serve what is queued, and lets time pass. -/
def advance (s : Session) (ms : Nat) : Session := s.settle.run [.pass ms, .timeOut, .close]

/-- Waits until the time limit is reached; without a limit nothing comes of waiting. -/
def waitForLimit (s : Session) : Session :=
  match s.limit with
  | none => s
  | some l => s.run [.pass (l - s.clock), .timeOut, .close]

/-- Waits for the result; there is none if the trial goes on for ever. A result is asked for only
once. -/
def finished (s : Session) : Except SessionError (Option TrialResult) × Session :=
  if s.asked then (.error .closed, s)
  else
    let s := s.settle.waitForLimit.step .ask
    match s.isOpen, s.result? with
    | true, _ => (.ok none, s)
    | false, some r => (.ok (some r), s)
    | false, none => (.error .closed, s)

end Session

end BoardTrial
