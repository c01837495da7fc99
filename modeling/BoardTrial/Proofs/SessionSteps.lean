import BoardTrial.Session

/-!
# Steps of a session

What an event does to a session (`Session.Happens`) and what comes of it: the requests that the
queue receives, and those whose gestures are made. Every event is one of these cases
(`Session.happens`), so that what all events keep is proved case by case. Gestures are made one at a
time (`Session.Happens.performed`), and none any more once a stage is final (`Session.along_made`).
What a host does is made of events (`Session.exists_run_of_host`).
-/

namespace BoardTrial

namespace Stage

/-- How many gestures have been made for requests that are not done with. -/
def made : Stage → Nat
  | answering _ _ => 1
  | _ => 0

/-- Whether requests are neither taken nor answered any more. -/
def isHalted : Stage → Bool
  | stopping | stopped => true
  | _ => false

/-- Whether no gesture will be made any more. -/
def isFinal : Stage → Bool
  | answering _ ack => ack.concluded
  | stage => stage.isHalted

theorem made_after (a : Ack) : (after a).made = 0 := by
  rw [after]
  split <;> rfl

theorem inHand_after (a : Ack) : (after a).inHand = [] := by
  rw [after]
  split <;> rfl

theorem isFinal_after (a : Ack) : (after a).isFinal = a.concluded := by
  rw [after]
  split <;> simp_all [isFinal, isHalted]

end Stage

namespace Session

variable {s s' : Session} {e : Event}

/-- The requests that the queue receives by an event. -/
def received (s : Session) : Event → List Request
  | .put q => if s.hosted && s.isOpen then [q] else []
  | _ => []

/-- The requests whose gestures are made by an event. -/
def made (s : Session) : Event → List Request
  | .perform => match s.stage with
    | .serving q => [q]
    | _ => []
  | _ => []

/-- What comes of events one after another. -/
def along (f : Session → Event → List Request) (s : Session) : List Event → List Request
  | [] => []
  | e :: es => f s e ++ along f (s.step e) es

theorem run_append (s : Session) (es fs : List Event) :
    s.run (es ++ fs) = (s.run es).run fs :=
  List.foldl_append

/-- How many gestures have been made. -/
def performed (s : Session) : Nat := s.served + s.stage.made

theorem performed_eq_served (hs : s.stage.made = 0) : s.performed = s.served := by
  rw [performed, hs, Nat.add_zero]

/-! ### Events case by case -/

/-- An event happens to a session. -/
inductive Happens : Session → Event → Session → Prop where
  /-- An event that cannot happen changes nothing. -/
  | idle {s : Session} {e : Event} (hr : s.received e = []) (hm : s.made e = []) : Happens s e s
  /-- A request is put behind the others. -/
  | put {s : Session} (q : Request) (hh : s.hosted = true) (ho : s.isOpen = true) :
      Happens s (.put q) { s with queue := s.queue ++ [q] }
  /-- A trial that waits takes the first request. -/
  | take {s : Session} {q : Request} {rest : List Request} (hs : s.stage = .waiting)
      (hq : s.queue = q :: rest) : Happens s .take { s with stage := .serving q, queue := rest }
  /-- The gesture of the request in hand is made. -/
  | perform {s : Session} {q : Request} (hs : s.stage = .serving q) :
      Happens s .perform { s with
        trial := (s.trial.perform q.gesture).2
        stage := .answering q ⟨(s.trial.perform q.gesture).1,
          Trial.isConcluded (s.trial.perform q.gesture).2⟩ }
  /-- The request in hand is answered. -/
  | answer {s : Session} {q : Request} {a : Ack} (hs : s.stage = .answering q a) :
      Happens s .answer { s with
        stage := .after a
        served := s.served + 1
        acks := if q.wantsAck then s.acks ++ [(s.served, a)] else s.acks }
  /-- A trial that waits expires. -/
  | timeOut {s : Session} (hs : s.stage = .waiting) (hd : s.isDue = true) :
      Happens s .timeOut { s with trial := Trial.expire s.trial, stage := .stopping }
  /-- A trial that waits is abandoned. -/
  | abandon {s : Session} (hs : s.stage = .waiting) (hh : s.hosted = false) (hq : s.queue = []) :
      Happens s .abandon { s with stage := .stopping }
  /-- The queue of a trial that has stopped goes. -/
  | close {s : Session} (hs : s.stage = .stopping) :
      Happens s .close { s with stage := .stopped, queue := [] }
  /-- Time passes. -/
  | pass {s : Session} (ms : Nat) : Happens s (.pass ms) { s with clock := s.clock + ms }
  /-- The host asks for the result. -/
  | ask {s : Session} : Happens s .ask { s with asked := true }
  /-- The host leaves. -/
  | leave {s : Session} : Happens s .leave { s with hosted := false }

/-- **Every event is one of the cases.** -/
theorem happens (s : Session) (e : Event) : Happens s e (s.step e) := by
  cases e with
  | put q =>
    rw [step, Session.put]
    split
    · split
      · exact .put q ‹_› ‹_›
      · exact .idle (by simp [received, *]) rfl
    · exact .idle (by simp [received, *]) rfl
  | take =>
    rw [step, Session.take]
    split
    · exact .take ‹_› ‹_›
    · exact .idle rfl rfl
  | perform =>
    rw [step, Session.perform]
    split
    · exact .perform ‹_›
    · rename_i hno
      refine .idle rfl ?_
      rw [made]
      split
      · exact absurd ‹_› (hno _)
      · rfl
  | answer =>
    rw [step, Session.answer]
    split
    · exact .answer ‹_›
    · exact .idle rfl rfl
  | timeOut =>
    rw [step, Session.timeOut]
    split
    · split
      · exact .timeOut ‹_› ‹_›
      · exact .idle rfl rfl
    · exact .idle rfl rfl
  | abandon =>
    rw [step, Session.abandon]
    split
    · split
      · rename_i hs h
        rw [Bool.and_eq_true, Bool.not_eq_true', List.isEmpty_iff] at h
        exact .abandon hs h.1 h.2
      · exact .idle rfl rfl
    · exact .idle rfl rfl
  | close =>
    rw [step, Session.close]
    split
    · exact .close ‹_›
    · exact .idle rfl rfl
  | pass ms => exact .pass ms
  | ask => exact .ask
  | leave => exact .leave

/-! ### Gestures made -/

/-- Gestures are made one at a time, each for the request in hand. -/
theorem Happens.performed (h : Happens s e s') :
    s'.performed = s.performed + (s.made e).length ∧
      (s.made e = [] ∨ ∃ q, s.stage = .serving q ∧ s.made e = [q]) := by
  cases h with
  | idle _ hm => simp [hm]
  | perform hs | take hs | timeOut hs | abandon hs | close hs =>
    simp [Session.performed, made, hs, Stage.made]
  | answer hs =>
    refine ⟨?_, .inl rfl⟩
    rw [Session.performed, Session.performed, Stage.made_after, hs]
    rfl
  | put | pass | ask | leave => simp [Session.performed, made]

/-- No gesture is made at a final stage, and other final stages come after it. -/
theorem Happens.isFinal (h : Happens s e s') (hf : s.stage.isFinal = true) :
    s.made e = [] ∧ s'.stage.isFinal = true := by
  cases h with
  | idle _ hm => exact ⟨hm, hf⟩
  | answer hs =>
    rw [hs, Stage.isFinal] at hf
    exact ⟨rfl, by rw [Stage.isFinal_after, hf]⟩
  | take hs | perform hs | timeOut hs | abandon hs =>
    rw [hs] at hf
    cases hf
  | close => exact ⟨rfl, rfl⟩
  | put | pass | ask | leave => exact ⟨rfl, hf⟩

/-- **At a final stage no events make a gesture any more.** -/
theorem along_made (hf : s.stage.isFinal = true) (es : List Event) : s.along made es = [] := by
  induction es generalizing s with
  | nil => rfl
  | cons e es ih =>
    obtain ⟨hm, hf'⟩ := (happens s e).isFinal hf
    rw [along, hm, ih hf', List.nil_append]

/-! ### A queue that is gone -/

/-- A queue that is gone receives nothing and does not come back. -/
theorem Happens.isOpen (h : Happens s e s') (ho : s.isOpen = false) :
    s.received e = [] ∧ s'.isOpen = false := by
  cases h with
  | idle hr _ => exact ⟨hr, ho⟩
  | put q hh ho' =>
    rw [ho] at ho'
    cases ho'
  | take hs | perform hs | answer hs | timeOut hs | abandon hs | close hs =>
    rw [Session.isOpen, hs] at ho
    cases ho
  | pass | ask | leave => exact ⟨rfl, ho⟩

/-- **Once the queue is gone no request is received any more.** -/
theorem along_received (ho : s.isOpen = false) (es : List Event) : s.along received es = [] := by
  induction es generalizing s with
  | nil => rfl
  | cons e es ih =>
    obtain ⟨hr, ho'⟩ := (happens s e).isOpen ho
    rw [along, hr, ih ho', List.nil_append]

/-! ### What a host does -/

/-- As long as the host is there, putting a request is an event. -/
theorem step_put (hh : s.hosted = true) (q : Request) : s.step (.put q) = s.put q := if_pos hh

theorem putAll_eq_run (hh : s.hosted = true) (gs : List Gesture) :
    s.putAll gs = s.run (gs.map fun g => .put ⟨g, false⟩) := by
  induction gs generalizing s with
  | nil => rfl
  | cons g gs ih =>
    have hh' : (s.put ⟨g, false⟩).hosted = true := by
      rw [Session.put]
      split <;> exact hh
    rw [putAll, List.foldl_cons, ← putAll, ih hh', List.map_cons, run, run, List.foldl_cons,
      step_put hh]

theorem exists_run_serveMany (n : Nat) (s : Session) : ∃ es, serveMany n s = s.run es := by
  induction n generalizing s with
  | zero => exact ⟨[], rfl⟩
  | succ n ih =>
    obtain ⟨es, h⟩ := ih s.serve
    exact ⟨[.take, .perform, .answer] ++ es, by rw [serveMany, h, run_append, serve]⟩

theorem exists_run_settle (s : Session) : ∃ es, s.settle = s.run es := by
  obtain ⟨es, h⟩ := exists_run_serveMany s.backlog s
  exact ⟨es ++ [.close], by rw [settle, h, run_append]; rfl⟩

/-- A call puts its request first. -/
theorem exists_run_call (hh : s.hosted = true) (g : Gesture) (ho : s.isOpen = true) :
    ∃ es, (s.call g).2 = s.run (.put ⟨g, true⟩ :: es) := by
  obtain ⟨es, hes⟩ := exists_run_settle (s.put ⟨g, true⟩)
  refine ⟨es, ?_⟩
  rw [call, if_pos ho, run, List.foldl_cons, step_put hh]
  exact hes

theorem exists_run_finished (s : Session) : ∃ es, s.finished.2 = s.run es := by
  have hwait : ∀ s : Session, ∃ es, s.waitForLimit = s.run es := by
    intro s
    rw [waitForLimit]
    split
    · exact ⟨[], rfl⟩
    · exact ⟨_, rfl⟩
  obtain ⟨es, hes⟩ := exists_run_settle s
  obtain ⟨fs, hfs⟩ := hwait (s.run es)
  rw [finished]
  split
  · exact ⟨[], rfl⟩
  · refine ⟨es ++ fs ++ [.ask], ?_⟩
    rw [run_append, run_append, ← hfs, ← hes]
    dsimp only
    split <;> rfl

/-- **What a host does is made of events.** -/
theorem exists_run_of_host (hh : s.hosted = true) :
    (∀ g s', s.notify g = .ok s' → ∃ es, s' = s.run es) ∧
      (∀ src n s', s.play src = .ok (n, s') → ∃ es, s' = s.run es) ∧
      (∀ g, ∃ es, (s.call g).2 = s.run es) ∧ (∃ es, s.settle = s.run es) ∧
      (∀ ms, ∃ es, s.advance ms = s.run es) ∧ ∃ es, s.finished.2 = s.run es := by
  refine ⟨fun g s' h => ?_, fun src n s' h => ?_, fun g => ?_, exists_run_settle s, fun ms => ?_,
    exists_run_finished s⟩
  · rw [notify] at h
    split at h
    · cases h
      exact ⟨[.put ⟨g, false⟩], (step_put hh _).symm⟩
    · cases h
  · rw [play] at h
    split at h
    · cases h
    · cases h
      exact ⟨[], rfl⟩
    · split at h
      · cases h
        exact ⟨_, putAll_eq_run hh _⟩
      · cases h
  · by_cases ho : s.isOpen = true
    · obtain ⟨es, h⟩ := exists_run_call hh g ho
      exact ⟨_, h⟩
    · exact ⟨[], by rw [call, if_neg ho]; rfl⟩
  · obtain ⟨es, h⟩ := exists_run_settle s
    exact ⟨es ++ [.pass ms, .timeOut, .close], by rw [advance, h, run_append]⟩

end Session

end BoardTrial
