import BoardTrial.Proofs.Conclusions
import BoardTrial.Proofs.Dragging
import BoardTrial.Proofs.Linearization

/-!
# How a session ends

A trial stops in one of three ways (`Session.Stops`): a gesture has concluded it, its time limit is
reached, or its host has left. **It hands out one result in the first two cases and none in the
third, and nothing afterwards** (`Session.ends_once`). So a host that stays and asks for the result
is told it, once there is one, and is never told that the session closed without.
-/

namespace BoardTrial

/-! ### Results of a trial -/

/-- A referee for rule `r` that has not given up has handed out its result just when it has
concluded. -/
structure Referee.Reports (r : Rule) (ref : Referee) : Prop where
  /-- It referees the rule. -/
  rule : ref.matcher.rule = r
  /-- Its only result says that the rule was satisfied. -/
  results : ref.results =
    if ref.matcher.concluded then [ref.matcher.result .satisfied] else []

/-- A submission keeps it so. -/
theorem Referee.Reports.submit {r : Rule} {ref : Referee} (h : ref.Reports r) (s : Submission) :
    (ref.submit s).2.Reports r := by
  obtain ⟨hrule, hres⟩ := h
  rw [Referee.submit, Matcher.submit]
  by_cases hc : ref.matcher.concluded = true
  · rw [if_pos hc]
    exact ⟨hrule, by simpa using hres⟩
  · rw [if_neg hc] at hres ⊢
    dsimp only
    split
    · exact ⟨hrule, by simp [hres, Matcher.result, Matcher.accepted]⟩
    · exact ⟨hrule, by simp [hres, hc]⟩

namespace Trial

theorem reports_start (l : Layout) (r : Rule) (e : Evidence) :
    (start l r e).judge.Reports r := ⟨rfl, rfl⟩

/-- No gesture makes a trial hand out more than its result. -/
theorem reports_perform {r : Rule} {t : Trial} (h : t.judge.Reports r) (g : Gesture) :
    (t.perform g).2.judge.Reports r := by
  rw [LiveBoard.perform_eq]
  cases (t.recognizer.hear t.board g).2.2 with
  | none => exact h
  | some s => exact h.submit s

theorem reports_makeAll {r : Rule} {t : Trial} (h : t.judge.Reports r) (qs : List Request) :
    (t.makeAll qs).judge.Reports r := by
  induction qs generalizing t with
  | nil => exact h
  | cons q qs ih => exact ih (reports_perform h q.gesture)

/-- A trial that has not concluded expires with a result that says so. -/
theorem expire_of_not_isConcluded {r : Rule} {t : Trial} (h : t.judge.Reports r)
    (hc : t.isConcluded = false) :
    t.expire.judge.results = [t.judge.matcher.result .expired] ∧
      t.expire.judge.matcher = t.judge.matcher.conclude := by
  have hres := h.results
  rw [isConcluded] at hc
  rw [hc] at hres
  simp [expire, Referee.expire, Matcher.expire, Matcher.conclude, hc, hres]

/-- A trial that has concluded does not expire. -/
theorem expire_of_isConcluded {t : Trial} (hc : t.isConcluded = true) : t.expire = t := by
  rw [isConcluded] at hc
  simp [expire, Referee.expire, Matcher.expire, hc]

theorem isConcluded_expire (t : Trial) : t.expire.isConcluded = true := by
  cases hc : t.isConcluded with
  | true => rw [expire_of_isConcluded hc, hc]
  | false =>
    rw [isConcluded] at hc
    simp [isConcluded, expire, Referee.expire, Matcher.expire, hc]

end Trial

namespace Stage

variable {stage : Stage}

theorem isHalted_of_not_isOpen (h : stage.isOpen = false) : stage.isHalted = true := by
  cases stage with
  | stopped => rfl
  | _ => cases h

theorem isFinal_of_isHalted (h : stage.isHalted = true) : stage.isFinal = true := by
  cases stage with
  | stopping | stopped => rfl
  | _ => cases h

/-- A trial with no request in hand has stopped, or waits for one. -/
theorem isHalted_or_eq_waiting (h : stage.inHand = []) :
    stage.isHalted = true ∨ stage = waiting := by
  cases stage with
  | waiting => exact .inr rfl
  | stopping | stopped => exact .inl rfl
  | serving | answering => cases h

end Stage

namespace Session

variable {limit : Option Nat} {t : Trial} {r : Rule} {rs : List Request} {s s' : Session}
  {e : Event}

/-! ### Stopping -/

/-- The ways in which the trial of a session stops: by which event, and what it has handed out then.
It was `t` at the start, and the gestures of the requests `qs` have been made. -/
inductive Stops (limit : Option Nat) (t : Trial) (qs : List Request) (s : Session) :
    Event → List TrialResult → Prop where
  /-- The last gesture made has concluded it, and has been answered. -/
  | satisfied {ps : List Request} {q : Request} : qs = ps ++ [q] →
      (t.makeAll ps).isConcluded = false → (t.makeAll qs).isConcluded = true →
      Stops limit t qs s .answer [(t.makeAll qs).judge.matcher.result .satisfied]
  /-- The time limit is reached, and no gesture has concluded it. -/
  | expired {ms : Nat} : limit = some ms → ms ≤ s.clock → (t.makeAll qs).isConcluded = false →
      Stops limit t qs s .timeOut [(t.makeAll qs).judge.matcher.result .expired]
  /-- The host has left, nothing is queued, and no gesture has concluded it. -/
  | abandoned : s.hosted = false → s.queue = [] → (t.makeAll qs).isConcluded = false →
      Stops limit t qs s .abandon []

/-- The answer that is to be given tells whether the trial has concluded. -/
theorem Serves.isConcluded_of_answering (h : Serves t rs s) {q : Request} {a : Ack}
    (hs : s.stage = .answering q a) : Trial.isConcluded s.trial = a.concluded := by
  obtain ⟨-, htake⟩ := h.in_hand (q := q) (by rw [hs]; rfl)
  rw [h.ack q a hs, h.trial_eq (by rw [hs]; rfl), Trial.ackAfter, ← htake, performed, hs]
  rfl

/-- The last gesture made has concluded a trial that stops with an answer. -/
theorem Serves.stops_satisfied (h : Serves t rs s) (hr : t.judge.Reports r) {q : Request} {a : Ack}
    (hs : s.stage = .answering q a) (ha : a.concluded = true) :
    Stops limit t (rs.take s.performed) s .answer s.trial.judge.results := by
  have hp : s.performed = s.served + 1 := by rw [performed, hs]; rfl
  have ht := h.trial_eq (by rw [hs]; rfl)
  have hc : (t.makeAll (rs.take s.performed)).isConcluded = true := by
    rw [← ht, h.isConcluded_of_answering hs, ha]
  obtain ⟨-, htake⟩ := h.in_hand (q := q) (by rw [hs]; rfl)
  have hres := (Trial.reports_makeAll hr (rs.take s.performed)).results
  rw [← Trial.isConcluded, hc, if_pos rfl] at hres
  rw [ht, hres]
  exact .satisfied (hp ▸ htake) (h.last s.served (by omega)) hc

/-- **The trial of a session stops in one of the ways.** -/
theorem Serves.stops (h : Serves t rs s) (hr : t.judge.Reports r) (hl : s.limit = limit)
    (he : Happens s e s') (hs : s.stage.isHalted = false) (hs' : s'.stage.isHalted = true) :
    Stops limit t (rs.take s.performed) s e s'.trial.judge.results := by
  have ht := h.trial_eq hs
  -- a trial that waits has not concluded
  have hwait : s.stage = .waiting → (t.makeAll (rs.take s.performed)).isConcluded = false := by
    intro hw
    rw [← ht]
    exact h.going (by rw [hw]; rfl)
  have hreports := Trial.reports_makeAll hr (rs.take s.performed)
  cases he with
  | answer ha =>
    refine h.stops_satisfied hr ha ?_
    by_contra hc
    rw [Stage.after, if_neg hc] at hs'
    cases hs'
  | timeOut hw hd =>
    rw [ht, (Trial.expire_of_not_isConcluded hreports (hwait hw)).1]
    rw [isDue, hl] at hd
    cases limit with
    | none => cases hd
    | some ms => exact .expired rfl (of_decide_eq_true hd) (hwait hw)
  | abandon hw hh hq =>
    have hres := hreports.results
    rw [← Trial.isConcluded, hwait hw] at hres
    rw [ht, hres]
    exact .abandoned hh hq (hwait hw)
  | close hw =>
    rw [hw] at hs
    cases hs
  | idle | put | pass | ask | leave =>
    rw [hs] at hs'
    cases hs'
  | take | perform => cases hs'

/-! ### Once a trial has stopped -/

/-- At a final stage the trial does not change. -/
theorem Happens.trial_eq (h : Happens s e s') (hf : s.stage.isFinal = true) :
    s'.trial = s.trial := by
  cases h with
  | perform hs | timeOut hs =>
    rw [hs] at hf
    cases hf
  | _ => rfl

/-- **At a final stage no events change the trial any more.** -/
theorem trial_run (hf : s.stage.isFinal = true) (es : List Event) : (s.run es).trial = s.trial := by
  induction es generalizing s with
  | nil => rfl
  | cons e es ih =>
    have he := happens s e
    rw [run, List.foldl_cons, ← run, ih (he.isFinal hf).2, he.trial_eq hf]

/-- A trial that has stopped has concluded, or its host has left; and its limit stays. -/
structure Kept (limit : Option Nat) (s : Session) : Prop where
  /-- The time limit. -/
  limit : s.limit = limit
  /-- Only without a host a trial stops that has not concluded. -/
  stopped : s.stage.isHalted = true → Trial.isConcluded s.trial = true ∨ s.hosted = false

theorem Kept.happens (hk : Kept limit s) (h : Serves t rs s) (he : Happens s e s') :
    Kept limit s' := by
  obtain ⟨hl, hstop⟩ := hk
  cases he with
  | take | perform => exact ⟨hl, nofun⟩
  | @answer q a ha =>
    refine ⟨hl, fun hs => .inl ?_⟩
    rw [h.isConcluded_of_answering ha]
    by_contra hc
    rw [Stage.after, if_neg hc] at hs
    cases hs
  | timeOut => exact ⟨hl, fun _ => .inl (Trial.isConcluded_expire s.trial)⟩
  | abandon _ hh _ => exact ⟨hl, fun _ => .inr hh⟩
  | close hs => exact ⟨hl, fun _ => hstop (by rw [hs]; rfl)⟩
  | idle | put | pass | ask => exact ⟨hl, hstop⟩
  | leave => exact ⟨hl, fun _ => .inr rfl⟩

theorem Kept.run (hk : Kept limit s) (h : Serves t rs s) (es : List Event) :
    Kept limit (s.run es) := by
  induction es generalizing rs s with
  | nil => exact hk
  | cons e es ih => exact ih (hk.happens h (s.happens e)) (h.happens (s.happens e))

/-! ### What is handed out -/

/-- A trial has handed out one result if it has concluded, and otherwise none. -/
theorem Serves.results (h : Serves t rs s) (hr : t.judge.Reports r) :
    Trial.isConcluded s.trial = true ∧
        (∃ o, s.trial.judge.results = [s.trial.judge.matcher.result o]) ∨
      Trial.isConcluded s.trial = false ∧ s.trial.judge.results = [] := by
  have hreports := Trial.reports_makeAll hr (rs.take s.performed)
  have hres := hreports.results
  rw [← Trial.isConcluded] at hres
  cases hc : (t.makeAll (rs.take s.performed)).isConcluded with
  | true =>
    have ht : s.trial = t.makeAll (rs.take s.performed) :=
      h.trial.elim id fun he => he.2.trans (Trial.expire_of_isConcluded hc)
    rw [ht, hres, hc, if_pos rfl]
    exact .inl ⟨rfl, .satisfied, rfl⟩
  | false =>
    rcases h.trial with ht | ⟨-, ht⟩
    · rw [ht, hres, hc]
      exact .inr ⟨rfl, rfl⟩
    · obtain ⟨hres, hm⟩ := Trial.expire_of_not_isConcluded hreports hc
      rw [ht, hres, hm]
      exact .inl ⟨Trial.isConcluded_expire _, .expired, rfl⟩

/-- The result that has been handed out is the only one, and will be. -/
theorem Serves.result?_run (h : Serves t rs s) (hr : t.judge.Reports r) {res : TrialResult}
    (hres : s.result? = some res) :
    s.trial.judge.results = [res] ∧ ∀ es, (s.run es).result? = some res := by
  rw [result?] at hres
  rcases h.results hr with ⟨hc, o, ho⟩ | ⟨-, hnone⟩
  · obtain rfl : _ = res := by simpa [ho] using hres
    exact ⟨ho, fun es => by rw [result?, trial_run (h.isFinal_of_isConcluded hc), hres]⟩
  · simp [hnone] at hres

/-- A host is told no other result. -/
theorem result?_of_outcome? {res : TrialResult} (h : s.outcome? = some (.ok res)) :
    s.result? = some res := by
  rw [outcome?] at h
  split at h
  · rename_i hres
    cases h
    exact hres
  · split at h <;> cases h

/-- A session that stops while its host is there has a result. -/
theorem Serves.outcome?_ne_closed (h : Serves t rs s) (hr : t.judge.Reports r)
    (hk : Kept limit s) (hh : s.hosted = true) : s.outcome? ≠ some (.error .closed) := by
  intro hclosed
  rw [outcome?] at hclosed
  split at hclosed
  · cases hclosed
  · rename_i hnone
    split at hclosed
    · cases hclosed
    · rename_i ho
      have hs := Stage.isHalted_of_not_isOpen (Bool.eq_false_iff.mpr ho)
      have hc := (hk.stopped hs).resolve_right (by simp [hh])
      rcases h.results hr with ⟨-, o, hres⟩ | ⟨hc', -⟩
      · simp [result?, hres] at hnone
      · rw [hc] at hc'
        cases hc'

/-! ### Asking for the result -/

theorem Happens.asked (h : Happens s e s') (ha : s.asked = true) : s'.asked = true := by
  cases h with
  | ask => rfl
  | _ => exact ha

/-- That the result has been asked for is not forgotten. -/
theorem asked_run (ha : s.asked = true) (es : List Event) : (s.run es).asked = true := by
  induction es generalizing s with
  | nil => exact ha
  | cons e es ih => exact ih ((happens s e).asked ha)

/-! ### Waiting for the result -/

/-- A trial that has stopped goes on stopping. -/
theorem Happens.isHalted (h : Happens s e s') (hs : s.stage.isHalted = true) :
    s'.stage.isHalted = true := by
  cases h with
  | take hw | perform hw | answer hw | timeOut hw | abandon hw =>
    rw [hw] at hs
    cases hs
  | close => rfl
  | idle | put | pass | ask | leave => exact hs

theorem isHalted_run (hs : s.stage.isHalted = true) (es : List Event) :
    (s.run es).stage.isHalted = true := by
  induction es generalizing s with
  | nil => exact hs
  | cons e es ih => exact ih ((happens s e).isHalted hs)

/-- After an answer a trial stops, or waits for the next request. -/
theorem answer_cases {q : Request} {a : Ack} (hs : s.stage = .answering q a) :
    s.answer.stage.isHalted = true ∨
      s.answer.stage = .waiting ∧ s.answer.queue = s.queue := by
  rw [answer, hs]
  dsimp only
  rw [Stage.after]
  split
  · exact .inl rfl
  · exact .inr ⟨rfl, rfl⟩

theorem perform_answer_cases {q : Request} (hs : s.stage = .serving q) :
    s.perform.answer.stage.isHalted = true ∨
      s.perform.answer.stage = .waiting ∧ s.perform.answer.queue = s.queue := by
  have hperform : ∃ a, s.perform.stage = .answering q a ∧ s.perform.queue = s.queue := by
    simp [perform, hs]
  obtain ⟨a, hstage, hq⟩ := hperform
  rw [← hq]
  exact answer_cases hstage

/-- A trial that serves stops, or waits and has one request less to serve. -/
theorem serve_cases (s : Session) : s.serve.stage.isHalted = true ∨
    s.serve.stage = .waiting ∧ s.serve.backlog = s.backlog - 1 := by
  have hserve : s.serve = s.take.perform.answer := rfl
  have hbacklog : s.serve.stage = .waiting → s.serve.backlog = s.serve.queue.length := by
    intro hw
    rw [backlog, hw]
    exact Nat.zero_add _
  cases hs : s.stage with
  | waiting =>
    cases hq : s.queue with
    | nil =>
      have hidle : s.serve = s := by simp [hserve, take, perform, answer, hs, hq]
      exact .inr ⟨by rw [hidle, hs], by simp [hidle, backlog, hs, hq, Stage.inHand]⟩
    | cons q rest =>
      have htake : s.take.stage = .serving q ∧ s.take.queue = rest := by simp [take, hs, hq]
      refine (perform_answer_cases htake.1).imp_right fun h => ⟨h.1, ?_⟩
      rw [hbacklog h.1, hserve, h.2, htake.2, backlog, hs, hq]
      simp [Stage.inHand]
  | serving q =>
    have htake : s.take = s := by simp [take, hs]
    rw [hserve, htake] at hbacklog ⊢
    refine (perform_answer_cases hs).imp_right fun h => ⟨h.1, ?_⟩
    rw [hbacklog h.1, h.2, backlog, hs]
    simp [Stage.inHand]
  | answering q a =>
    have htake : s.take.perform = s := by simp [take, perform, hs]
    rw [hserve, htake] at hbacklog ⊢
    refine (answer_cases hs).imp_right fun h => ⟨h.1, ?_⟩
    rw [hbacklog h.1, h.2, backlog, hs]
    simp [Stage.inHand]
  | stopping | stopped =>
    have hidle : s.serve = s := by simp [hserve, take, perform, answer, hs]
    exact .inl (by rw [hidle, hs]; rfl)

/-- A trial that serves all requests stops, or waits with none in the queue. -/
theorem serveMany_cases {n : Nat} (hn : s.backlog ≤ n) :
    (serveMany n s).stage.isHalted = true ∨
      (serveMany n s).stage = .waiting ∧ (serveMany n s).queue = [] := by
  induction n generalizing s with
  | zero =>
    obtain ⟨hhand, hq⟩ : s.stage.inHand = [] ∧ s.queue = [] := by simpa [backlog] using hn
    exact (Stage.isHalted_or_eq_waiting hhand).imp_right fun hs => ⟨hs, hq⟩
  | succ n ih =>
    rcases s.serve_cases with hs | ⟨-, hb⟩
    · obtain ⟨es, hes⟩ := exists_run_serveMany n s.serve
      rw [serveMany, hes]
      exact .inl (isHalted_run hs es)
    · exact ih (by omega)

/-- A trial that has served all requests has stopped, or waits with none in the queue. -/
theorem settle_cases (s : Session) :
    s.settle.stage = .stopped ∨ s.settle.stage = .waiting ∧ s.settle.queue = [] := by
  have hcases := serveMany_cases (s := s) (Nat.le_refl _)
  rw [settle, close]
  cases hs : (serveMany s.backlog s).stage with
  | stopping => exact .inl rfl
  | stopped => exact .inl hs
  | waiting =>
    simp only [hs, Stage.isHalted, Bool.false_eq_true, false_or] at hcases
    exact .inr ⟨hs, hcases.2⟩
  | serving | answering => simp [hs, Stage.isHalted] at hcases

/-- A time limit makes an end of waiting. -/
theorem waitForLimit_cases
    (hs : s.stage = .stopped ∨ s.stage = .waiting ∧ s.queue = []) :
    s.waitForLimit.stage = .stopped ∨
      s.waitForLimit.stage = .waiting ∧ s.waitForLimit.queue = [] ∧ s.limit = none := by
  rw [waitForLimit]
  cases hl : s.limit with
  | none => exact hs.imp_right fun h => ⟨h.1, h.2, rfl⟩
  | some l =>
    left
    rcases hs with hs | ⟨hs, -⟩
    · simp [run, step, timeOut, close, hs]
    · have hdue : l ≤ s.clock + (l - s.clock) := by omega
      simp [run, step, timeOut, close, isDue, hs, hl, hdue]

/-! ### Hosts that stay -/

/-- Only by leaving a host leaves. -/
theorem Happens.hosted (h : Happens s e s') (he : e ≠ .leave) : s'.hosted = s.hosted := by
  cases h with
  | leave => exact absurd rfl he
  | _ => rfl

theorem hosted_run (s : Session) (es : List Event) (hes : .leave ∉ es) :
    (s.run es).hosted = s.hosted := by
  induction es generalizing s with
  | nil => rfl
  | cons e es ih =>
    rw [List.mem_cons, not_or] at hes
    exact (ih (s.step e) hes.2).trans ((s.happens e).hosted (Ne.symm hes.1))

theorem hosted_serveMany (n : Nat) (s : Session) : (serveMany n s).hosted = s.hosted := by
  induction n generalizing s with
  | zero => rfl
  | succ n ih => exact (ih s.serve).trans (hosted_run s _ (by simp))

theorem hosted_settle (s : Session) : s.settle.hosted = s.hosted :=
  (hosted_run _ [.close] (by simp)).trans (hosted_serveMany _ s)

theorem hosted_waitForLimit (s : Session) : s.waitForLimit.hosted = s.hosted := by
  rw [waitForLimit]
  split
  · rfl
  · exact hosted_run s _ (by simp)

/-- The session once a host has waited for the result. -/
theorem finished_snd (ha : s.asked = false) : s.finished.2 = s.settle.waitForLimit.step .ask := by
  rw [finished, if_neg (by simp [ha])]
  dsimp only
  split <;> rfl

/-- What a host is told that waits for the result until the session stops or only waits. -/
theorem finished_fst (ha : s.asked = false) :
    s.finished.1 = if s.finished.2.isOpen then .ok none else
      s.finished.2.result?.elim (.error .closed) fun r => .ok (some r) := by
  rw [finished_snd ha, finished, if_neg (by simp [ha])]
  dsimp only
  split <;> simp_all

/-- Once a host has waited for the result, the session has stopped, or waits for ever. -/
theorem finished_cases (ha : s.asked = false) :
    s.finished.2.stage = .stopped ∨
      s.finished.2.stage = .waiting ∧ s.finished.2.queue = [] ∧ s.settle.limit = none := by
  rw [finished_snd ha]
  exact waitForLimit_cases s.settle_cases

/-- **A host that stays and waits for the result is told it**, unless the session waits for ever. -/
theorem Serves.finished (h : Serves t rs s) (hr : t.judge.Reports r) (hk : Kept limit s)
    (hh : s.hosted = true) (ha : s.asked = false) :
    s.finished.1 = .ok none ∧ limit = none ∧
        s.finished.2.stage = .waiting ∧ s.finished.2.queue = [] ∨
      ∃ res, s.finished.1 = .ok (some res) ∧ s.finished.2.trial.judge.results = [res] := by
  obtain ⟨es, hes⟩ := exists_run_finished s
  have h' := h.run es
  have hk' := hk.run h es
  rw [← hes] at h' hk'
  rcases finished_cases ha with hs | ⟨hs, hq, hl⟩
  · right
    have hh' : s.finished.2.hosted = true := by
      rw [finished_snd ha]
      exact (hosted_waitForLimit _).trans ((hosted_settle s).trans hh)
    have ho : s.finished.2.isOpen = false := by rw [isOpen, hs]; rfl
    have hne := h'.outcome?_ne_closed hr hk' hh'
    cases hres : s.finished.2.result? with
    | none => simp [outcome?, hres, ho] at hne
    | some res =>
      refine ⟨res, ?_, (h'.result?_run hr hres).1⟩
      rw [finished_fst ha, ho, hres]
      rfl
  · left
    obtain ⟨fs, hfs⟩ := exists_run_settle s
    have hlimit := (hk.run h fs).limit
    rw [← hfs, hl] at hlimit
    refine ⟨?_, hlimit.symm, hs, hq⟩
    have ho : s.finished.2.isOpen = true := by rw [isOpen, hs]; rfl
    rw [finished_fst ha, if_pos ho]

/-- A host that has asked for the result is told it no more. -/
theorem finished_of_asked (ha : s.asked = true) : s.finished.1 = .error .closed := by
  rw [Session.finished, if_pos ha]

/-- Who has waited for the result has asked for it. -/
theorem asked_finished (s : Session) : s.finished.2.asked = true := by
  cases ha : s.asked with
  | true => rw [Session.finished, if_pos ha, ha]
  | false =>
    rw [finished_snd ha]
    rfl

/-! ### The session -/

theorem kept_start (l : Layout) (r : Rule) (limit : Option Nat) : Kept limit (start l r limit) :=
  ⟨rfl, nofun⟩

/-- A trial that has not stopped has handed out its result just if a gesture has concluded it. -/
theorem Serves.results_of_not_isHalted (h : Serves t rs s) (hr : t.judge.Reports r)
    (hs : s.stage.isHalted = false) :
    s.trial.judge.results =
      if (t.makeAll (rs.take s.performed)).isConcluded then
        [(t.makeAll (rs.take s.performed)).judge.matcher.result .satisfied]
      else [] := by
  rw [h.trial_eq hs, (Trial.reports_makeAll hr _).results]
  rfl

/-- **A session ends once.** Let requests be put and taken, gestures made, answers given, time pass,
the trial stop and the host leave in any order, from the start on. What hosts do is made of these
events (`Session.exists_run_of_host`). -/
theorem ends_once (l : Layout) (r : Rule) (limit : Option Nat) (es : List Event) :
    let fresh := Trial.start l r .centers
    let s := (start l r limit).run es
    let qs := (start l r limit).along made es
    -- until the trial stops, its result is out just if a gesture has concluded it
    (s.stage.isHalted = false → s.trial.judge.results =
      if (fresh.makeAll qs).isConcluded then [(fresh.makeAll qs).judge.matcher.result .satisfied]
      else []) ∧
    -- it stops in one of the three ways
    (∀ e, s.stage.isHalted = false → (s.step e).stage.isHalted = true →
      Stops limit fresh qs s e (s.step e).trial.judge.results) ∧
    -- nothing is handed out afterwards, so that there is never a second result
    (s.stage.isHalted = true → ∀ fs, (s.run fs).stage.isHalted = true ∧
      (s.run fs).trial.judge.results = s.trial.judge.results) ∧
    s.trial.judge.results.length ≤ 1 ∧
    -- who asks for the result, and stays, is never told that the session closed without
    (s.asked = false → ∀ fs, (s.run (.ask :: fs)).hosted = true →
      s.answerToAsk? fs ≠ some (.error .closed)) ∧
    -- who is told a result is told the only one, and would never be told another
    (∀ fs res, s.answerToAsk? fs = some (.ok res) →
      (s.run (.ask :: fs)).trial.judge.results = [res] ∧
      ∀ gs, s.answerToAsk? (fs ++ gs) = some (.ok res)) ∧
    -- who asks again is told that the session is closed
    (∀ fs gs, (s.run (.ask :: fs)).answerToAsk? gs = some (.error .closed)) ∧
    -- a host that waits for the result waits for ever, or is told the only result
    (s.hosted = true → s.asked = false →
      s.finished.1 = .ok none ∧ limit = none ∧
          s.finished.2.stage = .waiting ∧ s.finished.2.queue = [] ∨
        ∃ res, s.finished.1 = .ok (some res) ∧ s.finished.2.trial.judge.results = [res]) ∧
    (∀ fs, (s.finished.2.run fs).finished.1 = .error .closed) := by
  intro fresh s qs
  have hstart := serves_start l r limit
  have hr : fresh.judge.Reports r := Trial.reports_start l r .centers
  have h : Serves fresh _ s := hstart.run es
  have hk : Kept limit s := (kept_start l r limit).run hstart es
  have hqs : _ = qs := hstart.take_run es
  have hasked : ∀ fs, (s.run (.ask :: fs)).asked = true := fun fs =>
    asked_run (s := s.step .ask) rfl fs
  refine ⟨fun hs => ?_, fun e hs hs' => ?_, fun hs fs => ⟨isHalted_run hs fs, ?_⟩, ?_,
    fun ha fs hh => ?_, fun fs res hres => ?_, fun fs gs => ?_, h.finished hr hk,
    fun fs => finished_of_asked (asked_run (asked_finished s) fs)⟩
  · rw [← hqs]
    exact h.results_of_not_isHalted hr hs
  · rw [← hqs]
    exact h.stops hr hk.limit (s.happens e) hs hs'
  · rw [trial_run (Stage.isFinal_of_isHalted hs)]
  · rcases h.results hr with ⟨-, o, ho⟩ | ⟨-, hnone⟩
    · exact Nat.le_of_eq (congrArg List.length ho)
    · exact hnone ▸ Nat.zero_le 1
  · rw [answerToAsk?, if_neg (by simp [ha])]
    exact (h.run _).outcome?_ne_closed hr (hk.run h _) hh
  · rw [answerToAsk?] at hres
    split at hres
    · cases hres
    · rename_i ha
      obtain ⟨honly, hlater⟩ := (h.run _).result?_run hr (result?_of_outcome? hres)
      refine ⟨honly, fun gs => ?_⟩
      rw [answerToAsk?, if_neg ha, ← List.cons_append, run_append, outcome?, hlater gs]
  · rw [answerToAsk?, if_pos (hasked fs)]

end Session

end BoardTrial
