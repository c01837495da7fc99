import BoardTrial.Proofs.Endings
import BoardTrial.Proofs.Spacing
import BoardTrial.Proofs.RoundTrip

/-!
# A trial concludes when its rule is completed

A rule that a text says is not satisfied before anything has happened, for no text says a sequence
or a set without parts (`Rule.Canonical.not_isDone`). So a submission concludes a referee of the
rule just when it completes the rule (`Referee.concluded_submit_iff`), a gesture concludes a trial
just when it is answered so, and the answers of a session tell of both or of neither. A trial of
`nothing` goes on until it is given up.
-/

namespace BoardTrial

open MarkedRule Lexeme Grammar

/-! ### Rules before anything has happened -/

namespace Rule

theorem IsClause.not_isDone {r : Rule} (h : r.IsClause) : (MarkedRule.ofRule r).isDone = false := by
  cases h <;> rfl

/-- Several rules are not all done if there are some and none is. -/
theorem not_areDone {rs : List Rule} (hlen : 2 ≤ rs.length)
    (h : ∀ r ∈ rs, (MarkedRule.ofRule r).isDone = false) : areDone (ofRules rs) = false := by
  cases rs with
  | nil => cases hlen
  | cons r rs => rw [ofRules, areDone, h r List.mem_cons_self, Bool.false_and]

theorem IsStep.not_isDone {r : Rule} (h : r.IsStep) : (MarkedRule.ofRule r).isDone = false := by
  cases h with
  | clause h => exact h.not_isDone
  | clauses hlen h => exact not_areDone hlen fun r hr => (h r hr).not_isDone

/-- A rule that a text can say is not done before anything has happened. -/
theorem Canonical.not_isDone {r : Rule} (h : r.Canonical) :
    (MarkedRule.ofRule r).isDone = false := by
  cases h with
  | doNothing => rfl
  | step h => exact h.not_isDone
  | steps hlen h => exact not_areDone hlen fun r hr => (h r hr).not_isDone

/-- `nothing` says `nothing`, whatever blanks and newlines stand around it. -/
theorem read_nothing {u v : List Char} (hu : ∀ c ∈ u, isSpacing c = true ∨ c = '\n')
    (hv : ∀ c ∈ v, isSpacing c = true ∨ c = '\n') :
    Rule.read (String.ofList (u ++ "nothing".toList ++ v)) = .ok .doNothing := by
  have hword : lexemes? "nothing".toList = some [.keyword .nothing] := by decide +kernel
  have hbefore : lexemes? (u ++ "nothing".toList) =
      some (newlines (u.count '\n') ++ [.keyword .nothing]) := by
    have hseam := lexemes?_between (p := []) (q := "nothing".toList) hu
      fun _ => .inl (by simp [Begins])
    rwa [List.nil_append, lexemes?_nil, hword] at hseam
  have hall : lexemes? (u ++ "nothing".toList ++ v) =
      some (newlines (u.count '\n') ++ .keyword .nothing :: newlines (v.count '\n')) := by
    have hseam := lexemes?_between (p := u ++ "nothing".toList) (q := []) hv
      fun _ => .inr (by simp [Ends])
    rw [List.append_nil, hbefore, lexemes?_nil] at hseam
    rw [hseam]
    simp
  exact (read_ofList_eq_ok_iff _ _).mpr ⟨_, hall, .nothing _ _, by simp [leaves]⟩

end Rule

/-- The plan of a rule is satisfied from the start just if the rule leaves nothing to wait for. -/
theorem Plan.isSatisfied_fresh (r : Rule) :
    (Plan.ofRule r).fresh.isSatisfied (Plan.ofRule r).root = (MarkedRule.ofRule r).isDone :=
  (runs_fresh r).isSatisfied

/-! ### Referees -/

namespace Referee

variable {r : Rule} {e : Evidence} {cs : List Call}

/-- A referee that has not concluded is not satisfied, if it was not so from the start. -/
theorem not_isSatisfied (hfresh : (Matcher.ofRule r e).isSatisfied = false)
    (h : ((ofRule r e).run cs).matcher.concluded = false) :
    (Matcher.after r e (submissionsOf cs)).isSatisfied = false := by
  rcases List.eq_nil_or_concat' cs with rfl | ⟨ds, c, rfl⟩
  · exact hfresh
  · have hs := not_isSatisfied_of_not_concluded (by simp) h
    rwa [run_of_not_concluded h] at hs

/-- **A submission concludes the referee just when it completes the rule.** -/
theorem concluded_submit_iff (hfresh : (Matcher.ofRule r e).isSatisfied = false)
    (h : ((ofRule r e).run cs).matcher.concluded = false) (s : Submission) :
    (((ofRule r e).run cs).submit s).2.matcher.concluded = true ↔
      (((ofRule r e).run cs).submit s).1 = .completed := by
  rw [submit_of_not_concluded h, submissionsOf_append_submit, Matcher.answerAfter_eq_completed_iff,
    and_iff_right (not_isSatisfied hfresh h)]
  by_cases hs : (Matcher.after r e (submissionsOf cs ++ [s])).isSatisfied = true
  · simp only [if_pos hs]
    exact iff_of_true rfl hs
  · simp only [if_neg hs]
    exact iff_of_false Bool.false_ne_true hs

/-- **No submissions conclude the referee of `nothing`.** -/
theorem not_concluded_doNothing (e : Evidence) (ss : List Submission) :
    ((ofRule .doNothing e).run (ss.map .submit)).matcher.concluded = false := by
  induction ss using List.reverseRecOn with
  | nil => rfl
  | append_singleton ss s ih =>
    have hiff := concluded_submit_iff rfl ih s
    have hanswer : (((ofRule .doNothing e).run (ss.map .submit)).submit s).1 = .ignored := by
      rw [submit_of_not_concluded ih, Matcher.answerAfter, Plan.offer, Plan.offerAt_nothing rfl]
    rw [hanswer] at hiff
    rw [List.map_append, List.map_singleton, run_append_singleton, ← Bool.not_eq_true]
    exact fun hc => nomatch hiff.mp hc

end Referee

/-! ### Trials -/

namespace Trial

variable {r : Rule} {e : Evidence} {t : Trial}

/-- The judge of the trial is a referee of the rule that has taken submissions. -/
def Judged (r : Rule) (e : Evidence) (t : Trial) : Prop :=
  ∃ ss : List Submission, t.judge = (Referee.ofRule r e).run (ss.map .submit)

theorem judged_start (l : Layout) (r : Rule) (e : Evidence) : (start l r e).Judged r e := ⟨[], rfl⟩

/-- A gesture submits something to the referee, or nothing. -/
theorem Judged.perform (h : t.Judged r e) (g : Gesture) : Judged r e (t.perform g).2 := by
  obtain ⟨ss, hss⟩ := h
  rw [LiveBoard.perform_eq]
  cases (t.recognizer.hear t.board g).2.2 with
  | none => exact ⟨ss, hss⟩
  | some s =>
    refine ⟨ss ++ [s], ?_⟩
    rw [List.map_append, List.map_singleton, Referee.run_append_singleton, ← hss]
    rfl

/-- **Gestures one after another leave the trial with a referee that has taken submissions.** -/
theorem Judged.performAll (h : t.Judged r e) (gs : List Gesture) :
    Judged r e (t.performAll gs) := by
  induction gs generalizing t with
  | nil => exact h
  | cons g gs ih => exact ih (h.perform g)

theorem Judged.makeAll (h : t.Judged r e) (qs : List Request) : Judged r e (t.makeAll qs) := by
  have hmake : t.makeAll qs = t.performAll (qs.map (·.gesture)) := by
    rw [LiveBoard.performAll, List.foldl_map]
    rfl
  rw [hmake]
  exact h.performAll _

/-- **A gesture concludes the trial just when it is answered that it completes the rule.** -/
theorem Judged.isConcluded_perform_iff (h : t.Judged r e)
    (hfresh : (Matcher.ofRule r e).isSatisfied = false) (hc : t.isConcluded = false) (g : Gesture) :
    isConcluded (t.perform g).2 = true ↔ (t.perform g).1 = some .completed := by
  obtain ⟨ss, hss⟩ := h
  rw [LiveBoard.perform_eq]
  cases (t.recognizer.hear t.board g).2.2 with
  | none => exact iff_of_false (by rw [isConcluded] at hc ⊢; simpa using hc) nofun
  | some s =>
    rw [isConcluded, hss] at hc
    have hiff := Referee.concluded_submit_iff hfresh hc s
    rw [← hss] at hiff
    rw [Option.map_some, Option.some.injEq]
    exact hiff

/-- No gestures conclude a trial of `nothing`. -/
theorem Judged.not_isConcluded_doNothing (h : t.Judged .doNothing e) : t.isConcluded = false := by
  obtain ⟨ss, hss⟩ := h
  rw [isConcluded, hss, Referee.not_concluded_doNothing]

end Trial

/-! ### Sessions -/

/-- The answer tells that the trial has concluded just if it tells that the rule is completed. -/
def Ack.Agrees (a : Ack) : Prop := a.concluded = true ↔ a.offer = some .completed

theorem Trial.Judged.agrees_ackAfter {r : Rule} {e : Evidence} {t : Trial} (h : t.Judged r e)
    (hfresh : (Matcher.ofRule r e).isSatisfied = false) {qs : List Request}
    (hc : (t.makeAll qs).isConcluded = false) (q : Request) : (t.ackAfter qs q).Agrees := by
  rw [Ack.Agrees, ackAfter, makeAll_append_singleton]
  exact (h.makeAll qs).isConcluded_perform_iff hfresh hc q.gesture

namespace Session

variable {t : Trial} {r : Rule} {e : Evidence} {rs : List Request} {s : Session}

/-- **All answers given agree.** -/
theorem Serves.agrees (h : Serves t rs s) (ht : t.Judged r e)
    (hfresh : (Matcher.ofRule r e).isSatisfied = false) {i : Nat} {a : Ack}
    (hmem : (i, a) ∈ s.acks) : a.Agrees := by
  obtain ⟨q, hi, -, -, rfl⟩ := (h.mem_acks i a).mp hmem
  exact ht.agrees_ackAfter hfresh (h.last i (Nat.lt_of_lt_of_le hi (Nat.le_add_right _ _))) q

/-- The answer that is to be given agrees, even if no host waits for it. -/
theorem Serves.agrees_of_answering (h : Serves t rs s) (ht : t.Judged r e)
    (hfresh : (Matcher.ofRule r e).isSatisfied = false) {q : Request} {a : Ack}
    (hs : s.stage = .answering q a) : a.Agrees := by
  have hp : s.performed = s.served + 1 := by rw [performed, hs]; rfl
  rw [h.ack q a hs]
  exact ht.agrees_ackAfter hfresh (h.last s.served (by omega)) q

/-- A call tells an answer that has been given. -/
theorem exists_mem_acks_of_call {g : Gesture} {a : Ack} (h : (s.call g).1 = .ok a) :
    ∃ i, (i, a) ∈ (s.call g).2.acks := by
  rw [call] at h ⊢
  split at h
  · rename_i ho
    rw [if_pos ho]
    rw [answerTo?] at h
    split at h
    · rename_i b hb
      obtain rfl : b = a := by simpa using h
      obtain ⟨l, k, hacks, -⟩ := List.lookup_eq_some_iff.mp hb
      exact ⟨s.nextNumber, by simp [hacks]⟩
    · split at h <;> cases h
  · cases h

theorem Serves.agrees_of_call (h : Serves t rs s) (ht : t.Judged r e)
    (hfresh : (Matcher.ofRule r e).isSatisfied = false) (hh : s.hosted = true) {g : Gesture}
    {a : Ack} (ha : (s.call g).1 = .ok a) : a.Agrees := by
  obtain ⟨-, -, hcall, -⟩ := exists_run_of_host hh
  obtain ⟨es, hes⟩ := hcall g
  obtain ⟨i, hi⟩ := exists_mem_acks_of_call ha
  exact (hes ▸ h.run es).agrees ht hfresh hi

/-- **No answer tells that a trial of `nothing` has concluded**, and it can only expire. -/
theorem Serves.doNothing (h : Serves t rs s) (ht : t.Judged .doNothing e)
    (hr : t.judge.Reports .doNothing) :
    (∀ i a, (i, a) ∈ s.acks → a.concluded = false) ∧
      ∀ res, s.result? = some res → res.outcome = .expired := by
  refine ⟨fun i a hmem => ?_, fun res hres => ?_⟩
  · obtain ⟨q, -, -, -, rfl⟩ := (h.mem_acks i a).mp hmem
    exact (ht.makeAll _).not_isConcluded_doNothing
  · have hc := (ht.makeAll (rs.take s.performed)).not_isConcluded_doNothing
    have hreports := Trial.reports_makeAll hr (rs.take s.performed)
    rw [result?] at hres
    rcases h.trial with hs | ⟨-, hs⟩
    · rw [hs, hreports.results, ← Trial.isConcluded, hc] at hres
      cases hres
    · rw [hs, (Trial.expire_of_not_isConcluded hreports hc).1] at hres
      cases hres
      rfl

/-- **In a session concluding and completing coincide.** Let a text say a rule. -/
theorem concludes_iff_completes :
    (∀ src r, Rule.read src = .ok r →
      -- the rule is not satisfied before anything has happened
      (Plan.ofRule r).fresh.isSatisfied (Plan.ofRule r).root = false ∧
      -- a submission concludes a referee that has not concluded just when it completes the rule
      (∀ e cs s, let ref := (Referee.ofRule r e).run cs
        ref.matcher.concluded = false →
          ((ref.submit s).2.matcher.concluded = true ↔ (ref.submit s).1 = .completed)) ∧
      -- so does a gesture conclude a trial
      (∀ l e gs g, let t := (Trial.start l r e).performAll gs
        Trial.isConcluded t = false →
          (Trial.isConcluded (t.perform g).2 = true ↔ (t.perform g).1 = some .completed)) ∧
      -- an answer of a session tells of both or of neither, whatever has happened
      ∀ l limit es, let s := (start l r limit).run es
        (∀ i a, (i, a) ∈ s.acks → (a.concluded = true ↔ a.offer = some .completed)) ∧
        (∀ q a, s.stage = .answering q a → (a.concluded = true ↔ a.offer = some .completed)) ∧
        ∀ g a, s.hosted = true → (s.call g).1 = .ok a →
          (a.concluded = true ↔ a.offer = some .completed)) ∧
    -- `nothing` says `nothing`, whatever blanks and newlines stand around it
    (∀ u v : List Char, (∀ c ∈ u, Lexeme.isSpacing c = true ∨ c = '\n') →
      (∀ c ∈ v, Lexeme.isSpacing c = true ∨ c = '\n') →
      Rule.read (String.ofList (u ++ "nothing".toList ++ v)) = .ok .doNothing) ∧
    -- no gestures conclude a trial of it, and a session of it has no result but that it expired
    (∀ l e gs, Trial.isConcluded ((Trial.start l .doNothing e).performAll gs) = false) ∧
    ∀ l limit es, let s := (start l .doNothing limit).run es
      (∀ i a, (i, a) ∈ s.acks → a.concluded = false) ∧
      ∀ res, s.result? = some res → res.outcome = .expired := by
  refine ⟨fun src r hread => ?_, fun u v => Rule.read_nothing, fun l e gs =>
    ((Trial.judged_start l _ e).performAll gs).not_isConcluded_doNothing, fun l limit es =>
    ((serves_start l .doNothing limit).run es).doNothing (Trial.judged_start l _ _)
      (Trial.reports_start l _ _)⟩
  have hfresh : (Plan.ofRule r).fresh.isSatisfied (Plan.ofRule r).root = false := by
    rw [Plan.isSatisfied_fresh]
    exact (Rule.canonical_of_read hread).not_isDone
  refine ⟨hfresh, fun e cs s hc => Referee.concluded_submit_iff hfresh hc s,
    fun l e gs g hc => ((Trial.judged_start l r e).performAll gs).isConcluded_perform_iff hfresh
      hc g, fun l limit es => ?_⟩
  have hs := (serves_start l r limit).run es
  have ht := Trial.judged_start l r .centers
  exact ⟨fun i a => hs.agrees ht hfresh, fun q a => hs.agrees_of_answering ht hfresh,
    fun g a hh => hs.agrees_of_call ht hfresh hh⟩

end Session

end BoardTrial
