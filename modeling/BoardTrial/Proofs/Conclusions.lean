import BoardTrial.Proofs.Results

/-!
# Conclusions

A referee is asked to take submissions and to give up, in any order. **It concludes at most once**
(`Referee.concludes_once`): by the first submission that leaves its rule satisfied, or by giving up
before there is one. The call that concludes it hands out the one result, and whatever is asked of
the referee afterwards changes nothing. A rule without leaves may be satisfied from the start; then
the first submission concludes it, though it is ignored.

Submissions with a release and without are the same call, `Call.submit`.
-/

namespace BoardTrial

open MarkedRule

theorem submissionsOf_append_submit (cs : List Call) (s : Submission) :
    submissionsOf (cs ++ [.submit s]) = submissionsOf cs ++ [s] :=
  List.filterMap_append

namespace Matcher

variable {r : Rule} {e : Evidence}

/-- A matcher answers as the marked rule does, and is satisfied when that is done. -/
theorem exists_marked (r : Rule) (e : Evidence) (ss : List Submission) :
    ∃ m : MarkedRule, (after r e ss).isSatisfied = m.isDone ∧
      ∀ s, answerAfter r e ss s = (m.offer (e.accepts s) ss.length).1 ∧
        (after r e (ss ++ [s])).isSatisfied = (m.offer (e.accepts s) ss.length).2.isDone := by
  obtain ⟨h, hr⟩ := Plan.runs_offerAll r e ss
  refine ⟨_, hr.isSatisfied, fun s => ?_⟩
  obtain ⟨p, k, hq, hr'⟩ := hr.offer (e.accepts s)
  have hp : (after r e (ss ++ [s])).progress = p := by
    simp only [after, Plan.offerAll, List.foldl_append]
    exact congrArg Prod.snd hq
  refine ⟨congrArg Prod.fst hq, ?_⟩
  rw [← hr'.isSatisfied, ← hp]
  rfl

/-- A satisfied matcher ignores what it takes, and stays satisfied. -/
theorem answerAfter_of_isSatisfied {ss : List Submission} (h : (after r e ss).isSatisfied = true)
    (s : Submission) :
    answerAfter r e ss s = .ignored ∧ (after r e (ss ++ [s])).isSatisfied = true := by
  obtain ⟨m, hm, hs⟩ := exists_marked r e ss
  have hd : m.isDone = true := hm.symm.trans h
  rw [(hs s).1, (hs s).2, offer_of_isDone _ _ hd]
  exact ⟨rfl, hd⟩

/-- A satisfied matcher is satisfied after any submissions. -/
theorem isSatisfied_append {ss : List Submission} (h : (after r e ss).isSatisfied = true)
    (ts : List Submission) : (after r e (ss ++ ts)).isSatisfied = true := by
  induction ts using List.reverseRecOn with
  | nil => rwa [List.append_nil]
  | append_singleton ts s ih =>
    rw [← List.append_assoc]
    exact (answerAfter_of_isSatisfied ih s).2

/-- A matcher that is satisfied from the start is satisfied after any submissions. -/
theorem isSatisfied_after (h : (ofRule r e).isSatisfied = true) (ss : List Submission) :
    (after r e ss).isSatisfied = true :=
  @isSatisfied_append r e [] h ss

/-- A submission completes the rule just when it satisfies a matcher that was not satisfied. -/
theorem answerAfter_eq_completed_iff (r : Rule) (e : Evidence) (ss : List Submission)
    (s : Submission) : answerAfter r e ss s = .completed ↔
      (after r e ss).isSatisfied = false ∧ (after r e (ss ++ [s])).isSatisfied = true := by
  obtain ⟨m, hm, hs⟩ := exists_marked r e ss
  have hdone := isDone_offer_iff (e.accepts s) ss.length m
  rw [(hs s).1, (hs s).2, hm]
  cases hd : m.isDone with
  | true => simp [offer_of_isDone _ _ hd]
  | false => simpa [hd] using hdone.symm

end Matcher

namespace Referee

variable {r : Rule} {e : Evidence} {cs : List Call}

/-- A referee that has concluded stays as it is, whatever is asked of it. -/
theorem run_of_concluded {ref : Referee} (h : ref.matcher.concluded = true) (cs : List Call) :
    ref.run cs = ref := by
  induction cs with
  | nil => rfl
  | cons c cs ih => rw [run, List.foldl_cons, call_of_concluded h, ← run, ih]

/-- Once it has concluded a referee ignores submissions, and does not give up. -/
theorem answers_of_concluded {ref : Referee} (h : ref.matcher.concluded = true) :
    (∀ s, (ref.submit s).1 = .ignored) ∧ ref.expire.1 = false := by
  simp [submit, expire, Matcher.submit, Matcher.expire, h]

/-- A referee gives up unless it has concluded, and that leaves its progress as it was. -/
theorem expire_keeps (ref : Referee) :
    ref.expire.1 = !ref.matcher.concluded ∧
      ref.expire.2.matcher.progress = ref.matcher.progress := by
  rw [expire, Matcher.expire]
  split <;> simp_all

/-- A referee has handed out one result if it has concluded, and otherwise none. -/
theorem results_run (r : Rule) (e : Evidence) (cs : List Call) :
    ((ofRule r e).run cs).results.length ≤ 1 ∧
      (((ofRule r e).run cs).matcher.concluded = true ↔ ((ofRule r e).run cs).results ≠ []) := by
  rcases run_cases r e cs with h | ⟨ss, o, -, h, -⟩ <;> rw [h] <;>
    simp [Matcher.after, Matcher.conclude]

/-- A referee that has not concluded has taken all submissions. -/
theorem run_of_not_concluded (h : ((ofRule r e).run cs).matcher.concluded = false) :
    (ofRule r e).run cs = ⟨.after r e (submissionsOf cs), []⟩ := by
  rcases run_cases r e cs with hc | ⟨ss, o, -, hc, -⟩
  · exact hc
  · rw [hc] at h
    cases h

/-- A referee that has concluded had done so before, or does so by the last call. -/
theorem not_concluded_of_append {ds : List Call}
    (h : ((ofRule r e).run (cs ++ ds)).matcher.concluded = false) :
    ((ofRule r e).run cs).matcher.concluded = false := by
  rw [← Bool.not_eq_true]
  intro hc
  rw [run, List.foldl_append, ← run, ← run, run_of_concluded hc, hc] at h
  cases h

/-- Before it has concluded a referee takes a submission as its matcher does. -/
theorem submit_of_not_concluded (h : ((ofRule r e).run cs).matcher.concluded = false)
    (s : Submission) : ((ofRule r e).run cs).submit s =
      (Matcher.answerAfter r e (submissionsOf cs) s,
        if (Matcher.after r e (submissionsOf (cs ++ [.submit s]))).isSatisfied then
          ⟨(Matcher.after r e (submissionsOf (cs ++ [.submit s]))).conclude,
            [(Matcher.after r e (submissionsOf (cs ++ [.submit s]))).result .satisfied]⟩
        else ⟨.after r e (submissionsOf (cs ++ [.submit s])), []⟩) := by
  rw [run_of_not_concluded h, submit, Matcher.submit_after, submissionsOf_append_submit]
  split <;> rfl

/-- Before it has concluded a referee gives up as its matcher does. -/
theorem expire_of_not_concluded (h : ((ofRule r e).run cs).matcher.concluded = false) :
    ((ofRule r e).run cs).expire = (true, ⟨(Matcher.after r e (submissionsOf cs)).conclude,
      [(Matcher.after r e (submissionsOf cs)).result .expired]⟩) := by
  rw [run_of_not_concluded h, expire, Matcher.expire_after]
  rfl

/-- **A referee that has been asked for something and has not concluded is not satisfied.** -/
theorem not_isSatisfied_of_not_concluded (hne : cs ≠ [])
    (h : ((ofRule r e).run cs).matcher.concluded = false) :
    ((ofRule r e).run cs).matcher.isSatisfied = false := by
  rcases List.eq_nil_or_concat' cs with rfl | ⟨cs, c, rfl⟩
  · exact absurd rfl hne
  have hcs := not_concluded_of_append h
  rw [run_append_singleton] at h ⊢
  cases c with
  | submit s =>
    rw [call, submit_of_not_concluded hcs] at h ⊢
    split at h
    · cases h
    · rename_i hs
      rw [if_neg hs]
      exact Bool.eq_false_iff.mpr hs
  | expire =>
    rw [call, expire_of_not_concluded hcs] at h
    cases h

/-! ### Handing out the result -/

/-- The call `c` after the calls `cs` makes the referee of a rule hand out a result. -/
def HandsOut (r : Rule) (e : Evidence) (cs : List Call) (c : Call) (res : TrialResult) : Prop :=
  ((ofRule r e).run (cs ++ [c])).results = ((ofRule r e).run cs).results ++ [res]

/-- No call makes a referee that has concluded hand out a result. -/
theorem HandsOut.not_concluded {c : Call} {res : TrialResult} (h : HandsOut r e cs c res) :
    ((ofRule r e).run cs).matcher.concluded = false := by
  rw [← Bool.not_eq_true]
  intro hc
  rw [HandsOut, run_append_singleton, call_of_concluded hc] at h
  simp at h

/-- The result after a submission says that the rule was satisfied. It is handed out if that is so
and the referee had not concluded before. -/
theorem handsOut_submit_iff (s : Submission) (res : TrialResult) :
    HandsOut r e cs (.submit s) res ↔
      ((ofRule r e).run cs).matcher.concluded = false ∧
        ((ofRule r e).run (cs ++ [.submit s])).matcher.isSatisfied = true ∧
        res = ⟨r, .satisfied, ((ofRule r e).run (cs ++ [.submit s])).matcher.accepted,
          (submissionsOf (cs ++ [.submit s])).length⟩ := by
  constructor
  · intro h
    have hc := h.not_concluded
    rw [HandsOut, run_of_not_concluded hc] at h
    rw [run_append_singleton, call, submit_of_not_concluded hc] at h ⊢
    split at h
    · rename_i hs
      rw [if_pos hs]
      obtain rfl : _ = res := by simpa using h
      exact ⟨hc, hs, rfl⟩
    · simp at h
  · rintro ⟨hc, hs, rfl⟩
    rw [HandsOut, run_of_not_concluded hc]
    rw [run_append_singleton, call, submit_of_not_concluded hc] at hs ⊢
    split at hs
    · rename_i hs'
      rw [if_pos hs']
      rfl
    · exact absurd hs ‹_›

/-- The result after giving up says that the trial expired, and what had counted until then. It is
handed out if the referee had not concluded before. -/
theorem handsOut_expire_iff (res : TrialResult) :
    HandsOut r e cs .expire res ↔
      ((ofRule r e).run cs).matcher.concluded = false ∧
        res = ⟨r, .expired, ((ofRule r e).run cs).matcher.accepted,
          (submissionsOf (cs ++ [.expire])).length⟩ := by
  have hss : submissionsOf (cs ++ [.expire]) = submissionsOf cs := by
    simp [submissionsOf, List.filterMap_append]
  constructor
  · intro h
    have hc := h.not_concluded
    rw [HandsOut, run_append_singleton, call, expire_of_not_concluded hc,
      run_of_not_concluded hc] at h
    rw [hss, run_of_not_concluded hc]
    obtain rfl : _ = res := by simpa using h
    exact ⟨rfl, rfl⟩
  · rintro ⟨hc, rfl⟩
    rw [HandsOut, run_append_singleton, call, expire_of_not_concluded hc, hss,
      run_of_not_concluded hc]
    rfl

/-- The submission that concludes a referee is the first that leaves it satisfied. It completes the
rule, unless that was satisfied from the start; then it is the first call, and ignored. -/
theorem HandsOut.first {s : Submission} {res : TrialResult} (h : HandsOut r e cs (.submit s) res) :
    (∀ ds t, ds ++ [.submit t] <+: cs →
        ((ofRule r e).run (ds ++ [.submit t])).matcher.isSatisfied = false) ∧
      if (ofRule r e).matcher.isSatisfied then
        cs = [] ∧ (((ofRule r e).run cs).submit s).1 = .ignored
      else (((ofRule r e).run cs).submit s).1 = .completed := by
  have hc := h.not_concluded
  have hrun := run_of_not_concluded hc
  constructor
  · rintro ds t ⟨ks, rfl⟩
    exact not_isSatisfied_of_not_concluded (by simp) (not_concluded_of_append hc)
  have hlate : cs ≠ [] → (Matcher.after r e (submissionsOf cs)).isSatisfied = false := by
    intro hne
    have hns := not_isSatisfied_of_not_concluded hne hc
    rwa [hrun] at hns
  rw [submit_of_not_concluded hc]
  split
  · rename_i hsat
    have hs := Matcher.isSatisfied_after hsat (submissionsOf cs)
    refine ⟨?_, (Matcher.answerAfter_of_isSatisfied hs s).1⟩
    by_contra hne
    rw [hlate hne] at hs
    cases hs
  · rename_i hsat
    rw [Matcher.answerAfter_eq_completed_iff, ← submissionsOf_append_submit]
    constructor
    · by_cases hne : cs = []
      · subst hne
        exact Bool.eq_false_iff.mpr hsat
      · exact hlate hne
    · have hs := ((handsOut_submit_iff s res).mp h).2.1
      rw [run_append_singleton, call, submit_of_not_concluded hc] at hs
      split at hs
      · assumption
      · exact hs

/-- A submission that completes the rule makes the referee hand out its result. -/
theorem exists_handsOut_of_completed {s : Submission}
    (h : (((ofRule r e).run cs).submit s).1 = .completed) :
    ∃ res, HandsOut r e cs (.submit s) res := by
  have hc : ((ofRule r e).run cs).matcher.concluded = false := by
    rw [← Bool.not_eq_true]
    intro hc
    rw [(answers_of_concluded hc).1] at h
    cases h
  rw [submit_of_not_concluded hc, Matcher.answerAfter_eq_completed_iff,
    ← submissionsOf_append_submit] at h
  refine ⟨_, (handsOut_submit_iff s _).mpr ⟨hc, ?_, rfl⟩⟩
  rw [run_append_singleton, call, submit_of_not_concluded hc, if_pos h.2]
  exact h.2

/-- **A referee concludes at most once, and then freezes.** Whatever it has been asked, it has
handed out at most one result, and has concluded if it has handed out one. -/
theorem concludes_once (r : Rule) (e : Evidence) (cs : List Call) :
    let ref := (ofRule r e).run cs
    (ref.results.length ≤ 1 ∧ (ref.matcher.concluded = true ↔ ref.results ≠ [])) ∧
    -- nothing changes any more once it has concluded
    (ref.matcher.concluded = true →
      (∀ ds, ref.run ds = ref) ∧ (∀ s, (ref.submit s).1 = .ignored) ∧ ref.expire.1 = false) ∧
    -- a submission concludes it that leaves the rule satisfied
    (∀ s res, HandsOut r e cs (.submit s) res ↔
      ref.matcher.concluded = false ∧
        ((ofRule r e).run (cs ++ [.submit s])).matcher.isSatisfied = true ∧
        res = ⟨r, .satisfied, ((ofRule r e).run (cs ++ [.submit s])).matcher.accepted,
          (submissionsOf (cs ++ [.submit s])).length⟩) ∧
    -- it is the first such, and completes the rule or is the first of all
    (∀ s res, HandsOut r e cs (.submit s) res →
      (∀ ds t, ds ++ [.submit t] <+: cs →
        ((ofRule r e).run (ds ++ [.submit t])).matcher.isSatisfied = false) ∧
      if (ofRule r e).matcher.isSatisfied then cs = [] ∧ (ref.submit s).1 = .ignored
      else (ref.submit s).1 = .completed) ∧
    (∀ s, (ref.submit s).1 = .completed → ∃ res, HandsOut r e cs (.submit s) res) ∧
    -- giving up concludes it as it stands
    (∀ res, HandsOut r e cs .expire res ↔
      ref.matcher.concluded = false ∧
        res = ⟨r, .expired, ref.matcher.accepted, (submissionsOf (cs ++ [.expire])).length⟩) ∧
    ref.expire.1 = !ref.matcher.concluded ∧
    ref.expire.2.matcher.progress = ref.matcher.progress := by
  intro ref
  exact ⟨results_run r e cs, fun hc => ⟨run_of_concluded hc, answers_of_concluded hc⟩,
    handsOut_submit_iff, fun s res h => h.first, fun s h => exists_handsOut_of_completed h,
    handsOut_expire_iff, expire_keeps ref⟩

/-- A sequence of no steps is satisfied from the start. The first submission concludes it, whatever
it is, and is ignored. -/
example :
    let s : Submission := ⟨.touch ⟨.red, .circle, none⟩, none⟩
    let reply := (ofRule (.inOrder []) fun _ _ => false).submit s
    reply.1 = .ignored ∧ reply.2.results = [⟨.inOrder [], .satisfied, [], 1⟩] := by
  decide +kernel

end Referee

end BoardTrial
