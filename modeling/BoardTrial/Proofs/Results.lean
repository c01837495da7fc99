import BoardTrial.Matching.Matcher
import BoardTrial.Proofs.PlanRuns
import Mathlib.Data.List.Forall2
import Mathlib.Data.List.Nodup

/-!
# Results

A referee that is called again and again takes all submissions until one result is handed out
(`Referee.run_cases`), and then nothing more. A result that says that the rule was satisfied has a
witness among the submissions (`Referee.exists_witness`).
-/

namespace BoardTrial

open MarkedRule

/-- What can be asked of a referee. -/
inductive Call where
  /-- Take a submission. -/
  | submit (s : Submission)
  /-- Give up. -/
  | expire

/-- The submissions among calls. -/
def submissionsOf (calls : List Call) : List Submission :=
  calls.filterMap fun
    | .submit s => some s
    | .expire => none

namespace Matcher

/-- The matcher of a rule after submissions none of which has concluded it. -/
def after (r : Rule) (e : Evidence) (ss : List Submission) : Matcher where
  rule := r
  evidence := e
  plan := Plan.ofRule r
  progress := (Plan.ofRule r).offerAll e (Plan.ofRule r).fresh ss
  submissions := ss.length
  concluded := false

/-- The same matcher once it has been concluded. -/
def conclude (m : Matcher) : Matcher := { m with concluded := true }

/-- What the plan of a rule answers to a submission after others. -/
def answerAfter (r : Rule) (e : Evidence) (ss : List Submission) (s : Submission) : Offer :=
  ((Plan.ofRule r).offer e s (after r e ss).progress).1

/-- A matcher that has not been concluded takes the next submission. -/
theorem submit_after (r : Rule) (e : Evidence) (ss : List Submission) (s : Submission) :
    (after r e ss).submit s =
      if (after r e (ss ++ [s])).isSatisfied then
        ⟨answerAfter r e ss s, some ((after r e (ss ++ [s])).result .satisfied),
          (after r e (ss ++ [s])).conclude⟩
      else ⟨answerAfter r e ss s, none, after r e (ss ++ [s])⟩ := by
  have hnext : after r e (ss ++ [s]) = { after r e ss with
      progress := ((Plan.ofRule r).offer e s (after r e ss).progress).2
      submissions := ss.length + 1 } := by
    simp only [after, Plan.offerAll, List.foldl_append, List.length_append, List.foldl_cons,
      List.foldl_nil, List.length_singleton]
  rw [hnext]
  rfl

theorem expire_after (r : Rule) (e : Evidence) (ss : List Submission) :
    (after r e ss).expire =
      ⟨true, some ((after r e ss).result .expired), (after r e ss).conclude⟩ := rfl

end Matcher

namespace Referee

/-- Does what is asked of it. -/
def call (ref : Referee) : Call → Referee
  | .submit s => (ref.submit s).2
  | .expire => ref.expire.2

/-- Does one thing after another. -/
def run (ref : Referee) (calls : List Call) : Referee := calls.foldl call ref

theorem run_append_singleton (ref : Referee) (calls : List Call) (c : Call) :
    ref.run (calls ++ [c]) = (ref.run calls).call c := by
  rw [run, List.foldl_append, List.foldl_cons, List.foldl_nil, run]

/-- Nothing happens once the matcher is concluded. -/
theorem call_of_concluded {ref : Referee} (h : ref.matcher.concluded = true) (c : Call) :
    ref.call c = ref := by
  cases c with
  | submit s => simp [call, submit, Matcher.submit, h]
  | expire => simp [call, expire, Matcher.expire, h]

/-- The submissions `ss` were taken, and the one result tells that the trial ended so after them. -/
def Concludes (r : Rule) (e : Evidence) (ref : Referee) (ss : List Submission) (o : Outcome) :
    Prop :=
  ref = ⟨(Matcher.after r e ss).conclude, [(Matcher.after r e ss).result o]⟩ ∧
    (o = .satisfied → (Matcher.after r e ss).isSatisfied = true)

/-- What a call does before anything has been concluded. -/
theorem call_after (r : Rule) (e : Evidence) (ss : List Submission) (c : Call) :
    Referee.call ⟨.after r e ss, []⟩ c = ⟨.after r e (ss ++ submissionsOf [c]), []⟩ ∨
      ∃ o, Concludes r e (Referee.call ⟨.after r e ss, []⟩ c) (ss ++ submissionsOf [c]) o := by
  cases c with
  | submit s =>
    have hss : ss ++ submissionsOf [.submit s] = ss ++ [s] := rfl
    rw [hss, call, submit, Matcher.submit_after]
    by_cases hd : (Matcher.after r e (ss ++ [s])).isSatisfied = true
    · rw [if_pos hd]
      exact .inr ⟨.satisfied, rfl, fun _ => hd⟩
    · rw [if_neg hd]
      exact .inl rfl
  | expire =>
    have hss : ss ++ submissionsOf [.expire] = ss := List.append_nil ss
    rw [hss, call, expire, Matcher.expire_after]
    exact .inr ⟨.expired, rfl, by simp⟩

/-- **A referee takes all submissions until it hands out its one result, and nothing after it.** -/
theorem run_cases (r : Rule) (e : Evidence) (calls : List Call) :
    (ofRule r e).run calls = ⟨.after r e (submissionsOf calls), []⟩ ∨
      ∃ ss o, ss <+: submissionsOf calls ∧ Concludes r e ((ofRule r e).run calls) ss o := by
  induction calls using List.reverseRecOn with
  | nil => exact .inl rfl
  | append_singleton calls c ih =>
    have hss : submissionsOf (calls ++ [c]) = submissionsOf calls ++ submissionsOf [c] :=
      List.filterMap_append
    rw [run_append_singleton, hss]
    rcases ih with h | ⟨ss, o, hpre, h⟩
    · rw [h]
      rcases call_after r e (submissionsOf calls) c with hc | ⟨o, hc⟩
      · exact .inl hc
      · exact .inr ⟨_, o, List.prefix_rfl, hc⟩
    · refine .inr ⟨ss, o, hpre.trans (List.prefix_append _ _), ?_⟩
      rwa [call_of_concluded (by rw [h.1]; rfl)]

end Referee

/-! ### Witnesses -/

/-- A submission shows an interaction: it is that interaction, or it is the touch by which the token
acted with was released, and what is known about the release supports the interaction. -/
def Evidence.Shows (e : Evidence) (s : Submission) (i : Interaction) : Prop :=
  s.interaction = i ∨ ∃ rel, s.interaction = .touch i.primary ∧ s.release = some rel ∧
    rel.token = i.primary ∧ i.action.isDirectional = true ∧ e i rel = true

theorem Evidence.shows_of_accepts {e : Evidence} {s : Submission} {i : Interaction}
    (h : e.accepts s i = true) : e.Shows s i := by
  obtain ⟨j, rel⟩ := s
  simp only [accepts, Bool.or_eq_true, beq_iff_eq] at h
  refine h.imp_right fun h => ?_
  split at h
  · rename_i t rel _
    simp only [Bool.and_eq_true, beq_iff_eq] at h
    obtain ⟨⟨⟨hdir, rfl⟩, htok⟩, hshow⟩ := h
    exact ⟨rel, rfl, rfl, htok, hdir, hshow⟩
  · cases h

/-- A list ordered by distinct keys is the only one of its members that is ordered by them. -/
theorem eq_of_perm_of_sorted {α : Type} {key : α → Nat} {l k : List α} (hp : l.Perm k)
    (hl : l.Pairwise fun x y => key x ≤ key y) (hk : k.Pairwise fun x y => key x < key y) :
    l = k := by
  have hinj : (k.map key).Nodup := List.pairwise_map.mpr (hk.imp Nat.ne_of_lt)
  refine hp.eq_of_pairwise ?_ hl (hk.imp Nat.le_of_lt)
  intro x y hx hy hxy hyx
  exact List.inj_on_of_nodup_map hinj (hp.mem_iff.mp hx) hy (Nat.le_antisymm hxy hyx)

namespace Matcher

/-- What a satisfied matcher has accepted performs the rule, and was shown by submissions one after
another. -/
theorem exists_witness_of_isSatisfied {r : Rule} {e : Evidence} {ss : List Submission}
    (h : (after r e ss).isSatisfied = true) :
    r.Performance (after r e ss).accepted ∧ ∃ ps : List Nat, ps.Pairwise (· < ·) ∧
      List.Forall₂ (fun p i => ∃ s, ss[p]? = some s ∧ e.Shows s i) ps (after r e ss).accepted := by
  obtain ⟨_, hr⟩ := Plan.runs_offerAll r e ss
  obtain ⟨ho, hs⟩ := ordered_sourced_offerAll e.accepts r ss
  obtain ⟨v, hperm, hsort, hacc⟩ := hr.exists_sorted_log
  obtain ⟨v', hinc, hperm', hperf⟩ := ho.performed (hr.isSatisfied.symm.trans h)
  obtain rfl := eq_of_perm_of_sorted (hperm.trans hperm'.symm) hsort hinc
  change v.map (·.2) = (after r e ss).accepted at hacc
  rw [hr.rule, hacc] at hperf
  refine ⟨hperf, v.map (·.1), List.pairwise_map.mpr hinc, ?_⟩
  rw [← hacc, List.forall₂_map_left_iff, List.forall₂_map_right_iff, List.forall₂_same]
  intro x hx
  obtain ⟨s, hget, haccepts⟩ := hs x (hperm.mem_iff.mp hx)
  exact ⟨s, hget, Evidence.shows_of_accepts haccepts⟩

end Matcher

namespace Referee

/-- **A result that says that the rule was satisfied has a witness.** If the last of any calls makes
a referee hand out such a result, the interactions it accepted perform the rule, and each was shown
by a submission made up to then, later ones by later submissions. -/
theorem exists_witness {r : Rule} {e : Evidence} {calls : List Call} {c : Call} {res : TrialResult}
    (hres : ((ofRule r e).run (calls ++ [c])).results = ((ofRule r e).run calls).results ++ [res])
    (ho : res.outcome = .satisfied) :
    r.Performance res.accepted ∧ ∃ ps : List Nat, ps.Pairwise (· < ·) ∧
      List.Forall₂ (fun p i => ∃ s, (submissionsOf (calls ++ [c]))[p]? = some s ∧ e.Shows s i) ps
        res.accepted := by
  have hss : submissionsOf (calls ++ [c]) = submissionsOf calls ++ submissionsOf [c] :=
    List.filterMap_append
  rw [run_append_singleton] at hres
  rcases run_cases r e calls with h | ⟨ss, o, -, h⟩
  · rw [h] at hres
    rcases call_after r e (submissionsOf calls) c with hc | ⟨o, hc, hsat⟩
    · rw [hc] at hres
      cases hres
    · rw [hc, ← hss] at hres
      rw [← hss] at hsat
      obtain rfl : _ = res := by simpa using hres
      exact Matcher.exists_witness_of_isSatisfied (hsat ho)
  · rw [call_of_concluded (by rw [h.1]; rfl)] at hres
    simp at hres

/-- A token is touched, and then moved away from another, which its release shows. -/
theorem exists_witness_of_release :
    (Rule.leaf (.moveAwayFrom ⟨.red, .circle, none⟩ ⟨.blue, .square, none⟩)).Performance
        [.moveAwayFrom ⟨.red, .circle, none⟩ ⟨.blue, .square, none⟩] ∧
      ∃ ps : List Nat, ps.Pairwise (· < ·) ∧
        List.Forall₂ (fun p i => ∃ s, (submissionsOf [.submit ⟨.touch ⟨.red, .circle, none⟩, none⟩,
            .submit ⟨.touch ⟨.red, .circle, none⟩,
              some ⟨⟨.red, .circle, none⟩, .zero, .zero, .empty⟩⟩])[p]? = some s ∧
            Evidence.Shows (fun _ _ => true) s i) ps
          [.moveAwayFrom ⟨.red, .circle, none⟩ ⟨.blue, .square, none⟩] :=
  @exists_witness (.leaf (.moveAwayFrom ⟨.red, .circle, none⟩ ⟨.blue, .square, none⟩))
    (fun _ _ => true) [.submit ⟨.touch ⟨.red, .circle, none⟩, none⟩]
    (.submit ⟨.touch ⟨.red, .circle, none⟩,
      some ⟨⟨.red, .circle, none⟩, .zero, .zero, .empty⟩⟩)
    ⟨.leaf (.moveAwayFrom ⟨.red, .circle, none⟩ ⟨.blue, .square, none⟩), .satisfied,
      [.moveAwayFrom ⟨.red, .circle, none⟩ ⟨.blue, .square, none⟩], 2⟩
    (by decide +kernel) rfl

end Referee

end BoardTrial
