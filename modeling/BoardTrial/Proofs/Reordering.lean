import BoardTrial.Proofs.Clauses
import BoardTrial.Proofs.Conclusions
import BoardTrial.Proofs.Recognition
import BoardTrial.RuleText.Diagnostic

/-!
# Doing the clauses of a step in another order

One interaction is enough for any clause of a step, so that what is open after some interactions can
be said without marks (`MarkedRule.IsOpen`): it is what `Rule.openAfter` leaves. A referee of a step
therefore is satisfied when no clause is open, and has ignored nothing if there were as many
interactions as clauses. **Whether these interactions could have come in any order depends on the
step** (`Referee.reorderable_iff_nested`).
-/

namespace BoardTrial

open MarkedRule

/-! ### Clauses that are open -/

namespace MarkedRule

/-- A clause is done, or nothing has happened to it. -/
def Whole (m : MarkedRule) : Prop := m.isDone = true ∨ ∃ c : Rule, c.IsClause ∧ m = ofRule c

/-- The clauses that are not done. -/
def openClauses (ms : List MarkedRule) : List Rule := (ms.filter fun m => !m.isDone).map rule

/-- The clauses `cs` of a step are open. -/
inductive IsOpen : MarkedRule → List Rule → Prop where
  /-- The only clause. -/
  | clause {c : Rule} : c.IsClause → IsOpen (ofRule c) [c]
  /-- None. -/
  | done {m : MarkedRule} : m.isDone = true → IsOpen m []
  /-- Those that are not done. -/
  | clauses {ms : List MarkedRule} : (∀ m ∈ ms, m.Whole) → IsOpen (.inAnyOrder ms) (openClauses ms)

variable {c r : Rule} {cs : List Rule} {m : MarkedRule} {ms : List MarkedRule} {i : Interaction}
  {now : Nat}

/-- Nothing has happened to a clause, so it is not done. -/
theorem isDone_ofRule_clause (hc : c.IsClause) : (ofRule c).isDone = false := by
  cases hc <;> rfl

/-- One interaction that suits a clause completes it. -/
theorem offer_clause (hc : c.IsClause) (hi : i ∈ c.leaves) (now : Nat) :
    (offer (Exact i) now (ofRule c)).1 = .completed := by
  have hleaf : ∀ j, (offer (Exact i) now (.leaf j none)).1 = .completed ↔ i = j := by
    intro j
    by_cases hij : i = j <;> simp [offer, hij]
  cases hc with
  | leaf =>
    rw [ofRule, hleaf]
    simpa [Rule.leaves] using hi
  | alternatives =>
    rw [ofRule, offer_firstOrSecond _ _ rfl rfl]
    simp only [ofRule, hleaf]
    split
    · rfl
    · rename_i hij
      have hik : i ∈ [_, _] := hi
      rw [if_pos (by simpa [hij] using hik)]

/-- An interaction that does not suit a clause is ignored. -/
theorem offer_clause_of_not_mem (hi : i ∉ c.leaves) (now : Nat) :
    offer (Exact i) now (ofRule c) = (.ignored, ofRule c) := by
  refine offer_of_forall_not now fun j hj => ?_
  rw [rule_ofRule] at hj
  exact beq_eq_false_iff_ne.mpr fun hij => hi (hij ▸ hj)

theorem openClauses_cons_of_isDone (ms : List MarkedRule) (h : m.isDone = true) :
    openClauses (m :: ms) = openClauses ms := by
  simp [openClauses, h]

theorem openClauses_cons_ofRule (ms : List MarkedRule) (hc : c.IsClause) :
    openClauses (ofRule c :: ms) = c :: openClauses ms := by
  simp [openClauses, isDone_ofRule_clause hc]

theorem openClauses_eq_nil_iff (ms : List MarkedRule) :
    openClauses ms = [] ↔ areDone ms = true := by
  simp [openClauses, areDone_iff]

theorem openClauses_ofRules (hcs : ∀ c ∈ cs, c.IsClause) : openClauses (ofRules cs) = cs := by
  induction cs with
  | nil => rfl
  | cons c cs ih =>
    obtain ⟨hc, hcs⟩ := List.forall_mem_cons.mp hcs
    rw [ofRules, openClauses_cons_ofRule _ hc, ih hcs]

/-- The first open clause that an interaction suits takes it, and is done. -/
theorem offerSome_whole (hms : ∀ m ∈ ms, m.Whole) (i : Interaction) (now : Nat) :
    ((offerSome (Exact i) now ms).1 = .ignored ↔ ∀ c ∈ openClauses ms, i ∉ c.leaves) ∧
      (∀ m ∈ (offerSome (Exact i) now ms).2, m.Whole) ∧
      openClauses (offerSome (Exact i) now ms).2 = Rule.openAfter (openClauses ms) [i] := by
  induction ms with
  | nil => simp [offerSome, openClauses, Rule.openAfter]
  | cons m ms ih =>
    obtain ⟨hm, hrest⟩ := List.forall_mem_cons.mp hms
    obtain ⟨hign, hwhole, hopen⟩ := ih hrest
    rw [offerSome_cons]
    rcases hm with hd | ⟨c, hc, rfl⟩
    · -- a clause that is done passes the interaction on
      rw [offer_of_isDone _ _ hd, if_pos rfl, openClauses_cons_of_isDone _ hd,
        openClauses_cons_of_isDone _ hd]
      exact ⟨hign, List.forall_mem_cons.mpr ⟨.inl hd, hwhole⟩, hopen⟩
    · rw [openClauses_cons_ofRule _ hc]
      by_cases hi : i ∈ c.leaves
      · have ho := offer_clause hc hi now
        have hd := (isDone_offer_iff (Exact i) now (ofRule c)).mpr (.inr ho)
        rw [ho, if_neg (by simp), openClauses_cons_of_isDone _ hd, Rule.openAfter_cons_cons _ hi]
        exact ⟨by simp [hi], List.forall_mem_cons.mpr ⟨.inl hd, hrest⟩, rfl⟩
      · rw [offer_clause_of_not_mem hi, if_pos rfl, openClauses_cons_ofRule _ hc, hopen]
        refine ⟨by simp [hign, hi], List.forall_mem_cons.mpr ⟨.inr ⟨c, hc, rfl⟩, hwhole⟩, ?_⟩
        simp [Rule.openAfter, hi]

theorem IsOpen.isDone_iff (h : IsOpen m cs) : m.isDone = true ↔ cs = [] := by
  cases h with
  | clause hc => simp [isDone_ofRule_clause hc]
  | done hd => simp [hd]
  | @clauses ms _ => exact (openClauses_eq_nil_iff ms).symm

/-- **An offer closes the first open clause that it suits.** -/
theorem IsOpen.offer (h : IsOpen m cs) (i : Interaction) (now : Nat) :
    ((m.offer (Exact i) now).1 = .ignored ↔ ∀ c ∈ cs, i ∉ c.leaves) ∧
      IsOpen (m.offer (Exact i) now).2 (Rule.openAfter cs [i]) := by
  cases h with
  | @clause c hc =>
    by_cases hi : i ∈ c.leaves
    · have ho := offer_clause hc hi now
      rw [Rule.openAfter_cons_cons _ hi, ho]
      exact ⟨by simp [hi], .done ((isDone_offer_iff _ _ _).mpr (.inr ho))⟩
    · rw [offer_clause_of_not_mem hi, Rule.openAfter_cons_of_not_mem (by simpa using hi)]
      exact ⟨by simp [hi], .clause hc⟩
  | done hd =>
    rw [offer_of_isDone _ _ hd, Rule.openAfter_of_nil]
    exact ⟨by simp, .done hd⟩
  | @clauses ms hms =>
    obtain ⟨hign, hwhole, hopen⟩ := offerSome_whole hms i now
    rw [MarkedRule.offer, ← hopen, ← hign]
    exact ⟨outcome_eq_ignored_iff _ _, .clauses hwhole⟩

theorem IsOpen.offerAll (h : IsOpen m cs) (w : List Interaction) (now : Nat) :
    IsOpen (offerAll Exact m (w.zipIdx now)) (Rule.openAfter cs w) := by
  induction w generalizing m cs now with
  | nil => exact h
  | cons i w ih => exact ih (h.offer i now).2 (now + 1)

/-- All clauses of a step are open at first. -/
theorem isOpen_ofRule (h : r.IsStep) : IsOpen (ofRule r) r.clauses := by
  cases h with
  | clause hc =>
    have hcl : r.clauses = [r] := by cases hc <;> rfl
    rw [hcl]
    exact .clause hc
  | @clauses rs _ hrs =>
    have hwhole : ∀ m ∈ ofRules rs, m.Whole := by
      rw [ofRules_eq_map]
      exact List.forall_mem_map.mpr fun c hc => .inr ⟨c, hrs c hc, rfl⟩
    have hopen := IsOpen.clauses hwhole
    rwa [openClauses_ofRules hrs] at hopen

end MarkedRule

/-! ### Referees of a step -/

namespace Matcher

variable {r : Rule} {e : Evidence}

/-- What a matcher answers to an interaction after others, none with a release. -/
theorem answerAfter_plain (r : Rule) (e : Evidence) (w : List Interaction) (i : Interaction) :
    answerAfter r e (w.map .plain) (.plain i) =
      ((MarkedRule.offerAll Exact (.ofRule r) w.zipIdx).offer (Exact i) w.length).1 := by
  obtain ⟨h, hr⟩ := Plan.runs_offerAll r e (w.map .plain)
  obtain ⟨p, k, hq, -⟩ := hr.offer (e.accepts (.plain i))
  rw [offerAll_plain, Evidence.accepts_plain, List.length_map] at hq
  rw [answerAfter, Plan.offer, Evidence.accepts_plain]
  exact congrArg Prod.fst hq

end Matcher

namespace Referee

/-- The calls that submit interactions, none of which ended in a release. -/
def plainCalls (w : List Interaction) : List Call := w.map fun i => .submit (.plain i)

/-- What a referee answers to interactions one after another. -/
def answers (ref : Referee) : List Interaction → List Offer
  | [] => []
  | i :: w => (ref.submit (.plain i)).1 :: answers (ref.submit (.plain i)).2 w

/-- The referee of a rule hands out one result once interactions have been submitted, and it says
that the rule was satisfied. -/
def SatisfiedBy (r : Rule) (e : Evidence) (w : List Interaction) : Prop :=
  ((ofRule r e).run (plainCalls w)).results.map (·.outcome) = [.satisfied]

/-- The same, and no interaction is ignored. -/
def SatisfiedByAll (r : Rule) (e : Evidence) (w : List Interaction) : Prop :=
  SatisfiedBy r e w ∧ .ignored ∉ (ofRule r e).answers w

instance (r : Rule) (e : Evidence) (w : List Interaction) : Decidable (SatisfiedBy r e w) :=
  inferInstanceAs (Decidable (_ = _))

instance (r : Rule) (e : Evidence) (w : List Interaction) : Decidable (SatisfiedByAll r e w) :=
  inferInstanceAs (Decidable (_ ∧ _))

variable {r : Rule}

theorem submissionsOf_plainCalls (w : List Interaction) :
    submissionsOf (plainCalls w) = w.map .plain := by
  rw [submissionsOf, plainCalls, List.filterMap_map, ← List.filterMap_eq_map]
  rfl

theorem answers_append (ref : Referee) (w : List Interaction) (i : Interaction) :
    ref.answers (w ++ [i]) = ref.answers w ++ [((ref.run (plainCalls w)).submit (.plain i)).1] := by
  induction w generalizing ref with
  | nil => rfl
  | cons j w ih =>
    rw [List.cons_append, answers, answers, ih]
    rfl

/-- Only who gives up hands out a result that says so. -/
theorem outcome_of_mem_results (ref : Referee) (w : List Interaction)
    (h : ∀ res ∈ ref.results, res.outcome = .satisfied) :
    ∀ res ∈ (ref.run (plainCalls w)).results, res.outcome = .satisfied := by
  induction w generalizing ref with
  | nil => exact h
  | cons i w ih =>
    have hreply : ∀ res ∈ (ref.matcher.submit (.plain i)).result, res.outcome = .satisfied := by
      intro res hres
      rw [Matcher.submit] at hres
      split at hres
      · cases hres
      · dsimp only at hres
        split at hres
        · cases hres
          rfl
        · cases hres
    refine ih (ref.submit (.plain i)).2 fun res hres => ?_
    rcases List.mem_append.mp hres with hres | hres
    · exact h res hres
    · exact hreply res (Option.mem_toList.mp hres)

theorem isSatisfied_after_plain_iff (h : r.IsStep) (e : Evidence) (w : List Interaction) :
    (Matcher.after r e (w.map .plain)).isSatisfied = true ↔ Rule.openAfter r.clauses w = [] := by
  have hdone := ((isOpen_ofRule h).offerAll w 0).isDone_iff
  rw [← hdone, ← Plan.isSatisfiedBy_eq r e w]
  rfl

/-- **A referee of a step has concluded when no clause is open.** -/
theorem concluded_iff (h : r.IsStep) (e : Evidence) (w : List Interaction) :
    ((ofRule r e).run (plainCalls w)).matcher.concluded = true ↔
      Rule.openAfter r.clauses w = [] := by
  have hcalls := submissionsOf_plainCalls w
  rw [← isSatisfied_after_plain_iff h e]
  constructor
  · intro hc
    rcases run_cases r e (plainCalls w) with hrun | ⟨ss, o, hpre, hrun, hsat⟩
    · rw [hrun] at hc
      cases hc
    · have hout := outcome_of_mem_results (ofRule r e) w nofun
      rw [hrun, List.forall_mem_singleton] at hout
      obtain ⟨ts, hts⟩ := hpre
      rw [← hcalls, ← hts]
      exact Matcher.isSatisfied_append (hsat hout) ts
  · intro hsat
    by_contra hc
    rw [Bool.not_eq_true] at hc
    have hne : plainCalls w ≠ [] := by
      rintro hnil
      obtain rfl : w = [] := List.map_eq_nil_iff.mp hnil
      exact h.clauses_ne_nil ((isSatisfied_after_plain_iff h e []).mp hsat)
    have hns := not_isSatisfied_of_not_concluded hne hc
    rw [run_of_not_concluded hc, hcalls, hsat] at hns
    cases hns

theorem satisfiedBy_iff (h : r.IsStep) (e : Evidence) (w : List Interaction) :
    SatisfiedBy r e w ↔ Rule.openAfter r.clauses w = [] := by
  obtain ⟨hlen, hc⟩ := results_run r e (plainCalls w)
  have hout := outcome_of_mem_results (ofRule r e) w nofun
  rw [← concluded_iff h e, hc, SatisfiedBy]
  cases hres : ((ofRule r e).run (plainCalls w)).results with
  | nil => simp
  | cons res l =>
    rw [hres] at hlen hout
    obtain rfl : l = [] := List.eq_nil_of_length_eq_zero (by simpa using hlen)
    simpa using hout

/-- A referee of a step ignores an interaction that suits no open clause. -/
theorem submit_eq_ignored_iff (h : r.IsStep) (e : Evidence) (w : List Interaction)
    (i : Interaction) :
    (((ofRule r e).run (plainCalls w)).submit (.plain i)).1 = .ignored ↔
      ∀ c ∈ Rule.openAfter r.clauses w, i ∉ c.leaves := by
  by_cases hc : ((ofRule r e).run (plainCalls w)).matcher.concluded = true
  · rw [(concluded_iff h e w).mp hc, (answers_of_concluded hc).1]
    simp
  · rw [Bool.not_eq_true] at hc
    rw [submit_of_not_concluded hc, submissionsOf_plainCalls, Matcher.answerAfter_plain]
    exact (((isOpen_ofRule h).offerAll w 0).offer i w.length).1

/-- It has ignored nothing if each interaction has closed a clause. -/
theorem ignored_not_mem_answers_iff (h : r.IsStep) (e : Evidence) (w : List Interaction) :
    .ignored ∉ (ofRule r e).answers w ↔
      (Rule.openAfter r.clauses w).length + w.length = r.clauses.length := by
  induction w using List.reverseRecOn with
  | nil => simp [answers]
  | append_singleton w i ih =>
    have hle := Rule.length_le_openAfter r.clauses w
    rw [answers_append, List.mem_append, not_or, ih, List.mem_singleton, @eq_comm Offer,
      submit_eq_ignored_iff h e, Rule.openAfter_append, List.length_append, List.length_singleton]
    rcases Rule.exists_first (Rule.openAfter r.clauses w) i with hnone | ⟨pre, c, post, hcs, hpre, hi⟩
    · rw [Rule.openAfter_cons_of_not_mem hnone, Rule.openAfter_nil]
      exact iff_of_false (fun hno => hno.2 hnone) (by omega)
    · have hsome : ¬ ∀ c ∈ Rule.openAfter r.clauses w, i ∉ c.leaves :=
        fun hall => hall c (by simp [hcs]) hi
      rw [hcs] at hle hsome ⊢
      rw [Rule.openAfter_cons_append hpre hi, Rule.openAfter_nil]
      simp only [hsome, not_false_eq_true, and_true, List.length_append, List.length_cons]
      omega

theorem satisfiedByAll_iff (h : r.IsStep) (e : Evidence) (w : List Interaction) :
    SatisfiedByAll r e w ↔ Rule.openAfter r.clauses w = [] ∧ w.length = r.clauses.length := by
  rw [SatisfiedByAll, satisfiedBy_iff h, ignored_not_mem_answers_iff h]
  refine and_congr_right fun hopen => ?_
  rw [hopen, List.length_nil, Nat.zero_add]

/-- **When the clauses of a step may be done in any order.** Whenever interactions satisfy a step,
and none of them is ignored, they satisfy it in any other order as well: that is so just if each
clause that has a leaf in common with a later one has no leaves that the later one does not have. -/
theorem reorderable_iff_nested (h : r.IsStep) (e : Evidence) :
    (∀ w w', SatisfiedByAll r e w → w'.Perm w → SatisfiedBy r e w') ↔
      r.clauses.Pairwise Rule.Nested := by
  have hleaves : ∀ c ∈ r.clauses, c.leaves ≠ [] := fun c hc => (h.isClause hc).leaves_ne_nil
  rw [Rule.pairwise_nested_iff hleaves]
  simp only [satisfiedByAll_iff h, satisfiedBy_iff h]
  constructor
  · intro hall v w hv hperm
    exact hall v w ⟨hv.openAfter_eq_nil, hv.length_eq.symm⟩ hperm
  · rintro hall w w' ⟨hopen, hlen⟩ hperm
    obtain ⟨v, hv, hvw⟩ := Rule.exists_suits hopen hlen
    exact hall v w' hv (hperm.trans hvw.symm)

/-- A touch, and the same touch or another one, may be done in any order. -/
theorem reorderable_touch_before_alternatives :
    let red : Interaction := .touch ⟨.red, .circle, none⟩
    let black : Interaction := .touch ⟨.black, .circle, none⟩
    let r : Rule := .inAnyOrder [.leaf red, .firstOrSecond (.leaf red) (.leaf black)]
    r.IsStep ∧ ∀ w w', SatisfiedByAll r .centers w → w'.Perm w → SatisfiedBy r .centers w' := by
  intro red black r
  have hstep : r.IsStep :=
    Rule.isStep_pair (.leaf rfl rfl) (.alternatives rfl rfl rfl rfl)
  have hnested : r.clauses.Pairwise Rule.Nested := by
    simp [r, Rule.clauses, Rule.Nested, Rule.leaves]
  exact ⟨hstep, (reorderable_iff_nested hstep .centers).mpr hnested⟩

/-- The other way round it matters which touch comes first: the alternatives take the one that the
second clause needs, and then the other one is ignored. -/
theorem not_reorderable_alternatives_before_touch :
    let red : Interaction := .touch ⟨.red, .circle, none⟩
    let black : Interaction := .touch ⟨.black, .circle, none⟩
    let r : Rule := .inAnyOrder [.firstOrSecond (.leaf red) (.leaf black), .leaf red]
    Rule.read "touch red circle or touch black circle, touch red circle" = .ok r ∧ r.IsStep ∧
      SatisfiedByAll r .centers [black, red] ∧ [red, black].Perm [black, red] ∧
      ¬ SatisfiedBy r .centers [red, black] := by
  intro red black r
  refine ⟨by with_unfolding_all rfl, ?_, by decide +kernel, .swap _ _ _, by decide +kernel⟩
  exact Rule.isStep_pair (.alternatives rfl rfl rfl rfl) (.leaf rfl rfl)

end Referee

end BoardTrial
