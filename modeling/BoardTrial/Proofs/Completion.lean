import BoardTrial.Rule.Completable
import BoardTrial.Proofs.Recognition
import BoardTrial.Proofs.RoundTrip

/-!
# No dead ends

Whatever has been offered to a plan, it can still be satisfied if its rule can be at all
(`Plan.no_dead_end`): as long as it is not satisfied, some interaction is not ignored, and whoever
takes it then has one leaf less to wait for. It need not be the leaf the interaction was meant for.
-/

namespace BoardTrial

open MarkedRule Progress

namespace MarkedRule

/-! ### Leaves to wait for -/

mutual

/-- How many leaves have no mark. -/
def pending : MarkedRule → Nat
  | doNothing => 0
  | leaf _ time => if time.isSome then 0 else 1
  | inOrder ms | inAnyOrder ms => pendingOfAll ms
  | firstOrSecond a b => a.pending + b.pending

/-- How many leaves of several rules have no mark. -/
def pendingOfAll : List MarkedRule → Nat
  | [] => 0
  | m :: ms => m.pending + pendingOfAll ms

end

theorem pendingOfAll_append (ms ks : List MarkedRule) :
    pendingOfAll (ms ++ ks) = pendingOfAll ms + pendingOfAll ks := by
  induction ms with
  | nil => simp [pendingOfAll]
  | cons m ms ih => simp only [List.cons_append, pendingOfAll, ih, Nat.add_assoc]

theorem pendingOfAll_replace_lt (pre post : List MarkedRule) {m m' : MarkedRule}
    (h : m'.pending < m.pending) :
    pendingOfAll (pre ++ m' :: post) < pendingOfAll (pre ++ m :: post) := by
  simp only [pendingOfAll_append, pendingOfAll]
  omega

/-- An offer never takes marks away, and one that is not ignored adds some. -/
theorem Offered.pending {accepts : Interaction → Bool} {now : Nat} {m m' : MarkedRule} {o : Offer}
    (h : Offered accepts now m o m') :
    m'.pending ≤ m.pending ∧ (o ≠ .ignored → m'.pending < m.pending) := by
  induction h with
  | ignored m => exact ⟨Nat.le_refl _, fun ho => absurd rfl ho⟩
  | leaf _ => simp [MarkedRule.pending]
  | @step pre post _ _ _ _ _ hne _ ih =>
    have hlt := pendingOfAll_replace_lt pre post (ih.2 hne)
    exact ⟨Nat.le_of_lt hlt, fun _ => hlt⟩
  | @clause pre post _ _ _ _ hne _ ih =>
    have hlt := pendingOfAll_replace_lt pre post (ih.2 hne)
    exact ⟨Nat.le_of_lt hlt, fun _ => hlt⟩
  | first _ _ _ ih =>
    have hlt := ih.2 (by simp)
    simp only [MarkedRule.pending]
    omega
  | second _ _ _ _ _ iha ihb =>
    have hle := iha.1
    have hlt := ihb.2 (by simp)
    simp only [MarkedRule.pending]
    omega
  | both _ _ _ _ _ _ iha ihb =>
    have hle := iha.1
    have hle' := ihb.1
    simp only [MarkedRule.pending]
    refine ⟨by omega, fun ho => ?_⟩
    rcases Offer.either_ne_ignored ho with hoa | hob
    · have hlt := iha.2 hoa
      omega
    · have hlt := ihb.2 hob
      omega

/-! ### Some interaction is not ignored -/

/-- A rule that is done can be done. -/
theorem isCompletable_of_isDone {m : MarkedRule} (h : m.isDone = true) :
    m.rule.isCompletable = true := by
  induction m with
  | doNothing => cases h
  | leaf i time => rfl
  | inOrder ms ih =>
    rw [rule, Rule.isCompletable, rules_eq_map, Rule.areCompletable_iff, List.forall_mem_map]
    exact fun m hm => ih m hm ((areDone_iff ms).mp h m hm)
  | inAnyOrder ms ih =>
    rw [rule, Rule.isCompletable, rules_eq_map, Rule.areCompletable_iff, List.forall_mem_map]
    exact fun m hm => ih m hm ((areDone_iff ms).mp h m hm)
  | firstOrSecond a b iha ihb =>
    rw [rule, Rule.isCompletable, Bool.or_eq_true]
    rw [isDone, Bool.or_eq_true] at h
    exact h.imp iha ihb

/-- Alternatives do not ignore what one of them does not ignore. -/
theorem offer_firstOrSecond_ne_ignored {accepts : Interaction → Bool} {now : Nat}
    {a b : MarkedRule} (ha : a.isDone = false) (hb : b.isDone = false)
    (h : (offer accepts now a).1 ≠ .ignored ∨ (offer accepts now b).1 ≠ .ignored) :
    (offer accepts now (.firstOrSecond a b)).1 ≠ .ignored := by
  rw [offer_firstOrSecond accepts now ha hb]
  cases hoa : (offer accepts now a).1 <;> cases hob : (offer accepts now b).1 <;>
    simp_all [Offer.either]

/-- **A rule that is not done and can be done waits for some interaction.** -/
theorem exists_not_ignored (now : Nat) {m : MarkedRule} (hc : m.rule.isCompletable = true)
    (hd : m.isDone = false) : ∃ i, (offer (Exact i) now m).1 ≠ .ignored := by
  induction m with
  | doNothing => cases hc
  | leaf i time =>
    obtain rfl : time = none := by simpa [isDone] using hd
    exact ⟨i, by simp [offer]⟩
  | inOrder ms ih =>
    rw [rule, Rule.isCompletable, rules_eq_map, Rule.areCompletable_iff, List.forall_mem_map] at hc
    obtain ⟨pre, m, post, rfl, hpre, hm⟩ := exists_first_not_done hd
    obtain ⟨i, hi⟩ := ih m (by simp) (hc m (by simp)) hm
    refine ⟨i, ?_⟩
    rw [offer, offerNext_append (Exact i) now post hpre hm]
    exact mt (outcome_eq_ignored_iff _ _).mp hi
  | inAnyOrder ms ih =>
    rw [rule, Rule.isCompletable, rules_eq_map, Rule.areCompletable_iff, List.forall_mem_map] at hc
    obtain ⟨pre, m, post, rfl, -, hm⟩ := exists_first_not_done hd
    obtain ⟨i, hi⟩ := ih m (by simp) (hc m (by simp)) hm
    refine ⟨i, ?_⟩
    -- an earlier clause may take what this one waits for
    rcases exists_first_not_ignored (Exact i) now (pre ++ m :: post) with
      hall | ⟨pre', k, post', heq, hpre', hk⟩
    · exact absurd (hall m (by simp)) hi
    · rw [heq, offer, offerSome_append hpre' hk]
      exact mt (outcome_eq_ignored_iff _ _).mp hk
  | firstOrSecond a b iha ihb =>
    obtain ⟨ha, hb⟩ : a.isDone = false ∧ b.isDone = false := by simpa [isDone] using hd
    rw [rule, Rule.isCompletable, Bool.or_eq_true] at hc
    rcases hc with hc | hc
    · obtain ⟨i, hi⟩ := iha hc ha
      exact ⟨i, offer_firstOrSecond_ne_ignored ha hb (.inl hi)⟩
    · obtain ⟨i, hi⟩ := ihb hc hb
      exact ⟨i, offer_firstOrSecond_ne_ignored ha hb (.inr hi)⟩

/-- **A rule that can be done is done by as many interactions as it waits for, or fewer.** -/
theorem exists_completion {m : MarkedRule} (hc : m.rule.isCompletable = true) (now : Nat) :
    ∃ w : List Interaction, w.length ≤ m.pending ∧
      (offerAll Exact m (w.zipIdx now)).isDone = true := by
  by_cases hd : m.isDone = true
  · exact ⟨[], Nat.zero_le _, hd⟩
  obtain ⟨i, hi⟩ := exists_not_ignored now hc (by simpa using hd)
  have hlt := (offered (Exact i) now m).pending.2 hi
  obtain ⟨w, hw, hdone⟩ :=
    exists_completion (m := (offer (Exact i) now m).2) (by rwa [rule_offer]) (now + 1)
  exact ⟨i :: w, Nat.lt_of_le_of_lt hw hlt, hdone⟩
termination_by m.pending

end MarkedRule

/-! ### Open leaves of a plan -/

namespace Progress

variable {plan : Plan} {p : Progress} {h : TimedHistory}

/-- A node that is no leaf is no open leaf. -/
theorem isOpenLeaf_of_interaction?_eq_none {n : Nat} (hn : plan.interaction? n = none) :
    plan.isOpenLeaf p n = false := by
  rw [Plan.isOpenLeaf, hn]
  rfl

mutual

/-- The open leaves among the nodes of a rule are those without a mark. -/
theorem Tells.countP_isOpenLeaf : ∀ {m : MarkedRule} {base : Nat} {counts : Bool},
    plan.Holds base m.rule → p.Tells h base counts m →
    (List.range' base m.width).countP (plan.isOpenLeaf p) = m.pending
  | .doNothing, base, _, hh, _ => by
    have hi : plan.interaction? base = none := by rw [Plan.interaction?, hh.1]
    simp [width, rule, Rule.nodesBelow, MarkedRule.pending, isOpenLeaf_of_interaction?_eq_none hi]
  | .leaf i time, base, _, hh, ht => by
    have hi : plan.interaction? base = some i := by rw [Plan.interaction?, hh.1]
    have hs : p.isSatisfied base = time.isSome := ht.1.1
    cases time <;>
      simp [width, rule, Rule.nodesBelow, MarkedRule.pending, Plan.isOpenLeaf, hi, hs]
  | .inOrder ms, base, _, hh, ht => by
    have hi : plan.interaction? (base + widths ms) = none := by
      rw [Plan.interaction?, show plan.node? (base + widths ms) = _ from hh.2.1]
    have hw : (MarkedRule.inOrder ms).width = widths ms + 1 := rfl
    rw [hw, List.range'_1_concat, List.countP_append, TellsAll.countP_isOpenLeaf hh.1 ht.1,
      List.countP_singleton, isOpenLeaf_of_interaction?_eq_none hi]
    rfl
  | .inAnyOrder ms, base, _, hh, ht => by
    have hi : plan.interaction? (base + widths ms) = none := by
      rw [Plan.interaction?, show plan.node? (base + widths ms) = _ from hh.2.1]
    have hw : (MarkedRule.inAnyOrder ms).width = widths ms + 1 := rfl
    rw [hw, List.range'_1_concat, List.countP_append, TellsAll.countP_isOpenLeaf hh.1 ht.1,
      List.countP_singleton, isOpenLeaf_of_interaction?_eq_none hi]
    rfl
  | .firstOrSecond a b, base, _, hh, ht => by
    have hi : plan.interaction? (base + (a.width + b.width)) = none := by
      rw [← Nat.add_assoc, Plan.interaction?,
        show plan.node? (base + a.width + b.width) = _ from hh.2.2.1]
    have hb : (List.range' (base + a.width) b.width).countP (plan.isOpenLeaf p) = b.pending :=
      Tells.countP_isOpenLeaf (show plan.Holds (base + a.width) b.rule from hh.2.1) ht.2.1
    have hw : (MarkedRule.firstOrSecond a b).width = a.width + b.width + 1 := rfl
    rw [hw, List.range'_1_concat, ← List.range'_append_1, List.countP_append, List.countP_append,
      Tells.countP_isOpenLeaf hh.1 ht.1, hb, List.countP_singleton,
      isOpenLeaf_of_interaction?_eq_none hi]
    rfl

theorem TellsAll.countP_isOpenLeaf : ∀ {ms : List MarkedRule} {base : Nat} {counts : Bool},
    plan.HoldsAll base (rules ms) → p.TellsAll h base counts ms →
    (List.range' base (widths ms)).countP (plan.isOpenLeaf p) = pendingOfAll ms
  | [], _, _, _, _ => rfl
  | m :: ms, base, _, hh, ht => by
    have hms : (List.range' (base + m.width) (widths ms)).countP (plan.isOpenLeaf p)
        = pendingOfAll ms :=
      TellsAll.countP_isOpenLeaf (show plan.HoldsAll (base + m.width) (rules ms) from hh.2) ht.2
    rw [widths_cons, ← List.range'_append_1, List.countP_append,
      Tells.countP_isOpenLeaf hh.1 ht.1, hms, pendingOfAll]

end

end Progress

namespace Plan

/-- The open leaves of a plan are the leaves of its rule without a mark. -/
theorem Runs.length_openLeaves {r : Rule} {now : Nat} {p : Progress} {h : TimedHistory}
    {m : MarkedRule} (hr : Runs r now p h m) : ((ofRule r).openLeaves p).length = m.pending := by
  have hcount := hr.ready.tells.countP_isOpenLeaf hr.ready.holds
  rw [width, hr.rule] at hcount
  rw [openLeaves, size_ofRule, List.range_eq_range', ← List.countP_eq_length_filter, hcount]

/-! ### Finishing a plan -/

/-- Some interactions, none with a release and no more than there are open leaves, get the plan
satisfied from `p` on, whatever the evidence. -/
def CanFinish (plan : Plan) (p : Progress) : Prop :=
  ∃ w : List Interaction, w.length ≤ (plan.openLeaves p).length ∧
    ∀ e, (plan.offerAll e p (w.map .plain)).isSatisfied plan.root = true

/-- A plan whose rule can be done can be finished. -/
theorem Runs.canFinish {r : Rule} {now : Nat} {p : Progress} {h : TimedHistory} {m : MarkedRule}
    (hr : Runs r now p h m) (hc : r.isCompletable = true) : (ofRule r).CanFinish p := by
  obtain ⟨w, hw, hdone⟩ := exists_completion (m := m) (by rwa [hr.rule]) now
  refine ⟨w, by rwa [hr.length_openLeaves], fun e => ?_⟩
  obtain ⟨h', hr'⟩ := hr.offerAll e (w.map .plain)
  rw [hr'.isSatisfied, offerAll_plain, hdone]

end Plan

/-- Every text but that of `nothing` says a rule that can be done. -/
theorem Rule.Canonical.isCompletable {r : Rule} (h : r.Canonical) (hr : r ≠ .doNothing) :
    r.isCompletable = true := by
  have hclause : ∀ {r : Rule}, r.IsClause → r.isCompletable = true := by
    rintro _ (_ | _) <;> rfl
  have hstep : ∀ {r : Rule}, r.IsStep → r.isCompletable = true := by
    rintro _ (hc | ⟨-, hall⟩)
    · exact hclause hc
    · exact (areCompletable_iff _).mpr fun r hr => hclause (hall r hr)
  cases h with
  | doNothing => exact absurd rfl hr
  | step hs => exact hstep hs
  | steps _ hall => exact (areCompletable_iff _).mpr fun r hr => hstep (hall r hr)

namespace Plan

/-- **There are no dead ends.** Whatever has been offered to the plan of a rule that can be done,
the plan can be finished; that of any other rule is not satisfied. The rule of a text can be done
unless it is `nothing`. -/
theorem no_dead_end (r : Rule) (os : List Offering) :
    let p := (ofRule r).offerEach (ofRule r).fresh os
    (r.isCompletable = true → (ofRule r).CanFinish p) ∧
      (r.isCompletable = false → p.isSatisfied (ofRule r).root = false) ∧
      ∀ src, Rule.read src = .ok r → r ≠ .doNothing → (ofRule r).CanFinish p := by
  intro p
  obtain ⟨h, hr⟩ := (runs_fresh r).offerEach os
  refine ⟨hr.canFinish, ?_, ?_⟩
  · intro hc
    rw [hr.isSatisfied, ← Bool.not_eq_true]
    intro hd
    have hc' := isCompletable_of_isDone hd
    rw [hr.rule, hc] at hc'
    cases hc'
  · intro src hsrc hne
    exact hr.canFinish ((Rule.canonical_of_read hsrc).isCompletable hne)

/-- A touch goes to both alternatives. The first cannot be done any more than before; the second
waits for one more touch. -/
example :
    let first : Interaction := .touch ⟨.red, .circle, none⟩
    let second : Interaction := .touch ⟨.black, .circle, none⟩
    let plan := ofRule (.firstOrSecond (.inOrder [.leaf first, .doNothing])
      (.inOrder [.leaf first, .leaf second]))
    let p := plan.offerAll (fun _ _ => false) plan.fresh [.plain first]
    (plan.openLeaves p).length = 1 ∧
      (plan.offerAll (fun _ _ => false) p [.plain second]).isSatisfied plan.root = true := by
  decide +kernel

end Plan

end BoardTrial
