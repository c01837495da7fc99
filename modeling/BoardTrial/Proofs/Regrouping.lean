import BoardTrial.Rule.Context
import BoardTrial.RuleText.Draft
import BoardTrial.Proofs.Growth
import BoardTrial.Proofs.LoggedRule

/-!
# Regrouping

Steps of steps are steps, clauses of clauses are clauses, alternatives of alternatives are
alternatives, and one step or clause is no more than itself. Two marked rules that differ in one
such place (`MarkedRule.Regrouped`) are done alike and have the same log, and an offer, which is
answered alike, leaves them so. As the plans of both rules follow the marked rules, **regrouping a
part of a rule does not change what it matches** (`Rule.regrouping`), though all numbers change.
-/

namespace BoardTrial

namespace Offer

theorem either_assoc (a b c : Offer) : (a.either b).either c = a.either (b.either c) := by
  cases a <;> cases b <;> cases c <;> rfl

end Offer

namespace MarkedRule

/-! ### Offers to the members of a list -/

section

variable (accepts : Interaction → Bool) (now : Nat)

theorem offer_inOrder (ms : List MarkedRule) : offer accepts now (.inOrder ms) =
    (outcome (offerNext accepts now ms).1 (areDone (offerNext accepts now ms).2),
      .inOrder (offerNext accepts now ms).2) := by
  rw [offer]

theorem offer_inAnyOrder (ms : List MarkedRule) : offer accepts now (.inAnyOrder ms) =
    (outcome (offerSome accepts now ms).1 (areDone (offerSome accepts now ms).2),
      .inAnyOrder (offerSome accepts now ms).2) := by
  rw [offer]

/-- What an offer did to a rule says whether the rule is done now. -/
theorem outcome_offer (m : MarkedRule) :
    outcome (offer accepts now m).1 (offer accepts now m).2.isDone = (offer accepts now m).1 := by
  by_cases ho : (offer accepts now m).1 = .ignored
  · rw [ho]
    rfl
  have hd := isDone_offer_iff accepts now m
  have hm : m.isDone = false := (offered accepts now m).not_isDone ho
  cases hoff : (offer accepts now m).1 <;> simp_all [outcome]

end

theorem outcome_outcome (o : Offer) (d d' : Bool) : outcome (outcome o d) d' = outcome o d' := by
  cases o <;> cases d <;> cases d' <;> rfl

/-! ### Rules that differ in one place -/

/-- The second rule is the first, with one part regrouped. -/
inductive Regrouped : MarkedRule → MarkedRule → Prop where
  /-- One step is no more than itself. -/
  | step (m : MarkedRule) : Regrouped (.inOrder [m]) m
  /-- One clause is no more than itself. -/
  | clause (m : MarkedRule) : Regrouped (.inAnyOrder [m]) m
  /-- Steps of steps are steps. -/
  | steps (xs ys zs : List MarkedRule) :
      Regrouped (.inOrder (xs ++ .inOrder ys :: zs)) (.inOrder (xs ++ (ys ++ zs)))
  /-- Clauses of clauses are clauses. -/
  | clauses (xs ys zs : List MarkedRule) :
      Regrouped (.inAnyOrder (xs ++ .inAnyOrder ys :: zs)) (.inAnyOrder (xs ++ (ys ++ zs)))
  /-- Alternatives of alternatives are alternatives. -/
  | alternatives (a b c : MarkedRule) :
      Regrouped (.firstOrSecond (.firstOrSecond a b) c) (.firstOrSecond a (.firstOrSecond b c))
  /-- The part is in a step. -/
  | inOrder {m k : MarkedRule} (pre post : List MarkedRule) : Regrouped m k →
      Regrouped (.inOrder (pre ++ m :: post)) (.inOrder (pre ++ k :: post))
  /-- The part is in a clause. -/
  | inAnyOrder {m k : MarkedRule} (pre post : List MarkedRule) : Regrouped m k →
      Regrouped (.inAnyOrder (pre ++ m :: post)) (.inAnyOrder (pre ++ k :: post))
  /-- The part is in the first alternative. -/
  | first {a b : MarkedRule} (c : MarkedRule) : Regrouped a b →
      Regrouped (.firstOrSecond a c) (.firstOrSecond b c)
  /-- The part is in the second alternative. -/
  | second {a b : MarkedRule} (c : MarkedRule) : Regrouped a b →
      Regrouped (.firstOrSecond c a) (.firstOrSecond c b)

variable {m k : MarkedRule}

/-- Regrouped rules are done alike. -/
theorem Regrouped.isDone_eq (h : Regrouped m k) : m.isDone = k.isDone := by
  induction h with
  | step m | clause m => rw [isDone, areDone, areDone, Bool.and_true]
  | steps xs ys zs | clauses xs ys zs => simp only [isDone, areDone_append, areDone]
  | alternatives a b c => exact Bool.or_assoc _ _ _
  | inOrder pre post _ ih | inAnyOrder pre post _ ih =>
    simp only [isDone, areDone_append, areDone, ih]
  | first c _ ih | second c _ ih => rw [isDone, isDone, ih]

/-- Among other rules they do not change whether all are done. -/
theorem Regrouped.areDone_eq (h : Regrouped m k) (pre post : List MarkedRule) :
    areDone (pre ++ m :: post) = areDone (pre ++ k :: post) := by
  simp only [areDone_append, areDone, h.isDone_eq]

/-- Regrouped rules have the same log. -/
theorem Regrouped.log_eq (h : Regrouped m k) : m.log = k.log := by
  induction h with
  | step m | clause m => rw [log, logs, logs, List.append_nil]
  | steps xs ys zs | clauses xs ys zs => simp only [log, logs_append, logs]
  | alternatives a b c =>
    cases ha : a.isDone <;> cases hb : b.isDone <;> simp [log, isDone, ha, hb]
    cases hc : c.isDone <;> simp
  | inOrder pre post _ ih | inAnyOrder pre post _ ih => simp only [log, logs_append, logs, ih]
  | first c h ih | second c h ih => rw [log, log, ih, h.isDone_eq]

/-- An offer is answered alike and leaves rules that are regrouped. -/
def OffersAlike (m k : MarkedRule) : Prop :=
  ∀ accepts now, (offer accepts now m).1 = (offer accepts now k).1 ∧
    Regrouped (offer accepts now m).2 (offer accepts now k).2

/-- Rules that are done ignore an offer. -/
theorem Regrouped.offersAlike_of_isDone (h : Regrouped m k) (hd : m.isDone = true)
    (accepts : Interaction → Bool) (now : Nat) :
    (offer accepts now m).1 = (offer accepts now k).1 ∧
      Regrouped (offer accepts now m).2 (offer accepts now k).2 := by
  rw [offer_of_isDone accepts now hd, offer_of_isDone accepts now (h.isDone_eq ▸ hd)]
  exact ⟨rfl, h⟩

theorem offersAlike_step (m : MarkedRule) : OffersAlike (.inOrder [m]) m := by
  intro accepts now
  cases hm : m.isDone with
  | true =>
    have hd : (MarkedRule.inOrder [m]).isDone = true := by rw [(Regrouped.step m).isDone_eq, hm]
    exact (Regrouped.step m).offersAlike_of_isDone hd accepts now
  | false =>
    rw [offer_inOrder, offerNext_cons_of_not_isDone accepts now [] hm, areDone, areDone,
      Bool.and_true, outcome_offer]
    exact ⟨rfl, .step _⟩

theorem offersAlike_clause (m : MarkedRule) : OffersAlike (.inAnyOrder [m]) m := by
  intro accepts now
  rw [offer_inAnyOrder, offerSome_cons]
  by_cases hm : (offer accepts now m).1 = .ignored
  · rw [if_pos hm, offer_eq_of_ignored hm, hm, offerSome]
    exact ⟨rfl, .clause m⟩
  · rw [if_neg hm, areDone, areDone, Bool.and_true, outcome_offer]
    exact ⟨rfl, .clause _⟩

/-- An offer that reaches the inner steps is passed on among them. -/
theorem offersAlike_steps (xs ys zs : List MarkedRule) :
    OffersAlike (.inOrder (xs ++ .inOrder ys :: zs)) (.inOrder (xs ++ (ys ++ zs))) := by
  intro accepts now
  have hdone : ∀ xs ys zs, areDone (xs ++ .inOrder ys :: zs) = areDone (xs ++ (ys ++ zs)) :=
    fun xs ys zs => (Regrouped.steps xs ys zs).isDone_eq
  rw [offer_inOrder, offer_inOrder, offerNext_append_eq, offerNext_append_eq accepts now xs]
  by_cases hxs : areDone xs = true
  · rw [if_pos hxs, if_pos hxs, offerNext_append_eq]
    by_cases hys : areDone ys = true
    · rw [offerNext_cons_of_isDone accepts now zs (m := .inOrder ys) hys, if_pos hys]
      exact ⟨by rw [hdone], .steps _ _ _⟩
    · rw [offerNext_cons_of_not_isDone accepts now zs (m := .inOrder ys)
        (Bool.eq_false_iff.mpr hys), if_neg hys, offer_inOrder]
      exact ⟨by rw [outcome_outcome, hdone], .steps _ _ _⟩
  · rw [if_neg hxs, if_neg hxs]
    exact ⟨by rw [hdone], .steps _ _ _⟩

/-- An offer that reaches the inner clauses is passed on among them. -/
theorem offersAlike_clauses (xs ys zs : List MarkedRule) :
    OffersAlike (.inAnyOrder (xs ++ .inAnyOrder ys :: zs)) (.inAnyOrder (xs ++ (ys ++ zs))) := by
  intro accepts now
  have hdone : ∀ xs ys zs, areDone (xs ++ .inAnyOrder ys :: zs) = areDone (xs ++ (ys ++ zs)) :=
    fun xs ys zs => (Regrouped.clauses xs ys zs).isDone_eq
  rw [offer_inAnyOrder, offer_inAnyOrder, offerSome_append_eq, offerSome_append_eq accepts now xs]
  by_cases hxs : (offerSome accepts now xs).1 = .ignored
  · rw [if_pos hxs, if_pos hxs, offerSome_cons, offerSome_append_eq, offer_inAnyOrder]
    by_cases hys : (offerSome accepts now ys).1 = .ignored
    · rw [if_pos ((outcome_eq_ignored_iff _ _).mpr hys), if_pos hys]
      exact ⟨by rw [hdone], .clauses _ _ _⟩
    · rw [if_neg (mt (outcome_eq_ignored_iff _ _).mp hys), if_neg hys]
      exact ⟨by rw [outcome_outcome, hdone], .clauses _ _ _⟩
  · rw [if_neg hxs, if_neg hxs]
    exact ⟨by rw [hdone], .clauses _ _ _⟩

/-- The first alternative that an offer completes is the first in either grouping. -/
theorem offersAlike_alternatives (a b c : MarkedRule) :
    OffersAlike (.firstOrSecond (.firstOrSecond a b) c)
      (.firstOrSecond a (.firstOrSecond b c)) := by
  intro accepts now
  by_cases hd : (firstOrSecond (.firstOrSecond a b) c).isDone = true
  · exact (Regrouped.alternatives a b c).offersAlike_of_isDone hd accepts now
  obtain ⟨⟨ha, hb⟩, hc⟩ : (a.isDone = false ∧ b.isDone = false) ∧ c.isDone = false := by
    simpa [isDone] using hd
  rw [offer_firstOrSecond accepts now (a := .firstOrSecond a b) (by simp [isDone, ha, hb]) hc,
    offer_firstOrSecond accepts now (b := .firstOrSecond b c) ha (by simp [isDone, hb, hc]),
    offer_firstOrSecond accepts now ha hb, offer_firstOrSecond accepts now hb hc]
  by_cases hoa : (offer accepts now a).1 = .completed
  · simp only [hoa, if_true]
    exact ⟨trivial, .alternatives _ _ _⟩
  by_cases hob : (offer accepts now b).1 = .completed
  · simp only [hoa, hob, if_true, if_false]
    exact ⟨trivial, .alternatives _ _ _⟩
  by_cases hoc : (offer accepts now c).1 = .completed
  · simp only [hoa, hob, hoc, Offer.either_ne_completed, if_true, if_false]
    exact ⟨trivial, .alternatives _ _ _⟩
  · simp only [hoa, hob, hoc, Offer.either_ne_completed, if_false]
    exact ⟨Offer.either_assoc _ _ _, .alternatives _ _ _⟩

theorem Regrouped.offersAlike_inOrder (h : Regrouped m k) (ho : OffersAlike m k)
    (pre post : List MarkedRule) :
    OffersAlike (.inOrder (pre ++ m :: post)) (.inOrder (pre ++ k :: post)) := by
  intro accepts now
  obtain ⟨hanswer, hafter⟩ := ho accepts now
  rw [offer_inOrder, offer_inOrder, offerNext_append_eq, offerNext_append_eq]
  by_cases hpre : areDone pre = true
  · rw [if_pos hpre, if_pos hpre]
    cases hm : m.isDone with
    | true =>
      rw [offerNext_cons_of_isDone accepts now post hm,
        offerNext_cons_of_isDone accepts now post (h.isDone_eq ▸ hm)]
      exact ⟨by rw [h.areDone_eq], h.inOrder _ _⟩
    | false =>
      rw [offerNext_cons_of_not_isDone accepts now post hm,
        offerNext_cons_of_not_isDone accepts now post (h.isDone_eq ▸ hm)]
      exact ⟨by rw [hanswer, hafter.areDone_eq], hafter.inOrder _ _⟩
  · rw [if_neg hpre, if_neg hpre]
    exact ⟨by rw [h.areDone_eq], h.inOrder _ _⟩

theorem Regrouped.offersAlike_inAnyOrder (h : Regrouped m k) (ho : OffersAlike m k)
    (pre post : List MarkedRule) :
    OffersAlike (.inAnyOrder (pre ++ m :: post)) (.inAnyOrder (pre ++ k :: post)) := by
  intro accepts now
  obtain ⟨hanswer, hafter⟩ := ho accepts now
  rw [offer_inAnyOrder, offer_inAnyOrder, offerSome_append_eq, offerSome_append_eq]
  by_cases hpre : (offerSome accepts now pre).1 = .ignored
  · rw [if_pos hpre, if_pos hpre, offerSome_cons, offerSome_cons, hanswer]
    split
    · exact ⟨by rw [h.areDone_eq], h.inAnyOrder _ _⟩
    · exact ⟨by rw [hafter.areDone_eq], hafter.inAnyOrder _ _⟩
  · rw [if_neg hpre, if_neg hpre]
    exact ⟨by rw [h.areDone_eq], h.inAnyOrder _ _⟩

theorem Regrouped.offersAlike_first (h : Regrouped m k) (ho : OffersAlike m k) (c : MarkedRule) :
    OffersAlike (.firstOrSecond m c) (.firstOrSecond k c) := by
  intro accepts now
  obtain ⟨hanswer, hafter⟩ := ho accepts now
  by_cases hd : (firstOrSecond m c).isDone = true
  · exact (h.first c).offersAlike_of_isDone hd accepts now
  obtain ⟨hm, hc⟩ : m.isDone = false ∧ c.isDone = false := by simpa [isDone] using hd
  rw [offer_firstOrSecond accepts now hm hc,
    offer_firstOrSecond accepts now (h.isDone_eq ▸ hm) hc, hanswer]
  split
  · exact ⟨rfl, hafter.first _⟩
  · split <;> exact ⟨rfl, hafter.first _⟩

theorem Regrouped.offersAlike_second (h : Regrouped m k) (ho : OffersAlike m k) (c : MarkedRule) :
    OffersAlike (.firstOrSecond c m) (.firstOrSecond c k) := by
  intro accepts now
  obtain ⟨hanswer, hafter⟩ := ho accepts now
  by_cases hd : (firstOrSecond c m).isDone = true
  · exact (h.second c).offersAlike_of_isDone hd accepts now
  obtain ⟨hc, hm⟩ : c.isDone = false ∧ m.isDone = false := by simpa [isDone] using hd
  rw [offer_firstOrSecond accepts now hc hm,
    offer_firstOrSecond accepts now hc (h.isDone_eq ▸ hm), hanswer]
  split
  · exact ⟨rfl, h.second _⟩
  · split <;> exact ⟨rfl, hafter.second _⟩

/-- **An offer is answered alike by regrouped rules, and they stay so.** -/
theorem Regrouped.offersAlike (h : Regrouped m k) : OffersAlike m k := by
  induction h with
  | step m => exact offersAlike_step m
  | clause m => exact offersAlike_clause m
  | steps xs ys zs => exact offersAlike_steps xs ys zs
  | clauses xs ys zs => exact offersAlike_clauses xs ys zs
  | alternatives a b c => exact offersAlike_alternatives a b c
  | inOrder pre post h ih => exact h.offersAlike_inOrder ih pre post
  | inAnyOrder pre post h ih => exact h.offersAlike_inAnyOrder ih pre post
  | first c h ih => exact h.offersAlike_first ih c
  | second c h ih => exact h.offersAlike_second ih c

/-- What is regrouped in a part is regrouped in the whole. -/
theorem Regrouped.fill {r s : Rule} (h : Regrouped (ofRule r) (ofRule s)) (C : Rule.Context) :
    Regrouped (ofRule (C.fill r)) (ofRule (C.fill s)) := by
  induction C with
  | hole => exact h
  | inOrder before step after ih =>
    simp only [Rule.Context.fill, ofRule, ofRules_eq_map, List.map_append, List.map_cons]
    exact ih.inOrder _ _
  | inAnyOrder before clause after ih =>
    simp only [Rule.Context.fill, ofRule, ofRules_eq_map, List.map_append, List.map_cons]
    exact ih.inAnyOrder _ _
  | first a b ih => exact ih.first _
  | second a b ih => exact ih.second _

end MarkedRule

open MarkedRule

/-- Whatever is offered, both rules answer alike each time, are satisfied alike afterwards, and the
same interactions count for both, in the same order. -/
def Rule.Alike (r s : Rule) : Prop :=
  ∀ os : List Offering,
    let plan := Plan.ofRule r
    let plan' := Plan.ofRule s
    let p := plan.offerEach plan.fresh os
    let q := plan'.offerEach plan'.fresh os
    plan.answers plan.fresh os = plan'.answers plan'.fresh os ∧
      p.isSatisfied plan.root = q.isSatisfied plan'.root ∧
      p.history.filterMap plan.interaction? = q.history.filterMap plan'.interaction?

namespace Plan

variable {r s : Rule} {now : Nat} {p q : Progress} {h k : TimedHistory} {m l : MarkedRule}

/-- Runs of two plans that follow regrouped rules are alike. -/
theorem Runs.alike (hp : Runs r now p h m) (hq : Runs s now q k l) (hm : Regrouped m l)
    (os : List Offering) :
    (ofRule r).answers p os = (ofRule s).answers q os ∧
      ((ofRule r).offerEach p os).isSatisfied (ofRule r).root =
        ((ofRule s).offerEach q os).isSatisfied (ofRule s).root ∧
      ((ofRule r).offerEach p os).history.filterMap (ofRule r).interaction? =
        ((ofRule s).offerEach q os).history.filterMap (ofRule s).interaction? := by
  induction os generalizing now p q h k m l with
  | nil =>
    refine ⟨rfl, ?_, ?_⟩
    · show p.isSatisfied _ = q.isSatisfied _
      rw [hp.isSatisfied, hq.isSatisfied, hm.isDone_eq]
    · show p.history.filterMap _ = q.history.filterMap _
      rw [hp.filterMap_history, hq.filterMap_history, LoggedRule.accepted, LoggedRule.accepted,
        log_logged, log_logged, hm.log_eq]
  | cons o os ih =>
    obtain ⟨ha, h', hp'⟩ := hp.next o
    obtain ⟨hb, k', hq'⟩ := hq.next o
    obtain ⟨hanswer, hafter⟩ := hm.offersAlike o.accepts now
    obtain ⟨hrest, hsat, hhistory⟩ := ih hp' hq' hafter
    refine ⟨?_, hsat, hhistory⟩
    rw [answers_cons, answers_cons, ha, hb, hanswer, hrest]

end Plan

namespace Rule

/-- A rule with a regrouped part is like the rule before. -/
theorem alike_fill {r s : Rule} (h : Regrouped (MarkedRule.ofRule r) (MarkedRule.ofRule s))
    (C : Context) : Alike (C.fill r) (C.fill s) := by
  intro os
  exact (Plan.runs_fresh _).alike (Plan.runs_fresh _) (h.fill C) os

/-- **Regrouping a part of a rule does not change what the rule matches**, whatever is around the
part. -/
theorem regrouping (C : Context) :
    (∀ r, Alike (C.fill (.inOrder [r])) (C.fill r)) ∧
    (∀ r, Alike (C.fill (.inAnyOrder [r])) (C.fill r)) ∧
    (∀ xs ys zs, Alike (C.fill (.inOrder (xs ++ [.inOrder ys] ++ zs)))
      (C.fill (.inOrder (xs ++ ys ++ zs)))) ∧
    (∀ xs ys zs, Alike (C.fill (.inAnyOrder (xs ++ [.inAnyOrder ys] ++ zs)))
      (C.fill (.inAnyOrder (xs ++ ys ++ zs)))) ∧
    (∀ a b c, Alike (C.fill (.firstOrSecond (.firstOrSecond a b) c))
      (C.fill (.firstOrSecond a (.firstOrSecond b c)))) := by
  refine ⟨fun r => alike_fill ?_ C, fun r => alike_fill ?_ C, fun xs ys zs => ?_,
    fun xs ys zs => ?_, fun a b c => alike_fill ?_ C⟩
  · exact .step _
  · exact .clause _
  · rw [List.append_assoc, List.append_assoc]
    apply alike_fill
    simp only [MarkedRule.ofRule, ofRules_eq_map, List.map_append, List.map_cons,
      List.singleton_append]
    exact .steps _ _ _
  · rw [List.append_assoc, List.append_assoc]
    apply alike_fill
    simp only [MarkedRule.ofRule, ofRules_eq_map, List.map_append, List.map_cons,
      List.singleton_append]
    exact .clauses _ _ _
  · exact .alternatives _ _ _

/-- A text says one step without a sequence around it, and nothing is lost by that. -/
theorem alike_ofSteps (C : Context) (rs : List Rule) :
    Alike (C.fill (.inOrder rs)) (C.fill (.ofSteps rs)) := by
  match rs with
  | [] => exact fun _ => ⟨rfl, rfl, rfl⟩
  | [r] =>
    apply alike_fill
    exact .step _
  | _ :: _ :: _ => exact fun _ => ⟨rfl, rfl, rfl⟩

/-- Nor is anything lost by saying one clause without a set around it. -/
theorem alike_ofClauses (C : Context) (rs : List Rule) :
    Alike (C.fill (.inAnyOrder rs)) (C.fill (.ofClauses rs)) := by
  match rs with
  | [] => exact fun _ => ⟨rfl, rfl, rfl⟩
  | [r] =>
    apply alike_fill
    exact .clause _
  | _ :: _ :: _ => exact fun _ => ⟨rfl, rfl, rfl⟩

end Rule

end BoardTrial
