import BoardTrial.Matching.LoggedRule
import BoardTrial.Proofs.PlanRuns

/-!
# The plan and the logged rule

A rule with marks on its leaves determines the marks and logs of all its parts
(`MarkedRule.logged`), and an offer to the one does what it does to the other
(`MarkedRule.offer_logged`). As a plan does to its progress what is done to the marked rule, **a plan
answers, is satisfied and logs as the rule itself** (`Plan.refines_logged`).

All logs are put in the order of their times. Two such logs are the same if they have the same
entries at each time (`Log.eq_of_filter`), so that it does not matter whether the logs of the parts
were in order before they were joined.
-/

namespace BoardTrial

open MarkedRule

/-! ### Logs -/

namespace Log

variable {l k : Log}

theorem time_trans (x y z : Nat × Interaction) :
    decide (x.1 ≤ y.1) = true → decide (y.1 ≤ z.1) = true → decide (x.1 ≤ z.1) = true := by
  simpa using Nat.le_trans

theorem time_total (x y : Nat × Interaction) :
    (decide (x.1 ≤ y.1) || decide (y.1 ≤ x.1)) = true := by
  simpa using Nat.le_total x.1 y.1

theorem pairwise_byTime (l : Log) : l.byTime.Pairwise fun x y => x.1 ≤ y.1 :=
  (List.pairwise_mergeSort time_trans time_total l).imp of_decide_eq_true

/-- The entries of one time stay in order. -/
theorem filter_byTime (l : Log) (t : Nat) :
    l.byTime.filter (·.1 == t) = l.filter (·.1 == t) := by
  have hle : (l.filter (·.1 == t)).Pairwise fun x y => decide (x.1 ≤ y.1) = true := by
    refine List.pairwise_filter.mpr (List.pairwise_of_forall fun x y hx hy => ?_)
    rw [beq_iff_eq] at hx hy
    exact decide_eq_true (Nat.le_of_eq (hx.trans hy.symm))
  have hsub : ((l.filter (·.1 == t)).filter (·.1 == t)).Sublist (l.byTime.filter (·.1 == t)) :=
    (List.sublist_mergeSort time_trans time_total hle List.filter_sublist).filter _
  simp only [List.filter_filter, Bool.and_self] at hsub
  exact (hsub.eq_of_length ((List.mergeSort_perm l _).filter _).length_eq.symm).symm

theorem mem_of_filter (h : ∀ t, l.filter (·.1 == t) = k.filter (·.1 == t))
    {x : Nat × Interaction} (hx : x ∈ l) : x ∈ k := by
  have hmem : x ∈ l.filter (·.1 == x.1) := List.mem_filter.mpr ⟨hx, beq_self_eq_true _⟩
  rw [h] at hmem
  exact List.mem_of_mem_filter hmem

/-- The first entry is the earliest. -/
theorem head_le {x y : Nat × Interaction} (hl : (y :: l).Pairwise fun x y => x.1 ≤ y.1)
    (hx : x ∈ y :: l) : y.1 ≤ x.1 := by
  rcases List.mem_cons.mp hx with rfl | hx
  · exact Nat.le_refl _
  · exact (List.pairwise_cons.mp hl).1 x hx

/-- Logs in the order of times are the same if they have the same entries at each time. -/
theorem eq_of_filter (hl : l.Pairwise fun x y => x.1 ≤ y.1) (hk : k.Pairwise fun x y => x.1 ≤ y.1)
    (h : ∀ t, l.filter (·.1 == t) = k.filter (·.1 == t)) : l = k := by
  induction l generalizing k with
  | nil =>
    cases k with
    | nil => rfl
    | cons y k => simpa using h y.1
  | cons x l ih =>
    cases k with
    | nil => simpa using h x.1
    | cons y k =>
      -- the first entries have the same time, so they are the first of that time
      have hle : y.1 ≤ x.1 := head_le hk (mem_of_filter h List.mem_cons_self)
      have hge : x.1 ≤ y.1 := head_le hl (mem_of_filter (fun t => (h t).symm) List.mem_cons_self)
      have hhead := h x.1
      rw [List.filter_cons_of_pos (by simp), List.filter_cons_of_pos (by simp; omega)] at hhead
      obtain rfl := (List.cons.inj hhead).1
      congr 1
      refine ih (List.pairwise_cons.mp hl).2 (List.pairwise_cons.mp hk).2 fun t => ?_
      have ht := h t
      rw [List.filter_cons, List.filter_cons] at ht
      split at ht
      · exact (List.cons.inj ht).2
      · exact ht

theorem byTime_nil : Log.byTime [] = [] := List.mergeSort_nil

theorem byTime_singleton (x : Nat × Interaction) : Log.byTime [x] = [x] := List.mergeSort_singleton x

end Log

namespace LoggedRule

variable (accepts : Interaction → Bool) (now : Nat)

/-- What an offer does to alternatives. -/
theorem offer_firstOrSecond (a b : LoggedRule) (log : Log) :
    offer accepts now (.firstOrSecond a b false log) =
      if (offer accepts now a).1 = .completed then
        (.completed, .firstOrSecond (offer accepts now a).2 b true (offer accepts now a).2.log)
      else if (offer accepts now b).1 = .completed then
        (.completed, .firstOrSecond (offer accepts now a).2 (offer accepts now b).2 true
          (offer accepts now b).2.log)
      else ((offer accepts now a).1.either (offer accepts now b).1,
        .firstOrSecond (offer accepts now a).2 (offer accepts now b).2 false
          (joined [(offer accepts now a).2, (offer accepts now b).2])) := by
  rw [offer]
  cases offer accepts now a with
  | mk oa a' =>
    cases offer accepts now b with
    | mk ob b' => cases oa <;> cases ob <;> rfl

theorem offerSome_cons (m : LoggedRule) (ms : List LoggedRule) :
    offerSome accepts now (m :: ms) =
      if (offer accepts now m).1 = .ignored then
        ((offerSome accepts now ms).1, m :: (offerSome accepts now ms).2)
      else ((offer accepts now m).1, (offer accepts now m).2 :: ms) := by
  simp only [offerSome]
  cases hm : offer accepts now m with
  | mk o k => cases o <;> simp

end LoggedRule

/-! ### Marked rules with the marks and logs of their parts -/

namespace MarkedRule

mutual

/-- The marks and logs of all parts. -/
def logged : MarkedRule → LoggedRule
  | doNothing => .doNothing
  | leaf i time => .leaf i time.isSome (time.toList.map fun t => (t, i))
  | inOrder ms => .inOrder (loggeds ms) (areDone ms) (Log.byTime (logs ms))
  | inAnyOrder ms => .inAnyOrder (loggeds ms) (areDone ms) (Log.byTime (logs ms))
  | firstOrSecond a b =>
    .firstOrSecond a.logged b.logged (a.isDone || b.isDone) (Log.byTime (firstOrSecond a b).log)

/-- The marks and logs of all parts of several rules. -/
def loggeds : List MarkedRule → List LoggedRule
  | [] => []
  | m :: ms => m.logged :: loggeds ms

end

@[simp] theorem isDone_logged (m : MarkedRule) : m.logged.isDone = m.isDone := by
  cases m <;> rfl

@[simp] theorem log_logged (m : MarkedRule) : m.logged.log = Log.byTime m.log := by
  cases m with
  | doNothing => exact Log.byTime_nil.symm
  | leaf i time =>
    cases time with
    | none => exact Log.byTime_nil.symm
    | some t => exact (Log.byTime_singleton _).symm
  | inOrder | inAnyOrder | firstOrSecond => rfl

@[simp] theorem all_isDone_loggeds (ms : List MarkedRule) :
    (loggeds ms).all LoggedRule.isDone = areDone ms := by
  induction ms with
  | nil => rfl
  | cons m ms ih => rw [loggeds, List.all_cons, ih, isDone_logged, areDone]

@[simp] theorem joined_loggeds (ms : List MarkedRule) :
    LoggedRule.joined (loggeds ms) = Log.byTime (logs ms) := by
  have hfilter : ∀ t, ((loggeds ms).flatMap LoggedRule.log).filter (·.1 == t) =
      (logs ms).filter (·.1 == t) := by
    intro t
    induction ms with
    | nil => rfl
    | cons m ms ih =>
      rw [loggeds, List.flatMap_cons, List.filter_append, ih, log_logged, Log.filter_byTime, logs,
        List.filter_append]
  refine Log.eq_of_filter (Log.pairwise_byTime _) (Log.pairwise_byTime _) fun t => ?_
  rw [LoggedRule.joined, Log.filter_byTime, Log.filter_byTime, hfilter]

/-- What counts for alternatives is what counts for the first, if that is done. -/
theorem logged_of_first {a : MarkedRule} (b : MarkedRule) (ha : a.isDone = true) :
    (firstOrSecond a b).logged = .firstOrSecond a.logged b.logged true a.logged.log := by
  simp [logged, log, ha]

/-- Otherwise it is what counts for the second, if that is done. -/
theorem logged_of_second {a b : MarkedRule} (ha : a.isDone = false) (hb : b.isDone = true) :
    (firstOrSecond a b).logged = .firstOrSecond a.logged b.logged true b.logged.log := by
  simp [logged, log, ha, hb]

/-- Otherwise both count. -/
theorem logged_of_neither {a b : MarkedRule} (ha : a.isDone = false) (hb : b.isDone = false) :
    (firstOrSecond a b).logged =
      .firstOrSecond a.logged b.logged false (LoggedRule.joined [a.logged, b.logged]) := by
  have hjoined := joined_loggeds [a, b]
  rw [loggeds, loggeds, loggeds, logs, logs, logs, List.append_nil] at hjoined
  rw [logged, log_firstOrSecond ha hb, ha, hb, hjoined, Bool.or_false]

mutual

/-- Nothing has happened. -/
theorem logged_ofRule : ∀ r : Rule, (ofRule r).logged = .ofRule r
  | .doNothing | .leaf _ => rfl
  | .inOrder rs | .inAnyOrder rs => by
    rw [ofRule, logged, logs_ofRules, Log.byTime_nil, LoggedRule.ofRule, ← loggeds_ofRules rs,
      all_isDone_loggeds]
  | .firstOrSecond a b => by
    have hlog := log_ofRule (.firstOrSecond a b)
    rw [ofRule] at hlog ⊢
    rw [logged, hlog, Log.byTime_nil, LoggedRule.ofRule, ← logged_ofRule a, ← logged_ofRule b,
      isDone_logged, isDone_logged]

theorem loggeds_ofRules : ∀ rs : List Rule, loggeds (ofRules rs) = LoggedRule.ofRules rs
  | [] => rfl
  | r :: rs => by rw [ofRules, loggeds, LoggedRule.ofRules, logged_ofRule r, loggeds_ofRules rs]

end

/-! ### Offers -/

section

variable (accepts : Interaction → Bool) (now : Nat)

mutual

/-- **An offer to a rule leaves the marks and logs that it leaves on the marked rule.** -/
theorem offer_logged : ∀ m : MarkedRule, m.logged.offer accepts now =
    ((m.offer accepts now).1, (m.offer accepts now).2.logged)
  | .doNothing => by rw [logged, LoggedRule.offer, offer, logged]
  | .leaf i none => by
    rw [logged, LoggedRule.offer, offer]
    by_cases hi : accepts i = true <;> simp [hi, logged]
  | .leaf i (some t) => by
    rw [logged, LoggedRule.offer, offer]
    simp [logged]
  | .inOrder ms => by
    by_cases hd : areDone ms = true
    · rw [offer_of_isDone accepts now (m := .inOrder ms) hd, logged, LoggedRule.offer, if_pos hd]
    · rw [logged, LoggedRule.offer, if_neg hd, offerNext_loggeds ms, offer]
      simp only [all_isDone_loggeds, joined_loggeds, logged]
  | .inAnyOrder ms => by
    by_cases hd : areDone ms = true
    · rw [offer_of_isDone accepts now (m := .inAnyOrder ms) hd, logged, LoggedRule.offer, if_pos hd]
    · rw [logged, LoggedRule.offer, if_neg hd, offerSome_loggeds ms, offer]
      simp only [all_isDone_loggeds, joined_loggeds, logged]
  | .firstOrSecond a b => by
    by_cases hd : (a.isDone || b.isDone) = true
    · rw [offer_of_isDone accepts now (m := .firstOrSecond a b) hd, logged, LoggedRule.offer,
        if_pos hd]
    · obtain ⟨ha, hb⟩ : a.isDone = false ∧ b.isDone = false := by simpa using hd
      rw [logged, Bool.eq_false_iff.mpr hd, LoggedRule.offer_firstOrSecond, offer_logged a,
        offer_logged b, offer_firstOrSecond accepts now ha hb]
      have hda := isDone_offer_iff accepts now a
      have hdb := isDone_offer_iff accepts now b
      by_cases hoa : (offer accepts now a).1 = .completed
      · rw [if_pos hoa, if_pos hoa, logged_of_first b (hda.mpr (.inr hoa))]
      have ha' := not_isDone_offer ha hoa
      rw [if_neg hoa, if_neg hoa]
      by_cases hob : (offer accepts now b).1 = .completed
      · rw [if_pos hob, if_pos hob, logged_of_second ha' (hdb.mpr (.inr hob))]
      have hb' := not_isDone_offer hb hob
      rw [if_neg hob, if_neg hob, logged_of_neither ha' hb']

theorem offerNext_loggeds : ∀ ms : List MarkedRule,
    LoggedRule.offerNext accepts now (loggeds ms) =
      ((offerNext accepts now ms).1, loggeds (offerNext accepts now ms).2)
  | [] => by rw [loggeds, LoggedRule.offerNext, offerNext, loggeds]
  | m :: ms => by
    rw [loggeds, LoggedRule.offerNext, isDone_logged, offerNext_loggeds ms, offer_logged m,
      offerNext]
    split <;> rfl

theorem offerSome_loggeds : ∀ ms : List MarkedRule,
    LoggedRule.offerSome accepts now (loggeds ms) =
      ((offerSome accepts now ms).1, loggeds (offerSome accepts now ms).2)
  | [] => by rw [loggeds, LoggedRule.offerSome, offerSome, loggeds]
  | m :: ms => by
    rw [loggeds, LoggedRule.offerSome_cons, offerSome_loggeds ms, offer_logged m, offerSome_cons]
    dsimp only
    split <;> rfl

end

end

theorem offerAll_logged (e : Evidence) (r : Rule) (ss : List Submission) :
    LoggedRule.offerAll e (.ofRule r) ss = (offerAll e.accepts (ofRule r) ss.zipIdx).logged := by
  have hfold : ∀ (l : List (Submission × Nat)) (m : MarkedRule),
      l.foldl (fun m x => (m.offer (e.accepts x.1) x.2).2) m.logged =
        (offerAll e.accepts m l).logged := by
    intro l
    induction l with
    | nil => exact fun m => rfl
    | cons x l ih =>
      intro m
      rw [List.foldl_cons, offer_logged, ih, offerAll_cons]
  rw [LoggedRule.offerAll, ← logged_ofRule, hfold]

end MarkedRule

/-! ### The plan -/

namespace Progress

variable {p : Progress} {h : TimedHistory}

mutual

/-- The nodes of a rule are satisfied as its parts are marked. -/
theorem Tells.map_isSatisfied : ∀ {m : MarkedRule} {base : Nat} {counts : Bool},
    p.Tells h base counts m → (List.range' base m.width).map p.isSatisfied = m.logged.marks
  | .doNothing, _, _, ht | .leaf _ _, _, _, ht => congrArg (fun b => [b]) ht.1.1
  | .inOrder ms, base, counts, ht | .inAnyOrder ms, base, counts, ht => by
    change (List.range' base (widths ms + 1)).map p.isSatisfied = _
    rw [List.range'_1_concat, List.map_append, TellsAll.map_isSatisfied ht.1, logged,
      LoggedRule.marks, List.map_singleton, ht.2.1.1]
  | .firstOrSecond a b, base, counts, ht => by
    change (List.range' base (a.width + b.width + 1)).map p.isSatisfied = _
    rw [List.range'_1_concat, List.map_append, ← List.range'_append_1, List.map_append,
      Tells.map_isSatisfied ht.1, Tells.map_isSatisfied ht.2.1, logged, LoggedRule.marks,
      List.map_singleton, ← Nat.add_assoc, ht.2.2.1.1]

theorem TellsAll.map_isSatisfied : ∀ {ms : List MarkedRule} {base : Nat} {counts : Bool},
    p.TellsAll h base counts ms →
      (List.range' base (widths ms)).map p.isSatisfied = LoggedRule.marksOfAll (loggeds ms)
  | [], _, _, _ => rfl
  | m :: ms, base, counts, ht => by
    rw [widths_cons, ← List.range'_append_1, List.map_append, loggeds, LoggedRule.marksOfAll,
      Tells.map_isSatisfied ht.1, TellsAll.map_isSatisfied ht.2]

end

end Progress

namespace Plan

variable {now : Nat} {p : Progress} {h : TimedHistory} {m : MarkedRule} {r : Rule}

theorem filter_filterMap_dated? (plan : Plan) (l : TimedHistory) (t : Nat) :
    (l.filterMap plan.dated?).filter (·.1 == t) = (l.filter (·.1 == t)).filterMap plan.dated? := by
  rw [List.filter_filterMap, List.filterMap_filter]
  refine List.filterMap_congr fun x _ => ?_
  cases hi : plan.interaction? x.2 with
  | none => simp [dated?, hi]
  | some i => simp [dated?, hi, Option.filter]

/-- At each time the history has the marks that count, in the same order. -/
theorem Runs.filter_marks (hr : Runs r now p h m) (t : Nat) :
    h.filter (·.1 == t) = (m.marks 0).filter (·.1 == t) := by
  refine @List.Perm.eq_of_pairwise _ (fun x y => x.2 < y.2) _ _ (fun x y _ _ => by omega) ?_
    ((pairwise_marks 0 m).filter _) (hr.perm_marks.filter _)
  refine List.pairwise_filter.mpr (hr.ready.timed.sorted.imp fun {x y} hxy hx hy => ?_)
  rw [beq_iff_eq] at hx hy
  omega

/-- The history lists what counts in the order of times. -/
theorem Runs.filterMap_history (hr : Runs r now p h m) :
    p.history.filterMap (ofRule r).interaction? = m.logged.accepted := by
  have hlog : h.filterMap (ofRule r).dated? = Log.byTime m.log := by
    refine Log.eq_of_filter hr.pairwise_dated (Log.pairwise_byTime _) fun t => ?_
    rw [filter_filterMap_dated?, hr.filter_marks, ← filter_filterMap_dated?,
      filterMap_marks hr.ready.holds, Log.filter_byTime]
  rw [← hr.ready.timed.history, ← map_filterMap_dated?, hlog, LoggedRule.accepted, log_logged]

/-- **Matching on the numbered nodes of a plan is matching on the rule itself.** After any
submissions, the plan and the logged rule answer the next one alike, the nodes that are satisfied
are the parts that are marked, and the history lists what is in the log. -/
theorem refines_logged (r : Rule) (e : Evidence) (ss : List Submission) :
    let plan := ofRule r
    let p := plan.offerAll e plan.fresh ss
    let m := LoggedRule.offerAll e (.ofRule r) ss
    (∀ s, (plan.offer e s p).1 = (m.offer (e.accepts s) ss.length).1) ∧
    (List.range plan.size).map p.isSatisfied = m.marks ∧
    p.history.filterMap plan.interaction? = m.accepted := by
  intro plan p m
  obtain ⟨h, hr⟩ := runs_offerAll r e ss
  have hm : m = (MarkedRule.offerAll e.accepts (.ofRule r) ss.zipIdx).logged :=
    offerAll_logged e r ss
  refine ⟨fun s => ?_, ?_, ?_⟩
  · obtain ⟨p', h', hq, -⟩ := hr.offer (e.accepts s)
    rw [Plan.offer, hq, hm, offer_logged]
  · have hmarks := hr.ready.tells.map_isSatisfied
    rw [hm, ← hmarks, List.range_eq_range', width, hr.rule]
    simp [plan, p]
  · rw [hm, ← hr.filterMap_history]

/-- Both alternatives log the first touch, until the second of them is done. -/
example :
    let red : Interaction := .touch ⟨.red, .circle, none⟩
    let blue : Interaction := .touch ⟨.blue, .circle, none⟩
    let black : Interaction := .touch ⟨.black, .circle, none⟩
    let m := LoggedRule.ofRule
      (.firstOrSecond (.inOrder [.leaf red, .leaf blue]) (.inOrder [.leaf red, .leaf black]))
    (LoggedRule.offerAll .centers m [⟨red, none⟩]).accepted = [red, red] ∧
      (LoggedRule.offerAll .centers m [⟨red, none⟩, ⟨black, none⟩]).accepted = [red, black] := by
  cbv

end Plan

end BoardTrial
