import BoardTrial.Matching.MarkedRule
import Mathlib.Data.List.Basic

/-!
# Offers to marked rules

What one offer can do to a marked rule is said once, as a relation (`MarkedRule.Offered`): nothing,
or mark a leaf, or pass the submission on to one step, one clause or both alternatives. What holds
of every offer follows by induction on it: the rule stays, an ignored submission changes nothing, a
rule is done just when an offer has completed it, and every new mark carries the time of the offer.
-/

namespace BoardTrial

namespace Offer

variable {a b : Offer}

theorem either_ne_completed (a b : Offer) : a.either b ≠ .completed := by
  unfold either
  split <;> simp

theorem either_ne_ignored (h : a.either b ≠ .ignored) : a ≠ .ignored ∨ b ≠ .ignored := by
  cases a <;> cases b <;> simp_all [either]

theorem eq_ignored_of_either (ha : a ≠ .completed) (hb : b ≠ .completed)
    (h : a.either b = .ignored) : a = .ignored ∧ b = .ignored := by
  cases a <;> cases b <;> simp_all [either]

end Offer

namespace MarkedRule

/-- Cases and induction on marked rules; what holds of each rule of a list may be used for the
list. -/
@[induction_eliminator]
theorem induct {P : MarkedRule → Prop} (doNothing : P .doNothing)
    (leaf : ∀ i time, P (.leaf i time)) (inOrder : ∀ ms, (∀ m ∈ ms, P m) → P (.inOrder ms))
    (inAnyOrder : ∀ ms, (∀ m ∈ ms, P m) → P (.inAnyOrder ms))
    (firstOrSecond : ∀ a b, P a → P b → P (.firstOrSecond a b)) (m : MarkedRule) : P m := by
  refine @MarkedRule.rec P (fun ms => ∀ m ∈ ms, P m) doNothing leaf inOrder inAnyOrder firstOrSecond
    ?_ ?_ m
  · intro m hm
    cases hm
  · intro m ms hm hms k hk
    rcases List.mem_cons.mp hk with rfl | hk
    · exact hm
    · exact hms k hk

mutual

/-- The rule that is marked. -/
def rule : MarkedRule → Rule
  | doNothing => .doNothing
  | leaf i _ => .leaf i
  | inOrder ms => .inOrder (rules ms)
  | inAnyOrder ms => .inAnyOrder (rules ms)
  | firstOrSecond a b => .firstOrSecond a.rule b.rule

/-- The rules that are marked. -/
def rules : List MarkedRule → List Rule
  | [] => []
  | m :: ms => m.rule :: rules ms

end

mutual

@[simp] theorem rule_ofRule : ∀ r : Rule, (ofRule r).rule = r
  | .doNothing | .leaf _ => rfl
  | .inOrder rs | .inAnyOrder rs => by simp only [ofRule, rule, rules_ofRules rs]
  | .firstOrSecond a b => by simp only [ofRule, rule, rule_ofRule a, rule_ofRule b]

@[simp] theorem rules_ofRules : ∀ rs : List Rule, rules (ofRules rs) = rs
  | [] => rfl
  | r :: rs => by simp only [ofRules, rules, rule_ofRule r, rules_ofRules rs]

end

/-! ### Lists of rules -/

theorem rules_eq_map (ms : List MarkedRule) : rules ms = ms.map rule := by
  induction ms with
  | nil => rfl
  | cons m ms ih => simp [rules, ih]

theorem rules_append (ms ks : List MarkedRule) : rules (ms ++ ks) = rules ms ++ rules ks := by
  induction ms with
  | nil => rfl
  | cons m ms ih => simp [rules, ih]

theorem areDone_append (ms ks : List MarkedRule) :
    areDone (ms ++ ks) = (areDone ms && areDone ks) := by
  induction ms with
  | nil => rfl
  | cons m ms ih => simp [areDone, ih, Bool.and_assoc]

theorem logs_append (ms ks : List MarkedRule) : logs (ms ++ ks) = logs ms ++ logs ks := by
  induction ms with
  | nil => rfl
  | cons m ms ih => simp [logs, ih]

theorem areDone_iff (ms : List MarkedRule) : areDone ms = true ↔ ∀ m ∈ ms, m.isDone = true := by
  induction ms with
  | nil => simp [areDone]
  | cons m ms ih => simp [areDone, ih]

theorem mem_logs {ms : List MarkedRule} {x : Nat × Interaction} :
    x ∈ logs ms ↔ ∃ m ∈ ms, x ∈ m.log := by
  induction ms with
  | nil => simp [logs]
  | cons m ms ih => simp [logs, ih]

/-- What counts after one rule has been replaced counted before, or counts for the new rule. -/
theorem mem_logs_replace {pre post : List MarkedRule} {m m' : MarkedRule} {x : Nat × Interaction}
    (hx : x ∈ logs (pre ++ m' :: post)) : x ∈ logs (pre ++ m :: post) ∨ x ∈ m'.log := by
  simp only [logs_append, logs, List.mem_append] at hx ⊢
  rcases hx with hx | hx | hx
  · exact .inl (.inl hx)
  · exact .inr hx
  · exact .inl (.inr (.inr hx))

/-- While neither of two alternatives is done, what counts for either counts. -/
theorem log_firstOrSecond {a b : MarkedRule} (ha : a.isDone = false) (hb : b.isDone = false) :
    (firstOrSecond a b).log = a.log ++ b.log := by
  simp [log, ha, hb]

/-- Rules not all of which are done have a first that is not. -/
theorem exists_first_not_done {ms : List MarkedRule} (h : areDone ms = false) :
    ∃ pre m post, ms = pre ++ m :: post ∧ areDone pre = true ∧ m.isDone = false := by
  induction ms with
  | nil => cases h
  | cons m ms ih =>
    by_cases hm : m.isDone = true
    · obtain ⟨pre, k, post, rfl, hpre, hk⟩ := ih (by simpa [areDone, hm] using h)
      exact ⟨m :: pre, k, post, rfl, by simp [areDone, hm, hpre], hk⟩
    · exact ⟨[], m, ms, rfl, rfl, by simpa using hm⟩

section

variable (accepts : Interaction → Bool) (now : Nat)

/-! ### What an offer does to a list of rules and to alternatives -/

theorem offerNext_cons_of_isDone {m : MarkedRule} (ms : List MarkedRule) (h : m.isDone = true) :
    offerNext accepts now (m :: ms) =
      ((offerNext accepts now ms).1, m :: (offerNext accepts now ms).2) := by
  simp [offerNext, h]

theorem offerNext_cons_of_not_isDone {m : MarkedRule} (ms : List MarkedRule)
    (h : m.isDone = false) :
    offerNext accepts now (m :: ms) = ((offer accepts now m).1, (offer accepts now m).2 :: ms) := by
  simp [offerNext, h]

theorem offerNext_of_areDone {ms : List MarkedRule} (h : areDone ms = true) :
    offerNext accepts now ms = (.ignored, ms) := by
  induction ms with
  | nil => simp [offerNext]
  | cons m ms ih =>
    simp only [areDone, Bool.and_eq_true] at h
    rw [offerNext_cons_of_isDone accepts now ms h.1, ih h.2]

/-- Rules get an offer if all rules before them are done. -/
theorem offerNext_append_eq (ms ks : List MarkedRule) : offerNext accepts now (ms ++ ks) =
    if areDone ms then ((offerNext accepts now ks).1, ms ++ (offerNext accepts now ks).2)
    else ((offerNext accepts now ms).1, (offerNext accepts now ms).2 ++ ks) := by
  induction ms with
  | nil => rfl
  | cons m ms ih =>
    cases hm : m.isDone with
    | false =>
      rw [List.cons_append, offerNext_cons_of_not_isDone accepts now _ hm,
        offerNext_cons_of_not_isDone accepts now _ hm, areDone, hm]
      rfl
    | true =>
      rw [List.cons_append, offerNext_cons_of_isDone accepts now _ hm,
        offerNext_cons_of_isDone accepts now _ hm, ih, areDone, hm, Bool.true_and]
      split <;> rfl

/-- The first rule that is not done gets the offer. -/
theorem offerNext_append {pre : List MarkedRule} {m : MarkedRule} (post : List MarkedRule)
    (hpre : areDone pre = true) (hm : m.isDone = false) :
    offerNext accepts now (pre ++ m :: post) =
      ((offer accepts now m).1, pre ++ (offer accepts now m).2 :: post) := by
  rw [offerNext_append_eq, if_pos hpre, offerNext_cons_of_not_isDone accepts now post hm]

theorem offerSome_cons (m : MarkedRule) (ms : List MarkedRule) :
    offerSome accepts now (m :: ms) =
      if (offer accepts now m).1 = .ignored then
        ((offerSome accepts now ms).1, m :: (offerSome accepts now ms).2)
      else ((offer accepts now m).1, (offer accepts now m).2 :: ms) := by
  simp only [offerSome]
  cases hm : offer accepts now m with
  | mk o k => cases o <;> simp

variable {accepts now} in
theorem offerSome_of_ignored {ms : List MarkedRule}
    (h : ∀ m ∈ ms, (offer accepts now m).1 = .ignored) :
    offerSome accepts now ms = (.ignored, ms) := by
  induction ms with
  | nil => simp [offerSome]
  | cons m ms ih =>
    rw [offerSome_cons, if_pos (h m List.mem_cons_self),
      ih fun k hk => h k (List.mem_cons_of_mem _ hk)]

/-- Rules get an offer if all rules before them ignore it. -/
theorem offerSome_append_eq (ms ks : List MarkedRule) : offerSome accepts now (ms ++ ks) =
    if (offerSome accepts now ms).1 = .ignored then
      ((offerSome accepts now ks).1, ms ++ (offerSome accepts now ks).2)
    else ((offerSome accepts now ms).1, (offerSome accepts now ms).2 ++ ks) := by
  induction ms with
  | nil => rfl
  | cons m ms ih =>
    rw [List.cons_append, offerSome_cons, offerSome_cons, ih]
    by_cases hm : (offer accepts now m).1 = .ignored
    · simp only [if_pos hm]
      split <;> rfl
    · simp only [if_neg hm]
      rfl

variable {accepts now} in
/-- The first rule that does not ignore the offer gets it. -/
theorem offerSome_append {pre post : List MarkedRule} {m : MarkedRule}
    (hpre : ∀ k ∈ pre, (offer accepts now k).1 = .ignored)
    (hm : (offer accepts now m).1 ≠ .ignored) :
    offerSome accepts now (pre ++ m :: post) =
      ((offer accepts now m).1, pre ++ (offer accepts now m).2 :: post) := by
  rw [offerSome_append_eq, offerSome_of_ignored hpre, if_pos rfl, offerSome_cons, if_neg hm]

/-- Either all rules ignore an offer, or there is a first that does not. -/
theorem exists_first_not_ignored (ms : List MarkedRule) :
    (∀ m ∈ ms, (offer accepts now m).1 = .ignored) ∨ ∃ pre m post, ms = pre ++ m :: post ∧
      (∀ k ∈ pre, (offer accepts now k).1 = .ignored) ∧ (offer accepts now m).1 ≠ .ignored := by
  induction ms with
  | nil => exact .inl (by simp)
  | cons m ms ih =>
    by_cases hm : (offer accepts now m).1 = .ignored
    · rcases ih with hall | ⟨pre, k, post, rfl, hpre, hk⟩
      · exact .inl (List.forall_mem_cons.mpr ⟨hm, hall⟩)
      · exact .inr ⟨m :: pre, k, post, rfl, List.forall_mem_cons.mpr ⟨hm, hpre⟩, hk⟩
    · exact .inr ⟨[], m, ms, rfl, by simp, hm⟩

theorem offer_firstOrSecond {a b : MarkedRule} (ha : a.isDone = false) (hb : b.isDone = false) :
    offer accepts now (.firstOrSecond a b) =
      if (offer accepts now a).1 = .completed then
        (.completed, .firstOrSecond (offer accepts now a).2 b)
      else if (offer accepts now b).1 = .completed then
        (.completed, .firstOrSecond (offer accepts now a).2 (offer accepts now b).2)
      else ((offer accepts now a).1.either (offer accepts now b).1,
        .firstOrSecond (offer accepts now a).2 (offer accepts now b).2) := by
  rw [offer]
  simp only [ha, hb, Bool.or_self, Bool.false_eq_true, if_false]
  cases offer accepts now a with
  | mk oa a' =>
    cases offer accepts now b with
    | mk ob b' => cases oa <;> cases ob <;> rfl

/-! ### A rule that is done -/

/-- A rule that is done ignores every offer. -/
theorem offer_of_isDone {m : MarkedRule} (h : m.isDone = true) :
    offer accepts now m = (.ignored, m) := by
  induction m with
  | doNothing => cases h
  | leaf i time =>
    simp only [isDone] at h
    cases time with
    | none => cases h
    | some t => simp [offer]
  | inOrder ms _ => rw [offer, offerNext_of_areDone accepts now h]; rfl
  | inAnyOrder ms ih =>
    rcases exists_first_not_ignored accepts now ms with hall | ⟨pre, m, post, rfl, -, hm⟩
    · rw [offer, offerSome_of_ignored hall]; rfl
    · have hd := (areDone_iff _).mp h m (by simp)
      exact absurd (by rw [ih m (by simp) hd]) hm
  | firstOrSecond a b _ _ =>
    simp only [isDone] at h
    rw [offer, if_pos h]

/-! ### What one offer can do -/

/-- `Offered accepts now m o m'`: an offer of a submission that `accepts` says it counts for can
turn `m` into `m'` at time `now`, with answer `o`. -/
inductive Offered : MarkedRule → Offer → MarkedRule → Prop where
  /-- Nothing waits for the submission. -/
  | ignored (m : MarkedRule) : Offered m .ignored m
  /-- A leaf waits for it. -/
  | leaf {i : Interaction} : accepts i = true →
      Offered (.leaf i none) .completed (.leaf i (some now))
  /-- The first step that is not done takes it. -/
  | step {pre post : List MarkedRule} {m m' : MarkedRule} {o : Offer} : areDone pre = true →
      m.isDone = false → o ≠ .ignored → Offered m o m' →
      Offered (.inOrder (pre ++ m :: post)) (outcome o (areDone (pre ++ m' :: post)))
        (.inOrder (pre ++ m' :: post))
  /-- A clause that is not done takes it. -/
  | clause {pre post : List MarkedRule} {m m' : MarkedRule} {o : Offer} : m.isDone = false →
      o ≠ .ignored → Offered m o m' →
      Offered (.inAnyOrder (pre ++ m :: post)) (outcome o (areDone (pre ++ m' :: post)))
        (.inAnyOrder (pre ++ m' :: post))
  /-- It completes the first alternative. -/
  | first {a b a' : MarkedRule} : a.isDone = false → b.isDone = false → Offered a .completed a' →
      Offered (.firstOrSecond a b) .completed (.firstOrSecond a' b)
  /-- It completes the second alternative, and perhaps advances the first. -/
  | second {a b a' b' : MarkedRule} {o : Offer} : a.isDone = false → b.isDone = false →
      o ≠ .completed → Offered a o a' → Offered b .completed b' →
      Offered (.firstOrSecond a b) .completed (.firstOrSecond a' b')
  /-- It completes neither alternative. -/
  | both {a b a' b' : MarkedRule} {oa ob : Offer} : a.isDone = false → b.isDone = false →
      oa ≠ .completed → ob ≠ .completed → Offered a oa a' → Offered b ob b' →
      Offered (.firstOrSecond a b) (oa.either ob) (.firstOrSecond a' b')

variable {accepts now}

theorem outcome_of_ne_ignored {o : Offer} (h : o ≠ .ignored) (done : Bool) :
    outcome o done = if done then .completed else .advanced := by
  cases o <;> cases done <;> simp_all [outcome]

theorem outcome_eq_ignored_iff (o : Offer) (done : Bool) :
    outcome o done = .ignored ↔ o = .ignored := by
  cases o <;> cases done <;> simp [outcome]

theorem outcome_completed (done : Bool) : outcome .completed done ≠ .ignored := by
  cases done <;> simp [outcome]

theorem outcome_of_ne_completed {o : Offer} (h : o ≠ .completed) : outcome o false = o := by
  cases o <;> simp_all [outcome]

namespace Offered

variable {m m' : MarkedRule} {o : Offer}

/-- An offer that is ignored changes nothing. -/
theorem eq_of_ignored (h : Offered accepts now m o m') (ho : o = .ignored) : m' = m := by
  induction h with
  | ignored m => rfl
  | leaf _ => cases ho
  | step _ _ hne _ _ =>
    rw [outcome_of_ne_ignored hne] at ho
    split at ho <;> cases ho
  | clause _ hne _ _ =>
    rw [outcome_of_ne_ignored hne] at ho
    split at ho <;> cases ho
  | first _ _ _ _ => cases ho
  | second _ _ _ _ _ _ _ => cases ho
  | both _ _ hna hnb _ _ iha ihb =>
    obtain ⟨hoa, hob⟩ := Offer.eq_ignored_of_either hna hnb ho
    rw [iha hoa, ihb hob]

/-- The rule stays the same. -/
theorem rule_eq (h : Offered accepts now m o m') : m'.rule = m.rule := by
  induction h with
  | ignored m => rfl
  | leaf _ => rfl
  | step _ _ _ _ ih => simp only [rule, rules_append, rules, ih]
  | clause _ _ _ ih => simp only [rule, rules_append, rules, ih]
  | first _ _ _ ih => simp only [rule, ih]
  | second _ _ _ _ _ iha ihb => simp only [rule, iha, ihb]
  | both _ _ _ _ _ _ iha ihb => simp only [rule, iha, ihb]

/-- A rule is done just when it was before or the offer has completed it. -/
theorem isDone_iff (h : Offered accepts now m o m') :
    m'.isDone = true ↔ m.isDone = true ∨ o = .completed := by
  induction h with
  | ignored m => simp
  | leaf _ => simp [isDone]
  | step _ hm hne _ _ =>
    rw [outcome_of_ne_ignored hne]
    simp only [isDone, areDone_append, areDone, hm]
    split <;> simp_all
  | clause hm hne _ _ =>
    rw [outcome_of_ne_ignored hne]
    simp only [isDone, areDone_append, areDone, hm]
    split <;> simp_all
  | first _ _ _ ih => simp [isDone, ih.mpr (.inr rfl)]
  | second _ _ _ _ _ _ ihb => simp [isDone, ihb.mpr (.inr rfl)]
  | both ha hb hoa hob _ _ iha ihb =>
    simp [isDone, iha, ihb, ha, hb, hoa, hob, Offer.either_ne_completed]

/-- A rule that takes a submission was not done. -/
theorem not_isDone (h : Offered accepts now m o m') (ho : o ≠ .ignored) : m.isDone = false := by
  cases h with
  | ignored m => exact absurd rfl ho
  | leaf _ => rfl
  | step _ hm _ _ => simp [isDone, areDone_append, areDone, hm]
  | clause hm _ _ => simp [isDone, areDone_append, areDone, hm]
  | first ha hb _ => simp [isDone, ha, hb]
  | second ha hb _ _ _ => simp [isDone, ha, hb]
  | both ha hb _ _ _ _ => simp [isDone, ha, hb]

/-- What counts afterwards counted before, or counts since this offer and takes its submission. -/
theorem mem_log (h : Offered accepts now m o m') {x : Nat × Interaction} (hx : x ∈ m'.log) :
    x ∈ m.log ∨ x.1 = now ∧ accepts x.2 = true := by
  induction h with
  | ignored m => exact .inl hx
  | @leaf i hi =>
    simp only [log, Option.toList_some, List.map_cons, List.map_nil, List.mem_singleton] at hx
    subst hx
    exact .inr ⟨rfl, hi⟩
  | @step pre post m m' o _ _ _ _ ih =>
    rcases mem_logs_replace hx with hx | hx
    · exact .inl hx
    · exact (ih hx).imp_left fun h => mem_logs.mpr ⟨m, by simp, h⟩
  | @clause pre post m m' o _ _ _ ih =>
    rcases mem_logs_replace hx with hx | hx
    · exact .inl hx
    · exact (ih hx).imp_left fun h => mem_logs.mpr ⟨m, by simp, h⟩
  | first ha hb h ih =>
    rw [log, if_pos (h.isDone_iff.mpr (.inr rfl))] at hx
    rw [log_firstOrSecond ha hb, List.mem_append]
    exact (ih hx).imp_left .inl
  | second ha hb hne h h' iha ihb =>
    have ha' : ¬ _ = true := fun hd => (h.isDone_iff.mp hd).elim (by simp [ha]) hne
    rw [log, if_neg ha', if_pos (h'.isDone_iff.mpr (.inr rfl))] at hx
    rw [log_firstOrSecond ha hb, List.mem_append]
    exact (ihb hx).imp_left .inr
  | both ha hb hna hnb h h' iha ihb =>
    have ha' : ¬ _ = true := fun hd => (h.isDone_iff.mp hd).elim (by simp [ha]) hna
    have hb' : ¬ _ = true := fun hd => (h'.isDone_iff.mp hd).elim (by simp [hb]) hnb
    rw [log, if_neg ha', if_neg hb', List.mem_append] at hx
    rw [log_firstOrSecond ha hb, List.mem_append]
    rcases hx with hx | hx
    · exact (iha hx).imp_left .inl
    · exact (ihb hx).imp_left .inr

end Offered

/-- **An offer does what offers can do.** -/
theorem offered (accepts : Interaction → Bool) (now : Nat) (m : MarkedRule) :
    Offered accepts now m (offer accepts now m).1 (offer accepts now m).2 := by
  induction m with
  | doNothing => rw [offer]; exact .ignored _
  | leaf i time =>
    unfold offer
    split
    · rename_i h
      simp only [Bool.and_eq_true, Option.isNone_iff_eq_none] at h
      rw [h.1]
      exact .leaf h.2
    · exact .ignored _
  | inOrder ms ih =>
    by_cases hms : areDone ms = true
    · rw [offer_of_isDone accepts now (m := .inOrder ms) hms]
      exact .ignored _
    · obtain ⟨pre, m, post, rfl, hpre, hm⟩ := exists_first_not_done (by simpa using hms)
      have hoff := ih m (by simp)
      rw [offer, offerNext_append accepts now post hpre hm]
      by_cases ho : (offer accepts now m).1 = .ignored
      · rw [hoff.eq_of_ignored ho, ho]
        exact .ignored _
      · exact .step hpre hm ho hoff
  | inAnyOrder ms ih =>
    rcases exists_first_not_ignored accepts now ms with hall | ⟨pre, m, post, rfl, hpre, ho⟩
    · rw [offer, offerSome_of_ignored hall]
      exact .ignored _
    · have hoff := ih m (by simp)
      rw [offer, offerSome_append hpre ho]
      exact .clause (hoff.not_isDone ho) ho hoff
  | firstOrSecond a b iha ihb =>
    by_cases hd : (a.firstOrSecond b).isDone = true
    · rw [offer_of_isDone accepts now hd]
      exact .ignored _
    · simp only [isDone, Bool.or_eq_true, not_or, Bool.not_eq_true] at hd
      obtain ⟨ha, hb⟩ := hd
      rw [offer_firstOrSecond accepts now ha hb]
      split
      · rename_i hoa
        exact .first ha hb (hoa ▸ iha)
      · rename_i hoa
        split
        · rename_i hob
          exact .second ha hb hoa iha (hob ▸ ihb)
        · rename_i hob
          exact .both ha hb hoa hob iha ihb

end

/-! ### Runs -/

@[simp] theorem rule_offer (accepts : Interaction → Bool) (now : Nat) (m : MarkedRule) :
    (offer accepts now m).2.rule = m.rule :=
  (offered accepts now m).rule_eq

theorem isDone_offer_iff (accepts : Interaction → Bool) (now : Nat) (m : MarkedRule) :
    (offer accepts now m).2.isDone = true ↔
      m.isDone = true ∨ (offer accepts now m).1 = .completed :=
  (offered accepts now m).isDone_iff

theorem offer_eq_of_ignored {accepts : Interaction → Bool} {now : Nat} {m : MarkedRule}
    (h : (offer accepts now m).1 = .ignored) : (offer accepts now m).2 = m :=
  (offered accepts now m).eq_of_ignored h

/-- A rule that an offer did not complete is not done by it. -/
theorem not_isDone_offer {accepts : Interaction → Bool} {now : Nat} {m : MarkedRule}
    (hm : m.isDone = false) (ho : (offer accepts now m).1 ≠ .completed) :
    (offer accepts now m).2.isDone = false := by
  rw [← Bool.not_eq_true, isDone_offer_iff, hm]
  exact fun h => h.elim Bool.false_ne_true ho

/-- Several rules one of which an offer did not complete are not all done. -/
theorem areDone_replace {accepts : Interaction → Bool} {now : Nat} {m : MarkedRule}
    (pre post : List MarkedRule) (hm : m.isDone = false)
    (ho : (offer accepts now m).1 ≠ .completed) :
    areDone (pre ++ (offer accepts now m).2 :: post) = false := by
  simp [areDone_append, areDone, not_isDone_offer hm ho]

variable {σ : Type} (accepts : σ → Interaction → Bool)

/-- Offers submissions one after another, each at its time. -/
def offerAll (m : MarkedRule) (l : List (σ × Nat)) : MarkedRule :=
  l.foldl (fun m x => (m.offer (accepts x.1) x.2).2) m

@[simp] theorem offerAll_nil (m : MarkedRule) : offerAll accepts m [] = m := rfl

@[simp] theorem offerAll_cons (m : MarkedRule) (x : σ × Nat) (l : List (σ × Nat)) :
    offerAll accepts m (x :: l) = offerAll accepts (m.offer (accepts x.1) x.2).2 l := rfl

theorem offerAll_append (m : MarkedRule) (l k : List (σ × Nat)) :
    offerAll accepts m (l ++ k) = offerAll accepts (offerAll accepts m l) k :=
  List.foldl_append

/-- Submissions may be changed before or while they are offered. -/
theorem offerAll_map {τ : Type} (f : τ → σ) (m : MarkedRule) (l : List τ) (now : Nat) :
    offerAll accepts m ((l.map f).zipIdx now) =
      offerAll (fun x => accepts (f x)) m (l.zipIdx now) := by
  rw [List.zipIdx_map, offerAll, List.foldl_map, offerAll]
  rfl

@[simp] theorem rule_offerAll (m : MarkedRule) (l : List (σ × Nat)) :
    (offerAll accepts m l).rule = m.rule := by
  induction l generalizing m with
  | nil => rfl
  | cons x l ih => rw [offerAll_cons, ih, rule_offer]

/-- A rule that is done stays as it is. -/
theorem offerAll_of_isDone {m : MarkedRule} (h : m.isDone = true) (l : List (σ × Nat)) :
    offerAll accepts m l = m := by
  induction l with
  | nil => rfl
  | cons x l ih => rw [offerAll_cons, offer_of_isDone _ _ h, ih]

end MarkedRule

end BoardTrial
