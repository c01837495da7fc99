import BoardTrial.Proofs.Conclusions
import BoardTrial.Proofs.Survivors
import Mathlib.Data.List.Perm.Subperm

/-!
# What accepted interactions stand for

Each interaction that a result tells as accepted stands for a submission that shows it and that the
rule did not ignore. One submission is offered to both of two alternatives. While neither of them is
satisfied both have leaves that count (`Plan.OpenBetween`), so who gives up then may be told more
interactions than there were submissions (`Referee.two_accepted_for_one_submission`).

**There is no other way to share a submission** (`Referee.accepted_stand_for`). In a trial that was
satisfied, and in every trial of the rule of a text, each accepted interaction stands for a
submission of its own.
-/

namespace BoardTrial

open MarkedRule Progress

namespace MarkedRule

/-! ### Marks of one time -/

mutual

theorem map_fst_marks : ∀ (base : Nat) (m : MarkedRule),
    (m.marks base).map (·.1) = m.log.map (·.1)
  | _, .doNothing => rfl
  | _, .leaf _ none => rfl
  | _, .leaf _ (some _) => rfl
  | base, .inOrder ms | base, .inAnyOrder ms => map_fst_marksOfAll base ms
  | base, .firstOrSecond a b => by
    rw [marks, log]
    split
    · exact map_fst_marks base a
    · split
      · exact map_fst_marks _ b
      · rw [List.map_append, List.map_append, map_fst_marks base a, map_fst_marks _ b]

theorem map_fst_marksOfAll : ∀ (base : Nat) (ms : List MarkedRule),
    (marksOfAll base ms).map (·.1) = (logs ms).map (·.1)
  | _, [] => rfl
  | base, m :: ms => by
    rw [marksOfAll, logs, List.map_append, List.map_append, map_fst_marks base m,
      map_fst_marksOfAll _ ms]

end

variable {m k l : MarkedRule} {ms : List MarkedRule} {base start : Nat} {x y : Nat × Nat}

/-- What is marked counts, with the same time. -/
theorem exists_mem_log (hx : x ∈ m.marks base) : ∃ u ∈ m.log, u.1 = x.1 := by
  have hmem : x.1 ∈ (m.marks base).map (·.1) := List.mem_map_of_mem hx
  rw [map_fst_marks] at hmem
  exact List.mem_map.mp hmem

theorem mem_marksOfAll (hx : x ∈ marksOfAll base ms) :
    ∃ (i : Nat) (k : MarkedRule), ms[i]? = some k ∧ x ∈ k.marks (base + widths (ms.take i)) := by
  induction ms generalizing base with
  | nil => cases hx
  | cons m ms ih =>
    rcases List.mem_append.mp hx with hx | hx
    · exact ⟨0, m, rfl, hx⟩
    · obtain ⟨i, k, hi, hk⟩ := ih hx
      refine ⟨i + 1, k, hi, ?_⟩
      rwa [List.take_succ_cons, widths_cons, ← Nat.add_assoc]

/-- Two marks belong to two alternatives neither of which is done. -/
def Parted (m : MarkedRule) (base : Nat) (x y : Nat × Nat) : Prop :=
  ∃ a b start, HasPart m base (.firstOrSecond a b) start ∧ a.isDone = false ∧ b.isDone = false ∧
    x ∈ a.marks start ∧ y ∈ b.marks (start + a.width)

theorem Parted.of_child (hc : HasChild m base k start) (h : Parted k start x y) :
    Parted m base x y := by
  obtain ⟨a, b, s, hp, h⟩ := h
  exact ⟨a, b, s, hc.part.trans hp, h⟩

/-- Marks of one time belong to one member of a list whose members have no marks of one time. -/
theorem exists_member_of_time_eq {R : MarkedRule → MarkedRule → Prop} (hpw : ms.Pairwise R)
    (hR : ∀ a b, R a b → ∀ u ∈ a.log, ∀ v ∈ b.log, u.1 ≠ v.1) (hx : x ∈ marksOfAll base ms)
    (hy : y ∈ marksOfAll base ms) (hxy : x.1 = y.1) :
    ∃ (i : Nat) (k : MarkedRule), ms[i]? = some k ∧ x ∈ k.marks (base + widths (ms.take i)) ∧
      y ∈ k.marks (base + widths (ms.take i)) := by
  obtain ⟨i, k, hi, hxk⟩ := mem_marksOfAll hx
  obtain ⟨j, l, hj, hyl⟩ := mem_marksOfAll hy
  obtain ⟨hil, rfl⟩ := List.getElem?_eq_some_iff.mp hi
  obtain ⟨hjl, rfl⟩ := List.getElem?_eq_some_iff.mp hj
  obtain ⟨u, hu, hux⟩ := exists_mem_log hxk
  obtain ⟨v, hv, hvy⟩ := exists_mem_log hyl
  have huv : u.1 = v.1 := by rw [hux, hxy, hvy]
  rcases Nat.lt_trichotomy i j with hij | rfl | hij
  · exact absurd huv (hR _ _ (List.pairwise_iff_getElem.mp hpw i j hil hjl hij) u hu v hv)
  · exact ⟨i, _, hi, hxk, hyl⟩
  · exact absurd huv.symm (hR _ _ (List.pairwise_iff_getElem.mp hpw j i hjl hil hij) v hv u hu)

/-- **Marks of one time belong to two alternatives neither of which is done.** -/
theorem Ordered.parted (h : m.Ordered) (hx : x ∈ m.marks base) (hy : y ∈ m.marks base)
    (htime : x.1 = y.1) (hlt : x.2 < y.2) : Parted m base x y := by
  induction h generalizing base with
  | doNothing => cases hx
  | leaf i time =>
    cases time with
    | none => cases hx
    | some t =>
      obtain rfl := List.mem_singleton.mp hx
      obtain rfl := List.mem_singleton.mp hy
      exact absurd hlt (Nat.lt_irrefl _)
  | inOrder _ hpw ih =>
    obtain ⟨i, k, hi, hxk, hyk⟩ := exists_member_of_time_eq hpw
      (fun a b hab u hu v hv => Nat.ne_of_lt (hab.2 u hu v hv)) hx hy htime
    exact (ih k (List.mem_of_getElem? hi) hxk hyk).of_child (.step base hi)
  | inAnyOrder _ hpw ih =>
    obtain ⟨i, k, hi, hxk, hyk⟩ := exists_member_of_time_eq hpw (fun _ _ hab => hab) hx hy htime
    exact (ih k (List.mem_of_getElem? hi) hxk hyk).of_child (.clause base hi)
  | @firstOrSecond a b _ _ iha ihb =>
    rw [marks] at hx hy
    split at hx
    · rename_i ha
      rw [if_pos ha] at hy
      exact (iha hx hy).of_child (.first a b base)
    rename_i ha
    rw [if_neg ha] at hy
    split at hx
    · rename_i hb
      rw [if_pos hb] at hy
      exact (ihb hx hy).of_child (.second a b base)
    rename_i hb
    rw [if_neg hb] at hy
    rcases List.mem_append.mp hx with hx | hx <;> rcases List.mem_append.mp hy with hy | hy
    · exact (iha hx hy).of_child (.first a b base)
    · exact ⟨a, b, base, .whole, Bool.eq_false_iff.mpr ha, Bool.eq_false_iff.mpr hb, hx, hy⟩
    · have hxb := bounds_of_mem_marks hx
      have hya := bounds_of_mem_marks hy
      omega
    · exact (ihb hx hy).of_child (.second a b base)

/-! ### Submissions that are not ignored -/

/-- What counts after an offer counted before, or the offer was not ignored. -/
theorem Offered.mem_log_or_advanced {accepts : Interaction → Bool} {now : Nat} {m m' : MarkedRule}
    {o : Offer} (h : Offered accepts now m o m') {x : Nat × Interaction} (hx : x ∈ m'.log) :
    x ∈ m.log ∨ x.1 = now ∧ accepts x.2 = true ∧ o ≠ .ignored := by
  by_cases ho : o = .ignored
  · rw [h.eq_of_ignored ho] at hx
    exact .inl hx
  · exact (h.mem_log hx).imp_right fun hnow => ⟨hnow.1, hnow.2, ho⟩

/-- **Each leaf that counts was marked by a submission that was not ignored.** -/
theorem advanced_of_mem_log {σ : Type} (accepts : σ → Interaction → Bool) (r : Rule) (ss : List σ)
    {x : Nat × Interaction} (hx : x ∈ (offerAll accepts (ofRule r) ss.zipIdx).log) :
    ∃ s, ss[x.1]? = some s ∧ accepts s x.2 = true ∧
      (offer (accepts s) x.1 (offerAll accepts (ofRule r) (ss.take x.1).zipIdx)).1 ≠ .ignored := by
  induction ss using List.reverseRecOn with
  | nil => simp at hx
  | append_singleton ss s ih =>
    rw [List.zipIdx_append, offerAll_append] at hx
    simp only [List.zipIdx_singleton, Nat.zero_add, offerAll_cons, offerAll_nil] at hx
    rcases (offered (accepts s) _ _).mem_log_or_advanced hx with hx | ⟨hnow, hacc, hne⟩
    · obtain ⟨t, ht, hacc, hne⟩ := ih hx
      have hlt := (List.getElem?_eq_some_iff.mp ht).1
      refine ⟨t, by rwa [List.getElem?_append_left hlt], hacc, ?_⟩
      rwa [List.take_append_of_le_length (Nat.le_of_lt hlt)]
    · refine ⟨s, by rw [hnow, List.getElem?_concat_length], hacc, ?_⟩
      rwa [hnow, List.take_left]

end MarkedRule

/-- What is right below a rule whose alternatives are leaves is such a rule. -/
theorem Rule.LeafAlternatives.child {m k : MarkedRule} {base start : Nat}
    (h : m.rule.LeafAlternatives) (hc : HasChild m base k start) : k.rule.LeafAlternatives := by
  have hleaf : ∀ {r : Rule}, r.IsLeaf → r.LeafAlternatives := by
    rintro _ ⟨i, rfl⟩
    exact .leaf i
  cases hc with
  | @step ms i _ _ hi =>
    cases h with
    | inOrder hall =>
      rw [rules_eq_map, List.forall_mem_map] at hall
      exact hall k (List.mem_of_getElem? hi)
  | @clause ms i _ _ hi =>
    cases h with
    | inAnyOrder hall =>
      rw [rules_eq_map, List.forall_mem_map] at hall
      exact hall k (List.mem_of_getElem? hi)
  | first _ b _ =>
    cases h with
    | firstOrSecond ha _ => exact hleaf ha
  | second a _ _ =>
    cases h with
    | firstOrSecond _ hb => exact hleaf hb

theorem Rule.LeafAlternatives.part {m k : MarkedRule} {base start : Nat}
    (h : m.rule.LeafAlternatives) (hp : HasPart m base k start) : k.rule.LeafAlternatives := by
  induction hp with
  | whole => exact h
  | child _ hc ih => exact ih.child hc

/-! ### Leaves that share a submission -/

namespace Plan

variable {r : Rule} {now n : Nat} {p : Progress} {h : TimedHistory} {m : MarkedRule}

/-- Nodes `n` and `k` are below the first and below the second of two alternatives neither of which
is satisfied. -/
def OpenBetween (plan : Plan) (p : Progress) (n k : Nat) : Prop :=
  ∃ x a b, plan.node? x = some (.firstOrSecond a b) ∧ p.isSatisfied x = false ∧
    plan.Below a n ∧ plan.Below b k

/-- Entries of one time are below alternatives neither of which is satisfied. -/
theorem Runs.openBetween (hr : Runs r now p h m) (ho : m.Ordered) {x y : Nat × Nat} (hx : x ∈ h)
    (hy : y ∈ h) (htime : x.1 = y.1) (hlt : x.2 < y.2) : (ofRule r).OpenBetween p x.2 y.2 := by
  obtain ⟨a, b, start, hp, ha, hb, hxa, hyb⟩ :=
    ho.parted (hr.perm_marks.mem_iff.mp hx) (hr.perm_marks.mem_iff.mp hy) htime hlt
  have hh := hr.ready.holds.part hp
  refine ⟨_, _, _, hh.node?, ?_, ?_, ?_⟩
  · rw [hr.isSatisfied_part hp, isDone, ha, hb, Bool.or_false]
  · exact (Holds.below_iff (m := a) hh.1).mpr (bounds_of_mem_marks hxa)
  · exact (Holds.below_iff (m := b) hh.2.1).mpr (bounds_of_mem_marks hyb)

/-- Where alternatives are leaves, none that is in the history is below open alternatives. -/
theorem Runs.not_openBetween (hr : Runs r now p h m) (hl : r.LeafAlternatives)
    (hn : n ∈ p.history) (k : Nat) : ¬ (ofRule r).OpenBetween p n k := by
  rintro ⟨x, a, b, hnode, hx, hb, -⟩
  obtain ⟨la, lb, start, hp, rfl, rfl, -⟩ := hr.exists_alternatives hnode
  have hleaf : la.rule.IsLeaf := by
    cases Rule.LeafAlternatives.part (by rwa [hr.rule]) hp with
    | firstOrSecond ha _ => exact ha
  obtain ⟨i, hi⟩ := hleaf
  -- a leaf has no node below it but its own
  have hbounds := (Holds.below_iff (m := la) (hr.ready.holds.part hp).1).mp hb
  rw [width, hi] at hbounds
  obtain rfl : la.root start = n := by
    rw [MarkedRule.root, hi]
    exact Nat.le_antisymm hbounds.1 (Nat.le_of_lt_succ hbounds.2)
  have hs := (hr.of_mem_history hn).2
  rw [hr.isSatisfied_part (hp.child (.first la lb start))] at hs
  rw [hr.isSatisfied_part hp, isDone, hs] at hx
  cases hx

/-- The times of the entries of a history are those of its leaves that count. -/
theorem Runs.map_fst_dated (hr : Runs r now p h m) :
    (h.filterMap (ofRule r).dated?).map (·.1) = h.map (·.1) := by
  have hleaf : ∀ x ∈ h, ((ofRule r).interaction? x.2).isSome = true :=
    fun x hx => (hr.exists_leaf_of_mem hx).1
  clear hr
  induction h with
  | nil => rfl
  | cons x h ih =>
    obtain ⟨hx, hh⟩ := List.forall_mem_cons.mp hleaf
    obtain ⟨i, hi⟩ := Option.isSome_iff_exists.mp hx
    have hd : (ofRule r).dated? x = some (x.1, i) := by rw [dated?, hi]; rfl
    rw [List.filterMap_cons_some hd, List.map_cons, List.map_cons, ih hh]

end Plan

/-! ### What a result tells -/

namespace Matcher

variable {r : Rule} {e : Evidence} {ss : List Submission}

/-- A matcher that is not satisfied is what a referee has after these submissions. -/
theorem run_submits (h : (after r e ss).isSatisfied = false) :
    (Referee.ofRule r e).run (ss.map .submit) = ⟨after r e ss, []⟩ := by
  induction ss using List.reverseRecOn with
  | nil => rfl
  | append_singleton ss s ih =>
    have hss : (after r e ss).isSatisfied = false := by
      rw [← Bool.not_eq_true] at h ⊢
      exact fun hs => h (answerAfter_of_isSatisfied hs s).2
    rw [List.map_append, List.map_singleton, Referee.run_append_singleton, ih hss, Referee.call,
      Referee.submit, submit_after, if_neg (by simp [h])]
    rfl

/-- Who is answered when a submission is not ignored is a referee. -/
theorem answer_submits {s : Submission} (h : answerAfter r e ss s ≠ .ignored) :
    (((Referee.ofRule r e).run (ss.map .submit)).submit s).1 = answerAfter r e ss s := by
  have hss : (after r e ss).isSatisfied = false := by
    rw [← Bool.not_eq_true]
    exact fun hs => h (answerAfter_of_isSatisfied hs s).1
  rw [run_submits hss, Referee.submit, submit_after]
  split <;> rfl

/-- Submission `t` shows an interaction, and a referee of the rule did not ignore it. -/
def StandsFor (r : Rule) (e : Evidence) (ss : List Submission) (t : Nat) (i : Interaction) : Prop :=
  ∃ s, ss[t]? = some s ∧ e.Shows s i ∧
    (((Referee.ofRule r e).run ((ss.take t).map .submit)).submit s).1 ≠ .ignored

theorem lt_of_standsFor {ts : List Nat} {w : List Interaction}
    (h : List.Forall₂ (StandsFor r e ss) ts w) : ∀ t ∈ ts, t < ss.length := by
  induction h with
  | nil => simp
  | cons ht _ ih =>
    obtain ⟨s, hs, -⟩ := ht
    exact List.forall_mem_cons.mpr ⟨(List.getElem?_eq_some_iff.mp hs).1, ih⟩

/-- What counts for the marked rule stands for a submission. -/
theorem standsFor_of_mem_log {x : Nat × Interaction}
    (hx : x ∈ (offerAll e.accepts (.ofRule r) ss.zipIdx).log) : StandsFor r e ss x.1 x.2 := by
  obtain ⟨s, hs, hacc, hne⟩ := advanced_of_mem_log e.accepts r ss hx
  refine ⟨s, hs, Evidence.shows_of_accepts hacc, ?_⟩
  have hlen : (ss.take x.1).length = x.1 := by
    rw [List.length_take, Nat.min_eq_left (Nat.le_of_lt (List.getElem?_eq_some_iff.mp hs).1)]
  obtain ⟨h, hr⟩ := Plan.runs_offerAll r e (ss.take x.1)
  obtain ⟨p, k, hq, -⟩ := hr.offer (e.accepts s)
  have hanswer : answerAfter r e (ss.take x.1) s ≠ .ignored := by
    have hfst := congrArg Prod.fst hq
    rw [hlen] at hfst
    exact fun hign => hne (hfst.symm.trans hign)
  rwa [answer_submits hanswer]

/-- The accepted interactions of a matcher stand for submissions, later ones for later submissions
or, below alternatives that are still open, for the same. -/
theorem exists_standsFor (r : Rule) (e : Evidence) (ss : List Submission) :
    let plan := Plan.ofRule r
    let p := (after r e ss).progress
    (after r e ss).accepted.map some = p.history.map plan.interaction? ∧
    ∃ ts : List Nat, List.Forall₂ (StandsFor r e ss) ts (after r e ss).accepted ∧
      (ts.zip p.history).Pairwise
        (fun x y => x.1 < y.1 ∨ x.1 = y.1 ∧ plan.OpenBetween p x.2 y.2) ∧
      ((after r e ss).isSatisfied = true → ts.Pairwise (· < ·)) := by
  intro plan p
  obtain ⟨h, hr⟩ := Plan.runs_offerAll r e ss
  obtain ⟨ho, -⟩ := ordered_sourced_offerAll e.accepts r ss
  have hmem : ∀ x, x ∈ h.filterMap plan.dated? ↔
      x ∈ (offerAll e.accepts (.ofRule r) ss.zipIdx).log := by
    intro x
    rw [← Plan.filterMap_marks hr.ready.holds]
    exact (hr.perm_marks.filterMap _).mem_iff
  have hacc : (h.filterMap plan.dated?).map (·.2) = (after r e ss).accepted := by
    rw [Plan.map_filterMap_dated?, hr.ready.timed.history]
    rfl
  refine ⟨hr.map_history.symm, h.map (·.1), ?_, ?_, ?_⟩
  · rw [← hr.map_fst_dated, ← hacc, List.forall₂_map_left_iff, List.forall₂_map_right_iff,
      List.forall₂_same]
    exact fun x hx => standsFor_of_mem_log ((hmem x).mp hx)
  · have hhistory : p.history = h.map (·.2) := hr.ready.timed.history.symm
    have hzip : h = (h.map (·.1)).zip (h.map (·.2)) := List.zip_of_prod rfl rfl
    rw [hhistory, ← hzip]
    refine hr.ready.timed.sorted.imp_of_mem fun {x y} hx hy hxy => hxy.imp_right fun hxy => ?_
    exact ⟨hxy.1, hr.openBetween ho hx hy hxy.1 hxy.2⟩
  · intro hs
    obtain ⟨v, hinc, hperm, -⟩ := ho.performed (hr.isSatisfied.symm.trans hs)
    have hnodup : (h.map (·.1)).Nodup := by
      rw [(hr.perm_marks.map _).nodup_iff, map_fst_marks, ← (hperm.map _).nodup_iff]
      exact List.pairwise_map.mpr (hinc.imp Nat.ne_of_lt)
    have hle : (h.map (·.1)).Pairwise (· ≤ ·) :=
      List.pairwise_map.mpr (hr.ready.timed.sorted.imp fun hxy => by omega)
    exact hle.imp₂ (fun _ _ hab hne => Nat.lt_of_le_of_ne hab hne) hnodup

end Matcher

namespace Referee

/-- Numbers that increase and are below a bound are no more than the bound. -/
theorem length_le_of_increasing {ts : List Nat} {n : Nat} (h : ts.Pairwise (· < ·))
    (hn : ∀ t ∈ ts, t < n) : ts.length ≤ n := by
  have hsub : ts ⊆ List.range n := fun t ht => List.mem_range.mpr (hn t ht)
  have hle := (List.subperm_of_subset (h.imp Nat.ne_of_lt) hsub).length_le
  rwa [List.length_range] at hle

/-- Entries that share nothing increase. -/
theorem increasing_of_not_openBetween {plan : Plan} {p : Progress} {ts : List Nat}
    (hlen : ts.length = p.history.length)
    (hpw : (ts.zip p.history).Pairwise
      fun x y => x.1 < y.1 ∨ x.1 = y.1 ∧ plan.OpenBetween p x.2 y.2)
    (hno : ∀ n ∈ p.history, ∀ k ∈ p.history, ¬ plan.OpenBetween p n k) : ts.Pairwise (· < ·) := by
  have hlt : (ts.zip p.history).Pairwise fun x y => x.1 < y.1 := by
    refine hpw.imp_of_mem fun {x y} hx hy hxy => hxy.resolve_right fun hshare => ?_
    exact hno x.2 (List.of_mem_zip hx).2 y.2 (List.of_mem_zip hy).2 hshare.2
  rw [← List.map_fst_zip (Nat.le_of_eq hlen)]
  exact List.pairwise_map.mpr hlt

/-- **Accepted interactions stand for submissions.** Each interaction that a result tells as accepted
is that of a leaf in the history, shown by a submission that was taken and not ignored. Later ones
stand for later submissions; only leaves below alternatives neither of which is satisfied may stand
for the same. So if the rule was satisfied, or was read from a text, or the history has no such
leaves, each accepted interaction stands for a submission of its own, and there are no more of them
than submissions. -/
theorem accepted_stand_for {r : Rule} {e : Evidence} {calls : List Call} {res : TrialResult}
    (hres : res ∈ ((ofRule r e).run calls).results) :
    let plan := Plan.ofRule r
    let p := ((ofRule r e).run calls).matcher.progress
    let ss := (submissionsOf calls).take res.submissions
    ss.length = res.submissions ∧
    res.accepted.map some = p.history.map plan.interaction? ∧
    ∃ ts : List Nat, List.Forall₂ (Matcher.StandsFor r e ss) ts res.accepted ∧
      (ts.zip p.history).Pairwise
        (fun x y => x.1 < y.1 ∨ x.1 = y.1 ∧ plan.OpenBetween p x.2 y.2) ∧
      (res.outcome = .satisfied ∨ (∃ src, Rule.read src = .ok r) ∨
          (∀ n ∈ p.history, ∀ k ∈ p.history, ¬ plan.OpenBetween p n k) →
        ts.Pairwise (· < ·) ∧ res.accepted.length ≤ res.submissions) := by
  intro plan p ss
  rcases run_cases r e calls with h | ⟨taken, o, hpre, h, hsat⟩
  · rw [h] at hres
    cases hres
  have hp : p = (Matcher.after r e taken).progress := by
    show ((ofRule r e).run calls).matcher.progress = _
    rw [h]
    rfl
  obtain rfl : res = (Matcher.after r e taken).result o := by
    rw [h] at hres
    exact List.mem_singleton.mp hres
  have hss : ss = taken := (List.prefix_iff_eq_take.mp hpre).symm
  rw [hss, hp]
  obtain ⟨hacc, ts, hfor, hpw, hinc⟩ := Matcher.exists_standsFor r e taken
  refine ⟨rfl, hacc, ts, hfor, hpw, fun hor => ?_⟩
  have hlen : ts.length = (Matcher.after r e taken).accepted.length := hfor.length_eq
  have hlen' := congrArg List.length hacc
  rw [List.length_map, List.length_map, ← hlen] at hlen'
  have hts : ts.Pairwise (· < ·) := by
    rcases hor with ho | ⟨src, hsrc⟩ | hno
    · exact hinc (hsat ho)
    · obtain ⟨k, hr⟩ := Plan.runs_offerAll r e taken
      have hl := (Rule.canonical_of_read hsrc).leafAlternatives
      exact increasing_of_not_openBetween hlen' hpw fun n hn k _ => hr.not_openBetween hl hn k
    · exact increasing_of_not_openBetween hlen' hpw hno
  refine ⟨hts, ?_⟩
  have hle := length_le_of_increasing hts (Matcher.lt_of_standsFor hfor)
  rwa [hlen] at hle

/-- A touch advances both alternatives, and the next one satisfies the first: each accepted
interaction has a touch of its own. -/
theorem accepted_stand_for_two_touches :
    let red : Interaction := .touch ⟨.red, .circle, none⟩
    let blue : Interaction := .touch ⟨.blue, .circle, none⟩
    let black : Interaction := .touch ⟨.black, .circle, none⟩
    let r : Rule := .firstOrSecond (.inOrder [.leaf red, .leaf blue])
      (.inOrder [.leaf red, .leaf black])
    let ss : List Submission := [⟨red, none⟩, ⟨blue, none⟩]
    let calls : List Call := ss.map .submit
    ⟨r, .satisfied, [red, blue], 2⟩ ∈ ((ofRule r .centers).run calls).results ∧
      ∃ ts : List Nat, List.Forall₂ (Matcher.StandsFor r .centers ss) ts [red, blue] ∧
        ts.Pairwise (· < ·) := by
  intro red blue black r ss calls
  have hres : (⟨r, .satisfied, [red, blue], 2⟩ : TrialResult) ∈
      ((ofRule r .centers).run calls).results := by
    decide +kernel
  obtain ⟨-, -, ts, hfor, -, hinc⟩ := accepted_stand_for hres
  exact ⟨hres, ts, hfor, (hinc (.inl rfl)).1⟩

/-- Two alternatives wait for the same touch, and the trial expires before either is satisfied: two
interactions are accepted for one submission. -/
theorem two_accepted_for_one_submission :
    let red : Interaction := .touch ⟨.red, .circle, none⟩
    let blue : Interaction := .touch ⟨.blue, .circle, none⟩
    let black : Interaction := .touch ⟨.black, .circle, none⟩
    let r : Rule := .firstOrSecond (.inOrder [.leaf red, .leaf blue])
      (.inOrder [.leaf red, .leaf black])
    let calls : List Call := [.submit ⟨red, none⟩, .expire]
    ∃ res ∈ ((ofRule r .centers).run calls).results,
      res = ⟨r, .expired, [red, red], 1⟩ ∧ ¬ res.accepted.length ≤ res.submissions := by
  intro red blue black r calls
  refine ⟨⟨r, .expired, [red, red], 1⟩, ?_, rfl, by decide⟩
  decide +kernel

end Referee

end BoardTrial
