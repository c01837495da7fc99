import BoardTrial.Proofs.Greedy
import BoardTrial.Proofs.PlanRuns

/-!
# Which interactions satisfy a rule

A plan that has been satisfied has seen a performance of its rule, among whatever else. If the rule
is `Rule.Unshared` it is satisfied as soon as that is so: `Plan.satisfied_iff_performed`.
-/

namespace BoardTrial

open MarkedRule

/-- A submission of an interaction that did not end in a release. -/
def Submission.plain (i : Interaction) : Submission := ⟨i, none⟩

/-- A submission without a release is accepted for its interaction only. -/
@[simp] theorem Evidence.accepts_plain (e : Evidence) (i : Interaction) :
    e.accepts (.plain i) = Exact i := by
  funext j
  simp [accepts, Submission.plain]

/-- Members at increasing places are a subsequence. -/
theorem sublist_drop_of_increasing {α : Type} {l : List α} {v : List (Nat × α)} {k : Nat}
    (hv : v.Pairwise fun x y => x.1 < y.1) (hk : ∀ x ∈ v, k ≤ x.1)
    (hl : ∀ x ∈ v, l[x.1]? = some x.2) : (v.map (·.2)).Sublist (l.drop k) := by
  induction v generalizing k with
  | nil => exact List.nil_sublist _
  | cons x v ih =>
    obtain ⟨hx, hv⟩ := List.pairwise_cons.mp hv
    obtain ⟨hlt, heq⟩ := List.getElem?_eq_some_iff.mp (hl x List.mem_cons_self)
    have hrest := ih hv (fun y hy => hx y hy) fun y hy => hl y (List.mem_cons_of_mem _ hy)
    have hdrop : l.drop x.1 = x.2 :: l.drop (x.1 + 1) := by
      rw [List.drop_eq_getElem_cons hlt, heq]
    rw [List.map_cons]
    refine List.Sublist.trans ?_ (List.drop_sublist_drop_left l (hk x List.mem_cons_self))
    rw [hdrop]
    exact hrest.cons_cons _

/-- Submissions without a release do what their interactions do. -/
theorem MarkedRule.offerAll_plain (e : Evidence) (m : MarkedRule) (w : List Interaction)
    (now : Nat) :
    offerAll e.accepts m ((w.map Submission.plain).zipIdx now) =
      offerAll Exact m (w.zipIdx now) := by
  rw [offerAll_map]
  simp only [Evidence.accepts_plain]

namespace Plan

/-- Whether the plan is satisfied once interactions have happened, none with a release. -/
def isSatisfiedBy (plan : Plan) (e : Evidence) (w : List Interaction) : Bool :=
  (plan.offerAll e plan.fresh (w.map Submission.plain)).isSatisfied plan.root

theorem isSatisfiedBy_eq (r : Rule) (e : Evidence) (w : List Interaction) :
    (ofRule r).isSatisfiedBy e w = (MarkedRule.offerAll Exact (.ofRule r) w.zipIdx).isDone := by
  obtain ⟨h, hr⟩ := runs_offerAll r e (w.map Submission.plain)
  rw [isSatisfiedBy, hr.isSatisfied, offerAll_plain]

/-- A satisfied plan has seen a performance of its rule. -/
theorem exists_performance_of_isSatisfiedBy {r : Rule} {e : Evidence} {w : List Interaction}
    (h : (ofRule r).isSatisfiedBy e w = true) : ∃ u, r.Performance u ∧ u.Sublist w := by
  rw [isSatisfiedBy_eq] at h
  obtain ⟨ho, hs⟩ := ordered_sourced_offerAll Exact r w
  obtain ⟨v, hinc, hperm, hperf⟩ := ho.performed h
  rw [rule_offerAll, rule_ofRule] at hperf
  refine ⟨_, hperf, sublist_drop_of_increasing hinc (fun x _ => Nat.zero_le x.1) fun x hx => ?_⟩
  obtain ⟨i, hi, heq⟩ := hs x (hperm.mem_iff.mp hx)
  rwa [← eq_of_beq heq]

/-- A plan that has seen a performance of its rule is satisfied, if the rule is unshared. -/
theorem isSatisfiedBy_of_performance {r : Rule} (hr : r.Unshared) (e : Evidence)
    {u w : List Interaction} (hu : r.Performance u) (hw : u.Sublist w) :
    (ofRule r).isSatisfiedBy e w = true := by
  rw [isSatisfiedBy_eq]
  refine isDone_of_performance hr hu ?_
  rwa [List.zipIdx_map_fst]

/-- **A plan recognises the performances of its rule.** Once it is satisfied, a performance has
happened, among whatever else; and if clauses of one set have leaves in common only as leaves, it is
satisfied at the first moment at which a performance has happened, and from then on. -/
theorem satisfied_iff_performed (r : Rule) (e : Evidence) (w : List Interaction) :
    ((ofRule r).isSatisfiedBy e w = true → ∃ u, r.Performance u ∧ u.Sublist w) ∧
      (r.Unshared → (∃ u, r.Performance u ∧ u.Sublist w) → (ofRule r).isSatisfiedBy e w = true) ∧
      (r.Unshared → ∀ n, (ofRule r).isSatisfiedBy e (w.take n) = true ↔
        ∃ u, r.Performance u ∧ u.Sublist (w.take n)) := by
  refine ⟨exists_performance_of_isSatisfiedBy, ?_, fun hr n => ⟨?_, ?_⟩⟩
  · rintro hr ⟨u, hu, hw⟩
    exact isSatisfiedBy_of_performance hr e hu hw
  · exact exists_performance_of_isSatisfiedBy
  · rintro ⟨u, hu, hw⟩
    exact isSatisfiedBy_of_performance hr e hu hw

/-- A set that asks for one interaction twice is satisfied by doing it twice, whatever comes in
between. -/
theorem satisfied_by_touching_twice :
    (ofRule (.inAnyOrder [.leaf (.touch ⟨.red, .circle, none⟩),
        .leaf (.touch ⟨.red, .circle, none⟩)])).isSatisfiedBy .centers
      [.touch ⟨.red, .circle, none⟩, .touch ⟨.blue, .circle, none⟩,
        .touch ⟨.red, .circle, none⟩] = true := by
  refine (satisfied_iff_performed _ _ _).2.1 (.inAnyOrder (by simp [Rule.Unshared.leaf]) ?_)
    ⟨[.touch ⟨.red, .circle, none⟩, .touch ⟨.red, .circle, none⟩], ?_, by decide⟩
  · simp [Rule.MeetAsLeaves, Rule.IsLeaf]
  · exact .clauses (.leaf _) (.clauses (.leaf _) .noClauses (.left .nil)) (.left (.right .nil))

end Plan

end BoardTrial
