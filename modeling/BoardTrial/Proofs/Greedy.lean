import BoardTrial.Proofs.MarkedRule
import BoardTrial.Proofs.Performance
import Mathlib.Data.List.Induction

/-!
# Taking what comes is enough

A marked rule never waits for a better use of a submission. Steps and alternatives lose nothing by
that. Clauses lose nothing either if no two of them have a leaf in common, unless they are both
leaves (`Rule.Unshared`): then whoever performs such a rule, among whatever else, has it done.
-/

namespace BoardTrial

namespace Rule

/-- The rule is one leaf. -/
def IsLeaf (r : Rule) : Prop := ∃ i, r = .leaf i

/-- Two rules have a common leaf only if both are leaves. -/
def MeetAsLeaves (r s : Rule) : Prop := ∀ i ∈ r.leaves, i ∈ s.leaves → r.IsLeaf ∧ s.IsLeaf

/-- Two clauses of a set have a common leaf only if both are leaves. -/
inductive Unshared : Rule → Prop where
  /-- There are no leaves. -/
  | doNothing : Unshared .doNothing
  /-- There is one leaf. -/
  | leaf (i : Interaction) : Unshared (.leaf i)
  /-- Steps may have leaves in common. -/
  | inOrder {rs : List Rule} : (∀ r ∈ rs, Unshared r) → Unshared (.inOrder rs)
  /-- Clauses may have leaves in common only as leaves. -/
  | inAnyOrder {rs : List Rule} : (∀ r ∈ rs, Unshared r) → rs.Pairwise MeetAsLeaves →
      Unshared (.inAnyOrder rs)
  /-- Alternatives may have leaves in common. -/
  | firstOrSecond {a b : Rule} : Unshared a → Unshared b → Unshared (.firstOrSecond a b)

end Rule

namespace MarkedRule

variable {σ : Type} {accepts : σ → Interaction → Bool}

/-! ### Who takes a submission -/

/-- Who takes a submission has a leaf that it counts for. -/
theorem Offered.exists_accepts {accepts : Interaction → Bool} {now : Nat} {m m' : MarkedRule}
    {o : Offer} (h : Offered accepts now m o m') (ho : o ≠ .ignored) :
    ∃ i ∈ m.rule.leaves, accepts i = true := by
  induction h with
  | ignored m => exact absurd rfl ho
  | @leaf i hi => exact ⟨i, by simp [rule, Rule.leaves], hi⟩
  | step _ _ hne _ ih =>
    obtain ⟨i, hi, hacc⟩ := ih hne
    exact ⟨i, by simp [rule, rules_append, rules, Rule.leaves, Rule.leavesOfAll_append,
      Rule.leavesOfAll, hi], hacc⟩
  | clause _ hne _ ih =>
    obtain ⟨i, hi, hacc⟩ := ih hne
    exact ⟨i, by simp [rule, rules_append, rules, Rule.leaves, Rule.leavesOfAll_append,
      Rule.leavesOfAll, hi], hacc⟩
  | first _ _ _ ih =>
    obtain ⟨i, hi, hacc⟩ := ih (by simp)
    exact ⟨i, List.mem_append_left _ hi, hacc⟩
  | second _ _ _ _ _ _ ihb =>
    obtain ⟨i, hi, hacc⟩ := ihb (by simp)
    exact ⟨i, List.mem_append_right _ hi, hacc⟩
  | both _ _ _ _ _ _ iha ihb =>
    rcases Offer.either_ne_ignored ho with hoa | hob
    · obtain ⟨i, hi, hacc⟩ := iha hoa
      exact ⟨i, List.mem_append_left _ hi, hacc⟩
    · obtain ⟨i, hi, hacc⟩ := ihb hob
      exact ⟨i, List.mem_append_right _ hi, hacc⟩

/-- A rule without a leaf for the submission ignores it. -/
theorem offer_of_forall_not {accepts : Interaction → Bool} (now : Nat) {m : MarkedRule}
    (h : ∀ i ∈ m.rule.leaves, accepts i = false) : offer accepts now m = (.ignored, m) := by
  have ho : (offer accepts now m).1 = .ignored := by
    by_contra hne
    obtain ⟨i, hi, hacc⟩ := (offered accepts now m).exists_accepts hne
    simp [h i hi] at hacc
  exact Prod.ext ho (offer_eq_of_ignored ho)

/-! ### Alternatives -/

/-- Alternatives see every submission, until one of them is done. -/
theorem isDone_offerAll_firstOrSecond (a b : MarkedRule) (l : List (σ × Nat)) :
    (offerAll accepts (.firstOrSecond a b) l).isDone =
      ((offerAll accepts a l).isDone || (offerAll accepts b l).isDone) := by
  induction l generalizing a b with
  | nil => rfl
  | cons x l ih =>
    by_cases ha : a.isDone = true
    · rw [offerAll_of_isDone accepts (m := .firstOrSecond a b) (by simp [isDone, ha]),
        offerAll_of_isDone accepts ha]
      simp [isDone, ha]
    by_cases hb : b.isDone = true
    · rw [offerAll_of_isDone accepts (m := .firstOrSecond a b) (by simp [isDone, hb]),
        offerAll_of_isDone accepts hb]
      simp [isDone, hb]
    rw [offerAll_cons, offer_firstOrSecond _ _ (by simpa using ha) (by simpa using hb)]
    split
    · rename_i hoa
      have ha' := (isDone_offer_iff (accepts x.1) x.2 a).mpr (.inr hoa)
      rw [ih, offerAll_cons, offerAll_of_isDone accepts ha', ha', Bool.true_or, Bool.true_or]
    · split <;> exact ih _ _

/-! ### Steps -/

/-- Offers submissions to steps one after another. -/
def offerAllNext (accepts : σ → Interaction → Bool) (ms : List MarkedRule) (l : List (σ × Nat)) :
    List MarkedRule :=
  l.foldl (fun ms x => (offerNext (accepts x.1) x.2 ms).2) ms

@[simp] theorem offerAllNext_cons (ms : List MarkedRule) (x : σ × Nat) (l : List (σ × Nat)) :
    offerAllNext accepts ms (x :: l) =
      offerAllNext accepts (offerNext (accepts x.1) x.2 ms).2 l := rfl

theorem offerAllNext_nil (l : List (σ × Nat)) : offerAllNext accepts [] l = [] := by
  induction l with
  | nil => rfl
  | cons x l ih => rw [offerAllNext_cons, offerNext, ih]

theorem offerAll_inOrder (ms : List MarkedRule) (l : List (σ × Nat)) :
    offerAll accepts (.inOrder ms) l = .inOrder (offerAllNext accepts ms l) := by
  induction l generalizing ms with
  | nil => rfl
  | cons x l ih => rw [offerAll_cons, offer, ih, offerAllNext_cons]

/-- A first step that is done leaves all submissions to the others. -/
theorem offerAllNext_of_isDone {d : MarkedRule} (hd : d.isDone = true) (ms : List MarkedRule)
    (l : List (σ × Nat)) : offerAllNext accepts (d :: ms) l = d :: offerAllNext accepts ms l := by
  induction l generalizing ms with
  | nil => rfl
  | cons x l ih =>
    rw [offerAllNext_cons, offerNext_cons_of_isDone _ _ _ hd, ih, offerAllNext_cons]

/-- If some submissions get the first step done, the others get all that come after it is. -/
theorem offerAllNext_of_isDone_offerAll {m : MarkedRule} {l : List (σ × Nat)}
    (h : (offerAll accepts m l).isDone = true) (ms : List MarkedRule) :
    ∃ d k, d.isDone = true ∧ ∀ l', offerAllNext accepts (m :: ms) (l ++ l') =
      d :: offerAllNext accepts ms (l.drop k ++ l') := by
  induction l generalizing m with
  | nil => exact ⟨m, 0, h, fun l' => offerAllNext_of_isDone h ms l'⟩
  | cons x l ih =>
    by_cases hm : m.isDone = true
    · exact ⟨m, 0, hm, fun l' => offerAllNext_of_isDone hm ms _⟩
    · obtain ⟨d, k, hd, hrun⟩ := ih h
      refine ⟨d, k + 1, hd, ?_⟩
      intro l'
      rw [List.cons_append, offerAllNext_cons,
        offerNext_cons_of_not_isDone _ _ ms (by simpa using hm), hrun, List.drop_succ_cons]

/-! ### Clauses -/

/-- Offers submissions to clauses one after another. -/
def offerAllSome (accepts : σ → Interaction → Bool) (ms : List MarkedRule) (l : List (σ × Nat)) :
    List MarkedRule :=
  l.foldl (fun ms x => (offerSome (accepts x.1) x.2 ms).2) ms

@[simp] theorem offerAllSome_cons (ms : List MarkedRule) (x : σ × Nat) (l : List (σ × Nat)) :
    offerAllSome accepts ms (x :: l) =
      offerAllSome accepts (offerSome (accepts x.1) x.2 ms).2 l := rfl

theorem offerAllSome_nil (l : List (σ × Nat)) : offerAllSome accepts [] l = [] := by
  induction l with
  | nil => rfl
  | cons x l ih => rw [offerAllSome_cons, offerSome, ih]

theorem offerAll_inAnyOrder (ms : List MarkedRule) (l : List (σ × Nat)) :
    offerAll accepts (.inAnyOrder ms) l = .inAnyOrder (offerAllSome accepts ms l) := by
  induction l generalizing ms with
  | nil => rfl
  | cons x l ih => rw [offerAll_cons, offer, ih, offerAllSome_cons]

/-- The submissions that a rule ignores. -/
def leftover (accepts : σ → Interaction → Bool) : MarkedRule → List (σ × Nat) → List (σ × Nat)
  | _, [] => []
  | m, x :: l =>
    if (offer (accepts x.1) x.2 m).1 = .ignored then x :: leftover accepts m l
    else leftover accepts (offer (accepts x.1) x.2 m).2 l

/-- The first clause sees every submission, and the others those that it ignores. -/
theorem offerAllSome_clauses (m : MarkedRule) (ms : List MarkedRule) (l : List (σ × Nat)) :
    offerAllSome accepts (m :: ms) l =
      offerAll accepts m l :: offerAllSome accepts ms (leftover accepts m l) := by
  induction l generalizing m ms with
  | nil => rfl
  | cons x l ih =>
    rw [offerAllSome_cons, offerSome_cons, leftover, offerAll_cons]
    split
    · rename_i h
      rw [ih, offer_eq_of_ignored h, offerAllSome_cons]
    · exact ih _ _

/-- What counts for no leaf of a rule is left over. -/
theorem filter_sublist_leftover (accepts : σ → Interaction → Bool) (m : MarkedRule)
    (l : List (σ × Nat)) :
    (l.filter fun x => m.rule.leaves.all fun i => !accepts x.1 i).Sublist
      (leftover accepts m l) := by
  induction l generalizing m with
  | nil => exact .refl _
  | cons x l ih =>
    rw [leftover, List.filter_cons]
    by_cases hx : m.rule.leaves.all (fun i => !accepts x.1 i) = true
    · have hign : offer (accepts x.1) x.2 m = (.ignored, m) :=
        offer_of_forall_not x.2 (by simpa using hx)
      rw [if_pos hx, if_pos (by rw [hign])]
      exact (ih m).cons_cons x
    · rw [if_neg hx]
      split
      · exact (ih m).cons x
      · simpa using ih (offer (accepts x.1) x.2 m).2

/-! ### Performing a rule gets it done -/

/-- Submissions of interactions, each of which counts for itself. -/
abbrev Exact (x i : Interaction) : Bool := x == i

/-- `Covers rs w`: the interactions `w` hold a performance of each clause on its own, and as many
copies of an interaction as clauses ask for it. -/
structure Covers (rs : List Rule) (w : List Interaction) : Prop where
  /-- Every leaf has a copy of its own. -/
  leaf (i : Interaction) : rs.count (.leaf i) ≤ w.count i
  /-- Every other clause is performed. -/
  other (r : Rule) : r ∈ rs → ¬ r.IsLeaf → ∃ u, r.Performance u ∧ u.Sublist w

/-- Performing a set covers its clauses. -/
theorem covers_of_performance {rs : List Rule} {u w : List Interaction}
    (h : (Rule.inAnyOrder rs).Performance u) (hw : u.Sublist w) : Covers rs w := by
  induction rs generalizing u w with
  | nil => exact ⟨fun i => by simp, fun r hr => by cases hr⟩
  | cons r rs ih =>
    cases h with
    | @clauses _ _ u v _ hu hv hi =>
      have hrest := ih hv (.refl v)
      constructor
      · intro i
        have hle := hw.count_le i
        rw [hi.perm.count_eq, List.count_append] at hle
        have hcount : (r :: rs).count (.leaf i) ≤ u.count i + rs.count (.leaf i) := by
          rw [List.count_cons]
          by_cases hr : r = .leaf i
          · subst hr
            cases hu
            simp [Nat.add_comm]
          · simp [hr]
        have hv := hrest.leaf i
        omega
      · intro s hs hleaf
        rcases List.mem_cons.mp hs with rfl | hs
        · exact ⟨u, hu, hi.sublist_left.trans hw⟩
        · obtain ⟨t, ht, hsub⟩ := hrest.other s hs hleaf
          exact ⟨t, ht, hsub.trans (hi.sublist_right.trans hw)⟩

/-- A leaf takes the first copy of its interaction and leaves the others over. -/
theorem map_leftover_leaf (i : Interaction) (l : List (Interaction × Nat)) :
    (leftover Exact (.leaf i none) l).map (·.1) = (l.map (·.1)).erase i := by
  induction l with
  | nil => rfl
  | cons x l ih =>
    by_cases hx : x.1 = i
    · have hdone : ∀ (t : Nat) (l : List (Interaction × Nat)),
          leftover Exact (.leaf i (some t)) l = l := by
        intro t l
        induction l with
        | nil => rfl
        | cons y l ih => rw [leftover, offer_of_isDone _ _ rfl, if_pos rfl, ih]
      simp [leftover, offer, hx, hdone]
    · simp [leftover, offer, hx, ih]

/-- Interactions that are no leaf of a rule are left over. -/
theorem filter_sublist_map_leftover (r : Rule) (l : List (Interaction × Nat)) :
    ((l.map (·.1)).filter fun i => decide (i ∉ r.leaves)).Sublist
      ((leftover Exact (ofRule r) l).map (·.1)) := by
  have hf := (filter_sublist_leftover Exact (ofRule r) l).map (·.1)
  have hp : ∀ x ∈ l, (decide (x.1 ∉ r.leaves)) = r.leaves.all fun i => !Exact x.1 i := by
    intro x _
    rw [Bool.eq_iff_iff]
    simp only [decide_eq_true_eq, List.all_eq_true, Bool.not_eq_true', beq_eq_false_iff_ne]
    exact ⟨fun h i hi he => h (he ▸ hi), fun h hm => h _ hm rfl⟩
  rw [rule_ofRule, ← List.filter_congr hp] at hf
  rwa [List.filter_map]

/-- What is left of a cover by the first clause covers the others. -/
theorem Covers.leftover {r : Rule} {rs : List Rule} {l : List (Interaction × Nat)}
    (h : Covers (r :: rs) (l.map (·.1))) (hmeet : ∀ s ∈ rs, r.MeetAsLeaves s) :
    Covers rs ((leftover Exact (ofRule r) l).map (·.1)) := by
  have hsub := filter_sublist_map_leftover r l
  constructor
  · intro i
    by_cases hi : Rule.leaf i ∈ rs
    · by_cases hr : i ∈ r.leaves
      · -- the first clause is another copy of the leaf, and takes one copy of its interaction
        obtain ⟨⟨j, rfl⟩, -⟩ := hmeet _ hi i hr (by simp [Rule.leaves])
        obtain rfl : i = j := by simpa [Rule.leaves] using hr
        have hle := h.leaf i
        rw [List.count_cons_self] at hle
        rw [ofRule, map_leftover_leaf, List.count_erase_self]
        omega
      · have hle := hsub.count_le i
        rw [List.count_filter (by simpa using hr)] at hle
        exact Nat.le_trans List.count_le_count_cons (Nat.le_trans (h.leaf i) hle)
    · rw [List.count_eq_zero_of_not_mem hi]
      exact Nat.zero_le _
  · intro s hs hleaf
    obtain ⟨u, hu, hsubl⟩ := h.other s (List.mem_cons_of_mem _ hs) hleaf
    refine ⟨u, hu, List.Sublist.trans ?_ hsub⟩
    have hall : u.filter (fun i => decide (i ∉ r.leaves)) = u := by
      rw [List.filter_eq_self]
      intro i hi
      have hnot : i ∉ r.leaves := fun hr => hleaf (hmeet s hs i hr (hu.mem_leaves hi)).2
      simpa using hnot
    rw [← hall]
    exact hsubl.filter _

/-- A cover of a set gets all of its clauses done. -/
theorem areDone_offerAllSome {rs : List Rule} {l : List (Interaction × Nat)}
    (ih : ∀ r ∈ rs, ∀ {u : List Interaction} {l : List (Interaction × Nat)}, r.Performance u →
      u.Sublist (l.map (·.1)) → (offerAll Exact (ofRule r) l).isDone = true)
    (hmeet : rs.Pairwise Rule.MeetAsLeaves) (h : Covers rs (l.map (·.1))) :
    areDone (offerAllSome Exact (ofRules rs) l) = true := by
  induction rs generalizing l with
  | nil =>
    rw [ofRules, offerAllSome_nil]
    rfl
  | cons r rs ihrs =>
    obtain ⟨hr, hrest⟩ := List.pairwise_cons.mp hmeet
    rw [ofRules, offerAllSome_clauses, areDone, Bool.and_eq_true]
    refine ⟨?_, ihrs (fun s hs => ih s (List.mem_cons_of_mem _ hs)) hrest (h.leftover hr)⟩
    by_cases hleaf : r.IsLeaf
    · obtain ⟨i, rfl⟩ := hleaf
      have hpos : 0 < (l.map (·.1)).count i := by
        have hle := h.leaf i
        rw [List.count_cons_self] at hle
        omega
      exact ih _ List.mem_cons_self (.leaf i)
        (List.singleton_sublist.mpr (List.count_pos_iff.mp hpos))
    · obtain ⟨u, hu, hsub⟩ := h.other r List.mem_cons_self hleaf
      exact ih r List.mem_cons_self hu hsub

theorem isDone_offerAll_leaf {i : Interaction} {l : List (Interaction × Nat)}
    (h : i ∈ l.map (·.1)) : (offerAll Exact (.leaf i none) l).isDone = true := by
  induction l with
  | nil => cases h
  | cons x l ih =>
    by_cases hx : x.1 = i
    · have hoff : offer (Exact x.1) x.2 (.leaf i none) = (.completed, .leaf i (some x.2)) := by
        simp [offer, hx]
      rw [offerAll_cons, hoff, offerAll_of_isDone _ rfl]
      rfl
    · have hoff : offer (Exact x.1) x.2 (.leaf i none) = (.ignored, .leaf i none) := by
        simp [offer, hx]
      rw [offerAll_cons, hoff]
      exact ih (by simpa [Ne.symm hx] using h)

/-- **Performing a rule among whatever else gets it done**, if its clauses have leaves in common
only as leaves. -/
theorem isDone_of_performance {r : Rule} (hr : r.Unshared) {u : List Interaction}
    {l : List (Interaction × Nat)} (hu : r.Performance u) (hl : u.Sublist (l.map (·.1))) :
    (offerAll Exact (ofRule r) l).isDone = true := by
  induction hr generalizing u l with
  | doNothing => cases hu
  | leaf i =>
    cases hu
    exact isDone_offerAll_leaf (List.singleton_sublist.mp hl)
  | @inOrder rs hunsh ih =>
    rw [ofRule, offerAll_inOrder, isDone]
    induction rs generalizing u l with
    | nil => rw [ofRules, offerAllNext_nil, areDone]
    | cons r rs ihrs =>
      cases hu with
      | @steps _ _ u v hu hv =>
        obtain ⟨l₁, l₂, hsplit, h₁, h₂⟩ := List.append_sublist_iff.mp hl
        obtain ⟨k₁, k₂, rfl, rfl, rfl⟩ := List.map_eq_append_iff.mp hsplit
        obtain ⟨d, n, hd, hrun⟩ := offerAllNext_of_isDone_offerAll
          (ih r List.mem_cons_self hu h₁) (ofRules rs)
        rw [ofRules, hrun, areDone, hd, Bool.true_and]
        refine ihrs (fun s hs => ?_) (fun s hs => ih s (List.mem_cons_of_mem _ hs)) hv ?_
        · exact hunsh s (List.mem_cons_of_mem _ hs)
        · rw [List.map_append]
          exact h₂.trans (List.sublist_append_right _ _)
  | @inAnyOrder rs _ hmeet ih =>
    rw [ofRule, offerAll_inAnyOrder, isDone]
    exact areDone_offerAllSome (fun r hr => ih r hr) hmeet (covers_of_performance hu hl)
  | firstOrSecond _ _ iha ihb =>
    rw [ofRule, isDone_offerAll_firstOrSecond]
    cases hu with
    | first _ hu => rw [iha hu hl, Bool.true_or]
    | second _ hu => rw [ihb hu hl, Bool.or_true]

end MarkedRule

end BoardTrial
