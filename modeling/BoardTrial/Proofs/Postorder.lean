import BoardTrial.Matching.Postorder
import BoardTrial.Proofs.Parts

/-!
# A plan is its rule in postorder

The nodes of the plan of a rule stand for the parts of the rule, in postorder
(`Plan.map_ruleAt?_range`). What is below a node has the numbers of one stretch, and the stretches
of the nodes right below it, one behind the other, are this stretch without the node itself. So
**nothing of a rule is lost in its plan**, and to forget the leaves of a node is to forget what is
below it (`Plan.stands_for_rule`).
-/

namespace BoardTrial

namespace Rule

mutual

/-- The leaves of a rule are those of its parts that are leaves. -/
theorem filterMap_postorder : ∀ r : Rule, r.postorder.filterMap interaction? = r.leaves
  | doNothing | leaf _ => rfl
  | inOrder rs | inAnyOrder rs => by
    simp [postorder, leaves, interaction?, filterMap_postorderOfAll rs]
  | firstOrSecond a b => by
    simp [postorder, leaves, interaction?, filterMap_postorder a, filterMap_postorder b]

theorem filterMap_postorderOfAll :
    ∀ rs : List Rule, (postorderOfAll rs).filterMap interaction? = leavesOfAll rs
  | [] => rfl
  | r :: rs => by
    simp [postorderOfAll, leavesOfAll, filterMap_postorder r, filterMap_postorderOfAll rs]

end

end Rule

namespace Plan

variable {plan : Plan} {base : Nat} {r : Rule}

/-! ### What the nodes stand for -/

section Seen

variable {β : Type} {f : Nat → β} {φ : Rule → β}

mutual

/-- What is seen of the nodes of a rule, one after another, is what is seen of its parts in
postorder. -/
theorem Holds.map_range' (hf : ∀ {base r}, plan.Holds base r → f (base + r.nodesBelow) = φ r) :
    ∀ {base : Nat} {r : Rule}, plan.Holds base r →
      (List.range' base (r.nodesBelow + 1)).map f = r.postorder.map φ
  | _, .doNothing, h | _, .leaf _, h => by
    rw [Rule.nodesBelow, List.range'_one, Rule.postorder, List.map_singleton, List.map_singleton]
    exact congrArg (fun x => [x]) (hf h)
  | base, .inOrder rs, h | base, .inAnyOrder rs, h => by
    rw [List.range'_1_concat, List.map_append, List.map_singleton, hf h, Rule.nodesBelow,
      HoldsAll.map_range' hf h.1, Rule.postorder, List.map_append, List.map_singleton]
  | base, .firstOrSecond a b, h => by
    rw [List.range'_1_concat, List.map_append, List.map_singleton, hf h, Rule.nodesBelow,
      ← List.range'_append_1, List.map_append, Holds.map_range' hf h.1, Holds.map_range' hf h.2.1,
      Rule.postorder, List.map_append, List.map_append, List.map_singleton]

theorem HoldsAll.map_range' (hf : ∀ {base r}, plan.Holds base r → f (base + r.nodesBelow) = φ r) :
    ∀ {base : Nat} {rs : List Rule}, plan.HoldsAll base rs →
      (List.range' base (Rule.nodesOfAll rs)).map f = (Rule.postorderOfAll rs).map φ
  | _, [], _ => rfl
  | base, r :: rs, h => by
    rw [Rule.nodesOfAll, ← List.range'_append_1, List.map_append, Holds.map_range' hf h.1,
      HoldsAll.map_range' hf h.2, Rule.postorderOfAll, List.map_append]

end

end Seen

mutual

/-- **A rule is read back from its node.** -/
theorem Holds.ruleAt?_root :
    ∀ {base : Nat} {r : Rule}, plan.Holds base r → plan.ruleAt? (base + r.nodesBelow) = some r
  | _, .doNothing, h | _, .leaf _, h => by
    rw [ruleAt?, Rule.nodesBelow, Nat.add_zero, h.1]
    rfl
  | base, .inOrder rs, h | base, .inAnyOrder rs, h => by
    rw [ruleAt?, Rule.nodesBelow, h.2.1]
    simp only [ruleOf?, HoldsAll.mapM_ruleAt? h.1 (Nat.le_refl _), Option.map_some]
  | base, .firstOrSecond a b, h => by
    obtain ⟨ha, hb, hn, -⟩ := h
    rw [ruleAt?, Rule.nodesBelow, ← Nat.add_assoc, hn]
    simp only [ruleOf?]
    rw [dif_pos (by omega), dif_pos (by omega), ha.ruleAt?_root, hb.ruleAt?_root]
    rfl

theorem HoldsAll.mapM_ruleAt? : ∀ {base n : Nat} {rs : List Rule}, plan.HoldsAll base rs →
    base + Rule.nodesOfAll rs ≤ n →
      (Rule.rootsFrom base rs).mapM (fun c => if _ : c < n then plan.ruleAt? c else none) = some rs
  | _, _, [], _, _ => rfl
  | base, n, r :: rs, h, hn => by
    rw [Rule.nodesOfAll] at hn
    rw [Rule.rootsFrom, List.mapM_cons, dif_pos (by omega), h.1.ruleAt?_root,
      HoldsAll.mapM_ruleAt? h.2 (by omega)]
    rfl

end

/-- Each node of the plan of a rule stands for a part that the plan holds. -/
theorem exists_holds {n : Nat} (hn : n < (ofRule r).size) :
    ∃ s base, (ofRule r).Holds base s ∧ base + s.nodesBelow = n ∧ (ofRule r).ruleAt? n = some s := by
  obtain ⟨m, base, hm, rfl⟩ := MarkedRule.exists_part (.ofRule r) (Nat.zero_le n) (by
    rwa [Nat.zero_add, MarkedRule.width_ofRule, ← size_ofRule])
  have hh : (ofRule r).Holds base m.rule := by
    refine Holds.part ?_ hm
    rw [MarkedRule.rule_ofRule]
    exact holds_ofRule r
  exact ⟨m.rule, base, hh, rfl, hh.ruleAt?_root⟩

theorem lt_size_of_ruleAt? {n : Nat} (h : plan.ruleAt? n = some r) : n < plan.size := by
  rw [ruleAt?] at h
  cases hnode : plan.node? n with
  | none => rw [hnode] at h; cases h
  | some node => exact (Array.getElem?_eq_some_iff.mp hnode).1

/-- **The nodes of the plan of a rule stand for its parts in postorder.** -/
theorem map_ruleAt?_range (r : Rule) :
    (List.range (ofRule r).size).map (ofRule r).ruleAt? = r.postorder.map some := by
  rw [size_ofRule, List.range_eq_range']
  exact (holds_ofRule r).map_range' Holds.ruleAt?_root

/-! ### Stretches -/

theorem Holds.stretch_root (h : plan.Holds base r) :
    plan.stretch (base + r.nodesBelow) = List.range' base (r.nodesBelow + 1) := by
  rw [stretch, h.startOf_root]
  congr 1
  omega

theorem HoldsAll.flatMap_stretch {rs : List Rule} (h : plan.HoldsAll base rs) :
    (Rule.rootsFrom base rs).flatMap plan.stretch = List.range' base (Rule.nodesOfAll rs) := by
  induction rs generalizing base with
  | nil => rfl
  | cons r rs ih =>
    rw [Rule.rootsFrom, List.flatMap_cons, h.1.stretch_root, ih h.2, List.range'_append_1,
      Rule.nodesOfAll]

/-- The stretches of the nodes right below that of a rule, one behind the other. -/
theorem Holds.flatMap_stretch (h : plan.Holds base r) {node : Node}
    (hnode : plan.node? (base + r.nodesBelow) = some node) :
    node.children.flatMap plan.stretch = List.range' base r.nodesBelow := by
  cases r with
  | doNothing | leaf i =>
    obtain rfl := Option.some.inj (h.1.symm.trans hnode)
    rfl
  | inOrder rs | inAnyOrder rs =>
    obtain rfl := Option.some.inj (h.2.1.symm.trans hnode)
    exact h.1.flatMap_stretch
  | firstOrSecond a b =>
    obtain ⟨ha, hb, hn, -⟩ := h
    rw [Rule.nodesBelow, ← Nat.add_assoc, hn] at hnode
    obtain rfl := Option.some.inj hnode
    rw [Node.children, List.flatMap_cons, List.flatMap_singleton, ha.stretch_root, hb.stretch_root,
      List.range'_append_1, Rule.nodesBelow]

/-- A number that no node has starts at itself. -/
theorem startOf_of_size_le {n : Nat} (hn : (ofRule r).size ≤ n) : (ofRule r).startOf n = n := by
  rw [size_ofRule] at hn
  simp [startOf, Array.getD_eq_getD_getElem?, Nat.not_lt.mpr hn]

theorem startOf_le (r : Rule) (n : Nat) : (ofRule r).startOf n ≤ n := by
  rcases Nat.lt_or_ge n (ofRule r).size with hn | hn
  · obtain ⟨s, base, hs, rfl, -⟩ := exists_holds hn
    rw [hs.startOf_root]
    exact Nat.le_add_right base _
  · exact Nat.le_of_eq (startOf_of_size_le hn)

/-- Nothing is below a number that no node has. -/
theorem eq_of_below {n m : Nat} (hn : plan.size ≤ n) (h : plan.Below n m) : m = n := by
  induction h with
  | self => rfl
  | child _ hnode _ ih =>
    have hlt := (Array.getElem?_eq_some_iff.mp hnode).1
    exact absurd hlt (Nat.not_lt.mpr (ih ▸ hn))

/-- **What is below a node is its stretch.** -/
theorem below_iff_isWithin (r : Rule) (n m : Nat) :
    (ofRule r).Below n m ↔ (ofRule r).isWithin n m = true := by
  rw [isWithin, Bool.and_eq_true, decide_eq_true_eq, decide_eq_true_eq]
  rcases Nat.lt_or_ge n (ofRule r).size with hn | hn
  · obtain ⟨s, base, hs, rfl, -⟩ := exists_holds hn
    have hbelow := Holds.below_iff (m := .ofRule s) (n := m) (by rwa [MarkedRule.rule_ofRule])
    rw [MarkedRule.root, MarkedRule.rule_ofRule, MarkedRule.width_ofRule] at hbelow
    rw [hbelow, hs.startOf_root]
    omega
  · rw [startOf_of_size_le hn]
    constructor
    · intro h
      rw [eq_of_below hn h]
      exact ⟨Nat.le_refl n, Nat.le_refl n⟩
    · rintro ⟨hle, hge⟩
      rw [Nat.le_antisymm hge hle]
      exact .self

instance (r : Rule) (n m : Nat) : Decidable ((ofRule r).Below n m) :=
  decidable_of_iff _ (below_iff_isWithin r n m).symm

/-! ### Leaves -/

theorem Holds.interaction?_root (h : plan.Holds base r) :
    plan.interaction? (base + r.nodesBelow) = r.interaction? := by
  cases r with
  | doNothing | leaf i =>
    rw [interaction?, Rule.nodesBelow, Nat.add_zero, h.1]
    rfl
  | inOrder rs | inAnyOrder rs =>
    rw [interaction?, Rule.nodesBelow, h.2.1]
    rfl
  | firstOrSecond a b =>
    rw [interaction?, Rule.nodesBelow, ← Nat.add_assoc, h.2.2.1]
    rfl

/-- The leaves among the nodes of a rule are its leaves from left to right. -/
theorem Holds.filterMap_range' (h : plan.Holds base r) :
    (List.range' base (r.nodesBelow + 1)).filterMap plan.interaction? = r.leaves := by
  have hmap := congrArg (List.filterMap id) (h.map_range' Holds.interaction?_root)
  rw [List.filterMap_map, List.filterMap_map] at hmap
  exact hmap.trans (Rule.filterMap_postorder r)

/-- **Nothing of a rule is lost in its plan.** The nodes stand for the parts of the rule in
postorder, so that the last is the whole rule. What is below a node, itself included, has the
numbers from its start up to its own. Where nodes are right below it, their numbers follow each
other without gap from the same start up to the number before its own. The leaves of each part, from
left to right, are in the order of their numbers. So to forget the leaves of a node is to forget
what is below it, and to keep the rest in order. -/
theorem stands_for_rule (r : Rule) :
    let plan := ofRule r
    -- the nodes
    (plan.root + 1 = plan.size ∧ plan.starts.size = plan.size ∧
      (List.range plan.size).map plan.ruleAt? = r.postorder.map some ∧
      plan.ruleAt? plan.root = some r) ∧
    -- what is below them
    (∀ n, plan.startOf n ≤ n ∧ ∀ m, plan.Below n m ↔ plan.startOf n ≤ m ∧ m ≤ n) ∧
    (∀ n node, plan.node? n = some node → node.children.flatMap plan.stretch =
      List.range' (plan.startOf n) (n - plan.startOf n)) ∧
    -- their leaves
    (∀ n s, plan.ruleAt? n = some s → (plan.stretch n).filterMap plan.interaction? = s.leaves) ∧
    ((List.range plan.size).filterMap plan.interaction? = r.leaves ∧
      ((List.range plan.size).filterMap plan.interaction?).length = r.leafCount) ∧
    -- what is forgotten
    ∀ n p, plan.discard n p = { p with history := p.history.filter fun m => ¬ plan.Below n m } := by
  intro plan
  have hroot := holds_ofRule r
  have hleaves : (List.range plan.size).filterMap plan.interaction? = r.leaves := by
    rw [size_ofRule, List.range_eq_range']
    exact hroot.filterMap_range'
  have hsize : plan.root + 1 = plan.size := by simp [plan]
  refine ⟨⟨hsize, ?_, map_ruleAt?_range r, ?_⟩, fun n => ⟨startOf_le r n, fun m => ?_⟩,
    fun n node hnode => ?_, fun n s hs => ?_, ⟨hleaves, congrArg List.length hleaves⟩, fun n p => ?_⟩
  · rw [size_ofRule]
    simp [plan]
  · have h := hroot.ruleAt?_root
    rwa [Nat.zero_add, ← root_ofRule] at h
  · rw [below_iff_isWithin, isWithin, Bool.and_eq_true, decide_eq_true_eq, decide_eq_true_eq]
  · obtain ⟨s, base, hs, rfl, -⟩ := exists_holds (Array.getElem?_eq_some_iff.mp hnode).1
    rw [hs.flatMap_stretch hnode, hs.startOf_root, Nat.add_sub_cancel_left]
  · obtain ⟨s', base, hs', rfl, heq⟩ := exists_holds (lt_size_of_ruleAt? hs)
    obtain rfl := Option.some.inj (heq.symm.trans hs)
    rw [hs'.stretch_root, hs'.filterMap_range']
  · rw [discard]
    refine congrArg (fun history => { p with history }) (List.filter_congr fun m _ => ?_)
    simp [plan, below_iff_isWithin]

/-- A leaf beside two alternatives, in any order. Node 3 is that of the alternatives. -/
example :
    let red : Rule := .leaf (.touch ⟨.red, .circle, none⟩)
    let plan := ofRule (.inAnyOrder [red, .firstOrSecond red .doNothing])
    plan.starts = #[0, 1, 2, 1, 0] ∧ plan.node? 4 = some (.inAnyOrder [0, 3]) ∧
      plan.stretch 3 = [1, 2, 3] ∧ plan.ruleAt? 3 = some (.firstOrSecond red .doNothing) := by
  decide +kernel

end Plan

end BoardTrial
