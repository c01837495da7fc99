import BoardTrial.Matching.Plan
import Mathlib.Data.List.Basic

/-!
# Where a plan keeps a rule

A plan holds a rule from a number on (`Plan.Holds`): the parts of the rule one after another, each
in the same way, and behind them the node of the rule itself, which knows the numbers of its parts
and where they start. The plan of a rule holds the rule from number zero on.
-/

namespace BoardTrial

namespace Plan

variable (plan : Plan)

/-- Node `n` is `node`, and what is below it starts at `start`. -/
def HasNode (n : Nat) (node : Node) (start : Nat) : Prop :=
  plan.node? n = some node ∧ plan.startOf n = start

/-- The nodes `l` stand in the plan from number `base` on. -/
def HasNodes (base : Nat) (l : List (Node × Nat)) : Prop :=
  ∀ k x, l[k]? = some x → plan.HasNode (base + k) x.1 x.2

variable {plan}

theorem hasNodes_append {base : Nat} {l k : List (Node × Nat)} :
    plan.HasNodes base (l ++ k) ↔ plan.HasNodes base l ∧ plan.HasNodes (base + l.length) k := by
  constructor
  · intro h
    constructor
    · intro i x hx
      apply h i x
      rw [List.getElem?_append_left (List.getElem?_eq_some_iff.mp hx).1, hx]
    · intro i x hx
      rw [Nat.add_assoc]
      exact h _ x (by rw [List.getElem?_append_right (Nat.le_add_right _ _),
        Nat.add_sub_cancel_left, hx])
  · rintro ⟨hl, hk⟩ i x hx
    rcases Nat.lt_or_ge i l.length with hi | hi
    · rw [List.getElem?_append_left hi] at hx
      exact hl i x hx
    · rw [List.getElem?_append_right hi] at hx
      have h := hk _ x hx
      rwa [Nat.add_assoc, Nat.add_sub_of_le hi] at h

theorem hasNodes_singleton {base : Nat} {x : Node × Nat} :
    plan.HasNodes base [x] ↔ plan.HasNode base x.1 x.2 := by
  constructor
  · intro h
    exact h 0 x rfl
  · intro h k y hy
    cases k with
    | zero =>
      obtain rfl : x = y := by simpa using hy
      exact h
    | succ k => simp at hy

mutual

/-- The plan holds a rule from number `base` on. -/
def Holds (plan : Plan) (base : Nat) : Rule → Prop
  | .doNothing => plan.HasNode base .nothing base
  | .leaf i => plan.HasNode base (.leaf i) base
  | .inOrder rs => plan.HoldsAll base rs ∧
      plan.HasNode (base + Rule.nodesOfAll rs) (.inOrder (Rule.rootsFrom base rs)) base
  | .inAnyOrder rs => plan.HoldsAll base rs ∧
      plan.HasNode (base + Rule.nodesOfAll rs) (.inAnyOrder (Rule.rootsFrom base rs)) base
  | .firstOrSecond a b => plan.Holds base a ∧ plan.Holds (base + (a.nodesBelow + 1)) b ∧
      plan.HasNode (base + (a.nodesBelow + 1) + (b.nodesBelow + 1))
        (.firstOrSecond (base + a.nodesBelow) (base + (a.nodesBelow + 1) + b.nodesBelow)) base

/-- The plan holds several rules one after another from number `base` on. -/
def HoldsAll (plan : Plan) (base : Nat) : List Rule → Prop
  | [] => True
  | r :: rs => plan.Holds base r ∧ plan.HoldsAll (base + (r.nodesBelow + 1)) rs

end

mutual

theorem holds_of_hasNodes : ∀ {base : Nat} {r : Rule}, plan.HasNodes base (r.layOut base) →
    plan.Holds base r
  | _, .doNothing, h | _, .leaf _, h => hasNodes_singleton.mp h
  | base, .inOrder rs, h | base, .inAnyOrder rs, h => by
    rw [Rule.layOut, hasNodes_append, hasNodes_singleton, Rule.length_layOutAll] at h
    exact ⟨holdsAll_of_hasNodes h.1, h.2⟩
  | base, .firstOrSecond a b, h => by
    simp only [Rule.layOut, hasNodes_append, hasNodes_singleton, Rule.length_layOut,
      List.length_append] at h
    obtain ⟨⟨ha, hb⟩, hn⟩ := h
    refine ⟨holds_of_hasNodes ha, holds_of_hasNodes hb, ?_⟩
    rwa [Nat.add_assoc base]

theorem holdsAll_of_hasNodes : ∀ {base : Nat} {rs : List Rule},
    plan.HasNodes base (Rule.layOutAll base rs) → plan.HoldsAll base rs
  | _, [], _ => trivial
  | _, r :: rs, h => by
    rw [Rule.layOutAll, hasNodes_append, Rule.length_layOut] at h
    exact ⟨holds_of_hasNodes h.1, holdsAll_of_hasNodes h.2⟩

end

/-- **The plan of a rule holds it from number zero on.** -/
theorem holds_ofRule (r : Rule) : (ofRule r).Holds 0 r := by
  apply holds_of_hasNodes
  intro k x hx
  rw [Nat.zero_add]
  constructor
  · simp [node?, hx]
  · simp [startOf, hx, Array.getD_eq_getD_getElem?]

/-- What is below the last node of a rule starts where the rule does. -/
theorem Holds.startOf_root {base : Nat} {r : Rule} (h : plan.Holds base r) :
    plan.startOf (base + r.nodesBelow) = base := by
  cases r with
  | doNothing => exact h.2
  | leaf i => exact h.2
  | inOrder rs => exact h.2.2
  | inAnyOrder rs => exact h.2.2
  | firstOrSecond a b =>
    have hn := h.2.2.2
    rwa [Nat.add_assoc] at hn

/-! ### Several rules -/

theorem holdsAll_append {base : Nat} {rs ss : List Rule} :
    plan.HoldsAll base (rs ++ ss) ↔
      plan.HoldsAll base rs ∧ plan.HoldsAll (base + Rule.nodesOfAll rs) ss := by
  induction rs generalizing base with
  | nil => simp [HoldsAll, Rule.nodesOfAll]
  | cons r rs ih => simp only [List.cons_append, HoldsAll, ih, Rule.nodesOfAll, and_assoc,
      Nat.add_assoc]

end Plan

namespace Rule

theorem nodesOfAll_append (rs ss : List Rule) :
    nodesOfAll (rs ++ ss) = nodesOfAll rs + nodesOfAll ss := by
  induction rs with
  | nil => simp [nodesOfAll]
  | cons r rs ih => simp only [List.cons_append, nodesOfAll, ih, Nat.add_assoc]

theorem rootsFrom_append (base : Nat) (rs ss : List Rule) :
    rootsFrom base (rs ++ ss) = rootsFrom base rs ++ rootsFrom (base + nodesOfAll rs) ss := by
  induction rs generalizing base with
  | nil => simp [nodesOfAll, rootsFrom]
  | cons r rs ih => simp only [List.cons_append, rootsFrom, ih, nodesOfAll, Nat.add_assoc]

/-- Roots are numbered within what the rules take up. -/
theorem lt_of_mem_rootsFrom {base : Nat} {rs : List Rule} {n : Nat} (h : n ∈ rootsFrom base rs) :
    base ≤ n ∧ n < base + nodesOfAll rs := by
  induction rs generalizing base with
  | nil => cases h
  | cons r rs ih =>
    rw [nodesOfAll]
    rcases List.mem_cons.mp h with rfl | h
    · omega
    · have := ih h
      omega

end Rule

end BoardTrial
