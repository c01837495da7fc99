import BoardTrial.Rule.Performance
import Mathlib.Data.List.Basic

/-!
# What performs a rule

Interleavings keep the members of both lists and their order, so a performance holds nothing but
leaves of the rule. Two lists that are sorted by distinct keys have an interleaving that is sorted.
-/

namespace BoardTrial

/-- Cases and induction on rules; what holds of each rule of a list may be used for the list. -/
@[induction_eliminator]
theorem Rule.induct {P : Rule → Prop} (doNothing : P .doNothing) (leaf : ∀ i, P (.leaf i))
    (inOrder : ∀ rs, (∀ r ∈ rs, P r) → P (.inOrder rs))
    (inAnyOrder : ∀ rs, (∀ r ∈ rs, P r) → P (.inAnyOrder rs))
    (firstOrSecond : ∀ a b, P a → P b → P (.firstOrSecond a b)) (r : Rule) : P r := by
  refine @Rule.rec P (fun rs => ∀ r ∈ rs, P r) doNothing leaf inOrder inAnyOrder firstOrSecond
    ?_ ?_ r
  · intro r hr
    cases hr
  · intro r rs hr hrs s hs
    rcases List.mem_cons.mp hs with rfl | hs
    · exact hr
    · exact hrs s hs

namespace Interleave

variable {α : Type} {xs ys zs : List α}

/-- An interleaving holds all and only the members of both lists. -/
theorem perm (h : Interleave xs ys zs) : zs.Perm (xs ++ ys) := by
  induction h with
  | nil => exact .refl _
  | left _ ih => exact ih.cons _
  | right _ ih => exact (ih.cons _).trans List.perm_middle.symm

theorem sublist_left (h : Interleave xs ys zs) : xs.Sublist zs := by
  induction h with
  | nil => exact .refl _
  | left _ ih => exact ih.cons_cons _
  | right _ ih => exact ih.cons _

theorem sublist_right (h : Interleave xs ys zs) : ys.Sublist zs := by
  induction h with
  | nil => exact .refl _
  | left _ ih => exact ih.cons _
  | right _ ih => exact ih.cons_cons _

theorem mem_iff (h : Interleave xs ys zs) {a : α} : a ∈ zs ↔ a ∈ xs ∨ a ∈ ys := by
  rw [h.perm.mem_iff, List.mem_append]

theorem nil_left (ys : List α) : Interleave [] ys ys := by
  induction ys with
  | nil => exact .nil
  | cons y ys ih => exact .right ih

theorem nil_right (xs : List α) : Interleave xs [] xs := by
  induction xs with
  | nil => exact .nil
  | cons x xs ih => exact .left ih

theorem map {β : Type} (f : α → β) (h : Interleave xs ys zs) :
    Interleave (xs.map f) (ys.map f) (zs.map f) := by
  induction h with
  | nil => exact .nil
  | left _ ih => exact .left ih
  | right _ ih => exact .right ih

/-- **Sorted lists without a common key interleave to a sorted list.** -/
theorem exists_sorted (key : α → Nat) (hx : xs.Pairwise fun a b => key a < key b)
    (hy : ys.Pairwise fun a b => key a < key b) (hxy : ∀ a ∈ xs, ∀ b ∈ ys, key a ≠ key b) :
    ∃ zs, Interleave xs ys zs ∧ zs.Pairwise fun a b => key a < key b := by
  induction xs generalizing ys with
  | nil => exact ⟨ys, nil_left ys, hy⟩
  | cons x xs ihx =>
    have hx' := List.pairwise_cons.mp hx
    induction ys with
    | nil => exact ⟨x :: xs, nil_right _, hx⟩
    | cons y ys ihy =>
      have hy' := List.pairwise_cons.mp hy
      -- the list whose head has the smaller key goes first
      rcases Nat.lt_or_gt_of_ne (hxy x List.mem_cons_self y List.mem_cons_self) with hlt | hlt
      · obtain ⟨zs, hz, hs⟩ := ihx hx'.2 hy fun a ha => hxy a (List.mem_cons_of_mem _ ha)
        refine ⟨x :: zs, .left hz, List.pairwise_cons.mpr ⟨?_, hs⟩⟩
        intro c hc
        rcases hz.mem_iff.mp hc with hc | hc
        · exact hx'.1 c hc
        · rcases List.mem_cons.mp hc with rfl | hc
          · exact hlt
          · exact Nat.lt_trans hlt (hy'.1 c hc)
      · obtain ⟨zs, hz, hs⟩ := ihy hy'.2 fun a ha b hb => hxy a ha b (List.mem_cons_of_mem _ hb)
        refine ⟨y :: zs, .right hz, List.pairwise_cons.mpr ⟨?_, hs⟩⟩
        intro c hc
        rcases hz.mem_iff.mp hc with hc | hc
        · rcases List.mem_cons.mp hc with rfl | hc
          · exact hlt
          · exact Nat.lt_trans hlt (hx'.1 c hc)
        · exact hy'.1 c hc

end Interleave

namespace Rule

/-- Only leaves of a rule count towards performing it. -/
theorem Performance.mem_leaves {r : Rule} {w : List Interaction} (h : Performance r w)
    {i : Interaction} (hi : i ∈ w) : i ∈ r.leaves := by
  induction h with
  | leaf j => simpa [leaves] using hi
  | noSteps => cases hi
  | steps _ _ ihu ihv =>
    rcases List.mem_append.mp hi with hi | hi
    · exact List.mem_append_left _ (ihu hi)
    · exact List.mem_append_right _ (ihv hi)
  | noClauses => cases hi
  | clauses _ _ hw ihu ihv =>
    rcases hw.mem_iff.mp hi with hi | hi
    · exact List.mem_append_left _ (ihu hi)
    · exact List.mem_append_right _ (ihv hi)
  | first b _ ih => exact List.mem_append_left _ (ih hi)
  | second a _ ih => exact List.mem_append_right _ (ih hi)

end Rule

end BoardTrial
