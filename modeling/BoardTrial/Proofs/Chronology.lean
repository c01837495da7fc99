import BoardTrial.Proofs.MarkedRule
import BoardTrial.Proofs.Performance
import Mathlib.Data.List.Induction

/-!
# When things were done

In every marked rule that offers lead to, steps were done one after the other, and no two clauses of
a set were ever marked at one time (`MarkedRule.Ordered`); only alternatives can take one submission
together. So the leaves that count for a rule that is done, put in the order of their times, perform
the rule, and each of them has a submission of its own.
-/

namespace BoardTrial

namespace MarkedRule

/-- Step `b` comes after step `a`: it has no marks before `a` is done, and no earlier marks. -/
def Before (a b : MarkedRule) : Prop :=
  (a.isDone = true ∨ b.log = []) ∧ ∀ x ∈ a.log, ∀ y ∈ b.log, x.1 < y.1

/-- Clauses `a` and `b` have no marks of one time. -/
def Apart (a b : MarkedRule) : Prop := ∀ x ∈ a.log, ∀ y ∈ b.log, x.1 ≠ y.1

/-- The times of all marks fit the rule. -/
inductive Ordered : MarkedRule → Prop where
  /-- There is nothing to mark. -/
  | doNothing : Ordered .doNothing
  /-- A leaf may be marked with any time. -/
  | leaf (i : Interaction) (time : Option Nat) : Ordered (.leaf i time)
  /-- Steps come one after the other. -/
  | inOrder {ms : List MarkedRule} : (∀ m ∈ ms, Ordered m) → ms.Pairwise Before →
      Ordered (.inOrder ms)
  /-- Clauses are marked at different times. -/
  | inAnyOrder {ms : List MarkedRule} : (∀ m ∈ ms, Ordered m) → ms.Pairwise Apart →
      Ordered (.inAnyOrder ms)
  /-- Alternatives are marked as they may be. -/
  | firstOrSecond {a b : MarkedRule} : Ordered a → Ordered b → Ordered (.firstOrSecond a b)

/-- Replacing one member of a list keeps a relation between its members. -/
theorem pairwise_replace {α : Type} {R : α → α → Prop} {pre post : List α} {a b : α}
    (h : (pre ++ a :: post).Pairwise R) (hpre : ∀ c ∈ pre, R c a → R c b)
    (hpost : ∀ c ∈ post, R a c → R b c) : (pre ++ b :: post).Pairwise R := by
  rw [List.pairwise_append, List.pairwise_cons] at h ⊢
  obtain ⟨h₁, ⟨h₂, h₃⟩, h₄⟩ := h
  refine ⟨h₁, ⟨fun c hc => hpost c hc (h₂ c hc), h₃⟩, ?_⟩
  intro c hc d hd
  rcases List.mem_cons.mp hd with rfl | hd
  · exact hpre c hc (h₄ c hc a List.mem_cons_self)
  · exact h₄ c hc d (List.mem_cons_of_mem _ hd)

theorem forall_mem_replace {α : Type} {P : α → Prop} {pre post : List α} {a b : α}
    (h : ∀ c ∈ pre ++ a :: post, P c) (hb : P b) : ∀ c ∈ pre ++ b :: post, P c := by
  intro c hc
  rcases List.mem_append.mp hc with hc | hc
  · exact h c (List.mem_append_left _ hc)
  · rcases List.mem_cons.mp hc with rfl | hc
    · exact hb
    · exact h c (List.mem_append_right _ (List.mem_cons_of_mem _ hc))

/-! ### Every run is ordered -/

mutual

@[simp] theorem log_ofRule : ∀ r : Rule, (ofRule r).log = []
  | .doNothing | .leaf _ => rfl
  | .inOrder rs | .inAnyOrder rs => logs_ofRules rs
  | .firstOrSecond a b => by
    simp only [ofRule, log, log_ofRule a, log_ofRule b, List.append_nil, ite_self]

@[simp] theorem logs_ofRules : ∀ rs : List Rule, logs (ofRules rs) = []
  | [] => rfl
  | r :: rs => by simp only [ofRules, logs, log_ofRule r, logs_ofRules rs, List.append_nil]

end

theorem ofRules_eq_map (rs : List Rule) : ofRules rs = rs.map ofRule := by
  induction rs with
  | nil => rfl
  | cons r rs ih => simp [ofRules, ih]

/-- A rule without marks is ordered. -/
theorem ordered_ofRule (r : Rule) : (ofRule r).Ordered := by
  induction r with
  | doNothing => exact .doNothing
  | leaf i => exact .leaf i none
  | inOrder rs ih =>
    rw [ofRule, ofRules_eq_map]
    refine .inOrder (by simpa using ih) (List.pairwise_map.mpr (List.pairwise_of_forall ?_))
    intro r s
    exact ⟨.inr (log_ofRule s), by simp⟩
  | inAnyOrder rs ih =>
    rw [ofRule, ofRules_eq_map]
    refine .inAnyOrder (by simpa using ih) (List.pairwise_map.mpr (List.pairwise_of_forall ?_))
    intro r s
    simp [Apart]
  | firstOrSecond a b iha ihb => exact .firstOrSecond iha ihb

/-- An offer later than all marks keeps a rule ordered. -/
theorem Offered.ordered {accepts : Interaction → Bool} {now : Nat} {m m' : MarkedRule} {o : Offer}
    (h : Offered accepts now m o m') (hm : m.Ordered) (hnow : ∀ x ∈ m.log, x.1 < now) :
    m'.Ordered := by
  induction h with
  | ignored m => exact hm
  | leaf _ => exact .leaf _ _
  | @step pre post m m' o hpre hd _ h ih =>
    cases hm with
    | inOrder hall hpw =>
      have hlog : ∀ k ∈ pre ++ m :: post, ∀ x ∈ k.log, x.1 < now :=
        fun k hk x hx => hnow x (mem_logs.mpr ⟨k, hk, hx⟩)
      refine .inOrder (forall_mem_replace hall (ih (hall m (by simp)) (hlog m (by simp)))) ?_
      apply pairwise_replace hpw
      · intro k hk hkm
        refine ⟨.inl ((areDone_iff pre).mp hpre k hk), ?_⟩
        intro x hx y hy
        rcases h.mem_log hy with hy | ⟨hy, -⟩
        · exact hkm.2 x hx y hy
        · exact hy ▸ hlog k (by simp [hk]) x hx
      · -- a step that is not done has nothing marked after it
        intro k hk hmk
        have hk : k.log = [] := hmk.1.resolve_left (by simp [hd])
        exact ⟨.inr hk, by simp [hk]⟩
  | @clause pre post m m' o _ _ h ih =>
    cases hm with
    | inAnyOrder hall hpw =>
      have hlog : ∀ k ∈ pre ++ m :: post, ∀ x ∈ k.log, x.1 < now :=
        fun k hk x hx => hnow x (mem_logs.mpr ⟨k, hk, hx⟩)
      refine .inAnyOrder (forall_mem_replace hall (ih (hall m (by simp)) (hlog m (by simp)))) ?_
      apply pairwise_replace hpw
      · intro k hk hkm x hx y hy
        rcases h.mem_log hy with hy | ⟨hy, -⟩
        · exact hkm x hx y hy
        · exact hy ▸ Nat.ne_of_lt (hlog k (by simp [hk]) x hx)
      · intro k hk hmk x hx y hy
        rcases h.mem_log hx with hx | ⟨hx, -⟩
        · exact hmk x hx y hy
        · exact hx ▸ Nat.ne_of_gt (hlog k (by simp [hk]) y hy)
  | first ha hb _ ih =>
    rw [log_firstOrSecond ha hb, List.forall_mem_append] at hnow
    cases hm with
    | firstOrSecond hoa hob => exact .firstOrSecond (ih hoa hnow.1) hob
  | second ha hb _ _ _ iha ihb =>
    rw [log_firstOrSecond ha hb, List.forall_mem_append] at hnow
    cases hm with
    | firstOrSecond hoa hob => exact .firstOrSecond (iha hoa hnow.1) (ihb hob hnow.2)
  | both ha hb _ _ _ _ iha ihb =>
    rw [log_firstOrSecond ha hb, List.forall_mem_append] at hnow
    cases hm with
    | firstOrSecond hoa hob => exact .firstOrSecond (iha hoa hnow.1) (ihb hob hnow.2)

section

variable {σ : Type} (accepts : σ → Interaction → Bool)

/-- Each leaf that counts was marked by a submission that counts for it. -/
def Sourced (ss : List σ) (m : MarkedRule) : Prop :=
  ∀ x ∈ m.log, ∃ s, ss[x.1]? = some s ∧ accepts s x.2 = true

variable {accepts}

theorem Sourced.lt_length {ss : List σ} {m : MarkedRule} (h : Sourced accepts ss m)
    {x : Nat × Interaction} (hx : x ∈ m.log) : x.1 < ss.length := by
  obtain ⟨s, hs, -⟩ := h x hx
  exact (List.getElem?_eq_some_iff.mp hs).1

/-- The next submission keeps a rule ordered and its marks sourced. -/
theorem Offered.sourced {ss : List σ} {s : σ} {m m' : MarkedRule} {o : Offer}
    (h : Offered (accepts s) ss.length m o m') (hm : Sourced accepts ss m) :
    Sourced accepts (ss ++ [s]) m' := by
  intro x hx
  rcases h.mem_log hx with hx | ⟨hx, hacc⟩
  · obtain ⟨t, ht, hacc⟩ := hm x hx
    refine ⟨t, ?_, hacc⟩
    rw [List.getElem?_append_left (hm.lt_length hx), ht]
  · exact ⟨s, by simp [hx], hacc⟩

/-- **A run that starts without marks is ordered, and each of its marks has a submission.** -/
theorem ordered_sourced_offerAll (accepts : σ → Interaction → Bool) (r : Rule) (ss : List σ) :
    (offerAll accepts (ofRule r) ss.zipIdx).Ordered ∧
      Sourced accepts ss (offerAll accepts (ofRule r) ss.zipIdx) := by
  induction ss using List.reverseRecOn with
  | nil => exact ⟨ordered_ofRule r, fun x hx => by simp at hx⟩
  | append_singleton ss s ih =>
    obtain ⟨ho, hs⟩ := ih
    rw [List.zipIdx_append, offerAll_append]
    have hoff := offered (accepts s) ss.length (offerAll accepts (ofRule r) ss.zipIdx)
    simp only [List.zipIdx_singleton, Nat.zero_add, offerAll_cons, offerAll_nil]
    exact ⟨hoff.ordered ho fun x hx => hs.lt_length hx, hoff.sourced hs⟩

end

/-! ### A rule that is done has been performed -/

/-- What counts for a rule, in the order of times, performs it, and no two leaves have one time. -/
def Performed (m : MarkedRule) : Prop :=
  ∃ v : List (Nat × Interaction), v.Pairwise (fun x y => x.1 < y.1) ∧ v.Perm m.log ∧
    m.rule.Performance (v.map (·.2))

/-- Steps that come one after the other are performed one after the other. -/
theorem performed_inOrder {ms : List MarkedRule} (h : ∀ m ∈ ms, m.Performed)
    (hpw : ms.Pairwise Before) : (inOrder ms).Performed := by
  induction ms with
  | nil => exact ⟨[], .nil, .refl _, .noSteps⟩
  | cons m ms ih =>
    obtain ⟨hm, hpw⟩ := List.pairwise_cons.mp hpw
    obtain ⟨u, hu, pu, fu⟩ := h m List.mem_cons_self
    obtain ⟨v, hv, pv, fv⟩ := ih (fun k hk => h k (List.mem_cons_of_mem _ hk)) hpw
    refine ⟨u ++ v, ?_, pu.append pv, ?_⟩
    · refine List.pairwise_append.mpr ⟨hu, hv, ?_⟩
      intro x hx y hy
      obtain ⟨k, hk, hy⟩ := mem_logs.mp (pv.mem_iff.mp hy)
      exact (hm k hk).2 x (pu.mem_iff.mp hx) y hy
    · rw [List.map_append]
      exact .steps fu fv

/-- Clauses that are marked at different times are performed in between each other. -/
theorem performed_inAnyOrder {ms : List MarkedRule} (h : ∀ m ∈ ms, m.Performed)
    (hpw : ms.Pairwise Apart) : (inAnyOrder ms).Performed := by
  induction ms with
  | nil => exact ⟨[], .nil, .refl _, .noClauses⟩
  | cons m ms ih =>
    obtain ⟨hm, hpw⟩ := List.pairwise_cons.mp hpw
    obtain ⟨u, hu, pu, fu⟩ := h m List.mem_cons_self
    obtain ⟨v, hv, pv, fv⟩ := ih (fun k hk => h k (List.mem_cons_of_mem _ hk)) hpw
    obtain ⟨w, hw, hs⟩ := Interleave.exists_sorted Prod.fst hu hv fun x hx y hy => by
      obtain ⟨k, hk, hy⟩ := mem_logs.mp (pv.mem_iff.mp hy)
      exact hm k hk x (pu.mem_iff.mp hx) y hy
    exact ⟨w, hs, hw.perm.trans (pu.append pv), .clauses fu fv (hw.map _)⟩

/-- **What counts for a rule that is done, in the order of times, performs the rule.** -/
theorem Ordered.performed {m : MarkedRule} (h : m.Ordered) (hd : m.isDone = true) :
    m.Performed := by
  induction h with
  | doNothing => cases hd
  | leaf i time =>
    obtain ⟨t, rfl⟩ := Option.isSome_iff_exists.mp hd
    exact ⟨[(t, i)], by simp, .refl _, .leaf i⟩
  | inOrder _ hpw ih =>
    exact performed_inOrder (fun k hk => ih k hk ((areDone_iff _).mp hd k hk)) hpw
  | inAnyOrder _ hpw ih =>
    exact performed_inAnyOrder (fun k hk => ih k hk ((areDone_iff _).mp hd k hk)) hpw
  | @firstOrSecond a b _ _ iha ihb =>
    rw [Performed, log, rule]
    by_cases ha : a.isDone = true
    · obtain ⟨v, hv, pv, fv⟩ := iha ha
      exact ⟨v, hv, by rwa [if_pos ha], .first _ fv⟩
    · have hb : b.isDone = true := by simpa [isDone, ha] using hd
      obtain ⟨v, hv, pv, fv⟩ := ihb hb
      exact ⟨v, hv, by rwa [if_neg ha, if_pos hb], .second _ fv⟩

end MarkedRule

end BoardTrial
