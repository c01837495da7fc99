import BoardTrial.Rule.Canonical
import Mathlib.Data.List.Count
import Mathlib.Data.List.Forall2
import Mathlib.Data.List.Perm.Basic

/-!
# Clauses taken as they come

A clause of a step is done by any one of its leaves. An interaction goes to the first clause that is
open and has it as a leaf, and stays there (`Rule.openAfter`), though a later clause may need it
more. Interactions that suit clauses one by one (`Rule.Suits`) leave none open if they come in the
order of the clauses. **They leave none open in whatever order they come just if each clause that
has a leaf in common with a later one has no other leaves** (`Rule.pairwise_nested_iff`).
-/

namespace BoardTrial

namespace Rule

/-- The clauses of a step. -/
def clauses : Rule → List Rule
  | inAnyOrder rs => rs
  | r => [r]

/-- Clause `a`, if it has a leaf in common with `b`, has no leaves that `b` does not have. -/
def Nested (a b : Rule) : Prop := ∀ i ∈ a.leaves, i ∈ b.leaves → a.leaves ⊆ b.leaves

/-- The clauses that are open after interactions, each of which has been taken by the first open
clause that it suits, if there was one. -/
def openAfter (cs : List Rule) (w : List Interaction) : List Rule :=
  w.foldl (fun cs i => cs.eraseP fun c => i ∈ c.leaves) cs

/-- Interactions suit clauses, one each. -/
def Suits : List Rule → List Interaction → Prop := List.Forall₂ fun c i => i ∈ c.leaves

variable {cs ds : List Rule} {c r : Rule} {i : Interaction} {v w : List Interaction}

theorem IsClause.leaves_ne_nil (h : c.IsClause) : c.leaves ≠ [] := by
  cases h <;> simp [leaves]

theorem IsStep.clauses_ne_nil (h : r.IsStep) : r.clauses ≠ [] := by
  cases h with
  | clause hc => cases hc <;> simp [Rule.clauses]
  | clauses hlen _ => exact List.ne_nil_of_length_pos (Nat.lt_of_lt_of_le Nat.zero_lt_two hlen)

theorem IsStep.isClause (h : r.IsStep) (hc : c ∈ r.clauses) : c.IsClause := by
  cases h with
  | clause hr =>
    obtain rfl : c = r := by cases hr <;> simpa [Rule.clauses] using hc
    exact hr
  | clauses _ hrs => exact hrs c hc

theorem isStep_pair {d : Rule} (hc : c.IsClause) (hd : d.IsClause) :
    (Rule.inAnyOrder [c, d]).IsStep := by
  refine .clauses (Nat.le_refl 2) (List.forall_mem_cons.mpr ⟨hc, ?_⟩)
  exact List.forall_mem_singleton.mpr hd

/-! ### Interactions one by one -/

@[simp] theorem openAfter_nil (cs : List Rule) : openAfter cs [] = cs := rfl

theorem openAfter_of_nil (w : List Interaction) : openAfter [] w = [] := by
  induction w with
  | nil => rfl
  | cons i w ih => exact ih

theorem openAfter_append (cs : List Rule) (v w : List Interaction) :
    openAfter cs (v ++ w) = openAfter (openAfter cs v) w :=
  List.foldl_append

/-- The first clause that an interaction suits takes it. -/
theorem openAfter_cons_append (hcs : ∀ d ∈ cs, i ∉ d.leaves) (hi : i ∈ c.leaves) :
    openAfter (cs ++ c :: ds) (i :: w) = openAfter (cs ++ ds) w := by
  rw [openAfter, List.foldl_cons, List.eraseP_append_right _ (by simpa using hcs),
    List.eraseP_cons_of_pos (by simpa using hi), openAfter]

theorem openAfter_cons_cons (cs : List Rule) (hi : i ∈ c.leaves) (w : List Interaction) :
    openAfter (c :: cs) (i :: w) = openAfter cs w := by
  rw [openAfter, List.foldl_cons, List.eraseP_cons_of_pos (by simpa using hi), openAfter]

/-- An interaction that suits no clause is lost. -/
theorem openAfter_cons_of_not_mem (hcs : ∀ d ∈ cs, i ∉ d.leaves) :
    openAfter cs (i :: w) = openAfter cs w := by
  rw [openAfter, List.foldl_cons, List.eraseP_of_forall_not (by simpa using hcs), openAfter]

/-- An interaction suits no clause, or there is a first that it suits. -/
theorem exists_first (cs : List Rule) (i : Interaction) : (∀ d ∈ cs, i ∉ d.leaves) ∨
    ∃ pre c post, cs = pre ++ c :: post ∧ (∀ d ∈ pre, i ∉ d.leaves) ∧ i ∈ c.leaves := by
  induction cs with
  | nil => exact .inl (by simp)
  | cons c cs ih =>
    by_cases hi : i ∈ c.leaves
    · exact .inr ⟨[], c, cs, rfl, by simp, hi⟩
    · rcases ih with hcs | ⟨pre, d, post, rfl, hpre, hd⟩
      · exact .inl (List.forall_mem_cons.mpr ⟨hi, hcs⟩)
      · exact .inr ⟨c :: pre, d, post, rfl, List.forall_mem_cons.mpr ⟨hi, hpre⟩, hd⟩

/-- Each interaction closes one clause at most. -/
theorem length_le_openAfter (cs : List Rule) (w : List Interaction) :
    cs.length ≤ (openAfter cs w).length + w.length := by
  induction w generalizing cs with
  | nil => exact Nat.le_refl _
  | cons i w ih =>
    rcases exists_first cs i with hcs | ⟨pre, c, post, rfl, hpre, hi⟩
    · rw [openAfter_cons_of_not_mem hcs, List.length_cons]
      exact Nat.le_succ_of_le (ih cs)
    · have hlen := ih (pre ++ post)
      rw [openAfter_cons_append hpre hi]
      simp only [List.length_append, List.length_cons] at hlen ⊢
      omega

/-! ### What suits clauses -/

theorem suits_append_iff :
    Suits (cs ++ ds) v ↔ ∃ u k, Suits cs u ∧ Suits ds k ∧ v = u ++ k := by
  constructor
  · intro h
    induction cs generalizing v with
    | nil => exact ⟨[], v, .nil, h, rfl⟩
    | cons c cs ih =>
      obtain ⟨i, v, hi, hv, rfl⟩ := List.forall₂_cons_left_iff.mp h
      obtain ⟨u, k, hu, hk, rfl⟩ := ih hv
      exact ⟨i :: u, k, .cons hi hu, hk, rfl⟩
  · rintro ⟨u, k, hu, hk, rfl⟩
    exact List.rel_append hu hk

/-- Each interaction suits a clause of its own. -/
theorem Suits.exists_clause {u k : List Interaction} (h : Suits cs (u ++ i :: k)) :
    ∃ pre c post, cs = pre ++ c :: post ∧ Suits pre u ∧ i ∈ c.leaves ∧ Suits post k := by
  induction u generalizing cs with
  | nil =>
    obtain ⟨c, post, hi, hk, rfl⟩ := List.forall₂_cons_right_iff.mp h
    exact ⟨[], c, post, rfl, .nil, hi, hk⟩
  | cons j u ih =>
    obtain ⟨b, cs, hj, hcs, rfl⟩ := List.forall₂_cons_right_iff.mp h
    obtain ⟨pre, c, post, rfl, hu, hi, hk⟩ := ih hcs
    exact ⟨b :: pre, c, post, rfl, .cons hj hu, hi, hk⟩

theorem Suits.exists_mem_leaves (h : Suits cs v) (hi : i ∈ v) : ∃ c ∈ cs, i ∈ c.leaves := by
  obtain ⟨u, k, rfl⟩ := List.append_of_mem hi
  obtain ⟨pre, c, post, rfl, -, hc, -⟩ := h.exists_clause
  exact ⟨c, by simp, hc⟩

/-- Clauses closed by interactions no more than they are can be suited by them. -/
theorem exists_suits (h : openAfter cs w = []) (hw : w.length = cs.length) :
    ∃ v, Suits cs v ∧ v.Perm w := by
  induction w generalizing cs with
  | nil =>
    obtain rfl : cs = [] := h
    exact ⟨[], .nil, .nil⟩
  | cons i w ih =>
    rw [List.length_cons] at hw
    rcases exists_first cs i with hcs | ⟨pre, c, post, rfl, hpre, hi⟩
    · -- one interaction is lost, so the others are too few
      have hlen := length_le_openAfter cs w
      rw [openAfter_cons_of_not_mem hcs] at h
      rw [h, List.length_nil] at hlen
      omega
    · rw [openAfter_cons_append hpre hi] at h
      rw [List.length_append, List.length_cons] at hw
      obtain ⟨v, hv, hperm⟩ := ih h (by rw [List.length_append]; omega)
      obtain ⟨u, k, hu, hk, rfl⟩ := suits_append_iff.mp hv
      exact ⟨u ++ i :: k, suits_append_iff.mpr ⟨u, i :: k, hu, .cons hi hk, rfl⟩,
        List.perm_middle.trans (hperm.cons i)⟩

/-- Interactions that come in the order of the clauses that they suit close all. -/
theorem Suits.openAfter_eq_nil (h : Suits cs v) : openAfter cs v = [] := by
  induction h with
  | nil => rfl
  | cons hi _ ih => exact (openAfter_cons_cons _ hi _).trans ih

/-! ### In whatever order they come -/

/-- **Interactions that suit nested clauses close all, in whatever order they come.** -/
theorem Suits.openAfter_perm (hn : cs.Pairwise Nested) (h : Suits cs v) (hperm : w.Perm v) :
    openAfter cs w = [] := by
  induction w generalizing cs v with
  | nil =>
    obtain rfl := List.nil_perm.mp hperm
    exact h.openAfter_eq_nil
  | cons i w ih =>
    rcases exists_first cs i with hcs | ⟨pre, c, post, rfl, hpre, hi⟩
    · obtain ⟨c, hc, hi⟩ := h.exists_mem_leaves (hperm.mem_iff.mp List.mem_cons_self)
      exact absurd hi (hcs c hc)
    rw [openAfter_cons_append hpre hi]
    obtain ⟨u, v', hu, hv', rfl⟩ := suits_append_iff.mp h
    obtain ⟨j, k, hj, hk, rfl⟩ := List.forall₂_cons_left_iff.mp hv'
    have hn' := List.pairwise_append.mp hn
    by_cases hij : i = j
    · -- the clause takes what is meant for it
      subst hij
      exact ih (hn.sublist (by simp)) (suits_append_iff.mpr ⟨u, k, hu, hk, rfl⟩)
        (hperm.trans List.perm_middle).cons_inv
    · -- it takes what is meant for a later one, which can do with what was meant for it
      have hik : i ∈ k := by
        have hmem := hperm.mem_iff.mp List.mem_cons_self
        rcases List.mem_append.mp hmem with hiu | hik
        · obtain ⟨d, hd, hid⟩ := Suits.exists_mem_leaves hu hiu
          exact absurd hid (hpre d hd)
        · exact (List.mem_cons.mp hik).resolve_left hij
      obtain ⟨k, l, rfl⟩ := List.append_of_mem hik
      obtain ⟨ds, d, es, rfl, hds, hid, hes⟩ := Suits.exists_clause hk
      have hjd : j ∈ d.leaves :=
        (List.pairwise_cons.mp hn'.2.1).1 d (by simp) i hi hid hj
      have hsuits : Suits (pre ++ (ds ++ d :: es)) (u ++ (k ++ j :: l)) :=
        List.rel_append hu (List.rel_append hds (.cons hjd hes))
      refine ih (hn.sublist (by simp)) hsuits (List.perm_iff_count.mpr fun a => ?_)
      have hcount := hperm.count_eq a
      simp only [List.count_append, List.count_cons] at hcount ⊢
      omega

/-- No interaction suits more clauses than have it as a leaf. -/
theorem Suits.count_le (h : Suits cs v) (i : Interaction) :
    v.count i ≤ cs.countP fun c => i ∈ c.leaves := by
  induction h with
  | nil => exact Nat.le_refl _
  | @cons c j cs v hj _ ih =>
    rw [List.count_cons, List.countP_cons]
    by_cases hij : j = i
    · subst hij
      simpa [hj] using ih
    · simp only [beq_iff_eq, hij, if_false, Nat.add_zero]
      omega

/-- Clauses with leaves can be suited so that all that have a certain leaf get it. -/
theorem exists_suits_count (hcs : ∀ c ∈ cs, c.leaves ≠ []) (i : Interaction) :
    ∃ v, Suits cs v ∧ v.count i = cs.countP fun c => i ∈ c.leaves := by
  induction cs with
  | nil => exact ⟨[], .nil, rfl⟩
  | cons c cs ih =>
    obtain ⟨hc, hcs⟩ := List.forall_mem_cons.mp hcs
    obtain ⟨v, hv, hcount⟩ := ih hcs
    by_cases hi : i ∈ c.leaves
    · exact ⟨i :: v, .cons hi hv, by simp [hcount, hi]⟩
    · obtain ⟨j, hj⟩ := List.exists_mem_of_ne_nil _ hc
      have hji : j ≠ i := fun h => hi (h ▸ hj)
      exact ⟨j :: v, .cons hj hv, by simp [hcount, hi, hji]⟩

/-- A clause is nested in a later one if whatever suits all closes all. Otherwise it could take what
the later one needs, and be left with a leaf that the later one does not have. -/
theorem nested_of_openAfter_perm {d : Rule} (hcs : ∀ c ∈ cs, c.leaves ≠ []) (hd : d ∈ cs)
    (h : ∀ v w, Suits (c :: cs) v → w.Perm v → openAfter (c :: cs) w = []) : Nested c d := by
  intro i hic hid j hjc
  by_contra hjd
  obtain ⟨pre, post, rfl⟩ := List.append_of_mem hd
  obtain ⟨hpre, -, hpost⟩ : (∀ b ∈ pre, b.leaves ≠ []) ∧ d.leaves ≠ [] ∧
      ∀ b ∈ post, b.leaves ≠ [] := by
    simpa only [List.forall_mem_append, List.forall_mem_cons] using hcs
  obtain ⟨u, hu, hcountu⟩ := exists_suits_count hpre j
  obtain ⟨k, hk, hcountk⟩ := exists_suits_count hpost j
  have hsuits : Suits (c :: (pre ++ d :: post)) (j :: (u ++ i :: k)) :=
    .cons hjc (List.rel_append hu (.cons hid hk))
  have hperm : (i :: j :: (u ++ k)).Perm (j :: (u ++ i :: k)) :=
    (List.Perm.swap j i _).trans (List.perm_middle.symm.cons j)
  have hopen := h _ _ hsuits hperm
  rw [openAfter_cons_cons _ hic] at hopen
  -- now `j` comes once more than there are open clauses that have it
  have hlen : (j :: (u ++ k)).length = (pre ++ d :: post).length := by
    have hu := hu.length_eq
    have hk := hk.length_eq
    simp only [List.length_append, List.length_cons]
    omega
  obtain ⟨v, hv, hvperm⟩ := exists_suits hopen hlen
  have hle := hv.count_le j
  rw [hvperm.count_eq, List.count_cons_self, List.count_append, List.countP_append,
    List.countP_cons_of_neg (by simpa using hjd)] at hle
  omega

/-- **Whatever suits all clauses closes all in any order just if earlier clauses are nested in later
ones.** -/
theorem pairwise_nested_iff (hcs : ∀ c ∈ cs, c.leaves ≠ []) :
    cs.Pairwise Nested ↔ ∀ v w, Suits cs v → w.Perm v → openAfter cs w = [] := by
  refine ⟨fun hn v w hv hperm => hv.openAfter_perm hn hperm, fun h => ?_⟩
  induction cs with
  | nil => exact .nil
  | cons c cs ih =>
    obtain ⟨hc, hcs⟩ := List.forall_mem_cons.mp hcs
    refine List.pairwise_cons.mpr ⟨fun d hd => nested_of_openAfter_perm hcs hd h,
      ih hcs fun v w hv hperm => ?_⟩
    obtain ⟨i, hi⟩ := List.exists_mem_of_ne_nil _ hc
    have hopen := h _ _ (.cons hi hv) (hperm.cons i)
    rwa [openAfter_cons_cons _ hi] at hopen

end Rule

end BoardTrial
