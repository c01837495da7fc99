import BoardTrial.Proofs.Completion

/-!
# What an answer says of a progress

Offers only add to a progress: no flag is taken back, and no cursor goes back
(`Progress.Grows`). An offer that is not ignored satisfies a leaf that was open, so **the answer to
an offer tells what has become of the progress** (`Plan.answer_tells`), and there are no more such
offers than there are leaves.
-/

namespace BoardTrial

open MarkedRule

namespace Progress

/-- From `p` to `q` nothing is taken back. -/
structure Grows (p q : Progress) : Prop where
  /-- There are as many flags. -/
  satisfied_size : q.satisfied.size = p.satisfied.size
  /-- There are as many cursors. -/
  cursor_size : q.cursor.size = p.cursor.size
  /-- What was satisfied is satisfied. -/
  satisfied (n : Nat) : p.isSatisfied n = true → q.isSatisfied n = true
  /-- What was behind is behind. -/
  cursor (n : Nat) : p.cursorAt n ≤ q.cursorAt n

theorem Grows.refl (p : Progress) : p.Grows p := ⟨rfl, rfl, fun _ h => h, fun _ => Nat.le_refl _⟩

theorem Grows.trans {p q s : Progress} (h : p.Grows q) (h' : q.Grows s) : p.Grows s := by
  refine ⟨h'.satisfied_size.trans h.satisfied_size, h'.cursor_size.trans h.cursor_size, ?_, ?_⟩
  · intro n hn
    exact h'.satisfied n (h.satisfied n hn)
  · intro n
    exact Nat.le_trans (h.cursor n) (h'.cursor n)

theorem grows_satisfy (p : Progress) (n : Nat) : p.Grows (p.satisfy n) := by
  refine ⟨by simp [satisfy], rfl, fun m hm => ?_, fun m => Nat.le_refl _⟩
  rw [isSatisfied_satisfy, hm, Bool.true_or]

theorem grows_record (p : Progress) (n : Nat) : p.Grows (p.record n) :=
  ⟨rfl, rfl, fun _ h => h, fun _ => Nat.le_refl _⟩

/-- A cursor is only ever put forward. -/
theorem grows_skip (p : Progress) (n : Nat) (cs : List Nat) : p.Grows (p.skip n cs) := by
  refine ⟨rfl, by simp [skip], fun _ h => h, fun m => ?_⟩
  by_cases hm : m = n
  · subst hm
    by_cases hroom : m < p.cursor.size
    · rw [cursorAt_skip_self p cs hroom]
      exact Nat.le_add_right _ _
    · simp [cursorAt, skip, Array.getD_eq_getD_getElem?, hroom]
  · exact Nat.le_of_eq (cursorAt_skip_of_ne p cs hm).symm

end Progress

open Progress

namespace Plan

variable {plan : Plan} {accepts : Interaction → Bool}

theorem grows_discard (plan : Plan) (n : Nat) (p : Progress) : p.Grows (plan.discard n p) :=
  ⟨rfl, rfl, fun _ h => h, fun _ => Nat.le_refl _⟩

theorem Makes.grows {p q : Progress} (h : plan.Makes accepts p q) : p.Grows q := by
  induction h with
  | nothing => exact .refl p
  | leaf _ _ _ ih => exact (ih.trans (grows_satisfy _ _)).trans (grows_record _ _)
  | satisfy _ _ ih => exact ih.trans (grows_satisfy _ _)
  | skip n cs _ ih => exact ih.trans (grows_skip _ n cs)
  | discard n _ ih => exact ih.trans (grows_discard plan n _)

/-- **An offer takes nothing back**, whatever the plan and the progress. -/
theorem offerAt_grows (n : Nat) (p : Progress) : p.Grows (plan.offerAt accepts n p).2 :=
  (plan.makes_offerAt accepts n p).grows

theorem offerEach_grows (plan : Plan) (p : Progress) (os : List Offering) :
    p.Grows (plan.offerEach p os) := by
  induction os generalizing p with
  | nil => exact .refl p
  | cons o os ih =>
    have ho : p.Grows (plan.offer o.evidence o.submission p).2 := offerAt_grows _ _
    exact ho.trans (ih _)

/-- Settling a node takes nothing back. -/
theorem settle_grows (plan : Plan) (p : Progress) (n : Nat) : p.Grows (plan.settle p n) := by
  unfold settle
  split
  · rename_i cs _
    have hskip := grows_skip p n cs
    dsimp only
    split
    · exact hskip.trans (grows_satisfy _ n)
    · exact hskip
  · split
    · exact grows_satisfy p n
    · exact .refl p
  · split
    · exact grows_satisfy p n
    · exact .refl p
  · exact .refl p
  · exact .refl p
  · exact .refl p

theorem answers_cons (plan : Plan) (p : Progress) (o : Offering) (os : List Offering) :
    plan.answers p (o :: os) = (plan.offer o.evidence o.submission p).1 ::
      plan.answers (plan.offer o.evidence o.submission p).2 os := rfl

/-! ### Leaves that are still open -/

variable {r : Rule} {now : Nat} {p : Progress} {h : TimedHistory} {m : MarkedRule}

/-- What is answered to an offer, and how the run goes on. -/
theorem Runs.next (hr : Runs r now p h m) (o : Offering) :
    ((ofRule r).offer o.evidence o.submission p).1 = (m.offer o.accepts now).1 ∧
      ∃ h', Runs r (now + 1) ((ofRule r).offer o.evidence o.submission p).2 h'
        (m.offer o.accepts now).2 := by
  obtain ⟨q, h', hq, hr'⟩ := hr.offer o.accepts
  have hoff : (ofRule r).offer o.evidence o.submission p = ((m.offer o.accepts now).1, q) := hq
  rw [hoff]
  exact ⟨rfl, h', hr'⟩

/-- What is ignored leaves everything as it was. -/
theorem Runs.eq_of_ignored (hr : Runs r now p h m) {o : Offering}
    (ho : ((ofRule r).offer o.evidence o.submission p).1 = .ignored) :
    ((ofRule r).offer o.evidence o.submission p).2 = p := by
  have hf : Follows (ofRule r) o.accepts now m := follows m
  obtain ⟨q, -, hq, hign, -, -⟩ := hf hr.ready
  rw [hr.rule, Nat.zero_add, ← root_ofRule] at hq
  have hoff : (ofRule r).offer o.evidence o.submission p = ((m.offer o.accepts now).1, q) := hq
  rw [hoff] at ho ⊢
  exact hign ho

/-- What is satisfied ignores offers. -/
theorem Runs.not_isSatisfied (hr : Runs r now p h m) {o : Offering}
    (ho : ((ofRule r).offer o.evidence o.submission p).1 ≠ .ignored) :
    p.isSatisfied (ofRule r).root = false := by
  rw [(hr.next o).1] at ho
  rw [hr.isSatisfied]
  exact (offered o.accepts now m).not_isDone ho

/-- An offer that is not ignored leaves fewer leaves open. -/
theorem Runs.openLeaves_lt (hr : Runs r now p h m) {o : Offering}
    (ho : ((ofRule r).offer o.evidence o.submission p).1 ≠ .ignored) :
    ((ofRule r).openLeaves ((ofRule r).offer o.evidence o.submission p).2).length <
      ((ofRule r).openLeaves p).length := by
  obtain ⟨hanswer, h', hr'⟩ := hr.next o
  rw [hanswer] at ho
  rw [hr.length_openLeaves, hr'.length_openLeaves]
  exact (offered o.accepts now m).pending.2 ho

/-- If fewer leaves are open than before, one that was open is satisfied. -/
theorem exists_satisfied_of_openLeaves_lt {p q : Progress}
    (hlt : (plan.openLeaves q).length < (plan.openLeaves p).length) :
    ∃ n, (plan.interaction? n).isSome = true ∧ p.isSatisfied n = false ∧
      q.isSatisfied n = true := by
  by_contra hnone
  have hopen : ∀ n, plan.isOpenLeaf p n = true → plan.isOpenLeaf q n = true := by
    intro n hn
    simp only [isOpenLeaf, Bool.and_eq_true, Bool.not_eq_true'] at hn ⊢
    refine ⟨hn.1, ?_⟩
    rw [← Bool.not_eq_true]
    exact fun hq => hnone ⟨n, hn.1, hn.2, hq⟩
  have hle : (List.range plan.size).countP (plan.isOpenLeaf p) ≤
      (List.range plan.size).countP (plan.isOpenLeaf q) :=
    List.countP_mono_left fun n _ hn => hopen n hn
  rw [List.countP_eq_length_filter, List.countP_eq_length_filter] at hle
  exact Nat.not_lt.mpr hle hlt

/-- **Offers that are not ignored and leaves that stay open are no more than the leaves that were
open.** -/
theorem Runs.countP_answers (hr : Runs r now p h m) (os : List Offering) :
    ((ofRule r).answers p os).countP (· ≠ .ignored) +
        ((ofRule r).openLeaves ((ofRule r).offerEach p os)).length ≤
      ((ofRule r).openLeaves p).length := by
  induction os generalizing now p h m with
  | nil => simp [answers, Plan.offerEach]
  | cons o os ih =>
    obtain ⟨-, h', hr'⟩ := hr.next o
    have hrest := ih hr'
    rw [answers_cons, Plan.offerEach, List.foldl_cons, ← Plan.offerEach, List.countP_cons]
    by_cases ho : ((ofRule r).offer o.evidence o.submission p).1 = .ignored
    · have hq := hr.eq_of_ignored ho
      rw [hq] at hrest ⊢
      simpa [ho] using hrest
    · have hlt := hr.openLeaves_lt ho
      rw [if_pos (decide_eq_true ho)]
      omega

end Plan

namespace MarkedRule

mutual

/-- Before anything has happened each leaf is waited for. -/
theorem pending_ofRule : ∀ r : Rule, (ofRule r).pending = r.leafCount
  | .doNothing | .leaf _ => rfl
  | .inOrder rs | .inAnyOrder rs => pendingOfAll_ofRules rs
  | .firstOrSecond a b => by
    rw [ofRule, pending, pending_ofRule a, pending_ofRule b, Rule.leafCount, Rule.leafCount,
      Rule.leafCount, Rule.leaves, List.length_append]

theorem pendingOfAll_ofRules : ∀ rs : List Rule,
    pendingOfAll (ofRules rs) = (Rule.leavesOfAll rs).length
  | [] => rfl
  | r :: rs => by
    rw [ofRules, pendingOfAll, pending_ofRule r, pendingOfAll_ofRules rs, Rule.leavesOfAll,
      List.length_append, Rule.leafCount]

end

end MarkedRule

namespace Plan

/-- **The answer to an offer tells what has become of the progress.** It is ignored when nothing has
changed, so that it would be ignored again; completed when the rule has become satisfied; advanced
when something has changed and the rule is not satisfied. Nothing is ever taken back. Whatever is
not ignored satisfies a leaf that was open, so that is as often as there are leaves, at most. -/
theorem answer_tells (r : Rule) (os : List Offering) (o : Offering) :
    let plan := ofRule r
    let p := plan.offerEach plan.fresh os
    let answer := (plan.offer o.evidence o.submission p).1
    let q := (plan.offer o.evidence o.submission p).2
    (answer = .ignored ↔ q = p) ∧
    (answer = .ignored → plan.offer o.evidence o.submission q = (.ignored, q)) ∧
    (answer = .completed ↔
      p.isSatisfied plan.root = false ∧ q.isSatisfied plan.root = true) ∧
    (answer = .advanced ↔ q ≠ p ∧ q.isSatisfied plan.root = false) ∧
    -- nothing is taken back
    (∀ os', p.Grows (plan.offerEach p os')) ∧
    -- leaves
    (answer ≠ .ignored → ∃ n, (plan.interaction? n).isSome = true ∧ p.isSatisfied n = false ∧
      q.isSatisfied n = true) ∧
    (plan.answers plan.fresh os).countP (· ≠ .ignored) ≤ r.leafCount := by
  intro plan p answer q
  obtain ⟨h, hr⟩ := (runs_fresh r).offerEach os
  obtain ⟨hanswer, h', hr'⟩ := hr.next o
  have hnew : answer ≠ .ignored → ∃ n, (plan.interaction? n).isSome = true ∧
      p.isSatisfied n = false ∧ q.isSatisfied n = true :=
    fun ho => exists_satisfied_of_openLeaves_lt (hr.openLeaves_lt ho)
  have hsame : answer = .ignored ↔ q = p := by
    refine ⟨hr.eq_of_ignored, fun hq => ?_⟩
    by_contra ho
    obtain ⟨n, -, hp, hq'⟩ := hnew ho
    rw [hq, hp] at hq'
    cases hq'
  have hcompleted : answer = .completed ↔
      p.isSatisfied plan.root = false ∧ q.isSatisfied plan.root = true := by
    constructor
    · intro ho
      have hne : answer ≠ .ignored := by simp [ho]
      refine ⟨hr.not_isSatisfied hne, ?_⟩
      rw [hr'.isSatisfied, isDone_offer_iff]
      exact .inr (hanswer.symm.trans ho)
    · rintro ⟨hp, hq⟩
      rw [hr.isSatisfied] at hp
      rw [hr'.isSatisfied, isDone_offer_iff, hp] at hq
      exact hanswer.trans (hq.resolve_left Bool.false_ne_true)
  refine ⟨hsame, fun ho => ?_, hcompleted, ?_, offerEach_grows plan p, hnew, ?_⟩
  · rw [hsame.mp ho]
    exact Prod.ext ho (hsame.mp ho)
  · -- the third answer is left over by the other two
    rw [ne_eq, ← hsame]
    have hstay : answer ≠ .ignored → p.isSatisfied plan.root = false := hr.not_isSatisfied
    cases ha : answer with
    | ignored => simp
    | advanced =>
      have hno := mt hcompleted.mpr (by simp [ha])
      simpa [hstay (by simp [ha])] using hno
    | completed => simp [(hcompleted.mp ha).2]
  · have hcount := (runs_fresh r).countP_answers os
    rw [(runs_fresh r).length_openLeaves, pending_ofRule] at hcount
    exact Nat.le_trans (Nat.le_add_right _ _) hcount

/-- A touch that both alternatives wait for satisfies two leaves at once. -/
example :
    let red : Interaction := .touch ⟨.red, .circle, none⟩
    let blue : Interaction := .touch ⟨.blue, .circle, none⟩
    let plan := ofRule (.firstOrSecond (.inOrder [.leaf red, .leaf blue])
      (.inOrder [.leaf red, .leaf red]))
    let p := plan.offerAll .centers plan.fresh [.plain red]
    (plan.openLeaves plan.fresh).length = 4 ∧ (plan.openLeaves p).length = 2 := by
  decide +kernel

end Plan

end BoardTrial
