import BoardTrial.Matching.Progress
import BoardTrial.Proofs.MarkedRule
import BoardTrial.Proofs.PlanLayout

/-!
# What a progress tells

A progress, with the time of each entry of its history, tells which leaves of a rule are marked with
which times (`Progress.Tells`): node by node, from the number on at which a plan holds the rule. The
times are kept beside the progress, which has none. A leaf of an alternative that was given up keeps
its mark but is in the history no more; `counts` says whether a part of the rule still counts.
-/

namespace BoardTrial

namespace MarkedRule

/-- How many nodes a plan of the rule has. -/
def width (m : MarkedRule) : Nat := m.rule.nodesBelow + 1

/-- How many nodes plans of several rules have. -/
def widths (ms : List MarkedRule) : Nat := Rule.nodesOfAll (rules ms)

/-- How many steps are behind. -/
def behind (ms : List MarkedRule) : Nat := (ms.takeWhile isDone).length

@[simp] theorem widths_nil : widths [] = 0 := rfl

@[simp] theorem widths_cons (m : MarkedRule) (ms : List MarkedRule) :
    widths (m :: ms) = m.width + widths ms := rfl

theorem widths_append (ms ks : List MarkedRule) : widths (ms ++ ks) = widths ms + widths ks := by
  rw [widths, rules_append, Rule.nodesOfAll_append, widths, widths]

theorem width_ofRule (r : Rule) : (ofRule r).width = r.nodesBelow + 1 := by
  rw [width, rule_ofRule]

theorem widths_ofRules (rs : List Rule) : widths (ofRules rs) = Rule.nodesOfAll rs := by
  rw [widths, rules_ofRules]

theorem behind_append {pre : List MarkedRule} (ms : List MarkedRule) (hpre : areDone pre = true) :
    behind (pre ++ ms) = pre.length + behind ms := by
  rw [behind, List.takeWhile_append_of_pos ((areDone_iff pre).mp hpre), List.length_append, behind]

theorem behind_of_not_isDone {m : MarkedRule} (ms : List MarkedRule) (hm : m.isDone = false) :
    behind (m :: ms) = 0 := by
  simp [behind, hm]

/-- All steps are done when all are behind. -/
theorem behind_eq_length_iff (ms : List MarkedRule) :
    behind ms = ms.length ↔ areDone ms = true := by
  induction ms with
  | nil => simp [behind, areDone]
  | cons m ms ih =>
    by_cases hm : m.isDone = true
    · simpa [behind, areDone, hm] using ih
    · simp [behind, areDone, hm]

theorem rootsFrom_rules_cons (base : Nat) (m : MarkedRule) (ms : List MarkedRule) :
    Rule.rootsFrom base (rules (m :: ms)) =
      (base + m.rule.nodesBelow) :: Rule.rootsFrom (base + m.width) (rules ms) := rfl

end MarkedRule

open MarkedRule

/-- The entries of a history with their times: first the time, then the leaf. -/
abbrev TimedHistory := List (Nat × Nat)

namespace Progress

/-- Whether node `n` is satisfied, and its cursor. -/
def IsAt (p : Progress) (n : Nat) (done : Bool) (cursor : Nat) : Prop :=
  p.isSatisfied n = done ∧ p.cursorAt n = cursor

mutual

/-- The nodes from `base` on, and the entries of the history with their times, say how far the rule
is; its leaves are in the history if it counts. -/
def Tells (p : Progress) (h : TimedHistory) (base : Nat) (counts : Bool) : MarkedRule → Prop
  | .doNothing => p.IsAt base false 0 ∧ ∀ t, (t, base) ∉ h
  | .leaf _ time => p.IsAt base time.isSome 0 ∧ ∀ t, (t, base) ∈ h ↔ counts = true ∧ time = some t
  | .inOrder ms => TellsAll p h base counts ms ∧
      p.IsAt (base + widths ms) (areDone ms) (behind ms) ∧ ∀ t, (t, base + widths ms) ∉ h
  | .inAnyOrder ms => TellsAll p h base counts ms ∧
      p.IsAt (base + widths ms) (areDone ms) 0 ∧ ∀ t, (t, base + widths ms) ∉ h
  | .firstOrSecond a b => Tells p h base (counts && (a.isDone || !b.isDone)) a ∧
      Tells p h (base + a.width) (counts && !a.isDone) b ∧
      p.IsAt (base + a.width + b.width) (a.isDone || b.isDone) 0 ∧
      ∀ t, (t, base + a.width + b.width) ∉ h

/-- The same of several rules, one after another. -/
def TellsAll (p : Progress) (h : TimedHistory) (base : Nat) (counts : Bool) :
    List MarkedRule → Prop
  | [] => True
  | m :: ms => Tells p h base counts m ∧ TellsAll p h (base + m.width) counts ms

end

variable {p p' p'' : Progress} {h h' h'' : TimedHistory} {base n : Nat} {counts keep : Bool}

/-- Node `n` is the same in `p'` as in `p`, and its entries in `h'` are those in `h` or, unless they
are kept, none. -/
structure SameAt (keep : Bool) (p : Progress) (h : TimedHistory) (p' : Progress)
    (h' : TimedHistory) (n : Nat) : Prop where
  /-- Its flag is the same. -/
  satisfied : p'.isSatisfied n = p.isSatisfied n
  /-- Its cursor is the same. -/
  cursor : p'.cursorAt n = p.cursorAt n
  /-- Its entries are the same, if they are kept. -/
  history (t : Nat) : (t, n) ∈ h' ↔ keep = true ∧ (t, n) ∈ h

theorem SameAt.refl (p : Progress) (h : TimedHistory) (n : Nat) : SameAt true p h p h n :=
  ⟨rfl, rfl, fun t => by simp⟩

theorem SameAt.trans (h₁ : SameAt true p h p' h' n) (h₂ : SameAt keep p' h' p'' h'' n) :
    SameAt keep p h p'' h'' n :=
  ⟨h₂.satisfied.trans h₁.satisfied, h₂.cursor.trans h₁.cursor,
    fun t => (h₂.history t).trans (by simp [h₁.history t])⟩

theorem SameAt.isAt (hs : SameAt keep p h p' h' n) {done : Bool} {c : Nat} (ha : p.IsAt n done c) :
    p'.IsAt n done c :=
  ⟨hs.satisfied.trans ha.1, hs.cursor.trans ha.2⟩

theorem SameAt.not_mem (hs : SameAt keep p h p' h' n) (hn : ∀ t, (t, n) ∉ h) (t : Nat) :
    (t, n) ∉ h' :=
  fun ht => hn t ((hs.history t).mp ht).2

mutual

/-- What the nodes of a rule tell depends on nothing else, and if their entries are not kept, the
rule does not count any more. -/
theorem Tells.congr : ∀ {m : MarkedRule} {base : Nat} {counts : Bool}, p.Tells h base counts m →
    (∀ n, base ≤ n → n < base + m.width → SameAt keep p h p' h' n) →
    p'.Tells h' base (keep && counts) m
  | .doNothing, base, counts, ht, hs => by
    have hb := hs base (Nat.le_refl _) (by simp [width])
    exact ⟨hb.isAt ht.1, hb.not_mem ht.2⟩
  | .leaf _ time, base, counts, ht, hs => by
    have hb := hs base (Nat.le_refl _) (by simp [width])
    refine ⟨hb.isAt ht.1, ?_⟩
    intro t
    rw [hb.history, ht.2, Bool.and_eq_true, and_assoc]
  | .inOrder ms, base, counts, ht, hs => by
    have hw : (MarkedRule.inOrder ms).width = widths ms + 1 := rfl
    have hb := hs (base + widths ms) (Nat.le_add_right _ _) (by omega)
    exact ⟨TellsAll.congr ht.1 fun n h₁ h₂ => hs n h₁ (by omega), hb.isAt ht.2.1,
      hb.not_mem ht.2.2⟩
  | .inAnyOrder ms, base, counts, ht, hs => by
    have hw : (MarkedRule.inAnyOrder ms).width = widths ms + 1 := rfl
    have hb := hs (base + widths ms) (Nat.le_add_right _ _) (by omega)
    exact ⟨TellsAll.congr ht.1 fun n h₁ h₂ => hs n h₁ (by omega), hb.isAt ht.2.1,
      hb.not_mem ht.2.2⟩
  | .firstOrSecond a b, base, counts, ht, hs => by
    have hw : (MarkedRule.firstOrSecond a b).width = a.width + b.width + 1 := rfl
    have hb := hs (base + a.width + b.width) (by omega) (by omega)
    obtain ⟨hta, htb, hn, hh⟩ := ht
    refine ⟨?_, ?_, hb.isAt hn, hb.not_mem hh⟩
    · rw [Bool.and_assoc]
      exact Tells.congr hta fun n h₁ h₂ => hs n h₁ (by omega)
    · rw [Bool.and_assoc]
      exact Tells.congr htb fun n h₁ h₂ => hs n (by omega) (by omega)

theorem TellsAll.congr : ∀ {ms : List MarkedRule} {base : Nat} {counts : Bool},
    p.TellsAll h base counts ms →
    (∀ n, base ≤ n → n < base + widths ms → SameAt keep p h p' h' n) →
    p'.TellsAll h' base (keep && counts) ms
  | [], _, _, _, _ => trivial
  | m :: ms, base, counts, ht, hs => by
    rw [widths_cons] at hs
    exact ⟨Tells.congr ht.1 fun n h₁ h₂ => hs n h₁ (by omega),
      TellsAll.congr ht.2 fun n h₁ h₂ => hs n (by omega) (by omega)⟩

end

theorem tellsAll_append {ms ks : List MarkedRule} :
    p.TellsAll h base counts (ms ++ ks) ↔
      p.TellsAll h base counts ms ∧ p.TellsAll h (base + widths ms) counts ks := by
  induction ms generalizing base with
  | nil => simp [TellsAll]
  | cons m ms ih =>
    simp only [List.cons_append, TellsAll, ih, widths_cons, and_assoc, Nat.add_assoc]

/-- The last node of a rule tells whether it is done. -/
theorem Tells.isSatisfied {m : MarkedRule} (ht : p.Tells h base counts m) :
    p.isSatisfied (base + m.rule.nodesBelow) = m.isDone := by
  cases m with
  | doNothing => exact ht.1.1
  | leaf i time => exact ht.1.1
  | inOrder ms => exact ht.2.1.1
  | inAnyOrder ms => exact ht.2.1.1
  | firstOrSecond a b =>
    have hn := ht.2.2.1.1
    rwa [Nat.add_assoc] at hn

/-- All roots are satisfied when all rules are done. -/
theorem TellsAll.all_isSatisfied {ms : List MarkedRule} (ht : p.TellsAll h base counts ms) :
    (Rule.rootsFrom base (rules ms)).all p.isSatisfied = areDone ms := by
  induction ms generalizing base with
  | nil => rfl
  | cons m ms ih =>
    rw [rootsFrom_rules_cons, List.all_cons, areDone, ht.1.isSatisfied, ih ht.2]

/-- The satisfied roots up to the first that is not are those of the steps that are behind. -/
theorem TellsAll.length_takeWhile {ms : List MarkedRule} (ht : p.TellsAll h base counts ms) :
    ((Rule.rootsFrom base (rules ms)).takeWhile p.isSatisfied).length = behind ms := by
  induction ms generalizing base with
  | nil => rfl
  | cons m ms ih =>
    rw [rootsFrom_rules_cons, behind, List.takeWhile_cons, List.takeWhile_cons, ht.1.isSatisfied]
    split
    · rw [List.length_cons, List.length_cons, ih ht.2, behind]
    · rfl

end Progress

end BoardTrial
