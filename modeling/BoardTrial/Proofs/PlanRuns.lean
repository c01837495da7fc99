import BoardTrial.Proofs.PlanFresh

/-!
# Runs of a plan

What is offered to a plan one after another does to its progress what it does to the marked rule
(`Plan.runs_offerAll`). So the plan is satisfied just when the marked rule is done, both answer
alike, and the history lists the leaves that count, in the order of their times.
-/

namespace BoardTrial

open MarkedRule Progress

namespace MarkedRule

mutual

/-- The times of the leaves that count, and their numbers in a plan that has the rule from `base`
on. -/
def marks (base : Nat) : MarkedRule → TimedHistory
  | doNothing => []
  | leaf _ time => time.toList.map fun t => (t, base)
  | inOrder ms | inAnyOrder ms => marksOfAll base ms
  | firstOrSecond a b =>
    if a.isDone then a.marks base
    else if b.isDone then b.marks (base + a.width)
    else a.marks base ++ b.marks (base + a.width)

/-- The same of several rules, one after another. -/
def marksOfAll (base : Nat) : List MarkedRule → TimedHistory
  | [] => []
  | m :: ms => m.marks base ++ marksOfAll (base + m.width) ms

end

/-- What is marked of two alternatives is marked of one of them. -/
theorem mem_marks_firstOrSecond {base : Nat} {a b : MarkedRule} {x : Nat × Nat}
    (hx : x ∈ (MarkedRule.firstOrSecond a b).marks base) :
    x ∈ a.marks base ∨ x ∈ b.marks (base + a.width) := by
  unfold marks at hx
  split at hx
  · exact .inl hx
  · split at hx
    · exact .inr hx
    · exact List.mem_append.mp hx

mutual

/-- Marks have the numbers of the nodes of the rule. -/
theorem bounds_of_mem_marks : ∀ {base : Nat} {m : MarkedRule} {x : Nat × Nat}, x ∈ m.marks base →
    base ≤ x.2 ∧ x.2 < base + m.width
  | base, .leaf i time, x, hx => by
    obtain ⟨t, -, rfl⟩ := List.mem_map.mp hx
    exact ⟨Nat.le_refl _, Nat.lt_succ_self _⟩
  | base, .inOrder ms, x, hx | base, .inAnyOrder ms, x, hx => by
    obtain ⟨hlo, hhi⟩ := bounds_of_mem_marksOfAll hx
    exact ⟨hlo, Nat.lt_succ_of_lt hhi⟩
  | base, .firstOrSecond a b, x, hx => by
    have hw : (MarkedRule.firstOrSecond a b).width = a.width + b.width + 1 := rfl
    rcases mem_marks_firstOrSecond hx with hx | hx
    · have := bounds_of_mem_marks hx
      omega
    · have := bounds_of_mem_marks hx
      omega

theorem bounds_of_mem_marksOfAll : ∀ {base : Nat} {ms : List MarkedRule} {x : Nat × Nat},
    x ∈ marksOfAll base ms → base ≤ x.2 ∧ x.2 < base + widths ms
  | base, m :: ms, x, hx => by
    rw [widths_cons]
    rcases List.mem_append.mp hx with hx | hx
    · have := bounds_of_mem_marks hx
      omega
    · have := bounds_of_mem_marksOfAll hx
      omega

end

/-- Marks of rules one after another are in the order of their numbers. -/
theorem pairwise_append_marks {mid : Nat} {l k : TimedHistory}
    (hl : l.Pairwise fun x y => x.2 < y.2) (hk : k.Pairwise fun x y => x.2 < y.2)
    (hlm : ∀ x ∈ l, x.2 < mid) (hkm : ∀ x ∈ k, mid ≤ x.2) :
    (l ++ k).Pairwise fun x y => x.2 < y.2 :=
  List.pairwise_append.mpr ⟨hl, hk, fun x hx y hy => Nat.lt_of_lt_of_le (hlm x hx) (hkm y hy)⟩

mutual

/-- Marks are in the order of their numbers. -/
theorem pairwise_marks : ∀ (base : Nat) (m : MarkedRule),
    (m.marks base).Pairwise fun x y => x.2 < y.2
  | _, .doNothing => .nil
  | _, .leaf _ none => .nil
  | _, .leaf _ (some _) => List.pairwise_singleton _ _
  | base, .inOrder ms | base, .inAnyOrder ms => pairwise_marksOfAll base ms
  | base, .firstOrSecond a b => by
    have ha := pairwise_marks base a
    have hb := pairwise_marks (base + a.width) b
    unfold marks
    split
    · exact ha
    · split
      · exact hb
      · exact pairwise_append_marks ha hb (fun x hx => (bounds_of_mem_marks hx).2)
          fun x hx => (bounds_of_mem_marks hx).1

theorem pairwise_marksOfAll : ∀ (base : Nat) (ms : List MarkedRule),
    (marksOfAll base ms).Pairwise fun x y => x.2 < y.2
  | _, [] => .nil
  | base, m :: ms =>
    pairwise_append_marks (pairwise_marks base m) (pairwise_marksOfAll (base + m.width) ms)
      (fun _ hx => (bounds_of_mem_marks hx).2) fun _ hx => (bounds_of_mem_marksOfAll hx).1

end

end MarkedRule

namespace Progress

variable {p : Progress} {h : TimedHistory} {base : Nat} {counts : Bool}

mutual

/-- At the nodes of a rule that counts the history has its marks, and if it does not count,
nothing. -/
theorem Tells.mem_iff : ∀ {m : MarkedRule} {base : Nat} {counts : Bool}, p.Tells h base counts m →
    ∀ {x : Nat × Nat}, base ≤ x.2 → x.2 < base + m.width →
      (x ∈ h ↔ counts = true ∧ x ∈ m.marks base)
  | .doNothing, base, counts, ht, x, hlo, hhi => by
    obtain rfl : base = x.2 := Nat.le_antisymm hlo (Nat.le_of_lt_succ hhi)
    simpa [marks] using ht.2 x.1
  | .leaf _ time, base, counts, ht, x, hlo, hhi => by
    obtain rfl : base = x.2 := Nat.le_antisymm hlo (Nat.le_of_lt_succ hhi)
    rw [ht.2 x.1, marks]
    simp [Prod.ext_iff]
  | .inOrder ms, base, counts, ht, x, hlo, hhi | .inAnyOrder ms, base, counts, ht, x, hlo, hhi => by
    rcases Nat.lt_succ_iff_lt_or_eq.mp hhi with hlt | heq
    · exact TellsAll.mem_iff ht.1 hlo hlt
    · change x.2 = base + widths ms at heq
      have hh : x ∉ h := fun hx => ht.2.2 x.1 (heq ▸ hx)
      have hm : x ∉ marksOfAll base ms :=
        fun hx => Nat.ne_of_lt (bounds_of_mem_marksOfAll hx).2 heq
      simp [marks, hh, hm]
  | .firstOrSecond a b, base, counts, ht, x, hlo, hhi => by
    obtain ⟨hta, htb, -, hnone⟩ := ht
    have hwidth : (MarkedRule.firstOrSecond a b).width = a.width + b.width + 1 := rfl
    -- each node belongs to one of the alternatives, or is the last
    rcases Nat.lt_or_ge x.2 (base + a.width) with hlt | hge
    · have hb : x ∉ b.marks (base + a.width) := fun hx => by
        have := bounds_of_mem_marks hx
        omega
      rw [Tells.mem_iff hta hlo hlt, marks]
      cases a.isDone <;> cases b.isDone <;> simp [hb]
    · have ha : x ∉ a.marks base := fun hx => by
        have := bounds_of_mem_marks hx
        omega
      rcases Nat.lt_or_ge x.2 (base + a.width + b.width) with hlt | hge'
      · rw [Tells.mem_iff htb hge hlt, marks]
        cases a.isDone <;> cases b.isDone <;> simp [ha]
      · have heq : x.2 = base + a.width + b.width := by omega
        have hb : x ∉ b.marks (base + a.width) := fun hx => by
          have := bounds_of_mem_marks hx
          omega
        have hh : x ∉ h := fun hx => hnone x.1 (heq ▸ hx)
        rw [marks]
        cases a.isDone <;> cases b.isDone <;> simp [ha, hb, hh]

theorem TellsAll.mem_iff : ∀ {ms : List MarkedRule} {base : Nat} {counts : Bool},
    p.TellsAll h base counts ms → ∀ {x : Nat × Nat}, base ≤ x.2 → x.2 < base + widths ms →
      (x ∈ h ↔ counts = true ∧ x ∈ marksOfAll base ms)
  | [], base, counts, ht, x, hlo, hhi => by
    rw [widths_nil] at hhi
    omega
  | m :: ms, base, counts, ht, x, hlo, hhi => by
    rw [widths_cons] at hhi
    rw [marksOfAll, List.mem_append]
    rcases Nat.lt_or_ge x.2 (base + m.width) with hlt | hge
    · have hms : x ∉ marksOfAll (base + m.width) ms := fun hx => by
        have := bounds_of_mem_marksOfAll hx
        omega
      simp [Tells.mem_iff ht.1 hlo hlt, hms]
    · have hm : x ∉ m.marks base := fun hx => by
        have := bounds_of_mem_marks hx
        omega
      simp [TellsAll.mem_iff ht.2 hge (by omega), hm]

end

end Progress

namespace Plan

variable {plan : Plan} {now base : Nat} {p : Progress} {h : TimedHistory} {m : MarkedRule}
  {r : Rule}

/-- An entry with the interaction of its leaf. -/
def dated? (plan : Plan) (x : Nat × Nat) : Option (Nat × Interaction) :=
  (plan.interaction? x.2).map fun i => (x.1, i)

theorem map_filterMap_dated? (plan : Plan) (l : TimedHistory) :
    (l.filterMap plan.dated?).map (·.2) = (l.map (·.2)).filterMap plan.interaction? := by
  rw [List.map_filterMap, List.filterMap_map]
  congr 1
  funext x
  simp [dated?, Function.comp_def]

mutual

/-- The marks of a rule that the plan holds are the log of the rule. -/
theorem filterMap_marks : ∀ {base : Nat} {m : MarkedRule}, plan.Holds base m.rule →
    (m.marks base).filterMap plan.dated? = m.log
  | base, .doNothing, hh => rfl
  | base, .leaf i time, hh => by
    have hi : plan.interaction? base = some i := by rw [interaction?, hh.1]
    cases time <;> simp [marks, log, dated?, hi]
  | base, .inOrder ms, hh | base, .inAnyOrder ms, hh => filterMap_marksOfAll hh.1
  | base, .firstOrSecond a b, hh => by
    have ha := filterMap_marks hh.1
    have hb := filterMap_marks (show plan.Holds (base + a.width) b.rule from hh.2.1)
    rw [marks, log]
    split
    · exact ha
    · split
      · exact hb
      · rw [List.filterMap_append, ha, hb]

theorem filterMap_marksOfAll : ∀ {base : Nat} {ms : List MarkedRule},
    plan.HoldsAll base (rules ms) → (marksOfAll base ms).filterMap plan.dated? = logs ms
  | base, [], hh => rfl
  | base, m :: ms, hh => by
    have hms := filterMap_marksOfAll (show plan.HoldsAll (base + m.width) (rules ms) from hh.2)
    rw [marksOfAll, logs, List.filterMap_append, filterMap_marks hh.1, hms]

end

/-! ### Runs -/

/-- A progress and its history tell a marked rule after submissions before `now`. -/
structure Runs (r : Rule) (now : Nat) (p : Progress) (h : TimedHistory) (m : MarkedRule) :
    Prop where
  /-- The rule is that of the plan. -/
  rule : m.rule = r
  /-- The progress tells how far it is. -/
  ready : Ready (ofRule r) now 0 p h m
  /-- All entries are nodes of the plan. -/
  below (x : Nat × Nat) : x ∈ h → x.2 < m.width

/-- Offering to the plan is offering to the marked rule, and what is new in the history is of now. -/
theorem Runs.step (hr : Runs r now p h m) (accepts : Interaction → Bool) :
    ∃ p' h', (ofRule r).offerAt accepts (ofRule r).root p = ((m.offer accepts now).1, p') ∧
      Runs r (now + 1) p' h' (m.offer accepts now).2 ∧ ∀ x ∈ h', x ∈ h ∨ x.1 = now := by
  obtain ⟨p', h', hq, -, hw, ht⟩ := follows m hr.ready
  rw [hr.rule, Nat.zero_add, ← root_ofRule] at hq
  refine ⟨p', h', hq, ⟨?_, ⟨?_, hw.timed, ?_, ht, ?_⟩, ?_⟩,
    fun x hx => (hw.recent x hx).imp_right And.left⟩
  · rw [rule_offer, hr.rule]
  · rw [rule_offer]
    exact hr.ready.holds
  · rw [width_offer]
    exact hw.room _ hr.ready.room
  · intro x hx
    left
    rcases hw.recent x hx with hx | hx
    · rcases hr.ready.past x hx with hx | hx
      · exact Nat.lt_succ_of_lt hx
      · exact absurd hx.2 (Nat.not_lt_zero _)
    · exact hx.1 ▸ Nat.lt_succ_self _
  · intro x hx
    rw [width_offer]
    rcases hw.recent x hx with hx | hx
    · exact hr.below x hx
    · simpa using hx.2

/-- Offering to the plan is offering to the marked rule. -/
theorem Runs.offer (hr : Runs r now p h m) (accepts : Interaction → Bool) :
    ∃ p' h', (ofRule r).offerAt accepts (ofRule r).root p = ((m.offer accepts now).1, p') ∧
      Runs r (now + 1) p' h' (m.offer accepts now).2 := by
  obtain ⟨p', h', hq, hr', -⟩ := hr.step accepts
  exact ⟨p', h', hq, hr'⟩

/-- **What is offered to the plan one after another does to it what it does to the marked rule.** -/
theorem Runs.offerEach (hr : Runs r now p h m) (os : List Offering) :
    ∃ h', Runs r (now + os.length) ((ofRule r).offerEach p os) h'
      (MarkedRule.offerAll Offering.accepts m (os.zipIdx now)) := by
  induction os generalizing now p h m with
  | nil => exact ⟨h, hr⟩
  | cons o os ih =>
    obtain ⟨p', h', hq, hr'⟩ := hr.offer o.accepts
    obtain ⟨k, hk⟩ := ih hr'
    refine ⟨k, ?_⟩
    rw [Plan.offerEach, List.foldl_cons, ← Plan.offerEach, List.zipIdx_cons, offerAll_cons,
      List.length_cons, Nat.add_comm os.length, ← Nat.add_assoc]
    change Runs r _ ((ofRule r).offerEach ((ofRule r).offerAt o.accepts _ p).2 os) k _
    rw [hq]
    exact hk

/-- Before anything is offered nothing is marked. -/
theorem runs_fresh (r : Rule) : Runs r 0 (ofRule r).fresh [] (.ofRule r) :=
  ⟨rule_ofRule r, ready_fresh r, by simp⟩

theorem offerAll_eq_offerEach (plan : Plan) (e : Evidence) (p : Progress) (ss : List Submission) :
    plan.offerAll e p ss = plan.offerEach p (ss.map (Offering.mk e)) := by
  rw [Plan.offerEach, List.foldl_map, offerAll]

/-- Any submissions do to the plan what they do to the marked rule. -/
theorem Runs.offerAll (hr : Runs r now p h m) (e : Evidence) (ss : List Submission) :
    ∃ h', Runs r (now + ss.length) ((ofRule r).offerAll e p ss) h'
      (MarkedRule.offerAll e.accepts m (ss.zipIdx now)) := by
  obtain ⟨h', hr'⟩ := hr.offerEach (ss.map (Offering.mk e))
  rw [List.length_map, ← offerAll_eq_offerEach, offerAll_map] at hr'
  exact ⟨h', hr'⟩

/-- Submissions do to the plan of a rule what they do to the rule without marks. -/
theorem runs_offerAll (r : Rule) (e : Evidence) (ss : List Submission) :
    ∃ h, Runs r ss.length ((ofRule r).offerAll e (ofRule r).fresh ss) h
      (MarkedRule.offerAll e.accepts (.ofRule r) ss.zipIdx) := by
  have hr := (runs_fresh r).offerAll e ss
  rwa [Nat.zero_add] at hr

/-- The plan is satisfied just when the rule is done. -/
theorem Runs.isSatisfied (hr : Runs r now p h m) : p.isSatisfied (ofRule r).root = m.isDone := by
  have hs := hr.ready.tells.isSatisfied
  rwa [Nat.zero_add, hr.rule, ← root_ofRule] at hs

/-- The entries of the history are the marks that count. -/
theorem Runs.perm_marks (hr : Runs r now p h m) : h.Perm (m.marks 0) := by
  have hne : h.Pairwise (· ≠ ·) := hr.ready.timed.sorted.imp fun hxy heq => by
    subst heq
    simp at hxy
  have hne' : (m.marks 0).Pairwise (· ≠ ·) := (pairwise_marks 0 m).imp fun hxy heq => by
    subst heq
    simp at hxy
  apply (List.perm_ext_iff_of_nodup hne hne').mpr
  intro x
  constructor
  · intro hx
    have hlt := hr.below x hx
    exact ((hr.ready.tells.mem_iff (Nat.zero_le _) (by omega)).mp hx).2
  · intro hx
    exact (hr.ready.tells.mem_iff (Nat.zero_le _) (bounds_of_mem_marks hx).2).mpr ⟨rfl, hx⟩

/-- The entries of the history are in the order of their times. -/
theorem Runs.pairwise_dated (hr : Runs r now p h m) :
    (h.filterMap (ofRule r).dated?).Pairwise fun x y => x.1 ≤ y.1 := by
  refine List.Pairwise.filterMap _ ?_ hr.ready.timed.sorted
  intro x y hxy a ha b hb
  obtain ⟨i, -, rfl⟩ := Option.map_eq_some_iff.mp ha
  obtain ⟨j, -, rfl⟩ := Option.map_eq_some_iff.mp hb
  show x.1 ≤ y.1
  omega

/-- **The history lists the leaves that count in the order of their times.** -/
theorem Runs.exists_sorted_log (hr : Runs r now p h m) :
    ∃ v : List (Nat × Interaction), v.Perm m.log ∧ v.Pairwise (fun x y => x.1 ≤ y.1) ∧
      v.map (·.2) = p.history.filterMap (ofRule r).interaction? := by
  refine ⟨h.filterMap (ofRule r).dated?, ?_, hr.pairwise_dated, ?_⟩
  · rw [← filterMap_marks hr.ready.holds]
    exact hr.perm_marks.filterMap _
  · rw [map_filterMap_dated?, hr.ready.timed.history]

end Plan

end BoardTrial
