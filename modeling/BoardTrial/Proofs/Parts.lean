import BoardTrial.Proofs.Replay

/-!
# Parts of a rule and their nodes

A part of a rule is the rule itself, or is right below another part (`MarkedRule.HasPart`). In a plan
that holds the rule each part has a stretch of numbers, the last of which is that of its own node,
and the nodes below that node are the stretch (`Plan.below_iff`). So what can be seen of a node is
what its part tells.

An offer to a rule is an offer to each of its parts, or leaves the part alone; so a part that is
done stays as it is (`MarkedRule.HasPart.offerAll`). Nothing is marked before its turn
(`MarkedRule.InTurn`).
-/

namespace BoardTrial

open MarkedRule Progress

namespace MarkedRule

/-- `HasChild m base k start`: `k` is right below `m`. Where `m` has the numbers from `base` on, `k` has
those from `start` on. -/
inductive HasChild : MarkedRule → Nat → MarkedRule → Nat → Prop where
  /-- One of several steps. -/
  | step {ms : List MarkedRule} {i : Nat} {k : MarkedRule} (base : Nat) : ms[i]? = some k →
      HasChild (.inOrder ms) base k (base + widths (ms.take i))
  /-- One of several clauses. -/
  | clause {ms : List MarkedRule} {i : Nat} {k : MarkedRule} (base : Nat) : ms[i]? = some k →
      HasChild (.inAnyOrder ms) base k (base + widths (ms.take i))
  /-- The first of two alternatives. -/
  | first (a b : MarkedRule) (base : Nat) : HasChild (.firstOrSecond a b) base a base
  /-- The second of two alternatives. -/
  | second (a b : MarkedRule) (base : Nat) : HasChild (.firstOrSecond a b) base b (base + a.width)

/-- `HasPart m base k start`: `k` is a part of `m`. Where `m` has the numbers from `base` on, `k` has
those from `start` on. -/
inductive HasPart (m : MarkedRule) (base : Nat) : MarkedRule → Nat → Prop where
  /-- The whole rule. -/
  | whole : HasPart m base m base
  /-- What is right below a part. -/
  | child {k l : MarkedRule} {start start' : Nat} : HasPart m base k start → HasChild k start l start' →
      HasPart m base l start'

variable {m m' k l : MarkedRule} {base start start' : Nat}

theorem HasChild.part (h : HasChild m base k start) : HasPart m base k start := HasPart.whole.child h

theorem HasPart.trans (h : HasPart m base k start) (h' : HasPart k start l start') :
    HasPart m base l start' := by
  induction h' with
  | whole => exact h
  | child _ hc ih => exact ih.child hc

/-! ### Numbers -/

/-- The number of the node of a rule that has the numbers from `base` on. -/
def root (m : MarkedRule) (base : Nat) : Nat := base + m.rule.nodesBelow

/-- A list is what is before a member, the member, and what is after it. -/
theorem eq_take_cons_drop {ms : List MarkedRule} {i : Nat} (h : ms[i]? = some k) :
    ms = ms.take i ++ k :: ms.drop (i + 1) := by
  obtain ⟨hi, rfl⟩ := List.getElem?_eq_some_iff.mp h
  rw [List.getElem_cons_drop, List.take_append_drop]

theorem widths_take_add_le {ms : List MarkedRule} {i : Nat} (h : ms[i]? = some k) :
    widths (ms.take i) + k.width ≤ widths ms := by
  conv_rhs => rw [eq_take_cons_drop h, widths_append, widths_cons]
  omega

/-- What is right below a rule has some of its numbers, and not the last. -/
theorem HasChild.bounds (h : HasChild m base k start) :
    base ≤ start ∧ start + k.width < base + m.width := by
  cases h with
  | @step ms i _ _ hi =>
    have hw : (MarkedRule.inOrder ms).width = widths ms + 1 := rfl
    have := widths_take_add_le hi
    omega
  | @clause ms i _ _ hi =>
    have hw : (MarkedRule.inAnyOrder ms).width = widths ms + 1 := rfl
    have := widths_take_add_le hi
    omega
  | first _ b _ =>
    have hw : (MarkedRule.firstOrSecond k b).width = k.width + b.width + 1 := rfl
    omega
  | second a _ _ =>
    have hw : (MarkedRule.firstOrSecond a k).width = a.width + k.width + 1 := rfl
    omega

/-- The numbers of a part are numbers of the rule. -/
theorem HasPart.bounds (h : HasPart m base k start) :
    base ≤ start ∧ start + k.width ≤ base + m.width := by
  induction h with
  | whole => exact ⟨Nat.le_refl _, Nat.le_refl _⟩
  | child _ hc ih =>
    have := hc.bounds
    omega

/-- Each number of several rules is a number of one of them. -/
theorem exists_member_of_lt {ms : List MarkedRule} {n : Nat} (hlo : base ≤ n)
    (hhi : n < base + widths ms) :
    ∃ i k, ms[i]? = some k ∧ base + widths (ms.take i) ≤ n ∧
      n < base + widths (ms.take i) + k.width := by
  induction ms generalizing base with
  | nil => exact absurd hhi (Nat.not_lt.mpr hlo)
  | cons m ms ih =>
    rw [widths_cons] at hhi
    rcases Nat.lt_or_ge n (base + m.width) with hlt | hge
    · exact ⟨0, m, rfl, hlo, hlt⟩
    · obtain ⟨i, k, hi, hlo', hhi'⟩ := ih hge (by omega)
      refine ⟨i + 1, k, hi, ?_, ?_⟩ <;> rw [List.take_succ_cons, widths_cons] <;> omega

/-- **Each number of a rule is that of the node of some part.** -/
theorem exists_part (m : MarkedRule) {base n : Nat} (hlo : base ≤ n) (hhi : n < base + m.width) :
    ∃ k start, HasPart m base k start ∧ k.root start = n := by
  induction m generalizing base with
  | doNothing => exact ⟨_, base, .whole, Nat.le_antisymm hlo (Nat.le_of_lt_succ hhi)⟩
  | leaf i time => exact ⟨_, base, .whole, Nat.le_antisymm hlo (Nat.le_of_lt_succ hhi)⟩
  | inOrder ms ih =>
    rcases Nat.lt_succ_iff_lt_or_eq.mp hhi with hlt | heq
    · obtain ⟨i, k, hi, hlo', hhi'⟩ := exists_member_of_lt hlo hlt
      obtain ⟨l, start, hl, hn⟩ := ih k (List.mem_of_getElem? hi) hlo' hhi'
      exact ⟨l, start, (HasChild.step base hi).part.trans hl, hn⟩
    · exact ⟨_, base, .whole, heq.symm⟩
  | inAnyOrder ms ih =>
    rcases Nat.lt_succ_iff_lt_or_eq.mp hhi with hlt | heq
    · obtain ⟨i, k, hi, hlo', hhi'⟩ := exists_member_of_lt hlo hlt
      obtain ⟨l, start, hl, hn⟩ := ih k (List.mem_of_getElem? hi) hlo' hhi'
      exact ⟨l, start, (HasChild.clause base hi).part.trans hl, hn⟩
    · exact ⟨_, base, .whole, heq.symm⟩
  | firstOrSecond a b iha ihb =>
    have hw : (MarkedRule.firstOrSecond a b).width = a.width + b.width + 1 := rfl
    rcases Nat.lt_or_ge n (base + a.width) with hlt | hge
    · obtain ⟨l, start, hl, hn⟩ := iha hlo hlt
      exact ⟨l, start, (HasChild.first a b base).part.trans hl, hn⟩
    rcases Nat.lt_or_ge n (base + a.width + b.width) with hlt | hge'
    · obtain ⟨l, start, hl, hn⟩ := ihb hge hlt
      exact ⟨l, start, (HasChild.second a b base).part.trans hl, hn⟩
    · refine ⟨_, base, .whole, ?_⟩
      have hn : n = base + (a.width + b.width) := by omega
      exact hn.symm

/-! ### Nodes -/

/-- The node of a rule that has the numbers from `base` on. -/
def node (base : Nat) : MarkedRule → Node
  | doNothing => .nothing
  | leaf i _ => .leaf i
  | inOrder ms => .inOrder (Rule.rootsFrom base (rules ms))
  | inAnyOrder ms => .inAnyOrder (Rule.rootsFrom base (rules ms))
  | firstOrSecond a b => .firstOrSecond (a.root base) (b.root (base + a.width))

/-! The node of a rule says which rule it is. -/

theorem node_eq_leaf {i : Interaction} (h : m.node base = .leaf i) : ∃ time, m = .leaf i time := by
  cases m with
  | leaf j time =>
    cases h
    exact ⟨time, rfl⟩
  | _ => cases h

theorem node_eq_inOrder {cs : List Nat} (h : m.node base = .inOrder cs) :
    ∃ ms, m = .inOrder ms ∧ cs = Rule.rootsFrom base (rules ms) := by
  cases m with
  | inOrder ms =>
    cases h
    exact ⟨ms, rfl, rfl⟩
  | _ => cases h

theorem node_eq_firstOrSecond {c d : Nat} (h : m.node base = .firstOrSecond c d) :
    ∃ a b, m = .firstOrSecond a b ∧ c = a.root base ∧ d = b.root (base + a.width) := by
  cases m with
  | firstOrSecond a b =>
    cases h
    exact ⟨a, b, rfl, rfl, rfl⟩
  | _ => cases h

/-- The roots of several rules, at the place of one of them. -/
theorem getElem?_rootsFrom_iff {ms : List MarkedRule} {i n : Nat} :
    (Rule.rootsFrom base (rules ms))[i]? = some n ↔
      ∃ k, ms[i]? = some k ∧ k.root (base + widths (ms.take i)) = n := by
  induction ms generalizing base i with
  | nil => simp [rules, Rule.rootsFrom]
  | cons m ms ih =>
    cases i with
    | zero => simp [rootsFrom_rules_cons, root]
    | succ i =>
      rw [rootsFrom_rules_cons, List.getElem?_cons_succ, ih, List.take_succ_cons, widths_cons,
        Nat.add_assoc, List.getElem?_cons_succ]

/-- The nodes right below the node of a rule are those of what is right below the rule. -/
theorem mem_children_iff {c : Nat} :
    c ∈ (m.node base).children ↔ ∃ k start, HasChild m base k start ∧ k.root start = c := by
  constructor
  · intro hc
    cases m with
    | doNothing => cases hc
    | leaf i time => cases hc
    | inOrder ms =>
      obtain ⟨i, hi⟩ := List.mem_iff_getElem?.mp hc
      obtain ⟨k, hk, hkc⟩ := getElem?_rootsFrom_iff.mp hi
      exact ⟨k, _, .step base hk, hkc⟩
    | inAnyOrder ms =>
      obtain ⟨i, hi⟩ := List.mem_iff_getElem?.mp hc
      obtain ⟨k, hk, hkc⟩ := getElem?_rootsFrom_iff.mp hi
      exact ⟨k, _, .clause base hk, hkc⟩
    | firstOrSecond a b =>
      rcases List.mem_pair.mp hc with rfl | rfl
      · exact ⟨a, _, .first a b base, rfl⟩
      · exact ⟨b, _, .second a b base, rfl⟩
  · rintro ⟨k, start, hk, rfl⟩
    cases hk with
    | step _ hi => exact List.mem_of_getElem? (getElem?_rootsFrom_iff.mpr ⟨k, hi, rfl⟩)
    | clause _ hi => exact List.mem_of_getElem? (getElem?_rootsFrom_iff.mpr ⟨k, hi, rfl⟩)
    | first _ b _ => exact List.mem_cons_self
    | second a _ _ => exact List.mem_cons_of_mem _ List.mem_cons_self

end MarkedRule

namespace Plan

variable {plan : Plan} {m k : MarkedRule} {base start n : Nat}

theorem Holds.node? (hh : plan.Holds base m.rule) : plan.node? (m.root base) = some (m.node base) := by
  cases m with
  | doNothing => exact hh.1
  | leaf i time => exact hh.1
  | inOrder ms => exact hh.2.1
  | inAnyOrder ms => exact hh.2.1
  | firstOrSecond a b =>
    have hn := hh.2.2.1
    rwa [Nat.add_assoc] at hn

theorem HoldsAll.getElem? {ms : List MarkedRule} {i : Nat} (hh : plan.HoldsAll base (rules ms))
    (hi : ms[i]? = some k) : plan.Holds (base + widths (ms.take i)) k.rule := by
  rw [eq_take_cons_drop hi, rules_append, holdsAll_append] at hh
  exact hh.2.1

theorem Holds.child (hh : plan.Holds base m.rule) (hc : HasChild m base k start) :
    plan.Holds start k.rule := by
  cases hc with
  | step _ hi => exact hh.1.getElem? hi
  | clause _ hi => exact hh.1.getElem? hi
  | first a b => exact hh.1
  | second a b => exact hh.2.1

theorem Holds.part (hh : plan.Holds base m.rule) (hp : HasPart m base k start) :
    plan.Holds start k.rule := by
  induction hp with
  | whole => exact hh
  | child _ hc ih => exact ih.child hc

/-- The nodes below that of a rule are the nodes of its parts. -/
theorem Holds.below_iff_exists_part (hh : plan.Holds base m.rule) :
    plan.Below (m.root base) n ↔ ∃ k start, HasPart m base k start ∧ k.root start = n := by
  constructor
  · intro hn
    induction hn with
    | self => exact ⟨m, base, .whole, rfl⟩
    | child _ hnode hc ih =>
      obtain ⟨k, start, hk, rfl⟩ := ih
      obtain rfl := Option.some.inj ((hh.part hk).node?.symm.trans hnode)
      obtain ⟨l, start', hl, rfl⟩ := mem_children_iff.mp hc
      exact ⟨l, start', hk.child hl, rfl⟩
  · rintro ⟨k, start, hk, rfl⟩
    induction hk with
    | whole => exact .self
    | child hk hl ih => exact ih.child (hh.part hk).node? (mem_children_iff.mpr ⟨_, _, hl, rfl⟩)

/-- **The nodes below that of a rule are the numbers of the rule.** -/
theorem Holds.below_iff (hh : plan.Holds base m.rule) :
    plan.Below (m.root base) n ↔ base ≤ n ∧ n < base + m.width := by
  rw [hh.below_iff_exists_part]
  constructor
  · rintro ⟨k, start, hk, rfl⟩
    have hb := hk.bounds
    rw [width] at hb
    rw [MarkedRule.root]
    omega
  · rintro ⟨hlo, hhi⟩
    exact exists_part m hlo hhi

end Plan

/-! ### What a part tells -/

namespace Progress

variable {p : Progress} {h : TimedHistory} {m k : MarkedRule} {base start : Nat} {counts : Bool}

theorem TellsAll.getElem? {ms : List MarkedRule} {i : Nat} (ht : p.TellsAll h base counts ms)
    (hi : ms[i]? = some k) : p.Tells h (base + widths (ms.take i)) counts k := by
  rw [eq_take_cons_drop hi, tellsAll_append] at ht
  exact ht.2.1

theorem Tells.child (ht : p.Tells h base counts m) (hc : HasChild m base k start) :
    ∃ counts', p.Tells h start counts' k := by
  cases hc with
  | step _ hi => exact ⟨_, ht.1.getElem? hi⟩
  | clause _ hi => exact ⟨_, ht.1.getElem? hi⟩
  | first a b => exact ⟨_, ht.1⟩
  | second a b => exact ⟨_, ht.2.1⟩

theorem Tells.part (ht : p.Tells h base counts m) (hp : HasPart m base k start) :
    ∃ counts', p.Tells h start counts' k := by
  induction hp with
  | whole => exact ⟨_, ht⟩
  | child _ hc ih =>
    obtain ⟨_, ht'⟩ := ih
    exact ht'.child hc

end Progress

/-! ### What an offer does to a part -/

namespace MarkedRule

variable {accepts : Interaction → Bool} {now : Nat} {m m' k l : MarkedRule} {o : Offer}
  {base start : Nat}

/-- Where the members of a list begin depends on the rules only. -/
theorem widths_take_of_rules {ms ks : List MarkedRule} (h : rules ms = rules ks) (i : Nat) :
    widths (ms.take i) = widths (ks.take i) := by
  rw [rules_eq_map, rules_eq_map] at h
  rw [widths, widths, rules_eq_map, rules_eq_map, List.map_take, List.map_take, h]

/-- A member of a list one member of which is replaced stays, or is replaced. -/
theorem getElem?_replace {pre post : List MarkedRule} {i : Nat}
    (hk : (pre ++ m :: post)[i]? = some k) (m' : MarkedRule) :
    (pre ++ m' :: post)[i]? = some k ∨ k = m ∧ (pre ++ m' :: post)[i]? = some m' := by
  rcases Nat.lt_trichotomy i pre.length with hi | rfl | hi
  · rw [List.getElem?_append_left hi] at hk ⊢
    exact .inl hk
  · rw [List.getElem?_append_right (Nat.le_refl _), Nat.sub_self] at hk ⊢
    exact .inr ⟨(Option.some.inj hk).symm, rfl⟩
  · obtain ⟨j, rfl⟩ := Nat.exists_eq_add_of_lt hi
    refine .inl ?_
    rw [List.getElem?_append_right (Nat.le_of_lt hi)] at hk ⊢
    rwa [Nat.add_assoc, Nat.add_sub_cancel_left] at hk ⊢

/-- An offer to one of several rules is an offer to each of them. -/
theorem Offered.getElem? {pre post : List MarkedRule} {i : Nat} (h : Offered accepts now m o m')
    (hk : (pre ++ m :: post)[i]? = some k) :
    ∃ k' o', (pre ++ m' :: post)[i]? = some k' ∧ Offered accepts now k o' k' ∧
      widths ((pre ++ m' :: post).take i) = widths ((pre ++ m :: post).take i) := by
  have hrules : rules (pre ++ m' :: post) = rules (pre ++ m :: post) := by
    simp only [rules_append, rules, h.rule_eq]
  have hw := widths_take_of_rules hrules i
  rcases getElem?_replace hk m' with hk' | ⟨rfl, hk'⟩
  · exact ⟨k, .ignored, hk', .ignored k, hw⟩
  · exact ⟨m', o, hk', h, hw⟩

/-- An offer to a rule is an offer to what is right below it. -/
theorem Offered.child (h : Offered accepts now m o m') (hc : HasChild m base k start) :
    ∃ k' o', HasChild m' base k' start ∧ Offered accepts now k o' k' := by
  cases h with
  | ignored m => exact ⟨k, .ignored, hc, .ignored k⟩
  | leaf _ => cases hc
  | step _ _ _ h =>
    cases hc with
    | step _ hi =>
      obtain ⟨k', o', hk', ho', hw⟩ := h.getElem? hi
      exact ⟨k', o', hw ▸ .step base hk', ho'⟩
  | clause _ _ h =>
    cases hc with
    | clause _ hi =>
      obtain ⟨k', o', hk', ho', hw⟩ := h.getElem? hi
      exact ⟨k', o', hw ▸ .clause base hk', ho'⟩
  | @first a b a' _ _ h =>
    have hw : a'.width = a.width := by rw [width, h.rule_eq, width]
    cases hc with
    | first _ b _ => exact ⟨a', _, .first a' b base, h⟩
    | second _ _ _ => exact ⟨k, _, hw ▸ .second a' k base, .ignored k⟩
  | @second a b a' b' _ _ _ _ h h' =>
    have hw : a'.width = a.width := by rw [width, h.rule_eq, width]
    cases hc with
    | first _ _ _ => exact ⟨a', _, .first a' b' base, h⟩
    | second _ _ _ => exact ⟨b', _, hw ▸ .second a' b' base, h'⟩
  | @both a b a' b' _ _ _ _ _ _ h h' =>
    have hw : a'.width = a.width := by rw [width, h.rule_eq, width]
    cases hc with
    | first _ _ _ => exact ⟨a', _, .first a' b' base, h⟩
    | second _ _ _ => exact ⟨b', _, hw ▸ .second a' b' base, h'⟩

/-- **An offer to a rule is an offer to each of its parts.** -/
theorem Offered.part (h : Offered accepts now m o m') (hp : HasPart m base k start) :
    ∃ k' o', HasPart m' base k' start ∧ Offered accepts now k o' k' := by
  induction hp with
  | whole => exact ⟨m', o, .whole, h⟩
  | child _ hc ih =>
    obtain ⟨k', _, hk', ho'⟩ := ih
    obtain ⟨l', o'', hl', ho''⟩ := ho'.child hc
    exact ⟨l', o'', hk'.child hl', ho''⟩

/-- A part that is done stays as it is. -/
theorem HasPart.offerAll {σ : Type} {accepts : σ → Interaction → Bool} (hp : HasPart m base k start)
    (hd : k.isDone = true) (l : List (σ × Nat)) :
    HasPart (MarkedRule.offerAll accepts m l) base k start := by
  induction l generalizing m with
  | nil => exact hp
  | cons x l ih =>
    obtain ⟨k', o', hk', ho'⟩ := (offered (accepts x.1) x.2 m).part hp
    have hign : o' = .ignored := by
      by_contra hne
      rw [ho'.not_isDone hne] at hd
      cases hd
    obtain rfl := ho'.eq_of_ignored hign
    exact ih hk'

/-! ### Nothing is marked before its turn -/

/-- Nothing of the rule has been done. -/
def Unmarked (m : MarkedRule) : Prop := m = ofRule m.rule

theorem unmarked_ofRule (r : Rule) : (ofRule r).Unmarked := by rw [Unmarked, rule_ofRule]

/-- What is marked has had its turn. -/
inductive InTurn : MarkedRule → Prop where
  /-- There is nothing to mark. -/
  | doNothing : InTurn .doNothing
  /-- A leaf may be marked. -/
  | leaf (i : Interaction) (time : Option Nat) : InTurn (.leaf i time)
  /-- A step is unmarked unless those before it are done. -/
  | inOrder {ms : List MarkedRule} : (∀ m ∈ ms, InTurn m) →
      (ms.Pairwise fun a b => a.isDone = true ∨ b.Unmarked) → InTurn (.inOrder ms)
  /-- Any clause may be marked. -/
  | inAnyOrder {ms : List MarkedRule} : (∀ m ∈ ms, InTurn m) → InTurn (.inAnyOrder ms)
  /-- Alternatives that are both done are unmarked. -/
  | firstOrSecond {a b : MarkedRule} : InTurn a → InTurn b →
      (a.isDone = true → b.isDone = true → a.Unmarked ∧ b.Unmarked) → InTurn (.firstOrSecond a b)

theorem inTurn_ofRule (r : Rule) : (ofRule r).InTurn := by
  induction r with
  | doNothing => exact .doNothing
  | leaf i => exact .leaf i none
  | inOrder rs ih =>
    rw [ofRule, ofRules_eq_map]
    refine .inOrder (by simpa using ih) (List.pairwise_map.mpr (List.pairwise_of_forall ?_))
    intro r s
    exact .inr (unmarked_ofRule s)
  | inAnyOrder rs ih =>
    rw [ofRule, ofRules_eq_map]
    exact .inAnyOrder (by simpa using ih)
  | firstOrSecond a b iha ihb =>
    exact .firstOrSecond iha ihb fun _ _ => ⟨unmarked_ofRule a, unmarked_ofRule b⟩

/-- An offer marks what has its turn. -/
theorem Offered.inTurn (h : Offered accepts now m o m') (hm : m.InTurn) : m'.InTurn := by
  induction h with
  | ignored m => exact hm
  | leaf _ => exact .leaf _ _
  | @step pre post m m' o hpre hd _ h ih =>
    cases hm with
    | inOrder hall hpw =>
      refine .inOrder (forall_mem_replace hall (ih (hall m (by simp)))) ?_
      apply pairwise_replace hpw
      · exact fun k hk _ => .inl ((areDone_iff pre).mp hpre k hk)
      · exact fun k _ hmk => .inr (hmk.resolve_left (by simp [hd]))
  | clause _ _ _ ih =>
    cases hm with
    | inAnyOrder hall => exact .inAnyOrder (forall_mem_replace hall (ih (hall _ (by simp))))
  | first _ hb _ ih =>
    cases hm with
    | firstOrSecond ha' hb' _ => exact .firstOrSecond (ih ha') hb' (by simp [hb])
  | second ha _ hne h _ iha ihb =>
    cases hm with
    | firstOrSecond ha' hb' _ =>
      refine .firstOrSecond (iha ha') (ihb hb') fun hd => ?_
      exact absurd (h.isDone_iff.mp hd) (by simp [ha, hne])
  | both ha _ hna _ h _ iha ihb =>
    cases hm with
    | firstOrSecond ha' hb' _ =>
      refine .firstOrSecond (iha ha') (ihb hb') fun hd => ?_
      exact absurd (h.isDone_iff.mp hd) (by simp [ha, hna])

/-- **Whatever is offered, nothing is marked before its turn.** -/
theorem inTurn_offerAll {σ : Type} (accepts : σ → Interaction → Bool) (hm : m.InTurn)
    (l : List (σ × Nat)) : (MarkedRule.offerAll accepts m l).InTurn := by
  induction l generalizing m with
  | nil => exact hm
  | cons x l ih => exact ih ((offered (accepts x.1) x.2 m).inTurn hm)

theorem InTurn.child (hm : m.InTurn) (hc : HasChild m base k start) : k.InTurn := by
  cases hc with
  | step _ hi =>
    cases hm with
    | inOrder hall _ => exact hall k (List.mem_of_getElem? hi)
  | clause _ hi =>
    cases hm with
    | inAnyOrder hall => exact hall k (List.mem_of_getElem? hi)
  | first _ b _ =>
    cases hm with
    | firstOrSecond ha _ _ => exact ha
  | second a _ _ =>
    cases hm with
    | firstOrSecond _ hb _ => exact hb

theorem InTurn.part (hm : m.InTurn) (hp : HasPart m base k start) : k.InTurn := by
  induction hp with
  | whole => exact hm
  | child _ hc ih => exact ih.child hc

/-- A member of several rules is one of them when nothing has been done. -/
theorem getElem?_ofRules {ms : List MarkedRule} {i : Nat} (hi : ms[i]? = some k) :
    (ofRules (rules ms))[i]? = some (.ofRule k.rule) := by
  simp [ofRules_eq_map, rules_eq_map, hi]

/-- What is right below a rule is right below it when nothing has been done. -/
theorem HasChild.ofRule (hc : HasChild m base k start) :
    HasChild (.ofRule m.rule) base (.ofRule k.rule) start := by
  cases hc with
  | @step ms i _ _ hi =>
    rw [← widths_take_of_rules (rules_ofRules (rules ms)) i]
    exact .step base (getElem?_ofRules hi)
  | @clause ms i _ _ hi =>
    rw [← widths_take_of_rules (rules_ofRules (rules ms)) i]
    exact .clause base (getElem?_ofRules hi)
  | first _ b _ => exact .first _ _ base
  | second a _ _ =>
    have hw : (MarkedRule.ofRule a.rule).width = a.width := width_ofRule _
    exact hw ▸ .second _ _ base

/-- The parts of a rule are its parts when nothing has been done. -/
theorem HasPart.ofRule (hp : HasPart m base k start) :
    HasPart (.ofRule m.rule) base (.ofRule k.rule) start := by
  induction hp with
  | whole => exact .whole
  | child _ hc ih => exact ih.child hc.ofRule

/-- What is right below an unmarked rule is unmarked. -/
theorem Unmarked.child (hm : m.Unmarked) (hc : HasChild m base k start) : k.Unmarked := by
  have hmember : ∀ {ms : List MarkedRule} {i : Nat}, ms = ofRules (rules ms) → ms[i]? = some k →
      k.Unmarked := by
    intro ms i hms hi
    have hi' := getElem?_ofRules hi
    rw [← hms, hi] at hi'
    exact Option.some.inj hi'
  cases hc with
  | step _ hi => exact hmember (MarkedRule.inOrder.inj hm) hi
  | clause _ hi => exact hmember (MarkedRule.inAnyOrder.inj hm) hi
  | first _ b _ => exact (MarkedRule.firstOrSecond.inj hm).1
  | second a _ _ => exact (MarkedRule.firstOrSecond.inj hm).2

end MarkedRule

end BoardTrial
