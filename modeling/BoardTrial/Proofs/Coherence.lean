import BoardTrial.Matching.CheckedOffer
import BoardTrial.Proofs.PlanRuns

/-!
# Flags and cursors fit together

Whatever has been offered to a plan, the flag and the cursor of each node fit the flags of the nodes
right below it (`Progress.CoherentAt`): a sequence is at its first node that is not satisfied, a set
is satisfied with all its nodes, alternatives are satisfied with one of theirs. So an offer finds
everything that it looks up (`Plan.coherent_offerEach`).
-/

namespace BoardTrial

open MarkedRule Progress

/-! ### Only one of two alternatives is done -/

namespace MarkedRule

/-- Of alternatives both are done only if they were done from the start. -/
inductive Exclusive : MarkedRule → Prop where
  /-- There are no alternatives. -/
  | doNothing : Exclusive .doNothing
  /-- There are no alternatives. -/
  | leaf (i : Interaction) (time : Option Nat) : Exclusive (.leaf i time)
  /-- It is so in each step. -/
  | inOrder {ms : List MarkedRule} : (∀ m ∈ ms, Exclusive m) → Exclusive (.inOrder ms)
  /-- It is so in each clause. -/
  | inAnyOrder {ms : List MarkedRule} : (∀ m ∈ ms, Exclusive m) → Exclusive (.inAnyOrder ms)
  /-- It is so in each alternative and of both. -/
  | firstOrSecond {a b : MarkedRule} : Exclusive a → Exclusive b →
      (a.isDone = true → b.isDone = true → (ofRule (a.firstOrSecond b).rule).isDone = true) →
      Exclusive (.firstOrSecond a b)

theorem exclusive_ofRule (r : Rule) : (ofRule r).Exclusive := by
  induction r with
  | doNothing => exact .doNothing
  | leaf i => exact .leaf i none
  | inOrder rs ih =>
    rw [ofRule, ofRules_eq_map]
    exact .inOrder (by simpa using ih)
  | inAnyOrder rs ih =>
    rw [ofRule, ofRules_eq_map]
    exact .inAnyOrder (by simpa using ih)
  | firstOrSecond a b iha ihb =>
    refine .firstOrSecond iha ihb ?_
    intro ha _
    rw [rule, rule_ofRule, rule_ofRule, ofRule, isDone, ha, Bool.true_or]

/-- While neither alternative was done, an offer completes at most one of them. -/
theorem Offered.exclusive {accepts : Interaction → Bool} {now : Nat} {m m' : MarkedRule} {o : Offer}
    (h : Offered accepts now m o m') (hm : m.Exclusive) : m'.Exclusive := by
  induction h with
  | ignored m => exact hm
  | leaf _ => exact .leaf _ _
  | step _ _ _ _ ih =>
    cases hm with
    | inOrder hall => exact .inOrder (forall_mem_replace hall (ih (hall _ (by simp))))
  | clause _ _ _ ih =>
    cases hm with
    | inAnyOrder hall => exact .inAnyOrder (forall_mem_replace hall (ih (hall _ (by simp))))
  | first _ hb _ ih =>
    cases hm with
    | firstOrSecond hea heb _ => exact .firstOrSecond (ih hea) heb (by simp [hb])
  | second ha _ hne h _ iha ihb =>
    cases hm with
    | firstOrSecond hea heb _ =>
      refine .firstOrSecond (iha hea) (ihb heb) fun hd => ?_
      exact absurd (h.isDone_iff.mp hd) (by simp [ha, hne])
  | both ha _ hna _ h _ iha ihb =>
    cases hm with
    | firstOrSecond hea heb _ =>
      refine .firstOrSecond (iha hea) (ihb heb) fun hd => ?_
      exact absurd (h.isDone_iff.mp hd) (by simp [ha, hna])

theorem Exclusive.offerAll {σ : Type} (accepts : σ → Interaction → Bool) {m : MarkedRule}
    (hm : m.Exclusive) (l : List (σ × Nat)) : (MarkedRule.offerAll accepts m l).Exclusive := by
  induction l generalizing m with
  | nil => exact hm
  | cons x l ih => exact ih ((offered (accepts x.1) x.2 m).exclusive hm)

end MarkedRule

/-! ### Coherent nodes -/

/-- A list is walked through up to the first member for which a test fails. -/
theorem takeWhile_stops {α : Type} (q : α → Bool) (l : List α) :
    (∀ a ∈ l.take (l.takeWhile q).length, q a = true) ∧
      ∀ a, l[(l.takeWhile q).length]? = some a → q a = false := by
  induction l with
  | nil => simp
  | cons b l ih =>
    by_cases hb : q b = true
    · simpa [hb] using ih
    · simp [hb]

namespace Progress

/-- What `p` says of node `n` fits what it says of the nodes right below it. Of two alternatives one
is satisfied and the other not, unless `fresh` had their node satisfied before anything happened. -/
def CoherentAt (fresh p : Progress) (n : Nat) : Node → Prop
  | .nothing => p.isSatisfied n = false
  | .leaf _ => True
  | .inOrder cs =>
    p.cursorAt n ≤ cs.length ∧ (∀ c ∈ cs.take (p.cursorAt n), p.isSatisfied c = true) ∧
      (∀ c, cs[p.cursorAt n]? = some c → p.isSatisfied c = false) ∧
      (p.isSatisfied n = true ↔ p.cursorAt n = cs.length)
  | .inAnyOrder cs => p.isSatisfied n = true ↔ ∀ c ∈ cs, p.isSatisfied c = true
  | .firstOrSecond a b =>
    (p.isSatisfied n = true ↔ p.isSatisfied a = true ∨ p.isSatisfied b = true) ∧
      (p.isSatisfied n = true → fresh.isSatisfied n = false →
        (p.isSatisfied a = true ↔ p.isSatisfied b = false))

variable {plan : Plan} {p f : Progress} {h k : TimedHistory}

theorem coherentAt_inOrder {base n : Nat} {counts : Bool} {ms : List MarkedRule}
    (hms : p.TellsAll h base counts ms) (hn : p.IsAt n (areDone ms) (behind ms)) :
    CoherentAt f p n (.inOrder (Rule.rootsFrom base (rules ms))) := by
  obtain ⟨hs, hc⟩ := hn
  have hlen : (Rule.rootsFrom base (rules ms)).length = ms.length := by
    rw [Rule.length_rootsFrom, rules_eq_map, List.length_map]
  have hstop := takeWhile_stops p.isSatisfied (Rule.rootsFrom base (rules ms))
  rw [hms.length_takeWhile] at hstop
  rw [CoherentAt, hs, hc, hlen]
  refine ⟨?_, hstop.1, hstop.2, (behind_eq_length_iff ms).symm⟩
  exact (List.takeWhile_prefix _).length_le

theorem coherentAt_inAnyOrder {base n : Nat} {counts : Bool} {ms : List MarkedRule}
    (hms : p.TellsAll h base counts ms) (hn : p.IsAt n (areDone ms) 0) :
    CoherentAt f p n (.inAnyOrder (Rule.rootsFrom base (rules ms))) := by
  rw [CoherentAt, hn.1, ← hms.all_isSatisfied, List.all_eq_true]

/-- Both alternatives are satisfied only if `f` tells that one was done from the start. -/
theorem coherentAt_firstOrSecond {a b : MarkedRule} {n na nb : Nat}
    (ha : p.isSatisfied na = a.isDone) (hb : p.isSatisfied nb = b.isDone)
    (hn : p.isSatisfied n = (a.isDone || b.isDone))
    (hf : f.isSatisfied n = (ofRule (a.firstOrSecond b).rule).isDone)
    (he : (a.firstOrSecond b).Exclusive) : CoherentAt f p n (.firstOrSecond na nb) := by
  cases he with
  | firstOrSecond _ _ hboth =>
    rw [CoherentAt, ha, hb, hn, hf]
    refine ⟨Bool.or_eq_true_iff, ?_⟩
    intro hd hfresh
    rw [hfresh] at hboth
    cases hda : a.isDone <;> cases hdb : b.isDone <;> simp_all

mutual

/-- Every node of a rule is coherent. -/
theorem Tells.coherentAt : ∀ {m : MarkedRule} {base : Nat} {counts counts' : Bool},
    plan.Holds base m.rule → p.Tells h base counts m → f.Tells k base counts' (ofRule m.rule) →
    m.Exclusive → ∀ {n : Nat} {node : Node}, base ≤ n → n < base + m.width →
    plan.node? n = some node → CoherentAt f p n node
  | .doNothing, base, _, _, hh, ht, _, _, n, node, hlo, hhi, hn => by
    obtain rfl : base = n := Nat.le_antisymm hlo (Nat.le_of_lt_succ hhi)
    obtain rfl : Node.nothing = node := Option.some.inj (hh.1.symm.trans hn)
    exact ht.1.1
  | .leaf i time, base, _, _, hh, ht, _, _, n, node, hlo, hhi, hn => by
    obtain rfl : base = n := Nat.le_antisymm hlo (Nat.le_of_lt_succ hhi)
    obtain rfl : Node.leaf i = node := Option.some.inj (hh.1.symm.trans hn)
    trivial
  | .inOrder ms, base, _, _, hh, ht, hf, .inOrder he, n, node, hlo, hhi, hn => by
    rcases Nat.lt_succ_iff_lt_or_eq.mp hhi with hlt | rfl
    · exact TellsAll.coherentAt hh.1 ht.1 hf.1 he hlo hlt hn
    · obtain rfl := Option.some.inj (hh.2.1.symm.trans hn)
      exact coherentAt_inOrder ht.1 ht.2.1
  | .inAnyOrder ms, base, _, _, hh, ht, hf, .inAnyOrder he, n, node, hlo, hhi, hn => by
    rcases Nat.lt_succ_iff_lt_or_eq.mp hhi with hlt | rfl
    · exact TellsAll.coherentAt hh.1 ht.1 hf.1 he hlo hlt hn
    · obtain rfl := Option.some.inj (hh.2.1.symm.trans hn)
      exact coherentAt_inAnyOrder ht.1 ht.2.1
  | .firstOrSecond a b, base, _, _, hh, ht, hf, he, n, node, hlo, hhi, hn => by
    obtain ⟨hha, hhb, hnode, -⟩ := hh
    obtain ⟨hta, htb, hat, -⟩ := ht
    obtain ⟨hfa, hfb, hfat, -⟩ := hf
    rw [width_ofRule] at hfb hfat
    rw [width_ofRule] at hfat
    have hw : (MarkedRule.firstOrSecond a b).width = a.width + b.width + 1 := rfl
    rw [hw] at hhi
    cases he with
    | firstOrSecond hea heb hboth =>
      -- each node belongs to one of the alternatives, or is the last
      rcases Nat.lt_or_ge n (base + a.width) with hlt | hge
      · exact Tells.coherentAt hha hta hfa hea hlo hlt hn
      rcases Nat.lt_or_ge n (base + a.width + b.width) with hlt | hge'
      · exact Tells.coherentAt hhb htb hfb heb hge hlt hn
      obtain rfl : base + a.width + b.width = n := by omega
      obtain rfl := Option.some.inj (hnode.symm.trans hn)
      exact coherentAt_firstOrSecond hta.isSatisfied htb.isSatisfied hat.1 hfat.1
        (.firstOrSecond hea heb hboth)

theorem TellsAll.coherentAt : ∀ {ms : List MarkedRule} {base : Nat} {counts counts' : Bool},
    plan.HoldsAll base (rules ms) → p.TellsAll h base counts ms →
    f.TellsAll k base counts' (ofRules (rules ms)) → (∀ m ∈ ms, m.Exclusive) →
    ∀ {n : Nat} {node : Node}, base ≤ n → n < base + widths ms → plan.node? n = some node →
    CoherentAt f p n node
  | [], base, _, _, _, _, _, _, n, _, hlo, hhi, _ => by
    rw [widths_nil] at hhi
    omega
  | m :: ms, base, _, _, hh, ht, hf, he, n, _, hlo, hhi, hn => by
    obtain ⟨hem, hems⟩ := List.forall_mem_cons.mp he
    have hfs := hf.2
    rw [width_ofRule] at hfs
    rw [widths_cons] at hhi
    rcases Nat.lt_or_ge n (base + m.width) with hlt | hge
    · exact Tells.coherentAt hh.1 ht.1 hf.1 hem hlo hlt hn
    · have hlt : n < base + m.width + widths ms := by omega
      exact TellsAll.coherentAt hh.2 ht.2 hfs hems hge hlt hn

end

end Progress

end BoardTrial
