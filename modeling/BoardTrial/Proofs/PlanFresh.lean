import BoardTrial.Proofs.Chronology
import BoardTrial.Proofs.PlanFollows

/-!
# Before anything has happened

Settling the nodes of a plan one after another finds what is done before anything has happened:
sequences and sets without members, and what they make up. The progress then tells the rule without
marks (`Plan.ready_fresh`).
-/

namespace BoardTrial

open MarkedRule Progress

namespace Plan

variable {plan : Plan} {p p' : Progress} {base k l : Nat}

/-- Settles `k` nodes one after another, from `base` on. -/
def settleFrom (plan : Plan) (base k : Nat) (p : Progress) : Progress :=
  (List.range' base k).foldl plan.settle p

theorem settleFrom_add (base k l : Nat) (p : Progress) :
    plan.settleFrom base (k + l) p = plan.settleFrom (base + k) l (plan.settleFrom base k p) := by
  rw [settleFrom, ← List.range'_append_1, List.foldl_append, settleFrom, settleFrom]

theorem settleFrom_one (base : Nat) (p : Progress) :
    plan.settleFrom base 1 p = plan.settle p base := rfl

theorem fresh_eq_settleFrom : plan.fresh = plan.settleFrom 0 plan.size (.zero plan.size) := by
  rw [fresh, List.range_eq_range', settleFrom]

/-- Nothing has happened to the nodes from `lo` up to `hi`, and they have not been settled. -/
structure Unsettled (p : Progress) (lo hi : Nat) : Prop where
  /-- The history is empty. -/
  timed : Timed p []
  /-- There is room for the nodes. -/
  room : HasRoom p hi
  /-- No node is satisfied. -/
  zero (n : Nat) : lo ≤ n → n < hi → p.IsAt n false 0

theorem unsettled_zero (n : Nat) : Unsettled (.zero n) 0 n := by
  refine ⟨⟨rfl, .nil⟩, ⟨?_, ?_⟩, fun k _ hk => ⟨isSatisfied_zero n k, ?_⟩⟩
  · simp [Progress.zero]
  · simp [Progress.zero]
  · simp [Progress.zero, cursorAt, Array.getD_eq_getD_getElem?, hk]

/-- Nodes at the beginning may be settled before the others. -/
theorem Unsettled.rest {lo mid hi now : Nat} (hu : Unsettled p lo hi) (hlo : lo ≤ mid)
    (hw : Within lo mid now p [] p' []) : Unsettled p' mid hi :=
  ⟨hw.timed, hw.room _ hu.room,
    fun n hn hn' => (hw.same n (.inr hn)).isAt (hu.zero n (Nat.le_trans hlo hn) hn')⟩

theorem Unsettled.mono {lo hi hi' : Nat} (hu : Unsettled p lo hi') (hhi : hi ≤ hi') :
    Unsettled p lo hi :=
  ⟨hu.timed, hu.room.mono hhi, fun n hn hn' => hu.zero n hn (Nat.lt_of_lt_of_le hn' hhi)⟩

/-- Settling the nodes of a rule that has no marks makes them tell so. -/
def Settles (plan : Plan) (r : Rule) : Prop :=
  ∀ {base : Nat} {p : Progress}, plan.Holds base r → Unsettled p base (base + (r.nodesBelow + 1)) →
    Within base (base + (r.nodesBelow + 1)) 0 p [] (plan.settleFrom base (r.nodesBelow + 1) p) [] ∧
      (plan.settleFrom base (r.nodesBelow + 1) p).Tells [] base true (.ofRule r)

/-- What settles each of several rules settles all of them. -/
theorem settles_all {rs : List Rule} (ih : ∀ r ∈ rs, plan.Settles r) (hh : plan.HoldsAll base rs)
    (hu : Unsettled p base (base + Rule.nodesOfAll rs)) :
    Within base (base + Rule.nodesOfAll rs) 0 p []
        (plan.settleFrom base (Rule.nodesOfAll rs) p) [] ∧
      (plan.settleFrom base (Rule.nodesOfAll rs) p).TellsAll [] base true (ofRules rs) := by
  induction rs generalizing base p with
  | nil => exact ⟨.refl hu.timed, trivial⟩
  | cons r rs ihrs =>
    rw [Rule.nodesOfAll, ← Nat.add_assoc] at hu
    rw [Rule.nodesOfAll, settleFrom_add, ← Nat.add_assoc]
    obtain ⟨hw, ht⟩ := ih r List.mem_cons_self hh.1 (hu.mono (Nat.le_add_right _ _))
    obtain ⟨hws, hts⟩ := ihrs (fun s hs => ih s (List.mem_cons_of_mem _ hs)) hh.2
      (hu.rest (Nat.le_add_right _ _) hw)
    refine ⟨(hw.mono (Nat.le_refl _) (Nat.le_add_right _ _)).trans
      (hws.mono (Nat.le_add_right _ _) (Nat.le_refl _)), ?_, ?_⟩
    · refine ht.congr fun n _ hn => hws.same n (.inl ?_)
      rwa [width_ofRule] at hn
    · rw [width_ofRule]
      exact hts

/-- After the members of a sequence or set their node is to be settled. -/
theorem open_ofRules {rs : List Rule} (hu : Unsettled p base (base + (Rule.nodesOfAll rs + 1)))
    (hw : Within base (base + Rule.nodesOfAll rs) 0 p [] p' [])
    (ht : p'.TellsAll [] base true (ofRules rs)) :
    Open p' [] base (ofRules rs) (base + Rule.nodesOfAll rs) ∧
      p'.cursorAt (base + Rule.nodesOfAll rs) = 0 := by
  have hat := (hw.same _ (.inr (Nat.le_refl _))).isAt
    (hu.zero (base + Rule.nodesOfAll rs) (Nat.le_add_right _ _) (Nat.lt_succ_self _))
  refine ⟨⟨?_, hw.timed, hw.room _ hu.room, ht, hat.1, fun t => by simp⟩, hat.2⟩
  rw [widths_ofRules]

/-- Settling a sequence does what settles it after an offer. -/
theorem settle_inOrder {cs : List Nat} {n : Nat} (hn : plan.node? n = some (.inOrder cs)) :
    plan.settle p n = (if (p.skip n cs).cursorAt n = cs.length then
      (Offer.completed, (p.skip n cs).satisfy n) else (.advanced, p.skip n cs)).2 := by
  simp only [settle, hn]
  split <;> rfl

/-- Settling a set does what settles it after an offer. -/
theorem settle_inAnyOrder {cs : List Nat} {n : Nat} (hn : plan.node? n = some (.inAnyOrder cs)) :
    plan.settle p n = (if cs.all p.isSatisfied then
      (Offer.completed, p.satisfy n) else (.advanced, p)).2 := by
  simp only [settle, hn]
  split <;> rfl

/-- Without a history nothing changes when entries are not kept. -/
theorem Within.same_of_nil {lo hi now n : Nat} (hw : Within lo hi now p [] p' [])
    (hn : n < lo ∨ hi ≤ n) (keep : Bool) : SameAt keep p [] p' [] n :=
  ⟨(hw.same n hn).satisfied, (hw.same n hn).cursor, by simp⟩

/-- Settling two alternatives satisfies their node if one of them is done. -/
theorem settle_firstOrSecond {a b : Rule} {mid n : Nat}
    (ho : OpenBoth p [] base mid n (.ofRule a) (.ofRule b))
    (hn : plan.node? n = some (.firstOrSecond (base + a.nodesBelow) (mid + b.nodesBelow))) :
    Within n (n + 1) 0 p [] (plan.settle p n) [] ∧
      (plan.settle p n).Tells [] base true (.firstOrSecond (.ofRule a) (.ofRule b)) := by
  have ha := ho.first.isSatisfied
  have hb := ho.second.isSatisfied
  rw [rule_ofRule] at ha hb
  have hw : Within n (n + 1) 0 p [] (plan.settle p n) [] := by
    simp only [settle, hn]
    split
    · exact within_satisfy 0 ho.timed n
    · exact .refl ho.timed
  have hat : (plan.settle p n).IsAt n
      ((MarkedRule.ofRule a).isDone || (MarkedRule.ofRule b).isDone) 0 := by
    simp only [settle, hn, ha, hb]
    split
    · rename_i hd
      rw [hd]
      exact ⟨isSatisfied_satisfy_self ho.room, ho.unsatisfied.2⟩
    · rename_i hd
      rw [Bool.eq_false_iff.mpr hd]
      exact ho.unsatisfied
  have hle : mid ≤ n := ho.place ▸ Nat.le_add_right _ _
  refine ⟨hw, ?_⟩
  rw [Tells, ho.place_second, ho.place]
  refine ⟨?_, ?_, hat, by simp⟩
  · rw [Bool.and_comm]
    refine ho.first.congr fun k _ hk => hw.same_of_nil (.inl ?_) _
    rw [ho.place_second] at hk
    omega
  · rw [Bool.and_comm]
    refine ho.second.congr fun k _ hk => hw.same_of_nil (.inl ?_) _
    rwa [ho.place] at hk

/-! ### Rule by rule -/

/-- A sequence is settled after its steps. -/
theorem settles_inOrder {rs : List Rule} (ih : ∀ r ∈ rs, plan.Settles r) :
    plan.Settles (.inOrder rs) := by
  intro base p hh hu
  obtain ⟨hw, ht⟩ := settles_all ih hh.1 (hu.mono (Nat.le_succ _))
  obtain ⟨ho, hc⟩ := open_ofRules hu hw ht
  obtain ⟨q, hq, hwq, htq⟩ := Open.settle_inOrder 0 (show Open _ _ _ ([] ++ ofRules rs) _ from ho)
    rfl hc
  rw [List.nil_append, rules_ofRules] at hq
  rw [Rule.nodesBelow, settleFrom_add, settleFrom_one, settle_inOrder hh.2.1, hq]
  exact ⟨(hw.mono (Nat.le_refl _) (Nat.le_succ _)).trans
    (hwq.mono (Nat.le_add_right _ _) (Nat.le_refl _)), htq⟩

/-- A set is settled after its clauses. -/
theorem settles_inAnyOrder {rs : List Rule} (ih : ∀ r ∈ rs, plan.Settles r) :
    plan.Settles (.inAnyOrder rs) := by
  intro base p hh hu
  obtain ⟨hw, ht⟩ := settles_all ih hh.1 (hu.mono (Nat.le_succ _))
  obtain ⟨ho, hc⟩ := open_ofRules hu hw ht
  obtain ⟨q, hq, hwq, htq⟩ := ho.settle_inAnyOrder 0 hc
  rw [rules_ofRules] at hq
  rw [Rule.nodesBelow, settleFrom_add, settleFrom_one, settle_inAnyOrder hh.2.1, hq]
  exact ⟨(hw.mono (Nat.le_refl _) (Nat.le_succ _)).trans
    (hwq.mono (Nat.le_add_right _ _) (Nat.le_refl _)), htq⟩

/-- The node of two alternatives is settled after both. -/
theorem settles_firstOrSecond {a b : Rule} (iha : plan.Settles a) (ihb : plan.Settles b) :
    plan.Settles (.firstOrSecond a b) := by
  intro base p hh hu
  obtain ⟨hholda, hholdb, hnode, -⟩ := hh
  rw [Rule.nodesBelow] at hu ⊢
  rw [settleFrom_add, settleFrom_add, settleFrom_one]
  simp only [← Nat.add_assoc base] at hu ⊢
  obtain ⟨hwa, hta⟩ := iha hholda (hu.mono (by omega))
  have hu' := hu.rest (Nat.le_add_right _ _) hwa
  obtain ⟨hwb, htb⟩ := ihb hholdb (hu'.mono (Nat.le_succ _))
  have hwab := (hwa.mono (Nat.le_refl _) (Nat.le_add_right _ _)).trans
    (hwb.mono (Nat.le_add_right _ _) (Nat.le_refl _))
  have hat := hu.zero (base + (a.nodesBelow + 1) + (b.nodesBelow + 1)) (by omega)
    (Nat.lt_succ_self _)
  have ho : OpenBoth _ [] base _ _ (.ofRule a) (.ofRule b) :=
    ⟨congrArg _ (width_ofRule a), congrArg _ (width_ofRule b), hwb.timed, hwab.room _ hu.room,
      hta.congr fun n _ hn => hwb.same n (.inl (width_ofRule a ▸ hn)), htb,
      (hwab.same _ (.inr (Nat.le_refl _))).isAt hat, by simp⟩
  obtain ⟨hwn, htn⟩ := settle_firstOrSecond ho hnode
  exact ⟨(hwab.mono (Nat.le_refl _) (Nat.le_succ _)).trans
    (hwn.mono (by omega) (Nat.le_refl _)), htn⟩

/-- **Settling all nodes of a rule makes them tell that nothing is marked.** -/
theorem settles (r : Rule) : plan.Settles r := by
  induction r with
  | doNothing =>
    intro base p hh hu
    have hp : plan.settleFrom base 1 p = p := by rw [settleFrom_one, settle, hh.1]
    rw [Rule.nodesBelow, Nat.zero_add, hp]
    exact ⟨.refl hu.timed, hu.zero base (Nat.le_refl _) (Nat.lt_succ_self _), by simp⟩
  | leaf i =>
    intro base p hh hu
    have hp : plan.settleFrom base 1 p = p := by rw [settleFrom_one, settle, hh.1]
    rw [Rule.nodesBelow, Nat.zero_add, hp]
    exact ⟨.refl hu.timed, hu.zero base (Nat.le_refl _) (Nat.lt_succ_self _), by simp⟩
  | inOrder rs ih => exact settles_inOrder ih
  | inAnyOrder rs ih => exact settles_inAnyOrder ih
  | firstOrSecond a b iha ihb => exact settles_firstOrSecond iha ihb

/-- **A plan starts with a progress that tells that nothing is marked.** -/
theorem ready_fresh (r : Rule) :
    Ready (ofRule r) 0 0 (ofRule r).fresh [] (MarkedRule.ofRule r) := by
  have hh := holds_ofRule r
  have hu : Unsettled (.zero (r.nodesBelow + 1)) 0 (0 + (r.nodesBelow + 1)) := by
    rw [Nat.zero_add]
    exact unsettled_zero _
  obtain ⟨hw, ht⟩ := settles r hh hu
  have hroom := hw.room _ hu.room
  rw [← size_ofRule, ← fresh_eq_settleFrom] at hw ht hroom
  refine ⟨?_, hw.timed, ?_, ht, by simp⟩
  · rwa [rule_ofRule]
  · rwa [width_ofRule, ← size_ofRule]

end Plan

end BoardTrial
