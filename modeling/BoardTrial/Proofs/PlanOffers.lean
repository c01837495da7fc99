import BoardTrial.Proofs.Tells

/-!
# Offers to numbered nodes

What an offer to a node comes to, kind by kind; what any offer is made of, whatever the plan and the
progress (`Plan.makes_offerAt`); and what the operations of an offer may change: the flags, cursors
and entries of the nodes that the offer goes to, and no other.
-/

namespace BoardTrial

open MarkedRule Progress

namespace Plan

variable {plan : Plan} {accepts : Interaction → Bool} {now n : Nat} {p : Progress}

/-! ### What an offer to a node comes to -/

theorem offerAt_of_isSatisfied (hs : p.isSatisfied n = true) :
    plan.offerAt accepts n p = (.ignored, p) := by
  rw [offerAt, if_pos hs]

theorem offerAt_nothing (hn : plan.node? n = some .nothing) :
    plan.offerAt accepts n p = (.ignored, p) := by
  rw [offerAt, hn]
  split <;> rfl

theorem offerAt_leaf (accepts : Interaction → Bool) {i : Interaction}
    (hn : plan.node? n = some (.leaf i)) (hs : p.isSatisfied n = false) :
    plan.offerAt accepts n p =
      if accepts i then (.completed, (p.satisfy n).record n) else (.ignored, p) := by
  rw [offerAt, hn, if_neg (by simp [hs])]
  rfl

theorem offerAt_inOrder (accepts : Interaction → Bool) {cs : List Nat} {c : Nat}
    (hn : plan.node? n = some (.inOrder cs)) (hs : p.isSatisfied n = false)
    (hc : cs[p.cursorAt n]? = some c) (hlt : c < n) :
    plan.offerAt accepts n p =
      if (plan.offerAt accepts c p).1 = .completed then
        if ((plan.offerAt accepts c p).2.skip n cs).cursorAt n = cs.length then
          (.completed, ((plan.offerAt accepts c p).2.skip n cs).satisfy n)
        else (.advanced, (plan.offerAt accepts c p).2.skip n cs)
      else plan.offerAt accepts c p := by
  rw [offerAt, hn, if_neg (by simp [hs])]
  simp only [offerNode, hc, hlt, dif_pos]
  cases plan.offerAt accepts c p with
  | mk o q => cases o <;> rfl

theorem offerFirst_congr {f g : Nat → Progress → Offer × Progress} {cs : List Nat}
    (h : ∀ c ∈ cs, ∀ p, f c p = g c p) (p : Progress) : offerFirst f cs p = offerFirst g cs p := by
  induction cs generalizing p with
  | nil => rfl
  | cons c cs ih =>
    rw [offerFirst, offerFirst, h c List.mem_cons_self]
    split
    · exact ih (fun d hd => h d (List.mem_cons_of_mem _ hd)) _
    · rfl

theorem offerAt_inAnyOrder (accepts : Interaction → Bool) {cs : List Nat}
    (hn : plan.node? n = some (.inAnyOrder cs)) (hs : p.isSatisfied n = false)
    (hlt : ∀ c ∈ cs, c < n) :
    plan.offerAt accepts n p =
      if (offerFirst (plan.offerAt accepts) cs p).1 = .completed then
        if cs.all (offerFirst (plan.offerAt accepts) cs p).2.isSatisfied then
          (.completed, (offerFirst (plan.offerAt accepts) cs p).2.satisfy n)
        else (.advanced, (offerFirst (plan.offerAt accepts) cs p).2)
      else offerFirst (plan.offerAt accepts) cs p := by
  have hcongr :
      offerFirst (fun c p => if _ : c < n then plan.offerAt accepts c p else (.ignored, p)) cs p =
        offerFirst (plan.offerAt accepts) cs p :=
    offerFirst_congr (fun c hc _ => dif_pos (hlt c hc)) p
  rw [offerAt, hn, if_neg (by simp [hs])]
  simp only [offerNode, hcongr]
  cases offerFirst (plan.offerAt accepts) cs p with
  | mk o q => cases o <;> rfl

theorem offerAt_firstOrSecond (accepts : Interaction → Bool) {a b : Nat}
    (hn : plan.node? n = some (.firstOrSecond a b)) (hs : p.isSatisfied n = false) (ha : a < n)
    (hb : b < n) :
    plan.offerAt accepts n p =
      if (plan.offerAt accepts a p).1 = .completed then
        (.completed, plan.discard b ((plan.offerAt accepts a p).2.satisfy n))
      else if (plan.offerAt accepts b (plan.offerAt accepts a p).2).1 = .completed then
        (.completed,
          plan.discard a ((plan.offerAt accepts b (plan.offerAt accepts a p).2).2.satisfy n))
      else
        ((plan.offerAt accepts a p).1.either
            (plan.offerAt accepts b (plan.offerAt accepts a p).2).1,
          (plan.offerAt accepts b (plan.offerAt accepts a p).2).2) := by
  rw [offerAt, hn, if_neg (by simp [hs])]
  simp only [offerNode, ha, hb, dif_pos]
  cases plan.offerAt accepts a p with
  | mk oa q =>
    cases hq : plan.offerAt accepts b q with
    | mk ob q' => cases oa <;> cases ob <;> simp [hq]

/-! ### What an offer is made of -/

section Makes

variable {q s : Progress}

/-- What an offer does, one thing after another: leaves that it is accepted for are satisfied and
recorded, other nodes are satisfied, satisfied nodes are put behind, and leaves are forgotten. -/
inductive Makes (plan : Plan) (accepts : Interaction → Bool) (p : Progress) : Progress → Prop where
  /-- Nothing is done. -/
  | nothing : Makes plan accepts p p
  /-- A leaf is satisfied. -/
  | leaf {q : Progress} {n : Nat} {i : Interaction} : Makes plan accepts p q →
      plan.node? n = some (.leaf i) → accepts i = true →
      Makes plan accepts p ((q.satisfy n).record n)
  /-- A node with nodes below it is satisfied. -/
  | satisfy {q : Progress} {n : Nat} : Makes plan accepts p q → plan.interaction? n = none →
      Makes plan accepts p (q.satisfy n)
  /-- Nodes are put behind. -/
  | skip {q : Progress} (n : Nat) (cs : List Nat) : Makes plan accepts p q →
      Makes plan accepts p (q.skip n cs)
  /-- Leaves are forgotten. -/
  | discard {q : Progress} (n : Nat) : Makes plan accepts p q →
      Makes plan accepts p (plan.discard n q)

theorem Makes.trans (h : plan.Makes accepts p q) (h' : plan.Makes accepts q s) :
    plan.Makes accepts p s := by
  induction h' with
  | nothing => exact h
  | leaf _ hn hi ih => exact ih.leaf hn hi
  | satisfy _ hn ih => exact ih.satisfy hn
  | skip n cs _ ih => exact ih.skip n cs
  | discard n _ ih => exact ih.discard n

theorem makes_offerFirst {offer : Nat → Progress → Offer × Progress}
    (h : ∀ c p, plan.Makes accepts p (offer c p).2) (cs : List Nat) (p : Progress) :
    plan.Makes accepts p (offerFirst offer cs p).2 := by
  induction cs generalizing p with
  | nil => exact .nothing
  | cons c cs ih =>
    have hc := h c p
    rw [offerFirst]
    split
    · rename_i q hoff
      rw [hoff] at hc
      exact hc.trans (ih q)
    · rename_i q _ hoff
      rwa [hoff] at hc

/-- What is done at a node comes after what is done below it. -/
theorem makes_offerNode {offer : Nat → Progress → Offer × Progress}
    (h : ∀ c p, plan.Makes accepts p (offer c p).2) {node : Node} (hn : plan.node? n = some node)
    (p : Progress) : plan.Makes accepts p (plan.offerNode accepts offer n p node).2 := by
  cases node with
  | nothing => exact .nothing
  | leaf i =>
    rw [offerNode]
    split
    · rename_i hi
      exact Makes.nothing.leaf hn hi
    · exact .nothing
  | inOrder cs =>
    have hnone : plan.interaction? n = none := by rw [interaction?, hn]
    rw [offerNode]
    split
    · exact .nothing
    · rename_i c _
      have hc := h c p
      split
      · rename_i q hoff
        rw [hoff] at hc
        dsimp only
        split
        · exact (hc.skip n cs).satisfy hnone
        · exact hc.skip n cs
      · rename_i q _ hoff
        rwa [hoff] at hc
  | inAnyOrder cs =>
    have hnone : plan.interaction? n = none := by rw [interaction?, hn]
    have hcs := makes_offerFirst h cs p
    rw [offerNode]
    split
    · rename_i q hoff
      rw [hoff] at hcs
      split
      · exact hcs.satisfy hnone
      · exact hcs
    · rename_i q _ hoff
      rwa [hoff] at hcs
  | firstOrSecond a b =>
    have hnone : plan.interaction? n = none := by rw [interaction?, hn]
    have ha := h a p
    rw [offerNode]
    split
    · rename_i q hoff
      rw [hoff] at ha
      exact (ha.satisfy hnone).discard b
    · rename_i oa q _ hoff
      rw [hoff] at ha
      have hb := ha.trans (h b q)
      split
      · rename_i q' hoff'
        rw [hoff'] at hb
        exact (hb.satisfy hnone).discard a
      · rename_i q' _ hoff'
        rwa [hoff'] at hb

/-- **An offer does nothing else**, whatever the plan and the progress. -/
theorem makes_offerAt (plan : Plan) (accepts : Interaction → Bool) (n : Nat) (p : Progress) :
    plan.Makes accepts p (plan.offerAt accepts n p).2 := by
  induction n using Nat.strongRecOn generalizing p with
  | ind n ih =>
    rw [offerAt]
    split
    · exact .nothing
    split
    · exact .nothing
    rename_i node hn
    refine makes_offerNode (fun c q => ?_) hn p
    by_cases hc : c < n
    · rw [dif_pos hc]
      exact ih c hc q
    · rw [dif_neg hc]
      exact .nothing

end Makes

/-! ### What an offer may change -/

/-- A history is the entries of a timed one, and those are in the order of their times, at one time
in the order of their nodes. -/
structure Timed (p : Progress) (h : TimedHistory) : Prop where
  /-- The entries are those of the history. -/
  history : h.map (·.2) = p.history
  /-- They are in order. -/
  sorted : h.Pairwise fun x y => x.1 < y.1 ∨ x.1 = y.1 ∧ x.2 < y.2

/-- There is room for nodes below `n`. -/
structure HasRoom (p : Progress) (n : Nat) : Prop where
  /-- There are flags. -/
  satisfied : n ≤ p.satisfied.size
  /-- There are cursors. -/
  cursor : n ≤ p.cursor.size

/-- From `p` and `h` to `p'` and `h'` only the nodes from `lo` up to `hi` have changed, and new
entries have the time `now`. -/
structure Within (lo hi now : Nat) (p : Progress) (h : TimedHistory) (p' : Progress)
    (h' : TimedHistory) : Prop where
  /-- The new history is timed. -/
  timed : Timed p' h'
  /-- There is as much room as before. -/
  room (n : Nat) : HasRoom p n → HasRoom p' n
  /-- Other nodes are the same. -/
  same (n : Nat) : n < lo ∨ hi ≤ n → SameAt true p h p' h' n
  /-- New entries are of now. -/
  recent (x : Nat × Nat) : x ∈ h' → x ∈ h ∨ x.1 = now ∧ x.2 < hi

variable {p' p'' : Progress} {h h' h'' : TimedHistory} {lo hi : Nat}

theorem Within.refl (ht : Timed p h) : Within lo hi now p h p h :=
  ⟨ht, fun _ hr => hr, fun n _ => .refl p h n, fun _ hx => .inl hx⟩

theorem Within.mono {lo' hi' : Nat} (hw : Within lo hi now p h p' h') (hlo : lo' ≤ lo)
    (hhi : hi ≤ hi') : Within lo' hi' now p h p' h' := by
  refine ⟨hw.timed, hw.room, ?_, ?_⟩
  · intro n hn
    exact hw.same n (by omega)
  · intro x hx
    exact (hw.recent x hx).imp_right fun hx => ⟨hx.1, by omega⟩

theorem Within.trans (h₁ : Within lo hi now p h p' h') (h₂ : Within lo hi now p' h' p'' h'') :
    Within lo hi now p h p'' h'' := by
  refine ⟨h₂.timed, ?_, ?_, ?_⟩
  · intro n hr
    exact h₂.room n (h₁.room n hr)
  · intro n hn
    exact (h₁.same n hn).trans (h₂.same n hn)
  · intro x hx
    rcases h₂.recent x hx with hx | hx
    · exact h₁.recent x hx
    · exact .inr hx

/-- Entries that were earlier than one at node `lo` are earlier than one at node `hi`. -/
theorem Within.past (hw : Within lo hi now p h p' h') (hle : lo ≤ hi)
    (hpast : ∀ x ∈ h, x.1 < now ∨ x.1 = now ∧ x.2 < lo) :
    ∀ x ∈ h', x.1 < now ∨ x.1 = now ∧ x.2 < hi := by
  intro x hx
  rcases hw.recent x hx with hx | hx
  · exact (hpast x hx).imp_right fun hx => ⟨hx.1, Nat.lt_of_lt_of_le hx.2 hle⟩
  · exact .inr hx

/-- Satisfying node `n` changes its flag. -/
theorem within_satisfy (now : Nat) (ht : Timed p h) (n : Nat) :
    Within n (n + 1) now p h (p.satisfy n) h := by
  refine ⟨⟨ht.history, ht.sorted⟩, ?_, ?_, fun x hx => .inl hx⟩
  · intro k hr
    exact ⟨by simpa [satisfy] using hr.1, hr.2⟩
  · intro k hk
    refine ⟨?_, rfl, by simp⟩
    rw [isSatisfied_satisfy]
    have hne : ¬ (k = n ∧ n < p.satisfied.size) := by omega
    simp [hne]

/-- Putting nodes behind changes a cursor. -/
theorem within_skip (now : Nat) (ht : Timed p h) (n : Nat) (cs : List Nat) :
    Within n (n + 1) now p h (p.skip n cs) h := by
  refine ⟨⟨ht.history, ht.sorted⟩, ?_, ?_, fun x hx => .inl hx⟩
  · intro k hr
    exact ⟨hr.1, by simpa [skip] using hr.2⟩
  · intro k hk
    exact ⟨rfl, cursorAt_skip_of_ne p cs (by omega), by simp⟩

/-- Recording a leaf changes the entries of its node. -/
theorem within_record (now : Nat) (ht : Timed p h) (n : Nat)
    (hnow : ∀ x ∈ h, x.1 < now ∨ x.1 = now ∧ x.2 < n) :
    Within n (n + 1) now p h (p.record n) (h ++ [(now, n)]) := by
  refine ⟨⟨by simp [ht.history], ?_⟩, fun k hr => ⟨hr.1, hr.2⟩, ?_, ?_⟩
  · refine List.pairwise_append.mpr ⟨ht.sorted, List.pairwise_singleton _ _, ?_⟩
    intro x hx y hy
    obtain rfl := List.mem_singleton.mp hy
    exact hnow x hx
  · intro k hk
    have hne : k ≠ n := by omega
    exact ⟨rfl, rfl, fun t => by simp [hne]⟩
  · intro x hx
    rcases List.mem_append.mp hx with hx | hx
    · exact .inl hx
    · obtain rfl := List.mem_singleton.mp hx
      exact .inr ⟨rfl, Nat.lt_succ_self n⟩

/-- Discarding what is below node `c` changes the entries of these nodes. -/
theorem within_discard (now : Nat) (ht : Timed p h) {c start : Nat} (hc : plan.startOf c = start) :
    Within start (c + 1) now p h (plan.discard c p) (h.filter fun x => !plan.isWithin c x.2) := by
  refine ⟨⟨?_, ht.sorted.filter _⟩, fun k hr => ⟨hr.1, hr.2⟩, ?_,
    fun x hx => .inl (List.mem_of_mem_filter hx)⟩
  · rw [discard, ← ht.history, List.filter_map]
    rfl
  · intro k hk
    refine ⟨rfl, rfl, ?_⟩
    intro t
    have hout : plan.isWithin c k = false := by
      simp only [isWithin, hc, Bool.and_eq_false_iff, decide_eq_false_iff_not]
      omega
    simp [hout]

/-- The nodes of a discarded rule have no entries. -/
theorem sameAt_discard {c start : Nat} (hc : plan.startOf c = start) {k : Nat} (hlo : start ≤ k)
    (hhi : k ≤ c) :
    SameAt false p h (plan.discard c p) (h.filter fun x => !plan.isWithin c x.2) k := by
  refine ⟨rfl, rfl, ?_⟩
  intro t
  simp [isWithin, hc, hlo, hhi]

end Plan

end BoardTrial
