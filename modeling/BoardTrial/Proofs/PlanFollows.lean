import BoardTrial.Proofs.PlanOffers

/-!
# A plan follows the rule

An offer to the nodes of a plan does to a progress what the offer does to the marked rule that the
progress tells (`Plan.follows`), and touches no other node. The proof is by cases on the rule: a
sequence and a set pass the offer on to one part, alternatives to both.
-/

namespace BoardTrial

open MarkedRule Progress

namespace Plan

variable {plan : Plan} {accepts : Interaction → Bool} {now base : Nat} {p p' : Progress}
  {h h' : TimedHistory}

/-- The nodes from `base` on hold a rule, `p` and `h` tell how far it is, and all entries are
earlier than one made now. -/
structure Ready (plan : Plan) (now base : Nat) (p : Progress) (h : TimedHistory)
    (m : MarkedRule) : Prop where
  /-- The plan holds the rule. -/
  holds : plan.Holds base m.rule
  /-- The history is timed. -/
  timed : Timed p h
  /-- There is room for the nodes of the rule. -/
  room : HasRoom p (base + m.width)
  /-- The progress tells how far the rule is. -/
  tells : p.Tells h base true m
  /-- The entries are earlier. -/
  past (x : Nat × Nat) : x ∈ h → x.1 < now ∨ x.1 = now ∧ x.2 < base

/-- The same of several rules. -/
structure ReadyAll (plan : Plan) (now base : Nat) (p : Progress) (h : TimedHistory)
    (ms : List MarkedRule) : Prop where
  /-- The plan holds the rules. -/
  holds : plan.HoldsAll base (rules ms)
  /-- The history is timed. -/
  timed : Timed p h
  /-- There is room for the nodes of the rules. -/
  room : HasRoom p (base + widths ms)
  /-- The progress tells how far the rules are. -/
  tells : p.TellsAll h base true ms
  /-- The entries are earlier. -/
  past (x : Nat × Nat) : x ∈ h → x.1 < now ∨ x.1 = now ∧ x.2 < base

theorem HasRoom.mono {n k : Nat} (h : HasRoom p n) (hk : k ≤ n) : HasRoom p k :=
  ⟨Nat.le_trans hk h.1, Nat.le_trans hk h.2⟩

theorem ReadyAll.member {pre post : List MarkedRule} {m : MarkedRule}
    (hr : ReadyAll plan now base p h (pre ++ m :: post)) :
    Ready plan now (base + widths pre) p h m := by
  have hh := hr.holds
  rw [rules_append, holdsAll_append] at hh
  have ht := tellsAll_append.mp hr.tells
  refine ⟨hh.2.1, hr.timed, hr.room.mono ?_, ht.2.1, fun x hx => (hr.past x hx).imp_right ?_⟩
  · rw [widths_append, widths_cons]
    omega
  · exact fun hx => ⟨hx.1, by omega⟩

/-- The first of several rules, and the others. -/
theorem ReadyAll.head {m : MarkedRule} {ms : List MarkedRule}
    (hr : ReadyAll plan now base p h (m :: ms)) : Ready plan now base p h m :=
  ReadyAll.member (show ReadyAll plan now base p h ([] ++ m :: ms) from hr)

theorem ReadyAll.tail {m : MarkedRule} {ms : List MarkedRule}
    (hr : ReadyAll plan now base p h (m :: ms)) : ReadyAll plan now (base + m.width) p h ms := by
  refine ⟨hr.holds.2, hr.timed, ?_, hr.tells.2, ?_⟩
  · rw [Nat.add_assoc]
    exact hr.room
  · intro x hx
    exact (hr.past x hx).imp_right fun hx => ⟨hx.1, by omega⟩

/-- The steps of a sequence. -/
theorem Ready.steps {ms : List MarkedRule} (hr : Ready plan now base p h (.inOrder ms)) :
    ReadyAll plan now base p h ms :=
  ⟨hr.holds.1, hr.timed, hr.room.mono (Nat.le_succ _), hr.tells.1, hr.past⟩

/-- The clauses of a set. -/
theorem Ready.clauses {ms : List MarkedRule} (hr : Ready plan now base p h (.inAnyOrder ms)) :
    ReadyAll plan now base p h ms :=
  ⟨hr.holds.1, hr.timed, hr.room.mono (Nat.le_succ _), hr.tells.1, hr.past⟩

/-- What an offer to the nodes of `m` has to come to. -/
def FollowsFrom (plan : Plan) (accepts : Interaction → Bool) (now base : Nat) (p : Progress)
    (h : TimedHistory) (m : MarkedRule) : Prop :=
  ∃ p' h', plan.offerAt accepts (base + m.rule.nodesBelow) p = ((m.offer accepts now).1, p') ∧
    ((m.offer accepts now).1 = .ignored → p' = p) ∧ Within base (base + m.width) now p h p' h' ∧
    p'.Tells h' base true (m.offer accepts now).2

/-- Offers to nodes that hold `m` do what offers to `m` do. -/
def Follows (plan : Plan) (accepts : Interaction → Bool) (now : Nat) (m : MarkedRule) : Prop :=
  ∀ {base : Nat} {p : Progress} {h : TimedHistory}, Ready plan now base p h m →
    FollowsFrom plan accepts now base p h m

/-- An offer that is ignored on both sides. -/
theorem followsFrom_of_ignored {m : MarkedRule} (hr : Ready plan now base p h m)
    (hm : m.offer accepts now = (.ignored, m))
    (hp : plan.offerAt accepts (base + m.rule.nodesBelow) p = (.ignored, p)) :
    FollowsFrom plan accepts now base p h m := by
  refine ⟨p, h, ?_, fun _ => rfl, .refl hr.timed, ?_⟩
  · rw [hm, hp]
  · rw [hm]
    exact hr.tells

/-- A rule that is done ignores offers. -/
theorem followsFrom_of_isDone {m : MarkedRule} (hr : Ready plan now base p h m)
    (hd : m.isDone = true) : FollowsFrom plan accepts now base p h m :=
  followsFrom_of_ignored hr (offer_of_isDone accepts now hd)
    (offerAt_of_isSatisfied (hr.tells.isSatisfied.trans hd))

theorem follows_leaf (i : Interaction) (time : Option Nat) :
    Follows plan accepts now (.leaf i time) := by
  intro base p h hr
  cases time with
  | some t => exact followsFrom_of_isDone hr rfl
  | none =>
    have hs : p.isSatisfied base = false := hr.tells.1.1
    have hp := offerAt_leaf accepts hr.holds.1 hs
    by_cases hi : accepts i = true
    · have hm : (MarkedRule.leaf i none).offer accepts now = (.completed, .leaf i (some now)) := by
        simp [MarkedRule.offer, hi]
      have hsat := within_satisfy now hr.timed base
      have hrec := within_record now hsat.timed base hr.past
      refine ⟨_, _, ?_, ?_, hsat.trans hrec, ?_⟩
      · rw [hm]
        exact hp.trans (if_pos hi)
      · rw [hm]
        simp
      · rw [hm]
        refine ⟨⟨?_, hr.tells.1.2⟩, ?_⟩
        · have hroom : base < p.satisfied.size := hr.room.1
          rw [isSatisfied_record, isSatisfied_satisfy]
          simp [hroom]
        · intro t
          have hold : (t, base) ∉ h := fun ht => by simpa using (hr.tells.2 t).mp ht
          simp [hold, eq_comm]
    · have hm : (MarkedRule.leaf i none).offer accepts now = (.ignored, .leaf i none) := by
        simp [MarkedRule.offer, hi]
      exact followsFrom_of_ignored hr hm (hp.trans (if_neg hi))

/-! ### One part of several takes the offer -/

theorem width_offer (m : MarkedRule) : (m.offer accepts now).2.width = m.width := by
  rw [width, rule_offer, width]

theorem rules_replace (pre post : List MarkedRule) (m : MarkedRule) :
    rules (pre ++ (m.offer accepts now).2 :: post) = rules (pre ++ m :: post) := by
  simp only [rules_append, rules, rule_offer]

/-- When the nodes of one rule have changed, the nodes of the others tell what they told. -/
theorem tellsAll_replace {pre post : List MarkedRule} {m m' : MarkedRule}
    (ht : p.TellsAll h base true (pre ++ m :: post)) (hm : m'.width = m.width)
    (hw : Within (base + widths pre) (base + widths pre + m.width) now p h p' h')
    (ht' : p'.Tells h' (base + widths pre) true m') :
    p'.TellsAll h' base true (pre ++ m' :: post) := by
  obtain ⟨hpre, -, hpost⟩ := tellsAll_append.mp ht
  refine tellsAll_append.mpr ⟨hpre.congr fun n _ hn => hw.same n (.inl hn), ht', ?_⟩
  rw [hm]
  exact hpost.congr fun n hn _ => hw.same n (.inr hn)

theorem length_rootsFrom_rules (base : Nat) (ms : List MarkedRule) :
    (Rule.rootsFrom base (rules ms)).length = ms.length := by
  rw [Rule.length_rootsFrom, rules_eq_map, List.length_map]

/-- The roots of several rules, at the place of one of them. -/
theorem getElem?_rootsFrom (base : Nat) (pre post : List MarkedRule) (m : MarkedRule) :
    (Rule.rootsFrom base (rules (pre ++ m :: post)))[pre.length]? =
      some (base + widths pre + m.rule.nodesBelow) := by
  rw [rules_append, Rule.rootsFrom_append, ← length_rootsFrom_rules base pre,
    List.getElem?_append_right (Nat.le_refl _), Nat.sub_self]
  rfl

/-! ### Settling the node of several rules -/

/-- The node behind those of `ms`, with room, without entries, and with a flag to be set. -/
structure Open (p : Progress) (h : TimedHistory) (base : Nat) (ms : List MarkedRule) (n : Nat) :
    Prop where
  /-- The nodes before it are those of `ms`. -/
  place : base + widths ms = n
  /-- The history is timed. -/
  timed : Timed p h
  /-- There is room for it. -/
  room : HasRoom p (n + 1)
  /-- The nodes before it tell how far `ms` are. -/
  tells : p.TellsAll h base true ms
  /-- It is not satisfied. -/
  unsatisfied : p.isSatisfied n = false
  /-- It has no entries. -/
  empty (t : Nat) : (t, n) ∉ h

/-- The satisfied steps are put behind. -/
theorem Open.cursorAt_skip {pre ms : List MarkedRule} {n : Nat} (ho : Open p h base (pre ++ ms) n)
    (hpre : areDone pre = true) (hc : p.cursorAt n = pre.length) :
    (p.skip n (Rule.rootsFrom base (rules (pre ++ ms)))).cursorAt n = behind (pre ++ ms) := by
  have hms := (tellsAll_append.mp ho.tells).2.length_takeWhile
  rw [widths] at hms
  rw [cursorAt_skip_self p _ ho.room.cursor, hc, rules_append, Rule.rootsFrom_append,
    ← length_rootsFrom_rules base pre, List.drop_left, hms, length_rootsFrom_rules,
    behind_append ms hpre]

/-- What is done to the node itself leaves what the nodes before it tell. -/
theorem Open.of_within {ms : List MarkedRule} {n : Nat} (ho : Open p h base ms n)
    (hw : Within n (n + 1) now p h p' h) (hs : p'.isSatisfied n = false) : Open p' h base ms n := by
  refine ⟨ho.place, hw.timed, hw.room _ ho.room, ?_, hs, ho.empty⟩
  exact ho.tells.congr fun k _ hk => hw.same k (.inl (by rw [ho.place] at hk; exact hk))

theorem isSatisfied_satisfy_self {n : Nat} (hr : HasRoom p (n + 1)) :
    (p.satisfy n).isSatisfied n = true := by
  have hlt : n < p.satisfied.size := hr.satisfied
  rw [isSatisfied_satisfy]
  simp [hlt]

/-- Satisfying the node when all of `ms` are done. -/
theorem Open.tells_satisfy {ms : List MarkedRule} {n : Nat} (ho : Open p h base ms n) :
    (p.satisfy n).TellsAll h base true ms ∧ (p.satisfy n).IsAt n true (p.cursorAt n) := by
  have hw := within_satisfy 0 ho.timed n
  refine ⟨ho.tells.congr fun k _ hk => hw.same k (.inl (by rw [ho.place] at hk; exact hk)), ?_, rfl⟩
  exact isSatisfied_satisfy_self ho.room

theorem Open.tells_inOrder {ms : List MarkedRule} {n : Nat} (ho : Open p h base ms n)
    (hd : areDone ms = false) (hc : p.cursorAt n = behind ms) :
    p.Tells h base true (.inOrder ms) := by
  refine ⟨ho.tells, ?_, ?_⟩ <;> rw [ho.place]
  · rw [hd]
    exact ⟨ho.unsatisfied, hc⟩
  · exact ho.empty

theorem Open.tells_inAnyOrder {ms : List MarkedRule} {n : Nat} (ho : Open p h base ms n)
    (hd : areDone ms = false) (hc : p.cursorAt n = 0) : p.Tells h base true (.inAnyOrder ms) := by
  refine ⟨ho.tells, ?_, ?_⟩ <;> rw [ho.place]
  · rw [hd]
    exact ⟨ho.unsatisfied, hc⟩
  · exact ho.empty

/-- A sequence is settled: the steps that are done are put behind, and if that is all of them, the
sequence is satisfied. -/
theorem Open.settle_inOrder {pre ms : List MarkedRule} {n : Nat} (now : Nat)
    (ho : Open p h base (pre ++ ms) n) (hpre : areDone pre = true)
    (hc : p.cursorAt n = pre.length) :
    ∃ q, (if (p.skip n (Rule.rootsFrom base (rules (pre ++ ms)))).cursorAt n =
        (Rule.rootsFrom base (rules (pre ++ ms))).length then
          (Offer.completed, (p.skip n (Rule.rootsFrom base (rules (pre ++ ms)))).satisfy n)
        else (.advanced, p.skip n (Rule.rootsFrom base (rules (pre ++ ms))))) =
          (outcome .completed (areDone (pre ++ ms)), q) ∧ Within n (n + 1) now p h q h ∧
        q.Tells h base true (.inOrder (pre ++ ms)) := by
  have hskip := within_skip now ho.timed n (Rule.rootsFrom base (rules (pre ++ ms)))
  have hcur := ho.cursorAt_skip hpre hc
  have ho' := ho.of_within hskip ho.unsatisfied
  rw [hcur, length_rootsFrom_rules]
  by_cases hd : areDone (pre ++ ms) = true
  · rw [if_pos ((behind_eq_length_iff _).mpr hd), hd]
    obtain ⟨hall, hat⟩ := ho'.tells_satisfy
    refine ⟨_, rfl, hskip.trans (within_satisfy now ho'.timed n), hall, ?_, ?_⟩ <;> rw [ho.place]
    · rw [hd, ← hcur]
      exact hat
    · exact ho.empty
  · rw [if_neg (mt (behind_eq_length_iff _).mp hd)]
    have hd' : areDone (pre ++ ms) = false := by simpa using hd
    rw [hd']
    exact ⟨_, rfl, hskip, ho'.tells_inOrder hd' hcur⟩

/-- A set is settled: if all clauses are done, it is satisfied. -/
theorem Open.settle_inAnyOrder {ms : List MarkedRule} {n : Nat} (now : Nat)
    (ho : Open p h base ms n) (hc : p.cursorAt n = 0) :
    ∃ q, (if (Rule.rootsFrom base (rules ms)).all p.isSatisfied then
        (Offer.completed, p.satisfy n) else (.advanced, p)) =
          (outcome .completed (areDone ms), q) ∧ Within n (n + 1) now p h q h ∧
        q.Tells h base true (.inAnyOrder ms) := by
  rw [ho.tells.all_isSatisfied]
  by_cases hd : areDone ms = true
  · rw [if_pos hd, hd]
    obtain ⟨hall, hat⟩ := ho.tells_satisfy
    refine ⟨_, rfl, within_satisfy now ho.timed n, hall, ?_, ?_⟩ <;> rw [ho.place]
    · rw [hd, ← hc]
      exact hat
    · exact ho.empty
  · rw [if_neg hd]
    have hd' : areDone ms = false := by simpa using hd
    rw [hd']
    exact ⟨_, rfl, .refl ho.timed, ho.tells_inAnyOrder hd' hc⟩

/-! ### Sequences and sets -/

/-- After one of several rules has taken an offer, their node is to be settled. -/
theorem ReadyAll.open_member {pre post : List MarkedRule} {m : MarkedRule} {n : Nat}
    (hall : ReadyAll plan now base p h (pre ++ m :: post))
    (hn : base + widths (pre ++ m :: post) = n) (hroom : HasRoom p (n + 1))
    (hs : p.isSatisfied n = false) (hnone : ∀ t, (t, n) ∉ h)
    (hwin : Within (base + widths pre) (base + widths pre + m.width) now p h p' h')
    (hm : p'.Tells h' (base + widths pre) true (m.offer accepts now).2) :
    Open p' h' base (pre ++ (m.offer accepts now).2 :: post) n ∧ p'.cursorAt n = p.cursorAt n ∧
      Within base (n + 1) now p h p' h' := by
  have hle : base + widths pre + m.width ≤ n := by
    rw [widths_append, widths_cons] at hn
    omega
  have hsame := hwin.same n (.inr hle)
  refine ⟨⟨?_, hwin.timed, hwin.room _ hroom, tellsAll_replace hall.tells (width_offer m) hwin hm,
    hsame.satisfied.trans hs, hsame.not_mem hnone⟩, hsame.cursor, hwin.mono (by omega) (by omega)⟩
  rw [widths, rules_replace, ← hn, widths]

/-- The first step that is not done takes the offer. -/
theorem follows_inOrder {ms : List MarkedRule} (ih : ∀ m ∈ ms, Follows plan accepts now m) :
    Follows plan accepts now (.inOrder ms) := by
  intro base p h hr
  by_cases hd : areDone ms = true
  · exact followsFrom_of_isDone hr hd
  obtain ⟨pre, m, post, rfl, hpre, hm⟩ := exists_first_not_done (by simpa using hd)
  have hall := hr.steps
  obtain ⟨⟨-, hnode, -⟩, -, hroom, ⟨-, ⟨hs, hcur⟩, hnone⟩, -⟩ := hr
  obtain ⟨q, k, hq, hign, hwin, htell⟩ := ih m (by simp) hall.member
  have hmoff : (MarkedRule.inOrder (pre ++ m :: post)).offer accepts now =
      (outcome (m.offer accepts now).1 (areDone (pre ++ (m.offer accepts now).2 :: post)),
        .inOrder (pre ++ (m.offer accepts now).2 :: post)) := by
    rw [MarkedRule.offer, offerNext_append accepts now post hpre hm]
  rw [behind_append _ hpre, behind_of_not_isDone post hm, Nat.add_zero] at hcur
  have hs' := hs.trans (by simpa using hd)
  obtain ⟨hopen, hcur', hwin'⟩ := hall.open_member rfl hroom hs' hnone hwin htell
  have hlt : base + widths pre + m.rule.nodesBelow < base + widths (pre ++ m :: post) := by
    rw [widths_append, widths_cons, width]
    omega
  have hpoff := offerAt_inOrder accepts hnode hs'
    (hcur ▸ getElem?_rootsFrom base pre post m) hlt
  rw [hq] at hpoff
  simp only at hpoff
  by_cases ho : (m.offer accepts now).1 = .completed
  · obtain ⟨r, hr, hwr, htr⟩ := hopen.settle_inOrder now hpre (hcur'.trans hcur)
    rw [rules_replace] at hr
    refine ⟨r, k, ?_, ?_, hwin'.trans (hwr.mono (Nat.le_add_right _ _) (Nat.le_refl _)), ?_⟩
    · rw [hmoff, ho]
      exact hpoff.trans ((if_pos ho).trans hr)
    · rw [hmoff, ho]
      exact fun hi => absurd hi (outcome_completed _)
    · rw [hmoff]
      exact htr
  · have hd' := areDone_replace pre post hm ho
    rw [hd', outcome_of_ne_completed ho] at hmoff
    refine ⟨q, k, ?_, ?_, hwin', ?_⟩
    · rw [hmoff]
      exact hpoff.trans (if_neg ho)
    · rw [hmoff]
      exact hign
    · rw [hmoff]
      refine hopen.tells_inOrder hd' ((hcur'.trans hcur).trans ?_)
      rw [behind_append _ hpre, behind_of_not_isDone post (not_isDone_offer hm ho), Nat.add_zero]

/-- The roots are offered to one after another until one does not ignore the offer. -/
theorem offerFirst_follows {ms : List MarkedRule} (ih : ∀ m ∈ ms, Follows plan accepts now m)
    (hall : ReadyAll plan now base p h ms) :
    (∀ m ∈ ms, (m.offer accepts now).1 = .ignored) ∧
        offerFirst (plan.offerAt accepts) (Rule.rootsFrom base (rules ms)) p = (.ignored, p) ∨
      ∃ pre m post, ms = pre ++ m :: post ∧ (∀ k ∈ pre, (k.offer accepts now).1 = .ignored) ∧
        (m.offer accepts now).1 ≠ .ignored ∧
        offerFirst (plan.offerAt accepts) (Rule.rootsFrom base (rules ms)) p =
          plan.offerAt accepts (base + widths pre + m.rule.nodesBelow) p := by
  induction ms generalizing base with
  | nil => exact .inl ⟨by simp, rfl⟩
  | cons m ms ihms =>
    obtain ⟨q, k, hq, hign, -, -⟩ := ih m List.mem_cons_self hall.head
    rw [rootsFrom_rules_cons, offerFirst, hq]
    by_cases ho : (m.offer accepts now).1 = .ignored
    · obtain rfl := hign ho
      rw [ho]
      rcases ihms (fun m hm => ih m (List.mem_cons_of_mem _ hm)) hall.tail with
        ⟨hi, heq⟩ | ⟨pre, l, post, rfl, hpre, hl, heq⟩
      · exact .inl ⟨List.forall_mem_cons.mpr ⟨ho, hi⟩, heq⟩
      · refine .inr ⟨m :: pre, l, post, rfl, List.forall_mem_cons.mpr ⟨ho, hpre⟩, hl, ?_⟩
        rw [widths_cons, ← Nat.add_assoc]
        exact heq
    · refine .inr ⟨[], m, ms, rfl, by simp, ho, ?_⟩
      rw [widths_nil, Nat.add_zero, hq]
      split
      · rename_i heq
        exact absurd (congrArg Prod.fst heq) ho
      · rename_i heq
        exact heq.symm

/-- The first clause that does not ignore the offer takes it. -/
theorem follows_inAnyOrder {ms : List MarkedRule} (ih : ∀ m ∈ ms, Follows plan accepts now m) :
    Follows plan accepts now (.inAnyOrder ms) := by
  intro base p h hr
  by_cases hd : areDone ms = true
  · exact followsFrom_of_isDone hr hd
  have hr' := hr
  have hall := hr.clauses
  obtain ⟨⟨-, hnode, -⟩, -, hroom, ⟨-, ⟨hs, hcur⟩, hnone⟩, -⟩ := hr
  have hs' := hs.trans (by simpa using hd)
  have hpoff := offerAt_inAnyOrder accepts hnode hs'
    fun c hc => (Rule.lt_of_mem_rootsFrom hc).2
  rcases offerFirst_follows ih hall with ⟨hign, heq⟩ | ⟨pre, m, post, rfl, hpre, ho, heq⟩
  · have hmoff : (MarkedRule.inAnyOrder ms).offer accepts now = (.ignored, .inAnyOrder ms) := by
      rw [MarkedRule.offer, offerSome_of_ignored hign]
      rfl
    rw [heq] at hpoff
    exact followsFrom_of_ignored hr' hmoff hpoff
  · obtain ⟨q, k, hq, hign, hwin, htell⟩ := ih m (by simp) hall.member
    have hm : m.isDone = false := (offered accepts now m).not_isDone ho
    have hmoff : (MarkedRule.inAnyOrder (pre ++ m :: post)).offer accepts now =
        (outcome (m.offer accepts now).1 (areDone (pre ++ (m.offer accepts now).2 :: post)),
          .inAnyOrder (pre ++ (m.offer accepts now).2 :: post)) := by
      rw [MarkedRule.offer, offerSome_append hpre ho]
    obtain ⟨hopen, hcur', hwin'⟩ := hall.open_member rfl hroom hs' hnone hwin htell
    rw [heq, hq] at hpoff
    simp only at hpoff
    by_cases hc : (m.offer accepts now).1 = .completed
    · obtain ⟨r, hr, hwr, htr⟩ := hopen.settle_inAnyOrder now (hcur'.trans hcur)
      rw [rules_replace] at hr
      refine ⟨r, k, ?_, ?_, hwin'.trans (hwr.mono (Nat.le_add_right _ _) (Nat.le_refl _)), ?_⟩
      · rw [hmoff, hc]
        exact hpoff.trans ((if_pos hc).trans hr)
      · rw [hmoff, hc]
        exact fun hi => absurd hi (outcome_completed _)
      · rw [hmoff]
        exact htr
    · have hd' := areDone_replace pre post hm hc
      rw [hd', outcome_of_ne_completed hc] at hmoff
      refine ⟨q, k, ?_, ?_, hwin', ?_⟩
      · rw [hmoff]
        exact hpoff.trans (if_neg hc)
      · rw [hmoff]
        exact hign
      · rw [hmoff]
        exact hopen.tells_inAnyOrder hd' (hcur'.trans hcur)

/-! ### Alternatives -/

/-- Node `n` of two alternatives, the second of which starts at `mid`, before one is given up. -/
structure OpenBoth (p : Progress) (h : TimedHistory) (base mid n : Nat) (a b : MarkedRule) :
    Prop where
  /-- The second alternative follows the first. -/
  place_second : base + a.width = mid
  /-- The node follows both. -/
  place : mid + b.width = n
  /-- The history is timed. -/
  timed : Timed p h
  /-- There is room for the node. -/
  room : HasRoom p (n + 1)
  /-- The first alternative counts. -/
  first : p.Tells h base true a
  /-- The second alternative counts. -/
  second : p.Tells h mid true b
  /-- The node is not satisfied. -/
  unsatisfied : p.IsAt n false 0
  /-- It has no entries. -/
  empty (t : Nat) : (t, n) ∉ h

variable {mid n c start : Nat} {a b : MarkedRule}

theorem OpenBoth.le (ho : OpenBoth p h base mid n a b) : base ≤ mid ∧ mid ≤ n := by
  have hmid := ho.place_second
  have hn := ho.place
  omega

/-- Two alternatives neither of which is done. -/
theorem Ready.openBoth (hr : Ready plan now base p h (.firstOrSecond a b)) (ha : a.isDone = false)
    (hb : b.isDone = false) (hmid : base + a.width = mid) (hn : mid + b.width = n) :
    OpenBoth p h base mid n a b := by
  obtain ⟨-, htimed, hroom, ⟨hta, htb, hat, hnone⟩, -⟩ := hr
  simp only [ha, hb, Bool.not_false, Bool.or_true, Bool.and_true, Bool.or_self] at hta htb hat
  have hwidth : base + (a.firstOrSecond b).width = n + 1 := by
    rw [← hn, ← hmid]
    exact congrArg (· + 1) (Nat.add_assoc _ _ _).symm
  rw [hwidth] at hroom
  rw [hmid] at htb
  rw [hmid, hn] at hat hnone
  exact ⟨hmid, hn, htimed, hroom, hta, htb, hat, hnone⟩

/-- The first alternative has taken an offer. -/
theorem OpenBoth.replace_first {a' : MarkedRule} (ho : OpenBoth p h base mid n a b)
    (ha : a'.width = a.width) (hw : Within base mid now p h p' h')
    (ht : p'.Tells h' base true a') : OpenBoth p' h' base mid n a' b := by
  have hn := hw.same n (.inr ho.le.2)
  refine ⟨(congrArg _ ha).trans ho.place_second, ho.place, hw.timed, hw.room _ ho.room, ht, ?_,
    hn.isAt ho.unsatisfied, hn.not_mem ho.empty⟩
  exact ho.second.congr fun k hk _ => hw.same k (.inr hk)

/-- The second alternative has taken an offer. -/
theorem OpenBoth.replace_second {b' : MarkedRule} (ho : OpenBoth p h base mid n a b)
    (hb : b'.width = b.width) (hw : Within mid n now p h p' h')
    (ht : p'.Tells h' mid true b') : OpenBoth p' h' base mid n a b' := by
  have hn := hw.same n (.inr (Nat.le_refl n))
  refine ⟨ho.place_second, (congrArg _ hb).trans ho.place, hw.timed, hw.room _ ho.room, ?_, ht,
    hn.isAt ho.unsatisfied, hn.not_mem ho.empty⟩
  exact ho.first.congr fun k _ hk => hw.same k (.inl (ho.place_second ▸ hk))

theorem OpenBoth.tells (ho : OpenBoth p h base mid n a b) (ha : a.isDone = false)
    (hb : b.isDone = false) : p.Tells h base true (.firstOrSecond a b) := by
  rw [Tells, ho.place_second, ho.place, ha, hb]
  exact ⟨ho.first, ho.second, ho.unsatisfied, ho.empty⟩

/-- The node is satisfied and alternative `c` given up. -/
theorem OpenBoth.within (ho : OpenBoth p h base mid n a b) (now : Nat)
    (hc : plan.startOf c = start) (hlo : base ≤ start) (hhi : c < n) :
    Within base (n + 1) now p h (plan.discard c (p.satisfy n))
      (h.filter fun x => !plan.isWithin c x.2) := by
  have hsat := within_satisfy now ho.timed n
  have hdis := within_discard now hsat.timed hc
  have hn : base ≤ n := Nat.le_trans ho.le.1 ho.le.2
  exact (hsat.mono hn (Nat.le_refl _)).trans (hdis.mono hlo (by omega))

/-- The nodes of the alternative that is not given up stay the same. -/
theorem OpenBoth.same_kept (ho : OpenBoth p h base mid n a b) (hc : plan.startOf c = start)
    {k : Nat} (hk : k < n) (hout : k < start ∨ c < k) :
    SameAt true p h (plan.discard c (p.satisfy n)) (h.filter fun x => !plan.isWithin c x.2) k := by
  have hsat := within_satisfy 0 ho.timed n
  exact (hsat.same k (.inl hk)).trans ((within_discard 0 hsat.timed hc).same k hout)

/-- The nodes of the alternative that is given up lose their entries. -/
theorem OpenBoth.same_given_up (ho : OpenBoth p h base mid n a b) (hc : plan.startOf c = start)
    {k : Nat} (hk : k < n) (hlo : start ≤ k) (hhi : k ≤ c) :
    SameAt false p h (plan.discard c (p.satisfy n)) (h.filter fun x => !plan.isWithin c x.2) k :=
  ((within_satisfy 0 ho.timed n).same k (.inl hk)).trans (sameAt_discard hc hlo hhi)

theorem OpenBoth.isAt (ho : OpenBoth p h base mid n a b) (c : Nat) :
    (plan.discard c (p.satisfy n)).IsAt n true 0 :=
  ⟨isSatisfied_satisfy_self ho.room, ho.unsatisfied.2⟩

/-- The second alternative is given up for the first. -/
theorem OpenBoth.tells_first (ho : OpenBoth p h base mid n a b) (ha : a.isDone = true)
    (hc : plan.startOf (mid + b.rule.nodesBelow) = mid) :
    (plan.discard (mid + b.rule.nodesBelow) (p.satisfy n)).Tells
      (h.filter fun x => !plan.isWithin (mid + b.rule.nodesBelow) x.2) base true
      (.firstOrSecond a b) := by
  have hw : mid + (b.rule.nodesBelow + 1) = n := ho.place
  have hmid := ho.place_second
  rw [Tells, hmid, ho.place, ha]
  refine ⟨?_, ?_, ho.isAt _, fun t ht => ho.empty t (List.mem_of_mem_filter ht)⟩
  · exact ho.first.congr fun k _ hk => ho.same_kept hc (by omega) (.inl (by omega))
  · refine ho.second.congr fun k hk hk' => ho.same_given_up hc ?_ hk ?_
    · rwa [ho.place] at hk'
    · rw [ho.place] at hk'
      omega

/-- The first alternative is given up for the second. -/
theorem OpenBoth.tells_second (ho : OpenBoth p h base mid n a b) (ha : a.isDone = false)
    (hb : b.isDone = true) (hc : plan.startOf (base + a.rule.nodesBelow) = base) :
    (plan.discard (base + a.rule.nodesBelow) (p.satisfy n)).Tells
      (h.filter fun x => !plan.isWithin (base + a.rule.nodesBelow) x.2) base true
      (.firstOrSecond a b) := by
  have hw : base + (a.rule.nodesBelow + 1) = mid := ho.place_second
  have hn := ho.place
  rw [Tells, ho.place_second, hn, ha, hb]
  refine ⟨?_, ?_, ho.isAt _, fun t ht => ho.empty t (List.mem_of_mem_filter ht)⟩
  · refine ho.first.congr fun k hk hk' => ho.same_given_up hc ?_ hk ?_ <;>
      rw [ho.place_second] at hk' <;> omega
  · exact ho.second.congr fun k hk hk' => ho.same_kept hc (by omega) (.inr (by omega))

/-- Both alternatives get the offer, unless it completes the first. -/
theorem follows_firstOrSecond (iha : Follows plan accepts now a)
    (ihb : Follows plan accepts now b) : Follows plan accepts now (.firstOrSecond a b) := by
  intro base p h hr
  by_cases hd : (a.firstOrSecond b).isDone = true
  · exact followsFrom_of_isDone hr hd
  obtain ⟨ha, hb⟩ : a.isDone = false ∧ b.isDone = false := by simpa [isDone] using hd
  obtain ⟨mid, hmid⟩ : ∃ mid, base + a.width = mid := ⟨_, rfl⟩
  obtain ⟨n, hn⟩ : ∃ n, mid + b.width = n := ⟨_, rfl⟩
  have hboth := hr.openBoth ha hb hmid hn
  obtain ⟨⟨hholda, hholdb, hnode, -⟩, -, -, -, hpast⟩ := hr
  have hroot : base + (a.firstOrSecond b).rule.nodesBelow = n := by
    rw [← hn, ← hmid]
    exact (Nat.add_assoc _ _ _).symm
  rw [FollowsFrom, hroot, show base + (a.firstOrSecond b).width = n + 1 from congrArg (· + 1) hroot]
  change plan.Holds (base + a.width) b.rule at hholdb
  change plan.node? (base + a.width + b.width) =
    some (.firstOrSecond (base + a.rule.nodesBelow) (base + a.width + b.rule.nodesBelow)) at hnode
  rw [hmid] at hholdb
  rw [hmid, hn] at hnode
  have hlta : base + a.rule.nodesBelow < mid := hmid ▸ Nat.lt_succ_self _
  have hltb : mid + b.rule.nodesBelow < n := hn ▸ Nat.lt_succ_self _
  -- the offer to the first alternative
  obtain ⟨p₁, h₁, hq₁, hi₁, hw₁, ht₁⟩ := iha
    ⟨hholda, hboth.timed, hboth.room.mono (by omega), hboth.first, hpast⟩
  rw [hmid] at hw₁
  have hboth₁ := hboth.replace_first (width_offer a) hw₁ ht₁
  have hoa := isDone_offer_iff accepts now a
  rw [offerAt_firstOrSecond accepts hnode hboth.unsatisfied.1 (by omega) hltb, hq₁,
    MarkedRule.offer_firstOrSecond accepts now ha hb]
  by_cases hca : (a.offer accepts now).1 = .completed
  · have hc := hholdb.startOf_root
    simp only [hca, if_true]
    refine ⟨_, _, rfl, by simp, ?_, hboth₁.tells_first (hoa.mpr (.inr hca)) hc⟩
    exact (hw₁.mono (Nat.le_refl _) (by omega)).trans (hboth₁.within now hc (by omega) hltb)
  -- the offer to the second
  obtain ⟨p₂, h₂, hq₂, hi₂, hw₂, ht₂⟩ := ihb
    ⟨hholdb, hw₁.timed, hboth₁.room.mono (by omega), hboth₁.second, hw₁.past hboth.le.1 hpast⟩
  rw [hn] at hw₂
  have hboth₂ := hboth₁.replace_second (width_offer b) hw₂ ht₂
  have hob := isDone_offer_iff accepts now b
  have ha' : (a.offer accepts now).2.isDone = false := not_isDone_offer ha hca
  have hwin := (hw₁.mono (Nat.le_refl base) (by omega : mid ≤ n + 1)).trans
    (hw₂.mono (by omega : base ≤ mid) (Nat.le_succ n))
  simp only [hca, if_false, hq₂]
  by_cases hcb : (b.offer accepts now).1 = .completed
  · have hc := hholda.startOf_root
    have htell := hboth₂.tells_second ha' (hob.mpr (.inr hcb)) (by rwa [rule_offer])
    rw [rule_offer] at htell
    simp only [hcb, if_true]
    refine ⟨_, _, rfl, by simp, ?_, htell⟩
    exact hwin.trans (hboth₂.within now hc (Nat.le_refl _) (by omega))
  · simp only [hcb, if_false]
    refine ⟨_, _, rfl, ?_, hwin, hboth₂.tells ha' (not_isDone_offer hb hcb)⟩
    intro ho
    obtain ⟨hia, hib⟩ := Offer.eq_ignored_of_either hca hcb ho
    rw [hi₂ hib, hi₁ hia]

/-- **Offers to numbered nodes do what offers to the marked rule do.** -/
theorem follows (m : MarkedRule) : Follows plan accepts now m := by
  induction m with
  | doNothing =>
    intro base p h hr
    exact followsFrom_of_ignored hr rfl (offerAt_nothing hr.holds.1)
  | leaf i time => exact follows_leaf i time
  | inOrder ms ih => exact follows_inOrder ih
  | inAnyOrder ms ih => exact follows_inAnyOrder ih
  | firstOrSecond a b iha ihb => exact follows_firstOrSecond iha ihb

end Plan

end BoardTrial
