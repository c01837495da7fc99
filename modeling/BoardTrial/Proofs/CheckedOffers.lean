import BoardTrial.Proofs.Coherence

/-!
# Offers find what they look up

Checks make no difference to an offer (`Plan.checked`): wherever it is passed on to, the
node is there with its flag and its cursor, and a sequence that is not satisfied is at one of its
nodes. The proof goes along the offer, since what is offered to the second of two alternatives comes
after what the first has made of it.
-/

namespace BoardTrial

open MarkedRule Progress

namespace Plan

variable {plan : Plan} {accepts : Interaction → Bool} {now base n c : Nat} {p : Progress}
  {h : TimedHistory} {m a b : MarkedRule}

theorem inRange_mono (hn : plan.inRange p n = true) (hc : c ≤ n) : plan.inRange p c = true := by
  simp only [inRange, Bool.and_eq_true, decide_eq_true_eq] at hn ⊢
  omega

/-- At a node that is there, with all nodes right below it, no check fails. -/
theorem offerAt?_of_node {node : Node} (hr : plan.inRange p n = true)
    (hs : p.isSatisfied n = false) (hn : plan.node? n = some node)
    (hlt : ∀ c ∈ node.children, c < n) :
    plan.offerAt? accepts n p = plan.offerNode? accepts
      (fun c p => if _ : c < n then plan.offerAt? accepts c p else none) n p node := by
  have hall : node.children.all (plan.inRange p) = true :=
    List.all_eq_true.mpr fun c hc => inRange_mono hr (Nat.le_of_lt (hlt c hc))
  rw [offerAt?, hn, if_pos hr, if_neg (by simp [hs])]
  exact if_pos hall

/-- Offers to the nodes of `m` pass all checks. -/
def Checked (plan : Plan) (accepts : Interaction → Bool) (now : Nat) (m : MarkedRule) : Prop :=
  ∀ {base : Nat} {p : Progress} {h : TimedHistory}, Ready plan now base p h m →
    plan.offerAt? accepts (base + m.rule.nodesBelow) p =
      some (plan.offerAt accepts (base + m.rule.nodesBelow) p)

/-- The last node of a rule is there. -/
theorem Ready.inRange (hr : Ready plan now base p h m) (hsize : plan.starts.size = plan.nodes.size)
    {node : Node} (hn : plan.node? (base + m.rule.nodesBelow) = some node) :
    plan.inRange p (base + m.rule.nodesBelow) = true := by
  have hlt : base + m.rule.nodesBelow < plan.nodes.size := (Array.getElem?_eq_some_iff.mp hn).1
  have hs : base + (m.rule.nodesBelow + 1) ≤ p.satisfied.size := hr.room.satisfied
  have hc : base + (m.rule.nodesBelow + 1) ≤ p.cursor.size := hr.room.cursor
  simp only [Plan.inRange, Bool.and_eq_true, decide_eq_true_eq, hsize]
  omega

/-- A node that is satisfied ignores offers with or without checks. -/
theorem checked_of_isSatisfied (hr : plan.inRange p n = true) (hs : p.isSatisfied n = true) :
    plan.offerAt? accepts n p = some (plan.offerAt accepts n p) := by
  rw [offerAt?, if_pos hr, if_pos hs, offerAt_of_isSatisfied hs]

/-! ### Sequences and sets -/

/-- A sequence passes the offer on to the node that it is at. -/
theorem offerAt?_inOrder {cs : List Nat} (hr : plan.inRange p n = true)
    (hs : p.isSatisfied n = false) (hn : plan.node? n = some (.inOrder cs)) (hlt : ∀ c ∈ cs, c < n)
    (hc : cs[p.cursorAt n]? = some c)
    (ih : plan.offerAt? accepts c p = some (plan.offerAt accepts c p)) :
    plan.offerAt? accepts n p = some (plan.offerAt accepts n p) := by
  have hcn : c < n := hlt c (List.mem_of_getElem? hc)
  rw [offerAt?_of_node hr hs hn hlt, offerAt_inOrder accepts hn hs hc hcn]
  simp only [offerNode?, hc, hcn, dif_pos, ih]
  cases plan.offerAt accepts c p with
  | mk o q => cases o <;> rfl

theorem offerFirst?_congr {f g : Nat → Progress → Option (Offer × Progress)} {cs : List Nat}
    (hfg : ∀ c ∈ cs, ∀ p, f c p = g c p) (p : Progress) :
    offerFirst? f cs p = offerFirst? g cs p := by
  induction cs generalizing p with
  | nil => rfl
  | cons c cs ih =>
    rw [offerFirst?, offerFirst?, hfg c List.mem_cons_self]
    split
    · rfl
    · exact ih (fun d hd => hfg d (List.mem_cons_of_mem _ hd)) _
    · rfl

/-- A set passes the offer on to its nodes. -/
theorem offerAt?_inAnyOrder {cs : List Nat} (hr : plan.inRange p n = true)
    (hs : p.isSatisfied n = false) (hn : plan.node? n = some (.inAnyOrder cs))
    (hlt : ∀ c ∈ cs, c < n)
    (ih : offerFirst? (plan.offerAt? accepts) cs p =
      some (offerFirst (plan.offerAt accepts) cs p)) :
    plan.offerAt? accepts n p = some (plan.offerAt accepts n p) := by
  have hcongr :
      offerFirst? (fun c p => if _ : c < n then plan.offerAt? accepts c p else none) cs p =
        offerFirst? (plan.offerAt? accepts) cs p :=
    offerFirst?_congr (fun c hc _ => dif_pos (hlt c hc)) p
  rw [offerAt?_of_node hr hs hn hlt, offerAt_inAnyOrder accepts hn hs hlt]
  simp only [offerNode?, hcongr, ih]
  cases offerFirst (plan.offerAt accepts) cs p with
  | mk o q => cases o <;> rfl

/-- Nodes that ignore an offer leave the progress as it was for the next. -/
theorem offerFirst?_eq_some {ms : List MarkedRule} (ih : ∀ m ∈ ms, Checked plan accepts now m)
    (hall : ReadyAll plan now base p h ms) :
    offerFirst? (plan.offerAt? accepts) (Rule.rootsFrom base (rules ms)) p =
      some (offerFirst (plan.offerAt accepts) (Rule.rootsFrom base (rules ms)) p) := by
  induction ms generalizing base with
  | nil => rfl
  | cons m ms ihms =>
    have hm := hall.head
    have hf : Follows plan accepts now m := follows m
    obtain ⟨q, k, hq, hign, -, -⟩ := hf hm
    rw [rootsFrom_rules_cons, offerFirst?, offerFirst, ih m List.mem_cons_self hm, hq]
    cases ho : (m.offer accepts now).1 with
    | ignored =>
      obtain rfl := hign ho
      exact ihms (fun k hk => ih k (List.mem_cons_of_mem _ hk)) hall.tail
    | advanced => rfl
    | completed => rfl

/-! ### Alternatives -/

/-- Alternatives pass the offer on to the first, and unless that completes it to the second. -/
theorem offerAt?_firstOrSecond {na nb : Nat} (hr : plan.inRange p n = true)
    (hs : p.isSatisfied n = false) (hn : plan.node? n = some (.firstOrSecond na nb)) (hna : na < n)
    (hnb : nb < n) (iha : plan.offerAt? accepts na p = some (plan.offerAt accepts na p))
    (ihb : plan.offerAt? accepts nb (plan.offerAt accepts na p).2 =
      some (plan.offerAt accepts nb (plan.offerAt accepts na p).2)) :
    plan.offerAt? accepts n p = some (plan.offerAt accepts n p) := by
  have hlt : ∀ c ∈ [na, nb], c < n := by simp [hna, hnb]
  rw [offerAt?_of_node hr hs hn hlt, offerAt_firstOrSecond accepts hn hs hna hnb]
  simp only [offerNode?, hna, hnb, dif_pos, iha]
  cases hqa : plan.offerAt accepts na p with
  | mk oa q =>
    rw [hqa] at ihb
    simp only at ihb
    cases hqb : plan.offerAt accepts nb q with
    | mk ob q' => cases oa <;> cases ob <;> simp [ihb, hqb]

/-- What has been offered to the first alternative leaves the second ready. -/
theorem Ready.second (hr : Ready plan now base p h (.firstOrSecond a b)) (ha : a.isDone = false)
    (hb : b.isDone = false) (accepts : Interaction → Bool) :
    Ready plan now base p h a ∧
      ∃ k, Ready plan now (base + a.width)
        (plan.offerAt accepts (base + a.rule.nodesBelow) p).2 k b := by
  have hboth := hr.openBoth ha hb rfl rfl
  have hwidth : base + a.width ≤ base + a.width + b.width + 1 := by omega
  have hra : Ready plan now base p h a :=
    ⟨hr.holds.1, hboth.timed, hboth.room.mono hwidth, hboth.first, hr.past⟩
  have hf : Follows plan accepts now a := follows a
  obtain ⟨q, k, hq, -, hw, ht⟩ := hf hra
  have hboth' := hboth.replace_first (width_offer a) hw ht
  refine ⟨hra, k, ?_⟩
  rw [hq]
  exact ⟨hr.holds.2.1, hw.timed, hboth'.room.mono (Nat.le_succ _), hboth'.second,
    hw.past hboth.le.1 hr.past⟩

/-! ### Rule by rule -/

/-- **Checks make no difference to an offer.** -/
theorem checked (hsize : plan.starts.size = plan.nodes.size) (m : MarkedRule) :
    Checked plan accepts now m := by
  induction m with
  | doNothing =>
    intro base p h hr
    have hn : plan.node? base = some .nothing := hr.holds.1
    have hin := hr.inRange hsize hn
    refine (offerAt?_of_node hin hr.tells.1.1 hn (by simp [Node.children])).trans ?_
    exact congrArg some (offerAt_nothing hn).symm
  | leaf i time =>
    intro base p h hr
    have hn : plan.node? base = some (.leaf i) := hr.holds.1
    have hin := hr.inRange hsize hn
    cases hs : p.isSatisfied base with
    | true => exact checked_of_isSatisfied hin hs
    | false =>
      refine (offerAt?_of_node hin hs hn (by simp [Node.children])).trans ?_
      exact congrArg some (offerAt_leaf accepts hn hs).symm
  | inOrder ms ih =>
    intro base p h hr
    have hn := hr.holds.2.1
    have hin := hr.inRange hsize hn
    have hs := hr.tells.2.1.1
    by_cases hd : areDone ms = true
    · exact checked_of_isSatisfied hin (hs.trans hd)
    obtain ⟨pre, m, post, rfl, hpre, hm⟩ := exists_first_not_done (by simpa using hd)
    have hcur := hr.tells.2.1.2
    rw [behind_append _ hpre, behind_of_not_isDone post hm, Nat.add_zero] at hcur
    refine offerAt?_inOrder hin (hs.trans (by simpa using hd)) hn
      (fun c hc => (Rule.lt_of_mem_rootsFrom hc).2) (hcur ▸ getElem?_rootsFrom base pre post m) ?_
    exact ih m (by simp) hr.steps.member
  | inAnyOrder ms ih =>
    intro base p h hr
    have hn := hr.holds.2.1
    have hin := hr.inRange hsize hn
    have hs := hr.tells.2.1.1
    by_cases hd : areDone ms = true
    · exact checked_of_isSatisfied hin (hs.trans hd)
    exact offerAt?_inAnyOrder hin (hs.trans (by simpa using hd)) hn
      (fun c hc => (Rule.lt_of_mem_rootsFrom hc).2) (offerFirst?_eq_some ih hr.clauses)
  | firstOrSecond a b iha ihb =>
    intro base p h hr
    have hroot : base + (a.firstOrSecond b).rule.nodesBelow = base + a.width + b.width :=
      (Nat.add_assoc _ _ _).symm
    have hn := hr.holds.2.2.1
    have hin := hr.inRange hsize (hroot ▸ hn)
    have hs := hr.tells.2.2.1.1
    rw [hroot] at hin ⊢
    by_cases hd : (a.firstOrSecond b).isDone = true
    · exact checked_of_isSatisfied hin (hs.trans hd)
    obtain ⟨ha, hb⟩ : a.isDone = false ∧ b.isDone = false := by simpa [isDone] using hd
    obtain ⟨hra, k, hrb⟩ := hr.second ha hb accepts
    have hlta : base + a.rule.nodesBelow < base + a.width + b.width := by
      simp only [width]
      omega
    exact offerAt?_firstOrSecond hin (hs.trans (by simp [ha, hb])) hn hlta
      (Nat.lt_succ_self (base + a.width + b.rule.nodesBelow)) (iha hra) (ihb hrb)

/-! ### Runs -/

/-- **Flags and cursors fit together, and matching finds what it looks up.** Whatever has been
offered to the plan of a rule, every node is coherent, and one more offer passes all checks. -/
theorem coherent_offerEach (r : Rule) (os : List Offering) :
    (∀ n node, (ofRule r).node? n = some node →
      CoherentAt (ofRule r).fresh ((ofRule r).offerEach (ofRule r).fresh os) n node) ∧
      ∀ e s, (ofRule r).offer? e s ((ofRule r).offerEach (ofRule r).fresh os) =
        some ((ofRule r).offer e s ((ofRule r).offerEach (ofRule r).fresh os)) := by
  obtain ⟨h, hr⟩ := (runs_fresh r).offerEach os
  have hex := (exclusive_ofRule r).offerAll Offering.accepts os.zipIdx
  generalize MarkedRule.offerAll Offering.accepts (.ofRule r) os.zipIdx = m at hr hex
  obtain rfl := hr.rule
  constructor
  · intro n node hn
    have hlt : n < m.rule.nodesBelow + 1 := by
      rw [← size_ofRule]
      exact (Array.getElem?_eq_some_iff.mp hn).1
    exact hr.ready.tells.coherentAt hr.ready.holds (runs_fresh m.rule).ready.tells hex
      (Nat.zero_le n) (by rwa [Nat.zero_add]) hn
  · intro e s
    have hsize : (ofRule m.rule).starts.size = (ofRule m.rule).nodes.size := by simp
    have hroot : (ofRule m.rule).root = 0 + m.rule.nodesBelow := by simp
    rw [offer?, offer, hroot]
    exact checked hsize m hr.ready

end Plan

end BoardTrial
