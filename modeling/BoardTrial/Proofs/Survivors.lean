import BoardTrial.Proofs.Coherence
import BoardTrial.Proofs.Parts

/-!
# What lasts in a progress

A sequence leaves the steps after the one it is at as they were before anything happened, and below
a node that is satisfied nothing ever changes (`Plan.untouched_and_frozen`). So alternatives of
which one is satisfied have given up the other for good (`Plan.GivesUp`), and **the history is the
satisfied leaves that no alternatives have given up** (`Plan.history_survives`).
-/

namespace BoardTrial

open MarkedRule Progress

namespace MarkedRule

mutual

theorem marks_ofRule : ∀ (base : Nat) (r : Rule), (ofRule r).marks base = []
  | _, .doNothing | _, .leaf _ => rfl
  | base, .inOrder rs | base, .inAnyOrder rs => marksOfAll_ofRules base rs
  | base, .firstOrSecond a b => by
    simp only [ofRule, marks, marks_ofRule, List.append_nil, ite_self]

theorem marksOfAll_ofRules : ∀ (base : Nat) (rs : List Rule), marksOfAll base (ofRules rs) = []
  | _, [] => rfl
  | base, r :: rs => by
    rw [ofRules, marksOfAll, marks_ofRule base r, marksOfAll_ofRules _ rs, List.append_nil]

end

end MarkedRule

namespace Plan

variable {plan : Plan} {r : Rule} {now : Nat} {p q : Progress} {h h' : TimedHistory}
  {m k : MarkedRule} {start n x : Nat} {node : Node}

theorem lt_size_of_node? (hn : plan.node? n = some node) : n < plan.size :=
  (Array.getElem?_eq_some_iff.mp hn).1

/-- **Each node of a plan is that of a part of the marked rule.** -/
theorem Runs.exists_part (hr : Runs r now p h m) (hn : n < (ofRule r).size) :
    ∃ k start, HasPart m 0 k start ∧ k.root start = n := by
  refine MarkedRule.exists_part m (Nat.zero_le n) ?_
  rwa [Nat.zero_add, width, hr.rule, ← size_ofRule]

/-- The part whose node is known. -/
theorem Runs.exists_part_of_node? (hr : Runs r now p h m) (hn : (ofRule r).node? n = some node) :
    ∃ k start, HasPart m 0 k start ∧ k.root start = n ∧ k.node start = node := by
  obtain ⟨k, start, hk, rfl⟩ := hr.exists_part (lt_size_of_node? hn)
  exact ⟨k, start, hk, rfl, Option.some.inj ((hr.ready.holds.part hk).node?.symm.trans hn)⟩

/-- The node of a part is satisfied when the part is done. -/
theorem Runs.isSatisfied_part (hr : Runs r now p h m) (hk : HasPart m 0 k start) :
    p.isSatisfied (k.root start) = k.isDone := by
  obtain ⟨_, ht⟩ := hr.ready.tells.part hk
  exact ht.isSatisfied

/-! ### Steps that are not yet to be done -/

/-- A step later than the first that is not done is unmarked. -/
theorem unmarked_of_behind_lt {ms : List MarkedRule} {j : Nat} (hm : (MarkedRule.inOrder ms).InTurn)
    (hj : behind ms < j) (hk : ms[j]? = some k) : k.Unmarked := by
  obtain ⟨hjl, rfl⟩ := List.getElem?_eq_some_iff.mp hk
  have hcl : behind ms < ms.length := Nat.lt_trans hj hjl
  have hstop := (takeWhile_stops isDone ms).2 _ (List.getElem?_eq_getElem hcl)
  cases hm with
  | inOrder _ hpw =>
    have hor := List.pairwise_iff_getElem.mp hpw _ _ hcl hjl hj
    exact hor.resolve_left (by simp [hstop])

/-- The nodes after the one at which a sequence is are those of unmarked parts. -/
theorem Runs.exists_unmarked (hr : Runs r now p h m) (hm : m.InTurn) {cs : List Nat} {j c : Nat}
    (hn : (ofRule r).node? n = some (.inOrder cs)) (hj : p.cursorAt n < j) (hc : cs[j]? = some c) :
    ∃ k start, HasPart m 0 k start ∧ k.root start = c ∧ k.Unmarked := by
  obtain ⟨k, start, hk, rfl, hnode⟩ := hr.exists_part_of_node? hn
  obtain ⟨ms, rfl, rfl⟩ := node_eq_inOrder hnode
  obtain ⟨l, hl, rfl⟩ := getElem?_rootsFrom_iff.mp hc
  obtain ⟨_, ht⟩ := hr.ready.tells.part hk
  have hcur : p.cursorAt ((MarkedRule.inOrder ms).root start) = behind ms := ht.2.1.2
  rw [hcur] at hj
  exact ⟨l, _, hk.child (.step start hl), rfl, unmarked_of_behind_lt (hm.part hk) hj hl⟩

/-- The nodes of an unmarked part are as they were before anything happened. -/
theorem Runs.untouched (hr : Runs r now p h m) (hk : HasPart m 0 k start) (hu : k.Unmarked)
    (hn : (ofRule r).Below (k.root start) n) :
    p.isSatisfied n = (ofRule r).fresh.isSatisfied n ∧
      p.cursorAt n = (ofRule r).fresh.cursorAt n ∧ n ∉ p.history := by
  obtain ⟨hlo, hhi⟩ := (hr.ready.holds.part hk).below_iff.mp hn
  obtain ⟨_, ht⟩ := hr.ready.tells.part hk
  have hk' := hk.ofRule
  rw [hr.rule, ← hu] at hk'
  obtain ⟨_, ht'⟩ := (runs_fresh r).ready.tells.part hk'
  refine ⟨(ht'.agree ht n hlo hhi).1, (ht'.agree ht n hlo hhi).2, ?_⟩
  rw [← hr.ready.timed.history]
  intro hmem
  obtain ⟨x, hx, rfl⟩ := List.mem_map.mp hmem
  have hmarks := ((ht.mem_iff hlo hhi).mp hx).2
  rw [hu, marks_ofRule] at hmarks
  cases hmarks

/-! ### Nodes that are satisfied -/

/-- A satisfied node is that of a part that is done. -/
theorem Runs.exists_done_part (hr : Runs r now p h m) (hf : p.Fits (ofRule r).size)
    (hx : p.isSatisfied x = true) :
    ∃ k start, HasPart m 0 k start ∧ k.root start = x ∧ k.isDone = true := by
  have hlt : x < (ofRule r).size := by
    rw [← hf.1]
    by_contra hge
    simp [Progress.isSatisfied, Array.getD_eq_getD_getElem?, hge] at hx
  obtain ⟨k, start, hk, rfl⟩ := hr.exists_part hlt
  exact ⟨k, start, hk, rfl, (hr.isSatisfied_part hk).symm.trans hx⟩

/-- **Below a satisfied node nothing changes any more.** -/
theorem Runs.frozen (hr : Runs r now p h m) (hf : p.Fits (ofRule r).size)
    (hx : p.isSatisfied x = true) (hn : (ofRule r).Below x n) (os : List Offering) :
    ((ofRule r).offerEach p os).isSatisfied n = p.isSatisfied n ∧
      ((ofRule r).offerEach p os).cursorAt n = p.cursorAt n := by
  obtain ⟨k, start, hk, rfl, hd⟩ := hr.exists_done_part hf hx
  obtain ⟨hlo, hhi⟩ := (hr.ready.holds.part hk).below_iff.mp hn
  obtain ⟨h', hr'⟩ := hr.offerEach os
  obtain ⟨_, ht⟩ := hr.ready.tells.part hk
  obtain ⟨_, ht'⟩ := hr'.ready.tells.part (hk.offerAll hd _)
  exact ht.agree ht' n hlo hhi

/-- Whatever has been offered, nothing has been marked before its turn. -/
theorem exists_runs_inTurn (r : Rule) (os : List Offering) :
    ∃ h m, Runs r os.length ((ofRule r).offerEach (ofRule r).fresh os) h m ∧ m.InTurn := by
  obtain ⟨h, hr⟩ := (runs_fresh r).offerEach os
  rw [Nat.zero_add] at hr
  exact ⟨h, _, hr, inTurn_offerAll _ (inTurn_ofRule r) _⟩

theorem fits_offerEach (r : Rule) (os : List Offering) :
    ((ofRule r).offerEach (ofRule r).fresh os).Fits (ofRule r).size :=
  (fits_fresh _).grows (offerEach_grows _ _ os)

/-- **Later steps see nothing early, and what is satisfied is frozen.** Whatever has been offered,
the nodes below a step later than the one that a sequence is at are as before anything happened, and
none is in the history. Whatever is offered next, the nodes below a satisfied node stay as they are,
those of the alternative that was given up with them. -/
theorem untouched_and_frozen (r : Rule) (os : List Offering) :
    let plan := ofRule r
    let p := plan.offerEach plan.fresh os
    (∀ n cs j c k, plan.node? n = some (.inOrder cs) → p.cursorAt n < j → cs[j]? = some c →
      plan.Below c k → p.isSatisfied k = plan.fresh.isSatisfied k ∧
        p.cursorAt k = plan.fresh.cursorAt k ∧ k ∉ p.history) ∧
    ∀ n k os', p.isSatisfied n = true → plan.Below n k →
      (plan.offerEach p os').isSatisfied k = p.isSatisfied k ∧
        (plan.offerEach p os').cursorAt k = p.cursorAt k := by
  intro plan p
  obtain ⟨h, m, hr, hm⟩ := exists_runs_inTurn r os
  constructor
  · intro n cs j c k hn hj hc hk
    obtain ⟨l, start, hl, rfl, hu⟩ := hr.exists_unmarked hm hn hj hc
    exact hr.untouched hl hu hk
  · intro n k os' hn hk
    exact hr.frozen (fits_offerEach r os) hn hk os'

/-! ### Alternatives that are given up -/

/-- Node `x` is that of two alternatives of which one is satisfied, and `n` is below the other, which
is not. -/
def GivesUp (plan : Plan) (p : Progress) (x n : Nat) : Prop :=
  p.isSatisfied x = true ∧ ∃ a b, plan.node? x = some (.firstOrSecond a b) ∧
    (p.isSatisfied a = false ∧ plan.Below a n ∨ p.isSatisfied b = false ∧ plan.Below b n)

theorem GivesUp.child {c : Nat} (hg : plan.GivesUp p x n) (hn : plan.node? n = some node)
    (hc : c ∈ node.children) : plan.GivesUp p x c := by
  obtain ⟨hx, a, b, hnode, hor⟩ := hg
  exact ⟨hx, a, b, hnode, hor.imp (And.imp_right fun hb => hb.child hn hc)
    (And.imp_right fun hb => hb.child hn hc)⟩

/-- The node of two alternatives is that of a part. -/
theorem Runs.exists_alternatives (hr : Runs r now p h m) {c d : Nat}
    (hx : (ofRule r).node? x = some (.firstOrSecond c d)) :
    ∃ a b start, HasPart m 0 (.firstOrSecond a b) start ∧
      (MarkedRule.firstOrSecond a b).root start = x ∧ a.root start = c ∧
      b.root (start + a.width) = d := by
  obtain ⟨k, start, hk, rfl, hnode⟩ := hr.exists_part_of_node? hx
  obtain ⟨a, b, rfl, rfl, rfl⟩ := node_eq_firstOrSecond hnode
  exact ⟨a, b, start, hk, rfl, rfl, rfl⟩

/-- What is below a part that does not count is not in the history. -/
theorem Runs.not_mem_of_not_counts (hr : Runs r now p h m) (hk : HasPart m 0 k start)
    (ht : p.Tells h start false k) (hn : (ofRule r).Below (k.root start) n) : n ∉ p.history := by
  obtain ⟨hlo, hhi⟩ := (hr.ready.holds.part hk).below_iff.mp hn
  rw [← hr.ready.timed.history]
  intro hmem
  obtain ⟨y, hy, rfl⟩ := List.mem_map.mp hmem
  cases ((ht.mem_iff hlo hhi).mp hy).1

/-- What is below an alternative that was given up is not in the history. -/
theorem Runs.not_mem_of_givesUp (hr : Runs r now p h m) (hg : (ofRule r).GivesUp p x n) :
    n ∉ p.history := by
  obtain ⟨hx, c, d, hnode, hor⟩ := hg
  obtain ⟨a, b, start, hk, rfl, rfl, rfl⟩ := hr.exists_alternatives hnode
  obtain ⟨counts, hta, htb, -⟩ := hr.ready.tells.part hk
  have hd : (a.isDone || b.isDone) = true := (hr.isSatisfied_part hk).symm.trans hx
  rcases hor with ⟨ha, hn⟩ | ⟨hb, hn⟩
  · have ha' : a.isDone = false := hta.isSatisfied.symm.trans ha
    have hb' : b.isDone = true := by simpa [ha'] using hd
    rw [ha', hb', Bool.not_true, Bool.or_false, Bool.and_false] at hta
    exact hr.not_mem_of_not_counts (hk.child (.first a b start)) hta hn
  · have hb' : b.isDone = false := htb.isSatisfied.symm.trans hb
    have ha' : a.isDone = true := by simpa [hb'] using hd
    rw [ha', Bool.not_true, Bool.and_false] at htb
    exact hr.not_mem_of_not_counts (hk.child (.second a b start)) htb hn

/-- Of two alternatives of which the second only is done the first is given up. -/
theorem Runs.givesUp_first {a b : MarkedRule} (hr : Runs r now p h m)
    (hk : HasPart m 0 (.firstOrSecond a b) start) (ha : a.isDone = false) (hb : b.isDone = true) :
    (ofRule r).GivesUp p ((MarkedRule.firstOrSecond a b).root start) (a.root start) := by
  refine ⟨?_, _, _, (hr.ready.holds.part hk).node?, .inl ⟨?_, .self⟩⟩
  · rw [hr.isSatisfied_part hk, isDone, hb, Bool.or_true]
  · rw [hr.isSatisfied_part (hk.child (.first a b start)), ha]

/-- Of two alternatives of which the first only is done the second is given up. -/
theorem Runs.givesUp_second {a b : MarkedRule} (hr : Runs r now p h m)
    (hk : HasPart m 0 (.firstOrSecond a b) start) (ha : a.isDone = true) (hb : b.isDone = false) :
    (ofRule r).GivesUp p ((MarkedRule.firstOrSecond a b).root start) (b.root (start + a.width)) := by
  refine ⟨?_, _, _, (hr.ready.holds.part hk).node?, .inr ⟨?_, .self⟩⟩
  · rw [hr.isSatisfied_part hk, isDone, ha, Bool.true_or]
  · rw [hr.isSatisfied_part (hk.child (.second a b start)), hb]

/-- Each part counts, or nothing of it has been done, or it belongs to an alternative that was given
up. -/
theorem Runs.part_counts (hr : Runs r now p h m) (hm : m.InTurn) (hk : HasPart m 0 k start) :
    p.Tells h start true k ∨ k.Unmarked ∨ ∃ x, (ofRule r).GivesUp p x (k.root start) := by
  induction hk with
  | whole => exact .inl hr.ready.tells
  | @child k l start start' hk hl ih =>
    have hnode := (hr.ready.holds.part hk).node?
    rcases ih with ht | hu | ⟨x, hx⟩
    · cases hl with
      | step _ hi => exact .inl (ht.1.getElem? hi)
      | clause _ hi => exact .inl (ht.1.getElem? hi)
      | first _ b _ =>
        have hta := ht.1
        cases ha : l.isDone with
        | true => exact .inl (by rwa [ha] at hta)
        | false =>
          cases hb : b.isDone with
          | true => exact .inr (.inr ⟨_, hr.givesUp_first hk ha hb⟩)
          | false => exact .inl (by rwa [ha, hb] at hta)
      | second a _ _ =>
        have htb := ht.2.1
        cases ha : a.isDone with
        | false => exact .inl (by rwa [ha] at htb)
        | true =>
          cases hb : l.isDone with
          | false => exact .inr (.inr ⟨_, hr.givesUp_second hk ha hb⟩)
          | true =>
            cases hm.part hk with
            | firstOrSecond _ _ hboth => exact .inr (.inl (hboth ha hb).2)
    · exact .inr (.inl (hu.child hl))
    · exact .inr (.inr ⟨x, hx.child hnode (mem_children_iff.mpr ⟨l, start', hl, rfl⟩)⟩)

/-! ### The history -/

theorem Timed.mem_history (ht : Timed p h) : n ∈ p.history ↔ ∃ t, (t, n) ∈ h := by
  rw [← ht.history]
  simp

theorem node?_of_isSome_interaction? (hn : (plan.interaction? n).isSome = true) :
    ∃ i, plan.node? n = some (.leaf i) := by
  unfold interaction? at hn
  split at hn
  · exact ⟨_, ‹_›⟩
  · cases hn

/-- A leaf of the plan is a leaf of the marked rule. -/
theorem Runs.exists_leaf (hr : Runs r now p h m) (hn : ((ofRule r).interaction? n).isSome = true) :
    ∃ i time, HasPart m 0 (.leaf i time) n ∧ p.isSatisfied n = time.isSome := by
  obtain ⟨i, hi⟩ := node?_of_isSome_interaction? hn
  obtain ⟨k, start, hk, rfl, hnode⟩ := hr.exists_part_of_node? hi
  obtain ⟨time, rfl⟩ := node_eq_leaf hnode
  exact ⟨i, time, hk, hr.isSatisfied_part hk⟩

/-- An entry of the history has the time with which its leaf is marked. -/
theorem Runs.exists_leaf_of_mem (hr : Runs r now p h m) {t : Nat} (hn : (t, n) ∈ h) :
    ((ofRule r).interaction? n).isSome = true ∧ ∃ i, HasPart m 0 (.leaf i (some t)) n := by
  have hleaf := isSome_interaction?_of_mem_marks hr.ready.holds (hr.perm_marks.mem_iff.mp hn)
  obtain ⟨i, time, hk, -⟩ := hr.exists_leaf hleaf
  obtain ⟨_, ht⟩ := hr.ready.tells.part hk
  obtain ⟨-, rfl⟩ := (ht.2 t).mp hn
  exact ⟨hleaf, i, hk⟩

/-- The history is of satisfied leaves. -/
theorem Runs.of_mem_history (hr : Runs r now p h m) (hn : n ∈ p.history) :
    ((ofRule r).interaction? n).isSome = true ∧ p.isSatisfied n = true := by
  obtain ⟨t, ht⟩ := (Timed.mem_history hr.ready.timed).mp hn
  obtain ⟨hleaf, i, hk⟩ := hr.exists_leaf_of_mem ht
  exact ⟨hleaf, hr.isSatisfied_part hk⟩

/-- **A satisfied leaf is in the history unless it belongs to an alternative that was given up.** -/
theorem Runs.not_mem_history_iff (hr : Runs r now p h m) (hm : m.InTurn)
    (hn : ((ofRule r).interaction? n).isSome = true) (hs : p.isSatisfied n = true) :
    n ∉ p.history ↔ ∃ x, (ofRule r).GivesUp p x n := by
  constructor
  · intro hnot
    obtain ⟨i, time, hk, hsat⟩ := hr.exists_leaf hn
    obtain ⟨t, rfl⟩ := Option.isSome_iff_exists.mp (hsat.symm.trans hs)
    rcases hr.part_counts hm hk with ht | hu | hx
    · exact absurd ((Timed.mem_history hr.ready.timed).mpr ⟨t, (ht.2 t).mpr ⟨rfl, rfl⟩⟩) hnot
    · cases hu
    · exact hx
  · rintro ⟨x, hx⟩
    exact hr.not_mem_of_givesUp hx

/-- No leaf is in the history twice. -/
theorem Runs.nodup_history (hr : Runs r now p h m) : p.history.Nodup := by
  rw [← hr.ready.timed.history, (hr.perm_marks.map _).nodup_iff, List.nodup_iff_pairwise_ne,
    List.pairwise_map]
  exact (pairwise_marks 0 m).imp fun hlt => Nat.ne_of_lt hlt

/-- What satisfied alternatives have given up stays the same. -/
theorem Runs.givesUp_iff (hr : Runs r now p h m) (hf : p.Fits (ofRule r).size)
    (hx : p.isSatisfied x = true) (os : List Offering) :
    (ofRule r).GivesUp ((ofRule r).offerEach p os) x n ↔ (ofRule r).GivesUp p x n := by
  have hsame : ∀ {y : Nat}, (ofRule r).Below x y →
      ((ofRule r).offerEach p os).isSatisfied y = p.isSatisfied y :=
    fun hy => (hr.frozen hf hx hy os).1
  have hsat := (hsame .self).trans hx
  simp only [GivesUp, hx, hsat, true_and]
  refine exists_congr fun a => exists_congr fun b => and_congr_right fun hnode => ?_
  rw [hsame (.child .self hnode List.mem_cons_self),
    hsame (.child .self hnode (List.mem_cons_of_mem _ List.mem_cons_self))]

/-- An entry keeps its time. -/
theorem Runs.time_eq (hr : Runs r now p h m) {now' t t' : Nat} {os : List Offering}
    (hr' : Runs r now' ((ofRule r).offerEach p os) h'
      (MarkedRule.offerAll Offering.accepts m (os.zipIdx now)))
    (hn : (t, n) ∈ h) (hn' : (t', n) ∈ h') : t' = t := by
  obtain ⟨-, i, hk⟩ := hr.exists_leaf_of_mem hn
  have hk' : HasPart (MarkedRule.offerAll Offering.accepts m (os.zipIdx now)) 0 (.leaf i (some t)) n :=
    hk.offerAll rfl _
  obtain ⟨_, ht⟩ := hr'.ready.tells.part hk'
  exact (Option.some.inj ((ht.2 t').mp hn').2).symm

/-- The next offer, and what it may put into the history. -/
theorem Runs.exists_next (hr : Runs r now p h m) (o : Offering) :
    ∃ h', Runs r (now + 1) ((ofRule r).offerEach p [o]) h'
        (MarkedRule.offerAll Offering.accepts m ([o].zipIdx now)) ∧
      ∀ x ∈ h', x ∈ h ∨ x.1 = now := by
  obtain ⟨q, h', hq, hr', hrecent⟩ := hr.step o.accepts
  have hoff : (ofRule r).offerEach p [o] = q := congrArg Prod.snd hq
  exact ⟨h', hoff ▸ hr', hrecent⟩

/-- What was in a history and still is keeps its order, and what is of now comes after it. -/
theorem Timed.eq_kept_append (ht : Timed p h) (ht' : Timed q h') (hpast : ∀ x ∈ h, x.1 < now)
    (hrecent : ∀ x ∈ h', x ∈ h ∨ x.1 = now) :
    h' = h.filter (· ∈ h') ++ h'.filter (·.1 = now) := by
  have hsorted : (h.filter (· ∈ h') ++ h'.filter (·.1 = now)).Pairwise
      fun x y => x.1 < y.1 ∨ x.1 = y.1 ∧ x.2 < y.2 := by
    refine List.pairwise_append.mpr ⟨ht.sorted.filter _, ht'.sorted.filter _, ?_⟩
    intro x hx y hy
    have hxlt := hpast x (List.mem_of_mem_filter hx)
    have hynow : y.1 = now := by simpa using (List.mem_filter.mp hy).2
    exact .inl (hynow ▸ hxlt)
  have hne : ∀ {l : TimedHistory}, (l.Pairwise fun x y => x.1 < y.1 ∨ x.1 = y.1 ∧ x.2 < y.2) →
      l.Nodup := fun hl => hl.imp fun hxy heq => by
    subst heq
    simp at hxy
  have hperm : h'.Perm (h.filter (· ∈ h') ++ h'.filter (·.1 = now)) := by
    refine (List.perm_ext_iff_of_nodup (hne ht'.sorted) (hne hsorted)).mpr fun x => ?_
    simp only [List.mem_append, List.mem_filter, decide_eq_true_eq]
    constructor
    · intro hx
      exact (hrecent x hx).imp (fun hxh => ⟨hxh, hx⟩) fun hxnow => ⟨hx, hxnow⟩
    · rintro (hx | hx)
      · exact hx.2
      · exact hx.1
  exact hperm.eq_of_pairwise (fun x y _ _ hxy hyx => by omega) ht'.sorted hsorted

/-- An entry of a history is kept just when its leaf is still in the next. -/
theorem Runs.mem_kept_iff (hr : Runs r now p h m) {now' : Nat} {os : List Offering}
    (hr' : Runs r now' ((ofRule r).offerEach p os) h'
      (MarkedRule.offerAll Offering.accepts m (os.zipIdx now)))
    (hn : n ∈ p.history) :
    n ∈ (h.filter (· ∈ h')).map (·.2) ↔ n ∈ ((ofRule r).offerEach p os).history := by
  obtain ⟨t, ht⟩ := hr.ready.timed.mem_history.mp hn
  rw [hr'.ready.timed.mem_history]
  constructor
  · intro hk
    obtain ⟨x, hx, rfl⟩ := List.mem_map.mp hk
    exact ⟨x.1, by simpa using (List.mem_filter.mp hx).2⟩
  · rintro ⟨t', ht'⟩
    obtain rfl := hr.time_eq hr' ht ht'
    exact List.mem_map.mpr ⟨(t', n), List.mem_filter.mpr ⟨ht, by simpa using ht'⟩, rfl⟩

/-- A leaf of the next history that was satisfied before was in the history. -/
theorem Runs.mem_history_of_next (hr : Runs r now p h m) (hm : m.InTurn)
    (hf : p.Fits (ofRule r).size) {now' : Nat} {os : List Offering}
    (hr' : Runs r now' ((ofRule r).offerEach p os) h'
      (MarkedRule.offerAll Offering.accepts m (os.zipIdx now)))
    (hs : p.isSatisfied n = true) (hn : n ∈ ((ofRule r).offerEach p os).history) :
    n ∈ p.history := by
  by_contra hnot
  obtain ⟨x, hx⟩ := (hr.not_mem_history_iff hm (hr'.of_mem_history hn).1 hs).mp hnot
  exact hr'.not_mem_of_givesUp ((hr.givesUp_iff hf hx.1 os).mpr hx) hn

/-- What an offer does to the history. -/
theorem Runs.history_next (hr : Runs r now p h m) (hm : m.InTurn) (hf : p.Fits (ofRule r).size)
    (o : Offering) :
    ∃ kept new, ((ofRule r).offerEach p [o]).history = kept ++ new ∧ kept.Sublist p.history ∧
      (∀ n ∈ p.history, n ∉ kept ↔
        ∃ x, p.isSatisfied x = false ∧ (ofRule r).GivesUp ((ofRule r).offerEach p [o]) x n) ∧
      ∀ n ∈ new, ((ofRule r).interaction? n).isSome = true ∧ p.isSatisfied n = false ∧
        ((ofRule r).offerEach p [o]).isSatisfied n = true := by
  obtain ⟨h', hr', hrecent⟩ := hr.exists_next o
  have hm' := inTurn_offerAll Offering.accepts hm ([o].zipIdx now)
  have hpast : ∀ x ∈ h, x.1 < now :=
    fun x hx => (hr.ready.past x hx).resolve_right fun hlt => Nat.not_lt_zero _ hlt.2
  have hsplit := hr.ready.timed.eq_kept_append hr'.ready.timed hpast hrecent
  refine ⟨(h.filter (· ∈ h')).map (·.2), (h'.filter (·.1 = now)).map (·.2), ?_, ?_, ?_, ?_⟩
  · rw [← hr'.ready.timed.history, ← List.map_append, ← hsplit]
  · rw [← hr.ready.timed.history]
    exact List.filter_sublist.map _
  · intro n hn
    obtain ⟨hleaf, hs⟩ := hr.of_mem_history hn
    have hs' := (offerEach_grows (ofRule r) p [o]).satisfied n hs
    rw [hr.mem_kept_iff hr' hn, hr'.not_mem_history_iff hm' hleaf hs']
    refine exists_congr fun x => (and_iff_right_of_imp fun hx => ?_).symm
    -- what had been given up before was not in the history
    rw [← Bool.not_eq_true]
    exact fun hxs => hr.not_mem_of_givesUp ((hr.givesUp_iff hf hxs [o]).mp hx) hn
  · intro n hn
    obtain ⟨x, hx, rfl⟩ := List.mem_map.mp hn
    obtain ⟨hx, hnow⟩ : x ∈ h' ∧ x.1 = now := by simpa using hx
    have hmem := hr'.ready.timed.mem_history.mpr ⟨x.1, hx⟩
    obtain ⟨hleaf, hs⟩ := hr'.of_mem_history hmem
    refine ⟨hleaf, ?_, hs⟩
    -- a leaf that was satisfied before has no entry of now
    rw [← Bool.not_eq_true]
    intro hps
    obtain ⟨t, ht⟩ := hr.ready.timed.mem_history.mp (hr.mem_history_of_next hm hf hr' hps hmem)
    have htime : x.1 = t := hr.time_eq hr' ht hx
    exact Nat.ne_of_lt (hpast _ ht) (htime.symm.trans hnow)

/-- **The history is the satisfied leaves that survive.** Whatever has been offered, the history has
no leaf twice, and of the satisfied leaves it misses those that alternatives have given up. An offer
takes from it the leaves that alternatives give up by becoming satisfied, keeps all others in their
order, and puts leaves that it satisfies behind them. -/
theorem history_survives (r : Rule) (os : List Offering) (o : Offering) :
    let plan := ofRule r
    let p := plan.offerEach plan.fresh os
    let q := (plan.offer o.evidence o.submission p).2
    p.history.Nodup ∧
    (∀ n ∈ p.history, (plan.interaction? n).isSome = true ∧ p.isSatisfied n = true) ∧
    (∀ n, (plan.interaction? n).isSome = true → p.isSatisfied n = true →
      (n ∉ p.history ↔ ∃ x, plan.GivesUp p x n)) ∧
    -- what the offer does
    ∃ kept new, q.history = kept ++ new ∧ kept.Sublist p.history ∧
      (∀ n ∈ p.history, n ∉ kept ↔ ∃ x, p.isSatisfied x = false ∧ plan.GivesUp q x n) ∧
      ∀ n ∈ new, (plan.interaction? n).isSome = true ∧ p.isSatisfied n = false ∧
        q.isSatisfied n = true := by
  intro plan p q
  obtain ⟨h, m, hr, hm⟩ := exists_runs_inTurn r os
  have hf := fits_offerEach r os
  refine ⟨hr.nodup_history, fun n hn => hr.of_mem_history hn,
    fun n hn hs => hr.not_mem_history_iff hm hn hs, ?_⟩
  exact hr.history_next hm hf o

/-- Both alternatives are advanced by one touch; when the second is satisfied, the leaf of the first
goes. -/
example :
    let red : Interaction := .touch ⟨.red, .circle, none⟩
    let blue : Interaction := .touch ⟨.blue, .circle, none⟩
    let black : Interaction := .touch ⟨.black, .circle, none⟩
    let plan := ofRule (.firstOrSecond (.inOrder [.leaf red, .leaf blue])
      (.inOrder [.leaf red, .leaf black]))
    let p := plan.offerEach plan.fresh [⟨.centers, .plain red⟩]
    p.history = [0, 3] ∧ (plan.offerEach p [⟨.centers, .plain black⟩]).history = [3, 4] := by
  decide +kernel

end Plan

end BoardTrial
