import BoardTrial.Proofs.Growth
import BoardTrial.Proofs.LoggedRule

/-!
# The history is enough

In the rule of a text alternatives are leaves (`Rule.LeafAlternatives`), so an offer marks one leaf
at most, and it does what the interaction of that leaf does without a release
(`MarkedRule.exists_takenAs`): an earlier clause that would take the interaction would have taken
the offer. So **who does again what is in the history, and nothing else, comes to the same
progress** (`Plan.history_replays`).
-/

namespace BoardTrial

open MarkedRule Progress

/-- Alternatives are leaves. -/
inductive Rule.LeafAlternatives : Rule → Prop where
  /-- `nothing` has no alternatives. -/
  | doNothing : LeafAlternatives .doNothing
  /-- One leaf is no alternative. -/
  | leaf (i : Interaction) : LeafAlternatives (.leaf i)
  /-- Alternatives in steps are leaves. -/
  | inOrder {rs : List Rule} : (∀ r ∈ rs, LeafAlternatives r) → LeafAlternatives (.inOrder rs)
  /-- Alternatives in clauses are leaves. -/
  | inAnyOrder {rs : List Rule} : (∀ r ∈ rs, LeafAlternatives r) →
      LeafAlternatives (.inAnyOrder rs)
  /-- Both alternatives are leaves. -/
  | firstOrSecond {a b : Rule} : a.IsLeaf → b.IsLeaf → LeafAlternatives (.firstOrSecond a b)

/-- In the rule of a text alternatives are leaves. -/
theorem Rule.Canonical.leafAlternatives {r : Rule} (h : r.Canonical) : r.LeafAlternatives := by
  have hclause : ∀ {r : Rule}, r.IsClause → r.LeafAlternatives := by
    rintro _ (_ | _)
    · exact .leaf _
    · exact .firstOrSecond ⟨_, rfl⟩ ⟨_, rfl⟩
  have hstep : ∀ {r : Rule}, r.IsStep → r.LeafAlternatives := by
    rintro _ (hc | ⟨-, hall⟩)
    · exact hclause hc
    · exact .inAnyOrder fun r hr => hclause (hall r hr)
  cases h with
  | doNothing => exact .doNothing
  | step hs => exact hstep hs
  | steps _ hall => exact .inOrder fun r hr => hstep (hall r hr)

/-! ### What an offer adds to a log -/

namespace Log

/-- An entry has been added, anywhere. -/
def Adds (l : Log) (x : Nat × Interaction) (l' : Log) : Prop :=
  ∃ u v, l = u ++ v ∧ l' = u ++ x :: v

variable {l l' : Log} {x : Nat × Interaction}

theorem Adds.append_left (h : l.Adds x l') (k : Log) : Adds (k ++ l) x (k ++ l') := by
  obtain ⟨u, v, rfl, rfl⟩ := h
  exact ⟨k ++ u, v, by simp, by simp⟩

theorem Adds.append_right (h : l.Adds x l') (k : Log) : Adds (l ++ k) x (l' ++ k) := by
  obtain ⟨u, v, rfl, rfl⟩ := h
  exact ⟨u, v ++ k, by simp, by simp⟩

/-- In the order of times an entry that is later than all others comes last. -/
theorem Adds.byTime (h : l.Adds x l') (hl : ∀ y ∈ l, y.1 < x.1) :
    l'.byTime = l.byTime ++ [x] := by
  have hsorted : (l.byTime ++ [x]).Pairwise fun x y => x.1 ≤ y.1 := by
    refine List.pairwise_append.mpr ⟨pairwise_byTime l, List.pairwise_singleton _ _, ?_⟩
    intro y hy z hz
    rw [List.mem_singleton.mp hz]
    exact Nat.le_of_lt (hl y ((List.mergeSort_perm l _).mem_iff.mp hy))
  refine eq_of_filter (pairwise_byTime l') hsorted fun t => ?_
  obtain ⟨u, v, rfl, rfl⟩ := h
  rw [filter_byTime, List.filter_append, List.filter_append, filter_byTime, List.filter_append,
    List.filter_cons, List.filter_singleton]
  by_cases ht : (x.1 == t) = true
  · -- nothing that was there has the time of the new entry
    have hv : v.filter (·.1 == t) = [] := by
      rw [List.filter_eq_nil_iff]
      intro y hy
      have hlt := hl y (List.mem_append_right _ hy)
      rw [beq_iff_eq] at ht ⊢
      omega
    simp [ht, hv]
  · simp [ht]

end Log

namespace MarkedRule

variable {accepts accepts' : Interaction → Bool} {now : Nat} {m : MarkedRule}

/-- A set does not ignore what one of its clauses does not ignore. -/
theorem offer_inAnyOrder_ne_ignored {ms : List MarkedRule} (hm : m ∈ ms)
    (h : (offer accepts now m).1 ≠ .ignored) :
    (offer accepts now (.inAnyOrder ms)).1 ≠ .ignored := by
  rcases exists_first_not_ignored accepts now ms with hall | ⟨pre, k, post, rfl, hpre, hk⟩
  · exact absurd (hall m hm) h
  · rw [offer, offerSome_append hpre hk]
    exact mt (outcome_eq_ignored_iff _ _).mp hk

/-- Who is accepted for more is not ignored more often. -/
theorem Offered.ne_ignored {m' : MarkedRule} {o : Offer} (h : Offered accepts now m o m')
    (ho : o ≠ .ignored) (himp : ∀ i, accepts i = true → accepts' i = true) :
    (offer accepts' now m).1 ≠ .ignored := by
  induction h with
  | ignored m => exact absurd rfl ho
  | leaf hi => simp [offer, himp _ hi]
  | step hpre hm hne _ ih =>
    rw [offer, offerNext_append accepts' now _ hpre hm]
    exact mt (outcome_eq_ignored_iff _ _).mp (ih hne)
  | clause _ hne _ ih => exact offer_inAnyOrder_ne_ignored (by simp) (ih hne)
  | first ha hb _ ih => exact offer_firstOrSecond_ne_ignored ha hb (.inl (ih (by simp)))
  | second ha hb _ _ _ _ ihb => exact offer_firstOrSecond_ne_ignored ha hb (.inr (ihb (by simp)))
  | both ha hb _ _ _ _ iha ihb =>
    apply offer_firstOrSecond_ne_ignored ha hb
    exact (Offer.either_ne_ignored ho).imp iha ihb

/-- What is ignored is ignored if it is accepted for less. -/
theorem offer_ignored_of_imp (himp : ∀ i, accepts' i = true → accepts i = true)
    (h : (offer accepts now m).1 = .ignored) : (offer accepts' now m).1 = .ignored := by
  by_contra hne
  exact (offered accepts' now m).ne_ignored hne himp h

/-! ### One leaf takes an offer -/

/-- Leaf `i` takes an offer, and no other leaf does: its interaction would have done the same. -/
structure TakenAs (accepts : Interaction → Bool) (now : Nat) (m : MarkedRule) (i : Interaction) :
    Prop where
  /-- The leaf waits for the submission. -/
  accepted : accepts i = true
  /-- Its interaction does what the submission does. -/
  same : offer (Exact i) now m = offer accepts now m
  /-- One leaf is marked. -/
  adds : Log.Adds m.log (now, i) (offer accepts now m).2.log

/-- A leaf that does not ignore an offer takes it. -/
theorem takenAs_leaf {i : Interaction} {time : Option Nat}
    (h : (offer accepts now (.leaf i time)).1 ≠ .ignored) :
    TakenAs accepts now (.leaf i time) i := by
  cases time with
  | some t => exact absurd (by rw [offer_of_isDone accepts now rfl]) h
  | none =>
    have hi : accepts i = true := by
      by_contra hi
      simp [offer, hi] at h
    refine ⟨hi, ?_, [], [], ?_, ?_⟩
    · simp [offer, hi]
    · simp [log]
    · simp [offer, hi, log]

/-- One of two leaves takes an offer that they do not ignore as alternatives. -/
theorem exists_takenAs_alternatives {i j : Interaction} {s t : Option Nat}
    (h : (offer accepts now (.firstOrSecond (.leaf i s) (.leaf j t))).1 ≠ .ignored) :
    ∃ k, TakenAs accepts now (.firstOrSecond (.leaf i s) (.leaf j t)) k := by
  have hd := (offered accepts now _).not_isDone h
  obtain ⟨rfl, rfl⟩ : s = none ∧ t = none := by simpa [isDone] using hd
  by_cases hi : accepts i = true
  · refine ⟨i, hi, ?_, [], [], ?_, ?_⟩
    · simp [offer, isDone, hi]
    · simp [log]
    · simp [offer, isDone, hi, log]
  · have hj : accepts j = true := by
      by_contra hj
      simp [offer, isDone, hi, hj, Offer.either] at h
    -- the first leaf would have taken its own interaction
    have hji : j ≠ i := fun hji => hi (hji ▸ hj)
    refine ⟨j, hj, ?_, [], [], ?_, ?_⟩
    · simp [offer, isDone, hi, hj, hji]
    · simp [log, isDone]
    · simp [offer, isDone, hi, hj, log]

/-- The first step that is not done takes an offer as its leaf does. -/
theorem TakenAs.step {pre : List MarkedRule} {i : Interaction} (h : TakenAs accepts now m i)
    (post : List MarkedRule) (hpre : areDone pre = true) (hm : m.isDone = false) :
    TakenAs accepts now (.inOrder (pre ++ m :: post)) i := by
  refine ⟨h.accepted, ?_, ?_⟩
  · rw [offer, offerNext_append _ now post hpre hm, h.same, offer,
      offerNext_append accepts now post hpre hm]
  · rw [offer, offerNext_append accepts now post hpre hm]
    simp only [log, logs_append, logs]
    exact (h.adds.append_right _).append_left _

/-- The first clause that does not ignore an offer takes it as its leaf does. -/
theorem TakenAs.clause {pre : List MarkedRule} {i : Interaction} (h : TakenAs accepts now m i)
    (post : List MarkedRule) (hpre : ∀ k ∈ pre, (offer accepts now k).1 = .ignored)
    (hm : (offer accepts now m).1 ≠ .ignored) :
    TakenAs accepts now (.inAnyOrder (pre ++ m :: post)) i := by
  have himp : ∀ j, Exact i j = true → accepts j = true := by
    intro j hj
    rw [← eq_of_beq hj]
    exact h.accepted
  have hpre' : ∀ k ∈ pre, (offer (Exact i) now k).1 = .ignored :=
    fun k hk => offer_ignored_of_imp himp (hpre k hk)
  refine ⟨h.accepted, ?_, ?_⟩
  · rw [offer, offerSome_append hpre' (by rwa [h.same]), h.same, offer, offerSome_append hpre hm]
  · rw [offer, offerSome_append hpre hm]
    simp only [log, logs_append, logs]
    exact (h.adds.append_right _).append_left _

/-- **An offer that is not ignored is taken by one leaf**, if alternatives are leaves. -/
theorem exists_takenAs (hm : m.rule.LeafAlternatives) (h : (offer accepts now m).1 ≠ .ignored) :
    ∃ i, TakenAs accepts now m i := by
  induction m with
  | doNothing => exact absurd rfl h
  | leaf i time => exact ⟨i, takenAs_leaf h⟩
  | inOrder ms ih =>
    have hd := (offered accepts now _).not_isDone h
    obtain ⟨pre, m, post, rfl, hpre, hmd⟩ := exists_first_not_done hd
    rw [offer, offerNext_append accepts now post hpre hmd] at h
    have hne : (offer accepts now m).1 ≠ .ignored := fun ho => h (by rw [ho]; rfl)
    cases hm with
    | inOrder hall =>
      rw [rules_eq_map, List.forall_mem_map] at hall
      obtain ⟨i, hi⟩ := ih m (by simp) (hall m (by simp)) hne
      exact ⟨i, hi.step post hpre hmd⟩
  | inAnyOrder ms ih =>
    rcases exists_first_not_ignored accepts now ms with hall | ⟨pre, m, post, rfl, hpre, hne⟩
    · exact absurd (by rw [offer, offerSome_of_ignored hall]; rfl) h
    · cases hm with
      | inAnyOrder hall =>
        rw [rules_eq_map, List.forall_mem_map] at hall
        obtain ⟨i, hi⟩ := ih m (by simp) (hall m (by simp)) hne
        exact ⟨i, hi.clause post hpre hne⟩
  | firstOrSecond a b _ _ =>
    cases hm with
    | firstOrSecond ha hb =>
      obtain ⟨i, hi⟩ := ha
      obtain ⟨j, hj⟩ := hb
      cases a <;> cases hi
      cases b <;> cases hj
      exact exists_takenAs_alternatives h

end MarkedRule

/-! ### What a progress tells determines it -/

namespace Progress

/-- There are flags and cursors for `n` nodes and no others. -/
def Fits (p : Progress) (n : Nat) : Prop := p.satisfied.size = n ∧ p.cursor.size = n

variable {p q : Progress} {h k : TimedHistory} {n : Nat}

theorem Fits.grows (hp : p.Fits n) (hg : p.Grows q) : q.Fits n :=
  ⟨hg.satisfied_size.trans hp.1, hg.cursor_size.trans hp.2⟩

theorem Fits.eq (hp : p.Fits n) (hq : q.Fits n)
    (hat : ∀ i, i < n → q.isSatisfied i = p.isSatisfied i ∧ q.cursorAt i = p.cursorAt i)
    (hh : q.history = p.history) : q = p := by
  obtain ⟨s, c, l⟩ := p
  obtain ⟨s', c', l'⟩ := q
  obtain ⟨hs, hc⟩ := hp
  obtain ⟨hs', hc'⟩ := hq
  have heqs : s' = s := by
    refine Array.ext (hs'.trans hs.symm) fun i hi hi' => ?_
    have := (hat i (hs ▸ hi')).1
    simpa [isSatisfied, Array.getD_eq_getD_getElem?, hi, hi'] using this
  have heqc : c' = c := by
    refine Array.ext (hc'.trans hc.symm) fun i hi hi' => ?_
    have := (hat i (hc ▸ hi')).2
    simpa [cursorAt, Array.getD_eq_getD_getElem?, hi, hi'] using this
  subst heqs heqc hh
  rfl

theorem IsAt.agree {done : Bool} {c : Nat} (hp : p.IsAt n done c) (hq : q.IsAt n done c) :
    q.isSatisfied n = p.isSatisfied n ∧ q.cursorAt n = p.cursorAt n :=
  ⟨hq.1.trans hp.1.symm, hq.2.trans hp.2.symm⟩

mutual

/-- Two progresses that tell the same rule have the same flags and cursors at its nodes. -/
theorem Tells.agree : ∀ {m : MarkedRule} {base : Nat} {c c' : Bool}, p.Tells h base c m →
    q.Tells k base c' m → ∀ n, base ≤ n → n < base + m.width →
      q.isSatisfied n = p.isSatisfied n ∧ q.cursorAt n = p.cursorAt n
  | .doNothing, base, _, _, hp, hq, n, hlo, hhi | .leaf _ _, base, _, _, hp, hq, n, hlo, hhi => by
    obtain rfl : base = n := Nat.le_antisymm hlo (Nat.le_of_lt_succ hhi)
    exact hp.1.agree hq.1
  | .inOrder ms, base, _, _, hp, hq, n, hlo, hhi
  | .inAnyOrder ms, base, _, _, hp, hq, n, hlo, hhi => by
    rcases Nat.lt_succ_iff_lt_or_eq.mp hhi with hlt | heq
    · exact TellsAll.agree hp.1 hq.1 n hlo hlt
    · change n = base + widths ms at heq
      subst heq
      exact hp.2.1.agree hq.2.1
  | .firstOrSecond a b, base, _, _, hp, hq, n, hlo, hhi => by
    change n < base + (a.width + b.width + 1) at hhi
    rcases Nat.lt_or_ge n (base + a.width) with hlt | hge
    · exact Tells.agree hp.1 hq.1 n hlo hlt
    rcases Nat.lt_or_ge n (base + a.width + b.width) with hlt | hge'
    · exact Tells.agree hp.2.1 hq.2.1 n hge hlt
    · obtain rfl : n = base + a.width + b.width := by omega
      exact hp.2.2.1.agree hq.2.2.1

theorem TellsAll.agree : ∀ {ms : List MarkedRule} {base : Nat} {c c' : Bool},
    p.TellsAll h base c ms → q.TellsAll k base c' ms → ∀ n, base ≤ n → n < base + widths ms →
      q.isSatisfied n = p.isSatisfied n ∧ q.cursorAt n = p.cursorAt n
  | [], base, _, _, _, _, n, hlo, hhi => absurd hhi (Nat.not_lt.mpr hlo)
  | m :: ms, base, _, _, hp, hq, n, hlo, hhi => by
    rw [widths_cons] at hhi
    rcases Nat.lt_or_ge n (base + m.width) with hlt | hge
    · exact Tells.agree hp.1 hq.1 n hlo hlt
    · exact TellsAll.agree hp.2 hq.2 n hge (by omega)

end

end Progress

namespace Plan

variable {plan : Plan} {r : Rule} {now now' : Nat} {p q : Progress} {h k : TimedHistory}
  {m : MarkedRule}

theorem fits_fresh (plan : Plan) : plan.fresh.Fits plan.size := by
  have hzero : (Progress.zero plan.size).Fits plan.size := by simp [Progress.zero, Fits]
  have hgrows : ∀ (ns : List Nat) (p : Progress), p.Grows (ns.foldl plan.settle p) := by
    intro ns
    induction ns with
    | nil => exact .refl
    | cons n ns ih => exact fun p => (settle_grows plan p n).trans (ih _)
  exact hzero.grows (hgrows _ _)

/-- **A marked rule is told by one progress only.** -/
theorem Runs.unique (hp : Runs r now p h m) (hq : Runs r now' q k m) (hfp : p.Fits (ofRule r).size)
    (hfq : q.Fits (ofRule r).size) : q = p := by
  have hperm : k.Perm h := hq.perm_marks.trans hp.perm_marks.symm
  have hkh : k = h :=
    hperm.eq_of_pairwise (fun x y _ _ hxy hyx => by omega) hq.ready.timed.sorted
      hp.ready.timed.sorted
  refine hfp.eq hfq (fun n hn => ?_) ?_
  · refine hp.ready.tells.agree hq.ready.tells n (Nat.zero_le n) ?_
    rwa [Nat.zero_add, width, hp.rule, ← size_ofRule]
  · rw [← hp.ready.timed.history, ← hq.ready.timed.history, hkh]

mutual

/-- What is marked is a leaf. -/
theorem isSome_interaction?_of_mem_marks : ∀ {base : Nat} {m : MarkedRule} {x : Nat × Nat},
    plan.Holds base m.rule → x ∈ m.marks base → (plan.interaction? x.2).isSome = true
  | base, .leaf i time, x, hh, hx => by
    obtain ⟨t, -, rfl⟩ := List.mem_map.mp hx
    rw [interaction?, hh.1]
    rfl
  | base, .inOrder ms, x, hh, hx | base, .inAnyOrder ms, x, hh, hx =>
    isSome_interaction?_of_mem_marksOfAll hh.1 hx
  | base, .firstOrSecond a b, x, hh, hx => by
    rcases mem_marks_firstOrSecond hx with hx | hx
    · exact isSome_interaction?_of_mem_marks hh.1 hx
    · have hb : plan.Holds (base + a.width) b.rule := hh.2.1
      exact isSome_interaction?_of_mem_marks hb hx

theorem isSome_interaction?_of_mem_marksOfAll : ∀ {base : Nat} {ms : List MarkedRule}
    {x : Nat × Nat}, plan.HoldsAll base (rules ms) → x ∈ marksOfAll base ms →
      (plan.interaction? x.2).isSome = true
  | base, m :: ms, x, hh, hx => by
    rcases List.mem_append.mp hx with hx | hx
    · exact isSome_interaction?_of_mem_marks hh.1 hx
    · exact isSome_interaction?_of_mem_marksOfAll
        (show plan.HoldsAll (base + m.width) (rules ms) from hh.2) hx

end

/-- The history names leaves only. -/
theorem Runs.map_history (hr : Runs r now p h m) :
    p.history.map (ofRule r).interaction? =
      (p.history.filterMap (ofRule r).interaction?).map some := by
  have hsome : ∀ n ∈ p.history, ((ofRule r).interaction? n).isSome = true := by
    intro n hn
    rw [← hr.ready.timed.history] at hn
    obtain ⟨x, hx, rfl⟩ := List.mem_map.mp hn
    exact isSome_interaction?_of_mem_marks hr.ready.holds (hr.perm_marks.mem_iff.mp hx)
  generalize p.history = ns at hsome
  induction ns with
  | nil => rfl
  | cons n ns ih =>
    obtain ⟨i, hi⟩ := Option.isSome_iff_exists.mp (hsome n List.mem_cons_self)
    rw [List.map_cons, hi, List.filterMap_cons_some hi, List.map_cons,
      ih fun k hk => hsome k (List.mem_cons_of_mem _ hk)]

/-! ### Replays -/

/-- Interactions that are offered without a release, with evidence `e`. -/
def plainly (e : Evidence) (w : List Interaction) : List Offering := w.map fun i => ⟨e, .plain i⟩

theorem offerEach_append (plan : Plan) (p : Progress) (os os' : List Offering) :
    plan.offerEach p (os ++ os') = plan.offerEach (plan.offerEach p os) os' :=
  List.foldl_append

theorem answers_append (plan : Plan) (p : Progress) (os os' : List Offering) :
    plan.answers p (os ++ os') = plan.answers p os ++ plan.answers (plan.offerEach p os) os' := by
  induction os generalizing p with
  | nil => rfl
  | cons o os ih =>
    rw [List.cons_append, answers_cons, answers_cons, ih, List.cons_append]
    rfl

/-- What counts was marked before now. -/
theorem Runs.lt_of_mem_log (hr : Runs r now p h m) {x : Nat × Interaction} (hx : x ∈ m.log) :
    x.1 < now := by
  rw [← filterMap_marks hr.ready.holds] at hx
  obtain ⟨y, hy, hyx⟩ := List.mem_filterMap.mp hx
  obtain ⟨i, -, rfl⟩ := Option.map_eq_some_iff.mp hyx
  rcases hr.ready.past y (hr.perm_marks.mem_iff.mpr hy) with hlt | ⟨-, hlt⟩
  · exact hlt
  · exact absurd hlt (Nat.not_lt_zero _)

/-- What an offer does that is not ignored is done by one interaction, which it adds to those in the
history. -/
theorem Runs.exists_plain (hr : Runs r now p h m) (hm : r.LeafAlternatives)
    (hf : p.Fits (ofRule r).size) {o : Offering}
    (ho : ((ofRule r).offer o.evidence o.submission p).1 ≠ .ignored) :
    ∃ i, ((ofRule r).offer o.evidence o.submission p).2.history.filterMap (ofRule r).interaction? =
        p.history.filterMap (ofRule r).interaction? ++ [i] ∧
      ∀ e, (ofRule r).offer e (.plain i) p = (ofRule r).offer o.evidence o.submission p := by
  obtain ⟨hanswer, h', hr'⟩ := hr.next o
  rw [hanswer] at ho
  obtain ⟨i, hi⟩ := exists_takenAs (by rwa [hr.rule]) ho
  refine ⟨i, ?_, fun e => ?_⟩
  · have hlog := hi.adds.byTime fun x hx => hr.lt_of_mem_log hx
    rw [hr'.filterMap_history, hr.filterMap_history, LoggedRule.accepted, LoggedRule.accepted,
      log_logged, log_logged, hlog, List.map_append, List.map_singleton]
  · obtain ⟨hanswer', k, hk⟩ := hr.next ⟨e, .plain i⟩
    have hacc : Offering.accepts ⟨e, .plain i⟩ = Exact i := e.accepts_plain i
    rw [hacc, hi.same] at hanswer' hk
    refine Prod.ext (hanswer'.trans hanswer.symm) ?_
    exact hr'.unique hk (hf.grows (offerAt_grows _ _)) (hf.grows (offerAt_grows _ _))

/-- The interactions in the history of a progress, offered from the start on, come to the progress,
and none is ignored. -/
def Replays (plan : Plan) (e : Evidence) (p : Progress) : Prop :=
  plan.offerEach plan.fresh (plainly e (p.history.filterMap plan.interaction?)) = p ∧
    .ignored ∉ plan.answers plan.fresh (plainly e (p.history.filterMap plan.interaction?))

/-- A replay is extended by every offer. -/
theorem Runs.replays (hr : Runs r now p h m) (hm : r.LeafAlternatives)
    (hf : p.Fits (ofRule r).size) {e : Evidence} (hp : (ofRule r).Replays e p) (o : Offering) :
    (ofRule r).Replays e ((ofRule r).offer o.evidence o.submission p).2 := by
  by_cases ho : ((ofRule r).offer o.evidence o.submission p).1 = .ignored
  · rwa [hr.eq_of_ignored ho]
  obtain ⟨i, hw, hsame⟩ := hr.exists_plain hm hf ho
  obtain ⟨hp, hanswers⟩ := hp
  unfold Replays
  rw [hw, plainly, List.map_append, List.map_singleton, ← plainly, offerEach_append, answers_append,
    hp]
  refine ⟨congrArg Prod.snd (hsame e), ?_⟩
  rw [List.mem_append, not_or]
  refine ⟨hanswers, ?_⟩
  show .ignored ∉ [((ofRule r).offer e (.plain i) p).1]
  rw [hsame, List.mem_singleton]
  exact Ne.symm ho

/-- Whatever has been offered can be replayed. -/
theorem replays_offerEach (hm : r.LeafAlternatives) (e : Evidence) (os : List Offering) :
    (ofRule r).Replays e ((ofRule r).offerEach (ofRule r).fresh os) := by
  induction os using List.reverseRecOn with
  | nil =>
    have hnil : (ofRule r).fresh.history = [] := (runs_fresh r).ready.timed.history.symm
    simp [Replays, Plan.offerEach, hnil, plainly, answers]
  | append_singleton os o ih =>
    obtain ⟨h, hr⟩ := (runs_fresh r).offerEach os
    rw [offerEach_append]
    exact hr.replays hm ((fits_fresh _).grows (offerEach_grows _ _ os)) ih o

/-- **The history of a progress says all there is to it**, if the rule has been read from a text.
Whatever has been offered, with whatever evidence, the history names leaves, and who offers their
interactions again, in this order and without any release, comes from the start to the same
progress. None of them is ignored. -/
theorem history_replays {src : String} {r : Rule} (hsrc : Rule.read src = .ok r)
    (os : List Offering) (e : Evidence) :
    let plan := ofRule r
    let p := plan.offerEach plan.fresh os
    let w := p.history.filterMap plan.interaction?
    p.history.map plan.interaction? = w.map some ∧
      plan.offerEach plan.fresh (plainly e w) = p ∧
      .ignored ∉ plan.answers plan.fresh (plainly e w) := by
  intro plan p w
  obtain ⟨h, hr⟩ := (runs_fresh r).offerEach os
  refine ⟨hr.map_history, ?_⟩
  exact replays_offerEach (Rule.canonical_of_read hsrc).leafAlternatives e os

/-- A release that shows a leaf is replayed by the interaction of the leaf. -/
theorem history_replays_put_left_of :
    let red : Token := ⟨.red, .circle, none⟩
    let blue : Token := ⟨.blue, .square, none⟩
    let plan := ofRule (.leaf (.putLeftOf red blue))
    let touch : Submission := ⟨.touch red, some ⟨red, .zero, .zero, .empty⟩⟩
    Rule.read "put red circle left of blue square" = .ok (.leaf (.putLeftOf red blue)) ∧
      plan.offerEach plan.fresh [⟨fun _ _ => false, .plain (.putLeftOf red blue)⟩] =
        plan.offerEach plan.fresh [⟨fun _ _ => true, touch⟩] ∧
      (plan.offerEach plan.fresh [⟨fun _ _ => true, touch⟩]).history = [0] := by
  intro red blue plan touch
  have hsrc :
      Rule.read "put red circle left of blue square" = .ok (.leaf (.putLeftOf red blue)) := by
    with_unfolding_all rfl
  have hhistory : (plan.offerEach plan.fresh [⟨fun _ _ => true, touch⟩]).history = [0] := by
    decide +kernel
  have hreplay := (history_replays hsrc [⟨fun _ _ => true, touch⟩] fun _ _ => false).2.1
  refine ⟨hsrc, ?_, hhistory⟩
  rw [hhistory] at hreplay
  exact hreplay

/-- Where a touch advances two alternatives, its second replay is ignored. -/
example :
    let red : Interaction := .touch ⟨.red, .circle, none⟩
    let blue : Interaction := .touch ⟨.blue, .circle, none⟩
    let black : Interaction := .touch ⟨.black, .circle, none⟩
    let plan := ofRule (.firstOrSecond (.inOrder [.leaf red, .leaf blue])
      (.inOrder [.leaf red, .leaf black]))
    let p := plan.offerEach plan.fresh [⟨.centers, .plain red⟩]
    plan.answers plan.fresh (plainly .centers (p.history.filterMap plan.interaction?)) =
      [.advanced, .ignored] := by
  decide +kernel

end Plan

end BoardTrial
