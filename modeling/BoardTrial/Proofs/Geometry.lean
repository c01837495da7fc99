import BoardTrial.Proofs.Results
import BoardTrial.Proofs.Recognition
import BoardTrial.Proofs.Growth

/-!
# What the places of tokens can change

Two runs with the same interactions may differ in the releases that go with them, and in the
evidence that is asked. That can make a difference only where a release shows a directional leaf of
the rule that acts with the released token (`Rule.ShownBy`). Any other submission does to a progress
what its interaction alone does (`Plan.offer_eq_plain`), and so do runs of such submissions.
-/

namespace BoardTrial

/-- A submission shows a leaf of the rule by where tokens are: it is the touch of a token that was
released, and the release shows a directional leaf that acts with that token. -/
def Rule.ShownBy (r : Rule) (e : Evidence) (s : Submission) : Prop :=
  ∃ t rel, s.interaction = .touch t ∧ s.release = some rel ∧ rel.token = t ∧
    ∃ i ∈ r.leaves, i.action.isDirectional = true ∧ i.primary = t ∧ e i rel = true

namespace Plan

variable {plan : Plan} {accepts accepts' : Interaction → Bool} {p q : Progress}

/-! ### The leaves of a plan -/

mutual

theorem mem_leaves_of_mem_layOut : ∀ {base : Nat} {r : Rule} {i : Interaction} {start : Nat},
    (Node.leaf i, start) ∈ r.layOut base → i ∈ r.leaves
  | _, .doNothing, _, _, h => by simp [Rule.layOut] at h
  | _, .leaf _, _, _, h => by
    simp only [Rule.layOut, List.mem_singleton, Prod.mk.injEq, Node.leaf.injEq] at h
    simp [Rule.leaves, h.1]
  | _, .inOrder _, _, _, h | _, .inAnyOrder _, _, _, h => by
    simp only [Rule.layOut, List.mem_append, List.mem_singleton, Prod.mk.injEq, reduceCtorEq,
      false_and, or_false] at h
    exact mem_leavesOfAll_of_mem_layOutAll h
  | _, .firstOrSecond _ _, _, _, h => by
    simp only [Rule.layOut, List.mem_append, List.mem_singleton, Prod.mk.injEq, reduceCtorEq,
      false_and, or_false] at h
    exact List.mem_append.mpr (h.imp mem_leaves_of_mem_layOut mem_leaves_of_mem_layOut)

theorem mem_leavesOfAll_of_mem_layOutAll : ∀ {base : Nat} {rs : List Rule} {i : Interaction}
    {start : Nat}, (Node.leaf i, start) ∈ Rule.layOutAll base rs → i ∈ Rule.leavesOfAll rs
  | _, [], _, _, h => by simp [Rule.layOutAll] at h
  | _, _ :: _, _, _, h =>
    List.mem_append.mpr ((List.mem_append.mp h).imp mem_leaves_of_mem_layOut
      mem_leavesOfAll_of_mem_layOutAll)

end

theorem mem_leaves_of_interaction? {r : Rule} {n : Nat} {i : Interaction}
    (h : (ofRule r).interaction? n = some i) : i ∈ r.leaves := by
  rw [interaction?] at h
  split at h
  · rename_i j hn
    cases h
    rw [node?, nodes_ofRule, List.getElem?_toArray] at hn
    obtain ⟨⟨x, start⟩, hx, hnode⟩ := List.mem_map.mp (List.mem_of_getElem? hn)
    obtain rfl : x = .leaf i := hnode
    exact mem_leaves_of_mem_layOut hx
  · cases h

/-! ### Offers that are accepted for the same leaves -/

/-- **Only the leaves of a plan are asked about.** -/
theorem offerAt_congr (h : ∀ n i, plan.interaction? n = some i → accepts i = accepts' i) (n : Nat)
    (p : Progress) : plan.offerAt accepts n p = plan.offerAt accepts' n p := by
  induction n using Nat.strongRecOn generalizing p with
  | ind n ih =>
    have hbelow : (fun c p => if _ : c < n then plan.offerAt accepts c p else (.ignored, p)) =
        fun c p => if _ : c < n then plan.offerAt accepts' c p else (.ignored, p) := by
      funext c p
      split
      · rename_i hc
        exact ih c hc p
      · rfl
    rw [offerAt, offerAt, hbelow]
    split
    · rfl
    split
    · rfl
    rename_i node hn
    cases node with
    | leaf i => rw [offerNode, offerNode, h n i (by rw [interaction?, hn])]
    | _ => rfl

/-- A leaf is satisfied only if it was so before, or the offer is accepted for it. -/
theorem Makes.accepts_leaf (h : plan.Makes accepts p q) {n : Nat} {i : Interaction}
    (hn : plan.interaction? n = some i) (hq : q.isSatisfied n = true) :
    p.isSatisfied n = true ∨ accepts i = true := by
  induction h with
  | nothing => exact .inl hq
  | @leaf q m j _ hm hj ih =>
    rw [Progress.isSatisfied_record, Progress.isSatisfied_satisfy, Bool.or_eq_true] at hq
    rcases hq with hq | hq
    · exact ih hq
    · obtain rfl := (of_decide_eq_true hq).1
      rw [interaction?, hm] at hn
      cases hn
      exact .inr hj
  | @satisfy q m _ hm ih =>
    rw [Progress.isSatisfied_satisfy, Bool.or_eq_true] at hq
    rcases hq with hq | hq
    · exact ih hq
    · obtain rfl := (of_decide_eq_true hq).1
      rw [hm] at hn
      cases hn
  | skip _ _ _ ih => exact ih hq
  | discard _ _ ih => exact ih hq

/-! ### Submissions that show no leaf -/

/-- A submission that shows no leaf is accepted for the leaf that is its interaction. -/
theorem accepts_of_not_shownBy {r : Rule} {e : Evidence} {s : Submission} (h : ¬r.ShownBy e s)
    {i : Interaction} (hi : i ∈ r.leaves) : e.accepts s i = (s.interaction == i) := by
  rw [Bool.eq_iff_iff, beq_iff_eq]
  constructor
  · intro hacc
    rcases Evidence.shows_of_accepts hacc with heq | ⟨rel, htouch, hrel, htoken, hdir, hshow⟩
    · exact heq
    · exact absurd ⟨i.primary, rel, htouch, hrel, htoken, i, hi, hdir, rfl, hshow⟩ h
  · intro heq
    simp [Evidence.accepts, heq]

/-- **Who shows no leaf does what the interaction alone does**, whatever the evidence. -/
theorem offer_eq_plain {r : Rule} {e : Evidence} {s : Submission} (h : ¬r.ShownBy e s)
    (e' : Evidence) (p : Progress) :
    (ofRule r).offer e s p = (ofRule r).offer e' (.plain s.interaction) p := by
  refine offerAt_congr (fun n i hn => ?_) _ p
  rw [accepts_of_not_shownBy h (mem_leaves_of_interaction? hn), Evidence.accepts_plain]

/-- So do runs of such submissions: what is answered, and what becomes of the progress. -/
theorem offerEach_eq_of_not_shownBy {r : Rule} {os os' : List Offering} (p : Progress)
    (hos : ∀ o ∈ os, ¬r.ShownBy o.evidence o.submission)
    (hos' : ∀ o ∈ os', ¬r.ShownBy o.evidence o.submission)
    (h : os.map (·.submission.interaction) = os'.map (·.submission.interaction)) :
    (ofRule r).answers p os = (ofRule r).answers p os' ∧
      (ofRule r).offerEach p os = (ofRule r).offerEach p os' := by
  induction os generalizing p os' with
  | nil =>
    obtain rfl := List.map_eq_nil_iff.mp h.symm
    exact ⟨rfl, rfl⟩
  | cons o os ih =>
    cases os' with
    | nil => cases h
    | cons o' os' =>
      rw [List.forall_mem_cons] at hos hos'
      obtain ⟨hi, hrest⟩ := List.cons.inj h
      have hoffer : (ofRule r).offer o.evidence o.submission p =
          (ofRule r).offer o'.evidence o'.submission p := by
        rw [offer_eq_plain hos.1 o.evidence p, offer_eq_plain hos'.1 o.evidence p]
        exact congrArg (fun i => (ofRule r).offer o.evidence (.plain i) p) hi
      rw [answers_cons, answers_cons, offerEach, offerEach, List.foldl_cons, List.foldl_cons, hoffer]
      obtain ⟨hanswers, heach⟩ :=
        ih ((ofRule r).offer o'.evidence o'.submission p).2 hos.2 hos'.2 hrest
      exact ⟨congrArg _ hanswers, heach⟩

/-- A rule without directional leaves is shown by nothing. -/
theorem not_shownBy {r : Rule} (h : ∀ i ∈ r.leaves, i.action.isDirectional = false) (e : Evidence)
    (s : Submission) : ¬r.ShownBy e s := by
  rintro ⟨-, -, -, -, -, i, hi, hdir, -⟩
  rw [h i hi] at hdir
  cases hdir

/-- What a submission newly satisfies is its interaction, or is shown by where tokens are. -/
theorem shows_of_satisfied {r : Rule} {e : Evidence} {s : Submission} {p : Progress} {n : Nat}
    {i : Interaction} (hn : (ofRule r).interaction? n = some i) (hp : p.isSatisfied n = false)
    (hq : ((ofRule r).offer e s p).2.isSatisfied n = true) : e.Shows s i := by
  have hmakes := (ofRule r).makes_offerAt (e.accepts s) (ofRule r).root p
  rcases hmakes.accepts_leaf hn hq with hsat | hacc
  · rw [hp] at hsat
    cases hsat
  · exact Evidence.shows_of_accepts hacc

end Plan

/-! ### Referees -/

/-- A call without what is known of a release. -/
def Call.bare : Call → Call
  | .submit s => .submit (.plain s.interaction)
  | .expire => .expire

namespace Referee

/-- The same referee, with other evidence. -/
def withEvidence (ref : Referee) (e : Evidence) : Referee :=
  { ref with matcher := { ref.matcher with evidence := e } }

variable {r : Rule} {ref : Referee}

theorem plan_call (ref : Referee) (c : Call) : (ref.call c).matcher.plan = ref.matcher.plan := by
  cases c with
  | submit s =>
    rw [call, submit, Matcher.submit]
    split
    · rfl
    · dsimp only
      split <;> rfl
  | expire =>
    rw [call, expire, Matcher.expire]
    split <;> rfl

theorem plan_run (ref : Referee) (cs : List Call) :
    (ref.run cs).matcher.plan = ref.matcher.plan := by
  induction cs generalizing ref with
  | nil => rfl
  | cons c cs ih => exact (ih (ref.call c)).trans (plan_call ref c)

/-- With no directional leaf to show, a submission is answered and taken as any other with its
interaction is. -/
theorem submit_withEvidence (hr : ∀ i ∈ r.leaves, i.action.isDirectional = false)
    (hplan : ref.matcher.plan = .ofRule r) (e : Evidence) {s s' : Submission}
    (h : s.interaction = s'.interaction) :
    (ref.withEvidence e).submit s' = ((ref.submit s).1, (ref.submit s).2.withEvidence e) := by
  have hoffer : ref.matcher.plan.offer e s' ref.matcher.progress =
      ref.matcher.plan.offer ref.matcher.evidence s ref.matcher.progress := by
    rw [hplan, Plan.offer_eq_plain (Plan.not_shownBy hr e s') e,
      Plan.offer_eq_plain (Plan.not_shownBy hr ref.matcher.evidence s) e, h]
  rw [submit, submit, Matcher.submit, Matcher.submit]
  by_cases hc : ref.matcher.concluded = true
  · rw [if_pos hc, if_pos (show (ref.withEvidence e).matcher.concluded = true from hc)]
    rfl
  · rw [if_neg hc, if_neg (show ¬(ref.withEvidence e).matcher.concluded = true from hc)]
    have hoffer' : (ref.withEvidence e).matcher.plan.offer (ref.withEvidence e).matcher.evidence s'
        (ref.withEvidence e).matcher.progress = _ := hoffer
    rw [hoffer']
    dsimp only
    split <;> split <;> rename_i hs hs'
    · rfl
    · exact absurd hs hs'
    · exact absurd hs' hs
    · rfl

theorem call_withEvidence (hr : ∀ i ∈ r.leaves, i.action.isDirectional = false)
    (hplan : ref.matcher.plan = .ofRule r) (e : Evidence) {c c' : Call} (h : c.bare = c'.bare) :
    (ref.withEvidence e).call c' = (ref.call c).withEvidence e := by
  cases c with
  | submit s =>
    cases c' with
    | submit s' =>
      have hplain : Submission.plain s.interaction = .plain s'.interaction := Call.submit.inj h
      have hi : s.interaction = s'.interaction := by injection hplain
      exact congrArg Prod.snd (submit_withEvidence hr hplan e hi)
    | expire => cases h
  | expire =>
    cases c' with
    | submit s' => cases h
    | expire =>
      rw [call, call, expire, expire, Matcher.expire, Matcher.expire]
      by_cases hc : ref.matcher.concluded = true
      · rw [if_pos hc, if_pos (show (ref.withEvidence e).matcher.concluded = true from hc)]
        rfl
      · rw [if_neg hc, if_neg (show ¬(ref.withEvidence e).matcher.concluded = true from hc)]
        rfl

/-- **A rule without directional leaves is refereed in the same way whatever is known of
releases.** -/
theorem run_withEvidence (hr : ∀ i ∈ r.leaves, i.action.isDirectional = false)
    (hplan : ref.matcher.plan = .ofRule r) (e : Evidence) {cs cs' : List Call}
    (h : cs.map Call.bare = cs'.map Call.bare) :
    (ref.withEvidence e).run cs' = (ref.run cs).withEvidence e := by
  induction cs generalizing ref cs' with
  | nil =>
    obtain rfl := List.map_eq_nil_iff.mp h.symm
    rfl
  | cons c cs ih =>
    cases cs' with
    | nil => cases h
    | cons c' cs' =>
      obtain ⟨hc, hrest⟩ := List.cons.inj h
      rw [run, run, List.foldl_cons, List.foldl_cons, call_withEvidence hr hplan e hc]
      exact ih ((plan_call ref c).trans hplan) hrest

end Referee

namespace Plan

/-- **The places of tokens matter to directional leaves on the released token, and to nothing
else.** A submission that shows no such leaf does what its interaction alone does, whatever the
progress and whatever other evidence is asked; so do runs of such submissions, and all runs of a
rule without directional leaves. A leaf that is newly satisfied acts with the very token of the
interaction, and if a release shows it, with the very token released: one with a size is not taken
for one without. -/
theorem geometry_only_for_directional_leaves :
    (∀ (r : Rule) (e e' : Evidence) (s : Submission) (p : Progress), ¬r.ShownBy e s →
      (ofRule r).offer e s p = (ofRule r).offer e' (.plain s.interaction) p) ∧
    (∀ (r : Rule) (p : Progress) (os os' : List Offering),
      (∀ o ∈ os ++ os', ¬r.ShownBy o.evidence o.submission) →
      os.map (·.submission.interaction) = os'.map (·.submission.interaction) →
        (ofRule r).answers p os = (ofRule r).answers p os' ∧
          (ofRule r).offerEach p os = (ofRule r).offerEach p os') ∧
    -- rules without directional leaves
    (∀ r : Rule, (∀ i ∈ r.leaves, i.action.isDirectional = false) →
      (∀ (p : Progress) (os os' : List Offering),
        os.map (·.submission.interaction) = os'.map (·.submission.interaction) →
          (ofRule r).answers p os = (ofRule r).answers p os' ∧
            (ofRule r).offerEach p os = (ofRule r).offerEach p os') ∧
      ∀ (e e' : Evidence) (cs cs' : List Call), cs.map Call.bare = cs'.map Call.bare →
        ((Referee.ofRule r e').run cs').results = ((Referee.ofRule r e).run cs).results ∧
          ∀ s s' : Submission, s.interaction = s'.interaction →
            (((Referee.ofRule r e').run cs').submit s').1 =
              (((Referee.ofRule r e).run cs).submit s).1) ∧
    -- a leaf that is newly satisfied
    ∀ (r : Rule) (e : Evidence) (s : Submission) (p : Progress) (n : Nat) (i : Interaction),
      (ofRule r).interaction? n = some i → p.isSatisfied n = false →
        ((ofRule r).offer e s p).2.isSatisfied n = true →
          e.Shows s i ∧ i.primary = s.interaction.primary ∧ i.isSized = s.interaction.isSized ∧
            ∀ rel, s.release = some rel → s.interaction = i ∨ rel.token = i.primary := by
  refine ⟨fun r e e' s p h => offer_eq_plain h e' p, ?_, ?_, ?_⟩
  · intro r p os os' hos h
    rw [List.forall_mem_append] at hos
    exact offerEach_eq_of_not_shownBy p hos.1 hos.2 h
  · intro r hr
    refine ⟨fun p os os' h => ?_, fun e e' cs cs' h => ?_⟩
    · exact offerEach_eq_of_not_shownBy p (fun _ _ => not_shownBy hr _ _)
        (fun _ _ => not_shownBy hr _ _) h
    · have hrun : (Referee.ofRule r e').run cs' = ((Referee.ofRule r e).run cs).withEvidence e' :=
        @Referee.run_withEvidence r (.ofRule r e) hr rfl e' cs cs' h
      rw [hrun]
      refine ⟨rfl, fun s s' hs => ?_⟩
      rw [Referee.submit_withEvidence hr (Referee.plan_run _ cs) e' hs]
  · intro r e s p n i hn hp hq
    have hshows := shows_of_satisfied hn hp hq
    have hprimary : i.primary = s.interaction.primary := by
      rcases hshows with heq | ⟨rel, htouch, -⟩
      · rw [heq]
      · rw [htouch]
        rfl
    refine ⟨hshows, hprimary, ?_, fun rel hrel => ?_⟩
    · rw [Interaction.isSized, hprimary, Interaction.isSized]
    · rcases hshows with heq | ⟨rel', -, hrel', htoken, -⟩
      · exact .inl heq
      · rw [hrel] at hrel'
        cases hrel'
        exact .inr htoken

end Plan

end BoardTrial
