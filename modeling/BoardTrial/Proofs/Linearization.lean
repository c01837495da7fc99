import BoardTrial.Proofs.SessionSteps
import Mathlib.Data.List.TakeDrop

/-!
# Linearization

Requests are put into the queue of a session while its trial takes others out, its time limit comes
near, and its host may leave. All the same the trial does what it would do if it were alone:
**it makes the gestures of the first so many requests that its queue received, one after another**
(`Session.linearizes`), and gives the answers that this gives. What is left of the requests when
the trial has concluded, expired or been abandoned is lost.

An invariant carries this through all events (`Session.Serves`): the requests received are those
done with, the one in hand and those in the queue, in this order, and the trial is what the gestures
made so far have made of it.
-/

namespace BoardTrial

namespace Trial

/-- The trial after the gestures of requests have been made one after another. -/
def makeAll (t : Trial) (qs : List Request) : Trial :=
  qs.foldl (fun t q => (t.perform q.gesture).2) t

/-- The answer to a request whose gesture is made after those of others. -/
def ackAfter (t : Trial) (qs : List Request) (q : Request) : Ack :=
  ⟨((t.makeAll qs).perform q.gesture).1, (t.makeAll (qs ++ [q])).isConcluded⟩

theorem makeAll_append_singleton (t : Trial) (qs : List Request) (q : Request) :
    t.makeAll (qs ++ [q]) = ((t.makeAll qs).perform q.gesture).2 :=
  List.foldl_append

end Trial

namespace Session

/-- The session `s` has received the requests `rs`, and its trial was `t` before. -/
structure Serves (t : Trial) (rs : List Request) (s : Session) : Prop where
  /-- Gestures have been made for requests. -/
  le : s.performed ≤ rs.length
  /-- As long as there is a queue no request is lost. -/
  rest : s.isOpen = true → rs.drop s.served = s.stage.inHand ++ s.queue
  /-- The gestures made so far were those of the first requests; then it may have expired. -/
  trial : s.trial = t.makeAll (rs.take s.performed) ∨
    s.stage.isHalted = true ∧ s.trial = (t.makeAll (rs.take s.performed)).expire
  /-- Answers have been given to the requests done with that wanted them. -/
  mem_acks (i : Nat) (a : Ack) : (i, a) ∈ s.acks ↔ ∃ q, i < s.served ∧ rs[i]? = some q ∧
    q.wantsAck = true ∧ a = t.ackAfter (rs.take i) q
  /-- They were given in the order of the requests. -/
  sorted : s.acks.Pairwise fun x y => x.1 < y.1
  /-- Only the last gesture may have concluded the trial. -/
  last (i : Nat) : i < s.performed → (t.makeAll (rs.take i)).isConcluded = false
  /-- A trial that is to take more requests has not concluded. -/
  going : s.stage.isFinal = false → Trial.isConcluded s.trial = false
  /-- The answer that is to be given. -/
  ack (q : Request) (a : Ack) : s.stage = .answering q a → a = t.ackAfter (rs.take s.served) q

variable {t : Trial} {rs : List Request} {s s' : Session} {e : Event}

theorem serves_start (l : Layout) (r : Rule) (limit : Option Nat) :
    Serves (.start l r .centers) [] (start l r limit) where
  le := Nat.le_refl 0
  rest _ := rfl
  trial := .inl rfl
  mem_acks i a := by simp [start]
  sorted := .nil
  last i hi := absurd hi (Nat.not_lt_zero i)
  going _ := rfl
  ack q a h := by cases h

/-! ### What the invariant tells -/

/-- A trial that goes on is what the gestures made so far have made of it. -/
theorem Serves.trial_eq (h : Serves t rs s) (hs : s.stage.isHalted = false) :
    s.trial = t.makeAll (rs.take s.performed) := by
  rcases h.trial with ht | ⟨hh, -⟩
  · exact ht
  · rw [hs] at hh
    cases hh

/-- The request in hand is the one behind those done with. -/
theorem Serves.in_hand (h : Serves t rs s) {q : Request} (hq : s.stage.inHand = [q]) :
    rs[s.served]? = some q ∧ rs.take (s.served + 1) = rs.take s.served ++ [q] := by
  have hopen : s.isOpen = true := by
    cases hs : s.stage <;> simp_all [isOpen, Stage.isOpen, Stage.inHand]
  have hget : rs[s.served]? = some q := by
    have hdrop : (rs.drop s.served)[0]? = some q := by rw [h.rest hopen, hq]; rfl
    rwa [List.getElem?_drop] at hdrop
  exact ⟨hget, by rw [List.take_add_one, hget]; rfl⟩

/-- Answers have been given to requests done with. -/
theorem Serves.lt_served (h : Serves t rs s) {x : Nat × Ack} (hx : x ∈ s.acks) :
    x.1 < s.served := by
  obtain ⟨q, hlt, -⟩ := (h.mem_acks x.1 x.2).mp hx
  exact hlt

/-! ### One event -/

/-- A request is received behind the others. -/
theorem Serves.put (h : Serves t rs s) (ho : s.isOpen = true) (q : Request) :
    Serves t (rs ++ [q]) { s with queue := s.queue ++ [q] } := by
  have hserved : s.served ≤ rs.length := Nat.le_trans (Nat.le_add_right _ _) h.le
  have htake {n : Nat} (hn : n ≤ rs.length) : (rs ++ [q]).take n = rs.take n :=
    List.take_append_of_le_length hn
  refine ⟨?_, fun _ => ?_, ?_, fun i a => ?_, h.sorted, fun i hi => ?_, h.going, fun q' a ha => ?_⟩
  · rw [List.length_append]
    exact Nat.le_trans h.le (Nat.le_add_right _ _)
  · rw [List.drop_append_of_le_length hserved, h.rest ho, List.append_assoc]
  · have htrial := h.trial
    rwa [← htake h.le] at htrial
  · rw [h.mem_acks]
    refine exists_congr fun q' => and_congr_right fun hi => ?_
    rw [List.getElem?_append_left (Nat.lt_of_lt_of_le hi hserved),
      htake (Nat.le_trans (Nat.le_of_lt hi) hserved)]
  · rw [htake (Nat.le_trans (Nat.le_of_lt hi) h.le)]
    exact h.last i hi
  · rw [htake hserved]
    exact h.ack q' a ha

/-- The first request in the queue is taken in hand. -/
theorem Serves.take (h : Serves t rs s) {q : Request} {rest : List Request}
    (hs : s.stage = .waiting) (hq : s.queue = q :: rest) :
    Serves t rs { s with stage := .serving q, queue := rest } := by
  have hp : s.performed = s.served := performed_eq_served (by rw [hs]; rfl)
  have ht := h.trial_eq (by rw [hs]; rfl)
  refine ⟨hp ▸ h.le, fun _ => ?_, .inl (hp ▸ ht), h.mem_acks, h.sorted,
    fun i hi => h.last i (hp ▸ hi), fun _ => h.going (by rw [hs]; rfl),
    fun _ _ ha => nomatch ha⟩
  rw [h.rest (by rw [isOpen, hs]; rfl), hs, hq]
  rfl

/-- The gesture of the request in hand is made. -/
theorem Serves.perform (h : Serves t rs s) {q : Request} (hs : s.stage = .serving q) :
    Serves t rs { s with
      trial := (s.trial.perform q.gesture).2
      stage := .answering q ⟨(s.trial.perform q.gesture).1,
        Trial.isConcluded (s.trial.perform q.gesture).2⟩ } := by
  have hp : s.performed = s.served := performed_eq_served (by rw [hs]; rfl)
  have ht : s.trial = t.makeAll (rs.take s.served) := hp ▸ h.trial_eq (by rw [hs]; rfl)
  obtain ⟨hget, htake⟩ := h.in_hand (q := q) (by rw [hs]; rfl)
  have hmade : (s.trial.perform q.gesture).2 = t.makeAll (rs.take (s.served + 1)) := by
    rw [htake, Trial.makeAll_append_singleton, ht]
  refine ⟨(List.getElem?_eq_some_iff.mp hget).1, fun _ => ?_, .inl hmade, h.mem_acks, h.sorted,
    fun i hi => ?_, fun hf => hf, fun q' a ha => ?_⟩
  · rw [h.rest (by rw [isOpen, hs]; rfl), hs]
    rfl
  · rcases Nat.lt_succ_iff_lt_or_eq.mp hi with hi | rfl
    · exact h.last i (hp ▸ hi)
    · rw [← ht]
      exact h.going (by rw [hs]; rfl)
  · obtain ⟨rfl, rfl⟩ := (Stage.answering.injEq ..).mp ha
    rw [Trial.ackAfter, ← htake, ← hmade, ← ht]

/-- The answer to the request in hand, if it wants one, comes behind the others. -/
theorem Serves.mem_acks_answer (h : Serves t rs s) {q : Request} (hq : rs[s.served]? = some q)
    (i : Nat) (b : Ack) :
    (i, b) ∈ (if q.wantsAck then s.acks ++ [(s.served, t.ackAfter (rs.take s.served) q)]
        else s.acks) ↔
      ∃ q, i < s.served + 1 ∧ rs[i]? = some q ∧ q.wantsAck = true ∧
        b = t.ackAfter (rs.take i) q := by
  by_cases hi : i = s.served
  · subst hi
    have hno : (s.served, b) ∉ s.acks := fun hx => Nat.lt_irrefl _ (h.lt_served hx)
    cases hw : q.wantsAck <;> simp [hno, hq, hw]
  · have hlt : i < s.served + 1 ↔ i < s.served := by omega
    rw [hlt, ← h.mem_acks]
    split <;> simp [hi]

/-- So the answers stay in the order of the requests. -/
theorem Serves.sorted_answer (h : Serves t rs s) (q : Request) (a : Ack) :
    (if q.wantsAck then s.acks ++ [(s.served, a)] else s.acks).Pairwise fun x y => x.1 < y.1 := by
  split
  · refine List.pairwise_append.mpr ⟨h.sorted, List.pairwise_singleton _ _, fun x hx y hy => ?_⟩
    rw [List.mem_singleton.mp hy]
    exact h.lt_served hx
  · exact h.sorted

/-- The request in hand is answered, and done with. -/
theorem Serves.answer (h : Serves t rs s) {q : Request} {a : Ack} (hs : s.stage = .answering q a) :
    Serves t rs { s with
      stage := .after a
      served := s.served + 1
      acks := if q.wantsAck then s.acks ++ [(s.served, a)] else s.acks } := by
  have hp : s.performed = s.served + 1 := by rw [performed, hs]; rfl
  have ht : s.trial = t.makeAll (rs.take (s.served + 1)) := hp ▸ h.trial_eq (by rw [hs]; rfl)
  obtain ⟨hget, -⟩ := h.in_hand (q := q) (by rw [hs]; rfl)
  obtain rfl := h.ack q a hs
  refine ⟨?_, fun _ => ?_, .inl ?_, h.mem_acks_answer hget, h.sorted_answer q _, fun i hi => ?_,
    fun hf => ?_, fun q' b hb => ?_⟩
  · rw [performed, Stage.made_after]
    exact hp ▸ h.le
  · rw [Stage.inHand_after, ← List.drop_drop, h.rest (by rw [isOpen, hs]; rfl), hs]
    rfl
  · rw [performed, Stage.made_after]
    exact ht
  · rw [performed, Stage.made_after] at hi
    exact h.last i (hp ▸ hi)
  · rw [Stage.isFinal_after] at hf
    exact h.going (by rw [hs]; exact hf)
  · have hnone := Stage.inHand_after (t.ackAfter (rs.take s.served) q)
    rw [show Stage.after _ = _ from hb] at hnone
    cases hnone

/-- A trial that waits may stop, as it is or expired. -/
theorem Serves.stop (h : Serves t rs s) (hs : s.stage = .waiting) {trial : Trial}
    (htrial : trial = s.trial ∨ trial = Trial.expire s.trial) :
    Serves t rs { s with trial, stage := .stopping } := by
  have hp : s.performed = s.served := performed_eq_served (by rw [hs]; rfl)
  have ht : s.trial = t.makeAll (rs.take s.served) := hp ▸ h.trial_eq (by rw [hs]; rfl)
  refine ⟨hp ▸ h.le, fun _ => ?_, ?_, h.mem_acks, h.sorted, fun i hi => h.last i (hp ▸ hi), nofun,
    fun _ _ ha => nomatch ha⟩
  · rw [h.rest (by rw [isOpen, hs]; rfl), hs]
    rfl
  · rw [ht] at htrial
    exact htrial.imp id fun he => ⟨rfl, he⟩

/-- The queue of a trial that has stopped goes. -/
theorem Serves.close (h : Serves t rs s) (hs : s.stage = .stopping) :
    Serves t rs { s with stage := .stopped, queue := [] } := by
  have hp : s.performed = s.served := performed_eq_served (by rw [hs]; rfl)
  have htrial := h.trial
  rw [hp] at htrial
  exact ⟨hp ▸ h.le, nofun, htrial.imp id fun he => ⟨rfl, he.2⟩, h.mem_acks, h.sorted,
    fun i hi => h.last i (hp ▸ hi), nofun, fun _ _ ha => nomatch ha⟩

/-- **Every event keeps the invariant.** -/
theorem Serves.happens (h : Serves t rs s) (hs : Happens s e s') :
    Serves t (rs ++ s.received e) s' := by
  have hnil : rs ++ [] = rs := List.append_nil rs
  cases hs with
  | idle hr _ => rwa [hr, hnil]
  | put q hh ho =>
    have hr : s.received (.put q) = [q] := by simp [received, hh, ho]
    rw [hr]
    exact h.put ho q
  | take hs hq => exact hnil.symm ▸ h.take hs hq
  | perform hs => exact hnil.symm ▸ h.perform hs
  | answer hs => exact hnil.symm ▸ h.answer hs
  | timeOut hs _ => exact hnil.symm ▸ h.stop hs (.inr rfl)
  | abandon hs _ _ => exact hnil.symm ▸ h.stop hs (.inl rfl)
  | close hs => exact hnil.symm ▸ h.close hs
  | pass | ask | leave =>
    exact hnil.symm ▸ ⟨h.le, h.rest, h.trial, h.mem_acks, h.sorted, h.last, h.going, h.ack⟩

/-- The gesture that an event makes is that of the next request. -/
theorem Serves.take_happens (h : Serves t rs s) (hs : Happens s e s') :
    (rs ++ s.received e).take s'.performed = rs.take s.performed ++ s.made e := by
  obtain ⟨hp, hm | ⟨q, hq, hm⟩⟩ := hs.performed
  · rw [hp, hm, List.append_nil]
    exact List.take_append_of_le_length h.le
  · have hserved : s.performed = s.served := performed_eq_served (by rw [hq]; rfl)
    obtain ⟨hget, htake⟩ := h.in_hand (q := q) (by rw [hq]; rfl)
    rw [hp, hm, hserved, ← htake]
    exact List.take_append_of_le_length (List.getElem?_eq_some_iff.mp hget).1

/-! ### Events one after another -/

/-- **Events one after another keep the invariant.** -/
theorem Serves.run (h : Serves t rs s) (es : List Event) :
    Serves t (rs ++ s.along received es) (s.run es) := by
  induction es generalizing rs s with
  | nil => rwa [along, List.append_nil]
  | cons e es ih =>
    rw [along, ← List.append_assoc]
    exact ih (h.happens (s.happens e))

/-- The gestures made by events are those of the next requests, in order. -/
theorem Serves.take_run (h : Serves t rs s) (es : List Event) :
    (rs ++ s.along received es).take (s.run es).performed =
      rs.take s.performed ++ s.along made es := by
  induction es generalizing rs s with
  | nil => rw [along, along, List.append_nil, List.append_nil]; rfl
  | cons e es ih =>
    have hs := s.happens e
    rw [along, along, ← List.append_assoc, ← List.append_assoc, ← h.take_happens hs]
    exact ih (h.happens hs)

/-! ### What hosts are told -/

/-- A host that waits for an answer is told the one that has been given. -/
theorem Serves.answerTo?_of_mem (h : Serves t rs s) {i : Nat} {a : Ack} (hmem : (i, a) ∈ s.acks) :
    s.answerTo? i = some (.ok a) := by
  have hlookup : s.acks.lookup i = some a := by
    obtain ⟨l, k, hl⟩ := List.append_of_mem hmem
    have hsorted := h.sorted
    rw [hl, List.pairwise_append] at hsorted
    refine List.lookup_eq_some_iff.mpr ⟨l, k, hl, fun x hx => ?_⟩
    have hlt : x.1 < i := hsorted.2.2 x hx (i, a) (by simp)
    simpa using Nat.ne_of_gt hlt
  rw [answerTo?, hlookup]

/-- No answer has been given to a request that is not done with. -/
theorem Serves.answerTo?_of_le (h : Serves t rs s) {i : Nat} (hi : s.served ≤ i) :
    s.answerTo? i = if s.isOpen then none else some (.error .closed) := by
  have hlookup : s.acks.lookup i = none := by
    refine List.lookup_eq_none_iff.mpr fun x hx => ?_
    have hlt := h.lt_served hx
    simpa using Nat.ne_of_gt (Nat.lt_of_lt_of_le hlt hi)
  rw [answerTo?, hlookup]

/-- A trial that has concluded makes no more gestures. -/
theorem Serves.isFinal_of_isConcluded (h : Serves t rs s)
    (hc : Trial.isConcluded s.trial = true) : s.stage.isFinal = true := by
  rw [← Bool.not_eq_false]
  intro hf
  rw [h.going hf] at hc
  cases hc

/-- No request behind one whose answer tells that the trial has concluded is ever answered. -/
theorem Serves.eq_of_concluded (h : Serves t rs s) {i : Nat} {a : Ack} (hmem : (i, a) ∈ s.acks)
    (ha : a.concluded = true) {es : List Event} {j : Nat} {b : Ack}
    (hmem' : (j, b) ∈ (s.run es).acks) : j ≤ i ∧ (j = i → b = a) := by
  have h' := h.run es
  obtain ⟨q, hi, hq, -, rfl⟩ := (h.mem_acks i a).mp hmem
  obtain ⟨q', hj, hq', -, rfl⟩ := (h'.mem_acks j b).mp hmem'
  have hlt : i < rs.length := (List.getElem?_eq_some_iff.mp hq).1
  have htake {n : Nat} (hn : n ≤ rs.length) :
      (rs ++ s.along received es).take n = rs.take n := List.take_append_of_le_length hn
  constructor
  · -- otherwise a gesture would have been made after the trial had concluded
    by_contra hij
    have hlast := h'.last (i + 1) (Nat.lt_of_le_of_lt (Nat.lt_of_not_le hij)
      (Nat.lt_of_lt_of_le hj (Nat.le_add_right _ _)))
    rw [htake hlt, List.take_add_one, hq] at hlast
    exact absurd ha (Bool.eq_false_iff.mp hlast)
  · rintro rfl
    rw [List.getElem?_append_left hlt, hq] at hq'
    obtain rfl := Option.some.inj hq'
    rw [htake (Nat.le_of_lt hlt)]

/-- **A session is a linearization of its queue.** Let requests be put and taken, gestures made,
answers given, time pass, the trial stop and the host leave in any order, from the start on. What
hosts do is made of these events (`Session.exists_run_of_host`). -/
theorem linearizes (l : Layout) (r : Rule) (limit : Option Nat) (es : List Event) :
    let fresh := Trial.start l r .centers
    let s := (start l r limit).run es
    let rs := (start l r limit).along received es
    -- the gestures made are those of the first requests received, one after another
    ((start l r limit).along made es = rs.take s.performed ∧ s.performed ≤ rs.length ∧
      (s.trial = fresh.makeAll (rs.take s.performed) ∨
        s.trial = (fresh.makeAll (rs.take s.performed)).expire)) ∧
    -- a request that wants an answer gets the one that this gives, and hosts are told it
    (∀ i a, (i, a) ∈ s.acks ↔ ∃ q, i < s.served ∧ rs[i]? = some q ∧ q.wantsAck = true ∧
      a = fresh.ackAfter (rs.take i) q) ∧
    (∀ i a, (i, a) ∈ s.acks → s.answerTo? i = some (.ok a)) ∧
    -- no gesture is made once the trial has concluded or expired
    (∀ i < s.performed, (fresh.makeAll (rs.take i)).isConcluded = false) ∧
    (Trial.isConcluded s.trial = true → ∀ fs, s.along made fs = []) ∧
    -- what is not served is lost when the trial stops, and never answered
    (∀ i, s.served ≤ i → s.answerTo? i = if s.isOpen then none else some (.error .closed)) ∧
    (s.isOpen = false → s.served = s.performed ∧ ∀ fs, s.along received fs = []) ∧
    -- at most one answer tells that the trial has concluded, and it is the last
    s.acks.Pairwise (fun x y => x.1 < y.1) ∧
    (∀ i a, (i, a) ∈ s.acks → a.concluded = true →
      ∀ fs j b, (j, b) ∈ (s.run fs).acks → j ≤ i ∧ (j = i → b = a)) := by
  intro fresh s rs
  have hstart := serves_start l r limit
  have h : Serves fresh rs s := hstart.run es
  refine ⟨⟨?_, h.le, h.trial.imp id And.right⟩, h.mem_acks, fun i a => h.answerTo?_of_mem,
    h.last, fun hc => along_made (h.isFinal_of_isConcluded hc), fun i => h.answerTo?_of_le,
    ?_, h.sorted, fun i a hmem ha fs j b => h.eq_of_concluded hmem ha⟩
  · exact (hstart.take_run es).symm
  · intro ho
    refine ⟨?_, along_received ho⟩
    cases hs : s.stage with
    | stopped => exact (performed_eq_served (by rw [hs]; rfl)).symm
    | _ =>
      rw [isOpen, hs] at ho
      cases ho

/-- Two more touches are put while the first concludes the trial; they are lost. -/
example :
    let touch : Request := ⟨.click ⟨.red, .circle, none⟩, true⟩
    let s := (start .standard (.leaf (.touch ⟨.red, .circle, none⟩)) none).run
      [.put touch, .put touch, .take, .perform, .answer, .put touch, .close]
    s.acks = [(0, ⟨some .completed, true⟩)] := by
  decide +kernel

/-! ### Calls -/

/-- The next request put has the number of those received. -/
theorem Serves.nextNumber (h : Serves t rs s) (ho : s.isOpen = true) :
    s.nextNumber = rs.length := by
  have hlen := congrArg List.length (h.rest ho)
  have hserved : s.served ≤ rs.length := Nat.le_trans (Nat.le_add_right _ _) h.le
  rw [List.length_drop, List.length_append] at hlen
  rw [Session.nextNumber, backlog]
  omega

/-- **A call is answered as if all requests before it had been served alone**, or not at all. -/
theorem Serves.call (h : Serves t rs s) (hh : s.hosted = true) (g : Gesture) :
    (s.call g).1 = .ok (t.ackAfter rs ⟨g, true⟩) ∨ (s.call g).1 = .error .closed := by
  by_cases ho : s.isOpen = true
  · obtain ⟨es, hes⟩ := exists_run_call hh g ho
    have h' := h.run (.put ⟨g, true⟩ :: es)
    have hput : s.received (.put ⟨g, true⟩) = [⟨g, true⟩] := by simp [received, hh, ho]
    rw [← hes, along, hput] at h'
    have htell : (s.call g).1 = ((s.call g).2.answerTo? rs.length).getD (.error .closed) := by
      rw [← h.nextNumber ho, Session.call, if_pos ho]
    rw [htell, answerTo?]
    split
    · rename_i a ha
      obtain ⟨ks, ls, hacks, -⟩ := List.lookup_eq_some_iff.mp ha
      obtain ⟨q, -, hq, -, rfl⟩ := (h'.mem_acks rs.length a).mp (by simp [hacks])
      obtain rfl : _ = q := by simpa using hq
      left
      rw [List.take_left]
      rfl
    · right
      split <;> rfl
  · exact .inr (by rw [Session.call, if_neg ho])

end Session

end BoardTrial
