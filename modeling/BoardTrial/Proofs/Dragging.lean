import BoardTrial.Board.Dragging
import BoardTrial.Board.LiveBoard

/-!
# What gestures amount to

Between a gesture and the judge stand a board, which keeps the tokens of the last gestures, and a
recognizer, which looks them up there. Neither hears from the judge, so what a gesture submits can
be said without one (`Recognizer.hear`), and **it is what the automaton `Dragging` says**
(`LiveBoard.submits_dragging`): a token that was clicked, dragged or dropped onto before plays no
part any more.
-/

namespace BoardTrial

/-! ### The tokens on a board -/

theorem TokenMap.isSome_get?_ofList {α : Type} (es : List (Token × α)) (t : Token) :
    ((ofList es).get? t).isSome = (es.map (·.1)).contains t := by
  have hfold : ∀ m : TokenMap α, ((es.foldl (fun m e => m.insert e.1 e.2) m).get? t).isSome =
      ((m.get? t).isSome || (es.map (·.1)).contains t) := by
    induction es with
    | nil => simp
    | cons e es ih =>
      intro m
      rw [List.foldl_cons, ih, get?_insert, List.map_cons, List.contains_cons]
      by_cases ht : t = e.1
      · simp [ht]
      · rw [if_neg ht, beq_eq_false_iff_ne.mpr ht, Bool.false_or]
  rw [ofList, hfold, get?_empty]
  rfl

namespace Layout

/-- The tokens that have a box at the start are those of the layout. -/
theorem map_fst_boxes (l : Layout) : l.boxes.map (·.1) = l.tokens := by
  rw [boxes, List.map_map]
  cases l <;> rfl

/-- A gesture that counts: it is no move, and it is made with a token of the layout, if with any. -/
def counts (l : Layout) : Gesture → Bool
  | .move _ _ _ => false
  | g => g.token?.all l.tokens.contains

end Layout

namespace Board

theorem contains_ofLayout (l : Layout) : (ofLayout l).contains = l.tokens.contains := by
  funext t
  rw [contains, ofLayout, TokenMap.isSome_get?_ofList, l.map_fst_boxes]

/-- No gesture brings a token to the board or takes one away. -/
theorem contains_apply (b : Board) (g : Gesture) : (b.apply g).1.contains = b.contains := by
  unfold apply
  split
  · rename_i hg
    cases g with
    | move t left top =>
      funext u
      simp only [contains, TokenMap.get?_insert]
      split
      · rename_i hu
        exact hu ▸ hg.symm
      · rfl
    | _ => rfl
  · rfl

end Board

/-! ### Hearing a gesture -/

namespace Dragging

/-- A submission without the boxes. -/
def Output.ofSubmission (s : Submission) : Output := ⟨s.interaction, s.release.isSome⟩

/-- Gestures that do not count can be left out. -/
theorem run_filter_counts (l : Layout) (d : Dragging) (gs : List Gesture) :
    run l.tokens.contains d (gs.filter l.counts) = run l.tokens.contains d gs := by
  induction gs generalizing d with
  | nil => rfl
  | cons g gs ih =>
    rw [run, List.filter_cons]
    by_cases hg : l.counts g = true
    · rw [if_pos hg, run]
      simp only [ih]
    · rw [if_neg hg, ih]
      cases g with
      | move t left top => simp [step]
      | _ => exact (if_neg hg).symm

/-- Only a touch by which a token is released is told with the boxes. -/
theorem release_of_withBoxes {d : Dragging} {g : Gesture} {o : Output} (h : (d.step g).2 = some o)
    (ho : o.withBoxes = true) : ∃ t, g = .release t ∧ o.interaction = .touch t := by
  cases g with
  | release t =>
    simp only [step] at h
    split at h <;> cases h
    · cases ho
    · exact ⟨t, rfl, rfl⟩
    · exact ⟨t, rfl, rfl⟩
  | dropOn u =>
    simp only [step] at h
    split at h <;> cases h
    cases ho
  | click t =>
    cases h
    cases ho
  | drag t | dropOnHoldingArea | move t left top => cases h

end Dragging

namespace Recognizer

/-- The drag in progress without the box where it started. -/
def dragging (re : Recognizer) : Dragging := re.drag.map fun d => (d.token, d.held)

/-- What becomes of a board and of the recognizer that listens to it by a gesture, and what is
submitted. -/
def hear (re : Recognizer) (b : Board) (g : Gesture) : Board × Recognizer × Option Submission :=
  match b.apply g with
  | (b, none) => (b, re, none)
  | (b, some n) => (b, re.notify b n)

variable {re : Recognizer} {b : Board} {g : Gesture}

theorem contains_hear (re : Recognizer) (b : Board) (g : Gesture) :
    (re.hear b g).1.contains = b.contains := by
  rw [← b.contains_apply g, hear]
  split <;> simp_all

theorem hear_of_not_admits (h : b.admits g = false) : re.hear b g = (b, re, none) := by
  simp [hear, Board.apply, h]

@[simp] theorem dragging_observe (re : Recognizer) (b : Board) (t : Token) :
    (re.observe b t).dragging = re.dragging := rfl

@[simp] theorem dragging_observeAll (re : Recognizer) (b : Board) (ts : List Token) :
    (re.observeAll b ts).dragging = re.dragging := by
  induction ts generalizing re with
  | nil => rfl
  | cons t ts ih => rw [observeAll, List.foldl_cons, ← observeAll, ih, dragging_observe]

/-- A touch by a release ends the drag, and is told with the boxes. -/
theorem touchReleased_eq (re : Recognizer) (b : Board) (t : Token) :
    (re.touchReleased b t).1.dragging = none ∧
      Dragging.Output.ofSubmission (re.touchReleased b t).2 = ⟨.touch t, true⟩ := by
  rw [touchReleased]
  refine ⟨?_, rfl⟩
  rw [dragging_observe, dragging_observeAll]
  rfl

/-- A token that was dropped onto the holding area is picked up, whatever is released. -/
theorem notify_released_of_held {d : Drag} (hd : re.drag = some d) (hh : d.held = true) :
    re.notify b .released = ({ re with drag := none }, some { interaction := .pickUp d.token }) := by
  simp [notify, hd, Option.filter_some, hh]

/-- Any other release is a touch of what is released. -/
theorem notify_released_of_not_held {t : Token} (hd : re.drag.filter (·.held) = none)
    (ht : b.released = some t) :
    re.notify b .released = ((re.touchReleased b t).1, some (re.touchReleased b t).2) := by
  simp [notify, hd, ht]

theorem hear_release {t : Token} (h : b.admits (.release t) = true) :
    re.hear b (.release t) =
      ({ b with released := some t }, re.notify { b with released := some t } .released) := by
  simp [hear, Board.apply, h]

/-- A release picks up what is held, and is a touch otherwise. -/
theorem dragging_hear_release {t : Token} (h : b.admits (.release t) = true) :
    ((re.hear b (.release t)).2.1.dragging,
        (re.hear b (.release t)).2.2.map Dragging.Output.ofSubmission) =
      re.dragging.step (.release t) := by
  rw [hear_release h]
  cases hd : re.drag.filter (·.held) with
  | some d =>
    obtain ⟨hd, hh⟩ := Option.filter_eq_some_iff.mp hd
    have hstep : re.dragging.step (.release t) = (none, some ⟨.pickUp d.token, false⟩) := by
      simp [dragging, hd, hh, Dragging.step]
    rw [notify_released_of_held hd hh, hstep]
    rfl
  | none =>
    have hstep : re.dragging.step (.release t) = (none, some ⟨.touch t, true⟩) := by
      cases hd' : re.drag with
      | none => simp [dragging, hd', Dragging.step]
      | some d =>
        have hh : d.held = false := by simpa [hd', Option.filter_some] using hd
        simp [dragging, hd', hh, Dragging.step]
    obtain ⟨hre, hs⟩ := re.touchReleased_eq { b with released := some t } t
    rw [notify_released_of_not_held hd rfl, hstep, hre, Option.map_some, hs]

/-- **A gesture that can be made does what dragging says.** -/
theorem dragging_hear (re : Recognizer) (h : b.admits g = true) :
    ((re.hear b g).2.1.dragging, (re.hear b g).2.2.map Dragging.Output.ofSubmission) =
      re.dragging.step g := by
  cases g with
  | release t => exact dragging_hear_release h
  | click t | drag t | move t left top => simp only [hear, Board.apply, h]; rfl
  | dropOn u =>
    simp only [hear, Board.apply, h]
    cases hd : re.drag <;> simp [notify, dragging, hd, observe] <;> rfl
  | dropOnHoldingArea =>
    simp only [hear, Board.apply, h]
    cases hd : re.drag <;> simp [notify, dragging, hd, Dragging.step]

/-- Only a touch by which a token is released is told with the boxes. -/
theorem release_of_hear {s : Submission} (hs : (re.hear b g).2.2 = some s)
    (hr : s.release.isSome = true) : ∃ t, g = .release t ∧ s.interaction = .touch t := by
  cases ha : b.admits g with
  | false =>
    rw [hear_of_not_admits ha] at hs
    cases hs
  | true =>
    have ho := congrArg Prod.snd (dragging_hear re ha)
    rw [hs, Option.map_some] at ho
    exact Dragging.release_of_withBoxes ho.symm hr

end Recognizer

namespace LiveBoard

variable {J : Type} [Judge J]

/-- The judge is given what a gesture submits, and nothing it answers comes back. -/
theorem perform_eq (b : LiveBoard J) (g : Gesture) :
    let heard := b.recognizer.hear b.board g
    b.perform g = (heard.2.2.map fun s => (Judge.submit b.judge s).1,
      { board := heard.1
        recognizer := heard.2.1
        judge := heard.2.2.elim b.judge fun s => (Judge.submit b.judge s).2 }) := by
  rw [perform, Recognizer.hear]
  cases hb : b.board.apply g with
  | mk board n =>
    cases n with
    | none => rfl
    | some n =>
      simp only [notify]
      cases hn : b.recognizer.notify board n with
      | mk recognizer s => cases s <;> rfl

/-- The same live board without the record. -/
def unrecorded (b : LiveBoard (Recorded J)) : LiveBoard J := { b with judge := b.judge.judge }

/-- A judge that keeps a record answers as it does without. -/
theorem perform_unrecorded (b : LiveBoard (Recorded J)) (g : Gesture) :
    b.unrecorded.perform g = ((b.perform g).1, (b.perform g).2.unrecorded) := by
  rw [perform_eq, perform_eq, unrecorded, unrecorded]
  cases (b.recognizer.hear b.board g).2.2 <;> rfl

theorem performAll_unrecorded (b : LiveBoard (Recorded J)) (gs : List Gesture) :
    b.unrecorded.performAll gs = (b.performAll gs).unrecorded := by
  induction gs generalizing b with
  | nil => rfl
  | cons g gs ih =>
    rw [performAll, List.foldl_cons, ← performAll, perform_unrecorded, ih]
    rfl

/-- What a gesture submits is put on record. -/
theorem log_perform (b : LiveBoard (Recorded J)) (g : Gesture) :
    (b.perform g).2.judge.log = b.judge.log ++ (b.recognizer.hear b.board g).2.2.toList := by
  rw [perform_eq]
  cases (b.recognizer.hear b.board g).2.2 with
  | none => exact (List.append_nil _).symm
  | some s => rfl

/-- **What gestures put on record is what the automaton says.** -/
theorem log_performAll (b : LiveBoard (Recorded J)) (gs : List Gesture) :
    (b.performAll gs).judge.log.map Dragging.Output.ofSubmission =
      b.judge.log.map Dragging.Output.ofSubmission ++
        Dragging.run b.board.contains b.recognizer.dragging gs := by
  induction gs generalizing b with
  | nil => simp [performAll, Dragging.run]
  | cons g gs ih =>
    have hcontains := b.recognizer.contains_hear b.board g
    rw [performAll, List.foldl_cons, ← performAll, ih, log_perform, perform_eq, List.map_append,
      List.append_assoc, hcontains, Dragging.run]
    congr 1
    split
    · rename_i ha
      rw [← Recognizer.dragging_hear _ ha]
      cases (b.recognizer.hear b.board g).2.2 <;> rfl
    · rename_i ha
      rw [Recognizer.hear_of_not_admits (by simpa [Board.admits] using ha)]
      rfl

/-- **Whatever the judge answers, gestures submit to it what the automaton of dragging says.** It is
told with the boxes of the tokens only when a release is a touch. A gesture is answered just when it
submits something. Moves, and gestures with tokens that are not on the board, might as well not have
been made. -/
theorem submits_dragging (l : Layout) (j : J) (gs : List Gesture) :
    let b := (start l (Recorded.mk j [])).performAll gs
    -- what the judge is given
    b.judge.log.map Dragging.Output.ofSubmission = Dragging.run l.tokens.contains none gs ∧
    -- the record makes no difference to it
    ((start l j).performAll gs = b.unrecorded ∧
      ∀ g, b.unrecorded.perform g = ((b.perform g).1, (b.perform g).2.unrecorded)) ∧
    -- what is answered
    (∀ g, match (b.perform g).1 with
      | none => (b.perform g).2.judge = b.judge
      | some o => ∃ s, (b.perform g).2.judge.log = b.judge.log ++ [s] ∧
          Judge.submit b.judge.judge s = (o, (b.perform g).2.judge.judge) ∧
          (s.release.isSome = true → ∃ t, g = .release t ∧ s.interaction = .touch t)) ∧
    -- what does not count
    ((start l (Recorded.mk j [])).performAll (gs.filter l.counts)).judge.log.map (·.interaction) =
      b.judge.log.map (·.interaction) := by
  intro b
  have hlog : ∀ gs, ((start l (Recorded.mk j [])).performAll gs).judge.log.map
      Dragging.Output.ofSubmission = Dragging.run l.tokens.contains none gs := by
    intro gs
    rw [log_performAll]
    exact congrArg (Dragging.run · none gs) (Board.contains_ofLayout l)
  refine ⟨hlog gs, ⟨performAll_unrecorded (start l (Recorded.mk j [])) gs, b.perform_unrecorded⟩,
    fun g => ?_, ?_⟩
  · rw [perform_eq]
    cases hs : (b.recognizer.hear b.board g).2.2 with
    | none => rfl
    | some s => exact ⟨s, rfl, rfl, Recognizer.release_of_hear hs⟩
  · have hinteraction : ∀ ss : List Submission, ss.map (·.interaction) =
        (ss.map Dragging.Output.ofSubmission).map (·.interaction) := by
      intro ss
      rw [List.map_map]
      rfl
    rw [hinteraction, hinteraction, hlog, hlog, Dragging.run_filter_counts]

end LiveBoard

end BoardTrial
