import BoardTrial.Proofs.Places

/-!
# Where a release is judged from

There is one drag in progress at a time, and one known box for each token. While a token that was
dragged is at most moved, both tell where its drag started, whatever is done with other tokens: the
drag or drop of another ends its drag and leaves its known box alone (`Recognizer.Recalls`). Only the
release of another token, unless something is picked up, makes known the place to which it has been
moved. So **a release is judged from where its token was last shown**
(`LiveBoard.judged_from_last_shown`). This is where the drag started if no other token was released
in the meantime; if one was, it need not be (`LiveBoard.not_judged_from_drag`).
-/

namespace BoardTrial

namespace Gesture

/-- Whether a gesture does nothing with token `t`, unless it moves it. -/
def atMostMoves (t : Token) : Gesture → Bool
  | click u | drag u | dropOn u | release u => u ≠ t
  | dropOnHoldingArea | move _ _ _ => true

end Gesture

/-! ### What is recalled of a drag -/

namespace Recognizer

/-- Whether a gesture shows all tokens: it is a release, and nothing is picked up. -/
def showsAll (re : Recognizer) (b : Board) : Gesture → Bool
  | .release t => b.contains t && !re.drag.any (·.held)
  | _ => false

/-- A release of token `t` is judged from `box`, whether its drag is still in progress or not. -/
structure Recalls (re : Recognizer) (t : Token) (box : Box) : Prop where
  /-- The token is known to have been there last. -/
  known : re.known.get? t = some box
  /-- A drag of it that is in progress started there. -/
  drag (d : Drag) : re.drag = some d → d.token = t → d.origin = box

variable {re : Recognizer} {b : Board} {t u : Token} {box : Box} {g : Gesture}

theorem showsAll_eq_false (h : ∀ u, g = .release u → b.contains u = false) :
    re.showsAll b g = false := by
  cases g with
  | release u => rw [showsAll, h u rfl, Bool.false_and]
  | _ => rfl

theorem hear_release_of_held {d : Drag} (hu : b.contains u = true) (hd : re.drag = some d)
    (hheld : d.held = true) :
    (re.hear b (.release u)).2 =
      ({ re with drag := none }, some { interaction := .pickUp d.token }) := by
  rw [hear_release hu, notify_released_of_held hd hheld]

theorem hear_release_of_not_held (hu : b.contains u = true)
    (hheld : re.drag.any (·.held) = false) :
    (re.hear b (.release u)).2 = ((re.touchReleased b u).1, some (re.touchReleased b u).2) := by
  rw [hear_release hu]
  refine notify_released_of_not_held (b := { b with released := some u }) ?_ rfl
  cases hd : re.drag with
  | none => rfl
  | some d => simpa [hd, Option.filter_some] using hheld

theorem Recalls.boxBefore (h : re.Recalls t box) (b : Board) : re.boxBefore b t = box := by
  rw [Recognizer.boxBefore, h.known]
  cases hd : re.drag with
  | none => rfl
  | some d =>
    dsimp only
    split
    · exact h.drag d hd ‹_›
    · rfl

/-- While no drag is in progress, what is recalled of a token is what is known of it. -/
theorem recalls_of_known (hknown : re.known.get? t = some box) (hdrag : re.drag = none) :
    re.Recalls t box := by
  refine ⟨hknown, fun d hd => ?_⟩
  rw [hdrag] at hd
  cases hd

/-- Where a token is when its drag starts is recalled. -/
theorem recalls_drag (re : Recognizer) (ht : b.contains t = true) :
    (re.hear b (.drag t)).2.1.Recalls t (b.boxOf t) := by
  have hadmits : b.admits (.drag t) = true := ht
  simp only [hear, Board.apply, hadmits]
  refine ⟨TokenMap.get?_insert_self _ t _, ?_⟩
  rintro d hd -
  obtain rfl := Option.some.inj hd
  rfl

/-- To see another token leaves what is known of `t` alone. -/
theorem Recalls.known_observe (h : re.Recalls t box) (hu : u ≠ t) (b : Board) :
    (re.observe b u).known.get? t = some box := by
  rw [get?_observe, beq_eq_false_iff_ne.mpr hu]
  exact h.known

/-- A release ends the drag, and shows `t` unless something is picked up. -/
theorem Recalls.hear_release (h : re.Recalls t box) (ht : b.contains t = true)
    (hu : b.contains u = true) :
    (re.hear b (.release u)).2.1.Recalls t
      (if re.showsAll b (.release u) then b.boxOf t else box) := by
  rw [showsAll, hu, Bool.true_and]
  cases hheld : re.drag.any (·.held) with
  | true =>
    obtain ⟨d, hd, hh⟩ := (Option.any_eq_true _ _).mp hheld
    rw [hear_release_of_held hu hd hh]
    exact recalls_of_known h.known rfl
  | false =>
    rw [hear_release_of_not_held hu hheld]
    exact recalls_of_known ((get?_touchReleased re hu t).trans (if_pos ht))
      (Option.map_eq_none_iff.mp (re.touchReleased_eq b u).1)

/-- **What is recalled of a token stays the same until all tokens are shown**, if it is at most
moved. -/
theorem Recalls.hear (h : re.Recalls t box) (ht : b.contains t = true)
    (hg : g.atMostMoves t = true) :
    (re.hear b g).2.1.Recalls t (if re.showsAll b g then b.boxOf t else box) := by
  cases hb : b.admits g with
  | false =>
    have hshows : re.showsAll b g = false := by
      refine showsAll_eq_false fun u hg => ?_
      subst hg
      exact hb
    rw [hear_of_not_admits hb, hshows]
    exact h
  | true =>
    cases g with
    | release u => exact h.hear_release ht hb
    | click u =>
      simp only [Recognizer.hear, Board.apply, hb]
      exact ⟨h.known_observe (of_decide_eq_true hg) _, h.drag⟩
    | drag u =>
      simp only [Recognizer.hear, Board.apply, hb]
      refine ⟨h.known_observe (of_decide_eq_true hg) _, ?_⟩
      rintro d hd rfl
      obtain rfl := Option.some.inj hd
      exact absurd rfl (of_decide_eq_true hg)
    | dropOn u =>
      simp only [Recognizer.hear, Board.apply, hb]
      have hknown := h.known_observe (of_decide_eq_true hg) { b with droppedOn := some u }
      cases hd : re.drag <;> simp only [if_true, notify, hd]
      · exact recalls_of_known hknown hd
      · exact recalls_of_known hknown rfl
    | dropOnHoldingArea =>
      simp only [Recognizer.hear, Board.apply, hb]
      refine ⟨h.known, fun d hd => ?_⟩
      obtain ⟨d', hd', rfl⟩ := Option.map_eq_some_iff.mp hd
      exact h.drag d' hd'
    | move u left top =>
      simp only [Recognizer.hear, Board.apply, hb]
      exact h

end Recognizer

/-! ### From a drag to a release -/

namespace LiveBoard

variable {J : Type} [Judge J] {t : Token} {b : LiveBoard J} {box : Box} {gs : List Gesture}

/-- The box that token `t` had when all tokens were last shown, if they were while gestures are made
one after another. -/
def lastShown (t : Token) (b : LiveBoard J) : List Gesture → Option Box
  | [] => none
  | g :: gs =>
    (lastShown t (b.perform g).2 gs).or
      (if b.recognizer.showsAll b.board g then some (b.board.boxOf t) else none)

theorem contains_perform (b : LiveBoard J) (g : Gesture) :
    (b.perform g).2.board.contains = b.board.contains := by
  rw [perform_eq]
  exact b.recognizer.contains_hear b.board g

theorem contains_performAll (b : LiveBoard J) (gs : List Gesture) :
    (b.performAll gs).board.contains = b.board.contains := by
  induction gs generalizing b with
  | nil => rfl
  | cons g gs ih => rw [performAll, List.foldl_cons, ← performAll, ih, contains_perform]

/-- While no token on the board is released, all tokens are not shown. -/
theorem lastShown_eq_none (h : ∀ u, b.board.contains u = true → .release u ∉ gs) :
    b.lastShown t gs = none := by
  induction gs generalizing b with
  | nil => rfl
  | cons g gs ih =>
    have hshows : b.recognizer.showsAll b.board g = false := by
      refine Recognizer.showsAll_eq_false fun u hg => ?_
      rw [← Bool.not_eq_true]
      exact fun hu => h u hu (hg ▸ List.mem_cons_self)
    rw [lastShown, hshows, ih]
    · rfl
    · intro u hu hmem
      rw [contains_perform] at hu
      exact h u hu (List.mem_cons_of_mem _ hmem)

/-- What is recalled of a token after gestures that at most move it. -/
theorem recalls_performAll (h : b.recognizer.Recalls t box) (ht : b.board.contains t = true)
    (hgs : ∀ g ∈ gs, g.atMostMoves t = true) :
    (b.performAll gs).recognizer.Recalls t ((b.lastShown t gs).getD box) := by
  induction gs generalizing b box with
  | nil => exact h
  | cons g gs ih =>
    have hhear : (b.perform g).2.recognizer.Recalls t
        (if b.recognizer.showsAll b.board g then b.board.boxOf t else box) := by
      rw [perform_eq]
      exact h.hear ht (hgs g List.mem_cons_self)
    have hrest := ih hhear (by rw [contains_perform, ht])
      fun g' hg' => hgs g' (List.mem_cons_of_mem _ hg')
    rw [performAll, List.foldl_cons, ← performAll, lastShown, Option.getD_or]
    cases hshows : b.recognizer.showsAll b.board g <;> rwa [hshows] at hrest

/-- What is recalled of a token from its drag on. -/
theorem recalls_of_drag (ht : b.board.contains t = true) (hgs : ∀ g ∈ gs, g.atMostMoves t = true) :
    ((b.perform (.drag t)).2.performAll gs).recognizer.Recalls t
      (((b.perform (.drag t)).2.lastShown t gs).getD (b.board.boxOf t)) := by
  refine recalls_performAll ?_ ?_ hgs
  · rw [perform_eq]
    exact b.recognizer.recalls_drag ht
  · rw [contains_perform, ht]

/-- A release when nothing is held is submitted as a touch. -/
theorem exists_touch_of_release {b : LiveBoard (Recorded J)} (ht : b.board.contains t = true)
    (hheld : b.recognizer.drag.any (·.held) = false) :
    ∃ r : Release, r.token = t ∧ r.before = b.recognizer.boxBefore b.board t ∧
      (b.perform (.release t)).2.judge.log = b.judge.log ++ [⟨.touch t, some r⟩] := by
  refine ⟨⟨t, b.recognizer.boxBefore b.board t, b.board.boxOf t,
    (b.recognizer.touchReleased b.board t).1.known⟩, rfl, rfl, ?_⟩
  rw [log_perform, Recognizer.hear_release_of_not_held ht hheld]
  rfl

/-- **A release is judged from where its token was last shown.** Say a token is dragged, and after
that at most moved until its release is submitted as a touch. Whatever has been done with other
tokens in the meantime, the touch is told with the box that the token had when another one was last
released and nothing was picked up, or if none was, with the box that it had when it was dragged. So
it is judged from where the drag started exactly if the token was there at that release. -/
theorem judged_from_last_shown (l : Layout) (j : J) {t : Token} (ht : t ∈ l.tokens)
    (earlier between : List Gesture) (hbetween : ∀ g ∈ between, g.atMostMoves t = true) :
    let before := (start l (Recorded.mk j [])).performAll earlier
    let dragged := (before.perform (.drag t)).2
    let b := dragged.performAll between
    let origin := before.board.boxOf t
    ∀ s, (b.perform (.release t)).2.judge.log = b.judge.log ++ [s] → s.interaction = .touch t →
      ∃ r, s.release = some r ∧ r.token = t ∧
        r.before = (dragged.lastShown t between).getD origin ∧
        (r.before = origin ↔ ∀ box ∈ dragged.lastShown t between, box = origin) ∧
        ((∀ u ∈ l.tokens, .release u ∉ between) → r.before = origin) := by
  intro before dragged b origin s hs htouch
  have hbefore : before.board.contains = l.tokens.contains :=
    (contains_performAll _ earlier).trans (Board.contains_ofLayout l)
  have hdragged : dragged.board.contains = l.tokens.contains :=
    (contains_perform before (.drag t)).trans hbefore
  have htokens : l.tokens.contains t = true := List.contains_iff_mem.mpr ht
  have hb : b.board.contains t = true := by
    rw [contains_performAll, hdragged, htokens]
  have hbox : b.recognizer.boxBefore b.board t = (dragged.lastShown t between).getD origin :=
    (recalls_of_drag (hbefore ▸ htokens) hbetween).boxBefore b.board
  cases hheld : b.recognizer.drag.any (·.held) with
  | true =>
    -- what is picked up is not touched
    obtain ⟨d, hd, hh⟩ := (Option.any_eq_true _ _).mp hheld
    rw [log_perform, Recognizer.hear_release_of_held hb hd hh, List.append_cancel_left_eq] at hs
    obtain rfl := List.singleton_inj.mp hs
    cases htouch
  | false =>
    obtain ⟨r, hr, hfrom, hlog⟩ := exists_touch_of_release hb hheld
    rw [hlog, List.append_cancel_left_eq] at hs
    obtain rfl := List.singleton_inj.mp hs
    rw [hbox] at hfrom
    refine ⟨r, rfl, hr, hfrom, ?_, fun hnone => ?_⟩
    · rw [hfrom]
      cases dragged.lastShown t between <;> simp
    · rw [hfrom, lastShown_eq_none fun u hu => hnone u ?_]
      · rfl
      · rwa [hdragged, List.contains_iff_mem] at hu

/-- The black circle is released when the red one is at another place than at its start. This is
where a release of the red one is judged from, although it has been moved on. -/
theorem judged_from_release_of_another :
    let red : Token := ⟨.red, .circle, none⟩
    let black : Token := ⟨.black, .circle, none⟩
    let rule : Rule := .leaf (.pickUp red)
    let before := (start .standard (Recorded.mk (Referee.ofRule rule .centers) [])).performAll
      [.click black]
    let between : List Gesture := [.move red 500 0, .drag black, .release black, .move red 0 300]
    let dragged := (before.perform (.drag red)).2
    let b := dragged.performAll between
    red ∈ Layout.standard.tokens ∧ (∀ g ∈ between, g.atMostMoves red = true) ∧
      ∃ r, (b.perform (.release red)).2.judge.log = b.judge.log ++ [⟨.touch red, some r⟩] ∧
        r.before = (before.board.boxOf red).moveTo 500 0 := by
  intro red black rule before between dragged b
  have hred : red ∈ Layout.standard.tokens := by decide
  have hbetween : ∀ g ∈ between, g.atMostMoves red = true := by
    simp [between, Gesture.atMostMoves, red, black]
  have hb : b.board.contains red = true := by decide +kernel
  have hheld : b.recognizer.drag.any (·.held) = false := by decide +kernel
  obtain ⟨r, -, -, hlog⟩ := exists_touch_of_release hb hheld
  have hmain := judged_from_last_shown .standard (Referee.ofRule rule .centers) hred [.click black]
    between hbetween
  extract_lets origin at hmain
  obtain ⟨r', hr, -, hbox, -⟩ := hmain _ hlog rfl
  obtain rfl := Option.some.inj hr
  exact ⟨hred, hbetween, r, hlog, hbox⟩

/-- The black circle is released when the red one has been moved away from the black square. Where
its drag started is forgotten by that, and its own release shows no move. -/
theorem not_judged_from_drag :
    let red : Token := ⟨.red, .circle, none⟩
    let black : Token := ⟨.black, .circle, none⟩
    let rule : Rule := .leaf (.moveAwayFrom red ⟨.black, .square, none⟩)
    let before := start .standard (Recorded.mk (Referee.ofRule rule .centers) [])
    let moved := (before.perform (.drag red)).2.performAll [.move red 500 0]
    let b := (moved.perform (.release black)).2
    (∃ r, (b.perform (.release red)).2.judge.log = b.judge.log ++ [⟨.touch red, some r⟩] ∧
      r.before ≠ before.board.boxOf red) ∧
    (moved.perform (.release red)).1 = some .completed ∧
    (b.perform (.release red)).1 = some .ignored := by
  intro red black rule before moved b
  obtain ⟨r, -, hfrom, hlog⟩ := exists_touch_of_release (b := b) (t := red) (by decide +kernel)
    (by decide +kernel)
  refine ⟨⟨r, hlog, ?_⟩, by decide +kernel, by decide +kernel⟩
  rw [hfrom]
  intro heq
  have hleft : (b.recognizer.boxBefore b.board red).left.toBits =
      (before.board.boxOf red).left.toBits := congrArg (·.left.toBits) heq
  exact absurd hleft (by decide +kernel)

end LiveBoard

end BoardTrial
