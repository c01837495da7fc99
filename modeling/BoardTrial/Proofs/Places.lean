import BoardTrial.Board.Past
import BoardTrial.Proofs.Dragging

/-!
# Where the tokens are

The board, the recognizer and a drag in progress each keep boxes of tokens, and each gesture changes
some of them: a move is not told to the recognizer, and a release that picks a token up shows no
token. What they keep is what can be read off the gestures (`Recognizer.Told`), so **a release tells
the places that the tokens have on the board** (`LiveBoard.boxes_told`), and the place of the
released one when its drag started.
-/

namespace BoardTrial

namespace TokenMap

variable {α : Type}

theorem mem_tokens_iff (m : TokenMap α) (t : Token) :
    t ∈ m.tokens ↔ (m.get? t).isSome = true := by
  rw [tokens, get?]
  induction m.entries with
  | nil => simp
  | cons e es ih =>
    obtain ⟨u, a⟩ := e
    rw [List.map_cons, List.mem_cons, ih, List.lookup_cons]
    cases htu : t == u
    · simp [beq_eq_false_iff_ne.mp htu]
    · simp [eq_of_beq htu]

/-- If each token has one entry, the map has the values of the entries. -/
theorem get?_ofList {es : List (Token × α)} (h : (es.map (·.1)).Nodup) (t : Token) :
    (ofList es).get? t = es.lookup t := by
  have hfold : ∀ m : TokenMap α, (es.foldl (fun m e => m.insert e.1 e.2) m).get? t =
      (es.lookup t).or (m.get? t) := by
    induction es with
    | nil => simp
    | cons e es ih =>
      intro m
      obtain ⟨u, a⟩ := e
      obtain ⟨hu, hes⟩ := List.nodup_cons.mp h
      rw [List.foldl_cons, ih hes, get?_insert, List.lookup_cons]
      by_cases htu : t = u
      · have hnone : es.lookup t = none := by
          rw [List.lookup_eq_none_iff]
          intro e he
          rw [htu, bne_iff_ne]
          exact fun hue => hu (List.mem_map.mpr ⟨e, he, hue.symm⟩)
        simp [htu, htu ▸ hnone]
      · simp [htu, beq_eq_false_iff_ne.mpr htu]
  rw [ofList, hfold, get?_empty, Option.or_none]

end TokenMap

/-! ### Boxes on the board -/

namespace Layout

theorem nodup_tokens (l : Layout) : l.tokens.Nodup := by
  cases l <;> decide

theorem isSome_lookup_boxes (l : Layout) (t : Token) :
    (l.boxes.lookup t).isSome = l.tokens.contains t := by
  rw [← l.map_fst_boxes, ← TokenMap.isSome_get?_ofList, TokenMap.get?_ofList]
  rw [l.map_fst_boxes]
  exact l.nodup_tokens

/-- A token that is not on the board has the zero box. -/
theorem boxAfter_of_not_mem {l : Layout} {t : Token} (h : t ∉ l.tokens) (past : List Gesture) :
    l.boxAfter past t = .zero := by
  have hnone : l.boxes.lookup t = none := by
    rw [← Option.not_isSome_iff_eq_none, isSome_lookup_boxes]
    simpa using h
  rw [boxAfter, hnone]

/-- A token on the board is where it was, unless it is moved. -/
theorem boxAfter_cons {l : Layout} {t : Token} (h : t ∈ l.tokens) (g : Gesture)
    (past : List Gesture) :
    l.boxAfter (g :: past) t = match g.movedTo? t with
      | none => l.boxAfter past t
      | some (left, top) => (l.boxAfter past t).moveTo left top := by
  obtain ⟨start, hstart⟩ : ∃ start, l.boxes.lookup t = some start := by
    rw [← Option.isSome_iff_exists, isSome_lookup_boxes]
    simpa using h
  simp only [boxAfter, hstart, List.findSome?_cons]
  cases hg : g.movedTo? t with
  | none => rfl
  | some place =>
    simp only
    cases past.findSome? (·.movedTo? t) <;> rfl

end Layout

namespace Board

theorem mem_tokens_iff (b : Board) (t : Token) : t ∈ b.tokens ↔ b.contains t = true :=
  b.boxes.mem_tokens_iff t

/-- A token that is not on the board has the zero box. -/
theorem boxOf_of_not_contains {b : Board} {t : Token} (h : b.contains t = false) :
    b.boxOf t = .zero := by
  rw [contains, Option.isSome_eq_false_iff, Option.isNone_iff_eq_none] at h
  rw [boxOf, h]
  rfl

/-- A token on the board stays where it is, unless it is moved. -/
theorem boxOf_apply {b : Board} {t : Token} (h : b.contains t = true) (g : Gesture) :
    (b.apply g).1.boxOf t = match g.movedTo? t with
      | none => b.boxOf t
      | some (left, top) => (b.boxOf t).moveTo left top := by
  cases g with
  | move u left top =>
    rw [apply]
    by_cases hut : u = t
    · subst hut
      have hadmits : b.admits (.move u left top) = true := h
      simp [hadmits, Gesture.movedTo?, boxOf]
    · split
      · simp [Gesture.movedTo?, boxOf, TokenMap.get?_insert, hut, Ne.symm hut]
      · simp [Gesture.movedTo?, hut]
  | _ =>
    rw [apply]
    split <;> rfl

end Board

/-! ### Boxes that the recognizer knows -/

namespace Recognizer

variable {re : Recognizer} {b : Board} {t : Token}

theorem get?_observe (re : Recognizer) (b : Board) (t u : Token) :
    (re.observe b t).known.get? u = if t == u then some (b.boxOf u) else re.known.get? u := by
  rw [observe, TokenMap.get?_insert]
  by_cases htu : t = u
  · simp [htu]
  · simp [htu, Ne.symm htu]

theorem get?_observeAll (re : Recognizer) (b : Board) (ts : List Token) (u : Token) :
    (re.observeAll b ts).known.get? u =
      if u ∈ ts then some (b.boxOf u) else re.known.get? u := by
  induction ts generalizing re with
  | nil => rfl
  | cons t ts ih =>
    rw [observeAll, List.foldl_cons, ← observeAll, ih, get?_observe]
    by_cases hu : u ∈ ts
    · simp [hu]
    · by_cases htu : t = u
      · simp [htu]
      · simp [hu, htu, Ne.symm htu]

/-- A release that is a touch shows all tokens on the board. -/
theorem get?_touchReleased (re : Recognizer) (ht : b.contains t = true) (u : Token) :
    (re.touchReleased b t).1.known.get? u =
      if b.contains u then some (b.boxOf u) else re.known.get? u := by
  simp only [touchReleased, get?_observe, get?_observeAll, List.mem_filter, b.mem_tokens_iff]
  by_cases htu : t = u
  · subst htu
    simp [ht]
  · simp [htu, Ne.symm htu]

end Recognizer

/-! ### What is kept -/

/-- What a board and its recognizer keep is what can be read off the gestures. -/
structure Recognizer.Told (l : Layout) (past : List Gesture) (b : Board) (re : Recognizer) :
    Prop where
  /-- The tokens on the board. -/
  contains : b.contains = l.tokens.contains
  /-- Their boxes. -/
  boxOf (u : Token) : b.boxOf u = l.boxAfter past u
  /-- Their boxes when they were last seen. -/
  known (u : Token) : re.known.get? u = (l.lastSeen u past).map (l.boxAfter · u)
  /-- The drag in progress, and the box of its token when it started. -/
  drag : re.drag = (l.pendingDrag past).map fun d =>
    { token := d.token, origin := l.boxAfter d.earlier d.token, held := d.held }

namespace Recognizer

variable {l : Layout} {past : List Gesture} {b : Board} {re : Recognizer} {t : Token}

theorem Told.contains_iff (h : Told l past b re) (u : Token) :
    b.contains u = true ↔ u ∈ l.tokens := by
  rw [h.contains, List.contains_iff_mem]

theorem Told.admits_eq (h : Told l past b re) (g : Gesture) : b.admits g = l.admits g := by
  rw [Board.admits, h.contains, Layout.admits]

theorem Told.any_held (h : Told l past b re) : re.drag.any (·.held) = l.isHeld past := by
  rw [h.drag, Option.any_map]
  rfl

/-- A release is a touch of its token unless something is held. -/
theorem Told.hear_release (h : Told l past b re) (ht : l.admits (.release t) = true) :
    (re.hear b (.release t)).2 = if l.isHeld past then
        ({ re with drag := none }, (l.pendingDrag past).map fun d =>
          { interaction := .pickUp d.token })
      else ((re.touchReleased b t).1, some (re.touchReleased b t).2) := by
  rw [Recognizer.hear_release (by rwa [h.admits_eq])]
  dsimp only
  split
  · rename_i hheld
    obtain ⟨d, hd, hh⟩ := (Option.any_eq_true _ _).mp hheld
    have hdrag := h.drag
    rw [hd, Option.map_some] at hdrag
    rw [notify_released_of_held hdrag hh, hd]
    rfl
  · rename_i hheld
    refine notify_released_of_not_held (b := { b with released := some t }) ?_ rfl
    rw [← h.any_held] at hheld
    cases hdrag : re.drag with
    | none => rfl
    | some d => simpa [hdrag, Option.filter_some] using hheld

/-- A gesture shows the boxes of the tokens it sees. -/
theorem Told.get?_hear (h : Told l past b re) (g : Gesture) (u : Token) :
    (re.hear b g).2.1.known.get? u =
      if l.sees past u g then some (b.boxOf u) else re.known.get? u := by
  unfold Layout.sees
  cases hg : l.admits g with
  | false =>
    rw [hear_of_not_admits (by rwa [h.admits_eq])]
    rfl
  | true =>
    have hb : b.admits g = true := by rwa [h.admits_eq]
    rw [Bool.true_and]
    cases g with
    | click t | drag t =>
      simp only [hear, Board.apply, hb]
      exact get?_observe re _ t u
    | dropOn t =>
      simp only [hear, Board.apply, hb]
      cases hd : re.drag <;> simp only [if_true, notify, hd] <;> exact get?_observe re _ t u
    | dropOnHoldingArea | move t left top => simp [hear, Board.apply, hb, notify]
    | release t =>
      rw [h.hear_release hg]
      cases hheld : l.isHeld past with
      | true => simp
      | false =>
        have ht : b.contains t = true := hb
        simp only [Bool.false_eq_true, if_false, get?_touchReleased re ht, Bool.not_false,
          Bool.and_true, h.contains]

/-- A drag starts where its token is, and is kept until it ends. -/
theorem Told.drag_hear (h : Told l past b re) (g : Gesture) :
    (re.hear b g).2.1.drag = (l.pendingDrag (g :: past)).map fun d =>
      { token := d.token, origin := l.boxAfter d.earlier d.token, held := d.held } := by
  unfold Layout.pendingDrag
  cases hg : l.admits g with
  | false =>
    rw [hear_of_not_admits (by rwa [h.admits_eq])]
    exact h.drag
  | true =>
    have hb : b.admits g = true := by rwa [h.admits_eq]
    rw [if_pos rfl]
    cases g with
    | click t | move t left top =>
      simp only [hear, Board.apply, hb]
      exact h.drag
    | drag t =>
      simp only [hear, Board.apply, hb]
      show some (Drag.mk t (b.boxOf t) false) = some (Drag.mk t (l.boxAfter past t) false)
      rw [h.boxOf]
    | dropOn t =>
      simp only [hear, Board.apply, hb]
      cases hd : re.drag <;> simp [notify, hd, observe]
    | dropOnHoldingArea =>
      simp only [hear, Board.apply, hb]
      show re.drag.map _ = _
      rw [h.drag, Option.map_map, Option.map_map]
      rfl
    | release t =>
      rw [h.hear_release hg]
      split
      · rfl
      · exact Option.map_eq_none_iff.mp (re.touchReleased_eq b t).1

/-- **What is kept can be read off the gestures, after each of them.** -/
theorem Told.hear (h : Told l past b re) (g : Gesture) :
    Told l (g :: past) (re.hear b g).1 (re.hear b g).2.1 := by
  have hcontains : (re.hear b g).1.contains = l.tokens.contains :=
    (contains_hear re b g).trans h.contains
  have hboard : (re.hear b g).1 = (b.apply g).1 := by
    unfold Recognizer.hear
    split <;> simp_all
  refine ⟨hcontains, fun u => ?_, fun u => ?_, h.drag_hear g⟩
  · by_cases hu : u ∈ l.tokens
    · rw [hboard, Board.boxOf_apply ((h.contains_iff u).mpr hu), Layout.boxAfter_cons hu, h.boxOf]
    · rw [Layout.boxAfter_of_not_mem hu, Board.boxOf_of_not_contains]
      simpa [hcontains] using hu
  · rw [h.get?_hear, Layout.lastSeen]
    split
    · rw [h.boxOf, Option.map_some]
    · exact h.known u

/-- What is known of a token is where it was last seen. -/
theorem Told.knownBox (h : Told l past b re) (u : Token) :
    re.knownBox u = ((l.lastSeen u past).map (l.boxAfter · u)).getD .zero := by
  rw [Recognizer.knownBox, h.known]

/-- Before a release a token was where its drag started, or where it was last seen. -/
theorem Told.boxBefore (h : Told l past b re) (t : Token) :
    re.boxBefore b t = l.boxBefore past t := by
  rw [Recognizer.boxBefore, Layout.boxBefore, h.known, h.boxOf, h.drag]
  cases l.pendingDrag past with
  | none => rfl
  | some d =>
    dsimp only [Option.map_some]
    split
    · rename_i ht
      rw [ht]
    · rfl

end Recognizer

namespace LiveBoard

variable {J : Type} [Judge J]

end LiveBoard

end BoardTrial
