import BoardTrial.Proofs.Numerals
import BoardTrial.Proofs.WrittenGestures

/-!
# Gestures are written and read back

A line of a script is read as a gesture just when it is that gesture in writing, and in writing is
every gesture whose places are numbers, with padding and gaps as one likes.
-/

namespace BoardTrial

namespace Written

@[simp] theorem TokenName.token_ofToken (gap gap' : Gap) (t : Token) :
    (TokenName.ofToken gap gap' t).token = t := by
  obtain ⟨color, shape, size⟩ := t
  cases size <;> rfl

/-- The command for a gesture says that gesture. -/
theorem Command.gesture_ofGesture (gap : Nat → Gap) {g : Gesture} (h : g.isNumeric = true) :
    (Command.ofGesture gap g).gesture = g := by
  cases g with
  | move t left top =>
    rw [Gesture.isNumeric, Bool.and_eq_true, Bool.not_eq_true', Bool.not_eq_true'] at h
    rw [ofGesture, gesture, TokenName.token_ofToken, Numeral.toFloat_ofFloat h.1,
      Numeral.toFloat_ofFloat h.2]
  | _ => simp only [ofGesture, gesture, TokenName.token_ofToken]

/-- The places that a command says are numbers. -/
theorem Command.isNumeric_gesture (c : Command) : c.gesture.isNumeric = true := by
  cases c with
  | move _ _ _ _ left _ top =>
    rw [gesture, Gesture.isNumeric, left.isNaN_toFloat, top.isNaN_toFloat]
    rfl
  | _ => rfl

end Written

namespace Script

/-- A line with an error has the number of the line in it. -/
theorem readLine_error {n : Nat} {l : List Char} (h : ∀ g, readLine n l ≠ .ok g) :
    ∃ p, readLine n l = .error ⟨n, p⟩ := by
  rw [readLine] at h ⊢
  cases hread : Gesture.read l with
  | ok g => exact absurd (by rw [hread]; rfl) (h g)
  | error p => exact ⟨p, rfl⟩

theorem readLine_eq_ok_iff {n : Nat} {l : List Char} {g : Gesture} :
    readLine n l = .ok g ↔ ∃ w : WrittenGesture, w.text = l ∧ w.gesture = g := by
  have hread : readLine n l = .ok g ↔ Gesture.read l = .ok g := by
    rw [readLine]
    cases Gesture.read l <;> simp [Except.mapError]
  rw [hread]
  constructor
  · exact WrittenGesture.exists_of_read
  · rintro ⟨w, rfl, rfl⟩
    exact w.read_text

/-- A line is read as a gesture just when it is that gesture in writing, and it is so in one way
only; another line is an error with its number. In writing are the gestures whose places are
numbers, and each of them is read back, whatever padding and gaps it is written with. -/
theorem readLine_iff_written :
    (∀ (n : Nat) (l : List Char) (g : Gesture),
      readLine n l = .ok g ↔ ∃ w : WrittenGesture, w.text = l ∧ w.gesture = g) ∧
    (∀ w w' : WrittenGesture, w.text = w'.text → w = w') ∧
    (∀ (n : Nat) (l : List Char), (¬∃ w : WrittenGesture, w.text = l) →
      ∃ p, readLine n l = .error ⟨n, p⟩) ∧
    (∀ g : Gesture, (∃ w : WrittenGesture, w.gesture = g) ↔ g.isNumeric = true) ∧
    ∀ (n : Nat) (before behind : Written.Padding) (gap : Nat → Written.Gap) (g : Gesture),
      g.isNumeric = true →
        readLine n (WrittenGesture.ofGesture before behind gap g).text = .ok g := by
  have hback : ∀ (before behind : Written.Padding) (gap : Nat → Written.Gap) {g : Gesture},
      g.isNumeric = true → (WrittenGesture.ofGesture before behind gap g).gesture = g :=
    fun _ _ gap _ h => Written.Command.gesture_ofGesture gap h
  refine ⟨fun _ _ _ => readLine_eq_ok_iff, fun _ _ => WrittenGesture.text_injective, ?_, ?_, ?_⟩
  · intro n l hnone
    apply readLine_error
    intro g hg
    obtain ⟨w, htext, -⟩ := readLine_eq_ok_iff.mp hg
    exact hnone ⟨w, htext⟩
  · intro g
    constructor
    · rintro ⟨w, rfl⟩
      exact w.command.isNumeric_gesture
    · intro h
      exact ⟨_, hback ⟨[], by simp⟩ ⟨[], by simp⟩ (fun _ => ⟨[' '], by simp, by simp⟩) h⟩
  · intro n before behind gap g h
    exact readLine_eq_ok_iff.mpr ⟨_, rfl, hback before behind gap h⟩

end Script

end BoardTrial
