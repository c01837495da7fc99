import BoardTrial.RuleText.Grammar
import BoardTrial.RuleText.Spelling

/-!
# Words on paper

Which lexemes a printed text has. What is read does not depend on where the text starts
(`Lexeme.Reads`). Words with separators between them print their lexemes whatever follows, as long
as it does not go on with the last word (`Lexeme.Prints`).
-/

namespace BoardTrial

namespace Lexeme

/-- The characters are read as these lexemes, wherever they stand. -/
def Reads (cs : List Char) (ls : List Lexeme) : Prop :=
  ∀ pos afterWord, ∃ xs, readFrom pos afterWord cs = .ok xs ∧ xs.map (·.value) = ls

/-- The text is read as these lexemes, and after them what follows it, if that does not go on with
its last word. -/
def Prints (s : String) (ls : List Lexeme) : Prop :=
  ∀ ⦃rest ls'⦄, Ends rest → Reads rest ls' → Reads (s.toList ++ rest) (ls ++ ls')

/-- The text is read as these lexemes, and after them what follows it, and goes on with no word. -/
def Separates (s : String) (ls : List Lexeme) : Prop :=
  ∀ ⦃rest ls'⦄, Reads rest ls' → Reads (s.toList ++ rest) (ls ++ ls') ∧ Ends (s.toList ++ rest)

theorem reads_nil : Reads [] [] := by
  intro pos afterWord
  exact ⟨[], by rw [readFrom], rfl⟩

theorem ends_nil : Ends [] := by simp [Ends]

theorem ends_cons {c : Char} (hc : isWordChar c = false) (cs : List Char) : Ends (c :: cs) := by
  simp [Ends, hc]

theorem reads_spacing {c : Char} {cs : List Char} {ls : List Lexeme} (hc : isSpacing c = true)
    (h : Reads cs ls) : Reads (c :: cs) ls := by
  intro pos afterWord
  rw [readFrom, if_pos hc]
  exact h (pos + 1) false

theorem reads_comma {cs : List Char} {ls : List Lexeme} (h : Reads cs ls) :
    Reads (',' :: cs) (comma :: ls) := by
  intro pos afterWord
  obtain ⟨xs, hxs, rfl⟩ := h (pos + 1) false
  refine ⟨⟨comma, pos, pos + 1⟩ :: xs, ?_, rfl⟩
  rw [readFrom, if_neg (by decide), if_pos rfl, hxs]
  rfl

theorem reads_newline {cs : List Char} {ls : List Lexeme} (h : Reads cs ls) :
    Reads ('\n' :: cs) (newline :: ls) := by
  intro pos afterWord
  obtain ⟨xs, hxs, rfl⟩ := h (pos + 1) false
  refine ⟨⟨newline, pos, pos + 1⟩ :: xs, ?_, rfl⟩
  rw [readFrom, if_neg (by decide), if_neg (by decide), if_pos rfl, hxs]
  rfl

/-! ### Separators -/

theorem separates_space : Separates " " [] := by
  intro rest ls' h
  exact ⟨reads_spacing (c := ' ') (by decide) h, ends_cons (by decide) _⟩

theorem separates_comma : Separates ", " [comma] := by
  intro rest ls' h
  exact ⟨reads_comma (reads_spacing (c := ' ') (by decide) h), ends_cons (by decide) _⟩

theorem separates_newline : Separates "\n" [newline] := by
  intro rest ls' h
  exact ⟨reads_newline h, ends_cons (by decide) _⟩

/-- Printed texts are read one after another, if a separator stands between them. -/
theorem Prints.append {a sep b : String} {u v w : List Lexeme} (ha : Prints a u)
    (hsep : Separates sep v) (hb : Prints b w) : Prints (a ++ sep ++ b) (u ++ v ++ w) := by
  intro rest ls' hrest h
  obtain ⟨hread, hends⟩ := hsep (hb hrest h)
  simp only [String.toList_append, List.append_assoc] at hread hends ⊢
  exact ha hends hread

/-- Printed texts are read one after another, if a blank stands between them. -/
theorem Prints.blank {a b : String} {u v : List Lexeme} (ha : Prints a u) (hb : Prints b v) :
    Prints (a ++ " " ++ b) (u ++ v) := by
  have h := ha.append separates_space hb
  rwa [List.append_nil] at h

/-! ### Words -/

/-- A text that the lexer takes for one word. -/
def isWord (w : String) : Bool :=
  match w.toList with
  | [] => false
  | c :: cs => isWordStart c && cs.all isWordChar

/-- A word begins with no blank and no mark. -/
theorem not_isWordStart {c : Char} (h : isSpacing c = true ∨ c = ',' ∨ c = '\n') :
    isWordStart c = false := by
  simp only [isSpacing, Bool.or_eq_true, beq_iff_eq] at h
  rcases h with ((rfl | rfl) | rfl) | rfl | rfl <;> decide

/-- A stretch of characters of one class ends where another character follows. -/
theorem takeWhile_of_stops {p : Char → Bool} {w rest : List Char} (hw : ∀ c ∈ w, p c = true)
    (hr : ∀ c ∈ rest.head?, p c = false) :
    (w ++ rest).takeWhile p = w ∧ (w ++ rest).dropWhile p = rest := by
  rw [List.takeWhile_append_of_pos hw, List.dropWhile_append_of_pos hw]
  cases rest with
  | nil => simp
  | cons c rest =>
    have hc : p c = false := hr c rfl
    simp [hc]

theorem takeWhile_of_ends {w rest : List Char} (hw : w.all isWordChar = true) (hr : Ends rest) :
    (w ++ rest).takeWhile isWordChar = w ∧ (w ++ rest).dropWhile isWordChar = rest :=
  takeWhile_of_stops (List.all_eq_true.mp hw) hr

/-- A word is read as its lexeme. -/
theorem prints_word {w : String} (hw : isWord w = true) : Prints w [ofWord w] := by
  intro rest ls' hrest h pos afterWord
  unfold isWord at hw
  cases hcs : w.toList with
  | nil => simp [hcs] at hw
  | cons c cs =>
    simp only [hcs, Bool.and_eq_true] at hw
    obtain ⟨htake, hdrop⟩ := takeWhile_of_ends hw.2 hrest
    have hnot : ∀ h : isSpacing c = true ∨ c = ',' ∨ c = '\n', False := fun h => by
      simp [not_isWordStart h] at hw
    have hc₁ : ¬ isSpacing c = true := fun h => hnot (.inl h)
    have hc₂ : c ≠ ',' := fun h => hnot (.inr (.inl h))
    have hc₃ : c ≠ '\n' := fun h => hnot (.inr (.inr h))
    obtain ⟨xs, hxs, rfl⟩ := h (pos + (c :: cs).length) true
    refine ⟨⟨ofWord w, pos, pos + (c :: cs).length⟩ :: xs, ?_, rfl⟩
    rw [List.cons_append, readFrom, if_neg hc₁, if_neg hc₂, if_neg hc₃, if_pos hw.1, htake, hdrop]
    simp only [← hcs, String.ofList_toList] at hxs ⊢
    rw [hxs]
    rfl

/-- Words with blanks between them are read as their lexemes. -/
theorem prints_words {ws : List String} (hne : ws ≠ []) (hws : ∀ w ∈ ws, isWord w = true) :
    Prints (" ".intercalate ws) (ws.map ofWord) := by
  induction ws with
  | nil => exact absurd rfl hne
  | cons w ws ih =>
    obtain ⟨hw, hws⟩ := List.forall_mem_cons.mp hws
    cases ws with
    | nil =>
      rw [String.intercalate_singleton]
      exact prints_word hw
    | cons w' ws =>
      rw [String.intercalate_cons_cons]
      exact (prints_word hw).blank (ih (by simp) hws)

/-- A printed text has the lexemes it prints. -/
theorem Prints.read {s : String} {ls : List Lexeme} (h : Prints s ls) :
    ∃ xs, Lexeme.read s = .ok xs ∧ xs.map (·.value) = ls := by
  have hread := h ends_nil reads_nil
  rw [List.append_nil, List.append_nil] at hread
  exact hread 0 false

/-! ### The words of the rule language -/

theorem isWord_keyword (k : Keyword) : isWord k.word = true := by cases k <;> decide

theorem isWord_color (c : Color) : isWord c.word = true := by cases c <;> decide

theorem isWord_shape (s : Shape) : isWord s.word = true := by cases s <;> decide

theorem isWord_size (z : Size) : isWord z.word = true := by cases z <;> decide

@[simp] theorem ofWord_keyword (k : Keyword) : ofWord k.word = keyword k := by
  simp [ofWord]

@[simp] theorem ofWord_color (c : Color) : ofWord c.word = color c := by
  cases c <;> decide

@[simp] theorem ofWord_shape (s : Shape) : ofWord s.word = shape s := by
  cases s <;> decide

@[simp] theorem ofWord_size (z : Size) : ofWord z.word = size z := by
  cases z <;> decide

theorem prints_keyword (k : Keyword) : Prints k.word [keyword k] := by
  rw [← ofWord_keyword]
  exact prints_word (isWord_keyword k)

/-- A text that goes on with a fixed word and another text. -/
theorem Prints.word {s t : String} {u v : List Lexeme} (hs : Prints s u) (k : Keyword)
    (ht : Prints t v) : Prints (s ++ (" " ++ k.word ++ " ") ++ t) (u ++ keyword k :: v) := by
  have h := (hs.blank (prints_keyword k)).blank ht
  simpa only [String.append_assoc, List.append_assoc, List.singleton_append] using h

end Lexeme

end BoardTrial
