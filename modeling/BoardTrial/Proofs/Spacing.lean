import BoardTrial.Proofs.Tiling
import BoardTrial.Proofs.Unexpected
import BoardTrial.RuleText.Spacing

/-!
# Spacing says nothing

Two texts that are put together have the lexemes of both, unless a word runs across the seam
(`Lexeme.lexemes?_append`), so blanks make no lexemes and newlines make only newlines. Among the
lexemes of a rule one newline says what several say, and newlines at the ends say nothing
(`Draft.spells_newlines_iff`). So **texts that differ only in how they are spaced say the same
rule** (`Rule.read_iff_of_spacedAlike`).
-/

namespace BoardTrial

open Grammar

namespace Lexeme

/-! ### What the first character decides -/

section

variable {c : Char} (pos : Nat) (afterWord : Bool) (cs : List Char)

theorem readFrom_spacing (hc : isSpacing c = true) :
    readFrom pos afterWord (c :: cs) = readFrom (pos + 1) false cs := by
  rw [readFrom, if_pos hc]

theorem readFrom_comma : readFrom pos afterWord (',' :: cs) =
    (⟨comma, pos, pos + 1⟩ :: ·) <$> readFrom (pos + 1) false cs := by
  rw [readFrom, if_neg (by decide), if_pos rfl]

theorem readFrom_newline : readFrom pos afterWord ('\n' :: cs) =
    (⟨newline, pos, pos + 1⟩ :: ·) <$> readFrom (pos + 1) false cs := by
  rw [readFrom, if_neg (by decide), if_neg (by decide), if_pos rfl]

theorem readFrom_word (hc : isWordStart c = true) : readFrom pos afterWord (c :: cs) =
    (⟨ofWord (String.ofList (c :: cs.takeWhile isWordChar)), pos,
      pos + (c :: cs.takeWhile isWordChar).length⟩ :: ·) <$>
      readFrom (pos + (c :: cs.takeWhile isWordChar).length) true (cs.dropWhile isWordChar) := by
  have hnot (h : isSpacing c = true ∨ c = ',' ∨ c = '\n') : False := by
    rw [not_isWordStart h] at hc
    cases hc
  rw [readFrom, if_neg fun h => hnot (.inl h), if_neg fun h => hnot (.inr (.inl h)),
    if_neg fun h => hnot (.inr (.inr h)), if_pos hc]

theorem readFrom_stray (hs : isSpacing c = false) (hcomma : c ≠ ',') (hnewline : c ≠ '\n')
    (hc : isWordStart c = false) :
    readFrom pos afterWord (c :: cs) = .error ⟨c, pos, afterWord⟩ := by
  rw [readFrom, if_neg (by simp [hs]), if_neg hcomma, if_neg hnewline, if_neg (by simp [hc])]

end

/-- A text is empty, or begins with a blank, a mark, a word, or a character that begins none. -/
theorem text_induction {P : List Char → Prop} (nil : P [])
    (spacing : ∀ c cs, isSpacing c = true → P cs → P (c :: cs))
    (comma : ∀ cs, P cs → P (',' :: cs)) (newline : ∀ cs, P cs → P ('\n' :: cs))
    (word : ∀ c cs, isWordStart c = true → P (cs.dropWhile isWordChar) → P (c :: cs))
    (stray : ∀ c cs, isSpacing c = false → c ≠ ',' → c ≠ '\n' → isWordStart c = false →
      P (c :: cs)) (cs : List Char) : P cs := by
  refine readFrom.induct (fun _ _ cs => P cs) ?_ ?_ ?_ ?_ ?_ ?_ 0 false cs
  · exact fun _ _ => nil
  · exact fun _ _ c cs hc ih => spacing c cs hc ih
  · exact fun _ _ cs _ ih => comma cs ih
  · exact fun _ _ cs _ _ ih => newline cs ih
  · exact fun _ _ c cs _ _ _ hc ih => word c cs hc ih
  · exact fun _ _ c cs hs hcomma hnewline hc =>
      stray c cs (by simpa using hs) hcomma hnewline (by simpa using hc)

/-! ### Lexemes without their places -/

/-- The lexemes read, without their places. -/
def valuesOf : Except Stray (List (Located Lexeme)) → Option (List Lexeme)
  | .ok xs => some (xs.map (·.value))
  | .error _ => none

/-- The lexemes of a text, without their places. -/
def lexemes? (cs : List Char) : Option (List Lexeme) := valuesOf (readFrom 0 false cs)

theorem valuesOf_cons (x : Located Lexeme) (r : Except Stray (List (Located Lexeme))) :
    valuesOf ((x :: ·) <$> r) = (valuesOf r).map (x.value :: ·) := by
  cases r <;> rfl

/-- Where a text starts does not matter to what its lexemes are. -/
theorem valuesOf_readFrom (pos pos' : Nat) (afterWord afterWord' : Bool) (cs : List Char) :
    valuesOf (readFrom pos afterWord cs) = valuesOf (readFrom pos' afterWord' cs) := by
  induction cs using text_induction generalizing pos pos' afterWord afterWord' with
  | nil => rw [readFrom, readFrom]
  | spacing c cs hc ih =>
    rw [readFrom_spacing _ _ _ hc, readFrom_spacing _ _ _ hc]
    exact ih _ _ _ _
  | comma cs ih => simp only [readFrom_comma, valuesOf_cons, ih (pos + 1) (pos' + 1) false false]
  | newline cs ih =>
    simp only [readFrom_newline, valuesOf_cons, ih (pos + 1) (pos' + 1) false false]
  | word c cs hc ih =>
    simp only [readFrom_word _ _ _ hc, valuesOf_cons]
    rw [ih]
  | stray c cs hs hcomma hnewline hc =>
    rw [readFrom_stray _ _ _ hs hcomma hnewline hc, readFrom_stray _ _ _ hs hcomma hnewline hc]
    rfl

theorem lexemes?_nil : lexemes? [] = some [] := by
  rw [lexemes?, readFrom]
  rfl

theorem lexemes?_spacing {c : Char} (hc : isSpacing c = true) (cs : List Char) :
    lexemes? (c :: cs) = lexemes? cs := by
  rw [lexemes?, readFrom_spacing _ _ _ hc]
  exact valuesOf_readFrom _ _ _ _ _

theorem lexemes?_comma (cs : List Char) :
    lexemes? (',' :: cs) = (lexemes? cs).map (comma :: ·) := by
  rw [lexemes?, readFrom_comma, valuesOf_cons, valuesOf_readFrom _ 0 _ false]
  rfl

theorem lexemes?_newline (cs : List Char) :
    lexemes? ('\n' :: cs) = (lexemes? cs).map (newline :: ·) := by
  rw [lexemes?, readFrom_newline, valuesOf_cons, valuesOf_readFrom _ 0 _ false]
  rfl

theorem lexemes?_word {c : Char} (hc : isWordStart c = true) (cs : List Char) :
    lexemes? (c :: cs) = (lexemes? (cs.dropWhile isWordChar)).map
      (ofWord (String.ofList (c :: cs.takeWhile isWordChar)) :: ·) := by
  rw [lexemes?, readFrom_word _ _ _ hc, valuesOf_cons, valuesOf_readFrom _ 0 _ false]
  rfl

theorem lexemes?_stray {c : Char} (hs : isSpacing c = false) (hcomma : c ≠ ',')
    (hnewline : c ≠ '\n') (hc : isWordStart c = false) (cs : List Char) :
    lexemes? (c :: cs) = none := by
  rw [lexemes?, readFrom_stray _ _ _ hs hcomma hnewline hc]
  rfl

/-- A text says a rule just when its lexemes are a sentence, wherever they stand. -/
theorem read_ofList_eq_ok_iff (cs : List Char) (t : Rule) :
    Rule.read (String.ofList cs) = .ok t ↔ ∃ u, lexemes? cs = some u ∧ Sentence u t ∧
      ∀ i ∈ t.leaves, i.isUniform = true := by
  rw [Rule.read_eq_ok_iff, lexemes?, Lexeme.read, String.toList_ofList]
  cases readFrom 0 false cs with
  | error s => simp [valuesOf]
  | ok xs => simp [valuesOf]

/-! ### Texts put together -/

theorem Begins.of_append {a b : List Char} (h : Begins (a ++ b)) : Begins b := by
  rcases List.eq_nil_or_concat b with rfl | ⟨b, c, rfl⟩
  · simp [Begins]
  · simpa [Begins] using h

/-- **Two texts that are put together have the lexemes of both**, unless a run goes on across the
seam. -/
theorem lexemes?_append {p q : List Char} (h : Begins p ∨ Ends q) :
    lexemes? (p ++ q) = (lexemes? p).bind fun u => (lexemes? q).map (u ++ ·) := by
  induction p using text_induction with
  | nil => simp [lexemes?_nil]
  | spacing c cs hc ih =>
    rw [List.cons_append, lexemes?_spacing hc, lexemes?_spacing hc]
    exact ih (h.imp_left fun h => Begins.of_append (a := [c]) h)
  | comma cs ih =>
    rw [List.cons_append, lexemes?_comma, lexemes?_comma,
      ih (h.imp_left fun h => Begins.of_append (a := [',']) h)]
    cases lexemes? cs <;> simp [Function.comp_def]
  | newline cs ih =>
    rw [List.cons_append, lexemes?_newline, lexemes?_newline,
      ih (h.imp_left fun h => Begins.of_append (a := ['\n']) h)]
    cases lexemes? cs <;> simp [Function.comp_def]
  | word c cs hc ih =>
    have hchar : isWordChar c = true := ((isWordStart_iff c).mp hc).1
    have hrun := isRun_takeWhile (q := cs) hchar (p := []) (by simp [Begins])
    have hsplit : c :: cs = c :: cs.takeWhile isWordChar ++ cs.dropWhile isWordChar := by simp
    have hrest : Begins (cs.dropWhile isWordChar) ∨ Ends q :=
      h.imp_left fun h => Begins.of_append (hsplit ▸ h)
    have hends : Ends (cs.dropWhile isWordChar ++ q) := by
      cases hd : cs.dropWhile isWordChar with
      | cons d ds =>
        have hends := hrun.ends
        rw [hd] at hends
        simpa [Ends] using hends
      | nil =>
        -- the run is all of the text, and ends it
        rw [hd, List.append_nil] at hsplit
        rw [hsplit] at h
        exact h.resolve_left (not_begins_append (p := []) hrun.ne_nil hrun.chars)
    obtain ⟨htake, hdrop⟩ :=
      takeWhile_of_ends (w := cs.takeWhile isWordChar) List.all_takeWhile hends
    rw [← List.append_assoc, List.takeWhile_append_dropWhile] at htake hdrop
    rw [List.cons_append, lexemes?_word hc, lexemes?_word hc, htake, hdrop, ih hrest]
    cases lexemes? (cs.dropWhile isWordChar) <;> simp [Function.comp_def]
  | stray c cs hs hcomma hnewline hc =>
    rw [List.cons_append, lexemes?_stray hs hcomma hnewline hc,
      lexemes?_stray hs hcomma hnewline hc]
    rfl

/-- Blanks make no lexemes, and newlines make newlines. -/
theorem lexemes?_layout {n : List Char} (hn : ∀ c ∈ n, isSpacing c = true ∨ c = '\n') :
    lexemes? n = some (newlines (n.count '\n')) := by
  induction n with
  | nil => exact lexemes?_nil
  | cons c n ih =>
    obtain ⟨hc, hrest⟩ := List.forall_mem_cons.mp hn
    rcases hc with hc | rfl
    · have hne : c ≠ '\n' := by
        rintro rfl
        cases hc
      rw [lexemes?_spacing hc, ih hrest, List.count_cons_of_ne hne]
    · rw [lexemes?_newline, ih hrest, List.count_cons_self]
      rfl

theorem isWordChar_of_layout {c : Char} (h : isSpacing c = true ∨ c = '\n') :
    isWordChar c = false := by
  rcases h with h | rfl
  · exact isWordChar_of_isSpacing h
  · decide

/-- Texts with blanks and newlines between have the lexemes of both, and the newlines between. -/
theorem lexemes?_between {p n q : List Char} (hn : ∀ c ∈ n, isSpacing c = true ∨ c = '\n')
    (h : n = [] → Begins p ∨ Ends q) :
    lexemes? (p ++ n ++ q) = (lexemes? p).bind fun u =>
      (lexemes? q).map (u ++ newlines (n.count '\n') ++ ·) := by
  cases n with
  | nil =>
    rw [List.append_nil, lexemes?_append (h rfl)]
    simp [newlines]
  | cons c n =>
    have hends : Ends (c :: n) := by
      simpa [Ends] using isWordChar_of_layout (hn c List.mem_cons_self)
    have hbegins : Begins (p ++ c :: n) := by
      intro d hd
      rw [List.getLast?_append_of_ne_nil _ (List.cons_ne_nil c n)] at hd
      exact isWordChar_of_layout (hn d (List.mem_of_getLast? hd))
    rw [lexemes?_append (.inl hbegins), lexemes?_append (.inr hends), lexemes?_layout hn]
    cases lexemes? p <;> simp

end Lexeme

/-! ### Newlines of a rule -/

namespace Draft

variable {d e : Draft} {t : Rule}

/-- The draft that lexemes lead to, wherever they stand. -/
def advanceAll (d : Draft) (u : List Lexeme) : Option Draft :=
  u.foldlM (fun d x => d.advance ⟨x, .point 0⟩) d

/-- Lexemes are completed by what completes the draft they lead to. -/
theorem spells_append_iff (hd : d.Tidy) (u w : List Lexeme) :
    d.Spells (u ++ w) t ↔ ∃ e, d.advanceAll u = some e ∧ e.Tidy ∧ e.Spells w t := by
  induction u generalizing d with
  | nil => simp [advanceAll, hd]
  | cons x u ih =>
    rw [List.cons_append, spells_cons_iff hd ⟨x, .point 0⟩, advanceAll, List.foldlM_cons]
    cases he : d.advance ⟨x, .point 0⟩ with
    | none => simp
    | some e => simpa [advanceAll] using ih ((advanced he).tidy hd)

/-- A blank line behind a newline changes nothing. -/
theorem advance_newline_again {s s' : Span} (h : d.advance ⟨.newline, s⟩ = some e) :
    e.advance ⟨.newline, s'⟩ = some e := by
  obtain ⟨S, C, L, place⟩ := d
  cases place with
  | inLeaf first start phrase => cases phrase <;> simp [advance, continueLeaf, Phrase.advance] at h
  | leafStart part first => simp [advance, beginLeaf] at h
  | afterLeaf i =>
    simp only [advance, reduceCtorEq, if_false, leaveClause, Option.some.injEq] at h
    rw [← h]
    rfl
  | _ =>
    cases h
    rfl

theorem spells_newline_newline (hd : d.Tidy) (v : List Lexeme) :
    d.Spells (.newline :: .newline :: v) t ↔ d.Spells (.newline :: v) t := by
  rw [spells_cons_iff hd ⟨.newline, .point 0⟩, spells_cons_iff hd ⟨.newline, .point 0⟩]
  refine exists_congr fun e => and_congr_right fun he => ?_
  rw [spells_cons_iff ((advanced he).tidy hd) ⟨.newline, .point 0⟩, advance_newline_again he]
  simp

/-- **One newline says what several say.** -/
theorem spells_newlines_iff (hd : d.Tidy) (n : Nat) (v : List Lexeme) :
    d.Spells (newlines (n + 1) ++ v) t ↔ d.Spells (.newline :: v) t := by
  induction n with
  | zero => exact Iff.rfl
  | succ n ih =>
    rw [newlines_succ, newlines_succ, List.cons_append, List.cons_append,
      spells_newline_newline hd]
    exact ih

/-- A newline at the end says nothing. -/
theorem spells_newline_iff (hd : d.Tidy) : d.Spells [.newline] t ↔ d.Spells [] t := by
  rw [spells_cons_iff hd ⟨.newline, .point 0⟩, spells_nil_iff hd]
  have hnil (e : Draft) (he : d.advance ⟨.newline, .point 0⟩ = some e) :
      e.Spells [] t ↔ e.rule? = some t := spells_nil_iff ((advanced he).tidy hd) t
  rw [exists_congr fun e => and_congr_right (hnil e)]
  obtain ⟨S, C, L, place⟩ := d
  cases place with
  | inLeaf first start phrase =>
    cases phrase <;> simp [advance, continueLeaf, Phrase.advance, rule?]
  | leafStart part first => simp [advance, beginLeaf, rule?]
  | _ => simp [advance, leaveClause, rule?]

end Draft

namespace Grammar

variable (u v : List Lexeme) (t : Rule)

/-- Between lexemes one newline says what several say. -/
theorem sentence_break_iff (m n : Nat) :
    Sentence (u ++ newlines (m + 1) ++ v) t ↔ Sentence (u ++ newlines (n + 1) ++ v) t := by
  simp only [sentence_iff_spells, List.append_assoc,
    Draft.spells_append_iff (Draft.tidy_start .rule)]
  refine exists_congr fun e => and_congr_right fun _ => and_congr_right fun he => ?_
  rw [Draft.spells_newlines_iff he, Draft.spells_newlines_iff he]

/-- Newlines before the first lexeme say nothing. -/
theorem sentence_before_iff (n : Nat) : Sentence (newlines n ++ v) t ↔ Sentence v t := by
  rw [sentence_iff_begin, sentence_iff_begin]
  induction n with
  | zero => exact Iff.rfl
  | succ n ih => rw [newlines_succ, List.cons_append, begin_newline_iff, ih]

/-- Newlines behind the last lexeme say nothing. -/
theorem sentence_behind_iff (n : Nat) : Sentence (u ++ newlines n) t ↔ Sentence u t := by
  cases n with
  | zero => simp [newlines]
  | succ n =>
    rw [← List.append_nil u, List.append_assoc, List.nil_append]
    simp only [sentence_iff_spells, Draft.spells_append_iff (Draft.tidy_start .rule)]
    refine exists_congr fun e => and_congr_right fun _ => and_congr_right fun he => ?_
    rw [← Draft.spells_newline_iff he, ← Draft.spells_newlines_iff he n [], List.append_nil]

end Grammar

/-! ### Digits -/

/-- A word that is not of the language belongs to no sentence. -/
theorem Draft.advance_unknown (d : Draft) (w : String) (s : Span) :
    d.advance ⟨.unknown w, s⟩ = none := by
  obtain ⟨S, C, L, place⟩ := d
  cases place with
  | inLeaf first start phrase => cases phrase <;> rfl
  | _ => rfl

theorem Grammar.Sentence.ne_unknown {u : List Lexeme} {t : Rule} (h : Sentence u t) {x : Lexeme}
    (hx : x ∈ u) (w : String) : x ≠ .unknown w := by
  rintro rfl
  obtain ⟨a, b, rfl⟩ := List.append_of_mem hx
  rw [sentence_iff_spells, Draft.spells_append_iff (Draft.tidy_start .rule)] at h
  obtain ⟨e, -, he, hs⟩ := h
  obtain ⟨e', he', -⟩ := (Draft.spells_cons_iff he ⟨.unknown w, .point 0⟩ b t).mp hs
  rw [Draft.advance_unknown] at he'
  cases he'

namespace Lexeme

/-- The words of the language have no digits. -/
theorem Names.not_isDigit {w : String} {l : Lexeme} (h : Names w l)
    (hl : ∀ v, l ≠ .unknown v) : ∀ c ∈ w.toList, c.isDigit = false := by
  have hall (v : String) (hv : v.toList.all (!·.isDigit) = true) :
      ∀ c ∈ v.toList, c.isDigit = false := by simpa using hv
  cases h with
  | keyword k => exact hall k.word (by cases k <;> decide)
  | color c => exact hall c.word (by cases c <;> decide)
  | shape s => exact hall s.word (by cases s <;> decide)
  | size z => exact hall z.word (by cases z <;> decide)
  | unknown _ _ _ _ => exact absurd rfl (hl w)

/-- **No rule is said with a digit.** -/
theorem not_isDigit_of_read {src : String} {t : Rule} (h : Rule.read src = .ok t) :
    ∀ c ∈ src.toList, c.isDigit = false := by
  obtain ⟨xs, hxs, hs, -⟩ := (Rule.read_eq_ok_iff src t).mp h
  intro c hc
  obtain ⟨p, q, heq⟩ := List.append_of_mem hc
  by_contra hd
  have hdigit : c.isDigit = true := by simpa using hd
  rcases (tiles_of_read hxs).covers heq with hblank | ⟨a, u, v, b, l, rfl, rfl, hstands, hmem⟩
  · have hchar := isWordChar_of_isDigit hdigit
    rw [isWordChar_of_isSpacing hblank] at hchar
    cases hchar
  · obtain ⟨-, hnames⟩ := hstands.isWord_of_mem (by simp) (isWordChar_of_isDigit hdigit)
    have hknown := fun w => hs.ne_unknown (List.mem_map_of_mem hmem) w
    have hnot := hnames.not_isDigit hknown c (by simp)
    rw [hnot] at hdigit
    cases hdigit

/-- What is before a text's last run, and the run. -/
theorem exists_last_run (p : List Char) :
    ∃ a w, p = a ++ w ∧ Begins a ∧ ∀ c ∈ w, isWordChar c = true := by
  induction p using List.reverseRecOn with
  | nil => exact ⟨[], [], rfl, by simp [Begins], by simp⟩
  | append_singleton p c ih =>
    by_cases hc : isWordChar c = true
    · obtain ⟨a, w, rfl, ha, hw⟩ := ih
      refine ⟨a, w ++ [c], by simp, ha, ?_⟩
      simpa [or_imp, forall_and] using ⟨hw, hc⟩
    · exact ⟨p ++ [c], [], by simp, begins_append (by simpa using hc), by simp⟩

/-- Where a run goes on across a seam at which no two words meet, there is a digit. -/
theorem exists_isDigit {p q : List Char} (hp : ¬ Begins p) (hq : ¬ Ends q)
    (h : ¬ (WordEnds p ∧ WordBegins q)) : ∃ c ∈ p ++ q, c.isDigit = true := by
  obtain ⟨a, w, rfl, ha, hw⟩ := exists_last_run p
  obtain ⟨c, q, rfl, hc⟩ : ∃ c q', q = c :: q' ∧ isWordChar c = true := by
    cases q with
    | nil => simp [Ends] at hq
    | cons c q => exact ⟨c, q, rfl, by simpa [Ends] using hq⟩
  by_contra hno
  have hdigit : ∀ d ∈ a ++ w ++ c :: q, d.isDigit = false := by simpa using hno
  have hne : w ≠ [] := by
    rintro rfl
    exact hp (by rwa [List.append_nil])
  refine h ⟨⟨a, w, rfl, ⟨hne, hw, ha, by simp [Ends]⟩, fun d hd => ?_⟩,
    ⟨c :: q.takeWhile isWordChar, q.dropWhile isWordChar, by simp,
      isRun_takeWhile hc (by simp [Begins]), fun d hd => ?_⟩⟩
  · have hmem := List.mem_of_head? hd
    exact (isWordStart_iff d).mpr ⟨hw d hmem, hdigit d (by simp [hmem])⟩
  · obtain rfl : c = d := by simpa using hd
    exact (isWordStart_iff c).mpr ⟨hc, hdigit c (by simp)⟩

/-! ### Texts spaced differently -/

/-- What texts with blanks and newlines between say. -/
theorem read_between_iff {p n q : List Char} (hn : ∀ c ∈ n, isSpacing c = true ∨ c = '\n')
    (h : n = [] → Begins p ∨ Ends q) (t : Rule) :
    Rule.read (String.ofList (p ++ n ++ q)) = .ok t ↔
      ∃ u v, lexemes? p = some u ∧ lexemes? q = some v ∧
        Sentence (u ++ newlines (n.count '\n') ++ v) t ∧ ∀ i ∈ t.leaves, i.isUniform = true := by
  rw [read_ofList_eq_ok_iff, lexemes?_between hn h]
  cases lexemes? p <;> cases lexemes? q <;> simp

theorem Blank.layout {s : List Char} (h : Blank s) : ∀ c ∈ s, isSpacing c = true ∨ c = '\n' :=
  fun c hc => .inl (h c hc)

theorem Blank.count_newline {s : List Char} (h : Blank s) : s.count '\n' = 0 := by
  rw [List.count_eq_zero]
  intro hmem
  have hs := h _ hmem
  cases hs

theorem Break.ne_nil {n : List Char} (h : Break n) : n ≠ [] := List.ne_nil_of_mem h.newline

theorem break_of_all {n : List Char} (hn : '\n' ∈ n)
    (h : n.all (fun c => isSpacing c || c == '\n') = true) : Break n :=
  ⟨hn, by simpa using h⟩

theorem Break.exists_count {n : List Char} (h : Break n) : ∃ k, n.count '\n' = k + 1 :=
  Nat.exists_eq_add_one.mpr (List.count_pos_iff.mpr h.newline)

/-- **Spacing a text differently in one place does not change what it says.** -/
theorem Respaced.read_iff {cs cs' : List Char} (h : Respaced cs cs') (t : Rule) :
    Rule.read (String.ofList cs) = .ok t ↔ Rule.read (String.ofList cs') = .ok t := by
  cases h with
  | @blanks p s s' q hs hs' hw =>
    by_cases hseam : (s = [] → Begins p ∨ Ends q) ∧ (s' = [] → Begins p ∨ Ends q)
    · rw [read_between_iff hs.layout hseam.1, read_between_iff hs'.layout hseam.2,
        hs.count_newline, hs'.count_newline]
    · -- a run goes on across the seam, and as no two words meet there is a digit in it
      have hnot : ¬ (Begins p ∨ Ends q) ∧ ¬ (WordEnds p ∧ WordBegins q) := by
        rw [not_and_or, Classical.not_imp, Classical.not_imp] at hseam
        rcases hseam with ⟨hnil, hrun⟩ | ⟨hnil, hrun⟩
        · exact ⟨hrun, fun h => (hw h.1 h.2).1 hnil⟩
        · exact ⟨hrun, fun h => (hw h.1 h.2).2 hnil⟩
      obtain ⟨c, hc, hd⟩ := exists_isDigit (fun h => hnot.1 (.inl h)) (fun h => hnot.1 (.inr h))
        hnot.2
      have hno (r : List Char) : Rule.read (String.ofList (p ++ r ++ q)) ≠ .ok t := by
        intro hr
        have hmem : c ∈ (String.ofList (p ++ r ++ q)).toList := by
          rcases List.mem_append.mp hc with hc | hc <;> simp [hc]
        rw [not_isDigit_of_read hr c hmem] at hd
        cases hd
      exact iff_of_false (hno s) (hno s')
  | @breaks p n n' q hn hn' =>
    obtain ⟨k, hk⟩ := hn.exists_count
    obtain ⟨k', hk'⟩ := hn'.exists_count
    rw [read_between_iff hn.layout fun h => absurd h hn.ne_nil,
      read_between_iff hn'.layout fun h => absurd h hn'.ne_nil, hk, hk']
    simp only [sentence_break_iff _ _ t k k']
  | @before n _ hn =>
    have hread := read_between_iff (p := []) (q := cs') hn.layout (fun h => absurd h hn.ne_nil) t
    rw [List.nil_append] at hread
    rw [hread, read_ofList_eq_ok_iff]
    simp [lexemes?_nil, sentence_before_iff]
  | @behind _ n hn =>
    have hread := read_between_iff (p := cs') (q := []) hn.layout (fun h => absurd h hn.ne_nil) t
    rw [List.append_nil] at hread
    rw [hread, read_ofList_eq_ok_iff]
    simp [lexemes?_nil, sentence_behind_iff]

end Lexeme

namespace Rule

open Lexeme

/-- **Texts that differ only in how they are spaced say the same**: one is read as a rule just when
the other is, and as the same. They may differ in the blanks anywhere but inside a word and where
two words would meet, in how many newlines are between lexemes, if there are any, and in the
newlines before the first lexeme and behind the last. -/
theorem read_iff_of_spacedAlike {src src' : String}
    (h : SpacedAlike src.toList src'.toList) (t : Rule) :
    Rule.read src = .ok t ↔ Rule.read src' = .ok t := by
  have hread : ∀ {cs cs'}, SpacedAlike cs cs' →
      (Rule.read (String.ofList cs) = .ok t ↔ Rule.read (String.ofList cs') = .ok t) := by
    intro cs cs' h
    induction h with
    | rel cs cs' h => exact h.read_iff t
    | refl cs => exact Iff.rfl
    | symm cs cs' _ ih => exact ih.symm
    | trans cs cs' cs'' _ _ ih ih' => exact ih.trans ih'
  simpa only [String.ofList_toList] using hread h

/-- Two steps, said plainly and with blank lines between and behind them. -/
theorem read_two_steps_spaced :
    SpacedAlike "touch red circle\ntouch red square".toList
        "touch red circle \r\n\n\ttouch red square\n".toList ∧
      Rule.read "touch red circle \r\n\n\ttouch red square\n" =
        .ok (.inOrder [.leaf (.touch ⟨.red, .circle, none⟩),
          .leaf (.touch ⟨.red, .square, none⟩)]) := by
  have hbreak : Respaced "touch red circle\ntouch red square".toList
      "touch red circle \r\n\n\ttouch red square".toList :=
    @Respaced.breaks "touch red circle".toList "\n".toList " \r\n\n\t".toList
      "touch red square".toList (break_of_all (by decide) (by decide))
      (break_of_all (by decide) (by decide))
  have hbehind : Respaced "touch red circle \r\n\n\ttouch red square\n".toList
      "touch red circle \r\n\n\ttouch red square".toList :=
    @Respaced.behind "touch red circle \r\n\n\ttouch red square".toList "\n".toList
      (break_of_all (by decide) (by decide))
  have h : SpacedAlike "touch red circle\ntouch red square".toList
      "touch red circle \r\n\n\ttouch red square\n".toList :=
    .trans _ _ _ (.rel _ _ hbreak) (.symm _ _ (.rel _ _ hbehind))
  exact ⟨h, (read_iff_of_spacedAlike h _).mp (by with_unfolding_all rfl)⟩

end Rule

end BoardTrial
