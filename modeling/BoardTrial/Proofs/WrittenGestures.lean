import BoardTrial.Proofs.Lexing
import BoardTrial.Script
import BoardTrial.Script.Written

/-!
# Gestures are read as they are written

Each part of a line is read as what it says, with what stands behind it left over, if that does not
go on with the part (the lemmas `…_append`); and what is read is such a part (the lemmas
`exists_…`). So a line is read as a gesture just when it is the gesture in writing. As reading takes
a part of a line from its beginning, a line is put together in one way only
(`WrittenGesture.text_injective`).
-/

namespace BoardTrial

open Written

namespace Line

/-- The characters do not begin with one of a class. -/
def Stops (p : Char → Bool) (cs : List Char) : Prop := ∀ c ∈ cs.head?, p c = false

variable {p : Char → Bool} {cs u r : List Char}

theorem stops_nil : Stops p [] := by simp [Stops]

theorem stops_cons {c : Char} (h : p c = false) : Stops p (c :: cs) := by simp [Stops, h]

/-- What begins with a character that is none of the class goes on as it likes. -/
theorem Stops.append (hne : u ≠ []) (h : Stops p u) : Stops p (u ++ r) := by
  cases u with
  | nil => exact absurd rfl hne
  | cons c u => exact stops_cons (h c rfl)

/-- One step succeeds after another just when both do. -/
theorem bind_eq_ok_iff {ε α β : Type} {x : Except ε α} {f : α → Except ε β} {b : β} :
    (x >>= f) = .ok b ↔ ∃ a, x = .ok a ∧ f a = .ok b := by
  cases x <;> simp [bind, Except.bind]

/-! ### Gaps and padding -/

theorem isGap_iff (c : Char) : isGap c = true ↔ c = ' ' ∨ c = '\t' := by simp [isGap]

theorem isPadding_iff (c : Char) : isPadding c = true ↔ c = ' ' ∨ c = '\t' ∨ c = '\r' := by
  simp [isPadding, isGap, or_assoc]

/-- A gap does not go on with anything but blanks. -/
theorem stops_gap (g : Gap) (hs : p ' ' = false) (ht : p '\t' = false) :
    Stops p (g.chars ++ r) := by
  apply Stops.append g.ne_nil
  intro c hc
  rcases g.blank c (List.mem_of_mem_head? hc) with rfl | rfl
  · exact hs
  · exact ht

theorem stops_padding (q : Padding) (hs : p ' ' = false) (ht : p '\t' = false)
    (hr : p '\r' = false) : Stops p q.chars := by
  intro c hc
  rcases q.blank c (List.mem_of_mem_head? hc) with rfl | rfl | rfl
  · exact hs
  · exact ht
  · exact hr

theorem gap_append (g : Gap) (hr : Stops isGap r) : gap (g.chars ++ r) = .ok r := by
  obtain ⟨cs, hne, hblank⟩ := g
  cases cs with
  | nil => exact absurd rfl hne
  | cons c cs =>
    have hgap : ∀ d ∈ c :: cs, isGap d = true := fun d hd => (isGap_iff d).mpr (hblank d hd)
    rw [List.forall_mem_cons] at hgap
    rw [List.cons_append, gap, if_pos hgap.1, (Lexeme.takeWhile_of_stops hgap.2 hr).2]

theorem exists_gap (h : gap cs = .ok r) : ∃ g : Gap, cs = g.chars ++ r := by
  cases cs with
  | nil => cases h
  | cons c cs =>
    rw [gap] at h
    split at h
    · rename_i hc
      cases h
      refine ⟨⟨c :: cs.takeWhile isGap, List.cons_ne_nil _ _, ?_⟩, ?_⟩
      · rw [List.forall_mem_cons]
        exact ⟨(isGap_iff c).mp hc,
          fun d hd => (isGap_iff d).mp (List.all_eq_true.mp List.all_takeWhile d hd)⟩
      · rw [List.cons_append, List.takeWhile_append_dropWhile]
    · cases h

/-! ### Words -/

/-- A word is read whole, and looked up. -/
theorem named_append {α : Type} (ofWord? : String → Option α) {w : String}
    (hw : Lexeme.isWord w = true) (hr : Stops isWordChar r) :
    named ofWord? (letters w ++ r) =
      match ofWord? w with
      | some a => .ok (a, r)
      | none => .error (.unknownWord w) := by
  unfold Lexeme.isWord at hw
  rw [letters]
  cases hcs : w.toList with
  | nil => simp [hcs] at hw
  | cons c cs =>
    rw [hcs, Bool.and_eq_true, List.all_eq_true] at hw
    obtain ⟨htake, hdrop⟩ := Lexeme.takeWhile_of_stops hw.2 hr
    have hstart : isWordStart c = true := hw.1
    have hword : String.ofList (c :: (cs ++ r).takeWhile isWordChar) = w := by
      rw [show (cs ++ r).takeWhile isWordChar = cs from htake, ← hcs, String.ofList_toList]
    have hrest : (cs ++ r).dropWhile isWordChar = r := hdrop
    cases hlook : ofWord? w <;>
      simp only [List.cons_append, named, hstart, if_true, hword, hrest, hlook]

theorem named_color (c : Color) (hr : Stops isWordChar r) :
    named Color.ofWord? (letters c.word ++ r) = .ok (c, r) := by
  rw [named_append _ (Lexeme.isWord_color c) hr, Color.ofWord?_word]

theorem named_shape (s : Shape) (hr : Stops isWordChar r) :
    named Shape.ofWord? (letters s.word ++ r) = .ok (s, r) := by
  rw [named_append _ (Lexeme.isWord_shape s) hr, Shape.ofWord?_word]

theorem named_size (z : Size) (hr : Stops isWordChar r) :
    named Size.ofWord? (letters z.word ++ r) = .ok (z, r) := by
  rw [named_append _ (Lexeme.isWord_size z) hr, Size.ofWord?_word]

/-- No color is a size. -/
theorem named_size_color (c : Color) (hr : Stops isWordChar r) :
    named Size.ofWord? (letters c.word ++ r) = .error (.unknownWord c.word) := by
  have hc : Size.ofWord? c.word = none := by cases c <;> decide
  rw [named_append _ (Lexeme.isWord_color c) hr, hc]

/-- What is read is a word that has a value. -/
theorem exists_word {α : Type} {ofWord? : String → Option α} {a : α}
    (h : named ofWord? cs = .ok (a, r)) : ∃ w, ofWord? w = some a ∧ cs = letters w ++ r := by
  cases cs with
  | nil => cases h
  | cons c cs =>
    rw [named] at h
    split at h
    · dsimp only at h
      split at h
      · rename_i b hb
        cases h
        refine ⟨_, hb, ?_⟩
        rw [letters, String.toList_ofList, List.cons_append, List.takeWhile_append_dropWhile]
      · cases h
    · cases h

/-- Words begin with no blank. -/
theorem stops_word {w : String} (hw : Lexeme.isWord w = true) :
    Stops isPadding (letters w ++ r) := by
  unfold Lexeme.isWord at hw
  rw [letters]
  cases hcs : w.toList with
  | nil => simp [hcs] at hw
  | cons c cs =>
    rw [hcs, Bool.and_eq_true] at hw
    refine stops_cons (Bool.eq_false_iff.mpr fun hc => ?_)
    rcases (isPadding_iff c).mp hc with rfl | rfl | rfl
    all_goals exact absurd hw.1 (by decide)

theorem Stops.gap (h : Stops isPadding cs) : Stops isGap cs := fun c hc =>
  (Bool.or_eq_false_iff.mp (h c hc)).1

/-! ### Tokens -/

theorem colorAndShape_append (z : Option Size) (c : Color) (g : Gap) (s : Shape)
    (hr : Stops isWordChar r) :
    colorAndShape z (letters c.word ++ g.chars ++ letters s.word ++ r) = .ok (⟨c, s, z⟩, r) := by
  rw [List.append_assoc, List.append_assoc, colorAndShape,
    named_color c (stops_gap g (by decide) (by decide))]
  simp only [bind, Except.bind]
  rw [gap_append g (stops_word (Lexeme.isWord_shape s)).gap]
  simp only [named_shape s hr, pure, Except.pure]

theorem exists_colorAndShape {z : Option Size} {t : Token} (h : colorAndShape z cs = .ok (t, r)) :
    ∃ (c : Color) (g : Gap) (s : Shape), t = ⟨c, s, z⟩ ∧
      cs = letters c.word ++ g.chars ++ letters s.word ++ r := by
  rw [colorAndShape, bind_eq_ok_iff] at h
  obtain ⟨⟨c, cs₁⟩, hc, h⟩ := h
  obtain ⟨cs₂, hg, h⟩ := bind_eq_ok_iff.mp h
  obtain ⟨⟨s, cs₃⟩, hs, h⟩ := bind_eq_ok_iff.mp h
  cases h
  obtain ⟨wc, hwc, rfl⟩ := exists_word hc
  obtain ⟨g, rfl⟩ := exists_gap hg
  obtain ⟨ws, hws, rfl⟩ := exists_word hs
  refine ⟨c, g, s, rfl, ?_⟩
  rw [Color.word_of_ofWord? hwc, Shape.word_of_ofWord? hws, List.append_assoc, List.append_assoc]

theorem token_append (also : List Wanted) (n : TokenName) (hr : Stops isWordChar r) :
    token also (n.text ++ r) = .ok (n.token, r) := by
  obtain ⟨size, c, g, s⟩ := n
  cases size with
  | none =>
    have hcs : letters c.word ++ g.chars ++ letters s.word ++ r =
        letters c.word ++ (g.chars ++ (letters s.word ++ r)) := by simp only [List.append_assoc]
    have hstop : Stops isWordChar (g.chars ++ (letters s.word ++ r)) :=
      stops_gap g (by decide) (by decide)
    show token also (letters c.word ++ g.chars ++ letters s.word ++ r) = .ok (⟨c, s, none⟩, r)
    rw [← colorAndShape_append none c g s hr, hcs, token, named_size_color c hstop,
      named_color c hstop]
  | some zg =>
    obtain ⟨z, g'⟩ := zg
    have hstop : Stops isWordChar (g'.chars ++ (letters c.word ++ g.chars ++ letters s.word ++ r)) :=
      stops_gap g' (by decide) (by decide)
    have hword : Stops isGap (letters c.word ++ g.chars ++ letters s.word ++ r) := by
      rw [List.append_assoc, List.append_assoc]
      exact (stops_word (Lexeme.isWord_color c)).gap
    have htext : TokenName.text ⟨some (z, g'), c, g, s⟩ ++ r =
        letters z.word ++ (g'.chars ++ (letters c.word ++ g.chars ++ letters s.word ++ r)) := by
      simp only [TokenName.text, Option.elim, List.append_assoc]
    rw [htext, token, named_size z hstop]
    simp only [gap_append g' hword, bind, Except.bind]
    exact colorAndShape_append (some z) c g s hr

theorem exists_tokenName {also : List Wanted} {t : Token} (h : token also cs = .ok (t, r)) :
    ∃ n : TokenName, n.token = t ∧ cs = n.text ++ r := by
  rw [token] at h
  split at h
  · rename_i z cs₁ hz
    obtain ⟨cs₂, hg, hcs⟩ := bind_eq_ok_iff.mp h
    obtain ⟨w, hw, rfl⟩ := exists_word hz
    obtain ⟨g', rfl⟩ := exists_gap hg
    obtain ⟨c, g, s, rfl, rfl⟩ := exists_colorAndShape hcs
    refine ⟨⟨some (z, g'), c, g, s⟩, rfl, ?_⟩
    simp only [TokenName.text, Option.elim, Size.word_of_ofWord? hw, List.append_assoc]
  · obtain ⟨c, g, s, rfl, rfl⟩ := exists_colorAndShape h
    exact ⟨⟨none, c, g, s⟩, rfl, rfl⟩
  · cases h

/-! ### Numbers -/

/-- What a numeral could go on with. -/
def isNumeric (c : Char) : Bool := c.isDigit || c == '.'

theorem whole_append (wanted : List Wanted) (n : Numeral) (hr : Stops Char.isDigit r) :
    whole wanted (n.whole ++ r) = .ok (n.whole, r) := by
  obtain ⟨⟨neg, w, f⟩, hne, hdigit, hzero, -⟩ := n
  cases w with
  | nil => exact absurd rfl hne
  | cons c w =>
    show whole wanted (c :: (w ++ r)) = .ok (c :: w, r)
    rw [List.forall_mem_cons] at hdigit
    rw [whole]
    split
    · rename_i hc
      have hw : c :: w = ['0'] := hzero (by rw [hc]; rfl)
      cases hw
      rfl
    · obtain ⟨htake, hdrop⟩ := Lexeme.takeWhile_of_stops hdigit.2 hr
      rw [if_pos hdigit.1, htake, hdrop]

theorem fraction_append (n : Numeral) (hr : Stops isNumeric r) :
    fraction (n.behindPoint ++ r) = (n.fraction, r) := by
  obtain ⟨⟨neg, w, f⟩, -, -, -, hdigit⟩ := n
  have hdigits : Stops Char.isDigit r := fun c hc => (Bool.or_eq_false_iff.mp (hr c hc)).1
  cases f with
  | nil =>
    show fraction r = ([], r)
    rw [fraction]
    intro d cs hcs
    have := hr '.' (by rw [hcs]; rfl)
    exact absurd this (by decide)
  | cons c f =>
    rw [List.forall_mem_cons] at hdigit
    obtain ⟨htake, hdrop⟩ := Lexeme.takeWhile_of_stops hdigit.2 hdigits
    show fraction ('.' :: c :: (f ++ r)) = (c :: f, r)
    rw [fraction, if_pos hdigit.1, htake, hdrop]

/-- No digit follows the digits before the point. -/
theorem stops_behindPoint (n : Numeral) (hr : Stops isNumeric r) :
    Stops Char.isDigit (n.behindPoint ++ r) := by
  rw [Numeral.behindPoint]
  split
  · exact fun c hc => (Bool.or_eq_false_iff.mp (hr c hc)).1
  · exact stops_cons (by decide)

theorem pixels_append (n : Numeral) (hr : Stops isNumeric r) :
    pixels (n.text ++ r) = .ok (n.toDecimal, r) := by
  have hwhole := fun wanted => whole_append wanted n (stops_behindPoint n hr)
  have hfraction := fraction_append n hr
  rw [Numeral.text, Numeral.sign, List.append_assoc, List.append_assoc]
  cases hneg : n.negative with
  | true =>
    show pixels ('-' :: (n.whole ++ (n.behindPoint ++ r))) = _
    simp only [pixels, List.head?_cons, List.tail_cons, if_true, hwhole, bind, Except.bind,
      hfraction, decide_true, ← hneg]
    rfl
  | false =>
    have hminus : (n.whole ++ (n.behindPoint ++ r)).head? ≠ some '-' := by
      intro h
      rw [List.head?_append_of_ne_nil _ n.ne_nil] at h
      exact absurd (n.isDigit_whole '-' (List.mem_of_mem_head? h)) (by decide)
    show pixels (n.whole ++ (n.behindPoint ++ r)) = _
    simp only [pixels, hminus, if_false, hwhole, bind, Except.bind, hfraction, decide_false, ← hneg]
    rfl

theorem exists_whole {wanted : List Wanted} {w : List Char} (h : whole wanted cs = .ok (w, r)) :
    cs = w ++ r ∧ w ≠ [] ∧ (∀ c ∈ w, c.isDigit = true) ∧ (w.head? = some '0' → w = ['0']) := by
  cases cs with
  | nil => cases h
  | cons c cs =>
    rw [whole] at h
    split at h
    · rename_i hc
      cases h
      exact ⟨rfl, List.cons_ne_nil _ _, by simp [hc], by simp [hc]⟩
    · rename_i hc
      split at h
      · rename_i hdigit
        cases h
        refine ⟨by rw [List.cons_append, List.takeWhile_append_dropWhile], List.cons_ne_nil _ _, ?_,
          fun hz => absurd (Option.some.inj hz) hc⟩
        rw [List.forall_mem_cons]
        exact ⟨hdigit, List.all_eq_true.mp List.all_takeWhile⟩
      · cases h

theorem fraction_cases (cs : List Char) :
    cs = (if (fraction cs).1.isEmpty then [] else '.' :: (fraction cs).1) ++ (fraction cs).2 ∧
      ∀ c ∈ (fraction cs).1, c.isDigit = true := by
  unfold fraction
  split
  · rename_i d cs
    split
    · rename_i hd
      refine ⟨?_, ?_⟩
      · simp
      · rw [List.forall_mem_cons]
        exact ⟨hd, List.all_eq_true.mp List.all_takeWhile⟩
    · simp
  · simp

theorem exists_numeral {d : Decimal} (h : pixels cs = .ok (d, r)) :
    ∃ n : Numeral, n.toDecimal = d ∧ cs = n.text ++ r := by
  obtain ⟨⟨w, cs₁⟩, hw, hd⟩ := bind_eq_ok_iff.mp h
  obtain ⟨hdigits, hne, hall, hzero⟩ := exists_whole hw
  obtain ⟨hfraction, hall'⟩ := fraction_cases cs₁
  cases hf : fraction cs₁ with
  | mk f cs₂ =>
    dsimp only at hd
    rw [hf] at hd hfraction hall'
    cases hd
    refine ⟨⟨⟨decide (cs.head? = some '-'), w, f⟩, hne, hall, hzero, hall'⟩, rfl, ?_⟩
    simp only [Numeral.text, Numeral.sign, Numeral.behindPoint, List.append_assoc]
    rw [← hfraction, ← hdigits]
    by_cases hneg : cs.head? = some '-'
    · cases cs with
      | nil => cases hneg
      | cons c cs =>
        obtain rfl : c = '-' := Option.some.inj hneg
        simp
    · simp [hneg]

/-! ### Fixed words -/

/-- None of the words begins another. -/
def PrefixFree {α : Type} (words : List (List Char × α)) : Prop :=
  ∀ x ∈ words, ∀ y ∈ words, x.1 <+: y.1 → x = y

section Choose

variable {α : Type} {words : List (List Char × α)} {w : List Char} {a : α}

theorem mem_goOn_iff {c : Char} : (w, a) ∈ goOn c words ↔ (c :: w, a) ∈ words := by
  rw [goOn, List.mem_filterMap]
  constructor
  · rintro ⟨⟨v, b⟩, hmem, h⟩
    cases v with
    | nil => cases h
    | cons d v =>
      simp only at h
      split at h
      · rename_i hd
        cases h
        rwa [← hd]
      · cases h
  · intro h
    exact ⟨(c :: w, a), h, by simp⟩

theorem PrefixFree.goOn {c : Char} (h : PrefixFree words) : PrefixFree (goOn c words) := by
  rintro ⟨u, a⟩ hu ⟨v, b⟩ hv huv
  have := h _ (mem_goOn_iff.mp hu) _ (mem_goOn_iff.mp hv) ((List.cons_prefix_cons).mpr ⟨rfl, huv⟩)
  cases this
  rfl

theorem nil_mem_of_find? (h : words.find? (·.1.isEmpty) = some (w, a)) : w = [] ∧ (w, a) ∈ words :=
  ⟨by simpa using List.find?_some h, List.mem_of_find?_eq_some h⟩

theorem choose_append (before : List Wanted) (hp : PrefixFree words) (h : (w, a) ∈ words) :
    choose before words (w ++ r) = .ok (a, r) := by
  induction w generalizing before words with
  | nil =>
    rw [choose]
    split
    · rename_i v b hb
      have := hp _ h _ (nil_mem_of_find? hb).2 (by simp)
      cases this
      rfl
    · rename_i hnone
      exact absurd (List.find?_eq_none.mp hnone _ h) (by simp)
  | cons c w ih =>
    have hnone : words.find? (·.1.isEmpty) = none := by
      rw [List.find?_eq_none]
      rintro ⟨v, b⟩ hv hempty
      have hnil : v = [] := List.isEmpty_iff.mp hempty
      have := hp _ hv _ h (by simp [hnil])
      simp [hnil] at this
    have hmem : (w, a) ∈ goOn c words := mem_goOn_iff.mpr h
    rw [List.cons_append, choose, hnone]
    dsimp only
    split
    · rename_i hnil
      rw [hnil] at hmem
      cases hmem
    · rename_i x xs hcons
      rw [← hcons]
      exact ih [] hp.goOn hmem

theorem exists_choose {before : List Wanted} (h : choose before words cs = .ok (a, r)) :
    ∃ w, (w, a) ∈ words ∧ cs = w ++ r := by
  induction cs generalizing before words with
  | nil =>
    rw [choose] at h
    split at h
    · rename_i v b hb
      cases h
      obtain ⟨rfl, hmem⟩ := nil_mem_of_find? hb
      exact ⟨[], hmem, rfl⟩
    · cases h
  | cons c cs ih =>
    rw [choose] at h
    split at h
    · rename_i v b hb
      cases h
      obtain ⟨rfl, hmem⟩ := nil_mem_of_find? hb
      exact ⟨[], hmem, rfl⟩
    · dsimp only at h
      split at h
      · cases h
      · rename_i x xs hcons
        rw [← hcons] at h
        obtain ⟨w, hw, rfl⟩ := ih h
        exact ⟨c :: w, mem_goOn_iff.mp hw, rfl⟩

end Choose

theorem fixed_append (before : List Wanted) (w : String) :
    fixed before w (letters w ++ r) = .ok r := by
  have hp : PrefixFree [(letters w, ())] := by simp [PrefixFree]
  have h := choose_append (r := r) before hp List.mem_cons_self
  rw [letters] at h
  rw [fixed, letters, h]
  rfl

theorem eq_append_of_fixed {before : List Wanted} {w : String} (h : fixed before w cs = .ok r) :
    cs = letters w ++ r := by
  rw [fixed] at h
  cases hc : choose before [(w.toList, ())] cs with
  | error e => rw [hc] at h; cases h
  | ok x =>
    rw [hc] at h
    cases h
    obtain ⟨v, hv, hcs⟩ := exists_choose (r := x.2) (a := x.1) hc
    simp only [List.mem_singleton, Prod.mk.injEq] at hv
    rw [hcs, hv.1, letters]

theorem prefixFree_verbs : PrefixFree verbs := by
  unfold PrefixFree
  decide

/-! ### Commands -/

theorem stops_tokenName (n : TokenName) : Stops isPadding (n.text ++ r) := by
  rw [TokenName.text, List.append_assoc, List.append_assoc, List.append_assoc]
  cases n.size with
  | none => exact stops_word (Lexeme.isWord_color n.color)
  | some zg =>
    rw [Option.elim, List.append_assoc]
    exact stops_word (Lexeme.isWord_size zg.1)

/-- The name of a token starts with none of the letters with which nothing on the board does. -/
theorem head_tokenName (n : TokenName) : (n.text ++ r).head? ≠ some 'h' := by
  rw [TokenName.text, List.append_assoc, List.append_assoc, List.append_assoc]
  cases n.size with
  | none => cases n.color <;> simp [Color.word, letters]
  | some zg =>
    obtain ⟨z, g⟩ := zg
    cases z <;> simp [Size.word, letters]

theorem stops_numeral (n : Numeral) : Stops isGap (n.text ++ r) := by
  rw [Numeral.text, Numeral.sign, List.append_assoc, List.append_assoc]
  split
  · exact stops_cons (by decide)
  · apply Stops.append n.ne_nil
    intro c hc
    rw [← Bool.not_eq_true, isGap_iff]
    have hdigit := n.isDigit_whole c (List.mem_of_mem_head? hc)
    rintro (rfl | rfl) <;> exact absurd hdigit (by decide)

/-- What follows a command goes on with no word and no numeral. -/
structure EndsCommand (r : List Char) : Prop where
  word : Stops isWordChar r
  numeral : Stops isNumeric r

/-- What `on` puts a drop on is read up to its end. -/
theorem object_dropOn_append (h : Gap) (n : TokenName) (hr : Stops isWordChar r) :
    object .drop (letters "on" ++ (h.chars ++ (n.text ++ r))) = .ok (.dropOn n.token, r) := by
  rw [object, fixed_append]
  simp only [bind, Except.bind, gap_append h (stops_tokenName n).gap, head_tokenName, if_false]
  rw [token_append _ n hr]
  rfl

theorem object_dropOnHoldingArea_append (h k : Gap) (r : List Char) :
    object .drop (letters "on" ++ (h.chars ++ (letters "holding" ++ (k.chars ++
      (letters "area" ++ r))))) = .ok (.dropOnHoldingArea, r) := by
  have hholding : Stops isGap (letters "holding" ++ (k.chars ++ (letters "area" ++ r))) :=
    (stops_word (by decide)).gap
  have harea : Stops isGap (letters "area" ++ r) := (stops_word (by decide)).gap
  have hhead : (letters "holding" ++ (k.chars ++ (letters "area" ++ r))).head? = some 'h' := by
    simp [letters]
  simp only [object, fixed_append, bind, Except.bind, gap_append h hholding, hhead, if_true,
    gap_append k harea]
  rfl

/-- What is moved and where to is read up to the end of the second numeral. -/
theorem object_move_append (n : TokenName) (h k b : Gap) (left top : Numeral)
    (hr : Stops isNumeric r) :
    object .move (n.text ++ (h.chars ++ (letters "to" ++ (k.chars ++ (left.text ++ (b.chars ++
      (top.text ++ r))))))) = .ok (.move n.token left.toFloat top.toFloat, r) := by
  have hto : Stops isGap
      (letters "to" ++ (k.chars ++ (left.text ++ (b.chars ++ (top.text ++ r))))) :=
    (stops_word (by decide)).gap
  rw [object, token_append [] n (stops_gap h (by decide) (by decide))]
  simp only [bind, Except.bind, gap_append h hto, fixed_append]
  simp only [gap_append k (stops_numeral left),
    pixels_append left (stops_gap b (by decide) (by decide)),
    gap_append b (stops_numeral top), pixels_append top hr]
  rfl

/-- **A command is a verb, a gap and what the verb is about**, and the latter is read behind it. -/
theorem object_append (c : Command) (hr : EndsCommand r) :
    ∃ w v, (w, v) ∈ verbs ∧ ∃ (g : Gap) (u : List Char), c.text = w ++ g.chars ++ u ∧
      Stops isGap (u ++ r) ∧ object v (u ++ r) = .ok (c.gesture, r) := by
  cases c with
  | click g n =>
    refine ⟨_, .click, by simp [verbs, letters], g, n.text, rfl, (stops_tokenName n).gap, ?_⟩
    rw [object, token_append [] n hr.word]
    rfl
  | drag g n =>
    refine ⟨_, .drag, by simp [verbs, letters], g, n.text, rfl, (stops_tokenName n).gap, ?_⟩
    rw [object, token_append [] n hr.word]
    rfl
  | release g n =>
    refine ⟨_, .release, by simp [verbs, letters], g, n.text, rfl, (stops_tokenName n).gap, ?_⟩
    rw [object, token_append [] n hr.word]
    rfl
  | dropOn g h n =>
    refine ⟨letters "drop", .drop, by simp [verbs, letters], g,
      letters "on" ++ h.chars ++ n.text, ?_, ?_, ?_⟩
    · simp only [Command.text, List.append_assoc]
    · rw [List.append_assoc, List.append_assoc]
      exact (stops_word (by decide)).gap
    · rw [List.append_assoc, List.append_assoc]
      exact object_dropOn_append h n hr.word
  | dropOnHoldingArea g h k =>
    refine ⟨letters "drop", .drop, by simp [verbs, letters], g,
      letters "on" ++ h.chars ++ letters "holding" ++ k.chars ++ letters "area", ?_, ?_, ?_⟩
    · simp only [Command.text, List.append_assoc]
    · simp only [List.append_assoc]
      exact (stops_word (by decide)).gap
    · simp only [List.append_assoc]
      exact object_dropOnHoldingArea_append h k r
  | move g n h k left b top =>
    refine ⟨letters "move", .move, by simp [verbs, letters], g,
      n.text ++ h.chars ++ letters "to" ++ k.chars ++ left.text ++ b.chars ++ top.text, ?_, ?_, ?_⟩
    · simp only [Command.text, List.append_assoc]
    · simp only [List.append_assoc]
      exact (stops_tokenName n).gap
    · simp only [List.append_assoc]
      exact object_move_append n h k b left top hr.numeral

/-- A command with nothing but a token has the name of the token behind the verb. -/
theorem exists_tokenName_of_object {f : Token → Gesture} {x : Gesture}
    (h : (do let (t, cs) ← token [] cs; return (f t, cs)) = Except.ok (x, r)) :
    ∃ n : TokenName, x = f n.token ∧ cs = n.text ++ r := by
  obtain ⟨⟨t, cs₁⟩, ht, hx⟩ := bind_eq_ok_iff.mp h
  cases hx
  obtain ⟨n, rfl, rfl⟩ := exists_tokenName ht
  exact ⟨n, rfl, rfl⟩

theorem exists_drop (g : Gap) {x : Gesture} (h : object .drop cs = .ok (x, r)) :
    ∃ c : Command, c.gesture = x ∧ letters "drop" ++ g.chars ++ cs = c.text ++ r := by
  rw [object] at h
  obtain ⟨cs₁, hon, h⟩ := bind_eq_ok_iff.mp h
  obtain ⟨cs₂, hgap, hobject⟩ := bind_eq_ok_iff.mp h
  obtain rfl := eq_append_of_fixed hon
  obtain ⟨g', rfl⟩ := exists_gap hgap
  split at hobject
  · obtain ⟨cs₃, hholding, h⟩ := bind_eq_ok_iff.mp hobject
    obtain ⟨cs₄, hgap', h⟩ := bind_eq_ok_iff.mp h
    obtain ⟨cs₅, harea, h⟩ := bind_eq_ok_iff.mp h
    cases h
    obtain rfl := eq_append_of_fixed hholding
    obtain ⟨g'', rfl⟩ := exists_gap hgap'
    obtain rfl := eq_append_of_fixed harea
    exact ⟨.dropOnHoldingArea g g' g'', rfl, by simp only [Command.text, List.append_assoc]⟩
  · obtain ⟨⟨t, cs₃⟩, ht, hx⟩ := bind_eq_ok_iff.mp hobject
    cases hx
    obtain ⟨n, rfl, rfl⟩ := exists_tokenName ht
    exact ⟨.dropOn g g' n, rfl, by simp only [Command.text, List.append_assoc]⟩

theorem exists_move (g : Gap) {x : Gesture} (h : object .move cs = .ok (x, r)) :
    ∃ c : Command, c.gesture = x ∧ letters "move" ++ g.chars ++ cs = c.text ++ r := by
  rw [object] at h
  obtain ⟨⟨t, cs₁⟩, ht, h⟩ := bind_eq_ok_iff.mp h
  obtain ⟨cs₂, hgap, h⟩ := bind_eq_ok_iff.mp h
  obtain ⟨cs₃, hto, h⟩ := bind_eq_ok_iff.mp h
  obtain ⟨cs₄, hgap', h⟩ := bind_eq_ok_iff.mp h
  obtain ⟨⟨l, cs₅⟩, hleft, h⟩ := bind_eq_ok_iff.mp h
  obtain ⟨cs₆, hgap'', h⟩ := bind_eq_ok_iff.mp h
  obtain ⟨⟨m, cs₇⟩, htop, h⟩ := bind_eq_ok_iff.mp h
  cases h
  obtain ⟨n, rfl, rfl⟩ := exists_tokenName ht
  obtain ⟨g', rfl⟩ := exists_gap hgap
  obtain rfl := eq_append_of_fixed hto
  obtain ⟨g'', rfl⟩ := exists_gap hgap'
  obtain ⟨left, rfl, rfl⟩ := exists_numeral hleft
  obtain ⟨b, rfl⟩ := exists_gap hgap''
  obtain ⟨top, rfl, rfl⟩ := exists_numeral htop
  exact ⟨.move g n g' g'' left b top, rfl, by simp only [Command.text, List.append_assoc]⟩

/-- What is read behind a verb and a gap makes a command of them. -/
theorem exists_command_of_object {w : List Char} {v : Verb} (hv : (w, v) ∈ verbs) (g : Gap)
    {x : Gesture} (h : object v cs = .ok (x, r)) :
    ∃ c : Command, c.gesture = x ∧ w ++ g.chars ++ cs = c.text ++ r := by
  simp only [verbs, List.mem_cons, Prod.mk.injEq, List.not_mem_nil, or_false] at hv
  rcases hv with ⟨rfl, rfl⟩ | ⟨rfl, rfl⟩ | ⟨rfl, rfl⟩ | ⟨rfl, rfl⟩ | ⟨rfl, rfl⟩
  · rw [object] at h
    obtain ⟨n, rfl, rfl⟩ := exists_tokenName_of_object h
    exact ⟨.click g n, rfl, (List.append_assoc ..).symm⟩
  · rw [object] at h
    obtain ⟨n, rfl, rfl⟩ := exists_tokenName_of_object h
    exact ⟨.drag g n, rfl, (List.append_assoc ..).symm⟩
  · exact exists_drop g h
  · exact exists_move g h
  · rw [object] at h
    obtain ⟨n, rfl, rfl⟩ := exists_tokenName_of_object h
    exact ⟨.release g n, rfl, (List.append_assoc ..).symm⟩

/-! ### Lines -/

theorem endsCommand_padding (q : Padding) : EndsCommand q.chars :=
  ⟨stops_padding q (by decide) (by decide) (by decide),
    stops_padding q (by decide) (by decide) (by decide)⟩

theorem dropWhile_padding (q : Padding) (hr : Stops isPadding r) :
    (q.chars ++ r).dropWhile isPadding = r :=
  (Lexeme.takeWhile_of_stops (fun c hc => (isPadding_iff c).mpr (q.blank c hc)) hr).2

theorem exists_padding (cs : List Char) : ∃ q : Padding, cs = q.chars ++ cs.dropWhile isPadding :=
  ⟨⟨cs.takeWhile isPadding, fun c hc =>
    (isPadding_iff c).mp (List.all_eq_true.mp List.all_takeWhile c hc)⟩,
    List.takeWhile_append_dropWhile.symm⟩

/-- Reads a command: its gesture, and the characters left. -/
def command (cs : List Char) : Except LineProblem (Gesture × List Char) := do
  let (v, cs) ← choose paddingWanted verbs cs
  object v (← gap cs)

theorem command_append (c : Command) (hr : EndsCommand r) :
    command (c.text ++ r) = .ok (c.gesture, r) := by
  obtain ⟨w, v, hv, g, u, htext, hu, hobject⟩ := object_append c hr
  rw [htext, List.append_assoc, List.append_assoc, command, choose_append _ prefixFree_verbs hv]
  simp only [bind, Except.bind, gap_append g hu]
  exact hobject

theorem exists_command {x : Gesture} (h : command cs = .ok (x, r)) :
    ∃ c : Command, c.gesture = x ∧ cs = c.text ++ r := by
  obtain ⟨⟨v, cs₁⟩, hv, h⟩ := bind_eq_ok_iff.mp h
  obtain ⟨cs₂, hgap, hobject⟩ := bind_eq_ok_iff.mp h
  obtain ⟨w, hw, rfl⟩ := exists_choose hv
  obtain ⟨g, rfl⟩ := exists_gap hgap
  obtain ⟨c, hx, hc⟩ := exists_command_of_object hw g hobject
  exact ⟨c, hx, by rw [← hc, List.append_assoc]⟩

/-- Reading a line is reading a command with padding around it. -/
theorem gesture_read_iff {l : List Char} {g : Gesture} : Gesture.read l = .ok g ↔
    ∃ r, command (l.dropWhile isPadding) = .ok (g, r) ∧ r.dropWhile isPadding = [] := by
  constructor
  · intro h
    obtain ⟨⟨v, cs⟩, hv, h⟩ := bind_eq_ok_iff.mp h
    obtain ⟨cs', hgap, h⟩ := bind_eq_ok_iff.mp h
    obtain ⟨⟨x, r⟩, hobject, h⟩ := bind_eq_ok_iff.mp h
    dsimp only at h
    split at h
    · rename_i hr
      cases h
      exact ⟨r, bind_eq_ok_iff.mpr ⟨_, hv, bind_eq_ok_iff.mpr ⟨_, hgap, hobject⟩⟩, hr⟩
    · cases h
  · rintro ⟨r, h, hr⟩
    obtain ⟨⟨v, cs⟩, hv, h⟩ := bind_eq_ok_iff.mp h
    obtain ⟨cs', hgap, hobject⟩ := bind_eq_ok_iff.mp h
    refine bind_eq_ok_iff.mpr ⟨_, hv, bind_eq_ok_iff.mpr ⟨_, hgap, bind_eq_ok_iff.mpr
      ⟨(g, r), hobject, ?_⟩⟩⟩
    simp only [hr]
    rfl

/-- A command starts with a letter. -/
theorem stops_command (c : Command) : Stops isPadding (c.text ++ r) := by
  cases c <;> simp only [Command.text, List.append_assoc] <;> exact stops_word (by decide)

end Line

namespace Written

open Line

variable {r r' : List Char}

/-! ### Parts of a line are taken apart in one way -/

theorem Gap.eq_of_append {g g' : Gap} (h : g.chars ++ r = g'.chars ++ r') (hr : Stops isGap r)
    (hr' : Stops isGap r') : g = g' ∧ r = r' := by
  have hgap := gap_append g hr
  rw [h, gap_append g' hr'] at hgap
  cases hgap
  exact ⟨Gap.ext (List.append_cancel_right h), rfl⟩

theorem Padding.eq_of_append {q q' : Padding} (h : q.chars ++ r = q'.chars ++ r')
    (hr : Stops isPadding r) (hr' : Stops isPadding r') : q = q' ∧ r = r' := by
  have hdrop := dropWhile_padding q hr
  rw [h, dropWhile_padding q' hr'] at hdrop
  subst hdrop
  exact ⟨Padding.ext (List.append_cancel_right h), rfl⟩

theorem TokenName.eq_of_append {n n' : TokenName} (h : n.text ++ r = n'.text ++ r')
    (hr : Stops isWordChar r) (hr' : Stops isWordChar r') : n = n' ∧ r = r' := by
  have htoken := token_append [] n hr
  rw [h, token_append [] n' hr'] at htoken
  obtain ⟨size, c, g, s⟩ := n
  obtain ⟨size', c', g', s'⟩ := n'
  simp only [TokenName.token, Except.ok.injEq, Prod.mk.injEq, Token.mk.injEq] at htoken
  obtain ⟨⟨rfl, rfl, hsize⟩, rfl⟩ := htoken
  have hshape : ∀ {x : List Char}, Stops isGap (letters s'.word ++ x) :=
    (stops_word (Lexeme.isWord_shape s')).gap
  have hcolor : ∀ {x : List Char}, Stops isGap (letters c'.word ++ x) :=
    (stops_word (Lexeme.isWord_color c')).gap
  refine ⟨?_, rfl⟩
  match size, size' with
  | none, none =>
    simp only [TokenName.text, Option.elim, List.append_assoc, List.nil_append] at h
    obtain ⟨rfl, -⟩ := Gap.eq_of_append (List.append_cancel_left h) hshape hshape
    rfl
  | none, some _ | some _, none => cases hsize
  | some (z, k), some (z', k') =>
    cases hsize
    simp only [TokenName.text, Option.elim, List.append_assoc] at h
    obtain ⟨rfl, hrest⟩ := Gap.eq_of_append (List.append_cancel_left h) hcolor hcolor
    obtain ⟨rfl, -⟩ := Gap.eq_of_append (List.append_cancel_left hrest) hshape hshape
    rfl

theorem eq_of_numeral_append {n n' : Numeral} (h : n.text ++ r = n'.text ++ r')
    (hr : Stops isNumeric r) (hr' : Stops isNumeric r') : n = n' ∧ r = r' := by
  have hread := pixels_append n hr
  rw [h, pixels_append n' hr'] at hread
  obtain ⟨d, _⟩ := n
  obtain ⟨d', _⟩ := n'
  cases hread
  exact ⟨rfl, rfl⟩

/-- A token behind a word and a gap. -/
theorem eq_of_named_append {w : String} {g g' : Gap} {n n' : TokenName}
    (h : letters w ++ g.chars ++ n.text ++ r = letters w ++ g'.chars ++ n'.text ++ r')
    (hr : Stops isWordChar r) (hr' : Stops isWordChar r') : g = g' ∧ n = n' ∧ r = r' := by
  simp only [List.append_assoc] at h
  obtain ⟨hg, hrest⟩ := Gap.eq_of_append (List.append_cancel_left h) (stops_tokenName n).gap
    (stops_tokenName n').gap
  exact ⟨hg, TokenName.eq_of_append hrest hr hr'⟩

theorem eq_of_dropOn_append {g g' k k' : Gap} {n n' : TokenName}
    (h : (Command.dropOn g k n).text ++ r = (Command.dropOn g' k' n').text ++ r')
    (hr : Stops isWordChar r) (hr' : Stops isWordChar r') :
    g = g' ∧ k = k' ∧ n = n' ∧ r = r' := by
  have hon : ∀ {x : List Char}, Stops isGap (letters "on" ++ x) := (stops_word (by decide)).gap
  simp only [Command.text, List.append_assoc] at h
  obtain ⟨hg, h₁⟩ := Gap.eq_of_append (List.append_cancel_left h) hon hon
  obtain ⟨hk, h₂⟩ := Gap.eq_of_append (List.append_cancel_left h₁) (stops_tokenName n).gap
    (stops_tokenName n').gap
  exact ⟨hg, hk, TokenName.eq_of_append h₂ hr hr'⟩

theorem eq_of_dropOnHoldingArea_append {g g' k k' l l' : Gap}
    (h : (Command.dropOnHoldingArea g k l).text ++ r =
      (Command.dropOnHoldingArea g' k' l').text ++ r') :
    g = g' ∧ k = k' ∧ l = l' ∧ r = r' := by
  have hword : ∀ {w : String} {x : List Char}, Lexeme.isWord w = true →
      Stops isGap (letters w ++ x) := fun hw => (stops_word hw).gap
  have hon : Lexeme.isWord "on" = true := by decide
  have hholding : Lexeme.isWord "holding" = true := by decide
  have harea : Lexeme.isWord "area" = true := by decide
  simp only [Command.text, List.append_assoc] at h
  obtain ⟨hg, h₁⟩ := Gap.eq_of_append (List.append_cancel_left h) (hword hon) (hword hon)
  obtain ⟨hk, h₂⟩ := Gap.eq_of_append (List.append_cancel_left h₁) (hword hholding) (hword hholding)
  obtain ⟨hl, h₃⟩ := Gap.eq_of_append (List.append_cancel_left h₂) (hword harea) (hword harea)
  exact ⟨hg, hk, hl, List.append_cancel_left h₃⟩

theorem eq_of_move_append {g g' k k' l l' b b' : Gap} {n n' : TokenName}
    {left left' top top' : Numeral}
    (h : (Command.move g n k l left b top).text ++ r =
      (Command.move g' n' k' l' left' b' top').text ++ r')
    (hr : Stops isNumeric r) (hr' : Stops isNumeric r') :
    (g = g' ∧ n = n' ∧ k = k') ∧ (l = l' ∧ left = left' ∧ b = b') ∧ top = top' ∧ r = r' := by
  have hto : ∀ {x : List Char}, Stops isGap (letters "to" ++ x) := (stops_word (by decide)).gap
  simp only [Command.text, List.append_assoc] at h
  obtain ⟨hg, h₁⟩ := Gap.eq_of_append (List.append_cancel_left h) (stops_tokenName n).gap
    (stops_tokenName n').gap
  obtain ⟨hn, h₂⟩ := TokenName.eq_of_append h₁ (stops_gap k (by decide) (by decide))
    (stops_gap k' (by decide) (by decide))
  obtain ⟨hk, h₃⟩ := Gap.eq_of_append h₂ hto hto
  obtain ⟨hl, h₄⟩ := Gap.eq_of_append (List.append_cancel_left h₃) (stops_numeral left)
    (stops_numeral left')
  obtain ⟨hleft, h₅⟩ := eq_of_numeral_append h₄ (stops_gap b (by decide) (by decide))
    (stops_gap b' (by decide) (by decide))
  obtain ⟨hb, h₆⟩ := Gap.eq_of_append h₅ (stops_numeral top) (stops_numeral top')
  exact ⟨⟨hg, hn, hk⟩, ⟨hl, hleft, hb⟩, eq_of_numeral_append h₆ hr hr'⟩

theorem Command.eq_of_append {c c' : Command} (h : c.text ++ r = c'.text ++ r')
    (hr : EndsCommand r) (hr' : EndsCommand r') : c = c' ∧ r = r' := by
  have hread := command_append c hr
  rw [h, command_append c' hr'] at hread
  -- the gestures are the same, so that the commands are of one kind
  have hkind : c'.gesture = c.gesture := congrArg Prod.fst (Except.ok.inj hread)
  cases c with
  | click g n =>
    cases c' with
    | click g' n' =>
      obtain ⟨rfl, rfl, rfl⟩ := eq_of_named_append h hr.word hr'.word
      exact ⟨rfl, rfl⟩
    | _ => cases hkind
  | drag g n =>
    cases c' with
    | drag g' n' =>
      obtain ⟨rfl, rfl, rfl⟩ := eq_of_named_append h hr.word hr'.word
      exact ⟨rfl, rfl⟩
    | _ => cases hkind
  | release g n =>
    cases c' with
    | release g' n' =>
      obtain ⟨rfl, rfl, rfl⟩ := eq_of_named_append h hr.word hr'.word
      exact ⟨rfl, rfl⟩
    | _ => cases hkind
  | dropOn g k n =>
    cases c' with
    | dropOn g' k' n' =>
      obtain ⟨rfl, rfl, rfl, rfl⟩ := eq_of_dropOn_append h hr.word hr'.word
      exact ⟨rfl, rfl⟩
    | _ => cases hkind
  | dropOnHoldingArea g k l =>
    cases c' with
    | dropOnHoldingArea g' k' l' =>
      obtain ⟨rfl, rfl, rfl, rfl⟩ := eq_of_dropOnHoldingArea_append h
      exact ⟨rfl, rfl⟩
    | _ => cases hkind
  | move g n k l left b top =>
    cases c' with
    | move g' n' k' l' left' b' top' =>
      obtain ⟨⟨rfl, rfl, rfl⟩, ⟨rfl, rfl, rfl⟩, rfl, rfl⟩ :=
        eq_of_move_append h hr.numeral hr'.numeral
      exact ⟨rfl, rfl⟩
    | _ => cases hkind

end Written

namespace WrittenGesture

open Line

theorem text_injective {w w' : WrittenGesture} (h : w.text = w'.text) : w = w' := by
  obtain ⟨p, c, q⟩ := w
  obtain ⟨p', c', q'⟩ := w'
  simp only [text, List.append_assoc] at h
  obtain ⟨rfl, h₁⟩ := Padding.eq_of_append h (stops_command c) (stops_command c')
  obtain ⟨rfl, h₂⟩ := Command.eq_of_append h₁ (endsCommand_padding q) (endsCommand_padding q')
  rw [Padding.ext h₂]

/-- A gesture in writing is read as that gesture. -/
theorem read_text (w : WrittenGesture) : Gesture.read w.text = .ok w.gesture := by
  rw [gesture_read_iff, text, List.append_assoc, dropWhile_padding _ (stops_command _)]
  refine ⟨w.behind.chars, command_append w.command (endsCommand_padding w.behind), ?_⟩
  have h := dropWhile_padding w.behind stops_nil
  rwa [List.append_nil] at h

/-- Only a gesture in writing is read. -/
theorem exists_of_read {l : List Char} {g : Gesture} (h : Gesture.read l = .ok g) :
    ∃ w : WrittenGesture, w.text = l ∧ w.gesture = g := by
  obtain ⟨r, hcommand, hr⟩ := gesture_read_iff.mp h
  obtain ⟨p, hp⟩ := exists_padding l
  obtain ⟨c, rfl, hc⟩ := exists_command hcommand
  obtain ⟨q, hq⟩ := exists_padding r
  refine ⟨⟨p, c, q⟩, ?_, rfl⟩
  rw [hr, List.append_nil] at hq
  rw [text, hp, hc, hq, List.append_assoc]

end WrittenGesture

end BoardTrial
