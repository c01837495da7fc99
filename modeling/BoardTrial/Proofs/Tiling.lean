import BoardTrial.Proofs.Lexing
import BoardTrial.RuleText.Diagnostic
import Mathlib.Data.List.Induction

/-!
# Lexemes tile a text

What has been read of a text is kept in `Lexeme.Tiles`: lexemes one behind the other, with only
blanks between. A text is tiled to its end, or else up to the first character that belongs to no
lexeme (`Lexeme.comesTo_readFrom`). Each character of what is tiled is a blank or belongs to one of
the lexemes (`Lexeme.Tiles.covers`), so **the lexemes read are all that the text has**
(`Lexeme.read_tiles`).
-/

namespace BoardTrial

open String (utf8Len)

namespace Lexeme

/-! ### Characters -/

theorem isSpacing_iff (c : Char) : isSpacing c = true ↔ c = ' ' ∨ c = '\t' ∨ c = '\r' := by
  simp [isSpacing, or_assoc]

theorem isWordChar_of_isSpacing {c : Char} (h : isSpacing c = true) : isWordChar c = false := by
  rcases (isSpacing_iff c).mp h with rfl | rfl | rfl <;> decide

/-- The letters are two ranges of code points. -/
theorem isAlpha_iff (c : Char) : c.isAlpha = true ↔
    65 ≤ c.val.toNat ∧ c.val.toNat ≤ 90 ∨ 97 ≤ c.val.toNat ∧ c.val.toNat ≤ 122 := by
  have hupper : c.isUpper = decide ('A'.val ≤ c.val ∧ c.val ≤ 'Z'.val) := rfl
  have hlower : c.isLower = (decide ('a'.val ≤ c.val) && decide (c.val ≤ 'z'.val)) := rfl
  rw [show c.isAlpha = (c.isUpper || c.isLower) from rfl, hupper, hlower, Bool.or_eq_true,
    Bool.and_eq_true, decide_eq_true_iff, decide_eq_true_iff, decide_eq_true_iff]
  simp only [UInt32.le_iff_toNat_le]
  exact Iff.rfl

/-- The digits are one range. -/
theorem isDigit_iff (c : Char) : c.isDigit = true ↔ 48 ≤ c.val.toNat ∧ c.val.toNat ≤ 57 := by
  rw [Char.isDigit, Bool.and_eq_true, decide_eq_true_iff, decide_eq_true_iff]
  simp only [ge_iff_le, UInt32.le_iff_toNat_le]
  exact Iff.rfl

/-- A character of words begins one unless it is a digit. -/
theorem isWordStart_iff (c : Char) :
    isWordStart c = true ↔ isWordChar c = true ∧ c.isDigit = false := by
  have halpha (hd : c.isDigit = true) : c.isAlpha = false := by
    rw [isDigit_iff] at hd
    rw [← Bool.not_eq_true, isAlpha_iff]
    omega
  rw [isWordStart, isWordChar, Char.isAlphanum]
  cases hd : c.isDigit with
  | false => simp
  | true =>
    have hne : c ≠ '_' := by
      rintro rfl
      cases hd
    simp [halpha hd, hne]

theorem utf8Size_of_isWordChar {c : Char} (h : isWordChar c = true) : c.utf8Size = 1 := by
  rw [Char.utf8Size_eq_one_iff, UInt32.le_iff_toNat_le]
  show c.val.toNat ≤ 127
  rw [isWordChar, Char.isAlphanum, Bool.or_eq_true, Bool.or_eq_true, isAlpha_iff, isDigit_iff,
    beq_iff_eq] at h
  rcases h with (h | h) | rfl
  · omega
  · omega
  · decide

theorem utf8Len_singleton (c : Char) : utf8Len [c] = c.utf8Size := by
  simp

/-- The characters of rules take one byte each. -/
theorem utf8Size_of_isLegal {c : Char} (h : isLegal c = true) : c.utf8Size = 1 := by
  simp only [isLegal, Bool.or_eq_true, beq_iff_eq, isSpacing_iff] at h
  rcases h with ((h | rfl | rfl | rfl) | rfl) | rfl
  · exact utf8Size_of_isWordChar h
  all_goals decide

theorem isLegal_of_isSpacing {c : Char} (h : isSpacing c = true) : isLegal c = true := by
  simp [isLegal, h]

theorem isLegal_of_isWordChar {c : Char} (h : isWordChar c = true) : isLegal c = true := by
  simp [isLegal, h]

theorem utf8Len_of_isLegal {w : List Char} (h : ∀ c ∈ w, isLegal c = true) :
    utf8Len w = w.length := by
  induction w with
  | nil => rfl
  | cons c w ih =>
    rw [List.forall_mem_cons] at h
    rw [String.utf8Len_cons, ih h.2, utf8Size_of_isLegal h.1, List.length_cons]

/-- A place in a text that is put together from two is in the first or in the second. -/
theorem append_eq_append_cons_iff {α : Type} (p w a b : List α) (c : α) :
    p ++ w = a ++ c :: b ↔
      (∃ b', p = a ++ c :: b' ∧ b = b' ++ w) ∨ ∃ a', a = p ++ a' ∧ w = a' ++ c :: b := by
  rw [List.append_eq_append_iff]
  constructor
  · rintro (⟨a', rfl, rfl⟩ | ⟨b', rfl, h⟩)
    · exact .inr ⟨a', rfl, rfl⟩
    · cases b' with
      | nil => exact .inr ⟨[], by simp, h.symm⟩
      | cons d b' =>
        obtain ⟨rfl, rfl⟩ := List.cons.inj h
        exact .inl ⟨b', rfl, rfl⟩
  · rintro (⟨b', rfl, rfl⟩ | ⟨a', rfl, rfl⟩)
    · exact .inr ⟨c :: b', rfl, rfl⟩
    · exact .inl ⟨a', rfl, rfl⟩

/-! ### Words -/

/-- **A word stands for the lexeme it is written for.** -/
theorem names_iff (w : String) (l : Lexeme) : Names w l ↔ ofWord w = l := by
  constructor
  · intro h
    cases h with
    | keyword k => exact ofWord_keyword k
    | color c => exact ofWord_color c
    | shape s => exact ofWord_shape s
    | size z => exact ofWord_size z
    | unknown hk hc hs hz =>
      have hk' : Keyword.ofWord? w = none := by
        refine Option.eq_none_iff_forall_ne_some.mpr fun k h => hk k ?_
        exact (Keyword.word_of_ofWord? h).symm
      have hc' : Color.ofWord? w = none := by
        refine Option.eq_none_iff_forall_ne_some.mpr fun c h => hc c ?_
        exact (Color.word_of_ofWord? h).symm
      have hs' : Shape.ofWord? w = none := by
        refine Option.eq_none_iff_forall_ne_some.mpr fun s h => hs s ?_
        exact (Shape.word_of_ofWord? h).symm
      have hz' : Size.ofWord? w = none := by
        refine Option.eq_none_iff_forall_ne_some.mpr fun z h => hz z ?_
        exact (Size.word_of_ofWord? h).symm
      simp [ofWord, hk', hc', hs', hz']
  · rintro rfl
    unfold ofWord
    split
    · rename_i k h
      rw [← Keyword.word_of_ofWord? h]
      exact .keyword k
    · rename_i c h _
      rw [← Color.word_of_ofWord? h]
      exact .color c
    · rename_i s h _ _
      rw [← Shape.word_of_ofWord? h]
      exact .shape s
    · rename_i z h _ _ _
      rw [← Size.word_of_ofWord? h]
      exact .size z
    · rename_i hk hc hs hz
      refine .unknown (fun k hw => ?_) (fun c hw => ?_) (fun s hw => ?_) (fun z hw => ?_)
      · exact hk k (by rw [hw, Keyword.ofWord?_word])
      · exact hc c (by rw [hw, Color.ofWord?_word])
      · exact hs s (by rw [hw, Shape.ofWord?_word])
      · exact hz z (by rw [hw, Size.ofWord?_word])

/-- A run is not cut short. -/
theorem isRun_takeWhile {p q : List Char} {c : Char} (hc : isWordChar c = true) (hp : Begins p) :
    IsRun p (c :: q.takeWhile isWordChar) (q.dropWhile isWordChar) where
  ne_nil := List.cons_ne_nil _ _
  chars := List.forall_mem_cons.mpr ⟨hc, List.all_eq_true.mp List.all_takeWhile⟩
  begins := hp
  ends := by
    intro d hd
    have h := List.head?_dropWhile_not isWordChar q
    rw [Option.mem_def.mp hd] at h
    simpa using h

theorem begins_append {p : List Char} {c : Char} (h : isWordChar c = false) :
    Begins (p ++ [c]) := by
  simpa [Begins] using h

/-- Within a run there is no place where a word begins. -/
theorem not_begins_append {p u : List Char} (hne : u ≠ []) (hu : ∀ c ∈ u, isWordChar c = true) :
    ¬ Begins (p ++ u) := by
  intro h
  have hlast : (p ++ u).getLast? = some (u.getLast hne) := by
    rw [List.getLast?_append_of_ne_nil _ hne, List.getLast?_eq_some_getLast hne]
  have hfalse := h _ hlast
  rw [hu _ (List.getLast_mem hne)] at hfalse
  cases hfalse

/-- Two runs that begin at one place are the same. -/
theorem eq_of_ends {v v' q q' : List Char} (hv : ∀ c ∈ v, isWordChar c = true) (hq : Ends q)
    (hv' : ∀ c ∈ v', isWordChar c = true) (hq' : Ends q') (h : v ++ q = v' ++ q') :
    v = v' ∧ q = q' := by
  have hleft := takeWhile_of_ends (List.all_eq_true.mpr hv) hq
  have hright := takeWhile_of_ends (List.all_eq_true.mpr hv') hq'
  rw [h] at hleft
  exact ⟨hleft.1.symm.trans hright.1, hleft.2.symm.trans hright.2⟩

namespace Stands

variable {p w q : List Char} {l : Lexeme}

theorem ne_nil (h : Stands p w q l) : w ≠ [] := by
  cases h with
  | comma => simp
  | newline => simp
  | word hw _ => exact hw.ne_nil

/-- The characters of a lexeme are those of rules, and none is blank. -/
theorem chars (h : Stands p w q l) : ∀ c ∈ w, isLegal c = true ∧ isSpacing c = false := by
  cases h with
  | comma => simp [isLegal, isSpacing]
  | newline => simp [isLegal, isSpacing]
  | word hw _ =>
    intro c hc
    have hchar := hw.chars c hc
    refine ⟨isLegal_of_isWordChar hchar, ?_⟩
    cases hs : isSpacing c with
    | false => rfl
    | true => rw [isWordChar_of_isSpacing hs] at hchar; cases hchar

/-- Where a word stands, its characters are those of words. -/
theorem isWord_of_mem (h : Stands p w q l) {c : Char} (hc : c ∈ w) (hchar : isWordChar c = true) :
    IsWord p w q ∧ Names (String.ofList w) l := by
  cases h with
  | word hw hl => exact ⟨hw, hl⟩
  | comma =>
    rw [List.mem_singleton.mp hc] at hchar
    cases hchar
  | newline =>
    rw [List.mem_singleton.mp hc] at hchar
    cases hchar

/-- Of two lexemes at one place one is the other. -/
theorem unique {c : Char} {v v' q' : List Char} {l' : Lexeme} (h : Stands p (c :: v) q l)
    (h' : Stands p (c :: v') q' l') (heq : v ++ q = v' ++ q') : v = v' ∧ q = q' ∧ l = l' := by
  by_cases hc : isWordChar c = true
  · obtain ⟨hw, hl⟩ := h.isWord_of_mem List.mem_cons_self hc
    obtain ⟨hw', hl'⟩ := h'.isWord_of_mem List.mem_cons_self hc
    obtain ⟨hv, hq⟩ := eq_of_ends hw.chars hw.ends hw'.chars hw'.ends (congrArg (c :: ·) heq)
    obtain rfl := (List.cons.inj hv).2
    exact ⟨rfl, hq, ((names_iff _ _).mp hl).symm.trans ((names_iff _ _).mp hl')⟩
  · cases h with
    | word hw _ => exact absurd (hw.chars c List.mem_cons_self) hc
    | comma =>
      cases h' with
      | word hw _ => exact absurd (hw.chars _ List.mem_cons_self) hc
      | comma => exact ⟨rfl, heq, rfl⟩
    | newline =>
      cases h' with
      | word hw _ => exact absurd (hw.chars _ List.mem_cons_self) hc
      | newline => exact ⟨rfl, heq, rfl⟩

/-- **A lexeme that begins inside another is that other.** -/
theorem eq_of_inside {u v v' q' : List Char} {c : Char} {l' : Lexeme}
    (h : Stands p (u ++ c :: v) q l) (h' : Stands (p ++ u) (c :: v') q' l')
    (heq : v ++ q = v' ++ q') : u = [] ∧ v = v' ∧ q = q' ∧ l = l' := by
  cases u with
  | nil =>
    rw [List.append_nil] at h'
    exact ⟨rfl, h.unique h' heq⟩
  | cons d u =>
    -- a lexeme of several characters is a word, inside which no lexeme begins
    exfalso
    have hw : ∀ e ∈ d :: u ++ c :: v, isWordChar e = true := by
      generalize hlist : d :: u ++ c :: v = w at h
      cases h with
      | word hw _ => exact hw.chars
      | comma => simp at hlist
      | newline => simp at hlist
    have hc : isWordChar c = true := hw c (by simp)
    have hb := (h'.isWord_of_mem List.mem_cons_self hc).1.begins
    exact not_begins_append (List.cons_ne_nil d u) (fun e he => hw e (List.mem_append_left _ he)) hb

end Stands

/-! ### Tilings -/

/-- `Tiles p rest xs`: of the text `p ++ rest` the part `p` has been read, and its lexemes are `xs`,
with only blanks between. -/
inductive Tiles : List Char → List Char → List (Located Lexeme) → Prop where
  /-- Nothing has been read. -/
  | start (cs : List Char) : Tiles [] cs []
  /-- A blank has been read. -/
  | blank {p rest : List Char} {xs : List (Located Lexeme)} {c : Char} : Tiles p (c :: rest) xs →
      isSpacing c = true → Tiles (p ++ [c]) rest xs
  /-- A lexeme has been read. -/
  | lexeme {p w rest : List Char} {xs : List (Located Lexeme)} {l : Lexeme} :
      Tiles p (w ++ rest) xs → Stands p w rest l →
      Tiles (p ++ w) rest (xs ++ [⟨l, .behind p w⟩])

namespace Tiles

variable {p rest : List Char} {xs : List (Located Lexeme)} {x : Located Lexeme}

/-- The lexemes stand in the text. -/
theorem stands (h : Tiles p rest xs) (hx : x ∈ xs) : ∃ a w b, p = a ++ w ++ b ∧
    x.span = .behind a w ∧ Stands a w (b ++ rest) x.value := by
  induction h with
  | start => cases hx
  | @blank p rest xs c _ _ ih =>
    obtain ⟨a, w, b, rfl, hspan, hs⟩ := ih hx
    exact ⟨a, w, b ++ [c], by simp, hspan, by simpa using hs⟩
  | @lexeme p w rest xs l _ hl ih =>
    rcases List.mem_append.mp hx with hx | hx
    · obtain ⟨a, w', b, rfl, hspan, hs⟩ := ih hx
      exact ⟨a, w', b ++ w, by simp, hspan, by simpa using hs⟩
    · obtain rfl := List.mem_singleton.mp hx
      exact ⟨p, w, [], by simp, rfl, hl⟩

/-- The lexemes are not empty, and are in what has been read. -/
theorem span_lt (h : Tiles p rest xs) (hx : x ∈ xs) :
    x.span.start < x.span.stop ∧ x.span.stop ≤ utf8Len p := by
  obtain ⟨a, w, b, rfl, hspan, hs⟩ := h.stands hx
  have hw : utf8Len w = w.length := utf8Len_of_isLegal fun c hc => (hs.chars c hc).1
  have hpos : 0 < w.length := List.length_pos_of_ne_nil hs.ne_nil
  rw [hspan]
  simp only [Span.behind, String.utf8Len_append]
  omega

/-- The lexemes are one behind the other. -/
theorem pairwise (h : Tiles p rest xs) : xs.Pairwise fun x y => x.span.stop ≤ y.span.start := by
  induction h with
  | start => exact .nil
  | blank _ _ ih => exact ih
  | lexeme h _ ih =>
    refine List.pairwise_append.mpr ⟨ih, List.pairwise_singleton _ _, fun x hx y hy => ?_⟩
    obtain rfl := List.mem_singleton.mp hy
    exact (h.span_lt hx).2

/-- **Each character that has been read is a blank or belongs to a lexeme.** -/
theorem covers (h : Tiles p rest xs) {a b : List Char} {c : Char} (hp : p = a ++ c :: b) :
    isSpacing c = true ∨ ∃ a' u v b' l, a = a' ++ u ∧ b = v ++ b' ∧
      Stands a' (u ++ c :: v) (b' ++ rest) l ∧ ⟨l, .behind a' (u ++ c :: v)⟩ ∈ xs := by
  induction h generalizing b with
  | start => simp at hp
  | @blank p rest xs d _ hd ih =>
    rcases (append_eq_append_cons_iff _ _ _ _ _).mp hp with ⟨b', hp', rfl⟩ | ⟨a', rfl, hd'⟩
    · rcases ih hp' with hc | ⟨a', u, v, b', l, rfl, rfl, hs, hmem⟩
      · exact .inl hc
      · exact .inr ⟨a', u, v, b' ++ [d], l, rfl, by simp, by simpa using hs, hmem⟩
    · have hmem : c ∈ [d] := by simp [hd']
      rw [List.mem_singleton.mp hmem]
      exact .inl hd
  | @lexeme p w rest xs l _ hl ih =>
    rcases (append_eq_append_cons_iff _ _ _ _ _).mp hp with ⟨b', hp', rfl⟩ | ⟨a', rfl, rfl⟩
    · rcases ih hp' with hc | ⟨a', u, v, b', l', rfl, rfl, hs, hmem⟩
      · exact .inl hc
      · exact .inr ⟨a', u, v, b' ++ w, l', rfl, by simp, by simpa using hs,
          List.mem_append_left _ hmem⟩
    · exact .inr ⟨p, a', b, [], l, rfl, by simp, hl, by simp⟩

/-- **The lexemes of what has been read are all that stand there.** -/
theorem mem_of_stands (h : Tiles p rest xs) {a w b : List Char} {l : Lexeme}
    (hp : p = a ++ w ++ b) (hs : Stands a w (b ++ rest) l) : ⟨l, .behind a w⟩ ∈ xs := by
  cases w with
  | nil => exact absurd rfl hs.ne_nil
  | cons c w =>
    rw [List.append_assoc, List.cons_append] at hp
    rcases h.covers hp with hc | ⟨a', u, v, b', l', rfl, hb, hs', hmem⟩
    · rw [(hs.chars c List.mem_cons_self).2] at hc
      cases hc
    · obtain ⟨rfl, rfl, -, rfl⟩ := hs'.eq_of_inside hs (by simp [← List.append_assoc, hb])
      simpa using hmem

/-- No character that has been read offends. -/
theorem not_offends (h : Tiles p rest xs) {a b : List Char} {c : Char} (hp : p = a ++ c :: b) :
    ¬ Offends a c := by
  rcases h.covers hp with hc | ⟨a', u, v, b', l, rfl, rfl, hs, -⟩
  · rintro (hlegal | ⟨hd, -⟩)
    · rw [isLegal_of_isSpacing hc] at hlegal
      cases hlegal
    · rcases (isSpacing_iff c).mp hc with rfl | rfl | rfl <;> cases hd
  · rintro (hlegal | ⟨hd, hb⟩)
    · rw [(hs.chars c (by simp)).1] at hlegal
      cases hlegal
    · have hchar : isWordChar c = true := by simp [isWordChar, Char.isAlphanum, hd]
      obtain ⟨hw, -⟩ := hs.isWord_of_mem (by simp) hchar
      cases u with
      | nil =>
        have hstart := (isWordStart_iff c).mp (hw.start c rfl)
        rw [hd] at hstart
        cases hstart.2
      | cons d u =>
        exact not_begins_append (List.cons_ne_nil d u)
          (fun e he => hw.chars e (List.mem_append_left _ he)) hb

end Tiles

/-! ### Reading -/

/-- `ComesTo cs xs r`: behind the lexemes `xs`, reading the text `cs` has the result `r`: more
lexemes, to the end, or the first character that belongs to none. -/
def ComesTo (cs : List Char) (xs : List (Located Lexeme)) :
    Except Stray (List (Located Lexeme)) → Prop
  | .ok ys => Tiles cs [] (xs ++ ys)
  | .error s => ∃ p q ys, cs = p ++ s.char :: q ∧ s.offset = utf8Len p ∧
      Tiles p (s.char :: q) ys ∧ Offends p s.char

theorem ComesTo.cons {cs : List Char} {xs : List (Located Lexeme)} {x : Located Lexeme}
    {r : Except Stray (List (Located Lexeme))} (h : ComesTo cs (xs ++ [x]) r) :
    ComesTo cs xs ((x :: ·) <$> r) := by
  cases r with
  | ok ys => simpa [ComesTo] using h
  | error s => exact h

/-- A lexeme is noted where it stands, and reading goes on behind it. -/
theorem Tiles.comesTo_cons {p w rest : List Char} {xs : List (Located Lexeme)} {l : Lexeme}
    {pos n : Nat} {r : Except Stray (List (Located Lexeme))} (h : Tiles p (w ++ rest) xs)
    (hl : Stands p w rest l) (hpos : utf8Len p = pos) (hw : utf8Len w = n)
    (hr : ∀ {ys}, Tiles (p ++ w) rest ys → utf8Len (p ++ w) = pos + n →
      ComesTo (p ++ w ++ rest) ys r) :
    ComesTo (p ++ (w ++ rest)) xs ((⟨l, pos, pos + n⟩ :: ·) <$> r) := by
  have hcons := (hr (h.lexeme hl) (by rw [String.utf8Len_append, hpos, hw])).cons
  rwa [Span.behind, hpos, hw, List.append_assoc] at hcons

/-- **Reading a text on** from a place that is in no word tiles it to its end, or up to a character
that offends. -/
theorem comesTo_readFrom {p rest : List Char} {xs : List (Located Lexeme)} (pos : Nat)
    (afterWord : Bool) (h : Tiles p rest xs) (hb : Begins p ∨ Ends rest) (hpos : utf8Len p = pos) :
    ComesTo (p ++ rest) xs (readFrom pos afterWord rest) := by
  fun_induction readFrom pos afterWord rest generalizing p xs with
  | case1 pos afterWord => simpa [ComesTo] using h
  | case2 pos afterWord c cs hc ih =>
    have hsize : utf8Len [c] = 1 := by
      rw [utf8Len_singleton, utf8Size_of_isLegal (isLegal_of_isSpacing hc)]
    rw [List.append_cons]
    exact ih (h.blank hc) (.inl (begins_append (isWordChar_of_isSpacing hc)))
      (by rw [String.utf8Len_append, hpos, hsize])
  | case3 pos afterWord cs _ ih =>
    exact Tiles.comesTo_cons (w := [',']) h .comma hpos rfl
      fun h hpos => ih h (.inl (begins_append (by decide))) hpos
  | case4 pos afterWord cs _ _ ih =>
    exact Tiles.comesTo_cons (w := ['\n']) h .newline hpos rfl
      fun h hpos => ih h (.inl (begins_append (by decide))) hpos
  | case5 pos afterWord c cs _ _ _ hc w =>
    rename_i ih
    have hp : Begins p := hb.resolve_right fun he => by
      have hchar := he c rfl
      rw [((isWordStart_iff c).mp hc).1] at hchar
      cases hchar
    have hw : IsWord p w (cs.dropWhile isWordChar) :=
      ⟨isRun_takeWhile ((isWordStart_iff c).mp hc).1 hp, by simpa [w] using hc⟩
    have hsplit : c :: cs = w ++ cs.dropWhile isWordChar := by simp [w]
    have hlen : utf8Len w = w.length :=
      utf8Len_of_isLegal fun d hd => isLegal_of_isWordChar (hw.chars d hd)
    rw [hsplit] at h ⊢
    exact h.comesTo_cons (.word hw ((names_iff _ _).mpr rfl)) hpos hlen
      fun h hpos => ih h (.inr hw.ends) hpos
  | case6 pos afterWord c cs hs hcomma hnewline hc =>
    refine ⟨p, cs, xs, rfl, hpos.symm, h, ?_⟩
    rw [isWordStart_iff] at hc
    by_cases hchar : isWordChar c = true
    · have hdigit : c.isDigit = true := by simpa [hchar] using hc
      refine .inr ⟨hdigit, hb.resolve_right fun he => ?_⟩
      rw [he c rfl] at hchar
      cases hchar
    · exact .inl (by simp [isLegal, hchar, hs, hcomma, hnewline])

theorem isWordChar_of_isDigit {c : Char} (h : c.isDigit = true) : isWordChar c = true := by
  simp [isWordChar, Char.isAlphanum, h]

/-- A text is legal just when none of its characters offends. -/
theorem legal_iff (cs : List Char) : Legal cs ↔ ∀ p c q, cs = p ++ c :: q → ¬ Offends p c := by
  constructor
  · rintro h p c q rfl (hc | ⟨hd, hp⟩)
    · rw [h.chars c (by simp)] at hc
      cases hc
    · have hrun := isRun_takeWhile (q := q) (isWordChar_of_isDigit hd) hp
      rw [h.runs p _ _ (by simp) hrun c rfl] at hd
      cases hd
  · intro h
    refine ⟨fun c hc => ?_, fun p w q hcs hw c hc => ?_⟩
    · obtain ⟨p, q, rfl⟩ := List.append_of_mem hc
      simpa using fun hlegal => h p c q rfl (.inl hlegal)
    · obtain ⟨w, rfl⟩ := List.head?_eq_some_iff.mp hc
      simpa using fun hd => h p c (w ++ q) (by simp [hcs]) (.inr ⟨hd, hw.begins⟩)

theorem utf8Len_toList (s : String) : utf8Len s.toList = s.utf8ByteSize := by
  rw [← String.utf8ByteSize_ofList, String.ofList_toList]

/-- The lexemes read tile the text. -/
theorem tiles_of_read {src : String} {xs : List (Located Lexeme)} (h : read src = .ok xs) :
    Tiles src.toList [] xs := by
  have hread := comesTo_readFrom 0 false (.start src.toList) (.inl (by simp [Begins])) rfl
  rw [show readFrom 0 false src.toList = .ok xs from h] at hread
  exact hread

/-- Where reading fails, a character offends, and none before it does. -/
theorem offends_of_read {src : String} {s : Stray} (h : read src = .error s) :
    ∃ p q, src.toList = p ++ s.char :: q ∧ s.offset = utf8Len p ∧ Offends p s.char ∧
      ∀ a c b, p = a ++ c :: b → ¬ Offends a c := by
  have hread := comesTo_readFrom 0 false (.start src.toList) (.inl (by simp [Begins])) rfl
  rw [show readFrom 0 false src.toList = .error s from h] at hread
  obtain ⟨p, q, ys, heq, hoff, htiles, hoffends⟩ := hread
  exact ⟨p, q, heq, hoff, hoffends, fun a c b hp => htiles.not_offends hp⟩

/-- A text has lexemes just when it is legal. -/
theorem exists_read_iff (src : String) : (∃ xs, read src = .ok xs) ↔ Legal src.toList := by
  rw [legal_iff]
  constructor
  · rintro ⟨xs, h⟩ p c q heq
    exact (tiles_of_read h).not_offends heq
  · intro hlegal
    cases h : read src with
    | ok xs => exact ⟨xs, rfl⟩
    | error s =>
      obtain ⟨p, q, heq, -, hoffends, -⟩ := offends_of_read h
      exact absurd hoffends (hlegal p s.char q heq)

/-- Each byte of a text is one of a character. -/
theorem exists_char_at {cs : List Char} {n : Nat} (hn : n < utf8Len cs) :
    ∃ p c q, cs = p ++ c :: q ∧ utf8Len p ≤ n ∧ n < utf8Len p + c.utf8Size := by
  induction cs using List.reverseRecOn with
  | nil => simp at hn
  | append_singleton cs c ih =>
    by_cases hlt : n < utf8Len cs
    · obtain ⟨p, d, q, rfl, hp⟩ := ih hlt
      exact ⟨p, d, q ++ [c], by simp, hp⟩
    · rw [String.utf8Len_append, utf8Len_singleton] at hn
      exact ⟨cs, c, [], rfl, by omega, hn⟩

/-- **Reading tiles a text**, or fails at the first character that offends. It has lexemes just when
it is legal. If it is not, there is one diagnostic, and its span is that of the first character that
offends. If it is, the spans of the lexemes are not empty, come one behind the other, and every byte
outside them is that of a blank. The lexemes are all the commas, newlines and words of the text, each
word a maximal run and read as what it is written for. -/
theorem read_tiles (src : String) :
    ((∃ xs, read src = .ok xs) ↔ Legal src.toList) ∧
    (∀ s, read src = .error s → ∃ p q, src.toList = p ++ s.char :: q ∧
      s.span = .behind p [s.char] ∧ Offends p s.char ∧
      (∀ a c b, p = a ++ c :: b → ¬ Offends a c) ∧
      Rule.read src = .error [⟨.stray s.char s.afterWord, s.span⟩]) ∧
    ∀ xs, read src = .ok xs →
      (∀ x ∈ xs, x.span.start < x.span.stop) ∧
      (xs.Pairwise fun x y => x.span.stop ≤ y.span.start) ∧
      (∀ n < src.utf8ByteSize, (∀ x ∈ xs, ¬ (x.span.start ≤ n ∧ n < x.span.stop)) →
        ∃ p c q, src.toList = p ++ c :: q ∧ utf8Len p = n ∧ isSpacing c = true) ∧
      ∀ x, x ∈ xs ↔ ∃ p w q, src.toList = p ++ w ++ q ∧ x.span = .behind p w ∧
        Stands p w q x.value := by
  refine ⟨exists_read_iff src, fun s hs => ?_, fun xs hxs => ?_⟩
  · obtain ⟨p, q, heq, hoff, hoffends, hbefore⟩ := offends_of_read hs
    refine ⟨p, q, heq, ?_, hoffends, hbefore, by rw [Rule.read, hs]⟩
    rw [Stray.span, hoff, Span.behind, utf8Len_singleton]
  · have htiles := tiles_of_read hxs
    refine ⟨fun x hx => (htiles.span_lt hx).1, htiles.pairwise, fun n hn hout => ?_, fun x => ?_⟩
    · rw [← utf8Len_toList] at hn
      obtain ⟨p, c, q, heq, hp, hc⟩ := exists_char_at hn
      rcases htiles.covers heq with hblank | ⟨a, u, v, b, l, rfl, rfl, hs, hmem⟩
      · rw [utf8Size_of_isLegal (isLegal_of_isSpacing hblank)] at hc
        exact ⟨p, c, q, heq, by omega, hblank⟩
      · refine absurd ?_ (hout _ hmem)
        simp only [Span.behind, String.utf8Len_append, String.utf8Len_cons] at hp hc ⊢
        omega
    · constructor
      · intro hx
        obtain ⟨a, w, b, heq, hspan, hs⟩ := htiles.stands hx
        rw [List.append_nil] at hs
        exact ⟨a, w, b, heq, hspan, hs⟩
      · rintro ⟨p, w, q, heq, hspan, hs⟩
        obtain ⟨l, span⟩ := x
        obtain rfl := hspan
        exact htiles.mem_of_stands heq (by rwa [List.append_nil])

end Lexeme

end BoardTrial
