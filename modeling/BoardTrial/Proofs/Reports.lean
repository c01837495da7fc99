import BoardTrial.Proofs.Diagnoses
import BoardTrial.Proofs.Sketches
import Mathlib.Data.List.Forall2

/-!
# What reports show

The diagnostics of a text count bytes, and are handed as they are to a renderer that counts
characters. What is before a diagnostic takes one byte a character, so the characters asked for
begin at the right one. What a diagnostic is about does so too, unless it is a stray character: for
one of two bytes two characters are asked for. **So a report is right just when no stray character
takes several bytes** (`Rule.report_right_iff`).

Whether the renderer draws what it is asked for is its own affair. It is taken to do what it is
documented to do (`Renderer.Documented`): to draw stretches of one line of a plain text. Of other
texts only what it is asked for is said. If a stray character of several bytes ends a text, no
stretch of the text is asked for, and the message may get lost (`Rule.report_without_message`).
-/

namespace BoardTrial

open String (utf8Len)

/-! ### What a drawing shows is determined -/

/-- Whether underlines are made of the character. -/
def isStroke (c : Char) : Bool := c == '─' || c == '┬'

/-- The strokes of an underline are counted by its width. -/
theorem Underlines.length_takeWhile {width hook : Nat} {u : String} (h : Underlines width hook u)
    (after : Nat) (v : List Char) :
    ((u.toList ++ (List.replicate after ' ' ++ '\n' :: v)).takeWhile isStroke).length = width := by
  have hnil : (List.replicate after ' ' ++ '\n' :: v).takeWhile isStroke = [] := by
    cases after <;> rfl
  cases h with
  | strokes _ b =>
    have hall : ∀ c ∈ (times hook '─' ++ "┬" ++ times b '─').toList, isStroke c = true := by
      intro c hc
      simp only [String.toList_append, toList_times, List.mem_append, List.mem_replicate] at hc
      rcases hc with (⟨-, rfl⟩ | hc) | ⟨-, rfl⟩
      · rfl
      · obtain rfl := List.mem_singleton.mp hc
        rfl
      · rfl
    have hlength : (times hook '─' ++ "┬" ++ times b '─').toList.length = hook + 1 + b := by
      simp only [String.toList_append, toList_times, List.length_append, List.length_replicate]
      rfl
    rw [List.takeWhile_append_of_pos hall, hnil, List.append_nil, hlength]
  | bar => rfl

/-- A block tells how many columns it underlines. -/
theorem Shows.width_unique {b title content message : String} {line column width width' : Nat}
    (h : Shows b title line column width content message)
    (h' : Shows b title line column width' content message) : width = width' := by
  obtain ⟨_, before, _, strokes, after, lead, rfl, rfl, hu, rfl⟩ := h
  obtain ⟨_, before', _, strokes', after', lead', rfl, hb, hu', heq⟩ := h'
  obtain rfl := Nat.succ.inj hb
  -- the two drawings are the same up to the strokes
  replace heq := congrArg String.toList heq
  simp only [unlines, List.map_cons, List.map_nil, String.join_cons, String.toList_append,
    List.append_assoc, List.append_cancel_left_eq, toList_times] at heq
  rw [← hu.length_takeWhile after, ← hu'.length_takeWhile after']
  exact congrArg (fun l => (l.takeWhile isStroke).length) heq

/-- What shows a message has its characters. -/
theorem Shows.mem {b title message content : String} {line column width : Nat}
    (h : Shows b title line column width content message) {c : Char} (hc : c ∈ message.toList) :
    c ∈ b.toList := by
  obtain ⟨_, _, _, _, _, _, -, -, -, rfl⟩ := h
  simp [unlines, hc]

/-- A renderer whose writing comes to its end draws all diagnostics. -/
theorem Renderer.Documented.report_eq {R : Renderer} (hR : R.Documented) (src : String)
    (ds : List Diagnostic) :
    R.report src ds = String.join (ds.map fun d => (R.draw src d.notice).1) := by
  induction ds with
  | nil => rfl
  | cons d ds ih =>
    have hwritten := hR.written src d.notice
    rcases hdraw : R.draw src d.notice with ⟨block, done⟩
    obtain rfl : done = true := by rwa [hdraw] at hwritten
    simp only [Renderer.report, hdraw, ih, List.map_cons, String.join_cons]

/-- Texts of plain characters and newlines are plain. -/
theorem Renderer.isPlain_of_all {R : Renderer} {src : String}
    (h : src.toList.all (fun c => R.isPlain c || c == '\n') = true) : R.IsPlain src := by
  intro p c q hsrc
  have hc := List.all_eq_true.mp h c (by simp [hsrc])
  rcases Bool.or_eq_true_iff.mp hc with hc | hc
  · exact .inl hc
  · exact .inr (.inl (beq_iff_eq.mp hc))

/-! ### What diagnostics are about is on one line -/

namespace Grammar

theorem Leaf.newline_not_mem {u : List Lexeme} {i : Interaction} (h : Leaf u i) : .newline ∉ u := by
  cases h <;> simp [Token.lexemes]

/-- From one lexeme to another no newline stands in the text, if none is among the lexemes. -/
theorem newline_not_mem_of_covers {src : String} {xs u ys : List (Located Lexeme)} {s : Span}
    {p w q : List Char} (hread : Lexeme.read src = .ok (xs ++ u ++ ys))
    (hu : .newline ∉ u.map (·.value)) (hc : Covers u s) (hsrc : src.toList = p ++ w ++ q)
    (hs : s = .behind p w) : '\n' ∉ w := by
  intro hmem
  obtain ⟨a, b, rfl⟩ := List.append_of_mem hmem
  obtain ⟨⟨x, hx, hstart⟩, y, hy, hstop⟩ := hc
  have hx := List.mem_of_mem_head? hx
  have hy := List.mem_of_mem_getLast? hy
  have hsize : utf8Len ['\n'] = 1 := rfl
  rw [hs] at hstart hstop
  simp only [Span.behind, String.utf8Len_append, String.utf8Len_cons] at hstart hstop
  -- a newline is a lexeme: it is before the lexemes, among them or behind them
  have hline := (Lexeme.tiles_of_read hread).mem_of_stands (a := p ++ a) (w := ['\n'])
    (b := b ++ q) (by simp [hsrc]) .newline
  obtain ⟨hxu, -, hbehind⟩ := (inOrder_append_iff _ _).mp (Lexeme.inOrder_of_read hread)
  obtain ⟨-, -, hbefore⟩ := (inOrder_append_iff _ _).mp hxu
  rcases List.mem_append.mp hline with hline | hline
  · rcases List.mem_append.mp hline with hline | hline
    · have hle := hbefore _ hline x hx
      simp only [Span.behind, String.utf8Len_append, hsize] at hle
      omega
    · exact hu (List.mem_map_of_mem hline)
  · have hle := hbehind y (List.mem_append_right _ hy) _ hline
    have hpos := Char.utf8Size_pos '\n'
    simp only [Span.behind, String.utf8Len_append] at hle
    omega

end Grammar

namespace Rule

variable {src : String} {d : Diagnostic} {p w q : List Char}

/-- A lexeme is on one line. -/
theorem oneLine_of_stands {l : Lexeme} (h : Lexeme.Stands p w q l) : OneLine w := by
  cases h with
  | comma => simp [OneLine]
  | newline => simp [OneLine]
  | word hw _ =>
    intro hmem
    have hchar := hw.chars _ (List.dropLast_subset _ hmem)
    cases hchar

/-- What a text ends in is on one line. -/
theorem oneLine_of_ofRest {pre rest : List (Located Lexeme)} {expected : List Expected}
    (hread : Lexeme.read src = .ok (pre ++ rest)) (hsrc : src.toList = p ++ w ++ q)
    (hspan : (Diagnostic.ofRest src.utf8ByteSize expected rest).span = .behind p w) :
    OneLine w := by
  cases rest with
  | nil =>
    have hend : Span.behind src.toList [] = .behind p w := by
      rw [← hspan]
      simp [Span.behind, Diagnostic.ofRest, Span.point]
    obtain ⟨-, rfl, -⟩ := Span.behind_inj (q := []) (by simpa using hsrc) hend
    simp [OneLine]
  | cons x xs =>
    obtain ⟨a, v, b, hv, hx, hs⟩ := (Lexeme.tiles_of_read hread).stands (x := x) (by simp)
    obtain ⟨-, rfl, -⟩ := Span.behind_inj (hv.symm.trans hsrc) (hx.symm.trans hspan)
    exact oneLine_of_stands hs

/-- A diagnostic of a text that has lexemes is about an interaction that mixes sizes, or about what
the text ends in. -/
theorem mem_diagnostics_cases {xs : List (Located Lexeme)} (hread : Lexeme.read src = .ok xs)
    (hd : d ∈ diagnostics src) :
    (∃ a u b i, xs = a ++ u ++ b ∧ Grammar.Leaf (u.map (·.value)) i ∧ Grammar.Covers u d.span ∧
      d.value = .mixedSizes) ∨
      ∃ pre rest expected, xs = pre ++ rest ∧ d = .ofRest src.utf8ByteSize expected rest := by
  obtain ⟨pre, rest, ls, rfl, -, hls, -, hfound⟩ := exists_diagnoses hread
  have hmixed (hd : d ∈ Diagnostic.mixedSizes ls) : ∃ a u b i, pre ++ rest = a ++ u ++ b ∧
      Grammar.Leaf (u.map (·.value)) i ∧ Grammar.Covers u d.span ∧ d.value = .mixedSizes := by
    obtain ⟨l, hl, rfl⟩ := List.mem_map.mp hd
    obtain ⟨a, u, b, rfl, hleaf, hc⟩ := hls.exists_leaf (List.mem_filter.mp hl).1
    exact ⟨a, u, b ++ rest, l.value, by simp, hleaf, hc, rfl⟩
  rcases hfound with ⟨-, hds⟩ | ⟨-, found, span, expected, hds, -, hrest⟩
  · exact .inl (hmixed (hds ▸ hd))
  · rw [hds] at hd
    rcases List.mem_append.mp hd with hd | hd
    · exact .inl (hmixed hd)
    · exact .inr ⟨pre, rest, expected, rfl, (List.mem_singleton.mp hd).trans hrest.symm⟩

/-- What a diagnostic of a text that has lexemes is about is on one line. -/
theorem oneLine_of_lexemes {xs : List (Located Lexeme)} (hread : Lexeme.read src = .ok xs)
    (hd : d ∈ diagnostics src) (hsrc : src.toList = p ++ w ++ q) (hspan : d.span = .behind p w) :
    OneLine w := by
  rcases mem_diagnostics_cases hread hd with
    ⟨a, u, b, i, rfl, hleaf, hc, -⟩ | ⟨pre, rest, expected, rfl, rfl⟩
  · exact fun h => Grammar.newline_not_mem_of_covers hread hleaf.newline_not_mem hc hsrc hspan
      (List.dropLast_subset _ h)
  · exact oneLine_of_ofRest hread hsrc hspan

/-! ### Which characters a diagnostic is about -/

/-- In a text that has lexemes no character is stray. -/
theorem not_stray_of_lexemes {xs : List (Located Lexeme)} (hread : Lexeme.read src = .ok xs)
    (hd : d ∈ diagnostics src) (c : Char) (afterWord : Bool) : d.value ≠ .stray c afterWord := by
  rcases mem_diagnostics_cases hread hd with
    ⟨-, -, -, -, -, -, -, hvalue⟩ | ⟨-, rest, expected, -, rfl⟩
  · rw [hvalue]
    exact Problem.noConfusion
  · cases rest <;> exact Problem.noConfusion

/-- The characters of a text that has lexemes take one byte each. -/
theorem utf8Len_of_lexemes {xs : List (Located Lexeme)} (hsrc : Lexeme.read src = .ok xs)
    {a w b : List Char} (h : src.toList = a ++ w ++ b) : utf8Len w = w.length := by
  have hlegal := ((Lexeme.exists_read_iff src).mp ⟨xs, hsrc⟩).chars
  rw [h] at hlegal
  exact Lexeme.utf8Len_of_isLegal fun c hc => hlegal c (by simp [hc])

/-- What a diagnostic is about is on one line, behind characters of one byte each, and is made of
such, unless it is a stray character. -/
theorem covers_of_mem (hd : d ∈ diagnostics src) :
    ∃ p w q, src.toList = p ++ w ++ q ∧ d.span = .behind p w ∧ utf8Len p = p.length ∧ OneLine w ∧
      (utf8Len w = w.length ∧ (∀ c afterWord, d.value ≠ .stray c afterWord) ∨
        ∃ c afterWord, w = [c] ∧ d.value = .stray c afterWord) := by
  cases hsrc : Lexeme.read src with
  | error s =>
    obtain ⟨p, q, hp, hoff, -, hbefore⟩ := Lexeme.offends_of_read hsrc
    rw [diagnostics, read, hsrc] at hd
    obtain rfl := List.mem_singleton.mp hd
    refine ⟨p, [s.char], q, by simp [hp], ?_, ?_, by simp [OneLine],
      .inr ⟨s.char, s.afterWord, rfl, rfl⟩⟩
    · show s.span = _
      rw [Lexeme.Stray.span, hoff, Span.behind, Lexeme.utf8Len_singleton]
    · refine Lexeme.utf8Len_of_isLegal fun c hc => ?_
      obtain ⟨a, b, rfl⟩ := List.append_of_mem hc
      simpa using fun hc => hbefore a c b rfl (.inl hc)
  | ok xs =>
    have hmarks : d.span.Marks src := by
      have hmem := hd
      rw [diagnostics] at hmem
      split at hmem
      · cases hmem
      · rename_i ds hds
        exact (well_placed hds).1 d hmem
    obtain ⟨p, w, q, hp, hspan⟩ := hmarks
    refine ⟨p, w, q, hp, hspan, utf8Len_of_lexemes hsrc (a := []) (b := w ++ q) (by simp [hp]),
      oneLine_of_lexemes hsrc hd hp hspan,
      .inl ⟨utf8Len_of_lexemes hsrc hp, not_stray_of_lexemes hsrc hd⟩⟩

/-- A stray character is behind characters of one byte each. -/
theorem exists_of_stray (hd : d ∈ diagnostics src) {c : Char} {afterWord : Bool}
    (hc : d.value = .stray c afterWord) : ∃ p q, src.toList = p ++ c :: q ∧
      d.span = .behind p [c] ∧ d.span = ⟨p.length, p.length + c.utf8Size⟩ := by
  obtain ⟨p, w, q, hsrc, hspan, hp, -, ⟨-, hno⟩ | ⟨c', _, rfl, hc'⟩⟩ := covers_of_mem hd
  · exact absurd hc (hno c afterWord)
  · obtain ⟨rfl, -⟩ := Problem.stray.inj (hc.symm.trans hc')
    refine ⟨p, q, by simpa using hsrc, hspan, ?_⟩
    rw [hspan, Span.behind, hp, Lexeme.utf8Len_singleton]

/-- A stray character is all that is wrong with a text. -/
theorem diagnostics_of_stray (hd : d ∈ diagnostics src) {c : Char} {afterWord : Bool}
    (hc : d.value = .stray c afterWord) : diagnostics src = [d] := by
  cases hsrc : Lexeme.read src with
  | error s =>
    rw [diagnostics, read, hsrc] at hd ⊢
    obtain rfl := List.mem_singleton.mp hd
    rfl
  | ok xs => exact absurd hc (not_stray_of_lexemes hsrc hd c afterWord)

/-- Counted in bytes and in characters a stretch has the same place just when its characters take
one byte each, if those before it do. -/
theorem behind_eq_counted_iff (hp : utf8Len p = p.length) :
    Span.behind p w = .counted p w ↔ utf8Len w = w.length := by
  simp [Span.behind, Span.counted, hp]

/-- **A notice is about the characters of its diagnostic** unless a stray character takes several
bytes. -/
theorem agrees_iff (hd : d ∈ diagnostics src) :
    d.Agrees src ↔ ∀ c afterWord, d.value = .stray c afterWord → c.utf8Size = 1 := by
  obtain ⟨p, w, q, hsrc, hspan, hp, -, hw⟩ := covers_of_mem hd
  constructor
  · rintro ⟨p', w', q', hsrc', hspan', hplace, -⟩ c afterWord hc
    obtain ⟨rfl, rfl, rfl⟩ := Span.behind_inj (hsrc'.symm.trans hsrc) (hspan'.symm.trans hspan)
    have hlen := (behind_eq_counted_iff hp).mp (hspan'.symm.trans hplace)
    rcases hw with ⟨-, hno⟩ | ⟨c', _, rfl, hc'⟩
    · exact absurd hc (hno c afterWord)
    · obtain ⟨rfl, -⟩ := Problem.stray.inj (hc.symm.trans hc')
      rwa [Lexeme.utf8Len_singleton] at hlen
  · intro hone
    have hlen : utf8Len w = w.length := by
      rcases hw with ⟨hw, -⟩ | ⟨c, afterWord, rfl, hc⟩
      · exact hw
      · rw [Lexeme.utf8Len_singleton, hone c afterWord hc, List.length_singleton]
    have hcounted := hspan.trans ((behind_eq_counted_iff hp).mpr hlen)
    exact ⟨p, w, q, hsrc, hspan, hcounted, hcounted⟩

/-! ### Whether the drawing is right -/

variable {R : Renderer}

/-- What a notice is rightly about is shown. -/
theorem right_of_agrees (hR : R.Documented) (hplain : R.IsPlain src) (hd : d ∈ diagnostics src)
    (h : d.Agrees src) : d.notice.OnLine src ∧ d.Right src (R.draw src d.notice).1 := by
  obtain ⟨p, w, q, hsrc, hspan, hplace, hlabel⟩ := h
  obtain ⟨p', w', q', hsrc', hspan', -, hone, -⟩ := covers_of_mem hd
  obtain ⟨rfl, rfl, rfl⟩ := Span.behind_inj (hsrc.symm.trans hsrc') (hspan.symm.trans hspan')
  obtain ⟨line, column, hfalls⟩ := exists_falls p (w ++ q)
  exact ⟨⟨p, w, q, hsrc, hone, hplace, hlabel⟩, p, w, q, line, column, hsrc, hspan, hfalls,
    hR.shows hplain hsrc hone hplace hlabel hfalls⟩

/-- A stray character that is shown as it is takes one byte: there is a stroke for each. -/
theorem utf8Size_of_right (hR : R.Documented) (hplain : R.IsPlain src) (hd : d ∈ diagnostics src)
    {c : Char} {afterWord : Bool} (hc : d.value = .stray c afterWord)
    (hline : d.notice.OnLine src) (hright : d.Right src (R.draw src d.notice).1) :
    c.utf8Size = 1 := by
  obtain ⟨p, q, hsrc, hspan, hbytes⟩ := exists_of_stray hd hc
  obtain ⟨p', w, q', hsrc', hone, hplace, hlabel⟩ := hline
  -- as many characters are asked for as the stray character has bytes
  have hcounted : Span.counted p' w = ⟨p.length, p.length + c.utf8Size⟩ :=
    hplace.symm.trans hbytes
  obtain ⟨hp, hw⟩ := Span.mk.inj hcounted
  rw [hp, Nat.add_left_cancel_iff] at hw
  obtain ⟨rfl, hrest⟩ := List.append_inj
    (show p' ++ (w ++ q') = p ++ c :: q by rw [← List.append_assoc, ← hsrc', hsrc]) hp
  obtain ⟨a, v, b, line, column, hsrc'', hspan', hfalls, hshows⟩ := hright
  have hsingle : src.toList = p' ++ [c] ++ q := by simpa using hsrc
  obtain ⟨rfl, rfl, rfl⟩ := Span.behind_inj (hsrc''.symm.trans hsingle) (hspan'.symm.trans hspan)
  -- they are drawn from the same line and column as the stray character would be
  have hfalls' : Falls a (w ++ q') line column := by
    rw [hrest]
    exact hfalls
  have hasked := hR.shows hplain hsrc' hone hplace hlabel hfalls'
  calc c.utf8Size
    _ = w.length := hw.symm
    _ = [c].length := hasked.width_unique hshows
    _ = 1 := rfl

/-- **A report is right just when no stray character takes several bytes.**

Every diagnostic is drawn with its message, from its first character on. The characters asked for
are those of the diagnostics just when no stray character takes several bytes. If the text is plain,
they are just then on one line each and drawn there, with a stroke below each of them and the
message. A stray character is the only diagnostic of its text, and as many characters are asked for
as it has bytes. -/
theorem report_right_iff (hR : R.Documented) (src : String) :
    -- what is asked for
    (R.report src (diagnostics src) =
        String.join ((diagnostics src).map fun d => (R.draw src d.notice).1) ∧
      ∀ d ∈ diagnostics src, ∃ p w q, src.toList = p ++ w ++ q ∧ d.span = .behind p w ∧
        d.notice.place.start = p.length ∧ d.notice.label = ⟨d.value.message, d.notice.place⟩) ∧
    -- whether that is what the diagnostics are about
    ((∀ d ∈ diagnostics src, d.Agrees src) ↔
      ∀ d ∈ diagnostics src, ∀ c afterWord, d.value = .stray c afterWord → c.utf8Size = 1) ∧
    -- whether it is drawn
    (R.IsPlain src → ((∀ d ∈ diagnostics src, d.notice.OnLine src) ∧
        (∃ bs, R.report src (diagnostics src) = String.join bs ∧
          List.Forall₂ (Diagnostic.Right src) (diagnostics src) bs) ↔
      ∀ d ∈ diagnostics src, ∀ c afterWord, d.value = .stray c afterWord → c.utf8Size = 1)) ∧
    -- a stray character
    ∀ d ∈ diagnostics src, ∀ c afterWord, d.value = .stray c afterWord → diagnostics src = [d] ∧
      ∃ p q, src.toList = p ++ c :: q ∧ d.span = .behind p [c] ∧
        d.notice.place = ⟨p.length, p.length + c.utf8Size⟩ := by
  have hagrees : (∀ d ∈ diagnostics src, d.Agrees src) ↔
      ∀ d ∈ diagnostics src, ∀ c afterWord, d.value = .stray c afterWord → c.utf8Size = 1 :=
    forall₂_congr fun _ hd => agrees_iff hd
  refine ⟨⟨hR.report_eq src _, fun d hd => ?_⟩, hagrees, fun hplain => ⟨?_, fun hsize => ?_⟩,
    fun d hd c afterWord hc => ?_⟩
  · obtain ⟨p, w, q, hsrc, hspan, hp, -⟩ := covers_of_mem hd
    exact ⟨p, w, q, hsrc, hspan, (congrArg Span.start hspan).trans hp, rfl⟩
  · rintro ⟨hline, bs, hbs, hright⟩ d hd c afterWord hc
    refine utf8Size_of_right hR hplain hd hc (hline d hd) ?_
    -- a stray character has the whole report for its block
    rw [hR.report_eq, diagnostics_of_stray hd hc] at hbs
    rw [diagnostics_of_stray hd hc] at hright
    obtain ⟨b, _, hb, hnil, rfl⟩ := List.forall₂_cons_left_iff.mp hright
    obtain rfl := List.forall₂_nil_left_iff.mp hnil
    obtain rfl : (R.draw src d.notice).1 = b := by simpa [String.join_cons] using hbs
    exact hb
  · have hshown := fun d hd => right_of_agrees hR hplain hd (hagrees.mpr hsize d hd)
    refine ⟨fun d hd => (hshown d hd).1, _, hR.report_eq src _, ?_⟩
    rw [List.forall₂_map_right_iff, List.forall₂_same]
    exact fun d hd => (hshown d hd).2
  · obtain ⟨p, q, hsrc, hspan, hbytes⟩ := exists_of_stray hd hc
    exact ⟨diagnostics_of_stray hd hc, p, q, hsrc, hspan, hbytes⟩

/-- A text with two diagnostics, each of them drawn right. The stray character of the other text is
drawn, but the comma behind it is underlined as well. -/
theorem report_of_two_diagnostics :
    let src := "use small red circle to touch red square\ntouch"
    let src' := "touch é,"
    (diagnostics src = [⟨.mixedSizes, ⟨0, 40⟩⟩, ⟨.unexpected none [.token], ⟨46, 46⟩⟩] ∧
      ∃ bs, report src (diagnostics src) = String.join bs ∧
        List.Forall₂ (Diagnostic.Right src) (diagnostics src) bs) ∧
    diagnostics src' = [⟨.stray 'é' false, ⟨6, 8⟩⟩] ∧
      (∀ d ∈ diagnostics src', d.notice.OnLine src') ∧
      ¬ ∃ bs, report src' (diagnostics src') = String.join bs ∧
        List.Forall₂ (Diagnostic.Right src') (diagnostics src') bs := by
  intro src src'
  have htwo : diagnostics src =
      [⟨.mixedSizes, ⟨0, 40⟩⟩, ⟨.unexpected none [.token], ⟨46, 46⟩⟩] := by
    simp only [src]
    with_unfolding_all rfl
  have hstray : diagnostics src' = [⟨.stray 'é' false, ⟨6, 8⟩⟩] := by
    simp only [src']
    with_unfolding_all rfl
  have hline : ∀ d ∈ diagnostics src', d.notice.OnLine src' := by
    rw [hstray]
    intro d hd
    obtain rfl := List.mem_singleton.mp hd
    exact ⟨"touch ".toList, "é,".toList, [], by decide, by simp [OneLine], rfl, rfl⟩
  refine ⟨⟨htwo, ?_⟩, hstray, hline, fun hright => ?_⟩
  · obtain ⟨-, -, hdrawn, -⟩ := report_right_iff Renderer.documented_sketch src
    have hplain : Renderer.sketch.IsPlain src := by
      simp only [src]
      exact Renderer.isPlain_of_all (by with_unfolding_all rfl)
    refine ((hdrawn hplain).mpr fun d hd c afterWord hc => ?_).2
    rw [htwo] at hd
    rcases List.mem_pair.mp hd with rfl | rfl <;> cases hc
  · obtain ⟨-, -, hdrawn, -⟩ := report_right_iff Renderer.documented_sketch src'
    have hplain : Renderer.sketch.IsPlain src' := by
      simp only [src']
      exact Renderer.isPlain_of_all (by with_unfolding_all rfl)
    have hmem : ⟨.stray 'é' false, ⟨6, 8⟩⟩ ∈ diagnostics src' := by
      rw [hstray]
      exact List.mem_singleton_self _
    have hone := (hdrawn hplain).mp ⟨hline, hright⟩ _ hmem 'é' false rfl
    exact absurd hone (by decide)

/-- The text ends in a character of two bytes, the second of which would be behind its end. The
report has no message. -/
theorem report_without_message :
    diagnostics "touch é" = [⟨.stray 'é' false, ⟨6, 8⟩⟩] ∧
    (∀ d ∈ diagnostics "touch é", ¬ d.notice.OnLine "touch é") ∧
    report "touch é" (diagnostics "touch é") =
      "Error: malformed rule\n   ╭─[ <unknown>:1:7 ]\n   │\n   │ \n───╯\n" ∧
    ¬ ∃ bs, report "touch é" (diagnostics "touch é") = String.join bs ∧
      List.Forall₂ (Diagnostic.Right "touch é") (diagnostics "touch é") bs := by
  have hds : diagnostics "touch é" = [⟨.stray 'é' false, ⟨6, 8⟩⟩] := by with_unfolding_all rfl
  have hreport : report "touch é" (diagnostics "touch é") =
      "Error: malformed rule\n   ╭─[ <unknown>:1:7 ]\n   │\n   │ \n───╯\n" := by
    with_unfolding_all rfl
  refine ⟨hds, ?_, hreport, ?_⟩
  · rw [hds]
    rintro d hd ⟨p, w, q, hsrc, -, hplace, -⟩
    obtain rfl := List.mem_singleton.mp hd
    obtain ⟨hp, hw⟩ := Span.mk.inj hplace
    -- the notice asks for eight characters, and there are seven
    have hlength := congrArg List.length hsrc
    simp only [List.length_append] at hlength
    have hseven : "touch é".toList.length = 7 := by decide
    omega
  · rintro ⟨bs, hbs, hright⟩
    rw [hreport] at hbs
    rw [hds, List.forall₂_cons_left_iff] at hright
    obtain ⟨b, bs, ⟨_, _, _, _, _, -, -, -, hshows⟩, -, rfl⟩ := hright
    -- the word "expected" of the message has a letter that the report has not
    have hmem : 'x' ∈ (String.join (b :: bs)).toList := by
      rw [String.join_cons, String.toList_append]
      exact List.mem_append_left _ (hshows.mem (by decide))
    rw [← hbs] at hmem
    revert hmem
    decide

end Rule

end BoardTrial
