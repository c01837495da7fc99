import BoardTrial.RuleText.Drawing
import BoardTrial.RuleText.Sketch
import Mathlib.Data.List.Induction

/-!
# Sketches show what they are asked for

A place in a text falls where it is located (`falls_iff`), so every place falls on one line and
column. A stretch is underlined with as many strokes as it has characters, and the message hangs
from the middle one. So **sketching does what renderers are documented to do**
(`Renderer.documented_sketch`).
-/

namespace BoardTrial

/-! ### Lines and columns -/

theorem ne_nil_of_mem_linesOf {cs l : List Char} (h : l ∈ linesOf cs) : l ≠ [] := by
  induction cs generalizing l with
  | nil => cases h
  | cons c cs ih =>
    simp only [linesOf] at h
    split at h
    · rcases List.mem_cons.mp h with rfl | h
      · exact List.cons_ne_nil _ _
      · exact ih h
    · split at h
      · rw [List.mem_singleton.mp h]
        exact List.cons_ne_nil _ _
      · rename_i l' ls heq
        rcases List.mem_cons.mp h with rfl | h
        · exact List.cons_ne_nil _ _
        · exact ih (heq ▸ List.mem_cons_of_mem _ h)

/-- A position is on the line it says. -/
theorem content_locate (n : Nat) (ls : List (List Char)) :
    (locate n ls).content = ls.getD (locate n ls).line [] := by
  fun_induction locate n ls with
  | case1 n => rfl
  | case2 n l => rfl
  | case3 n l ls _ _ => rfl
  | case4 n l ls _ _ p ih => simpa using ih

/-- The first position of a text. -/
theorem locate_zero (cs : List Char) :
    (locate 0 (linesOf cs)).line = 0 ∧ (locate 0 (linesOf cs)).column = 0 := by
  cases h : linesOf cs with
  | nil => exact ⟨rfl, rfl⟩
  | cons l ls =>
    have hl : 0 < l.length :=
      List.length_pos_of_ne_nil (ne_nil_of_mem_linesOf (h ▸ List.mem_cons_self))
    cases ls with
    | nil => exact ⟨rfl, rfl⟩
    | cons _ _ => simp [locate, hl]

/-- One more character before a position puts it a line further if it is a newline. Else it is a
column further, if it is on the first line. -/
theorem locate_cons (n : Nat) (c : Char) {cs : List Char} (hcs : cs ≠ []) :
    let r := locate n (linesOf cs)
    let r' := locate (n + 1) (linesOf (c :: cs))
    r'.line = (if c = '\n' then r.line + 1 else r.line) ∧
      r'.column = if c ≠ '\n' ∧ r.line = 0 then r.column + 1 else r.column := by
  intro r r'
  cases h : linesOf cs with
  | nil => exact absurd h (linesOf_ne_nil hcs)
  | cons l ls =>
    by_cases hc : c = '\n'
    · simp [r, r', linesOf, hc, h, locate]
    · cases ls with
      | nil => simp [r, r', linesOf, hc, h, locate]
      | cons l' ls =>
        by_cases hn : n < l.length
        · simp [r, r', linesOf, hc, h, locate, hn]
        · simp [r, r', linesOf, hc, h, locate, hn]

/-- Going one character further ends a line, if something is behind its newline, and else is one
column further. -/
theorem locate_succ (p : List Char) (c : Char) (q : List Char) :
    let r := locate p.length (linesOf (p ++ c :: q))
    let r' := locate (p.length + 1) (linesOf (p ++ c :: q))
    r'.line = (if c = '\n' ∧ q ≠ [] then r.line + 1 else r.line) ∧
      r'.column = if c = '\n' ∧ q ≠ [] then 0 else r.column + 1 := by
  induction p with
  | nil =>
    obtain ⟨hline, hcolumn⟩ := locate_zero (c :: q)
    simp only [List.nil_append, List.length_nil, hline, hcolumn]
    cases q with
    | nil => by_cases hc : c = '\n' <;> simp [linesOf, locate]
    | cons d q =>
      obtain ⟨hline', hcolumn'⟩ := locate_zero (d :: q)
      have hcons := locate_cons 0 c (List.cons_ne_nil d q)
      simp only [hline', hcolumn'] at hcons
      simp only [hcons, ne_eq, reduceCtorEq, not_false_eq_true, and_true]
      by_cases hc : c = '\n' <;> simp [hc]
  | cons d p ih =>
    have hne : p ++ c :: q ≠ [] := by simp
    have hcons := locate_cons p.length d hne
    have hcons' := locate_cons (p.length + 1) d hne
    simp only [ih] at hcons'
    simp only [List.cons_append, List.length_cons, hcons, hcons']
    by_cases hq : c = '\n' ∧ q ≠ []
    · by_cases hd : d = '\n' <;> simp [hq, hd]
    · by_cases hd : d = '\n' <;> simp [hq, hd]
      split <;> rfl

/-- **A position is where its character falls.** -/
theorem falls_iff (p q : List Char) (line column : Nat) :
    Falls p q line column ↔ line = (locate p.length (linesOf (p ++ q))).line + 1 ∧
      column = (locate p.length (linesOf (p ++ q))).column + 1 := by
  constructor
  · intro h
    induction h with
    | first q =>
      obtain ⟨hline, hcolumn⟩ := locate_zero q
      simp [hline, hcolumn]
    | @line p q c line column _ ih =>
      obtain ⟨hline, hcolumn⟩ := locate_succ p '\n' (c :: q)
      simp [hline, hcolumn, ih.1]
    | @column p q c line column hc _ ih =>
      obtain ⟨hline, hcolumn⟩ := locate_succ p c q
      have hno : ¬ (c = '\n' ∧ q ≠ []) := fun h => h.2 (hc h.1)
      simp [hline, hcolumn, hno, ih]
  · rintro ⟨rfl, rfl⟩
    induction p using List.reverseRecOn generalizing q with
    | nil =>
      obtain ⟨hline, hcolumn⟩ := locate_zero q
      rw [List.nil_append, List.length_nil, hline, hcolumn]
      exact .first q
    | append_singleton p c ih =>
      obtain ⟨hline, hcolumn⟩ := locate_succ p c q
      rw [List.append_assoc, List.singleton_append, List.length_append, List.length_singleton,
        hline, hcolumn]
      by_cases hq : c = '\n' ∧ q ≠ []
      · obtain ⟨rfl, hq⟩ := hq
        obtain ⟨d, q, rfl⟩ := List.exists_cons_of_ne_nil hq
        simpa using (ih ('\n' :: d :: q)).line
      · rw [if_neg hq, if_neg hq]
        refine .column (fun hc => ?_) (ih (c :: q))
        simpa [hc] using hq

/-- A text has one line and column for each place. -/
theorem Falls.unique {p q : List Char} {line line' column column' : Nat}
    (h : Falls p q line column) (h' : Falls p q line' column') :
    line = line' ∧ column = column' := by
  obtain ⟨rfl, rfl⟩ := (falls_iff p q line column).mp h
  obtain ⟨rfl, rfl⟩ := (falls_iff p q line' column').mp h'
  exact ⟨rfl, rfl⟩

theorem exists_falls (p q : List Char) : ∃ line column, Falls p q line column :=
  ⟨_, _, (falls_iff p q _ _).mpr ⟨rfl, rfl⟩⟩

/-! ### Drawings -/

namespace Sketch

theorem hook_eq (column width : Nat) : hook column width = column + width / 2 := by
  rw [hook]
  omega

theorem underlines_of_pos {width : Nat} (h : 0 < width) : Underlines width (width / 2)
    (times (width / 2) '─' ++ "┬" ++ times (width - width / 2 - 1) '─') := by
  have hsum : width / 2 + 1 + (width - width / 2 - 1) = width := by omega
  have hu := Underlines.strokes (width / 2) (width - width / 2 - 1)
  rwa [hsum] at hu

/-- An underline has as many strokes as it is wide. -/
theorem exists_underlines (column width : Nat) : ∃ strokes after,
    Underlines width (width / 2) strokes ∧
      underline column width = times column ' ' ++ strokes ++ times after ' ' := by
  unfold underline
  split
  · rename_i hwidth
    subst hwidth
    exact ⟨"│", 1, .bar, by rw [String.append_assoc]; rfl⟩
  · rename_i hwidth
    refine ⟨_, 2, underlines_of_pos (by omega), ?_⟩
    have hblanks : times 2 ' ' = "  " := rfl
    simp only [hook_eq, Nat.add_sub_cancel_left, String.append_assoc, hblanks]

/-- The message hangs from the stroke under the middle of the stretch. -/
theorem exists_hanging (column width : Nat) (message : String) : ∃ lead,
    hanging column width message =
      times (column + width / 2) ' ' ++ "╰" ++ times lead '─' ++ " " ++ message := by
  rw [hanging, hook_eq]
  exact ⟨_, rfl⟩

/-- A stretch that ends in the text is shown where it is located. -/
theorem shows_block {src : String} {n : Notice} {p w : List Char} (hplace : n.place = .counted p w)
    (hlabel : n.label.span = .counted p w) (hle : p.length + w.length ≤ src.length)
    {r : LinePosition} (hr : locate p.length (linesOf src.toList) = r) :
    Shows (block src n) n.title (r.line + 1) (r.column + 1) w.length (lineText src (r.line + 1))
      n.label.value := by
  obtain ⟨strokes, after, hu, hstrokes⟩ := exists_underlines r.column w.length
  obtain ⟨lead, hlead⟩ := exists_hanging r.column w.length n.label.value
  refine ⟨_, r.column, _, strokes, after, lead, rfl, rfl, hu, ?_⟩
  have hcontent : r.content = (linesOf src.toList).getD r.line [] := hr ▸ content_locate _ _
  have hlength : (Span.counted p w).length = w.length := Nat.add_sub_cancel_left ..
  have hstart : (Span.counted p w).start = p.length := rfl
  have hstop : (Span.counted p w).stop = p.length + w.length := rfl
  simp only [block, hplace, hlabel, hstart, hstop, hlength, hr, hle, decide_true, rows, if_true,
    hstrokes, hlead, hcontent, lineText, Nat.add_sub_cancel, unlines, ← String.append_assoc,
    List.cons_append, List.nil_append]

end Sketch

/-- **Sketching is as documented.** -/
theorem Renderer.documented_sketch : sketch.Documented where
  written _ _ := rfl
  shows := by
    intro src n p w q line column _ hsrc _ hplace hlabel hfalls
    obtain ⟨rfl, rfl⟩ := (falls_iff p (w ++ q) line column).mp hfalls
    rw [← List.append_assoc, ← hsrc]
    refine Sketch.shows_block hplace hlabel ?_ rfl
    rw [← String.length_toList, hsrc, List.length_append, List.length_append]
    omega

end BoardTrial
