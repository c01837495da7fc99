import BoardTrial.Proofs.Grammar
import BoardTrial.Proofs.Lexing
import BoardTrial.Rule.Canonical

/-!
# Canonical rules read back

The trees that reading returns are the canonical ones (`Rule.canonical_of_read`), and the text of a
canonical tree is read as that tree. So a tree reads back just when it is canonical
(`Rule.read_text_iff_canonical`).
-/

namespace BoardTrial

open Grammar Lexeme

/-! ### What reading returns is canonical -/

theorem Grammar.Leaf.wellFormed {u : List Lexeme} {i : Interaction} (h : Leaf u i) :
    i.WellFormed := by
  cases h <;> rfl

namespace Rule

theorem isClause_of_clause {u : List Lexeme} {r : Rule} (h : Clause u r)
    (hu : ∀ i ∈ r.leaves, i.isUniform = true) : r.IsClause := by
  cases h with
  | leaf hl => exact .leaf hl.wellFormed (hu _ (by simp [leaves]))
  | alternatives hl hl' =>
    exact .alternatives hl.wellFormed (hu _ (by simp [leaves])) hl'.wellFormed
      (hu _ (by simp [leaves]))

theorem isClause_of_clauses {u : List Lexeme} {rs : List Rule} (h : Clauses u rs)
    (hu : ∀ i ∈ leavesOfAll rs, i.isUniform = true) : ∀ r ∈ rs, r.IsClause := by
  induction h with
  | one hc =>
    simp only [leavesOfAll, List.append_nil] at hu
    simpa using isClause_of_clause hc hu
  | more hc _ ih =>
    simp only [leavesOfAll, List.forall_mem_append] at hu
    exact List.forall_mem_cons.mpr ⟨isClause_of_clause hc hu.1, ih hu.2⟩

theorem isStep_of_step {u : List Lexeme} {r : Rule} (h : Step u r)
    (hu : ∀ i ∈ r.leaves, i.isUniform = true) : r.IsStep := by
  obtain ⟨h⟩ := h
  rw [leaves_ofClauses] at hu
  have hall := isClause_of_clauses h hu
  cases h with
  | @one _ r hc => exact .clause (hall r (by simp))
  | more hc hcs => cases hcs <;> exact .clauses (by simp) hall

theorem isStep_of_steps {u : List Lexeme} {rs : List Rule} (h : Steps u rs)
    (hu : ∀ i ∈ leavesOfAll rs, i.isUniform = true) : ∀ r ∈ rs, r.IsStep := by
  induction h with
  | one hs =>
    simp only [leavesOfAll, List.append_nil] at hu
    simpa using isStep_of_step hs hu
  | more n hs _ ih =>
    simp only [leavesOfAll, List.forall_mem_append] at hu
    exact List.forall_mem_cons.mpr ⟨isStep_of_step hs hu.1, ih hu.2⟩

/-- A tree that a sentence says is canonical, if none of its leaves mixes sizes. -/
theorem canonical_of_sentence {u : List Lexeme} {t : Rule} (h : Sentence u t)
    (hu : ∀ i ∈ t.leaves, i.isUniform = true) : t.Canonical := by
  cases h with
  | nothing m n => exact .doNothing
  | steps m n h =>
    rw [leaves_ofSteps] at hu
    have hall := isStep_of_steps h hu
    cases h with
    | @one _ r hs => exact .step (hall r (by simp))
    | more k hs hss => cases hss <;> exact .steps (by simp) hall

/-! ### Canonical rules are printed as sentences -/

end Rule

namespace Token

theorem isWord_words (t : Token) : ∀ w ∈ t.words, isWord w = true := by
  obtain ⟨c, s, z⟩ := t
  cases z <;> simp [words, isWord_color, isWord_shape, isWord_size]

theorem map_ofWord_words (t : Token) : t.words.map ofWord = t.lexemes := by
  obtain ⟨c, s, z⟩ := t
  cases z <;> simp [words, lexemes]

theorem words_ne_nil (t : Token) : t.words ≠ [] := by simp [words]

theorem prints_text (t : Token) : Prints t.text t.lexemes := by
  rw [← map_ofWord_words]
  exact prints_words t.words_ne_nil t.isWord_words

end Token

namespace Interaction

/-- A text that opens with a word and names a token. -/
theorem prints_opening (k : Keyword) (a : Token) :
    Prints (k.word ++ " " ++ a.text) (.keyword k :: a.lexemes) :=
  (prints_keyword k).blank a.prints_text

/-- A text that goes on with two fixed words and another token. -/
theorem prints_second {s : String} {u : List Lexeme} (hs : Prints s u) (k l : Keyword) (b : Token) :
    Prints (s ++ (" " ++ k.word ++ " " ++ l.word ++ " ") ++ b.text)
      (u ++ .keyword k :: .keyword l :: b.lexemes) := by
  have h := hs.word k (prints_opening l b)
  simpa only [String.append_assoc] using h

/-- An interaction that has as many tokens as its action is meant for prints its wording. -/
theorem exists_prints_text {i : Interaction} (hi : i.WellFormed) :
    ∃ u, Prints i.text u ∧ Leaf u i := by
  cases i with
  | single x a =>
    cases x with
    | touch => exact ⟨_, prints_opening .touch a, .touch a⟩
    | pickUp =>
      have h := ((prints_keyword .pick).blank (prints_keyword .up)).blank a.prints_text
      exact ⟨_, h, .pickUp a⟩
    | _ => cases hi
  | dual x a b =>
    cases x with
    | useToTouch =>
      exact ⟨_, prints_second (prints_opening .use a) .toWord .touch b, .useToTouch a b⟩
    | moveAwayFrom =>
      exact ⟨_, prints_second (prints_opening .move a) .away .fromWord b, .moveAwayFrom a b⟩
    | putLeftOf => exact ⟨_, prints_second (prints_opening .put a) .left .of b, .putLeftOf a b⟩
    | _ => cases hi
  | triple x a b c =>
    cases x with
    | putBetween =>
      exact ⟨_, ((prints_opening .put a).word .between b.prints_text).word .and c.prints_text,
        .putBetween a b c⟩
    | _ => cases hi

end Interaction

namespace Rule

theorem IsClause.exists_prints_text {r : Rule} (h : r.IsClause) :
    ∃ u, Prints r.text u ∧ Clause u r := by
  cases h with
  | leaf hi _ =>
    obtain ⟨u, hp, hl⟩ := Interaction.exists_prints_text hi
    exact ⟨u, hp, .leaf hl⟩
  | alternatives hi _ hj _ =>
    obtain ⟨u, hp, hl⟩ := Interaction.exists_prints_text hi
    obtain ⟨v, hp', hl'⟩ := Interaction.exists_prints_text hj
    exact ⟨u ++ .keyword .or :: v, hp.word .or hp', .alternatives hl hl'⟩

theorem ofClauses_eq {rs : List Rule} (h : 2 ≤ rs.length) : ofClauses rs = .inAnyOrder rs := by
  match rs, h with
  | _ :: _ :: _, _ => rfl

theorem ofSteps_eq {rs : List Rule} (h : 2 ≤ rs.length) : ofSteps rs = .inOrder rs := by
  match rs, h with
  | _ :: _ :: _, _ => rfl

/-- Clauses with commas between them print as clauses. -/
theorem exists_prints_clauses {rs : List Rule} (hne : rs ≠ []) (h : ∀ r ∈ rs, r.IsClause) :
    ∃ u, Prints (", ".intercalate (texts rs)) u ∧ Clauses u rs := by
  induction rs with
  | nil => exact absurd rfl hne
  | cons r rs ih =>
    obtain ⟨hr, hrs⟩ := List.forall_mem_cons.mp h
    obtain ⟨u, hp, hc⟩ := hr.exists_prints_text
    cases rs with
    | nil =>
      refine ⟨u, ?_, .one hc⟩
      rwa [texts, texts, String.intercalate_singleton]
    | cons s rs =>
      obtain ⟨v, hp', hcs⟩ := ih (by simp) hrs
      refine ⟨u ++ .comma :: v, ?_, .more hc hcs⟩
      rw [texts, String.intercalate_cons_of_ne_nil (by simp [texts])]
      simpa using hp.append separates_comma hp'

theorem IsStep.exists_prints_text {r : Rule} (h : r.IsStep) : ∃ u, Prints r.text u ∧ Step u r := by
  cases h with
  | clause h =>
    obtain ⟨u, hp, hc⟩ := h.exists_prints_text
    exact ⟨u, hp, .mk (.one hc)⟩
  | @clauses rs hlen h =>
    obtain ⟨u, hp, hcs⟩ := exists_prints_clauses (by rintro rfl; simp at hlen) h
    refine ⟨u, hp, ?_⟩
    rw [← ofClauses_eq hlen]
    exact .mk hcs

/-- Steps on lines of their own print as steps. -/
theorem exists_prints_steps {rs : List Rule} (hne : rs ≠ []) (h : ∀ r ∈ rs, r.IsStep) :
    ∃ u, Prints ("\n".intercalate (texts rs)) u ∧ Steps u rs := by
  induction rs with
  | nil => exact absurd rfl hne
  | cons r rs ih =>
    obtain ⟨hr, hrs⟩ := List.forall_mem_cons.mp h
    obtain ⟨u, hp, hs⟩ := hr.exists_prints_text
    cases rs with
    | nil =>
      refine ⟨u, ?_, .one hs⟩
      rwa [texts, texts, String.intercalate_singleton]
    | cons s rs =>
      obtain ⟨v, hp', hss⟩ := ih (by simp) hrs
      refine ⟨u ++ newlines 1 ++ v, ?_, .more 0 hs hss⟩
      rw [texts, String.intercalate_cons_of_ne_nil (by simp [texts])]
      exact hp.append separates_newline hp'

/-- The text of a canonical tree is a sentence that says the tree. -/
theorem Canonical.exists_prints_text {t : Rule} (h : t.Canonical) :
    ∃ u, Prints t.text u ∧ Sentence u t := by
  cases h with
  | doNothing => exact ⟨_, prints_keyword .nothing, .nothing 0 0⟩
  | step h =>
    obtain ⟨u, hp, hs⟩ := h.exists_prints_text
    exact ⟨u, hp, Says.sentence hs⟩
  | @steps rs hlen h =>
    obtain ⟨u, hp, hss⟩ := exists_prints_steps (by rintro rfl; simp at hlen) h
    refine ⟨u, hp, ?_⟩
    have hsentence := Sentence.steps 0 0 hss
    rw [ofSteps_eq hlen] at hsentence
    simpa [newlines] using hsentence

/-! ### Sizes -/

theorem IsClause.isUniform {r : Rule} (h : r.IsClause) : ∀ i ∈ r.leaves, i.isUniform = true := by
  cases h with
  | leaf _ hu => simpa [leaves] using hu
  | alternatives _ hu _ hu' => simp [leaves, hu, hu']

theorem IsStep.isUniform {r : Rule} (h : r.IsStep) : ∀ i ∈ r.leaves, i.isUniform = true := by
  cases h with
  | clause h => exact h.isUniform
  | clauses _ h =>
    simp only [leaves, leavesOfAll_eq_flatMap, List.mem_flatMap]
    rintro i ⟨r, hr, hi⟩
    exact (h r hr).isUniform i hi

theorem Canonical.isUniform {t : Rule} (h : t.Canonical) : ∀ i ∈ t.leaves, i.isUniform = true := by
  cases h with
  | doNothing => simp [leaves]
  | step h => exact h.isUniform
  | steps _ h =>
    simp only [leaves, leavesOfAll_eq_flatMap, List.mem_flatMap]
    rintro i ⟨r, hr, hi⟩
    exact (h r hr).isUniform i hi

/-! ### Reading back -/

/-- Every tree that is read is canonical. -/
theorem canonical_of_read {src : String} {t : Rule} (h : Rule.read src = .ok t) : t.Canonical := by
  obtain ⟨xs, -, hs, hu⟩ := (read_eq_ok_iff src t).mp h
  exact canonical_of_sentence hs hu

/-- The text of a canonical tree is read as the tree. -/
theorem Canonical.read_text {t : Rule} (h : t.Canonical) : Rule.read t.text = .ok t := by
  obtain ⟨u, hp, hs⟩ := h.exists_prints_text
  obtain ⟨xs, hxs, rfl⟩ := hp.read
  exact (read_eq_ok_iff _ t).mpr ⟨xs, hxs, hs, h.isUniform⟩

/-- **A tree reads back from its text just when it is canonical**, and every tree that any text says
is canonical and so reads back. -/
theorem read_text_iff_canonical :
    (∀ t : Rule, Rule.read t.text = .ok t ↔ t.Canonical) ∧
      ∀ src t, Rule.read src = .ok t → t.Canonical ∧ Rule.read t.text = .ok t :=
  ⟨fun _ => ⟨canonical_of_read, Canonical.read_text⟩,
    fun _ _ h => ⟨canonical_of_read h, (canonical_of_read h).read_text⟩⟩

/-- Two steps, the second of which has two clauses, read back from the text that says them. -/
theorem read_text_two_steps :
    Rule.read (Rule.inOrder [.leaf (.touch ⟨.red, .circle, none⟩),
        .inAnyOrder [.leaf (.pickUp ⟨.blue, .square, some .small⟩),
          .leaf (.touch ⟨.red, .circle, none⟩)]]).text =
      .ok (.inOrder [.leaf (.touch ⟨.red, .circle, none⟩),
        .inAnyOrder [.leaf (.pickUp ⟨.blue, .square, some .small⟩),
          .leaf (.touch ⟨.red, .circle, none⟩)]]) :=
  (read_text_iff_canonical.2 "\n touch red circle\n\npick up small blue square,touch red circle " _
    (by with_unfolding_all rfl)).2

end Rule

end BoardTrial
