import BoardTrial.Proofs.Drafts

/-!
# Reading is what the grammar says

A list of lexemes is read as a rule, or as a part of one, just when the grammar derives it and no
interaction mixes tokens with and without a size (`Scope.read_eq_iff`). So the grammar is
unambiguous, and what is read as a part is read the same as anything that the part belongs to.
-/

namespace BoardTrial

namespace Grammar

/-- `Says s u t`: as what `s` names, the lexemes `u` say the tree `t`. -/
def Says : Scope → List Lexeme → Rule → Prop
  | .part .interaction, u, t => ∃ i, t = .leaf i ∧ Leaf u i
  | .part .clause, u, t => Clause u t
  | .part .step, u, t => Step u t
  | .rule, u, t => Sentence u t

/-! ### Separators -/

theorem allows_step_iff (x : Lexeme) : (Scope.part .step).allows x = true ↔ x ≠ .newline := by
  cases x <;> simp [Scope.allows]

theorem allows_clause_iff (x : Lexeme) :
    (Scope.part .clause).allows x = true ↔ x ≠ .newline ∧ x ≠ .comma := by
  cases x <;> simp [Scope.allows]

theorem allows_interaction_iff (x : Lexeme) : (Scope.part .interaction).allows x = true ↔
    x ≠ .newline ∧ x ≠ .comma ∧ x ≠ .keyword .or := by
  cases x with
  | keyword k => cases k <;> simp [Scope.allows]
  | _ => simp [Scope.allows]

theorem allows_of_mem_lexemes {t : Token} {x : Lexeme} (hx : x ∈ t.lexemes) :
    (Scope.part .interaction).allows x = true := by
  rw [allows_interaction_iff]
  simp only [Token.lexemes, List.mem_append, Option.mem_toList, Option.map_eq_some_iff,
    List.mem_cons, List.not_mem_nil, or_false] at hx
  rcases hx with ⟨z, -, rfl⟩ | rfl | rfl <;> simp

/-- An interaction contains no separators. -/
theorem Leaf.allows {u : List Lexeme} {i : Interaction} (h : Leaf u i) :
    ∀ x ∈ u, (Scope.part .interaction).allows x = true := by
  have ht : ∀ t : Token, ∀ x ∈ t.lexemes, (Scope.part .interaction).allows x = true :=
    fun t x => allows_of_mem_lexemes
  cases h <;> simp only [List.forall_mem_cons, List.forall_mem_append, List.cons_append]
  case touch a => exact ⟨rfl, ht a⟩
  case pickUp a => exact ⟨rfl, rfl, ht a⟩
  case useToTouch a b => exact ⟨rfl, ht a, rfl, rfl, ht b⟩
  case moveAwayFrom a b => exact ⟨rfl, ht a, rfl, rfl, ht b⟩
  case putLeftOf a b => exact ⟨rfl, ht a, rfl, rfl, ht b⟩
  case putBetween a b c => exact ⟨rfl, ⟨ht a, rfl, ht b⟩, rfl, ht c⟩

/-- A clause contains no commas and newlines. -/
theorem Clause.allows {u : List Lexeme} {r : Rule} (h : Clause u r) :
    ∀ x ∈ u, (Scope.part .clause).allows x = true := by
  have hl : ∀ {v : List Lexeme} {i : Interaction}, Leaf v i →
      ∀ x ∈ v, (Scope.part .clause).allows x = true := by
    intro v i h x hx
    have ha := (allows_interaction_iff x).mp (h.allows x hx)
    exact (allows_clause_iff x).mpr ⟨ha.1, ha.2.1⟩
  cases h with
  | leaf h => exact hl h
  | alternatives h h' =>
    rw [List.forall_mem_append, List.forall_mem_cons]
    exact ⟨hl h, rfl, hl h'⟩

/-- Clauses contain no newlines. -/
theorem Clauses.allows {u : List Lexeme} {rs : List Rule} (h : Clauses u rs) :
    ∀ x ∈ u, (Scope.part .step).allows x = true := by
  have hc : ∀ {v : List Lexeme} {r : Rule}, Clause v r →
      ∀ x ∈ v, (Scope.part .step).allows x = true := by
    intro v r h x hx
    exact (allows_step_iff x).mpr ((allows_clause_iff x).mp (h.allows x hx)).1
  induction h with
  | one h => exact hc h
  | more h _ ih =>
    rw [List.forall_mem_append, List.forall_mem_cons]
    exact ⟨hc h, rfl, ih⟩

theorem Says.allows {s : Scope} {u : List Lexeme} {t : Rule} (h : Says s u t) :
    ∀ x ∈ u, s.allows x = true := by
  cases s with
  | rule => exact fun x _ => rfl
  | part p =>
    cases p with
    | interaction =>
      obtain ⟨i, -, h⟩ := h
      exact h.allows
    | clause => exact Clause.allows h
    | step =>
      obtain ⟨h⟩ := h
      exact h.allows

/-! ### Parts -/

/-- Without commas and newlines nothing follows a clause. -/
theorem ClauseTail.eq_nil {u : List Lexeme} {rs ss : List Rule} (h : ClauseTail u rs ss)
    (hu : ∀ x ∈ u, x ≠ .newline ∧ x ≠ .comma) : u = [] ∧ rs = [] ∧ ss = [] := by
  cases u with
  | nil => exact ⟨rfl, (clauseTail_nil_iff rs ss).mp h⟩
  | cons x u =>
    have hx := hu x List.mem_cons_self
    rcases h.head with h | h
    · exact absurd h hx.2
    · exact absurd h hx.1

/-- Without newlines no step follows, and what follows a clause goes on with it. -/
theorem ClauseTail.clauses {u : List Lexeme} {rs ss : List Rule} (h : ClauseTail u rs ss)
    (hu : ∀ x ∈ u, x ≠ .newline) :
    ss = [] ∧ ∀ {v r}, Clause v r → Clauses (v ++ u) (r :: rs) := by
  obtain ⟨v, w, rfl, hcs, hss⟩ := h.split
  have hnot : .newline ∉ w := fun hx => hu .newline (List.mem_append_right _ hx) rfl
  rcases hss with ⟨n, rfl, rfl⟩ | ⟨m, x, n, rfl, -⟩
  · cases n with
    | zero =>
      rw [newlines, List.replicate_zero, List.append_nil]
      exact ⟨rfl, hcs⟩
    | succ n => simp [newlines_succ] at hnot
  · simp [newlines_succ] at hnot

/-- What completes a part that has not begun is a clause and what may follow it. -/
theorem spells_start_part_iff (p : Part) (u : List Lexeme) (t : Rule) :
    (Draft.start (.part p)).Spells u t ↔ ClauseThen
      (fun r w => ∃ rs ss, ClauseTail w rs ss ∧ t = .ofSteps (.ofClauses (r :: rs) :: ss)) u := by
  rw [clauseThen_iff]
  rfl

/-- **What completes a draft that has not begun is what the grammar says.** -/
theorem spells_start_iff (s : Scope) (u : List Lexeme) (t : Rule) :
    (∀ x ∈ u, s.allows x = true) ∧ (Draft.start s).Spells u t ↔ Says s u t := by
  cases s with
  | rule =>
    have hall : ∀ x ∈ u, Scope.rule.allows x = true := fun x _ => rfl
    rw [Says, sentence_iff_begin]
    exact ⟨fun h => h.2, fun h => ⟨hall, h⟩⟩
  | part p =>
    rw [spells_start_part_iff]
    constructor
    · rintro ⟨hall, v, r, w, rfl, hc, rs, ss, ht, rfl⟩
      cases p with
      | interaction =>
        simp only [allows_interaction_iff, List.forall_mem_append] at hall
        obtain ⟨rfl, rfl, rfl⟩ := ht.eq_nil fun x hx => ⟨(hall.2 x hx).1, (hall.2 x hx).2.1⟩
        cases hc with
        | leaf hl => exact ⟨_, rfl, by rwa [List.append_nil]⟩
        | alternatives _ _ => exact absurd rfl (hall.1 (.keyword .or) (by simp)).2.2
      | clause =>
        simp only [allows_clause_iff, List.forall_mem_append] at hall
        obtain ⟨rfl, rfl, rfl⟩ := ht.eq_nil hall.2
        rw [List.append_nil]
        exact hc
      | step =>
        simp only [allows_step_iff, List.forall_mem_append] at hall
        obtain ⟨rfl, hcs⟩ := ht.clauses hall.2
        exact Step.mk (hcs hc)
    · intro h
      refine ⟨Says.allows h, ?_⟩
      cases p with
      | interaction =>
        obtain ⟨i, rfl, h⟩ := h
        exact ⟨u, _, [], (List.append_nil u).symm, .leaf h, [], [], .stop, rfl⟩
      | clause => exact ⟨u, _, [], (List.append_nil u).symm, h, [], [], .stop, rfl⟩
      | step =>
        obtain ⟨h⟩ := h
        obtain ⟨v₁, v₂, r, rs, rfl, rfl, hc, ht⟩ := h.tail .stop
        rw [List.append_nil] at ht
        exact ⟨v₁, r, v₂, rfl, hc, rs, [], ht, rfl⟩

/-! ### Smaller and larger parts -/

/-- How much of a rule is named: a part belongs to all that are larger. -/
def scopeRank : Scope → Nat
  | .part .interaction => 0
  | .part .clause => 1
  | .part .step => 2
  | .rule => 3

theorem Says.clause {u : List Lexeme} {t : Rule} (h : Says (.part .interaction) u t) :
    Says (.part .clause) u t := by
  obtain ⟨i, rfl, h⟩ := h
  exact Clause.leaf h

theorem Says.step {u : List Lexeme} {t : Rule} (h : Says (.part .clause) u t) :
    Says (.part .step) u t :=
  Step.mk (.one h)

theorem Says.sentence {u : List Lexeme} {t : Rule} (h : Says (.part .step) u t) :
    Says .rule u t := by
  have hs : Sentence (newlines 0 ++ u ++ newlines 0) t := Sentence.steps 0 0 (.one h)
  simpa [newlines, Says] using hs

/-- What is said as a part is said as anything the part belongs to. -/
theorem Says.mono {s s' : Scope} (hs : scopeRank s ≤ scopeRank s') {u : List Lexeme} {t : Rule}
    (h : Says s u t) : Says s' u t := by
  cases s with
  | rule =>
    cases s' with
    | rule => exact h
    | part q => cases q <;> simp [scopeRank] at hs
  | part p =>
    cases p with
    | interaction =>
      cases s' with
      | rule => exact h.clause.step.sentence
      | part q =>
        cases q with
        | interaction => exact h
        | clause => exact h.clause
        | step => exact h.clause.step
    | clause =>
      cases s' with
      | rule => exact h.step.sentence
      | part q =>
        cases q with
        | interaction => simp [scopeRank] at hs
        | clause => exact h
        | step => exact h.step
    | step =>
      cases s' with
      | rule => exact h.sentence
      | part q =>
        cases q with
        | interaction => simp [scopeRank] at hs
        | clause => simp [scopeRank] at hs
        | step => exact h

end Grammar

open Grammar

theorem Draft.mixed_eq_nil_iff (d : Draft) :
    d.mixed = [] ↔ ∀ i ∈ d.leaves.map (·.value), i.isUniform = true := by
  simp [mixed]

/-- **A list is read as a part of a rule just when the grammar says so** and no interaction mixes
tokens with and without a size. -/
theorem Scope.read_eq_iff (s : Scope) (stop : Nat) (xs : List (Located Lexeme)) (t : Rule) :
    s.read stop xs = ([], some t) ↔
      Says s (xs.map (·.value)) t ∧ ∀ i ∈ t.leaves, i.isUniform = true := by
  have hspell := Draft.spells_iff_run s (Draft.tidy_start s) xs t
  have htidy := Draft.run_induct Draft.Advanced.tidy s (Draft.tidy_start s) xs
  have hnotes := Draft.run_induct Draft.Advanced.notes s (Draft.notes_start s) xs
  have hall : (∀ x ∈ xs, s.allows x.value = true) ↔
      ∀ x ∈ xs.map (·.value), s.allows x = true := by
    rw [List.forall_mem_map]
  rw [hall, spells_start_iff] at hspell
  rw [hspell, read]
  cases hrun : Draft.run s (.start s) xs with
  | mk d rest =>
    rw [hrun] at htidy hnotes
    cases rest with
    | cons y ys => simp
    | nil =>
      cases hd : d.rule? with
      | none => simp [hd]
      | some r =>
        have hl := Draft.leaves_of_rule? htidy hnotes hd
        simp only [Prod.mk.injEq, d.mixed_eq_nil_iff, ← hl, Option.some.injEq, and_true,
          exists_eq_left', hd]
        constructor
        · rintro ⟨hu, rfl⟩
          exact ⟨rfl, hu⟩
        · rintro ⟨rfl, hu⟩
          exact ⟨hu, rfl⟩

/-- **The grammar is unambiguous.** -/
theorem Grammar.Says.unique {s : Scope} {u : List Lexeme} {t t' : Rule} (h : Says s u t)
    (h' : Says s u t') : t = t' := by
  have hrun : ∀ {r}, Says s u r → ∃ e, Draft.run s (.start s) (u.map (⟨·, .point 0⟩)) = (e, []) ∧
      e.rule? = some r := by
    intro r hr
    rw [← Draft.spells_iff_run s (Draft.tidy_start s), List.forall_mem_map]
    simpa [Function.comp_def] using (spells_start_iff s u r).mpr hr
  obtain ⟨e, he, ht⟩ := hrun h
  obtain ⟨e', he', ht'⟩ := hrun h'
  rw [he] at he'
  cases he'
  exact Option.some.inj (ht.symm.trans ht')

theorem Rule.ofLexemes_eq_ok_iff (stop : Nat) (xs : List (Located Lexeme)) (t : Rule) :
    ofLexemes stop xs = .ok t ↔ Scope.rule.read stop xs = ([], some t) := by
  unfold ofLexemes
  split
  · rename_i r hr
    simp [hr]
  · rename_i ds o hne hr
    simp only [reduceCtorEq, false_iff, hr, Prod.mk.injEq]
    rintro ⟨rfl, rfl⟩
    exact hne t rfl rfl

/-- A text is read as a rule just when its lexemes are a sentence. -/
theorem Rule.read_eq_ok_iff (src : String) (t : Rule) :
    Rule.read src = .ok t ↔ ∃ xs, Lexeme.read src = .ok xs ∧ Sentence (xs.map (·.value)) t ∧
      ∀ i ∈ t.leaves, i.isUniform = true := by
  rw [Rule.read]
  cases Lexeme.read src with
  | error c => simp
  | ok xs =>
    simp only [ofLexemes_eq_ok_iff, Scope.read_eq_iff, Except.ok.injEq, exists_eq_left']
    exact Iff.rfl

/-- **Reading accepts what the grammar derives, and returns the one tree it derives.** A text is
read as a rule just when it has lexemes, they are a sentence, and no interaction mixes tokens with
and without a size. The same holds of lists of lexemes read as a token, an interaction, a clause or
a step. No list says two trees, and what is read as a part is read as the same tree as anything that
the part belongs to. -/
theorem Grammar.read_iff_says :
    (∀ src t, Rule.read src = .ok t ↔ ∃ xs, Lexeme.read src = .ok xs ∧
        Sentence (xs.map (·.value)) t ∧ ∀ i ∈ t.leaves, i.isUniform = true) ∧
      (∀ stop xs t, Phrase.ofToken.read stop xs = .ok t ↔ xs.map (·.value) = t.lexemes) ∧
      (∀ s stop xs t, Scope.read s stop xs = ([], some t) ↔
        Says s (xs.map (·.value)) t ∧ ∀ i ∈ t.leaves, i.isUniform = true) ∧
      (∀ s u t t', Says s u t → Says s u t' → t = t') ∧
      ∀ s s' stop xs t, scopeRank s ≤ scopeRank s' → Scope.read s stop xs = ([], some t) →
        Scope.read s' stop xs = ([], some t) := by
  refine ⟨Rule.read_eq_ok_iff, ?_, Scope.read_eq_iff, fun s u t t' => Says.unique, ?_⟩
  · intro stop xs t
    rw [Phrase.read_eq_ok_iff, Phrase.spells_ofToken_iff]
  · intro s s' stop xs t hs h
    rw [Scope.read_eq_iff] at h ⊢
    exact ⟨h.1.mono hs, h.2⟩

/-- An interaction is read as a rule. -/
theorem Grammar.read_touch_as_rule :
    Scope.rule.read 16
        [⟨.keyword .touch, ⟨0, 5⟩⟩, ⟨.color .red, ⟨6, 9⟩⟩, ⟨.shape .circle, ⟨10, 16⟩⟩] =
      ([], some (.leaf (.touch ⟨.red, .circle, none⟩))) :=
  read_iff_says.2.2.2.2 (.part .interaction) .rule 16 _ _ (by decide) (by decide +kernel)

end BoardTrial
