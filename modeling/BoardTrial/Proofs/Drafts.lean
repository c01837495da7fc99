import BoardTrial.Proofs.Remainders

/-!
# What drafts spell

The lexemes that complete a draft to a rule, said by the grammar (`Draft.Spells`). Reading one
lexeme leads to a draft that the others complete (`Draft.spells_cons_iff`), so reading a list to its
end comes to a rule just when the list spells it. The leaves that a draft notes are those of its
rule.
-/

namespace BoardTrial

open Grammar

variable {d e : Draft} {x : Located Lexeme} {u : List Lexeme} {t : Rule}

namespace Draft

/-- After the clause `r`, the lexemes `u` complete the draft to the rule `t`. -/
def AfterClause (d : Draft) (r : Rule) (u : List Lexeme) (t : Rule) : Prop :=
  ∃ rs ss, ClauseTail u rs ss ∧ t = .ofSteps (d.steps ++ .ofClauses (d.clauses ++ r :: rs) :: ss)

/-- After the interaction `i`, with the alternative before it, the lexemes `u` complete the draft to
the rule `t`. -/
def AfterLeaf (d : Draft) (first : Option Interaction) (i : Interaction) (u : List Lexeme)
    (t : Rule) : Prop :=
  match first with
  | none => d.AfterClause (.leaf i) u t ∨ ∃ z, u = .keyword .or :: z ∧
      LeafThen (fun j w => d.AfterClause (.firstOrSecond (.leaf i) (.leaf j)) w t) z
  | some j => d.AfterClause (.firstOrSecond (.leaf j) (.leaf i)) u t

/-- `d.Spells u t`: the lexemes `u` complete the draft to the rule `t`. -/
def Spells (d : Draft) (u : List Lexeme) (t : Rule) : Prop :=
  match d.place with
  | .opening | .blank => Begin u t
  | .afterNothing => ∃ n, u = newlines n ∧ t = .doNothing
  | .lineStart => ∃ ss, LineTail u ss ∧ t = .ofSteps (d.steps ++ ss)
  | .leafStart _ first => LeafThen (fun i w => d.AfterLeaf first i w t) u
  | .inLeaf first _ phrase => ∃ v i w, u = v ++ w ∧ phrase.Spells v i ∧ d.AfterLeaf first i w t
  | .afterLeaf i => d.AfterLeaf none i u t
  | .afterAlternative i j => d.AfterLeaf (some i) j u t

/-- What reading keeps of a draft: where a rule or a line begins nothing is pending, and an
interaction that is being read is not complete. -/
def Tidy (d : Draft) : Prop :=
  match d.place with
  | .opening | .blank | .afterNothing => d.steps = [] ∧ d.clauses = []
  | .lineStart => d.clauses = []
  | .inLeaf _ _ phrase => phrase.value? = none
  | .leafStart _ _ | .afterLeaf _ | .afterAlternative _ _ => True

theorem spells_after (d : Draft) (ls : List (Located Interaction)) (first : Option Interaction)
    (i : Interaction) (u : List Lexeme) (t : Rule) :
    Spells { d with leaves := ls, place := .after first i } u t ↔ d.AfterLeaf first i u t := by
  cases first <;> rfl

/-! ### One lexeme -/

/-- Beginning an interaction. -/
theorem beginLeaf_spells_iff (d : Draft) (first : Option Interaction) (x : Located Lexeme)
    (u : List Lexeme) (t : Rule) :
    LeafThen (fun i w => d.AfterLeaf first i w t) (x.value :: u) ↔
      ∃ e, d.beginLeaf first x = some e ∧ e.Spells u t := by
  constructor
  · rintro ⟨v, i, w, heq, hl, ha⟩
    obtain ⟨k, p, v', rfl, hp, hs⟩ := (leaf_iff_spells v i).mp hl
    obtain ⟨hx, rfl⟩ := List.cons.inj heq
    refine ⟨{ d with place := .inLeaf first x.span.start p }, ?_, v', i, w, rfl, hs, ha⟩
    simp [beginLeaf, hx, hp]
  · rintro ⟨e, he, hs⟩
    unfold beginLeaf at he
    split at he
    · rename_i k hx
      obtain ⟨p, hp, rfl⟩ := Option.map_eq_some_iff.mp he
      obtain ⟨v, i, w, rfl, hs, ha⟩ := hs
      exact ⟨.keyword k :: v, i, w, by rw [hx]; rfl,
        (leaf_iff_spells _ i).mpr ⟨k, p, v, rfl, hp, hs⟩, ha⟩
    · cases he

/-- Beginning a clause with its first interaction. -/
theorem beginClause_spells_iff (d : Draft) (x : Located Lexeme) (u : List Lexeme) (t : Rule) :
    ClauseThen (fun r w => d.AfterClause r w t) (x.value :: u) ↔
      ∃ e, d.beginLeaf none x = some e ∧ e.Spells u t := by
  rw [clauseThen_iff]
  exact beginLeaf_spells_iff d none x u t

/-- Going on with an interaction. -/
theorem continueLeaf_spells_iff (d : Draft) (first : Option Interaction) (start : Nat)
    {p : Phrase Interaction} (hp : p.value? = none) (x : Located Lexeme) (u : List Lexeme)
    (t : Rule) :
    (∃ v i w, x.value :: u = v ++ w ∧ p.Spells v i ∧ d.AfterLeaf first i w t) ↔
      ∃ e, d.continueLeaf first start p x = some e ∧ e.Spells u t := by
  rw [Phrase.spells_append_cons_iff hp, continueLeaf]
  cases p.advance x.value with
  | none => simp
  | some q =>
    simp only [Option.some.injEq, exists_eq_left', Option.map_some]
    cases q with
    | done i =>
      simp only [Phrase.value?]
      rw [spells_after]
      constructor
      · rintro ⟨_, _, w, rfl, ⟨rfl, rfl⟩, ha⟩
        exact ha
      · intro ha
        exact ⟨[], i, u, rfl, ⟨rfl, rfl⟩, ha⟩
    | _ => exact Iff.rfl

/-- After a comma comes another clause. -/
theorem afterClause_comma_iff (d : Draft) (r : Rule) (u : List Lexeme) (t : Rule) :
    d.AfterClause r (.comma :: u) t ↔
      ClauseThen (fun s w => AfterClause { d with clauses := d.clauses ++ [r] } s w t) u := by
  simp only [AfterClause, clauseTail_comma_iff, ClauseThen, List.append_assoc,
    List.singleton_append]
  constructor
  · rintro ⟨_, ss, ⟨v, s, w, rfl, hc, rs, rfl, ht⟩, rfl⟩
    exact ⟨v, s, w, rfl, hc, rs, ss, ht, rfl⟩
  · rintro ⟨v, s, w, rfl, hc, rs, ss, ht, rfl⟩
    exact ⟨_, ss, ⟨v, s, w, rfl, hc, rs, rfl, ht⟩, rfl⟩

/-- Leaving a clause. -/
theorem leaveClause_spells_iff (d : Draft) (r : Rule) (y : Lexeme) (u : List Lexeme) (t : Rule) :
    d.AfterClause r (y :: u) t ↔ ∃ e, d.leaveClause r y = some e ∧ e.Spells u t := by
  cases y with
  | comma =>
    rw [afterClause_comma_iff, clauseThen_iff]
    simp only [leaveClause, Option.some.injEq, exists_eq_left']
    exact Iff.rfl
  | newline =>
    simp only [AfterClause, clauseTail_newline_iff, leaveClause, Option.some.injEq,
      exists_eq_left', Spells, List.append_assoc, List.singleton_append]
    constructor
    · rintro ⟨_, ss, ⟨rfl, ht⟩, rfl⟩
      exact ⟨ss, ht, rfl⟩
    · rintro ⟨ss, ht, rfl⟩
      exact ⟨[], ss, ⟨rfl, ht⟩, rfl⟩
  | _ =>
    simp only [leaveClause, reduceCtorEq, false_and, exists_false, iff_false]
    rintro ⟨rs, ss, ht, -⟩
    rcases ht.head with h | h <;> cases h

theorem afterClause_nil_iff (d : Draft) (r : Rule) (t : Rule) :
    d.AfterClause r [] t ↔ t = .ofSteps (d.steps ++ [.ofClauses (d.clauses ++ [r])]) := by
  simp only [AfterClause, clauseTail_nil_iff]
  constructor
  · rintro ⟨_, _, ⟨rfl, rfl⟩, rfl⟩
    rfl
  · rintro rfl
    exact ⟨[], [], ⟨rfl, rfl⟩, rfl⟩

/-- Nothing completes a draft only if its text may end. -/
theorem spells_nil_iff (hd : d.Tidy) (t : Rule) : d.Spells [] t ↔ d.rule? = some t := by
  obtain ⟨S, C, L, place⟩ := d
  cases place with
  | opening => simp [Spells, rule?, not_begin_nil]
  | blank => simp [Spells, rule?, not_begin_nil]
  | afterNothing =>
    constructor
    · rintro ⟨n, -, rfl⟩
      rfl
    · intro h
      exact ⟨0, rfl, (Option.some.inj h).symm⟩
  | lineStart =>
    simp only [Spells, rule?, lineTail_nil_iff, exists_eq_left, List.append_nil]
    rw [Option.some.injEq, eq_comm]
  | leafStart part first =>
    simp only [Spells, rule?, reduceCtorEq, iff_false]
    rintro ⟨v, i, w, heq, hl, -⟩
    obtain ⟨k, -, v', rfl⟩ := hl.head
    cases heq
  | inLeaf first start phrase =>
    simp only [Spells, rule?, reduceCtorEq, iff_false]
    rintro ⟨v, i, w, heq, hs, -⟩
    obtain ⟨rfl, rfl⟩ := List.nil_eq_append_iff.mp heq
    rw [Phrase.spells_nil_iff, show phrase.value? = none from hd] at hs
    cases hs
  | afterLeaf i =>
    simp only [Spells, AfterLeaf, afterClause_nil_iff, rule?, reduceCtorEq, false_and,
      exists_false, or_false]
    rw [Option.some.injEq, eq_comm]
  | afterAlternative i j =>
    simp only [Spells, AfterLeaf, afterClause_nil_iff, rule?]
    rw [Option.some.injEq, eq_comm]

/-- Beginning a rule, when nothing is pending. -/
theorem begin_spells_iff (hS : d.steps = []) (hC : d.clauses = []) (x : Located Lexeme)
    (u : List Lexeme) (t : Rule) :
    Begin (x.value :: u) t ↔ ∃ e, (match x.value with
      | .newline => some { d with place := .blank }
      | .keyword .nothing => some { d with place := .afterNothing }
      | _ => d.beginLeaf none x) = some e ∧ e.Spells u t := by
  split
  · rename_i hx
    rw [hx, begin_newline_iff]
    simp [Spells]
  · rename_i hx
    rw [hx, begin_nothing_iff]
    simp [Spells]
  · rename_i hx hx'
    rw [begin_iff_of_ne hx hx', ← beginClause_spells_iff]
    simp only [ClauseThen, AfterClause, hS, hC, List.nil_append]

/-- Beginning a line, when no clause is pending. -/
theorem lineStart_spells_iff (hC : d.clauses = []) {x : Located Lexeme} (hx : x.value ≠ .newline)
    (u : List Lexeme) (t : Rule) :
    (∃ ss, LineTail (x.value :: u) ss ∧ t = .ofSteps (d.steps ++ ss)) ↔
      ∃ e, d.beginLeaf none x = some e ∧ e.Spells u t := by
  simp only [← beginClause_spells_iff, lineTail_iff_of_ne hx, ClauseThen, AfterClause, hC,
    List.nil_append]
  constructor
  · rintro ⟨_, ⟨v, r, w, heq, hc, rs, ss, ht, rfl⟩, rfl⟩
    exact ⟨v, r, w, heq, hc, rs, ss, ht, rfl⟩
  · rintro ⟨v, r, w, heq, hc, rs, ss, ht, rfl⟩
    exact ⟨_, ⟨v, r, w, heq, hc, rs, ss, ht, rfl⟩, rfl⟩

/-- After `or` another interaction has to come. -/
theorem afterLeaf_or_iff (d : Draft) (i : Interaction) (u : List Lexeme) (t : Rule) :
    d.AfterLeaf none i (.keyword .or :: u) t ↔
      LeafThen (fun j w => d.AfterLeaf (some i) j w t) u := by
  constructor
  · rintro (⟨rs, ss, ht, -⟩ | ⟨z, heq, h⟩)
    · rcases ht.head with h | h <;> cases h
    · cases heq
      exact h
  · intro h
    exact .inr ⟨u, rfl, h⟩

/-- Without `or` the interaction is all of its clause. -/
theorem afterLeaf_iff_of_ne (d : Draft) (i : Interaction) {y : Lexeme} (hy : y ≠ .keyword .or)
    (u : List Lexeme) (t : Rule) :
    d.AfterLeaf none i (y :: u) t ↔ d.AfterClause (.leaf i) (y :: u) t := by
  constructor
  · rintro (h | ⟨z, heq, -⟩)
    · exact h
    · exact absurd (List.cons.inj heq).1 hy
  · exact .inl

/-- **What the next lexeme decides**: it leads to a draft that the others complete. -/
theorem spells_cons_iff (hd : d.Tidy) (x : Located Lexeme) (u : List Lexeme) (t : Rule) :
    d.Spells (x.value :: u) t ↔ ∃ e, d.advance x = some e ∧ e.Spells u t := by
  obtain ⟨S, C, L, place⟩ := d
  cases place with
  | opening => exact begin_spells_iff hd.1 hd.2 x u t
  | blank => exact begin_spells_iff hd.1 hd.2 x u t
  | afterNothing =>
    simp only [Spells, exists_and_right, cons_eq_newlines_iff, advance]
    split
    · rename_i hx
      simp [hx]
    · rename_i hx
      simp [hx]
  | lineStart =>
    simp only [advance]
    split
    · rename_i hx
      simp [Spells, hx, lineTail_newline_iff]
    · rename_i hx
      exact lineStart_spells_iff hd hx u t
  | leafStart part first => exact beginLeaf_spells_iff _ first x u t
  | inLeaf first start phrase => exact continueLeaf_spells_iff _ first start hd x u t
  | afterLeaf i =>
    simp only [advance]
    show AfterLeaf _ none i _ t ↔ _
    split
    · rename_i hx
      simp only [hx, Option.some.injEq, exists_eq_left', afterLeaf_or_iff]
      exact Iff.rfl
    · rename_i hx
      rw [afterLeaf_iff_of_ne _ i hx, leaveClause_spells_iff]
  | afterAlternative i j => exact leaveClause_spells_iff _ _ _ u t

/-! ### What one lexeme can do -/

end Draft

namespace Place

/-- An interaction may begin, with the alternative before it. -/
def Begins : Place → Option Interaction → Prop
  | opening, first | blank, first | lineStart, first => first = none
  | leafStart _ first', first => first' = first
  | _, _ => False

/-- The clause that is complete. -/
def clause? : Place → Option Rule
  | afterLeaf i => some (.leaf i)
  | afterAlternative i j => some (.firstOrSecond (.leaf i) (.leaf j))
  | _ => none

/-- The interactions of the clause being read that are complete. -/
def pending : Place → List Interaction
  | leafStart _ first | inLeaf first _ _ => first.toList
  | afterLeaf i => [i]
  | afterAlternative i j => [i, j]
  | opening | blank | afterNothing | lineStart => []

theorem leaves_of_clause? {p : Place} {r : Rule} (h : p.clause? = some r) :
    r.leaves = p.pending := by
  cases p <;> cases h <;> rfl

end Place

namespace Draft

/-- `Advanced x d e`: reading the lexeme `x` can turn `d` into `e`. -/
inductive Advanced (x : Located Lexeme) (d : Draft) : Draft → Prop where
  /-- A line before the rule is blank. -/
  | blank : d.place = .opening ∨ d.place = .blank → Advanced x d { d with place := .blank }
  /-- The word `nothing` is the rule. -/
  | nothing : d.place = .opening ∨ d.place = .blank →
      Advanced x d { d with place := .afterNothing }
  /-- A line after it, or between steps, is blank. -/
  | stay : d.place = .afterNothing ∨ d.place = .lineStart → Advanced x d d
  /-- An interaction begins. -/
  | opens {first : Option Interaction} {p : Phrase Interaction} : d.place.Begins first →
      p.value? = none → Advanced x d { d with place := .inLeaf first x.span.start p }
  /-- An interaction goes on. -/
  | goesOn {first : Option Interaction} {start : Nat} {p q : Phrase Interaction} :
      d.place = .inLeaf first start p → q.value? = none →
      Advanced x d { d with place := .inLeaf first start q }
  /-- An interaction is complete. -/
  | completes {first : Option Interaction} {start : Nat} {p : Phrase Interaction}
      (i : Interaction) : d.place = .inLeaf first start p →
      Advanced x d { d with
        leaves := d.leaves ++ [⟨i, ⟨start, x.span.stop⟩⟩], place := .after first i }
  /-- Another alternative follows. -/
  | or {i : Interaction} : d.place = .afterLeaf i →
      Advanced x d { d with place := .leafStart .interaction (some i) }
  /-- Another clause follows. -/
  | comma {r : Rule} : d.place.clause? = some r →
      Advanced x d { d with clauses := d.clauses ++ [r], place := .leafStart .clause none }
  /-- The step ends. -/
  | newline {r : Rule} : d.place.clause? = some r → Advanced x d { d with
      steps := d.steps ++ [.ofClauses (d.clauses ++ [r])], clauses := [], place := .lineStart }

theorem advanced_of_beginLeaf {first : Option Interaction} (hf : d.place.Begins first)
    (he : d.beginLeaf first x = some e) : Advanced x d e := by
  unfold beginLeaf at he
  split at he
  · obtain ⟨p, hp, rfl⟩ := Option.map_eq_some_iff.mp he
    exact .opens hf (Phrase.value?_of_ofOpening? hp)
  · cases he

theorem advanced_of_continueLeaf {first : Option Interaction} {start : Nat}
    {p : Phrase Interaction} (hp : d.place = .inLeaf first start p)
    (he : d.continueLeaf first start p x = some e) : Advanced x d e := by
  obtain ⟨q, -, rfl⟩ := Option.map_eq_some_iff.mp he
  split
  · exact .completes _ hp
  · rename_i hq
    exact .goesOn hp hq

theorem advanced_of_leaveClause {r : Rule} {y : Lexeme} (hr : d.place.clause? = some r)
    (he : d.leaveClause r y = some e) : Advanced x d e := by
  cases y with
  | comma =>
    cases he
    exact .comma hr
  | newline =>
    cases he
    exact .newline hr
  | _ => cases he

/-- Where a rule begins, a line is blank, or the rule is `nothing`, or an interaction begins. -/
theorem advanced_of_begin (hp : d.place = .opening ∨ d.place = .blank)
    (he : (match x.value with
      | .newline => some { d with place := .blank }
      | .keyword .nothing => some { d with place := .afterNothing }
      | _ => d.beginLeaf none x) = some e) : Advanced x d e := by
  split at he
  · cases he
    exact .blank hp
  · cases he
    exact .nothing hp
  · refine advanced_of_beginLeaf ?_ he
    rcases hp with hp | hp <;> rw [hp] <;> rfl

/-- **Reading does what reading can do.** -/
theorem advanced (he : d.advance x = some e) : Advanced x d e := by
  unfold advance at he
  split at he
  · exact advanced_of_begin (.inl ‹_›) he
  · exact advanced_of_begin (.inr ‹_›) he
  · split at he <;> cases he
    exact .stay (.inl ‹_›)
  · split at he
    · cases he
      exact .stay (.inr ‹_›)
    · exact advanced_of_beginLeaf (by rw [‹d.place = .lineStart›]; rfl) he
  · exact advanced_of_beginLeaf (by rw [‹d.place = .leafStart _ _›]; rfl) he
  · exact advanced_of_continueLeaf ‹_› he
  · split at he
    · cases he
      exact .or ‹_›
    · exact advanced_of_leaveClause (by rw [‹d.place = .afterLeaf _›]; rfl) he
  · exact advanced_of_leaveClause (by rw [‹d.place = .afterAlternative _ _›]; rfl) he

/-! ### What reading keeps -/

theorem tidy_start (s : Scope) : (start s).Tidy := by
  cases s with
  | part p => trivial
  | rule => exact ⟨rfl, rfl⟩

theorem Advanced.tidy (h : Advanced x d e) (hd : d.Tidy) : e.Tidy := by
  cases h with
  | blank hp => rcases hp with hp | hp <;> simpa [Tidy, hp] using hd
  | nothing hp => rcases hp with hp | hp <;> simpa [Tidy, hp] using hd
  | stay _ => exact hd
  | opens _ hv => exact hv
  | goesOn _ hv => exact hv
  | @completes first _ _ i _ => cases first <;> trivial
  | or _ => trivial
  | comma _ => trivial
  | newline _ => rfl

/-- The leaves noted are those of the complete steps and clauses and of the clause being read. -/
def Notes (d : Draft) : Prop :=
  d.leaves.map (·.value) =
    Rule.leavesOfAll d.steps ++ Rule.leavesOfAll d.clauses ++ d.place.pending

theorem notes_start (s : Scope) : (start s).Notes := by
  cases s <;> rfl

end Draft

theorem Rule.leaves_ofClauses (rs : List Rule) : (Rule.ofClauses rs).leaves = leavesOfAll rs := by
  unfold Rule.ofClauses
  split
  · simp [leavesOfAll]
  · rfl

theorem Rule.leaves_ofSteps (rs : List Rule) : (Rule.ofSteps rs).leaves = leavesOfAll rs := by
  unfold Rule.ofSteps
  split
  · simp [leavesOfAll]
  · rfl

namespace Draft

theorem Advanced.notes (h : Advanced x d e) (hd : d.Notes) : e.Notes := by
  unfold Notes at hd ⊢
  cases h with
  | blank hp => rcases hp with hp | hp <;> simpa [hp, Place.pending] using hd
  | nothing hp => rcases hp with hp | hp <;> simpa [hp, Place.pending] using hd
  | stay _ => exact hd
  | @opens first _ hp _ =>
    have hpend : d.place.pending = first.toList := by
      cases hplace : d.place <;> rw [hplace] at hp <;> cases hp <;> rfl
    rwa [hpend] at hd
  | goesOn hp _ =>
    rw [hp] at hd
    exact hd
  | @completes first _ _ i hp =>
    rw [hp] at hd
    cases first <;> simp_all [Place.pending, Place.after]
  | or hp =>
    rw [hp] at hd
    exact hd
  | comma hr =>
    rw [hd, Rule.leavesOfAll_append]
    simp [Rule.leavesOfAll, Place.leaves_of_clause? hr, Place.pending]
  | newline hr =>
    rw [hd, Rule.leavesOfAll_append]
    simp [Rule.leavesOfAll, Rule.leaves_ofClauses, Rule.leavesOfAll_append,
      Place.leaves_of_clause? hr, Place.pending]

/-- The leaves of a rule that has been read are the leaves noted. -/
theorem leaves_of_rule? (hd : d.Tidy) (hn : d.Notes) (ht : d.rule? = some t) :
    t.leaves = d.leaves.map (·.value) := by
  unfold Notes at hn
  obtain ⟨S, C, L, place⟩ := d
  cases place with
  | afterNothing =>
    obtain ⟨rfl, rfl⟩ : S = [] ∧ C = [] := hd
    cases ht
    exact hn.symm
  | lineStart =>
    obtain rfl : C = [] := hd
    cases ht
    rw [hn, Rule.leaves_ofSteps]
    simp [Rule.leavesOfAll, Place.pending]
  | afterLeaf i =>
    cases ht
    rw [hn, Rule.leaves_ofSteps]
    simp [Rule.leavesOfAll, Rule.leavesOfAll_append, Rule.leaves_ofClauses, Rule.leaves,
      Place.pending]
  | afterAlternative i j =>
    cases ht
    rw [hn, Rule.leaves_ofSteps]
    simp [Rule.leavesOfAll, Rule.leavesOfAll_append, Rule.leaves_ofClauses, Rule.leaves,
      Place.pending]
  | _ => cases ht

/-! ### Reading to the end -/

/-- Reading keeps what each lexeme keeps. -/
theorem run_induct {P : Draft → Prop} (hP : ∀ {x d e}, Advanced x d e → P d → P e) (s : Scope)
    (hd : P d) (xs : List (Located Lexeme)) : P (run s d xs).1 := by
  induction xs generalizing d with
  | nil => exact hd
  | cons x xs ih =>
    unfold run
    split
    · rename_i e he
      split at he
      · exact ih (hP (advanced he) hd)
      · cases he
    · exact hd

/-- **Reading a list to its end comes to a rule just when the list spells it** and the part being
read can contain its lexemes. -/
theorem spells_iff_run (s : Scope) (hd : d.Tidy) (xs : List (Located Lexeme)) (t : Rule) :
    (∀ x ∈ xs, s.allows x.value = true) ∧ d.Spells (xs.map (·.value)) t ↔
      ∃ e, run s d xs = (e, []) ∧ e.rule? = some t := by
  induction xs generalizing d with
  | nil => simp [run, spells_nil_iff hd]
  | cons x xs ih =>
    rw [List.map_cons, spells_cons_iff hd, run, List.forall_mem_cons]
    by_cases hx : s.allows x.value = true
    · rw [if_pos hx]
      cases he : d.advance x with
      | none => simp
      | some e => simp [hx, ← ih ((advanced he).tidy hd)]
    · rw [if_neg hx]
      simp [hx]

end Draft

end BoardTrial
