import BoardTrial.RuleText.Diagnostic
import BoardTrial.RuleText.Grammar

/-!
# What phrases spell

The lexemes that complete a phrase, said without reading them (`Phrase.Spells`). Reading one lexeme
leaves a phrase that is completed by the others (`Phrase.spells_cons_iff`), so reading a list comes
to a value just when the list spells it. What is left of an interaction after its opening word
spells the wordings of the grammar.
-/

namespace BoardTrial

namespace Phrase

variable {α : Type}

/-- `p.Spells u a`: the lexemes `u` complete the phrase, and its value is `a` then. -/
def Spells : Phrase α → List Lexeme → α → Prop
  | done a, u, b => u = [] ∧ b = a
  | word k next, u, b => ∃ v, u = .keyword k :: v ∧ next.Spells v b
  | either k₁ next₁ k₂ next₂, u, b => (∃ v, u = .keyword k₁ :: v ∧ next₁.Spells v b) ∨
      k₁ ≠ k₂ ∧ ∃ v, u = .keyword k₂ :: v ∧ next₂.Spells v b
  | token next, u, b => ∃ t v, u = Token.lexemes t ++ v ∧ (next t).Spells v b
  | color z next, u, b => ∃ c s v, u = .color c :: .shape s :: v ∧ (next ⟨c, s, some z⟩).Spells v b
  | shape z c next, u, b => ∃ s v, u = .shape s :: v ∧ (next ⟨c, s, z⟩).Spells v b

/-- Nothing completes a phrase only if it is complete. -/
theorem spells_nil_iff (p : Phrase α) (a : α) : p.Spells [] a ↔ p.value? = some a := by
  cases p with
  | done b => simp [Spells, value?, eq_comm]
  | _ => simp [Spells, value?, Token.lexemes]

/-- After the size of a token its color is spelled. -/
theorem spells_color_iff (z : Size) (next : Token → Phrase α) (u : List Lexeme) (a : α) :
    (color z next).Spells u a ↔
      ∃ c v, u = .color c :: v ∧ (shape (some z) c next).Spells v a := by
  constructor
  · rintro ⟨c, s, v, rfl, h⟩
    exact ⟨c, _, rfl, s, v, rfl, h⟩
  · rintro ⟨c, _, rfl, s, v, rfl, h⟩
    exact ⟨c, s, v, rfl, h⟩

/-- The lexemes of a token begin with a size or a color. -/
theorem spells_token_iff (next : Token → Phrase α) (u : List Lexeme) (a : α) :
    (token next).Spells u a ↔ (∃ z v, u = .size z :: v ∧ (color z next).Spells v a) ∨
      ∃ c v, u = .color c :: v ∧ (shape none c next).Spells v a := by
  constructor
  · rintro ⟨⟨c, s, z⟩, v, rfl, h⟩
    cases z with
    | none => exact .inr ⟨c, _, rfl, s, v, rfl, h⟩
    | some z => exact .inl ⟨z, _, rfl, c, s, v, rfl, h⟩
  · rintro (⟨z, _, rfl, c, s, v, rfl, h⟩ | ⟨c, _, rfl, s, v, rfl, h⟩)
    · exact ⟨⟨c, s, some z⟩, v, rfl, h⟩
    · exact ⟨⟨c, s, none⟩, v, rfl, h⟩

/-- **What the first lexeme decides**: it leads to a phrase that the others complete. -/
theorem spells_cons_iff (p : Phrase α) (x : Lexeme) (u : List Lexeme) (a : α) :
    p.Spells (x :: u) a ↔ ∃ q, p.advance x = some q ∧ q.Spells u a := by
  cases p with
  | done b => simp [Spells, advance]
  | word k next =>
    cases x with
    | keyword l => by_cases hl : l = k <;> simp [Spells, advance, hl]
    | _ => simp [Spells, advance]
  | either k₁ next₁ k₂ next₂ =>
    cases x with
    | keyword l =>
      by_cases h₁ : l = k₁
      · subst h₁
        by_cases h₂ : l = k₂ <;> simp [Spells, advance, h₂]
      · by_cases h₂ : l = k₂
        · subst h₂
          simp [Spells, advance, h₁, Ne.symm h₁]
        · simp [Spells, advance, h₁, h₂]
    | _ => simp [Spells, advance]
  | token next =>
    rw [spells_token_iff]
    cases x <;> simp [advance, and_assoc]
  | color z next =>
    rw [spells_color_iff]
    cases x <;> simp [advance, and_assoc]
  | shape z c next => cases x <;> simp [Spells, advance, and_assoc]

/-- The same of a phrase that is not complete, and what follows it. -/
theorem spells_append_cons_iff {p : Phrase α} (hp : p.value? = none) (x : Lexeme)
    (u : List Lexeme) {K : α → List Lexeme → Prop} :
    (∃ v a w, x :: u = v ++ w ∧ p.Spells v a ∧ K a w) ↔
      ∃ q, p.advance x = some q ∧ ∃ v a w, u = v ++ w ∧ q.Spells v a ∧ K a w := by
  constructor
  · rintro ⟨v, a, w, heq, hs, hk⟩
    cases v with
    | nil =>
      rw [spells_nil_iff, hp] at hs
      cases hs
    | cons y v =>
      obtain ⟨rfl, rfl⟩ := List.cons.inj heq
      obtain ⟨q, hq, hs⟩ := (p.spells_cons_iff _ _ _).mp hs
      exact ⟨q, hq, v, a, w, rfl, hs, hk⟩
  · rintro ⟨q, hq, v, a, w, rfl, hs, hk⟩
    exact ⟨x :: v, a, w, rfl, (p.spells_cons_iff _ _ _).mpr ⟨q, hq, hs⟩, hk⟩

/-- **Reading a list comes to a value just when the list spells it.** -/
theorem spells_iff_run (p : Phrase α) (xs : List (Located Lexeme)) (a : α) :
    p.Spells (xs.map (·.value)) a ↔ ∃ q, p.run xs = (q, []) ∧ q.value? = some a := by
  induction xs generalizing p with
  | nil => simp [spells_nil_iff, run]
  | cons x xs ih =>
    rw [List.map_cons, spells_cons_iff, run]
    cases p.advance x.value with
    | none => simp
    | some q => simp [ih]

/-- **A list is read as a value just when it spells it.** -/
theorem read_eq_ok_iff (p : Phrase α) (stop : Nat) (xs : List (Located Lexeme)) (a : α) :
    p.read stop xs = .ok a ↔ p.Spells (xs.map (·.value)) a := by
  rw [spells_iff_run, read]
  cases hrun : p.run xs with
  | mk q rest =>
    cases rest with
    | nil => cases hq : q.value? <;> simp [hq]
    | cons x rest => simp

/-- A token alone is spelled by its lexemes. -/
theorem spells_ofToken_iff (u : List Lexeme) (t : Token) : ofToken.Spells u t ↔ u = t.lexemes := by
  constructor
  · rintro ⟨_, v, rfl, rfl, rfl⟩
    exact List.append_nil _
  · rintro rfl
    exact ⟨t, [], (List.append_nil _).symm, rfl, rfl⟩

/-- An interaction that has been opened is not complete. -/
theorem value?_of_ofOpening? {k : Keyword} {p : Phrase Interaction} (h : ofOpening? k = some p) :
    p.value? = none := by
  cases k <;> simp [ofOpening?] at h <;> subst h <;> rfl

end Phrase

namespace Grammar

/-- **The wordings of the interactions are what phrases spell**, each after its opening word. -/
theorem leaf_iff_spells (u : List Lexeme) (i : Interaction) :
    Leaf u i ↔ ∃ k p v, u = .keyword k :: v ∧ Phrase.ofOpening? k = some p ∧ p.Spells v i := by
  constructor
  · intro h
    cases h with
    | touch a => exact ⟨_, _, _, rfl, rfl, a, [], by simp, rfl, rfl⟩
    | pickUp a => exact ⟨_, _, _, rfl, rfl, _, rfl, a, [], by simp, rfl, rfl⟩
    | useToTouch a b =>
      exact ⟨_, _, _, rfl, rfl, a, _, rfl, _, rfl, _, rfl, b, [], by simp, rfl, rfl⟩
    | moveAwayFrom a b =>
      exact ⟨_, _, _, rfl, rfl, a, _, rfl, _, rfl, _, rfl, b, [], by simp, rfl, rfl⟩
    | putLeftOf a b =>
      exact ⟨_, _, _, rfl, rfl, a, _, rfl, .inl ⟨_, rfl, _, rfl, b, [], by simp, rfl, rfl⟩⟩
    | putBetween a b c =>
      refine ⟨.put, _, a.lexemes ++ .keyword .between :: (b.lexemes ++ .keyword .and :: c.lexemes),
        by simp, rfl, a, _, rfl, .inr ⟨by decide, _, rfl, b, _, rfl, _, rfl, c, [], ?_, rfl, rfl⟩⟩
      exact (List.append_nil _).symm
  · rintro ⟨k, p, v, rfl, hp, h⟩
    cases k with
    | touch =>
      obtain rfl := Option.some.inj hp
      obtain ⟨a, _, rfl, rfl, rfl⟩ := h
      simpa using Leaf.touch a
    | pick =>
      obtain rfl := Option.some.inj hp
      obtain ⟨_, rfl, a, _, rfl, rfl, rfl⟩ := h
      simpa using Leaf.pickUp a
    | use =>
      obtain rfl := Option.some.inj hp
      obtain ⟨a, _, rfl, _, rfl, _, rfl, b, _, rfl, rfl, rfl⟩ := h
      simpa using Leaf.useToTouch a b
    | move =>
      obtain rfl := Option.some.inj hp
      obtain ⟨a, _, rfl, _, rfl, _, rfl, b, _, rfl, rfl, rfl⟩ := h
      simpa using Leaf.moveAwayFrom a b
    | put =>
      obtain rfl := Option.some.inj hp
      obtain ⟨a, _, rfl, ⟨_, rfl, _, rfl, b, _, rfl, rfl, rfl⟩ |
        ⟨-, _, rfl, b, _, rfl, _, rfl, c, _, rfl, rfl, rfl⟩⟩ := h
      · simpa using Leaf.putLeftOf a b
      · simpa using Leaf.putBetween a b c
    | _ => cases hp

end Grammar

end BoardTrial
