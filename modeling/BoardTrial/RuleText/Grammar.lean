import BoardTrial.RuleText.Draft

/-!
# The grammar of rules

What lexemes say, part by part, without a way to read them. Blank lines may come before and after a
rule and between its steps, but a comma is always followed by a clause. The grammar does not ask
that the tokens of an interaction agree on having a size.
-/

namespace BoardTrial

/-- The lexemes that name a token. -/
def Token.lexemes (t : Token) : List Lexeme :=
  (t.size.map Lexeme.size).toList ++ [.color t.color, .shape t.shape]

namespace Grammar

/-- Any number of newlines. -/
def newlines (n : Nat) : List Lexeme := List.replicate n .newline

/-- The wordings of the interactions. -/
inductive Leaf : List Lexeme → Interaction → Prop where
  /-- `touch a`. -/
  | touch (a : Token) : Leaf (.keyword .touch :: a.lexemes) (.touch a)
  /-- `pick up a`. -/
  | pickUp (a : Token) : Leaf (.keyword .pick :: .keyword .up :: a.lexemes) (.pickUp a)
  /-- `use a to touch b`. -/
  | useToTouch (a b : Token) :
      Leaf (.keyword .use :: a.lexemes ++ .keyword .toWord :: .keyword .touch :: b.lexemes)
        (.useToTouch a b)
  /-- `move a away from b`. -/
  | moveAwayFrom (a b : Token) :
      Leaf (.keyword .move :: a.lexemes ++ .keyword .away :: .keyword .fromWord :: b.lexemes)
        (.moveAwayFrom a b)
  /-- `put a left of b`. -/
  | putLeftOf (a b : Token) :
      Leaf (.keyword .put :: a.lexemes ++ .keyword .left :: .keyword .of :: b.lexemes)
        (.putLeftOf a b)
  /-- `put a between b and c`. -/
  | putBetween (a b c : Token) :
      Leaf (.keyword .put :: a.lexemes ++ .keyword .between :: b.lexemes ++
        .keyword .and :: c.lexemes) (.putBetween a b c)

/-- A clause: an interaction, or two with `or` between. -/
inductive Clause : List Lexeme → Rule → Prop where
  /-- One interaction. -/
  | leaf {u : List Lexeme} {i : Interaction} : Leaf u i → Clause u (.leaf i)
  /-- Two alternatives. -/
  | alternatives {u v : List Lexeme} {i j : Interaction} : Leaf u i → Leaf v j →
      Clause (u ++ .keyword .or :: v) (.firstOrSecond (.leaf i) (.leaf j))

/-- Clauses with commas between, at least one. -/
inductive Clauses : List Lexeme → List Rule → Prop where
  /-- One clause. -/
  | one {u : List Lexeme} {r : Rule} : Clause u r → Clauses u [r]
  /-- A clause before others. -/
  | more {u v : List Lexeme} {r : Rule} {rs : List Rule} : Clause u r → Clauses v rs →
      Clauses (u ++ .comma :: v) (r :: rs)

/-- A step. -/
inductive Step : List Lexeme → Rule → Prop where
  /-- A step says its clauses in any order. -/
  | mk {u : List Lexeme} {rs : List Rule} : Clauses u rs → Step u (.ofClauses rs)

/-- Steps with newlines between, at least one. -/
inductive Steps : List Lexeme → List Rule → Prop where
  /-- One step. -/
  | one {u : List Lexeme} {r : Rule} : Step u r → Steps u [r]
  /-- A step before others. -/
  | more {u v : List Lexeme} {r : Rule} {rs : List Rule} (n : Nat) : Step u r → Steps v rs →
      Steps (u ++ newlines (n + 1) ++ v) (r :: rs)

/-- A whole rule. -/
inductive Sentence : List Lexeme → Rule → Prop where
  /-- The word `nothing`. -/
  | nothing (m n : Nat) :
      Sentence (newlines m ++ .keyword .nothing :: newlines n) .doNothing
  /-- Steps in order. -/
  | steps (m n : Nat) {u : List Lexeme} {rs : List Rule} : Steps u rs →
      Sentence (newlines m ++ u ++ newlines n) (.ofSteps rs)

/-- The lexemes are the beginning of a sentence, or all of it. -/
def Viable (u : List Lexeme) : Prop := ∃ v t, Sentence (u ++ v) t

/-- What is named starts with the lexeme. -/
def Starts : Expected → Lexeme → Prop
  | .lexeme l, x => x = l
  | .endOfInput, _ => False
  | .rule, x => ∃ v t, Sentence (x :: v) t
  | .nothing, x => x = .keyword .nothing
  | .steps, x => ∃ v rs, Steps (x :: v) rs
  | .step, x => ∃ v r, Step (x :: v) r
  | .clause, x => ∃ v r, Clause (x :: v) r
  | .interaction, x => ∃ v i, Leaf (x :: v) i
  | .token, x => ∃ v t, Token.lexemes t = x :: v
  | .color, x => ∃ c, x = .color c
  | .shape, x => ∃ s, x = .shape s

end Grammar

end BoardTrial
