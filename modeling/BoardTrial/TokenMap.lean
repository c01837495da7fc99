import BoardTrial.Token

/-!
# Maps from tokens

A finite map from tokens, as the list of its entries, one for each token. What a map says of a token
is `get?`; `insert` changes it for one token.

This module stands for the hash maps of the program, whose entries are looked up and written.
Nothing in it depends on their order; here it is the order in which tokens came in.
-/

namespace BoardTrial

/-- A finite map from tokens. -/
structure TokenMap (α : Type) where
  /-- The tokens and their values. -/
  entries : List (Token × α) := []

namespace TokenMap

variable {α : Type}

/-- The map without entries. -/
def empty : TokenMap α := {}

/-- The value of a token, if it has one. -/
def get? (m : TokenMap α) (t : Token) : Option α := m.entries.lookup t

/-- Entries in which the value of `t` is `a`. -/
def replace (t : Token) (a : α) : List (Token × α) → List (Token × α)
  | [] => [(t, a)]
  | (u, b) :: rest => if u = t then (t, a) :: rest else (u, b) :: replace t a rest

/-- The map in which the value of `t` is `a`. -/
def insert (m : TokenMap α) (t : Token) (a : α) : TokenMap α := ⟨replace t a m.entries⟩

/-- The map with these entries; of two for one token the later counts. -/
def ofList (es : List (Token × α)) : TokenMap α := es.foldl (fun m e => m.insert e.1 e.2) empty

/-- How many tokens have a value. -/
def size (m : TokenMap α) : Nat := m.entries.length

/-- The tokens that have a value. -/
def tokens (m : TokenMap α) : List Token := m.entries.map (·.1)

@[simp] theorem get?_empty (t : Token) : (empty : TokenMap α).get? t = none := rfl

private theorem lookup_cons_eq_ite (t u : Token) (a : α) (es : List (Token × α)) :
    ((t, a) :: es).lookup u = if u = t then some a else es.lookup u := by
  by_cases h : u = t
  · simp [h]
  · simp [List.lookup_cons, beq_eq_false_iff_ne.mpr h, h]

theorem get?_insert (m : TokenMap α) (t u : Token) (a : α) :
    (m.insert t a).get? u = if u = t then some a else m.get? u := by
  simp only [get?, insert]
  induction m.entries with
  | nil => simp [replace, lookup_cons_eq_ite]
  | cons e es ih =>
    obtain ⟨v, b⟩ := e
    by_cases hv : v = t
    · subst hv
      by_cases hu : u = v <;> simp [replace, lookup_cons_eq_ite, hu]
    · by_cases hu : u = v
      · subst hu
        simp [replace, hv]
      · simp [replace, lookup_cons_eq_ite, hv, hu, ih]

@[simp] theorem get?_insert_self (m : TokenMap α) (t : Token) (a : α) :
    (m.insert t a).get? t = some a := by simp [get?_insert]

end TokenMap

end BoardTrial
