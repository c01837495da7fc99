/-!
# Lines

A text cut into lines. Each line keeps the newline that ends it, so that the lines put together are
the text; only the last line may lack one, and it is not empty. Rows of a drawing are put together
the other way round.
-/

namespace BoardTrial

/-- The lines of a text, each with the newline that ends it. -/
def linesOf : List Char → List (List Char)
  | [] => []
  | c :: cs =>
    if c = '\n' then [c] :: linesOf cs
    else
      match linesOf cs with
      | [] => [[c]]
      | l :: ls => (c :: l) :: ls

@[simp] theorem flatten_linesOf (cs : List Char) : (linesOf cs).flatten = cs := by
  induction cs with
  | nil => rfl
  | cons c cs ih =>
    simp only [linesOf]
    split
    · simp [ih]
    · split
      · next h => rw [h] at ih; simp_all
      · next h => rw [h] at ih; simp_all

theorem linesOf_ne_nil {cs : List Char} (h : cs ≠ []) : linesOf cs ≠ [] := by
  intro hnil
  have := flatten_linesOf cs
  rw [hnil] at this
  exact h this.symm

/-- A line without the newline that ends it, and without a carriage return before that. -/
def dropLineEnd (l : List Char) : List Char :=
  match l.reverse with
  | '\n' :: '\r' :: rest => rest.reverse
  | '\n' :: rest => rest.reverse
  | _ => l

/-- `n` times the character `c`. -/
def times (n : Nat) (c : Char) : String := "".pushn c n

theorem toList_times (n : Nat) (c : Char) : (times n c).toList = List.replicate n c := by
  induction n with
  | zero => rfl
  | succ n ih =>
    rw [List.replicate_succ', ← ih]
    exact String.toList_push ..

/-- Rows one below the other, each ended by a newline. -/
def unlines (rows : List String) : String := String.join (rows.map (· ++ "\n"))

end BoardTrial
