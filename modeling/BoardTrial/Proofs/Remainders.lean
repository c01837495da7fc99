import BoardTrial.Proofs.Wordings

/-!
# What may follow

The grammar of rules said once more, by what may follow a clause and what may follow a line, so that
the first lexeme decides how to go on. A list is a sentence just when it is what may stand at the
beginning (`Grammar.sentence_iff_begin`).
-/

namespace BoardTrial

namespace Grammar

mutual

/-- `ClauseTail u rs ss`: after a clause `u` says the other clauses `rs` of its step and then the
steps `ss`. -/
inductive ClauseTail : List Lexeme → List Rule → List Rule → Prop where
  /-- Nothing follows. -/
  | stop : ClauseTail [] [] []
  /-- Another clause follows. -/
  | comma {v w : List Lexeme} {r : Rule} {rs ss : List Rule} : Clause v r → ClauseTail w rs ss →
      ClauseTail (.comma :: (v ++ w)) (r :: rs) ss
  /-- The line ends. -/
  | newline {u : List Lexeme} {ss : List Rule} : LineTail u ss → ClauseTail (.newline :: u) [] ss

/-- `LineTail u ss`: after a line `u` says the steps `ss`. -/
inductive LineTail : List Lexeme → List Rule → Prop where
  /-- Nothing follows. -/
  | stop : LineTail [] []
  /-- The line is blank. -/
  | newline {u : List Lexeme} {ss : List Rule} : LineTail u ss → LineTail (.newline :: u) ss
  /-- The line begins with a clause. -/
  | step {v w : List Lexeme} {r : Rule} {rs ss : List Rule} : Clause v r → ClauseTail w rs ss →
      LineTail (v ++ w) (.ofClauses (r :: rs) :: ss)

end

/-- `Begin u t`: the lexemes `u` say the rule `t` from the beginning. -/
inductive Begin : List Lexeme → Rule → Prop where
  /-- The word `nothing`. -/
  | nothing (n : Nat) : Begin (.keyword .nothing :: newlines n) .doNothing
  /-- The line is blank. -/
  | newline {u : List Lexeme} {t : Rule} : Begin u t → Begin (.newline :: u) t
  /-- The line begins with a clause. -/
  | step {v w : List Lexeme} {r : Rule} {rs ss : List Rule} : Clause v r → ClauseTail w rs ss →
      Begin (v ++ w) (.ofSteps (.ofClauses (r :: rs) :: ss))

/-! ### Sentences -/

theorem newlines_succ (n : Nat) : newlines (n + 1) = .newline :: newlines n := rfl

theorem cons_eq_newlines_iff (x : Lexeme) (u : List Lexeme) :
    (∃ n, x :: u = newlines n) ↔ x = .newline ∧ ∃ n, u = newlines n := by
  constructor
  · rintro ⟨n, h⟩
    cases n with
    | zero => cases h
    | succ n =>
      obtain ⟨rfl, rfl⟩ := List.cons.inj h
      exact ⟨rfl, n, rfl⟩
  · rintro ⟨rfl, n, rfl⟩
    exact ⟨n + 1, rfl⟩

theorem LineTail.newlines_append {u : List Lexeme} {ss : List Rule} (h : LineTail u ss) (n : Nat) :
    LineTail (newlines n ++ u) ss := by
  induction n with
  | zero => exact h
  | succ n ih => exact .newline ih

theorem Begin.newlines_append {u : List Lexeme} {t : Rule} (h : Begin u t) (n : Nat) :
    Begin (newlines n ++ u) t := by
  induction n with
  | zero => exact h
  | succ n ih => exact .newline ih

theorem clauseTail_newlines (n : Nat) : ClauseTail (newlines n) [] [] := by
  cases n with
  | zero => exact .stop
  | succ n =>
    have h := LineTail.stop.newlines_append n
    rw [List.append_nil] at h
    exact .newline h

/-- Clauses are a first clause and others that follow it. -/
theorem Clauses.tail {v w : List Lexeme} {rs ss : List Rule} (h : Clauses v rs)
    (hw : ClauseTail w [] ss) : ∃ v₁ v₂ r rs', v = v₁ ++ v₂ ∧ rs = r :: rs' ∧ Clause v₁ r ∧
      ClauseTail (v₂ ++ w) rs' ss := by
  induction h with
  | @one u r hc => exact ⟨u, [], r, [], (List.append_nil u).symm, rfl, hc, hw⟩
  | @more u v r rs hc _ ih =>
    obtain ⟨v₁, v₂, s, rs', rfl, rfl, hc', ht⟩ := ih
    refine ⟨u, .comma :: (v₁ ++ v₂), r, s :: rs', rfl, rfl, hc, ?_⟩
    rw [List.cons_append, List.append_assoc]
    exact .comma hc' ht

/-- Steps, and then only blank lines, are what may follow a line. -/
theorem Steps.lineTail {u : List Lexeme} {ss : List Rule} (h : Steps u ss) (n : Nat) :
    LineTail (u ++ newlines n) ss := by
  induction h with
  | one hs =>
    obtain ⟨hcs⟩ := hs
    obtain ⟨v₁, v₂, r, rs, rfl, rfl, hc, ht⟩ := hcs.tail (clauseTail_newlines n)
    rw [List.append_assoc]
    exact .step hc ht
  | more m hs _ ih =>
    obtain ⟨hcs⟩ := hs
    obtain ⟨v₁, v₂, r, rs, rfl, rfl, hc, ht⟩ := hcs.tail (.newline (ih.newlines_append m))
    simp only [List.append_assoc, newlines_succ, List.cons_append]
    exact .step hc ht

theorem LineTail.begin : ∀ {u : List Lexeme} {ss : List Rule}, LineTail u ss → ss ≠ [] →
    Begin u (.ofSteps ss)
  | _, _, .stop, hss => absurd rfl hss
  | _, _, .newline h, hss => .newline (LineTail.begin h hss)
  | _, _, .step hc ht, _ => .step hc ht

mutual

/-- What follows a clause ends its step, and then come steps between newlines. -/
theorem ClauseTail.split : ∀ {u : List Lexeme} {rs ss : List Rule}, ClauseTail u rs ss →
    ∃ v w, u = v ++ w ∧ (∀ {v₀ r}, Clause v₀ r → Clauses (v₀ ++ v) (r :: rs)) ∧
      ((∃ n, w = newlines n ∧ ss = []) ∨
        ∃ m x n, w = newlines (m + 1) ++ x ++ newlines n ∧ Steps x ss)
  | _, _, _, .stop => ⟨[], [], rfl, fun hc => by simpa using .one hc, .inl ⟨0, rfl, rfl⟩⟩
  | _, _, _, .comma (v := v) hc ht => by
    obtain ⟨v', w', rfl, hcs, hss⟩ := ClauseTail.split ht
    exact ⟨.comma :: (v ++ v'), w', by simp, fun hc' => .more hc' (hcs hc), hss⟩
  | _, _, _, .newline (u := u) ht => by
    refine ⟨[], .newline :: u, rfl, fun hc => by simpa using .one hc, ?_⟩
    rcases LineTail.split ht with ⟨n, rfl, rfl⟩ | ⟨m, x, n, rfl, hs⟩
    · exact .inl ⟨n + 1, rfl, rfl⟩
    · exact .inr ⟨m, x, n, rfl, hs⟩

/-- What follows a line is steps between newlines. -/
theorem LineTail.split : ∀ {u : List Lexeme} {ss : List Rule}, LineTail u ss →
    (∃ n, u = newlines n ∧ ss = []) ∨
      ∃ m x n, u = newlines m ++ x ++ newlines n ∧ Steps x ss
  | _, _, .stop => .inl ⟨0, rfl, rfl⟩
  | _, _, .newline ht => by
    rcases LineTail.split ht with ⟨n, rfl, rfl⟩ | ⟨m, x, n, rfl, hs⟩
    · exact .inl ⟨n + 1, rfl, rfl⟩
    · exact .inr ⟨m + 1, x, n, rfl, hs⟩
  | _, _, .step (v := v) hc ht => by
    obtain ⟨v', w', rfl, hcs, ⟨n, rfl, rfl⟩ | ⟨m, x, n, rfl, hs⟩⟩ := ClauseTail.split ht
    · exact .inr ⟨0, v ++ v', n, by simp [newlines], .one (.mk (hcs hc))⟩
    · exact .inr ⟨0, v ++ v' ++ newlines (m + 1) ++ x, n, by simp [newlines],
        .more m (.mk (hcs hc)) hs⟩

end

/-- **Sentences are what may stand at the beginning.** -/
theorem sentence_iff_begin (u : List Lexeme) (t : Rule) : Sentence u t ↔ Begin u t := by
  constructor
  · intro h
    cases h with
    | nothing m n => exact (Begin.nothing n).newlines_append m
    | @steps m n u rs hs =>
      have hne : rs ≠ [] := by cases hs <;> simp
      rw [List.append_assoc]
      exact ((hs.lineTail n).begin hne).newlines_append m
  · intro h
    induction h with
    | nothing n => exact .nothing 0 n
    | newline _ ih =>
      cases ih with
      | nothing m n => exact .nothing (m + 1) n
      | steps m n hs => exact .steps (m + 1) n hs
    | @step v w r rs ss hc ht =>
      obtain ⟨v', w', rfl, hcs, ⟨n, rfl, rfl⟩ | ⟨m, x, n, rfl, hs⟩⟩ := ht.split
      · rw [← List.append_assoc]
        exact .steps 0 n (.one (.mk (hcs hc)))
      · have h := Sentence.steps 0 n (.more m (.mk (hcs hc)) hs)
        simpa [newlines] using h

/-! ### What the first lexeme decides -/

/-- `LeafThen K u`: an interaction, and what `K` says of the interaction and the rest. -/
def LeafThen (K : Interaction → List Lexeme → Prop) (u : List Lexeme) : Prop :=
  ∃ v i w, u = v ++ w ∧ Leaf v i ∧ K i w

/-- `ClauseThen K u`: a clause, and what `K` says of the clause and the rest. -/
def ClauseThen (K : Rule → List Lexeme → Prop) (u : List Lexeme) : Prop :=
  ∃ v r w, u = v ++ w ∧ Clause v r ∧ K r w

/-- A clause is an interaction that is all of it, or goes on with `or` and another. -/
theorem clauseThen_iff (K : Rule → List Lexeme → Prop) (u : List Lexeme) :
    ClauseThen K u ↔ LeafThen (fun i w => K (.leaf i) w ∨ ∃ z, w = .keyword .or :: z ∧
      LeafThen (fun j => K (.firstOrSecond (.leaf i) (.leaf j))) z) u := by
  constructor
  · rintro ⟨_, _, w, rfl, hc, hk⟩
    cases hc with
    | leaf hl => exact ⟨_, _, w, rfl, hl, .inl hk⟩
    | @alternatives v v' i j hl hl' =>
      exact ⟨v, i, .keyword .or :: (v' ++ w), by simp, hl, .inr ⟨_, rfl, v', j, w, rfl, hl', hk⟩⟩
  · rintro ⟨v, i, w, rfl, hl, hk | ⟨_, rfl, v', j, w, rfl, hl', hk⟩⟩
    · exact ⟨v, _, w, rfl, .leaf hl, hk⟩
    · exact ⟨v ++ .keyword .or :: v', _, w, by simp, .alternatives hl hl', hk⟩

/-- An interaction begins with one of the opening words. -/
theorem Leaf.head {v : List Lexeme} {i : Interaction} (h : Leaf v i) :
    ∃ k ∈ Expected.openings, ∃ w, v = .keyword k :: w := by
  cases h <;> simp [Expected.openings]

/-- So does a clause. -/
theorem Clause.head {v : List Lexeme} {r : Rule} (h : Clause v r) :
    ∃ k ∈ Expected.openings, ∃ w, v = .keyword k :: w := by
  cases h with
  | leaf hl => exact hl.head
  | alternatives hl _ =>
    obtain ⟨k, hk, w, rfl⟩ := hl.head
    exact ⟨k, hk, _, rfl⟩

theorem clauseTail_nil_iff (rs ss : List Rule) : ClauseTail [] rs ss ↔ rs = [] ∧ ss = [] := by
  constructor
  · rintro ⟨⟩
    exact ⟨rfl, rfl⟩
  · rintro ⟨rfl, rfl⟩
    exact .stop

theorem clauseTail_comma_iff (u : List Lexeme) (rs ss : List Rule) :
    ClauseTail (.comma :: u) rs ss ↔
      ClauseThen (fun r w => ∃ rs', rs = r :: rs' ∧ ClauseTail w rs' ss) u := by
  constructor
  · intro h
    cases h with
    | comma hc ht => exact ⟨_, _, _, rfl, hc, _, rfl, ht⟩
  · rintro ⟨v, r, w, rfl, hc, rs', rfl, ht⟩
    exact .comma hc ht

theorem clauseTail_newline_iff (u : List Lexeme) (rs ss : List Rule) :
    ClauseTail (.newline :: u) rs ss ↔ rs = [] ∧ LineTail u ss := by
  constructor
  · intro h
    cases h with
    | newline ht => exact ⟨rfl, ht⟩
  · rintro ⟨rfl, ht⟩
    exact .newline ht

/-- A comma or a newline ends a clause. -/
theorem ClauseTail.head {x : Lexeme} {u : List Lexeme} {rs ss : List Rule}
    (h : ClauseTail (x :: u) rs ss) : x = .comma ∨ x = .newline := by
  cases h with
  | comma _ _ => exact .inl rfl
  | newline _ => exact .inr rfl

/-- No lexemes say no steps. -/
theorem lineTail_nil_iff (ss : List Rule) : LineTail [] ss ↔ ss = [] := by
  constructor
  · intro h
    generalize hu : ([] : List Lexeme) = u at h
    cases h with
    | stop => rfl
    | newline _ => cases hu
    | step hc _ =>
      obtain ⟨k, -, w, rfl⟩ := hc.head
      cases hu
  · rintro rfl
    exact .stop

theorem lineTail_newline_iff (u : List Lexeme) (ss : List Rule) :
    LineTail (.newline :: u) ss ↔ LineTail u ss := by
  constructor
  · intro h
    generalize hu : Lexeme.newline :: u = v at h
    cases h with
    | stop => cases hu
    | newline h =>
      cases hu
      exact h
    | step hc _ =>
      obtain ⟨k, -, w, rfl⟩ := hc.head
      cases hu
  · exact .newline

theorem lineTail_iff_of_ne {x : Lexeme} (hx : x ≠ .newline) (u : List Lexeme) (ss : List Rule) :
    LineTail (x :: u) ss ↔ ClauseThen
      (fun r w => ∃ rs ss', ClauseTail w rs ss' ∧ ss = .ofClauses (r :: rs) :: ss') (x :: u) := by
  constructor
  · intro h
    generalize hu : x :: u = v at h
    cases h with
    | stop => cases hu
    | newline _ => exact absurd (List.cons.inj hu).1 hx
    | step hc ht => exact ⟨_, _, _, rfl, hc, _, _, ht, rfl⟩
  · rintro ⟨v, r, w, heq, hc, rs, ss', ht, rfl⟩
    rw [heq]
    exact .step hc ht

/-- A rule does not end before it begins. -/
theorem not_begin_nil (t : Rule) : ¬ Begin [] t := by
  intro h
  generalize hu : ([] : List Lexeme) = u at h
  cases h with
  | nothing n => cases hu
  | newline _ => cases hu
  | step hc _ =>
    obtain ⟨k, -, w, rfl⟩ := hc.head
    cases hu

theorem begin_newline_iff (u : List Lexeme) (t : Rule) : Begin (.newline :: u) t ↔ Begin u t := by
  constructor
  · intro h
    generalize hu : Lexeme.newline :: u = v at h
    cases h with
    | nothing n => cases hu
    | newline h =>
      cases hu
      exact h
    | step hc _ =>
      obtain ⟨k, -, w, rfl⟩ := hc.head
      cases hu
  · exact .newline

theorem begin_nothing_iff (u : List Lexeme) (t : Rule) :
    Begin (.keyword .nothing :: u) t ↔ ∃ n, u = newlines n ∧ t = .doNothing := by
  constructor
  · intro h
    generalize hu : Lexeme.keyword .nothing :: u = v at h
    cases h with
    | nothing n =>
      cases hu
      exact ⟨n, rfl, rfl⟩
    | newline _ => cases hu
    | step hc _ =>
      obtain ⟨k, hk, w, rfl⟩ := hc.head
      cases hu
      simp [Expected.openings] at hk
  · rintro ⟨n, rfl, rfl⟩
    exact .nothing n

theorem begin_iff_of_ne {x : Lexeme} (hx : x ≠ .newline) (hx' : x ≠ .keyword .nothing)
    (u : List Lexeme) (t : Rule) : Begin (x :: u) t ↔ ClauseThen
      (fun r w => ∃ rs ss, ClauseTail w rs ss ∧ t = .ofSteps (.ofClauses (r :: rs) :: ss))
      (x :: u) := by
  constructor
  · intro h
    generalize hu : x :: u = v at h
    cases h with
    | nothing n => exact absurd (List.cons.inj hu).1 hx'
    | newline _ => exact absurd (List.cons.inj hu).1 hx
    | step hc ht => exact ⟨_, _, _, rfl, hc, _, _, ht, rfl⟩
  · rintro ⟨v, r, w, heq, hc, rs, ss, ht, rfl⟩
    rw [heq]
    exact .step hc ht

end Grammar

end BoardTrial
