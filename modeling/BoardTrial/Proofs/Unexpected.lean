import BoardTrial.Proofs.Grammar

/-!
# Where a text stops being a rule

Whatever can be read can be completed (`Draft.exists_spells`), so reading stops at the first lexeme
that no sentence can go on with, and what is expected there are the names of all lexemes that some
sentence goes on with. **A text that is no rule has one diagnostic that says so, the last, at that
lexeme** or, if the whole text begins a sentence, at its end (`Rule.unexpected_at_first_impossible`).
-/

namespace BoardTrial

open Grammar

/-! ### Whatever can be read can be completed -/

theorem Phrase.exists_spells {α : Type} (p : Phrase α) : ∃ u a, p.Spells u a := by
  induction p with
  | done a => exact ⟨[], a, rfl, rfl⟩
  | word k next ih =>
    obtain ⟨u, a, h⟩ := ih
    exact ⟨_, a, u, rfl, h⟩
  | either k₁ next₁ k₂ next₂ ih _ =>
    obtain ⟨u, a, h⟩ := ih
    exact ⟨_, a, .inl ⟨u, rfl, h⟩⟩
  | token next ih =>
    obtain ⟨u, a, h⟩ := ih ⟨.red, .circle, none⟩
    exact ⟨_, a, _, u, rfl, h⟩
  | color z next ih =>
    obtain ⟨u, a, h⟩ := ih ⟨.red, .circle, some z⟩
    exact ⟨_, a, _, _, u, rfl, h⟩
  | shape z c next ih =>
    obtain ⟨u, a, h⟩ := ih ⟨c, .circle, z⟩
    exact ⟨_, a, _, u, rfl, h⟩

namespace Draft

variable {d e : Draft}

/-- A complete interaction may end the text. -/
theorem exists_afterLeaf (d : Draft) (first : Option Interaction) (i : Interaction) :
    ∃ t, d.AfterLeaf first i [] t := by
  cases first with
  | none => exact ⟨_, .inl ⟨[], [], .stop, rfl⟩⟩
  | some j => exact ⟨_, [], [], .stop, rfl⟩

/-- **Every draft can be completed.** -/
theorem exists_spells (d : Draft) : ∃ u t, d.Spells u t := by
  obtain ⟨S, C, L, place⟩ := d
  cases place with
  | opening => exact ⟨_, _, .nothing 0⟩
  | blank => exact ⟨_, _, .nothing 0⟩
  | afterNothing => exact ⟨_, _, 0, rfl, rfl⟩
  | lineStart => exact ⟨[], _, [], .stop, rfl⟩
  | leafStart part first =>
    obtain ⟨t, ht⟩ := exists_afterLeaf ⟨S, C, L, .leafStart part first⟩ first
      (.touch ⟨.red, .circle, none⟩)
    exact ⟨_, t, _, _, [], rfl, .touch _, ht⟩
  | inLeaf first start phrase =>
    obtain ⟨u, i, hu⟩ := phrase.exists_spells
    obtain ⟨t, ht⟩ := exists_afterLeaf ⟨S, C, L, .inLeaf first start phrase⟩ first i
    exact ⟨_, t, u, i, [], rfl, hu, ht⟩
  | afterLeaf i =>
    obtain ⟨t, ht⟩ := exists_afterLeaf ⟨S, C, L, .afterLeaf i⟩ none i
    exact ⟨[], t, ht⟩
  | afterAlternative i j =>
    obtain ⟨t, ht⟩ := exists_afterLeaf ⟨S, C, L, .afterAlternative i j⟩ (some i) j
    exact ⟨[], t, ht⟩

/-- A draft can go on with a lexeme just when what is expected names it. -/
theorem exists_spells_cons_iff (hd : d.Tidy) (x : Lexeme) :
    (∃ v t, d.Spells (x :: v) t) ↔ ∃ w ∈ d.place.expected, w.Admits x := by
  have hadvance := isSome_advance d ⟨x, .point 0⟩
  rw [← hadvance, Option.isSome_iff_exists]
  constructor
  · rintro ⟨v, t, h⟩
    obtain ⟨e, he, -⟩ := (spells_cons_iff hd ⟨x, .point 0⟩ v t).mp h
    exact ⟨e, he⟩
  · rintro ⟨e, he⟩
    obtain ⟨v, t, h⟩ := e.exists_spells
    exact ⟨v, t, (spells_cons_iff hd ⟨x, .point 0⟩ v t).mpr ⟨e, he, h⟩⟩

/-- The end of the text is expected where the text may end. -/
theorem endOfInput_mem_expected_iff (d : Draft) :
    .endOfInput ∈ d.place.expected ↔ d.rule?.isSome = true := by
  obtain ⟨S, C, L, place⟩ := d
  cases place with
  | leafStart part first => cases part <;> simp [Place.expected, Part.expected, rule?]
  | inLeaf first start phrase => cases phrase <;> simp [Place.expected, Phrase.expected, rule?]
  | _ => simp [Place.expected, rule?]

/-- How far reading a rule comes: the draft reached is completed by what completes the whole after
the lexemes read, and cannot go on with the next. -/
theorem run_stops (hd : d.Tidy) (xs : List (Located Lexeme)) :
    ∃ pre, xs = pre ++ (run .rule d xs).2 ∧
      (∀ u t, d.Spells (pre.map (·.value) ++ u) t ↔ (run .rule d xs).1.Spells u t) ∧
      ∀ x rest, (run .rule d xs).2 = x :: rest → (run .rule d xs).1.advance x = none := by
  induction xs generalizing d with
  | nil => exact ⟨[], rfl, fun _ _ => Iff.rfl, by simp [run]⟩
  | cons x xs ih =>
    have hall : Scope.rule.allows x.value = true := rfl
    rw [run, if_pos hall]
    cases hx : d.advance x with
    | none => exact ⟨[], rfl, fun _ _ => Iff.rfl, by simp [hx]⟩
    | some e =>
      obtain ⟨pre, hpre, hspells, hstop⟩ := ih ((advanced hx).tidy hd)
      refine ⟨x :: pre, by rw [List.cons_append, ← hpre], fun u t => ?_, hstop⟩
      rw [List.map_cons, List.cons_append, spells_cons_iff hd, hx]
      simp [hspells]

end Draft

/-! ### What a name starts with -/

namespace Grammar

/-- Each opening word begins an interaction. -/
theorem exists_leaf {k : Keyword} (hk : k ∈ Expected.openings) :
    ∃ v i, Leaf (.keyword k :: v) i := by
  let a : Token := ⟨.red, .circle, none⟩
  simp only [Expected.openings, List.mem_cons, List.not_mem_nil, or_false] at hk
  rcases hk with rfl | rfl | rfl | rfl | rfl
  · exact ⟨_, _, .touch a⟩
  · exact ⟨_, _, .pickUp a⟩
  · exact ⟨_, _, .useToTouch a a⟩
  · exact ⟨_, _, .moveAwayFrom a a⟩
  · exact ⟨_, _, .putLeftOf a a⟩

/-- Clauses begin with one of the opening words. -/
theorem Clauses.head {u : List Lexeme} {rs : List Rule} (h : Clauses u rs) :
    ∃ k ∈ Expected.openings, ∃ w, u = .keyword k :: w := by
  cases h with
  | one hc => exact hc.head
  | more hc _ =>
    obtain ⟨k, hk, w, rfl⟩ := hc.head
    exact ⟨k, hk, _, rfl⟩

theorem Step.head {u : List Lexeme} {r : Rule} (h : Step u r) :
    ∃ k ∈ Expected.openings, ∃ w, u = .keyword k :: w := by
  obtain ⟨hcs⟩ := h
  exact hcs.head

theorem Steps.head {u : List Lexeme} {rs : List Rule} (h : Steps u rs) :
    ∃ k ∈ Expected.openings, ∃ w, u = .keyword k :: w := by
  cases h with
  | one hs => exact hs.head
  | more n hs _ =>
    obtain ⟨k, hk, w, rfl⟩ := hs.head
    exact ⟨k, hk, _, rfl⟩

/-- What an interaction may be all of, and what begins with an interaction, begins with the opening
words. -/
theorem exists_cons_iff {α : Type} {P : List Lexeme → α → Prop}
    (hhead : ∀ {u a}, P u a → ∃ k ∈ Expected.openings, ∃ w, u = .keyword k :: w)
    (hleaf : ∀ {u i}, Leaf u i → ∃ a, P u a) (x : Lexeme) :
    (∃ v a, P (x :: v) a) ↔ ∃ k ∈ Expected.openings, x = .keyword k := by
  constructor
  · rintro ⟨v, a, h⟩
    obtain ⟨k, hk, w, heq⟩ := hhead h
    exact ⟨k, hk, (List.cons.inj heq).1⟩
  · rintro ⟨k, hk, rfl⟩
    obtain ⟨v, i, h⟩ := exists_leaf hk
    exact ⟨v, hleaf h⟩

/-- A draft that has not begun is completed by sentences. -/
theorem sentence_iff_spells (u : List Lexeme) (t : Rule) :
    Sentence u t ↔ (Draft.start .rule).Spells u t := by
  rw [← show Says .rule u t ↔ Sentence u t from Iff.rfl, ← spells_start_iff]
  exact and_iff_right fun x _ => rfl

theorem exists_sentence_cons_iff (x : Lexeme) :
    (∃ v t, Sentence (x :: v) t) ↔
      x = .newline ∨ x = .keyword .nothing ∨ ∃ k ∈ Expected.openings, x = .keyword k := by
  simp only [sentence_iff_spells, Draft.exists_spells_cons_iff (Draft.tidy_start .rule)]
  simp [Draft.start, Place.expected, Expected.Admits]

theorem exists_token_cons_iff (x : Lexeme) :
    (∃ v t, Token.lexemes t = x :: v) ↔ (∃ z, x = .size z) ∨ ∃ c, x = .color c := by
  constructor
  · rintro ⟨v, ⟨c, s, _ | z⟩, h⟩
    · exact .inr ⟨c, (List.cons.inj h).1.symm⟩
    · exact .inl ⟨z, (List.cons.inj h).1.symm⟩
  · rintro (⟨z, rfl⟩ | ⟨c, rfl⟩)
    · exact ⟨_, ⟨.red, .circle, some z⟩, rfl⟩
    · exact ⟨_, ⟨c, .circle, none⟩, rfl⟩

/-- **A name admits the lexemes that what it names starts with.** -/
theorem admits_iff_starts (w : Expected) (x : Lexeme) : w.Admits x ↔ Starts w x := by
  cases w with
  | rule => exact (exists_sentence_cons_iff x).symm
  | steps =>
    have hleaf : ∀ {u i}, Leaf u i → ∃ rs, Steps u rs := fun h => ⟨_, .one (.mk (.one (.leaf h)))⟩
    exact (exists_cons_iff Steps.head hleaf x).symm
  | step =>
    have hleaf : ∀ {u i}, Leaf u i → ∃ r, Step u r := fun h => ⟨_, .mk (.one (.leaf h))⟩
    exact (exists_cons_iff Step.head hleaf x).symm
  | clause =>
    have hleaf : ∀ {u i}, Leaf u i → ∃ r, Clause u r := fun h => ⟨_, .leaf h⟩
    exact (exists_cons_iff Clause.head hleaf x).symm
  | interaction =>
    have hleaf : ∀ {u i}, Leaf u i → ∃ j, Leaf u j := fun h => ⟨_, h⟩
    exact (exists_cons_iff Leaf.head hleaf x).symm
  | token => exact (exists_token_cons_iff x).symm
  | lexeme l => exact Iff.rfl
  | endOfInput => exact Iff.rfl
  | nothing => exact Iff.rfl
  | color => exact Iff.rfl
  | shape => exact Iff.rfl

/-! ### The first lexeme that cannot follow -/

/-- What begins a viable list is viable. -/
theorem Viable.of_append {u v : List Lexeme} (h : Viable (u ++ v)) : Viable u := by
  obtain ⟨w, t, ht⟩ := h
  exact ⟨v ++ w, t, by rwa [← List.append_assoc]⟩

theorem Viable.take {u : List Lexeme} (h : Viable u) (k : Nat) : Viable (u.take k) :=
  Viable.of_append (v := u.drop k) (by rwa [List.take_append_drop])

/-- `FailsAt stop xs k found span`: the first `k` of the lexemes `xs` begin a sentence. After them
is found what no sentence goes on with: a lexeme, with its span, or the end of the text at `stop`. -/
inductive FailsAt (stop : Nat) (xs : List (Located Lexeme)) : Nat → Option Lexeme → Span → Prop where
  /-- A lexeme cannot follow. -/
  | lexeme {k : Nat} {l : Lexeme} {span : Span} : xs[k]? = some ⟨l, span⟩ →
      (∀ j ≤ k, Viable ((xs.map (·.value)).take j)) →
      ¬ Viable ((xs.map (·.value)).take (k + 1)) → FailsAt stop xs k (some l) span
  /-- The text ends too early. -/
  | stop : Viable (xs.map (·.value)) → (¬ ∃ t, Sentence (xs.map (·.value)) t) →
      FailsAt stop xs xs.length none (.point stop)

end Grammar

namespace Draft

/-- What has been read of a rule: the draft `d` is completed by what makes the lexemes `pre` a
sentence. -/
structure Reaches (pre : List (Located Lexeme)) (d : Draft) : Prop where
  /-- The draft is tidy. -/
  tidy : d.Tidy
  /-- It is completed by what completes the lexemes. -/
  spells (u : List Lexeme) (t : Rule) : Sentence (pre.map (·.value) ++ u) t ↔ d.Spells u t

variable {pre : List (Located Lexeme)} {d : Draft}

theorem Reaches.viable (h : Reaches pre d) : Viable (pre.map (·.value)) := by
  obtain ⟨u, t, hu⟩ := d.exists_spells
  exact ⟨u, t, (h.spells u t).mpr hu⟩

/-- A sentence goes on with a lexeme just when what is expected names it. -/
theorem Reaches.viable_append_iff (h : Reaches pre d) (x : Lexeme) :
    Viable (pre.map (·.value) ++ [x]) ↔ ∃ w ∈ d.place.expected, w.Admits x := by
  rw [← exists_spells_cons_iff h.tidy]
  refine exists_congr fun v => exists_congr fun t => ?_
  rw [← h.spells, List.append_assoc, List.singleton_append]

/-- The lexemes are a sentence just when the draft may end. -/
theorem Reaches.sentence_iff (h : Reaches pre d) (t : Rule) :
    Sentence (pre.map (·.value)) t ↔ d.rule? = some t := by
  rw [← spells_nil_iff h.tidy, ← h.spells, List.append_nil]

/-- **Reading a rule** comes as far as sentences begin with what is read. -/
theorem exists_reaches (xs : List (Located Lexeme)) :
    ∃ pre d rest, run .rule (.start .rule) xs = (d, rest) ∧ xs = pre ++ rest ∧ Reaches pre d ∧
      ∀ x ys, rest = x :: ys → ¬ Viable (pre.map (·.value) ++ [x.value]) := by
  obtain ⟨pre, hpre, hspells, hstop⟩ := run_stops (tidy_start .rule) xs
  have hreaches : Reaches pre (run .rule (.start .rule) xs).1 :=
    ⟨run_induct Advanced.tidy .rule (tidy_start .rule) xs,
      fun u t => (sentence_iff_spells _ t).trans (hspells u t)⟩
  refine ⟨pre, _, _, rfl, hpre, hreaches, fun x ys hrest => ?_⟩
  rw [hreaches.viable_append_iff, ← isSome_advance, hstop x ys hrest]
  simp

/-- What reading a rule finds: nothing more if the lexemes are a sentence, and else where it
stops. -/
theorem Reaches.read_cases (h : Reaches pre d) {rest : List (Located Lexeme)}
    (hrun : run .rule (.start .rule) (pre ++ rest) = (d, rest))
    (hnext : ∀ x ys, rest = x :: ys → ¬ Viable (pre.map (·.value) ++ [x.value])) (stop : Nat) :
    (∃ t, Sentence ((pre ++ rest).map (·.value)) t) ∧
        (Scope.rule.read stop (pre ++ rest)).1 = d.mixed ∨
      (¬ ∃ t, Sentence ((pre ++ rest).map (·.value)) t) ∧
        (Scope.rule.read stop (pre ++ rest)).1 =
          d.mixed ++ [.ofRest stop d.place.expected rest] := by
  have hexpected : d.place.expected.filter Scope.rule.allowsExpected = d.place.expected := by
    refine List.filter_eq_self.mpr fun w _ => ?_
    cases w <;> rfl
  rw [Scope.read, hrun]
  simp only [hexpected]
  cases rest with
  | nil =>
    rw [List.append_nil]
    simp only [h.sentence_iff]
    cases hr : d.rule? with
    | some r => exact .inl ⟨⟨r, rfl⟩, rfl⟩
    | none => exact .inr ⟨by simp, rfl⟩
  | cons x ys =>
    refine .inr ⟨?_, rfl⟩
    rintro ⟨t, ht⟩
    refine hnext x ys rfl ⟨ys.map (·.value), t, ?_⟩
    simpa using ht

/-- Where reading stops before a sentence is complete, the text fails. -/
theorem Reaches.failsAt (h : Reaches pre d) (stop : Nat) {rest : List (Located Lexeme)}
    (hnext : ∀ x ys, rest = x :: ys → ¬ Viable (pre.map (·.value) ++ [x.value]))
    (hno : ¬ ∃ t, Sentence ((pre ++ rest).map (·.value)) t) (expected : List Expected) :
    ∃ found span, Diagnostic.ofRest stop expected rest = ⟨.unexpected found expected, span⟩ ∧
      FailsAt stop (pre ++ rest) pre.length found span := by
  cases rest with
  | nil =>
    rw [List.append_nil] at hno ⊢
    exact ⟨none, .point stop, rfl, .stop h.viable hno⟩
  | cons x ys =>
    refine ⟨some x.value, x.span, rfl, .lexeme (by simp) ?_ ?_⟩
    · intro j hj
      rw [List.map_append, List.take_append_of_le_length (by rwa [List.length_map])]
      exact h.viable.take j
    · have htake : ((pre ++ x :: ys).map (·.value)).take (pre.length + 1) =
          pre.map (·.value) ++ [x.value] := by
        rw [List.map_append, List.map_cons, List.take_append, List.length_map,
          List.take_of_length_le (by simp), Nat.add_sub_cancel_left, List.take_one, List.head?_cons]
        rfl
      rw [htake]
      exact hnext x ys rfl

end Draft

theorem Draft.not_isUnexpected_of_mem_mixed {d : Draft} {c : Diagnostic} (hc : c ∈ d.mixed) :
    c.value.isUnexpected = false := by
  obtain ⟨l, -, rfl⟩ := List.mem_map.mp hc
  rfl

namespace Rule

/-- What is wrong with a text that has lexemes is what reading them finds. -/
theorem diagnostics_of_lexemes {src : String} {xs : List (Located Lexeme)}
    (hsrc : Lexeme.read src = .ok xs) :
    diagnostics src = (Scope.rule.read src.utf8ByteSize xs).1 := by
  rw [diagnostics, read, hsrc]
  simp only [ofLexemes]
  split
  · rename_i r hr
    split at hr
    · rename_i hread
      rw [hread]
    · cases hr
  · rename_i ds hds
    split at hds
    · cases hds
    · rename_i hread
      cases hds
      rw [hread]

/-- **A text that is no rule has one diagnostic that says where it stops being one.** It has none if
its lexemes are a sentence, sizes aside. Otherwise the last is such, and only the last. It stands at
the first lexeme with which no sentence goes on, or at the end of the text if that begins a
sentence. The names of what is expected there start with all lexemes with which some sentence goes
on, and no others; the end of the text is among them if what is before is a sentence. -/
theorem unexpected_at_first_impossible {src : String} {xs : List (Located Lexeme)}
    (hsrc : Lexeme.read src = .ok xs) :
    let u := xs.map (·.value)
    ((∃ d ∈ diagnostics src, d.value.isUnexpected = true) ↔ ¬ ∃ t, Sentence u t) ∧
    ((¬ ∃ t, Sentence u t) → ∃ ds k found span expected,
      diagnostics src = ds ++ [⟨.unexpected found expected, span⟩] ∧
      (∀ d ∈ ds, d.value.isUnexpected = false) ∧
      FailsAt src.utf8ByteSize xs k found span ∧
      (∀ x, (∃ w ∈ expected, Starts w x) ↔ Viable (u.take k ++ [x])) ∧
      (.endOfInput ∈ expected ↔ ∃ t, Sentence (u.take k) t)) := by
  intro u
  obtain ⟨pre, d, rest, hrun, rfl, hd, hnext⟩ := Draft.exists_reaches xs
  have hmixed : ∀ c ∈ d.mixed, c.value.isUnexpected = false :=
    fun c => Draft.not_isUnexpected_of_mem_mixed
  rw [diagnostics_of_lexemes hsrc]
  rcases hd.read_cases hrun hnext src.utf8ByteSize with ⟨hyes, hds⟩ | ⟨hno, hds⟩
  · rw [hds]
    refine ⟨⟨?_, fun hno => absurd hyes hno⟩, fun hno => absurd hyes hno⟩
    rintro ⟨c, hc, hu⟩
    rw [hmixed c hc] at hu
    cases hu
  · obtain ⟨found, span, hrest, hfails⟩ :=
      hd.failsAt src.utf8ByteSize hnext hno d.place.expected
    have htake : u.take pre.length = pre.map (·.value) := by simp [u]
    rw [hds, hrest]
    refine ⟨⟨fun _ => hno, fun _ => ⟨_, List.mem_append_right _ List.mem_cons_self, rfl⟩⟩,
      fun _ => ⟨d.mixed, pre.length, found, span, d.place.expected, rfl, hmixed, hfails, ?_, ?_⟩⟩
    · intro x
      rw [htake, hd.viable_append_iff]
      simp only [admits_iff_starts]
    · rw [htake, Draft.endOfInput_mem_expected_iff, Option.isSome_iff_exists]
      simp only [hd.sentence_iff]

/-- A comma after the color of a token: there only a shape could have followed. -/
theorem unexpected_after_color :
    Lexeme.read "touch red," =
        .ok [⟨.keyword .touch, ⟨0, 5⟩⟩, ⟨.color .red, ⟨6, 9⟩⟩, ⟨.comma, ⟨9, 10⟩⟩] ∧
      diagnostics "touch red," = [⟨.unexpected (some .comma) [.shape], ⟨9, 10⟩⟩] ∧
      ∀ x, (∃ s, x = .shape s) ↔ Viable [.keyword .touch, .color .red, x] := by
  have hsrc : Lexeme.read "touch red," =
      .ok [⟨.keyword .touch, ⟨0, 5⟩⟩, ⟨.color .red, ⟨6, 9⟩⟩, ⟨.comma, ⟨9, 10⟩⟩] := by
    with_unfolding_all rfl
  have hds : diagnostics "touch red," = [⟨.unexpected (some .comma) [.shape], ⟨9, 10⟩⟩] := by
    with_unfolding_all rfl
  obtain ⟨hiff, hlast⟩ := unexpected_at_first_impossible hsrc
  have hno := hiff.mp ⟨_, by rw [hds]; exact List.mem_singleton_self _, rfl⟩
  obtain ⟨ds, k, found, span, expected, heq, -, hfails, hstarts, -⟩ := hlast hno
  rw [hds] at heq
  obtain rfl : ds = [] := by simpa using congrArg List.length heq
  cases heq
  cases hfails with
  | lexeme hx _ _ =>
    refine ⟨hsrc, hds, fun x => ?_⟩
    -- the comma is the third lexeme
    match k with
    | 0 => cases hx
    | 1 => cases hx
    | 2 =>
      have hshape := hstarts x
      simp only [List.mem_singleton, exists_eq_left] at hshape
      exact hshape
    | k + 3 => cases hx

end Rule

end BoardTrial
