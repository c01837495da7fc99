import BoardTrial.Proofs.Tiling
import BoardTrial.Proofs.Unexpected
import BoardTrial.RuleText.Complete

/-!
# What is wrong with a text

No wording of an interaction is the beginning of another, so the interactions that the beginning of
a rule completes are determined (`Grammar.Completes.unique`). Reading notes just those, in order and
with their spans (`Draft.Noted.completes`), and they stand one behind the other
(`Grammar.Completes.inOrder`). **The diagnostics of a text are those of the interactions that mix
tokens with and without a size, and after them at most one of where the text stops being a rule**
(`Rule.diagnostics_in_order`).
-/

namespace BoardTrial

open Grammar

/-! ### What is complete is determined -/

/-- What completes a phrase is the beginning of nothing else that does. -/
theorem Phrase.spells_append {α : Type} (p : Phrase α) {u w : List Lexeme} {a b : α}
    (h : p.Spells u a) (h' : p.Spells (u ++ w) b) : w = [] ∧ a = b := by
  induction u generalizing p with
  | nil =>
    rw [spells_nil_iff] at h
    cases p with
    | done c =>
      obtain rfl := Option.some.inj h
      exact ⟨h'.1, h'.2.symm⟩
    | _ => cases h
  | cons x u ih =>
    obtain ⟨q, hq, hs⟩ := (p.spells_cons_iff x u a).mp h
    obtain ⟨q', hq', hs'⟩ := (p.spells_cons_iff x (u ++ w) b).mp h'
    obtain rfl := Option.some.inj (hq.symm.trans hq')
    exact ih q hs hs'

namespace Interaction

/-- An interaction that is not uniform mixes tokens with and without a size. -/
theorem isUniform_eq (i : Interaction) : (!i.isUniform) = decide i.Mixes := by
  rw [Bool.eq_iff_iff, decide_eq_true_iff, Mixes, and_comm]
  simp [isUniform, Token.isSized, Option.isSome_iff_ne_none]

end Interaction

namespace Grammar

/-- No wording is the beginning of another. -/
theorem Leaf.append {u w : List Lexeme} {i j : Interaction} (h : Leaf u i) (h' : Leaf (u ++ w) j) :
    w = [] ∧ i = j := by
  obtain ⟨k, p, v, rfl, hp, hs⟩ := (leaf_iff_spells u i).mp h
  obtain ⟨k', p', v', heq, hp', hs'⟩ := (leaf_iff_spells _ j).mp h'
  obtain ⟨hk, rfl⟩ := List.cons.inj heq
  cases hk
  obtain rfl := Option.some.inj (hp.symm.trans hp')
  exact p.spells_append hs hs'

/-- Two interactions that begin at one place are the same. -/
theorem Leaf.eq_of_append {u u' xs xs' : List (Located Lexeme)} {i j : Interaction}
    (h : Leaf (u.map (·.value)) i) (h' : Leaf (u'.map (·.value)) j) (heq : u ++ xs = u' ++ xs') :
    u = u' ∧ xs = xs' ∧ i = j := by
  rcases List.append_eq_append_iff.mp heq with ⟨w, rfl, rfl⟩ | ⟨w, rfl, rfl⟩
  · rw [List.map_append] at h'
    obtain ⟨hw, rfl⟩ := h.append h'
    obtain rfl := List.map_eq_nil_iff.mp hw
    simp
  · rw [List.map_append] at h
    obtain ⟨hw, rfl⟩ := h'.append h
    obtain rfl := List.map_eq_nil_iff.mp hw
    simp

/-- No separator begins an interaction. -/
theorem Separator.not_leaf {x : Lexeme} (hx : Separator x) {u : List Lexeme} {i : Interaction} :
    ¬ Leaf (x :: u) i := by
  intro h
  obtain ⟨k, hk, w, heq⟩ := h.head
  obtain ⟨rfl, -⟩ := List.cons.inj heq
  cases hx with
  | or => simp [Expected.openings] at hk
  | nothing => simp [Expected.openings] at hk

theorem Covers.unique {u : List (Located Lexeme)} {s s' : Span} (h : Covers u s)
    (h' : Covers u s') : s = s' := by
  obtain ⟨⟨x, hx, hstart⟩, y, hy, hstop⟩ := h
  obtain ⟨⟨x', hx', hstart'⟩, y', hy', hstop'⟩ := h'
  obtain rfl := Option.mem_unique hx hx'
  obtain rfl := Option.mem_unique hy hy'
  obtain ⟨start, stop⟩ := s
  obtain ⟨start', stop'⟩ := s'
  simp_all

/-- What an interaction begins with has no complete interaction before its end. -/
theorem Unfinished.not_leaf {u w : List Lexeme} {i : Interaction} (h : Unfinished (u ++ w)) :
    ¬ Leaf u i := by
  intro hl
  obtain ⟨v, j, hv, hj⟩ := h
  rw [List.append_assoc] at hj
  exact hv (List.append_eq_nil_iff.mp (hl.append hj).1).2

/-- **The interactions that lexemes complete are determined**, and where they stand. -/
theorem Completes.unique {xs : List (Located Lexeme)} {ls ms : List (Located Interaction)}
    (h : Completes xs ls) (h' : Completes xs ms) : ls = ms := by
  induction h generalizing ms with
  | rest hrest =>
    cases h' with
    | rest _ => rfl
    | separator hx _ =>
      obtain ⟨v, j, -, hj⟩ := hrest
      exact absurd hj hx.not_leaf
    | leaf hl _ _ =>
      rw [List.map_append] at hrest
      exact absurd hl hrest.not_leaf
  | @separator x xs ls hx _ ih =>
    generalize hxs : x :: xs = ys at h'
    cases h' with
    | rest hrest =>
      subst hxs
      obtain ⟨v, j, -, hj⟩ := hrest
      exact absurd hj hx.not_leaf
    | separator _ h' =>
      obtain ⟨-, rfl⟩ := List.cons.inj hxs
      exact ih h'
    | @leaf u _ _ _ _ hl hc _ =>
      obtain ⟨⟨y, hy, -⟩, -⟩ := hc
      obtain ⟨u, rfl⟩ := List.head?_eq_some_iff.mp hy
      obtain ⟨rfl, -⟩ := List.cons.inj hxs
      exact absurd hl hx.not_leaf
  | @leaf u xs ls i span hl hc _ ih =>
    generalize hxs : u ++ xs = ys at h'
    cases h' with
    | rest hrest =>
      rw [← hxs, List.map_append] at hrest
      exact absurd hl hrest.not_leaf
    | @separator y _ _ hy _ =>
      obtain ⟨⟨x, hx, -⟩, -⟩ := hc
      obtain ⟨u, rfl⟩ := List.head?_eq_some_iff.mp hx
      obtain ⟨rfl, -⟩ := List.cons.inj hxs
      exact absurd hl hy.not_leaf
    | leaf hl' hc' h' =>
      obtain ⟨rfl, rfl, rfl⟩ := hl.eq_of_append hl' hxs
      rw [hc.unique hc', ih h']

end Grammar

/-! ### Reading notes what is complete -/

/-- Behind the lexemes `u`, which complete the interactions `ls`, others complete theirs. -/
def Grammar.Closed (u : List (Located Lexeme)) (ls : List (Located Interaction)) : Prop :=
  ∀ v ms, Completes v ms → Completes (u ++ v) (ls ++ ms)

namespace Grammar.Closed

variable {u : List (Located Lexeme)} {ls : List (Located Interaction)}

theorem nil : Closed [] [] := fun _ _ h => h

theorem separator (h : Closed u ls) {x : Located Lexeme} (hx : Separator x.value) :
    Closed (u ++ [x]) ls := by
  intro v ms hv
  rw [List.append_assoc]
  exact h _ _ (.separator hx hv)

theorem leaf (h : Closed u ls) {w : List (Located Lexeme)} {i : Interaction} {span : Span}
    (hl : Leaf (w.map (·.value)) i) (hc : Covers w span) :
    Closed (u ++ w) (ls ++ [⟨i, span⟩]) := by
  intro v ms hv
  rw [List.append_assoc, List.append_assoc]
  exact h _ _ (.leaf hl hc hv)

/-- What is left may begin an interaction. -/
theorem completes (h : Closed u ls) {w : List (Located Lexeme)}
    (hw : Unfinished (w.map (·.value))) : Completes (u ++ w) ls := by
  simpa using h w [] (.rest hw)

end Grammar.Closed

/-- Nothing begins every interaction. -/
theorem Grammar.unfinished_nil : Unfinished [] :=
  ⟨_, _, List.cons_ne_nil _ _, .touch ⟨.red, .circle, none⟩⟩

namespace Draft

variable {pre : List (Located Lexeme)} {d e : Draft} {x : Located Lexeme}

/-- `d.Noted pre`: the leaves of the draft are what the lexemes `pre` complete. An interaction that
is being read began where the draft says, and what is left of it completes a wording. -/
def Noted (d : Draft) (pre : List (Located Lexeme)) : Prop :=
  match d.place with
  | .inLeaf _ start p => ∃ u y v, pre = u ++ y :: v ∧ Closed u d.leaves ∧ start = y.span.start ∧
      p.value? = none ∧ ∀ w i, p.Spells w i → Leaf ((y :: v).map (·.value) ++ w) i
  | _ => Closed pre d.leaves

/-- The leaves noted are all that is complete. -/
theorem Noted.completes (h : d.Noted pre) : Completes pre d.leaves := by
  unfold Noted at h
  split at h
  · obtain ⟨u, y, v, rfl, hu, -, hv, hw⟩ := h
    refine hu.completes ?_
    obtain ⟨w, i, hs⟩ := Phrase.exists_spells _
    refine ⟨w, i, ?_, hw w i hs⟩
    rintro rfl
    rw [Phrase.spells_nil_iff, hv] at hs
    cases hs
  · simpa using h.completes (w := []) unfinished_nil

theorem noted_of_beginLeaf {first : Option Interaction} (h : Closed pre d.leaves)
    (he : d.beginLeaf first x = some e) : e.Noted (pre ++ [x]) := by
  unfold beginLeaf at he
  split at he
  · rename_i k hx
    obtain ⟨p, hp, rfl⟩ := Option.map_eq_some_iff.mp he
    refine ⟨pre, x, [], rfl, h, rfl, Phrase.value?_of_ofOpening? hp, fun w i hs => ?_⟩
    exact (leaf_iff_spells _ i).mpr ⟨k, p, w, by simp [hx], hp, hs⟩
  · cases he

theorem noted_of_continueLeaf {first : Option Interaction} {start : Nat} {p : Phrase Interaction}
    (h : d.Noted pre) (hp : d.place = .inLeaf first start p)
    (he : d.continueLeaf first start p x = some e) : e.Noted (pre ++ [x]) := by
  rw [Noted, hp] at h
  obtain ⟨u, y, v, rfl, hu, rfl, -, hw⟩ := h
  obtain ⟨q, hq, rfl⟩ := Option.map_eq_some_iff.mp he
  have hleaf : ∀ w i, q.Spells w i → Leaf ((y :: (v ++ [x])).map (·.value) ++ w) i := by
    intro w i hs
    simpa using hw _ i ((p.spells_cons_iff x.value w i).mpr ⟨q, hq, hs⟩)
  have hpre : u ++ y :: v ++ [x] = u ++ y :: (v ++ [x]) := by simp
  rw [hpre]
  cases hv : q.value? with
  | none => exact ⟨u, y, v ++ [x], rfl, hu, rfl, hv, hleaf⟩
  | some i =>
    have hclosed : Closed (u ++ y :: (v ++ [x])) (d.leaves ++ [⟨i, ⟨y.span.start, x.span.stop⟩⟩]) :=
      hu.leaf (by simpa using hleaf [] i ((q.spells_nil_iff i).mpr hv))
        ⟨⟨y, rfl, rfl⟩, x, List.getLast?_concat (l := y :: v), rfl⟩
    cases first <;> exact hclosed

theorem noted_of_leaveClause {r : Rule} (h : Closed pre d.leaves)
    (he : d.leaveClause r x.value = some e) : e.Noted (pre ++ [x]) := by
  cases hx : x.value with
  | comma =>
    rw [hx] at he
    cases he
    exact h.separator (hx ▸ .comma)
  | newline =>
    rw [hx] at he
    cases he
    exact h.separator (hx ▸ .newline)
  | _ =>
    rw [hx] at he
    cases he

/-- Where a rule begins, nothing but a separator comes before an interaction. -/
theorem noted_of_begin (h : Closed pre d.leaves) (he : (match x.value with
      | .newline => some { d with place := .blank }
      | .keyword .nothing => some { d with place := .afterNothing }
      | _ => d.beginLeaf none x) = some e) : e.Noted (pre ++ [x]) := by
  split at he
  · rename_i hx
    cases he
    exact h.separator (hx ▸ .newline)
  · rename_i hx
    cases he
    exact h.separator (hx ▸ .nothing)
  · exact noted_of_beginLeaf h he

/-- **One lexeme** completes an interaction that is noted, or none. -/
theorem Noted.advance (h : d.Noted pre) (he : d.advance x = some e) : e.Noted (pre ++ [x]) := by
  obtain ⟨S, C, L, place⟩ := d
  cases place with
  | opening => exact noted_of_begin h he
  | blank => exact noted_of_begin h he
  | afterNothing =>
    simp only [Draft.advance] at he
    split at he
    · rename_i hx
      cases he
      exact Closed.separator h (hx ▸ .newline)
    · cases he
  | lineStart =>
    simp only [Draft.advance] at he
    split at he
    · rename_i hx
      cases he
      exact Closed.separator h (hx ▸ .newline)
    · exact noted_of_beginLeaf h he
  | leafStart part first => exact noted_of_beginLeaf h he
  | inLeaf first start p => exact noted_of_continueLeaf h rfl he
  | afterLeaf i =>
    simp only [Draft.advance] at he
    split at he
    · rename_i hx
      cases he
      exact Closed.separator h (hx ▸ .or)
    · exact noted_of_leaveClause h he
  | afterAlternative i j => exact noted_of_leaveClause h he

/-- **Reading** notes the interactions that are complete. -/
theorem Noted.run (h : d.Noted pre) (s : Scope) {xs rest : List (Located Lexeme)}
    (hrun : Draft.run s d xs = (e, rest)) : ∃ u, xs = u ++ rest ∧ e.Noted (pre ++ u) := by
  induction xs generalizing d pre with
  | nil =>
    cases hrun
    exact ⟨[], rfl, by rwa [List.append_nil]⟩
  | cons x xs ih =>
    rw [Draft.run] at hrun
    split at hrun
    · rename_i d' hd'
      split at hd'
      · obtain ⟨u, rfl, hu⟩ := ih (h.advance hd') hrun
        exact ⟨x :: u, rfl, by rwa [List.append_cons]⟩
      · cases hd'
    · cases hrun
      exact ⟨[], rfl, by rwa [List.append_nil]⟩

theorem noted_start (s : Scope) : (start s).Noted [] := by
  cases s <;> exact Closed.nil

/-- Reading only adds to the leaves. -/
theorem Advanced.leaves_isPrefix (h : Advanced x d e) : d.leaves <+: e.leaves := by
  cases h with
  | completes _ _ => exact List.prefix_append _ _
  | _ => exact List.prefix_rfl

/-- The leaves noted are the first of each rule that completes the draft. -/
theorem leaves_isPrefix (hd : d.Tidy) (hn : d.Notes) {u : List Lexeme} {t : Rule}
    (h : d.Spells u t) : d.leaves.map (·.value) <+: t.leaves := by
  have hu : u = (u.map fun l => (⟨l, .point 0⟩ : Located Lexeme)).map (·.value) := by
    simp [Function.comp_def]
  rw [hu] at h
  obtain ⟨e, hrun, ht⟩ := (spells_iff_run .rule hd _ t).mp ⟨fun _ _ => rfl, h⟩
  have hkeep {P : Draft → Prop} (hP : ∀ {x d e}, Advanced x d e → P d → P e) (h : P d) : P e := by
    have := run_induct hP .rule h (u.map fun l => (⟨l, .point 0⟩ : Located Lexeme))
    rwa [hrun] at this
  rw [leaves_of_rule? (hkeep Advanced.tidy hd) (hkeep Advanced.notes hn) ht]
  exact (hkeep (P := fun e => d.leaves <+: e.leaves)
    (fun hx hp => hp.trans hx.leaves_isPrefix) List.prefix_rfl).map _

end Draft

/-! ### Where diagnostics stand -/

/-- Not empty, and one behind the other. -/
def InOrder {α : Type} (xs : List (Located α)) : Prop :=
  (∀ x ∈ xs, x.span.start < x.span.stop) ∧ xs.Pairwise fun x y => x.span.stop ≤ y.span.start

theorem inOrder_append_iff {α : Type} (xs ys : List (Located α)) :
    InOrder (xs ++ ys) ↔ InOrder xs ∧ InOrder ys ∧
      ∀ x ∈ xs, ∀ y ∈ ys, x.span.stop ≤ y.span.start := by
  simp only [InOrder, List.forall_mem_append, List.pairwise_append]
  tauto

/-- In a list in order nothing starts before the first. -/
theorem InOrder.start_le {α : Type} {xs : List (Located α)} {x y : Located α} (h : InOrder xs)
    (hx : x ∈ xs.head?) (hy : y ∈ xs) : x.span.start ≤ y.span.start := by
  obtain ⟨zs, rfl⟩ := List.head?_eq_some_iff.mp hx
  rcases List.mem_cons.mp hy with rfl | hy
  · exact le_rfl
  · exact (h.1 x List.mem_cons_self).le.trans ((List.pairwise_cons.mp h.2).1 y hy)

namespace Grammar

variable {xs : List (Located Lexeme)} {ls : List (Located Interaction)}

/-- A complete interaction stands from the first to the last of the lexemes that say it. -/
theorem Completes.exists_leaf (h : Completes xs ls) {l : Located Interaction} (hl : l ∈ ls) :
    ∃ a u b, xs = a ++ u ++ b ∧ Leaf (u.map (·.value)) l.value ∧ Covers u l.span := by
  induction h with
  | rest => cases hl
  | @separator x _ _ _ _ ih =>
    obtain ⟨a, u, b, rfl, h⟩ := ih hl
    exact ⟨x :: a, u, b, rfl, h⟩
  | @leaf u xs _ _ _ hleaf hc _ ih =>
    rcases List.mem_cons.mp hl with rfl | hl
    · exact ⟨[], u, xs, rfl, hleaf, hc⟩
    · obtain ⟨a, u', b, rfl, h⟩ := ih hl
      exact ⟨u ++ a, u', b, by simp, h⟩

/-- A complete interaction stands from one of the lexemes to one of them. -/
theorem Completes.mem (h : Completes xs ls) {l : Located Interaction} (hl : l ∈ ls) :
    ∃ x ∈ xs, ∃ y ∈ xs, l.span.start = x.span.start ∧ l.span.stop = y.span.stop := by
  obtain ⟨a, u, b, rfl, -, ⟨x, hx, hstart⟩, y, hy, hstop⟩ := h.exists_leaf hl
  have hmem {z : Located Lexeme} (hz : z ∈ u) : z ∈ a ++ u ++ b := by simp [hz]
  exact ⟨x, hmem (List.mem_of_mem_head? hx), y, hmem (List.mem_of_mem_getLast? hy), hstart, hstop⟩

/-- **Complete interactions stand one behind the other**, as the lexemes do. -/
theorem Completes.inOrder (h : Completes xs ls) (hxs : InOrder xs) : InOrder ls := by
  induction h with
  | rest => exact ⟨by simp, .nil⟩
  | separator _ _ ih => exact ih ((inOrder_append_iff [_] _).mp hxs).2.1
  | @leaf u xs ls i span _ hc hrest ih =>
    obtain ⟨hu, hxs, hbetween⟩ := (inOrder_append_iff u xs).mp hxs
    obtain ⟨⟨x, hx, hstart⟩, y, hy, hstop⟩ := hc
    have hy' : y ∈ u := List.mem_of_mem_getLast? hy
    refine (inOrder_append_iff [_] ls).mpr ⟨⟨?_, List.pairwise_singleton _ _⟩, ih hxs, ?_⟩
    · intro l hl
      obtain rfl := List.mem_singleton.mp hl
      have hfirst := hu.start_le hx hy'
      have hlast := hu.1 y hy'
      show span.start < span.stop
      omega
    · intro l hl m hm
      obtain rfl := List.mem_singleton.mp hl
      obtain ⟨z, hz, -, -, hmstart, -⟩ := hrest.mem hm
      have hnext := hbetween y hy' z hz
      show span.stop ≤ m.span.start
      omega

end Grammar

namespace Span

variable {s t : Span} {src : String}

theorem Marks.le (h : s.Marks src) : s.start ≤ s.stop ∧ s.stop ≤ src.utf8ByteSize := by
  obtain ⟨p, w, q, hsrc, rfl⟩ := h
  rw [← Lexeme.utf8Len_toList, hsrc]
  simp only [behind, String.utf8Len_append]
  omega

theorem eq_of_utf8Len {p p' q q' : List Char} (h : p ++ q = p' ++ q')
    (hlen : String.utf8Len p = String.utf8Len p') : p = p' ∧ q = q' := by
  rcases List.append_eq_append_iff.mp h with ⟨v, rfl, rfl⟩ | ⟨v, rfl, rfl⟩
  · rw [String.utf8Len_append] at hlen
    obtain rfl : v = [] := String.utf8Len_eq_zero.mp (by omega)
    simp
  · rw [String.utf8Len_append] at hlen
    obtain rfl : v = [] := String.utf8Len_eq_zero.mp (by omega)
    simp

/-- A place in a text is that of one stretch. -/
theorem behind_inj {p p' w w' q q' : List Char} (h : p ++ w ++ q = p' ++ w' ++ q')
    (hspan : behind p w = behind p' w') : p = p' ∧ w = w' ∧ q = q' := by
  obtain ⟨hstart, hstop⟩ := Span.mk.inj hspan
  rw [List.append_assoc, List.append_assoc] at h
  obtain ⟨rfl, hrest⟩ := eq_of_utf8Len h hstart
  obtain ⟨rfl, rfl⟩ := eq_of_utf8Len hrest (by omega)
  exact ⟨rfl, rfl, rfl⟩

/-- A span that starts with one stretch and stops with another. -/
theorem Marks.span (hs : s.Marks src) (ht : t.Marks src) (h : s.start ≤ t.stop) :
    Marks ⟨s.start, t.stop⟩ src := by
  obtain ⟨p, w, q, hp, rfl⟩ := hs
  obtain ⟨p', w', q', hp', rfl⟩ := ht
  have heq : p ++ (w ++ q) = p' ++ w' ++ q' := by rw [← List.append_assoc, ← hp, hp']
  rw [Marks, hp']
  simp only [behind] at h ⊢
  rcases List.append_eq_append_iff.mp heq with ⟨v, hv, -⟩ | ⟨v, rfl, -⟩
  · refine ⟨p, v, q', by rw [hv], ?_⟩
    rw [← String.utf8Len_append, hv, String.utf8Len_append]
  · -- the first stretch starts behind the second, at its end
    simp only [String.utf8Len_append] at h ⊢
    obtain rfl : v = [] := String.utf8Len_eq_zero.mp (by omega)
    exact ⟨p' ++ w', [], q', by simp, by simp⟩

theorem marks_end (src : String) : (point src.utf8ByteSize).Marks src :=
  ⟨src.toList, [], [], by simp, by simp [behind, point]⟩

end Span

namespace Lexeme

variable {src : String} {xs : List (Located Lexeme)}

theorem inOrder_of_read (h : read src = .ok xs) : InOrder xs :=
  ⟨fun _ hx => ((tiles_of_read h).span_lt hx).1, (tiles_of_read h).pairwise⟩

theorem marks_of_read (h : read src = .ok xs) {x : Located Lexeme} (hx : x ∈ xs) :
    x.span.Marks src := by
  obtain ⟨a, w, b, hsrc, hspan, -⟩ := (tiles_of_read h).stands hx
  exact ⟨a, w, b, hsrc, hspan⟩

end Lexeme

namespace Rule

/-- A text that is read to its end has no more diagnostics than are found. -/
theorem error_ne_nil {src : String} {ds : List Diagnostic} (h : read src = .error ds) :
    ds ≠ [] := by
  rintro rfl
  rw [read] at h
  split at h
  · cases h
  · rename_i xs _
    unfold ofLexemes at h
    split at h
    · cases h
    · rename_i o hne hread
      cases h
      cases o with
      | some r => exact hne r rfl rfl
      | none =>
        unfold Scope.read at hread
        split at hread
        split at hread <;> simp at hread

/-- A text is read as a rule just when nothing is wrong with it. -/
theorem exists_read_iff (src : String) : (∃ t, read src = .ok t) ↔ diagnostics src = [] := by
  cases h : read src with
  | ok t => simp [diagnostics, h]
  | error ds => simp [diagnostics, h, error_ne_nil h]

end Rule

theorem Draft.mixed_eq (d : Draft) : d.mixed = Diagnostic.mixedSizes d.leaves := by
  rw [mixed, Diagnostic.mixedSizes]
  simp only [Interaction.isUniform_eq]

theorem Diagnostic.mem_mixedSizes {ls : List (Located Interaction)} {c : Diagnostic}
    (h : c ∈ mixedSizes ls) : ∃ l ∈ ls, c.span = l.span := by
  obtain ⟨l, hl, rfl⟩ := List.mem_map.mp h
  exact ⟨l, (List.mem_filter.mp hl).1, rfl⟩

/-- Where they stand, the interactions that are complete are in reading order, and what is wrong
with them too. -/
theorem Diagnostic.pairwise_mixedSizes {ls : List (Located Interaction)} (h : InOrder ls) :
    (mixedSizes ls).Pairwise fun c d => c.span.Before d.span := by
  rw [mixedSizes, List.pairwise_map]
  refine (h.2.imp_of_mem fun hl _ hle => ?_).filter _
  exact ⟨(h.1 _ hl).trans_le hle, hle⟩

namespace Rule

variable {src : String} {pre rest : List (Located Lexeme)} {ls : List (Located Interaction)}

/-- What a text ends in is behind what has been read of it. -/
theorem stop_le_ofRest (hsrc : Lexeme.read src = .ok (pre ++ rest)) {x : Located Lexeme}
    (hx : x ∈ pre) (expected : List Expected) :
    x.span.stop ≤ (Diagnostic.ofRest src.utf8ByteSize expected rest).span.start := by
  cases rest with
  | nil =>
    rw [List.append_nil] at hsrc
    exact (Lexeme.marks_of_read hsrc hx).le.2
  | cons y ys =>
    have hxs := (inOrder_append_iff _ _).mp (Lexeme.inOrder_of_read hsrc)
    exact hxs.2.2 x hx y List.mem_cons_self

theorem marks_ofRest (hsrc : Lexeme.read src = .ok (pre ++ rest)) (expected : List Expected) :
    (Diagnostic.ofRest src.utf8ByteSize expected rest).span.Marks src := by
  cases rest with
  | nil => exact Span.marks_end src
  | cons y ys => exact Lexeme.marks_of_read hsrc (by simp)

/-- Diagnostics are well placed if those of the complete interactions come first, and behind them at
most that of the lexeme that cannot follow. -/
theorem well_placed_of_completes (hsrc : Lexeme.read src = .ok (pre ++ rest))
    (hls : Completes pre ls) {ends : List Diagnostic}
    (hends : ends = [] ∨ ∃ expected, ends = [.ofRest src.utf8ByteSize expected rest]) :
    (∀ c ∈ Diagnostic.mixedSizes ls ++ ends, c.span.Marks src) ∧
      (Diagnostic.mixedSizes ls ++ ends).Pairwise fun c d => c.span.Before d.span := by
  have hin : InOrder ls :=
    hls.inOrder ((inOrder_append_iff _ _).mp (Lexeme.inOrder_of_read hsrc)).1
  have hmark : ∀ l ∈ ls, l.span.Marks src := by
    intro l hl
    obtain ⟨x, hx, y, hy, hstart, hstop⟩ := hls.mem hl
    have hx := Lexeme.marks_of_read hsrc (List.mem_append_left _ hx)
    have hy := Lexeme.marks_of_read hsrc (List.mem_append_left _ hy)
    have hlt := hin.1 l hl
    have hspan := hx.span hy (by omega)
    rwa [← hstart, ← hstop] at hspan
  constructor
  · intro c hc
    rcases List.mem_append.mp hc with hc | hc
    · obtain ⟨l, hl, hspan⟩ := Diagnostic.mem_mixedSizes hc
      rw [hspan]
      exact hmark l hl
    · rcases hends with rfl | ⟨expected, rfl⟩
      · cases hc
      · obtain rfl := List.mem_singleton.mp hc
        exact marks_ofRest hsrc expected
  · refine List.pairwise_append.mpr ⟨Diagnostic.pairwise_mixedSizes hin, ?_, fun c hc d hd => ?_⟩
    · rcases hends with rfl | ⟨expected, rfl⟩
      · exact .nil
      · exact List.pairwise_singleton _ _
    · rcases hends with rfl | ⟨expected, rfl⟩
      · cases hd
      · obtain rfl := List.mem_singleton.mp hd
        obtain ⟨l, hl, hspan⟩ := Diagnostic.mem_mixedSizes hc
        obtain ⟨-, -, y, hy, -, hstop⟩ := hls.mem hl
        have hlt := hin.1 l hl
        have hle := stop_le_ofRest hsrc hy expected
        rw [hspan, Span.Before]
        omega

/-- What reading the lexemes of a text finds: what is complete before the first lexeme that cannot
follow, and that lexeme, unless the text is a sentence. -/
theorem exists_diagnoses {xs : List (Located Lexeme)} (hsrc : Lexeme.read src = .ok xs) :
    ∃ pre rest ls, xs = pre ++ rest ∧ Stops pre rest ∧ Completes pre ls ∧
      (∀ u t, Sentence (pre.map (·.value) ++ u) t → ls.map (·.value) <+: t.leaves) ∧
      ((∃ t, Sentence (xs.map (·.value)) t) ∧ diagnostics src = Diagnostic.mixedSizes ls ∨
        (¬ ∃ t, Sentence (xs.map (·.value)) t) ∧ ∃ found span expected,
          diagnostics src = Diagnostic.mixedSizes ls ++ [⟨.unexpected found expected, span⟩] ∧
          FailsAt src.utf8ByteSize xs pre.length found span ∧
          Diagnostic.ofRest src.utf8ByteSize expected rest =
            ⟨.unexpected found expected, span⟩) := by
  obtain ⟨pre, d, rest, hrun, rfl, hd, hnext⟩ := Draft.exists_reaches xs
  obtain ⟨u, heq, hnoted⟩ := (Draft.noted_start .rule).run .rule hrun
  obtain rfl := List.append_cancel_right heq
  have hnotes : d.Notes := by
    have h := Draft.run_induct Draft.Advanced.notes .rule (Draft.notes_start .rule) (pre ++ rest)
    rwa [hrun] at h
  refine ⟨pre, rest, d.leaves, rfl, ⟨hd.viable, fun x hx => ?_⟩, hnoted.completes, ?_, ?_⟩
  · obtain ⟨ys, rfl⟩ := List.head?_eq_some_iff.mp hx
    exact hnext x ys rfl
  · intro u t h
    exact Draft.leaves_isPrefix hd.tidy hnotes ((hd.spells u t).mp h)
  · rw [diagnostics_of_lexemes hsrc, ← d.mixed_eq]
    rcases hd.read_cases hrun hnext src.utf8ByteSize with h | ⟨hno, h⟩
    · exact .inl h
    · obtain ⟨found, span, hrest, hfails⟩ :=
        hd.failsAt src.utf8ByteSize hnext hno d.place.expected
      exact .inr ⟨hno, found, span, d.place.expected, by rw [h, hrest], hfails, hrest⟩

/-- **Diagnostics are well placed**, whatever is wrong. -/
theorem well_placed {ds : List Diagnostic} (h : read src = .error ds) :
    (∀ c ∈ ds, c.span.Marks src) ∧ ds.Pairwise fun c d => c.span.Before d.span := by
  cases hsrc : Lexeme.read src with
  | error s =>
    rw [read, hsrc] at h
    cases h
    obtain ⟨p, q, hp, hoff, -⟩ := Lexeme.offends_of_read hsrc
    refine ⟨fun c hc => ?_, List.pairwise_singleton _ _⟩
    obtain rfl := List.mem_singleton.mp hc
    refine ⟨p, [s.char], q, by simp [hp], ?_⟩
    show s.span = _
    rw [Lexeme.Stray.span, hoff, Span.behind, Lexeme.utf8Len_singleton]
  | ok xs =>
    obtain ⟨pre, rest, ls, rfl, -, hls, -, hfound⟩ := exists_diagnoses hsrc
    rw [show diagnostics src = ds by rw [diagnostics, h]] at hfound
    rcases hfound with ⟨-, rfl⟩ | ⟨-, found, span, expected, rfl, -, hrest⟩
    · simpa using well_placed_of_completes hsrc hls (.inl rfl)
    · exact well_placed_of_completes hsrc hls (.inr ⟨expected, by rw [hrest]⟩)

/-- **The diagnostics of a text are complete, in order and well placed.** The lexemes of a text have
a longest beginning that begins a sentence, and that determines which interactions are complete
there and where. They are the first of each rule that goes on from there. The diagnostics are those
of the complete interactions that mix tokens with and without a size, in reading order, and, unless
the text is a sentence, that of the lexeme that cannot follow. A text is a rule just when it has no
diagnostics. Of one that is none, lexemes or not, each diagnostic marks a stretch between two
characters, and they stand one behind the other. -/
theorem diagnostics_in_order (src : String) :
    (∀ xs, Lexeme.read src = .ok xs → ∃ pre rest ls ends, xs = pre ++ rest ∧ Stops pre rest ∧
      (∀ ms, Completes pre ms ↔ ms = ls) ∧
      (∀ u t, Sentence (pre.map (·.value) ++ u) t → ls.map (·.value) <+: t.leaves) ∧
      diagnostics src = Diagnostic.mixedSizes ls ++ ends ∧
      ((∃ t, Sentence (xs.map (·.value)) t) ∧ ends = [] ∨
        (¬ ∃ t, Sentence (xs.map (·.value)) t) ∧ ∃ found span expected,
          ends = [⟨.unexpected found expected, span⟩] ∧
          FailsAt src.utf8ByteSize xs pre.length found span)) ∧
    ((∃ t, read src = .ok t) ↔ diagnostics src = []) ∧
    ∀ ds, read src = .error ds → ds ≠ [] ∧
      (∀ c ∈ ds, c.span.start ≤ c.span.stop ∧ c.span.stop ≤ src.utf8ByteSize ∧ c.span.Marks src) ∧
      ds.Pairwise fun c d => c.span.Before d.span := by
  refine ⟨fun xs hsrc => ?_, exists_read_iff src, fun ds hds => ⟨error_ne_nil hds, ?_⟩⟩
  · obtain ⟨pre, rest, ls, rfl, hstops, hls, hleaves, hfound⟩ := exists_diagnoses hsrc
    have hiff : ∀ ms, Completes pre ms ↔ ms = ls :=
      fun ms => ⟨fun hms => hms.unique hls, fun hms => hms ▸ hls⟩
    rcases hfound with ⟨hyes, hds⟩ | ⟨hno, found, span, expected, hds, hfails, -⟩
    · exact ⟨pre, rest, ls, [], rfl, hstops, hiff, hleaves, by rw [hds, List.append_nil],
        .inl ⟨hyes, rfl⟩⟩
    · exact ⟨pre, rest, ls, _, rfl, hstops, hiff, hleaves, hds,
        .inr ⟨hno, found, span, expected, rfl, hfails⟩⟩
  · obtain ⟨hmarks, hbefore⟩ := well_placed hds
    exact ⟨fun c hc => ⟨(hmarks c hc).le.1, (hmarks c hc).le.2, hmarks c hc⟩, hbefore⟩

end Rule

end BoardTrial
