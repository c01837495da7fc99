import BoardTrial.Proofs.Endings
import Mathlib.Data.List.Basic

/-!
# Scripts are read line by line, and played whole

A text whose first piece ends with a line is read piece by piece (`Script.read_append`): the first
bad line counts, and lines are numbered on from piece to piece, those that say nothing too. So a
script is what its lines say one after another. A session to which a script is played parses it
first, and then receives all its gestures in order, whatever else happens to it meanwhile, unless
its queue goes (`Session.received_of_notifyAll`).
-/

namespace BoardTrial

/-! ### Lines of a text in two pieces -/

/-- A text that is empty or ends with a newline: another text behind it begins a line. -/
def EndsLine (cs : List Char) : Prop := cs = [] ∨ cs.getLast? = some '\n'

theorem EndsLine.of_cons {c : Char} {cs : List Char} (h : EndsLine (c :: cs)) : EndsLine cs := by
  cases cs with
  | nil => exact .inl rfl
  | cons d cs =>
    have hlast := h.resolve_left (List.cons_ne_nil _ _)
    rw [List.getLast?_cons_cons] at hlast
    exact .inr hlast

theorem EndsLine.ne_nil {c : Char} {cs : List Char} (h : EndsLine (c :: cs)) (hc : c ≠ '\n') :
    cs ≠ [] := by
  rintro rfl
  rcases h with h | h
  · cases h
  · exact hc (Option.some.inj h)

theorem linesOf_append {a : List Char} (b : List Char) (h : EndsLine a) :
    linesOf (a ++ b) = linesOf a ++ linesOf b := by
  induction a with
  | nil => rfl
  | cons c a ih =>
    rw [List.cons_append, linesOf, linesOf, ih h.of_cons]
    split
    · rfl
    · rename_i hc
      cases hl : linesOf a with
      | nil => exact absurd hl (linesOf_ne_nil (h.ne_nil hc))
      | cons l ls => rfl

theorem length_linesOf {a : List Char} (h : EndsLine a) : (linesOf a).length = a.count '\n' := by
  induction a with
  | nil => rfl
  | cons c a ih =>
    rw [linesOf]
    split
    · rename_i hc
      rw [List.length_cons, ih h.of_cons, hc, List.count_cons_self]
    · rename_i hc
      rw [List.count_cons_of_ne hc, ← ih h.of_cons]
      cases hl : linesOf a with
      | nil => exact absurd hl (linesOf_ne_nil (h.ne_nil hc))
      | cons l ls => rfl

/-- A line with its newline is one line. -/
theorem linesOf_line {l : List Char} (h : '\n' ∉ l) : linesOf (l ++ ['\n']) = [l ++ ['\n']] := by
  induction l with
  | nil => rfl
  | cons c l ih =>
    rw [List.mem_cons, not_or] at h
    rw [List.cons_append, linesOf, if_neg (Ne.symm h.1), ih h.2]

theorem linesOf_last {l : List Char} (h : '\n' ∉ l) (hne : l ≠ []) : linesOf l = [l] := by
  induction l with
  | nil => exact absurd rfl hne
  | cons c l ih =>
    rw [List.mem_cons, not_or] at h
    rw [linesOf, if_neg (Ne.symm h.1)]
    cases l with
    | nil => rfl
    | cons d l => rw [ih h.2 (List.cons_ne_nil _ _)]

theorem endsLine_line (l : List Char) : EndsLine (String.ofList (l ++ ['\n'])).toList := by
  rw [String.toList_ofList]
  exact .inr List.getLast?_concat

theorem count_line {l : List Char} (h : '\n' ∉ l) :
    (String.ofList (l ++ ['\n'])).toList.count '\n' = 1 := by
  rw [String.toList_ofList, List.count_append, List.count_eq_zero.mpr h]
  rfl

/-! ### Lines that say nothing -/

theorem trimRight_cons {c : Char} (h : isBlank c = false) (cs : List Char) :
    trimRight (c :: cs) = c :: trimRight cs := by
  have hdrop : (cs.reverse ++ [c]).dropWhile isBlank = cs.reverse.dropWhile isBlank ++ [c] := by
    rw [List.dropWhile_append]
    split
    · rename_i hempty
      rw [List.isEmpty_iff.mp hempty, List.dropWhile_cons_of_neg (by rw [h]; decide)]
      rfl
    · rfl
  rw [trimRight, List.reverse_cons, hdrop, List.reverse_append]
  rfl

namespace Script

/-- A line says nothing if nothing is left of it without the blanks around it, or `#` comes first
then. -/
theorem isSilent_iff_trim (l : List Char) :
    isSilent l = true ↔ trim l = [] ∨ (trim l).head? = some '#' := by
  rw [isSilent, trim]
  cases hl : l.dropWhile isBlank with
  | nil => simp [trimRight]
  | cons c cs =>
    have hc : isBlank c = false := by
      have h := List.head?_dropWhile_not isBlank l
      rwa [hl] at h
    rw [trimRight_cons hc]
    simp

/-- Whether a line says nothing hangs on its first character that is not blank. -/
theorem isSilent_eq (l : List Char) :
    isSilent l = (l.dropWhile isBlank).head?.all (· == '#') := by
  rw [isSilent]
  cases l.dropWhile isBlank <;> rfl

theorem isSilent_append_cr (l : List Char) : isSilent (l ++ ['\r']) = isSilent l := by
  rw [isSilent_eq, isSilent_eq, List.dropWhile_append]
  split
  · rename_i hempty
    rw [List.isEmpty_iff.mp hempty]
    rfl
  · rename_i hne
    rw [List.head?_append_of_ne_nil _ (by simpa using hne)]

theorem dropLineEnd_line (l : List Char) :
    dropLineEnd (l ++ ['\n']) = l ∨ l = dropLineEnd (l ++ ['\n']) ++ ['\r'] := by
  rw [dropLineEnd, List.reverse_append]
  cases hr : l.reverse with
  | nil => exact .inl (List.reverse_eq_nil_iff.mp hr).symm
  | cons c rest =>
    have hl : l = rest.reverse ++ [c] := by rw [← List.reverse_cons, ← hr, List.reverse_reverse]
    by_cases hc : c = '\r'
    · subst hc
      exact .inr hl
    · left
      rw [hl]
      simp [hc]

theorem dropLineEnd_last {l : List Char} (h : '\n' ∉ l) : dropLineEnd l = l := by
  rw [← List.mem_reverse] at h
  rw [dropLineEnd]
  split
  · rename_i hr
    exact absurd (by simp [hr]) h
  · rename_i hr
    exact absurd (by simp [hr]) h
  · rfl

theorem isSilent_dropLineEnd (l : List Char) :
    isSilent (dropLineEnd (l ++ ['\n'])) = isSilent l := by
  rcases dropLineEnd_line l with h | h
  · rw [h]
  · conv_rhs => rw [h]
    exact (isSilent_append_cr _).symm

/-! ### Reading -/

/-- What is on a line: at most one gesture. -/
theorem readLines_singleton (n : Nat) (l : List Char) : readLines n [l] =
    if isSilent (dropLineEnd l) then .ok [] else (readLine n (dropLineEnd l)).map ([·]) := by
  rw [readLines]
  split
  · rfl
  · cases readLine n (dropLineEnd l) <;> rfl

theorem readLines_append (n : Nat) (ls ms : List (List Char)) :
    readLines n (ls ++ ms) = do
      let gs ← readLines n ls
      let hs ← readLines (n + ls.length) ms
      return gs ++ hs := by
  induction ls generalizing n with
  | nil =>
    simp only [List.nil_append, readLines, List.length_nil, Nat.add_zero]
    exact (bind_pure _).symm
  | cons l ls ih =>
    have hnumber : n + (l :: ls).length = n + 1 + ls.length := by
      rw [List.length_cons]
      omega
    rw [List.cons_append, readLines, readLines, hnumber, ih]
    split
    · rfl
    · simp only [bind_assoc, pure_bind, List.cons_append]

end Script

/-- The same problem, `k` lines further down. -/
def ScriptError.below (k : Nat) (e : ScriptError) : ScriptError := ⟨k + e.line, e.problem⟩

namespace Script

theorem readLine_add (k n : Nat) (l : List Char) :
    readLine (k + n) l = (readLine n l).mapError (.below k) := by
  rw [readLine, readLine]
  cases Gesture.read l <;> rfl

theorem readLines_add (k n : Nat) (ls : List (List Char)) :
    readLines (k + n) ls = (readLines n ls).mapError (.below k) := by
  induction ls generalizing n with
  | nil => rfl
  | cons l ls ih =>
    rw [readLines, readLines, Nat.add_assoc, ih, readLine_add]
    split
    · rfl
    · cases readLine n (dropLineEnd l) with
      | error e => rfl
      | ok g => cases readLines (n + 1) ls <;> rfl

/-- A script in two pieces, of which the first ends with a line, is read piece by piece. -/
theorem read_append {a : String} (b : String) (h : EndsLine a.toList) :
    read (a ++ b) = do
      let gs ← read a
      let hs ← (read b).mapError (.below (a.toList.count '\n'))
      return gs ++ hs := by
  rw [read, read, read, String.toList_append, linesOf_append _ h, readLines_append,
    length_linesOf h, Nat.add_comm 1, readLines_add]

/-- A line with its newline: at most one gesture. -/
theorem read_line {l : List Char} (h : '\n' ∉ l) : read (String.ofList (l ++ ['\n'])) =
    if isSilent l then .ok [] else (readLine 1 (dropLineEnd (l ++ ['\n']))).map ([·]) := by
  rw [read, String.toList_ofList, linesOf_line h, readLines_singleton, isSilent_dropLineEnd]

/-- The last line needs no newline. -/
theorem read_last {l : List Char} (h : '\n' ∉ l) : read (String.ofList l) =
    if isSilent l then .ok [] else (readLine 1 l).map ([·]) := by
  rw [read, String.toList_ofList]
  by_cases hne : l = []
  · subst hne
    rfl
  · rw [linesOf_last h hne, readLines_singleton, dropLineEnd_last h]

end Script

namespace Session

variable {s s' : Session} {amid : Nat → List Event} {gs : List Gesture}

/-! ### Playing -/

/-- What happens while gestures are put into the queue: other things, before each of them. -/
def puts (amid : Nat → List Event) : List Gesture → List Event
  | [] => []
  | g :: gs => amid 0 ++ .put ⟨g, false⟩ :: puts (fun i => amid (i + 1)) gs

theorem along_append (f : Session → Event → List Request) (s : Session) (es fs : List Event) :
    s.along f (es ++ fs) = s.along f es ++ (s.run es).along f fs := by
  induction es generalizing s with
  | nil => rfl
  | cons e es ih =>
    rw [List.cons_append, along, along, ih, List.append_assoc]
    rfl

/-- What the queue receives before the gesture with index `i` is put. -/
def receivedBefore (s : Session) (amid : Nat → List Event) (gs : List Gesture) (i : Nat) :
    List Request :=
  (s.run (puts amid (gs.take i))).along received (amid i)

theorem receivedBefore_succ (s : Session) (amid : Nat → List Event) (g : Gesture)
    (gs : List Gesture) (i : Nat) : s.receivedBefore amid (g :: gs) (i + 1) =
      ((s.run (amid 0)).step (.put ⟨g, false⟩)).receivedBefore (fun i => amid (i + 1)) gs i := by
  rw [receivedBefore, receivedBefore, List.take_succ_cons, puts, run_append]
  rfl

/-- If all gestures are put, what the queue receives is those gestures, and what it receives before
each of them. -/
theorem received_of_notifyAll (hh : s.hosted = true) (ha : ∀ i, .leave ∉ amid i)
    (h : s.notifyAll amid gs = (.ok (), s')) :
    s' = s.run (puts amid gs) ∧ s.along received (puts amid gs) =
      (gs.mapIdx fun i g => s.receivedBefore amid gs i ++ [⟨g, false⟩]).flatten := by
  induction gs generalizing s amid with
  | nil =>
    cases h
    exact ⟨rfl, rfl⟩
  | cons g gs ih =>
    have hhosted : (s.run (amid 0)).hosted = true := (hosted_run s _ (ha 0)).trans hh
    rw [notifyAll, notify] at h
    by_cases ho : (s.run (amid 0)).isOpen = true
    · rw [if_pos ho, ← step_put hhosted] at h
      have hreceived : (s.run (amid 0)).received (.put ⟨g, false⟩) = [⟨g, false⟩] := by
        simp [received, hhosted, ho]
      have hnext : ((s.run (amid 0)).step (.put ⟨g, false⟩)).hosted = true :=
        (hosted_run _ [.put ⟨g, false⟩] (by simp)).trans hhosted
      obtain ⟨rfl, hih⟩ := ih hnext (fun i => ha (i + 1)) h
      refine ⟨by rw [puts, run_append]; rfl, ?_⟩
      rw [puts, along_append, along, hreceived, hih, List.mapIdx_cons, List.flatten_cons,
        List.append_assoc]
      simp only [receivedBefore_succ]
      rfl
    · rw [if_neg ho] at h
      cases h

/-- Only a queue that is gone stops the gestures. -/
theorem notifyAll_cases (s : Session) (amid : Nat → List Event) (gs : List Gesture) :
    (s.notifyAll amid gs).1 = .ok () ∨
      (s.notifyAll amid gs).1 = .error .closed ∧ (s.notifyAll amid gs).2.isOpen = false := by
  induction gs generalizing s amid with
  | nil => exact .inl rfl
  | cons g gs ih =>
    rw [notifyAll, notify]
    by_cases ho : (s.run (amid 0)).isOpen = true
    · rw [if_pos ho]
      exact ih _ _
    · rw [if_neg ho]
      exact .inr ⟨rfl, Bool.eq_false_iff.mpr ho⟩

theorem isOpen_put (s : Session) (q : Request) : (s.put q).isOpen = s.isOpen := by
  rw [put]
  split <;> rfl

theorem putAll_of_isOpen (ho : s.isOpen = true) (gs : List Gesture) :
    s.putAll gs = { s with queue := s.queue ++ gs.map (⟨·, false⟩) } := by
  induction gs generalizing s with
  | nil => simp [putAll]
  | cons g gs ih =>
    have hput : s.put ⟨g, false⟩ = { s with queue := s.queue ++ [⟨g, false⟩] } := if_pos ho
    rw [putAll, List.foldl_cons, ← putAll, ih ((isOpen_put s _).trans ho), hput]
    simp

/-- With nothing else happening, the queue is there for all gestures or for none. -/
theorem notifyAll_nothing (s : Session) (gs : List Gesture) : s.notifyAll (fun _ => []) gs =
    if gs = [] ∨ s.isOpen = true then (.ok (), s.putAll gs) else (.error .closed, s) := by
  induction gs generalizing s with
  | nil => rw [if_pos (.inl rfl)]; rfl
  | cons g gs ih =>
    have hrun : s.run [] = s := rfl
    simp only [notifyAll, hrun, notify]
    by_cases ho : s.isOpen = true
    · simp only [if_pos ho]
      rw [ih, if_pos (.inr ((isOpen_put s _).trans ho)), if_pos (.inr ho)]
      rfl
    · simp only [if_neg ho]
      rw [if_neg (by simp [ho])]

/-- Playing a script at once is playing it with nothing else happening. -/
theorem playAmid_nothing (s : Session) (src : String) : s.playAmid (fun _ => []) src =
    match s.play src with
    | .ok (n, s') => (.ok n, s')
    | .error e => (.error e, s) := by
  rw [playAmid, play]
  cases Script.read src with
  | error e => rfl
  | ok gs =>
    simp only [notifyAll_nothing]
    cases gs with
    | nil => simp [putAll, Except.map]
    | cons g gs =>
      by_cases ho : s.isOpen = true <;> simp [ho, Except.map]

theorem exists_of_playAmid {src : String} {n : Nat} (h : s.playAmid amid src = (.ok n, s')) :
    ∃ gs, Script.read src = .ok gs ∧ n = gs.length ∧ s.notifyAll amid gs = (.ok (), s') := by
  rw [playAmid] at h
  cases hread : Script.read src with
  | error e =>
    rw [hread] at h
    cases h
  | ok gs =>
    rw [hread] at h
    dsimp only at h
    refine ⟨gs, rfl, ?_⟩
    cases hall : s.notifyAll amid gs with
    | mk x after =>
      rw [hall] at h
      cases x with
      | error e => cases h
      | ok _ =>
        cases h
        exact ⟨rfl, rfl⟩

end Session

namespace Script

open Session

/-- **Scripts are read line by line and played whole.** What a text says in two pieces is what the
pieces say, with the lines numbered on; a line says nothing or one gesture. A script with a bad line
is not played at all, and what is played of another is all its gestures in their order. -/
theorem read_by_lines_and_played_whole :
    -- a text in two pieces, of which the first ends with a line
    (∀ a b : String, EndsLine a.toList →
      (∀ e, read a = .error e → read (a ++ b) = .error e) ∧
      (∀ gs e, read a = .ok gs → read b = .error e →
        read (a ++ b) = .error ⟨a.toList.count '\n' + e.line, e.problem⟩) ∧
      ∀ gs hs, read a = .ok gs → read b = .ok hs → read (a ++ b) = .ok (gs ++ hs)) ∧
    -- a line that says nothing is counted
    (∀ l : List Char, '\n' ∉ l → (trim l = [] ∨ (trim l).head? = some '#') →
      read (.ofList l) = .ok [] ∧ ∀ b : String,
        read (.ofList (l ++ ['\n']) ++ b) = (read b).mapError (.below 1)) ∧
    -- another line is a gesture
    (∀ l : List Char, '\n' ∉ l → ¬(trim l = [] ∨ (trim l).head? = some '#') →
      read (.ofList l) = (readLine 1 l).map ([·]) ∧
      read (.ofList (l ++ ['\n'])) = (readLine 1 (dropLineEnd (l ++ ['\n']))).map ([·])) ∧
    -- a script that cannot be read leaves the session as it is
    (∀ (s : Session) (amid : Nat → List Event) (src : String) (e : ScriptError),
      read src = .error e → s.playAmid amid src = (.error (.badScript e), s)) ∧
    -- another is played unless the queue goes
    (∀ (s : Session) (amid : Nat → List Event) (src : String) (gs : List Gesture),
      read src = .ok gs → (s.playAmid amid src).1 = .ok gs.length ∨
        (s.playAmid amid src).1 = .error .closed ∧ (s.playAmid amid src).2.isOpen = false) ∧
    -- if it is played, all its gestures are queued in order, whatever happens meanwhile
    (∀ (s s' : Session) (amid : Nat → List Event) (src : String) (n : Nat), s.hosted = true →
      (∀ i, .leave ∉ amid i) → s.playAmid amid src = (.ok n, s') →
        ∃ gs, read src = .ok gs ∧ n = gs.length ∧ s' = s.run (puts amid gs) ∧
          s.along received (puts amid gs) =
            (gs.mapIdx fun i g => s.receivedBefore amid gs i ++ [⟨g, false⟩]).flatten) ∧
    -- if it is played at once, they come behind what is queued
    ∀ (s s' : Session) (src : String) (n : Nat), s.play src = .ok (n, s') →
      ∃ gs, read src = .ok gs ∧ n = gs.length ∧
        s' = { s with queue := s.queue ++ gs.map (⟨·, false⟩) } := by
  refine ⟨?_, ?_, ?_, ?_, ?_, ?_, ?_⟩
  · intro a b h
    rw [read_append b h]
    refine ⟨fun e he => ?_, fun gs e ha he => ?_, fun gs hs ha hb => ?_⟩
    · rw [he]
      rfl
    · rw [ha, he]
      rfl
    · rw [ha, hb]
      rfl
  · intro l hl hsilent
    have hs := (isSilent_iff_trim l).mpr hsilent
    refine ⟨by rw [read_last hl, if_pos hs], fun b => ?_⟩
    have hline := read_line hl
    rw [if_pos hs] at hline
    rw [read_append b (endsLine_line l), hline, count_line hl]
    cases read b <;> rfl
  · intro l hl hsilent
    have hs := (isSilent_iff_trim l).not.mpr hsilent
    exact ⟨by rw [read_last hl, if_neg hs], by rw [read_line hl, if_neg hs]⟩
  · intro s amid src e h
    rw [playAmid, h]
  · intro s amid src gs h
    rw [playAmid, h]
    dsimp only
    rcases notifyAll_cases s amid gs with hall | ⟨hall, hclosed⟩
    · exact .inl (by rw [hall]; rfl)
    · exact .inr ⟨by rw [hall]; rfl, hclosed⟩
  · intro s s' amid src n hh ha h
    obtain ⟨gs, hread, hn, hall⟩ := exists_of_playAmid h
    exact ⟨gs, hread, hn, received_of_notifyAll hh ha hall⟩
  · intro s s' src n h
    rw [play] at h
    split at h
    · cases h
    · rename_i hread
      cases h
      exact ⟨[], hread, rfl, by simp⟩
    · rename_i gs _ hread
      split at h
      · rename_i ho
        cases h
        exact ⟨gs, hread, rfl, putAll_of_isOpen ho gs⟩
      · cases h

/-- A remark and a click are played before another click, and the trial takes a request in between.
With a bad line behind them nothing is played. -/
theorem read_and_played_two_clicks :
    let red : Gesture := .click ⟨.red, .circle, none⟩
    let black : Gesture := .click ⟨.black, .circle, none⟩
    let a := "#\nclick red circle\n"
    let s := Session.start .standard .doNothing none
    let amid : Nat → List Event := fun i => if i = 1 then [.take] else []
    -- the script is read in pieces
    (EndsLine a.toList ∧ read a = .ok [red] ∧ read (a ++ "click black circle") = .ok [red, black]) ∧
    -- it is played, and at once
    ((s.hosted = true ∧ (∀ i, .leave ∉ amid i) ∧
      ∃ s', s.playAmid amid (a ++ "click black circle") = (.ok 2, s') ∧
        s.along received (puts amid [red, black]) = [⟨red, false⟩, ⟨black, false⟩]) ∧
      ∃ s', s.play (a ++ "click black circle") = .ok (2, s') ∧
        s'.queue = [⟨red, false⟩, ⟨black, false⟩]) ∧
    -- a bad line behind it
    ∃ p, read (a ++ "\nwiggle") = .error ⟨4, p⟩ ∧
      s.playAmid amid (a ++ "\nwiggle") = (.error (.badScript ⟨4, p⟩), s) := by
  intro red black a s amid
  obtain ⟨hpieces, hsilent, hline, hbad, hgood, hqueued, hatonce⟩ := read_by_lines_and_played_whole
  have hends : EndsLine a.toList := .inr (by decide)
  -- the lines
  have hred : read "click red circle\n" = .ok [red] := by
    have h := (hline "click red circle".toList (by decide) (by decide +kernel)).2
    have hr : readLine 1 (dropLineEnd ("click red circle".toList ++ ['\n'])) = .ok red := by
      with_unfolding_all rfl
    rwa [hr] at h
  have hblack : read "click black circle" = .ok [black] := by
    have h := (hline "click black circle".toList (by decide) (by decide +kernel)).1
    have hr : readLine 1 "click black circle".toList = .ok black := by with_unfolding_all rfl
    rwa [hr, String.ofList_toList] at h
  have ha : read a = .ok [red] := by
    have h := (hsilent "#".toList (by decide) (by decide +kernel)).2 "click red circle\n"
    rwa [hred] at h
  have hread : read (a ++ "click black circle") = .ok [red, black] :=
    (hpieces a _ hends).2.2 _ _ ha hblack
  -- the script is played
  have hstay : ∀ i, .leave ∉ amid i := by
    intro i
    by_cases hi : i = 1 <;> simp [amid, hi]
  have hplayed : ∃ s', s.playAmid amid (a ++ "click black circle") = (.ok 2, s') := by
    rcases hgood s amid _ _ hread with h | ⟨-, hclosed⟩
    · exact ⟨_, Prod.ext h rfl⟩
    · rw [playAmid, hread] at hclosed
      cases hclosed
  obtain ⟨s', hs'⟩ := hplayed
  obtain ⟨gs, hgs, -, -, hreceived⟩ := hqueued s s' amid _ 2 rfl hstay hs'
  obtain rfl := Except.ok.inj (hgs.symm.trans hread)
  have hplay : ∃ s', s.play (a ++ "click black circle") = .ok (2, s') := by
    rw [play, hread]
    exact ⟨_, rfl⟩
  obtain ⟨t, ht⟩ := hplay
  obtain ⟨gs, hgs, -, rfl⟩ := hatonce s t _ 2 ht
  obtain rfl := Except.ok.inj (hgs.symm.trans hread)
  -- a bad line
  have hwiggle : ∃ p, read "\nwiggle" = .error ⟨2, p⟩ :=
    ⟨.unexpected (some 'w') (Line.paddingWanted ++ "cdmr".toList.map .char),
      by with_unfolding_all rfl⟩
  obtain ⟨p, hp⟩ := hwiggle
  have hcount : a.toList.count '\n' = 2 := by decide
  have herror := (hpieces a _ hends).2.1 _ _ ha hp
  rw [hcount] at herror
  exact ⟨⟨hends, ha, hread⟩, ⟨⟨rfl, hstay, s', hs', hreceived⟩, _, ht, rfl⟩, p, herror,
    hbad s amid _ _ herror⟩

end Script

end BoardTrial
