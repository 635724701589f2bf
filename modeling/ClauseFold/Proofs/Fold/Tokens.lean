/-
Clause files as token streams. What the lines of a clause file say about clauses are its tokens: literals, the `0` that
closes a clause, and at most one defect, with which they end. The lines give the tokens without any folding, and the
reader folds what it reads as if it had the tokens alone.

Results:
- `readDimacs_eq_consume`: reading a clause file is going over its tokens;
- `expected_of_readDimacs`: what is reported of the problem line;
- `foldlM_foldedFrom`, `foldedFrom_of_ok`: going over tokens leaves what comes of folding the clauses that are folded, and
  these are all that the tokens write if there is no error.
-/
import ClauseFold.Fold.Dimacs

namespace ClauseFold.Dimacs

/-- what a clause file says about clauses -/
inductive Token where
  | literal (f : Formula)
  | close
  | defect (e : Error)
deriving DecidableEq, Repr

def tokenOf (w : List Char) : Token :=
  if w = ['0'] then .close
  else
    match readLiteral w with
    | .ok l => .literal l
    | .error e => .defect (.read e)

/-- what a line is for, by the first symbol that is not blank -/
inductive Kind where
  | nothing
  | problem
  | clauses
  /-- ends the clauses -/
  | stop
deriving DecidableEq, Repr

def kindOf (text : List Char) : Kind :=
  match (Text.trimStart text).head? with
  | none => .nothing
  | some c => if c = 'c' then .nothing else if c = '%' then .stop else if c = 'p' then .problem else .clauses

/-- the tokens of lines, of which `number` have gone before; `preamble` is whether no clause line has been met, and
`declared` whether a problem line has -/
def tokensFrom (number : Nat) (preamble declared : Bool) : List Text.Line → List Token
  | [] => []
  | .error _ :: _ => [.defect (.read (.line (number + 1)))]
  | .ok text :: rest =>
    match kindOf text with
    | .nothing => tokensFrom (number + 1) preamble declared rest
    | .stop => []
    | .problem =>
      if !preamble || declared then [.defect (.read (.misplacedProblem (number + 1)))]
      else
        match Reader.problem? text with
        | none => [.defect (.read .problemSpecification)]
        | some _ => tokensFrom (number + 1) true true rest
    | .clauses => (Text.words text).map tokenOf ++ tokensFrom (number + 1) false declared rest

def tokens (lines : List Text.Line) : List Token := tokensFrom 0 true false lines

/-- the clauses that tokens write, behind the literals of a clause that is open, the latest first -/
def clausesFrom (literals : List Formula) : List Token → List (List Formula)
  | [] => if literals.isEmpty then [] else [literals.reverse]
  | .literal l :: rest => clausesFrom (l :: literals) rest
  | .close :: rest => literals.reverse :: clausesFrom [] rest
  | .defect _ :: _ => []

def clauses (lines : List Text.Line) : List (List Formula) := clausesFrom [] (tokens lines)

/-- folds the clauses of tokens up to the first error, and counts them -/
def consume (how : Folding) (s : Fold) (literals : List Formula) (count : Nat) : List Token → Except Error Nat × Fold
  | [] =>
    if literals.isEmpty then (.ok count, s)
    else
      match s.addClause how literals.reverse with
      | .ok s' => (.ok (count + 1), s')
      | .error e => (.error (.reduction e), s)
  | .literal l :: rest => consume how s (l :: literals) count rest
  | .close :: rest =>
    match s.addClause how literals.reverse with
    | .ok s' => consume how s' [] (count + 1) rest
    | .error e => (.error (.reduction e), s)
  | .defect e :: _ => (.error e, s)

/-- the counts that a reader ahead of the clauses has noted when it ends, if it has noted `counts` so far -/
def countsFrom (counts : Option (Nat × Nat)) : List Text.Line → Option (Nat × Nat)
  | .ok text :: rest =>
    match kindOf text with
    | .nothing => countsFrom counts rest
    | .problem => countsFrom (Reader.problem? text) rest
    | _ => counts
  | _ => counts

/-! ## The reader -/

namespace Reader

/-- what a reader has to say after further lines, and the fold it leaves -/
def outcome (how : Folding) (r : Reader) (lines : List Text.Line) : Except Error Nat × Fold :=
  let r' := (lines.foldl (step how) r).finish how
  (r'.result.map fun summary => summary.clauses, r'.fold)

/-- a reader that goes over tokens -/
def consumed (how : Folding) (r : Reader) (ts : List Token) : Except Error Nat × Fold :=
  consume how r.fold r.literals r.summary.clauses ts

theorem result_of_failed {r : Reader} {e : Error} (h : r.status = .failed e) : r.result = .error e := by
  unfold result
  rw [h]

theorem result_of_not_failed {r : Reader} (h : ∀ e, r.status ≠ .failed e) : r.result = .ok r.summary := by
  unfold result
  split
  · rename_i e he
    exact absurd he (h e)
  · rfl

theorem outcome_failed {how : Folding} {r : Reader} {e : Error} (h : r.status = .failed e) (lines : List Text.Line) :
    outcome how r lines = (.error e, r.fold) := by
  have hstep : ∀ line, step how r line = r := fun line => by unfold step; rw [h]
  have hlines : lines.foldl (step how) r = r := by
    induction lines with
    | nil => rfl
    | cons line lines ih => rw [List.foldl_cons, hstep, ih]
  have hfinish : r.finish how = r := by unfold finish; rw [h]
  unfold outcome
  simp only [hlines, hfinish, result_of_failed h]
  rfl

theorem outcome_nil {how : Folding} {r : Reader} (h : ∀ e, r.status ≠ .failed e) :
    outcome how r [] = consumed how r [] := by
  have hfinish : r.finish how = if r.literals.isEmpty then r else r.close how := by
    unfold finish
    split
    · rename_i e he
      exact absurd he (h e)
    · rfl
  unfold outcome consumed consume
  rw [List.foldl_nil, hfinish]
  by_cases hempty : r.literals.isEmpty = true
  · simp only [if_pos hempty, result_of_not_failed h]
    rfl
  · simp only [if_neg hempty]
    unfold close
    cases hadd : r.fold.addClause how r.literals.reverse with
    | error e => rfl
    | ok s =>
      have hok := result_of_not_failed
        (r := { r with fold := s, literals := [], summary := { r.summary with clauses := r.summary.clauses + 1 } }) h
      simp only [hok]
      rfl

theorem outcome_ended {how : Folding} {r : Reader} (h : r.status = .ended) (lines : List Text.Line) :
    outcome how r lines = consumed how r [] := by
  have hlines : lines.foldl (step how) r = r := by
    induction lines with
    | nil => rfl
    | cons line lines ih =>
      have hstep : step how r line = r := by unfold step; rw [h]
      rw [List.foldl_cons, hstep, ih]
  rw [← outcome_nil (fun e he => by rw [h] at he; cases he)]
  unfold outcome
  rw [hlines]
  rfl

/-- a reader goes on in the same place of the file, whatever it did about clauses -/
def SamePlace (r r' : Reader) : Prop :=
  r'.line = r.line ∧ r'.preamble = r.preamble ∧ r'.summary.expected = r.summary.expected

theorem SamePlace.trans {r r' r'' : Reader} (h : SamePlace r r') (h' : SamePlace r' r'') : SamePlace r r'' := by
  obtain ⟨hline, hpreamble, hexpected⟩ := h
  obtain ⟨hline', hpreamble', hexpected'⟩ := h'
  exact ⟨hline'.trans hline, hpreamble'.trans hpreamble, hexpected'.trans hexpected⟩

/-- a word is a token: either the reader goes on behind it, or it has failed as the token says -/
theorem word_spec (how : Folding) {r : Reader} (h : r.status = .reading) (w : List Char) (ts : List Token) :
    (∃ e, (r.word how w).status = .failed e ∧ consumed how r (tokenOf w :: ts) = (.error e, (r.word how w).fold)) ∨
      (r.word how w).status = .reading ∧ SamePlace r (r.word how w) ∧
        consumed how r (tokenOf w :: ts) = consumed how (r.word how w) ts := by
  unfold word tokenOf consumed
  simp only [h]
  by_cases hclose : w = ['0']
  · simp only [if_pos hclose, close]
    cases hadd : r.fold.addClause how r.literals.reverse with
    | error e => exact Or.inl ⟨_, rfl, by simp only [consume, hadd]; rfl⟩
    | ok s => exact Or.inr ⟨h, ⟨rfl, rfl, rfl⟩, by simp only [consume, hadd]⟩
  · simp only [if_neg hclose]
    cases readLiteral w with
    | error e => exact Or.inl ⟨_, rfl, rfl⟩
    | ok l => exact Or.inr ⟨rfl, ⟨rfl, rfl, rfl⟩, rfl⟩

theorem foldl_word_failed (how : Folding) {r : Reader} {e : Error} (h : r.status = .failed e) (ws : List (List Char)) :
    ws.foldl (word how) r = r := by
  induction ws with
  | nil => rfl
  | cons w ws ih =>
    have hword : word how r w = r := by unfold word; rw [h]
    rw [List.foldl_cons, hword, ih]

/-- the words of a line are tokens, ahead of those of the lines that come after it -/
theorem outcome_words {how : Folding} {r : Reader} (h : r.status = .reading) (ws : List (List Char))
    {rest : List Text.Line} {ts : List Token}
    (hrest : ∀ r', r'.status = .reading → SamePlace r r' → outcome how r' rest = consumed how r' ts) :
    outcome how (ws.foldl (word how) r) rest = consumed how r (ws.map tokenOf ++ ts) := by
  induction ws generalizing r with
  | nil => exact hrest r h ⟨rfl, rfl, rfl⟩
  | cons w ws ih =>
    rw [List.foldl_cons, List.map_cons, List.cons_append]
    rcases word_spec how h w (ws.map tokenOf ++ ts) with ⟨e, hfailed, hconsumed⟩ | ⟨hreading, hplace, hconsumed⟩
    · rw [hconsumed, foldl_word_failed how hfailed, outcome_failed hfailed]
    · rw [hconsumed]
      apply ih hreading
      intro r' hr' hplace'
      exact hrest r' hr' (hplace.trans hplace')

theorem clauseLine_eq (how : Folding) (r : Reader) (text : List Char) :
    r.clauseLine how text =
      match kindOf text with
      | .nothing => r
      | .stop => { r with status := .ended }
      | .problem => r.fail (.read (.misplacedProblem r.line))
      | .clauses => (Text.words text).foldl (word how) r := by
  unfold clauseLine kindOf
  split
  · rename_i hhead; rw [hhead]
  · rename_i hhead; rw [hhead]; rfl
  · rename_i hhead; rw [hhead]; rfl
  · rename_i hhead; rw [hhead]; rfl
  · rename_i c hcomment hstop hproblem hhead
    rw [hhead]
    simp only [if_neg hcomment, if_neg hstop, if_neg hproblem]

theorem preambleLine_eq (how : Folding) (r : Reader) (text : List Char) :
    r.preambleLine how text =
      match kindOf text with
      | .nothing => r
      | .problem =>
        if r.summary.expected.isSome then r.fail (.read (.misplacedProblem r.line))
        else
          match problem? text with
          | none => r.fail (.read .problemSpecification)
          | some counts => { r with summary := { r.summary with expected := some counts } }
      | _ => clauseLine how { r with preamble := false } text := by
  unfold preambleLine kindOf
  split
  · rename_i hhead; rw [hhead]
  · rename_i hhead; rw [hhead]; rfl
  · rename_i hhead; rw [hhead]; rfl
  · rename_i c hcomment hproblem hhead
    rw [hhead]
    by_cases hstop : c = '%'
    · simp only [if_neg hcomment, if_pos hstop]
    · simp only [if_neg hcomment, if_neg hstop, if_neg hproblem]

/-- the tokens that are left for a reader -/
def tokensLeft (r : Reader) (lines : List Text.Line) : List Token :=
  tokensFrom r.line r.preamble r.summary.expected.isSome lines

theorem tokensLeft_of_samePlace {r r' : Reader} (h : SamePlace r r') (lines : List Text.Line) :
    r'.tokensLeft lines = r.tokensLeft lines := by
  obtain ⟨hline, hpreamble, hexpected⟩ := h
  unfold tokensLeft
  rw [hline, hpreamble, hexpected]

/-- the reader of lines goes over their tokens -/
theorem outcome_eq_consumed (how : Folding) {r : Reader} (h : r.status = .reading) (lines : List Text.Line) :
    outcome how r lines = consumed how r (r.tokensLeft lines) := by
  induction lines generalizing r with
  | nil => exact outcome_nil fun e he => by rw [h] at he; cases he
  | cons line rest ih =>
    obtain ⟨s, literals, ⟨expected, count⟩, number, preamble, status⟩ := r
    cases h
    cases line with
    | error e => exact outcome_failed rfl rest
    | ok text =>
      -- behind a clause line the reader is in the same place, and the lines that are left give the same tokens
      have hclauses : ∀ r : Reader, r.status = .reading →
          outcome how ((Text.words text).foldl (word how) r) rest =
            consumed how r ((Text.words text).map tokenOf ++ r.tokensLeft rest) := by
        intro r hr
        apply outcome_words hr
        intro r' hr' hplace
        rw [ih hr', tokensLeft_of_samePlace hplace]
      unfold tokensLeft tokensFrom
      cases preamble with
      | true =>
        show outcome how (preambleLine how ⟨s, literals, ⟨expected, count⟩, number + 1, true, .reading⟩ text) rest = _
        rw [preambleLine_eq]
        cases hkind : kindOf text with
        | nothing => exact ih (r := ⟨s, literals, ⟨expected, count⟩, number + 1, true, .reading⟩) rfl
        | problem =>
          cases expected with
          | some counts => exact outcome_failed rfl rest
          | none =>
            cases problem? text with
            | none => exact outcome_failed rfl rest
            | some counts => exact ih (r := ⟨s, literals, ⟨some counts, count⟩, number + 1, true, .reading⟩) rfl
        | clauses =>
          simp only [clauseLine_eq, hkind]
          exact hclauses ⟨s, literals, ⟨expected, count⟩, number + 1, false, .reading⟩ rfl
        | stop =>
          simp only [clauseLine_eq, hkind]
          exact outcome_ended rfl rest
      | false =>
        show outcome how (clauseLine how ⟨s, literals, ⟨expected, count⟩, number + 1, false, .reading⟩ text) rest = _
        rw [clauseLine_eq]
        cases kindOf text with
        | nothing => exact ih (r := ⟨s, literals, ⟨expected, count⟩, number + 1, false, .reading⟩) rfl
        | problem => exact outcome_failed rfl rest
        | clauses => exact hclauses ⟨s, literals, ⟨expected, count⟩, number + 1, false, .reading⟩ rfl
        | stop => exact outcome_ended rfl rest

/-! ## The problem line -/

theorem samePlace_close (how : Folding) (r : Reader) : SamePlace r (r.close how) := by
  unfold close
  split <;> exact ⟨rfl, rfl, rfl⟩

theorem samePlace_word (how : Folding) (r : Reader) (w : List Char) : SamePlace r (r.word how w) := by
  unfold word
  split
  · split
    · exact samePlace_close how r
    · split <;> exact ⟨rfl, rfl, rfl⟩
  · exact ⟨rfl, rfl, rfl⟩

theorem samePlace_clauseLine (how : Folding) (r : Reader) (text : List Char) : SamePlace r (r.clauseLine how text) := by
  rw [clauseLine_eq]
  split
  · exact ⟨rfl, rfl, rfl⟩
  · exact ⟨rfl, rfl, rfl⟩
  · exact ⟨rfl, rfl, rfl⟩
  · induction Text.words text generalizing r with
    | nil => exact ⟨rfl, rfl, rfl⟩
    | cons w ws ih => exact (samePlace_word how r w).trans (ih (r.word how w))

/-- behind the first clause line nothing is noted any more -/
theorem expected_of_clauses {how : Folding} {r : Reader} (h : r.preamble = false) (lines : List Text.Line) :
    (lines.foldl (step how) r).summary.expected = r.summary.expected := by
  induction lines generalizing r with
  | nil => rfl
  | cons line lines ih =>
    have hstep : (step how r line).preamble = false ∧ (step how r line).summary.expected = r.summary.expected := by
      unfold step
      split
      · cases line with
        | error e => exact ⟨h, rfl⟩
        | ok text =>
          obtain ⟨-, hpreamble, hexpected⟩ := samePlace_clauseLine how { r with line := r.line + 1 } text
          have hahead : ¬r.preamble = true := by
            rw [h]
            exact Bool.false_ne_true
          simp only [if_neg hahead]
          exact ⟨hpreamble.trans h, hexpected⟩
      · exact ⟨h, rfl⟩
    rw [List.foldl_cons, ih hstep.1, hstep.2]

theorem expected_finish (how : Folding) (r : Reader) : (r.finish how).summary.expected = r.summary.expected := by
  unfold finish
  split
  · rfl
  · split
    · rfl
    · exact (samePlace_close how r).2.2

theorem summary_of_result {r : Reader} {d : DimacsSummary} (h : r.result = .ok d) : d = r.summary := by
  unfold result at h
  split at h
  · cases h
  · exact (Except.ok.inj h).symm

/-- a line ahead of the clauses: the reader fails, it goes on ahead of the clauses, or it has noted all it will -/
theorem step_preamble (how : Folding) {r : Reader} (h : r.status = .reading) (hpreamble : r.preamble = true)
    (line : Text.Line) (rest : List Text.Line) :
    (∃ e, (step how r line).status = .failed e) ∨
      ((step how r line).status = .reading ∧ (step how r line).preamble = true ∧
        countsFrom r.summary.expected (line :: rest) = countsFrom (step how r line).summary.expected rest) ∨
      ((step how r line).preamble = false ∧
        countsFrom r.summary.expected (line :: rest) = (step how r line).summary.expected) := by
  obtain ⟨s, literals, ⟨expected, count⟩, number, preamble, status⟩ := r
  cases h
  cases hpreamble
  cases line with
  | error e => exact Or.inl ⟨_, rfl⟩
  | ok text =>
    have hstep : step how ⟨s, literals, ⟨expected, count⟩, number, true, .reading⟩ (.ok text) =
      preambleLine how ⟨s, literals, ⟨expected, count⟩, number + 1, true, .reading⟩ text := rfl
    obtain ⟨-, hplace, hexpected⟩ :=
      samePlace_clauseLine how ⟨s, literals, ⟨expected, count⟩, number + 1, false, .reading⟩ text
    rw [hstep, preambleLine_eq, countsFrom]
    cases kindOf text with
    | nothing => exact Or.inr (Or.inl ⟨rfl, rfl, rfl⟩)
    | clauses => exact Or.inr (Or.inr ⟨hplace, hexpected.symm⟩)
    | stop => exact Or.inr (Or.inr ⟨hplace, hexpected.symm⟩)
    | problem =>
      cases expected with
      | some counts => exact Or.inl ⟨_, rfl⟩
      | none =>
        cases problem? text with
        | none => exact Or.inl ⟨_, rfl⟩
        | some counts => exact Or.inr (Or.inl ⟨rfl, rfl, rfl⟩)

/-- what a reader has noted that was ahead of the clauses and has not failed -/
theorem expected_of_result (how : Folding) {r : Reader} (h : r.status = .reading) (hpreamble : r.preamble = true)
    (lines : List Text.Line) {d : DimacsSummary} (hd : ((lines.foldl (step how) r).finish how).result = .ok d) :
    d.expected = countsFrom r.summary.expected lines := by
  induction lines generalizing r with
  | nil =>
    rw [summary_of_result hd, expected_finish]
    rfl
  | cons line rest ih =>
    rw [List.foldl_cons] at hd
    rcases step_preamble how h hpreamble line rest with ⟨e, hfailed⟩ | ⟨hreading, hahead, hcounts⟩ | ⟨hbehind, hcounts⟩
    · have houtcome : outcome how (step how r line) rest = (.error e, (step how r line).fold) :=
        outcome_failed hfailed rest
      unfold outcome at houtcome
      simp only [hd] at houtcome
      cases houtcome
    · rw [hcounts]
      exact ih hreading hahead hd
    · rw [hcounts, summary_of_result hd, expected_finish, expected_of_clauses hbehind]

end Reader

/-- reading a clause file is going over its tokens -/
theorem readDimacs_eq_consume (how : Folding) (s : Fold) (lines : List Text.Line) :
    ((s.readDimacs how lines).1.map fun summary => summary.clauses, (s.readDimacs how lines).2) =
      consume how s [] 0 (tokens lines) := Reader.outcome_eq_consumed how (r := start s) rfl lines

/-- what is reported of the problem line -/
theorem expected_of_readDimacs {how : Folding} {s : Fold} {lines : List Text.Line} {d : DimacsSummary}
    (h : (s.readDimacs how lines).1 = .ok d) : d.expected = countsFrom none lines :=
  Reader.expected_of_result how (r := start s) rfl rfl lines h

end ClauseFold.Dimacs

namespace ClauseFold

variable {how : Folding}

/-! ## Which clauses are folded -/

/-- the clause of some literals, if it is folded -/
def Fold.taken (how : Folding) (s : Fold) (literals : List Formula) : List (List Formula) :=
  match s.addClause how literals with
  | .ok _ => [literals]
  | .error _ => []

theorem Fold.taken_of_ok {s s' : Fold} {literals : List Formula} (h : s.addClause how literals = .ok s') :
    s.taken how literals = [literals] := by
  unfold taken
  rw [h]

theorem Fold.taken_of_error {s : Fold} {literals : List Formula} {e : ReductionError}
    (h : s.addClause how literals = .error e) : s.taken how literals = [] := by
  unfold taken
  rw [h]

theorem Fold.foldlM_taken {s s' : Fold} {literals : List Formula} (h : s.addClause how literals = .ok s') :
    (s.taken how literals).foldlM (addClause how) s = .ok s' := by
  rw [taken_of_ok h, List.foldlM_cons, h]
  rfl

namespace Dimacs

/-- the clauses that are folded as tokens are gone over: those that are closed ahead of the first error -/
def foldedFrom (how : Folding) (s : Fold) (literals : List Formula) : List Token → List (List Formula)
  | [] => if literals.isEmpty then [] else s.taken how literals.reverse
  | .literal l :: rest => foldedFrom how s (l :: literals) rest
  | .close :: rest =>
    match s.addClause how literals.reverse with
    | .ok s' => literals.reverse :: foldedFrom how s' [] rest
    | .error _ => []
  | .defect _ :: _ => []

/-- going over tokens leaves what comes of folding the clauses that are folded -/
theorem foldlM_foldedFrom (how : Folding) (s : Fold) (literals : List Formula) (count : Nat) (ts : List Token) :
    (foldedFrom how s literals ts).foldlM (Fold.addClause how) s = .ok (consume how s literals count ts).2 := by
  induction ts generalizing s literals count with
  | nil =>
    unfold foldedFrom consume
    by_cases hempty : literals.isEmpty = true
    · rw [if_pos hempty, if_pos hempty]
      rfl
    · rw [if_neg hempty, if_neg hempty]
      cases hadd : s.addClause how literals.reverse with
      | error e =>
        rw [Fold.taken_of_error hadd]
        rfl
      | ok s' => exact Fold.foldlM_taken hadd
  | cons t ts ih =>
    cases t with
    | literal l => exact ih s (l :: literals) count
    | defect e => rfl
    | close =>
      unfold foldedFrom consume
      cases hadd : s.addClause how literals.reverse with
      | error e => rfl
      | ok s' =>
        simp only [List.foldlM_cons, hadd]
        exact ih s' [] (count + 1)

/-- without an error, all the clauses that the tokens write are folded -/
theorem foldedFrom_of_ok {s : Fold} {literals : List Formula} {count n : Nat} {ts : List Token}
    (h : (consume how s literals count ts).1 = .ok n) : foldedFrom how s literals ts = clausesFrom literals ts := by
  induction ts generalizing s literals count with
  | nil =>
    unfold foldedFrom clausesFrom
    unfold consume at h
    by_cases hempty : literals.isEmpty = true
    · rw [if_pos hempty, if_pos hempty]
    · rw [if_neg hempty] at h
      rw [if_neg hempty, if_neg hempty]
      cases hadd : s.addClause how literals.reverse with
      | error e =>
        rw [hadd] at h
        cases h
      | ok s' => exact Fold.taken_of_ok hadd
  | cons t ts ih =>
    cases t with
    | literal l => exact ih h
    | defect e => cases h
    | close =>
      unfold foldedFrom clausesFrom
      unfold consume at h
      cases hadd : s.addClause how literals.reverse with
      | error e =>
        rw [hadd] at h
        cases h
      | ok s' =>
        rw [hadd] at h
        simp only [ih h]

end Dimacs

end ClauseFold
