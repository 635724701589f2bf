/-
What is left of a clause file that was not read to its end. Reading may end at a line that cannot be read, at a problem line
that is wrong or stands in a wrong place, at a word in the middle of a line, or at a clause that cannot be folded. Wherever
that is, what has been gone over by then is some closed clauses and the literals of one that is open, and the closed clauses
are what is folded.

What has been gone over is said by lines and words alone: the lines ahead, of which none has a fault, and the words ahead
in the line.

Results:
- `consume_cases`: which tokens are those of the clauses that are folded, and where the tokens are left;
- `tokens_spec`: the tokens of a file are those of its lines, up to the first line with a fault;
- `exists_word_of_token`: a token of some lines is a word of one of them;
- `exists_interruption`: what has been gone over where a file is not read on;
- `readDimacs_folds_closed`: what is folded of a file that is read, and of one that is not.
-/
import ClauseFold.Proofs.Fold.Calls

namespace ClauseFold

namespace Dimacs

/-! ## Lines and words -/

/-- a line that can be read, and is of some kind -/
def OfKind (kind : Kind) (line : Text.Line) : Prop := ∃ text, line = .ok text ∧ kindOf text = kind

/-- the tokens of a line, if it is there for clauses -/
def lineTokens : Text.Line → List Token
  | .ok text => if kindOf text = .clauses then (Text.words text).map tokenOf else []
  | .error _ => []

/-- behind some lines there is no place for a problem line any more -/
def Begun (before : List Text.Line) : Prop :=
  (∃ line ∈ before, OfKind .problem line) ∨ ∃ line ∈ before, OfKind .clauses line

/-- what is wrong with a line behind others, other than its words -/
inductive LineFault (before : List Text.Line) : Text.Line → Error → Prop where
  | unreadable (cause : Text.LineFailure) : LineFault before (.error cause) (.read (.line (before.length + 1)))
  | misplaced {text : List Char} (problem : kindOf text = .problem) (late : Begun before) :
      LineFault before (.ok text) (.read (.misplacedProblem (before.length + 1)))
  | specification {text : List Char} (problem : kindOf text = .problem) (in_place : ¬Begun before)
      (no_counts : Reader.problem? text = none) : LineFault before (.ok text) (.read .problemSpecification)

/-- lines that are got over: none ends the clauses, and none has a fault -/
def Passes (lines : List Text.Line) : Prop :=
  ∀ before line after, lines = before ++ line :: after → ¬OfKind .stop line ∧ ∀ e, ¬LineFault before line e

/-- all the lines of a file that count: those ahead of one that ends the clauses, or all -/
structure Whole (lines passed : List Text.Line) : Prop where
  passes : Passes passed
  rest : lines = passed ∨ ∃ line after, OfKind .stop line ∧ lines = passed ++ line :: after

/-- what clauses are written as, one after the other -/
def written (clauses : List (List Formula)) : List Token := clauses.flatMap fun c => c.map .literal ++ [.close]

/-- why a file is not read on, when `seen` has been gone over, and the literals `pending` at its end are those of a clause
that is open -/
inductive Interruption (how : Folding) (s : Fold) (lines : List Text.Line) (seen : List Token) (pending : List Formula) :
    Error → Prop where
  /-- a line has a fault -/
  | line {before after : List Text.Line} {line : Text.Line} {e : Error} (lines_eq : lines = before ++ line :: after)
      (passes : Passes before) (seen_eq : seen = before.flatMap lineTokens) (fault : LineFault before line e) :
      Interruption how s lines seen pending e
  /-- a word is no literal -/
  | word {before after : List Text.Line} {text : List Char} {ws ws' : List (List Char)} {w : List Char} {e : ReadError}
      (lines_eq : lines = before ++ .ok text :: after) (passes : Passes before) (kind : kindOf text = .clauses)
      (words_eq : Text.words text = ws ++ w :: ws') (seen_eq : seen = before.flatMap lineTokens ++ ws.map tokenOf)
      (not_zero : w ≠ ['0']) (no_literal : readLiteral w = .error e) : Interruption how s lines seen pending (.read e)
  /-- the clause is closed, and cannot be folded -/
  | fold {before after : List Text.Line} {text : List Char} {ws ws' : List (List Char)} {e : ReductionError}
      (lines_eq : lines = before ++ .ok text :: after) (passes : Passes before) (kind : kindOf text = .clauses)
      (words_eq : Text.words text = ws ++ ['0'] :: ws') (seen_eq : seen = before.flatMap lineTokens ++ ws.map tokenOf)
      (fails : s.addClause how pending = .error e) : Interruption how s lines seen pending (.reduction e)
  /-- the file is at its end, and the clause that is open there cannot be folded -/
  | last {passed : List Text.Line} {e : ReductionError} (whole : Whole lines passed)
      (seen_eq : seen = passed.flatMap lineTokens) (not_closed : pending ≠ [])
      (fails : s.addClause how pending = .error e) : Interruption how s lines seen pending (.reduction e)

/-! ## Tokens one after the other -/

theorem written_cons (c : List Formula) (clauses : List (List Formula)) :
    written (c :: clauses) = c.map .literal ++ .close :: written clauses := by
  unfold written
  rw [List.flatMap_cons, List.append_assoc]
  rfl

/-- clauses are written with literals and closes alone -/
theorem defect_not_mem_written (clauses : List (List Formula)) (pending : List Formula) (e : Error) :
    .defect e ∉ written clauses ++ pending.map .literal := by
  simp [written]

/-- the clauses of tokens: those that are closed, and one that is open at their end -/
inductive Comprises : List Token → List (List Formula) → Prop where
  | closed (clauses : List (List Formula)) : Comprises (written clauses) clauses
  | unclosed (clauses : List (List Formula)) {pending : List Formula} (not_closed : pending ≠ []) :
      Comprises (written clauses ++ pending.map .literal) (clauses ++ [pending])

theorem Comprises.cons {ts : List Token} {clauses : List (List Formula)} (h : Comprises ts clauses) (c : List Formula) :
    Comprises (c.map .literal ++ .close :: ts) (c :: clauses) := by
  cases h with
  | closed clauses =>
    rw [← written_cons]
    exact .closed (c :: clauses)
  | unclosed clauses not_closed =>
    rw [← List.cons_append, ← List.append_assoc, ← written_cons]
    exact .unclosed (c :: clauses) not_closed

theorem Comprises.defect_not_mem {ts : List Token} {clauses : List (List Formula)} (h : Comprises ts clauses) (e : Error) :
    .defect e ∉ ts := by
  cases h with
  | closed clauses => simpa using defect_not_mem_written clauses [] e
  | unclosed clauses _ => exact defect_not_mem_written clauses _ e

/-- why tokens are not gone over to their end, with these tokens left -/
inductive Stops (how : Folding) (s : Fold) (pending : List Formula) : List Token → Error → Prop where
  | defect (e : Error) (after : List Token) : Stops how s pending (.defect e :: after) e
  | close {e : ReductionError} (after : List Token) (fails : s.addClause how pending = .error e) :
      Stops how s pending (.close :: after) (.reduction e)
  | last {e : ReductionError} (not_closed : pending ≠ []) (fails : s.addClause how pending = .error e) :
      Stops how s pending [] (.reduction e)

/-- of tokens, behind the literals of an open clause, the clauses that are closed ahead of the first error are folded, and
without an error all of them -/
theorem consume_cases (how : Folding) (s : Fold) (literals : List Formula) (count : Nat) (ts : List Token) :
    ((consume how s literals count ts).1 = .ok (count + (foldedFrom how s literals ts).length) ∧
        Comprises (literals.reverse.map .literal ++ ts) (foldedFrom how s literals ts)) ∨
      ∃ e pending left, (consume how s literals count ts).1 = .error e ∧
        literals.reverse.map .literal ++ ts = written (foldedFrom how s literals ts) ++ pending.map .literal ++ left ∧
        Stops how (consume how s literals count ts).2 pending left e := by
  induction ts generalizing s literals count with
  | nil =>
    unfold consume foldedFrom
    by_cases hempty : literals.isEmpty = true
    · rw [if_pos hempty, if_pos hempty, List.isEmpty_iff.mp hempty]
      exact Or.inl ⟨rfl, .closed []⟩
    · have hopen : literals.reverse ≠ [] := fun h => hempty (by rw [List.reverse_eq_nil_iff.mp h]; rfl)
      rw [if_neg hempty, if_neg hempty, List.append_nil]
      cases hadd : s.addClause how literals.reverse with
      | error e =>
        rw [Fold.taken_of_error hadd]
        exact Or.inr ⟨_, literals.reverse, [], rfl, (List.append_nil _).symm, .last hopen hadd⟩
      | ok s' =>
        rw [Fold.taken_of_ok hadd]
        exact Or.inl ⟨rfl, .unclosed [] hopen⟩
  | cons t ts ih =>
    cases t with
    | literal l =>
      have hshift : (l :: literals).reverse.map Token.literal ++ ts = literals.reverse.map .literal ++ .literal l :: ts := by
        rw [List.reverse_cons, List.map_append, List.append_assoc]
        rfl
      rw [← hshift]
      exact ih s (l :: literals) count
    | defect e => exact Or.inr ⟨e, literals.reverse, .defect e :: ts, rfl, rfl, .defect e ts⟩
    | close =>
      unfold consume foldedFrom
      cases hadd : s.addClause how literals.reverse with
      | error e => exact Or.inr ⟨_, literals.reverse, .close :: ts, rfl, rfl, .close ts hadd⟩
      | ok s' =>
        rcases ih s' [] (count + 1) with ⟨hcount, hcomprises⟩ | ⟨e, pending, left, herror, hparts, hstops⟩
        · refine Or.inl ⟨?_, hcomprises.cons literals.reverse⟩
          rw [hcount, List.length_cons]
          congr 1
          omega
        · refine Or.inr ⟨e, pending, left, herror, ?_, hstops⟩
          have hrest : ts = written (foldedFrom how s' [] ts) ++ pending.map .literal ++ left := hparts
          rw [written_cons]
          simp only [List.append_assoc, List.cons_append]
          rw [← List.append_assoc (written _), ← hrest]

/-! ## Lines ahead of the first fault -/

variable {before : List Text.Line}

theorem Passes.nil : Passes [] := by
  intro before line after h
  simp at h

theorem Passes.of_append {rest : List Text.Line} (h : Passes (before ++ rest)) : Passes before := by
  intro earlier line later hlines
  exact h earlier line (later ++ rest) (by rw [hlines, List.append_assoc]; rfl)

/-- a further line is got over if it neither ends the clauses nor has a fault behind those before it -/
theorem Passes.concat (h : Passes before) {line : Text.Line} (hstop : ¬OfKind .stop line)
    (hfault : ∀ e, ¬LineFault before line e) : Passes (before ++ [line]) := by
  intro earlier line' later hlines
  rcases List.eq_nil_or_concat later with rfl | ⟨later, last, rfl⟩
  · obtain ⟨rfl, hline⟩ := List.append_inj' hlines rfl
    cases hline
    exact ⟨hstop, hfault⟩
  · have hshift : earlier ++ line' :: (later ++ [last]) = (earlier ++ line' :: later) ++ [last] := by simp
    rw [List.concat_eq_append, hshift] at hlines
    exact h earlier line' later (List.append_inj' hlines rfl).1

theorem ofKind_ok {kind : Kind} {text : List Char} : OfKind kind (.ok text) ↔ kindOf text = kind := by
  refine ⟨?_, fun h => ⟨text, rfl, h⟩⟩
  rintro ⟨text', heq, h⟩
  cases heq
  exact h

theorem lineTokens_of_clauses {text : List Char} (h : kindOf text = .clauses) :
    lineTokens (.ok text) = (Text.words text).map tokenOf := if_pos h

theorem lineTokens_of_not_clauses {text : List Char} (h : kindOf text ≠ .clauses) : lineTokens (.ok text) = [] := if_neg h

theorem exists_ofKind_concat {kind : Kind} {text : List Char} :
    (∃ line ∈ before ++ [.ok text], OfKind kind line) ↔
      (∃ line ∈ before, OfKind kind line) ∨ kindOf text = kind := by
  simp only [List.mem_append, List.mem_singleton, or_and_right, exists_or, exists_eq_left, ofKind_ok]

/-- a line that can be read has no fault, unless it is a problem line -/
theorem problem_of_lineFault {text : List Char} {e : Error} (h : LineFault before (.ok text) e) :
    kindOf text = .problem := by
  cases h with
  | misplaced problem _ => exact problem
  | specification problem _ _ => exact problem

/-- the tokens of lines behind others: those of all that count, or of those ahead of one with a fault -/
inductive Tokenizes (before rest : List Text.Line) : List Token → Prop where
  | whole {passed : List Text.Line} (whole : Whole (before ++ rest) (before ++ passed)) :
      Tokenizes before rest (passed.flatMap lineTokens)
  | fault {passed after : List Text.Line} {line : Text.Line} {e : Error} (rest_eq : rest = passed ++ line :: after)
      (passes : Passes (before ++ passed)) (fault : LineFault (before ++ passed) line e) :
      Tokenizes before rest (passed.flatMap lineTokens ++ [.defect e])

theorem Tokenizes.cons {line : Text.Line} {rest : List Text.Line} {ts : List Token}
    (h : Tokenizes (before ++ [line]) rest ts) : Tokenizes before (line :: rest) (lineTokens line ++ ts) := by
  cases h with
  | @whole passed whole =>
    rw [← List.flatMap_cons]
    exact .whole (by simpa only [List.append_assoc, List.singleton_append] using whole)
  | @fault passed after line' e rest_eq passes fault =>
    rw [← List.append_assoc, ← List.flatMap_cons]
    simp only [List.append_assoc, List.singleton_append] at passes fault
    exact .fault (by rw [rest_eq]; rfl) passes fault

/-- the tokens of lines are those of the lines up to the first fault; where a problem line may stand is known from the lines
ahead -/
theorem tokensFrom_spec (h : Passes before) {preamble declared : Bool}
    (hpreamble : preamble = false ↔ ∃ line ∈ before, OfKind .clauses line)
    (hdeclared : declared = true ↔ ∃ line ∈ before, OfKind .problem line) (rest : List Text.Line) :
    Tokenizes before rest (tokensFrom before.length preamble declared rest) := by
  induction rest generalizing before preamble declared with
  | nil => exact @Tokenizes.whole before [] [] ⟨by rwa [List.append_nil], Or.inl rfl⟩
  | cons line rest ih =>
    -- a line with a fault ends the tokens, and behind any other that does not end the clauses they go on
    have hends : ∀ {e}, LineFault before line e → Tokenizes before (line :: rest) [.defect e] := fun hfault =>
      @Tokenizes.fault before (line :: rest) [] rest line _ rfl (by rwa [List.append_nil]) (by rwa [List.append_nil])
    cases line with
    | error cause => exact hends (.unreadable cause)
    | ok text =>
      have hgoes : ∀ {preamble declared : Bool}, kindOf text ≠ .stop → (∀ e, ¬LineFault before (.ok text) e) →
          (preamble = false ↔ (∃ line ∈ before, OfKind .clauses line) ∨ kindOf text = .clauses) →
          (declared = true ↔ (∃ line ∈ before, OfKind .problem line) ∨ kindOf text = .problem) →
          Tokenizes before (.ok text :: rest)
            (lineTokens (.ok text) ++ tokensFrom (before.length + 1) preamble declared rest) := by
        intro preamble declared hstop hfault hpreamble hdeclared
        have hpasses := h.concat (fun hline => hstop (ofKind_ok.mp hline)) hfault
        have hrest := ih hpasses (hpreamble.trans exists_ofKind_concat.symm) (hdeclared.trans exists_ofKind_concat.symm)
        rw [List.length_append] at hrest
        exact hrest.cons
      have hsound : kindOf text ≠ .problem → ∀ e, ¬LineFault before (.ok text) e := fun hkind e hfault =>
        hkind (problem_of_lineFault hfault)
      unfold tokensFrom
      cases hkind : kindOf text with
      | nothing =>
        rw [lineTokens_of_not_clauses (by simp [hkind])] at hgoes
        exact hgoes (by simp [hkind]) (hsound (by simp [hkind])) (by simpa [hkind] using hpreamble)
          (by simpa [hkind] using hdeclared)
      | clauses =>
        rw [lineTokens_of_clauses hkind] at hgoes
        exact hgoes (by simp [hkind]) (hsound (by simp [hkind])) (by simp [hkind]) (by simpa [hkind] using hdeclared)
      | stop =>
        exact @Tokenizes.whole before (.ok text :: rest) []
          ⟨by rwa [List.append_nil], Or.inr ⟨.ok text, rest, ofKind_ok.mpr hkind, by rw [List.append_nil]⟩⟩
      | problem =>
        have hbegun : (!preamble || declared) = true ↔ Begun before := by
          rw [Bool.or_eq_true, Bool.not_eq_true', hpreamble, hdeclared]
          exact or_comm
        by_cases hlate : (!preamble || declared) = true
        · simp only [if_pos hlate]
          exact hends (.misplaced hkind (hbegun.mp hlate))
        · simp only [if_neg hlate]
          have hin_place : ¬Begun before := fun hbegan => hlate (hbegun.mpr hbegan)
          cases hcounts : Reader.problem? text with
          | none => exact hends (.specification hkind hin_place hcounts)
          | some counts =>
            have hfault : ∀ e, ¬LineFault before (.ok text) e := by
              intro e hfault
              cases hfault with
              | misplaced _ late => exact hin_place late
              | specification _ _ no_counts =>
                rw [hcounts] at no_counts
                cases no_counts
            have hpreamble' : true = false ↔ (∃ line ∈ before, OfKind .clauses line) ∨ kindOf text = .clauses := by
              simpa [hkind] using fun line hline hclauses => hin_place (Or.inr ⟨line, hline, hclauses⟩)
            rw [lineTokens_of_not_clauses (by simp [hkind])] at hgoes
            exact hgoes (by simp [hkind]) hfault hpreamble' (by simp [hkind])

/-- the tokens of a file -/
theorem tokens_spec (lines : List Text.Line) : Tokenizes [] lines (tokens lines) :=
  tokensFrom_spec .nil (by simp) (by simp) lines

/-- a token of some lines is a word of one of them -/
theorem exists_word_of_token {passed : List Text.Line} {ts ts' : List Token} {t : Token}
    (h : passed.flatMap lineTokens = ts ++ t :: ts') :
    ∃ before text after ws w ws', passed = before ++ .ok text :: after ∧ kindOf text = .clauses ∧
      Text.words text = ws ++ w :: ws' ∧ ts = before.flatMap lineTokens ++ ws.map tokenOf ∧ tokenOf w = t := by
  induction passed generalizing ts with
  | nil => simp at h
  | cons line passed ih =>
    -- a token behind those of the line
    have hbehind : ∀ {ts'' : List Token}, ts = lineTokens line ++ ts'' → passed.flatMap lineTokens = ts'' ++ t :: ts' →
        ∃ before text after ws w ws', line :: passed = before ++ .ok text :: after ∧ kindOf text = .clauses ∧
          Text.words text = ws ++ w :: ws' ∧ ts = before.flatMap lineTokens ++ ws.map tokenOf ∧ tokenOf w = t := by
      rintro ts'' rfl hrest
      obtain ⟨before, text, after, ws, w, ws', rfl, hkind, hwords, rfl, hw⟩ := ih hrest
      refine ⟨line :: before, text, after, ws, w, ws', rfl, hkind, hwords, ?_, hw⟩
      rw [List.flatMap_cons, List.append_assoc]
    rw [List.flatMap_cons, List.append_eq_append_iff] at h
    rcases h with ⟨ts'', hts, hrest⟩ | ⟨own, hown, hrest⟩
    · exact hbehind hts hrest
    · cases own with
      | nil => exact hbehind (by simpa using hown.symm) (hrest.symm.trans (List.nil_append _).symm)
      | cons t' own =>
        cases hrest
        cases line with
        | error cause => simp [lineTokens] at hown
        | ok text =>
          by_cases hkind : kindOf text = .clauses
          · rw [lineTokens_of_clauses hkind] at hown
            obtain ⟨ws, later, hwords, rfl, hlater⟩ := List.map_eq_append_iff.mp hown
            obtain ⟨w, ws', rfl, hw, -⟩ := List.map_eq_cons_iff.mp hlater
            exact ⟨[], text, passed, ws, w, ws', rfl, hkind, hwords, rfl, hw⟩
          · simp [lineTokens_of_not_clauses hkind] at hown

/-! ## Files -/

theorem tokenOf_eq_close {w : List Char} (h : tokenOf w = .close) : w = ['0'] := by
  unfold tokenOf at h
  by_cases hzero : w = ['0']
  · exact hzero
  · rw [if_neg hzero] at h
    cases hread : readLiteral w with
    | error e => simp only [hread, reduceCtorEq] at h
    | ok l => simp only [hread, reduceCtorEq] at h

theorem tokenOf_eq_defect {w : List Char} {e : Error} (h : tokenOf w = .defect e) :
    w ≠ ['0'] ∧ ∃ e', readLiteral w = .error e' ∧ e = .read e' := by
  unfold tokenOf at h
  by_cases hzero : w = ['0']
  · rw [if_pos hzero] at h
    cases h
  · rw [if_neg hzero] at h
    cases hread : readLiteral w with
    | error e' =>
      simp only [hread] at h
      cases h
      exact ⟨hzero, e', rfl, rfl⟩
    | ok l => simp only [hread, reduceCtorEq] at h

variable {how : Folding} {s : Fold} {lines : List Text.Line} {seen : List Token} {pending : List Formula}

/-- tokens that stop at a word stop in the line that holds it -/
theorem Interruption.ofWord {passed rest : List Text.Line} {left left' : List Token} {e : Error}
    (hlines : lines = passed ++ rest) (hpasses : Passes passed) {t : Token}
    (hseen : passed.flatMap lineTokens = seen ++ t :: left) (hstops : Stops how s pending (t :: left') e) :
    Interruption how s lines seen pending e := by
  obtain ⟨before, text, after, ws, w, ws', rfl, hkind, hwords, hseen', hw⟩ := exists_word_of_token hseen
  have hat : lines = before ++ .ok text :: (after ++ rest) := by rw [hlines, List.append_assoc]; rfl
  cases hstops with
  | defect _ _ =>
    obtain ⟨hzero, e', hread, rfl⟩ := tokenOf_eq_defect hw
    exact .word hat hpasses.of_append hkind hwords hseen' hzero hread
  | close _ fails =>
    cases tokenOf_eq_close hw
    exact .fold hat hpasses.of_append hkind hwords hseen' fails

theorem Whole.exists_rest {passed : List Text.Line} (h : Whole lines passed) : ∃ rest, lines = passed ++ rest := by
  rcases h.rest with rfl | ⟨line, after, -, rfl⟩
  · exact ⟨[], (List.append_nil _).symm⟩
  · exact ⟨line :: after, rfl⟩

variable {clauses : List (List Formula)}

/-- a file whose tokens are all gone over has no line with a fault -/
theorem Tokenizes.whole_of_comprises {ts : List Token} (h : Tokenizes [] lines ts) (hcomprises : Comprises ts clauses) :
    ∃ passed, Whole lines passed ∧ Comprises (passed.flatMap lineTokens) clauses := by
  cases h with
  | @whole passed whole => exact ⟨passed, whole, hcomprises⟩
  | @fault _ _ _ e _ _ _ => exact absurd (List.mem_append_right _ (List.mem_singleton_self _)) (hcomprises.defect_not_mem e)

/-- where tokens stop, the file is not read on -/
theorem Tokenizes.interruption {ts left : List Token} {e : Error} (h : Tokenizes [] lines ts)
    (hparts : ts = written clauses ++ pending.map .literal ++ left) (hstops : Stops how s pending left e) :
    Interruption how s lines (written clauses ++ pending.map .literal) pending e := by
  cases h with
  | @whole passed whole =>
    cases left with
    | nil =>
      cases hstops with
      | last not_closed fails =>
        have hseen : written clauses ++ pending.map .literal = passed.flatMap lineTokens := by rw [hparts, List.append_nil]
        exact .last whole hseen not_closed fails
    | cons t left =>
      obtain ⟨rest, hrest⟩ := Whole.exists_rest whole
      exact .ofWord hrest whole.passes hparts hstops
  | @fault passed after line e' rest_eq passes fault =>
    rcases List.eq_nil_or_concat left with rfl | ⟨left, last, rfl⟩
    · have hdefect : .defect e' ∈ written clauses ++ pending.map .literal := by
        rw [← List.append_nil (written clauses ++ _), ← hparts]
        exact List.mem_append_right _ (List.mem_singleton_self _)
      exact absurd hdefect (defect_not_mem_written clauses pending e')
    · -- the fault of the line is the last token, so a stop ahead of it is at a word
      rw [List.concat_eq_append, ← List.append_assoc] at hparts
      obtain ⟨hseen, hlast⟩ := List.append_inj' hparts rfl
      cases hlast
      cases left with
      | nil =>
        cases hstops with
        | defect _ _ => exact .line rest_eq passes (by rw [hseen, List.append_nil]) fault
      | cons t left => exact .ofWord rest_eq passes hseen hstops

/-- what has been gone over where a file is not read on: the clauses that are folded, and the literals of one that is open -/
theorem exists_interruption {e : Error} (h : (s.readDimacs how lines).1 = .error e) :
    ∃ pending, Interruption how (s.readDimacs how lines).2 lines
      (written (foldedFrom how s [] (tokens lines)) ++ pending.map .literal) pending e := by
  have hend := consume_cases how s [] 0 (tokens lines)
  rw [← readDimacs_eq_consume, h] at hend
  rcases hend with ⟨hcount, -⟩ | ⟨e', pending, left, herror, hparts, hstops⟩
  · cases hcount
  · cases herror
    exact ⟨pending, (tokens_spec lines).interruption hparts hstops⟩

end Dimacs

open Dimacs

/-- **Whatever ends the reading of a clause file, the clauses that were closed by then are folded, and nothing else.** A file
that is read has all its clauses folded, one that is left open at its end too. In one that is not, what has been gone over
is the folded clauses and the literals of one that is open, up to a line with a fault, a word that is no literal, or a clause
that cannot be folded. -/
theorem Fold.readDimacs_folds_closed (how : Folding) (s : Fold) (lines : List Text.Line) :
    ∃ clauses, clauses.foldlM (addClause how) s = .ok (s.readDimacs how lines).2 ∧
      (s.readDimacs how lines).2.clauses = s.clauses + clauses.length ∧
      (∀ d, (s.readDimacs how lines).1 = .ok d → d.clauses = clauses.length ∧
        ∃ passed, Whole lines passed ∧ Comprises (passed.flatMap lineTokens) clauses) ∧
      ∀ e, (s.readDimacs how lines).1 = .error e → ∃ pending, Interruption how (s.readDimacs how lines).2 lines
        (written clauses ++ pending.map .literal) pending e := by
  have hfold := foldlM_foldedFrom how s [] 0 (tokens lines)
  have hend := consume_cases how s [] 0 (tokens lines)
  rw [← readDimacs_eq_consume] at hfold hend
  refine ⟨foldedFrom how s [] (tokens lines), hfold, clauses_foldlM hfold, ?_, ?_⟩
  · intro d hd
    rw [hd] at hend
    rcases hend with ⟨hcount, hcomprises⟩ | ⟨e, _, _, herror, -, -⟩
    · exact ⟨(Except.ok.inj hcount).trans (Nat.zero_add _), (tokens_spec lines).whole_of_comprises hcomprises⟩
    · cases herror
  · intro e he
    exact exists_interruption he

def plainFolding : Folding := ⟨fun _ => none, 8⟩

/-- a line that closes a clause, and has a literal and then a word that is no literal -/
def brokenLine : List Text.Line := [.ok "1 -2 0 3 x 0".toList]

/-- a file with a clause that is open at its end -/
def endedLines : List Text.Line := [.ok "1 -2 0 3".toList, .ok "% 4 0".toList]

theorem Fold.readDimacs_folds_closed_brokenLine :
    (∃ clauses pending, clauses.length = 1 ∧
      clauses.foldlM (addClause plainFolding) empty = .ok (empty.readDimacs plainFolding brokenLine).2 ∧
      Interruption plainFolding (empty.readDimacs plainFolding brokenLine).2 brokenLine
        (written clauses ++ pending.map .literal) pending (.read (.literal ['x']))) ∧
    ∃ clauses passed, clauses.length = 2 ∧
      clauses.foldlM (addClause plainFolding) empty = .ok (empty.readDimacs plainFolding endedLines).2 ∧
      Whole endedLines passed ∧ Comprises (passed.flatMap lineTokens) clauses := by
  refine ⟨?_, ?_⟩
  · have herror : (empty.readDimacs plainFolding brokenLine).1 = .error (.read (.literal ['x'])) := rfl
    obtain ⟨clauses, hfold, hcount, -, hinterrupted⟩ := readDimacs_folds_closed plainFolding empty brokenLine
    obtain ⟨pending, hpending⟩ := hinterrupted _ herror
    have hone : (empty.readDimacs plainFolding brokenLine).2.clauses = 0 + 1 := rfl
    exact ⟨clauses, pending, (Nat.add_left_cancel (hone.symm.trans hcount)).symm, hfold, hpending⟩
  · have hok : (empty.readDimacs plainFolding endedLines).1 = .ok ⟨none, 2⟩ := rfl
    obtain ⟨clauses, hfold, -, hread, -⟩ := readDimacs_folds_closed plainFolding empty endedLines
    obtain ⟨htwo, passed, hwhole, hcomprises⟩ := hread _ hok
    exact ⟨clauses, passed, htwo.symm, hfold, hwhole, hcomprises⟩

end ClauseFold
