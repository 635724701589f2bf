/-
Clause files and the way they are laid out. A list of clauses can be written in many ways: with any white space between the
words, with line breaks anywhere between them, with blank lines and comments between the lines, with or without a problem
line ahead of the clauses, with the last clause left open, and with anything at all behind a line that begins with `%`. The
relation `Layout` says which bytes write which clauses, without a look at any reader; reading them is folding the clauses.

Results:
- `linesOfBytes_of_ends`: the bytes have the lines that were written, and behind them lines that say nothing;
- `tokensFrom_of_spread`, `ahead_of_heads`: the tokens of lines are those of the words that are spread over them;
- `consume_of_writes`: going over the tokens of clauses is folding the clauses, up to the first that fails;
- `readDimacs_of_layout`: reading a file that is laid out is folding its clauses.
-/
import Mathlib.Data.List.Forall2
import ClauseFold.Proofs.Fold.Tokens
import ClauseFold.Proofs.Text.Lines
import ClauseFold.Proofs.Text.Words

namespace ClauseFold

/-- a variable that is negated or not -/
structure Literal where
  negated : Bool
  id : VarId
deriving DecidableEq, Repr

namespace Literal

def formula (l : Literal) : Formula := if l.negated then .neg (.var l.id) else .var l.id

/-- a word that writes a literal -/
inductive Written (l : Literal) : List Char → Prop where
  | positive {w : List Char} (h : l.negated = false) (hw : Text.Numeral l.id.val w) : Written l w
  | negative {w : List Char} (h : l.negated = true) (hw : Text.Numeral l.id.val w) : Written l ('-' :: w)

end Literal

/-- folds clauses one after the other, up to the first that fails; what was folded before it stays -/
def Fold.addClauses (how : Folding) (s : Fold) : List (List Formula) → Except ReductionError Unit × Fold
  | [] => (.ok (), s)
  | c :: clauses =>
    match s.addClause how c with
    | .ok s' => addClauses how s' clauses
    | .error e => (.error e, s)

namespace Dimacs

/-! ## Layouts -/

/-- the words of clauses, each closed by a zero; the last may stay open unless it is empty -/
inductive Writes : List (List Literal) → List (List Char) → Prop where
  | nil : Writes [] []
  | closed {clause : List Literal} {clauses : List (List Literal)} {ws more : List (List Char)}
    (h : List.Forall₂ Literal.Written clause ws) (rest : Writes clauses more) :
    Writes (clause :: clauses) (ws ++ ['0'] :: more)
  | unclosed {clause : List Literal} {ws : List (List Char)} (h : List.Forall₂ Literal.Written clause ws)
    (hne : clause ≠ []) : Writes [clause] ws

/-- a line that begins with a symbol, but for white space -/
def Begins (c : Char) (line : List Char) : Prop := ∃ gap rest, Text.Gap gap ∧ line = gap ++ c :: rest

/-- a line that says nothing: a blank one, or a comment -/
def Idle (line : List Char) : Prop := Text.Gap line ∨ Begins 'c' line

/-- lines over which words are spread, in order, with idle lines between them -/
inductive Spread : List (List Char) → List (List Char) → Prop where
  | nil : Spread [] []
  | idle {ws lines : List (List Char)} {line : List Char} (h : Idle line) (rest : Spread ws lines) :
    Spread ws (line :: lines)
  | line {w : List Char} {ws more lines : List (List Char)} {line : List Char} (h : Text.Spaced line (w :: ws))
    (rest : Spread more lines) : Spread (w :: ws ++ more) (line :: lines)

/-- what stands ahead of the clauses: a problem line with two counts, behind idle lines, or nothing -/
inductive Heads : Option (Nat × Nat) → List (List Char) → Prop where
  | none : Heads none []
  | problem {lines : List (List Char)} {line declared clauses : List Char} {v c : Nat}
    (hidle : ∀ l ∈ lines, Idle l) (hline : Text.Spaced line [['p'], ['c', 'n', 'f'], declared, clauses])
    (hdeclared : Text.Numeral v declared) (hv : v < Text.countBound)
    (hclauses : Text.Numeral c clauses) (hc : c < Text.countBound) : Heads (some (v, c)) (lines ++ [line])

/-- the bytes of lines. The last line need not be closed. A line that begins with `%` may come behind the lines, and then
any bytes; the line itself is text, as every line is that a reader gets to. -/
inductive Ends (lines : List (List Char)) : List UInt8 → Prop where
  | closed : Ends lines (Text.utf8 (Text.closed lines))
  | unclosed {front : List (List Char)} {last : List Char} (h : lines = front ++ [last]) (hne : last ≠ []) :
    Ends lines (Text.utf8 (Text.closed front) ++ Text.utf8 last)
  | stopped {stop : List Char} (h : Begins '%' stop) (hbreak : '\n' ∉ stop) :
    Ends lines (Text.utf8 (Text.closed lines) ++ Text.utf8 stop)
  | followed {stop : List Char} (h : Begins '%' stop) (hbreak : '\n' ∉ stop) (bytes : List UInt8) :
    Ends lines (Text.utf8 (Text.closed (lines ++ [stop])) ++ bytes)

/-- bytes that write clauses, with the counts of a problem line or without one -/
inductive Layout (clauses : List (List Literal)) (counts : Option (Nat × Nat)) (bytes : List UInt8) : Prop where
  | intro {head body ws : List (List Char)} (hhead : Heads counts head) (hwrites : Writes clauses ws)
    (hbody : Spread ws body) (hbreak : ∀ line ∈ head ++ body, '\n' ∉ line) (hends : Ends (head ++ body) bytes)

/-! ## Words -/

/-- a word of a literal has no other symbols than digits and signs -/
theorem symbols_of_written {l : Literal} {w : List Char} (h : l.Written w) :
    w ≠ [] ∧ ∀ c ∈ w, c.isDigit = true ∨ c = '+' ∨ c = '-' := by
  cases h with
  | positive _ hw =>
    obtain ⟨hne, hsymbols⟩ := Text.symbols_of_numeral hw
    refine ⟨hne, ?_⟩
    intro c hc
    exact (hsymbols c hc).imp_right Or.inl
  | negative _ hw =>
    obtain ⟨-, hsymbols⟩ := Text.symbols_of_numeral hw
    refine ⟨List.cons_ne_nil _ _, ?_⟩
    intro c hc
    rcases List.mem_cons.mp hc with rfl | hc
    · exact Or.inr (Or.inr rfl)
    · exact (hsymbols c hc).imp_right Or.inl

theorem not_blank_of_written {l : Literal} {w : List Char} (h : l.Written w) : ∀ c ∈ w, Text.isBlank c = false := by
  intro c hc
  rcases (symbols_of_written h).2 c hc with hdigit | rfl | rfl
  · exact Text.isBlank_of_isDigit hdigit
  · decide
  · decide

theorem ofLiteral?_of_written {l : Literal} {w : List Char} (h : l.Written w) :
    Formula.ofLiteral? w = some l.formula := by
  cases h with
  | negative hnegated hw =>
    have hread := Text.readNumeral_of_numeral l.id.lt hw
    simp [Formula.ofLiteral?, hread, VarId.ofNat?_val, Literal.formula, hnegated]
  | positive hnegated hw =>
    have hread := Text.readNumeral_of_numeral l.id.lt hw
    unfold Formula.ofLiteral?
    split
    · rename_i name
      rcases (Text.symbols_of_numeral hw).2 '-' List.mem_cons_self with hdigit | hplus
      · cases hdigit
      · cases hplus
    · simp [hread, VarId.ofNat?_val, Literal.formula, hnegated]

/-- the word of a literal is read as the literal, and never closes a clause -/
theorem tokenOf_of_written {l : Literal} {w : List Char} (h : l.Written w) : tokenOf w = .literal l.formula := by
  have hliteral := ofLiteral?_of_written h
  have hread : readLiteral w = .ok l.formula := by
    unfold readLiteral
    simp only [Text.trim_of_no_blank (not_blank_of_written h), hliteral]
  have hclose : w ≠ ['0'] := by
    rintro rfl
    have hzero : Formula.ofLiteral? ['0'] = none := by decide
    rw [hzero] at hliteral
    cases hliteral
  unfold tokenOf
  rw [if_neg hclose, hread]

/-- what a word of a clause begins with -/
def StartsClause (w : List Char) : Prop := ∃ c cs, w = c :: cs ∧ c ≠ 'c' ∧ c ≠ '%' ∧ c ≠ 'p'

theorem startsClause_of_written {l : Literal} {w : List Char} (h : l.Written w) : StartsClause w := by
  obtain ⟨hne, hsymbols⟩ := symbols_of_written h
  obtain ⟨c, cs, rfl⟩ := List.exists_cons_of_ne_nil hne
  have hc := hsymbols c List.mem_cons_self
  refine ⟨c, cs, rfl, ?_, ?_, ?_⟩
  · rintro rfl
    revert hc
    decide
  · rintro rfl
    revert hc
    decide
  · rintro rfl
    revert hc
    decide

theorem startsClause_of_mem {clause : List Literal} {ws : List (List Char)} (h : List.Forall₂ Literal.Written clause ws) :
    ∀ w ∈ ws, StartsClause w := by
  induction h with
  | nil => exact fun w hw => absurd hw List.not_mem_nil
  | cons h _ ih => exact List.forall_mem_cons.mpr ⟨startsClause_of_written h, ih⟩

theorem startsClause_of_writes {clauses : List (List Literal)} {ws : List (List Char)} (h : Writes clauses ws) :
    ∀ w ∈ ws, StartsClause w := by
  induction h with
  | nil => exact fun w hw => absurd hw List.not_mem_nil
  | unclosed h _ => exact startsClause_of_mem h
  | closed h _ ih =>
    intro w hw
    rcases List.mem_append.mp hw with hliteral | hrest
    · exact startsClause_of_mem h w hliteral
    · rcases List.mem_cons.mp hrest with rfl | hmore
      · exact ⟨'0', [], rfl, by decide, by decide, by decide⟩
      · exact ih w hmore

theorem consume_literals {clause : List Literal} {ws : List (List Char)} (h : List.Forall₂ Literal.Written clause ws)
    (how : Folding) (s : Fold) (literals : List Formula) (count : Nat) (ts : List Token) :
    consume how s literals count (ws.map tokenOf ++ ts) =
      consume how s ((clause.map Literal.formula).reverse ++ literals) count ts := by
  induction h generalizing literals with
  | nil => rfl
  | @cons l w clause ws h _ ih =>
    rw [List.map_cons, tokenOf_of_written h, List.cons_append]
    show consume how s (l.formula :: literals) count (ws.map tokenOf ++ ts) = _
    rw [ih]
    simp

/-- going over the words of clauses is folding the clauses, up to the first that fails -/
theorem consume_of_writes {clauses : List (List Literal)} {ws : List (List Char)} (h : Writes clauses ws)
    (how : Folding) (s : Fold) (count : Nat) :
    consume how s [] count (ws.map tokenOf) =
      match s.addClauses how (clauses.map fun clause => clause.map Literal.formula) with
      | (.ok (), s') => (.ok (count + clauses.length), s')
      | (.error e, s') => (.error (.reduction e), s') := by
  induction h generalizing s count with
  | nil => rfl
  | @unclosed clause ws h hne =>
    have hopen : ¬(clause.map Literal.formula).reverse.isEmpty = true := by simpa using hne
    have htokens := consume_literals h how s [] count []
    rw [List.append_nil, List.append_nil] at htokens
    rw [htokens, List.map_singleton]
    simp only [consume, Fold.addClauses, if_neg hopen, List.reverse_reverse, List.length_singleton]
    cases s.addClause how (clause.map Literal.formula) <;> rfl
  | @closed clause clauses ws more h _ ih =>
    have hzero : tokenOf ['0'] = .close := rfl
    rw [List.map_append, List.map_cons, hzero, consume_literals h, List.map_cons]
    simp only [consume, Fold.addClauses, List.append_nil, List.reverse_reverse, List.length_cons]
    cases s.addClause how (clause.map Literal.formula) with
    | error e => rfl
    | ok s' =>
      simp only [ih, Nat.add_assoc, Nat.add_comm 1]

/-! ## Lines -/

theorem kindOf_of_begins {c : Char} (hc : Text.isBlank c = false) {line : List Char} (h : Begins c line) :
    kindOf line = if c = 'c' then .nothing else if c = '%' then .stop else if c = 'p' then .problem else .clauses := by
  obtain ⟨gap, rest, hgap, rfl⟩ := h
  have htrim : Text.trimStart (gap ++ c :: rest) = c :: rest := by
    rw [Text.trimStart_gap_append hgap]
    apply List.dropWhile_cons_of_neg
    rw [hc]
    exact Bool.false_ne_true
  unfold kindOf
  rw [htrim]
  rfl

theorem kindOf_of_idle {line : List Char} (h : Idle line) : kindOf line = .nothing := by
  rcases h with hgap | hcomment
  · have htrim : Text.trimStart line = [] := by
      have := Text.trimStart_gap_append hgap []
      rwa [List.append_nil] at this
    unfold kindOf
    rw [htrim]
    rfl
  · exact kindOf_of_begins (by decide) hcomment

/-- a line of words begins with what its first word begins with -/
theorem begins_of_spaced {line w : List Char} {c : Char} {cs : List Char} {ws : List (List Char)}
    (h : Text.Spaced line (w :: ws)) (hw : w = c :: cs) : Text.isBlank c = false ∧ Begins c line := by
  cases h with
  | @word gap _ rest _ hgap hne hblank hrest h =>
    subst hw
    exact ⟨hblank c List.mem_cons_self, gap, cs ++ rest, hgap, by simp⟩

theorem kindOf_of_spaced {line w : List Char} {ws : List (List Char)} (h : Text.Spaced line (w :: ws))
    (hw : StartsClause w) : kindOf line = .clauses := by
  obtain ⟨c, cs, hcons, hcomment, hstop, hproblem⟩ := hw
  obtain ⟨hblank, hbegins⟩ := begins_of_spaced h hcons
  rw [kindOf_of_begins hblank hbegins, if_neg hcomment, if_neg hstop, if_neg hproblem]

theorem problem?_of_spaced {line declared clauses : List Char} {v c : Nat}
    (h : Text.Spaced line [['p'], ['c', 'n', 'f'], declared, clauses])
    (hdeclared : Text.Numeral v declared) (hv : v < Text.countBound)
    (hclauses : Text.Numeral c clauses) (hc : c < Text.countBound) : Reader.problem? line = some (v, c) := by
  unfold Reader.problem?
  rw [Text.words_of_spaced h]
  simp [Text.readNumeral_of_numeral hv hdeclared, Text.readNumeral_of_numeral hc hclauses]

/-- lines that come after all clauses say nothing, wherever they are met -/
structure Silent (tail : List Text.Line) : Prop where
  tokens : ∀ number preamble declared, tokensFrom number preamble declared tail = []
  counts : ∀ counts, countsFrom counts tail = counts

theorem silent_nil : Silent [] := ⟨fun _ _ _ => rfl, fun _ => rfl⟩

theorem silent_stop {stop : List Char} (h : Begins '%' stop) (rest : List Text.Line) : Silent (.ok stop :: rest) := by
  have hkind : kindOf stop = .stop := kindOf_of_begins (by decide) h
  constructor
  · intro number preamble declared
    simp only [tokensFrom, hkind]
  · intro counts
    simp only [countsFrom, hkind]

/-- the lines of a file, and what comes behind them -/
theorem linesOfBytes_of_ends {lines : List (List Char)} {bytes : List UInt8} (h : Ends lines bytes)
    (hbreak : ∀ line ∈ lines, '\n' ∉ line) :
    ∃ tail, Silent tail ∧ Text.linesOfBytes bytes = lines.map .ok ++ tail := by
  cases h with
  | closed =>
    refine ⟨[], silent_nil, ?_⟩
    rw [Text.linesOfBytes_utf8, Text.linesOfText_closed hbreak, List.append_nil]
  | @unclosed front last h hne =>
    subst h
    obtain ⟨hfront, hlast⟩ := List.forall_mem_append.mp hbreak
    refine ⟨[], silent_nil, ?_⟩
    rw [Text.linesOfBytes_closed_append hfront, Text.linesOfBytes_utf8,
      Text.linesOfText_of_line (hlast last List.mem_cons_self) hne]
    simp
  | @stopped stop h hstop =>
    have hne : stop ≠ [] := by
      obtain ⟨gap, rest, -, rfl⟩ := h
      simp
    refine ⟨[.ok stop], silent_stop h [], ?_⟩
    rw [Text.linesOfBytes_closed_append hbreak, Text.linesOfBytes_utf8, Text.linesOfText_of_line hstop hne]
  | @followed stop h hstop bytes =>
    have hall : ∀ line ∈ lines ++ [stop], '\n' ∉ line :=
      List.forall_mem_append.mpr ⟨hbreak, by simpa using hstop⟩
    refine ⟨.ok stop :: Text.linesOfBytes bytes, silent_stop h _, ?_⟩
    rw [Text.linesOfBytes_closed_append hall]
    simp

theorem tokensFrom_of_spread {ws lines : List (List Char)} (h : Spread ws lines) (hws : ∀ w ∈ ws, StartsClause w)
    {tail : List Text.Line} (htail : Silent tail) (number : Nat) (preamble declared : Bool) :
    tokensFrom number preamble declared (lines.map .ok ++ tail) = ws.map tokenOf := by
  induction h generalizing number preamble with
  | nil => exact htail.tokens number preamble declared
  | idle h _ ih =>
    simp only [List.map_cons, List.cons_append, tokensFrom, kindOf_of_idle h]
    exact ih hws (number + 1) preamble
  | @line w ws more lines line h rest ih =>
    have hkind : kindOf line = .clauses := kindOf_of_spaced h (hws w (by simp))
    have hmore : ∀ w' ∈ more, StartsClause w' := fun w' hw' => hws w' (by simp [hw'])
    simp only [List.map_cons, List.cons_append, tokensFrom, hkind, Text.words_of_spaced h, ih hmore (number + 1) false,
      List.map_append]

theorem countsFrom_of_spread {ws lines : List (List Char)} (h : Spread ws lines) (hws : ∀ w ∈ ws, StartsClause w)
    {tail : List Text.Line} (htail : Silent tail) (counts : Option (Nat × Nat)) :
    countsFrom counts (lines.map .ok ++ tail) = counts := by
  induction h with
  | nil => exact htail.counts counts
  | idle h _ ih =>
    simp only [List.map_cons, List.cons_append, countsFrom, kindOf_of_idle h]
    exact ih hws
  | @line w ws more lines line h rest ih =>
    have hkind : kindOf line = .clauses := kindOf_of_spaced h (hws w (by simp))
    simp only [List.map_cons, List.cons_append, countsFrom, hkind]

/-- idle lines only move the reader on -/
theorem ahead_of_idle {lines : List (List Char)} (h : ∀ line ∈ lines, Idle line) (number : Nat) (preamble declared : Bool)
    (counts : Option (Nat × Nat)) (rest : List Text.Line) :
    tokensFrom number preamble declared (lines.map .ok ++ rest) =
        tokensFrom (number + lines.length) preamble declared rest ∧
      countsFrom counts (lines.map .ok ++ rest) = countsFrom counts rest := by
  induction lines generalizing number with
  | nil => exact ⟨rfl, rfl⟩
  | cons line lines ih =>
    obtain ⟨hline, hlines⟩ := List.forall_mem_cons.mp h
    simp only [List.map_cons, List.cons_append, tokensFrom, countsFrom, kindOf_of_idle hline]
    have hrest := ih hlines (number + 1)
    rwa [Nat.add_assoc, Nat.add_comm 1] at hrest

/-- the lines ahead of the clauses write no token, and leave their counts -/
theorem ahead_of_heads {counts : Option (Nat × Nat)} {head : List (List Char)} (h : Heads counts head) :
    ∃ number declared, ∀ rest, tokens (head.map .ok ++ rest) = tokensFrom number true declared rest ∧
      countsFrom none (head.map .ok ++ rest) = countsFrom counts rest := by
  cases h with
  | none => exact ⟨0, false, fun rest => ⟨rfl, rfl⟩⟩
  | @problem lines line declared clauses v c hidle hline hdeclared hv hclauses hc =>
    have hkind : kindOf line = .problem := by
      obtain ⟨hblank, hbegins⟩ := begins_of_spaced hline rfl
      exact kindOf_of_begins hblank hbegins
    have hproblem := problem?_of_spaced hline hdeclared hv hclauses hc
    refine ⟨lines.length + 1, true, ?_⟩
    intro rest
    obtain ⟨htokens, hcounts⟩ := ahead_of_idle hidle 0 true false none (.ok line :: rest)
    rw [Nat.zero_add] at htokens
    rw [List.map_append, List.append_assoc, List.map_singleton, List.singleton_append]
    unfold tokens
    rw [htokens, hcounts]
    constructor
    · simp only [tokensFrom, hkind, hproblem]
      rfl
    · simp only [countsFrom, hkind, hproblem]

/-- **The layout of a clause file makes no difference.** However clauses are laid out, reading them is folding one after the
other, up to the first that fails; without a failure the counts of the problem line and the number of clauses are
reported. -/
theorem readDimacs_of_layout (how : Folding) (s : Fold) {clauses : List (List Literal)} {counts : Option (Nat × Nat)}
    {bytes : List UInt8} (h : Layout clauses counts bytes) :
    s.readDimacs how (Text.linesOfBytes bytes) =
      match s.addClauses how (clauses.map fun clause => clause.map Literal.formula) with
      | (.ok (), s') => (.ok ⟨counts, clauses.length⟩, s')
      | (.error e, s') => (.error (.reduction e), s') := by
  obtain @⟨head, body, ws, hhead, hwrites, hbody, hbreak, hends⟩ := h
  obtain ⟨tail, htail, hlines⟩ := linesOfBytes_of_ends hends hbreak
  obtain ⟨number, declared, hahead⟩ := ahead_of_heads hhead
  have hws := startsClause_of_writes hwrites
  have htokens : tokens (Text.linesOfBytes bytes) = ws.map tokenOf := by
    rw [hlines, List.map_append, List.append_assoc, (hahead _).1, tokensFrom_of_spread hbody hws htail]
  have hcounts : countsFrom none (Text.linesOfBytes bytes) = counts := by
    rw [hlines, List.map_append, List.append_assoc, (hahead _).2, countsFrom_of_spread hbody hws htail]
  have hread := readDimacs_eq_consume how s (Text.linesOfBytes bytes)
  have hexpected : ∀ summary, (s.readDimacs how (Text.linesOfBytes bytes)).1 = .ok summary →
      summary.expected = counts := by
    intro summary hsummary
    rw [expected_of_readDimacs hsummary, hcounts]
  rw [htokens, consume_of_writes hwrites] at hread
  generalize s.readDimacs how (Text.linesOfBytes bytes) = read at hread hexpected ⊢
  generalize s.addClauses how (clauses.map fun clause => clause.map Literal.formula) = folded at hread ⊢
  obtain ⟨result, s₁⟩ := read
  obtain ⟨outcome, s₂⟩ := folded
  cases outcome with
  | error e =>
    obtain ⟨hmap, rfl⟩ := Prod.mk.inj hread
    cases result with
    | error e' =>
      cases hmap
      rfl
    | ok summary => cases hmap
  | ok _ =>
    obtain ⟨hmap, rfl⟩ := Prod.mk.inj hread
    cases result with
    | error e' => cases hmap
    | ok summary =>
      have hcount : summary.clauses = 0 + clauses.length := Except.ok.inj hmap
      rw [Nat.zero_add] at hcount
      rw [← hexpected summary rfl, ← hcount]

/-- a comment, a problem line, a clause over three lines with a comment between them, an open clause, and a `%` ahead of
what is no text -/
theorem readDimacs_of_layout_openClause :
    let bytes := Text.utf8 (Text.closed [['c'], [' ', 'p', ' ', 'c', 'n', 'f', ' ', '2', ' ', '0', '2'], ['+', '1'],
      [' ', 'c', 'p'], ['-', '2', '\r'], ['0', '\t', '2'], ['%']]) ++ [255]
    let one : VarId := ⟨1, by decide, by decide⟩
    let two : VarId := ⟨2, by decide, by decide⟩
    Layout [[⟨false, one⟩, ⟨true, two⟩], [⟨false, two⟩]] (some (2, 2)) bytes ∧
      Fold.empty.readDimacs ⟨fun _ => none, 1⟩ (Text.linesOfBytes bytes) =
        (.ok ⟨some (2, 2), 2⟩, ⟨some (.conj (.imp (.neg (.var one)) (.neg (.var two))) (.var two)), 2, 9, 9⟩) := by
  intro bytes one two
  have hone : Text.Numeral one.val ['1'] := @Text.Numeral.plain 1 0
  have hplus : Text.Numeral one.val ['+', '1'] := @Text.Numeral.plus 1 0
  have htwo : Text.Numeral two.val ['2'] := @Text.Numeral.plain 2 0
  have hzerotwo : Text.Numeral two.val ['0', '2'] := @Text.Numeral.plain 2 1
  have hlayout : Layout [[⟨false, one⟩, ⟨true, two⟩], [⟨false, two⟩]] (some (2, 2)) bytes := by
    refine @Layout.intro _ _ _ [['c'], [' ', 'p', ' ', 'c', 'n', 'f', ' ', '2', ' ', '0', '2']]
      [['+', '1'], [' ', 'c', 'p'], ['-', '2', '\r'], ['0', '\t', '2']] [['+', '1'], ['-', '2'], ['0'], ['2']] ?_ ?_ ?_ ?_ ?_
    · refine @Heads.problem [['c']] _ _ _ _ _ ?_ (Text.spaced_words _) htwo (by decide) hzerotwo (by decide)
      exact List.forall_mem_singleton.mpr (Or.inr ⟨[], [], by simp [Text.Gap], rfl⟩)
    · exact .closed (.cons (.positive rfl hplus) (.cons (.negative rfl htwo) .nil))
        (.unclosed (.cons (.positive rfl htwo) .nil) (by decide))
    · have hcomment : Idle [' ', 'c', 'p'] := Or.inr ⟨[' '], ['p'], by simp [Text.Gap]; decide, rfl⟩
      have hfirst : Text.Spaced ['+', '1'] [['+', '1']] := Text.spaced_words _
      have hsecond : Text.Spaced ['-', '2', '\r'] [['-', '2']] := Text.spaced_words _
      have hthird : Text.Spaced ['0', '\t', '2'] [['0'], ['2']] := Text.spaced_words _
      exact .line hfirst (.idle hcomment (.line hsecond (.line hthird .nil)))
    · decide
    · exact .followed ⟨[], [], by simp [Text.Gap], rfl⟩ (by decide) [255]
  refine ⟨hlayout, ?_⟩
  rw [readDimacs_of_layout ⟨fun _ => none, 1⟩ Fold.empty hlayout]
  rfl

end Dimacs

end ClauseFold
