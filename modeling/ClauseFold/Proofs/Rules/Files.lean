/-
A rule file means the set of its lines. Of a file only the significant lines count, and of each of these only its words:
comments and blank lines, white space, the order of the lines and repetitions make no difference.

Results:
- `readFrom_eq_ok_iff`: a file is read if and only if each significant line asks for an addition and the additions are all
  accepted, one after the other;
- `words_ruleLine`: a rule is written so that its words are the two encodings;
- `ofLines_same_lines`: files with the same significant lines are read alike, and a set that is written out, one rule or
  canonical formula a line, is read back as it was.
-/
import ClauseFold.Proofs.Rules.Order
import ClauseFold.Proofs.Text.Lines
import ClauseFold.Proofs.Text.Words

namespace ClauseFold

/-! ## Significant lines -/

namespace RuleFile

open RuleSet (Addition)

/-- whether a line says anything: it is neither blank nor a comment, which begins with `c` -/
def isSignificant (line : List Char) : Bool :=
  match Text.trimStart line with
  | [] => false
  | c :: _ => c != 'c'

/-- what a line says, if it says anything: its words, or that it could not be read -/
def said? : Text.Line → Option (Except Text.LineFailure (List (List Char)))
  | .ok line => if isSignificant line then some (.ok (Text.words line)) else none
  | .error e => some (.error e)

/-- what the significant lines of a file say -/
def significant (lines : List Text.Line) : List (Except Text.LineFailure (List (List Char))) := lines.filterMap said?

/-- what a line asks to be added, by what it says: a canonical formula, or a rule -/
def addition? : Except Text.LineFailure (List (List Char)) → Option Addition
  | .ok [c] => (Formula.decode? c).toOption.map .canonical
  | .ok [p, c] => (Formula.decode? p).toOption.bind fun p => (Formula.decode? c).toOption.map fun c => .rule ⟨p, c⟩
  | _ => none

def entryOfWords : List (List Char) → Entry
  | [c] => .canonical c
  | [p, c] => .rule p c
  | _ => .tooMany

/-- a line that says nothing asks for nothing -/
theorem entryOf_of_not_significant {line : List Char} (h : ¬isSignificant line = true) : entryOf line = .nothing := by
  unfold isSignificant at h
  unfold entryOf
  rcases Text.words_of_trimStart line with ⟨-, hwords⟩ | ⟨c, rest, w, ws, htrim, hwords⟩
  · simp only [hwords]
  · rw [htrim] at h
    have hc : c = 'c' := by simpa using h
    subst hc
    simp only [hwords]

theorem entryOf_of_significant {line : List Char} (h : isSignificant line = true) :
    entryOf line = entryOfWords (Text.words line) := by
  unfold isSignificant at h
  rcases Text.words_of_trimStart line with ⟨htrim, -⟩ | ⟨c, rest, w, ws, htrim, hwords⟩
  · rw [htrim] at h
    cases h
  · rw [htrim] at h
    have hc : c ≠ 'c' := by simpa using h
    unfold entryOf
    rw [hwords]
    rcases ws with _ | ⟨d, _ | ⟨e, ws⟩⟩ <;> split <;> simp_all [entryOfWords]

/-- the words of a significant line ask for an addition, which is made -/
theorem addEntry_entryOf {line : List Char} (h : isSignificant line = true) {number : Nat} {s s' : RuleSet} :
    addEntry number s (entryOf line) = .ok s' ↔
      ∃ a, addition? (.ok (Text.words line)) = some a ∧ a.change.apply s = .ok s' := by
  rw [entryOf_of_significant h]
  rcases Text.words line with _ | ⟨c, _ | ⟨d, _ | ⟨e, ws⟩⟩⟩
  · simp [entryOfWords, addEntry, addition?]
  · simp only [entryOfWords, addEntry, addition?, readFormula, bind_eq_ok, mapError_eq_ok, Option.map_eq_some_iff,
      toOption_eq_some]
    refine ⟨?_, ?_⟩
    · intro hadd
      obtain ⟨f, hf, hadd⟩ := hadd
      exact ⟨_, ⟨f, hf, rfl⟩, hadd⟩
    · intro hadd
      obtain ⟨a, ⟨f, hf, rfl⟩, hadd⟩ := hadd
      exact ⟨f, hf, hadd⟩
  · simp only [entryOfWords, addEntry, addition?, readFormula, bind_eq_ok, mapError_eq_ok, Option.bind_eq_some_iff,
      Option.map_eq_some_iff, toOption_eq_some]
    refine ⟨?_, ?_⟩
    · intro hadd
      obtain ⟨p, hp, f, hf, hadd⟩ := hadd
      exact ⟨_, ⟨p, hp, f, hf, rfl⟩, hadd⟩
    · intro hadd
      obtain ⟨a, ⟨p, hp, f, hf, rfl⟩, hadd⟩ := hadd
      exact ⟨p, hp, f, hf, hadd⟩
  · simp [entryOfWords, addEntry, addition?]

theorem readLine_eq_ok_iff {line : Text.Line} {number : Nat} {s s' : RuleSet} :
    readLine number s line = .ok s' ↔
      match said? line with
      | none => s' = s
      | some said => ∃ a, addition? said = some a ∧ a.change.apply s = .ok s' := by
  cases line with
  | error e => cases e <;> simp [readLine, said?, addition?]
  | ok line =>
    unfold readLine said?
    by_cases h : isSignificant line = true
    · simp only [if_pos h]
      exact addEntry_entryOf h
    · simp only [if_neg h, entryOf_of_not_significant h, addEntry, Except.ok.injEq]
      exact eq_comm

/-- a file is read if and only if each significant line asks for an addition, and all additions are accepted -/
theorem readFrom_eq_ok_iff {lines : List Text.Line} {number : Nat} {s s' : RuleSet} :
    readFrom number s lines = .ok s' ↔
      (∀ said ∈ significant lines, (addition? said).isSome = true) ∧
        RuleSet.addAll ((significant lines).filterMap addition?) s = .ok s' := by
  induction lines generalizing number s with
  | nil => simp [readFrom, significant, RuleSet.addAll, pure, Except.pure]
  | cons line lines ih =>
    have hstep : readFrom number s (line :: lines) = .ok s' ↔
        ∃ s₁, readLine number s line = .ok s₁ ∧ readFrom (number + 1) s₁ lines = .ok s' := bind_eq_ok
    rw [hstep]
    simp only [readLine_eq_ok_iff, ih]
    unfold significant
    cases hsaid : said? line with
    | none =>
      rw [List.filterMap_cons_none hsaid]
      simp
    | some said =>
      rw [List.filterMap_cons_some hsaid, List.forall_mem_cons]
      cases hadd : addition? said with
      | none => simp [hadd]
      | some a =>
        rw [List.filterMap_cons_some hadd, RuleSet.addAll_cons_eq_ok]
        simp only [hadd, Option.some.injEq, exists_eq_left', Option.isSome_some, true_and]
        refine ⟨?_, ?_⟩
        · intro hrun
          obtain ⟨s₁, ha, hsome, hrest⟩ := hrun
          exact ⟨hsome, s₁, ha, hrest⟩
        · intro hrun
          obtain ⟨hsome, s₁, ha, hrest⟩ := hrun
          exact ⟨s₁, ha, hsome, hrest⟩

/-- how a rule is written -/
def ruleLine (r : Rule) : List Char := r.pattern.encode ++ ' ' :: r.canonical.encode

end RuleFile

/-! ## Sets that are written out -/

namespace Formula

/-- an encoding is one word, and no comment -/
theorem printable_of_mem_encode {f : Formula} {c : Char} (h : c ∈ f.encode) : Text.isBlank c = false ∧ c ≠ 'c' := by
  rcases symbol_of_mem_encode h with hdigit | hother
  · refine ⟨Text.isBlank_of_isDigit hdigit, ?_⟩
    rintro rfl
    cases hdigit
  · simp only [List.mem_cons, List.not_mem_nil, or_false] at hother
    rcases hother with rfl | rfl | rfl | rfl | rfl <;> decide

theorem words_encode (f : Formula) : Text.words f.encode = [f.encode] :=
  Text.words_of_no_blank f.encode_ne_nil fun _ hc => (printable_of_mem_encode hc).1

/-- a line that begins with an encoding is significant -/
theorem isSignificant_encode (f : Formula) (rest : List Char) : RuleFile.isSignificant (f.encode ++ rest) = true := by
  obtain ⟨c, cs, hencode⟩ := List.exists_cons_of_ne_nil f.encode_ne_nil
  have hc := printable_of_mem_encode (f := f) (c := c) (by rw [hencode]; exact List.mem_cons_self)
  unfold RuleFile.isSignificant Text.trimStart
  rw [hencode, List.cons_append, List.dropWhile_cons_of_neg (by rw [hc.1]; exact Bool.false_ne_true)]
  simpa using hc.2

end Formula

namespace RuleFile

theorem words_ruleLine (r : Rule) : Text.words (ruleLine r) = [r.pattern.encode, r.canonical.encode] := by
  have hblank : Text.isBlank ' ' = true := by decide
  rw [ruleLine, Text.words_append_blank hblank, r.pattern.words_encode, r.canonical.words_encode]
  rfl

/-- a rule that is written asks for the rule -/
theorem said?_ruleLine (r : Rule) :
    ∃ said, said? (.ok (ruleLine r)) = some said ∧ addition? said = some (.rule r) := by
  refine ⟨.ok [r.pattern.encode, r.canonical.encode], ?_, ?_⟩
  · have hsignificant : isSignificant (ruleLine r) = true := r.pattern.isSignificant_encode _
    rw [said?, if_pos hsignificant, words_ruleLine]
  · rw [addition?, Formula.decode_encode, Formula.decode_encode]
    rfl

/-- a canonical formula that is written asks for the formula -/
theorem said?_encode (f : Formula) : ∃ said, said? (.ok f.encode) = some said ∧ addition? said = some (.canonical f) := by
  refine ⟨.ok [f.encode], ?_, ?_⟩
  · have hsignificant := f.isSignificant_encode []
    rw [List.append_nil] at hsignificant
    rw [said?, if_pos hsignificant, f.words_encode]
  · rw [addition?, Formula.decode_encode]
    rfl

theorem newline_not_mem_encode (f : Formula) : '\n' ∉ f.encode := by
  intro hmem
  have hblank := (Formula.printable_of_mem_encode hmem).1
  cases hblank

end RuleFile

namespace RuleSet

/-- what is written of a set: its rules and its canonical formulas, one a line -/
def written (s : RuleSet) : List (List Char) :=
  s.toList.map RuleFile.ruleLine ++ s.canonicalFormulas.map Formula.encode

theorem newline_not_mem_written {s : RuleSet} {line : List Char} (h : line ∈ s.written) : '\n' ∉ line := by
  rw [written, List.mem_append, List.mem_map, List.mem_map] at h
  rcases h with ⟨r, -, rfl⟩ | ⟨f, -, rfl⟩
  · have hp := RuleFile.newline_not_mem_encode r.pattern
    have hc := RuleFile.newline_not_mem_encode r.canonical
    simp [RuleFile.ruleLine, hp, hc]
  · exact RuleFile.newline_not_mem_encode f

/-- each line that is written asks for what it was written for -/
theorem exists_said_of_mem_written {s : RuleSet} {line : List Char} (h : line ∈ s.written) :
    ∃ said a, RuleFile.said? (.ok line) = some said ∧ RuleFile.addition? said = some a ∧ a ∈ s.additions := by
  rw [written, List.mem_append, List.mem_map, List.mem_map] at h
  rcases h with ⟨r, hr, rfl⟩ | ⟨f, hf, rfl⟩
  · obtain ⟨said, hsaid, ha⟩ := RuleFile.said?_ruleLine r
    exact ⟨said, _, hsaid, ha, List.mem_append_left _ (List.mem_map_of_mem hr)⟩
  · obtain ⟨said, hsaid, ha⟩ := RuleFile.said?_encode f
    exact ⟨said, _, hsaid, ha, List.mem_append_right _ (List.mem_map_of_mem hf)⟩

/-- and each thing that a set consists of is written on some line -/
theorem exists_line_of_mem_additions {s : RuleSet} {a : Addition} (h : a ∈ s.additions) :
    ∃ line ∈ s.written, ∃ said, RuleFile.said? (.ok line) = some said ∧ RuleFile.addition? said = some a := by
  rw [additions, List.mem_append, List.mem_map, List.mem_map] at h
  rcases h with ⟨r, hr, rfl⟩ | ⟨f, hf, rfl⟩
  · exact ⟨_, List.mem_append_left _ (List.mem_map_of_mem hr), RuleFile.said?_ruleLine r⟩
  · exact ⟨_, List.mem_append_right _ (List.mem_map_of_mem hf), RuleFile.said?_encode f⟩

/-- a set is read back from the lines that are written of it, in any order -/
theorem ofLines_written {s : RuleSet} (hs : s.WellFormed) {lines : List (List Char)} (hlines : lines.Perm s.written) :
    ofLines (lines.map .ok) = .ok s := by
  rw [ofLines, RuleFile.readFrom_eq_ok_iff]
  refine ⟨?_, addAll_additions hs ?_⟩
  · intro said hsaid
    obtain ⟨l, hl, hsaid⟩ := List.mem_filterMap.mp hsaid
    obtain ⟨line, hline, rfl⟩ := List.mem_map.mp hl
    obtain ⟨said', a, hsaid', ha, -⟩ := exists_said_of_mem_written (hlines.mem_iff.mp hline)
    rw [hsaid] at hsaid'
    cases hsaid'
    rw [ha]
    rfl
  · intro a
    rw [List.mem_filterMap]
    refine ⟨?_, ?_⟩
    · intro hasked
      obtain ⟨said, hsaid, ha⟩ := hasked
      obtain ⟨l, hl, hsaid⟩ := List.mem_filterMap.mp hsaid
      obtain ⟨line, hline, rfl⟩ := List.mem_map.mp hl
      obtain ⟨said', a', hsaid', ha', hmem⟩ := exists_said_of_mem_written (hlines.mem_iff.mp hline)
      rw [hsaid] at hsaid'
      cases hsaid'
      rw [ha] at ha'
      cases ha'
      exact hmem
    · intro hmem
      obtain ⟨line, hline, said, hsaid, ha⟩ := exists_line_of_mem_additions hmem
      have hl : (.ok line : Text.Line) ∈ lines.map .ok := List.mem_map_of_mem (hlines.mem_iff.mpr hline)
      exact ⟨said, List.mem_filterMap.mpr ⟨_, hl, hsaid⟩, ha⟩

/-- **A rule file means the set of its lines.** Two files with the same significant lines, in any order, with repetitions
and white space, comments and blank lines as one likes, are both accepted or both refused, and hold the same set. A set
that was read is read back from the file of its rules and canonical formulas, one a line and in any order. -/
theorem ofLines_same_lines {a b : List Text.Line}
    (h : ∀ said, said ∈ RuleFile.significant a ↔ said ∈ RuleFile.significant b) :
    (∀ s, ofLines a = .ok s ↔ ofLines b = .ok s) ∧
    ∀ s, ofLines a = .ok s → ∀ lines, lines.Perm s.written →
      ofLines (Text.linesOfBytes (Text.utf8 (Text.closed lines))) = .ok s := by
  refine ⟨?_, ?_⟩
  · intro s
    have hadditions : ∀ x, x ∈ (RuleFile.significant a).filterMap RuleFile.addition? ↔
        x ∈ (RuleFile.significant b).filterMap RuleFile.addition? := by
      intro x
      simp only [List.mem_filterMap, h]
    rw [ofLines, ofLines, RuleFile.readFrom_eq_ok_iff, RuleFile.readFrom_eq_ok_iff, addAll_congr hadditions]
    simp only [h]
  · intro s hs lines hlines
    obtain ⟨additions, rfl⟩ := ofLines_eq_build hs
    have hbreaks : ∀ line ∈ lines, '\n' ∉ line := fun line hline =>
      newline_not_mem_written (hlines.mem_iff.mp hline)
    rw [Text.linesOfBytes_utf8, Text.linesOfText_closed hbreaks]
    exact ofLines_written (wellFormed_build additions) hlines

/-- a double negation and a truth value, in one order -/
def twoLines : List Text.Line := Text.linesOfText "--1. 1.\nT\n".toList

/-- the same, in the other order, with a comment, a blank line, a repetition and more white space -/
def sixLines : List Text.Line := Text.linesOfText "c rules\n\n\tT\n--1.   1. \n T \n--1. 1.".toList

theorem significant_twoLines :
    RuleFile.significant twoLines = [.ok ["--1.".toList, "1.".toList], .ok ["T".toList]] := rfl

theorem significant_sixLines :
    RuleFile.significant sixLines =
      [.ok ["T".toList], .ok ["--1.".toList, "1.".toList], .ok ["T".toList], .ok ["--1.".toList, "1.".toList]] := rfl

theorem ofLines_same_lines_reordered :
    (∀ said, said ∈ RuleFile.significant twoLines ↔ said ∈ RuleFile.significant sixLines) ∧
    (∃ s, ofLines twoLines = .ok s) ∧
    (∀ s, ofLines twoLines = .ok s ↔ ofLines sixLines = .ok s) ∧
    ∀ s, ofLines twoLines = .ok s → ∀ lines, lines.Perm s.written →
      ofLines (Text.linesOfBytes (Text.utf8 (Text.closed lines))) = .ok s := by
  have hsame : ∀ said, said ∈ RuleFile.significant twoLines ↔ said ∈ RuleFile.significant sixLines := by
    intro said
    rw [significant_twoLines, significant_sixLines]
    grind
  have hadditions : (RuleFile.significant twoLines).filterMap RuleFile.addition? =
      [.rule ⟨.neg (.neg (.var ⟨1, by decide, by decide⟩)), .var ⟨1, by decide, by decide⟩⟩, .canonical (.const true)] :=
    rfl
  have hcompatible : Compatible ((RuleFile.significant twoLines).filterMap RuleFile.addition?) := by
    rw [hadditions]
    constructor <;> simp +contextual [MakesCanonical]
  obtain ⟨s, hs⟩ := exists_addAll hcompatible
  have hasked : ∀ said ∈ RuleFile.significant twoLines, (RuleFile.addition? said).isSome = true := by
    rw [significant_twoLines]
    simp only [List.forall_mem_cons]
    exact ⟨rfl, rfl, by simp⟩
  exact ⟨hsame, ⟨s, RuleFile.readFrom_eq_ok_iff.mpr ⟨hasked, hs⟩⟩, ofLines_same_lines hsame⟩

end RuleSet

end ClauseFold
