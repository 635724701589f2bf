/-
Which formulas are instances of a pattern, and which pattern a search finds. To be an instance is a matter of some choice of
formulas for the variables, whatever way that choice is come by; a match makes one choice, by going over the pattern and
the formula once. If there is a choice at all, the match finds it, since each variable is bound to what every choice has
to put there.

Results:
- `exists_match?_iff`: a pattern matches exactly its instances;
- `Matches.keys`: a match binds the variables of the pattern, each once, in the order in which they are met;
- `le_of_findSome?_answer`: of the patterns that answer, the first one asked has the least encoding;
- `findInstance?_least`: what a search of the patterns that were added finds.
-/
import ClauseFold.Proofs.Formula.Substitution
import ClauseFold.Proofs.Recognizer.Patterns
import ClauseFold.Proofs.Text.Lines
import ClauseFold.Proofs.Trie.FiniteMap

namespace ClauseFold

/-- whether a formula comes of a pattern by some choice for the variables -/
def Formula.InstanceOf (f p : Formula) : Prop := ∃ choice : VarId → Formula, p.apply choice = f

namespace Bindings

/-- bindings that say of each variable what a choice says of it, or nothing -/
def Within (b : Bindings) (choice : VarId → Formula) : Prop :=
  ∀ (v : VarId) f, b.lookup v.val = some f → choice v = f

theorem Within.append {b : Bindings} {choice : VarId → Formula} (h : b.Within choice) (x : VarId) :
    Within (b ++ [(x.val, choice x)]) choice := by
  intro v f hv
  rw [List.lookup_append] at hv
  rcases Option.or_eq_some_iff.mp hv with hbefore | ⟨-, hnew⟩
  · exact h v f hbefore
  · rw [List.lookup_cons] at hnew
    by_cases hvx : v.val = x.val
    · rw [VarId.ext hvx] at hnew ⊢
      simpa using hnew
    · have hne : (v.val == x.val) = false := by simpa using hvx
      simp [hne] at hnew

end Bindings

namespace Formula

/-! ## Completeness -/

/-- where some choice makes the pattern into the formula and agrees with what is bound, the match succeeds and still
agrees -/
theorem match?_complete (p : Formula) {choice : VarId → Formula} {before : Bindings} (h : before.Within choice) :
    ∃ after, p.match? (p.apply choice) before = some after ∧ Bindings.Within after choice := by
  induction p generalizing before with
  | const b => exact ⟨before, by rw [apply, match?, if_pos rfl], h⟩
  | var x =>
    rw [apply, match?]
    cases hx : before.lookup x.val with
    | none => exact ⟨_, rfl, h.append x⟩
    | some g => exact ⟨before, if_pos (h x g hx).symm, h⟩
  | neg p ih => exact ih h
  | imp p q ihp ihq =>
    obtain ⟨middle, hp, hmiddle⟩ := ihp h
    obtain ⟨after, hq, hafter⟩ := ihq hmiddle
    exact ⟨after, by rw [apply, match?, hp, Option.bind_some, hq], hafter⟩

/-- a pattern matches exactly its instances -/
theorem exists_match?_iff {p f : Formula} : (∃ bindings, p.match? f [] = some bindings) ↔ f.InstanceOf p := by
  refine ⟨?_, ?_⟩
  · intro hmatch
    obtain ⟨bindings, h⟩ := hmatch
    exact ⟨Bindings.choice bindings, by rw [← substitute_eq_apply, substitute_of_match? h]⟩
  · intro hinstance
    obtain ⟨choice, rfl⟩ := hinstance
    have hempty : Bindings.Within [] choice := by
      intro v f hv
      cases hv
    obtain ⟨bindings, h, -⟩ := match?_complete p hempty
    exact ⟨bindings, h⟩

/-! ## What is bound -/

/-- what is new in `a` and then in `b` -/
theorem removeAll_append_eraseDups (known a b : List Nat) :
    (known ++ (a.removeAll known).eraseDups) ++ (b.removeAll (known ++ (a.removeAll known).eraseDups)).eraseDups =
      known ++ ((a ++ b).removeAll known).eraseDups := by
  have hrest : b.removeAll (known ++ (a.removeAll known).eraseDups) = (b.removeAll known).removeAll (a.removeAll known) := by
    unfold List.removeAll
    rw [List.filter_filter]
    apply List.filter_congr
    intro id _
    rw [Bool.eq_iff_iff, Bool.and_eq_true, Bool.not_eq_true', Bool.not_eq_true', Bool.not_eq_true']
    simp only [List.elem_eq_contains, List.contains_eq_mem, decide_eq_false_iff_not, List.mem_append, List.mem_eraseDups,
      not_or, and_comm]
  have happend : (a ++ b).removeAll known = a.removeAll known ++ b.removeAll known := List.filter_append ..
  rw [hrest, happend, List.eraseDups_append, List.append_assoc]

/-- a match binds the variables of the pattern that were not bound before, each once, in the order in which they stand -/
theorem Matches.keys {p f : Formula} {before after : Bindings} (h : Matches p f before after) :
    after.map Prod.fst =
      before.map Prod.fst ++ ((p.occurrences.map VarId.val).removeAll (before.map Prod.fst)).eraseDups := by
  induction h with
  | const _ _ => simp [List.removeAll]
  | @again x f bindings hx =>
    have hknown : x.val ∈ bindings.map Prod.fst := by
      obtain ⟨earlier, later, rfl, -⟩ := Bindings.lookup_eq_some_iff.mp hx
      simp
    have hremove : [x.val].removeAll (bindings.map Prod.fst) = [] := by simpa [List.removeAll] using hknown
    rw [occurrences_var, List.map_singleton, hremove]
    exact (List.append_nil _).symm
  | @first x f bindings hx =>
    have hnew : x.val ∉ bindings.map Prod.fst := Bindings.lookup_eq_none_iff.mp hx
    have hremove : [x.val].removeAll (bindings.map Prod.fst) = [x.val] := by simpa [List.removeAll] using hnew
    rw [occurrences_var, List.map_singleton, hremove, List.map_append]
    rfl
  | neg _ ih => rw [occurrences_neg, ih]
  | imp _ _ ihp ihq => rw [ihq, ihp, removeAll_append_eraseDups, occurrences_imp, List.map_append]

end Formula

/-! ## The order of patterns -/

namespace Recognizer

variable {r : Recognizer} {patterns : List Formula}

/-- of the entries that answer, the first has the least key -/
theorem le_of_findSome?_answer (h : r.Holds patterns) {f : Formula} {m : Match}
    (hm : r.trie.entries.findSome? (InstanceSearch.answer f) = some m) :
    ∃ p ∈ patterns, InstanceSearch.answer f (p.encode, p) = some m ∧
      ∀ q ∈ patterns, InstanceSearch.answer f (q.encode, q) ≠ none → Text.utf8 p.encode ≤ Text.utf8 q.encode := by
  obtain ⟨earlier, ⟨key, p⟩, later, hentries, hanswer, hnone⟩ := List.findSome?_eq_some_iff.mp hm
  have hmem : ∀ e, e ∈ earlier ++ (key, p) :: later ↔ e.2 ∈ patterns ∧ e.2.encode = e.1 := by
    rw [← hentries]
    exact mem_entries h
  obtain ⟨hp, hkey⟩ := (hmem (key, p)).mp (by simp)
  simp only at hp hkey
  subst hkey
  refine ⟨p, hp, hanswer, ?_⟩
  intro q hq hanswers
  have hascending := Trie.ascending_entries h.wellFormed
  rw [hentries] at hascending
  rcases List.mem_append.mp ((hmem (q.encode, q)).mpr ⟨hq, rfl⟩) with hearlier | hlater
  · exact absurd (hnone _ hearlier) hanswers
  · rcases List.mem_cons.mp hlater with hsame | hlater
    · rw [Prod.mk.injEq] at hsame
      rw [hsame.1]
      exact List.le_refl _
    · have hlt : p.encode < q.encode := by
        have hbehind := (List.pairwise_append.mp hascending).2.1
        exact (compare_eq_lt_iff _ _).mp (List.rel_of_pairwise_cons hbehind hlater)
      exact List.le_of_lt (Text.utf8_lt (fun _ => Formula.lt_of_mem_encode) (fun _ => Formula.lt_of_mem_encode) hlt)

end Recognizer

/-- **The least pattern that applies is found.** Patterns can always be added, in any order and again. A search then finds
nothing exactly if the formula is an instance of none of them. Otherwise it finds the one of least encoding, in order of
bytes, among those that the formula is an instance of, and binds the variables of that pattern, each once and in the order
in which they stand first, so that the pattern comes out as the formula. -/
theorem Recognizer.findInstance?_least (patterns : List Formula) :
    ∃ r, Recognizer.empty.addAll patterns = .ok r ∧ ∀ f : Formula,
      (r.findInstance? f = none ↔ ∀ p ∈ patterns, ¬f.InstanceOf p) ∧
      ∀ m, r.findInstance? f = some m →
        m.pattern ∈ patterns ∧
        (∀ p ∈ patterns, f.InstanceOf p → Text.utf8 m.pattern.encode ≤ Text.utf8 p.encode) ∧
        m.bindings.map Prod.fst = (m.pattern.occurrences.map VarId.val).eraseDups ∧
        m.instantiate m.pattern = f := by
  obtain ⟨r, hadd, hholds⟩ := addAll_empty patterns
  have hinstance : ∀ f p : Formula, InstanceSearch.answer f (p.encode, p) ≠ none ↔ f.InstanceOf p := by
    intro f p
    rw [InstanceSearch.answer_encode, ← Formula.exists_match?_iff, ne_eq, Option.map_eq_none_iff, ← ne_eq,
      Option.ne_none_iff_exists']
  refine ⟨r, hadd, ?_⟩
  intro f
  rw [findInstance?_eq]
  refine ⟨?_, ?_⟩
  · rw [List.findSome?_eq_none_iff]
    refine ⟨?_, ?_⟩
    · intro hnone p hp hf
      exact (hinstance f p).mpr hf (hnone (p.encode, p) ((mem_entries hholds _).mpr ⟨hp, rfl⟩))
    · intro hnone e he
      obtain ⟨hp, hkey⟩ := (mem_entries hholds e).mp he
      have hanswer := mt (hinstance f e.2).mp (hnone e.2 hp)
      rw [hkey] at hanswer
      exact Decidable.not_not.mp hanswer
  · intro m hm
    obtain ⟨p, hp, hanswer, hleast⟩ := le_of_findSome?_answer hholds hm
    rw [InstanceSearch.answer_encode] at hanswer
    obtain ⟨bindings, hmatch, rfl⟩ := Option.map_eq_some_iff.mp hanswer
    refine ⟨hp, ?_, ?_, Formula.substitute_of_match? hmatch⟩
    · intro q hq hf
      exact hleast q hq ((hinstance f q).mpr hf)
    · have hkeys := (Formula.matches_of_match? hmatch).keys
      rwa [List.map_nil, List.nil_append, List.removeAll_nil] at hkeys

/-- the pattern `* 45. 45.` -/
def fortyFiveTwice : Formula := .imp (.var ⟨45, by decide, by decide⟩) (.var ⟨45, by decide, by decide⟩)

/-- the pattern `* 4. 5.` -/
def fourThenFive : Formula := .imp (.var ⟨4, by decide, by decide⟩) (.var ⟨5, by decide, by decide⟩)

/-- the encodings of the two patterns part only behind the first digit; `- T` is an instance of neither, and `* T T` of both,
of which the one with the lesser encoding is found, though it was added last -/
theorem findInstance?_least_sharedPrefix :
    ∃ r, Recognizer.empty.addAll [fortyFiveTwice, fourThenFive] = .ok r ∧
      r.findInstance? (.neg (.const true)) = none ∧
      ∃ m, r.findInstance? (.imp (.const true) (.const true)) = some m ∧ m.pattern = fourThenFive ∧
        m.bindings.map Prod.fst = [4, 5] := by
  obtain ⟨r, hadd, h⟩ := Recognizer.findInstance?_least [fortyFiveTwice, fourThenFive]
  refine ⟨r, hadd, ?_, ?_⟩
  · rw [(h _).1]
    intro p hp hf
    obtain ⟨choice, hchoice⟩ := hf
    simp only [List.mem_cons, List.not_mem_nil, or_false] at hp
    rcases hp with rfl | rfl <;> cases hchoice
  · have hboth : Formula.InstanceOf (.imp (.const true) (.const true)) fourThenFive := ⟨fun _ => .const true, rfl⟩
    obtain ⟨m, hm⟩ : ∃ m, r.findInstance? (.imp (.const true) (.const true)) = some m := by
      rw [← Option.ne_none_iff_exists']
      intro hnone
      exact (h _).1.mp hnone fourThenFive (by simp) hboth
    obtain ⟨hmem, hleast, hkeys, -⟩ := (h _).2 m hm
    have hpattern : m.pattern = fourThenFive := by
      simp only [List.mem_cons, List.not_mem_nil, or_false] at hmem
      rcases hmem with htwice | hthen
      · have hle := hleast fourThenFive (by simp) hboth
        rw [htwice, fortyFiveTwice, fourThenFive, Formula.encode_imp, Formula.encode_imp, Formula.encode_var,
          Formula.encode_var, Formula.encode_var] at hle
        exact absurd hle (by decide)
      · exact hthen
    have hvars : fourThenFive.occurrences.map VarId.val = [4, 5] := by simp [fourThenFive]
    rw [hpattern, hvars] at hkeys
    exact ⟨m, hm, hpattern, hkeys⟩

end ClauseFold
