/-
Look-ups by instance and the names of variables. The variables of a pattern are bound by number, whatever the variables of
the formula are called, and a variable that is met again is compared as a whole. So to look for a formula under other names
is to find the same pattern with its bindings under the other names. What replaces a pattern has no variable that stays
unbound, so its instance is renamed too.

Results:
- `match?_rename`: a match is renamed with the formula;
- `findSome?_answer_rename`: the pattern that is found first stays the same;
- `Represents.equivariant`: what a formula under other names is replaced with.
-/
import ClauseFold.Proofs.Formula.Renaming
import ClauseFold.Proofs.Repository.Represents
import ClauseFold.Reduction

namespace ClauseFold

/-- whether a formula under other names is replaced with the same under the other names -/
def Lookup.Equivariant (find : Lookup) (r : VarId → VarId) : Prop :=
  ∀ f : Formula, find (f.rename r) = (find f).map (Formula.rename r)

/-- renames what is bound in a match; the pattern stays -/
def Match.rename (r : VarId → VarId) (m : Match) : Match := ⟨m.pattern, m.bindings.rename r⟩

variable {r : VarId → VarId}

/-! ## One pattern -/

namespace Formula

/-- a match is renamed with the formula -/
theorem match?_rename (hr : Function.Injective r) (p f : Formula) (b : Bindings) :
    p.match? (f.rename r) (b.rename r) = (p.match? f b).map (Bindings.rename r) := by
  induction p generalizing f b with
  | const c =>
    cases f with
    | const c' =>
      simp only [rename, match?]
      split_ifs <;> rfl
    | var _ => rfl
    | neg _ => rfl
    | imp _ _ => rfl
  | var x =>
    simp only [match?, Bindings.lookup_rename]
    cases b.lookup x.val with
    | none => simp [Bindings.rename]
    | some g =>
      simp only [Option.map_some, (rename_injective hr).eq_iff]
      split_ifs <;> rfl
  | neg p ih =>
    cases f with
    | neg f => exact ih f b
    | const _ => rfl
    | var _ => rfl
    | imp _ _ => rfl
  | imp p q ihp ihq =>
    cases f with
    | imp f g =>
      simp only [rename, match?, ihp]
      cases p.match? f b with
      | none => rfl
      | some b' => exact ihq g b'
    | const _ => rfl
    | var _ => rfl
    | neg _ => rfl

/-- a match binds all variables of the pattern -/
theorem Matches.binds {p f : Formula} {before after : Bindings} (h : Matches p f before after) : after.Binds p := by
  induction h with
  | const _ _ =>
    intro v hv
    rw [occurrences_const] at hv
    cases hv
  | again hx =>
    intro v hv
    rw [occurrences_var, List.mem_singleton] at hv
    rw [hv]
    exact ⟨_, hx⟩
  | first hx =>
    intro v hv
    rw [occurrences_var, List.mem_singleton] at hv
    rw [hv]
    exact ⟨_, Bindings.lookup_append_self hx _⟩
  | neg _ ih =>
    intro v hv
    exact ih v (by simpa using hv)
  | imp _ hq ihp ihq =>
    intro v hv
    rw [occurrences_imp, List.mem_append] at hv
    rcases hv with hv | hv
    · obtain ⟨g, hg⟩ := ihp v hv
      exact ⟨g, hq.extends v.val g hg⟩
    · exact ihq v hv

end Formula

/-! ## All patterns -/

namespace InstanceSearch

theorem answer_rename (hr : Function.Injective r) (f p : Formula) :
    answer (f.rename r) (p.encode, p) = (answer f (p.encode, p)).map (Match.rename r) := by
  have hmatch : p.match? (f.rename r) [] = (p.match? f []).map (Bindings.rename r) := Formula.match?_rename hr p f []
  rw [answer_encode, answer_encode, hmatch, Option.map_map, Option.map_map]
  rfl

/-- the pattern that is found first stays the same -/
theorem findSome?_answer_rename (hr : Function.Injective r) (f : Formula) {entries : List (List Char × Formula)}
    (h : ∀ e ∈ entries, e.2.encode = e.1) :
    entries.findSome? (answer (f.rename r)) = (entries.findSome? (answer f)).map (Match.rename r) := by
  induction entries with
  | nil => rfl
  | cons e entries ih =>
    have hanswer : answer (f.rename r) e = (answer f e).map (Match.rename r) := by
      have hkey : e = (e.2.encode, e.2) := Prod.ext (h e List.mem_cons_self).symm rfl
      rw [hkey]
      exact answer_rename hr f e.2
    rw [List.findSome?_cons, List.findSome?_cons, hanswer]
    cases answer f e with
    | some m => rfl
    | none => exact ih fun e' he' => h e' (List.mem_cons_of_mem e he')

end InstanceSearch

namespace Recognizer

/-- where what replaces a pattern has no variable of its own, replacements by instance are renamed with the formula -/
theorem replacement?_rename {recognizer : Recognizer} {patterns : List Formula} (h : recognizer.Holds patterns)
    {canonicalOf : Formula → Option Formula}
    (hbound : ∀ p c, canonicalOf p = some c → ∀ v ∈ c.occurrences, v ∈ p.occurrences) (hr : Function.Injective r) :
    Lookup.Equivariant (recognizer.replacement? .byInstance canonicalOf) r := by
  intro f
  have hkeys : ∀ e ∈ recognizer.trie.entries, e.2.encode = e.1 := fun e he => ((mem_entries h e).mp he).2
  rw [replacement?_byInstance, replacement?_byInstance, InstanceSearch.findSome?_answer_rename hr f hkeys]
  cases hfound : recognizer.trie.entries.findSome? (InstanceSearch.answer f) with
  | none => rfl
  | some found =>
    obtain ⟨⟨key, p⟩, hmem, hanswer⟩ := List.exists_of_findSome?_eq_some hfound
    have hkey : p.encode = key := hkeys _ hmem
    rw [← hkey, InstanceSearch.answer_encode] at hanswer
    obtain ⟨bindings, hmatch, rfl⟩ := Option.map_eq_some_iff.mp hanswer
    show (canonicalOf p).map (Match.rename r ⟨p, bindings⟩).instantiate =
      ((canonicalOf p).map (Match.instantiate ⟨p, bindings⟩)).map (Formula.rename r)
    cases hcanonical : canonicalOf p with
    | none => rfl
    | some c =>
      have hbinds : bindings.Binds c := fun v hv => (Formula.matches_of_match? hmatch).binds v (hbound p c hcanonical v hv)
      exact congrArg some (Formula.substitute_rename r hbinds)

end Recognizer

/-- what a formula under other names is replaced with -/
theorem Repository.Represents.equivariant {repo : Repository} {s : RuleSet} (h : repo.Represents s .byInstance)
    (hs : s.WellFormed) (hr : Function.Injective r) : Lookup.Equivariant repo.replacement? r := by
  have hbound : ∀ p c, repo.source.canonicalOf p = some c → ∀ v ∈ c.occurrences, v ∈ p.occurrences := by
    intro p c hc
    rw [h.canonicalOf] at hc
    obtain ⟨rule, hrule, rfl⟩ := Option.map_eq_some_iff.mp hc
    have hpattern : rule.pattern = p := Formula.encode_injective (hs.rule_key hrule)
    rw [← hpattern]
    exact hs.bound hrule
  intro f
  unfold Repository.replacement?
  rw [h.matching]
  exact Recognizer.replacement?_rename h.recognizer hbound hr f

end ClauseFold
