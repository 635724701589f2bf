/-
The instance search over a whole trie. What a search has matched so far is a position: the subformulas that wait and the
bindings. A position is followed along a key with nothing but the key; the stacks and the notes of the search undo each
step on the way out of a node, so the search asks of each key in turn whether following it leaves nothing to match.

Results:
- `leave_step`: the way out of a node undoes the way in;
- `walk_visitor`: the search of a forest adds the first answer among its entries, and nothing else;
- `findInstance?_eq`: the search of a trie is a search of its list of entries.
-/
import Mathlib.Tactic.SplitIfs
import ClauseFold.Recognizer.Instance
import ClauseFold.Proofs.Trie.View
import ClauseFold.Proofs.Trie.Walk

namespace ClauseFold.InstanceSearch

/-! ## Positions -/

/-- the subformulas still to be matched, the next one first, and the bindings -/
structure Position where
  pending : List Formula
  bindings : Bindings
deriving DecidableEq, Repr

/-- nothing matched yet -/
def Position.initial (f : Formula) : Position := ⟨[f], []⟩

/-- where a search stands in the key it is at -/
def State.position (s : State) : Position := ⟨s.pending.toList.reverse, s.bindings.toList⟩

/-- matches the symbol `c`, which is no digit, with the subformula `f` that was next -/
def consume (path : List Char) (c : Char) (f : Formula) (p : Position) : Option Position :=
  if c = symbolEnd then
    match closedId path with
    | none => none
    | some id =>
      match p.bindings.find? fun b => b.1 = id with
      | some b => if b.2 = f then some p else none
      | none => some ⟨p.pending, p.bindings ++ [(id, f)]⟩
  else
    match f with
    | .const b => if c = Formula.constSymbol b then some p else none
    | .neg g => if c = symbolNeg then some ⟨g :: p.pending, p.bindings⟩ else none
    | .imp a b => if c = symbolImp then some ⟨a :: b :: p.pending, p.bindings⟩ else none
    | .var _ => none

/-- goes on by one symbol, if it can be matched -/
def advance (path : List Char) (c : Char) (p : Position) : Option Position :=
  match p.pending with
  | [] => none
  | f :: rest => if c.isDigit then some p else consume path c f ⟨rest, p.bindings⟩

/-- goes on along a key; `path` is the key so far, last symbol first -/
def follow (path : List Char) (p : Position) : List Char → Option Position
  | [] => some p
  | c :: cs => (advance path c p).bind fun q => follow (c :: path) q cs

/-- what a formula makes of a key and the pattern stored there -/
def answer (f : Formula) (e : List Char × Formula) : Option Match :=
  match follow [] (.initial f) e.1 with
  | some ⟨[], bindings⟩ => some ⟨e.2, bindings⟩
  | _ => none

theorem follow_append (path : List Char) (p : Position) (a b : List Char) :
    follow path p (a ++ b) = (follow path p a).bind fun q => follow (a.reverse ++ path) q b := by
  induction a generalizing path p with
  | nil => rfl
  | cons c cs ih =>
    rw [List.cons_append, follow, follow]
    cases advance path c p with
    | none => rfl
    | some q =>
      simp only [Option.bind_some]
      rw [ih]
      simp

theorem answer_eq_none {f : Formula} {key rest : List Char} (h : follow [] (.initial f) key = none) (pattern : Formula) :
    answer f (key ++ rest, pattern) = none := by
  unfold answer
  rw [follow_append, h]
  rfl

/-! ## Steps and what undoes them -/

/-- a step adds to the stacks, and finds out whether the symbol can be matched -/
theorem matchTaken_spec (path : List Char) (c : Char) (f : Formula) (s : State) :
    (∃ more new, (matchTaken path c f s).2 = { s with pending := s.pending ++ more, bindings := s.bindings ++ new }) ∧
      consume path c f s.position =
        if (matchTaken path c f s).1 = true then some (matchTaken path c f s).2.position else none := by
  have hsame : ∃ more new, s = { s with pending := s.pending ++ more, bindings := s.bindings ++ new } :=
    ⟨#[], #[], by simp⟩
  unfold matchTaken consume
  by_cases hend : c = symbolEnd
  · rw [if_pos hend, if_pos hend]
    cases closedId path with
    | none => exact ⟨hsame, rfl⟩
    | some id =>
      have hfind : s.position.bindings.find? (fun b => b.1 = id) = s.bindings.find? fun b => b.1 = id :=
        Array.find?_toList
      simp only [hfind]
      cases s.bindings.find? fun b => b.1 = id with
      | some b => exact ⟨hsame, by simp⟩
      | none => exact ⟨⟨#[], #[(id, f)], by simp⟩, by simp [State.position]⟩
  · rw [if_neg hend, if_neg hend]
    cases f with
    | const b => exact ⟨hsame, by simp⟩
    | var v => exact ⟨hsame, rfl⟩
    | neg g =>
      by_cases hc : c = symbolNeg
      · simp only [if_pos hc]
        exact ⟨⟨#[g], #[], by simp⟩, by simp [State.position]⟩
      · simp only [if_neg hc]
        exact ⟨hsame, rfl⟩
    | imp a b =>
      by_cases hc : c = symbolImp
      · simp only [if_pos hc]
        have hpush : (s.pending.push b).push a = s.pending ++ #[b, a] := Array.toList_inj.mp (by simp)
        exact ⟨⟨#[b, a], #[], by rw [hpush]; simp⟩, by simp [State.position]⟩
      · simp only [if_neg hc]
        exact ⟨hsame, rfl⟩

/-- the way out of a node undoes the way in -/
theorem leave_step (path : List Char) (c : Char) (s : State) : leave (step path c s).2 = s := by
  unfold step
  cases hback : s.pending.back? with
  | none => simp [leave]
  | some f =>
    obtain ⟨rest, hrest⟩ := Array.back?_eq_some_iff.mp hback
    by_cases hc : c.isDigit = true
    · simp only [if_pos hc]
      simp [leave]
    · simp only [if_neg hc]
      obtain ⟨⟨more, new, hmore⟩, -⟩ := matchTaken_spec path c f
        { s with pending := s.pending.pop, undo := ⟨s.pending.size, some f, s.bindings.size⟩ :: s.undo }
      rw [hmore]
      cases s
      simp only at hrest
      simp [leave, hrest]

theorem step_position (path : List Char) (c : Char) (s : State) :
    advance path c s.position = if (step path c s).1 = true then some (step path c s).2.position else none := by
  unfold step advance
  cases hback : s.pending.back? with
  | none =>
    have hempty : s.pending = #[] := Array.back?_eq_none_iff.mp hback
    simp [State.position, hempty]
  | some f =>
    obtain ⟨rest, hrest⟩ := Array.back?_eq_some_iff.mp hback
    have hposition : s.position = ⟨f :: rest.toList.reverse, s.bindings.toList⟩ := by simp [State.position, hrest]
    by_cases hc : c.isDigit = true
    · simp [hc, State.position, hrest]
    · obtain ⟨-, hconsume⟩ := matchTaken_spec path c f
        { s with pending := s.pending.pop, undo := ⟨s.pending.size, some f, s.bindings.size⟩ :: s.undo }
      simp only [hposition, if_neg hc]
      rw [← hconsume]
      simp [State.position, hrest]

/-- where a key was followed, a step follows it by one symbol more -/
theorem follow_step {f : Formula} {path : List Char} {s : State}
    (h : follow [] (.initial f) path.reverse = some s.position) (c : Char) :
    follow [] (.initial f) (c :: path).reverse =
      if (step path c s).1 = true then some (step path c s).2.position else none := by
  rw [List.reverse_cons, follow_append, h, Option.bind_some, List.reverse_reverse, List.append_nil, follow, step_position]
  split_ifs <;> rfl

/-- a step that fails takes its place in the notes, and nothing that was found is forgotten -/
theorem step_found (path : List Char) (c : Char) (s : State) : (step path c s).2.found = s.found := by
  unfold step
  cases s.pending.back? with
  | none => rfl
  | some f =>
    by_cases hc : c.isDigit = true
    · simp only [if_pos hc]
    · simp only [if_neg hc]
      obtain ⟨⟨more, new, hmore⟩, -⟩ := matchTaken_spec path c f
        { s with pending := s.pending.pop, undo := ⟨s.pending.size, some f, s.bindings.size⟩ :: s.undo }
      rw [hmore]

theorem leave_found (s : State) (found : Option Match) :
    leave { s with found := found } = { leave s with found := found } := by
  obtain ⟨pending, undo, bindings, before⟩ := s
  cases undo <;> rfl

/-! ## The walk -/

theorem walk_of_found (fo : Forest Formula) (path : List Char) {s : State} (h : s.found.isSome = true) :
    fo.walk visitor path s = s := fo.walk_of_isComplete path h

/-- where a search stands behind a node: the way into it, what is below it, and the way out -/
def behind (path : List Char) (n : Node Formula) (s : State) : State :=
  match visit path n s with
  | (true, s') => leave (n.children.walk visitor path s')
  | (false, s') => leave s'

theorem walk_node (c : Char) (h : Handle) (v : Option Formula) (ch sib : Forest Formula) (path : List Char) {s : State}
    (hs : s.found = none) :
    (Forest.node c h v ch sib).walk visitor path s = sib.walk visitor path (behind (c :: path) ⟨h, v, ch⟩ s) := by
  have hdone : ¬visitor.isComplete s = true := by
    show ¬s.found.isSome = true
    rw [hs]
    exact Bool.false_ne_true
  have hvisit : visitor.visit (c :: path) ⟨h, v, ch⟩ s = visit (c :: path) ⟨h, v, ch⟩ s := rfl
  rw [Forest.walk, if_neg hdone, hvisit, behind]
  rcases visit (c :: path) ⟨h, v, ch⟩ s with ⟨_ | _, s'⟩ <;> rfl

theorem behind_of_failed {path : List Char} {c : Char} {s s' : State} (hstep : step path c s = (false, s'))
    (n : Node Formula) : behind (c :: path) n s = s := by
  have hleave := leave_step path c s
  rw [hstep] at hleave
  unfold behind visit
  simp only [hstep]
  exact hleave

/-- at a position that a key leads to, a pattern answers if nothing is left to match -/
theorem answer_of_follow {f : Formula} {key : List Char} {s : State} (h : follow [] (.initial f) key = some s.position)
    (pattern : Formula) :
    answer f (key, pattern) = if s.pending.isEmpty = true then some ⟨pattern, s.bindings.toList⟩ else none := by
  unfold answer
  rw [h]
  by_cases hempty : s.pending.isEmpty = true
  · have hpending : s.pending = #[] := by simpa using hempty
    simp [State.position, hpending]
  · rw [if_neg hempty]
    have hpending : s.position.pending ≠ [] := by simpa [State.position] using hempty
    rcases hp : s.position with ⟨_ | ⟨g, rest⟩, bindings⟩
    · rw [hp] at hpending
      exact absurd rfl hpending
    · rfl

/-- where a step was made, the node and what is below it add what they have to answer -/
theorem behind_of_step {f : Formula} {path : List Char} {c : Char} {s s' : State} (hstep : step path c s = (true, s'))
    (hfollow : follow [] (.initial f) (c :: path).reverse = some s'.position) (n : Node Formula)
    (hbelow : n.children.walk visitor (c :: path) s' =
      { s' with found := (n.children.entriesFrom (c :: path)).findSome? (answer f) }) :
    behind (c :: path) n s =
      { s with found := ((n.value.map fun a => ((c :: path).reverse, a)).toList ++
          n.children.entriesFrom (c :: path)).findSome? (answer f) } := by
  have hleave := leave_step path c s
  rw [hstep] at hleave
  obtain ⟨h, v, ch⟩ := n
  unfold behind visit
  simp only [hstep]
  simp only at hleave hbelow
  cases v with
  | none =>
    simp only
    rw [hbelow, leave_found, hleave]
    rfl
  | some pattern =>
    rw [Option.map_some, Option.toList_some, List.singleton_append, List.findSome?_cons, answer_of_follow hfollow]
    by_cases hempty : s'.pending.isEmpty = true
    · simp only [if_pos hempty]
      rw [leave_found, hleave]
    · simp only [if_neg hempty]
      rw [hbelow, leave_found, hleave]

/-- where a key cannot be followed, neither the node there nor those below it answer -/
theorem findSome?_of_not_follow {f : Formula} {path : List Char} (h : follow [] (.initial f) path.reverse = none)
    (v : Option Formula) (ch : Forest Formula) :
    ((v.map fun a => (path.reverse, a)).toList ++ ch.entriesFrom path).findSome? (answer f) = none := by
  rw [List.findSome?_eq_none_iff]
  intro e he
  rcases e with ⟨key, pattern⟩
  have hpre : path.reverse <+: key := by
    rcases List.mem_append.mp he with hown | hch
    · obtain ⟨a, -, ha⟩ := Option.map_eq_some_iff.mp (Option.mem_toList.mp hown)
      cases ha
      exact List.prefix_refl _
    · exact Forest.prefix_of_mem_entriesFrom hch
  rcases hpre with ⟨rest, rfl⟩
  exact answer_eq_none h pattern

/-- the search of a forest adds the first answer among its entries, and nothing else -/
theorem walk_visitor (f : Formula) (fo : Forest Formula) (path : List Char) {s : State} (hs : s.found = none)
    (hposition : follow [] (.initial f) path.reverse = some s.position) :
    fo.walk visitor path s = { s with found := (fo.entriesFrom path).findSome? (answer f) } := by
  induction fo generalizing path s with
  | nil => cases s; cases hs; rfl
  | node c h v ch sib ihc ihs =>
    have hfollow := follow_step hposition c
    have hfound : (step path c s).2.found = none := by rw [step_found, hs]
    have hsame : { s with found := none } = s := by cases s; cases hs; rfl
    rw [walk_node c h v ch sib path hs, Forest.entriesFrom, ← List.append_assoc, List.findSome?_append]
    rcases hstep : step path c s with ⟨_ | _, s'⟩
    · rw [hstep] at hfollow
      rw [behind_of_failed hstep, ihs path hs hposition, findSome?_of_not_follow hfollow, Option.none_or]
    · rw [hstep] at hfollow hfound
      rw [behind_of_step hstep hfollow ⟨h, v, ch⟩ (ihc (c :: path) hfound hfollow)]
      cases ((v.map fun a => ((c :: path).reverse, a)).toList ++ ch.entriesFrom (c :: path)).findSome? (answer f) with
      | none => rw [hsame, ihs path hs hposition, Option.none_or]
      | some m => rw [walk_of_found sib path rfl, Option.some_or]

end ClauseFold.InstanceSearch

namespace ClauseFold

/-- the search of a trie is a search of its list of entries -/
theorem Recognizer.findInstance?_eq (r : Recognizer) (f : Formula) :
    r.findInstance? f = r.trie.entries.findSome? (InstanceSearch.answer f) := by
  have hwalk := InstanceSearch.walk_visitor f r.trie.forest [] (s := InstanceSearch.start f) rfl rfl
  unfold findInstance?
  rw [Trie.accept_eq_walk, hwalk]
  rfl

end ClauseFold
