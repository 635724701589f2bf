/-
The instance search undoes its steps. Each call that the walk makes to the search is written down with the state before and
after it; the visits of nodes that are not left yet are the way from the root to where the walk is. At each call the search
has one note for each of them, and with it the way out of a node gets back to the state in which the node was visited,
whatever was searched below it. So the state in which a node is visited can be told from its key.

Results:
- `leave_visit`: the way out right behind the way in;
- `child_observed`: a child of a node leaves nothing behind but what was found;
- `walk_observed`: and so it is for a forest;
- `search_undoes_steps`: the whole search.
-/
import ClauseFold.Proofs.Recognizer.Search
import ClauseFold.Proofs.Trie.Traversal

namespace ClauseFold

/-! ## Observing a walk -/

section

variable {σ α : Type}

/-- a call of a visitor, with its state before and after it -/
structure Observed (σ α : Type) where
  call : WalkCall α
  before : σ
  after : σ

/-- a visitor that writes down the calls that are made to it and what they do to its state -/
def Visitor.observed (v : Visitor σ α) : Visitor (σ × List (Observed σ α)) α where
  visit := fun path n s =>
    ((v.visit path n s.1).1, (v.visit path n s.1).2, s.2 ++ [⟨.visit path.reverse n, s.1, (v.visit path n s.1).2⟩])
  leave := fun path n s => (v.leave path n s.1, s.2 ++ [⟨.leave path.reverse n, s.1, v.leave path n s.1⟩])
  isComplete := fun s => v.isComplete s.1

/-- the visits of the nodes that are not left yet, the latest first -/
def openVisits (events : List (Observed σ α)) : List (Observed σ α) :=
  events.foldl (fun visits e => match e.call with | .visit _ _ => e :: visits | .leave _ _ => visits.tail) []

theorem openVisits_visit (events : List (Observed σ α)) (key : List Char) (n : Node α) (s s' : σ) :
    openVisits (events ++ [⟨.visit key n, s, s'⟩]) = ⟨.visit key n, s, s'⟩ :: openVisits events := by
  rw [openVisits, List.foldl_append]
  rfl

theorem openVisits_leave (events : List (Observed σ α)) (key : List Char) (n : Node α) (s s' : σ) :
    openVisits (events ++ [⟨.leave key n, s, s'⟩]) = (openVisits events).tail := by
  rw [openVisits, List.foldl_append]
  rfl

end

/-- something holds of each event of `events`, seen with what came before it -/
def AllAlong {ε : Type} (P : List ε → ε → Prop) : List ε → List ε → Prop
  | _, [] => True
  | past, e :: events => P past e ∧ AllAlong P (past ++ [e]) events

theorem allAlong_append {ε : Type} {P : List ε → ε → Prop} (past a b : List ε) :
    AllAlong P past (a ++ b) ↔ AllAlong P past a ∧ AllAlong P (past ++ a) b := by
  induction a generalizing past with
  | nil => simp [AllAlong]
  | cons e a ih => simp [AllAlong, ih, and_assoc]

theorem AllAlong.of_split {ε : Type} {P : List ε → ε → Prop} {past before after : List ε} {e : ε}
    (h : AllAlong P past (before ++ e :: after)) : P (past ++ before) e := ((allAlong_append past before _).mp h).2.1

namespace InstanceSearch

/-! ## Notes -/

/-- a note is what undoes the step made at a visit: it tells how large the stack and the bindings were, and takes nothing
off an empty stack -/
structure NoteOf (u : Undo) (visit : Observed State Formula) : Prop where
  pending : u.pending = visit.before.pending.size
  bound : u.bound = visit.before.bindings.size
  taken : u.taken.isSome = true → 0 < u.pending

/-- a step makes one note, of the state in which it is made -/
theorem step_undo (path : List Char) (c : Char) (s : State) :
    ∃ u, (step path c s).2.undo = u :: s.undo ∧ u.pending = s.pending.size ∧ u.bound = s.bindings.size ∧
      (u.taken.isSome = true → 0 < u.pending) := by
  unfold step
  cases hback : s.pending.back? with
  | none => exact ⟨_, rfl, rfl, rfl, fun h => by cases h⟩
  | some f =>
    by_cases hc : c.isDigit = true
    · simp only [if_pos hc]
      exact ⟨_, rfl, rfl, rfl, fun h => by cases h⟩
    · simp only [if_neg hc]
      obtain ⟨⟨more, new, hmore⟩, -⟩ := matchTaken_spec path c f
        { s with pending := s.pending.pop, undo := ⟨s.pending.size, some f, s.bindings.size⟩ :: s.undo }
      obtain ⟨rest, hrest⟩ := Array.back?_eq_some_iff.mp hback
      rw [hmore]
      exact ⟨_, rfl, rfl, rfl, fun _ => by simp [hrest]⟩

/-! ## Visits -/

/-- a visit makes a step; it finds what the pattern at the node answers, and goes on if the key can be followed and there
is no answer -/
theorem visit_eq {f : Formula} {path : List Char} {s : State} (hs : s.found = none)
    (hposition : follow [] (.initial f) path.reverse = some s.position) (c : Char) (n : Node Formula) :
    (visit (c :: path) n s).2 =
        { (step path c s).2 with found := n.value.bind fun a => answer f ((c :: path).reverse, a) } ∧
      (visit (c :: path) n s).1 = ((follow [] (.initial f) (c :: path).reverse).isSome &&
        (n.value.bind fun a => answer f ((c :: path).reverse, a)).isNone) := by
  have hfollow := follow_step hposition c
  have hfound : (step path c s).2.found = none := by rw [step_found, hs]
  unfold visit
  rcases hstep : step path c s with ⟨goes, s'⟩
  rw [hstep] at hfollow hfound
  simp only [hstep]
  have hsame : { s' with found := none } = s' := by cases s'; cases hfound; rfl
  cases goes with
  | false =>
    have hfollow : follow [] (.initial f) (c :: path).reverse = none := hfollow
    have hnone : (n.value.bind fun a => answer f ((c :: path).reverse, a)) = none := by
      rw [Option.bind_eq_none_iff]
      intro a _
      rw [← List.append_nil (c :: path).reverse]
      exact answer_eq_none hfollow a
    rw [hnone, hfollow, hsame]
    exact ⟨rfl, rfl⟩
  | true =>
    have hfollow : follow [] (.initial f) (c :: path).reverse = some s'.position := hfollow
    cases hvalue : n.value with
    | none =>
      rw [hfollow, Option.bind_none, hsame]
      exact ⟨rfl, rfl⟩
    | some pattern =>
      rw [Option.bind_some, answer_of_follow hfollow, hfollow]
      by_cases hempty : s'.pending.isEmpty = true
      · simp only [if_pos hempty]
        exact ⟨trivial, rfl⟩
      · simp only [if_neg hempty, hsame]
        exact ⟨trivial, rfl⟩

/-- the way out right behind the way in forgets nothing but what was found -/
theorem leave_visit {f : Formula} {path : List Char} {s : State} (hs : s.found = none)
    (hposition : follow [] (.initial f) path.reverse = some s.position) (c : Char) (n : Node Formula)
    (found : Option Match) :
    leave { (visit (c :: path) n s).2 with found := found } = { s with found := found } := by
  rw [(visit_eq hs hposition c n).1]
  show leave { (step path c s).2 with found := found } = { s with found := found }
  rw [leave_found, leave_step]

/-- where the search goes on below a node, the key of the node was followed and nothing was found yet -/
theorem follow_of_visit {f : Formula} {path : List Char} {s : State} (hs : s.found = none)
    (hposition : follow [] (.initial f) path.reverse = some s.position) {c : Char} {n : Node Formula}
    (hgoes : (visit (c :: path) n s).1 = true) :
    (visit (c :: path) n s).2.found = none ∧
      follow [] (.initial f) (c :: path).reverse = some (visit (c :: path) n s).2.position := by
  obtain ⟨hstate, hwhether⟩ := visit_eq hs hposition c n
  rw [hwhether, Bool.and_eq_true] at hgoes
  obtain ⟨hkey, hnone⟩ := hgoes
  have hfollow := follow_step hposition c
  rw [hstate]
  refine ⟨Option.isNone_iff_eq_none.mp hnone, ?_⟩
  by_cases hstep : (step path c s).1 = true
  · rw [hfollow, if_pos hstep]
    rfl
  · rw [hfollow, if_neg hstep] at hkey
    cases hkey

/-! ## The whole walk -/

/-- what is known of a call of the search for patterns of `f`, with the calls before it -/
structure Undone (f : Formula) (past : List (Observed State Formula)) (e : Observed State Formula) : Prop where
  /-- there is one note for each node that is visited and not left yet -/
  notes : List.Forall₂ NoteOf e.before.undo (openVisits past)
  /-- a node is visited in the state that following its key without the last symbol leads to; what is found there, and
  whether the search goes on below, depends on the key and its pattern -/
  visit : ∀ key n, e.call = .visit key n →
    follow [] (.initial f) key.dropLast = some e.before.position ∧
    e.after.found = (n.value.bind fun a => answer f (key, a)) ∧
    (visitor.visit key.reverse n e.before).1 = ((follow [] (.initial f) key).isSome && e.after.found.isNone)
  /-- a node is left with the stack and the bindings with which it was visited -/
  leave : ∀ key n, e.call = .leave key n → ∃ v visits, openVisits past = v :: visits ∧ v.call = .visit key n ∧
    e.after.pending = v.before.pending ∧ e.after.bindings = v.before.bindings

/-- a search that has followed a key goes through the forest at that key and comes back: each call is undone, and all nodes
that were visited are left -/
def WalksBack (f : Formula) (path : List Char) (fo : Forest Formula) : Prop :=
  ∀ s past, s.found = none → follow [] (.initial f) path.reverse = some s.position →
    List.Forall₂ NoteOf s.undo (openVisits past) → ∃ events,
      fo.walk visitor.observed path (s, past) = (fo.walk visitor path s, past ++ events) ∧
      openVisits (past ++ events) = openVisits past ∧ AllAlong (Undone f) past events

section

variable {f : Formula} {path : List Char} {s : State} {past : List (Observed State Formula)} (hs : s.found = none)
  (hposition : follow [] (.initial f) path.reverse = some s.position)
  (hnotes : List.Forall₂ NoteOf s.undo (openVisits past)) (c : Char) (n : Node Formula)

/-- what is written down of the visit of a child -/
def visiting (path : List Char) (n : Node Formula) (s : State) : Observed State Formula :=
  ⟨.visit path.reverse n, s, (visit path n s).2⟩

/-- what is written down of the way out of a child that was visited in the state `s` -/
def leaving (path : List Char) (n : Node Formula) (s : State) (found : Option Match) : Observed State Formula :=
  ⟨.leave path.reverse n, { (visit path n s).2 with found := found }, { s with found := found }⟩

include hs hposition

/-- a visit makes the note for its node -/
theorem notes_visit (hnotes : List.Forall₂ NoteOf s.undo (openVisits past)) :
    List.Forall₂ NoteOf (visit (c :: path) n s).2.undo (visiting (c :: path) n s :: openVisits past) := by
  obtain ⟨u, hu, hpending, hbound, htaken⟩ := step_undo path c s
  rw [(visit_eq hs hposition c n).1]
  show List.Forall₂ NoteOf (step path c s).2.undo _
  rw [hu]
  exact .cons ⟨hpending, hbound, htaken⟩ hnotes

include hnotes

theorem undone_visit : Undone f past (visiting (c :: path) n s) := by
  obtain ⟨hstate, hwhether⟩ := visit_eq hs hposition c n
  have hfound : (visiting (c :: path) n s).after.found = n.value.bind fun a => answer f ((c :: path).reverse, a) := by
    show (visit (c :: path) n s).2.found = _
    rw [hstate]
  constructor
  case notes => exact hnotes
  case leave => exact fun _ _ h => by cases h
  case visit =>
    rintro _ _ ⟨⟩
    rw [hfound, List.reverse_cons, List.dropLast_concat, ← List.reverse_cons, List.reverse_reverse]
    exact ⟨hposition, rfl, hwhether⟩

theorem undone_leave {below : List (Observed State Formula)} (found : Option Match)
    (hopen : openVisits (past ++ visiting (c :: path) n s :: below) = visiting (c :: path) n s :: openVisits past) :
    Undone f (past ++ visiting (c :: path) n s :: below) (leaving (c :: path) n s found) := by
  constructor
  case notes =>
    rw [hopen]
    exact notes_visit hs hposition c n hnotes
  case visit => exact fun _ _ h => by cases h
  case leave =>
    rintro _ _ ⟨⟩
    exact ⟨_, _, hopen, rfl, rfl, rfl⟩

/-- whether the search goes on below a node or not, it comes out of it with the stacks that the visit left -/
theorem enter_observed (hbelow : WalksBack f (c :: path) n.children) :
    ∃ found below,
      visitor.enter (c :: path) n s = { (visit (c :: path) n s).2 with found := found } ∧
      visitor.observed.enter (c :: path) n (s, past) =
        (visitor.enter (c :: path) n s, past ++ visiting (c :: path) n s :: below) ∧
      openVisits (past ++ visiting (c :: path) n s :: below) = visiting (c :: path) n s :: openVisits past ∧
      AllAlong (Undone f) past (visiting (c :: path) n s :: below) := by
  have hvisit := undone_visit hs hposition hnotes c n
  have hopen : openVisits (past ++ [visiting (c :: path) n s]) = visiting (c :: path) n s :: openVisits past :=
    openVisits_visit past _ _ _ _
  have hnext := follow_of_visit hs hposition (c := c) (n := n)
  have hnotes' := notes_visit hs hposition c n hnotes
  have hobserved : visitor.observed.visit (c :: path) n (s, past) =
      ((visit (c :: path) n s).1, (visit (c :: path) n s).2, past ++ [visiting (c :: path) n s]) := rfl
  rw [← hopen] at hnotes'
  generalize visiting (c :: path) n s = e at *
  rcases hv : visit (c :: path) n s with ⟨goes, s'⟩
  rw [hv] at hnext hnotes' hobserved
  have hplain : visitor.visit (c :: path) n s = (goes, s') := hv
  cases goes with
  | false =>
    rw [Visitor.enter_of_false hplain, Visitor.enter_of_false hobserved]
    exact ⟨s'.found, [], rfl, rfl, hopen, hvisit, trivial⟩
  | true =>
    obtain ⟨hfound, hfollow⟩ := hnext rfl
    obtain ⟨below, hwalk, hclosed, hall⟩ := hbelow _ _ hfound hfollow hnotes'
    rw [Visitor.enter_of_true hplain, Visitor.enter_of_true hobserved]
    rw [List.append_assoc, List.singleton_append] at hwalk hclosed
    exact ⟨_, below, walk_visitor f n.children (c :: path) hfound hfollow, hwalk, hclosed.trans hopen, hvisit, hall⟩

/-- a child is visited, with what is below it, and left; but for what was found the search is as it was before -/
theorem child_observed (hbelow : WalksBack f (c :: path) n.children) :
    ∃ found events,
      visitor.leave (c :: path) n (visitor.enter (c :: path) n s) = { s with found := found } ∧
      visitor.observed.leave (c :: path) n (visitor.observed.enter (c :: path) n (s, past)) =
        ({ s with found := found }, past ++ events) ∧
      openVisits (past ++ events) = openVisits past ∧ AllAlong (Undone f) past events := by
  obtain ⟨found, below, hstate, hobserved, hopen, hall⟩ := enter_observed hs hposition hnotes c n hbelow
  have hundone := undone_leave hs hposition hnotes c n found hopen
  have hleave : visitor.leave (c :: path) n { (visit (c :: path) n s).2 with found := found } =
      { s with found := found } := leave_visit hs hposition c n found
  refine ⟨found, visiting (c :: path) n s :: below ++ [leaving (c :: path) n s found], ?_, ?_, ?_, ?_⟩
  · rw [hstate, hleave]
  · rw [hobserved, hstate, ← List.append_assoc, leaving, ← hleave]
    rfl
  · rw [← List.append_assoc, leaving, openVisits_leave, hopen]
    rfl
  · exact (allAlong_append past _ _).mpr ⟨hall, hundone, trivial⟩

end

/-- the search of a forest undoes all its steps -/
theorem walk_observed (f : Formula) (path : List Char) (fo : Forest Formula) : WalksBack f path fo := by
  intro s past hs hposition hnotes
  induction fo generalizing path s past with
  | nil => exact ⟨[], by simp [Forest.walk, AllAlong]⟩
  | node c h v ch sib ihc ihs =>
    have hdone : visitor.isComplete s = false := by
      show s.found.isSome = false
      rw [hs]
      rfl
    have hdone' : visitor.observed.isComplete (s, past) = false := hdone
    obtain ⟨found, events, hplain, hobserved, hclosed, hall⟩ :=
      child_observed hs hposition hnotes c ⟨h, v, ch⟩ fun s past => ihc (c :: path) s past
    rw [Forest.walk_eq_enter c h v ch sib path hdone, Forest.walk_eq_enter c h v ch sib path hdone', hplain, hobserved]
    cases found with
    | some m =>
      refine ⟨events, ?_, hclosed, hall⟩
      rw [Forest.walk_of_isComplete sib path rfl, Forest.walk_of_isComplete sib path rfl]
    | none =>
      have hstart : { s with found := none } = s := by cases s; cases hs; rfl
      rw [hstart]
      obtain ⟨more, hmore, hopen, hrest⟩ := ihs path s (past ++ events) hs hposition (hclosed ▸ hnotes)
      refine ⟨events ++ more, ?_, ?_, ?_⟩
      · rw [hmore, List.append_assoc]
      · rw [← List.append_assoc, hopen, hclosed]
      · exact (allAlong_append past events more).mpr ⟨hall, hrest⟩

/-- **The search undoes every step.** Over any trie, at each call there is one note for each node that is visited and not
left yet, and no note takes anything off an empty stack; each node is left with the stack and the bindings with which it was
visited. So a node is visited in the state that its key leads to, and whether its pattern answers, and how, depends on its
key and the formula alone. In the end all nodes visited are left, the formula waits alone and nothing is bound. -/
theorem search_undoes_steps (t : Trie Formula) (f : Formula) :
    ∃ events, t.accept visitor.observed (start f, []) = (t.accept visitor (start f), events) ∧
      (∀ past e rest, events = past ++ e :: rest → Undone f past e) ∧ openVisits events = [] ∧
      t.accept visitor (start f) = ⟨#[f], [], #[], t.entries.findSome? (answer f)⟩ := by
  have hend := walk_visitor f t.forest [] (s := start f) rfl rfl
  obtain ⟨events, hwalk, hopen, hall⟩ := walk_observed f [] t.forest (start f) [] rfl rfl .nil
  refine ⟨events, ?_, ?_, hopen, ?_⟩
  · rw [Trie.accept_eq_walk, Trie.accept_eq_walk, hwalk]
    rfl
  · rintro past e rest rfl
    exact hall.of_split
  · rw [Trie.accept_eq_walk, hend]
    rfl

end InstanceSearch

end ClauseFold
