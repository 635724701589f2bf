/-
Substitution as a choice of formulas. Bindings choose for each variable the formula of the first binding of its number, and
the variable itself where there is none; all that a substitution does is to put these choices in. What is put in is not
looked at again, though it may have variables that are bound as well, the very one it is put in for included.

Results:
- `choice_of_unbound`, `choice_of_boundTo`: what bindings choose;
- `apply_apply`: one choice after another is one choice;
- `substitute_substitute`: so are bindings after bindings, and these are the bindings that make it;
- `mem_occurrences_substitute`: the variables that come out;
- `substitution_simultaneous`: the value, the composition and the variables of a substitution;
- `substitute_eq_foldl`: when the bindings can just as well be put in one after the other.
-/
import ClauseFold.Formula.Semantics

namespace ClauseFold

/-! ## Choices -/

namespace Formula

/-- puts for each variable what is chosen for it -/
def apply (choice : VarId → Formula) : Formula → Formula
  | const b => const b
  | var v => choice v
  | neg f => neg (f.apply choice)
  | imp a c => imp (a.apply choice) (c.apply choice)

/-- the variables of an instance are those of what is chosen for the variables of the pattern -/
theorem mem_occurrences_apply {choice : VarId → Formula} {f : Formula} {v : VarId} :
    v ∈ (f.apply choice).occurrences ↔ ∃ x ∈ f.occurrences, v ∈ (choice x).occurrences := by
  induction f with
  | const b => simp [apply]
  | var x => simp [apply]
  | neg f ih => simp [apply, ih]
  | imp a c iha ihc => simp [apply, iha, ihc, or_and_right, exists_or]

/-- one choice after another is one choice: what the later one makes of what the earlier one puts in -/
theorem apply_apply (earlier later : VarId → Formula) (f : Formula) :
    (f.apply earlier).apply later = f.apply fun v => (earlier v).apply later := by
  induction f with
  | const b => rfl
  | var v => rfl
  | neg f ih => rw [apply, apply, apply, ih]
  | imp a c iha ihc => rw [apply, apply, apply, iha, ihc]

/-- a choice that leaves the variables of a formula leaves the formula -/
theorem apply_eq_self {choice : VarId → Formula} {f : Formula} (h : ∀ v ∈ f.occurrences, choice v = var v) :
    f.apply choice = f := by
  induction f with
  | const b => rfl
  | var v => exact h v (by simp)
  | neg f ih => rw [apply, ih fun v hv => h v (by simpa using hv)]
  | imp a c iha ihc => rw [apply, iha fun v hv => h v (by simp [hv]), ihc fun v hv => h v (by simp [hv])]

end Formula

/-! ## Bindings -/

namespace Bindings

/-- whether nothing is bound to the number -/
def Unbound (b : Bindings) (id : Nat) : Prop := id ∉ b.map Prod.fst

/-- whether it is this formula that is bound to the number, by the first of its bindings -/
def BoundTo (b : Bindings) (id : Nat) (f : Formula) : Prop :=
  ∃ before after, b = before ++ (id, f) :: after ∧ Unbound before id

/-- the choice that bindings stand for; what is not bound stays -/
def choice (b : Bindings) (v : VarId) : Formula := (b.lookup v.val).getD (.var v)

/-- bindings for one substitution in the place of two: what `b` puts in as `c` makes it, and then what `c` puts in -/
def andThen (b c : Bindings) : Bindings := b.map (fun e => (e.1, e.2.substitute c)) ++ c

theorem unbound_iff {b : Bindings} {id : Nat} : b.Unbound id ↔ ∀ e ∈ b, (id != e.1) = true := by
  unfold Unbound
  rw [List.mem_map]
  simp only [bne_iff_ne, not_exists, not_and]
  exact ⟨fun h e he heq => h e he heq.symm, fun h e he heq => h e he heq.symm⟩

theorem lookup_eq_none_iff {b : Bindings} {id : Nat} : b.lookup id = none ↔ b.Unbound id := by
  rw [List.lookup_eq_none_iff, unbound_iff]

theorem lookup_eq_some_iff {b : Bindings} {id : Nat} {f : Formula} : b.lookup id = some f ↔ b.BoundTo id f := by
  rw [List.lookup_eq_some_iff]
  simp only [BoundTo, unbound_iff]

theorem lookup_map (g : Formula → Formula) (b : Bindings) (id : Nat) :
    (b.map fun e => (e.1, g e.2)).lookup id = (b.lookup id).map g := by
  induction b with
  | nil => rfl
  | cons e b ih =>
    rw [List.map_cons, List.lookup_cons, List.lookup_cons]
    cases id == e.1 with
    | true => rfl
    | false => exact ih

theorem choice_of_unbound {b : Bindings} {v : VarId} (h : b.Unbound v.val) : b.choice v = .var v := by
  rw [choice, lookup_eq_none_iff.mpr h, Option.getD_none]

theorem choice_of_boundTo {b : Bindings} {v : VarId} {f : Formula} (h : b.BoundTo v.val f) : b.choice v = f := by
  rw [choice, lookup_eq_some_iff.mpr h, Option.getD_some]

theorem unbound_or_boundTo (b : Bindings) (id : Nat) : b.Unbound id ∨ ∃ f, b.BoundTo id f := by
  cases h : b.lookup id with
  | none => exact .inl (lookup_eq_none_iff.mp h)
  | some f => exact .inr ⟨f, lookup_eq_some_iff.mp h⟩

end Bindings

theorem Valuation.through_eq (v : Valuation) (b : Bindings) (x : VarId) : v.through b x = (b.choice x).eval v := by
  unfold Valuation.through Bindings.choice
  cases b.lookup x.val <;> rfl

/-! ## Substitutions -/

theorem Formula.substitute_eq_apply (b : Bindings) (f : Formula) : f.substitute b = f.apply b.choice := by
  induction f with
  | const c => rfl
  | var v =>
    unfold substitute apply Bindings.choice
    cases b.lookup v.val <;> rfl
  | neg f ih => rw [substitute, apply, ih]
  | imp a c iha ihc => rw [substitute, apply, iha, ihc]

theorem Bindings.choice_andThen (b c : Bindings) (v : VarId) :
    (b.andThen c).choice v = (b.choice v).apply c.choice := by
  unfold choice andThen
  rw [List.lookup_append, lookup_map]
  cases b.lookup v.val with
  | none => rfl
  | some f => exact Formula.substitute_eq_apply c f

namespace Formula

theorem substitute_substitute (b c : Bindings) (f : Formula) :
    (f.substitute b).substitute c = f.substitute (b.andThen c) := by
  calc (f.substitute b).substitute c
      = (f.apply b.choice).apply c.choice := by rw [substitute_eq_apply, substitute_eq_apply]
    _ = f.apply fun v => (b.choice v).apply c.choice := apply_apply b.choice c.choice f
    _ = f.apply (b.andThen c).choice := congrArg f.apply (funext fun v => (b.choice_andThen c v).symm)
    _ = f.substitute (b.andThen c) := (substitute_eq_apply _ f).symm

/-- a variable comes out where it has stood unbound, or as one of what is put in -/
theorem mem_occurrences_substitute {b : Bindings} {f : Formula} {v : VarId} :
    v ∈ (f.substitute b).occurrences ↔
      (v ∈ f.occurrences ∧ b.Unbound v.val) ∨
        ∃ x ∈ f.occurrences, ∃ g, b.BoundTo x.val g ∧ v ∈ g.occurrences := by
  rw [substitute_eq_apply, mem_occurrences_apply]
  refine ⟨?_, ?_⟩
  · -- each variable that comes out is one of what was chosen for some `x`, which is `x` itself where nothing is bound
    intro hchosen
    obtain ⟨x, hx, hv⟩ := hchosen
    rcases b.unbound_or_boundTo x.val with hunbound | ⟨g, hg⟩
    · rw [Bindings.choice_of_unbound hunbound, occurrences_var, List.mem_singleton] at hv
      rw [hv]
      exact .inl ⟨hx, hunbound⟩
    · rw [Bindings.choice_of_boundTo hg] at hv
      exact .inr ⟨x, hx, g, hg, hv⟩
  · rintro (⟨hv, hunbound⟩ | ⟨x, hx, g, hg, hv⟩)
    · refine ⟨v, hv, ?_⟩
      rw [Bindings.choice_of_unbound hunbound, occurrences_var]
      exact List.mem_singleton_self v
    · refine ⟨x, hx, ?_⟩
      rwa [Bindings.choice_of_boundTo hg]

/-- **Substitution is simultaneous and composes.** Of several bindings of a number the first counts, and what a variable is
bound to may have bound variables, itself among them. A substituted formula has the value of the formula on the valuation
that gives each bound variable the value of what it is bound to, and each other one the value it has. Two substitutions one
after the other are one: by the bindings of the first with the second made in their formulas, followed by those of the
second. The variables of a substituted formula are the unbound ones of the formula, and those of what its bound ones are
bound to. -/
theorem substitution_simultaneous (f : Formula) (b c : Bindings) (v : Valuation) :
    (f.substitute b).eval v = f.eval (v.through b) ∧
    (∀ x : VarId, (b.Unbound x.val ∧ v.through b x = v x) ∨ ∃ g, b.BoundTo x.val g ∧ v.through b x = g.eval v) ∧
    (f.substitute b).substitute c = f.substitute (b.map (fun e => (e.1, e.2.substitute c)) ++ c) ∧
    ∀ x, x ∈ (f.substitute b).vars ↔
      (x ∈ f.vars ∧ b.Unbound x.val) ∨ ∃ y ∈ f.vars, ∃ g, b.BoundTo y.val g ∧ x ∈ g.vars := by
  refine ⟨eval_substitute v b f, ?_, substitute_substitute b c f, ?_⟩
  · intro x
    rw [Valuation.through_eq]
    rcases b.unbound_or_boundTo x.val with hunbound | ⟨g, hg⟩
    · exact .inl ⟨hunbound, congrArg (eval v) (Bindings.choice_of_unbound hunbound)⟩
    · exact .inr ⟨g, hg, congrArg (eval v) (Bindings.choice_of_boundTo hg)⟩
  · intro x
    simp only [mem_vars]
    exact mem_occurrences_substitute

/-! ## One binding after the other -/

/-- a formula none of whose variables is bound stays as it is -/
theorem substitute_of_unbound {b : Bindings} {f : Formula} (h : ∀ v ∈ f.vars, b.Unbound v.val) : f.substitute b = f := by
  rw [substitute_eq_apply]
  exact apply_eq_self fun v hv => Bindings.choice_of_unbound (h v (mem_vars.mpr hv))

theorem substitute_nil (f : Formula) : f.substitute [] = f := substitute_of_unbound fun _ _ => List.not_mem_nil

/-- one binding can be put in ahead of the others where they leave what it puts in -/
theorem substitute_cons {e : Nat × Formula} {b : Bindings} (h : ∀ v ∈ e.2.vars, b.Unbound v.val) (f : Formula) :
    f.substitute (e :: b) = (f.substitute [e]).substitute b := by
  rw [substitute_substitute, Bindings.andThen, List.map_singleton, substitute_of_unbound h, List.singleton_append]

/-- **Bindings can be put in one after the other** where no formula has a variable that is bound further on. Without that the
outcomes can differ: what an earlier binding has put in would be taken for a part of the formula. -/
theorem substitute_eq_foldl {b : Bindings} (h : b.Pairwise fun e later => ∀ v ∈ e.2.vars, v.val ≠ later.1)
    (f : Formula) : f.substitute b = b.foldl (fun f e => f.substitute [e]) f := by
  induction b generalizing f with
  | nil => exact substitute_nil f
  | cons e b ih =>
    obtain ⟨hfirst, hrest⟩ := List.pairwise_cons.mp h
    -- the rest leaves what the first binding puts in, so that may be there before the rest comes to the formula
    have hunbound : ∀ v ∈ e.2.vars, Bindings.Unbound b v.val := by
      intro v hv
      rw [Bindings.unbound_iff]
      exact fun later hlater => bne_iff_ne.mpr (hfirst later hlater v hv)
    rw [List.foldl_cons, ← ih hrest, substitute_cons hunbound]

/-- `1.` and `2.` change places in `*1.2.`; one binding after the other makes `*1.1.` of it -/
example :
    let p := var ⟨1, by decide, by decide⟩
    let q := var ⟨2, by decide, by decide⟩
    (imp p q).substitute [(1, q), (2, p)] = imp q p ∧ ((imp p q).substitute [(1, q)]).substitute [(2, p)] = imp p p := by
  decide

end Formula

end ClauseFold
