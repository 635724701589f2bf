/-
Variables under other names. A renaming puts for each variable another one; where it keeps variables apart it keeps
formulas apart, and what is made of formulas without a look at their variables can be renamed before or after.

Results:
- `rename_injective`: renamings that keep variables apart keep formulas apart;
- `clause_rename`, `eraseDups_map`: clauses are renamed literal by literal;
- `substitute_rename`: where all variables of a formula are bound, only what they are bound to is renamed.
-/
import Mathlib.Logic.Function.Basic
import ClauseFold.Proofs.Formula.Substitution

namespace ClauseFold

namespace Formula

/-- puts for each variable another one -/
def rename (r : VarId → VarId) : Formula → Formula
  | const b => const b
  | var v => var (r v)
  | neg f => neg (f.rename r)
  | imp a c => imp (a.rename r) (c.rename r)

variable {r : VarId → VarId}

theorem rename_injective (hr : Function.Injective r) : Function.Injective (rename r) := by
  intro f g h
  induction f generalizing g with
  | const b => cases g <;> simp_all [rename]
  | var v =>
    cases g with
    | var w => exact congrArg var (hr (var.inj h))
    | const _ => cases h
    | neg _ => cases h
    | imp _ _ => cases h
  | neg f ih =>
    cases g with
    | neg g => exact congrArg neg (ih (neg.inj h))
    | const _ => cases h
    | var _ => cases h
    | imp _ _ => cases h
  | imp a c iha ihc =>
    cases g with
    | imp a' c' =>
      obtain ⟨ha, hc⟩ := imp.inj h
      rw [iha ha, ihc hc]
    | const _ => cases h
    | var _ => cases h
    | neg _ => cases h

@[simp] theorem length_rename (f : Formula) : (f.rename r).length = f.length := by
  induction f with
  | const b => rfl
  | var v => rfl
  | neg f ih => rw [rename, length, length, ih]
  | imp a c iha ihc => rw [rename, length, length, iha, ihc]

@[simp] theorem asConst?_rename (f : Formula) : (f.rename r).asConst? = f.asConst? := by
  cases f <;> rfl

theorem foldl_disj_rename (f : Formula) (literals : List Formula) :
    (literals.map (rename r)).foldl disj (f.rename r) = (literals.foldl disj f).rename r := by
  induction literals generalizing f with
  | nil => rfl
  | cons l literals ih => exact ih (disj f l)

theorem clause_rename (literals : List Formula) : clause (literals.map (rename r)) = (clause literals).rename r := by
  cases literals with
  | nil => rfl
  | cons l literals => exact foldl_disj_rename l literals

end Formula

/-- where items stay apart, the first of each can be picked before or after -/
theorem eraseDups_map {α β : Type} [BEq α] [LawfulBEq α] [BEq β] [LawfulBEq β] {g : α → β} (hg : Function.Injective g)
    (l : List α) : (l.map g).eraseDups = l.eraseDups.map g := by
  match l with
  | [] => rfl
  | a :: l =>
    have hsame : ∀ b, (g b == g a) = (b == a) := by
      intro b
      rw [Bool.eq_iff_iff, beq_iff_eq, beq_iff_eq, hg.eq_iff]
    have hfilter : (l.map g).filter (fun b => !b == g a) = (l.filter fun b => !b == a).map g := by
      rw [List.filter_map]
      simp only [Function.comp_def, hsame]
    rw [List.map_cons, List.eraseDups_cons, List.eraseDups_cons, List.map_cons, hfilter, eraseDups_map hg]
termination_by l.length
decreasing_by exact Nat.lt_succ_of_le (List.length_filter_le _ _)

/-! ## Bindings -/

namespace Bindings

/-- renames what is bound; the numbers that it is bound to stay -/
def rename (r : VarId → VarId) (b : Bindings) : Bindings := b.map fun e => (e.1, e.2.rename r)

theorem lookup_rename (r : VarId → VarId) (b : Bindings) (id : Nat) :
    (b.rename r).lookup id = (b.lookup id).map (Formula.rename r) := lookup_map (Formula.rename r) b id

/-- whether all variables of a formula are bound -/
def Binds (b : Bindings) (f : Formula) : Prop := ∀ v ∈ f.occurrences, ∃ g, b.lookup v.val = some g

end Bindings

/-- where all variables of a formula are bound, only what they are bound to is renamed -/
theorem Formula.substitute_rename (r : VarId → VarId) {b : Bindings} {f : Formula} (h : b.Binds f) :
    f.substitute (b.rename r) = (f.substitute b).rename r := by
  induction f with
  | const c => rfl
  | var x =>
    obtain ⟨g, hg⟩ := h x (by simp)
    simp only [substitute, Bindings.lookup_rename, hg, Option.map_some]
  | neg f ih => rw [substitute, substitute, rename, ih fun v hv => h v (by simpa using hv)]
  | imp a c iha ihc =>
    rw [substitute, substitute, rename, iha fun v hv => h v (by simp [hv]), ihc fun v hv => h v (by simp [hv])]

end ClauseFold
