/-
Steps that may fail, one after the other: what a chain that ended well says about each of its steps, and what a chain that
failed says about the step where it did.
-/
namespace ClauseFold

variable {ε ε' α β : Type}

theorem bind_eq_ok {x : Except ε α} {f : α → Except ε β} {b : β} : x >>= f = .ok b ↔ ∃ a, x = .ok a ∧ f a = .ok b := by
  cases x with
  | error e =>
    refine ⟨?_, ?_⟩
    · intro h; cases h
    · intro h
      obtain ⟨a, hx, -⟩ := h
      cases hx
  | ok a =>
    refine ⟨?_, ?_⟩
    · intro h; exact ⟨a, rfl, h⟩
    · intro h
      obtain ⟨a', hx, hb⟩ := h
      cases hx
      exact hb

theorem mapError_eq_ok {x : Except ε α} {f : ε → ε'} {a : α} : x.mapError f = .ok a ↔ x = .ok a := by
  cases x with
  | error e =>
    refine ⟨?_, ?_⟩
    · intro h; cases h
    · intro h; cases h
  | ok a' =>
    refine ⟨?_, ?_⟩
    · intro h; cases h; rfl
    · intro h; cases h; rfl

theorem map_eq_error {x : Except ε α} {f : α → β} {e : ε} : x.map f = .error e ↔ x = .error e := by
  cases x with
  | error e' =>
    refine ⟨?_, ?_⟩
    · intro h; cases h; rfl
    · intro h; cases h; rfl
  | ok a =>
    refine ⟨?_, ?_⟩
    · intro h; cases h
    · intro h; cases h

theorem toOption_eq_some {x : Except ε α} {a : α} : x.toOption = some a ↔ x = .ok a := by
  cases x <;> simp [Except.toOption]

/-- checks one after the other pass if each of them does -/
theorem forM_eq_ok {check : α → Except ε Unit} {l : List α} : l.forM check = .ok () ↔ ∀ a ∈ l, check a = .ok () := by
  induction l with
  | nil => exact ⟨fun _ _ ha => absurd ha List.not_mem_nil, fun _ => rfl⟩
  | cons a l ih =>
    show (check a >>= fun _ => l.forM check) = .ok () ↔ _
    rw [bind_eq_ok, List.forall_mem_cons, ← ih]
    exact ⟨fun ⟨_, ha, hl⟩ => ⟨ha, hl⟩, fun ⟨ha, hl⟩ => ⟨(), ha, hl⟩⟩

/-- otherwise the first of them that fails says why -/
theorem exists_of_forM_error {check : α → Except ε Unit} {l : List α} {e : ε} (h : l.forM check = .error e) :
    ∃ before a after, l = before ++ a :: after ∧ (∀ b ∈ before, check b = .ok ()) ∧ check a = .error e := by
  induction l with
  | nil => cases h
  | cons a l ih =>
    change (check a >>= fun _ => l.forM check) = .error e at h
    cases ha : check a with
    | error e' =>
      rw [ha] at h
      cases h
      exact ⟨[], a, l, rfl, fun _ hb => absurd hb List.not_mem_nil, ha⟩
    | ok u =>
      rw [ha] at h
      obtain ⟨before, b, after, rfl, hbefore, hb⟩ := ih h
      exact ⟨a :: before, b, after, rfl, List.forall_mem_cons.mpr ⟨ha, hbefore⟩, hb⟩

/-- what each step keeps, a chain of steps keeps -/
theorem foldlM_preserves {step : β → α → Except ε β} {P : β → Prop}
    (hstep : ∀ {b a b'}, P b → step b a = .ok b' → P b') {l : List α} {b b' : β} (hb : P b)
    (h : l.foldlM step b = .ok b') : P b' := by
  induction l generalizing b with
  | nil =>
    cases h
    exact hb
  | cons a l ih =>
    rw [List.foldlM_cons] at h
    obtain ⟨b₁, hone, hrest⟩ := bind_eq_ok.mp h
    exact ih (hstep hb hone) hrest

/-- a chain of steps goes through and keeps what each step keeps of what it has gone over, or it fails at the first step that
does, and with the error of that step -/
theorem foldlM_cases {step : β → α → Except ε β} {Keeps : List α → β → Prop} {Fails : List α → α → ε → Prop} {l : List α}
    (hstep : ∀ {done : List α} {a : α} {rest : List α} {b : β}, l = done ++ a :: rest → Keeps done b →
      (∃ e, step b a = .error e ∧ Fails done a e) ∨ ∃ b', step b a = .ok b' ∧ Keeps (done ++ [a]) b')
    {b : β} (hb : Keeps [] b) :
    (∃ done a rest b' e, l = done ++ a :: rest ∧ Keeps done b' ∧ Fails done a e ∧ l.foldlM step b = .error e) ∨
      ∃ b', l.foldlM step b = .ok b' ∧ Keeps l b' := by
  suffices ∀ (rest done : List α) (b : β), l = done ++ rest → Keeps done b →
      (∃ done a after b' e, l = done ++ a :: after ∧ Keeps done b' ∧ Fails done a e ∧ rest.foldlM step b = .error e) ∨
        ∃ b', rest.foldlM step b = .ok b' ∧ Keeps l b' from this l [] b rfl hb
  intro rest
  induction rest with
  | nil =>
    intro done b hl hb
    rw [List.append_nil] at hl
    exact Or.inr ⟨b, rfl, hl ▸ hb⟩
  | cons a rest ih =>
    intro done b hl hb
    rw [List.foldlM_cons]
    rcases hstep hl hb with ⟨e, he, hfails⟩ | ⟨b', hok, hb'⟩
    · rw [he]
      exact Or.inl ⟨done, a, rest, b, e, hl, hb, hfails, rfl⟩
    · rw [hok]
      exact ih (done ++ [a]) b' (by rw [hl, List.append_assoc]; rfl) hb'

end ClauseFold
