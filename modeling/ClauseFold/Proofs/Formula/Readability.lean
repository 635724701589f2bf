/-
Encodings as a code. No encoding goes on to another (`eq_of_encode_prefix`), and of two texts that begin the same text one
begins the other; so what stands in front of a text as an encoding is the same however it is read, and with it what comes
after.

Main statement:
- `encodings_uniquely_readable`: an encoding is told from what follows it, and a row of encodings is told apart.
-/
import ClauseFold.Proofs.Formula.Decoding

namespace ClauseFold.Formula

/-- an encoding ends where it does, whatever comes after it -/
theorem encode_append_inj {a b : Formula} {u v : List Char} (h : a.encode ++ u = b.encode ++ v) : a = b ∧ u = v := by
  have hprefix : a.encode <+: b.encode ∨ b.encode <+: a.encode :=
    List.prefix_or_prefix_of_prefix ⟨u, h⟩ (List.prefix_append b.encode v)
  have hab : a = b := by
    rcases hprefix with ha | hb
    · exact eq_of_encode_prefix ha
    · have hba := eq_of_encode_prefix hb
      exact hba.symm
  subst hab
  exact ⟨rfl, List.append_cancel_left h⟩

theorem flatMap_encode_inj {fs gs : List Formula} (h : fs.flatMap encode = gs.flatMap encode) : fs = gs := by
  induction fs generalizing gs with
  | nil =>
    cases gs with
    | nil => rfl
    | cons g gs => exact absurd (List.append_eq_nil_iff.mp h.symm).1 (encode_ne_nil g)
  | cons f fs ih =>
    cases gs with
    | nil => exact absurd (List.append_eq_nil_iff.mp h).1 (encode_ne_nil f)
    | cons g gs =>
      obtain ⟨rfl, hrest⟩ := encode_append_inj h
      rw [ih hrest]

theorem toList_encoding (f : Formula) : f.encoding.toList = f.encode := String.toList_ofList

theorem toList_join_encoding (fs : List Formula) : (String.join (fs.map encoding)).toList = fs.flatMap encode := by
  rw [String.toList_join, List.flatMap_map]
  exact congrArg (List.flatMap · fs) (funext toList_encoding)

/-- **Encodings are uniquely readable.** If the encodings of two formulas, each with a text behind it, are the same text,
the formulas are the same and so are the texts behind them. So an encoding goes on to another only with nothing, and a list
of formulas is known from its encodings written one behind the other. -/
theorem encodings_uniquely_readable :
    (∀ (a b : Formula) (u v : String), a.encoding ++ u = b.encoding ++ v ↔ a = b ∧ u = v) ∧
    (∀ (a b : Formula) (u : String), a.encoding ++ u = b.encoding ↔ a = b ∧ u = "") ∧
    ∀ fs gs : List Formula, String.join (fs.map encoding) = String.join (gs.map encoding) ↔ fs = gs := by
  have hread : ∀ (a b : Formula) (u v : String), a.encoding ++ u = b.encoding ++ v ↔ a = b ∧ u = v := by
    intro a b u v
    refine ⟨?_, ?_⟩
    · intro h
      have hlist : a.encode ++ u.toList = b.encode ++ v.toList := by
        rw [← toList_encoding, ← toList_encoding, ← String.toList_append, ← String.toList_append, h]
      obtain ⟨hab, huv⟩ := encode_append_inj hlist
      exact ⟨hab, String.toList_injective huv⟩
    · rintro ⟨rfl, rfl⟩
      rfl
  refine ⟨hread, ?_, ?_⟩
  · intro a b u
    have h := hread a b u ""
    rwa [String.append_empty] at h
  · intro fs gs
    refine ⟨?_, ?_⟩
    · intro h
      apply flatMap_encode_inj
      rw [← toList_join_encoding, h, toList_join_encoding]
    · rintro rfl
      rfl

/-- the dot tells ids apart that run together without it: `1` in front of `12` and `11` in front of `2` -/
example : ((imp (var ⟨1, by decide, by decide⟩) (var ⟨12, by decide, by decide⟩)).encode,
    (imp (var ⟨11, by decide, by decide⟩) (var ⟨2, by decide, by decide⟩)).encode) =
      ("*1.12.".toList, "*11.2.".toList) := by cbv

end ClauseFold.Formula
