import CoolCompiler.Text.Basic

/-!
# Pieces of a text

Cutting a text at a byte and joining the pieces undo each other, if no piece holds the byte.
-/

namespace CoolCompiler.Text

open List

theorem splitAt_eq_splitOn (sep : UInt8) (t : Text) : splitAt sep t = t.splitOn sep := by
  induction t with
  | nil => rfl
  | cons b rest ih =>
    have hcons : (b :: rest).splitOn sep =
        if b == sep then [] :: rest.splitOn sep else (rest.splitOn sep).modifyHead (b :: ·) :=
      splitOnP_cons_eq_if_modifyHead b rest
    obtain ⟨piece, pieces, hp⟩ := exists_cons_of_ne_nil (splitOn_ne_nil sep rest)
    rw [hcons, splitAt, ih, hp]
    simp only [beq_iff_eq, modifyHead_cons]

theorem join_eq_intercalate (sep : Text) (parts : List Text) :
    join sep parts = sep.intercalate parts := by
  induction parts with
  | nil => rfl
  | cons part parts ih =>
    cases parts with
    | nil => rw [join, intercalate_singleton]
    | cons next parts =>
      rw [intercalate_cons_cons, ← ih]
      rfl

theorem splitAt_ne_nil (sep : UInt8) (t : Text) : splitAt sep t ≠ [] := by
  rw [splitAt_eq_splitOn]
  exact splitOn_ne_nil sep t

theorem join_splitAt (sep : UInt8) (t : Text) : join [sep] (splitAt sep t) = t := by
  rw [splitAt_eq_splitOn, join_eq_intercalate, intercalate_splitOn]

theorem splitAt_join {sep : UInt8} {parts : List Text} (hne : parts ≠ [])
    (hfree : ∀ part ∈ parts, sep ∉ part) : splitAt sep (join [sep] parts) = parts := by
  rw [splitAt_eq_splitOn, join_eq_intercalate, splitOn_intercalate sep hfree hne]

theorem splitAt_append (sep : UInt8) (front back : Text) :
    splitAt sep (front ++ sep :: back) = splitAt sep front ++ splitAt sep back := by
  simp only [splitAt_eq_splitOn]
  exact splitOnP_append_cons front back (beq_self_eq_true sep)

theorem not_mem_of_mem_splitAt {sep : UInt8} {t piece : Text} (h : piece ∈ splitAt sep t) :
    sep ∉ piece := by
  induction t generalizing piece with
  | nil =>
    rw [splitAt, mem_singleton] at h
    rw [h]
    exact not_mem_nil
  | cons b rest ih =>
    obtain ⟨first, pieces, hp⟩ := exists_cons_of_ne_nil (splitAt_ne_nil sep rest)
    rw [splitAt, hp] at h
    rw [hp] at ih
    split at h
    · rcases mem_cons.mp h with rfl | h
      · exact not_mem_nil
      · exact ih h
    · next hb =>
      rcases mem_cons.mp h with rfl | h
      · exact not_mem_cons_of_ne_of_not_mem (Ne.symm hb) (ih mem_cons_self)
      · exact ih (mem_cons_of_mem first h)

end CoolCompiler.Text
