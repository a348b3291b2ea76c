import Mathlib.Data.List.Nodup
import Mathlib.Data.List.Perm.Subperm

/-!
# Climbing to a root

The way from a place up to one without a parent, as a relation.  The functions of this library
follow it for a bounded number of steps.
-/

namespace CoolCompiler

open List

/-- The places from one up to a root, nearest first.  Of each place that there is, `up`
says whether it has a parent. -/
inductive Climb {α : Type} (up : α → Option (Option α)) : α → List α → Prop where
  | root {x : α} : up x = some none → Climb up x [x]
  | step {x parent : α} {line : List α} :
      up x = some (some parent) → Climb up parent line → Climb up x (x :: line)

namespace Climb

variable {α : Type} {up : α → Option (Option α)} {x : α} {line : List α}

/-!
# Shape

A way up is determined by its place and never comes back to one: the way from a place met twice
would be shorter than itself.
-/

theorem mem_self (h : Climb up x line) : x ∈ line := by
  cases h with
  | root hp => exact mem_singleton_self x
  | step hp hline => exact mem_cons_self

theorem unique {other : List α} (h : Climb up x line) (hother : Climb up x other) :
    line = other := by
  induction h generalizing other with
  | root hp =>
    cases hother with
    | root _ => rfl
    | step hq _ =>
      rw [hp] at hq
      cases hq
  | step hp _ ih =>
    cases hother with
    | root hq =>
      rw [hp] at hq
      cases hq
    | step hq hrest =>
      rw [hp] at hq
      cases hq
      rw [ih hrest]

theorem suffix_of_mem {y : α} (h : Climb up x line) (hy : y ∈ line) :
    ∃ rest, Climb up y rest ∧ rest <:+ line := by
  induction h with
  | root hp =>
    rw [mem_singleton] at hy
    subst hy
    exact ⟨_, .root hp, suffix_refl _⟩
  | step hp hline ih =>
    rcases mem_cons.mp hy with rfl | hy
    · exact ⟨_, .step hp hline, suffix_refl _⟩
    · obtain ⟨rest, hrest, hsuffix⟩ := ih hy
      exact ⟨rest, hrest, hsuffix.trans (suffix_cons _ _)⟩

theorem of_append {before after : List α} {y : α} (h : Climb up x (before ++ y :: after)) :
    Climb up y (y :: after) := by
  induction before generalizing x with
  | nil =>
    cases h with
    | root hp => exact .root hp
    | step hp hline => exact .step hp hline
  | cons first before ih =>
    rw [cons_append] at h
    generalize hrest : before ++ y :: after = rest at h
    cases h with
    | root _ => simp at hrest
    | step _ hline => exact ih (hrest ▸ hline)

theorem eq_or_parent {y : α} (h : Climb up x line) (hy : y ∈ line) :
    y = x ∨ ∃ z, up z = some (some y) := by
  induction h with
  | root _ => exact .inl (mem_singleton.mp hy)
  | step hp _ ih =>
    rcases mem_cons.mp hy with rfl | hy
    · exact .inl rfl
    · rcases ih hy with rfl | hparent
      · exact .inr ⟨_, hp⟩
      · exact .inr hparent

theorem nodup (h : Climb up x line) : line.Nodup := by
  induction h with
  | root _ => exact nodup_singleton _
  | @step x parent line hp hline ih =>
    refine nodup_cons.mpr ⟨?_, ih⟩
    intro hmem
    obtain ⟨rest, hrest, hsuffix⟩ := hline.suffix_of_mem hmem
    have hsame : rest = x :: line := hrest.unique (.step hp hline)
    have hlen := hsuffix.length_le
    rw [hsame, length_cons] at hlen
    omega

theorem exists_root (h : Climb up x line) : ∃ y ∈ line, up y = some none := by
  induction h with
  | root hp => exact ⟨_, mem_singleton_self _, hp⟩
  | step _ _ ih =>
    obtain ⟨y, hy, hroot⟩ := ih
    exact ⟨y, mem_cons_of_mem _ hy, hroot⟩

end Climb
end CoolCompiler
