import CoolCompiler.ObjectModel.ClassTable
import CoolCompiler.Proofs.Climb

/-!
# Parent chains

The tags on the way from a class up to the root.  The class table follows it for a bounded number of
steps, which is enough.
-/

namespace CoolCompiler.ClassTable

open List

/-- The tags from a class up to one without a parent, nearest first. -/
abbrev Ascent (parents : List (Option Nat)) : Nat → List Nat → Prop :=
  Climb (fun tag => parents[tag]?)

namespace Ascent

variable {parents : List (Option Nat)} {tag : Nat} {line : List Nat}

theorem lt_length {x : Nat} (h : Ascent parents tag line) (hx : x ∈ line) :
    x < parents.length := by
  obtain ⟨rest, hrest, _⟩ := h.suffix_of_mem hx
  cases hrest with
  | root hp => exact (List.getElem?_eq_some_iff.mp hp).1
  | step hp _ => exact (List.getElem?_eq_some_iff.mp hp).1

/-- A way up visits distinct tags, so it is no longer than there are classes. -/
theorem length_le (h : Ascent parents tag line) : line.length ≤ parents.length := by
  have hsubset : line ⊆ List.range parents.length := by
    intro x hx
    exact mem_range.mpr (h.lt_length hx)
  have hle := (h.nodup.subperm hsubset).length_le
  rwa [length_range] at hle

theorem upwards_eq (h : Ascent parents tag line) {steps : Nat} (hsteps : line.length ≤ steps) :
    upwards parents steps tag = line := by
  induction h generalizing steps with
  | root hp =>
    cases steps with
    | zero => simp at hsteps
    | succ steps => simp [upwards, hp]
  | step hp _ ih =>
    cases steps with
    | zero => simp at hsteps
    | succ steps =>
      simp only [length_cons] at hsteps
      simp [upwards, hp, ih (by omega : _ ≤ steps)]

theorem of_upwards {steps x : Nat} (hx : x ∈ upwards parents steps tag)
    (hroot : parents[x]? = some none) : ∃ line, Ascent parents tag line := by
  induction steps generalizing tag with
  | zero => simp [upwards] at hx
  | succ steps ih =>
    cases hp : parents[tag]? with
    | none =>
      simp only [upwards, hp, mem_singleton] at hx
      rw [hx, hp] at hroot
      cases hroot
    | some parent =>
      cases parent with
      | none => exact ⟨_, Climb.root hp⟩
      | some parent =>
        simp only [upwards, hp, mem_cons] at hx
        rcases hx with rfl | hx
        · rw [hp] at hroot
          cases hroot
        · obtain ⟨line, hline⟩ := ih hx
          exact ⟨_, Climb.step hp hline⟩

end Ascent
end CoolCompiler.ClassTable
