import CoolCompiler.Typing.Inheritance
import CoolCompiler.Proofs.Climb
import CoolCompiler.Proofs.Dictionary

/-!
# Ancestors

The chain of ancestors that is computed in bounded steps is the whole way up, and a class without a
cycle above it has one.
-/

namespace CoolCompiler.Inheritance

open List

/-- The names from a class up to one without a parent. -/
abbrev Ancestry (g : Inheritance) : Name → List Name → Prop :=
  Climb (fun c => some (g.parent? c))

variable {g : Inheritance} {c : Name} {line : List Name}

theorem mem_keys_of_parent? {p : Name} (h : g.parent? c = some p) :
    c ∈ g.parents.map Prod.fst := by
  unfold parent? at h
  split at h
  · rename_i hfind
    exact Dictionary.mem_keys_of_find? hfind
  · cases h

/-- All names on the way but the last have an entry, so the way is at most one longer than
there are entries. -/
theorem length_le (h : g.Ancestry c line) : line.length ≤ g.parents.length + 1 := by
  have hkeys : line.dropLast ⊆ g.parents.map Prod.fst := by
    induction h with
    | root _ => simp
    | @step x parent line hp hline ih =>
      cases line with
      | nil => simp
      | cons y rest =>
        rw [dropLast_cons_of_ne_nil (cons_ne_nil y rest)]
        exact cons_subset.mpr ⟨mem_keys_of_parent? (Option.some.inj hp), ih⟩
  have hnodup : line.dropLast.Nodup := h.nodup.sublist (dropLast_sublist line)
  have hle := (hnodup.subperm hkeys).length_le
  simp only [length_dropLast, length_map] at hle
  omega

theorem climb_eq (h : g.Ancestry c line) {steps : Nat} {seen : List Name}
    (hsteps : line.length ≤ steps) (hseen : ∀ x ∈ line, x ∉ seen) :
    g.climb steps seen (some c) = line := by
  induction h generalizing steps seen with
  | @root x hp =>
    cases steps with
    | zero => simp at hsteps
    | succ steps =>
      have hx := hseen x mem_cons_self
      rw [climb, if_neg hx, Option.some.inj hp]
      cases steps <;> rfl
  | @step x parent line hp hline ih =>
    cases steps with
    | zero => simp at hsteps
    | succ steps =>
      have hx := hseen x mem_cons_self
      have hfresh : x ∉ line := (nodup_cons.mp (Climb.step hp hline).nodup).1
      rw [climb, if_neg hx, Option.some.inj hp, ih]
      · simpa using hsteps
      · intro y hy
        rw [mem_cons]
        rintro (rfl | hmem)
        · exact hfresh hy
        · exact hseen y (mem_cons_of_mem x hy) hmem

theorem start?_eq_some (hempty : c ≠ []) (hnone : c ≠ Name.noClass) : start? c = some c := by
  simp [start?, hempty, hnone]

theorem ancestors_eq (h : g.Ancestry c line) (hempty : c ≠ []) (hnone : c ≠ Name.noClass) :
    g.ancestors c = line := by
  unfold ancestors
  rw [start?_eq_some hempty hnone]
  exact climb_eq h (length_le h) (fun _ _ => not_mem_nil)

theorem ne_of_mem_ancestors {x : Name} (h : x ∈ g.ancestors c) : c ≠ [] ∧ c ≠ Name.noClass := by
  rw [← not_or]
  intro hreserved
  simp [ancestors, start?, hreserved, climb] at h

theorem ne_of_parent? {p : Name} (h : g.parent? c = some p) : p ≠ [] ∧ p ≠ Name.noClass := by
  unfold parent? at h
  split at h
  · split at h
    · cases h
    · rename_i hreserved
      cases h
      exact not_or.mp hreserved
  · cases h

theorem mem_ancestors_self (hempty : c ≠ []) (hnone : c ≠ Name.noClass) : c ∈ g.ancestors c := by
  unfold ancestors
  rw [start?_eq_some hempty hnone, climb, if_neg not_mem_nil]
  exact mem_cons_self

/-- Following parents without coming round ends at a root: the names seen are distinct and have
entries, so they are bounded. -/
theorem exists_ancestry_of_returns {steps : Nat} {seen : List Name}
    (hreturns : g.returns steps seen (some c) = false)
    (hlength : seen.length + steps = g.parents.length + 2) (hnodup : seen.Nodup)
    (hkeys : seen ⊆ g.parents.map Prod.fst) : ∃ line, g.Ancestry c line := by
  induction steps generalizing seen c with
  | zero =>
    have hle := (hnodup.subperm hkeys).length_le
    simp only [length_map] at hle
    omega
  | succ steps ih =>
    unfold returns at hreturns
    split at hreturns
    · cases hreturns
    · rename_i hfresh
      cases hp : g.parent? c with
      | none => exact ⟨[c], .root (congrArg some hp)⟩
      | some p =>
        rw [hp] at hreturns
        have hseen : (c :: seen) ⊆ g.parents.map Prod.fst :=
          cons_subset.mpr ⟨mem_keys_of_parent? hp, hkeys⟩
        have hlength' : (c :: seen).length + steps = g.parents.length + 2 := by
          rw [length_cons]
          omega
        rcases ih hreturns hlength' (nodup_cons.mpr ⟨hfresh, hnodup⟩) hseen with
          ⟨line, hline⟩
        exact ⟨c :: line, .step (congrArg some hp) hline⟩

theorem exists_ancestry (h : g.hasCycle c = false) (hempty : c ≠ []) (hnone : c ≠ Name.noClass) :
    ∃ line, g.Ancestry c line := by
  unfold hasCycle at h
  rw [start?_eq_some hempty hnone] at h
  exact exists_ancestry_of_returns h (Nat.zero_add _) nodup_nil (nil_subset _)

theorem returns_eq_false (h : g.Ancestry c line) (steps : Nat) {seen : List Name}
    (hseen : ∀ x ∈ line, x ∉ seen) : g.returns steps seen (some c) = false := by
  induction h generalizing steps seen with
  | @root x hp =>
    cases steps with
    | zero => rfl
    | succ steps =>
      rw [returns, if_neg (hseen x mem_cons_self), Option.some.inj hp]
      cases steps <;> rfl
  | @step x parent line hp hline ih =>
    cases steps with
    | zero => rfl
    | succ steps =>
      have hfresh : x ∉ line := (nodup_cons.mp (Climb.step hp hline).nodup).1
      rw [returns, if_neg (hseen x mem_cons_self), Option.some.inj hp]
      refine ih steps ?_
      intro y hy
      rw [mem_cons]
      rintro (rfl | hmem)
      · exact hfresh hy
      · exact hseen y (mem_cons_of_mem x hy) hmem

theorem hasCycle_eq_false (h : g.Ancestry c line) (hempty : c ≠ []) (hnone : c ≠ Name.noClass) :
    g.hasCycle c = false := by
  unfold hasCycle
  rw [start?_eq_some hempty hnone]
  exact returns_eq_false h _ (fun _ _ => not_mem_nil)

end CoolCompiler.Inheritance
