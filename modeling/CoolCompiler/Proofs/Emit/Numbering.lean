import CoolCompiler.Proofs.Emit.Constants
import Mathlib.Data.List.Nodup

/-!
# Numbers of constants

A pool numbers values in the order in which they come up first.  A value has one number, which
stays.
-/

namespace CoolCompiler

open List

namespace Numbering

variable {α : Type} [DecidableEq α] {t : Numbering α} {v : α} {i : Nat} {added : List α}

/-- A numbering of the values that were added.  What the index finds are the entries, whose
numbers are their places. -/
structure Numbers (t : Numbering α) (added : List α) : Prop where
  inOrder : t.values = added.eraseDups
  distinct : t.values.Nodup
  agrees : ∀ v e, t.index.lookup v = some e ↔ e ∈ t.entries ∧ e.value = v
  places : ∀ e ∈ t.entries, t.entries[e.id]? = some e
  found : ∀ v i, t.find? v = some i ↔ t.values[i]? = some v
  known : ∀ v, t.has v = true ↔ v ∈ added

@[simp] theorem values_add (t : Numbering α) (v : α) : (t.add v).values = t.values ++ [v] := by
  simp [values, add]

theorem lookup_eq_some_iff (h : t.values.Nodup) {e : Entry α} :
    t.index.lookup v = some e ↔ e ∈ t.entries ∧ e.value = v := by
  refine ⟨t.indexed v e, ?_⟩
  rintro ⟨he, rfl⟩
  obtain ⟨e', hfound⟩ := Option.isSome_iff_exists.mp (t.complete e he)
  obtain ⟨he', hvalue⟩ := t.indexed _ e' hfound
  rw [hfound, inj_on_of_nodup_map h he' he hvalue]

theorem find?_eq_some_iff (h : t.values.Nodup) :
    t.find? v = some i ↔ t.values[i]? = some v := by
  refine ⟨getElem?_of_find?, fun hi => ?_⟩
  have hmem : (t.find? v).isSome = true := find?_isSome_iff.mpr (mem_of_getElem? hi)
  obtain ⟨j, hj⟩ := Option.isSome_iff_exists.mp hmem
  obtain ⟨hlt, _⟩ := List.getElem?_eq_some_iff.mp hi
  rw [hj, (getElem?_inj hlt h).mp (hi.trans (getElem?_of_find? hj).symm)]

theorem Numbers.of_values (hvalues : t.values = added.eraseDups) (hnodup : t.values.Nodup) :
    t.Numbers added := by
  refine ⟨hvalues, hnodup, fun v e => lookup_eq_some_iff hnodup, fun e he => getElem?_id he,
    fun v i => find?_eq_some_iff hnodup, fun v => ?_⟩
  rw [has, find?_isSome_iff, hvalues, mem_eraseDups]

theorem find?_intern (t : Numbering α) (v : α) :
    (t.intern v).2.find? v = some (t.intern v).1 := by
  unfold intern
  cases hfind : t.find? v with
  | some i => exact hfind
  | none => simp [find?, add]

theorem intern_of_find? (h : t.find? v = some i) : t.intern v = (i, t) := by
  rw [intern, h]

theorem values_isPrefix_intern (t : Numbering α) (v : α) : t.values <+: (t.intern v).2.values := by
  unfold intern
  cases t.find? v with
  | some i => exact prefix_refl _
  | none =>
    rw [values_add]
    exact prefix_append _ _

theorem Numbers.intern (h : t.Numbers added) (v : α) : (t.intern v).2.Numbers (added ++ [v]) := by
  unfold Numbering.intern
  cases hfind : t.find? v with
  | some i =>
    have hmem : v ∈ added := (h.known v).mp (by rw [has, hfind]; rfl)
    refine .of_values ?_ h.distinct
    rw [eraseDups_append, ← h.inOrder]
    simp [List.removeAll, hmem]
  | none =>
    have hnew : v ∉ added := fun hmem => by
      have hhas := (h.known v).mpr hmem
      rw [has, hfind] at hhas
      cases hhas
    refine .of_values ?_ ?_
    · rw [values_add, eraseDups_append, ← h.inOrder]
      simp [List.removeAll, hnew]
      rfl
    · rw [values_add, h.inOrder, nodup_append]
      refine ⟨h.inOrder ▸ h.distinct, pairwise_singleton _ v, fun a ha b hb => ?_⟩
      rw [mem_singleton.mp hb]
      exact fun heq => hnew (heq ▸ mem_eraseDups.mp ha)

theorem numbers_empty : (empty : Numbering α).Numbers [] := .of_values rfl nodup_nil

end Numbering

namespace Literal

def strings : Literal → List Text
  | .int _ => []
  | .string s => [s]

def ints : Literal → List Int
  | .int n => [n]
  | .string s => [s.length]

end Literal

namespace Pool

structure Holds (p : Pool) (added : List Literal) : Prop where
  strings : p.strings.Numbers (added.flatMap Literal.strings)
  ints : p.ints.Numbers (added.flatMap Literal.ints)
  lengths : p.LengthsInterned

theorem Holds.internLiteral {p : Pool} {added : List Literal} (h : p.Holds added) (l : Literal) :
    (p.internLiteral l).Holds (added ++ [l]) := by
  have hlengths := lengthsInterned_internLiteral h.lengths l
  cases l with
  | int n =>
    refine ⟨?_, ?_, hlengths⟩
    · simpa [Literal.strings, Pool.internLiteral, internInt] using h.strings
    · simpa [Literal.ints, Pool.internLiteral, internInt] using h.ints.intern n
  | string s =>
    refine ⟨?_, ?_, hlengths⟩
    · simpa [Literal.strings, Pool.internLiteral, internString] using h.strings.intern s
    · simpa [Literal.ints, Pool.internLiteral, internString] using h.ints.intern s.length

theorem Holds.foldl {p : Pool} {added : List Literal} (h : p.Holds added) (more : List Literal) :
    (more.foldl Pool.internLiteral p).Holds (added ++ more) := by
  induction more generalizing p added with
  | nil => simpa using h
  | cons l more ih => simpa using ih (h.internLiteral l)

theorem internString_of_find? {p : Pool} (h : p.LengthsInterned) {s : Text} {i : Nat}
    (hs : p.strings.find? s = some i) : p.internString s = (i, p) := by
  have hlength := h s (Numbering.find?_isSome_iff.mp (by rw [hs]; rfl))
  obtain ⟨j, hj⟩ := Option.isSome_iff_exists.mp hlength
  rw [internString, Numbering.intern_of_find? hj, Numbering.intern_of_find? hs]

theorem values_isPrefix_foldl (p : Pool) (more : List Literal) :
    p.strings.values <+: (more.foldl internLiteral p).strings.values ∧
      p.ints.values <+: (more.foldl internLiteral p).ints.values := by
  induction more generalizing p with
  | nil => exact ⟨prefix_refl _, prefix_refl _⟩
  | cons l more ih =>
    obtain ⟨hstrings, hints⟩ := ih (p.internLiteral l)
    cases l with
    | int n => exact ⟨hstrings, (p.ints.values_isPrefix_intern n).trans hints⟩
    | string s =>
      exact ⟨(p.strings.values_isPrefix_intern s).trans hstrings,
        (p.ints.values_isPrefix_intern s.length).trans hints⟩

/-- Whatever literals are added to a new pool, strings and integers are numbered in the order in
which they come up first, the length of each string among the integers.  Adding a value gives it
a number under which it is found, and adding it again changes nothing.  What is added later
leaves every number with its value. -/
theorem numbers_constants (added more : List Literal) :
    let p := added.foldl internLiteral empty
    p.Holds added ∧
      (∀ s, (p.internString s).2.strings.find? s = some (p.internString s).1) ∧
      (∀ n, (p.internInt n).2.ints.find? n = some (p.internInt n).1) ∧
      (∀ s i, p.strings.find? s = some i → p.internString s = (i, p)) ∧
      (∀ n i, p.ints.find? n = some i → p.internInt n = (i, p)) ∧
      p.strings.values <+: (more.foldl internLiteral p).strings.values ∧
      p.ints.values <+: (more.foldl internLiteral p).ints.values := by
  intro p
  have hempty : empty.Holds [] :=
    ⟨Numbering.numbers_empty, Numbering.numbers_empty, lengthsInterned_empty⟩
  have hp : p.Holds added := hempty.foldl added
  refine ⟨hp, fun s => Numbering.find?_intern _ s, fun n => Numbering.find?_intern _ n,
    fun s i => internString_of_find? hp.lengths, fun n i hn => ?_, values_isPrefix_foldl p more⟩
  rw [internInt, Numbering.intern_of_find? hn]

end Pool

end CoolCompiler
