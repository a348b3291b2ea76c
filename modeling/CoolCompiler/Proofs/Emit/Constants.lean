import CoolCompiler.Emit.Constants
import CoolCompiler.Emit.Sequences

/-!
# Constants that have numbers

A value has a number exactly if it was added.  Collecting the constants of a class table gives one
to each of them and to the length of each string.
-/

namespace CoolCompiler

open List Literal

namespace Numbering

variable {α : Type} [DecidableEq α]

variable {t : Numbering α} {v : α} {i : Nat}

theorem find?_isSome_iff : (t.find? v).isSome = true ↔ v ∈ t.values := by
  rw [find?, Option.isSome_map, values, mem_map]
  constructor
  · intro h
    obtain ⟨e, he⟩ := Option.isSome_iff_exists.mp h
    exact ⟨e, t.indexed v e he⟩
  · rintro ⟨e, he, rfl⟩
    exact t.complete e he

theorem mem_entries_of_find? (h : t.find? v = some i) : ⟨i, v⟩ ∈ t.entries := by
  obtain ⟨e, he, rfl⟩ := Option.map_eq_some_iff.mp h
  obtain ⟨hmem, rfl⟩ := t.indexed v e he
  exact hmem

theorem getElem?_id {e : Entry α} (he : e ∈ t.entries) : t.entries[e.id]? = some e := by
  obtain ⟨k, hk⟩ := getElem?_of_mem he
  have hid := congrArg (fun l => l[k]?) t.ids
  simp only [getElem?_map, hk, Option.map_some] at hid
  rw [getElem?_range (List.getElem?_eq_some_iff.mp hk).1] at hid
  rw [Option.some.inj hid, hk]

theorem getElem?_of_find? (h : t.find? v = some i) : t.values[i]? = some v := by
  rw [values, getElem?_map, getElem?_id (mem_entries_of_find? h)]
  rfl

theorem lt_size (h : t.find? v = some i) : i < t.size :=
  (List.getElem?_eq_some_iff.mp (getElem?_id (mem_entries_of_find? h))).1

theorem map_id {β : Type} (t : Numbering α) (f : Nat → β) :
    t.entries.map (fun e => f e.id) = (List.range' 0 t.size).map f := by
  rw [size, ← range_eq_range', ← t.ids, map_map]
  rfl

theorem mem_intern_iff {x : α} : x ∈ (t.intern v).2.values ↔ x ∈ t.values ∨ x = v := by
  unfold intern
  cases hfind : t.find? v with
  | some i =>
    have hmem : v ∈ t.values := find?_isSome_iff.mp (by simp [hfind])
    constructor
    · exact .inl
    · rintro (h | rfl)
      · exact h
      · exact hmem
  | none => simp [values, add]

end Numbering

def Literal.address (p : Pool) : Literal → Address
  | .int n => ⟨Emit.intLabel ((p.ints.find? n).getD 0), 0⟩
  | .string s => ⟨Emit.stringLabel ((p.strings.find? s).getD 0), 0⟩

def Literal.Interned (p : Pool) : Literal → Prop
  | .int n => (p.ints.find? n).isSome = true
  | .string s => (p.strings.find? s).isSome = true

namespace Pool

/-- The length of each string, to which its object refers, has a number. -/
def LengthsInterned (p : Pool) : Prop :=
  ∀ s ∈ p.strings.values, Interned p (.int s.length)

theorem interned_internLiteral_iff {p : Pool} {l l' : Literal} :
    Interned (p.internLiteral l) l' ↔
      l'.Interned p ∨ l' = l ∨ ∃ s, l = .string s ∧ l' = .int s.length := by
  cases l <;> cases l' <;>
    simp [Interned, internLiteral, internInt, internString,
      Numbering.find?_isSome_iff, Numbering.mem_intern_iff]

theorem lengthsInterned_internLiteral {p : Pool} (h : p.LengthsInterned) (l : Literal) :
    (p.internLiteral l).LengthsInterned := by
  intro s hs
  rw [interned_internLiteral_iff]
  have hstring : Interned (p.internLiteral l) (.string s) :=
    Numbering.find?_isSome_iff.mpr hs
  rw [interned_internLiteral_iff] at hstring
  rcases hstring with hold | rfl | ⟨_, _, hcontra⟩
  · exact .inl (h s (Numbering.find?_isSome_iff.mp hold))
  · exact .inr (.inr ⟨s, rfl, rfl⟩)
  · cases hcontra

theorem interned_foldl {p : Pool} {ls : List Literal} {l : Literal}
    (h : l.Interned p ∨ l ∈ ls) : l.Interned (ls.foldl internLiteral p) := by
  induction ls generalizing p with
  | nil => simpa using h
  | cons first rest ih =>
    refine ih ?_
    rcases h with hold | hmem
    · exact .inl (interned_internLiteral_iff.mpr (.inl hold))
    · rcases mem_cons.mp hmem with rfl | hmem
      · exact .inl (interned_internLiteral_iff.mpr (.inr (.inl rfl)))
      · exact .inr hmem

theorem lengthsInterned_foldl {p : Pool} (h : p.LengthsInterned) (ls : List Literal) :
    (ls.foldl internLiteral p).LengthsInterned := by
  induction ls generalizing p with
  | nil => exact h
  | cons first rest ih => exact ih (lengthsInterned_internLiteral h first)

theorem interned_collect (p : Pool) {t : ClassTable} {l : Literal} (h : l ∈ constantsOf t) :
    l.Interned (p.collect t) := interned_foldl (.inr h)

section Collected

variable (p : Pool) {t : ClassTable} {n : ClassNode}

theorem zero_interned : Interned (p.collect t) (.int 0) :=
  interned_collect p (by simp [constantsOf])

theorem empty_interned : Interned (p.collect t) (.string []) :=
  interned_collect p (by simp [constantsOf])

theorem name_interned (hn : n ∈ t.nodes) : Interned (p.collect t) (.string n.name) := by
  apply interned_collect
  rw [constantsOf]
  exact mem_append_left _ (mem_append_right _ (mem_map.mpr ⟨n, hn, rfl⟩))

theorem interned_of_class (hn : n ∈ t.nodes) (huser : n.isBasic = false) {l : Literal}
    (hl : l ∈ constantsOfClass n.decl) : l.Interned (p.collect t) := by
  apply interned_collect
  rw [constantsOf, mem_append]
  exact .inr (mem_flatMap.mpr ⟨n, mem_filter.mpr ⟨hn, by simp [huser]⟩, hl⟩)

theorem file_interned (hn : n ∈ t.nodes) (huser : n.isBasic = false) :
    Interned (p.collect t) (.string n.decl.file) :=
  interned_of_class p hn huser mem_cons_self

theorem literal_interned (hn : n ∈ t.nodes) (huser : n.isBasic = false) {f : Feature}
    (hf : f ∈ n.decl.features) {l : Literal} (hl : l ∈ f.expr.literals) :
    l.Interned (p.collect t) :=
  interned_of_class p hn huser (mem_cons_of_mem _ (mem_flatMap.mpr ⟨f, hf, hl⟩))

end Collected

theorem lengthsInterned_empty : Pool.empty.LengthsInterned := by
  intro s hs
  cases hs

theorem lengthsInterned_collect {p : Pool} (h : p.LengthsInterned) (t : ClassTable) :
    (p.collect t).LengthsInterned := lengthsInterned_foldl h (constantsOf t)

end Pool

end CoolCompiler
