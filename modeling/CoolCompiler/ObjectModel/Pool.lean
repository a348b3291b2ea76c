import CoolCompiler.Text.Basic

/-!
# Constants

Constants are numbered in the order in which they are first used.  A number never changes, and a
value has one number.
-/

namespace CoolCompiler

/-- A value and its number. -/
structure Entry (α : Type) where
  id : Nat
  value : α

/-- Values with their numbers, in the order in which they were added, and the index by which they
are found. -/
structure Numbering (α : Type) [DecidableEq α] where
  entries : List (Entry α)
  index : List (α × Entry α)
  ids : entries.map Entry.id = List.range entries.length
  indexed : ∀ v e, index.lookup v = some e → e ∈ entries ∧ e.value = v
  complete : ∀ e ∈ entries, (index.lookup e.value).isSome = true

namespace Numbering

variable {α : Type} [DecidableEq α]

def empty : Numbering α := ⟨[], [], rfl, by simp, by simp⟩

def size (t : Numbering α) : Nat := t.entries.length

def values (t : Numbering α) : List α := t.entries.map Entry.value

def find? (t : Numbering α) (v : α) : Option Nat := (t.index.lookup v).map Entry.id

def has (t : Numbering α) (v : α) : Bool := (t.find? v).isSome

def add (t : Numbering α) (v : α) : Numbering α where
  entries := t.entries ++ [⟨t.size, v⟩]
  index := (v, ⟨t.size, v⟩) :: t.index
  ids := by simp [t.ids, size, List.range_succ]
  indexed := by
    intro w e hfound
    rw [List.lookup_cons] at hfound
    split at hfound
    · rename_i heq
      cases hfound
      exact ⟨by simp, (beq_iff_eq.mp heq).symm⟩
    · have hold := t.indexed w e hfound
      exact ⟨List.mem_append_left _ hold.1, hold.2⟩
  complete := by
    intro e he
    rw [List.lookup_cons]
    split
    · rfl
    · rename_i hne
      rcases List.mem_append.mp he with hold | hnew
      · exact t.complete e hold
      · simp [List.mem_singleton.mp hnew] at hne

/-- The number of a value, which is added if it has none yet. -/
def intern (t : Numbering α) (v : α) : Nat × Numbering α :=
  match t.find? v with
  | some i => (i, t)
  | none => (t.size, t.add v)

end Numbering

structure Pool where
  strings : Numbering Text
  ints : Numbering Int

namespace Pool

def empty : Pool := ⟨Numbering.empty, Numbering.empty⟩

def internInt (p : Pool) (n : Int) : Nat × Pool :=
  let (i, ints) := p.ints.intern n
  (i, { p with ints := ints })

/-- Adds a string and, before it, its length, which its object refers to. -/
def internString (p : Pool) (s : Text) : Nat × Pool :=
  let (_, ints) := p.ints.intern s.length
  let (i, strings) := p.strings.intern s
  (i, ⟨strings, ints⟩)

def shown (i : Nat) (value : Text) : Text :=
  "#" ++ Text.decimal i ++ "(" ++ value ++ ")"

end Pool

end CoolCompiler
