import CoolCompiler.Proofs.Emit.Constants
import CoolCompiler.Proofs.Emit.Written
import CoolCompiler.Proofs.Machine.Data
import CoolCompiler.Proofs.Value.Storage

/-!
# Constants in memory

Where the constants and prototypes of a program are in memory as written, code finds the objects
that it refers to.
-/

namespace CoolCompiler

open List

namespace Emit

variable {σ : Type} {sc : Scene} {s s' : σ} {ls : List Line} {u : Unit}

/-- The object of a string, which refers to that of its length. -/
def stringRow (sc : Scene) (n : ClassNode) (e : Entry Text) : List Line :=
  stringObject n e ((Literal.int e.value.length).address sc.pool)

theorem yields_stringObjects {n : ClassNode} {es : List (Entry Text)}
    (h : Yields (stringObjects sc n es) s ls u s') :
    ls = es.flatMap (stringRow sc n) ∧
      ∀ e ∈ es, (Literal.int e.value.length).Interned sc.pool := by
  induction es generalizing s ls with
  | nil =>
    obtain ⟨rfl, _, _⟩ := yields_done.mp h
    simp
  | cons e es ih =>
    rw [stringObjects] at h
    obtain ⟨_, length, _, _, hlength, hwritten, rfl⟩ := yields_bind.mp h
    obtain ⟨j, hj, rfl, rfl, rfl⟩ := yields_intConst.mp hlength
    obtain ⟨rest, hrest, rfl⟩ := yields_lines_bind.mp hwritten
    obtain ⟨rfl, hall⟩ := ih hrest
    refine ⟨by simp [stringRow, Literal.address, hj], forall_mem_cons.mpr ⟨?_, hall⟩⟩
    rw [Literal.Interned, hj]
    rfl

theorem yields_constants (h : Yields (constants sc) s ls u s') :
    ∃ string int bool, sc.table.find? Name.string = some string ∧
      sc.table.find? Name.int = some int ∧ sc.table.find? Name.bool = some bool ∧
      (∀ e ∈ sc.pool.strings.entries, (Literal.int e.value.length).Interned sc.pool) ∧
      ls = sc.pool.strings.entries.flatMap (stringRow sc string) ++
        (sc.pool.ints.entries.flatMap (fun e => intObject int e.id e.value) ++
          (boolObject bool false ++ boolObject bool true)) := by
  rw [constants] at h
  obtain ⟨_, string, _, _, hstring, hstrings, rfl⟩ := yields_bind.mp h
  obtain ⟨hstringNode, rfl, rfl⟩ := yields_basicClass.mp hstring
  obtain ⟨strings, _, _, _, hwritten, hints, rfl⟩ := yields_bind.mp hstrings
  obtain ⟨rfl, hlengths⟩ := yields_stringObjects hwritten
  obtain ⟨_, int, _, _, hint, hlines, rfl⟩ := yields_bind.mp hints
  obtain ⟨hintNode, rfl, rfl⟩ := yields_basicClass.mp hint
  obtain ⟨_, hbools, rfl⟩ := yields_lines_bind.mp hlines
  obtain ⟨_, bool, _, _, hbool, hlast, rfl⟩ := yields_bind.mp hbools
  obtain ⟨hboolNode, rfl, rfl⟩ := yields_basicClass.mp hbool
  obtain ⟨rfl, rfl⟩ := yields_lines.mp hlast
  exact ⟨string, int, bool, hstringNode, hintNode, hboolNode, hlengths, rfl⟩

theorem yields_prototypes (h : Yields (prototypes sc) s ls u s') :
    ∃ k, sc.pool.ints.find? 0 = some k ∧
      ls = sc.table.nodes.flatMap (prototype ⟨intLabel k, 0⟩) := by
  rw [prototypes] at h
  obtain ⟨_, zero, _, _, hzero, hlines, rfl⟩ := yields_bind.mp h
  obtain ⟨k, hk, rfl, rfl, rfl⟩ := yields_intConst.mp hzero
  obtain ⟨rfl, rfl⟩ := yields_lines.mp hlines
  exact ⟨k, hk, rfl⟩

theorem listed_of_find? {α : Type} [DecidableEq α] {t : Numbering α} {v : α} {k : Nat}
    (h : t.find? v = some k) (f : Entry α → List Line) : f ⟨k, v⟩ <:+: t.entries.flatMap f :=
  infix_of_mem_flatten (mem_map_of_mem (Numbering.mem_entries_of_find? h))

end Emit

namespace Machine
namespace Storage

open Emit

/-!
# Data in live memory
-/

/-- Data lines that lie in memory from an address on, all of it live and not at the address of void.
-/
structure Loaded (f : Storage) (M : Memory) (p : Word) (ls : List Line) : Prop where
  laid : Laid f.image.value M p ls
  live : ∀ k, k < extent ls → f.keep (p + BitVec.ofNat 16 k)
  ne_zero : ∀ k, k < extent ls → p + BitVec.ofNat 16 k ≠ 0#16

variable {f : Storage} {M : Memory} {p : Word} {ls ls' : List Line}

namespace Loaded

theorem iff_lies : f.Loaded M p ls ↔
    Lies f.image.value (fun a => f.keep a ∧ a ≠ 0#16) M p ls := by
  constructor
  · intro h
    exact ⟨h.laid, fun k hk => ⟨h.live k hk, h.ne_zero k hk⟩⟩
  · intro h
    exact ⟨h.laid, fun k hk => (h.holds k hk).1, fun k hk => (h.holds k hk).2⟩

theorem append (h : f.Loaded M p (ls ++ ls')) :
    f.Loaded M p ls ∧ f.Loaded M (p + BitVec.ofNat 16 (extent ls)) ls' := by
  have hparts := (iff_lies.mp h).append
  exact ⟨iff_lies.mpr hparts.1, iff_lies.mpr hparts.2⟩

theorem of_infix (h : f.Loaded M p ls) (hwithin : ls' <:+: ls) : ∃ q, f.Loaded M q ls' := by
  obtain ⟨q, hq⟩ := (iff_lies.mp h).part hwithin
  exact ⟨q, iff_lies.mpr hq⟩

variable {n : ClassNode} {contents : List Line} {label : Name}

theorem object {size : Nat} (h : f.Loaded M p (staticObject label n size contents)) :
    f.Loaded M (f.image.value label)
      ([.number n.tag, .number size, .word ⟨n.dispatchLabel, 0⟩] ++ contents) := by
  have hsplit : f.Loaded M p ([.number eyeCatcher, .label label] ++
      ([.number n.tag, .number size, .word ⟨n.dispatchLabel, 0⟩] ++ contents)) := h
  have hlabel : f.image.value label = p + 2#16 := hsplit.append.1.laid.2.1
  rw [hlabel]
  exact hsplit.append.2

theorem lt_extent_object (n : ClassNode) (size : Nat) (contents : List Line) {k : Nat}
    (hk : k < 6) :
    k < extent ([.number n.tag, .number size, .word ⟨n.dispatchLabel, 0⟩] ++ contents) := by
  rw [extent_append]
  exact Nat.lt_of_lt_of_le hk (Nat.le_add_right 6 _)

theorem label_ne_zero {size : Nat} (h : f.Loaded M p (staticObject label n size contents)) :
    f.image.value label ≠ 0#16 := by
  have hzero := h.object.ne_zero 0 (lt_extent_object n size contents (by decide))
  rwa [BitVec.add_zero] at hzero

theorem header (h : f.Loaded M p (staticObject label n n.objectSize contents)) :
    f.Header M n (f.image.value label) := by
  obtain ⟨htag, hsize, hdispatch, _⟩ := h.object.laid
  constructor
  · exact htag
  · exact hsize
  · rw [BitVec.add_assoc] at hdispatch
    exact hdispatch.trans (BitVec.add_zero _)

theorem constant {c : Name} {v : Int}
    (h : f.Loaded M p (staticObject label n n.objectSize [.number v]))
    (hn : f.scene.table.find? c = some n) :
    f.Constant M c (BitVec.ofInt 16 v) (f.image.value label) := by
  refine ⟨h.label_ne_zero, ⟨⟨n, hn, h.header⟩, ?_⟩, ?_⟩
  · exact h.object.append.2.laid.1
  · intro a ha
    have hlive := h.object.live (a - f.image.value label).toNat ha
    rwa [BitVec.ofNat_toNat, BitVec.setWidth_eq, BitVec.add_comm, BitVec.sub_add_cancel] at hlive

end Loaded

variable {σ : Type} {s s' : σ} {u : Unit}

theorem static_of_loaded
    (h : Yields (do constants f.scene; prototypes f.scene) s ls u s') (hloaded : f.Loaded M p ls) :
    f.Static M := by
  obtain ⟨first, _, _, second, hconstants, hprototypes, rfl⟩ := yields_bind.mp h
  rcases yields_constants hconstants with
    ⟨string, int, bool, -, hint, hbool, -, rfl⟩
  obtain ⟨k, -, rfl⟩ := yields_prototypes hprototypes
  obtain ⟨hfirst, hsecond⟩ := hloaded.append
  obtain ⟨hstringData, hrest⟩ := hfirst.append
  obtain ⟨hintData, hboolData⟩ := hrest.append
  constructor
  · intro n k hk
    obtain ⟨q, hq⟩ := hintData.of_infix (listed_of_find? hk _)
    exact hq.constant hint
  · intro b
    cases b with
    | false => exact hboolData.append.1.constant hbool
    | true => exact hboolData.append.2.constant hbool
  · intro text k hk
    obtain ⟨q, hq⟩ := hstringData.of_infix (listed_of_find? hk _)
    exact hq.label_ne_zero
  · intro n hn
    have hmem : n ∈ f.scene.table.nodes := mem_of_find?_eq_some hn
    have hname : n.name = Name.int := by
      simpa using find?_some hn
    have hwithin : prototype ⟨intLabel k, 0⟩ n <:+:
        f.scene.table.nodes.flatMap (prototype ⟨intLabel k, 0⟩) :=
      infix_of_mem_flatten (mem_map_of_mem hmem)
    obtain ⟨q, hq⟩ := hsecond.of_infix hwithin
    rw [prototype, if_neg (by rw [hname]; decide)] at hq
    exact ⟨hq.header, fun k hk => hq.object.live k (Loaded.lt_extent_object n _ _ hk)⟩

end Storage
end Machine
end CoolCompiler
