import Mathlib.Data.List.Perm.Subperm
import CoolCompiler.Proofs.Value.Storage

/-!
# A run-time library

With one more block of memory than there are words that may point at an object, one is always free.
-/

namespace CoolCompiler

open List

def firstFree (used : List Nat) : Nat :=
  ((List.range (used.length + 1)).find? fun i => decide (i ∉ used)).getD 0

theorem find?_firstFree (used : List Nat) :
    (List.range (used.length + 1)).find? (fun i => decide (i ∉ used)) = some (firstFree used) := by
  unfold firstFree
  cases hfind : (List.range (used.length + 1)).find? fun i => decide (i ∉ used) with
  | some i => rfl
  | none =>
    have hsub : List.range (used.length + 1) ⊆ used := by
      intro i hi
      have hused := find?_eq_none.mp hfind i hi
      rwa [decide_eq_true_iff, not_not] at hused
    have hnodup : (List.range (used.length + 1)).Nodup := nodup_range
    have hle := (hnodup.subperm hsub).length_le
    rw [length_range] at hle
    omega

theorem firstFree_not_mem (used : List Nat) : firstFree used ∉ used := by
  have hfree := find?_some (find?_firstFree used)
  rwa [decide_eq_true_iff] at hfree

theorem firstFree_le (used : List Nat) : firstFree used ≤ used.length :=
  Nat.lt_succ_iff.mp (mem_range.mp (mem_of_find?_eq_some (find?_firstFree used)))

namespace Machine

def blockAt (heap : Word) (i : Nat) : Word := heap + BitVec.ofNat 16 (16 * i)

def blockOf (heap p : Word) : Nat := (p - heap + 8#16).toNat / 16

theorem blockOf_eq {heap p a : Word} {i : Nat} (hi : i < 4096) (hp : InBlock p a)
    (ha : InBlock (blockAt heap i) a) : blockOf heap p = i := by
  unfold InBlock at hp ha
  unfold blockAt at ha
  unfold blockOf
  bv_omega

namespace Storage

def pointers (f : Storage) (M : Memory) : List Word :=
  f.slots.map (fun k => M.word (slotAt f.base k)) ++
    (List.range (f.room / 2)).map fun k => M.word (f.stackAt k)

def freeBlock (f : Storage) (heap : Word) (M : Memory) : Word :=
  blockAt heap (firstFree ((f.pointers M).map (blockOf heap)))

def copied (f : Storage) (heap : Word) (s : Cpu) : Cpu :=
  let p := f.freeBlock heap s.memory
  { s with
    hl := p
    memory := fun a => if (a - p).toNat < 8 then s.memory (s.hl + (a - p)) else s.memory a }

def copying (f : Storage) (heap : Word) : Storage :=
  { f with image := { f.image with library := fun _ s => some (f.copied heap s) } }

structure Roomy (f : Storage) (heap : Word) : Prop where
  few : f.slots.length + f.room / 2 < 4096
  apart : ∀ a, (a - heap).toNat < 16 * (f.slots.length + f.room / 2 + 1) →
    a ≠ 0#16 ∧ ¬ f.keep a ∧ ¬ f.InSlot a ∧ ¬ f.InStack a

variable {f : Storage} {heap : Word} {M : Memory} {d : Nat} {p a : Word}

theorem mem_pointers (hd : 2 * d ≤ f.room)
    (hp : f.OnStack d M p ∨ ∃ k ∈ f.slots, M.word (slotAt f.base k) = p) : p ∈ f.pointers M := by
  rw [pointers, mem_append, mem_map, mem_map]
  cases hp with
  | inl hstack =>
    obtain ⟨k, hk, hword⟩ := hstack
    exact .inr ⟨k, mem_range.mpr (by omega), hword⟩
  | inr hslot => exact .inl hslot

theorem length_pointers : (f.pointers M).length = f.slots.length + f.room / 2 := by
  simp only [pointers, length_append, length_map, length_range]

theorem Roomy.free (h : f.Roomy heap) (hd : 2 * d ≤ f.room)
    (ha : InBlock (f.freeBlock heap M) a) : a ≠ 0#16 ∧ ¬ f.Live d M a := by
  have hle := firstFree_le ((f.pointers M).map (blockOf heap))
  have hfew := h.few
  rw [length_map, length_pointers] at hle
  have hinside : (a - heap).toNat < 16 * (f.slots.length + f.room / 2 + 1) := by
    unfold InBlock freeBlock blockAt at ha
    bv_omega
  obtain ⟨hzero, hkeep, hslot, hstack⟩ := h.apart a hinside
  refine ⟨hzero, ?_⟩
  rintro (hlive | hlive | hlive | ⟨p, _, hp, hoverlap⟩)
  · exact hkeep hlive
  · exact hslot hlive
  · exact hstack hlive
  · have hnumber := blockOf_eq (by omega) hoverlap ha
    exact firstFree_not_mem _ (mem_map.mpr ⟨p, mem_pointers hd hp, hnumber⟩)

theorem Roomy.allocates (h : f.Roomy heap) : (f.copying heap).Allocates := by
  intro d s n _ _ _ _ hd
  have hself : InBlock (f.freeBlock heap s.memory) (f.freeBlock heap s.memory) := by
    unfold InBlock
    bv_omega
  refine ⟨_, rfl, ⟨rfl, rfl, rfl⟩, (h.free hd hself).1, fun a ha => (h.free hd ha).2, ?_, ?_⟩
  · intro k hk
    have hback : f.freeBlock heap s.memory + BitVec.ofNat 16 k - f.freeBlock heap s.memory =
        BitVec.ofNat 16 k := by
      bv_omega
    have hlt : (BitVec.ofNat 16 k).toNat < 8 := by
      bv_omega
    simp only [copied, hback, hlt, if_true]
  · intro a ha _
    exact if_neg ha

end Storage
end Machine
end CoolCompiler
