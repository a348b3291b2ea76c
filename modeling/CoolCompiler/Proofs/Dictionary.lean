import Mathlib.Data.List.Nodup
import CoolCompiler.Dictionary

/-!
# Laws of dictionaries

Looking up after putting, and looking up by a key that no two members of a list share.
-/

namespace CoolCompiler

open List

theorem find?_key_eq {α : Type} {key : α → Name} {l : List α} (hnodup : (l.map key).Nodup) {x : α}
    (hx : x ∈ l) : l.find? (fun y => key y == key x) = some x := by
  cases hfind : l.find? (fun y => key y == key x) with
  | none =>
    have hno := find?_eq_none.mp hfind x hx
    simp at hno
  | some y =>
    have hkey : key y = key x := by simpa using find?_some hfind
    rw [inj_on_of_nodup_map hnodup (mem_of_find?_eq_some hfind) hx hkey]

namespace Dictionary

variable {α : Type}

@[simp] theorem find?_nil (x : Name) : find? ([] : Dictionary α) x = none := rfl

theorem find?_cons (key : Name) (value : α) (rest : Dictionary α) (x : Name) :
    find? ((key, value) :: rest) x = if x = key then some value else find? rest x := by
  unfold find?
  by_cases hx : x = key
  · simp [hx]
  · have hbeq : (x == key) = false := beq_eq_false_iff_ne.mpr hx
    simp [lookup_cons, hx, hbeq]

theorem find?_put (d : Dictionary α) (key : Name) (value : α) (x : Name) :
    (d.put key value).find? x = if x = key then some value else d.find? x := by
  induction d with
  | nil => exact find?_cons key value [] x
  | cons entry rest ih =>
    obtain ⟨name, old⟩ := entry
    unfold put
    by_cases hkey : name = key
    · subst hkey
      simp only [if_true, find?_cons]
      split <;> rfl
    · simp only [hkey, if_false, find?_cons, ih]
      by_cases hx : x = name
      · have hne : ¬ x = key := fun h => hkey (hx ▸ h)
        simp only [hx, if_true]
        rw [if_neg (hx ▸ hne)]
      · simp only [hx, if_false]

theorem has_put (d : Dictionary α) (key : Name) (value : α) (x : Name) :
    (d.put key value).has x = (decide (x = key) || d.has x) := by
  unfold has
  rw [find?_put]
  by_cases hx : x = key <;> simp [hx]

variable {d : Dictionary α} {x : Name}

theorem has_eq_true_iff :
    d.has x = true ↔ ∃ value, d.find? x = some value := Option.isSome_iff_exists

theorem has_iff_mem_keys : d.has x = true ↔ x ∈ d.map Prod.fst := by
  induction d with
  | nil => simp [has]
  | cons entry rest ih =>
    obtain ⟨name, old⟩ := entry
    unfold has at ih ⊢
    rw [find?_cons, map_cons, mem_cons, ← ih]
    by_cases hx : x = name <;> simp [hx]

theorem mem_keys_of_find? {value : α} (h : d.find? x = some value) : x ∈ d.map Prod.fst :=
  has_iff_mem_keys.mp (has_eq_true_iff.mpr ⟨value, h⟩)

/-!
# Putting many values
-/

section Many

variable {β : Type} (key : β → Name) (value : β → α)

theorem has_foldl_put (d : Dictionary α) (l : List β) (x : Name) :
    (l.foldl (fun d b => d.put (key b) (value b)) d).has x = true ↔
      d.has x = true ∨ ∃ b ∈ l, key b = x := by
  induction l generalizing d with
  | nil => simp
  | cons b l ih =>
    rw [foldl_cons, ih, has_put, Bool.or_eq_true, decide_eq_true_eq]
    simp only [mem_cons, exists_eq_or_imp, eq_comm (a := x)]
    rw [or_comm (b := d.has x = true), or_assoc]

theorem find?_foldl_put_of_not_mem (d : Dictionary α) {l : List β} {x : Name}
    (hx : ∀ b ∈ l, key b ≠ x) :
    (l.foldl (fun d b => d.put (key b) (value b)) d).find? x = d.find? x := by
  induction l generalizing d with
  | nil => rfl
  | cons b l ih =>
    rw [foldl_cons, ih _ (fun b' hb' => hx b' (mem_cons_of_mem b hb')), find?_put,
      if_neg (hx b mem_cons_self).symm]

theorem find?_foldl_put (d : Dictionary α) {l : List β} (hnodup : (l.map key).Nodup) {b : β}
    (hb : b ∈ l) :
    (l.foldl (fun d b => d.put (key b) (value b)) d).find? (key b) = some (value b) := by
  induction l generalizing d with
  | nil => cases hb
  | cons first l ih =>
    rw [map_cons, nodup_cons] at hnodup
    rcases mem_cons.mp hb with rfl | hb
    · rw [foldl_cons, find?_foldl_put_of_not_mem, find?_put, if_pos rfl]
      intro b' hb' hkey
      exact hnodup.1 (hkey ▸ mem_map_of_mem hb')
    · exact ih _ hnodup.2 hb

end Many

structure Free {β : Type} (d : Dictionary α) (key : β → Name) (l : List β) : Prop where
  distinct : (l.map key).Nodup
  fresh : ∀ b ∈ l, d.has (key b) = false

theorem Free.cons {β : Type} {key : β → Name} {b : β} {value : α} {l : List β}
    (hb : d.has (key b) = false) (h : (d.put (key b) value).Free key l) : d.Free key (b :: l) := by
  have hlater : ∀ c ∈ l, key c ≠ key b ∧ d.has (key c) = false := by
    intro c hc
    have hfresh := h.fresh c hc
    rwa [has_put, Bool.or_eq_false_iff, decide_eq_false_iff_not] at hfresh
  refine ⟨?_, forall_mem_cons.mpr ⟨hb, fun c hc => (hlater c hc).2⟩⟩
  rw [map_cons, nodup_cons]
  refine ⟨fun hmem => ?_, h.distinct⟩
  obtain ⟨c, hc, hkey⟩ := mem_map.mp hmem
  exact (hlater c hc).1 hkey

end Dictionary
end CoolCompiler
