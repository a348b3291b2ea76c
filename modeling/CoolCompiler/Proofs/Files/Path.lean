import CoolCompiler.Files.Path
import CoolCompiler.Proofs.Text.Pieces
import Mathlib.Data.List.TakeWhile

/-!
# Clean paths

Cleaning keeps the components that tell paths apart, and a clean path is determined by them.  So
cleaning twice is cleaning once.
-/

namespace CoolCompiler.Path

open List Text

structure IsName (part : Text) : Prop where
  nonempty : part ≠ []
  not_here : part ≠ here
  not_up : part ≠ up

variable {parts : List Text} {part path : Text}

theorem step_of_isName (h : IsName part) (rooted : Bool) (walked : List Text) :
    step rooted walked part = part :: walked := by
  unfold step
  rw [if_neg (not_or.mpr ⟨h.nonempty, h.not_here⟩), if_neg h.not_up]

theorem step_nil (rooted : Bool) (walked : List Text) : step rooted walked [] = walked :=
  if_pos (.inl rfl)

/-!
# What a walk leaves

Last component first: below the names there are only steps up, and none of these from the root.
-/

inductive Settled (rooted : Bool) : List Text → Prop where
  | start : Settled rooted []
  | up {walked : List Text} (free : rooted = false) (all : ∀ part ∈ walked, part = Path.up)
      (rest : Settled rooted walked) : Settled rooted (Path.up :: walked)
  | name {part : Text} {walked : List Text} (name : IsName part) (rest : Settled rooted walked) :
      Settled rooted (part :: walked)

namespace Settled

variable {rooted : Bool} {walked : List Text}

theorem step (h : Settled rooted walked) (part : Text) :
    Settled rooted (Path.step rooted walked part) := by
  unfold Path.step
  split
  · exact h
  · next hplain =>
    split
    · next hup =>
      cases h with
      | start =>
        cases rooted with
        | true => exact .start
        | false => exact .up rfl (by simp) .start
      | up free all rest =>
        refine .up free ?_ (.up free all rest)
        intro part hpart
        rcases mem_cons.mp hpart with rfl | hpart
        · rfl
        · exact all part hpart
      | name hname rest =>
        simp only [if_neg hname.not_up]
        exact rest
    · next hup =>
      exact .name ⟨fun hnil => hplain (.inl hnil), fun hhere => hplain (.inr hhere), hup⟩ h

theorem foldl (h : Settled rooted walked) (parts : List Text) :
    Settled rooted (parts.foldl (Path.step rooted) walked) := by
  induction parts generalizing walked with
  | nil => exact h
  | cons part parts ih => exact ih (h.step part)

theorem foldl_reverse (h : Settled rooted walked) :
    walked.reverse.foldl (Path.step rooted) [] = walked := by
  induction h with
  | start => rfl
  | @up walked free all rest ih =>
    rw [reverse_cons, foldl_append, ih]
    cases walked with
    | nil => rw [free]; rfl
    | cons part walked =>
      rw [all part mem_cons_self]
      rfl
  | name hname rest ih =>
    rw [reverse_cons, foldl_append, ih]
    exact step_of_isName hname _ _

theorem mem (h : Settled rooted walked) {part : Text} (hpart : part ∈ walked) :
    part ≠ [] ∧ part ≠ here := by
  induction h with
  | start => cases hpart
  | up free all rest ih =>
    rcases mem_cons.mp hpart with rfl | hpart
    · exact ⟨by decide, by decide⟩
    · exact ih hpart
  | name hname rest ih =>
    rcases mem_cons.mp hpart with rfl | hpart
    · exact ⟨hname.nonempty, hname.not_here⟩
    · exact ih hpart

end Settled

theorem mem_foldl_step {rooted : Bool} {walked : List Text}
    (h : part ∈ parts.foldl (step rooted) walked) : part ∈ walked ∨ part ∈ parts := by
  induction parts generalizing walked with
  | nil => exact .inl h
  | cons next parts ih =>
    rcases ih h with hstep | hlater
    · have hnext : part ∈ walked ∨ part = next := by
        unfold step at hstep
        grind
      rcases hnext with hwalked | rfl
      · exact .inl hwalked
      · exact .inr mem_cons_self
    · exact .inr (mem_cons_of_mem next hlater)

/-!
# Essential components
-/

theorem settled_essential (path : Text) : Settled (isAbsolute path) (essential path).reverse := by
  rw [essential, reverse_reverse]
  exact Settled.start.foldl (components path)

theorem ne_nil_of_mem_essential (h : part ∈ essential path) : part ≠ [] :=
  ((settled_essential path).mem (mem_reverse.mpr h)).1

theorem slash_not_mem_of_mem_essential (h : part ∈ essential path) : slash ∉ part := by
  rw [essential, mem_reverse] at h
  rcases mem_foldl_step h with hnil | hpart
  · cases hnil
  · exact not_mem_of_mem_splitAt hpart

theorem isAbsolute_iff (path : Text) : isAbsolute path = true ↔ [] ∈ key path := by
  rw [key]
  split
  · next habsolute => simp [habsolute]
  · next hrelative =>
    refine ⟨fun habsolute => absurd habsolute hrelative, fun hmem => ?_⟩
    exact absurd rfl (ne_nil_of_mem_essential hmem)

theorem components_ofComponents (hne : parts ≠ []) (hfree : ∀ part ∈ parts, slash ∉ part) :
    components (ofComponents parts) = parts :=
  splitAt_join hne hfree

theorem components_clean (hne : essential path ≠ []) : components (clean path) = key path := by
  have hparts : components (ofComponents (essential path)) = essential path :=
    components_ofComponents hne fun _ => slash_not_mem_of_mem_essential
  rw [clean, key]
  split
  · rw [components, Text.splitAt, if_pos rfl]
    exact congrArg _ hparts
  · obtain ⟨part, parts, hcons⟩ := exists_cons_of_ne_nil hne
    rw [hcons] at hparts ⊢
    exact hparts

theorem head?_ofComponents (h : part ≠ []) (parts : List Text) :
    (ofComponents (part :: parts)).head? = part.head? := by
  obtain ⟨b, rest, rfl⟩ := exists_cons_of_ne_nil h
  cases parts <;> rfl

theorem head?_clean (path : Text) : ∃ b, (clean path).head? = some b ∧
    (b = slash ↔ isAbsolute path = true) := by
  rw [clean]
  split
  · next habsolute => exact ⟨slash, rfl, by simp [habsolute]⟩
  · next hrelative =>
    cases hessential : essential path with
    | nil => exact ⟨46, rfl, by simp [hrelative, slash]⟩
    | cons part rest =>
      have hmem : part ∈ essential path := by
        rw [hessential]
        exact mem_cons_self
      have hslash := slash_not_mem_of_mem_essential hmem
      have hhead := head?_ofComponents (ne_nil_of_mem_essential hmem) rest
      cases part with
      | nil => exact absurd rfl (ne_nil_of_mem_essential hmem)
      | cons b part =>
        refine ⟨b, hhead, fun hb => ?_, fun habsolute => absurd habsolute hrelative⟩
        exact absurd (hb ▸ mem_cons_self) hslash

theorem isAbsolute_clean (path : Text) : isAbsolute (clean path) = isAbsolute path := by
  obtain ⟨b, hhead, hslash⟩ := head?_clean path
  rw [Bool.eq_iff_iff, ← hslash, isAbsolute, hhead]
  simp

theorem essential_clean (path : Text) : essential (clean path) = essential path := by
  by_cases hne : essential path = []
  · rw [clean, hne]
    split <;> decide
  · have hwalk : ((essential path).foldl (step (isAbsolute path)) []).reverse = essential path := by
      have hsettled := (settled_essential path).foldl_reverse
      rw [reverse_reverse] at hsettled
      rw [hsettled, reverse_reverse]
    rw [essential, components_clean hne, isAbsolute_clean, key]
    split
    · rw [foldl_cons, step_nil]
      exact hwalk
    · exact hwalk

theorem key_clean (path : Text) : key (clean path) = key path := by
  rw [key, key, isAbsolute_clean, essential_clean]

theorem clean_eq_of_key_eq {other : Text} (h : key path = key other) :
    clean path = clean other := by
  have habsolute : isAbsolute path = isAbsolute other := by
    rw [Bool.eq_iff_iff, isAbsolute_iff, isAbsolute_iff, h]
  have hessential : essential path = essential other := by
    rw [key, key, habsolute] at h
    split at h
    · exact (List.cons.inj h).2
    · exact h
  rw [clean, clean, habsolute, hessential]

theorem clean_eq_clean_iff (path other : Text) :
    clean path = clean other ↔ key path = key other := by
  refine ⟨fun h => ?_, clean_eq_of_key_eq⟩
  rw [← key_clean path, h, key_clean]

theorem clean_clean (path : Text) : clean (clean path) = clean path :=
  clean_eq_of_key_eq (key_clean path)

theorem clean_ne_nil (path : Text) : clean path ≠ [] := by
  intro hnil
  obtain ⟨b, hhead, _⟩ := head?_clean path
  rw [hnil] at hhead
  cases hhead

theorem clean_join {base : Text} (h : base ≠ []) (path : Text) :
    clean (join base path) = join base path := by
  rw [join, if_neg h]
  exact clean_clean _

/-!
# The directory of a file

A path that ends in a name is the path of its directory and that name.
-/

theorem ofComponents_concat (h : parts ≠ []) (last : Text) :
    ofComponents (parts ++ [last]) = ofComponents parts ++ slash :: last := by
  induction parts with
  | nil => exact absurd rfl h
  | cons part parts ih =>
    cases parts with
    | nil => simp [ofComponents, Text.join]
    | cons next parts =>
      have hrest := ih (cons_ne_nil next parts)
      simp only [ofComponents, cons_append, Text.join] at hrest ⊢
      rw [hrest]
      simp [append_assoc]

section LastComponent

variable {last : Text}

theorem bne_slash_of_mem_reverse (hslash : slash ∉ last) {b : UInt8} (hb : b ∈ last.reverse) :
    (b != slash) = true := by
  rw [mem_reverse] at hb
  exact bne_iff_ne.mpr fun heq => hslash (heq ▸ hb)

theorem dropEndWhile_name (hslash : slash ∉ last) :
    dropEndWhile (fun b => b != slash) last = [] := by
  rw [dropEndWhile, dropWhile_eq_nil_iff.mpr fun b => bne_slash_of_mem_reverse hslash]
  rfl

theorem dropEndWhile_after_slash (hslash : slash ∉ last) (front : Text) :
    dropEndWhile (fun b => b != slash) (front ++ slash :: last) = front ++ [slash] := by
  rw [dropEndWhile, reverse_append, reverse_cons, append_assoc,
    dropWhile_append_of_pos fun b => bne_slash_of_mem_reverse hslash]
  simp

theorem isAbsolute_name (hslash : slash ∉ last) : isAbsolute last = false := by
  cases last with
  | nil => rfl
  | cons b last =>
    simp only [mem_cons, not_or] at hslash
    simpa [isAbsolute] using Ne.symm hslash.1

theorem foldl_step_name (hlast : IsName last) (rooted : Bool) (parts : List Text) :
    (parts ++ [last]).foldl (step rooted) [] = last :: parts.foldl (step rooted) [] := by
  rw [foldl_append]
  exact step_of_isName hlast rooted _

theorem foldl_step_nil (rooted : Bool) (parts : List Text) :
    (parts ++ [[]]).foldl (step rooted) [] = parts.foldl (step rooted) [] := by
  rw [foldl_append]
  exact step_nil rooted _

theorem key_concat {path : Text} {parts : List Text}
    (hparts : components path = parts ++ [last]) (hlast : IsName last) :
    key path = key (dropEndWhile (fun b => b != slash) path) ++ [last] := by
  have hpath : path = ofComponents (parts ++ [last]) := by
    rw [← hparts]
    exact (join_splitAt slash path).symm
  have hfree : ∀ part ∈ parts ++ [last], slash ∉ part := by
    rw [← hparts]
    exact fun part hpart => not_mem_of_mem_splitAt hpart
  have hslash : slash ∉ last := hfree last (mem_append_right parts mem_cons_self)
  by_cases hne : parts = []
  · subst hne
    have hpath : path = last := hpath
    subst hpath
    rw [dropEndWhile_name hslash, key, key, essential, hparts, isAbsolute_name hslash,
      foldl_step_name hlast]
    rfl
  · rw [ofComponents_concat hne] at hpath
    have hcomponents : components (ofComponents parts ++ [slash]) = parts ++ [[]] := by
      rw [components, splitAt_append]
      exact congrArg (· ++ [[]])
        (components_ofComponents hne fun part hpart => hfree part (mem_append_left _ hpart))
    have habsolute : isAbsolute (ofComponents parts ++ [slash]) = isAbsolute path := by
      rw [hpath, isAbsolute, isAbsolute]
      cases ofComponents parts <;> rfl
    have hdir : dropEndWhile (fun b => b != slash) path = ofComponents parts ++ [slash] := by
      rw [hpath]
      exact dropEndWhile_after_slash hslash _
    rw [hdir, key, key, habsolute, essential, essential, hparts, hcomponents, habsolute,
      foldl_step_name hlast, foldl_step_nil, reverse_cons]
    split <;> rfl

end LastComponent

theorem directory_clean {last : Text} (hparts : components path = parts ++ [last])
    (hlast : IsName last) : directory (clean path) = directory path := by
  have hkey := key_concat hparts hlast
  have hne : essential path ≠ [] := by
    rw [essential, hparts, foldl_append]
    simp [step_of_isName hlast]
  have hclean := key_concat ((components_clean hne).trans hkey) hlast
  rw [key_clean, hkey] at hclean
  exact clean_eq_of_key_eq (append_cancel_right hclean).symm

end CoolCompiler.Path
