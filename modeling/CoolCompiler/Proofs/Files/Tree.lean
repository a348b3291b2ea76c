import CoolCompiler.Import.Expansion
import CoolCompiler.Proofs.Files.Path

/-!
# Reading files

A path that leads to a file ends in its name, and the clean path leads to the same file.
-/

namespace CoolCompiler.FileTree

open List CoolCompiler.Path

def spotOf (rooted : Bool) (walked : List Text) : List Text :=
  if rooted then [] :: walked.reverse else walked.reverse

theorem spotOf_cons (rooted : Bool) (part : Text) (walked : List Text) :
    spotOf rooted (part :: walked) = spotOf rooted walked ++ [part] := by
  cases rooted <;> simp [spotOf]

theorem key_eq_spotOf (path : Text) :
    key path = spotOf (isAbsolute path) ((components path).foldl (step (isAbsolute path)) []) :=
  rfl

variable {rooted : Bool} {walked : List Text}

theorem above_spotOf (h : Settled rooted walked) :
    above (spotOf rooted walked) = spotOf rooted (step rooted walked up) := by
  cases walked with
  | nil => cases rooted <;> decide
  | cons last rest =>
    have hroot : spotOf rooted (last :: rest) ≠ [[]] := by
      have hlast := (h.mem mem_cons_self).1
      rw [spotOf_cons]
      intro heq
      exact hlast (append_singleton_inj.mp (heq.trans (nil_append [[]]).symm)).2
    have hstep : step rooted (last :: rest) up = if last = up then up :: last :: rest else rest :=
      rfl
    rw [spotOf_cons] at hroot ⊢
    rw [above, if_neg hroot, hstep]
    by_cases hup : last = up
    · simp [hup, spotOf_cons]
    · simp [hup]

theorem walk_file {t : FileTree} {parts file : List Text} (h : Settled rooted walked)
    (hwalk : t.walk (spotOf rooted walked) parts = .ok (.file file)) :
    file = spotOf rooted (parts.foldl (step rooted) walked) ∧
      ∃ front last, parts = front ++ [last] ∧ IsName last := by
  induction parts generalizing walked with
  | nil => cases hwalk
  | cons part rest ih =>
    -- the walk goes on from where one step leads
    have hgo (hrest : t.walk (spotOf rooted (step rooted walked part)) rest = .ok (.file file)) :
        file = spotOf rooted ((part :: rest).foldl (step rooted) walked) ∧
          ∃ front last, part :: rest = front ++ [last] ∧ IsName last := by
      obtain ⟨hfile, front, last, hparts, hlast⟩ := ih (h.step part) hrest
      exact ⟨hfile, part :: front, last, by rw [hparts, cons_append], hlast⟩
    rw [walk] at hwalk
    split at hwalk
    · next hskip =>
      have hstep : step rooted walked part = walked := by
        unfold step
        exact if_pos hskip
      rw [← hstep] at hwalk
      exact hgo hwalk
    · next hskip =>
      split at hwalk
      · next hup =>
        rw [above_spotOf h, ← hup] at hwalk
        exact hgo hwalk
      · next hup =>
        have hname : IsName part :=
          ⟨fun hnil => hskip (.inl hnil), fun hhere => hskip (.inr hhere), hup⟩
        simp only [← spotOf_cons, ← step_of_isName hname rooted walked] at hwalk
        split at hwalk
        · cases hwalk
        · split at hwalk
          · exact hgo hwalk
          · split at hwalk
            · split at hwalk
              · next hlast =>
                subst hlast
                cases hwalk
                exact ⟨rfl, [], part, rfl, hname⟩
              · cases hwalk
            · split at hwalk <;> cases hwalk

theorem read_eq_ok {t : FileTree} {path contents : Text} (h : t.read path = .ok contents) :
    t.contents? (key path) = some contents ∧
      ∃ front last, components path = front ++ [last] ∧ IsName last := by
  unfold read at h
  split at h
  · cases h
  · cases h
  · cases h
  · next file hlocate =>
    have hwalk : t.walk (spotOf (isAbsolute path) []) (components path) = .ok (.file file) := by
      unfold locate at hlocate
      grind [spotOf]
    obtain ⟨hfile, hlast⟩ := walk_file .start hwalk
    rw [hfile, ← key_eq_spotOf] at h
    split at h
    · next found hfound =>
      cases h
      exact ⟨hfound, hlast⟩
    · cases h

theorem readClean_clean {t : FileTree} {path contents : Text} (h : t.read path = .ok contents) :
    t.readClean (clean path) = .ok contents ∧ directory (clean path) = directory path := by
  obtain ⟨hfound, front, last, hparts, hlast⟩ := read_eq_ok h
  refine ⟨?_, directory_clean hparts hlast⟩
  rw [readClean, key_clean, hfound]

end CoolCompiler.FileTree
