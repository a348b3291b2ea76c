import CoolCompiler.Proofs.Files.Tree
import CoolCompiler.Proofs.Import.Search
import Mathlib.Data.List.Nodup
import Mathlib.Logic.Relation

/-!
# Files that are reached

A file needs those that its lines name.  A search that ends well enters every file that can be
reached once, and leaves it after those that it needs, unless these reach it.
-/

namespace CoolCompiler.Import

open List Directive
open CoolCompiler.Path (key)

/-- A file as a line that names it finds it: at a clean path, with the contents of the tree. -/
structure InTree (t : FileTree) (f : Source) : Prop where
  clean : Path.clean f.path = f.path
  read : t.readClean f.path = .ok f.text

/-- The file that an expansion takes for the one at a path: the file that it starts from, for
every path that leads there. -/
def standIn (root f : Source) : Source :=
  if key f.path = key root.path then root else f

def Needs (t : FileTree) (root f g : Source) : Prop :=
  ∃ line ∈ f.text.lines, ∃ named, asked t f.path line = some (.ok named) ∧ g = standIn root named

abbrev Reaches (t : FileTree) (root : Source) : Source → Source → Prop :=
  Relation.ReflTransGen (Needs t root)

variable {t : FileTree} {root : Source}

variable {lines : List Text} {f g : Source} {path : Text} {wanted : List Source}
  {seen : List (List Text)}

theorem standIn_of_ne (h : key f.path ≠ key root.path) : standIn root f = f :=
  if_neg h

theorem asked_inTree {line : Text} (h : asked t path line = some (.ok f)) : InTree t f := by
  obtain ⟨file, _, hpath, hread⟩ := asked_eq_ok_iff.mp h
  refine ⟨?_, hread⟩
  rw [hpath]
  exact Path.clean_join (Path.clean_ne_nil _) file

theorem InTree.ext (hf : InTree t f) (hg : InTree t g) (hkey : key f.path = key g.path) :
    f = g := by
  have hpath : f.path = g.path := by
    rw [← hf.clean, ← hg.clean]
    exact Path.clean_eq_of_key_eq hkey
  have htext : f.text = g.text := by
    have hread := hf.read
    rw [hpath, hg.read] at hread
    exact (Except.ok.inj hread).symm
  cases f
  cases g
  cases hpath
  cases htext
  rfl

/-!
# Visits

A search that ends well, without the lines: it visits the files that it wants, and within each those
that it names.
-/

def Wants (t : FileTree) (path : Text) (lines : List Text) (wanted : List Source) : Prop :=
  lines.filterMap (asked t path) = wanted.map .ok

/-- Visiting files that are wanted, from what was seen before to what was seen after, and the
files that were entered. -/
inductive Visits (t : FileTree) :
    List (List Text) → List Source → List Source → List (List Text) → Prop where
  | done {seen : List (List Text)} : Visits t seen [] [] seen
  | known {seen after : List (List Text)} {f : Source} {rest files : List Source}
      (old : key f.path ∈ seen) (later : Visits t seen rest files after) :
      Visits t seen (f :: rest) files after
  | entered {seen between after : List (List Text)} {f : Source}
      {wanted rest inner files : List Source} (fresh : key f.path ∉ seen)
      (wants : Wants t f.path f.text.lines wanted)
      (inside : Visits t (key f.path :: seen) wanted inner between)
      (later : Visits t between rest files after) :
      Visits t seen (f :: rest) (inner ++ f :: files) after

theorem Search.visits {n : Nat} {after : List (List Text)} {files : List Source}
    (h : Search t path n seen lines (.ok (files, after))) :
    ∃ wanted, Wants t path lines wanted ∧ Visits t seen wanted files after := by
  generalize hout : Except.ok (files, after) = out at h
  induction h generalizing files after with
  | done =>
    cases hout
    exact ⟨[], rfl, .done⟩
  | pass plain _ ih =>
    obtain ⟨wanted, hwants, hvisits⟩ := ih hout
    exact ⟨wanted, by rw [Wants, filterMap_cons_none plain, hwants], hvisits⟩
  | refused _ => cases hout
  | @known _ _ _ _ _ f _ found old _ ih =>
    obtain ⟨wanted, hwants, hvisits⟩ := ih hout
    refine ⟨f :: wanted, ?_, .known old hvisits⟩
    rw [Wants, filterMap_cons_some found, hwants, map_cons]
  | broken _ _ _ _ => cases hout
  | @entered _ _ _ _ _ _ f inner out found fresh _ _ ih ihlater =>
    cases out with
    | error fault => cases hout
    | ok later =>
      cases hout
      obtain ⟨needed, hneeds, hinside⟩ := ih rfl
      obtain ⟨wanted, hwants, hvisits⟩ := ihlater rfl
      refine ⟨f :: wanted, ?_, ?_⟩
      · rw [Wants, filterMap_cons_some found, hwants, map_cons]
      · rw [append_assoc]
        exact .entered fresh hneeds hinside hvisits

theorem Wants.mem_iff (h : Wants t path lines wanted) :
    g ∈ wanted ↔ ∃ line ∈ lines, asked t path line = some (.ok g) := by
  have hmem : Except.ok g ∈ lines.filterMap (asked t path) ↔ g ∈ wanted := by
    rw [h, mem_map]
    simp
  rw [← hmem, mem_filterMap]

theorem Wants.readable {line : Text} (h : Wants t path lines wanted) (hline : line ∈ lines)
    {e : Text × FileFault} : asked t path line ≠ some (.error e) := by
  intro hasked
  have hmem := mem_filterMap.mpr ⟨line, hline, hasked⟩
  rw [h, mem_map] at hmem
  obtain ⟨_, _, hok⟩ := hmem
  cases hok

theorem Wants.inTree (h : Wants t path lines wanted) : ∀ w ∈ wanted, InTree t w := by
  intro w hw
  obtain ⟨_, _, hasked⟩ := h.mem_iff.mp hw
  exact asked_inTree hasked

theorem Wants.needs {named : List Source} (h : Wants t f.path f.text.lines named) (hg : g ∈ named)
    (hother : key g.path ≠ key root.path) : Needs t root f g := by
  obtain ⟨line, hline, hasked⟩ := h.mem_iff.mp hg
  exact ⟨line, hline, g, hasked, (standIn_of_ne hother).symm⟩

namespace Visits

variable {seen after : List (List Text)} {wanted files : List Source}

theorem mem_after_iff (h : Visits t seen wanted files after) {k : List Text} :
    k ∈ after ↔ k ∈ seen ∨ ∃ f ∈ files, key f.path = k := by
  induction h with
  | done => simp
  | known _ _ ih => exact ih
  | @entered seen between after f _ _ inner files _ _ _ _ ih ihlater =>
    rw [ihlater, ih, mem_cons]
    constructor
    · rintro (((rfl | hseen) | ⟨g, hg, rfl⟩) | ⟨g, hg, rfl⟩)
      · exact .inr ⟨f, by simp, rfl⟩
      · exact .inl hseen
      · exact .inr ⟨g, by simp [hg], rfl⟩
      · exact .inr ⟨g, by simp [hg], rfl⟩
    · rintro (hseen | ⟨g, hg, rfl⟩)
      · exact .inl (.inl (.inr hseen))
      · rcases mem_append.mp hg with hg | hg
        · exact .inl (.inr ⟨g, hg, rfl⟩)
        · rcases mem_cons.mp hg with rfl | hg
          · exact .inl (.inl (.inl rfl))
          · exact .inr ⟨g, hg, rfl⟩

theorem subset (h : Visits t seen wanted files after) : seen ⊆ after :=
  fun _ hk => h.mem_after_iff.mpr (.inl hk)

variable {f : Source}

variable (h : Visits t seen wanted files after)
include h

theorem wanted_mem_after (hf : f ∈ wanted) : key f.path ∈ after := by
  induction h with
  | done => cases hf
  | known old later ih =>
    rcases mem_cons.mp hf with rfl | hf
    · exact later.subset old
    · exact ih hf
  | entered fresh wants inside later _ ihlater =>
    rcases mem_cons.mp hf with rfl | hf
    · exact later.subset (inside.subset mem_cons_self)
    · exact ihlater hf

theorem fresh_of_mem (hf : f ∈ files) : key f.path ∉ seen := by
  induction h with
  | done => cases hf
  | known _ _ ih => exact ih hf
  | entered fresh wants inside later ih ihlater =>
    rcases mem_append.mp hf with hf | hf
    · exact fun hseen => ih hf (mem_cons_of_mem _ hseen)
    · rcases mem_cons.mp hf with rfl | hf
      · exact fresh
      · exact fun hseen => ihlater hf (inside.subset (mem_cons_of_mem _ hseen))

theorem pairwise_key_ne : files.Pairwise fun f g => key f.path ≠ key g.path := by
  induction h with
  | done => exact List.Pairwise.nil
  | known _ _ ih => exact ih
  | @entered seen between after f _ _ inner files _ _ inside later ih ihlater =>
    have hlater : ∀ g ∈ files, key g.path ∉ between := fun g hg => later.fresh_of_mem hg
    rw [pairwise_append, pairwise_cons]
    refine ⟨ih, ⟨?_, ihlater⟩, ?_⟩
    · intro g hg heq
      exact hlater g hg (heq ▸ inside.subset mem_cons_self)
    · intro a ha b hb heq
      rcases mem_cons.mp hb with rfl | hb
      · exact inside.fresh_of_mem ha (heq ▸ mem_cons_self)
      · exact hlater b hb (heq ▸ inside.mem_after_iff.mpr (.inr ⟨a, ha, rfl⟩))

theorem closed (hf : f ∈ files) :
    ∃ named, Wants t f.path f.text.lines named ∧ ∀ g ∈ named, key g.path ∈ after := by
  induction h with
  | done => cases hf
  | known _ _ ih => exact ih hf
  | entered _ wants inside later ih ihlater =>
    rcases mem_append.mp hf with hf | hf
    · obtain ⟨named, hwants, hnamed⟩ := ih hf
      exact ⟨named, hwants, fun g hg => later.subset (hnamed g hg)⟩
    · rcases mem_cons.mp hf with rfl | hf
      · exact ⟨_, wants, fun g hg => later.subset (inside.wanted_mem_after hg)⟩
      · exact ihlater hf

theorem inTree (hwanted : ∀ f ∈ wanted, InTree t f) (hf : f ∈ files) : InTree t f := by
  induction h with
  | done => cases hf
  | known _ _ ih => exact ih (fun g hg => hwanted g (mem_cons_of_mem _ hg)) hf
  | entered _ wants _ _ ih ihlater =>
    rcases mem_append.mp hf with hf | hf
    · exact ih wants.inTree hf
    · rcases mem_cons.mp hf with rfl | hf
      · exact hwanted f mem_cons_self
      · exact ihlater (fun g hg => hwanted g (mem_cons_of_mem _ hg)) hf

theorem reached (hroot : key root.path ∈ seen) (hf : f ∈ files) :
    ∃ w ∈ wanted, key w.path ∉ seen ∧ Reaches t root w f := by
  induction h with
  | done => cases hf
  | known _ _ ih =>
    obtain ⟨w, hw, hfresh, hreaches⟩ := ih hroot hf
    exact ⟨w, mem_cons_of_mem _ hw, hfresh, hreaches⟩
  | @entered seen between _ g _ _ _ _ fresh wants inside _ ih ihlater =>
    rcases mem_append.mp hf with hf | hf
    · have hroot := mem_cons_of_mem (key g.path) hroot
      obtain ⟨w, hw, hnew, hreaches⟩ := ih hroot hf
      have hneeds : Needs t root g w := wants.needs hw fun heq => hnew (heq ▸ hroot)
      exact ⟨g, mem_cons_self, fresh, .head hneeds hreaches⟩
    · rcases mem_cons.mp hf with rfl | hf
      · exact ⟨f, mem_cons_self, fresh, .refl⟩
      · have hsub : seen ⊆ between := fun k hk => inside.subset (mem_cons_of_mem _ hk)
        obtain ⟨w, hw, hnew, hreaches⟩ := ihlater (hsub hroot) hf
        exact ⟨w, mem_cons_of_mem _ hw, fun hk => hnew (hsub hk), hreaches⟩

omit h in
theorem split_cases {inner before later : List Source} {w : Source}
    (h : inner ++ w :: files = before ++ f :: later) :
    (∃ rest, inner = before ++ f :: rest) ∨ (before = inner ∧ f = w) ∨
      ∃ rest, before = inner ++ w :: rest ∧ files = rest ++ f :: later := by
  rcases append_eq_append_iff.mp h with ⟨rest, hbefore, hrest⟩ | ⟨rest, hinner, hrest⟩
  · cases rest with
    | nil =>
      cases hrest
      exact .inr (.inl ⟨by rw [hbefore, append_nil], rfl⟩)
    | cons u rest =>
      cases hrest
      exact .inr (.inr ⟨rest, hbefore, rfl⟩)
  · cases rest with
    | nil =>
      cases hrest
      exact .inr (.inl ⟨by rw [hinner, append_nil], rfl⟩)
    | cons u rest =>
      cases hrest
      exact .inl ⟨rest, hinner⟩

theorem ordered (hroot : key root.path ∈ seen) (hwanted : ∀ w ∈ wanted, InTree t w)
    {before later : List Source} (hsplit : files = before ++ f :: later) {line : Text}
    (hline : line ∈ f.text.lines) {g : Source} (hasked : asked t f.path line = some (.ok g)) :
    key g.path ∈ seen ∨ (∃ a ∈ before, key a.path = key g.path) ∨
      Reaches t root g f := by
  have hg := asked_inTree hasked
  induction h generalizing before later with
  | done => simp at hsplit
  | known _ _ ih =>
    exact ih hroot (fun w hw => hwanted w (mem_cons_of_mem _ hw)) hsplit
  | @entered seen between _ w _ _ inner files fresh wants inside visits ih ihlater =>
    have hw := hwanted w mem_cons_self
    have hsub : key root.path ∈ key w.path :: seen := mem_cons_of_mem _ hroot
    rcases split_cases hsplit with ⟨rest, rfl⟩ | ⟨rfl, rfl⟩ | ⟨rest, rfl, rfl⟩
    · rcases ih hsub wants.inTree rfl with hseen | hplace
      · rcases mem_cons.mp hseen with hkey | hseen
        · -- the file named is the one being entered, and all within it is reached from it
          have hf : f ∈ before ++ f :: rest := by simp
          obtain ⟨u, hu, hnew, hreaches⟩ := inside.reached hsub hf
          have hneeds : Needs t root w u := wants.needs hu fun heq => hnew (heq ▸ hsub)
          rw [hg.ext hw hkey]
          exact .inr (.inr (.head hneeds hreaches))
        · exact .inl hseen
      · exact .inr hplace
    · have hkey := inside.wanted_mem_after (wants.mem_iff.mpr ⟨line, hline, hasked⟩)
      rcases inside.mem_after_iff.mp hkey with hseen | hinner
      · rcases mem_cons.mp hseen with hkey | hseen
        · rw [hg.ext hw hkey]
          exact .inr (.inr .refl)
        · exact .inl hseen
      · exact .inr (.inl hinner)
    · have hrest := fun u hu => hwanted u (mem_cons_of_mem w hu)
      rcases ihlater (inside.subset hsub) hrest rfl with hbetween | ⟨a, ha, hkey⟩ | hreaches
      · rcases inside.mem_after_iff.mp hbetween with hseen | ⟨a, ha, hkey⟩
        · rcases mem_cons.mp hseen with hkey | hseen
          · exact .inr (.inl ⟨w, by simp, hkey.symm⟩)
          · exact .inl hseen
        · exact .inr (.inl ⟨a, by simp [ha], hkey⟩)
      · exact .inr (.inl ⟨a, by simp [ha], hkey⟩)
      · exact .inr (.inr hreaches)

end Visits

/-!
# Failure

A search fails only at a file that is reached and has a line whose file cannot be read.
-/

def Readable (t : FileTree) (f : Source) : Prop :=
  ∀ target ∈ targets f.path f.text.lines, ∃ contents, t.readClean target = .ok contents

theorem readable_iff :
    Readable t f ↔ ∀ line ∈ f.text.lines, ∀ e, asked t f.path line ≠ some (.error e) := by
  constructor
  · rintro h line hline ⟨file, fault⟩ hasked
    obtain ⟨hfile, hfault⟩ := asked_eq_error_iff.mp hasked
    obtain ⟨contents, hread⟩ := h _ (mem_targets_iff.mpr ⟨line, hline, file, hfile, rfl⟩)
    rw [hfault] at hread
    cases hread
  · intro h target htarget
    obtain ⟨line, hline, file, hfile, rfl⟩ := mem_targets_iff.mp htarget
    cases hread : t.readClean (Path.join (Path.directory f.path) file) with
    | ok contents => exact ⟨contents, rfl⟩
    | error fault => exact absurd (asked_eq_error_iff.mpr ⟨hfile, hread⟩) (h line hline _)

theorem Search.not_readable {n : Nat} {fault : ImportFault}
    (h : Search t path n seen lines (.error fault)) (hroot : key root.path ∈ seen) :
    ∃ line ∈ lines, (∃ e, asked t path line = some (.error e)) ∨
      ∃ w f, asked t path line = some (.ok w) ∧ key w.path ≠ key root.path ∧
        Reaches t root w f ∧ ¬ Readable t f := by
  generalize hout : Except.error fault = out at h
  induction h generalizing fault with
  | done => cases hout
  | pass _ _ ih | known _ _ _ ih =>
    obtain ⟨line, hline, hcause⟩ := ih hroot hout
    exact ⟨line, mem_cons_of_mem _ hline, hcause⟩
  | refused unread => exact ⟨_, mem_cons_self, .inl ⟨_, unread⟩⟩
  | @broken path line _ _ _ f fault found fresh inside ih =>
    have hother : key f.path ≠ key root.path := fun heq => fresh (heq ▸ hroot)
    refine ⟨line, mem_cons_self, .inr ?_⟩
    rcases ih (mem_cons_of_mem _ hroot) hout with
      ⟨inner, hinner, ⟨e, hunread⟩ | ⟨w, g, hfound, hw, hreaches, hg⟩⟩
    · refine ⟨f, f, found, hother, .refl, fun hreadable => ?_⟩
      exact readable_iff.mp hreadable inner hinner e hunread
    · have hneeds : Needs t root f w := ⟨inner, hinner, w, hfound, (standIn_of_ne hw).symm⟩
      exact ⟨f, g, found, hother, .head hneeds hreaches, hg⟩
  | @entered _ _ _ _ _ _ _ _ out _ _ inside _ _ ihlater =>
    cases out with
    | ok later => cases hout
    | error other =>
      have hbetween := inside.subset (mem_cons_of_mem _ hroot)
      obtain ⟨line, hline, hcause⟩ := ihlater hbetween rfl
      exact ⟨line, mem_cons_of_mem _ hline, hcause⟩

/-!
# Whole expansions
-/

/-- What an expansion keeps of a file: its path, the number of its lines, and every line that is
no directive. -/
structure Keeps (f s : Source) : Prop where
  path : s.path = f.path
  length : s.text.lines.length = f.text.lines.length
  plain : ∀ (i : Nat) (line : Text), f.text.lines[i]? = some line →
    ofLine? line = none → s.text.lines[i]? = some line
  directive : ∀ (i : Nat) (line : Text), f.text.lines[i]? = some line →
    ofLine? line ≠ none → s.text.lines[i]? = some []

theorem lines_blanked (f : Source) :
    f.blanked.text.lines = f.text.lines.map blanked := by
  refine Text.splitAt_join ?_ ?_
  · rw [Ne, map_eq_nil_iff]
    exact Text.splitAt_ne_nil 10 f.text
  · intro line hline
    obtain ⟨original, horiginal, rfl⟩ := mem_map.mp hline
    unfold blanked
    split
    · exact not_mem_nil
    · exact Text.not_mem_of_mem_splitAt horiginal

theorem keeps_blanked (f : Source) : Keeps f f.blanked where
  path := rfl
  length := by rw [lines_blanked, length_map]
  plain i line hline hplain := by
    rw [lines_blanked, getElem?_map, hline]
    simp [blanked, hplain]
  directive i line hline hdirective := by
    rw [lines_blanked, getElem?_map, hline]
    simp [blanked, Option.isSome_iff_ne_none, hdirective]

/-- The files of an expansion: distinct, exactly those that are reached, and each after what it
needs unless that reaches it. -/
structure Complete (t : FileTree) (root : Source) (files : List Source) : Prop where
  distinct : files.Pairwise fun f g => key f.path ≠ key g.path
  reached : ∀ f, f ∈ files ↔ Reaches t root root f
  readable : ∀ f ∈ files, Readable t f
  ordered : ∀ before f later, files = before ++ f :: later →
    ∀ g, Needs t root f g → g ∈ before ∨ Reaches t root g f

section FromRoot

variable {wanted files : List Source} {after : List (List Text)}

section Visited

variable (h : Visits t [key root.path] wanted files after)
include h

theorem Visits.key_ne_root {f : Source} (hf : f ∈ files) : key f.path ≠ key root.path :=
  fun heq => h.fresh_of_mem hf (heq ▸ mem_cons_self)

variable (hwants : Wants t root.path root.text.lines wanted)
include hwants

theorem Visits.reached_from_root {f : Source} (hf : f ∈ files ++ [root]) :
    Reaches t root root f := by
  rcases mem_append.mp hf with hf | hf
  · have hroot : key root.path ∈ [key root.path] := mem_cons_self
    obtain ⟨w, hw, hnew, hreaches⟩ := h.reached hroot hf
    exact .head (hwants.needs hw fun heq => hnew (heq ▸ hroot)) hreaches
  · rw [mem_singleton.mp hf]

omit hwants in
theorem Visits.standIn_mem (hwanted : ∀ w ∈ wanted, InTree t w) {g : Source} (hg : InTree t g)
    (hseen : key g.path ∈ after) : standIn root g ∈ files ++ [root] := by
  rcases h.mem_after_iff.mp hseen with hkey | ⟨f, hf, hkey⟩
  · rw [standIn, if_pos (mem_singleton.mp hkey)]
    exact mem_append_right _ mem_cons_self
  · rw [(h.inTree hwanted hf).ext hg hkey] at hf
    rw [standIn_of_ne (h.key_ne_root hf)]
    exact mem_append_left _ hf

theorem Visits.closed_from_root {f : Source} (hf : f ∈ files ++ [root]) :
    ∃ named, Wants t f.path f.text.lines named ∧ ∀ g ∈ named, key g.path ∈ after := by
  rcases mem_append.mp hf with hf | hf
  · exact h.closed hf
  · rw [mem_singleton.mp hf]
    exact ⟨wanted, hwants, fun g hg => h.wanted_mem_after hg⟩

theorem Visits.mem_of_reaches {f : Source} (hreaches : Reaches t root root f) :
    f ∈ files ++ [root] := by
  induction hreaches with
  | refl => exact mem_append_right _ mem_cons_self
  | tail _ hneeds ih =>
    obtain ⟨line, hline, g, hasked, rfl⟩ := hneeds
    obtain ⟨named, hnamed, hseen⟩ := h.closed_from_root hwants ih
    have hg : g ∈ named := hnamed.mem_iff.mpr ⟨line, hline, hasked⟩
    exact h.standIn_mem hwants.inTree (asked_inTree hasked) (hseen g hg)

theorem Visits.ordered_from_root {before later : List Source} {f g : Source}
    (hsplit : files ++ [root] = before ++ f :: later) (hneeds : Needs t root f g) :
    g ∈ before ∨ Reaches t root g f := by
  obtain ⟨line, hline, named, hasked, rfl⟩ := hneeds
  by_cases hkey : key named.path = key root.path
  · rw [standIn, if_pos hkey]
    have hf : f ∈ files ++ [root] := by
      rw [hsplit]
      exact mem_append_right _ mem_cons_self
    exact .inr (h.reached_from_root hwants hf)
  · rw [standIn_of_ne hkey]
    have hold : key named.path ∉ [key root.path] :=
      fun hmem => hkey (mem_singleton.mp hmem)
    -- a file with the same path as the one named is that file
    have hsame : ∀ a ∈ files, key a.path = key named.path → a = named :=
      fun a ha => (h.inTree hwants.inTree ha).ext (asked_inTree hasked)
    rcases Visits.split_cases hsplit with ⟨rest, hfiles⟩ | ⟨rfl, rfl⟩ | ⟨rest, _, hnil⟩
    · rcases h.ordered mem_cons_self hwants.inTree hfiles hline hasked with
        hseen | ⟨a, ha, hsamekey⟩ | hreaches
      · exact absurd hseen hold
      · rw [← hsame a (by rw [hfiles]; exact mem_append_left _ ha) hsamekey]
        exact .inl ha
      · exact .inr hreaches
    · have hwanted := h.wanted_mem_after (hwants.mem_iff.mpr ⟨line, hline, hasked⟩)
      rcases h.mem_after_iff.mp hwanted with hseen | ⟨a, ha, hsamekey⟩
      · exact absurd hseen hold
      · rw [← hsame a ha hsamekey]
        exact .inl ha
    · simp at hnil

end Visited

theorem Search.complete
    (h : Search t root.path 1 [key root.path] root.text.lines (.ok (files, after))) :
    Complete t root (files ++ [root]) := by
  obtain ⟨wanted, hwants, hvisits⟩ := h.visits
  refine ⟨?_, fun f => ⟨hvisits.reached_from_root hwants, hvisits.mem_of_reaches hwants⟩, ?_, ?_⟩
  · rw [pairwise_append]
    refine ⟨hvisits.pairwise_key_ne, pairwise_singleton _ _, ?_⟩
    intro f hf g hg
    rw [mem_singleton.mp hg]
    exact hvisits.key_ne_root hf
  · intro f hf
    obtain ⟨named, hnamed, _⟩ := hvisits.closed_from_root hwants hf
    exact readable_iff.mpr fun line hline e => hnamed.readable hline
  · exact fun before f later hsplit g hneeds => hvisits.ordered_from_root hwants hsplit hneeds

end FromRoot

theorem expand_cases (t : FileTree) (root : Source) :
    (∃ files, expand t root.path root.text = .ok (files.map Source.blanked) ∧
        Complete t root files) ∨
      (∃ fault, expand t root.path root.text = .error fault) ∧
        ∃ f, Reaches t root root f ∧ ¬ Readable t f := by
  obtain ⟨out, hsearch, _⟩ := exists_search t root.path 1 [key root.path] root.text.lines
  have hexpand := hsearch.expand_eq
  cases out with
  | ok found => exact .inl ⟨found.1 ++ [root], hexpand, hsearch.complete⟩
  | error fault =>
    refine .inr ⟨⟨fault, hexpand⟩, ?_⟩
    have hroot : key root.path ∈ [key root.path] := mem_cons_self
    rcases hsearch.not_readable hroot with
      ⟨line, hline, ⟨e, hunread⟩ | ⟨w, f, hasked, hw, hreaches, hf⟩⟩
    · exact ⟨root, .refl, fun hreadable => readable_iff.mp hreadable line hline e hunread⟩
    · exact ⟨f, .head ⟨line, hline, w, hasked, (standIn_of_ne hw).symm⟩ hreaches, hf⟩

theorem exists_expand_iff (t : FileTree) (root : Source) :
    (∃ sources, expand t root.path root.text = .ok sources) ↔
      ∀ f, Reaches t root root f → Readable t f := by
  rcases expand_cases t root with ⟨files, hexpand, hcomplete⟩ | ⟨⟨fault, hexpand⟩, f, hf, hunread⟩
  · exact ⟨fun _ f hf => hcomplete.readable f ((hcomplete.reached f).mpr hf), fun _ => ⟨_, hexpand⟩⟩
  · constructor
    · rintro ⟨sources, hsources⟩
      cases hexpand.symm.trans hsources
    · exact fun hreadable => absurd (hreadable f hf) hunread

/-- Whatever files need each other, an expansion comes to an end: it succeeds exactly when every
file that is reached names files that can be read.  The sources have distinct clean paths and are
the files that are reached, in an order in which a file comes after those that it needs unless
they reach it.  Each source has the lines of its file, with the directives blanked. -/
theorem expand_once_in_order (t : FileTree) (root : Source) :
    ((∃ sources, expand t root.path root.text = .ok sources) ↔
      ∀ f, Reaches t root root f → Readable t f) ∧
    ∀ sources, expand t root.path root.text = .ok sources →
      (sources.map fun s => Path.clean s.path).Nodup ∧
      ∃ files, List.Forall₂ Keeps files sources ∧
        (∀ f, f ∈ files ↔ Reaches t root root f) ∧
        ∀ before f later, files = before ++ f :: later →
          ∀ g, Needs t root f g → g ∈ before ∨ Reaches t root g f := by
  refine ⟨exists_expand_iff t root, fun sources hsources => ?_⟩
  rcases expand_cases t root with ⟨files, hexpand, hcomplete⟩ | ⟨⟨fault, hexpand⟩, _⟩
  · cases hexpand.symm.trans hsources
    refine ⟨?_, files, ?_, hcomplete.reached, hcomplete.ordered⟩
    · rw [map_map, List.Nodup, pairwise_map]
      exact hcomplete.distinct.imp fun hne heq => hne ((Path.clean_eq_clean_iff _ _).mp heq)
    · rw [forall₂_map_right_iff, forall₂_same]
      exact fun f _ => keeps_blanked f
  · cases hexpand.symm.trans hsources

def ringFile : Source := ⟨"a.cool", "import \"b\";\nclass A \x7b\x7d;"⟩

def ringOther : Source := ⟨"b.cool", "module b\nimport \"a\"\nimport \"b\"\nclass B \x7b\x7d;"⟩

def ringTree : FileTree :=
  ⟨[(["a.cool"], ringFile.text), (["b.cool"], ringOther.text)], [[]]⟩

def ringRoot : Source := ⟨"./a.cool", ringFile.text⟩

theorem expand_once_in_order_ring :
    ∃ sources, expand ringTree ringRoot.path ringRoot.text = .ok sources ∧ sources.length = 2 ∧
      (sources.map fun s => Path.clean s.path).Nodup ∧
      ∃ files, List.Forall₂ Keeps files sources ∧
        (∀ f, f ∈ files ↔ Reaches ringTree ringRoot ringRoot f) ∧
        ∀ before f later, files = before ++ f :: later →
          ∀ g, Needs ringTree ringRoot f g → g ∈ before ∨ Reaches ringTree ringRoot g f := by
  let seen : List (List Text) := [["b.cool"], ["a.cool"]]
  have hother : ringOther.text.lines =
      ["module b", "import \"a\"", "import \"b\"", "class B \x7b\x7d;"].map Text.ofString := by
    decide +kernel
  have hinside : Search ringTree ringOther.path 1 seen ringOther.text.lines (.ok ([], seen)) := by
    rw [hother]
    refine .pass (by decide +kernel) ?_
    refine .known (f := ringFile) (by decide +kernel) (by decide +kernel) ?_
    refine .known (f := ringOther) (by decide +kernel) (by decide +kernel) ?_
    exact .pass (by decide +kernel) .done
  have hroot : ringRoot.text.lines = ["import \"b\";", "class A \x7b\x7d;"].map Text.ofString := by
    decide +kernel
  have hfound : asked ringTree ringRoot.path "import \"b\";" = some (.ok ringOther) := by
    decide +kernel
  have hlater : Search ringTree ringRoot.path 2 seen [Text.ofString "class A \x7b\x7d;"]
      (.ok ([], seen)) :=
    .pass (by decide +kernel) .done
  have hsearch : Search ringTree ringRoot.path 1 [Path.key ringRoot.path] ringRoot.text.lines
      (.ok ([ringOther], seen)) := by
    rw [hroot]
    have hentered := Search.entered (n := 1) hfound (by decide +kernel) hinside hlater
    exact hentered
  have hexpand := hsearch.expand_eq
  exact ⟨_, hexpand, rfl, (expand_once_in_order ringTree ringRoot).2 _ hexpand⟩

end CoolCompiler.Import
