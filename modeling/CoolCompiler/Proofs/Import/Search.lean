import CoolCompiler.Import.Expansion

/-!
# Expansion as a search

Expansion enters each file that its lines name, unless it has been seen.  Here this is a relation
between lines and outcome: the files entered, in the order in which they were left, or the first
line whose file cannot be read.
-/

namespace CoolCompiler

open List
open CoolCompiler.Path (key join directory)

def Directive.blanked (line : Text) : Text :=
  if (ofLine? line).isSome then [] else line

def Source.blanked (f : Source) : Source :=
  ⟨f.path, Text.join [10] (f.text.lines.map Directive.blanked)⟩

namespace Import

/-- The file that a line of the file at a path names, if it names one: as it stands in the
tree, or what is wrong with it. -/
def asked (t : FileTree) (path line : Text) : Option (Except (Text × FileFault) Source) :=
  match Directive.ofLine? line with
  | some (.needs file) =>
    let target := join (directory path) file
    some (match t.readClean target with
      | .error fault => .error (file, fault)
      | .ok contents => .ok ⟨target, contents⟩)
  | _ => none

variable {t : FileTree} {line path : Text}

theorem asked_eq_none_iff :
    asked t path line = none ↔ ∀ file, Directive.ofLine? line ≠ some (.needs file) := by
  unfold asked
  split <;> simp_all

theorem asked_eq_error_iff {file : Text} {fault : FileFault} :
    asked t path line = some (.error (file, fault)) ↔ Directive.ofLine? line = some (.needs file) ∧
      t.readClean (join (directory path) file) = .error fault := by
  unfold asked
  grind

theorem asked_eq_ok_iff {f : Source} :
    asked t path line = some (.ok f) ↔ ∃ file, Directive.ofLine? line = some (.needs file) ∧
      f.path = join (directory path) file ∧ t.readClean f.path = .ok f.text := by
  constructor
  · intro h
    unfold asked at h
    grind
  · rintro ⟨file, hline, hpath, hread⟩
    simp only [asked, hline, ← hpath, hread]

theorem mem_targets_iff {target : Text} {lines : List Text} :
    target ∈ Directive.targets path lines ↔ ∃ line ∈ lines, ∃ file,
      Directive.ofLine? line = some (.needs file) ∧
        target = join (directory path) file := by
  rw [Directive.targets, mem_filterMap]
  refine exists_congr fun line => and_congr_right fun _ => ?_
  split
  · next file hline => simp [hline, eq_comm]
  · next hline => simpa using fun file hfile => absurd hfile (hline file)

abbrev Outcome := Except ImportFault (List Source × List (List Text))

def Outcome.withFiles (files : List Source) (out : Outcome) : Outcome :=
  out.map (fun found => (files ++ found.1, found.2))

/-- The search that the lines of the file at a path start, of which the first has number `n`. -/
inductive Search (t : FileTree) :
    Text → Nat → List (List Text) → List Text → Outcome → Prop where
  | done {path : Text} {n : Nat} {seen : List (List Text)} :
      Search t path n seen [] (.ok ([], seen))
  | pass {path line : Text} {n : Nat} {seen : List (List Text)} {rest : List Text} {out : Outcome}
      (plain : asked t path line = none) (later : Search t path (n + 1) seen rest out) :
      Search t path n seen (line :: rest) out
  | refused {path line file : Text} {n : Nat} {seen : List (List Text)} {rest : List Text}
      {fault : FileFault} (unread : asked t path line = some (.error (file, fault))) :
      Search t path n seen (line :: rest) (.error ⟨path, n, file, fault⟩)
  | known {path line : Text} {n : Nat} {seen : List (List Text)} {rest : List Text} {f : Source}
      {out : Outcome} (found : asked t path line = some (.ok f)) (old : key f.path ∈ seen)
      (later : Search t path (n + 1) seen rest out) : Search t path n seen (line :: rest) out
  | broken {path line : Text} {n : Nat} {seen : List (List Text)} {rest : List Text} {f : Source}
      {fault : ImportFault} (found : asked t path line = some (.ok f))
      (fresh : key f.path ∉ seen)
      (inside : Search t f.path 1 (key f.path :: seen) f.text.lines (.error fault)) :
      Search t path n seen (line :: rest) (.error fault)
  | entered {path line : Text} {n : Nat} {seen after : List (List Text)} {rest : List Text}
      {f : Source} {files : List Source} {out : Outcome}
      (found : asked t path line = some (.ok f)) (fresh : key f.path ∉ seen)
      (inside : Search t f.path 1 (key f.path :: seen) f.text.lines (.ok (files, after)))
      (later : Search t path (n + 1) after rest out) :
      Search t path n seen (line :: rest) (out.withFiles (files ++ [f]))

/-!
# Agreement with expansion

Every expansion is a search, and a search has one outcome, so the two agree.
-/

/-- An expansion of lines shows the outcome of a search: its fault, or the files with their
directives blanked. -/
inductive Shows {t : FileTree} {seen : List (List Text)} (lines : List Text) :
    Except ImportFault (Expanded t seen) → Outcome → Prop where
  | fault (fault : ImportFault) : Shows lines (.error fault) (.error fault)
  | files {e : Expanded t seen} {files : List Source} (left : e.lines = lines.map Directive.blanked)
      (sources : e.sources = files.map Source.blanked) : Shows lines (.ok e) (.ok (files, e.seen))

theorem Shows.withLine {seen : List (List Text)} {left : Text} {rest : List Text}
    {x : Except ImportFault (Expanded t seen)} {out : Outcome} (h : Shows rest x out)
    (hleft : Directive.blanked line = left) :
    Shows (line :: rest) (x.map (Expanded.withLine left)) out := by
  cases h with
  | fault fault => exact .fault fault
  | @files e files hlines hsources =>
    refine .files (e := e.withLine left) ?_ hsources
    rw [Expanded.withLine, hlines, map_cons, hleft]

theorem Shows.withSources {before after : List (List Text)} {rest : List Text}
    {x : Except ImportFault (Expanded t after)} {out : Outcome} (h : Shows rest x out)
    {files : List Source} {sources : List Source} (hfiles : sources = files.map Source.blanked)
    (fewer : t.unseen after ≤ t.unseen before) :
    Shows rest (x.map (fun e => e.withSources sources fewer)) (out.withFiles files) := by
  cases h with
  | fault fault => exact .fault fault
  | @files e more hlines hsources =>
    refine .files (e := e.withSources sources fewer) hlines ?_
    rw [Expanded.withSources, hsources, hfiles, map_append]

theorem exists_search (t : FileTree) (path : Text) (n : Nat) (seen : List (List Text))
    (lines : List Text) :
    ∃ out, Search t path n seen lines out ∧ Shows lines (expandLines t path n seen lines) out := by
  fun_induction expandLines t path n seen lines with
  | case1 path n seen => exact ⟨_, .done, .files rfl rfl⟩
  | case2 path n seen line rest hline ih =>
    obtain ⟨out, hsearch, hshows⟩ := ih
    refine ⟨out, .pass (asked_eq_none_iff.mpr (by simp [hline])) hsearch, hshows.withLine ?_⟩
    simp [Directive.blanked, hline]
  | case3 path n seen line rest hline ih =>
    obtain ⟨out, hsearch, hshows⟩ := ih
    refine ⟨out, .pass (asked_eq_none_iff.mpr (by simp [hline])) hsearch, hshows.withLine ?_⟩
    simp [Directive.blanked, hline]
  | case4 path n seen line rest file hline target fault hread =>
    have hasked : asked t path line = some (.error (file, fault)) :=
      asked_eq_error_iff.mpr ⟨hline, hread⟩
    exact ⟨_, .refused hasked, .fault _⟩
  | case5 path n seen line rest file hline target contents hread hold ih =>
    have hasked : asked t path line = some (.ok ⟨target, contents⟩) :=
      asked_eq_ok_iff.mpr ⟨file, hline, rfl, hread⟩
    obtain ⟨out, hsearch, hshows⟩ := ih
    refine ⟨out, .known hasked hold hsearch, hshows.withLine ?_⟩
    simp [Directive.blanked, hline]
  | case6 path n seen line rest file hline target contents hread hfresh lt fault hinside ih =>
    have hasked : asked t path line = some (.ok ⟨target, contents⟩) :=
      asked_eq_ok_iff.mpr ⟨file, hline, rfl, hread⟩
    obtain ⟨out, hsearch, hshows⟩ := ih
    rw [hinside] at hshows
    cases hshows
    exact ⟨_, .broken hasked hfresh hsearch, .fault _⟩
  | case7 path n seen line rest file hline target contents hread hfresh lt needed hinside le this
      ih ihrest =>
      have hasked : asked t path line = some (.ok ⟨target, contents⟩) :=
        asked_eq_ok_iff.mpr ⟨file, hline, rfl, hread⟩
      obtain ⟨out, hsearch, hshows⟩ := ih
      obtain ⟨later, hlater, hshowsLater⟩ := ihrest
      rw [hinside] at hshows
      cases hshows with
      | @files _ files hlines hsources =>
        have hfiles : needed.sourcesOf target =
            (files ++ [Source.mk target contents]).map Source.blanked := by
          rw [Expanded.sourcesOf, hlines, hsources, map_append]
          rfl
        refine ⟨_, .entered hasked hfresh hsearch hlater, ?_⟩
        have hblank : Directive.blanked line = [] := by simp [Directive.blanked, hline]
        have hboth := (hshowsLater.withSources hfiles le).withLine hblank
        generalize expandLines t path (n + 1) needed.seen rest = x at hboth ⊢
        cases x <;> exact hboth

namespace Search

variable {t : FileTree} {path : Text} {n : Nat} {seen : List (List Text)} {lines : List Text}
  {out : Outcome}

theorem unique {other : Outcome} (h : Search t path n seen lines out)
    (hother : Search t path n seen lines other) : out = other := by
  induction h generalizing other with
  | done =>
    cases hother
    rfl
  | pass plain later ih =>
    cases hother with
    | pass _ later' => exact ih later'
    | _ => simp_all
  | refused unread => cases hother <;> simp_all
  | known found old later ih =>
    cases hother with
    | known found' _ later' => exact ih later'
    | _ => simp_all
  | broken found fresh inside ih =>
    cases hother with
    | broken found' _ inside' =>
      cases found.symm.trans found'
      exact ih inside'
    | entered found' _ inside' _ =>
      cases found.symm.trans found'
      cases ih inside'
    | _ => simp_all
  | entered found fresh inside later ih ihlater =>
    cases hother with
    | broken found' _ inside' =>
      cases found.symm.trans found'
      cases ih inside'
    | entered found' _ inside' later' =>
      cases found.symm.trans found'
      cases ih inside'
      rw [ihlater later']
    | _ => simp_all

theorem subset {files : List Source} {after : List (List Text)}
    (h : Search t path n seen lines (.ok (files, after))) : seen ⊆ after := by
  generalize hout : Except.ok (files, after) = out at h
  induction h generalizing files after with
  | done =>
    cases hout
    exact List.Subset.refl _
  | pass _ _ ih => exact ih hout
  | refused _ => cases hout
  | known _ _ _ ih => exact ih hout
  | broken _ _ _ _ => cases hout
  | @entered _ _ _ _ _ _ _ _ out _ _ _ _ ih ihlater =>
    cases out with
    | error fault => cases hout
    | ok found =>
      cases hout
      exact fun k hk => ihlater rfl (ih rfl (mem_cons_of_mem _ hk))

theorem append_plain {more : List Text} (h : Search t path n seen lines out)
    (hplain : ∀ line ∈ more, asked t path line = none) :
    Search t path n seen (lines ++ more) out := by
  induction h with
  | @done path n seen =>
    rw [nil_append]
    induction more generalizing n with
    | nil => exact .done
    | cons line more ih =>
      exact .pass (hplain line mem_cons_self)
        (ih fun line hline => hplain line (mem_cons_of_mem _ hline))
  | pass plain _ ih => exact .pass plain (ih hplain)
  | refused unread => exact .refused unread
  | known found old _ ih => exact .known found old (ih hplain)
  | broken found fresh inside _ => exact .broken found fresh inside
  | entered found fresh inside _ _ ih => exact .entered found fresh inside (ih hplain)

theorem shows (h : Search t path n seen lines out) :
    Shows lines (expandLines t path n seen lines) out := by
  obtain ⟨other, hother, hshows⟩ := exists_search t path n seen lines
  rw [h.unique hother]
  exact hshows

theorem expand_eq {contents : Text} (h : Search t path 1 [key path] contents.lines out) :
    expand t path contents =
      out.map (fun found => (found.1 ++ [⟨path, contents⟩]).map Source.blanked) := by
  have hshows := h.shows
  rw [expand]
  generalize expandLines t path 1 [key path] contents.lines = x at hshows
  cases hshows with
  | fault fault => rfl
  | files hlines hsources =>
    simp [Except.map, Expanded.sourcesOf, hlines, hsources, Source.blanked]

end Search

end Import
end CoolCompiler
