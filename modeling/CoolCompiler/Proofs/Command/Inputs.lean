import CoolCompiler.Command.Inputs
import CoolCompiler.Proofs.Import.Pruning

/-!
# Inputs taken together

Each input is expanded on its own, and a file that comes up again is passed over.  This gives the
program of inputs that are expanded one after the other, each with the files before it seen.
-/

namespace CoolCompiler.Command

open List Import
open CoolCompiler.Path (key)

def sourcesTogether (t : FileTree) (seen : List (List Text)) :
    List Text → Except InputFault (List Source)
  | [] => .ok []
  | path :: paths =>
    match t.read path with
    | .error fault => .error (.unreadable path fault)
    | .ok contents =>
      if seen.contains (key path) then sourcesTogether t seen paths
      else
        match expandLines t path 1 (key path :: seen) contents.lines with
        | .error fault => .error (.notImported fault)
        | .ok e => (sourcesTogether t e.seen paths).map fun more => e.sourcesOf path ++ more

/-!
# Sources that come up for the first time
-/

variable {old seen : List (List Text)} {t : FileTree} {contents path : Text}

theorem firstSources_cons_of_mem {s : Source} (h : key s.path ∈ seen) (rest : List Source) :
    firstSources seen (s :: rest) = firstSources seen rest :=
  if_pos h

theorem firstSources_cons_of_not_mem {s : Source} (h : key s.path ∉ seen) (rest : List Source) :
    firstSources seen (s :: rest) = s :: firstSources (key s.path :: seen) rest :=
  if_neg h

theorem firstSources_congr {other : List (List Text)} (h : ∀ k, k ∈ seen ↔ k ∈ other)
    (sources : List Source) : firstSources seen sources = firstSources other sources := by
  induction sources generalizing seen other with
  | nil => rfl
  | cons s rest ih =>
    by_cases hold : key s.path ∈ seen
    · rw [firstSources_cons_of_mem hold, firstSources_cons_of_mem ((h _).mp hold), ih h]
    · have hcons : ∀ k, k ∈ key s.path :: seen ↔ k ∈ key s.path :: other := by
        intro k
        rw [mem_cons, mem_cons, h]
      have hother : key s.path ∉ other := fun hmem => hold ((h _).mpr hmem)
      rw [firstSources_cons_of_not_mem hold, firstSources_cons_of_not_mem hother, ih hcons]

theorem firstSources_append (seen : List (List Text)) (front back : List Source) :
    firstSources seen (front ++ back) =
      firstSources seen front ++
        firstSources (front.map (fun s => key s.path) ++ seen) back := by
  induction front generalizing seen with
  | nil => rfl
  | cons s rest ih =>
    rw [cons_append]
    by_cases hold : key s.path ∈ seen
    · rw [firstSources_cons_of_mem hold, firstSources_cons_of_mem hold, ih]
      congr 1
      apply firstSources_congr
      intro k
      simp only [map_cons, cons_append, mem_cons, mem_append]
      constructor
      · exact .inr
      · rintro (rfl | hk)
        · exact .inr hold
        · exact hk
    · rw [firstSources_cons_of_not_mem hold, firstSources_cons_of_not_mem hold, ih,
        cons_append]
      congr 2
      apply firstSources_congr
      intro k
      simp only [map_cons, cons_append, mem_cons, mem_append]
      exact or_left_comm

theorem firstSources_of_seen {sources : List Source} (h : ∀ s ∈ sources, key s.path ∈ seen)
    (more : List Source) : firstSources seen (sources ++ more) = firstSources seen more := by
  induction sources with
  | nil => rfl
  | cons s rest ih =>
    rw [cons_append, firstSources_cons_of_mem (h s mem_cons_self)]
    exact ih fun s' hs' => h s' (mem_cons_of_mem s hs')

theorem firstSources_of_distinct (seen : List (List Text)) {sources : List Source}
    (h : sources.Pairwise fun s s' => key s.path ≠ key s'.path) :
    firstSources seen sources = without seen sources := by
  induction sources generalizing seen with
  | nil => rfl
  | cons s rest ih =>
    obtain ⟨hne, hrest⟩ := pairwise_cons.mp h
    by_cases hold : key s.path ∈ seen
    · rw [firstSources_cons_of_mem hold, ih seen hrest]
      simp [without, hold]
    · have hsame : without (key s.path :: seen) rest = without seen rest := by
        apply filter_congr
        intro s' hs'
        simp [Ne.symm (hne s' hs')]
      rw [firstSources_cons_of_not_mem hold, ih _ hrest, hsame]
      simp [without, hold]

theorem map_blanked_without (old : List (List Text)) (files : List Source) :
    (without old files).map Source.blanked = without old (files.map Source.blanked) := by
  rw [without, without, filter_map]
  rfl

/-!
# One input
-/

theorem sourcesOfInput_eq {out : Outcome} (hread : t.read path = .ok contents)
    (h : Search t path 1 [key path] contents.lines out) :
    sourcesOfInput t path =
      (out.map fun found => (found.1 ++ [⟨path, contents⟩]).map Source.blanked).mapError
        InputFault.notImported := by
  rw [sourcesOfInput, hread]
  dsimp only
  rw [h.expand_eq]
  cases out <;> rfl

theorem firstSources_of_prunes {root : Source} {files : List Source} {after all : List (List Text)}
    (hsearch : Search t root.path 1 [key root.path] root.text.lines (.ok (files, after)))
    (hnew : key root.path ∉ old) (hall : ∀ k, k ∈ all ↔ k ∈ after ∨ k ∈ old)
    (more : List Source) :
    firstSources old ((files ++ [root]).map Source.blanked ++ more) =
      (without old files ++ [root]).map Source.blanked ++ firstSources all more := by
  obtain ⟨_, _, hvisits⟩ := hsearch.visits
  have hdistinct : ((files ++ [root]).map Source.blanked).Pairwise
      fun s s' => key s.path ≠ key s'.path :=
    pairwise_map.mpr hsearch.complete.distinct
  have hkept : without old (files ++ [root]) = without old files ++ [root] := by
    simp [without, hnew]
  have hkeys : ∀ k,
      k ∈ ((files ++ [root]).map Source.blanked).map (fun s => key s.path) ++ old ↔
        k ∈ all := by
    intro k
    rw [hall, hvisits.mem_after_iff, mem_append, map_map, mem_map]
    refine or_congr_left ?_
    simp only [mem_append, mem_singleton]
    constructor
    · rintro ⟨f, hf | rfl, rfl⟩
      · exact .inr ⟨f, hf, rfl⟩
      · exact .inl rfl
    · rintro (rfl | ⟨f, hf, rfl⟩)
      · exact ⟨root, .inr rfl, rfl⟩
      · exact ⟨f, .inl hf, rfl⟩
  rw [firstSources_append, firstSources_of_distinct old hdistinct, ← map_blanked_without, hkept,
    firstSources_congr hkeys]

theorem sourcesOfInput_of_seen (hclosed : Closed t old) (hread : t.read path = .ok contents)
    (hold : key path ∈ old) :
    ∃ sources, sourcesOfInput t path = .ok sources ∧ ∀ s ∈ sources, key s.path ∈ old := by
  obtain ⟨out, hsearch, _⟩ := exists_search t path 1 [key path] contents.lines
  obtain ⟨files, after, rfl, hfiles, _⟩ := hsearch.stay hclosed (hclosed.stays hread hold)
  refine ⟨_, sourcesOfInput_eq hread hsearch, ?_⟩
  intro s hs
  obtain ⟨f, hf, rfl⟩ := mem_map.mp hs
  rcases mem_append.mp hf with hf | hf
  · exact hfiles f hf
  · rw [mem_singleton.mp hf]
    exact hold

theorem sourcesOfInput_of_new (hclosed : Closed t old) (hread : t.read path = .ok contents)
    (hnew : key path ∉ old) :
    (∃ fault, sourcesOfInput t path = .error (.notImported fault) ∧
        expandLines t path 1 (key path :: old) contents.lines = .error fault) ∨
      ∃ sources e, sourcesOfInput t path = .ok sources ∧
        expandLines t path 1 (key path :: old) contents.lines = .ok e ∧ Closed t e.seen ∧
        ∀ more, firstSources old (sources ++ more) =
          e.sourcesOf path ++ firstSources e.seen more := by
  let root : Source := ⟨path, contents⟩
  have hfound : ∃ out, Search t root.path 1 [key root.path] root.text.lines out := by
    obtain ⟨out, hsearch, _⟩ := exists_search t path 1 [key path] contents.lines
    exact ⟨out, hsearch⟩
  obtain ⟨out, hsearch⟩ := hfound
  have hinput := sourcesOfInput_eq hread hsearch
  have hstart : ∀ k, k ∈ key path :: old ↔ k ∈ [key path] ∨ k ∈ old := by
    intro k
    rw [mem_cons, mem_singleton]
  obtain ⟨other, hother, hprunes⟩ := hsearch.prune hclosed hstart
  have hshows := hother.shows
  generalize expandLines t path 1 (key path :: old) contents.lines = x at hshows ⊢
  cases hprunes with
  | fault fault =>
    cases hshows
    exact .inl ⟨fault, hinput, rfl⟩
  | @files files after all hall =>
    cases hshows with
    | @files e _ hlines hsources =>
      have hown : e.sourcesOf path = (without old files ++ [root]).map Source.blanked := by
        rw [Expanded.sourcesOf, hlines, hsources, map_append]
        rfl
      refine .inr ⟨_, e, hinput, rfl, hclosed.union (hsearch.closed hread) hall, ?_⟩
      intro more
      rw [hown]
      exact firstSources_of_prunes hsearch hnew hall more

/-!
# Several inputs
-/

theorem sourcesTogether_eq (t : FileTree) (hclosed : Closed t old) (paths : List Text) :
    sourcesTogether t old paths = (sourcesOfInputs t paths).map (firstSources old) := by
  induction paths generalizing old with
  | nil => rfl
  | cons path paths ih =>
    rw [sourcesTogether, sourcesOfInputs]
    cases hread : t.read path with
    | error fault =>
      rw [sourcesOfInput, hread]
      rfl
    | ok contents =>
      dsimp only
      split
      · next hcontains =>
        have hold : key path ∈ old := contains_iff_mem.mp hcontains
        obtain ⟨sources, hinput, hseen⟩ := sourcesOfInput_of_seen hclosed hread hold
        rw [hinput, ih hclosed]
        cases sourcesOfInputs t paths with
        | error fault => rfl
        | ok more => exact congrArg Except.ok (firstSources_of_seen hseen more).symm
      · next hcontains =>
        have hnew : key path ∉ old :=
          fun hmem => hcontains (contains_iff_mem.mpr hmem)
        rcases sourcesOfInput_of_new hclosed hread hnew with
          ⟨fault, hinput, hexpand⟩ | ⟨sources, e, hinput, hexpand, hseen, hfirst⟩
        · rw [hinput, hexpand]
          rfl
        · rw [hinput, hexpand]
          dsimp only
          rw [ih hseen]
          cases sourcesOfInputs t paths with
          | error fault => rfl
          | ok more => exact congrArg Except.ok (hfirst more).symm

def InputReadable (t : FileTree) (path : Text) : Prop :=
  ∃ contents, t.read path = .ok contents ∧
    ∀ f, Reaches t ⟨path, contents⟩ ⟨path, contents⟩ f → Readable t f

theorem exists_sourcesOfInput_iff (t : FileTree) (path : Text) :
    (∃ sources, sourcesOfInput t path = .ok sources) ↔ InputReadable t path := by
  cases hread : t.read path with
  | error fault => simp [sourcesOfInput, InputReadable, hread]
  | ok contents =>
    have hexpand := exists_expand_iff t ⟨path, contents⟩
    have hinput : InputReadable t path ↔
        ∀ f, Reaches t ⟨path, contents⟩ ⟨path, contents⟩ f → Readable t f := by
      simp [InputReadable, hread]
    rw [hinput, ← hexpand, sourcesOfInput, hread]
    dsimp only
    cases expand t path contents <;> simp

theorem exists_sourcesOfInputs_iff (t : FileTree) (paths : List Text) :
    (∃ sources, sourcesOfInputs t paths = .ok sources) ↔ ∀ path ∈ paths, InputReadable t path := by
  induction paths with
  | nil => simp [sourcesOfInputs]
  | cons path paths ih =>
    rw [forall_mem_cons, ← ih, ← exists_sourcesOfInput_iff, sourcesOfInputs]
    cases sourcesOfInput t path with
    | error fault => simp
    | ok sources => cases sourcesOfInputs t paths <;> simp

/-- The program that inputs make up is that of the sources that they bring together, whatever
files they share.  There is one exactly when every input can be read, like all that it needs. -/
theorem readProgram_eq_together (t : FileTree) (paths : List Text) :
    readProgram t paths = (sourcesTogether t [] paths).map parseSources ∧
    ((∃ program, readProgram t paths = .ok program) ↔ ∀ path ∈ paths, InputReadable t path) := by
  constructor
  · rw [sourcesTogether_eq t closed_nil paths, readProgram]
    cases sourcesOfInputs t paths <;> rfl
  · rw [← exists_sourcesOfInputs_iff, readProgram]
    cases sourcesOfInputs t paths <;> simp [Except.map]

end CoolCompiler.Command
