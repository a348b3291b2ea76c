import CoolCompiler.Proofs.Import.Reach

/-!
# Searches that start with files seen

A set of files that name only each other is never left.  So a search that starts with such a set
seen differs from one without only by its files.
-/

namespace CoolCompiler.Import

open List
open CoolCompiler.Path (key)

variable {t : FileTree} {path : Text} {n : Nat} {seen old : List (List Text)} {lines : List Text}
  {out : Outcome}

def Stays (t : FileTree) (old : List (List Text)) (path : Text) (lines : List Text) : Prop :=
  ∀ line ∈ lines, ∀ r, asked t path line = some r → ∃ f, r = .ok f ∧ key f.path ∈ old

def Closed (t : FileTree) (old : List (List Text)) : Prop :=
  ∀ f, InTree t f → key f.path ∈ old → Stays t old f.path f.text.lines

theorem closed_nil : Closed t [] := fun _ _ hmem => absurd hmem not_mem_nil

variable {after all : List (List Text)} {contents : Text}

theorem Stays.mono (h : Stays t old path lines) (hsub : old ⊆ all) : Stays t all path lines := by
  intro line hline r hr
  obtain ⟨f, hf, hold⟩ := h line hline r hr
  exact ⟨f, hf, hsub hold⟩

theorem Stays.tail {line : Text} (h : Stays t old path (line :: lines)) : Stays t old path lines :=
  fun other hother => h other (mem_cons_of_mem line hother)

theorem Wants.stays {wanted : List Source} (h : Wants t path lines wanted)
    (hold : ∀ w ∈ wanted, key w.path ∈ old) : Stays t old path lines := by
  intro line hline r hr
  cases r with
  | error e => exact absurd hr (h.readable hline)
  | ok f => exact ⟨f, rfl, hold f (h.mem_iff.mpr ⟨line, hline, hr⟩)⟩

theorem Closed.union {other : List (List Text)} (h : Closed t old) (hother : Closed t other)
    (hall : ∀ k, k ∈ all ↔ k ∈ other ∨ k ∈ old) : Closed t all := by
  intro f hf hmem
  rcases (hall _).mp hmem with hmem | hmem
  · exact (hother f hf hmem).mono fun k hk => (hall k).mpr (.inl hk)
  · exact (h f hf hmem).mono fun k hk => (hall k).mpr (.inr hk)

theorem asked_clean (hread : t.read path = .ok contents) (line : Text) :
    asked t (Path.clean path) line = asked t path line := by
  rw [asked, asked, (FileTree.readClean_clean hread).2]

theorem inTree_clean (hread : t.read path = .ok contents) : InTree t ⟨Path.clean path, contents⟩ :=
  ⟨Path.clean_clean path, (FileTree.readClean_clean hread).1⟩

theorem Closed.stays (h : Closed t old) (hread : t.read path = .ok contents)
    (hold : key path ∈ old) : Stays t old path contents.lines := by
  have hkey : key (Path.clean path) ∈ old := by
    rw [Path.key_clean]
    exact hold
  intro line hline r hr
  rw [← asked_clean hread] at hr
  exact h _ (inTree_clean hread) hkey line hline r hr

theorem Search.closed {files : List Source}
    (h : Search t path 1 [key path] contents.lines (.ok (files, after)))
    (hread : t.read path = .ok contents) : Closed t after := by
  obtain ⟨wanted, hwants, hvisits⟩ := h.visits
  intro f hf hmem
  rcases hvisits.mem_after_iff.mp hmem with hroot | ⟨g, hg, hkey⟩
  · have hclean : key (Path.clean path) = key f.path := by
      rw [Path.key_clean]
      exact (mem_singleton.mp hroot).symm
    rw [← (inTree_clean hread).ext hf hclean]
    intro line hline r hr
    rw [asked_clean hread] at hr
    exact hwants.stays (fun w hw => hvisits.wanted_mem_after hw) line hline r hr
  · rw [← (hvisits.inTree hwants.inTree hg).ext hf hkey]
    obtain ⟨named, hnamed, hafter⟩ := hvisits.closed hg
    exact hnamed.stays hafter

/-!
# Staying and pruning
-/

theorem union_of_cons {x : List Text} (hx : x ∈ old) (h : ∀ k ∈ after, k ∈ x :: seen ∨ k ∈ old) :
    ∀ k ∈ after, k ∈ seen ∨ k ∈ old := by
  intro k hk
  rcases h k hk with hk | hk
  · rcases mem_cons.mp hk with rfl | hk
    · exact .inr hx
    · exact .inl hk
  · exact .inr hk

theorem Search.stay (h : Search t path n seen lines out) (hclosed : Closed t old)
    (hstays : Stays t old path lines) :
    ∃ files after, out = .ok (files, after) ∧ (∀ f ∈ files, key f.path ∈ old) ∧
      ∀ k ∈ after, k ∈ seen ∨ k ∈ old := by
  induction h with
  | @done _ _ seen => exact ⟨[], seen, rfl, by simp, fun k hk => .inl hk⟩
  | pass _ _ ih => exact ih hstays.tail
  | refused unread =>
    obtain ⟨f, hf, _⟩ := hstays _ mem_cons_self _ unread
    cases hf
  | known _ _ _ ih => exact ih hstays.tail
  | broken found _ _ ih =>
    obtain ⟨f, hf, hold⟩ := hstays _ mem_cons_self _ found
    cases hf
    obtain ⟨files, after, hout, _⟩ := ih (hclosed _ (asked_inTree found) hold)
    cases hout
  | @entered _ _ _ seen _ _ f inner _ found _ _ _ ih ihlater =>
    obtain ⟨f, hf, hold⟩ := hstays _ mem_cons_self _ found
    cases hf
    obtain ⟨_, between, hout, hinner, hbetween⟩ := ih (hclosed _ (asked_inTree found) hold)
    cases hout
    obtain ⟨files, after, rfl, hfiles, hafter⟩ := ihlater hstays.tail
    refine ⟨_, after, rfl, ?_, ?_⟩
    · intro g hg
      simp only [mem_append, mem_singleton] at hg
      rcases hg with (hg | rfl) | hg
      · exact hinner g hg
      · exact hold
      · exact hfiles g hg
    · intro k hk
      rcases hafter k hk with hk | hk
      · exact union_of_cons hold hbetween k hk
      · exact .inr hk

def without (old : List (List Text)) (files : List Source) : List Source :=
  files.filter fun f => !old.contains (key f.path)

inductive Prunes (old : List (List Text)) : Outcome → Outcome → Prop where
  | fault (fault : ImportFault) : Prunes old (.error fault) (.error fault)
  | files {files : List Source} {after all : List (List Text)}
      (seen : ∀ k, k ∈ all ↔ k ∈ after ∨ k ∈ old) :
      Prunes old (.ok (files, after)) (.ok (without old files, all))

theorem Prunes.withFiles {other : Outcome} (h : Prunes old out other) (files : List Source) :
    Prunes old (out.withFiles files) (other.withFiles (without old files)) := by
  cases h with
  | fault fault => exact .fault fault
  | @files more after all hseen =>
    have hmore : without old files ++ without old more = without old (files ++ more) :=
      (filter_append files more).symm
    show Prunes old _ (.ok (without old files ++ without old more, all))
    rw [hmore]
    exact .files hseen

theorem union_cons (hall : ∀ k, k ∈ all ↔ k ∈ seen ∨ k ∈ old) (x : List Text) :
    ∀ k, k ∈ x :: all ↔ k ∈ x :: seen ∨ k ∈ old := by
  intro k
  rw [mem_cons, mem_cons, hall, or_assoc]

theorem Search.prune (h : Search t path n seen lines out) (hclosed : Closed t old)
    (hall : ∀ k, k ∈ all ↔ k ∈ seen ∨ k ∈ old) :
    ∃ other, Search t path n all lines other ∧ Prunes old out other := by
  induction h generalizing all with
  | done => exact ⟨_, .done, .files hall⟩
  | pass plain _ ih =>
    obtain ⟨other, hsearch, hprunes⟩ := ih hall
    exact ⟨other, .pass plain hsearch, hprunes⟩
  | refused unread => exact ⟨_, .refused unread, .fault _⟩
  | known found hold _ ih =>
    obtain ⟨other, hsearch, hprunes⟩ := ih hall
    exact ⟨other, .known found ((hall _).mpr (.inl hold)) hsearch, hprunes⟩
  | @broken _ _ _ seen _ f fault found fresh inside ih =>
    -- a search inside the set would have ended well
    have hnew : key f.path ∉ old := by
      intro hold
      obtain ⟨_, _, hout, _⟩ := inside.stay hclosed (hclosed f (asked_inTree found) hold)
      cases hout
    obtain ⟨other, hsearch, hprunes⟩ := ih (union_cons hall _)
    cases hprunes
    refine ⟨_, .broken found ?_ hsearch, .fault _⟩
    rw [hall]
    exact not_or.mpr ⟨fresh, hnew⟩
  | @entered _ _ _ seen after _ f files _ found fresh inside _ ih ihlater =>
    by_cases hold : key f.path ∈ old
    · -- the search inside the set adds nothing that counts
      rcases inside.stay hclosed (hclosed f (asked_inTree found) hold) with
        ⟨_, _, hout, hfiles, hafter⟩
      cases hout
      have hall' : ∀ k, k ∈ all ↔ k ∈ after ∨ k ∈ old := by
        intro k
        rw [hall]
        constructor
        · rintro (hk | hk)
          · exact .inl (inside.subset (mem_cons_of_mem _ hk))
          · exact .inr hk
        · rintro (hk | hk)
          · exact union_of_cons hold hafter k hk
          · exact .inr hk
      obtain ⟨other, hsearch, hprunes⟩ := ihlater hall'
      refine ⟨other, .known found ((hall _).mpr (.inr hold)) hsearch, ?_⟩
      have hnone : without old (files ++ [f]) = [] := by
        rw [without, filter_eq_nil_iff]
        intro g hg
        rcases mem_append.mp hg with hg | hg
        · simpa using hfiles g hg
        · simpa [mem_singleton.mp hg] using hold
      have hwith := hprunes.withFiles (files ++ [f])
      rw [hnone] at hwith
      cases other <;> exact hwith
    · obtain ⟨_, hsearch, hprunes⟩ := ih (union_cons hall _)
      cases hprunes with
      | files hbetween =>
        obtain ⟨other, hlater, hprunes⟩ := ihlater hbetween
        have hnew : key f.path ∉ all := by
          rw [hall]
          exact not_or.mpr ⟨fresh, hold⟩
        refine ⟨_, .entered found hnew hsearch hlater, ?_⟩
        have hkept : without old (files ++ [f]) = without old files ++ [f] := by
          simp [without, hold]
        rw [← hkept]
        exact hprunes.withFiles (files ++ [f])

end CoolCompiler.Import
