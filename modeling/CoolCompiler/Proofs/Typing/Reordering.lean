import CoolCompiler.Proofs.Typing.Agreement
import CoolCompiler.Proofs.Typing.Analysis

/-!
# Classes in another order

An analysis of distinct classes does not depend on their order.  What is said of a heading depends
on the class and on what names there are.  What is said of features depends on ancestors, which come
first, so the symbols of two orders agree in the end.
-/

namespace CoolCompiler

open List AnalysisNote Symbols

namespace Typing

def redefinition? (c : Class) : Option Diagnostic :=
  if Name.isBasic c.name ∨ c.name = Name.selfType then
    some ⟨some (c.file, c.line), .redefinesBasic c.name⟩
  else none

def named (p : List Class) : List Class := p.filter fun c => (redefinition? c).isNone

theorem register_distinct {s : Symbols} {c : Class}
    (hfresh : redefinition? c = none → s.classes.has c.name = false) :
    (register s c).2.2.diagnostic? = redefinition? c ∧ (register s c).2.1 = named [c] ∧
      ∀ x, (register s c).1.classes.has x =
        (s.classes.has x || decide (x ∈ (named [c]).map Class.name)) := by
  by_cases hbasic : Name.isBasic c.name ∨ c.name = Name.selfType
  · have hredefined : redefinition? c = some _ := if_pos hbasic
    have hnone : named [c] = [] := by simp [named, hredefined]
    rw [register, if_pos hbasic, hredefined, hnone]
    exact ⟨rfl, rfl, by simp⟩
  · have hredefined : redefinition? c = none := if_neg hbasic
    have hone : named [c] = [c] := by simp [named, hredefined]
    rw [register, if_neg hbasic, if_neg (by rw [hfresh hredefined]; decide), hredefined, hone]
    refine ⟨rfl, rfl, ?_⟩
    intro x
    have hput : (s.putClass (ClassSymbol.bare c)).classes.has x =
        (decide (x = c.name) || s.classes.has x) := Dictionary.has_put _ _ _ x
    rw [hput, Bool.or_comm]
    simp

theorem registerAll_distinct {s : Symbols} {p : List Class} (hnodup : (p.map Class.name).Nodup)
    (hfresh : ∀ c ∈ p, redefinition? c = none → s.classes.has c.name = false) :
    (registerAll s p).2.2.filterMap diagnostic? = p.filterMap redefinition? ∧
      (registerAll s p).2.1 = named p ∧
      ∀ x, (registerAll s p).1.classes.has x =
        (s.classes.has x || decide (x ∈ (named p).map Class.name)) := by
  induction p generalizing s with
  | nil => exact ⟨rfl, rfl, by simp [registerAll, named]⟩
  | cons c cs ih =>
    rw [map_cons, nodup_cons] at hnodup
    rw [forall_mem_cons] at hfresh
    obtain ⟨hfound, hnew, hhas⟩ := register_distinct hfresh.1
    have hfresh' : ∀ d ∈ cs, redefinition? d = none →
        (register s c).1.classes.has d.name = false := by
      intro d hd hown
      have hne : d.name ∉ (named [c]).map Class.name := by
        intro hmem
        obtain ⟨b, hb, hname⟩ := mem_map.mp hmem
        rw [mem_singleton.mp (mem_of_mem_filter hb)] at hname
        exact hnodup.1 (hname ▸ mem_map_of_mem hd)
      rw [hhas, hfresh.2 d hd hown, decide_eq_false hne]
      rfl
    obtain ⟨hfound', hnew', hhas'⟩ := ih hnodup.2 hfresh'
    have happend : named (c :: cs) = named [c] ++ named cs := filter_append [c] cs
    refine ⟨?_, ?_, ?_⟩
    · show ((register s c).2.2 :: (registerAll (register s c).1 cs).2.2).filterMap _ = _
      rw [filterMap_cons, filterMap_cons, hfound, hfound']
    · show (register s c).2.1 ++ (registerAll (register s c).1 cs).2.1 = _
      rw [hnew, hnew', happend]
    · intro x
      show (registerAll (register s c).1 cs).1.classes.has x = _
      rw [hhas', hhas, happend, map_append, Bool.or_assoc]
      congr 1
      rw [Bool.eq_iff_iff]
      simp

def headingFindings (p : Program) : List Diagnostic :=
  (registerAll initial p).2.2.filterMap diagnostic? ++
    (linkParents (registerAll initial p).1 (registerAll initial p).2.1).2

section Orders

variable {p q : Program}

theorem eq_nil_iff_of_perm {α : Type} {l l' : List α} (h : l.Perm l') : l = [] ↔ l' = [] := by
  rw [← length_eq_zero_iff, h.length_eq, length_eq_zero_iff]

theorem fresh_of_not_redefined {c : Class} (h : redefinition? c = none) :
    initial.classes.has c.name = false := by
  rw [has_initial]
  unfold redefinition? at h
  split at h
  · cases h
  · rename_i hbasic
    simpa using (not_or.mp hbasic).1

theorem headingFindings_perm (hnodup : (p.map Class.name).Nodup) (hperm : p.Perm q) :
    (headingFindings p).Perm (headingFindings q) := by
  have hnodup' : (q.map Class.name).Nodup := (hperm.map _).nodup_iff.mp hnodup
  rcases registerAll_distinct hnodup (s := initial)
    (fun c _ => fresh_of_not_redefined) with ⟨hfound, hnew, hhas⟩
  rcases registerAll_distinct hnodup' (s := initial)
    (fun c _ => fresh_of_not_redefined) with ⟨hfound', hnew', hhas'⟩
  have hnamed : (named p).Perm (named q) := hperm.filter _
  have hsame : ∀ x, (registerAll initial p).1.classes.has x =
      (registerAll initial q).1.classes.has x := by
    intro x
    rw [hhas, hhas']
    simp only [(hnamed.map Class.name).mem_iff]
  rw [headingFindings, headingFindings, hfound, hfound', hnew, hnew', linkParents_found,
    linkParents_found]
  refine (hperm.filterMap _).append ?_
  simp only [linkParent_found hsame]
  exact hnamed.flatMap_right _

theorem agree_of_perm {α : Type} {value : Class → α} {f g rest : Name → Option α}
    (hperm : p.Perm q) (hf : ∀ c ∈ p, f c.name = some (value c))
    (hg : ∀ c ∈ q, g c.name = some (value c)) (hf' : ∀ x, x ∉ p.map Class.name → f x = rest x)
    (hg' : ∀ x, x ∉ q.map Class.name → g x = rest x) (x : Name) : f x = g x := by
  by_cases hx : x ∈ p.map Class.name
  · obtain ⟨c, hc, rfl⟩ := mem_map.mp hx
    rw [hf c hc, hg c (hperm.mem_iff.mp hc)]
  · rw [hf' x hx, hg' x fun hmem => hx ((hperm.map _).mem_iff.mpr hmem)]

/-!
# The class graph
-/

theorem ancestry_congr {g g' : Inheritance} (h : ∀ x, g.parents.find? x = g'.parents.find? x) :
    g.Ancestry = g'.Ancestry := by
  have hparent : g.parent? = g'.parent? := by
    funext x
    simp only [Inheritance.parent?, h]
  rw [Inheritance.Ancestry, hparent]

theorem hasCycle_congr {g g' : Inheritance} (h : ∀ x, g.parents.find? x = g'.parents.find? x)
    {c : Name} (hempty : c ≠ []) (hnone : c ≠ Name.noClass) : g.hasCycle c = g'.hasCycle c := by
  have hiff : ∀ i : Inheritance, i.hasCycle c = false ↔ ∃ line, i.Ancestry c line := fun i =>
    ⟨fun hcycle => Inheritance.exists_ancestry hcycle hempty hnone,
      fun ⟨_, hline⟩ => Inheritance.hasCycle_eq_false hline hempty hnone⟩
  have hsame : g.hasCycle c = false ↔ g'.hasCycle c = false := by
    rw [hiff, hiff, ancestry_congr h]
  cases hcycle : g.hasCycle c with
  | false => rw [hsame.mp hcycle]
  | true =>
    cases hcycle' : g'.hasCycle c with
    | false => rw [hsame.mpr hcycle'] at hcycle; cases hcycle
    | true => rfl

def graphFindings (p : Program) : List Diagnostic :=
  (Analysis.fresh.classGraph p).2.filterMap diagnostic?

theorem graphFindings_eq (p : Program) :
    graphFindings p = if headingFindings p = [] then
      cycles (Analysis.fresh.classGraph p).1 (registerAll initial p).2.1
      else headingFindings p := by
  let notes := (registerAll initial p).2.2 ++ (linkParents (registerAll initial p).1
    (registerAll initial p).2.1).2.map diagnosed
  let found := cycles (Analysis.fresh.classGraph p).1 (registerAll initial p).2.1
  have hnotes : (Analysis.fresh.classGraph p).2 =
      if Analysis.fresh.faulty notes then notes else notes ++ found.map .diagnosed := rfl
  have hheadings : notes.filterMap diagnostic? = headingFindings p := by
    rw [filterMap_append, filterMap_diagnosed]
    rfl
  have hfaulty : Analysis.fresh.faulty notes = false ↔ headingFindings p = [] := by
    rw [← hheadings]
    exact faulty_eq_false_iff
  rw [graphFindings, hnotes]
  by_cases hclean : headingFindings p = []
  · rw [if_neg (by rw [hfaulty.mpr hclean]; decide), if_pos hclean, filterMap_append, hheadings,
      hclean, filterMap_diagnosed]
    rfl
  · rw [if_pos (by simpa using mt hfaulty.mp hclean), if_neg hclean, hheadings]

/-- The symbols have the classes of a program as declared, each below its parent, and else only the
built-in ones. -/
structure Entered (p : Program) (s : Symbols) : Prop where
  classes : ∀ c ∈ p, s.classes.find? c.name = some (ClassSymbol.bare c)
  otherClasses : ∀ x, x ∉ p.map Class.name → s.classes.find? x = initial.classes.find? x
  parents : ∀ c ∈ p, s.inheritance.parents.find? c.name = some c.parentName
  otherParents : ∀ x, x ∉ p.map Class.name →
    s.inheritance.parents.find? x = initial.inheritance.parents.find? x

theorem classGraph_symbols (hnew : (registerAll initial p).2.1 = p) :
    (Analysis.fresh.classGraph p).1 = (linkParents (registerAll initial p).1 p).1 := by
  nth_rewrite 3 [← hnew]
  rfl

theorem entered_of_headings (h : headingFindings p = []) :
    (registerAll initial p).2.1 = p ∧ Entered p (Analysis.fresh.classGraph p).1 := by
  rw [headingFindings, append_eq_nil_iff] at h
  obtain ⟨hnew, hinherit, _, hnodup, hfind, hother⟩ := registerAll_spec h.1
  rw [hnew] at h
  obtain ⟨hclasses, _, hlinked, hunlinked⟩ := linkParents_spec h.2 hnodup
  rw [classGraph_symbols hnew]
  refine ⟨hnew, ?_, ?_, hlinked, ?_⟩
  · rw [hclasses]
    exact hfind
  · rw [hclasses]
    exact hother
  · rw [← hinherit]
    exact hunlinked

theorem Entered.parents_eq {s s' : Symbols} (h : Entered p s) (h' : Entered q s')
    (hperm : p.Perm q) (x : Name) :
    s.inheritance.parents.find? x = s'.inheritance.parents.find? x :=
  agree_of_perm hperm h.parents h'.parents h.otherParents h'.otherParents x

theorem cycles_perm {s s' : Symbols} (h : Entered p s) (h' : Entered q s') (hnamed : Named p)
    (hperm : p.Perm q) : (cycles s p).Perm (cycles s' q) := by
  have hcycle : ∀ c ∈ p, s.inheritance.hasCycle c.name = s'.inheritance.hasCycle c.name :=
    fun c hc => hasCycle_congr (h.parents_eq h' hperm) (hnamed.nonempty c hc)
      (hnamed.notNoClass c hc)
  rw [cycles, cycles, filter_congr hcycle]
  exact (hperm.filter _).map _

theorem graphFindings_perm (hnamed : Named p) (hnodup : (p.map Class.name).Nodup)
    (hperm : p.Perm q) : (graphFindings p).Perm (graphFindings q) := by
  have hheadings := headingFindings_perm hnodup hperm
  have hclean := eq_nil_iff_of_perm hheadings
  rw [graphFindings_eq, graphFindings_eq]
  by_cases hnil : headingFindings p = []
  · obtain ⟨hnew, hentered⟩ := entered_of_headings hnil
    obtain ⟨hnew', hentered'⟩ := entered_of_headings (hclean.mp hnil)
    rw [if_pos hnil, if_pos (hclean.mp hnil), hnew, hnew']
    exact cycles_perm hentered hentered' hnamed hperm
  · rw [if_neg hnil, if_neg (mt hclean.mpr hnil)]
    exact hheadings

theorem Graph.ancestors_perm {s s' : Symbols} (h : Graph p s) (h' : Graph q s')
    (hperm : p.Perm q) (x : Name) : s.ancestors x = s'.ancestors x := by
  have hparents : ∀ x, s.inheritance.parents.find? x = s'.inheritance.parents.find? x :=
    agree_of_perm (hperm.append_left Class.builtin) h.parents h'.parents h.unlinked h'.unlinked
  by_cases hreserved : x = [] ∨ x = Name.noClass
  · simp [Symbols.ancestors, Inheritance.ancestors, Inheritance.start?, hreserved,
      Inheritance.climb]
  · rw [not_or] at hreserved
    obtain ⟨line, hline⟩ := h.exists_ancestry_of_name x
    have hline' : s'.inheritance.Ancestry x line := ancestry_congr hparents ▸ hline
    rw [Symbols.ancestors, Symbols.ancestors,
      Inheritance.ancestors_eq hline hreserved.1 hreserved.2,
      Inheritance.ancestors_eq hline' hreserved.1 hreserved.2]

end Orders

/-!
# Features
-/

section Collection

variable {p order : List Class} {s : Symbols}

theorem Gathered.agree {q order' : List Class} {s' : Symbols} (h : Gathered p s order)
    (h' : Gathered q s' order') (hordered : Ordered p order)
    (hall : ∀ c ∈ p, c ∈ order) (hall' : ∀ c ∈ q, c ∈ order') (hperm : p.Perm q) : s.Agree s' := by
  have hancestors := h.graph.ancestors_perm h'.graph hperm
  have hothers : ∀ x, x ∉ p.map Class.name → s.classes.find? x = s'.classes.find? x := by
    intro x hx
    rw [h.others x hx, h'.others x fun hmem => hx ((hperm.map _).mem_iff.mpr hmem)]
  have hhas : ∀ x, s.classes.has x = s'.classes.has x := by
    intro x
    have hnames : (classNames p).Perm (classNames q) := (hperm.append_left _).map _
    rw [Bool.eq_iff_iff, h.graph.classes, h'.graph.classes, hnames.mem_iff]
  -- Class by class, parents first: what is above a class agrees, so its own features do.
  have hsettled : ∀ before, Ordered p before → ∀ c ∈ before,
      s.classes.find? c.name = s'.classes.find? c.name := by
    intro before hbefore
    induction hbefore with
    | nil => exact fun c hc => absurd hc not_mem_nil
    | @snoc before c hbefore mem fresh parent ih =>
      intro d hd
      rcases mem_append.mp hd with hd | hd
      · exact ih d hd
      · rw [mem_singleton.mp hd]
        have habove : ∀ x ∈ s.ancestors c.parentName,
            s.classes.find? x = s'.classes.find? x := by
          intro x hx
          by_cases hxp : x ∈ p.map Class.name
          · obtain ⟨b, hb, rfl⟩ := mem_map.mp hxp
            refine ih b (Classical.byContradiction fun hfresh => ?_)
            exact not_mem_ancestors_parent h.graph hbefore (mem_append_right _ mem)
              (fun r _ hr => parent r hr) hb hfresh hx
          · exact hothers x hxp
        rw [h.settled c (hall c mem), h'.settled c (hall' c (hperm.mem_iff.mp mem)),
          featuresOf_congr (hancestors _) habove hhas]
  refine ⟨?_, hancestors⟩
  intro x
  by_cases hx : x ∈ p.map Class.name
  · obtain ⟨c, hc, rfl⟩ := mem_map.mp hx
    exact hsettled order hordered c (hall c hc)
  · exact hothers x hx

theorem featureFindings_agree {s' : Symbols} (h : s.Agree s') (cs : List Class) :
    featureFindings s cs = featureFindings s' cs := by
  have hsame : ∀ c, featuresOf s c = featuresOf s' c := fun c =>
    featuresOf_congr (h.ancestors _) (fun x _ => h.classes x)
      fun x => by simp only [Dictionary.has, h.classes]
  simp only [featureFindings, hsame]

end Collection

/-!
# The whole analysis
-/

/-- The symbols that an analysis checks the expressions of a program with, if it comes so far. -/
def finalSymbols (p : Program) : Symbols :=
  (collectAll (Analysis.fresh.classGraph p).1 (parentsFirst p)).1

/-- What is found in the features and in the main class of a program, if the analysis comes so
far. -/
def memberFindings (p : Program) : List Diagnostic :=
  (collectAll (Analysis.fresh.classGraph p).1 (parentsFirst p)).2 ++
    mainDiagnostics (finalSymbols p)

def checkedClass (s : Symbols) (c : Class) : Class × List Diagnostic :=
  match checkClass s c with
  | .error _ => (c, [])
  | .ok r => r

theorem checkClasses_eq {s : Symbols} {p : Program} (h : ∀ c ∈ p, Grammar.ClassComplete c) :
    checkClasses s p = .ok (p.map fun c => (checkedClass s c).1,
      p.flatMap fun c => (checkedClass s c).2) := by
  induction p with
  | nil => rfl
  | cons c cs ih =>
    rw [forall_mem_cons] at h
    obtain ⟨r, hr⟩ := checkClass_ends s h.1
    simp only [checkClasses, hr, ih h.2, map_cons, flatMap_cons, checkedClass]

def reported (p : Program) : List Diagnostic :=
  if graphFindings p = [] then
    if memberFindings p = [] then p.flatMap fun c => (checkedClass (finalSymbols p) c).2
    else memberFindings p
  else graphFindings p

def annotated (p : Program) (c : Class) : Class :=
  if graphFindings p = [] ∧ memberFindings p = [] then (checkedClass (finalSymbols p) c).1 else c

theorem map_annotated {p : Program} (h : ¬ (graphFindings p = [] ∧ memberFindings p = [])) :
    p.map (annotated p) = p :=
  (map_congr_left fun _ _ => if_neg h).trans (map_id p)

theorem run_eq {p : Program} (h : ∀ c ∈ p, Grammar.ClassComplete c) :
    ∃ o, Analysis.fresh.run p = .ok o ∧ o.analysis.diagnostics = reported p ∧
      o.program = p.map (annotated p) := by
  let notes := (Analysis.fresh.classGraph p).2 ++
    (collectAll (Analysis.fresh.classGraph p).1 (parentsFirst p)).2.map .diagnosed ++
    (mainDiagnostics (collectAll (Analysis.fresh.classGraph p).1 (parentsFirst p)).1).map .diagnosed
  have hnotes : notes.filterMap diagnostic? = graphFindings p ++ memberFindings p := by
    simp only [notes, filterMap_append, filterMap_diagnosed, append_assoc]
    rfl
  have hgraph : Analysis.fresh.faulty (Analysis.fresh.classGraph p).2 = true ↔
      ¬ graphFindings p = [] := by
    rw [← Bool.not_eq_false, faulty_eq_false_iff]
    rfl
  have hmembers : Analysis.fresh.faulty notes = true ↔
      ¬ (graphFindings p = [] ∧ memberFindings p = []) := by
    rw [← Bool.not_eq_false, faulty_eq_false_iff, hnotes, ← append_eq_nil_iff]
    rfl
  simp only [Analysis.run]
  by_cases hclean : graphFindings p = []
  · rw [if_neg (by rw [hgraph, not_not]; exact hclean)]
    by_cases hclean' : memberFindings p = []
    · have hquiet : ¬ Analysis.fresh.faulty notes = true := by
        rw [hmembers, not_not]
        exact ⟨hclean, hclean'⟩
      rw [if_neg hquiet, checkClasses_eq h]
      refine ⟨_, rfl, ?_, ?_⟩
      · show [] ++ (notes ++ _).filterMap diagnostic? = _
        rw [filterMap_append, hnotes, filterMap_diagnosed, reported, if_pos hclean,
          if_pos hclean', hclean, hclean']
        rfl
      · exact map_congr_left fun c _ => (if_pos ⟨hclean, hclean'⟩).symm
    · have hfaulty : Analysis.fresh.faulty notes = true := hmembers.mpr fun hboth => hclean' hboth.2
      rw [if_pos hfaulty]
      refine ⟨_, rfl, ?_, ?_⟩
      · show [] ++ notes.filterMap diagnostic? = _
        rw [hnotes, reported, if_pos hclean, if_neg hclean', hclean]
        rfl
      · exact (map_annotated fun hboth => hclean' hboth.2).symm
  · rw [if_pos (hgraph.mpr hclean)]
    refine ⟨_, rfl, ?_, ?_⟩
    · rw [reported, if_neg hclean]
      rfl
    · exact (map_annotated fun hboth => hclean hboth.1).symm

section Orders

variable {p q : Program}

theorem gathered_of_graph (hnamed : Named p) (hnodup : (p.map Class.name).Nodup)
    (h : graphFindings p = []) :
    Ordered p (parentsFirst p) ∧ (∀ c ∈ p, c ∈ parentsFirst p) ∧
      Gathered p (finalSymbols p) (parentsFirst p) ∧
      memberFindings p = featureFindings (finalSymbols p) (parentsFirst p) ++
        mainDiagnostics (finalSymbols p) := by
  obtain ⟨hregister, hlink, hcycles⟩ := classGraph_clean_iff.mp h
  have hnew := (registerAll_eq hregister).1
  rw [hnew] at hlink hcycles
  have hstart := gathered_of_phases hnamed hregister hlink hcycles
  rw [← classGraph_symbols hnew] at hstart
  rcases parentsFirst_spec hnodup (fun c hc => hstart.graph.exists_classLine hc) with
    ⟨hordered, hall⟩
  obtain ⟨hgathered, hfound⟩ := hstart.collectAll hordered
  exact ⟨hordered, hall, hgathered, by rw [memberFindings, hfound]; rfl⟩

theorem Named.perm (h : Named p) (hperm : p.Perm q) : Named q where
  nonempty := fun c hc => h.nonempty c (hperm.mem_iff.mpr hc)
  notNoClass := fun c hc => h.notNoClass c (hperm.mem_iff.mpr hc)
  notPrimSlot := fun c hc => h.notPrimSlot c (hperm.mem_iff.mpr hc)

theorem parentsFirst_perm (hnodup : (p.map Class.name).Nodup)
    (hordered : Ordered p (parentsFirst p))
    (hall : ∀ c ∈ p, c ∈ parentsFirst p) : (parentsFirst p).Perm p :=
  (perm_ext_iff_of_nodup hordered.nodup (List.Nodup.of_map _ hnodup)).mpr
    fun c => ⟨hordered.subset c, hall c⟩

theorem members_perm (hnamed : Named p) (hnodup : (p.map Class.name).Nodup) (hperm : p.Perm q)
    (hp : graphFindings p = []) (hq : graphFindings q = []) :
    (finalSymbols p).Agree (finalSymbols q) ∧ (memberFindings p).Perm (memberFindings q) := by
  have hnodup' : (q.map Class.name).Nodup := (hperm.map _).nodup_iff.mp hnodup
  have hnamed' := hnamed.perm hperm
  obtain ⟨hordered, hall, hgathered, hfound⟩ := gathered_of_graph hnamed hnodup hp
  obtain ⟨hordered', hall', hgathered', hfound'⟩ := gathered_of_graph hnamed' hnodup' hq
  have hagree := hgathered.agree hgathered' hordered hall hall' hperm
  have horders : (parentsFirst p).Perm (parentsFirst q) :=
    ((parentsFirst_perm hnodup hordered hall).trans hperm).trans
      (parentsFirst_perm hnodup' hordered' hall').symm
  refine ⟨hagree, ?_⟩
  rw [hfound, hfound', featureFindings_agree hagree, mainDiagnostics_agree hagree]
  exact (horders.flatMap_right _).append_right _

theorem checkedClass_agree {s s' : Symbols} (h : s.Agree s') (c : Class) :
    checkedClass s c = checkedClass s' c := by
  rw [checkedClass, checkedClass, checkClass_agree h]

theorem reported_perm (hnamed : Named p) (hnodup : (p.map Class.name).Nodup) (hperm : p.Perm q) :
    (reported p).Perm (reported q) ∧ annotated p = annotated q := by
  have hgraph := graphFindings_perm hnamed hnodup hperm
  have hclean := eq_nil_iff_of_perm hgraph
  by_cases hp : graphFindings p = []
  · have hq := hclean.mp hp
    obtain ⟨hagree, hmembers⟩ := members_perm hnamed hnodup hperm hp hq
    have hclean' := eq_nil_iff_of_perm hmembers
    have hchecked := checkedClass_agree hagree
    constructor
    · rw [reported, reported, if_pos hp, if_pos hq]
      by_cases hp' : memberFindings p = []
      · rw [if_pos hp', if_pos (hclean'.mp hp')]
        simp only [hchecked]
        exact hperm.flatMap_right _
      · rw [if_neg hp', if_neg (mt hclean'.mpr hp')]
        exact hmembers
    · funext c
      simp only [annotated, hclean, hclean', hchecked]
  · have hq := mt hclean.mpr hp
    rw [reported, reported, if_neg hp, if_neg hq]
    refine ⟨hgraph, ?_⟩
    funext c
    rw [annotated, annotated, if_neg fun hboth => hp hboth.1, if_neg fun hboth => hq hboth.1]

end Orders

end Typing

/-- Two orders of distinct classes that were read from sources, right or wrong, are analysed
alike: the same messages are reported, each as often, and every class is returned with the
same static types in its expressions. -/
theorem Analysis.run_perm (p q : Program)
    (hread : ∀ c ∈ p, ∃ file source, c ∈ (Grammar.parse file source).classes)
    (hdistinct : (p.map Class.name).Nodup) (hperm : p.Perm q) :
    ∃ o o' : Analysis.Outcome, Analysis.fresh.run p = .ok o ∧ Analysis.fresh.run q = .ok o' ∧
      (o.analysis.diagnostics.map Diagnostic.message).Perm
        (o'.analysis.diagnostics.map Diagnostic.message) ∧
      ∃ annotate : Class → Class, o.program = p.map annotate ∧ o'.program = q.map annotate := by
  have hcomplete : ∀ c ∈ p, Grammar.ClassComplete c := by
    intro c hc
    rcases hread c hc with ⟨file, source, hmem⟩
    exact Grammar.complete_of_sources [(file, source)] c
      (mem_flatMap.mpr ⟨_, mem_singleton_self _, hmem⟩)
  rcases Typing.run_eq hcomplete with ⟨o, hrun, hfound, hprogram⟩
  rcases Typing.run_eq (fun c hc => hcomplete c (hperm.mem_iff.mpr hc)) with
    ⟨o', hrun', hfound', hprogram'⟩
  rcases Typing.reported_perm (Grammar.named_of_complete hcomplete) hdistinct hperm with
    ⟨hreported, hannotated⟩
  refine ⟨o, o', hrun, hrun', ?_, Typing.annotated p, hprogram, ?_⟩
  · rw [hfound, hfound']
    exact hreported.map _
  · rw [hprogram', hannotated]

def kennel : Program :=
  (Grammar.parse "kennel.cl" "class Puppy inherits Dog { legs : Int; bark() : Int { 1 }; };
class Dog inherits Animal { bark() : Bool { true }; }; class Cat inherits Animal { legs : Bool; };
class Animal { legs : Int <- 4; };").classes

theorem Analysis.run_perm_kennel :
    kennel.length = 4 ∧ (kennel.map Class.name).Nodup ∧
    ∃ o o' : Analysis.Outcome, Analysis.fresh.run kennel = .ok o ∧
      Analysis.fresh.run kennel.reverse = .ok o' ∧
      (o.analysis.diagnostics.map Diagnostic.message).Perm
        (o'.analysis.diagnostics.map Diagnostic.message) ∧
      ∃ annotate : Class → Class, o.program = kennel.map annotate ∧
        o'.program = kennel.reverse.map annotate :=
  have hnames : kennel.length = 4 ∧ (kennel.map Class.name).Nodup := by decide +kernel
  ⟨hnames.1, hnames.2, Analysis.run_perm kennel kennel.reverse (fun _ hc => ⟨_, _, hc⟩) hnames.2
    kennel.reverse_perm.symm⟩

end CoolCompiler
