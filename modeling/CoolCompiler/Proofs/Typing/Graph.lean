import CoolCompiler.Typing.Analysis
import CoolCompiler.Proofs.ObjectModel.Build
import CoolCompiler.Proofs.Typing.Inheritance
import CoolCompiler.Proofs.Typing.Order

/-!
# The class graph

Registering and linking classes without a complaint gives a table of distinct classes, each below
one that there is.  If no chain comes round, the class table can be built and has the same chains.
-/

namespace CoolCompiler

open List AnalysisNote ClassTable Inheritance Symbols

namespace Typing

structure Registers (s : Symbols) (c : Class) : Prop where
  notBasic : Name.isBasic c.name = false
  notSelfType : c.name ≠ Name.selfType
  fresh : s.classes.has c.name = false

variable {s : Symbols} {cs p : List Class} {c : Class} {x : Name}

theorem register_eq (h : Registers s c) :
    register s c = (s.putClass (ClassSymbol.bare c), [c], .registering c.name c.parentName) := by
  simp [register, h.notBasic, h.notSelfType, h.fresh]

theorem registers_iff : Registers s c ↔ (register s c).2.2.diagnostic? = none := by
  constructor
  · intro h
    rw [register_eq h]
    rfl
  · intro h
    unfold register at h
    split at h
    · cases h
    · rename_i hbasic
      rw [not_or] at hbasic
      split at h
      · cases h
      · rename_i hhas
        exact ⟨by simpa using hbasic.1, hbasic.2, by simpa using hhas⟩

theorem registers_putClass_iff {d : Class} :
    Registers (s.putClass (ClassSymbol.bare c)) d ↔ d.name ≠ c.name ∧ Registers s d := by
  have hput : (s.putClass (ClassSymbol.bare c)).classes.has d.name =
      (decide (d.name = c.name) || s.classes.has d.name) := Dictionary.has_put _ _ _ _
  constructor
  · rintro ⟨hbasic, hself, hfresh⟩
    rw [hput, Bool.or_eq_false_iff, decide_eq_false_iff_not] at hfresh
    exact ⟨hfresh.1, hbasic, hself, hfresh.2⟩
  · rintro ⟨hne, hbasic, hself, hfresh⟩
    exact ⟨hbasic, hself, by rw [hput, hfresh, decide_eq_false hne]; rfl⟩

theorem registerAll_cons_clean_iff :
    (registerAll s (c :: cs)).2.2.filterMap diagnostic? = [] ↔ Registers s c ∧
      (registerAll (s.putClass (ClassSymbol.bare c)) cs).2.2.filterMap
        diagnostic? = [] := by
  have hsplit : (registerAll s (c :: cs)).2.2 =
      (register s c).2.2 :: (registerAll (register s c).1 cs).2.2 := rfl
  rw [hsplit]
  constructor
  · intro h
    have hc : Registers s c := by
      rw [registers_iff]
      cases hd : (register s c).2.2.diagnostic? with
      | none => rfl
      | some d => simp [hd] at h
    rw [filterMap_cons_none (registers_iff.mp hc), register_eq hc] at h
    exact ⟨hc, h⟩
  · rintro ⟨hc, h⟩
    rw [filterMap_cons_none (registers_iff.mp hc), register_eq hc]
    exact h

theorem registerAll_clean_iff :
    (registerAll s p).2.2.filterMap diagnostic? = [] ↔
      (∀ c ∈ p, Registers s c) ∧ (p.map Class.name).Nodup := by
  induction p generalizing s with
  | nil => simp [registerAll]
  | cons c cs ih =>
    rw [registerAll_cons_clean_iff, ih, forall_mem_cons, map_cons, nodup_cons,
      mem_map, not_exists]
    simp only [registers_putClass_iff, not_and]
    constructor
    · rintro ⟨hc, hcs, hnodup⟩
      exact ⟨⟨hc, fun d hd => (hcs d hd).2⟩, fun d hd => (hcs d hd).1, hnodup⟩
    · rintro ⟨⟨hc, hcs⟩, hfresh, hnodup⟩
      exact ⟨hc, fun d hd => ⟨hfresh d hd, hcs d hd⟩, hnodup⟩

theorem registerAll_eq (h : (registerAll s p).2.2.filterMap diagnostic? = []) :
    (registerAll s p).2.1 = p ∧ (registerAll s p).1 = { s with
      classes := p.foldl (fun d c => d.put c.name (ClassSymbol.bare c)) s.classes } := by
  induction p generalizing s with
  | nil => exact ⟨rfl, rfl⟩
  | cons c cs ih =>
    obtain ⟨hc, hcs⟩ := registerAll_cons_clean_iff.mp h
    obtain ⟨hnew, hsymbols⟩ := ih hcs
    have hsplit : registerAll s (c :: cs) =
        ((registerAll (register s c).1 cs).1, (register s c).2.1 ++
          (registerAll (register s c).1 cs).2.1, (register s c).2.2 ::
          (registerAll (register s c).1 cs).2.2) := rfl
    rw [hsplit, register_eq hc, hnew, hsymbols]
    exact ⟨rfl, rfl⟩

theorem registerAll_spec (h : (registerAll s p).2.2.filterMap diagnostic? = []) :
    (registerAll s p).2.1 = p ∧ (registerAll s p).1.inheritance = s.inheritance ∧
      (∀ c ∈ p, Registers s c) ∧ (p.map Class.name).Nodup ∧
      (∀ c ∈ p, (registerAll s p).1.classes.find? c.name = some (ClassSymbol.bare c)) ∧
      ∀ x, x ∉ p.map Class.name → (registerAll s p).1.classes.find? x = s.classes.find? x := by
  obtain ⟨hnew, hsymbols⟩ := registerAll_eq h
  obtain ⟨hregisters, hnodup⟩ := registerAll_clean_iff.mp h
  rw [hsymbols]
  refine ⟨hnew, rfl, hregisters, hnodup, fun c hc => ?_, fun x hx => ?_⟩
  · exact Dictionary.find?_foldl_put Class.name ClassSymbol.bare _ hnodup hc
  · refine Dictionary.find?_foldl_put_of_not_mem Class.name ClassSymbol.bare _ ?_
    rintro c hc rfl
    exact hx (mem_map_of_mem hc)

theorem linkParent_clean_iff : (linkParent s c).2 = [] ↔
    Name.isInheritable c.parentName = true ∧ s.classes.has c.parentName = true := by
  simp only [linkParent]
  split
  · simp_all
  · split <;> simp_all

theorem linkParent_found {s' : Symbols} (h : ∀ x, s.classes.has x = s'.classes.has x) (c : Class) :
    (linkParent s c).2 = (linkParent s' c).2 := by
  simp only [linkParent, h]
  split
  · rfl
  · split <;> rfl

theorem linkParent_classes (s : Symbols) (c : Class) :
    (linkParent s c).1.classes = s.classes := by
  simp only [linkParent]
  split
  · rfl
  · split <;> rfl

theorem linkParents_found (s : Symbols) (cs : List Class) :
    (linkParents s cs).2 = cs.flatMap fun c => (linkParent s c).2 := by
  induction cs generalizing s with
  | nil => rfl
  | cons c cs ih =>
    have hsame : ∀ d, (linkParent (linkParent s c).1 d).2 = (linkParent s d).2 :=
      linkParent_found fun x => by rw [linkParent_classes]
    show (linkParent s c).2 ++ (linkParents (linkParent s c).1 cs).2 = _
    rw [ih, flatMap_cons]
    simp only [hsame]

theorem linkParents_clean_iff : (linkParents s cs).2 = [] ↔
    ∀ c ∈ cs, Name.isInheritable c.parentName = true ∧ s.classes.has c.parentName = true := by
  simp only [linkParents_found, flatMap_eq_nil_iff, linkParent_clean_iff]

theorem linkParents_eq (h : (linkParents s cs).2 = []) :
    (linkParents s cs).1 = { s with inheritance :=
      ⟨cs.foldl (fun d c => d.put c.name c.parentName) s.inheritance.parents⟩ } := by
  induction cs generalizing s with
  | nil => rfl
  | cons c cs ih =>
    have hall := linkParents_clean_iff.mp h
    rw [forall_mem_cons] at hall
    have hfirst : (linkParent s c).1 = s.link c.name c.parentName := by
      simp [linkParent, hall.1.1, hall.1.2]
    have hrest : (linkParents (s.link c.name c.parentName) cs).2 = [] :=
      linkParents_clean_iff.mpr hall.2
    show (linkParents (linkParent s c).1 cs).1 = _
    rw [hfirst, ih hrest]
    rfl

theorem linkParents_spec (h : (linkParents s cs).2 = []) (hnodup : (cs.map Class.name).Nodup) :
    (linkParents s cs).1.classes = s.classes ∧
      (∀ c ∈ cs, Name.isInheritable c.parentName = true ∧ s.classes.has c.parentName = true) ∧
      (∀ c ∈ cs, (linkParents s cs).1.inheritance.parents.find? c.name = some c.parentName) ∧
      ∀ x, x ∉ cs.map Class.name →
        (linkParents s cs).1.inheritance.parents.find? x = s.inheritance.parents.find? x := by
  rw [linkParents_eq h]
  refine ⟨rfl, linkParents_clean_iff.mp h, fun c hc => ?_, fun x hx => ?_⟩
  · exact Dictionary.find?_foldl_put Class.name Class.parentName _ hnodup hc
  · refine Dictionary.find?_foldl_put_of_not_mem Class.name Class.parentName _ ?_
    rintro c hc rfl
    exact hx (mem_map_of_mem hc)

/-!
# Graphs without fault
-/

def classNames (p : List Class) : List Name := (Class.builtin ++ p).map Class.name

structure Named (p : List Class) : Prop where
  nonempty : ∀ c ∈ p, c.name ≠ []
  notNoClass : ∀ c ∈ p, c.name ≠ Name.noClass
  notPrimSlot : ∀ c ∈ p, c.name ≠ Name.primSlot

theorem Named.of_mem_classNames (hnamed : Named p) (hx : x ∈ classNames p) :
    x ≠ [] ∧ x ≠ Name.noClass ∧ x ≠ Name.primSlot := by
  rw [classNames, map_append, mem_append] at hx
  rcases hx with hx | hx
  · revert x
    decide
  · obtain ⟨c, hc, rfl⟩ := mem_map.mp hx
    exact ⟨hnamed.nonempty c hc, hnamed.notNoClass c hc, hnamed.notPrimSlot c hc⟩

theorem Named.append_iff {q : List Class} : Named (p ++ q) ↔ Named p ∧ Named q := by
  constructor
  · intro h
    obtain ⟨hempty, hnone, hprim⟩ := h
    rw [forall_mem_append] at hempty hnone hprim
    exact ⟨⟨hempty.1, hnone.1, hprim.1⟩, ⟨hempty.2, hnone.2, hprim.2⟩⟩
  · rintro ⟨hp, hq⟩
    exact ⟨forall_mem_append.mpr ⟨hp.nonempty, hq.nonempty⟩,
      forall_mem_append.mpr ⟨hp.notNoClass, hq.notNoClass⟩,
      forall_mem_append.mpr ⟨hp.notPrimSlot, hq.notPrimSlot⟩⟩

/-- The symbols know the classes of a program and their parents, and nothing is wrong with
them. -/
structure Graph (p : List Class) (s : Symbols) : Prop extends Named p where
  distinct : (classNames p).Nodup
  notSelfType : ∀ c ∈ p, c.name ≠ Name.selfType
  classes : ∀ x, s.classes.has x = true ↔ x ∈ classNames p
  parents : ∀ c ∈ Class.builtin ++ p, s.inheritance.parents.find? c.name = some c.parentName
  inheritable : ∀ c ∈ p, Name.isInheritable c.parentName = true
  linked : ∀ c ∈ p, c.parentName ∈ classNames p
  acyclic : ∀ c ∈ p, s.inheritance.hasCycle c.name = false
  unlinked : ∀ x, x ∉ classNames p → s.inheritance.parents.find? x = none

theorem isBasic_iff (x : Name) : Name.isBasic x = true ↔ x ∈ Class.builtin.map Class.name := by
  have hnames : Class.builtin.map Class.name =
      [Name.object, Name.inputOutput, Name.int, Name.bool, Name.string] := rfl
  simp [hnames, Name.isBasic, or_assoc]

theorem has_initial (x : Name) : initial.classes.has x = Name.isBasic x := by
  have hclasses : initial.classes.map Prod.fst = Class.builtin.map Class.name := rfl
  rw [Bool.eq_iff_iff, isBasic_iff, ← hclasses, Dictionary.has_iff_mem_keys]

theorem find?_initial_parents : ∀ c ∈ Class.builtin,
    initial.inheritance.parents.find? c.name = some c.parentName := by
  decide

theorem find?_initial_parents_eq_none (hx : x ∉ Class.builtin.map Class.name) :
    initial.inheritance.parents.find? x = none := by
  have hkeys : initial.inheritance.parents.map Prod.fst = Class.builtin.map Class.name := rfl
  rw [← hkeys, ← Dictionary.has_iff_mem_keys, Dictionary.has] at hx
  simpa using hx

theorem find?_linkParents {q : List Class}
    (hregister : (registerAll s q).2.2.filterMap diagnostic? = [])
    (hlink : (linkParents (registerAll s q).1 q).2 = []) (hx : x ∉ q.map Class.name) :
    (linkParents (registerAll s q).1 q).1.inheritance.parents.find? x =
      s.inheritance.parents.find? x := by
  obtain ⟨_, hinherit, _, hnodup, _, _⟩ := registerAll_spec hregister
  rw [(linkParents_spec hlink hnodup).2.2.2 x hx, hinherit]

theorem classNames_append (p q : List Class) :
    classNames (p ++ q) = classNames p ++ q.map Class.name := by
  simp only [classNames, map_append, append_assoc]

theorem graph_initial : Graph [] initial where
  toNamed := ⟨forall_mem_nil _, forall_mem_nil _, forall_mem_nil _⟩
  distinct := by decide
  notSelfType := forall_mem_nil _
  classes x := by rw [has_initial, isBasic_iff]; rfl
  parents := find?_initial_parents
  inheritable := forall_mem_nil _
  linked := forall_mem_nil _
  acyclic := forall_mem_nil _
  unlinked _ := find?_initial_parents_eq_none

namespace Graph

variable {p q : List Class} {s : Symbols} (h : Graph p s)
  (hregister : (registerAll s q).2.2.filterMap diagnostic? = [])
include h hregister

theorem not_mem_of_registers {x : Name} (hx : x ∈ classNames p) : x ∉ q.map Class.name := by
  intro hmem
  obtain ⟨c, hc, rfl⟩ := mem_map.mp hmem
  have hhas := (h.classes c.name).mpr hx
  rw [((registerAll_clean_iff.mp hregister).1 c hc).fresh] at hhas
  cases hhas

theorem has_registerAll (x : Name) :
    (registerAll s q).1.classes.has x = true ↔ x ∈ classNames (p ++ q) := by
  obtain ⟨_, _, _, _, hfind, hother⟩ := registerAll_spec hregister
  rw [classNames_append, mem_append, ← h.classes]
  by_cases hx : x ∈ q.map Class.name
  · obtain ⟨c, hc, rfl⟩ := mem_map.mp hx
    simp [Dictionary.has, hfind c hc, hx]
  · simp only [Dictionary.has, hother x hx, hx, or_false]

variable (hlink : (linkParents (registerAll s q).1 q).2 = [])
include hlink

theorem parents_linkParents : ∀ c ∈ Class.builtin ++ (p ++ q),
    (linkParents (registerAll s q).1 q).1.inheritance.parents.find? c.name =
      some c.parentName := by
  rw [← append_assoc]
  refine forall_mem_append.mpr ⟨fun c hc => ?_, ?_⟩
  · have hold := h.not_mem_of_registers hregister (mem_map_of_mem hc)
    rw [find?_linkParents hregister hlink hold]
    exact h.parents c hc
  · exact (linkParents_spec hlink (registerAll_clean_iff.mp hregister).2).2.2.1

theorem extend (hnamed : Named q)
    (hcycles : cycles (linkParents (registerAll s q).1 q).1 q = [])
    (hacyclic : ∀ c ∈ p,
      (linkParents (registerAll s q).1 q).1.inheritance.hasCycle c.name = false) :
    Graph (p ++ q) (linkParents (registerAll s q).1 q).1 := by
  obtain ⟨hregisters, hnodup⟩ := registerAll_clean_iff.mp hregister
  have hhas := h.has_registerAll hregister
  have hparents := linkParents_clean_iff.mp hlink
  constructor
  · exact Named.append_iff.mpr ⟨h.toNamed, hnamed⟩
  · rw [classNames_append, nodup_append]
    refine ⟨h.distinct, hnodup, ?_⟩
    rintro x hx y hy rfl
    exact h.not_mem_of_registers hregister hx hy
  · exact forall_mem_append.mpr ⟨h.notSelfType, fun c hc => (hregisters c hc).notSelfType⟩
  · rw [linkParents_eq hlink]
    exact hhas
  · exact h.parents_linkParents hregister hlink
  · exact forall_mem_append.mpr ⟨h.inheritable, fun c hc => (hparents c hc).1⟩
  · refine forall_mem_append.mpr ⟨fun c hc => ?_, fun c hc => (hhas _).mp (hparents c hc).2⟩
    rw [classNames_append]
    exact mem_append_left _ (h.linked c hc)
  · refine forall_mem_append.mpr ⟨hacyclic, fun c hc => ?_⟩
    have hno : c ∉ q.filter fun c =>
        (linkParents (registerAll s q).1 q).1.inheritance.hasCycle c.name := by
      rw [map_eq_nil_iff.mp hcycles]
      exact not_mem_nil
    simpa [hc] using hno
  · intro x hx
    rw [classNames_append, mem_append, not_or] at hx
    rw [find?_linkParents hregister hlink hx.2]
    exact h.unlinked x hx.1

end Graph

theorem graph_of_phases (hnamed : Named p)
    (hregister : (registerAll initial p).2.2.filterMap diagnostic? = [])
    (hlink : (linkParents (registerAll initial p).1 p).2 = [])
    (hcycles : cycles (linkParents (registerAll initial p).1 p).1 p = []) :
    Graph p (linkParents (registerAll initial p).1 p).1 :=
  graph_initial.extend hregister hlink hnamed hcycles (forall_mem_nil _)

end Typing

theorem ClassTable.Built.ancestry {p : List Class} {parents : List (Option Nat)} {t : ClassTable}
    (h : Built p parents t) (hnamed : Typing.Named p) {g : Inheritance}
    (hparents : ∀ c ∈ Class.builtin ++ p, g.parents.find? c.name = some c.parentName)
    {n : ClassNode} (hn : n ∈ t.nodes) : g.Ancestry n.name ((t.chain n).map ClassNode.name) := by
  -- Along the chain; what follows a class on it is the chain of its parent.
  generalize hline : t.chain n = line
  induction line generalizing n with
  | nil =>
    rw [h.chain_cons hn] at hline
    cases hline
  | cons first rest ih =>
    rw [h.chain_cons hn] at hline
    obtain ⟨rfl, hrest⟩ := List.cons.inj hline
    have hdecl : n.decl ∈ Class.builtin ++ p := by
      rw [← h.map_decl]
      exact mem_map_of_mem hn
    have hfind : g.parents.find? n.name = some n.decl.parentName := hparents n.decl hdecl
    rcases h.parentOf?_cases hn with ⟨hroot, hnone⟩ | ⟨_, above, habove, hparent, hname⟩
    · rw [hnone] at hrest
      subst hrest
      have hdecl' : n.decl.parentName = Name.noClass := by
        have hobject := inj_on_of_nodup_map h.distinct hdecl
          (mem_append_left p mem_cons_self) hroot
        rw [hobject]
        rfl
      refine .root (congrArg some ?_)
      simp [Inheritance.parent?, hfind, hdecl']
    · rw [hparent] at hrest
      have hmem : above.name ∈ Typing.classNames p := by
        rw [Typing.classNames, ← h.map_name]
        exact mem_map_of_mem habove
      have hnames := hnamed.of_mem_classNames hmem
      refine .step (congrArg some ?_) (ih habove hrest)
      simp [Inheritance.parent?, hfind, ← hname, hnames.1, hnames.2.1]

namespace Typing

namespace Graph

variable {p : List Class} {s : Symbols}

variable {c : Class} {x y : Name} {q : List Class}

section Classes

variable (h : Graph p s)
include h

theorem eq_of_name {d : Class} (hc : c ∈ Class.builtin ++ p) (hd : d ∈ Class.builtin ++ p)
    (hname : c.name = d.name) : c = d :=
  inj_on_of_nodup_map h.distinct hc hd hname

theorem notBasic (hc : c ∈ p) : Name.isBasic c.name = false := by
  have hdisjoint := h.distinct
  rw [classNames, map_append, nodup_append] at hdisjoint
  rw [Bool.eq_false_iff, Ne, isBasic_iff]
  exact fun hbasic => hdisjoint.2.2 _ hbasic _ (mem_map_of_mem hc) rfl

omit h in
theorem parentName_builtin : ∀ c ∈ Class.builtin, c.name ≠ Name.object →
    c.parentName = Name.object := by decide

theorem isInheritable_parentName (hc : c ∈ Class.builtin ++ p) :
    Name.isInheritable c.parentName = true := by
  rcases mem_append.mp hc with hbuiltin | hp
  · have hall : ∀ d ∈ Class.builtin, Name.isInheritable d.parentName = true := by decide
    exact hall c hbuiltin
  · exact h.inheritable c hp

theorem ne_object (hc : c ∈ p) : c.name ≠ Name.object := by
  intro hname
  have hbasic := h.notBasic hc
  rw [hname] at hbasic
  cases hbasic

theorem parent?_root : s.inheritance.parent? Name.object = none := by
  have hroot := h.parents ⟨0, Name.object, none, _, Class.builtinFile⟩
    (mem_append_left p mem_cons_self)
  unfold Inheritance.parent?
  rw [hroot]
  rfl

theorem ancestors_root : s.ancestors Name.object = [Name.object] :=
  Inheritance.ancestors_eq (.root (congrArg some h.parent?_root)) (by decide) (by decide)

theorem parent?_of_ne (hc : c ∈ Class.builtin ++ p) (hne : c.name ≠ Name.object) :
    s.inheritance.parent? c.name = some c.parentName ∧ c.parentName ∈ classNames p := by
  have hmem : c.parentName ∈ classNames p := by
    rcases mem_append.mp hc with hbuiltin | hp
    · rw [parentName_builtin c hbuiltin hne]
      exact mem_map_of_mem (mem_append_left p mem_cons_self)
    · exact h.linked c hp
  have hname := h.of_mem_classNames hmem
  unfold Inheritance.parent?
  rw [h.parents c hc]
  exact ⟨by simp [hname.1, hname.2.1], hmem⟩

theorem exists_ancestry (hc : c ∈ Class.builtin ++ p) :
    ∃ line, s.inheritance.Ancestry c.name line := by
  have hroot : s.inheritance.Ancestry Name.object [Name.object] :=
    .root (congrArg some h.parent?_root)
  rcases mem_append.mp hc with hbuiltin | hp
  · by_cases hname : c.name = Name.object
    · rw [hname]
      exact ⟨_, hroot⟩
    · have hparent := (h.parent?_of_ne hc hname).1
      rw [parentName_builtin c hbuiltin hname] at hparent
      exact ⟨_, .step (congrArg some hparent) hroot⟩
  · exact Inheritance.exists_ancestry (h.acyclic c hp) (h.nonempty c hp)
      (h.notNoClass c hp)

theorem ancestors_of_ancestry {line : List Name} (hx : x ∈ classNames p)
    (hline : s.inheritance.Ancestry x line) : s.ancestors x = line :=
  Inheritance.ancestors_eq hline (h.of_mem_classNames hx).1 (h.of_mem_classNames hx).2.1

theorem root_mem_ancestors (hc : c ∈ Class.builtin ++ p) :
    Name.object ∈ s.ancestors c.name := by
  obtain ⟨line, hline⟩ := h.exists_ancestry hc
  rw [h.ancestors_of_ancestry (mem_map_of_mem hc) hline]
  generalize hname : c.name = x at hline
  induction hline generalizing c with
  | @root x hroot =>
    subst hname
    rw [mem_singleton]
    apply Classical.byContradiction
    intro hne
    have hparent := (h.parent?_of_ne hc (Ne.symm hne)).1
    rw [Option.some.inj hroot] at hparent
    cases hparent
  | @step x above line hp _ ih =>
    subst hname
    by_cases hobject : c.name = Name.object
    · rw [hobject]
      exact mem_cons_self
    · obtain ⟨hparent, hmem⟩ := h.parent?_of_ne hc hobject
      obtain ⟨q, hq, hqname⟩ := mem_map.mp hmem
      rw [Option.some.inj hp] at hparent
      exact mem_cons_of_mem _ (ih hq (hqname.trans (Option.some.inj hparent).symm))

theorem isBasic_of_ancestor (hx : Name.isBasic x = true) (hy : y ∈ s.ancestors x) :
    Name.isBasic y = true := by
  obtain ⟨c, hc, rfl⟩ := mem_map.mp ((isBasic_iff x).mp hx)
  by_cases hname : c.name = Name.object
  · rw [hname, h.ancestors_root, mem_singleton] at hy
    rw [hy]
    rfl
  · have hparent := (h.parent?_of_ne (mem_append_left p hc) hname).1
    rw [parentName_builtin c hc hname] at hparent
    have hline : s.inheritance.Ancestry c.name [c.name, Name.object] :=
      .step (congrArg some hparent) (.root (congrArg some h.parent?_root))
    have hne := ne_of_mem_ancestors hy
    rw [Symbols.ancestors, Inheritance.ancestors_eq hline hne.1 hne.2, mem_cons,
      mem_singleton] at hy
    rcases hy with rfl | rfl
    · exact hx
    · rfl

theorem selfType_not_mem : Name.selfType ∉ classNames p := by
  rw [classNames, map_append, mem_append]
  rintro (hbuiltin | hp)
  · revert hbuiltin
    decide
  · obtain ⟨c, hc, hname⟩ := mem_map.mp hp
    exact h.notSelfType c hc hname

theorem exists_classLine (hc : c ∈ p) : ∃ line, ClassLine p c line := by
  obtain ⟨line, hline⟩ := h.exists_ancestry (mem_append_right _ hc)
  generalize hname : c.name = x at hline
  induction hline generalizing c with
  | root hroot =>
    subst hname
    have hparent := (h.parent?_of_ne (mem_append_right _ hc) (h.ne_object hc)).1
    rw [Option.some.inj hroot] at hparent
    cases hparent
  | step hp _ ih =>
    subst hname
    have hparent := (h.parent?_of_ne (mem_append_right _ hc) (h.ne_object hc)).1
    rw [Option.some.inj hp] at hparent
    cases hamong : parentAmong p c with
    | none => exact ⟨[c], .root (congrArg some hamong)⟩
    | some q =>
      have hq : q.name = c.parentName := by
        simpa using find?_some hamong
      rcases ih (mem_of_parentAmong hamong) (hq.trans (Option.some.inj hparent).symm) with
        ⟨line, hline⟩
      exact ⟨c :: line, .step (congrArg some hamong) hline⟩

/-!
# The class table
-/

omit h in
theorem tagOf?_isSome {classes : List Class} (hx : x ∈ classes.map Class.name) :
    ∃ tag, tagOf? classes x = some tag ∧
      ∃ c, classes[tag]? = some c ∧ c.name = x := by
  obtain ⟨c, hc, hname⟩ := mem_map.mp hx
  cases htag : tagOf? classes x with
  | none =>
    rw [tagOf?, findIdx?_eq_none_iff] at htag
    have hno := htag c hc
    simp [hname] at hno
  | some tag =>
    rw [tagOf?, findIdx?_eq_some_iff_getElem] at htag
    obtain ⟨hlt, hname', _⟩ := htag
    exact ⟨tag, rfl, classes[tag], getElem?_eq_getElem hlt, by simpa using hname'⟩

theorem exists_parentTag (hc : c ∈ Class.builtin ++ p) :
    ∃ parent, parentTag (Class.builtin ++ p) c = .ok parent ∧
      (s.inheritance.parent? c.name = none ∧ parent = none ∨
        ∃ tag d, parent = some tag ∧ (Class.builtin ++ p)[tag]? = some d ∧
          s.inheritance.parent? c.name = some d.name) := by
  unfold parentTag
  by_cases hname : c.name = Name.object
  · refine ⟨none, if_pos hname, .inl ⟨?_, rfl⟩⟩
    rw [hname]
    exact h.parent?_root
  · obtain ⟨hparent, hmem⟩ := h.parent?_of_ne hc hname
    obtain ⟨tag, htag, d, hd, hdname⟩ := tagOf?_isSome hmem
    refine ⟨some tag, ?_, .inr ⟨tag, d, rfl, hd, ?_⟩⟩
    · rw [if_neg hname, htag]
      simp [h.isInheritable_parentName hc]
    · rw [hparent, hdname]

theorem exists_built : ∃ parents t, Built p parents t := by
  have hlinked : ∃ parents : List (Option Nat),
      (Class.builtin ++ p).map (parentTag (Class.builtin ++ p)) =
        parents.map Except.ok := by
    have hall : ∀ c ∈ Class.builtin ++ p, ∃ parent,
        parentTag (Class.builtin ++ p) c = .ok parent := by
      intro c hc
      obtain ⟨parent, hparent, _⟩ := h.exists_parentTag hc
      exact ⟨parent, hparent⟩
    generalize Class.builtin ++ p = classes at hall
    generalize parentTag classes = f at hall
    clear h
    induction classes with
    | nil => exact ⟨[], rfl⟩
    | cons c cs ih =>
      obtain ⟨parent, hparent⟩ := hall c mem_cons_self
      obtain ⟨parents, hparents⟩ := ih (fun d hd => hall d (mem_cons_of_mem c hd))
      exact ⟨parent :: parents, by rw [map_cons, map_cons, hparent, hparents]⟩
  obtain ⟨parents, hlinked⟩ := hlinked
  have hlength : (Class.builtin ++ p).length = parents.length := by
    simpa using congrArg List.length hlinked
  -- The way up by name is a way up by tag.
  have hascent : ∀ (line : List Name) (tag : Nat) (c : Class), (Class.builtin ++ p)[tag]? = some c →
      s.inheritance.Ancestry c.name line → ∃ tags, Ascent parents tag tags := by
    intro line
    induction line with
    | nil =>
      intro tag c _ hline
      cases hline
    | cons x line ih =>
      intro tag c hc hline
      obtain ⟨parent, hparent, hup⟩ := h.exists_parentTag (mem_of_getElem? hc)
      obtain ⟨parent', hget, hparent'⟩ := linked_getElem? hlinked hc
      rw [hparent] at hparent'
      cases hparent'
      rcases hup with ⟨_, rfl⟩ | ⟨ptag, d, rfl, hd, hup⟩
      · exact ⟨[tag], .root hget⟩
      · cases hline with
        | root hroot =>
          rw [hup] at hroot
          cases hroot
        | step hp hrest =>
          rw [hup] at hp
          cases hp
          obtain ⟨tags, htags⟩ := ih ptag d hd hrest
          exact ⟨tag :: tags, .step hget htags⟩
  refine ⟨parents, _, (linked_link rfl ?_ h.distinct hlinked).built ?_⟩
  · intro c hc
    have hname := h.of_mem_classNames (mem_map_of_mem hc)
    have hself : c.name ≠ Name.selfType := by
      rcases mem_append.mp hc with hbuiltin | hp
      · have hall : ∀ d ∈ Class.builtin, d.name ≠ Name.selfType := by decide
        exact hall c hbuiltin
      · exact h.notSelfType c hp
    simp [isReserved, hname.2.1, hname.2.2, hself]
  · intro tag htag
    have hlt : tag < (Class.builtin ++ p).length := by omega
    have hget := getElem?_eq_getElem hlt
    obtain ⟨line, hline⟩ := h.exists_ancestry (getElem_mem hlt)
    exact hascent line tag _ hget hline

end Classes

variable {parents : List (Option Nat)} {t : ClassTable}

theorem ancestors_eq (h : Graph p s) (hbuilt : Built p parents t)
    {n : ClassNode} (hn : n ∈ t.nodes) :
    s.ancestors n.name = (t.chain n).map ClassNode.name := by
  have hname : n.name ∈ classNames p := by
    rw [classNames, ← hbuilt.map_name]
    exact mem_map_of_mem hn
  exact h.ancestors_of_ancestry hname (hbuilt.ancestry h.toNamed h.parents hn)

theorem heading_append (hsame : q.map heading = p.map heading) :
    (Class.builtin ++ q).map heading = (Class.builtin ++ p).map heading := by
  rw [map_append, map_append, hsame]

theorem classNames_of_heading (hsame : q.map heading = p.map heading) :
    classNames q = classNames p := by
  simpa [heading, classNames, Function.comp_def] using
    congrArg (List.map Prod.fst) (heading_append hsame)

variable (h : Graph p s)
include h

theorem of_heading (hsame : q.map heading = p.map heading) : Graph q s := by
  have hmem : ∀ c ∈ q, ∃ d ∈ p, d.name = c.name ∧ d.parentName = c.parentName := by
    intro c hc
    have hhead : heading c ∈ p.map heading := by
      rw [← hsame]
      exact mem_map_of_mem hc
    obtain ⟨d, hd, heq⟩ := mem_map.mp hhead
    exact ⟨d, hd, congrArg Prod.fst heq, congrArg Prod.snd heq⟩
  have hne : ∀ x, (∀ d ∈ p, d.name ≠ x) → ∀ c ∈ q, c.name ≠ x := by
    intro x hx c hc
    obtain ⟨d, hd, hname, _⟩ := hmem c hc
    exact hname ▸ hx d hd
  have hnames := classNames_of_heading hsame
  constructor
  · exact ⟨hne _ h.nonempty, hne _ h.notNoClass, hne _ h.notPrimSlot⟩
  · rw [hnames]
    exact h.distinct
  · exact hne _ h.notSelfType
  · rw [hnames]
    exact h.classes
  · intro c hc
    rcases mem_append.mp hc with hc | hc
    · exact h.parents c (mem_append_left p hc)
    · obtain ⟨d, hd, hname, hparent⟩ := hmem c hc
      rw [← hname, ← hparent]
      exact h.parents d (mem_append_right _ hd)
  · intro c hc
    obtain ⟨d, hd, _, hparent⟩ := hmem c hc
    exact hparent ▸ h.inheritable d hd
  · intro c hc
    obtain ⟨d, hd, _, hparent⟩ := hmem c hc
    rw [hnames, ← hparent]
    exact h.linked d hd
  · intro c hc
    obtain ⟨d, hd, hname, _⟩ := hmem c hc
    exact hname ▸ h.acyclic d hd
  · rw [hnames]
    exact h.unlinked

theorem ancestry_of_not_mem (hx : x ∉ classNames p) : s.inheritance.Ancestry x [x] := by
  refine .root (congrArg some ?_)
  simp [Inheritance.parent?, h.unlinked x hx]

theorem exists_ancestry_of_name (x : Name) : ∃ line, s.inheritance.Ancestry x line := by
  by_cases hx : x ∈ classNames p
  · obtain ⟨c, hc, rfl⟩ := mem_map.mp hx
    exact h.exists_ancestry hc
  · exact ⟨[x], h.ancestry_of_not_mem hx⟩

theorem exists_ancestors (hy : y ∈ s.ancestors x) :
    s.inheritance.Ancestry x (s.ancestors x) := by
  have hne := ne_of_mem_ancestors hy
  obtain ⟨line, hline⟩ := h.exists_ancestry_of_name x
  rw [Symbols.ancestors, Inheritance.ancestors_eq hline hne.1 hne.2]
  exact hline

theorem mem_classNames_of_ancestor (hy : y ∈ s.ancestors x) (hclass : y ∈ classNames p) :
    x ∈ classNames p := by
  apply Classical.byContradiction
  intro hx
  have hne := ne_of_mem_ancestors hy
  rw [Symbols.ancestors, Inheritance.ancestors_eq (h.ancestry_of_not_mem hx) hne.1 hne.2,
    mem_singleton] at hy
  exact hx (hy ▸ hclass)

theorem inheritable_of_ancestor (hy : y ∈ s.ancestors x) :
    y = x ∨ Name.isInheritable y = true := by
  rcases (h.exists_ancestors hy).eq_or_parent hy with rfl | ⟨z, hz⟩
  · exact .inl rfl
  · have hparent : s.inheritance.parent? z = some y := Option.some.inj hz
    have hclass : z ∈ classNames p := by
      apply Classical.byContradiction
      intro hnone
      simp [Inheritance.parent?, h.unlinked z hnone] at hparent
    obtain ⟨c, hc, rfl⟩ := mem_map.mp hclass
    have hname : c.parentName = y := by
      unfold Inheritance.parent? at hparent
      rw [h.parents c hc] at hparent
      split at hparent
      · split at hparent
        · cases hparent
        · simp_all
      · cases hparent
    exact .inr (hname ▸ h.isInheritable_parentName hc)

theorem ancestors_of_append {before after : List Name}
    (hline : s.ancestors x = before ++ y :: after) : s.ancestors y = y :: after := by
  have hy : y ∈ s.ancestors x := by simp [hline]
  have hway := h.exists_ancestors hy
  have hne : y ≠ [] ∧ y ≠ Name.noClass := by
    rcases hway.eq_or_parent hy with rfl | ⟨z, hz⟩
    · exact ne_of_mem_ancestors hy
    · exact ne_of_parent? (Option.some.inj hz)
  rw [hline] at hway
  exact Inheritance.ancestors_eq hway.of_append hne.1 hne.2

theorem of_symbols {s' : Symbols} (hinherit : s'.inheritance = s.inheritance)
    (hhas : ∀ x, s'.classes.has x = s.classes.has x) : Graph p s' where
  toNamed := h.toNamed
  distinct := h.distinct
  notSelfType := h.notSelfType
  classes := by
    intro x
    rw [hhas]
    exact h.classes x
  parents := by
    rw [hinherit]
    exact h.parents
  inheritable := h.inheritable
  linked := h.linked
  acyclic := by
    rw [hinherit]
    exact h.acyclic
  unlinked := by
    rw [hinherit]
    exact h.unlinked

end Graph

end Typing
end CoolCompiler
