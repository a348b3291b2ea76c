import CoolCompiler.Proofs.Typing.Features
import CoolCompiler.Proofs.Typing.Judgement

/-!
# Accepted programs

What is known of a program in which a fresh analysis has found nothing wrong: a class graph without
fault, known features, and checked expressions.
-/

namespace CoolCompiler

open List Analysis AnalysisNote Typing.Check Symbols

namespace Typing

def AttributeChecked (ctx : Context) (a a' : Attribute) : Prop :=
  ∃ init, a' = { a with init := init } ∧
    (a.init.isOmitted = true ∧ init = a.init ∨ infer ctx Scopes.empty a.init = .ok (init, []))

def MethodChecked (ctx : Context) (m m' : Method) : Prop :=
  ∃ body, m' = { m with body := body } ∧
    infer ctx (formalScopes Scopes.empty m.formals) m.body = .ok (body, []) ∧
    (ctx.symbols.isType m.returns = true → ctx.conforms body.type m.returns = true)

structure ClassChecked (s : Symbols) (c c' : Class) : Prop where
  name : c'.name = c.name
  parentName : c'.parentName = c.parentName
  attributes : List.Forall₂ (AttributeChecked ⟨s, c.name⟩) c.attributes c'.attributes
  methods : List.Forall₂ (MethodChecked ⟨s, c.name⟩) c.methods c'.methods

theorem checkAttribute_spec {ctx : Context} {a a' : Attribute}
    (h : checkAttribute ctx a = .ok (a', [])) : AttributeChecked ctx a a' := by
  unfold checkAttribute at h
  split at h
  · rename_i m hinit
    rw [pure_eq_ok_iff] at h
    subst h
    exact ⟨a'.init, rfl, .inl ⟨by rw [hinit]; rfl, rfl⟩⟩
  · simp only [bind_eq_ok_iff, pure_eq_ok_iff] at h
    obtain ⟨init, hinit, _, _, rfl⟩ := h
    exact ⟨init, rfl, .inr hinit⟩

theorem checkMethod_spec {ctx : Context} {m m' : Method}
    (h : checkMethod ctx m = .ok (m', [])) : MethodChecked ctx m m' := by
  simp only [checkMethod, bind_eq_ok_iff, pure_eq_ok_iff,
    require_eq_ok_iff] at h
  obtain ⟨body, hbody, _, hfits, rfl⟩ := h
  refine ⟨body, rfl, hbody, ?_⟩
  intro hreturns
  simpa [hreturns] using hfits

theorem checkFeatures_spec {ctx : Context} {fs fs' : List Feature}
    (h : checkFeatures ctx fs = .ok (fs', [])) :
    List.Forall₂ (AttributeChecked ctx) (fs.filterMap Feature.attribute?)
      (fs'.filterMap Feature.attribute?) ∧
    List.Forall₂ (MethodChecked ctx) (fs.filterMap Feature.method?)
      (fs'.filterMap Feature.method?) := by
  induction fs generalizing fs' with
  | nil =>
    simp only [checkFeatures, pure_eq_ok_iff] at h
    subst h
    exact ⟨.nil, .nil⟩
  | cons f fs ih =>
    simp only [checkFeatures, bind_eq_ok_iff, pure_eq_ok_iff] at h
    obtain ⟨first, hfirst, rest, hrest, rfl⟩ := h
    obtain ⟨hattributes, hmethods⟩ := ih hrest
    cases f with
    | attr a =>
      simp only [checkFeature, bind_eq_ok_iff, pure_eq_ok_iff] at hfirst
      obtain ⟨a', ha', rfl⟩ := hfirst
      exact ⟨.cons (checkAttribute_spec ha') hattributes, hmethods⟩
    | method m =>
      simp only [checkFeature, bind_eq_ok_iff, pure_eq_ok_iff] at hfirst
      obtain ⟨m', hm', rfl⟩ := hfirst
      exact ⟨hattributes, .cons (checkMethod_spec hm') hmethods⟩

theorem checkClasses_spec {s : Symbols} {p q : List Class}
    (h : checkClasses s p = .ok (q, [])) :
    List.Forall₂ (fun c c' => ClassChecked s c c' ∧ c'.file = c.file) p q := by
  induction p generalizing q with
  | nil =>
    cases h
    exact .nil
  | cons c p ih =>
    unfold checkClasses at h
    cases hc : checkClass s c with
    | error e => simp [hc] at h
    | ok r =>
      obtain ⟨c', found⟩ := r
      cases hp : checkClasses s p with
      | error e => simp [hc, hp] at h
      | ok r =>
        obtain ⟨q', more⟩ := r
        simp only [hc, hp, Except.ok.injEq, Prod.mk.injEq, append_eq_nil_iff] at h
        obtain ⟨rfl, rfl, rfl⟩ := h
        refine .cons ?_ (ih hp)
        unfold checkClass at hc
        split at hc
        · cases hc
        · rename_i features found hfeatures
          simp only [Except.ok.injEq, Prod.mk.injEq, map_eq_nil_iff] at hc
          obtain ⟨rfl, rfl⟩ := hc
          obtain ⟨hattributes, hmethods⟩ := checkFeatures_spec hfeatures
          exact ⟨⟨rfl, rfl, hattributes, hmethods⟩, rfl⟩

/-!
# The phases
-/

theorem faulty_eq_false_iff {a : Analysis} {notes : List AnalysisNote} :
    a.faulty notes = false ↔ a.diagnostics ++ notes.filterMap diagnostic? = [] := by
  unfold faulty
  rw [Bool.not_eq_false', List.isEmpty_iff]

theorem filterMap_diagnosed (ds : List Diagnostic) :
    (ds.map diagnosed).filterMap diagnostic? = ds := by
  rw [filterMap_map]
  exact filterMap_some

end Typing

/-- A program that a fresh analysis has accepted, with the symbols it ended with and the
program it returned. -/
structure Accepted (p : Program) (s : Symbols) (q : Program) : Prop where
  collected : Typing.Collected p s p
  checked : List.Forall₂ (fun c c' => Typing.ClassChecked s c c' ∧ c'.file = c.file) p q

namespace Typing

variable {p : Program} {o : Outcome}

/-- A class graph is without fault if each of its steps is: cycles are looked for as soon as
the links are all right. -/
theorem faulty_classGraph_iff {a : Analysis} :
    a.faulty (a.classGraph p).2 = false ↔ a.diagnostics = [] ∧
      (registerAll a.symbols p).2.2.filterMap diagnostic? = [] ∧
      (linkParents (registerAll a.symbols p).1 (registerAll a.symbols p).2.1).2 = [] ∧
      cycles (linkParents (registerAll a.symbols p).1 (registerAll a.symbols p).2.1).1
        (registerAll a.symbols p).2.1 = [] := by
  let notes := (registerAll a.symbols p).2.2 ++ (linkParents (registerAll a.symbols p).1
    (registerAll a.symbols p).2.1).2.map diagnosed
  let found := cycles (linkParents (registerAll a.symbols p).1
    (registerAll a.symbols p).2.1).1 (registerAll a.symbols p).2.1
  have hnotes : (a.classGraph p).2 =
      if a.faulty notes then notes else notes ++ found.map .diagnosed := rfl
  have hsteps : a.faulty notes = false ↔ a.diagnostics = [] ∧
      (registerAll a.symbols p).2.2.filterMap diagnostic? = [] ∧
      (linkParents (registerAll a.symbols p).1 (registerAll a.symbols p).2.1).2 = [] := by
    simp only [faulty_eq_false_iff, notes, filterMap_append, filterMap_diagnosed,
      append_eq_nil_iff]
  rw [hnotes]
  cases hfaulty : a.faulty notes with
  | true =>
    rw [if_pos rfl, hfaulty]
    refine ⟨fun h => absurd h (by decide), fun ⟨hbefore, hregister, hlink, _⟩ => ?_⟩
    rw [← hfaulty, hsteps]
    exact ⟨hbefore, hregister, hlink⟩
  | false =>
    obtain ⟨hbefore, hregister, hlink⟩ := hsteps.mp hfaulty
    simp only [Bool.false_eq_true, if_false, faulty_eq_false_iff, notes, found,
      filterMap_append, filterMap_diagnosed, hbefore, hregister, hlink, append_nil,
      nil_append, true_and]

theorem classGraph_clean_iff :
    (fresh.classGraph p).2.filterMap diagnostic? = [] ↔
      (registerAll initial p).2.2.filterMap diagnostic? = [] ∧
      (linkParents (registerAll initial p).1 (registerAll initial p).2.1).2 = [] ∧
      cycles (linkParents (registerAll initial p).1
        (registerAll initial p).2.1).1 (registerAll initial p).2.1 = [] := by
  have hfaulty : fresh.faulty (fresh.classGraph p).2 = false ↔
      (fresh.classGraph p).2.filterMap diagnostic? = [] :=
    faulty_eq_false_iff
  rw [← hfaulty, faulty_classGraph_iff]
  exact and_iff_right rfl

theorem run_phases (h : fresh.run p = .ok o) (hclean : o.analysis.diagnostics = []) :
    (registerAll initial p).2.2.filterMap diagnostic? = [] ∧
    (linkParents (registerAll initial p).1 (registerAll initial p).2.1).2 = [] ∧
    cycles (linkParents (registerAll initial p).1 (registerAll initial p).2.1).1
      (registerAll initial p).2.1 = [] ∧
    (collectAll (linkParents (registerAll initial p).1
      (registerAll initial p).2.1).1 (parentsFirst p)).2 = [] ∧
    o.analysis.symbols = (collectAll (linkParents (registerAll initial p).1
      (registerAll initial p).2.1).1 (parentsFirst p)).1 ∧
    checkClasses o.analysis.symbols p = .ok (o.program, []) := by
  -- An analysis that stops because something is wrong keeps what it has found.
  have hstop : ∀ (notes : List AnalysisNote) (s : Symbols) (q : Program),
      (fresh.stop s q notes).analysis.diagnostics = [] →
      fresh.faulty notes = false := by
    intro notes s q hnone
    exact faulty_eq_false_iff.mpr hnone
  simp only [run] at h
  split at h
  · rename_i hfaulty
    cases h
    rw [hstop _ _ _ hclean] at hfaulty
    cases hfaulty
  · split at h
    · rename_i hfaulty
      cases h
      rw [hstop _ _ _ hclean] at hfaulty
      cases hfaulty
    · cases hcheck : checkClasses (collectAll (fresh.classGraph p).1
          (parentsFirst p)).1 p with
      | error e =>
        rw [hcheck] at h
        cases h
      | ok r =>
        obtain ⟨q, found⟩ := r
        rw [hcheck] at h
        cases h
        have hall := faulty_eq_false_iff.mp (hstop _ _ _ hclean)
        simp only [filterMap_append, filterMap_diagnosed, append_eq_nil_iff] at hall
        obtain ⟨_, ⟨⟨hgraph, hcollect⟩, _⟩, hfound⟩ := hall
        obtain ⟨hregister, hlink, hcycles⟩ := classGraph_clean_iff.mp hgraph
        refine ⟨hregister, hlink, hcycles, hcollect, rfl, ?_⟩
        rw [← hfound]
        exact hcheck

theorem gathered_of_phases (hnamed : Named p)
    (hregister : (registerAll initial p).2.2.filterMap diagnostic? = [])
    (hlink : (linkParents (registerAll initial p).1 p).2 = [])
    (hcycles : cycles (linkParents (registerAll initial p).1 p).1 p = []) :
    Gathered p (linkParents (registerAll initial p).1 p).1 [] := by
  obtain ⟨_, _, _, _, hfind, hother⟩ := registerAll_spec hregister
  refine ⟨graph_of_phases hnamed hregister hlink hcycles, forall_mem_nil _, ?_, ?_⟩
  · rw [linkParents_eq hlink]
    exact fun c hc _ => hfind c hc
  · rw [linkParents_eq hlink]
    exact hother

theorem run_gathered (hnamed : Named p) (h : fresh.run p = .ok o)
    (hclean : o.analysis.diagnostics = []) :
    ∃ order, Gathered p o.analysis.symbols order ∧ (∀ c ∈ p, c ∈ order) ∧
      ∀ c ∈ p, (featuresOf o.analysis.symbols c).2 = [] := by
  obtain ⟨hregister, hlink, hcycles, hcollect, hsymbols, _⟩ := run_phases h hclean
  obtain ⟨hnew, _, _, hnodup, _, _⟩ := registerAll_spec hregister
  rw [hnew] at hlink hcycles hcollect hsymbols
  have hstart := gathered_of_phases hnamed hregister hlink hcycles
  rcases parentsFirst_spec hnodup (fun c hc => hstart.graph.exists_classLine hc) with
    ⟨hordered, hcomplete⟩
  obtain ⟨hgathered, hfound⟩ := hstart.collectAll hordered
  rw [hcollect, ← hsymbols, eq_comm, featureFindings, flatMap_eq_nil_iff] at hfound
  rw [← hsymbols] at hgathered
  exact ⟨_, hgathered, hcomplete, fun c hc => map_eq_nil_iff.mp (hfound c (hcomplete c hc))⟩

theorem run_accepted (hnamed : Named p) (h : fresh.run p = .ok o)
    (hclean : o.analysis.diagnostics = []) : Accepted p o.analysis.symbols o.program := by
  obtain ⟨order, hgathered, hall, hfeatures⟩ := run_gathered hnamed h hclean
  exact ⟨hgathered.collected hall hfeatures, checkClasses_spec (run_phases h hclean).2.2.2.2.2⟩

/-!
# The program returned

The analysis only adds types, so what was collected of a program holds of the one it returns.
-/

structure ClassTyped (s : Symbols) (c : Class) : Prop where
  attributes : ∀ a ∈ c.attributes,
    a.init.isOmitted = true ∨ Checked ⟨s, c.name⟩ Scopes.empty a.init
  methods : ∀ m ∈ c.methods,
    Checked ⟨s, c.name⟩ (formalScopes Scopes.empty m.formals) m.body

structure ClassFilled (c : Class) : Prop where
  attributes : ∀ a ∈ c.attributes, a.init.CasesFilled
  methods : ∀ m ∈ c.methods, m.body.CasesFilled

namespace ClassChecked

variable {s : Symbols} {c c' : Class}

variable (h : ClassChecked s c c')
include h

theorem map_attribute :
    c'.attributes.map (fun a => (a.name, a.type)) =
      c.attributes.map (fun a => (a.name, a.type)) := by
  refine map_eq_of_forall₂ h.attributes ?_
  rintro a a' ⟨init, rfl, _⟩
  rfl

theorem map_method : c'.methods.map Method.name = c.methods.map Method.name := by
  refine map_eq_of_forall₂ h.methods ?_
  rintro m m' ⟨body, rfl, _⟩
  rfl

theorem exists_attribute {a' : Attribute} (ha' : a' ∈ c'.attributes) :
    ∃ a ∈ c.attributes, a.name = a'.name ∧ a.type = a'.type := by
  have hmem : (a'.name, a'.type) ∈ c.attributes.map (fun a => (a.name, a.type)) := by
    rw [← h.map_attribute]
    exact mem_map_of_mem ha'
  obtain ⟨a, ha, heq⟩ := mem_map.mp hmem
  exact ⟨a, ha, congrArg Prod.fst heq, congrArg Prod.snd heq⟩

theorem map_attributeName : c'.attributes.map Attribute.name = c.attributes.map Attribute.name := by
  simpa [Function.comp_def] using congrArg (List.map Prod.fst) h.map_attribute

theorem knows (hknows : Knows s c) : Knows s c' := by
  obtain ⟨k, hk, hmethods, hattributes⟩ := hknows
  refine ⟨k, h.name ▸ hk, ?_, ?_⟩
  · intro x
    rw [hmethods x, ← mem_map, ← mem_map, h.map_method]
  · intro x
    rw [hattributes x, ← mem_map, ← mem_map, h.map_attributeName]

theorem exists_body : ∀ m ∈ c.methods,
    ∃ body, infer ⟨s, c.name⟩ (formalScopes Scopes.empty m.formals) m.body = .ok (body, []) ∧
      (s.isType m.returns = true → s.conforms body.type m.returns c.name = true) := by
  refine forall_right_of_forall₂ h.methods.flip ?_
  rintro m' _ m ⟨body, _, hinfer⟩
  exact ⟨body, hinfer⟩

theorem typed : ClassTyped s c' := by
  constructor
  · refine forall_right_of_forall₂ h.attributes ?_
    rintro a _ a' ⟨init, rfl, ⟨homitted, rfl⟩ | hinfer⟩
    · exact .inl homitted
    · rw [h.name]
      exact .inr (infer_checked hinfer)
  · refine forall_right_of_forall₂ h.methods ?_
    rintro m _ m' ⟨body, rfl, hinfer, _⟩
    rw [h.name]
    exact infer_checked hinfer

theorem filled (hfilled : ClassFilled c) : ClassFilled c' := by
  constructor
  · refine forall_right_of_forall₂ h.attributes ?_
    rintro a ha a' ⟨init, rfl, ⟨_, rfl⟩ | hinfer⟩
    · exact hfilled.attributes a ha
    · exact infer_casesFilled hinfer (hfilled.attributes a ha)
  · refine forall_right_of_forall₂ h.methods ?_
    rintro m hm m' ⟨body, rfl, hinfer, _⟩
    exact infer_casesFilled hinfer (hfilled.methods m hm)

end ClassChecked

end Typing

namespace Accepted

open Typing

variable {p q : Program} {s : Symbols}

variable (h : Accepted p s q)
include h

theorem heading_eq : q.map ClassTable.heading = p.map ClassTable.heading := by
  refine map_eq_of_forall₂ h.checked ?_
  rintro c c' ⟨hchecked, _⟩
  rw [ClassTable.heading, ClassTable.heading, hchecked.name, hchecked.parentName]

theorem exists_source {c' : Class} (hc' : c' ∈ q) : ∃ c ∈ p, ClassChecked s c c' := by
  have hall : ∀ d ∈ q, ∃ c ∈ p, ClassChecked s c d := by
    refine forall_right_of_forall₂ h.checked ?_
    rintro c hc d ⟨hchecked, _⟩
    exact ⟨c, hc, hchecked⟩
  exact hall c' hc'

theorem exists_result : ∀ c ∈ p, ∃ c' ∈ q, ClassChecked s c c' := by
  refine forall_right_of_forall₂ h.checked.flip ?_
  rintro c' hc' c ⟨hchecked, _⟩
  exact ⟨c', hc', hchecked⟩

theorem exists_source_all {d' : Class} (hd' : d' ∈ Class.builtin ++ q) :
    ∃ d ∈ Class.builtin ++ p, d.name = d'.name ∧
      ∀ b' ∈ d'.attributes, ∃ b ∈ d.attributes, b.name = b'.name := by
  rcases mem_append.mp hd' with hbuiltin | hq
  · exact ⟨d', mem_append_left p hbuiltin, rfl, fun b' hb' => ⟨b', hb', rfl⟩⟩
  · obtain ⟨d, hd, hchecked⟩ := h.exists_source hq
    refine ⟨d, mem_append_right _ hd, hchecked.name.symm, fun b' hb' => ?_⟩
    obtain ⟨b, hb, hname, _⟩ := hchecked.exists_attribute hb'
    exact ⟨b, hb, hname⟩

theorem collected_result : Collected q s q where
  graph := h.collected.graph.of_heading h.heading_eq
  builtin := h.collected.builtin
  known := by
    intro c' hc'
    obtain ⟨c, hc, hchecked⟩ := h.exists_source hc'
    exact hchecked.knows (h.collected.known c hc)
  attributed := by
    intro c' hc'
    obtain ⟨c, hc, hchecked⟩ := h.exists_source hc'
    have hattributed := h.collected.attributed c hc
    constructor
    · rw [hchecked.map_attributeName]
      exact hattributed.distinct
    · intro a' ha'
      obtain ⟨a, ha, hname, _⟩ := hchecked.exists_attribute ha'
      rw [← hname]
      exact hattributed.notSelf a ha
    · intro a' ha'
      obtain ⟨a, ha, _, htype⟩ := hchecked.exists_attribute ha'
      rw [← htype, Graph.classNames_of_heading h.heading_eq]
      exact hattributed.isType a ha
    · intro a' ha' d' hd' hancestor b' hb'
      obtain ⟨a, ha, hname, _⟩ := hchecked.exists_attribute ha'
      obtain ⟨d, hd, hdname, hattributes⟩ := h.exists_source_all hd'
      obtain ⟨b, hb, hbname⟩ := hattributes b' hb'
      rw [← hname, ← hbname]
      rw [← hdname, hchecked.parentName] at hancestor
      exact hattributed.own a ha d hd hancestor b hb
  bare := fun c hc hno => absurd hc hno

theorem typed : ∀ c ∈ q, ClassTyped s c := by
  intro c' hc'
  obtain ⟨c, _, hchecked⟩ := h.exists_source hc'
  exact hchecked.typed

theorem filled (hfilled : ∀ c ∈ p, ClassFilled c) : ∀ c ∈ q, ClassFilled c := by
  intro c' hc'
  obtain ⟨c, hc, hchecked⟩ := h.exists_source hc'
  exact hchecked.filled (hfilled c hc)

end Accepted

end CoolCompiler
