import CoolCompiler.Proofs.Typing.Graph

/-!
# Features collected

Classes are taken with their parents first, so the symbols end with what collecting the features of
a class again would give.  Where nothing is found, that is what the class declares, and no class
declares an attribute that it inherits.
-/

namespace CoolCompiler

open List Symbols

def ClassSymbol.declaring (k : ClassSymbol) (builtin : Bool) (fs : List Feature) : ClassSymbol :=
  { k with
    methods := (fs.filterMap Feature.method?).foldl
      (fun d m => d.put m.name (MethodSymbol.ofMethod k.name builtin m)) k.methods
    attributes := (fs.filterMap Feature.attribute?).foldl
      (fun d a => d.put a.name (AttributeSymbol.ofAttribute k.name a)) k.attributes }

namespace Typing

def Knows (s : Symbols) (c : Class) : Prop :=
  ∃ k, s.classes.find? c.name = some k ∧
    (∀ x, k.methods.has x = true ↔ ∃ m ∈ c.methods, m.name = x) ∧
    ∀ x, k.attributes.has x = true ↔ ∃ a ∈ c.attributes, a.name = x

/-- The attributes of a class are in order: distinct, of known types, and none of them
declared by an ancestor. -/
structure Attributed (p : List Class) (g : Inheritance) (c : Class) : Prop where
  distinct : (c.attributes.map Attribute.name).Nodup
  notSelf : ∀ a ∈ c.attributes, a.name ≠ Name.self
  isType : ∀ a ∈ c.attributes, a.type = Name.selfType ∨ a.type ∈ classNames p
  own : ∀ a ∈ c.attributes, ∀ d ∈ Class.builtin ++ p, d.name ∈ g.ancestors c.parentName →
    ∀ b ∈ d.attributes, b.name ≠ a.name

/-!
# One class
-/

variable {s s' : Symbols} {k : ClassSymbol} {parent : Name} {c : Class}

theorem addMethod_spec {m : Method} (h : (addMethod s parent k m).2 = []) :
    k.methods.has m.name = false ∧ (signatureFindings s m = [] ∧
      ∀ f, s.method? parent m.name = some f → overrideFindings m f = []) ∧
      (addMethod s parent k m).1 =
        { k with methods := k.methods.put m.name (MethodSymbol.ofMethod k.name false m) } := by
  unfold addMethod at h ⊢
  cases hhas : k.methods.has m.name with
  | true => simp [hhas] at h
  | false =>
    simp only [hhas, Bool.false_eq_true, if_false, append_eq_nil_iff] at h ⊢
    refine ⟨trivial, ⟨h.1, fun f hf => ?_⟩, trivial⟩
    rw [hf] at h
    exact h.2

theorem addAttribute_spec {a : Attribute} (h : (addAttribute s parent k a).2 = []) :
    k.attributes.has a.name = false ∧ (a.name ≠ Name.self ∧ s.attribute? parent a.name = none ∧
      s.isType a.type = true) ∧ (addAttribute s parent k a).1 =
        { k with
          attributes := k.attributes.put a.name (AttributeSymbol.ofAttribute k.name a) } := by
  unfold addAttribute at h ⊢
  by_cases hself : a.name = Name.self
  · simp [hself] at h
  · cases hhas : k.attributes.has a.name with
    | true => simp [hself, hhas] at h
    | false =>
      cases hparent : s.attribute? parent a.name with
      | some b => simp [hself, hhas, hparent] at h
      | none =>
        cases htype : s.isType a.type with
        | false => simp [hself, hhas, hparent, htype] at h
        | true => simp [hself]

theorem addFeatures_spec {fs : List Feature} (h : (addFeatures s parent k fs).2 = []) :
    (addFeatures s parent k fs).1 = k.declaring false fs ∧
    k.methods.Free Method.name (fs.filterMap Feature.method?) ∧
    k.attributes.Free Attribute.name (fs.filterMap Feature.attribute?) ∧
    (∀ m ∈ fs.filterMap Feature.method?, signatureFindings s m = [] ∧
      ∀ f, s.method? parent m.name = some f → overrideFindings m f = []) ∧
    ∀ a ∈ fs.filterMap Feature.attribute?, a.name ≠ Name.self ∧
      s.attribute? parent a.name = none ∧ s.isType a.type = true := by
  induction fs generalizing k with
  | nil => exact ⟨rfl, ⟨nodup_nil, by simp⟩, ⟨nodup_nil, by simp⟩, by simp, by simp⟩
  | cons f fs ih =>
    have hsplit : (addFeatures s parent k (f :: fs)).2 =
        (addFeature s parent k f).2 ++ (addFeatures s parent (addFeature s parent k f).1 fs).2 :=
      rfl
    have hresult : (addFeatures s parent k (f :: fs)).1 =
        (addFeatures s parent (addFeature s parent k f).1 fs).1 := rfl
    rw [hsplit, append_eq_nil_iff] at h
    obtain ⟨hk, hmethods, hattributes, hsigned, htyped⟩ := ih h.2
    rw [hresult, hk]
    cases f with
    | method m =>
      obtain ⟨hfresh, hm, hadded⟩ := addMethod_spec h.1
      have hfirst : (addFeature s parent k (.method m)).1 = _ := hadded
      rw [hfirst] at hmethods hattributes ⊢
      exact ⟨rfl, .cons hfresh hmethods, hattributes, forall_mem_cons.mpr ⟨hm, hsigned⟩,
        htyped⟩
    | attr a =>
      obtain ⟨hfresh, ha, hadded⟩ := addAttribute_spec h.1
      have hfirst : (addFeature s parent k (.attr a)).1 = _ := hadded
      rw [hfirst] at hmethods hattributes ⊢
      exact ⟨rfl, hmethods, .cons hfresh hattributes, hsigned,
        forall_mem_cons.mpr ⟨ha, htyped⟩⟩

theorem knows_of_declaring {builtin : Bool} (hmethods : k.methods = [])
    (hattributes : k.attributes = [])
    (h : s.classes.find? c.name = some (k.declaring builtin c.features)) : Knows s c := by
  refine ⟨_, h, fun x => ?_, fun x => ?_⟩
  · rw [ClassSymbol.declaring, Dictionary.has_foldl_put, hmethods]
    simp [Dictionary.has, Class.methods]
  · rw [ClassSymbol.declaring, Dictionary.has_foldl_put, hattributes]
    simp [Dictionary.has, Class.attributes]

def featuresOf (s : Symbols) (c : Class) : ClassSymbol × List Finding :=
  addFeatures s c.parentName (ClassSymbol.bare c) c.features

theorem addFeatures_name (s : Symbols) (parent : Name) (k : ClassSymbol) (fs : List Feature) :
    (addFeatures s parent k fs).1.name = k.name := by
  induction fs generalizing k with
  | nil => rfl
  | cons f fs ih =>
    have hone : (addFeature s parent k f).1.name = k.name := by
      cases f with
      | method m =>
        simp only [addFeature, addMethod]
        split <;> rfl
      | attr a =>
        simp only [addFeature, addAttribute]
        split
        · rfl
        · split
          · rfl
          · split <;> rfl
    exact (ih _).trans hone

theorem formalFindings_congr (h : ∀ t, s.isType t = s'.isType t) (seen : List Name)
    (fs : List Formal) : formalFindings s seen fs = formalFindings s' seen fs := by
  induction fs generalizing seen with
  | nil => rfl
  | cons f fs ih => simp only [formalFindings, formalTypeFindings, h, ih]

theorem addFeatures_congr (hmethod : ∀ x, s.method? parent x = s'.method? parent x)
    (hattribute : ∀ x, s.attribute? parent x = s'.attribute? parent x)
    (htype : ∀ t, s.isType t = s'.isType t) (k : ClassSymbol) (fs : List Feature) :
    addFeatures s parent k fs = addFeatures s' parent k fs := by
  induction fs generalizing k with
  | nil => rfl
  | cons f fs ih =>
    have hone : addFeature s parent k f = addFeature s' parent k f := by
      cases f with
      | method m =>
        simp only [addFeature, addMethod, signatureFindings, formalFindings_congr htype, htype,
          hmethod]
      | attr a => simp only [addFeature, addAttribute, hattribute, htype]
    simp only [addFeatures, hone, ih]

theorem findSome?_eq_of_forall {α β : Type} {f g : α → Option β} {l : List α}
    (h : ∀ a ∈ l, f a = g a) : l.findSome? f = l.findSome? g := by
  induction l with
  | nil => rfl
  | cons a l ih =>
    rw [forall_mem_cons] at h
    rw [findSome?_cons, findSome?_cons, h.1, ih h.2]

theorem featuresOf_congr (hancestors : s.ancestors c.parentName = s'.ancestors c.parentName)
    (habove : ∀ x ∈ s.ancestors c.parentName, s.classes.find? x = s'.classes.find? x)
    (hhas : ∀ x, s.classes.has x = s'.classes.has x) : featuresOf s c = featuresOf s' c := by
  refine addFeatures_congr ?_ ?_ (fun t => by simp only [Symbols.isType, hhas]) _ _
  · intro x
    unfold method?
    rw [← hancestors]
    exact findSome?_eq_of_forall fun a ha => by rw [habove a ha]
  · intro x
    unfold attribute?
    rw [← hancestors]
    exact findSome?_eq_of_forall fun a ha => by rw [habove a ha]

/-!
# Parents first
-/

theorem Ordered.parent_mem {classes order : List Class} (h : Ordered classes order) {q : Class}
    (hc : c ∈ order) (hq : parentAmong classes c = some q) : q ∈ order := by
  induction h with
  | nil => cases hc
  | snoc before mem fresh parent ih =>
    rcases mem_append.mp hc with hc | hc
    · exact mem_append_left _ (ih hc)
    · rw [mem_singleton.mp hc] at hq
      exact mem_append_left _ (parent q hq)

section Closure

variable {p order : List Class} {s : Symbols}

theorem Graph.not_mem_builtin (h : Graph p s) {c : Class} (hc : c ∈ p) : c ∉ Class.builtin := by
  intro hbuiltin
  have hbasic := (isBasic_iff c.name).mpr (mem_map_of_mem hbuiltin)
  rw [h.notBasic hc] at hbasic
  cases hbasic

theorem Graph.exists_parent (h : Graph p s) {c : Class}
    (hc : c ∈ Class.builtin ++ p) (hne : c.name ≠ Name.object) :
    ∃ q ∈ Class.builtin ++ p, q.name = c.parentName ∧
      (q ∈ Class.builtin ∨ c ∈ p ∧ parentAmong p c = some q) := by
  obtain ⟨q, hq, hname⟩ := mem_map.mp (h.parent?_of_ne hc hne).2
  refine ⟨q, hq, hname, ?_⟩
  rcases mem_append.mp hc with hbuiltin | hp
  · rw [Graph.parentName_builtin c hbuiltin hne] at hname
    rw [h.eq_of_name hq (mem_append_left p mem_cons_self) hname]
    exact .inl mem_cons_self
  · rcases mem_append.mp hq with hbuiltin | hqp
    · exact .inl hbuiltin
    · refine .inr ⟨hp, ?_⟩
      cases hamong : parentAmong p c with
      | none =>
        rw [parentAmong, find?_eq_none] at hamong
        exact absurd (by simpa using hname) (hamong q hqp)
      | some r =>
        have hr : r.name = c.parentName := by simpa using find?_some hamong
        have hrq := h.eq_of_name (mem_append_right _ (mem_of_parentAmong hamong)) hq
          (hr.trans hname.symm)
        rw [hrq]

theorem mem_of_ancestor (h : Graph p s) (hordered : Ordered p order)
    {x : Name} {line : List Name} (hline : s.inheritance.Ancestry x line) :
    ∀ c, c.name = x → c ∈ Class.builtin ∨ c ∈ order →
      ∀ d ∈ Class.builtin ++ p, d.name ∈ line → d ∈ Class.builtin ∨ d ∈ order := by
  have hmem : ∀ c, c ∈ Class.builtin ∨ c ∈ order → c ∈ Class.builtin ++ p := by
    intro c hc
    rcases hc with hc | hc
    · exact mem_append_left p hc
    · exact mem_append_right _ (hordered.subset c hc)
  induction hline with
  | root hroot =>
    intro c hname hc d hd hdline
    rw [mem_singleton] at hdline
    rw [h.eq_of_name hd (hmem c hc) (hdline.trans hname.symm)]
    exact hc
  | step hp hline ih =>
    intro c hname hc d hd hdline
    rcases mem_cons.mp hdline with hdx | hrest
    · rw [h.eq_of_name hd (hmem c hc) (hdx.trans hname.symm)]
      exact hc
    · subst hname
      have hne : c.name ≠ Name.object := by
        intro hobject
        rw [hobject, h.parent?_root] at hp
        cases hp
      have hup := (h.parent?_of_ne (hmem c hc) hne).1
      rw [Option.some.inj hp] at hup
      obtain ⟨q, _, hqname, hq⟩ := h.exists_parent (hmem c hc) hne
      refine ih q (hqname.trans (Option.some.inj hup).symm) ?_ d hd hrest
      rcases hq with hq | ⟨hcp, hq⟩
      · exact .inl hq
      · rcases hc with hc | hc
        · have hbasic := (isBasic_iff c.name).mpr (mem_map_of_mem hc)
          rw [h.notBasic hcp] at hbasic
          cases hbasic
        · exact .inr (hordered.parent_mem hc hq)

theorem not_mem_ancestors_parent (h : Graph p s) (hordered : Ordered p order)
    {c d : Class} (hc : c ∈ Class.builtin ++ p)
    (hparent : ∀ q, c ∈ p → parentAmong p c = some q → q ∈ order) (hd : d ∈ p)
    (hfresh : d ∉ order) : d.name ∉ s.ancestors c.parentName := by
  by_cases hobject : c.name = Name.object
  · -- The root has no parent, so nothing is above it.
    have hroot : ∀ b ∈ Class.builtin, b.name = Name.object → b.parentName = Name.noClass := by
      decide
    have hbuiltin : c ∈ Class.builtin := by
      rcases mem_append.mp hc with hc | hc
      · exact hc
      · exact absurd hobject (h.ne_object hc)
    rw [hroot c hbuiltin hobject]
    simp [ancestors, Inheritance.ancestors, Inheritance.start?, Inheritance.climb]
  · obtain ⟨q, hq, hqname, hqmem⟩ := h.exists_parent hc hobject
    have hqtaken : q ∈ Class.builtin ∨ q ∈ order :=
      hqmem.imp id fun hamong => hparent q hamong.1 hamong.2
    obtain ⟨line, hline⟩ := h.exists_ancestry hq
    rw [← hqname, h.ancestors_of_ancestry (mem_map_of_mem hq) hline]
    intro hmem
    rcases mem_of_ancestor h hordered hline q rfl hqtaken d (mem_append_right _ hd)
      hmem with hbuiltin | hdone
    · exact h.not_mem_builtin hd hbuiltin
    · exact hfresh hdone

end Closure

/-!
# All classes
-/

/-- The features of `done`, and of no other class, have been collected, rightly or wrongly, as they
would be if collected again. -/
structure Gathered (p : List Class) (s : Symbols) (done : List Class) : Prop where
  graph : Graph p s
  settled : ∀ c ∈ done, s.classes.find? c.name = some (featuresOf s c).1
  bare : ∀ c ∈ p, c ∉ done → s.classes.find? c.name = some (ClassSymbol.bare c)
  others : ∀ x, x ∉ p.map Class.name → s.classes.find? x = initial.classes.find? x

def featureFindings (s : Symbols) (cs : List Class) : List Diagnostic :=
  cs.flatMap fun c => (featuresOf s c).2.map (Diagnostic.ofFinding c.file)

section Collection

variable {p order : List Class} {s : Symbols}

theorem collectAll_append (xs ys : List Class) :
    collectAll s (xs ++ ys) = ((collectAll (collectAll s xs).1 ys).1,
      (collectAll s xs).2 ++ (collectAll (collectAll s xs).1 ys).2) := by
  induction xs generalizing s with
  | nil => rfl
  | cons c xs ih =>
    simp only [cons_append, collectAll, ih, append_assoc]

def settle (s : Symbols) (c : Class) : Symbols := s.putClass (featuresOf s c).1

theorem find?_settle (s : Symbols) (c : Class) (x : Name) : (settle s c).classes.find? x =
    if x = c.name then some (featuresOf s c).1 else s.classes.find? x := by
  have hname : (featuresOf s c).1.name = c.name := addFeatures_name _ _ _ _
  rw [← hname]
  exact Dictionary.find?_put _ _ _ x

namespace Gathered

variable {c : Class} (h : Gathered p s order) (mem : c ∈ p) (fresh : c ∉ order)
include h mem fresh

theorem collect_eq : Typing.collect s c =
    (settle s c, (featuresOf s c).2.map (Diagnostic.ofFinding c.file)) := by
  rw [Typing.collect, h.bare c mem fresh]
  rfl

theorem has_settle (x : Name) : (settle s c).classes.has x = s.classes.has x := by
  unfold Dictionary.has
  rw [find?_settle]
  by_cases hx : x = c.name
  · rw [if_pos hx, hx, h.bare c mem fresh]
    rfl
  · rw [if_neg hx]

theorem featuresOf_settle (before : Ordered p order)
    (parent : ∀ q, parentAmong p c = some q → q ∈ order) {d : Class} (hd : d ∈ order ++ [c]) :
    featuresOf (settle s c) d = featuresOf s d := by
  have htaken : d ∈ Class.builtin ++ p :=
    mem_append_right _ ((before.snoc mem fresh parent).subset d hd)
  have hparent : ∀ q, d ∈ p → parentAmong p d = some q → q ∈ order := by
    intro q _ hq
    rcases mem_append.mp hd with hd | hd
    · exact before.parent_mem hd hq
    · exact parent q (mem_singleton.mp hd ▸ hq)
  have hnot := not_mem_ancestors_parent h.graph before htaken hparent mem fresh
  refine featuresOf_congr rfl ?_ (h.has_settle mem fresh)
  intro x hx
  have hne : x ≠ c.name := fun heq => hnot (heq ▸ hx)
  rw [find?_settle, if_neg hne]

theorem collect (before : Ordered p order)
    (parent : ∀ q, parentAmong p c = some q → q ∈ order) :
    Gathered p (settle s c) (order ++ [c]) := by
  have hgraph := h.graph
  have hsubset := (before.snoc mem fresh parent).subset
  refine ⟨hgraph.of_symbols rfl (h.has_settle mem fresh), ?_, ?_, ?_⟩
  · intro d hd
    rw [h.featuresOf_settle mem fresh before parent hd, find?_settle]
    by_cases hdc : d.name = c.name
    · rw [if_pos hdc, hgraph.eq_of_name (mem_append_right _ (hsubset d hd))
        (mem_append_right _ mem) hdc]
    · rw [if_neg hdc]
      rcases mem_append.mp hd with hd | hd
      · exact h.settled d hd
      · exact absurd (congrArg Class.name (mem_singleton.mp hd)) hdc
  · intro d hd hnot
    rw [mem_append, not_or, mem_singleton] at hnot
    have hne : d.name ≠ c.name := fun heq => hnot.2
      (hgraph.eq_of_name (mem_append_right _ hd) (mem_append_right _ mem) heq)
    rw [find?_settle, if_neg hne]
    exact h.bare d hd hnot.1
  · intro x hx
    have hne : x ≠ c.name := by
      rintro rfl
      exact hx (mem_map_of_mem mem)
    rw [find?_settle, if_neg hne]
    exact h.others x hx

end Gathered

theorem Gathered.collectAll (h : Gathered p s []) (hordered : Ordered p order) :
    Gathered p (Typing.collectAll s order).1 order ∧
      (Typing.collectAll s order).2 = featureFindings (Typing.collectAll s order).1 order := by
  induction hordered with
  | nil => exact ⟨h, rfl⟩
  | @snoc order c before mem fresh parent ih =>
    obtain ⟨hbefore, hfound⟩ := ih
    have hone : Typing.collectAll (Typing.collectAll s order).1 [c] =
        (settle (Typing.collectAll s order).1 c,
          (featuresOf (Typing.collectAll s order).1 c).2.map (Diagnostic.ofFinding c.file)) := by
      simp only [Typing.collectAll, append_nil, hbefore.collect_eq mem fresh]
    rw [collectAll_append, hone]
    refine ⟨hbefore.collect mem fresh before parent, ?_⟩
    show _ = featureFindings (settle (Typing.collectAll s order).1 c) (order ++ [c])
    have hsame : featureFindings (settle (Typing.collectAll s order).1 c) (order ++ [c]) =
        featureFindings (Typing.collectAll s order).1 (order ++ [c]) := by
      unfold featureFindings
      refine flatMap_congr fun d hd => ?_
      rw [hbefore.featuresOf_settle mem fresh before parent hd]
    rw [hsame, featureFindings, flatMap_append, flatMap_singleton]
    exact congrArg (· ++ _) hfound

/-- The features of the built-in classes and of the classes `done` have been collected without a
complaint, and no others. -/
structure Collected (p : List Class) (s : Symbols) (done : List Class) : Prop where
  graph : Graph p s
  builtin : ∀ c ∈ Class.builtin, Knows s c
  known : ∀ c ∈ done, Knows s c
  attributed : ∀ c ∈ done, Attributed p s.inheritance c
  bare : ∀ c ∈ p, c ∉ done → s.classes.find? c.name = some (ClassSymbol.bare c)

theorem attributes_of_knows {c : Class} (hknows : Knows s c) {x : Name}
    (hnone : ((s.classes.find? c.name).bind fun k => k.attributes.find? x) = none) :
    ∀ b ∈ c.attributes, b.name ≠ x := by
  obtain ⟨k, hk, _, hattributes⟩ := hknows
  intro b hb hname
  obtain ⟨v, hv⟩ := Dictionary.has_eq_true_iff.mp ((hattributes x).mpr ⟨b, hb, hname⟩)
  rw [hk, Option.bind_some, hv] at hnone
  cases hnone

theorem knows_initial : ∀ c ∈ Class.builtin,
    initial.classes.find? c.name = some (ClassSymbol.ofBuiltin c) := by
  intro c hc
  exact Dictionary.find?_foldl_put Class.name ClassSymbol.ofBuiltin [] (by decide) hc

theorem Gathered.find?_builtin (h : Gathered p s order) {c : Class} (hc : c ∈ Class.builtin) :
    s.classes.find? c.name = some (ClassSymbol.ofBuiltin c) := by
  rw [h.others, knows_initial c hc]
  intro hmem
  obtain ⟨d, hd, hname⟩ := mem_map.mp hmem
  have hbasic := (isBasic_iff c.name).mpr (mem_map_of_mem hc)
  rw [← hname, h.graph.notBasic hd] at hbasic
  cases hbasic

theorem Gathered.collected (h : Gathered p s order) (hall : ∀ c ∈ p, c ∈ order)
    (hclean : ∀ c ∈ p, (featuresOf s c).2 = []) : Collected p s p := by
  have hbuiltin : ∀ c ∈ Class.builtin, Knows s c := fun c hc =>
    knows_of_declaring (k := { ClassSymbol.bare c with builtin := true }) rfl rfl
      (h.find?_builtin hc)
  have hknown : ∀ c ∈ p, Knows s c := by
    intro c hc
    have hfind := h.settled c (hall c hc)
    rw [featuresOf, (addFeatures_spec (hclean c hc)).1] at hfind
    exact knows_of_declaring rfl rfl hfind
  refine ⟨h.graph, hbuiltin, hknown, fun c hc => ?_, fun c hc hno => absurd hc hno⟩
  obtain ⟨_, _, hfree, _, htyped⟩ := addFeatures_spec (hclean c hc)
  refine ⟨hfree.distinct, fun a ha => (htyped a ha).1, fun a ha => ?_, fun a ha d hd habove => ?_⟩
  · have htype := (htyped a ha).2.2
    rw [Symbols.isType, Bool.or_eq_true, beq_iff_eq, h.graph.classes] at htype
    exact htype
  · have hnone := (htyped a ha).2.1
    rw [attribute?, findSome?_eq_none_iff] at hnone
    exact attributes_of_knows (forall_mem_append.mpr ⟨hbuiltin, hknown⟩ d hd)
      (hnone d.name habove)

end Collection

end Typing
end CoolCompiler
