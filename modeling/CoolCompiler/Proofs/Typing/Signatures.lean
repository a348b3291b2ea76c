import CoolCompiler.Proofs.Typing.Analysis

/-!
# Signatures

A method that overrides another has its signature.  Only the nearest ancestor is compared with, but
parents come first, so methods of one name agree all the way up.
-/

namespace CoolCompiler

open List

abbrev Signature := List Name × Name

def Method.signature (m : Method) : Signature := (m.formals.map Formal.type, m.returns)

def MethodSymbol.signature (f : MethodSymbol) : Signature :=
  (f.formals.map Formal.type, f.returns)

namespace Typing

def Records (s : Symbols) (c : Class) : Prop :=
  ∃ k, s.classes.find? c.name = some k ∧
    (∀ m ∈ c.methods, ∃ builtin,
      k.methods.find? m.name = some (MethodSymbol.ofMethod c.name builtin m)) ∧
    ∀ a ∈ c.attributes,
      k.attributes.find? a.name = some (AttributeSymbol.ofAttribute c.name a)

/-- The methods of a class are distinct, with distinct formals of known types, and with the
signatures of those that they override. -/
structure Signed (s : Symbols) (c : Class) : Prop where
  records : Records s c
  distinct : (c.methods.map Method.name).Nodup
  formals : ∀ m ∈ c.methods, (m.formals.map Formal.name).Nodup
  formalTypes : ∀ m ∈ c.methods, ∀ f ∈ m.formals, s.isType f.type = true
  returns : ∀ m ∈ c.methods, s.isType m.returns = true
  overrides : ∀ m ∈ c.methods, ∀ f, s.method? c.parentName m.name = some f →
    f.signature = m.signature

/-!
# One method
-/

theorem formalFindings_eq_nil {s : Symbols} {seen : List Name} {fs : List Formal}
    (h : formalFindings s seen fs = []) :
    (fs.map Formal.name).Nodup ∧ (∀ f ∈ fs, f.name ∉ seen) ∧
      ∀ f ∈ fs, s.isType f.type = true := by
  induction fs generalizing seen with
  | nil => simp
  | cons f fs ih =>
    simp only [formalFindings, append_eq_nil_iff] at h
    obtain ⟨⟨hname, htype⟩, hrest⟩ := h
    obtain ⟨hnodup, hfresh, htypes⟩ := ih hrest
    have hseen : f.name ∉ seen := by
      unfold formalNameFindings at hname
      split at hname
      · cases hname
      · simpa using hname
    have hknown : s.isType f.type = true := by
      unfold formalTypeFindings at htype
      split at htype
      · cases htype
      · simpa using htype
    refine ⟨?_, ?_, forall_mem_cons.mpr ⟨hknown, htypes⟩⟩
    · rw [map_cons, nodup_cons]
      refine ⟨?_, hnodup⟩
      intro hmem
      obtain ⟨g, hg, hgname⟩ := mem_map.mp hmem
      exact hfresh g hg (hgname ▸ mem_cons_self)
    · intro g hg
      cases hg with
      | head => exact hseen
      | tail _ hg => exact fun hmem => hfresh g hg (mem_cons_of_mem _ hmem)

theorem overrideFormalFindings_eq_nil {method : Name} {fs gs : List Formal}
    (h : overrideFormalFindings method fs gs = []) (hlength : fs.length = gs.length) :
    gs.map Formal.type = fs.map Formal.type := by
  induction fs generalizing gs with
  | nil =>
    cases gs with
    | nil => rfl
    | cons g gs => cases hlength
  | cons f fs ih =>
    cases gs with
    | nil => cases hlength
    | cons g gs =>
      simp only [overrideFormalFindings, append_eq_nil_iff] at h
      have htype : f.type = g.type := by simpa using h.1
      rw [map_cons, map_cons, ih h.2 (Nat.succ.inj hlength), htype]

theorem overrideFindings_eq_nil {m : Method} {f : MethodSymbol} (h : overrideFindings m f = []) :
    f.signature = m.signature := by
  unfold overrideFindings at h
  split at h
  · rename_i hlength
    rw [append_eq_nil_iff] at h
    have hreturns : m.returns = f.returns := by simpa using h.2
    rw [MethodSymbol.signature, Method.signature, hreturns,
      overrideFormalFindings_eq_nil h.1 hlength]
  · cases h

theorem signatureFindings_eq_nil {s : Symbols} {m : Method} (h : signatureFindings s m = []) :
    (m.formals.map Formal.name).Nodup ∧ (∀ f ∈ m.formals, s.isType f.type = true) ∧
      s.isType m.returns = true := by
  rw [signatureFindings, append_eq_nil_iff] at h
  obtain ⟨hnodup, _, htypes⟩ := formalFindings_eq_nil h.1
  exact ⟨hnodup, htypes, by simpa using h.2⟩

/-!
# All classes
-/

section Closure

variable {p order : List Class} {s : Symbols} {c : Class}

theorem records_of_declaring {k : ClassSymbol} {builtin : Bool} (hname : k.name = c.name)
    (h : s.classes.find? c.name = some (k.declaring builtin c.features))
    (hmethods : (c.methods.map Method.name).Nodup)
    (hattributes : (c.attributes.map Attribute.name).Nodup) : Records s c := by
  refine ⟨_, h, fun m hm => ⟨builtin, ?_⟩, fun a ha => ?_⟩
  · rw [← hname]
    exact Dictionary.find?_foldl_put Method.name (MethodSymbol.ofMethod k.name builtin) _
      hmethods hm
  · rw [← hname]
    exact Dictionary.find?_foldl_put Attribute.name (AttributeSymbol.ofAttribute k.name) _
      hattributes ha

theorem Gathered.signed (h : Gathered p s order) (hc : c ∈ order)
    (hclean : (featuresOf s c).2 = []) : Signed s c := by
  have hfind := h.settled c hc
  obtain ⟨hk, hmethods, hattributes, hsigned, _⟩ := addFeatures_spec hclean
  rw [featuresOf, hk] at hfind
  have hm := fun m hm => signatureFindings_eq_nil (hsigned m hm).1
  exact ⟨records_of_declaring rfl hfind hmethods.distinct hattributes.distinct, hmethods.distinct,
    fun m hmem => (hm m hmem).1, fun m hmem => (hm m hmem).2.1, fun m hmem => (hm m hmem).2.2,
    fun m hmem f hf => overrideFindings_eq_nil ((hsigned m hmem).2 f hf)⟩

theorem signed_builtin (h : Graph p s) (hc : c ∈ Class.builtin)
    (hbuiltin : ∀ c ∈ Class.builtin, s.classes.find? c.name = some (ClassSymbol.ofBuiltin c)) :
    Signed s c := by
  have hdistinct : ∀ c ∈ Class.builtin, (c.methods.map Method.name).Nodup ∧
      (c.attributes.map Attribute.name).Nodup ∧
      ∀ m ∈ c.methods, (m.formals.map Formal.name).Nodup := by decide
  obtain ⟨hmethods, hattributes, hformals⟩ := hdistinct c hc
  have hisType : ∀ {t : Name}, t = Name.selfType ∨ t ∈ Class.builtin.map Class.name →
      s.isType t = true := by
    intro t ht
    rw [Symbols.isType, Bool.or_eq_true, beq_iff_eq, h.classes]
    refine ht.imp id fun hmem => ?_
    rw [classNames, map_append]
    exact mem_append_left _ hmem
  have hknown : ∀ c ∈ Class.builtin, ∀ m ∈ c.methods, ∀ t ∈ m.returns :: m.formals.map Formal.type,
      t = Name.selfType ∨ t ∈ Class.builtin.map Class.name := by decide
  have hrecords : Records s c :=
    records_of_declaring (k := { ClassSymbol.bare c with builtin := true }) rfl (hbuiltin c hc)
      hmethods hattributes
  refine ⟨hrecords, hmethods, hformals, ?_, ?_, ?_⟩
  · intro m hm f hf
    exact hisType (hknown c hc m hm _ (mem_cons_of_mem _ (mem_map_of_mem hf)))
  · intro m hm
    exact hisType (hknown c hc m hm _ mem_cons_self)
  · intro m hm f hf
    have hparents : ∀ c ∈ Class.builtin, c.parentName = Name.noClass ∨
        c.parentName = Name.object ∧ ∀ m ∈ c.methods, ∀ b ∈ Class.builtin,
          b.name = Name.object → (ClassSymbol.ofBuiltin b).methods.has m.name = false := by decide
    obtain ⟨x, hx, hfound⟩ := exists_of_findSome?_eq_some hf
    obtain ⟨k, hk, hmethod⟩ := Option.bind_eq_some_iff.mp hfound
    rcases hparents c hc with hnone | ⟨hparent, hfresh⟩
    · rw [hnone] at hx
      simp [Symbols.ancestors, Inheritance.ancestors, Inheritance.start?,
        Inheritance.climb] at hx
    · rw [hparent, h.ancestors_root, mem_singleton] at hx
      subst hx
      have hroot : ∃ b ∈ Class.builtin, b.name = Name.object := ⟨_, mem_cons_self, rfl⟩
      obtain ⟨b, hb, hbname⟩ := hroot
      have hno := hfresh m hm b hb hbname
      rw [← hbname, hbuiltin b hb] at hk
      cases hk
      rw [Dictionary.has, hmethod] at hno
      cases hno

end Closure

theorem run_signed {p : Program} {o : Analysis.Outcome} (hnamed : Named p)
    (h : Analysis.fresh.run p = .ok o) (hclean : o.analysis.diagnostics = []) :
    ∀ c ∈ Class.builtin ++ p, Signed o.analysis.symbols c := by
  obtain ⟨order, hgathered, hall, hclean⟩ := run_gathered hnamed h hclean
  refine forall_mem_append.mpr ⟨fun c hc => ?_, fun c hc => ?_⟩
  · exact signed_builtin hgathered.graph hc fun d hd => hgathered.find?_builtin hd
  · exact hgathered.signed (hall c hc) (hclean c hc)

theorem ClassChecked.signed {s : Symbols} {c c' : Class} (h : ClassChecked s c c')
    (hsigned : Signed s c) : Signed s c' := by
  rcases hsigned with ⟨⟨k, hk, hmethods, hattributes⟩, hdistinct, hformals, htypes, hreturns,
    hoverrides⟩
  refine ⟨⟨k, ?_, ?_, ?_⟩, ?_, ?_, ?_, ?_, ?_⟩
  · rw [h.name, hk]
  · refine forall_right_of_forall₂ h.methods ?_
    rintro m hm m' ⟨body, rfl, _⟩
    rw [h.name]
    exact hmethods m hm
  · refine forall_right_of_forall₂ h.attributes ?_
    rintro a ha a' ⟨init, rfl, _⟩
    rw [h.name]
    exact hattributes a ha
  · rw [h.map_method]
    exact hdistinct
  · refine forall_right_of_forall₂ h.methods ?_
    rintro m hm m' ⟨body, rfl, _⟩
    exact hformals m hm
  · refine forall_right_of_forall₂ h.methods ?_
    rintro m hm m' ⟨body, rfl, _⟩
    exact htypes m hm
  · refine forall_right_of_forall₂ h.methods ?_
    rintro m hm m' ⟨body, rfl, _⟩
    exact hreturns m hm
  · refine forall_right_of_forall₂ h.methods ?_
    rintro m hm m' ⟨body, rfl, _⟩
    rw [h.parentName]
    exact hoverrides m hm

end Typing

theorem Accepted.signed {p q : Program} {s : Symbols} (h : Accepted p s q)
    (hsigned : ∀ c ∈ Class.builtin ++ p, Typing.Signed s c) :
    ∀ c ∈ Class.builtin ++ q, Typing.Signed s c := by
  intro c' hc'
  rcases mem_append.mp hc' with hbuiltin | hq
  · exact hsigned c' (mem_append_left p hbuiltin)
  · obtain ⟨c, hc, hchecked⟩ := h.exists_source hq
    exact hchecked.signed (hsigned c (mem_append_right _ hc))

end CoolCompiler
