import CoolCompiler.Proofs.Typing.Graph
import CoolCompiler.Proofs.Grammar.Shape

/-!
# Symbols that agree

Checking asks symbols only for what they know under a name and for ancestors.  So symbols that
answer alike are not told apart, in whatever order classes were entered.  A class without gaps is
always checked to the end.
-/

namespace CoolCompiler

open List

structure Symbols.Agree (s s' : Symbols) : Prop where
  classes : ∀ x, s.classes.find? x = s'.classes.find? x
  ancestors : ∀ x, s.ancestors x = s'.ancestors x

namespace Symbols.Agree

variable {s s' : Symbols}

theorem method? (h : s.Agree s') (c x : Name) : s.method? c x = s'.method? c x := by
  simp only [Symbols.method?, h.ancestors, h.classes]

theorem attribute? (h : s.Agree s') (c x : Name) : s.attribute? c x = s'.attribute? c x := by
  simp only [Symbols.attribute?, h.ancestors, h.classes]

theorem isType (h : s.Agree s') (t : Name) : s.isType t = s'.isType t := by
  simp only [Symbols.isType, Dictionary.has, h.classes]

theorem conforms (h : s.Agree s') (t1 t2 current : Name) :
    s.conforms t1 t2 current = s'.conforms t1 t2 current := by
  simp only [Symbols.conforms, h.ancestors]

theorem leastUpperBound (h : s.Agree s') (t1 t2 current : Name) :
    s.leastUpperBound t1 t2 current = s'.leastUpperBound t1 t2 current := by
  simp only [Symbols.leastUpperBound, h.ancestors]

end Symbols.Agree

namespace Typing

/-!
# Types of expressions
-/

section Inference

variable {s s' : Symbols} {current : Name}

variable (h : s.Agree s')
include h

theorem lookup_agree (scopes : Scopes) (x : Name) (line : Int) :
    lookup ⟨s, current⟩ scopes x line = lookup ⟨s', current⟩ scopes x line := by
  simp only [lookup, typeOfVar?, h.attribute?]

theorem checkArguments_agree (line : Int) (method : Name) (ts : List Name) (fs : List Formal) :
    checkArguments ⟨s, current⟩ line method ts fs =
      checkArguments ⟨s', current⟩ line method ts fs := by
  induction ts generalizing fs with
  | nil => simp [checkArguments]
  | cons t ts ih =>
    cases fs with
    | nil => rfl
    | cons f fs => simp only [checkArguments, Context.conforms, h.conforms, ih]

theorem callType_agree (line : Int) (receiver owner method : Name) (args : List Name) :
    callType ⟨s, current⟩ line receiver owner method args =
      callType ⟨s', current⟩ line receiver owner method args := by
  simp only [callType, h.method?, checkArguments_agree h]

theorem dispatchType_agree (line : Int) (receiver : Name) (target : Option Name) (method : Name)
    (args : List Name) : dispatchType ⟨s, current⟩ line receiver target method args =
      dispatchType ⟨s', current⟩ line receiver target method args := by
  cases target with
  | none => exact callType_agree h line receiver _ method args
  | some t =>
    have hconforms : (Context.mk s current).conforms receiver t =
        (Context.mk s' current).conforms receiver t := h.conforms receiver t current
    simp only [dispatchType]
    rw [h.isType, hconforms, callType_agree h]

theorem bindingType_agree (line : Int) (x type : Name) :
    bindingType ⟨s, current⟩ line x type = bindingType ⟨s', current⟩ line x type := by
  simp only [bindingType, h.isType]

theorem checkInit_agree (line : Int) (x declared : Name) (e : Expr) :
    checkInit ⟨s, current⟩ line x declared e = checkInit ⟨s', current⟩ line x declared e := by
  simp only [checkInit, Context.conforms, h.conforms]

theorem checkBranch_agree (seen : List Name) (line : Int) (x type : Name) :
    checkBranch ⟨s, current⟩ seen line x type = checkBranch ⟨s', current⟩ seen line x type := by
  simp only [checkBranch, h.isType]

theorem joinBranch_agree (result branch : Name) :
    joinBranch ⟨s, current⟩ result branch = joinBranch ⟨s', current⟩ result branch := by
  simp only [joinBranch, h.leastUpperBound]

omit h in
theorem inferAll_agree {es : List Expr} (hes : ∀ e ∈ es, ∀ scopes,
    infer ⟨s, current⟩ scopes e = infer ⟨s', current⟩ scopes e) (scopes : Scopes) :
    inferAll ⟨s, current⟩ scopes es = inferAll ⟨s', current⟩ scopes es := by
  induction es with
  | nil => rfl
  | cons e es ih =>
    rw [forall_mem_cons] at hes
    simp only [inferAll, hes.1, ih hes.2]

theorem inferBindings_agree {bs : List (Declared Expr)} (hbs : ∀ b ∈ bs, ∀ scopes,
      infer ⟨s, current⟩ scopes b.value = infer ⟨s', current⟩ scopes b.value) (scopes : Scopes) :
    inferBindings ⟨s, current⟩ scopes bs = inferBindings ⟨s', current⟩ scopes bs := by
  induction bs generalizing scopes with
  | nil => rfl
  | cons b bs ih =>
    rw [forall_mem_cons] at hbs
    obtain ⟨line, x, type, e⟩ := b
    simp only [inferBindings, bindingType_agree h, checkInit_agree h, hbs.1, ih hbs.2]

theorem inferBranches_agree {bs : List (Declared Expr)} (hbs : ∀ b ∈ bs, ∀ scopes,
      infer ⟨s, current⟩ scopes b.value = infer ⟨s', current⟩ scopes b.value) (scopes : Scopes)
    (seen : List Name) (result : Name) :
    inferBranches ⟨s, current⟩ scopes seen result bs =
      inferBranches ⟨s', current⟩ scopes seen result bs := by
  induction bs generalizing seen result with
  | nil => rfl
  | cons b bs ih =>
    rw [forall_mem_cons] at hbs
    obtain ⟨line, x, type, e⟩ := b
    simp only [inferBranches, checkBranch_agree h, joinBranch_agree h, hbs.1, ih hbs.2]

theorem infer_agree (e : Expr) (scopes : Scopes) :
    infer ⟨s, current⟩ scopes e = infer ⟨s', current⟩ scopes e := by
  induction e generalizing scopes with
  | absent => rfl
  | omitted m => rfl
  | int m n => rfl
  | string m t => rfl
  | bool m b => rfl
  | object m x => simp only [infer, lookup_agree h]
  | assign m x e ih =>
    simp only [infer, ih, assignTarget, lookup_agree h, Context.conforms, h.conforms]
  | dispatch m e t f args ihe ihargs =>
    simp only [infer, ihe, inferAll_agree ihargs, dispatchType_agree h]
  | binary m op l r ihl ihr => simp only [infer, ihl, ihr]
  | negate m e ih => simp only [infer, ih]
  | complement m e ih => simp only [infer, ih]
  | isVoid m e ih => simp only [infer, ih]
  | new m t => simp only [infer, h.isType]
  | cond m c t f ihc iht ihf => simp only [infer, ihc, iht, ihf, h.leastUpperBound]
  | loop m c b ihc ihb => simp only [infer, ihc, ihb]
  | block m es ih => simp only [infer, inferAll_agree ih]
  | letIn m bs e ihbs ihe => simp only [infer, inferBindings_agree h ihbs, ihe]
  | typeCase m e bs ihe ihbs => simp only [infer, ihe, inferBranches_agree h ihbs]

end Inference

section Classes

variable {s s' : Symbols}

theorem checkFeature_agree (h : s.Agree s') (current : Name) (f : Feature) :
    checkFeature ⟨s, current⟩ f = checkFeature ⟨s', current⟩ f := by
  cases f with
  | attr a =>
    simp only [checkFeature, checkAttribute, infer_agree h, Context.conforms, h.conforms]
  | method m =>
    simp only [checkFeature, checkMethod, infer_agree h, Context.conforms, h.conforms, h.isType]

theorem checkFeatures_agree (h : s.Agree s') (current : Name) (fs : List Feature) :
    checkFeatures ⟨s, current⟩ fs = checkFeatures ⟨s', current⟩ fs := by
  induction fs with
  | nil => rfl
  | cons f fs ih => simp only [checkFeatures, checkFeature_agree h, ih]

theorem checkClass_agree (h : s.Agree s') (c : Class) : checkClass s c = checkClass s' c := by
  simp only [checkClass, checkFeatures_agree h]

theorem mainDiagnostics_agree (h : s.Agree s') : mainDiagnostics s = mainDiagnostics s' := by
  simp only [mainDiagnostics, h.classes, h.method?]

end Classes

/-!
# Checks that come to an end

The only thing that stops a check is an absent expression.
-/

namespace Check

variable {α β : Type}

def Ends (x : Check α) : Prop := ∃ r, x = .ok r

theorem ends_done (a : α) : Ends (done a) := ⟨_, rfl⟩

theorem ends_pure (a : α) : Ends (pure a : Check α) := ⟨_, rfl⟩

theorem ends_complain (line : Int) (c : Complaint) : Ends (complain line c) := ⟨_, rfl⟩

theorem ends_require (ok : Bool) (line : Int) (c : Complaint) : Ends (require ok line c) := by
  cases ok with
  | true => exact ends_done ()
  | false => exact ends_complain line c

theorem Ends.bind {x : Check α} {f : α → Check β} (hx : Ends x) (hf : ∀ a, Ends (f a)) :
    Ends (x >>= f : Check β) := by
  obtain ⟨⟨a, found⟩, rfl⟩ := hx
  obtain ⟨⟨b, more⟩, hb⟩ := hf a
  refine ⟨(b, found ++ more), ?_⟩
  show andThen (.ok (a, found)) f = _
  simp only [andThen, hb]

end Check

section Completeness

open Check

variable {ctx : Context}

theorem lookup_ends (scopes : Scopes) (x : Name) (line : Int) :
    Ends (lookup ctx scopes x line) := by
  unfold lookup
  split
  · exact ends_done _
  · exact (ends_complain _ _).bind fun _ => ends_pure _

theorem assignTarget_ends (scopes : Scopes) (line : Int) (value : Name) (x : Identifier) :
    Ends (assignTarget ctx scopes line value x) := by
  unfold assignTarget
  split
  · exact (ends_complain _ _).bind fun _ => ends_pure _
  · exact (lookup_ends _ _ _).bind fun _ => (ends_require _ _ _).bind fun _ => ends_pure _

theorem binaryType_ends (line : Int) (op : Operator) (left right : Name) :
    Ends (binaryType line op left right) := by
  unfold binaryType
  split
  all_goals first
    | exact (ends_require _ _ _).bind fun _ => ends_pure _
    | exact (ends_complain _ _).bind fun _ => ends_pure _

theorem checkArguments_ends (line : Int) (method : Name) (ts : List Name) (fs : List Formal) :
    Ends (checkArguments ctx line method ts fs) := by
  fun_induction checkArguments ctx line method ts fs with
  | case1 t ts f fs ih => exact (ends_require _ _ _).bind fun _ => ih
  | case2 ts fs hne => exact ends_done ()

theorem callType_ends (line : Int) (receiver owner method : Name) (args : List Name) :
    Ends (callType ctx line receiver owner method args) := by
  unfold callType
  split
  · exact (ends_complain _ _).bind fun _ => ends_pure _
  · rename_i m _
    by_cases hlength : args.length = m.formals.length
    · simp only [if_pos hlength]
      exact (checkArguments_ends _ _ _ _).bind fun _ => ends_pure _
    · simp only [if_neg hlength]
      exact (ends_complain _ _).bind fun _ => ends_pure _

theorem dispatchType_ends (line : Int) (receiver : Name) (target : Option Name) (method : Name)
    (args : List Name) : Ends (dispatchType ctx line receiver target method args) := by
  unfold dispatchType
  split
  · exact callType_ends _ _ _ _ _
  · split
    · exact (ends_complain _ _).bind fun _ => ends_pure _
    · split
      · exact callType_ends _ _ _ _ _
      · exact (ends_complain _ _).bind fun _ => ends_pure _

theorem bindingType_ends (line : Int) (x type : Name) : Ends (bindingType ctx line x type) := by
  refine (ends_require _ _ _).bind fun _ => ?_
  split
  · exact ends_pure _
  · exact (ends_complain _ _).bind fun _ => ends_pure _

theorem checkInit_ends (line : Int) (x declared : Name) (e : Expr) :
    Ends (checkInit ctx line x declared e) := by
  unfold checkInit
  split
  · exact ends_done ()
  · exact ends_require _ _ _

theorem checkBranch_ends (seen : List Name) (line : Int) (x type : Name) :
    Ends (checkBranch ctx seen line x type) := by
  unfold checkBranch
  split
  · exact ends_complain _ _
  · split
    · exact ends_complain _ _
    · split
      · exact ends_complain _ _
      · exact ends_done ()

theorem inferAll_ends {es : List Expr} (hes : ∀ e ∈ es, ∀ scopes, Ends (infer ctx scopes e))
    (scopes : Scopes) : Ends (inferAll ctx scopes es) := by
  induction es with
  | nil => exact ends_pure _
  | cons e es ih =>
    rw [forall_mem_cons] at hes
    exact (hes.1 scopes).bind fun _ => (ih hes.2).bind fun _ => ends_pure _

theorem inferBindings_ends {bs : List (Declared Expr)}
    (hbs : ∀ b ∈ bs, ∀ scopes, Ends (infer ctx scopes b.value)) (scopes : Scopes) :
    Ends (inferBindings ctx scopes bs) := by
  induction bs generalizing scopes with
  | nil => exact ends_pure _
  | cons b bs ih =>
    rw [forall_mem_cons] at hbs
    obtain ⟨line, x, type, e⟩ := b
    refine (bindingType_ends _ _ _).bind fun _ => (hbs.1 scopes).bind fun _ => ?_
    exact (checkInit_ends _ _ _ _).bind fun _ => (ih hbs.2 _).bind fun _ => ends_pure _

theorem inferBranches_ends {bs : List (Declared Expr)}
    (hbs : ∀ b ∈ bs, ∀ scopes, Ends (infer ctx scopes b.value)) (scopes : Scopes)
    (seen : List Name) (result : Name) : Ends (inferBranches ctx scopes seen result bs) := by
  induction bs generalizing seen result with
  | nil => exact ends_pure _
  | cons b bs ih =>
    rw [forall_mem_cons] at hbs
    obtain ⟨line, x, type, e⟩ := b
    refine (checkBranch_ends _ _ _ _).bind fun _ => (hbs.1 _).bind fun _ => ?_
    exact (ih hbs.2 _ _).bind fun _ => ends_pure _

theorem infer_ends {e : Expr} (he : e.Complete) (scopes : Scopes) : Ends (infer ctx scopes e) := by
  induction e generalizing scopes with
  | absent => exact (Expr.complete_iff.mp he).1.elim
  | omitted m => exact ends_pure _
  | int m n => exact ends_pure _
  | string m t => exact ends_pure _
  | bool m b => exact ends_pure _
  | object m x => exact (lookup_ends _ _ _).bind fun _ => ends_pure _
  | assign m x e ih =>
    have hparts := (Expr.complete_iff.mp he).2
    refine (ih (hparts e (by simp [Expr.parts])) scopes).bind fun _ => ?_
    exact (assignTarget_ends _ _ _ _).bind fun _ => ends_pure _
  | dispatch m e t f args ihe ihargs =>
    have hparts := (Expr.complete_iff.mp he).2
    refine (ihe (hparts e (by simp [Expr.parts])) scopes).bind fun _ => ?_
    refine (inferAll_ends (fun a ha => ihargs a ha (hparts a (by simp [Expr.parts, ha])))
      scopes).bind fun _ => ?_
    exact (dispatchType_ends _ _ _ _ _).bind fun _ => ends_pure _
  | binary m op l r ihl ihr =>
    have hparts := (Expr.complete_iff.mp he).2
    refine (ihl (hparts l (by simp [Expr.parts])) scopes).bind fun _ => ?_
    refine (ihr (hparts r (by simp [Expr.parts])) scopes).bind fun _ => ?_
    exact (binaryType_ends _ _ _ _).bind fun _ => ends_pure _
  | negate m e ih =>
    have hparts := (Expr.complete_iff.mp he).2
    refine (ih (hparts e (by simp [Expr.parts])) scopes).bind fun _ => ?_
    exact (ends_require _ _ _).bind fun _ => ends_pure _
  | complement m e ih =>
    have hparts := (Expr.complete_iff.mp he).2
    refine (ih (hparts e (by simp [Expr.parts])) scopes).bind fun _ => ?_
    exact (ends_require _ _ _).bind fun _ => ends_pure _
  | isVoid m e ih =>
    have hparts := (Expr.complete_iff.mp he).2
    exact (ih (hparts e (by simp [Expr.parts])) scopes).bind fun _ => ends_pure _
  | new m t =>
    unfold infer
    split
    · exact ends_pure _
    · exact (ends_complain _ _).bind fun _ => ends_pure _
  | cond m c t f ihc iht ihf =>
    have hparts := (Expr.complete_iff.mp he).2
    refine (ihc (hparts c (by simp [Expr.parts])) scopes).bind fun _ => ?_
    refine (ends_require _ _ _).bind fun _ => ?_
    refine (iht (hparts t (by simp [Expr.parts])) scopes).bind fun _ => ?_
    exact (ihf (hparts f (by simp [Expr.parts])) scopes).bind fun _ => ends_pure _
  | loop m c b ihc ihb =>
    have hparts := (Expr.complete_iff.mp he).2
    refine (ihc (hparts c (by simp [Expr.parts])) scopes).bind fun _ => ?_
    refine (ends_require _ _ _).bind fun _ => ?_
    exact (ihb (hparts b (by simp [Expr.parts])) scopes).bind fun _ => ends_pure _
  | block m es ih =>
    have hparts := (Expr.complete_iff.mp he).2
    exact (inferAll_ends (fun e he => ih e he (hparts e he)) scopes).bind fun _ => ends_pure _
  | letIn m bs e ihbs ihe =>
    have hparts := (Expr.complete_iff.mp he).2
    have hbs : ∀ b ∈ bs, b.value.Complete := fun b hb =>
      hparts b.value (mem_append_left _ (mem_map_of_mem hb))
    refine (inferBindings_ends (fun b hb => ihbs b hb (hbs b hb)) scopes).bind fun _ => ?_
    exact (ihe (hparts e (by simp [Expr.parts])) _).bind fun _ => ends_pure _
  | typeCase m e bs ihe ihbs =>
    have hparts := (Expr.complete_iff.mp he).2
    have hbs : ∀ b ∈ bs, b.value.Complete := fun b hb =>
      hparts b.value (mem_cons_of_mem _ (mem_map_of_mem hb))
    refine (ihe (hparts e mem_cons_self) scopes).bind fun _ => ?_
    exact (inferBranches_ends (fun b hb => ihbs b hb (hbs b hb)) scopes _ _).bind
      fun _ => ends_pure _

theorem checkFeature_ends {f : Feature} (hf : f.expr.Complete) : Ends (checkFeature ctx f) := by
  cases f with
  | attr a =>
    refine Ends.bind ?_ fun _ => ends_pure _
    unfold checkAttribute
    split
    · exact ends_pure _
    · exact (infer_ends hf _).bind fun _ => (ends_require _ _ _).bind fun _ => ends_pure _
  | method m =>
    refine Ends.bind ?_ fun _ => ends_pure _
    exact (infer_ends hf _).bind fun _ => (ends_require _ _ _).bind fun _ => ends_pure _

theorem checkFeatures_ends {fs : List Feature} (hfs : ∀ f ∈ fs, f.expr.Complete) :
    Ends (checkFeatures ctx fs) := by
  induction fs with
  | nil => exact ends_pure _
  | cons f fs ih =>
    rw [forall_mem_cons] at hfs
    exact (checkFeature_ends hfs.1).bind fun _ => (ih hfs.2).bind fun _ => ends_pure _

theorem checkClass_ends (s : Symbols) {c : Class} (hc : Grammar.ClassComplete c) :
    ∃ r, checkClass s c = .ok r := by
  have hends : Ends (checkFeatures ⟨s, c.name⟩ c.features) := checkFeatures_ends hc.features
  obtain ⟨⟨features, found⟩, hfeatures⟩ := hends
  simp only [checkClass, hfeatures]
  exact ⟨_, rfl⟩

end Completeness

end Typing

theorem Grammar.named_of_complete {p : Program} (h : ∀ c ∈ p, Grammar.ClassComplete c) :
    Typing.Named p := by
  -- None of these names begins with a capital.
  have hcapital : ∀ x : Name, x = [] ∨ x = Name.noClass ∨ x = Name.primSlot →
      ¬ Lexeme.isUpperByte (x.headD 0) = true := by
    rintro x (rfl | rfl | rfl) <;> decide
  constructor
  · exact fun c hc hname => hcapital _ (.inl hname) (h c hc).name.upper
  · exact fun c hc hname => hcapital _ (.inr (.inl hname)) (h c hc).name.upper
  · exact fun c hc hname => hcapital _ (.inr (.inr hname)) (h c hc).name.upper

end CoolCompiler
