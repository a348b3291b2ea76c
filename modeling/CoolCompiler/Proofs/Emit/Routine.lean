import CoolCompiler.Typing.Analysis
import CoolCompiler.Proofs.Emit.Faults

/-!
# Sizes of routines

A routine of a checked class can be written exactly if its frame and the objects of the class are
within reach.
-/

namespace CoolCompiler

open List CoolCompiler.Frame

namespace Cause

def isSizeLimit : Cause → Bool
  | .bindingOutOfRange _ _ | .attributeOutOfRange _ _ | .frameTooLarge _ _ => true
  | _ => false

end Cause

namespace Emit

open Typing (Context Checked)

def SizeFault (n : ClassNode) (fault : Fault) : Prop :=
  ∃ cause, fault = .internal n.name cause ∧ cause.isSizeLimit = true

theorem Oversize.sizeFault {n : ClassNode} {slots : Int} {fault : Fault}
    (h : Oversize n slots fault) :
    SizeFault n fault ∧ (128 < n.objectSize ∨ slotLimit < slots) := by
  cases h with
  | object size => exact ⟨⟨_, rfl, rfl⟩, .inl size⟩
  | frame many => exact ⟨⟨_, rfl, rfl⟩, .inr many⟩

/-!
# Frames
-/

def FrameTooLarge (temps formals : Nat) : Prop :=
  (formals = 0 ∧ 64 < temps) ∨ (0 < formals ∧ 61 < temps + formals)

theorem formal_offset {temps formals i : Int} (htemps : 0 ≤ temps) (hi : i < formals)
    (h : temps + (formals - i) ≤ 0x3ffffffffffffffc) :
    (formal temps i formals).offset = temps * 2 + 6 + (formals - 1 - i) * 2 := by
  apply wrapOffset_of_small <;> simp only [wordSize, argumentsStart] <;> omega

theorem fits_top_iff {temps formals : Nat} (h : Frame.size temps formals ≤ maxOffset) :
    fitsDisplacement (top temps formals) = true ↔ ¬ FrameTooLarge temps formals := by
  simp only [Frame.size, argumentsStart, wordSize, maxOffset] at h
  unfold top FrameTooLarge
  by_cases hformals : formals = 0
  · subst hformals
    have hwrap : wrapOffset (((temps : Int) - 1) * (wordSize : Int)) = ((temps : Int) - 1) * 2 := by
      apply wrapOffset_of_small <;> simp only [wordSize] <;> omega
    rw [if_neg (by simp), hwrap, fitsDisplacement_iff (by omega) (by omega)]
    omega
  · rw [if_pos (by omega), formal_offset (by omega) (by omega) (by omega),
      fitsDisplacement_iff (by omega) (by omega)]
    omega

theorem reserve_cases (owner : Name) (temps formals : Nat) :
    (reserve owner temps formals = .ok () ∧ ¬ FrameTooLarge temps formals) ∨
      (reserve owner temps formals = .error (.internal owner (.frameTooLarge temps formals)) ∧
        FrameTooLarge temps formals) := by
  unfold reserve
  by_cases hsize : Frame.size temps formals ≤ maxOffset
  · rw [if_pos hsize, check]
    by_cases hfits : fitsDisplacement (top temps formals) = true
    · exact .inl ⟨if_pos hfits, (fits_top_iff hsize).mp hfits⟩
    · refine .inr ⟨if_neg hfits, ?_⟩
      rw [fits_top_iff hsize, Classical.not_not] at hfits
      exact hfits
  · refine .inr ⟨if_neg hsize, ?_⟩
    simp only [Frame.size, argumentsStart, wordSize, maxOffset] at hsize
    unfold FrameTooLarge
    omega

theorem reserve_eq_error {owner : Name} {temps formals : Nat} {fault : Fault}
    (h : reserve owner temps formals = .error fault) :
    fault = .internal owner (.frameTooLarge temps formals) ∧ FrameTooLarge temps formals := by
  rcases reserve_cases owner temps formals with ⟨hok, -⟩ | ⟨herror, hlarge⟩
  · rw [hok] at h
    cases h
  · rw [herror] at h
    cases h
    exact ⟨rfl, hlarge⟩

theorem formal_fits {temps formals i : Nat} (hi : i < formals) (h : temps + formals ≤ 61) :
    fitsDisplacement (formal temps i formals).offset = true := by
  rw [formal_offset (by omega) (by omega) (by omega), fitsDisplacement_iff (by omega) (by omega)]
  omega

theorem not_frameTooLarge {temps formals : Nat} (htemps : temps ≤ 64)
    (h : ∀ i, i < formals → fitsDisplacement (formal temps i formals).offset = true) :
    ¬ FrameTooLarge temps formals := by
  rintro (⟨_, hlarge⟩ | ⟨hpos, hlarge⟩)
  · omega
  · -- The formal that would be the first one out of reach, or the nearest one.
    have hformal : ∀ i, i < formals → formals - 1 - i ≤ 61 →
        temps * 2 + 6 + (formals - 1 - i) * 2 ≤ 126 := by
      intro i hi hnear
      have hfits := h i hi
      rw [formal_offset (by omega) (by omega) (by omega),
        fitsDisplacement_iff (by omega) (by omega)] at hfits
      omega
    by_cases hmany : 61 ≤ temps
    · have hlast := hformal (formals - 1) (by omega) (by omega)
      omega
    · have hfirst := hformal (formals - 1 - (61 - temps)) (by omega) (by omega)
      omega

/-!
# Formals
-/

theorem ends_bindAt {x : Name} {place : Indexed} {s : Session} {Q : Unit → Session → Prop}
    {E : Fault → Prop} {scope : Dictionary Indexed} {scopes : List (Dictionary Indexed)}
    (hscopes : s.env.scopes = scope :: scopes) :
    Ends (bindAt x place) s Q E ↔
      (fitsDisplacement place.offset = true →
        Q () { s with env := { s.env with scopes := scope.put x place :: scopes } }) ∧
      (fitsDisplacement place.offset = false →
        E (.internal s.env.owner.name (.bindingOutOfRange x place))) := by
  simp only [bindAt, ends_bind, ends_get, ends_ofExcept, ends_set, Environment.bind, hscopes]
  cases hfits : fitsDisplacement place.offset with
  | false => simp
  | true => simp

theorem bindFormals_ends (temps total : Nat) (fs : List Formal) :
    ∀ (i : Nat) (s : Session) (scope : Dictionary Indexed) (scopes : List (Dictionary Indexed)),
      s.env.scopes = scope :: scopes →
      Ends (bindFormals temps total i fs) s
        (fun _ s' => (∃ scope', s'.env = { s.env with scopes := scope' :: scopes } ∧
            ∀ x, (∃ f ∈ fs, f.name = x) ∨ scope.has x = true → scope'.has x = true) ∧
          ∀ j, j < fs.length →
            fitsDisplacement (formal temps (i + j : Nat) total).offset = true)
        (fun fault => SizeFault s.env.owner fault ∧ ∃ j, j < fs.length ∧
          fitsDisplacement (formal temps (i + j : Nat) total).offset = false) := by
  induction fs with
  | nil =>
    intro i s scope scopes hscopes
    refine ⟨⟨scope, ?_, ?_⟩, ?_⟩
    · rw [← hscopes]
      rfl
    · rintro x (⟨f, hf, _⟩ | hx)
      · cases hf
      · exact hx
    · intro j hj
      cases hj
  | cons f fs ih =>
    intro i s scope scopes hscopes
    unfold bindFormals
    rw [ends_bind, ends_bindAt hscopes]
    constructor
    · intro hfits
      refine (ih (i + 1) _ _ scopes rfl).mono ?_ ?_
      · rintro _ s' ⟨⟨scope', henv, hhas⟩, hrest⟩
        refine ⟨⟨scope', henv, ?_⟩, ?_⟩
        · intro x hx
          apply hhas
          rw [Dictionary.has_put, Bool.or_eq_true, decide_eq_true_eq]
          rcases hx with ⟨g, hg, hname⟩ | hx
          · rcases mem_cons.mp hg with rfl | hg
            · exact .inr (.inl hname.symm)
            · exact .inl ⟨g, hg, hname⟩
          · exact .inr (.inr hx)
        · intro j hj
          cases j with
          | zero => exact hfits
          | succ j =>
            have hfits' := hrest j (Nat.lt_of_succ_lt_succ hj)
            rwa [Nat.add_right_comm, Nat.add_assoc] at hfits'
      · rintro fault ⟨hsize, j, hj, hfits'⟩
        refine ⟨hsize, j + 1, Nat.succ_lt_succ hj, ?_⟩
        rwa [Nat.add_right_comm, Nat.add_assoc] at hfits'
    · intro hfits
      exact ⟨⟨_, rfl, rfl⟩, 0, Nat.succ_pos _, hfits⟩

theorem find?_formalScopes {fs : List Formal} {x t : Name}
    (h : (Typing.formalScopes Scopes.empty fs).find? x = some t) : ∃ f ∈ fs, f.name = x := by
  have hfold : ∀ (d : Dictionary Name),
      (fs.foldl (fun s f => s.bind f.name f.type) ⟨[d], []⟩ : Scopes).find? x = some t →
      (∃ f ∈ fs, f.name = x) ∨ d.has x = true := by
    clear h
    induction fs with
    | nil =>
      intro d h
      refine .inr (Dictionary.has_eq_true_iff.mpr ⟨t, ?_⟩)
      cases hd : d.find? x with
      | none => simp [Scopes.find?, hd] at h
      | some u => simpa [Scopes.find?, hd] using h
    | cons f fs ih =>
      intro d h
      rcases ih (d.put f.name f.type) h with ⟨g, hg, hname⟩ | hx
      · exact .inl ⟨g, mem_cons_of_mem f hg, hname⟩
      · rw [Dictionary.has_put, Bool.or_eq_true, decide_eq_true_eq] at hx
        rcases hx with hx | hx
        · exact .inl ⟨f, mem_cons_self, hx.symm⟩
        · exact .inr hx
  rcases hfold [] h with hf | hx
  · exact hf
  · cases hx

/-!
# Methods
-/

section Methods

variable {sc : Scene} {ctx : Context} {n : ClassNode}

theorem ends_openScope {s : Session} {Q : Unit → Session → Prop} {E : Fault → Prop} :
    Ends openScope s Q E ↔ Q () { s with env := s.env.enter } := by
  simp [openScope]

theorem ends_closeScope {s : Session} {Q : Unit → Session → Prop} {E : Fault → Prop}
    {scope : Dictionary Indexed} {scopes : List (Dictionary Indexed)}
    (hscopes : s.env.scopes = scope :: scopes) :
    Ends closeScope s Q E ↔ Q () { s with env := { s.env with scopes := scopes } } := by
  simp [closeScope, Environment.leave, hscopes]

variable (hserves : Serves sc ctx n)
include hserves

theorem methodBody_ends {m : Method} (hfile : Literal.Interned sc.pool (.string n.decl.file))
    (hbody : Checked ctx (Typing.formalScopes Scopes.empty m.formals) m.body)
    (hliterals : ∀ l ∈ m.body.literals, l.Interned sc.pool) (hfilled : m.body.CasesFilled)
    (labels : Nat) :
    Ends (methodBody sc n m) ⟨labels, Environment.fresh n⟩
      (fun _ _ => ¬ FrameTooLarge m.body.slots m.formals.length)
      (fun fault => SizeFault n fault ∧
        (128 < n.objectSize ∨ FrameTooLarge m.body.slots m.formals.length)) := by
  simp only [methodBody, ends_bind, ends_ofExcept, ends_note, ends_openScope, ends_lines,
    ends_instrs]
  refine ⟨fun _ _ => ?_, fun fault hfault => ?_⟩
  · refine (bindFormals_ends m.body.slots m.formals.length m.formals 0 _ [] [] rfl).mono ?_ ?_
    · rintro _ s ⟨⟨scope, henv, hhas⟩, hformals⟩
      have hstands : Stands (Typing.formalScopes Scopes.empty m.formals) n s.env := by
        constructor
        · rw [henv]
          rfl
        · intro x t hx
          rcases Dictionary.has_eq_true_iff.mp (hhas x (.inl (find?_formalScopes hx))) with
            ⟨place, hplace⟩
          exact ⟨place, by simp [henv, hplace]⟩
        · rw [henv]
          exact Int.le_refl 0
        · rw [henv]
          exact Int.le_refl 0
      have htemps : s.env.temps = 0 := by
        rw [henv]
        rfl
      have hpeak : s.env.peak = 0 := by
        rw [henv]
        rfl
      have hheld : Held sc m.body.slots m.body := ⟨hliterals, Nat.le_refl _⟩
      refine ((expr_sized hserves hfile hbody hheld s hstands).and
        (expr_restores sc m.body s hstands.peak)).mono ?_ ?_
      · rintro _ s' ⟨_, hrestored⟩
        have hscopes : s'.env.scopes = [scope] := by rw [hrestored.scopes, henv]
        rw [ends_closeScope hscopes]
        have hexact := hrestored.peak_eq hfilled
        have hlimit := hrestored.peak_le_limit hstands.temps (by rw [hpeak]; decide)
        rw [htemps, hpeak] at hexact
        rw [ends_get, if_neg (show ¬ s'.env.peak > (m.body.slots : Int) by omega), ends_done]
        refine not_frameTooLarge (by unfold slotLimit at hlimit; omega) ?_
        intro i hi
        have hfits := hformals i hi
        rwa [Nat.zero_add] at hfits
      · rintro fault ⟨hover, _⟩
        refine hover.sizeFault.imp_right (Or.imp_right fun many => ?_)
        unfold slotLimit at many
        unfold FrameTooLarge
        omega
    · rintro fault ⟨hsize, i, hi, hfits⟩
      refine ⟨hsize, .inr ?_⟩
      rw [Nat.zero_add] at hfits
      refine .inr ⟨by omega, ?_⟩
      apply Classical.byContradiction
      intro hsmall
      rw [formal_fits hi (by omega)] at hfits
      cases hfits
  · obtain ⟨rfl, hlarge⟩ := reserve_eq_error hfault
    exact ⟨⟨_, rfl, rfl⟩, .inr hlarge⟩

end Methods

/-!
# Initialisation
-/

section Initialisation

variable {sc : Scene} {ctx : Context} {n : ClassNode}

theorem foldl_max_le_iff (l : List Nat) (start k : Nat) :
    l.foldl max start ≤ k ↔ start ≤ k ∧ ∀ x ∈ l, x ≤ k := by
  induction l generalizing start with
  | nil => simp
  | cons x l ih =>
    simp only [foldl_cons, ih, Nat.max_le, mem_cons, forall_eq_or_imp]
    exact and_assoc

theorem initSlots_le_iff (c : Class) (k : Nat) :
    initSlots c ≤ k ↔ ∀ a ∈ c.attributes, a.init.slots ≤ k := by
  unfold initSlots
  rw [foldl_max_le_iff]
  simp

def storedSlots (n : ClassNode) : List Slot := n.ownSlots.filter (fun s => !s.isPrim)

/-- The initializers of a class are checked, and the slots that are stored to are those of
its attributes. -/
structure Initialises (sc : Scene) (ctx : Context) (n : ClassNode) : Prop where
  checked : ∀ a ∈ n.decl.attributes,
    a.init.isOmitted = true ∨
      (Literal.Interned sc.pool (.string n.decl.file) ∧ Checked ctx Scopes.empty a.init)
  literals : ∀ a ∈ n.decl.attributes, ∀ l ∈ a.init.literals, l.Interned sc.pool
  filled : ∀ a ∈ n.decl.attributes, a.init.CasesFilled
  declared : ∀ slot ∈ storedSlots n, ∃ a ∈ n.decl.attributes, initOf n.decl slot.name = a.init
  stored : ∀ a ∈ n.decl.attributes,
    a.init.slots = 0 ∨ ∃ slot ∈ storedSlots n, initOf n.decl slot.name = a.init
  placed : ∀ slot ∈ storedSlots n, ∃ found, n.slot? slot.name = some found

structure Storing (n : ClassNode) (env : Environment) : Prop where
  stands : Stands Scopes.empty n env
  scopes : env.scopes = [[]]
  temps : env.temps = 0
  peak : env.peak ≤ slotLimit

theorem lookup_of_storing {env : Environment} {x : Name} {found : Slot} (h : Storing n env)
    (hfound : n.slot? x = some found) :
    env.lookup x = if fitsDisplacement found.offset then .ok ⟨.ix, found.offset⟩
      else .error (.internal n.name (.attributeOutOfRange x ⟨.ix, found.offset⟩)) := by
  simp [Environment.lookup, h.scopes, h.stands.owner, hfound]

variable (hserves : Serves sc ctx n)
include hserves

theorem initializer_ends {a : Attribute} (hinits : Initialises sc ctx n)
    (ha : a ∈ n.decl.attributes) (type : Name) {s : Session} (hs : Storing n s.env) :
    Ends (initializer sc type a.init) s
      (fun _ s' => Storing n s'.env ∧ (a.init.slots : Int) ≤ slotLimit)
      (fun fault => SizeFault n fault ∧ (128 < n.objectSize ∨ 64 < a.init.slots)) := by
  have hsized : Sized Scopes.empty n a.init.slots (initializer sc type a.init) := by
    rcases hinits.checked a ha with homitted | ⟨hfile, hchecked⟩
    · unfold initializer
      rw [if_pos homitted]
      exact sized_defaultValue hserves type
    · exact initializer_sized hserves type
        (expr_sized hserves hfile hchecked ⟨hinits.literals a ha, Nat.le_refl _⟩)
  have hrestores := initializer_restores sc type a.init
  refine ((hsized s hs.stands).and (hrestores s hs.stands.peak)).mono ?_ ?_
  · rintro _ s' ⟨_, hrestored⟩
    have hexact := hrestored.peak_eq (hinits.filled a ha)
    have hlimit := hrestored.peak_le_limit hs.stands.temps hs.peak
    have htemps := hs.temps
    refine ⟨⟨hs.stands.of_restored hrestored, ?_, ?_, hlimit⟩, by omega⟩
    · rw [hrestored.scopes, hs.scopes]
    · rw [hrestored.temps, hs.temps]
  · rintro fault ⟨hover, _⟩
    refine hover.sizeFault.imp_right (Or.imp_right fun many => ?_)
    have htemps := hs.temps
    unfold slotLimit at many
    omega

theorem storeInits_ends (hinits : Initialises sc ctx n) {slots : List Slot}
    (hslots : ∀ slot ∈ slots, slot ∈ storedSlots n) {s : Session} (hs : Storing n s.env) :
    Ends (storeInits sc n.decl slots) s
      (fun _ s' => Storing n s'.env ∧ ∀ slot ∈ slots,
        ((initOf n.decl slot.name).slots : Int) ≤ slotLimit ∧
        ∃ found, n.slot? slot.name = some found ∧ fitsDisplacement found.offset = true)
      (fun fault => SizeFault n fault ∧ (128 < n.objectSize ∨ 64 < initSlots n.decl)) := by
  induction slots generalizing s with
  | nil => exact ⟨hs, by simp⟩
  | cons slot slots ih =>
    have hslot := hslots slot mem_cons_self
    obtain ⟨a, ha, hinit⟩ := hinits.declared slot hslot
    obtain ⟨found, hfound⟩ := hinits.placed slot hslot
    unfold storeInits
    rw [ends_bind, hinit]
    refine (initializer_ends hserves hinits ha slot.type hs).mono ?_ ?_
    · rintro _ s' ⟨hs', hfew⟩
      simp only [ends_bind, placeOf, ends_get, ends_ofExcept, ends_instrs,
        lookup_of_storing hs' hfound]
      constructor
      · intro place hplace
        split at hplace
        · rename_i hfits
          refine (ih (fun slot' h' => hslots slot' (mem_cons_of_mem slot h')) hs').mono ?_
            (fun _ h => h)
          rintro _ s'' ⟨hs'', hrest⟩
          refine ⟨hs'', ?_⟩
          rw [forall_mem_cons]
          exact ⟨⟨hinit ▸ hfew, found, hfound, hfits⟩, hrest⟩
        · cases hplace
      · intro fault hfault
        split at hfault
        · cases hfault
        · rename_i hfits
          cases hfault
          exact ⟨⟨_, rfl, rfl⟩, .inl (objectSize_of_not_fits hserves hfound hfits)⟩
    · rintro fault ⟨hsize, hlarge⟩
      refine ⟨hsize, hlarge.imp id ?_⟩
      intro hmany
      have hle := (initSlots_le_iff n.decl _).mp (Nat.le_refl _) a ha
      omega

theorem initBody_ends (hinits : Initialises sc ctx n) (parent : ClassNode) (labels : Nat) :
    Ends (initBody sc n parent) ⟨labels, Environment.fresh n⟩
      (fun _ _ => initSlots n.decl ≤ 64 ∧ ∀ slot ∈ storedSlots n,
        ∃ found, n.slot? slot.name = some found ∧ fitsDisplacement found.offset = true)
      (fun fault => SizeFault n fault ∧ (128 < n.objectSize ∨ 64 < initSlots n.decl)) := by
  have hstart : Storing n (Environment.fresh n).enter := by
    refine ⟨⟨rfl, ?_, Int.le_refl 0, Int.le_refl 0⟩, rfl, rfl, ?_⟩
    · intro x t hx
      cases hx
    · show (0 : Int) ≤ slotLimit
      decide
  simp only [initBody, ends_bind, ends_ofExcept, ends_instrs, ends_openScope]
  constructor
  · intro _ _
    refine (storeInits_ends hserves hinits (fun _ h => h) hstart).mono ?_ (fun _ h => h)
    rintro _ s ⟨hs, hall⟩
    rw [ends_closeScope hs.scopes]
    refine ⟨?_, fun slot h => (hall slot h).2⟩
    rw [initSlots_le_iff]
    intro a ha
    rcases hinits.stored a ha with hzero | ⟨slot, hslot, hinit⟩
    · omega
    · have hfew := (hall slot hslot).1
      rw [hinit] at hfew
      unfold slotLimit at hfew
      omega
  · intro fault hfault
    obtain ⟨rfl, hlarge⟩ := @reserve_eq_error _ _ 0 _ hfault
    refine ⟨⟨_, rfl, rfl⟩, .inr ?_⟩
    unfold FrameTooLarge at hlarge
    omega

end Initialisation

end Emit
end CoolCompiler
