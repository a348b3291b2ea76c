import CoolCompiler.Proofs.Emit.Composition

/-!
# Temporary slots in use

The code of an expression gives back every slot and closes every scope, and the most slots it holds
at once are the ones counted beforehand.
-/

namespace CoolCompiler
namespace Emit

def slotLimit : Int := 64

theorem wrapOffset_of_small {offset : Int} (h : -0x8000000000000000 ≤ offset)
    (hsmall : offset ≤ 0x7fffffffffffffff) : wrapOffset offset = offset := by
  unfold wrapOffset
  apply Int.bmod_eq_of_le <;> omega

theorem fitsDisplacement_iff {offset : Int} (h : -128 ≤ offset)
    (hsmall : offset < 0x7fffffffffffffff) : fitsDisplacement offset = true ↔ offset ≤ 126 := by
  simp only [fitsDisplacement, Bool.and_eq_true, Bool.or_eq_true, decide_eq_true_eq]
  unfold maxOffset
  omega

theorem exists_of_lookup {env : Environment} {x : Name} {place : Indexed}
    (h : env.lookup x = .ok place) : (∃ scope ∈ env.scopes, scope.find? x = some place) ∨
      ∃ slot ∈ env.owner.layout, place = ⟨.ix, slot.offset⟩ ∧ fitsDisplacement slot.offset := by
  unfold Environment.lookup at h
  split at h
  · rename_i hfound
    cases h
    exact .inl (List.exists_of_findSome?_eq_some hfound)
  · split at h
    · cases h
    · rename_i slot hslot
      simp only at h
      split at h
      · rename_i hfits
        cases h
        exact .inr ⟨slot, List.mem_of_find?_eq_some hslot, rfl, hfits⟩
      · cases h

theorem exists_of_leave {env env' : Environment} (h : env.leave = .ok env') :
    ∃ scope scopes, env.scopes = scope :: scopes ∧ env' = { env with scopes := scopes } := by
  unfold Environment.leave at h
  split at h <;> cases h
  rename_i scope scopes heq
  exact ⟨scope, scopes, heq, rfl⟩

/-!
# Environments kept

Most steps leave the variables as they are.
-/

def Keeps {α : Type} (x : Emit Session α) : Prop :=
  ∀ s, Ends x s (fun _ s' => s'.env = s.env) (fun _ => True)

variable {Q : Unit → Session → Prop} {α : Type} {x : Emit Session α}

theorem Silent.keeps (h : Silent x) : Keeps x := by
  intro s
  unfold Ends
  split
  · rw [(h s).2]
  · trivial

theorem keeps_newLabel : Keeps newLabel := by
  intro s
  simp [newLabel]

theorem keeps_bind {β : Type} {f : α → Emit Session β} (hx : Keeps x) (hf : ∀ a, Keeps (f a)) :
    Keeps (x >>= f) := by
  intro s
  rw [ends_bind]
  refine (hx s).mono ?_ (fun _ h => h)
  intro a s' hs
  refine (hf a s').mono ?_ (fun _ h => h)
  intro b s'' hs'
  rw [hs', hs]

theorem keeps_pure (a : α) : Keeps (pure a : Emit Session α) := fun _ => rfl

theorem keeps_lines (ls : List Line) : Keeps (lines ls) := fun _ => rfl

theorem keeps_instrs (is : List Instr) : Keeps (instrs is) := fun _ => rfl

theorem keeps_newLabels (n : Nat) : Keeps (newLabels n) := by
  induction n with
  | zero => exact keeps_pure []
  | succ n ih =>
    unfold newLabels
    exact keeps_bind keeps_newLabel fun _ => keeps_bind ih fun _ => keeps_pure _

/-!
# Environments restored

A step ends with the variables it started with.  What remains is the mark of the most slots in use.
-/

/-- The second environment is the first one after `k` more slots at most; `exact` says when they
were in use indeed. -/
structure Restored (k : Nat) (exact : Prop) (env env' : Environment) : Prop where
  owner : env'.owner = env.owner
  scopes : env'.scopes = env.scopes
  temps : env'.temps = env.temps
  le_peak : env.peak ≤ env'.peak
  peak_le : env'.peak ≤ max env.peak (env.temps + k)
  peak_eq : exact → env'.peak = max env.peak (env.temps + k)
  peak_le_limit : 0 ≤ env.temps → env.peak ≤ slotLimit → env'.peak ≤ slotLimit

namespace Restored

variable {k k' : Nat} {p p' : Prop} {env env' env'' : Environment}

theorem refl (h : env.temps ≤ env.peak) : Restored 0 p env env where
  owner := rfl
  scopes := rfl
  temps := rfl
  le_peak := Int.le_refl _
  peak_le := by omega
  peak_eq := fun _ => by omega
  peak_le_limit := fun _ h => h

theorem trans (h : Restored k p env env') (h' : Restored k' p' env' env'') :
    Restored (max k k') (p ∧ p') env env'' where
  owner := h'.owner.trans h.owner
  scopes := h'.scopes.trans h.scopes
  temps := h'.temps.trans h.temps
  le_peak := Int.le_trans h.le_peak h'.le_peak
  peak_le := by
    have h1 := h.peak_le
    have h2 := h'.peak_le
    have h3 := h.temps
    omega
  peak_eq := by
    rintro ⟨hp, hp'⟩
    have h1 := h.peak_eq hp
    have h2 := h'.peak_eq hp'
    have h3 := h.temps
    omega
  peak_le_limit := by
    intro h0 hlimit
    exact h'.peak_le_limit (by rw [h.temps]; exact h0) (h.peak_le_limit h0 hlimit)

theorem weaken (h : Restored k p env env') (hk : k ≤ k') (hp : p' → p ∧ k = k') :
    Restored k' p' env env' where
  owner := h.owner
  scopes := h.scopes
  temps := h.temps
  le_peak := h.le_peak
  peak_le := by
    have h1 := h.peak_le
    omega
  peak_eq := by
    intro hp'
    obtain ⟨hold, heq⟩ := hp hp'
    rw [← heq]
    exact h.peak_eq hold
  peak_le_limit := h.peak_le_limit

theorem temps_le_peak (h : Restored k p env env') (hle : env.temps ≤ env.peak) :
    env'.temps ≤ env'.peak := by
  have h1 := h.temps
  have h2 := h.le_peak
  omega

end Restored

def Restores {α : Type} (x : Emit Session α) (k : Nat) (exact : Prop) : Prop :=
  ∀ s, s.env.temps ≤ s.env.peak →
    Ends x s (fun _ s' => Restored k exact s.env s'.env) (fun _ => True)

section Restores

variable {α β : Type} {x : Emit Session α} {f : α → Emit Session β} {k k' : Nat} {p p' : Prop}

theorem Keeps.restores (h : Keeps x) : Restores x 0 p := by
  intro s hs
  refine (h s).mono ?_ (fun _ h => h)
  intro a s' henv
  rw [henv]
  exact .refl hs

theorem Restores.bind (hx : Restores x k p) (hf : ∀ a, Restores (f a) k' p') :
    Restores (x >>= f) (max k k') (p ∧ p') := by
  intro s hs
  rw [ends_bind]
  refine (hx s hs).mono ?_ (fun _ h => h)
  intro a s' h
  refine (hf a s' (h.temps_le_peak hs)).mono ?_ (fun _ h => h)
  intro b s'' h'
  exact h.trans h'

theorem Restores.weaken (h : Restores x k p) (hk : k ≤ k') (hp : p' → p ∧ k = k') :
    Restores x k' p' := by
  intro s hs
  exact (h s hs).mono (fun _ _ h => h.weaken hk hp) (fun _ h => h)

theorem Keeps.bind_restores (hx : Keeps x) (hf : ∀ a, Restores (f a) k p) :
    Restores (x >>= f) k p := by
  intro s hs
  rw [ends_bind]
  refine (hx s).mono ?_ (fun _ h => h)
  intro a s' henv
  rw [← henv] at hs ⊢
  exact hf a s' hs

theorem Restores.bind_keeps (hx : Restores x k p) (hf : ∀ a, Keeps (f a)) :
    Restores (x >>= f) k p :=
  (hx.bind (fun a => (hf a).restores (p := True))).weaken (by omega)
    (fun hp => ⟨⟨hp, trivial⟩, by omega⟩)

end Restores

/-!
# One slot

A variable in a slot of its own, opened before what it is in scope for and closed after.
-/

def nextSlot (env : Environment) : Indexed :=
  ⟨.iy, wrapOffset (env.temps * (wordSize : Int))⟩

def opened (env : Environment) (x : Name) : Environment :=
  ⟨env.owner, [(x, nextSlot env)] :: env.scopes, env.temps + 1, max env.peak (env.temps + 1)⟩

theorem ends_openSlot {x : Name} {s : Session} {E : Fault → Prop} :
    Ends (openSlot x) s Q E ↔
      (fitsDisplacement (nextSlot s.env).offset = true → Q () { s with env := opened s.env x }) ∧
        (fitsDisplacement (nextSlot s.env).offset = false →
          E (.internal s.env.owner.name (.bindingOutOfRange x (nextSlot s.env)))) := by
  simp only [openSlot, ends_bind, ends_get, ends_set, ends_instrs, ends_ofExcept,
    Environment.alloc, Environment.enter, Environment.bind]
  by_cases hfits : fitsDisplacement (nextSlot s.env).offset = true
  · have hoffset : fitsDisplacement (wrapOffset (s.env.temps * (wordSize : Int))) = true := hfits
    simp [hoffset, Dictionary.put, opened, nextSlot]
  · have hoffset : fitsDisplacement (wrapOffset (s.env.temps * (wordSize : Int))) ≠ true := hfits
    simp [hoffset, nextSlot]

theorem ends_closeSlot {s : Session} {E : Fault → Prop} {scope : Dictionary Indexed}
    {scopes : List (Dictionary Indexed)} (hscopes : s.env.scopes = scope :: scopes) :
    Ends closeSlot s Q E ↔
      Q () { s with env := ⟨s.env.owner, scopes, s.env.temps - 1, s.env.peak⟩ } := by
  simp [closeSlot, Environment.leave, Environment.free, hscopes]

theorem nextSlot_offset {env : Environment} (h : 0 ≤ env.temps) (hle : env.temps ≤ slotLimit) :
    (nextSlot env).offset = env.temps * 2 := by
  unfold slotLimit at hle
  apply wrapOffset_of_small <;> simp only [wordSize] <;> omega

theorem nextSlot_fits_iff {env : Environment} (h : 0 ≤ env.temps) (hle : env.temps ≤ slotLimit) :
    fitsDisplacement (nextSlot env).offset = true ↔ env.temps < slotLimit := by
  rw [nextSlot_offset h hle]
  unfold slotLimit at hle ⊢
  rw [fitsDisplacement_iff (by omega) (by omega)]
  omega

theorem Restored.closed {env env' : Environment} {x : Name} {k : Nat} {p : Prop}
    (h : Restored k p (opened env x) env') (hle : env.temps ≤ env.peak)
    (hfits : fitsDisplacement (nextSlot env).offset = true) :
    Restored (1 + k) p env ⟨env'.owner, env.scopes, env'.temps - 1, env'.peak⟩ := by
  have htemps : env'.temps = env.temps + 1 := h.temps
  have hlow : max env.peak (env.temps + 1) ≤ env'.peak := h.le_peak
  have hhigh : env'.peak ≤ max (max env.peak (env.temps + 1)) (env.temps + 1 + k) := h.peak_le
  constructor
  · exact h.owner
  · rfl
  · exact Int.sub_eq_iff_eq_add.mpr htemps
  · exact Int.le_trans (Int.le_max_left _ _) hlow
  · show env'.peak ≤ max env.peak (env.temps + (1 + k : Nat))
    omega
  · intro hp
    have heq : env'.peak = max (max env.peak (env.temps + 1)) (env.temps + 1 + k) := h.peak_eq hp
    show env'.peak = max env.peak (env.temps + (1 + k : Nat))
    omega
  · intro h0 hlimit
    have hlt := (nextSlot_fits_iff h0 (Int.le_trans hle hlimit)).mp hfits
    refine h.peak_le_limit ?_ ?_
    · show 0 ≤ env.temps + 1
      omega
    · show max env.peak (env.temps + 1) ≤ slotLimit
      omega

theorem Restores.slot {body : Emit Session Unit} {k : Nat} {p : Prop} (x : Name)
    (h : Restores body k p) :
    Restores (do openSlot x; body; closeSlot) (1 + k) p := by
  intro s hs
  rw [ends_bind, ends_openSlot]
  refine ⟨fun hfits => ?_, fun _ => trivial⟩
  rw [ends_bind]
  refine (h { s with env := opened s.env x } (Int.le_max_right _ _)).mono ?_ (fun _ h => h)
  intro _ s' h'
  rw [ends_closeSlot h'.scopes]
  exact h'.closed hs hfits

theorem Composed.restores {sc : Scene} {file : Text} {labels : List Name} {k : Nat} {p : Prop}
    {cs : List Literal} {x : Emit Session Unit} (h : Composed sc file labels k p cs x) :
    Restores x k p := by
  induction h with
  | silent h => exact h.silent.keeps.restores
  | missing _ _ => exact fun _ _ => trivial
  | lines _ _ => exact (keeps_lines _).restores
  | look hx _ ih => exact hx.silent.keeps.bind_restores ih
  | own _ _ ih => exact Looks.owner.silent.keeps.bind_restores ih
  | label _ ih => exact keeps_newLabel.bind_restores ih
  | seq _ _ ihx ihy => exact ihx.bind fun _ => ihy
  | weaken _ hk hp ih => exact ih.weaken hk hp
  | load x => exact (Looks.placeOf x).silent.keeps.bind_restores fun _ => (keeps_instrs _).restores
  | assign x _ ih =>
    exact (Looks.placeOf x).silent.keeps.bind_restores fun _ =>
      ih.bind_keeps fun _ => keeps_instrs _
  | slot x _ ih => exact ih.slot x

theorem expr_restores (sc : Scene) (e : Expr) : Restores (expr sc e) e.slots e.CasesFilled :=
  (composed_expr sc [] e []).restores

theorem initializer_restores (sc : Scene) (type : Name) (e : Expr) :
    Restores (initializer sc type e) e.slots e.CasesFilled :=
  (composed_initializer sc [] type e []).restores

theorem actuals_restores (sc : Scene) (es : List Expr) :
    Restores (actuals sc es) (Expr.slotsOfAll es) (∀ e ∈ es, e.CasesFilled) :=
  (Composed.actuals fun e _ => composed_expr sc [] e []).restores

end Emit
end CoolCompiler
