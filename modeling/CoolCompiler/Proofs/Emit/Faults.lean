import CoolCompiler.Proofs.Dictionary
import CoolCompiler.Proofs.Emit.Constants
import CoolCompiler.Proofs.Emit.Temporaries
import CoolCompiler.Proofs.Typing.Judgement

/-!
# Faults of checked code

Code for a checked expression can be written unless there are more slots or attributes than
displacements reach.  What the check has looked up is in the class table and among the constants.
-/

namespace CoolCompiler.Emit

open List Literal

open Typing (Context Checked)

structure Serves (sc : Scene) (ctx : Context) (n : ClassNode) : Prop where
  current : n.name = ctx.current
  classes : ∀ c, ctx.symbols.classes.has c = true → ∃ k, sc.table.find? c = some k
  methods : ∀ c f s, ctx.symbols.method? c f = some s → ∃ e, sc.table.method c f = .ok e
  attributes : ∀ x a, ctx.symbols.attribute? ctx.current x = some a → ∃ slot, n.slot? x = some slot
  offsets : ∀ slot ∈ n.layout, slot.offset + wordSize ≤ n.objectSize
  int : ∃ k, sc.table.find? Name.int = some k
  zero : Interned sc.pool (.int 0)
  emptyString : Interned sc.pool (.string [])

inductive Oversize (n : ClassNode) (slots : Int) : Fault → Prop where
  | object {x : Name} {place : Indexed} (size : 128 < n.objectSize) :
      Oversize n slots (.internal n.name (.attributeOutOfRange x place))
  | frame {x : Name} {place : Indexed} (many : slotLimit < slots) :
      Oversize n slots (.internal n.name (.bindingOutOfRange x place))

theorem Oversize.mono {n : ClassNode} {slots slots' : Int} {fault : Fault}
    (h : Oversize n slots fault) (hle : slots ≤ slots') : Oversize n slots' fault := by
  cases h with
  | object size => exact .object size
  | frame many => exact .frame (by omega)

/-- An environment in a routine of a class, with a place for every local variable that
the check knows. -/
structure Stands (Γ : Scopes) (n : ClassNode) (env : Environment) : Prop where
  owner : env.owner = n
  bound : ∀ x t, Γ.find? x = some t →
    ∃ place, env.scopes.findSome? (fun scope => scope.find? x) = some place
  temps : 0 ≤ env.temps
  peak : env.temps ≤ env.peak

/-- An emission that ends with a value and the variables it started with.  It only fails because `k`
more slots, or the attributes, are too many. -/
def Sized {α : Type} (Γ : Scopes) (n : ClassNode) (k : Nat) (x : Emit Session α)
    (P : α → Prop := fun _ => True) : Prop :=
  ∀ s, Stands Γ n s.env → Ends x s (fun a s' => P a ∧ Restored k False s.env s'.env)
    (Oversize n (s.env.temps + k))

section Steps

variable {α β : Type} {Γ : Scopes} {n : ClassNode} {x : Emit Session α}
  {f : α → Emit Session β} {P : α → Prop} {P' : β → Prop} {k k' : Nat}

theorem Stands.of_restored {env env' : Environment} {p : Prop} (h : Stands Γ n env)
    (hr : Restored k p env env') : Stands Γ n env' where
  owner := hr.owner.trans h.owner
  bound := by
    rw [hr.scopes]
    exact h.bound
  temps := by
    rw [hr.temps]
    exact h.temps
  peak := hr.temps_le_peak h.peak

theorem sized_of_same (h : ∀ s, Stands Γ n s.env →
      Ends x s (fun a s' => P a ∧ s'.env = s.env) (Oversize n (s.env.temps + k))) :
    Sized Γ n k x P := by
  intro s hs
  refine (h s hs).mono ?_ (fun _ h => h)
  rintro a s' ⟨ha, henv⟩
  rw [henv]
  exact ⟨ha, (Restored.refl (p := False) hs.peak).weaken (Nat.zero_le k) False.elim⟩

theorem Sized.mono (h : Sized Γ n k x P) (hk : k ≤ k') : Sized Γ n k' x P := by
  intro s hs
  exact (h s hs).mono (fun _ _ h => ⟨h.1, h.2.weaken hk False.elim⟩) (fun _ h => h.mono (by omega))

theorem Sized.bind (hx : Sized Γ n k x P) (hf : ∀ a, P a → Sized Γ n k (f a) P') :
    Sized Γ n k (x >>= f) P' := by
  intro s hs
  rw [ends_bind]
  refine (hx s hs).mono ?_ (fun _ h => h)
  rintro a s' ⟨ha, hrestored⟩
  rw [← hrestored.temps]
  refine (hf a ha s' (hs.of_restored hrestored)).mono ?_ (fun _ h => h)
  rintro b s'' ⟨hb, hrestored'⟩
  exact ⟨hb, (hrestored.trans hrestored').weaken (by omega) False.elim⟩

theorem Stands.opened {env : Environment} (h : Stands Γ n env) (x t : Name) :
    Stands (Γ.enter.bind x t) n (Emit.opened env x) where
  owner := h.owner
  bound := by
    intro y u hy
    have hput : (Γ.enter.bind x t).find? y = if y = x then some t else Γ.find? y := by
      by_cases hyx : y = x
      · simp [Scopes.find?, Scopes.enter, Scopes.bind, Dictionary.put, Dictionary.find?_cons, hyx]
      · simp [Scopes.find?, Scopes.enter, Scopes.bind, Dictionary.put, Dictionary.find?_cons, hyx]
    by_cases hyx : y = x
    · exact ⟨nextSlot env, by simp [Emit.opened, Dictionary.find?_cons, hyx]⟩
    · rw [hput, if_neg hyx] at hy
      obtain ⟨place, hplace⟩ := h.bound y u hy
      exact ⟨place, by simpa [Emit.opened, Dictionary.find?_cons, hyx] using hplace⟩
  temps := by
    have htemps := h.temps
    show 0 ≤ env.temps + 1
    omega
  peak := Int.le_max_right _ _

theorem Sized.slot {body : Emit Session Unit} {t : Name} (x : Name)
    (h : Sized (Γ.enter.bind x t) n k body) :
    Sized Γ n (1 + k) (do openSlot x; body; closeSlot) := by
  intro s hs
  rw [ends_bind, ends_openSlot]
  constructor
  · intro hfits
    rw [ends_bind]
    refine (h { s with env := opened s.env x } (hs.opened x t)).mono ?_ ?_
    · rintro _ s' ⟨_, hrestored⟩
      rw [ends_closeSlot hrestored.scopes]
      exact ⟨trivial, hrestored.closed hs.peak hfits⟩
    · intro fault hfault
      refine hfault.mono ?_
      show s.env.temps + 1 + k ≤ s.env.temps + (1 + k : Nat)
      omega
  · intro hfits
    rw [hs.owner]
    refine .frame ?_
    have htemps := hs.temps
    by_cases hle : s.env.temps ≤ slotLimit
    · have hlt : ¬ s.env.temps < slotLimit := by
        rw [← nextSlot_fits_iff htemps hle, hfits]
        exact Bool.false_ne_true
      omega
    · omega

end Steps

/-!
# Steps of the code
-/

section Code

variable {α : Type} {sc : Scene} {ctx : Context} {n : ClassNode} {Γ : Scopes} {P : α → Prop}
  {k : Nat}

theorem sized_pure (a : α) (h : P a) : Sized Γ n k (pure a) P := sized_of_same fun _ _ => ⟨h, rfl⟩

theorem sized_lines (ls : List Line) : Sized Γ n k (lines ls) :=
  sized_of_same fun _ _ => ⟨trivial, rfl⟩

theorem sized_instrs (is : List Instr) : Sized Γ n k (instrs is) :=
  sized_of_same fun _ _ => ⟨trivial, rfl⟩

theorem sized_owner : Sized Γ n k owner (· = n) :=
  sized_of_same fun _ hs => by simp [owner, hs.owner]

theorem sized_newLabel : Sized Γ n k newLabel := sized_of_same fun _ _ => by simp [newLabel]

theorem sized_newLabels (i : Nat) : Sized Γ n k (newLabels i) (·.length = i) := by
  induction i with
  | zero => exact sized_pure [] rfl
  | succ i ih =>
    exact sized_newLabel.bind fun _ _ => ih.bind fun labels h =>
      sized_pure _ (congrArg Nat.succ h)

theorem sized_stringConst (c : Name) {v : Text} (h : Interned sc.pool (.string v)) :
    Sized Γ n k (stringConst sc c v) := by
  refine sized_of_same fun s hs => ?_
  unfold stringConst
  split
  · exact ⟨trivial, rfl⟩
  · rename_i hnone
    simp [Interned, hnone] at h

theorem sized_intConst (c : Name) {v : Int} (h : Interned sc.pool (.int v)) :
    Sized Γ n k (intConst sc c v) := by
  refine sized_of_same fun s hs => ?_
  unfold intConst
  split
  · exact ⟨trivial, rfl⟩
  · rename_i hnone
    simp [Interned, hnone] at h

theorem sized_ofExcept {r : Except Fault α} {a : α} (h : r = .ok a) :
    Sized Γ n k (ofExcept r) (· = a) :=
  sized_of_same fun _ _ => by simp [h]

theorem sized_fileConst (hfile : Interned sc.pool (.string n.decl.file)) :
    Sized Γ n k (fileConst sc) := by
  refine sized_owner.bind fun c hc => ?_
  subst hc
  exact sized_stringConst _ hfile

variable (hserves : Serves sc ctx n)
include hserves

theorem sized_defaultValue (type : Name) : Sized Γ n k (defaultValue sc type) := by
  unfold defaultValue
  split
  · exact sized_owner.bind fun _ _ => (sized_intConst _ hserves.zero).bind fun _ _ =>
      sized_instrs _
  · split
    · exact sized_instrs _
    · split
      · exact sized_owner.bind fun _ _ => (sized_stringConst _ hserves.emptyString).bind
          fun _ _ => sized_instrs _
      · exact sized_instrs _

theorem sized_pushInt : Sized Γ n k (pushInt sc) := by
  have hint : ∀ c, Sized Γ n k (basicClass sc c Name.int) := by
    refine fun c => sized_of_same fun s hs => ?_
    obtain ⟨k, hk⟩ := hserves.int
    simp [basicClass, hk]
  exact sized_owner.bind fun _ _ => (hint _).bind fun _ _ => sized_instrs _

theorem sized_branchTags {bs : List (Declared Expr)}
    (h : ∀ b ∈ bs, ctx.symbols.classes.has b.type = true) : Sized Γ n k (branchTags sc bs) := by
  induction bs with
  | nil => exact sized_pure [] trivial
  | cons b bs ih =>
    obtain ⟨k, hk⟩ := hserves.classes b.type (h b mem_cons_self)
    simp only [branchTags, hk]
    exact (ih fun b' hb' => h b' (mem_cons_of_mem b hb')).bind fun _ _ =>
      sized_pure _ trivial

theorem sized_receiverClass {e : Expr} (h : Checked ctx Γ e) :
    Sized Γ n k (receiverClass e) (· = Symbols.resolve e.type ctx.current) := by
  have hmark : ∃ m, e.mark? = some m := by
    cases h <;> exact ⟨_, rfl⟩
  obtain ⟨m, hm⟩ := hmark
  refine sized_owner.bind fun c hc => ?_
  subst hc
  simp only [hm]
  refine sized_pure _ ?_
  rw [hserves.current]
  simp [Symbols.resolve, Expr.type, hm]

theorem sized_binaryHead {op : Operator} {l r t : Name} (h : Typing.Operates op l r t) :
    Sized Γ n k (binaryHead sc op) := by
  cases h with
  | arithmetic h =>
    rcases h with rfl | rfl | rfl | rfl <;> exact sized_pushInt hserves
  | comparison h =>
    rcases h with rfl | rfl <;> exact sized_pure () trivial
  | equality h => exact sized_pure () trivial

omit hserves in
theorem sized_binaryTail {op : Operator} {l r t : Name} (h : Typing.Operates op l r t)
    (type : Name) : Sized Γ n k (binaryTail op type) := by
  cases h with
  | arithmetic h =>
    rcases h with rfl | rfl | rfl | rfl <;> exact sized_instrs _
  | comparison h =>
    rcases h with rfl | rfl <;>
      exact (sized_instrs _).bind fun _ _ => sized_newLabel.bind fun _ _ => sized_lines _
  | equality h =>
    exact sized_newLabel.bind fun _ _ => sized_newLabel.bind fun _ _ =>
      (sized_instrs _).bind fun _ _ => sized_lines _

theorem objectSize_of_not_fits {x : Name} {found : Slot} (hfound : n.slot? x = some found)
    (hfits : ¬ fitsDisplacement found.offset = true) : 128 < n.objectSize := by
  have hoffset := hserves.offsets found (mem_of_find?_eq_some hfound)
  simp only [wordSize] at hoffset
  by_cases hsmall : (found.offset : Int) < 4096
  · rw [fitsDisplacement_iff (by omega) (by omega)] at hfits
    omega
  · omega

theorem sized_placeOf {y t : Name} (hself : y ≠ Name.self)
    (h : Typing.typeOfVar? ctx Γ y = some t) : Sized Γ n k (placeOf y) := by
  refine sized_of_same fun s hs => ?_
  simp only [placeOf, ends_bind, ends_get, ends_ofExcept]
  refine ⟨fun _ _ => ⟨trivial, trivial⟩, fun fault hfault => ?_⟩
  unfold Environment.lookup at hfault
  simp only [Typing.typeOfVar?, hself, if_false] at h
  cases hlocal : Γ.find? y with
  | some u =>
    obtain ⟨place, hplace⟩ := hs.bound y u hlocal
    simp [hplace] at hfault
  | none =>
    rw [hlocal] at h
    obtain ⟨a, ha, _⟩ := Option.map_eq_some_iff.mp h
    obtain ⟨slot, hslot⟩ := hserves.attributes y a ha
    split at hfault
    · cases hfault
    · rw [hs.owner, hslot] at hfault
      simp only at hfault
      split at hfault
      · cases hfault
      · rename_i hfits
        cases hfault
        exact .object (objectSize_of_not_fits hserves hslot hfits)

end Code

/-!
# Expressions
-/

section Expressions

structure Held (sc : Scene) (k : Nat) (e : Expr) : Prop where
  literals : ∀ l ∈ e.literals, l.Interned sc.pool
  slots : e.slots ≤ k

variable {sc : Scene} {ctx : Context} {n : ClassNode} {Γ : Scopes} {k : Nat} {es : List Expr}

theorem Held.part {a e : Expr} (h : Held sc k e)
    (ha : a ∈ e.parts := by simp [Expr.parts]) : Held sc k a :=
  ⟨fun l hl => h.literals l (Expr.literals_subset_of_part ha hl),
    Nat.le_trans (Expr.slots_le_of_part ha) h.slots⟩

theorem sequence_sized (h : ∀ e ∈ es, Sized Γ n k (expr sc e)) : Sized Γ n k (sequence sc es) := by
  induction es with
  | nil => exact sized_pure () trivial
  | cons e es ih =>
    rw [forall_mem_cons] at h
    exact h.1.bind fun _ _ => ih h.2

theorem actuals_sized (h : ∀ e ∈ es, Sized Γ n k (expr sc e)) : Sized Γ n k (actuals sc es) := by
  induction es with
  | nil => exact sized_pure () trivial
  | cons e es ih =>
    rw [forall_mem_cons] at h
    exact h.1.bind fun _ _ => (sized_instrs _).bind fun _ _ => ih h.2

theorem branches_sized {bs : List (Declared Expr)}
    (h : ∀ b ∈ bs, Sized (Γ.enter.bind b.name b.type) n k (expr sc b.value))
    (finished : Name) (labels : List Name) :
    Sized Γ n (1 + k) (branches sc finished labels bs) := by
  induction bs generalizing labels with
  | nil =>
    cases labels <;> exact sized_pure () trivial
  | cons b bs ih =>
    cases labels with
    | nil =>
      unfold branches
      exact sized_pure () trivial
    | cons label labels =>
      rw [forall_mem_cons] at h
      have hcode := (h.1.slot b.name).bind fun _ _ =>
        (sized_instrs [.jp .always finished]).bind fun _ _ => ih h.2 labels
      obtain ⟨line, x, type, e⟩ := b
      unfold branches
      simp only [bind_assoc] at hcode
      exact (sized_lines _).bind fun _ _ => (sized_instrs _).bind fun _ _ => hcode

theorem call_sized {e : Expr} {m : Mark} {r : Except Fault MethodEntry} {entry : MethodEntry}
    {code : MethodEntry → Name → Name → List Instr}
    (hfile : Interned sc.pool (.string n.decl.file)) (hentry : r = .ok entry)
    (hargs : ∀ a ∈ es, Sized Γ n k (expr sc a)) (he : Sized Γ n k (expr sc e)) :
    Sized Γ n k (do
      let entry ← ofExcept r
      actuals sc es
      expr sc e
      let void ← newLabel
      let back ← newLabel
      instrs (code entry void back)
      endDispatch sc m.line void back es.length) :=
  (sized_ofExcept hentry).bind fun _ _ => (actuals_sized hargs).bind fun _ _ => he.bind fun _ _ =>
    sized_newLabel.bind fun _ _ => sized_newLabel.bind fun _ _ => (sized_instrs _).bind fun _ _ =>
    (sized_fileConst hfile).bind fun _ _ => (sized_lines _).bind fun _ _ => sized_instrs _

variable (hserves : Serves sc ctx n)
include hserves

theorem initializer_sized {e : Expr} (type : Name) (h : Sized Γ n k (expr sc e)) :
    Sized Γ n k (initializer sc type e) := by
  unfold initializer
  split
  · exact sized_defaultValue hserves type
  · exact h

theorem expr_sized {e : Expr} (hfile : Interned sc.pool (.string n.decl.file))
    (h : Checked ctx Γ e) (hheld : Held sc k e) : Sized Γ n k (expr sc e) := by
  induction h generalizing k with
  | omitted _ =>
    unfold expr
    exact sized_defaultValue hserves _
  | int _ =>
    unfold expr
    exact sized_owner.bind fun _ _ =>
      (sized_intConst _ (hheld.literals _ (by simp [Expr.literals]))).bind fun _ _ =>
      sized_instrs _
  | string _ =>
    unfold expr
    exact sized_owner.bind fun _ _ =>
      (sized_stringConst _ (hheld.literals _ (by simp [Expr.literals]))).bind fun _ _ =>
      sized_instrs _
  | bool _ =>
    unfold expr
    exact sized_instrs _
  | object type =>
    unfold expr
    split
    · exact sized_instrs _
    · rename_i hself
      exact (sized_placeOf hserves hself type).bind fun _ _ => sized_instrs _
  | assign value notSelf target fits type ih =>
    unfold expr
    exact (sized_placeOf hserves notSelf target).bind fun _ _ =>
      (ih hheld.part).bind fun _ _ => sized_instrs _
  | dispatch receiver actuals call ih ihs =>
    obtain ⟨s, found, _⟩ := call
    obtain ⟨entry, hentry⟩ := hserves.methods _ _ _ found
    unfold expr
    refine (sized_receiverClass hserves receiver).bind fun c hc => ?_
    subst hc
    exact call_sized hfile hentry (fun a ha => ihs a ha (hheld.part (by simp [Expr.parts, ha])))
      (ih hheld.part)
  | static receiver actuals notSelfType isType fits call ih ihs =>
    obtain ⟨s, found, _⟩ := call
    obtain ⟨entry, hentry⟩ := hserves.methods _ _ _ found
    unfold expr
    exact call_sized hfile hentry (fun a ha => ihs a ha (hheld.part (by simp [Expr.parts, ha])))
      (ih hheld.part)
  | binary left right type ihl ihr =>
    unfold expr
    exact (sized_binaryHead hserves type).bind fun _ _ =>
      (ihl hheld.part).bind fun _ _ => (sized_instrs _).bind fun _ _ =>
      (ihr hheld.part).bind fun _ _ => (sized_instrs _).bind fun _ _ =>
      sized_binaryTail type _
  | negate operand isInt type ih =>
    unfold expr
    exact (sized_pushInt hserves).bind fun _ _ =>
      (ih hheld.part).bind fun _ _ => sized_instrs _
  | complement operand isBool type ih =>
    unfold expr
    exact (ih hheld.part).bind fun _ _ => (sized_instrs _).bind fun _ _ =>
      sized_newLabel.bind fun _ _ => sized_lines _
  | isVoid operand type ih =>
    unfold expr
    exact (ih hheld.part).bind fun _ _ => (sized_instrs _).bind fun _ _ =>
      sized_newLabel.bind fun _ _ => sized_lines _
  | new isType type =>
    rename_i m t
    unfold expr
    split
    · exact sized_newLabel.bind fun _ _ => sized_lines _
    · rename_i hself
      have hclass : ctx.symbols.classes.has t = true := by
        simpa [Symbols.isType, hself] using isType
      obtain ⟨k, hk⟩ := hserves.classes t hclass
      rw [hk]
      exact sized_instrs _
  | cond test isBool thenBranch elseBranch type ihc iht ihf =>
    unfold expr
    exact sized_newLabel.bind fun _ _ => sized_newLabel.bind fun _ _ =>
      (ihc hheld.part).bind fun _ _ => (sized_instrs _).bind fun _ _ =>
      (iht hheld.part).bind fun _ _ => (sized_instrs _).bind fun _ _ =>
      (sized_lines _).bind fun _ _ =>
      (ihf hheld.part).bind fun _ _ => sized_lines _
  | loop test isBool body type ihc ihb =>
    unfold expr
    exact sized_newLabel.bind fun _ _ => sized_newLabel.bind fun _ _ =>
      (sized_lines _).bind fun _ _ =>
      (ihc hheld.part).bind fun _ _ => (sized_instrs _).bind fun _ _ =>
      (ihb hheld.part).bind fun _ _ => (sized_instrs _).bind fun _ _ =>
      (sized_lines _).bind fun _ _ => sized_instrs _
  | block items type ihs =>
    unfold expr
    exact sequence_sized fun e he => ihs e he (hheld.part he)
  | body inside type ih =>
    unfold expr
    exact (sized_pure (P := fun _ => True) () trivial).bind fun _ _ =>
      (ih hheld.part).bind fun _ _ => sized_pure () trivial
  | @binding Γ m b bs e notSelf isType init fits inside ihinit ih =>
    have hslots := hheld.slots
    rw [Expr.slots_letIn_cons] at hslots
    have hinside : Held sc (Expr.letIn m bs e).slots (.letIn m bs e) := by
      refine ⟨fun l hl => hheld.literals l ?_, Nat.le_refl _⟩
      simp only [Expr.literals, Expr.literalsOfParts_eq, flatMap_cons, append_assoc]
        at hl ⊢
      exact mem_append_right _ hl
    rw [expr_letIn_cons]
    exact (initializer_sized hserves _ (ihinit hheld.part)).bind
      fun _ _ => ((ih hinside).slot _).mono (by omega)
  | @typeCase Γ m e bs scrutinee notSelfType isType distinct branches type ih ihs =>
    have hslots := hheld.slots
    rw [Expr.slots] at hslots
    have hbranches : ∀ b ∈ bs,
        Sized (Γ.enter.bind b.name b.type) n (Expr.slotsOfBranches bs) (expr sc b.value) := by
      intro b hb
      have hpart := hheld.part (a := b.value) (by simp [Expr.parts, mem_map_of_mem hb])
      exact ihs b hb ⟨hpart.literals, Expr.slots_le_of_branch hb⟩
    have hclasses : ∀ b ∈ bs, ctx.symbols.classes.has b.type = true := by
      intro b hb
      simpa [Symbols.isType, notSelfType b hb] using isType b hb
    unfold expr
    exact (sized_branchTags hserves hclasses).bind fun _ _ =>
      (sized_fileConst hfile).bind fun _ _ =>
      (ih hheld.part).bind fun _ _ =>
      sized_newLabel.bind fun _ _ => sized_newLabel.bind fun _ _ =>
      sized_newLabel.bind fun _ _ => sized_newLabel.bind fun finished _ =>
      (sized_newLabels _).bind fun labels _ => (sized_lines _).bind fun _ _ =>
      ((branches_sized hbranches finished labels).mono (by omega)).bind fun _ _ => sized_lines _

end Expressions

end CoolCompiler.Emit
