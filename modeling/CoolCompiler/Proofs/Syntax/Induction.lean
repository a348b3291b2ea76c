import CoolCompiler.Emit.Constants
import CoolCompiler.Emit.Slots

/-!
# Induction on expressions

Expressions hold lists of expressions.  The principle has a hypothesis for every member.
-/

namespace CoolCompiler.Expr

open List

@[elab_as_elim, induction_eliminator]
theorem parts_induction {motive : Expr → Prop}
    (absent : motive .absent)
    (omitted : ∀ m, motive (.omitted m))
    (int : ∀ m n, motive (.int m n))
    (string : ∀ m s, motive (.string m s))
    (bool : ∀ m b, motive (.bool m b))
    (object : ∀ m x, motive (.object m x))
    (assign : ∀ m x e, motive e → motive (.assign m x e))
    (dispatch : ∀ m e t f args, motive e → (∀ a ∈ args, motive a) →
      motive (.dispatch m e t f args))
    (binary : ∀ m op l r, motive l → motive r → motive (.binary m op l r))
    (negate : ∀ m e, motive e → motive (.negate m e))
    (complement : ∀ m e, motive e → motive (.complement m e))
    (isVoid : ∀ m e, motive e → motive (.isVoid m e))
    (new : ∀ m t, motive (.new m t))
    (cond : ∀ m c t f, motive c → motive t → motive f → motive (.cond m c t f))
    (loop : ∀ m c b, motive c → motive b → motive (.loop m c b))
    (block : ∀ m es, (∀ e ∈ es, motive e) → motive (.block m es))
    (letIn : ∀ m bs e, (∀ b ∈ bs, motive b.value) → motive e → motive (.letIn m bs e))
    (typeCase : ∀ m e bs, motive e → (∀ b ∈ bs, motive b.value) → motive (.typeCase m e bs)) :
    ∀ e, motive e := by
  have hvalue : ∀ (bs : List (Declared Expr)), ∀ b ∈ bs, sizeOf b.value < sizeOf bs := by
    intro bs b hb
    have hlt := sizeOf_lt_of_mem hb
    have hpart : sizeOf b.value < sizeOf b := by
      cases b
      simp only [Declared.mk.sizeOf_spec]
      omega
    omega
  intro e
  -- The members of a list are smaller than the expression that holds the list.
  induction hn : sizeOf e using Nat.strongRecOn generalizing e with
  | _ n ih =>
    subst hn
    cases e with
    | absent => exact absent
    | omitted m => exact omitted m
    | int m n => exact int m n
    | string m s => exact string m s
    | bool m b => exact bool m b
    | object m x => exact object m x
    | assign m x e =>
      rw [Expr.assign.sizeOf_spec] at ih
      exact assign m x e (ih _ (by omega) e rfl)
    | dispatch m e t f args =>
      rw [Expr.dispatch.sizeOf_spec] at ih
      refine dispatch m e t f args (ih _ (by omega) e rfl) (fun a ha => ?_)
      have hlt := sizeOf_lt_of_mem ha
      exact ih _ (by omega) a rfl
    | binary m op l r =>
      rw [Expr.binary.sizeOf_spec] at ih
      exact binary m op l r (ih _ (by omega) l rfl) (ih _ (by omega) r rfl)
    | negate m e =>
      rw [Expr.negate.sizeOf_spec] at ih
      exact negate m e (ih _ (by omega) e rfl)
    | complement m e =>
      rw [Expr.complement.sizeOf_spec] at ih
      exact complement m e (ih _ (by omega) e rfl)
    | isVoid m e =>
      rw [Expr.isVoid.sizeOf_spec] at ih
      exact isVoid m e (ih _ (by omega) e rfl)
    | new m t => exact new m t
    | cond m c t f =>
      rw [Expr.cond.sizeOf_spec] at ih
      exact cond m c t f (ih _ (by omega) c rfl) (ih _ (by omega) t rfl)
        (ih _ (by omega) f rfl)
    | loop m c b =>
      rw [Expr.loop.sizeOf_spec] at ih
      exact loop m c b (ih _ (by omega) c rfl) (ih _ (by omega) b rfl)
    | block m es =>
      rw [Expr.block.sizeOf_spec] at ih
      refine block m es (fun e he => ?_)
      have hlt := sizeOf_lt_of_mem he
      exact ih _ (by omega) e rfl
    | letIn m bs e =>
      rw [Expr.letIn.sizeOf_spec] at ih
      refine letIn m bs e (fun b hb => ?_) (ih _ (by omega) e rfl)
      have hlt := hvalue bs b hb
      exact ih _ (by omega) b.value rfl
    | typeCase m e bs =>
      rw [Expr.typeCase.sizeOf_spec] at ih
      refine typeCase m e bs (ih _ (by omega) e rfl) (fun b hb => ?_)
      have hlt := hvalue bs b hb
      exact ih _ (by omega) b.value rfl

/-!
# Parts

The expressions that an expression is directly made of, and what holds of all expressions inside
one.
-/

/-- The expressions directly inside an expression. -/
def parts : Expr → List Expr
  | .absent | .omitted _ | .int _ _ | .string _ _ | .bool _ _ | .object _ _ | .new _ _ => []
  | .assign _ _ e | .negate _ e | .complement _ e | .isVoid _ e => [e]
  | .dispatch _ e _ _ args => args ++ [e]
  | .binary _ _ l r => [l, r]
  | .cond _ c t f => [c, t, f]
  | .loop _ c b => [c, b]
  | .block _ es => es
  | .letIn _ bs e => bs.map Declared.value ++ [e]
  | .typeCase _ e bs => e :: bs.map Declared.value

/-- A property of an expression and of all expressions inside it. -/
inductive Everywhere (p : Expr → Prop) : Expr → Prop where
  | intro {e : Expr} : p e → (∀ a ∈ e.parts, Everywhere p a) → Everywhere p e

theorem Everywhere.of_omitted {p : Expr → Prop} {e : Expr} (h : e.isOmitted = true)
    (hp : ∀ m, p (.omitted m)) : Everywhere p e := by
  cases e with
  | omitted m => exact .intro (hp m) (List.forall_mem_nil _)
  | _ => cases h

theorem everywhere_iff {p : Expr → Prop} {e : Expr} :
    Everywhere p e ↔ p e ∧ ∀ a ∈ e.parts, Everywhere p a := by
  constructor
  · intro h
    cases h with
    | intro here inside => exact ⟨here, inside⟩
  · intro h
    exact .intro h.1 h.2

theorem Everywhere.part {p : Expr → Prop} {a e : Expr} (h : Everywhere p e)
    (ha : a ∈ e.parts := by simp [Expr.parts]) : Everywhere p a :=
  (everywhere_iff.mp h).2 a ha

theorem Everywhere.imp {p q : Expr → Prop} {e : Expr} (h : Everywhere p e)
    (himp : ∀ a, p a → q a) : Everywhere q e := by
  induction h with
  | intro here _ ih => exact .intro (himp _ here) ih

def HasBranches : Expr → Prop
  | .typeCase _ _ bs => bs ≠ []
  | _ => True

def CasesFilled (e : Expr) : Prop := Everywhere HasBranches e

theorem casesFilled_iff {e : Expr} :
    e.CasesFilled ↔ e.HasBranches ∧ ∀ a ∈ e.parts, a.CasesFilled := everywhere_iff

def optional : Expr → Nat
  | .letIn _ bs _ => bs.length
  | _ => 0

def required (e : Expr) : List Expr := e.parts.drop e.optional

@[simp] theorem required_letIn (m : Mark) (bs : List (Declared Expr)) (e : Expr) :
    (letIn m bs e).required = [e] := by
  simp [required, parts, optional]

/-- In an expression and in all expressions inside it, nothing that is required is left
out. -/
def Entire (e : Expr) : Prop := Everywhere (fun a => ∀ b ∈ a.required, b.isOmitted = false) e

theorem entire_iff {e : Expr} :
    e.Entire ↔ (∀ b ∈ e.required, b.isOmitted = false) ∧ ∀ a ∈ e.parts, a.Entire := everywhere_iff

theorem literalsOfAll_eq (es : List Expr) : literalsOfAll es = es.flatMap literals := by
  induction es with
  | nil => rfl
  | cons e es ih => simp [literalsOfAll, ih]

theorem literalsOfParts_eq (bs : List (Declared Expr)) :
    literalsOfParts bs = bs.flatMap (fun b => b.value.literals) := by
  induction bs with
  | nil => rfl
  | cons b bs ih =>
    cases b
    simp [literalsOfParts, ih]

theorem slots_letIn_cons (m : Mark) (b : Declared Expr) (bs : List (Declared Expr)) (e : Expr) :
    (letIn m (b :: bs) e).slots = max b.value.slots (1 + (letIn m bs e).slots) := by
  cases b
  simp [slots, slotsOfLet]

theorem slots_le_of_mem {es : List Expr} {a : Expr} (h : a ∈ es) : a.slots ≤ slotsOfAll es := by
  induction es with
  | nil => cases h
  | cons e es ih =>
    rw [slotsOfAll]
    rcases mem_cons.mp h with rfl | hmem
    · omega
    · have := ih hmem
      omega

theorem slots_le_of_branch {bs : List (Declared Expr)} {b : Declared Expr} (h : b ∈ bs) :
    b.value.slots ≤ slotsOfBranches bs := by
  induction bs with
  | nil => cases h
  | cons b' bs ih =>
    rw [slotsOfBranches]
    rcases mem_cons.mp h with rfl | hmem
    · omega
    · have := ih hmem
      omega

theorem slots_le_of_part {e a : Expr} (h : a ∈ e.parts) : a.slots ≤ e.slots := by
  cases e with
  | absent | omitted m | int m n | string m t | bool m b | object m x | new m t => cases h
  | dispatch m e t f args =>
    simp only [parts, mem_append, mem_singleton] at h
    rw [slots]
    rcases h with hmem | rfl
    · have := slots_le_of_mem hmem
      omega
    · omega
  | block m es => exact slots_le_of_mem h
  | letIn m bs e =>
    induction bs with
    | nil =>
      cases mem_singleton.mp h
      exact Nat.le_refl _
    | cons b bs ih =>
      rw [slots_letIn_cons]
      rcases mem_cons.mp h with rfl | hmem
      · omega
      · have := ih hmem
        omega
  | typeCase m e bs =>
    simp only [parts, mem_cons, mem_map] at h
    rw [slots]
    rcases h with rfl | ⟨b, hb, rfl⟩
    · omega
    · have := slots_le_of_branch hb
      omega
  | assign m x e | negate m e | complement m e | isVoid m e | binary m op l r | cond m c t f
  | loop m c b =>
    simp only [parts, mem_cons, not_mem_nil, or_false] at h
    simp only [slots]
    rcases h with rfl | rfl | rfl <;> omega

theorem literals_subset_of_part {e a : Expr} (h : a ∈ e.parts) : a.literals ⊆ e.literals := by
  intro l hl
  cases e <;> simp only [parts, literals, literalsOfAll_eq, literalsOfParts_eq] at h ⊢ <;> grind

end CoolCompiler.Expr
