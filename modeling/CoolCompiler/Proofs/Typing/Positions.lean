import CoolCompiler.Proofs.Typing.Judgement

/-!
# Inference inside an expression

Inference infers each part in certain scopes.  A path leads to an expression inside another by the
numbers of parts, and what inference returns has there what it returns for it.
-/

namespace CoolCompiler

open List

namespace Expr

def at? : Expr → List Nat → Option Expr
  | e, [] => some e
  | e, i :: path => e.parts[i]?.bind fun a => a.at? path

theorem Everywhere.at? {p : Expr → Prop} {e a : Expr} {path : List Nat} (h : e.Everywhere p)
    (ha : e.at? path = some a) : p a := by
  induction path generalizing e with
  | nil =>
    cases ha
    exact (everywhere_iff.mp h).1
  | cons i path ih =>
    obtain ⟨b, hb, ha⟩ := Option.bind_eq_some_iff.mp ha
    exact ih ((everywhere_iff.mp h).2 b (mem_of_getElem? hb)) ha

theorem not_omitted_of_at? {body e : Expr} {path : List Nat} (h : body.at? path = some e)
    (he : e.isOmitted = false) : body.isOmitted = false := by
  cases body with
  | omitted m =>
    cases path with
    | nil =>
      cases h
      cases he
    | cons i path => cases h
  | _ => rfl

def mentioned? : Expr → Option Name
  | .object _ x => some x
  | .assign _ x _ => some x.name
  | _ => none

variable {m : Mark} {bs : List (Declared Expr)} {e a : Expr} {i : Nat}

theorem dispatch_part {t : Option Name} {f : Name} {args : List Expr}
    (h : (dispatch m e t f args).parts[i]? = some a) :
    args[i]? = some a ∨ i = args.length ∧ a = e := by
  rw [parts, getElem?_append] at h
  split at h
  · exact .inl h
  · obtain ⟨hone, heq⟩ := List.getElem?_eq_some_iff.mp h
    rw [length_singleton] at hone
    refine .inr ⟨by omega, ?_⟩
    rw [← heq, getElem_singleton]

theorem part_letIn_value {b : Declared Expr} (h : bs[i]? = some b) :
    (letIn m bs e).parts[i]? = some b.value := by
  have hlt : i < (bs.map Declared.value).length := by
    rw [length_map]
    exact (List.getElem?_eq_some_iff.mp h).1
  rw [parts, getElem?_append_left hlt, getElem?_map, h, Option.map_some]

theorem part_letIn_body : (letIn m bs e).parts[bs.length]? = some e := by
  rw [parts, getElem?_append_right (Nat.le_of_eq (length_map _)), length_map,
    Nat.sub_self]
  rfl

theorem letIn_part (h : (letIn m bs e).parts[i]? = some a) :
    (∃ b, bs[i]? = some b ∧ a = b.value) ∨ i = bs.length ∧ a = e := by
  rw [parts, getElem?_append, length_map] at h
  split at h
  · rw [getElem?_map] at h
    obtain ⟨b, hb, rfl⟩ := Option.map_eq_some_iff.mp h
    exact .inl ⟨b, hb, rfl⟩
  · obtain ⟨hone, heq⟩ := List.getElem?_eq_some_iff.mp h
    rw [length_singleton] at hone
    refine .inr ⟨by omega, ?_⟩
    rw [← heq, getElem_singleton]

end Expr

namespace Typing

def within (ctx : Context) (Γ : Scopes) : Expr → Nat → Option Scopes
  | .letIn _ bs _, i =>
    match inferBindings ctx Γ (bs.take i) with
    | .ok ((_, inside), _) => some inside
    | .error _ => none
  | .typeCase _ _ bs, i + 1 => bs[i]?.map fun b => Γ.enter.bind b.name b.type
  | _, _ => some Γ

/-- Inference of one expression in some scopes comes, along a path, to another expression in
other scopes. -/
inductive Visits (ctx : Context) : Scopes → Expr → List Nat → Scopes → Expr → Prop where
  | here {Γ : Scopes} {e : Expr} : Visits ctx Γ e [] Γ e
  | into {Γ Γ1 Γ2 : Scopes} {e e1 e2 : Expr} {i : Nat} {path : List Nat}
      (part : e.parts[i]? = some e1) (scopes : within ctx Γ e i = some Γ1)
      (rest : Visits ctx Γ1 e1 path Γ2 e2) : Visits ctx Γ e (i :: path) Γ2 e2

/-!
# Bindings
-/

def pushAll (Γ : Scopes) (bs : List (Declared Expr)) : Scopes :=
  bs.foldl (fun Γ b => Γ.enter.bind b.name b.type) Γ

theorem exists_of_forall₂_getElem? {α β : Type} {R : α → β → Prop} {l : List α} {l' : List β}
    (h : List.Forall₂ R l l') {i : Nat} {a : α} (ha : l[i]? = some a) :
    ∃ b, l'[i]? = some b ∧ R a b := by
  induction h generalizing i with
  | nil => cases ha
  | @cons c b _ _ hfirst _ ih =>
    cases i with
    | zero =>
      cases ha
      exact ⟨b, rfl, hfirst⟩
    | succ i => exact ih ha

theorem inferBindings_at {ctx : Context} {Γ inside : Scopes} {bs bs' : List (Declared Expr)}
    (h : inferBindings ctx Γ bs = .ok ((bs', inside), [])) (i : Nat) :
    inferBindings ctx Γ (bs.take i) = .ok ((bs'.take i, pushAll Γ (bs'.take i)), []) ∧
      ∀ b, bs[i]? = some b → ∃ b', bs'[i]? = some b' ∧
        infer ctx (pushAll Γ (bs'.take i)) b.value = .ok (b'.value, []) := by
  induction bs generalizing Γ bs' i with
  | nil =>
    simp only [inferBindings, Check.pure_eq_ok_iff, Prod.mk.injEq] at h
    obtain ⟨rfl, rfl⟩ := h
    simp [inferBindings, pushAll]
  | cons b bs ih =>
    obtain ⟨line, x, type, e⟩ := b
    simp only [inferBindings, Check.bind_eq_ok_iff, Check.pure_eq_ok_iff] at h
    obtain ⟨declared, hdeclared, init, hinit, u, hfits, ⟨rest, inside'⟩, hrest, heq⟩ := h
    cases heq
    cases i with
    | zero =>
      refine ⟨by simp [inferBindings, pushAll], fun b hb => ?_⟩
      cases hb
      exact ⟨_, rfl, hinit⟩
    | succ i =>
      have hsame := (bindingType_eq_ok_iff.mp hdeclared).2.2
      subst hsame
      obtain ⟨hnext, hvalue⟩ := ih hrest i
      refine ⟨?_, hvalue⟩
      simp only [take_succ_cons, inferBindings, Check.bind_eq_ok_iff, Check.pure_eq_ok_iff]
      exact ⟨_, hdeclared, init, hinit, u, hfits, _, hnext, rfl⟩

/-!
# Parts
-/

def inside (Γ : Scopes) : Expr → Nat → Scopes
  | .letIn _ bs _, i => pushAll Γ (bs.take i)
  | .typeCase _ _ bs, i + 1 => pushAll Γ bs[i]?.toList
  | _, _ => Γ

theorem infer_plain_part {ctx : Context} {Γ : Scopes} {e e' a : Expr} {i : Nat}
    (h : infer ctx Γ e = .ok (e', [])) (he : e.opens = false) (ha : e.parts[i]? = some a) :
    ∃ a', e'.parts[i]? = some a' ∧ within ctx Γ e i = some (inside Γ e' i) ∧
      infer ctx (inside Γ e' i) a = .ok (a', []) := by
  obtain ⟨a', ha', hinfer⟩ := exists_of_forall₂_getElem? (infer_plain h he) ha
  refine ⟨a', ha', ?_⟩
  cases infer_eq_ok_iff.mp h with
  | letIn | typeCase => cases he
  | _ => exact ⟨rfl, hinfer⟩

theorem infer_part {ctx : Context} {Γ : Scopes} {e e' a : Expr} {i : Nat}
    (h : infer ctx Γ e = .ok (e', [])) (ha : e.parts[i]? = some a) :
    ∃ a', e'.parts[i]? = some a' ∧ within ctx Γ e i = some (inside Γ e' i) ∧
      infer ctx (inside Γ e' i) a = .ok (a', []) := by
  cases infer_eq_ok_iff.mp h with
  | @letIn m bs bindings inner e body hbindings hbody =>
    have hwithin : within ctx Γ (.letIn m bs e) i = some (pushAll Γ (bindings.take i)) := by
      simp only [within, (inferBindings_at hbindings i).1]
    rcases Expr.letIn_part ha with ⟨b, hb, rfl⟩ | ⟨hi, rfl⟩
    · obtain ⟨b', hb', hinfer⟩ := (inferBindings_at hbindings i).2 b hb
      exact ⟨b'.value, Expr.part_letIn_value hb', hwithin, hinfer⟩
    · have hlength := (inferBindings_parts hbindings).length_eq
      have hwhole := (inferBindings_at hbindings bs.length).1
      rw [take_length, hbindings, hlength, take_length] at hwhole
      cases hwhole
      rw [hi, hlength] at hwithin ⊢
      refine ⟨body, Expr.part_letIn_body, hwithin, ?_⟩
      change infer ctx (pushAll Γ (bindings.take bindings.length)) a = _
      rwa [take_length]
  | @typeCase m bs branches e scrutinee t hscrutinee hbranches =>
    obtain ⟨hall, _⟩ := inferBranches_eq_ok hbranches
    cases i with
    | zero =>
      cases ha
      exact ⟨scrutinee, rfl, rfl, hscrutinee⟩
    | succ i =>
      have hvalue : (bs.map Declared.value)[i]? = some a := ha
      rw [getElem?_map] at hvalue
      obtain ⟨b, hb, rfl⟩ := Option.map_eq_some_iff.mp hvalue
      obtain ⟨b', hb', hname, htype, _, _, hinfer⟩ := exists_of_forall₂_getElem? hall hb
      have hscopes : pushAll Γ branches[i]?.toList = Γ.enter.bind b.name b.type := by
        rw [hb', ← hname, ← htype]
        rfl
      refine ⟨b'.value, ?_, ?_, ?_⟩
      · change (branches.map Declared.value)[i]? = _
        rw [getElem?_map, hb']
        rfl
      · change bs[i]?.map _ = some (pushAll Γ branches[i]?.toList)
        rw [hb, hscopes]
        rfl
      · change infer ctx (pushAll Γ branches[i]?.toList) b.value = _
        rwa [hscopes]
  | _ => exact infer_plain_part h rfl ha

theorem infer_mentioned? {ctx : Context} {Γ : Scopes} {e e' : Expr} {x : Name}
    (h : infer ctx Γ e = .ok (e', [])) (hx : e.mentioned? = some x) :
    e'.mentioned? = some x ∧ ∃ type, typeOfVar? ctx Γ x = some type := by
  cases infer_eq_ok_iff.mp h with
  | object type =>
    cases hx
    exact ⟨rfl, _, type⟩
  | assign _ _ target =>
    cases hx
    exact ⟨rfl, _, target⟩
  | _ => cases hx

end Typing
end CoolCompiler
