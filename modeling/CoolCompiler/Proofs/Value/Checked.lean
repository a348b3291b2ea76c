import CoolCompiler.Proofs.Typing.Judgement
import CoolCompiler.Proofs.Value.Eval

/-!
# Evaluation of checked expressions

The check of an expression adds static types, which evaluation does not look at.
-/

namespace CoolCompiler

open Typing

theorem infer_letIn_cons {ctx : Context} {Γ : Scopes} {m m' : Mark} {b : Declared Expr}
    {bs : List (Declared Expr)} {a e : Expr}
    (h : infer ctx Γ (.letIn m (b :: bs) a) = .ok (e, [])) :
    ∃ declared init rest body m1 m2, infer ctx Γ b.value = .ok (init, []) ∧
      infer ctx (Γ.enter.bind b.name declared) (.letIn m' bs a) = .ok (.letIn m1 rest body, []) ∧
      e = .letIn m2 ({ b with value := init } :: rest) body := by
  obtain ⟨line, x, type, value⟩ := b
  cases infer_eq_ok_iff.mp h with
  | letIn bindings body =>
    simp only [inferBindings, Check.bind_eq_ok_iff, Check.pure_eq_ok_iff] at bindings
    obtain ⟨declared, _, init, hinit, _, _, ⟨rest, inside'⟩, hrest, heq⟩ := bindings
    cases heq
    exact ⟨declared, init, rest, _, _, _, hinit, infer_eq_ok_iff.mpr (.letIn hrest body), rfl⟩

theorem Eval.of_infer {ctx : Context} {Γ : Scopes} {ρ ρ' : Dictionary Value} {a e : Expr}
    {v : Value} (h : Eval ρ a v ρ') (hinfer : infer ctx Γ a = .ok (e, [])) : Eval ρ e v ρ' := by
  induction h generalizing Γ e with
  | int | bool =>
    cases infer_eq_ok_iff.mp hinfer
    constructor
  | lookup hself hfind =>
    cases infer_eq_ok_iff.mp hinfer
    exact .lookup hself hfind
  | assign hhas _ ih =>
    cases infer_eq_ok_iff.mp hinfer with
    | assign value => exact .assign hhas (ih value)
  | arithmetic hop _ _ ihl ihr =>
    cases infer_eq_ok_iff.mp hinfer with
    | binary left right => exact .arithmetic hop (ihl left) (ihr right)
  | comparison hop _ _ ihl ihr =>
    cases infer_eq_ok_iff.mp hinfer with
    | binary left right => exact .comparison hop (ihl left) (ihr right)
  | equal hu hv _ _ ihl ihr =>
    cases infer_eq_ok_iff.mp hinfer with
    | binary left right => exact .equal hu hv (ihl left) (ihr right)
  | negate _ ih =>
    cases infer_eq_ok_iff.mp hinfer with
    | negate operand => exact .negate (ih operand)
  | complement _ ih =>
    cases infer_eq_ok_iff.mp hinfer with
    | complement operand => exact .complement (ih operand)
  | isVoid _ ih =>
    cases infer_eq_ok_iff.mp hinfer with
    | isVoid operand => exact .isVoid (ih operand)
  | @cond _ _ _ _ _ _ _ b _ _ _ ihc ihb =>
    cases infer_eq_ok_iff.mp hinfer with
    | cond test _ thenBranch elseBranch =>
      refine .cond (ihc test) ?_
      cases b with
      | true => exact ihb thenBranch
      | false => exact ihb elseBranch
  | loopEnd _ ih =>
    cases infer_eq_ok_iff.mp hinfer with
    | loop test => exact .loopEnd (ih test)
  | loopAgain _ _ _ ihc ihe ihl =>
    have hloop := ihl hinfer
    cases infer_eq_ok_iff.mp hinfer with
    | loop test _ body => exact .loopAgain (ihc test) (ihe body) hloop
  | blockLast _ ih =>
    cases infer_eq_ok_iff.mp hinfer with
    | block items =>
      rcases items with _ | ⟨last, ⟨⟩⟩
      exact .blockLast (ih last)
  | blockNext _ _ ihfirst ihrest =>
    cases infer_eq_ok_iff.mp hinfer with
    | block items =>
      rcases items with _ | ⟨first, rest⟩
      have hblock := ihrest (infer_eq_ok_iff.mpr (.block rest))
      rcases rest with _ | ⟨_, _⟩
      exact .blockNext (ihfirst first) hblock
  | letBody _ ih =>
    cases infer_eq_ok_iff.mp hinfer with
    | letIn bindings body =>
      rw [inferBindings] at bindings
      cases bindings
      exact .letBody (ih body)
  | letOmitted homitted _ ih =>
    obtain ⟨declared, init, rest, body, _, _, hinit, hrest, rfl⟩ := infer_letIn_cons hinfer
    refine .letOmitted ?_ (ih hrest)
    rw [(infer_parts hinit).2.2.1, homitted]
  | letInit _ _ ihinit ih =>
    obtain ⟨declared, init, rest, body, _, _, hinit, hrest, rfl⟩ := infer_letIn_cons hinfer
    exact .letInit (ihinit hinit) (ih hrest)

end CoolCompiler
