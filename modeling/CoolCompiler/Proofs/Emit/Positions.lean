import CoolCompiler.Proofs.Emit.Temporaries
import CoolCompiler.Proofs.Typing.Positions

/-!
# Emission inside an expression

The code of an expression has in it the code of its parts.  What is written before a part leads to
the variables at the part.
-/

namespace CoolCompiler.Emit

open List

def before (sc : Scene) : Expr → Nat → Emit Session Unit
  | .assign _ x _, _ => do
      let _ ← placeOf x.name
      done ()
  | .dispatch _ e none f args, i => do
      let c ← receiverClass e
      let _ ← ofExcept (sc.table.method c f)
      actuals sc (args.take i)
  | .dispatch _ _ (some t) f args, i => do
      let _ ← ofExcept (sc.table.method t f)
      actuals sc (args.take i)
  | .binary _ op _ _, 0 => binaryHead sc op
  | .binary _ op l _, _ => do
      binaryHead sc op
      expr sc l
      instrs [.push .hl]
  | .negate _ _, _ => pushInt sc
  | .cond _ _ _ _, 0 => do
      let _ ← newLabel
      let _ ← newLabel
      done ()
  | .cond _ c _ _, 1 => do
      let otherwise ← newLabel
      let _ ← newLabel
      expr sc c
      instrs (testBool ++ [.jp .zero otherwise])
  | .cond _ c t _, _ => do
      let otherwise ← newLabel
      let finished ← newLabel
      expr sc c
      instrs (testBool ++ [.jp .zero otherwise])
      expr sc t
      instrs [.jp .always finished]
      lines [.label otherwise]
  | .loop _ _ _, 0 => do
      let again ← newLabel
      let _ ← newLabel
      lines [.label again]
  | .loop _ c _, _ => do
      let again ← newLabel
      let finished ← newLabel
      lines [.label again]
      expr sc c
      instrs (testBool ++ [.jp .zero finished])
  | .block _ es, i => sequence sc (es.take i)
  | .letIn _ bs _, i => bindings sc (bs.take i)
  | .typeCase _ _ bs, 0 => do
      let _ ← branchTags sc bs
      let _ ← fileConst sc
      done ()
  | .typeCase m e bs, i + 1 => do
      let tags ← branchTags sc bs
      let file ← fileConst sc
      expr sc e
      let void ← newLabel
      let again ← newLabel
      let noMatch ← newLabel
      let finished ← newLabel
      let labels ← newLabels bs.length
      lines (caseWalk void again noMatch (tags.zip labels) m.line file)
      branches sc finished (labels.take i) (bs.take i)
      lines [.label (labels.getD i [])]
      instrs [.pop .hl]
      openSlot ((bs[i]?.map Declared.name).getD [])
  | _, _ => done ()

/-- The emission of one expression comes, along a path, to that of another one in another
state. -/
inductive Visits (sc : Scene) : Session → Expr → List Nat → Session → Expr → Prop where
  | here {s : Session} {e : Expr} : Visits sc s e [] s e
  | into {s s1 s2 : Session} {e e1 e2 : Expr} {i : Nat} {path : List Nat} {ls : List Line}
      (part : e.parts[i]? = some e1) (written : Yields (before sc e i) s ls () s1)
      (rest : Visits sc s1 e1 path s2 e2) : Visits sc s e (i :: path) s2 e2

section Lists

variable (sc : Scene)

theorem sequence_append (es es' : List Expr) :
    sequence sc (es ++ es') = (do sequence sc es; sequence sc es') := by
  induction es with
  | nil => rfl
  | cons e es ih => simp only [cons_append, sequence, ih, bind_assoc]

theorem actuals_append (es es' : List Expr) :
    actuals sc (es ++ es') = (do actuals sc es; actuals sc es') := by
  induction es with
  | nil => rfl
  | cons e es ih => simp only [cons_append, actuals, ih, bind_assoc]

theorem bindings_cons (b : Declared Expr) (bs : List (Declared Expr)) :
    bindings sc (b :: bs) = (do
      initializer sc b.type b.value
      openSlot b.name
      bindings sc bs) := by
  obtain ⟨line, x, type, e⟩ := b
  cases homitted : e.isOmitted <;>
    simp only [bindings, initializer, homitted, if_true, if_false, Bool.false_eq_true]

theorem bindings_append (bs bs' : List (Declared Expr)) :
    bindings sc (bs ++ bs') = (do bindings sc bs; bindings sc bs') := by
  induction bs with
  | nil => rfl
  | cons b bs ih => simp only [cons_append, bindings_cons, ih, bind_assoc]

theorem branches_append (finished : Name) {labels labels' : List Name}
    {bs bs' : List (Declared Expr)} (h : labels.length = bs.length) :
    branches sc finished (labels ++ labels') (bs ++ bs') = (do
      branches sc finished labels bs
      branches sc finished labels' bs') := by
  induction bs generalizing labels with
  | nil =>
    cases labels with
    | nil => rfl
    | cons label labels => cases h
  | cons b bs ih =>
    cases labels with
    | nil => cases h
    | cons label labels =>
      simp only [cons_append, branches, ih (Nat.succ.inj h), bind_assoc]

end Lists

/-!
# The code around a part
-/

inductive Leads (sc : Scene) (part : Expr) : Emit Session Unit → Emit Session Unit → Prop where
  | here (rest : Unit → Emit Session Unit) : Leads sc part (done ()) (expr sc part >>= rest)
  | after {α : Type} (x : Emit Session α) {front whole : α → Emit Session Unit}
      (h : ∀ a, Leads sc part (front a) (whole a)) : Leads sc part (x >>= front) (x >>= whole)

namespace Leads

variable {sc : Scene} {part : Expr}

theorem last {front : Emit Session Unit} {whole : Emit Session Unit}
    (h : Leads sc part (done ()) whole) : Leads sc part front (front >>= fun _ => whole) := by
  have hafter := after front fun _ : Unit => h
  rwa [show (front >>= fun _ => done ()) = front from andThen_done _] at hafter

theorem newLabels {n : Nat} {front whole : List Name → Emit Session Unit}
    (h : ∀ labels, labels.length = n → Leads sc part (front labels) (whole labels)) :
    Leads sc part (newLabels n >>= front) (newLabels n >>= whole) := by
  induction n generalizing front whole with
  | zero => exact h [] rfl
  | succ n ih =>
    simp only [Emit.newLabels, bind_assoc, pure_bind]
    exact after _ fun label => ih fun labels hlength => h _ (congrArg Nat.succ hlength)

theorem yields {front whole : Emit Session Unit} (h : Leads sc part front whole) {s s' : Session}
    {ls : List Line} {u : Unit} (hwhole : Yields whole s ls u s') :
    ∃ before inside after s1 s2, Yields front s before () s1 ∧
      Yields (expr sc part) s1 inside () s2 ∧ ls = before ++ (inside ++ after) := by
  induction h generalizing s ls with
  | here rest =>
    obtain ⟨inside, _, s1, after, hinside, _, rfl⟩ := yields_bind.mp hwhole
    exact ⟨[], inside, after, s, s1, yields_done.mpr ⟨rfl, rfl, rfl⟩, hinside, rfl⟩
  | after x h ih =>
    obtain ⟨first, a, s1, second, hfirst, hsecond, rfl⟩ := yields_bind.mp hwhole
    obtain ⟨before, inside, after, s2, s3, hbefore, hinside, rfl⟩ := ih a hsecond
    refine ⟨first ++ before, inside, after, s2, s3, ?_, hinside, ?_⟩
    · exact yields_bind.mpr ⟨_, _, _, _, hfirst, hbefore, rfl⟩
    · rw [append_assoc]

end Leads

theorem eq_take_append_cons {α : Type} {l : List α} {i : Nat} {a : α} (h : l[i]? = some a) :
    l = l.take i ++ a :: l.drop (i + 1) := by
  obtain ⟨hi, rfl⟩ := List.getElem?_eq_some_iff.mp h
  rw [getElem_cons_drop, take_append_drop]

section Splits

variable {sc : Scene} {i : Nat} {part : Expr}

theorem sequence_leads {es : List Expr} (h : es[i]? = some part) :
    Leads sc part (sequence sc (es.take i)) (sequence sc es) := by
  have hsplit : sequence sc es = (do
      sequence sc (es.take i)
      expr sc part
      sequence sc (es.drop (i + 1))) := by
    conv_lhs => rw [eq_take_append_cons h, sequence_append, sequence]
  rw [hsplit]
  exact .last (.here _)

theorem actuals_leads {args : List Expr} (h : args[i]? = some part)
    (rest : Unit → Emit Session Unit) :
    Leads sc part (actuals sc (args.take i)) (actuals sc args >>= rest) := by
  have hsplit : actuals sc args = (do
      actuals sc (args.take i)
      expr sc part
      instrs [.push .hl]
      actuals sc (args.drop (i + 1))) := by
    conv_lhs => rw [eq_take_append_cons h, actuals_append, actuals]
  rw [hsplit, bind_assoc, bind_assoc]
  exact .last (.here _)

theorem bindings_leads {bs : List (Declared Expr)} {b : Declared Expr} (h : bs[i]? = some b)
    (hwritten : b.value.isOmitted = false) (rest : Unit → Emit Session Unit) :
    Leads sc b.value (bindings sc (bs.take i)) (bindings sc bs >>= rest) := by
  have hsplit : bindings sc bs = (do
      bindings sc (bs.take i)
      expr sc b.value
      openSlot b.name
      bindings sc (bs.drop (i + 1))) := by
    conv_lhs => rw [eq_take_append_cons h, bindings_append, bindings_cons]
    rw [initializer, if_neg (by simp [hwritten])]
  rw [hsplit, bind_assoc, bind_assoc]
  exact .last (.here _)

theorem branches_leads {bs : List (Declared Expr)} {b : Declared Expr} {labels : List Name}
    {finished : Name} (h : bs[i]? = some b) (hlength : labels.length = bs.length)
    (rest : Unit → Emit Session Unit) :
    Leads sc b.value
      (do
        branches sc finished (labels.take i) (bs.take i)
        lines [.label (labels.getD i [])]
        instrs [.pop .hl]
        openSlot b.name)
      (branches sc finished labels bs >>= rest) := by
  have hi : i < labels.length := by
    rw [hlength]
    exact (List.getElem?_eq_some_iff.mp h).1
  have hlabel : labels[i]? = some (labels.getD i []) := by
    rw [getD_eq_getElem?_getD, getElem?_eq_getElem hi, Option.getD_some]
  have htake : (labels.take i).length = (bs.take i).length := by
    rw [length_take, length_take, hlength]
  have hsplit : branches sc finished labels bs = (do
      branches sc finished (labels.take i) (bs.take i)
      branches sc finished (labels.getD i [] :: labels.drop (i + 1)) (b :: bs.drop (i + 1))) := by
    rw [← branches_append sc finished htake, ← eq_take_append_cons h, ← eq_take_append_cons hlabel]
  rw [hsplit, branches]
  simp only [bind_assoc]
  exact .after _ fun _ => .after _ fun _ => .after _ fun _ => .last (.here _)

theorem expr_leads {e : Expr} (h : e.parts[i]? = some part) (hwritten : part.isOmitted = false) :
    Leads sc part (before sc e i) (expr sc e) := by
  cases e with
  | absent | omitted m | int m n | string m t | bool m b | object m x | new m t => cases h
  | assign m x e =>
    cases i with
    | zero =>
      cases h
      exact .after _ fun _ => .here _
    | succ i => cases h
  | dispatch m e t f args =>
    rcases Expr.dispatch_part h with hpart | ⟨rfl, rfl⟩
    · cases t with
      | none => exact .after _ fun _ => .after _ fun _ => actuals_leads hpart _
      | some c => exact .after _ fun _ => actuals_leads hpart _
    · cases t with
      | none =>
        rw [before, take_length]
        exact .after _ fun _ => .after _ fun _ => .last (.here _)
      | some c =>
        rw [before, take_length]
        exact .after _ fun _ => .last (.here _)
  | binary m op l r =>
    match i with
    | 0 =>
      cases h
      exact .last (.here _)
    | 1 =>
      cases h
      exact .after _ fun _ => .after _ fun _ => .last (.here _)
    | i + 2 => cases h
  | negate m e =>
    cases i with
    | zero =>
      cases h
      exact .last (.here _)
    | succ i => cases h
  | complement m e | isVoid m e =>
    cases i with
    | zero =>
      cases h
      exact .here _
    | succ i => cases h
  | cond m c t f =>
    match i with
    | 0 =>
      cases h
      exact .after _ fun _ => .after _ fun _ => .here _
    | 1 =>
      cases h
      exact .after _ fun _ => .after _ fun _ => .after _ fun _ => .last (.here _)
    | 2 =>
      cases h
      exact .after _ fun _ => .after _ fun _ => .after _ fun _ => .after _ fun _ =>
        .after _ fun _ => .after _ fun _ => .last (.here _)
    | i + 3 => cases h
  | loop m c b =>
    match i with
    | 0 =>
      cases h
      exact .after _ fun _ => .after _ fun _ => .last (.here _)
    | 1 =>
      cases h
      exact .after _ fun _ => .after _ fun _ => .after _ fun _ => .after _ fun _ =>
        .last (.here _)
    | i + 2 => cases h
  | block m es => exact sequence_leads h
  | letIn m bs e =>
    rcases Expr.letIn_part h with ⟨b, hb, rfl⟩ | ⟨rfl, rfl⟩
    · exact bindings_leads hb hwritten _
    · rw [before, take_length]
      exact .last (.here _)
  | typeCase m e bs =>
    cases i with
    | zero =>
      cases h
      exact .after _ fun _ => .after _ fun _ => .here _
    | succ i =>
      have hvalue : (bs.map Declared.value)[i]? = some part := h
      rw [getElem?_map] at hvalue
      obtain ⟨b, hb, rfl⟩ := Option.map_eq_some_iff.mp hvalue
      rw [before, hb]
      exact .after _ fun _ => .after _ fun _ => .after _ fun _ => .after _ fun _ =>
        .after _ fun _ => .after _ fun _ => .after _ fun _ =>
        .newLabels fun labels hlength => .after _ fun _ => branches_leads hb hlength _

theorem visits_of_yields {e a : Expr} {path : List Nat} {s s' : Session} {ls : List Line}
    {u : Unit} (h : Yields (expr sc e) s ls u s') (ha : e.at? path = some a)
    (hwritten : a.isOmitted = false) :
    ∃ s1 s2 inside, Visits sc s e path s1 a ∧ Yields (expr sc a) s1 inside () s2 ∧
      inside <:+: ls := by
  induction path generalizing e s s' ls u with
  | nil =>
    cases ha
    exact ⟨s, s', ls, .here, h, infix_refl ls⟩
  | cons i path ih =>
    obtain ⟨e1, he1, hrest⟩ := Option.bind_eq_some_iff.mp ha
    have homitted : e1.isOmitted = false := by
      cases path with
      | nil =>
        cases hrest
        exact hwritten
      | cons j path =>
        cases e1 with
        | omitted m => cases hrest
        | _ => rfl
    rcases (expr_leads he1 homitted).yields h with
      ⟨before, part, after, s1, s2, hbefore, hpart, rfl⟩
    obtain ⟨s3, s4, inside, hvisits, hinside, hwithin⟩ := ih hpart hrest
    refine ⟨s3, s4, inside, .into he1 hbefore hvisits, hinside, ?_⟩
    exact hwithin.trans ⟨before, after, by rw [append_assoc]⟩

end Splits

end CoolCompiler.Emit
