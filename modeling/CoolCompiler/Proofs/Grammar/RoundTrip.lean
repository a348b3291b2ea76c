import CoolCompiler.Proofs.Grammar.Precedence
import CoolCompiler.Proofs.Syntax.Induction

/-!
# Round trip

Every expression tree that the grammar can build is read back from its tokens, also as the body of a
method.
-/

namespace CoolCompiler.Grammar

open List

section Rendered

variable {e : Expr} {es : List Expr} {bs : List (Declared Expr)} {r q : Rung} {ws : List Spelling}

theorem marks_of_spells {m : Mark} {literal : Text} (h : m.Spells literal) :
    Marks Mark.unplaced literal m := by
  obtain ⟨rfl, h⟩ := h
  intro line
  rw [← h]
  rfl

theorem reach_mono (h : r.height ≤ q.height) : reach r ≤ reach q := by
  cases r <;> cases q <;> simp [Rung.height, reach] at h ⊢

/-- The words of an expression of some rung in a rendering. -/
abbrev Stands (e : Expr) (r : Rung) (ws : List Spelling) : Prop :=
  Reads Mark.unplaced e r (reach r) ws

theorem Reads.stands (h : Reads Mark.unplaced e r (min (reach r) (reach q)) ws)
    (hq : r.height < q.height) : Stands e r ws := by
  rwa [Nat.min_eq_left (reach_mono (Nat.le_of_lt hq))] at h

theorem Reads.parenthesised {d : Demand} (h : Stands e r ws) (hd : d.admits .highest = true) :
    ∃ q, d.admits q = true ∧ Stands e q (parenthesised d r ws) := by
  unfold CoolCompiler.parenthesised
  split
  · rename_i hadmits
    exact ⟨r, hadmits, h⟩
  · exact ⟨.highest, hd, reads_paren h.closed⟩

theorem closed_renderAll (h : ∀ a ∈ es, Stands a a.rung a.render) :
    ClosedAll Mark.unplaced es (Expr.renderAll es) := by
  induction es with
  | nil => exact .nil
  | cons e es ih =>
    rw [forall_mem_cons] at h
    exact .cons h.1.closed (ih h.2)

theorem renderItems_eq (es : List Expr) :
    Expr.renderItems es = (Expr.renderAll es).flatMap (· ++ [⟨.semicolon, ";"⟩]) := by
  induction es with
  | nil => rfl
  | cons e es ih => simp [ih]

theorem bindingWords_renderBindings (homitted : ∀ b ∈ bs, ∀ m, b.value = .omitted m → m.Spells [])
    (hgiven : ∀ b ∈ bs, b.value.isOmitted = false → Stands b.value b.value.rung b.value.render) :
    Forall₂ (BindingWords Mark.unplaced) bs (Expr.renderBindings bs) := by
  induction bs with
  | nil => exact .nil
  | cons b bs ih =>
    obtain ⟨line, x, type, e⟩ := b
    rw [forall_mem_cons] at homitted hgiven
    refine .cons ⟨_, rfl, ?_⟩ (ih homitted.2 hgiven.2)
    cases homit : e.isOmitted with
    | false => exact .given (hgiven.1 homit).closed
    | true =>
      cases e with
      | omitted m => exact .omitted (marks_of_spells (homitted.1 m rfl))
      | _ => cases homit

theorem branchWords_render (h : ∀ b ∈ bs, Stands b.value b.value.rung b.value.render) :
    ∃ wss, Forall₂ (BranchWords Mark.unplaced) bs wss ∧
      Expr.renderBranches bs = wss.flatMap (· ++ [⟨.semicolon, ";"⟩]) := by
  induction bs with
  | nil => exact ⟨[], .nil, rfl⟩
  | cons b bs ih =>
    obtain ⟨line, x, type, e⟩ := b
    rw [forall_mem_cons] at h
    obtain ⟨wss, hwss, hrender⟩ := ih h.2
    refine ⟨_ :: wss, .cons ⟨_, rfl, h.1.closed⟩ hwss, ?_⟩
    simp [hrender, declares]

end Rendered

theorem reads_render {e : Expr} (h : e.Readable) : Stands e e.rung e.render := by
  induction h with
  | int hm hn _ =>
    subst hn
    exact reads_int (marks_of_spells ⟨rfl, hm⟩)
  | string hm => exact hm.literal ▸ reads_string (marks_of_spells ⟨rfl, hm.untyped⟩)
  | @bool m b hm =>
    have hvalue : (m.literal == ("true" : Text)) = b := by
      rw [hm.literal]
      cases b <;> decide
    exact hvalue ▸ reads_bool (marks_of_spells ⟨rfl, hm.untyped⟩)
  | object hm => exact hm.literal ▸ reads_object (marks_of_spells ⟨rfl, hm.untyped⟩)
  | assign hm hm' _ he =>
    obtain ⟨q, hq, hread⟩ := he.parenthesised (d := .atLeast .assign) rfl
    exact reads_assign (marks_of_spells ⟨rfl, hm.untyped⟩) (marks_of_spells hm') hread
  | selfCall hm hf hm' _ hargs =>
    obtain ⟨rfl, hm⟩ := hm
    rw [Expr.render, if_neg hf, nil_append]
    exact reads_selfCall (marks_of_spells ⟨rfl, hm⟩) (closed_renderAll hargs) (marks_of_spells hm')
  | @call m e f args hm _ _ he hargs =>
    obtain ⟨q, hq, hread⟩ := he.parenthesised (d := .atLeast .dispatch) rfl
    have hcall := reads_call (f := f) (marks_of_spells hm) (closed_renderAll hargs) hread
      (of_decide_eq_true hq) (reach_mono (r := .dispatch) (of_decide_eq_true hq))
    simpa [Stands, reach, hm.literal, Expr.rung] using hcall
  | staticCall hm _ _ he hargs =>
    obtain ⟨q, hq, hread⟩ := he.parenthesised (d := .atLeast .dispatch) rfl
    simpa [Stands, reach, Expr.rung] using reads_staticCall (marks_of_spells ⟨rfl, hm.untyped⟩)
      (closed_renderAll hargs)
      hread (of_decide_eq_true hq) (reach_mono (r := .dispatch) (of_decide_eq_true hq))
  | @binary m op l r hop hm _ _ hl hr =>
    obtain ⟨p, hp, hleft⟩ := hl.parenthesised (d := op.leftDemand) (by cases op <;> rfl)
    obtain ⟨q, hq, hright⟩ := hr.parenthesised (d := .above op.rung) (by cases op <;> rfl)
    have htight : op.rung.height ≤ p.height ∧ op.rung.height ≤ reach p := by
      cases op with
      | other symbol => exact absurd rfl (hop symbol)
      | _ => revert hp; cases p <;> decide
    have hq := of_decide_eq_true hq
    have hread := (reads_binary (marks_of_spells hm) hop hleft htight hright hq).stands hq
    rwa [← hm.literal] at hread
  | negate hm _ he =>
    obtain ⟨q, hq, hread⟩ := he.parenthesised (d := .above .negate) rfl
    have hq := of_decide_eq_true hq
    exact Reads.stands (r := .negate) (reads_negate (marks_of_spells ⟨rfl, hm.untyped⟩) hread hq) hq
  | complement hm _ he =>
    obtain ⟨q, hq, hread⟩ := he.parenthesised (d := .above .complement) rfl
    have hq := of_decide_eq_true hq
    exact Reads.stands (r := .complement) (reads_complement (marks_of_spells ⟨rfl, hm⟩) hread hq) hq
  | isVoid hm _ he =>
    obtain ⟨q, hq, hread⟩ := he.parenthesised (d := .above .isVoid) rfl
    have hq := of_decide_eq_true hq
    exact Reads.stands (r := .isVoid) (reads_isVoid (marks_of_spells ⟨rfl, hm⟩) hread hq) hq
  | new hm => exact reads_new (marks_of_spells ⟨rfl, hm⟩)
  | cond hm _ _ _ hc ht hf =>
    exact reads_cond (marks_of_spells ⟨rfl, hm⟩) hc.closed ht.closed hf.closed
  | loop hm _ _ hc hb => exact reads_loop (marks_of_spells ⟨rfl, hm⟩) hc.closed hb.closed
  | block hm hne _ hes =>
    rw [Expr.render, renderItems_eq]
    exact reads_block (marks_of_spells ⟨rfl, hm.untyped⟩) hne (closed_renderAll hes)
  | @letIn m bs e hm hne homitted _ _ hgiven he =>
    have hbs := bindingWords_renderBindings homitted hgiven
    cases bs with
    | nil => exact absurd rfl hne
    | cons b bs =>
      cases hbs with
      | cons hb hbs => exact reads_letIn (marks_of_spells ⟨rfl, hm⟩) hb hbs he
  | typeCase hm _ hne _ he hbs =>
    obtain ⟨wss, hwss, hrender⟩ := branchWords_render hbs
    rw [Expr.render, hrender]
    exact reads_typeCase (marks_of_spells ⟨rfl, hm⟩) he.closed hne hwss

theorem readBack_of_readable {e : Expr} (h : e.Readable) :
    Closed (fun e' => e'.unplaced = e.unplaced) e.render := by
  unfold Expr.unplaced
  exact (reads_render h).closed

theorem ordinary_methodAround {className method returns : Name} {body : List Spelling}
    (h : ∀ w ∈ body, Ordinary w) :
    ∀ w ∈ methodAround className method returns body, Ordinary w := by
  rw [methodAround, forall_mem_append, forall_mem_append]
  exact ⟨by simp [Ordinary], h, by simp [Ordinary]⟩

section Tokens

variable {front : List Token} {last : Token}

theorem wordsOf_ordinary (hfront : ∀ t ∈ front, Ordinary t.spelling)
    (hlast : last.kind = .endOfText) :
    Stream.wordsOf [] (front ++ [last]) = (front.map (Word.mk []), ⟨[], last⟩) := by
  induction front with
  | nil => simp [Stream.wordsOf, hlast]
  | cons t front ih =>
    rw [forall_mem_cons] at hfront
    have hkind : t.kind ≠ .error ∧ t.kind ≠ .endOfText := hfront.1
    rw [cons_append, Stream.wordsOf, if_neg hkind.1, if_neg hkind.2, ih hfront.2]
    rfl

theorem spells_ofTokens (hfront : ∀ t ∈ front, Ordinary t.spelling)
    (hlast : last.kind = .endOfText) :
    (Stream.ofTokens (front ++ [last])).Spells (front.map Token.spelling) := by
  have hclean : ∀ w ∈ front.map (Word.mk []), w.before = [] := by
    intro w hw
    obtain ⟨t, _, rfl⟩ := mem_map.mp hw
    rfl
  rw [Stream.ofTokens, wordsOf_ordinary hfront hlast]
  refine ⟨by simp [Stream.entering], hclean, rfl, hlast, ?_⟩
  cases front with
  | nil => rfl
  | cons t front => rfl

end Tokens

/-!
# Method bodies
-/

section Methods

variable {s : Stream} {P : Expr → Prop} {className method returns : Name} {ws rest : List Spelling}

def IsMethod (method returns : Name) (P : Expr → Prop) (f : Feature) : Prop :=
  ∃ line body, f = .method ⟨line, method, [], returns, body⟩ ∧ P body

def IsClass (file : Text) (className method returns : Name) (P : Expr → Prop) (c : Class) : Prop :=
  ∃ line f, c = ⟨line, className, none, [f], file⟩ ∧ IsMethod method returns P f

theorem yields_method (he : Closed P ws) (place : Position) :
    Yields (.featureDecl ⟨.objectName, method, place⟩) (⟨.openParen, "("⟩ :: ⟨.closeParen, ")"⟩ ::
      ⟨.colon, ":"⟩ :: ⟨.typeName, returns⟩ :: ⟨.openBrace, "\x7b"⟩ ::
        (ws ++ ⟨.closeBrace, "\x7d"⟩ :: rest)) (IsMethod method returns P) rest := by
  refine yields_of_body (.yes rfl (.call (Q := fun m => IsMethod method returns P (.method m))
    (yields_of_body (.yes rfl (.accept fun _ => .call (Q := (· = []))
      (yields_of_body (.yes rfl (.accept fun _ => .done rfl))) ?_))) fun m hm => .done hm))
  rintro _ rfl
  exact .accept fun _ => .accept fun _ => .accept fun _ => .call (he.yields rfl) fun body hbody =>
    .accept fun _ => .done ⟨_, body, rfl, hbody⟩

theorem gives_class (file : Text) (he : Closed P ws) {t : Token} (ht : t.kind = .class)
    (hs : s.Spells (methodAround className method returns ws).tail) :
    Gives (classDecl file t s) (IsClass file className method returns P) [] := by
  have hnone : Yields .features (⟨.closeBrace, "\x7d"⟩ :: [⟨.semicolon, ";"⟩]) (· = [])
      [⟨.semicolon, ";"⟩] := yields_of_body (.yes rfl (.accept fun _ => .done rfl))
  have hfeatures : Yields .features ((methodAround className method returns ws).drop 3)
      (fun fs => ∃ f, fs = [f] ∧ IsMethod method returns P f) [⟨.semicolon, ";"⟩] :=
    yields_of_body (.no nofun fun place => .call (yields_method he place) fun f hf =>
      .accept fun _ => .call hnone fun fs hfs => .done ⟨f, by rw [hfs], hf⟩)
  have hparent : Yields .parent ((methodAround className method returns ws).drop 2) (· = none)
      ((methodAround className method returns ws).drop 2) := yields_of_body (.no nofun (.done rfl))
  suffices h : Yields (.classDecl file t) (methodAround className method returns ws).tail
    (IsClass file className method returns P) [] from h s hs
  refine yields_of_body (.yes ht (.accept fun _ => .call hparent fun parentName hparentName =>
    .accept fun _ => .call hfeatures ?_))
  rintro _ ⟨f, rfl, hf⟩
  exact .accept fun _ => .done ⟨t.line, f, by rw [hparentName], hf⟩

theorem classes_of_gives {file : Text} {P : Class → Prop} {w : Spelling}
    (hs : s.Spells (w :: ws)) (h : Gives (classDecl file s.head s.advance) P []) :
    ∃ c left, classes file s = ([c], left) ∧ P c ∧ left.reports = [] := by
  obtain ⟨c, left, hle, hok, hc, hleft⟩ := h
  refine ⟨c, left, ?_, hc, hleft.quiet⟩
  rw [classes_ok hs.cons.1 hok, classes_of_nil (map_eq_nil_iff.mp hleft.words)]

theorem program_of_closed {file : Text} {front : List Token} {last : Token} (he : Closed P ws)
    (hfront : front.map Token.spelling = methodAround className method returns ws)
    (hlast : last.kind = .endOfText) :
    (program file (front ++ [last])).reports = [] ∧
      ∃ line methodLine body, (program file (front ++ [last])).classes =
          [⟨line, className, none, [.method ⟨methodLine, method, [], returns, body⟩], file⟩] ∧
        P body := by
  have hordinary : ∀ t ∈ front, Ordinary t.spelling := by
    intro t ht
    have hmem := mem_map_of_mem (f := Token.spelling) ht
    rw [hfront] at hmem
    exact ordinary_methodAround he.plain _ hmem
  have hs := spells_ofTokens hordinary hlast
  rw [hfront] at hs
  obtain ⟨c, left, hclasses, hc, hquiet⟩ :=
    classes_of_gives hs (gives_class file he hs.kind hs.cons.2.2)
  obtain ⟨line, f, rfl, methodLine, body, rfl, hbody⟩ := hc
  have hprogram : program file (front ++ [last]) =
      ⟨[⟨line, className, none, [.method ⟨methodLine, method, [], returns, body⟩], file⟩],
        left.reports⟩ := by
    simp [program, hclasses]
  rw [hprogram]
  exact ⟨hquiet, line, methodLine, body, rfl, hbody⟩

end Methods

/-- The tokens of an expression, rendered with no more parentheses than the ladder of operators
asks for and read as the body of a method, give that expression back without a report. -/
theorem program_reads_rendered (file : Text) (className method returns : Name) (e : Expr)
    (he : e.Readable) (front : List Token) (last : Token)
    (hfront : front.map Token.spelling = methodAround className method returns e.render)
    (hlast : last.kind = .endOfText) :
    (program file (front ++ [last])).reports = [] ∧
      ∃ line methodLine body, (program file (front ++ [last])).classes =
          [⟨line, className, none, [.method ⟨methodLine, method, [], returns, body⟩], file⟩] ∧
        body.unplaced = e.unplaced :=
  program_of_closed (readBack_of_readable he) hfront hlast

def ladderArguments : List Expr :=
  [.isVoid ⟨"isvoid", 0, []⟩ (.new ⟨"new", 0, []⟩ "A"),
    .letIn ⟨"let", 0, []⟩ [⟨0, "y", "Int", .omitted ⟨[], 0, []⟩⟩] (.object ⟨"y", 0, []⟩ "y")]

def ladderTree : Expr :=
  .assign ⟨"<-", 0, []⟩ "x" (.complement ⟨"not", 0, []⟩ (.binary ⟨"<", 0, []⟩ .less
    (.binary ⟨"+", 0, []⟩ .add
      (.dispatch ⟨".", 0, []⟩ (.object ⟨"a", 0, []⟩ "a") none "f" ladderArguments)
      (.binary ⟨"*", 0, []⟩ .mul (.int ⟨"3", 0, []⟩ 3)
        (.binary ⟨"-", 0, []⟩ .sub (.int ⟨"4", 0, []⟩ 4) (.int ⟨"5", 0, []⟩ 5))))
    (.negate ⟨"~", 0, []⟩ (.dispatch ⟨"g", 0, []⟩ (.object ⟨"g", 0, []⟩ Name.self) none "g" []))))

example : ladderTree.render.map Spelling.literal =
    (["x", "<-", "not", "a", ".", "f", "(", "isvoid", "new", "A", ",", "let", "y", ":", "Int",
      "in", "y", ")", "+", "3", "*", "(", "4", "-", "5", ")", "<", "~", "g", "(", ")"] :
        List Text) := by
  decide

theorem readable_ladderTree : ladderTree.Readable := by
  have hargs : ∀ a ∈ ladderArguments, a.Readable := by
    simp only [ladderArguments, forall_mem_cons]
    refine ⟨.isVoid rfl (.new rfl), .letIn rfl (cons_ne_nil _ _) ?_ ?_ (.object ⟨rfl, rfl⟩),
      by simp⟩
    · simp only [forall_mem_cons]
      exact ⟨fun m hm => Expr.omitted.inj hm ▸ ⟨rfl, rfl⟩, by simp⟩
    · simp [Expr.isOmitted]
  refine .assign ⟨rfl, rfl⟩ ⟨rfl, rfl⟩ (.complement rfl (.binary (by simp) ⟨rfl, rfl⟩
    (.binary (by simp) ⟨rfl, rfl⟩ ?_ ?_) ?_))
  · exact .call ⟨rfl, rfl⟩ (.object ⟨rfl, rfl⟩) hargs
  · exact .binary (by simp) ⟨rfl, rfl⟩ (.int rfl (by decide) (by decide))
      (.binary (by simp) ⟨rfl, rfl⟩ (.int rfl (by decide) (by decide))
        (.int rfl (by decide) (by decide)))
  · exact .negate ⟨rfl, rfl⟩ (.selfCall ⟨rfl, rfl⟩ (by decide) ⟨rfl, rfl⟩ (by simp))

def ladderTokens : List Token :=
  (methodAround "Main" "main" "Object" ladderTree.render).map fun w =>
    ⟨w.kind, w.literal, Position.start⟩

theorem program_reads_rendered_ladderTree :
    (program "ladder.cl" (ladderTokens ++ [⟨.endOfText, [], Position.start⟩])).reports = [] ∧
      ∃ line methodLine body,
        (program "ladder.cl" (ladderTokens ++ [⟨.endOfText, [], Position.start⟩])).classes =
          [⟨line, "Main", none, [.method ⟨methodLine, "main", [], "Object", body⟩],
            "ladder.cl"⟩] ∧
        body.unplaced = ladderTree.unplaced :=
  program_reads_rendered _ _ _ _ ladderTree readable_ladderTree ladderTokens _ (by decide) rfl

end CoolCompiler.Grammar
