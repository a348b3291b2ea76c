import CoolCompiler.Proofs.Grammar.RoundTrip
import CoolCompiler.Proofs.Grammar.Shape
import CoolCompiler.Proofs.Token.Spelt
import CoolCompiler.Syntax.Concrete

/-!
# Reading concrete syntax

The concrete syntax of an expression is read back as that expression where it keeps the parts
together.  Only operations on two expressions are in parentheses, so an assignment, a let or an
operator before its operand may take in what comes after it, and a string may have characters that
are written with escapes of another kind.
-/

namespace CoolCompiler

open List Lexeme Text

namespace Expr

/-- The tightest operators that may come after the text of an expression without becoming part
of it. -/
def slack : Expr → Nat
  | .assign _ _ _ | .letIn _ _ _ => 1
  | .complement _ e => min 3 e.slack
  | .isVoid _ e => min 7 e.slack
  | .negate _ e => min 8 e.slack
  | _ => 10

def grip : Expr → Rung
  | .assign _ _ _ => .assign
  | _ => .highest

theorem grip_of_slack {e : Expr} (h : 1 < e.slack) : e.grip = .highest := by
  cases e with
  | assign => exact absurd h (Nat.lt_irrefl 1)
  | _ => rfl

/-- An expression of which the text keeps the parts together where it begins. -/
def Legible : Expr → Prop
  | .string _ s => (chars s).all isLegible = true
  | .dispatch _ e _ _ _ => e.slack = 10
  | .binary _ op l r => op.rung.height ≤ l.slack ∧ r.grip = .highest
  | .negate _ e | .complement _ e | .isVoid _ e => e.grip = .highest
  | _ => True

abbrev blank (_ : Mark) : Mark := ⟨[], 0, []⟩

/-- An expression without the lines and literals of its tokens. -/
def unmarked (e : Expr) : Expr := e.remarked blank

end Expr

theorem Token.IsLexed.respelt {t : Token} {kind : Token.Kind} (h : t.IsLexed)
    (hkind : t.kind = kind) : Respelt t.literal kind := hkind ▸ Lexed.respelt h

namespace Grammar

open CoolCompiler.Expr

theorem digitsValue_decimal (n : Nat) : digitsValue (decimal n) = n := by
  rw [decimal_eq]
  exact digitsValue_ofChars (digitsValue?_toDigits n)

/-- An expression that is read back from its text. -/
def Echoed (e : Expr) : Prop :=
  ∃ ws, Spelt isStar isTied e.concrete ws ∧ Reads blank e e.grip e.slack ws

theorem Echoed.of {e : Expr} {ws vs : List Spelling} (hs : Spelt isStar isTied e.concrete ws)
    (hr : Reads blank e e.grip e.slack vs)
    (h : ws = vs := by simp only [append_assoc, cons_append, nil_append] <;> rfl) : Echoed e :=
  ⟨vs, h ▸ hs, hr⟩

theorem marks_blank (literal : Text) {m : Mark} : Marks blank literal m := fun _ => rfl

/-!
# Lists
-/

section Lists

variable {e : Expr} {es : List Expr} {b : Declared Expr} {bs : List (Declared Expr)}
  {texts : List Text} {wss : List (List Spelling)}

theorem spelt_join (h : Forall₂ (Spelt isStar isTied) texts wss) :
    Spelt isStar isTied (join ", " texts) (commaSeparated wss) := by
  have hcomma : Spelt isTied isStar ", " [⟨.comma, ","⟩] :=
    (spelt_mark ',' rfl).append spelt_space.loose
  induction h with
  | nil => exact spelt_nil fun _ => Ends.loose
  | cons h hall ih =>
    cases hall with
    | nil => exact h
    | cons => simpa [join, commaSeparated_cons] using (h.append hcomma).append ih

theorem spelt_items (h : Forall₂ (Spelt isStar isTied) texts wss) :
    Spelt isStar isStar (join " " (texts.map (· ++ ";")))
      (wss.flatMap (· ++ [⟨.semicolon, ";"⟩])) := by
  have hend : Spelt isTied isStar ";" [⟨.semicolon, ";"⟩] := spelt_mark ';' rfl
  induction h with
  | nil => exact spelt_nil fun _ => id
  | cons h hall ih =>
    cases hall with
    | nil => simpa [join] using h.append hend
    | cons => simpa [join] using ((h.append hend).append spelt_space.loose).append ih

theorem echoed_all (h : ∀ e ∈ es, Echoed e) : ∃ wss,
    Forall₂ (Spelt isStar isTied) (concretes es) wss ∧ ClosedAll blank es wss := by
  induction es with
  | nil => exact ⟨[], .nil, .nil⟩
  | cons e es ih =>
    rw [forall_mem_cons] at h
    obtain ⟨ws, hs, hr⟩ := h.1
    obtain ⟨wss, hss, hrs⟩ := ih h.2
    exact ⟨ws :: wss, .cons hs hss, .cons hr.closed hrs⟩

/-- A declared name and type that are read back. -/
structure Named (b : Declared Expr) : Prop where
  name : Spelt isStar isTied b.name [⟨.objectName, b.name⟩]
  type : Spelt isStar isTied b.type [⟨.typeName, b.type⟩]

theorem Named.spelt (h : Named b) :
    Spelt isStar isTied (b.name ++ " : " ++ b.type) (declares b []) :=
  (h.name.append (spelt_space.append ((spelt_mark ':' rfl).loose.append
    spelt_space.loose))).append h.type

theorem spelt_assign : Spelt isTied isStar " <- " [⟨.assign, "<-"⟩] :=
  spelt_symbol (w := ['<', '-']) (by decide)

theorem concreteBindings_given (hgiven : b.value.isOmitted = false) (hshaped : b.value.Shaped) :
    concreteBindings (b :: bs) =
      (b.name ++ " : " ++ b.type ++ " <- " ++ concrete b.value) :: concreteBindings bs := by
  obtain ⟨line, x, type, e⟩ := b
  cases e with
  | absent => cases hshaped
  | omitted => cases hgiven
  | _ => rw [concreteBindings] <;> simp

theorem echoed_bindings (h : ∀ b ∈ bs, Named b ∧
      (b.value.isOmitted = true ∨ b.value.Shaped ∧ Echoed b.value)) :
    ∃ wss, Forall₂ (Spelt isStar isTied) (concreteBindings bs) wss ∧
      Forall₂ (BindingWords blank) bs wss := by
  induction bs with
  | nil => exact ⟨[], .nil, .nil⟩
  | cons b bs ih =>
    rw [forall_mem_cons] at h
    obtain ⟨⟨hnamed, hvalue⟩, hall⟩ := h
    obtain ⟨wss, hss, hrs⟩ := ih hall
    cases homitted : b.value.isOmitted with
    | true =>
      obtain ⟨line, x, type, e⟩ := b
      cases e with
      | omitted =>
        exact ⟨_ :: wss, .cons hnamed.spelt hss, .cons ⟨_, rfl, .omitted fun _ => rfl⟩ hrs⟩
      | _ => cases homitted
    | false =>
      rw [homitted] at hvalue
      obtain ⟨hshaped, ws, hs, hr⟩ := hvalue.resolve_left Bool.false_ne_true
      rw [concreteBindings_given homitted hshaped]
      exact ⟨_ :: wss, .cons ((hnamed.spelt.append spelt_assign).append hs) hss,
        .cons ⟨_, rfl, .given hr.closed⟩ hrs⟩

theorem echoed_branches (h : ∀ b ∈ bs, Named b ∧ Echoed b.value) :
    ∃ wss, Spelt isTied isTied (concreteBranches bs) (wss.flatMap (· ++ [⟨.semicolon, ";"⟩])) ∧
      Forall₂ (BranchWords blank) bs wss := by
  have harrow : Spelt isTied isStar " => " [⟨.arrow, "=>"⟩] :=
    spelt_symbol (w := ['=', '>']) (by decide)
  have hend : Spelt isTied isStar ";" [⟨.semicolon, ";"⟩] := spelt_mark ';' rfl
  induction bs with
  | nil => exact ⟨[], spelt_nil fun _ => id, .nil⟩
  | cons b bs ih =>
    rw [forall_mem_cons] at h
    obtain ⟨⟨hnamed, ws, hs, hr⟩, hall⟩ := h
    obtain ⟨wss, hss, hrs⟩ := ih hall
    refine ⟨_ :: wss, ?_, .cons ⟨ws, rfl, hr.closed⟩ hrs⟩
    have htext := ((((spelt_space.append hnamed.spelt).append harrow).append hs).append hend).append
      hss.loose
    simpa [concreteBranches, declares] using htext

end Lists

/-!
# Every expression that is read
-/

/-- An initialiser that is left out or can be read back. -/
def Optional (e : Expr) : Prop := e.isOmitted = true ∨ e.Shaped ∧ (e.Everywhere Legible → Echoed e)

def Phrase.Echoes : Phrase → Prop
  | .expr e => e.Everywhere Legible → Echoed e
  | .arguments es | .items es => ∀ e ∈ es, e.Everywhere Legible → Echoed e
  | .initialiser _ e => Optional e
  | .bindings bs => ∀ b ∈ bs, Named b ∧ Optional b.value
  | .branches bs => ∀ b ∈ bs, Named b ∧ (b.value.Everywhere Legible → Echoed b.value)
  | .feature f => Optional f.expr
  | .features fs => ∀ f ∈ fs, Optional f.expr
  | .classDecl c => ∀ f ∈ c.features, Optional f.expr
  | .program _ cs => ∀ c ∈ cs, ∀ f ∈ c.features, Optional f.expr
  | .formals _ | .parent _ => True

theorem Derives.shaped {e : Expr} {ts : List Token} (h : Derives (.expr e) ts)
    (hts : ∀ t ∈ ts, t.IsLexed) : e.Shaped := (everywhere_iff.mp (h.formed hts).2).1.shaped

theorem spelt_operator {op : Operator} (hop : ∀ symbol, op ≠ .other symbol) :
    Spelt isTied isStar (" " ++ op.symbol ++ " ") [⟨op.kind, op.symbol⟩] := by
  have hsymbol : ofChars (chars op.symbol) = op.symbol ∧
      (op.kind, chars op.symbol) ∈ symbols := by
    cases op with
    | other symbol => exact absurd rfl (hop symbol)
    | _ => decide +kernel
  have hspelt := spelt_symbol hsymbol.2
  rwa [hsymbol.1] at hspelt

theorem echoed_bool (m : Mark) (b : Bool) : Echoed (.bool m b) := by
  cases b with
  | true =>
    have hread : Reads blank (.bool m (("true" : Text) == "true")) .highest 10 _ :=
      reads_bool fun _ => rfl
    exact ⟨_, spelt_ascii (c := 't') (w := "rue".toList) (by decide) (by decide) (by decide),
      hread⟩
  | false =>
    have hread : Reads blank (.bool m (("false" : Text) == "true")) .highest 10 _ :=
      reads_bool fun _ => rfl
    exact ⟨_, spelt_ascii (c := 'f') (w := "alse".toList) (by decide) (by decide) (by decide),
      hread⟩

section Calls

variable {m : Mark} {e : Expr} {f type : Name} {es : List Expr} {text : Text} {ws : List Spelling}
  {texts : List Text} {wss : List (List Spelling)}
  (hf : Spelt isStar isTied f [⟨.objectName, f⟩])
include hf

theorem spelt_arguments (h : Spelt isStar isStar text ws)
    (hall : Forall₂ (Spelt isStar isTied) texts wss) :
    Spelt isStar isTied (text ++ f ++ "(" ++ join ", " texts ++ ")")
      (ws ++ [⟨.objectName, f⟩] ++ [⟨.openParen, "("⟩] ++ commaSeparated wss ++
        [⟨.closeParen, ")"⟩]) :=
  (((h.append hf).append (spelt_mark '(' rfl)).append (spelt_join hall)).append
    (spelt_mark ')' rfl).tight

variable (he : Echoed e) (hslack : e.slack = 10) (hes : ∀ a ∈ es, Echoed a)
include he hslack hes

theorem echoed_call : Echoed (.dispatch m e none f es) := by
  obtain ⟨ws, hs, hr⟩ := he
  obtain ⟨wss, hss, hrs⟩ := echoed_all hes
  rw [grip_of_slack (by omega), hslack] at hr
  exact .of (spelt_arguments hf (hs.append (spelt_mark '.' rfl)) hss)
    (reads_call (marks_blank ".") hrs hr (by decide) (by decide))

theorem echoed_staticCall (htype : Spelt isStar isTied type [⟨.typeName, type⟩]) :
    Echoed (.dispatch m e (some type) f es) := by
  obtain ⟨ws, hs, hr⟩ := he
  obtain ⟨wss, hss, hrs⟩ := echoed_all hes
  rw [grip_of_slack (by omega), hslack] at hr
  exact .of (spelt_arguments hf (((hs.append (spelt_mark '@' rfl)).append htype).append
    (spelt_mark '.' rfl)) hss) (reads_staticCall (marks_blank "@") hrs hr (by decide) (by decide))

end Calls

/-- A name may be in parentheses, also where it is assigned to. -/
theorem Derives.spelt_object {m : Mark} {x : Name} {ts : List Token}
    (h : Derives (.expr (.object m x)) ts) (hts : ∀ t ∈ ts, t.IsLexed) :
    Spelt isStar isTied x [⟨.objectName, x⟩] := by
  generalize hphrase : Phrase.expr (.object m x) = phrase at h
  induction h with
  | object ht =>
    cases hphrase
    exact (forall_mem_singleton.mp hts).respelt ht
  | paren _ _ _ ih =>
    simp only [forall_mem_cons, forall_mem_append] at hts
    exact ih hts.2.1 hphrase
  | _ => cases hphrase

theorem Derives.echoes {phrase : Phrase} {ts : List Token} (h : Derives phrase ts)
    (hts : ∀ t ∈ ts, t.IsLexed) : phrase.Echoes := by
  induction h with
    try simp only [forall_mem_cons, forall_mem_append, not_mem_nil, false_implies, implies_true,
      and_true] at hts
  | @int t ht =>
    have hread : Reads blank (.int (markOf t)
        (digitsValue (decimal (digitsValue t.literal)))) .highest 10 _ := reads_int fun _ => rfl
    rw [digitsValue_decimal] at hread
    exact fun _ => ⟨_, spelt_decimal (hts.spelled ht), hread⟩
  | @string t ht =>
    intro h
    obtain ⟨value, hvalue, hlength⟩ := hts.respelt ht
    have hlegible := (everywhere_iff.mp h).1
    rw [hvalue] at hlength ⊢
    rw [Legible, hvalue, chars_ofChars, all_eq_true] at hlegible
    exact ⟨_, spelt_quoted hlegible hlength, reads_string fun _ => rfl⟩
  | bool => exact fun _ => echoed_bool _ _
  | object ht => exact fun _ => ⟨_, hts.respelt ht, reads_object fun _ => rfl⟩
  | paren _ _ _ ih => exact ih hts.2.1
  | new _ hc =>
    exact fun _ => ⟨_, (spelt_before "new" rfl).append (hts.2.respelt hc),
      reads_new (marks_blank "new")⟩
  | assign hname _ _ _ ih =>
    intro h
    obtain ⟨ws, hs, hr⟩ := ih hts.2.2 h.part
    exact ⟨_, ((hname.spelt_object hts.1).append spelt_assign).append hs,
      reads_assign (fun _ => rfl) (fun _ => rfl) hr⟩
  | @selfCall t _ _ _ ht _ _ ih =>
    intro h
    have hself : Echoed (.object (markOf t) Name.self) :=
      ⟨_, spelt_ascii (c := 's') (w := "elf".toList) (by decide) (by decide) (by decide),
        reads_object fun _ => rfl⟩
    exact echoed_call (hts.1.respelt ht) hself rfl fun a ha =>
      ih hts.2.2 a ha (h.part (mem_append_left _ ha))
  | call _ _ hf _ _ ihreceiver ih =>
    intro h
    have hslack := (everywhere_iff.mp h).1
    obtain ⟨hreceiver, _, hmethod, _, hargs⟩ := hts
    exact echoed_call (hmethod.respelt hf)
      (ihreceiver hreceiver h.part) hslack
      fun a ha => ih hargs a ha (h.part (mem_append_left _ ha))
  | staticCall _ _ hc _ hf _ _ ihreceiver ih =>
    intro h
    have hslack := (everywhere_iff.mp h).1
    obtain ⟨hreceiver, _, htarget, _, hmethod, _, hargs⟩ := hts
    exact echoed_staticCall (hmethod.respelt hf)
      (ihreceiver hreceiver h.part) hslack
      (fun a ha => ih hargs a ha (h.part (mem_append_left _ ha))) (htarget.respelt hc)
  | @binary t op l r _ _ _ hop _ ihleft ihright =>
    intro h
    obtain ⟨hslack, hgrip⟩ := (everywhere_iff.mp h).1
    obtain ⟨us, hl, hlr⟩ := ihleft hts.1 h.part
    obtain ⟨vs, hr, hrr⟩ := ihright hts.2.2 h.part
    have hknown := known_of_ofKind hop
    have hheight : 1 < op.rung.height ∧ op.rung.height < 10 := by
      cases op with
      | other symbol => exact absurd rfl (hknown symbol)
      | _ => decide
    rw [grip_of_slack (Nat.lt_of_lt_of_le hheight.1 hslack)] at hlr
    rw [hgrip] at hrr
    have htext := ((((spelt_mark '(' rfl).loose.append hl).append (spelt_operator hknown)).append
      hr).append (spelt_mark ')' rfl).tight
    rw [← append_assoc, ← append_assoc] at htext
    exact .of htext (reads_paren (reads_binary (marks_blank op.symbol) hknown hlr
      ⟨Nat.le_of_lt hheight.2, hslack⟩ hrr hheight.2).closed)
  | negate _ _ ih | complement _ _ ih | isVoid _ _ ih =>
    intro h
    have hgrip := (everywhere_iff.mp h).1
    obtain ⟨ws, hs, hr⟩ := ih hts.2 h.part
    rw [hgrip] at hr
    first
    | exact .of ((spelt_mark '~' rfl).loose.append hs)
        (reads_negate (marks_blank "~") hr (by decide))
    | exact .of ((spelt_before "not" rfl).append hs)
        (reads_complement (marks_blank "not") hr (by decide))
    | exact .of ((spelt_before "isvoid" rfl).append hs)
        (reads_isVoid (marks_blank "isvoid") hr (by decide))
  | cond _ _ _ _ _ _ _ ihtest ihthen ihelse =>
    intro h
    obtain ⟨_, htest, _, hthen, _, helse, _⟩ := hts
    obtain ⟨cs, hc, hcr⟩ := ihtest htest h.part
    obtain ⟨us, ht, htr⟩ := ihthen hthen h.part
    obtain ⟨vs, hf, hfr⟩ := ihelse helse h.part
    exact .of (((((((spelt_before "if" rfl).append hc).append (spelt_within "then" rfl)).append
        ht).append (spelt_within "else" rfl)).append hf).append (spelt_after "fi" rfl))
      (reads_cond (marks_blank "if") hcr.closed htr.closed hfr.closed)
  | loop _ _ _ _ _ ihtest ihbody =>
    intro h
    obtain ⟨cs, hc, hcr⟩ := ihtest hts.2.1 h.part
    obtain ⟨vs, hb, hbr⟩ := ihbody hts.2.2.2.1 h.part
    exact .of (((((spelt_before "while" rfl).append hc).append (spelt_within "loop" rfl)).append
        hb).append (spelt_after "pool" rfl))
        (reads_loop (marks_blank "while") hcr.closed hbr.closed)
  | block _ _ hne ih =>
    intro h
    obtain ⟨wss, hss, hrs⟩ := echoed_all fun a ha => ih hts.2 a ha (h.part ha)
    exact .of ((((spelt_mark '\x7b' rfl).loose.append spelt_space.loose).append
        (spelt_items hss)).append (spelt_space.loose.append (spelt_mark '\x7d' rfl).loose.tight))
      (reads_block (marks_blank "\x7b") hne hrs)
  | @letIn _ _ bs _ _ _ _ hderives _ _ ihbindings ihbody =>
    intro h
    obtain ⟨vs, hs, hr⟩ := ihbody hts.2.2.2 h.part
    obtain ⟨wss, hss, hrs⟩ := echoed_bindings fun b hb => (ihbindings hts.2.1 b hb).imp_right <|
      Or.imp_right <| And.imp_right fun hecho =>
        hecho (h.part (mem_append_left _ (mem_map_of_mem hb)))
    cases hrs with
    | nil => exact absurd rfl (hderives.formed hts.2.1).1
    | cons hb hbs =>
      exact .of ((((spelt_before "let" rfl).append (spelt_join hss)).append
        (spelt_within "in" rfl)).append hs) (reads_letIn (marks_blank "let") hb hbs hr)
  | typeCase _ _ _ _ hne ihscrutinee ihbranches =>
    intro h
    obtain ⟨vs, hs, hr⟩ := ihscrutinee hts.2.1 h.part
    obtain ⟨wss, hss, hrs⟩ := echoed_branches fun b hb => (ihbranches hts.2.2.2 b hb).imp_right
      fun hecho => hecho (h.part (mem_cons_of_mem _ (mem_map_of_mem hb)))
    exact .of (((((spelt_before "case" rfl).append hs).append (spelt_after "of" rfl)).append
        hss).append (spelt_after "esac" rfl))
        (reads_typeCase (marks_blank "case") hr.closed hne hrs)
  | noArgument | noItem | noBranch | noFeature | noClass => exact forall_mem_nil _
  | lastArgument _ _ ih => exact forall_mem_singleton.mpr (ih hts.1)
  | argument _ _ _ ih ihrest | item _ _ _ ih ihrest | features _ _ _ ih ihrest
  | classes _ _ _ _ ih ihrest => exact forall_mem_cons.mpr ⟨ih hts.1, ihrest hts.2.2⟩
  | lastBinding hx _ ht _ ih =>
    exact forall_mem_singleton.mpr ⟨⟨hts.1.respelt hx, hts.2.2.1.respelt ht⟩, ih hts.2.2.2⟩
  | binding hx _ ht _ _ _ ih ihrest =>
    obtain ⟨hname, _, htype, hinit, _, hrest⟩ := hts
    exact forall_mem_cons.mpr ⟨⟨⟨hname.respelt hx, htype.respelt ht⟩, ih hinit⟩, ihrest hrest⟩
  | branch hx _ ht _ _ _ _ ih ihrest =>
    obtain ⟨hname, _, htype, _, hvalue, _, hrest⟩ := hts
    exact forall_mem_cons.mpr ⟨⟨⟨hname.respelt hx, htype.respelt ht⟩, ih hvalue⟩, ihrest hrest⟩
  | omitted => exact .inl rfl
  | given _ hvalue ih => exact .inr ⟨hvalue.shaped hts.2, ih hts.2⟩
  | method _ _ _ _ _ _ hbody _ _ ih =>
    obtain ⟨_, _, _, _, _, _, htokens, _⟩ := hts
    exact .inr ⟨hbody.shaped htokens, ih htokens⟩
  | «attribute» _ _ _ _ ih => exact ih hts.2.2.2
  | classDecl _ _ _ _ _ _ ih =>
    obtain ⟨_, _, _, _, hfeatures⟩ := hts
    exact ih hfeatures
  | _ => trivial

/-- A class with one method, around the text of the method's body. -/
def methodText (body : Text) : Text := "class Main\x7bmain():Object\x7b" ++ body ++ "\x7d;\x7d;"

theorem spelt_methodText {text : Text} {ws : List Spelling} (h : Spelt isStar isTied text ws) :
    Spelt isStar isTied (methodText text) (methodAround "Main" "main" "Object" ws) := by
  have hmain : Spelt isStar isTied "Main" [⟨.typeName, "Main"⟩] :=
    spelt_ascii (c := 'M') (w := "ain".toList) (by decide) (by decide) (by decide)
  have hmethod : Spelt isStar isTied "main" [⟨.objectName, "main"⟩] :=
    spelt_ascii (c := 'm') (w := "ain".toList) (by decide) (by decide) (by decide)
  have hobject : Spelt isStar isTied "Object" [⟨.typeName, "Object"⟩] :=
    spelt_ascii (c := 'O') (w := "bject".toList) (by decide) (by decide) (by decide)
  have hfront := (spelt_before "class" rfl).append <| hmain.append <|
    (spelt_mark '\x7b' rfl).append <|
    hmethod.append <| (spelt_mark '(' rfl).append <| (spelt_mark ')' rfl).loose.append <|
    (spelt_mark ':' rfl).loose.append <| hobject.append (spelt_mark '\x7b' rfl)
  have hend : Spelt isTied isStar ";" [⟨.semicolon, ";"⟩] := spelt_mark ';' rfl
  have hback := (spelt_mark '\x7d' rfl).append <| hend.loose.append <|
    (spelt_mark '\x7d' rfl).loose.append hend.loose.tight
  rw [methodAround, ← append_assoc]
  exact (hfront.append h).append hback

/-- An expression that is read in some source and of which the concrete syntax keeps the parts
together is read back from it as the body of a method, without a report and apart from lines and
literals. -/
theorem parse_concrete (file source : Text) (c : Class) (hc : c ∈ (parse file source).classes)
    (f : Feature) (hf : f ∈ c.features) (hgiven : f.expr.isOmitted = false)
    (hlegible : f.expr.Everywhere Legible) :
    (parse file (methodText f.expr.concrete)).reports = [] ∧
      ∃ line methodLine body, (parse file (methodText f.expr.concrete)).classes =
          [⟨line, "Main", none, [.method ⟨methodLine, "main", [], "Object", body⟩], file⟩] ∧
        body.unmarked = f.expr.unmarked := by
  obtain ⟨ts, hts, hderives⟩ := derives_of_mem_parse hc
  have hoptional := hderives.echoes hts c (mem_singleton_self c) f hf
  rw [Optional, hgiven] at hoptional
  obtain ⟨_, hecho⟩ := hoptional.resolve_left Bool.false_ne_true
  obtain ⟨ws, hs, hr⟩ := hecho hlegible
  obtain ⟨cs, htext, hnul, hreads⟩ := spelt_methodText hs
  have hscan := Token.scan_of_reads (hreads [] fun _ h => absurd h (Option.not_mem_none _)).2 hnul
  obtain ⟨front, tail, htokens, hfront, htail⟩ := map_eq_append_iff.mp hscan
  obtain ⟨last, rfl, hlast⟩ := map_eq_singleton_iff.mp htail
  rw [parse, htext, htokens]
  exact program_of_closed hr.closed hfront (congrArg Spelling.kind hlast)

def echoSource : Text := "class A \x7b f(x : Int) : Int \x7b ~(x) + \"a\\nb\".length() \x7d; \x7d;"

def echoMethod : Feature :=
  .method ⟨1, "f", [⟨1, "x", "Int"⟩], "Int", .binary ⟨"+", 1, []⟩ .add
    (.negate ⟨"~", 1, []⟩ (.object ⟨"x", 1, []⟩ "x"))
    (.dispatch ⟨".", 1, []⟩ (.string ⟨"a\nb", 1, []⟩ "a\nb") none "length" [])⟩

theorem parse_concrete_echoMethod : echoMethod.expr.concrete = "(~x + \"a\\nb\".length())" ∧
    (parse "echo.cl" (methodText echoMethod.expr.concrete)).reports = [] ∧
      ∃ line methodLine body, (parse "echo.cl" (methodText echoMethod.expr.concrete)).classes =
          [⟨line, "Main", none, [.method ⟨methodLine, "main", [], "Object", body⟩], "echo.cl"⟩] ∧
        body.unmarked = echoMethod.expr.unmarked := by
  have hclasses : (parse "echo.cl" echoSource).classes =
      [⟨1, "A", none, [echoMethod], "echo.cl"⟩] := by with_unfolding_all rfl
  have hname : Everywhere Legible (.negate ⟨"~", 1, []⟩ (.object ⟨"x", 1, []⟩ "x")) :=
    .intro rfl (forall_mem_singleton.mpr (.intro trivial (forall_mem_nil _)))
  have hstring : Everywhere Legible (.string ⟨"a\nb", 1, []⟩ "a\nb") :=
    .intro (show (Text.chars "a\nb").all isLegible = true by decide +kernel) (forall_mem_nil _)
  have hlegible : echoMethod.expr.Everywhere Legible := .intro ⟨by decide, rfl⟩
    (forall_mem_cons.mpr ⟨hname, forall_mem_singleton.mpr
      (.intro rfl (forall_mem_singleton.mpr hstring))⟩)
  exact ⟨by decide +kernel, parse_concrete "echo.cl" echoSource _ (hclasses ▸ mem_singleton_self _)
    echoMethod (mem_singleton_self _) rfl hlegible⟩

/-- An assignment that is negated is written without parentheses, and cannot be read again. -/
theorem negated_assignment_unread :
    ∃ c ∈ (parse "main.cl" (methodText "~(x <- 1)")).classes, ∃ f ∈ c.features,
      f.expr.concrete = "~x <- 1" ∧
      (parse "main.cl" (methodText f.expr.concrete)).reports ≠ [] := by
  have hcheck : ((parse "main.cl" (methodText "~(x <- 1)")).classes.any fun c => c.features.any
      fun f => f.expr.concrete == ("~x <- 1" : Text) &&
        !(parse "main.cl" (methodText f.expr.concrete)).reports.isEmpty) = true := by decide +kernel
  simpa only [any_eq_true, Bool.and_eq_true, beq_iff_eq, Bool.not_eq_true', isEmpty_eq_false_iff]
    using hcheck

end Grammar
end CoolCompiler
