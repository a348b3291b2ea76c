import CoolCompiler.Proofs.Grammar.Derivation
import CoolCompiler.Proofs.Syntax.Induction

/-!
# Shape of what is read

The classes that are read from a source, whatever is reported, have capital names without a dot.
Their expressions have no gaps: no part is absent, blocks, lets and cases are not empty, and only
initialisers are left out.  Names, constants and operators are those that a text can spell.
-/

namespace CoolCompiler

open List

/-- A name that begins with a capital and has no dot. -/
structure Name.Capital (x : Name) : Prop where
  upper : Lexeme.isUpperByte (x.headD 0) = true
  undotted : 46 ∉ x

namespace Lexeme

theorem toNat_of_mem_utf8EncodeChar {c : Char} {b : UInt8} (hb : b.toNat < 128)
    (h : b ∈ String.utf8EncodeChar c) : c.toNat = b.toNat := by
  have hbyte : ∀ {n : Nat}, b = UInt8.ofNat n → b.toNat = n % 256 := by
    rintro n rfl
    simp
  have hval : c.toNat = c.val.toNat := rfl
  -- one byte is the character itself, and of several each is at least 128
  unfold String.utf8EncodeChar at h
  simp only at h
  split at h
  · have heq := hbyte (mem_singleton.mp h)
    omega
  · split at h
    · simp only [mem_cons, not_mem_nil, or_false] at h
      rcases h with h | h
      all_goals
        have heq := hbyte h
        omega
    · split at h
      · simp only [mem_cons, not_mem_nil, or_false] at h
        rcases h with h | h | h
        all_goals
          have heq := hbyte h
          omega
      · simp only [mem_cons, not_mem_nil, or_false] at h
        rcases h with h | h | h | h
        all_goals
          have heq := hbyte h
          omega

theorem undotted_of_wordParts {word : List Char} (h : ∀ c ∈ word, isWordPart c = true) :
    46 ∉ Text.ofChars word := by
  intro hdot
  obtain ⟨c, hc, hbyte⟩ := mem_flatMap.mp hdot
  have hpart := h c hc
  have hdot : c = '.' := Char.toNat_inj.mp (toNat_of_mem_utf8EncodeChar (by decide) hbyte)
  rw [hdot] at hpart
  exact absurd hpart (by decide +kernel)

theorem digitsValue_ofChars {digits : List Char} {n : Nat} (h : digitsValue? digits = some n) :
    Grammar.digitsValue (Text.ofChars digits) = n := by
  unfold digitsValue? at h
  unfold Grammar.digitsValue
  generalize 0 = start at h ⊢
  induction digits generalizing start with
  | nil => exact Option.some.inj h
  | cons c digits ih =>
    rw [foldlM_cons] at h
    split at h
    · rename_i hdigit
      have hbytes : String.utf8EncodeChar c = [UInt8.ofNat c.toNat] := by
        unfold String.utf8EncodeChar
        simp only
        exact if_pos (Nat.le_trans hdigit.2 (by decide))
      rw [Text.ofChars, flatMap_cons, hbytes, singleton_append, foldl_cons]
      have hbyte : (UInt8.ofNat c.toNat).toNat = c.toNat := by
        simp only [UInt8.toNat_ofNat']
        omega
      rw [hbyte]
      exact ih _ h
    · cases h

/-- What the kind of a token says about its spelling. -/
def Spelled : Token.Kind → Text → Prop
  | .typeName, x => Name.Capital x
  | .objectName, x => x ≠ []
  | .int, x => Grammar.digitsValue x ≤ 32767
  | .string, x => x.length ≤ 1024 ∧ 0 ∉ x
  | _, _ => True

theorem Lexed.spelled {kind : Token.Kind} {literal : Text} (h : Lexed kind literal) :
    Spelled kind literal := by
  cases h with
  | typeName hc hparts _ hupper =>
    refine ⟨hupper, undotted_of_wordParts (forall_mem_cons.mpr ⟨?_, hparts⟩)⟩
    simp [isWordPart, hc.letter]
  | objectName => exact append_ne_nil_of_left_ne_nil String.utf8EncodeChar_ne_nil _
  | int hvalue hle => exact Nat.le_trans (Nat.le_of_eq (digitsValue_ofChars hvalue)) hle
  | string hlength hvalue =>
    refine ⟨hlength, fun hzero => ?_⟩
    obtain ⟨c, hc, hbyte⟩ := mem_flatMap.mp hzero
    exact hvalue c hc (toNat_of_mem_utf8EncodeChar (by decide) hbyte)
  | keyword hmem =>
    have hall : ∀ entry ∈ keywords, ∀ x, Spelled entry.2 x := by simp [keywords, Spelled]
    exact hall _ hmem _
  | mark hmem =>
    have hall : ∀ entry ∈ symbols, ∀ x, Spelled entry.1 x := by simp [symbols, Spelled]
    exact hall _ hmem _
  | bool => trivial

end Lexeme

theorem Token.IsLexed.spelled {t : Token} {kind : Token.Kind} (h : t.IsLexed)
    (hkind : t.kind = kind) : Lexeme.Spelled kind t.literal := hkind ▸ Lexeme.Lexed.spelled h

/-!
# Expressions without gaps
-/

/-- An expression with no gap where it begins. -/
def Expr.Shaped : Expr → Prop
  | .absent => False
  | .block _ es => es ≠ []
  | .letIn _ bs _ => bs ≠ []
  | .typeCase _ _ bs => bs ≠ []
  | _ => True

def Expr.Complete (e : Expr) : Prop := Expr.Everywhere Expr.Shaped e

theorem Expr.complete_iff {e : Expr} :
    e.Complete ↔ e.Shaped ∧ ∀ a ∈ e.parts, a.Complete := Expr.everywhere_iff

theorem Expr.Complete.casesFilled {e : Expr} (h : e.Complete) : e.CasesFilled := by
  induction h with
  | @intro e here inside ih =>
    refine .intro ?_ ih
    cases e with
    | typeCase m e bs => exact here
    | _ => trivial

/-- A name and the type that it is declared with. -/
structure Name.Declares (x type : Name) : Prop where
  name : x ≠ []
  type : type.Capital

namespace Expr

/-- The words of an expression where it begins: its names and types, its constant or its
operator. -/
def Worded : Expr → Prop
  | .int _ n => 0 ≤ n ∧ n ≤ 32767
  | .string _ s => s.length ≤ 1024 ∧ 0 ∉ s
  | .object _ x => x ≠ []
  | .assign _ x _ => x.name ≠ []
  | .dispatch _ _ target method _ => method ≠ [] ∧ ∀ type ∈ target, Name.Capital type
  | .binary _ op _ _ => ∀ symbol, op ≠ .other symbol
  | .new _ type => type.Capital
  | .letIn _ bs _ | .typeCase _ _ bs => ∀ b ∈ bs, b.name.Declares b.type
  | _ => True

/-- An expression with no gap where it begins, and with all the parts that it must have. -/
structure Formed (e : Expr) : Prop where
  shaped : e.Shaped
  given : ∀ b ∈ e.required, b.isOmitted = false
  worded : e.Worded

/-- An expression formed throughout that is not itself left out. -/
def Present (e : Expr) : Prop := e.isOmitted = false ∧ e.Everywhere Formed

theorem formed_of_parts {e : Expr} (hshaped : e.Shaped) (hworded : e.Worded) (hall : e.optional = 0)
    (h : ∀ a ∈ e.parts, a.Present) : e.Everywhere Formed := by
  refine .intro ⟨hshaped, ?_, hworded⟩ fun a ha => (h a ha).2
  rw [required, hall]
  exact fun a ha => (h a ha).1

theorem Present.worded {e : Expr} (h : e.Present) : e.Worded := (everywhere_iff.mp h.2).1.worded

end Expr

/-- A method has a body, and an attribute may be without an initialiser. -/
def Feature.Formed : Feature → Prop
  | .method m => m.name.Declares m.returns ∧ (∀ f ∈ m.formals, f.name.Declares f.type) ∧
      m.body.Present
  | .attr a => a.name.Declares a.type ∧ a.init.Everywhere Expr.Formed

theorem Feature.Formed.expr {f : Feature} (h : f.Formed) : f.expr.Everywhere Expr.Formed := by
  cases f with
  | attr a => exact h.2
  | method m => exact h.2.2.2

/-- A class of which every name is given, every type begins with a capital and every feature is
formed. -/
structure Class.Formed (c : Class) : Prop where
  name : c.name.Capital
  parent : ∀ p ∈ c.parent, Name.Capital p
  features : ∀ f ∈ c.features, f.Formed

namespace Grammar

structure ClassComplete (c : Class) : Prop where
  name : Name.Capital c.name
  features : ∀ f ∈ c.features, f.expr.Complete

def Phrase.Formed : Phrase → Prop
  | .expr e => e.Present
  | .arguments es | .items es => ∀ e ∈ es, e.Present
  | .initialiser _ e => e.Everywhere Expr.Formed
  | .bindings bs => bs ≠ [] ∧ ∀ b ∈ bs, b.name.Declares b.type ∧ b.value.Everywhere Expr.Formed
  | .branches bs => ∀ b ∈ bs, b.name.Declares b.type ∧ b.value.Present
  | .formals fs => ∀ f ∈ fs, f.name.Declares f.type
  | .feature f => f.Formed
  | .features fs => ∀ f ∈ fs, f.Formed
  | .parent name => ∀ p ∈ name, Name.Capital p
  | .classDecl c => c.Formed
  | .program _ cs => ∀ c ∈ cs, c.Formed

theorem known_of_ofKind {kind : Token.Kind} {op : Operator} (h : Operator.ofKind kind = some op)
    (symbol : Text) : op ≠ .other symbol := by
  rintro rfl
  cases kind <;> cases h

/-- What the grammar derives has no gaps, leaves out initialisers only and is spelled as its
tokens are. -/
theorem Derives.formed {phrase : Phrase} {ts : List Token} (h : Derives phrase ts)
    (hts : ∀ t ∈ ts, t.IsLexed) : phrase.Formed := by
  have leaf : ∀ {e : Expr}, e.isOmitted = false → e.Shaped → e.Worded → e.optional = 0 →
      e.parts = [] → e.Present := by
    intro e hgiven hshaped hworded hall hnone
    refine ⟨hgiven, Expr.formed_of_parts hshaped hworded hall ?_⟩
    rw [hnone]
    exact forall_mem_nil _
  induction h with
    try simp only [forall_mem_cons, forall_mem_append, not_mem_nil, false_implies, implies_true,
      and_true] at hts
  | int ht =>
    exact leaf rfl trivial ⟨Int.natCast_nonneg _, Int.ofNat_le.mpr (hts.spelled ht)⟩ rfl rfl
  | string ht | object ht => exact leaf rfl trivial (hts.spelled ht) rfl rfl
  | bool => exact leaf rfl trivial trivial rfl rfl
  | new _ hc => exact leaf rfl trivial (hts.2.spelled hc) rfl rfl
  | paren _ _ _ ih => exact ih hts.2.1
  | assign _ _ _ ihname ih =>
    have hname := (ihname hts.1).worded
    exact ⟨rfl, Expr.formed_of_parts trivial hname rfl (forall_mem_singleton.mpr (ih hts.2.2))⟩
  | negate _ _ ih | complement _ _ ih | isVoid _ _ ih =>
    exact ⟨rfl, Expr.formed_of_parts trivial trivial rfl (forall_mem_singleton.mpr (ih hts.2))⟩
  | selfCall ht _ _ ih =>
    have hmethod := hts.1.spelled ht
    refine ⟨rfl, Expr.formed_of_parts trivial ⟨hmethod, nofun⟩ rfl ?_⟩
    refine forall_mem_append.mpr ⟨ih hts.2.2, forall_mem_singleton.mpr ?_⟩
    exact leaf rfl trivial (show Name.self ≠ [] by decide) rfl rfl
  | call _ _ hf _ _ ihreceiver ih =>
    obtain ⟨hreceiver, _, hmethod, _, hargs⟩ := hts
    refine ⟨rfl, Expr.formed_of_parts trivial ⟨hmethod.spelled hf, nofun⟩ rfl ?_⟩
    exact forall_mem_append.mpr ⟨ih hargs, forall_mem_singleton.mpr (ihreceiver hreceiver)⟩
  | staticCall _ _ hc _ hf _ _ ihreceiver ih =>
    obtain ⟨hreceiver, _, htarget, _, hmethod, _, hargs⟩ := hts
    refine ⟨rfl, Expr.formed_of_parts trivial ⟨hmethod.spelled hf, ?_⟩ rfl ?_⟩
    · rintro _ ⟨⟩
      exact htarget.spelled hc
    · exact forall_mem_append.mpr ⟨ih hargs, forall_mem_singleton.mpr (ihreceiver hreceiver)⟩
  | binary _ hop _ ihleft ihright =>
    refine ⟨rfl, Expr.formed_of_parts trivial (known_of_ofKind hop) rfl ?_⟩
    exact forall_mem_cons.mpr ⟨ihleft hts.1, forall_mem_singleton.mpr (ihright hts.2.2)⟩
  | loop _ _ _ _ _ ihtest ihbody =>
    refine ⟨rfl, Expr.formed_of_parts trivial trivial rfl ?_⟩
    exact forall_mem_cons.mpr ⟨ihtest hts.2.1, forall_mem_singleton.mpr (ihbody hts.2.2.2.1)⟩
  | cond _ _ _ _ _ _ _ ihtest ihthen ihelse =>
    obtain ⟨_, htest, _, hthen, _, helse, _⟩ := hts
    refine ⟨rfl, Expr.formed_of_parts trivial trivial rfl (forall_mem_cons.mpr ⟨ihtest htest, ?_⟩)⟩
    exact forall_mem_cons.mpr ⟨ihthen hthen, forall_mem_singleton.mpr (ihelse helse)⟩
  | block _ _ hne ih => exact ⟨rfl, Expr.formed_of_parts hne trivial rfl (ih hts.2)⟩
  | letIn _ _ _ _ ihbindings ihbody =>
    have hbindings := ihbindings hts.2.1
    have hbody := ihbody hts.2.2.2
    refine ⟨rfl, .intro ⟨hbindings.1, ?_, fun b hb => (hbindings.2 b hb).1⟩ ?_⟩
    · rw [Expr.required_letIn]
      exact forall_mem_singleton.mpr hbody.1
    · refine forall_mem_append.mpr ⟨?_, forall_mem_singleton.mpr hbody.2⟩
      exact forall_mem_map.mpr fun b hb => (hbindings.2 b hb).2
  | typeCase _ _ _ _ hne ihscrutinee ihbranches =>
    have hbranches := ihbranches hts.2.2.2
    refine ⟨rfl, Expr.formed_of_parts hne (fun b hb => (hbranches b hb).1) rfl ?_⟩
    refine forall_mem_cons.mpr ⟨ihscrutinee hts.2.1, ?_⟩
    exact forall_mem_map.mpr fun b hb => (hbranches b hb).2
  | noArgument | noItem | noBranch | noFormal | noFeature | noClass => exact forall_mem_nil _
  | lastArgument _ _ ih => exact forall_mem_singleton.mpr (ih hts.1)
  | argument _ _ _ ih ihrest | item _ _ _ ih ihrest | features _ _ _ ih ihrest
  | classes _ _ _ _ ih ihrest => exact forall_mem_cons.mpr ⟨ih hts.1, ihrest hts.2.2⟩
  | lastBinding hx _ ht _ ih =>
    refine ⟨cons_ne_nil _ _, forall_mem_singleton.mpr ⟨⟨hts.1.spelled hx, ?_⟩, ih hts.2.2.2⟩⟩
    exact hts.2.2.1.spelled ht
  | binding hx _ ht _ _ _ ih ihrest =>
    obtain ⟨hname, _, htype, hinit, _, hrest⟩ := hts
    refine ⟨cons_ne_nil _ _, forall_mem_cons.mpr ⟨⟨⟨hname.spelled hx, ?_⟩, ih hinit⟩, ?_⟩⟩
    · exact htype.spelled ht
    · exact (ihrest hrest).2
  | branch hx _ ht _ _ _ _ ih ihrest =>
    obtain ⟨hname, _, htype, _, hvalue, _, hrest⟩ := hts
    refine forall_mem_cons.mpr ⟨⟨⟨hname.spelled hx, htype.spelled ht⟩, ih hvalue⟩, ihrest hrest⟩
  | omitted => exact Expr.formed_of_parts trivial trivial rfl (forall_mem_nil _)
  | given _ _ ih => exact (ih hts.2).2
  | lastFormal hx _ ht _ =>
    exact forall_mem_singleton.mpr ⟨hts.1.spelled hx, hts.2.2.1.spelled ht⟩
  | formal hx _ ht _ _ ih =>
    exact forall_mem_cons.mpr ⟨⟨hts.1.spelled hx, hts.2.2.1.spelled ht⟩, ih hts.2.2.2.2⟩
  | noParent => exact nofun
  | parent _ ht =>
    rintro _ ⟨⟩
    exact hts.2.spelled ht
  | method hx _ _ _ ht _ _ _ ihformals ih =>
    obtain ⟨hname, _, hformals, _, htype, _, hbody, _⟩ := hts
    exact ⟨⟨hname.spelled hx, htype.spelled ht⟩, ihformals hformals, ih hbody⟩
  | «attribute» hx _ ht _ ih =>
    exact ⟨⟨hts.1.spelled hx, hts.2.2.1.spelled ht⟩, ih hts.2.2.2⟩
  | classDecl _ ht _ _ _ ihparent ihfeatures =>
    obtain ⟨_, hname, hparent, _, hfeatures⟩ := hts
    exact ⟨hname.spelled ht, ihparent hparent, ihfeatures hfeatures⟩

/-- Every class that is read from a source is formed, whatever else the source holds. -/
theorem classes_wellFormed (file source : Text) (c : Class)
    (hc : c ∈ (parse file source).classes) : c.Formed := by
  obtain ⟨ts, hts, hderives⟩ := derives_of_mem_parse hc
  exact hderives.formed hts c (mem_singleton_self c)

def partSource : Text :=
  "class A inherits B \x7b
     s : String <- \"ab\";
     f(x : Int) : Int \x7b let y : Int in x + 32767 \x7d;
   \x7d;
   class C \x7b f("

theorem classes_wellFormed_partSource : (parse "part.cl" partSource).reports ≠ [] ∧
    ∃ c ∈ (parse "part.cl" partSource).classes, c.name = "A" ∧ c.Formed := by
  have hcheck : (!(parse "part.cl" partSource).reports.isEmpty &&
      (parse "part.cl" partSource).classes.any fun c => c.name == "A") = true := by decide +kernel
  rw [Bool.and_eq_true, Bool.not_eq_true', List.isEmpty_eq_false_iff, any_eq_true] at hcheck
  rcases hcheck.2 with ⟨c, hc, hname⟩
  exact ⟨hcheck.1, c, hc, beq_iff_eq.mp hname, classes_wellFormed _ _ c hc⟩

theorem formed_of_sources {sources : List (Text × Text)} {c : Class}
    (hc : c ∈ sources.flatMap fun source => (parse source.1 source.2).classes) : c.Formed := by
  obtain ⟨source, _, hmem⟩ := mem_flatMap.mp hc
  obtain ⟨ts, hts, hderives⟩ := derives_of_mem_parse hmem
  exact hderives.formed hts c (mem_singleton_self c)

theorem complete_of_sources (sources : List (Text × Text)) :
    ∀ c ∈ sources.flatMap fun source => (parse source.1 source.2).classes, ClassComplete c := by
  intro c hc
  have h := formed_of_sources hc
  exact ⟨h.name, fun f hf => (h.features f hf).expr.imp fun _ hformed => hformed.shaped⟩

theorem entire_of_sources {sources : List (Text × Text)} {c : Class}
    (hc : c ∈ sources.flatMap fun source => (parse source.1 source.2).classes) :
    ∀ f ∈ c.features, f.expr.Entire :=
  fun f hf => ((formed_of_sources hc).features f hf).expr.imp fun _ h => h.given

end Grammar

end CoolCompiler
