import CoolCompiler.Proofs.Token.Forms

/-!
# Tokens of a text

Every token of a text but the last, the only end token, is a keyword, a truth value, a name, a
constant or a mark, spelled as its kind asks for, or reports an error.
-/

namespace CoolCompiler

open List

/-- The operator that a token between two expressions stands for. -/
def Operator.ofKind : Token.Kind → Option Operator
  | .plus => some .add
  | .minus => some .sub
  | .times => some .mul
  | .divide => some .div
  | .less => some .less
  | .lessEq => some .lessEq
  | .equal => some .equal
  | _ => none

namespace Lexeme

/-- The kinds and spellings of the tokens that lexemes stand for. -/
inductive Lexed : Token.Kind → Text → Prop where
  | keyword {word : List Char} {kind : Token.Kind} :
      (word.map lowerCase, kind) ∈ keywords → Lexed kind (Text.ofChars word)
  | bool {lowered : List Char} : lowered = "true".toList ∨ lowered = "false".toList →
      Lexed .bool (Text.ofChars lowered)
  | typeName {c : Char} {w : List Char} : WordStart c → (∀ d ∈ w, isWordPart d = true) →
      wordMeaning (c :: w) = .token .typeName (Text.ofChars (c :: w)) →
      isUpperByte ((Text.ofChars (c :: w)).headD 0) = true → Lexed .typeName (Text.ofChars (c :: w))
  | objectName {c : Char} {w : List Char} : WordStart c → (∀ d ∈ w, isWordPart d = true) →
      wordMeaning (c :: w) = .token .objectName (Text.ofChars (c :: w)) →
      Lexed .objectName (Text.ofChars (c :: w))
  | int {digits : List Char} {n : Nat} : digitsValue? digits = some n → n ≤ maxInt →
      Lexed .int (Text.ofChars digits)
  | string {value : List Char} : (Text.ofChars value).length ≤ maxStringLength →
      (∀ c ∈ value, c.toNat ≠ 0) → Lexed .string (Text.ofChars value)
  | mark {kind : Token.Kind} {w : List Char} : (kind, w) ∈ symbols → Lexed kind (Text.ofChars w)

/-!
# One lexeme
-/

variable {kind : Token.Kind} {literal : Text} {c : Char} {cs : List Char}

theorem lexed_wordMeaning (hc : WordStart c) (hcs : ∀ d ∈ cs, isWordPart d = true)
    (h : wordMeaning (c :: cs) = .token kind literal) : Lexed kind literal := by
  have hword := h
  unfold wordMeaning at h
  simp only at h
  split at h
  · rename_i found hlookup
    cases h
    rw [lookup_eq_some_iff] at hlookup
    obtain ⟨before, after, heq, _⟩ := hlookup
    exact .keyword (by rw [heq]; simp)
  · split at h
    · rename_i hbool
      cases h
      rw [Bool.and_eq_true, Bool.or_eq_true, beq_iff_eq, beq_iff_eq] at hbool
      exact .bool hbool.1
    · split at h
      · rename_i hupper
        cases h
        exact .typeName hc hcs hword hupper
      · cases h
        exact .objectName hc hcs hword

theorem lexed_numberMeaning {digits : List Char} (h : numberMeaning digits = .token kind literal) :
    Lexed kind literal := by
  unfold numberMeaning at h
  simp only at h
  split at h
  · rename_i n hvalue
    split at h
    · rename_i hle
      cases h
      exact .int hvalue hle
    · cases h
  · cases h

theorem Body.ne_zero {value text : List Char} (h : Body value text)
    (htext : ∀ c ∈ text, c.toNat ≠ 0) : ∀ c ∈ value, c.toNat ≠ 0 := by
  induction h with
  | empty => exact htext
  | plain _ _ _ _ ih =>
    rw [forall_mem_cons] at htext ⊢
    exact ⟨htext.1, ih htext.2⟩
  | escaped _ ih =>
    rw [forall_mem_cons, forall_mem_cons] at htext
    refine forall_mem_cons.mpr ⟨?_, ih htext.2.2⟩
    unfold escapeValue
    repeat' split
    all_goals first | decide | exact htext.2.1

theorem Form.lexed {w rest : List Char} {meaning : Meaning} (h : Form w rest meaning)
    (hw : ∀ d ∈ w, d.toNat ≠ 0) (hmeaning : meaning = .token kind literal) :
    Lexed kind literal := by
  cases h with
  | symbol hmem _ =>
    cases hmeaning
    exact .mark hmem
  | word hc hparts _ => exact lexed_wordMeaning hc hparts hmeaning
  | number _ _ => exact lexed_numberMeaning hmeaning
  | string hbody =>
    have hvalue := hbody.ne_zero fun d hd => hw d (mem_cons_of_mem _ (mem_append_left _ hd))
    unfold stringMeaning at hmeaning
    simp only at hmeaning
    split at hmeaning
    · rename_i hlength
      cases hmeaning
      exact .string hlength hvalue
    · cases hmeaning
  | _ => cases hmeaning

theorem lexed_first (hcs : ∀ d ∈ c :: cs, d.toNat ≠ 0)
    (h : (first c cs).meaning = .token kind literal) : Lexed kind literal :=
  (form_first c cs).lexed (fun d hd => hcs d (first_append c cs ▸ mem_append_left _ hd)) h

theorem Lexed.kind_ne (h : Lexed kind literal) : kind ≠ .endOfText ∧ kind ≠ .error := by
  cases h with
  | keyword hmem =>
    have hall : ∀ entry ∈ keywords, entry.2 ≠ .endOfText ∧ entry.2 ≠ .error := by decide
    exact hall _ hmem
  | mark hmem =>
    have hall : ∀ entry ∈ symbols, entry.1 ≠ .endOfText ∧ entry.1 ≠ .error := by decide
    exact hall _ hmem
  | _ => exact ⟨Token.Kind.noConfusion, Token.Kind.noConfusion⟩

theorem Lexed.operator (h : Lexed kind literal) {op : Operator}
    (hop : Operator.ofKind kind = some op) : Operator.ofSymbol literal = op := by
  cases h with
  | keyword hmem =>
    have hall : ∀ entry ∈ keywords, Operator.ofKind entry.2 = none := by decide
    rw [hall _ hmem] at hop
    cases hop
  | mark hmem =>
    have hall : ∀ entry ∈ symbols, ∀ op, Operator.ofKind entry.1 = some op →
        Operator.ofSymbol (Text.ofChars entry.2) = op := by
      decide
    exact hall _ hmem op hop
  | _ => cases hop

end Lexeme

namespace Token

def IsLexed (t : Token) : Prop := Lexeme.Lexed t.kind t.literal

def Closed (tokens : List Token) : Prop :=
  ∃ front last, tokens = front ++ [last] ∧ last.kind = .endOfText ∧
    ∀ t ∈ front, t.kind = .error ∨ t.IsLexed

theorem Closed.cons {t : Token} {tokens : List Token} (ht : t.kind = .error ∨ t.IsLexed)
    (h : Closed tokens) : Closed (t :: tokens) := by
  obtain ⟨front, last, rfl, hlast, hall⟩ := h
  exact ⟨t :: front, last, rfl, hlast, forall_mem_cons.mpr ⟨ht, hall⟩⟩

theorem closed_ofChars (place : Position) {cs : List Char} (hcs : ∀ c ∈ cs, c.toNat ≠ 0) :
    Closed (ofChars place cs) := by
  have hrest : ∀ {c : Char} {cs : List Char}, (∀ d ∈ c :: cs, d.toNat ≠ 0) →
      ∀ d ∈ (Lexeme.first c cs).rest, d.toNat ≠ 0 := by
    intro c cs hcs d hd
    exact hcs d (Lexeme.first_append c cs ▸ mem_append_right _ hd)
  fun_induction ofChars place cs with
  | case1 place => exact ⟨[], _, rfl, rfl, by simp⟩
  | case2 place c cs lexeme after tokens hmeaning ih => exact ih (hrest hcs)
  | case3 place c cs lexeme after tokens kind literal hmeaning ih =>
    exact (ih (hrest hcs)).cons (.inr (Lexeme.lexed_first hcs hmeaning))
  | case4 place c cs lexeme after tokens hmeaning ih => exact (ih (hrest hcs)).cons (.inl rfl)
  | case5 place c cs lexeme after tokens cause hcause hmeaning ih =>
    exact (ih (hrest hcs)).cons (.inl rfl)

theorem closed_scan (source : Text) : Closed (scan source) := by
  refine closed_ofChars _ fun c hc => ?_
  exact bne_iff_ne.mp (all_eq_true.mp all_takeWhile c hc)

end Token
end CoolCompiler
