import CoolCompiler.Proofs.Token.Lexed
import CoolCompiler.Proofs.Token.Spacing

/-!
# Texts put together

Texts that are read as some tokens may be put together where no word runs into the next text and no
parenthesis is followed by a star.
-/

namespace CoolCompiler.Lexeme

open List Text

def isStar (c : Char) : Bool := c == '*'

/-- Whether a character may not come right after a word or a parenthesis. -/
def isTied (c : Char) : Bool := isWordPart c || isStar c

/-- A text that is read as some tokens, unless a character that passes `q` follows.  It does not
begin with one that passes `p`. -/
def Spelt (p q : Char → Bool) (text : Text) (ws : List Spelling) : Prop :=
  ∃ cs, text = ofChars cs ∧ Char.ofNat 0 ∉ cs ∧
    ∀ rest, Ends q rest → Ends p (cs ++ rest) ∧ Token.Reads cs ws rest

variable {p q r : Char → Bool} {text text' : Text} {ws ws' : List Spelling}

theorem Spelt.append (h : Spelt p q text ws) (h' : Spelt q r text' ws') :
    Spelt p r (text ++ text') (ws ++ ws') := by
  obtain ⟨cs, rfl, hnul, h⟩ := h
  obtain ⟨cs', rfl, hnul', h'⟩ := h'
  refine ⟨cs ++ cs', (ofChars_append cs cs').symm, by simp [hnul, hnul'], fun rest hrest => ?_⟩
  obtain ⟨hends, hreads'⟩ := h' rest hrest
  obtain ⟨hfirst, hreads⟩ := h _ hends
  exact ⟨append_assoc cs cs' rest ▸ hfirst, hreads.append hreads'⟩

theorem Ends.loose {rest : List Char} (h : Ends isTied rest) : Ends isStar rest :=
  fun c hc => (Bool.or_eq_false_iff.mp (h c hc)).2

theorem Spelt.loose (h : Spelt isTied q text ws) : Spelt isStar q text ws := by
  obtain ⟨cs, htext, hnul, h⟩ := h
  exact ⟨cs, htext, hnul, fun rest hrest => (h rest hrest).imp_left Ends.loose⟩

theorem Spelt.tight (h : Spelt p isStar text ws) : Spelt p isTied text ws := by
  obtain ⟨cs, htext, hnul, h⟩ := h
  exact ⟨cs, htext, hnul, fun rest hrest => h rest hrest.loose⟩

theorem spelt_nil (h : ∀ rest, Ends q rest → Ends p rest) : Spelt p q [] [] :=
  ⟨[], rfl, not_mem_nil, fun rest hrest => ⟨h rest hrest, Token.reads_nothing⟩⟩

theorem ends_cons {c : Char} {rest : List Char} (h : p c = false) : Ends p (c :: rest) := by
  rintro _ ⟨⟩
  exact h

theorem spelt_blank (h : p ' ' = false) : Spelt p q " " [] :=
  ⟨[' '], rfl, by decide, fun _ _ => ⟨ends_cons h, reads_blank (by decide)⟩⟩

theorem spelt_space : Spelt isTied isStar " " [] := spelt_blank (by decide)

/-!
# Words and numbers
-/

theorem ne_zero_of_isWordPart {c : Char} (h : isWordPart c = true) : Char.ofNat 0 ≠ c := by
  rintro rfl
  exact absurd h (by decide)

section Words

variable {c : Char} {w : List Char} {kind : Token.Kind} {literal : Text}

theorem spelt_word (hc : WordStart c) (hw : ∀ d ∈ w, isWordPart d = true)
    (hmeaning : wordMeaning (c :: w) = .token kind literal) :
    Spelt isStar isTied (ofChars (c :: w)) [⟨kind, literal⟩] := by
  have hfirst : isWordPart c = true := by simp [isWordPart, hc.letter]
  refine ⟨c :: w, rfl, fun hmem => ?_, fun rest hrest => ⟨ends_cons ?_, Token.reads_token ?_⟩⟩
  · rcases mem_cons.mp hmem with h | h
    · exact ne_zero_of_isWordPart hfirst h
    · exact ne_zero_of_isWordPart (hw _ h) rfl
  · refine beq_eq_false_iff_ne.mpr ?_
    rintro rfl
    cases hc.mark
  · rw [first_word hc hw fun d hd => (Bool.or_eq_false_iff.mp (hrest d hd)).1, hmeaning]

theorem spelt_ascii (hc : (isCapital c || isSmall c) = true)
    (hw : (w.all fun d => isCapital d || isSmall d) = true)
    (hmeaning : wordMeaning (c :: w) = .token kind literal) :
    Spelt isStar isTied (ofChars (c :: w)) [⟨kind, literal⟩] := by
  refine spelt_word (wordStart_ascii hc) (fun d hd => (ascii_of_part ?_).2) hmeaning
  have hd : (isCapital d || isSmall d) = true := all_eq_true.mp hw d hd
  rw [hd]
  rfl

section Keywords

variable (word : String) (h : keywords.lookup word.toList = some kind)
include h

theorem spelt_keyword :
    Spelt isStar isTied (ofChars word.toList) [⟨kind, ofChars word.toList⟩] := by
  have hall : ∀ entry ∈ keywords,
      Spelt isStar isTied (ofChars entry.1) [⟨entry.2, ofChars entry.1⟩] := by
    simp only [keywords, forall_mem_cons]
    repeat refine ⟨spelt_ascii (by decide) (by decide) (by decide), ?_⟩
    exact forall_mem_nil _
  obtain ⟨before, after, heq, _⟩ := lookup_eq_some_iff.mp h
  exact hall (word.toList, kind) (by simp [heq])

theorem spelt_before :
    Spelt isStar isStar (ofChars word.toList ++ " ") [⟨kind, ofChars word.toList⟩] :=
  (spelt_keyword word h).append spelt_space

theorem spelt_within : Spelt isTied isStar (" " ++ (ofChars word.toList ++ " "))
    [⟨kind, ofChars word.toList⟩] :=
  spelt_space.append (spelt_before word h)

theorem spelt_after :
    Spelt isTied isTied (" " ++ ofChars word.toList) [⟨kind, ofChars word.toList⟩] :=
  spelt_space.append (spelt_keyword word h)

end Keywords

/-- What can be told of a token from its literal. -/
def Respelt (literal : Text) : Token.Kind → Prop
  | .string => ∃ value, literal = ofChars value ∧ literal.length ≤ maxStringLength
  | .objectName => Spelt isStar isTied literal [⟨.objectName, literal⟩]
  | .typeName => Spelt isStar isTied literal [⟨.typeName, literal⟩]
  | _ => True

theorem Lexed.respelt (h : Lexed kind literal) : Respelt literal kind := by
  cases h with
  | typeName hc hw hmeaning _ => exact spelt_word hc hw hmeaning
  | objectName hc hw hmeaning => exact spelt_word hc hw hmeaning
  | string hlength _ => exact ⟨_, rfl, hlength⟩
  | keyword hmem =>
    have hall : ∀ entry ∈ keywords, ∀ x, Respelt x entry.2 := by simp [keywords, Respelt]
    exact hall _ hmem _
  | mark hmem =>
    have hall : ∀ entry ∈ symbols, ∀ x, Respelt x entry.1 := by simp [symbols, Respelt]
    exact hall _ hmem _
  | _ => trivial

theorem foldlM_digits {digits : List Char} (h : ∀ c ∈ digits, 48 ≤ c.toNat ∧ c.toNat ≤ 57)
    (n : Nat) : digits.foldlM (fun n c => if 48 ≤ c.toNat ∧ c.toNat ≤ 57 then
      some (10 * n + (c.toNat - 48)) else none) n = some (Nat.ofDigitChars 10 digits n) := by
  induction digits generalizing n with
  | nil => rfl
  | cons c digits ih =>
    rw [forall_mem_cons] at h
    rw [foldlM_cons, if_pos h.1, Nat.ofDigitChars_cons]
    exact ih h.2 _

theorem digitsValue?_toDigits (n : Nat) : digitsValue? (Nat.toDigits 10 n) = some n := by
  rw [digitsValue?, foldlM_digits fun _ => bounds_of_mem_toDigits,
    Nat.ofDigitChars_ten_toDigits]

theorem decimal_eq (n : Nat) : decimal n = ofChars (Nat.toDigits 10 n) := by
  rw [decimal, ofChars, map_eq_flatMap, flatMap_def, flatMap_def]
  refine congrArg _ (map_congr_left fun c hc => ?_)
  have hlt := Nat.lt_of_le_of_lt (bounds_of_mem_toDigits hc).2 (by decide : 57 < 128)
  exact beq_iff_eq.mp (ascii_cases (p := fun c => [c.toNat.toUInt8] == String.utf8EncodeChar c)
    (by decide) hlt)

theorem spelt_decimal {n : Nat} (h : n ≤ maxInt) :
    Spelt isStar isTied (decimal n) [⟨.int, decimal n⟩] := by
  have hall : ∀ c ∈ Nat.toDigits 10 n, isNumeral c = true := fun c hc => by
    simpa [isNumeral] using bounds_of_mem_toDigits hc
  have hvalue := digitsValue?_toDigits n
  rw [decimal_eq]
  cases hdigits : Nat.toDigits 10 n with
  | nil => exact absurd hdigits Nat.toDigits_ne_nil
  | cons c w =>
    rw [hdigits] at hall hvalue
    have hpart : ∀ d ∈ c :: w, isWordPart d = true := fun d hd =>
      (ascii_of_part (by simp [hall d hd])).2
    rw [forall_mem_cons] at hall
    obtain ⟨hblank, hmark, hquote, hdigit⟩ := digit_ascii hall.1
    refine ⟨c :: w, rfl, fun hmem => ne_zero_of_isWordPart (hpart _ hmem) rfl, fun rest hrest =>
      ⟨ends_cons (beq_eq_false_iff_ne.mpr ?_), Token.reads_token ?_⟩⟩
    · rintro rfl
      cases hmark
    · have hends : Ends isDigit rest := fun d hd => by
        have hd := (Bool.or_eq_false_iff.mp (hrest d hd)).1
        simp only [isWordPart, Bool.or_eq_false_iff] at hd
        exact hd.1.2
      rw [first_number hblank hmark hquote hdigit (fun d hd => (digit_ascii (hall.2 d hd)).2.2.2)
        hends, numberMeaning, hvalue]
      simp only [if_pos h]

end Words

theorem spelt_mark {kind : Token.Kind} (c : Char) (hkind : punctuation? c = some kind)
    (hc : c ∈ "()\x7b\x7d;:,~.@".toList := by decide) :
    Spelt isTied isStar (ofChars [c]) [⟨kind, ofChars [c]⟩] := by
  have hall : ("()\x7b\x7d;:,~.@".toList.all fun c => Char.ofNat 0 != c && !isTied c &&
      !isBlank c && !(['-', '*', '=', '<'].contains c)) = true := by decide
  have hfacts := all_eq_true.mp hall c hc
  simp only [Bool.and_eq_true, bne_iff_ne, Bool.not_eq_true', contains_cons, contains_nil,
    Bool.or_false, Bool.or_eq_false_iff, beq_eq_false_iff_ne] at hfacts
  obtain ⟨⟨⟨hnul, htied⟩, hblank⟩, hfree⟩ := hfacts
  refine ⟨[c], rfl, by simpa using hnul, fun rest hrest => ⟨ends_cons htied, ?_⟩⟩
  rw [ofChars, flatMap_singleton]
  refine Token.reads_token (first_mark hblank hkind fun d hd => ?_)
  have hd : d ≠ '*' := beq_eq_false_iff_ne.mp (hrest d hd)
  simp [Separate, pair?, hfree, hd]

theorem spelt_symbol {kind : Token.Kind} {w : List Char} (h : (kind, w) ∈ symbols) :
    Spelt isTied isStar (" " ++ ofChars w ++ " ") [⟨kind, ofChars w⟩] := by
  have hnul : ∀ entry ∈ symbols, Char.ofNat 0 ∉ entry.2 := by decide
  have hsymbol : Spelt (fun _ => false) (fun d => !isBlank d) (ofChars w)
      [⟨kind, ofChars w⟩] :=
    ⟨w, rfl, hnul _ h, fun rest hrest => ⟨fun _ _ => rfl, reads_symbol _ h rest fun d hd =>
      Bool.not_eq_eq_eq_not.mp (hrest d hd)⟩⟩
  exact ((spelt_blank (by decide)).append hsymbol).append (spelt_blank (by decide))

/-!
# Strings
-/

/-- Whether a character in a string is written so that it is read back. -/
def isLegible (c : Char) : Bool := shown c || [8, 9, 10, 12].contains c.toNat

theorem body_escapedChar {c : Char} (h : isLegible c = true) :
    ∃ body, Body [c] body ∧ escapedChar '"' c = ofChars body ∧ Char.ofNat 0 ∉ body := by
  have hescape : ∀ d, escapeValue d = c → Body [c] ['\\', d] := by
    rintro d rfl
    exact .escaped .empty
  unfold escapedChar
  split
  · rename_i hc
    refine ⟨_, hescape c ?_, by simp [ofChars]; rfl, ?_⟩ <;> rcases hc with rfl | rfl <;> decide
  · rename_i hc
    split
    · rename_i hshown
      have hne : ∀ {d : Char}, shown d = false → d ≠ c := by
        rintro _ hd rfl
        rw [hd] at hshown
        cases hshown
      refine ⟨[c], .plain (fun h => hc (.inl h)) (hne (by decide)).symm
        (fun h => hc (.inr h)) .empty, by simp [ofChars], by simpa using hne (by decide)⟩
    · rename_i hshown
      simp only [isLegible, hshown, Bool.false_or, contains_cons, contains_nil, Bool.or_false,
        Bool.or_eq_true, beq_iff_eq] at h
      have hcases : c = Char.ofNat 8 ∨ c = Char.ofNat 9 ∨ c = Char.ofNat 10 ∨
          c = Char.ofNat 12 := by
        rw [← Char.ofNat_toNat c]
        rcases h with h | h | h | h <;> simp [h]
      rcases hcases with rfl | rfl | rfl | rfl
      · exact ⟨_, hescape 'b' (by decide), by decide, by decide⟩
      · exact ⟨_, hescape 't' (by decide), by decide, by decide⟩
      · exact ⟨_, hescape 'n' (by decide), by decide, by decide⟩
      · exact ⟨_, hescape 'f' (by decide), by decide, by decide⟩

theorem body_escaped {value : List Char} (h : ∀ c ∈ value, isLegible c = true) :
    ∃ body, Body value body ∧ value.flatMap (escapedChar '"') = ofChars body ∧
      Char.ofNat 0 ∉ body := by
  induction value with
  | nil => exact ⟨[], .empty, rfl, not_mem_nil⟩
  | cons c value ih =>
    rw [forall_mem_cons] at h
    obtain ⟨front, hfront, htext, hnul⟩ := body_escapedChar h.1
    obtain ⟨body, hbody, htext', hnul'⟩ := ih h.2
    refine ⟨front ++ body, hfront.append hbody, ?_, by simp [hnul, hnul']⟩
    rw [flatMap_cons, htext, htext', ofChars_append]

theorem spelt_quoted {value : List Char} (h : ∀ c ∈ value, isLegible c = true)
    (hlength : (ofChars value).length ≤ maxStringLength) :
    Spelt isStar isTied (quoted (ofChars value)) [⟨.string, ofChars value⟩] := by
  obtain ⟨body, hbody, htext, hnul⟩ := body_escaped h
  refine ⟨'"' :: (body ++ ['"']), ?_, by simp [hnul], fun rest _ =>
    ⟨ends_cons (by decide), Token.reads_token ?_⟩⟩
  · rw [quoted, glyphs_ofChars, flatMap_map]
    exact (congrArg (fun t => [34] ++ t ++ [34]) htext).trans (by simp [ofChars]; rfl)
  · rw [append_assoc]
    exact first_string hbody hlength

end CoolCompiler.Lexeme
