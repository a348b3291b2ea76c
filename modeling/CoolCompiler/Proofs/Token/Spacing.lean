import CoolCompiler.Proofs.Token.Forms

/-!
# Tokens with space between them

Tokens that are written as their kinds allow and set apart by blank space and comments are scanned
as they are.  The delimiters of comments are read from left to right without overlap, and a comment
ends where they balance.
-/

namespace CoolCompiler.Lexeme

open List Text

def isCapital (c : Char) : Bool := decide (65 ≤ c.toNat) && decide (c.toNat ≤ 90)

def isSmall (c : Char) : Bool := decide (97 ≤ c.toNat) && decide (c.toNat ≤ 122)

def isNumeral (c : Char) : Bool := decide (48 ≤ c.toNat) && decide (c.toNat ≤ 57)

/-- What an ASCII word stands for. -/
inductive Names (c : Char) (w : List Char) : Token.Kind → Text → Prop where
  | keyword {kind : Token.Kind} : ((c :: w).map Char.toLower, kind) ∈ keywords →
      Names c w kind (ofChars (c :: w))
  | bool : (c :: w).map Char.toLower ∈ ["true".toList, "false".toList] → isSmall c = true →
      Names c w .bool (ofChars ((c :: w).map Char.toLower))
  | typeName : (c :: w).map Char.toLower ∉ keywords.map Prod.fst → isCapital c = true →
      Names c w .typeName (ofChars (c :: w))
  | objectName : (c :: w).map Char.toLower ∉ keywords.map Prod.fst →
      (c :: w).map Char.toLower ∉ ["true".toList, "false".toList] → isSmall c = true →
      Names c w .objectName (ofChars (c :: w))

/-- The ways to write a token. -/
inductive Written : Spelling → List Char → Prop where
  | word {c : Char} {w : List Char} {kind : Token.Kind} {literal : Text} :
      (isCapital c || isSmall c) = true →
      (∀ d ∈ w, (isCapital d || isSmall d || isNumeral d || d == '_') = true) →
      Names c w kind literal → Written ⟨kind, literal⟩ (c :: w)
  | int {c : Char} {w : List Char} {n : Nat} : (∀ d ∈ c :: w, isNumeral d = true) →
      digitsValue? (c :: w) = some n → n ≤ maxInt →
      Written ⟨.int, ofChars (c :: w)⟩ (c :: w)
  | string {value body : List Char} : Body value body →
      (ofChars value).length ≤ maxStringLength →
      Written ⟨.string, ofChars value⟩ ('"' :: (body ++ ['"']))
  | symbol {kind : Token.Kind} {w : List Char} : (kind, w) ∈ symbols →
      Written ⟨kind, ofChars w⟩ w

/-- Blank space and comments. -/
inductive Gap : List Char → Prop where
  | nothing : Gap []
  | blank {c : Char} {cs : List Char} : isBlank c = true → Gap cs → Gap (c :: cs)
  | line {body cs : List Char} : '\n' ∉ body → Gap cs → Gap ('-' :: '-' :: (body ++ '\n' :: cs))
  | block {body cs : List Char} : Nested 1 body → Gap cs → Gap ('(' :: '*' :: (body ++ cs))

/-- Tokens with a gap after each, which begins with blank space.  The last one may end the
text. -/
inductive Spaced : List Char → List Spelling → Prop where
  | gap {gap : List Char} : Gap gap → Spaced gap []
  | last {w : List Char} {t : Spelling} : Written t w → Spaced w [t]
  | cons {w gap text : List Char} {c : Char} {t : Spelling} {ts : List Spelling} : Written t w →
      isBlank c = true → Gap gap → Spaced text ts → Spaced (w ++ c :: (gap ++ text)) (t :: ts)

theorem ascii_cases {p : Char → Bool} {c : Char}
    (hall : (List.range 128).all (fun n => p (Char.ofNat n)) = true) (hc : c.toNat < 128) :
    p c = true := by
  rw [← Char.ofNat_toNat c]
  exact all_eq_true.mp hall c.toNat (mem_range.mpr hc)

variable {c : Char} {w rest : List Char}

theorem lowerCase_ascii (h : c.toNat < 128) : lowerCase c = c.toLower :=
  beq_iff_eq.mp (ascii_cases (p := fun c => lowerCase c == c.toLower) (by decide +kernel) h)

theorem ascii_of_part (h : (isCapital c || isSmall c || isNumeral c || c == '_') = true) :
    c.toNat < 128 ∧ isWordPart c = true := by
  have hlt : c.toNat < 128 := by
    simp only [isCapital, isSmall, isNumeral, Bool.or_eq_true, Bool.and_eq_true, decide_eq_true_eq,
      beq_iff_eq] at h
    rcases h with h | rfl
    · omega
    · decide
  have hall := ascii_cases (p := fun c =>
    !(isCapital c || isSmall c || isNumeral c || c == '_') || isWordPart c) (by decide +kernel) hlt
  exact ⟨hlt, by simpa [h] using hall⟩

theorem wordStart_ascii (h : (isCapital c || isSmall c) = true) : WordStart c := by
  have hall := ascii_cases (p := fun c => !(isCapital c || isSmall c) || (!isBlank c &&
    (punctuation? c).isNone && c != '"' && !isDigit c && isLetter c)) (by decide +kernel)
    (ascii_of_part (by rw [h]; rfl)).1
  simp only [h, Bool.not_true, Bool.false_or, Bool.and_eq_true, Bool.not_eq_true',
    Option.isNone_iff_eq_none, bne_iff_ne] at hall
  obtain ⟨⟨⟨⟨hblank, hmark⟩, hquote⟩, hdigit⟩, hletter⟩ := hall
  exact ⟨hblank, hmark, hquote, hdigit, hletter⟩

theorem digit_ascii (h : isNumeral c = true) :
    isBlank c = false ∧ punctuation? c = none ∧ c ≠ '"' ∧ isDigit c = true := by
  have hall := ascii_cases (p := fun c => !isNumeral c || (!isBlank c &&
    (punctuation? c).isNone && c != '"' && isDigit c)) (by decide +kernel)
    (ascii_of_part (by rw [h]; simp)).1
  simpa [h, and_assoc] using hall

theorem wordMeaning_of_names {kind : Token.Kind} {literal : Text}
    (hascii : ∀ d ∈ c :: w, d.toNat < 128) (h : Names c w kind literal) :
    wordMeaning (c :: w) = .token kind literal := by
  have hlower : (c :: w).map lowerCase = (c :: w).map Char.toLower :=
    map_congr_left fun d hd => lowerCase_ascii (hascii d hd)
  have hfirst : (ofChars (c :: w)).headD 0 = (String.utf8EncodeChar c).headD 0 := by
    cases hbytes : String.utf8EncodeChar c with
    | nil => exact absurd hbytes (by simp)
    | cons b bs => simp [ofChars, hbytes]
  have hcase := ascii_cases (p := fun c =>
    let b := (String.utf8EncodeChar c).headD 0
    isLowerByte b == isSmall c && isUpperByte b == isCapital c && !(isSmall c && isCapital c))
    (by decide +kernel) (hascii c mem_cons_self)
  simp only [Bool.and_eq_true, beq_iff_eq] at hcase
  have hnone : ∀ {lowered : List Char}, lowered ∉ keywords.map Prod.fst →
      keywords.lookup lowered = none := by
    intro lowered hnot
    rw [lookup_eq_none_iff]
    intro entry hmem
    rw [bne_iff_ne]
    exact fun heq => hnot (mem_map.mpr ⟨entry, hmem, heq.symm⟩)
  unfold wordMeaning
  simp only [hlower, hfirst, hcase.1.1, hcase.1.2]
  cases h with
  | keyword hmem =>
    have hall : ∀ entry ∈ keywords, keywords.lookup entry.1 = some entry.2 := by decide
    rw [hall _ hmem]
  | bool hmem hsmall =>
    have hall : ∀ lowered ∈ ["true".toList, "false".toList], keywords.lookup lowered = none ∧
        (lowered == "true".toList || lowered == "false".toList) = true := by decide
    rw [(hall _ hmem).1]
    simp only [(hall _ hmem).2, hsmall, Bool.and_self, if_true]
  | typeName hnot hcapital =>
    rw [hnone hnot]
    simp_all
  | objectName hnot hother hsmall =>
    rw [hnone hnot]
    simp_all

/-!
# Reading what is written
-/

theorem reads_symbol : ∀ entry ∈ symbols, ∀ rest : List Char, (∀ d ∈ rest.head?, isBlank d = true) →
    Token.Reads entry.2 [⟨entry.1, ofChars entry.2⟩] rest := by
  have hone : ∀ {c : Char} {kind : Token.Kind}, isBlank c = false → punctuation? c = some kind →
      ∀ rest : List Char, (∀ d ∈ rest.head?, isBlank d = true) →
        Token.Reads [c] [⟨kind, ofChars [c]⟩] rest := by
    intro c kind hblank hkind rest hrest
    rw [ofChars, flatMap_singleton]
    refine Token.reads_token (first_mark hblank hkind fun d hd => ?_)
    have hd := hrest d hd
    have hne : ∀ {e : Char}, isBlank e = false → d ≠ e := by
      rintro e he rfl
      rw [hd] at he
      cases he
    rw [Separate, pair?, if_neg fun h => hne (by decide) h.2, if_neg fun h => hne (by decide) h.2,
      if_neg fun h => hne (by decide) h.2, if_neg fun h => hne (by decide) h.2]
    exact ⟨fun h => hne (by decide) h.2, fun h => hne (by decide) h.2, rfl⟩
  have htwo : ∀ {c d : Char} {kind : Token.Kind}, isBlank c = false → ¬ (c = '-' ∧ d = '-') →
      ¬ (c = '(' ∧ d = '*') → pair? c d = some (.token kind (ofChars [c, d])) →
      ∀ rest : List Char, (∀ d ∈ rest.head?, isBlank d = true) →
        Token.Reads [c, d] [⟨kind, ofChars [c, d]⟩] rest :=
    fun hblank hline hblock hpair rest _ =>
      Token.reads_token (first_pair hblank hline hblock hpair)
  simp only [symbols, forall_mem_cons]
  repeat refine ⟨hone (by decide) (by decide), ?_⟩
  repeat refine ⟨htwo (by decide) (by decide) (by decide) (by decide), ?_⟩
  exact forall_mem_nil _

theorem Written.reads {t : Spelling} (h : Written t w)
    (hrest : ∀ d ∈ rest.head?, isBlank d = true) :
    Token.Reads w [t] rest := by
  have hword : Ends isWordPart rest := fun d hd => not_wordPart_of_isBlank (hrest d hd)
  cases h with
  | @word c w kind literal hc hw hnames =>
    have hascii : ∀ d ∈ c :: w, d.toNat < 128 := forall_mem_cons.mpr
      ⟨(ascii_of_part (by rw [hc]; rfl)).1, fun d hd => (ascii_of_part (hw d hd)).1⟩
    refine Token.reads_token ?_
    rw [first_word (wordStart_ascii hc) (fun d hd => (ascii_of_part (hw d hd)).2) hword,
      wordMeaning_of_names hascii hnames]
  | int hw hvalue hle =>
    obtain ⟨hc, hw⟩ := forall_mem_cons.mp hw
    obtain ⟨hblank, hmark, hquote, hdigit⟩ := digit_ascii hc
    have hends : Ends isDigit rest := by
      intro d hd
      have hpart := hword d hd
      simp only [isWordPart, Bool.or_eq_false_iff] at hpart
      exact hpart.1.2
    refine Token.reads_token ?_
    rw [first_number hblank hmark hquote hdigit (fun d hd => (digit_ascii (hw d hd)).2.2.2) hends,
      numberMeaning, hvalue]
    simp only [if_pos hle]
  | string hbody hlength =>
    refine Token.reads_token ?_
    rw [append_assoc]
    exact first_string hbody hlength
  | symbol hmem => exact reads_symbol _ hmem rest hrest

theorem reads_blank (h : isBlank c = true) : Token.Reads [c] [] rest :=
  Token.reads_skipped (by simp [first, h])

theorem Gap.reads {gap : List Char} (h : Gap gap) : Token.Reads gap [] rest := by
  induction h with
  | nothing => exact Token.reads_nothing
  | blank hc _ ih => exact (reads_blank hc).append ih
  | @line body cs hbody _ ih =>
    have hall : ∀ d ∈ body, (d != '\n') = true := by
      intro d hd
      rw [bne_iff_ne]
      rintro rfl
      exact hbody hd
    have hline : Token.Reads ('-' :: '-' :: body) [] ('\n' :: (cs ++ rest)) := by
      refine Token.reads_skipped ?_
      simp [first, show isBlank '-' = false by decide, takeWhile_append_of_pos hall,
        dropWhile_append_of_pos hall]
    have hnewline : Token.Reads ['\n'] [] (cs ++ rest) := reads_blank (by decide)
    simpa using hline.append (hnewline.append ih)
  | @block body cs hbody _ ih =>
    have hblock : Token.Reads ('(' :: '*' :: body) [] (cs ++ rest) := by
      refine Token.reads_skipped ?_
      simp [first, show isBlank '(' = false by decide, comment_of_nested hbody]
    simpa using hblock.append ih

theorem Spaced.reads {text : List Char} {ts : List Spelling} (h : Spaced text ts) :
    Token.Reads text ts [] := by
  induction h with
  | gap hgap => exact hgap.reads
  | last hw => exact hw.reads (by simp)
  | @cons w gap text c t ts hw hc hgap _ ih =>
    have hfirst : Token.Reads w [t] (c :: (gap ++ text) ++ []) := by
      refine hw.reads fun d hd => ?_
      cases hd
      exact hc
    simpa using hfirst.append ((reads_blank hc).append (hgap.reads.append ih))

/-- Scanning undoes writing, whatever blank space and comments stand between the tokens. -/
theorem scan_spaced {text : List Char} {tokens : List Spelling} (h : Spaced text tokens)
    (hnul : Char.ofNat 0 ∉ text) :
    (Token.scan (Text.ofChars text)).map Token.spelling = tokens ++ [⟨.endOfText, []⟩] :=
  Token.scan_of_reads h.reads hnul

def nestedText : List Char :=
  ['c', 'L', 'a', 's', 's'] ++ ' ' ::
    ('(' :: '*' :: ([' ', '(', '*', '*', ')', ' ', '*', ')'] ++ []) ++
    (['T'] ++ '\n' :: ('-' :: '-' :: (['x'] ++ '\n' :: []) ++ ['0', '7'])))

theorem scan_spaced_nested :
    Char.ofNat 0 ∉ nestedText ∧ (Token.scan (Text.ofChars nestedText)).map Token.spelling =
      [⟨.class, Text.ofChars ['c', 'L', 'a', 's', 's']⟩, ⟨.typeName, Text.ofChars ['T']⟩,
        ⟨.int, Text.ofChars ['0', '7']⟩, ⟨.endOfText, []⟩] := by
  have hnested : Nested 1 [' ', '(', '*', '*', ')', ' ', '*', ')'] :=
    .other (by decide) (by decide) (.enter (.leave (.other (by decide) (by decide) .close)))
  have hclass : Written ⟨.class, Text.ofChars ['c', 'L', 'a', 's', 's']⟩
      ['c', 'L', 'a', 's', 's'] :=
    .word (by decide) (all_eq_true.mp (by decide)) (.keyword (by decide))
  have htype : Written ⟨.typeName, Text.ofChars ['T']⟩ ['T'] :=
    .word (by decide) (all_eq_true.mp (by decide)) (.typeName (by decide) (by decide))
  have hint : Written ⟨.int, Text.ofChars ['0', '7']⟩ ['0', '7'] :=
    .int (n := 7) (all_eq_true.mp (by decide)) (by decide) (by decide)
  have hspaced := Spaced.cons hclass (show isBlank ' ' = true by decide) (.block hnested .nothing)
    (.cons htype (show isBlank '\n' = true by decide)
      (.line (show '\n' ∉ ['x'] by decide) .nothing) (.last hint))
  exact ⟨by decide, scan_spaced hspaced (by decide)⟩

end CoolCompiler.Lexeme
