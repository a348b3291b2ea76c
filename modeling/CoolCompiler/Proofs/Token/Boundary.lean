import CoolCompiler.Proofs.Grammar.Rendering
import CoolCompiler.Proofs.Text.Decoding
import CoolCompiler.Token.Scan

/-!
# Where a lexeme ends

A word, a number, a string constant or a mark is cut off as it was written, if the character after
it does not belong to it.  So a text is read as the tokens of its parts.
-/

namespace CoolCompiler

open List

namespace CharSet

def membersFrom (start : Nat) : List Nat → List Nat
  | outside :: inside :: runs =>
    range' (start + outside) inside ++ membersFrom (start + (outside + inside)) runs
  | _ => []

theorem mem_membersFrom {n : Nat} {runs : List Nat} (start : Nat) (h : hasFrom n runs = true) :
    start + n ∈ membersFrom start runs := by
  fun_induction hasFrom n runs generalizing start with
  | case1 => cases h
  | case2 n outside inside runs hlt hin =>
    exact mem_append_left _ (mem_range'_1.mpr (by omega))
  | case3 n outside inside runs hlt hin ih =>
    have hrest := ih (start + (outside + inside)) h
    rw [show start + (outside + inside) + (n - (outside + inside)) = start + n by omega] at hrest
    exact mem_append_right _ hrest
  | case4 => cases h

end CharSet

namespace Lexeme

theorem not_wordPart_of_isBlank {c : Char} (h : isBlank c = true) : isWordPart c = false := by
  have hall : ∀ n ∈ CharSet.membersFrom 0 CharSet.blank.runs,
      CharSet.hasFrom n CharSet.letter.runs = false ∧
        CharSet.hasFrom n CharSet.decimalDigit.runs = false := by
    decide +kernel
  have hmem := CharSet.mem_membersFrom 0 h
  rw [Nat.zero_add] at hmem
  have hletter : isLetter c = false := (hall _ hmem).1
  have hdigit : isDigit c = false := (hall _ hmem).2
  have hbar : c ≠ '_' := by
    rintro rfl
    exact absurd h (by decide)
  simp [isWordPart, hletter, hdigit, hbar]

/-!
# Runs of characters
-/

/-- The first character, if there is one, fails a test. -/
def Ends (test : Char → Bool) (rest : List Char) : Prop := ∀ c ∈ rest.head?, test c = false

variable {c : Char} {w rest : List Char}

theorem run_of_ends {test : Char → Bool} {meaning : List Char → Meaning}
    (hw : ∀ d ∈ w, test d = true) (hrest : Ends test rest) :
    run test c (w ++ rest) meaning = ⟨c :: w, rest, meaning (c :: w)⟩ := by
  have hnone : rest.takeWhile test = [] ∧ rest.dropWhile test = rest := by
    cases rest with
    | nil => exact ⟨rfl, rfl⟩
    | cons d ds =>
      have hd : test d = false := hrest d rfl
      simp [hd]
  rw [run, takeWhile_append_of_pos hw, dropWhile_append_of_pos hw, hnone.1, hnone.2,
    append_nil]

theorem first_eq_single (hblank : isBlank c = false) (hmark : punctuation? c = none) :
    first c rest = single c rest := by
  have hne : ∀ {d : Char}, (punctuation? d).isSome = true → c ≠ d := by
    rintro d hd rfl
    rw [hmark] at hd
    cases hd
  have hpair : ∀ d, pair? c d = none := by
    intro d
    rw [pair?, if_neg fun h => hne (by decide) h.1, if_neg fun h => hne (by decide) h.1,
      if_neg fun h => hne (by decide) h.1, if_neg fun h => hne (by decide) h.1]
  unfold first
  rw [if_neg (by rw [hblank]; decide)]
  cases rest with
  | nil => rfl
  | cons d ds =>
    simp only [hpair d]
    rw [if_neg fun h => hne (by decide) h.1, if_neg fun h => hne (by decide) h.1]

/-- A character with which a word can begin. -/
structure WordStart (c : Char) : Prop where
  blank : isBlank c = false
  mark : punctuation? c = none
  quote : c ≠ '"'
  digit : isDigit c = false
  letter : isLetter c = true

theorem first_word (hc : WordStart c) (hw : ∀ d ∈ w, isWordPart d = true)
    (hrest : Ends isWordPart rest) :
    first c (w ++ rest) = ⟨c :: w, rest, wordMeaning (c :: w)⟩ := by
  rw [first_eq_single hc.blank hc.mark, single, hc.mark]
  simp only [if_neg hc.quote, hc.digit, hc.letter, if_true]
  exact run_of_ends hw hrest

theorem first_number (hblank : isBlank c = false) (hmark : punctuation? c = none) (hquote : c ≠ '"')
    (hc : isDigit c = true) (hw : ∀ d ∈ w, isDigit d = true) (hrest : Ends isDigit rest) :
    first c (w ++ rest) = ⟨c :: w, rest, numberMeaning (c :: w)⟩ := by
  rw [first_eq_single hblank hmark, single, hmark]
  simp only [if_neg hquote, hc, if_true]
  exact run_of_ends hw hrest

/-- The value of a string constant and a way to write it between its quotes. -/
inductive Body : List Char → List Char → Prop where
  | empty : Body [] []
  | plain {d : Char} {value text : List Char} : d ≠ '"' → d ≠ '\n' → d ≠ '\\' → Body value text →
      Body (d :: value) (d :: text)
  | escaped {d : Char} {value text : List Char} : Body value text →
      Body (escapeValue d :: value) ('\\' :: d :: text)

theorem Body.append {value text value' text' : List Char} (h : Body value text)
    (h' : Body value' text') : Body (value ++ value') (text ++ text') := by
  induction h with
  | empty => exact h'
  | plain hquote hline hslash _ ih => exact .plain hquote hline hslash ih
  | escaped _ ih => exact .escaped ih

theorem stringBody_of_body {value text : List Char} (h : Body value text) :
    stringBody (text ++ '"' :: rest) = (value, text ++ ['"'], rest, .closed) := by
  induction h with
  | empty => rfl
  | @plain d value text hquote hline hslash _ ih =>
    rw [cons_append, stringBody, ih]
    · rfl
    · exact hquote
    · exact hline
    · exact fun h => absurd h hslash
    · exact fun _ _ h => absurd h hslash
  | escaped _ ih =>
    rw [cons_append, cons_append, stringBody, ih]
    rfl

theorem first_string {value text : List Char} (h : Body value text)
    (hlength : (Text.ofChars value).length ≤ maxStringLength) :
    first '"' (text ++ '"' :: rest) =
      ⟨'"' :: (text ++ ['"']), rest, .token .string (Text.ofChars value)⟩ := by
  rw [first_eq_single (by decide) (by decide), single, show punctuation? '"' = none by decide]
  simp only [if_true, stringBody_of_body h, stringMeaning, if_pos hlength]

def Separate (c d : Char) : Prop :=
  ¬ (c = '-' ∧ d = '-') ∧ ¬ (c = '(' ∧ d = '*') ∧ pair? c d = none

theorem first_mark {kind : Token.Kind} (hblank : isBlank c = false)
    (hkind : punctuation? c = some kind) (hrest : ∀ d ∈ rest.head?, Separate c d) :
    first c rest = ⟨[c], rest, .token kind (String.utf8EncodeChar c)⟩ := by
  have hsingle : single c rest = ⟨[c], rest, .token kind (String.utf8EncodeChar c)⟩ := by
    rw [single, hkind]
  unfold first
  rw [if_neg (by rw [hblank]; decide)]
  cases rest with
  | nil => exact hsingle
  | cons d ds =>
    obtain ⟨hline, hblock, hpair⟩ := hrest d rfl
    simp only [if_neg hline, if_neg hblock, hpair]
    exact hsingle

theorem first_pair {d : Char} {meaning : Meaning} (hblank : isBlank c = false)
    (hline : ¬ (c = '-' ∧ d = '-')) (hblock : ¬ (c = '(' ∧ d = '*'))
    (hpair : pair? c d = some meaning) : first c (d :: rest) = ⟨[c, d], rest, meaning⟩ := by
  unfold first
  rw [if_neg (by rw [hblank]; decide)]
  simp only [if_neg hline, if_neg hblock, hpair]

end Lexeme

/-!
# Texts in parts
-/

namespace Token

/-- Some characters are read as the given tokens when `rest` comes after them. -/
def Reads (text : List Char) (spelled : List Spelling) (rest : List Char) : Prop :=
  ∀ place, ∃ tokens after, ofChars place (text ++ rest) = tokens ++ ofChars after rest ∧
    tokens.map Token.spelling = spelled

variable {text rest : List Char} {c : Char} {cs : List Char}

theorem reads_nothing : Reads [] [] rest := fun place => ⟨[], place, rfl, rfl⟩

theorem Reads.append {text' : List Char} {spelled spelled' : List Spelling}
    (h : Reads text spelled (text' ++ rest)) (h' : Reads text' spelled' rest) :
    Reads (text ++ text') (spelled ++ spelled') rest := by
  intro place
  obtain ⟨tokens, after, heq, hspelled⟩ := h place
  obtain ⟨tokens', after', heq', hspelled'⟩ := h' after
  refine ⟨tokens ++ tokens', after', ?_, ?_⟩
  · rw [append_assoc, heq, heq', append_assoc]
  · rw [map_append, hspelled, hspelled']

theorem reads_token {kind : Kind} {literal : Text}
    (h : Lexeme.first c (cs ++ rest) = ⟨c :: cs, rest, .token kind literal⟩) :
    Reads (c :: cs) [⟨kind, literal⟩] rest := by
  intro place
  refine ⟨[⟨kind, literal, place⟩], place.past (c :: cs), ?_, rfl⟩
  rw [cons_append, ofChars]
  simp only [h]
  rfl

theorem reads_skipped (h : Lexeme.first c (cs ++ rest) = ⟨c :: cs, rest, .skipped⟩) :
    Reads (c :: cs) [] rest := by
  intro place
  refine ⟨[], place.past (c :: cs), ?_, rfl⟩
  rw [cons_append, ofChars]
  simp only [h]
  rfl

theorem scanned_ofChars (h : Char.ofNat 0 ∉ text) : scanned (Text.ofChars text) = text := by
  have hall : ∀ c ∈ text, (c.toNat != 0) = true := by
    intro c hc
    rw [bne_iff_ne]
    intro hzero
    rw [← hzero, Char.ofNat_toNat] at h
    exact h hc
  rw [scanned, Text.chars_ofChars, ← append_nil text, takeWhile_append_of_pos hall,
    takeWhile_nil]

theorem scan_of_reads {spelled : List Spelling} (h : Reads text spelled [])
    (hnul : Char.ofNat 0 ∉ text) :
    (scan (Text.ofChars text)).map Token.spelling = spelled ++ [⟨.endOfText, []⟩] := by
  obtain ⟨tokens, after, heq, hspelled⟩ := h Position.start
  rw [append_nil, ofChars] at heq
  rw [scan, scanned_ofChars hnul, heq, map_append, hspelled]
  rfl

end Token
end CoolCompiler
