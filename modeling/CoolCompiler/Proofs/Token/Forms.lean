import CoolCompiler.Proofs.Token.Boundary
import Mathlib.Data.List.TakeWhile

/-!
# How lexemes are written

The first lexeme of a text, told by its characters and by what follows it.  Blank space and comments
are skipped; a token begins at a character that is in neither.
-/

namespace CoolCompiler.Lexeme

open List Text

def symbols : List (Token.Kind × List Char) :=
  [(.closeParen, [')']), (.openBrace, ['\x7b']), (.closeBrace, ['\x7d']), (.semicolon, [';']),
   (.colon, [':']), (.comma, [',']), (.plus, ['+']), (.divide, ['/']), (.tilde, ['~']),
   (.dot, ['.']), (.at, ['@']), (.openParen, ['(']), (.minus, ['-']), (.times, ['*']),
   (.equal, ['=']), (.less, ['<']), (.arrow, ['=', '>']), (.assign, ['<', '-']),
   (.lessEq, ['<', '='])]

/-- The rest of a comment that is so many levels deep, up to its end. -/
inductive Nested : Nat → List Char → Prop where
  | close : Nested 1 ['*', ')']
  | leave {depth : Nat} {cs : List Char} : Nested (depth + 1) cs →
      Nested (depth + 2) ('*' :: ')' :: cs)
  | enter {depth : Nat} {cs : List Char} : Nested (depth + 1) cs →
      Nested depth ('(' :: '*' :: cs)
  | other {depth : Nat} {c d : Char} {cs : List Char} : ¬ (c = '(' ∧ d = '*') →
      ¬ (c = '*' ∧ d = ')') → Nested depth (d :: cs) → Nested depth (c :: d :: cs)

/-- Pairs of characters that are read together. -/
def pairs : List (List Char) :=
  [['-', '-'], ['(', '*'], ['*', ')'], ['=', '>'], ['<', '-'], ['<', '=']]

/-- The characters of a lexeme, what may follow it, and what it stands for. -/
inductive Form : List Char → List Char → Meaning → Prop where
  | blank {c : Char} {rest : List Char} : isBlank c = true → Form [c] rest .skipped
  | line {body rest : List Char} : '\n' ∉ body → Ends (· != '\n') rest →
      Form ('-' :: '-' :: body) rest .skipped
  | block {body rest : List Char} : Nested 1 body → Form ('(' :: '*' :: body) rest .skipped
  | openBlock {body : List Char} : (∀ front, front <+: body → ¬ Nested 1 front) →
      Form ('(' :: '*' :: body) [] (.fault .endInComment)
  | unmatched {rest : List Char} : Form ['*', ')'] rest (.fault .unmatchedComment)
  | symbol {kind : Token.Kind} {w rest : List Char} : (kind, w) ∈ symbols →
      (∀ d ∈ rest.head?, w ++ [d] ∉ pairs) → Form w rest (.token kind (ofChars w))
  | word {c : Char} {w rest : List Char} : WordStart c → (∀ d ∈ w, isWordPart d = true) →
      Ends isWordPart rest → Form (c :: w) rest (wordMeaning (c :: w))
  | number {c : Char} {w rest : List Char} : (∀ d ∈ c :: w, isDigit d = true) →
      Ends isDigit rest → Form (c :: w) rest (numberMeaning (c :: w))
  | string {value body rest : List Char} : Body value body →
      Form ('"' :: (body ++ ['"'])) rest (stringMeaning value .closed)
  | cutString {value body rest : List Char} : Body value body →
      Form ('"' :: (body ++ ['\n'])) rest (.fault .unterminatedString)
  | openString {value body last : List Char} : Body value body → last = [] ∨ last = ['\\'] →
      Form ('"' :: (body ++ last)) [] (.fault .endInString)
  | other {c : Char} {rest : List Char} : isBlank c = false → isLetter c = false →
      isDigit c = false → c ≠ '"' → [c] ∉ symbols.map Prod.snd →
      Form [c] rest (.fault (.unexpected c))

/-!
# Every lexeme has a form
-/

variable {c : Char} {cs : List Char}

theorem ends_dropWhile (test : Char → Bool) (cs : List Char) : Ends test (cs.dropWhile test) := by
  intro c hc
  have hhead := head?_dropWhile_not test cs
  rw [Option.mem_def.mp hc] at hhead
  simpa using hhead

theorem nested_of_comment {depth : Nat} (hdepth : 1 ≤ depth) (cs : List Char) :
    (comment depth cs).2.2 = true ∧ Nested depth (comment depth cs).1 ∨
      (comment depth cs).2.2 = false ∧ (comment depth cs).2.1 = [] := by
  fun_induction comment depth cs with
  | case1 => exact .inr ⟨rfl, rfl⟩
  | case2 depth cs covered rest closed heq ih =>
    simp only [heq] at ih
    exact (ih (by omega)).imp_left fun h => ⟨h.1, .enter h.2⟩
  | case3 depth cs hle =>
    obtain rfl : depth = 1 := by omega
    exact .inl ⟨rfl, .close⟩
  | case4 depth cs hlt covered rest closed heq ih =>
    simp only [heq] at ih
    obtain ⟨below, rfl⟩ : ∃ below, depth = below + 2 := ⟨depth - 2, by omega⟩
    exact (ih (by omega)).imp_left fun h => ⟨h.1, .leave h.2⟩
  | case5 depth c cs hopen hclose covered rest closed heq ih =>
    simp only [heq] at ih
    refine (ih hdepth).imp_left fun h => ⟨h.1, ?_⟩
    have happend := comment_append depth cs
    rw [heq] at happend
    cases covered with
    | nil => cases h.2
    | cons d covered =>
      refine .other ?_ ?_ h.2
      · rintro ⟨rfl, rfl⟩
        exact hopen _ rfl happend.symm
      · rintro ⟨rfl, rfl⟩
        exact hclose _ rfl happend.symm

theorem comment_of_nested {depth : Nat} {body rest : List Char} (h : Nested depth body) :
    comment depth (body ++ rest) = (body, rest, true) := by
  induction h with
  | close => rfl
  | leave _ ih => simp [comment, ih]
  | enter _ ih => simp [comment, ih]
  | other hopen hclose _ ih =>
    rw [cons_append, comment, ih]
    · rintro cs rfl heq
      exact hopen ⟨rfl, (List.cons.inj heq).1⟩
    · rintro cs rfl heq
      exact hclose ⟨rfl, (List.cons.inj heq).1⟩

theorem form_comment (ds : List Char) :
    Form ('(' :: '*' :: (comment 1 ds).1) (comment 1 ds).2.1
      (if (comment 1 ds).2.2 then .skipped else .fault .endInComment) := by
  rcases nested_of_comment (Nat.le_refl 1) ds with ⟨hclosed, hnested⟩ | ⟨hopen, hrest⟩
  · rw [hclosed]
    exact .block hnested
  · have hcovered := comment_append 1 ds
    rw [hrest, append_nil] at hcovered
    rw [hopen, hrest, hcovered]
    refine .openBlock ?_
    rintro _ ⟨rest, rfl⟩ hnested
    rw [comment_of_nested hnested] at hopen
    cases hopen

theorem body_of_stringBody (cs : List Char) :
    ∃ body, Body (stringBody cs).1 body ∧
      ((stringBody cs).2.2.2 = .closed ∧ (stringBody cs).2.1 = body ++ ['"'] ∨
        (stringBody cs).2.2.2 = .newline ∧ (stringBody cs).2.1 = body ++ ['\n'] ∨
        (stringBody cs).2.2.2 = .endOfText ∧ (stringBody cs).2.2.1 = [] ∧
          ∃ last, (last = [] ∨ last = ['\\']) ∧ (stringBody cs).2.1 = body ++ last) := by
  fun_induction stringBody cs with
  | case1 => exact ⟨[], .empty, .inr (.inr ⟨rfl, rfl, [], .inl rfl, rfl⟩)⟩
  | case2 cs => exact ⟨[], .empty, .inl ⟨rfl, rfl⟩⟩
  | case3 cs => exact ⟨[], .empty, .inr (.inl ⟨rfl, rfl⟩)⟩
  | case4 => exact ⟨[], .empty, .inr (.inr ⟨rfl, rfl, _, .inr rfl, rfl⟩)⟩
  | case5 c cs value covered rest ending heq ih =>
    simp only [heq] at ih
    obtain ⟨body, hbody, hends⟩ := ih
    refine ⟨'\\' :: c :: body, .escaped hbody, ?_⟩
    simpa using hends
  | case6 c cs hquote hline hlast hslash value covered rest ending heq ih =>
    simp only [heq] at ih
    obtain ⟨body, hbody, hends⟩ := ih
    refine ⟨c :: body, .plain hquote hline ?_ hbody, ?_⟩
    · rintro rfl
      cases cs with
      | nil => exact hlast rfl rfl
      | cons d ds => exact hslash d ds rfl rfl
    · simpa using hends

theorem form_stringBody (cs : List Char) :
    Form ('"' :: (stringBody cs).2.1) (stringBody cs).2.2.1
      (stringMeaning (stringBody cs).1 (stringBody cs).2.2.2) := by
  obtain ⟨body, hbody, ⟨hend, hcovered⟩ | ⟨hend, hcovered⟩ |
      ⟨hend, hrest, last, hlast, hcovered⟩⟩ :=
    body_of_stringBody cs
  · rw [hend, hcovered]
    exact .string hbody
  · rw [hend, hcovered]
    exact .cutString hbody
  · rw [hend, hcovered, hrest]
    exact .openString hbody hlast

theorem mem_symbols_of_punctuation? {kind : Token.Kind} (h : punctuation? c = some kind) :
    (kind, [c]) ∈ symbols := by
  have hstep : ∀ {d : Char} {found : Token.Kind} {other : Option Token.Kind},
      (found, [d]) ∈ symbols → (other = some kind → (kind, [c]) ∈ symbols) →
      (if c = d then some found else other) = some kind → (kind, [c]) ∈ symbols := by
    intro d found other hfound hother heq
    split at heq
    · rename_i hcd
      cases heq
      rwa [hcd]
    · exact hother heq
  unfold punctuation? at h
  revert h
  repeat refine hstep (by decide) ?_
  intro h
  cases h

theorem not_mem_symbols (h : punctuation? c = none) : [c] ∉ symbols.map Prod.snd := by
  have hall : ∀ w ∈ symbols.map Prod.snd, w.length = 1 → (w.all fun c => (punctuation? c).isSome) =
      true := by
    decide
  intro hmem
  have hsome := hall [c] hmem rfl
  simp [h] at hsome

theorem form_run {test : Char → Bool} {meaning : List Char → Meaning}
    (h : ∀ w rest, (∀ d ∈ w, test d = true) → Ends test rest →
      Form (c :: w) rest (meaning (c :: w))) :
    Form (run test c cs meaning).covered (run test c cs meaning).rest
      (run test c cs meaning).meaning :=
  h _ _ (fun _ hd => mem_takeWhile_imp hd) (ends_dropWhile test cs)

theorem form_single (hblank : isBlank c = false) (hpairs : ∀ d ∈ cs.head?, [c, d] ∉ pairs) :
    Form (single c cs).covered (single c cs).rest (single c cs).meaning := by
  unfold single
  split
  · rename_i kind hkind
    have hform := Form.symbol (mem_symbols_of_punctuation? hkind) hpairs
    rwa [ofChars, flatMap_singleton] at hform
  · rename_i hkind
    split
    · rename_i hquote
      rw [hquote]
      exact form_stringBody cs
    · rename_i hquote
      split
      · rename_i hdigit
        exact form_run fun w rest hw hrest => .number (forall_mem_cons.mpr ⟨hdigit, hw⟩) hrest
      · rename_i hdigit
        split
        · rename_i hletter
          exact form_run fun w rest hw hrest =>
            .word ⟨hblank, hkind, hquote, Bool.eq_false_iff.mpr hdigit, hletter⟩ hw hrest
        · rename_i hletter
          exact .other hblank (Bool.eq_false_iff.mpr hletter) (Bool.eq_false_iff.mpr hdigit)
            hquote (not_mem_symbols hkind)

theorem form_pair {d : Char} {meaning : Meaning} (h : pair? c d = some meaning) :
    Form [c, d] cs meaning := by
  unfold pair? at h
  split at h
  · rename_i hpair
    cases h
    rw [hpair.1, hpair.2]
    exact .unmatched
  · repeat' split at h
    all_goals cases h
    all_goals
      rename_i hpair
      rw [hpair.1, hpair.2]
      exact .symbol (by decide) (by simp [pairs])

theorem form_first (c : Char) (cs : List Char) :
    Form (first c cs).covered (first c cs).rest (first c cs).meaning := by
  unfold first
  split
  · rename_i hblank
    exact .blank hblank
  · rename_i hblank
    have hblank := Bool.eq_false_iff.mpr hblank
    split
    · exact form_single hblank (by simp)
    · rename_i d ds
      split
      · rename_i hline
        obtain ⟨rfl, rfl⟩ := hline
        refine .line ?_ (ends_dropWhile _ ds)
        intro hmem
        simpa using mem_takeWhile_imp hmem
      · rename_i hline
        split
        · rename_i hblock
          obtain ⟨rfl, rfl⟩ := hblock
          exact form_comment ds
        · rename_i hblock
          split
          · rename_i meaning hpair
            exact form_pair hpair
          · rename_i hpair
            refine form_single hblank ?_
            rintro _ ⟨⟩ hmem
            simp only [pairs, mem_cons, List.cons.injEq, and_true, not_mem_nil, or_false] at hmem
            rcases hmem with h | h | ⟨rfl, rfl⟩ | ⟨rfl, rfl⟩ | ⟨rfl, rfl⟩ | ⟨rfl, rfl⟩
            · exact hline h
            · exact hblock h
            all_goals cases hpair

end CoolCompiler.Lexeme
