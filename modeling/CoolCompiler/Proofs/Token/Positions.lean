import CoolCompiler.Proofs.Token.Lexed
import Mathlib.Data.List.Chain
import Mathlib.Data.List.Induction
import Mathlib.Data.Prod.Lex

/-!
# Positions of tokens

Every token but the report of an open comment is placed where its lexeme begins, and places follow
the order of the text.
-/

namespace CoolCompiler

open List

namespace Position

/-- The place behind some characters: its line is one more than the newlines in them, and its
column one more than the characters since the last newline. -/
def after (front : List Char) : Position :=
  ⟨1 + front.count '\n', 1 + (front.reverse.takeWhile (· != '\n')).length⟩

theorem past_append (p : Position) (cs ds : List Char) : p.past (cs ++ ds) = (p.past cs).past ds :=
  foldl_append

theorem after_eq_past (front : List Char) : after front = start.past front := by
  rw [after]
  induction front using List.reverseRecOn with
  | nil => rfl
  | append_singleton front c ih =>
    rw [past_append, ← ih]
    by_cases hc : c = '\n'
    · simp [past, next, hc, Nat.add_assoc]
    · simp [past, next, hc, Nat.add_comm]

/-- Places are ordered by line and then by column. -/
instance : Preorder Position := Preorder.lift fun p => toLex (p.line, p.column)

theorem lt_past (p : Position) {cs : List Char} (hne : cs ≠ []) : p < p.past cs := by
  have hstep : ∀ (p : Position) c, p < p.next c := by
    intro p c
    refine Prod.Lex.toLex_lt_toLex.mpr ?_
    unfold next
    split
    · exact .inl (Nat.lt_succ_self _)
    · exact .inr ⟨rfl, Nat.lt_succ_self _⟩
  induction cs generalizing p with
  | nil => exact absurd rfl hne
  | cons c cs ih =>
    cases cs with
    | nil => exact hstep p c
    | cons d ds => exact (hstep p c).trans (ih (p.next c) (cons_ne_nil _ _))

end Position

/-- What a lexeme at a place adds to the tokens of a text.  An open comment is reported behind
what it covers. -/
def Meaning.tokens (place behind : Position) : Meaning → List Token
  | .skipped => []
  | .token kind literal => [⟨kind, literal, place⟩]
  | .fault .endInComment =>
    [⟨.error, LexicalFault.endInComment.message place.line, behind⟩]
  | .fault cause => [⟨.error, cause.message place.line, place⟩]

theorem Meaning.tokens_cases (place behind : Position) (meaning : Meaning) :
    meaning.tokens place behind = [] ∨ ∃ t, meaning.tokens place behind = [t] ∧
      (t.position = place ∨ t.position = behind ∧ t.kind = .error) := by
  unfold tokens
  split
  · exact .inl rfl
  · exact .inr ⟨_, rfl, .inl rfl⟩
  · exact .inr ⟨_, rfl, .inr ⟨rfl, rfl⟩⟩
  · exact .inr ⟨_, rfl, .inl rfl⟩

namespace Token

theorem ofChars_cons (place : Position) (c : Char) (cs : List Char) :
    ofChars place (c :: cs) =
      (Lexeme.first c cs).meaning.tokens place (place.past (Lexeme.first c cs).covered) ++
        ofChars (place.past (Lexeme.first c cs).covered) (Lexeme.first c cs).rest := by
  rw [ofChars]
  cases (Lexeme.first c cs).meaning with
  | skipped | token kind literal => rfl
  | fault cause => cases cause <;> rfl

/-- The tokens of a text behind the characters `front`: each stands where its lexeme begins, and
the end token at the end. -/
inductive Covers : List Char → List Char → List Token → Prop where
  | finish {front : List Char} : Covers front [] [⟨.endOfText, [], .after front⟩]
  | lexeme {front w rest : List Char} {meaning : Meaning} {ts : List Token} :
      Lexeme.Form w rest meaning → Covers (front ++ w) rest ts →
      Covers front (w ++ rest) (meaning.tokens (.after front) (.after (front ++ w)) ++ ts)

theorem covers_ofChars (front cs : List Char) :
    Covers front cs (ofChars (.after front) cs) := by
  induction hlength : cs.length using Nat.strongRecOn generalizing front cs with
  | ind n ih =>
    cases cs with
    | nil =>
      rw [ofChars]
      exact .finish
    | cons c cs =>
      have hlt := Lexeme.rest_length_lt c cs
      have hrest := ih _ (hlength ▸ hlt) (front ++ (Lexeme.first c cs).covered) _ rfl
      have hcovers := Covers.lexeme (Lexeme.form_first c cs) hrest
      rw [Lexeme.first_append] at hcovers
      rwa [ofChars_cons, Position.after_eq_past, ← Position.past_append, ← Position.after_eq_past,
        ← Position.after_eq_past]

/-- The second token does not come before the first, and it comes after one that is no error. -/
def Precedes (t t' : Token) : Prop :=
  t.position ≤ t'.position ∧ (t.kind ≠ .error → t.position < t'.position)

theorem isChain_ofChars (place : Position) (cs : List Char) :
    (∀ t ∈ ofChars place cs, place ≤ t.position) ∧ (ofChars place cs).IsChain Precedes := by
  induction hlength : cs.length using Nat.strongRecOn generalizing place cs with
  | ind n ih =>
    cases cs with
    | nil =>
      rw [ofChars]
      exact ⟨forall_mem_singleton.mpr (le_refl place), .singleton _⟩
    | cons c cs =>
      have hlt := Lexeme.rest_length_lt c cs
      have hafter := place.lt_past (Lexeme.covered_ne_nil c cs)
      obtain ⟨hle, hchain⟩ := ih _ (hlength ▸ hlt) (place.past (Lexeme.first c cs).covered) _ rfl
      have hlater : ∀ t ∈ ofChars (place.past (Lexeme.first c cs).covered)
          (Lexeme.first c cs).rest, place < t.position := fun t ht => hafter.trans_le (hle t ht)
      rw [ofChars_cons]
      rcases (Lexeme.first c cs).meaning.tokens_cases place _ with hnone | ⟨t, hone, hplace⟩
      · rw [hnone]
        exact ⟨fun t ht => (hlater t ht).le, hchain⟩
      · have hhere : place ≤ t.position ∧
            t.position ≤ place.past (Lexeme.first c cs).covered := by
          rcases hplace with heq | ⟨heq, _⟩
          · rw [heq]
            exact ⟨le_refl _, hafter.le⟩
          · rw [heq]
            exact ⟨hafter.le, le_refl _⟩
        rw [hone]
        refine ⟨forall_mem_cons.mpr ⟨hhere.1, fun t' ht' => (hlater t' ht').le⟩, ?_⟩
        generalize ofChars _ _ = ts at hle hlater hchain ⊢
        cases ts with
        | nil => exact .singleton _
        | cons t' ts =>
          rw [forall_mem_cons] at hle hlater
          refine .cons_cons ⟨hhere.2.trans hle.1, fun hkind => ?_⟩ hchain
          rcases hplace with heq | ⟨_, herror⟩
          · exact heq ▸ hlater.1
          · exact absurd herror hkind

/-- The tokens of a text stand at their true places, which follow one another, and the last of
them is the only end token. -/
theorem scan_positions (source : Text) :
    Covers [] (scanned source) (scan source) ∧ (scan source).IsChain Precedes ∧
      ∃ front last, scan source = front ++ [last] ∧ last.kind = .endOfText ∧
        ∀ t ∈ front, t.kind ≠ .endOfText := by
  refine ⟨covers_ofChars [] (scanned source), (isChain_ofChars _ _).2, ?_⟩
  rcases closed_scan source with ⟨front, last, heq, hlast, hfront⟩
  refine ⟨front, last, heq, hlast, fun t ht => ?_⟩
  rcases hfront t ht with herror | hlexed
  · rw [herror]
    decide
  · exact hlexed.kind_ne.1

end Token
end CoolCompiler
