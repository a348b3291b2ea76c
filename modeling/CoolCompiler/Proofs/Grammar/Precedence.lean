import CoolCompiler.Proofs.Grammar.Recursion
import CoolCompiler.Proofs.Grammar.Rendering
import Mathlib.Data.List.Forall2

/-!
# Reading what is written

The words of an expression lead to it: what it leaves unread is given to the operators after it, so
a statement about one says what they make of it.
-/

namespace CoolCompiler.Grammar

open List

/-- A stream whose unread words are spelled in a given way, with nothing to report. -/
structure Stream.Spells (s : Stream) (spelled : List Spelling) : Prop where
  words : s.words.map (fun w => w.token.spelling) = spelled
  clean : ∀ w ∈ s.words, w.before = []
  lastClean : s.last.before = []
  lastKind : s.last.token.kind = .endOfText
  quiet : s.reports = []

def frontKind : List Spelling → Token.Kind
  | [] => .endOfText
  | w :: _ => w.kind

section Streams

variable {s : Stream} {w : Spelling} {ws : List Spelling}

theorem Stream.Spells.cons (h : s.Spells (w :: ws)) :
    s.words ≠ [] ∧ s.head.spelling = w ∧ s.advance.Spells ws := by
  obtain ⟨hwords, hclean, hlast, hkind, hquiet⟩ := h
  cases hs : s.words with
  | nil =>
    rw [hs] at hwords
    cases hwords
  | cons v vs =>
    rw [hs] at hwords hclean
    obtain ⟨hw, hws⟩ := List.cons.inj hwords
    rw [forall_mem_cons] at hclean
    have hadvance : s.advance = ⟨vs, s.last, []⟩ := by
      have hbefore : (Stream.front vs s.last).before = [] := by
        cases vs with
        | nil => exact hlast
        | cons u us => exact hclean.2 u mem_cons_self
      simp [Stream.advance, hs, Stream.entering, hbefore, hquiet, Stream.lexicalReports]
    refine ⟨cons_ne_nil _ _, ?_, ?_⟩
    · rw [Stream.head, hs]
      exact hw
    · rw [hadvance]
      exact ⟨hws, hclean.2, hlast, hkind, rfl⟩

theorem Stream.Spells.kind (h : s.Spells (w :: ws)) : s.head.kind = w.kind :=
  congrArg Spelling.kind h.cons.2.1

theorem Stream.Spells.front (h : s.Spells ws) : s.head.kind = frontKind ws := by
  cases ws with
  | nil =>
    have hs : s.words = [] := map_eq_nil_iff.mp h.words
    rw [Stream.head, hs]
    exact h.lastKind
  | cons w ws => exact h.kind

end Streams

/-!
# Readings that succeed
-/

/-- A reading that gives a value with a property and leaves the given words. -/
def Gives {α : Type} {s : Stream} (r : Reading α s) (P : α → Prop) (rest : List Spelling) : Prop :=
  ∃ value left h, r = .ok value left h ∧ P value ∧ left.Spells rest

theorem gives_from {α : Type} {s t : Stream} {r : Reading α t} {P : α → Prop}
    {rest : List Spelling} (hle : t.size ≤ s.size) (h : Gives r P rest) :
    Gives (r.from_ hle : Reading α s) P rest := by
  obtain ⟨value, left, hleft, rfl, hvalue⟩ := h
  exact ⟨value, left, Nat.le_trans hleft hle, rfl, hvalue⟩

/-- A routine that reads a value with a property from some words and leaves others. -/
def Yields {α : Type} (r : Routine α) (ws : List Spelling) (P : α → Prop)
    (rest : List Spelling) : Prop :=
  ∀ s : Stream, s.Spells ws → Gives (read r s) P rest

namespace Steps

/-- Steps that come to their end on some words: they give a value with a property and leave the
last words. -/
def Succeed {α : Type} (P : α → Prop) (last : List Spelling) :
    Steps α → List Spelling → Prop
  | .done value, ws => P value ∧ ws = last
  | .refuse _, _ => False
  | @look _ test _ yes no, ws =>
    if test (frontKind ws) then yes.Succeed P last ws else no.Succeed P last ws
  | .take atEnd _, [] => atEnd.Succeed P last []
  | .take _ next, w :: ws => ∀ place, (next ⟨w.kind, w.literal, place⟩).Succeed P last ws
  | .call r next, ws =>
    ∃ Q rest, Yields r ws Q rest ∧ ∀ value, Q value → (next value).Succeed P last rest

variable {α : Type} {P : α → Prop} {ws last : List Spelling}

namespace Succeed

theorem done {value : α} (h : P value) : (Steps.done value).Succeed P ws ws := ⟨h, rfl⟩

theorem yes {test : Token.Kind → Prop} [DecidablePred test] {yes no : Steps α}
    (htest : test (frontKind ws)) (h : yes.Succeed P last ws) :
    (look test yes no).Succeed P last ws := by
  rwa [Succeed, if_pos htest]

theorem no {test : Token.Kind → Prop} [DecidablePred test] {yes no : Steps α}
    (htest : ¬ test (frontKind ws)) (h : no.Succeed P last ws) :
    (look test yes no).Succeed P last ws := by
  rwa [Succeed, if_neg htest]

theorem accept {kind : Token.Kind} {literal : Text} {next : Token → Steps α}
    (h : ∀ place, (next ⟨kind, literal, place⟩).Succeed P last ws) :
    (Steps.accept kind next).Succeed P last (⟨kind, literal⟩ :: ws) :=
  yes rfl h

theorem call {β : Type} {r : Routine β} {Q : β → Prop} {rest : List Spelling}
    {next : β → Steps α} (hr : Yields r ws Q rest)
    (h : ∀ value, Q value → (next value).Succeed P last rest) :
    (Steps.call r next).Succeed P last ws :=
  ⟨Q, rest, hr, h⟩

theorem gives {steps : Steps α} (h : steps.Succeed P last ws) {s : Stream} (hs : s.Spells ws) :
    Gives (steps.run read s) P last := by
  induction steps generalizing ws s with
  | done value => exact ⟨value, s, Nat.le_refl _, rfl, h.1, h.2 ▸ hs⟩
  | refuse report => exact h.elim
  | look test yes no ihyes ihno =>
    unfold Succeed at h
    unfold run
    rw [← hs.front] at h
    split at h
    · rw [if_pos ‹_›]
      exact ihyes h hs
    · rw [if_neg ‹_›]
      exact ihno h hs
  | take atEnd next ihend ih =>
    unfold run Stream.withToken
    cases ws with
    | nil =>
      rw [dif_pos (map_eq_nil_iff.mp hs.words)]
      exact ihend h hs
    | cons w ws =>
      obtain ⟨hne, rfl, hadvance⟩ := hs.cons
      rw [dif_neg hne]
      exact gives_from _ (ih _ (h s.head.position) hadvance)
  | call r next ih =>
    obtain ⟨Q, rest, hr, hnext⟩ := h
    obtain ⟨value, left, hle, heq, hvalue, hleft⟩ := hr s hs
    unfold run
    rw [heq]
    exact gives_from hle (ih value (hnext value hvalue) hleft)

end Succeed
end Steps

theorem yields_of_body {α : Type} {r : Routine α} {P : α → Prop} {ws last : List Spelling}
    (h : r.body.Succeed P last ws) : Yields r ws P last := by
  intro s hs
  rw [read_eq_run]
  exact h.gives hs

/-!
# Expressions that lead on
-/

/-- A token with this spelling gives an expression its mark, as far as `ν` shows. -/
def Marks (ν : Mark → Mark) (literal : Text) (m : Mark) : Prop :=
  ∀ line, ν ⟨literal, line, []⟩ = ν m

/-- The same tree, as far as `ν` shows of marks. -/
abbrev Same (ν : Mark → Mark) (e e' : Expr) : Prop := e'.remarked ν = e.remarked ν

/-- Reading an expression from some words and others after them comes to the operators after the
same expression. -/
def Leads (ν : Mark → Mark) (e : Expr) (spelled : List Spelling) (level : Level)
    (rest : List Spelling) : Prop :=
  ∀ (P : Expr → Prop) (last : List Spelling),
    (∀ e', Same ν e e' → Yields (.operators level e') rest P last) →
    Yields (.expr level) (spelled ++ rest) P last

/-- The tightest operators that may follow an expression of some rung without becoming part of
it.  A comparison may not be followed by another. -/
def reach : Rung → Nat
  | .lowest | .assign => 1
  | .complement | .compare => 3
  | .sum => 5
  | .product => 6
  | .isVoid => 7
  | .negate => 8
  | .dispatch | .highest => 10

/-- Words that do not become part of an expression before them: no call, and no operator that is
tighter than `n`. -/
structure Follows (n : Nat) (rest : List Spelling) : Prop where
  loose : (Level.ofKind (frontKind rest)).rank ≤ n
  noCall : frontKind rest ≠ .openParen

/-- Levels at which operands are read. -/
structure Fits (level : Level) (r : Rung) : Prop where
  below : level.rank < Rung.dispatch.height
  tight : level = .lowest ∨ level.rank < r.height

/-- A word that is neither an error nor the end of the text. -/
@[simp] def Ordinary (w : Spelling) : Prop := w.kind ≠ .error ∧ w.kind ≠ .endOfText

def Plain (ws : List Spelling) : Prop := ∀ w ∈ ws, Ordinary w

@[simp] theorem plain_nil : Plain [] := forall_mem_nil _

@[simp] theorem plain_cons {w : Spelling} {ws : List Spelling} :
    Plain (w :: ws) ↔ Ordinary w ∧ Plain ws := forall_mem_cons

@[simp] theorem plain_append {ws vs : List Spelling} :
    Plain (ws ++ vs) ↔ Plain ws ∧ Plain vs := forall_mem_append

/-- Whether a token may begin an expression or stand in the middle of one. -/
def opens : Token.Kind → Bool
  | .closeParen | .closeBrace | .endOfText => false
  | _ => true

/-- Whether a token ends every expression before it. -/
def closes (kind : Token.Kind) : Bool := Level.ofKind kind = .lowest ∧ kind ≠ .openParen

/-- The words of an expression that is read back from them in every place that admits its rung,
before operators that are no tighter than `n`. -/
structure Reads (ν : Mark → Mark) (e : Expr) (r : Rung) (n : Nat) (ws : List Spelling) : Prop where
  plain : Plain ws
  opens : ∀ rest, opens (frontKind (ws ++ rest)) = true
  positive : 0 < n
  leads : ∀ level rest, Fits level r → Follows n rest → Leads ν e ws level rest

/-- The words of an expression that is read from them where it stands by itself. -/
structure Closed (P : Expr → Prop) (ws : List Spelling) : Prop where
  plain : Plain ws
  opens : ∀ rest, Grammar.opens (frontKind (ws ++ rest)) = true
  yields : ∀ {kind literal rest}, closes kind = true →
    Yields (.expr .lowest) (ws ++ ⟨kind, literal⟩ :: rest) P (⟨kind, literal⟩ :: rest)

variable {ν : Mark → Mark}

section Leading

variable {e : Expr} {level : Level} {r : Rung} {n k : Nat} {w : Spelling} {ws rest : List Spelling}

theorem Leads.yields (h : Leads ν e ws level rest)
    (hrest : (Level.ofKind (frontKind rest)).rank ≤ level.rank) :
    Yields (.expr level) (ws ++ rest) (Same ν e) rest :=
  h _ _ fun _ he' => yields_of_body (.no (Nat.not_lt.mpr hrest) (.done he'))

theorem leads_of_operand
    (h : ∀ place, (Routine.operand ⟨w.kind, w.literal, place⟩).body.Succeed (Same ν e) rest
      (ws ++ rest)) : Leads ν e (w :: ws) level rest :=
  fun _ _ hlast => yields_of_body fun place => .call (yields_of_body (h place)) fun e' he' =>
    .call (hlast e' he') fun _ hv => .done hv

theorem Follows.mono (h : Follows n rest) (hle : n ≤ k) : Follows k rest :=
  ⟨Nat.le_trans h.loose hle, h.noCall⟩

theorem fits_lowest (r : Rung) : Fits .lowest r := ⟨by decide, .inl rfl⟩

theorem ne_of_opens {kind kind' : Token.Kind} (h : opens kind = true) (h' : opens kind' = false) :
    kind ≠ kind' := by
  rintro rfl
  rw [h] at h'
  cases h'

theorem Reads.closed (h : Reads ν e r n ws) : Closed (Same ν e) ws := by
  refine ⟨h.plain, h.opens, fun {kind literal rest} hcloses => ?_⟩
  obtain ⟨hlevel, hkind⟩ := of_decide_eq_true hcloses
  have hrank : (Level.ofKind kind).rank = 1 := by rw [hlevel]; rfl
  have hfollows : Follows 1 (⟨kind, literal⟩ :: rest) := ⟨Nat.le_of_eq hrank, hkind⟩
  exact (h.leads .lowest _ (fits_lowest _) (hfollows.mono h.positive)).yields (Nat.le_of_eq hrank)

theorem reads_paren (h : Closed (Same ν e) ws) :
    Reads ν e .highest 10 (⟨.openParen, "("⟩ :: (ws ++ [⟨.closeParen, ")"⟩])) := by
  refine ⟨by simp [h.plain], fun _ => rfl, by decide, fun level rest _ _ =>
    leads_of_operand fun place => ?_⟩
  rw [append_assoc]
  exact .call (h.yields rfl) fun e' he' => .accept fun _ => .done he'

theorem Reads.above (h : Reads ν e r k ws) (hr : level.rank < r.height)
    (hlevel : level.rank < Rung.dispatch.height) (hn : n ≤ level.rank ∧ n ≤ k)
    (hrest : Follows n rest) : Yields (.expr level) (ws ++ rest) (Same ν e) rest :=
  (h.leads level rest ⟨hlevel, .inr hr⟩ (hrest.mono hn.2)).yields (Nat.le_trans hrest.loose hn.1)

end Leading

/-!
# Lists of expressions
-/

section Lists

variable {e : Expr} {es : List Expr} {b : Declared Expr} {bs : List (Declared Expr)}
  {ws rest : List Spelling} {wss : List (List Spelling)} {t : Token} {kind : Token.Kind}
  {literal : Text}

theorem commaSeparated_cons (ws vs : List Spelling) (wss : List (List Spelling)) :
    commaSeparated (ws :: vs :: wss) = ws ++ ⟨.comma, ","⟩ :: commaSeparated (vs :: wss) :=
  rfl

theorem plain_commaSeparated (h : ∀ ws ∈ wss, Plain ws) : Plain (commaSeparated wss) := by
  fun_induction commaSeparated wss with
  | case1 => exact plain_nil
  | case2 ws => exact h ws mem_cons_self
  | case3 ws wss _ ih =>
    rw [forall_mem_cons] at h
    simp [h.1, ih h.2]

theorem plain_flatMap (h : ∀ ws ∈ wss, Plain ws) :
    Plain (wss.flatMap (· ++ [⟨.semicolon, ";"⟩])) := by
  intro w hw
  obtain ⟨ws, hws, hw⟩ := mem_flatMap.mp hw
  exact plain_append.mpr ⟨h ws hws, by simp⟩ w hw

theorem plain_of_forall₂ {α : Type} {R : α → List Spelling → Prop} {as : List α}
    (hR : ∀ a ws, R a ws → Plain ws) (h : Forall₂ R as wss) : ∀ ws ∈ wss, Plain ws := by
  induction h with
  | nil => exact forall_mem_nil _
  | cons h _ ih => exact forall_mem_cons.mpr ⟨hR _ _ h, ih⟩

/-- The words of several expressions, each of which stands by itself. -/
def ClosedAll (ν : Mark → Mark) : List Expr → List (List Spelling) → Prop :=
  Forall₂ fun e ws => Closed (Same ν e) ws

theorem ClosedAll.plain (h : ClosedAll ν es wss) : ∀ ws ∈ wss, Plain ws :=
  plain_of_forall₂ (fun _ _ h => Closed.plain h) h

theorem yields_argumentList (h : Closed (Same ν e) ws) (hall : ClosedAll ν es wss) :
    Yields .argumentList (commaSeparated (ws :: wss) ++ ⟨.closeParen, ")"⟩ :: rest)
      (fun as => Expr.remarkedAll ν as = Expr.remarkedAll ν (e :: es)) rest := by
  induction hall generalizing e ws with
  | nil =>
    refine yields_of_body (.call (h.yields rfl) fun e' he' => .no nofun (.accept fun _ => .done ?_))
    rw [Expr.remarkedAll, he']
    rfl
  | cons hnext _ ih =>
    rw [commaSeparated_cons, append_assoc, cons_append]
    refine yields_of_body (.call (h.yields rfl) fun e' he' => .yes rfl (.accept fun _ =>
      .call (ih hnext) fun as has => .done ?_))
    rw [Expr.remarkedAll, he', has]
    rfl

theorem yields_arguments (hall : ClosedAll ν es wss) :
    Yields .arguments (commaSeparated wss ++ ⟨.closeParen, ")"⟩ :: rest)
      (fun as => Expr.remarkedAll ν as = Expr.remarkedAll ν es) rest := by
  cases hall with
  | nil => exact yields_of_body (.yes rfl (.accept fun _ => .done rfl))
  | @cons e ws es wss h hall =>
    have hopens : opens (frontKind (commaSeparated (ws :: wss) ++ ⟨.closeParen, ")"⟩ :: rest)) := by
      cases wss with
      | nil => exact h.opens _
      | cons => rw [commaSeparated_cons, append_assoc]; exact h.opens _
    exact yields_of_body (.no (ne_of_opens hopens rfl)
      (.call (yields_argumentList h hall) fun as has => .done has))

theorem yields_items (hall : ClosedAll ν es wss) :
    Yields .items (wss.flatMap (· ++ [⟨.semicolon, ";"⟩]) ++ ⟨.closeBrace, "\x7d"⟩ :: rest)
      (fun as => Expr.remarkedAll ν as = Expr.remarkedAll ν es) rest := by
  induction hall with
  | nil => exact yields_of_body (.yes rfl (.accept fun _ => .done rfl))
  | cons h _ ih =>
    simp only [flatMap_cons, append_assoc, singleton_append]
    refine yields_of_body (.no (ne_of_opens (h.opens _) rfl) (.no (ne_of_opens (h.opens _) rfl)
      (.call (h.yields rfl) fun e' he' => .accept fun _ => .call ih fun as has => .done ?_)))
    rw [Expr.remarkedAll, Expr.remarkedAll, he', has]

/-- The words of an initialiser, which may be left out. -/
inductive Initial (ν : Mark → Mark) : Expr → List Spelling → Prop where
  | omitted {m : Mark} : Marks ν [] m → Initial ν (.omitted m) []
  | given {e : Expr} {ws : List Spelling} : Closed (Same ν e) ws →
      Initial ν e (⟨.assign, "<-"⟩ :: ws)

theorem yields_initialiser (h : Initial ν e ws) (hcloses : closes kind = true) :
    Yields (.initialiser t) (ws ++ ⟨kind, literal⟩ :: rest) (Same ν e)
      (⟨kind, literal⟩ :: rest) := by
  cases h with
  | omitted hm =>
    refine yields_of_body (.no ?_ (.done (congrArg Expr.omitted (hm _))))
    rintro rfl
    cases hcloses
  | given h =>
    exact yields_of_body (.yes rfl (.accept fun _ => .call (h.yields hcloses) fun _ he' =>
      .done he'))

/-- The words of a binding, up to its initialiser. -/
def declares (b : Declared Expr) (ws : List Spelling) : List Spelling :=
  ⟨.objectName, b.name⟩ :: ⟨.colon, ":"⟩ :: ⟨.typeName, b.type⟩ :: ws

def BindingWords (ν : Mark → Mark) (b : Declared Expr) (part : List Spelling) : Prop :=
  ∃ ws, part = declares b ws ∧ Initial ν b.value ws

theorem BindingWords.plain (h : BindingWords ν b ws) : Plain ws := by
  obtain ⟨ws, rfl, h⟩ := h
  have hplain : Plain ws := by
    generalize b.value = e at h
    cases h with
    | omitted => exact plain_nil
    | given h => simp [h.plain]
  simp [declares, hplain]

theorem yields_bindings (h : BindingWords ν b ws) (hall : Forall₂ (BindingWords ν) bs wss) :
    Yields .bindings (commaSeparated (ws :: wss) ++ ⟨.in, "in"⟩ :: rest)
      (fun cs => Expr.remarkedParts ν cs = Expr.remarkedParts ν (b :: bs))
      (⟨.in, "in"⟩ :: rest) := by
  induction hall generalizing b ws with
  | nil =>
    obtain ⟨ws, rfl, h⟩ := h
    refine yields_of_body (.accept fun _ => .accept fun _ => .accept fun _ =>
      .call (yields_initialiser h rfl) fun e' he' => .no nofun (.done ?_))
    simp only [Expr.remarkedParts, he']
  | cons hnext _ ih =>
    obtain ⟨ws, rfl, h⟩ := h
    rw [commaSeparated_cons, append_assoc, cons_append]
    refine yields_of_body (.accept fun _ => .accept fun _ => .accept fun _ =>
      .call (yields_initialiser h rfl) fun e' he' => .yes rfl (.accept fun _ =>
      .call (ih hnext) fun cs hcs => .done ?_))
    rw [Expr.remarkedParts, he', hcs]
    rfl

def BranchWords (ν : Mark → Mark) (b : Declared Expr) (part : List Spelling) : Prop :=
  ∃ ws, part = declares b (⟨.arrow, "=>"⟩ :: ws) ∧ Closed (Same ν b.value) ws

theorem BranchWords.plain (h : BranchWords ν b ws) : Plain ws := by
  obtain ⟨ws, rfl, h⟩ := h
  simp [declares, h.plain]

theorem yields_branches (hall : Forall₂ (BranchWords ν) bs wss) :
    Yields .branches (wss.flatMap (· ++ [⟨.semicolon, ";"⟩]) ++ ⟨.esac, "esac"⟩ :: rest)
      (fun found => Expr.remarkedParts ν found.1 = Expr.remarkedParts ν bs) rest := by
  induction hall with
  | nil => exact yields_of_body (.yes rfl (.accept fun _ => .done rfl))
  | cons h _ ih =>
    obtain ⟨ws, rfl, h⟩ := h
    simp only [flatMap_cons, append_assoc, singleton_append]
    refine yields_of_body (.no nofun fun _ => .yes rfl (.accept fun _ => .accept fun _ =>
      .accept fun _ => .call (h.yields rfl) fun e' he' => .accept fun _ =>
      .call ih fun found hfound => .done ?_))
    rw [Expr.remarkedParts, Expr.remarkedParts, he', hfound]

end Lists

/-!
# One construct at a time
-/

section Constructs

variable {m : Mark} {lit : Text} {e : Expr} {p r : Rung} {n k : Nat} {ws : List Spelling}
  {wss : List (List Spelling)}

theorem Reads.receiver {level : Level} {rest : List Spelling} (he : Reads ν e r k ws)
    (hr : Rung.dispatch.height ≤ r.height) (hk : 10 ≤ k) (hfits : Fits level .highest)
    (kind : Token.Kind) (hkind : kind ≠ .openParen) : Leads ν e ws level (⟨kind, lit⟩ :: rest) := by
  have htop : (Level.ofKind kind).rank ≤ 10 := by cases Level.ofKind kind <;> decide
  exact he.leads level _ ⟨hfits.below, .inr (Nat.lt_of_lt_of_le hfits.below hr)⟩
    ⟨Nat.le_trans htop hk, hkind⟩

theorem Marks.of (hm : Marks ν lit m) {kind : Token.Kind} {place : Position} :
    ν (markOf ⟨kind, lit, place⟩) = ν m := hm _

section

variable (hm : Marks ν lit m)
include hm

theorem reads_int : Reads ν (.int m (digitsValue lit)) .highest 10 [⟨.int, lit⟩] := by
  refine ⟨by simp, fun _ => rfl, by decide, fun _ _ _ _ => leads_of_operand fun _ => .done ?_⟩
  simp [Same, hm.of]

theorem reads_string : Reads ν (.string m lit) .highest 10 [⟨.string, lit⟩] := by
  refine ⟨by simp, fun _ => rfl, by decide, fun _ _ _ _ => leads_of_operand fun _ => .done ?_⟩
  simp [Same, hm.of]

theorem reads_bool : Reads ν (.bool m (lit == "true")) .highest 10 [⟨.bool, lit⟩] := by
  refine ⟨by simp, fun _ => rfl, by decide, fun _ _ _ _ => leads_of_operand fun _ => .done ?_⟩
  simp [Same, hm.of]

theorem reads_object : Reads ν (.object m lit) .highest 10 [⟨.objectName, lit⟩] := by
  refine ⟨by simp, fun _ => rfl, by decide, fun _ _ _ hrest =>
    leads_of_operand fun _ => .no hrest.noCall (.done ?_)⟩
  simp [Same, hm.of]

theorem reads_new {type : Name} :
    Reads ν (.new m type) .highest 10 [⟨.new, lit⟩, ⟨.typeName, type⟩] := by
  refine ⟨by simp, fun _ => rfl, by decide, fun _ _ _ _ =>
    leads_of_operand fun _ => .accept fun _ => .done ?_⟩
  simp [Same, hm.of]

theorem reads_cond {c t f : Expr} {cs ts fs : List Spelling} (hc : Closed (Same ν c) cs)
    (ht : Closed (Same ν t) ts) (hf : Closed (Same ν f) fs) : Reads ν (.cond m c t f) .highest 10
      (⟨.if, lit⟩ :: (cs ++ ⟨.then, "then"⟩ :: (ts ++ ⟨.else, "else"⟩ ::
        (fs ++ [⟨.fi, "fi"⟩])))) := by
  refine ⟨by simp [hc.plain, ht.plain, hf.plain], fun _ => rfl, by decide, fun _ _ _ _ =>
    leads_of_operand fun _ => ?_⟩
  simp only [append_assoc, cons_append, nil_append]
  refine .call (hc.yields rfl) fun c' hc' => .accept fun _ => .call (ht.yields rfl) fun t' ht' =>
    .accept fun _ => .call (hf.yields rfl) fun f' hf' => .accept fun _ => .done ?_
  simp [Same, hm.of, hc', ht', hf']

theorem reads_loop {c b : Expr} {cs bs : List Spelling} (hc : Closed (Same ν c) cs)
    (hb : Closed (Same ν b) bs) : Reads ν (.loop m c b) .highest 10
      (⟨.while, lit⟩ :: (cs ++ ⟨.loop, "loop"⟩ :: (bs ++ [⟨.pool, "pool"⟩]))) := by
  refine ⟨by simp [hc.plain, hb.plain], fun _ => rfl, by decide, fun _ _ _ _ =>
    leads_of_operand fun _ => ?_⟩
  simp only [append_assoc, cons_append, nil_append]
  refine .call (hc.yields rfl) fun c' hc' => .accept fun _ => .call (hb.yields rfl) fun b' hb' =>
    .accept fun _ => .done ?_
  simp [Same, hm.of, hc', hb']

theorem reads_block {es : List Expr} (hne : es ≠ []) (hes : ClosedAll ν es wss) :
    Reads ν (.block m es) .highest 10 (⟨.openBrace, lit⟩ ::
      (wss.flatMap (· ++ [⟨.semicolon, ";"⟩]) ++ [⟨.closeBrace, "\x7d"⟩])) := by
  refine ⟨by simp [plain_flatMap hes.plain], fun _ => rfl, by decide, fun _ _ _ _ =>
    leads_of_operand fun _ => ?_⟩
  rw [append_assoc]
  refine .call (yields_items hes) fun as has => .no ?_ (.done (by simp [Same, hm.of, has]))
  rintro rfl
  cases es with
  | nil => exact hne rfl
  | cons _ _ => cases has

theorem reads_typeCase {bs : List (Declared Expr)} (he : Closed (Same ν e) ws) (hne : bs ≠ [])
    (hbs : Forall₂ (BranchWords ν) bs wss) : Reads ν (.typeCase m e bs) .highest 10
      (⟨.case, lit⟩ :: (ws ++ ⟨.of, "of"⟩ ::
        (wss.flatMap (· ++ [⟨.semicolon, ";"⟩]) ++ [⟨.esac, "esac"⟩]))) := by
  have hplain := plain_flatMap (plain_of_forall₂ (fun _ _ => BranchWords.plain) hbs)
  refine ⟨by simp [he.plain, hplain], fun _ => rfl, by decide, fun _ _ _ _ =>
    leads_of_operand fun _ => ?_⟩
  simp only [append_assoc, cons_append, nil_append]
  refine .call (he.yields rfl) fun e' he' => .accept fun _ => .call (yields_branches hbs)
    fun found hfound => .no ?_ (.done (by simp [Same, hm.of, he', hfound]))
  intro hnil
  rw [hnil] at hfound
  cases bs with
  | nil => exact hne rfl
  | cons _ _ => cases hfound

theorem reads_letIn {b : Declared Expr} {bs : List (Declared Expr)} {vs : List Spelling}
    (hb : BindingWords ν b vs) (hbs : Forall₂ (BindingWords ν) bs wss) (he : Reads ν e r n ws) :
    Reads ν (.letIn m (b :: bs) e) p 1
      (⟨.let, lit⟩ :: (commaSeparated (vs :: wss) ++ ⟨.in, "in"⟩ :: ws)) := by
  have hplain := plain_commaSeparated
    (plain_of_forall₂ (R := BindingWords ν) (fun _ _ h => h.plain) (.cons hb hbs))
  refine ⟨by simp [hplain, he.plain], fun _ => rfl, by decide, fun _ rest _ hrest =>
    leads_of_operand fun _ => ?_⟩
  simp only [append_assoc, cons_append]
  have hbody := he.leads .lowest rest (fits_lowest _) (hrest.mono he.positive)
  refine .call (yields_bindings hb hbs) fun cs hcs => .accept fun _ =>
    .call (hbody.yields hrest.loose) fun e' he' => .done ?_
  simp [Same, hm.of, hcs, he']

/-- An assignment is only read where nothing tighter is asked for, so its value may be
another one. -/
theorem reads_assign {m' : Mark} {x : Name} (hm' : Marks ν x m') (he : Reads ν e r n ws) :
    Reads ν (.assign m ⟨m', x⟩ e) .assign 1 (⟨.objectName, x⟩ :: ⟨.assign, lit⟩ :: ws) := by
  refine ⟨by simp [he.plain], fun _ => rfl, by decide,
    fun level rest hfits hrest P last hlast => ?_⟩
  have hlevel : level.rank < Rung.assign.height := by
    rcases hfits.tight with rfl | hlt
    · decide
    · exact hlt
  have hvalue := he.leads .lowest rest (fits_lowest _) (hrest.mono he.positive)
  refine yields_of_body fun place => .call (Q := (· = .object (markOf ⟨.objectName, x, place⟩) x))
    (yields_of_body (.no nofun (.done rfl))) ?_
  rintro _ rfl
  refine .call (yields_of_body (.yes hlevel fun _ => .call (hvalue.yields hrest.loose)
    fun r' hr' => .call (hlast _ ?_) fun _ hv => .done hv)) fun _ hv => .done hv
  simp [Same, hm.of, hm'.of, hr']

theorem reads_operator (build : Mark → Expr → Expr) (inner : Level) {kind : Token.Kind}
    (hbody : ∀ t : Token, t.kind = kind →
      (Routine.operand t).body = Steps.map (.expr inner) (build (markOf t)))
    (hbuild : ∀ m e, (build m e).remarked ν = build (ν m) (e.remarked ν))
    (hinner : inner.rank < Rung.dispatch.height)
    (hkind : Ordinary ⟨kind, lit⟩ ∧ opens kind = true) (he : Reads ν e r k ws)
    (hr : inner.rank < r.height) :
    Reads ν (build m e) p (min inner.rank k) (⟨kind, lit⟩ :: ws) := by
  have hpositive : 0 < inner.rank := by cases inner <;> decide
  refine ⟨by simpa [he.plain] using hkind.1, fun _ => hkind.2, Nat.lt_min.mpr
    ⟨hpositive, he.positive⟩, fun level rest _ hrest => leads_of_operand fun place => ?_⟩
  rw [hbody _ rfl]
  refine .call (he.above hr hinner ⟨Nat.min_le_left _ _, Nat.min_le_right _ _⟩ hrest)
    fun e' he' => .done ?_
  rw [Same, hbuild, hbuild, hm.of, he']

theorem reads_negate (he : Reads ν e r k ws) (hr : Rung.negate.height < r.height) :
    Reads ν (.negate m e) p (min 8 k) (⟨.tilde, lit⟩ :: ws) :=
  reads_operator hm .negate .negate (fun t ht => by rw [Routine.body, ht]) (fun _ _ => rfl)
    (by decide) (by simp [opens]) he hr

theorem reads_complement (he : Reads ν e r k ws) (hr : Rung.complement.height < r.height) :
    Reads ν (.complement m e) p (min 3 k) (⟨.not, lit⟩ :: ws) :=
  reads_operator hm .complement .complement (fun t ht => by rw [Routine.body, ht])
    (fun _ _ => rfl) (by decide) (by simp [opens]) he hr

theorem reads_isVoid (he : Reads ν e r k ws) (hr : Rung.isVoid.height < r.height) :
    Reads ν (.isVoid m e) p (min 7 k) (⟨.isvoid, lit⟩ :: ws) :=
  reads_operator hm .isVoid .isVoid (fun t ht => by rw [Routine.body, ht]) (fun _ _ => rfl)
    (by decide) (by simp [opens]) he hr

section

variable {f : Name} {args : List Expr} (hargs : ClosedAll ν args wss)
include hargs

theorem reads_selfCall {m' : Mark} (hm' : Marks ν lit m') :
    Reads ν (.dispatch m (.object m' Name.self) none lit args) .highest 10
      (⟨.objectName, lit⟩ :: ⟨.openParen, "("⟩ ::
        (commaSeparated wss ++ [⟨.closeParen, ")"⟩])) := by
  have hplain := plain_commaSeparated hargs.plain
  refine ⟨by simp [hplain], fun _ => rfl, by decide, fun _ _ _ _ => leads_of_operand fun _ => ?_⟩
  simp only [append_assoc, cons_append, nil_append]
  refine .yes rfl (.accept fun _ => .call (yields_arguments hargs) fun as has => .done ?_)
  simp [Same, hm.of, (hm' 0).symm.trans (hm 0), has]

section

variable (he : Reads ν e r k ws) (hr : Rung.dispatch.height ≤ r.height) (hk : 10 ≤ k)
include he hr hk

theorem reads_call : Reads ν (.dispatch m e none f args) .highest 10
    (ws ++ ⟨.dot, lit⟩ :: ⟨.objectName, f⟩ :: ⟨.openParen, "("⟩ ::
      (commaSeparated wss ++ [⟨.closeParen, ")"⟩])) := by
  have hplain := plain_commaSeparated hargs.plain
  refine ⟨by simp [he.plain, hplain], fun _ => append_assoc _ _ _ ▸ he.opens _, by decide,
    fun level rest hfits _ P last hlast => ?_⟩
  simp only [append_assoc, cons_append, nil_append]
  refine he.receiver hr hk hfits .dot nofun P last fun e' he' =>
    yields_of_body (.yes (Nat.lt_succ_of_lt hfits.below) fun _ => .accept fun _ => .accept fun _ =>
    .call (yields_arguments hargs) fun as has => .call (hlast _ ?_) fun _ hv => .done hv)
  simp [Same, hm.of, he', has]

theorem reads_staticCall {type : Name} : Reads ν (.dispatch m e (some type) f args) .highest 10
    (ws ++ ⟨.at, lit⟩ :: ⟨.typeName, type⟩ :: ⟨.dot, "."⟩ :: ⟨.objectName, f⟩ ::
      ⟨.openParen, "("⟩ :: (commaSeparated wss ++ [⟨.closeParen, ")"⟩])) := by
  have hplain := plain_commaSeparated hargs.plain
  refine ⟨by simp [he.plain, hplain], fun _ => append_assoc _ _ _ ▸ he.opens _, by decide,
    fun level rest hfits _ P last hlast => ?_⟩
  simp only [append_assoc, cons_append, nil_append]
  refine he.receiver hr hk hfits .at nofun P last fun e' he' =>
    yields_of_body (.yes hfits.below fun _ => .accept fun _ => .accept fun _ => .accept fun _ =>
    .accept fun _ => .call (yields_arguments hargs) fun as has => .call (hlast _ ?_)
    fun _ hv => .done hv)
  simp [Same, hm.of, he', has]

end

end

end

theorem reads_binary {op : Operator} {l r : Expr} {p q : Rung} {us vs : List Spelling}
    (hm : Marks ν op.symbol m) (hop : ∀ symbol, op ≠ .other symbol) (hl : Reads ν l p n us)
    (hp : op.rung.height ≤ p.height ∧ op.rung.height ≤ n) (hr : Reads ν r q k vs)
    (hq : op.rung.height < q.height) :
    Reads ν (.binary m op l r) op.rung (min (reach op.rung) k)
      (us ++ ⟨op.kind, op.symbol⟩ :: vs) := by
  have hrank : (Level.ofKind op.kind).rank = op.rung.height ∧ 1 < op.rung.height ∧
      op.rung.height < Rung.dispatch.height ∧ Ordinary ⟨op.kind, op.symbol⟩ ∧
      op.kind ≠ .openParen ∧ 0 < reach op.rung ∧ reach op.rung ≤ op.rung.height := by
    cases op with
    | other symbol => exact absurd rfl (hop symbol)
    | _ => simp; decide
  obtain ⟨hrank, hlow, hhigh, hordinary, hkind, hreach, htop⟩ := hrank
  refine ⟨plain_append.mpr ⟨hl.plain, plain_cons.mpr ⟨hordinary, hr.plain⟩⟩,
    fun _ => append_assoc _ _ _ ▸ hl.opens _, Nat.lt_min.mpr ⟨hreach, hr.positive⟩,
    fun level rest hfits hrest P last hlast => ?_⟩
  have hlevel : level.rank < op.rung.height := by
    rcases hfits.tight with rfl | hlt
    · exact hlow
    · exact hlt
  rw [append_assoc, cons_append]
  have hfollows : Follows n (⟨op.kind, op.symbol⟩ :: (vs ++ rest)) :=
    ⟨Nat.le_trans (Nat.le_of_eq hrank) hp.2, hkind⟩
  refine hl.leads level _ ⟨hfits.below, .inr (by omega)⟩ hfollows P last fun l' hl' =>
    yields_of_body (.yes (Nat.lt_of_lt_of_eq hlevel hrank.symm) fun place => ?_)
  have hright : Yields (.expr (Level.ofKind op.kind)) (vs ++ rest) (Same ν r) rest :=
    hr.above (by omega) (by omega) (by omega) hrest
  have hchain : ¬ (Level.ofKind op.kind = .compare ∧ Level.ofKind (frontKind rest) = .compare) := by
    rintro ⟨hcompare, hnext⟩
    have hloose := Nat.le_trans hrest.loose (Nat.min_le_left _ _)
    rw [hnext] at hloose
    cases op with
    | other symbol => exact hop symbol rfl
    | less | lessEq | equal => exact absurd hloose (by decide)
    | _ => cases hcompare
  have hsymbol : Operator.ofSymbol op.symbol = op := by
    cases op with
    | other symbol => exact absurd rfl (hop symbol)
    | _ => decide
  have hstep : (Steps.call (.expr (Level.ofKind op.kind)) fun right =>
      .look (fun kind => Level.ofKind op.kind = .compare ∧ Level.ofKind kind = .compare)
        (.reject .chainedComparison)
        (.call (.operators level (.binary (markOf ⟨op.kind, op.symbol, place⟩)
          (Operator.ofSymbol op.symbol) l' right)) .done)).Succeed P last (vs ++ rest) := by
    refine .call hright fun r' hr' => .no hchain (.call (hlast _ ?_) fun _ hv => .done hv)
    simp [Same, hm.of, hsymbol, hl', hr']
  cases op with
  | other symbol => exact absurd rfl (hop symbol)
  | _ => exact hstep

end Constructs

end CoolCompiler.Grammar
