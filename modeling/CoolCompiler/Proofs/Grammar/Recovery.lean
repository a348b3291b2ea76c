import CoolCompiler.Proofs.Grammar.Derivation

/-!
# Recovery

A program is cut before each class keyword.  What is read from a segment is the same whatever
comes after it, and a segment that is not a class is reported.  Reading goes on at the next
keyword, unless the segment broke off where a name or an expression was due: then that keyword
has been taken for it, and the segment that it begins is passed over.
-/

namespace CoolCompiler.Grammar

open List

structure Stream.Shows (s : Stream) (ts : List Token) : Prop where
  tokens : s.words.map Word.token = ts
  last : s.last.token.kind = .endOfText

/-- Where a class begins or the text ends. -/
def Border (us : List Token) : Prop := ∀ t ∈ us.head?, t.kind = .class

/-- Two streams that go on with the same tokens, none of which begins a class, and then with
`us` and with `us'`. -/
def Beside (us us' : List Token) (s s' : Stream) : Prop :=
  ∃ ts, (∀ t ∈ ts, t.kind ≠ .class) ∧ s.Shows (ts ++ us) ∧ s'.Shows (ts ++ us')

section Streams

variable {s : Stream} {t : Token} {ts us : List Token}

theorem Stream.Shows.cons (h : s.Shows (t :: ts)) :
    s.words ≠ [] ∧ s.head = t ∧ s.advance.Shows ts := by
  obtain ⟨htokens, hlast⟩ := h
  cases hs : s.words with
  | nil =>
    rw [hs] at htokens
    cases htokens
  | cons w ws =>
    rw [hs] at htokens
    obtain ⟨rfl, rfl⟩ := List.cons.inj htokens
    rw [Stream.head, Stream.advance, hs]
    exact ⟨cons_ne_nil _ _, rfl, rfl, hlast⟩

theorem Stream.Shows.nil (h : s.Shows []) : s.words = [] ∧ s.head.kind = .endOfText := by
  have hs : s.words = [] := map_eq_nil_iff.mp h.tokens
  rw [Stream.head, hs]
  exact ⟨rfl, h.last⟩

theorem Stream.Shows.kind (h : s.Shows us) (hus : Border us) :
    s.head.kind = .class ∨ s.head.kind = .endOfText := by
  cases us with
  | nil => exact .inr h.nil.2
  | cons t us => exact .inl (h.cons.2.1 ▸ hus t rfl)

theorem Stream.Shows.skipTo (h : s.Shows (ts ++ us)) (hts : ∀ t ∈ ts, t.kind ≠ .class)
    (hus : Border us) : (s.skipTo .class).Shows us := by
  induction ts generalizing s with
  | nil =>
    rw [Stream.skipTo]
    cases us with
    | nil => rwa [dif_pos h.nil.1]
    | cons t us =>
      have hkind := h.cons.2.1 ▸ hus t rfl
      rwa [dif_neg h.cons.1, if_pos hkind]
  | cons t ts ih =>
    rw [forall_mem_cons] at hts
    obtain ⟨hne, rfl, hrest⟩ := h.cons
    rw [Stream.skipTo, dif_neg hne, if_neg hts.1]
    exact ih hrest hts.2

end Streams

def Reading.value? {α : Type} {s : Stream} : Reading α s → Option α
  | .ok value _ _ => some value
  | .failed _ _ => none

/-- Readings with the same value that leave streams side by side; when they fail, both may have
taken the token at the border.  The first takes tokens or makes a report. -/
structure Alike (us us' : List Token) {α : Type} {s s' : Stream} (r : Reading α s)
    (r' : Reading α s') : Prop where
  value : r.value? = r'.value?
  rest : Beside us us' r.rest r'.rest ∨
    r.value? = none ∧ r.rest.Shows us.tail ∧ r'.rest.Shows us'.tail
  taken : ∀ v ∈ r.value?, ∃ ts, s.Takes ts r.rest
  reported : r.value? = none → r.rest.reports ≠ []

theorem Alike.from_ {us us' ts : List Token} {α : Type} {s s' t t' : Stream} {r : Reading α t}
    {r' : Reading α t'} (h : Alike us us' r r') (hts : s.Takes ts t) (hle : t.size ≤ s.size)
    (hle' : t'.size ≤ s'.size) :
    Alike us us' (r.from_ hle : Reading α s) (r'.from_ hle' : Reading α s') := by
  cases r with
  | ok v rest le =>
    obtain ⟨vs, hvs⟩ := h.taken v rfl
    cases r' <;> exact ⟨h.value, h.rest, fun _ _ => ⟨_, hts.trans hvs⟩, nofun⟩
  | failed rest le => cases r' <;> exact ⟨h.value, h.rest, nofun, h.reported⟩

/-!
# Steps at a border
-/

namespace Steps

variable {α β : Type} {K : Token.Kind → Prop}

/-- Steps that fail with a report and leave the given tokens. -/
def Fails (steps : Steps α) (s : Stream) (us : List Token) : Prop :=
  ∃ rest le, steps.run read s = .failed rest le ∧ rest.Shows us ∧ rest.reports ≠ []

def Refuses (steps : Steps α) : Prop := ∀ s us, s.Shows us → steps.Fails s us

/-- Steps that fail at a border, where they take the keyword if there is one. -/
def Stuck (steps : Steps α) : Prop := ∀ s us, s.Shows us → Border us → steps.Fails s us.tail

theorem refuses_refuse (report : Token → Report) : (refuse report : Steps α).Refuses :=
  fun _ _ hs => ⟨_, _, rfl, ⟨hs.tokens, hs.last⟩, by simp [Stream.report]⟩

theorem fails_call {r : Routine β} {next : β → Steps α} {s : Stream} {us : List Token}
    (h : r.body.Fails s us) : (call r next).Fails s us := by
  obtain ⟨rest, le, hrun, hrest⟩ := h
  rw [← read_eq_run] at hrun
  exact ⟨rest, le, by rw [run, hrun]; rfl, hrest⟩

theorem stuck_take {report : Token → Report} {next : Token → Steps α}
    (h : ∀ t, t.kind = .class → (next t).Refuses) : (take (.refuse report) next).Stuck := by
  intro s us hs hus
  unfold Fails run Stream.withToken
  cases us with
  | nil =>
    rw [dif_pos hs.nil.1]
    exact refuses_refuse report s [] hs
  | cons t us =>
    obtain ⟨hne, rfl, hnext⟩ := hs.cons
    rw [dif_neg hne]
    obtain ⟨rest, le, hrun, hrest⟩ := h _ (hus _ rfl) _ us hnext
    refine ⟨rest, Nat.le_trans le (Stream.size_advance_le s), ?_, hrest⟩
    simp only [hrun]
    rfl

theorem refuses_named {t : Token} (ht : t.kind = .class) {yes : Steps α}
    {report : Token → Report} :
    (look (fun _ => t.kind = .objectName) yes (.refuse report)).Refuses := by
  intro s us hs
  unfold Fails run
  rw [if_neg (by simp [ht])]
  exact refuses_refuse report s us hs

theorem stuck_expr (level : Level) : (Routine.expr level).body.Stuck := by
  refine stuck_take fun t ht s us hs => fails_call ?_
  rw [Routine.body, ht]
  exact refuses_refuse _ s us hs

/-- At a border the steps go the same way for a keyword as for the end, or fail, if `K` holds of
the token in front. -/
def Settled : Steps α → (Token.Kind → Prop) → Prop
  | .done _, _ => True
  | .refuse _, _ => True
  | @look _ test _ yes no, K =>
    yes.Settled (fun kind => K kind ∧ test kind) ∧ no.Settled (fun kind => K kind ∧ ¬ test kind) ∧
      ((test .class ↔ test .endOfText) ∨ (look test yes no).Stuck)
  | .take atEnd next, K => (K .class ∨ K .endOfText → (take atEnd next).Stuck) ∧
    ∀ t, (next t).Settled fun _ => True
  | .call _ next, _ => ∀ value, (next value).Settled fun _ => True

theorem Settled.alike {us us' : List Token} (hus : Border us) (hus' : Border us')
    {P : ∀ ⦃β : Type⦄, Routine β → Stream → Prop} {steps : Steps α} {s s' : Stream}
    (h : steps.Settled K) (hcalls : steps.EveryCall read P s)
    (hP : ∀ ⦃β : Type⦄ (r : Routine β) t t', P r t → Beside us us' t t' →
      Alike us us' (read r t) (read r t'))
    (hK : K s.head.kind ∧ K s'.head.kind) (hs : Beside us us' s s') :
    Alike us us' (steps.run read s) (steps.run read s') := by
  have stuck : ∀ {steps : Steps α} {s s' : Stream}, steps.Stuck → s.Shows us → s'.Shows us' →
      Alike us us' (steps.run read s) (steps.run read s') := by
    intro steps s s' hstuck hleft hright
    obtain ⟨rest, _, hrun, hrest, hreports⟩ := hstuck s us hleft hus
    obtain ⟨rest', _, hrun', hrest', _⟩ := hstuck s' us' hright hus'
    rw [hrun, hrun']
    exact ⟨rfl, .inr ⟨rfl, hrest, hrest'⟩, fun v h => absurd h (Option.not_mem_none v),
      fun _ => hreports⟩
  induction steps generalizing s s' K with
  | done value =>
    exact ⟨rfl, .inl hs, fun _ _ => ⟨[], .nothing s⟩, (absurd · (Option.some_ne_none _))⟩
  | refuse report =>
    obtain ⟨ts, hts, hleft, hright⟩ := hs
    refine ⟨rfl, .inl ⟨ts, hts, ⟨hleft.tokens, hleft.last⟩, hright.tokens, hright.last⟩,
      fun v h => absurd h (Option.not_mem_none v), ?_⟩
    simp [run, Stream.refuse, Reading.rest, Stream.report]
  | look test yes no ihyes ihno =>
    have hside := hs
    obtain ⟨ts, hts, hleft, hright⟩ := hs
    -- away from the border both streams have the same token in front
    have hagree : (test s.head.kind ↔ test s'.head.kind) ∨
        (look test yes no).Stuck ∧ s.Shows us ∧ s'.Shows us' := by
      cases ts with
      | nil =>
        refine h.2.2.imp (fun hsame => ?_) fun hstuck => ⟨hstuck, hleft, hright⟩
        rcases hleft.kind hus with hk | hk <;> rcases hright.kind hus' with hk' | hk' <;>
          simp only [hk, hk', hsame]
      | cons t ts => exact .inl (by rw [hleft.cons.2.1, hright.cons.2.1])
    rcases hagree with hsame | ⟨hstuck, hleft, hright⟩
    · unfold EveryCall at hcalls
      unfold run
      split at hcalls
      · rename_i hyes
        rw [if_pos hyes, if_pos (hsame.mp hyes)]
        exact ihyes h.1 hcalls ⟨⟨hK.1, hyes⟩, hK.2, hsame.mp hyes⟩ hside
      · rename_i hno
        have hno' := mt hsame.mpr hno
        rw [if_neg hno, if_neg hno']
        exact ihno h.2.1 hcalls ⟨⟨hK.1, hno⟩, hK.2, hno'⟩ hside
    · exact stuck hstuck hleft hright
  | take atEnd next _ ih =>
    obtain ⟨ts, hts, hleft, hright⟩ := hs
    cases ts with
    | nil =>
      refine stuck (h.1 ?_) hleft hright
      rcases hleft.kind hus with hk | hk
      · exact .inl (hk ▸ hK.1)
      · exact .inr (hk ▸ hK.1)
    | cons t ts =>
      obtain ⟨hne, rfl, hrest⟩ := hleft.cons
      obtain ⟨hne', hhead, hrest'⟩ := hright.cons
      unfold EveryCall at hcalls
      rw [if_neg hne] at hcalls
      unfold run Stream.withToken
      rw [dif_neg hne, dif_neg hne', hhead]
      have hnext := ih s.head (h.2 _) hcalls ⟨trivial, trivial⟩
        ⟨ts, (forall_mem_cons.mp hts).2, hrest, hrest'⟩
      exact hnext.from_ (.token hne (.nothing _)) _ _
  | call r next ih =>
    have hfirst := hP r s s' hcalls.1 hs
    unfold run
    cases hread : read r s with
    | ok v rest le =>
      rw [hread] at hfirst
      cases hread' : read r s' with
      | ok v' rest' le' =>
        rw [hread'] at hfirst
        obtain rfl : v = v' := Option.some.inj hfirst.value
        obtain ⟨ts, hts⟩ := hfirst.taken v rfl
        have hside : Beside us us' rest rest' :=
          hfirst.rest.resolve_right fun hnone => Option.some_ne_none _ hnone.1
        exact (ih v (h v) (hcalls.2 _ _ _ hread) ⟨trivial, trivial⟩ hside).from_ hts le le'
      | failed rest' le' =>
        rw [hread'] at hfirst
        cases hfirst.value
    | failed rest le =>
      rw [hread] at hfirst
      cases hread' : read r s' with
      | ok v' rest' le' =>
        rw [hread'] at hfirst
        cases hfirst.value
      | failed rest' le' =>
        rw [hread'] at hfirst
        exact ⟨rfl, hfirst.rest.imp id fun h => ⟨rfl, h.2⟩,
          fun v h => absurd h (Option.not_mem_none v), fun _ => hfirst.reported rfl⟩

end Steps

open Steps

theorem settled_body {α : Type} (r : Routine α) : r.body.Settled fun _ => True := by
  cases r with
  | expr level => exact ⟨fun _ => stuck_expr level, fun _ _ _ => trivial⟩
  | operand t =>
    rw [Routine.body]
    split <;> simp [Settled, accept, Steps.map, reject]
  | operators level left =>
    refine ⟨⟨fun h => ?_, fun t => ?_⟩, trivial, .inl Iff.rfl⟩
    · rcases h with h | h <;> cases level <;> simp [Level.ofKind, Level.rank] at h
    · dsimp only
      cases Level.ofKind t.kind with
      | assign => cases nameOf? left <;> simp [Settled]
      | _ => simp [Settled, accept, reject, Level.ofKind]
  | items =>
    simp [Routine.body, Settled, accept, Steps.map, reject]
    intro s us hs hus
    unfold Fails run
    cases us with
    | nil =>
      rw [if_pos hs.nil.2]
      exact refuses_refuse _ s [] hs
    | cons t us =>
      rw [if_neg (by rw [hs.cons.2.1, hus t rfl]; decide)]
      exact fails_call (stuck_expr _ s _ hs hus)
  | branches =>
    simp [Routine.body, Settled, accept, Steps.map, reject]
    exact stuck_take fun t ht => refuses_named ht
  | formal =>
    simp [Routine.body, Settled, accept, reject]
    exact stuck_take fun t ht => refuses_named ht
  | features =>
    simp [Routine.body, Settled, accept, Steps.map, reject]
    refine stuck_take fun t ht s us hs => fails_call ?_
    unfold Routine.body Fails run
    split
    all_goals exact fails_call (refuses_named ht s us hs)
  | _ => simp [Routine.body, Settled, accept, Steps.map, reject]

theorem read_alike {us us' : List Token} (hus : Border us) (hus' : Border us') {α : Type}
    (r : Routine α) (s s' : Stream) (hs : Beside us us' s s') :
    Alike us us' (read r s) (read r s') := by
  rw [read_eq_run, read_eq_run r s']
  exact (settled_body r).alike hus hus' (calls_below read r s)
    (fun β r' t t' hbelow h => read_alike hus hus' r' t t' h) ⟨trivial, trivial⟩ hs
termination_by (s.size, r.rank)
decreasing_by exact Prod.lex_def.mpr hbelow

/-!
# Segments
-/

/-- A class keyword and the tokens before the next one. -/
structure Segment where
  keyword : Token
  body : List Token
  opens : keyword.kind = .class
  inner : ∀ t ∈ body, t.kind ≠ .class ∧ t.kind ≠ .endOfText

namespace Segment

variable (file : Text) (last : Token) (g : Segment)

def tokens : List Token := g.keyword :: g.body

def Declares (c : Class) : Prop := program file (g.tokens ++ [last]) = ⟨[c], []⟩

/-- Reading the segment takes the keyword after it: it breaks off where a name or an expression
is due. -/
def overruns : Bool :=
  (classDecl file g.keyword
    (Stream.ofTokens (g.tokens ++ [g.keyword, last])).advance).rest.words.isEmpty

def resume (gs : List Segment) : List Segment := if g.overruns file last then gs.tail else gs

def inside : List Token := g.body.filter fun t => t.kind != .error

def words : List Token := g.keyword :: g.inside

variable {g}

theorem inside_ne : ∀ t ∈ g.inside, t.kind ≠ .class :=
  fun t ht => (g.inner t (mem_filter.mp ht).1).1

theorem tokens_ne : ∀ t ∈ g.tokens, t.kind ≠ .endOfText :=
  forall_mem_cons.mpr ⟨by rw [g.opens]; decide, fun t ht => (g.inner t ht).2⟩

@[simp] theorem filter_tokens : (g.tokens.filter fun t => t.kind != .error) = g.words :=
  filter_cons_of_pos (by rw [g.opens]; decide)

end Segment

/-- The segments that are read as classes: the one after a segment that overruns is not. -/
def visible (file : Text) (last : Token) : List Segment → List Segment
  | [] => []
  | g :: gs => g :: visible file last (g.resume file last gs)
termination_by gs => gs.length
decreasing_by grind [Segment.resume]

section Segments

variable {s : Stream} {t last : Token} {ts us front : List Token} {g : Segment}
  {gs : List Segment} (file : Text)

theorem last_wordsOf (pending tokens : List Token) :
    (Stream.wordsOf pending tokens).2.token.kind = .endOfText := by
  fun_induction Stream.wordsOf pending tokens <;> simp_all

theorem border_segments (gs : List Segment) : Border (gs.flatMap Segment.words) := by
  cases gs with
  | nil => exact nofun
  | cons g gs => simpa [Border, Segment.words] using g.opens

theorem classes_program (tokens : List Token) :
    (program file tokens).classes = (classes file (Stream.ofTokens tokens)).1 := by
  simp only [program]
  split <;> rfl

theorem classes_after (hs : s.Shows (ts ++ us)) (hts : ∀ t ∈ ts, t.kind ≠ .class)
    (hus : Border us) : ∃ u : Stream, u.Shows us ∧ classes file s = classes file u ∧
      (u.reports = [] → ts = [] ∧ u = s) := by
  cases ts with
  | nil => exact ⟨s, hs, rfl, fun _ => ⟨rfl, rfl⟩⟩
  | cons t ts =>
    rw [forall_mem_cons] at hts
    obtain ⟨hne, rfl, hrest⟩ := hs.cons
    refine ⟨_, ?_, classes_failed hne (if_neg hts.1), fun hquiet => ?_⟩
    · exact Stream.Shows.skipTo ⟨hrest.tokens, hrest.last⟩ hts.2 hus
    · have hnone := reports_skipTo hquiet
      simp [Stream.report] at hnone

theorem classes_read (hs : s.Shows (t :: front))
    (hrest : (classDecl file t s.advance).rest.Shows (ts ++ us))
    (hreported : (classDecl file t s.advance).value? = none →
      (classDecl file t s.advance).rest.reports ≠ [])
    (hts : ∀ t ∈ ts, t.kind ≠ .class) (hus : Border us) : ∃ u : Stream, u.Shows us ∧
      classes file s = ((classDecl file t s.advance).value?.toList ++ (classes file u).1,
        (classes file u).2) ∧
      (u.reports = [] → ts = [] ∧ u = (classDecl file t s.advance).rest ∧
        (classDecl file t s.advance).value? ≠ none) := by
  obtain ⟨hne, rfl, _⟩ := hs.cons
  cases hread : classDecl file s.head s.advance with
  | ok c rest le =>
    rw [hread, Reading.rest] at hrest
    obtain ⟨u, hu, hclasses, hquiet⟩ := classes_after file hrest hts hus
    refine ⟨u, hu, by rw [classes_ok hne hread, hclasses]; rfl, fun h => ?_⟩
    exact ⟨(hquiet h).1, (hquiet h).2, Option.some_ne_none c⟩
  | failed rest le =>
    rw [hread] at hrest hreported
    refine ⟨_, hrest.skipTo hts hus, by rw [classes_failed hne hread]; rfl, fun h => ?_⟩
    exact absurd (reports_skipTo h) (hreported rfl)

theorem alike_segment {s' : Stream} {us' : List Token} (hus : Border us) (hus' : Border us')
    (hs : s.Shows (g.words ++ us)) (hs' : s'.Shows (g.words ++ us')) :
    Alike us us' (classDecl file g.keyword s.advance) (classDecl file g.keyword s'.advance) :=
  read_alike hus hus' (.classDecl file g.keyword) _ _
    ⟨_, g.inside_ne, hs.cons.2.2, hs'.cons.2.2⟩

variable (hlast : last.kind = .endOfText)
include hlast

omit file in
theorem shows_segments (gs : List Segment) :
    (Stream.ofTokens (gs.flatMap Segment.tokens ++ [last])).Shows
      (gs.flatMap Segment.words) := by
  have hfront : ∀ t ∈ gs.flatMap Segment.tokens, t.kind ≠ .endOfText := by
    intro t ht
    obtain ⟨g, _, ht⟩ := mem_flatMap.mp ht
    exact Segment.tokens_ne t ht
  refine ⟨?_, last_wordsOf _ _⟩
  simpa only [filter_flatMap, Segment.filter_tokens] using map_token_ofTokens hlast hfront

def Segment.Whole (file : Text) (last : Token) (g : Segment) : Prop :=
  let r := classDecl file g.keyword (Stream.ofTokens (g.tokens ++ [last])).advance
  r.value? ≠ none ∧ r.rest.Shows []

theorem shows_alone : (Stream.ofTokens (g.tokens ++ [last])).Shows (g.words ++ []) := by
  simpa using shows_segments hlast [g]

theorem classes_alone (hus : Border us) (hs : s.Shows (g.words ++ us)) :
    (program file (g.tokens ++ [last])).classes =
      (classDecl file g.keyword s.advance).value?.toList := by
  have halone := shows_alone hlast (g := g)
  have hnil := border_segments []
  have hown := alike_segment file hnil hus halone hs
  obtain ⟨ts, hts, hrest⟩ : ∃ ts, (∀ t ∈ ts, t.kind ≠ .class) ∧ (classDecl file g.keyword
      (Stream.ofTokens (g.tokens ++ [last])).advance).rest.Shows (ts ++ []) :=
    hown.rest.elim (fun ⟨ts, hts, h, _⟩ => ⟨ts, hts, h⟩) fun h => ⟨[], nofun, h.2.1⟩
  obtain ⟨u, hu, hclasses, _⟩ := classes_read file halone hrest hown.reported hts hnil
  rw [classes_program, hclasses, classes_of_nil hu.nil.1, append_nil, hown.value]

theorem rest_segment (hus : Border us) (hs : s.Shows (g.words ++ us)) :
    (g.overruns file last = false ∧ ∃ ts, (∀ t ∈ ts, t.kind ≠ .class) ∧
      (classDecl file g.keyword s.advance).rest.Shows (ts ++ us)) ∨
    g.overruns file last = true ∧ (classDecl file g.keyword s.advance).value? = none ∧
      (classDecl file g.keyword s.advance).rest.Shows us.tail := by
  have hnext : (Stream.ofTokens (g.tokens ++ [g.keyword, last])).Shows
      (g.words ++ [g.keyword]) := by
    have h := shows_segments hlast [g, ⟨g.keyword, [], g.opens, nofun⟩]
    simpa [Segment.words, Segment.inside, Segment.tokens] using h
  have hborder : Border [g.keyword] := by simpa [Border] using g.opens
  rcases (alike_segment file hus hborder hs hnext).rest with
    ⟨ts, hts, hleft, hright⟩ | ⟨hnone, hleft, hright⟩
  · refine .inl ⟨eq_false_of_ne_true fun hempty => ?_, ts, hts, hleft⟩
    have htokens := hright.tokens
    rw [isEmpty_iff.mp hempty] at htokens
    simp at htokens
  · exact .inr ⟨isEmpty_iff.mpr hright.nil.1, hnone, hleft⟩

theorem classes_segment (hs : s.Shows ((g :: gs).flatMap Segment.words)) :
    ∃ u : Stream, u.Shows ((g.resume file last gs).flatMap Segment.words) ∧
      classes file s = ((program file (g.tokens ++ [last])).classes ++ (classes file u).1,
        (classes file u).2) ∧
      (u.reports = [] → g.resume file last gs = gs ∧ (∃ ts, s.Takes ts u) ∧
        g.Whole file last) := by
  have hus := border_segments gs
  have hown := alike_segment file hus (border_segments []) hs (shows_alone hlast)
  rw [classes_alone file hlast hus hs, Segment.resume]
  rcases rest_segment file hlast hus hs with ⟨hstops, ts, hts, hrest⟩ | ⟨hover, hnone, hrest⟩
  · rw [hstops]
    obtain ⟨u, hu, hclasses, hquiet⟩ := classes_read file hs hrest hown.reported hts hus
    refine ⟨u, hu, hclasses, fun h => ⟨rfl, ?_⟩⟩
    obtain ⟨rfl, rfl, hvalue⟩ := hquiet h
    obtain ⟨c, hc⟩ := Option.ne_none_iff_exists'.mp hvalue
    obtain ⟨vs, hvs⟩ := hown.taken c hc
    obtain ⟨ts, _, hleft, hright⟩ := hown.rest.resolve_right fun h => hvalue h.1
    obtain rfl := self_eq_append_left.mp (hu.tokens.symm.trans hleft.tokens)
    refine ⟨⟨_, .token hs.cons.1 hvs⟩, hown.value ▸ hvalue, hright⟩
  · rw [hover]
    obtain ⟨ts, hts, htail⟩ : ∃ ts : List Token, (∀ t ∈ ts, t.kind ≠ .class) ∧
        (gs.flatMap Segment.words).tail = ts ++ gs.tail.flatMap Segment.words := by
      cases gs with
      | nil => exact ⟨[], nofun, rfl⟩
      | cons next gs => exact ⟨next.inside, next.inside_ne, rfl⟩
    rw [htail] at hrest
    obtain ⟨u, hu, hclasses, hquiet⟩ := classes_read file hs hrest hown.reported hts
      (border_segments _)
    exact ⟨u, hu, hclasses, fun h => absurd hnone (hquiet h).2.2⟩

theorem classes_visible (hs : s.Shows (gs.flatMap Segment.words)) :
    ((classes file s).1 = (visible file last gs).flatMap fun g =>
      (program file (g.tokens ++ [last])).classes) ∧
    ((classes file s).2.reports = [] → s.reports = [] ∧ (classes file s).2.words = [] ∧
      (∃ ts, s.Takes ts (classes file s).2) ∧ ∀ g ∈ gs, g.Whole file last) := by
  fun_induction visible file last gs generalizing s with
  | case1 =>
    rw [classes_of_nil hs.nil.1, flatMap_nil]
    exact ⟨rfl, fun h => ⟨h, hs.nil.1, ⟨[], .nothing s⟩, nofun⟩⟩
  | case2 g gs ih =>
    obtain ⟨u, hu, hclasses, hquiet⟩ := classes_segment file hlast hs
    rw [hclasses, flatMap_cons]
    refine ⟨congrArg _ (ih hu).1, fun hclean => ?_⟩
    obtain ⟨hreports, hwords, ⟨ts, hts⟩, hgs⟩ := (ih hu).2 hclean
    obtain ⟨hresume, ⟨vs, hvs⟩, hg⟩ := hquiet hreports
    rw [hresume] at hgs
    exact ⟨hvs.reports_eq_nil hreports, hwords, ⟨_, hvs.trans hts⟩, forall_mem_cons.mpr ⟨hg, hgs⟩⟩

theorem declares_of_whole (hg : g.Whole file last) (hgood : ∀ t ∈ g.tokens, t.kind ≠ .error) :
    ∃ c, g.Declares file last c := by
  have halone := shows_alone hlast (g := g)
  have htaken := (alike_segment file (border_segments []) (border_segments []) halone halone).taken
  obtain ⟨hvalue, hrest⟩ := hg
  obtain ⟨hne, hhead, _⟩ := halone.cons
  cases hread : classDecl file g.keyword (Stream.ofTokens (g.tokens ++ [last])).advance with
  | failed rest le =>
    rw [hread] at hvalue
    exact absurd rfl hvalue
  | ok c rest le =>
    rw [hread] at hrest htaken
    obtain ⟨ts, hts⟩ := htaken c rfl
    have haccounted := hts.accounted_eq
    rw [Stream.accounted_advance, accounted_ofTokens hlast g.tokens_ne,
      filter_eq_nil_iff.mpr fun t ht => by simpa using hgood t ht] at haccounted
    have hreports : rest.reports = [] := (append_eq_nil_iff.mp haccounted).1
    have hclasses := classes_ok hne (hhead ▸ hread)
    rw [classes_of_nil (s := rest) hrest.nil.1] at hclasses
    exact ⟨c, by simp [Segment.Declares, program, hclasses, hreports]⟩

end Segments

/-- The classes of a program are those that its visible segments declare alone, in their order.
A segment that is a class hides none, and one that is not makes a report. -/
theorem program_segments (file : Text) (segments : List Segment) {last : Token}
    (hlast : last.kind = .endOfText) :
    (program file (segments.flatMap Segment.tokens ++ [last])).classes =
      ((visible file last segments).flatMap fun g => (program file (g.tokens ++ [last])).classes) ∧
    (∀ g c, Segment.Declares file last g c → g.overruns file last = false) ∧
    ((∃ g ∈ segments, ∀ c, ¬ g.Declares file last c) →
      (program file (segments.flatMap Segment.tokens ++ [last])).reports ≠ []) := by
  obtain ⟨hclasses, hquiet⟩ := classes_visible file hlast (shows_segments hlast segments)
  refine ⟨(classes_program file _).trans hclasses, fun g c hc => ?_, fun ⟨g, hg, hnot⟩ hclean => ?_⟩
  · have halone := shows_alone hlast (g := g)
    have hnil := border_segments []
    rcases rest_segment file hlast hnil halone with h | ⟨_, hnone, _⟩
    · exact h.1
    · have hown := classes_alone file hlast hnil halone
      rw [hc, hnone] at hown
      cases hown
  · have hreports := (program_clean hclean).1
    obtain ⟨_, hwords, ⟨ts, hts⟩, hall⟩ := hquiet hreports
    have hfront : ∀ t ∈ segments.flatMap Segment.tokens, t.kind ≠ .endOfText := by
      intro t ht
      obtain ⟨g, _, ht⟩ := mem_flatMap.mp ht
      exact Segment.tokens_ne t ht
    have hgood := (eq_of_takes hlast hfront hts hwords hreports).2
    obtain ⟨c, hc⟩ := declares_of_whole file hlast (hall g hg) fun t ht =>
      hgood t (mem_flatMap.mpr ⟨g, hg, ht⟩)
    exact hnot c hc

def endToken : Token := ⟨.endOfText, [], .start⟩

def emptyClass : Segment where
  keyword := ⟨.class, "class", .start⟩
  body := [⟨.typeName, "B", .start⟩, ⟨.openBrace, "\x7b", .start⟩, ⟨.closeBrace, "\x7d", .start⟩,
    ⟨.semicolon, ";", .start⟩]
  opens := rfl
  inner := by decide

def openClass : Segment where
  keyword := ⟨.class, "class", .start⟩
  body := [⟨.typeName, "A", .start⟩, ⟨.openBrace, "\x7b", .start⟩]
  opens := rfl
  inner := by decide

theorem emptyClass_declares : ∃ c, emptyClass.Declares "main.cl" endToken c := by
  have hlength : (program "main.cl" (emptyClass.tokens ++ [endToken])).classes.length = 1 := by
    decide +kernel
  have hreports : (program "main.cl" (emptyClass.tokens ++ [endToken])).reports.isEmpty := by
    decide +kernel
  obtain ⟨c, hc⟩ := length_eq_one_iff.mp hlength
  exact ⟨c, by rw [Segment.Declares, ← hc, ← isEmpty_iff.mp hreports]⟩

theorem program_segments_open : endToken.kind = .endOfText ∧
    emptyClass.overruns "main.cl" endToken = false ∧ (program "main.cl"
      ([emptyClass, openClass].flatMap Segment.tokens ++ [endToken])).reports ≠ [] := by
  have hlast : endToken.kind = .endOfText := rfl
  obtain ⟨_, hstops, hreports⟩ := program_segments "main.cl" [emptyClass, openClass] hlast
  obtain ⟨c, hc⟩ := emptyClass_declares
  refine ⟨hlast, hstops _ c hc, hreports ⟨openClass, by simp, fun c hc => ?_⟩⟩
  have hnone : (program "main.cl" (openClass.tokens ++ [endToken])).classes.length = 0 := by
    decide +kernel
  rw [hc] at hnone
  cases hnone

/-- A class keyword where a feature is due is taken for one, and its class is lost. -/
theorem open_class_hides_next : (∃ c, emptyClass.Declares "main.cl" endToken c) ∧ (program "main.cl"
    ([openClass, emptyClass].flatMap Segment.tokens ++ [endToken])).classes.isEmpty :=
  ⟨emptyClass_declares, by decide +kernel⟩

end CoolCompiler.Grammar
