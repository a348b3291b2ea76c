import CoolCompiler.Proofs.Typing.Signatures

/-!
# Inherited expressions

An expression checked in one class is checked again in one below it.  Nothing new is found, and each
type is at most narrowed: where the first class stood for `SELF_TYPE`, now the second one does.
-/

namespace CoolCompiler.Typing

open List Inheritance Symbols

/-- Chains are made of the chains above, only classes that may be inherited from have others below,
and members are inherited as they are. -/
structure Coherent (s : Symbols) : Prop where
  rest : ∀ {x y : Name} {before after : List Name}, s.ancestors x = before ++ y :: after →
    s.ancestors y = y :: after
  root : s.ancestors Name.object = [Name.object]
  inheritable : ∀ {x y : Name}, y ∈ s.ancestors x → y = x ∨ Name.isInheritable y = true
  methods : ∀ {x y f : Name} {m : MethodSymbol}, y ∈ s.ancestors x → s.method? y f = some m →
    ∃ m', s.method? x f = some m' ∧ m'.signature = m.signature
  attributes : ∀ {x y v : Name} {a : AttributeSymbol}, y ∈ s.ancestors x →
    s.attribute? y v = some a → ∃ a', s.attribute? x v = some a' ∧ a'.type = a.type

namespace Coherent

variable {s : Symbols} {x y : Name}

theorem suffix (h : Coherent s) (hy : y ∈ s.ancestors x) : s.ancestors y <:+ s.ancestors x := by
  obtain ⟨before, after, hline⟩ := append_of_mem hy
  rw [h.rest hline, hline]
  exact suffix_append before (y :: after)

theorem mem_of_find? (h : Coherent s) {p : Name → Bool} {first : Name}
    (hfirst : (s.ancestors x).find? p = some first) (hy : y ∈ s.ancestors x) (hp : p y = true) :
    y ∈ s.ancestors first := by
  obtain ⟨_, before, after, hline, hbefore⟩ := find?_eq_some_iff_append.mp hfirst
  rw [h.rest hline]
  rw [hline, mem_append] at hy
  rcases hy with hy | hy
  · have hno := hbefore y hy
    rw [hp] at hno
    cases hno
  · exact hy

theorem rooted_iff (h : Coherent s) (hy : y ∈ s.ancestors x) :
    Name.object ∈ s.ancestors y ↔ Name.object ∈ s.ancestors x := by
  constructor
  · exact fun hroot => (h.suffix hy).subset hroot
  · intro hroot
    obtain ⟨before, after, hline⟩ := append_of_mem hy
    have hrest := h.rest hline
    have htop := h.suffix hroot
    rw [h.root] at htop
    rcases suffix_or_suffix_of_suffix htop (h.suffix hy) with hlast | hlast
    · exact hlast.subset (mem_singleton_self _)
    · rw [hrest] at hlast
      rw [hrest, cons_eq_cons.mp (hlast.eq_of_length_le (by simp)) |>.1]
      exact mem_cons_self

theorem eq_of_primitive (h : Coherent s) (hprimitive : isPrimitive y = true)
    (hy : y ∈ s.ancestors x) : y = x := by
  refine (h.inheritable hy).resolve_right ?_
  simp only [isPrimitive, Bool.or_eq_true, beq_iff_eq] at hprimitive
  rcases hprimitive with (rfl | rfl) | rfl <;> decide

theorem eq_of_selfType (h : Coherent s) (hy : Name.selfType ∈ s.ancestors x) :
    Name.selfType = x :=
  (h.inheritable hy).resolve_right (by decide)

end Coherent

/-- A class below another, in which the expressions of the other can stand. -/
structure Below (s : Symbols) (c d : Name) : Prop extends Coherent s where
  above : c ∈ s.ancestors d
  rooted : Name.object ∈ s.ancestors c
  notSelfType : d ≠ Name.selfType
  notPrimitive : isPrimitive d = false

/-!
# Narrowed types
-/

/-- A type in the class `c` and the type that takes its place in the class `d`. -/
structure Narrows (s : Symbols) (c d t t' : Name) : Prop where
  selfType : t' = Name.selfType ↔ t = Name.selfType
  chain : s.ancestors (resolve t c) <:+ s.ancestors (resolve t' d)
  primitive : isPrimitive t' = true → t' = t
  unrooted : Name.object ∉ s.ancestors (resolve t c) → t' = t

theorem resolve_selfType (current : Name) : resolve Name.selfType current = current :=
  if_pos rfl

theorem resolve_of_ne {t : Name} (h : t ≠ Name.selfType) (current : Name) :
    resolve t current = t := if_neg h

namespace Narrows

variable {s : Symbols} {c d t t' : Name}

theorem nil_iff (ht : Narrows s c d t t') : t' = [] ↔ t = [] := by
  have hempty : s.ancestors [] = [] := by
    simp [Symbols.ancestors, Inheritance.ancestors, Inheritance.start?, Inheritance.climb]
  have hself : ([] : Name) ≠ Name.selfType := by decide
  constructor
  · rintro rfl
    have hchain := ht.chain
    rw [resolve_of_ne hself, hempty, suffix_nil] at hchain
    exact (ht.unrooted (by simp [hchain])).symm
  · rintro rfl
    refine ht.unrooted ?_
    rw [resolve_of_ne hself, hempty]
    exact not_mem_nil

theorem conforms (ht : Narrows s c d t t') {declared : Name}
    (hfits : s.conforms t declared c = true) : s.conforms t' declared d = true := by
  unfold Symbols.conforms at hfits ⊢
  split at hfits
  · rename_i hself
    rw [if_pos hself]
    rw [beq_iff_eq] at hfits ⊢
    exact ht.selfType.mpr hfits
  · rename_i hself
    rw [if_neg hself]
    rw [contains_iff_mem] at hfits ⊢
    exact ht.chain.subset hfits

theorem conforms_self (ht : Narrows s c d t t') {declared : Name}
    (hfits : s.conforms t declared c = true) : s.conforms t' t d = true := by
  by_cases hself : t = Name.selfType
  · simp [Symbols.conforms, hself, ht.selfType.mpr hself]
  · have hdeclared : declared ∈ s.ancestors t := by
      unfold Symbols.conforms at hfits
      split at hfits
      · exact absurd (by simpa using hfits) hself
      · rwa [contains_iff_mem, resolve_of_ne hself] at hfits
    have hne := ne_of_mem_ancestors hdeclared
    have hmem : t ∈ s.ancestors (resolve t' d) := by
      refine ht.chain.subset ?_
      rw [resolve_of_ne hself]
      exact mem_ancestors_self hne.1 hne.2
    rw [Symbols.conforms, if_neg hself, contains_iff_mem]
    exact hmem

end Narrows

namespace Below

variable {s : Symbols} {c d t t' : Name}

theorem resolve_ne (h : Below s c d) (t : Name) :
    resolve t c ≠ Name.selfType ∧ resolve t d ≠ Name.selfType := by
  have hc : c ≠ Name.selfType := by
    rintro rfl
    exact h.notSelfType (h.eq_of_selfType h.above).symm
  unfold resolve
  split
  · exact ⟨hc, h.notSelfType⟩
  · rename_i ht
    exact ⟨ht, ht⟩

theorem narrows_refl (h : Below s c d) (t : Name) : Narrows s c d t t where
  selfType := Iff.rfl
  chain := by
    unfold resolve
    split
    · exact h.suffix h.above
    · exact suffix_refl _
  primitive := fun _ => rfl
  unrooted := fun _ => rfl

theorem resolve_eq (h : Below s c d) (ht : Narrows s c d t t')
    (hunrooted : Name.object ∉ s.ancestors (resolve t c)) :
    t' = t ∧ resolve t' d = resolve t c := by
  have hne : t ≠ Name.selfType := by
    rintro rfl
    rw [resolve_selfType] at hunrooted
    exact hunrooted h.rooted
  have hsame := ht.unrooted hunrooted
  subst hsame
  rw [resolve_of_ne hne, resolve_of_ne hne]
  exact ⟨rfl, rfl⟩

theorem rooted_iff_of_narrows (h : Below s c d) (ht : Narrows s c d t t') :
    Name.object ∈ s.ancestors (resolve t' d) ↔
      Name.object ∈ s.ancestors (resolve t c) := by
  constructor
  · intro hroot
    apply Classical.byContradiction
    intro hunrooted
    rw [(h.resolve_eq ht hunrooted).2] at hroot
    exact hunrooted hroot
  · exact fun hroot => ht.chain.subset hroot

theorem eq_of_isPrimitive (h : Below s c d) (ht : Narrows s c d t t')
    (hprimitive : isPrimitive t = true) : t' = t := by
  have hname : t ≠ Name.selfType ∧ t ≠ [] ∧ t ≠ Name.noClass := by
    simp only [isPrimitive, Bool.or_eq_true, beq_iff_eq] at hprimitive
    rcases hprimitive with (rfl | rfl) | rfl <;> decide
  have hmem : t ∈ s.ancestors (resolve t' d) := by
    refine ht.chain.subset ?_
    rw [resolve_of_ne hname.1]
    exact mem_ancestors_self hname.2.1 hname.2.2
  have hsame := h.eq_of_primitive hprimitive hmem
  rw [resolve_of_ne (mt ht.selfType.mp hname.1)] at hsame
  exact hsame.symm

/-!
# Joins
-/

variable {t1 t2 t1' t2' : Name}

theorem leastUpperBound_of_ne (hne : ¬(t1 = Name.selfType ∧ t2 = Name.selfType)) (current : Name) :
    s.leastUpperBound t1 t2 current = ((s.ancestors (resolve t2 current)).find?
      (s.ancestors (resolve t1 current)).contains).getD Name.object :=
  if_neg hne

theorem exists_leastUpperBound (h : Coherent s)
    (hne : ¬(t1 = Name.selfType ∧ t2 = Name.selfType)) {current : Name}
    (h1 : Name.object ∈ s.ancestors (resolve t1 current))
    (h2 : Name.object ∈ s.ancestors (resolve t2 current)) :
    s.leastUpperBound t1 t2 current ∈ s.ancestors (resolve t1 current) ∧
      s.leastUpperBound t1 t2 current ∈ s.ancestors (resolve t2 current) ∧
      ∀ y ∈ s.ancestors (resolve t1 current),
        y ∈ s.ancestors (resolve t2 current) →
        y ∈ s.ancestors (s.leastUpperBound t1 t2 current) := by
  rw [leastUpperBound_of_ne hne]
  cases hfind : (s.ancestors (resolve t2 current)).find?
      (s.ancestors (resolve t1 current)).contains with
  | none =>
    rw [find?_eq_none] at hfind
    exact absurd (contains_iff_mem.mpr h1) (hfind _ h2)
  | some first =>
    refine ⟨contains_iff_mem.mp (find?_some hfind), mem_of_find?_eq_some hfind, ?_⟩
    exact fun y h1 h2 => h.mem_of_find? hfind h2 (contains_iff_mem.mpr h1)

theorem leastUpperBound_of_unrooted (h : Coherent s) {current : Name}
    (hroot : ¬(Name.object ∈ s.ancestors (resolve t1 current) ↔
      Name.object ∈ s.ancestors (resolve t2 current)))
    (hne : ¬(t1 = Name.selfType ∧ t2 = Name.selfType)) :
    s.leastUpperBound t1 t2 current = Name.object := by
  rw [leastUpperBound_of_ne hne]
  cases hfind : (s.ancestors (resolve t2 current)).find?
      (s.ancestors (resolve t1 current)).contains with
  | none => rfl
  | some first =>
    have h1 := h.rooted_iff (contains_iff_mem.mp (find?_some hfind))
    have h2 := h.rooted_iff (mem_of_find?_eq_some hfind)
    exact absurd (h1.symm.trans h2) hroot

theorem narrows_leastUpperBound (h : Below s c d) (ht1 : Narrows s c d t1 t1')
    (ht2 : Narrows s c d t2 t2') :
    Narrows s c d (s.leastUpperBound t1 t2 c) (s.leastUpperBound t1' t2' d) := by
  by_cases hself : t1 = Name.selfType ∧ t2 = Name.selfType
  · have hself' := And.intro (ht1.selfType.mpr hself.1) (ht2.selfType.mpr hself.2)
    rw [leastUpperBound, leastUpperBound, if_pos hself, if_pos hself']
    exact h.narrows_refl _
  have hself' : ¬(t1' = Name.selfType ∧ t2' = Name.selfType) := by
    rwa [ht1.selfType, ht2.selfType]
  have hroot1 := h.rooted_iff_of_narrows ht1
  have hroot2 := h.rooted_iff_of_narrows ht2
  by_cases hroot : Name.object ∈ s.ancestors (resolve t1 c) ↔
      Name.object ∈ s.ancestors (resolve t2 c)
  · by_cases h1 : Name.object ∈ s.ancestors (resolve t1 c)
    · have h2 := hroot.mp h1
      obtain ⟨hu1, hu2, hleast⟩ := exists_leastUpperBound h.toCoherent hself h1 h2
      rcases exists_leastUpperBound h.toCoherent hself' (hroot1.mpr h1) (hroot2.mpr h2) with
        ⟨hu1', hu2', hleast'⟩
      have hne : s.leastUpperBound t1 t2 c ≠ Name.selfType := fun heq =>
        (h.resolve_ne t1).1 (h.eq_of_selfType (heq ▸ hu1)).symm
      have hne' : s.leastUpperBound t1' t2' d ≠ Name.selfType := fun heq =>
        (h.resolve_ne t1').2 (h.eq_of_selfType (heq ▸ hu1')).symm
      refine ⟨iff_of_false hne' hne, ?_, ?_, ?_⟩
      · rw [resolve_of_ne hne, resolve_of_ne hne']
        exact h.suffix (hleast' _ (ht1.chain.subset hu1) (ht2.chain.subset hu2))
      · -- Only a primitive type is below a primitive one, and narrowing keeps it.
        intro hprimitive
        have hmem : ∀ {t t'}, Narrows s c d t t' →
            s.leastUpperBound t1' t2' d ∈ s.ancestors (resolve t' d) →
            s.leastUpperBound t1' t2' d ∈ s.ancestors (resolve t c) := by
          intro t t' ht hmem
          have heq := h.eq_of_primitive hprimitive hmem
          have hne : t' ≠ Name.selfType := by
            rintro rfl
            rw [resolve_selfType] at heq
            rw [heq, h.notPrimitive] at hprimitive
            cases hprimitive
          obtain ⟨before, after, hline⟩ := append_of_mem hmem
          rw [resolve_of_ne hne] at heq
          rw [resolve_of_ne (mt ht.selfType.mpr hne), ← ht.primitive (heq ▸ hprimitive), ← heq,
            h.rest hline]
          exact mem_cons_self
        exact h.eq_of_primitive hprimitive (hleast _ (hmem ht1 hu1') (hmem ht2 hu2'))
      · intro hunrooted
        rw [resolve_of_ne hne, h.rooted_iff hu1] at hunrooted
        exact absurd h1 hunrooted
    · rw [leastUpperBound_of_ne hself, leastUpperBound_of_ne hself', (h.resolve_eq ht1 h1).2,
        (h.resolve_eq ht2 (mt hroot.mpr h1)).2]
      exact h.narrows_refl _
  · rw [leastUpperBound_of_unrooted h.toCoherent hroot hself,
      leastUpperBound_of_unrooted h.toCoherent (by rwa [hroot1, hroot2]) hself']
    exact h.narrows_refl _

theorem narrows_joinBranch (h : Below s c d) (ht1 : Narrows s c d t1 t1')
    (ht2 : Narrows s c d t2 t2') :
    Narrows s c d (joinBranch ⟨s, c⟩ t1 t2) (joinBranch ⟨s, d⟩ t1' t2') := by
  unfold joinBranch
  by_cases hnil : t1 = []
  · rw [if_pos hnil, if_pos (ht1.nil_iff.mpr hnil)]
    exact ht2
  · rw [if_neg hnil, if_neg (mt ht1.nil_iff.mp hnil)]
    exact h.narrows_leastUpperBound ht1 ht2

/-!
# Operations and calls
-/

theorem operates (h : Below s c d) {op : Operator} {l l' r r' t : Name}
    (hl : Narrows s c d l l') (hr : Narrows s c d r r') (hop : Operates op l r t) :
    Operates op l' r' t := by
  have hint : isPrimitive Name.int = true := by decide
  cases hop with
  | arithmetic hop =>
    rw [h.eq_of_isPrimitive hl hint, h.eq_of_isPrimitive hr hint]
    exact .arithmetic hop
  | comparison hop =>
    rw [h.eq_of_isPrimitive hl hint, h.eq_of_isPrimitive hr hint]
    exact .comparison hop
  | equality hsame =>
    -- A primitive operand was primitive before, and so was the other.
    refine .equality fun hprimitive => ?_
    have hboth : isPrimitive l = true ∨ isPrimitive r = true := by
      refine hprimitive.imp (fun hp => ?_) (fun hp => ?_)
      · rwa [← hl.primitive hp]
      · rwa [← hr.primitive hp]
    have heq := hsame hboth
    subst heq
    rw [or_self] at hboth
    rw [h.eq_of_isPrimitive hl hboth, h.eq_of_isPrimitive hr hboth]

theorem conforms_all {ts ts' declared : List Name} (hts : List.Forall₂ (Narrows s c d) ts ts')
    (hfits : List.Forall₂ (fun t type => s.conforms t type c = true) ts declared) :
    List.Forall₂ (fun t type => s.conforms t type d = true) ts' declared := by
  induction hts generalizing declared with
  | nil =>
    cases hfits
    exact .nil
  | cons ht _ ih =>
    cases hfits with
    | cons hfirst hrest => exact .cons (ht.conforms hfirst) (ih hrest)

theorem narrows_getLast (h : Below s c d) {ts ts' : List Name}
    (hts : List.Forall₂ (Narrows s c d) ts ts') :
    Narrows s c d (ts.getLast?.getD Name.object) (ts'.getLast?.getD Name.object) := by
  induction hts with
  | nil => exact h.narrows_refl _
  | cons ht hts ih =>
    cases hts with
    | nil => exact ht
    | cons _ _ => simpa only [getLast?_cons_cons] using ih

theorem calls (h : Below s c d) {receiver receiver' owner owner' f result : Name}
    {actuals actuals' : List Name} (hreceiver : Narrows s c d receiver receiver')
    (hactuals : List.Forall₂ (Narrows s c d) actuals actuals')
    (howner : owner ∈ s.ancestors owner → owner ∈ s.ancestors owner')
    (hcall : Calls ⟨s, c⟩ receiver owner f actuals result) :
    ∃ result', Calls ⟨s, d⟩ receiver' owner' f actuals' result' ∧ Narrows s c d result result' := by
  obtain ⟨m, hm, hformals, rfl⟩ := hcall
  have hmem : owner ∈ s.ancestors owner := by
    obtain ⟨x, hx, _⟩ := exists_of_findSome?_eq_some hm
    have hne := ne_of_mem_ancestors hx
    exact mem_ancestors_self hne.1 hne.2
  obtain ⟨m', hm', hsignature⟩ := h.methods (howner hmem) hm
  have htypes : m'.formals.map Formal.type = m.formals.map Formal.type :=
    congrArg Prod.fst hsignature
  have hreturns : m'.returns = m.returns := congrArg Prod.snd hsignature
  have hfits : List.Forall₂ (fun t type => s.conforms t type c = true) actuals
      (m.formals.map Formal.type) := forall₂_map_right_iff.mpr hformals
  have hfits' : List.Forall₂ (fun t type => s.conforms t type d = true) actuals'
      (m'.formals.map Formal.type) := by
    rw [htypes]
    exact conforms_all hactuals hfits
  refine ⟨_, ⟨m', hm', forall₂_map_right_iff.mp hfits', rfl⟩, ?_⟩
  rw [hreturns]
  split
  · exact hreceiver
  · exact h.narrows_refl _

end Below

/-!
# Expressions
-/

/-- The expression can be checked again in the class `d`, and its type is narrowed. -/
def Retypes (s : Symbols) (c d : Name) (Γ : Scopes) (e : Expr) : Prop :=
  ∃ e', infer ⟨s, d⟩ Γ e = .ok (e', []) ∧ Narrows s c d e.type e'.type

theorem Retypes.intro {s : Symbols} {c d type : Name} {Γ : Scopes} {e e' : Expr}
    (htype : e.type = type) (hinferred : Inferred ⟨s, d⟩ Γ e e')
    (hnarrow : Narrows s c d type e'.type) : Retypes s c d Γ e :=
  ⟨e', infer_eq_ok_iff.mpr hinferred, htype ▸ hnarrow⟩

namespace Below

variable {s : Symbols} {c d t t' : Name} {Γ : Scopes}

theorem typeOfVar?_below (h : Below s c d) {x : Name} (htype : typeOfVar? ⟨s, c⟩ Γ x = some t) :
    typeOfVar? ⟨s, d⟩ Γ x = some t := by
  unfold typeOfVar? at htype ⊢
  split
  · rename_i hself
    rwa [if_pos hself] at htype
  · rename_i hself
    rw [if_neg hself] at htype
    cases hlocal : Γ.find? x with
    | some type =>
      rw [hlocal] at htype
      exact htype
    | none =>
      rw [hlocal] at htype
      obtain ⟨a, ha, rfl⟩ := Option.map_eq_some_iff.mp htype
      obtain ⟨a', ha', hsame⟩ := h.attributes h.above ha
      exact Option.map_eq_some_iff.mpr ⟨a', ha', hsame⟩

theorem inferAll_narrows {es : List Expr} (hes : ∀ e ∈ es, Retypes s c d Γ e) :
    ∃ es', List.Forall₂ (fun e e' => infer ⟨s, d⟩ Γ e = .ok (e', [])) es es' ∧
      List.Forall₂ (Narrows s c d) (es.map Expr.type) (es'.map Expr.type) := by
  induction es with
  | nil => exact ⟨[], .nil, .nil⟩
  | cons e es ih =>
    rw [forall_mem_cons] at hes
    obtain ⟨e', he', hnarrow⟩ := hes.1
    obtain ⟨es', hes', hall⟩ := ih hes.2
    exact ⟨e' :: es', .cons he' hes', .cons hnarrow hall⟩

theorem inferBranches_narrows (h : Below s c d) {bs : List (Declared Expr)} {seen : List Name}
    (hself : ∀ b ∈ bs, b.type ≠ Name.selfType) (htype : ∀ b ∈ bs, s.isType b.type = true)
    (hdistinct : (bs.map Declared.type).Nodup) (hseen : ∀ b ∈ bs, b.type ∉ seen)
    (hbs : ∀ b ∈ bs, Retypes s c d (Γ.enter.bind b.name b.type) b.value)
    (ht : Narrows s c d t t') :
    ∃ bs' joined, inferBranches ⟨s, d⟩ Γ seen t' bs = .ok ((bs', joined), []) ∧
      Narrows s c d (bs.foldl (fun t b => joinBranch ⟨s, c⟩ t b.value.type) t) joined := by
  induction bs generalizing seen t t' with
  | nil => exact ⟨[], t', rfl, ht⟩
  | cons b bs ih =>
    obtain ⟨line, x, type, e⟩ := b
    rw [forall_mem_cons] at hself htype hseen hbs
    rw [map_cons, nodup_cons] at hdistinct
    obtain ⟨e', he', hnarrow⟩ := hbs.1
    have hfresh : ∀ b ∈ bs, b.type ∉ type :: seen := by
      intro b hb hmem
      rcases mem_cons.mp hmem with heq | hmem
      · exact hdistinct.1 (mem_map.mpr ⟨b, hb, heq⟩)
      · exact hseen.2 b hb hmem
    rcases ih hself.2 htype.2 hdistinct.2 hfresh hbs.2 (h.narrows_joinBranch ht hnarrow) with
      ⟨rest, joined, hrest, hjoined⟩
    refine ⟨⟨line, x, type, e'⟩ :: rest, joined, ?_, hjoined⟩
    simp only [inferBranches, Check.bind_eq_ok_iff, Check.pure_eq_ok_iff, checkBranch_eq_ok_iff]
    exact ⟨(), ⟨hself.1, htype.1, hseen.1⟩, e', he', (rest, joined), hrest, rfl⟩

theorem retypes (h : Below s c d) {e : Expr} (he : Checked ⟨s, c⟩ Γ e) :
    Retypes s c d Γ e := by
  have hint : isPrimitive Name.int = true := by decide
  have hbool : isPrimitive Name.bool = true := by decide
  induction he with
  | omitted type => exact .intro type .omitted (h.narrows_refl _)
  | int type => exact .intro type .int (h.narrows_refl _)
  | string type => exact .intro type .string (h.narrows_refl _)
  | bool type => exact .intro type .bool (h.narrows_refl _)
  | object type => exact .intro rfl (.object (h.typeOfVar?_below type)) (h.narrows_refl _)
  | assign value notSelf target fits type ih =>
    obtain ⟨e', he', hnarrow⟩ := ih
    exact .intro type (.assign he' notSelf (h.typeOfVar?_below target) (hnarrow.conforms fits))
      hnarrow
  | dispatch receiver actuals call ih ihs =>
    obtain ⟨e', he', hnarrow⟩ := ih
    obtain ⟨args', hargs', hall⟩ := inferAll_narrows ihs
    rcases h.calls hnarrow hall (fun hmem => hnarrow.chain.subset hmem) call with
      ⟨t, hcall, ht⟩
    exact .intro rfl (.dispatch he' hargs' (dispatchType_none.mpr hcall)) ht
  | static receiver actuals notSelfType isType fits call ih ihs =>
    obtain ⟨e', he', hnarrow⟩ := ih
    obtain ⟨args', hargs', hall⟩ := inferAll_narrows ihs
    obtain ⟨t, hcall, ht⟩ := h.calls hnarrow hall (fun hmem => hmem) call
    exact .intro rfl (.dispatch he' hargs' (dispatchType_some.mpr
      ⟨notSelfType, isType, hnarrow.conforms fits, hcall⟩)) ht
  | binary left right type ihl ihr =>
    obtain ⟨l', hl', hleft⟩ := ihl
    obtain ⟨r', hr', hright⟩ := ihr
    exact .intro rfl (.binary hl' hr' (h.operates hleft hright type)) (h.narrows_refl _)
  | negate operand isInt type ih =>
    obtain ⟨e', he', hnarrow⟩ := ih
    rw [isInt] at hnarrow
    exact .intro type (.negate he' (h.eq_of_isPrimitive hnarrow hint)) (h.narrows_refl _)
  | complement operand isBool type ih =>
    obtain ⟨e', he', hnarrow⟩ := ih
    rw [isBool] at hnarrow
    exact .intro type (.complement he' (h.eq_of_isPrimitive hnarrow hbool)) (h.narrows_refl _)
  | isVoid operand type ih =>
    obtain ⟨e', he', _⟩ := ih
    exact .intro type (.isVoid he') (h.narrows_refl _)
  | new isType type => exact .intro type (.new isType) (h.narrows_refl _)
  | cond _ isBool _ _ type ihc iht ihf =>
    obtain ⟨test', htest', htest⟩ := ihc
    obtain ⟨t', ht', ht⟩ := iht
    obtain ⟨f', hf', hf⟩ := ihf
    rw [isBool] at htest
    exact .intro type (.cond htest' (h.eq_of_isPrimitive htest hbool) ht' hf')
      (h.narrows_leastUpperBound ht hf)
  | loop _ isBool _ type ihc ihb =>
    obtain ⟨test', htest', htest⟩ := ihc
    obtain ⟨b', hb', _⟩ := ihb
    rw [isBool] at htest
    exact .intro type (.loop htest' (h.eq_of_isPrimitive htest hbool) hb') (h.narrows_refl _)
  | block items type ihs =>
    obtain ⟨es', hes', hall⟩ := inferAll_narrows ihs
    have hlast := h.narrows_getLast hall
    rw [getLast?_map, getLast?_map] at hlast
    exact .intro type (.block hes') hlast
  | body inside type ih =>
    obtain ⟨e', he', hnarrow⟩ := ih
    exact .intro type (.letIn (by rw [inferBindings]; rfl) he') hnarrow
  | @binding Γ m b bs e notSelf isType init fits inside ihi ihb =>
    obtain ⟨line, x, type, value⟩ := b
    obtain ⟨value', hvalue', hvalue⟩ := ihi
    obtain ⟨_, hlet, hnarrow⟩ := ihb
    have hfits : value'.isOmitted = false → s.conforms value'.type type d = true := by
      intro hgiven
      rw [(infer_parts hvalue').2.2.1] at hgiven
      exact hvalue.conforms (fits hgiven)
    cases infer_eq_ok_iff.mp hlet with
    | @letIn _ _ rest scopes _ body hrest hbody =>
      have hbindings : inferBindings ⟨s, d⟩ Γ (⟨line, x, type, value⟩ :: bs) =
          .ok ((⟨line, x, type, value'⟩ :: rest, scopes), []) := by
        simp only [inferBindings, Check.bind_eq_ok_iff, Check.pure_eq_ok_iff,
          bindingType_eq_ok_iff, checkInit_eq_ok_iff]
        exact ⟨type, ⟨notSelf, isType, rfl⟩, value', hvalue', (), hfits, (rest, scopes), hrest,
          rfl⟩
      exact .intro rfl (.letIn hbindings hbody) hnarrow
  | typeCase scrutinee notSelfType isType distinct branches type ih ihs =>
    obtain ⟨e', he', _⟩ := ih
    rcases h.inferBranches_narrows notSelfType isType distinct (fun _ _ => not_mem_nil) ihs
      (h.narrows_refl []) with ⟨bs', joined, hbs', hjoined⟩
    exact .intro type (.typeCase he' hbs') hjoined

end Below

end CoolCompiler.Typing
