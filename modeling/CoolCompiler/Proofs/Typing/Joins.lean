import CoolCompiler.Proofs.Passes
import CoolCompiler.Proofs.Typing.Hierarchy

/-!
# Joins of types

Inside a class, conforming orders types.  Two types have a least one above them, and so have the
branches of a case, in any order.
-/

namespace CoolCompiler

open List Symbols

/-!
# Symbols of several programs

Each class graph that an analysis accepts adds classes to those it knows and leaves their chains as
they are.
-/

namespace Inheritance

variable {g g' : Inheritance} {x : Name} {line : List Name}

theorem Ancestry.of_parents (h : g.Ancestry x line)
    (hsame : ∀ y ∈ line, g'.parents.find? y = g.parents.find? y) : g'.Ancestry x line := by
  have hparent : ∀ y, g'.parents.find? y = g.parents.find? y → g'.parent? y = g.parent? y := by
    intro y hy
    simp only [parent?, hy]
  induction h with
  | root hp =>
    refine .root ?_
    rw [hparent _ (hsame _ mem_cons_self)]
    exact hp
  | step hp _ ih =>
    refine .step ?_ (ih fun y hy => hsame y (mem_cons_of_mem _ hy))
    rw [hparent _ (hsame _ mem_cons_self)]
    exact hp

end Inheritance

namespace Typing

namespace Graph

variable {p q : List Class} {s : Symbols}

theorem classNames_of_mem_ancestors (h : Graph p s) {x y : Name}
    (hx : x ∈ classNames p) (hy : y ∈ s.ancestors x) : y ∈ classNames p := by
  obtain ⟨parents, t, hbuilt⟩ := h.exists_built
  rw [classNames, ← hbuilt.map_name] at hx ⊢
  obtain ⟨n, hn, rfl⟩ := mem_map.mp hx
  rw [h.ancestors_eq hbuilt hn] at hy
  obtain ⟨d, hd, rfl⟩ := mem_map.mp hy
  exact mem_map_of_mem (ClassTable.Built.mem_nodes_of_mem_chain t hd)

theorem extend_of_named (h : Graph p s) (hnamed : Named q)
    (hregister : (registerAll s q).2.2.filterMap AnalysisNote.diagnostic? = [])
    (hlink : (linkParents (registerAll s q).1 q).2 = [])
    (hcycles : cycles (linkParents (registerAll s q).1 q).1 q = []) :
    Graph (p ++ q) (linkParents (registerAll s q).1 q).1 := by
  refine h.extend hregister hlink hnamed hcycles fun c hc => ?_
  obtain ⟨line, hline⟩ := h.exists_ancestry (mem_append_right _ hc)
  have hclass : c.name ∈ classNames p := mem_map_of_mem (mem_append_right _ hc)
  refine Inheritance.hasCycle_eq_false (hline.of_parents fun y hy => ?_) (h.nonempty c hc)
    (h.notNoClass c hc)
  refine find?_linkParents hregister hlink (h.not_mem_of_registers hregister ?_)
  refine h.classNames_of_mem_ancestors hclass ?_
  rwa [h.ancestors_of_ancestry hclass hline]

end Graph

theorem classGraph_accepted {a : Analysis} {q : Program}
    (h : a.faulty (a.classGraph q).2 = false) :
    (registerAll a.symbols q).2.2.filterMap AnalysisNote.diagnostic? = [] ∧
      (linkParents (registerAll a.symbols q).1 q).2 = [] ∧
      cycles (linkParents (registerAll a.symbols q).1 q).1 q = [] ∧
      (a.classGraph q).1 = (linkParents (registerAll a.symbols q).1 q).1 := by
  obtain ⟨_, hregister, hlink, hcycles⟩ := faulty_classGraph_iff.mp h
  have hsymbols : (a.classGraph q).1 =
      (linkParents (registerAll a.symbols q).1 (registerAll a.symbols q).2.1).1 := rfl
  rw [(registerAll_eq hregister).1] at hlink hcycles hsymbols
  exact ⟨hregister, hlink, hcycles, hsymbols⟩

/-- Symbols that know some classes from class graphs which were all accepted, whatever their
features. -/
inductive GraphAccepted : List Class → Symbols → Prop where
  | initial : GraphAccepted [] Symbols.initial
  | graph {p : List Class} {a : Analysis} (before : GraphAccepted p a.symbols) {q : Program}
      (accepted : a.faulty (a.classGraph q).2 = false) : GraphAccepted (p ++ q) (a.classGraph q).1
  | features {p : List Class} {s s' : Symbols} (before : GraphAccepted p s)
      (inheritance : s'.inheritance = s.inheritance)
      (classes : ∀ x, s'.classes.has x = s.classes.has x) : GraphAccepted p s'

variable {p : List Class} {bs : List (Declared Expr)} {s : Symbols} {current t : Name}

theorem GraphAccepted.toGraph (h : GraphAccepted p s) (hnamed : Named p) : Graph p s := by
  induction h with
  | initial => exact graph_initial
  | graph _ accepted ih =>
    obtain ⟨hp, hq⟩ := Named.append_iff.mp hnamed
    obtain ⟨hregister, hlink, hcycles, hsymbols⟩ := classGraph_accepted accepted
    rw [hsymbols]
    exact (ih hp).extend_of_named hq hregister hlink hcycles
  | features _ inheritance classes ih => exact (ih hnamed).of_symbols inheritance classes

/-!
# Conforming
-/

/-- A type is the least one that all of some types conform to. -/
structure IsJoin (s : Symbols) (current : Name) (ts : List Name) (t : Name) : Prop where
  isType : s.isType t = true
  above : ∀ u ∈ ts, s.conforms u t current = true
  least : ∀ v, s.isType v = true → (∀ u ∈ ts, s.conforms u v current = true) →
    s.conforms t v current = true

theorem conforms_selfType_iff : s.conforms t Name.selfType current = true ↔ t = Name.selfType := by
  rw [conforms, if_pos rfl, beq_iff_eq]

theorem conforms_iff_mem {u : Name} (hu : u ≠ Name.selfType) :
    s.conforms t u current = true ↔ u ∈ s.ancestors (resolve t current) := by
  rw [conforms, if_neg hu, contains_iff_mem]

namespace Graph

variable {p : List Class} {s : Symbols} (h : Graph p s)
include h

variable {t u : Name}

theorem isType_iff : s.isType t = true ↔ t = Name.selfType ∨ t ∈ classNames p := by
  rw [Symbols.isType, Bool.or_eq_true, beq_iff_eq, h.classes]

theorem resolve_mem {current : Name} (hcurrent : current ∈ classNames p) (ht : s.isType t = true) :
    resolve t current ∈ classNames p := by
  unfold resolve
  split
  · exact hcurrent
  · rename_i hne
    exact (h.isType_iff.mp ht).resolve_left hne

theorem ancestors_suffix {x y : Name} (hy : y ∈ s.ancestors x) :
    s.ancestors y <:+ s.ancestors x := by
  obtain ⟨before, after, hline⟩ := append_of_mem hy
  rw [h.ancestors_of_append hline, hline]
  exact suffix_append before (y :: after)

theorem eq_of_ancestors_eq {x y : Name} (hy : y ∈ s.ancestors x)
    (heq : s.ancestors y = s.ancestors x) : y = x := by
  obtain ⟨before, after, hline⟩ := append_of_mem hy
  have hrest := h.ancestors_of_append hline
  rw [heq] at hrest
  obtain ⟨hempty, hnone⟩ := Inheritance.ne_of_mem_ancestors hy
  have hself := Inheritance.mem_ancestors_self (g := s.inheritance) hempty hnone
  obtain ⟨first, last, hx⟩ := append_of_mem hself
  have hlast := h.ancestors_of_append hx
  rw [hrest] at hlast
  exact (List.cons.inj hlast).1

theorem conforms_refl (current : Name) (ht : s.isType t = true) :
    s.conforms t t current = true := by
  by_cases hself : t = Name.selfType
  · rw [hself, conforms_selfType_iff]
  · have hnames := h.of_mem_classNames ((h.isType_iff.mp ht).resolve_left hself)
    rw [conforms_iff_mem hself, resolve, if_neg hself]
    exact Inheritance.mem_ancestors_self hnames.1 hnames.2.1

theorem conforms_trans {v current : Name} (htu : s.conforms t u current = true)
    (huv : s.conforms u v current = true) : s.conforms t v current = true := by
  by_cases hu : u = Name.selfType
  · rw [hu, conforms_selfType_iff] at htu
    rw [htu, ← hu]
    exact huv
  · have hv : v ≠ Name.selfType := by
      rintro rfl
      exact hu (conforms_selfType_iff.mp huv)
    rw [conforms_iff_mem hu] at htu
    rw [conforms_iff_mem hv, resolve, if_neg hu] at huv
    rw [conforms_iff_mem hv]
    exact (h.ancestors_suffix htu).subset huv

theorem conforms_antisymm {current : Name} (htu : s.conforms t u current = true)
    (hut : s.conforms u t current = true) : t = u := by
  by_cases ht : t = Name.selfType
  · rw [ht, conforms_selfType_iff] at hut
    rw [ht, hut]
  · have hu : u ≠ Name.selfType := by
      rintro rfl
      exact ht (conforms_selfType_iff.mp htu)
    rw [conforms_iff_mem hu, resolve, if_neg ht] at htu
    rw [conforms_iff_mem ht, resolve, if_neg hu] at hut
    have hsame := (h.ancestors_suffix htu).eq_of_length_le
      (h.ancestors_suffix hut).length_le
    exact (h.eq_of_ancestors_eq htu hsame).symm

/-!
# Joins of two types
-/

variable {current : Name} (hcurrent : current ∈ classNames p)
include hcurrent

theorem root_above (ht : s.isType t = true) :
    Name.object ∈ s.ancestors (resolve t current) := by
  obtain ⟨c, hc, hname⟩ := mem_map.mp (h.resolve_mem hcurrent ht)
  rw [← hname]
  exact h.root_mem_ancestors hc

/-- Of two types that are not both `SELF_TYPE`, the first class on both chains has all others of
them on its own. -/
theorem leastUpperBound_mem (ht : s.isType t = true) (hu : s.isType u = true)
    (hne : ¬(t = Name.selfType ∧ u = Name.selfType)) :
    s.leastUpperBound t u current ∈ s.ancestors (resolve t current) ∧
      s.leastUpperBound t u current ∈ s.ancestors (resolve u current) ∧
      ∀ v ∈ s.ancestors (resolve t current),
        v ∈ s.ancestors (resolve u current) →
        v ∈ s.ancestors (s.leastUpperBound t u current) := by
  have hjoin : s.leastUpperBound t u current =
      ((s.ancestors (resolve u current)).find?
        (s.ancestors (resolve t current)).contains).getD Name.object := if_neg hne
  rw [hjoin]
  cases hfind : (s.ancestors (resolve u current)).find?
      (s.ancestors (resolve t current)).contains with
  | none =>
    rw [find?_eq_none] at hfind
    refine absurd ?_ (hfind _ (h.root_above hcurrent hu))
    exact contains_iff_mem.mpr (h.root_above hcurrent ht)
  | some first =>
    obtain ⟨hfirst, before, after, hline, hbefore⟩ := find?_eq_some_iff_append.mp hfind
    rw [Option.getD_some, h.ancestors_of_append hline, hline]
    refine ⟨contains_iff_mem.mp hfirst, by simp, ?_⟩
    intro v hv hmem
    rcases mem_append.mp hmem with hv' | hv'
    · have hno := hbefore v hv'
      rw [contains_iff_mem.mpr hv] at hno
      cases hno
    · exact hv'

theorem isJoin_leastUpperBound (ht : s.isType t = true) (hu : s.isType u = true) :
    IsJoin s current [t, u] (s.leastUpperBound t u current) := by
  by_cases hself : t = Name.selfType ∧ u = Name.selfType
  · obtain ⟨rfl, rfl⟩ := hself
    rw [leastUpperBound, if_pos ⟨rfl, rfl⟩]
    refine ⟨ht, ?_, fun v _ hv => hv _ mem_cons_self⟩
    intro v hv
    have hv' : v = Name.selfType := by simpa using hv
    rw [hv', conforms_selfType_iff]
  · obtain ⟨hleft, hright, hfirst⟩ := h.leastUpperBound_mem hcurrent ht hu hself
    have hclass : s.leastUpperBound t u current ∈ classNames p :=
      h.classNames_of_mem_ancestors (h.resolve_mem hcurrent ht) hleft
    have hne : s.leastUpperBound t u current ≠ Name.selfType := by
      intro heq
      exact h.selfType_not_mem (heq ▸ hclass)
    refine ⟨h.isType_iff.mpr (.inr hclass), ?_, ?_⟩
    · simp only [forall_mem_cons, conforms_iff_mem hne]
      exact ⟨hleft, hright, by simp⟩
    · intro v hv hall
      simp only [forall_mem_cons] at hall
      have hvne : v ≠ Name.selfType := by
        rintro rfl
        exact hself ⟨conforms_selfType_iff.mp hall.1, conforms_selfType_iff.mp hall.2.1⟩
      rw [conforms_iff_mem hvne] at hall ⊢
      rw [conforms_iff_mem hvne] at hall
      rw [resolve, if_neg hne]
      exact hfirst v hall.1 hall.2.1

theorem isJoin_append {ts us : List Name} (ht : IsJoin s current ts t)
    (hu : IsJoin s current us u) :
    IsJoin s current (ts ++ us) (s.leastUpperBound t u current) := by
  have hjoin := h.isJoin_leastUpperBound hcurrent ht.isType hu.isType
  have habove := forall_mem_cons.mp hjoin.above
  refine ⟨hjoin.isType, forall_mem_append.mpr ⟨fun w hw => ?_, fun w hw => ?_⟩, ?_⟩
  · exact h.conforms_trans (ht.above w hw) habove.1
  · exact h.conforms_trans (hu.above w hw) (habove.2 u mem_cons_self)
  · intro v hv hall
    rw [forall_mem_append] at hall
    refine hjoin.least v hv ?_
    simp only [forall_mem_cons]
    exact ⟨ht.least v hv hall.1, hu.least v hv hall.2, by simp⟩

omit hcurrent

theorem isJoin_singleton (ht : s.isType t = true) : IsJoin s current [t] t := by
  refine ⟨ht, ?_, fun v _ hv => hv t mem_cons_self⟩
  intro u hu
  rw [mem_singleton.mp hu]
  exact h.conforms_refl current ht

theorem isJoin_unique {ts us : List Name} (ht : IsJoin s current ts t) (hu : IsJoin s current us u)
    (hsame : ∀ x, x ∈ ts ↔ x ∈ us) : t = u :=
  h.conforms_antisymm
    (ht.least u hu.isType fun x hx => hu.above x ((hsame x).mp hx))
    (hu.least t ht.isType fun x hx => ht.above x ((hsame x).mpr hx))

end Graph

structure JoinLaws (s : Symbols) (current : Name) : Prop where
  refl : ∀ t, s.isType t = true → s.conforms t t current = true
  trans : ∀ t u v, s.isType t = true → s.isType u = true → s.isType v = true →
    s.conforms t u current = true → s.conforms u v current = true →
    s.conforms t v current = true
  antisymm : ∀ t u, s.isType t = true → s.isType u = true →
    s.conforms t u current = true → s.conforms u t current = true → t = u
  join : ∀ t u, s.isType t = true → s.isType u = true →
    IsJoin s current [t, u] (s.leastUpperBound t u current)
  comm : ∀ t u, s.isType t = true → s.isType u = true →
    s.leastUpperBound t u current = s.leastUpperBound u t current
  assoc : ∀ t u v, s.isType t = true → s.isType u = true → s.isType v = true →
    s.leastUpperBound (s.leastUpperBound t u current) v current =
      s.leastUpperBound t (s.leastUpperBound u v current) current
  idem : ∀ t, s.isType t = true → s.leastUpperBound t t current = t

theorem Graph.joinLaws (h : Graph p s) (hcurrent : current ∈ classNames p) :
    JoinLaws s current where
  refl := fun _ => h.conforms_refl current
  trans := fun _ _ _ _ _ _ => h.conforms_trans
  antisymm := fun _ _ _ _ => h.conforms_antisymm
  join := fun _ _ => h.isJoin_leastUpperBound hcurrent
  comm := by
    intro t u ht hu
    refine h.isJoin_unique (h.isJoin_leastUpperBound hcurrent ht hu)
      (h.isJoin_leastUpperBound hcurrent hu ht) ?_
    exact fun x => (List.Perm.swap u t []).mem_iff
  assoc := by
    intro t u v ht hu hv
    have hleft := h.isJoin_append hcurrent
      (h.isJoin_leastUpperBound hcurrent ht hu) (h.isJoin_singleton hv)
    have hright := h.isJoin_append hcurrent (h.isJoin_singleton ht)
      (h.isJoin_leastUpperBound hcurrent hu hv)
    exact h.isJoin_unique hleft hright fun _ => Iff.rfl
  idem := by
    intro t ht
    refine h.isJoin_unique (h.isJoin_leastUpperBound hcurrent ht ht)
      (h.isJoin_singleton ht) ?_
    intro x
    simp only [mem_cons, not_mem_nil, or_false, or_self]

/-!
# Branches
-/

namespace Check

variable {α β : Type}

theorem bind_eq_ok {x : Check α} {f : α → Check β} {b : β} {found : List Finding} :
    (x >>= f : Check β) = .ok (b, found) ↔
      ∃ a first rest, x = .ok (a, first) ∧ f a = .ok (b, rest) ∧ found = first ++ rest := by
  show andThen x f = _ ↔ _
  unfold andThen
  rcases x with fault | ⟨a, first⟩
  · simp
  · cases hf : f a with
    | error fault => simp_all
    | ok r =>
      obtain ⟨b', rest⟩ := r
      simp_all [eq_comm]

theorem pure_eq_ok {a b : α} {found : List Finding} :
    (pure a : Check α) = .ok (b, found) ↔ b = a ∧ found = [] := by
  show Except.ok (a, []) = _ ↔ _
  simp [eq_comm]

end Check

def BranchType (ctx : Context) (Γ : Scopes) (b : Declared Expr) (t : Name) : Prop :=
  ∃ e found, infer ctx (Γ.enter.bind b.name b.type) b.value = .ok (e, found) ∧ e.type = t

namespace BranchType

variable {ctx : Context} {Γ : Scopes}

theorem of_passes {b : Declared Expr} {t : Name}
    (h : (passes (infer ctx (Γ.enter.bind b.name b.type) b.value) fun r => r.1.type == t) = true) :
    BranchType ctx Γ b t := by
  simp only [passes_iff, beq_iff_eq] at h
  obtain ⟨⟨e, found⟩, hinfer, htype⟩ := h
  exact ⟨e, found, hinfer, htype⟩

theorem rightUnique : Relator.RightUnique (BranchType ctx Γ) := by
  rintro b t u ⟨e, found, he, rfl⟩ ⟨e', found', he', rfl⟩
  rw [he] at he'
  cases he'
  rfl

end BranchType

theorem exists_checkBranch (ctx : Context) (seen : List Name) (line : Int) (x type : Name) :
    ∃ found, checkBranch ctx seen line x type = .ok ((), found) := by
  unfold checkBranch
  split
  · exact ⟨_, rfl⟩
  · split
    · exact ⟨_, rfl⟩
    · split <;> exact ⟨_, rfl⟩

theorem inferBranches_types {ctx : Context} {Γ : Scopes} {seen : List Name} {result : Name} :
    (∃ bs' found, inferBranches ctx Γ seen result bs = .ok ((bs', t), found)) ↔
      ∃ ts, List.Forall₂ (BranchType ctx Γ) bs ts ∧ t = ts.foldl (joinBranch ctx) result := by
  induction bs generalizing seen result with
  | nil =>
    simp only [inferBranches, Check.pure_eq_ok]
    constructor
    · rintro ⟨_, _, heq, _⟩
      exact ⟨[], .nil, (Prod.mk.inj heq).2⟩
    · rintro ⟨_, hts, rfl⟩
      cases hts
      exact ⟨[], [], rfl, rfl⟩
  | cons b bs ih =>
    obtain ⟨line, x, type, e⟩ := b
    constructor
    · rintro ⟨bs', found, h⟩
      simp only [inferBranches, Check.bind_eq_ok, Check.pure_eq_ok] at h
      rcases h with ⟨_, _, _, _, ⟨value, _, _, hvalue, ⟨⟨rest, joined⟩, _, _, hrest, hpair, _⟩,
        _⟩, _⟩
      cases hpair.1
      obtain ⟨ts, hts, hjoined⟩ := ih.mp ⟨_, _, hrest⟩
      exact ⟨value.type :: ts, .cons ⟨value, _, hvalue, rfl⟩ hts, hjoined⟩
    · rintro ⟨_, hts, hjoined⟩
      cases hts with
      | @cons _ u _ ts hvalue hts =>
        obtain ⟨value, first, hvalue, rfl⟩ := hvalue
        obtain ⟨found, hcheck⟩ := exists_checkBranch ctx seen line x type
        obtain ⟨rest, more, hrest⟩ := ih.mpr ⟨ts, hts, hjoined⟩
        refine ⟨⟨line, x, type, value⟩ :: rest, found ++ (first ++ (more ++ [])), ?_⟩
        simp only [inferBranches, Check.bind_eq_ok, Check.pure_eq_ok]
        exact ⟨_, _, _, hcheck, ⟨_, _, _, hvalue, ⟨_, _, _, hrest, ⟨rfl, rfl⟩, rfl⟩, rfl⟩, rfl⟩

theorem infer_typeCase_types {ctx : Context} {Γ : Scopes} {m : Mark} {e : Expr} :
    (∃ e' found, infer ctx Γ (.typeCase m e bs) = .ok (e', found) ∧ e'.type = t) ↔
      (∃ e' found, infer ctx Γ e = .ok (e', found)) ∧
      ∃ ts, List.Forall₂ (BranchType ctx Γ) bs ts ∧ t = ts.foldl (joinBranch ctx) [] := by
  rw [← @inferBranches_types bs t ctx Γ []]
  simp only [infer, Check.bind_eq_ok, Check.pure_eq_ok]
  constructor
  · rintro ⟨_, _, ⟨e', _, _, he, ⟨⟨bs', joined⟩, _, _, hbs, ⟨rfl, _⟩, _⟩, _⟩, rfl⟩
    exact ⟨⟨e', _, he⟩, bs', _, hbs⟩
  · rintro ⟨⟨e', first, he⟩, bs', more, hbs⟩
    exact ⟨_, _, ⟨e', _, _, he, ⟨_, _, _, hbs, ⟨rfl, rfl⟩, rfl⟩, rfl⟩, rfl⟩

namespace Graph

variable {p : List Class} {s : Symbols} (h : Graph p s) {current : Name}
  (hcurrent : current ∈ classNames p)
include h

theorem joinBranch_eq {t : Name} (ht : s.isType t = true) (u : Name) :
    joinBranch ⟨s, current⟩ t u = s.leastUpperBound t u current := by
  refine if_neg ?_
  rcases h.isType_iff.mp ht with rfl | hclass
  · decide
  · exact (h.of_mem_classNames hclass).1

include hcurrent

theorem isJoin_foldl {ts us : List Name} {t : Name} (ht : IsJoin s current ts t)
    (hus : ∀ u ∈ us, s.isType u = true) :
    IsJoin s current (ts ++ us) (us.foldl (joinBranch ⟨s, current⟩) t) := by
  induction us generalizing ts t with
  | nil =>
    rw [append_nil]
    exact ht
  | cons u us ih =>
    rw [forall_mem_cons] at hus
    have hnext := h.isJoin_append hcurrent ht (h.isJoin_singleton hus.1)
    rw [foldl_cons, h.joinBranch_eq ht.isType, append_cons]
    exact ih hnext hus.2

theorem isJoin_branches {ts : List Name} (hne : ts ≠ []) (hts : ∀ t ∈ ts, s.isType t = true) :
    IsJoin s current ts (ts.foldl (joinBranch ⟨s, current⟩) []) := by
  cases ts with
  | nil => exact absurd rfl hne
  | cons t ts =>
    rw [forall_mem_cons] at hts
    exact h.isJoin_foldl hcurrent (h.isJoin_singleton hts.1) hts.2

end Graph

def Unreserved (x : Name) : Prop := x ≠ [] ∧ x.head? ≠ some 95

theorem named_of_unreserved (h : ∀ c ∈ p, Unreserved c.name) : Named p where
  nonempty := fun c hc => (h c hc).1
  notNoClass := by
    intro c hc hname
    have hhead := (h c hc).2
    rw [hname] at hhead
    exact hhead rfl
  notPrimSlot := by
    intro c hc hname
    have hhead := (h c hc).2
    rw [hname] at hhead
    exact hhead rfl

/-- Inside a class of an accepted class graph, conforming orders the types, two types have a
least type above them, and the type of a case is the least one above its branches, in whatever
order they stand. -/
theorem types_joined {p : List Class} {s : Symbols} (hs : GraphAccepted p s)
    (hnames : ∀ c ∈ p, Unreserved c.name) {current : Name}
    (hcurrent : s.classes.has current = true) :
    JoinLaws s current ∧
    ∀ (Γ : Scopes) (m : Mark) (e : Expr) (bs : List (Declared Expr)) (e' : Expr)
      (found : List Finding), infer ⟨s, current⟩ Γ (.typeCase m e bs) = .ok (e', found) →
      ∃ ts, List.Forall₂ (BranchType ⟨s, current⟩ Γ) bs ts ∧
        (ts ≠ [] → (∀ t ∈ ts, s.isType t = true) →
          IsJoin s current ts e'.type ∧
          ∀ cs, cs.Perm bs → ∃ e'' found',
            infer ⟨s, current⟩ Γ (.typeCase m e cs) = .ok (e'', found') ∧ e''.type = e'.type) := by
  have hnamed := named_of_unreserved hnames
  have hgraph := hs.toGraph hnamed
  have hclass := (hgraph.classes current).mp hcurrent
  refine ⟨hgraph.joinLaws hclass, ?_⟩
  intro Γ m e bs e' found hinfer
  rcases infer_typeCase_types.mp ⟨e', found, hinfer, rfl⟩ with ⟨hscrutinee, ts, hts, htype⟩
  refine ⟨ts, hts, fun hne htypes => ?_⟩
  rw [htype]
  have hjoin := hgraph.isJoin_branches hclass hne htypes
  refine ⟨hjoin, fun cs hperm => ?_⟩
  rcases perm_comp_forall₂ hperm hts with ⟨us, hus, hsame⟩
  refine infer_typeCase_types.mpr ⟨hscrutinee, us, hus, ?_⟩
  have hne' : us ≠ [] := by
    rintro rfl
    exact hne (nil_perm.mp hsame)
  have hjoin' := hgraph.isJoin_branches hclass hne'
    fun t ht => htypes t (hsame.mem_iff.mp ht)
  exact hgraph.isJoin_unique hjoin hjoin' fun _ => hsame.mem_iff.symm

def siblingClasses : List Class :=
  [⟨1, "B", some "A", [], "siblings.cl"⟩, ⟨2, "A", some Name.inputOutput, [], "siblings.cl"⟩,
    ⟨3, "C", some "A", [], "siblings.cl"⟩]

def siblingBranches : List (Declared Expr) :=
  [⟨4, "x", "B", .new ⟨"new", 4, []⟩ "B"⟩, ⟨5, "y", "C", .new ⟨"new", 5, []⟩ "C"⟩,
    ⟨6, "z", "A", .object ⟨"self", 6, []⟩ Name.self⟩]

theorem types_joined_siblings :
    (Analysis.fresh.classGraph siblingClasses).1.leastUpperBound Name.selfType "B" "B" = "B" ∧
    IsJoin (Analysis.fresh.classGraph siblingClasses).1 "B" [Name.selfType, "C"] "A" ∧
    IsJoin (Analysis.fresh.classGraph siblingClasses).1 "B" ["B", "C", Name.selfType] "A" ∧
    ∃ e found, infer ⟨(Analysis.fresh.classGraph siblingClasses).1, "B"⟩ Scopes.empty
      (.typeCase ⟨"case", 4, []⟩ (.object ⟨"self", 4, []⟩ Name.self) siblingBranches.reverse) =
        .ok (e, found) ∧ e.type = "A" := by
  have haccepted : Analysis.fresh.faulty (Analysis.fresh.classGraph siblingClasses).2 = false := by
    decide +kernel
  have hnames : ∀ c ∈ siblingClasses, Unreserved c.name := by
    unfold Unreserved
    decide
  have hcurrent : (Analysis.fresh.classGraph siblingClasses).1.classes.has "B" = true := by
    decide +kernel
  rcases types_joined (.graph (a := Analysis.fresh) .initial haccepted) hnames hcurrent with
    ⟨hlaws, hcase⟩
  have hcheck : (passes (infer ⟨(Analysis.fresh.classGraph siblingClasses).1, "B"⟩ Scopes.empty
      (.typeCase ⟨"case", 4, []⟩ (.object ⟨"self", 4, []⟩ Name.self) siblingBranches))
        fun r => r.1.type == "A") = true := by
    decide +kernel
  simp only [passes_iff, beq_iff_eq] at hcheck
  rcases hcheck with ⟨⟨e, found⟩, hinfer, htype⟩
  have hbranches : List.Forall₂ (BranchType ⟨(Analysis.fresh.classGraph siblingClasses).1, "B"⟩
      Scopes.empty) siblingBranches ["B", "C", Name.selfType] :=
    .cons (.of_passes (by decide +kernel)) (.cons (.of_passes (by decide +kernel))
      (.cons (.of_passes (by decide +kernel)) .nil))
  rcases hcase _ _ _ _ _ _ hinfer with ⟨ts, hts, hjoined⟩
  rw [← right_unique_forall₂' BranchType.rightUnique hbranches hts, htype] at hjoined
  rcases hjoined (by decide) (by decide +kernel) with ⟨hjoin, hreversed⟩
  have hpair := hlaws.join Name.selfType "C" (by decide) (by decide +kernel)
  have heq : (Analysis.fresh.classGraph siblingClasses).1.leastUpperBound Name.selfType "C" "B" =
      "A" := by decide +kernel
  rw [heq] at hpair
  exact ⟨by decide +kernel, hpair, hjoin, hreversed _ (reverse_perm _)⟩

end Typing
end CoolCompiler
