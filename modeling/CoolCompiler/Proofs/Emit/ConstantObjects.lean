import CoolCompiler.Proofs.Emit.Citations
import CoolCompiler.Proofs.Emit.Listing

/-!
# Objects of constants

The constants of a program are collected before anything is written.  Each has one object in the
assembly, to which references lead, also after other programs.
-/

namespace CoolCompiler

open List ClassTable Literal

/-!
# What is collected

Apart from literals, code refers to two initial values and to the file of its class.
-/

namespace Expr

theorem citedByAll_eq (file : Text) (es : List Expr) :
    citedByAll file es = es.flatMap (cited file) := by
  induction es with
  | nil => rfl
  | cons e es ih => rw [citedByAll, ih, flatMap_cons]

theorem citedByBindings_eq (file : Text) (bs : List (Declared Expr)) :
    citedByBindings file bs = bs.flatMap fun b => b.value.citedAsInitial file b.type := by
  induction bs with
  | nil => rfl
  | cons b bs ih =>
    cases b
    rw [citedByBindings, ih, flatMap_cons]
    rfl

theorem citedByBranches_eq (file : Text) (bs : List (Declared Expr)) :
    citedByBranches file bs = bs.flatMap fun b => b.value.cited file := by
  induction bs with
  | nil => rfl
  | cons b bs ih =>
    cases b
    rw [citedByBranches, ih, flatMap_cons]

section Collected

variable {P : Literal → Prop} {file : Text} (hzero : P (.int 0)) (hempty : P (.string []))

include hzero hempty

theorem forall_initial (type : Name) : ∀ l ∈ initial type, P l := by
  unfold initial
  split
  · exact forall_mem_singleton.mpr hzero
  · split
    · exact forall_mem_singleton.mpr hempty
    · exact forall_mem_nil _

theorem forall_citedAsInitial {e : Expr} (h : ∀ l ∈ e.cited file, P l) (type : Name) :
    ∀ l ∈ e.citedAsInitial file type, P l := by
  unfold citedAsInitial
  split
  · exact forall_initial hzero hempty type
  · exact h

theorem forall_cited (hfile : P (.string file)) {e : Expr} (h : ∀ l ∈ e.literals, P l) :
    ∀ l ∈ e.cited file, P l := by
  induction e with
  | absent | omitted m | bool m b | object m x | new m t => exact forall_mem_nil _
  | int m n | string m s => exact h
  | assign m x e ih | negate m e ih | complement m e ih | isVoid m e ih => exact ih h
  | dispatch m e t f args ih ihs =>
    simp only [literals, literalsOfAll_eq, forall_mem_append, forall_mem_flatMap] at h
    simp only [cited, citedByAll_eq, forall_mem_append, forall_mem_flatMap,
      forall_mem_singleton]
    exact ⟨fun a ha => ihs a ha (h.1 a ha), ih h.2, hfile⟩
  | binary m op l r ihl ihr =>
    simp only [literals, forall_mem_append] at h
    exact forall_mem_append.mpr ⟨ihl h.1, ihr h.2⟩
  | cond m c t f ihc iht ihf =>
    simp only [literals, forall_mem_append] at h
    simp only [cited, forall_mem_append]
    exact ⟨ihc h.1.1, iht h.1.2, ihf h.2⟩
  | loop m c b ihc ihb =>
    simp only [literals, forall_mem_append] at h
    exact forall_mem_append.mpr ⟨ihc h.1, ihb h.2⟩
  | block m es ihs =>
    simp only [literals, literalsOfAll_eq, forall_mem_flatMap] at h
    simp only [cited, citedByAll_eq, forall_mem_flatMap]
    exact fun e he => ihs e he (h e he)
  | letIn m bs e ihs ih =>
    simp only [literals, literalsOfParts_eq, forall_mem_append, forall_mem_flatMap] at h
    simp only [cited, citedByBindings_eq, forall_mem_append, forall_mem_flatMap]
    exact ⟨fun b hb => forall_citedAsInitial hzero hempty (ihs b hb (h.1 b hb)) b.type, ih h.2⟩
  | typeCase m e bs ih ihs =>
    simp only [literals, literalsOfParts_eq, forall_mem_append, forall_mem_flatMap] at h
    simp only [cited, citedByBranches_eq, forall_mem_append, forall_mem_cons,
      forall_mem_flatMap]
    exact ⟨ih h.1, hfile, fun b hb => ihs b hb (h.2 b hb)⟩

end Collected

end Expr

theorem ClassTable.Built.decl_of_basic {user : List Class} {parents : List (Option Nat)}
    {t : ClassTable} (h : Built user parents t) {n : ClassNode} (hn : n ∈ t.nodes)
    (hbasic : n.isBasic = true) : n.decl ∈ Class.builtin := by
  obtain ⟨c, hc, hname⟩ := mem_map.mp ((Typing.isBasic_iff n.name).mp hbasic)
  have hdecl : n.decl ∈ Class.builtin ++ user := h.map_decl ▸ mem_map_of_mem hn
  rwa [← inj_on_of_nodup_map h.distinct (mem_append_left _ hc) hdecl hname]

namespace Emit

section Interned

variable {user : List Class} {parents : List (Option Nat)} {t : ClassTable} {n : ClassNode}
  (h : Built user parents t) (pool : Pool)

theorem feature_interned (hn : n ∈ t.nodes) (huser : n.isBasic = false) {f : Feature}
    (hf : f ∈ n.decl.features) :
    ∀ l ∈ f.expr.cited n.decl.file, l.Interned (pool.collect t) :=
  Expr.forall_cited pool.zero_interned pool.empty_interned (pool.file_interned hn huser)
    fun _ hl => pool.literal_interned hn huser hf hl

theorem citedByMethods_interned (hn : n ∈ t.nodes) (huser : n.isBasic = false) :
    ∀ l ∈ citedByMethods n, l.Interned (pool.collect t) := by
  rw [citedByMethods, forall_mem_flatMap]
  intro m hm
  obtain ⟨f, hf, hmethod⟩ := mem_filterMap.mp hm
  cases f with
  | attr a => cases hmethod
  | method m' =>
    cases hmethod
    exact feature_interned pool hn huser hf

include h in
theorem init_interned (hn : n ∈ t.nodes) (x : Name) (type : Name) :
    ∀ l ∈ (initOf n.decl x).citedAsInitial n.decl.file type, l.Interned (pool.collect t) := by
  refine Expr.forall_citedAsInitial pool.zero_interned pool.empty_interned ?_ type
  unfold initOf
  cases hfind : n.decl.attributes.reverse.find? fun a => a.name == x with
  | none => exact forall_mem_nil _
  | some a =>
    have ha : a ∈ n.decl.attributes := mem_reverse.mp (mem_of_find?_eq_some hfind)
    cases hbasic : n.isBasic with
    | true =>
      obtain ⟨m, hinit⟩ := omitted_of_builtin _ (h.decl_of_basic hn hbasic) a ha
      simp only [Option.map_some, Option.getD_some, hinit]
      exact forall_mem_nil _
    | false =>
      obtain ⟨f, hf, hattribute⟩ := mem_filterMap.mp ha
      cases f with
      | attr b =>
        cases hattribute
        exact feature_interned pool hn hbasic hf
      | method m => cases hattribute

include h in
theorem citedByInit_interned (hn : n ∈ t.nodes) :
    ∀ l ∈ citedByInit t n, l.Interned (pool.collect t) := by
  unfold citedByInit
  split
  · rw [forall_mem_flatMap]
    exact fun slot _ => init_interned h pool hn slot.name slot.type
  · exact forall_mem_nil _

include h in
theorem citedByCode_interned : ∀ l ∈ citedByCode t, l.Interned (pool.collect t) := by
  simp only [citedByCode, forall_mem_append, forall_mem_map, forall_mem_flatMap]
  refine ⟨fun n hn => pool.name_interned hn, fun n hn => ?_, fun n hn => ?_⟩
  · exact citedByInit_interned h pool (h.mem_preorder_iff.mp hn)
  · rw [mem_filter] at hn
    exact citedByMethods_interned pool (h.mem_preorder_iff.mp hn.1) (by simpa using hn.2)

end Interned

/-!
# Objects
-/

/-- The label of an address is defined once, at the object of a constant.  The object of a string
refers to that of its length. -/
inductive Denotes (t : ClassTable) (ls : List Line) : Address → Literal → Prop where
  | int {n : ClassNode} {k : Nat} {v : Int} (hclass : t.find? Name.int = some n)
      (honce : (labelDefs ls).count (intLabel k) = 1) (hobject : intObject n k v <:+: ls) :
      Denotes t ls ⟨intLabel k, 0⟩ (.int v)
  | string {n : ClassNode} {k : Nat} {s : Text} {length : Address}
      (hclass : t.find? Name.string = some n)
      (honce : (labelDefs ls).count (stringLabel k) = 1)
      (hobject : staticObject (stringLabel k) n (stringSize s) [.word length, .string s] <:+: ls)
      (hlength : Denotes t ls length (.int s.length)) :
      Denotes t ls ⟨stringLabel k, 0⟩ (.string s)

/-- The constants that data refers to: the lengths of strings, and the length of the string that
new strings are copies of. -/
def citedByData (sc : Scene) : List Literal :=
  sc.pool.strings.values.map (fun s => .int s.length) ++
    sc.table.nodes.flatMap fun n => if n.name = Name.string then [.int 0] else []

def cited (sc : Scene) : List Literal := citedByData sc ++ citedByCode sc.table

def constantLabels (pool : Pool) : List Name :=
  (List.range pool.strings.size).map stringLabel ++ (List.range pool.ints.size).map intLabel

theorem nodup_constantLabels (pool : Pool) : (constantLabels pool).Nodup := by
  refine nodup_append'.mpr ⟨?_, ?_, ?_⟩
  · refine nodup_range.map fun i j heq => ?_
    exact Text.decimal_injective (append_cancel_left heq)
  · refine nodup_range.map fun i j heq => ?_
    exact Text.decimal_injective (append_cancel_left heq)
  · intro x hstring hint
    obtain ⟨i, _, rfl⟩ := mem_map.mp hstring
    obtain ⟨j, _, heq⟩ := mem_map.mp hint
    have hhead := congrArg (fun x : Name => x.headD 0) heq
    simp only [headD_stringLabel, headD_intLabel] at hhead
    exact absurd hhead (by decide)

structure Pooled (sc : Scene) (ls : List Line) : Prop where
  defined : constantDefs ls = constantLabels sc.pool
  cites : citations ls = (citedByData sc).map (address sc.pool)
  ints : ∀ v k, sc.pool.ints.find? v = some k →
    ∃ n, sc.table.find? Name.int = some n ∧ intObject n k v <:+: ls
  strings : ∀ s k, sc.pool.strings.find? s = some k →
    ∃ n j, sc.table.find? Name.string = some n ∧ sc.pool.ints.find? (s.length : Int) = some j ∧
      staticObject (stringLabel k) n (stringSize s) [.word ⟨intLabel j, 0⟩, .string s] <:+: ls

section Data

variable {σ : Type} {sc : Scene} {s s' : σ} {ls rest : List Line} {u : Unit} {n : ClassNode}

theorem header_plain (tables : Option Text) : (header tables).all Line.isPlain = true := by
  have hfiles : ∀ files : List Text, (files.map Line.includeFile).all Line.isPlain = true := by
    intro files
    rw [all_map, all_eq_true]
    exact fun _ _ => rfl
  simp only [header, all_append, hfiles, Bool.true_and, Bool.and_true]
  decide

theorem boolObjects_plain (n : ClassNode) :
    (boolObject n false ++ boolObject n true).all Line.isPlain = true := by
  simp +decide [boolObject, staticObject, Line.isPlain, Line.cites, Line.defines]

theorem stringRows_constants (sc : Scene) (n : ClassNode) (es : List (Entry Text)) :
    constantDefs (es.flatMap (stringRow sc n)) = es.map (fun e => stringLabel e.id) ∧
      citations (es.flatMap (stringRow sc n)) =
        es.map fun e => (Literal.int e.value.length).address sc.pool := by
  induction es with
  | nil => exact ⟨rfl, rfl⟩
  | cons e es ih =>
    rw [flatMap_cons, constantDefs_append, citations_append, ih.1, ih.2]
    constructor
    · show List.filter _ [stringLabel e.id] ++ _ = _
      simp
    · simp [citations, stringRow, stringObject, staticObject, Line.cites]

theorem intObjects_constants (n : ClassNode) (es : List (Entry Int)) :
    constantDefs (es.flatMap fun e => intObject n e.id e.value) = es.map (fun e => intLabel e.id) ∧
      citations (es.flatMap fun e => intObject n e.id e.value) = [] := by
  induction es with
  | nil => exact ⟨rfl, rfl⟩
  | cons e es ih =>
    rw [flatMap_cons, constantDefs_append, citations_append, ih.1, ih.2]
    constructor
    · show List.filter _ [intLabel e.id] ++ _ = _
      simp
    · simp [citations, intObject, staticObject, Line.cites]

theorem prototypes_constants {k : Nat} (hk : sc.pool.ints.find? 0 = some k)
    (ns : List ClassNode) :
    constantDefs (ns.flatMap (prototype ⟨intLabel k, 0⟩)) = [] ∧
      citations (ns.flatMap (prototype ⟨intLabel k, 0⟩)) =
        (ns.flatMap fun n => if n.name = Name.string then [.int 0] else []).map
          (address sc.pool) := by
  induction ns with
  | nil => exact ⟨rfl, rfl⟩
  | cons n ns ih =>
    rw [flatMap_cons, flatMap_cons, map_append, constantDefs_append,
      citations_append, ih.1, ih.2]
    constructor
    · simp [constantDefs, labelDefs_prototype]
    · unfold prototype
      split
      · simp [citations, staticObject, Line.cites, address, hk]
      · simp [citations, staticObject, Line.cites, flatMap_replicate]

theorem pooled_beforeTables {tables : Option Text}
    (h : Yields (beforeTables sc tables) s ls u s') : Pooled sc ls := by
  rcases sections_of_beforeTables h with
    ⟨int, bool, string, constantLines, k, s1, s2, hconstants, hk, hls⟩
  rcases yields_constants hconstants with
    ⟨stringNode, intNode, boolNode, hstring, hint, -, hlengths, rfl⟩
  have hheader := header_plain tables
  have htags : (tagLines int bool string).all Line.isPlain = true := rfl
  have hbools := boolObjects_plain boolNode
  obtain ⟨hstringDefs, hstringCites⟩ := stringRows_constants sc stringNode sc.pool.strings.entries
  obtain ⟨hintDefs, hintCites⟩ := intObjects_constants intNode sc.pool.ints.entries
  obtain ⟨hprotoDefs, hprotoCites⟩ := prototypes_constants hk sc.table.nodes
  have hwithin : ∀ block, block <:+: sc.pool.strings.entries.flatMap (stringRow sc stringNode) ++
      sc.pool.ints.entries.flatMap (fun e => intObject intNode e.id e.value) → block <:+: ls := by
    intro block hblock
    refine hblock.trans ?_
    rw [hls]
    refine ⟨header tables ++ tagLines int bool string, boolObject boolNode false ++
      boolObject boolNode true ++ sc.table.nodes.flatMap (prototype ⟨intLabel k, 0⟩), ?_⟩
    simp only [append_assoc]
  constructor
  · simp only [hls, constantDefs_append, constantDefs_of_plain hheader,
      constantDefs_of_plain htags, hstringDefs, hintDefs, constantDefs_of_plain hbools, hprotoDefs,
      nil_append, append_nil, constantLabels, Numbering.map_id, range_eq_range']
  · simp only [hls, citations_append, citations_of_plain hheader, citations_of_plain htags,
      hstringCites, hintCites, citations_of_plain hbools, hprotoCites, nil_append,
      append_nil, citedByData, Numbering.values, map_append, map_map]
    rfl
  · intro v j hj
    have hobject := listed_of_find? hj fun e => intObject intNode e.id e.value
    exact ⟨intNode, hint, hwithin _ (hobject.trans (suffix_append _ _).isInfix)⟩
  · intro text j hj
    obtain ⟨i, hi⟩ := Option.isSome_iff_exists.mp
      (hlengths ⟨j, text⟩ (Numbering.mem_entries_of_find? hj))
    have hobject := listed_of_find? hj (stringRow sc stringNode)
    rw [stringRow, Literal.address, hi] at hobject
    exact ⟨stringNode, i, hstring, hi, hwithin _ (hobject.trans (prefix_append _ _).isInfix)⟩

namespace Pooled

variable (h : Pooled sc ls) (hrest : constantDefs rest = [])
include h hrest

theorem count_eq_one {x : Name} (hx : x ∈ constantLabels sc.pool)
    (hconstant : isConstantLabel x = true) : (labelDefs (ls ++ rest)).count x = 1 := by
  rw [← count_filter (p := isConstantLabel) hconstant]
  change (constantDefs (ls ++ rest)).count x = 1
  rw [constantDefs_append, h.defined, hrest, append_nil]
  exact count_eq_one_of_mem (nodup_constantLabels _) hx

theorem denotes_int {v : Int} {k : Nat} (hk : sc.pool.ints.find? v = some k) :
    Denotes sc.table (ls ++ rest) ⟨intLabel k, 0⟩ (.int v) := by
  obtain ⟨n, hclass, hobject⟩ := h.ints v k hk
  refine .int hclass (h.count_eq_one hrest ?_ (isConstantLabel_intLabel k))
    (hobject.trans (prefix_append _ _).isInfix)
  exact mem_append_right _ (mem_map_of_mem (mem_range.mpr (Numbering.lt_size hk)))

theorem denotes_string {text : Text} {k : Nat} (hk : sc.pool.strings.find? text = some k) :
    Denotes sc.table (ls ++ rest) ⟨stringLabel k, 0⟩ (.string text) := by
  obtain ⟨n, j, hclass, hj, hobject⟩ := h.strings text k hk
  refine .string hclass (h.count_eq_one hrest ?_ (isConstantLabel_stringLabel k))
    (hobject.trans (prefix_append _ _).isInfix) (h.denotes_int hrest hj)
  exact mem_append_left _ (mem_map_of_mem (mem_range.mpr (Numbering.lt_size hk)))

theorem denotes {l : Literal} (hl : l.Interned sc.pool) :
    Denotes sc.table (ls ++ rest) (l.address sc.pool) l := by
  cases l with
  | int v =>
    obtain ⟨k, hk⟩ := Option.isSome_iff_exists.mp hl
    rw [address, hk]
    exact h.denotes_int hrest hk
  | string text =>
    obtain ⟨k, hk⟩ := Option.isSome_iff_exists.mp hl
    rw [address, hk]
    exact h.denotes_string hrest hk

end Pooled

/-- Lines in which the references to constants denote `cs`, also together with dispatch tables in
a file. -/
def Denoting (sc : Scene) (ls : List Line) (cs : List Literal) : Prop :=
  ∀ tables, tables.all Line.isPlain = true →
    List.Forall₂ (Denotes sc.table (ls ++ tables)) (citations (ls ++ tables)) cs

theorem Pooled.denoting (h : Pooled sc ls) (hlengths : sc.pool.LengthsInterned)
    (hzero : Literal.Interned sc.pool (.int 0)) {cs : List Literal}
    (hcs : ∀ l ∈ cs, l.Interned sc.pool) (rest : List Line) (hplain : constantDefs rest = [])
    (hcites : citations rest = cs.map (address sc.pool)) :
    Denoting sc (ls ++ rest) (citedByData sc ++ cs) := by
  intro tables htables
  have hall : ∀ l ∈ citedByData sc ++ cs, l.Interned sc.pool := by
    simp only [citedByData, forall_mem_append, forall_mem_map, forall_mem_flatMap]
    refine ⟨⟨hlengths, fun n _ => ?_⟩, hcs⟩
    split
    · exact forall_mem_singleton.mpr hzero
    · exact forall_mem_nil _
  have hrest : constantDefs (rest ++ tables) = [] := by
    rw [constantDefs_append, hplain, constantDefs_of_plain htables, append_nil]
  have hwhole : citations (ls ++ (rest ++ tables)) =
      (citedByData sc ++ cs).map (address sc.pool) := by
    rw [citations_append, citations_append, citations_of_plain htables, append_nil, h.cites,
      hcites, map_append]
  rw [append_assoc, hwhole, forall₂_map_left_iff, forall₂_same]
  exact fun l hl => h.denotes hrest (hall l hl)

end Data

/-!
# Programs
-/

section Programs

variable {user : List Class} {parents : List (Option Nat)} {t : ClassTable} {pool : Pool}
  (h : Built user parents t) (hpool : pool.LengthsInterned)
include h hpool

theorem beforeTables_pooled (tables : Option Text) (labels : Nat) :
    ∃ ls k, Yields (beforeTables ⟨t, pool.collect t⟩ tables) labels ls () k ∧
      Pooled ⟨t, pool.collect t⟩ ls := by
  obtain ⟨ls, u, k, hyields, -⟩ := (beforeTables_succeeds h hpool tables labels).exists_yields
  exact ⟨ls, k, hyields, pooled_beforeTables hyields⟩

theorem beforeTables_denoting (tables : Option Text) (labels : Nat) :
    Denoting ⟨t, pool.collect t⟩ (beforeTables ⟨t, pool.collect t⟩ tables labels).lines
      (citedByData ⟨t, pool.collect t⟩) := by
  obtain ⟨ls, k, ⟨hlines, -, -⟩, hpooled⟩ := beforeTables_pooled h hpool tables labels
  have hdenoting := hpooled.denoting (Pool.lengthsInterned_collect hpool t) pool.zero_interned
    (forall_mem_nil _) [] rfl rfl
  rwa [append_nil, append_nil, ← hlines] at hdenoting

theorem program_denoting {y : Emit Nat Unit}
    (hy : Cites ⟨t, pool.collect t⟩ AnyCount (citedByCode t) y) (tables : Option Text)
    (labels : Nat) :
    let e := (beforeTables ⟨t, pool.collect t⟩ tables >>= fun _ => y) labels
    (∀ fault, e.outcome = .error fault → fault.isMissingConstant = false) ∧
    ∃ cs, cs <+: cited ⟨t, pool.collect t⟩ ∧
      (e.outcome = .ok () → cs = cited ⟨t, pool.collect t⟩) ∧
      Denoting ⟨t, pool.collect t⟩ e.lines cs := by
  obtain ⟨ls, k, ⟨hlines, hstate, hok⟩, hpooled⟩ := beforeTables_pooled h hpool tables labels
  have hinterned := citedByCode_interned h pool
  have hlengths := Pool.lengthsInterned_collect hpool t
  simp only [bind_of_ok hok, hlines, hstate]
  have hcited := hy k trivial
  refine ⟨fun fault hfault => hcited.found fault hfault hinterned, ?_⟩
  -- A prefix of the addresses is one of the constants.
  have hbegun := prefix_iff_eq_take.mp hcited.begun
  rw [← map_take] at hbegun
  refine ⟨citedByData ⟨t, pool.collect t⟩ ++ (citedByCode t).take (citations (y k).lines).length,
    ?_, ?_, ?_⟩
  · exact (prefix_append_right_inj _).mpr <| take_prefix _ _
  · intro houtcome
    rw [(hcited.ended () houtcome).2, length_map, take_length]
    rfl
  · exact hpooled.denoting hlengths pool.zero_interned
      (fun l hl => hinterned l (mem_of_mem_take hl)) _ hcited.plain hbegun

end Programs

end Emit

/-!
# Runs
-/

namespace Generator

open Emit

variable {g : Generator} {sink : Sink} {r : Generated}

/-- A run in which no constant is missing, and each reference to a constant in the lines written
denotes it. -/
structure Denoted (t : ClassTable) (sink : Sink) (r : Generated) : Prop where
  found : ∀ fault, r.failure = some (.fault fault) → fault.isMissingConstant = false
  denotes : ∃ written cs, r.assembly = (sink.writeAll written).2 ∧
    (r.failure = none → r.assembly = written) ∧ cs <+: cited ⟨t, r.generator.pool⟩ ∧
    (r.failure = none → cs = cited ⟨t, r.generator.pool⟩) ∧
    List.Forall₂ (Denotes t (written ++ r.tables)) (citations (written ++ r.tables)) cs

section Program

variable {user : List Class} {parents : List (Option Nat)} {t : ClassTable}
  (h : Built user parents t)
include h

theorem finish_denoted {pool : Pool} (hpool : pool.LengthsInterned)
    (hg : g.pool = pool.collect t) {y : Emit Nat Unit}
    (hy : Cites ⟨t, pool.collect t⟩ AnyCount (citedByCode t) y) {file : Option Text}
    {labels : Nat} {tables : List Line} (htables : tables.all Line.isPlain = true) {opening : Nat}
    {notes : List EmitNote}
    (hr : g.finish sink tables opening notes
      ((beforeTables ⟨t, pool.collect t⟩ file >>= fun _ => y) labels) = r) :
    Denoted t sink r := by
  obtain ⟨hfound, cs, hprefix, hended, hdenoting⟩ := program_denoting h hpool hy file labels
  obtain ⟨hgenerator, rfl, hassembly, hfault⟩ := finish_account hr
  constructor
  · exact fun fault hfailure => hfound fault (hfault fault hfailure)
  · rw [hgenerator]
    simp only [hg]
    refine ⟨_, cs, hassembly, ?_, hprefix, ?_, hdenoting _ htables⟩
    · exact fun hok => (finish_of_success hr hok).2.1
    · exact fun hok => hended (finish_of_success hr hok).1

theorem run_denoted (hpool : g.pool.LengthsInterned) {tableSink : Option Sink}
    (hr : g.run user sink tableSink = r) : Denoted t sink r := by
  have hbuild : build user = .ok t := (build_eq_ok_iff user t).mpr ⟨_, h⟩
  have hafter : Cites ⟨t, g.pool.collect t⟩ AnyCount (citedByCode t)
      (afterTables ⟨t, g.pool.collect t⟩) := .afterTables
  have htables : ∀ ts : Sink, (ts.writeAll (dispatchTables t)).2.all Line.isPlain = true := by
    intro ts
    rw [all_eq_true]
    intro l hl
    exact all_eq_true.mp (dispatchTables_plain t) l (Sink.arrived_subset _ _ hl)
  have hsame : ∀ {t'}, build user = .ok t' → t' = t := by
    intro t' hbuild'
    rw [hbuild] at hbuild'
    exact (Except.ok.inj hbuild').symm
  have hcourse := hr ▸ run_course g user sink tableSink
  cases hcourse with
  | rejected herror =>
    rw [hbuild] at herror
    cases herror
  | inline notes hbuild' hr =>
    cases hsame hbuild'
    have hinline := (Cites.plainLines (dispatchTables_plain t)).after fun _ => hafter
    exact finish_denoted h hpool rfl hinline rfl hr
  | broken hbuild' hbefore =>
    cases hsame hbuild'
    obtain ⟨_, _, hyields, -⟩ := beforeTables_pooled h hpool (some g.tableFile) g.labels
    rw [hyields.outcome] at hbefore
    cases hbefore
  | crowded hbuild' =>
    cases hsame hbuild'
    refine ⟨fun _ hfault => (by cases hfault), _, _, rfl, fun hok => (by cases hok),
      prefix_append _ _, fun hok => (by cases hok), ?_⟩
    exact beforeTables_denoting h hpool _ _ _ (htables _)
  | split hbuild' hroom hr =>
    cases hsame hbuild'
    exact finish_denoted h hpool rfl hafter (htables _) hr

end Program

theorem lengthsInterned_run (p : Program) (sink : Sink) (tableSink : Option Sink)
    (hpool : g.pool.LengthsInterned) :
    (g.run p sink tableSink).generator.pool.LengthsInterned := by
  have hload : ∀ t, (g.load t).pool.LengthsInterned := Pool.lengthsInterned_collect hpool
  have hcourse := run_course g p sink tableSink
  generalize g.run p sink tableSink = r at hcourse
  cases hcourse with
  | rejected => exact hpool
  | broken | crowded => exact hload _
  | inline notes hbuild hr | split hbuild hroom hr =>
    rw [(finish_account hr).1]
    exact hload _

/-- Whatever programs a generator has taken before, generating code for a program that has a class
table never lacks a constant.  The references to constants in what is written denote, in order,
the constants that they stand for. -/
theorem runs_constants_denote (tableFile : Text) (jobs : List Job) (i : Nat) (job : Job)
    (r : Generated) (t : ClassTable) (hjob : jobs[i]? = some job)
    (hr : ((fresh tableFile).runs jobs)[i]? = some r)
    (hbuild : ClassTable.build job.program = .ok t) :
    (∀ fault, r.failure = some (.fault fault) → fault.isMissingConstant = false) ∧
    ∃ written cs, r.assembly = (job.sink.writeAll written).2 ∧
      (job.sink.Unlimited ∨ r.failure = none → r.assembly = written) ∧
      cs <+: cited ⟨t, r.generator.pool⟩ ∧
      (r.failure = none → cs = cited ⟨t, r.generator.pool⟩) ∧
      List.Forall₂ (Denotes t (written ++ r.tables)) (citations (written ++ r.tables)) cs := by
  have hfresh : (fresh tableFile).pool.LengthsInterned := Pool.lengthsInterned_empty
  rcases exists_run_of_preserved (P := fun g => g.pool.LengthsInterned)
    (fun _ _ hpool => lengthsInterned_run _ _ _ hpool) hfresh hjob hr with ⟨g, hpool, hrun⟩
  rcases (ClassTable.build_eq_ok_iff _ t).mp hbuild with ⟨parents, hbuilt⟩
  rcases run_denoted hbuilt hpool hrun with
    ⟨hfound, written, cs, hassembly, hwhole, hprefix, hended, hdenotes⟩
  refine ⟨hfound, written, cs, hassembly, ?_, hprefix, hended, hdenotes⟩
  rintro (hsink | hok)
  · rw [hassembly]
    exact (Sink.writeAll_of_not_failed (Sink.unlimited_writeAll hsink written).2).2
  · exact hwhole hok

def unrelatedJobs : List Job :=
  [⟨(Grammar.parse "a.cl" "class Main { main() : Int { 7 }; };").classes, Sink.fresh none, none⟩,
    ⟨(Grammar.parse "b.cl" "class Main \x7b s : String; n : Int <- 12;
main() : Object \x7b case n of x : Int => \"seven\"; esac \x7d; \x7d;").classes,
      Sink.fresh none, some (Sink.fresh none)⟩]

theorem runs_constants_denote_reused : ∃ job r t, unrelatedJobs[1]? = some job ∧
    ((fresh []).runs unrelatedJobs)[1]? = some r ∧ ClassTable.build job.program = .ok t ∧
    r.failure = none ∧ .string "seven" ∈ cited ⟨t, r.generator.pool⟩ ∧
    List.Forall₂ (Denotes t (r.assembly ++ r.tables)) (citations (r.assembly ++ r.tables))
      (cited ⟨t, r.generator.pool⟩) := by
  have hjobs : ∃ job r, unrelatedJobs[1]? = some job ∧
      ((fresh []).runs unrelatedJobs)[1]? = some r := ⟨_, _, rfl, rfl⟩
  rcases hjobs with ⟨job, r, hjob, hr⟩
  have hcheck : (unrelatedJobs[1]?.any fun job => ((fresh []).runs unrelatedJobs)[1]?.any fun r =>
      r.failure.isNone && passes (ClassTable.build job.program) fun t =>
        decide (.string "seven" ∈ cited ⟨t, r.generator.pool⟩)) = true := by
    decide +kernel
  simp only [hjob, hr, Option.any_some, Bool.and_eq_true, Option.isNone_iff_eq_none, passes_iff,
    decide_eq_true_eq] at hcheck
  rcases hcheck with ⟨hok, t, hbuild, hseven⟩
  rcases runs_constants_denote [] unrelatedJobs 1 job r t hjob hr hbuild with
    ⟨-, written, cs, -, hwhole, -, hcs, hdenotes⟩
  rw [← hwhole (.inr hok), hcs hok] at hdenotes
  exact ⟨job, r, t, hjob, hr, hbuild, hok, hseven, hdenotes⟩

end Generator
end CoolCompiler
