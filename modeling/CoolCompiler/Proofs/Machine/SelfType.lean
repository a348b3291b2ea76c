import CoolCompiler.Proofs.Emit.Initialisation
import CoolCompiler.Proofs.Machine.CaseSelect
import CoolCompiler.Proofs.Machine.Convention

/-!
# Objects of the class of self

Tables that are indexed by tag give the prototype, the initialisation routine and the name of each
class.  The code that makes an object of the class of `self` takes the row of the object in ix,
whatever class its text stands in.
-/

namespace CoolCompiler.Machine

open List ClassTable Instr

open Emit

/-- The lines that are written for the constants and prototypes of a program, and for its
tables that are indexed by tag. -/
structure DataLines (sc : Scene) (data tables : List Line) : Prop where
  data : ∃ k k' : Nat, Yields (do constants sc; prototypes sc) k data () k'
  tables : ∃ k k' : Nat, Yields (classTables sc) k tables () k'

theorem exists_dataLines {user : List Class} {parents : List (Option Nat)} {t : ClassTable}
    (h : Built user parents t) {pool : Pool} (hlengths : pool.LengthsInterned) :
    ∃ data tables, DataLines ⟨t, pool.collect t⟩ data tables := by
  have hdata : Succeeds (do constants ⟨t, pool.collect t⟩; prototypes ⟨t, pool.collect t⟩) :=
    (constants_succeeds h hlengths).bind fun _ => prototypes_succeeds
  have htables : Succeeds (classTables ⟨t, pool.collect t⟩) := classTables_succeeds
  obtain ⟨data, _, k, hyields, -⟩ := (hdata 0).exists_yields
  obtain ⟨tables, _, k', hyields', -⟩ := (htables 0).exists_yields
  exact ⟨data, tables, ⟨0, k, hyields⟩, ⟨0, k', hyields'⟩⟩

def objectRow (value : Name → Word) (tag : Nat) : Word :=
  value classObjectTable + BitVec.ofNat 16 (4 * tag)

structure ObjectRow (value : Name → Word) (P : Word → Prop) (memory : Memory) (n : ClassNode) :
    Prop where
  prototype : memory.word (objectRow value n.tag) = value n.prototypeLabel
  init : memory.word (objectRow value n.tag + 2#16) = value n.initLabel
  holds : ∀ k, k < 4 → P (objectRow value n.tag + BitVec.ofNat 16 k)

/-- The row of a class has its prototype and its initialisation routine, the prototype begins with
the tag, and the row in the table of names refers to a string object with its name. -/
structure ClassRow (sc : Scene) (value : Name → Word) (memory : Memory) (n : ClassNode) :
    Prop where
  prototype : memory.word (objectRow value n.tag) = value n.prototypeLabel
  init : memory.word (objectRow value n.tag + 2#16) = value n.initLabel
  tag : memory.word (value n.prototypeLabel) = BitVec.ofNat 16 n.tag
  name : ∃ k string length p, sc.pool.strings.find? n.name = some k ∧
    memory.word (value classNameTable + BitVec.ofNat 16 (2 * n.tag)) = value (stringLabel k) ∧
    sc.table.find? Name.string = some string ∧
    sc.pool.ints.find? (n.name.length : Int) = some length ∧
    Laid value memory p (staticObject (stringLabel k) string (stringSize n.name)
      [.word ⟨intLabel length, 0⟩, .string n.name])

section Rows

variable {user : List Class} {parents : List (Option Nat)} {t : ClassTable} {pool : Pool}
  {value : Name → Word} {P : Word → Prop} {memory : Memory} {p : Word} {n : ClassNode}
  {data tables : List Line}

theorem DataLines.row (hbuilt : Built user parents t)
    (hlines : DataLines ⟨t, pool⟩ data tables) (h : Lies value P memory p tables)
    (hn : n ∈ t.nodes) :
    ObjectRow value P memory n := by
  obtain ⟨_, _, hyields⟩ := hlines.tables
  rw [(yields_classTables hyields).1] at h
  have hsize : ∀ n ∈ t.nodes,
      extent [.word ⟨n.prototypeLabel, 0⟩, .word ⟨n.initLabel, 0⟩] = 4 := fun _ _ => rfl
  have hrow : Lies value P memory (objectRow value n.tag)
      ([.word ⟨n.prototypeLabel, 0⟩] ++ [.word ⟨n.initLabel, 0⟩]) :=
    h.append.1.label.block hsize (hbuilt.getElem?_tag hn)
  exact ⟨hrow.append.1.reference.1, hrow.append.2.reference.1, hrow.holds⟩

theorem DataLines.nameRow (hbuilt : Built user parents t)
    (hlines : DataLines ⟨t, pool⟩ data tables) (h : Laid value memory p tables)
    (hn : n ∈ t.nodes) :
    ∃ k, pool.strings.find? n.name = some k ∧
      memory.word (value classNameTable + BitVec.ofNat 16 (2 * n.tag)) = value (stringLabel k) := by
  obtain ⟨_, _, hyields⟩ := hlines.tables
  obtain ⟨rfl, hall⟩ := yields_classTables hyields
  obtain ⟨k, hk⟩ := Option.isSome_iff_exists.mp (hall n hn)
  have hnames := h.lies.append.2.label.append.1
  rw [map_eq_flatMap] at hnames
  have hsize : ∀ n ∈ t.nodes, extent
      [.word ⟨stringLabel ((pool.strings.find? n.name).getD 0), 0⟩] = 2 := fun _ _ => rfl
  have hword := (hnames.block hsize (hbuilt.getElem?_tag hn)).reference.1
  rw [hk] at hword
  exact ⟨k, hk, hword⟩

theorem DataLines.tag (hlines : DataLines ⟨t, pool⟩ data tables) (h : Laid value memory p data)
    (hn : n ∈ t.nodes) : memory.word (value n.prototypeLabel) = BitVec.ofNat 16 n.tag := by
  obtain ⟨_, _, hyields⟩ := hlines.data
  obtain ⟨first, _, _, second, -, hprototypes, rfl⟩ := yields_bind.mp hyields
  obtain ⟨k, -, rfl⟩ := yields_prototypes hprototypes
  have hwithin : prototype ⟨intLabel k, 0⟩ n <:+: t.nodes.flatMap (prototype ⟨intLabel k, 0⟩) :=
    infix_of_mem_flatten (mem_map_of_mem hn)
  obtain ⟨q, hprototype⟩ := h.lies.append.2.part hwithin
  obtain ⟨contents, hlinesEq⟩ := prototype_eq ⟨intLabel k, 0⟩ n
  rw [hlinesEq] at hprototype
  rw [hprototype.append.2.label.number, BitVec.ofInt_natCast]

theorem DataLines.stringObject (hlines : DataLines ⟨t, pool⟩ data tables)
    (h : Laid value memory p data) {text : Text} {k : Nat}
    (hk : pool.strings.find? text = some k) :
    ∃ string length q, t.find? Name.string = some string ∧
      pool.ints.find? (text.length : Int) = some length ∧
      Laid value memory q (staticObject (stringLabel k) string (stringSize text)
        [.word ⟨intLabel length, 0⟩, .string text]) := by
  obtain ⟨_, _, hyields⟩ := hlines.data
  obtain ⟨first, _, _, second, hconstants, -, rfl⟩ := yields_bind.mp hyields
  obtain ⟨string, _, _, hstring, -, -, hlengths, rfl⟩ := yields_constants hconstants
  obtain ⟨length, hlength⟩ := Option.isSome_iff_exists.mp
    (hlengths ⟨k, text⟩ (Numbering.mem_entries_of_find? hk))
  obtain ⟨q, hobject⟩ := h.lies.append.1.append.1.part (listed_of_find? hk _)
  rw [stringRow, Literal.address, hlength] at hobject
  exact ⟨string, length, q, hstring, hlength, hobject.laid⟩

theorem DataLines.classRow (hbuilt : Built user parents t)
    (hlines : DataLines ⟨t, pool⟩ data tables) {q : Word} (hdata : Laid value memory p data)
    (htables : Laid value memory q tables) (hn : n ∈ t.nodes) :
    ClassRow ⟨t, pool⟩ value memory n := by
  obtain ⟨k, hk, hname⟩ := hlines.nameRow hbuilt htables hn
  obtain ⟨string, length, r, hstring, hlength, hobject⟩ := hlines.stringObject hdata hk
  have hrow := hlines.row hbuilt htables.lies hn
  constructor
  · exact hrow.prototype
  · exact hrow.init
  · exact hlines.tag hdata hn
  · exact ⟨k, string, length, r, hk, hname, hstring, hlength, hobject⟩

end Rows

/-!
# The code
-/

def toPrototype : List Instr :=
  loadWord .de ⟨.ix, tagOffset⟩ ++
    [exDeHl, .add .hl .hl, .add .hl .hl, loadLabel .de classObjectTable, .add .hl .de,
     .push .hl] ++ loadIndirect .de ++ [exDeHl]

def toInit : List Instr :=
  [pop .de, .inc .de, .inc .de, .push .hl, .exDeHl] ++ loadIndirect .de ++
    [pop .hl]

theorem newSelfType_eq (back : Name) :
    newSelfType back = code toPrototype ++ .instr (.call "Object.copy") ::
      (code toInit ++ (code (callPair .de back) ++ [.label back])) := rfl

section Code

variable {m : Image} {i : Nat} {s s₂ : Cpu}

theorem row_place (w base : Word) (tag : Nat) (h : w = BitVec.ofNat 16 tag) :
    w + w + (w + w) + base = base + BitVec.ofNat 16 (4 * tag) := by
  have hfour : BitVec.ofNat 16 (4 * tag) = BitVec.ofNat 16 4 * w := by
    rw [h, ← BitVec.ofNat_mul]
  rw [hfour]
  bv_omega

theorem runs_toPrototype (value : Name → Word) {tag : Nat} {prototype : Word}
    (htag : s.memory.word s.ix = BitVec.ofNat 16 tag)
    (hclear : Clear s (objectRow value tag) ∧ Clear s (objectRow value tag + 1#16))
    (hword : s.memory.word (objectRow value tag) = prototype) :
    ∃ s', Runs value (Clear s) s toPrototype s' ∧ s'.hl = prototype ∧ s'.ix = s.ix ∧
      s'.iy = s.iy ∧ s'.sp = s.sp - 2#16 ∧ s'.memory.word s'.sp = objectRow value tag := by
  have hread : Runs value (Clear s) s (loadWord .de ⟨.ix, tagOffset⟩)
      (s.setPair (s.memory.word (s.ix + BitVec.ofInt 16 0)) .de) :=
    runs_loadPair .de rfl (by decide)
  rw [show s.ix + BitVec.ofInt 16 0 = s.ix from BitVec.add_zero _] at hread
  let w := s.memory.word s.ix
  let base := value classObjectTable + BitVec.ofInt 16 0
  -- A row has two words, so the tag is doubled twice.
  have hrow : w + w + (w + w) + base = objectRow value tag := by
    rw [row_place w base tag htag]
    exact congrArg (· + _) (BitVec.add_zero _)
  let s1 : Cpu := { s with
    de := base, hl := w + w + (w + w) + base,
    carry := decide (65536 ≤ (w + w + (w + w)).toNat + base.toNat) }
  have hindex : Runs value (Clear s) (s.setPair w .de)
      [exDeHl, .add .hl .hl, .add .hl .hl, loadLabel .de classObjectTable, .add .hl .de] s1 :=
    .quiet rfl rfl (.quiet rfl rfl (.quiet rfl rfl (.quiet rfl rfl (.quiet rfl rfl (.nil _)))))
  have hkept : ∀ a, Clear s a → (s1.push s1.hl).memory a = s.memory a :=
    fun _ ha => ha.push s1.hl
  have hpush : Runs value (Clear s) s1 [push .hl] (s1.push s1.hl) :=
    .cons rfl hkept (.nil _)
  have hload : Runs value (Clear s) (s1.push s1.hl) (loadIndirect .de) _ :=
    runs_loadIndirect_de
  refine ⟨_, ((hread.append (hindex.append hpush)).append hload).append (.quiet rfl rfl (.nil _)),
    ?_, rfl, rfl, rfl, ?_⟩
  · show (s1.push s1.hl).memory.word s1.hl = prototype
    rw [show s1.hl = _ from hrow, ← hword]
    rw [← hrow] at hclear ⊢
    exact Memory.word_congr (hkept _ hclear.1) (hkept _ hclear.2)
  · exact Memory.word_putWord_self.trans hrow

theorem runs_toInit (value : Name → Word) {row init : Word} (hsp : s₂.sp = s.sp - 2#16)
    (hrow : s₂.memory.word s₂.sp = row) (hclear : Clear s (row + 2#16) ∧ Clear s (row + 3#16))
    (hword : s₂.memory.word (row + 2#16) = init) :
    ∃ s', Runs value (Clear s) s₂ toInit s' ∧ s'.de = init ∧ s'.hl = s₂.hl ∧ s'.ix = s₂.ix ∧
      s'.iy = s₂.iy ∧ s'.sp = s.sp := by
  have htop : s₂.sp + 2#16 = s.sp := by
    rw [hsp, BitVec.sub_add_cancel]
  let s3 : Cpu := { s₂ with de := s₂.memory.word s₂.sp + 1#16 + 1#16, sp := s₂.sp + 2#16 }
  have hnext : s₂.memory.word s₂.sp + 1#16 + 1#16 = row + 2#16 := by
    rw [hrow, BitVec.add_assoc]
    rfl
  have hpop : Runs value (Clear s) s₂ [pop .de, .inc .de, .inc .de] s3 :=
    .quiet rfl rfl (.quiet rfl rfl (.quiet rfl rfl (.nil _)))
  have hkept : ∀ a, Clear s a → (s3.push s3.hl).memory a = s₂.memory a := by
    intro a ha
    have hne := ha.ne_saved
    rw [← htop] at hne
    exact Memory.putWord_of_ne hne.1 hne.2
  let s4 : Cpu := { s3.push s3.hl with de := s3.hl, hl := s3.de }
  have hpush : Runs value (Clear s) s3 [push .hl, .exDeHl] s4 :=
    .cons rfl hkept (.quiet rfl rfl (.nil _))
  have hload : Runs value (Clear s) s4 (loadIndirect .de) _ := runs_loadIndirect_de
  refine ⟨_, ((hpop.append hpush).append hload).append (.quiet rfl rfl (.nil _)), ?_, ?_, rfl, rfl,
    ?_⟩
  · show (s3.push s3.hl).memory.word (s₂.memory.word s₂.sp + 1#16 + 1#16) = init
    have hthree : row + 2#16 + 1#16 = row + 3#16 := BitVec.add_assoc _ _ _
    rw [hnext, ← hword]
    exact Memory.word_congr (hkept _ hclear.1) (hthree ▸ hkept _ hclear.2)
  · exact Memory.word_putWord_self
  · show s₂.sp + 2#16 - 2#16 + 2#16 = s.sp
    rw [BitVec.sub_add_cancel, htop]

/-- The row of a class is where the code looks, and is kept by the code and by a routine that it
calls, as is the top of the stack. -/
structure OnSelf (m : Image) (tables : List Line) (n : ClassNode) (live : Word → Prop) (s : Cpu) :
    Prop where
  tag : s.memory.word s.ix = BitVec.ofNat 16 n.tag
  tables : ∃ p, Lies m.value (fun a => Clear s a ∧ live a) s.memory p tables
  stack : live (s.sp - 2#16) ∧ live (s.sp - 2#16 + 1#16)

/-- Code from a line on has come to a call of the copying routine, with a prototype in hl and one
word on the stack. -/
structure Copies (m : Image) (i : Nat) (s : Cpu) (prototype : Name) (j : Nat) (s1 : Cpu) :
    Prop where
  call : m.code[j]? = some (.instr (.call "Object.copy"))
  reaches : Reaches m (Clear s) (.line i) s (.line j) s1
  prototype : s1.hl = m.value prototype
  ix : s1.ix = s.ix
  iy : s1.iy = s.iy
  sp : s1.sp = s.sp - 2#16

theorem reaches_copy {back : Name} {n : ClassNode} {P : Word → Prop}
    (hplaced : m.Placed i (newSelfType back))
    (htag : s.memory.word s.ix = BitVec.ofNat 16 n.tag)
    (hrow : ObjectRow m.value P s.memory n) (hP : ∀ a, P a → Clear s a) :
    ∃ s1, Copies m i s n.prototypeLabel (i + toPrototype.length) s1 ∧
      s1.memory.word s1.sp = objectRow m.value n.tag := by
  rw [newSelfType_eq, placed_append, placed_cons] at hplaced
  obtain ⟨hcode, hcall, -⟩ := hplaced
  have hlow := hP _ (hrow.holds 0 (by decide))
  have hhigh := hP _ (hrow.holds 1 (by decide))
  rw [BitVec.add_zero] at hlow
  rcases runs_toPrototype m.value htag ⟨hlow, hhigh⟩ hrow.prototype with
    ⟨s1, hruns, hhl, hix, hiy, hsp, hsaved⟩
  exact ⟨s1, ⟨hcall, reaches_code hcode hruns, hhl, hix, hiy, hsp⟩, hsaved⟩

theorem reaches_init {back : Name} {row : Word} {init : Name}
    (hplaced : m.Placed i (newSelfType back)) (hsp : s₂.sp = s.sp - 2#16)
    (hrow : s₂.memory.word s₂.sp = row) (hclear : Clear s (row + 2#16) ∧ Clear s (row + 3#16))
    (hword : s₂.memory.word (row + 2#16) = m.value init) :
    ∃ s3, Reaches m (Clear s) (.line (i + toPrototype.length + 1)) s₂ (.address (m.value init)) s3 ∧
      s3.hl = s₂.hl ∧ s3.ix = s₂.ix ∧ s3.iy = s₂.iy ∧ s3.sp = s.sp - 2#16 ∧
      s3.memory.word s3.sp = m.value back := by
  rw [newSelfType_eq, placed_append, placed_cons, placed_append,
    placed_append] at hplaced
  obtain ⟨-, -, hcode, hcall, -⟩ := hplaced
  obtain ⟨s', hruns, hde, hhl, hix, hiy, hsp'⟩ := runs_toInit m.value hsp hrow hclear hword
  obtain ⟨s3, hreaches, hhl3, hix3, hiy3, hsp3, hback⟩ := reaches_callPair hcall s'
  rw [hde, hsp'] at hreaches
  rw [hsp'] at hsp3
  exact ⟨s3, (reaches_code hcode hruns).trans hreaches, hhl3.trans hhl, hix3.trans hix,
    hiy3.trans hiy, hsp3, hback⟩

end Code

/-!
# Initialisation routines
-/

theorem initRoutine_shape {sc : Scene} {n : ClassNode} {k k' : Nat} {routine : List Line}
    (h : Yields (initRoutine sc n) k routine () k') :
    routine = .label n.initLabel :: code [.ret] ∨
      ∃ temps body, temps ≤ 64 ∧ routine = framed n.initLabel temps body := by
  rcases yields_initRoutine h with ⟨-, rfl⟩ | ⟨parent, ls, _, -, hbody, rfl⟩
  · exact .inl rfl
  · obtain ⟨_, stored, hsmall, -, -, rfl⟩ := initBody_parts hbody
    refine .inr ⟨initSlots n.decl, code (move .hl .ix ++ [.call parent.initLabel]) ++
      (stored ++ code (move .hl .ix)), hsmall, ?_⟩
    simp only [framed, code, map_append, append_assoc]

/-- Making an object of the class of `self`.  Where the data of an accepted program lies in
memory, the tables have the prototype, the initialisation routine and the name of each class in
the row of its tag.  The code of `new SELF_TYPE` calls for a copy of the prototype of the object
in ix, then enters the initialisation routine with the copy in hl, and goes on with the stack
pointer of its beginning. -/
theorem newSelfType_constructs {user : List Class} {t : ClassTable}
    (hbuild : ClassTable.build user = .ok t) :
    (∀ pool : Pool, pool.LengthsInterned →
      ∃ data tables, DataLines ⟨t, pool.collect t⟩ data tables) ∧
    ∀ pool data tables, DataLines ⟨t, pool⟩ data tables → ∀ n ∈ t.nodes,
      (∀ value memory p q, Laid value memory p data → Laid value memory q tables →
        ClassRow ⟨t, pool⟩ value memory n) ∧
      ∀ (m : Image) (live : Word → Prop) (s : Cpu), OnSelf m tables n live s →
        ∀ (mark : Mark) (session session' : Session) (ls : List Line) (i : Nat),
          Yields (expr ⟨t, pool⟩ (.new mark Name.selfType)) session ls () session' →
          m.Placed i ls →
          ∃ back j s₁, ls.getLast? = some (.label back) ∧ Copies m i s n.prototypeLabel j s₁ ∧
            ∀ s₂, Travels m live (.line j) s₁ (.line (j + 1)) s₂ → s₂.sp = s₁.sp →
              ∃ s₃, Travels m (fun a => Clear s a ∧ live a) (.line i) s
                  (.address (m.value n.initLabel)) s₃ ∧
                s₃.hl = s₂.hl ∧ s₃.ix = s₂.ix ∧ s₃.iy = s₂.iy ∧ s₃.sp = s.sp - 2#16 ∧
                s₃.memory.word s₃.sp = m.value back ∧
                ∀ (k k₁ k₂ : Nat) (routine : List Line),
                  Yields (initRoutine ⟨t, pool⟩ n) k₁ routine () k₂ → m.Placed k routine →
                  m.lineAt? (m.value n.initLabel) = some k →
                  (routine = .label n.initLabel :: code [.ret] ∨
                    ∃ temps body, temps ≤ 64 ∧ routine = framed n.initLabel temps body) ∧
                  ∀ s₄, Completes m k s₃ routine s₄ →
                    ∃ s₅, Travels m (fun _ => False) (.line i) s (.address (m.value back)) s₅ ∧
                      s₅.sp = s.sp ∧ s₅.ix = s₂.ix ∧ s₅.iy = s₂.iy ∧ s₅.hl = s₄.hl := by
  rcases (ClassTable.build_eq_ok_iff user t).mp hbuild with ⟨parents, hbuilt⟩
  refine ⟨fun pool hlengths => exists_dataLines hbuilt hlengths, ?_⟩
  intro pool data tables hlines n hn
  refine ⟨fun value memory p q hdata htables => hlines.classRow hbuilt hdata htables hn, ?_⟩
  intro m live s hself mark session session' ls i hcode hplaced
  rcases yields_newSelfType hcode with ⟨-, rfl⟩
  rcases hself.tables with ⟨p, htables⟩
  have hrow := hlines.row hbuilt htables hn
  rcases reaches_copy hplaced hself.tag hrow fun _ ha => ha.1 with ⟨s₁, hcopies, hsaved⟩
  refine ⟨_, _, s₁, getLast?_concat, hcopies, ?_⟩
  intro s₂ hcopy hsp
  -- The row is read once more after the copy, through its address on the stack.
  have hkept : ∀ a, Clear s a ∧ live a → s₂.memory a = s.memory a := fun a ha =>
    (hcopy.memory ha.2).trans (hcopies.reaches.memory ha.1)
  have hlow := hrow.holds 2 (by decide)
  have hhigh := hrow.holds 3 (by decide)
  have hthree : objectRow m.value n.tag + 2#16 + 1#16 = objectRow m.value n.tag + 3#16 :=
    BitVec.add_assoc _ _ _
  have hinit : s₂.memory.word (objectRow m.value n.tag + 2#16) = m.value n.initLabel :=
    (Memory.word_congr (hkept _ hlow) (hthree ▸ hkept _ hhigh)).trans hrow.init
  have htop : s₂.memory.word s₂.sp = objectRow m.value n.tag := by
    rw [← hsaved, hsp, hcopies.sp]
    exact Memory.word_congr (hcopy.memory hself.stack.1) (hcopy.memory hself.stack.2)
  rcases reaches_init hplaced (hsp.trans hcopies.sp) htop ⟨hlow.1, hhigh.1⟩ hinit with
    ⟨s₃, hreaches, hhl, hix, hiy, hsp₃, hback⟩
  have hbefore : Travels m (fun a => Clear s a ∧ live a) (.line i) s _ s₂ :=
    .trans (.within (hcopies.reaches.mono fun _ ha => ha.1)) (hcopy.mono fun _ ha => ha.2)
  have hentered := hbefore.trans (.within (hreaches.mono fun _ ha => ha.1))
  refine ⟨s₃, hentered, hhl, hix, hiy, hsp₃, hback, ?_⟩
  intro k k₁ k₂ routine hroutine hplaced' hline
  refine ⟨initRoutine_shape hroutine, fun s₄ hcompletes => ?_⟩
  rcases hcompletes.returns hplaced' with ⟨s₅, htravels, hix₅, hiy₅, hsp₅, hhl₅⟩
  rw [hback] at htravels
  rw [hsp₃, BitVec.sub_add_cancel] at hsp₅
  exact ⟨s₅, (hentered.mono fun _ h => h.elim).trans (.back (.refl _ _) hline htravels), hsp₅,
    hix₅.trans hix, hiy₅.trans hiy, hhl₅⟩

/-!
# A pet of the class of self
-/

def plain (label parent : Name) : List Line :=
  framed label 0 (code (move .hl .ix ++ [.call parent]) ++ code (move .hl .ix))

theorem completes_plain {m : Image} {label parent : Name} {j o : Nat}
    (h : m.Placed j (plain label parent)) (hparent : m.Placed o (.label parent :: code [.ret]))
    (hline : m.lineAt? (m.start (bodyStart j 0 + 3)) = some (bodyStart j 0 + 3)) (s : Cpu) :
    ∃ s', Completes m j s (plain label parent) s' ∧ s'.hl = s.hl := by
  obtain ⟨s1, hruns, hix, hsp, -, -⟩ := runs_enterFrame m.value (Nat.zero_le 64) s
  have hbody := (placed_framed h).2.2.1
  rw [placed_append, placed_code_append] at hbody
  obtain ⟨⟨hmove, hcall⟩, hlast⟩ := hbody
  obtain ⟨hlabel, hret⟩ := placed_cons.mp hparent
  let back := m.start (bodyStart j 0 + 3)
  let s₂ : Cpu := { s1 with hl := s1.ix, memory := s1.memory.putWord (s1.sp - 2#16) s1.ix }
  have hfirst : Runs m.value (fun _ => False) s1 (move .hl .ix) s₂ :=
    runs_selfToHl fun _ hfalse => hfalse.elim
  have hcalled : Reaches m (fun _ => False) _ s₂ _ (s₂.push back) :=
    reaches_call (placed_cons.mp hcall).1 (target_of_code hlabel) fun _ hfalse => hfalse.elim
  have hreturn : Reaches m (fun _ => False) _ (s₂.push back) _ _ :=
    (reaches_label hlabel).trans (reaches_ret (placed_cons.mp hret).1)
  rw [show (s₂.push back).memory.word (s₂.push back).sp = back from Memory.word_putWord_self]
    at hreturn
  let s3 : Cpu := { s₂.push back with sp := s1.sp - 2#16 + 2#16 }
  let s4 : Cpu := { s3 with hl := s3.ix, memory := s3.memory.putWord (s3.sp - 2#16) s3.ix }
  have hsecond : Runs m.value (fun _ => False) s3 (move .hl .ix) s4 :=
    runs_selfToHl fun _ hfalse => hfalse.elim
  have htop : s1.sp - 2#16 + 2#16 = s1.sp := BitVec.sub_add_cancel _ _
  refine ⟨s4, .framed (Nat.zero_le 64) (hruns.mono fun _ hfalse => hfalse.elim)
    (.back ((reaches_code hmove hfirst).trans (hcalled.trans hreturn)) hline
      (.within (reaches_code hlast hsecond))) ⟨rfl, rfl, htop⟩ ?_, hix⟩
  intro a ha
  have hne : a ≠ s1.sp - 2#16 ∧ a ≠ s1.sp - 2#16 + 1#16 := by
    rw [← hsp] at ha
    simp only [Frame.saved, flatMap_cons, flatMap_nil, Indexed.bytes, append_nil,
      cons_append, nil_append, mem_cons, not_mem_nil, or_false] at ha
    rcases ha with rfl | rfl | rfl | rfl | rfl | rfl <;> constructor <;> bv_omega
  show s3.memory.putWord (s1.sp - 2#16 + 2#16 - 2#16) s1.ix a = s1.memory a
  rw [htop, Memory.putWord_of_ne hne.1 hne.2]
  exact (Memory.putWord_of_ne hne.1 hne.2).trans (Memory.putWord_of_ne hne.1 hne.2)

def litterScene : Scene := ⟨petTable, Pool.empty.collect petTable⟩

def litterData : Emitted Nat Unit := (do constants litterScene; prototypes litterScene) 0

def litterTables : Emitted Nat Unit := classTables litterScene 0

def litterCode : List Line :=
  newSelfType (localLabel 0) ++
    (plain "Pet_init" "Object_init" ++ .label "Object_init" :: code [.ret])

def litterImage : Image where
  code := litterCode
  labelled := by decide +kernel
  value label :=
    ((addressOf? label 0x8000#16 litterData.lines).or
      (addressOf? label 0x9000#16 litterTables.lines)).getD
        (BitVec.ofNat 16 (litterCode.idxOf (.label label)))
  start i := BitVec.ofNat 16 i
  library label s := if label = "Object.copy" then some { s with hl := 0xA100#16 } else none

def litterMemory : Memory := fun a =>
  if a = 0xA000#16 then 6#8
  else ((bytes litterImage.value litterData.lines)[(a - 0x8000#16).toNat]?).getD
    ((bytes litterImage.value litterTables.lines).getD (a - 0x9000#16).toNat 0#8)

def litterState : Cpu :=
  ⟨0#8, 0#16, 0#16, 0#16, 0xA000#16, 0xEF00#16, 0xEF00#16, false, false, litterMemory⟩

theorem newSelfType_constructs_pet :
    ∃ n ∈ petTable.nodes, n.name = "Pet" ∧
      ClassRow litterScene litterImage.value litterMemory n ∧
      ∃ j s₁ s₅, Copies litterImage 0 litterState "Pet_protObj" j s₁ ∧
        Travels litterImage (fun _ => False) (.line 0) litterState
          (.address (litterImage.value (localLabel 0))) s₅ ∧
        s₅.sp = litterState.sp ∧ s₅.ix = litterState.ix ∧ s₅.iy = litterState.iy ∧
        s₅.hl = 0xA100#16 := by
  have hdata : Laid litterImage.value litterMemory 0x8000#16 litterData.lines := by decide +kernel
  have htables : Laid litterImage.value litterMemory 0x9000#16 litterTables.lines := by
    decide +kernel
  have hextent : extent litterTables.lines = 70 := by decide +kernel
  have hpet : (petTable.find? "Pet").any (fun n => n.tag == 6 &&
      passes (initRoutine litterScene n 0).outcome (fun _ => true) &&
      decide ((initRoutine litterScene n 0).lines = plain "Pet_init" "Object_init")) = true := by
    decide +kernel
  simp only [Option.any_eq_true, Bool.and_eq_true, passes_iff, beq_iff_eq, decide_eq_true_eq,
    and_true] at hpet
  rcases hpet with ⟨n, hfind, ⟨htag, _, houtcome⟩, hroutine⟩
  have hn : n ∈ petTable.nodes := mem_of_find?_eq_some hfind
  have hname : n.name = "Pet" := by
    simpa using find?_some hfind
  have hlines : DataLines litterScene litterData.lines litterTables.lines :=
    ⟨⟨0, 0, rfl, rfl, rfl⟩, ⟨0, 0, rfl, rfl, rfl⟩⟩
  have hself : OnSelf litterImage litterTables.lines n (fun _ => True) litterState := by
    refine ⟨?_, ⟨0x9000#16, htables, fun k hk => ⟨?_, trivial⟩⟩, trivial, trivial⟩
    · rw [htag]
      decide +kernel
    · rw [hextent] at hk
      show ¬ (0xEF00#16 - 1#16 - (0x9000#16 + BitVec.ofNat 16 k)).toNat < 4
      bv_omega
  have hcode : Yields (expr litterScene (.new ⟨"new", 3, []⟩ Name.selfType)) petSession
      (newSelfType (localLabel 0)) () { petSession with labels := 1 } := ⟨rfl, rfl, rfl⟩
  have hwhole : litterImage.Placed 0 litterCode := by
    intro k l hk
    rwa [Nat.zero_add]
  rcases placed_append.mp hwhole with ⟨hplaced, hroutines⟩
  rcases placed_append.mp hroutines with ⟨hinit, hroot⟩
  rcases (newSelfType_constructs build_petClasses).2 _ _ _ hlines n hn with ⟨hrow, hruns⟩
  rcases hruns litterImage (fun _ => True) litterState hself _ _ _ _ 0 hcode hplaced with
    ⟨back, j, s₁, hback, hcopies, hgoes⟩
  cases hback
  have hlibrary : Travels litterImage (fun _ => True) (.line j) s₁ (.line (j + 1))
      { s₁ with hl := 0xA100#16 } :=
    .within (reaches_library hcopies.call (target_of_not_mem (by decide +kernel)) rfl
      fun _ _ => rfl)
  rcases hgoes _ hlibrary rfl with ⟨s₃, -, hhl, hix, hiy, -, -, hends⟩
  rcases completes_plain hinit hroot (by decide +kernel) s₃ with ⟨s₄, hcompletes, hhl₄⟩
  have hline : litterImage.lineAt? (litterImage.value n.initLabel) = some 27 := by
    rw [ClassNode.initLabel, hname]
    decide +kernel
  rcases (hends _ 0 _ _ ⟨hroutine, rfl, houtcome⟩ hinit hline).2 s₄ hcompletes with
    ⟨s₅, htravels, hsp₅, hix₅, hiy₅, hhl₅⟩
  rw [ClassNode.prototypeLabel, hname] at hcopies
  exact ⟨n, hn, hname, hrow _ _ _ _ hdata htables, j, s₁, s₅, hcopies, htravels, hsp₅,
    hix₅.trans hcopies.ix, hiy₅.trans hcopies.iy, hhl₅.trans (hhl₄.trans hhl)⟩

end CoolCompiler.Machine
