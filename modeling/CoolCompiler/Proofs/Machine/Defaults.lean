import CoolCompiler.Proofs.Machine.Construction

/-!
# Attributes without an initializer

What an initializer finds in an attribute without one that was not assigned to hangs on the layout:
the default value of its type if it stands before the one being initialised, and otherwise the zero
of the prototype.
-/

namespace CoolCompiler

open List

namespace Machine

open Emit

theorem word_of_laid_zeros {value : Name → Word} {m : Memory} {p : Word} {k i : Nat}
    (h : Laid value m p (List.replicate k (.number 0))) (hi : i < k) :
    m.word (p + BitVec.ofNat 16 (2 * i)) = 0#16 := by
  induction k generalizing p i with
  | zero => exact absurd hi (Nat.not_lt_zero i)
  | succ k ih =>
    rw [replicate_succ] at h
    cases i with
    | zero =>
      rw [Nat.mul_zero, BitVec.add_zero]
      exact h.1
    | succ i =>
      have hword := ih h.2 (Nat.lt_of_succ_lt_succ hi)
      rwa [BitVec.add_assoc, ← BitVec.ofNat_add, Nat.add_comm 2, ← Nat.mul_succ] at hword

theorem word_of_prototype {value : Name → Word} {m : Memory} {p : Word} {zero : Address}
    {n : ClassNode} (hname : n.name ≠ Name.string) (h : Laid value m p (prototype zero n))
    {i : Nat} (hi : i < n.layout.length) :
    m.word (attributeAt (value n.prototypeLabel) (headerSize + wordSize * i)) = 0#16 := by
  rw [prototype, if_neg hname] at h
  obtain ⟨_, hlabel, _, _, _, hzeros⟩ := h
  have hplace : p + 2#16 + BitVec.ofNat 16 (headerSize + wordSize * i) =
      p + 2#16 + 2#16 + 2#16 + 2#16 + BitVec.ofNat 16 (2 * i) := by
    simp only [headerSize, wordSize]
    bv_omega
  rw [hlabel, attributeAt, hplace]
  exact word_of_laid_zeros hzeros hi

end Machine

/-!
# Layouts
-/

namespace Emit.Compilable

open Machine

variable {q : Program} {s : Symbols} {parents : List (Option Nat)} {t : ClassTable}
  {n p : ClassNode}

variable (h : Compilable q s parents t)
include h

theorem filledSlots_child (hn : n ∈ t.nodes) (hp : t.parentOf? n = some p) :
    filledSlots n = filledSlots p ++ storedSlots n := by
  obtain ⟨own, hlayout, hown, habove⟩ := h.built.layout_child hn hp
  have hnone : p.layout.filter (fun slot => slot.owner == n.name) = [] := by
    simpa using habove
  have hall : own.filter (fun slot => slot.owner == n.name) = own := by
    simpa using hown
  rw [filledSlots, filledSlots, storedSlots, ClassNode.ownSlots, hlayout, filter_append,
    filter_append, hnone, hall, nil_append]

theorem filledSlots_root (hn : n ∈ t.nodes) (hp : t.parentOf? n = none) : filledSlots n = [] := by
  have hattributes : n.decl.attributes = [] := by
    rcases h.built.parentOf?_cases hn with ⟨hobject, _⟩ | ⟨_, p, _, hp', _⟩
    · rcases h.decl_cases hn with ⟨_, hbuiltin⟩ | ⟨huser, _⟩
      · have hall : ∀ c ∈ Class.builtin, c.name = Name.object → c.attributes = [] := by decide
        exact hall _ hbuiltin hobject
      · rw [ClassNode.isBasic, hobject] at huser
        cases huser
    · rw [hp] at hp'
      cases hp'
  have hlayout : n.layout = [] := by
    rw [h.built.layout_eq hn, h.built.chain_cons hn, hp]
    simp [ClassTable.layoutOf, ClassTable.ownedAttributes, hattributes]
  rw [filledSlots, hlayout]
  rfl

theorem mem_before_iff (hn : n ∈ t.nodes) {slot slot' : Slot} {before after : List Slot}
    (hslots : filledSlots n = before ++ slot' :: after) (hslot : slot ∈ filledSlots n) :
    slot ∈ before ↔ slot.offset < slot'.offset := by
  have hpairs := (h.built.pairwise_offset hn).filter (fun slot => !slot.isPrim)
  rw [← filledSlots, hslots, pairwise_append, pairwise_cons] at hpairs
  obtain ⟨_, ⟨hafter, _⟩, hbefore⟩ := hpairs
  have hword : 0 < wordSize := by decide
  constructor
  · intro hmem
    have hle := hbefore slot hmem slot' mem_cons_self
    omega
  · intro hlt
    rw [hslots, mem_append, mem_cons] at hslot
    rcases hslot with hmem | rfl | hmem
    · exact hmem
    · exact absurd hlt (Nat.lt_irrefl _)
    · have hle := hafter slot hmem
      omega

theorem offset_cases (hn : n ∈ t.nodes) {slot slot' : Slot} (hslot : slot ∈ n.layout)
    (hslot' : slot' ∈ n.layout) :
    slot = slot' ∨ slot.offset + 2 ≤ slot'.offset ∨ slot'.offset + 2 ≤ slot.offset := by
  have hpairs := h.built.pairwise_offset hn
  obtain ⟨i, hi, rfl⟩ := getElem_of_mem hslot
  obtain ⟨j, hj, rfl⟩ := getElem_of_mem hslot'
  rw [pairwise_iff_getElem] at hpairs
  rcases Nat.lt_trichotomy i j with hlt | rfl | hlt
  · exact .inr (.inl (hpairs i j hi hj hlt))
  · exact .inl rfl
  · exact .inr (.inr (hpairs j i hj hi hlt))

end Emit.Compilable

/-!
# Objects
-/

namespace Machine.Construction

open Emit

/-- Initialisation begins: the object is a copy of the prototype, the return address is on top of
the stack, and the stack to come is apart from the object. -/
structure Begins (f : Construction) (n : ClassNode) (s : Cpu) : Prop where
  hl : s.hl = f.self
  sp : s.sp = f.top - 2#16
  prototype : ∃ p zero, Laid f.image.value s.memory p (prototype zero n)
  copy : ∀ k, k < n.objectSize → s.memory (f.self + BitVec.ofNat 16 k) =
    s.memory (f.image.value n.prototypeLabel + BitVec.ofNat 16 k)
  apart : ∀ k, k < n.objectSize → ¬ Below f.top (2 + f.room n) (f.self + BitVec.ofNat 16 k)

variable {q : Program} {symbols : Symbols} {parents : List (Option Nat)} {f : Construction}
  {n : ClassNode} {s : Cpu}

variable (h : Compilable q symbols parents f.scene.table)
include h

theorem Begins.word_eq (hn : n ∈ f.scene.table.nodes) (hname : n.name ≠ Name.string)
    (hslot : f.slot ∈ n.layout) (hbegins : f.Begins n s) : s.memory.word f.place = 0#16 := by
  obtain ⟨i, hi, heq⟩ := getElem_of_mem hslot
  have hoffset := h.built.getElem?_layout hn (getElem?_eq_getElem hi)
  have hsize := h.built.offset_add_le hn hslot
  obtain ⟨p, zero, hlaid⟩ := hbegins.prototype
  have hzero := word_of_prototype hname hlaid hi
  rw [← hoffset, heq] at hzero
  simp only [wordSize] at hsize
  have hlow := hbegins.copy f.slot.offset (by omega)
  have hhigh := hbegins.copy (f.slot.offset + 1) (by omega)
  rw [BitVec.ofNat_add, ← BitVec.add_assoc, ← BitVec.add_assoc] at hhigh
  rw [← hzero, Memory.word, Memory.word]
  exact congrArg₂ _ hhigh hlow

theorem Begins.clear (hn : n ∈ f.scene.table.nodes) (hsmall : ¬ TooLarge n)
    (hslot : f.slot ∈ n.layout) (hbegins : f.Begins n s) {slot : Slot} (hmem : slot ∈ n.layout) :
    f.Clear (2 + f.room n) slot := by
  have hsize := h.built.offset_add_le hn hmem
  have hlimit : n.objectSize ≤ 128 := Nat.not_lt.mp fun hlarge => hsmall (.inl hlarge)
  simp only [wordSize] at hsize
  refine ⟨by omega, hbegins.apart slot.offset (by omega), ?_, h.offset_cases hn hmem hslot⟩
  have hhigh := hbegins.apart (slot.offset + 1) (by omega)
  rwa [BitVec.ofNat_add, ← BitVec.add_assoc] at hhigh

omit h in
theorem limit_lt {limit : Nat} {slot : Slot} (h : f.Clear limit slot) : limit < 65536 := by
  have hlow := h.low
  unfold Below at hlow
  have hlt := (f.top - 1#16 - attributeAt f.self slot.offset).isLt
  omega

theorem sound_of_compilable (hreturns : f.image.Returns)
    (hcode : InitCode f.scene f.image.code f.blocks)
    (hsmall : ∀ n ∈ f.scene.table.nodes, ¬ TooLarge n)
    (homitted : ∀ n ∈ f.scene.table.nodes, n.name = f.slot.owner →
      (initOf n.decl f.slot.name).isOmitted = true) : f.Sound where
  returns := hreturns
  code := hcode
  temps n hn := Nat.not_lt.mp fun hmany => hsmall n hn (.inr (.inl hmany))
  room n hn p hp := by
    rw [Construction.room, h.built.chain_of_parentOf? hn hp, chainRoom, foldr_cons]
    rfl
  slots n hn p hp := h.filledSlots_child hn hp
  noSlots n hn hp := h.filledSlots_root hn hp
  omitted n hn p hp b hb heq := by
    obtain ⟨hslot, hinit⟩ := (hcode.routine n hn p hp).1.pair_mem hb
    have howner := (Compilable.mem_storedSlots_iff.mp hslot).2.1
    rw [hinit, heq]
    rw [heq] at howner
    exact homitted n hn howner.symm

theorem word_of_underway (hf : f.Sound) (hn : n ∈ f.scene.table.nodes)
    (hname : n.name ≠ Name.string) (hsmall : ¬ TooLarge n) (hslot : f.slot ∈ n.layout)
    (hbegins : f.Begins n s) {b : InitBlock} {i : Nat} {s' : Cpu}
    (hunderway : f.Underway 2 n s b i s') :
    f.Reached n s b i s' ∧ s'.memory.word f.place =
      if f.slot.offset < b.slot.offset then f.default f.slot.type else 0#16 := by
  have hclear := hbegins.clear h hn hsmall hslot hslot
  have hentry : f.Entry (2 + f.room n) 2 n s :=
    ⟨hn, Nat.le_refl 2, Nat.le_refl _,
      fun slot hmem => hbegins.clear h hn hsmall hslot (mem_of_mem_filter hmem),
      hbegins.hl, hbegins.sp⟩
  have hreached := hunderway.reached hf (limit_lt hclear) hclear hentry
  refine ⟨hreached, ?_⟩
  obtain ⟨before, after, hslots, hfilled⟩ := hreached.filled
  have hzero := hbegins.word_eq h hn hname hslot
  by_cases hprim : f.slot.isPrim = true
  · have hdefault : f.default f.slot.type = 0#16 := by
      rw [Construction.default, beq_iff_eq.mp hprim]
      rfl
    have hnot : f.slot ∉ before := by
      intro hmem
      have hfill : f.slot ∈ filledSlots n := by
        rw [hslots]
        exact mem_append_left _ hmem
      simp [filledSlots, hprim] at hfill
    rw [hfilled.unstored hnot, hzero, hdefault, ite_self]
  · have hmem : f.slot ∈ filledSlots n := mem_filter.mpr ⟨hslot, by simpa using hprim⟩
    have hiff := h.mem_before_iff hn hslots hmem
    split
    · rename_i hlt
      exact hfilled.stored (hiff.mpr hlt)
    · rename_i hnot
      rw [hfilled.unstored fun hbefore => hnot (hiff.mp hbefore), hzero]

end Machine.Construction

/-!
# Accepted programs
-/

open Emit Machine in
/-- While the initializer of a slot runs, an attribute that has no initializer and was not
assigned to reads as the default value of its type if its slot is before that one, and as void
otherwise. -/
theorem Analysis.attribute_read_before_assignment (sources : List (Text × Text))
    (o : Analysis.Outcome) (g : Generator) (sink : Sink) (tableSink : Option Sink) (r : Generated)
    (haccepted : Analysis.fresh.run
      (sources.flatMap fun source => (Grammar.parse source.1 source.2).classes) = .ok o)
    (hclean : o.analysis.diagnostics = []) (hrun : g.run o.program sink tableSink = r)
    (hok : r.failure = none) :
    ∃ t blocks, ClassTable.build o.program = .ok t ∧
      InitCode ⟨t, g.pool.collect t⟩ (r.assembly ++ r.tables) blocks ∧
      (∀ type, (defaultLabel? (g.pool.collect t) type).isSome = true ↔
        type = Name.int ∨ type = Name.bool ∨ type = Name.string) ∧
      (∀ n ∈ t.nodes, ∀ slot ∈ n.layout, slot.name ≠ Name.self → ∀ m s ls s', s.env.owner = n →
        (s.env.scopes.findSome? fun scope => scope.find? slot.name) = none →
        Yields (expr ⟨t, g.pool.collect t⟩ (.object m slot.name)) s ls () s' →
          ls = code (Instr.loadWord .hl ⟨.ix, slot.offset⟩)) ∧
      ∀ f : Construction, f.image.code = r.assembly ++ r.tables → f.image.Returns →
        f.scene = ⟨t, g.pool.collect t⟩ → f.blocks = blocks →
        ∀ n ∈ t.nodes, n.name ≠ Name.string → f.slot ∈ n.layout →
        (∀ d ∈ t.nodes, d.name = f.slot.owner →
          (initOf d.decl f.slot.name).isOmitted = true) →
        ∀ s b i s', f.Begins n s → f.Underway 2 n s b i s' →
          Travels f.image (fun _ => False) (f.image.target n.initLabel) s (.line i) s' ∧
          s'.ix = f.self ∧
          ∀ p s'', Travels f.image f.Held (.line i) s' p s'' → s''.ix = f.self →
            Runs f.image.value (fun _ => True) s'' (Instr.loadWord .hl ⟨.ix, f.slot.offset⟩)
              { s'' with
                hl := if f.slot.offset < b.slot.offset then f.default f.slot.type else 0#16 } := by
  rcases Analysis.exists_compilable haccepted hclean with ⟨parents, t, h, hbuild, -⟩
  rcases Generator.run_initCode h hrun hok with ⟨⟨blocks, hcode⟩, hsmall⟩
  refine ⟨t, blocks, hbuild, hcode, defaultLabel?_isSome t g.pool, ?_, ?_⟩
  · intro n hn slot hslot hself m s ls s' howner hscopes hyields
    rcases yields_object hself hyields with ⟨_, place, hplace, rfl⟩
    rw [lookup_slot howner hscopes (h.slot?_eq hn hslot) hplace]
  · intro f himage hreturns hscene hblocks n hn hname hslot homitted s b i s' hbegins hunderway
    have htable : f.scene.table = t := congrArg Scene.table hscene
    rw [← himage, ← hscene, ← hblocks] at hcode
    rw [← htable] at h hn hsmall homitted
    have hsound := Construction.sound_of_compilable h hreturns hcode hsmall homitted
    rcases Construction.word_of_underway h hsound hn hname (hsmall n hn) hslot hbegins
      hunderway with ⟨hreached, hword⟩
    refine ⟨hreached.travels, hreached.ix, fun p s'' htravels hix => ?_⟩
    have hclear := hbegins.clear h hn (hsmall n hn) hslot hslot
    have hkept : s''.memory.word f.place = s'.memory.word f.place :=
      Memory.word_congr (htravels.memory (.inl rfl)) (htravels.memory (.inr rfl))
    rw [← hword, ← hkept, Construction.place, ← hix]
    exact runs_loadAttribute hclear.offset

/-!
# Two attributes

An attribute with an initializer that reads the other one, which has none, on either side of it.
-/

def earlySources : List (Text × Text) :=
  [("main.cl", "class Main { b : Int; a : Int <- b; main() : Object { 0 }; };")]

def lateSources : List (Text × Text) :=
  [("main.cl", "class Main { a : Int <- b; b : Int; main() : Object { 0 }; };")]

namespace Machine

open Emit

def pairValue (label : Name) : Word :=
  if label = "Main_protObj" then 0x9000#16
  else if label = "Main_dispTab" then 0x9200#16
  else if label = "int_const0" then 0x9300#16
  else 0x9400#16

def pairBytes : List Byte :=
  [0xFF#8, 0xFF#8, 5#8, 0#8, 10#8, 0#8, 0#8, 0x92#8, 0#8, 0#8, 0#8, 0#8]

def pairMemory : Memory := fun a =>
  if (a - 0xA000#16).toNat < 10 then pairBytes.getD ((a - 0xA000#16).toNat + 2) 0#8
  else pairBytes.getD (a - 0x8FFE#16).toNat 0#8

def pairState : Cpu :=
  ⟨0#8, 0#16, 0#16, 0xA000#16, 0#16, 0#16, 0xBFFE#16, false, false, pairMemory⟩

def earlyImage : Image where
  code := generatedCode earlySources
  labelled := by decide +kernel
  value := pairValue
  start i := BitVec.ofNat 16 i
  library _ _ := none

def lateImage : Image where
  code := generatedCode lateSources
  labelled := by decide +kernel
  value := pairValue
  start i := BitVec.ofNat 16 i
  library _ _ := none

theorem Construction.begins_pair {f : Construction} {n : ClassNode}
    (hvalue : f.image.value = pairValue) (htop : f.top = 0xC000#16) (hself : f.self = 0xA000#16)
    (hname : n.name = "Main") (hsize : n.objectSize = 10) (hroom : f.room n = 12)
    (hlaid : Laid pairValue pairMemory 0x8FFE#16 (prototype ⟨[], 0⟩ n)) :
    f.Begins n pairState := by
  have hprototype : pairValue n.prototypeLabel = 0x9000#16 := by
    rw [ClassNode.prototypeLabel, hname]
    decide
  have hcopy : ∀ k, k < 10 → pairMemory (0xA000#16 + BitVec.ofNat 16 k) =
      pairMemory (0x9000#16 + BitVec.ofNat 16 k) := by decide
  constructor
  · exact hself.symm
  · rw [htop]
    rfl
  · rw [hvalue]
    exact ⟨_, _, hlaid⟩
  · rw [hself, hvalue, hprototype, hsize]
    exact hcopy
  · intro k hk
    rw [htop, hself, hroom]
    rw [hsize] at hk
    unfold Below
    bv_omega

def Plain (b : InitBlock) : Prop := ∃ label, b.lines = code [loadDefault label]

theorem exists_fills {m : Image} {keep : Word → Prop} (top : Word) {bs : List InitBlock}
    (hbs : ∀ b ∈ bs, Plain b ∧ b.slot.offset ≤ 126) {i : Nat}
    (hplaced : m.Placed i (bs.flatMap InitBlock.whole)) (depth : Nat) (s : Cpu) :
    ∃ stores s', stores.map InitStore.block = bs ∧ Fills m keep top depth i s stores s' := by
  induction bs generalizing i s with
  | nil => exact ⟨[], s, rfl, .nil i s⟩
  | cons b bs ih =>
    rw [forall_mem_cons] at hbs
    obtain ⟨⟨label, hlines⟩, hoffset⟩ := hbs.1
    rw [flatMap_cons, placed_append, InitBlock.whole, placed_append] at hplaced
    have hruns : ∀ keep : Word → Prop, Runs m.value keep s [loadDefault label]
        { s with hl := (label.map m.value).getD 0#16 } := fun _ =>
      .quiet (Construction.exec_loadDefault _ _ _) rfl (.nil _)
    have hvalue : Values m keep top depth i s b { s with hl := (label.map m.value).getD 0#16 } := by
      cases homitted : b.init.isOmitted with
      | true => exact .omitted homitted hlines (hruns _)
      | false =>
        refine .given homitted (.within ?_) ⟨rfl, rfl, rfl⟩
        rw [hlines] at hplaced ⊢
        exact reaches_code hplaced.1.1 (hruns _)
    obtain ⟨stores, s', hmap, hrest⟩ := ih hbs.2 hplaced.2 _
    refine ⟨_ :: stores, s', ?_, .cons hvalue
      (runs_storeAttribute hoffset fun _ hfalse => hfalse.elim) hrest⟩
    rw [map_cons, hmap]

theorem Construction.exists_underway {f : Construction} {n p : ClassNode}
    (hcode : InitCode f.scene f.image.code f.blocks) (hn : n ∈ f.scene.table.nodes)
    (hp : f.scene.table.parentOf? n = some p) (hroot : f.scene.table.parentOf? p = none)
    (htemps : initSlots n.decl ≤ 64) {before after : List InitBlock} {b : InitBlock}
    (hblocks : f.blocks n = before ++ b :: after)
    (hbefore : ∀ b ∈ before, b.init.isOmitted = true ∧ b.slot.offset ≤ 126) (s : Cpu) :
    ∃ i s', f.Underway 2 n s b i s' := by
  have hroutine := hcode.routine n hn p hp
  obtain ⟨j, hj⟩ := exists_placed hroutine.2
  have hstands := stands_of_placed hj
  obtain ⟨s1, hruns, _⟩ := runs_enter f.image.value htemps s
  have hplain : ∀ b ∈ before, Plain b ∧ b.slot.offset ≤ 126 := by
    intro b hb
    have hmem : b ∈ f.blocks n := by
      rw [hblocks]
      exact mem_append_left _ hb
    exact ⟨⟨_, hroutine.1.lines_of_omitted hmem (hbefore b hb).1⟩, (hbefore b hb).2⟩
  have hplaced := hstands.blocks
  rw [hblocks, flatMap_append, placed_append] at hplaced
  rcases exists_fills f.top hplain hplaced.1 (2 + 4)
    { s1.push (f.image.start (resume n j)) with
      sp := (s1.push (f.image.start (resume n j))).sp + 2#16 } with ⟨own, s', hown, hfills⟩
  exact ⟨_, s', .here hp (target_of_code hstands.label) (hruns.mono fun _ hfalse => hfalse.elim)
    (.root hroot) (hown ▸ hblocks) hfills⟩

end Machine

open Emit Machine in
theorem Analysis.attribute_read_before_assignment_early : ∃ o t n s i s', ∃ f : Construction,
    ∃ b : InitBlock, Analysis.fresh.run (earlySources.flatMap fun source =>
      (Grammar.parse source.1 source.2).classes) = .ok o ∧ o.analysis.diagnostics = [] ∧
    ClassTable.build o.program = .ok t ∧ n ∈ t.nodes ∧
    f.image = earlyImage ∧ f.slot = ⟨"b", Name.int, "Main", 6⟩ ∧ b.slot.name = "a" ∧
    f.Begins n s ∧ f.Underway 2 n s b i s' ∧
    Runs earlyImage.value (fun _ => True) s' (Instr.loadWord .hl ⟨.ix, 6⟩)
      { s' with hl := earlyImage.value (intLabel 0) } := by
  have hcheck : (acceptedBy earlySources fun o =>
        ((Generator.fresh []).run o.program (Sink.fresh none) none).failure.isNone &&
        passes (ClassTable.build o.program) fun t =>
          decide (defaultLabel? (Pool.empty.collect t) Name.int = some (intLabel 0)) &&
          (t.nodes.all fun d => d.name != "Main" || (initOf d.decl "b").isOmitted) &&
          t.nodes.any fun n => n.name == "Main" &&
            decide (n.layout = [⟨"b", Name.int, "Main", 6⟩, ⟨"a", Name.int, "Main", 8⟩]) &&
            decide (initSlots n.decl = 0) && decide (chainRoom (t.chain n) = 12) &&
            decide (Laid pairValue pairMemory 0x8FFE#16 (prototype ⟨[], 0⟩ n)) &&
            (t.parentOf? n).any fun p => (t.parentOf? p).isNone) = true := by
    decide +kernel
  have hlength : earlyImage.code.length ≤ 65536 := by decide +kernel
  simp only [acceptedBy_iff, passes_iff, all_eq_true, any_eq_true, Bool.or_eq_true,
    Bool.and_eq_true, bne_iff_ne, beq_iff_eq, decide_eq_true_eq, Option.isNone_iff_eq_none,
    Option.any_eq_true, and_assoc] at hcheck
  rcases hcheck with ⟨o, haccepted, hclean, hok, t, hbuild, hzero, homitted, n, hn, hname, hlayout,
    htemps, hroom, hlaid, p, hp, hroot⟩
  rcases Analysis.attribute_read_before_assignment earlySources o (Generator.fresh [])
    (Sink.fresh none) none _ haccepted hclean rfl hok with
    ⟨t', blocks, hbuild', hcode, _, _, hreads⟩
  rw [hbuild] at hbuild'
  cases hbuild'
  have hstored : storedSlots n =
      [⟨"b", Name.int, "Main", 6⟩, ⟨"a", Name.int, "Main", 8⟩] := by
    rw [storedSlots, ClassNode.ownSlots, hlayout, hname]
    decide
  have hslots := (hcode.routine n hn p hp).1.slots
  rw [hstored] at hslots
  rcases map_eq_cons_iff.mp hslots with ⟨b, _, hblocks, hb, hrest⟩
  rcases map_eq_cons_iff.mp hrest with ⟨b', _, rfl, hb', hnil⟩
  rw [map_eq_nil_iff.mp hnil] at hblocks
  rcases Prod.mk.inj hb with ⟨hslot, hinit⟩
  have hslot' : b'.slot = ⟨"a", Name.int, "Main", 8⟩ := congrArg Prod.fst hb'
  let f : Construction := ⟨earlyImage, ⟨t, Pool.empty.collect t⟩, blocks, 0xC000#16, 0xA000#16,
    ⟨"b", Name.int, "Main", 6⟩⟩
  have himage := generatedCode_of_accepted haccepted
  have hcode' : InitCode f.scene f.image.code f.blocks := by
    show InitCode ⟨t, Pool.empty.collect t⟩ (generatedCode earlySources) blocks
    rw [himage]
    exact hcode
  have hbegins : f.Begins n pairState :=
    Construction.begins_pair rfl rfl rfl hname
      (by rw [ClassTable.objectSize_of_build hbuild hn, hlayout]; rfl) hroom hlaid
  have hbefore : ∀ c ∈ [b], c.init.isOmitted = true ∧ c.slot.offset ≤ 126 := by
    rw [forall_mem_singleton, hinit, hslot]
    exact ⟨(homitted n hn).resolve_left fun hne => hne hname, by decide⟩
  rcases Construction.exists_underway hcode' hn hp hroot (by omega) hblocks hbefore pairState with
    ⟨i, s', hunderway⟩
  rcases hreads f himage (Image.returns_of_start (fun _ => rfl) hlength) rfl rfl n hn
    (by rw [hname]; decide) (by rw [hlayout]; exact mem_cons_self)
    (fun d hd hdname => (homitted d hd).resolve_left fun hne => hne hdname) pairState b' i s'
    hbegins hunderway with ⟨_, hix, hread⟩
  have hdefault : f.default f.slot.type = earlyImage.value (intLabel 0) := by
    show ((defaultLabel? (Pool.empty.collect t) Name.int).map earlyImage.value).getD 0#16 = _
    rw [hzero]
    rfl
  have hruns := hread (.line i) s' (.within (.refl _ _)) hix
  rw [hslot', if_pos (show 6 < 8 by decide), hdefault] at hruns
  exact ⟨o, t, n, pairState, i, s', f, b', haccepted, hclean, hbuild, hn, rfl, rfl,
    congrArg Slot.name hslot', hbegins, hunderway, hruns⟩

open Emit Machine in
/-- An attribute with no initializer, of a type with a default value, reads as void in the
initializer of the attribute before it. -/
theorem Analysis.int_attribute_reads_void : ∃ o t n i s', ∃ f : Construction,
    Analysis.fresh.run (lateSources.flatMap fun source =>
      (Grammar.parse source.1 source.2).classes) = .ok o ∧ o.analysis.diagnostics = [] ∧
    ClassTable.build o.program = .ok t ∧ n ∈ t.nodes ∧ f.scene = ⟨t, Pool.empty.collect t⟩ ∧
    f.image.code = ((Generator.fresh []).run o.program (Sink.fresh none) none).assembly ++
      ((Generator.fresh []).run o.program (Sink.fresh none) none).tables ∧
    f.slot = ⟨"b", Name.int, "Main", 8⟩ ∧ f.slot ∈ n.layout ∧
    (initOf n.decl "b").isOmitted = true ∧ f.Begins n pairState ∧
    Travels f.image (fun _ => False) (f.image.target n.initLabel) pairState (.line i) s' ∧
    s'.ix = f.self ∧ f.image.Placed i (code (Instr.loadWord .hl ⟨.ix, 8⟩)) ∧
    Runs f.image.value (fun _ => True) s' (Instr.loadWord .hl ⟨.ix, 8⟩) { s' with hl := 0#16 } ∧
    f.default Name.int ≠ 0#16 := by
  have hcheck : (acceptedBy lateSources fun o =>
        passes (ClassTable.build o.program) fun t =>
          decide (defaultLabel? (Pool.empty.collect t) Name.int = some (intLabel 0)) &&
          t.nodes.any fun n => n.name == "Main" && (initOf n.decl "b").isOmitted &&
            decide (n.layout = [⟨"a", Name.int, "Main", 6⟩, ⟨"b", Name.int, "Main", 8⟩]) &&
            decide (chainRoom (t.chain n) = 12) &&
            decide (Laid pairValue pairMemory 0x8FFE#16 (prototype ⟨[], 0⟩ n))) = true := by
    decide +kernel
  have hwalk : ((lateImage.walk 14 (lateImage.target "Main_init") pairState).any fun next =>
      next.1.line?.any fun i => next.2.ix == 0xA000#16 &&
        next.2.memory.word (attributeAt 0xA000#16 8) == 0#16 &&
        decide (lateImage.code[i]? = some (.instr (.ld (.reg .l) (.indexed ⟨.ix, 8⟩)))) &&
        decide (lateImage.code[i + 1]? =
          some (.instr (.ld (.reg .h) (.indexed ⟨.ix, 9⟩))))) = true := by
    decide +kernel
  simp only [acceptedBy_iff, passes_iff, any_eq_true, Bool.and_eq_true, beq_iff_eq,
    decide_eq_true_eq, and_assoc] at hcheck
  simp only [Option.any_eq_true, Bool.and_eq_true, beq_iff_eq, decide_eq_true_eq,
    and_assoc] at hwalk
  rcases hcheck with ⟨o, haccepted, hclean, t, hbuild, hzero, n, hn, hname, homitted, hlayout,
    hroom, hlaid⟩
  rcases hwalk with ⟨⟨p, s'⟩, hwalk, i, hline, hix, hword, hlow, hhigh⟩
  rw [show p = .line i from Place.eq_of_line? hline] at hwalk
  let f : Construction := ⟨lateImage, ⟨t, Pool.empty.collect t⟩, fun _ => [], 0xC000#16, 0xA000#16,
    ⟨"b", Name.int, "Main", 8⟩⟩
  have himage := generatedCode_of_accepted haccepted
  have hbegins : f.Begins n pairState :=
    Construction.begins_pair rfl rfl rfl hname
      (by rw [ClassTable.objectSize_of_build hbuild hn, hlayout]; rfl) hroom hlaid
  have hdefault : f.default Name.int = 0x9300#16 := by
    show ((defaultLabel? (Pool.empty.collect t) Name.int).map pairValue).getD 0#16 = _
    rw [hzero]
    decide
  have htravels : Travels f.image (fun _ => False) (f.image.target n.initLabel) pairState
      (.line i) s' := by
    rw [ClassNode.initLabel, hname]
    exact travels_of_walk hwalk
  have hplaced : f.image.Placed i (code (Instr.loadWord .hl ⟨.ix, 8⟩)) :=
    placed_cons.mpr ⟨hlow, placed_cons.mpr ⟨hhigh, fun k l hk => by cases hk⟩⟩
  have hruns : Runs f.image.value (fun _ => True) s' (Instr.loadWord .hl ⟨.ix, 8⟩) _ :=
    runs_loadAttribute (show 8 ≤ 126 by decide)
  have hvalue : s'.memory.word (attributeAt s'.ix 8) = 0#16 := by
    rw [show s'.ix = 0xA000#16 from hix]
    exact hword
  rw [hvalue] at hruns
  refine ⟨o, t, n, i, s', f, haccepted, hclean, hbuild, hn, rfl, himage, rfl, ?_, homitted, hbegins,
    htravels, hix, hplaced, hruns, ?_⟩
  · rw [hlayout]
    exact mem_cons_of_mem _ mem_cons_self
  · rw [hdefault]
    decide

end CoolCompiler
