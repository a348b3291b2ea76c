import CoolCompiler.Proofs.Machine.Defaults

/-!
# The order of initialisation

Each initialisation routine calls that of the parent before its own stores.  So slots are stored to
in the order of the layout, once each, with what their owner declares.
-/

namespace CoolCompiler

open List ClassTable

theorem ClassTable.Built.chain_induction {user : Program} {parents : List (Option Nat)}
    {t : ClassTable} (h : Built user parents t) {P : ClassNode → Prop}
    (root : ∀ n ∈ t.nodes, n.name = Name.object → t.parentOf? n = none → P n)
    (child : ∀ n ∈ t.nodes, ∀ p, t.parentOf? n = some p → P p → P n) :
    ∀ n ∈ t.nodes, P n := by
  intro n hn
  induction hlength : (t.chain n).length using Nat.strongRecOn generalizing n with
  | _ length ih =>
    rcases h.parentOf?_cases hn with ⟨hname, hnone⟩ | ⟨_, p, hpn, hp, _⟩
    · exact root n hn hname hnone
    · refine child n hn p hp (ih _ ?_ p hpn rfl)
      rw [← hlength, h.chain_of_parentOf? hn hp]
      exact Nat.lt_succ_self _

namespace Emit

/-!
# Chains of routines
-/

/-- The stores that are come to from the routine of a class, if calls are followed up to the root.
-/
inductive InitChain (t : ClassTable) (blocks : ClassNode → List InitBlock) (ls : List Line) :
    ClassNode → List InitBlock → Prop where
  | root {n : ClassNode} (hname : n.name = Name.object) (hroot : t.parentOf? n = none)
      (lines : .label n.initLabel :: code [.ret] <:+: ls) : InitChain t blocks ls n []
  | child {n p : ClassNode} {stores : List InitBlock} (hparent : t.parentOf? n = some p)
      (lines : initLines n p (blocks n) <:+: ls) (above : InitChain t blocks ls p stores) :
      InitChain t blocks ls n (stores ++ blocks n)

/-- A block stores to a slot what its owner declares: the code of the initializer where no variable
is open, or else of the default value. -/
structure DeclaredBlock (sc : Scene) (d : ClassNode) (b : InitBlock) : Prop where
  owner : b.slot.owner = d.name
  declaration : ∃ a ∈ d.decl.attributes,
    a.name = b.slot.name ∧ a.type = b.slot.type ∧ a.init = b.init
  written : ∃ s s', s.env.owner = d ∧ s.env.scopes = [[]] ∧
    Yields (initializer sc b.slot.type b.init) s b.lines () s'
  omitted : b.init.isOmitted = true →
    b.lines = code [loadDefault (defaultLabel? sc.pool b.slot.type)]

section Program

variable {q : Program} {s : Symbols} {parents : List (Option Nat)} {t : ClassTable} {pool : Pool}
  {ls : List Line} {blocks : ClassNode → List InitBlock}

theorem InitBlocks.declared (h : Compilable q s parents t) {n : ClassNode} (hn : n ∈ t.nodes)
    {bs : List InitBlock} (hbs : InitBlocks ⟨t, pool⟩ n (storedSlots n) bs) {b : InitBlock}
    (hb : b ∈ bs) : DeclaredBlock ⟨t, pool⟩ n b := by
  obtain ⟨hslot, hinit⟩ := hbs.pair_mem hb
  obtain ⟨hlayout, howner, _⟩ := Compilable.mem_storedSlots_iff.mp hslot
  obtain ⟨a, ha, hname, htype⟩ := h.exists_attribute_of_owner hn hlayout howner
  refine ⟨howner, ⟨a, ha, hname.symm, htype.symm, ?_⟩, hbs.written b hb, hbs.lines_of_omitted hb⟩
  rw [hinit, hname, initOf_eq (h.nodup_attributes hn) ha]

theorem exists_initChain (h : Compilable q s parents t)
    (hcode : InitCode ⟨t, pool⟩ ls blocks) : ∀ n ∈ t.nodes, ∃ stores,
      InitChain t blocks ls n stores ∧ stores.map InitBlock.slot = Machine.filledSlots n ∧
      ∀ b ∈ stores, ∃ d ∈ t.chain n, DeclaredBlock ⟨t, pool⟩ d b := by
  refine h.built.chain_induction ?_ ?_
  · intro n hn hname hroot
    refine ⟨[], .root hname hroot (hcode.root n hn hroot), ?_, forall_mem_nil _⟩
    rw [h.filledSlots_root hn hroot]
    rfl
  · rintro n hn p hp ⟨stores, hchain, hslots, hdeclared⟩
    obtain ⟨hblocks, hlines⟩ := hcode.routine n hn p hp
    refine ⟨stores ++ blocks n, .child hp hlines hchain, ?_, ?_⟩
    · rw [map_append, hslots, hblocks.map_slot, h.filledSlots_child hn hp]
    · intro b hb
      rw [h.built.chain_of_parentOf? hn hp]
      rcases mem_append.mp hb with habove | hown
      · obtain ⟨d, hd, hb⟩ := hdeclared b habove
        exact ⟨d, mem_cons_of_mem n hd, hb⟩
      · exact ⟨n, mem_cons_self, hblocks.declared h hn hown⟩

end Program

end Emit

/-!
# Runs
-/

namespace Machine

open Emit

variable {m : Image} {t : ClassTable} {blocks : ClassNode → List InitBlock} {keep : Word → Prop}
  {top : Word}

theorem Constructs.map_block {ls : List Line} {depth : Nat} {n : ClassNode} {s s' : Cpu}
    {trace : List InitStore} {stores : List InitBlock}
    (h : Constructs m t blocks keep top depth n s trace s')
    (hchain : InitChain t blocks ls n stores) : trace.map InitStore.block = stores := by
  induction h generalizing stores with
  | root hroot =>
    cases hchain with
    | root => rfl
    | child hparent => exact absurd (hroot.symm.trans hparent) nofun
  | derived hparent _ _ _ hown _ _ ih =>
    cases hchain with
    | root _ hroot => exact absurd (hroot.symm.trans hparent) nofun
    | child hparent' _ habove =>
      cases hparent.symm.trans hparent'
      rw [map_append, ih habove, hown]

/-- Initialisation starts: the object is in hl, the return address is on top of the stack, and the
stack to come is apart from the object. -/
structure Starts (t : ClassTable) (top object : Word) (n : ClassNode) (s : Cpu) : Prop where
  hl : s.hl = object
  sp : s.sp = top - 2#16
  apart : ∀ k, k < n.objectSize →
    ¬ Below top (2 + chainRoom (t.chain n)) (object + BitVec.ofNat 16 k)

def headerSlot : Slot := ⟨[], [], Name.primSlot, 0⟩

theorem Starts.performed {q : Program} {symbols : Symbols} {parents : List (Option Nat)}
    {pool : Pool} {self : Word} {n : ClassNode} {s s' : Cpu} {trace : List InitStore}
    (h : Compilable q symbols parents t) (hreturns : m.Returns)
    (hcode : InitCode ⟨t, pool⟩ m.code blocks) (hsmall : ∀ n ∈ t.nodes, ¬ TooLarge n)
    (hn : n ∈ t.nodes) (hstarts : Starts t top self n s)
    (hrun : Constructs m t blocks keep top 2 n s trace s') :
    Construction.Performed ⟨m, ⟨t, pool⟩, blocks, top, self, headerSlot⟩ keep 2 n s trace s' := by
  have hnames : ∀ d ∈ t.nodes, d.name ≠ Name.primSlot := fun d hd =>
    (h.collected.graph.of_mem_classNames (mem_map_of_mem (h.decl_mem hd))).2.2
  have hsound : Construction.Sound ⟨m, ⟨t, pool⟩, blocks, top, self, headerSlot⟩ :=
    Construction.sound_of_compilable h hreturns hcode hsmall
      fun d hd hname => absurd hname (hnames d hd)
  have hsize : headerSize ≤ n.objectSize := h.built.objectSize_eq hn ▸ Nat.le_add_right _ _
  have hlimit : n.objectSize ≤ 128 := Nat.not_lt.mp fun hlarge => hsmall n hn (.inl hlarge)
  simp only [headerSize, wordSize] at hsize
  have hclear : ∀ slot : Slot, slot.offset + 2 ≤ n.objectSize →
      (slot = headerSlot ∨ 2 ≤ slot.offset) →
      Construction.Clear ⟨m, ⟨t, pool⟩, blocks, top, self, headerSlot⟩ (2 + chainRoom (t.chain n))
        slot := by
    intro slot hle hapart
    refine ⟨by omega, hstarts.apart slot.offset (by omega), ?_, ?_⟩
    · have hhigh := hstarts.apart (slot.offset + 1) (by omega)
      rwa [BitVec.ofNat_add, ← BitVec.add_assoc] at hhigh
    · rcases hapart with heq | hapart
      · exact .inl heq
      · exact .inr (.inr (by simp only [headerSlot]; omega))
  have hheader := hclear headerSlot (by simp only [headerSlot]; omega) (.inl rfl)
  refine Construction.Constructs.performed hsound (Construction.limit_lt hheader) hheader hrun
    ⟨hn, Nat.le_refl 2, Nat.le_refl _, fun slot hslot => ?_, hstarts.hl, hstarts.sp⟩
  have hlayout := mem_of_mem_filter hslot
  obtain ⟨i, hi⟩ := getElem?_of_mem hlayout
  have hoffset := h.built.getElem?_layout hn hi
  have hle := h.built.offset_add_le hn hlayout
  simp only [headerSize, wordSize] at hoffset hle
  exact hclear slot hle (.inr (by omega))

end Machine

open Emit Machine in
/-- The initialisation routine of each class of an accepted program leads through the routines of
the classes above it, from the root down.  A run of it stores to the slots of the layout that are
not primitive, in the order of their offsets and as their owners declare them. -/
theorem Analysis.attributes_initialised_in_order (sources : List (Text × Text))
    (o : Analysis.Outcome) (g : Generator) (sink : Sink) (tableSink : Option Sink) (r : Generated)
    (haccepted : Analysis.fresh.run
      (sources.flatMap fun source => (Grammar.parse source.1 source.2).classes) = .ok o)
    (hclean : o.analysis.diagnostics = []) (hrun : g.run o.program sink tableSink = r)
    (hok : r.failure = none) :
    ∃ t blocks, ClassTable.build o.program = .ok t ∧ ∀ n ∈ t.nodes,
      n.layout.map Slot.name =
        (t.chain n).reverse.flatMap (fun d => d.decl.attributes.map Attribute.name) ∧
      n.layout.Pairwise (fun a b => a.offset < b.offset) ∧
      ∃ stores, InitChain t blocks (r.assembly ++ r.tables) n stores ∧
        stores.map InitBlock.slot = n.layout.filter (fun slot => !slot.isPrim) ∧
        (∀ b ∈ stores, ∃ d ∈ t.chain n, DeclaredBlock ⟨t, g.pool.collect t⟩ d b) ∧
        ∀ (m : Image) (top self : Word) (s : Cpu) (trace : List InitStore) (s' : Cpu),
          m.code = r.assembly ++ r.tables → m.Returns → Starts t top self n s →
          Constructs m t blocks (fun _ => False) top 2 n s trace s' →
          trace.map InitStore.block = stores ∧
          (∀ st ∈ trace, st.state.ix = self ∧ Runs m.value (fun _ => False) st.state
              (Instr.storeWord ⟨.ix, st.block.slot.offset⟩ .hl)
              { st.state with
                memory := st.state.memory.putWord (attributeAt self st.block.slot.offset)
                  st.state.hl } ∧
            (st.block.init.isOmitted = true → st.state.hl =
              ((defaultLabel? (g.pool.collect t) st.block.slot.type).map m.value).getD 0#16)) ∧
          Travels m (fun _ => False) (m.target n.initLabel) s (.address (s.memory.word s.sp)) s' ∧
          s'.ix = s.ix ∧ s'.iy = s.iy ∧ s'.sp = s.sp + 2#16 := by
  rcases Analysis.exists_compilable haccepted hclean with ⟨parents, t, h, hbuild, -⟩
  rcases Generator.run_initCode h hrun hok with ⟨⟨blocks, hcode⟩, hsmall⟩
  refine ⟨t, blocks, hbuild, fun n hn => ?_⟩
  rcases exists_initChain h hcode n hn with ⟨stores, hchain, hslots, hdeclared⟩
  have hoffsets : n.layout.Pairwise fun a b => a.offset < b.offset :=
    (h.built.pairwise_offset hn).imp fun hle =>
      Nat.lt_of_lt_of_le (Nat.lt_add_of_pos_right (by decide)) hle
  refine ⟨h.built.map_name_layout hn, hoffsets, stores, hchain, hslots, hdeclared, ?_⟩
  intro m top self s trace s' himage hreturns hstarts hconstructs
  rw [← himage] at hcode
  have hperformed := hstarts.performed h hreturns hcode hsmall hn hconstructs
  refine ⟨hconstructs.map_block hchain, fun st hst => ?_, hperformed.travels, hperformed.ix,
    hperformed.iy, hperformed.sp⟩
  have hproper := hperformed.effect.proper st hst
  have hself : st.state.ix = self := hproper.ix
  refine ⟨hself, ?_, hproper.omitted⟩
  rw [← hself]
  exact runs_storeAttribute hproper.offset fun _ hfalse => hfalse.elim

/-!
# An inherited attribute

The class has an attribute with an initializer, and inherits one with and one without.
-/

def inheritedSources : List (Text × Text) :=
  [("main.cl", "class Base { x : Int <- 7; s : String; };
class Main inherits Base { y : Int <- 8; main() : Object { 0 }; };")]

def Expr.isInt : Expr → Bool
  | .int _ _ => true
  | _ => false

namespace Machine

open Emit

theorem plain_of_isInt {sc : Scene} {d : ClassNode} {b : InitBlock} (h : DeclaredBlock sc d b)
    (hint : b.init.isInt = true) : Plain b := by
  obtain ⟨_, _, _, _, hwritten⟩ := h.written
  cases hinit : b.init with
  | int mark n =>
    have hgiven : ¬ (Expr.int mark n).isOmitted = true := Bool.false_ne_true
    rw [hinit, initializer, if_neg hgiven, expr, yields_owner_bind] at hwritten
    obtain ⟨_, _, _, _, hconst, hload, hlines⟩ := yields_bind.mp hwritten
    obtain ⟨k, _, rfl, rfl, rfl⟩ := yields_intConst.mp hconst
    rw [(yields_instrs.mp hload).1] at hlines
    exact ⟨some (intLabel k), hlines⟩
  | _ =>
    rw [hinit] at hint
    cases hint

theorem exists_constructs (top : Word) {n : ClassNode} {stores : List InitBlock}
    (hchain : InitChain t blocks m.code n stores)
    (hstores : ∀ b ∈ stores, Plain b ∧ b.slot.offset ≤ 126)
    (htemps : ∀ d ∈ t.nodes, initSlots d.decl ≤ 64) (hn : n ∈ t.nodes) (depth : Nat) (s : Cpu) :
    ∃ trace s', Constructs m t blocks keep top depth n s trace s' := by
  induction hchain generalizing depth s with
  | root _ hroot _ => exact ⟨[], _, .root hroot⟩
  | @child n p stores hparent lines above ih =>
    rw [forall_mem_append] at hstores
    obtain ⟨j, hj⟩ := exists_placed lines
    have hstands := Construction.stands_of_placed hj
    obtain ⟨s1, henter, _⟩ := runs_enter m.value (htemps n hn) s
    rcases ih hstores.1 (mem_of_parentOf? hparent) (depth + frameRoom n)
      (s1.push (m.start (resume n j))) with ⟨trace, s2, habove⟩
    obtain ⟨own, s3, hown, hfills⟩ := exists_fills top hstores.2 hstands.blocks (depth + 4) s2
    obtain ⟨s4, hleave, _⟩ := runs_leave m.value (htemps n hn) s3
    exact ⟨_, _, .derived hparent (target_of_code hstands.label)
      (henter.mono fun _ hfalse => hfalse.elim) habove hown hfills
      (hleave.mono fun _ hfalse => hfalse.elim)⟩

def inheritedImage : Image where
  code := generatedCode inheritedSources
  labelled := by decide +kernel
  value := pairValue
  start i := BitVec.ofNat 16 i
  library _ _ := none

end Machine

open Emit Machine in
theorem Analysis.attributes_initialised_in_order_inherited : ∃ o t blocks n trace s',
    Analysis.fresh.run (inheritedSources.flatMap fun source =>
      (Grammar.parse source.1 source.2).classes) = .ok o ∧ o.analysis.diagnostics = [] ∧
    ClassTable.build o.program = .ok t ∧ n ∈ t.nodes ∧ n.name = "Main" ∧
    Starts t 0xC000#16 0xA000#16 n pairState ∧
    Constructs inheritedImage t blocks (fun _ => False) 0xC000#16 2 n pairState trace s' ∧
    trace.map (fun st => st.block.slot) = [⟨"x", Name.int, "Base", 6⟩,
      ⟨"s", Name.string, "Base", 8⟩, ⟨"y", Name.int, "Main", 10⟩] ∧
    (∀ st ∈ trace, st.state.ix = 0xA000#16) ∧
    Travels inheritedImage (fun _ => False) (inheritedImage.target n.initLabel) pairState
      (.address (pairState.memory.word pairState.sp)) s' := by
  have hcheck : (acceptedBy inheritedSources fun o =>
        ((Generator.fresh []).run o.program (Sink.fresh none) none).failure.isNone &&
        passes (ClassTable.build o.program) fun t =>
          (t.nodes.all fun d => decide (initSlots d.decl ≤ 64) &&
            d.decl.attributes.all fun a => a.init.isOmitted || a.init.isInt) &&
          t.nodes.any fun n => n.name == "Main" && decide (chainRoom (t.chain n) = 18) &&
            decide (n.layout = [⟨"x", Name.int, "Base", 6⟩, ⟨"s", Name.string, "Base", 8⟩,
              ⟨"y", Name.int, "Main", 10⟩])) = true := by
    decide +kernel
  have hlength : inheritedImage.code.length ≤ 65536 := by decide +kernel
  simp only [acceptedBy_iff, passes_iff, all_eq_true, any_eq_true, Bool.or_eq_true,
    Bool.and_eq_true, beq_iff_eq, decide_eq_true_eq, Option.isNone_iff_eq_none,
    and_assoc] at hcheck
  rcases hcheck with ⟨o, haccepted, hclean, hok, t, hbuild, hplain, n, hn, hname, hroom, hlayout⟩
  rcases Analysis.attributes_initialised_in_order inheritedSources o (Generator.fresh [])
    (Sink.fresh none) none _ haccepted hclean rfl hok with ⟨t', blocks, hbuild', hclasses⟩
  rw [hbuild] at hbuild'
  cases hbuild'
  rcases hclasses n hn with ⟨_, _, stores, hchain, hslots, hdeclared, hruns⟩
  have himage := generatedCode_of_accepted haccepted
  have hfilled : stores.map InitBlock.slot = [⟨"x", Name.int, "Base", 6⟩,
      ⟨"s", Name.string, "Base", 8⟩, ⟨"y", Name.int, "Main", 10⟩] := by
    rw [hslots, hlayout]
    decide
  have hstores : ∀ b ∈ stores, Plain b ∧ b.slot.offset ≤ 126 := by
    intro b hb
    have hmem : b.slot ∈ stores.map InitBlock.slot := mem_map_of_mem hb
    rw [hfilled] at hmem
    rcases hdeclared b hb with ⟨d, hd, hblock⟩
    refine ⟨?_, (by decide : ∀ slot ∈ _, Slot.offset slot ≤ 126) _ hmem⟩
    rcases hblock.declaration with ⟨a, ha, _, _, hinit⟩
    rcases (hplain d (ClassTable.Built.mem_nodes_of_mem_chain t hd)).2 a ha with homitted | hint
    · exact ⟨_, hblock.omitted (hinit ▸ homitted)⟩
    · exact plain_of_isInt hblock (hinit ▸ hint)
  have hstarts : Starts t 0xC000#16 0xA000#16 n pairState := by
    have hsize : n.objectSize = 12 := by
      rw [ClassTable.objectSize_of_build hbuild hn, hlayout]
      rfl
    refine ⟨rfl, rfl, fun k hk => ?_⟩
    rw [hsize] at hk
    rw [hroom]
    unfold Below
    bv_omega
  rw [← himage] at hchain
  rcases exists_constructs (m := inheritedImage) 0xC000#16 hchain hstores
    (fun d hd => (hplain d hd).1) hn 2 pairState with ⟨trace, s', hconstructs⟩
  rcases hruns inheritedImage 0xC000#16 0xA000#16 pairState trace s' himage
    (Image.returns_of_start (fun _ => rfl) hlength) hstarts hconstructs with
    ⟨hblocks, hstored, htravels, _⟩
  refine ⟨o, t, blocks, n, trace, s', haccepted, hclean, hbuild, hn, hname, hstarts, hconstructs,
    ?_, fun st hst => (hstored st hst).1, htravels⟩
  rw [← hfilled, ← hblocks, map_map]
  rfl

end CoolCompiler
