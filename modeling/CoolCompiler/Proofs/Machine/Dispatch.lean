import CoolCompiler.Proofs.Emit.Calls
import CoolCompiler.Proofs.Emit.Sites
import CoolCompiler.Proofs.Machine.CaseWalk
import CoolCompiler.Proofs.Machine.Convention

/-!
# Dispatch

The code of a dispatch tests the receiver for void, takes a routine from the dispatch table of the
receiver, at the place of the method in that of the static class, and goes there: to the routine of
the nearest class above the receiver's that declares the method.
-/

namespace CoolCompiler

open List ClassTable Instr

namespace Machine

open Emit

variable {m : Image} {i : Nat} {s : Cpu}

/-!
# Looking up a routine
-/

def lookup (offset : Int) : List Instr :=
  [push .hl, loadInt .de dispatchOffset, .add .hl .de] ++ loadIndirect .de ++
    [loadInt .hl offset, .add .hl .de] ++ loadIndirect .de ++ [pop .hl]

theorem dispatchCall_eq (offset : Int) (void back : Name) :
    dispatchCall offset void back = (testZero .hl ++ [jp .zero void]) ++
      (lookup offset ++ callPair .de back) := by
  simp only [dispatchCall, lookup, append_assoc, cons_append, nil_append]

structure Entry (s : Cpu) (offset : Int) (routine : Word) : Prop where
  header : Clear s (s.hl + 4#16) ∧ Clear s (s.hl + 4#16 + 1#16)
  place : Clear s (s.memory.word (s.hl + 4#16) + BitVec.ofInt 16 offset) ∧
    Clear s (s.memory.word (s.hl + 4#16) + BitVec.ofInt 16 offset + 1#16)
  word : s.memory.word (s.memory.word (s.hl + 4#16) + BitVec.ofInt 16 offset) = routine

theorem runs_lookup (value : Name → Word) {offset : Int} {routine : Word}
    (h : Entry s offset routine) :
    ∃ s', Runs value (Clear s) s (lookup offset) s' ∧ Still s s' ∧ s'.hl = s.hl ∧
      s'.de = routine := by
  have hkept : ∀ a, Clear s a → (s.push s.hl).memory a = s.memory a := fun _ ha => ha.push s.hl
  have htable : (s.push s.hl).memory.word (s.hl + 4#16) = s.memory.word (s.hl + 4#16) :=
    Memory.word_congr (hkept _ h.header.1) (hkept _ h.header.2)
  let s1 : Cpu := { s.push s.hl with
    de := 4#16, hl := s.hl + 4#16, carry := decide (65536 ≤ s.hl.toNat + (4#16).toNat) }
  let s2 : Cpu := { s1 with de := s1.memory.word s1.hl, hl := s1.hl + 1#16 }
  let s3 : Cpu := { s2 with
    hl := BitVec.ofInt 16 offset + s2.de,
    carry := decide (65536 ≤ (BitVec.ofInt 16 offset).toNat + s2.de.toNat) }
  let s4 : Cpu := { s3 with de := s3.memory.word s3.hl, hl := s3.hl + 1#16 }
  let s5 : Cpu := { s4 with hl := s4.memory.word s4.sp, sp := s4.sp + 2#16 }
  have hhead : Runs value (Clear s) s
      [push .hl, loadInt .de dispatchOffset, .add .hl .de] s1 :=
    .cons rfl hkept (.quiet rfl rfl (.quiet rfl rfl (.nil _)))
  have hplace : Runs value (Clear s) s2 [loadInt .hl offset, .add .hl .de] s3 :=
    .quiet rfl rfl (.quiet rfl rfl (.nil _))
  have hpop : Runs value (Clear s) s4 [pop .hl] s5 := .quiet rfl rfl (.nil _)
  have hfirst : Runs value (Clear s) s1 (loadIndirect .de) s2 := runs_loadIndirect_de
  have hsecond : Runs value (Clear s) s3 (loadIndirect .de) s4 := runs_loadIndirect_de
  refine ⟨s5, (((hhead.append hfirst).append hplace).append hsecond).append hpop,
    ⟨rfl, rfl, BitVec.sub_add_cancel s.sp 2#16⟩, Memory.word_putWord_self, ?_⟩
  show (s.push s.hl).memory.word (BitVec.ofInt 16 offset +
    (s.push s.hl).memory.word (s.hl + 4#16)) = routine
  rw [htable, BitVec.add_comm (BitVec.ofInt 16 offset), ← h.word]
  exact Memory.word_congr (hkept _ h.place.1) (hkept _ h.place.2)

theorem reaches_entry {offset : Int} {void back : Name} {routine : Word}
    (hplaced : m.Placed i (code (dispatchCall offset void back))) (hobject : s.hl ≠ 0#16)
    (h : Entry s offset routine) :
    ∃ s', Reaches m (Clear s) (.line i) s (.address routine) s' ∧ s'.hl = s.hl ∧
      s'.sp = s.sp - 2#16 ∧ s'.memory.word s'.sp = m.value back := by
  rw [dispatchCall_eq] at hplaced
  obtain ⟨htest, hplaced⟩ := (placed_code_append _ _).mp hplaced
  obtain ⟨hlookup, hcall⟩ := (placed_code_append _ _).mp hplaced
  have htested : Reaches m (Clear s) (.line i) s (.line (i + 3)) (tested s) := by
    have htested := reaches_testVoid (s := s) htest
    rwa [if_neg hobject] at htested
  have hentry : Entry (tested s) offset routine := ⟨h.header, h.place, h.word⟩
  obtain ⟨s1, hruns, hstill, hhl, hde⟩ := runs_lookup m.value hentry
  have hsp : s1.sp = s.sp := hstill.sp
  obtain ⟨s2, hreaches, hhl2, -, -, hsp2, hback⟩ := reaches_callPair hcall s1
  rw [hde, hsp] at hreaches
  rw [hsp] at hsp2
  exact ⟨s2, htested.trans ((reaches_code hlookup hruns).trans hreaches), hhl2.trans hhl, hsp2,
    hback⟩

theorem Lies.dispatchEntry {value : Name → Word} {P : Word → Prop} {memory : Memory} {p : Word}
    {t : ClassTable} {n : ClassNode} (h : Lies value P memory p (dispatchTables t))
    (hn : n ∈ t.preorder) {k : Nat} {e : DispatchEntry} (hk : n.dispatch[k]? = some e) :
    memory.word (value n.dispatchLabel + BitVec.ofNat 16 (2 * k)) = value e.label ∧
      P (value n.dispatchLabel + BitVec.ofNat 16 (2 * k)) ∧
      P (value n.dispatchLabel + BitVec.ofNat 16 (2 * k) + 1#16) := by
  have hwithin : dispatchTable n <:+: dispatchTables t :=
    infix_of_mem_flatten (mem_map_of_mem hn)
  obtain ⟨q, hq⟩ := h.part hwithin
  have htable := hq.label
  rw [map_eq_flatMap] at htable
  have hsize : ∀ e ∈ n.dispatch, extent [.word ⟨e.label, 0⟩] = 2 := fun _ _ => rfl
  exact (htable.block hsize hk).reference

/-!
# Sites
-/

/-- A dispatch in a routine of `n` stands in a listing: the code of its actuals and receiver, what
follows from line `i` on, and the label `back` with the code that takes the actuals off the stack.
-/
inductive DispatchAt (m : Image) (sc : Scene) (n : ClassNode) (mark : Mark) (receiver : Expr)
    (f : Name) (args : List Expr) : Nat → Name → Prop where
  | intro {base : List (Dictionary Indexed)} {vs : List Variable} {s s1 s2 s' : Session}
      {pushed first rest : List Line} {j : Nat} {back : Name} (opened : Opened n base vs s.env)
      (actualsCode : Yields (actuals sc args) s pushed () s1)
      (receiverCode : Yields (expr sc receiver) s1 first () s2)
      (whole : Yields (expr sc (.dispatch mark receiver none f args)) s
        (pushed ++ (first ++ (rest ++ .label back :: code (dropActuals args.length)))) () s')
      (placed : m.Placed j
        (pushed ++ (first ++ (rest ++ .label back :: code (dropActuals args.length))))) :
      DispatchAt m sc n mark receiver f args (j + pushed.length + first.length) back

section Site

variable {sc : Scene} {n : ClassNode} {mark : Mark} {receiver : Expr} {f : Name}
  {args : List Expr} {back : Name}

theorem exists_dispatchAt (h : CodeWithin sc n (.dispatch mark receiver none f args) m.code) :
    ∃ i back, DispatchAt m sc n mark receiver f args i back := by
  obtain ⟨base, vs, s, inside, s', hopened, hwhole, hwithin⟩ := h
  obtain ⟨j, hplaced⟩ := exists_placed hwithin
  rcases yields_dispatch hwhole with
    ⟨entry, -, pushed, s1, first, s2, file, hpushed, hfirst, -, -, rfl⟩
  rw [← append_assoc (code _)] at hwhole hplaced
  exact ⟨_, _, .intro hopened hpushed hfirst hwhole hplaced⟩

theorem DispatchAt.exists_code (h : DispatchAt m sc n mark receiver f args i back) :
    ∃ entry void file, sc.table.method (Symbols.resolve receiver.type n.name) f = .ok entry ∧
      sc.pool.strings.find? n.decl.file = some file ∧
      m.Placed i (code (dispatchCall entry.offset void back) ++
        dispatchAbort void mark.line ⟨stringLabel file, 0⟩) := by
  obtain ⟨hopened, hactuals, hreceiver, hwhole, hplaced⟩ := h
  rcases yields_dispatch hwhole with
    ⟨entry, hentry, pushed, s1, first, s2, file, hpushed, hfirst, -, hfile, hlines⟩
  obtain ⟨rfl, -, rfl⟩ := hactuals.eq hpushed
  obtain ⟨rfl, -, rfl⟩ := hreceiver.eq hfirst
  have howner := (moves_expr receiver hfirst (moves_actuals args hpushed hopened)).owner
  rw [howner] at hfile
  rw [hopened.owner] at hentry
  have hcode := append_cancel_left (append_cancel_left hlines)
  rw [append_cons, ← append_assoc (code _), append_cons (code _ ++ _)] at hcode
  have hrest := append_inj' (append_cancel_right hcode) rfl
  cases hrest.2
  rw [← append_assoc, placed_append, placed_append, length_append,
    ← Nat.add_assoc, hrest.1] at hplaced
  exact ⟨entry, _, file, hentry, hfile, (placed_append.mp hplaced.2).1⟩

structure Receives (m : Image) (t : ClassTable) (n : ClassNode) (s : Cpu) : Prop where
  object : s.hl ≠ 0#16
  header : Clear s (s.hl + 4#16) ∧ Clear s (s.hl + 5#16)
  table : s.memory.word (s.hl + 4#16) = m.value n.dispatchLabel
  tables : ∃ p, Lies m.value (Clear s) s.memory p (dispatchTables t)

/-- The code from a line on has gone to a routine, as by a call that returns to the label
`back`. -/
structure Enters (m : Image) (i : Nat) (s : Cpu) (routine back : Name) (s' : Cpu) : Prop where
  reaches : Reaches m (Clear s) (.line i) s (.address (m.value routine)) s'
  receiver : s'.hl = s.hl
  sp : s'.sp = s.sp - 2#16
  back : s'.memory.word s'.sp = m.value back

theorem Enters.actual {routine : Name} {s' : Cpu} (h : Enters m i s routine back s') {s0 : Cpu}
    {ws : List Word} (hpushed : Pushed s0 ws s) (hroom : 2 * ws.length + 4 ≤ 65536) {k : Nat}
    {w : Word} (hk : ws[k]? = some w) :
    s'.memory.word (s'.sp + BitVec.ofNat 16 (2 * (ws.length - k))) = w := by
  have hlt := (List.getElem?_eq_some_iff.mp hk).1
  have hplace : s'.sp + BitVec.ofNat 16 (2 * (ws.length - k)) =
      s.sp + BitVec.ofNat 16 (2 * (ws.length - 1 - k)) := by
    have hstep : 2 * (ws.length - k) = 2 * (ws.length - 1 - k) + 2 := by omega
    rw [hstep, BitVec.ofNat_add, h.sp]
    generalize BitVec.ofNat 16 (2 * (ws.length - 1 - k)) = x
    bv_omega
  rw [hplace]
  exact hpushed.word_of_kept hroom (fun a ha => h.reaches.memory ha) hk

theorem DispatchAt.reaches_abort (h : DispatchAt m sc n mark receiver f args i back) {file : Nat}
    (hfile : sc.pool.strings.find? n.decl.file = some file) (hvoid : s.hl = 0#16) :
    ∃ s', Reaches m (Clear s) (.line i) s (m.target "_dispatch_abort") s' ∧
      s'.de = BitVec.ofInt 16 mark.line ∧ s'.hl = m.value (stringLabel file) ∧ s'.sp = s.sp := by
  obtain ⟨entry, void, file', -, hfile', hplaced⟩ := h.exists_code
  rw [hfile] at hfile'
  cases hfile'
  obtain ⟨hcall, habort⟩ := placed_append.mp hplaced
  rw [dispatchCall_eq, placed_code_append] at hcall
  obtain ⟨s', hreaches, hde, hhl, hsp⟩ := reaches_report hcall.1 habort hvoid
  exact ⟨s', hreaches, hde, hhl.trans (BitVec.add_zero _), hsp⟩

theorem DispatchAt.reaches_nearest {user : List Class} {parents : List (Option Nat)}
    {t : ClassTable} {pool : Pool} (hbuilt : Built user parents t)
    (h : DispatchAt m ⟨t, pool⟩ n mark receiver f args i back) {sub : ClassNode}
    (hsub : sub ∈ t.nodes)
    (hbelow : t.isSubclass sub.name (Symbols.resolve receiver.type n.name) = true)
    (hreceives : Receives m t sub s) :
    ∃ nearest s', (t.chain sub).find? (fun a => a.decl.declaresMethod f) = some nearest ∧
      Enters m i s (nearest.methodLabel f) back s' := by
  obtain ⟨entry, void, file, hmethod, -, hplaced⟩ := h.exists_code
  obtain ⟨c, hfind, hentry⟩ := ClassTable.method_eq_ok_iff.mp hmethod
  obtain ⟨hc, hname⟩ := hbuilt.find?_eq_some_iff.mp hfind
  rw [← hname] at hbelow
  rcases hbuilt.exists_entry_below hsub hc hbelow hentry with
    ⟨k, e, nearest, hk, hoffset, hnearest, hlabel⟩
  obtain ⟨hobject, hheader, htable, p, htables⟩ := hreceives
  obtain ⟨hword, hlow, hhigh⟩ := htables.dispatchEntry (hbuilt.mem_preorder_iff.mpr hsub) hk
  have hplace : m.value sub.dispatchLabel + BitVec.ofInt 16 (entry.offset : Int) =
      m.value sub.dispatchLabel + BitVec.ofNat 16 (2 * k) := by
    rw [BitVec.ofInt_natCast, hoffset, wordSize]
  have hfive : s.hl + 4#16 + 1#16 = s.hl + 5#16 := BitVec.add_assoc _ _ _
  have hroutine : Entry s entry.offset (m.value (nearest.methodLabel f)) := by
    constructor
    · rw [hfive]
      exact hheader
    · rw [htable, hplace]
      exact ⟨hlow, hhigh⟩
    · rw [htable, hplace, hword, hlabel]
  rcases reaches_entry (placed_append.mp hplaced).1 hobject hroutine with
    ⟨s', hreaches, hhl, hsp, hback⟩
  exact ⟨nearest, s', hnearest, hreaches, hhl, hsp, hback⟩

end Site

end Machine

/-!
# Programs
-/

section Program

open Emit Machine

variable {q : Program} {symbols : Symbols} {parents : List (Option Nat)} {t : ClassTable}
  (h : Compilable q symbols parents t) {g : Generator} {sink : Sink} {tableSink : Option Sink}
  {r : Generated} (hr : g.run q sink tableSink = r) (hok : r.failure = none) {m : Image}
  (hcode : m.code = r.assembly ++ r.tables)
include h hr hok hcode

theorem target_dispatchAbort (hsigned : ∀ c ∈ Class.builtin ++ q, Typing.Signed symbols c)
    (hcapital : ∀ c ∈ q, c.name.Capital) :
    m.target "_dispatch_abort" = .outside "_dispatch_abort" := by
  apply target_of_not_mem
  rw [hcode, ← mem_labelDefs]
  intro hdefined
  obtain ⟨l, hl, hname⟩ := Generator.run_proper h hsigned hcapital hr hok hdefined
  exact Label.name_ne_of_kindOf hl (by decide) (by decide) hname

theorem exists_methodLine {n : ClassNode} (hn : n ∈ t.nodes) (huser : n.isBasic = false)
    {f : Name} (hf : n.decl.declaresMethod f = true) :
    ∃ j : Nat, m.code[j]? = some (.label (n.methodLabel f)) := by
  obtain ⟨k, hpiece⟩ := Generator.run_piece h hr hok
  obtain ⟨d, hd, hname⟩ := any_eq_true.mp hf
  have hlabel : Label.method n.name f ∈ programLabels ⟨t, g.pool.collect t⟩ :=
    mem_programLabels_iff.mpr ⟨n, h.built.mem_preorder_iff.mpr hn, huser, d, hd, rfl, by
      simpa using hname⟩
  have hdefined : n.methodLabel f ∈ labelDefs (r.assembly ++ r.tables) := by
    rw [hpiece.defs.mem_iff]
    exact mem_append_left _ (mem_map_of_mem hlabel)
  rw [mem_labelDefs, ← hcode] at hdefined
  exact getElem?_of_mem hdefined

theorem textAt_of_find? {text : Text} {k : Nat}
    (hk : (g.pool.collect t).strings.find? text = some k) :
    textAt (stringLabel k) m.code = some text := by
  rcases Generator.run_parts ((build_eq_ok_iff q t).mpr ⟨_, h.built⟩) hr hok with
    ⟨tables, before, after, _, _, hbefore, -, ⟨rest, hrest⟩, -⟩
  obtain ⟨opening, zero, hopening, rfl⟩ := yields_beforeTables hbefore
  rw [hcode, ← hrest, append_assoc]
  exact hopening.texts ⟨k, text⟩ (Numbering.mem_entries_of_find? hk) _

end Program

open Emit Machine in
/-- Every dispatch of an accepted program that names no class stands in the listing.  A void
receiver is reported with the line of the dispatch and the file of the class.  Any other one whose
class is the static class or one below it goes to the routine of the nearest class that declares
the method, with the receiver in hl and the return address above the actuals. -/
theorem Analysis.dispatch_reaches_nearest (sources : List (Text × Text)) (o : Analysis.Outcome)
    (haccepted : Analysis.fresh.run
      (sources.flatMap fun source => (Grammar.parse source.1 source.2).classes) = .ok o)
    (hclean : o.analysis.diagnostics = []) (g : Generator) (sink : Sink)
    (tableSink : Option Sink) (r : Generated) (hrun : g.run o.program sink tableSink = r)
    (hok : r.failure = none) :
    ∃ t, ClassTable.build o.program = .ok t ∧ dispatchTables t <:+: r.assembly ++ r.tables ∧
      ∀ m : Image, m.code = r.assembly ++ r.tables → ∀ c ∈ o.program, ∀ feature ∈ c.features,
        ∀ path mark receiver f args,
          feature.expr.at? path = some (.dispatch mark receiver none f args) →
          ∃ n ∈ t.nodes, n.decl = c ∧ ∃ file, textAt (stringLabel file) m.code = some c.file ∧
            (∃ i back, DispatchAt m ⟨t, g.pool.collect t⟩ n mark receiver f args i back) ∧
            ∀ i back, DispatchAt m ⟨t, g.pool.collect t⟩ n mark receiver f args i back →
              ∀ s : Cpu,
                (s.hl = 0#16 →
                  ∃ s', Reaches m (Clear s) (.line i) s (.outside "_dispatch_abort") s' ∧
                    s'.de = BitVec.ofInt 16 mark.line ∧ s'.hl = m.value (stringLabel file) ∧
                    s'.sp = s.sp) ∧
                ∀ sub ∈ t.nodes,
                  t.isSubclass sub.name (Symbols.resolve receiver.type c.name) = true →
                  Receives m t sub s →
                  ∃ nearest s', (t.chain sub).find? (fun a => a.decl.declaresMethod f) =
                      some nearest ∧
                    (nearest.isBasic = false →
                      ∃ j : Nat, m.code[j]? = some (.label (nearest.methodLabel f))) ∧
                    Enters m i s (nearest.methodLabel f) back s' ∧
                    ∀ s₀ ws, Pushed s₀ ws s → ws.length = args.length →
                      ∀ (k : Nat) (w : Word), ws[k]? = some w →
                        s'.memory.word (s'.sp + BitVec.ofNat 16 (2 * (args.length - k))) = w := by
  rcases Analysis.exists_compilable haccepted hclean with
    ⟨parents, t, h, hbuild, -, hsigned, hcapital⟩
  rcases Generator.run_parts hbuild hrun hok with ⟨_, _, _, _, _, -, -, -, -, htables⟩
  have hsmall := (Generator.run_initCode h hrun hok).2
  refine ⟨t, hbuild, htables, ?_⟩
  intro m hcode c hc feature hfeature path mark receiver f args he
  have hdecl : c ∈ t.nodes.map ClassNode.decl := by
    rw [h.built.map_decl]
    exact mem_append_right _ hc
  rcases mem_map.mp hdecl with ⟨n, hn, rfl⟩
  have hwithin := Generator.run_codeWithin h hrun hok hn hc hfeature he rfl
  rw [← hcode] at hwithin
  rcases exists_dispatchAt hwithin with ⟨i₀, back₀, hsite⟩
  rcases hsite.exists_code with ⟨_, _, file, -, hfile, -⟩
  refine ⟨n, hn, rfl, file, textAt_of_find? h hrun hok hcode hfile, ⟨i₀, back₀, hsite⟩, ?_⟩
  intro i back hsite s
  constructor
  · intro hvoid
    rw [← target_dispatchAbort h hrun hok hcode hsigned hcapital]
    exact hsite.reaches_abort hfile hvoid
  · intro sub hsub hbelow hreceives
    rcases hsite.reaches_nearest h.built hsub hbelow hreceives with
      ⟨nearest, s', hnearest, henters⟩
    have hargs := h.length_args_le hsmall hn (h.callAgrees_at hsigned hc hfeature he rfl)
    refine ⟨nearest, s', hnearest, fun huser => ?_, henters, ?_⟩
    · have hmem := mem_of_find?_eq_some hnearest
      exact exists_methodLine h hrun hok hcode (ClassTable.Built.mem_nodes_of_mem_chain t hmem)
        huser (find?_some (p := fun a : ClassNode => a.decl.declaresMethod f) hnearest)
    · intro s₀ ws hpushed hlength k w hk
      rw [← hlength]
      exact henters.actual hpushed (by omega) hk

namespace Machine

def overriddenLabels : List (Name × Word) :=
  [("Object_dispTab", 0x8000#16), ("IO_dispTab", 0x8006#16), ("Int_dispTab", 0x8014#16),
   ("Bool_dispTab", 0x801A#16), ("String_dispTab", 0x8020#16), ("Main_dispTab", 0x802C#16),
   ("A_dispTab", 0x8034#16), ("B_dispTab", 0x803C#16), ("A.f", 0x4100#16), ("B.f", 0x4200#16)]

def overriddenImage : Image where
  code := generatedCode overriddenSources
  labelled := by decide +kernel
  value label := ((overriddenLabels.find? fun x => x.1 == label).map Prod.snd).getD 0x4000#16
  start i := BitVec.ofNat 16 i
  library _ _ := none

def overriddenBytes : List Byte :=
  (List.replicate 29 [0#8, 0x40#8] ++ [[0#8, 0x41#8]] ++ List.replicate 3 [0#8, 0x40#8] ++
    [[0#8, 0x42#8]]).flatten

def overriddenMemory : Memory :=
  Memory.putWord (fun a => overriddenBytes.getD (a - 0x8000#16).toNat 0#8) 0xA004#16 0x803C#16

def overriddenState : Cpu :=
  (Cpu.push ⟨0#8, 0#16, 0#16, 0xA000#16, 0#16, 0#16, 0xC000#16, false, false, overriddenMemory⟩
    0x1111#16).push 0x2222#16

end Machine

open Emit Machine in
theorem Analysis.dispatch_reaches_nearest_overridden : ∃ o t n i back s',
    Analysis.fresh.run (overriddenSources.flatMap fun source =>
      (Grammar.parse source.1 source.2).classes) = .ok o ∧
    o.analysis.diagnostics = [] ∧ ClassTable.build o.program = .ok t ∧ n ∈ t.nodes ∧
    n.name = "B" ∧ Receives overriddenImage t n overriddenState ∧
    Enters overriddenImage i overriddenState "B.f" back s' ∧
    s'.memory.word (s'.sp + 4#16) = 0x1111#16 ∧ s'.memory.word (s'.sp + 2#16) = 0x2222#16 := by
  have hcheck : (acceptedBy overriddenSources fun o =>
        ((Generator.fresh []).run o.program (Sink.fresh none) none).failure.isNone &&
        (o.program.any fun c => c.features.any fun f => callsOverridden f.expr) &&
        passes (ClassTable.build o.program) fun t =>
          decide (Laid overriddenImage.value overriddenState.memory 0x8000#16 (dispatchTables t)) &&
          decide (extent (dispatchTables t) = 68) &&
          t.nodes.any fun n => n.name == "B" && t.isSubclass n.name "A" &&
            ((t.chain n).find? fun a => a.decl.declaresMethod "f").any fun d : ClassNode =>
              d.name == "B") = true := by
    decide +kernel
  have hclear : ∀ k, k < 68 → Clear overriddenState (0x8000#16 + BitVec.ofNat 16 k) := by decide
  simp only [acceptedBy_iff, passes_iff, Bool.and_eq_true, any_eq_true, Option.any_eq_true,
    Option.isNone_iff_eq_none, decide_eq_true_eq, beq_iff_eq, and_assoc] at hcheck
  rcases hcheck with ⟨o, haccepted, hclean, hok, ⟨c, hc, feature, hfeature, hcalls⟩, t, hbuild,
    hlaid, hextent, n, hn, hname, hbelow, d, hd, hdname⟩
  rcases Analysis.dispatch_reaches_nearest overriddenSources o haccepted hclean
    (Generator.fresh []) (Sink.fresh none) none _ rfl hok with ⟨t', hbuild', -, hsites⟩
  rw [hbuild] at hbuild'
  cases hbuild'
  have hreceives : Receives overriddenImage t n overriddenState := by
    refine ⟨by decide, by decide, ?_, 0x8000#16, hlaid, fun k hk => hclear k (hextent ▸ hk)⟩
    rw [ClassNode.dispatchLabel, hname]
    decide
  unfold callsOverridden at hcalls
  split at hcalls
  · rename_i mark receiver method args hexpr
    simp only [Bool.and_eq_true, beq_iff_eq] at hcalls
    rcases hcalls with ⟨⟨htype, rfl⟩, hargs⟩
    rcases hsites overriddenImage (generatedCode_of_accepted haccepted) c hc feature hfeature []
      mark receiver "f" args (congrArg some hexpr) with ⟨_, _, -, _, -, ⟨i, back, hsite⟩, hall⟩
    have hstatic : Symbols.resolve receiver.type c.name = "A" := by
      rw [htype]
      rfl
    rcases (hall i back hsite overriddenState).2 n hn (hstatic ▸ hbelow) hreceives with
      ⟨nearest, s', hnearest, -, henters, hactuals⟩
    rw [hd] at hnearest
    cases hnearest
    rw [ClassNode.methodLabel, hdname] at henters
    rw [hargs] at hactuals
    have hpushed := hactuals _ [0x1111#16, 0x2222#16] (.push 0x2222#16 (.push 0x1111#16 .nil)) rfl
    exact ⟨o, t, n, i, back, s', haccepted, hclean, hbuild, hn, hname, hreceives, henters,
      hpushed 0 _ rfl, hpushed 1 _ rfl⟩
  · cases hcalls

end CoolCompiler
