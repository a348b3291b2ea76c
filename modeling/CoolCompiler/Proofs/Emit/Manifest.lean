import CoolCompiler.ObjectModel.Manifest
import CoolCompiler.Proofs.Emit.Listing

/-!
# The manifest and the assembly

A manifest can be read like assembly.  Both tell the same object model but for one word: the
manifest takes the size of the prototype of `String` from its layout, where the characters have a
word, and the assembly counts the one byte of an empty string.
-/

namespace CoolCompiler

open List

namespace Manifest

mutual

/-- The words and bytes of a constant.  Characters of a constant end with a zero byte, as those
of a string do in assembly. -/
def IrConst.data : IrConst → List Line
  | .int n => [.number n]
  | .null => [.number 0]
  | .noChars => [.string []]
  | .chars s => [.string s.dropLast]
  | .cast _ symbol => [.word ⟨symbol, 0⟩]
  | .array _ items | .struct _ items => IrConst.dataOfAll items

def IrConst.dataOfAll : List IrConst → List Line
  | [] => []
  | c :: cs => c.data ++ IrConst.dataOfAll cs

end

def Global.lines (g : Global) : List Line := .label g.name :: g.value.data

def listing (m : Manifest) : List Line := m.globals.flatMap Global.lines

theorem dataOfAll_eq_flatMap (cs : List IrConst) :
    IrConst.dataOfAll cs = cs.flatMap IrConst.data := by
  induction cs with
  | nil => rfl
  | cons c cs ih => rw [IrConst.dataOfAll, ih, flatMap_cons]

mutual

theorem isData_of_mem_data (c : IrConst) : ∀ l ∈ c.data, l.isData = true := by
  cases c with
  | array _ items => exact isData_of_mem_dataOfAll items
  | struct _ items => exact isData_of_mem_dataOfAll items
  | _ => exact forall_mem_singleton.mpr rfl

theorem isData_of_mem_dataOfAll (cs : List IrConst) :
    ∀ l ∈ IrConst.dataOfAll cs, l.isData = true := by
  cases cs with
  | nil => exact fun _ hl => absurd hl not_mem_nil
  | cons c cs =>
    rw [IrConst.dataOfAll, forall_mem_append]
    exact ⟨isData_of_mem_data c, isData_of_mem_dataOfAll cs⟩

end

/-!
# Globals of classes
-/

def classLines (n : ClassNode) : List Line := (classGlobals [] n).flatMap Global.lines

theorem data_dispatchConst (methods : List Routine) (n : ClassNode) :
    (dispatchConst methods n).data = n.dispatch.map fun e => .word ⟨e.label, 0⟩ := by
  rw [dispatchConst, IrConst.data, dataOfAll_eq_flatMap, flatMap_map, map_eq_flatMap]
  rfl

theorem lines_classGlobals (methods : List Routine) (n : ClassNode) :
    (classGlobals methods n).flatMap Global.lines = classLines n := by
  simp only [classLines, classGlobals, flatMap_cons, Global.lines, data_dispatchConst]

theorem lines_classesFrom (t : ClassTable) (methods : List Routine) (ns : List ClassNode) :
    (classesFrom t methods ns).2.flatMap Global.lines = ns.flatMap classLines := by
  induction ns generalizing methods with
  | nil => rfl
  | cons n ns ih =>
    rw [classesFrom]
    simp only
    rw [flatMap_append, lines_classGlobals, ih, flatMap_cons]

theorem labelDefs_globalLines (g : Global) : labelDefs g.lines = [g.name] := by
  rw [Global.lines, labelDefs_label, labelDefs_data (isData_of_mem_data _)]

theorem labelDefs_classLines (n : ClassNode) :
    labelDefs (classLines n) = [n.dispatchLabel, n.prototypeLabel, nameLabel n] := by
  simp only [classLines, classGlobals, flatMap_cons, flatMap_nil, append_nil,
    labelDefs_append, labelDefs_globalLines, cons_append, nil_append]

theorem prototypeLabel_ne_nameLabel (n m : ClassNode) : n.prototypeLabel ≠ nameLabel m :=
  suffixed_ne (by decide) (by decide) _ _

theorem dispatchLabel_ne_nameLabel (n m : ClassNode) : n.dispatchLabel ≠ nameLabel m :=
  suffixed_ne (by decide) (by decide) _ _

theorem classLines_append (n : ClassNode) (more : List Line) :
    classLines n ++ more = .label n.dispatchLabel :: ((dispatchConst [] n).data ++
      (.label n.prototypeLabel :: ((prototypeConst n).data ++
        (.label (nameLabel n) :: .string n.name :: more)))) := by
  simp [classLines, classGlobals, Global.lines, IrConst.data, nameBytes]

theorem labels_disjoint {n m : ClassNode} (hname : n.name ≠ m.name) :
    ∀ x ∈ labelDefs (classLines n), x ∉ labelDefs (classLines m) := by
  intro x hx hx'
  simp only [labelDefs_classLines, mem_cons, not_mem_nil, or_false] at hx hx'
  rcases hx with rfl | rfl | rfl
  · rcases hx' with heq | heq | heq
    · exact hname (append_cancel_right heq)
    · exact Emit.prototypeLabel_ne_dispatchLabel m n heq.symm
    · exact dispatchLabel_ne_nameLabel n m heq
  · rcases hx' with heq | heq | heq
    · exact Emit.prototypeLabel_ne_dispatchLabel n m heq
    · exact hname (append_cancel_right heq)
    · exact prototypeLabel_ne_nameLabel n m heq
  · rcases hx' with heq | heq | heq
    · exact dispatchLabel_ne_nameLabel m n heq.symm
    · exact prototypeLabel_ne_nameLabel m n heq.symm
    · exact hname (append_cancel_right heq)

theorem listing_ofTable (t : ClassTable) : (ofTable t).listing =
    t.nodes.flatMap classLines ++ (Emit.objectTable t ++ (.label Emit.classNameTable ::
      (t.nodes.map (fun n => .word ⟨nameLabel n, 0⟩) ++ (Emit.treeTable t ++ [])))) := by
  have hobjects : (t.nodes.map objectRow).flatMap IrConst.data =
      t.nodes.flatMap fun n => [.word ⟨n.prototypeLabel, 0⟩, .word ⟨n.initLabel, 0⟩] := by
    rw [flatMap_map]
    rfl
  have hnames : (t.nodes.map nameRow).flatMap IrConst.data =
      t.nodes.map fun n => .word ⟨nameLabel n, 0⟩ := by
    rw [flatMap_map, map_eq_flatMap]
    rfl
  have htree : (t.tree.map treeRow).flatMap IrConst.data =
      t.tree.flatMap fun row => [.number row.tag, .number row.delta] := by
    rw [flatMap_map]
    rfl
  rw [listing, ofTable]
  simp only [flatMap_append, lines_classesFrom, tables, flatMap_cons, Global.lines,
    IrConst.data, dataOfAll_eq_flatMap, hobjects, hnames, htree]
  rfl

section Reading

variable {user : List Class} {parents : List (Option Nat)} {t : ClassTable} {n : ClassNode}
  (h : ClassTable.Built user parents t)
include h

theorem dataAt_classLines (hn : n ∈ t.nodes) (rest : List Line) :
    dataAt n.dispatchLabel (t.nodes.flatMap classLines ++ rest) = (dispatchConst [] n).data ∧
    dataAt n.prototypeLabel (t.nodes.flatMap classLines ++ rest) = (prototypeConst n).data ∧
    textAt (nameLabel n) (t.nodes.flatMap classLines ++ rest) = some n.name := by
  have hown : ∀ x ∈ labelDefs (classLines n), ∃ more,
      dataAt x (t.nodes.flatMap classLines ++ rest) = dataAt x (classLines n ++ more) := by
    intro x hx
    rcases dataAt_flatMap rest hn fun m hm hne => labels_disjoint
      (fun heq => hne (h.eq_of_name_eq hm hn heq.symm)) x hx with ⟨post, hpost⟩
    exact ⟨_, hpost⟩
  rw [labelDefs_classLines] at hown
  simp only [classLines_append, forall_mem_cons] at hown
  obtain ⟨⟨_, hdispatch⟩, ⟨_, hprototype⟩, ⟨more, hname⟩, _⟩ := hown
  have hdata := fun c => labelDefs_data (isData_of_mem_data c)
  refine ⟨?_, ?_, ?_⟩
  · rw [hdispatch]
    exact dataAt_label (isData_of_mem_data _) rfl
  · have hskip : n.prototypeLabel ∉
        labelDefs (.label n.dispatchLabel :: (dispatchConst [] n).data) := by
      rw [labelDefs_label, hdata, mem_singleton]
      exact Emit.prototypeLabel_ne_dispatchLabel n n
    rw [hprototype, ← cons_append, dataAt_append hskip]
    exact dataAt_label (isData_of_mem_data _) rfl
  · have hskip : nameLabel n ∉
        labelDefs (.label n.dispatchLabel :: (dispatchConst [] n).data) := by
      rw [labelDefs_label, hdata, mem_singleton]
      exact (dispatchLabel_ne_nameLabel n n).symm
    have hskip' : nameLabel n ∉ labelDefs (.label n.prototypeLabel :: (prototypeConst n).data) := by
      rw [labelDefs_label, hdata, mem_singleton]
      exact (prototypeLabel_ne_nameLabel n n).symm
    rw [textAt, hname, ← cons_append, dataAt_append hskip, ← cons_append,
      dataAt_append hskip', dataAt, if_pos rfl]
    rfl

theorem describes_listing : Describes t ClassNode.objectSize (ofTable t).listing := by
  have htable : ∀ x ∈ Emit.tagTables, x ∉ labelDefs (t.nodes.flatMap classLines) := by
    intro x hx hmem
    rw [labelDefs_flatMap] at hmem
    obtain ⟨n, _, hmem⟩ := mem_flatMap.mp hmem
    simp only [labelDefs_classLines, mem_cons, not_mem_nil, or_false] at hmem
    rcases hmem with rfl | rfl | rfl
    · exact Emit.dispatchLabel_not_table n hx
    · exact Emit.prototypeLabel_not_table n hx
    · exact Emit.suffixed_not_table (s := "_name") _ (by decide) hx
  have hwords : ∀ l ∈ t.nodes.map (fun n => Line.word ⟨nameLabel n, 0⟩), l.isData = true := by
    intro l hl
    obtain ⟨n, _, rfl⟩ := mem_map.mp hl
    rfl
  have hend : ([] : List Line).takeWhile Line.isData = [] := rfl
  obtain ⟨hobjects, hnames, htree⟩ := Emit.dataAt_tables (t := t) hwords hend
  rw [listing_ofTable]
  refine ⟨fun n hn => ?_, fun n hn => ?_, ?_, ?_, ?_⟩
  · rw [(dataAt_classLines h hn _).2.1]
    exact ⟨_, rfl⟩
  · rw [(dataAt_classLines h hn _).1, data_dispatchConst]
  · rw [dataAt_append (htable _ (by decide)), hobjects]
  · rw [dataAt_append (htable _ (by decide)), hnames, map_map]
    refine map_congr_left fun n hn => ?_
    exact (dataAt_classLines h hn _).2.2
  · rw [dataAt_append (htable _ (by decide)), htree]

end Reading

end Manifest

/-- The manifest of a class table and the assembly that is generated from it tell the same
object model, and the sizes of objects agree except for `String`. -/
theorem Manifest.agrees_with_assembly_except_string (user : List Class) (t : ClassTable)
    (hbuild : ClassTable.build user = .ok t) (g : Generator) (hpool : g.pool.LengthsInterned)
    (sink : Sink) (hsink : sink.Unlimited) (tableSink : Option Sink)
    (htables : ∀ ts ∈ tableSink, ts.Unlimited) :
    Describes t ClassNode.objectSize (Manifest.ofTable t).listing ∧
      Describes t Emit.prototypeSize (g.run user sink tableSink).listing ∧
      ∀ n ∈ t.nodes, (n.objectSize = Emit.prototypeSize n ↔ n.name ≠ Name.string) := by
  rcases (ClassTable.build_eq_ok_iff user t).mp hbuild with ⟨parents, h⟩
  refine ⟨Manifest.describes_listing h, Generator.run_describes hbuild hpool hsink htables,
    fun n hn => ?_⟩
  unfold Emit.prototypeSize
  split
  · rename_i hstring
    -- a layout gives an even number of bytes, an empty string has nine
    have hodd : n.objectSize ≠ Emit.stringSize [] := by
      rw [h.objectSize_eq hn]
      simp only [Emit.stringSize, headerSize, wordSize, length_nil]
      omega
    exact ⟨fun heq => absurd heq hodd, fun hne => absurd hstring hne⟩
  · rename_i hother
    exact ⟨fun _ => hother, fun _ => rfl⟩

def mainOnly : List Class :=
  [⟨1, "Main", none, [.method ⟨1, "main", [], Name.object, .int ⟨"0", 1, []⟩ 0⟩], "main.cl"⟩]

theorem Manifest.agrees_with_assembly_except_string_mainOnly :
    ∃ t, ClassTable.build mainOnly = .ok t ∧
      Describes t ClassNode.objectSize (Manifest.ofTable t).listing ∧
      Describes t Emit.prototypeSize
        ((Generator.fresh []).run mainOnly (Sink.fresh none) (some (Sink.fresh none))).listing ∧
      ∀ n ∈ t.nodes, (n.objectSize = Emit.prototypeSize n ↔ n.name ≠ Name.string) := by
  have hcheck : passes (ClassTable.build mainOnly) (fun _ => true) = true := by decide +kernel
  rcases passes_iff.mp hcheck with ⟨t, hbuild, _⟩
  refine ⟨t, hbuild, Manifest.agrees_with_assembly_except_string mainOnly t hbuild _
    Pool.lengthsInterned_empty _ ⟨rfl, rfl⟩ _ ?_⟩
  rintro ts ⟨⟩
  exact ⟨rfl, rfl⟩

/-- The prototype of `String` has ten bytes in the manifest and nine in the assembly. -/
theorem Manifest.string_sizes_differ :
    ∃ t, ClassTable.build mainOnly = .ok t ∧
      (dataAt "String_protObj" (Manifest.ofTable t).listing)[1]? = some (.number 10) ∧
      (dataAt "String_protObj"
        ((Generator.fresh []).run mainOnly (Sink.fresh none) none).listing)[1]? =
          some (.number 9) := by
  have hcheck : passes (ClassTable.build mainOnly) (fun t =>
      decide ((dataAt "String_protObj" (Manifest.ofTable t).listing)[1]? = some (.number 10)) &&
      decide ((dataAt "String_protObj"
        ((Generator.fresh []).run mainOnly (Sink.fresh none) none).listing)[1]? =
          some (.number 9))) = true := by
    decide +kernel
  simp only [passes_iff, Bool.and_eq_true, decide_eq_true_eq] at hcheck
  exact hcheck

end CoolCompiler
