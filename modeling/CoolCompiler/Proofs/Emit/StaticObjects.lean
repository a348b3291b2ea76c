import CoolCompiler.Proofs.Emit.ConstantObjects
import CoolCompiler.Proofs.Machine.StringData
import Mathlib.Algebra.GroupWithZero.Nat

/-!
# The size of static objects

The word before a constant or prototype marks it, its first word is the tag of its class, and its
second one counts the bytes that an assembler lays down.
-/

namespace CoolCompiler

open List ClassTable

def Line.byteCount : Line → Nat
  | .word _ | .number _ => 2
  | .string s => ((DataItem.decode? (DataItem.operands s)).getD []).length
  | _ => 0

def byteCount (ls : List Line) : Nat := (ls.map Line.byteCount).sum

def marksObject : List Line → Bool
  | .number n :: .label _ :: _ => n == -1
  | _ => false

def objectData : List Line → List Line
  | [] => []
  | l :: ls => if l.isData && !marksObject (l :: ls) then l :: objectData ls else []

/-- An object of a class under a label: it is marked, has the tag of the class and is as long as
it says. -/
def ObjectAt (t : ClassTable) (ls : List Line) (label c : Name) : Prop :=
  ∃ n front rest, ∃ size : Nat, t.find? c = some n ∧
    ls = front ++ .number (-1) :: .label label :: rest ∧
    [.number n.tag, .number size] <+: objectData rest ∧ byteCount (objectData rest) = size

section Data

variable {data rest : List Line}

theorem objectData_of_takeWhile (h : rest.takeWhile Line.isData = []) : objectData rest = [] := by
  cases rest with
  | nil => rfl
  | cons l rest =>
    cases hl : l.isData with
    | false => simp [objectData, hl]
    | true => simp [hl] at h

theorem objectData_append (hdata : ∀ l ∈ data, l.isData = true) (hrest : objectData rest = [])
    (hlast : .number (-1) ∈ data → ∀ x, rest.head? ≠ some (.label x)) :
    objectData (data ++ rest) = data := by
  have hmark : ∀ {l : Line} {ls : List Line}, marksObject (l :: ls) = true →
      l = .number (-1) ∧ ∃ x, ls.head? = some (.label x) := by
    intro l ls h
    unfold marksObject at h
    split at h
    · rename_i n x ls heq
      cases heq
      exact ⟨by rw [beq_iff_eq.mp h], x, rfl⟩
    · cases h
  induction data with
  | nil => exact hrest
  | cons l data ih =>
    rw [forall_mem_cons] at hdata
    have hplain : marksObject (l :: (data ++ rest)) = false := by
      refine Bool.eq_false_iff.mpr fun htrue => ?_
      obtain ⟨rfl, x, hx⟩ := hmark htrue
      cases data with
      | nil => exact hlast mem_cons_self x hx
      | cons m data =>
        cases hx
        exact absurd (hdata.2 _ mem_cons_self) Bool.false_ne_true
    rw [cons_append, objectData, hdata.1, hplain,
      ih hdata.2 fun hmem => hlast (mem_cons_of_mem l hmem)]
    rfl

end Data

namespace Emit

/-- Static objects one after the other, by label and class.  The last one does not hold the
word that marks objects. -/
inductive Objects (t : ClassTable) : List (Name × Name) → List Line → Prop where
  | nil : Objects t [] []
  | cons {label c : Name} {n : ClassNode} {size : Nat} {contents ls : List Line}
      {heads : List (Name × Name)} : t.find? c = some n → (∀ l ∈ contents, l.isData = true) →
      size = 6 + byteCount contents → (.number (-1) ∈ contents → heads ≠ []) →
      Objects t heads ls →
        Objects t ((label, c) :: heads) (staticObject label n size contents ++ ls)

section Objects

variable {t : ClassTable} {heads : List (Name × Name)} {ls rest : List Line} {label c : Name}
  {n : ClassNode}

theorem Objects.objectAt (h : Objects t heads ls) (hmem : (label, c) ∈ heads)
    (hrest : rest.takeWhile Line.isData = []) (front : List Line) :
    ObjectAt t (front ++ (ls ++ rest)) label c := by
  induction h generalizing front with
  | nil => cases hmem
  | @cons label' _ n size contents ls heads hn hdata hsize hmark hls ih =>
    cases hmem with
    | head =>
      let data : List Line :=
        .number n.tag :: .number size :: .word ⟨n.dispatchLabel, 0⟩ :: contents
      have hend : objectData (ls ++ rest) = [] := by
        cases hls with
        | nil => exact objectData_of_takeWhile hrest
        | cons => rfl
      have hwhole : objectData (data ++ (ls ++ rest)) = data := by
        refine objectData_append (by simpa [data, Line.isData] using hdata) hend fun hmem x => ?_
        have hcontents : .number (-1) ∈ contents := by
          simp only [data, mem_cons, Line.number.injEq, reduceCtorEq, false_or] at hmem
          omega
        cases hls with
        | nil => exact absurd rfl (hmark hcontents)
        | cons =>
          intro hhead
          cases hhead
      refine ⟨n, front, data ++ (ls ++ rest), size, hn, by simp [staticObject, eyeCatcher, data],
        ?_⟩
      rw [hwhole]
      refine ⟨⟨_, rfl⟩, ?_⟩
      simp only [data, byteCount, map_cons, sum_cons, Line.byteCount] at hsize ⊢
      omega
    | tail _ hmem =>
      have hat := ih hmem (front ++ staticObject label' n size contents)
      rwa [append_assoc, ← append_assoc _ ls] at hat

variable (hrest : Objects t heads rest) (hn : t.find? c = some n)

include hrest hn

theorem Objects.strings (sc : Scene) (es : List (Entry Text)) :
    Objects t (es.map (fun e => (stringLabel e.id, c)) ++ heads)
      (es.flatMap (stringRow sc n) ++ rest) := by
  induction es with
  | nil => exact hrest
  | cons e es ih =>
    rw [flatMap_cons, append_assoc]
    refine .cons hn (by simp [Line.isData]) ?_ (by simp) ih
    simp [stringSize, headerSize, wordSize, byteCount, Line.byteCount, DataItem.decode?_operands]
    omega

theorem Objects.ints (hne : heads ≠ []) (hsize : n.objectSize = 8) (es : List (Entry Int)) :
    Objects t (es.map (fun e => (intLabel e.id, c)) ++ heads)
      ((es.flatMap fun e => intObject n e.id e.value) ++ rest) := by
  induction es with
  | nil => exact hrest
  | cons e es ih =>
    rw [flatMap_cons, append_assoc]
    exact .cons hn (by simp [Line.isData]) hsize (fun _ => append_ne_nil_of_right_ne_nil _ hne) ih

theorem Objects.bool (hsize : n.objectSize = 8) (b : Bool) :
    Objects t ((boolLabel b, c) :: heads) (boolObject n b ++ rest) := by
  refine .cons hn (by simp [Line.isData]) hsize ?_ hrest
  cases b <;> simp

omit hrest hn

theorem objects_prototypes (zero : Address) {user : List Class} {parents : List (Option Nat)}
    (h : Built user parents t) {ns : List ClassNode} (hns : ∀ n ∈ ns, n ∈ t.nodes) :
    Objects t (ns.map fun n => (n.prototypeLabel, n.name)) (ns.flatMap (prototype zero)) := by
  induction ns with
  | nil => exact .nil
  | cons n ns ih =>
    rw [forall_mem_cons] at hns
    have hfind := h.find?_eq_some_iff.mpr ⟨hns.1, rfl⟩
    rw [flatMap_cons, prototype]
    split
    · refine .cons hfind (by simp [Line.isData]) ?_ (by simp) (ih hns.2)
      simp [stringSize, headerSize, wordSize, byteCount, Line.byteCount, DataItem.decode?_operands]
    · refine .cons hfind (fun l hl => by rw [eq_of_mem_replicate hl]; rfl) ?_ ?_ (ih hns.2)
      · rw [h.objectSize_eq hns.1]
        simp [headerSize, wordSize, byteCount, Line.byteCount, Nat.mul_comm]
      · intro hmem
        cases eq_of_mem_replicate hmem

end Objects
end Emit

/-!
# The whole assembly
-/

theorem ClassTable.Built.objectSize_boxed {user : List Class} {parents : List (Option Nat)}
    {t : ClassTable} (h : Built user parents t) {n : ClassNode} (hn : n ∈ t.nodes)
    (hboxed : n.name ∈ [Name.int, Name.bool]) : n.objectSize = 8 := by
  have hdecls : ∀ c ∈ Class.builtin, (c.name = Name.object → c.attributes.length = 0) ∧
      (c.name ∈ [Name.int, Name.bool] → c.name ≠ Name.object ∧ c.parentName = Name.object ∧
        c.attributes.length = 1) := by
    decide
  have hbasic : n.isBasic = true := by
    simp only [mem_cons, not_mem_nil, or_false] at hboxed
    rcases hboxed with hname | hname <;> rw [ClassNode.isBasic, hname] <;> rfl
  obtain ⟨hne, hparent, hone⟩ := (hdecls _ (h.decl_of_basic hn hbasic)).2 hboxed
  rcases h.parentOf?_cases hn with ⟨hobject, _⟩ | ⟨_, p, hp, hparentOf, hpname⟩
  · exact absurd hobject hne
  · rw [hparent] at hpname
    have hnone := (hdecls _ (h.decl_of_basic hp (by rw [ClassNode.isBasic, hpname]; rfl))).1 hpname
    have hroot : t.chain p = [p] := by
      rcases h.parentOf?_cases hp with ⟨_, hrootOf⟩ | ⟨hother, _⟩
      · rw [h.chain_cons hp, hrootOf]
        rfl
      · exact absurd hpname hother
    have hlength := congrArg List.length (h.map_name_layout hn)
    rw [h.chain_of_parentOf? hn hparentOf, hroot] at hlength
    simp [hnone, hone] at hlength
    rw [h.objectSize_eq hn, hlength]
    rfl

namespace Emit

def staticObjects (sc : Scene) : List (Name × Name) :=
  (range' 0 sc.pool.strings.size).map (fun k => (stringLabel k, Name.string)) ++
    ((range' 0 sc.pool.ints.size).map (fun k => (intLabel k, Name.int)) ++
      ([false, true].map (fun b => (boolLabel b, Name.bool)) ++
        sc.table.nodes.map fun n => (n.prototypeLabel, n.name)))

theorem objects_of_beforeTables {user : List Class} {parents : List (Option Nat)} {sc : Scene}
    (h : Built user parents sc.table) {tables : Option Text} {k k' : Nat}
    {before : List Line} (hbefore : Yields (beforeTables sc tables) k before () k') :
    ∃ front ls, before = front ++ ls ∧ Objects sc.table (staticObjects sc) ls := by
  obtain ⟨i, b, s, _, z, _, _, hconstants, -, rfl⟩ := sections_of_beforeTables hbefore
  rcases yields_constants hconstants with
    ⟨string, int, bool, hstring, hint, hbool, -, rfl⟩
  have hsize : ∀ {c n}, sc.table.find? c = some n → c ∈ [Name.int, Name.bool] →
      n.objectSize = 8 := by
    intro c n hfind hc
    obtain ⟨hn, rfl⟩ := h.find?_eq_some_iff.mp hfind
    exact h.objectSize_boxed hn hc
  have hboolSize := hsize hbool (by simp)
  have hprototypes := objects_prototypes ⟨intLabel z, 0⟩ h fun _ hn => hn
  have hbools := (hprototypes.bool hbool hboolSize true).bool hbool hboolSize false
  have hints := hbools.ints hint (cons_ne_nil _ _) (hsize hint (by simp)) sc.pool.ints.entries
  have hstrings := hints.strings hstring sc sc.pool.strings.entries
  rw [Numbering.map_id _ fun k => (intLabel k, Name.int),
    Numbering.map_id _ fun k => (stringLabel k, Name.string)] at hstrings
  refine ⟨header tables ++ tagLines i b s, _, ?_, hstrings⟩
  simp only [append_assoc]

end Emit

namespace Generator

open Emit

/-- Whatever program the assembly of a run is for, its constants and prototypes are marked and
as long as they say. -/
theorem static_objects_sized (g : Generator) (q : Program) (sink : Sink) (tableSink : Option Sink)
    (r : Generated) (hr : g.run q sink tableSink = r) (hok : r.failure = none) :
    ∃ t, ClassTable.build q = .ok t ∧ ∀ object ∈ staticObjects ⟨t, g.pool.collect t⟩,
      ObjectAt t (r.assembly ++ r.tables) object.1 object.2 := by
  rcases run_of_success hr hok with ⟨t, _, hbuild, hwritten⟩
  rcases (ClassTable.build_eq_ok_iff q t).mp hbuild with ⟨parents, h⟩
  refine ⟨t, hbuild, fun object hobject => ?_⟩
  have hafter : ∀ {k k' : Nat} {after : List Line} (more : List Line),
      Yields (afterTables ⟨t, g.pool.collect t⟩) k after () k' →
      (after ++ more).takeWhile Line.isData = [] := by
    intro k k' after more hyields
    rcases yields_bind.mp hyields with ⟨_, _, _, _, htables, _, rfl⟩
    rw [(yields_classTables htables).1]
    rfl
  -- in line or not, what follows the prototypes is no data
  rcases hwritten with hinline | ⟨_, hsplit⟩
  · rcases yields_bind.mp hinline with ⟨before, _, _, _, hbefore, hrest, heq⟩
    rcases yields_lines_bind.mp hrest with ⟨after, hyields, rfl⟩
    rcases objects_of_beforeTables h hbefore with ⟨front, ls, rfl, hobjects⟩
    have hnone := hafter [] hyields
    rw [append_nil] at hnone
    rw [heq, append_assoc]
    exact hobjects.objectAt hobject
      (takeWhile_flatMap (fun _ => ⟨rfl, cons_ne_nil _ _⟩) hnone) front
  · rcases yields_bind.mp hsplit with ⟨before, _, _, after, hbefore, hyields, heq⟩
    rcases objects_of_beforeTables h hbefore with ⟨front, ls, rfl, hobjects⟩
    rw [heq, append_assoc, append_assoc]
    exact hobjects.objectAt hobject (hafter _ hyields) front

def quotedText : Text := "a\"b,\n"

def quotingProgram : Program :=
  [⟨1, "Main", none, [.attr ⟨1, "n", Name.int, .omitted ⟨[], 1, []⟩⟩,
    .method ⟨2, "main", [], Name.object, .string ⟨quotedText, 2, []⟩ quotedText⟩], "quoting.cl"⟩]

theorem static_objects_sized_quotingProgram :
    ∃ r t, (fresh []).run quotingProgram (Sink.fresh none) none = r ∧ r.failure = none ∧
      quotedText ∈ (Pool.empty.collect t).strings.values ∧
      ∀ object ∈ staticObjects ⟨t, Pool.empty.collect t⟩,
        ObjectAt t (r.assembly ++ r.tables) object.1 object.2 := by
  have hcheck : (((fresh []).run quotingProgram (Sink.fresh none) none).failure.isNone &&
      passes (ClassTable.build quotingProgram) fun t =>
        decide (quotedText ∈ (Pool.empty.collect t).strings.values)) = true := by
    decide +kernel
  rw [Bool.and_eq_true, Option.isNone_iff_eq_none, passes_iff] at hcheck
  rcases hcheck with ⟨hok, t, hbuild, hmem⟩
  rcases static_objects_sized (fresh []) quotingProgram (Sink.fresh none) none _ rfl hok with
    ⟨t', hbuild', hobjects⟩
  rw [hbuild] at hbuild'
  cases hbuild'
  exact ⟨_, t, rfl, hok, of_decide_eq_true hmem, hobjects⟩

end Generator
end CoolCompiler
