import CoolCompiler.Proofs.Emit.Generator
import CoolCompiler.Proofs.Emit.Labels

/-!
# Labels of a program

The code of a program defines every label once.  What it refers to it defines itself, apart from
what the run-time library has.
-/

namespace CoolCompiler

open List

namespace Emit

/-- Lines that define the given labels and the local labels from one number up to another, once
each, and refer to these and to labels of the program. -/
structure Piece (sc : Scene) (given : List Label) (lo : Nat) (ls : List Line) (hi : Nat) :
    Prop where
  le : lo ≤ hi
  defs : (labelDefs ls).Perm
    (given.map Label.name ++ (List.range' lo (hi - lo)).map localLabel)
  refs : ∀ x ∈ labelRefs ls, Visible sc (fun i => lo ≤ i ∧ i < hi) x

namespace Piece

variable {sc : Scene} {given given' : List Label} {lo mid hi : Nat} {ls ms : List Line}

theorem ofLines (hdefs : labelDefs ls = given.map Label.name)
    (hrefs : ∀ x ∈ labelRefs ls, External sc x) : Piece sc given lo ls lo where
  le := Nat.le_refl lo
  defs := by
    rw [hdefs, Nat.sub_self, range'_zero, map_nil, append_nil]
  refs x hx := .external (hrefs x hx)

theorem ofNumbered (h : Numbered sc lo ls hi) : Piece sc [] lo ls hi where
  le := h.1
  defs := by
    obtain ⟨ns, hns, hcount⟩ := h.2.defs
    have hperm : ns.Perm (List.range' lo (hi - lo)) := by
      have hnodup : ns.Nodup := by
        rw [nodup_iff_count_le_one]
        intro i
        rw [hcount, between]
        split <;> omega
      rw [perm_ext_iff_of_nodup hnodup nodup_range']
      intro i
      rw [← count_pos_iff, hcount, between, mem_range'_1]
      split <;> omega
    rw [hns]
    exact hperm.map _
  refs := h.2.refs

theorem append (h : Piece sc given lo ls mid) (h' : Piece sc given' mid ms hi) :
    Piece sc (given ++ given') lo (ls ++ ms) hi where
  le := Nat.le_trans h.le h'.le
  defs := by
    have hle := h.le
    have hle' := h'.le
    have hrange : List.range' lo (hi - lo) =
        List.range' lo (mid - lo) ++ List.range' mid (hi - mid) := by
      rw [show hi - lo = (mid - lo) + (hi - mid) by omega, ← range'_append_1,
        Nat.add_sub_of_le hle]
    rw [labelDefs_append, hrange, map_append, map_append, append_assoc]
    refine (h.defs.append h'.defs).trans ?_
    rw [append_assoc]
    exact (perm_append_comm_assoc ..).append_left _
  refs := by
    have hle := h.le
    have hle' := h'.le
    intro x hx
    rw [labelRefs_append, mem_append] at hx
    rcases hx with hx | hx
    · exact (h.refs x hx).mono fun i hi => by omega
    · exact (h'.refs x hx).mono fun i hi => by omega

theorem perm (h : Piece sc given lo ls hi) (hperm : given.Perm given') :
    Piece sc given' lo ls hi where
  le := h.le
  defs := h.defs.trans ((hperm.map _).append_right _)
  refs := h.refs

theorem numbered (h : Piece sc given lo ls mid) (h' : Numbered sc mid ms hi) :
    Piece sc given lo (ls ++ ms) hi := by
  have happend := h.append (ofNumbered h')
  rwa [append_nil] at happend

end Piece

/-!
# Lines of data
-/

theorem plain_includes (files : List Text) : labelDefs (files.map Line.includeFile) = [] ∧
    labelRefs (files.map Line.includeFile) = [] := by
  induction files with
  | nil => exact ⟨rfl, rfl⟩
  | cons file files ih => exact ih

theorem plain_numbers (k : Nat) (v : Int) : labelDefs (List.replicate k (.number v)) = [] ∧
    labelRefs (List.replicate k (.number v)) = [] := by
  induction k with
  | zero => exact ⟨rfl, rfl⟩
  | succ k ih => exact ih

theorem labelDefs_header (tables : Option Text) : labelDefs (header tables) = [] := by
  rw [header, labelDefs_append, labelDefs_append, labelDefs_append, (plain_includes _).1,
    (plain_includes _).1, (plain_includes _).1]
  rfl

theorem labelRefs_header (tables : Option Text) : labelRefs (header tables) = ["_start"] := by
  rw [header, labelRefs_append, labelRefs_append, labelRefs_append, (plain_includes _).2,
    (plain_includes _).2, (plain_includes _).2]
  rfl

@[simp] theorem labelDefs_staticObject (x : Name) (n : ClassNode) (size : Nat)
    (contents : List Line) :
    labelDefs (staticObject x n size contents) = x :: labelDefs contents := rfl

@[simp] theorem labelRefs_staticObject (x : Name) (n : ClassNode) (size : Nat)
    (contents : List Line) :
    labelRefs (staticObject x n size contents) = n.dispatchLabel :: labelRefs contents := rfl

theorem labelDefs_prototype (zero : Address) (n : ClassNode) :
    labelDefs (prototype zero n) = [n.prototypeLabel] := by
  unfold prototype
  split
  · rfl
  · rw [labelDefs_staticObject, (plain_numbers _ 0).1]

theorem labelDefs_dispatchTable (n : ClassNode) :
    labelDefs (dispatchTable n) = [n.dispatchLabel] := by
  rw [dispatchTable, labelDefs_label, labelDefs, filterMap_map, filterMap_eq_nil_iff.mpr]
  exact fun _ _ => rfl

theorem labelRefs_dispatchTable (n : ClassNode) :
    labelRefs (dispatchTable n) = n.dispatch.map DispatchEntry.label := by
  rw [dispatchTable, labelRefs_label, labelRefs, flatMap_map, map_eq_flatMap]
  rfl

theorem labelDefs_objectTable (t : ClassTable) :
    labelDefs (objectTable t) = [classObjectTable] := by
  rw [objectTable, labelDefs_label, labelDefs_flatMap, flatMap_eq_nil_iff.mpr]
  exact fun _ _ => rfl

theorem labelDefs_treeTable (t : ClassTable) : labelDefs (treeTable t) = [inheritanceTree] := by
  rw [treeTable, labelDefs_label, labelDefs_flatMap, flatMap_eq_nil_iff.mpr]
  exact fun _ _ => rfl

theorem labelRefs_treeTable (t : ClassTable) : labelRefs (treeTable t) = [] := by
  rw [treeTable, labelRefs_label, labelRefs_flatMap, flatMap_eq_nil_iff.mpr]
  exact fun _ _ => rfl

def Emits (sc : Scene) (given : List Label) (x : Emit Nat Unit) : Prop :=
  ∀ ⦃k ls u k'⦄, Yields x k ls u k' → Piece sc given k ls k'

namespace Emits

variable {sc : Scene} {given given' : List Label}

theorem seq {x y : Emit Nat Unit} (hx : Emits sc given x) (hy : Emits sc given' y) :
    Emits sc (given ++ given') (x >>= fun _ => y) := by
  intro k ls u k' h
  obtain ⟨first, _, middle, second, hfirst, hsecond, rfl⟩ := yields_bind.mp h
  exact (hx hfirst).append (hy hsecond)

theorem lines {ls : List Line} (hdefs : labelDefs ls = given.map Label.name)
    (hrefs : ∀ x ∈ labelRefs ls, External sc x) : Emits sc given (Emit.lines ls) := by
  intro k ls' u k' h
  obtain ⟨rfl, rfl⟩ := yields_lines.mp h
  exact .ofLines hdefs hrefs

theorem done : Emits sc [] (Emit.done ()) := by
  intro k ls u k' h
  obtain ⟨rfl, _, rfl⟩ := yields_done.mp h
  exact .ofLines rfl (by simp)

variable {f : Address → Emit Nat Unit} {n : ClassNode} {owner : Name}

theorem basicClass {c : Name} {f : ClassNode → Emit Nat Unit}
    (hf : ∀ n ∈ sc.table.nodes, Emits sc given (f n)) :
    Emits sc given (Emit.basicClass sc owner c >>= f) := by
  intro k ls u k' h
  obtain ⟨first, n, middle, second, hfirst, hsecond, rfl⟩ := yields_bind.mp h
  obtain ⟨hn, rfl, rfl⟩ := yields_basicClass.mp hfirst
  exact hf n (mem_of_find?_eq_some hn) hsecond

theorem intConst {v : Int} (hf : ∀ a : Address, External sc a.label → Emits sc given (f a)) :
    Emits sc given (Emit.intConst sc owner v >>= f) := by
  intro k ls u k' h
  obtain ⟨first, a, middle, second, hfirst, hsecond, rfl⟩ := yields_bind.mp h
  obtain ⟨i, hi, rfl, rfl, rfl⟩ := yields_intConst.mp hfirst
  exact hf _ (.int hi) hsecond

theorem stringConst {v : Text} (hf : ∀ a : Address, External sc a.label → Emits sc given (f a)) :
    Emits sc given (Emit.stringConst sc owner v >>= f) := by
  intro k ls u k' h
  obtain ⟨first, a, middle, second, hfirst, hsecond, rfl⟩ := yields_bind.mp h
  obtain ⟨i, hi, rfl, rfl, rfl⟩ := yields_stringConst.mp hfirst
  exact hf _ (.string hi) hsecond

/-!
# Data
-/

theorem header (tables : Option Text) : Emits sc [] (Emit.lines (header tables)) := by
  apply lines (labelDefs_header tables)
  rw [labelRefs_header]
  exact forall_mem_singleton.mpr (.library (by decide))

theorem tagWord (label c : Name) : Emits sc [.fixed label] (tagWord sc label c) :=
  basicClass fun n _ => lines rfl (by simp [labelRefs, Line.refers])

theorem rows {α : Type} {xs : List α} {f : α → List Line} {g : α → Label}
    (hdefs : ∀ a ∈ xs, labelDefs (f a) = [(g a).name])
    (hrefs : ∀ a ∈ xs, ∀ x ∈ labelRefs (f a), External sc x) :
    Emits sc (xs.map g) (Emit.lines (xs.flatMap f)) := by
  apply lines
  · rw [labelDefs_flatMap, map_map, map_eq_flatMap]
    exact flatMap_congr hdefs
  · intro x hx
    rw [labelRefs_flatMap] at hx
    obtain ⟨a, ha, hmem⟩ := mem_flatMap.mp hx
    exact hrefs a ha x hmem

theorem stringObjects (hn : n ∈ sc.table.nodes) (es : List (Entry Text)) :
    Emits sc (es.map fun e => .string e.id) (stringObjects sc n es) := by
  induction es with
  | nil => exact done
  | cons e es ih =>
    refine intConst fun length hlength => ?_
    have hobject : Emits sc [.string e.id] (Emit.lines (stringObject n e length)) := by
      apply lines rfl
      rw [stringObject, labelRefs_staticObject]
      exact forall_mem_cons.mpr ⟨.dispatch hn, forall_mem_singleton.mpr hlength⟩
    exact hobject.seq ih

theorem intObjects (hn : n ∈ sc.table.nodes) (es : List (Entry Int)) :
    Emits sc (es.map fun e => .int e.id)
      (Emit.lines (es.flatMap fun e => intObject n e.id e.value)) :=
  rows (fun _ _ => rfl) fun _ _ => forall_mem_singleton.mpr (.dispatch hn)

theorem boolObjects (hn : n ∈ sc.table.nodes) :
    Emits sc [.fixed (boolLabel false), .fixed (boolLabel true)]
      (Emit.lines (boolObject n false ++ boolObject n true)) := by
  apply lines rfl
  rw [labelRefs_append]
  exact forall_mem_append.mpr ⟨forall_mem_singleton.mpr (.dispatch hn),
    forall_mem_singleton.mpr (.dispatch hn)⟩

theorem constants : Emits sc ((List.range' 0 sc.pool.strings.size).map .string ++
    ((List.range' 0 sc.pool.ints.size).map .int ++
      [.fixed (boolLabel false), .fixed (boolLabel true)])) (constants sc) := by
  rw [← Numbering.map_id, ← Numbering.map_id]
  exact basicClass fun _ hstring => (stringObjects hstring _).seq <| basicClass fun _ hint =>
    (intObjects hint _).seq <| basicClass fun _ hbool => boolObjects hbool

theorem prototypes : Emits sc (sc.table.nodes.map fun n => .prototype n.name) (prototypes sc) := by
  refine intConst fun zero hzero => rows (fun n _ => labelDefs_prototype zero n) ?_
  intro n hn
  unfold prototype
  split
  · exact forall_mem_cons.mpr ⟨.dispatch hn, forall_mem_singleton.mpr hzero⟩
  · rw [labelRefs_staticObject, (plain_numbers _ 0).2]
    exact forall_mem_singleton.mpr (.dispatch hn)

def labelsBefore (sc : Scene) : List Label :=
  [Label.fixed "_int_tag", .fixed "_bool_tag", .fixed "_string_tag"] ++
    (((List.range' 0 sc.pool.strings.size).map Label.string ++
    ((List.range' 0 sc.pool.ints.size).map Label.int ++
    [Label.fixed (boolLabel false), .fixed (boolLabel true)])) ++
    sc.table.nodes.map fun n => Label.prototype n.name)

theorem beforeTables (tables : Option Text) :
    Emits sc (labelsBefore sc) (beforeTables sc tables) := by
  have htags : Emits sc _ _ := (tagWord "_int_tag" Name.int).seq <|
    (tagWord "_bool_tag" Name.bool).seq <| (tagWord "_string_tag" Name.string).seq <|
    constants.seq prototypes
  exact (header tables).seq htags

theorem dispatchTables (hall : ∀ n ∈ sc.table.preorder, n ∈ sc.table.nodes) :
    Emits sc (sc.table.preorder.map fun n => .dispatch n.name)
      (Emit.lines (dispatchTables sc.table)) := by
  apply rows (fun n _ => labelDefs_dispatchTable n)
  intro n hn x hx
  rw [labelRefs_dispatchTable] at hx
  obtain ⟨e, he, rfl⟩ := mem_map.mp hx
  exact .method (hall n hn) he

theorem objectTable : Emits sc [.fixed classObjectTable] (Emit.lines (objectTable sc.table)) := by
  apply lines (labelDefs_objectTable _)
  intro x hx
  rw [Emit.objectTable, labelRefs_label, labelRefs_flatMap] at hx
  obtain ⟨n, hn, hmem⟩ := mem_flatMap.mp hx
  have hboth : ∀ y ∈ [n.prototypeLabel, n.initLabel], External sc y :=
    forall_mem_cons.mpr ⟨.prototype hn, forall_mem_singleton.mpr (.init hn)⟩
  exact hboth x hmem

theorem nameWords (ns : List ClassNode) : Emits sc [] (nameWords sc ns) := by
  induction ns with
  | nil => exact done
  | cons n ns ih =>
    refine stringConst fun a ha => ?_
    have hword : Emits sc [] (Emit.lines [.word a]) :=
      lines rfl (forall_mem_singleton.mpr ha)
    exact hword.seq ih

theorem nameTable : Emits sc [.fixed classNameTable] (nameTable sc) := by
  have hlabel : Emits sc [.fixed classNameTable] (Emit.lines [.label classNameTable]) :=
    lines rfl (by simp)
  exact hlabel.seq (nameWords _)

theorem treeTable : Emits sc [.fixed inheritanceTree] (Emit.lines (treeTable sc.table)) := by
  apply lines (labelDefs_treeTable _)
  rw [labelRefs_treeTable]
  exact fun _ hx => absurd hx not_mem_nil

theorem classTables : Emits sc [.fixed classObjectTable, .fixed classNameTable,
    .fixed inheritanceTree] (classTables sc) :=
  objectTable.seq (nameTable.seq treeTable)

end Emits

/-!
# Routines
-/

section Routines

variable {sc : Scene} {s s' : Session} {ls : List Line} {u : Unit}

theorem yields_openScope (h : Yields openScope s ls u s') : ls = [] ∧ s'.labels = s.labels := by
  rw [openScope, yields_get_bind, yields_set] at h
  obtain ⟨rfl, rfl⟩ := h
  exact ⟨rfl, rfl⟩

theorem yields_closeScope (h : Yields closeScope s ls u s') : ls = [] ∧ s'.labels = s.labels := by
  rw [closeScope, yields_get_bind, yields_ofExcept_bind] at h
  obtain ⟨env, _, hset⟩ := h
  obtain ⟨rfl, rfl⟩ := yields_set.mp hset
  exact ⟨rfl, rfl⟩

theorem yields_bindFormals {temps total i : Nat} {fs : List Formal}
    (h : Yields (bindFormals temps total i fs) s ls u s') : ls = [] ∧ s'.labels = s.labels := by
  induction fs generalizing i s ls with
  | nil =>
    obtain ⟨rfl, _, rfl⟩ := yields_done.mp h
    exact ⟨rfl, rfl⟩
  | cons f fs ih =>
    obtain ⟨first, _, s1, rest, hfirst, hrest, rfl⟩ := yields_bind.mp h
    rw [bindAt, yields_get_bind, yields_ofExcept_bind] at hfirst
    obtain ⟨env, _, hset⟩ := hfirst
    obtain ⟨rfl, rfl⟩ := yields_set.mp hset
    have hkept := ih hrest
    exact hkept

theorem storeInits_numbered {c : Class} {slots : List Slot}
    (h : Yields (storeInits sc c slots) s ls u s') : Numbered sc s.labels ls s'.labels := by
  induction slots generalizing s ls with
  | nil =>
    obtain ⟨rfl, _, rfl⟩ := yields_done.mp h
    exact .nil
  | cons slot slots ih =>
    obtain ⟨first, _, s1, _, hfirst, hnext, rfl⟩ := yields_bind.mp h
    obtain ⟨_, place, _, _, hplace, hstore, rfl⟩ := yields_bind.mp hnext
    obtain ⟨_, rfl, rfl⟩ := yields_placeOf.mp hplace
    obtain ⟨rest, hrest, rfl⟩ := yields_instrs_bind.mp hstore
    have hinit := (numberedRules sc).ofInitializer (expr_numbered sc _) hfirst
    rw [nil_append]
    exact hinit.append (.append (.silent rfl) (ih hrest))

theorem initBody_parts {n parent : ClassNode} (h : Yields (initBody sc n parent) s ls u s') :
    ∃ s1 stored, initSlots n.decl ≤ 64 ∧ s'.labels = s1.labels ∧
      Yields (storeInits sc n.decl (storedSlots n)) { s with env := s.env.enter } stored () s1 ∧
      ls = code (enterFrame (initSlots n.decl) ++ Instr.move .hl .ix ++ [.call parent.initLabel]) ++
        (stored ++ code (Instr.move .hl .ix ++ leaveFrame (initSlots n.decl))) := by
  rw [initBody, yields_ofExcept_bind] at h
  obtain ⟨_, hreserve, hbody⟩ := h
  obtain ⟨_, hscope, rfl⟩ := yields_instrs_bind.mp hbody
  rw [openScope, bind_assoc, yields_get_bind, yields_set_bind] at hscope
  obtain ⟨stored, _, s1, _, hstored, hend, rfl⟩ := yields_bind.mp hscope
  obtain ⟨_, _, s2, _, hclose, hleave, rfl⟩ := yields_bind.mp hend
  obtain ⟨rfl, rfl⟩ := yields_instrs.mp hleave
  obtain ⟨rfl, hlabels⟩ := yields_closeScope hclose
  rcases reserve_cases n.name (initSlots n.decl) 0 with ⟨-, hsmall⟩ | ⟨herror, -⟩
  · unfold FrameTooLarge at hsmall
    exact ⟨s1, stored, by omega, hlabels, hstored, rfl⟩
  · rw [herror] at hreserve
    cases hreserve

theorem initBody_numbered {n parent : ClassNode} (hparent : parent ∈ sc.table.nodes)
    (h : Yields (initBody sc n parent) s ls u s') : Numbered sc s.labels ls s'.labels := by
  obtain ⟨s1, stored, -, hlabels, hstored, rfl⟩ := initBody_parts h
  rw [hlabels]
  exact .append (.one rfl (.init hparent)) ((storeInits_numbered hstored).append (.silent rfl))

theorem yields_methodBody {n : ClassNode} {m : Method}
    (h : Yields (methodBody sc n m) s ls u s') :
    ∃ s1 s2 s3 body, Frame.reserve n.name m.body.slots m.formals.length = .ok () ∧
      Yields openScope s [] () s1 ∧
      Yields (bindFormals m.body.slots m.formals.length 0 m.formals) s1 [] () s2 ∧
      Yields (expr sc m.body) s2 body () s3 ∧ Yields closeScope s3 [] () s' ∧
      ls = .label (n.methodLabel m.name) ::
        (code (enterFrame m.body.slots) ++ (body ++ code (leaveFrame m.body.slots))) := by
  rw [methodBody, yields_ofExcept_bind] at h
  obtain ⟨_, hreserve, hnoted⟩ := h
  obtain ⟨_, _, _, _, hnote, hscope, rfl⟩ := yields_bind.mp hnoted
  obtain ⟨rfl, rfl⟩ := yields_note.mp hnote
  obtain ⟨_, _, s1, _, hopen, hinside, rfl⟩ := yields_bind.mp hscope
  obtain ⟨_, _, s2, _, hformals, hroutine, rfl⟩ := yields_bind.mp hinside
  obtain ⟨_, henter, rfl⟩ := yields_lines_bind.mp hroutine
  obtain ⟨_, hcode, rfl⟩ := yields_instrs_bind.mp henter
  obtain ⟨body, _, s3, _, hbody, hleave, rfl⟩ := yields_bind.mp hcode
  obtain ⟨_, hend, rfl⟩ := yields_instrs_bind.mp hleave
  obtain ⟨_, _, s4, _, hclose, hpeak, rfl⟩ := yields_bind.mp hend
  obtain ⟨rfl, _⟩ := yields_openScope hopen
  obtain ⟨rfl, _⟩ := yields_bindFormals hformals
  obtain ⟨rfl, _⟩ := yields_closeScope hclose
  rw [yields_get_bind] at hpeak
  simp only at hpeak
  split at hpeak
  · exact absurd hpeak yields_failHere
  · obtain ⟨rfl, _, rfl⟩ := yields_done.mp hpeak
    exact ⟨s1, s2, s3, body, hreserve, hopen, hformals, hbody, hclose, by simp⟩

theorem methodBody_numbered {n : ClassNode} {m : Method}
    (h : Yields (methodBody sc n m) s ls u s') :
    ∃ ms, ls = .label (n.methodLabel m.name) :: ms ∧ Numbered sc s.labels ms s'.labels := by
  obtain ⟨s1, s2, s3, body, -, hopen, hformals, hbody, hclose, rfl⟩ := yields_methodBody h
  have hnumbered := expr_numbered sc m.body hbody
  rw [(yields_bindFormals hformals).2, (yields_openScope hopen).2] at hnumbered
  rw [(yields_closeScope hclose).2]
  exact ⟨_, rfl, .append (.silent rfl) (hnumbered.append (.silent rfl))⟩

end Routines

namespace Emits

variable {sc : Scene}

theorem inRoutine {given : List Label} {n : ClassNode} {body : Emit Session Unit}
    (h : ∀ ⦃s ls u s'⦄, Yields body s ls u s' → Piece sc given s.labels ls s'.labels) :
    Emits sc given (inRoutine n body) := by
  rintro k ls u k' ⟨rfl, rfl, houtcome⟩
  exact h ⟨rfl, rfl, houtcome⟩

theorem initRoutine (n : ClassNode) : Emits sc [.init n.name] (initRoutine sc n) := by
  have hlabel : Emits sc [.init n.name] (Emit.lines [.label n.initLabel]) := lines rfl (by simp)
  rw [Emit.initRoutine]
  cases hparent : sc.table.parentOf? n with
  | none =>
    have hreturn : Emits sc [] (instrs [.ret]) :=
      lines rfl (by simp [labelRefs, Line.refers, Instr.refers])
    exact hlabel.seq hreturn
  | some parent =>
    have hmem := ClassTable.mem_of_parentOf? hparent
    exact hlabel.seq (inRoutine fun _ _ _ _ h => .ofNumbered (initBody_numbered hmem h))

theorem method (n : ClassNode) (m : Method) :
    Emits sc [.method n.name m.name] (Emit.inRoutine n (methodBody sc n m)) := by
  apply inRoutine
  intro s ls u s' h
  obtain ⟨ms, rfl, hms⟩ := methodBody_numbered h
  have hlabel : Piece sc [.method n.name m.name] s.labels [.label (n.methodLabel m.name)]
      s.labels := .ofLines rfl (by simp)
  exact hlabel.numbered hms

theorem methodRoutines (n : ClassNode) (ms : List Method) :
    Emits sc (ms.map fun m => .method n.name m.name) (methodRoutines sc n ms) := by
  induction ms with
  | nil => exact done
  | cons m ms ih => exact (method n m).seq ih

theorem forClasses {emit : ClassNode → Emit Nat Unit} {given : ClassNode → List Label}
    (ns : List ClassNode) (h : ∀ n, Emits sc (given n) (emit n)) :
    Emits sc (ns.flatMap given) (forClasses emit ns) := by
  induction ns with
  | nil => exact done
  | cons n ns ih => exact (h n).seq ih

def labelsAfter (sc : Scene) : List Label :=
  [Label.fixed classObjectTable, .fixed classNameTable, .fixed inheritanceTree] ++
    (sc.table.preorder.map (fun n => Label.init n.name) ++
    (sc.table.preorder.filter fun n => !n.isBasic).flatMap fun n =>
      n.decl.methods.map fun m => Label.method n.name m.name)

theorem afterTables : Emits sc (labelsAfter sc) (afterTables sc) := by
  have hinits : Emits sc (sc.table.preorder.map fun n => .init n.name) (initRoutines sc) := by
    rw [map_eq_flatMap]
    exact forClasses _ initRoutine
  exact classTables.seq (hinits.seq (forClasses _ fun n => methodRoutines n _))

end Emits

/-!
# Programs
-/

/-- What the run-time library has: its own labels and the methods of built-in classes. -/
def Runtime (x : Name) : Prop :=
  x ∈ libraryLabels ∨ ∃ c ∈ Class.builtin, ∃ m ∈ c.methods, x = c.name ++ "." ++ m.name

/-- Lines that define no label twice and refer only to labels that they define or that the
run-time library has. -/
structure Closed (ls : List Line) : Prop where
  once : (labelDefs ls).Nodup
  found : ∀ x ∈ labelRefs ls, (labelDefs ls).count x = 1 ∨ Runtime x

structure Covers (sc : Scene) (given : List Label) : Prop where
  proper : ∀ l ∈ given, l.Proper
  global : ∀ l ∈ given, l.kind ≠ .branch
  distinct : given.Nodup
  external : ∀ x, External sc x → Runtime x ∨ ∃ l ∈ given, x = l.name

variable {sc : Scene}

theorem Piece.closed {given : List Label} {lo hi : Nat} {ls : List Line}
    (h : Piece sc given lo ls hi) (hcovers : Covers sc given) : Closed ls := by
  have hnames : given.map Label.name ++ (List.range' lo (hi - lo)).map localLabel =
      (given ++ (List.range' lo (hi - lo)).map Label.branch).map Label.name := by
    rw [map_append, map_map]
    rfl
  have hdefs := h.defs
  rw [hnames] at hdefs
  have hproper : ∀ l ∈ given ++ (List.range' lo (hi - lo)).map Label.branch, l.Proper := by
    refine forall_mem_append.mpr ⟨hcovers.proper, ?_⟩
    intro l hl
    obtain ⟨i, _, rfl⟩ := mem_map.mp hl
    trivial
  have hdistinct : (given ++ (List.range' lo (hi - lo)).map Label.branch).Nodup := by
    refine nodup_append.mpr ⟨hcovers.distinct, ?_, ?_⟩
    · exact List.Nodup.map (fun _ _ hij => Label.branch.inj hij) nodup_range'
    · intro l hl l' hl' heq
      obtain ⟨i, _, rfl⟩ := mem_map.mp hl'
      rw [heq] at hl
      exact hcovers.global _ hl rfl
  have honce : (labelDefs ls).Nodup := by
    rw [hdefs.nodup_iff]
    exact hdistinct.map_on fun a ha b hb hab => Label.name_inj (hproper a ha) (hproper b hb) hab
  refine ⟨honce, fun x hx => ?_⟩
  have hdefined : ∀ l ∈ given ++ (List.range' lo (hi - lo)).map Label.branch,
      (labelDefs ls).count l.name = 1 := by
    intro l hl
    exact count_eq_one_of_mem honce (hdefs.mem_iff.mpr (mem_map_of_mem hl))
  cases h.refs x hx with
  | external hexternal =>
    rcases hcovers.external x hexternal with hruntime | ⟨l, hl, rfl⟩
    · exact .inr hruntime
    · exact .inl (hdefined l (mem_append_left _ hl))
  | @near i hi =>
    refine .inl (hdefined (.branch i) (mem_append_right _ (mem_map_of_mem ?_)))
    rw [mem_range'_1]
    omega

/-!
# Class tables
-/

def tableLabels (sc : Scene) : List Label := sc.table.preorder.map fun n => .dispatch n.name

def programLabels (sc : Scene) : List Label :=
  Emits.labelsBefore sc ++ (tableLabels sc ++ Emits.labelsAfter sc)

def labelChunks (sc : Scene) : List (Label.Kind × List Label) :=
  [(.fixed, [Label.fixed "_int_tag", .fixed "_bool_tag", .fixed "_string_tag"] ++
      ([Label.fixed (boolLabel false), .fixed (boolLabel true)] ++
      [Label.fixed classObjectTable, .fixed classNameTable, .fixed inheritanceTree])),
   (.string, (List.range' 0 sc.pool.strings.size).map .string),
   (.int, (List.range' 0 sc.pool.ints.size).map .int),
   (.prototype, sc.table.nodes.map fun n => .prototype n.name),
   (.dispatch, tableLabels sc),
   (.init, sc.table.preorder.map fun n => .init n.name),
   (.method, (sc.table.preorder.filter fun n => !n.isBasic).flatMap fun n =>
      n.decl.methods.map fun m => .method n.name m.name)]

theorem perm_labelChunks (sc : Scene) :
    (programLabels sc).Perm ((labelChunks sc).flatMap Prod.snd) := by
  rw [perm_iff_count]
  intro l
  simp only [programLabels, Emits.labelsBefore, Emits.labelsAfter, labelChunks, flatMap_cons,
    flatMap_nil, count_append, count_nil]
  omega

/-- The labels of a program: fixed ones, constants by their numbers, and those of classes and
of their methods. -/
def Defined (sc : Scene) : Label → Prop
  | .fixed x => x ∈ Label.fixedNames
  | .string i => i < sc.pool.strings.size
  | .int i => i < sc.pool.ints.size
  | .branch _ => False
  | .prototype c => ∃ n ∈ sc.table.nodes, n.name = c
  | .init c | .dispatch c => ∃ n ∈ sc.table.preorder, n.name = c
  | .method c m => ∃ n ∈ sc.table.preorder, n.isBasic = false ∧
      ∃ d ∈ n.decl.methods, n.name = c ∧ d.name = m

theorem mem_programLabels_iff {l : Label} : l ∈ programLabels sc ↔ Defined sc l := by
  cases l <;> simp [programLabels, tableLabels, Emits.labelsBefore, Emits.labelsAfter,
    Defined, Label.fixedNames, and_assoc]

theorem kind_of_mem_labelChunks : ∀ c ∈ labelChunks sc, ∀ l ∈ c.2, l.kind = c.1 := by
  simp only [labelChunks, tableLabels, forall_mem_cons, forall_mem_map]
  refine ⟨by decide, fun _ _ => rfl, fun _ _ => rfl, fun _ _ => rfl, fun _ _ => rfl,
    fun _ _ => rfl, ?_, by simp⟩
  intro l hl
  obtain ⟨n, _, hmem⟩ := mem_flatMap.mp hl
  obtain ⟨m, _, rfl⟩ := mem_map.mp hmem
  rfl

theorem nodup_programLabels (hnodes : (sc.table.nodes.map ClassNode.name).Nodup)
    (hpreorder : (sc.table.preorder.map ClassNode.name).Nodup)
    (hmethods : ∀ n ∈ sc.table.preorder, (n.decl.methods.map Method.name).Nodup) :
    (programLabels sc).Nodup := by
  have hnames : ∀ {ns : List ClassNode} {f : Name → Label}, (ns.map ClassNode.name).Nodup →
      Function.Injective f → (ns.map fun n => f n.name).Nodup := by
    intro ns f hns hf
    have hmapped := hns.map hf
    rwa [map_map] at hmapped
  rw [(perm_labelChunks sc).nodup_iff]
  refine Label.nodup_of_kinds ?_ kind_of_mem_labelChunks ?_
  · exact (by decide : [Label.Kind.fixed, .string, .int, .prototype, .dispatch, .init,
      .method].Nodup)
  · simp only [labelChunks, tableLabels, forall_mem_cons]
    refine ⟨by decide, List.Nodup.map ?_ nodup_range', List.Nodup.map ?_ nodup_range',
      hnames hnodes ?_, hnames hpreorder ?_, hnames hpreorder ?_, ?_, by simp⟩
    · exact fun _ _ => Label.string.inj
    · exact fun _ _ => Label.int.inj
    · exact fun _ _ => Label.prototype.inj
    · exact fun _ _ => Label.dispatch.inj
    · exact fun _ _ => Label.init.inj
    · refine nodup_flatMap.mpr ⟨fun n hn => ?_, ?_⟩
      · have hmapped := (hmethods n (mem_of_mem_filter hn)).map
          (f := Label.method n.name) fun _ _ h => (Label.method.inj h).2
        rwa [map_map] at hmapped
      · refine (List.Pairwise.filter _ (pairwise_map.mp hpreorder)).imp ?_
        intro n n' hne l hl hl'
        obtain ⟨m, _, rfl⟩ := mem_map.mp hl
        obtain ⟨m', _, heq⟩ := mem_map.mp hl'
        exact hne (Label.method.inj heq).1.symm

namespace Compilable

variable {q : Program} {s : Symbols} {parents : List (Option Nat)} {t : ClassTable}
  {n : ClassNode}

variable (h : Compilable q s parents t)
include h

theorem capital (hcapital : ∀ c ∈ q, c.name.Capital) (hn : n ∈ t.nodes) : n.name.Capital := by
  have hbuiltin : ∀ c ∈ Class.builtin,
      Lexeme.isUpperByte (c.name.headD 0) = true ∧ 46 ∉ c.name := by decide
  rcases mem_append.mp (h.decl_mem hn) with hdecl | hdecl
  · exact ⟨(hbuiltin _ hdecl).1, (hbuiltin _ hdecl).2⟩
  · exact hcapital _ hdecl

theorem exists_implementation (hn : n ∈ t.nodes) {e : DispatchEntry} (he : e ∈ n.dispatch) :
    ∃ a ∈ t.nodes, a.name = e.impl ∧ ∃ m ∈ a.decl.methods, m.name = e.name := by
  have himpl : ClassTable.implOf n.dispatch e.name = some e.impl := by
    have hentry : n.dispatch.find? (fun d => d.name == e.name) = some e :=
      find?_key_eq (h.built.wellPlaced_dispatch hn).distinct he
    rw [ClassTable.implOf, hentry, Option.map_some]
  rw [h.built.implOf_dispatch hn] at himpl
  obtain ⟨a, ha, hname⟩ := Option.map_eq_some_iff.mp himpl
  have hdeclares := find?_some ha
  simp only [Class.declaresMethod, any_eq_true, beq_iff_eq] at hdeclares
  exact ⟨a, ClassTable.Built.mem_nodes_of_mem_chain t (mem_of_find?_eq_some ha), hname,
    hdeclares⟩

theorem covers_external (pool : Pool) (x : Name) (hx : External ⟨t, pool⟩ x) :
    Runtime x ∨ ∃ l ∈ programLabels ⟨t, pool⟩, x = l.name := by
  have hdefined : ∀ l : Label, Defined ⟨t, pool⟩ l →
      Runtime l.name ∨ ∃ l' ∈ programLabels ⟨t, pool⟩, l.name = l'.name := by
    intro l hl
    exact .inr ⟨l, mem_programLabels_iff.mpr hl, rfl⟩
  have hfixed : ∀ x ∈ Label.fixedNames, Defined ⟨t, pool⟩ (.fixed x) := fun _ hx => hx
  cases hx with
  | library hlibrary => exact .inl (.inl hlibrary)
  | @string _ i hfind => exact hdefined (.string i) (Numbering.lt_size hfind)
  | @int _ i hfind => exact hdefined (.int i) (Numbering.lt_size hfind)
  | bool b => exact hdefined (.fixed (boolLabel b)) (hfixed _ (by cases b <;> decide))
  | objectTable => exact hdefined (.fixed classObjectTable) (hfixed _ (by decide))
  | tree => exact hdefined (.fixed inheritanceTree) (hfixed _ (by decide))
  | @prototype n hn => exact hdefined (.prototype n.name) ⟨n, hn, rfl⟩
  | @init n hn => exact hdefined (.init n.name) ⟨n, h.built.mem_preorder_iff.mpr hn, rfl⟩
  | @dispatch n hn => exact hdefined (.dispatch n.name) ⟨n, h.built.mem_preorder_iff.mpr hn, rfl⟩
  | @method n e hn he =>
    obtain ⟨a, ha, hname, m, hm, hmethod⟩ := h.exists_implementation hn he
    rcases h.decl_cases ha with ⟨_, hbuiltin⟩ | ⟨huser, _⟩
    · refine .inl (.inr ⟨a.decl, hbuiltin, m, hm, ?_⟩)
      rw [hmethod, DispatchEntry.label, ← hname]
      rfl
    · exact hdefined (.method e.impl e.name)
        ⟨a, h.built.mem_preorder_iff.mpr ha, huser, m, hm, hname, hmethod⟩

theorem covers (hsigned : ∀ c ∈ Class.builtin ++ q, Typing.Signed s c)
    (hcapital : ∀ c ∈ q, c.name.Capital) (pool : Pool) :
    Covers ⟨t, pool⟩ (programLabels ⟨t, pool⟩) where
  proper l hl := by
    rw [mem_programLabels_iff] at hl
    cases l with
    | fixed x => exact hl
    | prototype c =>
      obtain ⟨n, hn, rfl⟩ := hl
      exact h.capital hcapital hn
    | init c | dispatch c =>
      obtain ⟨n, hn, rfl⟩ := hl
      exact h.capital hcapital (h.built.mem_preorder_iff.mp hn)
    | method c m =>
      obtain ⟨n, hn, _, _, _, rfl, _⟩ := hl
      exact h.capital hcapital (h.built.mem_preorder_iff.mp hn)
    | string i | int i | branch i => trivial
  global l hl hbranch := by
    rw [mem_programLabels_iff] at hl
    cases l with
    | branch i => exact hl
    | _ => cases hbranch
  distinct := by
    have hnames : (t.nodes.map ClassNode.name).Nodup := by
      rw [h.built.map_name]
      exact h.built.distinct
    apply nodup_programLabels hnames
    · refine h.built.nodup_preorder.map_on fun a ha b hb hab => ?_
      exact h.built.eq_of_name_eq (h.built.mem_preorder_iff.mp ha) (h.built.mem_preorder_iff.mp hb)
        hab
    · intro n hn
      exact (hsigned _ (h.decl_mem (h.built.mem_preorder_iff.mp hn))).distinct
  external := h.covers_external pool

theorem mem_nodes : ∀ n ∈ t.preorder, n ∈ t.nodes :=
  fun _ => h.built.mem_preorder_iff.mp

end Compilable

theorem Emits.inlineProgram (hall : ∀ n ∈ sc.table.preorder, n ∈ sc.table.nodes) :
    Emits sc (programLabels sc) (inlineProgram sc) :=
  (beforeTables none).seq ((dispatchTables hall).seq afterTables)

theorem splitProgram_piece (hall : ∀ n ∈ sc.table.preorder, n ∈ sc.table.nodes) {file : Text}
    {k k' : Nat} {ls : List Line} {u : Unit} (h : Yields (splitProgram sc file) k ls u k') :
    Piece sc (programLabels sc) k (ls ++ dispatchTables sc.table) k' := by
  have hsplit : Emits sc _ (splitProgram sc file) :=
    (Emits.beforeTables (some file)).seq Emits.afterTables
  have htables : Piece sc (tableLabels sc) k' (dispatchTables sc.table) k' :=
    Emits.dispatchTables hall (u := ()) (yields_lines.mpr ⟨rfl, rfl⟩)
  refine ((hsplit h).append htables).perm ?_
  rw [append_assoc]
  exact perm_append_comm.append_left _

end Emit

end CoolCompiler
