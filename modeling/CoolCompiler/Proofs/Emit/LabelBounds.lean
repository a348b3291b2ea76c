import CoolCompiler.Proofs.Emit.LabelSpace

/-!
# Bounds of local labels

What an emission has written has the local labels that were handed out for it, also where it ended
in a fault.
-/

namespace CoolCompiler

open List

namespace Emit

section Confined

variable {σ α β : Type} {count : σ → Nat} {lo k : Nat}

/-- From a count of at least `k`, an emission counts on and defines local labels numbered from `lo`
up to its count, whether or not it ends in a fault. -/
def Confined (count : σ → Nat) (lo k : Nat) (x : Emit σ α) : Prop :=
  lo ≤ k → ∀ s, k ≤ count s → count s ≤ count (x s).state ∧
    ∀ i, localLabel i ∈ labelDefs (x s).lines → lo ≤ i ∧ i < count (x s).state

def Quiet (count : σ → Nat) (x : Emit σ α) : Prop :=
  ∀ s, count (x s).state = count s ∧ ∀ i, localLabel i ∉ labelDefs (x s).lines

theorem bind_cases (x : Emit σ α) (f : α → Emit σ β) (s : σ) :
    ((x >>= f) s).lines = (x s).lines ∧ ((x >>= f) s).state = (x s).state ∨
      ∃ a, ((x >>= f) s).lines = (x s).lines ++ (f a (x s).state).lines ∧
        ((x >>= f) s).state = (f a (x s).state).state := by
  cases houtcome : (x s).outcome with
  | error fault =>
    rw [bind_of_error houtcome]
    exact .inl ⟨rfl, rfl⟩
  | ok a =>
    rw [bind_of_ok houtcome]
    exact .inr ⟨a, rfl, rfl⟩

theorem Quiet.confined {x : Emit σ α} (h : Quiet count x) : Confined count lo k x := by
  intro _ s _
  exact ⟨Nat.le_of_eq (h s).1.symm, fun i hi => absurd hi ((h s).2 i)⟩

namespace Confined

theorem bind {x : Emit σ α} {f : α → Emit σ β} (hx : Confined count lo k x)
    (hf : ∀ a, Confined count lo k (f a)) : Confined count lo k (x >>= f) := by
  intro hle s hs
  have hfirst := hx hle s hs
  rcases bind_cases x f s with ⟨hlines, hstate⟩ | ⟨a, hlines, hstate⟩
  · rw [hlines, hstate]
    exact hfirst
  · have hsecond := hf a hle (x s).state (Nat.le_trans hs hfirst.1)
    rw [hlines, hstate]
    refine ⟨Nat.le_trans hfirst.1 hsecond.1, fun i hi => ?_⟩
    rw [labelDefs_append, mem_append] at hi
    rcases hi with hi | hi
    · exact ⟨(hfirst.2 i hi).1, Nat.lt_of_lt_of_le (hfirst.2 i hi).2 hsecond.1⟩
    · exact hsecond.2 i hi

theorem lines {ls : List Line}
    (h : ∀ i, localLabel i ∈ labelDefs ls → lo ≤ i ∧ i < k) :
    Confined count lo k (lines ls) := by
  intro _ s hs
  exact ⟨Nat.le_refl _, fun i hi => ⟨(h i hi).1, Nat.lt_of_lt_of_le (h i hi).2 hs⟩⟩

end Confined

namespace Quiet

theorem bind {x : Emit σ α} {f : α → Emit σ β} (hx : Quiet count x)
    (hf : ∀ a, Quiet count (f a)) : Quiet count (x >>= f) := by
  intro s
  have hfirst := hx s
  rcases bind_cases x f s with ⟨hlines, hstate⟩ | ⟨a, hlines, hstate⟩
  · rw [hlines, hstate]
    exact hfirst
  · have hsecond := hf a (x s).state
    rw [hlines, hstate]
    refine ⟨hsecond.1.trans hfirst.1, fun i hi => ?_⟩
    rw [labelDefs_append, mem_append] at hi
    exact hi.elim (hfirst.2 i) (hsecond.2 i)

theorem lines {ls : List Line} (h : ∀ x ∈ labelDefs ls, ∀ i, x ≠ localLabel i) :
    Quiet count (lines ls) :=
  fun _ => ⟨rfl, fun i hi => h _ hi i rfl⟩

theorem instrs (is : List Instr) : Quiet count (instrs is) := by
  apply lines
  rw [← code, labelDefs_code]
  simp

theorem done (a : α) : Quiet count (done a) := fun _ => ⟨rfl, fun _ => not_mem_nil⟩

end Quiet

theorem Silent.quiet {x : Emit σ α} (h : Silent x) : Quiet count x := by
  intro s
  rw [(h s).1, (h s).2]
  exact ⟨rfl, fun _ => not_mem_nil⟩

end Confined

/-!
# Expressions
-/

section Sessions

variable {α : Type} {lo k : Nat} {sc : Scene}

def Handed (lo k : Nat) (x : Name) : Prop := ∃ i, lo ≤ i ∧ i < k ∧ x = localLabel i

theorem Handed.mono {k' : Nat} {x : Name} (h : Handed lo k x) (hle : k ≤ k') :
    Handed lo k' x := by
  obtain ⟨i, hlo, hi, rfl⟩ := h
  exact ⟨i, hlo, Nat.lt_of_lt_of_le hi hle, rfl⟩

namespace Confined

theorem handed {ls : List Line} (h : ∀ x ∈ labelDefs ls, Handed lo k x) :
    Confined Session.labels lo k (Emit.lines ls) := by
  apply lines
  intro i hi
  obtain ⟨j, hlo, hj, heq⟩ := h _ hi
  rw [localLabel_injective heq]
  exact ⟨hlo, hj⟩

theorem newLabel {f : Name → Emit Session α}
    (hf : ∀ k' x, k ≤ k' → Handed lo k' x → Confined Session.labels lo k' (f x)) :
    Confined Session.labels lo k (newLabel >>= f) := by
  intro hle s hs
  have hnext := hf (s.labels + 1) (localLabel s.labels) (by omega)
    ⟨s.labels, by omega, by omega, rfl⟩ (by omega) { s with labels := s.labels + 1 } (Nat.le_refl _)
  exact ⟨Nat.le_trans (Nat.le_succ _) hnext.1, hnext.2⟩

end Confined

namespace Quiet

theorem update (change : Environment → Except Fault Environment)
    (after : Environment → Environment) : Quiet Session.labels
    (Emit.get >>= fun s => Emit.ofExcept (change s.env) >>= fun env =>
      Emit.set { s with env := after env }) := by
  intro s
  cases hchange : change s.env with
  | error fault =>
    simp [Bind.bind, andThen, Emit.get, Emit.ofExcept, Emit.fail, hchange]
  | ok env =>
    simp [Bind.bind, andThen, Emit.get, Emit.ofExcept, Emit.done, Emit.set, hchange]

theorem openSlot (x : Name) : Quiet Session.labels (openSlot x) := by
  intro s
  have hstore : ∀ i, localLabel i ∉
      labelDefs (List.map Line.instr (Instr.storeWord s.env.alloc.1 .hl)) := by
    intro i
    rw [← code, labelDefs_code]
    exact not_mem_nil
  unfold Emit.openSlot
  cases hbind : s.env.alloc.2.enter.bind x s.env.alloc.1 with
  | error fault =>
    simpa [Bind.bind, andThen, Emit.get, Emit.set, Emit.instrs, Emit.lines, Emit.ofExcept,
      Emit.fail, hbind] using hstore
  | ok env =>
    simpa [Bind.bind, andThen, Emit.get, Emit.set, Emit.instrs, Emit.lines, Emit.ofExcept,
      Emit.done, hbind] using hstore

theorem openScope : Quiet Session.labels openScope := fun _ => ⟨rfl, fun _ => not_mem_nil⟩

theorem bindFormals (temps total i : Nat) (fs : List Formal) :
    Quiet Session.labels (bindFormals temps total i fs) := by
  induction fs generalizing i with
  | nil => exact done ()
  | cons f fs ih => exact bind (update (fun env => env.bind f.name _) id) fun _ => ih (i + 1)

theorem closeSlot : Quiet Session.labels closeSlot := update _ _

end Quiet

namespace Confined

theorem after {x : Emit Session α} {β : Type} {f : α → Emit Session β}
    (hx : Quiet Session.labels x) (hf : ∀ a, Confined Session.labels lo k (f a)) :
    Confined Session.labels lo k (x >>= f) := hx.confined.bind hf

end Confined

theorem Composed.confined {file : Text} {labels : List Name} {slots : Nat} {p : Prop}
    {cs : List Literal} {x : Emit Session Unit} (h : Composed sc file labels slots p cs x)
    (hlabels : ∀ x ∈ labels, Handed lo k x) : Confined Session.labels lo k x := by
  induction h generalizing k with
  | silent h => exact h.silent.quiet.confined
  | missing _ _ => exact (Silent.fail _).quiet.confined
  | lines h _ => exact .handed fun x hx => hlabels x (mem_of_fixed h hx)
  | look hx _ ih => exact .after hx.silent.quiet fun a => ih a hlabels
  | own _ _ ih => exact .after Looks.owner.silent.quiet fun n => ih n hlabels
  | label _ ih =>
    refine .newLabel fun k' x hle hx => ih x (forall_mem_cons.mpr ⟨hx, ?_⟩)
    exact fun y hy => (hlabels y hy).mono hle
  | seq _ _ ihx ihy => exact (ihx hlabels).bind fun _ => ihy hlabels
  | weaken _ _ _ ih => exact ih hlabels
  | load x => exact .after (Looks.placeOf x).silent.quiet fun _ => (Quiet.instrs _).confined
  | assign x _ ih =>
    exact .after (Looks.placeOf x).silent.quiet fun _ => (ih hlabels).bind fun _ =>
      (Quiet.instrs _).confined
  | slot x _ ih =>
    exact .after (.openSlot x) fun _ => (ih hlabels).bind fun _ => Quiet.closeSlot.confined

/-!
# Routines
-/

namespace Confined

theorem initBody (n parent : ClassNode) :
    Confined Session.labels lo k (initBody sc n parent) :=
  after (Silent.ofExcept _).quiet fun _ => after (.instrs _) fun _ => after .openScope fun _ =>
    ((composed_storeInits sc [] _ _ []).confined (forall_mem_nil _)).bind fun _ =>
    after (.update _ _) fun _ => (Quiet.instrs _).confined

theorem methodBody (n : ClassNode) (m : Method) :
    Confined Session.labels lo k (methodBody sc n m) := by
  refine after (Silent.ofExcept _).quiet fun _ => after (Silent.note _).quiet fun _ =>
    after .openScope fun _ => after (.bindFormals _ _ _ _) fun _ => after (.lines ?_) fun _ =>
    after (.instrs _) fun _ =>
    ((composed_expr sc [] m.body []).confined (forall_mem_nil _)).bind fun _ =>
    after (.instrs _) fun _ => after (.update _ _) fun _ => after Silent.get.quiet fun _ => ?_
  · exact forall_mem_singleton.mpr (dotted_ne_localLabel _ _)
  · simp only
    split
    · exact (Looks.failHere fun _ => rfl).silent.quiet.confined
    · exact (Quiet.done _).confined

end Confined

end Sessions

section Programs

variable {sc : Scene} {lo k : Nat}

theorem Confined.inRoutine {n : ClassNode} {body : Emit Session Unit}
    (h : Confined Session.labels lo k body) : Confined id lo k (inRoutine n body) :=
  fun hle labels hk => h hle ⟨labels, Environment.fresh n⟩ hk

theorem Confined.forClasses {emit : ClassNode → Emit Nat Unit} (ns : List ClassNode)
    (h : ∀ n, Confined id lo k (emit n)) : Confined id lo k (forClasses emit ns) := by
  induction ns with
  | nil => exact (Quiet.done _).confined
  | cons n ns ih => exact (h n).bind fun _ => ih

theorem Confined.methodRoutines (n : ClassNode) (ms : List Method) :
    Confined id lo k (methodRoutines sc n ms) := by
  induction ms with
  | nil => exact (Quiet.done _).confined
  | cons m ms ih => exact (methodBody n m).inRoutine.bind fun _ => ih

theorem Confined.initRoutine (n : ClassNode) : Confined id lo k (initRoutine sc n) := by
  have hlabel : Quiet id (Emit.lines [.label n.initLabel]) :=
    .lines (forall_mem_singleton.mpr (Label.Global.ne_localLabel (l := .init n.name) trivial))
  refine hlabel.confined.bind fun _ => ?_
  split
  · exact (Quiet.instrs _).confined
  · exact (initBody n _).inRoutine

/-!
# Data
-/

def isStatic : Line → Bool
  | .instr i => i.isFixed
  | _ => true

structure Tabulates {α : Type} (x : Emit Nat α) : Prop where
  quiet : Quiet id x
  static : ∀ s, (x s).lines.all isStatic = true

theorem Silent.tabulates {α : Type} {x : Emit Nat α} (h : Silent x) : Tabulates x :=
  ⟨h.quiet, fun s => by rw [(h s).1]; rfl⟩

namespace Tabulates

theorem bind {α β : Type} {x : Emit Nat α} {f : α → Emit Nat β} (hx : Tabulates x)
    (hf : ∀ a, Tabulates (f a)) : Tabulates (x >>= f) := by
  refine ⟨hx.quiet.bind fun a => (hf a).quiet, fun s => ?_⟩
  rcases bind_cases x f s with ⟨hlines, -⟩ | ⟨a, hlines, -⟩
  · rw [hlines]
    exact hx.static s
  · rw [hlines, all_append, hx.static, (hf a).static]
    rfl

theorem lines {ls : List Line} (given : List Label) (hdefs : labelDefs ls = given.map Label.name)
    (hglobal : ∀ l ∈ given, l.Global) (hstatic : ls.all isStatic = true) :
    Tabulates (Emit.lines ls) := by
  refine ⟨.lines ?_, fun _ => hstatic⟩
  rw [hdefs]
  exact forall_mem_map.mpr fun l hl => (hglobal l hl).ne_localLabel

theorem rows {α : Type} {f : α → List Line} (g : α → Label)
    (hdefs : ∀ a, labelDefs (f a) = [(g a).name]) (hglobal : ∀ a, (g a).Global)
    (hstatic : ∀ a, (f a).all isStatic = true) (xs : List α) :
    Tabulates (Emit.lines (xs.flatMap f)) := by
  refine lines (xs.map g) ?_ (forall_mem_map.mpr fun a _ => hglobal a) ?_
  · rw [labelDefs_flatMap, map_map, map_eq_flatMap]
    exact flatMap_congr fun a _ => hdefs a
  · rw [all_flatMap, all_eq_true]
    exact fun a _ => hstatic a

theorem tagWord {label : Name} (h : (Label.fixed label).Global) (c : Name) :
    Tabulates (tagWord sc label c) :=
  (Looks.basicClass _ _ _).silent.tabulates.bind fun _ => lines [.fixed label] rfl
    (forall_mem_singleton.mpr h) rfl

theorem stringObjects (n : ClassNode) (es : List (Entry Text)) :
    Tabulates (stringObjects sc n es) := by
  induction es with
  | nil => exact (Silent.done ()).tabulates
  | cons e es ih =>
    exact (fetches_intConst _ _ _).silent.tabulates.bind fun _ => (lines [.string e.id] rfl
      (forall_mem_singleton.mpr trivial) rfl).bind fun _ => ih

theorem constants : Tabulates (constants sc) := by
  refine (Looks.basicClass _ _ _).silent.tabulates.bind fun _ => (stringObjects _ _).bind fun _ =>
    (Looks.basicClass _ _ _).silent.tabulates.bind fun int => ?_
  have hints : Tabulates
      (Emit.lines (sc.pool.ints.entries.flatMap fun e => intObject int e.id e.value)) :=
    rows (fun e => .int e.id) (fun _ => rfl) (fun _ => trivial) (fun _ => rfl) _
  refine hints.bind fun _ => (Looks.basicClass _ _ _).silent.tabulates.bind fun _ => ?_
  exact lines [.fixed (boolLabel false), .fixed (boolLabel true)] rfl (by decide) rfl

theorem prototypes : Tabulates (prototypes sc) := by
  refine (fetches_intConst _ _ _).silent.tabulates.bind fun zero =>
    rows (fun n => .prototype n.name) (labelDefs_prototype zero) (fun _ => trivial) (fun n => ?_) _
  unfold prototype
  split
  · rfl
  · simp [staticObject, isStatic]

theorem beforeTables (tables : Option Text) : Tabulates (beforeTables sc tables) := by
  have hheader : Tabulates (Emit.lines (header tables)) :=
    lines [] (labelDefs_header tables) (by simp) (by cases tables <;> rfl)
  exact hheader.bind fun _ => (tagWord (by decide) _).bind fun _ =>
    (tagWord (by decide) _).bind fun _ => (tagWord (by decide) _).bind fun _ =>
    constants.bind fun _ => prototypes

theorem dispatchTables (t : ClassTable) : Tabulates (Emit.lines (dispatchTables t)) :=
  rows (fun n => .dispatch n.name) labelDefs_dispatchTable (fun _ => trivial)
    (fun n => by simp [dispatchTable, isStatic]) _

theorem nameWords (ns : List ClassNode) : Tabulates (nameWords sc ns) := by
  induction ns with
  | nil => exact (Silent.done ()).tabulates
  | cons n ns ih =>
    exact (fetches_stringConst _ _ _).silent.tabulates.bind fun _ =>
      (lines [] rfl (by simp) rfl).bind fun _ => ih

theorem classTables : Tabulates (classTables sc) := by
  have hobjects : Tabulates (Emit.lines (objectTable sc.table)) :=
    lines [.fixed classObjectTable] (labelDefs_objectTable _) (by decide)
      (by simp [objectTable, isStatic])
  have hnames : Tabulates (Emit.lines [.label classNameTable]) :=
    lines [.fixed classNameTable] rfl (by decide) rfl
  have htree : Tabulates (Emit.lines (treeTable sc.table)) :=
    lines [.fixed inheritanceTree] (labelDefs_treeTable _) (by decide)
      (by simp [treeTable, isStatic])
  exact hobjects.bind fun _ => (hnames.bind fun _ => nameWords _).bind fun _ => htree

end Tabulates

namespace Confined

theorem afterTables : Confined id lo k (afterTables sc) :=
  Tabulates.classTables.quiet.confined.bind fun _ => (forClasses _ initRoutine).bind fun _ =>
    forClasses _ fun n => methodRoutines n _

theorem inlineProgram : Confined id lo k (inlineProgram sc) :=
  (Tabulates.beforeTables none).quiet.confined.bind fun _ =>
    (Tabulates.dispatchTables _).quiet.confined.bind fun _ => afterTables

theorem splitProgram (file : Text) : Confined id lo k (splitProgram sc file) :=
  (Tabulates.beforeTables (some file)).quiet.confined.bind fun _ => afterTables

end Confined

end Programs

end Emit

end CoolCompiler
