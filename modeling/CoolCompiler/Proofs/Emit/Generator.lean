import CoolCompiler.Emit.Generator
import CoolCompiler.Proofs.Emit.Scene
import CoolCompiler.Proofs.Typing.Agreement
import CoolCompiler.Proofs.Typing.Signatures

/-!
# Generating code for accepted programs

A program accepted without a complaint can be generated unless a class of it is too large for
displacements.
-/

namespace CoolCompiler

open List ClassTable

namespace Sink

def Unlimited (s : Sink) : Prop := s.room = none ∧ s.failed = false

theorem unlimited_writeAll {s : Sink} (h : s.Unlimited) (ls : List Line) :
    (s.writeAll ls).1.Unlimited := by
  induction ls generalizing s with
  | nil => exact h
  | cons l ls ih =>
    have hwrite : (s.write l).1.Unlimited := by
      rw [write, if_neg (by simp [h.2]), h.1]
      exact ⟨rfl, h.2⟩
    exact ih hwrite

end Sink

namespace Emit

open Typing (classNames)

def TooLarge (n : ClassNode) : Prop :=
  128 < n.objectSize ∨ 64 < initSlots n.decl ∨
    ∃ m ∈ n.decl.methods, FrameTooLarge m.body.slots m.formals.length

def Limited (t : ClassTable) (fault : Fault) : Prop :=
  (∃ owner cause, fault = .internal owner cause ∧ cause.isSizeLimit = true) ∧
    ∃ n ∈ t.nodes, TooLarge n

variable {n : ClassNode} {ns : List ClassNode} {sc : Scene}

theorem SizeFault.limited {t : ClassTable} {fault : Fault} (hn : n ∈ t.nodes)
    (hfault : SizeFault n fault) (hlarge : TooLarge n) : Limited t fault := by
  obtain ⟨cause, heq, hsize⟩ := hfault
  exact ⟨⟨n.name, cause, heq, hsize⟩, n, hn, hlarge⟩

/-!
# Routines of all classes
-/

theorem ends_inRoutine {body : Emit Session Unit} {labels : Nat} {Q : Unit → Nat → Prop}
    {E : Fault → Prop} :
    Ends (inRoutine n body) labels Q E ↔
      Ends body ⟨labels, Environment.fresh n⟩ (fun u s => Q u s.labels) E := Iff.rfl

theorem forClasses_ends {emit : ClassNode → Emit Nat Unit} {P : ClassNode → Prop} {E : Fault → Prop}
    (h : ∀ n ∈ ns, ∀ labels, Ends (emit n) labels (fun _ _ => P n) E) (labels : Nat) :
    Ends (forClasses emit ns) labels (fun _ _ => ∀ n ∈ ns, P n) E := by
  induction ns generalizing labels with
  | nil => simp [forClasses]
  | cons n ns ih =>
    rw [forall_mem_cons] at h
    simp only [forClasses, ends_bind]
    refine (h.1 labels).mono ?_ (fun _ hfault => hfault)
    intro _ labels' hn
    refine (ih h.2 labels').mono ?_ (fun _ hfault => hfault)
    intro _ _ hns
    exact forall_mem_cons.mpr ⟨hn, hns⟩

section Routines

variable {q : Program} {s : Symbols} {parents : List (Option Nat)} {t : ClassTable}
  {n : ClassNode} (h : Compilable q s parents t) (pool : Pool)
include h

theorem initRoutine_ends (hn : n ∈ t.nodes) (labels : Nat) :
    Ends (initRoutine ⟨t, pool.collect t⟩ n) labels
      (fun _ _ => initSlots n.decl ≤ 64 ∧
        (n.isBasic = false → ∀ slot ∈ storedSlots n, fitsDisplacement slot.offset = true))
      (Limited t) := by
  simp only [initRoutine, ends_bind, ends_lines]
  rcases h.built.parentOf?_cases hn with ⟨hobject, hnone⟩ | ⟨_, p, _, hp, _⟩
  · rw [hnone]
    have hbasic : n.isBasic = true := by rw [ClassNode.isBasic, hobject]; rfl
    refine ⟨?_, fun huser => absurd hbasic (by simp [huser])⟩
    rcases h.decl_cases hn with ⟨_, hbuiltin⟩ | ⟨huser, _⟩
    · have hall : ∀ c ∈ Class.builtin, initSlots c ≤ 64 := by decide
      exact hall _ hbuiltin
    · simp [hbasic] at huser
  · rw [hp, ends_inRoutine]
    refine (initBody_ends (h.serves hn pool) (h.initialises hn pool) p labels).mono ?_ ?_
    · rintro _ _ ⟨hslots, hfits⟩
      refine ⟨hslots, fun _ slot hslot => ?_⟩
      obtain ⟨found, hfound, hfit⟩ := hfits slot hslot
      rw [h.slot?_eq hn (Compilable.mem_storedSlots_iff.mp hslot).1] at hfound
      cases hfound
      exact hfit
    · rintro fault ⟨hfault, hlarge⟩
      exact hfault.limited hn (hlarge.imp id .inl)

theorem methodRoutines_ends (hn : n ∈ t.nodes) (huser : n.isBasic = false) {ms : List Method}
    (hms : ∀ m ∈ ms, m ∈ n.decl.methods) (labels : Nat) :
    Ends (methodRoutines ⟨t, pool.collect t⟩ n ms) labels
      (fun _ _ => ∀ m ∈ ms, ¬ FrameTooLarge m.body.slots m.formals.length) (Limited t) := by
  induction ms generalizing labels with
  | nil => simp [methodRoutines]
  | cons m ms ih =>
    rw [forall_mem_cons] at hms
    have hq : n.decl ∈ q := by
      rcases h.decl_cases hn with ⟨hbasic, _⟩ | ⟨_, hq⟩
      · simp [huser] at hbasic
      · exact hq
    have hliterals : ∀ l ∈ m.body.literals, l.Interned (pool.collect t) := by
      intro l hl
      obtain ⟨f, hf, hmethod⟩ := mem_filterMap.mp hms.1
      refine pool.literal_interned hn huser hf ?_
      cases f with
      | attr a => cases hmethod
      | method m' =>
        cases hmethod
        exact hl
    simp only [methodRoutines, ends_bind, ends_inRoutine]
    refine (methodBody_ends (h.serves hn pool) (pool.file_interned hn huser)
      ((h.typed _ hq).methods m hms.1) hliterals ((h.filled _ hq).methods m hms.1) labels).mono
      ?_ ?_
    · intro _ session hframe
      refine (ih hms.2 session.labels).mono ?_ (fun _ hfault => hfault)
      intro _ _ hrest
      exact forall_mem_cons.mpr ⟨hframe, hrest⟩
    · rintro fault ⟨hfault, hlarge⟩
      exact hfault.limited hn (hlarge.imp id fun hframe => .inr ⟨m, hms.1, hframe⟩)

theorem frames_of_basic (hn : n ∈ t.nodes) (hbasic : n.isBasic = true) :
    ∀ m ∈ n.decl.methods, ¬ FrameTooLarge m.body.slots m.formals.length := by
  have hall : ∀ c ∈ Class.builtin, ∀ m ∈ c.methods,
      m.body.slots = 0 ∧ m.formals.length ≤ 2 := by decide
  rcases h.decl_cases hn with ⟨_, hbuiltin⟩ | ⟨huser, _⟩
  · intro m hm
    obtain ⟨hslots, hformals⟩ := hall _ hbuiltin m hm
    unfold FrameTooLarge
    omega
  · simp [hbasic] at huser

theorem allMethods_ends (labels : Nat) :
    Ends (allMethods ⟨t, pool.collect t⟩) labels
      (fun _ _ => ∀ n ∈ t.nodes, ∀ m ∈ n.decl.methods,
        ¬ FrameTooLarge m.body.slots m.formals.length) (Limited t) := by
  have hmethods : ∀ n ∈ t.preorder.filter (fun n => !n.isBasic), ∀ labels,
      Ends (methodRoutines ⟨t, pool.collect t⟩ n n.decl.methods) labels
        (fun _ _ => ∀ m ∈ n.decl.methods, ¬ FrameTooLarge m.body.slots m.formals.length)
        (Limited t) := by
    intro n hn
    rw [mem_filter] at hn
    exact methodRoutines_ends h pool (h.built.mem_preorder_iff.mp hn.1) (by simpa using hn.2)
      (fun _ hm => hm)
  refine (forClasses_ends hmethods labels).mono ?_ (fun _ hfault => hfault)
  intro _ _ hall n hn
  cases hbasic : n.isBasic with
  | true => exact frames_of_basic h hn hbasic
  | false =>
    refine hall n (mem_filter.mpr ⟨h.built.mem_preorder_iff.mpr hn, ?_⟩)
    simp [hbasic]

theorem routines_end (labels : Nat) :
    Ends (do initRoutines ⟨t, pool.collect t⟩; allMethods ⟨t, pool.collect t⟩) labels
      (fun _ _ => ∀ n ∈ t.nodes, ¬ TooLarge n) (Limited t) := by
  rw [ends_bind]
  refine (forClasses_ends (fun n hn =>
    initRoutine_ends h pool (h.built.mem_preorder_iff.mp hn)) labels).mono ?_ (fun _ hf => hf)
  intro _ labels' hinits
  refine (allMethods_ends h pool labels').mono ?_ (fun _ hfault => hfault)
  intro _ _ hmethods n hn
  rintro (hobject | hslots | ⟨m, hm, hframe⟩)
  · obtain ⟨d, hd, huser, slot, hslot, hoffset⟩ := h.exists_far_slot hn hobject
    have hfits := (hinits d (h.built.mem_preorder_iff.mpr hd)).2 huser slot hslot
    rw [hoffset] at hfits
    exact absurd hfits (by decide)
  · have hle := (hinits n (h.built.mem_preorder_iff.mpr hn)).1
    omega
  · exact hmethods n hn m hm hframe

end Routines

/-!
# Data

The constants and tables that stand before the routines can always be written.
-/

def Succeeds {α : Type} (x : Emit Nat α) : Prop :=
  ∀ labels, Ends x labels (fun _ _ => True) (fun _ => False)

theorem succeeds_lines (ls : List Line) : Succeeds (lines ls) := fun _ => trivial

theorem Succeeds.bind_ends {α β : Type} {x : Emit Nat α} {f : α → Emit Nat β} {Q : β → Nat → Prop}
    {E : Fault → Prop} (hx : Succeeds x) (hf : ∀ a labels, Ends (f a) labels Q E) (labels : Nat) :
    Ends (x >>= f) labels Q E := by
  rw [ends_bind]
  exact (hx labels).mono (fun a labels' _ => hf a labels') (fun _ hfault => hfault.elim)

theorem Succeeds.bind {α β : Type} {x : Emit Nat α} {f : α → Emit Nat β} (hx : Succeeds x)
    (hf : ∀ a, Succeeds (f a)) : Succeeds (x >>= f) := hx.bind_ends hf

theorem succeeds_intConst {v : Int} (hv : Literal.Interned sc.pool (.int v)) (owner : Name) :
    Succeeds (intConst sc owner v) := by
  obtain ⟨i, hi⟩ := Option.isSome_iff_exists.mp hv
  intro labels
  simp [intConst, hi]

theorem succeeds_stringConst {v : Text} (hv : Literal.Interned sc.pool (.string v)) (owner : Name) :
    Succeeds (stringConst sc owner v) := by
  obtain ⟨i, hi⟩ := Option.isSome_iff_exists.mp hv
  intro labels
  simp [stringConst, hi]

theorem stringObjects_succeeds {es : List (Entry Text)}
    (hes : ∀ e ∈ es, Literal.Interned sc.pool (.int e.value.length)) :
    Succeeds (stringObjects sc n es) := by
  induction es with
  | nil => exact fun _ => trivial
  | cons e es ih =>
    rw [forall_mem_cons] at hes
    exact (succeeds_intConst hes.1 []).bind fun _ => (succeeds_lines _).bind fun _ => ih hes.2

theorem nameWords_succeeds (hns : ∀ n ∈ ns, Literal.Interned sc.pool (.string n.name)) :
    Succeeds (nameWords sc ns) := by
  induction ns with
  | nil => exact fun _ => trivial
  | cons n ns ih =>
    rw [forall_mem_cons] at hns
    exact (succeeds_stringConst hns.1 []).bind fun _ => (succeeds_lines _).bind fun _ =>
      ih hns.2

section Built

variable {q : Program} {parents : List (Option Nat)} {t : ClassTable} {pool : Pool}
  (h : ClassTable.Built q parents t)
include h

theorem basicClass_succeeds {c : Name} (hc : c ∈ Class.builtin.map Class.name) (owner : Name) :
    Succeeds (basicClass ⟨t, pool⟩ owner c) := by
  have hclass : c ∈ t.nodes.map ClassNode.name := by
    rw [h.map_name, map_append]
    exact mem_append_left _ hc
  obtain ⟨n, hn, hname⟩ := mem_map.mp hclass
  intro labels
  simp [basicClass, h.find?_eq_some_iff.mpr ⟨hn, hname⟩]

theorem tagWord_succeeds {c : Name} (hc : c ∈ Class.builtin.map Class.name) (label : Name) :
    Succeeds (tagWord ⟨t, pool⟩ label c) :=
  (basicClass_succeeds h hc []).bind fun _ => succeeds_lines _

theorem constants_succeeds (hlengths : pool.LengthsInterned) :
    Succeeds (constants ⟨t, pool.collect t⟩) := by
  have hstrings : ∀ n, Succeeds
      (stringObjects ⟨t, pool.collect t⟩ n (pool.collect t).strings.entries) := fun n =>
    stringObjects_succeeds fun e he =>
      Pool.lengthsInterned_collect hlengths t e.value (mem_map_of_mem he)
  exact (basicClass_succeeds h (by decide) []).bind fun _ => (hstrings _).bind fun _ =>
    (basicClass_succeeds h (by decide) []).bind fun _ => (succeeds_lines _).bind fun _ =>
    (basicClass_succeeds h (by decide) []).bind fun _ => succeeds_lines _

omit h in
theorem prototypes_succeeds : Succeeds (prototypes ⟨t, pool.collect t⟩) :=
  (succeeds_intConst pool.zero_interned []).bind fun _ => succeeds_lines _

theorem beforeTables_succeeds (hlengths : pool.LengthsInterned) (tables : Option Text) :
    Succeeds (beforeTables ⟨t, pool.collect t⟩ tables) :=
  (succeeds_lines _).bind fun _ => (tagWord_succeeds h (by decide) _).bind fun _ =>
    (tagWord_succeeds h (by decide) _).bind fun _ =>
    (tagWord_succeeds h (by decide) _).bind fun _ =>
    (constants_succeeds h hlengths).bind fun _ => prototypes_succeeds

end Built

section Data

variable {q : Program} {s : Symbols} {parents : List (Option Nat)} {t : ClassTable} {pool : Pool}
  (h : Compilable q s parents t)
include h

omit h in
theorem classTables_succeeds : Succeeds (classTables ⟨t, pool.collect t⟩) := by
  have hnames : ∀ n ∈ t.nodes, Literal.Interned (pool.collect t) (.string n.name) :=
    fun n hn => pool.name_interned hn
  exact (succeeds_lines _).bind fun _ =>
    ((succeeds_lines _).bind fun _ => nameWords_succeeds hnames).bind fun _ => succeeds_lines _

theorem afterTables_ends (labels : Nat) :
    Ends (afterTables ⟨t, pool.collect t⟩) labels
      (fun _ _ => ∀ n ∈ t.nodes, ¬ TooLarge n) (Limited t) :=
  classTables_succeeds.bind_ends (fun _ => routines_end h pool) labels

theorem inlineProgram_ends (hlengths : pool.LengthsInterned) (labels : Nat) :
    Ends (inlineProgram ⟨t, pool.collect t⟩) labels
      (fun _ _ => ∀ n ∈ t.nodes, ¬ TooLarge n) (Limited t) :=
  (beforeTables_succeeds h.built hlengths none).bind_ends
    (fun _ => (succeeds_lines _).bind_ends fun _ => afterTables_ends h) labels

theorem splitProgram_ends (hlengths : pool.LengthsInterned) (tableFile : Text) (labels : Nat) :
    Ends (splitProgram ⟨t, pool.collect t⟩ tableFile) labels
      (fun _ _ => ∀ n ∈ t.nodes, ¬ TooLarge n) (Limited t) :=
  (beforeTables_succeeds h.built hlengths (some tableFile)).bind_ends
    (fun _ => afterTables_ends h) labels

end Data

end Emit

/-!
# Generators
-/

namespace Generator

open Emit

def Ending (t : ClassTable) (failure : Option GenerationFailure) : Prop :=
  (failure = none ∧ ∀ n ∈ t.nodes, ¬ TooLarge n) ∨
    ∃ fault, failure = some (.fault fault) ∧ Limited t fault

theorem finish_ending {g : Generator} {sink : Sink} (hsink : sink.Unlimited) {t : ClassTable}
    {x : Emit Nat Unit} {labels : Nat}
    (hx : Ends x labels (fun _ _ => ∀ n ∈ t.nodes, ¬ TooLarge n) (Limited t))
    (tables : List Line) (opening : Nat) (notes : List EmitNote) :
    Ending t (g.finish sink tables opening notes (x labels)).failure := by
  have hwritten := Sink.unlimited_writeAll hsink (x labels).lines
  unfold Ends at hx
  unfold finish
  simp only
  split
  · rename_i fault hfault
    rw [hfault] at hx
    exact .inr ⟨fault, rfl, hx⟩
  · rename_i hok
    rw [hok] at hx
    rw [if_neg (by simp [hwritten.2])]
    exact .inl ⟨rfl, hx⟩

theorem run_ending {q : Program} {s : Symbols} {parents : List (Option Nat)} {t : ClassTable}
    (h : Compilable q s parents t) {g : Generator} (hlengths : g.pool.LengthsInterned)
    {sink : Sink} (hsink : sink.Unlimited) {tableSink : Option Sink}
    (htables : ∀ ts ∈ tableSink, ts.Unlimited) :
    Ending t (g.run q sink tableSink).failure := by
  have hbuild : build q = .ok t := (build_eq_ok_iff q t).mpr ⟨_, h.built⟩
  unfold run
  rw [hbuild]
  simp only
  cases tableSink with
  | none => exact finish_ending hsink (inlineProgram_ends h hlengths g.labels) _ _ _
  | some ts =>
    have hbefore := beforeTables_succeeds h.built hlengths (some g.tableFile) g.labels
    have hwritten := Sink.unlimited_writeAll (htables ts rfl) (dispatchTables t)
    unfold Ends at hbefore
    simp only
    split
    · rename_i fault hfault
      rw [hfault] at hbefore
      exact hbefore.elim
    · rw [if_neg (by simp [hwritten.2])]
      exact finish_ending hsink (splitProgram_ends h hlengths g.tableFile g.labels) _ _ _

end Generator

/-!
# Accepted programs
-/

theorem Grammar.ClassComplete.filled {c : Class} (h : Grammar.ClassComplete c) :
    Typing.ClassFilled c := by
  constructor
  · intro a ha
    obtain ⟨f, hf, hattribute⟩ := mem_filterMap.mp ha
    have hcomplete := h.features f hf
    cases f with
    | attr b =>
      cases hattribute
      exact hcomplete.casesFilled
    | method m => cases hattribute
  · intro m hm
    obtain ⟨f, hf, hmethod⟩ := mem_filterMap.mp hm
    have hcomplete := h.features f hf
    cases f with
    | attr a => cases hmethod
    | method m' =>
      cases hmethod
      exact hcomplete.casesFilled

theorem Accepted.exists_compilable {p q : Program} {s : Symbols} (h : Accepted p s q)
    (hcomplete : ∀ c ∈ p, Grammar.ClassComplete c) :
    ∃ parents t, Emit.Compilable q s parents t := by
  obtain ⟨parents, t, hbuilt⟩ := h.collected_result.graph.exists_built
  exact ⟨parents, t, h.collected_result, h.typed,
    h.filled fun c hc => (hcomplete c hc).filled, hbuilt⟩

theorem Analysis.exists_compilable {sources : List (Text × Text)} {o : Analysis.Outcome}
    (haccepted : Analysis.fresh.run
      (sources.flatMap fun source => (Grammar.parse source.1 source.2).classes) = .ok o)
    (hclean : o.analysis.diagnostics = []) :
    ∃ parents t, Emit.Compilable o.program o.analysis.symbols parents t ∧
      ClassTable.build o.program = .ok t ∧
      Accepted (sources.flatMap fun source => (Grammar.parse source.1 source.2).classes)
        o.analysis.symbols o.program ∧
      (∀ c ∈ Class.builtin ++ o.program, Typing.Signed o.analysis.symbols c) ∧
      ∀ c ∈ o.program, c.name.Capital := by
  have hcomplete := Grammar.complete_of_sources sources
  have hnamed := Grammar.named_of_complete hcomplete
  have hprogram := Typing.run_accepted hnamed haccepted hclean
  obtain ⟨parents, t, h⟩ := hprogram.exists_compilable hcomplete
  refine ⟨parents, t, h, (ClassTable.build_eq_ok_iff _ t).mpr ⟨parents, h.built⟩, hprogram,
    hprogram.signed (Typing.run_signed hnamed haccepted hclean), ?_⟩
  intro c hc
  obtain ⟨source, hsource, hchecked⟩ := hprogram.exists_source hc
  rw [hchecked.name]
  exact (hcomplete source hsource).name

/-- Whether sources are accepted, with an outcome that passes a check. -/
def acceptedBy (sources : List (Text × Text)) (check : Analysis.Outcome → Bool) : Bool :=
  passes (Analysis.fresh.run
    (sources.flatMap fun source => (Grammar.parse source.1 source.2).classes)) fun o =>
      o.analysis.diagnostics.isEmpty && check o

theorem acceptedBy_iff {sources : List (Text × Text)} {check : Analysis.Outcome → Bool} :
    acceptedBy sources check = true ↔ ∃ o, Analysis.fresh.run
      (sources.flatMap fun source => (Grammar.parse source.1 source.2).classes) = .ok o ∧
        o.analysis.diagnostics = [] ∧ check o = true := by
  simp [acceptedBy]

theorem ClassTable.Built.objectSize_gt_iff {q : Program} {parents : List (Option Nat)}
    {t : ClassTable} (h : ClassTable.Built q parents t) {n : ClassNode} (hn : n ∈ t.nodes) :
    128 < n.objectSize ↔ ∃ slot ∈ n.layout, 126 < slot.offset := by
  constructor
  · intro hlarge
    have hlength : 61 < n.layout.length := by
      rw [h.objectSize_eq hn] at hlarge
      simp only [headerSize, wordSize] at hlarge
      omega
    refine ⟨n.layout[61], getElem_mem hlength, ?_⟩
    rw [h.getElem?_layout hn (getElem?_eq_getElem hlength)]
    decide
  · rintro ⟨slot, hslot, hfar⟩
    have hsize := h.offset_add_le hn hslot
    simp only [wordSize] at hsize
    omega

/-- For a program that was read from any sources and accepted by a fresh analysis, a fresh
generator whose sinks take every line fails exactly if a class is too large: its objects
(an attribute lies beyond displacement 126), the frame of its initialisation, or the frame
of one of its methods.  It never fails for any other reason. -/
theorem Generator.run_fails_iff_too_large (sources : List (Text × Text)) (o : Analysis.Outcome)
    (tableFile : Text) (sink : Sink) (tableSink : Option Sink)
    (haccepted : Analysis.fresh.run
      (sources.flatMap fun source => (Grammar.parse source.1 source.2).classes) = .ok o)
    (hclean : o.analysis.diagnostics = [])
    (hsink : sink.Unlimited) (htables : ∀ ts ∈ tableSink, ts.Unlimited) :
    ∃ t, ClassTable.build o.program = .ok t ∧
      (((Generator.fresh tableFile).run o.program sink tableSink).failure ≠ none ↔
        ∃ n ∈ t.nodes, 128 < n.objectSize ∨ 64 < Emit.initSlots n.decl ∨
          ∃ m ∈ n.decl.methods,
            m.formals.length = 0 ∧ 64 < m.body.slots ∨
            0 < m.formals.length ∧ 61 < m.body.slots + m.formals.length) ∧
      (∀ n ∈ t.nodes, 128 < n.objectSize ↔ ∃ slot ∈ n.layout, 126 < slot.offset) ∧
      ∀ failure, ((Generator.fresh tableFile).run o.program sink tableSink).failure = some failure →
        ∃ owner cause, failure = .fault (.internal owner cause) ∧ cause.isSizeLimit = true := by
  rcases Analysis.exists_compilable haccepted hclean with ⟨parents, t, hcompilable, hbuild, -⟩
  have hending : Generator.Ending t
      ((Generator.fresh tableFile).run o.program sink tableSink).failure :=
    Generator.run_ending hcompilable Pool.lengthsInterned_empty hsink htables
  refine ⟨t, hbuild, ?_, fun n hn => hcompilable.built.objectSize_gt_iff hn, ?_⟩
  · rcases hending with ⟨hnone, hfits⟩ | ⟨fault, hfault, _, n, hn, hlarge⟩
    · exact ⟨fun hne => absurd hnone hne, fun ⟨n, hn, hlarge⟩ => absurd hlarge (hfits n hn)⟩
    · exact ⟨fun _ => ⟨n, hn, hlarge⟩, fun _ => by simp [hfault]⟩
  · intro failure hfailure
    rcases hending with ⟨hnone, _⟩ | ⟨fault, hfault, ⟨owner, cause, heq, hsize⟩, _⟩
    · simp [hnone] at hfailure
    · rw [hfault] at hfailure
      cases hfailure
      exact ⟨owner, cause, by rw [heq], hsize⟩

def crowdedSources : List (Text × Text) :=
  [("main.cl", "class Main{main():Int{let
a:Int,a:Int,a:Int,a:Int,a:Int,a:Int,a:Int,a:Int,a:Int,a:Int,a:Int,a:Int,a:Int,
a:Int,a:Int,a:Int,a:Int,a:Int,a:Int,a:Int,a:Int,a:Int,a:Int,a:Int,a:Int,a:Int,
a:Int,a:Int,a:Int,a:Int,a:Int,a:Int,a:Int,a:Int,a:Int,a:Int,a:Int,a:Int,a:Int,
a:Int,a:Int,a:Int,a:Int,a:Int,a:Int,a:Int,a:Int,a:Int,a:Int,a:Int,a:Int,a:Int,
a:Int,a:Int,a:Int,a:Int,a:Int,a:Int,a:Int,a:Int,a:Int,a:Int,a:Int,a:Int,a:Int
in a};};")]

theorem Generator.run_crowdedSources_fails : ∃ o,
    Analysis.fresh.run (crowdedSources.flatMap fun source =>
      (Grammar.parse source.1 source.2).classes) = .ok o ∧
    o.analysis.diagnostics = [] ∧ (Sink.fresh none).Unlimited ∧
    ((Generator.fresh []).run o.program (Sink.fresh none) none).failure ≠ none := by
  have hcheck : (acceptedBy crowdedSources fun o =>
        passes (ClassTable.build o.program) fun t => t.nodes.any fun n =>
          n.decl.methods.any fun m => m.formals.isEmpty && decide (64 < m.body.slots)) = true := by
    decide +kernel
  simp only [acceptedBy_iff, passes_iff, Bool.and_eq_true, List.isEmpty_iff, any_eq_true,
    decide_eq_true_eq] at hcheck
  rcases hcheck with ⟨o, hrun, hclean, t, hbuild, n, hn, m, hm, hformals, hslots⟩
  rcases Generator.run_fails_iff_too_large _ o [] (Sink.fresh none) none hrun hclean ⟨rfl, rfl⟩
    (by simp) with ⟨t', hbuild', hiff, _⟩
  rw [hbuild] at hbuild'
  cases hbuild'
  refine ⟨o, hrun, hclean, ⟨rfl, rfl⟩, hiff.mpr ?_⟩
  exact ⟨n, hn, .inr (.inr ⟨m, hm, .inl ⟨by rw [hformals]; rfl, hslots⟩⟩)⟩

def generatedCode (sources : List (Text × Text)) : List Line :=
  match Analysis.fresh.run
    (sources.flatMap fun source => (Grammar.parse source.1 source.2).classes) with
  | .error _ => []
  | .ok o =>
    let r := (Generator.fresh []).run o.program (Sink.fresh none) none
    r.assembly ++ r.tables

theorem generatedCode_of_accepted {sources : List (Text × Text)} {o : Analysis.Outcome}
    (haccepted : Analysis.fresh.run
      (sources.flatMap fun source => (Grammar.parse source.1 source.2).classes) = .ok o) :
    generatedCode sources = ((Generator.fresh []).run o.program (Sink.fresh none) none).assembly ++
      ((Generator.fresh []).run o.program (Sink.fresh none) none).tables := by
  rw [generatedCode, haccepted]

end CoolCompiler
