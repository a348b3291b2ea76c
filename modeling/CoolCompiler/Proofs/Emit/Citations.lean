import CoolCompiler.Emit.Generator
import CoolCompiler.Proofs.Emit.Composition
import CoolCompiler.Proofs.Emit.Routine

/-!
# References to constants

Which constants the code of an expression refers to, and in which order, can be told from the
expression: its literals, the initial values of variables, and the file that is named where a
receiver is void or no branch fits.  An emission, as far as it gets, refers to just these.
-/

namespace CoolCompiler

open List Environment Literal

namespace Emit

section Results

variable {σ α : Type} (sc : Scene) (I : σ → Prop) (cs : List Literal)

/-- What was written defines no label of a constant and refers to the constants `cs`, or to the
first of them if it ends in a fault.  If all have numbers, none is missing. -/
structure Cited (r : Emitted σ α) : Prop where
  plain : constantDefs r.lines = []
  begun : citations r.lines <+: cs.map (address sc.pool)
  ended : ∀ a, r.outcome = .ok a → I r.state ∧ citations r.lines = cs.map (address sc.pool)
  found : ∀ fault, r.outcome = .error fault →
    (∀ l ∈ cs, l.Interned sc.pool) → fault.isMissingConstant = false

def Cites (x : Emit σ α) : Prop := ∀ s, I s → Cited sc I cs (x s)

variable {sc I cs} {r : Emitted σ α}

theorem Cited.of_ok {a : α} (hok : r.outcome = .ok a) (hstate : I r.state)
    (hplain : constantDefs r.lines = []) (hcites : citations r.lines = cs.map (address sc.pool)) :
    Cited sc I cs r := by
  refine ⟨hplain, hcites ▸ prefix_rfl, fun _ _ => ⟨hstate, hcites⟩, fun _ herror => ?_⟩
  rw [hok] at herror
  cases herror

theorem Cited.of_error {fault : Fault} (herror : r.outcome = .error fault)
    (hplain : constantDefs r.lines = []) (hbegun : citations r.lines <+: cs.map (address sc.pool))
    (hfound : (∀ l ∈ cs, l.Interned sc.pool) → fault.isMissingConstant = false) :
    Cited sc I cs r := by
  refine ⟨hplain, hbegun, fun _ hok => ?_, fun _ herror' => ?_⟩
  · rw [herror] at hok
    cases hok
  · rw [herror] at herror'
    cases herror'
    exact hfound

end Results

namespace Cites

variable {σ α β : Type} {sc : Scene} {I : σ → Prop} {cs ds : List Literal} {x : Emit σ α}
  {f : α → Emit σ β}

theorem bind (hx : Cites sc I cs x) (hf : ∀ a, Cites sc I ds (f a)) :
    Cites sc I (cs ++ ds) (x >>= f) := by
  intro s hs
  have hfirst := hx s hs
  cases houtcome : (x s).outcome with
  | error fault =>
    rw [bind_of_error houtcome]
    refine .of_error rfl hfirst.plain ?_ fun hinterned => ?_
    · rw [map_append]
      exact hfirst.begun.trans (prefix_append _ _)
    · exact hfirst.found fault houtcome (forall_mem_append.mp hinterned).1
  | ok a =>
    obtain ⟨hstate, hcites⟩ := hfirst.ended a houtcome
    have hsecond := hf a _ hstate
    rw [bind_of_ok houtcome]
    constructor
    · rw [constantDefs_append, hfirst.plain, hsecond.plain]
      rfl
    · rw [citations_append, hcites, map_append]
      exact prefix_append_right_inj _ |>.mpr hsecond.begun
    · intro b hb
      obtain ⟨hstate', hcites'⟩ := hsecond.ended b hb
      rw [citations_append, hcites, hcites', map_append]
      exact ⟨hstate', rfl⟩
    · intro fault hfault hinterned
      exact hsecond.found fault hfault (forall_mem_append.mp hinterned).2

theorem after (hx : Cites sc I [] x) (hf : ∀ a, Cites sc I ds (f a)) : Cites sc I ds (x >>= f) :=
  hx.bind hf

theorem before (hx : Cites sc I cs x) (hf : ∀ a, Cites sc I [] (f a)) :
    Cites sc I cs (x >>= f) := by
  have hbind := hx.bind hf
  rwa [append_nil] at hbind

theorem of_eq {y : Emit σ α} (hx : Cites sc I cs x) (heq : ∀ s, I s → y s = x s) :
    Cites sc I cs y := fun s hs => heq s hs ▸ hx s hs

theorem lines {ls : List Line} (hplain : constantDefs ls = [])
    (hcites : citations ls = cs.map (address sc.pool)) : Cites sc I cs (lines ls) :=
  fun _ hs => .of_ok rfl hs hplain hcites

theorem plainLines {ls : List Line} (h : ls.all Line.isPlain = true) :
    Cites sc I [] (Emit.lines ls) :=
  lines (constantDefs_of_plain h) (citations_of_plain h)

theorem labels {ls : List Line} (cited defined : List Name)
    (hcited : ls.flatMap Line.cites = cited.map fun x => ⟨x, 0⟩)
    (hdefined : labelDefs ls = defined)
    (h : ∀ x ∈ cited ++ defined, isConstantLabel x = false) : Cites sc I [] (Emit.lines ls) := by
  rw [forall_mem_append] at h
  refine lines ?_ ?_
  · rw [constantDefs, hdefined, filter_eq_nil_iff]
    exact fun x hx => by simp [h.2 x hx]
  · rw [citations, hcited, map_nil, filter_eq_nil_iff]
    intro a ha
    obtain ⟨x, hx, rfl⟩ := mem_map.mp ha
    simp [h.1 x hx]

theorem silent {is : List Instr} (h : is.flatMap Instr.cites = []) : Cites sc I [] (instrs is) :=
  labels [] [] ((flatMap_code is).trans h) (labelDefs_code is) (forall_mem_nil _)

theorem of_looks (h : Looks x) : Cites sc I [] x := by
  intro s hs
  obtain ⟨hlines, hstate⟩ := h.silent s
  cases houtcome : (x s).outcome with
  | ok a => exact .of_ok houtcome (by rwa [hstate]) (by rw [hlines]; rfl) (by rw [hlines]; rfl)
  | error fault =>
    refine .of_error houtcome (by rw [hlines]; rfl) ?_ fun _ => h.mild s fault houtcome
    rw [hlines]
    exact nil_prefix

theorem done (a : α) : Cites sc I [] (done a) := of_looks (.done a)

theorem ofExcept {r : Except Fault α} (hr : ∀ fault, r = .error fault →
    fault.isMissingConstant = false) (hf : ∀ a, r = .ok a → Cites sc I cs (f a)) :
    Cites sc I cs (Emit.ofExcept r >>= f) := by
  cases r with
  | ok a => exact (hf a rfl).of_eq fun _ _ => rfl
  | error fault => exact fun _ _ => .of_error rfl rfl nil_prefix fun _ => hr fault rfl

theorem get {f : σ → Emit σ β} (hf : ∀ s, I s → Cites sc I cs (f s)) :
    Cites sc I cs (get >>= f) := fun s hs => hf s hs s hs

theorem set {s : σ} (hs : I s) : Cites sc I [] (set s) := fun _ _ => .of_ok rfl hs rfl rfl

theorem note (m : EmitNote) : Cites sc I [] (note m) := fun _ hs => .of_ok rfl hs rfl rfl

theorem missing {fault : Fault} {l : Literal} (hmem : l ∈ cs) (hl : ¬ l.Interned sc.pool) :
    Cites sc I cs (Emit.fail fault : Emit σ α) :=
  fun _ _ => .of_error rfl rfl nil_prefix fun hinterned => absurd (hinterned l hmem) hl

end Cites

/-!
# Expressions
-/

section Sessions

variable {sc : Scene} {n : ClassNode} {cs : List Literal}

def Owned (n : ClassNode) (s : Session) : Prop := s.env.owner = n

variable {env : Environment} {fault : Fault}

theorem bind_owner {x : Name} {place : Indexed} :
    (∀ fault, env.bind x place = .error fault → fault.isMissingConstant = false) ∧
      ∀ env', env.bind x place = .ok env' → env'.owner = env.owner := by
  unfold Environment.bind
  split
  · split
    · exact ⟨fun _ h => by cases h; rfl, fun _ h => by cases h⟩
    · exact ⟨fun _ h => (by cases h), fun _ h => by cases h; rfl⟩
  · exact ⟨fun _ h => by cases h; rfl, fun _ h => by cases h⟩

theorem leave_owner :
    (∀ fault, env.leave = .error fault → fault.isMissingConstant = false) ∧
      ∀ env', env.leave = .ok env' → env'.owner = env.owner := by
  unfold leave
  split
  · exact ⟨fun _ h => by cases h; rfl, fun _ h => by cases h⟩
  · exact ⟨fun _ h => (by cases h), fun _ h => by cases h; rfl⟩

namespace Cites

theorem openSlot (x : Name) : Cites sc (Owned n) [] (openSlot x) := by
  refine get fun s hs => (set ?_).after fun _ => (silent rfl).after fun _ =>
    ofExcept (fun fault h => bind_owner.1 fault h) fun env henv => set ?_
  · exact hs
  · exact (bind_owner.2 env henv).trans hs

theorem closeSlot : Cites sc (Owned n) [] closeSlot :=
  get fun _ hs => ofExcept leave_owner.1 fun env henv => set ((leave_owner.2 env henv).trans hs)

end Cites

theorem constantDefs_of_fixed {labels : List Name} {ls : List Line} (h : ∀ l ∈ ls, Fixed labels l)
    (hlabels : ∀ x ∈ labels, isConstantLabel x = false) : constantDefs ls = [] := by
  rw [constantDefs, filter_eq_nil_iff]
  exact fun x hx => by simp [hlabels x (mem_of_fixed h hx)]

theorem Composed.cites {labels : List Name} {k : Nat} {p : Prop} {x : Emit Session Unit}
    (h : Composed sc n.decl.file labels k p cs x)
    (hlabels : ∀ x ∈ labels, isConstantLabel x = false) : Cites sc (Owned n) cs x := by
  induction h with
  | silent h => exact .of_looks h
  | missing hmem hl => exact .missing hmem hl
  | lines h hcites => exact .lines (constantDefs_of_fixed h hlabels) (hcites hlabels)
  | look hx _ ih => exact (Cites.of_looks hx).after fun a => ih a hlabels
  | own g _ ih =>
    refine (ih n hlabels).of_eq fun s hs => ?_
    subst hs
    rfl
  | label _ ih =>
    intro s hs
    exact ih _ (forall_mem_cons.mpr ⟨isConstantLabel_localLabel s.labels, hlabels⟩)
      { s with labels := s.labels + 1 } hs
  | seq _ _ ihx ihy => exact (ihx hlabels).bind fun _ => ihy hlabels
  | weaken _ _ _ ih => exact ih hlabels
  | load x => exact (Cites.of_looks (.placeOf x)).after fun _ => .silent rfl
  | assign x _ ih =>
    exact (Cites.of_looks (.placeOf x)).after fun _ => (ih hlabels).before fun _ => .silent rfl
  | slot x _ ih =>
    exact (Cites.openSlot x).after fun _ => (ih hlabels).before fun _ => .closeSlot

/-!
# Routines
-/

theorem isMissingConstant_reserve {c : Name} {temps formals : Nat}
    (h : Frame.reserve c temps formals = .error fault) : fault.isMissingConstant = false := by
  rcases reserve_cases c temps formals with ⟨hok, _⟩ | ⟨herror, _⟩
  · rw [hok] at h
    cases h
  · rw [herror] at h
    cases h
    rfl

namespace Cites

theorem openScope : Cites sc (Owned n) [] openScope := get fun _ hs => set hs

theorem closeScope : Cites sc (Owned n) [] closeScope :=
  get fun _ hs => ofExcept leave_owner.1 fun env henv => set ((leave_owner.2 env henv).trans hs)

theorem bindFormals (temps total i : Nat) (fs : List Formal) :
    Cites sc (Owned n) [] (bindFormals temps total i fs) := by
  induction fs generalizing i with
  | nil => exact done ()
  | cons f fs ih =>
    have hfirst : Cites sc (Owned n) [] (bindAt f.name (Frame.formal temps i total)) :=
      get fun _ hs => ofExcept (fun fault h => bind_owner.1 fault h) fun env henv =>
        set ((bind_owner.2 env henv).trans hs)
    exact hfirst.after fun _ => ih (i + 1)

theorem methodBody (m : Method) :
    Cites sc (Owned n) (m.body.cited n.decl.file) (methodBody sc n m) := by
  refine ofExcept (fun _ h => isMissingConstant_reserve h) fun _ _ => (note _).after fun _ =>
    openScope.after fun _ => (bindFormals _ _ _ _).after fun _ =>
    (labels [] [n.methodLabel m.name] rfl rfl (by simp)).after fun _ => (silent rfl).after fun _ =>
    ((composed_expr sc _ m.body []).cites (forall_mem_nil _)).before fun _ =>
    (silent rfl).after fun _ => closeScope.after fun _ => get fun s _ => ?_
  simp only
  split
  · exact of_looks (.failHere fun _ => rfl)
  · exact done ()

end Cites
end Sessions

section Programs

variable {sc : Scene} {n : ClassNode} {cs : List Literal}

/-- The constants that the initialisation routine of a class refers to; the root has nothing to
initialise. -/
def citedByInit (t : ClassTable) (n : ClassNode) : List Literal :=
  if (t.parentOf? n).isSome then
    (storedSlots n).flatMap fun slot =>
      (initOf n.decl slot.name).citedAsInitial n.decl.file slot.type
  else []

def citedByMethods (n : ClassNode) : List Literal :=
  n.decl.methods.flatMap fun m => m.body.cited n.decl.file

def citedByCode (t : ClassTable) : List Literal :=
  t.nodes.map (fun n => .string n.name) ++ (t.preorder.flatMap (citedByInit t) ++
    (t.preorder.filter fun n => !n.isBasic).flatMap citedByMethods)

abbrev AnyCount : Nat → Prop := fun _ => True

namespace Cites

theorem inRoutine {body : Emit Session Unit} (h : Cites sc (Owned n) cs body) :
    Cites sc AnyCount cs (inRoutine n body) := by
  intro labels _
  have hbody := h ⟨labels, fresh n⟩ rfl
  exact ⟨hbody.plain, hbody.begun, fun a ha => ⟨trivial, (hbody.ended a ha).2⟩, hbody.found⟩

theorem initRoutine (n : ClassNode) :
    Cites sc AnyCount (citedByInit sc.table n) (initRoutine sc n) := by
  refine (labels [] [n.initLabel] rfl rfl (by simp)).after fun _ => ?_
  unfold citedByInit
  cases hparent : sc.table.parentOf? n with
  | none => exact silent rfl
  | some parent =>
    have hcall : Cites sc (Owned n) [] (instrs (enterFrame (initSlots n.decl) ++
        Instr.move .hl .ix ++ [.call parent.initLabel])) :=
      labels [parent.initLabel] [] rfl rfl (by simp)
    refine inRoutine (ofExcept (fun _ h => isMissingConstant_reserve h) fun _ _ =>
      hcall.after fun _ => openScope.after fun _ =>
      ((composed_storeInits sc _ _ _ []).cites (forall_mem_nil _)).before fun _ =>
      closeScope.after fun _ => silent rfl)

theorem methodRoutines (n : ClassNode) (ms : List Method) :
    Cites sc AnyCount (ms.flatMap fun m => m.body.cited n.decl.file) (methodRoutines sc n ms) := by
  induction ms with
  | nil => exact done ()
  | cons m ms ih => exact (methodBody m).inRoutine.bind fun _ => ih

theorem forClasses {emit : ClassNode → Emit Nat Unit} {cited : ClassNode → List Literal}
    (h : ∀ n, Cites sc AnyCount (cited n) (emit n)) (ns : List ClassNode) :
    Cites sc AnyCount (ns.flatMap cited) (forClasses emit ns) := by
  induction ns with
  | nil => exact done ()
  | cons n ns ih => exact (h n).bind fun _ => ih

theorem nameWords (ns : List ClassNode) :
    Cites sc AnyCount (ns.map fun n => .string n.name) (nameWords sc ns) := by
  induction ns with
  | nil => exact done ()
  | cons n ns ih =>
    have hword : Cites sc AnyCount [.string n.name]
        (Emit.lines [.word ((Literal.string n.name).address sc.pool)]) := by
      refine lines rfl ?_
      show List.filter _ [address _ _] = _
      simp
    unfold Emit.nameWords
    rcases fetches_stringConst sc [] n.name with heq | ⟨fault, heq, hl⟩
    · rw [heq]
      exact hword.bind fun _ => ih
    · rw [heq]
      exact missing mem_cons_self hl

theorem classTables :
    Cites sc AnyCount (sc.table.nodes.map fun n => .string n.name) (classTables sc) := by
  have hobjects : (objectTable sc.table).all Line.isPlain = true := by
    rw [objectTable, all_cons, all_flatMap, Bool.and_eq_true, all_eq_true]
    exact ⟨by decide, fun n _ => by simp [Line.isPlain, Line.cites, Line.defines]⟩
  have htree : (treeTable sc.table).all Line.isPlain = true := by
    rw [treeTable, all_cons, all_flatMap, Bool.and_eq_true, all_eq_true]
    exact ⟨by decide, fun _ _ => rfl⟩
  refine (plainLines hobjects).after fun _ => before ?_ fun _ => plainLines htree
  exact (labels [] [classNameTable] rfl rfl (by decide)).after fun _ => nameWords _

theorem afterTables : Cites sc AnyCount (citedByCode sc.table) (afterTables sc) :=
  classTables.bind fun _ => (forClasses initRoutine _).bind fun _ =>
    forClasses (fun n => methodRoutines n _) _

end Cites

theorem dispatchTables_plain (t : ClassTable) : (dispatchTables t).all Line.isPlain = true := by
  rw [dispatchTables, all_flatMap, all_eq_true]
  intro n _
  rw [dispatchTable, all_cons, all_map, Bool.and_eq_true, all_eq_true]
  exact ⟨by simp [Line.isPlain, Line.cites, Line.defines],
    fun e _ => by simp [Line.isPlain, Line.cites, Line.defines]⟩

end Programs
end Emit
end CoolCompiler
