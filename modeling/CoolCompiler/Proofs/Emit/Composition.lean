import CoolCompiler.Proofs.Emit.Outcome
import CoolCompiler.Proofs.Emit.References
import CoolCompiler.Proofs.Syntax.Induction

/-!
# How code is put together

Code is written as lines fixed but for their labels and the constants that they refer to, at the
place of a variable, around a variable in a slot, or as code after code.  Whatever these steps
preserve holds of the code of every expression.
-/

namespace CoolCompiler

open List Literal

def Operand.isFixed : Operand → Bool
  | .indexed x => x.base != .iy && decide (-128 ≤ x.offset) && decide (x.offset ≤ 127)
  | _ => true

def Instr.isFixed : Instr → Bool
  | .ld dst src => dst.isFixed && src.isFixed
  | .other _ _ => false
  | _ => true

namespace Emit

/-!
# Lookups

Most values that the code depends on are looked up, which writes and changes nothing.
-/

def Silent {σ α : Type} (x : Emit σ α) : Prop := ∀ s, (x s).lines = [] ∧ (x s).state = s

namespace Silent

variable {σ α β : Type} {x : Emit σ α} {f : α → Emit σ β}

theorem bind (hx : Silent x) (hf : ∀ a, Silent (f a)) : Silent (x >>= f) := by
  intro s
  cases houtcome : (x s).outcome with
  | error fault =>
    rw [bind_of_error houtcome]
    exact hx s
  | ok a =>
    rw [bind_of_ok houtcome, (hx s).1, (hx s).2]
    exact hf a s

theorem done (a : α) : Silent (done a : Emit σ α) := fun _ => ⟨rfl, rfl⟩

theorem fail (fault : Fault) : Silent (fail fault : Emit σ α) := fun _ => ⟨rfl, rfl⟩

theorem get : Silent (get : Emit σ σ) := fun _ => ⟨rfl, rfl⟩

theorem note (n : EmitNote) : Silent (note n : Emit σ Unit) := fun _ => ⟨rfl, rfl⟩

theorem ofExcept (r : Except Fault α) : Silent (ofExcept r : Emit σ α) := by
  cases r with
  | ok a => exact done a
  | error fault => exact fail fault

end Silent

theorem isMissingConstant_lookup {env : Environment} {fault : Fault} {x : Name}
    (h : env.lookup x = .error fault) : fault.isMissingConstant = false := by
  unfold Environment.lookup at h
  split at h
  · cases h
  · split at h
    · cases h
      rfl
    · simp only at h
      split at h
      · cases h
      · cases h
        rfl

theorem isMissingConstant_method {fault : Fault} {t : ClassTable} {c f : Name}
    (h : t.method c f = .error fault) : fault.isMissingConstant = false := by
  unfold ClassTable.method at h
  split at h
  · cases h
    rfl
  · split at h
    · cases h
      rfl
    · cases h

/-- Writes and changes nothing, and what it misses is no constant. -/
structure Looks {σ α : Type} (x : Emit σ α) : Prop where
  silent : Silent x
  mild : ∀ s fault, (x s).outcome = .error fault → fault.isMissingConstant = false

namespace Looks

variable {σ α β : Type} {x : Emit σ α} {f : α → Emit σ β} {fault : Fault}

theorem bind (hx : Looks x) (hf : ∀ a, Looks (f a)) : Looks (x >>= f) where
  silent := hx.silent.bind fun a => (hf a).silent
  mild s fault h := by
    cases houtcome : (x s).outcome with
    | error first =>
      rw [bind_of_error houtcome] at h
      cases h
      exact hx.mild s _ houtcome
    | ok a =>
      rw [bind_of_ok houtcome] at h
      exact (hf a).mild _ fault h

theorem done (a : α) : Looks (done a : Emit σ α) := ⟨.done a, fun _ _ h => by cases h⟩

theorem fail (h : fault.isMissingConstant = false) : Looks (fail fault : Emit σ α) :=
  ⟨.fail fault, fun _ _ heq => by cases heq; exact h⟩

theorem get : Looks (get : Emit σ σ) := ⟨.get, fun _ _ h => by cases h⟩

theorem ofExcept {r : Except Fault α}
    (h : ∀ fault, r = .error fault → fault.isMissingConstant = false) :
    Looks (ofExcept r : Emit σ α) := by
  cases r with
  | ok a => exact done a
  | error fault => exact fail (h fault rfl)

theorem basicClass (sc : Scene) (c name : Name) :
    Looks (basicClass sc c name : Emit σ ClassNode) := by
  unfold Emit.basicClass
  split
  · exact done _
  · exact fail rfl

theorem owner : Looks owner := get.bind fun _ => done _

theorem failHere {cause : Cause} (h : ∀ c, (Fault.internal c cause).isMissingConstant = false) :
    Looks (failHere cause : Emit Session α) :=
  owner.bind fun _ => fail (h _)

theorem placeOf (x : Name) : Looks (placeOf x) :=
  get.bind fun _ => ofExcept fun _ => isMissingConstant_lookup

theorem method (t : ClassTable) (c f : Name) :
    Looks (Emit.ofExcept (t.method c f) : Emit σ DispatchEntry) :=
  ofExcept fun _ => isMissingConstant_method

theorem receiverClass (e : Expr) : Looks (receiverClass e) := by
  refine owner.bind fun _ => ?_
  split
  · exact fail rfl
  · exact done _

theorem branchTags (sc : Scene) (bs : List (Declared Expr)) : Looks (branchTags sc bs) := by
  induction bs with
  | nil => exact done []
  | cons b bs ih =>
    unfold Emit.branchTags
    split
    · exact failHere fun _ => rfl
    · exact ih.bind fun _ => done _

end Looks

/-- Gives the address of a constant, or none if the constant has no number. -/
def Fetches {σ : Type} (sc : Scene) (l : Literal) (x : Emit σ Address) : Prop :=
  x = done (l.address sc.pool) ∨ ∃ fault, x = fail fault ∧ ¬ l.Interned sc.pool

theorem Fetches.silent {σ : Type} {sc : Scene} {l : Literal} {x : Emit σ Address}
    (h : Fetches sc l x) : Silent x := by
  rcases h with rfl | ⟨fault, rfl, _⟩
  · exact .done _
  · exact .fail fault

theorem fetches_stringConst {σ : Type} (sc : Scene) (c : Name) (s : Text) :
    Fetches sc (.string s) (stringConst sc c s : Emit σ Address) := by
  cases h : sc.pool.strings.find? s with
  | some i => exact .inl (by simp only [stringConst, address, h, Option.getD_some])
  | none => exact .inr ⟨.internal c (.stringNotInterned s), by simp only [stringConst, h],
    by simp [Interned, h]⟩

theorem fetches_intConst {σ : Type} (sc : Scene) (c : Name) (k : Int) :
    Fetches sc (.int k) (intConst sc c k : Emit σ Address) := by
  cases h : sc.pool.ints.find? k with
  | some i => exact .inl (by simp only [intConst, address, h, Option.getD_some])
  | none => exact .inr ⟨.internal c (.intNotInterned k), by simp only [intConst, h],
    by simp [Interned, h]⟩

theorem Silent.fileConst (sc : Scene) : Silent (fileConst sc) :=
  Looks.owner.silent.bind fun _ => (fetches_stringConst _ _ _).silent

theorem closeSlots_succ (n : Nat) :
    closeSlots (n + 1) = (do closeSlots n; closeSlot : Emit Session Unit) := by
  induction n with
  | zero => exact andThen_done closeSlot
  | succ n ih =>
    show (do closeSlot; closeSlots (n + 1)) = (do (do closeSlot; closeSlots n); closeSlot)
    rw [ih, bind_assoc]

theorem expr_letIn_cons (sc : Scene) (m : Mark) (b : Declared Expr) (bs : List (Declared Expr))
    (e : Expr) :
    expr sc (.letIn m (b :: bs) e) =
      (do initializer sc b.type b.value
          openSlot b.name
          expr sc (.letIn m bs e)
          closeSlot) := by
  obtain ⟨line, x, type, init⟩ := b
  cases hinit : init.isOmitted <;>
    simp only [expr, bindings, initializer, hinit, if_true, if_false, length_cons,
      closeSlots_succ, bind_assoc, Bool.false_eq_true]

/-!
# Steps
-/

def Fixed (labels : List Name) : Line → Prop
  | .label x => x ∈ labels
  | .instr i => i.isFixed = true
  | _ => True

theorem fixed_code {labels : List Name} {is : List Instr} :
    (∀ l ∈ code is, Fixed labels l) ↔ is.all Instr.isFixed = true := by
  rw [code, forall_mem_map, all_eq_true]
  rfl

theorem mem_of_fixed {labels : List Name} {ls : List Line} (h : ∀ l ∈ ls, Fixed labels l)
    {x : Name} (hx : x ∈ labelDefs ls) : x ∈ labels := by
  obtain ⟨l, hl, hdefines⟩ := mem_filterMap.mp hx
  have hfixed := h l hl
  cases l <;> cases hdefines
  exact hfixed

/-- An emission put together in the ways that code in a class of a file is, with labels that it
gets or was given, so many slots at most and references to the given constants; `exact` says when it
takes all of the slots. -/
inductive Composed (sc : Scene) (file : Text) :
    List Name → Nat → (exact : Prop) → List Literal → Emit Session Unit → Prop where
  | silent {labels : List Name} {p : Prop} {x : Emit Session Unit} (h : Looks x) :
      Composed sc file labels 0 p [] x
  | missing {labels : List Name} {k : Nat} {p : Prop} {cs : List Literal} {l : Literal}
      {fault : Fault} (hmem : l ∈ cs) (hl : ¬ l.Interned sc.pool) :
      Composed sc file labels k p cs (fail fault)
  | lines {labels : List Name} {p : Prop} {cs : List Literal} {ls : List Line}
      (h : ∀ l ∈ ls, Fixed labels l) (hcites : (∀ x ∈ labels, isConstantLabel x = false) →
        citations ls = cs.map (address sc.pool)) : Composed sc file labels 0 p cs (lines ls)
  | look {α : Type} {labels : List Name} {k : Nat} {p : Prop} {cs : List Literal}
      {x : Emit Session α} {f : α → Emit Session Unit} (hx : Looks x)
      (hf : ∀ a, Composed sc file labels k p cs (f a)) : Composed sc file labels k p cs (x >>= f)
  | own {labels : List Name} {k : Nat} {p : Prop} (g : Text → List Literal)
      {f : ClassNode → Emit Session Unit}
      (hf : ∀ n : ClassNode, Composed sc file labels k p (g n.decl.file) (f n)) :
      Composed sc file labels k p (g file) (owner >>= f)
  | label {labels : List Name} {k : Nat} {p : Prop} {cs : List Literal}
      {f : Name → Emit Session Unit} (hf : ∀ x, Composed sc file (x :: labels) k p cs (f x)) :
      Composed sc file labels k p cs (newLabel >>= f)
  | seq {labels : List Name} {k k' : Nat} {p p' : Prop} {cs cs' : List Literal}
      {x y : Emit Session Unit} (hx : Composed sc file labels k p cs x)
      (hy : Composed sc file labels k' p' cs' y) :
      Composed sc file labels (max k k') (p ∧ p') (cs ++ cs') (x >>= fun _ => y)
  | weaken {labels : List Name} {k k' : Nat} {p p' : Prop} {cs : List Literal}
      {x : Emit Session Unit} (hx : Composed sc file labels k p cs x) (hk : k ≤ k')
      (hp : p' → p ∧ k = k') : Composed sc file labels k' p' cs x
  | load {labels : List Name} {p : Prop} (x : Name) : Composed sc file labels 0 p []
      (placeOf x >>= fun place => instrs (Instr.loadWord .hl place))
  | assign {labels : List Name} {k : Nat} {p : Prop} {cs : List Literal}
      {value : Emit Session Unit} (x : Name) (h : Composed sc file labels k p cs value) :
      Composed sc file labels k p cs (placeOf x >>= fun place =>
        value >>= fun _ => instrs (Instr.storeWord place .hl))
  | slot {labels : List Name} {k : Nat} {p : Prop} {cs : List Literal} {body : Emit Session Unit}
      (x : Name) (h : Composed sc file labels k p cs body) :
      Composed sc file labels (1 + k) p cs (do openSlot x; body; closeSlot)

namespace Composed

variable {sc : Scene} {file : Text} {labels : List Name} {k k' : Nat} {p p' : Prop}
  {cs : List Literal} {x y : Emit Session Unit}

theorem done : Composed sc file labels 0 p [] (done ()) := silent (.done ())

theorem failHere {cause : Cause} (h : ∀ c, (Fault.internal c cause).isMissingConstant = false) :
    Composed sc file labels 0 p [] (failHere cause) := silent (.failHere h)

/-- Lines whose references are to the given names. -/
theorem block {ls : List Line} (cited : List Name) (h : ∀ l ∈ ls, Fixed labels l)
    (hcited : ls.flatMap Line.cites = cited.map fun x => ⟨x, 0⟩)
    (hnames : ∀ x ∈ cited, x ∈ labels ∨ isConstantLabel x = false) :
    Composed sc file labels 0 p [] (Emit.lines ls) := by
  refine lines h fun hlabels => ?_
  rw [citations, hcited, map_nil, filter_eq_nil_iff]
  intro a ha
  obtain ⟨x, hx, rfl⟩ := mem_map.mp ha
  rw [(hnames x hx).elim (hlabels x) id]
  exact Bool.false_ne_true

theorem code {is : List Instr} (cited : List Name) (h : is.all Instr.isFixed = true)
    (hcited : is.flatMap Instr.cites = cited.map fun x => ⟨x, 0⟩)
    (hnames : ∀ x ∈ cited, x ∈ labels ∨ isConstantLabel x = false) :
    Composed sc file labels 0 p [] (instrs is) :=
  block cited (fixed_code.mpr h) ((flatMap_code is).trans hcited) hnames

theorem plain {is : List Instr} (h : is.all Instr.isFixed = true)
    (hcites : is.flatMap Instr.cites = []) : Composed sc file labels 0 p [] (instrs is) :=
  code [] h hcites (forall_mem_nil _)

theorem jump {is : List Instr} {x : Name} (hx : x ∈ labels) (h : is.all Instr.isFixed = true)
    (hcites : is.flatMap Instr.cites = [⟨x, 0⟩]) : Composed sc file labels 0 p [] (instrs is) :=
  code [x] h hcites (forall_mem_singleton.mpr (.inl hx))

theorem mark {x : Name} (h : x ∈ labels) : Composed sc file labels 0 p [] (Emit.lines [.label x]) :=
  block [] (forall_mem_singleton.mpr h) rfl (forall_mem_nil _)

theorem constant (l : Literal) {x : Emit Session Address} (hx : Fetches sc l x) :
    Composed sc file labels 0 p [l] (x >>= fun a => instrs [Instr.loadAddress .hl a]) := by
  rcases hx with rfl | ⟨fault, rfl, hl⟩
  · show Composed sc file labels 0 p [l] (instrs [.loadAddress .hl (l.address sc.pool)])
    refine lines (fixed_code.mpr rfl) fun _ => ?_
    show List.filter _ [l.address sc.pool] = _
    simp
  · exact missing (mem_singleton_self l) hl

/-- The name of the file, which is looked up before what refers to it. -/
theorem fileConst (g : Literal → List Literal) {f : Address → Emit Session Unit}
    (hg : ∀ l, l ∈ g l)
    (hf : ∀ l : Literal, Composed sc file labels k p (g l) (f (l.address sc.pool))) :
    Composed sc file labels k p (g (.string file)) (fileConst sc >>= f) := by
  rw [Emit.fileConst, bind_assoc]
  refine own (fun file => g (.string file)) fun n => ?_
  rcases fetches_stringConst sc n.name n.decl.file with heq | ⟨fault, heq, hl⟩
  · rw [heq]
    exact hf _
  · rw [heq]
    exact missing (hg _) hl

theorem after (hx : Composed sc file labels 0 True [] x) (hy : Composed sc file labels k p cs y) :
    Composed sc file labels k p cs (x >>= fun _ => y) :=
  (hx.seq hy).weaken (by omega) (fun hp => ⟨⟨trivial, hp⟩, by omega⟩)

theorem before (hx : Composed sc file labels k p cs x) (hy : Composed sc file labels 0 True [] y) :
    Composed sc file labels k p cs (x >>= fun _ => y) := by
  have hseq := hx.seq hy
  rw [append_nil] at hseq
  exact hseq.weaken (by omega) (fun hp => ⟨⟨hp, trivial⟩, by omega⟩)

theorem newLabels {n : Nat} {f : List Name → Emit Session Unit}
    (hf : ∀ xs labels', xs.length = n → xs ++ labels ⊆ labels' →
      Composed sc file labels' k p cs (f xs)) :
    Composed sc file labels k p cs (newLabels n >>= f) := by
  induction n generalizing labels f with
  | zero => exact hf [] labels rfl (List.Subset.refl _)
  | succ n ih =>
    rw [Emit.newLabels, bind_assoc]
    refine label fun x => ?_
    rw [bind_assoc]
    refine ih fun xs labels' hlength hsub => ?_
    rw [pure_bind]
    refine hf (x :: xs) labels' (congrArg Nat.succ hlength) fun y hy => hsub ?_
    simpa [or_left_comm] using hy

/-!
# Expressions
-/

theorem selectBool (flag : Flag) :
    Composed sc file labels 0 p [] (newLabel >>= fun x => Emit.lines (selectBool flag x)) := by
  refine label fun x => block [boolLabel true, x, boolLabel false] ?_ rfl (by simp)
  simp only [Emit.selectBool, forall_mem_append, fixed_code, forall_mem_singleton]
  exact ⟨rfl, mem_cons_self⟩

theorem pushInt : Composed sc file labels 0 p [] (pushInt sc) :=
  look .owner fun _ => look (.basicClass _ _ _) fun n =>
    code [n.prototypeLabel, "Object.copy"] rfl rfl (by simp +decide)

theorem defaultValue (type : Name) :
    Composed sc file labels 0 p (initial type) (defaultValue sc type) := by
  unfold Emit.defaultValue initial
  by_cases hint : type = Name.int
  · rw [if_pos hint, if_pos hint]
    exact look .owner fun _ => constant _ (fetches_intConst _ _ _)
  rw [if_neg hint, if_neg hint]
  by_cases hbool : type = Name.bool
  · rw [if_pos hbool, if_neg (by rw [hbool]; decide)]
    exact code [boolLabel false] rfl rfl (by simp)
  rw [if_neg hbool]
  by_cases hstring : type = Name.string
  · rw [if_pos hstring, if_pos hstring]
    exact look .owner fun _ => constant _ (fetches_stringConst _ _ _)
  · rw [if_neg hstring, if_neg hstring]
    exact plain rfl rfl

theorem binaryHead (op : Operator) : Composed sc file labels 0 p [] (binaryHead sc op) := by
  cases op with
  | add | sub | mul | div => exact pushInt
  | less | lessEq | equal => exact done
  | other symbol => exact failHere fun _ => rfl

theorem binaryTail (op : Operator) (type : Name) :
    Composed sc file labels 0 p [] (binaryTail op type) := by
  cases op with
  | add | sub => exact plain rfl rfl
  | mul => exact code ["MUL_HL_DE"] rfl rfl (by simp +decide)
  | div => exact code ["DIV_HL_DE"] rfl rfl (by simp +decide)
  | less | lessEq => exact (plain rfl rfl).after (selectBool _)
  | equal =>
    refine label fun isTrue => label fun finished => .after ?_
      (block [boolLabel false, finished, boolLabel true] ?_ rfl (by simp))
    · unfold testEqual
      split
      · exact code [isTrue, isTrue] rfl rfl (by simp)
      · split
        · exact code [isTrue, "equality_test", isTrue] rfl rfl (by simp +decide)
        · exact code [isTrue] rfl rfl (by simp)
    · simp only [equalityResult, forall_mem_append, fixed_code, forall_mem_singleton]
      exact ⟨⟨⟨rfl, by simp [Fixed]⟩, rfl⟩, by simp [Fixed]⟩
  | other symbol => exact failHere fun _ => rfl

theorem endDispatch {void back : Name} (hvoid : void ∈ labels) (hback : back ∈ labels)
    (line : Int) (n : Nat) :
    Composed sc file labels 0 p [.string file] (endDispatch sc line void back n) := by
  refine fileConst (fun l => [l]) mem_singleton_self fun l => (lines ?_ fun _ => ?_).before
    (plain ?_ ?_)
  · simp only [dispatchAbort, forall_mem_append, fixed_code, forall_mem_singleton]
    exact ⟨⟨hvoid, rfl⟩, hback⟩
  · show List.filter _ [l.address sc.pool, ⟨"_dispatch_abort", 0⟩] = _
    simp +decide
  · rw [dropActuals, all_replicate]
    split <;> rfl
  · rw [dropActuals, flatMap_replicate]
    simp [Instr.cites]

theorem initializer {e : Expr} (type : Name)
    (h : Composed sc file labels e.slots p (e.cited file) (expr sc e)) :
    Composed sc file labels e.slots p (e.citedAsInitial file type) (initializer sc type e) := by
  unfold Emit.initializer Expr.citedAsInitial
  split
  · rename_i homitted
    cases e <;> simp only [Expr.isOmitted, Bool.false_eq_true] at homitted
    exact defaultValue type
  · exact h

/-- The code of an expression takes the slots and refers to the constants that are told from it. -/
def Whole (sc : Scene) (file : Text) (labels : List Name) (e : Expr) : Prop :=
  Composed sc file labels e.slots e.CasesFilled (e.cited file) (expr sc e)

theorem sequence {es : List Expr} (h : ∀ e ∈ es, Whole sc file labels e) :
    Composed sc file labels (Expr.slotsOfAll es) (∀ e ∈ es, e.CasesFilled)
      (Expr.citedByAll file es) (sequence sc es) := by
  induction es with
  | nil => exact done
  | cons e es ih =>
    rw [forall_mem_cons] at h
    rw [forall_mem_cons]
    exact h.1.seq (ih h.2)

theorem actuals {es : List Expr} (h : ∀ e ∈ es, Whole sc file labels e) :
    Composed sc file labels (Expr.slotsOfAll es) (∀ e ∈ es, e.CasesFilled)
      (Expr.citedByAll file es) (actuals sc es) := by
  induction es with
  | nil => exact done
  | cons e es ih =>
    rw [forall_mem_cons] at h
    rw [forall_mem_cons]
    exact h.1.seq ((plain rfl rfl).after (ih h.2))

theorem letIn {bs : List (Declared Expr)} {e : Expr} (m : Mark)
    (hbs : ∀ b ∈ bs, Whole sc file labels b.value) (h : Whole sc file labels e) :
    Composed sc file labels (Expr.letIn m bs e).slots
      ((∀ b ∈ bs, b.value.CasesFilled) ∧ e.CasesFilled) ((Expr.letIn m bs e).cited file)
      (expr sc (.letIn m bs e)) := by
  induction bs with
  | nil => exact .weaken (done.after (h.before done)) (Nat.le_refl _) (fun hp => ⟨hp.2, rfl⟩)
  | cons b bs ih =>
    rw [forall_mem_cons] at hbs
    rw [expr_letIn_cons, Expr.slots_letIn_cons, forall_mem_cons, and_assoc, Expr.cited,
      Expr.citedByBindings, append_assoc]
    exact (initializer _ hbs.1).seq ((ih hbs.2).slot b.name)

theorem branches {bs : List (Declared Expr)} {finished : Name} {xs : List Name}
    (h : ∀ b ∈ bs, Whole sc file labels b.value) (hlength : xs.length = bs.length)
    (hxs : xs ⊆ labels) (hfinished : finished ∈ labels) :
    Composed sc file labels (if bs = [] then 0 else 1 + Expr.slotsOfBranches bs)
      (∀ b ∈ bs, b.value.CasesFilled) (Expr.citedByBranches file bs)
      (branches sc finished xs bs) := by
  induction bs generalizing xs with
  | nil =>
    rw [length_eq_zero_iff.mp hlength]
    exact done
  | cons b bs ih =>
    cases xs with
    | nil => cases hlength
    | cons x xs =>
      rw [forall_mem_cons] at h
      rw [cons_subset] at hxs
      have hjump : Composed sc file labels 0 True [] (Emit.instrs [.jp .always finished]) :=
        jump hfinished rfl rfl
      have hcode := (h.1.slot b.name).seq (hjump.after (ih h.2 (Nat.succ.inj hlength) hxs.2))
      have hslots : max (1 + b.value.slots)
          (if bs = [] then 0 else 1 + Expr.slotsOfBranches bs) =
          1 + Expr.slotsOfBranches (b :: bs) := by
        cases bs with
        | nil => simp [Expr.slotsOfBranches]
        | cons c cs =>
          simp only [Expr.slotsOfBranches, reduceCtorEq, if_false]
          omega
      rw [if_neg (cons_ne_nil b bs), ← hslots, forall_mem_cons]
      simp only [bind_assoc] at hcode
      exact (mark hxs.1).after ((plain rfl rfl).after hcode)

theorem caseWalk {void again noMatch : Name} (hvoid : void ∈ labels) (hagain : again ∈ labels)
    (hnoMatch : noMatch ∈ labels) {bs : List (Nat × Name)} (hbs : ∀ b ∈ bs, b.2 ∈ labels)
    (line : Int) (l : Literal) : Composed sc file labels 0 p [l]
      (Emit.lines (caseWalk void again noMatch bs line (l.address sc.pool))) := by
  have htests : (bs.flatMap fun b => testBranch b.1 b.2).all Instr.isFixed = true := by
    rw [all_flatMap, all_eq_true]
    exact fun _ _ => rfl
  refine lines ?_ fun hlabels => ?_
  · simp only [Emit.caseWalk, forall_mem_append, fixed_code, forall_mem_singleton,
      all_append, htests]
    exact ⟨⟨⟨⟨⟨⟨rfl, hagain⟩, rfl⟩, hnoMatch⟩, rfl⟩, hvoid⟩, rfl⟩
  · have hcites : (bs.flatMap fun b => testBranch b.1 b.2).flatMap Instr.cites =
        bs.map fun b => ⟨b.2, 0⟩ := by
      rw [flatMap_assoc, map_eq_flatMap]
      rfl
    have haddresses : (Emit.caseWalk void again noMatch bs line (l.address sc.pool)).flatMap
        Line.cites = [⟨void, 0⟩, ⟨inheritanceTree, 0⟩] ++ (bs.map fun b => ⟨b.2, 0⟩) ++
          [⟨noMatch, 0⟩, ⟨again, 0⟩, ⟨"_case_abort", 0⟩, l.address sc.pool,
            ⟨"_case_abort2", 0⟩] := by
      simp only [Emit.caseWalk, flatMap_append, flatMap_code, hcites, append_assoc]
      rfl
    have hnone : (bs.map fun b => (⟨b.2, 0⟩ : Address)).filter
        (fun a => isConstantLabel a.label) = [] := by
      rw [filter_eq_nil_iff, forall_mem_map]
      exact fun b hb => by simp [hlabels _ (hbs b hb)]
    rw [citations, haddresses, filter_append, filter_append, hnone]
    simp +decide [hlabels _ hvoid, hlabels _ hagain, hlabels _ hnoMatch]

theorem ofParts {e : Expr} (hx : Composed sc file labels k p cs x) (hk : k = e.slots)
    (hp : (∀ a ∈ e.parts, a.CasesFilled) → p) :
    Composed sc file labels e.slots e.CasesFilled cs x :=
  hx.weaken (Nat.le_of_eq hk) (fun h => ⟨hp (Expr.casesFilled_iff.mp h).2, hk⟩)

end Composed

theorem composed_expr (sc : Scene) (file : Text) (e : Expr) (labels : List Name) :
    Composed.Whole sc file labels e := by
  induction e generalizing labels with
  | absent => exact .failHere fun _ => rfl
  | omitted m => exact .defaultValue Name.noClass
  | int m n => exact .look .owner fun _ => .constant _ (fetches_intConst _ _ _)
  | string m t => exact .look .owner fun _ => .constant _ (fetches_stringConst _ _ _)
  | bool m b => exact .code [boolLabel b] rfl rfl (by simp)
  | object m x =>
    unfold Composed.Whole expr
    split
    · exact .plain rfl rfl
    · exact .load x
  | assign m x e ih => exact .ofParts ((ih labels).assign x.name) rfl (by simp [Expr.parts])
  | dispatch m e t f args ih ihs =>
    have hcall : ∀ call : Name → Name → List Instr,
        (∀ void back, Composed sc file (back :: void :: labels) 0 True []
          (instrs (call void back))) →
        Composed sc file labels (Expr.dispatch m e t f args).slots
          (Expr.dispatch m e t f args).CasesFilled ((Expr.dispatch m e t f args).cited file) (do
            actuals sc args
            expr sc e
            let void ← newLabel
            let back ← newLabel
            instrs (call void back)
            endDispatch sc m.line void back args.length) := by
      intro call hcode
      have hend : Composed sc file labels 0 True [.string file] (do
            let void ← newLabel
            let back ← newLabel
            instrs (call void back)
            endDispatch sc m.line void back args.length) :=
        .label fun void => .label fun back => (hcode void back).after
          (.endDispatch (by simp) (by simp) _ _)
      refine .ofParts ((Composed.actuals fun a ha => ihs a ha labels).seq ((ih labels).seq hend))
        ?_ ?_
      · exact (congrArg _ (Nat.max_zero _)).trans (Nat.max_comm _ _)
      · simp [Expr.parts, or_imp, forall_and]
    cases t with
    | none =>
      exact .look (.receiverClass e) fun _ => .look (.method _ _ _) fun _ => hcall _
        fun void back => .code [void, back] rfl rfl (by simp)
    | some c =>
      exact .look (.method _ _ _) fun entry => hcall _
        fun void back => .code [void, entry.label, back] rfl rfl (by simp)
  | binary m op l r ihl ihr =>
    exact .ofParts ((Composed.binaryHead op).after ((ihl labels).seq ((Composed.plain rfl rfl).after
      ((ihr labels).before ((Composed.plain rfl rfl).after (.binaryTail op l.type)))))) rfl
      (by simp [Expr.parts])
  | negate m e ih =>
    exact .ofParts (Composed.pushInt.after ((ih labels).before (.plain rfl rfl))) rfl
      (by simp [Expr.parts])
  | complement m e ih | isVoid m e ih =>
    exact .ofParts ((ih labels).before ((Composed.plain rfl rfl).after (.selectBool _))) rfl
      (by simp [Expr.parts])
  | new m t =>
    unfold Composed.Whole expr
    split
    · refine .label fun x => .block [classObjectTable, "Object.copy", x] ?_ rfl (by simp +decide)
      simp only [newSelfType, forall_mem_append, fixed_code, forall_mem_singleton]
      exact ⟨rfl, mem_cons_self⟩
    · split
      · exact .failHere fun _ => rfl
      · exact .code [_, "Object.copy", _] rfl rfl (by simp +decide)
  | cond m c t f ihc iht ihf =>
    refine .ofParts (.label fun otherwise => .label fun finished => (ihc _).seq
      ((Composed.jump (by simp) rfl rfl).after ((iht _).seq ((Composed.jump (by simp) rfl rfl).after
      ((Composed.mark (by simp)).after ((ihf _).before (.mark (by simp)))))))) ?_
      (by simp [Expr.parts])
    exact (Nat.max_assoc _ _ _).symm
  | loop m c b ihc ihb =>
    exact .ofParts (.label fun again => .label fun finished => (Composed.mark (by simp)).after
      ((ihc _).seq ((Composed.jump (by simp) rfl rfl).after ((ihb _).before
      ((Composed.jump (by simp) rfl rfl).after ((Composed.mark (by simp)).after
      (.plain rfl rfl))))))) rfl (by simp [Expr.parts])
  | block m es ihs =>
    exact .ofParts (Composed.sequence fun e he => ihs e he labels) rfl (fun h => h)
  | letIn m bs e ihs ih =>
    refine .ofParts (.letIn m (fun b hb => ihs b hb labels) (ih labels)) rfl ?_
    simp [Expr.parts, or_imp, forall_and]
  | typeCase m e bs ih ihs =>
    refine .weaken (.look (.branchTags sc bs) fun tags => .fileConst
      (fun l => e.cited file ++ (l :: Expr.citedByBranches file bs)) (by simp) fun l =>
      (ih _).seq (.label fun void => .label fun again => .label fun noMatch =>
      .label fun finished => .newLabels
        (k := max 0 (if bs = [] then 0 else 1 + Expr.slotsOfBranches bs))
        (p := True ∧ ∀ b ∈ bs, b.value.CasesFilled) fun xs labels' hlength hsub => ?_)) ?_ ?_
    · have hxs := List.Subset.trans (subset_append_left _ _) hsub
      exact (Composed.caseWalk (hsub (by simp)) (hsub (by simp)) (hsub (by simp))
        (fun b hb => hxs (of_mem_zip hb).2) _ l).seq
        ((Composed.branches (fun b hb => ihs b hb labels') hlength hxs (hsub (by simp))).before
          (.mark (hsub (by simp))))
    · simp only [Expr.slots]
      split <;> omega
    · intro hp
      rw [Expr.casesFilled_iff] at hp
      have hbs : bs ≠ [] := hp.1
      refine ⟨⟨hp.2 e (by simp [Expr.parts]), trivial, fun b hb => hp.2 b.value ?_⟩, ?_⟩
      · simp only [Expr.parts, mem_cons, mem_map]
        exact .inr ⟨b, hb, rfl⟩
      · simp only [Expr.slots, hbs, if_false]
        omega

theorem composed_initializer (sc : Scene) (file : Text) (type : Name) (e : Expr)
    (labels : List Name) : Composed sc file labels e.slots e.CasesFilled
      (e.citedAsInitial file type) (initializer sc type e) :=
  .initializer type (composed_expr sc file e labels)

theorem composed_storeInits (sc : Scene) (file : Text) (c : Class) (slots : List Slot)
    (labels : List Name) :
    Composed sc file labels (Expr.slotsOfAll (slots.map fun slot => initOf c slot.name))
      (∀ slot ∈ slots, (initOf c slot.name).CasesFilled)
      (slots.flatMap fun slot => (initOf c slot.name).citedAsInitial file slot.type)
      (storeInits sc c slots) := by
  induction slots with
  | nil => exact .done
  | cons slot slots ih =>
    have hstore : Composed sc file labels 0 True [] (placeOf slot.name >>= fun place =>
      instrs (Instr.storeWord place .hl)) := .assign slot.name .done
    have hrest := hstore.after ih
    simp only [bind_assoc] at hrest
    rw [forall_mem_cons]
    exact (composed_initializer sc file slot.type _ labels).seq hrest

end Emit
end CoolCompiler
