import CoolCompiler.Proofs.Emit.LabelRuns

/-!
# Displacements within reach

Displacements are signed bytes.  The environment is asked whether a place is within reach, but the
next slot is stored to before that.  The frame of a routine is checked first, so no slot is out of
reach.
-/

namespace CoolCompiler

open List Instr

def Operand.inReach : Operand → Bool
  | .indexed x => decide (-128 ≤ x.offset) && decide (x.offset ≤ 127)
  | _ => true

/-- Whether all displacements are signed bytes.  An instruction known by its text only could have
any operand. -/
def Instr.inReach : Instr → Bool
  | .ld dst src => dst.inReach && src.inReach
  | .other _ _ => false
  | _ => true

def Line.inReach : Line → Bool
  | .instr i => i.inReach
  | _ => true

def Indexed.Spanned (x : Indexed) : Prop := -128 ≤ x.offset ∧ x.offset ≤ 126

namespace Indexed.Spanned

variable {x : Indexed}

theorem bytes (h : x.Spanned) :
    (Operand.indexed x).inReach = true ∧ (Operand.indexed x.next).inReach = true := by
  obtain ⟨hlow, hhigh⟩ := h
  have hnext : x.next.offset = x.offset + 1 :=
    Emit.wrapOffset_of_small (by omega) (by omega)
  simp only [Operand.inReach, hnext, Bool.and_eq_true, decide_eq_true_eq]
  omega

theorem storeWord (h : x.Spanned) (p : Pair) :
    (Instr.storeWord x p).all inReach = true := by
  simp only [Instr.storeWord, all_cons, all_nil, inReach, h.bytes]
  rfl

theorem loadWord (h : x.Spanned) (p : Pair) :
    (Instr.loadWord p x).all inReach = true := by
  simp only [Instr.loadWord, all_cons, all_nil, inReach, h.bytes]
  rfl

theorem of_fits (h : fitsDisplacement x.offset = true) (heven : 2 ∣ x.offset) : x.Spanned := by
  simp only [fitsDisplacement, Bool.and_eq_true, Bool.or_eq_true, decide_eq_true_eq] at h
  unfold maxOffset at h
  unfold Spanned
  omega

end Indexed.Spanned

theorem wrapOffset_even {n : Int} (h : 2 ∣ n) : 2 ∣ wrapOffset n := by
  unfold wrapOffset
  have hmod := Int.bmod_emod (x := n) (m := 0x10000000000000000)
  omega

namespace Emit

/-!
# Environments
-/

/-- An environment whose attributes are at even offsets and whose other variables are within
reach. -/
structure Spanning (env : Environment) : Prop where
  attributes : ∀ slot ∈ env.owner.layout, 2 ∣ slot.offset
  locals : ∀ scope ∈ env.scopes, ∀ x place, scope.find? x = some place → place.Spanned

namespace Spanning

variable {env : Environment}

theorem lookup (h : Spanning env) {x : Name} {place : Indexed} (hx : env.lookup x = .ok place) :
    place.Spanned := by
  rcases exists_of_lookup hx with ⟨scope, hscope, hfound⟩ | ⟨slot, hslot, rfl, hfits⟩
  · exact h.locals scope hscope x place hfound
  · have heven := h.attributes slot hslot
    exact .of_fits hfits (by simp only; omega)

theorem enter (h : Spanning env) : Spanning env.enter :=
  ⟨h.attributes, forall_mem_cons.mpr ⟨by simp, h.locals⟩⟩

theorem bind (h : Spanning env) {x : Name} {place : Indexed} {env' : Environment}
    (hplace : 2 ∣ place.offset) (henv : env.bind x place = .ok env') :
    Spanning env' ∧ env'.temps = env.temps := by
  unfold Environment.bind at henv
  split at henv
  · rename_i hfits
    cases hscopes : env.scopes with
    | nil =>
      rw [hscopes] at henv
      cases henv
    | cons scope scopes =>
      have hlocals := h.locals
      rw [hscopes] at henv hlocals
      cases henv
      rw [forall_mem_cons] at hlocals
      refine ⟨⟨h.attributes, forall_mem_cons.mpr ⟨?_, hlocals.2⟩⟩, rfl⟩
      intro y found hfound
      rw [Dictionary.find?_put] at hfound
      split at hfound
      · cases hfound
        exact .of_fits hfits hplace
      · exact hlocals.1 y found hfound
  · cases henv

theorem leave (h : Spanning env) {env' : Environment} (henv : env.leave = .ok env') :
    Spanning env' ∧ env'.temps = env.temps := by
  obtain ⟨scope, scopes, hscopes, rfl⟩ := exists_of_leave henv
  have hlocals := h.locals
  rw [hscopes, forall_mem_cons] at hlocals
  exact ⟨⟨h.attributes, hlocals.2⟩, rfl⟩

end Spanning

/-!
# Emissions within reach
-/

theorem all_code (is : List Instr) :
    (code is).all Line.inReach = is.all inReach := all_map ..

/-- With `k` more slots within reach, an emission writes displacements within reach only and gives
back the slots that it takes. -/
def Within {α : Type} (k : Nat) (x : Emit Session α) : Prop :=
  ∀ s, Spanning s.env → 0 ≤ s.env.temps → s.env.temps + k ≤ slotLimit →
    (x s).lines.all Line.inReach = true ∧
      ∀ a, (x s).outcome = .ok a →
        Spanning (x s).state.env ∧ (x s).state.env.temps = s.env.temps

namespace Within

variable {α β : Type} {k : Nat} {x : Emit Session α} {f : α → Emit Session β}

theorem weaken {j : Nat} (h : Within j x) (hle : j ≤ k) : Within k x :=
  fun s hs htemps hlimit => h s hs htemps (by omega)

theorem bind_of {P : α → Prop} (hx : Within k x)
    (hP : ∀ s a, Spanning s.env → (x s).outcome = .ok a → P a)
    (hf : ∀ a, P a → Within k (f a)) : Within k (x >>= f) := by
  intro s hs htemps hlimit
  obtain ⟨hlines, hstate⟩ := hx s hs htemps hlimit
  cases houtcome : (x s).outcome with
  | error fault =>
    rw [bind_of_error houtcome]
    exact ⟨hlines, fun b hb => by cases hb⟩
  | ok a =>
    obtain ⟨hspanning, heq⟩ := hstate a houtcome
    rcases hf a (hP s a hs houtcome) (x s).state hspanning (by omega) (by omega) with
      ⟨hlines', hstate'⟩
    rw [bind_of_ok houtcome]
    refine ⟨?_, fun b hb => ⟨(hstate' b hb).1, (hstate' b hb).2.trans heq⟩⟩
    rw [all_append, hlines, hlines']
    rfl

theorem bind (hx : Within k x) (hf : ∀ a, Within k (f a)) : Within k (x >>= f) :=
  hx.bind_of (P := fun _ => True) (fun _ _ _ _ => trivial) (fun a _ => hf a)

theorem lines {ls : List Line} (h : ls.all Line.inReach = true) : Within k (lines ls) :=
  fun _ hs _ _ => ⟨h, fun _ _ => ⟨hs, rfl⟩⟩

theorem instrs {is : List Instr} (h : is.all inReach = true) : Within k (instrs is) :=
  lines ((all_code is).trans h)

theorem ofSilent (h : Silent x) : Within k x := by
  intro s hs _ _
  rw [(h s).1, (h s).2]
  exact ⟨rfl, fun _ _ => ⟨hs, rfl⟩⟩

theorem newLabel : Within k newLabel := fun _ hs _ _ => ⟨rfl, fun _ _ => ⟨hs, rfl⟩⟩

theorem placeOf (x : Name) {f : Indexed → Emit Session β}
    (hf : ∀ place, place.Spanned → Within k (f place)) : Within k (placeOf x >>= f) := by
  refine (ofSilent (Looks.placeOf x).silent).bind_of (fun s place hs hok => ?_) hf
  have hyields : Yields (Emit.placeOf x) s _ place _ := ⟨rfl, rfl, hok⟩
  exact hs.lookup (yields_placeOf.mp hyields).1

theorem update {change : Environment → Except Fault Environment}
    (h : ∀ env env', Spanning env → change env = .ok env' →
      Spanning env' ∧ env'.temps = env.temps) :
    Within k (Emit.get >>= fun s => Emit.ofExcept (change s.env) >>= fun env =>
      Emit.set { s with env := env }) := by
  intro s hs _ _
  cases hchange : change s.env with
  | error fault =>
    simp [Bind.bind, andThen, Emit.get, Emit.ofExcept, Emit.fail, hchange]
  | ok env =>
    simpa [Bind.bind, andThen, Emit.get, Emit.ofExcept, Emit.done, Emit.set, hchange] using
      h s.env env hs hchange

/-!
# One slot
-/

theorem closeSlot_within {s : Session} (hs : Spanning s.env) :
    (closeSlot s).lines.all Line.inReach = true ∧
      ∀ u, (closeSlot s).outcome = .ok u →
        Spanning (closeSlot s).state.env ∧ (closeSlot s).state.env.temps = s.env.temps - 1 := by
  refine ⟨?_, fun u hu => ?_⟩
  · cases hleave : s.env.leave with
    | error fault =>
      simp [closeSlot, Bind.bind, andThen, Emit.get, Emit.ofExcept, Emit.fail, hleave]
    | ok env =>
      simp [closeSlot, Bind.bind, andThen, Emit.get, Emit.ofExcept, Emit.done, Emit.set, hleave]
  · have hyields : Yields closeSlot s _ u _ := ⟨rfl, rfl, hu⟩
    obtain ⟨env, hleave, -, hstate⟩ := yields_closeSlot.mp hyields
    obtain ⟨hspanning, htemps⟩ := hs.leave hleave
    rw [hstate]
    refine ⟨⟨hspanning.attributes, hspanning.locals⟩, ?_⟩
    show env.temps - 1 = s.env.temps - 1
    rw [htemps]

/-- A variable in a slot of its own.  The word is stored before its place is checked. -/
theorem slot (x : Name) {body : Emit Session Unit} (h : Within k body) :
    Within (1 + k) (do openSlot x; body; closeSlot) := by
  intro s hs htemps hlimit
  have hoffset := nextSlot_offset htemps (by omega)
  unfold slotLimit at hlimit
  have hspanned : (nextSlot s.env).Spanned := by
    unfold Indexed.Spanned
    omega
  have hfits : fitsDisplacement (nextSlot s.env).offset = true := by
    rw [fitsDisplacement_iff (by omega) (by omega)]
    omega
  have hopened : Spanning (opened s.env x) := by
    refine ⟨hs.attributes, forall_mem_cons.mpr ⟨fun y found hfound => ?_, hs.locals⟩⟩
    rw [Dictionary.find?_cons] at hfound
    split at hfound
    · cases hfound
      exact hspanned
    · cases hfound
  have hopen := (yields_openSlot_opened (x := x) (u := ())).mpr ⟨hfits, rfl, rfl⟩
  rw [bind_of_ok hopen.outcome, hopen.lines, hopen.state]
  have hstore : (code (Instr.storeWord (nextSlot s.env) .hl)).all Line.inReach = true :=
    (all_code _).trans (hspanned.storeWord .hl)
  have htemps' : (opened s.env x).temps = s.env.temps + 1 := rfl
  rcases h { s with env := opened s.env x } hopened (by simp only; omega)
    (by unfold slotLimit; simp only; omega) with ⟨hlines, hstate⟩
  cases houtcome : (body { s with env := opened s.env x }).outcome with
  | error fault =>
    rw [bind_of_error houtcome, all_append, hstore, hlines]
    exact ⟨rfl, fun u hu => by cases hu⟩
  | ok u =>
    obtain ⟨hspanning, heq⟩ := hstate u houtcome
    obtain ⟨hclosing, hclosed⟩ := closeSlot_within hspanning
    rw [bind_of_ok houtcome]
    refine ⟨?_, fun v hv => ⟨(hclosed v hv).1, ?_⟩⟩
    · rw [all_append, all_append, hstore, hlines, hclosing]
      rfl
    · rw [(hclosed v hv).2, heq, htemps']
      omega

end Within

theorem inReach_of_isFixed {i : Instr} (h : i.isFixed = true) : i.inReach = true := by
  have hoperand : ∀ o : Operand, o.isFixed = true → o.inReach = true := by
    intro o ho
    cases o <;> simp_all [Operand.isFixed, Operand.inReach]
  cases i <;> simp_all [isFixed, inReach]

theorem Composed.within {sc : Scene} {file : Text} {labels : List Name} {k : Nat} {p : Prop}
    {cs : List Literal} {x : Emit Session Unit} (h : Composed sc file labels k p cs x) :
    Within k x := by
  induction h with
  | silent h => exact .ofSilent h.silent
  | missing _ _ => exact .ofSilent (.fail _)
  | lines h _ =>
    refine .lines (all_eq_true.mpr fun l hl => ?_)
    have hfixed := h l hl
    cases l with
    | instr i => exact inReach_of_isFixed hfixed
    | _ => rfl
  | look hx _ ih => exact (Within.ofSilent hx.silent).bind ih
  | own _ _ ih => exact (Within.ofSilent Looks.owner.silent).bind ih
  | label _ ih => exact Within.newLabel.bind ih
  | seq _ _ ihx ihy =>
    exact (ihx.weaken (Nat.le_max_left ..)).bind fun _ => ihy.weaken (Nat.le_max_right ..)
  | weaken _ hk _ ih => exact ih.weaken hk
  | load x => exact .placeOf x fun place hplace => .instrs (hplace.loadWord .hl)
  | assign x _ ih =>
    exact .placeOf x fun place hplace => ih.bind fun _ => .instrs (hplace.storeWord .hl)
  | slot x _ ih => exact ih.slot x

/-!
# Routines
-/

namespace Within

variable {sc : Scene}

theorem openScope {k : Nat} : Within k openScope :=
  fun _ hs _ _ => ⟨rfl, fun _ _ => ⟨hs.enter, rfl⟩⟩

theorem closeScope {k : Nat} : Within k closeScope := update fun _ _ hs henv => hs.leave henv

theorem slots_initOf_le (c : Class) (x : Name) : (initOf c x).slots ≤ initSlots c := by
  unfold initOf
  cases hfind : c.attributes.reverse.find? (fun a => a.name == x) with
  | none => exact Nat.zero_le _
  | some a =>
    have ha : a ∈ c.attributes := mem_reverse.mp (mem_of_find?_eq_some hfind)
    exact (initSlots_le_iff c _).mp (Nat.le_refl _) a ha

theorem slotsOfAll_le {es : List Expr} {k : Nat} (h : ∀ e ∈ es, e.slots ≤ k) :
    Expr.slotsOfAll es ≤ k := by
  induction es with
  | nil => exact Nat.zero_le k
  | cons e es ih =>
    rw [forall_mem_cons] at h
    exact Nat.max_le.mpr ⟨h.1, ih h.2⟩

theorem storeInits (c : Class) (slots : List Slot) :
    Within (initSlots c) (storeInits sc c slots) :=
  (composed_storeInits sc [] c slots []).within.weaken
    (slotsOfAll_le (forall_mem_map.mpr fun slot _ => slots_initOf_le c slot.name))

theorem bindFormals {k : Nat} (temps total i : Nat) (fs : List Formal) :
    Within k (bindFormals temps total i fs) := by
  induction fs generalizing i with
  | nil => exact ofSilent (.done ())
  | cons f fs ih =>
    refine (update fun env env' hs henv => hs.bind ?_ henv).bind fun _ => ih (i + 1)
    apply wrapOffset_even
    simp only [wordSize, Frame.argumentsStart]
    omega

end Within

def Reaches {σ α : Type} (x : Emit σ α) : Prop := ∀ s, (x s).lines.all Line.inReach = true

namespace Reaches

variable {σ α β : Type}

theorem bind {x : Emit σ α} {f : α → Emit σ β} (hx : Reaches x) (hf : ∀ a, Reaches (f a)) :
    Reaches (x >>= f) := by
  intro s
  rcases bind_cases x f s with ⟨hlines, -⟩ | ⟨a, hlines, -⟩
  · rw [hlines]
    exact hx s
  · rw [hlines, all_append, hx s, hf a _]
    rfl

theorem lines {ls : List Line} (h : ls.all Line.inReach = true) :
    Reaches (lines ls : Emit σ Unit) := fun _ => h

theorem done (a : α) : Reaches (done a : Emit σ α) := fun _ => rfl

theorem reserved {n : ClassNode} (hlayout : ∀ slot ∈ n.layout, 2 ∣ slot.offset) {temps : Nat}
    (formals : Nat) {body : Unit → Emit Session Unit} (h : Within temps (body ())) :
    Reaches (inRoutine n (ofExcept (Frame.reserve n.name temps formals) >>= body)) := by
  intro labels
  show ((ofExcept _ >>= body) _).lines.all Line.inReach = true
  rcases reserve_cases n.name temps formals with ⟨hok, hsmall⟩ | ⟨herror, -⟩
  · rw [hok]
    refine (h ⟨labels, Environment.fresh n⟩ ⟨hlayout, by simp [Environment.fresh]⟩
      (Int.le_refl 0) ?_).1
    unfold FrameTooLarge at hsmall
    unfold slotLimit Environment.fresh
    simp only
    omega
  · rw [herror]
    rfl

theorem initRoutine {sc : Scene} {n : ClassNode} (hlayout : ∀ slot ∈ n.layout, 2 ∣ slot.offset) :
    Reaches (initRoutine sc n) := by
  refine (lines rfl).bind fun _ => ?_
  split
  · exact lines rfl
  · refine reserved hlayout 0 ?_
    exact (Within.instrs rfl).bind fun _ => Within.openScope.bind fun _ =>
      (Within.storeInits _ _).bind fun _ => Within.closeScope.bind fun _ => .instrs rfl

theorem methodRoutines {sc : Scene} {n : ClassNode}
    (hlayout : ∀ slot ∈ n.layout, 2 ∣ slot.offset) (ms : List Method) :
    Reaches (methodRoutines sc n ms) := by
  induction ms with
  | nil => exact done ()
  | cons m ms ih =>
    refine (reserved hlayout _ ?_).bind fun _ => ih
    refine (Within.ofSilent (.note _)).bind fun _ =>
      Within.openScope.bind fun _ => (Within.bindFormals _ _ _ _).bind fun _ =>
      (Within.lines rfl).bind fun _ => (Within.instrs rfl).bind fun _ =>
      (composed_expr sc [] m.body []).within.bind fun _ => (Within.instrs rfl).bind fun _ =>
      Within.closeScope.bind fun _ => (Within.ofSilent .get).bind fun _ => ?_
    simp only
    split
    · exact .ofSilent (Looks.failHere fun _ => rfl).silent
    · exact .ofSilent (.done ())

theorem forClasses {emit : ClassNode → Emit Nat Unit} {ns : List ClassNode}
    (h : ∀ n ∈ ns, Reaches (emit n)) : Reaches (forClasses emit ns) := by
  induction ns with
  | nil => exact done ()
  | cons n ns ih =>
    rw [forall_mem_cons] at h
    exact h.1.bind fun _ => ih h.2

/-!
# Programs
-/

end Reaches

theorem Tabulates.reaches {α : Type} {x : Emit Nat α} (h : Tabulates x) : Reaches x := by
  intro s
  rw [all_eq_true]
  intro l hl
  have hstatic := all_eq_true.mp (h.static s) l hl
  cases l with
  | instr i => exact inReach_of_isFixed hstatic
  | _ => rfl

namespace Reaches

theorem beforeTables {sc : Scene} (tables : Option Text) :
    Reaches (beforeTables sc tables : Emit Nat Unit) :=
  (Tabulates.beforeTables tables).reaches

theorem dispatchTables (t : ClassTable) : (dispatchTables t).all Line.inReach = true :=
  (Tabulates.dispatchTables t).reaches 0

theorem afterTables {sc : Scene}
    (h : ∀ n ∈ sc.table.preorder, ∀ slot ∈ n.layout, 2 ∣ slot.offset) :
    Reaches (afterTables sc) := by
  refine Tabulates.classTables.reaches.bind fun _ =>
    Reaches.bind (forClasses fun n hn => initRoutine (h n hn)) fun _ =>
    forClasses fun n hn => methodRoutines (h n (mem_of_mem_filter hn)) _

end Reaches

end Emit

namespace Generator

open Emit

variable {g : Generator} {p : Program} {sink : Sink} {tableSink : Option Sink}

theorem emitted_of_run {l : Line} (hl : l ∈ (g.run p sink tableSink).assembly ++
      (g.run p sink tableSink).tables) :
    ∃ t, ClassTable.build p = .ok t ∧
      (l ∈ (inlineProgram ⟨t, g.pool.collect t⟩ g.labels).lines ∨
        l ∈ (splitProgram ⟨t, g.pool.collect t⟩ g.tableFile g.labels).lines ∨
        l ∈ dispatchTables t) := by
  have hbefore : ∀ t, ∀ l ∈ (sink.writeAll (beforeTables ⟨t, g.pool.collect t⟩ (some g.tableFile)
      g.labels).lines).2, l ∈ (splitProgram ⟨t, g.pool.collect t⟩ g.tableFile g.labels).lines := by
    intro t l hl
    have harrived := Sink.arrived_subset _ _ hl
    rcases bind_cases (beforeTables ⟨t, g.pool.collect t⟩ (some g.tableFile))
      (fun _ => afterTables ⟨t, g.pool.collect t⟩) g.labels with ⟨hlines, -⟩ | ⟨_, hlines, -⟩
    · rw [splitProgram, hlines]
      exact harrived
    · rw [splitProgram, hlines]
      exact mem_append_left _ harrived
  have hcourse := run_course g p sink tableSink
  generalize g.run p sink tableSink = r at hl hcourse
  rw [mem_append] at hl
  cases hcourse with
  | rejected => exact absurd hl (by simp)
  | @inline t notes hbuild _ hr =>
    obtain ⟨-, htables, hassembly, -⟩ := finish_account hr
    rw [htables, hassembly] at hl
    rcases hl with hl | hl
    · exact ⟨t, hbuild, .inl (Sink.arrived_subset _ _ hl)⟩
    · cases hl
  | @broken t _ _ _ _ hbuild =>
    rcases hl with hl | hl
    · exact ⟨t, hbuild, .inr (.inl (hbefore t l hl))⟩
    · cases hl
  | @crowded t _ _ _ hbuild =>
    rcases hl with hl | hl
    · exact ⟨t, hbuild, .inr (.inl (hbefore t l hl))⟩
    · exact ⟨t, hbuild, .inr (.inr (Sink.arrived_subset _ _ hl))⟩
  | @split t _ _ _ hbuild hroom _ hr =>
    obtain ⟨-, htables, hassembly, -⟩ := finish_account hr
    rw [htables, hassembly] at hl
    rcases hl with hl | hl
    · exact ⟨t, hbuild, .inr (.inl (Sink.arrived_subset _ _ hl))⟩
    · exact ⟨t, hbuild, .inr (.inr (Sink.arrived_subset _ _ hl))⟩

/-- The displacements of generated code are signed bytes, also where generation fails. -/
theorem run_inReach (g : Generator) (p : Program) (sink : Sink) (tableSink : Option Sink) :
    ((g.run p sink tableSink).assembly ++ (g.run p sink tableSink).tables).all Line.inReach =
      true := by
  rw [all_eq_true]
  intro l hl
  rcases emitted_of_run hl with ⟨t, hbuild, hlines⟩
  rcases (ClassTable.build_eq_ok_iff p t).mp hbuild with ⟨parents, hbuilt⟩
  have hlayout : ∀ n ∈ t.preorder, ∀ slot ∈ n.layout, 2 ∣ slot.offset := by
    intro n hn slot hslot
    rcases getElem?_of_mem hslot with ⟨i, hi⟩
    rw [hbuilt.getElem?_layout (hbuilt.mem_preorder_iff.mp hn) hi, headerSize, wordSize]
    omega
  have hafter : Reaches (afterTables ⟨t, g.pool.collect t⟩) := .afterTables hlayout
  have htables := Reaches.dispatchTables t
  rcases hlines with hinline | hsplit | hdispatch
  · have hreaches : Reaches (inlineProgram ⟨t, g.pool.collect t⟩) :=
      (Reaches.beforeTables none).bind fun _ => (Reaches.lines htables).bind fun _ => hafter
    exact all_eq_true.mp (hreaches g.labels) l hinline
  · have hreaches : Reaches (splitProgram ⟨t, g.pool.collect t⟩ g.tableFile) :=
      (Reaches.beforeTables _).bind fun _ => hafter
    exact all_eq_true.mp (hreaches g.labels) l hsplit
  · exact all_eq_true.mp htables l hdispatch

end Generator

end CoolCompiler
