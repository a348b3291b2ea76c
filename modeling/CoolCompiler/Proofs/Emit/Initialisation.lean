import CoolCompiler.Proofs.Emit.Listing
import CoolCompiler.Proofs.Emit.Scoping
import CoolCompiler.Proofs.Machine.Calls

/-!
# Initialisation routines

After the call of the parent's routine there is a block for each slot that is stored to, in the
order of the layout: the code of the initializer or of the default value, and the store.
-/

namespace CoolCompiler

open List Environment

namespace Emit

open Variable

/-- The label of the constant that is the default value of a type; other types start void. -/
def defaultLabel? (pool : Pool) (type : Name) : Option Name :=
  if type = Name.int then (pool.ints.find? 0).map intLabel
  else if type = Name.bool then some (boolLabel false)
  else if type = Name.string then (pool.strings.find? []).map stringLabel
  else none

def loadDefault : Option Name → Instr
  | some label => Instr.loadAddress .hl ⟨label, 0⟩
  | none => Instr.loadInt .hl 0

theorem lines_of_defaultValue {sc : Scene} {type : Name} {s s' : Session} {ls : List Line}
    {u : Unit} (h : Yields (defaultValue sc type) s ls u s') :
    ls = code [loadDefault (defaultLabel? sc.pool type)] := by
  rcases (yields_defaultValue h).2 with ⟨rfl, k, hk, rfl⟩ | ⟨rfl, rfl⟩ | ⟨rfl, k, hk, rfl⟩ |
    ⟨⟨hint, hbool, hstring⟩, rfl⟩
  · rw [defaultLabel?, if_pos rfl, hk]
    rfl
  · rfl
  · rw [defaultLabel?, if_neg (by decide), if_neg (by decide), if_pos rfl, hk]
    rfl
  · rw [defaultLabel?, if_neg hint, if_neg hbool, if_neg hstring]
    rfl

theorem defaultLabel?_isSome (t : ClassTable) (pool : Pool) (type : Name) :
    (defaultLabel? (pool.collect t) type).isSome = true ↔
      type = Name.int ∨ type = Name.bool ∨ type = Name.string := by
  have hzero : Literal.Interned (pool.collect t) (.int 0) := pool.zero_interned
  have hempty : Literal.Interned (pool.collect t) (.string []) := pool.empty_interned
  unfold defaultLabel?
  split
  · rename_i hint
    rw [Option.isSome_map]
    exact ⟨fun _ => .inl hint, fun _ => hzero⟩
  · split
    · rename_i hbool
      exact ⟨fun _ => .inr (.inl hbool), fun _ => rfl⟩
    · split
      · rename_i hstring
        rw [Option.isSome_map]
        exact ⟨fun _ => .inr (.inr hstring), fun _ => hempty⟩
      · simp [*]

/-!
# Routines in blocks
-/

/-- A block of an initialisation routine: the slot that it stores to, the initializer of the
slot, and the code of that. -/
structure InitBlock where
  slot : Slot
  init : Expr
  lines : List Line

def InitBlock.whole (b : InitBlock) : List Line :=
  b.lines ++ code (Instr.storeWord ⟨.ix, b.slot.offset⟩ .hl)

def initEntry (n : ClassNode) : List Instr :=
  enterFrame (initSlots n.decl) ++ Instr.move .hl .ix

def initExit (n : ClassNode) : List Instr :=
  Instr.move .hl .ix ++ restoreFrame (initSlots n.decl)

def initLines (n parent : ClassNode) (bs : List InitBlock) : List Line :=
  .label n.initLabel :: (code (initEntry n ++ [.call parent.initLabel]) ++
    (bs.flatMap InitBlock.whole ++ code (initExit n ++ [.ret])))

/-- Blocks for the slots that are stored to, each with the code of its initializer where no variable
is open. -/
structure InitBlocks (sc : Scene) (n : ClassNode) (slots : List Slot) (bs : List InitBlock) :
    Prop where
  slots : bs.map (fun b => (b.slot, b.init)) =
    slots.map fun slot => (slot, initOf n.decl slot.name)
  written : ∀ b ∈ bs, ∃ s s', s.env.owner = n ∧ s.env.scopes = [[]] ∧
    Yields (initializer sc b.slot.type b.init) s b.lines () s'

section Routine

variable {sc : Scene} {n parent : ClassNode} {s s' : Session} {ls : List Line} {u : Unit}

variable {bs : List InitBlock} {slots : List Slot}

theorem InitBlocks.map_slot (h : InitBlocks sc n slots bs) : bs.map InitBlock.slot = slots := by
  simpa [Function.comp_def] using congrArg (List.map Prod.fst) h.slots

theorem InitBlocks.pair_mem {b : InitBlock} (h : InitBlocks sc n slots bs) (hb : b ∈ bs) :
    b.slot ∈ slots ∧ b.init = initOf n.decl b.slot.name := by
  have hpair : (b.slot, b.init) ∈ slots.map fun slot => (slot, initOf n.decl slot.name) := by
    rw [← h.slots]
    exact mem_map.mpr ⟨b, hb, rfl⟩
  obtain ⟨slot, hslot, heq⟩ := mem_map.mp hpair
  obtain ⟨rfl, hinit⟩ := Prod.mk.inj heq
  exact ⟨hslot, hinit.symm⟩

theorem InitBlocks.lines_of_omitted {b : InitBlock} (h : InitBlocks sc n slots bs) (hb : b ∈ bs)
    (homitted : b.init.isOmitted = true) :
    b.lines = code [loadDefault (defaultLabel? sc.pool b.slot.type)] := by
  obtain ⟨_, _, _, _, hwritten⟩ := h.written b hb
  rw [initializer, if_pos homitted] at hwritten
  exact lines_of_defaultValue hwritten

theorem lookup_slot {env : Environment} {slot : Slot} {place : Indexed} (howner : env.owner = n)
    (hscopes : (env.scopes.findSome? fun scope => scope.find? slot.name) = none)
    (hslot : n.slot? slot.name = some slot) (h : env.lookup slot.name = .ok place) :
    place = ⟨.ix, slot.offset⟩ := by
  simp only [Environment.lookup, hscopes, howner, hslot] at h
  split at h <;> cases h
  rfl

theorem yields_storeInits (hslots : ∀ slot ∈ slots, n.slot? slot.name = some slot)
    (henv : Opened n [[]] [] s.env) (h : Yields (storeInits sc n.decl slots) s ls u s') :
    ∃ bs, InitBlocks sc n slots bs ∧ ls = bs.flatMap InitBlock.whole := by
  induction slots generalizing s ls with
  | nil =>
    rw [storeInits] at h
    obtain ⟨rfl, _, _⟩ := yields_done.mp h
    exact ⟨[], ⟨rfl, forall_mem_nil _⟩, rfl⟩
  | cons slot slots ih =>
    rw [forall_mem_cons] at hslots
    rw [storeInits] at h
    obtain ⟨init, _, s1, _, hinit, hrest, rfl⟩ := yields_bind.mp h
    have hmoves : Moves [] [] (initializer sc slot.type (initOf n.decl slot.name)) :=
      (initializer_restores sc slot.type _).moves
    have henv1 : Opened n [[]] [] s1.env := hmoves hinit henv
    obtain ⟨_, place, s2, _, hplace, hstore, rfl⟩ := yields_bind.mp hrest
    obtain ⟨hlookup, rfl, rfl⟩ := yields_placeOf.mp hplace
    obtain ⟨after, hafter, rfl⟩ := yields_instrs_bind.mp hstore
    have hscopes : (s2.env.scopes.findSome? fun scope => scope.find? slot.name) = none := by
      rw [henv1.scopes]
      rfl
    rw [lookup_slot henv1.owner hscopes hslots.1 hlookup]
    obtain ⟨bs, hbs, rfl⟩ := ih hslots.2 henv1 hafter
    refine ⟨⟨slot, initOf n.decl slot.name, init⟩ :: bs, ⟨?_, ?_⟩, ?_⟩
    · rw [map_cons, map_cons, hbs.slots]
    · rw [forall_mem_cons]
      exact ⟨⟨s, s2, henv.owner, henv.scopes, hinit⟩, hbs.written⟩
    · rw [flatMap_cons, InitBlock.whole, nil_append, append_assoc]

theorem yields_initRoutine {k k' : Nat} (h : Yields (initRoutine sc n) k ls u k') :
    (sc.table.parentOf? n = none ∧ ls = .label n.initLabel :: code [.ret]) ∨
      ∃ parent body s', sc.table.parentOf? n = some parent ∧
        Yields (initBody sc n parent) ⟨k, fresh n⟩ body () s' ∧
        ls = .label n.initLabel :: body := by
  rw [initRoutine] at h
  obtain ⟨rest, hrest, rfl⟩ := yields_lines_bind.mp h
  cases hparent : sc.table.parentOf? n with
  | none =>
    simp only [hparent] at hrest
    rw [(yields_instrs.mp hrest).1]
    exact .inl ⟨rfl, rfl⟩
  | some parent =>
    simp only [hparent] at hrest
    exact .inr ⟨parent, rest, _, rfl, ⟨hrest.lines, rfl, hrest.outcome⟩, rfl⟩

theorem yields_initBody {labels : Nat}
    (hslots : ∀ slot ∈ storedSlots n, n.slot? slot.name = some slot)
    (h : Yields (initBody sc n parent) ⟨labels, fresh n⟩ ls u s') :
    ∃ bs, InitBlocks sc n (storedSlots n) bs ∧
      .label n.initLabel :: ls = initLines n parent bs := by
  obtain ⟨_, stored, -, -, hstored, rfl⟩ := initBody_parts h
  obtain ⟨bs, hbs, rfl⟩ := yields_storeInits hslots (opened_enter n) hstored
  refine ⟨bs, hbs, ?_⟩
  rw [initLines, initEntry, initExit, leaveFrame_eq, append_assoc, append_assoc]

end Routine

/-!
# Programs
-/

/-- The initialisation routines and prototypes of all classes stand in a listing, the routines
with these blocks. -/
structure InitCode (sc : Scene) (ls : List Line) (blocks : ClassNode → List InitBlock) : Prop where
  routine : ∀ n ∈ sc.table.nodes, ∀ p, sc.table.parentOf? n = some p →
    InitBlocks sc n (storedSlots n) (blocks n) ∧ initLines n p (blocks n) <:+: ls
  root : ∀ n ∈ sc.table.nodes, sc.table.parentOf? n = none →
    .label n.initLabel :: code [.ret] <:+: ls
  prototype : ∀ n ∈ sc.table.nodes, ∃ zero, prototype zero n <:+: ls

theorem forClasses_infix {emit : ClassNode → Emit Nat Unit} {ns : List ClassNode} {n : ClassNode}
    (hn : n ∈ ns) {k k' : Nat} {ls : List Line} {u : Unit}
    (h : Yields (forClasses emit ns) k ls u k') :
    ∃ k1 k2 part, Yields (emit n) k1 part () k2 ∧ part <:+: ls := by
  induction ns generalizing k ls with
  | nil => cases hn
  | cons m ns ih =>
    rw [forClasses] at h
    obtain ⟨first, _, k1, rest, hfirst, hrest, rfl⟩ := yields_bind.mp h
    rcases mem_cons.mp hn with rfl | hn
    · exact ⟨k, k1, first, hfirst, (prefix_append first rest).isInfix⟩
    · obtain ⟨k2, k3, part, hpart, hinfix⟩ := ih hn hrest
      exact ⟨k2, k3, part, hpart, hinfix.trans (suffix_append first rest).isInfix⟩

section Program

variable {q : Program} {s : Symbols} {parents : List (Option Nat)} {t : ClassTable} {pool : Pool}
  (h : Compilable q s parents t)
include h

theorem exists_initBlocks {n p : ClassNode} (hn : n ∈ t.nodes) (hp : t.parentOf? n = some p)
    {k k' : Nat} {ls : List Line} {u : Unit} (hls : Yields (initRoutine ⟨t, pool⟩ n) k ls u k') :
    ∃ bs, InitBlocks ⟨t, pool⟩ n (storedSlots n) bs ∧ ls = initLines n p bs := by
  have hslots : ∀ slot ∈ storedSlots n, n.slot? slot.name = some slot := fun slot hslot =>
    h.slot?_eq hn (Compilable.mem_storedSlots_iff.mp hslot).1
  rcases yields_initRoutine hls with ⟨hnone, -⟩ | ⟨parent, body, _, hparent, hbody, rfl⟩
  · exact absurd (hp.symm.trans hnone) nofun
  · cases hp.symm.trans hparent
    exact yields_initBody hslots hbody

theorem exists_initCode {before routines ls : List Line} {tables : Option Text} {k k1 k2 k3 : Nat}
    (hbefore : Yields (beforeTables ⟨t, pool⟩ tables) k before () k1)
    (hroutines : Yields (initRoutines ⟨t, pool⟩) k2 routines () k3)
    (hfront : before <:+: ls) (hback : routines <:+: ls) :
    ∃ blocks, InitCode ⟨t, pool⟩ ls blocks := by
  have hroutine : ∀ n ∈ t.nodes, ∃ k1 k2 part,
      Yields (initRoutine ⟨t, pool⟩ n) k1 part () k2 ∧ part <:+: ls := by
    intro n hn
    rcases forClasses_infix (h.built.mem_preorder_iff.mpr hn) hroutines with
      ⟨k1, k2, part, hpart, hinfix⟩
    exact ⟨k1, k2, part, hpart, hinfix.trans hback⟩
  have hblocks : ∀ n : ClassNode, ∃ bs, n ∈ t.nodes → ∀ p, t.parentOf? n = some p →
      InitBlocks ⟨t, pool⟩ n (storedSlots n) bs ∧ initLines n p bs <:+: ls := by
    intro n
    by_cases hn : n ∈ t.nodes
    · cases hp : t.parentOf? n with
      | none => exact ⟨[], fun _ _ hp' => by cases hp'⟩
      | some p =>
        obtain ⟨_, _, part, hpart, hinfix⟩ := hroutine n hn
        obtain ⟨bs, hbs, rfl⟩ := exists_initBlocks h hn hp hpart
        refine ⟨bs, fun _ p' hp' => ?_⟩
        cases hp'
        exact ⟨hbs, hinfix⟩
    · exact ⟨[], fun hn' => absurd hn' hn⟩
  obtain ⟨blocks, hblocks⟩ := Classical.skolem.mp hblocks
  refine ⟨blocks, hblocks, ?_, ?_⟩
  · intro n hn hnone
    obtain ⟨_, _, part, hpart, hinfix⟩ := hroutine n hn
    rcases yields_initRoutine hpart with ⟨-, rfl⟩ | ⟨_, _, _, hparent, -, -⟩
    · exact hinfix
    · exact absurd (hnone.symm.trans hparent) nofun
  · intro n hn
    obtain ⟨opening, zero, _, rfl⟩ := yields_beforeTables hbefore
    refine ⟨zero, List.IsInfix.trans ?_ ((suffix_append opening _).isInfix.trans hfront)⟩
    exact infix_of_mem_flatten (mem_map_of_mem hn)

end Program

end Emit

theorem Generator.run_initCode {q : Program} {s : Symbols} {parents : List (Option Nat)}
    {t : ClassTable} (h : Emit.Compilable q s parents t) {g : Generator} {sink : Sink}
    {tableSink : Option Sink} {r : Generated} (hr : g.run q sink tableSink = r)
    (hok : r.failure = none) :
    (∃ blocks, Emit.InitCode ⟨t, g.pool.collect t⟩ (r.assembly ++ r.tables) blocks) ∧
      ∀ n ∈ t.nodes, ¬ Emit.TooLarge n := by
  rcases run_parts ((ClassTable.build_eq_ok_iff q t).mpr ⟨_, h.built⟩) hr hok with
    ⟨tables, before, after, k, k', hbefore, hafter, hfront, hback, -⟩
  have hsmall := hafter.of_ends (Emit.afterTables_ends h _)
  obtain ⟨data, _, _, _, _, hroutines, rfl⟩ := Emit.yields_bind.mp hafter
  obtain ⟨inits, _, _, methods, hinits, _, rfl⟩ := Emit.yields_bind.mp hroutines
  refine ⟨Emit.exists_initCode h hbefore hinits hfront.isInfix (List.IsInfix.trans ?_ hback),
    hsmall⟩
  exact ⟨data, methods, by rw [append_assoc]⟩

end CoolCompiler
