import CoolCompiler.Proofs.Emit.Initialisation

/-!
# Making an object

A new object is a copy of its prototype.  Its initialisation routine first calls that of the parent,
so slots are stored to in the order of the layout.  One attribute is followed here, through runs in
which no initializer writes to it.
-/

namespace CoolCompiler.Machine

open List

open Emit

/-- The initialisation of an object: the code, the end of its stack, the object, and the slot that
is looked at. -/
structure Construction where
  image : Image
  scene : Scene
  blocks : ClassNode → List InitBlock
  top : Word
  self : Word
  slot : Slot

/-- The slots of a class that initialisation stores to, those of the classes above included. -/
def filledSlots (n : ClassNode) : List Slot := n.layout.filter fun slot => !slot.isPrim

def frameRoom (n : ClassNode) : Nat := initSlots n.decl * 2 + 6

def chainRoom (chain : List ClassNode) : Nat :=
  chain.foldr (fun n bytes => frameRoom n + bytes) 0

def resume (n : ClassNode) (j : Nat) : Nat := j + 1 + (initEntry n).length + 1

/-!
# Runs of initialisation routines
-/

/-- A store of an initialisation routine: its block, and the state when the value has come to
hl. -/
structure InitStore where
  block : InitBlock
  state : Cpu

section Runs

variable (m : Image) (t : ClassTable) (blocks : ClassNode → List InitBlock) (keep : Word → Prop)
  (top : Word)

/-- The value of a block comes to hl.  An initializer writes neither to the places that are kept nor
to the stack in use or the registers that code keeps. -/
inductive Values (depth i : Nat) : Cpu → InitBlock → Cpu → Prop where
  | given {s s' : Cpu} {b : InitBlock} (written : b.init.isOmitted = false)
      (ran : Travels m (fun a => keep a ∨ Below top depth a) (.line i) s
        (.line (i + b.lines.length)) s')
      (still : Still s s') : Values depth i s b s'
  | omitted {s s' : Cpu} {b : InitBlock} {is : List Instr} (omitted : b.init.isOmitted = true)
      (lines : b.lines = code is) (ran : Runs m.value (fun _ => False) s is s') :
      Values depth i s b s'

inductive Fills (depth : Nat) : Nat → Cpu → List InitStore → Cpu → Prop where
  | nil (i : Nat) (s : Cpu) : Fills depth i s [] s
  | cons {i : Nat} {s s1 s2 s' : Cpu} {b : InitBlock} {stores : List InitStore}
      (value : Values m keep top depth i s b s1)
      (store : Runs m.value (fun _ => False) s1 (Instr.storeWord ⟨.ix, b.slot.offset⟩ .hl) s2)
      (rest : Fills depth (i + b.whole.length) s2 stores s') :
      Fills depth i s (⟨b, s1⟩ :: stores) s'

/-- The initialisation routine of a class, entered with so many bytes of stack in use, runs until it
has returned, with these stores. -/
inductive Constructs : Nat → ClassNode → Cpu → List InitStore → Cpu → Prop where
  | root {depth : Nat} {n : ClassNode} {s : Cpu} (hroot : t.parentOf? n = none) :
      Constructs depth n s [] { s with sp := s.sp + 2#16 }
  | derived {depth j : Nat} {n p : ClassNode} {s s1 s2 s3 s4 : Cpu} {above own : List InitStore}
      (hparent : t.parentOf? n = some p) (hj : m.target n.initLabel = .line j)
      (entered : Runs m.value (fun _ => False) s (initEntry n) s1)
      (called : Constructs (depth + frameRoom n) p (s1.push (m.start (resume n j))) above s2)
      (hown : own.map InitStore.block = blocks n)
      (stored : Fills m keep top (depth + 4) (resume n j) s2 own s3)
      (left : Runs m.value (fun _ => False) s3 (initExit n) s4) :
      Constructs depth n s (above ++ own) { s4 with sp := s4.sp + 2#16 }

end Runs

namespace Construction

variable (f : Construction)

def place : Word := attributeAt f.self f.slot.offset

def Held (a : Word) : Prop := a = f.place ∨ a = f.place + 1#16

def default (type : Name) : Word :=
  ((defaultLabel? f.scene.pool type).map f.image.value).getD 0#16

def room (n : ClassNode) : Nat := chainRoom (f.scene.table.chain n)

/-- The initialisation routine of a class has come to a block of its own or of a class above,
which begins at a line. -/
inductive Underway : Nat → ClassNode → Cpu → InitBlock → Nat → Cpu → Prop where
  | here {depth j : Nat} {n p : ClassNode} {s s1 s2 s' : Cpu} {b : InitBlock}
      {trace before : List InitStore} {after : List InitBlock}
      (hparent : f.scene.table.parentOf? n = some p) (hj : f.image.target n.initLabel = .line j)
      (entered : Runs f.image.value (fun _ => False) s (initEntry n) s1)
      (called : Constructs f.image f.scene.table f.blocks f.Held f.top (depth + frameRoom n) p
        (s1.push (f.image.start (resume n j))) trace s2)
      (hblocks : f.blocks n = before.map InitStore.block ++ b :: after)
      (stored : Fills f.image f.Held f.top (depth + 4) (resume n j) s2 before s') :
      Underway depth n s b
        (resume n j + ((before.map InitStore.block).flatMap InitBlock.whole).length) s'
  | above {depth j i : Nat} {n p : ClassNode} {s s1 s' : Cpu} {b : InitBlock}
      (hparent : f.scene.table.parentOf? n = some p) (hj : f.image.target n.initLabel = .line j)
      (entered : Runs f.image.value (fun _ => False) s (initEntry n) s1)
      (inside : Underway (depth + frameRoom n) p (s1.push (f.image.start (resume n j))) b i s') :
      Underway depth n s b i s'

/-!
# The attribute in between
-/

/-- From one state to another the stack in use is kept, and the attribute gets its default
value if its slot is among some. -/
structure Filled (depth : Nat) (slots : List Slot) (s s' : Cpu) : Prop where
  kept : ∀ a, Below f.top depth a → s'.memory a = s.memory a
  stored : f.slot ∈ slots → s'.memory.word f.place = f.default f.slot.type
  unstored : f.slot ∉ slots → s'.memory.word f.place = s.memory.word f.place

/-- A store goes through ix to a slot of the object, of the default value where there is no
initializer. -/
structure Proper (st : InitStore) : Prop where
  ix : st.state.ix = f.self
  offset : st.block.slot.offset ≤ 126
  omitted : st.block.init.isOmitted = true → st.state.hl = f.default st.block.slot.type

/-- What proper stores do from one state to another.  The attribute is filled if initializers keep
it. -/
structure Effect (keep : Word → Prop) (depth : Nat) (slots : List Slot) (trace : List InitStore)
    (s s' : Cpu) : Prop where
  kept : ∀ a, Below f.top depth a → s'.memory a = s.memory a
  filled : (∀ a, f.Held a → keep a) → f.Filled depth slots s s'
  proper : ∀ st ∈ trace, f.Proper st

/-- A slot that the code can reach, apart from the stack and from the slot that is looked at
unless it is that one. -/
structure Clear (limit : Nat) (slot : Slot) : Prop where
  offset : slot.offset ≤ 126
  low : ¬ Below f.top limit (attributeAt f.self slot.offset)
  high : ¬ Below f.top limit (attributeAt f.self slot.offset + 1#16)
  apart : slot = f.slot ∨ slot.offset + 2 ≤ f.slot.offset ∨ f.slot.offset + 2 ≤ slot.offset

structure Sound : Prop where
  returns : f.image.Returns
  code : InitCode f.scene f.image.code f.blocks
  temps : ∀ n ∈ f.scene.table.nodes, initSlots n.decl ≤ 64
  room : ∀ n ∈ f.scene.table.nodes, ∀ p, f.scene.table.parentOf? n = some p →
    f.room n = frameRoom n + f.room p
  slots : ∀ n ∈ f.scene.table.nodes, ∀ p, f.scene.table.parentOf? n = some p →
    filledSlots n = filledSlots p ++ storedSlots n
  noSlots : ∀ n ∈ f.scene.table.nodes, f.scene.table.parentOf? n = none → filledSlots n = []
  omitted : ∀ n ∈ f.scene.table.nodes, ∀ p, f.scene.table.parentOf? n = some p →
    ∀ b ∈ f.blocks n, b.slot = f.slot → b.init.isOmitted = true

variable {f} {depth limit i j : Nat} {slots : List Slot} {s s1 s2 s' : Cpu} {n p : ClassNode}
  {b : InitBlock} {bs : List InitBlock} {keep : Word → Prop} {trace : List InitStore}

namespace Filled

theorem quiet (h : ∀ a, f.Held a ∨ Below f.top depth a → s'.memory a = s.memory a) :
    f.Filled depth [] s s' where
  kept a ha := h a (.inr ha)
  stored hmem := absurd hmem not_mem_nil
  unstored _ := Memory.word_congr (h _ (.inl (.inl rfl))) (h _ (.inl (.inr rfl)))

theorem trans {slots' : List Slot} (h : f.Filled depth slots s s1)
    (h' : f.Filled depth slots' s1 s') : f.Filled depth (slots ++ slots') s s' where
  kept a ha := (h'.kept a ha).trans (h.kept a ha)
  stored hmem := by
    by_cases hlast : f.slot ∈ slots'
    · exact h'.stored hlast
    · rw [h'.unstored hlast]
      exact h.stored ((mem_append.mp hmem).resolve_right hlast)
  unstored hmem := by
    rw [mem_append, not_or] at hmem
    rw [h'.unstored hmem.2, h.unstored hmem.1]

theorem mono {depth' : Nat} (h : f.Filled depth slots s s') (hle : depth' ≤ depth) :
    f.Filled depth' slots s s' :=
  ⟨fun a ha => h.kept a (ha.mono hle), h.stored, h.unstored⟩

theorem effect (h : f.Filled depth slots s s') : f.Effect keep depth slots [] s s' :=
  ⟨h.kept, fun _ => h, forall_mem_nil _⟩

end Filled

namespace Effect

theorem quiet (h : s'.memory = s.memory) : f.Effect keep depth [] [] s s' :=
  (Filled.quiet fun _ _ => congrFun h _).effect

theorem trans {slots' : List Slot} {trace' : List InitStore}
    (h : f.Effect keep depth slots trace s s1) (h' : f.Effect keep depth slots' trace' s1 s') :
    f.Effect keep depth (slots ++ slots') (trace ++ trace') s s' where
  kept a ha := (h'.kept a ha).trans (h.kept a ha)
  filled hkeep := (h.filled hkeep).trans (h'.filled hkeep)
  proper := forall_mem_append.mpr ⟨h.proper, h'.proper⟩

theorem mono {depth' : Nat} (h : f.Effect keep depth slots trace s s') (hle : depth' ≤ depth) :
    f.Effect keep depth' slots trace s s' :=
  ⟨fun a ha => h.kept a (ha.mono hle), fun hkeep => (h.filled hkeep).mono hle, h.proper⟩

end Effect

theorem filled_of_below {d k : Nat} {sp : Word} (hlimit : limit < 65536)
    (hslot : f.Clear limit f.slot) (hsp : sp = f.top - BitVec.ofNat 16 d) (hd : depth ≤ d)
    (hk : d + k ≤ limit) (h : ∀ a, ¬ Below sp k a → s'.memory a = s.memory a) :
    f.Filled depth [] s s' := by
  refine .quiet fun a ha => h a fun hbelow => ?_
  obtain ⟨hwithin, hbeyond⟩ := Below.of_sp hsp (by omega) hbelow
  rcases ha with (rfl | rfl) | ha
  · exact hslot.low (hwithin.mono hk)
  · exact hslot.high (hwithin.mono hk)
  · exact hbeyond (ha.mono hd)

/-!
# Blocks
-/

theorem exec_loadDefault (value : Name → Word) (s : Cpu) (label : Option Name) :
    exec value s (loadDefault label) = some { s with hl := (label.map value).getD 0#16 } := by
  cases label with
  | none => rfl
  | some label =>
    show some { s with hl := value label + BitVec.ofInt 16 0 } = _
    rw [show BitVec.ofInt 16 0 = 0#16 from rfl, BitVec.add_zero]
    rfl

theorem eq_of_omitted (hf : f.Sound) (hn : n ∈ f.scene.table.nodes)
    (hp : f.scene.table.parentOf? n = some p) (hb : b ∈ f.blocks n)
    (homitted : b.init.isOmitted = true) {is : List Instr} (hlines : b.lines = Emit.code is)
    (ran : Runs f.image.value (fun _ => False) s is s') :
    s' = { s with hl := f.default b.slot.type } := by
  have hdefault := (hf.code.routine n hn p hp).1.lines_of_omitted hb homitted
  rw [hlines] at hdefault
  rw [map_injective_iff.mpr (fun _ _ h => Line.instr.inj h) hdefault] at ran
  have hruns : Runs f.image.value (fun _ => False) s
      [loadDefault (defaultLabel? f.scene.pool b.slot.type)]
      { s with hl := f.default b.slot.type } :=
    .quiet (exec_loadDefault _ _ _) rfl (.nil _)
  exact ran.unique hruns

theorem travels_lines {is : List Instr} (hplaced : f.image.Placed i b.lines)
    (hlines : b.lines = Emit.code is) (ran : Runs f.image.value (fun _ => False) s is s') :
    Travels f.image (fun _ => False) (.line i) s (.line (i + b.lines.length)) s' := by
  rw [hlines] at hplaced ⊢
  rw [Emit.code, length_map]
  exact .within (reaches_code hplaced ran)

theorem Values.effect (hf : f.Sound) (hn : n ∈ f.scene.table.nodes)
    (hp : f.scene.table.parentOf? n = some p) (hb : b ∈ f.blocks n)
    (hplaced : f.image.Placed i b.lines) (h : Values f.image keep f.top depth i s b s') :
    Still s s' ∧ f.Effect keep depth [] [] s s' ∧
      (b.init.isOmitted = true → s'.hl = f.default b.slot.type) ∧
      Travels f.image (fun _ => False) (.line i) s (.line (i + b.lines.length)) s' := by
  cases h with
  | given written ran still =>
    refine ⟨still, ⟨fun a ha => ran.memory (.inr ha), fun hkeep => ?_, forall_mem_nil _⟩,
      fun homitted => ?_, ran.mono fun _ h => h.elim⟩
    · exact .quiet fun a ha => ran.memory (ha.imp_left (hkeep a))
    · rw [written] at homitted
      cases homitted
  | omitted homitted hlines ran =>
    have hvalue := eq_of_omitted hf hn hp hb homitted hlines ran
    have htravels := travels_lines hplaced hlines ran
    rw [hvalue] at htravels ⊢
    exact ⟨⟨rfl, rfl, rfl⟩, .quiet rfl, fun _ => rfl, htravels⟩

theorem store_fills (hix : s.ix = f.self) (hdepth : depth ≤ limit) (hslot : f.Clear limit f.slot)
    (hclear : f.Clear limit b.slot) (hvalue : b.slot = f.slot → s.hl = f.default f.slot.type)
    (hstore : Runs f.image.value (fun _ => False) s (Instr.storeWord ⟨.ix, b.slot.offset⟩ .hl) s') :
    Still s s' ∧ f.Filled depth [b.slot] s s' := by
  have hruns : Runs f.image.value (fun _ => False) s (Instr.storeWord ⟨.ix, b.slot.offset⟩ .hl) _ :=
    runs_storeAttribute hclear.offset fun _ hfalse => hfalse.elim
  have hmemory : s'.memory = s.memory.putWord (attributeAt f.self b.slot.offset) s.hl := by
    rw [hstore.unique hruns, hix]
  refine ⟨by rw [hstore.unique hruns]; exact ⟨rfl, rfl, rfl⟩, fun a ha => ?_, fun hmem => ?_,
    fun hmem => ?_⟩ <;> rw [hmemory]
  · apply Memory.putWord_of_ne
    · rintro rfl
      exact hclear.low (ha.mono hdepth)
    · rintro rfl
      exact hclear.high (ha.mono hdepth)
  · have heq := mem_singleton.mp hmem
    rw [← hvalue heq.symm, place, heq]
    exact Memory.word_putWord_self
  · have hoffset := hclear.offset
    have hoffset' := hslot.offset
    rcases hclear.apart with heq | hapart
    · exact absurd (mem_singleton.mpr heq.symm) hmem
    · unfold place attributeAt
      apply Memory.word_putWord_of_ne <;> bv_omega

theorem Fills.effect {stores : List InitStore} (hf : f.Sound) (hdepth : depth ≤ limit)
    (hslot : f.Clear limit f.slot) (hn : n ∈ f.scene.table.nodes)
    (hp : f.scene.table.parentOf? n = some p) (h : Fills f.image keep f.top depth i s stores s')
    (hbs : stores.map InitStore.block = bs)
    (hclear : ∀ b ∈ bs, b ∈ f.blocks n ∧ f.Clear limit b.slot)
    (hplaced : f.image.Placed i (bs.flatMap InitBlock.whole)) (hix : s.ix = f.self) :
    Still s s' ∧ f.Effect keep depth (bs.map InitBlock.slot) stores s s' ∧
      Travels f.image (fun _ => False) (.line i) s
        (.line (i + (bs.flatMap InitBlock.whole).length)) s' := by
  subst hbs
  induction h with
  | nil i s => exact ⟨.refl s, .quiet rfl, .within (.refl _ _)⟩
  | @cons i s s1 s2 s' b stores value store rest ih =>
    rw [map_cons, forall_mem_cons] at hclear
    rw [map_cons, flatMap_cons, placed_append, InitBlock.whole,
      placed_append] at hplaced
    rcases Values.effect hf hn hp hclear.1.1 hplaced.1.1 value with
      ⟨hstill, heffect, hvalue, htravels⟩
    have hix1 : s1.ix = f.self := hstill.ix.trans hix
    have hdefault : b.slot = f.slot → s1.hl = f.default f.slot.type := by
      intro heq
      rw [hvalue (hf.omitted n hn p hp b hclear.1.1 heq), heq]
    obtain ⟨hstill', hfilled⟩ := store_fills hix1 hdepth hslot hclear.1.2 hdefault store
    have hown : f.Effect keep depth [b.slot] [⟨b, s1⟩] s1 s2 :=
      ⟨hfilled.kept, fun _ => hfilled,
        forall_mem_singleton.mpr ⟨hix1, hclear.1.2.offset, hvalue⟩⟩
    obtain ⟨hstill'', heffect'', htravels''⟩ := ih (hstill'.ix.trans hix1) hclear.2 hplaced.2
    refine ⟨(hstill.trans hstill').trans hstill'', (heffect.trans hown).trans heffect'', ?_⟩
    have hstore : Travels f.image (fun _ => False) (.line (i + b.lines.length)) s1
        (.line (i + b.whole.length)) s2 := by
      rw [InitBlock.whole, length_append, ← Nat.add_assoc]
      exact .within (by simpa [Emit.code] using reaches_code hplaced.1.2 store)
    rw [map_cons, flatMap_cons, length_append, ← Nat.add_assoc]
    exact (htravels.trans hstore).trans htravels''

/-!
# Lines of routines
-/

structure Stands (m : Image) (bs : List InitBlock) (n p : ClassNode) (j : Nat) : Prop where
  label : m.code[j]? = some (.label n.initLabel)
  entry : m.Placed (j + 1) (Emit.code (initEntry n))
  call : m.code[j + 1 + (initEntry n).length]? = some (.instr (.call p.initLabel))
  blocks : m.Placed (resume n j) (bs.flatMap InitBlock.whole)
  exit : m.Placed (resume n j + (bs.flatMap InitBlock.whole).length) (Emit.code (initExit n))
  ret : m.code[resume n j + (bs.flatMap InitBlock.whole).length + (initExit n).length]? =
    some (.instr .ret)

theorem stands_of_placed {m : Image} (h : m.Placed j (initLines n p bs)) : Stands m bs n p j := by
  rw [initLines, placed_cons] at h
  have hlength : (Emit.code (initEntry n ++ [.call p.initLabel])).length =
      (initEntry n).length + 1 := by simp [Emit.code]
  obtain ⟨hfirst, hrest⟩ := placed_append.mp h.2
  rw [hlength, ← Nat.add_assoc] at hrest
  obtain ⟨hentry, hcall⟩ := (placed_code_append _ _).mp hfirst
  obtain ⟨hblocks, hlast⟩ := placed_append.mp hrest
  obtain ⟨hexit, hret⟩ := (placed_code_append _ _).mp hlast
  exact ⟨h.1, hentry, (placed_cons.mp hcall).1, hblocks, hexit, (placed_cons.mp hret).1⟩

namespace Sound

theorem exists_target (hf : f.Sound) (hn : n ∈ f.scene.table.nodes) :
    ∃ j, f.image.target n.initLabel = .line j := by
  cases hp : f.scene.table.parentOf? n with
  | none =>
    obtain ⟨j, hj⟩ := exists_placed (hf.code.root n hn hp)
    exact ⟨j, target_of_code (placed_cons.mp hj).1⟩
  | some p =>
    obtain ⟨j, hj⟩ := exists_placed (hf.code.routine n hn p hp).2
    exact ⟨j, target_of_code (placed_cons.mp hj).1⟩

theorem root_ret (hf : f.Sound) (hn : n ∈ f.scene.table.nodes)
    (hp : f.scene.table.parentOf? n = none) : ∃ j, f.image.target n.initLabel = .line j ∧
      f.image.code[j]? = some (.label n.initLabel) ∧
      f.image.code[j + 1]? = some (.instr .ret) := by
  obtain ⟨j, hj⟩ := exists_placed (hf.code.root n hn hp)
  obtain ⟨hlabel, hret⟩ := placed_cons.mp hj
  exact ⟨j, target_of_code hlabel, hlabel, (placed_cons.mp hret).1⟩

theorem stands (hf : f.Sound) (hn : n ∈ f.scene.table.nodes)
    (hp : f.scene.table.parentOf? n = some p) (hj : f.image.target n.initLabel = .line j) :
    Stands f.image (f.blocks n) n p j := by
  obtain ⟨k, hk⟩ := exists_placed (hf.code.routine n hn p hp).2
  have hstands := stands_of_placed hk
  rw [target_of_code hstands.label] at hj
  cases hj
  exact hstands

end Sound

theorem Stands.travels_entry (hf : f.Sound) (hp : f.scene.table.parentOf? n = some p)
    (hstands : Stands f.image (f.blocks n) n p j)
    (entered : Runs f.image.value (fun _ => False) s (initEntry n) s1) :
    Travels f.image (fun _ => False) (.line j) s (f.image.target p.initLabel)
      (s1.push (f.image.start (resume n j))) := by
  obtain ⟨k, hk⟩ := hf.exists_target (ClassTable.mem_of_parentOf? hp)
  rw [hk]
  exact .within ((reaches_label hstands.label).trans
    ((reaches_code hstands.entry entered).trans
      (reaches_call hstands.call hk fun _ hfalse => hfalse.elim)))

theorem Stands.lineAt? (hf : f.Sound) (hstands : Stands f.image (f.blocks n) n p j) :
    f.image.lineAt? (f.image.start (resume n j)) = some (resume n j) := by
  refine hf.returns _ _ hstands.call ?_
  have hlt := (List.getElem?_eq_some_iff.mp hstands.ret).1
  unfold resume at hlt
  omega

theorem word_of_kept (h : ∀ a, Below f.top depth a → s'.memory a = s.memory a) {k : Nat}
    (hk : 2 ≤ k) (hle : k ≤ depth) (hlt : depth < 65536) :
    s'.memory.word (f.top - BitVec.ofNat 16 k) = s.memory.word (f.top - BitVec.ofNat 16 k) := by
  apply Memory.word_congr <;> apply h <;> unfold Below <;> bv_omega

structure Entered (f : Construction) (depth : Nat) (n : ClassNode) (s s1 : Cpu) (w : Word) :
    Prop where
  ix : s1.ix = s.hl
  hl : s1.hl = s.hl
  sp : s1.sp = f.top - BitVec.ofNat 16 (depth + (initSlots n.decl * 2 + 4))
  savedSelf : s1.memory.word (f.top - BitVec.ofNat 16 (depth + 4)) = s.ix
  savedFrame : s1.memory.word (f.top - BitVec.ofNat 16 (depth + 2)) = s.iy
  filled : f.Filled depth [] s s1
  called : f.Filled (depth + 4) [] s1 (s1.push w)

/-!
# Whole routines
-/

/-- A routine that has returned to its caller, after proper stores to all slots up to those of
its class. -/
structure Performed (f : Construction) (keep : Word → Prop) (depth : Nat) (n : ClassNode) (s : Cpu)
    (trace : List InitStore) (s' : Cpu) : Prop where
  ix : s'.ix = s.ix
  iy : s'.iy = s.iy
  sp : s'.sp = s.sp + 2#16
  effect : f.Effect keep depth (filledSlots n) trace s s'
  travels : Travels f.image (fun _ => False) (f.image.target n.initLabel) s
    (.address (s.memory.word s.sp)) s'

/-- A routine is entered with the object in hl, within the stack that initialisation may use, and
with all slots clear of that. -/
structure Entry (f : Construction) (limit depth : Nat) (n : ClassNode) (s : Cpu) : Prop where
  node : n ∈ f.scene.table.nodes
  returns : 2 ≤ depth
  room : depth + f.room n ≤ limit
  slots : ∀ slot ∈ filledSlots n, f.Clear limit slot
  hl : s.hl = f.self
  sp : s.sp = f.top - BitVec.ofNat 16 depth

namespace Entry

variable {w : Word}

theorem frameRoom_le (hf : f.Sound) (h : f.Entry limit depth n s)
    (hp : f.scene.table.parentOf? n = some p) : depth + frameRoom n ≤ limit := by
  have hroom := h.room
  rw [hf.room n h.node p hp] at hroom
  omega

theorem entered (hf : f.Sound) (hlimit : limit < 65536) (hslot : f.Clear limit f.slot)
    (h : f.Entry limit depth n s) (hp : f.scene.table.parentOf? n = some p)
    (entered : Runs f.image.value (fun _ => False) s (initEntry n) s1) (w : Word) :
    f.Entered depth n s s1 w := by
  have htemps := hf.temps n h.node
  have hsp := h.sp
  have hroom := h.frameRoom_le hf hp
  unfold frameRoom at hroom
  obtain ⟨s', hruns, hix, hhl, hsp', hself, hframe⟩ := runs_enter f.image.value htemps s
  rw [entered.unique hruns]
  have hself' : s.sp - 4#16 = f.top - BitVec.ofNat 16 (depth + 4) := by
    rw [hsp]
    bv_omega
  have hframe' : s.sp - 2#16 = f.top - BitVec.ofNat 16 (depth + 2) := by
    rw [hsp]
    bv_omega
  have hsp1 : s'.sp = f.top - BitVec.ofNat 16 (depth + (initSlots n.decl * 2 + 4)) := by
    rw [hsp', hsp]
    bv_omega
  rw [hself'] at hself
  rw [hframe'] at hframe
  refine ⟨hix, hhl, hsp1, hself, hframe, ?_, ?_⟩
  · exact filled_of_below hlimit hslot hsp (Nat.le_refl depth) hroom fun a ha => hruns.memory ha
  · refine filled_of_below (k := 2) hlimit hslot hsp1 (by omega) (by omega) fun a ha => ?_
    exact putWord_of_not_below (k := 0) rfl (Nat.le_refl 2) (by omega) ha

theorem blocks_le (hf : f.Sound) (h : f.Entry limit depth n s)
    (hp : f.scene.table.parentOf? n = some p) : depth + 4 ≤ limit := by
  have hroom := h.frameRoom_le hf hp
  unfold frameRoom at hroom
  omega

theorem clear_blocks (hf : f.Sound) (h : f.Entry limit depth n s)
    (hp : f.scene.table.parentOf? n = some p) :
    ∀ b ∈ f.blocks n, b ∈ f.blocks n ∧ f.Clear limit b.slot := by
  intro b hb
  refine ⟨hb, h.slots b.slot ?_⟩
  rw [hf.slots n h.node p hp, ← (hf.code.routine n h.node p hp).1.map_slot]
  exact mem_append_right _ (mem_map_of_mem hb)

theorem parent (hf : f.Sound) (h : f.Entry limit depth n s)
    (hp : f.scene.table.parentOf? n = some p) (entered : f.Entered depth n s s1 w) :
    f.Entry limit (depth + frameRoom n) p (s1.push w) where
  node := ClassTable.mem_of_parentOf? hp
  returns := Nat.le_trans h.returns (Nat.le_add_right _ _)
  room := by
    have hroom := h.room
    rw [hf.room n h.node p hp] at hroom
    omega
  slots slot hslot := by
    refine h.slots slot ?_
    rw [hf.slots n h.node p hp]
    exact mem_append_left _ hslot
  hl := entered.hl.trans h.hl
  sp := by
    show s1.sp - 2#16 = _
    rw [entered.sp, frameRoom]
    bv_omega

end Entry

theorem Entered.resumed {w : Word} (h : f.Entry limit depth n s)
    (entered : f.Entered depth n s s1 w)
    (habove : f.Performed keep (depth + frameRoom n) p (s1.push w) trace s2) :
    s2.ix = f.self ∧ s2.sp = s1.sp ∧ f.Effect keep (depth + 4) (filledSlots p) trace s1 s2 := by
  refine ⟨habove.ix.trans (entered.ix.trans h.hl), ?_, ?_⟩
  · rw [habove.sp]
    exact BitVec.sub_add_cancel s1.sp 2#16
  · exact entered.called.effect.trans (habove.effect.mono (by unfold frameRoom; omega))

theorem Stands.travels_resume (hf : f.Sound) (hp : f.scene.table.parentOf? n = some p)
    (hstands : Stands f.image (f.blocks n) n p j)
    (entered : Runs f.image.value (fun _ => False) s (initEntry n) s1)
    (habove : Travels f.image (fun _ => False) (f.image.target p.initLabel)
      (s1.push (f.image.start (resume n j)))
      (.address ((s1.push (f.image.start (resume n j))).memory.word
        (s1.push (f.image.start (resume n j))).sp)) s2) :
    Travels f.image (fun _ => False) (.line j) s (.line (resume n j)) s2 := by
  have haddress : (s1.push (f.image.start (resume n j))).memory.word
      (s1.push (f.image.start (resume n j))).sp = f.image.start (resume n j) :=
    Memory.word_putWord_self
  rw [haddress] at habove
  exact (hstands.travels_entry hf hp entered).trans (habove.trans
    (.back (.refl _ _) (hstands.lineAt? hf) (.within (.refl _ _))))

theorem Entered.left {w : Word} (hf : f.Sound) (hlimit : limit < 65536)
    (hslot : f.Clear limit f.slot) (h : f.Entry limit depth n s)
    (hroom : depth + frameRoom n ≤ limit) (entered : f.Entered depth n s s1 w)
    (hsp : s2.sp = s1.sp) (hkept : ∀ a, Below f.top (depth + 4) a → s2.memory a = s1.memory a)
    (left : Runs f.image.value (fun _ => False) s2 (initExit n) s') :
    s'.ix = s.ix ∧ s'.iy = s.iy ∧ s'.sp = s.sp ∧ f.Filled (depth + 4) [] s2 s' := by
  have htemps := hf.temps n h.node
  unfold frameRoom at hroom
  obtain ⟨s'', hruns, hsp'', hix, hiy⟩ := runs_leave f.image.value htemps s2
  rw [left.unique hruns]
  rw [hsp, entered.sp] at hsp'' hix hiy
  have hself : f.top - BitVec.ofNat 16 (depth + (initSlots n.decl * 2 + 4)) +
      BitVec.ofNat 16 (initSlots n.decl * 2) = f.top - BitVec.ofNat 16 (depth + 4) := by
    bv_omega
  have hframe : f.top - BitVec.ofNat 16 (depth + (initSlots n.decl * 2 + 4)) +
      BitVec.ofNat 16 (initSlots n.decl * 2 + 2) = f.top - BitVec.ofNat 16 (depth + 2) := by
    bv_omega
  have hback : f.top - BitVec.ofNat 16 (depth + (initSlots n.decl * 2 + 4)) +
      BitVec.ofNat 16 (initSlots n.decl * 2 + 4) = f.top - BitVec.ofNat 16 depth := by
    bv_omega
  rw [hself, word_of_kept hkept (by omega) (by omega) (by omega), entered.savedSelf] at hix
  rw [hframe, word_of_kept hkept (by omega) (by omega) (by omega), entered.savedFrame] at hiy
  refine ⟨hix, hiy, hsp''.trans (hback.trans h.sp.symm), ?_⟩
  refine filled_of_below hlimit hslot (hsp.trans entered.sp) (by omega) (k := 2) (by omega) ?_
  exact fun a ha => hruns.memory ha

theorem Constructs.performed (hf : f.Sound) (hlimit : limit < 65536)
    (hslot : f.Clear limit f.slot)
    (h : Constructs f.image f.scene.table f.blocks keep f.top depth n s trace s')
    (hentry : f.Entry limit depth n s) : f.Performed keep depth n s trace s' := by
  induction h with
  | @root depth n s hroot =>
    obtain ⟨j, hj, hlabel, hret⟩ := hf.root_ret hentry.node hroot
    refine ⟨rfl, rfl, rfl, ?_, ?_⟩
    · rw [hf.noSlots n hentry.node hroot]
      exact .quiet rfl
    · rw [hj]
      exact .within ((reaches_label hlabel).trans (reaches_ret hret))
  | @derived depth j n p s s1 s2 s3 s4 above own hparent hj entered called hown stored left ih =>
    have hn := hentry.node
    have hroom := hentry.frameRoom_le hf hparent
    have hstands := hf.stands hn hparent hj
    have hentered := hentry.entered hf hlimit hslot hparent entered (f.image.start (resume n j))
    have habove := ih (hentry.parent hf hparent hentered)
    obtain ⟨hix, hsp2, heffect2⟩ := hentered.resumed hentry habove
    rcases Fills.effect hf (hentry.blocks_le hf hparent) hslot hn hparent stored hown
      (hentry.clear_blocks hf hparent) hstands.blocks hix with ⟨hstill, heffect3, htravels⟩
    rw [(hf.code.routine n hn p hparent).1.map_slot] at heffect3
    rcases hentered.left hf hlimit hslot hentry hroom (hstill.sp.trans hsp2)
      (heffect2.trans heffect3).kept left with ⟨hix4, hiy4, hsp4, hfilled4⟩
    have heffect : f.Effect keep depth (filledSlots n) (above ++ own) s s4 := by
      have hall := hentered.filled.effect.trans
        (((heffect2.trans heffect3).trans hfilled4.effect).mono (Nat.le_add_right depth 4))
      rwa [nil_append, append_nil, ← hf.slots n hn p hparent, nil_append,
        append_nil] at hall
    refine ⟨hix4, hiy4, ?_, ⟨heffect.kept, fun hkeep => ?_, heffect.proper⟩, ?_⟩
    · show s4.sp + 2#16 = _
      rw [hsp4]
    · have hfilled := heffect.filled hkeep
      exact ⟨hfilled.kept, hfilled.stored, hfilled.unstored⟩
    · have hreturn : s4.memory.word s4.sp = s.memory.word s.sp := by
        rw [hsp4, hentry.sp]
        exact word_of_kept heffect.kept hentry.returns (Nat.le_refl depth) (by omega)
      have hexit := (reaches_code hstands.exit left).trans (reaches_ret hstands.ret)
      rw [hreturn] at hexit
      rw [hj]
      exact (hstands.travels_resume hf hparent entered habove.travels).trans
        (htravels.trans (.within hexit))

structure Reached (f : Construction) (n : ClassNode) (s : Cpu) (b : InitBlock) (i : Nat)
    (s' : Cpu) : Prop where
  ix : s'.ix = f.self
  travels : Travels f.image (fun _ => False) (f.image.target n.initLabel) s (.line i) s'
  filled : ∃ before after, filledSlots n = before ++ b.slot :: after ∧ f.Filled 0 before s s'

theorem Underway.reached (hf : f.Sound) (hlimit : limit < 65536) (hslot : f.Clear limit f.slot)
    (h : f.Underway depth n s b i s') (hentry : f.Entry limit depth n s) :
    f.Reached n s b i s' := by
  induction h with
  | @here depth j n p s s1 s2 s' b trace before after hparent hj entered called hblocks stored =>
    have hn := hentry.node
    have hstands := hf.stands hn hparent hj
    have hentered := hentry.entered hf hlimit hslot hparent entered (f.image.start (resume n j))
    have habove := Constructs.performed hf hlimit hslot called (hentry.parent hf hparent hentered)
    obtain ⟨hix, _, heffect2⟩ := hentered.resumed hentry habove
    have hplaced := hstands.blocks
    rw [hblocks, flatMap_append, placed_append] at hplaced
    have hclear : ∀ b ∈ before.map InitStore.block, b ∈ f.blocks n ∧ f.Clear limit b.slot := by
      intro b hb
      apply hentry.clear_blocks hf hparent
      rw [hblocks]
      exact mem_append_left _ hb
    rcases Fills.effect hf (hentry.blocks_le hf hparent) hslot hn hparent stored rfl hclear
      hplaced.1 hix with ⟨hstill, heffect3, htravels⟩
    refine ⟨hstill.ix.trans hix, ?_,
      filledSlots p ++ (before.map InitStore.block).map InitBlock.slot,
      after.map InitBlock.slot, ?_, ?_⟩
    · rw [hj]
      exact (hstands.travels_resume hf hparent entered habove.travels).trans htravels
    · rw [hf.slots n hn p hparent, ← (hf.code.routine n hn p hparent).1.map_slot, hblocks,
        map_append, append_assoc]
      rfl
    · exact (hentered.filled.mono (Nat.zero_le _)).trans
        (((heffect2.trans heffect3).filled fun _ ha => ha).mono (Nat.zero_le _))
  | @above depth j i n p s s1 s' b hparent hj entered inside ih =>
    have hn := hentry.node
    have hstands := hf.stands hn hparent hj
    have hentered := hentry.entered hf hlimit hslot hparent entered (f.image.start (resume n j))
    obtain ⟨hix, htravels, before, after, hslots, hfilled⟩ := ih (hentry.parent hf hparent hentered)
    refine ⟨hix, ?_, before, after ++ storedSlots n, ?_, ?_⟩
    · rw [hj]
      exact (hstands.travels_entry hf hparent entered).trans htravels
    · rw [hf.slots n hn p hparent, hslots, append_assoc]
      rfl
    · exact (hentered.filled.mono (Nat.zero_le _)).trans
        ((hentered.called.mono (Nat.zero_le _)).trans hfilled)

end Construction

end CoolCompiler.Machine
