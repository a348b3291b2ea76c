import Mathlib.Data.List.Forall2
import CoolCompiler.Emit.Expression
import CoolCompiler.Proofs.Machine.Sequences
import CoolCompiler.Proofs.Value.Eval

/-!
# Values in memory

A value is represented by the word that code has in hl for it.  Integers and truth values are
objects of four words with the value in the last, and void is zero.
-/

namespace CoolCompiler
namespace Machine

open Emit

/-- What a routine runs in: the program and its image, the frame pointer, the words of the frame for
variables, the end of the stack and the free bytes below it, and memory live for other reasons, such
as constants. -/
structure Storage where
  scene : Scene
  image : Image
  base : Word
  slots : List Nat
  top : Word
  room : Nat
  keep : Word → Prop

def InBlock (p a : Word) : Prop := (a - p).toNat < 8

namespace Storage

variable (f : Storage)

def InSlot (a : Word) : Prop :=
  ∃ k ∈ f.slots, a = slotAt f.base k ∨ a = slotAt f.base k + 1#16

def InStack (a : Word) : Prop := Below f.top f.room a

def stackAt (k : Nat) : Word := f.top - BitVec.ofNat 16 (2 * (k + 1))

def OnStack (d : Nat) (M : Memory) (p : Word) : Prop := ∃ k, k < d ∧ M.word (f.stackAt k) = p

/-- What a new object must not overlap: what is live, the variables, the stack, and the objects that
these point at. -/
def Live (d : Nat) (M : Memory) (a : Word) : Prop :=
  f.keep a ∨ f.InSlot a ∨ f.InStack a ∨
    ∃ p, p ≠ 0#16 ∧ (f.OnStack d M p ∨ ∃ k ∈ f.slots, M.word (slotAt f.base k) = p) ∧ InBlock p a

/-- With the prototype of integers in hl, the run-time library returns a new copy in hl and changes
only the free part of the stack. -/
def Allocates : Prop :=
  ∀ (d : Nat) (s : Cpu) (n : ClassNode), f.scene.table.find? Name.int = some n →
    s.hl = f.image.value n.prototypeLabel → s.iy = f.base →
    s.sp = f.top - BitVec.ofNat 16 (2 * d) → 2 * d ≤ f.room →
    ∃ s', f.image.library "Object.copy" s = some s' ∧ Still s s' ∧ s'.hl ≠ 0#16 ∧
      (∀ a, InBlock s'.hl a → ¬ f.Live d s.memory a) ∧
      (∀ k, k < 8 → s'.memory (s'.hl + BitVec.ofNat 16 k) = s.memory (s.hl + BitVec.ofNat 16 k)) ∧
      ∀ a, ¬ InBlock s'.hl a → (f.InStack a → Below f.top (2 * d) a) → s'.memory a = s.memory a

/-- The parts of memory are apart, and the library does what is asked of it. -/
structure Sound : Prop where
  slot_lt : ∀ k ∈ f.slots, k < 64
  room_lt : f.room < 65536
  slot_stack : ∀ a, f.InSlot a → ¬ f.InStack a
  keep_slot : ∀ a, f.keep a → ¬ f.InSlot a
  keep_stack : ∀ a, f.keep a → ¬ f.InStack a
  copy : f.image.target "Object.copy" = .outside "Object.copy"
  allocates : f.Allocates

structure Header (M : Memory) (n : ClassNode) (p : Word) : Prop where
  tag : M.word p = BitVec.ofInt 16 n.tag
  size : M.word (p + 2#16) = BitVec.ofInt 16 n.objectSize
  dispatch : M.word (p + 4#16) = f.image.value n.dispatchLabel

def Boxed (M : Memory) (c : Name) (w p : Word) : Prop :=
  (∃ n, f.scene.table.find? c = some n ∧ f.Header M n p) ∧ M.word (p + 6#16) = w

/-- An object that neither variables, nor the stack, nor unfinished objects overlap. -/
def Apart (shut : List Word) (p : Word) : Prop :=
  ∀ a, InBlock p a → ¬ f.InSlot a ∧ ¬ f.InStack a ∧ ∀ q ∈ shut, ¬ InBlock q a

end Storage

inductive Represents (f : Storage) (shut : List Word) (M : Memory) : Value → Word → Prop where
  | boxed {v c w p} : v.box? = some (c, w) → p ≠ 0#16 → f.Boxed M c w p → f.Apart shut p →
      Represents f shut M v p
  | string {s k p} : f.scene.pool.strings.find? s = some k →
      p = f.image.value (stringLabel k) → p ≠ 0#16 → Represents f shut M (.string s) p
  | void : Represents f shut M .void 0#16
  | object {p} : p ≠ 0#16 → Represents f shut M (.object p) p

/-!
# What representations depend on

The memory of an object decides what it represents, so writing elsewhere does not matter.
-/

variable {places : List (Name × Indexed)} {ρ : Dictionary Value} {k : Nat} {c : Name} {a w : Word}

theorem inBlock_add (p : Word) (hk : k < 8) : InBlock p (p + BitVec.ofNat 16 k) := by
  unfold InBlock
  bv_omega

variable {f : Storage} {shut shut' : List Word} {M M' : Memory} {p : Word} {v : Value} {d : Nat}

theorem word_of_bytes {p' : Word} {n : Nat} (hk : k + 1 < n)
    (h : ∀ j, j < n → M' (p' + BitVec.ofNat 16 j) = M (p + BitVec.ofNat 16 j)) :
    M'.word (p' + BitVec.ofNat 16 k) = M.word (p + BitVec.ofNat 16 k) := by
  have hnext := h (k + 1) hk
  rw [BitVec.ofNat_add, ← BitVec.add_assoc, ← BitVec.add_assoc] at hnext
  rw [Memory.word, Memory.word, h k (by omega), hnext]

theorem Storage.Header.copy {n : ClassNode} {p' : Word} (h : f.Header M n p)
    (hsame : ∀ j, j < 6 → M' (p' + BitVec.ofNat 16 j) = M (p + BitVec.ofNat 16 j)) :
    f.Header M' n p' := by
  constructor
  · have hword := word_of_bytes (k := 0) (by decide) hsame
    rw [BitVec.add_zero, BitVec.add_zero] at hword
    rw [hword, h.tag]
  · exact (word_of_bytes (k := 2) (by decide) hsame).trans h.size
  · exact (word_of_bytes (k := 4) (by decide) hsame).trans h.dispatch

theorem Storage.Boxed.of_eq (h : f.Boxed M c w p) (hsame : ∀ a, InBlock p a → M' a = M a) :
    f.Boxed M' c w p := by
  obtain ⟨⟨n, hn, hheader⟩, hword⟩ := h
  have hbytes : ∀ j, j < 8 → M' (p + BitVec.ofNat 16 j) = M (p + BitVec.ofNat 16 j) :=
    fun j hj => hsame _ (inBlock_add p hj)
  constructor
  · exact ⟨n, hn, hheader.copy fun j hj => hbytes j (by omega)⟩
  · exact (word_of_bytes (k := 6) (by decide) hbytes).trans hword

namespace Represents

variable (h : Represents f shut M v p)
include h

theorem of_eq (hsame : ∀ a, ¬ f.InSlot a → ¬ f.InStack a →
      (∀ q ∈ shut, ¬ InBlock q a) → M' a = M a) :
    Represents f shut M' v p := by
  cases h with
  | boxed hbox hp hboxed hapart =>
    refine .boxed hbox hp (hboxed.of_eq ?_) hapart
    intro a ha
    have haway := hapart a ha
    exact hsame a haway.1 haway.2.1 haway.2.2
  | string hfind hlabel hp => exact .string hfind hlabel hp
  | void => exact .void
  | object hp => exact .object hp

theorem mono (hsub : ∀ q ∈ shut', q ∈ shut) : Represents f shut' M v p := by
  cases h with
  | boxed hbox hp hboxed hapart =>
    refine .boxed hbox hp hboxed ?_
    intro a ha
    have haway := hapart a ha
    exact ⟨haway.1, haway.2.1, fun q hq => haway.2.2 q (hsub q hq)⟩
  | string hfind hlabel hp => exact .string hfind hlabel hp
  | void => exact .void
  | object hp => exact .object hp

theorem fresh {q : Word} (hfresh : p ≠ 0#16 → ∀ a, InBlock q a → ¬ InBlock p a) :
    Represents f (q :: shut) M v p := by
  cases h with
  | boxed hbox hp hboxed hapart =>
    refine .boxed hbox hp hboxed ?_
    intro a ha
    have haway := hapart a ha
    refine ⟨haway.1, haway.2.1, ?_⟩
    intro r hr
    cases hr with
    | head _ => exact fun hq => hfresh hp a hq ha
    | tail _ hr => exact haway.2.2 r hr
  | string hfind hlabel hp => exact .string hfind hlabel hp
  | void => exact .void
  | object hp => exact .object hp

theorem eq_zero_iff : p = 0#16 ↔ v = .void := by
  cases h with
  | boxed hbox hp _ _ =>
    constructor
    · exact fun hzero => absurd hzero hp
    · intro hvoid
      rw [hvoid] at hbox
      cases hbox
  | string _ _ hp => simp [hp]
  | void => simp
  | object hp => simp [hp]

theorem boxed_of_box? {c : Name} {w : Word} (hbox : v.box? = some (c, w)) :
    p ≠ 0#16 ∧ f.Boxed M c w p ∧ f.Apart shut p := by
  cases h with
  | boxed hbox' hp hboxed hapart =>
    rw [hbox] at hbox'
    cases hbox'
    exact ⟨hp, hboxed, hapart⟩
  | string _ _ _ => cases hbox
  | void => cases hbox
  | object _ => cases hbox

end Represents

/-!
# Variables and constants
-/

def Storage.Stored (f : Storage) (shut : List Word) (M : Memory)
    (places : List (Name × Indexed)) (ρ : Dictionary Value) : Prop :=
  List.Forall₂ (fun x y => x.1 = y.1 ∧ ∃ k ∈ f.slots, x.2 = slotPlace k ∧
    Represents f shut M y.2 (M.word (slotAt f.base k))) places ρ

theorem Storage.InSlot.of_mem (hk : k ∈ f.slots) :
    f.InSlot (slotAt f.base k) ∧ f.InSlot (slotAt f.base k + 1#16) :=
  ⟨⟨k, hk, .inl rfl⟩, ⟨k, hk, .inr rfl⟩⟩

theorem Storage.Stored.of_eq (h : f.Stored shut M places ρ) (hf : f.Sound)
    (hshut : ∀ q ∈ shut, ∀ a, InBlock q a → ¬ f.InSlot a)
    (hsame : ∀ a, ¬ f.InStack a → (∀ q ∈ shut, ¬ InBlock q a) → M' a = M a) :
    f.Stored shut M' places ρ := by
  refine List.Forall₂.imp ?_ h
  intro x y hxy
  obtain ⟨hname, k, hk, hplace, hvalue⟩ := hxy
  have hslot : ∀ a, f.InSlot a → M' a = M a := by
    intro a ha
    apply hsame a (hf.slot_stack a ha)
    exact fun q hq hblock => hshut q hq a hblock ha
  have hword : M'.word (slotAt f.base k) = M.word (slotAt f.base k) :=
    Memory.word_congr (hslot _ (InSlot.of_mem hk).1) (hslot _ (InSlot.of_mem hk).2)
  refine ⟨hname, k, hk, hplace, ?_⟩
  rw [hword]
  exact hvalue.of_eq fun a _ hstack hblocks => hsame a hstack hblocks

theorem Storage.Stored.mono (h : f.Stored shut M places ρ) (hsub : ∀ q ∈ shut', q ∈ shut) :
    f.Stored shut' M places ρ := by
  refine List.Forall₂.imp ?_ h
  intro x y hxy
  obtain ⟨hname, k, hk, hplace, hvalue⟩ := hxy
  exact ⟨hname, k, hk, hplace, hvalue.mono hsub⟩

theorem Storage.Stored.fresh (h : f.Stored shut M places ρ)
    (hfresh : ∀ a, InBlock p a → ¬ f.Live d M a) : f.Stored (p :: shut) M places ρ := by
  refine List.Forall₂.imp ?_ h
  intro x y hxy
  obtain ⟨hname, k, hk, hplace, hvalue⟩ := hxy
  refine ⟨hname, k, hk, hplace, hvalue.fresh ?_⟩
  intro hne a ha hblock
  exact hfresh a ha (.inr (.inr (.inr ⟨_, hne, .inr ⟨k, hk, rfl⟩, hblock⟩)))

structure Storage.Constant (f : Storage) (M : Memory) (c : Name) (w p : Word) : Prop where
  ne_zero : p ≠ 0#16
  boxed : f.Boxed M c w p
  live : ∀ a, InBlock p a → f.keep a

theorem Storage.Constant.of_eq (h : f.Constant M c w p) (hsame : ∀ a, f.keep a → M' a = M a) :
    f.Constant M' c w p where
  ne_zero := h.ne_zero
  boxed := h.boxed.of_eq fun a ha => hsame a (h.live a ha)
  live := h.live

theorem Storage.Constant.represents (h : f.Constant M c w p) (hf : f.Sound)
    (hbox : v.box? = some (c, w)) (hshut : ∀ q ∈ shut, ∀ a, InBlock q a → ¬ f.keep a) :
    Represents f shut M v p := by
  refine .boxed hbox h.ne_zero h.boxed ?_
  intro a ha
  have hkeep := h.live a ha
  exact ⟨hf.keep_slot a hkeep, hf.keep_stack a hkeep, fun q hq hblock => hshut q hq a hblock hkeep⟩

/-- Memory holds the constants of the program and the prototype of integers. -/
structure Storage.Static (f : Storage) (M : Memory) : Prop where
  int {n : Int} {k : Nat} : f.scene.pool.ints.find? n = some k →
    f.Constant M Name.int (BitVec.ofInt 16 n) (f.image.value (intLabel k))
  bool (b : Bool) :
    f.Constant M Name.bool (if b then 1#16 else 0#16) (f.image.value (boolLabel b))
  string {s : Text} {k : Nat} : f.scene.pool.strings.find? s = some k →
    f.image.value (stringLabel k) ≠ 0#16
  prototype {n : ClassNode} : f.scene.table.find? Name.int = some n →
    f.Header M n (f.image.value n.prototypeLabel) ∧
      ∀ k, k < 6 → f.keep (f.image.value n.prototypeLabel + BitVec.ofNat 16 k)

theorem Storage.Static.of_eq (h : f.Static M) (hsame : ∀ a, f.keep a → M' a = M a) :
    f.Static M' where
  int hfind := (h.int hfind).of_eq hsame
  bool b := (h.bool b).of_eq hsame
  string hfind := h.string hfind
  prototype := by
    intro n hn
    obtain ⟨hheader, hkeep⟩ := h.prototype hn
    exact ⟨hheader.copy fun k hk => hsame _ (hkeep k hk), hkeep⟩

theorem below_stackAt {n : Nat} (hk : k < d) (hd : 2 * d ≤ n) :
    Below f.top n (f.stackAt k) ∧ Below f.top n (f.stackAt k + 1#16) := by
  unfold Below Storage.stackAt
  constructor <;> bv_omega

theorem word_stackAt_of_eq (hk : k < d) (hsame : ∀ a, Below f.top (2 * d) a → M' a = M a) :
    M'.word (f.stackAt k) = M.word (f.stackAt k) := by
  have hbelow : Below f.top (2 * d) (f.stackAt k) ∧ Below f.top (2 * d) (f.stackAt k + 1#16) :=
    below_stackAt hk (Nat.le_refl _)
  exact Memory.word_congr (hsame _ hbelow.1) (hsame _ hbelow.2)

theorem not_below_stackAt (hk : d ≤ k) (hsmall : 2 * (k + 1) < 65536) :
    ¬ Below f.top (2 * d) (f.stackAt k) ∧ ¬ Below f.top (2 * d) (f.stackAt k + 1#16) := by
  unfold Below Storage.stackAt
  constructor <;> bv_omega

/-- What code that begins with so many words on the stack leaves alone: what is live, those words,
and their objects. -/
def Storage.Kept (f : Storage) (d : Nat) (M : Memory) (a : Word) : Prop :=
  f.keep a ∨ Below f.top (2 * d) a ∨ ∃ p, f.OnStack d M p ∧ InBlock p a

theorem onStack_congr (hsame : ∀ a, Below f.top (2 * d) a → M' a = M a) :
    f.OnStack d M' p ↔ f.OnStack d M p := by
  constructor
  · rintro ⟨k, hk, heq⟩
    exact ⟨k, hk, (word_stackAt_of_eq hk hsame).symm.trans heq⟩
  · rintro ⟨k, hk, heq⟩
    exact ⟨k, hk, (word_stackAt_of_eq hk hsame).trans heq⟩

theorem Storage.Kept.of_eq (h : f.Kept d M a) (hsame : ∀ a, Below f.top (2 * d) a → M' a = M a) :
    f.Kept d M' a := by
  rcases h with hkeep | hbelow | ⟨p, hp, hblock⟩
  · exact .inl hkeep
  · exact .inr (.inl hbelow)
  · exact .inr (.inr ⟨p, (onStack_congr hsame).mpr hp, hblock⟩)

theorem Storage.Kept.succ (h : f.Kept d M a) : f.Kept (d + 1) M a := by
  rcases h with hkeep | hbelow | ⟨p, ⟨k, hk, hword⟩, hblock⟩
  · exact .inl hkeep
  · exact .inr (.inl (Nat.lt_of_lt_of_le hbelow (by omega)))
  · exact .inr (.inr ⟨p, ⟨k, Nat.lt_succ_of_lt hk, hword⟩, hblock⟩)

/-!
# States between expressions
-/

/-- A state in which code may begin: so many words are on the stack, some of them unfinished
objects, and the variables hold values. -/
structure Ready (f : Storage) (shut : List Word) (d : Nat) (places : List (Name × Indexed))
    (ρ : Dictionary Value) (s : Cpu) : Prop where
  iy : s.iy = f.base
  sp : s.sp = f.top - BitVec.ofNat 16 (2 * d)
  fits : 2 * d ≤ f.room
  static : f.Static s.memory
  stack : ∀ p, f.OnStack d s.memory p →
    p ≠ 0#16 ∧ ∀ a, InBlock p a → ¬ f.InSlot a ∧ ¬ f.InStack a
  pending : ∀ p ∈ shut, f.OnStack d s.memory p ∧ ∀ a, InBlock p a → ¬ f.keep a
  stored : f.Stored shut s.memory places ρ

/-- Code from one line to another leaves the variables with values; otherwise it changes only
what it may. -/
structure Passes (f : Storage) (shut : List Word) (d : Nat) (places : List (Name × Indexed))
    (i j : Nat) (s : Cpu) (ρ : Dictionary Value) (s' : Cpu) : Prop where
  reaches : Reaches f.image (f.Kept d s.memory) (.line i) s (.line j) s'
  still : Still s s'
  stored : f.Stored shut s'.memory places ρ

structure Computes (f : Storage) (shut : List Word) (d : Nat) (places : List (Name × Indexed))
    (i j : Nat) (s : Cpu) (v : Value) (ρ : Dictionary Value) (s' : Cpu) : Prop extends
    Passes f shut d places i j s ρ s' where
  value : Represents f shut s'.memory v s'.hl

theorem Reaches.kept {q q' : Place} {s s' : Cpu} (h : Reaches f.image (f.Kept d s.memory) q s q' s')
    (ha : f.Kept d s.memory a) : f.Kept d s'.memory a :=
  ha.of_eq fun _ hbelow => h.memory (.inr (.inl hbelow))

section Passes

variable {places places' : List (Name × Indexed)} {i j k : Nat} {s s1 s' : Cpu}
  {ρ ρ' : Dictionary Value}

theorem Passes.trans (h : Passes f shut d places i j s ρ s1)
    (h' : Passes f shut d places' j k s1 ρ' s') : Passes f shut d places' i k s ρ' s' where
  reaches := h.reaches.trans (h'.reaches.mono fun _ ha => h.reaches.kept ha)
  still := h.still.trans h'.still
  stored := h'.stored

theorem Passes.computes (h : Passes f shut d places i j s ρ s1)
    (h' : Computes f shut d places' j k s1 v ρ' s') : Computes f shut d places' i k s v ρ' s' where
  toPasses := h.trans h'.toPasses
  value := h'.value

theorem Passes.label {name : Name} (hstored : f.Stored shut s.memory places ρ)
    (h : f.image.code[i]? = some (.label name)) : Passes f shut d places i (i + 1) s ρ s where
  reaches := reaches_label h
  still := .refl s
  stored := hstored

theorem Passes.jump {flag : Flag} {name : Name} {b : Bool}
    (hstored : f.Stored shut s.memory places ρ)
    (h : f.image.code[i]? = some (.instr (.jp flag name)))
    (hlabel : f.image.code[j]? = some (.label name)) (hflag : holds? s flag = some b) :
    Passes f shut d places i (if b then j else i + 1) s ρ s where
  reaches := reaches_branch h hlabel hflag
  still := .refl s
  stored := hstored

theorem Computes.moved (h : Computes f shut d places i j s v ρ s')
    (hmove : Passes f shut d places j k s' ρ s') : Computes f shut d places i k s v ρ s' where
  toPasses := h.toPasses.trans hmove
  value := h.value

theorem Computes.leave {x : Name × Indexed} {y : Name × Value}
    (h : Computes f shut d (x :: places) i j s v (y :: ρ) s') :
    Computes f shut d places i j s v ρ s' where
  reaches := h.reaches
  still := h.still
  stored := (List.forall₂_cons.mp h.stored).2
  value := h.value

end Passes

namespace Ready

variable {places places' : List (Name × Indexed)} {ρ ρ' : Dictionary Value} {s s' : Cpu}

variable {a w : Word}

variable (h : Ready f shut d places ρ s)
include h

theorem below_inStack (ha : Below f.top (2 * d) a) : f.InStack a :=
  Nat.lt_of_lt_of_le ha h.fits

theorem kept_slot (hf : f.Sound) (ha : f.Kept d s.memory a) : ¬ f.InSlot a := by
  rcases ha with hkeep | hbelow | ⟨p, hp, hblock⟩
  · exact hf.keep_slot a hkeep
  · exact fun hslot => hf.slot_stack a hslot (h.below_inStack hbelow)
  · exact ((h.stack p hp).2 a hblock).1

theorem stored_of_eq (hf : f.Sound)
    (hsame : ∀ a, ¬ f.InStack a → (∀ q ∈ shut, ¬ InBlock q a) → M' a = s.memory a) :
    f.Stored shut M' places ρ :=
  h.stored.of_eq hf (fun q hq a ha => ((h.stack q (h.pending q hq).1).2 a ha).1) hsame

theorem kept_live (ha : f.Kept d s.memory a) : f.Live d s.memory a := by
  rcases ha with hkeep | hbelow | ⟨p, hp, hblock⟩
  · exact .inl hkeep
  · exact .inr (.inr (.inl (h.below_inStack hbelow)))
  · exact .inr (.inr (.inr ⟨p, (h.stack p hp).1, .inl hp, hblock⟩))

theorem kept_inStack (hf : f.Sound) (ha : f.Kept d s.memory a) (hstack : f.InStack a) :
    Below f.top (2 * d) a := by
  rcases ha with hkeep | hbelow | ⟨p, hp, hblock⟩
  · exact absurd hstack (hf.keep_stack a hkeep)
  · exact hbelow
  · exact absurd hstack ((h.stack p hp).2 a hblock).2

theorem sp_sub : s.sp - 2#16 = f.stackAt d := by
  rw [h.sp, Storage.stackAt]
  bv_omega

omit h in
theorem next_inStack (hroom : 2 * (d + 1) ≤ f.room) :
    f.InStack (f.stackAt d) ∧ f.InStack (f.stackAt d + 1#16) :=
  below_stackAt (Nat.lt_succ_self d) hroom

theorem spared_of_not_inStack (hroom : 2 * (d + 1) ≤ f.room) (ha : ¬ f.InStack a) : Spared s a := by
  unfold Spared
  rw [h.sp_sub]
  constructor
  · rintro rfl
    exact ha (next_inStack hroom).1
  · rintro rfl
    exact ha (next_inStack hroom).2

theorem kept_spared (hf : f.Sound) (hroom : 2 * (d + 1) ≤ f.room) (ha : f.Kept d s.memory a) :
    Spared s a := by
  by_cases hstack : f.InStack a
  · have hbelow := h.kept_inStack hf ha hstack
    have hfree := not_below_stackAt (f := f) (Nat.le_refl d)
      (Nat.lt_of_le_of_lt hroom hf.room_lt)
    unfold Spared
    rw [h.sp_sub]
    constructor
    · rintro rfl
      exact hfree.1 hbelow
    · rintro rfl
      exact hfree.2 hbelow
  · exact h.spared_of_not_inStack hroom hstack

theorem after (hstill : Still s s') (hkept : ∀ a, f.Kept d s.memory a → s'.memory a = s.memory a)
    (hstored : f.Stored shut s'.memory places' ρ') : Ready f shut d places' ρ' s' := by
  have hsame : ∀ a, Below f.top (2 * d) a → s'.memory a = s.memory a :=
    fun a ha => hkept a (.inr (.inl ha))
  constructor
  · exact hstill.iy.trans h.iy
  · exact hstill.sp.trans h.sp
  · exact h.fits
  · exact h.static.of_eq fun a ha => hkept a (.inl ha)
  · exact fun p hp => h.stack p ((onStack_congr hsame).mp hp)
  · intro p hp
    exact ⟨(onStack_congr hsame).mpr (h.pending p hp).1, (h.pending p hp).2⟩
  · exact hstored

theorem next {i j : Nat} (hp : Passes f shut d places' i j s ρ' s') :
    Ready f shut d places' ρ' s' :=
  h.after hp.still (fun _ ha => hp.reaches.memory ha) hp.stored

theorem onStack_push (hf : f.Sound) (hroom : 2 * (d + 1) ≤ f.room) :
    f.OnStack (d + 1) (s.push w).memory p ↔ f.OnStack d s.memory p ∨ p = w := by
  have hsame : ∀ a, Below f.top (2 * d) a → (s.push w).memory a = s.memory a :=
    fun a ha => push_memory (h.kept_spared hf hroom (.inr (.inl ha)))
  have htop : (s.push w).memory.word (f.stackAt d) = w := by
    rw [← h.sp_sub]
    exact Memory.word_putWord_self
  constructor
  · rintro ⟨k, hk, hword⟩
    rcases Nat.lt_succ_iff_lt_or_eq.mp hk with hlt | rfl
    · exact .inl ((onStack_congr hsame).mp ⟨k, hlt, hword⟩)
    · exact .inr (hword.symm.trans htop)
  · intro hp
    cases hp with
    | inl hp =>
      obtain ⟨k, hk, hword⟩ := (onStack_congr hsame).mpr hp
      exact ⟨k, Nat.lt_succ_of_lt hk, hword⟩
    | inr heq => exact ⟨d, Nat.lt_succ_self d, htop.trans heq.symm⟩

theorem pushed (hf : f.Sound) (hroom : 2 * (d + 1) ≤ f.room) (hw : w ≠ 0#16)
    (hblock : ∀ a, InBlock w a → ¬ f.InSlot a ∧ ¬ f.InStack a) :
    Ready f shut (d + 1) places ρ (s.push w) := by
  constructor
  · exact h.iy
  · show s.sp - 2#16 = _
    rw [h.sp_sub, Storage.stackAt]
  · exact hroom
  · exact h.static.of_eq fun a ha => push_memory (h.kept_spared hf hroom (.inl ha))
  · intro p hp
    cases (h.onStack_push hf hroom).mp hp with
    | inl hp => exact h.stack p hp
    | inr heq => exact heq ▸ ⟨hw, hblock⟩
  · intro p hp
    exact ⟨(h.onStack_push hf hroom).mpr (.inl (h.pending p hp).1), (h.pending p hp).2⟩
  · exact h.stored_of_eq hf fun a ha _ => push_memory (h.spared_of_not_inStack hroom ha)

theorem shutting (hw : f.OnStack d s.memory w) (hkeep : ∀ a, InBlock w a → ¬ f.keep a)
    (hstored : f.Stored (w :: shut) s.memory places ρ) : Ready f (w :: shut) d places ρ s := by
  constructor
  · exact h.iy
  · exact h.sp
  · exact h.fits
  · exact h.static
  · exact h.stack
  · intro p hp
    cases hp with
    | head _ => exact ⟨hw, hkeep⟩
    | tail _ hp => exact h.pending p hp
  · exact hstored

end Ready

end Machine
end CoolCompiler
