import CoolCompiler.Proofs.Dictionary
import CoolCompiler.Proofs.Emit.Written
import CoolCompiler.Proofs.Value.Storage

/-!
# Values in code

Constants and variables come to hl, variables are set, flags become truth values, and results get
objects.
-/

namespace CoolCompiler.Machine

open List Emit

variable {f : Storage} {shut : List Word} {d i : Nat} {places : List (Name × Indexed)}
  {ρ : Dictionary Value} {s s' : Cpu} {v : Value}

namespace Ready

variable (h : Ready f shut d places ρ s)
include h

theorem quiet {is : List Instr} (hplaced : f.image.Placed i (code is))
    (hruns : Runs f.image.value (f.Kept d s.memory) s is s') (hstill : Still s s')
    (hmemory : s'.memory = s.memory) :
    Passes f shut d places i (i + is.length) s ρ s' where
  reaches := reaches_code hplaced hruns
  still := hstill
  stored := by
    rw [hmemory]
    exact h.stored

/-!
# Constants
-/

theorem represents_constant (hf : f.Sound) {c : Name} {w p : Word}
    (hconst : f.Constant s.memory c w p) (hbox : v.box? = some (c, w)) :
    Represents f shut s.memory v p :=
  hconst.represents hf hbox fun q hq => (h.pending q hq).2

theorem computes_address {label : Name}
    (hplaced : f.image.Placed i (code [Instr.loadAddress .hl ⟨label, 0⟩]))
    (hvalue : Represents f shut s.memory v (f.image.value label)) :
    Computes f shut d places i (i + 1) s v ρ { s with hl := f.image.value label } :=
  ⟨h.quiet hplaced (runs_loadAddress label) ⟨rfl, rfl, rfl⟩ rfl, hvalue⟩

theorem computes_int (hf : f.Sound) {n : Int} {k : Nat} (hk : f.scene.pool.ints.find? n = some k)
    (hplaced : f.image.Placed i (code [Instr.loadAddress .hl ⟨intLabel k, 0⟩])) :
    ∃ s', Computes f shut d places i (i + 1) s (.int (BitVec.ofInt 16 n)) ρ s' :=
  ⟨_, h.computes_address hplaced (h.represents_constant hf (h.static.int hk) rfl)⟩

theorem computes_bool (hf : f.Sound) (b : Bool) (hplaced : f.image.Placed i (code [loadBool b])) :
    Computes f shut d places i (i + 1) s (.bool b) ρ
      { s with hl := f.image.value (boolLabel b) } :=
  h.computes_address hplaced (h.represents_constant hf (h.static.bool b) rfl)

theorem computes_void (hplaced : f.image.Placed i (code [Instr.loadInt .hl 0])) :
    Computes f shut d places i (i + 1) s .void ρ { s with hl := 0#16 } :=
  ⟨h.quiet hplaced (.quiet rfl rfl (.nil _)) ⟨rfl, rfl, rfl⟩ rfl, .void⟩

theorem computes_default (hf : f.Sound) {type : Name} {session session' : Session} {ls : List Line}
    {u : Unit} (hyields : Yields (defaultValue f.scene type) session ls u session')
    (hplaced : f.image.Placed i ls) :
    ∃ s', Computes f shut d places i (i + ls.length) s (Value.initial type) ρ s' := by
  unfold Value.initial
  rcases (yields_defaultValue hyields).2 with hint | hbool | hstring | hvoid
  · obtain ⟨rfl, k, hk, rfl⟩ := hint
    exact h.computes_int hf hk hplaced
  · obtain ⟨rfl, rfl⟩ := hbool
    exact ⟨_, h.computes_bool hf false hplaced⟩
  · obtain ⟨rfl, k, hk, rfl⟩ := hstring
    exact ⟨_, h.computes_address hplaced (.string hk rfl (h.static.string hk))⟩
  · obtain ⟨⟨hint, hbool, hstring⟩, rfl⟩ := hvoid
    rw [if_neg hint, if_neg hbool, if_neg hstring]
    exact ⟨_, h.computes_void hplaced⟩

theorem computes_truth (hf : f.Sound) {j : Nat} {b : Bool}
    (hpasses : Passes f shut d places i j s ρ s') (hhl : s'.hl = f.image.value (boolLabel b)) :
    Computes f shut d places i j s (.bool b) ρ s' := by
  have hready := h.next hpasses
  refine ⟨hpasses, ?_⟩
  rw [hhl]
  exact hready.represents_constant hf (hready.static.bool b) rfl

theorem computes_select (hf : f.Sound) {flag : Flag} {b : Bool} {label : Name}
    (hflag : holds? s flag = some b) (hplaced : f.image.Placed i (selectBool flag label)) :
    ∃ s', Computes f shut d places i (i + 4) s (.bool b) ρ s' :=
  ⟨_, h.computes_truth hf ⟨reaches_selectBool hflag hplaced, ⟨rfl, rfl, rfl⟩, h.stored⟩ rfl⟩

end Ready

/-!
# Variables
-/

theorem slotPlace_injective : Function.Injective slotPlace := by
  intro k k' h
  have hoffset : 2 * (k : Int) = 2 * (k' : Int) := congrArg Indexed.offset h
  omega

theorem word_putWord_slot {M : Memory} {base w : Word} {k k' : Nat} (hk : k < 64) (hk' : k' < 64)
    (hne : k' ≠ k) :
    (M.putWord (slotAt base k) w).word (slotAt base k') = M.word (slotAt base k') := by
  unfold slotAt
  apply Memory.word_putWord_of_ne <;> bv_omega

theorem Represents.putSlot {M : Memory} {p w : Word} {k : Nat} (h : Represents f shut M v p)
    (hk : k ∈ f.slots) : Represents f shut (M.putWord (slotAt f.base k) w) v p := by
  apply h.of_eq
  intro a ha _ _
  apply Memory.putWord_of_ne
  · rintro rfl
    exact ha (Storage.InSlot.of_mem hk).1
  · rintro rfl
    exact ha (Storage.InSlot.of_mem hk).2

namespace Storage.Stored

variable {M : Memory} {k : Nat} {w : Word} {x : Name}

theorem find? (h : f.Stored shut M places ρ) (hx : ρ.find? x = some v) :
    ∃ k ∈ f.slots, Dictionary.find? places x = some (slotPlace k) ∧
      Represents f shut M v (M.word (slotAt f.base k)) := by
  induction h with
  | nil => cases hx
  | @cons here there places ρ hfirst _ ih =>
    obtain ⟨hname, k, hk, hplace, hvalue⟩ := hfirst
    rw [Dictionary.find?_cons] at hx ⊢
    rw [hname, hplace]
    split at hx
    · rename_i heq
      cases hx
      exact ⟨k, hk, if_pos heq, hvalue⟩
    · rename_i hne
      rw [if_neg hne]
      exact ih hx

theorem putOther (h : f.Stored shut M places ρ) (hf : f.Sound) (hk : k ∈ f.slots)
    (hfree : slotPlace k ∉ places.map Prod.snd) :
    f.Stored shut (M.putWord (slotAt f.base k) w) places ρ := by
  induction h with
  | nil => exact .nil
  | @cons here there places ρ hfirst _ ih =>
    obtain ⟨hname, k', hk', hplace, hvalue⟩ := hfirst
    rw [map_cons, mem_cons, not_or] at hfree
    have hne : k' ≠ k := by
      rintro rfl
      exact hfree.1 hplace.symm
    refine .cons ⟨hname, k', hk', hplace, ?_⟩ (ih hfree.2)
    rw [word_putWord_slot (hf.slot_lt k hk) (hf.slot_lt k' hk') hne]
    exact hvalue.putSlot hk

theorem put (h : f.Stored shut M places ρ) (hf : f.Sound) (hk : k ∈ f.slots)
    (hnodup : (places.map Prod.snd).Nodup) (hx : Dictionary.find? places x = some (slotPlace k))
    (hv : Represents f shut M v w) :
    f.Stored shut (M.putWord (slotAt f.base k) w) places (ρ.put x v) := by
  induction h with
  | nil => cases hx
  | @cons here there places ρ hfirst hrest ih =>
    obtain ⟨y, place⟩ := here
    obtain ⟨z, old⟩ := there
    obtain ⟨hname, k', hk', hplace, hvalue⟩ := hfirst
    cases hname
    cases hplace
    rw [map_cons, nodup_cons] at hnodup
    rw [Dictionary.find?_cons] at hx
    rw [Dictionary.put]
    split at hx
    · rename_i heq
      cases slotPlace_injective (Option.some.inj hx)
      rw [if_pos heq.symm]
      refine .cons ⟨heq.symm, k, hk, rfl, ?_⟩ (putOther hrest hf hk hnodup.1)
      rw [Memory.word_putWord_self]
      exact hv.putSlot hk
    · rename_i hne
      have hmem : slotPlace k ∈ places.map Prod.snd := by
        obtain ⟨before, after, rfl, _⟩ := lookup_eq_some_iff.mp hx
        simp
      have hother : k' ≠ k := by
        rintro rfl
        exact hnodup.1 hmem
      rw [if_neg (Ne.symm hne)]
      refine .cons ⟨rfl, k', hk', rfl, ?_⟩ (ih hnodup.2 hx)
      rw [word_putWord_slot (hf.slot_lt k hk) (hf.slot_lt k' hk') hother]
      exact hvalue.putSlot hk

end Storage.Stored

theorem find?_flatten (scopes : List (Dictionary Indexed)) (x : Name) :
    Dictionary.find? scopes.flatten x = scopes.findSome? fun scope => scope.find? x := by
  induction scopes with
  | nil => rfl
  | cons scope scopes ih =>
    rw [flatten_cons, findSome?_cons, ← ih]
    unfold Dictionary.find?
    rw [lookup_append]
    cases List.lookup x scope <;> rfl

theorem lookup_of_find? {env : Environment} {x : Name} {place : Indexed}
    (h : Dictionary.find? env.scopes.flatten x = some place) : env.lookup x = .ok place := by
  rw [find?_flatten] at h
  rw [Environment.lookup, h]

namespace Ready

variable (h : Ready f shut d places ρ s)
include h

theorem computes_variable (hf : f.Sound) {k : Nat} (hk : k ∈ f.slots)
    (hplaced : f.image.Placed i (code (Instr.loadWord .hl (slotPlace k))))
    (hvalue : Represents f shut s.memory v (s.memory.word (slotAt f.base k))) :
    ∃ s', Computes f shut d places i (i + 2) s v ρ s' := by
  have hruns : Runs f.image.value (f.Kept d s.memory) s (Instr.loadWord .hl (slotPlace k)) _ :=
    runs_loadWord (hf.slot_lt k hk)
  refine ⟨_, h.quiet hplaced hruns ⟨rfl, rfl, rfl⟩ rfl, ?_⟩
  show Represents f shut s.memory v (s.memory.word (slotAt s.iy k))
  rw [h.iy]
  exact hvalue

theorem computes_store (hf : f.Sound) {k : Nat} {places' : List (Name × Indexed)}
    {ρ' : Dictionary Value} (hk : k ∈ f.slots)
    (hplaced : f.image.Placed i (code (Instr.storeWord (slotPlace k) .hl)))
    (hvalue : Represents f shut s.memory v s.hl)
    (hstored : f.Stored shut (s.memory.putWord (slotAt f.base k) s.hl) places' ρ') :
    ∃ s', Computes f shut d places' i (i + 2) s v ρ' s' := by
  have hkeep : ∀ a, f.Kept d s.memory a → a ≠ slotAt s.iy k ∧ a ≠ slotAt s.iy k + 1#16 := by
    intro a ha
    have haway := h.kept_slot hf ha
    rw [h.iy]
    constructor
    · rintro rfl
      exact haway (Storage.InSlot.of_mem hk).1
    · rintro rfl
      exact haway (Storage.InSlot.of_mem hk).2
  have hruns : Runs f.image.value (f.Kept d s.memory) s (Instr.storeWord (slotPlace k) .hl) _ :=
    runs_storeWord (hf.slot_lt k hk) hkeep
  refine ⟨_, ⟨reaches_code hplaced hruns, ⟨rfl, rfl, rfl⟩, ?_⟩, ?_⟩
  · show f.Stored shut (s.memory.putWord (slotAt s.iy k) s.hl) places' ρ'
    rw [h.iy]
    exact hstored
  · show Represents f shut (s.memory.putWord (slotAt s.iy k) s.hl) v s.hl
    rw [h.iy]
    exact hvalue.putSlot hk

/-!
# Operands
-/

theorem operands (hf : f.Sound) (hroom : 2 * (d + 1) ≤ f.room) {u : Value} {c : Name} {w : Word}
    {j : Nat} {ρ' : Dictionary Value} (hu : Represents f shut s.memory u s.hl)
    (hbox : u.box? = some (c, w)) (hpush : f.image.Placed i (code [.push .hl]))
    (hpop : f.image.Placed j (code [.pop .de])) (hright : ∀ s1, Ready f shut (d + 1) places ρ s1 →
      ∃ s2, Computes f shut (d + 1) places (i + 1) j s1 v ρ' s2) :
    ∃ s', Passes f shut d places i (j + 1) s ρ' s' ∧ Represents f shut s'.memory u s'.de ∧
      Represents f shut s'.memory v s'.hl := by
  obtain ⟨hne, hboxed, hapart⟩ := hu.boxed_of_box? hbox
  have hpushed := h.pushed hf hroom hne fun a ha => ⟨(hapart a ha).1, (hapart a ha).2.1⟩
  have hfirst : Reaches f.image (f.Kept d s.memory) (.line i) s (.line (i + 1)) (s.push s.hl) :=
    reaches_code hpush (runs_push fun a ha => h.kept_spared hf hroom ha)
  obtain ⟨s2, hc⟩ := hright _ hpushed
  have hkept : ∀ a, f.Kept d s.memory a → f.Kept (d + 1) (s.push s.hl).memory a :=
    fun a ha => (hfirst.kept ha).succ
  have htop : s2.memory.word s2.sp = s.hl := by
    have hsp : s2.sp = f.stackAt d := hc.still.sp.trans h.sp_sub
    have hword := word_stackAt_of_eq (f := f) (Nat.lt_succ_self d) fun a ha =>
      hc.reaches.memory (.inr (.inl ha))
    rw [hsp, hword, ← h.sp_sub]
    exact Memory.word_putWord_self
  let s3 : Cpu := { s2 with de := s.hl, sp := s2.sp + 2#16 }
  have hlast : Reaches f.image (f.Kept d s.memory) (.line j) s2 (.line (j + 1)) s3 := by
    refine reaches_code hpop (.quiet rfl rfl (.done ?_))
    simp only [htop, s3]
  have hblock : ∀ a, InBlock s.hl a → s2.memory a = s.memory a := by
    intro a ha
    have hon : f.OnStack (d + 1) (s.push s.hl).memory s.hl :=
      (h.onStack_push hf hroom).mpr (.inr rfl)
    exact (hc.reaches.memory (.inr (.inr ⟨s.hl, hon, ha⟩))).trans
      (push_memory (h.spared_of_not_inStack hroom (hapart a ha).2.1))
  refine ⟨s3, ⟨hfirst.trans ((hc.reaches.mono hkept).trans hlast), ?_, hc.stored⟩, ?_, hc.value⟩
  · refine ⟨hc.still.ix, hc.still.iy, ?_⟩
    show s2.sp + 2#16 = s.sp
    rw [hc.still.sp]
    exact BitVec.sub_add_cancel s.sp 2#16
  · exact .boxed hbox hne (hboxed.of_eq hblock) hapart

theorem spared_payload (hroom : 2 * (d + 1) ≤ f.room) {p : Word} (hp : f.Apart shut p) :
    Spared s (p + 6#16) ∧ Spared s (p + 6#16 + 1#16) := by
  have hseven : p + 6#16 + 1#16 = p + 7#16 := by rw [BitVec.add_assoc]; rfl
  rw [hseven]
  constructor
  · exact h.spared_of_not_inStack hroom (hp _ (inBlock_add p (by decide : 6 < 8))).2.1
  · exact h.spared_of_not_inStack hroom (hp _ (inBlock_add p (by decide : 7 < 8))).2.1

theorem unboxes (hf : f.Sound) (hroom : 2 * (d + 1) ≤ f.room) {u : Value} {c c' : Name} {a b : Word}
    (hu : Represents f shut s.memory u s.de) (hv : Represents f shut s.memory v s.hl)
    (hubox : u.box? = some (c, a)) (hvbox : v.box? = some (c', b))
    (hplaced : f.image.Placed i (code unboxOperands)) :
    ∃ s', Passes f shut d places i (i + unboxOperands.length) s ρ s' ∧ s'.hl = a ∧ s'.bc = b := by
  obtain ⟨_, hleft, hleftApart⟩ := hu.boxed_of_box? hubox
  obtain ⟨_, hright, hrightApart⟩ := hv.boxed_of_box? hvbox
  have hkeep : ∀ a, f.Kept d s.memory a → Spared s a := fun a ha => h.kept_spared hf hroom ha
  rcases runs_unboxOperands f.image.value hkeep (h.spared_payload hroom hleftApart)
    (h.spared_payload hroom hrightApart) with ⟨s', hruns, hstill, hhl, hbc, hmemory⟩
  refine ⟨s', ⟨reaches_code hplaced hruns, hstill, ?_⟩, hhl.trans hleft.2, hbc.trans hright.2⟩
  exact h.stored_of_eq hf fun a ha _ => hmemory a (h.spared_of_not_inStack hroom ha)

theorem computes_comparison (hf : f.Sound) (hroom : 2 * (d + 1) ≤ f.room) {ls : List Line}
    {u : Value} {c c' : Name} {a b : Word} {holds : Bool} (hu : Represents f shut s.memory u s.de)
    (hv : Represents f shut s.memory v s.hl) (hubox : u.box? = some (c, a))
    (hvbox : v.box? = some (c', b)) (hruns : (∀ a, f.Kept d s.memory a → Spared s a) →
      Spared s (s.de + 6#16) ∧ Spared s (s.de + 6#16 + 1#16) →
      Spared s (s.hl + 6#16) ∧ Spared s (s.hl + 6#16 + 1#16) →
      s.memory.word (s.de + 6#16) = a → s.memory.word (s.hl + 6#16) = b →
      ∃ s', Reaches f.image (f.Kept d s.memory) (.line i) s (.line (i + ls.length)) s' ∧
        Still s s' ∧ s'.hl = f.image.value (boolLabel holds) ∧
        ∀ a, Spared s a → s'.memory a = s.memory a) :
    ∃ s', Computes f shut d places i (i + ls.length) s (.bool holds) ρ s' := by
  obtain ⟨_, hleft, hleftApart⟩ := hu.boxed_of_box? hubox
  obtain ⟨_, hright, hrightApart⟩ := hv.boxed_of_box? hvbox
  rcases hruns (fun a ha => h.kept_spared hf hroom ha) (h.spared_payload hroom hleftApart)
    (h.spared_payload hroom hrightApart) hleft.2 hright.2 with
    ⟨s', hreaches, hstill, hhl, hmemory⟩
  refine ⟨s', h.computes_truth hf ⟨hreaches, hstill, ?_⟩ hhl⟩
  exact h.stored_of_eq hf fun a ha _ => hmemory a (h.spared_of_not_inStack hroom ha)

end Ready

/-!
# Results

A result gets an object before its operands are computed.  It waits on the stack, unfinished, and no
code in between refers to it.
-/

structure Storage.Reserved (f : Storage) (d : Nat) (M : Memory) (p : Word) (M' : Memory) :
    Prop where
  ne_zero : p ≠ 0#16
  fresh : ∀ a, InBlock p a → ¬ f.Live d M a
  top : M'.word (f.stackAt d) = p
  header : ∃ n, f.scene.table.find? Name.int = some n ∧ f.Header M' n p

theorem Storage.Reserved.of_eq {M M1 M2 : Memory} {p : Word} (h : f.Reserved d M p M1)
    (hsame : ∀ a, f.Kept (d + 1) M1 a → M2 a = M1 a) : f.Reserved d M p M2 where
  ne_zero := h.ne_zero
  fresh := h.fresh
  top := by
    rw [← h.top]
    exact word_stackAt_of_eq (Nat.lt_succ_self d) fun a ha => hsame a (.inr (.inl ha))
  header := by
    obtain ⟨n, hn, hheader⟩ := h.header
    have hon : f.OnStack (d + 1) M1 p := ⟨d, Nat.lt_succ_self d, h.top⟩
    refine ⟨n, hn, hheader.copy fun j hj => hsame _ (.inr (.inr ⟨p, hon, ?_⟩))⟩
    exact inBlock_add p (by omega)

namespace Ready

theorem reserves (h : Ready f shut d places ρ s) (hf : f.Sound) (hroom : 2 * (d + 1) ≤ f.room)
    {n : ClassNode} (hn : f.scene.table.find? Name.int = some n)
    (hplaced : f.image.Placed i (code (pushCopy n.prototypeLabel))) :
    ∃ p s', Reaches f.image (f.Kept d s.memory) (.line i) s (.line (i + 3)) s' ∧ s'.ix = s.ix ∧
      f.Reserved d s.memory p s'.memory ∧ Ready f (p :: shut) (d + 1) places ρ s' := by
  obtain ⟨hload, hrest⟩ := (placed_code_append [_] [_, _]).mp hplaced
  obtain ⟨hcall, hpush⟩ := placed_cons.mp hrest
  let s1 : Cpu := { s with hl := f.image.value n.prototypeLabel }
  have hloaded : Reaches f.image (f.Kept d s.memory) (.line i) s (.line (i + 1)) s1 :=
    reaches_code hload (runs_loadAddress _)
  rcases hf.allocates d s1 n hn rfl h.iy h.sp h.fits with
    ⟨s2, hlibrary, hstill, hne, hfresh, hcopy, hframe⟩
  have hkept : ∀ a, f.Kept d s.memory a → s2.memory a = s.memory a := by
    intro a ha
    exact hframe a (fun hblock => hfresh a hblock (h.kept_live ha)) (h.kept_inStack hf ha)
  have hcalled : Reaches f.image (f.Kept d s.memory) (.line (i + 1)) s1 (.line (i + 2)) s2 :=
    reaches_library hcall hf.copy hlibrary hkept
  -- The variables look past the new object as long as it is not finished.
  have hstored : ∀ M', (∀ a, ¬ f.InStack a → ¬ InBlock s2.hl a → M' a = s.memory a) →
      f.Stored (s2.hl :: shut) M' places ρ := by
    intro M' hsame
    refine (h.stored.fresh hfresh).of_eq hf ?_ ?_
    · intro q hq a ha
      cases hq with
      | head _ => exact fun hslot => hfresh a ha (.inr (.inl hslot))
      | tail _ hq => exact ((h.stack q (h.pending q hq).1).2 a ha).1
    · exact fun a ha hblocks => hsame a ha (hblocks _ mem_cons_self)
  have hoff : ∀ a, ¬ f.InStack a → ¬ InBlock s2.hl a → s2.memory a = s.memory a :=
    fun a ha hblock => hframe a hblock fun hstack => absurd hstack ha
  have hready : Ready f shut d places ρ s2 :=
    h.after ⟨hstill.ix, hstill.iy, hstill.sp⟩ hkept
      ((hstored _ hoff).mono fun q hq => mem_cons_of_mem _ hq)
  have hblock : ∀ a, InBlock s2.hl a → ¬ f.InSlot a ∧ ¬ f.InStack a := fun a ha =>
    ⟨fun hslot => hfresh a ha (.inr (.inl hslot)),
      fun hstack => hfresh a ha (.inr (.inr (.inl hstack)))⟩
  have hpushed := hready.pushed hf hroom hne hblock
  have hsame : ∀ a, ¬ f.InStack a → (s2.push s2.hl).memory a = s2.memory a :=
    fun a ha => push_memory (hready.spared_of_not_inStack hroom ha)
  have hlast : Reaches f.image (f.Kept d s2.memory) (.line (i + 2)) s2 (.line (i + 3))
      (s2.push s2.hl) := reaches_code hpush (runs_push fun a ha => hready.kept_spared hf hroom ha)
  refine ⟨s2.hl, s2.push s2.hl, ?_, hstill.ix, ⟨hne, hfresh, ?_, n, hn, ?_⟩, ?_⟩
  · have hfirst := hloaded.trans hcalled
    exact hfirst.trans (hlast.mono fun a ha => hfirst.kept ha)
  · rw [← hready.sp_sub]
    exact Memory.word_putWord_self
  · apply (h.static.prototype hn).1.copy
    intro j hj
    rw [hsame _ (hblock _ (inBlock_add _ (by omega))).2]
    exact hcopy j (by omega)
  · refine hpushed.shutting ((hready.onStack_push hf hroom).mpr (.inr rfl)) ?_ ?_
    · exact fun a ha hkeep => hfresh a ha (.inl hkeep)
    · exact hstored _ fun a ha hblock => (hsame a ha).trans (hoff a ha hblock)

theorem finishes {s0 : Cpu} {p : Word} {ρ0 : Dictionary Value}
    (h0 : Ready f shut d places ρ0 s0) (h : Ready f (p :: shut) (d + 1) places ρ s) (hf : f.Sound)
    (hp : f.Reserved d s0.memory p s.memory) (hplaced : f.image.Placed i (code boxResult)) :
    ∃ s', Reaches f.image (f.Kept d s0.memory) (.line i) s (.line (i + boxResult.length)) s' ∧
      s'.ix = s.ix ∧ s'.iy = s.iy ∧ s'.sp = s.sp + 2#16 ∧ f.Stored shut s'.memory places ρ ∧
      Represents f shut s'.memory (.int s.hl) s'.hl := by
  have hroom : 2 * (d + 1) ≤ f.room := h.fits
  have hsp : s.sp = f.stackAt d := h.sp
  have hnext := next_inStack (f := f) hroom
  have hblock : ∀ a, InBlock p a → ¬ f.InStack a :=
    fun a ha hstack => hp.fresh a ha (.inr (.inr (.inl hstack)))
  have hsix : InBlock p (p + 6#16) := inBlock_add p (by decide : 6 < 8)
  have hseven : InBlock p (p + 6#16 + 1#16) := by
    rw [BitVec.add_assoc]
    exact inBlock_add p (by decide : 7 < 8)
  have hne : ∀ {a b : Word}, f.InStack a → InBlock p b → a ≠ b := by
    rintro a _ ha hb rfl
    exact hblock a hb ha
  have hkeep : ∀ a, f.Kept d s0.memory a →
      (a ≠ s.sp ∧ a ≠ s.sp + 1#16) ∧ a ≠ p + 6#16 ∧ a ≠ p + 6#16 + 1#16 := by
    intro a ha
    have hspared := h0.kept_spared hf hroom ha
    rw [Spared, h0.sp_sub, ← hsp] at hspared
    refine ⟨hspared, ?_, ?_⟩
    · rintro rfl
      exact hp.fresh _ hsix (h0.kept_live ha)
    · rintro rfl
      exact hp.fresh _ hseven (h0.kept_live ha)
  rw [← hsp] at hnext
  rcases runs_boxResult f.image.value (by rw [hsp]; exact hp.top) hkeep
    ⟨⟨hne hnext.1 hsix, hne hnext.1 hseven⟩, hne hnext.2 hsix, hne hnext.2 hseven⟩ with
    ⟨s', hruns, hix, hiy, hsp', hhl, hmemory⟩
  have hsame : ∀ a, ¬ f.InStack a → a ≠ p + 6#16 → a ≠ p + 6#16 + 1#16 →
      s'.memory a = s.memory a := by
    intro a ha hsix hseven
    rw [hmemory, Memory.putWord_of_ne hsix hseven]
    apply Memory.putWord_of_ne
    · rintro rfl
      exact ha hnext.1
    · rintro rfl
      exact ha hnext.2
  refine ⟨s', reaches_code hplaced hruns, hix, hiy, hsp', ?_, ?_⟩
  · have hstored : f.Stored (p :: shut) s'.memory places ρ := by
      apply h.stored_of_eq hf
      intro a ha hblocks
      have haway := hblocks p mem_cons_self
      apply hsame a ha
      · rintro rfl
        exact haway hsix
      · rintro rfl
        exact haway hseven
    exact hstored.mono fun q hq => mem_cons_of_mem p hq
  · obtain ⟨n, hn, hheader⟩ := hp.header
    have hbytes : ∀ j, j < 6 →
        s'.memory (p + BitVec.ofNat 16 j) = s.memory (p + BitVec.ofNat 16 j) := by
      intro j hj
      apply hsame _ (hblock _ (inBlock_add p (by omega))) <;> bv_omega
    rw [hhl]
    refine .boxed rfl hp.ne_zero ⟨⟨n, hn, hheader.copy hbytes⟩, ?_⟩ ?_
    · rw [hmemory, Memory.word_putWord_self]
    · intro a ha
      refine ⟨fun hslot => hp.fresh a ha (.inr (.inl hslot)), hblock a ha, ?_⟩
      intro q hq hblock'
      have hon := (h0.pending q hq).1
      exact hp.fresh a ha (.inr (.inr (.inr ⟨q, (h0.stack q hon).1, .inl hon, hblock'⟩)))

theorem computes_result (h : Ready f shut d places ρ s) (hf : f.Sound)
    (hroom : 2 * (d + 1) ≤ f.room) {n : ClassNode} {j : Nat} {w : Word} {ρ' : Dictionary Value}
    (hn : f.scene.table.find? Name.int = some n)
    (hcopy : f.image.Placed i (code (pushCopy n.prototypeLabel)))
    (hfinish : f.image.Placed j (code boxResult))
    (hinside : ∀ p s1, Ready f (p :: shut) (d + 1) places ρ s1 →
      ∃ s2, Passes f (p :: shut) (d + 1) places (i + 3) j s1 ρ' s2 ∧ s2.hl = w) :
    ∃ s', Computes f shut d places i (j + boxResult.length) s (.int w) ρ' s' := by
  obtain ⟨p, s1, hfirst, hix, hp, hready⟩ := h.reserves hf hroom hn hcopy
  obtain ⟨s2, hpasses, rfl⟩ := hinside p s1 hready
  have hp2 := hp.of_eq fun a ha => hpasses.reaches.memory ha
  rcases h.finishes (hready.next hpasses) hf hp2 hfinish with
    ⟨s', hlast, hix', hiy', hsp', hstored, hvalue⟩
  have hmiddle := hpasses.reaches.mono fun a ha => (hfirst.kept ha).succ
  refine ⟨s', ⟨hfirst.trans (hmiddle.trans hlast), ⟨?_, ?_, ?_⟩, hstored⟩, hvalue⟩
  · exact hix'.trans (hpasses.still.ix.trans hix)
  · exact hiy'.trans ((hready.next hpasses).iy.trans h.iy.symm)
  · rw [hsp', (hready.next hpasses).sp, h.sp]
    bv_omega

end Ready

end CoolCompiler.Machine
