import CoolCompiler.Proofs.Machine.Calls

/-!
# Operations on words

What the code that an operation ends with computes of the words of its operands, for all words and
wherever the objects are.
-/

namespace CoolCompiler.Machine

open List Emit

def payload (M : Memory) (p : Word) : Word := M.word (p + 6#16)

/-- The stack area in use by code that pushes one word: that word and so many words on top of
the stack. -/
def StackInUse (s : Cpu) (n : Nat) (a : Word) : Prop :=
  Below (s.sp + BitVec.ofNat 16 (2 * n)) (2 * n + 2) a

def Outside (s : Cpu) (n : Nat) (p : Word) : Prop :=
  ¬ StackInUse s n (p + 6#16) ∧ ¬ StackInUse s n (p + 6#16 + 1#16)

/-- Code that leaves a truth value in hl, which hangs on the objects in de and hl.  It writes
to the stack area in use only. -/
def Decides (ls : List Line) (holds : Memory → Word → Word → Bool) : Prop :=
  ∀ (m : Image) (i : Nat) (s : Cpu), m.Placed i ls → Outside s 0 s.de → Outside s 0 s.hl →
    ∃ s', Reaches m (fun a => ¬ StackInUse s 0 a) (.line i) s (.line (i + ls.length)) s' ∧
      Still s s' ∧ s'.hl = m.value (boolLabel (holds s.memory s.de s.hl))

/-- Code that takes a new object from the stack to hl with a value that hangs on the operands, and
writes only to it and to the stack area in use. -/
def Boxes (ls : List Line) (operands : Cpu → List Word) (result : Cpu → Word) : Prop :=
  ∀ (m : Image) (i : Nat) (s : Cpu) (p : Word), m.Placed i ls → s.memory.word s.sp = p →
    Outside s 1 p → (∀ o ∈ operands s, Outside s 1 o) →
    ∃ s', Reaches m (fun a => ¬ StackInUse s 1 a ∧ a ≠ p + 6#16 ∧ a ≠ p + 6#16 + 1#16)
        (.line i) s (.line (i + ls.length)) s' ∧
      s'.hl = p ∧ payload s'.memory p = result s ∧
      s'.sp = s.sp + 2#16 ∧ s'.ix = s.ix ∧ s'.iy = s.iy

section Stack

variable {s : Cpu} {a p : Word}

theorem spared_of_stackInUse {n : Nat} (hn : n ≤ 1) (h : ¬ StackInUse s n a) : Spared s a := by
  unfold StackInUse Below at h
  unfold Spared
  rcases Nat.le_one_iff_eq_zero_or_eq_one.mp hn with rfl | rfl
  · simp only [Nat.mul_zero] at h
    constructor <;> bv_omega
  · simp only [Nat.mul_one] at h
    constructor <;> bv_omega

theorem ne_of_stackInUse (h : ¬ StackInUse s 1 a) : a ≠ s.sp ∧ a ≠ s.sp + 1#16 := by
  unfold StackInUse Below at h
  simp only [Nat.mul_one] at h
  constructor <;> bv_omega

theorem Outside.spared {n : Nat} (hn : n ≤ 1) (h : Outside s n p) :
    Spared s (p + 6#16) ∧ Spared s (p + 6#16 + 1#16) :=
  ⟨spared_of_stackInUse hn h.1, spared_of_stackInUse hn h.2⟩

end Stack

theorem decides_compareSigned (orEqual : Bool) (done : Name) :
    Decides (code (unboxOperands ++ compareSigned orEqual) ++ selectBool .carry done)
      fun M left right => if orEqual then decide ((payload M left).toInt ≤ (payload M right).toInt)
        else decide ((payload M left).toInt < (payload M right).toInt) := by
  intro m i s hplaced hleft hright
  have hzero := Nat.zero_le 1
  rcases reaches_compareSigned (fun a ha => spared_of_stackInUse hzero ha) (hleft.spared hzero)
    (hright.spared hzero) orEqual hplaced with ⟨s', hreaches, hstill, hhl, _⟩
  refine ⟨s', hreaches, hstill, hhl.trans ?_⟩
  cases orEqual <;> rfl

theorem decides_equal {type : Name} (htype : type = Name.int ∨ type = Name.bool)
    (isTrue done : Name) :
    Decides (code (testSame isTrue ++ testEqual type isTrue) ++ equalityResult isTrue done)
      fun M left right => decide (left = right ∨ payload M left = payload M right) := by
  intro m i s hplaced hleft hright
  have hzero := Nat.zero_le 1
  rcases reaches_equal (fun a ha => spared_of_stackInUse hzero ha) (hleft.spared hzero)
    (hright.spared hzero) htype hplaced with ⟨s', hreaches, hstill, hhl, _⟩
  exact ⟨s', hreaches, hstill, hhl⟩

/-!
# Arithmetic
-/

theorem boxes_of_runs {is : List Instr} {operands : Cpu → List Word} {result : Cpu → Word}
    (h : ∀ (value : Name → Word) (s : Cpu), (∀ o ∈ operands s, Outside s 1 o) →
      ∃ s', Runs value (fun a => ¬ StackInUse s 1 a) s is s' ∧ Still s s' ∧ s'.hl = result s ∧
        ∀ a, Spared s a → s'.memory a = s.memory a) :
    Boxes (code (is ++ boxResult)) operands result := by
  intro m i s p hplaced htop hnew hoperands
  obtain ⟨s1, hruns, hstill, hhl, hmemory⟩ := h m.value s hoperands
  have hkept : Runs m.value (fun a => ¬ StackInUse s 1 a ∧ a ≠ p + 6#16 ∧ a ≠ p + 6#16 + 1#16) s
      is s1 := hruns.mono fun a ha => ha.1
  have hobject : s1.memory.word s1.sp = p := by
    rw [hstill.sp, ← htop]
    refine Memory.word_congr (hmemory _ ?_) (hmemory _ ?_) <;> unfold Spared <;>
      constructor <;> bv_omega
  have hsix := ne_of_stackInUse hnew.1
  have hseven := ne_of_stackInUse hnew.2
  rw [← hstill.sp] at hsix hseven
  rcases runs_boxResult m.value hobject
      (fun a (ha : ¬ StackInUse s 1 a ∧ a ≠ p + 6#16 ∧ a ≠ p + 6#16 + 1#16) =>
        ⟨hstill.sp ▸ ne_of_stackInUse ha.1, ha.2⟩)
      ⟨⟨hsix.1.symm, hseven.1.symm⟩, hsix.2.symm, hseven.2.symm⟩ with
    ⟨s2, hbox, hix, hiy, hsp, hresult, hboxed⟩
  refine ⟨s2, ?_, hresult, ?_, by rw [hsp, hstill.sp], hix.trans hstill.ix, hiy.trans hstill.iy⟩
  · have hreaches := reaches_code hplaced (hkept.append hbox)
    rw [code, length_map]
    exact hreaches
  · rw [payload, hboxed, Memory.word_putWord_self, hhl]

theorem boxes_arithmetic {op : Operator} (compute : Word → Word → Word)
    (hop : ∀ value keep s, ∃ s', Runs value keep s (arithmetic op) s' ∧ Still s s' ∧
      s'.hl = compute s.hl s.bc ∧ s'.memory = s.memory) :
    Boxes (code (unboxOperands ++ arithmetic op ++ boxResult)) (fun s => [s.de, s.hl])
      fun s => compute (payload s.memory s.de) (payload s.memory s.hl) := by
  refine boxes_of_runs fun value s hoperands => ?_
  have hleft := (hoperands s.de mem_cons_self).spared (Nat.le_refl 1)
  have hright := (hoperands s.hl (mem_cons_of_mem _ mem_cons_self)).spared (Nat.le_refl 1)
  rcases runs_unboxOperands value
      (fun a (ha : ¬ StackInUse s 1 a) => spared_of_stackInUse (Nat.le_refl 1) ha) hleft hright with
    ⟨s1, hunbox, hstill, hhl, hbc, hmemory⟩
  obtain ⟨s2, hruns, hstill', hhl', hmemory'⟩ := hop value (fun a => ¬ StackInUse s 1 a) s1
  refine ⟨s2, hunbox.append hruns, hstill.trans hstill', ?_, fun a ha => ?_⟩
  · rw [hhl', hhl, hbc]
    rfl
  · rw [hmemory', hmemory a ha]

theorem boxes_add : Boxes (code (unboxOperands ++ arithmetic .add ++ boxResult))
    (fun s => [s.de, s.hl]) fun s => payload s.memory s.de + payload s.memory s.hl :=
  boxes_arithmetic (· + ·) runs_add

theorem boxes_sub : Boxes (code (unboxOperands ++ arithmetic .sub ++ boxResult))
    (fun s => [s.de, s.hl]) fun s => payload s.memory s.de - payload s.memory s.hl := by
  refine boxes_arithmetic (· - ·) fun value keep s => ?_
  obtain ⟨s', hruns, hstill, hhl, _, hmemory⟩ := runs_subtract value keep s
  exact ⟨s', hruns, hstill, hhl, hmemory⟩

theorem boxes_negate : Boxes (code (negatePayload ++ boxResult)) (fun s => [s.hl])
    fun s => -payload s.memory s.hl := by
  refine boxes_of_runs fun value s _ => ?_
  rcases runs_negatePayload value (fun a => ¬ StackInUse s 1 a) s with
    ⟨s', hruns, hstill, hhl, hmemory⟩
  exact ⟨s', hruns, hstill, hhl, fun a _ => congrFun hmemory a⟩

/-!
# Emitted operations
-/

/-- The code of an operation ends with code that is exact on all words: comparisons are signed,
sums and differences are modulo the size of a word, and the stack is left as it was found but
for the new object. -/
theorem operations_exact (sc : Scene) (st st' : Session) (ls : List Line) :
    (∀ mark op l r, Yields (expr sc (.binary mark op l r)) st ls () st' →
      ∃ head first second tail s₁ s₂ s₃, Yields (binaryHead sc op) st head () s₁ ∧
        Yields (expr sc l) s₁ first () s₂ ∧ Yields (expr sc r) s₂ second () s₃ ∧
        ls = head ++ (first ++ (code [.push .hl] ++ (second ++ (code [.pop .de] ++ tail)))) ∧
        (op = .less → Decides tail fun M left right =>
          decide ((payload M left).toInt < (payload M right).toInt)) ∧
        (op = .lessEq → Decides tail fun M left right =>
          decide ((payload M left).toInt ≤ (payload M right).toInt)) ∧
        (op = .equal → l.type = Name.int ∨ l.type = Name.bool → Decides tail fun M left right =>
          decide (left = right ∨ payload M left = payload M right)) ∧
        (op = .add → Boxes tail (fun s => [s.de, s.hl]) fun s =>
          payload s.memory s.de + payload s.memory s.hl) ∧
        (op = .sub → Boxes tail (fun s => [s.de, s.hl]) fun s =>
          payload s.memory s.de - payload s.memory s.hl)) ∧
    ∀ mark e, Yields (expr sc (.negate mark e)) st ls () st' →
      ∃ n first tail, sc.table.find? Name.int = some n ∧ Yields (expr sc e) st first () st' ∧
        ls = code (pushCopy n.prototypeLabel) ++ (first ++ tail) ∧
        Boxes tail (fun s => [s.hl]) fun s => -payload s.memory s.hl := by
  constructor
  · intro mark op l r h
    rcases yields_binary h with
      ⟨head, first, second, tail, s₁, s₂, s₃, hhead, hfirst, hsecond, htail, rfl⟩
    refine ⟨head, first, second, tail, s₁, s₂, s₃, hhead, hfirst, hsecond, rfl, ?_, ?_, ?_, ?_, ?_⟩
    · rintro rfl
      rw [(yields_select htail).2]
      exact decides_compareSigned false _
    · rintro rfl
      rw [(yields_select htail).2]
      exact decides_compareSigned true _
    · rintro rfl htype
      rw [(yields_binaryTail_equal htail).2]
      exact decides_equal htype _ _
    · rintro rfl
      rw [(yields_binaryTail_arithmetic (.inl rfl) htail).1]
      exact boxes_add
    · rintro rfl
      rw [(yields_binaryTail_arithmetic (.inr (.inl rfl)) htail).1]
      exact boxes_sub
  · intro mark e h
    rcases yields_negate h with ⟨n, first, hn, hfirst, rfl⟩
    exact ⟨n, first, _, hn, hfirst, rfl, boxes_negate⟩

def literalComparison : Expr :=
  .binary ⟨"<", 1, []⟩ .less (.bool ⟨"true", 1, []⟩ true) (.bool ⟨"false", 1, []⟩ false)

def literalSession : Session :=
  ⟨0, Environment.fresh ⟨⟨1, "Main", none, [], "main.cl"⟩, 5, some 0, [], [], 6, []⟩⟩

def literalImage : Image where
  code := (expr ⟨⟨[]⟩, Pool.empty⟩ literalComparison literalSession).lines
  labelled := by decide
  value := fun x => if x = boolLabel true then 0x9001#16 else 0x9009#16
  start := fun i => BitVec.ofNat 16 i
  library := fun _ _ => none

def distantState : Cpu :=
  ⟨0#8, 0#16, 0x5000#16, 0x5100#16, 0#16, 0#16, 0xf000#16, false, false,
    Memory.putWord (Memory.putWord (fun _ => 0#8) 0x5006#16 0x8000#16) 0x5106#16 1#16⟩

theorem operations_exact_distant : ∃ tail i s',
    tail <:+ literalImage.code ∧ literalImage.Placed i tail ∧
    (payload distantState.memory distantState.de).toInt = -32768 ∧
    (payload distantState.memory distantState.hl).toInt = 1 ∧
    Reaches literalImage (fun a => ¬ StackInUse distantState 0 a) (.line i) distantState
      (.line (i + tail.length)) s' ∧
    s'.sp = distantState.sp ∧ s'.hl = 0x9001#16 := by
  have hyields : Yields (expr ⟨⟨[]⟩, Pool.empty⟩ literalComparison) literalSession
      literalImage.code () _ := ⟨rfl, rfl, rfl⟩
  rcases (operations_exact _ _ _ _).1 _ _ _ _ hyields with
    ⟨head, first, second, tail, _, _, _, _, _, _, hcode, hless, _⟩
  have htail : tail <:+ literalImage.code := by
    rw [hcode]
    exact ⟨head ++ (first ++ (code [.push .hl] ++ (second ++ code [.pop .de]))), by simp⟩
  rcases exists_placed htail.isInfix with ⟨i, hplaced⟩
  have hleft : payload distantState.memory distantState.de = 0x8000#16 := by decide
  have hright : payload distantState.memory distantState.hl = 1#16 := by decide
  have houtside : Outside distantState 0 distantState.de ∧
      Outside distantState 0 distantState.hl := by
    unfold Outside StackInUse Below
    decide
  rcases hless rfl literalImage i distantState hplaced houtside.1 houtside.2 with
    ⟨s', hreaches, hstill, hhl⟩
  refine ⟨tail, i, s', htail, hplaced, by rw [hleft]; rfl, by rw [hright]; rfl, hreaches,
    hstill.sp, ?_⟩
  simp only [hhl, hleft, hright]
  rfl

end CoolCompiler.Machine
