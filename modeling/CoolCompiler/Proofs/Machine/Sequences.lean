import CoolCompiler.Proofs.Machine.Run

/-!
# Short sequences

What the short sequences of instructions do that all code is made of.
-/

namespace CoolCompiler
namespace Machine

open Emit BitVec Instr

variable {value : Name → Word} {keep : Word → Prop} {s s' : Cpu}

theorem Runs.done (h : s = s') : Runs value keep s [] s' := by
  subst h
  exact .nil s

theorem runs_loadAddress (label : Name) :
    Runs value keep s [loadAddress .hl ⟨label, 0⟩] { s with hl := value label } := by
  refine .quiet rfl rfl (.done ?_)
  rw [show BitVec.ofInt 16 0 = 0#16 from rfl, BitVec.add_zero]

theorem runs_loadIndirect_bc : Runs value keep s (loadIndirect .bc)
    { s with bc := s.memory.word s.hl, hl := s.hl + 1#16 } := by
  refine .quiet rfl rfl (.quiet rfl rfl (.quiet rfl rfl (.done ?_)))
  simp [Memory.word]

theorem runs_loadIndirect_de : Runs value keep s (loadIndirect .de)
    { s with de := s.memory.word s.hl, hl := s.hl + 1#16 } := by
  refine .quiet rfl rfl (.quiet rfl rfl (.quiet rfl rfl (.done ?_)))
  simp [Memory.word]

theorem high_or_low_eq_zero (w : Word) : high w ||| low w = 0#8 ↔ w = 0#16 := by
  rw [or_eq_zero_iff]
  constructor
  · intro h
    have hhigh := congrArg BitVec.toNat h.1
    have hlow := congrArg BitVec.toNat h.2
    rw [toNat_high, toNat_ofNat] at hhigh
    rw [toNat_low, toNat_ofNat] at hlow
    apply eq_of_toNat_eq
    rw [toNat_ofNat]
    omega
  · intro h
    subst h
    exact ⟨rfl, rfl⟩

theorem runs_testZero_hl : Runs value keep s (testZero .hl)
    { s with a := high s.hl ||| low s.hl, carry := false, zero := decide (s.hl = 0#16) } := by
  refine .quiet rfl rfl (.quiet rfl rfl (.done ?_))
  simp only [accumulate, high_or_low_eq_zero]

theorem runs_testZero_de : Runs value keep s (testZero .de)
    { s with a := high s.de ||| low s.de, carry := false, zero := decide (s.de = 0#16) } := by
  refine .quiet rfl rfl (.quiet rfl rfl (.done ?_))
  simp only [accumulate, high_or_low_eq_zero]

/-!
# Payloads

Sequences that read and write the value of an object.  They use the word below the stack, which must
not be kept or read.
-/

structure Still (s s' : Cpu) : Prop where
  ix : s'.ix = s.ix
  iy : s'.iy = s.iy
  sp : s'.sp = s.sp

theorem Still.refl (s : Cpu) : Still s s := ⟨rfl, rfl, rfl⟩

theorem Still.trans {s1 : Cpu} (h : Still s s1) (h' : Still s1 s') : Still s s' :=
  ⟨h'.ix.trans h.ix, h'.iy.trans h.iy, h'.sp.trans h.sp⟩

def Spared (s : Cpu) (a : Word) : Prop := a ≠ s.sp - 2#16 ∧ a ≠ s.sp - 2#16 + 1#16

theorem push_memory {w a : Word} (h : Spared s a) : (s.push w).memory a = s.memory a :=
  Memory.putWord_of_ne h.1 h.2

theorem push_word {w p : Word} (h : Spared s p) (h' : Spared s (p + 1#16)) :
    (s.push w).memory.word p = s.memory.word p :=
  Memory.word_congr (push_memory h) (push_memory h')

theorem runs_push (hkeep : ∀ a, keep a → Spared s a) :
    Runs value keep s [.push .hl] (s.push s.hl) :=
  .cons rfl (fun a ha => push_memory (hkeep a ha)) (.nil _)

section Loads

variable (value : Name → Word)

theorem runs_loadPayload_bc (keep : Word → Prop) (s : Cpu) :
    ∃ s', Runs value keep s (loadPayload .bc) s' ∧ Still s s' ∧
    s'.bc = s.memory.word (s.hl + 6#16) ∧ s'.memory = s.memory := by
  refine ⟨_, .quiet rfl rfl (.quiet rfl rfl runs_loadIndirect_bc), ?_, rfl, rfl⟩
  exact ⟨rfl, rfl, rfl⟩

theorem runs_loadPayload_de (keep : Word → Prop) (s : Cpu) :
    ∃ s', Runs value keep s (loadPayload .de) s' ∧ Still s s' ∧
    s'.de = s.memory.word (s.hl + 6#16) ∧ s'.bc = s.bc ∧ s'.memory = s.memory := by
  refine ⟨_, .quiet rfl rfl (.quiet rfl rfl runs_loadIndirect_de), ?_, rfl, rfl, rfl⟩
  exact ⟨rfl, rfl, rfl⟩

theorem runs_unboxOperands (hkeep : ∀ a, keep a → Spared s a)
    (hleft : Spared s (s.de + 6#16) ∧ Spared s (s.de + 6#16 + 1#16))
    (hright : Spared s (s.hl + 6#16) ∧ Spared s (s.hl + 6#16 + 1#16)) :
    ∃ s', Runs value keep s unboxOperands s' ∧ Still s s' ∧
      s'.hl = s.memory.word (s.de + 6#16) ∧ s'.bc = s.memory.word (s.hl + 6#16) ∧
      ∀ a, Spared s a → s'.memory a = s.memory a := by
  have hpush : Runs value keep s [.push .de] (s.push s.de) :=
    .cons rfl (fun a ha => push_memory (hkeep a ha)) (.nil _)
  obtain ⟨s1, hbc, hstill, hbcWord, hmemory⟩ := runs_loadPayload_bc value keep (s.push s.de)
  let s2 : Cpu := { s1 with hl := s1.memory.word s1.sp, sp := s1.sp + 2#16 }
  have hpop : Runs value keep s1 [.pop .hl] s2 := .quiet rfl rfl (.nil _)
  obtain ⟨s3, hde, hstill', hdeWord, hbc', hmemory'⟩ := runs_loadPayload_de value keep s2
  have hhl : s2.hl = s.de := by
    show s1.memory.word s1.sp = s.de
    rw [hmemory, hstill.sp]
    exact Memory.word_putWord_self
  refine ⟨_, ((((hpush.append hbc).append hpop).append hde).append (.quiet rfl rfl (.nil _))),
    ?_, ?_, ?_, ?_⟩
  · constructor
    · exact hstill'.ix.trans hstill.ix
    · exact hstill'.iy.trans hstill.iy
    · show s3.sp = s.sp
      rw [hstill'.sp]
      show s1.sp + 2#16 = s.sp
      rw [hstill.sp]
      exact BitVec.sub_add_cancel s.sp 2#16
  · show s3.de = _
    rw [hdeWord, hhl]
    show s1.memory.word _ = _
    rw [hmemory]
    exact push_word hleft.1 hleft.2
  · show s3.bc = _
    rw [hbc']
    show s1.bc = _
    rw [hbcWord]
    exact push_word hright.1 hright.2
  · intro a ha
    show s3.memory a = s.memory a
    rw [hmemory']
    show s1.memory a = s.memory a
    rw [hmemory]
    exact push_memory ha

theorem runs_boxResult {p : Word} (hobject : s.memory.word s.sp = p)
    (hkeep : ∀ a, keep a → (a ≠ s.sp ∧ a ≠ s.sp + 1#16) ∧ a ≠ p + 6#16 ∧ a ≠ p + 6#16 + 1#16)
    (hapart : (s.sp ≠ p + 6#16 ∧ s.sp ≠ p + 6#16 + 1#16) ∧
      s.sp + 1#16 ≠ p + 6#16 ∧ s.sp + 1#16 ≠ p + 6#16 + 1#16) :
    ∃ s', Runs value keep s boxResult s' ∧ s'.ix = s.ix ∧ s'.iy = s.iy ∧ s'.sp = s.sp + 2#16 ∧
      s'.hl = p ∧ s'.memory = (s.memory.putWord s.sp p).putWord (p + 6#16) s.hl := by
  have hback : s.sp + 2#16 - 2#16 = s.sp := BitVec.add_sub_cancel s.sp 2#16
  let s1 : Cpu := { s with de := s.hl, hl := p, sp := s.sp + 2#16 }
  let s2 : Cpu := { s1 with sp := s.sp, memory := s.memory.putWord s.sp p }
  let s3 : Cpu := { s2 with
    bc := 6#16, hl := p + 6#16, carry := decide (65536 ≤ p.toNat + (6#16 : Word).toNat) }
  let s4 : Cpu := { s3 with
    hl := p + 6#16 + 1#16, memory := (s.memory.putWord s.sp p).putWord (p + 6#16) s.hl }
  have hpop : Runs value keep s [.exDeHl, .pop .hl] s1 := by
    refine .quiet rfl rfl (.quiet rfl rfl (.done ?_))
    simp only [hobject, s1]
  have hpush : Runs value keep s1 [.push .hl] s2 := by
    refine .cons rfl (fun a ha => ?_) (.done ?_)
    · show s.memory.putWord (s.sp + 2#16 - 2#16) p a = s.memory a
      rw [hback]
      exact Memory.putWord_of_ne (hkeep a ha).1.1 (hkeep a ha).1.2
    · simp only [Cpu.push, s1, s2, hback]
  have hadd : Runs value keep s2 [loadInt .bc payloadOffset, .add .hl .bc] s3 :=
    .quiet rfl rfl (.quiet rfl rfl (.nil _))
  have hstore : Runs value keep s3 (storeIndirect .de) s4 := by
    refine .cons rfl (fun a ha => ?_) (.quiet rfl rfl (.cons rfl (fun a ha => ?_) (.nil _)))
    · exact Memory.put_of_ne (hkeep a ha).2.1
    · exact Memory.put_of_ne (hkeep a ha).2.2
  have hlast : Runs value keep s4 [.pop .hl] { s4 with hl := p, sp := s.sp + 2#16 } := by
    refine .quiet rfl rfl (.done ?_)
    have hword : s4.memory.word s4.sp = p := by
      show ((s.memory.putWord s.sp p).putWord (p + 6#16) s.hl).word s.sp = p
      rw [Memory.word_putWord_of_ne hapart.1.1 hapart.1.2 hapart.2.1 hapart.2.2,
        Memory.word_putWord_self]
    simp only [hword]
    rfl
  exact ⟨_, hpop.append (((hpush.append hadd).append hstore).append hlast), rfl, rfl, rfl, rfl, rfl⟩

theorem runs_negatePayload (keep : Word → Prop) (s : Cpu) :
    ∃ s', Runs value keep s negatePayload s' ∧ Still s s' ∧
      s'.hl = -s.memory.word (s.hl + 6#16) ∧ s'.memory = s.memory := by
  obtain ⟨s1, hload, hstill, hde, _, hmemory⟩ := runs_loadPayload_de value keep s
  refine ⟨_, hload.append (.quiet rfl rfl (.quiet rfl rfl (.quiet rfl rfl (.nil _)))), ?_, ?_, ?_⟩
  · exact ⟨hstill.ix, hstill.iy, hstill.sp⟩
  · show 0#16 - s1.de - BitVec.ofNat 16 0 = _
    rw [hde]
    bv_omega
  · exact hmemory

theorem runs_testBool (keep : Word → Prop) (s : Cpu) :
    ∃ s', Runs value keep s testBool s' ∧ Still s s' ∧
      s'.zero = decide (s.memory.word (s.hl + 6#16) = 0#16) ∧ s'.memory = s.memory := by
  obtain ⟨s1, hload, hstill, hde, _, hmemory⟩ := runs_loadPayload_de value keep s
  refine ⟨_, hload.append runs_testZero_de, ?_, ?_, hmemory⟩
  · exact ⟨hstill.ix, hstill.iy, hstill.sp⟩
  · show decide (s1.de = 0#16) = _
    rw [hde]

/-!
# Arithmetic and comparison
-/

theorem runs_add (keep : Word → Prop) (s : Cpu) :
    ∃ s', Runs value keep s (arithmetic .add) s' ∧ Still s s' ∧ s'.hl = s.hl + s.bc ∧
      s'.memory = s.memory := by
  refine ⟨_, .quiet rfl rfl (.nil _), ?_, rfl, rfl⟩
  exact ⟨rfl, rfl, rfl⟩

theorem decide_sub_eq_zero (a b : Word) :
    decide (a - b - BitVec.ofNat 16 0 = 0#16) = decide (a = b) := by
  rw [BitVec.sub_zero, decide_eq_decide]
  constructor
  · intro hzero
    bv_omega
  · intro heq
    rw [heq, BitVec.sub_self]

theorem runs_subtract (keep : Word → Prop) (s : Cpu) :
    ∃ s', Runs value keep s [clearCarry, .sbc .hl .bc] s' ∧ Still s s' ∧
      s'.hl = s.hl - s.bc ∧ s'.zero = decide (s.hl = s.bc) ∧ s'.memory = s.memory := by
  refine ⟨_, .quiet rfl rfl (.quiet rfl rfl (.nil _)), ?_, ?_, ?_, rfl⟩
  · exact ⟨rfl, rfl, rfl⟩
  · exact BitVec.sub_zero _
  · exact decide_sub_eq_zero _ _

end Loads

def flipped (w : Word) : Word := withHigh w (high w ^^^ 0x80#8)

theorem toNat_xor_sign (b : Byte) : (b ^^^ 0x80#8).toNat = (b.toNat + 128) % 256 := by
  revert b
  decide

theorem toNat_flipped (w : Word) : ((flipped w).toNat : Int) = w.toInt + 32768 := by
  have hlt := w.isLt
  rw [flipped, withHigh, toNat_append, toNat_xor_sign, toNat_high, toNat_low, toInt_eq_toNat_cond]
  split <;> omega

theorem runs_compareSigned (value : Name → Word) (keep : Word → Prop) (s : Cpu) (orEqual : Bool) :
    ∃ s', Runs value keep s (compareSigned orEqual) s' ∧ Still s s' ∧
      s'.carry = (if orEqual then s.hl.sle s.bc else s.hl.slt s.bc) ∧ s'.memory = s.memory := by
  have hhl := toNat_flipped s.hl
  have hbc := toNat_flipped s.bc
  have hflips : ∃ s1, Runs value keep s (flipSign .h ++ flipSign .b) s1 ∧ Still s s1 ∧
      s1.hl = flipped s.hl ∧ s1.bc = flipped s.bc ∧ s1.memory = s.memory := by
    refine ⟨_, .quiet rfl rfl (.quiet rfl rfl (.quiet rfl rfl (.quiet rfl rfl (.quiet rfl rfl
      (.quiet rfl rfl (.nil _)))))), ?_, rfl, rfl, rfl⟩
    exact ⟨rfl, rfl, rfl⟩
  obtain ⟨s1, hflips, hstill, hhl1, hbc1, hmemory⟩ := hflips
  cases orEqual with
  | false =>
    refine ⟨_, hflips.append (.quiet rfl rfl (.quiet rfl rfl (.nil _))), ?_, ?_, hmemory⟩
    · exact ⟨hstill.ix, hstill.iy, hstill.sp⟩
    · show decide (s1.hl.toNat < s1.bc.toNat + 0) = s.hl.slt s.bc
      rw [hhl1, hbc1, BitVec.slt, decide_eq_decide]
      omega
  | true =>
    refine ⟨_, hflips.append (.quiet rfl rfl (.quiet rfl rfl (.nil _))), ?_, ?_, hmemory⟩
    · exact ⟨hstill.ix, hstill.iy, hstill.sp⟩
    · show decide (s1.hl.toNat < s1.bc.toNat + 1) = s.hl.sle s.bc
      rw [hhl1, hbc1, BitVec.sle, decide_eq_decide]
      omega

theorem runs_testSame (value : Name → Word) (keep : Word → Prop) (s : Cpu) :
    ∃ s', Runs value keep s [clearCarry, .sbc .hl .de, .add .hl .de] s' ∧ Still s s' ∧
      s'.hl = s.hl ∧ s'.de = s.de ∧ s'.zero = decide (s.hl = s.de) ∧ s'.memory = s.memory := by
  refine ⟨_, .quiet rfl rfl (.quiet rfl rfl (.quiet rfl rfl (.nil _))), ?_, ?_, rfl, ?_, rfl⟩
  · exact ⟨rfl, rfl, rfl⟩
  · show s.hl - s.de - BitVec.ofNat 16 0 + s.de = s.hl
    rw [BitVec.sub_zero, BitVec.sub_add_cancel]
  · exact decide_sub_eq_zero _ _

/-!
# Truth values
-/

section Selection

variable {m : Image} {keep : Word → Prop} {i j : Nat} {s : Cpu}

theorem reaches_branch {flag : Flag} {label : Name} {holds : Bool}
    (h : m.code[i]? = some (.instr (.jp flag label))) (hlabel : m.code[j]? = some (.label label))
    (hflag : holds? s flag = some holds) :
    Reaches m keep (.line i) s (.line (if holds then j else i + 1)) s := by
  have hjump : Reaches m keep (.line i) s (if holds then m.target label else .line (i + 1)) s :=
    reaches_jp h hflag
  rw [target_of_code hlabel] at hjump
  cases holds <;> exact hjump

theorem reaches_loadBool (b : Bool) (h : m.code[i]? = some (.instr (loadBool b))) :
    Reaches m keep (.line i) s (.line (i + 1)) { s with hl := m.value (boolLabel b) } :=
  reaches_code (placed_cons.mpr ⟨h, fun k l hk => by simp at hk⟩) (runs_loadAddress _)

theorem reaches_selectBool {flag : Flag} {b : Bool} {done : Name} (hflag : holds? s flag = some b)
    (hplaced : m.Placed i (selectBool flag done)) :
    Reaches m keep (.line i) s (.line (i + (selectBool flag done).length))
      { s with hl := m.value (boolLabel b) } := by
  obtain ⟨htrue, hrest⟩ := placed_cons.mp hplaced
  obtain ⟨hjump, hrest⟩ := placed_cons.mp hrest
  obtain ⟨hfalse, hrest⟩ := placed_cons.mp hrest
  have hdone := (placed_cons.mp hrest).1
  have hflag' : holds? { s with hl := m.value (boolLabel true) } flag = some b := by
    rw [← hflag]
    cases flag <;> rfl
  refine (reaches_loadBool true htrue).trans ((reaches_branch hjump hdone hflag').trans ?_)
  cases b with
  | true => exact reaches_label hdone
  | false => exact (reaches_loadBool false hfalse).trans (reaches_label hdone)

theorem reaches_equalityResult {isTrue done : Name} (b : Bool)
    (hplaced : m.Placed i (equalityResult isTrue done)) :
    Reaches m keep (.line (if b then i + 2 else i)) s
      (.line (i + (equalityResult isTrue done).length))
      { s with hl := m.value (boolLabel b) } := by
  obtain ⟨hfalse, hrest⟩ := placed_cons.mp hplaced
  obtain ⟨hjump, hrest⟩ := placed_cons.mp hrest
  obtain ⟨hlabel, hrest⟩ := placed_cons.mp hrest
  obtain ⟨htrue, hrest⟩ := placed_cons.mp hrest
  have hdone := (placed_cons.mp hrest).1
  cases b with
  | true =>
    refine (reaches_label hlabel).trans ?_
    exact (reaches_loadBool true htrue).trans (reaches_label hdone)
  | false =>
    have hskip : ∀ s : Cpu, Reaches m keep (.line (i + 1)) s (.line (i + 4)) s := by
      intro s
      have hflag : holds? s .always = some true := rfl
      exact reaches_branch hjump hdone hflag
    exact (reaches_loadBool false hfalse).trans ((hskip _).trans (reaches_label hdone))

end Selection

/-!
# Comparison of objects
-/

section Comparison

variable {m : Image} {i : Nat} (hkeep : ∀ a, keep a → Spared s a)
  (hleft : Spared s (s.de + 6#16) ∧ Spared s (s.de + 6#16 + 1#16))
  (hright : Spared s (s.hl + 6#16) ∧ Spared s (s.hl + 6#16 + 1#16))
include hkeep hleft hright

theorem reaches_compareSigned (orEqual : Bool) {done : Name}
    (hplaced : m.Placed i (code (unboxOperands ++ compareSigned orEqual) ++
      selectBool .carry done)) :
    ∃ s', Reaches m keep (.line i) s (.line (i + (code (unboxOperands ++ compareSigned orEqual) ++
        selectBool .carry done).length)) s' ∧ Still s s' ∧
      s'.hl = m.value (boolLabel (if orEqual
        then (s.memory.word (s.de + 6#16)).sle (s.memory.word (s.hl + 6#16))
        else (s.memory.word (s.de + 6#16)).slt (s.memory.word (s.hl + 6#16)))) ∧
      ∀ a, Spared s a → s'.memory a = s.memory a := by
  obtain ⟨hcode, hselect⟩ := placed_append.mp hplaced
  rcases runs_unboxOperands m.value hkeep hleft hright with
    ⟨s1, hunbox, hstill, hhl, hbc, hmemory⟩
  obtain ⟨s2, hruns, hstill', hcarry, hmemory'⟩ := runs_compareSigned m.value keep s1 orEqual
  rw [hhl, hbc] at hcarry
  have hflag : holds? s2 .carry = some _ := congrArg some hcarry
  rw [code, List.length_map] at hselect
  have hreaches := (reaches_code hcode (hunbox.append hruns)).trans
    (reaches_selectBool hflag hselect)
  rw [List.length_append, code, List.length_map, ← Nat.add_assoc]
  exact ⟨_, hreaches, (hstill.trans hstill').trans ⟨rfl, rfl, rfl⟩, rfl,
    fun a ha => (congrFun hmemory' a).trans (hmemory a ha)⟩

theorem reaches_equal {type isTrue done : Name} (htype : type = Name.int ∨ type = Name.bool)
    (hplaced : m.Placed i (code (testSame isTrue ++ testEqual type isTrue) ++
      equalityResult isTrue done)) :
    ∃ s', Reaches m keep (.line i) s (.line (i + (code (testSame isTrue ++ testEqual type isTrue) ++
        equalityResult isTrue done).length)) s' ∧ Still s s' ∧
      s'.hl = m.value (boolLabel (decide (s.de = s.hl ∨
        s.memory.word (s.de + 6#16) = s.memory.word (s.hl + 6#16)))) ∧
      ∀ a, Spared s a → s'.memory a = s.memory a := by
  rw [testEqual, if_pos htype] at hplaced ⊢
  have hsplit : m.Placed i (code ([clearCarry, .sbc .hl .de, .add .hl .de] ++
      ([.jp .zero isTrue] ++ (unboxOperands ++ ([clearCarry, .sbc .hl .bc] ++
      [.jp .zero isTrue])))) ++ equalityResult isTrue done) := hplaced
  obtain ⟨hcode, hresult⟩ := placed_append.mp hsplit
  obtain ⟨hsame, hcode⟩ := (placed_code_append _ _).mp hcode
  obtain ⟨hfirstJump, hcode⟩ := (placed_code_append _ _).mp hcode
  obtain ⟨hunbox, hcode⟩ := (placed_code_append _ _).mp hcode
  obtain ⟨hsubtract, hsecondJump⟩ := (placed_code_append _ _).mp hcode
  have hlabel : m.code[i + 22]? = some (.label isTrue) :=
    (placed_cons.mp (placed_cons.mp (placed_cons.mp hresult).2).2).1
  -- The first test settles the case of one object.
  obtain ⟨s1, hruns, hstill, hhl, hde, hzero, hmemory⟩ := runs_testSame m.value keep s
  have htested := reaches_code hsame hruns
  have hjump : Reaches m keep (.line (i + 3)) s1 _ s1 :=
    reaches_branch (placed_cons.mp hfirstJump).1 hlabel (congrArg some hzero)
  by_cases heq : s.hl = s.de
  · rw [if_pos (decide_eq_true heq)] at hjump
    have hreaches := htested.trans (hjump.trans (reaches_equalityResult true hresult))
    refine ⟨_, hreaches, hstill.trans ⟨rfl, rfl, rfl⟩, ?_, fun a _ => congrFun hmemory a⟩
    simp only [heq, true_or, decide_true]
  · rw [if_neg (by simpa using heq)] at hjump
    have hspared : ∀ a, Spared s a → Spared s1 a := fun a ha => by
      rw [Spared, hstill.sp]
      exact ha
    rcases runs_unboxOperands m.value (fun a ha => hspared a (hkeep a ha))
      (hde ▸ ⟨hspared _ hleft.1, hspared _ hleft.2⟩)
      (hhl ▸ ⟨hspared _ hright.1, hspared _ hright.2⟩) with
      ⟨s2, hruns2, hstill2, hhl2, hbc2, hmemory2⟩
    rw [hmemory, hde] at hhl2
    rw [hmemory, hhl] at hbc2
    obtain ⟨s3, hruns3, hstill3, _, hzero3, hmemory3⟩ := runs_subtract m.value keep s2
    have hjump3 : Reaches m keep (.line (i + 19)) s3 _ s3 :=
      reaches_branch (placed_cons.mp hsecondJump).1 hlabel (congrArg some hzero3)
    have hlast : Reaches m keep (.line (i + 19)) s3 _ _ :=
      hjump3.trans (reaches_equalityResult (decide (s2.hl = s2.bc)) hresult)
    have hreaches := htested.trans (hjump.trans ((reaches_code hunbox hruns2).trans
      ((reaches_code hsubtract hruns3).trans hlast)))
    refine ⟨_, hreaches, (hstill.trans (hstill2.trans hstill3)).trans ⟨rfl, rfl, rfl⟩, ?_, ?_⟩
    · simp only [hhl2, hbc2, Ne.symm heq, false_or]
    · intro a ha
      exact (congrFun hmemory3 a).trans ((hmemory2 a (hspared a ha)).trans (congrFun hmemory a))

end Comparison

/-!
# Words at a displacement
-/

theorem exec_readIndexed (r : Register) (x : Indexed) :
    exec value s (.ld (.reg r) (.indexed x)) =
      (s.indexed? x).bind fun p => s.setByte? (s.memory p) r := by
  cases r <;> rfl

theorem exec_writeIndexed (x : Indexed) (r : Register) :
    exec value s (.ld (.indexed x) (.reg r)) =
      (s.indexed? x).bind fun p => (s.byte? r).map fun b =>
        { s with memory := s.memory.put p b } := rfl

theorem indexed?_next {x : Indexed} {p : Word} (h : s.indexed? x = some p)
    (hx : x.offset ≤ 126) : s.indexed? x.next = some (p + 1#16) := by
  unfold Cpu.indexed? at h
  split at h
  · rename_i hfits
    have hnext : x.next.offset = x.offset + 1 := by
      show (x.offset + 1).bmod _ = _
      apply Int.bmod_eq_of_le <;> omega
    have hword : BitVec.ofInt 16 (x.offset + 1) = BitVec.ofInt 16 x.offset + 1#16 :=
      ofInt_add x.offset 1
    rw [Cpu.indexed?, hnext, show x.next.base = x.base from rfl, if_pos (by omega), hword]
    split at h <;> cases h <;> rw [BitVec.add_assoc]
  · cases h

variable {x : Indexed} {p : Word}

def Cpu.setPair (s : Cpu) (w : Word) : Pair → Cpu
  | .bc => { s with bc := w }
  | .de => { s with de := w }
  | .hl => { s with hl := w }

theorem runs_loadPair (dst : Pair) (hp : s.indexed? x = some p) (hx : x.offset ≤ 126) :
    Runs value keep s (loadWord dst x) (s.setPair (s.memory.word p) dst) := by
  have hlow : ∃ w, exec value s (.ld (.reg dst.low) (.indexed x)) =
      some (s.setPair (withLow w (s.memory p)) dst) := by
    rw [exec_readIndexed, hp]
    cases dst with
    | bc => exact ⟨s.bc, rfl⟩
    | de => exact ⟨s.de, rfl⟩
    | hl => exact ⟨s.hl, rfl⟩
  obtain ⟨w, hlow⟩ := hlow
  have hnext := indexed?_next hp hx
  have hhigh : exec value (s.setPair (withLow w (s.memory p)) dst)
      (.ld (.reg dst.high) (.indexed x.next)) = some (s.setPair (s.memory.word p) dst) := by
    rw [exec_readIndexed]
    cases dst
    all_goals
      refine (congrArg (Option.bind · _) hnext).trans ?_
      simp only [Option.bind_some, Pair.high, Cpu.setByte?, Cpu.setPair, withHigh_withLow]
      rfl
  have hmemory : ∀ w, (s.setPair w dst).memory = s.memory := by
    intro w
    cases dst <;> rfl
  exact .quiet hlow (hmemory _) (.quiet hhigh ((hmemory _).trans (hmemory _).symm) (.nil _))

theorem runs_loadIndexed (hp : s.indexed? x = some p) (hx : x.offset ≤ 126) :
    Runs value keep s (loadWord .hl x) { s with hl := s.memory.word p } :=
  runs_loadPair .hl hp hx

theorem runs_storeIndexed (hp : s.indexed? x = some p) (hx : x.offset ≤ 126)
    (hkeep : ∀ a, keep a → a ≠ p ∧ a ≠ p + 1#16) :
    Runs value keep s (storeWord x .hl)
      { s with memory := s.memory.putWord p s.hl } := by
  let s1 : Cpu := { s with memory := s.memory.put p (low s.hl) }
  have hlow : exec value s (.ld (.indexed x) (.reg .l)) = some s1 := by
    rw [exec_writeIndexed, hp]
    rfl
  have hhigh : exec value s1 (.ld (.indexed x.next) (.reg .h)) =
      some { s with memory := s.memory.putWord p s.hl } := by
    have hnext : s1.indexed? x.next = some (p + 1#16) := indexed?_next hp hx
    rw [exec_writeIndexed, hnext]
    rfl
  refine .cons hlow (fun a ha => ?_) (.cons hhigh (fun a ha => ?_) (.nil _))
  · exact Memory.put_of_ne (hkeep a ha).1
  · exact Memory.put_of_ne (hkeep a ha).2

def slotPlace (k : Nat) : Indexed := ⟨.iy, 2 * (k : Int)⟩

def slotAt (base : Word) (k : Nat) : Word := base + BitVec.ofNat 16 (2 * k)

theorem indexed?_slotPlace {k : Nat} (hk : k < 64) :
    s.indexed? (slotPlace k) = some (slotAt s.iy k) := by
  have hfits : -128 ≤ 2 * (k : Int) ∧ 2 * (k : Int) ≤ 127 := by omega
  have hword : BitVec.ofInt 16 (2 * (k : Int)) = BitVec.ofNat 16 (2 * k) :=
    ofInt_natCast 16 (2 * k)
  rw [Cpu.indexed?, slotPlace, if_pos hfits, slotAt, hword]

theorem offset_slotPlace_le {k : Nat} (hk : k < 64) : (slotPlace k).offset ≤ 126 := by
  show 2 * (k : Int) ≤ 126
  omega

theorem runs_loadWord {k : Nat} (hk : k < 64) :
    Runs value keep s (loadWord .hl (slotPlace k))
      { s with hl := s.memory.word (slotAt s.iy k) } :=
  runs_loadIndexed (indexed?_slotPlace hk) (offset_slotPlace_le hk)

theorem runs_storeWord {k : Nat} (hk : k < 64)
    (hkeep : ∀ a, keep a → a ≠ slotAt s.iy k ∧ a ≠ slotAt s.iy k + 1#16) :
    Runs value keep s (storeWord (slotPlace k) .hl)
      { s with memory := s.memory.putWord (slotAt s.iy k) s.hl } :=
  runs_storeIndexed (indexed?_slotPlace hk) (offset_slotPlace_le hk) hkeep

end Machine
end CoolCompiler
