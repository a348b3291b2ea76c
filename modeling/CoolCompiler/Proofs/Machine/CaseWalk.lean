import CoolCompiler.Proofs.Emit.Outcome
import CoolCompiler.Proofs.Machine.Data
import CoolCompiler.Proofs.Machine.Sequences
import CoolCompiler.Proofs.ObjectModel.CaseMatch

/-!
# Selecting a branch

The code of a case climbs the rows of the inheritance tree from the tag of an object to the branch
that the class table selects, and writes only the four bytes below the stack pointer.
-/

namespace CoolCompiler.Machine

open List ClassTable Instr

open Emit

def Clear (s0 : Cpu) (a : Word) : Prop := ¬ Below s0.sp 4 a

instance (s0 : Cpu) (a : Word) : Decidable (Clear s0 a) := inferInstanceAs (Decidable (¬ _ < _))

variable {branches : List (Nat × Name)} {t : ClassTable} {k tag : Nat} {a p : Word}
  {loop noMatch : Name}

theorem Clear.ne_saved {s0 : Cpu} (h : Clear s0 a) :
    a ≠ s0.sp - 2#16 ∧ a ≠ s0.sp - 2#16 + 1#16 := by
  unfold Clear Below at h
  constructor <;> bv_omega

theorem Clear.push {s0 : Cpu} (h : Clear s0 a) (w : Word) : (s0.push w).memory a = s0.memory a :=
  Memory.putWord_of_ne h.ne_saved.1 h.ne_saved.2

theorem Clear.ne_scratch {s0 : Cpu} (h : Clear s0 a) :
    a ≠ s0.sp - 2#16 - 2#16 ∧ a ≠ s0.sp - 2#16 - 2#16 + 1#16 := by
  unfold Clear Below at h
  constructor <;> bv_omega

structure Walking (s0 s : Cpu) : Prop where
  sp : s.sp = s0.sp - 2#16
  saved : s.memory.word s.sp = s0.hl
  ix : s.ix = s0.ix
  iy : s.iy = s0.iy
  memory : ∀ a, Clear s0 a → s.memory a = s0.memory a

variable {m : Image} {s0 s : Cpu} {i : Nat}

theorem Walking.word (h : Walking s0 s) (hp : Clear s0 p) (hp' : Clear s0 (p + 1#16)) :
    s.memory.word p = s0.memory.word p :=
  Memory.word_congr (h.memory p hp) (h.memory _ hp')

theorem Walking.of_eq {s' : Cpu} (h : Walking s0 s) (hsp : s'.sp = s.sp) (hix : s'.ix = s.ix)
    (hiy : s'.iy = s.iy) (hmemory : s'.memory = s.memory) : Walking s0 s' where
  sp := hsp.trans h.sp
  saved := by rw [hsp, hmemory]; exact h.saved
  ix := hix.trans h.ix
  iy := hiy.trans h.iy
  memory := by rw [hmemory]; exact h.memory

/-!
# Comparing with a branch
-/

theorem runs_testTag (h : Walking s0 s) (tag : Nat) :
    ∃ s', Runs m.value (Clear s0) s
        [.push .hl, loadInt .hl tag, clearCarry, .sbc .hl .bc, .pop .hl] s' ∧
      Walking s0 s' ∧ s'.hl = s.hl ∧ s'.bc = s.bc ∧
      s'.zero = decide (BitVec.ofInt 16 tag = s.bc) := by
  have hscratch : s.sp - 2#16 = s0.sp - 2#16 - 2#16 := by rw [h.sp]
  have hkept : ∀ a, Clear s0 a → (s.push s.hl).memory a = s.memory a := by
    intro a ha
    have hne := ha.ne_scratch
    rw [← hscratch] at hne
    exact Memory.putWord_of_ne hne.1 hne.2
  refine ⟨_, .cons rfl hkept (.quiet rfl rfl (.quiet rfl rfl (.quiet rfl rfl
    (.quiet rfl rfl (.nil _))))), ?_, ?_, rfl, ?_⟩
  · constructor
    · show s.sp - 2#16 + 2#16 = s0.sp - 2#16
      rw [BitVec.sub_add_cancel, h.sp]
    · show (s.memory.putWord (s.sp - 2#16) s.hl).word (s.sp - 2#16 + 2#16) = s0.hl
      rw [BitVec.sub_add_cancel, ← h.saved]
      apply Memory.word_putWord_of_ne <;> bv_omega
    · exact h.ix
    · exact h.iy
    · intro a ha
      exact (hkept a ha).trans (h.memory a ha)
  · exact Memory.word_putWord_self
  · exact decide_sub_eq_zero _ _

theorem reaches_testBranch (h : Walking s0 s) {label : Name}
    (hplaced : m.Placed i (code (testBranch tag label))) :
    ∃ s', Reaches m (Clear s0) (.line i) s
        (if BitVec.ofInt 16 tag = s.bc then m.target label else .line (i + 6)) s' ∧
      Walking s0 s' ∧ s'.hl = s.hl ∧ s'.bc = s.bc := by
  have hsplit := (placed_code_append [.push .hl, loadInt .hl tag,
    clearCarry, .sbc .hl .bc, .pop .hl] [.jp .zero label]).mp hplaced
  obtain ⟨s', hruns, hwalking, hhl, hbc, hzero⟩ := runs_testTag h tag
  have hjump : Reaches m (Clear s0) (.line (i + 5)) s'
      (if s'.zero then m.target label else .line (i + 6)) s' :=
    reaches_jp (placed_cons.mp hsplit.2).1 rfl
  simp only [hzero, decide_eq_true_eq] at hjump
  exact ⟨s', (reaches_code hsplit.1 hruns).trans hjump, hwalking, hhl, hbc⟩

theorem reaches_testBranches (h : Walking s0 s) (hsmall : ∀ b ∈ branches, b.1 < 65536)
    (htag : tag < 65536) (hbc : s.bc = BitVec.ofInt 16 tag)
    (hplaced : m.Placed i (code (branches.flatMap fun b => testBranch b.1 b.2))) :
    ∃ s', Walking s0 s' ∧ s'.hl = s.hl ∧
      Reaches m (Clear s0) (.line i) s
        (match (branches.map fun b => (b.1 : Int)).idxOf? (tag : Int) with
        | some k => m.target ((branches.map Prod.snd).getD k [])
        | none => .line (i + 6 * branches.length)) s' := by
  induction branches generalizing s i with
  | nil => exact ⟨s, h, rfl, .refl _ _⟩
  | cons b branches ih =>
    have hsplit := (placed_code_append (testBranch b.1 b.2)
      (branches.flatMap fun b => testBranch b.1 b.2)).mp hplaced
    have hb := hsmall b mem_cons_self
    have hsame : BitVec.ofInt 16 (b.1 : Int) = s.bc ↔ (b.1 : Int) = tag := by
      rw [hbc, BitVec.ofInt_natCast, BitVec.ofInt_natCast]
      constructor
      · intro heq
        have hnat := congrArg BitVec.toNat heq
        rw [BitVec.toNat_ofNat, BitVec.toNat_ofNat] at hnat
        omega
      · intro heq
        rw [Int.ofNat_inj.mp heq]
    obtain ⟨s1, hreaches, hwalking, hhl, hbc1⟩ := reaches_testBranch h hsplit.1
    rw [map_cons, idxOf?_cons]
    by_cases heq : (b.1 : Int) = tag
    · rw [if_pos (hsame.mpr heq)] at hreaches
      refine ⟨s1, hwalking, hhl, ?_⟩
      simpa [heq] using hreaches
    · rw [if_neg (fun hword => heq (hsame.mp hword))] at hreaches
      rcases ih hwalking (fun b' hb' => hsmall b' (mem_cons_of_mem b hb'))
        (hbc1.trans hbc) hsplit.2 with ⟨s2, hwalking2, hhl2, hreaches2⟩
      refine ⟨s2, hwalking2, hhl2.trans hhl, hreaches.trans ?_⟩
      have hne : ((b.1 : Int) == (tag : Int)) = false := beq_eq_false_iff_ne.mpr heq
      simp only [hne]
      cases hfind : (branches.map fun b => (b.1 : Int)).idxOf? (tag : Int) with
      | none =>
        rw [hfind] at hreaches2
        have hindex : i + 6 + 6 * branches.length = i + 6 * (branches.length + 1) := by omega
        show Reaches m (Clear s0) (.line (i + 6)) s1 (.line (i + 6 * (branches.length + 1))) s2
        rw [← hindex]
        exact hreaches2
      | some k =>
        rw [hfind] at hreaches2
        simpa [testBranch] using hreaches2

theorem length_testBranches (branches : List (Nat × Name)) :
    (branches.flatMap fun b => testBranch b.1 b.2).length = 6 * branches.length := by
  induction branches with
  | nil => rfl
  | cons b branches ih =>
    rw [flatMap_cons, length_append, ih]
    simp only [testBranch, length_cons, length_nil]
    omega

def rowCode (loop noMatch : Name) (branches : List (Nat × Name)) : List Instr :=
  loadIndirect .bc ++ [dec .hl] ++ branches.flatMap (fun b => testBranch b.1 b.2) ++
    [inc .hl, .inc .hl] ++ loadIndirect .de ++ [dec .hl, .dec .hl, .dec .hl] ++
    testZero .de ++ [jp .zero noMatch, .add .hl .de, .jp .always loop]

theorem runs_readTag {value : Name → Word} {keep : Word → Prop} :
    Runs value keep s (loadIndirect .bc ++ [dec .hl])
      { s with bc := s.memory.word s.hl } := by
  refine runs_loadIndirect_bc.append (.quiet rfl rfl (.done ?_))
  rw [BitVec.add_sub_cancel]

theorem runs_readDelta (value : Name → Word) (keep : Word → Prop) (s : Cpu) :
    ∃ s', Runs value keep s ([inc .hl, .inc .hl] ++ loadIndirect .de ++
        [dec .hl, .dec .hl, .dec .hl] ++ testZero .de) s' ∧
      s'.hl = s.hl ∧ s'.de = s.memory.word (s.hl + 2#16) ∧
      s'.zero = decide (s.memory.word (s.hl + 2#16) = 0#16) ∧
      s'.sp = s.sp ∧ s'.ix = s.ix ∧ s'.iy = s.iy ∧ s'.memory = s.memory := by
  have hinc : Runs value keep s [.inc .hl, .inc .hl] { s with hl := s.hl + 2#16 } := by
    refine .quiet rfl rfl (.quiet rfl rfl (.done ?_))
    have htwo : s.hl + 1#16 + 1#16 = s.hl + 2#16 := by bv_omega
    rw [htwo]
  have hload := hinc.append runs_loadIndirect_de
  have hdec : Runs value keep
      { s with de := s.memory.word (s.hl + 2#16), hl := s.hl + 2#16 + 1#16 }
      [.dec .hl, .dec .hl, .dec .hl] { s with de := s.memory.word (s.hl + 2#16) } := by
    refine .quiet rfl rfl (.quiet rfl rfl (.quiet rfl rfl (.done ?_)))
    have hback : s.hl + 2#16 + 1#16 - 1#16 - 1#16 - 1#16 = s.hl := by bv_omega
    rw [hback]
  exact ⟨_, (hload.append hdec).append runs_testZero_de, rfl, rfl, rfl, rfl, rfl, rfl, rfl⟩

/-!
# The way up
-/

structure Rows (t : ClassTable) (p : Word) (s0 : Cpu) : Prop where
  tag {k : Nat} {row : TreeRow} : t.tree[k]? = some row →
    s0.memory.word (p + BitVec.ofInt 16 (k * 4)) = BitVec.ofInt 16 row.tag
  delta {k : Nat} {row : TreeRow} : t.tree[k]? = some row →
    s0.memory.word (p + BitVec.ofInt 16 (k * 4) + 2#16) = BitVec.ofInt 16 row.delta
  clear {k : Nat} : k < t.size * 4 → Clear s0 (p + BitVec.ofNat 16 k)

theorem Rows.clear_of_row (h : Rows t p s0) {j : Nat} (hk : k < t.size) (hj : j < 4) :
    Clear s0 (p + BitVec.ofInt 16 (k * 4) + BitVec.ofNat 16 j) := by
  have hclear : Clear s0 (p + BitVec.ofNat 16 (k * 4 + j)) := h.clear (by omega)
  rwa [BitVec.ofNat_add, ← BitVec.add_assoc] at hclear

theorem ofInt_delta_ne_zero {parent : Nat} (htag : tag < 8192) (hparent : parent < 8192)
    (hne : parent ≠ tag) : BitVec.ofInt 16 (((parent : Int) - tag) * 4) ≠ 0#16 := by
  intro hzero
  have hnat := congrArg BitVec.toInt hzero
  rw [BitVec.toInt_ofInt, BitVec.toInt_zero, Int.bmod_eq_of_le (by omega) (by omega)] at hnat
  omega

theorem lt_length_of_climbTree {rows : List TreeRow} {branches : List Int} :
    ∀ (steps : Nat) (place : Int),
      climbTree rows branches steps place = some k → k < branches.length := by
  intro steps
  induction steps with
  | zero =>
    intro place h
    cases h
  | succ steps ih =>
    intro place h
    rw [climbTree] at h
    split at h
    · cases h
    · split at h
      · rename_i hfind
        cases h
        exact (findIdx?_eq_some_iff_getElem.mp hfind).1
      · split at h
        · cases h
        · exact ih _ h

theorem lt_length_of_matchCase {tag : Int} {branches : List Int}
    (h : t.matchCase tag branches = some k) : k < branches.length := by
  rw [matchCase] at h
  split at h
  · exact lt_length_of_climbTree _ _ h
  · cases h

/-- At one row the code arrives at a branch, goes on by the distance that the row gives, or stops
where there is none. -/
def PassesRow (m : Image) (branches : List (Nat × Name)) (noMatch : Name) (i tag : Nat)
    (delta : Int) (s0 s s' : Cpu) : Prop :=
  match (branches.map fun b => (b.1 : Int)).idxOf? (tag : Int) with
  | some k => Reaches m (Clear s0) (.line i) s (m.target ((branches.map Prod.snd).getD k [])) s'
  | none => s'.hl = s.hl + BitVec.ofInt 16 delta ∧
      Reaches m (Clear s0) (.line i) s
        (if BitVec.ofInt 16 delta = 0#16 then m.target noMatch else .line i) s'

section Way

variable (hsmall : ∀ b ∈ branches, b.1 < 65536) (hlabel : m.code[i]? = some (.label loop))
  (hplaced : m.Placed (i + 1) (code (rowCode loop noMatch branches))) (h : Walking s0 s)

include hsmall hlabel hplaced h

theorem reaches_row {delta : Int} (htag : tag < 65536)
    (hrow : s.memory.word s.hl = BitVec.ofInt 16 tag)
    (hdelta : s.memory.word (s.hl + 2#16) = BitVec.ofInt 16 delta)
    (hclear : Clear s0 (s.hl + 2#16) ∧ Clear s0 (s.hl + 2#16 + 1#16)) :
    ∃ s', Walking s0 s' ∧ PassesRow m branches noMatch i tag delta s0 s s' := by
  unfold PassesRow
  have hpieces : rowCode loop noMatch branches = (loadIndirect .bc ++ [dec .hl]) ++
      (branches.flatMap (fun b => testBranch b.1 b.2) ++ (([inc .hl, .inc .hl] ++
        loadIndirect .de ++ [dec .hl, .dec .hl, .dec .hl] ++ testZero .de) ++
      [jp .zero noMatch, .add .hl .de, .jp .always loop])) := by
    simp only [rowCode, append_assoc]
  rw [hpieces] at hplaced
  obtain ⟨htagCode, hplaced⟩ := (placed_code_append _ _).mp hplaced
  obtain ⟨htests, hplaced⟩ := (placed_code_append _ _).mp hplaced
  obtain ⟨hdeltaCode, hnext⟩ := (placed_code_append _ _).mp hplaced
  have hread : Reaches m (Clear s0) (.line i) s (.line (i + 1 + 4))
      { s with bc := s.memory.word s.hl } :=
    (reaches_label hlabel).trans (reaches_code htagCode runs_readTag)
  have hwalking : Walking s0 { s with bc := s.memory.word s.hl } := h.of_eq rfl rfl rfl rfl
  obtain ⟨s1, hwalking1, hhl1, htested⟩ := reaches_testBranches hwalking hsmall htag hrow htests
  cases hfind : (branches.map fun b => (b.1 : Int)).idxOf? (tag : Int) with
  | some k =>
    rw [hfind] at htested
    exact ⟨s1, hwalking1, hread.trans htested⟩
  | none =>
    rw [hfind] at htested
    rw [length_testBranches] at hdeltaCode hnext
    have hword : s1.memory.word (s1.hl + 2#16) = BitVec.ofInt 16 delta := by
      rw [hhl1]
      exact (hwalking1.word hclear.1 hclear.2).trans
        ((h.word hclear.1 hclear.2).symm.trans hdelta)
    rcases runs_readDelta m.value (Clear s0) s1 with
      ⟨s2, hruns, hhl2, hde2, hzero2, hsp2, hix2, hiy2, hmemory2⟩
    rw [hword] at hde2 hzero2
    have hwalking2 := hwalking1.of_eq hsp2 hix2 hiy2 hmemory2
    have harrived := (hread.trans htested).trans (reaches_code hdeltaCode hruns)
    have hlines := placed_cons.mp hnext
    have hlines' := placed_cons.mp hlines.2
    have hjump : Reaches m (Clear s0) _ s2
        (if s2.zero then m.target noMatch else .line (_ + 1)) s2 := reaches_jp hlines.1 rfl
    simp only [hzero2, decide_eq_true_eq] at hjump
    by_cases hstop : BitVec.ofInt 16 delta = 0#16
    · refine ⟨s2, hwalking2, ?_, harrived.trans ?_⟩
      · rw [hhl2, hhl1, hstop, BitVec.add_zero]
      · rw [if_pos hstop] at hjump ⊢
        exact hjump
    · rw [if_neg hstop] at hjump ⊢
      let s3 : Cpu := { s2 with
        hl := s2.hl + s2.de, carry := decide (65536 ≤ s2.hl.toNat + s2.de.toNat) }
      have hadd : Runs m.value (Clear s0) s2 [.add .hl .de] s3 := .quiet rfl rfl (.nil _)
      refine ⟨s3, hwalking2.of_eq rfl rfl rfl rfl, ?_, harrived.trans ?_⟩
      · show s2.hl + s2.de = _
        rw [hhl2, hhl1, hde2]
      · have hadded : m.Placed _ (code [.add .hl .de]) :=
          placed_cons.mpr ⟨hlines'.1, fun k l hk => by simp at hk⟩
        rw [← target_of_code hlabel]
        exact hjump.trans ((reaches_code hadded hadd).trans
          (reaches_jump (placed_cons.mp hlines'.2).1))

theorem reaches_treeRow (hsize : t.size ≤ 8192) (hrows : Rows t p s0) {delta : Int}
    (hrow : t.tree[tag]? = some ⟨tag, delta⟩) (hhl : s.hl = p + BitVec.ofInt 16 (tag * 4)) :
    ∃ s', Walking s0 s' ∧ PassesRow m branches noMatch i tag delta s0 s s' := by
  have hlt : tag < t.size := by
    have hlt := (List.getElem?_eq_some_iff.mp hrow).1
    rwa [tree, length_map] at hlt
  have hclear : ∀ {j : Nat}, j < 4 → Clear s0 (s.hl + BitVec.ofNat 16 j) := by
    intro j hj
    rw [hhl]
    exact hrows.clear_of_row hlt hj
  have hclear0 : Clear s0 s.hl := by
    have hclear := hclear (j := 0) (by decide)
    rwa [BitVec.add_zero] at hclear
  have hclear3 : Clear s0 (s.hl + 2#16 + 1#16) := by
    rw [BitVec.add_assoc]
    exact hclear (j := 3) (by decide)
  have htag : s.memory.word s.hl = BitVec.ofInt 16 tag := by
    rw [h.word hclear0 (hclear (j := 1) (by decide)), hhl]
    exact hrows.tag hrow
  have hdelta : s.memory.word (s.hl + 2#16) = BitVec.ofInt 16 delta := by
    rw [h.word (hclear (j := 2) (by decide)) hclear3, hhl]
    exact hrows.delta hrow
  exact reaches_row hsmall hlabel hplaced h (by omega) htag hdelta
    ⟨hclear (j := 2) (by decide), hclear3⟩

theorem reaches_climb {user : List Class} {parents : List (Option Nat)}
    (hbuilt : Built user parents t) (hsize : t.size ≤ 8192) {line : List Nat}
    (hline : Ascent parents tag line) {steps : Nat} (hsteps : line.length ≤ steps)
    (hrows : Rows t p s0) (hhl : s.hl = p + BitVec.ofInt 16 (tag * 4)) :
    ∃ s', Walking s0 s' ∧ Reaches m (Clear s0) (.line i) s
      (match climbTree t.tree (branches.map fun b => (b.1 : Int)) steps (tag * 4) with
      | some k => m.target ((branches.map Prod.snd).getD k [])
      | none => m.target noMatch) s' := by
  induction hline generalizing s steps with
  | @root tag hp =>
    have hrow := hbuilt.getElem?_tree hp
    cases steps with
    | zero => simp at hsteps
    | succ steps =>
      rcases reaches_treeRow hsmall hlabel hplaced h hsize hrows hrow hhl with
        ⟨s', hwalking, hreaches⟩
      unfold PassesRow at hreaches
      refine ⟨s', hwalking, ?_⟩
      rw [climbTree_row hrow]
      cases hfind : (branches.map fun b => (b.1 : Int)).idxOf? (tag : Int) with
      | some k => simpa only [hfind, Option.or] using hreaches
      | none =>
        simp only [hfind] at hreaches ⊢
        exact hreaches.2
  | @step tag parent line hp hrest ih =>
    have hrow := hbuilt.getElem?_tree hp
    have hne : parent ≠ tag := by
      intro heq
      have hnodup := (Climb.step hp hrest).nodup
      exact (nodup_cons.mp hnodup).1 (heq ▸ hrest.mem_self)
    have hlt := Ascent.lt_length (Climb.step hp hrest) mem_cons_self
    have hlt' := Ascent.lt_length hrest hrest.mem_self
    rw [← hbuilt.size_eq] at hlt hlt'
    have hword := ofInt_delta_ne_zero (by omega) (by omega) hne
    cases steps with
    | zero => simp at hsteps
    | succ steps =>
      rcases reaches_treeRow hsmall hlabel hplaced h hsize hrows hrow hhl with
        ⟨s1, hwalking, hreaches⟩
      unfold PassesRow at hreaches
      rw [climbTree_row hrow]
      cases hfind : (branches.map fun b => (b.1 : Int)).idxOf? (tag : Int) with
      | some k =>
        simp only [hfind] at hreaches ⊢
        exact ⟨s1, hwalking, hreaches⟩
      | none =>
        have hup : (tag : Int) * 4 + ((parent : Int) - tag) * 4 = parent * 4 := by omega
        simp only [hfind, Option.map_some, Option.getD_some, if_neg hword] at hreaches
        have hhl1 : s1.hl = p + BitVec.ofInt 16 (parent * 4) := by
          rw [hreaches.1, hhl, BitVec.add_assoc, ← BitVec.ofInt_add, hup]
        rcases ih hwalking (Nat.le_of_succ_le_succ hsteps) hhl1 with
          ⟨s2, hwalking2, hreaches2⟩
        refine ⟨s2, hwalking2, hreaches.2.trans ?_⟩
        have hdelta : ((parent : Int) - tag) * 4 ≠ 0 := by omega
        simpa only [hfind, Option.map_some, Option.getD_some, if_neg hdelta, hup, Option.or]
          using hreaches2

end Way

/-!
# From the test for void on
-/

def toRow : List Instr :=
  [push .hl] ++ loadIndirect .de ++
    [exDeHl, .add .hl .hl, .add .hl .hl, loadLabel .de inheritanceTree, .add .hl .de]

theorem runs_toRow (m : Image) (s0 : Cpu) (htag : s0.memory.word s0.hl = BitVec.ofNat 16 tag)
    (hclear : Clear s0 s0.hl) (hclear' : Clear s0 (s0.hl + 1#16)) :
    ∃ s, Runs m.value (Clear s0) s0 toRow s ∧ Walking s0 s ∧
      s.hl = m.value inheritanceTree + BitVec.ofInt 16 (tag * 4) := by
  have hkept : ∀ a, Clear s0 a → (s0.push s0.hl).memory a = s0.memory a :=
    fun _ ha => ha.push s0.hl
  have hpush : Runs m.value (Clear s0) s0 [.push .hl] (s0.push s0.hl) := .cons rfl hkept (.nil _)
  have hread : (s0.push s0.hl).memory.word s0.hl = BitVec.ofNat 16 tag :=
    (Memory.word_congr (hkept _ hclear) (hkept _ hclear')).trans htag
  refine ⟨_, (hpush.append runs_loadIndirect_de).append (.quiet rfl rfl (.quiet rfl rfl
    (.quiet rfl rfl (.quiet rfl rfl (.quiet rfl rfl (.nil _)))))), ?_, ?_⟩
  · constructor
    · rfl
    · exact Memory.word_putWord_self
    · rfl
    · rfl
    · exact hkept
  · show (s0.push s0.hl).memory.word s0.hl + (s0.push s0.hl).memory.word s0.hl +
      ((s0.push s0.hl).memory.word s0.hl + (s0.push s0.hl).memory.word s0.hl) +
      (m.value inheritanceTree + BitVec.ofInt 16 0) = _
    have hfour : BitVec.ofInt 16 (tag * 4) = BitVec.ofNat 16 (tag * 4) := BitVec.ofInt_natCast 16 _
    rw [hread, hfour]
    bv_omega

section Whole

variable {void loop noMatch : Name} {branches : List (Nat × Name)} {line : Int} {file : Address}

theorem placed_caseWalk (h : m.Placed i (caseWalk void loop noMatch branches line file)) :
    m.Placed i (code (testZero .hl ++ [jp .zero void])) ∧
      m.Placed (i + 3) (code toRow) ∧ m.code[i + 12]? = some (.label loop) ∧
      m.Placed (i + 13) (code (rowCode loop noMatch branches)) ∧
      (∃ j, m.Placed j (.label noMatch :: code [.pop .hl, .jp .always "_case_abort"])) ∧
      ∃ j, m.Placed j (.label void :: code [loadInt .de line, loadAddress .hl file,
        .jp .always "_case_abort2"]) := by
  have hpieces : caseWalk void loop noMatch branches line file =
      code ((testZero .hl ++ [jp .zero void]) ++ toRow) ++ (.label loop ::
      (code (rowCode loop noMatch branches) ++
      ((.label noMatch :: code [.pop .hl, .jp .always "_case_abort"]) ++
      (.label void :: code [loadInt .de line, loadAddress .hl file,
        .jp .always "_case_abort2"])))) := by
    simp only [caseWalk, toRow, rowCode, append_assoc, cons_append, nil_append]
  rw [hpieces] at h
  obtain ⟨hhead, h⟩ := placed_append.mp h
  obtain ⟨htest, hrow⟩ := (placed_code_append _ _).mp hhead
  obtain ⟨hlabel, h⟩ := placed_cons.mp h
  obtain ⟨hrows, h⟩ := placed_append.mp h
  obtain ⟨hnone, hvoid⟩ := placed_append.mp h
  exact ⟨htest, hrow, hlabel, hrows, ⟨_, hnone⟩, ⟨_, hvoid⟩⟩

def tested (s : Cpu) : Cpu :=
  { s with a := high s.hl ||| low s.hl, carry := false, zero := decide (s.hl = 0#16) }

theorem reaches_testVoid (h : m.Placed i (code (testZero .hl ++ [jp .zero void]))) :
    Reaches m (Clear s) (.line i) s (if s.hl = 0#16 then m.target void else .line (i + 3))
      (tested s) := by
  obtain ⟨htest, hjump⟩ := (placed_code_append _ _).mp h
  have htested : Reaches m (Clear s) (.line i) s (.line (i + 2)) (tested s) :=
    reaches_code htest runs_testZero_hl
  have hjumped : Reaches m (Clear s) (.line (i + 2)) (tested s)
      (if (tested s).zero then m.target void else .line (i + 3)) (tested s) :=
    reaches_jp (placed_cons.mp hjump).1 rfl
  simp only [tested, decide_eq_true_eq] at hjumped
  exact htested.trans hjumped

theorem reaches_report {abort : Name} {j : Nat}
    (htest : m.Placed i (code (testZero .hl ++ [jp .zero void])))
    (habort : m.Placed j (.label void :: code [loadInt .de line, loadAddress .hl file,
      .jp .always abort])) (hvoid : s.hl = 0#16) :
    ∃ s', Reaches m (Clear s) (.line i) s (m.target abort) s' ∧
      s'.de = BitVec.ofInt 16 line ∧ s'.hl = m.value file.label + BitVec.ofInt 16 file.offset ∧
      s'.sp = s.sp := by
  obtain ⟨hlabel, hcode⟩ := placed_cons.mp habort
  rcases (placed_code_append [loadInt .de line, loadAddress .hl file] _).mp hcode
    with ⟨hloads, hjump⟩
  have htested : Reaches m (Clear s) (.line i) s (m.target void) (tested s) := by
    have htested := reaches_testVoid (s := s) htest
    rwa [if_pos hvoid] at htested
  rw [target_of_code hlabel] at htested
  let s' : Cpu := { tested s with
    de := BitVec.ofInt 16 line, hl := m.value file.label + BitVec.ofInt 16 file.offset }
  have hruns : Runs m.value (Clear s) (tested s)
      [loadInt .de line, loadAddress .hl file] s' :=
    .quiet rfl rfl (.quiet rfl rfl (.nil _))
  exact ⟨s', htested.trans ((reaches_label hlabel).trans ((reaches_code hloads hruns).trans
    (reaches_jump (placed_cons.mp hjump).1))), rfl, rfl, rfl⟩

theorem reaches_voidAbort (h : m.Placed i (caseWalk void loop noMatch branches line file))
    (hvoid : s.hl = 0#16) :
    ∃ s', Reaches m (Clear s) (.line i) s (m.target "_case_abort2") s' ∧
      s'.de = BitVec.ofInt 16 line ∧ s'.hl = m.value file.label + BitVec.ofInt 16 file.offset ∧
      s'.sp = s.sp := by
  obtain ⟨htest, _, _, _, _, j, habort⟩ := placed_caseWalk h
  exact reaches_report htest habort hvoid

theorem reaches_popped {s1 : Cpu} {label : Name} {body : List Line} (hwalking : Walking s s1)
    (h : m.Placed i (.label label :: .instr (.pop .hl) :: body)) :
    ∃ s', Reaches m (Clear s) (.line i) s1 (.line (i + 2)) s' ∧
      s'.hl = s.hl ∧ s'.sp = s.sp ∧ s'.ix = s.ix ∧ s'.iy = s.iy := by
  obtain ⟨hlabel, hcode⟩ := placed_cons.mp h
  have hpop : m.Placed (i + 1) (code [.pop .hl]) :=
    placed_cons.mpr ⟨(placed_cons.mp hcode).1, fun k l hk => by simp at hk⟩
  have hruns : Runs m.value (Clear s) s1 [.pop .hl]
      { s1 with hl := s1.memory.word s1.sp, sp := s1.sp + 2#16 } := .quiet rfl rfl (.nil _)
  refine ⟨_, (reaches_label hlabel).trans (reaches_code hpop hruns), hwalking.saved, ?_,
    hwalking.ix, hwalking.iy⟩
  show s1.sp + 2#16 = s.sp
  rw [hwalking.sp, BitVec.sub_add_cancel]

theorem reaches_noMatch {s1 : Cpu} (hwalking : Walking s s1)
    (h : m.Placed i (.label noMatch :: code [.pop .hl, .jp .always "_case_abort"])) :
    ∃ s', Reaches m (Clear s) (m.target noMatch) s1 (m.target "_case_abort") s' ∧
      s'.hl = s.hl ∧ s'.sp = s.sp := by
  obtain ⟨s', hpopped, hhl, hsp, -⟩ := reaches_popped hwalking h
  obtain ⟨hlabel, hcode⟩ := placed_cons.mp h
  have hjump := (placed_cons.mp (placed_cons.mp hcode).2).1
  rw [target_of_code hlabel]
  exact ⟨s', hpopped.trans (reaches_jump hjump), hhl, hsp⟩

theorem reaches_caseWalk (h : m.Placed i (caseWalk void loop noMatch branches line file))
    {user : List Class} {parents : List (Option Nat)} {t : ClassTable}
    (hbuilt : Built user parents t)
    (hsize : t.size ≤ 8192) (hsmall : ∀ b ∈ branches, b.1 < 65536)
    (hrows : Rows t (m.value inheritanceTree) s) {n : ClassNode} (hn : n ∈ t.nodes)
    (hobject : s.hl ≠ 0#16) (htag : s.memory.word s.hl = BitVec.ofNat 16 n.tag)
    (hclear : Clear s s.hl) (hclear' : Clear s (s.hl + 1#16)) :
    ∃ s', match t.matchCase n.tag (branches.map fun b => (b.1 : Int)) with
      | some k => Walking s s' ∧
          Reaches m (Clear s) (.line i) s (m.target ((branches.map Prod.snd).getD k [])) s'
      | none => s'.hl = s.hl ∧ s'.sp = s.sp ∧
          Reaches m (Clear s) (.line i) s (m.target "_case_abort") s' := by
  obtain ⟨htest, hhead, hlabel, hrowCode, ⟨j, hnone⟩, _⟩ := placed_caseWalk h
  have hpassed : Reaches m (Clear s) (.line i) s (.line (i + 3)) (tested s) := by
    have hpassed := reaches_testVoid (s := s) htest
    rwa [if_neg hobject] at hpassed
  have hrows' : Rows t (m.value inheritanceTree) (tested s) :=
    ⟨hrows.tag, hrows.delta, hrows.clear⟩
  obtain ⟨s1, hruns, hwalking, hhl⟩ := runs_toRow m (tested s) htag hclear hclear'
  obtain ⟨line, hline⟩ := hbuilt.exists_ascent hn
  have hsteps := hline.length_le
  rw [← hbuilt.size_eq] at hsteps
  rcases reaches_climb hsmall hlabel hrowCode hwalking hbuilt hsize hline hsteps hrows' hhl with
    ⟨s2, hwalking2, hclimbed⟩
  have harrived := hpassed.trans ((reaches_code hhead hruns).trans hclimbed)
  have hwalking' : Walking s s2 :=
    ⟨hwalking2.sp, hwalking2.saved, hwalking2.ix, hwalking2.iy, hwalking2.memory⟩
  have hmatch : t.matchCase n.tag (branches.map fun b => (b.1 : Int)) =
      climbTree t.tree (branches.map fun b => (b.1 : Int)) t.size (n.tag * 4) := by
    have hlt := hbuilt.tag_lt hn
    rw [← hbuilt.size_eq] at hlt
    rw [matchCase, if_pos ⟨Int.natCast_nonneg _, Int.ofNat_lt.mpr hlt⟩]
    rfl
  rw [hmatch]
  cases hfind : climbTree t.tree (branches.map fun b => (b.1 : Int)) t.size
      (n.tag * 4) with
  | some k =>
    rw [hfind] at harrived
    exact ⟨s2, hwalking', harrived⟩
  | none =>
    rw [hfind] at harrived
    obtain ⟨s', hreaches, hhl', hsp'⟩ := reaches_noMatch hwalking' hnone
    exact ⟨s', hhl', hsp', harrived.trans hreaches⟩

end Whole

end CoolCompiler.Machine
