import CoolCompiler.Proofs.Emit.Code
import CoolCompiler.Proofs.ObjectModel.Dispatch

/-!
# Local labels

The code of an expression defines every local label that was handed out for it, once each, and
refers to those and to labels of the program.
-/

namespace CoolCompiler

open List

namespace Emit

def libraryLabels : List Name :=
  ["_start", "Object.copy", "equality_test", "_dispatch_abort", "_case_abort", "_case_abort2",
   "MUL_HL_DE", "DIV_HL_DE"]

theorem ne_localLabel_of_headD {x : Name} (h : x.headD 0 ≠ 108) (i : Nat) : x ≠ localLabel i := by
  intro heq
  apply h
  rw [heq, headD_localLabel]

theorem ne_localLabel_of_library {x : Name} (h : x ∈ libraryLabels) (i : Nat) :
    x ≠ localLabel i := by
  have hfirst : ∀ y ∈ libraryLabels, y.headD 0 ≠ 108 := by decide
  exact ne_localLabel_of_headD (hfirst x h) i

theorem append_ne_localLabel {b : UInt8} (w : Text) {suffix : Text}
    (hlast : suffix.getLast? = some b) (hb : 57 < b.toNat) (i : Nat) :
    w ++ suffix ≠ localLabel i := by
  intro heq
  obtain ⟨b', hlast', hb'⟩ := getLast?_localLabel i
  have hne : suffix ≠ [] := by
    intro hnil
    rw [hnil] at hlast
    cases hlast
  rw [← heq, getLast?_append_of_ne_nil _ hne, hlast] at hlast'
  cases hlast'
  omega

theorem dotted_ne_localLabel (c m : Name) (i : Nat) :
    c ++ Text.ofString "." ++ m ≠ localLabel i := by
  intro heq
  apply undotted_localLabel i
  rw [← heq, append_assoc]
  exact mem_append_right c (mem_append_left m (by decide))

end Emit

def Label.Global : Label → Prop
  | fixed x => x ∈ fixedNames
  | branch _ => False
  | _ => True

instance : DecidablePred Label.Global
  | .fixed x => inferInstanceAs (Decidable (x ∈ Label.fixedNames))
  | .branch _ => isFalse id
  | .string _ | .int _ | .prototype _ | .init _ | .dispatch _ | .method _ _ => isTrue trivial

theorem Label.Global.ne_localLabel {l : Label} (h : l.Global) (i : Nat) :
    l.name ≠ Emit.localLabel i := by
  cases l with
  | fixed x =>
    have hfixed : ∀ y ∈ fixedNames, y.headD 0 ≠ 108 := by decide
    exact Emit.ne_localLabel_of_headD (hfixed x h) i
  | string j => exact Emit.ne_localLabel_of_headD (by rw [name, Emit.headD_stringLabel]; decide) i
  | int j => exact Emit.ne_localLabel_of_headD (by rw [name, Emit.headD_intLabel]; decide) i
  | branch j => exact absurd h id
  | prototype c => exact Emit.append_ne_localLabel (b := 106) _ rfl (by decide) i
  | init c => exact Emit.append_ne_localLabel (b := 116) _ rfl (by decide) i
  | dispatch c => exact Emit.append_ne_localLabel (b := 98) _ rfl (by decide) i
  | method c m => exact Emit.dotted_ne_localLabel c m i

namespace Emit

inductive External (sc : Scene) : Name → Prop where
  | library {x : Name} : x ∈ libraryLabels → External sc x
  | string {t : Text} {i : Nat} : sc.pool.strings.find? t = some i → External sc (stringLabel i)
  | int {n : Int} {i : Nat} : sc.pool.ints.find? n = some i → External sc (intLabel i)
  | bool (b : Bool) : External sc (boolLabel b)
  | objectTable : External sc classObjectTable
  | tree : External sc inheritanceTree
  | prototype {n : ClassNode} : n ∈ sc.table.nodes → External sc n.prototypeLabel
  | init {n : ClassNode} : n ∈ sc.table.nodes → External sc n.initLabel
  | dispatch {n : ClassNode} : n ∈ sc.table.nodes → External sc n.dispatchLabel
  | method {n : ClassNode} {e : DispatchEntry} : n ∈ sc.table.nodes → e ∈ n.dispatch →
      External sc e.label

variable {sc : Scene}

variable {seen : Nat → Prop} {x : Name} {ls : List Line}

theorem External.ne_localLabel (h : External sc x) (i : Nat) : x ≠ localLabel i := by
  have hglobal : ∀ l : Label, l.Global → l.name ≠ localLabel i := fun l hl => hl.ne_localLabel i
  cases h with
  | library hx => exact ne_localLabel_of_library hx i
  | string _ => exact hglobal (.string _) trivial
  | int _ => exact hglobal (.int _) trivial
  | bool b => exact hglobal (.fixed (boolLabel b)) (by cases b <;> decide)
  | objectTable => exact hglobal (.fixed classObjectTable) (by decide)
  | tree => exact hglobal (.fixed inheritanceTree) (by decide)
  | prototype _ => exact hglobal (.prototype _) trivial
  | init _ => exact hglobal (.init _) trivial
  | dispatch _ => exact hglobal (.dispatch _) trivial
  | method _ _ => exact hglobal (.method _ _) trivial

theorem External.ofMethod {c f : Name} {entry : DispatchEntry}
    (h : sc.table.method c f = .ok entry) : External sc entry.label := by
  obtain ⟨n, hn, hentry⟩ := ClassTable.method_eq_ok_iff.mp h
  exact .method (mem_of_find?_eq_some hn) (mem_of_find?_eq_some hentry)

inductive Visible (sc : Scene) (seen : Nat → Prop) : Name → Prop where
  | external {x : Name} : External sc x → Visible sc seen x
  | near {i : Nat} : seen i → Visible sc seen (localLabel i)

theorem Visible.mono {seen' : Nat → Prop} (h : Visible sc seen x) (hseen : ∀ i, seen i → seen' i) :
    Visible sc seen' x := by
  cases h with
  | external hx => exact .external hx
  | near hi => exact .near (hseen _ hi)

theorem Visible.of_localLabel {i : Nat} (h : Visible sc seen (localLabel i)) : seen i := by
  generalize hx : localLabel i = x at h
  cases h with
  | external h => exact absurd hx.symm (h.ne_localLabel i)
  | near h =>
    rw [localLabel_injective hx]
    exact h

theorem Visible.library (h : x ∈ libraryLabels) : Visible sc seen x := .external (.library h)

theorem Visible.bool (b : Bool) : Visible sc seen (boolLabel b) :=
  .external (.bool b)

/-!
# Local labels of a piece of code
-/

def between (k k' i : Nat) : Nat := if k ≤ i ∧ i < k' then 1 else 0

/-- A piece of code defines the local label with a number so many times and refers to no
local labels but those seen. -/
structure Labels (sc : Scene) (own : Nat → Nat) (seen : Nat → Prop) (ls : List Line) : Prop where
  defs : ∃ ns : List Nat, labelDefs ls = ns.map localLabel ∧ ∀ i, ns.count i = own i
  refs : ∀ x ∈ labelRefs ls, Visible sc seen x

namespace Labels

variable {own own1 own2 : Nat → Nat} {seen seen' : Nat → Prop} {ls ms : List Line}

theorem mono (h : Labels sc own seen ls) (hseen : ∀ i, seen i → seen' i) :
    Labels sc own seen' ls :=
  ⟨h.defs, fun x hx => (h.refs x hx).mono hseen⟩

theorem congr (h : Labels sc own1 seen ls) (hown : ∀ i, own1 i = own2 i) :
    Labels sc own2 seen ls := by
  rw [← funext hown]
  exact h

theorem append (h : Labels sc own1 seen ls) (h' : Labels sc own2 seen ms) :
    Labels sc (fun i => own1 i + own2 i) seen (ls ++ ms) := by
  obtain ⟨ns, hns, hcount⟩ := h.defs
  obtain ⟨ns', hns', hcount'⟩ := h'.defs
  constructor
  · refine ⟨ns ++ ns', by simp [hns, hns'], fun i => ?_⟩
    rw [count_append, hcount, hcount']
  · intro x hx
    rw [labelRefs_append, mem_append] at hx
    exact hx.elim (h.refs x) (h'.refs x)

theorem label (k : Nat) (h : Labels sc own seen ls) :
    Labels sc (fun i => own i + if k = i then 1 else 0) seen (.label (localLabel k) :: ls) := by
  obtain ⟨ns, hns, hcount⟩ := h.defs
  constructor
  · refine ⟨k :: ns, by simp [hns], fun i => ?_⟩
    simp [count_cons, hcount]
  · exact h.refs

theorem code {is : List Instr} (h : ∀ x ∈ is.flatMap Instr.refers, Visible sc seen x) :
    Labels sc (fun _ => 0) seen (Emit.code is) := by
  constructor
  · exact ⟨[], by simp, fun i => count_nil⟩
  · rwa [labelRefs_code]

theorem nil : Labels sc (fun _ => 0) seen [] :=
  ⟨⟨[], rfl, fun _ => count_nil⟩, fun _ hx => absurd hx not_mem_nil⟩

theorem silent {is : List Instr} (h : is.flatMap Instr.refers = []) :
    Labels sc (fun _ => 0) seen (Emit.code is) := code (by simp [h])

theorem more {is js : List Instr} (h : Labels sc (fun _ => 0) seen (Emit.code is))
    (h' : Labels sc (fun _ => 0) seen (Emit.code js)) :
    Labels sc (fun _ => 0) seen (Emit.code (is ++ js)) := by
  rw [Emit.code, map_append]
  exact h.append h'

/-!
# Fixed pieces
-/

theorem one {x : Name} {is : List Instr} (hrefs : is.flatMap Instr.refers = [x])
    (h : Visible sc seen x) : Labels sc (fun _ => 0) seen (Emit.code is) :=
  code (by rw [hrefs]; exact forall_mem_singleton.mpr h)

theorem two {x y : Name} {is : List Instr} (hrefs : is.flatMap Instr.refers = [x, y])
    (h : Visible sc seen x) (h' : Visible sc seen y) :
    Labels sc (fun _ => 0) seen (Emit.code is) :=
  code (by rw [hrefs]; exact forall_mem_cons.mpr ⟨h, forall_mem_singleton.mpr h'⟩)

theorem testBranches {tags : List Nat} {j : Nat} (h : ∀ i, j ≤ i → i < j + tags.length → seen i) :
    ∀ x ∈ ((tags.zip ((List.range' j tags.length).map localLabel)).flatMap
      fun b => testBranch b.1 b.2).flatMap Instr.refers, Visible sc seen x := by
  induction tags generalizing j with
  | nil => simp
  | cons tag tags ih =>
    rw [length_cons] at h
    rw [length_cons, range'_succ, map_cons, zip_cons_cons,
      flatMap_cons, flatMap_append]
    refine forall_mem_append.mpr ⟨forall_mem_singleton.mpr (.near ?_), ih ?_⟩
    · exact h j (by omega) (by omega)
    · exact fun i hi hi' => h i (by omega) (by omega)

theorem caseWalk {tags : List Nat} {k : Nat} (line : Int) {t : Text} {file : Nat}
    (hfile : sc.pool.strings.find? t = some file)
    (hseen : ∀ i, k ≤ i → i < k + 4 + tags.length → seen i) :
    Labels sc (between k (k + 3)) seen
      (caseWalk (localLabel k) (localLabel (k + 1)) (localLabel (k + 2))
        (tags.zip ((List.range' (k + 4) tags.length).map localLabel)) line
        ⟨stringLabel file, 0⟩) := by
  have hnear : ∀ i, k ≤ i → i < k + 3 → Visible sc seen (localLabel i) :=
    fun i hi hi' => .near (hseen i hi (by omega))
  have htests : ∀ x ∈ ((tags.zip ((List.range' (k + 4) tags.length).map localLabel)).flatMap
      fun b => testBranch b.1 b.2).flatMap Instr.refers, Visible sc seen x :=
    testBranches fun i hi hi' => hseen i (by omega) hi'
  have hclimb : Labels sc (fun _ => 0) seen (Emit.code (Instr.loadIndirect .bc ++ [Instr.dec .hl] ++
      (tags.zip ((List.range' (k + 4) tags.length).map localLabel)).flatMap
        (fun b => testBranch b.1 b.2) ++
      [Instr.inc .hl, .inc .hl] ++ Instr.loadIndirect .de ++ [Instr.dec .hl, .dec .hl, .dec .hl] ++
      Instr.testZero .de ++
      [Instr.jp .zero (localLabel (k + 2)), .add .hl .de, .jp .always (localLabel (k + 1))])) := by
    refine ((((((silent rfl).more (code htests)).more (silent rfl)).more (silent rfl)).more
      (silent rfl)).more (silent rfl)).more (two rfl (hnear _ ?_ ?_) (hnear _ ?_ ?_)) <;> omega
  refine Labels.congr (((((((two rfl (hnear k ?_ ?_) (.external .tree)).append
    (nil.label (k + 1))).append hclimb).append (nil.label (k + 2))).append
    (one rfl (.library ?_))).append (nil.label k)).append
    (two rfl (.external (.string hfile)) (.library ?_))) ?_
  · omega
  · omega
  · decide
  · decide
  · grind [between]

end Labels

/-!
# Rules

A rule of the code of expressions puts pieces together whose numbers follow each other.
-/

/-- Code that defines each local label from the first number up to the second once and
refers to no others. -/
def Numbered (sc : Scene) (k : Nat) (ls : List Line) (k' : Nat) : Prop :=
  k ≤ k' ∧ Labels sc (between k k') (fun i => k ≤ i ∧ i < k') ls

/-- Code of branches, which defines the labels of the branches besides and may refer to the
label where the branches end. -/
def NumberedBranches (sc : Scene) (j n f k : Nat) (ls : List Line) (k' : Nat) : Prop :=
  k ≤ k' ∧ Labels sc (fun i => between j (j + n) i + between k k' i)
    (fun i => i = f ∨ k ≤ i ∧ i < k') ls

namespace Numbered

variable {k k1 k2 k3 k4 : Nat} {ls ms ns : List Line}

theorem within {lo hi : Nat} (h : Numbered sc k1 ls k2) (hlo : lo ≤ k1) (hhi : k2 ≤ hi) :
    Labels sc (between k1 k2) (fun i => lo ≤ i ∧ i < hi) ls :=
  h.2.mono fun i hi' => ⟨by omega, by omega⟩

theorem ofCode {is : List Instr} (h : ∀ x ∈ is.flatMap Instr.refers, External sc x) :
    Numbered sc k (Emit.code is) k := by
  refine ⟨Nat.le_refl k, (Labels.code fun x hx => .external (h x hx)).congr fun i => ?_⟩
  rw [between, if_neg (by omega)]

theorem silent {is : List Instr} (h : is.flatMap Instr.refers = []) :
    Numbered sc k (Emit.code is) k := ofCode (by simp [h])

theorem nil : Numbered sc k [] k := silent (show [].flatMap Instr.refers = [] from rfl)

theorem one {x : Name} {is : List Instr} (hrefs : is.flatMap Instr.refers = [x])
    (h : External sc x) : Numbered sc k (Emit.code is) k :=
  ofCode (by rw [hrefs]; exact forall_mem_singleton.mpr h)

theorem append (h : Numbered sc k1 ls k2) (h' : Numbered sc k2 ms k3) :
    Numbered sc k1 (ls ++ ms) k3 := by
  have hle := h.1
  have hle' := h'.1
  refine ⟨Nat.le_trans hle hle', Labels.congr ((h.within ?_ hle').append (h'.within hle ?_)) ?_⟩
  · exact Nat.le_refl k1
  · exact Nat.le_refl k3
  · grind [between]

/-!
# Pieces with labels of their own
-/

theorem selectBool (flag : Flag) : Numbered sc k (selectBool flag (localLabel k)) (k + 1) := by
  have hfirst : Labels sc (fun _ => 0) (fun i => k ≤ i ∧ i < k + 1)
      (Emit.code [loadBool true, .jp flag (localLabel k)]) :=
    .two rfl (.bool true) (.near (by omega))
  have hsecond : Labels sc (fun _ => 0) (fun i => k ≤ i ∧ i < k + 1) (Emit.code [loadBool false]) :=
    .one rfl (.bool false)
  refine ⟨by omega, Labels.congr ((hfirst.append hsecond).append (Labels.nil.label k)) ?_⟩
  grind [between]

theorem equalityResult :
    Numbered sc k (equalityResult (localLabel k) (localLabel (k + 1))) (k + 2) := by
  have hfalse : Labels sc (fun _ => 0) (fun i => k ≤ i ∧ i < k + 2)
      (Emit.code [loadBool false, .jp .always (localLabel (k + 1))]) :=
    .two rfl (.bool false) (.near (by omega))
  have htrue : Labels sc (fun _ => 0) (fun i => k ≤ i ∧ i < k + 2) (Emit.code [loadBool true]) :=
    .one rfl (.bool true)
  refine ⟨by omega, Labels.congr (((hfalse.append (Labels.nil.label k)).append htrue).append
    (Labels.nil.label (k + 1))) ?_⟩
  grind [between]

theorem newSelfType : Numbered sc k (newSelfType (localLabel k)) (k + 1) := by
  have hrefs : ∀ x ∈ [classObjectTable, "Object.copy", localLabel k],
      Visible sc (fun i => k ≤ i ∧ i < k + 1) x := by
    simp only [forall_mem_cons]
    exact ⟨.external .objectTable, .library (by decide), .near (by omega), by simp⟩
  refine ⟨by omega, Labels.congr (.append (.code ?_) (Labels.nil.label k)) ?_⟩
  · exact hrefs
  · grind [between]

theorem afterCall {call : List Instr} (n : Nat) (line : Int) {t : Text} {file : Nat}
    (hfile : sc.pool.strings.find? t = some file)
    (hcall : ∀ x ∈ call.flatMap Instr.refers, Visible sc (fun i => k ≤ i ∧ i < k + 2) x) :
    Numbered sc k (Emit.code call ++
      (dispatchAbort (localLabel k) line ⟨stringLabel file, 0⟩ ++
      (.label (localLabel (k + 1)) :: Emit.code (dropActuals n)))) (k + 2) := by
  have habort : Labels sc (fun i => if k = i then 1 else 0) (fun i => k ≤ i ∧ i < k + 2)
      (dispatchAbort (localLabel k) line ⟨stringLabel file, 0⟩) := by
    refine Labels.congr ((Labels.nil.label k).append
      (.two rfl (.external (.string hfile)) (.library (by decide)))) ?_
    simp
  have hdrop : (dropActuals n).flatMap Instr.refers = [] := by
    rw [dropActuals, flatMap_eq_nil_iff]
    intro i hi
    rw [eq_of_mem_replicate hi]
    rfl
  refine ⟨by omega, Labels.congr ((Labels.code hcall).append
    (habort.append ((Labels.silent hdrop).label _))) ?_⟩
  grind [between]

theorem pushCopy {n : ClassNode} (hn : n ∈ sc.table.nodes) :
    Numbered sc k (Emit.code (pushCopy n.prototypeLabel)) k := by
  have hrefs : ∀ x ∈ [n.prototypeLabel, "Object.copy"], External sc x := by
    simp only [forall_mem_cons]
    exact ⟨.prototype hn, .library (by decide), by simp⟩
  exact ofCode hrefs

end Numbered

theorem mem_labelDefs : x ∈ labelDefs ls ↔ Line.label x ∈ ls := by
  rw [labelDefs, mem_filterMap]
  constructor
  · rintro ⟨l, hl, hdefines⟩
    cases l with
    | label y =>
      cases hdefines
      exact hl
    | _ => cases hdefines
  · exact fun hx => ⟨_, hx, rfl⟩

theorem Numbered.label_mem {k k' i : Nat} (h : Numbered sc k ls k')
    (href : localLabel i ∈ labelRefs ls) : Line.label (localLabel i) ∈ ls := by
  have hi : k ≤ i ∧ i < k' := (h.2.refs _ href).of_localLabel
  obtain ⟨ns, hns, hcount⟩ := h.2.defs
  have hmem : i ∈ ns := by
    rw [← count_pos_iff, hcount i, between, if_pos hi]
    decide
  rw [← mem_labelDefs, hns]
  exact mem_map_of_mem hmem

theorem Numbered.label_local {k k' : Nat} (h : Numbered sc k ls k') (hx : Line.label x ∈ ls) :
    ∃ i, x = localLabel i := by
  obtain ⟨ns, hns, _⟩ := h.2.defs
  rw [← mem_labelDefs, hns] at hx
  obtain ⟨i, _, rfl⟩ := mem_map.mp hx
  exact ⟨i, rfl⟩

/-!
# Expressions
-/

theorem numberedRules (sc : Scene) :
    CodeRules sc (Numbered sc) (fun _ => Numbered sc) (NumberedBranches sc) where
  nil _ := .nil
  append := .append
  int _ _ _ hi := .one rfl (.int hi)
  string _ _ _ hi := .one rfl (.string hi)
  bool _ b := .one rfl (.bool b)
  void _ := .silent rfl
  self _ := .silent rfl
  fetch _ _ := .silent rfl
  store _ _ := .silent rfl
  noActuals _ := .nil
  actual h h' := h.append (.append (.silent rfl) h')
  dispatch {_ _ _ k _ _ _ _ _ _ _} line h h' _ hfile := by
    have hcall : ∀ x ∈ [localLabel k, localLabel (k + 1)],
        Visible sc (fun i => k ≤ i ∧ i < k + 2) x := by
      simp only [forall_mem_cons]
      exact ⟨.near (by omega), .near (by omega), by simp⟩
    exact h.append (h'.append (.afterCall _ line hfile hcall))
  static {_ _ _ k _ _ _ _ entry _ _} line h h' hentry hfile := by
    have hcall : ∀ x ∈ [localLabel k, entry.label, localLabel (k + 1)],
        Visible sc (fun i => k ≤ i ∧ i < k + 2) x := by
      simp only [forall_mem_cons]
      exact ⟨.near (by omega), .external (.ofMethod hentry), .near (by omega), by simp⟩
    exact h.append (h'.append (.afterCall _ line hfile hcall))
  arithmetic {op _ _ k _ _ _} hop hn h h' := by
    have hcompute : Numbered sc k (code (unboxOperands ++ arithmetic op ++ boxResult)) k := by
      rcases hop with rfl | rfl | rfl | rfl
      · exact .silent rfl
      · exact .silent rfl
      · exact .one rfl (.library (by decide))
      · exact .one rfl (.library (by decide))
    exact .append (.pushCopy (mem_of_find?_eq_some hn)) (h.append (.append (.silent rfl)
      (h'.append (.append (.silent rfl) hcompute))))
  comparison orEqual h h' := by
    have hcompare : (unboxOperands ++ compareSigned orEqual).flatMap Instr.refers = [] := by
      cases orEqual <;> rfl
    exact h.append (.append (.silent rfl) (h'.append (.append (.silent rfl)
      (.append (.silent hcompare) (.selectBool .carry)))))
  equality {_ _ k _ _} type h h' := by
    have htest : Labels sc (fun _ => 0) (fun i => k ≤ i ∧ i < k + 2)
        (code (testSame (localLabel k) ++ testEqual type (localLabel k))) := by
      apply Labels.more (.one rfl (.near (by omega)))
      unfold testEqual
      split
      · exact .one rfl (.near (by omega))
      · split
        · exact .two rfl (.library (by decide)) (.near (by omega))
        · exact .nil
    have hend := (htest.append (Numbered.equalityResult (k := k)).2).congr fun i => Nat.zero_add _
    exact h.append (.append (.silent rfl) (h'.append (.append (.silent rfl) ⟨by omega, hend⟩)))
  negate hn h := .append (.pushCopy (mem_of_find?_eq_some hn)) (h.append (.silent rfl))
  complement h := h.append (.append (.silent rfl) (.selectBool .zero))
  isVoid h := h.append (.append (.silent rfl) (.selectBool .zero))
  new _ _ n hn := by
    have hn := mem_of_find?_eq_some hn
    have hrefs : ∀ x ∈ [n.prototypeLabel, "Object.copy", n.initLabel], External sc x := by
      simp only [forall_mem_cons]
      exact ⟨.prototype hn, .library (by decide), .init hn, by simp⟩
    exact .ofCode hrefs
  newSelfType _ := .newSelfType
  cond h1 h2 h3 := by
    have hle1 := h1.1
    have hle2 := h2.1
    have hle3 := h3.1
    refine ⟨by omega, Labels.congr ((h1.within (by omega) (by omega)).append
      ((Labels.one rfl (.near ?_)).append ((h2.within (by omega) (by omega)).append
      ((Labels.one rfl (.near ?_)).append (((h3.within (by omega) (by omega)).append
      (Labels.nil.label _)).label _))))) ?_⟩
    · omega
    · omega
    · grind [between]
  loop h1 h2 := by
    have hle1 := h1.1
    have hle2 := h2.1
    refine ⟨by omega, Labels.congr (((h1.within (by omega) (by omega)).append
      ((Labels.one rfl (.near ?_)).append ((h2.within (by omega) (by omega)).append
      ((Labels.one rfl (.near ?_)).append ((Labels.silent rfl).label _))))).label _) ?_⟩
    · omega
    · omega
    · grind [between]
  noBranches j f k := ⟨Nat.le_refl k, Labels.nil.congr (by grind [between])⟩
  branch {j _ f k1 _ k3 _ _} x h h' := by
    have hle := h.1
    have hle' := h'.1
    have hbody := h.2.mono fun i hi => show i = f ∨ k1 ≤ i ∧ i < k3 by omega
    have hrest := h'.2.mono fun i hi => show i = f ∨ k1 ≤ i ∧ i < k3 by omega
    refine ⟨by omega, Labels.congr (((Labels.silent rfl).append ((Labels.silent rfl).append
      (hbody.append ((Labels.one rfl (.near (.inl rfl))).append hrest)))).label j) ?_⟩
    grind [between]
  typeCase {_ k2 k3 _ _ _ _ _} line h hfile h' := by
    have hle := h'.1
    have hbranches := h'.2.mono fun i hi => show k2 ≤ i ∧ i < k3 by omega
    refine h.append ⟨by omega, Labels.congr ((Labels.caseWalk line hfile fun i hi hi' => ?_).append
      (hbranches.append (Labels.nil.label (k2 + 3)))) ?_⟩
    · omega
    · grind [between]

theorem expr_numbered (sc : Scene) (e : Expr) : Codes sc (Numbered sc) e :=
  (numberedRules sc).ofExpr e

end Emit
end CoolCompiler
