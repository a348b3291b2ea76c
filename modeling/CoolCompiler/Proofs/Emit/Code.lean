import CoolCompiler.Proofs.Emit.Temporaries
import CoolCompiler.Proofs.Emit.Written

/-!
# Induction on written code

What is closed under the shapes that expressions are written as holds of the code of every
expression.
-/

namespace CoolCompiler.Emit

open List Instr

/-!
# Shapes

A property is about lines and the numbers of local labels before and after them.  Actuals and
branches come in rows and have properties of their own.
-/

/-- Properties that are closed under the shapes of code: `P` of expressions, `A` of so many actuals,
and `B` of so many branches, whose labels are numbered from the first argument on and which go on at
the label of the third. -/
structure CodeRules (sc : Scene) (P : Nat → List Line → Nat → Prop)
    (A : Nat → Nat → List Line → Nat → Prop)
    (B : Nat → Nat → Nat → Nat → List Line → Nat → Prop) : Prop where
  nil : ∀ k, P k [] k
  append : ∀ {k1 k2 k3 ls ms}, P k1 ls k2 → P k2 ms k3 → P k1 (ls ++ ms) k3
  int : ∀ k {n i}, sc.pool.ints.find? n = some i →
    P k (code [loadAddress .hl ⟨intLabel i, 0⟩]) k
  string : ∀ k {t i}, sc.pool.strings.find? t = some i →
    P k (code [loadAddress .hl ⟨stringLabel i, 0⟩]) k
  bool : ∀ k b, P k (code [loadBool b]) k
  void : ∀ k, P k (code [loadInt .hl 0]) k
  self : ∀ k, P k (code (move .hl .ix)) k
  fetch : ∀ k x, P k (code (loadWord .hl x)) k
  store : ∀ k x, P k (code (storeWord x .hl)) k
  noActuals : ∀ k, A 0 k [] k
  actual : ∀ {n k1 k2 k3 ls ms}, P k1 ls k2 → A n k2 ms k3 →
    A (n + 1) k1 (ls ++ (code [.push .hl] ++ ms)) k3
  dispatch : ∀ {n k1 k2 k3 ls ms c f entry t file} (line : Int), A n k1 ls k2 → P k2 ms k3 →
    sc.table.method c f = .ok entry → sc.pool.strings.find? t = some file →
    P k1 (ls ++ (ms ++ (code (dispatchCall entry.offset (localLabel k3) (localLabel (k3 + 1))) ++
      (dispatchAbort (localLabel k3) line ⟨stringLabel file, 0⟩ ++
      (.label (localLabel (k3 + 1)) :: code (dropActuals n)))))) (k3 + 2)
  static : ∀ {n k1 k2 k3 ls ms c f entry t file} (line : Int), A n k1 ls k2 → P k2 ms k3 →
    sc.table.method c f = .ok entry → sc.pool.strings.find? t = some file →
    P k1 (ls ++ (ms ++ (code (staticCall entry.label (localLabel k3) (localLabel (k3 + 1))) ++
      (dispatchAbort (localLabel k3) line ⟨stringLabel file, 0⟩ ++
      (.label (localLabel (k3 + 1)) :: code (dropActuals n)))))) (k3 + 2)
  arithmetic : ∀ {op k1 k2 k3 ls ms n}, op = .add ∨ op = .sub ∨ op = .mul ∨ op = .div →
    sc.table.find? Name.int = some n → P k1 ls k2 → P k2 ms k3 →
    P k1 (code (pushCopy n.prototypeLabel) ++ (ls ++ (code [.push .hl] ++ (ms ++
      (code [.pop .de] ++ code (unboxOperands ++ arithmetic op ++ boxResult)))))) k3
  comparison : ∀ {k1 k2 k3 ls ms} (orEqual : Bool), P k1 ls k2 → P k2 ms k3 →
    P k1 (ls ++ (code [.push .hl] ++ (ms ++ (code [.pop .de] ++
      (code (unboxOperands ++ compareSigned orEqual) ++
      selectBool .carry (localLabel k3)))))) (k3 + 1)
  equality : ∀ {k1 k2 k3 ls ms} (type : Name), P k1 ls k2 → P k2 ms k3 →
    P k1 (ls ++ (code [.push .hl] ++ (ms ++ (code [.pop .de] ++
      (code (testSame (localLabel k3) ++ testEqual type (localLabel k3)) ++
      equalityResult (localLabel k3) (localLabel (k3 + 1))))))) (k3 + 2)
  negate : ∀ {k1 k2 ls n}, sc.table.find? Name.int = some n → P k1 ls k2 →
    P k1 (code (pushCopy n.prototypeLabel) ++ (ls ++ code (negatePayload ++ boxResult))) k2
  complement : ∀ {k1 k2 ls}, P k1 ls k2 →
    P k1 (ls ++ (code testBool ++ selectBool .zero (localLabel k2))) (k2 + 1)
  isVoid : ∀ {k1 k2 ls}, P k1 ls k2 →
    P k1 (ls ++ (code (testZero .hl) ++ selectBool .zero (localLabel k2))) (k2 + 1)
  new : ∀ k {t n}, sc.table.find? t = some n → P k (code (newObject n)) k
  newSelfType : ∀ k, P k (newSelfType (localLabel k)) (k + 1)
  cond : ∀ {k1 k2 k3 k4 ls ms ns}, P (k1 + 2) ls k2 → P k2 ms k3 → P k3 ns k4 →
    P k1 (ls ++ (code (testBool ++ [.jp .zero (localLabel k1)]) ++ (ms ++
      (code [.jp .always (localLabel (k1 + 1))] ++ (.label (localLabel k1) ::
      (ns ++ [.label (localLabel (k1 + 1))])))))) k4
  loop : ∀ {k1 k2 k3 ls ms}, P (k1 + 2) ls k2 → P k2 ms k3 →
    P k1 (.label (localLabel k1) :: (ls ++ (code (testBool ++ [.jp .zero (localLabel (k1 + 1))]) ++
      (ms ++ (code [.jp .always (localLabel k1)] ++
      (.label (localLabel (k1 + 1)) :: code [loadInt .hl 0])))))) k3
  noBranches : ∀ j f k, B j 0 f k [] k
  branch : ∀ {j n f k1 k2 k3 ls ms} (x : Indexed), P k1 ls k2 → B (j + 1) n f k2 ms k3 →
    B j (n + 1) f k1 (.label (localLabel j) :: (code [.pop .hl] ++
      (code (storeWord x .hl) ++ (ls ++ (code [.jp .always (localLabel f)] ++ ms))))) k3
  typeCase : ∀ {k1 k2 k3 ls ms t file} {tags : List Nat} (line : Int), P k1 ls k2 →
    sc.pool.strings.find? t = some file →
    B (k2 + 4) tags.length (k2 + 3) (k2 + 4 + tags.length) ms k3 →
    P k1 (ls ++ (caseWalk (localLabel k2) (localLabel (k2 + 1)) (localLabel (k2 + 2))
      (tags.zip ((List.range' (k2 + 4) tags.length).map localLabel)) line ⟨stringLabel file, 0⟩ ++
      (ms ++ [.label (localLabel (k2 + 3))]))) k3

/-!
# Scopes
-/

variable {sc : Scene} {s s' : Session} {ls : List Line} {u : Unit}

theorem yields_openSlot_opened {x : Name} :
    Yields (openSlot x) s ls u s' ↔ fitsDisplacement (nextSlot s.env).offset = true ∧
      ls = code (storeWord (nextSlot s.env) .hl) ∧
      s' = { s with env := opened s.env x } := by
  have hbind : s.env.alloc.2.enter.bind x s.env.alloc.1 =
      if fitsDisplacement (nextSlot s.env).offset = true then .ok (opened s.env x)
      else .error (.internal s.env.owner.name (.bindingOutOfRange x (nextSlot s.env))) := by
    simp only [Environment.alloc, Environment.enter, Environment.bind, Dictionary.put]
    rfl
  rw [yields_openSlot, hbind]
  constructor
  · rintro ⟨env, henv, rfl, rfl⟩
    split at henv
    · rename_i hfits
      cases henv
      exact ⟨hfits, rfl, rfl⟩
    · cases henv
  · rintro ⟨hfits, rfl, rfl⟩
    exact ⟨_, if_pos hfits, rfl, rfl⟩

variable {b : Declared Expr} {bs : List (Declared Expr)}

theorem yields_letIn_cons {m : Mark} {e : Expr}
    (h : Yields (expr sc (.letIn m (b :: bs) e)) s ls u s') :
    ∃ first s1 rest s2, Yields (initializer sc b.type b.value) s first () s1 ∧
      fitsDisplacement (nextSlot s1.env).offset = true ∧
      Yields (expr sc (.letIn m bs e)) { s1 with env := opened s1.env b.name } rest () s2 ∧
      Yields closeSlot s2 [] () s' ∧
      ls = first ++ (code (storeWord (nextSlot s1.env) .hl) ++ rest) := by
  rw [expr_letIn_cons] at h
  obtain ⟨first, _, s1, _, hfirst, hopen, rfl⟩ := yields_bind.mp h
  obtain ⟨_, _, _, _, hslot, hbody, rfl⟩ := yields_bind.mp hopen
  obtain ⟨hfits, rfl, rfl⟩ := yields_openSlot_opened.mp hslot
  obtain ⟨rest, _, s2, closing, hrest, hclose, rfl⟩ := yields_bind.mp hbody
  obtain ⟨env, henv, rfl, rfl⟩ := yields_closeSlot.mp hclose
  exact ⟨first, s1, rest, s2, hfirst, hfits, hrest, hclose, by rw [append_nil]⟩

theorem yields_branchBody (h : Yields (branchBody sc b) s ls u s') :
    ∃ body s1, fitsDisplacement (nextSlot s.env).offset = true ∧
      Yields (expr sc b.value) { s with env := opened s.env b.name } body () s1 ∧
      Yields closeSlot s1 [] () s' ∧
      ls = code (storeWord (nextSlot s.env) .hl) ++ body := by
  rw [branchBody] at h
  obtain ⟨_, _, _, _, hslot, hbody, rfl⟩ := yields_bind.mp h
  obtain ⟨hfits, rfl, rfl⟩ := yields_openSlot_opened.mp hslot
  obtain ⟨body, _, s1, closing, hcode, hclose, rfl⟩ := yields_bind.mp hbody
  obtain ⟨env, henv, rfl, rfl⟩ := yields_closeSlot.mp hclose
  exact ⟨body, s1, hfits, hcode, hclose, by rw [append_nil]⟩

theorem yields_branches_cons {finished label : Name} {labels : List Name}
    (h : Yields (branches sc finished (label :: labels) (b :: bs)) s ls u s') :
    ∃ body s1 s2 rest, fitsDisplacement (nextSlot s.env).offset = true ∧
      Yields (expr sc b.value) { s with env := opened s.env b.name } body () s1 ∧
      Yields closeSlot s1 [] () s2 ∧ Yields (branches sc finished labels bs) s2 rest () s' ∧
      ls = .label label :: (code [.pop .hl] ++ (code (storeWord (nextSlot s.env) .hl) ++
        (body ++ (code [.jp .always finished] ++ rest)))) := by
  rw [branches_cons] at h
  obtain ⟨_, hpop, rfl⟩ := yields_lines_bind.mp h
  obtain ⟨_, hrun, rfl⟩ := yields_instrs_bind.mp hpop
  obtain ⟨_, _, s2, _, hbody, hlast, rfl⟩ := yields_bind.mp hrun
  obtain ⟨rest, hrest, rfl⟩ := yields_instrs_bind.mp hlast
  obtain ⟨body, s1, hfits, hcode, hclose, rfl⟩ := yields_branchBody hbody
  exact ⟨body, s1, s2, rest, hfits, hcode, hclose, hrest, by simp⟩

theorem labels_of_closeSlot (h : Yields closeSlot s ls u s') : s'.labels = s.labels := by
  obtain ⟨env, _, _, rfl⟩ := yields_closeSlot.mp h
  rfl

/-!
# Expressions
-/

def Codes (sc : Scene) (P : Nat → List Line → Nat → Prop) (e : Expr) : Prop :=
  ∀ ⦃s ls u s'⦄, Yields (expr sc e) s ls u s' → P s.labels ls s'.labels

namespace CodeRules

variable {P : Nat → List Line → Nat → Prop} {A : Nat → Nat → List Line → Nat → Prop}
  {B : Nat → Nat → Nat → Nat → List Line → Nat → Prop} (rules : CodeRules sc P A B)
include rules

theorem ofDefaultValue {type : Name} (h : Yields (defaultValue sc type) s ls u s') :
    P s.labels ls s'.labels := by
  rcases yields_defaultValue h with ⟨rfl, hint | hbool | hstring | hvoid⟩
  · obtain ⟨_, i, hi, rfl⟩ := hint
    exact rules.int _ hi
  · rw [hbool.2]
    exact rules.bool _ _
  · obtain ⟨_, i, hi, rfl⟩ := hstring
    exact rules.string _ hi
  · rw [hvoid.2]
    exact rules.void _

theorem ofInitializer {type : Name} {e : Expr}
    (ih : Codes sc P e) (h : Yields (initializer sc type e) s ls u s') :
    P s.labels ls s'.labels := by
  unfold initializer at h
  split at h
  · exact rules.ofDefaultValue h
  · exact ih h

theorem ofActuals {es : List Expr}
    (ih : ∀ e ∈ es, Codes sc P e)
    (h : Yields (actuals sc es) s ls u s') : A es.length s.labels ls s'.labels := by
  induction es generalizing s ls with
  | nil =>
    rw [actuals] at h
    obtain ⟨rfl, _, rfl⟩ := yields_done.mp h
    exact rules.noActuals _
  | cons e es ihs =>
    obtain ⟨first, s1, rest, hfirst, hrest, rfl⟩ := yields_actuals_cons h
    apply rules.actual (ih e mem_cons_self hfirst)
    exact ihs (fun e' he' => ih e' (mem_cons_of_mem e he')) hrest

variable {bs : List (Declared Expr)} {m : Mark}

theorem ofBlock {es : List Expr} (ih : ∀ e ∈ es, Codes sc P e)
    (h : Yields (expr sc (.block m es)) s ls u s') : P s.labels ls s'.labels := by
  induction es generalizing s ls with
  | nil =>
    obtain ⟨rfl, rfl⟩ := yields_block_nil h
    exact rules.nil _
  | cons e es ihs =>
    obtain ⟨first, s1, rest, hfirst, hrest, rfl⟩ := yields_block_cons h
    apply rules.append (ih e mem_cons_self hfirst)
    exact ihs (fun e' he' => ih e' (mem_cons_of_mem e he')) hrest

theorem ofLet {e : Expr} (ihs : ∀ b ∈ bs, Codes sc P b.value) (ih : Codes sc P e)
    (h : Yields (expr sc (.letIn m bs e)) s ls u s') : P s.labels ls s'.labels := by
  induction bs generalizing s ls u s' with
  | nil => exact ih (yields_letIn_nil h)
  | cons b bs ihbs =>
    obtain ⟨first, s1, rest, s2, hfirst, _, hrest, hclose, rfl⟩ := yields_letIn_cons h
    have hinside := ihbs (fun b' hb' => ihs b' (mem_cons_of_mem b hb')) hrest
    rw [labels_of_closeSlot hclose]
    apply rules.append (rules.ofInitializer (ihs b mem_cons_self) hfirst)
    exact rules.append (rules.store _ _) hinside

theorem ofBranches {j f : Nat} (ih : ∀ b ∈ bs, Codes sc P b.value)
    (h : Yields (branches sc (localLabel f) ((List.range' j bs.length).map localLabel) bs)
      s ls u s') : B j bs.length f s.labels ls s'.labels := by
  induction bs generalizing j s ls with
  | nil =>
    rw [length_nil, range'_zero, map_nil, branches] at h
    · obtain ⟨rfl, _, rfl⟩ := yields_done.mp h
      exact rules.noBranches _ _ _
    · intro _ _ _ _ _ _ _ h'
      cases h'
  | cons b bs ihbs =>
    rw [length_cons, range'_succ, map_cons] at h
    obtain ⟨body, s1, s2, rest, _, hbody, hclose, hrest, rfl⟩ := yields_branches_cons h
    have hinside := ih b mem_cons_self hbody
    rw [← labels_of_closeSlot hclose] at hinside
    apply rules.branch _ hinside
    exact ihbs (fun b' hb' => ih b' (mem_cons_of_mem b hb')) hrest

theorem ofBinary {op : Operator} {l r : Expr} (ihl : Codes sc P l) (ihr : Codes sc P r)
    (h : Yields (expr sc (.binary m op l r)) s ls u s') : P s.labels ls s'.labels := by
  rcases yields_binary h with
    ⟨head, first, second, tail, s1, s2, s3, hhead, hfirst, hsecond, htail, rfl⟩
  have hl := ihl hfirst
  have hr := ihr hsecond
  have harithmetic : op = .add ∨ op = .sub ∨ op = .mul ∨ op = .div →
      P s.labels (head ++ (first ++ (code [.push .hl] ++ (second ++ (code [.pop .de] ++ tail)))))
        s'.labels := by
    intro hop
    obtain ⟨n, hn, rfl, rfl⟩ := yields_binaryHead_arithmetic hop hhead
    obtain ⟨rfl, rfl⟩ := yields_binaryTail_arithmetic hop htail
    exact rules.arithmetic hop hn hl hr
  cases op with
  | add | sub | mul | div => exact harithmetic (by simp)
  | less =>
    obtain ⟨rfl, _, rfl⟩ := yields_done.mp hhead
    obtain ⟨rfl, rfl⟩ := yields_select htail
    exact rules.comparison false hl hr
  | lessEq =>
    obtain ⟨rfl, _, rfl⟩ := yields_done.mp hhead
    obtain ⟨rfl, rfl⟩ := yields_select htail
    exact rules.comparison true hl hr
  | equal =>
    obtain ⟨rfl, _, rfl⟩ := yields_done.mp hhead
    obtain ⟨rfl, rfl⟩ := yields_binaryTail_equal htail
    exact rules.equality l.type hl hr
  | other symbol => exact absurd hhead yields_failHere

theorem ofExpr (e : Expr) : Codes sc P e := by
  induction e with
  | absent =>
    intro s ls u s' h
    rw [expr] at h
    exact absurd h yields_failHere
  | omitted m =>
    intro s ls u s' h
    rw [expr] at h
    exact rules.ofDefaultValue h
  | int m n =>
    intro s ls u s' h
    obtain ⟨rfl, i, hi, rfl⟩ := yields_int h
    exact rules.int _ hi
  | string m t =>
    intro s ls u s' h
    obtain ⟨rfl, i, hi, rfl⟩ := yields_string h
    exact rules.string _ hi
  | bool m b =>
    intro s ls u s' h
    obtain ⟨rfl, rfl⟩ := yields_bool h
    exact rules.bool _ _
  | object m x =>
    intro s ls u s' h
    by_cases hx : x = Name.self
    · subst hx
      obtain ⟨rfl, rfl⟩ := yields_self h
      exact rules.self _
    · obtain ⟨rfl, place, _, rfl⟩ := yields_object hx h
      exact rules.fetch _ _
  | assign m x e ih =>
    intro s ls u s' h
    obtain ⟨place, first, _, hfirst, rfl⟩ := yields_assign h
    exact rules.append (ih hfirst) (rules.store _ _)
  | dispatch m e t f args ih ihs =>
    intro s ls u s' h
    cases t with
    | none =>
      rcases yields_dispatch h with
        ⟨entry, hentry, pushed, s1, first, s2, file, hpushed, hfirst, rfl, hfile, rfl⟩
      exact rules.dispatch _ (rules.ofActuals ihs hpushed) (ih hfirst) hentry hfile
    | some t =>
      rcases yields_staticDispatch h with
        ⟨entry, hentry, pushed, s1, first, s2, file, hpushed, hfirst, rfl, hfile, rfl⟩
      exact rules.static _ (rules.ofActuals ihs hpushed) (ih hfirst) hentry hfile
  | binary m op l r ihl ihr => exact fun _ _ _ _ h => rules.ofBinary ihl ihr h
  | negate m e ih =>
    intro s ls u s' h
    obtain ⟨n, first, hn, hfirst, rfl⟩ := yields_negate h
    exact rules.negate hn (ih hfirst)
  | complement m e ih =>
    intro s ls u s' h
    obtain ⟨first, s1, hfirst, rfl, rfl⟩ := yields_complement h
    exact rules.complement (ih hfirst)
  | isVoid m e ih =>
    intro s ls u s' h
    obtain ⟨first, s1, hfirst, rfl, rfl⟩ := yields_isVoid h
    exact rules.isVoid (ih hfirst)
  | new m t =>
    intro s ls u s' h
    by_cases ht : t = Name.selfType
    · subst ht
      obtain ⟨rfl, rfl⟩ := yields_newSelfType h
      exact rules.newSelfType _
    · obtain ⟨rfl, n, hn, rfl⟩ := yields_new ht h
      exact rules.new _ hn
  | cond m c t f ihc iht ihf =>
    intro s ls u s' h
    obtain ⟨test, s1, first, s2, second, htest, hfirst, hsecond, rfl⟩ := yields_cond h
    exact rules.cond (ihc htest) (iht hfirst) (ihf hsecond)
  | loop m c b ihc ihb =>
    intro s ls u s' h
    obtain ⟨test, s1, body, htest, hbody, rfl⟩ := yields_loop h
    exact rules.loop (ihc htest) (ihb hbody)
  | block m es ihs => exact fun _ _ _ _ h => rules.ofBlock ihs h
  | letIn m bs e ihs ih => exact fun _ _ _ _ h => rules.ofLet ihs ih h
  | typeCase m e bs ih ihs =>
    intro s ls u s' h
    rcases yields_typeCase_labels h with
      ⟨first, s1, tags, file, coded, hfirst, htags, hfile, hcoded, rfl⟩
    have hbranches := rules.ofBranches ihs hcoded
    rw [htags.length_eq] at hbranches ⊢
    exact rules.typeCase _ (ih hfirst) hfile hbranches

end CodeRules

end CoolCompiler.Emit
