import CoolCompiler.Proofs.Emit.Written
import CoolCompiler.Proofs.Machine.CaseWalk

/-!
# The code of a case

The code of a case, run from the test for void on over the emitted inheritance tree, selects the
branch that the class table selects.
-/

namespace CoolCompiler.Machine

open List ClassTable

open Emit

variable {m : Image} {i : Nat} {s : Cpu}

variable {bs : List (Declared Expr)} {t : ClassTable} {classes : List ClassNode}

theorem rows_of_laid {value : Name → Word} {p : Word} (h : Laid value s.memory p (treeTable t))
    (hclear : ∀ k, k < t.size * 4 → Clear s (p + BitVec.ofNat 16 k)) :
    Rows t (value inheritanceTree) s := by
  cases h with
  | intro hlabel hrows =>
    rw [hlabel]
    constructor
    · exact fun hrow => (laid_rows hrows hrow).1
    · exact fun hrow => (laid_rows hrows hrow).2
    · exact fun hk => hclear _ hk

theorem tags_eq {tags : List Nat}
    (hclasses : List.Forall₂ (fun b n => t.find? b.type = some n) bs classes)
    (htags : List.Forall₂ (fun b tag => ∃ n, t.find? b.type = some n ∧ n.tag = tag) bs tags) :
    tags = classes.map ClassNode.tag := by
  induction hclasses generalizing tags with
  | nil =>
    cases htags
    rfl
  | cons hfind _ ih =>
    cases htags with
    | cons htag hrest =>
      obtain ⟨n, hn, rfl⟩ := htag
      rw [hfind] at hn
      cases hn
      rw [map_cons, ih hrest]

theorem mem_nodes_of_classes {n : ClassNode}
    (hclasses : List.Forall₂ (fun b n => t.find? b.type = some n) bs classes) (hn : n ∈ classes) :
    n ∈ t.nodes := by
  induction hclasses with
  | nil => cases hn
  | cons hfind _ ih =>
    cases hn with
    | head _ => exact mem_of_find?_eq_some hfind
    | tail _ hn => exact ih hn

theorem placed_branch {sc : Scene} {finished : Name} {labels : List Name} {coded : List Line}
    {before after : Session} {k : Nat}
    (h : Yields (branches sc finished labels bs) before coded () after)
    (hlength : labels.length = bs.length) (hk : k < bs.length) (hplaced : m.Placed i coded) :
    ∃ b body before after j, bs[k]? = some b ∧ Yields (branchBody sc b) before body () after ∧
      m.Placed j (.label (labels.getD k []) :: .instr (.pop .hl) :: body) := by
  have hb := getElem?_eq_getElem hk
  have hlabel : labels[k]? = some (labels.getD k []) := by
    rw [getD_eq_getElem?_getD, getElem?_eq_getElem (hlength ▸ hk), Option.getD_some]
  obtain ⟨front, body, rest, before, after, rfl, hbody⟩ := yields_branches h hb hlabel
  have hbranch := (placed_append.mp (placed_append.mp hplaced).2).1
  exact ⟨_, body, before, after, _, hb, hbody, hbranch⟩

/-- The code of a case selects the branch that the class table selects, and leaves the
object in hl and the stack as it was; without such a branch it reports the object, and for
a void object the line and the file.  Only the four bytes below the stack are written. -/
theorem case_selects_matchCase {user : List Class} {t : ClassTable} {pool : Pool} {mark : Mark}
    {e : Expr} {bs : List (Declared Expr)} {classes : List ClassNode} {file : Nat}
    {session middle session' : Session} {first rest : List Line} {p : Word}
    (hbuild : ClassTable.build user = .ok t) (hsize : t.size ≤ 8192)
    (hclasses : List.Forall₂ (fun b n => t.find? b.type = some n) bs classes)
    (hfile : pool.strings.find? session.env.owner.decl.file = some file)
    (hfirst : Yields (expr ⟨t, pool⟩ e) session first () middle)
    (hcode : Yields (expr ⟨t, pool⟩ (.typeCase mark e bs)) session (first ++ rest) () session')
    (hplaced : m.Placed i rest) (hlaid : Laid m.value s.memory p (treeTable t))
    (hclear : ∀ k, k < t.size * 4 → Clear s (p + BitVec.ofNat 16 k)) :
    (s.hl = 0#16 → ∃ s', Reaches m (Clear s) (.line i) s (m.target "_case_abort2") s' ∧
      s'.de = BitVec.ofInt 16 mark.line ∧ s'.hl = m.value (stringLabel file) ∧ s'.sp = s.sp) ∧
    ∀ n ∈ t.nodes, s.hl ≠ 0#16 → s.memory.word s.hl = BitVec.ofNat 16 n.tag →
      Clear s s.hl → Clear s (s.hl + 1#16) →
      match t.matchCase n.tag (classes.map fun c => (c.tag : Int)) with
      | some k => ∃ b label body before after j s₁ s', bs[k]? = some b ∧
          Yields (branchBody ⟨t, pool⟩ b) before body () after ∧
          m.Placed j (.label label :: .instr (.pop .hl) :: body) ∧
          Reaches m (Clear s) (.line i) s (.line j) s₁ ∧
          Reaches m (Clear s) (.line j) s₁ (.line (j + 2)) s' ∧
          s'.hl = s.hl ∧ s'.sp = s.sp ∧ s'.ix = s.ix ∧ s'.iy = s.iy
      | none => ∃ s', Reaches m (Clear s) (.line i) s (m.target "_case_abort") s' ∧
          s'.hl = s.hl ∧ s'.sp = s.sp := by
  rcases (ClassTable.build_eq_ok_iff user t).mp hbuild with ⟨parents, hbuilt⟩
  rcases yields_typeCase hcode with ⟨first', middle', tags, file', void, loop, noMatch, finished,
    labels, coded, before, after, hfirst', htags, hfile', hlength, hcoded, hlines⟩
  have hsame := (hfirst.eq hfirst').1
  rw [← hsame] at hlines
  rw [append_cancel_left hlines] at hplaced
  rcases placed_append.mp hplaced with ⟨hwalk, hrest⟩
  have hbranches := (placed_append.mp hrest).1
  have htagsEq := tags_eq hclasses htags
  have hfileEq : file' = file := Option.some.inj (hfile'.symm.trans hfile)
  constructor
  · intro hvoid
    rcases reaches_voidAbort hwalk hvoid with ⟨s', hreaches, hde, hhl, hsp⟩
    refine ⟨s', hreaches, hde, ?_, hsp⟩
    rw [hhl, hfileEq]
    exact BitVec.add_zero _
  · intro n hn hobject htag hclear₀ hclear₁
    have hlengths : tags.length = labels.length := by rw [hlength, htags.length_eq]
    have hnames : (tags.zip labels).map Prod.snd = labels :=
      map_snd_zip (Nat.le_of_eq hlengths.symm)
    have hkeys : (tags.zip labels).map (fun b => (b.1 : Int)) =
        classes.map fun c => (c.tag : Int) := by
      have hfst : (tags.zip labels).map Prod.fst = tags := map_fst_zip (Nat.le_of_eq hlengths)
      calc (tags.zip labels).map (fun b => (b.1 : Int))
          = ((tags.zip labels).map Prod.fst).map (fun tag : Nat => (tag : Int)) := by
            rw [map_map]
            rfl
        _ = classes.map fun c => (c.tag : Int) := by
            rw [hfst, htagsEq, map_map]
            rfl
    have hsmall : ∀ b ∈ tags.zip labels, b.1 < 65536 := by
      intro b hb
      have hmem : b.1 ∈ classes.map ClassNode.tag := htagsEq ▸ (of_mem_zip hb).1
      rcases mem_map.mp hmem with ⟨c, hc, hctag⟩
      have hlt := hbuilt.tag_lt (mem_nodes_of_classes hclasses hc)
      rw [← hbuilt.size_eq] at hlt
      omega
    rcases reaches_caseWalk hwalk hbuilt hsize hsmall (rows_of_laid hlaid hclear) hn hobject htag
      hclear₀ hclear₁ with ⟨s₁, harrived⟩
    rw [hkeys, hnames] at harrived
    cases hmatch : t.matchCase n.tag (classes.map fun c => (c.tag : Int)) with
    | none =>
      rw [hmatch] at harrived
      exact ⟨s₁, harrived.2.2, harrived.1, harrived.2.1⟩
    | some k =>
      rw [hmatch] at harrived
      have hk : k < bs.length := by
        have hk := lt_length_of_matchCase hmatch
        rwa [length_map, ← hclasses.length_eq] at hk
      rcases placed_branch hcoded hlength hk hbranches with
        ⟨b, body, before, after, j, hb, hbody, hbranch⟩
      rcases reaches_popped harrived.1 hbranch with ⟨s', hpopped, hregisters⟩
      have hreached := harrived.2
      rw [target_of_code (placed_cons.mp hbranch).1] at hreached
      exact ⟨b, _, body, before, after, j, s₁, s', hb, hbody, hbranch, hreached, hpopped,
        hregisters⟩

/-!
# A case on pets
-/

def petClasses : List Class :=
  [⟨1, "Dog", some "Pet", [], "pets.cl"⟩, ⟨2, "Pet", none, [], "pets.cl"⟩]

def petTable : ClassTable :=
  match build petClasses with
  | .ok t => t
  | .error _ => ⟨[]⟩

theorem build_petClasses : build petClasses = .ok petTable := by
  have hok : (match build petClasses with
      | .ok _ => true
      | .error _ => false) = true := by
    decide +kernel
  unfold petTable
  cases hbuild : build petClasses with
  | ok t => rfl
  | error fault =>
    rw [hbuild] at hok
    cases hok

def petPool : Pool := (Pool.empty.internString "pets.cl").2

def petBranches : List (Declared Expr) :=
  [⟨4, "o", Name.object, .object ⟨"o", 4, []⟩ "o"⟩, ⟨5, "p", "Pet", .object ⟨"p", 5, []⟩ "p"⟩]

def petCase : Expr := .typeCase ⟨"case", 3, []⟩ (.object ⟨"self", 3, []⟩ Name.self) petBranches

def petSession : Session :=
  ⟨0, .fresh ⟨⟨1, "Dog", some "Pet", [], "pets.cl"⟩, 5, some 6, [], [], 6, []⟩⟩

def petMemory : Memory := fun a =>
  if a = 0xA000#16 then 5#8
  else [0, 0, 0, 0, 1, 0, 0xFC, 0xFF, 2, 0, 0xF8, 0xFF, 3, 0, 0xF4, 0xFF, 4, 0, 0xF0, 0xFF,
    5, 0, 4, 0, 6, 0, 0xE8, 0xFF].getD (a - 0x8000#16).toNat 0

def petImage : Image where
  code := (expr ⟨petTable, petPool⟩ petCase petSession).lines.drop 2
  labelled := by decide +kernel
  value label := if label = inheritanceTree then 0x8000#16 else 0x9000#16
  start _ := 0#16
  library _ _ := none

def petState : Cpu :=
  ⟨0#8, 0#16, 0#16, 0xA000#16, 0xA000#16, 0xEF00#16, 0xEF00#16, false, false, petMemory⟩

theorem laid_petMemory : Laid petImage.value petState.memory 0x8000#16 (treeTable petTable) := by
  decide +kernel

theorem case_selects_matchCase_pet :
    ∃ label body before after j s₁ s',
      Yields (branchBody ⟨petTable, petPool⟩ ⟨5, "p", "Pet", .object ⟨"p", 5, []⟩ "p"⟩) before
        body () after ∧
      petImage.Placed j (.label label :: .instr (.pop .hl) :: body) ∧
      Reaches petImage (Clear petState) (.line 0) petState (.line j) s₁ ∧
      Reaches petImage (Clear petState) (.line j) s₁ (.line (j + 2)) s' ∧
      s'.hl = petState.hl ∧ s'.sp = petState.sp := by
  have hobject : (petTable.find? Name.object).map ClassNode.tag = some 0 := by decide +kernel
  have hpet : (petTable.find? "Pet").map ClassNode.tag = some 6 := by decide +kernel
  have hdog : (petTable.find? "Dog").map ClassNode.tag = some 5 := by decide +kernel
  rcases Option.map_eq_some_iff.mp hobject with ⟨o, ho, hoTag⟩
  rcases Option.map_eq_some_iff.mp hpet with ⟨p, hp, hpTag⟩
  rcases Option.map_eq_some_iff.mp hdog with ⟨d, hd, hdTag⟩
  have hfirst : Yields (expr ⟨petTable, petPool⟩ (.object ⟨"self", 3, []⟩ Name.self)) petSession
      (code (Instr.move .hl .ix)) () petSession := by
    rw [expr, if_pos rfl]
    exact yields_instrs.mpr ⟨rfl, rfl⟩
  have hcode : Yields (expr ⟨petTable, petPool⟩ petCase) petSession
      (code (Instr.move .hl .ix) ++ petImage.code) ()
      (expr ⟨petTable, petPool⟩ petCase petSession).state := ⟨by decide +kernel, rfl, by rfl⟩
  have hfile : petPool.strings.find? petSession.env.owner.decl.file = some 0 := by
    decide +kernel
  have hplaced : petImage.Placed 0 petImage.code := by
    intro k l hk
    rwa [Nat.zero_add]
  have hclear : ∀ k, k < petTable.size * 4 →
      Clear petState (0x8000#16 + BitVec.ofNat 16 k) := by decide +kernel
  have hmatch : petTable.matchCase d.tag ([o, p].map fun c => (c.tag : Int)) = some 1 := by
    simp only [map_cons, map_nil, hoTag, hpTag, hdTag]
    decide +kernel
  have hselected := (case_selects_matchCase build_petClasses (by decide +kernel)
    (.cons ho (.cons hp .nil)) hfile hfirst hcode hplaced laid_petMemory hclear).2 d
    (mem_of_find?_eq_some hd) (by decide) (by rw [hdTag]; decide +kernel) (by decide)
    (by decide)
  rw [hmatch] at hselected
  rcases hselected with ⟨b, label, body, before, after, j, s₁, s', hb, hbody, hplaced, hreaches,
    hpopped, hhl, hsp, _, _⟩
  cases hb
  exact ⟨label, body, before, after, j, s₁, s', hbody, hplaced, hreaches, hpopped, hhl, hsp⟩

end CoolCompiler.Machine
