import Mathlib.Data.List.Forall2
import CoolCompiler.Proofs.Emit.Outcome
import CoolCompiler.Typing.Symbols

/-!
# What expressions are written as

The lines of each construct in terms of the lines of its parts.
-/

namespace CoolCompiler.Emit

open List Instr

variable {sc : Scene} {s s' : Session} {ls : List Line} {u : Unit}

variable {m : Mark} {e : Expr} {bs : List (Declared Expr)} {α σ : Type} {c type x : Name}
  {args : List Expr} {op : Operator} {a : Address}

theorem yields_get_bind (f : Session → Emit Session α) {a : α} :
    Yields (get >>= f) s ls a s' ↔ Yields (f s) s ls a s' :=
  yields_bind_of (yields_get.mpr ⟨rfl, rfl, rfl⟩) f

theorem yields_set_bind (new : Session) (f : Unit → Emit Session α) {a : α} :
    Yields (set new >>= f) s ls a s' ↔ Yields (f ()) new ls a s' :=
  yields_bind_of (yields_set.mpr ⟨rfl, rfl⟩) f

@[simp] theorem yields_owner {n : ClassNode} :
    Yields owner s ls n s' ↔ ls = [] ∧ n = s.env.owner ∧ s' = s := by
  rw [owner, yields_get_bind, yields_pure]

theorem yields_owner_bind (f : ClassNode → Emit Session α) {a : α} :
    Yields (owner >>= f) s ls a s' ↔ Yields (f s.env.owner) s ls a s' :=
  yields_bind_of (yields_owner.mpr ⟨rfl, rfl, rfl⟩) f

@[simp] theorem yields_failHere {cause : Cause} {a : α} :
    ¬ Yields (failHere cause : Emit Session α) s ls a s' := by
  simp [failHere]

@[simp] theorem yields_intConst {s s' : σ} {n : Int} :
    Yields (intConst sc c n) s ls a s' ↔
      ∃ k, sc.pool.ints.find? n = some k ∧ a = ⟨intLabel k, 0⟩ ∧ ls = [] ∧ s' = s := by
  unfold intConst
  cases sc.pool.ints.find? n with
  | none => simp
  | some k => simp [and_left_comm]

@[simp] theorem yields_stringConst {s s' : σ} {text : Text} :
    Yields (stringConst sc c text) s ls a s' ↔
      ∃ k, sc.pool.strings.find? text = some k ∧ a = ⟨stringLabel k, 0⟩ ∧ ls = [] ∧ s' = s := by
  unfold stringConst
  cases sc.pool.strings.find? text with
  | none => simp
  | some k => simp [and_left_comm]

@[simp] theorem yields_basicClass {s s' : σ} {name : Name} {n : ClassNode} :
    Yields (basicClass sc c name) s ls n s' ↔
      sc.table.find? name = some n ∧ ls = [] ∧ s' = s := by
  unfold basicClass
  cases sc.table.find? name with
  | none => simp
  | some k => simp [and_left_comm, eq_comm]

@[simp] theorem yields_placeOf {place : Indexed} :
    Yields (placeOf x) s ls place s' ↔ s.env.lookup x = .ok place ∧ ls = [] ∧ s' = s := by
  rw [placeOf, yields_get_bind, yields_ofExcept]

@[simp] theorem yields_newLabel {label : Name} :
    Yields newLabel s ls label s' ↔
      ls = [] ∧ label = localLabel s.labels ∧ s' = { s with labels := s.labels + 1 } := by
  rw [newLabel, yields_get_bind, yields_set_bind, yields_pure]

theorem yields_newLabel_bind (f : Name → Emit Session α) {a : α} :
    Yields (newLabel >>= f) s ls a s' ↔
      Yields (f (localLabel s.labels)) { s with labels := s.labels + 1 } ls a s' :=
  yields_bind_of (yields_newLabel.mpr ⟨rfl, rfl, rfl⟩) f

theorem yields_openSlot :
    Yields (openSlot x) s ls u s' ↔
      ∃ env, s.env.alloc.2.enter.bind x s.env.alloc.1 = .ok env ∧
        ls = code (storeWord s.env.alloc.1 .hl) ∧ s' = { s with env := env } := by
  rw [openSlot, yields_get_bind]
  show Yields (set { s with env := s.env.alloc.2 } >>= _) s ls u s' ↔ _
  rw [yields_set_bind, yields_instrs_bind]
  simp only [yields_ofExcept_bind, yields_set]
  constructor
  · rintro ⟨rest, ⟨env, henv, rfl, rfl⟩, rfl⟩
    exact ⟨env, henv, append_nil _, rfl⟩
  · rintro ⟨env, henv, rfl, rfl⟩
    exact ⟨[], ⟨env, henv, rfl, rfl⟩, (append_nil _).symm⟩

theorem yields_closeSlot :
    Yields closeSlot s ls u s' ↔
      ∃ env, s.env.leave = .ok env ∧ ls = [] ∧ s' = { s with env := env.free } := by
  rw [closeSlot, yields_get_bind, yields_ofExcept_bind]
  simp only [yields_set]

theorem yields_pushInt :
    Yields (pushInt sc) s ls u s' ↔
      ∃ n, sc.table.find? Name.int = some n ∧ ls = code (pushCopy n.prototypeLabel) ∧ s' = s := by
  rw [pushInt, yields_owner_bind, yields_bind]
  constructor
  · rintro ⟨first, n, middle, second, hn, hcode, rfl⟩
    obtain ⟨hfind, rfl, rfl⟩ := yields_basicClass.mp hn
    obtain ⟨rfl, rfl⟩ := yields_instrs.mp hcode
    exact ⟨n, hfind, rfl, rfl⟩
  · rintro ⟨n, hfind, rfl, rfl⟩
    exact ⟨[], n, s', _, yields_basicClass.mpr ⟨hfind, rfl, rfl⟩, yields_instrs.mpr ⟨rfl, rfl⟩, rfl⟩

theorem yields_fileConst :
    Yields (fileConst sc) s ls a s' ↔
      ∃ k, sc.pool.strings.find? s.env.owner.decl.file = some k ∧ a = ⟨stringLabel k, 0⟩ ∧
        ls = [] ∧ s' = s := by
  rw [fileConst, yields_owner_bind, yields_stringConst]

/-!
# Constants and variables
-/

-- The equations of `expr` are made here, once for all the lemmas that rewrite with them.
attribute [local simp] expr

theorem yields_int {n : Int} (h : Yields (expr sc (.int m n)) s ls u s') :
    s' = s ∧ ∃ k, sc.pool.ints.find? n = some k ∧
      ls = code [loadAddress .hl ⟨intLabel k, 0⟩] := by
  rw [expr, yields_owner_bind] at h
  obtain ⟨_, _, _, _, hconst, hcode, rfl⟩ := yields_bind.mp h
  obtain ⟨k, hk, rfl, rfl, rfl⟩ := yields_intConst.mp hconst
  obtain ⟨rfl, rfl⟩ := yields_instrs.mp hcode
  exact ⟨rfl, k, hk, rfl⟩

theorem yields_string {text : Text} (h : Yields (expr sc (.string m text)) s ls u s') :
    s' = s ∧ ∃ k, sc.pool.strings.find? text = some k ∧
      ls = code [loadAddress .hl ⟨stringLabel k, 0⟩] := by
  rw [expr, yields_owner_bind] at h
  obtain ⟨_, _, _, _, hconst, hcode, rfl⟩ := yields_bind.mp h
  obtain ⟨k, hk, rfl, rfl, rfl⟩ := yields_stringConst.mp hconst
  obtain ⟨rfl, rfl⟩ := yields_instrs.mp hcode
  exact ⟨rfl, k, hk, rfl⟩

theorem yields_bool {b : Bool} (h : Yields (expr sc (.bool m b)) s ls u s') :
    s' = s ∧ ls = code [loadBool b] := by
  rw [expr] at h
  obtain ⟨rfl, rfl⟩ := yields_instrs.mp h
  exact ⟨rfl, rfl⟩

theorem yields_object (hx : x ≠ Name.self) (h : Yields (expr sc (.object m x)) s ls u s') :
    s' = s ∧ ∃ place, s.env.lookup x = .ok place ∧ ls = code (loadWord .hl place) := by
  rw [expr, if_neg hx] at h
  obtain ⟨_, place, _, _, hplace, hcode, rfl⟩ := yields_bind.mp h
  obtain ⟨hlookup, rfl, rfl⟩ := yields_placeOf.mp hplace
  obtain ⟨rfl, rfl⟩ := yields_instrs.mp hcode
  exact ⟨rfl, place, hlookup, rfl⟩

theorem yields_assign {x : Identifier} (h : Yields (expr sc (.assign m x e)) s ls u s') :
    ∃ place first, s.env.lookup x.name = .ok place ∧ Yields (expr sc e) s first () s' ∧
      ls = first ++ code (storeWord place .hl) := by
  rw [expr] at h
  obtain ⟨_, place, _, _, hplace, hrest, rfl⟩ := yields_bind.mp h
  obtain ⟨hlookup, rfl, rfl⟩ := yields_placeOf.mp hplace
  obtain ⟨first, _, _, _, hfirst, hcode, rfl⟩ := yields_bind.mp hrest
  obtain ⟨rfl, rfl⟩ := yields_instrs.mp hcode
  exact ⟨place, first, hlookup, hfirst, rfl⟩

theorem yields_defaultValue (h : Yields (defaultValue sc type) s ls u s') :
    s' = s ∧
      (type = Name.int ∧ (∃ k, sc.pool.ints.find? 0 = some k ∧
        ls = code [loadAddress .hl ⟨intLabel k, 0⟩]) ∨
      type = Name.bool ∧ ls = code [loadBool false] ∨
      type = Name.string ∧ (∃ k, sc.pool.strings.find? [] = some k ∧
        ls = code [loadAddress .hl ⟨stringLabel k, 0⟩]) ∨
      (type ≠ Name.int ∧ type ≠ Name.bool ∧ type ≠ Name.string) ∧
        ls = code [loadInt .hl 0]) := by
  unfold defaultValue at h
  split at h
  · rename_i htype
    obtain ⟨rfl, hint⟩ := yields_int (m := ⟨[], 0, []⟩) (by rw [expr]; exact h)
    exact ⟨rfl, .inl ⟨htype, hint⟩⟩
  · rename_i hint
    split at h
    · rename_i htype
      obtain ⟨rfl, rfl⟩ := yields_instrs.mp h
      exact ⟨rfl, .inr (.inl ⟨htype, rfl⟩)⟩
    · rename_i hbool
      split at h
      · rename_i htype
        obtain ⟨rfl, hstring⟩ := yields_string (m := ⟨[], 0, []⟩) (by rw [expr]; exact h)
        exact ⟨rfl, .inr (.inr (.inl ⟨htype, hstring⟩))⟩
      · rename_i hstring
        obtain ⟨rfl, rfl⟩ := yields_instrs.mp h
        exact ⟨rfl, .inr (.inr (.inr ⟨⟨hint, hbool, hstring⟩, rfl⟩))⟩

/-!
# Operators
-/

theorem yields_binary {l r : Expr} (h : Yields (expr sc (.binary m op l r)) s ls u s') :
    ∃ head first second tail s1 s2 s3, Yields (binaryHead sc op) s head () s1 ∧
      Yields (expr sc l) s1 first () s2 ∧ Yields (expr sc r) s2 second () s3 ∧
      Yields (binaryTail op l.type) s3 tail () s' ∧
      ls = head ++ (first ++ (code [.push .hl] ++ (second ++ (code [.pop .de] ++ tail)))) := by
  rw [expr] at h
  obtain ⟨head, _, s1, _, hhead, hrest, rfl⟩ := yields_bind.mp h
  obtain ⟨first, _, s2, _, hfirst, hpush, rfl⟩ := yields_bind.mp hrest
  obtain ⟨_, hright, rfl⟩ := yields_instrs_bind.mp hpush
  obtain ⟨second, _, s3, _, hsecond, hpop, rfl⟩ := yields_bind.mp hright
  obtain ⟨tail, htail, rfl⟩ := yields_instrs_bind.mp hpop
  exact ⟨head, first, second, tail, s1, s2, s3, hhead, hfirst, hsecond, htail, rfl⟩

theorem yields_negate (h : Yields (expr sc (.negate m e)) s ls u s') :
    ∃ n first, sc.table.find? Name.int = some n ∧ Yields (expr sc e) s first () s' ∧
      ls = code (pushCopy n.prototypeLabel) ++ (first ++ code (negatePayload ++ boxResult)) := by
  rw [expr] at h
  obtain ⟨_, _, _, _, hhead, hrest, rfl⟩ := yields_bind.mp h
  obtain ⟨n, hn, rfl, rfl⟩ := yields_pushInt.mp hhead
  obtain ⟨first, _, _, _, hfirst, hcode, rfl⟩ := yields_bind.mp hrest
  obtain ⟨rfl, rfl⟩ := yields_instrs.mp hcode
  exact ⟨n, first, hn, hfirst, rfl⟩

theorem yields_select {is : List Instr} {flag : Flag}
    (h : Yields (instrs is >>= fun _ => newLabel >>= fun label => lines (selectBool flag label))
      s ls u s') :
    s' = { s with labels := s.labels + 1 } ∧
      ls = code is ++ selectBool flag (localLabel s.labels) := by
  obtain ⟨_, hselect, rfl⟩ := yields_instrs_bind.mp h
  rw [yields_newLabel_bind] at hselect
  obtain ⟨rfl, rfl⟩ := yields_lines.mp hselect
  exact ⟨rfl, rfl⟩

theorem yields_complement (h : Yields (expr sc (.complement m e)) s ls u s') :
    ∃ first s1, Yields (expr sc e) s first () s1 ∧ s' = { s1 with labels := s1.labels + 1 } ∧
      ls = first ++ (code testBool ++ selectBool .zero (localLabel s1.labels)) := by
  rw [expr] at h
  obtain ⟨first, _, s1, _, hfirst, hselect, rfl⟩ := yields_bind.mp h
  obtain ⟨rfl, rfl⟩ := yields_select hselect
  exact ⟨first, s1, hfirst, rfl, rfl⟩

theorem yields_isVoid (h : Yields (expr sc (.isVoid m e)) s ls u s') :
    ∃ first s1, Yields (expr sc e) s first () s1 ∧ s' = { s1 with labels := s1.labels + 1 } ∧
      ls = first ++ (code (testZero .hl) ++ selectBool .zero (localLabel s1.labels)) := by
  rw [expr] at h
  obtain ⟨first, _, s1, _, hfirst, hselect, rfl⟩ := yields_bind.mp h
  obtain ⟨rfl, rfl⟩ := yields_select hselect
  exact ⟨first, s1, hfirst, rfl, rfl⟩

theorem yields_binaryHead_arithmetic (hop : op = .add ∨ op = .sub ∨ op = .mul ∨ op = .div)
    (h : Yields (binaryHead sc op) s ls u s') :
    ∃ n, sc.table.find? Name.int = some n ∧ ls = code (pushCopy n.prototypeLabel) ∧ s' = s := by
  have hhead : binaryHead sc op = pushInt sc := by
    rcases hop with rfl | rfl | rfl | rfl <;> rfl
  rw [hhead] at h
  exact yields_pushInt.mp h

theorem yields_binaryTail_arithmetic (hop : op = .add ∨ op = .sub ∨ op = .mul ∨ op = .div)
    (h : Yields (binaryTail op type) s ls u s') :
    ls = code (unboxOperands ++ arithmetic op ++ boxResult) ∧ s' = s := by
  have htail : binaryTail op type = instrs (unboxOperands ++ arithmetic op ++ boxResult) := by
    rcases hop with rfl | rfl | rfl | rfl <;> rfl
  rw [htail] at h
  exact yields_instrs.mp h

theorem yields_binaryTail_equal (h : Yields (binaryTail .equal type) s ls u s') :
    s' = { s with labels := s.labels + 2 } ∧
      ls = code (testSame (localLabel s.labels) ++ testEqual type (localLabel s.labels)) ++
        equalityResult (localLabel s.labels) (localLabel (s.labels + 1)) := by
  rw [binaryTail, yields_newLabel_bind, yields_newLabel_bind] at h
  obtain ⟨_, hresult, rfl⟩ := yields_instrs_bind.mp h
  obtain ⟨rfl, rfl⟩ := yields_lines.mp hresult
  exact ⟨rfl, rfl⟩

/-!
# Objects and calls
-/

theorem yields_self (h : Yields (expr sc (.object m Name.self)) s ls u s') :
    s' = s ∧ ls = code (move .hl .ix) := by
  rw [expr, if_pos rfl] at h
  obtain ⟨rfl, rfl⟩ := yields_instrs.mp h
  exact ⟨rfl, rfl⟩

theorem yields_newSelfType (h : Yields (expr sc (.new m Name.selfType)) s ls u s') :
    s' = { s with labels := s.labels + 1 } ∧ ls = newSelfType (localLabel s.labels) := by
  rw [expr, if_pos rfl, yields_newLabel_bind] at h
  obtain ⟨rfl, rfl⟩ := yields_lines.mp h
  exact ⟨rfl, rfl⟩

theorem yields_new {t : Name} (ht : t ≠ Name.selfType) (h : Yields (expr sc (.new m t)) s ls u s') :
    s' = s ∧ ∃ n, sc.table.find? t = some n ∧ ls = code (newObject n) := by
  rw [expr, if_neg ht] at h
  cases hfind : sc.table.find? t with
  | none =>
    rw [hfind] at h
    exact absurd h yields_failHere
  | some n =>
    rw [hfind] at h
    obtain ⟨rfl, rfl⟩ := yields_instrs.mp h
    exact ⟨rfl, n, rfl, rfl⟩

theorem yields_receiverClass (h : Yields (receiverClass e) s ls c s') :
    ls = [] ∧ s' = s ∧ c = Symbols.resolve e.type s.env.owner.name := by
  rw [receiverClass, yields_owner_bind] at h
  split at h
  · exact absurd h not_yields_fail
  · rename_i m hmark
    obtain ⟨rfl, rfl, rfl⟩ := yields_pure.mp h
    rw [Expr.type, hmark]
    exact ⟨rfl, rfl, rfl⟩

theorem yields_endDispatch {line : Int} {void back : Name} {n : Nat}
    (h : Yields (endDispatch sc line void back n) s ls u s') :
    s' = s ∧ ∃ file, sc.pool.strings.find? s.env.owner.decl.file = some file ∧
      ls = dispatchAbort void line ⟨stringLabel file, 0⟩ ++
        (.label back :: code (dropActuals n)) := by
  rw [endDispatch] at h
  obtain ⟨_, _, _, _, hfile, hlines, rfl⟩ := yields_bind.mp h
  obtain ⟨file, hfind, rfl, rfl, rfl⟩ := yields_fileConst.mp hfile
  obtain ⟨_, hdrop, rfl⟩ := yields_lines_bind.mp hlines
  obtain ⟨rfl, rfl⟩ := yields_instrs.mp hdrop
  exact ⟨rfl, file, hfind, by simp⟩

def CallWritten (sc : Scene) (line : Int) (e : Expr) (args : List Expr)
    (call : Name → Name → List Instr) (s : Session) (ls : List Line) (s' : Session) : Prop :=
  ∃ pushed s1 first s2 file, Yields (actuals sc args) s pushed () s1 ∧
    Yields (expr sc e) s1 first () s2 ∧ s' = { s2 with labels := s2.labels + 2 } ∧
    sc.pool.strings.find? s2.env.owner.decl.file = some file ∧
    ls = pushed ++ (first ++ (code (call (localLabel s2.labels) (localLabel (s2.labels + 1))) ++
      (dispatchAbort (localLabel s2.labels) line ⟨stringLabel file, 0⟩ ++
      (.label (localLabel (s2.labels + 1)) :: code (dropActuals args.length)))))

theorem yields_call {call : Name → Name → List Instr} {line : Int} (h : Yields (do
      actuals sc args
      expr sc e
      let void ← newLabel
      let back ← newLabel
      instrs (call void back)
      endDispatch sc line void back args.length) s ls u s') :
    CallWritten sc line e args call s ls s' := by
  obtain ⟨pushed, _, s1, _, hpushed, hreceiver, rfl⟩ := yields_bind.mp h
  obtain ⟨first, _, s2, _, hfirst, hcall, rfl⟩ := yields_bind.mp hreceiver
  rw [yields_newLabel_bind, yields_newLabel_bind] at hcall
  obtain ⟨_, hend, rfl⟩ := yields_instrs_bind.mp hcall
  obtain ⟨rfl, file, hfile, rfl⟩ := yields_endDispatch hend
  exact ⟨pushed, s1, first, s2, file, hpushed, hfirst, rfl, hfile, rfl⟩

theorem yields_dispatch {f : Name} (h : Yields (expr sc (.dispatch m e none f args)) s ls u s') :
    ∃ entry, sc.table.method (Symbols.resolve e.type s.env.owner.name) f = .ok entry ∧
      CallWritten sc m.line e args (dispatchCall entry.offset) s ls s' := by
  rw [expr] at h
  obtain ⟨_, c, _, _, hclass, hmethod, rfl⟩ := yields_bind.mp h
  obtain ⟨rfl, rfl, rfl⟩ := yields_receiverClass hclass
  obtain ⟨entry, hentry, hcall⟩ := yields_ofExcept_bind.mp hmethod
  exact ⟨entry, hentry, yields_call hcall⟩

theorem yields_staticDispatch {t f : Name}
    (h : Yields (expr sc (.dispatch m e (some t) f args)) s ls u s') :
    ∃ entry, sc.table.method t f = .ok entry ∧
      CallWritten sc m.line e args (staticCall entry.label) s ls s' := by
  rw [expr] at h
  obtain ⟨entry, hentry, hcall⟩ := yields_ofExcept_bind.mp h
  exact ⟨entry, hentry, yields_call hcall⟩

theorem yields_actuals_cons {es : List Expr} (h : Yields (actuals sc (e :: es)) s ls u s') :
    ∃ first s1 rest, Yields (expr sc e) s first () s1 ∧ Yields (actuals sc es) s1 rest () s' ∧
      ls = first ++ (code [.push .hl] ++ rest) := by
  rw [actuals] at h
  obtain ⟨first, _, s1, _, hfirst, hpush, rfl⟩ := yields_bind.mp h
  obtain ⟨rest, hrest, rfl⟩ := yields_instrs_bind.mp hpush
  exact ⟨first, s1, rest, hfirst, hrest, rfl⟩

/-!
# Control
-/

theorem yields_cond {c t f : Expr} (h : Yields (expr sc (.cond m c t f)) s ls u s') :
    ∃ test s1 first s2 second, Yields (expr sc c) ⟨s.labels + 2, s.env⟩ test () s1 ∧
      Yields (expr sc t) s1 first () s2 ∧ Yields (expr sc f) s2 second () s' ∧
      ls = test ++ (code (testBool ++ [.jp .zero (localLabel s.labels)]) ++
        (first ++ (code [.jp .always (localLabel (s.labels + 1))] ++
        (.label (localLabel s.labels) :: (second ++ [.label (localLabel (s.labels + 1))]))))) := by
  rw [expr, yields_newLabel_bind, yields_newLabel_bind] at h
  obtain ⟨test, _, s1, _, htest, hjump, rfl⟩ := yields_bind.mp h
  obtain ⟨_, hthen, rfl⟩ := yields_instrs_bind.mp hjump
  obtain ⟨first, _, s2, _, hfirst, hskip, rfl⟩ := yields_bind.mp hthen
  obtain ⟨_, hlabel, rfl⟩ := yields_instrs_bind.mp hskip
  obtain ⟨_, helse, rfl⟩ := yields_lines_bind.mp hlabel
  obtain ⟨second, _, s3, _, hsecond, hlast, rfl⟩ := yields_bind.mp helse
  obtain ⟨rfl, rfl⟩ := yields_lines.mp hlast
  exact ⟨test, s1, first, s2, second, htest, hfirst, hsecond, rfl⟩

theorem yields_loop {c : Expr} (h : Yields (expr sc (.loop m c e)) s ls u s') :
    ∃ test s1 body, Yields (expr sc c) ⟨s.labels + 2, s.env⟩ test () s1 ∧
      Yields (expr sc e) s1 body () s' ∧
      ls = .label (localLabel s.labels) :: (test ++
        (code (testBool ++ [.jp .zero (localLabel (s.labels + 1))]) ++
        (body ++ (code [.jp .always (localLabel s.labels)] ++
        (.label (localLabel (s.labels + 1)) :: code [loadInt .hl 0]))))) := by
  rw [expr, yields_newLabel_bind, yields_newLabel_bind] at h
  obtain ⟨_, htestBind, rfl⟩ := yields_lines_bind.mp h
  obtain ⟨test, _, s1, _, htest, hjump, rfl⟩ := yields_bind.mp htestBind
  obtain ⟨_, hbodyBind, rfl⟩ := yields_instrs_bind.mp hjump
  obtain ⟨body, _, s2, _, hbody, hback, rfl⟩ := yields_bind.mp hbodyBind
  obtain ⟨_, hlabel, rfl⟩ := yields_instrs_bind.mp hback
  obtain ⟨_, hlast, rfl⟩ := yields_lines_bind.mp hlabel
  obtain ⟨rfl, rfl⟩ := yields_instrs.mp hlast
  exact ⟨test, s1, body, htest, hbody, rfl⟩

theorem yields_block_cons {es : List Expr} (h : Yields (expr sc (.block m (e :: es))) s ls u s') :
    ∃ first s1 second, Yields (expr sc e) s first () s1 ∧
      Yields (expr sc (.block m es)) s1 second () s' ∧ ls = first ++ second := by
  rw [expr, sequence] at h
  obtain ⟨first, _, s1, second, hfirst, hsecond, rfl⟩ := yields_bind.mp h
  exact ⟨first, s1, second, hfirst, by rw [expr]; exact hsecond, rfl⟩

theorem yields_block_nil (h : Yields (expr sc (.block m [])) s ls u s') : ls = [] ∧ s' = s := by
  rw [expr, sequence] at h
  obtain ⟨rfl, _, rfl⟩ := yields_done.mp h
  exact ⟨rfl, rfl⟩

theorem yields_letIn_nil (h : Yields (expr sc (.letIn m [] e)) s ls u s') :
    Yields (expr sc e) s ls () s' := by
  rw [expr, bindings, length_nil, closeSlots] at h
  obtain ⟨_, _, _, _, hdone, hrest, rfl⟩ := yields_bind.mp h
  obtain ⟨rfl, _, rfl⟩ := yields_done.mp hdone
  obtain ⟨first, _, _, _, hfirst, hlast, rfl⟩ := yields_bind.mp hrest
  obtain ⟨rfl, _, rfl⟩ := yields_done.mp hlast
  rw [append_nil]
  exact hfirst

/-!
# Case
-/

theorem yields_branchTags {tags : List Nat} (h : Yields (branchTags sc bs) s ls tags s') :
    ls = [] ∧ s' = s ∧
      List.Forall₂ (fun b tag => ∃ n, sc.table.find? b.type = some n ∧ n.tag = tag) bs tags := by
  induction bs generalizing tags ls s' with
  | nil =>
    obtain ⟨rfl, rfl, rfl⟩ := yields_pure.mp h
    exact ⟨rfl, rfl, .nil⟩
  | cons b bs ih =>
    rw [branchTags] at h
    cases hfind : sc.table.find? b.type with
    | none =>
      rw [hfind] at h
      exact absurd h yields_failHere
    | some n =>
      rw [hfind] at h
      obtain ⟨first, rest, middle, second, hrest, hpure, rfl⟩ := yields_bind.mp h
      obtain ⟨rfl, rfl, hall⟩ := ih hrest
      obtain ⟨rfl, rfl, rfl⟩ := yields_pure.mp hpure
      exact ⟨rfl, rfl, .cons ⟨n, hfind, rfl⟩ hall⟩

theorem yields_newLabels {n : Nat} {labels : List Name} (h : Yields (newLabels n) s ls labels s') :
    ls = [] ∧ labels = (List.range' s.labels n).map localLabel ∧
      s' = { s with labels := s.labels + n } := by
  induction n generalizing s labels ls s' with
  | zero =>
    obtain ⟨rfl, rfl, rfl⟩ := yields_pure.mp h
    exact ⟨rfl, rfl, rfl⟩
  | succ n ih =>
    rw [newLabels, yields_newLabel_bind] at h
    obtain ⟨first, rest, middle, second, hrest, hpure, rfl⟩ := yields_bind.mp h
    obtain ⟨rfl, rfl, rfl⟩ := ih hrest
    obtain ⟨rfl, rfl, rfl⟩ := yields_pure.mp hpure
    refine ⟨rfl, rfl, ?_⟩
    simp only [Nat.add_assoc, Nat.add_comm 1 n]

def branchBody (sc : Scene) (b : Declared Expr) : Emit Session Unit := do
  openSlot b.name
  expr sc b.value
  closeSlot

theorem branches_cons (sc : Scene) (finished label : Name) (labels : List Name) (b : Declared Expr)
    (bs : List (Declared Expr)) :
    branches sc finished (label :: labels) (b :: bs) = (do
      lines [.label label]
      instrs [.pop .hl]
      branchBody sc b
      instrs [.jp .always finished]
      branches sc finished labels bs) := by
  simp only [branches, branchBody, bind_assoc]

theorem yields_branches {finished label : Name} {labels : List Name} {b : Declared Expr} {k : Nat}
    (h : Yields (branches sc finished labels bs) s ls u s') (hb : bs[k]? = some b)
    (hlabel : labels[k]? = some label) :
    ∃ front body rest before after,
      ls = front ++ (.label label :: .instr (.pop .hl) :: body ++ rest) ∧
        Yields (branchBody sc b) before body () after := by
  induction labels generalizing bs k s ls with
  | nil => simp at hlabel
  | cons l labels ih =>
    cases bs with
    | nil => simp at hb
    | cons b' bs =>
      rw [branches_cons] at h
      obtain ⟨afterLabel, hpop, rfl⟩ := yields_lines_bind.mp h
      obtain ⟨afterPop, hrun, rfl⟩ := yields_instrs_bind.mp hpop
      obtain ⟨body, _, middle, afterBody, hbody, hlast, rfl⟩ := yields_bind.mp hrun
      obtain ⟨last, hrest, rfl⟩ := yields_instrs_bind.mp hlast
      cases k with
      | zero =>
        cases hb
        cases hlabel
        exact ⟨[], body, _, s, middle, rfl, hbody⟩
      | succ k =>
        obtain ⟨front, coded, rest, before, after, rfl, hcoded⟩ := ih hrest hb hlabel
        refine ⟨[.label l, .instr (.pop .hl)] ++ body ++ [.instr (.jp .always finished)] ++
          front, coded, rest, before, after, ?_, hcoded⟩
        simp only [code, map_cons, map_nil, append_assoc, cons_append,
          nil_append]

theorem yields_typeCase_labels {mark : Mark}
    (h : Yields (expr sc (.typeCase mark e bs)) s ls u s') :
    ∃ first s1 tags file coded, Yields (expr sc e) s first () s1 ∧
      List.Forall₂ (fun b tag => ∃ n, sc.table.find? b.type = some n ∧ n.tag = tag) bs tags ∧
      sc.pool.strings.find? s.env.owner.decl.file = some file ∧
      Yields (branches sc (localLabel (s1.labels + 3))
        ((List.range' (s1.labels + 4) bs.length).map localLabel) bs)
        ⟨s1.labels + 4 + bs.length, s1.env⟩ coded () s' ∧
      ls = first ++ (caseWalk (localLabel s1.labels) (localLabel (s1.labels + 1))
        (localLabel (s1.labels + 2))
        (tags.zip ((List.range' (s1.labels + 4) bs.length).map localLabel)) mark.line
        ⟨stringLabel file, 0⟩ ++ (coded ++ [.label (localLabel (s1.labels + 3))])) := by
  rw [expr] at h
  obtain ⟨_, tags, _, _, htags, hfileBind, rfl⟩ := yields_bind.mp h
  obtain ⟨rfl, rfl, hall⟩ := yields_branchTags htags
  obtain ⟨_, _, _, _, hfile, hexpr, rfl⟩ := yields_bind.mp hfileBind
  obtain ⟨file, hfind, rfl, rfl, rfl⟩ := yields_fileConst.mp hfile
  obtain ⟨first, _, s1, _, hfirst, hlabels, rfl⟩ := yields_bind.mp hexpr
  rw [yields_newLabel_bind, yields_newLabel_bind, yields_newLabel_bind, yields_newLabel_bind]
    at hlabels
  obtain ⟨_, labels, before, _, hnew, hwalk, rfl⟩ := yields_bind.mp hlabels
  obtain ⟨rfl, rfl, rfl⟩ := yields_newLabels hnew
  obtain ⟨_, hbranches, rfl⟩ := yields_lines_bind.mp hwalk
  obtain ⟨coded, _, after, _, hcoded, hlast, rfl⟩ := yields_bind.mp hbranches
  obtain ⟨rfl, rfl⟩ := yields_lines.mp hlast
  exact ⟨first, s1, tags, file, coded, hfirst, hall, hfind, hcoded, rfl⟩

theorem yields_typeCase {mark : Mark} (h : Yields (expr sc (.typeCase mark e bs)) s ls u s') :
    ∃ first middle tags file void loop noMatch finished labels coded before after,
      Yields (expr sc e) s first () middle ∧
      List.Forall₂ (fun b tag => ∃ n, sc.table.find? b.type = some n ∧ n.tag = tag) bs tags ∧
      sc.pool.strings.find? s.env.owner.decl.file = some file ∧
      labels.length = bs.length ∧
      Yields (branches sc finished labels bs) before coded () after ∧
      ls = first ++ (caseWalk void loop noMatch (tags.zip labels) mark.line ⟨stringLabel file, 0⟩ ++
        (coded ++ [.label finished])) := by
  rcases yields_typeCase_labels h with ⟨first, s1, tags, file, coded, hfirst, hall, hfile, hcoded,
    rfl⟩
  exact ⟨first, s1, tags, file, _, _, _, _, _, coded, _, s', hfirst, hall, hfile, by simp, hcoded,
    rfl⟩

end CoolCompiler.Emit
