import CoolCompiler.Emit.Sequences
import CoolCompiler.Proofs.Machine.Cpu

/-!
# Runs of assembled code

A listing is run line by line, with labels and addresses as assigned by the assembler.  Other
routines belong to the run-time library: a call of one is a single step, and a jump to one ends the
run.
-/

namespace CoolCompiler

open List

def Line.label? : Line → Option Name
  | .label name => some name
  | _ => none

namespace Machine

/-- Assembled code: its lines, in which no label stands twice, the values of labels, the addresses
of lines, and what the routines outside do. -/
structure Image where
  code : List Line
  labelled : (code.filterMap Line.label?).Nodup
  value : Name → Word
  start : Nat → Word
  library : Name → Cpu → Option Cpu

inductive Place where
  | line (i : Nat)
  | outside (label : Name)
  | address (w : Word)

namespace Image

def target (m : Image) (label : Name) : Place :=
  match m.code.idxOf? (.label label) with
  | some i => .line i
  | none => .outside label

end Image

def holds? (s : Cpu) : Flag → Option Bool
  | .always => some true
  | .zero => some s.zero
  | .nonZero => some (!s.zero)
  | .carry => some s.carry
  | .noCarry => some (!s.carry)
  | .other _ => none

namespace Image

def stepInstr (m : Image) (i : Nat) (s : Cpu) : Instr → Option (Place × Cpu)
  | .jp flag label =>
    (holds? s flag).map fun holds => (if holds then m.target label else .line (i + 1), s)
  | .call label =>
    match m.target label with
    | .outside label => (m.library label s).map fun s => (.line (i + 1), s)
    | place => some (place, s.push (m.start (i + 1)))
  | .ret => some (.address (s.memory.word s.sp), { s with sp := s.sp + 2#16 })
  | instr => (exec m.value s instr).map fun s => (.line (i + 1), s)

def step (m : Image) (p : Place) (s : Cpu) : Option (Place × Cpu) :=
  match p with
  | .line i =>
    match m.code[i]? with
    | some (.label _) => some (.line (i + 1), s)
    | some (.instr instr) => m.stepInstr i s instr
    | _ => none
  | _ => none

end Image

/-!
# Reaching a place

As for straight code, no step writes where memory is to be kept.
-/

inductive Reaches (m : Image) (keep : Word → Prop) : Place → Cpu → Place → Cpu → Prop where
  | refl (p : Place) (s : Cpu) : Reaches m keep p s p s
  | step {p p1 p' : Place} {s s1 s' : Cpu} (first : m.step p s = some (p1, s1))
      (kept : ∀ a, keep a → s1.memory a = s.memory a) (rest : Reaches m keep p1 s1 p' s') :
      Reaches m keep p s p' s'

namespace Reaches

variable {m : Image} {keep keep' : Word → Prop} {p p1 p' : Place} {s s1 s' : Cpu}

theorem trans (h : Reaches m keep p s p1 s1) (h' : Reaches m keep p1 s1 p' s') :
    Reaches m keep p s p' s' := by
  induction h with
  | refl _ _ => exact h'
  | step first kept _ ih => exact step first kept (ih h')

theorem mono (h : Reaches m keep p s p' s') (hkeep : ∀ a, keep' a → keep a) :
    Reaches m keep' p s p' s' := by
  induction h with
  | refl p s => exact refl p s
  | step first kept _ ih => exact step first (fun a ha => kept a (hkeep a ha)) ih

theorem memory (h : Reaches m keep p s p' s') {a : Word} (ha : keep a) :
    s'.memory a = s.memory a := by
  induction h with
  | refl _ _ => rfl
  | step _ kept _ ih => exact ih.trans (kept a ha)

theorem single (first : m.step p s = some (p', s')) (same : s'.memory = s.memory) :
    Reaches m keep p s p' s' :=
  step first (fun a _ => congrFun same a) (refl p' s')

end Reaches

/-!
# Lines in a listing
-/

def Image.Placed (m : Image) (i : Nat) (ls : List Line) : Prop :=
  ∀ k l, ls[k]? = some l → m.code[i + k]? = some l

section Listing

variable {m : Image} {i : Nat} {l : Line} {ls ls' : List Line}

theorem placed_cons : m.Placed i (l :: ls) ↔ m.code[i]? = some l ∧ m.Placed (i + 1) ls := by
  constructor
  · intro h
    constructor
    · exact h 0 l rfl
    · intro k l' hk
      have hget := h (k + 1) l' hk
      rwa [← Nat.add_assoc, Nat.add_right_comm] at hget
  · intro h k l' hk
    cases k with
    | zero =>
      cases hk
      exact h.1
    | succ k =>
      have hget := h.2 k l' hk
      rwa [Nat.add_right_comm, Nat.add_assoc] at hget

theorem placed_append :
    m.Placed i (ls ++ ls') ↔ m.Placed i ls ∧ m.Placed (i + ls.length) ls' := by
  induction ls generalizing i with
  | nil =>
    constructor
    · exact fun h => ⟨fun k l hk => by simp at hk, h⟩
    · exact fun h => h.2
  | cons l ls ih =>
    rw [cons_append, placed_cons, placed_cons, ih, and_assoc, length_cons,
      Nat.add_right_comm, Nat.add_assoc]

theorem placed_code_append (is js : List Instr) :
    m.Placed i (Emit.code (is ++ js)) ↔
      m.Placed i (Emit.code is) ∧ m.Placed (i + is.length) (Emit.code js) := by
  rw [Emit.code, map_append, placed_append, length_map]
  rfl

theorem exists_placed (h : ls <:+: m.code) : ∃ i, m.Placed i ls := by
  obtain ⟨front, back, hcode⟩ := h
  refine ⟨front.length, fun k l hk => ?_⟩
  have hlt : k < ls.length := (List.getElem?_eq_some_iff.mp hk).1
  rw [← hcode, append_assoc, getElem?_append_right (Nat.le_add_right _ _),
    Nat.add_sub_cancel_left, getElem?_append_left hlt, hk]

theorem eq_of_label {label : Name} {j : Nat} (hi : m.code[i]? = some (.label label))
    (hj : m.code[j]? = some (.label label)) : i = j := by
  have happart := pairwise_iff_getElem.mp (pairwise_filterMap.mp m.labelled)
  obtain ⟨hilt, hieq⟩ := List.getElem?_eq_some_iff.mp hi
  obtain ⟨hjlt, hjeq⟩ := List.getElem?_eq_some_iff.mp hj
  rcases Nat.lt_trichotomy i j with hlt | heq | hlt
  · exact absurd rfl (happart i j hilt hjlt hlt label (by rw [hieq]; rfl) label (by rw [hjeq]; rfl))
  · exact heq
  · exact absurd rfl (happart j i hjlt hilt hlt label (by rw [hjeq]; rfl) label (by rw [hieq]; rfl))

theorem target_of_code {label : Name} (hi : m.code[i]? = some (.label label)) :
    m.target label = .line i := by
  have hmem : Line.label label ∈ m.code := mem_of_getElem? hi
  cases hfind : m.code.idxOf? (.label label) with
  | none => exact absurd hmem (idxOf?_eq_none_iff.mp hfind)
  | some j =>
    have hj : m.code[j]? = some (.label label) := by
      rw [List.idxOf?, findIdx?_eq_some_iff_getElem] at hfind
      cases hfind with
      | intro hlt hfound =>
        rw [getElem?_eq_getElem hlt, beq_iff_eq.mp hfound.1]
    rw [Image.target, hfind, eq_of_label hj hi]

theorem target_of_not_mem {label : Name} (h : Line.label label ∉ m.code) :
    m.target label = .outside label := by
  rw [Image.target, idxOf?_eq_none_iff.mpr h]

end Listing

/-!
# Steps through placed lines
-/

section Steps

variable {m : Image} {keep : Word → Prop} {i : Nat} {s s' : Cpu}

theorem reaches_label {label : Name} (h : m.code[i]? = some (.label label)) :
    Reaches m keep (.line i) s (.line (i + 1)) s := by
  apply Reaches.single
  · simp only [Image.step, h]
  · rfl

theorem stepInstr_of_exec {instr : Instr} (h : exec m.value s instr = some s') :
    m.stepInstr i s instr = some (.line (i + 1), s') := by
  cases instr with
  | jp flag label => simp [exec] at h
  | call label => simp [exec] at h
  | ret => simp [exec] at h
  | _ => simp only [Image.stepInstr, h, Option.map_some]

theorem reaches_code {is : List Instr} (hplaced : m.Placed i (Emit.code is))
    (h : Runs m.value keep s is s') :
    Reaches m keep (.line i) s (.line (i + is.length)) s' := by
  induction h generalizing i with
  | nil s => exact .refl _ _
  | @cons s s1 s' instr is first kept _ ih =>
    have hsplit := placed_cons.mp hplaced
    have hstep : m.step (.line i) s = some (.line (i + 1), s1) := by
      simp only [Image.step, hsplit.1]
      exact stepInstr_of_exec first
    have hrest := ih hsplit.2
    rw [Nat.add_assoc, Nat.add_comm 1] at hrest
    exact .step hstep kept hrest

theorem reaches_jp {flag : Flag} {label : Name} {holds : Bool}
    (h : m.code[i]? = some (.instr (.jp flag label))) (hflag : holds? s flag = some holds) :
    Reaches m keep (.line i) s (if holds then m.target label else .line (i + 1)) s := by
  apply Reaches.single
  · simp only [Image.step, h, Image.stepInstr, hflag, Option.map_some]
  · rfl

theorem reaches_jump {label : Name} (h : m.code[i]? = some (.instr (.jp .always label))) :
    Reaches m keep (.line i) s (m.target label) s :=
  reaches_jp h rfl

theorem reaches_library {label : Name} (h : m.code[i]? = some (.instr (.call label)))
    (houtside : m.target label = .outside label) (hlibrary : m.library label s = some s')
    (hkept : ∀ a, keep a → s'.memory a = s.memory a) :
    Reaches m keep (.line i) s (.line (i + 1)) s' := by
  have hstep : m.step (.line i) s = some (.line (i + 1), s') := by
    simp only [Image.step, h, Image.stepInstr, houtside, hlibrary, Option.map_some]
  exact .step hstep hkept (.refl _ _)

end Steps

end Machine
end CoolCompiler
