import CoolCompiler.Proofs.Emit.Constants
import CoolCompiler.Proofs.Emit.LabelNames

/-!
# References

The labels that lines define and refer to, and among them those of constants.  Which constants the
code of an expression refers to, and in which order, can be told from the expression: its literals,
the initial values of variables, and the file that is named where a receiver is void or no branch
fits.
-/

namespace CoolCompiler

open List Literal

def Operand.refers : Operand → List Name
  | .address a => [a.label]
  | _ => []

def Instr.refers : Instr → List Name
  | .ld dst src => dst.refers ++ src.refers
  | .call label => [label]
  | .jp _ label => [label]
  | _ => []

namespace Line

def defines : Line → Option Name
  | .label x => some x
  | _ => none

def refers : Line → List Name
  | .word a => [a.label]
  | .instr i => i.refers
  | _ => []

end Line

def labelDefs (ls : List Line) : List Name := ls.filterMap Line.defines

def labelRefs (ls : List Line) : List Name := ls.flatMap Line.refers

section Lines

variable (ls ms : List Line) (x : Name)

@[simp] theorem labelDefs_nil : labelDefs [] = [] := rfl

@[simp] theorem labelRefs_nil : labelRefs [] = [] := rfl

@[simp] theorem labelDefs_append : labelDefs (ls ++ ms) = labelDefs ls ++ labelDefs ms :=
  filterMap_append

@[simp] theorem labelRefs_append : labelRefs (ls ++ ms) = labelRefs ls ++ labelRefs ms :=
  flatMap_append

@[simp] theorem labelDefs_label : labelDefs (.label x :: ls) = x :: labelDefs ls := rfl

@[simp] theorem labelRefs_label : labelRefs (.label x :: ls) = labelRefs ls := rfl

theorem labelDefs_flatMap {α : Type} (xs : List α) (f : α → List Line) :
    labelDefs (xs.flatMap f) = xs.flatMap fun a => labelDefs (f a) := filterMap_flatMap

theorem labelRefs_flatMap {α : Type} (xs : List α) (f : α → List Line) :
    labelRefs (xs.flatMap f) = xs.flatMap fun a => labelRefs (f a) := flatMap_assoc

@[simp] theorem labelDefs_code (is : List Instr) : labelDefs (Emit.code is) = [] := by
  rw [labelDefs, Emit.code, filterMap_map, filterMap_eq_nil_iff]
  exact fun _ _ => rfl

@[simp] theorem labelRefs_code (is : List Instr) :
    labelRefs (Emit.code is) = is.flatMap Instr.refers := by
  rw [labelRefs, Emit.code, flatMap_map]
  rfl

end Lines

namespace Emit

/-!
# Labels of constants
-/

def isDigitByte (b : UInt8) : Bool := decide (48 ≤ b.toNat) && decide (b.toNat ≤ 57)

def isConstantLabel (x : Name) : Bool :=
  decide (x.take 9 = "str_const" ∨ x.take 9 = "int_const") && !(x.drop 9).isEmpty &&
    (x.drop 9).all isDigitByte

theorem isConstantLabel_iff {x : Name} : isConstantLabel x = true ↔
    (x.take 9 = "str_const" ∨ x.take 9 = "int_const") ∧ x.drop 9 ≠ [] ∧
      ∀ b ∈ x.drop 9, isDigitByte b = true := by
  simp only [isConstantLabel, Bool.and_eq_true, decide_eq_true_eq, Bool.not_eq_true',
    isEmpty_eq_false_iff, all_eq_true, and_assoc]

theorem isConstantLabel_numbered {w : Text} (hw : w = "str_const" ∨ w = "int_const") (i : Nat) :
    isConstantLabel (w ++ Text.decimal i) = true := by
  have hlength : w.length = 9 := by rcases hw with rfl | rfl <;> rfl
  rw [isConstantLabel_iff, ← hlength, take_left, drop_left]
  refine ⟨hw, by simp [Text.decimal, Nat.toDigits_ne_nil], fun b hb => ?_⟩
  simpa [isDigitByte] using Text.digit_of_mem_decimal hb

@[simp] theorem isConstantLabel_stringLabel (i : Nat) : isConstantLabel (stringLabel i) = true :=
  isConstantLabel_numbered (.inl rfl) i

@[simp] theorem isConstantLabel_intLabel (i : Nat) : isConstantLabel (intLabel i) = true :=
  isConstantLabel_numbered (.inr rfl) i

theorem isConstantLabel_of_headD {x : Name} (hs : x.headD 0 ≠ 115) (hi : x.headD 0 ≠ 105) :
    isConstantLabel x = false := by
  rw [Bool.eq_false_iff]
  intro h
  rcases (isConstantLabel_iff.mp h).1 with hword | hword
  · exact hs (by rw [← take_append_drop 9 x, hword]; rfl)
  · exact hi (by rw [← take_append_drop 9 x, hword]; rfl)

theorem isConstantLabel_dotted (c m : Name) :
    isConstantLabel (c ++ Text.ofString "." ++ m) = false := by
  have hdot : 46 ∈ c ++ Text.ofString "." ++ m := by
    rw [append_assoc]
    exact mem_append_right c (mem_append_left m (by decide))
  rw [Bool.eq_false_iff]
  intro h
  rw [isConstantLabel_iff] at h
  rw [← take_append_drop 9 (c ++ Text.ofString "." ++ m), mem_append] at hdot
  rcases hdot with hfirst | hnumber
  · rcases h.1 with hword | hword <;> (rw [hword] at hfirst; exact absurd hfirst (by decide))
  · exact absurd (h.2.2 46 hnumber) (by decide)

theorem isConstantLabel_suffixed (c : Name) (suffix : Text) {b : UInt8}
    (hlast : suffix.getLast? = some b) (hb : isDigitByte b = false) :
    isConstantLabel (c ++ suffix) = false := by
  rw [Bool.eq_false_iff]
  intro h
  obtain ⟨_, hne, hdigits⟩ := isConstantLabel_iff.mp h
  have hsuffix : suffix ≠ [] := by
    rintro rfl
    cases hlast
  have hends : ((c ++ suffix).drop 9).getLast? = some b := by
    rw [getLast?_drop, if_neg, getLast?_append_of_ne_nil _ hsuffix, hlast]
    intro hle
    exact hne (drop_eq_nil_of_le hle)
  rw [hdigits b (mem_of_getLast? hends)] at hb
  cases hb

section Labels

variable (n : ClassNode)

@[simp] theorem isConstantLabel_localLabel (i : Nat) : isConstantLabel (localLabel i) = false :=
  isConstantLabel_of_headD (by rw [headD_localLabel]; decide) (by rw [headD_localLabel]; decide)

@[simp] theorem isConstantLabel_boolLabel (b : Bool) : isConstantLabel (boolLabel b) = false := by
  cases b <;> decide

@[simp] theorem isConstantLabel_prototypeLabel : isConstantLabel n.prototypeLabel = false :=
  isConstantLabel_suffixed n.name "_protObj" rfl rfl

@[simp] theorem isConstantLabel_initLabel : isConstantLabel n.initLabel = false :=
  isConstantLabel_suffixed n.name "_init" rfl rfl

@[simp] theorem isConstantLabel_dispatchLabel : isConstantLabel n.dispatchLabel = false :=
  isConstantLabel_suffixed n.name "_dispTab" rfl rfl

@[simp] theorem isConstantLabel_methodLabel (m : Name) :
    isConstantLabel (n.methodLabel m) = false := isConstantLabel_dotted _ _

@[simp] theorem isConstantLabel_entry (e : DispatchEntry) : isConstantLabel e.label = false :=
  isConstantLabel_dotted _ _

end Labels

end Emit

/-!
# Citations
-/

def Operand.cites : Operand → List Address
  | .address a => [a]
  | _ => []

/-- The addresses in an instruction.  Where only its text is known, any operand could be a
label. -/
def Instr.cites : Instr → List Address
  | .ld dst src => dst.cites ++ src.cites
  | .call label => [⟨label, 0⟩]
  | .jp _ label => [⟨label, 0⟩]
  | .other _ operands => operands.map fun label => ⟨label, 0⟩
  | _ => []

def Line.cites : Line → List Address
  | .word a => [a]
  | .instr i => i.cites
  | _ => []

def citations (ls : List Line) : List Address :=
  (ls.flatMap Line.cites).filter fun a => Emit.isConstantLabel a.label

def constantDefs (ls : List Line) : List Name := (labelDefs ls).filter Emit.isConstantLabel

def Line.isPlain (l : Line) : Bool :=
  (l.cites.all fun a => !Emit.isConstantLabel a.label) &&
    l.defines.all fun x => !Emit.isConstantLabel x

section Lines

variable {ls ms : List Line}

theorem citations_append : citations (ls ++ ms) = citations ls ++ citations ms := by
  rw [citations, flatMap_append, filter_append]
  rfl

theorem constantDefs_append : constantDefs (ls ++ ms) = constantDefs ls ++ constantDefs ms := by
  rw [constantDefs, labelDefs_append, filter_append]
  rfl

theorem flatMap_code (is : List Instr) :
    (Emit.code is).flatMap Line.cites = is.flatMap Instr.cites := flatMap_map ..

theorem citations_of_plain (h : ls.all Line.isPlain = true) : citations ls = [] := by
  rw [all_eq_true] at h
  rw [citations, filter_eq_nil_iff]
  intro a ha
  obtain ⟨l, hl, ha⟩ := mem_flatMap.mp ha
  have hplain := h l hl
  rw [Line.isPlain, Bool.and_eq_true, all_eq_true] at hplain
  simpa using hplain.1 a ha

theorem constantDefs_of_plain (h : ls.all Line.isPlain = true) : constantDefs ls = [] := by
  rw [all_eq_true] at h
  rw [constantDefs, filter_eq_nil_iff]
  intro x hx
  obtain ⟨l, hl, hdefines⟩ := mem_filterMap.mp hx
  have hplain := h l hl
  rw [Line.isPlain, hdefines, Bool.and_eq_true] at hplain
  simpa using hplain.2

end Lines

@[simp] theorem Literal.isConstantLabel_address (p : Pool) (l : Literal) :
    Emit.isConstantLabel (l.address p).label = true := by
  cases l with
  | int n => exact Emit.isConstantLabel_intLabel _
  | string s => exact Emit.isConstantLabel_stringLabel _

def Literal.initial (type : Name) : List Literal :=
  if type = Name.int then [.int 0] else if type = Name.string then [.string []] else []

namespace Expr

mutual

def cited (file : Text) : Expr → List Literal
  | .int _ n => [.int n]
  | .string _ s => [.string s]
  | .absent | .omitted _ | .bool _ _ | .object _ _ | .new _ _ => []
  | .assign _ _ e | .negate _ e | .complement _ e | .isVoid _ e => cited file e
  | .dispatch _ e _ _ args => citedByAll file args ++ (cited file e ++ [.string file])
  | .binary _ _ l r => cited file l ++ cited file r
  | .cond _ c t f => cited file c ++ (cited file t ++ cited file f)
  | .loop _ c b => cited file c ++ cited file b
  | .block _ es => citedByAll file es
  | .letIn _ bs e => citedByBindings file bs ++ cited file e
  | .typeCase _ e bs => cited file e ++ (.string file :: citedByBranches file bs)

def citedByAll (file : Text) : List Expr → List Literal
  | [] => []
  | e :: es => cited file e ++ citedByAll file es

def citedByBindings (file : Text) : List (Declared Expr) → List Literal
  | [] => []
  | ⟨_, _, type, e⟩ :: bs =>
    (if e.isOmitted then initial type else cited file e) ++ citedByBindings file bs

def citedByBranches (file : Text) : List (Declared Expr) → List Literal
  | [] => []
  | ⟨_, _, _, e⟩ :: bs => cited file e ++ citedByBranches file bs

end

def citedAsInitial (file : Text) (type : Name) (e : Expr) : List Literal :=
  if e.isOmitted then initial type else cited file e

end Expr

def Fault.isMissingConstant : Fault → Bool
  | .internal _ (.stringNotInterned _) | .internal _ (.intNotInterned _) => true
  | _ => false

end CoolCompiler
