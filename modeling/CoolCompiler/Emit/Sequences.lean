import CoolCompiler.ObjectModel.ClassTable
import CoolCompiler.Machine.Line

/-!
# Code sequences

The fixed pieces of generated code.  The value of an expression is in hl, `self` in ix and the frame
pointer in iy.
-/

namespace CoolCompiler.Emit

/-- Where objects of one word keep their value. -/
def payloadOffset : Int := headerSize

/-- Where an object keeps its tag. -/
def tagOffset : Int := 0

/-- Where an object keeps its dispatch table. -/
def dispatchOffset : Int := 2 * wordSize

/-!
# Labels
-/

def stringLabel (i : Nat) : Name := "str_const" ++ Text.decimal i

def intLabel (i : Nat) : Name := "int_const" ++ Text.decimal i

def boolLabel (b : Bool) : Name := if b then "bool_const1" else "bool_const0"

def localLabel (i : Nat) : Name := "label" ++ Text.decimal i

def classNameTable : Name := "class_nameTab"

def classObjectTable : Name := "class_objTab"

def inheritanceTree : Name := "inheritance_tree"

def code (is : List Instr) : List Line := is.map Line.instr

/-!
# Values
-/

def loadLabel (dst : Pair) (label : Name) : Instr :=
  Instr.loadAddress dst.whole ⟨label, 0⟩

def loadBool (b : Bool) : Instr := loadLabel .hl (boolLabel b)

def loadPayload (dst : Pair) : List Instr :=
  [Instr.loadInt .de payloadOffset, .add .hl .de] ++ Instr.loadIndirect dst

def storePayload : List Instr :=
  [Instr.push .hl, Instr.loadInt .bc payloadOffset, .add .hl .bc] ++ Instr.storeIndirect .de ++
    [Instr.pop .hl]

def pushCopy (prototype : Name) : List Instr :=
  [loadLabel .hl prototype, .call "Object.copy", .push .hl]

/-- Takes the values of the object in de, to hl, and of the object in hl, to bc. -/
def unboxOperands : List Instr :=
  [Instr.push .de] ++ loadPayload .bc ++ [Instr.pop .hl] ++ loadPayload .de ++ [Instr.exDeHl]

/-- Puts true into hl if a flag is set and false otherwise. -/
def selectBool (flag : Flag) (done : Name) : List Line :=
  code [loadBool true, .jp flag done, loadBool false] ++ [Line.label done]

/-!
# Operations
-/

def flipSign (r : Register) : List Instr :=
  [Instr.load .a r, .xor 0x80, Instr.load r .a]

/-- Moves the right operand from bc to de for a routine of the run-time library. -/
def callArithmetic (routine : Name) : List Instr :=
  [Instr.load .d .b, Instr.load .e .c, .call routine]

/-- Computes the word in hl from hl and bc. -/
def arithmetic : Operator → List Instr
  | .add => [.add .hl .bc]
  | .sub => [Instr.clearCarry, .sbc .hl .bc]
  | .mul => callArithmetic "MUL_HL_DE"
  | .div => callArithmetic "DIV_HL_DE"
  | _ => []

/-- Puts the word in hl into the object on the stack and that object into hl. -/
def boxResult : List Instr :=
  [Instr.exDeHl, .pop .hl] ++ storePayload

/-- Compares hl and bc as signed words: carry is set if hl is less, or if it is not
greater where `orEqual` is asked for. -/
def compareSigned (orEqual : Bool) : List Instr :=
  flipSign .h ++ flipSign .b ++ [if orEqual then .scf else Instr.clearCarry, .sbc .hl .bc]

def testSame (isTrue : Name) : List Instr :=
  [Instr.clearCarry, .sbc .hl .de, .add .hl .de, .jp .zero isTrue]

/-- Jumps if the objects in de and hl of a given type have the same value. -/
def testEqual (type : Name) (isTrue : Name) : List Instr :=
  if type = Name.int ∨ type = Name.bool then
    unboxOperands ++ [Instr.clearCarry, .sbc .hl .bc, .jp .zero isTrue]
  else if type = Name.string then [.call "equality_test", .jp .zero isTrue]
  else []

/-- Puts true into hl on arrival at `isTrue` and false on arrival at the beginning. -/
def equalityResult (isTrue done : Name) : List Line :=
  code [loadBool false, .jp .always done] ++ [Line.label isTrue] ++ code [loadBool true] ++
    [Line.label done]

def negatePayload : List Instr :=
  loadPayload .de ++ [Instr.loadInt .hl 0, Instr.clearCarry, .sbc .hl .de]

/-- Sets the zero flag if the truth value in hl is false. -/
def testBool : List Instr :=
  loadPayload .de ++ Instr.testZero .de

/-!
# Objects
-/

def newObject (n : ClassNode) : List Instr :=
  [loadLabel .hl n.prototypeLabel, .call "Object.copy", .call n.initLabel]

/-- Goes to the routine whose address is in a pair, with a return to `back`. -/
def callPair (target : Pair) (back : Name) : List Instr :=
  [loadLabel .bc back, .push .bc, .push target.whole, .ret]

/-- Makes an object of the class of `self`. -/
def newSelfType (back : Name) : List Line :=
  code (Instr.loadWord .de ⟨.ix, tagOffset⟩ ++
    [Instr.exDeHl, .add .hl .hl, .add .hl .hl, loadLabel .de classObjectTable, .add .hl .de,
     .push .hl] ++ Instr.loadIndirect .de ++
    [Instr.exDeHl, .call "Object.copy", .pop .de, .inc .de, .inc .de, .push .hl, .exDeHl] ++
    Instr.loadIndirect .de ++ [Instr.pop .hl] ++ callPair .de back) ++ [Line.label back]

def dispatchAbort (void : Name) (line : Int) (file : Address) : List Line :=
  [Line.label void] ++
    code [Instr.loadInt .de line, Instr.loadAddress .hl file, .jp .always "_dispatch_abort"]

/-- Calls through the dispatch table of the object in hl. -/
def dispatchCall (offset : Int) (void back : Name) : List Instr :=
  Instr.testZero .hl ++ [Instr.jp .zero void, .push .hl, Instr.loadInt .de dispatchOffset,
    .add .hl .de] ++ Instr.loadIndirect .de ++ [Instr.loadInt .hl offset, .add .hl .de] ++
    Instr.loadIndirect .de ++ [Instr.pop .hl] ++ callPair .de back

def staticCall (routine void done : Name) : List Instr :=
  Instr.testZero .hl ++ [Instr.jp .zero void, .call routine, .jp .always done]

def dropActuals (n : Nat) : List Instr := List.replicate n (.pop .de)

/-!
# Case
-/

def testBranch (tag : Nat) (label : Name) : List Instr :=
  [.push .hl, Instr.loadInt .hl tag, Instr.clearCarry, .sbc .hl .bc, .pop .hl, .jp .zero label]

/-- Climbs the inheritance tree from the tag of the object in hl to a branch. -/
def caseWalk (void loop noMatch : Name) (branches : List (Nat × Name)) (line : Int)
    (file : Address) : List Line :=
  code (Instr.testZero .hl ++ [Instr.jp .zero void, .push .hl] ++ Instr.loadIndirect .de ++
    [Instr.exDeHl, .add .hl .hl, .add .hl .hl, loadLabel .de inheritanceTree, .add .hl .de]) ++
  [Line.label loop] ++
  code (Instr.loadIndirect .bc ++ [Instr.dec .hl] ++
    branches.flatMap (fun b => testBranch b.1 b.2) ++
    [Instr.inc .hl, .inc .hl] ++ Instr.loadIndirect .de ++ [Instr.dec .hl, .dec .hl, .dec .hl] ++
    Instr.testZero .de ++ [Instr.jp .zero noMatch, .add .hl .de, .jp .always loop]) ++
  [Line.label noMatch] ++ code [Instr.pop .hl, .jp .always "_case_abort"] ++
  [Line.label void] ++
  code [Instr.loadInt .de line, Instr.loadAddress .hl file, .jp .always "_case_abort2"]

/-!
# Frames
-/

/-- Saves the caller's frame, makes room for temporaries and takes the receiver from
hl. -/
def enterFrame (temps : Nat) : List Instr :=
  [Instr.push .iy, .push .ix, Instr.loadInt .iy (-((temps : Int) * (wordSize : Int))),
   .add .iy .sp, Instr.load .sp .iy] ++ Instr.move .ix .hl

/-- Drops the temporaries, restores the caller's frame and returns. -/
def leaveFrame (temps : Nat) : List Instr :=
  [.exDeHl, Instr.loadInt .hl ((temps : Int) * (wordSize : Int)), .add .hl .sp,
   Instr.load .sp .hl, .exDeHl, .pop .ix, .pop .iy, .ret]

end CoolCompiler.Emit
