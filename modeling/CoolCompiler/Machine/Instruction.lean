import CoolCompiler.Machine.Register

/-!
# Instructions

The instructions of generated code, and short sequences that move words.
-/

namespace CoolCompiler

inductive Flag where
  | always | zero | nonZero | carry | noCarry
  | other (name : Text)
  deriving DecidableEq, Repr

namespace Flag

/-- How a condition is written; an unconditional jump has none. -/
def name : Flag → Text
  | .always => []
  | .zero => "z"
  | .nonZero => "nz"
  | .carry => "c"
  | .noCarry => "nc"
  | .other name => name

def known : List Flag := [.always, .zero, .nonZero, .carry, .noCarry]

def ofName (name : Text) : Flag :=
  (known.find? (fun f => f.name == name)).getD (.other name)

end Flag

inductive Operand where
  | reg (r : Register)
  | int (n : Int)
  | address (a : Address)
  | indexed (x : Indexed)
  | atHl
  deriving DecidableEq, Repr

namespace Operand

def text : Operand → Text
  | .reg r => r.name
  | .int n => Text.ofInt n
  | .address a => a.text
  | .indexed x => x.text
  | .atHl => "(hl)"

end Operand

inductive Instr where
  | ld (dst src : Operand)
  | push (r : Register)
  | pop (r : Register)
  | add (dst src : Register)
  | sbc (dst src : Register)
  | or (r : Register)
  | xor (mask : Int)
  | inc (r : Register)
  | dec (r : Register)
  | scf
  | exDeHl
  | call (label : Name)
  | jp (flag : Flag) (label : Name)
  | ret
  | other (mnemonic : Text) (operands : List Text)
  deriving DecidableEq, Repr

namespace Instr

def mnemonic : Instr → Text
  | .ld _ _ => "ld"
  | .push _ => "push"
  | .pop _ => "pop"
  | .add _ _ => "add"
  | .sbc _ _ => "sbc"
  | .or _ => "or"
  | .xor _ => "xor"
  | .inc _ => "inc"
  | .dec _ => "dec"
  | .scf => "scf"
  | .exDeHl => "ex"
  | .call _ => "call"
  | .jp _ _ => "jp"
  | .ret => "ret"
  | .other mnemonic _ => mnemonic

def operands : Instr → List Text
  | .ld dst src => [dst.text, src.text]
  | .push r | .pop r | .or r | .inc r | .dec r => [r.name]
  | .add dst src | .sbc dst src => [dst.name, src.name]
  | .xor mask => [Text.ofInt mask]
  | .scf | .ret => []
  | .exDeHl => ["de", "hl"]
  | .call label => [label]
  | .jp .always label => [label]
  | .jp flag label => [flag.name, label]
  | .other _ operands => operands

def text (i : Instr) : Text :=
  match i.operands with
  | [] => "\t" ++ i.mnemonic
  | operands => "\t" ++ i.mnemonic ++ "\t" ++ Text.join "," operands

/-!
# Sequences
-/

def load (dst src : Register) : Instr := .ld (.reg dst) (.reg src)

def loadInt (dst : Register) (n : Int) : Instr := .ld (.reg dst) (.int n)

def loadAddress (dst : Register) (a : Address) : Instr := .ld (.reg dst) (.address a)

def loadWord (dst : Pair) (x : Indexed) : List Instr :=
  [.ld (.reg dst.low) (.indexed x), .ld (.reg dst.high) (.indexed x.next)]

def storeWord (x : Indexed) (src : Pair) : List Instr :=
  [.ld (.indexed x) (.reg src.low), .ld (.indexed x.next) (.reg src.high)]

/-- Reads the word that hl points at into a pair and leaves hl on its high byte. -/
def loadIndirect (dst : Pair) : List Instr :=
  [.ld (.reg dst.low) .atHl, .inc .hl, .ld (.reg dst.high) .atHl]

/-- Writes a pair to the word that hl points at and leaves hl on its high byte. -/
def storeIndirect (src : Pair) : List Instr :=
  [.ld .atHl (.reg src.low), .inc .hl, .ld .atHl (.reg src.high)]

def move (dst src : Register) : List Instr := [.push src, .pop dst]

def clearCarry : Instr := .or .a

/-- Sets the zero flag when a pair is zero; the accumulator is lost. -/
def testZero (p : Pair) : List Instr := [load .a p.high, .or p.low]

/-!
# Sequences for any register
-/

def lowOf (r : Register) : Except MachineFault Register :=
  match Pair.ofRegister? r with
  | some p => .ok p.low
  | none => .error (.noLowHalf r)

def highOf (r : Register) : Except MachineFault Register :=
  match Pair.ofRegister? r with
  | some p => .ok p.high
  | none => .error (.noHighHalf r)

/-- A sequence on a register that has to be a pair. -/
def onPair (r : Register) (fault : Register → MachineFault) (code : Pair → List Instr) :
    Except MachineFault (List Instr) :=
  match Pair.ofRegister? r with
  | some p => .ok (code p)
  | none => .error (fault r)

/-- Puts what a location denotes into a register: the address itself, or the word
stored at a displacement. -/
def fetch (dst : Register) : Option Location → Except MachineFault (List Instr)
  | none => .error .noLocation
  | some (.address a) => .ok [loadAddress dst a]
  | some (.indexed x) => onPair dst .noLowHalf (fun p => loadWord p x)

end Instr

end CoolCompiler
