import CoolCompiler.Emit.Environment
import CoolCompiler.Machine.Line

/-!
# Emission

Generating code writes lines, counts local labels and may end in a fault, which leaves what was
written.
-/

namespace CoolCompiler

inductive EmitNote where
  | tableBuilt (classes : Nat)
  | constantsInterned (strings ints : Nat)
  | method (label : Name) (temps formals : Nat)
  | generated (lines labels : Nat)
  deriving DecidableEq, Repr

/-- Lines and notes in order, the state reached, and a value or a fault. -/
structure Emitted (σ α : Type) where
  lines : List Line
  notes : List EmitNote
  state : σ
  outcome : Except Fault α

def Emit (σ α : Type) : Type := σ → Emitted σ α

namespace Emit

variable {σ α β : Type}

def done (a : α) : Emit σ α := fun s => ⟨[], [], s, .ok a⟩

def andThen (x : Emit σ α) (f : α → Emit σ β) : Emit σ β := fun s =>
  let first := x s
  match first.outcome with
  | .error fault => ⟨first.lines, first.notes, first.state, .error fault⟩
  | .ok a =>
    let second := f a first.state
    ⟨first.lines ++ second.lines, first.notes ++ second.notes, second.state, second.outcome⟩

instance : Monad (Emit σ) where
  pure := done
  bind := andThen

def lines (ls : List Line) : Emit σ Unit := fun s => ⟨ls, [], s, .ok ()⟩

def instrs (is : List Instr) : Emit σ Unit := lines (is.map Line.instr)

def note (n : EmitNote) : Emit σ Unit := fun s => ⟨[], [n], s, .ok ()⟩

def fail (fault : Fault) : Emit σ α := fun s => ⟨[], [], s, .error fault⟩

/-- A value or a fault found without writing. -/
def ofExcept : Except Fault α → Emit σ α
  | .ok a => done a
  | .error fault => fail fault

def get : Emit σ σ := fun s => ⟨[], [], s, .ok s⟩

def set (s : σ) : Emit σ Unit := fun _ => ⟨[], [], s, .ok ()⟩

end Emit

/-- The state inside a routine: the number of local labels handed out and the
variables. -/
structure Session where
  labels : Nat
  env : Environment

end CoolCompiler
