import CoolCompiler.Emit.Expression
import CoolCompiler.Emit.Slots

/-!
# Routines

The routines of a class: its methods, and one that initialises its objects after its
parent's has done so.
-/

namespace CoolCompiler.Emit

/-- The body of a routine of a class, in an environment of its own. -/
def inRoutine (n : ClassNode) (body : Emit Session Unit) : Emit Nat Unit := fun labels =>
  let r := body ⟨labels, Environment.fresh n⟩
  ⟨r.lines, r.notes, r.state.labels, r.outcome⟩

def openScope : Emit Session Unit := do
  let s ← get
  set { s with env := s.env.enter }

def closeScope : Emit Session Unit := do
  let s ← get
  let env ← ofExcept s.env.leave
  set { s with env := env }

def bindAt (name : Name) (place : Indexed) : Emit Session Unit := do
  let s ← get
  let env ← ofExcept (s.env.bind name place)
  set { s with env := env }

/-!
# Initialisation
-/

def initSlots (c : Class) : Nat :=
  (c.attributes.map (fun a => a.init.slots)).foldl max 0

/-- The initializer of an attribute; of two declarations of it the later one counts. -/
def initOf (c : Class) (name : Name) : Expr :=
  ((c.attributes.reverse.find? (fun a => a.name == name)).map Attribute.init).getD .absent

def storeInits (sc : Scene) (c : Class) : List Slot → Emit Session Unit
  | [] => done ()
  | s :: ss => do
      initializer sc s.type (initOf c s.name)
      instrs (Instr.storeWord (← placeOf s.name) .hl)
      storeInits sc c ss

/-- The part of an initialisation routine after its label. -/
def initBody (sc : Scene) (n parent : ClassNode) : Emit Session Unit := do
  let temps := initSlots n.decl
  ofExcept (Frame.reserve n.name temps 0)
  instrs (enterFrame temps ++ Instr.move .hl .ix ++ [.call parent.initLabel])
  openScope
  storeInits sc n.decl (n.ownSlots.filter (fun s => !s.isPrim))
  closeScope
  instrs (Instr.move .hl .ix ++ leaveFrame temps)

/-- The initialisation routine of a class; at the root there is nothing to do. -/
def initRoutine (sc : Scene) (n : ClassNode) : Emit Nat Unit := do
  lines [.label n.initLabel]
  match sc.table.parentOf? n with
  | none => instrs [.ret]
  | some parent => inRoutine n (initBody sc n parent)

/-!
# Methods
-/

def bindFormals (temps total : Nat) : Nat → List Formal → Emit Session Unit
  | _, [] => done ()
  | i, f :: fs => do
      bindAt f.name (Frame.formal temps i total)
      bindFormals temps total (i + 1) fs

def methodBody (sc : Scene) (n : ClassNode) (m : Method) : Emit Session Unit := do
  let temps := m.body.slots
  let formals := m.formals.length
  ofExcept (Frame.reserve n.name temps formals)
  note (.method (n.methodLabel m.name) temps formals)
  openScope
  bindFormals temps formals 0 m.formals
  lines [.label (n.methodLabel m.name)]
  instrs (enterFrame temps)
  expr sc m.body
  instrs (leaveFrame temps)
  closeScope
  let peak := (← get).env.peak
  if peak > temps then failHere (.tooManyTemps m.name peak temps) else done ()

def methodRoutines (sc : Scene) (n : ClassNode) : List Method → Emit Nat Unit
  | [] => done ()
  | m :: ms => do
      inRoutine n (methodBody sc n m)
      methodRoutines sc n ms

def forClasses (emit : ClassNode → Emit Nat Unit) : List ClassNode → Emit Nat Unit
  | [] => done ()
  | n :: ns => do
      emit n
      forClasses emit ns

def initRoutines (sc : Scene) : Emit Nat Unit :=
  forClasses (initRoutine sc) sc.table.preorder

/-- The methods of all classes but the built-in ones, which the run-time library
implements. -/
def allMethods (sc : Scene) : Emit Nat Unit :=
  forClasses (fun n => methodRoutines sc n n.decl.methods)
    (sc.table.preorder.filter (fun n => !n.isBasic))

end CoolCompiler.Emit
