import CoolCompiler.Dictionary
import CoolCompiler.Files.Path

/-!
# File trees

The files and directories that a run can see.  A path is followed component by component, and every
directory on the way has to be there.  The root and those above the working directory always are.
-/

namespace CoolCompiler

inductive SystemFault where
  | missing
  | notDirectory
  | isDirectory
  | nameTooLong
  | invalid
  deriving DecidableEq, Repr

namespace SystemFault

def message : SystemFault → Text
  | .missing => "no such file or directory"
  | .notDirectory => "not a directory"
  | .isDirectory => "is a directory"
  | .nameTooLong => "file name too long"
  | .invalid => "invalid argument"

end SystemFault

structure FileFault where
  operation : Text
  path : Text
  fault : SystemFault
  deriving DecidableEq, Repr

namespace FileFault

def message (f : FileFault) : Text :=
  f.operation ++ " " ++ f.path ++ ": " ++ f.fault.message

end FileFault

/-- Files with their contents, and directories, by the components that lead to them. -/
structure FileTree where
  files : List (List Text × Text)
  directories : List (List Text)

namespace FileTree

def empty : FileTree := ⟨[], [[]]⟩

def addDirectory (t : FileTree) (parts : List Text) : FileTree :=
  { t with directories := t.directories ++
      (Path.beginnings parts).filter (fun d => d ∉ t.directories) }

def contents? (t : FileTree) (parts : List Text) : Option Text := t.files.lookup parts

def hasDirectory (t : FileTree) (parts : List Text) : Bool := t.directories.contains parts

def putIn : List (List Text × Text) → List Text → Text → List (List Text × Text)
  | [], parts, contents => [(parts, contents)]
  | (key, old) :: rest, parts, contents =>
    if key = parts then (parts, contents) :: rest
    else (key, old) :: putIn rest parts contents

def put (t : FileTree) (parts : List Text) (contents : Text) : FileTree :=
  { t with files := putIn t.files parts contents }

def addFile (t : FileTree) (path contents : Text) : FileTree :=
  let parts := Path.key path
  (t.addDirectory parts.dropLast).put parts contents

/-!
# Following paths
-/

inductive Place where
  | directory (parts : List Text)
  | file (parts : List Text)
  | free (parts : List Text)
  deriving DecidableEq, Repr

def nameLimit : Nat := 255

def pathLimit : Nat := 4095

/-- The directory above.  The root is its own. -/
def above (spot : List Text) : List Text :=
  if spot = [[]] then spot
  else if spot = [] ∨ spot.getLast? = some Path.up then spot ++ [Path.up]
  else spot.dropLast

def walk (t : FileTree) (spot : List Text) : List Text → Except SystemFault Place
  | [] => .ok (.directory spot)
  | part :: rest =>
    if part = [] ∨ part = Path.here then walk t spot rest
    else if part = Path.up then walk t (above spot) rest
    else if part.length > nameLimit then .error .nameTooLong
    else
      let next := spot ++ [part]
      if t.hasDirectory next then walk t next rest
      else if (t.contents? next).isSome then
        if rest = [] then .ok (.file next) else .error .notDirectory
      else if rest = [] then .ok (.free next)
      else .error .missing

def locate (t : FileTree) (path : Text) : Except SystemFault Place :=
  if path = [] then .error .missing
  else if path.contains 0 then .error .invalid
  else if path.length > pathLimit then .error .nameTooLong
  else if Path.isAbsolute path then t.walk [[]] (Path.components path)
  else t.walk [] (Path.components path)

def read (t : FileTree) (path : Text) : Except FileFault Text :=
  match t.locate path with
  | .error fault => .error ⟨"open", path, fault⟩
  | .ok (.directory _) => .error ⟨"read", path, .isDirectory⟩
  | .ok (.free _) => .error ⟨"open", path, .missing⟩
  | .ok (.file parts) =>
    match t.contents? parts with
    | some contents => .ok contents
    | none => .error ⟨"open", path, .missing⟩

/-- The components that lead to a file which may be written.  A path that ends in a
slash can only be a directory. -/
def writable (t : FileTree) (path : Text) : Except SystemFault (List Text) :=
  let bare := Text.dropEndWhile (fun b => b == Path.slash) path
  if bare.length < path.length ∧ bare ≠ [] then
    match t.locate bare with
    | .error fault => .error fault
    | .ok _ => .error .isDirectory
  else
    match t.locate path with
    | .error fault => .error fault
    | .ok (.directory _) => .error .isDirectory
    | .ok (.file parts) | .ok (.free parts) => .ok parts

def create (t : FileTree) (path : Text) : Except FileFault (List Text × FileTree) :=
  match t.writable path with
  | .error fault => .error ⟨"open", path, fault⟩
  | .ok parts => .ok (parts, t.put parts [])

def writeAt (t : FileTree) (parts : List Text) (offset : Nat) (bytes : Text) : FileTree :=
  let old := (t.contents? parts).getD []
  let gap := List.replicate (offset - old.length) (0 : UInt8)
  t.put parts (old.take offset ++ gap ++ bytes ++ old.drop (offset + bytes.length))

/-- Whether components lead to a place below the working directory. -/
def isBelow (parts : List Text) : Bool :=
  parts.head? != some [] && parts.head? != some Path.up

def below (t : FileTree) : FileTree :=
  { t with files := t.files.filter (fun f => isBelow f.1) }

/-- The files that are new or differ from those of an earlier tree, by path. -/
def changesFrom (t earlier : FileTree) : List (Text × Text) :=
  ((t.files.filter (fun f => earlier.contents? f.1 != some f.2)).map
    (fun f => (Path.ofComponents f.1, f.2))).mergeSort (fun a b => Text.le a.1 b.1)

end FileTree

end CoolCompiler
