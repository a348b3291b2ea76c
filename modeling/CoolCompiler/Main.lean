import Std.Time.DateTime.Timestamp
import CoolCompiler.Command.Run
import CoolCompiler.Log.Clock

/-!
# The command line

Gathers the files that a run can see, runs the compiler on them and carries out what it
did.
-/

namespace CoolCompiler

namespace CommandLine

def string? (t : Text) : Option String := String.fromUTF8? ⟨t.toArray⟩

def look (t : FileTree) (path : Text) : IO FileTree := do
  match string? path with
  | none => return t
  | some name =>
    let found := (← IO.currentDir) / name
    if ← found.isDir then return t.addDirectory (Path.key path)
    else if ← found.pathExists then
      let contents ← IO.FS.readBinFile found
      return t.put (Path.key path) contents.data.toList
    else return t

def lookAlong (t : FileTree) (path : Text) : IO FileTree :=
  (Path.beginnings (Path.components path)).foldlM
    (fun t parts => if parts = [[]] then look t [Path.slash]
      else look t (Path.ofComponents parts)) t

partial def gather (t : FileTree) : List Text → IO FileTree
  | [] => return t
  | path :: rest => do
      let known := t.contents? (Path.key path)
      let t ← lookAlong t path
      match known, t.contents? (Path.key path) with
      | none, some contents => gather t (Directive.targets path contents.lines ++ rest)
      | _, _ => gather t rest

def filesFor (args : List Text) : IO FileTree := do
  match Command.options args with
  | .error _ => return FileTree.empty
  | .ok o =>
    let t ← gather FileTree.empty o.inputs
    o.written.foldlM lookAlong t

def save (path contents : Text) : IO Unit :=
  match string? path with
  | none => return ()
  | some name => IO.FS.writeBinFile name ⟨contents.toArray⟩

def printMessages (start : Nat) (messages : List Command.Message) : IO Unit := do
  let errors ← IO.getStderr
  for m in messages do
    let now ← Std.Time.Timestamp.now
    let elapsed := (← IO.monoNanosNow) - start
    let stamp := Clock.stamp now.toMillisecondsSinceUnixEpoch.val.toNat elapsed
    errors.write ⟨(m.write stamp).toArray⟩

end CommandLine

end CoolCompiler

def main (args : List String) : IO UInt32 := do
  let start ← IO.monoNanosNow
  let args := args.map CoolCompiler.Text.ofString
  let files ← CoolCompiler.CommandLine.filesFor args
  let outcome := CoolCompiler.Command.run args files
  (← IO.getStdout).write ⟨outcome.output.toArray⟩
  CoolCompiler.CommandLine.printMessages start outcome.messages
  for (path, contents) in outcome.files.changesFrom files do
    CoolCompiler.CommandLine.save path contents
  return outcome.status.toUInt32
