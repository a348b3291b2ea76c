import CoolCompiler.Files.Tree

/-!
# Buffered streams

A stream passes what is written to it on to its file in blocks, at an offset of its own.  So two
streams on one file write over each other, and the later block counts.
-/

namespace CoolCompiler

/-- A stream on a file: where its next block goes and what waits for it. -/
structure Stream where
  file : List Text
  offset : Nat
  pending : Text

namespace Stream

def blockSize : Nat := 4096

def fresh (file : List Text) : Stream := ⟨file, 0, []⟩

def pass (t : FileTree) (s : Stream) (bytes : Text) : FileTree × Stream :=
  (t.writeAt s.file s.offset bytes, ⟨s.file, s.offset + bytes.length, []⟩)

def flush (t : FileTree) (s : Stream) : FileTree × Stream :=
  if s.pending = [] then (t, s) else s.pass t s.pending

/-- Writes bytes.  What does not fit fills up the block; bytes longer than an empty block go
straight to the file. -/
def write (t : FileTree) (s : Stream) (bytes : Text) : FileTree × Stream :=
  let room := blockSize - s.pending.length
  if bytes.length ≤ room then (t, { s with pending := s.pending ++ bytes })
  else if s.pending = [] then s.pass t bytes
  else
    let (t, s) := s.pass t (s.pending ++ bytes.take room)
    let rest := bytes.drop room
    if rest.length ≤ blockSize then (t, { s with pending := rest }) else s.pass t rest

def writeAll (t : FileTree) (s : Stream) : List Text → FileTree × Stream
  | [] => (t, s)
  | bytes :: rest =>
    let (t, s) := s.write t bytes
    s.writeAll t rest

end Stream

end CoolCompiler
