import CoolCompiler.ObjectModel.ClassTable

/-!
# Summaries of classes

A class table for reading: for every class its tag, size, layout and dispatch table.
-/

namespace CoolCompiler

namespace ClassNode

def summaryField (label : Text) (value : Text) : Text :=
  "    " ++ label ++ value ++ ",\n"

def summaryRow (row : Text) : Text :=
  "        " ++ row ++ ",\n"

def summaryRows (label : Text) (rows : List Text) : Text :=
  "    " ++ label ++ " \x7b\n" ++ rows.flatMap summaryRow ++ "    \x7d,\n"

def slotRow (s : Slot) : Text :=
  "\x7bName:" ++ Text.quoted s.name ++ ", Type:" ++ Text.quoted s.type ++ ", Owner:" ++
    Text.quoted s.owner ++ ", Offset:" ++ Text.decimal s.offset ++ "\x7d"

def entryRow (e : DispatchEntry) : Text :=
  "\x7bName:" ++ Text.quoted e.name ++ ", Impl:" ++ Text.quoted e.impl ++ ", Owner:" ++
    Text.quoted e.owner ++ ", Offset:" ++ Text.decimal e.offset ++ "\x7d"

def summary (n : ClassNode) (parent : Name) : Text :=
  "codegen.ClassSummary\x7b\n" ++
    summaryField "Tag:        " (Text.decimal n.tag) ++
    summaryField "Name:       " (Text.quoted n.name) ++
    summaryField "Parent:     " (Text.quoted parent) ++
    summaryField "Size:       " (Text.decimal n.objectSize) ++
    summaryRows "Attributes:" (n.layout.map slotRow) ++
    summaryRows "Methods:" (n.dispatch.map entryRow) ++ "\x7d\n"

end ClassNode

namespace ClassTable

def summaries (t : ClassTable) : List Text :=
  t.nodes.map (fun n => n.summary (((t.parentOf? n).map ClassNode.name).getD []))

end ClassTable

end CoolCompiler
