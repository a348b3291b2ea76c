import CoolCompiler.Text.Basic

/-!
# Paths

Texts with components between slashes, apart from what is on disk.
-/

namespace CoolCompiler.Path

def slash : UInt8 := 47

def here : Text := "."

def up : Text := ".."

def components (path : Text) : List Text := Text.splitAt slash path

def ofComponents (parts : List Text) : Text := Text.join [slash] parts

def isAbsolute (path : Text) : Bool := path.head? == some slash

/-- One more component on top of those walked so far, the last one first. -/
def step (rooted : Bool) (walked : List Text) (part : Text) : List Text :=
  if part = [] ∨ part = here then walked
  else if part = up then
    match walked with
    | [] => if rooted then [] else [up]
    | last :: rest => if last = up then up :: walked else rest
  else part :: walked

/-- The components that are left of a path once the ones that lead nowhere are
dropped. -/
def essential (path : Text) : List Text :=
  ((components path).foldl (step (isAbsolute path)) []).reverse

/-- The shortest path with the same meaning. -/
def clean (path : Text) : Text :=
  if isAbsolute path then slash :: ofComponents (essential path)
  else
    match essential path with
    | [] => here
    | parts => ofComponents parts

/-- What tells paths apart: the components that matter, with an empty one in front
where a path starts at the root. -/
def key (path : Text) : List Text :=
  if isAbsolute path then [] :: essential path else essential path

/-- The beginnings of a list of components, the shortest first. -/
def beginnings : List Text → List (List Text)
  | [] => [[]]
  | part :: parts => [] :: (beginnings parts).map (fun b => part :: b)

def join (base path : Text) : Text :=
  if base = [] then (if path = [] then [] else clean path)
  else clean (base ++ [slash] ++ path)

def directory (path : Text) : Text :=
  clean (Text.dropEndWhile (fun b => b != slash) path)

def base (path : Text) : Text :=
  (path.reverse.takeWhile (fun b => b != slash)).reverse

/-- The end of the last component, from its last dot on. -/
def extension (path : Text) : Text :=
  let tail := (base path).reverse.takeWhile (fun b => b != 46)
  if tail.length < (base path).length then 46 :: tail.reverse else []

/-!
# Relative paths
-/

/-- The components that a path has below the working directory. -/
def steps (path : Text) : List Text :=
  if path = here then []
  else if path = [slash] then [[]]
  else components path

/-- Two lists without their common beginning. -/
def withoutCommon : List Text → List Text → List Text × List Text
  | a :: as, b :: bs => if a = b then withoutCommon as bs else (a :: as, b :: bs)
  | as, bs => (as, bs)

/-- The way from a directory to a path, if the texts alone show one. -/
def relative? (origin path : Text) : Option Text :=
  let origin := clean origin
  let path := clean path
  if origin = path then some here
  else if isAbsolute origin != isAbsolute path then none
  else
    let (back, forth) := withoutCommon (steps origin) (steps path)
    if back.head? = some up then none
    else some (ofComponents (back.map (fun _ => up) ++ forth))

end CoolCompiler.Path
