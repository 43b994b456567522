/-!
# Paths

A path names a group or a dataset of a container by its components. It is written with slashes; slashes at the ends
and repeated ones mean nothing, so every path has one list of components, none of them empty.
-/

namespace Ragged

abbrev Path := List String

namespace Path

/-- The parts of a text between its slashes. -/
def split : List Char → List (List Char)
  | [] => [[]]
  | c :: s =>
    if c = '/' then [] :: split s
    else
      match split s with
      | [] => [[c]]
      | part :: parts => (c :: part) :: parts

def ofString (s : String) : Path := ((split s.toList).filter (· ≠ [])).map String.ofList

def render (p : Path) : String := "/".intercalate p

def parent (p : Path) : Path := p.dropLast

def trimSlashes (s : String) : String :=
  String.ofList ((s.toList.dropWhile (· = '/')).reverse.dropWhile (· = '/')).reverse

def child (group name : String) : String := if group = "" then name else s!"{group}/{name}"

end Path

end Ragged
