/-!
# Paths

A path is shown without its empty parts and without the parts that name the
place they stand in. Parts that lead upwards stay.
-/

namespace GlyphScript

/-- The stretches of a text between slashes. -/
def pathParts : List Char → List (List Char)
  | [] => [[]]
  | '/' :: cs => [] :: pathParts cs
  | c :: cs =>
    match pathParts cs with
    | part :: parts => (c :: part) :: parts
    | [] => [[c]]

/-- Exactly two slashes at the start of a path are a root of their own. -/
def pathRoot : List Char → String
  | '/' :: '/' :: '/' :: _ => "/"
  | '/' :: '/' :: _ => "//"
  | '/' :: _ => "/"
  | _ => ""

/-- The path as it is shown. -/
def normalPath (s : String) : String :=
  let parts := (pathParts s.toList).filter fun part => part ≠ [] && part ≠ ['.']
  let path := pathRoot s.toList ++ "/".intercalate (parts.map String.ofList)
  if path = "" then "." else path

end GlyphScript
