import Pushdown.Decimal.Reading

/-!
# Field paths

A field inside nested documents is named by the dotted text of the names on the way to it.
-/

namespace Pushdown.Path

def join : List String → String
  | [] => ""
  | [s] => s
  | s :: ss => s ++ "." ++ join ss

def splitDots : List Char → List (List Char)
  | [] => [[]]
  | c :: cs =>
    match splitDots cs with
    | part :: parts => if c = '.' then [] :: part :: parts else (c :: part) :: parts
    | [] => [[c]]

def split (path : String) : List String := (splitDots path.toList).map String.ofList

/-- The path of `field` below `path`. The empty path is the document itself. -/
def extend (path field : String) : String := if path.isEmpty then field else path ++ "." ++ field

def hasPrefix (start s : String) : Bool := start.toList.isPrefixOf s.toList

/-- Whether including `outer` already includes `inner`: the same field or one inside it. -/
def covers (outer inner : String) : Bool := inner == outer || hasPrefix (outer ++ ".") inner

end Pushdown.Path
