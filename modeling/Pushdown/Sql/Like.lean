/-!
# LIKE patterns

A pattern is read into its tokens, and these into a regular expression. The expression is searched
for anywhere in a text, so it is bound to each end of the text that the pattern does not leave
open.
-/

namespace Pushdown

inductive LikeToken where
  /-- Any run of characters. -/
  | any
  /-- Exactly one character. -/
  | one
  | char (c : Char)
deriving DecidableEq

/-- The tokens of a pattern. The escape character makes the next one stand for itself, and stands
for nothing at the end. -/
def LikeToken.scan (escape : Option Char) : List Char → List LikeToken
  | [] => []
  | c :: cs =>
    if escape = some c then
      match cs with
      | d :: rest => .char d :: scan escape rest
      | [] => []
    else if c = '%' then .any :: scan escape cs
    else if c = '_' then .one :: scan escape cs
    else .char c :: scan escape cs

structure LikeRegex where
  /-- Whether a match has to start where the text does. -/
  atStart : Bool
  items : List LikeToken
  /-- Whether a match has to end where the text does. -/
  atEnd : Bool
deriving DecidableEq

namespace LikeRegex

/-- The characters with a meaning of their own in regular expressions. -/
def special : List Char :=
  ['\\', '.', '+', '*', '?', '(', ')', '|', '[', ']', '\x7b', '\x7d', '^', '$', '#', '&', '-', '~']

def itemText : LikeToken → String
  | .any => ".*"
  | .one => "."
  | .char c => String.ofList (if special.contains c then ['\\', c] else [c])

def text (r : LikeRegex) : String :=
  (if r.atStart then "^" else "") ++ String.join (r.items.map itemText) ++
    (if r.atEnd then "$" else "")

/-- The regular expression of a list of tokens: a run at either end leaves that end open. -/
def ofTokens (tokens : List LikeToken) : LikeRegex :=
  let openStart := tokens.head? = some .any
  let tokens := if openStart then tokens.tail else tokens
  let openEnd := tokens.getLast? = some .any
  let tokens := if openEnd then tokens.dropLast else tokens
  { atStart := !openStart
    items := tokens
    atEnd := !openEnd && !(openStart && tokens.isEmpty) }

def ofPattern (pattern : String) (escape : Option Char) : LikeRegex :=
  ofTokens (LikeToken.scan escape pattern.toList)

/-- Whether the condition holds at this position or at a later one, for each position. -/
def fromHereOn : List Bool → List Bool
  | [] => []
  | b :: bs =>
    match fromHereOn bs with
    | [] => [b]
    | later :: rest => (b || later) :: later :: rest

/-- For each position in the text, its end included, whether the items match from there. -/
def spots (atEnd : Bool) (text : List Char) : List LikeToken → List Bool
  | [] => text.map (fun _ => !atEnd) ++ [true]
  | .any :: items => fromHereOn (spots atEnd text items)
  | .one :: items => (spots atEnd text items).tail ++ [false]
  | .char c :: items =>
    List.zipWith (fun d b => d == c && b) text (spots atEnd text items).tail ++ [false]

def matchesIn (r : LikeRegex) (text : String) : Bool :=
  let found := spots r.atEnd text.toList r.items
  if r.atStart then found.head? == some true else found.any id

end LikeRegex

end Pushdown
