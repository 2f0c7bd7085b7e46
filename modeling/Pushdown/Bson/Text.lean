import Pushdown.Bson.Basic
import Pushdown.Calendar.Text
import Pushdown.Decimal.Notation
import Pushdown.Text.Hex

/-!
# Texts of stored values

How a stored value is shown in messages.
-/

namespace Pushdown

namespace Bson

/-- A fraction of a second without zeros at its end, but with one digit at least. -/
def millisText (millis : Nat) : String :=
  if millis % 100 = 0 then toString (millis / 100)
  else if millis % 10 = 0 then padded 2 (millis / 10)
  else padded 3 millis

/-- A moment in universal time. Outside the years -9999 to 9999 its milliseconds are shown
instead. -/
def momentText (millis : Int) : String :=
  match Timestamp.ofEpochMillis? millis with
  | some t =>
    if -9999 ≤ t.date.year ∧ t.date.year ≤ 9999 then
      let second := t.time.second
      t.date.text ++ " " ++ toString (second / 3600) ++ ":" ++ padded 2 (second / 60 % 60) ++ ":" ++
        padded 2 (second % 60) ++ "." ++ millisText (t.time.nano / 1000000) ++ " +00:00:00"
    else
      toString millis
  | none => toString millis

mutual

/-- The text of a stored value. Strings are put in quotes as they are. -/
def text : Bson → String
  | .null => "null"
  | .undefined => "undefined"
  | .boolean b => if b then "true" else "false"
  | .int32 n => toString n.toInt
  | .int64 n => toString n.toInt
  | .double x => NumberStyle.running.text (.ofFloat x)
  | .string s => "\"" ++ s ++ "\""
  | .array items => "[" ++ itemsText items ++ "]"
  | .document fields => documentText fields
  | .dateTime millis => "DateTime(\"" ++ momentText millis.toInt ++ "\")"
  | .binary subtype bytes =>
    "Binary(0x" ++ String.ofList (Nat.toDigits 16 subtype.toNat) ++ ", " ++ Text.base64 bytes ++ ")"
  | .objectId bytes => "ObjectId(\"" ++ Text.hex bytes ++ "\")"
  | .minKey => "MinKey"
  | .maxKey => "MaxKey"
  | .symbol s => "Symbol(\"" ++ s ++ "\")"
  | .javaScript code => code
  | .regex pattern options => "/" ++ pattern ++ "/" ++ options
  | .timestamp time increment =>
    "Timestamp(" ++ toString time.toNat ++ ", " ++ toString increment.toNat ++ ")"

def itemsText : List Bson → String
  | [] => ""
  | [b] => text b
  | b :: bs => text b ++ ", " ++ itemsText bs

def documentText : List (String × Bson) → String
  | [] => "\x7b\x7d"
  | (key, value) :: rest =>
    "\x7b \"" ++ key ++ "\": " ++ text value ++ fieldsText rest ++ " \x7d"

def fieldsText : List (String × Bson) → String
  | [] => ""
  | (key, value) :: rest => ", \"" ++ key ++ "\": " ++ text value ++ fieldsText rest

end

end Bson

def Document.text (d : Document) : String := Bson.documentText d

end Pushdown
