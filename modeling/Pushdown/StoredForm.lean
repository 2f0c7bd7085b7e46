import Pushdown.Attempt
import Pushdown.Bson.Text
import Pushdown.Sql.Value
import Pushdown.Store.LargeObjects
import Pushdown.Text.Case

/-!
# Stored forms of relational values

Relational values as the store keeps them, and back. Storing may put content into the store of
large objects, reading may fetch it from there. A value is read for a relational type; where the
stored value is of another kind it is converted, if that is possible.
-/

namespace Pushdown

inductive ConversionError where
  /-- The stored value with this text has no counterpart of that type. -/
  | conversion (value : String) (target : SqlType)
  | invalidDecimal (text : String)
  | invalidText
  | dateOutOfRange (millis : Int)
  | keyShape (expected actual : Nat)
  | largeObject (cause : StoreError)
deriving DecidableEq

def ConversionError.report : ConversionError → Report
  | .conversion value target =>
    { code := 4001, message := "cannot convert " ++ value ++ " to " ++ target.text }
  | .invalidDecimal text => { code := 4002, message := s!"'{text}' is not a valid decimal" }
  | .invalidText => { code := 4003, message := "large object is not valid UTF-8 text" }
  | .dateOutOfRange millis =>
    { code := 4004, message := "datetime " ++ toString millis ++ " is out of range" }
  | .keyShape expected actual =>
    { code := 4005, message := s!"expected {expected} key values, found {actual}" }
  | .largeObject cause => cause.report.within "large object store error: "

namespace Value

variable {σ : Type}

/-- Puts the content of a large value into its store; the identifier stands for it. -/
def storeContent (objects : LargeObjects σ) (content : List UInt8) : Attempt σ ConversionError Bson :=
  fun s =>
    match objects.put content s with
    | (.ok id, s) => (.ok (.string id), s)
    | (.error e, s) => (.error (.largeObject e), s)

def moment (t : Timestamp) : Bson := .dateTime (Int64.ofInt t.epochMillis)

mutual

def toStored (objects : LargeObjects σ) : Value → Attempt σ ConversionError Bson
  | .null => pure .null
  | .boolean b => pure (.boolean b)
  | .byte n => pure (.int32 n.toInt32)
  | .short n => pure (.int32 n.toInt32)
  | .integer n => pure (.int32 n)
  | .long n => pure (.int64 n)
  | .float x => pure (.double x.toFloat)
  | .double x => pure (.double x)
  | .bigInteger n => pure (.double (Float.ofInt n.val))
  | .bigDecimal text =>
    match readFloat? text with
    | some x => pure (.double x)
    | none => throw (.invalidDecimal text)
  | .char c => pure (.string (String.ofList [c]))
  | .string s => pure (.string s)
  | .date d => pure (moment ⟨d, .midnight⟩)
  | .time t => pure (moment ⟨.epoch, t⟩)
  | .timestamp t => pure (moment t)
  | .varbinary bytes => pure (.binary 0 bytes)
  | .blob bytes => storeContent objects bytes
  | .clob s => storeContent objects (Text.utf8 s)
  | .xml s => storeContent objects (Text.utf8 s)
  | .array items => do return .array (← listToStored objects items)

def listToStored (objects : LargeObjects σ) : List Value → Attempt σ ConversionError (List Bson)
  | [] => pure []
  | v :: vs => do
    let b ← toStored objects v
    let bs ← listToStored objects vs
    return b :: bs

end

def refuse {α : Type} (b : Bson) (target : SqlType) : Except ConversionError α :=
  .error (.conversion b.text target)

/-- A stored value as a number of double precision. A text is taken for one only where the target is
numeric, and then it has to be one. -/
def coerceFloat? (target : SqlType) : Bson → Except ConversionError (Option Float)
  | .int32 n => .ok (some (Float.ofInt n.toInt))
  | .int64 n => .ok (some (Float.ofInt n.toInt))
  | .double x => .ok (some x)
  | .boolean b => .ok (some (if b then 1.0 else 0.0))
  | .string s =>
    if target.isNumeric then
      match readFloat? (Text.trim s) with
      | some x => .ok (some x)
      | none => refuse (.string s) target
    else
      .ok none
  | _ => .ok none

/-- A stored value as an integer of 64 bits. A number without a fraction is brought into their
range. -/
def coerceInt? : Bson → Option Int
  | .int32 n => some n.toInt
  | .int64 n => some n.toInt
  | .boolean b => some (if b then 1 else 0)
  | .string s =>
    match readInt? (Text.trim s) with
    | some n => if -9223372036854775808 ≤ n ∧ n ≤ 9223372036854775807 then some n else none
    | none => none
  | .double x =>
    let r := BinaryReal.ofFloat x
    if r.isIntegral then some (r.saturate (-9223372036854775808) 9223372036854775807) else none
  | _ => none

def coerceText? : Bson → Option String
  | .int32 n => some (toString n.toInt)
  | .int64 n => some (toString n.toInt)
  | .double x => some (NumberStyle.running.text (.ofFloat x))
  | .boolean b => some (if b then "true" else "false")
  | .objectId bytes => some (Text.hex bytes)
  | .string s => some s
  | _ => none

def within? (low high : Int) (n : Option Int) : Option Int :=
  match n with
  | some n => if low ≤ n ∧ n ≤ high then some n else none
  | none => none

/-- The integer of 128 bits that a number without a fraction stands for. -/
def coerceBig? (b : Bson) (x : Option Float) : Option BigInteger :=
  match coerceInt? b with
  | some n => some (.clamp n)
  | none =>
    match x with
    | some x =>
      let r := BinaryReal.ofFloat x
      if r.isIntegral then r.truncate?.map .clamp else none
    | none => none

def coerceBool? (b : Bson) (x : Option Float) : Option Bool :=
  match b with
  | .string s =>
    if Text.same s "true" then some true
    else if Text.same s "false" then some false
    else none
  | _ => x.map (· != 0.0)

/-- Converts between kinds: numbers to wider and narrower ones, texts to numbers and back, truth
values to numbers and back. -/
def coerce (target : SqlType) (b : Bson) : Except ConversionError Value := do
  let x ← coerceFloat? target b
  let found : Option Value :=
    match target with
    | .byte => (within? (-128) 127 (coerceInt? b)).map fun n => .byte (Int8.ofInt n)
    | .short => (within? (-32768) 32767 (coerceInt? b)).map fun n => .short (Int16.ofInt n)
    | .integer =>
      (within? (-2147483648) 2147483647 (coerceInt? b)).map fun n => .integer (Int32.ofInt n)
    | .long => (coerceInt? b).map fun n => .long (Int64.ofInt n)
    | .bigInteger => (coerceBig? b x).map .bigInteger
    | .float => x.map fun x => .float x.toFloat32
    | .double => x.map .double
    | .bigDecimal => x.map fun x => .bigDecimal (NumberStyle.running.text (.ofFloat x))
    | .boolean => (coerceBool? b x).map .boolean
    | .string => (coerceText? b).map .string
    | .clob => (coerceText? b).map .clob
    | _ => none
  match found with
  | some v => return v
  | none => refuse b target

def ofMoment (millis : Int64) : Except ConversionError Timestamp :=
  match Timestamp.ofEpochMillis? millis.toInt with
  | some t => .ok t
  | none => .error (.dateOutOfRange millis.toInt)

def content (fetch : String → Except StoreError (List UInt8)) (id : String) : Except ConversionError (List UInt8) :=
  match fetch id with
  | .ok bytes => .ok bytes
  | .error e => .error (.largeObject e)

def contentText (fetch : String → Except StoreError (List UInt8)) (id : String) : Except ConversionError String := do
  match Text.ofUtf8? (← content fetch id) with
  | some s => return s
  | none => throw .invalidText

/-- What a reference to a document elsewhere refers to: the identifier it holds, or one field of an
identifier that is itself a document. Any other value stands for itself. -/
def referent? (field : Option String) (b : Bson) : Option Bson :=
  match b with
  | .document d =>
    if Document.contains d "$ref" then
      match Document.get? d "$id", field with
      | some (.document key), some name => Document.get? key name
      | some id, _ => some id
      | none, _ => some b
    else
      some b
  | b => some b

def ofStoredPlain (fetch : String → Except StoreError (List UInt8)) : SqlType → Bson → Except ConversionError Value
  | _, .null => .ok .null
  | _, .undefined => .ok .null
  | .array component, .array items => do
    let vs ← items.mapM fun b => ofStoredPlain fetch component ((referent? none b).getD .null)
    return .array vs
  | .blob, .string id => do return .blob (← content fetch id)
  | .blob, .binary _ bytes => .ok (.blob bytes)
  | .clob, .string id => do return .clob (← contentText fetch id)
  | .xml, .string id => do return .xml (← contentText fetch id)
  | .varbinary, .binary _ bytes => .ok (.varbinary bytes)
  | .date, .dateTime millis => do return .date (← ofMoment millis).date
  | .time, .dateTime millis => do return .time (← ofMoment millis).time
  | .timestamp, .dateTime millis => do return .timestamp (← ofMoment millis)
  | .char, .string s =>
    match s.toList with
    | [c] => .ok (.char c)
    | _ => refuse (.string s) .char
  | .string, .string s => .ok (.string s)
  | .boolean, .boolean b => .ok (.boolean b)
  | target, b => coerce target b

/-- The value of type `target` that a stored value or a reference stands for. With `field`, an
identifier that is a document is read at that field. -/
def ofReference (fetch : String → Except StoreError (List UInt8)) (field : Option String)
    (target : SqlType) (b : Bson) : Except ConversionError Value :=
  match referent? field b with
  | some b => ofStoredPlain fetch target b
  | none => .ok .null

def ofStored (fetch : String → Except StoreError (List UInt8)) (target : SqlType) (b : Bson) :
    Except ConversionError Value :=
  ofReference fetch none target b

end Value

/-- Keys of rows: the value itself for a key of one column, a document with a field for each column
otherwise. -/
def keyOfParts (columns : List String) (parts : List Bson) : Bson :=
  match parts with
  | [part] => part
  | parts => .document (Document.ofFields (columns.zip parts))

def keyParts (key : Bson) (columns : List String) : Except ConversionError (List Bson) :=
  match columns with
  | [_] => .ok [key]
  | columns =>
    match key with
    | .document d =>
      if 1 < columns.length then
        columns.mapM fun c =>
          match Document.get? d c with
          | some b => .ok b
          | none => .error (.keyShape columns.length d.length)
      else
        .error (.keyShape columns.length 1)
    | _ => .error (.keyShape columns.length 1)

def Value.toKey {σ : Type} (objects : LargeObjects σ) (columns : List String)
    (values : List Value) : Attempt σ ConversionError Bson :=
  if columns.length = values.length then do
    let parts ← Value.listToStored objects values
    return keyOfParts columns parts
  else
    throw (.keyShape columns.length values.length)

end Pushdown
