/-!
# Documents of the store

The values that the store keeps. A document is a list of fields in the order in which they were put
in; putting in a field that is there already replaces its value and leaves it in its place.
-/

namespace Pushdown

/-- A value of the store. Its decimals of 128 bits, code with a scope and database pointers are left out: no
command names or writes them. -/
inductive Bson where
  | null
  | undefined
  | boolean (b : Bool)
  | int32 (n : Int32)
  | int64 (n : Int64)
  | double (x : Float)
  | string (s : String)
  | array (items : List Bson)
  | document (fields : List (String × Bson))
  /-- Milliseconds since the start of 1970. -/
  | dateTime (millis : Int64)
  | binary (subtype : UInt8) (bytes : List UInt8)
  | objectId (bytes : List UInt8)
  | minKey
  | maxKey
  | symbol (s : String)
  | javaScript (code : String)
  | regex (pattern options : String)
  | timestamp (time increment : UInt32)
deriving Inhabited

abbrev Document := List (String × Bson)

namespace Document

def get? (d : Document) (key : String) : Option Bson := List.lookup key d

def contains (d : Document) (key : String) : Bool := (get? d key).isSome

/-- Puts a field in, in the place of one with the same name. -/
def insert : Document → String → Bson → Document
  | [], key, value => [(key, value)]
  | (k, v) :: rest, key, value =>
    if k = key then (k, value) :: rest else (k, v) :: insert rest key value

def ofFields (fields : List (String × Bson)) : Document :=
  fields.foldl (fun d f => insert d f.1 f.2) []

def erase (d : Document) (key : String) : Document := d.filter fun f => f.1 ≠ key

theorem get?_cons (k : String) (v : Bson) (rest : Document) (key : String) :
    get? ((k, v) :: rest) key = if k = key then some v else get? rest key := by
  unfold get?
  by_cases h : k = key
  · subst h; simp
  · have hb : (key == k) = false := by simpa using Ne.symm h
    simp [List.lookup_cons, hb, h]

@[simp] theorem get?_insert_self (d : Document) (key : String) (value : Bson) :
    get? (insert d key value) key = some value := by
  induction d with
  | nil => simp [insert, get?_cons]
  | cons f rest ih =>
    obtain ⟨k, v⟩ := f
    by_cases h : k = key <;> simp [insert, get?_cons, h, ih]

theorem get?_insert_of_ne (d : Document) {key other : String} (value : Bson) (h : key ≠ other) :
    get? (insert d key value) other = get? d other := by
  induction d with
  | nil => simp [insert, get?_cons, h]
  | cons f rest ih =>
    obtain ⟨k, v⟩ := f
    by_cases hk : k = key
    · subst hk; simp [insert, get?_cons, h]
    · simp [insert, get?_cons, hk, ih]

/-- Putting a field in keeps the order of the fields that are there; a new one comes last. -/
theorem map_fst_insert (d : Document) (key : String) (value : Bson) :
    (insert d key value).map Prod.fst =
      if key ∈ d.map Prod.fst then d.map Prod.fst else d.map Prod.fst ++ [key] := by
  induction d with
  | nil => simp [insert]
  | cons f rest ih =>
    obtain ⟨k, v⟩ := f
    by_cases hk : k = key
    · subst hk; simp [insert]
    · simp only [insert, if_neg hk, List.map_cons, ih, List.mem_cons, Ne.symm hk, false_or]
      split <;> simp

theorem erase_cons (f : String × Bson) (rest : Document) (key : String) :
    erase (f :: rest) key = if f.1 = key then erase rest key else f :: erase rest key := by
  by_cases h : f.1 = key <;> simp [erase, h]

@[simp] theorem get?_erase_self (d : Document) (key : String) : get? (erase d key) key = none := by
  induction d with
  | nil => rfl
  | cons f rest ih =>
    rw [erase_cons]
    split
    · exact ih
    · rename_i h
      rw [get?_cons, if_neg h, ih]

theorem get?_erase_of_ne (d : Document) {key other : String} (h : key ≠ other) :
    get? (erase d key) other = get? d other := by
  induction d with
  | nil => rfl
  | cons f rest ih =>
    rw [erase_cons, get?_cons]
    split
    · rename_i hk
      rw [ih, if_neg (hk ▸ h)]
    · rw [get?_cons, ih]

theorem mem_of_get? {d : Document} {key : String} {value : Bson} (h : get? d key = some value) :
    (key, value) ∈ d := by
  obtain ⟨before, after, rfl, -⟩ := List.lookup_eq_some_iff.mp h
  simp

theorem get?_append (d e : Document) (key : String) : get? (d ++ e) key = (get? d key).or (get? e key) :=
  List.lookup_append

/-- Of the fields with one name that are put in, the last counts. -/
theorem get?_foldl_insert (fields : List (String × Bson)) (d : Document) (key : String) :
    get? (fields.foldl (fun d f => insert d f.1 f.2) d) key =
      (get? fields.reverse key).or (get? d key) := by
  induction fields generalizing d with
  | nil => rfl
  | cons f fields ih =>
    rw [List.foldl_cons, ih, List.reverse_cons, get?_append, Option.or_assoc]
    congr 1
    obtain ⟨name, value⟩ := f
    by_cases h : name = key
    · subst h; simp [get?_cons]
    · rw [get?_insert_of_ne d value h, get?_cons, if_neg h]
      rfl

theorem get?_ofFields (fields : List (String × Bson)) (key : String) :
    get? (ofFields fields) key = get? fields.reverse key := by
  rw [ofFields, get?_foldl_insert]
  exact Option.or_none

theorem get?_ofFields_of_mem {fields : List (String × Bson)} {key : String} {value : Bson}
    (hmem : (key, value) ∈ fields) (hall : ∀ v, (key, v) ∈ fields → v = value) :
    get? (ofFields fields) key = some value := by
  rw [get?_ofFields]
  cases hget : get? fields.reverse key with
  | none =>
    have hkey := List.lookup_eq_none_iff.mp hget _ (List.mem_reverse.mpr hmem)
    simp at hkey
  | some v => rw [hall v (List.mem_reverse.mp (mem_of_get? hget))]

theorem get?_ofFields_eq_none {fields : List (String × Bson)} {key : String}
    (h : ∀ v, (key, v) ∉ fields) : get? (ofFields fields) key = none := by
  rw [get?_ofFields]
  cases hget : get? fields.reverse key with
  | none => rfl
  | some v => exact absurd (List.mem_reverse.mp (mem_of_get? hget)) (h v)

/-- Puts `path: value` into the sub-document under the operator `op`, which is added when it is not
there. -/
def insertUnder (d : Document) (op path : String) (value : Bson) : Document :=
  match get? d op with
  | some (.document fields) => insert d op (.document (insert fields path value))
  | _ => insert d op (.document [(path, value)])

end Document

namespace Bson

def isNull : Bson → Bool
  | .null => true
  | _ => false

def op (name : String) (arg : Bson) : Bson := .document [(name, arg)]

def opList (name : String) (args : List Bson) : Bson := op name (.array args)

end Bson

end Pushdown
