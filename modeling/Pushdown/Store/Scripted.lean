import Pushdown.Store.Basic

/-!
# A store that follows a script

A store for trying out commands: it answers each kind of call from a list of answers, in order, and
with a fixed answer once the list is used up. Large objects are kept under numbered identifiers.
-/

namespace Pushdown

/-- The answers that are left, and the large objects stored so far. -/
structure Script where
  aggregates : List (Except StoreError (List Document)) := []
  findOnes : List (Except StoreError (Option Document)) := []
  inserts : List (Except StoreError Bson) := []
  updates : List (Except StoreError UInt64) := []
  removes : List (Except StoreError UInt64) := []
  puts : List (Except StoreError Unit) := []
  largeObjects : List (String × List UInt8) := []
  stored : List (List UInt8) := []
  nextKey : Int32 := 100

namespace Script

def next {α : Type} (answers : List (Except StoreError α)) (fallback : α) :
    Except StoreError α × List (Except StoreError α) :=
  match answers with
  | answer :: rest => (answer, rest)
  | [] => (.ok fallback, [])

def put (content : List UInt8) (s : Script) : Except StoreError String × Script :=
  let (answer, puts) := next s.puts ()
  let s := { s with puts := puts }
  match answer with
  | .error e => (.error e, s)
  | .ok () =>
    let id := "<lob " ++ toString s.stored.length ++ ">"
    (.ok id,
      { s with largeObjects := (id, content) :: s.largeObjects, stored := s.stored ++ [content] })

def fetch (s : Script) (id : String) : Except StoreError (List UInt8) :=
  match s.largeObjects.lookup id with
  | some content => .ok content
  | none => .error (.largeObjectNotFound id)

/-- A document keeps its key; one without gets the next number. -/
def insert (document : Document) (s : Script) : Except StoreError Bson × Script :=
  match s.inserts with
  | answer :: rest => (answer, { s with inserts := rest })
  | [] =>
    match Document.get? document "_id" with
    | some id => (.ok id, s)
    | none => (.ok (.int32 s.nextKey), { s with nextKey := s.nextKey + 1 })

def store : DocumentStore Script where
  put := put
  fetch := fetch
  aggregate _ s :=
    let (answer, rest) := next s.aggregates []
    (answer, { s with aggregates := rest })
  findOne _ _ s :=
    let (answer, rest) := next s.findOnes none
    (answer, { s with findOnes := rest })
  insert _ document s := insert document s
  update _ s :=
    let (answer, rest) := next s.updates 1
    (answer, { s with updates := rest })
  remove _ _ s :=
    let (answer, rest) := next s.removes 1
    (answer, { s with removes := rest })

end Script

end Pushdown
