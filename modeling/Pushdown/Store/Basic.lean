import Pushdown.Bson.Basic
import Pushdown.Store.LargeObjects

/-!
# The document store

The few operations that are asked of a document store. A store is given by what each of them
answers and does to its state, so that statements can range over every store, also over one that
fails at any point.
-/

namespace Pushdown

structure AggregateRequest where
  collection : String
  pipeline : List Document

structure UpdateRequest where
  collection : String
  filter : Document
  update : Document
  /-- What the identifiers in positional paths are bound to. -/
  arrayFilters : List Document := []
  multi : Bool := true

inductive Mutation where
  | insert (collection : String) (document : Document)
  | update (request : UpdateRequest)
  | remove (collection : String) (filter : Document)

def Mutation.collection : Mutation → String
  | .insert collection _ => collection
  | .update request => request.collection
  | .remove collection _ => collection

structure DocumentStore (σ : Type) extends LargeObjects σ where
  aggregate : AggregateRequest → σ → Except StoreError (List Document) × σ
  findOne : String → Document → σ → Except StoreError (Option Document) × σ
  insert : String → Document → σ → Except StoreError Bson × σ
  update : UpdateRequest → σ → Except StoreError UInt64 × σ
  remove : String → Document → σ → Except StoreError UInt64 × σ

inductive Call where
  | aggregate (request : AggregateRequest)
  | findOne (collection : String) (filter : Document)
  | mutate (mutation : Mutation)

namespace DocumentStore

variable {σ : Type}

def noting {α : Type} (call : Call) (answer : α × σ) (calls : List Call) : α × (σ × List Call) :=
  (answer.1, (answer.2, calls ++ [call]))

/-- The same store, keeping a list of the calls made to it. -/
def recorded (store : DocumentStore σ) : DocumentStore (σ × List Call) where
  put content s :=
    let answer := store.put content s.1
    (answer.1, (answer.2, s.2))
  fetch s id := store.fetch s.1 id
  aggregate request s := noting (.aggregate request) (store.aggregate request s.1) s.2
  findOne collection filter s :=
    noting (.findOne collection filter) (store.findOne collection filter s.1) s.2
  insert collection document s :=
    noting (.mutate (.insert collection document)) (store.insert collection document s.1) s.2
  update request s := noting (.mutate (.update request)) (store.update request s.1) s.2
  remove collection filter s :=
    noting (.mutate (.remove collection filter)) (store.remove collection filter s.1) s.2

end DocumentStore

end Pushdown
