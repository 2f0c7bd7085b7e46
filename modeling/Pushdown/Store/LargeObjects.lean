import Pushdown.Report

/-!
# Large objects

The content of large values is kept beside the documents, which only hold the identifier it was
stored under. A store of large objects is given by what it does to its state.
-/

namespace Pushdown

inductive StoreError where
  | driver (text : String)
  | largeObjectNotFound (id : String)
  | malformedLargeObject (id : String)
  | largeObjectsUnavailable
deriving DecidableEq

def StoreError.report : StoreError → Report
  | .driver text => { code := 5001, message := s!"store driver error: {text}" }
  | .largeObjectNotFound id => { code := 5002, message := s!"large object '{id}' not found" }
  | .malformedLargeObject id => { code := 5003, message := s!"large object '{id}' is malformed" }
  | .largeObjectsUnavailable =>
    { code := 5004, message := "large objects cannot be stored or read here"
      advice := some "Large object values need a connection to the store, even for translation." }

structure LargeObjects (σ : Type) where
  put : List UInt8 → σ → Except StoreError String × σ
  fetch : σ → String → Except StoreError (List UInt8)

def LargeObjects.unavailable : LargeObjects Unit where
  put _ s := (.error .largeObjectsUnavailable, s)
  fetch _ _ := .error .largeObjectsUnavailable

end Pushdown
