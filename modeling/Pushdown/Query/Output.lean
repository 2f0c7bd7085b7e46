import Pushdown.Bson.Path
import Pushdown.StoredForm

/-!
# Output columns

The columns of a query's result, and the rows read from result documents.
-/

namespace Pushdown

structure OutputColumn where
  name : String
  path : String
  type : SqlType
deriving DecidableEq

namespace OutputColumn

/-- The value of the column in a result document; a missing field is NULL. -/
def decode (fetch : String → Except StoreError (List UInt8)) (d : Document) (c : OutputColumn) :
    Except ConversionError Value :=
  match Document.atPath? d c.path with
  | some b => Value.ofStored fetch c.type b
  | none => .ok .null

def decodeRow (fetch : String → Except StoreError (List UInt8)) (columns : List OutputColumn)
    (d : Document) : Except ConversionError (List Value) :=
  columns.mapM (decode fetch d)

end OutputColumn

end Pushdown
