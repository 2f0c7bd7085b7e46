/-!
# Relational types
-/

namespace Pushdown

inductive SqlType where
  | boolean
  | byte
  | short
  | integer
  | long
  | float
  | double
  | bigInteger
  | bigDecimal
  | char
  | string
  | date
  | time
  | timestamp
  | varbinary
  | blob
  | clob
  | xml
  | array (component : SqlType)
deriving DecidableEq

namespace SqlType

def isNumeric : SqlType → Bool
  | .byte | .short | .integer | .long | .float | .double | .bigInteger | .bigDecimal => true
  | _ => false

def isString : SqlType → Bool
  | .char | .string | .clob | .xml => true
  | _ => false

def isTemporal : SqlType → Bool
  | .date | .time | .timestamp => true
  | _ => false

/-- Content of these types is kept beside the documents, which only hold its identifier. -/
def isLargeObject : SqlType → Bool
  | .blob | .clob | .xml => true
  | _ => false

def text : SqlType → String
  | .boolean => "BOOLEAN"
  | .byte => "BYTE"
  | .short => "SHORT"
  | .integer => "INTEGER"
  | .long => "LONG"
  | .float => "FLOAT"
  | .double => "DOUBLE"
  | .bigInteger => "BIGINTEGER"
  | .bigDecimal => "BIGDECIMAL"
  | .char => "CHAR"
  | .string => "STRING"
  | .date => "DATE"
  | .time => "TIME"
  | .timestamp => "TIMESTAMP"
  | .varbinary => "VARBINARY"
  | .blob => "BLOB"
  | .clob => "CLOB"
  | .xml => "XML"
  | .array component => component.text ++ "[]"

end SqlType

end Pushdown
