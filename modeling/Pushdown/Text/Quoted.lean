/-!
# Quoted texts

A text between two marks, where a mark inside the text is written twice.
-/

namespace Pushdown.Text

def doubleMarks (mark : Char) : List Char → List Char
  | [] => []
  | c :: cs => if c = mark then mark :: mark :: doubleMarks mark cs else c :: doubleMarks mark cs

def quoted (mark : Char) (s : String) : String :=
  String.ofList (mark :: (doubleMarks mark s.toList ++ [mark]))

end Pushdown.Text
