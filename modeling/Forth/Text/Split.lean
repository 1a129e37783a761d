/-! # Splitting text

The parts of a text between the places where a separator stands. There is one
part more than there are separators, and parts may be empty.
-/

namespace Forth

def splitAt (separator : Char) (text : List Char) : List (List Char) :=
  text.foldr
    (fun c parts => if c = separator then [] :: parts else (c :: parts.headD []) :: parts.tail)
    [[]]

end Forth
