import Forth.Dictionary.Behavior
import Forth.Source.Token
import Forth.Value.Literal

/-! # What a token refers to

A token refers to the word of its name. If there is none and the token spells a
number, it refers to a word of its own, which pushes the number.
-/

namespace Forth

def Token.literalWord {κ : Type} (t : Token) (v : Value) : Word (Behavior κ) where
  name := t.text
  location := some t.location
  kind := .literal
  behavior := .literal v

def Dictionary.resolve {κ : Type} (d : Dictionary (Behavior κ)) (t : Token) :
    Option (Word (Behavior κ)) :=
  (d.find? t.text) <|> (Value.ofText? t.text).map t.literalWord

end Forth
