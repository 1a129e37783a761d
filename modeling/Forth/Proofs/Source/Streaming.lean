import Forth.Proofs.Source.LineBuffer

/-! # A stream reads like its text

A source that gets its bytes in pieces, and decodes them line by line, cannot be
told from one that holds the whole text. Nothing depends on where the pieces end,
be it inside a token or inside a character.
-/

namespace Forth

open Reading (newline)

theorem Reading.itemsFrom_map_byte (fetched bytes : List UInt8) :
    itemsFrom fetched (bytes.map .byte) =
      (Utf8.decode (fetched.reverse ++ bytes)).map .char := by
  induction bytes generalizing fetched with
  | nil => rw [List.map_nil, itemsFrom, line, List.append_nil]
  | cons b bytes ih =>
    rw [List.map_cons, itemsFrom]
    by_cases hb : b = newline
    · subst hb
      have hlast := Utf8.decode_newline fetched.reverse []
      rw [if_pos rfl, ih, line, List.reverse_cons, hlast, Utf8.decode_newline]
      simp
    · rw [if_neg hb, ih, List.reverse_cons, List.append_assoc, List.singleton_append]

namespace Source

theorem ofReader_flatMap_chunk (path : String) (chunks : List (List UInt8)) :
    ofReader path (chunks.flatMap Reading.chunk) =
      ofText path (String.ofList (Utf8.decode chunks.flatten)) := by
  have hbytes : chunks.flatMap Reading.chunk = chunks.flatten.map .byte := by
    rw [List.map_flatten, List.flatMap_def]
    rfl
  rw [ofReader, ofText, hbytes, Reading.itemsFrom_map_byte, String.toList_ofList]
  rfl

end Source

namespace LineBuffer

/-- The buffer over a reader that has handed over nothing yet. -/
def ofChunks (path : String) (chunks : List (List UInt8)) : LineBuffer :=
  { location := Location.start path, chunks }

theorem at_ofChunks (path : String) (chunks : List (List UInt8)) :
    (ofChunks path chunks).At path [] (Utf8.decode chunks.flatten) :=
  ⟨rfl, rfl, fun h => absurd rfl h⟩

theorem observe_ofChunks (path : String) (chunks : List (List UInt8))
    (operations : List Source.Operation) :
    observe operations (ofChunks path chunks) =
      Source.observe operations
        (Source.ofText path (String.ofList (Utf8.decode chunks.flatten))) := by
  rw [(at_ofChunks path chunks).observe operations, Source.ofText_eq_between, String.toList_ofList]

end LineBuffer

/-- Whatever is called, the pieces of a text, its lines and the text as a whole answer alike. -/
theorem observe_chunks (path : String) (chunks : List (List UInt8))
    (operations : List Source.Operation) :
    let text := String.ofList (Utf8.decode chunks.flatten)
    let whole := Source.observe operations (Source.ofText path text)
    Source.observe operations (Source.ofReader path (chunks.flatMap Reading.chunk)) = whole ∧
      LineBuffer.observe operations (LineBuffer.ofChunks path chunks) = whole ∧
      LineBuffer.observe operations (LineBuffer.ofChunks path [text.toUTF8.data.toList]) = whole ∧
      (Reading.linesFrom [] chunks.flatten).flatMap Utf8.decode = Utf8.decode chunks.flatten := by
  intro text whole
  refine ⟨?_, LineBuffer.observe_ofChunks path chunks operations, ?_,
    Utf8.flatMap_decode_linesFrom [] chunks.flatten⟩
  · rw [Source.ofReader_flatMap_chunk]
  · rw [LineBuffer.observe_ofChunks, List.flatten_singleton, Utf8.decode_toUTF8,
      String.ofList_toList]

end Forth
