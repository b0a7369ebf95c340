import Pinflow.Json.Printer
import Pinflow.Json.Raw

/-!
# Bounded values

Traces and debug events hold bounded copies of values. A value whose text is short
enough is kept as its text reads back; a longer one is replaced by a marker with
its size and the beginning of its text.
-/

namespace Pinflow

/-- How many characters of a text a marker shows. -/
def previewLength : Nat := 128

/-- What stands in for a value that is too large. -/
def marker (text : String) : Value :=
  .object [("$truncated", .bool true), ("bytes", .ofNat text.utf8ByteSize),
    ("preview", .str (String.ofList (text.toList.take previewLength)))]

/-- What a text of at most `most` bytes reads back as, or a marker. A text that cannot
be read back leaves null. -/
def boundedText (text : String) (most : Nat) : Value :=
  if most < text.utf8ByteSize then marker text else (Value.read? text).getD .null

/-- A copy of a value whose text has at most `most` bytes, or a marker. -/
def Value.bounded (value : Value) (most : Nat) : Value := boundedText value.render most

end Pinflow
