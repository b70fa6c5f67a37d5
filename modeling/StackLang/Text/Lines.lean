/-!
# Lines of a byte stream

A stream of bytes is a sequence of lines that end at a line feed. A carriage return
right before the line feed belongs to the line end. The last line need not be ended, and
then a carriage return at its end is part of it; after a final line feed there is no
further line. Lines are bytes until somebody reads them as text, so a line that is not
valid UTF-8 does no harm to the lines before it.
-/

set_option autoImplicit false

namespace StackLang.Text

/-- The byte that ends a line. -/
def lineFeed : UInt8 := 10

/-- The byte that may stand before a line feed. -/
def carriageReturn : UInt8 := 13

/-- A line's bytes in reverse, without the carriage return of its line end. -/
def dropReturn : List UInt8 → List UInt8
  | [] => []
  | b :: line => if b = carriageReturn then line else b :: line

/-- The lines of a stream, after the bytes of `pending` in reverse have been read of the
first one. -/
def linesAfter : List UInt8 → List UInt8 → List (List UInt8)
  | [], [] => []
  | b :: pending, [] => [(b :: pending).reverse]
  | pending, b :: stream =>
    if b = lineFeed then (dropReturn pending).reverse :: linesAfter [] stream
    else linesAfter (b :: pending) stream

/-- The lines of a stream, without their line ends. -/
def lines (stream : List UInt8) : List (List UInt8) := linesAfter [] stream

/-- The text of a line, if its bytes are valid UTF-8. -/
def decode? (line : List UInt8) : Option String := String.fromUTF8? (ByteArray.mk line.toArray)

end StackLang.Text
