import Pagewright.Text.Basic

/-!
# Texts as bytes

Files hold bytes. A text is stored in UTF-8, and not every file holds a text.
-/

namespace Pagewright

namespace Text

/-- The bytes of a text. -/
def utf8 (text : Text) : List UInt8 :=
  text.flatMap String.utf8EncodeChar

/-- The text that some bytes stand for, if they are UTF-8. -/
def ofUtf8? (bytes : List UInt8) : Option Text :=
  (String.fromUTF8? ⟨bytes.toArray⟩).map String.toList

end Text

end Pagewright
