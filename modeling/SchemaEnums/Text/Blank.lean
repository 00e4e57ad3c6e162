/-!
# Text — Blank

The characters that count as white space wherever a text is cut or trimmed: the members of
Unicode's `White_Space` property, and no others.
-/

namespace SchemaEnums.Text

/-- Unicode's `White_Space`: tab to carriage return, the space, and the wide, thin and no-break
spaces and separators beyond ASCII. -/
def isBlank (c : Char) : Bool :=
  ('\t' ≤ c && c ≤ '\r') || c == ' ' || c == '\u0085' || c == '\u00a0' || c == '\u1680' ||
  ('\u2000' ≤ c && c ≤ '\u200a') || c == '\u2028' || c == '\u2029' || c == '\u202f' ||
  c == '\u205f' || c == '\u3000'

/-- A text that holds white space only. -/
def allBlank (text : String) : Bool :=
  text.toList.all isBlank

end SchemaEnums.Text
