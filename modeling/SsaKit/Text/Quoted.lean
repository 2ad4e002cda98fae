import SsaKit.Text.Shape
/-!
Names between quotes, as they stand in error messages.
-/
namespace SsaKit.Text

def codePoint (c : Char) : String :=
  "\\u\x7b" ++ String.ofList (Nat.toDigits 16 c.toNat) ++ "\x7d"

/-- Quotes, backslashes and whatever has no shape of its own are escaped. -/
def escaped (c : Char) : String :=
  if c = '"' then "\\\""
  else if c = '\\' then "\\\\"
  else if c = '\n' then "\\n"
  else if c = '\r' then "\\r"
  else if c = '\t' then "\\t"
  else if c = '\x00' then "\\0"
  else if hasShape c then c.toString
  else codePoint c

def quoted (name : String) : String :=
  "\"" ++ String.join (name.toList.map escaped) ++ "\""

end SsaKit.Text
