import TeachLang.Text.Hidden

/-!
# Quoted texts

Messages show names and tokens between double quotes, in a form in which every character can be
seen: the quote and the backslash are written with a backslash, four controls by a letter or a
digit, and any other hidden character by its code point in lower-case hexadecimal.
-/

namespace TeachLang.Text

/-- A character as it is written between double quotes. -/
def quotedChar (c : Char) : String :=
  if c = '\x00' then "\\0"
  else if c = '\t' then "\\t"
  else if c = '\r' then "\\r"
  else if c = '\n' then "\\n"
  else if c = '\\' then "\\\\"
  else if c = '"' then "\\\""
  else if isHidden c then
    "\\u\x7b" ++ String.ofList (Nat.toDigits 16 c.toNat) ++ "\x7d"
  else c.toString

/-- A text between double quotes, every character of it visible. -/
def quoted (text : String) : String :=
  "\"" ++ String.join (text.toList.map quotedChar) ++ "\""

end TeachLang.Text
