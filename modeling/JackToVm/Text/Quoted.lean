import JackToVm.Text.Shapeless

/-!
Quoted characters and texts, as messages and the token table show them. A backslash goes before a
backslash, before the quote in use, and in the short forms of the tab, the line ends and the code 0;
a character that does not show by itself is written as its code in hexadecimal.
-/

namespace JackToVm.Text

def hexDigits (n : Nat) : String :=
  String.ofList (Nat.toDigits 16 n)

def escaped (quote : Char) (c : Char) : String :=
  if c = '\x00' then "\\0"
  else if c = '\t' then "\\t"
  else if c = '\r' then "\\r"
  else if c = '\n' then "\\n"
  else if c = '\\' then "\\\\"
  else if c = quote then "\\" ++ c.toString
  else if isShapeless c then "\\u\x7b" ++ hexDigits c.toNat ++ "\x7d"
  else c.toString

def quotedChar (c : Char) : String :=
  "'" ++ escaped '\x27' c ++ "'"

def quoted (text : String) : String :=
  "\"" ++ String.join (text.toList.map (escaped '"')) ++ "\""

end JackToVm.Text
