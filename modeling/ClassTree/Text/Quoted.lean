import ClassTree.Text.Combining
import ClassTree.Text.Hexadecimal
import ClassTree.Text.Unprintable

namespace ClassTree.Text

def codePoint (c : Char) : String :=
  "\\u\x7b" ++ hex 1 c.toNat ++ "\x7d"

def quotedChar (c : Char) : String :=
  match c with
  | '\x00' => "\\0"
  | '\t' => "\\t"
  | '\n' => "\\n"
  | '\r' => "\\r"
  | '"' => "\\\""
  | '\\' => "\\\\"
  | c =>
    if c.toNat < 0x7F ∧ 0x20 ≤ c.toNat then c.toString
    else if isUnprintable c || isCombining c then codePoint c
    else c.toString

def quoted (text : String) : String :=
  "\"" ++ String.join (text.toList.map quotedChar) ++ "\""

end ClassTree.Text
