import Prototypal.Text.Printable

/-!
# Prototypal — Text — Quoted

Text between double quotes, as shown in messages (`Text.quoted`): quotes, backslashes and the usual
controls are escaped, and characters that do not show as themselves are given by number.
-/

namespace Prototypal.Text

/-- A character as it stands between double quotes. -/
def quotedChar (c : Char) : String :=
  match c with
  | '\x00' => "\\0"
  | '\t' => "\\t"
  | '\r' => "\\r"
  | '\n' => "\\n"
  | '\\' => "\\\\"
  | '"' => "\\\""
  | c =>
    if isPrintable c then c.toString
    else "\\u\x7b" ++ String.ofList (Nat.toDigits 16 c.toNat) ++ "\x7d"

/-- Text between double quotes. -/
def quoted (s : String) : String := "\"" ++ String.join (s.toList.map quotedChar) ++ "\""

end Prototypal.Text
