import BlockHeap.Text.Hex
import BlockHeap.Text.Shown

/-!
# Quoted text

A text is quoted between double quotes. The quotes and backslashes in it, and the usual control
characters, are written with a backslash; any other character that is not shown as it is becomes its
code point.
-/

namespace BlockHeap.Text

def quoteChar (c : Char) : String :=
  if c = '\x00' then "\\0"
  else if c = '\t' then "\\t"
  else if c = '\r' then "\\r"
  else if c = '\n' then "\\n"
  else if c = '\\' then "\\\\"
  else if c = '"' then "\\\""
  else if isShown c then c.toString
  else "\\u\x7b" ++ hexDigits c.toNat ++ "\x7d"

def quote (s : String) : String := "\"" ++ String.join (s.toList.map quoteChar) ++ "\""

end BlockHeap.Text
