import YulToolchain.Text.Printable

/-!
# Quoted Text

Text in double quotes, with everything escaped that would be mistaken for
something else or would not be seen.

## Main definitions

* `Text.quoted`: Text in quotes.
-/

namespace YulToolchain

namespace Text

/-- A character inside quotes. Characters that are not shown as themselves are
    given by their number. -/
def escapeChar (c : Char) : String :=
  if c = '\x00' then "\\0"
  else if c = '\t' then "\\t"
  else if c = '\r' then "\\r"
  else if c = '\n' then "\\n"
  else if c = '\\' then "\\\\"
  else if c = '"' then "\\\""
  else if isShown c then String.singleton c
  else "\\u\x7b" ++ String.ofList (Nat.toDigits 16 c.toNat) ++ "\x7d"

/-- Text in double quotes. -/
def quoted (s : String) : String := "\"" ++ String.join (s.toList.map escapeChar) ++ "\""

end Text

end YulToolchain
