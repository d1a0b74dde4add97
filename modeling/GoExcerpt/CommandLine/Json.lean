import GoExcerpt.Index

/-!
# `CommandLine.Json` — listings as JSON

Objects are written one member per line, indented by two spaces per level.
-/

namespace GoExcerpt.CommandLine.Json

def hexDigit (n : Nat) : Char := if n < 10 then Char.ofNat (48 + n) else Char.ofNat (87 + n)

/-- A character inside a string. -/
def escapeChar (c : Char) : List Char :=
  if c == '"' then ['\\', '"']
  else if c == '\\' then ['\\', '\\']
  else if c == '\n' then ['\\', 'n']
  else if c == '\r' then ['\\', 'r']
  else if c == '\t' then ['\\', 't']
  else if c == Char.ofNat 8 then ['\\', 'b']
  else if c == Char.ofNat 12 then ['\\', 'f']
  else if c.toNat < 0x20 then
    ['\\', 'u', '0', '0', hexDigit (c.toNat / 16), hexDigit (c.toNat % 16)]
  else [c]

def string (s : String) : String := "\"" ++ String.ofList (s.toList.flatMap escapeChar) ++ "\""

/-- One row of a listing. -/
def row (r : Row) : String :=
  "  \x7b\n    \"symbol\": " ++ string r.symbol
    ++ ",\n    \"package\": " ++ string r.package
    ++ ",\n    \"name\": " ++ string r.name
    ++ ",\n    \"file\": " ++ string r.file
    ++ ",\n    \"line\": " ++ toString r.line
    ++ ",\n    \"has_body\": " ++ (if r.hasBody then "true" else "false")
    ++ "\n  \x7d"

/-- A whole listing. -/
def rows (rs : List Row) : String :=
  if rs.isEmpty then "[]" else "[\n" ++ ",\n".intercalate (rs.map row) ++ "\n]"

end GoExcerpt.CommandLine.Json
