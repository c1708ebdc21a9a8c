import WeightedGrammar.Text.Quoted

/-!
JSON text of a map from strings to strings, one entry a line, in ASCII: characters outside
printable ASCII are written as their UTF-16 units.
-/

namespace WeightedGrammar.Text

/-- The UTF-16 units of a code point: one below U+10000, otherwise a surrogate pair. -/
def units16 (code : Nat) : List Nat :=
  if code < 0x10000 then [code]
  else [0xd800 + (code - 0x10000) / 0x400, 0xdc00 + (code - 0x10000) % 0x400]

def jsonChar (c : Char) : List Char :=
  if c == '"' || c == '\\' then ['\\', c]
  else if c == '\n' then ['\\', 'n']
  else if c == '\r' then ['\\', 'r']
  else if c == '\t' then ['\\', 't']
  else if c.toNat == 8 then ['\\', 'b']
  else if c.toNat == 12 then ['\\', 'f']
  else if 32 ≤ c.toNat && c.toNat < 127 then [c]
  else (units16 c.toNat).flatMap fun unit => '\\' :: 'u' :: hexDigits 4 unit

def jsonString (text : String) : String :=
  String.ofList ('"' :: text.toList.flatMap jsonChar ++ ['"'])

/-- A JSON object of strings, indented by two blanks; the empty one is a bare pair of braces. -/
def jsonObject (entries : List (String × String)) : String :=
  if entries.isEmpty then "\x7b\x7d"
  else
    let lines := entries.map fun (key, value) => "  " ++ jsonString key ++ ": " ++ jsonString value
    "\x7b\n" ++ ",\n".intercalate lines ++ "\n\x7d"

example : jsonString "\u00e9\t" = "\"\\u00e9\\t\"" := by decide +kernel

example : units16 0x1f600 = [0xd83d, 0xde00] := by decide

end WeightedGrammar.Text
