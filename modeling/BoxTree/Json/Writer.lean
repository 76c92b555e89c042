import BoxTree.Json.Value
/-!
# Writing JSON

JSON text of a value: compact, without any blanks, or spread over lines with two blanks for
every level.
-/

namespace BoxTree

namespace Json

/-- A hexadecimal digit. -/
def hexDigit (n : Nat) : Char := (Nat.toDigits 16 n).headD '0'

/-- The written form of a character inside quotes. Quotes, backslashes and control characters
are escaped, all others stand for themselves. -/
def escape (c : Char) : List Char :=
  if c = '"' then ['\\', '"']
  else if c = '\\' then ['\\', '\\']
  else if c = '\n' then ['\\', 'n']
  else if c = '\r' then ['\\', 'r']
  else if c = '\t' then ['\\', 't']
  else if c.toNat = 8 then ['\\', 'b']
  else if c.toNat = 12 then ['\\', 'f']
  else if c.toNat < 32 then
    ['\\', 'u', '0', '0', hexDigit (c.toNat / 16), hexDigit (c.toNat % 16)]
  else [c]

/-- A text in quotes. -/
def quote (s : String) : List Char := '"' :: s.toList.flatMap escape ++ ['"']

mutual

/-- The text of a value without blanks. -/
def chars : Json → List Char
  | .null => ['n', 'u', 'l', 'l']
  | .bool true => ['t', 'r', 'u', 'e']
  | .bool false => ['f', 'a', 'l', 's', 'e']
  | .num text => text.toList
  | .str s => quote s
  | .arr [] => ['[', ']']
  | .arr (j :: js) => '[' :: chars j ++ itemChars js
  | .obj [] => ['\x7b', '\x7d']
  | .obj ((name, j) :: fs) => '\x7b' :: quote name ++ ':' :: chars j ++ fieldChars fs

/-- The text of the items of an array from the second on. -/
def itemChars : List Json → List Char
  | [] => [']']
  | j :: js => ',' :: chars j ++ itemChars js

/-- The text of the fields of an object from the second on. -/
def fieldChars : List (String × Json) → List Char
  | [] => ['\x7d']
  | (name, j) :: fs => ',' :: quote name ++ ':' :: chars j ++ fieldChars fs

end

/-- The text of a value without blanks. -/
def compact (j : Json) : String := String.ofList j.chars

/-- A line break and the blanks of a level. -/
def newline (level : Nat) : List Char := '\n' :: List.replicate (2 * level) ' '

mutual

/-- The text of a value over several lines, for a value at a level. -/
def spread (level : Nat) : Json → List Char
  | .arr [] => ['[', ']']
  | .arr (j :: js) =>
    '[' :: newline (level + 1) ++ spread (level + 1) j ++ spreadItems level js
  | .obj [] => ['\x7b', '\x7d']
  | .obj ((name, j) :: fs) =>
    '\x7b' :: newline (level + 1) ++ quote name ++ ':' :: ' ' :: spread (level + 1) j ++
      spreadFields level fs
  | j => chars j

/-- The items of an array from the second on. -/
def spreadItems (level : Nat) : List Json → List Char
  | [] => newline level ++ [']']
  | j :: js => ',' :: newline (level + 1) ++ spread (level + 1) j ++ spreadItems level js

/-- The fields of an object from the second on. -/
def spreadFields (level : Nat) : List (String × Json) → List Char
  | [] => newline level ++ ['\x7d']
  | (name, j) :: fs =>
    ',' :: newline (level + 1) ++ quote name ++ ':' :: ' ' :: spread (level + 1) j ++
      spreadFields level fs

end

/-- The text of a value over several lines. -/
def pretty (j : Json) : String := String.ofList (spread 0 j)

end Json

end BoxTree
