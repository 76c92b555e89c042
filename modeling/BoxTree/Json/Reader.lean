import BoxTree.Json.Value
/-!
# Reading JSON

The value of a JSON text. Every reader takes the characters it understands off the front and
returns the rest. The nesting of values is followed with a fuel of one unit for every
character, which always suffices since every value has at least one.
-/

namespace BoxTree

namespace Json

/-- Drops blanks: space, tab and line ends. -/
def dropBlanks (cs : List Char) : List Char :=
  cs.dropWhile fun c => c = ' ' || c = '\t' || c = '\n' || c = '\r'

/-- Drops a word from the front. -/
def word? (w : List Char) (cs : List Char) : Option (List Char) :=
  if w.isPrefixOf cs then some (cs.drop w.length) else none

/-- The value of a hexadecimal digit. -/
def hexValue? (c : Char) : Option Nat :=
  if c.isDigit then some (c.toNat - 48)
  else if 'a' ≤ c && c ≤ 'f' then some (c.toNat - 87)
  else if 'A' ≤ c && c ≤ 'F' then some (c.toNat - 55)
  else none

/-- Four hexadecimal digits. -/
def hexUnit? : List Char → Option (Nat × List Char)
  | a :: b :: c :: d :: rest => do
    let (a, b, c, d) := (← hexValue? a, ← hexValue? b, ← hexValue? c, ← hexValue? d)
    some (((a * 16 + b) * 16 + c) * 16 + d, rest)
  | _ => none

/-- The character after a backslash and the letter u: four digits, or twice four for a
character of two units. -/
def unicodeEscape? (cs : List Char) : Option (Char × List Char) := do
  let (high, rest) ← hexUnit? cs
  if 0xD800 ≤ high && high < 0xDC00 then
    match rest with
    | '\\' :: 'u' :: rest =>
      let (low, rest) ← hexUnit? rest
      if 0xDC00 ≤ low && low < 0xE000 then
        some (Char.ofNat (0x10000 + (high - 0xD800) * 0x400 + (low - 0xDC00)), rest)
      else none
    | _ => none
  else if 0xDC00 ≤ high && high < 0xE000 then none
  else some (Char.ofNat high, rest)

/-- The character of an escape, after its backslash. -/
def escape? : List Char → Option (Char × List Char)
  | 'u' :: cs => unicodeEscape? cs
  | c :: cs =>
    if c = '"' || c = '\\' || c = '/' then some (c, cs)
    else if c = 'n' then some ('\n', cs)
    else if c = 't' then some ('\t', cs)
    else if c = 'r' then some ('\r', cs)
    else if c = 'b' then some (Char.ofNat 8, cs)
    else if c = 'f' then some (Char.ofNat 12, cs)
    else none
  | [] => none

/-- The characters up to the closing quote. -/
def readString? : (fuel : Nat) → List Char → Option (List Char × List Char)
  | 0, _ => none
  | _ + 1, '"' :: cs => some ([], cs)
  | fuel + 1, '\\' :: cs => do
    let (c, cs) ← escape? cs
    let (s, cs) ← readString? fuel cs
    some (c :: s, cs)
  | fuel + 1, c :: cs => do
    if c.toNat < 32 then none
    let (s, cs) ← readString? fuel cs
    some (c :: s, cs)
  | _ + 1, [] => none

/-- Whether a character can stand in a number. -/
def inNumber (c : Char) : Bool :=
  c.isDigit || c = '-' || c = '+' || c = '.' || c = 'e' || c = 'E'

/-- Whether a text is a number: an optional minus, digits without a leading zero, and a
fraction and an exponent with at least one digit each. -/
def isNumber (text : List Char) : Bool :=
  let unsigned := if text.head? = some '-' then text.tail else text
  let whole := DecimalText.spanDigits unsigned
  let fraction := DecimalText.spanFraction whole.2
  let startsWell := !whole.1.isEmpty && (whole.1.length = 1 || whole.1.head? ≠ some '0')
  startsWell && fraction.1 ≠ some [] && (DecimalText.read? text).isSome

mutual

/-- A value at the front of a text. -/
def readValue? : (fuel : Nat) → List Char → Option (Json × List Char)
  | 0, _ => none
  | fuel + 1, cs =>
    match dropBlanks cs with
    | '"' :: rest => do
      let (s, rest) ← readString? (rest.length + 1) rest
      some (.str (String.ofList s), rest)
    | '[' :: rest =>
      match dropBlanks rest with
      | ']' :: rest => some (.arr [], rest)
      | rest => do
        let (items, rest) ← readItems? fuel rest
        some (.arr items, rest)
    | '\x7b' :: rest =>
      match dropBlanks rest with
      | '\x7d' :: rest => some (.obj [], rest)
      | rest => do
        let (fields, rest) ← readFields? fuel rest
        some (.obj fields, rest)
    | 'n' :: rest => (word? ['u', 'l', 'l'] rest).map fun rest => (.null, rest)
    | 't' :: rest => (word? ['r', 'u', 'e'] rest).map fun rest => (.bool true, rest)
    | 'f' :: rest => (word? ['a', 'l', 's', 'e'] rest).map fun rest => (.bool false, rest)
    | rest =>
      let text := rest.takeWhile inNumber
      if isNumber text then some (.num (String.ofList text), rest.dropWhile inNumber) else none

/-- The items of an array up to its closing bracket. -/
def readItems? : (fuel : Nat) → List Char → Option (List Json × List Char)
  | 0, _ => none
  | fuel + 1, cs => do
    let (j, rest) ← readValue? fuel cs
    match dropBlanks rest with
    | ',' :: rest =>
      let (js, rest) ← readItems? fuel rest
      some (j :: js, rest)
    | ']' :: rest => some ([j], rest)
    | _ => none

/-- The fields of an object up to its closing brace. -/
def readFields? : (fuel : Nat) → List Char → Option (List (String × Json) × List Char)
  | 0, _ => none
  | fuel + 1, cs =>
    match dropBlanks cs with
    | '"' :: rest => do
      let (name, rest) ← readString? (rest.length + 1) rest
      match dropBlanks rest with
      | ':' :: rest =>
        let (j, rest) ← readValue? fuel rest
        let f := (String.ofList name, j)
        match dropBlanks rest with
        | ',' :: rest =>
          let (fs, rest) ← readFields? fuel rest
          some (f :: fs, rest)
        | '\x7d' :: rest => some ([f], rest)
        | _ => none
      | _ => none
    | _ => none

end

/-- The value of a text that holds nothing else. -/
def parse? (text : String) : Option Json := do
  let cs := text.toList
  let (j, rest) ← readValue? (cs.length + 1) cs
  if (dropBlanks rest).isEmpty then some j else none

end Json

end BoxTree
