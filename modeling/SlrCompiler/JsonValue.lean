/-! # JSON

    A JSON value, without the numbers and constants that no table holds, and its compact
    text: no blanks, the fields of an object in the order given. In a text only the
    quote, the backslash and the characters below U+0020 are escaped.
-/

namespace SlrCompiler

/-- A JSON value. -/
inductive JsonValue where
  | null
  | number (n : Nat)
  | text (s : String)
  | array (items : List JsonValue)
  | object (fields : List (String × JsonValue))

namespace JsonValue

/-! ## Texts -/

/-- The hexadecimal digit of a number below sixteen. -/
def hexDigit (n : Nat) : Char := if n < 10 then Char.ofNat (48 + n) else Char.ofNat (87 + n)

/-- A character as it is written inside a text. -/
def escape (c : Char) : List Char :=
  if c = '"' then ['\\', '"']
  else if c = '\\' then ['\\', '\\']
  else if c = '\x08' then ['\\', 'b']
  else if c = '\x0c' then ['\\', 'f']
  else if c = '\n' then ['\\', 'n']
  else if c = '\r' then ['\\', 'r']
  else if c = '\t' then ['\\', 't']
  else if c.toNat < 32 then
    ['\\', 'u', '0', '0', hexDigit (c.toNat / 16), hexDigit (c.toNat % 16)]
  else [c]

/-- A text between its quotes. -/
def quote (s : String) : List Char := '"' :: (s.toList.flatMap escape ++ ['"'])

/-! ## Values -/

mutual

/-- The compact text of a value. -/
def chars : JsonValue → List Char
  | .null => ['n', 'u', 'l', 'l']
  | .number n => Nat.toDigits 10 n
  | .text s => quote s
  | .array items => '[' :: itemChars items
  | .object fields => '{' :: fieldChars fields

/-- The rest of an array after its bracket or after a comma. -/
def itemChars : List JsonValue → List Char
  | [] => [']']
  | [item] => chars item ++ [']']
  | item :: next :: rest => chars item ++ ',' :: itemChars (next :: rest)

/-- The rest of an object after its brace or after a comma. -/
def fieldChars : List (String × JsonValue) → List Char
  | [] => ['}']
  | [(key, value)] => quote key ++ ':' :: (chars value ++ ['}'])
  | (key, value) :: next :: rest =>
    quote key ++ ':' :: (chars value ++ ',' :: fieldChars (next :: rest))

end

/-- The compact text of a value. -/
def render (v : JsonValue) : String := String.ofList v.chars

/-- The value of something that may be absent. -/
def ofOption {α : Type} (encode : α → JsonValue) : Option α → JsonValue
  | none => .null
  | some a => encode a

/-- The array of the values of some things. -/
def ofList {α : Type} (encode : α → JsonValue) (items : List α) : JsonValue :=
  .array (items.map encode)

/-- The array of the values of some things. -/
def ofArray {α : Type} (encode : α → JsonValue) (items : Array α) : JsonValue :=
  ofList encode items.toList

end JsonValue

end SlrCompiler
