import HotStuff.Json

/-!
# Writing JSON

Two written forms of a value: one without any blank, and one with a member or item on each line,
indented by two spaces per level.
-/

namespace HotStuff.Json

/-- The two characters of a short escape, or the six of a long one, for what may not stand in a
string as it is. -/
def escaped (b : UInt8) : Bytes :=
  if b = 0x22 then [0x5C, 0x22]
  else if b = 0x5C then [0x5C, 0x5C]
  else if b = 0x08 then [0x5C, 0x62]
  else if b = 0x0C then [0x5C, 0x66]
  else if b = 0x0A then [0x5C, 0x6E]
  else if b = 0x0D then [0x5C, 0x72]
  else if b = 0x09 then [0x5C, 0x74]
  else if b < 0x20 then
    let low := b % 16
    [0x5C, 0x75, 0x30, 0x30, 0x30 + b / 16, if low < 10 then 0x30 + low else 0x57 + low]
  else [b]

/-- A text in quotes. -/
def quoted (text : Bytes) : Bytes := 0x22 :: text.flatMap escaped ++ [0x22]

/-- The decimal digits of a number. -/
def digits (n : Nat) : Bytes := (Nat.toDigits 10 n).map fun c => UInt8.ofNat c.toNat

/-- A value without parts. What is no text or natural has no written form of its own. -/
def scalar : Json → Bytes
  | .bool true => utf8 "true"
  | .bool false => utf8 "false"
  | .natural n => digits n.toNat
  | .string (some text) => quoted text
  | .string none => quoted []
  | .null | .number _ | .array _ | .object _ => utf8 "null"

/-- A member's name in quotes. -/
def nameOf (name : Option Bytes) : Bytes := quoted (name.getD [])

mutual

/-- **The compact form.** -/
def compact : Json → Bytes
  | .array items => 0x5B :: compactItems items ++ [0x5D]
  | .object members => 0x7B :: compactMembers members ++ [0x7D]
  | value => scalar value

/-- Items with a comma between them. -/
def compactItems : List Json → Bytes
  | [] => []
  | [item] => item.compact
  | item :: rest => item.compact ++ 0x2C :: compactItems rest

/-- Members with a comma between them. -/
def compactMembers : List (Option Bytes × Json) → Bytes
  | [] => []
  | [(name, value)] => nameOf name ++ 0x3A :: value.compact
  | (name, value) :: rest => nameOf name ++ 0x3A :: value.compact ++ 0x2C :: compactMembers rest

end

/-- A line feed and the indentation of a level. -/
def newLine (level : Nat) : Bytes := 0x0A :: List.replicate (2 * level) 0x20

mutual

/-- **The indented form,** for a value at a given level. Empty arrays and objects stay on
one line. -/
def indented (level : Nat) : Json → Bytes
  | .array [] => [0x5B, 0x5D]
  | .array (item :: rest) =>
    0x5B :: indentedItems (level + 1) (item :: rest) ++ newLine level ++ [0x5D]
  | .object [] => [0x7B, 0x7D]
  | .object (member :: rest) =>
    0x7B :: indentedMembers (level + 1) (member :: rest) ++ newLine level ++ [0x7D]
  | value => scalar value

/-- Items, each on a line of its own. -/
def indentedItems (level : Nat) : List Json → Bytes
  | [] => []
  | [item] => newLine level ++ item.indented level
  | item :: rest => newLine level ++ item.indented level ++ 0x2C :: indentedItems level rest

/-- Members, each on a line of its own. -/
def indentedMembers (level : Nat) : List (Option Bytes × Json) → Bytes
  | [] => []
  | [(name, value)] => newLine level ++ nameOf name ++ 0x3A :: 0x20 :: value.indented level
  | (name, value) :: rest =>
    newLine level ++ nameOf name ++ 0x3A :: 0x20 :: value.indented level ++
      0x2C :: indentedMembers level rest

end

/-- The text of the compact form. -/
def text (value : Json) : String := value.compact.toText

end HotStuff.Json
