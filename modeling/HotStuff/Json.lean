import HotStuff.Bytes
import HotStuff.Text.Utf8

/-!
# JSON Values

A JSON value as it is read or written. Two things are kept less than fully. A number that is
no natural below 2^64 is never asked for, so only whether a double could hold it is kept. A
string whose bytes or escapes form no text is kept as such: it is refused where its text is
wanted and nowhere else.
-/

namespace HotStuff

/-- A JSON value. -/
inductive Json where
  | null
  | bool (value : Bool)
  /-- A number in plain digits below 2^64. -/
  | natural (value : UInt64)
  /-- Any other number, and whether it is in the range of doubles. -/
  | number (finite : Bool)
  /-- A string in UTF-8, or one that is no text. -/
  | string (text : Option Bytes)
  | array (items : List Json)
  /-- The members in their order, with repetitions. -/
  | object (members : List (Option Bytes × Json))
  deriving Inhabited, Repr

namespace Json

/-- A string from a literal. -/
def str (s : String) : Json := .string (some (utf8 s))

/-- An object from names in literals. -/
def record (members : List (String × Json)) : Json :=
  .object (members.map fun m => (some (utf8 m.1), m.2))

mutual

/-- How many arrays and objects are nested in each other. -/
def depth : Json → Nat
  | .array items => depthOfItems items + 1
  | .object members => depthOfMembers members + 1
  | .null | .bool _ | .natural _ | .number _ | .string _ => 0

/-- The greatest depth of an item. -/
def depthOfItems : List Json → Nat
  | [] => 0
  | item :: rest => max item.depth (depthOfItems rest)

/-- The greatest depth of a member's value. -/
def depthOfMembers : List (Option Bytes × Json) → Nat
  | [] => 0
  | (_, value) :: rest => max value.depth (depthOfMembers rest)

end

mutual

/-- Whether all strings are texts and all numbers doubles. -/
def isSound : Json → Bool
  | .null | .bool _ | .natural _ => true
  | .number finite => finite
  | .string text => text.isSome
  | .array items => areSound items
  | .object members => membersAreSound members

/-- Whether all items are sound. -/
def areSound : List Json → Bool
  | [] => true
  | item :: rest => item.isSound && areSound rest

/-- Whether all names are texts and all values sound. -/
def membersAreSound : List (Option Bytes × Json) → Bool
  | [] => true
  | (name, value) :: rest => name.isSome && value.isSound && membersAreSound rest

end

end Json

end HotStuff
