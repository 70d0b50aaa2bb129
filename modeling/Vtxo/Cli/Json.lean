import Vtxo.Hex

/-!
# JSON reports

Reports are printed as indented JSON: two blanks for each level, and the members of an object in the order of their
names, each name once.

  1. `Json.ofPairs`: an object of which a later member replaces an earlier one of the same name.
  2. `Json.pretty`: the printed form.
-/

set_option autoImplicit false

namespace Vtxo.Cli

/-- A report. The members of an object are in the order of their names. -/
inductive Json where
  | null
  | bool (value : Bool)
  | number (value : Nat)
  | string (text : String)
  | array (items : List Json)
  | object (members : List (String × Json))

namespace Json

/-! ## Objects -/

/-- Members with one more at its place; a member of the same name is replaced. -/
def insertMember (name : String) (value : Json) : List (String × Json) → List (String × Json)
  | [] => [(name, value)]
  | (other, old) :: rest =>
    if name < other then (name, value) :: (other, old) :: rest
    else if other < name then (other, old) :: insertMember name value rest
    else (name, value) :: rest

/-- The object of some members. -/
def ofPairs (pairs : List (String × Json)) : Json :=
  object (pairs.foldl (fun members (name, value) => insertMember name value members) [])

/-! ## Printing -/

/-- The four digits of a character that has no other escape. -/
def unicodeEscape (c : Char) : List Char :=
  ['\\', 'u'] ++ (Hex.encode (Bytes.natBE 2 c.toNat)).toList

/-- A character as it stands between quotes. -/
def escapeChar (c : Char) : List Char :=
  if c = '"' then ['\\', '"']
  else if c = '\\' then ['\\', '\\']
  else if c = '\n' then ['\\', 'n']
  else if c = '\r' then ['\\', 'r']
  else if c = '\t' then ['\\', 't']
  else if c = Char.ofNat 8 then ['\\', 'b']
  else if c = Char.ofNat 12 then ['\\', 'f']
  else if c.toNat < 32 then unicodeEscape c
  else [c]

/-- A text between quotes. -/
def quote (text : String) : String :=
  String.ofList ('"' :: text.toList.flatMap escapeChar ++ ['"'])

/-- A new line at a level. -/
def newLine (level : Nat) : String :=
  String.ofList ('\n' :: List.replicate (2 * level) ' ')

mutual

/-- The printed form at a level. -/
def prettyAt (level : Nat) : Json → String
  | null => "null"
  | bool value => if value then "true" else "false"
  | number value => toString value
  | string text => quote text
  | array [] => "[]"
  | array (item :: rest) =>
    "[" ++ newLine (level + 1) ++ prettyAt (level + 1) item ++ prettyItems (level + 1) rest ++
      newLine level ++ "]"
  | object [] => "\x7b\x7d"
  | object ((name, value) :: rest) =>
    "\x7b" ++ newLine (level + 1) ++ quote name ++ ": " ++ prettyAt (level + 1) value ++
      prettyMembers (level + 1) rest ++ newLine level ++ "\x7d"

/-- The items after the first. -/
def prettyItems (level : Nat) : List Json → String
  | [] => ""
  | item :: rest => "," ++ newLine level ++ prettyAt level item ++ prettyItems level rest

/-- The members after the first. -/
def prettyMembers (level : Nat) : List (String × Json) → String
  | [] => ""
  | (name, value) :: rest =>
    "," ++ newLine level ++ quote name ++ ": " ++ prettyAt level value ++ prettyMembers level rest

end

/-- The printed form. -/
def pretty (json : Json) : String :=
  prettyAt 0 json

end Json

end Vtxo.Cli
