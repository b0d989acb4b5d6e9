import TourPricing.Json.Basic

namespace TourPricing.Json

/-- The escape of a character that a string does not hold as itself. -/
def escape (c : Char) : Option (List Char) :=
  match c with
  | '"' => some ['\\', '"']
  | '\\' => some ['\\', '\\']
  | '\x08' => some ['\\', 'b']
  | '\x0c' => some ['\\', 'f']
  | '\n' => some ['\\', 'n']
  | '\r' => some ['\\', 'r']
  | '\t' => some ['\\', 't']
  | _ =>
    if c.toNat < 32 then
      let digits := Nat.toDigits 16 c.toNat
      some ('\\' :: 'u' :: List.replicate (4 - digits.length) '0' ++ digits)
    else none

def quote (s : String) : String :=
  String.ofList ('"' :: s.toList.flatMap (fun c => (escape c).getD [c]) ++ ['"'])

def atom : Json → String
  | .null => "null"
  | .bool b => if b then "true" else "false"
  | .integer n => toString n
  | .real d _ => d.render layout
  | .text s => quote s
  | .broken => "\"\""
  | .array _ => "[]"
  | .object _ => "\x7b\x7d"

mutual

def compact : Json → String
  | .array items => "[" ++ compactItems items ++ "]"
  | .object members => "\x7b" ++ compactMembers members ++ "\x7d"
  | j => atom j

def compactItems : List Json → String
  | [] => ""
  | [j] => compact j
  | j :: rest => compact j ++ "," ++ compactItems rest

def compactMembers : List (String × Json) → String
  | [] => ""
  | [(name, j)] => quote name ++ ":" ++ compact j
  | (name, j) :: rest => quote name ++ ":" ++ compact j ++ "," ++ compactMembers rest

end

def newLine (level : Nat) : String :=
  String.ofList ('\n' :: List.replicate (2 * level) ' ')

mutual

def prettyAt (level : Nat) : Json → String
  | .array (j :: items) =>
    "[" ++ newLine (level + 1) ++ prettyAt (level + 1) j ++ prettyItems (level + 1) items ++
      newLine level ++ "]"
  | .object ((name, j) :: members) =>
    "\x7b" ++ newLine (level + 1) ++ quote name ++ ": " ++ prettyAt (level + 1) j ++
      prettyMembers (level + 1) members ++ newLine level ++ "\x7d"
  | j => atom j

def prettyItems (level : Nat) : List Json → String
  | [] => ""
  | j :: rest => "," ++ newLine level ++ prettyAt level j ++ prettyItems level rest

def prettyMembers (level : Nat) : List (String × Json) → String
  | [] => ""
  | (name, j) :: rest =>
    "," ++ newLine level ++ quote name ++ ": " ++ prettyAt level j ++ prettyMembers level rest

end

def pretty (j : Json) : String :=
  prettyAt 0 j

end TourPricing.Json
