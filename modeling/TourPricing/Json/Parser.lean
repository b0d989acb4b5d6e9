import TourPricing.Decimal.Reader
import TourPricing.Json.Basic

namespace TourPricing.Json

def isSpace (c : Char) : Bool :=
  c == ' ' || c == '\n' || c == '\t' || c == '\r'

def skipSpace (s : List Char) : List Char :=
  s.dropWhile isSpace

def afterWord (word : String) (s : List Char) : Option (List Char) :=
  if s.take word.length = word.toList then some (s.drop word.length) else none

def hexDigit? (c : Char) : Option Nat :=
  if c.isDigit then some (c.toNat - 48)
  else if 'a' ≤ c ∧ c ≤ 'f' then some (c.toNat - 87)
  else if 'A' ≤ c ∧ c ≤ 'F' then some (c.toNat - 55)
  else none

/-- A unit of UTF-16 written as four hexadecimal digits. -/
def unit? : List Char → Option (Nat × List Char)
  | a :: b :: c :: d :: s => do
    let digits ← [a, b, c, d].mapM hexDigit?
    pure (digits.foldl (fun n k => 16 * n + k) 0, s)
  | _ => none

/-- The units and characters between the quotes of a string, up to the closing quote. A unit stands
for itself until pairs of surrogates are joined. -/
def stringBody : List Char → Option (List Nat × List Char)
  | [] => none
  | '"' :: s => some ([], s)
  | '\\' :: 'u' :: a :: b :: c :: d :: s => do
    let (n, _) ← unit? [a, b, c, d]
    let (rest, s) ← stringBody s
    pure (n :: rest, s)
  | '\\' :: c :: s => do
    let code ← match c with
      | '"' => some 34
      | '\\' => some 92
      | '/' => some 47
      | 'b' => some 8
      | 'f' => some 12
      | 'n' => some 10
      | 'r' => some 13
      | 't' => some 9
      | _ => none
    let (rest, s) ← stringBody s
    pure (code :: rest, s)
  | c :: s => do
    if c.toNat < 32 then none
    let (rest, s) ← stringBody s
    pure (c.toNat :: rest, s)

def isHighSurrogate (n : Nat) : Bool := 0xD800 ≤ n && n < 0xDC00

def isLowSurrogate (n : Nat) : Bool := 0xDC00 ≤ n && n < 0xE000

/-- The characters that a list of units denotes, if no surrogate stands alone. -/
def characters? : List Nat → Option (List Char)
  | [] => some []
  | [n] => if isHighSurrogate n || isLowSurrogate n then none else some [Char.ofNat n]
  | n :: m :: s =>
    if isHighSurrogate n then
      if isLowSurrogate m then
        (characters? s).map (Char.ofNat (0x10000 + (n - 0xD800) * 0x400 + (m - 0xDC00)) :: ·)
      else none
    else if isLowSurrogate n then none
    else (characters? (m :: s)).map (Char.ofNat n :: ·)

/-- A number without its sign. Its whole part is `0` or does not begin with `0`; a point is
followed by digits, and so is the mark of a power of ten. -/
def number? (negative : Bool) (s : List Char) : Option (Json × List Char) := do
  let whole := s.takeWhile Char.isDigit
  let s := s.dropWhile Char.isDigit
  if whole.isEmpty || (whole.length > 1 && whole.head? == some '0') then none
  let (fraction, s) ← match s with
    | '.' :: r =>
      let digits := r.takeWhile Char.isDigit
      if digits.isEmpty then none else some (some digits, r.dropWhile Char.isDigit)
    | _ => some (none, s)
  let (exponent, s) ← match s with
    | c :: r =>
      if c = 'e' ∨ c = 'E' then
        let (down, r) := Decimal.readSign r
        let digits := r.takeWhile Char.isDigit
        if digits.isEmpty then none
        else
          let n : Int := Decimal.ofDigits digits
          some (some (if down then -n else n), r.dropWhile Char.isDigit)
      else some (none, s)
    | [] => some (none, s)
  let n := Decimal.ofDigits whole
  let fits := if negative then 0 < n && n ≤ Nat.pow 2 63 else n < Nat.pow 2 64
  if fraction.isNone && exponent.isNone && fits then
    pure (.integer (if negative then -(n : Int) else n), s)
  else
    let digits := fraction.getD []
    let d := ⟨negative, Decimal.ofDigits (whole ++ digits), exponent.getD 0 - digits.length⟩
    pure (.real d digits.length, s)

def textOfUnits? (units : List Nat) : Option String :=
  (characters? units).map String.ofList

def named? (member : Option String × Json) : Option (String × Json) :=
  member.1.map fun name => (name, member.2)

/-- The object with some members, whose names have to denote texts. -/
def ofMembers (members : List (Option String × Json)) : Json :=
  match members.mapM named? with
  | some members => .object members
  | none => .broken

mutual

/-- A value; `depth` bounds the values, items and members that are read one after another. -/
def value? : (depth : Nat) → List Char → Option (Json × List Char)
  | 0, _ => none
  | depth + 1, s =>
    match s with
    | '"' :: s => do
      let (units, s) ← stringBody s
      pure (((textOfUnits? units).map Json.text).getD .broken, s)
    | '[' :: s =>
      match skipSpace s with
      | ']' :: s => some (.array [], s)
      | s => (items? depth s).map fun (items, s) => (.array items, s)
    | '\x7b' :: s =>
      match skipSpace s with
      | '\x7d' :: s => some (.object [], s)
      | s => (members? depth s).map fun (members, s) => (ofMembers members, s)
    | '-' :: s => number? true s
    | 'n' :: _ => (afterWord "null" s).map (.null, ·)
    | 't' :: _ => (afterWord "true" s).map (.bool true, ·)
    | 'f' :: _ => (afterWord "false" s).map (.bool false, ·)
    | s => number? false s

def items? : (depth : Nat) → List Char → Option (List Json × List Char)
  | 0, _ => none
  | depth + 1, s => do
    let (item, s) ← value? depth (skipSpace s)
    match skipSpace s with
    | ',' :: s => (items? depth s).map fun (items, s) => (item :: items, s)
    | ']' :: s => some ([item], s)
    | _ => none

def members? : (depth : Nat) → List Char → Option (List (Option String × Json) × List Char)
  | 0, _ => none
  | depth + 1, s => do
    let '"' :: s := skipSpace s | none
    let (units, s) ← stringBody s
    let name := textOfUnits? units
    let ':' :: s := skipSpace s | none
    let (member, s) ← value? depth (skipSpace s)
    match skipSpace s with
    | ',' :: s =>
      (members? depth s).map fun (members, s) => ((name, member) :: members, s)
    | '\x7d' :: s => some ([(name, member)], s)
    | _ => none

end

/-- The value that a whole text denotes. Every step of the readers takes a character, so the length
of the text bounds their depth. -/
def parse? (text : String) : Option Json := do
  let s := skipSpace text.toList
  let (j, rest) ← value? (2 * s.length + 2) s
  if (skipSpace rest).isEmpty then some j else none

end TourPricing.Json
