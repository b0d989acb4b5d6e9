import TourPricing.Decimal.Layout

namespace TourPricing

/-- A JSON value. Integers that fit 64 bits are kept apart from all other numbers, of which it is
known how many digits stand after the point. A string whose escapes denote no text, and an object
with such a name, are kept as a value that no reader accepts. -/
inductive Json where
  | null
  | bool (b : Bool)
  | integer (n : Int)
  | real (d : Decimal) (places : Nat)
  | text (s : String)
  | broken
  | array (items : List Json)
  | object (members : List (String × Json))
deriving Inhabited

namespace Json

/-- Whole numbers without a power of ten are written from `0.00001` up to `1e16`. -/
def layout : Layout := ⟨some (-4), some 16, true, true, .even⟩

def nat (n : Nat) : Json :=
  .integer n

/-- A double as a JSON number; only finite doubles are numbers. -/
def float (x : Float) : Json :=
  if x.isFinite then .real (Decimal.shortest layout.tie x) 0 else .null

def option {α : Type} (write : α → Json) (a : Option α) : Json :=
  (a.map write).getD .null

def get? (j : Json) (name : String) : Option Json :=
  match j with
  | .object members => members.lookup name
  | _ => none

/-- The digits of a number that count, as a whole number with 64 bits, and the power of ten that it
is a multiple of. Last digits before the point are left out if there are too many; then digits after
the point are taken in for as long as there is room for them. -/
def leading (d : Decimal) (places : Nat) : Nat × Int :=
  let limit := Nat.pow 2 64
  let whole := d.digits / Nat.pow 10 places
  let fraction := d.digits % Nat.pow 10 places
  let dropped :=
    ((List.range (Decimal.length whole)).find? fun k => whole / Nat.pow 10 k < limit).getD 0
  let withPlaces (k : Nat) :=
    whole / Nat.pow 10 dropped * Nat.pow 10 k + fraction / Nat.pow 10 (places - k)
  let kept := ((List.range places).takeWhile fun k => withPlaces (k + 1) < limit).length
  (withPlaces kept, d.exponent + places + dropped - kept)

/-- The double that a JSON number is read as: the digits that count, scaled by a power of ten. A
number out of range is refused. -/
def scaledFloat? (d : Decimal) (places : Nat) : Option Float :=
  let (digits, exponent) := leading d places
  let power (k : Nat) := Float.ofScientific 1 false k
  let lead := Float.ofNat digits
  let x :=
    if digits = 0 then 0
    else if exponent > 308 then 1 / 0
    else if exponent ≥ 0 then lead * power exponent.natAbs
    else if exponent ≥ -308 then lead / power exponent.natAbs
    else if exponent ≥ -616 then lead / power 308 / power (exponent.natAbs - 308)
    else 0
  if x.isFinite then some (if d.negative then -x else x) else none

def float? : Json → Option Float
  | .integer n => some (Float.ofInt n)
  | .real d places => scaledFloat? d places
  | _ => none

def nat? (limit : Nat) : Json → Option Nat
  | .integer n => if 0 ≤ n ∧ n < limit then some n.toNat else none
  | _ => none

def bool? : Json → Option Bool
  | .bool b => some b
  | _ => none

def text? : Json → Option String
  | .text s => some s
  | _ => none

def array? {α : Type} (read : Json → Option α) : Json → Option (List α)
  | .array items => items.mapM read
  | _ => none

def option? {α : Type} (read : Json → Option α) : Json → Option (Option α)
  | .null => some none
  | j => (read j).map some

/-- The fields of a record that are present. A field that an object names twice, and an array
longer than the record, are refused. -/
def record? (fields : List String) : Json → Option (List (String × Json))
  | .object members =>
    let known := members.filter fun m => fields.contains m.1
    if (known.map (·.1)).Nodup then some known else none
  | .array items => if items.length ≤ fields.length then some (fields.zip items) else none
  | _ => none

def field? {α : Type} (record : List (String × Json)) (name : String) (read : Json → Option α) :
    Option α :=
  (record.lookup name).bind read

def fieldOr? {α : Type} (record : List (String × Json)) (name : String) (read : Json → Option α)
    (default : α) : Option α :=
  match record.lookup name with
  | some j => read j
  | none => some default

end Json

end TourPricing
