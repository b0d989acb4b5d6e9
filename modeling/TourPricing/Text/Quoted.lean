import TourPricing.Text.Hidden

namespace TourPricing.Text

def escape (c : Char) : Option (List Char) :=
  match c with
  | '"' => some ['\\', '"']
  | '\\' => some ['\\', '\\']
  | '\t' => some ['\\', 't']
  | '\n' => some ['\\', 'n']
  | '\r' => some ['\\', 'r']
  | '\x00' => some ['\\', '0']
  | _ =>
    if isHidden c then some (['\\', 'u', '\x7b'] ++ Nat.toDigits 16 c.toNat ++ ['\x7d'])
    else none

def quote (s : String) : String :=
  String.ofList ('"' :: s.toList.flatMap (fun c => (escape c).getD [c]) ++ ['"'])

end TourPricing.Text
