import BlockScript.Term
import BlockScript.Text.Numeral

namespace BlockScript

inductive Magnitude
  | whole (n : Int)
  | other (text : String)
  deriving DecidableEq

namespace Magnitude

def nearest53 (n : Nat) : Nat :=
  let excess := n.log2 + 1 - 53
  let unit := Nat.pow 2 excess
  let q := n / unit
  let r := n % unit
  if 2 * r < unit ∨ (2 * r = unit ∧ q % 2 = 0) then q * unit else (q + 1) * unit

def scaled? (digits places : Nat) (exponent : Int) : Option Nat :=
  let shift := exponent - places
  if 0 ≤ shift then some (digits * Nat.pow 10 shift.toNat)
  else
    let unit := Nat.pow 10 (-shift).toNat
    if digits % unit = 0 then some (digits / unit) else none

def decimal? (cs : List Char) : Option Nat := do
  let (mantissa, power) := cs.span (· != 'e')
  let (units, fraction) := mantissa.span (· != '.')
  let exponent ← if power.isEmpty then some 0 else Text.integer? (String.ofList (power.drop 1))
  let digits ← Text.digitsOf? (units ++ fraction.drop 1)
  scaled? (Text.ofDigits digits) (fraction.length - 1) exponent

def ofText (text : String) : Magnitude :=
  match text.toList with
  | '-' :: cs => match decimal? cs with
    | some n => whole (-(nearest53 n : Int))
    | none => other text
  | cs => match decimal? cs with
    | some n => whole (nearest53 n)
    | none => other text

end Magnitude

def Term.magnitude? : Term → Option Magnitude
  | .bool b => some (.whole b.toInt)
  | .num n => some (.whole n)
  | .float text _ => if text = "nan" then none else some (.ofText text)
  | _ => none

end BlockScript
