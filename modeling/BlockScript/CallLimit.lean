import BlockScript.Fault
import BlockScript.Text.Numeral

namespace BlockScript.CallLimit

def standard : Nat := 100

def ofSetting : Option String → Nat
  | none => standard
  | some text => match Text.integer? text with
      | some n => if 0 < n then n.toNat else standard
      | none => standard

def choose (given : Option Int) (setting : Option String) : Except Fault Nat :=
  match given with
  | none => .ok (ofSetting setting)
  | some n => if 0 < n then .ok n.toNat else .error (.limitNotPositive n)

end BlockScript.CallLimit
