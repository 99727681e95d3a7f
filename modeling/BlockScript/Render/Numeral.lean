import BlockScript.Fault
import BlockScript.Store.Basic

namespace BlockScript.Store

variable (σ : Store)

def numeral (n : Int) : Except Fault String :=
  if σ.digitLimit.all ((toString n.natAbs).length ≤ ·) then .ok (toString n)
  else .error (.numberTooLong (σ.digitLimit.getD 0))

end BlockScript.Store
