import BlockScript.Kit
import BlockScript.Proofs.ConservedRun

namespace BlockScript.Proofs.Extension.Addition

open Eval Kit Heap Holdings

variable {A : Addition} {call : Caller} {i : Invocation}

theorem Serves.yield (h : A.Serves i) : A.value (i.block.getD .null) := by
  cases hb : i.block with
  | none => exact value_null
  | some b => exact h.block b hb

end BlockScript.Proofs.Extension.Addition
