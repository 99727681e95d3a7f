import BlockScript.Proofs.ConservedKit
import BlockScript.Proofs.Modules
import BlockScript.Proofs.Seclusion
import Mathlib.Tactic.IntervalCases

namespace BlockScript.Proofs.Installation

open Evaluator Extension Addition Heap Holdings Hosting Seclusion

variable {host : Host} {M : List ScopeId} {s : Session} {σ τ : Store} {m : Module} {c : Code}

def spare : Module :=
  ⟨"spare", 3⟩

def twice : Native :=
  ⟨4, "twice", .host "double"⟩

def stocked : Stage :=
  let st := Modules.tooled.session.state
  { ledger := Modules.tooled.ledger.make spare [twice]
    session :=
      { Modules.tooled.session with
        state :=
          { st with
            store := st.store.alloc { bindings := [("twice", .native twice)] }
            marks := 4 } } }

end BlockScript.Proofs.Installation
