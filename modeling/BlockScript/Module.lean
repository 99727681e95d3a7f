import BlockScript.Render.Inspect
import BlockScript.Store.Mixin

namespace BlockScript

structure Module where
  name : String
  scope : ScopeId

namespace Module

variable (m : Module) (σ : Store)

def names : List String :=
  (σ.get m.scope).bindings.names.mergeSort (fun a b => a ≤ b)

def inspect : String :=
  "<Module " ++ Text.quoted m.name ++ " functions=" ++ Render.names (m.names σ) ++ ">"

def register (f : Native) : Except Fault Store :=
  σ.define m.scope f.name (.native f)

def registerAll (m : Module) (σ : Store) : List Native → Except Fault Store
  | [] => .ok σ
  | f :: fs => do registerAll m (← m.register σ f) fs

def exposedName? (member : String) : Option String :=
  match member.toList with
  | '_' :: '_' :: _ => none
  | '_' :: cs => some (String.ofList (cs.map fun c => if c = '_' then '-' else c))
  | _ => none

def latest : List (String × Option Impl) → List (String × Option Impl)
  | [] => []
  | e :: es => if es.any (·.1 == e.1) then latest es else e :: latest es

def exposed (members : List (String × Option Impl)) : List (String × Impl) :=
  ((latest members).mergeSort fun a b => a.1 ≤ b.1).filterMap fun a => do
    return (← exposedName? a.1, ← a.2)

end Module

end BlockScript
