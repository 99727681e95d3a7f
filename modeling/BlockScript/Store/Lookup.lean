import BlockScript.Fault
import BlockScript.Store.Basic

namespace BlockScript.Store

variable (σ : Store)

def nexts (s : ScopeId) : List ScopeId :=
  (σ.get s).mixins ++ (σ.get s).parent.toList

def owns (s : ScopeId) (n : String) : Bool :=
  (σ.get s).bindings.owns n

/-- `within` are the scopes that asked this one, the nearest first; none of them owns the name. -/
def ownerWithin (n : String) : Nat → List ScopeId → ScopeId → Except Fault (Option ScopeId)
  | 0, _, _ => .error .endless
  | steps + 1, within, s =>
      if σ.owns s n then .ok (some s)
      else if s ∈ within then .error .endless
      else (σ.nexts s).findSomeM? (ownerWithin n steps (s :: within))

def owner? (s : ScopeId) (n : String) : Except Fault (Option ScopeId) :=
  -- a path of more scopes than there are comes to one of them twice
  σ.ownerWithin n (σ.size + 1) [] s

def chainWithin : Nat → ScopeId → List ScopeId
  | 0, _ => []
  | steps + 1, s => s :: (match (σ.get s).parent with
      | some p => chainWithin steps p
      | none => [])

def chain (s : ScopeId) : List ScopeId :=
  -- parents are older than their children, so there are at most `s` of them
  σ.chainWithin (s + 1) s

def isCall (s : ScopeId) : Bool :=
  (σ.get s).kind.activation?.isSome

def settlesCall (s : ScopeId) : Bool :=
  match (σ.get s).kind with
  | .call _ | .root | .list _ => true
  | _ => false

def callScope? (s : ScopeId) : Option ScopeId :=
  ((σ.chain s).find? σ.settlesCall).filter σ.isCall

end BlockScript.Store
