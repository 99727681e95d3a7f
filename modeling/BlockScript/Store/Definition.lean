import BlockScript.Fault
import BlockScript.SlotName
import BlockScript.Store.Lookup

namespace BlockScript

def Store.className (σ : Store) : Term → String
  | .null => "NoneType"
  | .bool _ => "bool"
  | .num _ => "int"
  | .str _ => "str"
  | .memory _ _ => "Memory"
  | .scope s => (σ.get s).kind.name
  | t => t.foreignName

namespace Store

variable (σ : Store) (s : ScopeId) (n : String)

def lookupBinding : Except Fault (Option Term) := do
  let owner ← σ.owner? s n
  return owner.bind fun o => ((σ.get o).bindings.get? n).bind Term.present?

def bindsBinding : Except Fault Bool :=
  return (← σ.owner? s n).isSome

def defineBinding (f : Term) : Except Fault Store :=
  if (σ.get s).bindings.isConstant n then .error (.constantRedefined n)
  else .ok (σ.setBinding s n f)

/-- Removes the entry of the nearest owner among the parents; mixins are never touched. -/
def removeBinding : Store :=
  match (σ.chain s).find? fun o => σ.owns o n with
  | some o => σ.eraseBinding o n
  | none => σ

def lookup : Except Fault (Option Term) :=
  match σ.items? s with
  | none => σ.lookupBinding s n
  | some xs => match SlotName.ofName σ.digitLimit n with
    | .length => .ok (some (.var (.num xs.length) true n))
    | .index i => .ok (xs[i]?.map fun x => .var x false n)
    | .overlong d => .error (.numeralTooLong (σ.digitLimit.getD 0) d)
    | .binding => σ.lookupBinding s n

def binds : Except Fault Bool :=
  match σ.items? s with
  | none => σ.bindsBinding s n
  | some xs => match SlotName.ofName σ.digitLimit n with
    | .length => .ok true
    | .index i => .ok (i < xs.length)
    | .overlong d => .error (.numeralTooLong (σ.digitLimit.getD 0) d)
    | .binding => σ.bindsBinding s n

def defineItem (xs : List Term) (i : Nat) : Term → Except Fault Store
  | .var v _ _ _ =>
      if i < xs.length then .ok (σ.setItems s (xs.set i v))
      else if i = xs.length then .ok (σ.setItems s (xs ++ [v]))
      else .error (.slotOutOfRange i xs.length)
  | f => .error (.slotNeedsVariable n (σ.className f))

def define (f : Term) : Except Fault Store :=
  match σ.items? s with
  | none => σ.defineBinding s n f
  | some xs => match SlotName.ofName σ.digitLimit n with
    | .length => .error (.constantRedefined n)
    | .index i => σ.defineItem s n xs i f
    | .overlong d => .error (.numeralTooLong (σ.digitLimit.getD 0) d)
    | .binding => σ.defineBinding s n f

/-- Here `length` is a name like any other: it is looked for among the bindings. -/
def remove : Except Fault Store :=
  match σ.items? s with
  | none => .ok (σ.removeBinding s n)
  | some xs => match SlotName.ofName σ.digitLimit n with
    | .index i => .ok (σ.setItems s (xs.eraseIdx i))
    | .overlong d => .error (.numeralTooLong (σ.digitLimit.getD 0) d)
    | .length | .binding => .ok (σ.removeBinding s n)

end Store

end BlockScript
