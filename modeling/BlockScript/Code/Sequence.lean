import BlockScript.Equality
import BlockScript.Fault

namespace BlockScript.Code

def position? (size : Nat) (i : Int) : Option Nat :=
  let k := if i < 0 then i + size else i
  if 0 ≤ k ∧ k < size then some k.toNat else none

def boundary (size : Nat) (i : Int) : Nat :=
  min size (if i < 0 then i + size else i).toNat

def noPositionToWrite : Fault := .host .badIndex "list assignment index out of range"

def noElement : Fault := .host .badValue ""

variable (c : Code) (i : Int) (t : Term) (σ : Store)

def withStatements (ts : List Term) : Code :=
  { c with statements := ts }

def get : Except Fault Term :=
  match (position? c.statements.length i).bind (c.statements[·]?) with
  | some t => .ok t
  | none => .error .noPosition

def set : Except Fault Code :=
  match position? c.statements.length i with
  | some k => .ok (c.withStatements (c.statements.set k t))
  | none => .error noPositionToWrite

def erase : Except Fault Code :=
  match position? c.statements.length i with
  | some k => .ok (c.withStatements (c.statements.eraseIdx k))
  | none => .error noPositionToWrite

def slice (start stop : Option Int) : List Term :=
  let n := c.statements.length
  let a := start.elim 0 (boundary n)
  let b := stop.elim n (boundary n)
  (c.statements.take b).drop a

def insert : Code :=
  c.withStatements (c.statements.insertIdx (boundary c.statements.length i) t)

def append : Code :=
  c.withStatements (c.statements ++ [t])

def extend (ts : List Term) : Code :=
  c.withStatements (c.statements ++ ts)

def reverse : Code :=
  c.withStatements c.statements.reverse

def clear : Code :=
  c.withStatements []

def pop : Except Fault (Term × Code) := do
  return (← c.get i, ← c.erase i)

def hits : List Term → Except Fault (List Bool)
  | [] => .ok []
  | x :: xs => match itemEqual σ.equal? x t with
    | some b => return b :: (← hits xs)
    | none => .error .endless

def indexIn : List Term → Except Fault Nat
  | [] => .error noElement
  | x :: xs => match itemEqual σ.equal? x t with
    | some true => .ok 0
    | some false => return (← indexIn xs) + 1
    | none => .error .endless

def indexOf : Except Fault Nat :=
  indexIn t σ c.statements

def contains : Except Fault Bool :=
  match σ.contains? c.statements t with
  | some b => .ok b
  | none => .error .endless

def count : Except Fault Nat :=
  return (← hits t σ c.statements).count true

def remove : Except Fault Code := do
  c.erase (← c.indexOf t σ)

end BlockScript.Code
