import BlockScript.Bindings
import BlockScript.Text.Numeral

namespace BlockScript

structure Activation where
  args : List Term
  yieldBlock : Option Term
  site : Option ScopeId

inductive ScopeKind
  | plain
  | root
  | block (broken : Bool)
  | call (activation : Activation)
  | list (items : List Term)

instance : Inhabited ScopeKind := ⟨.plain⟩

structure Scope where
  kind : ScopeKind := .plain
  bindings : Bindings := []
  parent : Option ScopeId := none
  mixins : List ScopeId := []
  returned : Option Term := none
  /-- The names whose entries have been removed, the latest first. It is there to be told: no step
  depends on it. -/
  removed : List String := []
  deriving Inhabited

/-- Numerals of more than `digitLimit` digits are neither read as positions in lists nor written. -/
structure Store where
  scopes : Array Scope := #[]
  digitLimit : Option Nat := some Text.maxDigits

namespace ScopeKind

def items? : ScopeKind → Option (List Term)
  | list xs => some xs
  | _ => none

def activation? : ScopeKind → Option Activation
  | call a => some a
  | _ => none

def broken? : ScopeKind → Option Bool
  | block b => some b
  | _ => none

def name : ScopeKind → String
  | plain => "Scope"
  | root => "RootScope"
  | block _ => "BlockScope"
  | call _ => "CallScope"
  | list _ => "ListScope"

end ScopeKind

namespace Store

variable (σ : Store) (s : ScopeId)

def size : Nat :=
  σ.scopes.size

def get : Scope :=
  σ.scopes[s]?.getD {}

def alloc (c : Scope) : Store :=
  { σ with scopes := σ.scopes.push c }

def modify (f : Scope → Scope) : Store :=
  { σ with scopes := σ.scopes.modify s f }

def items? : Option (List Term) :=
  (σ.get s).kind.items?

def setItems (xs : List Term) : Store :=
  σ.modify s fun c => { c with kind := .list xs }

def setBinding (n : String) (t : Term) : Store :=
  σ.modify s fun c => { c with bindings := c.bindings.set n t }

def eraseBinding (n : String) : Store :=
  σ.modify s fun c => { c with bindings := c.bindings.erase n, removed := n :: c.removed }

def setReturned (t : Term) : Store :=
  σ.modify s fun c => { c with returned := some t }

def breakOff : Store :=
  σ.modify s fun c => match c.kind with
    | .block _ => { c with kind := .block true }
    | _ => c

def reset : Store :=
  σ.modify s fun c => match c.kind with
    | .block _ => { c with kind := .block false, returned := none }
    | _ => c

def isBroken : Bool :=
  (σ.get s).kind.broken?.getD false

variable {σ s}

@[simp] theorem digitLimit_alloc (c : Scope) : (σ.alloc c).digitLimit = σ.digitLimit := rfl

@[simp] theorem digitLimit_modify (f : Scope → Scope) :
    (σ.modify s f).digitLimit = σ.digitLimit := rfl

@[simp] theorem size_alloc (c : Scope) : (σ.alloc c).size = σ.size + 1 := by
  simp [size, alloc]

@[simp] theorem size_modify (f : Scope → Scope) : (σ.modify s f).size = σ.size := by
  simp [size, modify]

theorem get_alloc (c : Scope) (t : ScopeId) :
    (σ.alloc c).get t = if t = σ.size then c else σ.get t := by
  by_cases h : t = σ.scopes.size <;> simp [get, alloc, size, Array.getElem?_push, h]

theorem get_modify (f : Scope → Scope) (t : ScopeId) :
    (σ.modify s f).get t = if t = s ∧ s < σ.size then f (σ.get t) else σ.get t := by
  by_cases h : s = t
  · subst h
    by_cases hs : s < σ.scopes.size
    · simp [get, modify, size, hs, Array.getElem_modify_self]
    · simp [get, modify, size, hs]
  · simp [get, modify, Array.getElem?_modify, h, Ne.symm h]

end Store

end BlockScript
