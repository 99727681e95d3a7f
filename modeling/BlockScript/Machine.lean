import BlockScript.Invocation
import BlockScript.Render.Display
import BlockScript.Render.Inspect
import BlockScript.Store.Mixin

namespace BlockScript

structure Frame where
  name : String
  function : Term
  args : List Term
  site : Term

structure Effect where
  topics : List String
  message : String
  deriving DecidableEq

/-- `trace` is the chain of calls in progress when the fault was met, outermost first; it is absent
as long as the fault has not left a call. -/
structure Failure where
  fault : Fault
  trace : Option (List Frame) := none

inductive Event
  | visited (t : Term)
  | called (function : Term) (invocation : Invocation)
  | entered
  | left
  | failed (fault : Fault)

structure Moment where
  event : Event
  depth : Nat
  frames : List Frame

structure State where
  store : Store := {}
  frames : List Frame := []
  depth : Nat := 0
  limit : Nat
  node : Term := .null
  effects : List Effect := []
  output : String := ""
  debugging : Bool := false
  debug : String := ""
  marks : Nat := 0
  /-- What has happened, the latest first. It is there to be told: no step depends on it. -/
  history : List Moment := []

namespace State

variable (st : State)

def note (e : Event) : State :=
  { st with history := ⟨e, st.depth, st.frames⟩ :: st.history }

def push (frame : Frame) : State :=
  { st with frames := frame :: st.frames }

def pop : State :=
  { st with frames := st.frames.tail }

def enter : State :=
  { st with depth := st.depth + 1 }.note .entered

def leave : State :=
  { st with depth := st.depth - 1 }.note .left

end State

abbrev Eval (α : Type) := ExceptT Failure (StateM State) α

namespace Eval

variable {α : Type}

def record (e : Event) : Eval Unit :=
  modify (·.note e)

def fail (f : Fault) : Eval α := do
  record (.failed f)
  throw ⟨f, none⟩

def ofExcept : Except Fault α → Eval α
  | .ok a => pure a
  | .error f => fail f

def attempt (m : Eval α) : Eval (Except Failure α) :=
  ExceptT.mk do return .ok (← m.run)

def settle : Except Failure α → Eval α
  | .ok a => pure a
  | .error e => throw e

def closedBy (m : Eval α) (last : Eval Unit) : Eval α := do
  let r ← attempt m
  last
  settle r

def freshMark : Eval Nat := do
  modify fun st => { st with marks := st.marks + 1 }
  return (← get).marks

def getStore : Eval Store :=
  return (← get).store

def modifyStore (f : Store → Store) : Eval Unit :=
  modify fun st => { st with store := f st.store }

def updateStore (f : Store → Except Fault Store) : Eval Unit := do
  let σ ← ofExcept (f (← getStore))
  modifyStore fun _ => σ

def alloc (c : Scope) : Eval ScopeId :=
  modifyGet fun st => (st.store.size, { st with store := st.store.alloc c })

def lookup (s : ScopeId) (n : String) : Eval (Option Term) := do
  ofExcept ((← getStore).lookup s n)

def binds (s : ScopeId) (n : String) : Eval Bool := do
  ofExcept ((← getStore).binds s n)

def define (s : ScopeId) (n : String) (f : Term) : Eval Unit :=
  updateStore (·.define s n f)

def remove (s : ScopeId) (n : String) : Eval Unit :=
  updateStore (·.remove s n)

def returned (s : ScopeId) : Eval (Option Term) :=
  return ((← getStore).get s).returned

def setReturned (s : ScopeId) (t : Term) : Eval Unit :=
  modifyStore (·.setReturned s t)

def isBroken (s : ScopeId) : Eval Bool :=
  return (← getStore).isBroken s

def breakOff (s : ScopeId) : Eval Unit :=
  modifyStore (·.breakOff s)

def numeral (n : Int) : Eval String := do
  ofExcept ((← getStore).numeral n)

def source (t : Term) : Eval String := do
  ofExcept ((← getStore).source standardWidth 0 t)

def inspect (t : Term) : Eval String := do
  ofExcept ((← getStore).inspect t)

def typeName (t : Term) : Eval String := do
  ofExcept ((← getStore).typeName t)

def className (t : Term) : Eval String :=
  return (← getStore).className t

def newList (xs : List Term) : Eval Term :=
  return .scope (← alloc { kind := .list xs })

def log (line : String) : Eval Unit :=
  modify fun st => if st.debugging then { st with debug := st.debug ++ "[DBG] " ++ line ++ "\n" } else st

def write (line : String) : Eval Unit :=
  modify fun st => { st with output := st.output ++ line ++ "\n" }

def emit (e : Effect) : Eval Unit :=
  modify fun st => { st with effects := st.effects ++ [e] }

def visit (t : Term) : Eval Unit := do
  modify fun st => { st with node := t }
  record (.visited t)

def displayLine (ts : List Term) : Eval String := do
  let σ ← getStore
  return " ".intercalate (← ofExcept (ts.mapM (σ.display standardWidth)))

def traced (m : Eval α) : Eval α := do
  match ← attempt m with
  | .ok a => return a
  | .error e => throw { e with trace := some (e.trace.getD (← get).frames.reverse) }

def underFrame (frame : Frame) (m : Eval α) : Eval α := do
  modify (·.push frame)
  closedBy (traced m) (modify State.pop)

/-- Running out of room ends a block's run as a fault of the script, told at the depth of the
innermost block; any other failure passes. -/
def bounded (m : Eval α) : Eval α := do
  match ← attempt m with
  | .ok a => return a
  | .error e =>
      if e.fault.isExhaustion then
        let st ← get
        fail (.stackExhausted st.limit st.depth)
      else throw e

def deeper (m : Eval α) : Eval α := do
  modify State.enter
  closedBy (bounded m) (modify State.leave)

end Eval

end BlockScript
