import BlockScript.Evaluator
import BlockScript.Module

namespace BlockScript

structure Session where
  state : State
  root : ScopeId
  global : ScopeId
  modules : List (String × Module) := []

inductive Outcome
  | success (value : Term) (effects : List Effect)
  | failure (message : String) (failure : Failure) (effects : List Effect)

namespace Outcome

def effects : Outcome → List Effect
  | success _ es => es
  | failure _ _ es => es

def errorText (message : String) : String :=
  if message.isEmpty then "Unknown error" else message

def formatError : Outcome → String
  | success _ _ => ""
  | failure message _ _ => errorText message

end Outcome

def Frame.text (σ : Store) (f : Frame) : Except Fault String := do
  let name := if f.name.isEmpty then "<call>" else f.name
  let args := " ".intercalate (← f.args.mapM (σ.source standardWidth 0))
  return if args.isEmpty then "(" ++ name ++ ")" else "(" ++ name ++ " " ++ args ++ ")"

def Failure.text (σ : Store) (e : Failure) : Except Fault String := do
  let fault ← e.fault.told
  let line := fault.heading ++ ": " ++ fault.message
  match e.trace.getD [] with
  | [] => return line
  | frames =>
      return line ++ "\nfscript stacktrace: " ++ " ".intercalate (← frames.mapM (Frame.text σ))

namespace Session

variable (s : Session)

def withStore (σ : Store) : Session :=
  { s with state := { s.state with store := σ } }

def mint (name : String) (impl : Impl) : Native × Session :=
  let id := s.state.marks + 1
  (⟨id, name, impl⟩, { s with state := { s.state with marks := id } })

def mintAll (s : Session) : List (String × Impl) → List Native × Session
  | [] => ([], s)
  | (name, impl) :: rest =>
      let (f, s) := s.mint name impl
      let (fs, s) := s.mintAll rest
      (f :: fs, s)

def newModule (name : String) (natives : List (String × Impl)) : Except Fault (Module × Session) := do
  let m : Module := ⟨name, s.state.store.size⟩
  let (fs, s) := s.mintAll natives
  let σ ← m.registerAll (s.state.store.alloc {}) fs
  return (m, s.withStore σ)

def keepModule (m : Module) : List (String × Module) → List (String × Module)
  | [] => [(m.name, m)]
  | e :: es => if e.1 = m.name then (m.name, m) :: es else e :: keepModule m es

def addModule (m : Module) : Except Fault Session := do
  let σ ← s.state.store.install s.root m.scope
  return { s.withStore σ with modules := keepModule m s.modules }

def bare (limit : Nat) (debugging : Bool) : Session :=
  let scopes := #[{ kind := .root }, { kind := .block false, parent := some 0 }]
  { state := { store := { scopes }, limit, debugging }, root := 0, global := 1 }

def new (limit : Nat) (debugging : Bool) : Except Fault Session := do
  let (m, s) ← (bare limit debugging).newModule "runtime"
    (Builtin.all.map fun b => (b.name, .builtin b))
  s.addModule m

def ready : State :=
  { s.state with
    effects := [], frames := [], depth := 0, history := [], store := s.state.store.reset s.global }

def run (host : Host) (c : Code) : Except Fault Outcome × Session :=
  match Evaluator.runIn (Evaluator.caller host) s.global c s.ready with
  | (.ok v, st) => (.ok (.success v st.effects), { s with state := st })
  | (.error e, st) => match e.text st.store with
      | .ok message =>
          let st := { st with effects := st.effects ++ [⟨["stderr"], message⟩] }
          (.ok (.failure message e st.effects), { s with state := st })
      | .error f => (.error f, { s with state := st })

end Session

end BlockScript
