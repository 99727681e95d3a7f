import BlockScript.Host

namespace BlockScript.Kit

open Eval

def refuse {α : Type} (message : String) : Eval α :=
  fail (.host .badValue message)

def integer? : Term → Option Int
  | .num n => some n
  | _ => none

def sum (ts : List Term) : Eval Term :=
  match ts.mapM integer? with
  | some ns => pure (.num (ns.foldl (· + ·) 0))
  | none => refuse "add expects numbers"

def operands (name : String) : List Term → Eval (Int × Int)
  | [.num a, .num b] => pure (a, b)
  | _ => refuse (name ++ " expects two numbers")

def divide (a b : Int) : Eval Term :=
  if b = 0 then fail (.host .zeroDivision "division by zero") else pure (.num (a.fdiv b))

def equality : List Term → Eval Term
  | [a, b] => do match (← getStore).equal? a b with
      | some r => return .bool r
      | none => fail .endless
  | _ => refuse "eq expects two values"

def memoryArg (name : String) : List Term → Eval (ScopeId × String)
  | .memory s n :: _ => pure (s, n)
  | _ => refuse (name ++ " expects a memory")

def functionOf (s : ScopeId) (n : String) : Eval Term := do
  match ← lookup s n with
  | some (.var v constant m 0) => return .var v constant m (← freshMark)
  | f => return f.getD .null

def faults (message : String) : List (String × Fault) :=
  [("FScriptError", .reported { kind := .error, message }),
    ("TypeMismatch", .reported { kind := .typeMismatch, message }),
    ("MissingBlock", .reported { kind := .missingBlock, message }),
    ("UnresolvedName", .reported { kind := .unresolvedName, message }),
    ("ContextViolation", .reported { kind := .contextViolation, message }),
    ("NumericDomain", .reported { kind := .numericDomain, message }),
    ("ConstantViolation", .reported { kind := .constantViolation, message }),
    ("RecursionLimit", .reported { kind := .recursionLimit, message }),
    ("ValueError", .host .badValue message),
    ("RecursionError", .host .recursion message),
    ("RuntimeError", .host .failure message)]

def messageOf (σ : Store) : Term → Except Fault String
  | .str message => .ok message
  | t => σ.inspect t

def fault? (σ : Store) (name : String) (t : Term) : Option Fault :=
  match messageOf σ t with
  | .ok message => (faults message).lookup name
  | .error reason => ((faults "").lookup name).map (.untold · reason)

def raise : List Term → Eval Term
  | .str name :: t :: _ => do
      match fault? (← getStore) name t with
      | some f => fail f
      | none => refuse "raise expects the name of a fault"
  | _ :: _ :: _ => refuse "raise expects the name of a fault"
  | _ => fail .noPosition

def mixInto (s : ScopeId) : Term → Eval Unit
  | .scope source => updateStore (·.addMixin s source)
  | _ => pure ()

def branch (call : Caller) (i : Invocation) : Eval Term :=
  match i.block with
  | none => refuse "if expects a block"
  | some b => match i.args with
    | .bool true :: args => call b (i.plainly args)
    | _ => pure .null

def each (call : Caller) (i : Invocation) : Eval Term := do
  let σ ← getStore
  match i.first with
  | .scope s => match σ.items? s with
    | some xs =>
        let ys ← xs.zipIdx.mapM fun (x, k) => call (i.block.getD .null) (i.plainly [x, .num k])
        newList ys
    | none => refuse "each expects a list"
  | _ => refuse "each expects a list"

def natives (call : Caller) : List (String × (Invocation → Eval Term)) :=
  [("add", fun i => sum i.args),
    ("sub", fun i => do let (a, b) ← operands "sub" i.args; return .num (a - b)),
    ("mul", fun i => do let (a, b) ← operands "mul" i.args; return .num (a * b)),
    ("div", fun i => do let (a, b) ← operands "div" i.args; divide a b),
    ("lt", fun i => do let (a, b) ← operands "lt" i.args; return .bool (a < b)),
    ("double", fun i => sum (i.args ++ i.args)),
    ("eq", fun i => equality i.args),
    ("if", branch call),
    ("each", each call),
    ("invoke", fun i => call i.first { i with args := i.args.tail }),
    ("func", fun i => do
      let (s, n) ← memoryArg "func" i.args
      functionOf s n),
    ("bind", fun i => do
      let (s, n) ← memoryArg "bind" i.args
      define s n (i.args.getD 1 .null)
      return .null),
    ("raise", fun i => raise i.args),
    ("emit", fun i => do
      emit ⟨["host"], ← displayLine i.args⟩
      return .null),
    ("mixin", fun i => do
      i.scope.forM fun s => i.args.forM (mixInto s)
      return .null),
    ("clear-stack", fun _ => do
      modify fun st => { st with frames := [] }
      return .null),
    ("here", fun i => return i.scope.elim .null .scope),
    ("parent", fun i => do match i.args with
      | .scope s :: _ => return ((← getStore).get s).parent.elim .null .scope
      | _ => refuse "parent expects a scope"),
    ("list", fun i => newList i.args),
    ("box", fun _ => return .scope (← alloc {})),
    ("child", fun i => return .scope (← alloc { parent := i.scope })),
    ("block", fun i => return i.block.getD .null),
    ("float", fun _ => return .float "1.5"),
    ("pylist", fun i => return .items i.args),
    ("depth", fun _ => return .num (← get).depth),
    ("stack", fun _ => do newList ((← get).frames.reverse.map fun f => .str f.name)),
    ("tag", fun i => return .str (← typeName i.first)),
    ("hello", fun _ => return .str "hello")]

def native (call : Caller) (key : String) (i : Invocation) : Eval Term :=
  match (natives call).lookup key with
  | some native => native i
  | none => refuse ("no native is called " ++ key)

def host : Host := { native }

def names : List String :=
  (natives fun _ _ => pure .null).map Prod.fst

end BlockScript.Kit
