import BlockScript.Builtin

namespace BlockScript

open Eval

namespace Evaluator

abbrev BlockCaller := Code → ScopeId → Invocation → Eval Term

variable (call : Caller) (s : ScopeId)

mutual

def evalTerm (t : Term) : Eval Term := do
  visit t
  match t with
  | .null | .bool _ | .num _ | .str _ => return t
  | .ref n none _ => return .memory s n
  | .ref n (some target) _ => match ← evalTerm target with
      | .scope o => return .memory o n
      | v => fail (.notAScope n (← typeName v))
  | .call n args block => match ← lookup s n with
      | none => fail (.unresolved n)
      | some f =>
          let vs ← evalArgs args
          underFrame ⟨n, f, vs, t⟩
            (call f { args := vs, block := block.map (.block · s), scope := some s })
  | .code _ => fail .blockAsArgument
  | _ => fail (.cannotEvaluate (← inspect t) (← className t))
termination_by structural t

def evalArgs : List Term → Eval (List Term)
  | [] => return []
  | t :: ts => do
      let v ← evalTerm t
      return v :: (← evalArgs ts)

end

def runStatements (last : Term) : List Term → Eval Term
  | [] => return last
  | t :: ts => do
      if ← isBroken s then return last
      else runStatements (← evalTerm call s t) ts

def runIn (c : Code) : Eval Term := do
  log ("run " ++ toString c.statements.length ++ " statements")
  let last ← runStatements call s .null c.statements
  return (← returned s).getD last

def run (c : Code) (parent : ScopeId) : Eval Term := do
  let s ← alloc { kind := .block false, parent := some parent }
  runIn call s c

def eval (t : Term) : Eval Term := do
  visit t
  match t with
  | .code c => run call c s
  | _ => evalTerm call s t

def runImpl (host : Host) : Impl → Invocation → Eval Term
  | .builtin b, i => b.run call i
  | .host key, i => host.native call key i

variable (host : Host)

def announce (f : Term) (i : Invocation) : Eval Unit := do
  record (.called f i)
  log ("Evaluator.call " ++ (← className f) ++ " argc " ++ toString i.args.length ++ " yield "
    ++ (if i.block.isSome then "True" else "False"))

def dispatch (enter : BlockCaller) : Nat → Caller
  | 0, _, _ => fail .endless
  | depth + 1, f, i => do
      announce f i
      match f with
      | .var v _ _ _ => return v
      | .block c closure => enter c closure i
      | .native g => runImpl (dispatch enter depth) host g.impl i
      | _ => fail (.notCallable (← inspect f) (← className f))

/-- The builtins' callbacks get lighter one by one, and a lightest one calls no native. -/
def callWith (enter : BlockCaller) (f : Term) (i : Invocation) : Eval Term :=
  dispatch host enter (i.weight + host.reach + 2) f i

def bindParams (s : ScopeId) : List (String × Term) → Eval Unit
  | [] => return ()
  | (p, v) :: rest => do
      define s p (.var v false p (← freshMark))
      bindParams s rest

/-- Runs a block in a call scope of its own, unless the depth has reached the limit. Arguments
without a parameter can still be asked for by position. There is room for `room` levels. -/
def enterBlock : Nat → BlockCaller
  | 0, _, _, _ => fail .endless
  | room + 1, c, closure, i => do
      let st ← get
      if st.limit ≤ st.depth then fail (.depthExceeded st.limit st.depth)
      else
        let s ← alloc { kind := .call ⟨i.args, i.block, i.scope⟩, parent := some closure }
        bindParams s (c.params.zip i.args)
        log ("Call-scope params " ++ Render.names c.params ++ " argc " ++ toString i.args.length)
        deeper (run (callWith host (enterBlock room)) c s)

/-- The evaluator at the depth that the state has reached. A call is refused at the limit, so the
levels up to it are one more than are left. -/
def caller (f : Term) (i : Invocation) : Eval Term := do
  let st ← get
  callWith host (enterBlock host (st.limit - st.depth + host.reach + 1)) f i

end Evaluator

inductive Request
  | eval (t : Term) (s : ScopeId)
  | run (c : Code) (s : ScopeId)
  | runIn (c : Code) (s : ScopeId)
  | call (f : Term) (i : Invocation)

namespace Request

def askedOf (call : Caller) : Request → Eval Term
  | eval t s => Evaluator.eval call s t
  | run c s => Evaluator.run call c s
  | runIn c s => Evaluator.runIn call s c
  | .call f i => call f i

def perform (host : Host) (q : Request) : Eval Term :=
  q.askedOf (Evaluator.caller host)

end Request

end BlockScript
