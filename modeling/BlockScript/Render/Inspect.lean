import BlockScript.Render.Numeral
import BlockScript.Text.Quoted

namespace BlockScript

namespace Render

def listed (texts : List String) : String :=
  "[" ++ ", ".intercalate texts ++ "]"

def names (ns : List String) : String :=
  listed (ns.map Text.quoted)

end Render

open Render

mutual

def Term.inspectWith (numeral : Int → Except Fault String)
    (below : ScopeId → Except Fault String) : Term → Except Fault String
  | .null => .ok "None"
  | .bool b => .ok (if b then "True" else "False")
  | .num n => numeral n
  | .str s => .ok (Text.quoted s)
  | .memory _ n => .ok ("Memory<" ++ Text.quoted n ++ ">")
  | .scope s => below s
  | .float text _ => .ok text
  | .items xs => return listed (← Term.inspectAllWith numeral below xs)
  | .ref n none _ => .ok ("MemoryRef<" ++ Text.quoted n ++ ">")
  | .ref n (some t) _ =>
      return "MemoryRef<" ++ (← Term.inspectWith numeral below t) ++ "." ++ Text.quoted n ++ ">"
  | .call n args none => do
      let texts ← Term.inspectAllWith numeral below args
      return "Call(" ++ Text.quoted n ++ ", " ++ listed texts ++ ", block=None)"
  | .call n args (some c) => do
      let texts ← Term.inspectAllWith numeral below args
      let body ← Code.inspectWith numeral below c
      return "Call(" ++ Text.quoted n ++ ", " ++ listed texts ++ ", block=" ++ body ++ ")"
  | .code c => Code.inspectWith numeral below c
  | .var v constant n _ =>
      return "<Variable " ++ (if constant then "const" else "let") ++ " " ++ Text.quoted n ++ "="
        ++ (← Term.inspectWith numeral below v) ++ ">"
  | .block c _ => .ok
      ("<Block statements=" ++ toString c.statements.length ++ " params=" ++ names c.params ++ ">")
  | .native f => .ok ("<Native " ++ Text.quoted f.name ++ ">")

def Code.inspectWith (numeral : Int → Except Fault String)
    (below : ScopeId → Except Fault String) : Code → Except Fault String
  | ⟨ts, params⟩ =>
      return "Code(" ++ listed (← Term.inspectAllWith numeral below ts) ++ ", params=" ++ names params
        ++ ")"

def Term.inspectAllWith (numeral : Int → Except Fault String)
    (below : ScopeId → Except Fault String) : List Term → Except Fault (List String)
  | [] => .ok []
  | t :: ts => do
      let text ← Term.inspectWith numeral below t
      return text :: (← Term.inspectAllWith numeral below ts)

end

namespace Scope

def inspect (c : Scope) : String :=
  "<" ++ c.kind.name ++ " bindings=[" ++ ", ".intercalate c.bindings.names ++ "]"
    ++ (c.parent.elim "" fun p => ", parent=#" ++ toString p) ++ ">"

end Scope

namespace Store

variable (σ : Store)

def inspectWithin : Nat → List ScopeId → ScopeId → Except Fault String
  | 0, _, _ => .ok "..."
  | depth + 1, within, s => match σ.items? s with
      | some xs =>
          if s ∈ within then .ok "<ListScope items=[...]>"
          else do
            let texts ← xs.mapM (Term.inspectWith σ.numeral (inspectWithin depth (s :: within)))
            return "<ListScope items=" ++ listed texts ++ ">"
      | none => .ok (σ.get s).inspect

def inspect (t : Term) : Except Fault String :=
  t.inspectWith σ.numeral (σ.inspectWithin (σ.size + 1) [])

def typeName (t : Term) : Except Fault String :=
  match Tag.of? t with
  | some tag => .ok tag.name
  | none => do
      let _ ← σ.inspect t
      return t.foreignName

end Store

end BlockScript
