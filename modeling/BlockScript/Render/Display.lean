import BlockScript.Render.Source

namespace BlockScript

def standardWidth : Nat := 2

namespace Term

def displayWith (numeral : Int → Except Fault String) (below : ScopeId → Except Fault String)
    (other : Term → Except Fault String) : Term → Except Fault String
  | null => .ok "null"
  | bool b => .ok (if b then "true" else "false")
  | num n => numeral n
  | str s => .ok s
  | memory _ n => .ok ("<" ++ n ++ ">")
  | scope s => below s
  | t => other t

end Term

namespace Store

variable (σ : Store)

def displayWithin (width : Nat) : Nat → List ScopeId → ScopeId → Except Fault String
  | 0, _, _ => .error .endless
  | depth + 1, within, s => match σ.items? s with
      | some xs =>
          if s ∈ within then .error .endless
          else do
            let below := displayWithin width depth (s :: within)
            let texts ← xs.mapM (Term.displayWith σ.numeral below (σ.source width 0))
            return "[" ++ ", ".intercalate texts ++ "]"
      | none => .ok "<scope>"

def display (width : Nat) (t : Term) : Except Fault String :=
  t.displayWith σ.numeral (σ.displayWithin width (σ.size + 1) []) (σ.source width 0)

end Store

end BlockScript
