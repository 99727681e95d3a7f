import BlockScript.Render.Numeral
import BlockScript.Text.Blank

namespace BlockScript

namespace Render

def parenthesised (t : Term) (text : String) : String :=
  if t.isCompound then "(" ++ text ++ ")" else text

def header (params : List String) : String :=
  if params.isEmpty then "" else "|" ++ " ".intercalate params ++ "| "

def openHeader (params : List String) : String :=
  if params.isEmpty then "\x7b" else "\x7b |" ++ " ".intercalate params ++ "|"

def breaks (text : String) : Bool :=
  text.toList.contains '\n'

def margin (width : Nat) (level : Int) : String :=
  Text.spaces (width * level.toNat)

def inline (params : List String) (text : String) : String :=
  "\x7b " ++ header params ++ text ++ " \x7d"

def multiline (width : Nat) (level : Int) (params : List String) (lines : List String) : String :=
  openHeader params ++ "\n"
    ++ "\n".intercalate (lines.map fun line => margin width (level + 1) ++ line)
    ++ "\n" ++ margin width level ++ "\x7d"

end Render

open Render

mutual

def Term.sourceWith (numeral : Int → Except Fault String) (width : Nat)
    (below : ScopeId → Int → Except Fault String) : Term → Int → Except Fault String
  | .null, _ => .ok "null"
  | .bool b, _ => .ok (if b then "true" else "false")
  | .num n, _ => numeral n
  | .str s, _ => .ok ("\"" ++ s ++ "\"")
  | .memory _ n, _ => .ok ("<" ++ n ++ ">")
  | .scope s, level => below s level
  | .float text _, _ => .ok text
  | .items xs, level => return " ".intercalate (← Term.argsWith numeral width below xs level)
  | .ref n none _, _ => .ok ("<" ++ n ++ ">")
  | .ref n (some t) _, level =>
      return parenthesised t (← Term.sourceWith numeral width below t level) ++ ".<" ++ n ++ ">"
  | .call n args none, level =>
      return " ".intercalate (n :: (← Term.argsWith numeral width below args level))
  | .call n args (some c), level => do
      let texts ← Term.argsWith numeral width below args level
      return " ".intercalate (n :: texts ++ [← Code.sourceWith numeral width below c level])
  | .code c, level => Code.sourceWith numeral width below c level
  | .var v _ _ _, level => Term.sourceWith numeral width below v level
  | .block c _, level => Code.sourceWith numeral width below c level
  | .native f, _ => .ok f.name

def Code.sourceWith (numeral : Int → Except Fault String) (width : Nat)
    (below : ScopeId → Int → Except Fault String) : Code → Int → Except Fault String
  | ⟨[], params⟩, _ => .ok ("\x7b " ++ header params ++ "\x7d")
  | ⟨[t], params⟩, level => do
      let text ← Term.sourceWith numeral width below t level
      if breaks text then
        return multiline width level params [← Term.sourceWith numeral width below t (level + 1)]
      else return inline params text
  | ⟨t :: u :: ts, params⟩, level => do
      let first ← Term.sourceWith numeral width below t (level + 1)
      let second ← Term.sourceWith numeral width below u (level + 1)
      return multiline width level params
        (first :: second :: (← Term.linesWith numeral width below ts (level + 1)))

def Term.argsWith (numeral : Int → Except Fault String) (width : Nat)
    (below : ScopeId → Int → Except Fault String) :
    List Term → Int → Except Fault (List String)
  | [], _ => .ok []
  | t :: ts, level => do
      let text ← Term.sourceWith numeral width below t level
      return parenthesised t text :: (← Term.argsWith numeral width below ts level)

def Term.linesWith (numeral : Int → Except Fault String) (width : Nat)
    (below : ScopeId → Int → Except Fault String) :
    List Term → Int → Except Fault (List String)
  | [], _ => .ok []
  | t :: ts, level => do
      let text ← Term.sourceWith numeral width below t level
      return text :: (← Term.linesWith numeral width below ts level)

end

section Lists

variable {numeral : Int → Except Fault String} {width : Nat}
  {below : ScopeId → Int → Except Fault String} (ts : List Term) (level : Int)

theorem Term.argsWith_eq : Term.argsWith numeral width below ts level =
    ts.mapM fun t => parenthesised t <$> t.sourceWith numeral width below level := by
  induction ts with
  | nil => rw [argsWith, List.mapM_nil]; rfl
  | cons t ts ih =>
      rw [argsWith, List.mapM_cons, ih]
      cases t.sourceWith numeral width below level <;> rfl

theorem Term.linesWith_eq : Term.linesWith numeral width below ts level =
    ts.mapM (·.sourceWith numeral width below level) := by
  induction ts with
  | nil => rw [linesWith, List.mapM_nil]; rfl
  | cons t ts ih => rw [linesWith, List.mapM_cons, ih]

end Lists

namespace Store

variable (σ : Store)

/-- The text of a scope; `within` are the lists whose items are being written, innermost first. -/
def sourceWithin (width : Nat) : Nat → List ScopeId → ScopeId → Int → Except Fault String
  | 0, _, _, _ => .error .endless
  | depth + 1, within, s, level => match σ.items? s with
      | some xs =>
          if s ∈ within then .error .endless
          else do
            let below := sourceWithin width depth (s :: within)
            let texts ← xs.mapM fun x => x.sourceWith σ.numeral width below level
            return "[" ++ ", ".intercalate texts ++ "]"
      | none => .ok "<scope>"

def source (width : Nat) (level : Int) (t : Term) : Except Fault String :=
  -- lists nested deeper than there are scopes contain themselves
  t.sourceWith σ.numeral width (σ.sourceWithin width (σ.size + 1) []) level

end Store

end BlockScript
