namespace BlockScript

abbrev ScopeId := Nat

inductive Builtin
  | fn | letVar | letConst | del | call | exist | param | args | yield | ret | pass | print
  deriving DecidableEq

inductive Impl
  | builtin (b : Builtin)
  | host (key : String)
  deriving DecidableEq

/-- `id` tells two registrations of one implementation apart. -/
structure Native where
  id : Nat
  name : String
  impl : Impl
  deriving DecidableEq

mutual

/-- `memory` is a slot that a value points to, `ref` the source term that evaluates to one. A `mark`
tells apart what need not equal itself: the number `nan`, and what refers to it. -/
inductive Term where
  | null
  | bool (b : Bool)
  | num (n : Int)
  | str (s : String)
  | memory (scope : ScopeId) (name : String)
  | scope (id : ScopeId)
  | float (text : String) (mark : Nat := 0)
  | items (xs : List Term)
  | ref (name : String) (target : Option Term) (mark : Nat := 0)
  | call (name : String) (args : List Term) (block : Option Code)
  | code (c : Code)
  | var (value : Term) (constant : Bool) (name : String) (mark : Nat := 0)
  | block (code : Code) (closure : ScopeId)
  | native (n : Native)

structure Code where
  statements : List Term
  params : List String

end

instance : Inhabited Term := ⟨.null⟩

instance : Inhabited Code := ⟨⟨[], []⟩⟩

namespace Builtin

def all : List Builtin :=
  [args, call, letConst, del, exist, fn, letVar, param, pass, print, ret, yield]

def name : Builtin → String
  | fn => "fn"
  | letVar => "let"
  | letConst => "const"
  | del => "del"
  | call => "call"
  | exist => "exists"
  | param => "p"
  | args => "args"
  | yield => "yield"
  | ret => "return"
  | pass => "pass"
  | print => "print"

end Builtin

namespace Term

def present? : Term → Option Term
  | null => none
  | t => some t

def isCompound : Term → Bool
  | call _ args body => !args.isEmpty || body.isSome
  | _ => false

def same : Term → Term → Bool
  | float a k, float b l => a == b && k == l
  | ref n (some t) k, ref m (some u) l => n == m && k == l && t.same u
  | var v c n k, var w d m l => c == d && n == m && k == l && v.same w
  | _, _ => false

end Term

mutual

def Term.weight : Term → Nat
  | .items xs => weightAll xs + 1
  | .ref _ (some t) _ => t.weight + 1
  | .call _ args none => weightAll args + 1
  | .call _ args (some c) => weightAll args + c.weight + 1
  | .code c => c.weight + 1
  | .var v _ _ _ => v.weight + 1
  | .block c _ => c.weight + 1
  | _ => 0

def Code.weight : Code → Nat
  | ⟨ts, _⟩ => weightAll ts + 1

def weightAll : List Term → Nat
  | [] => 0
  | t :: ts => t.weight + weightAll ts

end

end BlockScript
