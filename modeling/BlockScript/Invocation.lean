import BlockScript.Term

namespace BlockScript

structure Invocation where
  args : List Term := []
  block : Option Term := none
  scope : Option ScopeId := none

namespace Invocation

variable (i : Invocation)

/-- A native that calls back does so with fewer arguments, without a block where there was one and
with at most two arguments, or from an older scope; each makes this number smaller. -/
def weight : Nat :=
  i.args.length + (if i.block.isSome then 3 else 0) + i.scope.elim 0 (· + 1)

def first : Term :=
  i.args.headD .null

def plainly (args : List Term) : Invocation :=
  { args, scope := i.scope }

end Invocation

end BlockScript
