import BlockScript.Machine

namespace BlockScript

abbrev Caller := Term → Invocation → Eval Term

structure Host where
  /-- What the host's natives do, by key. They are given the evaluator to call back, with which they
  can evaluate terms and run code as well. -/
  native : Caller → String → Invocation → Eval Term
  /-- How far calls may nest beyond what scripts can make them nest, before the host runs out of
  room. -/
  reach : Nat := 0

end BlockScript
