import BlockScript.Tag

namespace BlockScript

inductive Kind
  | error | typeMismatch | missingBlock | unresolvedName | contextViolation | numericDomain
  | constantViolation | recursionLimit
  deriving DecidableEq

def Kind.label : Kind → String
  | error => "Error"
  | typeMismatch => "TypeMismatch"
  | missingBlock => "MissingBlock"
  | unresolvedName => "UnresolvedName"
  | contextViolation => "ContextViolation"
  | numericDomain => "NumericDomain"
  | constantViolation => "ConstantViolation"
  | recursionLimit => "RecursionLimit"

structure Report where
  kind : Kind
  message : String
  operator : Option String := none
  expected : Option String := none
  actual : Option String := none
  name : Option String := none
  deriving DecidableEq

inductive HostFault
  | badValue | badIndex | failure | recursion | zeroDivision
  deriving DecidableEq

inductive Fault
  | notAValue (shown className : String)
  | unknownTag (shown : String)
  | constantRedefined (name : String)
  | slotNeedsVariable (name className : String)
  | slotOutOfRange (index size : Nat)
  | blockAsArgument
  | cannotEvaluate (shown className : String)
  | notAScope (name actual : String)
  | unresolved (name : String)
  | depthExceeded (limit depth : Nat)
  | stackExhausted (limit depth : Nat)
  | notCallable (shown className : String)
  | expectedMemory (operator : Builtin) (actual : String)
  | missingBlock (operator : Builtin)
  | outsideCall (operator : Builtin)
  | unboundTarget (name : String)
  | indexNotInteger (actual : String)
  | tagNotString (actual : String)
  | negativeIndex (shown : String)
  | argumentMismatch (tag : Tag) (actual shown : String)
  | noYieldBlock
  | reported (report : Report)
  | host (cause : HostFault) (message : String)
  /-- `fault` with a message that cannot be written, which is found out in telling it. -/
  | untold (fault reason : Fault)
  deriving DecidableEq

namespace Builtin

def role : Builtin → String
  | fn => "name of function"
  | letVar => "name of variable"
  | letConst => "name of constant"
  | _ => "target"

def defines : Builtin → String
  | fn => "a function"
  | letVar => "a variable"
  | letConst => "a constant"
  | _ => "a value"

end Builtin

namespace Fault

def endless : Fault :=
  .host .recursion "maximum recursion depth exceeded"

def numeralTooLong (limit digits : Nat) : Fault :=
  .host .badValue ("Exceeds the limit (" ++ toString limit
    ++ " digits) for integer string conversion: value has " ++ toString digits
    ++ " digits; use sys.set_int_max_str_digits() to increase the limit")

def numberTooLong (limit : Nat) : Fault :=
  .host .badValue ("Exceeds the limit (" ++ toString limit
    ++ " digits) for integer string conversion"
    ++ "; use sys.set_int_max_str_digits() to increase the limit")

def noPosition : Fault :=
  .host .badIndex "list index out of range"

def limitNotPositive (n : Int) : Fault :=
  .host .badValue ("max_call_depth must be positive, got " ++ toString n)

def told : Fault → Except Fault Fault
  | untold _ reason => .error reason
  | f => .ok f

def isExhaustion : Fault → Bool
  | host .recursion _ => true
  | untold f _ => f.isExhaustion
  | _ => false

def tagNames : String :=
  ", ".intercalate (Tag.all.map Tag.name)

def report? : Fault → Option Report
  | notAValue shown className => some
      { kind := .typeMismatch, message := "Not an fscript value: " ++ shown ++ "."
        expected := "value", actual := className }
  | unknownTag shown => some
      { kind := .typeMismatch
        message := "Expected a type name (" ++ tagNames ++ "), but instead got " ++ shown ++ "."
        expected := "type name", actual := shown }
  | constantRedefined name => some
      { kind := .constantViolation, message := "Cannot redefine constant '" ++ name ++ "'."
        expected := "non-constant binding", actual := "constant", name := name }
  | slotNeedsVariable name className => some
      { kind := .typeMismatch
        message := "Expected a value for list slot " ++ name ++ ", but instead got " ++ className ++ "."
        expected := "Variable", actual := className }
  | slotOutOfRange index size => some
      { kind := .numericDomain
        message := "List index " ++ toString index ++ " is out of range for a list of length "
          ++ toString size ++ "."
        expected := "index <= " ++ toString size, actual := toString index }
  | blockAsArgument => some
      { kind := .typeMismatch
        message := "A block can only be attached to a call, not used as an argument."
        expected := "term", actual := "block" }
  | cannotEvaluate shown className => some
      { kind := .typeMismatch, message := "Cannot evaluate " ++ shown ++ "."
        expected := "term", actual := className }
  | notAScope name actual => some
      { kind := .typeMismatch
        message := "Expected scope before .<" ++ name ++ ">, but instead got " ++ actual ++ "."
        operator := ".", expected := "Scope", actual := actual }
  | unresolved name => some
      { kind := .unresolvedName, message := "Unknown value or function '" ++ name ++ "'."
        expected := "bound name", actual := name, name := name }
  | depthExceeded limit depth => some
      { kind := .recursionLimit
        message := "Maximum call depth of " ++ toString limit ++ " exceeded."
        expected := "depth <= " ++ toString limit, actual := toString (depth + 1) }
  | stackExhausted limit depth => some
      { kind := .recursionLimit
        message := "Maximum call depth exceeded at depth " ++ toString depth ++ "."
        expected := "depth <= " ++ toString limit, actual := toString depth }
  | notCallable shown className => some
      { kind := .typeMismatch, message := "Object is not callable: " ++ shown
        expected := "Function", actual := className }
  | expectedMemory op actual => some
      { kind := .typeMismatch
        message := "Expected memory as " ++ op.role ++ " for " ++ op.name ++ ", but instead got "
          ++ actual ++ "."
        operator := op.name, expected := "Memory", actual := actual }
  | missingBlock op => some
      { kind := .missingBlock
        message := "To define " ++ op.defines ++ " with " ++ op.name ++ ", add a yield block."
        operator := op.name, expected := "yield block", actual := "nothing" }
  | outsideCall op => some
      { kind := .contextViolation
        message := "Cannot call " ++ op.name ++ " outside a call scope."
        operator := op.name, expected := "call scope", actual := "no call scope" }
  | unboundTarget name => some
      { kind := .unresolvedName
        message := "Unknown value or function for call '<" ++ name ++ ">'."
        operator := Builtin.call.name, expected := "bound name", actual := name, name := name }
  | indexNotInteger actual => some
      { kind := .typeMismatch
        message := "Expected integer for p, but instead got " ++ actual ++ "."
        operator := Builtin.param.name, expected := "Number", actual := actual }
  | tagNotString actual => some
      { kind := .typeMismatch
        message := "Expected type string for p, but instead got " ++ actual ++ "."
        operator := Builtin.param.name, expected := "String", actual := actual }
  | negativeIndex shown => some
      { kind := .numericDomain
        message := "Expected positive integer for p, but instead got " ++ shown ++ "."
        operator := Builtin.param.name, expected := "index >= 0", actual := shown }
  | argumentMismatch tag actual shown => some
      { kind := .typeMismatch
        message := "Expected argument of type " ++ tag.name ++ ", but instead got " ++ actual
          ++ " (" ++ shown ++ ")."
        operator := Builtin.param.name, expected := tag.name, actual := actual }
  | noYieldBlock => some
      { kind := .unresolvedName, message := "Expected yield function."
        operator := Builtin.yield.name, expected := "yield block", actual := "nothing" }
  | reported r => some r
  | host _ _ | untold _ _ => none

def message : Fault → String
  | host _ m => m
  | f => (f.report?.map Report.message).getD ""

def heading : Fault → String
  | host .recursion _ => Kind.recursionLimit.label
  | host _ _ => "InternalError"
  | f => (f.report?.map fun r => r.kind.label).getD ""

end Fault

end BlockScript
