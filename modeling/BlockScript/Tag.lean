import BlockScript.Term
import BlockScript.Text.Blank

namespace BlockScript

inductive Tag
  | any | none | boolean | number | string | memory | scope
  deriving DecidableEq

namespace Tag

def all : List Tag :=
  [any, none, boolean, number, string, memory, scope]

def name : Tag → String
  | any => "Any"
  | none => "None"
  | boolean => "Boolean"
  | number => "Number"
  | string => "String"
  | memory => "Memory"
  | scope => "Scope"

def of? : Term → Option Tag
  | .null => some none
  | .bool _ => some boolean
  | .num _ => some number
  | .str _ => some string
  | .memory _ _ => some memory
  | .scope _ => some scope
  | _ => Option.none

def ofName? (text : String) : Option Tag :=
  all.find? fun t => Text.lower t.name == Text.lower (Text.trim text)

/-- `any` matches everything, also what has no tag; `none` as an answer means that there is no tag
to compare with. -/
def matches? (t : Tag) (v : Term) : Option Bool :=
  if t = any then some true else (of? v).map (· == t)

end Tag

namespace Term

def foreignName : Term → String
  | float _ _ => "float"
  | items _ => "list"
  | ref _ _ _ => "MemoryRef"
  | call _ _ _ => "Call"
  | code _ => "Code"
  | var _ _ _ _ => "Variable"
  | block _ _ => "Block"
  | native _ => "Native"
  | _ => "value"

end Term

end BlockScript
