import BlockScript.Number
import BlockScript.Store.Basic

namespace BlockScript

def itemEqual (eq : Term → Term → Option Bool) (a b : Term) : Option Bool :=
  if a.same b then some true else eq a b

def allEqual (eq : Term → Term → Option Bool) : List Term → List Term → Option Bool
  | a :: as, b :: bs => do if ← itemEqual eq a b then allEqual eq as bs else some false
  | [], [] => some true
  | _, _ => some false

def listEqual (eq : Term → Term → Option Bool) (xs ys : List Term) : Option Bool :=
  if xs.length = ys.length then allEqual eq xs ys else some false

mutual

def Term.equalWith (items : ScopeId → Option (List Term))
    (below : ScopeId → Term → Option Bool) : Term → Term → Option Bool
  | .null, .null => some true
  | .str a, .str b => some (a == b)
  | .memory s n, .memory t m => some (s == t && n == m)
  | .native f, .native g => some (f.id == g.id)
  | .scope s, t => below s t
  | .items xs, .scope t => match items t with
      | some ys => if xs.length = ys.length then Term.allEqualWith items below xs ys else some false
      | none => some false
  | .items xs, .items ys =>
      if xs.length = ys.length then Term.allEqualWith items below xs ys else some false
  | .ref n t _, .ref m u _ =>
      if n = m then
        match t, u with
        | none, none => some true
        | some t, some u => Term.equalWith items below t u
        | _, _ => some false
      else some false
  | .call n as c, .call m bs d =>
      if n = m ∧ as.length = bs.length then do
        if ← Term.allEqualWith items below as bs then
          match c, d with
          | none, none => some true
          | some c, some d => Code.equalWith items below c d
          | _, _ => some false
        else some false
      else some false
  | .code c, .code d => Code.equalWith items below c d
  | .var v k n _, .var w l m _ => do
      if ← Term.equalWith items below v w then some (k == l && n == m) else some false
  | .block c s, .block d t => do
      if ← Code.equalWith items below c d then some (s == t) else some false
  | a, b => match a.magnitude?, b.magnitude? with
      | some x, some y => some (x == y)
      | _, _ => some false

def Code.equalWith (items : ScopeId → Option (List Term))
    (below : ScopeId → Term → Option Bool) : Code → Code → Option Bool
  | ⟨ts, ps⟩, ⟨us, qs⟩ =>
      if ts.length = us.length then do
        if ← Term.allEqualWith items below ts us then some (ps == qs) else some false
      else some false

def Term.allEqualWith (items : ScopeId → Option (List Term))
    (below : ScopeId → Term → Option Bool) :
    List Term → List Term → Option Bool
  | a :: as, b :: bs => do
      if ← (if a.same b then some true else Term.equalWith items below a b) then
        Term.allEqualWith items below as bs
      else some false
  | [], [] => some true
  | _, _ => some false

end

namespace Store

variable (σ : Store)

/-- `within` are the pairs of lists whose items are being compared, innermost first: coming to one of
them again is to go round in a circle. -/
def equalWithin : Nat → List (ScopeId × ScopeId) → ScopeId → Term → Option Bool
  | 0, _, _, _ => none
  | depth + 1, within, s, .scope t =>
      if s = t then some true
      else match σ.items? s, σ.items? t with
        | some xs, some ys =>
            if (s, t) ∈ within then none
            else listEqual (Term.equalWith σ.items? (equalWithin depth ((s, t) :: within))) xs ys
        | _, _ => some false
  | depth + 1, within, s, .items ys => match σ.items? s with
      | some xs => listEqual (Term.equalWith σ.items? (equalWithin depth within)) xs ys
      | none => some false
  | _, _, _, _ => some false

def weight : Nat :=
  σ.scopes.foldl (fun n c => n + c.kind.items?.elim 0 fun xs => weightAll xs + 1) 0

def equal? (a b : Term) : Option Bool :=
  -- a comparison that opens more lists than there are pairs of places comes to a pair twice
  let places := a.weight + b.weight + σ.weight
  Term.equalWith σ.items? (σ.equalWithin (places * places + 1) []) a b

def differ? (a b : Term) : Option Bool :=
  (σ.equal? a b).map (!·)

def contains? (xs : List Term) (a : Term) : Option Bool :=
  match xs with
  | [] => some false
  | x :: xs => do if ← itemEqual σ.equal? x a then some true else contains? xs a

end Store

/-- What the members of a set are told apart by: values that compare equal have one key, but a list
scope is known by its identity, and so is each `nan`. -/
inductive Key
  | null
  | number (m : Magnitude)
  | nan (mark : Nat)
  | string (s : String)
  | memory (scope : ScopeId) (name : String)
  | scope (id : ScopeId)
  | native (id : Nat)
  deriving DecidableEq

def Term.key? : Term → Option Key
  | .null => some .null
  | .str s => some (.string s)
  | .memory s n => some (.memory s n)
  | .scope s => some (.scope s)
  | .native f => some (.native f.id)
  | .float "nan" mark => some (.nan mark)
  | t => t.magnitude?.map .number

def distinct (ts : List Term) : Nat :=
  (ts.filterMap Term.key?).eraseDups.length

end BlockScript
