import BlockScript.Term

namespace BlockScript

abbrev Bindings := List (String × Term)

namespace Bindings

variable (b : Bindings) (n : String)

def names : List String :=
  b.map Prod.fst

def get? : Option Term :=
  b.lookup n

def owns : Bool :=
  (b.get? n).isSome

def set (n : String) (t : Term) : Bindings → Bindings
  | [] => [(n, t)]
  | (m, u) :: b => if m = n then (n, t) :: b else (m, u) :: set n t b

def erase : Bindings :=
  b.filter fun e => e.1 != n

def isConstant : Bool :=
  match b.get? n with
  | some (.var _ true _ _) => true
  | _ => false

@[simp] theorem get?_nil : get? [] n = none := rfl

theorem get?_cons (m : String) (t : Term) :
    get? ((m, t) :: b) n = if n = m then some t else get? b n := by
  by_cases h : n = m
  · simp [get?, h]
  · simp [get?, List.lookup_cons, beq_eq_false_iff_ne.2 h, h]

theorem get?_set (m : String) (t : Term) :
    (b.set n t).get? m = if m = n then some t else b.get? m := by
  induction b with
  | nil => simp [set, get?_cons]
  | cons e b ih =>
      obtain ⟨k, u⟩ := e
      by_cases hk : k = n
      · subst hk
        by_cases hm : m = k <;> simp [set, get?_cons, hm]
      · by_cases hm : m = k
        · simp [set, get?_cons, hk, hm]
        · simp [set, get?_cons, hk, hm, ih]

theorem get?_erase (m : String) : (b.erase n).get? m = if m = n then none else b.get? m := by
  induction b with
  | nil => simp [erase]
  | cons e b ih =>
      obtain ⟨k, u⟩ := e
      rw [erase] at ih ⊢
      by_cases hk : k = n
      · subst hk
        by_cases hm : m = k
        · subst hm
          simpa using ih
        · simp [get?_cons, hm, ih]
      · by_cases hm : m = k
        · simp [get?_cons, hk, hm]
        · simp [get?_cons, hk, hm, ih]

theorem names_set (t : Term) :
    (b.set n t).names = if n ∈ b.names then b.names else b.names ++ [n] := by
  induction b with
  | nil => simp [set, names]
  | cons e b ih =>
      obtain ⟨k, u⟩ := e
      by_cases hk : k = n
      · simp [set, names, hk]
      · have hn : n ≠ k := fun h => hk h.symm
        simp only [names] at ih
        by_cases hb : n ∈ b.map Prod.fst <;> simp_all [set, names]

end Bindings

end BlockScript
