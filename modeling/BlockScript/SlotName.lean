import BlockScript.Text.Numeral

namespace BlockScript

inductive SlotName
  | length
  | index (i : Nat)
  | overlong (digits : Nat)
  | binding
  deriving DecidableEq

namespace SlotName

def isNumeral (name : String) : Bool :=
  !name.toList.isEmpty && name.toList.all Char.isDigit

def position (name : String) : Nat :=
  Text.ofDigits (name.toList.map fun c => c.toNat - '0'.toNat)

def ofName (limit : Option Nat) (name : String) : SlotName :=
  if name = "length" then length
  else if isNumeral name then
    if limit.all (name.toList.length ≤ ·) then index (position name)
    else overlong name.toList.length
  else binding

variable {limit : Option Nat} {name : String}

theorem ofName_eq_length_iff : ofName limit name = length ↔ name = "length" := by
  rw [ofName]
  by_cases h : name = "length"
  · simp [h]
  · by_cases hn : isNumeral name = true
    · by_cases hl : limit.all (name.toList.length ≤ ·) = true <;> simp [h, hn, hl]
    · simp [h, hn]

theorem ofName_eq_binding_iff :
    ofName limit name = binding ↔ name ≠ "length" ∧ isNumeral name = false := by
  rw [ofName]
  by_cases h : name = "length"
  · simp [h]
  · by_cases hn : isNumeral name = true
    · by_cases hl : limit.all (name.toList.length ≤ ·) = true <;> simp [h, hn, hl]
    · simp [h, hn]

theorem ofName_of_isNumeral (hn : isNumeral name = true)
    (hl : limit.all (name.toList.length ≤ ·) = true) :
    ofName limit name = index (position name) := by
  have h : name ≠ "length" := by
    rintro rfl
    exact absurd hn (by decide)
  rw [ofName, if_neg h, if_pos hn, if_pos hl]

end SlotName

end BlockScript
