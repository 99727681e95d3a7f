import BlockScript.Proofs.Positions
import BlockScript.Proofs.Removal

namespace BlockScript.Proofs.ListSlots

open Running Store Writing Positions Removal SlotName

/-- A name that lists read in a way of their own: their length, or a position however it is written. -/
def IsSlot (n : String) : Prop :=
  n = "length" ∨ isNumeral n = true

variable {σ τ : Store} {s t : ScopeId} {n : String} {xs : List Term} {f : Term} {st : State}

theorem IsSlot.ofName_ne (h : IsSlot n) (limit : Option Nat) : ofName limit n ≠ .binding := by
  intro hb
  obtain ⟨hlength, hnumeral⟩ := ofName_eq_binding_iff.1 hb
  rcases h with h | h
  · exact hlength h
  · rw [hnumeral] at h
    cases h

theorem reads_eq (hn : IsSlot n) (hx : σ.items? s = some xs) (ht : τ.items? t = some xs)
    (hl : τ.digitLimit = σ.digitLimit) :
    τ.lookup t n = σ.lookup s n ∧ τ.binds t n = σ.binds s n := by
  have hb := hn.ofName_ne σ.digitLimit
  rw [lookup, lookup, binds, binds]
  simp only [hx, ht, hl]
  cases h : ofName σ.digitLimit n with
  | binding => exact absurd h hb
  | _ => exact ⟨rfl, rfl⟩

theorem define_slot (hn : IsSlot n) (hx : σ.items? s = some xs) (h : σ.define s n f = .ok τ) :
    ∃ ys, τ = σ.setItems s ys := by
  obtain ⟨hb, -, -⟩ | ⟨_, _, _, _, _, _, -, -, -, -, rfl⟩ := define_cases h
  · exact absurd (hb xs hx) (hn.ofName_ne _)
  · exact ⟨_, rfl⟩

theorem define_length (hx : σ.items? s = some xs) (f : Term) :
    σ.define s "length" f = .error (.constantRedefined "length") := by
  simp only [define, hx, ofName_eq_length_iff.2]

theorem remove_position (hn : isNumeral n = true) (hx : σ.items? s = some xs)
    (h : σ.remove s n = .ok τ) : ∃ ys, τ = σ.setItems s ys := by
  rw [remove, hx] at h
  simp only at h
  cases hname : ofName σ.digitLimit n with
  | index i =>
      rw [hname] at h
      exact ⟨_, (Except.ok.inj h).symm⟩
  | overlong d =>
      rw [hname] at h
      cases h
  | length =>
      rw [ofName_eq_length_iff.1 hname] at hn
      exact absurd hn (by decide)
  | binding => exact absurd hname (IsSlot.ofName_ne (.inr hn) _)

theorem remove_length (hx : σ.items? s = some xs) :
    σ.remove s "length" = .ok (σ.removeBinding s "length") := by
  simp only [remove, hx, ofName_eq_length_iff.2]

theorem updateStore_cases (g : Store → Except Fault Store) (st : State) :
    g st.store = .ok (Eval.updateStore g st).2.store ∨ (Eval.updateStore g st).2.store = st.store := by
  rw [updateStore_apply]
  cases h : g st.store with
  | ok τ => exact .inl rfl
  | error e => exact .inr rfl

theorem updateStore_items {g : Store → Except Fault Store} (hx : st.store.items? s = some xs)
    (h : ∀ τ, g st.store = .ok τ → ∃ ys, τ = st.store.setItems s ys) :
    ∃ ys, (Eval.updateStore g st).2.store = st.store.setItems s ys := by
  rcases updateStore_cases g st with hok | hsame
  · exact h _ hok
  · exact ⟨xs, by rw [hsame, setItems_self hx]⟩

theorem owns_setItems (hx : σ.items? s = some xs) (ys : List Term) (t : ScopeId) (n : String) :
    (σ.setItems s ys).owns t n = σ.owns t n := by
  rw [owns, owns, get_setItems hx]
  split
  next ht => rw [ht]
  next => rfl

theorem items_removeBinding (s : ScopeId) (n : String) :
    (σ.removeBinding s n).items? s = σ.items? s := by
  obtain h | ⟨o, -, h⟩ := removeBinding_cases σ s n
  · rw [h]
  · rw [h, items?, items?, eraseBinding]
    exact Formal.get_modify (g := fun c => c.kind.items?) rfl s

theorem removeBinding_items (hx : σ.items? s = some xs) :
    (∃ ys, σ.removeBinding s n = σ.setItems s ys) ↔ ∀ o ∈ σ.chain s, σ.owns o n = false := by
  rw [removeBinding_eq]
  constructor
  · rintro ⟨ys, h⟩ o ho
    by_contra howns
    have hmem : o ∈ owners σ s n := List.mem_filter.2 ⟨ho, by simpa using howns⟩
    cases hos : owners σ s n with
    | nil => simp [hos] at hmem
    | cons p ps =>
        have hp : σ.owns p n = true := owns_of_owners (s := s) (hos ▸ List.mem_cons_self)
        simp only [hos, List.head?_cons] at h
        have hgone := owns_eraseBinding hp p
        rw [h, owns_setItems hx, hp] at hgone
        simp at hgone
  · intro h
    have hnil : owners σ s n = [] := List.filter_eq_nil_iff.2 fun o ho => by simp [h o ho]
    rw [hnil]
    exact ⟨xs, (setItems_self hx).symm⟩

/-- A list keeps to itself what is asked and done under the names of its slots: what is read comes
from its items, and what is written goes there or nowhere. Its length cannot be bound, and reads the
same after it has been removed. But a removal of the length is one of a binding: it leaves everything
but the items alone only if neither the list nor one of its parents has a binding of that name. -/
theorem slot_confined (hx : st.store.items? s = some xs) (hn : IsSlot n) :
    (∀ (τ : Store) t, τ.items? t = some xs → τ.digitLimit = st.store.digitLimit →
      τ.lookup t n = st.store.lookup s n ∧ τ.binds t n = st.store.binds s n) ∧
    (∀ f, ∃ ys, (Eval.define s n f st).2.store = st.store.setItems s ys) ∧
    ((∃ ys, (Eval.remove s n st).2.store = st.store.setItems s ys) ↔
      (n = "length" → ∀ o ∈ st.store.chain s, st.store.owns o n = false)) ∧
    (n = "length" → (∀ f, st.store.define s n f = .error (.constantRedefined n)) ∧
      (Eval.remove s n st).2.store = st.store.removeBinding s n ∧
      (Eval.remove s n st).2.store.lookup s n = st.store.lookup s n) := by
  have hlength : n = "length" →
      (Eval.remove s n st).2.store = st.store.removeBinding s n := by
    rintro rfl
    rw [Eval.remove, updateStore_apply, remove_length hx]
  refine ⟨fun τ t ht hl => reads_eq hn hx ht hl, fun f => ?_, ?_, ?_⟩
  · exact updateStore_items hx fun τ h => define_slot hn hx h
  · rcases hn with hn | hn
    · rw [hlength hn, removeBinding_items hx]
      exact ⟨fun h _ => h, fun h => h hn⟩
    · have hne : n ≠ "length" := by
        rintro rfl
        exact absurd hn (by decide)
      exact iff_of_true (updateStore_items hx fun τ h => remove_position hn hx h)
        fun h => absurd h hne
  · intro h
    refine ⟨fun f => h ▸ define_length hx f, hlength h, ?_⟩
    rw [hlength h]
    rw [h, lookup_length hx, lookup_length ((items_removeBinding s _).trans hx)]

def lodged : State :=
  let bindings := [("length", .var (.num 9) false "length")]
  let list : Scope := { kind := .list [.num 1, .num 2], parent := some 0 }
  { store := { scopes := #[{ bindings }, list] }, limit := 5 }

theorem slot_confined_lodged :
    lodged.store.items? 1 = some [.num 1, .num 2] ∧ IsSlot "1" ∧
      lodged.store.lookup 1 "1" = .ok (some (.var (.num 2) false "1")) ∧
      (∃ ys, (Eval.define 1 "1" (.var (.num 3) false "") lodged).2.store =
        lodged.store.setItems 1 ys) ∧
      (Eval.define 1 "1" (.var (.num 3) false "") lodged).2.store.items? 1 =
        some [.num 1, .num 3] ∧
      (∃ ys, (Eval.remove 1 "1" lodged).2.store = lodged.store.setItems 1 ys) := by
  have hitems : lodged.store.items? 1 = some [.num 1, .num 2] := rfl
  have hslot : IsSlot "1" := .inr (by decide)
  obtain ⟨-, hdefine, hremove, -⟩ := slot_confined hitems hslot
  exact ⟨hitems, hslot, rfl, hdefine _, rfl, hremove.2 (by decide)⟩

/-- The removal of a list's length takes a binding from the list's parent. -/
theorem length_removed :
    lodged.store.items? 1 = some [.num 1, .num 2] ∧ IsSlot "length" ∧
      lodged.store.owns 0 "length" = true ∧
      (Eval.remove 1 "length" lodged).2.store.owns 0 "length" = false ∧
      ¬∃ ys, (Eval.remove 1 "length" lodged).2.store = lodged.store.setItems 1 ys := by
  have howned : lodged.store.owns 0 "length" = true := by decide
  have hgone : (Eval.remove 1 "length" lodged).2.store.owns 0 "length" = false := by decide
  refine ⟨rfl, .inl rfl, howned, hgone, ?_⟩
  rintro ⟨ys, h⟩
  rw [h, owns_setItems (σ := lodged.store) rfl, howned] at hgone
  cases hgone

end BlockScript.Proofs.ListSlots
