import BlockScript.Proofs.Conservation

namespace BlockScript.Proofs.Extension.Addition

open Eval Evaluator Running Heap Holdings

variable {A : Addition} {call : Caller} {host : Host}

section Builtins

variable {i : Invocation}

theorem value_null : A.value .null :=
  ⟨trivial, trivial⟩

theorem value_getD {ts : List Term} (h : ∀ t ∈ ts, A.value t) (k : Nat) :
    A.value (ts.getD k .null) := by
  rw [List.getD_eq_getElem?_getD]
  cases hk : ts[k]? with
  | none => exact value_null
  | some t => exact h t (List.mem_of_getElem? hk)

theorem Serves.first (h : A.Serves i) : A.value i.first := by
  cases hi : i.args with
  | nil => simpa [Invocation.first, hi] using value_null
  | cons t ts => simpa [Invocation.first, hi] using h.args t (by simp [hi])

theorem Serves.plainly (h : A.Serves i) {ts : List Term} (ht : ∀ t ∈ ts, A.value t) :
    A.Serves (i.plainly ts) :=
  ⟨ht, by simp [Invocation.plainly], h.scope⟩

end Builtins

section Terms

variable {s : ScopeId}

mutual

theorem evalTerm_conserves (hc : A.Calls call) (hs : s ≠ A.source) :
    ∀ t, Uses A.name t → A.Conserves A.value (evalTerm call s t)
  | .null, _ | .bool _, _ | .num _, _ | .str _, _ =>
      .next (.visit _) fun _ => .pure ⟨trivial, trivial⟩
  | .ref _ none _, hn => .next (.visit _) fun _ => .pure ⟨hn, hs⟩
  | .ref n (some target) _, ⟨hn, ht⟩ => by
      refine .next (.visit _) fun _ => .bind (evalTerm_conserves hc hs target ht) fun v hv => ?_
      split
      next o => exact .pure ⟨hn, hv.2⟩
      next => exact .next (.typeName _) fun _ => .fail _
  | .call n args block, hu => by
      obtain ⟨hn, hargs, hblock⟩ := uses_call.1 hu
      refine .next (.visit _) fun _ => .bind (.lookup hn s) fun r hr => ?_
      split
      next => exact .fail _
      next f =>
          refine .bind (evalArgs_conserves hc hs args hargs) fun vs hvs => .underFrame ?_
          refine hc f _ (hr f rfl) ⟨hvs, ?_, ?_⟩
          · rintro b hb
            obtain ⟨c, hcode, rfl⟩ := Option.map_eq_some_iff.1 hb
            exact ⟨hblock c hcode, hs⟩
          · rintro p hp
            exact Option.some.inj hp ▸ hs
  | .code _, _ => .next (.visit _) fun _ => .fail _
  | .memory _ _, _ | .scope _, _ | .float _ _, _ | .items _, _ | .var _ _ _ _, _ | .block _ _, _
  | .native _, _ =>
      .next (.visit _) fun _ => .next (.inspect _) fun _ => .next (.className _) fun _ => .fail _

theorem evalArgs_conserves (hc : A.Calls call) (hs : s ≠ A.source) :
    ∀ ts, AllUse A.name ts → A.Conserves (fun vs => ∀ v ∈ vs, A.value v) (evalArgs call s ts)
  | [], _ => .pure (List.forall_mem_nil _)
  | t :: ts, ⟨ht, hts⟩ => by
      apply Conserves.bind (evalTerm_conserves hc hs t ht)
      intro v hv
      apply Conserves.bind (evalArgs_conserves hc hs ts hts)
      intro vs hvs
      exact .pure (List.forall_mem_cons.2 ⟨hv, hvs⟩)

end

end Terms

section Calls

def Enters (A : Addition) (enter : BlockCaller) : Prop :=
  ∀ c p i, A.value (.block c p) → A.Serves i → A.Conserves A.value (enter c p i)

end Calls

end BlockScript.Proofs.Extension.Addition
