import BlockScript.Kit
import BlockScript.Proofs.LawfulRun
import BlockScript.Proofs.Writing

namespace BlockScript.Proofs.Law

open Eval Kit

variable {L : Law} {σ : Store} {call : Caller} {i : Invocation}

structure Accommodating (L : Law) : Prop where
  scope : ∀ {σ s}, L.scope σ s → L.value σ (.scope s)
  float : ∀ {σ x k}, L.value σ (.float x k)
  items : ∀ {σ xs}, (∀ t ∈ xs, L.value σ t) → L.value σ (.items xs)
  listed : ∀ {σ s xs}, L.inv σ → L.value σ (.scope s) → σ.items? s = some xs → ∀ t ∈ xs, L.value σ t
  parent : ∀ {σ s p}, L.inv σ → L.value σ (.scope s) → (σ.get s).parent = some p →
    L.value σ (.scope p)
  plain : ∀ {σ p}, L.inv σ → (∀ s ∈ p, L.scope σ s) →
    L.Later σ (σ.alloc { parent := p }) ∧ L.value (σ.alloc { parent := p }) (.scope σ.size)

def Mixing (L : Law) : Prop :=
  ∀ {σ τ s source}, L.inv σ → L.scope σ s → L.value σ (.scope source) →
    σ.addMixin s source = .ok τ → L.Later σ τ

def Binding (L : Law) : Prop :=
  ∀ {σ τ s n f}, L.inv σ → L.value σ (.memory s n) → L.value σ f → σ.define s n f = .ok τ →
    L.Later σ τ

structure Allows (L : Law) (key : String) : Prop where
  mixing : key = "mixin" → L.Mixing
  binding : key = "bind" → L.Binding

/-- A law that does not care which values there are, and lets scopes be made and mixed in. -/
structure Lenient (L : Law) : Prop where
  value : ∀ σ t, L.value σ t
  plain : ∀ {σ p}, L.inv σ → L.Later σ (σ.alloc { parent := p })
  bound : ∀ {σ τ s n f}, L.inv σ → σ.define s n f = .ok τ → L.Later σ τ
  mixed : ∀ {σ τ s source}, L.inv σ → σ.addMixin s source = .ok τ → L.Later σ τ

theorem Lenient.accommodating (F : L.Lenient) : L.Accommodating where
  scope _ := F.value _ _
  float := F.value _ _
  items _ := F.value _ _
  listed _ _ _ _ _ := F.value _ _
  parent _ _ _ := F.value _ _
  plain h _ := ⟨F.plain h, F.value _ _⟩

theorem Lenient.mixing (F : L.Lenient) : L.Mixing := by
  intro σ τ s source h _ _ ha
  exact F.mixed h ha

theorem Lenient.binding (F : L.Lenient) : L.Binding := by
  intro σ τ s n f h _ _ hd
  exact F.bound h hd

theorem Dynamic.lenient (D : L.Dynamic) : L.Lenient where
  value := D.value
  plain _ := ⟨D.plain _ _, D.inv _⟩
  bound _ h := D.upheld.define (D.inv _) (D.value _ _) (D.value _ _) (.inr (D.block _ _)) h
  mixed _ h := by
    obtain rfl | rfl := Writing.addMixin_cases h
    · exact ⟨D.upheld.refl _, D.inv _⟩
    · exact ⟨D.mixins _ _ _, D.inv _⟩

theorem Upheld.num (U : L.Upheld) (n : Int) : L.value σ (.num n) :=
  U.literal (.inr (.inr (.inl ⟨n, rfl⟩)))

theorem Upheld.str (U : L.Upheld) (x : String) : L.value σ (.str x) :=
  U.literal (.inr (.inr (.inr ⟨x, rfl⟩)))

theorem forM_meets (U : L.Upheld) {α : Type} {xs : List α} {k : α → Eval Unit}
    (h : ∀ x ∈ xs, ∀ τ, L.Later σ τ → L.Meets τ (k x) fun _ _ => True) :
    L.Meets σ (xs.forM k) fun _ _ => True := by
  induction xs generalizing σ with
  | nil => exact .pure U fun _ _ => trivial
  | cons x xs ih =>
      refine .bind U (.start U (h x List.mem_cons_self)) fun τ hτ _ _ => ?_
      refine ih fun y hy υ hυ => h y (List.mem_cons_of_mem _ hy) υ ?_
      exact ⟨U.trans hτ.step hυ.step, hυ.inv⟩

theorem mapM_meets (U : L.Upheld) {α : Type} {xs : List α} {k : α → Eval Term}
    (h : ∀ x ∈ xs, ∀ τ, L.Later σ τ → L.Meets τ (k x) L.value) :
    L.Meets σ (xs.mapM k) fun τ ys => ∀ y ∈ ys, L.value τ y := by
  induction xs generalizing σ with
  | nil => exact .pure U fun _ _ => by simp
  | cons x xs ih =>
      rw [List.mapM_cons]
      refine .bind U (.start U (h x List.mem_cons_self)) fun τ hτ y hy => ?_
      refine .bind U (ih fun z hz υ hυ => h z (List.mem_cons_of_mem _ hz) υ ?_) fun υ hυ ys hys => ?_
      · exact ⟨U.trans hτ.step hυ.step, hυ.inv⟩
      · refine .pure U fun ρ hρ z hz => U.value_later hρ.step ?_
        rcases List.mem_cons.1 hz with rfl | hz
        · exact U.value_later hυ.step hy
        · exact hys z hz

section Natives

variable (U : L.Upheld) (A : L.Accommodating)
include U

theorem refuse_meets (message : String) : L.Meets σ (refuse message) L.value :=
  .fail U _

theorem num_meets (n : Int) : L.Meets σ (pure (.num n)) L.value :=
  .pure U fun _ _ => U.num n

theorem sum_meets (ts : List Term) : L.Meets σ (sum ts) L.value := by
  rw [sum]
  split
  · exact num_meets U _
  · exact refuse_meets U _

theorem operands_meets (name : String) (ts : List Term) {k : Int × Int → Eval Term}
    (hk : ∀ ab, L.Meets σ (k ab) L.value) : L.Meets σ (operands name ts >>= k) L.value := by
  rw [operands.eq_def]
  split
  · exact .bind_quiet U (.pure _) hk
  · exact .bind_quiet U (.fail _) hk

theorem divide_meets (a b : Int) : L.Meets σ (divide a b) L.value := by
  rw [divide]
  split
  · exact .fail U _
  · exact num_meets U _

theorem equality_meets (ts : List Term) : L.Meets σ (equality ts) L.value := by
  rw [equality.eq_def]
  split
  · refine .bind_quiet U .getStore fun _ => ?_
    split
    · exact .pure U fun _ _ => U.bool _
    · exact .fail U _
  · exact refuse_meets U _

theorem kitMemoryArg_meets (hi : L.Served σ i) (name : String) :
    L.Meets σ (Kit.memoryArg name i.args) fun τ m => L.value τ (.memory m.1 m.2) := by
  rw [Kit.memoryArg.eq_def]
  split
  next s n _ h => exact .pure U fun τ hτ => U.value_later hτ.step (hi.args _ (by simp [h]))
  next => exact .fail U _

theorem functionOf_meets {s : ScopeId} {n : String} (hs : L.value σ (.memory s n)) :
    L.Meets σ (functionOf s n) L.value := by
  refine .bind U (.lookup U hs) fun τ _ r hr => ?_
  split
  next _ v constant m =>
      have hv : L.value τ v := U.var.1 (hr _ rfl)
      exact .bind_quiet U .freshMark fun _ => .pure U fun υ hυ => U.var.2 (U.value_later hυ.step hv)
  next =>
      refine .pure U fun υ hυ => U.value_later hυ.step ?_
      cases r with
      | none => exact U.null
      | some f => exact hr f rfl

theorem raise_meets (ts : List Term) : L.Meets σ (raise ts) L.value := by
  rw [raise.eq_def]
  split
  · refine .bind_quiet U .getStore fun _ => ?_
    split
    · exact .fail U _
    · exact refuse_meets U _
  · exact refuse_meets U _
  · exact .fail U _

theorem mixInto_meets (F : L.Mixing) {s : ScopeId} (hs : L.scope σ s) {t : Term}
    (ht : L.value σ t) : L.Meets σ (mixInto s t) fun _ _ => True := by
  rw [mixInto.eq_def]
  split
  · refine .updateStore U fun τ hτ υ hυ => ?_
    exact F hτ.inv (U.scope_later hτ.step hs) (U.value_later hτ.step ht) hυ
  · exact .pure U fun _ _ => trivial

theorem branch_meets (hc : L.Calls call) (hi : L.Served σ i) :
    L.Meets σ (branch call i) L.value := by
  rw [branch]
  split
  next => exact refuse_meets U _
  next b hb =>
      split
      next args h =>
          have hargs : ∀ t ∈ args, L.value σ t := fun t ht => hi.args t (by simp [h, ht])
          exact hc σ b _ (hi.callable_plainly U (U.value_of_block (hi.block b hb)) args hargs)
      next => exact .pure U fun _ _ => U.null

theorem value_block (hi : L.Served σ i) : L.value σ (i.block.getD .null) := by
  cases hb : i.block with
  | none => exact U.null
  | some b => exact U.value_of_block (hi.block b hb)

include A

theorem each_meets (hc : L.Calls call) (hi : L.Served σ i) : L.Meets σ (each call i) L.value := by
  refine .bind U (.getStore U) fun τ hτ ρ hρ => ?_
  subst hρ
  have hiτ := hi.later U hτ
  split
  next s hs =>
      split
      next xs hxs =>
          have hx : ∀ t ∈ xs, L.value ρ t := A.listed hτ.inv (hs ▸ U.value_first hiτ.args) hxs
          refine .bind U (mapM_meets U fun x hx' υ hυ => ?_) fun _ _ ys hys => .newList U hys
          have hiυ := hiτ.later U hυ
          refine hc υ _ _ (hiυ.callable_plainly U (value_block U hiυ) _ fun t ht => ?_)
          rcases List.mem_cons.1 ht with rfl | ht
          · exact U.value_later hυ.step (hx _ (List.fst_mem_of_mem_zipIdx hx'))
          · exact List.mem_singleton.1 ht ▸ U.num _
      next => exact refuse_meets U _
  next => exact refuse_meets U _

theorem native_meets (hc : L.Calls call) (hi : L.Served σ i)
    {p : String × (Invocation → Eval Term)} (hp : p ∈ natives call)
    (hkey : L.Allows p.1) : L.Meets σ (p.2 i) L.value := by
  have unit {m : Eval Unit} (hm : L.Meets σ m fun _ _ => True) :
      L.Meets σ (m >>= fun _ => pure .null) L.value :=
    .bind U hm fun _ _ _ _ => .pure U fun _ _ => U.null
  have scope {p : Option ScopeId} (hp : ∀ s ∈ p, L.scope σ s) :
      L.Meets σ (Eval.alloc { parent := p } >>= fun s => pure (.scope s)) L.value := by
    refine .bind U (.alloc (P := fun τ s => L.value τ (.scope s)) fun τ hτ => ?_) fun τ _ s hs => ?_
    · exact A.plain hτ.inv fun s hs => U.scope_later hτ.step (hp s hs)
    · exact .pure U fun υ hυ => U.value_later hυ.step hs
  have text {m : Eval String} (hm : Quiet m) :
      L.Meets σ (m >>= fun x => pure (.str x)) L.value :=
    .bind_quiet U hm fun _ => .pure U fun _ _ => U.str _
  revert hkey
  revert p
  simp only [natives, List.forall_mem_cons]
  refine ⟨fun _ => sum_meets U _, fun _ => operands_meets U _ _ fun _ => num_meets U _,
    fun _ => operands_meets U _ _ fun _ => num_meets U _,
    fun _ => operands_meets U _ _ fun _ => divide_meets U _ _,
    fun _ => operands_meets U _ _ fun _ => .pure U fun _ _ => U.bool _, fun _ => sum_meets U _,
    fun _ => equality_meets U _, fun _ => branch_meets U hc hi, fun _ => each_meets U A hc hi,
    fun _ => ?invoke, fun _ => ?func, fun hkey => ?bind, fun _ => raise_meets U _,
    fun _ => .bind_quiet U (.displayLine _) fun _ =>
      unit (.of_quiet U (fun _ => rfl) fun _ _ _ => trivial),
    fun hkey => ?mixin, fun _ => unit (.of_quiet U (fun _ => rfl) fun _ _ _ => trivial), fun _ => ?here,
    fun _ => ?parent, fun _ => .newList U hi.args, fun _ => scope nofun, fun _ => scope hi.scope,
    fun _ => .pure U fun τ hτ => value_block U (hi.later U hτ), fun _ => .pure U fun _ _ => A.float,
    fun _ => .pure U fun τ hτ => A.items (hi.later U hτ).args,
    fun _ => .bind_quiet U .get fun _ => num_meets U _, fun _ => ?stack, fun _ => text (.typeName _),
    fun _ => .pure U fun _ _ => U.str _, by simp⟩
  case invoke =>
    refine hc σ _ _ (hi.callable U (U.value_first hi.args) _ fun t ht => ?_)
    exact hi.args t (List.mem_of_mem_tail ht)
  case func =>
    exact .bind U (kitMemoryArg_meets U hi _) fun _ _ m hm => functionOf_meets U hm
  case bind =>
    refine .bind U (kitMemoryArg_meets U hi _) fun τ hτ m hm => ?_
    have hiτ := hi.later U hτ
    refine .bind U (.updateStore U fun υ hυ ρ hρ => ?_) fun _ _ _ _ => .pure U fun _ _ => U.null
    have hv := U.value_getD (hiτ.later U hυ).args 1
    exact hkey.binding rfl hυ.inv (U.value_later hυ.step hm) hv hρ
  case mixin =>
    apply unit
    cases hs : i.scope with
    | none => exact .pure U fun _ _ => trivial
    | some s =>
        refine forM_meets U fun t ht τ hτ => ?_
        have hiτ := hi.later U hτ
        exact mixInto_meets U (hkey.mixing rfl) (hiτ.scope s hs) (hiτ.args t ht)
  case here =>
    refine .pure U fun τ hτ => ?_
    cases hs : i.scope with
    | none => exact U.null
    | some s => exact A.scope (U.scope_later hτ.step (hi.scope s hs))
  case parent =>
    split
    next s _ h =>
        refine .bind U (.getStore U) fun τ hτ ρ hρ => ?_
        subst hρ
        refine .pure U fun υ hυ => U.value_later hυ.step ?_
        cases hp : (ρ.get s).parent with
        | none => exact U.null
        | some p => exact A.parent hτ.inv ((hi.later U hτ).args _ (by simp [h])) hp
    next => exact refuse_meets U _
  case stack =>
    refine .bind_quiet U .get fun _ => .newList U fun t ht => ?_
    obtain ⟨f, -, rfl⟩ := List.mem_map.1 ht
    exact U.str _

theorem kitNative_meets (hc : L.Calls call) (hi : L.Served σ i) {key : String}
    (hkey : L.Allows key) : L.Meets σ (Kit.native call key i) L.value := by
  rw [Kit.native]
  split
  next native h =>
      obtain ⟨before, after, hnatives, -⟩ := List.lookup_eq_some_iff.1 h
      have hmem : (key, native) ∈ natives call := by simp [hnatives]
      exact native_meets U A hc hi hmem hkey
  next => exact refuse_meets U _

end Natives

theorem kit_obeys (U : L.Upheld) (F : L.Lenient) : L.ObeyedBy Kit.host :=
  fun _ hc _ _ _ hi => kitNative_meets U F.accommodating hc hi ⟨fun _ => F.mixing, fun _ => F.binding⟩

def kitWithout (withheld : List String) : Host where
  native call key i :=
    if key ∈ withheld then refuse ("no native is called " ++ key) else Kit.native call key i

theorem kitWithout_obeys (U : L.Upheld) (A : L.Accommodating) {withheld : List String}
    (hmix : "mixin" ∈ withheld ∨ L.Mixing) (hbind : "bind" ∈ withheld ∨ L.Binding) :
    L.ObeyedBy (kitWithout withheld) := by
  intro call hc key σ i hi
  change L.Meets σ (if key ∈ withheld then _ else _) L.value
  split
  · exact refuse_meets U _
  next hkey =>
      refine kitNative_meets U A hc hi ⟨fun h => ?_, fun h => ?_⟩
      · exact hmix.resolve_left fun hmem => hkey (h ▸ hmem)
      · exact hbind.resolve_left fun hmem => hkey (h ▸ hmem)

end BlockScript.Proofs.Law
