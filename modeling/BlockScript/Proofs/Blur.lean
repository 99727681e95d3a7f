import BlockScript.Proofs.Resemblance
import Mathlib.Data.List.Basic

namespace BlockScript.Proofs

def withSite (site : Option ScopeId) (a : Activation) : Activation :=
  { a with site }

def unsited (c : Scope) : Scope :=
  match c.kind with
  | .call a => { c with kind := .call (withSite none a) }
  | _ => c

def blur (n : Nat) (σ : Store) : Store :=
  { σ with scopes := σ.scopes.mapIdx fun s c => if n ≤ s then unsited c else c }

section Scope

variable (c : Scope)

@[simp] theorem bindings_unsited : (unsited c).bindings = c.bindings := by
  cases h : c.kind <;> simp [unsited, h]

@[simp] theorem parent_unsited : (unsited c).parent = c.parent := by
  cases h : c.kind <;> simp [unsited, h]

@[simp] theorem mixins_unsited : (unsited c).mixins = c.mixins := by
  cases h : c.kind <;> simp [unsited, h]

@[simp] theorem returned_unsited : (unsited c).returned = c.returned := by
  cases h : c.kind <;> simp [unsited, h]

@[simp] theorem items_unsited : (unsited c).kind.items? = c.kind.items? := by
  cases h : c.kind <;> simp [unsited, h, ScopeKind.items?]

@[simp] theorem broken_unsited : (unsited c).kind.broken? = c.kind.broken? := by
  cases h : c.kind <;> simp [unsited, h, ScopeKind.broken?]

@[simp] theorem name_unsited : (unsited c).kind.name = c.kind.name := by
  cases h : c.kind <;> simp [unsited, h, ScopeKind.name]

@[simp] theorem activation_unsited : (unsited c).kind.activation? =
    c.kind.activation?.map (withSite none) := by
  cases h : c.kind <;> simp [unsited, h, ScopeKind.activation?]

@[simp] theorem unsited_unsited : unsited (unsited c) = unsited c := by
  cases h : c.kind <;> simp [unsited, h, withSite]

end Scope

section Store

variable {n : Nat} (σ : Store) (s : ScopeId)

theorem get_blur : (blur n σ).get s = if n ≤ s then unsited (σ.get s) else σ.get s := by
  rw [Store.get, Store.get, blur, Array.getElem?_mapIdx]
  cases h : σ.scopes[s]? with
  | none =>
      split
      · rfl
      · rfl
  | some c => rfl

theorem reading_blur {β : Type} {g : Scope → β} (hg : ∀ c, g (unsited c) = g c) :
    g ((blur n σ).get s) = g (σ.get s) := by
  rw [get_blur]
  split
  · exact hg _
  · rfl

@[simp] theorem size_blur : (blur n σ).size = σ.size := by
  simp [blur, Store.size]

@[simp] theorem digitLimit_blur : (blur n σ).digitLimit = σ.digitLimit := rfl

@[simp] theorem bindings_blur : ((blur n σ).get s).bindings = (σ.get s).bindings :=
  reading_blur σ s bindings_unsited

@[simp] theorem parent_blur : ((blur n σ).get s).parent = (σ.get s).parent :=
  reading_blur σ s parent_unsited

@[simp] theorem mixins_blur : ((blur n σ).get s).mixins = (σ.get s).mixins :=
  reading_blur σ s mixins_unsited

@[simp] theorem returned_blur : ((blur n σ).get s).returned = (σ.get s).returned :=
  reading_blur σ s returned_unsited

@[simp] theorem items_blur : (blur n σ).items? s = σ.items? s :=
  reading_blur σ s (g := fun c => c.kind.items?) items_unsited

@[simp] theorem isBroken_blur : (blur n σ).isBroken s = σ.isBroken s := by
  rw [Store.isBroken, Store.isBroken, reading_blur σ s (g := fun c => c.kind.broken?) broken_unsited]

@[simp] theorem name_blur : ((blur n σ).get s).kind.name = (σ.get s).kind.name :=
  reading_blur σ s (g := fun c => c.kind.name) name_unsited

@[simp] theorem blur_blur : blur n (blur n σ) = blur n σ := by
  simp only [blur, Array.mapIdx_mapIdx]
  congr 2
  funext s c
  dsimp only [Function.comp]
  split <;> simp

theorem modify_blur {σ : Store} {s : ScopeId} {e : Scope → Scope}
    (he : ∀ c, e (unsited c) = unsited (e c)) :
    (blur n σ).modify s e = blur n (σ.modify s e) := by
  apply store_ext
  · rfl
  · simp
  · intro t
    rw [Store.get_modify, get_blur, get_blur, Store.get_modify, size_blur]
    by_cases ht : t = s ∧ s < σ.size
    · simp only [if_pos ht]
      split
      · exact he _
      · rfl
    · simp only [if_neg ht]

theorem alloc_blur {σ : Store} {c d : Scope} (hn : n ≤ σ.size) (h : unsited c = unsited d) :
    blur n ((blur n σ).alloc c) = blur n (σ.alloc d) := by
  apply store_ext
  · rfl
  · simp
  · intro t
    rw [get_blur, get_blur, Store.get_alloc, Store.get_alloc, size_blur]
    by_cases ht : t = σ.size
    · have hnt : n ≤ t := ht ▸ hn
      rw [if_pos hnt, if_pos hnt, if_pos ht, if_pos ht, h]
    · rw [if_neg ht, if_neg ht, get_blur]
      split
      · exact unsited_unsited _
      · rfl

end Store

section Reading

variable {n : Nat} (σ : Store) (s : ScopeId) (name : String)

theorem resembles_blur (n : Nat) (σ : Store) : Resembles σ (blur n σ) where
  size := size_blur σ
  digitLimit := rfl
  bindings := bindings_blur σ
  parent := parent_blur σ
  returned := returned_blur σ
  items := items_blur σ
  broken := isBroken_blur σ
  kind := name_blur σ

@[simp] theorem owns_blur : (blur n σ).owns s name = σ.owns s name :=
  (resembles_blur n σ).owns s name

@[simp] theorem nexts_blur : (blur n σ).nexts s = σ.nexts s := by
  simp [Store.nexts]

@[simp] theorem className_blur (t : Term) : (blur n σ).className t = σ.className t :=
  (resembles_blur n σ).className t

theorem ownerWithin_blur (steps : Nat) (within : List ScopeId) :
    (blur n σ).ownerWithin name steps within s = σ.ownerWithin name steps within s := by
  induction steps generalizing within s with
  | zero => rfl
  | succ steps ih =>
      have hnext : (blur n σ).ownerWithin name steps (s :: within) =
          σ.ownerWithin name steps (s :: within) := funext fun u => ih u _
      rw [Store.ownerWithin, Store.ownerWithin, hnext]
      simp

@[simp] theorem owner_blur : (blur n σ).owner? s name = σ.owner? s name := by
  simp [Store.owner?, ownerWithin_blur]

@[simp] theorem callScope_blur : (blur n σ).callScope? s = σ.callScope? s :=
  (resembles_blur n σ).callScope s

@[simp] theorem lookup_blur : (blur n σ).lookup s name = σ.lookup s name :=
  (resembles_blur n σ).lookup (owner_blur σ s name)

@[simp] theorem binds_blur : (blur n σ).binds s name = σ.binds s name :=
  (resembles_blur n σ).binds (owner_blur σ s name)

@[simp] theorem source_blur (width : Nat) (level : Int) (t : Term) :
    (blur n σ).source width level t = σ.source width level t :=
  (resembles_blur n σ).source width level t

@[simp] theorem inspect_blur (t : Term) : (blur n σ).inspect t = σ.inspect t :=
  (resembles_blur n σ).inspect t

@[simp] theorem typeName_blur (t : Term) : (blur n σ).typeName t = σ.typeName t :=
  (resembles_blur n σ).typeName t

@[simp] theorem display_blur (width : Nat) (t : Term) :
    (blur n σ).display width t = σ.display width t :=
  (resembles_blur n σ).display width t

@[simp] theorem equal_blur (a b : Term) : (blur n σ).equal? a b = σ.equal? a b :=
  (resembles_blur n σ).equal a b

@[simp] theorem hasMixin_blur (source : ScopeId) :
    (blur n σ).hasMixin? s source = σ.hasMixin? s source := by
  rw [Store.hasMixin?, Store.hasMixin?, mixins_blur, (resembles_blur n σ).contains]

end Reading

section Writing

variable {n : Nat} (σ : Store) (s : ScopeId)

theorem setItems_blur (xs : List Term) :
    (blur n σ).setItems s xs = blur n (σ.setItems s xs) := by
  apply modify_blur
  intro c
  cases h : c.kind <;> simp [unsited, h]

theorem setBinding_blur (name : String) (t : Term) :
    (blur n σ).setBinding s name t = blur n (σ.setBinding s name t) := by
  apply modify_blur
  intro c
  cases h : c.kind <;> simp [unsited, h]

theorem eraseBinding_blur (name : String) :
    (blur n σ).eraseBinding s name = blur n (σ.eraseBinding s name) := by
  apply modify_blur
  intro c
  cases h : c.kind <;> simp [unsited, h]

theorem setReturned_blur (t : Term) :
    (blur n σ).setReturned s t = blur n (σ.setReturned s t) := by
  apply modify_blur
  intro c
  cases h : c.kind <;> simp [unsited, h]

theorem breakOff_blur : (blur n σ).breakOff s = blur n (σ.breakOff s) := by
  apply modify_blur
  intro c
  cases h : c.kind <;> simp [unsited, h]

theorem blur_guise (n : Nat) : Guise (blur n) where
  resembles := resembles_blur n
  setItems := setItems_blur
  setBinding := setBinding_blur
  eraseBinding := eraseBinding_blur

theorem define_blur (name : String) (f : Term) :
    (blur n σ).define s name f = (σ.define s name f).map (blur n) :=
  (blur_guise n).define σ s name f

theorem remove_blur (name : String) :
    (blur n σ).remove s name = (σ.remove s name).map (blur n) :=
  (blur_guise n).remove σ s name

theorem addMixin_blur (source : ScopeId) :
    (blur n σ).addMixin s source = (σ.addMixin s source).map (blur n) := by
  have hset (ms : List ScopeId) : (blur n σ).setMixins s ms = blur n (σ.setMixins s ms) := by
    apply modify_blur
    intro c
    cases h : c.kind <;> simp [unsited, h]
  rw [Store.addMixin, Store.addMixin, hasMixin_blur, mixins_blur, hset]
  split
  · rfl
  · rfl
  · rfl

end Writing

end BlockScript.Proofs
