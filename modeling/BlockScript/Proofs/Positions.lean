import BlockScript.Proofs.Resemblance
import BlockScript.Proofs.Writing

namespace BlockScript.Proofs.Positions

open Store Writing SlotName

inductive Access (ι : Type)
  | get (i : ι)
  | has (i : ι)
  | set (i : ι) (f : Term)
  | delete (i : ι)

namespace Access

variable {ι κ : Type}

def key : Access ι → ι
  | get i | has i | set i _ | delete i => i

def map (g : ι → κ) : Access ι → Access κ
  | get i => get (g i)
  | has i => has (g i)
  | set i f => set (g i) f
  | delete i => delete (g i)

end Access

inductive Answer
  | found (f : Option Term)
  | held (b : Bool)
  | done
  | refused (f : Fault)

section Store

variable (s : ScopeId)

def settle (σ : Store) : Except Fault Store → Answer × Store
  | .ok τ => (.done, τ)
  | .error f => (.refused f, σ)

def told {α : Type} (σ : Store) (g : α → Answer) : Except Fault α → Answer × Store
  | .ok a => (g a, σ)
  | .error f => (.refused f, σ)

def Access.perform (σ : Store) : Access String → Answer × Store
  | get n => told σ .found (σ.lookup s n)
  | has n => told σ .held (σ.binds s n)
  | set n f => settle σ (σ.define s n f)
  | delete n => settle σ (σ.remove s n)

def performAll : List (Access String) → Store → List Answer × Store
  | [], σ => ([], σ)
  | a :: as, σ =>
      let r := a.perform s σ
      let rest := performAll as r.2
      (r.1 :: rest.1, rest.2)

end Store

inductive Reply
  | item (x : Option Term)
  | present (b : Bool)
  | done
  | beyond (i size : Nat)
  | unfit (f : Term)

namespace Access

def apply (xs : List Term) : Access Nat → List Term
  | set i (.var v _ _ _) =>
      if i < xs.length then xs.set i v else if i = xs.length then xs ++ [v] else xs
  | delete i => xs.eraseIdx i
  | _ => xs

def reply (xs : List Term) : Access Nat → Reply
  | get i => .item xs[i]?
  | has i => .present (i < xs.length)
  | set i (.var _ _ _ _) => if i ≤ xs.length then .done else .beyond i xs.length
  | set _ f => .unfit f
  | delete _ => .done

end Access

def applyAll (xs : List Term) (ops : List (Access Nat)) : List Term :=
  ops.foldl Access.apply xs

def replies : List Term → List (Access Nat) → List Reply
  | _, [] => []
  | xs, op :: ops => op.reply xs :: replies (op.apply xs) ops

def Reply.worded (σ : Store) (n : String) : Reply → Answer
  | item x => .found (x.map fun x => .var x false n)
  | present b => .held b
  | done => .done
  | beyond i size => .refused (.slotOutOfRange i size)
  | unfit f => .refused (.slotNeedsVariable n (σ.className f))

def Answer.unnamed : Answer → Answer
  | found (some (.var v c _ k)) => found (some (.var v c "" k))
  | refused (.slotNeedsVariable _ c) => refused (.slotNeedsVariable "" c)
  | r => r

/-- A name that stands for a position, written in digits of which there are no more than the limit;
without a limit every numeral is one. -/
def Readable (limit : Option Nat) (n : String) : Prop :=
  isNumeral n = true ∧ limit.all (n.toList.length ≤ ·) = true

variable {σ : Store} {s : ScopeId} {xs : List Term} {n : String} {a : Access String}

section SetItems

theorem get_setItems (hx : σ.items? s = some xs) (ys : List Term) (t : ScopeId) :
    (σ.setItems s ys).get t = if t = s then { σ.get s with kind := .list ys } else σ.get t := by
  rw [setItems, get_modify]
  by_cases ht : t = s
  · rw [if_pos ⟨ht, lt_size_of_items hx⟩, if_pos ht, ht]
  · rw [if_neg fun h => ht h.1, if_neg ht]

theorem items_setItems (hx : σ.items? s = some xs) (ys : List Term) :
    (σ.setItems s ys).items? s = some ys := by
  rw [items?, get_setItems hx, if_pos rfl]
  rfl

theorem setItems_self (hx : σ.items? s = some xs) : σ.setItems s xs = σ := by
  apply store_ext
  · rfl
  · exact size_modify _
  · intro t
    rw [get_setItems hx]
    split
    next ht => rw [ht, ← kind_of_items hx]
    next => rfl

theorem setItems_setItems (hx : σ.items? s = some xs) (ys zs : List Term) :
    (σ.setItems s ys).setItems s zs = σ.setItems s zs := by
  apply store_ext
  · rfl
  · simp only [setItems, size_modify]
  · intro t
    rw [get_setItems (items_setItems hx ys), get_setItems hx, get_setItems hx, get_setItems hx,
      if_pos rfl]
    split
    · rfl
    · rfl

theorem className_setItems (hx : σ.items? s = some xs) (ys : List Term) (t : Term) :
    (σ.setItems s ys).className t = σ.className t := by
  cases t with
  | scope u =>
      simp only [className]
      rw [get_setItems hx]
      split
      next hu => rw [hu, kind_of_items hx]; rfl
      next => rfl
  | _ => rfl

theorem worded_setItems (hx : σ.items? s = some xs) (ys : List Term) (n : String) (r : Reply) :
    r.worded (σ.setItems s ys) n = r.worded σ n := by
  cases r with
  | unfit f => simp only [Reply.worded, className_setItems hx]
  | _ => rfl

end SetItems

theorem settle_defineItem (hx : σ.items? s = some xs) (i : Nat) (f : Term) :
    settle σ (σ.defineItem s n xs i f) =
      (((Access.set i f).reply xs).worded σ n, σ.setItems s ((Access.set i f).apply xs)) := by
  have hsame := setItems_self hx
  cases f with
  | var v c m k =>
      rw [defineItem, Access.reply, Access.apply]
      rcases Nat.lt_trichotomy i xs.length with h | h | h
      · rw [if_pos h, if_pos h, if_pos (Nat.le_of_lt h)]
        rfl
      · have hlt : ¬i < xs.length := by omega
        rw [if_neg hlt, if_neg hlt, if_pos h, if_pos h, if_pos (Nat.le_of_eq h)]
        rfl
      · have hlt : ¬i < xs.length := by omega
        have hne : ¬i = xs.length := by omega
        rw [if_neg hlt, if_neg hlt, if_neg hne, if_neg hne, if_neg (Nat.not_le_of_lt h), hsame]
        rfl
  | _ => exact Prod.ext rfl hsame.symm

namespace Readable

variable (h : Readable σ.digitLimit n) (hx : σ.items? s = some xs)
include h

theorem ofName : SlotName.ofName σ.digitLimit n = .index (position n) :=
  ofName_of_isNumeral h.1 h.2

include hx

theorem lookup : σ.lookup s n = .ok (xs[position n]?.map fun x => .var x false n) := by
  simp only [Store.lookup, hx, h.ofName]

theorem binds : σ.binds s n = .ok (position n < xs.length) := by
  simp only [Store.binds, hx, h.ofName]

theorem define (f : Term) : σ.define s n f = σ.defineItem s n xs (position n) f := by
  simp only [Store.define, hx, h.ofName]

theorem remove : σ.remove s n = .ok (σ.setItems s (xs.eraseIdx (position n))) := by
  simp only [Store.remove, hx, h.ofName]

end Readable

theorem lookup_length (hx : σ.items? s = some xs) :
    σ.lookup s "length" = .ok (some (.var (.num xs.length) true "length")) := by
  simp only [Store.lookup, hx, ofName_eq_length_iff.2]

theorem perform_eq (hx : σ.items? s = some xs) (hn : Readable σ.digitLimit a.key) :
    a.perform s σ = (((a.map position).reply xs).worded σ a.key,
      σ.setItems s ((a.map position).apply xs)) := by
  have hsame := setItems_self hx
  cases a with
  | get n =>
      rw [Access.perform, Readable.lookup (n := n) hn hx]
      exact Prod.ext rfl hsame.symm
  | has n =>
      rw [Access.perform, Readable.binds (n := n) hn hx]
      exact Prod.ext rfl hsame.symm
  | set n f =>
      rw [Access.perform, Readable.define (n := n) hn hx]
      exact settle_defineItem hx _ f
  | delete n =>
      rw [Access.perform, Readable.remove (n := n) hn hx]
      rfl

theorem performAll_eq {as : List (Access String)} (hx : σ.items? s = some xs)
    (hn : ∀ a ∈ as, Readable σ.digitLimit a.key) :
    performAll s as σ =
      (List.zipWith (fun a r => r.worded σ a.key) as (replies xs (as.map (·.map position))),
        σ.setItems s (applyAll xs (as.map (·.map position)))) := by
  induction as generalizing σ xs with
  | nil => exact Prod.ext rfl (setItems_self hx).symm
  | cons a as ih =>
      obtain ⟨ha, hn⟩ := List.forall_mem_cons.1 hn
      have hys := items_setItems hx ((a.map position).apply xs)
      rw [performAll, perform_eq hx ha]
      simp only
      rw [ih hys hn, setItems_setItems hx]
      simp only [worded_setItems hx]
      rfl

theorem unnamed_worded (σ : Store) (n n' : String) (r : Reply) :
    (r.worded σ n).unnamed = (r.worded σ n').unnamed := by
  cases r with
  | item x => cases x <;> rfl
  | _ => rfl

theorem unnamed_answers (σ : Store) {as bs : List (Access String)}
    (h : as.map (·.map position) = bs.map (·.map position)) (rs : List Reply) :
    (List.zipWith (fun a r => r.worded σ a.key) as rs).map Answer.unnamed =
      (List.zipWith (fun a r => r.worded σ a.key) bs rs).map Answer.unnamed := by
  have hnameless (cs : List (Access String)) :
      (List.zipWith (fun a r => r.worded σ a.key) cs rs).map Answer.unnamed =
        List.zipWith (fun _ r => (r.worded σ "").unnamed) (cs.map (·.map position)) rs := by
    rw [List.map_zipWith, List.zipWith_map_left]
    congr 1
    funext a r
    exact unnamed_worded σ a.key "" r
  rw [hnameless, hnameless, h]

/-- A list is a sequence to whoever goes by positions: its items become what the same operations make
of a sequence, and it answers what the sequence does. Nothing else of it changes, nor of any other
scope. How a position is spelled is seen in the names that answers bear alone. -/
theorem list_refines {as : List (Access String)} (hx : σ.items? s = some xs)
    (hn : ∀ a ∈ as, Readable σ.digitLimit a.key) :
    let ops := as.map (·.map position)
    let ys := applyAll xs ops
    let r := performAll s as σ
    (r.1 = List.zipWith (fun a r => r.worded σ a.key) as (replies xs ops) ∧
      r.2 = σ.setItems s ys) ∧
    (r.2.items? s = some ys ∧ (r.2.get s).bindings = (σ.get s).bindings ∧
      r.2.lookup s "length" = .ok (some (.var (.num ys.length) true "length"))) ∧
    ∀ bs : List (Access String), (∀ b ∈ bs, Readable σ.digitLimit b.key) →
      bs.map (·.map position) = ops → (performAll s bs σ).2 = r.2 ∧
        (performAll s bs σ).1.map Answer.unnamed = r.1.map Answer.unnamed := by
  intro ops ys r
  have hr : r = _ := performAll_eq hx hn
  rw [hr]
  have hys := items_setItems hx ys
  have hbindings : ((σ.setItems s ys).get s).bindings = (σ.get s).bindings := by
    rw [get_setItems hx, if_pos rfl]
  refine ⟨⟨rfl, rfl⟩, ⟨hys, hbindings, lookup_length hys⟩, ?_⟩
  intro bs hb hsame
  rw [performAll_eq hx hb, hsame]
  exact ⟨rfl, unnamed_answers σ hsame _⟩

def shelf : Store :=
  { scopes := #[{ kind := .list [.num 1, .num 2], bindings := [("x", .num 9)] }], digitLimit := none }

def errands : List (Access String) :=
  [.set "002" (.var (.num 3) false ""), .delete "0", .get "01", .has "2", .set "7" .null,
    .set "7" (.var .null true "")]

theorem list_refines_shelf :
    shelf.items? 0 = some [.num 1, .num 2] ∧ (∀ a ∈ errands, Readable shelf.digitLimit a.key) ∧
      (performAll 0 errands shelf).1 = [.done, .done, .found (some (.var (.num 3) false "01")),
        .held false, .refused (.slotNeedsVariable "7" "NoneType"), .refused (.slotOutOfRange 7 2)] ∧
      (performAll 0 errands shelf).2.items? 0 = some [.num 2, .num 3] ∧
      ((performAll 0 errands shelf).2.get 0).bindings = [("x", .num 9)] := by
  have hn : ∀ a ∈ errands, Readable shelf.digitLimit a.key := by
    simp only [errands, Readable, List.forall_mem_cons]
    decide
  obtain ⟨⟨hanswers, -⟩, ⟨hitems, hbindings, -⟩, -⟩ := list_refines (σ := shelf) (s := 0) rfl hn
  exact ⟨rfl, hn, hanswers, hitems, hbindings⟩

/-- Two spellings of one position read different variables. -/
theorem lookup_spelling :
    isNumeral "1" = true ∧ isNumeral "01" = true ∧ position "01" = position "1" ∧
      shelf.lookup 0 "1" = .ok (some (.var (.num 2) false "1")) ∧
      shelf.lookup 0 "01" = .ok (some (.var (.num 2) false "01")) ∧
      shelf.lookup 0 "01" ≠ shelf.lookup 0 "1" := by
  have hone : shelf.lookup 0 "1" = .ok (some (.var (.num 2) false "1")) := rfl
  have hspelled : shelf.lookup 0 "01" = .ok (some (.var (.num 2) false "01")) := rfl
  refine ⟨by decide, by decide, by decide, hone, hspelled, ?_⟩
  rw [hone, hspelled]
  simp

end BlockScript.Proofs.Positions
