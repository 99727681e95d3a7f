import BlockScript.Kit
import BlockScript.Proofs.Writable
import BlockScript.Session

namespace BlockScript.Proofs.Reports

open Evaluator Faulting Writable

variable {σ : Store}

def Unreportable (σ : Store) (e : Failure) : Prop :=
  (∃ f reason, e.fault = .untold f reason) ∨
    ∃ frame ∈ e.trace.getD [], ∃ t ∈ frame.args, Unwritable σ t

theorem mapM_ok_iff {α β : Type} {xs : List α} {k : α → Except Fault β} :
    (∃ ys, xs.mapM k = .ok ys) ↔ ∀ x ∈ xs, ∃ y, k x = .ok y := by
  constructor
  · rintro ⟨ys, h⟩ x hx
    exact mapM_ok h hx
  · intro h
    induction xs with
    | nil => exact ⟨[], rfl⟩
    | cons x xs ih =>
        obtain ⟨y, hy⟩ := h x List.mem_cons_self
        obtain ⟨ys, hys⟩ := ih fun z hz => h z (List.mem_cons_of_mem x hz)
        refine ⟨y :: ys, ?_⟩
        rw [List.mapM_cons, hy]
        change (xs.mapM k >>= fun ys => pure (y :: ys)) = _
        rw [hys]
        rfl

theorem bind_pure_ok_iff {α β : Type} {r : Except Fault α} {k : α → β} :
    (∃ b, (r >>= fun a => pure (k a)) = .ok b) ↔ ∃ a, r = .ok a := by
  constructor
  · rintro ⟨b, h⟩
    obtain ⟨a, ha, -⟩ := bind_ok h
    exact ⟨a, ha⟩
  · rintro ⟨a, rfl⟩
    exact ⟨k a, rfl⟩

theorem frame_text_ok_iff (frame : Frame) :
    (∃ text, frame.text σ = .ok text) ↔ ∀ t ∈ frame.args, ¬Unwritable σ t := by
  have hargs : (∃ texts, frame.args.mapM (σ.source standardWidth 0) = .ok texts) ↔
      ∀ t ∈ frame.args, ¬Unwritable σ t := by
    rw [mapM_ok_iff]
    exact forall₂_congr fun t _ => source_ok_iff standardWidth 0 t
  rw [← hargs]
  exact bind_pure_ok_iff

theorem told_cases (f : Fault) :
    (∃ g reason, f = .untold g reason ∧ f.told = .error reason) ∨
      (∀ g reason, f ≠ .untold g reason) ∧ f.told = .ok f := by
  cases f
  case untold g reason => exact .inl ⟨g, reason, rfl, rfl⟩
  all_goals exact .inr ⟨by simp, rfl⟩

theorem text_ok_iff (e : Failure) : (∃ text, e.text σ = .ok text) ↔ ¬Unreportable σ e := by
  rw [Failure.text]
  rcases told_cases e.fault with ⟨g, reason, hf, ht⟩ | ⟨hf, ht⟩
  · refine iff_of_false ?_ fun h => h (.inl ⟨g, reason, hf⟩)
    rw [ht]
    rintro ⟨text, ⟨⟩⟩
  · have hframes : (∃ texts, (e.trace.getD []).mapM (Frame.text σ) = .ok texts) ↔
        ¬Unreportable σ e := by
      rw [mapM_ok_iff]
      have hiff : Unreportable σ e ↔ ∃ frame ∈ e.trace.getD [], ∃ t ∈ frame.args, Unwritable σ t :=
        or_iff_right fun ⟨g, reason, h⟩ => hf g reason h
      rw [hiff]
      push Not
      exact forall₂_congr fun frame _ => frame_text_ok_iff frame
    rw [← hframes, ht]
    cases e.trace.getD [] with
    | nil => exact iff_of_true ⟨_, rfl⟩ ⟨[], rfl⟩
    | cons frame frames => exact bind_pure_ok_iff

/-- How a script ends: with the value of its run and the effects of its run, or with the report of
its failure and the effects of its run before a last one that tells the report. A failure that cannot
be reported escapes: what is passed on is the fault of the report. -/
theorem run_cases (host : Host) (s : Session) (c : Code) :
    match runIn (caller host) s.global c s.ready with
    | (.ok v, st) => s.run host c = (.ok (.success v st.effects), { s with state := st })
    | (.error e, st) =>
        (∃ message, ¬Unreportable st.store e ∧ e.text st.store = .ok message ∧
          s.run host c =
            (.ok (.failure message e (st.effects ++ [⟨["stderr"], message⟩])),
              { s with state := { st with effects := st.effects ++ [⟨["stderr"], message⟩] } })) ∨
        ∃ f, Unreportable st.store e ∧ e.text st.store = .error f ∧
          s.run host c = (.error f, { s with state := st }) := by
  rcases hr : runIn (caller host) s.global c s.ready with ⟨e | v, st⟩
  · cases ht : e.text st.store with
    | ok message =>
        refine .inl ⟨message, (text_ok_iff e).1 ⟨message, ht⟩, ht, ?_⟩
        rw [Session.run, hr]
        simp only [ht]
    | error f =>
        refine .inr ⟨f, ?_, ht, ?_⟩
        · by_contra h
          obtain ⟨message, hm⟩ := (text_ok_iff e).2 h
          rw [ht] at hm
          cases hm
        · rw [Session.run, hr]
          simp only [ht]
  · rw [Session.run, hr]

def swallowing : Code where
  params := []
  statements :=
    [.call "fn" [.ref "f" none] (some ⟨[.call "args" [] none], []⟩),
      .call "let" [.ref "l" none] (some ⟨[.call "f" [.num 1] none], []⟩),
      .call "let" [.ref "0" (some (.call "l" [] none))] (some ⟨[.call "l" [] none], []⟩),
      .call "p" [.call "l" [] none] none]

theorem run_swallowing :
    (Session.new 100 false).toOption.any fun s => (s.run Kit.host swallowing).1.toOption.isNone := by
  decide +kernel

end BlockScript.Proofs.Reports
