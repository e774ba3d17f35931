/-
Runs of a labelled transition system.

`Run step s as t` says that the steps labelled `as` lead from `s` to `t`.  The
rules below are all that the systems of this development use: an invariant of
every step is an invariant of every run, under a condition on the steps if need
be, and runs compose.
-/
import Mathlib

/-- A finite run, its labels in order. -/
inductive Run {σ α : Type*} (step : σ → α → σ → Prop) (s : σ) : List α → σ → Prop
  | nil : Run step s [] s
  | snoc {as : List α} {t u : σ} {a : α} :
      Run step s as t → step t a u → Run step s (as ++ [a]) u

namespace Run

variable {σ α : Type*} {step : σ → α → σ → Prop} {s t u : σ} {as bs : List α}

/-- **Invariants.**  What holds at the start and is kept by every step holds at the end. -/
theorem invariant {I : σ → Prop} (h : Run step s as t) (h0 : I s)
    (hstep : ∀ {t a u}, I t → step t a u → I u) : I t := by
  induction h with
  | nil => exact h0
  | snoc _ hs ih => exact hstep ih hs

/-- An invariant that also speaks of what has happened so far. -/
theorem history {I : List α → σ → Prop} (h : Run step s as t) (h0 : I [] s)
    (hstep : ∀ {as t a u}, I as t → step t a u → I (as ++ [a]) u) : I as t := by
  induction h with
  | nil => exact h0
  | snoc _ hs ih => exact hstep ih hs

/-- The empty run. -/
theorem refl (step : σ → α → σ → Prop) (s : σ) : Run step s [] s := nil

theorem single {a : α} (h : step s a t) : Run step s [a] t := snoc nil h

theorem trans (h : Run step s as t) (h' : Run step t bs u) : Run step s (as ++ bs) u := by
  induction h' with
  | nil => rwa [List.append_nil]
  | snoc _ hs ih =>
    rw [← List.append_assoc]
    exact snoc ih hs

/-- A step of a run, and the run up to there. -/
theorem before {a : α} (h : Run step s (as ++ a :: bs) t) :
    ∃ u v, Run step s as u ∧ step u a v := by
  generalize hlabels : as ++ a :: bs = labels at h
  induction h generalizing bs with
  | nil => simp at hlabels
  | @snoc labels u v b hrun hs ih =>
    rcases List.eq_nil_or_concat bs with rfl | ⟨bs, c, rfl⟩
    · obtain ⟨rfl, hlast⟩ := List.append_inj' hlabels rfl
      obtain rfl := List.singleton_inj.mp hlast
      exact ⟨u, v, hrun, hs⟩
    · have hsplit : (as ++ a :: bs) ++ [c] = labels ++ [b] := by
        rw [← hlabels, List.concat_eq_append, List.append_assoc, List.cons_append]
      exact ih (List.append_inj' hsplit rfl).1

/-- A run whose steps are steps of another system. -/
theorem mono {step' : σ → α → σ → Prop} (hle : ∀ {t a u}, step t a u → step' t a u)
    (h : Run step s as t) : Run step' s as t := by
  induction h with
  | nil => exact nil
  | snoc _ hs ih => exact snoc ih (hle hs)

/-- **Simulation.**  When every step of a system is a step of another, seen through `view`,
or shows nothing there, so does every run. -/
theorem simulate {τ β : Type*} {step' : τ → β → τ → Prop} (view : σ → τ)
    (hstep : ∀ {t a u}, step t a u → view u = view t ∨ ∃ b, step' (view t) b (view u))
    (h : Run step s as t) : ∃ bs, Run step' (view s) bs (view t) := by
  induction h with
  | nil => exact ⟨[], nil⟩
  | snoc _ hs ih =>
    obtain ⟨bs, hbs⟩ := ih
    rcases hstep hs with hsame | ⟨b, hb⟩
    · exact ⟨bs, by rwa [hsame]⟩
    · exact ⟨bs ++ [b], hbs.snoc hb⟩

/-- **Refinement.**  When every step of a system goes along with a step of another that shows the
same, so does every run. -/
theorem related {τ : Type*} {step' : τ → α → τ → Prop} {R : σ → τ → Prop}
    (h : Run step s as t) (hstep : ∀ {t a u c}, R t c → step t a u → ∃ d, step' c a d ∧ R u d)
    {c : τ} (hs : R s c) : ∃ d, Run step' c as d ∧ R t d := by
  induction h with
  | nil => exact ⟨c, nil, hs⟩
  | snoc _ ht ih =>
    obtain ⟨d, hrun, hd⟩ := ih
    obtain ⟨e, hlast, he⟩ := hstep hd ht
    exact ⟨e, hrun.snoc hlast, he⟩

end Run

/-- The steps of a system that meet a condition on the state they start from. -/
def Guarded {σ α : Type*} (step : σ → α → σ → Prop) (C : σ → α → Prop) :
    σ → α → σ → Prop :=
  fun s a t => step s a t ∧ C s a

/-- **Conditions that are exact.**  When, from a good state that has the invariant, a step
meets the condition exactly if it leads to a good state, the runs whose steps all meet the
condition are the runs that stay good. -/
theorem Run.guarded_iff {σ α : Type*} {step : σ → α → σ → Prop} {C : σ → α → Prop}
    {I G : σ → Prop} {s t : σ} {as : List α} (h0 : I s) (hgood : G s)
    (hstep : ∀ {t a u}, I t → step t a u → I u)
    (hC : ∀ {t a u}, I t → G t → step t a u → (C t a ↔ G u)) :
    Run (Guarded step C) s as t ↔ Run (fun t a u => step t a u ∧ G u) s as t := by
  constructor
  · intro h
    refine (?_ : (I t ∧ G t) ∧ Run (fun t a u => step t a u ∧ G u) s as t).2
    induction h with
    | nil => exact ⟨⟨h0, hgood⟩, nil⟩
    | snoc _ hs ih =>
      obtain ⟨⟨hI, hG⟩, hrun⟩ := ih
      have hG' := (hC hI hG hs.1).mp hs.2
      exact ⟨⟨hstep hI hs.1, hG'⟩, hrun.snoc ⟨hs.1, hG'⟩⟩
  · intro h
    refine (?_ : (I t ∧ G t) ∧ Run (Guarded step C) s as t).2
    induction h with
    | nil => exact ⟨⟨h0, hgood⟩, nil⟩
    | snoc _ hs ih =>
      obtain ⟨⟨hI, hG⟩, hrun⟩ := ih
      exact ⟨⟨hstep hI hs.1, hs.2⟩, hrun.snoc ⟨hs.1, (hC hI hG hs.1).mpr hs.2⟩⟩

/-- However the steps go on from a state, they come to one in `E`, and do not stop before. -/
inductive Inevitable {σ α : Type*} (step : σ → α → σ → Prop) (E : σ → Prop) : σ → Prop
  | now {s : σ} : E s → Inevitable step E s
  | later {s : σ} : (∃ a t, step s a t) → (∀ a t, step s a t → Inevitable step E t) →
      Inevitable step E s

/-- **Termination.**  It is enough that there is a step from every state that is not in `E`, and
that each step lowers a rank. -/
theorem Inevitable.of_rank {σ α : Type*} {step : σ → α → σ → Prop} {I E : σ → Prop}
    (rank : σ → ℕ) (hstep : ∀ {t a u}, I t → step t a u → I u ∧ rank u < rank t)
    (hprogress : ∀ {t}, I t → E t ∨ ∃ a u, step t a u) {s : σ} (hs : I s) :
    Inevitable step E s := by
  induction hrank : rank s using Nat.strong_induction_on generalizing s with
  | _ n ih =>
    rcases hprogress hs with hE | hmore
    · exact .now hE
    · refine .later hmore fun a t ht => ?_
      obtain ⟨hI, hlt⟩ := hstep hs ht
      exact ih (rank t) (hrank ▸ hlt) hI rfl
