/-
Computations that may raise, by when they return.

`ReturnsIff x p I` says that `x` returns a value exactly when `p` holds, and that the value
is then in `I`.  The rules follow the structure of a computation: `bind` for a sequence,
`foldlM` and `mapM` for loops.  `Raises E x` says what it may raise.
-/
import Mathlib
import VStorage.Py

/-- `x` returns exactly when `p` holds, and what it returns is in `I`. -/
structure ReturnsIff {ε α : Type*} (x : Except ε α) (p : Prop) (I : α → Prop) : Prop where
  returns : p → ∃ a, I a ∧ x = .ok a
  only : ∀ a, x = .ok a → p

namespace ReturnsIff

variable {ε : Type*} {α β σ : Type _} {x : Except ε α} {p q : Prop} {I J : α → Prop}

theorem ok {a : α} (ha : I a) : ReturnsIff (.ok a : Except ε α) True I :=
  ⟨fun _ => ⟨a, ha, rfl⟩, fun _ _ => trivial⟩

theorem pure {a : α} (ha : I a) : ReturnsIff (Pure.pure a : Except ε α) True I := ok ha

/-- A computation that has returned. -/
theorem of_ok (hp : p) {a : α} (ha : I a) (h : x = .ok a) : ReturnsIff x p I :=
  ⟨fun _ => ⟨a, ha, h⟩, fun _ _ => hp⟩

theorem of_error (hp : ¬ p) {e : ε} (h : x = .error e) : ReturnsIff x p I :=
  ⟨fun hyes => absurd hyes hp, fun a ha => by rw [h] at ha; cases ha⟩

theorem iff (h : ReturnsIff x p I) (hpq : p ↔ q) : ReturnsIff x q I :=
  ⟨fun hq => h.returns (hpq.mpr hq), fun a ha => hpq.mp (h.only a ha)⟩

theorem mono (h : ReturnsIff x p I) (hIJ : ∀ a, I a → J a) : ReturnsIff x p J := by
  refine ⟨fun hp => ?_, h.only⟩
  obtain ⟨a, ha, hx⟩ := h.returns hp
  exact ⟨a, hIJ a ha, hx⟩

theorem exists_iff (h : ReturnsIff x p I) : (∃ a, x = .ok a) ↔ p := by
  constructor
  · rintro ⟨a, ha⟩
    exact h.only a ha
  · intro hp
    obtain ⟨a, -, ha⟩ := h.returns hp
    exact ⟨a, ha⟩

/-- A sequence returns exactly when both parts do. -/
theorem bind (h : ReturnsIff x p I) {f : α → Except ε β} {K : β → Prop}
    (hf : ∀ a, I a → ReturnsIff (f a) q K) : ReturnsIff (x >>= f) (p ∧ q) K := by
  constructor
  · rintro ⟨hp, hq⟩
    obtain ⟨a, ha, rfl⟩ := h.returns hp
    exact (hf a ha).returns hq
  · intro b hb
    obtain ⟨a, hx, hfa⟩ := bind_eq_ok.mp hb
    have hp := h.only a hx
    obtain ⟨a', ha', hx'⟩ := h.returns hp
    obtain rfl := Except.ok.inj (hx.symm.trans hx')
    exact ⟨hp, (hf a ha').only b hfa⟩

/-- A loop with an invariant returns exactly when every turn does. -/
theorem foldlM {f : σ → β → Except ε σ} {xs : List β} {I : σ → Prop} {Good : β → Prop}
    (h : ∀ s, I s → ∀ b ∈ xs, ReturnsIff (f s b) (Good b) I) {s : σ} (hs : I s) :
    ReturnsIff (xs.foldlM f s) (∀ b ∈ xs, Good b) I := by
  induction xs generalizing s with
  | nil => exact of_ok (List.forall_mem_nil _) hs rfl
  | cons b xs ih =>
    rw [List.foldlM_cons]
    refine ((h s hs b List.mem_cons_self).bind fun t ht => ?_).iff List.forall_mem_cons.symm
    exact ih (fun s hs c hc => h s hs c (List.mem_cons_of_mem _ hc)) ht

/-- A loop returns exactly when the body does on every element. -/
theorem mapM {f : β → Except ε α} {xs : List β} {Good : β → Prop}
    (h : ∀ b ∈ xs, ReturnsIff (f b) (Good b) I) :
    ReturnsIff (xs.mapM f) (∀ b ∈ xs, Good b) fun ys => ∀ y ∈ ys, I y := by
  induction xs with
  | nil => exact of_ok (List.forall_mem_nil _) (List.forall_mem_nil _) rfl
  | cons b xs ih =>
    obtain ⟨hb, hxs⟩ := List.forall_mem_cons.mp h
    rw [List.mapM_cons]
    refine (hb.bind fun a ha => ((ih hxs).bind fun ys hys =>
      ok (List.forall_mem_cons.mpr ⟨ha, hys⟩))).iff ?_
    rw [and_true, List.forall_mem_cons]

end ReturnsIff

/-- What `x` raises, if it raises, is in `E`. -/
def Raises {ε α : Type*} (E : ε → Prop) (x : Except ε α) : Prop := ∀ e, x = .error e → E e

namespace Raises

variable {ε : Type*} {α β σ : Type _} {E : ε → Prop} {x : Except ε α}

theorem ok (a : α) : Raises E (.ok a : Except ε α) := nofun

theorem error {e : ε} (he : E e) : Raises E (.error e : Except ε α) := fun _ h =>
  Except.error.inj h ▸ he

theorem bind (h : Raises E x) {f : α → Except ε β} (hf : ∀ a, Raises E (f a)) :
    Raises E (x >>= f) := by
  intro e he
  rcases bind_eq_error.mp he with hx | ⟨a, -, hfa⟩
  · exact h e hx
  · exact hf a e hfa

theorem foldlM {f : σ → β → Except ε σ} {xs : List β} (h : ∀ s b, Raises E (f s b)) (s : σ) :
    Raises E (xs.foldlM f s) := by
  induction xs generalizing s with
  | nil => exact ok s
  | cons b xs ih =>
    rw [List.foldlM_cons]
    exact (h s b).bind ih

theorem mapM {f : β → Except ε α} {xs : List β} (h : ∀ b, Raises E (f b)) :
    Raises E (xs.mapM f) := by
  induction xs with
  | nil => exact ok []
  | cons b xs ih =>
    rw [List.mapM_cons]
    exact (h b).bind fun _ => ih.bind fun _ => ok _

end Raises

theorem foldlM_congr {ε σ β : Type*} {f g : σ → β → Except ε σ} {xs : List β}
    (h : ∀ b ∈ xs, ∀ s, f s b = g s b) (s : σ) : xs.foldlM f s = xs.foldlM g s := by
  induction xs generalizing s with
  | nil => rfl
  | cons b xs ih =>
    rw [List.foldlM_cons, List.foldlM_cons, h b List.mem_cons_self]
    exact congrArg _ (funext fun t => ih (fun c hc => h c (List.mem_cons_of_mem _ hc)) t)

section Loops

variable {ε : Type*} {α β : Type _} {f : β → Except ε α} {xs : List β}

theorem mapM_eq_ok_iff {ys : List α} :
    xs.mapM f = .ok ys ↔ List.Forall₂ (fun b y => f b = .ok y) xs ys := by
  induction xs generalizing ys with
  | nil =>
    rw [List.forall₂_nil_left_iff]
    refine ⟨fun h => (Except.ok.inj h).symm, fun h => ?_⟩
    rw [h]
    rfl
  | cons b xs ih =>
    rw [List.mapM_cons, List.forall₂_cons_left_iff]
    constructor
    · intro h
      obtain ⟨y, hy, h⟩ := bind_eq_ok.mp h
      obtain ⟨ys', hys, h⟩ := bind_eq_ok.mp h
      exact ⟨y, ys', hy, ih.mp hys, (Except.ok.inj h).symm⟩
    · rintro ⟨y, ys', hy, hys, rfl⟩
      rw [hy, ok_bind, ih.mpr hys]
      rfl

/-- A loop raises what the first turn does that raises. -/
theorem exists_of_mapM_eq_error {e : ε} (h : xs.mapM f = .error e) :
    ∃ pre b post, xs = pre ++ b :: post ∧ (∀ c ∈ pre, ∃ y, f c = .ok y) ∧ f b = .error e := by
  induction xs with
  | nil => cases h
  | cons b xs ih =>
    rw [List.mapM_cons] at h
    rcases bind_eq_error.mp h with hb | ⟨y, hy, h⟩
    · exact ⟨[], b, xs, rfl, List.forall_mem_nil _, hb⟩
    · rcases bind_eq_error.mp h with hxs | ⟨_, _, hok⟩
      · obtain ⟨pre, c, post, rfl, hpre, hc⟩ := ih hxs
        exact ⟨b :: pre, c, post, rfl, List.forall_mem_cons.mpr ⟨⟨y, hy⟩, hpre⟩, hc⟩
      · cases hok

end Loops
