/-
Computations that may raise, with a record of what they have done on the way.

`Traced ω ε α` is a result together with the list of events up to it.  Leaving the list out
(`result_bind`, `result_foldlM`, `result_mapM`) gives the computation itself.  `Keeps P E I x`
says that all events of `x` are in `P`, what it raises is in `E` and what it returns in `I`; the
rules follow the structure of a computation.
-/
import Mathlib
import VStorage.Py

/-- A computation's events in order, and how it ends. -/
structure Traced (ω ε α : Type) where
  trace : List ω
  result : Except ε α

namespace Traced

variable {ω ω' ε ε' α β σ : Type}

@[ext] theorem ext {x y : Traced ω ε α} (htrace : x.trace = y.trace)
    (hresult : x.result = y.result) : x = y := by
  obtain ⟨trace, result⟩ := x
  obtain rfl : trace = y.trace := htrace
  obtain rfl : result = y.result := hresult
  rfl

/-- An exception ends the computation, and what has been recorded stays. -/
def bind (x : Traced ω ε α) (f : α → Traced ω ε β) : Traced ω ε β :=
  match x.result with
  | .ok a => ⟨x.trace ++ (f a).trace, (f a).result⟩
  | .error e => ⟨x.trace, .error e⟩

instance : Monad (Traced ω ε) where
  pure a := ⟨[], .ok a⟩
  bind := bind

/-- A computation that records nothing. -/
def lift (x : Except ε α) : Traced ω ε α := ⟨[], x⟩

/-- A computation that is recorded as one event. -/
def record (event : ω) (x : Except ε α) : Traced ω ε α := ⟨[event], x⟩

/-- The same computation, its events told as others. -/
def retell (f : ω → ω') (x : Traced ω ε α) : Traced ω' ε α := ⟨x.trace.map f, x.result⟩

/-- The exception becomes a value. -/
def attempt (x : Traced ω ε α) : Traced ω ε' (Except ε α) := ⟨x.trace, .ok x.result⟩

/-- What a computation gives that cannot raise. -/
def value (x : Traced ω Empty α) : α :=
  match x.result with
  | .ok a => a

theorem bind_ok {x : Traced ω ε α} {a : α} (h : x.result = .ok a) (f : α → Traced ω ε β) :
    x >>= f = ⟨x.trace ++ (f a).trace, (f a).result⟩ := by
  show bind x f = _
  rw [bind, h]

theorem bind_error {x : Traced ω ε α} {e : ε} (h : x.result = .error e)
    (f : α → Traced ω ε β) : x >>= f = ⟨x.trace, .error e⟩ := by
  show bind x f = _
  rw [bind, h]

instance : LawfulMonad (Traced ω ε) := LawfulMonad.mk' _
  (fun x => by
    cases h : x.result with
    | ok a =>
      refine (bind_ok h _).trans (ext ?_ h.symm)
      exact List.append_nil _
    | error e => exact (bind_error h _).trans (ext rfl h.symm))
  (fun a f => rfl)
  (fun x f g => by
    cases h : x.result with
    | error e =>
      rw [bind_error h, bind_error h]
      rfl
    | ok a =>
      rw [bind_ok h, bind_ok h]
      cases hf : (f a).result with
      | ok b =>
        rw [bind_ok (x := ⟨_, _⟩) rfl, bind_ok hf]
        exact ext (List.append_assoc _ _ _) rfl
      | error e =>
        rw [bind_error (x := ⟨_, _⟩) rfl, bind_error hf])

/-! ### Leaving out the record -/

@[simp] theorem result_pure (a : α) : (pure a : Traced ω ε α).result = .ok a := rfl

@[simp] theorem result_lift (x : Except ε α) : (lift x : Traced ω ε α).result = x := rfl

@[simp] theorem result_record (event : ω) (x : Except ε α) : (record event x).result = x := rfl

@[simp] theorem result_retell (f : ω → ω') (x : Traced ω ε α) :
    (x.retell f).result = x.result := rfl

@[simp] theorem result_bind (x : Traced ω ε α) (f : α → Traced ω ε β) :
    (x >>= f).result = x.result >>= fun a => (f a).result := by
  cases h : x.result with
  | ok a => rw [bind_ok h, ok_bind]
  | error e => rw [bind_error h, error_bind]

theorem lift_ok_bind (a : α) (f : α → Traced ω ε β) : lift (.ok a) >>= f = f a := rfl

/-- What follows an attempt goes on with its result. -/
theorem value_attempt_bind (x : Traced ω ε α) (f : Except ε α → Traced ω Empty β) :
    (x.attempt >>= f).value = (f x.result).value := rfl

theorem result_foldlM {f : σ → α → Traced ω ε σ} {g : σ → α → Except ε σ}
    (h : ∀ s a, (f s a).result = g s a) (s : σ) (xs : List α) :
    (xs.foldlM f s).result = xs.foldlM g s := by
  induction xs generalizing s with
  | nil => rfl
  | cons a xs ih =>
    rw [List.foldlM_cons, List.foldlM_cons, result_bind, h]
    exact congrArg _ (funext ih)

theorem result_mapM {f : α → Traced ω ε β} {g : α → Except ε β}
    (h : ∀ a, (f a).result = g a) (xs : List α) : (xs.mapM f).result = xs.mapM g := by
  induction xs with
  | nil => rfl
  | cons a xs ih =>
    rw [List.mapM_cons, List.mapM_cons, result_bind, h]
    refine congrArg _ (funext fun b => ?_)
    rw [result_bind, ih]
    rfl

/-! ### The record alone -/

@[simp] theorem trace_pure (a : α) : (pure a : Traced ω ε α).trace = [] := rfl

@[simp] theorem trace_lift (x : Except ε α) : (lift x : Traced ω ε α).trace = [] := rfl

@[simp] theorem trace_record (event : ω) (x : Except ε α) : (record event x).trace = [event] := rfl

/-- What follows records nothing. -/
theorem trace_bind_of_nil (x : Traced ω ε α) {f : α → Traced ω ε β}
    (h : ∀ a, (f a).trace = []) : (x >>= f).trace = x.trace := by
  cases hx : x.result with
  | ok a =>
    rw [bind_ok hx]
    show x.trace ++ (f a).trace = x.trace
    rw [h, List.append_nil]
  | error e => rw [bind_error hx]

/-- A loop that comes to its end, whose passes record what their elements say. -/
theorem trace_foldlM {f : σ → α → Traced ω ε σ} {g : α → List ω}
    (h : ∀ s a, (f s a).trace = g a) {s t : σ} {xs : List α}
    (hok : (xs.foldlM f s).result = .ok t) : (xs.foldlM f s).trace = xs.flatMap g := by
  induction xs generalizing s with
  | nil => rfl
  | cons a xs ih =>
    rw [List.foldlM_cons] at hok ⊢
    cases hx : (f s a).result with
    | error e =>
      rw [bind_error hx] at hok
      cases hok
    | ok u =>
      rw [bind_ok hx] at hok ⊢
      show (f s a).trace ++ (xs.foldlM f u).trace = _
      rw [h, ih hok, List.flatMap_cons]

/-! ### What a computation keeps to -/

/-- The events are in `P`; what is raised is in `E`, and what is returned in `I`. -/
structure Keeps (P : ω → Prop) (E : ε → Prop) (I : α → Prop) (x : Traced ω ε α) : Prop where
  trace : ∀ event ∈ x.trace, P event
  raises : ∀ e, x.result = .error e → E e
  returns : ∀ a, x.result = .ok a → I a

namespace Keeps

variable {P : ω → Prop} {E E' : ε → Prop} {I J : α → Prop} {K : β → Prop} {x : Traced ω ε α}

theorem pure {a : α} (ha : I a) : Keeps P E I (Pure.pure a : Traced ω ε α) :=
  ⟨List.forall_mem_nil _, nofun, fun _ h => Except.ok.inj h ▸ ha⟩

theorem lift {r : Except ε α} (hraises : ∀ e, r = .error e → E e)
    (hreturns : ∀ a, r = .ok a → I a) : Keeps P E I (lift r : Traced ω ε α) :=
  ⟨List.forall_mem_nil _, hraises, hreturns⟩

theorem record {event : ω} {r : Except ε α} (hevent : P event)
    (hraises : ∀ e, r = .error e → E e) (hreturns : ∀ a, r = .ok a → I a) :
    Keeps P E I (record event r) :=
  ⟨List.forall_mem_singleton.mpr hevent, hraises, hreturns⟩

theorem mono (h : Keeps P E I x) (hE : ∀ e, E e → E' e) (hI : ∀ a, I a → J a) :
    Keeps P E' J x :=
  ⟨h.trace, fun e he => hE e (h.raises e he), fun a ha => hI a (h.returns a ha)⟩

theorem bind (h : Keeps P E I x) {f : α → Traced ω ε β} (hf : ∀ a, I a → Keeps P E K (f a)) :
    Keeps P E K (x >>= f) := by
  cases hx : x.result with
  | error e =>
    rw [bind_error hx]
    exact ⟨h.trace, fun e' he' => Except.error.inj he' ▸ h.raises e hx, nofun⟩
  | ok a =>
    have hfa := hf a (h.returns a hx)
    rw [bind_ok hx]
    exact ⟨List.forall_mem_append.mpr ⟨h.trace, hfa.trace⟩, hfa.raises, hfa.returns⟩

/-- A loop with an invariant. -/
theorem foldlM {f : σ → β → Traced ω ε σ} {xs : List β} {I : σ → Prop}
    (h : ∀ s, I s → ∀ b ∈ xs, Keeps P E I (f s b)) {s : σ} (hs : I s) :
    Keeps P E I (xs.foldlM f s) := by
  induction xs generalizing s with
  | nil => exact .pure hs
  | cons b xs ih =>
    rw [List.foldlM_cons]
    exact (h s hs b List.mem_cons_self).bind fun t ht =>
      ih (fun s hs c hc => h s hs c (List.mem_cons_of_mem _ hc)) ht

theorem mapM {f : β → Traced ω ε α} {xs : List β} (h : ∀ b ∈ xs, Keeps P E I (f b)) :
    Keeps P E (fun ys => ∀ y ∈ ys, I y) (xs.mapM f) := by
  induction xs with
  | nil => exact .pure (List.forall_mem_nil _)
  | cons b xs ih =>
    obtain ⟨hb, hxs⟩ := List.forall_mem_cons.mp h
    rw [List.mapM_cons]
    exact hb.bind fun y hy => (ih hxs).bind fun ys hys =>
      .pure (List.forall_mem_cons.mpr ⟨hy, hys⟩)

end Keeps

end Traced
