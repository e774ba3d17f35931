/-
The fragment of Python's data model the translated code runs on.

Integers are `ℤ`, byte strings are lists of bytes, and a function that may raise
returns `Except PyError`.  Subscripts follow the language: a negative subscript
counts from the end, and one that is out of range raises.
-/
import Mathlib

/-- The exceptions that the translated code raises, or that reach it from outside. -/
inductive PyError
  | indexError
  | valueError
  | typeError
  | zeroDivisionError
  | overflowError
  | memoryError
  | osError
  | eofError
  | keyError
  | attributeError
  | recursionError
  | invalidTag
  | lzmaError
  | trustGroupCompromised
  deriving DecidableEq, Repr

abbrev Bytes := List UInt8

/-- `xs[i]`. -/
def pyIndex {α : Type*} (xs : List α) (i : ℤ) : Except PyError α :=
  let j := if i < 0 then i + xs.length else i
  if j < 0 then .error .indexError
  else match xs[j.toNat]? with
    | some v => .ok v
    | none => .error .indexError

theorem pyIndex_natCast {α : Type*} {xs : List α} {i : ℕ} {v : α}
    (h : xs[i]? = some v) : pyIndex xs i = .ok v := by
  have hneg : ¬ (i : ℤ) < 0 := by omega
  simp only [pyIndex, if_neg hneg, Int.toNat_natCast, h]

theorem pyIndex_eq_ok {α : Type*} {xs : List α} {i : ℕ} {v : α} :
    pyIndex xs i = .ok v ↔ xs[i]? = some v := by
  refine ⟨fun h => ?_, pyIndex_natCast⟩
  have hneg : ¬ (i : ℤ) < 0 := by omega
  simp only [pyIndex, if_neg hneg, Int.toNat_natCast] at h
  cases hi : xs[i]? with
  | none => simp [hi] at h
  | some w =>
    simp only [hi, Except.ok.injEq] at h
    rw [h]

/-- Storing an integer into a `bytearray`. -/
def byteOfInt (v : ℤ) : Except PyError UInt8 :=
  if 0 ≤ v ∧ v < 256 then .ok (UInt8.ofNat v.toNat) else .error .valueError

theorem byteOfInt_toNat (b : UInt8) : byteOfInt (b.toNat : ℤ) = .ok b := by
  have hb : (b.toNat : ℤ) < 256 := by exact_mod_cast b.toNat_lt
  rw [byteOfInt, if_pos ⟨by omega, hb⟩, Int.toNat_natCast, UInt8.ofNat_toNat]

/-! ### Sequencing -/

section Sequencing

variable {ε : Type*} {α β : Type _}

@[simp] theorem ok_bind (a : α) (f : α → Except ε β) : (Except.ok a >>= f) = f a := rfl

@[simp] theorem error_bind (e : ε) (f : α → Except ε β) :
    (Except.error e >>= f) = .error e := rfl

/-- A sequence returns exactly when its first part returns and the rest returns
from there. -/
theorem bind_eq_ok {x : Except ε α} {f : α → Except ε β} {b : β} :
    (x >>= f) = .ok b ↔ ∃ a, x = .ok a ∧ f a = .ok b := by
  cases x <;> simp

theorem bind_eq_error {x : Except ε α} {f : α → Except ε β} {e : ε} :
    (x >>= f) = .error e ↔ x = .error e ∨ ∃ a, x = .ok a ∧ f a = .error e := by
  cases x <;> simp

end Sequencing

/-! ### Loops that never raise -/

section Loops

variable {ε σ τ α β : Type*}

/-- A loop whose body, on states that represent abstract ones, steps to the
representation of the abstract step runs to the end and represents the abstract
fold. -/
theorem foldlM_ok {f : σ → α → Except ε σ} {g : τ → α → τ} (c : τ → σ) {xs : List α}
    (h : ∀ t, ∀ a ∈ xs, f (c t) a = .ok (c (g t a))) (t : τ) :
    xs.foldlM f (c t) = .ok (c (xs.foldl g t)) := by
  induction xs generalizing t with
  | nil => rfl
  | cons a xs ih =>
    rw [List.foldlM_cons, h t a List.mem_cons_self]
    exact ih (fun t' b hb => h t' b (List.mem_cons_of_mem _ hb)) (g t a)

theorem mapM_ok {f : α → Except ε β} {g : α → β} {xs : List α}
    (h : ∀ a ∈ xs, f a = .ok (g a)) : xs.mapM f = .ok (xs.map g) := by
  induction xs with
  | nil => rfl
  | cons a xs ih =>
    rw [List.mapM_cons, h a List.mem_cons_self, ok_bind,
      ih fun b hb => h b (List.mem_cons_of_mem _ hb)]
    rfl

/-- A loop that returns has returned from every turn. -/
theorem foldlM_eq_ok {f : σ → α → Except ε σ} {xs : List α} {s t : σ}
    (h : xs.foldlM f s = .ok t) : ∀ a ∈ xs, ∃ s t, f s a = .ok t := by
  induction xs generalizing s with
  | nil => exact fun a ha => nomatch ha
  | cons b xs ih =>
    rw [List.foldlM_cons] at h
    obtain ⟨s', hb, hrest⟩ := bind_eq_ok.mp h
    exact List.forall_mem_cons.mpr ⟨⟨s, s', hb⟩, ih hrest⟩

theorem mapM_eq_ok {f : α → Except ε β} {xs : List α} {ys : List β} (h : xs.mapM f = .ok ys) :
    ∀ a ∈ xs, ∃ b, f a = .ok b := by
  induction xs generalizing ys with
  | nil => exact fun a ha => nomatch ha
  | cons a xs ih =>
    rw [List.mapM_cons] at h
    obtain ⟨b, hb, h⟩ := bind_eq_ok.mp h
    obtain ⟨ys', hys', -⟩ := bind_eq_ok.mp h
    exact List.forall_mem_cons.mpr ⟨⟨b, hb⟩, ih hys'⟩

end Loops
