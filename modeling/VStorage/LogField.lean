/-
Fields presented by discrete logarithms.

Table-driven finite-field arithmetic multiplies by adding logarithms.  What makes
that a field is recorded once, over any additive group: a single additive map
`gen` whose iterates carry one non-zero element `one` onto every non-zero element
(`LogAction`).  From it alone follow

* `LogAction.mul_comm`: the product does not depend on the order of its factors;
* `LogAction.toField`: the group with `a * b = gen^[log a] b` is a field;
* `LogAction.exp_mul_exp`: iterates of `gen` at `one` multiply by adding exponents.
-/
import Mathlib

/-- An additive map whose iterates reach every non-zero element from `one`,
together with a logarithm that says how far to iterate. -/
structure LogAction (V : Type*) [AddCommGroup V] where
  gen : V →+ V
  one : V
  log : V → ℕ
  order : ℕ
  one_ne_zero : one ≠ 0
  gen_log : ∀ a, a ≠ 0 → gen^[log a] one = a
  gen_order : gen^[order] one = one
  order_pos : 0 < order

namespace LogAction

variable {V : Type*} [AddCommGroup V] (A : LogAction V)

/-- The element with logarithm `n`. -/
def exp (n : ℕ) : V := A.gen^[n] A.one

theorem exp_log {a : V} (ha : a ≠ 0) : A.exp (A.log a) = a := A.gen_log a ha

theorem iterate_gen_zero (n : ℕ) : A.gen^[n] 0 = 0 :=
  Function.iterate_fixed (map_zero A.gen) n

theorem iterate_gen_add (n : ℕ) (b c : V) :
    A.gen^[n] (b + c) = A.gen^[n] b + A.gen^[n] c := by
  induction n generalizing b c with
  | zero => rfl
  | succ n ih =>
    rw [Function.iterate_succ_apply, Function.iterate_succ_apply,
      Function.iterate_succ_apply, map_add]
    exact ih _ _

theorem iterate_gen_exp (m n : ℕ) : A.gen^[m] (A.exp n) = A.exp (m + n) :=
  (Function.iterate_add_apply _ m n _).symm

/-- The full circle fixes every element, not only `one`. -/
theorem exp_order_mul (n : ℕ) : A.exp (A.order * n) = A.one := by
  induction n with
  | zero => rfl
  | succ n ih =>
    rw [Nat.mul_succ, Nat.add_comm, ← iterate_gen_exp, ih]
    exact A.gen_order

theorem exp_add_order_mul (m n : ℕ) : A.exp (m + A.order * n) = A.exp m := by
  rw [← iterate_gen_exp, exp_order_mul, exp]

theorem exp_mod_order (n : ℕ) : A.exp (n % A.order) = A.exp n := by
  conv_rhs => rw [← Nat.mod_add_div n A.order]
  exact (A.exp_add_order_mul _ _).symm

/-- `gen` is injective on the non-zero elements: going once around the circle undoes it. -/
theorem exp_ne_zero (n : ℕ) : A.exp n ≠ 0 := by
  intro h
  -- the rest of the circle carries `exp n` to `one`, and carries `0` to `0`
  have hback : A.gen^[A.order * n - n] (A.exp n) = A.one := by
    have hle : n ≤ A.order * n := Nat.le_mul_of_pos_left n A.order_pos
    rw [iterate_gen_exp, Nat.sub_add_cancel hle, exp_order_mul]
  rw [h, iterate_gen_zero] at hback
  exact A.one_ne_zero hback.symm

section Mul

variable [DecidableEq V]

/-- The product of logarithmic arithmetic. -/
def mul (a b : V) : V := if a = 0 then 0 else A.gen^[A.log a] b

/-- The inverse: the rest of the circle. -/
def inv (a : V) : V := if a = 0 then 0 else A.exp (A.order * A.log a - A.log a)

theorem mul_of_ne_zero {a : V} (ha : a ≠ 0) (b : V) :
    A.mul a b = A.gen^[A.log a] b := if_neg ha

theorem mul_exp {a : V} (ha : a ≠ 0) (n : ℕ) :
    A.mul a (A.exp n) = A.exp (A.log a + n) := by
  rw [mul_of_ne_zero A ha, iterate_gen_exp]

theorem mul_eq_exp {a b : V} (ha : a ≠ 0) (hb : b ≠ 0) :
    A.mul a b = A.exp (A.log a + A.log b) := by
  conv_lhs => rw [← A.exp_log hb]
  exact A.mul_exp ha _

theorem zero_mul (b : V) : A.mul 0 b = 0 := if_pos rfl

theorem mul_zero (a : V) : A.mul a 0 = 0 := by
  by_cases ha : a = 0
  · rw [ha, zero_mul]
  · rw [mul_of_ne_zero A ha, iterate_gen_zero]

theorem mul_ne_zero {a b : V} (ha : a ≠ 0) (hb : b ≠ 0) : A.mul a b ≠ 0 := by
  rw [mul_eq_exp A ha hb]
  exact A.exp_ne_zero _

theorem mul_comm (a b : V) : A.mul a b = A.mul b a := by
  by_cases ha : a = 0
  · rw [ha, zero_mul, mul_zero]
  by_cases hb : b = 0
  · rw [hb, zero_mul, mul_zero]
  rw [mul_eq_exp A ha hb, mul_eq_exp A hb ha, Nat.add_comm]

/-- Iterates of `gen` at `one` multiply by adding exponents, whichever
representatives `log` picked. -/
theorem exp_mul_exp (m n : ℕ) : A.mul (A.exp m) (A.exp n) = A.exp (m + n) := by
  calc A.mul (A.exp m) (A.exp n)
      = A.exp (n + A.log (A.exp m)) := by rw [mul_exp A (A.exp_ne_zero m), Nat.add_comm]
    _ = A.gen^[n] (A.exp m) := by
        rw [← iterate_gen_exp, A.exp_log (A.exp_ne_zero m)]
    _ = A.exp (m + n) := by rw [iterate_gen_exp, Nat.add_comm]

theorem mul_assoc (a b c : V) : A.mul (A.mul a b) c = A.mul a (A.mul b c) := by
  by_cases ha : a = 0
  · rw [ha, zero_mul, zero_mul, zero_mul]
  by_cases hb : b = 0
  · rw [hb, mul_zero, zero_mul, mul_zero]
  by_cases hc : c = 0
  · rw [hc, mul_zero, mul_zero, mul_zero]
  obtain ⟨i, rfl⟩ : ∃ i, a = A.exp i := ⟨_, (A.exp_log ha).symm⟩
  obtain ⟨j, rfl⟩ : ∃ j, b = A.exp j := ⟨_, (A.exp_log hb).symm⟩
  obtain ⟨k, rfl⟩ : ∃ k, c = A.exp k := ⟨_, (A.exp_log hc).symm⟩
  rw [exp_mul_exp, exp_mul_exp, exp_mul_exp, exp_mul_exp, Nat.add_assoc]

theorem one_mul (b : V) : A.mul A.one b = b := by
  by_cases hb : b = 0
  · rw [hb, mul_zero]
  conv_lhs => rw [← A.exp_log hb]
  rw [show A.one = A.exp 0 from rfl, exp_mul_exp, Nat.zero_add, exp_log A hb]

theorem mul_add (a b c : V) : A.mul a (b + c) = A.mul a b + A.mul a c := by
  by_cases ha : a = 0
  · rw [ha, zero_mul, zero_mul, zero_mul, add_zero]
  · rw [mul_of_ne_zero A ha, mul_of_ne_zero A ha, mul_of_ne_zero A ha, iterate_gen_add]

theorem mul_inv_cancel {a : V} (ha : a ≠ 0) : A.mul a (A.inv a) = A.one := by
  have hle : A.log a ≤ A.order * A.log a := Nat.le_mul_of_pos_left _ A.order_pos
  rw [inv, if_neg ha, mul_exp A ha, Nat.add_sub_cancel' hle, exp_order_mul]

/-- **A group with a logarithm is a field.** -/
abbrev toField : Field V :=
  { (inferInstance : AddCommGroup V) with
    mul := A.mul
    one := A.one
    inv := A.inv
    mul_assoc := A.mul_assoc
    mul_comm := A.mul_comm
    one_mul := A.one_mul
    mul_one := fun a => (A.mul_comm a A.one).trans (A.one_mul a)
    zero_mul := A.zero_mul
    mul_zero := A.mul_zero
    left_distrib := A.mul_add
    right_distrib := fun a b c => by
      change A.mul (a + b) c = A.mul a c + A.mul b c
      rw [A.mul_comm (a + b) c, A.mul_add, A.mul_comm c a, A.mul_comm c b]
    exists_pair_ne := ⟨A.one, 0, A.one_ne_zero⟩
    mul_inv_cancel := fun _ ha => A.mul_inv_cancel ha
    inv_zero := if_pos rfl
    nnqsmul := _
    qsmul := _ }

end Mul

end LogAction
