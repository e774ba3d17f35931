/-
Threshold secret sharing over an arbitrary field.

A secret is the constant term of a polynomial with fewer coefficients than the
threshold; a share is a value of that polynomial.

* `sum_basis_zero`: enough shares at distinct points give the constant term back,
  by Lagrange's formula at zero in the product form that implementations compute;
* `weigh_set`: each value enters with a factor that is not zero (`weight_ne_zero`);
* `card_coeffs_through`: for shares at fewer non-zero points than the threshold,
  every secret is consistent with the same number of polynomials.

A polynomial is given by its list of coefficients, evaluated by `horner`.
-/
import Mathlib

open Polynomial

namespace SecretSharing

variable {F : Type*} [Field F]

/-- Evaluation of a coefficient list, constant term first. -/
def horner (coeffs : List F) (x : F) : F :=
  coeffs.foldr (fun c r => r * x + c) 0

/-- The polynomial a coefficient list stands for. -/
noncomputable def polyOf (coeffs : List F) : F[X] :=
  coeffs.foldr (fun c p => p * X + C c) 0

@[simp] theorem horner_cons (c : F) (coeffs : List F) (x : F) :
    horner (c :: coeffs) x = horner coeffs x * x + c := rfl

@[simp] theorem polyOf_cons (c : F) (coeffs : List F) :
    polyOf (c :: coeffs) = polyOf coeffs * X + C c := rfl

theorem eval_polyOf (coeffs : List F) (x : F) :
    (polyOf coeffs).eval x = horner coeffs x := by
  induction coeffs with
  | nil => simp [polyOf, horner]
  | cons c cs ih => simp [ih]

theorem horner_cons_zero (c : F) (coeffs : List F) : horner (c :: coeffs) 0 = c := by
  simp

theorem degree_polyOf_lt (coeffs : List F) :
    (polyOf coeffs).degree < coeffs.length := by
  induction coeffs with
  | nil => simp [polyOf]
  | cons c cs ih =>
    rw [polyOf_cons, List.length_cons]
    refine lt_of_le_of_lt (degree_add_le _ _) (max_lt ?_ ?_)
    · rw [degree_mul_X]
      push_cast
      exact WithBot.add_lt_add_right (by simp) ih
    · refine lt_of_le_of_lt degree_C_le ?_
      exact_mod_cast Nat.succ_pos _

/-! ### Reconstruction -/

/-- Lagrange's formula at zero, as a quotient of two products: the form in which
a table-driven implementation evaluates it. -/
theorem eval_basis_zero {m : ℕ} (x : Fin m → F) (i : Fin m) :
    (Lagrange.basis Finset.univ x i).eval 0
      = (∏ j ∈ Finset.univ.erase i, -x j) / ∏ j ∈ Finset.univ.erase i, (x i - x j) := by
  rw [Lagrange.basis, eval_prod, ← Finset.prod_div_distrib]
  refine Finset.prod_congr rfl fun j _ => ?_
  simp [Lagrange.basisDivisor, div_eq_inv_mul]

/-- **Reconstruction.**  A polynomial with at most as many coefficients as there
are distinct points is recovered at zero from its values. -/
theorem sum_basis_zero {m : ℕ} {x : Fin m → F} (hx : Function.Injective x)
    {coeffs : List F} (hlen : coeffs.length ≤ m) :
    ∑ i, horner coeffs (x i) *
        ((∏ j ∈ Finset.univ.erase i, -x j) / ∏ j ∈ Finset.univ.erase i, (x i - x j))
      = horner coeffs 0 := by
  have hdeg : (polyOf coeffs).degree < (Finset.univ : Finset (Fin m)).card := by
    rw [Finset.card_univ, Fintype.card_fin]
    exact lt_of_lt_of_le (degree_polyOf_lt coeffs) (by exact_mod_cast hlen)
  have hint := Lagrange.eq_interpolate (v := x) hx.injOn hdeg
  rw [← eval_polyOf coeffs 0, hint, Lagrange.interpolate_apply, eval_finsetSum]
  refine Finset.sum_congr rfl fun i _ => ?_
  rw [eval_mul, eval_C, eval_polyOf, eval_basis_zero]

/-! ### Enumerated loops as sums and products -/

theorem zipIdx_eq_map_finRange {α : Type*} (l : List α) :
    l.zipIdx = (List.finRange l.length).map fun i : Fin l.length => (l[i], (i : ℕ)) := by
  apply List.ext_getElem
  · simp
  · intro i h1 h2
    simp

/-- A loop that adds one term for every position. -/
theorem foldl_finRange_add {M : Type*} [AddCommMonoid M] {n : ℕ} (f : Fin n → M) :
    (List.finRange n).foldl (fun acc i => acc + f i) 0 = ∑ i, f i := by
  rw [← List.foldl_map (f := f) (g := fun acc x => acc + x), ← List.sum_eq_foldl,
    ← List.ofFn_eq_map, List.sum_ofFn]

/-- A loop that multiplies a factor for every position but one. -/
theorem foldl_finRange_mul_erase {M : Type*} [CommMonoid M] {n : ℕ} (f : Fin n → M)
    (i : Fin n) :
    (List.finRange n).foldl (fun acc j => if i = j then acc else acc * f j) 1
      = ∏ j ∈ Finset.univ.erase i, f j := by
  have hstep : (fun (acc : M) j => if i = j then acc else acc * f j)
      = fun acc j => acc * if i = j then 1 else f j := by
    funext acc j
    split <;> simp
  rw [hstep, ← List.foldl_map (f := fun j => if i = j then 1 else f j)
    (g := fun acc x => acc * x), ← List.prod_eq_foldl, ← List.ofFn_eq_map, List.prod_ofFn,
    ← Finset.mul_prod_erase _ _ (Finset.mem_univ i), if_pos rfl, one_mul]
  refine Finset.prod_congr rfl fun j hj => ?_
  exact if_neg fun h => (Finset.mem_erase.mp hj).1 h.symm

/-! ### What each value contributes -/

/-- A value can be replaced without a change to the points. -/
theorem map_fst_set {α β : Type*} {ps : List (α × β)} {i : ℕ} {x : α} {y : β}
    (hi : ps[i]? = some (x, y)) (v : β) : (ps.set i (x, v)).map Prod.fst = ps.map Prod.fst := by
  have hfst : (ps.map Prod.fst)[i]? = some x := by rw [List.getElem?_map, hi]; rfl
  obtain ⟨hlt, rfl⟩ := List.getElem?_eq_some_iff.mp hfst
  rw [List.map_set]
  exact List.set_getElem_self hlt

section Weights

variable [DecidableEq F]

/-- The factor of the value at `x` when the values at the points `s` are combined. -/
def weight (s : Finset F) (x : F) : F :=
  (∏ z ∈ s.erase x, -z) / ∏ z ∈ s.erase x, (x - z)

/-- No value at a point other than zero goes without a say. -/
theorem weight_ne_zero {s : Finset F} (h0 : 0 ∉ s) (x : F) : weight s x ≠ 0 := by
  refine div_ne_zero (Finset.prod_ne_zero_iff.mpr fun z hz => ?_)
    (Finset.prod_ne_zero_iff.mpr fun z hz => ?_)
  · refine neg_ne_zero.mpr fun hzero => h0 ?_
    exact hzero ▸ Finset.mem_of_mem_erase hz
  · exact sub_ne_zero.mpr (Finset.ne_of_mem_erase hz).symm

/-- Lagrange's formula at zero, value by value. -/
def weigh (ps : List (F × F)) : F :=
  (ps.map fun p => p.2 * weight (ps.map Prod.fst).toFinset p.1).sum

/-- The products over positions are products over points, when these are different. -/
theorem sum_fin_eq_weigh {ps : List (F × F)}
    (hinj : Function.Injective fun i : Fin ps.length => ps[i].1) :
    ∑ i : Fin ps.length, ps[i].2 *
        ((∏ j ∈ Finset.univ.erase i, -ps[j].1)
          / ∏ j ∈ Finset.univ.erase i, (ps[i].1 - ps[j].1)) = weigh ps := by
  have huniv : Finset.univ.image (fun i : Fin ps.length => ps[i].1)
      = (ps.map Prod.fst).toFinset := by
    ext z
    simp [List.mem_iff_getElem]
  have hprod : ∀ (i : Fin ps.length) (g : F → F),
      ∏ j ∈ Finset.univ.erase i, g ps[j].1
        = ∏ z ∈ (ps.map Prod.fst).toFinset.erase ps[i].1, g z := by
    intro i g
    rw [← huniv, ← Finset.image_erase hinj, Finset.prod_image hinj.injOn]
  rw [weigh, ← Fin.sum_univ_fun_getElem]
  refine Finset.sum_congr rfl fun i _ => ?_
  rw [hprod i fun z => -z, hprod i fun z => ps[i].1 - z]
  rfl

/-- The order of the values does not matter. -/
theorem weigh_perm {ps qs : List (F × F)} (h : ps.Perm qs) : weigh ps = weigh qs := by
  have hpoints := List.toFinset_eq_of_perm _ _ (h.map Prod.fst)
  rw [weigh, hpoints]
  exact (h.map _).sum_eq

/-- **One value changed** changes the result by its weight. -/
theorem weigh_set {ps : List (F × F)} {i : ℕ} {x y : F} (hi : ps[i]? = some (x, y)) (v : F) :
    weigh (ps.set i (x, v)) = weigh ps + (v - y) * weight (ps.map Prod.fst).toFinset x := by
  obtain ⟨hlt, hget⟩ := List.getElem?_eq_some_iff.mp hi
  have hpoints := map_fst_set hi v
  have hlt' : i < (ps.map fun p => p.2 * weight (ps.map Prod.fst).toFinset p.1).length := by
    rwa [List.length_map]
  rw [weigh, hpoints, List.map_set, List.sum_set', dif_pos hlt', List.getElem_map, hget, weigh]
  ring

end Weights

/-! ### Secrecy -/

/-- Evaluation of the `m` coefficients of a polynomial at `t` points. -/
def evalAt {t : ℕ} (x : Fin t → F) (m : ℕ) : (Fin m → F) →+ (Fin t → F) where
  toFun c i := ∑ j, c j * x i ^ (j : ℕ)
  map_zero' := by
    funext i
    simp
  map_add' c d := by
    funext i
    simp [add_mul, Finset.sum_add_distrib]

theorem horner_ofFn {m : ℕ} (c : Fin m → F) (x : F) :
    horner (List.ofFn c) x = ∑ j, c j * x ^ (j : ℕ) := by
  induction m with
  | zero => simp [horner]
  | succ m ih =>
    rw [List.ofFn_succ, horner_cons, ih, Fin.sum_univ_succ, Finset.sum_mul]
    simp [pow_succ, mul_assoc, add_comm]

/-- Distinct points can be given any values by as many coefficients. -/
theorem evalAt_surjective {t m : ℕ} {x : Fin t → F} (hx : Function.Injective x)
    (htm : t ≤ m) : Function.Surjective (evalAt x m) := by
  intro y
  set p : F[X] := Lagrange.interpolate Finset.univ x y with hp
  have hdeg : p.natDegree < m ∨ p = 0 := by
    by_cases h0 : p = 0
    · exact Or.inr h0
    · left
      have hlt := Lagrange.degree_interpolate_lt (s := Finset.univ) y hx.injOn
      rw [← hp, degree_eq_natDegree h0, Finset.card_univ, Fintype.card_fin] at hlt
      exact lt_of_lt_of_le (by exact_mod_cast hlt) htm
  refine ⟨fun j => p.coeff j, funext fun i => ?_⟩
  have hval : p.eval (x i) = y i :=
    Lagrange.eval_interpolate_at_node y hx.injOn (Finset.mem_univ i)
  show ∑ j : Fin m, p.coeff j * x i ^ (j : ℕ) = y i
  rw [← hval, Fin.sum_univ_eq_sum_range (fun j => p.coeff j * x i ^ j) m]
  rcases hdeg with hdeg | h0
  · exact (eval_eq_sum_range' hdeg (x i)).symm
  · simp [h0]

/-- The fibres of a surjective homomorphism of finite groups all have the same size. -/
theorem card_fiber_mul_card {G H : Type*} [AddGroup G] [AddGroup H] [Fintype G]
    [Fintype H] [DecidableEq H] (f : G →+ H) (hf : Function.Surjective f) (y : H) :
    Fintype.card {g : G // f g = y} * Fintype.card H = Fintype.card G := by
  have hfib : ∀ z : H, (Finset.univ.filter fun g => f g = z).card
      = (Finset.univ.filter fun g => f g = y).card := fun z =>
    AddMonoidHom.card_fiber_eq_of_mem_range f (hf z) (hf y)
  have hsum := Finset.card_eq_sum_card_fiberwise (f := f) (s := Finset.univ)
    (t := Finset.univ) fun _ _ => Finset.mem_univ _
  rw [Finset.sum_congr rfl fun z _ => hfib z, Finset.sum_const, Finset.card_univ,
    Finset.card_univ, smul_eq_mul, mul_comm] at hsum
  rw [Fintype.card_subtype, hsum]

/-- **Secrecy.**  Fix a secret and its values at `t` distinct non-zero points.  The
number of ways to fill in `m ≥ t` further coefficients that produce these values
does not depend on the secret or on the values. -/
theorem card_coeffs_through [Fintype F] [DecidableEq F] {t m : ℕ} {x : Fin t → F}
    (hx : Function.Injective x) (hx0 : ∀ i, x i ≠ 0) (htm : t ≤ m) (secret : F)
    (y : Fin t → F) :
    Fintype.card {c : Fin m → F // ∀ i, horner (secret :: List.ofFn c) (x i) = y i}
      = Fintype.card F ^ (m - t) := by
  -- dividing by the non-zero point turns the constraint into one on the coefficients alone
  have hiff : ∀ c : Fin m → F, (∀ i, horner (secret :: List.ofFn c) (x i) = y i) ↔
      evalAt x m c = fun i => (y i - secret) / x i := by
    intro c
    rw [funext_iff]
    refine forall_congr' fun i => ?_
    rw [horner_cons, horner_ofFn, eq_div_iff (hx0 i), ← eq_sub_iff_add_eq]
    rfl
  rw [Fintype.card_congr (Equiv.subtypeEquivRight hiff)]
  have hcard := card_fiber_mul_card (evalAt x m) (evalAt_surjective hx htm)
    fun i => (y i - secret) / x i
  rw [Fintype.card_fun, Fintype.card_fun, Fintype.card_fin, Fintype.card_fin] at hcard
  have hpos : 0 < Fintype.card F ^ t := pow_pos Fintype.card_pos t
  refine Nat.eq_of_mul_eq_mul_right hpos ?_
  rw [hcard, ← pow_add, Nat.sub_add_cancel htm]

end SecretSharing
