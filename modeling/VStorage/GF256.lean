/-
The field GF(2⁸) behind the log/exp tables of `shamir.py`.

`initTables` is `_init_tables`: it walks the powers of 3 modulo the reduction
polynomial `0x11B`, writing `_EXP` and `_LOG` as it goes.  The walk is a
`LogAction` on bytes under exclusive or (3 has order 255), so bytes form a field
(`GF256`), and `gfMul` and `gfDiv`, which only look the tables up, compute its
product and quotient (`gfMul_toInt`, `gfDiv_toInt`).
-/
import Mathlib
import VStorage.LogField
import VStorage.Py

/-! ### The tables -/

/-- `x *= 3` modulo the reduction polynomial: the loop body of `_init_tables`. -/
def timesThree (x : ℕ) : ℕ :=
  let x2 := x <<< 1
  let x2 := if x2 &&& 0x100 ≠ 0 then x2 ^^^ 0x11B else x2
  (x2 ^^^ x) &&& 0xFF

structure Tables where
  exp : List ℤ
  log : List ℤ

/-- One turn of the first loop: `_EXP[i] = x; _LOG[x] = i; x *= 3`. -/
def Tables.record (s : Tables × ℕ) (i : ℕ) : Tables × ℕ :=
  (⟨s.1.exp.set i s.2, s.1.log.set s.2 i⟩, timesThree s.2)

/-- One turn of the second loop: `_EXP[i] = _EXP[i - 255]`. -/
def Tables.extend (t : Tables) (i : ℕ) : Tables :=
  ⟨t.exp.set i (t.exp.getD (i - 255) 0), t.log⟩

/-- `_init_tables`. -/
def initTables : Tables :=
  let zeroed : Tables := ⟨List.replicate 512 0, List.replicate 256 0⟩
  let filled := (List.range 255).foldl Tables.record (zeroed, 1)
  (List.range' 255 257).foldl Tables.extend filled.1

/-- `_gf_mul`. -/
def gfMul (a b : ℤ) : Except PyError ℤ :=
  if a = 0 ∨ b = 0 then .ok 0
  else do
    let la ← pyIndex initTables.log a
    let lb ← pyIndex initTables.log b
    pyIndex initTables.exp (la + lb)

/-- `_gf_div`. -/
def gfDiv (a b : ℤ) : Except PyError ℤ :=
  if a = 0 then .ok 0
  else if b = 0 then .error .zeroDivisionError
  else do
    let la ← pyIndex initTables.log a
    let lb ← pyIndex initTables.log b
    pyIndex initTables.exp ((la - lb) % 255)

/-! ### The field -/

/-- A byte, added by exclusive or. -/
def GF256 : Type := Fin 256
  deriving DecidableEq, Fintype

namespace GF256

theorem card_eq : Fintype.card GF256 = 256 := Fintype.card_fin 256

/-- The byte of a number below 256. -/
def mk (n : ℕ) (h : n < 256) : GF256 := Fin.mk n h

/-- The number of a byte. -/
def val (a : GF256) : ℕ := Fin.val a

theorem val_lt (a : GF256) : a.val < 256 := a.2

@[simp] theorem val_mk (n : ℕ) (h : n < 256) : (mk n h).val = n := rfl

@[ext] theorem ext {a b : GF256} (h : a.val = b.val) : a = b := Fin.ext h

theorem xor_lt {a b : ℕ} (ha : a < 256) (hb : b < 256) : a ^^^ b < 256 :=
  Nat.xor_lt_two_pow (n := 8) ha hb

instance : Zero GF256 := ⟨mk 0 (by decide)⟩
instance : Add GF256 := ⟨fun a b => mk (a.val ^^^ b.val) (xor_lt a.val_lt b.val_lt)⟩
instance : Neg GF256 := ⟨id⟩

@[simp] theorem val_zero : (0 : GF256).val = 0 := rfl

@[simp] theorem val_add (a b : GF256) : (a + b).val = a.val ^^^ b.val := rfl

instance : AddCommGroup GF256 where
  add_assoc a b c := ext (Nat.xor_assoc _ _ _)
  zero_add a := ext (Nat.zero_xor _)
  add_zero a := ext (Nat.xor_zero _)
  add_comm a b := ext (Nat.xor_comm _ _)
  neg_add_cancel a := ext (Nat.xor_self _)
  nsmul := nsmulRec
  zsmul := zsmulRec

/-- Characteristic two: a byte is its own negative. -/
@[simp] theorem neg_eq (a : GF256) : -a = a := rfl

theorem sub_eq_add (a b : GF256) : a - b = a + b := sub_eq_add_neg a b

theorem timesThree_lt (x : ℕ) : timesThree x < 256 :=
  lt_of_le_of_lt Nat.and_le_right (by decide)

/-- The reduction adds the polynomial exactly when bit 8 is set. -/
theorem timesThree_eq (x : ℕ) :
    timesThree x = ((x <<< 1 ^^^ if (x <<< 1).testBit 8 then 0x11B else 0) ^^^ x) &&& 0xFF := by
  have hbit : x <<< 1 &&& 0x100 = (if (x <<< 1).testBit 8 then 0x100 else 0) := by
    rw [show (0x100 : ℕ) = 2 ^ 8 from rfl, Nat.and_two_pow]
    cases (x <<< 1).testBit 8 <;> rfl
  rw [timesThree, hbit]
  cases (x <<< 1).testBit 8 <;> simp

/-- Multiplication by 3 distributes over exclusive or: whether the reduction
happens is itself a parity. -/
theorem timesThree_xor (a b : ℕ) :
    timesThree (a ^^^ b) = timesThree a ^^^ timesThree b := by
  rw [timesThree_eq, timesThree_eq, timesThree_eq, Nat.shiftLeft_xor_distrib,
    Nat.testBit_xor, ← Nat.and_xor_distrib_right]
  congr 1
  cases (a <<< 1).testBit 8 <;> cases (b <<< 1).testBit 8 <;>
    simp [Nat.xor_assoc, Nat.xor_comm, Nat.xor_left_comm]

/-- Multiplication by 3, as an additive map on bytes. -/
def gen : GF256 →+ GF256 where
  toFun a := mk (timesThree a.val) (timesThree_lt _)
  map_zero' := rfl
  map_add' _ _ := ext (timesThree_xor _ _)

/-- The powers of 3, as the first loop of `_init_tables` meets them. -/
def power (n : ℕ) : ℕ := timesThree^[n] 1

theorem power_succ (n : ℕ) : power (n + 1) = timesThree (power n) :=
  Function.iterate_succ_apply' _ _ _

theorem power_lt (n : ℕ) : power n < 256 := by
  cases n with
  | zero => decide
  | succ n =>
    rw [power_succ]
    exact timesThree_lt _

theorem val_iterate_gen (n : ℕ) (a : GF256) :
    (gen^[n] a).val = timesThree^[n] a.val := by
  induction n generalizing a with
  | zero => rfl
  | succ n ih => exact ih (gen a)

/-- 3 is primitive: its order is 255, not one of the proper divisors. -/
theorem minimalPeriod_timesThree : Function.minimalPeriod timesThree 1 = 255 := by
  have hdvd : Function.minimalPeriod timesThree 1 ∣ 255 :=
    Function.IsPeriodicPt.minimalPeriod_dvd (by decide +kernel)
  have hcases : Function.minimalPeriod timesThree 1 ∣ 85 ∨
      Function.minimalPeriod timesThree 1 ∣ 51 ∨
      Function.minimalPeriod timesThree 1 ∣ 15 ∨
      Function.minimalPeriod timesThree 1 = 255 := by
    have hmem := Nat.mem_divisors.mpr ⟨hdvd, by decide⟩
    rw [show Nat.divisors 255 = {1, 3, 5, 15, 17, 51, 85, 255} from by decide +kernel] at hmem
    generalize Function.minimalPeriod timesThree 1 = m at hmem
    revert m
    decide
  have hnot : ∀ n, timesThree^[n] 1 ≠ 1 → ¬ Function.minimalPeriod timesThree 1 ∣ n :=
    fun n hn hd => hn (Function.isPeriodicPt_iff_minimalPeriod_dvd.mpr hd)
  rcases hcases with h | h | h | h
  · exact absurd h (hnot 85 (by decide +kernel))
  · exact absurd h (hnot 51 (by decide +kernel))
  · exact absurd h (hnot 15 (by decide +kernel))
  · exact h

theorem power_inj {i j : ℕ} (hi : i < 255) (hj : j < 255) (h : power i = power j) :
    i = j := by
  have hinj := Function.iterate_injOn_Iio_minimalPeriod (f := timesThree) (x := 1)
  rw [minimalPeriod_timesThree] at hinj
  exact hinj hi hj h

theorem power_add_255 (n : ℕ) : power (n + 255) = power n := by
  rw [power, Function.iterate_add_apply]
  exact congrArg _ (by decide +kernel)

/-! ### What the tables hold -/

/-- After `n` turns of the first loop the first `n` powers are recorded both ways. -/
structure Recorded (n : ℕ) (s : Tables × ℕ) : Prop where
  exp_length : s.1.exp.length = 512
  log_length : s.1.log.length = 256
  next : s.2 = power n
  exp_get : ∀ j < n, s.1.exp[j]? = some (power j : ℤ)
  log_get : ∀ j < n, s.1.log[power j]? = some (j : ℤ)

theorem Recorded.record {n : ℕ} {s : Tables × ℕ} (h : Recorded n s) (hn : n < 255) :
    Recorded (n + 1) (Tables.record s n) where
  exp_length := by simp [Tables.record, h.exp_length]
  log_length := by simp [Tables.record, h.log_length]
  next := by rw [power_succ, ← h.next]; rfl
  exp_get := by
    intro j hj
    rcases Nat.lt_succ_iff_lt_or_eq.mp hj with hj | rfl
    · simp only [Tables.record]
      rw [List.getElem?_set_ne (by omega), h.exp_get j hj]
    · simp only [Tables.record, h.next]
      exact List.getElem?_set_self (by rw [h.exp_length]; omega)
  log_get := by
    intro j hj
    rcases Nat.lt_succ_iff_lt_or_eq.mp hj with hj | rfl
    · -- the new entry lands elsewhere because the powers so far are distinct
      have hne : power n ≠ power j := fun he => by
        have := power_inj hn (by omega) he
        omega
      simp only [Tables.record, h.next]
      rw [List.getElem?_set_ne hne, h.log_get j hj]
    · simp only [Tables.record, h.next]
      exact List.getElem?_set_self (by rw [h.log_length]; exact power_lt j)

theorem recorded_foldl {n : ℕ} (hn : n ≤ 255) :
    Recorded n ((List.range n).foldl Tables.record
      (⟨List.replicate 512 0, List.replicate 256 0⟩, 1)) := by
  induction n with
  | zero =>
    exact ⟨List.length_replicate, List.length_replicate, rfl,
      fun j hj => absurd hj (Nat.not_lt_zero j), fun j hj => absurd hj (Nat.not_lt_zero j)⟩
  | succ n ih =>
    rw [List.range_succ, List.foldl_append]
    exact (ih (by omega)).record (by omega)

/-- The second loop repeats the first 255 entries of `_EXP` up to the end. -/
structure Extended (n : ℕ) (t : Tables) : Prop where
  exp_length : t.exp.length = 512
  log_length : t.log.length = 256
  exp_get : ∀ j < n, t.exp[j]? = some (power j : ℤ)
  log_get : ∀ j < 255, t.log[power j]? = some (j : ℤ)

theorem Extended.extend {n : ℕ} {t : Tables} (h : Extended n t) (hlo : 255 ≤ n)
    (hhi : n < 512) : Extended (n + 1) (t.extend n) where
  exp_length := by simp [Tables.extend, h.exp_length]
  log_length := h.log_length
  log_get := h.log_get
  exp_get := by
    intro j hj
    rcases Nat.lt_succ_iff_lt_or_eq.mp hj with hj | rfl
    · simp only [Tables.extend]
      rw [List.getElem?_set_ne (by omega), h.exp_get j hj]
    · have hval : t.exp.getD (j - 255) 0 = (power j : ℤ) := by
        rw [List.getD_eq_getElem?_getD, h.exp_get _ (by omega), Option.getD_some,
          ← power_add_255 (j - 255), Nat.sub_add_cancel hlo]
      simp only [Tables.extend, hval]
      exact List.getElem?_set_self (by rw [h.exp_length]; omega)

theorem extended_foldl {t : Tables} (h : Extended 255 t) {n : ℕ} (hn : n ≤ 257) :
    Extended (255 + n) ((List.range' 255 n).foldl Tables.extend t) := by
  induction n with
  | zero => exact h
  | succ n ih =>
    rw [List.range'_concat, List.foldl_append, Nat.one_mul]
    exact (ih (by omega)).extend (by omega) (by omega)

/-- `_init_tables` leaves every power of 3 in `_EXP` and its exponent in `_LOG`. -/
theorem initTables_extended : Extended 512 initTables := by
  have h := recorded_foldl (n := 255) le_rfl
  exact extended_foldl (n := 257) ⟨h.exp_length, h.log_length, h.exp_get, h.log_get⟩ le_rfl

/-! ### The logarithm, and the field -/

-- from here on the tables are known by `initTables_extended` only
attribute [local irreducible] initTables

/-- `_LOG[a]`. -/
def log (a : GF256) : ℕ := (initTables.log.getD a.val 0).toNat

theorem log_power {j : ℕ} (hj : j < 255) : log (mk (power j) (power_lt j)) = j := by
  rw [log, val_mk, List.getD_eq_getElem?_getD, initTables_extended.log_get j hj]
  rfl

/-- The 255 powers of 3 are all the non-zero bytes. -/
theorem exists_power {a : GF256} (ha : a ≠ 0) : ∃ j < 255, a.val = power j := by
  have hne : ∀ j, power j ≠ 0 := by
    intro j h
    -- `3 * 0 = 0`, so a zero power could never come back round to one
    have hback : timesThree^[255 * j - j] (power j) = 1 := by
      rw [power, ← Function.iterate_add_apply, Nat.sub_add_cancel (by omega)]
      exact (Function.isPeriodicPt_iff_minimalPeriod_dvd.mpr
        (minimalPeriod_timesThree ▸ Dvd.intro j rfl))
    rw [h, Function.iterate_fixed (by decide)] at hback
    exact absurd hback (by decide)
  have himg : (Finset.range 255).image power = (Finset.range 256).erase 0 := by
    refine Finset.eq_of_subset_of_card_le ?_ ?_
    · intro v hv
      obtain ⟨j, -, rfl⟩ := Finset.mem_image.mp hv
      exact Finset.mem_erase.mpr ⟨hne j, Finset.mem_range.mpr (power_lt j)⟩
    · rw [Finset.card_image_of_injOn fun i hi j hj h =>
        power_inj (Finset.mem_range.mp hi) (Finset.mem_range.mp hj) h,
        Finset.card_erase_of_mem (Finset.mem_range.mpr (by decide)), Finset.card_range,
        Finset.card_range]
  have hmem : a.val ∈ (Finset.range 256).erase 0 :=
    Finset.mem_erase.mpr ⟨fun h => ha (ext h), Finset.mem_range.mpr a.val_lt⟩
  rw [← himg] at hmem
  obtain ⟨j, hj, hval⟩ := Finset.mem_image.mp hmem
  exact ⟨j, Finset.mem_range.mp hj, hval.symm⟩

theorem eq_power_log {a : GF256} (ha : a ≠ 0) : log a < 255 ∧ a.val = power (log a) := by
  obtain ⟨j, hj, hval⟩ := exists_power ha
  obtain rfl : a = mk (power j) (power_lt j) := ext hval
  rw [log_power hj]
  exact ⟨hj, rfl⟩

/-- The powers of 3 as a logarithm for bytes. -/
def logAction : LogAction GF256 where
  gen := gen
  one := mk 1 (by decide)
  log := log
  order := 255
  one_ne_zero := by decide
  gen_log := fun a ha => by
    ext
    rw [val_iterate_gen]
    exact (eq_power_log ha).2.symm
  gen_order := by
    ext
    rw [val_iterate_gen]
    exact power_add_255 0
  order_pos := by decide

theorem val_exp (n : ℕ) : (logAction.exp n).val = power n := val_iterate_gen n _

instance : Field GF256 := logAction.toField

theorem mul_eq_exp {a b : GF256} (ha : a ≠ 0) (hb : b ≠ 0) :
    a * b = logAction.exp (log a + log b) := logAction.mul_eq_exp ha hb

/-! ### The table look-ups compute the field operations -/

/-- A byte as the integer Python sees. -/
def toInt (a : GF256) : ℤ := a.val

@[simp] theorem toInt_zero : toInt 0 = 0 := rfl

@[simp] theorem toInt_one : toInt 1 = 1 := rfl

theorem toInt_injective : Function.Injective toInt := fun _ _ h =>
  ext (Int.ofNat.inj h)

theorem toInt_eq_zero {a : GF256} : toInt a = 0 ↔ a = 0 :=
  toInt_injective.eq_iff' rfl

theorem xor_toInt (a b : GF256) : Int.xor (toInt a) (toInt b) = toInt (a + b) := rfl

theorem pyIndex_log {a : GF256} (ha : a ≠ 0) :
    pyIndex initTables.log (toInt a) = .ok (log a : ℤ) := by
  obtain ⟨hlt, hval⟩ := eq_power_log ha
  have h := initTables_extended.log_get (log a) hlt
  rw [← hval] at h
  exact pyIndex_natCast h

theorem pyIndex_exp {n : ℕ} (hn : n < 512) :
    pyIndex initTables.exp (n : ℤ) = .ok (toInt (logAction.exp n)) := by
  rw [toInt, val_exp]
  exact pyIndex_natCast (initTables_extended.exp_get n hn)

theorem gfMul_toInt (a b : GF256) : gfMul (toInt a) (toInt b) = .ok (toInt (a * b)) := by
  by_cases ha : a = 0
  · rw [gfMul, if_pos (Or.inl (toInt_eq_zero.mpr ha)), ha, zero_mul, toInt_zero]
  by_cases hb : b = 0
  · rw [gfMul, if_pos (Or.inr (toInt_eq_zero.mpr hb)), hb, mul_zero, toInt_zero]
  have hla := (eq_power_log ha).1
  have hlb := (eq_power_log hb).1
  rw [gfMul, if_neg (by rw [toInt_eq_zero, toInt_eq_zero]; tauto), pyIndex_log ha,
    pyIndex_log hb, mul_eq_exp ha hb]
  exact pyIndex_exp (n := log a + log b) (by omega)

/-- A factor past the end of `_LOG` raises, unless the other is zero. -/
theorem gfMul_ne_ok {a b : ℤ} (ha : a ≠ 0) (hb : 256 ≤ b) (c : ℤ) : gfMul a b ≠ .ok c := by
  intro h
  rw [gfMul, if_neg (by omega)] at h
  obtain ⟨la, -, h⟩ := bind_eq_ok.mp h
  obtain ⟨lb, hlb, -⟩ := bind_eq_ok.mp h
  lift b to ℕ using by omega
  have hlt := (List.getElem?_eq_some_iff.mp (pyIndex_eq_ok.mp hlb)).1
  rw [initTables_extended.log_length] at hlt
  omega

theorem gfDiv_toInt (a : GF256) {b : GF256} (hb : b ≠ 0) :
    gfDiv (toInt a) (toInt b) = .ok (toInt (a / b)) := by
  by_cases ha : a = 0
  · rw [gfDiv, if_pos (toInt_eq_zero.mpr ha), ha, zero_div, toInt_zero]
  have hla := (eq_power_log ha).1
  have hlb := (eq_power_log hb).1
  rw [gfDiv, if_neg (by rwa [toInt_eq_zero]), if_neg (by rwa [toInt_eq_zero]),
    pyIndex_log ha, pyIndex_log hb]
  -- the wrapped difference of the logarithms is a logarithm of the quotient
  set n : ℕ := (log a + (255 - log b)) % 255 with hn
  have hmod : ((log a : ℤ) - log b) % 255 = (n : ℤ) := by omega
  have hquot : logAction.exp n = a / b := by
    rw [eq_div_iff hb]
    calc logAction.exp n * b
        = logAction.exp n * logAction.exp (log b) := by rw [show logAction.exp (log b) = b from
          logAction.exp_log hb]
      _ = logAction.exp (n + log b) := logAction.exp_mul_exp _ _
      _ = logAction.exp ((n + log b) % 255) := (logAction.exp_mod_order _).symm
      _ = logAction.exp (log a) := by congr 1; omega
      _ = a := logAction.exp_log ha
  show pyIndex initTables.exp (((log a : ℤ) - log b) % 255) = _
  rw [hmod, pyIndex_exp (by omega), hquot]

end GF256
