/-
Fewer shares than the threshold say nothing about the secret.

`card_evalPoly` counts the coefficient vectors consistent with a candidate secret
byte and some observed share bytes; `card_splitSecret` multiplies it up over the
bytes of a whole secret.  Both counts are free of the secret, which is
`shares_independent_of_secret`.
-/
import Mathlib
import VStorage.Shamir

open SecretSharing GF256

/-- Bytes and field elements are the same 256 things. -/
def byteEquiv : UInt8 ≃ GF256 := ⟨ofByte, toByte, toByte_ofByte, ofByte_toByte⟩

theorem index_injective {i j : ℕ} (hi : i < 255) (hj : j < 255) (h : index i = index j) :
    i = j := by
  have := congrArg toInt h
  rw [toInt_index hi, toInt_index hj] at this
  omega

theorem index_ne_zero {i : ℕ} (hi : i < 255) : index i ≠ 0 := by
  intro h
  have := congrArg toInt h
  rw [toInt_index hi, toInt_zero] at this
  omega

/-- **The count for one byte.**  Of the coefficient vectors that may complete the
secret byte `s`, exactly `256^(m-t)` produce `t` given share bytes. -/
theorem card_horner {t m : ℕ} (ht : t ≤ m) {I : Fin t → ℕ} (hI : Function.Injective I)
    (hlt : ∀ i, I i < 255) (y : Fin t → UInt8) (s : UInt8) :
    Nat.card {c : Fin m → UInt8 // ∀ i,
      horner (ofByte s :: List.ofFn fun j => ofByte (c j)) (index (I i)) = ofByte (y i)}
        = 256 ^ (m - t) := by
  have hinj : Function.Injective fun i => index (I i) := fun i j h =>
    hI (index_injective (hlt i) (hlt j) h)
  rw [← card_eq, ← card_coeffs_through hinj (fun i => index_ne_zero (hlt i)) ht (ofByte s)
    fun i => ofByte (y i), ← Nat.card_eq_fintype_card]
  exact Nat.card_congr
    (((Equiv.refl (Fin m)).arrowCongr byteEquiv).subtypeEquiv fun _ => Iff.rfl)

/-- The same count for `_eval_poly` itself, at integer share indices. -/
theorem card_evalPoly {k t : ℕ} (ht : t ≤ k - 1) {x : Fin t → ℕ}
    (hx : Function.Injective x) (hrange : ∀ i, 1 ≤ x i ∧ x i ≤ 255) (y : Fin t → UInt8)
    (s : UInt8) :
    Nat.card {c : Fin (k - 1) → UInt8 // ∀ i,
      evalPoly ((s.toNat : ℤ) :: List.ofFn fun j => ((c j).toNat : ℤ)) (x i)
        = .ok ((y i).toNat : ℤ)} = 256 ^ (k - 1 - t) := by
  have hlt : ∀ i, x i - 1 < 255 := fun i => by
    have := hrange i
    omega
  have hinj : Function.Injective fun i => x i - 1 := fun i j h => hx (by
    have := hrange i
    have := hrange j
    dsimp only at h
    omega)
  rw [← card_horner ht hinj hlt y s]
  refine Nat.card_congr (Equiv.subtypeEquivRight fun c => forall_congr' fun i => ?_)
  have hpt : (x i : ℤ) = toInt (index (x i - 1)) := by
    rw [toInt_index (hlt i)]
    have := hrange i
    omega
  have hcoeffs : ((s.toNat : ℤ) :: List.ofFn fun j => ((c j).toNat : ℤ))
      = (ofByte s :: List.ofFn fun j => ofByte (c j)).map toInt := by
    rw [List.map_cons, List.map_ofFn]
    rfl
  rw [hcoeffs, hpt, evalPoly_toInt, ← toInt_ofByte, Except.ok.injEq, toInt_injective.eq_iff]

/-! ### Whole secrets -/

/-- The draws of `os.urandom` for a secret of `len` bytes, as a finite table. -/
def drawsOf {len m : ℕ} (r : Fin len → Fin m → UInt8) (i j : ℕ) : UInt8 :=
  if h : i < len ∧ j < m then r ⟨i, h.1⟩ ⟨j, h.2⟩ else 0

/-- The share at `index i` shows the bytes `y` exactly when each byte position
does. -/
theorem shareAt_eq_iff {k : ℕ} (secret : Bytes) (r : Fin secret.length → Fin (k - 1) → UInt8)
    (x : GF256) {y : Bytes} (hy : y.length = secret.length) :
    shareAt secret k (drawsOf r) x = y ↔ ∀ b : Fin secret.length,
      horner (ofByte secret[b] :: List.ofFn fun j => ofByte (r b j)) x
        = ofByte (y.getD b 0) := by
  have hcoeff : ∀ b : Fin secret.length, coefficients (drawsOf r) k secret[b] b
      = ofByte secret[b] :: List.ofFn fun j => ofByte (r b j) := by
    intro b
    rw [coefficients]
    refine congrArg _ (List.ext_getElem (by simp) fun j h1 h2 => ?_)
    have hj : j < k - 1 := by simpa using h1
    simp [drawsOf, hj]
  constructor
  · rintro rfl b
    rw [← hcoeff b]
    simp [shareAt]
  · intro h
    refine List.ext_getElem (by rw [shareAt_length, hy]) fun b h1 h2 => ?_
    have hb : b < secret.length := by rwa [shareAt_length] at h1
    have hval := h ⟨b, hb⟩
    rw [← hcoeff ⟨b, hb⟩] at hval
    simp only [shareAt, List.getElem_map, List.getElem_zipIdx, Nat.zero_add]
    have := congrArg toByte hval
    simpa [hy, hb] using this

/-- The draws under which `splitSecret` returns given shares at given positions. -/
def Consistent (secret : Bytes) (k n : ℕ) {t : ℕ} (I : Fin t → ℕ) (obs : Fin t → ℤ × Bytes)
    (r : Fin secret.length → Fin (k - 1) → UInt8) : Prop :=
  ∃ shares, splitSecret secret k n (drawsOf r) = .ok shares ∧
    ∀ i, shares[I i]? = some (obs i)

theorem consistent_iff {k n t : ℕ} (hk : 1 ≤ k) (hkn : k ≤ n) (hn : n ≤ 255)
    {secret : Bytes} {I : Fin t → ℕ} (hI : ∀ i, I i < n) {obs : Fin t → ℤ × Bytes}
    {r : Fin secret.length → Fin (k - 1) → UInt8} :
    Consistent secret k n I obs r ↔
      ∀ i, (toInt (index (I i)), shareAt secret k (drawsOf r) (index (I i))) = obs i := by
  have hget : ∀ i, ((List.range n).map fun i =>
      (toInt (index i), shareAt secret k (drawsOf r) (index i)))[I i]?
        = some (toInt (index (I i)), shareAt secret k (drawsOf r) (index (I i))) := by
    intro i
    simp [hI i]
  constructor
  · rintro ⟨shares, hsplit, hobs⟩ i
    rw [splitSecret_eq hk hkn hn] at hsplit
    obtain rfl := Except.ok.inj hsplit
    exact Option.some.inj ((hget i).symm.trans (hobs i))
  · intro h
    exact ⟨_, splitSecret_eq hk hkn hn _ _, fun i => (hget i).trans (congrArg some (h i))⟩

/-- **The count for a whole secret.**  It depends on the length of the secret and
on the observations only. -/
theorem card_consistent {k n t : ℕ} (hk : 1 ≤ k) (hkn : k ≤ n) (hn : n ≤ 255) (ht : t < k)
    (secret : Bytes) {I : Fin t → ℕ} (hinj : Function.Injective I) (hI : ∀ i, I i < n)
    (obs : Fin t → ℤ × Bytes) :
    Nat.card {r // Consistent secret k n I obs r}
      = open Classical in
        if ∀ i, (obs i).1 = (I i : ℤ) + 1 ∧ (obs i).2.length = secret.length
        then (256 ^ (k - 1 - t)) ^ secret.length else 0 := by
  have hlt : ∀ i, I i < 255 := fun i => lt_of_lt_of_le (hI i) hn
  split
  · rename_i hobs
    have hiff : ∀ r : Fin secret.length → Fin (k - 1) → UInt8,
        Consistent secret k n I obs r ↔ ∀ b i,
          horner (ofByte secret[b] :: List.ofFn fun j => ofByte (r b j)) (index (I i))
            = ofByte ((obs i).2.getD b 0) := by
      intro r
      rw [consistent_iff hk hkn hn hI, forall_comm]
      refine forall_congr' fun i => ?_
      rw [← shareAt_eq_iff secret r _ (hobs i).2, Prod.ext_iff, toInt_index (hlt i)]
      exact and_iff_right (hobs i).1.symm
    rw [Nat.card_congr (Equiv.subtypeEquivRight hiff),
      Nat.card_congr (Equiv.subtypePiEquivPi
        (p := fun (b : Fin secret.length) (c : Fin (k - 1) → UInt8) => ∀ i,
          horner (ofByte secret[b] :: List.ofFn fun j => ofByte (c j)) (index (I i))
            = ofByte ((obs i).2.getD b 0))), Nat.card_pi,
      Finset.prod_congr rfl fun b _ => card_horner (by omega) hinj hlt _ _,
      Finset.prod_const, Finset.card_univ, Fintype.card_fin]
  · rename_i hobs
    have hempty : ∀ r, ¬ Consistent secret k n I obs r := by
      intro r h
      refine hobs fun i => ?_
      have := (consistent_iff hk hkn hn hI).mp h i
      rw [← this, shareAt_length, toInt_index (hlt i)]
      exact ⟨rfl, rfl⟩
    have : IsEmpty {r // Consistent secret k n I obs r} := ⟨fun r => hempty r.1 r.2⟩
    exact Nat.card_of_isEmpty

/-- **Perfect secrecy.**  With fewer observed shares than the threshold, every
candidate secret byte is completed by the same number of coefficient vectors;
hence any two secrets of one length produce given shares under equally many
outcomes of the draws. -/
theorem shares_independent_of_secret {k : ℕ} (hk : 1 ≤ k) :
    (∀ (t : ℕ) (x : Fin t → ℕ) (y : Fin t → UInt8) (s : UInt8), t ≤ k - 1 →
      Function.Injective x → (∀ i, 1 ≤ x i ∧ x i ≤ 255) →
      Nat.card {c : Fin (k - 1) → UInt8 // ∀ i,
        evalPoly ((s.toNat : ℤ) :: List.ofFn fun j => ((c j).toNat : ℤ)) (x i)
          = .ok ((y i).toNat : ℤ)} = 256 ^ (k - 1 - t)) ∧
    (∀ (n t : ℕ) (I : Fin t → ℕ) (obs : Fin t → ℤ × Bytes) (secret secret' : Bytes),
      k ≤ n → n ≤ 255 → t < k → Function.Injective I → (∀ i, I i < n) →
      secret.length = secret'.length →
      Nat.card {r // Consistent secret k n I obs r}
        = Nat.card {r // Consistent secret' k n I obs r}) := by
  refine ⟨fun t x y s ht hx hrange => card_evalPoly ht hx hrange y s, ?_⟩
  intro n t I obs secret secret' hkn hn ht hinj hI hlen
  rw [card_consistent hk hkn hn ht secret hinj hI, card_consistent hk hkn hn ht secret' hinj hI,
    hlen]

theorem shares_independent_of_secret_three :
    Nat.card {c : Fin 2 → UInt8 // ∀ i : Fin 1,
      evalPoly (200 :: List.ofFn fun j => ((c j).toNat : ℤ)) (![5] i : ℕ) = .ok 17}
        = 256 ∧
    Nat.card {r // Consistent [1, 2] 3 5 ![0, 4] ![(1, [9, 9]), (5, [8, 7])] r}
      = Nat.card {r // Consistent [254, 0] 3 5 ![0, 4] ![(1, [9, 9]), (5, [8, 7])] r} :=
  ⟨(shares_independent_of_secret (k := 3) (by decide)).1 1 ![5] (fun _ => 17) 200 (by decide)
      (by decide) (by decide),
    (shares_independent_of_secret (k := 3) (by decide)).2 5 2 ![0, 4] _ [1, 2] [254, 0]
      (by decide) (by decide) (by decide) (by decide) (by decide) rfl⟩
