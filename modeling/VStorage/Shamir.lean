/-
`shamir.py`: splitting a secret into shares and combining them again.

`splitSecret` and `combineShares` are the two loops of the source over bytes;
`combinePoints` is the inner double loop, Lagrange interpolation at zero with
explicit numerator and denominator products.  Through the tables they compute in
the field `GF256` (`evalPoly_toInt`, `combinePoints_toInt`), so that reconstruction
is the general `SecretSharing.sum_basis_zero`:

* `combineShares_splitSecret`: any `k` different shares give the secret back,
  whatever coefficients were drawn.
-/
import Mathlib
import VStorage.SecretSharing
import VStorage.GF256

open SecretSharing

/-! ### The code -/

/-- `_eval_poly`. -/
def evalPoly (coeffs : List ℤ) (x : ℤ) : Except PyError ℤ :=
  coeffs.reverse.foldlM (fun result coeff => do
    return Int.xor (← gfMul result x) coeff) 0

/-- `split_secret`.  The byte `urandom i j` is the outcome of the `j`-th draw of
`os.urandom(1)` for byte `i` of the secret. -/
def splitSecret (secret : Bytes) (k n : ℕ) (urandom : ℕ → ℕ → UInt8) :
    Except PyError (List (ℤ × Bytes)) :=
  if ¬ (1 ≤ k ∧ k ≤ n) then .error .valueError
  else do
    let columns ← secret.zipIdx.mapM fun (secretByte, byteIdx) => do
      let coeffs : List ℤ :=
        secretByte.toNat :: (List.range (k - 1)).map fun j => ((urandom byteIdx j).toNat : ℤ)
      (List.range n).mapM fun (shareIdx : ℕ) => do
        byteOfInt (← evalPoly coeffs ((shareIdx : ℤ) + 1))
    return (List.range n).map fun (i : ℕ) => ((i : ℤ) + 1, columns.map fun col => col.getD (i : ℕ) 0)

/-- The inner loop of `combine_shares`: numerator and denominator of the `i`-th
Lagrange coefficient at zero. -/
def basisAtZero (points : List (ℤ × ℤ)) (xi : ℤ) (i : ℕ) : Except PyError (ℤ × ℤ) :=
  points.zipIdx.foldlM (fun (num, den) ((xj, _), j) =>
    if i = j then return (num, den)
    else return (← gfMul num xj, ← gfMul den (Int.xor xi xj))) (1, 1)

/-- The outer loop of `combine_shares`, for one byte position. -/
def combinePoints (points : List (ℤ × ℤ)) : Except PyError ℤ :=
  points.zipIdx.foldlM (fun secretByte ((xi, yi), i) => do
    let (num, den) ← basisAtZero points xi i
    let term ← gfMul yi (← gfDiv num den)
    return Int.xor secretByte term) 0

/-- `combine_shares`. -/
def combineShares (shares : List (ℤ × Bytes)) : Except PyError Bytes := do
  let first ← pyIndex shares 0
  (List.range first.2.length).mapM fun byteIdx => do
    let points ← shares.mapM fun (x, y) => do
      return (x, ((← pyIndex y byteIdx).toNat : ℤ))
    byteOfInt (← combinePoints points)

/-! ### Bytes as field elements -/

namespace GF256

/-- The field element of a byte. -/
def ofByte (b : UInt8) : GF256 := mk b.toNat b.toNat_lt

/-- The byte of a field element. -/
def toByte (a : GF256) : UInt8 := UInt8.ofNat a.val

@[simp] theorem toInt_ofByte (b : UInt8) : toInt (ofByte b) = (b.toNat : ℤ) := rfl

@[simp] theorem ofByte_toByte (a : GF256) : ofByte (toByte a) = a := by
  ext
  exact UInt8.toNat_ofNat_of_lt' a.val_lt

@[simp] theorem toByte_ofByte (b : UInt8) : toByte (ofByte b) = b := UInt8.ofNat_toNat

theorem byteOfInt_toInt (a : GF256) : byteOfInt (toInt a) = .ok (toByte a) := by
  rw [← ofByte_toByte a, toInt_ofByte, byteOfInt_toNat, toByte_ofByte]

/-- The index of share number `i`. -/
def index (i : ℕ) : GF256 := mk ((i + 1) % 256) (Nat.mod_lt _ (by decide))

theorem toInt_index {i : ℕ} (hi : i < 255) : toInt (index i) = (i : ℤ) + 1 := by
  rw [toInt, index, val_mk, Nat.mod_eq_of_lt (by omega)]
  rfl

end GF256

open GF256

theorem evalPoly_toInt (coeffs : List GF256) (x : GF256) :
    evalPoly (coeffs.map toInt) (toInt x) = .ok (toInt (horner coeffs x)) := by
  rw [evalPoly, ← List.map_reverse, List.foldlM_map, ← toInt_zero,
    foldlM_ok (g := fun r c => r * x + c) toInt]
  · rw [List.foldl_reverse]
    rfl
  · intro r c _
    rw [gfMul_toInt]
    rfl

/-! ### Interpolation -/

/-- What `combinePoints` computes in the field. -/
def interpolateZero (ps : List (GF256 × GF256)) : GF256 :=
  ∑ i : Fin ps.length, ps[i].2 *
    ((∏ j ∈ Finset.univ.erase i, ps[j].1) / ∏ j ∈ Finset.univ.erase i, (ps[i].1 + ps[j].1))

/-- A point with integer coordinates. -/
def pointToInt (p : GF256 × GF256) : ℤ × ℤ := (toInt p.1, toInt p.2)

theorem basisAtZero_toInt (ps : List (GF256 × GF256)) (x : GF256) (i : Fin ps.length) :
    basisAtZero (ps.map pointToInt) (toInt x) i
      = .ok (pointToInt (∏ j ∈ Finset.univ.erase i, ps[j].1,
          ∏ j ∈ Finset.univ.erase i, (x + ps[j].1))) := by
  -- one loop keeps both products, so take them in the product monoid
  have hpair : (∏ j ∈ Finset.univ.erase i, ps[j].1,
      ∏ j ∈ Finset.univ.erase i, (x + ps[j].1))
        = ∏ j ∈ Finset.univ.erase i, (ps[j].1, x + ps[j].1) := by
    rw [Prod.ext_iff, Prod.fst_prod, Prod.snd_prod]
    exact ⟨rfl, rfl⟩
  rw [hpair, ← foldl_finRange_mul_erase, basisAtZero, List.zipIdx_map,
    zipIdx_eq_map_finRange, List.map_map, List.foldlM_map,
    show ((1, 1) : ℤ × ℤ) = pointToInt 1 from rfl, foldlM_ok pointToInt]
  intro t j _
  by_cases hij : i = j
  · simp only [Function.comp_apply, Prod.map, id_eq, hij, if_pos]
    rfl
  · have hne : ¬ (i : ℕ) = j := fun h => hij (Fin.ext h)
    simp only [Function.comp_apply, Prod.map, id_eq, pointToInt, if_neg hij, if_neg hne,
      xor_toInt, gfMul_toInt]
    rfl

theorem fst_injective {ps : List (GF256 × GF256)} (hps : (ps.map Prod.fst).Nodup) :
    Function.Injective fun i : Fin ps.length => ps[i].1 := by
  intro i j h
  have hlen : ps.length = (ps.map Prod.fst).length := by simp
  have hget : (ps.map Prod.fst).get (i.cast hlen) = (ps.map Prod.fst).get (j.cast hlen) := by
    simpa using h
  have hij := List.nodup_iff_injective_get.mp hps hget
  exact Fin.ext (by simpa using congrArg Fin.val hij)

/-- The denominators of the Lagrange coefficients do not vanish. -/
theorem prod_add_ne_zero {ps : List (GF256 × GF256)} (hps : (ps.map Prod.fst).Nodup)
    (i : Fin ps.length) : ∏ j ∈ Finset.univ.erase i, (ps[i].1 + ps[j].1) ≠ 0 := by
  refine Finset.prod_ne_zero_iff.mpr fun j hj h => ?_
  rw [← GF256.sub_eq_add, sub_eq_zero] at h
  exact (Finset.mem_erase.mp hj).1 (fst_injective hps h.symm)

/-- On points with different first coordinates `combinePoints` is Lagrange
interpolation at zero. -/
theorem combinePoints_toInt {ps : List (GF256 × GF256)} (hps : (ps.map Prod.fst).Nodup) :
    combinePoints (ps.map pointToInt) = .ok (toInt (interpolateZero ps)) := by
  rw [interpolateZero, ← foldl_finRange_add, combinePoints, List.zipIdx_map,
    zipIdx_eq_map_finRange, List.map_map, List.foldlM_map, ← toInt_zero, foldlM_ok toInt]
  intro t i _
  have hbasis := basisAtZero_toInt ps ps[i].1 i
  simp only [Function.comp_apply, Prod.map, id_eq, pointToInt] at hbasis ⊢
  rw [hbasis, ok_bind, gfDiv_toInt _ (prod_add_ne_zero hps i), ok_bind, gfMul_toInt, ok_bind,
    xor_toInt]
  rfl

/-- Interpolation recovers the constant term from the values at enough points. -/
theorem interpolateZero_horner {ps : List (GF256 × GF256)} (hps : (ps.map Prod.fst).Nodup)
    (coeffs : List GF256) (hval : ∀ p ∈ ps, p.2 = horner coeffs p.1)
    (hlen : coeffs.length ≤ ps.length) : interpolateZero ps = horner coeffs 0 := by
  rw [← sum_basis_zero (fst_injective hps) hlen, interpolateZero]
  refine Finset.sum_congr rfl fun i _ => ?_
  rw [hval ps[i] (List.getElem_mem _)]
  simp only [GF256.neg_eq, GF256.sub_eq_add]

/-! ### Splitting and combining -/

/-- The polynomial that `splitSecret` draws for one byte of the secret. -/
def coefficients (urandom : ℕ → ℕ → UInt8) (k : ℕ) (secretByte : UInt8) (byteIdx : ℕ) :
    List GF256 :=
  ofByte secretByte :: (List.range (k - 1)).map fun j => ofByte (urandom byteIdx j)

theorem coefficients_length {k : ℕ} (hk : 1 ≤ k) (urandom : ℕ → ℕ → UInt8) (b : UInt8)
    (i : ℕ) : (coefficients urandom k b i).length = k := by
  simp [coefficients]
  omega

/-- The share with index `x`. -/
def shareAt (secret : Bytes) (k : ℕ) (urandom : ℕ → ℕ → UInt8) (x : GF256) : Bytes :=
  secret.zipIdx.map fun (b, i) => toByte (horner (coefficients urandom k b i) x)

@[simp] theorem shareAt_length (secret : Bytes) (k : ℕ) (urandom : ℕ → ℕ → UInt8)
    (x : GF256) : (shareAt secret k urandom x).length = secret.length := by
  simp [shareAt]

theorem evalByte_eq (urandom : ℕ → ℕ → UInt8) (k : ℕ) (secretByte : UInt8)
    (byteIdx : ℕ) {i : ℕ} (hi : i < 255) :
    (do byteOfInt (← evalPoly ((secretByte.toNat : ℤ) ::
        (List.range (k - 1)).map fun j => ((urandom byteIdx j).toNat : ℤ)) ((i : ℤ) + 1)))
      = .ok (toByte (horner (coefficients urandom k secretByte byteIdx) (index i))) := by
  have hcoeffs : ((secretByte.toNat : ℤ) ::
      (List.range (k - 1)).map fun j => ((urandom byteIdx j).toNat : ℤ))
        = (coefficients urandom k secretByte byteIdx).map toInt := by
    simp [coefficients, List.map_map, Function.comp_def]
  rw [hcoeffs, ← toInt_index hi, evalPoly_toInt, ok_bind, byteOfInt_toInt]

/-- `splitSecret` returns the values of the drawn polynomials at the points `1..n`. -/
theorem splitSecret_eq {k n : ℕ} (hk : 1 ≤ k) (hkn : k ≤ n) (hn : n ≤ 255)
    (secret : Bytes) (urandom : ℕ → ℕ → UInt8) :
    splitSecret secret k n urandom = .ok ((List.range n).map fun i =>
      (toInt (index i), shareAt secret k urandom (index i))) := by
  have hrow : ∀ (b : UInt8) (i : ℕ), (List.range n).mapM (fun shareIdx : ℕ => do
      byteOfInt (← evalPoly ((b.toNat : ℤ) ::
        (List.range (k - 1)).map fun j => ((urandom i j).toNat : ℤ)) ((shareIdx : ℤ) + 1)))
      = .ok ((List.range n).map fun shareIdx =>
          toByte (horner (coefficients urandom k b i) (index shareIdx))) := fun b i =>
    mapM_ok fun shareIdx h => evalByte_eq urandom k b i (by
      have := List.mem_range.mp h
      omega)
  rw [splitSecret, if_neg (not_not.mpr ⟨hk, hkn⟩),
    mapM_ok (g := fun q : UInt8 × ℕ => (List.range n).map fun shareIdx =>
      toByte (horner (coefficients urandom k q.1 q.2) (index shareIdx)))]
  · show Except.ok _ = _
    congr 1
    refine List.map_congr_left fun i hi => ?_
    have hin := List.mem_range.mp hi
    rw [toInt_index (by omega), shareAt, List.map_map]
    refine congrArg (Prod.mk _) (List.map_congr_left fun q _ => ?_)
    simp [hin]
  · rintro ⟨b, i⟩ _
    exact hrow b i

/-- A secret is only shared among enough holders, and with at least one needed. -/
theorem threshold_of_splitSecret {k n : ℕ} {secret : Bytes} {urandom : ℕ → ℕ → UInt8}
    {shares : List (ℤ × Bytes)} (h : splitSecret secret k n urandom = .ok shares) :
    1 ≤ k ∧ k ≤ n := by
  by_contra hnot
  rw [splitSecret, if_pos hnot] at h
  exact nomatch h

theorem splitSecret_eq_ok {k n : ℕ} (hn : n ≤ 255) {secret : Bytes} {urandom : ℕ → ℕ → UInt8}
    {shares : List (ℤ × Bytes)} (h : splitSecret secret k n urandom = .ok shares) :
    (1 ≤ k ∧ k ≤ n) ∧ shares = (List.range n).map fun i =>
      (toInt (index i), shareAt secret k urandom (index i)) := by
  have hkn := threshold_of_splitSecret h
  rw [splitSecret_eq hkn.1 hkn.2 hn secret urandom] at h
  exact ⟨hkn, (Except.ok.inj h).symm⟩

/-- A share with a byte for its index. -/
def shareToInt (s : GF256 × Bytes) : ℤ × Bytes := (toInt s.1, s.2)

/-- The point that a share contributes at one byte position. -/
def pointAt (i : ℕ) (s : GF256 × Bytes) : GF256 × GF256 := (s.1, ofByte (s.2.getD i 0))

theorem points_shares {shares : List (GF256 × Bytes)} {i : ℕ}
    (hlen : ∀ s ∈ shares, i < s.2.length) :
    (shares.map shareToInt).mapM
        (fun (s : ℤ × Bytes) => do return (s.1, ((← pyIndex s.2 i).toNat : ℤ)))
      = .ok ((shares.map (pointAt i)).map pointToInt) := by
  rw [List.mapM_map, List.map_map]
  refine mapM_ok fun s hs => ?_
  have hget : s.2[i]? = some (s.2.getD i 0) := by simp [hlen s hs]
  rw [Function.comp_apply, shareToInt, pyIndex_natCast hget]
  rfl

/-- **Combining**, byte by byte: interpolation at zero through the points of the shares. -/
theorem combineShares_toInt {shares : List (GF256 × Bytes)} {n : ℕ} (hne : shares ≠ [])
    (hnodup : (shares.map Prod.fst).Nodup) (hlen : ∀ s ∈ shares, s.2.length = n) :
    combineShares (shares.map shareToInt)
      = .ok ((List.range n).map fun i => toByte (interpolateZero (shares.map (pointAt i)))) := by
  obtain ⟨s, rest, rfl⟩ := List.exists_cons_of_ne_nil hne
  have hfirst : pyIndex ((s :: rest).map shareToInt) 0 = .ok (toInt s.1, s.2) :=
    pyIndex_natCast (i := 0) rfl
  rw [combineShares, hfirst, ok_bind, hlen s List.mem_cons_self]
  refine mapM_ok fun i hi => ?_
  have hfst : (((s :: rest).map (pointAt i)).map Prod.fst).Nodup := by
    rwa [List.map_map]
  rw [points_shares fun t ht => hlen t ht ▸ List.mem_range.mp hi, ok_bind,
    combinePoints_toInt hfst, ok_bind, byteOfInt_toInt]

/-- At one byte position, the points of the shares at `xs` lie on the polynomial drawn for that
byte. -/
theorem pointAt_shareAt {secret : Bytes} {k : ℕ} {urandom : ℕ → ℕ → UInt8} {i : ℕ}
    (hi : i < secret.length) (x : GF256) :
    pointAt i (x, shareAt secret k urandom x)
      = (x, horner (coefficients urandom k (secret.getD i 0) i) x) := by
  have hget : (shareAt secret k urandom x).getD i 0
      = toByte (horner (coefficients urandom k (secret.getD i 0) i) x) := by
    simp [shareAt, hi]
  rw [pointAt, hget, ofByte_toByte]

/-- Combining the shares at enough different points gives the secret. -/
theorem combineShares_shareAt {k : ℕ} (hk : 1 ≤ k) (secret : Bytes)
    (urandom : ℕ → ℕ → UInt8) {xs : List GF256} (hxs : xs.Nodup) (hlen : k ≤ xs.length) :
    combineShares (xs.map fun x => (toInt x, shareAt secret k urandom x)) = .ok secret := by
  set shares := xs.map fun x => (x, shareAt secret k urandom x) with hshares
  have hfst : shares.map Prod.fst = xs := by
    rw [hshares, List.map_map]
    exact List.map_id xs
  have hne : shares ≠ [] := by
    refine List.ne_nil_of_length_pos ?_
    rw [hshares, List.length_map]
    exact Nat.lt_of_lt_of_le hk hlen
  have hlength : ∀ s ∈ shares, s.2.length = secret.length := by
    rw [hshares, List.forall_mem_map]
    exact fun x _ => shareAt_length secret k urandom x
  have hmap : xs.map (fun x => (toInt x, shareAt secret k urandom x))
      = shares.map shareToInt := by
    rw [hshares, List.map_map]
    rfl
  rw [hmap, combineShares_toInt hne (by rwa [hfst]) hlength]
  congr 1
  refine List.ext_getElem (by simp) fun i h1 h2 => ?_
  -- one byte of the secret
  have hpoints : shares.map (pointAt i)
      = xs.map fun x => (x, horner (coefficients urandom k (secret.getD i 0) i) x) := by
    rw [hshares, List.map_map]
    exact List.map_congr_left fun x _ => pointAt_shareAt h2 x
  have hnodup : ((shares.map (pointAt i)).map Prod.fst).Nodup := by
    rw [List.map_map]
    exact hfst.symm ▸ hxs
  have hval : ∀ p ∈ shares.map (pointAt i),
      p.2 = horner (coefficients urandom k (secret.getD i 0) i) p.1 := by
    rw [hpoints, List.forall_mem_map]
    exact fun _ _ => rfl
  have hcount : (coefficients urandom k (secret.getD i 0) i).length
      ≤ (shares.map (pointAt i)).length := by
    rw [coefficients_length hk, hpoints, List.length_map]
    exact hlen
  rw [List.getElem_map, List.getElem_range, interpolateZero_horner hnodup _ hval hcount,
    coefficients, horner_cons_zero, toByte_ofByte]
  simp [h2]

/-- Shares with different indices and one length always combine, to whatever it is. -/
theorem combineShares_total {shares : List (ℤ × Bytes)} {xs : List GF256} {n : ℕ}
    (hne : shares ≠ []) (hxs : xs.Nodup) (hindex : shares.map Prod.fst = xs.map toInt)
    (hlen : ∀ s ∈ shares, s.2.length = n) : ∃ v, combineShares shares = .ok v := by
  have hlength : xs.length = (shares.map Prod.snd).length := by
    simpa using (congrArg List.length hindex).symm
  -- the shares with the bytes for their indices
  obtain ⟨ss, hss, rfl⟩ : ∃ ss : List (GF256 × Bytes),
      ss.map Prod.fst = xs ∧ ss.map shareToInt = shares := by
    refine ⟨xs.zip (shares.map Prod.snd), List.map_fst_zip hlength.le, ?_⟩
    have hmap : shareToInt = Prod.map toInt id := rfl
    rw [hmap, ← List.zip_map, List.map_id, ← hindex]
    exact (List.zip_of_prod rfl rfl).symm
  have hlen' : ∀ s ∈ ss, s.2.length = n := fun s hs => hlen _ (List.mem_map_of_mem hs)
  exact ⟨_, combineShares_toInt (fun h => hne (h ▸ rfl)) (by rwa [hss]) hlen'⟩

/-- **Reconstruction.**  Whatever coefficients are drawn, `splitSecret` returns `n`
shares, and any `k` or more different ones of them, in any order, combine to the
secret. -/
theorem combineShares_splitSecret {k n : ℕ} (hk : 1 ≤ k) (hkn : k ≤ n) (hn : n ≤ 255)
    (secret : Bytes) (urandom : ℕ → ℕ → UInt8) :
    ∃ shares, splitSecret secret k n urandom = .ok shares ∧ shares.length = n ∧
      ∀ chosen : List (ℤ × Bytes), chosen.Nodup → (∀ s ∈ chosen, s ∈ shares) →
        k ≤ chosen.length → combineShares chosen = .ok secret := by
  refine ⟨_, splitSecret_eq hk hkn hn secret urandom, by simp, ?_⟩
  intro chosen hnodup hmem hlen
  -- a returned share is determined by its point
  have hshape : ∀ s ∈ chosen, ∃ x : GF256, s = (toInt x, shareAt secret k urandom x) := by
    intro s hs
    obtain ⟨i, -, rfl⟩ := List.mem_map.mp (hmem s hs)
    exact ⟨_, rfl⟩
  obtain ⟨xs, rfl⟩ : ∃ xs : List GF256,
      chosen = xs.map fun x => (toInt x, shareAt secret k urandom x) := by
    clear hnodup hmem hlen
    induction chosen with
    | nil => exact ⟨[], rfl⟩
    | cons s rest ih =>
      obtain ⟨x, rfl⟩ := hshape s List.mem_cons_self
      obtain ⟨xs, rfl⟩ := ih fun t ht => hshape t (List.mem_cons_of_mem _ ht)
      exact ⟨x :: xs, rfl⟩
  rw [List.length_map] at hlen
  exact combineShares_shareAt hk secret urandom (List.Nodup.of_map _ hnodup) hlen

theorem combineShares_splitSecret_two_of_three :
    splitSecret [42] 2 3 (fun _ _ => 7) = .ok [(1, [45]), (2, [36]), (3, [35])] ∧
      combineShares [(3, [35]), (1, [45])] = .ok [42] := by
  obtain ⟨shares, hshares, -, hcombine⟩ := combineShares_splitSecret (k := 2) (n := 3)
    (by decide) (by decide) (by decide) [42] fun _ _ => 7
  have hval : splitSecret [42] 2 3 (fun _ _ => 7)
      = .ok [(1, [45]), (2, [36]), (3, [35])] := by
    -- in the field, where a product is one look-up and no table is read from its end
    rw [splitSecret_eq (by decide) (by decide) (by decide)]
    decide +kernel
  rw [hval] at hshares
  obtain rfl := Except.ok.inj hshares
  exact ⟨hval, hcombine _ (by decide) (by decide) (by decide)⟩
