/-
Shares whose index is not a byte.

Nothing stops `split_secret` from dealing more than 255 shares: an index past the end of
the tables raises only where it meets a factor other than zero.  So the shares that
come out are all equal to the secret, and combining some of them raises or returns it:

* `combineShares_dealt`: whatever `n`, different shares that combine at all, combine to
  the secret.
-/
import Mathlib
import VStorage.Shamir

open GF256

/-! ### Splitting -/

theorem evalPoly_cons (c : ℤ) (coeffs : List ℤ) (x : ℤ) :
    evalPoly (c :: coeffs) x = (coeffs.reverse ++ [c]).foldlM (fun result coeff => do
      return Int.xor (← gfMul result x) coeff) 0 := by
  rw [evalPoly, List.reverse_cons]

theorem gfMul_zero (b : ℤ) : gfMul 0 b = .ok 0 := if_pos (Or.inl rfl)

theorem int_zero_xor (a : ℤ) : Int.xor 0 a = a := by
  cases a with
  | ofNat n => exact congrArg Int.ofNat (Nat.zero_xor n)
  | negSucc n => exact congrArg Int.negSucc (Nat.zero_xor n)

/-- Past the tables a polynomial has a value only if it is constant. -/
theorem eq_zero_of_evalPoly {c x r : ℤ} {coeffs : List ℤ} (hx : 256 ≤ x)
    (h : evalPoly (c :: coeffs) x = .ok r) : ∀ d ∈ coeffs, d = 0 := by
  rw [evalPoly_cons] at h
  suffices ∀ d ∈ coeffs.reverse, d = 0 from fun d hd => this d (List.mem_reverse.mpr hd)
  generalize coeffs.reverse = l at h
  induction l with
  | nil => exact fun d hd => nomatch hd
  | cons d l ih =>
    rw [List.cons_append, List.foldlM_cons, gfMul_zero, ok_bind, int_zero_xor] at h
    obtain rfl : d = 0 := by
      by_contra hd
      obtain ⟨e, l', he⟩ := List.exists_cons_of_ne_nil (List.append_ne_nil_of_right_ne_nil l
        (List.cons_ne_nil c []))
      change (l ++ [c]).foldlM _ d = _ at h
      rw [he, List.foldlM_cons] at h
      obtain ⟨_, hstep, -⟩ := bind_eq_ok.mp h
      obtain ⟨m, hm, -⟩ := bind_eq_ok.mp hstep
      exact gfMul_ne_ok hd hx m hm
    exact List.forall_mem_cons.mpr ⟨rfl, ih h⟩

theorem evalPoly_constant {c : ℤ} {coeffs : List ℤ} (h : ∀ d ∈ coeffs, d = 0) (x : ℤ) :
    evalPoly (c :: coeffs) x = .ok c := by
  have hzero : ∀ l : List ℤ, (∀ d ∈ l, d = 0) → (l ++ [c]).foldlM (fun result coeff => do
      return Int.xor (← gfMul result x) coeff) 0 = .ok c := by
    intro l hl
    induction l with
    | nil => rw [List.nil_append, List.foldlM_cons, gfMul_zero, ok_bind, int_zero_xor]; rfl
    | cons d l ih =>
      obtain ⟨rfl, hl'⟩ := List.forall_mem_cons.mp hl
      rw [List.cons_append, List.foldlM_cons, gfMul_zero, ok_bind, int_zero_xor]
      exact ih hl'
  rw [evalPoly_cons]
  exact hzero _ fun d hd => h d (List.mem_reverse.mp hd)

/-- More than 255 shares come out only when all coefficients drawn are zero. -/
theorem eq_zero_of_splitSecret {secret : Bytes} {k n : ℕ} {urandom : ℕ → ℕ → UInt8}
    {shares : List (ℤ × Bytes)} (hsplit : splitSecret secret k n urandom = .ok shares)
    (hn : 255 < n) : ∀ q ∈ secret.zipIdx,
      ∀ d ∈ (List.range (k - 1)).map fun j => ((urandom q.2 j).toNat : ℤ), d = 0 := by
  intro q hq
  rw [splitSecret, if_neg (not_not.mpr (threshold_of_splitSecret hsplit))] at hsplit
  obtain ⟨columns, hcolumns, -⟩ := bind_eq_ok.mp hsplit
  obtain ⟨col, hcol⟩ := mapM_eq_ok hcolumns q hq
  obtain ⟨y, hy⟩ := mapM_eq_ok hcol 255 (List.mem_range.mpr hn)
  obtain ⟨r, hr, -⟩ := bind_eq_ok.mp hy
  exact eq_zero_of_evalPoly (by norm_num) hr

/-- With more than 255 of them, the shares that come out are the secret. -/
theorem splitSecret_past {secret : Bytes} {k n : ℕ} {urandom : ℕ → ℕ → UInt8}
    {shares : List (ℤ × Bytes)} (hsplit : splitSecret secret k n urandom = .ok shares)
    (hn : 255 < n) : shares = (List.range n).map fun i : ℕ => ((i : ℤ) + 1, secret) := by
  have hzero := eq_zero_of_splitSecret hsplit hn
  rw [splitSecret, if_neg (not_not.mpr (threshold_of_splitSecret hsplit))] at hsplit
  obtain ⟨columns, hcolumns, hshares⟩ := bind_eq_ok.mp hsplit
  obtain rfl := Except.ok.inj hshares
  have hrow : ∀ q ∈ secret.zipIdx, (List.range n).mapM (fun shareIdx : ℕ => do
      byteOfInt (← evalPoly ((q.1.toNat : ℤ) ::
        (List.range (k - 1)).map fun j => ((urandom q.2 j).toNat : ℤ)) ((shareIdx : ℤ) + 1)))
      = .ok ((List.range n).map fun _ => q.1) := by
    intro q hq
    refine mapM_ok fun i _ => ?_
    rw [evalPoly_constant (hzero q hq), ok_bind, byteOfInt_toNat]
  have hall := mapM_ok hrow
  rw [hall] at hcolumns
  obtain rfl := Except.ok.inj hcolumns
  refine List.map_congr_left fun i hi => congrArg _ ?_
  have hget : ∀ q : UInt8 × ℕ, ((List.range n).map fun _ => q.1).getD i 0 = q.1 := by
    intro q
    simp [List.mem_range.mp hi]
  rw [List.map_map]
  simp only [Function.comp_def, hget]
  exact List.zipIdx_map_fst 0 secret

/-! ### Combining -/

/-- A share that is combined with no other. -/
theorem combineShares_single (x : ℤ) (secret : Bytes) :
    combineShares [(x, secret)] = .ok secret := by
  have hpoint : ∀ b : UInt8, combinePoints [(x, (b.toNat : ℤ))] = .ok (b.toNat : ℤ) := by
    intro b
    have hbasis : basisAtZero [(x, (b.toNat : ℤ))] x 0 = .ok (toInt 1, toInt 1) := rfl
    rw [combinePoints, List.zipIdx_singleton, List.foldlM_cons, ← toInt_ofByte]
    dsimp only
    rw [toInt_ofByte, hbasis, ok_bind]
    dsimp only
    rw [gfDiv_toInt 1 one_ne_zero, ok_bind, ← toInt_ofByte, gfMul_toInt, ok_bind, div_one, mul_one,
      int_zero_xor]
    rfl
  have hfirst : pyIndex [(x, secret)] 0 = .ok (x, secret) := pyIndex_natCast (i := 0) rfl
  rw [combineShares, hfirst, ok_bind, mapM_ok (g := fun i => secret.getD i 0)]
  · congr 1
    apply List.ext_getElem
    · simp
    · intro i h1 h2
      simp [h2]
  · intro i hi
    have hget : secret[i]? = some (secret.getD i 0) := by simp [List.mem_range.mp hi]
    have hpoints : [(x, secret)].mapM
        (fun (s : ℤ × Bytes) => do return (s.1, ((← pyIndex s.2 i).toNat : ℤ)))
          = .ok [(x, ((secret.getD i 0).toNat : ℤ))] := by
      rw [List.mapM_cons, pyIndex_natCast hget]
      rfl
    rw [hpoints, ok_bind, hpoint, ok_bind, byteOfInt_toNat]

/-- A polynomial of degree zero. -/
theorem shareAt_one (secret : Bytes) (urandom : ℕ → ℕ → UInt8) (x : GF256) :
    shareAt secret 1 urandom x = secret := by
  have hconst : ∀ q : UInt8 × ℕ,
      toByte (SecretSharing.horner (coefficients urandom 1 q.1 q.2) x) = q.1 := by
    intro q
    simp [coefficients, SecretSharing.horner]
  rw [shareAt]
  simp only [hconst]
  exact List.zipIdx_map_fst 0 secret

theorem exists_toInt {x : ℤ} (h0 : 0 ≤ x) (h : x < 256) : ∃ a : GF256, x = toInt a := by
  lift x to ℕ using h0
  exact ⟨mk x (by omega), rfl⟩

/-- A numerator that has a factor past the tables raises. -/
theorem lt_of_basisAtZero {i : ℕ} {xi : ℤ} {points : List (ℤ × ℤ)} {r : ℤ × ℤ}
    (hpos : ∀ p ∈ points, 1 ≤ p.1) (h : basisAtZero points xi i = .ok r) :
    ∀ q ∈ points.zipIdx, i ≠ q.2 → q.1.1 < 256 := by
  have hpos' : ∀ q ∈ points.zipIdx, 1 ≤ q.1.1 := fun q hq =>
    hpos _ (List.fst_mem_of_mem_zipIdx hq)
  obtain ⟨a, den, ha, hstart⟩ : ∃ a den, a ≠ 0 ∧ ((1, 1) : ℤ × ℤ) = (toInt a, den) :=
    ⟨1, 1, one_ne_zero, rfl⟩
  rw [basisAtZero, hstart] at h
  clear hstart
  generalize points.zipIdx = l at h hpos'
  induction l generalizing a den with
  | nil =>
    intro q hq
    cases hq
  | cons q l ih =>
    obtain ⟨⟨xj, yj⟩, j⟩ := q
    obtain ⟨hxj, hl⟩ := List.forall_mem_cons.mp hpos'
    dsimp only at hxj
    rw [List.foldlM_cons] at h
    obtain ⟨⟨num', den'⟩, hstep, hrest⟩ := bind_eq_ok.mp h
    dsimp only at hstep
    split at hstep
    · rename_i hij
      obtain ⟨rfl, rfl⟩ := Prod.mk.inj (Except.ok.inj hstep)
      exact List.forall_mem_cons.mpr ⟨fun hne => absurd hij hne, ih _ _ ha hrest hl⟩
    · obtain ⟨num, hnum, hstep⟩ := bind_eq_ok.mp hstep
      obtain ⟨den'', -, hstep⟩ := bind_eq_ok.mp hstep
      obtain ⟨rfl, rfl⟩ := Prod.mk.inj (Except.ok.inj hstep)
      have hlt : xj < 256 := by
        by_contra hge
        exact gfMul_ne_ok (toInt_eq_zero.not.mpr ha) (not_lt.mp hge) _ hnum
      -- the numerator stays a byte, and not zero
      obtain ⟨b, rfl⟩ := exists_toInt (by omega : 0 ≤ xj) hlt
      have hb : b ≠ 0 := by
        rintro rfl
        exact absurd hxj (by decide)
      obtain rfl := Except.ok.inj ((gfMul_toInt a b).symm.trans hnum)
      exact List.forall_mem_cons.mpr ⟨fun _ => hlt, ih _ _ (mul_ne_zero ha hb) hrest hl⟩

/-- Equal shares with different indices combine to what they all are, or raise. -/
theorem combineShares_constant {secret v : Bytes} {is : List ℕ} (hnodup : is.Nodup)
    (h : combineShares (is.map fun i : ℕ => ((i : ℤ) + 1, secret)) = .ok v) : v = secret := by
  by_cases hlt : ∀ i ∈ is, i < 255
  · -- shares of a polynomial of degree zero
    have hshares : is.map (fun i : ℕ => ((i : ℤ) + 1, secret))
        = (is.map index).map fun x => (toInt x, shareAt secret 1 (fun _ _ => 0) x) := by
      rw [List.map_map]
      refine List.map_congr_left fun i hi => ?_
      rw [Function.comp_apply, toInt_index (hlt i hi), shareAt_one]
    have hindex : (is.map index).Nodup := by
      refine hnodup.map_on fun i hi j hj hij => ?_
      have := congrArg toInt hij
      rw [toInt_index (hlt i hi), toInt_index (hlt j hj)] at this
      omega
    cases is with
    | nil => exact nomatch h
    | cons i is =>
      rw [hshares, combineShares_shareAt le_rfl secret _ hindex (by simp)] at h
      exact (Except.ok.inj h).symm
  · push Not at hlt
    obtain ⟨m, hm, hge⟩ := hlt
    obtain ⟨p, hp, rfl⟩ := List.mem_iff_getElem.mp hm
    by_cases hone : is.length = 1
    · obtain ⟨i, rfl⟩ := List.length_eq_one_iff.mp hone
      rw [List.map_singleton, combineShares_single] at h
      exact (Except.ok.inj h).symm
    -- a share other than the one past the tables, and a byte to combine
    obtain ⟨q, hq, hqp⟩ : ∃ q, q < is.length ∧ q ≠ p := by
      by_cases h0 : p = 0
      · exact ⟨1, by omega, by omega⟩
      · exact ⟨0, by omega, by omega⟩
    obtain ⟨i, is', his⟩ := List.exists_cons_of_length_pos (Nat.zero_lt_of_lt hp)
    have hfirst : pyIndex (is.map fun i : ℕ => ((i : ℤ) + 1, secret)) 0
        = .ok ((i : ℤ) + 1, secret) := pyIndex_natCast (i := 0) (by rw [his]; rfl)
    rw [combineShares, hfirst, ok_bind] at h
    cases hsecret : secret with
    | nil =>
      rw [hsecret] at h
      exact (Except.ok.inj h).symm
    | cons b rest =>
      obtain ⟨_, hbyte⟩ := mapM_eq_ok h 0 (by rw [hsecret]; simp)
      have hpoints : (is.map fun i : ℕ => ((i : ℤ) + 1, secret)).mapM
          (fun (s : ℤ × Bytes) => do return (s.1, ((← pyIndex s.2 (0 : ℕ)).toNat : ℤ)))
            = .ok (is.map fun i : ℕ => ((i : ℤ) + 1, (b.toNat : ℤ))) := by
        rw [List.mapM_map]
        refine mapM_ok fun i _ => ?_
        rw [Function.comp_apply, pyIndex_natCast (v := b) (by rw [hsecret]; rfl)]
        rfl
      rw [hpoints, ok_bind] at hbyte
      obtain ⟨_, hcombine, -⟩ := bind_eq_ok.mp hbyte
      rw [combinePoints] at hcombine
      set points := is.map fun i : ℕ => ((i : ℤ) + 1, (b.toNat : ℤ)) with hdef
      have hmem : ∀ (t : ℕ) (ht : t < is.length),
          (((is[t] : ℤ) + 1, (b.toNat : ℤ)), t) ∈ points.zipIdx := by
        intro t ht
        rw [List.mk_mem_zipIdx_iff_getElem?, hdef, List.getElem?_map, List.getElem?_eq_getElem ht]
        rfl
      obtain ⟨_, _, hterm⟩ := foldlM_eq_ok hcombine _ (hmem q hq)
      obtain ⟨_, hbasis, -⟩ := bind_eq_ok.mp hterm
      have hpos : ∀ point ∈ points, 1 ≤ point.1 := by
        intro point hpoint
        obtain ⟨i, -, rfl⟩ := List.mem_map.mp hpoint
        exact Int.le_add_of_nonneg_left (Int.natCast_nonneg i)
      have := lt_of_basisAtZero hpos hbasis _ (hmem p hp) hqp
      dsimp only at this
      omega

/-- The shares of any `k` different holders combine to the secret. -/
theorem combineShares_picks {secret : Bytes} {k n : ℕ} {urandom : ℕ → ℕ → UInt8}
    {shares : List (ℤ × Bytes)} (hsplit : splitSecret secret k n urandom = .ok shares)
    (hn : n ≤ 255) {picks : List ℕ} (hnodup : picks.Nodup) (hlt : ∀ i ∈ picks, i < n)
    (hlen : k ≤ picks.length) :
    combineShares (picks.map fun i => shares.getD i default) = .ok secret := by
  obtain ⟨hkn, rfl⟩ := splitSecret_eq_ok hn hsplit
  have hmap : picks.map (fun i => ((List.range n).map fun i =>
        (GF256.toInt (GF256.index i), shareAt secret k urandom (GF256.index i))).getD i default)
      = (picks.map GF256.index).map fun x => (GF256.toInt x, shareAt secret k urandom x) := by
    rw [List.map_map]
    refine List.map_congr_left fun i hi => ?_
    simp [hlt i hi]
  rw [hmap]
  refine combineShares_shareAt hkn.1 secret urandom ?_ (by rwa [List.length_map])
  refine hnodup.map_on fun i hi j hj h => ?_
  -- different holders have different indices
  have hij := congrArg GF256.toInt h
  rw [GF256.toInt_index (by have := hlt i hi; omega),
    GF256.toInt_index (by have := hlt j hj; omega)] at hij
  omega

/-- **Whatever the number of shares**, different ones that combine, combine to the secret. -/
theorem combineShares_dealt {secret v : Bytes} {k n : ℕ} {urandom : ℕ → ℕ → UInt8}
    {shares : List (ℤ × Bytes)} (hsplit : splitSecret secret k n urandom = .ok shares)
    {picks : List ℕ} (hnodup : picks.Nodup) (hlt : ∀ i ∈ picks, i < n)
    (hlen : k ≤ picks.length)
    (h : combineShares (picks.map fun i => shares.getD i default) = .ok v) : v = secret := by
  by_cases hn : n ≤ 255
  · rw [combineShares_picks hsplit hn hnodup hlt hlen] at h
    exact (Except.ok.inj h).symm
  · have hshares : picks.map (fun i => shares.getD i default)
        = picks.map fun i : ℕ => ((i : ℤ) + 1, secret) := by
      rw [splitSecret_past hsplit (not_le.mp hn)]
      exact List.map_congr_left fun i hi => by simp [hlt i hi]
    rw [hshares] at h
    exact combineShares_constant hnodup h
