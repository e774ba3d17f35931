/-
`combine_shares` when one of the shares has been changed.

Each share enters the result, byte by byte, with the factor that Lagrange's formula gives it
(`interpolateZero_eq_weigh`), and at indices other than zero no factor is zero.

* `combineShares_set`: the result changes exactly at the bytes at which the share has changed.
* `combineShares_corrupted`: so one wrong share among those that are needed never goes unnoticed.
-/
import Mathlib
import VStorage.ShamirIndices

open GF256 SecretSharing

/-! ### Interpolation, share by share -/

theorem interpolateZero_eq_weigh {ps : List (GF256 × GF256)} (hps : (ps.map Prod.fst).Nodup) :
    interpolateZero ps = weigh ps := by
  rw [← sum_fin_eq_weigh (fst_injective hps), interpolateZero]
  refine Finset.sum_congr rfl fun i _ => ?_
  simp only [GF256.neg_eq, GF256.sub_eq_add]

theorem toByte_injective : Function.Injective toByte := Function.LeftInverse.injective ofByte_toByte

theorem ofByte_injective : Function.Injective ofByte := Function.LeftInverse.injective toByte_ofByte

/-- Shares with indices in `1..255`, as field elements. -/
theorem exists_shares {shares : List (ℤ × Bytes)} (hindex : ∀ s ∈ shares, 1 ≤ s.1 ∧ s.1 ≤ 255) :
    ∃ ss : List (GF256 × Bytes), ss.map shareToInt = shares ∧ ∀ s ∈ ss, s.1 ≠ 0 := by
  induction shares with
  | nil => exact ⟨[], rfl, List.forall_mem_nil _⟩
  | cons s shares ih =>
    obtain ⟨hs, hrest⟩ := List.forall_mem_cons.mp hindex
    obtain ⟨ss, hss, hne⟩ := ih hrest
    obtain ⟨x, hx⟩ := exists_toInt (x := s.1) (by omega) (by omega)
    refine ⟨(x, s.2) :: ss, ?_, List.forall_mem_cons.mpr ⟨?_, hne⟩⟩
    · rw [List.map_cons, hss, shareToInt, ← hx]
    · rintro rfl
      rw [toInt_zero] at hx
      omega

/-- Different indices are different field elements. -/
theorem nodup_shares {ss : List (GF256 × Bytes)} :
    ((ss.map shareToInt).map Prod.fst).Nodup ↔ (ss.map Prod.fst).Nodup := by
  have hmap : (ss.map shareToInt).map Prod.fst = (ss.map Prod.fst).map toInt := by
    rw [List.map_map, List.map_map]
    rfl
  rw [hmap, List.nodup_map_iff toInt_injective]

/-! ### One share replaced -/

section Replaced

variable {shares : List (ℤ × Bytes)} {n p : ℕ} {x : ℤ} {y y' : Bytes}

/-- One byte of the result, when the share number `p` is replaced. -/
theorem interpolateZero_set {ss : List (GF256 × Bytes)} {a : GF256}
    (hnodup : (ss.map Prod.fst).Nodup) (hindex : ∀ s ∈ ss, s.1 ≠ 0) (hp : ss[p]? = some (a, y))
    (i : ℕ) : interpolateZero ((ss.set p (a, y')).map (pointAt i))
        = interpolateZero (ss.map (pointAt i)) ↔ y'.getD i 0 = y.getD i 0 := by
  have hfst : (ss.map (pointAt i)).map Prod.fst = ss.map Prod.fst := by
    rw [List.map_map]
    rfl
  have hnodup' : (((ss.set p (a, y')).map (pointAt i)).map Prod.fst).Nodup := by
    rw [List.map_map]
    exact (map_fst_set hp y').symm ▸ hnodup
  have hpoint : (ss.map (pointAt i))[p]? = some (a, ofByte (y.getD i 0)) := by
    rw [List.getElem?_map, hp]
    rfl
  have hzero : (0 : GF256) ∉ ((ss.map (pointAt i)).map Prod.fst).toFinset := by
    rw [hfst, List.mem_toFinset, List.mem_map]
    rintro ⟨s, hs, hs0⟩
    exact hindex s hs hs0
  rw [interpolateZero_eq_weigh hnodup', interpolateZero_eq_weigh (hfst.symm ▸ hnodup),
    List.map_set, pointAt, weigh_set hpoint, add_eq_left, mul_eq_zero,
    or_iff_left (weight_ne_zero hzero a), sub_eq_zero, ofByte_injective.eq_iff]

/-- **One share replaced** by another of its length: shares with different indices still combine,
and the result is the same just where the share is. -/
theorem combineShares_set (hnodup : (shares.map Prod.fst).Nodup)
    (hindex : ∀ s ∈ shares, 1 ≤ s.1 ∧ s.1 ≤ 255) (hlen : ∀ s ∈ shares, s.2.length = n)
    (hp : shares[p]? = some (x, y)) (hy : y'.length = n) :
    ∃ out out', combineShares shares = .ok out ∧
      combineShares (shares.set p (x, y')) = .ok out' ∧ out.length = n ∧ out'.length = n ∧
      ∀ i : ℕ, out'[i]? = out[i]? ↔ y'[i]? = y[i]? := by
  obtain ⟨ss, rfl, hss⟩ := exists_shares hindex
  have hnodup' := nodup_shares.mp hnodup
  rw [List.getElem?_map, Option.map_eq_some_iff] at hp
  obtain ⟨⟨a, y⟩, ha, hxy⟩ := hp
  obtain ⟨rfl, rfl⟩ := Prod.mk.inj hxy
  have hlen' : ∀ s ∈ ss, s.2.length = n := fun s hs => hlen _ (List.mem_map_of_mem hs)
  have hlen'' : ∀ s ∈ ss.set p (a, y'), s.2.length = n := by
    intro s hs
    rcases List.mem_or_eq_of_mem_set hs with hs | rfl
    · exact hlen' s hs
    · exact hy
  have hne : ss ≠ [] := by
    rintro rfl
    cases ha
  have hset : (ss.map shareToInt).set p (toInt a, y') = (ss.set p (a, y')).map shareToInt := by
    rw [List.map_set]
    rfl
  have hcombine := combineShares_toInt hne hnodup' hlen'
  have hcombine' := combineShares_toInt (fun h => hne (by simpa using h))
    (by rwa [map_fst_set ha]) hlen''
  rw [← hset] at hcombine'
  refine ⟨_, _, hcombine, hcombine', by simp, by simp, fun i => ?_⟩
  by_cases hi : i < n
  · have hyi : y[i]? = some (y.getD i 0) := by
      have hylen := hlen' _ (List.mem_of_getElem? ha)
      simp [show i < y.length from hylen ▸ hi]
    have hyi' : y'[i]? = some (y'.getD i 0) := by simp [hy, hi]
    rw [hyi, hyi', List.getElem?_map, List.getElem?_map, List.getElem?_range hi, Option.map_some,
      Option.map_some, Option.some_inj, Option.some_inj, toByte_injective.eq_iff,
      interpolateZero_set hnodup' hss ha]
  · have hnone : ∀ l : Bytes, l.length = n → l[i]? = none := fun l hl =>
      List.getElem?_eq_none (by omega)
    rw [hnone y' hy, hnone y (hlen' _ (List.mem_of_getElem? ha)), hnone _ (by simp),
      hnone _ (by simp)]

end Replaced

/-! ### Shares that were dealt -/

/-- A share that was dealt is found at its index. -/
theorem exists_getD_of_dealt {secret : Bytes} {k n : ℕ} {urandom : ℕ → ℕ → UInt8}
    {dealt : List (ℤ × Bytes)} (hsplit : splitSecret secret k n urandom = .ok dealt)
    {s : ℤ × Bytes} (hs : s ∈ dealt) :
    (s.1 - 1).toNat < n ∧ dealt.getD (s.1 - 1).toNat default = s := by
  rw [splitSecret, if_neg (not_not.mpr (threshold_of_splitSecret hsplit))] at hsplit
  obtain ⟨columns, -, hdealt⟩ := bind_eq_ok.mp hsplit
  obtain rfl := Except.ok.inj hdealt
  obtain ⟨i, hi, rfl⟩ := List.mem_map.mp hs
  have hi := List.mem_range.mp hi
  have hindex : ((i : ℤ) + 1 - 1).toNat = i := by omega
  refine ⟨by show ((i : ℤ) + 1 - 1).toNat < n; omega, ?_⟩
  dsimp only
  rw [hindex]
  simp [hi]

/-- Shares that were dealt and that can be combined, combine to the secret. -/
theorem combineShares_of_dealt {shares : List (ℤ × Bytes)} {secret out : Bytes} {k n : ℕ}
    {urandom : ℕ → ℕ → UInt8} {dealt : List (ℤ × Bytes)}
    (hsplit : splitSecret secret k n urandom = .ok dealt) (hdealt : ∀ s ∈ shares, s ∈ dealt)
    (hnodup : (shares.map Prod.fst).Nodup) (hpos : ∀ s ∈ shares, 1 ≤ s.1)
    (hlen : k ≤ shares.length) (h : combineShares shares = .ok out) : out = secret := by
  have hpicks : shares = (shares.map fun s => (s.1 - 1).toNat).map fun i => dealt.getD i default := by
    rw [List.map_map]
    refine (List.map_id shares).symm.trans (List.map_congr_left fun s hs => ?_)
    exact (exists_getD_of_dealt hsplit (hdealt s hs)).2.symm
  rw [hpicks] at h
  refine combineShares_dealt hsplit ?_ ?_ (by rwa [List.length_map]) h
  · -- different indices are different places
    have hindices := List.Nodup.of_map Prod.fst hnodup
    refine hindices.map_on fun s hs t ht hst => ?_
    have hs1 := hpos s hs
    have ht1 := hpos t ht
    exact List.inj_on_of_nodup_map hnodup hs ht (by omega)
  · intro i hi
    obtain ⟨s, hs, rfl⟩ := List.mem_map.mp hi
    exact (exists_getD_of_dealt hsplit (hdealt s hs)).1

/-- **A wrong share never goes unnoticed.**  Let shares have different indices in `1..255` and
one length.  When one byte of one share is replaced by a different value, the result changes at
that byte and at no other.  When they are `k` or more of the shares of a secret, and one of them
is replaced by anything else of its length, the secret does not come out. -/
theorem combineShares_corrupted {shares : List (ℤ × Bytes)} {n : ℕ}
    (hnodup : (shares.map Prod.fst).Nodup) (hindex : ∀ s ∈ shares, 1 ≤ s.1 ∧ s.1 ≤ 255)
    (hlen : ∀ s ∈ shares, s.2.length = n) :
    (∀ (p i : ℕ) (x : ℤ) (y : Bytes) (b v : UInt8), shares[p]? = some (x, y) → y[i]? = some b →
      v ≠ b → ∃ out out', combineShares shares = .ok out ∧
        combineShares (shares.set p (x, y.set i v)) = .ok out' ∧
        out.length = n ∧ out'.length = n ∧
        ∀ j : ℕ, out'[j]? = out[j]? ↔ j ≠ i) ∧
    ∀ (secret : Bytes) (k m : ℕ) (urandom : ℕ → ℕ → UInt8) (dealt : List (ℤ × Bytes)),
      splitSecret secret k m urandom = .ok dealt → (∀ s ∈ shares, s ∈ dealt) →
      k ≤ shares.length → ∀ (p : ℕ) (x : ℤ) (y y' : Bytes), shares[p]? = some (x, y) →
        y'.length = y.length → y' ≠ y → combineShares (shares.set p (x, y')) ≠ .ok secret := by
  constructor
  · intro p i x y b v hp hi hv
    have hy : y.length = n := hlen _ (List.mem_of_getElem? hp)
    have hset : (y.set i v).length = n := by rwa [List.length_set]
    obtain ⟨out, out', hout, hout', hn, hn', hsame⟩ :=
      combineShares_set hnodup hindex hlen hp hset
    refine ⟨out, out', hout, hout', hn, hn', fun j => (hsame j).trans ?_⟩
    rw [List.getElem?_set]
    by_cases hij : i = j
    · subst hij
      rw [if_pos rfl, if_pos (List.getElem?_eq_some_iff.mp hi).1, hi]
      simp [hv]
    · simp [hij, Ne.symm hij]
  · intro secret k m urandom dealt hsplit hdealt hk p x y y' hp hy' hwrong hsecret
    have hy : y.length = n := hlen _ (List.mem_of_getElem? hp)
    obtain ⟨out, out', hout, hout', -, -, hsame⟩ :=
      combineShares_set hnodup hindex hlen hp (hy'.trans hy)
    obtain rfl := Except.ok.inj (hout'.symm.trans hsecret)
    obtain rfl : out = _ := combineShares_of_dealt hsplit hdealt hnodup
      (fun s hs => (hindex s hs).1) hk hout
    exact hwrong (List.ext_getElem? fun i => (hsame i).mp rfl)

theorem combineShares_corrupted_two :
    (∃ out out', combineShares [(1, [42]), (2, [42])] = .ok out ∧
      combineShares [(1, [42]), (2, [7])] = .ok out' ∧ out.length = 1 ∧ out'.length = 1 ∧
      ∀ j : ℕ, out'[j]? = out[j]? ↔ j ≠ 0) ∧
    combineShares [(1, [42]), (2, [7])] ≠ .ok [42] := by
  have hsplit : splitSecret [42] 2 2 (fun _ _ => 0) = .ok [(1, [42]), (2, [42])] := by rfl
  have hnodup : (([(1, [42]), (2, [42])] : List (ℤ × Bytes)).map Prod.fst).Nodup := by decide
  have h := combineShares_corrupted (n := 1) hnodup (by decide) (by decide)
  exact ⟨h.1 1 0 2 [42] 42 7 rfl rfl (by decide),
    h.2 [42] 2 2 (fun _ _ => 0) _ hsplit (fun s hs => hs) (by decide) 1 2 [42] [7] rfl rfl
      (by decide)⟩
