/-
`combine_shares` on shares that nobody has checked.

`fetch` hands over what the holders have sent: an index may be any value that JSON has, and
the shares may be of any lengths.  An index is used as a factor and under exclusive or, and
both only take whole numbers; it is looked up in a table of 256 entries, which Python also
indexes from its end.

* `returnsIff_combinePoints`: when the points at one position combine, for whole numbers.
* `returnsIff_combineAny`: when shares combine, for any indices.
-/
import Mathlib
import VStorage.NetworkTrustGroup
import VStorage.Returns
import VStorage.ShamirIndices

open GF256

/-! ### Look-ups in the tables -/

/-- The tables have an entry at `n`, counted from the end where `n` is negative. -/
def InTable (n : ℤ) : Prop := -256 ≤ n ∧ n ≤ 255

instance (n : ℤ) : Decidable (InTable n) := inferInstanceAs (Decidable (_ ∧ _))

/-- A whole number that a byte can be. -/
def IsByte (n : ℤ) : Prop := 0 ≤ n ∧ n ≤ 255

theorem IsByte.inTable {n : ℤ} (h : IsByte n) : InTable n := by
  simp only [IsByte, InTable] at h ⊢
  omega

theorem isByte_toInt (a : GF256) : IsByte (toInt a) := by
  have hlt := a.val_lt
  simp only [IsByte, toInt]
  omega

theorem exists_of_isByte {n : ℤ} (h : IsByte n) : ∃ a : GF256, n = toInt a :=
  exists_toInt h.1 (by have := h.2; omega)

theorem log_recorded {n : ℕ} (hn : n ≤ 255) : ∀ v ∈ ((List.range n).foldl Tables.record
    (⟨List.replicate 512 0, List.replicate 256 0⟩, 1)).1.log, 0 ≤ v ∧ v ≤ 254 := by
  induction n with
  | zero =>
    intro v hv
    rw [List.eq_of_mem_replicate hv]
    decide
  | succ n ih =>
    rw [List.range_succ, List.foldl_append]
    intro v hv
    rcases List.mem_or_eq_of_mem_set hv with hv | rfl
    · exact ih (by omega) v hv
    · omega

theorem log_extended (is : List ℕ) (t : Tables) : (is.foldl Tables.extend t).log = t.log := by
  induction is generalizing t with
  | nil => rfl
  | cons i is ih => exact ih (t.extend i)

/-- Every entry of `_LOG`, the unused one at zero among them, is an exponent. -/
theorem log_entries : ∀ v ∈ initTables.log, 0 ≤ v ∧ v ≤ 254 := by
  have h := log_recorded (n := 255) le_rfl
  rwa [← log_extended (List.range' 255 257)] at h

/-- An index is looked up, from the end of the list if it is negative, or it raises. -/
theorem returnsIff_pyIndex {α : Type*} (xs : List α) (i : ℤ) :
    ReturnsIff (pyIndex xs i) (-(xs.length : ℤ) ≤ i ∧ i < xs.length) (· ∈ xs) := by
  unfold pyIndex
  dsimp only
  generalize hj : (if i < 0 then i + xs.length else i) = j
  have hbounds : -(xs.length : ℤ) ≤ i ∧ i < xs.length ↔ 0 ≤ j ∧ j.toNat < xs.length := by
    split at hj <;> omega
  rw [hbounds]
  by_cases hneg : j < 0
  · rw [if_pos hneg]
    exact .of_error (by omega) rfl
  · rw [if_neg hneg]
    by_cases hlt : j.toNat < xs.length
    · rw [List.getElem?_eq_getElem hlt]
      exact .of_ok ⟨by omega, hlt⟩ (List.getElem_mem hlt) rfl
    · rw [List.getElem?_eq_none (by omega)]
      exact .of_error (by omega) rfl

theorem returnsIff_log (n : ℤ) :
    ReturnsIff (pyIndex initTables.log n) (InTable n) fun l => 0 ≤ l ∧ l ≤ 254 := by
  refine ((returnsIff_pyIndex _ n).mono log_entries).iff ?_
  rw [initTables_extended.log_length, InTable]
  omega

theorem returnsIff_exp {l l' : ℤ} (hl : 0 ≤ l ∧ l ≤ 254) (hl' : 0 ≤ l' ∧ l' ≤ 254) :
    ReturnsIff (pyIndex initTables.exp (l + l')) True fun v => IsByte v ∧ v ≠ 0 := by
  obtain ⟨n, hn⟩ := Int.eq_ofNat_of_zero_le (a := l + l') (by omega)
  rw [hn]
  exact .of_ok trivial ⟨isByte_toInt _, toInt_eq_zero.not.mpr (logAction.exp_ne_zero n)⟩
    (pyIndex_exp (by omega))

/-- **Factors.**  A product with a byte is a byte; a factor that is not zero is looked up, if the
byte is not zero either. -/
theorem returnsIff_gfMul {a : ℤ} (ha : IsByte a) (b : ℤ) :
    ReturnsIff (gfMul a b) (a = 0 ∨ b = 0 ∨ InTable b)
      fun c => IsByte c ∧ (c = 0 ↔ a = 0 ∨ b = 0) := by
  rw [gfMul, ← or_assoc]
  by_cases hzero : a = 0 ∨ b = 0
  · rw [if_pos hzero]
    exact .of_ok (Or.inl hzero) ⟨isByte_toInt 0, iff_of_true rfl hzero⟩ rfl
  · rw [if_neg hzero]
    refine ((returnsIff_log a).bind fun la hla => (returnsIff_log b).bind fun lb hlb =>
      (returnsIff_exp hla hlb).mono fun v hv => ?_).iff ?_
    · exact ⟨hv.1, iff_of_false hv.2 hzero⟩
    · rw [or_iff_right hzero, and_true, and_iff_right ha.inTable]

theorem returnsIff_gfMul_byte {a b : ℤ} (ha : IsByte a) (hb : IsByte b) :
    ReturnsIff (gfMul a b) True IsByte :=
  ((returnsIff_gfMul ha b).iff (iff_true_intro (Or.inr (Or.inr hb.inTable)))).mono
    fun _ hc => hc.1

theorem returnsIff_gfDiv {a b : ℤ} (ha : IsByte a) (hb : IsByte b) :
    ReturnsIff (gfDiv a b) (a = 0 ∨ b ≠ 0) IsByte := by
  obtain ⟨x, rfl⟩ := exists_of_isByte ha
  obtain ⟨y, rfl⟩ := exists_of_isByte hb
  by_cases hx : toInt x = 0
  · exact .of_ok (Or.inl hx) (isByte_toInt 0) (if_pos hx)
  by_cases hy : toInt y = 0
  · have hzero : gfDiv (toInt x) (toInt y) = .error .zeroDivisionError := by
      rw [gfDiv, if_neg hx, if_pos hy]
    exact .of_error (not_or.mpr ⟨hx, not_not.mpr hy⟩) hzero
  · exact .of_ok (Or.inr hy) (isByte_toInt _) (gfDiv_toInt x (toInt_eq_zero.not.mp hy))

/-! ### Exclusive or of whole numbers -/

theorem inTable_ofNat {m : ℕ} : InTable (m : ℤ) ↔ m < 256 := by
  rw [InTable]
  omega

theorem inTable_negSucc {m : ℕ} : InTable (Int.negSucc m) ↔ m < 256 := by
  rw [InTable]
  omega

/-- The numbers with an entry are those of nine bits in two's complement. -/
theorem inTable_xor {a b : ℤ} (ha : InTable a) (hb : InTable b) : InTable (Int.xor a b) := by
  cases a with
  | ofNat m =>
    cases b with
    | ofNat n => exact inTable_ofNat.mpr (xor_lt (inTable_ofNat.mp ha) (inTable_ofNat.mp hb))
    | negSucc n => exact inTable_negSucc.mpr (xor_lt (inTable_ofNat.mp ha) (inTable_negSucc.mp hb))
  | negSucc m =>
    cases b with
    | ofNat n => exact inTable_negSucc.mpr (xor_lt (inTable_negSucc.mp ha) (inTable_ofNat.mp hb))
    | negSucc n => exact inTable_ofNat.mpr (xor_lt (inTable_negSucc.mp ha) (inTable_negSucc.mp hb))

theorem xor_xor_cancel (a b : ℤ) : Int.xor (Int.xor a b) b = a := by
  have hnat : ∀ m n : ℕ, Nat.xor (Nat.xor m n) n = m := Nat.xor_xor_cancel_right
  cases a with
  | ofNat m =>
    cases b with
    | ofNat n => exact congrArg Int.ofNat (hnat m n)
    | negSucc n => exact congrArg Int.ofNat (hnat m n)
  | negSucc m =>
    cases b with
    | ofNat n => exact congrArg Int.negSucc (hnat m n)
    | negSucc n => exact congrArg Int.negSucc (hnat m n)

theorem xor_eq_zero {a b : ℤ} : Int.xor a b = 0 ↔ a = b := by
  constructor
  · intro h
    have hcancel := xor_xor_cancel a b
    rw [h, int_zero_xor] at hcancel
    exact hcancel.symm
  · rintro rfl
    cases a with
    | ofNat m => exact congrArg Int.ofNat (Nat.xor_self m)
    | negSucc m => exact congrArg Int.ofNat (Nat.xor_self m)

theorem isByte_xor {a b : ℤ} (ha : IsByte a) (hb : IsByte b) : IsByte (Int.xor a b) := by
  obtain ⟨x, rfl⟩ := exists_of_isByte ha
  obtain ⟨y, rfl⟩ := exists_of_isByte hb
  rw [xor_toInt]
  exact isByte_toInt _

/-! ### Interpolation at whole numbers -/

/-- With entries for all factors the two products are bytes, and each is zero when it has a
factor that is. -/
theorem basisAtZero_inTable {xi : ℤ} (hxi : InTable xi) {i : ℕ} {l : List ((ℤ × ℤ) × ℕ)}
    (hl : ∀ q ∈ l, InTable q.1.1) {num den : ℤ} (hnum : IsByte num) (hden : IsByte den) :
    ∃ num' den', IsByte num' ∧ IsByte den' ∧
      l.foldlM (fun ((num, den) : ℤ × ℤ) (((xj, _), j) : (ℤ × ℤ) × ℕ) =>
        if i = j then Except.ok (num, den)
        else do return (← gfMul num xj, ← gfMul den (Int.xor xi xj))) (num, den)
          = .ok (num', den') ∧
      (num' = 0 ↔ num = 0 ∨ ∃ q ∈ l, i ≠ q.2 ∧ q.1.1 = 0) ∧
      (den' = 0 ↔ den = 0 ∨ ∃ q ∈ l, i ≠ q.2 ∧ q.1.1 = xi) := by
  induction l generalizing num den with
  | nil => exact ⟨num, den, hnum, hden, rfl, by simp, by simp⟩
  | cons q l ih =>
    obtain ⟨⟨xj, yj⟩, j⟩ := q
    obtain ⟨hxj, hrest⟩ := List.forall_mem_cons.mp hl
    by_cases hij : i = j
    · obtain ⟨num', den', hnum', hden', h, hzero, hzero'⟩ := ih hrest hnum hden
      refine ⟨num', den', hnum', hden', ?_, ?_, ?_⟩
      · rw [List.foldlM_cons]
        dsimp only
        rw [if_pos hij]
        exact h
      · rw [hzero]
        simp [hij]
      · rw [hzero']
        simp [hij]
    · obtain ⟨c, ⟨hc, hc0⟩, hmul⟩ := (returnsIff_gfMul hnum xj).returns (Or.inr (Or.inr hxj))
      obtain ⟨d, ⟨hd, hd0⟩, hmul'⟩ :=
        (returnsIff_gfMul hden (Int.xor xi xj)).returns (Or.inr (Or.inr (inTable_xor hxi hxj)))
      obtain ⟨num', den', hnum', hden', h, hzero, hzero'⟩ := ih hrest hc hd
      refine ⟨num', den', hnum', hden', ?_, ?_, ?_⟩
      · rw [List.foldlM_cons]
        dsimp only
        rw [if_neg hij, hmul, hmul']
        exact h
      · rw [hzero, hc0]
        simp [hij, or_assoc]
      · rw [hzero', hd0, xor_eq_zero]
        simp [hij, or_assoc, eq_comm]

/-- The denominators can be divided by, or there is an index zero among the others. -/
def Divides (xs : List ℤ) : Prop := 0 ∈ xs ∨ xs.Nodup

instance (xs : List ℤ) : Decidable (Divides xs) := inferInstanceAs (Decidable (_ ∨ _))

/-- `x` is an index other than the `i`-th. -/
def AmongOthers (xs : List ℤ) (i : ℕ) (x : ℤ) : Prop := ∃ j, i ≠ j ∧ xs[j]? = some x

theorem divides_iff (xs : List ℤ) :
    (∀ (i : ℕ) x, xs[i]? = some x → AmongOthers xs i 0 ∨ ¬ AmongOthers xs i x) ↔ Divides xs := by
  constructor
  · intro h
    by_cases hzero : 0 ∈ xs
    · exact Or.inl hzero
    · refine Or.inr (List.nodup_iff_getElem?_ne_getElem?.mpr fun i j hij hj heq => ?_)
      have hxj : xs[j]? = some xs[j] := List.getElem?_eq_getElem hj
      rcases h i _ (heq.trans hxj) with ⟨m, -, hm⟩ | hnone
      · exact hzero (List.mem_of_getElem? hm)
      · exact hnone ⟨j, Nat.ne_of_lt hij, hxj⟩
  · rintro (hzero | hnodup) i x hx
    · obtain ⟨z, hz⟩ := List.mem_iff_getElem?.mp hzero
      by_cases hiz : i = z
      · -- the others have a zero, or they do not have this one
        obtain rfl : x = 0 := by
          rw [hiz] at hx
          exact Option.some.inj (hx.symm.trans hz)
        exact em _
      · exact Or.inl ⟨z, hiz, hz⟩
    · refine Or.inr ?_
      rintro ⟨j, hij, hj⟩
      have hi : i < xs.length := (List.getElem?_eq_some_iff.mp hx).1
      exact hij ((List.getElem?_inj hi hnodup).mp (hx.trans hj.symm))

theorem basisAtZero_eq {points : List (ℤ × ℤ)} (hx : ∀ p ∈ points, InTable p.1) {xi : ℤ}
    (hxi : InTable xi) (i : ℕ) :
    ∃ num den, IsByte num ∧ IsByte den ∧ basisAtZero points xi i = .ok (num, den) ∧
      (num = 0 ↔ AmongOthers (points.map Prod.fst) i 0) ∧
      (den = 0 ↔ AmongOthers (points.map Prod.fst) i xi) := by
  have hentries : ∀ q ∈ points.zipIdx, InTable q.1.1 := fun q hq =>
    hx _ (List.fst_mem_of_mem_zipIdx hq)
  have hexists : ∀ x, (∃ q ∈ points.zipIdx, i ≠ q.2 ∧ q.1.1 = x) ↔
      AmongOthers (points.map Prod.fst) i x := by
    intro x
    simp only [AmongOthers, List.getElem?_map, Option.map_eq_some_iff]
    constructor
    · rintro ⟨q, hq, hne, hqx⟩
      exact ⟨q.2, hne, q.1, List.mem_zipIdx_iff_getElem?.mp hq, hqx⟩
    · rintro ⟨j, hne, p, hp, hpx⟩
      exact ⟨(p, j), List.mem_zipIdx_iff_getElem?.mpr hp, hne, hpx⟩
  obtain ⟨num, den, hnum, hden, h, hzero, hzero'⟩ :=
    basisAtZero_inTable hxi hentries (isByte_toInt 1) (isByte_toInt 1) (i := i)
  refine ⟨num, den, hnum, hden, h, ?_, ?_⟩
  · rw [hzero, hexists, or_iff_right (by decide)]
  · rw [hzero', hexists, or_iff_right (by decide)]

/-- The factors of the first turn of an inner loop. -/
theorem inTable_of_basisAtZero {p : ℤ × ℤ} {points : List (ℤ × ℤ)} {xi : ℤ} {i : ℕ} (hi : i ≠ 0)
    {r : ℤ × ℤ} (h : basisAtZero (p :: points) xi i = .ok r) : InTable p.1 ∧ InTable xi := by
  have hzero : InTable 0 := by decide
  have hof : ∀ {b c : ℤ}, gfMul 1 b = .ok c → InTable b := by
    intro b c hmul
    rcases (returnsIff_gfMul (isByte_toInt 1) b).only c hmul with hone | rfl | hb
    · cases hone
    · exact hzero
    · exact hb
  rw [basisAtZero, List.zipIdx_cons, List.foldlM_cons] at h
  obtain ⟨r', hturn, -⟩ := bind_eq_ok.mp h
  dsimp only at hturn
  rw [if_neg hi] at hturn
  obtain ⟨num, hnum, hturn⟩ := bind_eq_ok.mp hturn
  obtain ⟨den, hden, -⟩ := bind_eq_ok.mp hturn
  have hp := hof hnum
  have hxi := inTable_xor (hof hden) hp
  rw [xor_xor_cancel] at hxi
  exact ⟨hp, hxi⟩

/-- **One byte position.**  At two points or more, all indices are looked up. -/
theorem returnsIff_combinePoints {points : List (ℤ × ℤ)} (hlen : 2 ≤ points.length)
    (hy : ∀ p ∈ points, IsByte p.2) :
    ReturnsIff (combinePoints points)
      ((∀ p ∈ points, InTable p.1) ∧ Divides (points.map Prod.fst)) IsByte := by
  rw [combinePoints]
  by_cases hx : ∀ p ∈ points, InTable p.1
  · have hturn : ∀ s, IsByte s → ∀ q ∈ points.zipIdx,
        ReturnsIff (do
          let (num, den) ← basisAtZero points q.1.1 q.2
          let term ← gfMul q.1.2 (← gfDiv num den)
          return Int.xor s term)
          (AmongOthers (points.map Prod.fst) q.2 0 ∨
            ¬ AmongOthers (points.map Prod.fst) q.2 q.1.1) IsByte := by
      intro s hs q hq
      have hmem := List.fst_mem_of_mem_zipIdx hq
      obtain ⟨num, den, hnum, hden, h, hzero, hzero'⟩ := basisAtZero_eq hx (hx _ hmem) q.2
      rw [h, ok_bind]
      refine ((returnsIff_gfDiv hnum hden).bind fun c hc =>
        (returnsIff_gfMul_byte (hy _ hmem) hc).bind fun d hd => .pure (isByte_xor hs hd)).iff ?_
      rw [and_true, and_true, hzero, Ne, hzero']
    refine (ReturnsIff.foldlM hturn (isByte_toInt 0)).iff ?_
    rw [and_iff_right hx, ← divides_iff]
    simp only [List.getElem?_map, Option.map_eq_some_iff]
    constructor
    · rintro h i x ⟨p, hp, rfl⟩
      exact h (p, i) (List.mem_zipIdx_iff_getElem?.mpr hp)
    · intro h q hq
      exact h q.2 q.1.1 ⟨q.1, List.mem_zipIdx_iff_getElem?.mp hq, rfl⟩
  · refine ⟨fun h => absurd h.1 hx, fun v hv => absurd ?_ hx⟩
    obtain _ | ⟨p, _ | ⟨p', rest⟩⟩ := points
    · exact absurd hlen (by decide)
    · exact absurd hlen (by simp)
    -- every turn but the first begins with the first point
    have hturns : ∀ q ∈ (p :: p' :: rest).zipIdx, q.2 ≠ 0 → InTable p.1 ∧ InTable q.1.1 := by
      intro q hq hne
      obtain ⟨s, t, hturn⟩ := foldlM_eq_ok hv q hq
      obtain ⟨r, hr, -⟩ := bind_eq_ok.mp hturn
      exact inTable_of_basisAtZero hne hr
    have hfirst : InTable p.1 := (hturns (p', 1) (by simp) one_ne_zero).1
    refine List.forall_mem_cons.mpr ⟨hfirst, fun r hr => ?_⟩
    obtain ⟨j, hj⟩ := List.mem_iff_getElem?.mp hr
    exact (hturns (r, j + 1) (List.mem_zipIdx_iff_getElem?.mpr hj) (Nat.succ_ne_zero j)).2

/-! ### Byte by byte -/

/-- `combine_shares`, but for its inner loops. -/
def combineWith {X : Type} (combinePoints : List (X × ℤ) → Except PyError ℤ)
    (shares : List (X × Bytes)) : Except PyError Bytes := do
  let first ← pyIndex shares 0
  (List.range first.2.length).mapM fun byteIdx => do
    let points ← shares.mapM fun (x, y) => do
      return (x, ((← pyIndex y byteIdx).toNat : ℤ))
    byteOfInt (← combinePoints points)

theorem combineShares_eq (shares : List (ℤ × Bytes)) :
    combineShares shares = combineWith combinePoints shares := rfl

section Bytewise

variable {X : Type}

/-- The points at one byte position. -/
theorem returnsIff_points (shares : List (X × Bytes)) (byteIdx : ℕ) :
    ReturnsIff (shares.mapM fun (s : X × Bytes) => do
        return (s.1, ((← pyIndex s.2 byteIdx).toNat : ℤ)))
      (∀ s ∈ shares, byteIdx < s.2.length)
      fun points => points.map Prod.fst = shares.map Prod.fst ∧ ∀ p ∈ points, IsByte p.2 := by
  induction shares with
  | nil => exact .of_ok (List.forall_mem_nil _) ⟨rfl, List.forall_mem_nil _⟩ rfl
  | cons s shares ih =>
    rw [List.mapM_cons]
    have hpoint : ReturnsIff (do
        return (s.1, ((← pyIndex s.2 byteIdx).toNat : ℤ)))
        (byteIdx < s.2.length) fun p : X × ℤ => p.1 = s.1 ∧ IsByte p.2 := by
      refine ((returnsIff_pyIndex s.2 byteIdx).bind fun b _ =>
        .pure ⟨rfl, isByte_toInt (ofByte b)⟩).iff ?_
      rw [and_true]
      omega
    refine (hpoint.bind fun p hp => ih.bind fun points hpoints => .pure ⟨?_, ?_⟩).iff ?_
    · rw [List.forall_mem_cons, and_true]
    · rw [List.map_cons, List.map_cons, hp.1, hpoints.1]
    · exact List.forall_mem_cons.mpr ⟨hp.2, hpoints.2⟩

theorem returnsIff_byteOfInt {v : ℤ} (hv : IsByte v) :
    ReturnsIff (byteOfInt v) True fun _ => True := by
  obtain ⟨a, rfl⟩ := exists_of_isByte hv
  exact .of_ok trivial trivial (byteOfInt_toInt a)

/-- Shares combine when there is nothing to combine, or no share is shorter than the first and
the points at each position combine. -/
theorem returnsIff_combineWith {combinePoints : List (X × ℤ) → Except PyError ℤ}
    {s : X × Bytes} {shares : List (X × Bytes)} {Good : Prop}
    (hpoints : ∀ points : List (X × ℤ), points.map Prod.fst = (s :: shares).map Prod.fst →
      (∀ p ∈ points, IsByte p.2) → ReturnsIff (combinePoints points) Good IsByte) :
    ReturnsIff (combineWith combinePoints (s :: shares))
      (s.2 = [] ∨ (∀ t ∈ s :: shares, s.2.length ≤ t.2.length) ∧ Good) fun _ => True := by
  set all := s :: shares with hall
  have hfirst : pyIndex all 0 = .ok s := pyIndex_natCast (i := 0) rfl
  rw [combineWith, hfirst, ok_bind]
  have hbyte : ∀ i ∈ List.range s.2.length, ReturnsIff (do
      let points ← all.mapM fun (t : X × Bytes) => do
        return (t.1, ((← pyIndex t.2 i).toNat : ℤ))
      byteOfInt (← combinePoints points)) ((∀ t ∈ all, i < t.2.length) ∧ Good)
      fun _ => True := by
    intro i _
    refine (returnsIff_points all i).bind fun points h => ?_
    refine ((hpoints points h.1 h.2).bind fun v hv => returnsIff_byteOfInt hv).iff ?_
    rw [and_true]
  refine ((ReturnsIff.mapM hbyte).mono fun _ _ => trivial).iff ?_
  simp only [List.mem_range]
  constructor
  · intro h
    by_cases hempty : s.2 = []
    · exact Or.inl hempty
    · refine Or.inr ⟨fun t ht => ?_, (h 0 (List.length_pos_iff.mpr hempty)).2⟩
      by_contra hshort
      exact absurd ((h t.2.length (not_le.mp hshort)).1 t ht) (lt_irrefl _)
  · rintro (hempty | ⟨hlong, hgood⟩) i hi
    · rw [hempty] at hi
      exact absurd hi (Nat.not_lt_zero i)
    · exact ⟨fun t ht => lt_of_lt_of_le hi (hlong t ht), hgood⟩

end Bytewise

/-! ### Any index -/

/-- The whole number that a value is; `True` and `False` are 1 and 0. -/
def wholeNumber : Json → Option ℤ
  | .int n => some n
  | .bool b => some (if b then 1 else 0)
  | _ => none

/-- `v == 0`. -/
def isZero : Json → Bool
  | .int n => n = 0
  | .bool b => !b
  | .float text => Json.floatIsZero text
  | _ => false

/-- `_LOG[v]`. -/
def logAny (v : Json) : Except PyError ℤ :=
  match wholeNumber v with
  | some n => pyIndex initTables.log n
  | none => .error .typeError

/-- `_gf_mul`, with a second factor from a holder. -/
def gfMulAny (a : ℤ) (b : Json) : Except PyError ℤ :=
  if a = 0 ∨ isZero b = true then .ok 0
  else do
    let la ← pyIndex initTables.log a
    let lb ← logAny b
    pyIndex initTables.exp (la + lb)

/-- `a ^ b`. -/
def xorAny (a b : Json) : Except PyError ℤ :=
  match wholeNumber a, wholeNumber b with
  | some m, some n => .ok (Int.xor m n)
  | _, _ => .error .typeError

/-- The inner loop of `combine_shares`. -/
def basisAtZeroAny (points : List (Json × ℤ)) (xi : Json) (i : ℕ) : Except PyError (ℤ × ℤ) :=
  points.zipIdx.foldlM (fun (num, den) ((xj, _), j) =>
    if i = j then return (num, den)
    else do return (← gfMulAny num xj, ← gfMul den (← xorAny xi xj))) (1, 1)

/-- The outer loop of `combine_shares`, for one byte position. -/
def combinePointsAny (points : List (Json × ℤ)) : Except PyError ℤ :=
  points.zipIdx.foldlM (fun secretByte ((xi, yi), i) => do
    let (num, den) ← basisAtZeroAny points xi i
    let term ← gfMul yi (← gfDiv num den)
    return Int.xor secretByte term) 0

/-- `combine_shares`. -/
def combineAny (shares : List (Json × Bytes)) : Except PyError Bytes :=
  combineWith combinePointsAny shares

/-- Numbers take the place of values that are numbers. -/
def value (v : Json) : ℤ := (wholeNumber v).getD 0

theorem value_eq {v : Json} {n : ℤ} (h : wholeNumber v = some n) : value v = n := by
  rw [value, h]
  rfl

theorem isZero_iff {v : Json} {n : ℤ} (h : wholeNumber v = some n) : isZero v = true ↔ n = 0 := by
  cases v with
  | int m =>
    obtain rfl := Option.some.inj h
    exact decide_eq_true_iff
  | bool b =>
    obtain rfl := Option.some.inj h
    cases b <;> decide
  | _ => cases h

theorem gfMulAny_eq {b : Json} {n : ℤ} (h : wholeNumber b = some n) (a : ℤ) :
    gfMulAny a b = gfMul a n := by
  have hlog : logAny b = pyIndex initTables.log n := by rw [logAny, h]
  rw [gfMulAny, gfMul, hlog]
  simp only [isZero_iff h]

theorem xorAny_eq {a b : Json} {m n : ℤ} (ha : wholeNumber a = some m)
    (hb : wholeNumber b = some n) : xorAny a b = .ok (Int.xor m n) := by
  rw [xorAny, ha, hb]

/-- Exclusive or takes whole numbers only. -/
theorem whole_of_xorAny {a b : Json} {c : ℤ} (h : xorAny a b = .ok c) :
    (∃ m, wholeNumber a = some m) ∧ ∃ n, wholeNumber b = some n := by
  rw [xorAny] at h
  split at h
  · rename_i m n ha hb
    exact ⟨⟨m, ha⟩, n, hb⟩
  · cases h

section Points

variable {points : List (Json × ℤ)}

theorem basisAtZeroAny_eq (hwhole : ∀ p ∈ points, ∃ n, wholeNumber p.1 = some n) {xi : Json}
    {n : ℤ} (hxi : wholeNumber xi = some n) (i : ℕ) :
    basisAtZeroAny points xi i = basisAtZero (points.map (Prod.map value id)) n i := by
  rw [basisAtZeroAny, basisAtZero, List.zipIdx_map, List.foldlM_map]
  refine foldlM_congr (fun q hq s => ?_) _
  obtain ⟨m, hm⟩ := hwhole _ (List.fst_mem_of_mem_zipIdx hq)
  simp only [Prod.map, id_eq, gfMulAny_eq hm, xorAny_eq hxi hm, ok_bind, value_eq hm]

theorem combinePointsAny_eq (hwhole : ∀ p ∈ points, ∃ n, wholeNumber p.1 = some n) :
    combinePointsAny points = combinePoints (points.map (Prod.map value id)) := by
  rw [combinePointsAny, combinePoints, List.zipIdx_map, List.foldlM_map]
  refine foldlM_congr (fun q hq s => ?_) _
  obtain ⟨n, hn⟩ := hwhole _ (List.fst_mem_of_mem_zipIdx hq)
  simp only [Prod.map, id_eq, basisAtZeroAny_eq hwhole hn, value_eq hn]

/-- The first inner loop takes every index under exclusive or with the first. -/
theorem whole_of_combinePointsAny (hlen : 2 ≤ points.length) {v : ℤ}
    (h : combinePointsAny points = .ok v) : ∀ p ∈ points, ∃ n, wholeNumber p.1 = some n := by
  obtain _ | ⟨p, _ | ⟨p', rest⟩⟩ := points
  · exact absurd hlen (by decide)
  · exact absurd hlen (by simp)
  obtain ⟨s, t, hturn⟩ := foldlM_eq_ok h (p, 0) List.mem_cons_self
  obtain ⟨r, hbasis, -⟩ := bind_eq_ok.mp hturn
  have hxor : ∀ q ∈ (p :: p' :: rest).zipIdx, q.2 ≠ 0 →
      (∃ m, wholeNumber p.1 = some m) ∧ ∃ n, wholeNumber q.1.1 = some n := by
    intro q hq hne
    obtain ⟨s, t, hinner⟩ := foldlM_eq_ok hbasis q hq
    dsimp only at hinner
    rw [if_neg hne.symm] at hinner
    obtain ⟨num, -, hinner⟩ := bind_eq_ok.mp hinner
    obtain ⟨c, hc, -⟩ := bind_eq_ok.mp hinner
    exact whole_of_xorAny hc
  refine List.forall_mem_cons.mpr ⟨(hxor (p', 1) (by simp) one_ne_zero).1, fun q hq => ?_⟩
  obtain ⟨j, hj⟩ := List.mem_iff_getElem?.mp hq
  exact (hxor (q, j + 1) (List.mem_zipIdx_iff_getElem?.mpr hj) (Nat.succ_ne_zero j)).2

end Points

/-- The indices of two shares or more are whole numbers in the tables, and they divide. -/
def Usable (xs : List Json) : Prop :=
  (∀ x ∈ xs, ∃ n, wholeNumber x = some n ∧ InTable n) ∧ Divides (xs.map value)

theorem returnsIff_combinePointsAny {points : List (Json × ℤ)} (hlen : 2 ≤ points.length)
    (hy : ∀ p ∈ points, IsByte p.2) :
    ReturnsIff (combinePointsAny points) (Usable (points.map Prod.fst)) IsByte := by
  by_cases hwhole : ∀ p ∈ points, ∃ n, wholeNumber p.1 = some n
  · rw [combinePointsAny_eq hwhole]
    have hbytes : ∀ p ∈ points.map (Prod.map value id), IsByte p.2 := by
      rw [List.forall_mem_map]
      exact hy
    refine (returnsIff_combinePoints (by rwa [List.length_map]) hbytes).iff ?_
    rw [Usable, List.forall_mem_map, List.forall_mem_map, List.map_map, List.map_map]
    refine and_congr (forall₂_congr fun p hp => ?_) Iff.rfl
    obtain ⟨n, hn⟩ := hwhole p hp
    simp [hn, value_eq hn]
  · refine ⟨fun husable => absurd (fun p hp => ?_) hwhole,
      fun v hv => absurd (whole_of_combinePointsAny hlen hv) hwhole⟩
    obtain ⟨n, hn, -⟩ := husable.1 _ (List.mem_map_of_mem hp)
    exact ⟨n, hn⟩

/-- A point that is combined with no other: its index is not used. -/
theorem returnsIff_combinePointsAny_single (x : Json) {y : ℤ} (hy : IsByte y) :
    ReturnsIff (combinePointsAny [(x, y)]) True IsByte := by
  have hbasis : basisAtZeroAny [(x, y)] x 0 = .ok (1, 1) := rfl
  have hone : IsByte 1 := isByte_toInt 1
  rw [combinePointsAny, List.zipIdx_singleton, List.foldlM_cons]
  dsimp only
  rw [hbasis, ok_bind]
  refine ((((returnsIff_gfDiv hone hone).bind fun c hc => (returnsIff_gfMul_byte hy hc).bind
    fun d hd => .pure (isByte_xor (isByte_toInt 0) hd)).bind fun s hs => .pure hs)).iff ?_
  simp

/-- Shares as they come from the holders can be combined. -/
def Combinable : List (Json × Bytes) → Prop
  | [] => False
  | [_] => True
  | s :: shares => s.2 = [] ∨ (∀ t ∈ s :: shares, s.2.length ≤ t.2.length) ∧
      Usable ((s :: shares).map Prod.fst)

/-- **Any shares.**  `combine_shares` returns exactly for a single share, or an empty first one,
or where no share is shorter than the first and all indices can be used; else it raises. -/
theorem returnsIff_combineAny (shares : List (Json × Bytes)) :
    ReturnsIff (combineAny shares) (Combinable shares) fun _ => True := by
  match shares with
  | [] => exact .of_error not_false (e := .indexError) rfl
  | [s] =>
    have hpoints : ∀ points : List (Json × ℤ), points.map Prod.fst = [s].map Prod.fst →
        (∀ p ∈ points, IsByte p.2) → ReturnsIff (combinePointsAny points) True IsByte := by
      intro points hxs hy
      obtain ⟨p, rfl⟩ : ∃ p, points = [p] := by
        rw [← List.length_eq_one_iff, ← List.length_map (f := Prod.fst), hxs]
        rfl
      exact returnsIff_combinePointsAny_single p.1 (hy p (List.mem_singleton_self p))
    refine (returnsIff_combineWith hpoints).iff ?_
    simp [Combinable]
  | s :: s' :: shares =>
    refine returnsIff_combineWith fun points hxs hy => ?_
    rw [← hxs]
    refine returnsIff_combinePointsAny ?_ hy
    rw [← List.length_map (f := Prod.fst), hxs]
    simp

/-! ### What combining raises -/

/-- Not the exception that the callers of `fetch` expect. -/
def Other (e : PyError) : Prop := e ≠ .trustGroupCompromised

instance (e : PyError) : Decidable (Other e) := inferInstanceAs (Decidable (_ ≠ _))

theorem raises_pyIndex {α : Type*} (xs : List α) (i : ℤ) : Raises Other (pyIndex xs i) := by
  unfold pyIndex
  generalize (if i < 0 then i + xs.length else i) = j
  dsimp only
  split
  · exact .error (by decide)
  · split
    · exact .ok _
    · exact .error (by decide)

theorem raises_gfMul (a b : ℤ) : Raises Other (gfMul a b) := by
  rw [gfMul]
  split
  · exact .ok 0
  · exact (raises_pyIndex _ _).bind fun _ => (raises_pyIndex _ _).bind fun _ => raises_pyIndex _ _

theorem raises_gfDiv (a b : ℤ) : Raises Other (gfDiv a b) := by
  rw [gfDiv]
  split
  · exact .ok 0
  · split
    · exact .error (by decide)
    · exact (raises_pyIndex _ _).bind fun _ => (raises_pyIndex _ _).bind fun _ =>
        raises_pyIndex _ _

theorem raises_logAny (v : Json) : Raises Other (logAny v) := by
  rw [logAny]
  split
  · exact raises_pyIndex _ _
  · exact .error (by decide)

theorem raises_gfMulAny (a : ℤ) (b : Json) : Raises Other (gfMulAny a b) := by
  rw [gfMulAny]
  split
  · exact .ok 0
  · exact (raises_pyIndex _ _).bind fun _ => (raises_logAny _).bind fun _ => raises_pyIndex _ _

theorem raises_xorAny (a b : Json) : Raises Other (xorAny a b) := by
  rw [xorAny]
  split
  · exact .ok _
  · exact .error (by decide)

theorem raises_basisAtZeroAny (points : List (Json × ℤ)) (xi : Json) (i : ℕ) :
    Raises Other (basisAtZeroAny points xi i) := by
  refine Raises.foldlM (fun s q => ?_) _
  dsimp only
  split
  · exact .ok _
  · exact (raises_gfMulAny _ _).bind fun _ => (raises_xorAny _ _).bind fun _ =>
      (raises_gfMul _ _).bind fun _ => .ok _

theorem raises_combinePointsAny (points : List (Json × ℤ)) :
    Raises Other (combinePointsAny points) := by
  refine Raises.foldlM (fun s q => ?_) _
  exact (raises_basisAtZeroAny _ _ _).bind fun _ => (raises_gfDiv _ _).bind fun _ =>
    (raises_gfMul _ _).bind fun _ => .ok _

theorem raises_byteOfInt (v : ℤ) : Raises Other (byteOfInt v) := by
  rw [byteOfInt]
  split
  · exact .ok _
  · exact .error (by decide)

theorem raises_combineAny (shares : List (Json × Bytes)) : Raises Other (combineAny shares) := by
  refine (raises_pyIndex _ _).bind fun first => Raises.mapM fun byteIdx => ?_
  refine Raises.bind (Raises.mapM fun s => ?_) fun points =>
    (raises_combinePointsAny points).bind raises_byteOfInt
  exact (raises_pyIndex _ _).bind fun _ => .ok _

/-- Whole numbers are combined as before. -/
theorem combineAny_int (shares : List (ℤ × Bytes)) :
    combineAny (shares.map (Prod.map Json.int id)) = combineShares shares := by
  have hpoints : ∀ points : List (ℤ × ℤ),
      combinePointsAny (points.map (Prod.map Json.int id)) = combinePoints points := by
    intro points
    have hwhole : ∀ p ∈ points.map (Prod.map Json.int id), ∃ n, wholeNumber p.1 = some n := by
      rw [List.forall_mem_map]
      exact fun p _ => ⟨p.1, rfl⟩
    rw [combinePointsAny_eq hwhole, List.map_map]
    exact congrArg combinePoints (List.map_id points)
  have hcollect : ∀ (i : ℕ) (l : List (ℤ × Bytes)),
      ((l.map (Prod.map Json.int id)).mapM fun (t : Json × Bytes) => do
        return (t.1, ((← pyIndex t.2 i).toNat : ℤ)))
        = (do
          let points ← l.mapM fun (t : ℤ × Bytes) => do
            return (t.1, ((← pyIndex t.2 i).toNat : ℤ))
          return points.map (Prod.map Json.int id)) := by
    intro i l
    induction l with
    | nil => rfl
    | cons t l ih =>
      rw [List.map_cons, List.mapM_cons, ih, List.mapM_cons]
      simp only [bind_assoc, pure_bind]
      rfl
  cases shares with
  | nil => rfl
  | cons s shares =>
    have hfirst : pyIndex ((s :: shares).map (Prod.map Json.int id)) 0
        = .ok (Json.int s.1, s.2) := pyIndex_natCast (i := 0) rfl
    have hfirst' : pyIndex (s :: shares) 0 = .ok s := pyIndex_natCast (i := 0) rfl
    rw [combineShares_eq, combineAny, combineWith, combineWith, hfirst, hfirst', ok_bind, ok_bind]
    congr 1
    funext i
    rw [hcollect]
    simp only [bind_assoc, pure_bind, hpoints]
