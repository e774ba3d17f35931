/-
The log/exp tables of `shamir.py`, and where they are looked up.

A subscript past the end of a table raises and a negative one counts from the end, so the
functions are told here with a record of their look-ups (`result_gfMulTraced` and so on: without
it they are the functions of the source).

* `splitSecret_safe_iff`: the guard of `split_secret` lets through more shares than there are
  indices; what it promises it keeps exactly up to 255.
* `combineShares_repeated`: `combine_shares` divides by zero exactly for repeated indices.
-/
import Mathlib
import VStorage.CorruptedShares
import VStorage.ShamirSecrecy
import VStorage.Traced
import VStorage.UntrustedShares

open GF256 SecretSharing

/-! ### Look-ups -/

/-- `_LOG` and `_EXP`. -/
inductive Table
  | log
  | exp
  deriving DecidableEq

def Table.entries : Table → List ℤ
  | .log => initTables.log
  | .exp => initTables.exp

/-- A subscript of a table. -/
structure Access where
  table : Table
  subscript : ℤ
  deriving DecidableEq

def Access.InRange (access : Access) : Prop :=
  0 ≤ access.subscript ∧ access.subscript < access.table.entries.length

def look (table : Table) (i : ℤ) : Traced Access PyError ℤ :=
  .record ⟨table, i⟩ (pyIndex table.entries i)

/-! ### The code, with its look-ups -/

/-- `_gf_mul`. -/
def gfMulTraced (a b : ℤ) : Traced Access PyError ℤ :=
  if a = 0 ∨ b = 0 then return 0
  else do
    let la ← look .log a
    let lb ← look .log b
    look .exp (la + lb)

/-- `_gf_div`. -/
def gfDivTraced (a b : ℤ) : Traced Access PyError ℤ :=
  if a = 0 then return 0
  else if b = 0 then .lift (.error .zeroDivisionError)
  else do
    let la ← look .log a
    let lb ← look .log b
    look .exp ((la - lb) % 255)

/-- `_eval_poly`. -/
def evalPolyTraced (coeffs : List ℤ) (x : ℤ) : Traced Access PyError ℤ :=
  coeffs.reverse.foldlM (fun result coeff => do
    return Int.xor (← gfMulTraced result x) coeff) 0

/-- `split_secret`. -/
def splitSecretTraced (secret : Bytes) (k n : ℕ) (urandom : ℕ → ℕ → UInt8) :
    Traced Access PyError (List (ℤ × Bytes)) :=
  if ¬ (1 ≤ k ∧ k ≤ n) then .lift (.error .valueError)
  else do
    let columns ← secret.zipIdx.mapM fun (secretByte, byteIdx) => do
      let coeffs : List ℤ :=
        secretByte.toNat :: (List.range (k - 1)).map fun j => ((urandom byteIdx j).toNat : ℤ)
      (List.range n).mapM fun (shareIdx : ℕ) => do
        .lift (byteOfInt (← evalPolyTraced coeffs ((shareIdx : ℤ) + 1)))
    return (List.range n).map fun (i : ℕ) =>
      ((i : ℤ) + 1, columns.map fun col => col.getD (i : ℕ) 0)

/-- The inner loop of `combine_shares`. -/
def basisAtZeroTraced (points : List (ℤ × ℤ)) (xi : ℤ) (i : ℕ) : Traced Access PyError (ℤ × ℤ) :=
  points.zipIdx.foldlM (fun (num, den) ((xj, _), j) =>
    if i = j then return (num, den)
    else return (← gfMulTraced num xj, ← gfMulTraced den (Int.xor xi xj))) (1, 1)

/-- The outer loop of `combine_shares`, for one byte position. -/
def combinePointsTraced (points : List (ℤ × ℤ)) : Traced Access PyError ℤ :=
  points.zipIdx.foldlM (fun secretByte ((xi, yi), i) => do
    let (num, den) ← basisAtZeroTraced points xi i
    let term ← gfMulTraced yi (← gfDivTraced num den)
    return Int.xor secretByte term) 0

/-- `combine_shares`. -/
def combineSharesTraced (shares : List (ℤ × Bytes)) : Traced Access PyError Bytes := do
  let first ← .lift (pyIndex shares 0)
  (List.range first.2.length).mapM fun byteIdx => do
    let points ← shares.mapM fun (x, y) => do
      return (x, ((← .lift (pyIndex y byteIdx)).toNat : ℤ))
    .lift (byteOfInt (← combinePointsTraced points))

/-! ### Without the record -/

-- only the lengths and the entries of the tables matter here
attribute [local irreducible] initTables

theorem result_gfMulTraced (a b : ℤ) : (gfMulTraced a b).result = gfMul a b := by
  rw [gfMulTraced, gfMul]
  split
  · rfl
  · simp only [Traced.result_bind]
    rfl

theorem result_gfDivTraced (a b : ℤ) : (gfDivTraced a b).result = gfDiv a b := by
  rw [gfDivTraced, gfDiv]
  split
  · rfl
  · split
    · rfl
    · simp only [Traced.result_bind]
      rfl

theorem result_evalPolyTraced (coeffs : List ℤ) (x : ℤ) :
    (evalPolyTraced coeffs x).result = evalPoly coeffs x := by
  refine Traced.result_foldlM (fun result coeff => ?_) _ _
  rw [Traced.result_bind, result_gfMulTraced]
  rfl

theorem result_splitSecretTraced (secret : Bytes) (k n : ℕ) (urandom : ℕ → ℕ → UInt8) :
    (splitSecretTraced secret k n urandom).result = splitSecret secret k n urandom := by
  rw [splitSecretTraced, splitSecret]
  split
  · rfl
  · rw [Traced.result_bind]
    congr 1
    refine Traced.result_mapM (fun q => Traced.result_mapM (fun shareIdx => ?_) _) _
    rw [Traced.result_bind, result_evalPolyTraced]
    rfl

theorem result_basisAtZeroTraced (points : List (ℤ × ℤ)) (xi : ℤ) (i : ℕ) :
    (basisAtZeroTraced points xi i).result = basisAtZero points xi i := by
  refine Traced.result_foldlM (fun s q => ?_) _ _
  dsimp only
  split
  · rfl
  · simp only [Traced.result_bind, result_gfMulTraced]
    rfl

theorem result_combinePointsTraced (points : List (ℤ × ℤ)) :
    (combinePointsTraced points).result = combinePoints points := by
  refine Traced.result_foldlM (fun s q => ?_) _ _
  dsimp only
  simp only [Traced.result_bind, result_basisAtZeroTraced, result_gfMulTraced, result_gfDivTraced]
  rfl

theorem result_combineSharesTraced (shares : List (ℤ × Bytes)) :
    (combineSharesTraced shares).result = combineShares shares := by
  rw [combineSharesTraced, combineShares, Traced.result_bind]
  refine congrArg _ (funext fun first => Traced.result_mapM (fun byteIdx => ?_) _)
  rw [Traced.result_bind]
  have hpoints : (shares.mapM fun (s : ℤ × Bytes) => (do
      return (s.1, ((← .lift (pyIndex s.2 byteIdx)).toNat : ℤ)) :
        Traced Access PyError (ℤ × ℤ))).result
      = shares.mapM fun (s : ℤ × Bytes) => do
        return (s.1, ((← pyIndex s.2 byteIdx).toNat : ℤ)) := by
    refine Traced.result_mapM (fun s => ?_) _
    rw [Traced.result_bind]
    rfl
  refine (congrArg (· >>= _) hpoints).trans (congrArg _ (funext fun points => ?_))
  rw [Traced.result_bind, result_combinePointsTraced]
  rfl

/-! ### Look-ups of bytes are in range -/

section InRange

variable {P : Access → Prop} {E : PyError → Prop}

theorem keeps_look_log {a : ℤ} (ha : IsByte a) :
    Traced.Keeps Access.InRange E (fun l => 0 ≤ l ∧ l ≤ 254) (look .log a) := by
  obtain ⟨l, hl, hlog⟩ := (returnsIff_log a).returns ha.inTable
  refine .record ⟨ha.1, ?_⟩ (fun e he => ?_) fun l' hl' => ?_
  · have hlength : Table.log.entries.length = 256 := initTables_extended.log_length
    rw [hlength]
    have := ha.2
    dsimp only
    omega
  · cases hlog.symm.trans he
  · obtain rfl := Except.ok.inj (hlog.symm.trans hl')
    exact hl

theorem keeps_look_exp {i : ℤ} (hi : 0 ≤ i ∧ i < 512) :
    Traced.Keeps Access.InRange E IsByte (look .exp i) := by
  lift i to ℕ using hi.1
  have hexp := pyIndex_exp (n := i) (by omega)
  refine .record ⟨hi.1, ?_⟩ (fun e he => ?_) fun v hv => ?_
  · have hlength : Table.exp.entries.length = 512 := initTables_extended.exp_length
    rw [hlength]
    exact hi.2
  · cases hexp.symm.trans he
  · obtain rfl := Except.ok.inj (hexp.symm.trans hv)
    exact isByte_toInt _

theorem keeps_gfMul {a b : ℤ} (ha : IsByte a) (hb : IsByte b) :
    Traced.Keeps Access.InRange E IsByte (gfMulTraced a b) := by
  rw [gfMulTraced]
  split
  · exact .pure (isByte_toInt 0)
  · exact (keeps_look_log ha).bind fun la hla => (keeps_look_log hb).bind fun lb hlb =>
      keeps_look_exp (by omega)

theorem keeps_gfDiv {a b : ℤ} (ha : IsByte a) (hb : IsByte b) :
    Traced.Keeps Access.InRange (· = .zeroDivisionError) IsByte (gfDivTraced a b) := by
  rw [gfDivTraced]
  split
  · exact .pure (isByte_toInt 0)
  · split
    · exact .lift (fun e he => (Except.error.inj he).symm) nofun
    · exact (keeps_look_log ha).bind fun la hla => (keeps_look_log hb).bind fun lb hlb =>
        keeps_look_exp (by omega)

theorem keeps_byteOfInt {v : ℤ} (hv : IsByte v) :
    Traced.Keeps P E (fun _ => True) (.lift (byteOfInt v)) := by
  obtain ⟨a, rfl⟩ := exists_of_isByte hv
  rw [byteOfInt_toInt]
  exact .lift nofun fun _ _ => trivial

/-- Horner's rule stays among the bytes, wherever the products do. -/
theorem keeps_evalPoly {coeffs : List ℤ} (hcoeffs : ∀ c ∈ coeffs, IsByte c) {x : ℤ}
    (hmul : ∀ r, IsByte r → Traced.Keeps P E IsByte (gfMulTraced r x)) :
    Traced.Keeps P E IsByte (evalPolyTraced coeffs x) := by
  refine .foldlM (fun r hr c hc => ?_) (isByte_toInt 0)
  exact (hmul r hr).bind fun m hm => .pure (isByte_xor hm (hcoeffs c (List.mem_reverse.mp hc)))

theorem keeps_splitSecret {k n : ℕ} (hkn : 1 ≤ k ∧ k ≤ n)
    (hmul : ∀ i < n, ∀ r, IsByte r → Traced.Keeps P E IsByte (gfMulTraced r ((i : ℤ) + 1)))
    (secret : Bytes) (urandom : ℕ → ℕ → UInt8) :
    Traced.Keeps P E (fun _ => True) (splitSecretTraced secret k n urandom) := by
  have hbyte : ∀ b : UInt8, IsByte (b.toNat : ℤ) := fun b => isByte_toInt (ofByte b)
  rw [splitSecretTraced, if_neg (not_not.mpr hkn)]
  refine (Traced.Keeps.mapM (I := fun _ => True) fun q _ => ?_).bind fun columns _ =>
    .pure trivial
  refine (Traced.Keeps.mapM (I := fun _ => True) fun i hi => ?_).mono (fun _ h => h)
    fun _ _ => trivial
  refine (keeps_evalPoly ?_ (hmul i (List.mem_range.mp hi))).bind fun v hv => keeps_byteOfInt hv
  refine List.forall_mem_cons.mpr ⟨hbyte q.1, fun c hc => ?_⟩
  obtain ⟨j, -, rfl⟩ := List.mem_map.mp hc
  exact hbyte _

theorem keeps_basisAtZero {points : List (ℤ × ℤ)} (hx : ∀ p ∈ points, IsByte p.1) {xi : ℤ}
    (hxi : IsByte xi) (i : ℕ) :
    Traced.Keeps Access.InRange E (fun r : ℤ × ℤ => IsByte r.1 ∧ IsByte r.2)
      (basisAtZeroTraced points xi i) := by
  refine .foldlM (fun r hr q hq => ?_) ⟨isByte_toInt 1, isByte_toInt 1⟩
  have hxj := hx _ (List.fst_mem_of_mem_zipIdx hq)
  dsimp only
  split
  · exact .pure hr
  · exact (keeps_gfMul hr.1 hxj).bind fun num hnum =>
      (keeps_gfMul hr.2 (isByte_xor hxi hxj)).bind fun den hden => .pure ⟨hnum, hden⟩

theorem keeps_combinePoints {points : List (ℤ × ℤ)}
    (hpoints : ∀ p ∈ points, IsByte p.1 ∧ IsByte p.2) :
    Traced.Keeps Access.InRange (· = .zeroDivisionError) IsByte
      (combinePointsTraced points) := by
  refine .foldlM (fun s hs q hq => ?_) (isByte_toInt 0)
  obtain ⟨hxi, hyi⟩ := hpoints _ (List.fst_mem_of_mem_zipIdx hq)
  refine (keeps_basisAtZero (fun p hp => (hpoints p hp).1) hxi _).bind fun r hr => ?_
  exact (keeps_gfDiv hr.1 hr.2).bind fun c hc => (keeps_gfMul hyi hc).bind fun term hterm =>
    .pure (isByte_xor hs hterm)

/-- With bytes for indices and one length, only a division by zero can come between. -/
theorem keeps_combineShares {shares : List (ℤ × Bytes)} {n : ℕ} (hne : shares ≠ [])
    (hindex : ∀ s ∈ shares, IsByte s.1) (hlen : ∀ s ∈ shares, s.2.length = n) :
    Traced.Keeps Access.InRange (· = .zeroDivisionError) (fun _ => True)
      (combineSharesTraced shares) := by
  obtain ⟨first, rest, hshares⟩ := List.exists_cons_of_ne_nil hne
  have hfirst : pyIndex shares 0 = .ok first := pyIndex_natCast (i := 0) (by rw [hshares]; rfl)
  have hstart : Traced.Keeps Access.InRange (· = .zeroDivisionError)
      (fun s : ℤ × Bytes => s.2.length = n) (.lift (pyIndex shares 0)) := by
    rw [hfirst]
    refine .lift nofun fun s hs => ?_
    obtain rfl := Except.ok.inj hs
    exact hlen _ (by rw [hshares]; exact List.mem_cons_self)
  refine hstart.bind fun s hs => ?_
  refine (Traced.Keeps.mapM (I := fun _ => True) fun byteIdx hbyteIdx => ?_).mono
    (fun _ h => h) fun _ _ => trivial
  rw [hs] at hbyteIdx
  refine (Traced.Keeps.mapM (I := fun p : ℤ × ℤ => IsByte p.1 ∧ IsByte p.2)
    fun t ht => ?_).bind fun points hpoints =>
      (keeps_combinePoints hpoints).bind fun v hv => keeps_byteOfInt hv
  have hget : pyIndex t.2 byteIdx = .ok (t.2.getD byteIdx 0) := by
    refine pyIndex_natCast ?_
    simp [hlen t ht, List.mem_range.mp hbyteIdx]
  have hread : Traced.Keeps Access.InRange (· = .zeroDivisionError) (fun _ => True)
      (.lift (pyIndex t.2 byteIdx)) := by
    rw [hget]
    exact .lift nofun fun _ _ => trivial
  exact hread.bind fun b _ => .pure ⟨hindex t ht, isByte_toInt (ofByte b)⟩

end InRange

/-! ### Too many shares -/

/-- What `split_secret` should do whatever is drawn: return `n` shares whose indices are
different elements of the field other than zero, with no look-up outside the tables. -/
structure SplitsSafely (secret : Bytes) (k n : ℕ) (urandom : ℕ → ℕ → UInt8) : Prop where
  returns : ∃ shares, splitSecret secret k n urandom = .ok shares ∧ shares.length = n ∧
    (shares.map Prod.fst).Nodup ∧ ∀ s ∈ shares, ∃ x : GF256, x ≠ 0 ∧ s.1 = toInt x
  inRange : ∀ access ∈ (splitSecretTraced secret k n urandom).trace, access.InRange

/-- **The guard of `split_secret`** bounds the threshold, and not the number of shares: of what it
lets through, exactly up to 255 shares are split safely. -/
theorem splitSecret_safe_iff {k n : ℕ} (hk : 1 ≤ k) (hkn : k ≤ n) (secret : Bytes)
    (urandom : ℕ → ℕ → UInt8) : SplitsSafely secret k n urandom ↔ n ≤ 255 := by
  constructor
  · rintro ⟨⟨shares, hsplit, -, -, hfield⟩, -⟩
    by_contra hn
    -- the share after the last that has a place in the field
    have hmem : ((255 : ℤ) + 1, secret) ∈ shares := by
      rw [splitSecret_past hsplit (not_le.mp hn)]
      exact List.mem_map.mpr ⟨255, List.mem_range.mpr (not_le.mp hn), rfl⟩
    obtain ⟨x, -, hx⟩ := hfield _ hmem
    have hlt := x.val_lt
    rw [toInt] at hx
    dsimp only at hx
    omega
  · intro hn
    refine ⟨⟨_, splitSecret_eq hk hkn hn secret urandom, by simp, ?_, ?_⟩, ?_⟩
    · rw [List.map_map]
      refine List.nodup_range.map_on fun i hi j hj hij => ?_
      have hi := List.mem_range.mp hi
      have hj := List.mem_range.mp hj
      exact index_injective (by omega) (by omega) (toInt_injective hij)
    · intro s hs
      obtain ⟨i, hi, rfl⟩ := List.mem_map.mp hs
      have hi := List.mem_range.mp hi
      exact ⟨index i, index_ne_zero (by omega), rfl⟩
    · refine (keeps_splitSecret (E := fun _ => False) ⟨hk, hkn⟩ (fun i hi r hr => ?_) secret
        urandom).trace
      exact keeps_gfMul hr ⟨by omega, by omega⟩

theorem splitSecret_safe_iff_two : SplitsSafely [42] 2 3 (fun _ _ => 7) :=
  (splitSecret_safe_iff (by decide) (by decide) [42] fun _ _ => 7).mpr (by decide)

theorem indexError_of_pyIndex {α : Type*} {xs : List α} {i : ℤ} {e : PyError}
    (h : pyIndex xs i = .error e) : e = .indexError := by
  unfold pyIndex at h
  generalize (if i < 0 then i + xs.length else i) = j at h
  dsimp only at h
  split at h
  · exact (Except.error.inj h).symm
  · split at h
    · cases h
    · exact (Except.error.inj h).symm

/-- With any index, a product with a byte is a byte, or the look-up raises. -/
theorem keeps_gfMul_any {a : ℤ} (ha : IsByte a) (b : ℤ) :
    Traced.Keeps (fun _ => True) (· = .indexError) IsByte (gfMulTraced a b) := by
  refine ⟨fun _ _ => trivial, fun e he => ?_, fun c hc => ?_⟩
  · rw [result_gfMulTraced, gfMul] at he
    split at he
    · cases he
    · rcases bind_eq_error.mp he with hla | ⟨la, -, he⟩
      · exact indexError_of_pyIndex hla
      · rcases bind_eq_error.mp he with hlb | ⟨lb, -, hexp⟩
        · exact indexError_of_pyIndex hlb
        · exact indexError_of_pyIndex hexp
  · rw [result_gfMulTraced] at hc
    have hmul := returnsIff_gfMul ha b
    obtain ⟨c', hc', h⟩ := hmul.returns (hmul.only c hc)
    obtain rfl := Except.ok.inj (hc.symm.trans h)
    exact hc'.1

/-- Past 255 shares it depends on what is drawn whether `split_secret` raises. -/
theorem splitSecret_indexError {k n : ℕ} (hk : 1 ≤ k) (hkn : k ≤ n) (hn : 255 < n)
    {secret : Bytes} {urandom : ℕ → ℕ → UInt8} {i j : ℕ} (hi : i < secret.length)
    (hj : j < k - 1) (hdraw : urandom i j ≠ 0) :
    splitSecret secret k n urandom = .error .indexError := by
  have hkeeps := keeps_splitSecret (n := n) ⟨hk, hkn⟩
    (fun i _ r hr => keeps_gfMul_any hr ((i : ℤ) + 1)) secret urandom
  cases hsplit : splitSecret secret k n urandom with
  | error e =>
    rw [hkeeps.raises e ((result_splitSecretTraced _ _ _ _).trans hsplit)]
  | ok shares =>
    refine absurd ?_ hdraw
    have hmem : (secret[i], i) ∈ secret.zipIdx := by
      rw [List.mk_mem_zipIdx_iff_getElem?]
      exact List.getElem?_eq_getElem hi
    have hzero := eq_zero_of_splitSecret hsplit hn _ hmem _
      (List.mem_map.mpr ⟨j, List.mem_range.mpr hj, rfl⟩)
    exact UInt8.toNat_inj.mp (Int.ofNat.inj hzero)

/-- 256 shares, any two of which should do. -/
theorem splitSecret_unsafe :
    splitSecret [42] 2 256 (fun _ _ => 7) = .error .indexError ∧
    ¬ ∀ (secret : Bytes) (k n : ℕ) (urandom : ℕ → ℕ → UInt8), 1 ≤ k ∧ k ≤ n →
      SplitsSafely secret k n urandom := by
  have herror : splitSecret [42] 2 256 (fun _ _ => 7) = .error .indexError :=
    splitSecret_indexError (i := 0) (j := 0) (by decide) (by decide) (by decide) (by decide)
      (by decide) (by decide)
  refine ⟨herror, fun h => ?_⟩
  obtain ⟨shares, hsplit, -⟩ := (h [42] 2 256 (fun _ _ => 7) (by decide)).returns
  cases herror.symm.trans hsplit

/-! ### Repeated shares -/

theorem shareToInt_injective : Function.Injective shareToInt := by
  intro s t h
  obtain ⟨hindex, hdata⟩ := Prod.mk.inj h
  exact Prod.ext (toInt_injective hindex) hdata

/-- Shares with a repeated index do not combine. -/
theorem nodup_of_combineShares {shares : List (ℤ × Bytes)} {n : ℕ} {out : Bytes}
    (hindex : ∀ s ∈ shares, 1 ≤ s.1 ∧ s.1 ≤ 255) (hlen : ∀ s ∈ shares, s.2.length = n)
    (hn : n ≠ 0) (h : combineShares shares = .ok out) : (shares.map Prod.fst).Nodup := by
  match shares with
  | [] => exact List.nodup_nil
  | [s] => exact List.nodup_singleton _
  | s :: s' :: rest =>
    set all := s :: s' :: rest with hall
    have hpoints : ∀ points : List (ℤ × ℤ), points.map Prod.fst = all.map Prod.fst →
        (∀ p ∈ points, IsByte p.2) → ReturnsIff (combinePoints points)
          ((∀ x ∈ all.map Prod.fst, InTable x) ∧ Divides (all.map Prod.fst)) IsByte := by
      intro points hfst hy
      have htwo : 2 ≤ points.length := by
        rw [← List.length_map (f := Prod.fst), hfst, hall]
        simp
      refine (returnsIff_combinePoints htwo hy).iff ?_
      rw [← hfst, List.forall_mem_map]
    rw [combineShares_eq] at h
    rcases (returnsIff_combineWith hpoints).only out h with hempty | ⟨-, -, hdivides⟩
    · have := hlen s List.mem_cons_self
      rw [hempty] at this
      exact absurd this.symm hn
    · refine hdivides.resolve_left fun hzero => ?_
      obtain ⟨t, ht, ht0⟩ := List.mem_map.mp hzero
      have := (hindex t ht).1
      omega

/-- The result does not depend on the order. -/
theorem combineShares_perm {shares shares' : List (ℤ × Bytes)} {n : ℕ}
    (hindex : ∀ s ∈ shares, 1 ≤ s.1 ∧ s.1 ≤ 255) (hlen : ∀ s ∈ shares, s.2.length = n)
    (hnodup : (shares.map Prod.fst).Nodup) (hperm : shares'.Perm shares) :
    combineShares shares' = combineShares shares := by
  by_cases hne : shares = []
  · obtain rfl := hne
    rw [List.perm_nil.mp hperm]
  have hne' : shares' ≠ [] := fun h => hne (List.nil_perm.mp (h ▸ hperm))
  obtain ⟨ss', rfl, -⟩ := exists_shares fun s hs => hindex s (hperm.mem_iff.mp hs)
  obtain ⟨ss, rfl, -⟩ := exists_shares hindex
  have hss : ss'.Perm ss := (List.map_perm_map_iff shareToInt_injective).mp hperm
  have hdistinct := nodup_shares.mp hnodup
  have hdistinct' : (ss'.map Prod.fst).Nodup := (hss.map Prod.fst).nodup_iff.mpr hdistinct
  have hlen' : ∀ s ∈ ss, s.2.length = n := fun s hs => hlen _ (List.mem_map_of_mem hs)
  rw [combineShares_toInt (fun h => hne' (by rw [h]; rfl)) hdistinct'
      fun s hs => hlen' s (hss.mem_iff.mp hs),
    combineShares_toInt (fun h => hne (by rw [h]; rfl)) hdistinct hlen']
  refine congrArg _ (List.map_congr_left fun i _ => ?_)
  have hfst : ∀ l : List (GF256 × Bytes), (l.map (pointAt i)).map Prod.fst = l.map Prod.fst :=
    fun l => by rw [List.map_map]; rfl
  rw [interpolateZero_eq_weigh ((hfst ss').symm ▸ hdistinct'),
    interpolateZero_eq_weigh ((hfst ss).symm ▸ hdistinct), weigh_perm (hss.map (pointAt i))]

/-- **Repeated shares.**  Shares with indices in `1..255` and one length, not zero, make
`combine_shares` divide by zero exactly when two of them have the same index.  Else it looks the
tables up in their range only, and returns the same whatever the order. -/
theorem combineShares_repeated {shares : List (ℤ × Bytes)} {n : ℕ} (hne : shares ≠ [])
    (hindex : ∀ s ∈ shares, 1 ≤ s.1 ∧ s.1 ≤ 255) (hlen : ∀ s ∈ shares, s.2.length = n)
    (hn : n ≠ 0) :
    (combineShares shares = .error .zeroDivisionError ↔ ¬ (shares.map Prod.fst).Nodup) ∧
    ((shares.map Prod.fst).Nodup →
      (∀ access ∈ (combineSharesTraced shares).trace, access.InRange) ∧
      ∃ out, ∀ shares' : List (ℤ × Bytes), shares'.Perm shares →
        combineShares shares' = .ok out) := by
  have hkeeps := keeps_combineShares hne
    (fun s hs => ⟨by have := hindex s hs; omega, (hindex s hs).2⟩) hlen
  have htotal : (shares.map Prod.fst).Nodup → ∃ out, combineShares shares = .ok out := by
    intro hnodup
    obtain ⟨ss, rfl, -⟩ := exists_shares hindex
    exact ⟨_, combineShares_toInt (fun h => hne (h ▸ rfl)) (nodup_shares.mp hnodup)
      fun s hs => hlen _ (List.mem_map_of_mem hs)⟩
  refine ⟨⟨fun herror hnodup => ?_, fun hrepeated => ?_⟩, fun hnodup => ⟨hkeeps.trace, ?_⟩⟩
  · obtain ⟨out, hout⟩ := htotal hnodup
    cases herror.symm.trans hout
  · cases hresult : combineShares shares with
    | ok out => exact absurd (nodup_of_combineShares hindex hlen hn hresult) hrepeated
    | error e => rw [hkeeps.raises e ((result_combineSharesTraced shares).trans hresult)]
  · obtain ⟨out, hout⟩ := htotal hnodup
    exact ⟨out, fun shares' hperm => (combineShares_perm hindex hlen hnodup hperm).trans hout⟩

theorem combineShares_repeated_two :
    combineShares [(1, [7]), (1, [9])] = .error .zeroDivisionError := by
  have hne : ([(1, [7]), (1, [9])] : List (ℤ × Bytes)) ≠ [] := by decide
  exact (combineShares_repeated (n := 1) hne (by decide) (by decide) (by decide)).1.mpr
    (by decide)
