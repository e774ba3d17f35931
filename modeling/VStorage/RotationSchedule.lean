/-
The schedule of rotations, for a box without a trust group.

Every hop that returns is logged with the calls of `encrypt` it has made, as its trace has
them, and with what it did besides.  `Schedule` fixes the state from the number of hops
alone, and the log up to the nonces: after `h` hops over `N` chunks the box is `h % N` chunks
into generation `h / N`.

* `trace_construct`, `Schedule.record`: the calls of `encrypt` of a construction and of a hop;
* `Schedule.hop`, `Schedule.bounce`: every step keeps to the schedule;
* `rotation_schedule`: rotations, flags, keys, and no key used twice on one chunk.
-/
import Mathlib
import VStorage.FallScheduler

namespace ChunkedSecureBox

/-! ### The log -/

/-- What one hop did: its calls of `encrypt`, whether the chunk was under the next key already
(so that the hop only refreshed it), and whether the hop completed a rotation.  Guards are
numbered in the order they were made, so the position of a guard is the generation of its
key. -/
structure HopRecord where
  sealings : List Sealing
  refresh : Bool
  rotated : Bool
  deriving DecidableEq

instance (box : ChunkedSecureBox) : Decidable box.Wrapped :=
  inferInstanceAs (Decidable (_ ∧ _))

instance (box : ChunkedSecureBox) : Decidable box.Completing :=
  inferInstanceAs (Decidable (box.advance box.pools).Wrapped)

/-- A hop that returns, with its record, or a bounce of a key cell. -/
inductive Logged (P : Primitives) :
    ChunkedSecureBox → Option HopRecord → ChunkedSecureBox → Prop
  | hop {box : ChunkedSecureBox} {env : HopEnv} {onNext : Bool} :
      (box.hop P env).outcome = .ok () → box.onNext[box.nextChunk]? = some onNext →
      Logged P box
        (some { sealings := (box.tracedHop P env).trace, refresh := onNext,
                rotated := decide box.Completing })
        (box.hop P env).box
  | bounce {box : ChunkedSecureBox} {cell : ℕ × ℕ} : Logged P box none (box.bounce cell)

/-- The records of the hops in a run. -/
def hopLog (trace : List (Option HopRecord)) : List HopRecord := trace.filterMap id

/-- The calls of `encrypt` of a box so far: those of its construction, then those of each
hop. -/
def encryptions (initial : List Sealing) (log : List HopRecord) : List Sealing :=
  initial ++ log.flatMap HopRecord.sealings

/-- The generation and the chunk that an encryption is for. -/
def Sealing.turn (s : Sealing) : ℕ × ℕ := (s.generation, s.chunk)

/-- The call of `encrypt` in the `k`-th hop of a box of `n` chunks. -/
def Sealing.nth (P : Primitives) (key : Bytes) (n k : ℕ) (nonce : Nonce) : Sealing where
  generation := k / n + 1
  chunk := k % n
  encryption := ⟨(ratchet P)^[k / n + 1] key, nonce⟩

/-- The record of the `k`-th hop of a box of `n` chunks. -/
def HopRecord.nth (P : Primitives) (key : Bytes) (n k : ℕ) (nonce : Nonce) : HopRecord where
  sealings := [Sealing.nth P key n k nonce]
  refresh := false
  rotated := decide (n ∣ k + 1)

/-- The flags after `k` of `n` chunks have been moved over. -/
def flags (n k : ℕ) : List Bool := (List.range n).map fun i => decide (i < k)

/-- The box and its log are where `h` hops bring a box of `n` chunks. -/
structure Schedule (P : Primitives) (key : Bytes) (n h : ℕ) (log : List HopRecord)
    (box : ChunkedSecureBox) : Prop where
  pos : 0 < n
  trustGroup : box.trustGroup = false
  chunks : box.chunks.length = n
  currentGuard : box.currentGuard = h / n
  nextGuard : box.nextGuard = h / n + 1
  guards : box.guards.length = h / n + 2
  nextChunk : box.nextChunk = h % n
  onNext : box.onNext = flags n (h % n)
  holds : ∃ plains, Holds P plains ((ratchet P)^[h / n] key) ((ratchet P)^[h / n + 1] key) box
  log : ∃ nonces : List Nonce, nonces.length = h ∧ log = nonces.mapIdx (HopRecord.nth P key n)

/-! ### Counting round -/

theorem length_flags (n k : ℕ) : (flags n k).length = n := by simp [flags]

theorem getElem?_flags {n k i : ℕ} (hi : i < n) : (flags n k)[i]? = some (decide (i < k)) := by
  simp [flags, hi]

theorem flags_zero (n : ℕ) : flags n 0 = List.replicate n false := by simp [flags]

theorem flags_set (n k : ℕ) : (flags n k).set k true = flags n (k + 1) := by
  refine List.ext_getElem? fun i => ?_
  by_cases hi : i < n
  · rw [getElem?_flags hi]
    by_cases hik : k = i
    · subst hik
      rw [List.getElem?_set_self (by rwa [length_flags])]
      simp
    · rw [List.getElem?_set_ne hik, getElem?_flags hi]
      have hiff : i < k ↔ i < k + 1 := by omega
      simp [hiff]
  · rw [List.getElem?_eq_none (by rw [List.length_set, length_flags]; omega),
      List.getElem?_eq_none (by rw [length_flags]; omega)]

theorem flags_all {n k : ℕ} : (flags n k).all id ↔ n ≤ k := by
  simp only [flags, List.all_map, List.all_eq_true, List.mem_range]
  constructor
  · intro hall
    by_contra hlt
    have := hall k (by omega)
    simp at this
  · intro hle i hi
    show decide (i < k) = true
    exact decide_eq_true (by omega)

/-- Hop `h` ends a generation exactly when it moves the last chunk. -/
theorem dvd_succ_iff {n h : ℕ} (hn : 0 < n) : n ∣ h + 1 ↔ h % n + 1 = n := by
  have hlt := Nat.mod_lt h hn
  rw [Nat.dvd_iff_mod_eq_zero, Nat.add_mod]
  by_cases hlast : h % n + 1 = n
  · have hone : h % n + 1 % n = n ∨ 1 % n = 0 := by
      rcases Nat.lt_or_ge 1 n with h1 | h1
      · rw [Nat.mod_eq_of_lt h1]
        exact Or.inl hlast
      · obtain rfl : n = 1 := by omega
        exact Or.inr rfl
    rcases hone with hone | hone
    · simp [hone, hlast]
    · obtain rfl : n = 1 := Nat.dvd_one.mp (Nat.dvd_of_mod_eq_zero hone)
      simp [Nat.mod_one]
  · rw [Nat.mod_eq_of_lt (show 1 < n by omega), Nat.mod_eq_of_lt (by omega)]
    constructor <;> intro h <;> omega

/-- Inside a generation only the position moves. -/
theorem succ_of_not_dvd {n h : ℕ} (hlast : ¬ n ∣ h + 1) :
    (h + 1) / n = h / n ∧ (h + 1) % n = h % n + 1 := by
  have hdiv : (h + 1) / n = h / n := by rw [Nat.succ_div, if_neg hlast, Nat.add_zero]
  refine ⟨hdiv, ?_⟩
  have h1 := Nat.div_add_mod h n
  have h2 := Nat.div_add_mod (h + 1) n
  rw [hdiv] at h2
  omega

/-- At its end the next generation begins with its first chunk. -/
theorem succ_of_dvd {n h : ℕ} (hlast : n ∣ h + 1) :
    (h + 1) / n = h / n + 1 ∧ (h + 1) % n = 0 :=
  ⟨by rw [Nat.succ_div, if_pos hlast], Nat.mod_eq_zero_of_dvd hlast⟩

/-! ### The schedule is kept -/

variable {P : Primitives} {key : Bytes} {n h : ℕ} {log : List HopRecord}
  {box : ChunkedSecureBox}

theorem Schedule.bounces (hs : Schedule P key n h log box) (cells : List (ℕ × ℕ)) :
    Schedule P key n h log (box.bounces cells) := by
  have hlen := length_bounces box cells
  obtain ⟨plains, hold⟩ := hs.holds
  have hheld := hold.bounces cells
  rw [bounces_eq] at hheld hlen ⊢
  exact { hs with guards := hlen.trans hs.guards, holds := ⟨plains, hheld⟩ }

theorem Schedule.completing_iff (hs : Schedule P key n h log box) :
    box.Completing ↔ n ∣ h + 1 := by
  have hlt := Nat.mod_lt h hs.pos
  show (box.nextChunk + 1) % box.chunks.length = 0 ∧ (box.onNext.set box.nextChunk true).all id
    ↔ _
  rw [hs.nextChunk, hs.chunks, hs.onNext, flags_set, flags_all, dvd_succ_iff hs.pos]
  constructor
  · rintro ⟨-, hle⟩
    omega
  · intro hlast
    exact ⟨by rw [hlast, Nat.mod_self], by omega⟩

/-- A hop that returns moves on by one. -/
theorem Schedule.hop (hs : Schedule P key n h log box) {env : HopEnv}
    (hok : (box.hop P env).outcome = .ok ()) :
    Schedule P key n (h + 1) (log ++ [HopRecord.nth P key n h env.nonce])
      (box.hop P env).box := by
  have hlog : ∃ nonces : List Nonce, nonces.length = h + 1 ∧
      log ++ [HopRecord.nth P key n h env.nonce] = nonces.mapIdx (HopRecord.nth P key n) := by
    obtain ⟨nonces, hlen, hnonces⟩ := hs.log
    refine ⟨nonces ++ [env.nonce], by rw [List.length_append, hlen]; rfl, ?_⟩
    rw [List.mapIdx_concat, hnonces, hlen]
  have hs₁ := hs.bounces env.between
  obtain ⟨plains, hold⟩ := hs.holds
  obtain ⟨pools, hadv, hcase⟩ := hop_cases hold env
  have hlt := Nat.mod_lt h hs.pos
  set box₁ := box.bounces env.between with hbox₁
  have honNext : (box₁.advance pools).onNext = flags n (h % n + 1) := by
    show box₁.onNext.set box₁.nextChunk true = _
    rw [hs₁.onNext, hs₁.nextChunk, flags_set]
  have hnextChunk : (box₁.advance pools).nextChunk = (h % n + 1) % n := by
    show (box₁.nextChunk + 1) % box₁.chunks.length = _
    rw [hs₁.nextChunk, hs₁.chunks]
  have hiff : (box₁.advance pools).Wrapped ↔ n ∣ h + 1 :=
    wrapped_iff_completing.trans hs.completing_iff
  by_cases hlast : n ∣ h + 1
  · -- the generation is complete, and the next one begins
    obtain ⟨hdiv, hmod⟩ := succ_of_dvd hlast
    obtain ⟨hw, -⟩ | ⟨hw, hhop⟩ := hcase
    · exact absurd (hiff.mpr hlast) hw
    rw [hhop] at hok ⊢
    obtain ⟨new, pages, hnew, hrot⟩ := rotate_returned hok
    rw [hrot]
    -- without a trust group the new key is the ratchet of the next one
    obtain rfl : (ratchet P)^[h / n + 1 + 1] key = new := by
      rw [nextKey, show (box₁.advance pools).trustGroup = false from hs₁.trustGroup] at hnew
      rw [Function.iterate_succ_apply']
      exact Except.ok.inj hnew
    have hne : (box₁.advance pools).currentGuard ≠ (box₁.advance pools).nextGuard := by
      show box₁.currentGuard ≠ box₁.nextGuard
      rw [hs₁.currentGuard, hs₁.nextGuard]
      omega
    have hheld := hadv.install_retire hw hne (nextKey_valid hnew) pages
    refine
      { pos := hs.pos
        trustGroup := hs₁.trustGroup
        chunks := hs₁.chunks
        currentGuard := hs₁.nextGuard.trans hdiv.symm
        nextGuard := ?_
        guards := ?_
        nextChunk := ?_
        onNext := ?_
        holds := ⟨plains, ?_⟩
        log := hlog }
    · show box₁.guards.length = _
      rw [hs₁.guards, hdiv]
    · show ((box₁.guards ++ [_]).modify _ _).length = _
      rw [List.length_modify, List.length_append, hs₁.guards, hdiv]
      rfl
    · show (box₁.advance pools).nextChunk = _
      rw [hw.1, hmod]
    · show List.replicate box₁.chunks.length false = _
      rw [hs₁.chunks, hmod, flags_zero]
    · rw [hdiv]
      exact hheld
  · -- one more chunk of the generation has been moved
    obtain ⟨hdiv, hmod⟩ := succ_of_not_dvd hlast
    obtain ⟨-, hhop⟩ | ⟨hw, -⟩ := hcase
    swap
    · exact absurd (hiff.mp hw) hlast
    rw [hhop]
    refine
      { pos := hs.pos
        trustGroup := hs₁.trustGroup
        chunks := hs₁.chunks
        currentGuard := hs₁.currentGuard.trans (by rw [hdiv])
        nextGuard := hs₁.nextGuard.trans (by rw [hdiv])
        guards := hs₁.guards.trans (by rw [hdiv])
        nextChunk := ?_
        onNext := honNext.trans (by rw [hmod])
        holds := ⟨plains, ?_⟩
        log := hlog }
    · rw [dvd_succ_iff hs.pos] at hlast
      rw [hmod]
      exact hnextChunk.trans (Nat.mod_eq_of_lt (by omega))
    · rw [hdiv]
      exact hadv

/-- A bounce is no hop. -/
theorem Schedule.bounce (hs : Schedule P key n h log box) (cell : ℕ × ℕ) :
    Schedule P key n h log (box.bounce cell) := hs.bounces [cell]

/-- The record of a hop that returns is the one the schedule foresees. -/
theorem Schedule.record (hs : Schedule P key n h log box) {env : HopEnv} {onNext : Bool}
    (hflag : box.onNext[box.nextChunk]? = some onNext) :
    { sealings := (box.tracedHop P env).trace, refresh := onNext,
      rotated := decide box.Completing : HopRecord } = HopRecord.nth P key n h env.nonce := by
  have htrace : (box.tracedHop P env).trace = [Sealing.nth P key n h env.nonce] := by
    obtain ⟨plains, hold⟩ := hs.holds
    rw [hold.trace_hop, hs.nextGuard, hs.nextChunk]
    rfl
  have hfresh : onNext = false := by
    rw [hs.onNext, hs.nextChunk, getElem?_flags (Nat.mod_lt h hs.pos)] at hflag
    rw [← Option.some.inj hflag]
    exact decide_eq_false (Nat.lt_irrefl _)
  rw [HopRecord.nth, htrace, hfresh]
  congr 1
  exact decide_eq_decide.mpr hs.completing_iff

/-- Every hop that returns is logged. -/
theorem Schedule.logged (hs : Schedule P key n h log box) {env : HopEnv}
    (hok : (box.hop P env).outcome = .ok ()) :
    Logged P box (some (HopRecord.nth P key n h env.nonce)) (box.hop P env).box := by
  have hflag : box.onNext[box.nextChunk]? = some (decide (h % n < h % n)) := by
    rw [hs.onNext, hs.nextChunk, getElem?_flags (Nat.mod_lt h hs.pos)]
  rw [← hs.record hflag]
  exact Logged.hop hok hflag

theorem hopLog_concat (trace : List (Option HopRecord)) (r : HopRecord) :
    hopLog (trace ++ [some r]) = hopLog trace ++ [r] := by simp [hopLog]

theorem hopLog_concat_none (trace : List (Option HopRecord)) :
    hopLog (trace ++ [none]) = hopLog trace := by simp [hopLog]

/-- Every run keeps to the schedule. -/
theorem Schedule.run {box₀ : ChunkedSecureBox} (h₀ : Schedule P key n 0 [] box₀)
    {trace : List (Option HopRecord)} (hrun : Run (Logged P) box₀ trace box) :
    Schedule P key n (hopLog trace).length (hopLog trace) box := by
  refine hrun.history
    (I := fun trace box => Schedule P key n (hopLog trace).length (hopLog trace) box) h₀ ?_
  intro trace box label box' hs hstep
  cases hstep with
  | hop hok hflag =>
    rw [hs.record hflag, hopLog_concat, List.length_append]
    exact hs.hop hok
  | bounce =>
    rw [hopLog_concat_none]
    exact hs.bounce _

/-- A box without a trust group starts on the schedule. -/
theorem Schedule.construct {source : Source} {env : InitEnv} {data : Bytes} {chunkSize : ℕ}
    {onNewGuard : Bool}
    (hbuilt : construct source P env data chunkSize false onNewGuard = .ok box) :
    Schedule P env.key box.chunks.length 0 [] box := by
  obtain ⟨plains, ck, nk, -, -, hold, -⟩ := construct_ok hbuilt
  have hpos : 0 < box.chunks.length :=
    hold.length_chunks ▸ lt_of_le_of_lt (Nat.zero_le _) hold.nextChunk_lt
  obtain ⟨next, pools, chunks, hnext, rfl⟩ := construct_shape hbuilt
  -- the keys are those the guards were made from
  obtain rfl : env.key.1 = ck :=
    Except.ok.inj ((SplitKeyGuard.reconstruct_new P _ _).symm.trans hold.current)
  obtain rfl : next = nk :=
    Except.ok.inj ((SplitKeyGuard.reconstruct_new P _ _).symm.trans hold.next)
  obtain rfl : ratchet P env.key = next := Except.ok.inj hnext
  exact
    { pos := hpos
      trustGroup := rfl
      chunks := rfl
      currentGuard := (Nat.zero_div _).symm
      nextGuard := by rw [Nat.zero_div]
      guards := by rw [Nat.zero_div]; rfl
      nextChunk := (Nat.zero_mod _).symm
      onNext := by rw [Nat.zero_mod, flags_zero]
      holds := ⟨plains, by rw [Nat.zero_div]; exact hold⟩
      log := ⟨[], rfl, rfl⟩ }

theorem trace_newChunks {env : InitEnv} {plaintexts : List Bytes} {pools : List ChunkPool}
    {chunks : List Chunk} (hmade : newChunks P env plaintexts = .ok (pools, chunks)) :
    (tracedNewChunks P env plaintexts).trace
      = (List.range chunks.length).map fun i => ⟨0, i, ⟨env.key, env.nonce i⟩⟩ := by
  have hlen : chunks.length = plaintexts.length := by
    obtain ⟨pools', chunks', hspec, hlen, -⟩ := newChunks_spec (P := P) env plaintexts
    obtain ⟨-, rfl⟩ := Prod.mk.inj (Except.ok.inj (hspec.symm.trans hmade))
    exact hlen
  rw [hlen, List.range_eq_range', ← List.zipIdx_map_snd, List.map_map, List.map_eq_flatMap]
  refine Traced.trace_foldlM (fun s a => ?_) hmade
  refine (Traced.trace_bind_of_nil _ fun _ => rfl).trans ?_
  show List.map _ (tracedNewChunk P _ _ _ _ _).trace = _
  rw [trace_newChunk]
  rfl

/-- A construction that returns has encrypted each chunk once, under the first key. -/
theorem trace_construct {source : Source} {env : InitEnv} {data : Bytes} {chunkSize : ℕ}
    {trustGroup onNewGuard : Bool}
    (hbuilt : construct source P env data chunkSize trustGroup onNewGuard = .ok box) :
    (tracedConstruct source P env data chunkSize trustGroup onNewGuard).trace
      = (List.range box.chunks.length).map fun i => ⟨0, i, ⟨env.key, env.nonce i⟩⟩ := by
  obtain ⟨plaintexts, heq⟩ :=
    exists_build source P env data chunkSize trustGroup onNewGuard
  rw [construct, heq, ← build, build_eq] at hbuilt
  obtain ⟨next, hnext, hbuilt⟩ := bind_eq_ok.mp hbuilt
  obtain ⟨pieces, hpieces, hbuilt⟩ := bind_eq_ok.mp hbuilt
  obtain ⟨⟨pools, chunks⟩, hchunks, hbuilt⟩ := bind_eq_ok.mp hbuilt
  obtain rfl := Except.ok.inj hbuilt
  rw [heq, tracedBuild, hnext, hpieces, Traced.lift_ok_bind, Traced.lift_ok_bind]
  exact (Traced.trace_bind_of_nil _ fun _ => rfl).trans (trace_newChunks hchunks)

/-! ### No key twice -/

/-- What is the same at every position does not depend on the list. -/
theorem map_mapIdx_const {α β γ : Type} (g : β → γ) (f : ℕ → α → β) (f' : ℕ → γ)
    (h : ∀ i a, g (f i a) = f' i) (xs : List α) :
    (xs.mapIdx f).map g = (List.range xs.length).map f' := by
  induction xs using List.reverseRecOn with
  | nil => rfl
  | append_singleton xs a ih =>
    rw [List.mapIdx_concat, List.map_append, ih, List.length_append, List.length_singleton,
      List.range_succ, List.map_append, List.map_singleton, h]
    rfl

/-- One encryption a hop. -/
theorem flatMap_nth (P : Primitives) (key : Bytes) (n : ℕ) (nonces : List Nonce) :
    (nonces.mapIdx (HopRecord.nth P key n)).flatMap HopRecord.sealings
      = nonces.mapIdx (Sealing.nth P key n) := by
  induction nonces using List.reverseRecOn with
  | nil => rfl
  | append_singleton nonces nonce ih =>
    rw [List.mapIdx_concat, List.mapIdx_concat, List.flatMap_append, ih]
    rfl

/-- Encryption `k` of a box is of chunk `k % n`, in generation `k / n`. -/
theorem turns_nth (hn : 0 < n) {initial : List Sealing} {nonces : List Nonce}
    (hinitial : initial.map Sealing.turn = (List.range n).map fun i => (0, i)) :
    (encryptions initial (nonces.mapIdx (HopRecord.nth P key n))).map Sealing.turn
      = (List.range (n + nonces.length)).map fun k => (k / n, k % n) := by
  rw [encryptions, flatMap_nth, List.map_append, hinitial, List.range_add, List.map_append,
    List.map_map, map_mapIdx_const Sealing.turn (Sealing.nth P key n)
      (fun k => (k / n + 1, k % n)) fun _ _ => rfl]
  congr 1
  · refine List.map_congr_left fun i hi => ?_
    have hlt := List.mem_range.mp hi
    rw [Nat.div_eq_of_lt hlt, Nat.mod_eq_of_lt hlt]
  · refine List.map_congr_left fun k _ => ?_
    show (k / n + 1, k % n) = ((n + k) / n, (n + k) % n)
    rw [Nat.add_div_left k hn, Nat.add_mod_left]

theorem nodup_divMod (n m : ℕ) : ((List.range m).map fun k => (k / n, k % n)).Nodup := by
  refine List.Nodup.map (fun a b hab => ?_) List.nodup_range
  obtain ⟨hdiv, hmod⟩ := Prod.mk.inj hab
  rw [← Nat.div_add_mod a n, hdiv, hmod, Nat.div_add_mod]

/-- Different pairs with one first component have different second ones, of which there
are only so many. -/
theorem countP_fst_le {pairs : List (ℕ × ℕ)} (hnodup : pairs.Nodup)
    (hlt : ∀ p ∈ pairs, p.2 < n) (g : ℕ) : pairs.countP (fun p => p.1 = g) ≤ n := by
  have hsnd : ((pairs.filter fun p => p.1 = g).map Prod.snd).Nodup := by
    refine List.Nodup.map_on (fun p hp q hq hpq => ?_) (hnodup.filter _)
    have h1 := of_decide_eq_true (List.mem_filter.mp hp).2
    have h2 := of_decide_eq_true (List.mem_filter.mp hq).2
    exact Prod.ext (h1.trans h2.symm) hpq
  have hsub : (pairs.filter fun p => p.1 = g).map Prod.snd ⊆ List.range n := by
    intro i hi
    obtain ⟨p, hp, rfl⟩ := List.mem_map.mp hi
    exact List.mem_range.mpr (hlt p (List.mem_filter.mp hp).1)
  have hle := (List.subperm_of_subset hsnd hsub).length_le
  rwa [List.length_map, List.length_range, ← List.countP_eq_length_filter] at hle

theorem countP_rotated (P : Primitives) (key : Bytes) (n : ℕ) (nonces : List Nonce) :
    (nonces.mapIdx (HopRecord.nth P key n)).countP HopRecord.rotated = nonces.length / n := by
  induction nonces using List.reverseRecOn with
  | nil => exact (Nat.zero_div n).symm
  | append_singleton nonces nonce ih =>
    rw [List.mapIdx_concat, List.countP_append, ih, List.length_append, List.length_singleton,
      Nat.succ_div]
    simp [HopRecord.nth, List.countP_cons]

/-- **Rotation schedule.**  A box of `n` chunks without a trust group, after any run of
hops that return, mixed with bounces of its key cells: with `h` hops there have been
`h / n` rotations, `h % n` chunks of the generation have been moved, the keys are the first
key ratcheted `h / n` and `h / n + 1` times, no hop has refreshed a chunk, and among all calls
of `encrypt`, each under the key of its generation, no chunk comes twice in one generation. -/
theorem rotation_schedule (P : Primitives) {source : Source} {env : InitEnv} {data : Bytes}
    {chunkSize : ℕ} {onNewGuard : Bool} {box₀ box : ChunkedSecureBox}
    (hbuilt : ChunkedSecureBox.construct source P env data chunkSize false onNewGuard
      = .ok box₀)
    {trace : List (Option HopRecord)} (hrun : Run (Logged P) box₀ trace box) {n h : ℕ}
    (hn : n = box₀.chunks.length) (hh : h = (hopLog trace).length) {made : List Sealing}
    (hmade : made = encryptions
      (tracedConstruct source P env data chunkSize false onNewGuard).trace (hopLog trace)) :
    0 < n ∧ box.chunks.length = n ∧
    (hopLog trace).countP HopRecord.rotated = h / n ∧ box.guards.length = h / n + 2 ∧
    (∀ i < n, box.onNext[i]? = some (decide (i < h % n))) ∧ box.onNext.length = n ∧
    box.nextChunk = h % n ∧
    box.reconstruct P box.currentGuard = .ok ((ratchet P)^[h / n] env.key) ∧
    box.reconstruct P box.nextGuard = .ok ((ratchet P)^[h / n + 1] env.key) ∧
    (∀ r ∈ hopLog trace, r.refresh = false) ∧
    (∀ s ∈ made, s.encryption.key = (ratchet P)^[s.generation] env.key) ∧
    (made.map fun s => (s.generation, s.chunk)).Nodup ∧
    ∀ g, made.countP (fun s => s.generation = g) ≤ n := by
  subst hn hh hmade
  have hs := (Schedule.construct hbuilt).run hrun
  have hinitial := trace_construct hbuilt
  set initial := (tracedConstruct source P env data chunkSize false onNewGuard).trace
  set n := box₀.chunks.length
  obtain ⟨nonces, hlen, hlog⟩ := hs.log
  obtain ⟨plains, hold⟩ := hs.holds
  have hturns : (encryptions initial (hopLog trace)).map Sealing.turn
      = (List.range (n + nonces.length)).map fun k => (k / n, k % n) := by
    rw [hlog]
    refine turns_nth hs.pos ?_
    rw [hinitial, List.map_map]
    rfl
  have hnodup : ((encryptions initial (hopLog trace)).map Sealing.turn).Nodup :=
    hturns ▸ nodup_divMod n (n + nonces.length)
  refine ⟨hs.pos, hs.chunks, ?_, hs.guards, ?_, ?_, hs.nextChunk, hold.current, hold.next, ?_,
    ?_, hnodup, ?_⟩
  · rw [← hlen, hlog]
    exact countP_rotated P env.key n nonces
  · intro i hi
    rw [hs.onNext, getElem?_flags hi]
  · rw [hs.onNext, length_flags]
  · intro r hr
    rw [hlog] at hr
    obtain ⟨k, hk, rfl⟩ := List.mem_mapIdx.mp hr
    rfl
  · intro s hmem
    rw [encryptions, hlog, flatMap_nth, hinitial] at hmem
    rcases List.mem_append.mp hmem with hmem | hmem
    · obtain ⟨i, -, rfl⟩ := List.mem_map.mp hmem
      rfl
    · obtain ⟨k, hk, rfl⟩ := List.mem_mapIdx.mp hmem
      rfl
  · intro g
    have hcount := countP_fst_le hnodup (n := n) (fun p hp => ?_) g
    · rwa [List.countP_map] at hcount
    · rw [hturns] at hp
      obtain ⟨k, -, rfl⟩ := List.mem_map.mp hp
      exact Nat.mod_lt k hs.pos

/-- One hop of a box of two chunks. -/
theorem rotation_schedule_sample :
    ∃ box₀ r box, ChunkedSecureBox.construct .bytes Primitives.sample InitEnv.sample [1, 2, 3] 2
        false false = .ok box₀ ∧
      Run (Logged Primitives.sample) box₀ [some r] box ∧ r.rotated = decide (2 ∣ 1) ∧
      box.nextChunk = 1 % 2 ∧ box.onNext[0]? = some true ∧
      ((encryptions (tracedConstruct .bytes Primitives.sample InitEnv.sample [1, 2, 3] 2
        false false).trace [r]).map fun s => (s.generation, s.chunk)).Nodup := by
  obtain ⟨box₀, -, -, -, hbuilt, -⟩ := @construct_spec Primitives.sample .bytes
    InitEnv.sample [1, 2, 3] 2 (by decide) false false
    fun h => nomatch h
  have hs := Schedule.construct hbuilt
  have htwo : 2 = box₀.chunks.length := by
    have hcount : (ChunkedSecureBox.construct .bytes Primitives.sample InitEnv.sample [1, 2, 3] 2
        false false).map (fun box => box.chunks.length) = .ok 2 := by decide +kernel
    rw [hbuilt] at hcount
    exact (Except.ok.inj hcount).symm
  have hok : (box₀.hop Primitives.sample ⟨[], ⟨List.replicate 12 9, rfl⟩, .error .osError,
      .ok fun i => (i, i), .ok ()⟩).outcome = .ok () :=
    (regular_construct hbuilt).choose_spec.hop_ok
      (fun ht => nomatch hs.trustGroup.symm.trans ht) ⟨_, rfl⟩ rfl
  have hrun := Run.single (hs.logged hok)
  obtain ⟨-, -, -, -, hflags, -, hnext, -, -, -, -, hnodup, -⟩ :=
    rotation_schedule Primitives.sample hbuilt hrun htwo rfl rfl
  refine ⟨box₀, _, _, hbuilt, hrun, ?_, hnext, hflags 0 (by decide), hnodup⟩
  rw [← htwo]
  rfl

end ChunkedSecureBox
