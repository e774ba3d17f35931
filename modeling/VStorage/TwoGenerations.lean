/-
The two-generation invariant of a box.

`Holds` says that a box holds a list of plaintexts under a current and a next key:
every chunk is sealed under the next key when its flag is set and under the current
key otherwise, in slots that do not meet, and both guards give their keys.
Construction establishes it (`holds_build`), bouncing keeps it (`Holds.bounces`), and
a hop either moves one chunk over, or also completes a rotation, or fails half-way
through one (`hop_cases`, `rotate_cases`); in all of these the box still holds the
same plaintexts.  Hence

* `snapshot_returns_data`: whatever happened before, `snapshot` gives back exactly
  the data the box was built from.
-/
import Mathlib
import VStorage.ChunkedSecureBox
import VStorage.Runs

namespace ChunkedSecureBox

variable {P : Primitives}

/-! ### Cutting data into chunks -/

theorem take_mul_eq_flatten (data : Bytes) (n m : ℕ) :
    ((List.range m).map fun i => (data.drop (i * n)).take n).flatten = data.take (m * n) := by
  induction m with
  | zero => simp
  | succ m ih =>
    rw [List.range_succ, List.map_append, List.flatten_append, ih, Nat.succ_mul, List.take_add]
    simp

/-- The slices of `range(0, stop, n)` make up the data again. -/
theorem slices_flatten {data : Bytes} {stop n : ℕ} (hn : 1 ≤ n) (hstop : data.length ≤ stop) :
    ∃ pieces, slices data stop n = .ok pieces ∧ pieces.flatten = data ∧
      ∀ p ∈ pieces, p.length ≤ n := by
  refine ⟨_, if_neg (by omega), ?_, ?_⟩
  swap
  · intro p hp
    obtain ⟨i, -, rfl⟩ := List.mem_map.mp hp
    exact List.length_take_le _ _
  rw [take_mul_eq_flatten]
  refine List.take_of_length_le (le_trans hstop ?_)
  -- rounding up covers `stop`
  have := Nat.div_add_mod (stop + n - 1) n
  have := Nat.mod_lt (stop + n - 1) (show 0 < n by omega)
  rw [Nat.mul_comm]
  omega

theorem readBlocks_flatten (n : ℕ) (hn : 0 < n) (rest : Bytes) :
    (readBlocks n hn rest).flatten = rest := by
  fun_induction readBlocks n hn rest with
  | case1 => rfl
  | case2 b rest ih => rw [List.flatten_cons, ih, List.take_append_drop]

/-! ### The invariant -/

/-- The box holds `plains`, chunk by chunk, under the current key `ck` and the next
key `nk`. -/
structure Holds (P : Primitives) (plains : List Bytes) (ck nk : Bytes)
    (box : ChunkedSecureBox) : Prop where
  dataLen : box.dataLen = plains.flatten.length
  current : box.reconstruct P box.currentGuard = .ok ck
  next : box.reconstruct P box.nextGuard = .ok nk
  valid_ck : ValidKey ck
  valid_nk : ValidKey nk
  length_chunks : box.chunks.length = plains.length
  length_onNext : box.onNext.length = plains.length
  stored : ∀ (i : ℕ) (c : Chunk) (b : Bool) (p : Bytes), box.chunks[i]? = some c →
    box.onNext[i]? = some b → plains[i]? = some p →
    c.Stored P box.pools (if b then nk else ck) p
  apart : box.chunks.Pairwise Chunk.Apart
  nextChunk_lt : box.nextChunk < plains.length

/-! ### Construction -/

theorem newChunks_spec (env : InitEnv) (plaintexts : List Bytes) :
    ∃ pools chunks, newChunks P env plaintexts = .ok (pools, chunks) ∧
      chunks.length = plaintexts.length ∧ chunks.Pairwise Chunk.Apart ∧
      (∀ p ∈ pools, p.Live) ∧
      ∀ (i : ℕ) (c : Chunk) (p : Bytes), chunks[i]? = some c → plaintexts[i]? = some p →
        c.Stored P pools env.key p := by
  -- the loop, over the plaintexts done so far
  induction plaintexts using List.reverseRecOn with
  | nil => exact ⟨[], [], rfl, rfl, List.Pairwise.nil, by simp, by simp⟩
  | append_singleton plaintexts plaintext ih =>
    obtain ⟨pools, chunks, hrun, hlen, hapart, hlive, hstored⟩ := ih
    obtain ⟨pools', c, hnew, hlive', hc, hold⟩ := newChunk_spec (P := P) hlive
      (validKey_of_length env.key.2) plaintext (env.nonce plaintexts.length)
      (env.poolAddr plaintexts.length)
    have hmem : ∀ d ∈ chunks, ∃ p, d.Stored P pools env.key p := by
      intro d hd
      obtain ⟨i, hi, rfl⟩ := List.mem_iff_getElem.mp hd
      exact ⟨plaintexts[i], hstored i _ _ (List.getElem?_eq_getElem hi)
        (List.getElem?_eq_getElem (hlen ▸ hi))⟩
    refine ⟨pools', chunks ++ [c], ?_, by simp [hlen], ?_, hlive', ?_⟩
    · rw [newChunks_eq] at hrun ⊢
      rw [List.zipIdx_append, List.foldlM_append, hrun, ok_bind]
      simp only [List.zipIdx_singleton, List.foldlM_cons, List.foldlM_nil, Nat.zero_add]
      rw [hnew]
      rfl
    · refine List.pairwise_append.mpr ⟨hapart, List.pairwise_singleton _ _, ?_⟩
      intro d hd e he
      obtain rfl := List.mem_singleton.mp he
      obtain ⟨p, hp⟩ := hmem d hd
      exact (hold d _ p hp).2
    · intro i d p hd hp
      rcases lt_or_ge i chunks.length with hi | hi
      · rw [List.getElem?_append_left hi] at hd
        rw [List.getElem?_append_left (by omega)] at hp
        exact (hold d _ p (hstored i d p hd hp)).1
      · have hi' : i = chunks.length := by
          have := (List.getElem?_eq_some_iff.mp hd).1
          simp at this
          omega
        subst hi'
        rw [List.getElem?_concat_length] at hd
        rw [hlen, List.getElem?_concat_length] at hp
        obtain rfl := Option.some.inj hd
        obtain rfl := Option.some.inj hp
        exact hc

theorem nextKey_valid {trustGroup : Bool} {fetch : Except PyError Bytes} {key next : Bytes}
    (h : nextKey P trustGroup fetch key = .ok next) : ValidKey next := by
  unfold nextKey at h
  split at h
  · obtain ⟨external, -, hnext⟩ := bind_eq_ok.mp h
    obtain rfl := Except.ok.inj hnext
    exact validKey_of_length (P.length_sha256 _)
  · obtain rfl := Except.ok.inj h
    exact validKey_of_length (P.length_sha256 _)

/-- A key chain that goes on: without a trust group always, with one when the fetch
returns. -/
theorem nextKey_ok {trustGroup : Bool} {fetch : Except PyError Bytes} (key : Bytes)
    (h : trustGroup = true → ∃ external, fetch = .ok external) :
    ∃ next, nextKey P trustGroup fetch key = .ok next := by
  unfold nextKey
  split
  · rename_i ht
    obtain ⟨external, rfl⟩ := h ht
    exact ⟨_, rfl⟩
  · exact ⟨_, rfl⟩

/-- A construction that gets past the first fetch returns a box that holds the data,
in chunks of at most the given size. -/
theorem holds_build {env : InitEnv} {trustGroup : Bool} (onNewGuard : Bool) {next : Bytes}
    (hnext : nextKey P trustGroup env.fetch env.key = .ok next) {data : Bytes} {n : ℕ}
    {plaintexts : List Bytes} (hdata : plaintexts.flatten = data)
    (hsize : ∀ p ∈ plaintexts, p.length ≤ n) :
    ∃ box plains, build P env trustGroup onNewGuard data.length (.ok plaintexts) = .ok box ∧
      plains.flatten = data ∧ (∀ p ∈ plains, p.length ≤ n) ∧
      Holds P plains env.key next box ∧ box.currentGuard ≠ box.nextGuard := by
  set plains : List Bytes := if plaintexts = [] then [[]] else plaintexts with hplains
  have hflat : plains.flatten = data := by
    rw [hplains]
    split
    · rename_i h
      rw [← hdata, h]
      rfl
    · exact hdata
  have hle : ∀ p ∈ plains, p.length ≤ n := by
    rw [hplains]
    split
    · simp
    · exact hsize
  have hpos : 0 < plains.length := by
    rw [hplains]
    split
    · decide
    · exact List.length_pos_of_ne_nil ‹_›
  obtain ⟨pools, chunks, hrun, hlen, hapart, -, hstored⟩ := newChunks_spec (P := P) env plains
  set box : ChunkedSecureBox :=
    { dataLen := data.length, trustGroup := trustGroup, onNewGuard := onNewGuard
      guards := [SplitKeyGuard.new P env.key env.currentPages,
        SplitKeyGuard.new P next env.nextPages]
      currentGuard := 0, nextGuard := 1
      pools := pools, chunks := chunks, onNext := List.replicate chunks.length false
      hops := 0, nextChunk := 0, paused := false, removed := false } with hbox
  refine ⟨box, plains, ?_, hflat, hle, ?_, Nat.zero_ne_one⟩
  · rw [build_eq, hnext, ok_bind, ok_bind]
    dsimp only
    rw [← hplains, hrun, ok_bind]
    rfl
  · refine ⟨by rw [hflat], ?_, ?_, validKey_of_length env.key.2, nextKey_valid hnext, hlen, ?_,
      ?_, hapart, hpos⟩
    · exact SplitKeyGuard.reconstruct_new P _ _
    · exact SplitKeyGuard.reconstruct_new P _ _
    · rw [List.length_replicate, hlen]
    · intro i c b p hc hb hp
      obtain rfl : b = false := List.eq_of_mem_replicate (List.mem_of_getElem? hb)
      exact hstored i c p hc hp

/-- The blocks of a file, each cut into chunks. -/
theorem blocks_flatten {n : ℕ} (hn : 1 ≤ n) (blocks : List Bytes) :
    ∃ pieces, blocks.mapM (fun block => slices block block.length n) = .ok pieces ∧
      pieces.flatten.flatten = blocks.flatten ∧ ∀ p ∈ pieces.flatten, p.length ≤ n := by
  induction blocks with
  | nil => exact ⟨[], rfl, rfl, by simp⟩
  | cons block blocks ih =>
    obtain ⟨pieces, hrun, hflat, hle⟩ := ih
    obtain ⟨first, hfirst, hflat₁, hle₁⟩ := slices_flatten hn (le_refl block.length)
    refine ⟨first :: pieces, ?_, ?_, ?_⟩
    · rw [List.mapM_cons, hfirst, ok_bind, hrun]
      rfl
    · rw [List.flatten_cons, List.flatten_append, hflat, hflat₁, List.flatten_cons]
    · intro p hp
      rw [List.flatten_cons] at hp
      rcases List.mem_append.mp hp with hp | hp
      · exact hle₁ p hp
      · exact hle p hp

/-- The two ways to build a box: from bytes, and from a file with these contents. -/
inductive Source
  | bytes
  | file

/-- A box built from `data`, with the calls of `encrypt`. -/
def tracedConstruct (source : Source) (P : Primitives) (env : InitEnv) (data : Bytes)
    (chunkSize : ℕ) (trustGroup onNewGuard : Bool) : Traced Sealing PyError ChunkedSecureBox :=
  match source with
  | .bytes => init P env data chunkSize trustGroup onNewGuard
  | .file => fromFile P env data chunkSize trustGroup onNewGuard

/-- A box built from `data`. -/
def construct (source : Source) (P : Primitives) (env : InitEnv) (data : Bytes)
    (chunkSize : ℕ) (trustGroup onNewGuard : Bool) : Except PyError ChunkedSecureBox :=
  (tracedConstruct source P env data chunkSize trustGroup onNewGuard).result

/-- Either way the box is built from plaintexts. -/
theorem exists_build (source : Source) (P : Primitives) (env : InitEnv) (data : Bytes)
    (chunkSize : ℕ) (trustGroup onNewGuard : Bool) : ∃ plaintexts,
      tracedConstruct source P env data chunkSize trustGroup onNewGuard
        = tracedBuild P env trustGroup onNewGuard data.length plaintexts := by
  cases source <;> exact ⟨_, rfl⟩

/-- Either construction returns a box that holds the data. -/
theorem construct_spec (source : Source) {env : InitEnv} (data : Bytes) {chunkSize : ℕ}
    (hsize : 1 ≤ chunkSize) {trustGroup : Bool} (onNewGuard : Bool)
    (hfetch : trustGroup = true → ∃ external, env.fetch = .ok external) :
    ∃ box plains ck nk, construct source P env data chunkSize trustGroup onNewGuard = .ok box ∧
      plains.flatten = data ∧ (∀ p ∈ plains, p.length ≤ chunkSize) ∧
      Holds P plains ck nk box ∧ box.currentGuard ≠ box.nextGuard := by
  obtain ⟨next, hnext⟩ := nextKey_ok (P := P) env.key hfetch
  cases source with
  | bytes =>
    obtain ⟨pieces, hrun, hflat, hle⟩ := slices_flatten hsize (le_max_left data.length 1)
    obtain ⟨box, plains, hbox, hrest⟩ := holds_build onNewGuard hnext hflat hle
    refine ⟨box, plains, env.key, next, ?_, hrest⟩
    show build P env trustGroup onNewGuard data.length (slices _ _ _) = _
    rw [hrun, hbox]
  | file =>
    obtain ⟨pieces, hrun, hflat, hle⟩ := blocks_flatten hsize
      (readBlocks (rawReadSize chunkSize) (rawReadSize_pos chunkSize) data)
    rw [readBlocks_flatten] at hflat
    obtain ⟨box, plains, hbox, hrest⟩ := holds_build onNewGuard hnext hflat hle
    refine ⟨box, plains, env.key, next, ?_, hrest⟩
    show build P env trustGroup onNewGuard data.length (_ >>= _) = _
    rw [hrun, ok_bind]
    exact hbox

theorem build_ok {env : InitEnv} {trustGroup onNewGuard : Bool} {dataLen : ℕ}
    {plaintexts : Except PyError (List Bytes)} {box : ChunkedSecureBox}
    (h : build P env trustGroup onNewGuard dataLen plaintexts = .ok box) :
    (∃ next, nextKey P trustGroup env.fetch env.key = .ok next) ∧
      ∃ pieces, plaintexts = .ok pieces := by
  rw [build_eq] at h
  obtain ⟨next, hnext, h⟩ := bind_eq_ok.mp h
  obtain ⟨pieces, hpieces, -⟩ := bind_eq_ok.mp h
  exact ⟨⟨next, hnext⟩, pieces, hpieces⟩

/-- What a box looks like when it has been built, by either construction. -/
theorem construct_shape {source : Source} {env : InitEnv} {data : Bytes} {chunkSize : ℕ}
    {trustGroup onNewGuard : Bool} {box : ChunkedSecureBox}
    (h : construct source P env data chunkSize trustGroup onNewGuard = .ok box) :
    ∃ next pools chunks, nextKey P trustGroup env.fetch env.key = .ok next ∧
      box = {
        dataLen := data.length, trustGroup := trustGroup, onNewGuard := onNewGuard
        guards := [SplitKeyGuard.new P env.key env.currentPages,
          SplitKeyGuard.new P next env.nextPages]
        currentGuard := 0, nextGuard := 1
        pools := pools, chunks := chunks, onNext := List.replicate chunks.length false
        hops := 0, nextChunk := 0, paused := false, removed := false } := by
  obtain ⟨plaintexts, h⟩ :
      ∃ plaintexts, build P env trustGroup onNewGuard data.length plaintexts = .ok box := by
    cases source <;> exact ⟨_, h⟩
  rw [build_eq] at h
  obtain ⟨next, hnext, h⟩ := bind_eq_ok.mp h
  obtain ⟨_, -, h⟩ := bind_eq_ok.mp h
  obtain ⟨⟨pools, chunks⟩, -, h⟩ := bind_eq_ok.mp h
  exact ⟨next, pools, chunks, hnext, (Except.ok.inj h).symm⟩

/-- A box that has been built, with any chunk size, holds its data.  (Chunk size 0 gets
past `from_file` for an empty file.) -/
theorem construct_ok {source : Source} {env : InitEnv} {data : Bytes} {chunkSize : ℕ}
    {trustGroup onNewGuard : Bool} {box : ChunkedSecureBox}
    (h : construct source P env data chunkSize trustGroup onNewGuard = .ok box) :
    ∃ plains ck nk, plains.flatten = data ∧ (∀ p ∈ plains, p.length ≤ chunkSize) ∧
      Holds P plains ck nk box ∧ box.currentGuard ≠ box.nextGuard := by
  have hnext : ∃ next, nextKey P trustGroup env.fetch env.key = .ok next := by
    cases source <;> exact (build_ok h).1
  rcases Nat.eq_zero_or_pos chunkSize with rfl | hsize
  · -- `range` rejects the step 0, so nothing has been cut
    obtain ⟨next, hnext⟩ := hnext
    cases source with
    | bytes =>
      obtain ⟨-, pieces, hpieces⟩ := build_ok h
      cases hpieces
    | file =>
      cases data with
      | nil =>
        obtain ⟨box', plains, hbox, hrest⟩ := holds_build (n := 0) onNewGuard hnext
          (List.flatten_nil : ([] : List Bytes).flatten = []) (by simp)
        have hfile : construct .file P env [] 0 trustGroup onNewGuard = .ok box' := by
          show build P env trustGroup onNewGuard 0 (_ >>= _) = _
          rw [readBlocks]
          exact hbox
        obtain rfl := Except.ok.inj (hfile.symm.trans h)
        exact ⟨plains, env.key, next, hrest⟩
      | cons b data =>
        obtain ⟨-, pieces, hpieces⟩ := build_ok h
        rw [readBlocks, List.mapM_cons] at hpieces
        cases hpieces
  · have hfetch : trustGroup = true → ∃ external, env.fetch = .ok external := by
      rintro rfl
      obtain ⟨next, hnext⟩ := hnext
      obtain ⟨external, hexternal, -⟩ := bind_eq_ok.mp hnext
      exact ⟨external, hexternal⟩
    obtain ⟨box', plains, ck, nk, hbox, hrest⟩ :=
      construct_spec (P := P) source data hsize onNewGuard hfetch
    obtain rfl := Except.ok.inj (hbox.symm.trans h)
    exact ⟨plains, ck, nk, hrest⟩

/-! ### Bouncing -/

theorem reconstruct_eq_ok {box : ChunkedSecureBox} {i : ℕ} {key : Bytes} :
    box.reconstruct P i = .ok key ↔
      ∃ guard, box.guards[i]? = some guard ∧ guard.reconstruct P = .ok key := by
  rw [reconstruct, bind_eq_ok]
  constructor
  · rintro ⟨guard, hguard, hkey⟩
    exact ⟨guard, pyIndex_eq_ok.mp hguard, hkey⟩
  · rintro ⟨guard, hguard, hkey⟩
    exact ⟨guard, pyIndex_natCast hguard, hkey⟩

theorem reconstruct_bounce {box : ChunkedSecureBox} {cell : ℕ × ℕ} {i : ℕ} {key : Bytes}
    (h : box.reconstruct P i = .ok key) : (box.bounce cell).reconstruct P i = .ok key := by
  obtain ⟨guard, hguard, hkey⟩ := reconstruct_eq_ok.mp h
  rw [reconstruct_eq_ok, bounce, List.getElem?_modify, hguard]
  by_cases hi : cell.1 = i
  · exact ⟨guard.bounceCell cell.2, by simp [hi], by rw [SplitKeyGuard.reconstruct_bounceCell, hkey]⟩
  · exact ⟨guard, by simp [hi], hkey⟩

/-- Bounces change the cells of the guards and nothing else. -/
theorem bounces_eq (box : ChunkedSecureBox) (cells : List (ℕ × ℕ)) :
    box.bounces cells = { box with guards := (box.bounces cells).guards } := by
  induction cells generalizing box with
  | nil => rfl
  | cons cell cells ih =>
    show (box.bounce cell).bounces cells = _
    rw [ih]
    rfl

theorem length_bounces (box : ChunkedSecureBox) (cells : List (ℕ × ℕ)) :
    (box.bounces cells).guards.length = box.guards.length := by
  induction cells generalizing box with
  | nil => rfl
  | cons cell cells ih =>
    refine (ih (box.bounce cell)).trans ?_
    exact List.length_modify ..

/-- Bouncing a key cell keeps everything. -/
theorem Holds.bounce {plains : List Bytes} {ck nk : Bytes} {box : ChunkedSecureBox}
    (h : Holds P plains ck nk box) (cell : ℕ × ℕ) : Holds P plains ck nk (box.bounce cell) :=
  { h with
    current := reconstruct_bounce h.current
    next := reconstruct_bounce h.next }

theorem Holds.bounces {plains : List Bytes} {ck nk : Bytes} {box : ChunkedSecureBox}
    (h : Holds P plains ck nk box) (cells : List (ℕ × ℕ)) :
    Holds P plains ck nk (box.bounces cells) := by
  induction cells generalizing box with
  | nil => exact h
  | cons cell cells ih => exact ih (h.bounce cell)

/-- A guard made later gets another place. -/
theorem Holds.nextGuard_lt {plains : List Bytes} {ck nk : Bytes} {box : ChunkedSecureBox}
    (h : Holds P plains ck nk box) : box.nextGuard < box.guards.length := by
  obtain ⟨_, hguard, -⟩ := reconstruct_eq_ok.mp h.next
  exact (List.getElem?_eq_some_iff.mp hguard).1

/-- Every operation that starts by reading the keys gets them. -/
theorem Holds.readKeys {plains : List Bytes} {ck nk : Bytes} {box : ChunkedSecureBox}
    (h : Holds P plains ck nk box) (between : List (ℕ × ℕ)) :
    box.readKeys P between = (box.bounces between, .ok (ck, nk)) := by
  have hnext := (h.bounces between).next
  simp only [ChunkedSecureBox.readKeys, h.current, hnext]

/-! ### Hopping -/

/-- One chunk is moved over to the next key; the others are as they were. -/
theorem Holds.advance {plains : List Bytes} {ck nk : Bytes} {box : ChunkedSecureBox}
    (h : Holds P plains ck nk box) {c : Chunk} {p : Bytes} {pools : List ChunkPool}
    (hc : box.chunks[box.nextChunk]? = some c) (hp : plains[box.nextChunk]? = some p)
    (hmoved : c.Stored P pools nk p)
    (hothers : ∀ (d : Chunk) (key plain : Bytes), c.Apart d → d.Stored P box.pools key plain →
      d.Stored P pools key plain) :
    Holds P plains ck nk (box.advance pools) := by
  refine { h with length_onNext := ?_, stored := ?_, nextChunk_lt := ?_ }
  · exact (List.length_set ..).trans h.length_onNext
  · intro i d b q hd hb hq
    change box.chunks[i]? = some d at hd
    change (box.onNext.set box.nextChunk true)[i]? = some b at hb
    show d.Stored P pools _ q
    by_cases hi : i = box.nextChunk
    · subst hi
      rw [List.getElem?_set_self (by rw [h.length_onNext]; exact h.nextChunk_lt)] at hb
      rw [hc] at hd
      rw [hp] at hq
      obtain rfl := Option.some.inj hb
      obtain rfl := Option.some.inj hd
      obtain rfl := Option.some.inj hq
      exact hmoved
    · rw [List.getElem?_set_ne (Ne.symm hi)] at hb
      refine hothers d _ q ?_ (h.stored i d b q hd hb hq)
      obtain ⟨hlt, rfl⟩ := List.getElem?_eq_some_iff.mp hc
      obtain ⟨hlt', rfl⟩ := List.getElem?_eq_some_iff.mp hd
      rcases Nat.lt_or_gt_of_ne hi with hi | hi
      · exact (List.pairwise_iff_getElem.mp h.apart _ _ hlt' hlt hi).symm
      · exact List.pairwise_iff_getElem.mp h.apart _ _ hlt hlt' hi
  · show (box.nextChunk + 1) % box.chunks.length < plains.length
    rw [h.length_chunks]
    exact Nat.mod_lt _ (lt_of_le_of_lt (Nat.zero_le _) h.nextChunk_lt)

/-- The chunk that a hop turns to. -/
theorem Holds.turn {plains : List Bytes} {ck nk : Bytes} {box : ChunkedSecureBox}
    (h : Holds P plains ck nk box) :
    ∃ c b p, box.chunks[box.nextChunk]? = some c ∧ box.onNext[box.nextChunk]? = some b ∧
      plains[box.nextChunk]? = some p ∧ c.Stored P box.pools (if b then nk else ck) p := by
  have hlt := h.nextChunk_lt
  have hc := List.getElem?_eq_getElem (h.length_chunks ▸ hlt)
  have hb := List.getElem?_eq_getElem (h.length_onNext ▸ hlt)
  have hp := List.getElem?_eq_getElem hlt
  exact ⟨_, _, _, hc, hb, hp, h.stored _ _ _ _ hc hb hp⟩

/-- The last chunk of a generation has just been moved over. -/
def Wrapped (box : ChunkedSecureBox) : Prop := box.nextChunk = 0 ∧ box.onNext.all id

/-- **What a hop can do.**  It moves one chunk over, and if that was the last one it
goes on with the rotation. -/
theorem hop_cases {plains : List Bytes} {ck nk : Bytes} {box : ChunkedSecureBox}
    (h : Holds P plains ck nk box) (env : HopEnv) :
    ∃ pools, Holds P plains ck nk ((box.bounces env.between).advance pools) ∧
      (¬ ((box.bounces env.between).advance pools).Wrapped ∧
          box.hop P env = ⟨(box.bounces env.between).advance pools, none, .ok ()⟩ ∨
        ((box.bounces env.between).advance pools).Wrapped ∧
          box.hop P env = ((box.bounces env.between).advance pools).rotate P env nk) := by
  have h₁ := h.bounces env.between
  set box₁ := box.bounces env.between with hbox₁
  obtain ⟨c, b, p, hc, hb, hp, hstored⟩ := h₁.turn
  obtain ⟨pools, hrun, hmoved, hothers⟩ := reencrypt_spec hstored h₁.valid_nk env.nonce
  refine ⟨pools, h₁.advance hc hp hmoved hothers, ?_⟩
  have hhop : box.hop P env
      = if (box₁.advance pools).nextChunk = 0 ∧ (box₁.advance pools).onNext.all id
        then (box₁.advance pools).rotate P env nk
        else ⟨box₁.advance pools, none, .ok ()⟩ := by
    rw [hop_eq, h.readKeys]
    simp only [← hbox₁, hc, hb, hrun]
  by_cases hw : (box₁.advance pools).Wrapped
  · exact Or.inr ⟨hw, hhop.trans (if_pos hw)⟩
  · exact Or.inl ⟨hw, hhop.trans (if_neg hw)⟩

/-- **What a hop encrypts.**  Its chunk, once, under the next key. -/
theorem Holds.trace_hop {plains : List Bytes} {ck nk : Bytes} {box : ChunkedSecureBox}
    (h : Holds P plains ck nk box) (env : HopEnv) :
    (box.tracedHop P env).trace = [⟨box.nextGuard, box.nextChunk, ⟨nk, env.nonce⟩⟩] := by
  obtain ⟨c, b, p, hc, hb, -, hstored⟩ := (h.bounces env.between).turn
  have hcall : ((c.tracedReencrypt P (box.bounces env.between).pools (if b then nk else ck) nk
      env.nonce).trace.map fun e => (⟨(box.bounces env.between).nextGuard,
        (box.bounces env.between).nextChunk, e⟩ : Sealing))
      = [⟨box.nextGuard, box.nextChunk, ⟨nk, env.nonce⟩⟩] := by
    rw [hstored.trace_reencrypt, bounces_eq]
    rfl
  rw [tracedHop, h.readKeys]
  simp only [hc, hb]
  refine (Traced.trace_bind_of_nil _ fun pools => ?_).trans hcall
  cases pools with
  | error e => rfl
  | ok pools =>
    dsimp only
    split_ifs
    · rfl
    · rfl

/-! ### Rotating -/

/-- The box in the middle of a rotation: the next guard is current as well. -/
def promote (box : ChunkedSecureBox) : ChunkedSecureBox :=
  { box with currentGuard := box.nextGuard }

/-- A promoted box that has been given a new next guard. -/
def install (box : ChunkedSecureBox) (guard : SplitKeyGuard) : ChunkedSecureBox :=
  { box.promote with guards := box.guards ++ [guard], nextGuard := box.guards.length }

/-- **What a rotation can do.**  The fetch or the mapping of the new guard raises, and
the box stays promoted; or the callback raises, and the old guard is not retired; or
it goes through. -/
theorem rotate_cases (P : Primitives) (env : HopEnv) (next : Bytes) (box : ChunkedSecureBox) :
    (∃ e, box.rotate P env next = ⟨box.promote, none, .error e⟩ ∧
      (nextKey P box.trustGroup env.fetch next = .error e ∨
        (∃ key, nextKey P box.trustGroup env.fetch next = .ok key) ∧ env.mmap = .error e)) ∨
    ∃ key pages, nextKey P box.trustGroup env.fetch next = .ok key ∧ env.mmap = .ok pages ∧
      ((∃ e, box.onNewGuard = true ∧ env.callback = .error e ∧
          box.rotate P env next = ⟨box.install (SplitKeyGuard.new P key pages),
            some (SplitKeyGuard.new P key pages).regions, .error e⟩) ∨
        (box.onNewGuard = true → env.callback = .ok ()) ∧
          box.rotate P env next
            = ⟨(box.install (SplitKeyGuard.new P key pages)).retire box.currentGuard,
              if box.onNewGuard then some (SplitKeyGuard.new P key pages).regions else none,
              .ok ()⟩) := by
  unfold rotate
  cases hkey : nextKey P box.trustGroup env.fetch next with
  | error e => exact Or.inl ⟨e, by simp only [hkey, promote], Or.inl rfl⟩
  | ok key =>
    cases hmmap : env.mmap with
    | error e => exact Or.inl ⟨e, by simp only [hkey, promote], Or.inr ⟨⟨key, rfl⟩, rfl⟩⟩
    | ok pages =>
      refine Or.inr ⟨key, pages, rfl, rfl, ?_⟩
      cases hnew : box.onNewGuard with
      | false => exact Or.inr ⟨by simp, by simp [hkey, install, promote, hnew]⟩
      | true =>
        cases hcall : env.callback with
        | error e => exact Or.inl ⟨e, rfl, rfl, by simp [hkey, install, promote, hnew]⟩
        | ok u => exact Or.inr ⟨fun _ => rfl, by simp [hkey, install, promote, hnew]⟩

/-- A rotation that returns has gone through. -/
theorem rotate_returned {env : HopEnv} {next : Bytes} {box : ChunkedSecureBox}
    (hok : (box.rotate P env next).outcome = .ok ()) :
    ∃ key pages, nextKey P box.trustGroup env.fetch next = .ok key ∧
      box.rotate P env next
        = ⟨(box.install (SplitKeyGuard.new P key pages)).retire box.currentGuard,
          if box.onNewGuard then some (SplitKeyGuard.new P key pages).regions else none,
          .ok ()⟩ := by
  obtain ⟨e, hrot, -⟩ | ⟨key, pages, hkey, -, ⟨e, -, -, hrot⟩ | ⟨-, hrot⟩⟩ :=
    rotate_cases P env next box
  · rw [hrot] at hok
    exact nomatch hok
  · rw [hrot] at hok
    exact nomatch hok
  · exact ⟨key, pages, hkey, hrot⟩

/-- All flags set: every chunk is under the next key. -/
theorem Holds.stored_next {plains : List Bytes} {ck nk : Bytes} {box : ChunkedSecureBox}
    (h : Holds P plains ck nk box) (hw : box.Wrapped) {i : ℕ} {c : Chunk} {p : Bytes}
    (hc : box.chunks[i]? = some c) (hp : plains[i]? = some p) : c.Stored P box.pools nk p := by
  have hlt : i < box.onNext.length :=
    h.length_onNext ▸ (List.getElem?_eq_some_iff.mp hp).1
  have hb := List.getElem?_eq_getElem hlt
  have htrue : box.onNext[i] = true :=
    List.all_eq_true.mp hw.2 _ (List.getElem_mem _)
  rw [htrue] at hb
  exact h.stored i c true p hc hb hp

/-- A rotation that stops half-way leaves a box with one generation. -/
theorem Holds.promote {plains : List Bytes} {ck nk : Bytes} {box : ChunkedSecureBox}
    (h : Holds P plains ck nk box) (hw : box.Wrapped) : Holds P plains nk nk box.promote := by
  refine { h with current := h.next, valid_ck := h.valid_nk, stored := ?_ }
  intro i c b p hc _ hp
  have hkey : (if b = true then nk else nk) = nk := by split <;> rfl
  rw [hkey]
  exact h.stored_next hw hc hp

/-- A rotation that goes through starts a new generation. -/
theorem Holds.install_retire {plains : List Bytes} {ck nk key : Bytes} {box : ChunkedSecureBox}
    (h : Holds P plains ck nk box) (hw : box.Wrapped) (hne : box.currentGuard ≠ box.nextGuard)
    (hkey : ValidKey key) (pages : ℕ → ℕ × ℕ) :
    Holds P plains nk key
      ((box.install (SplitKeyGuard.new P key pages)).retire box.currentGuard) := by
  obtain ⟨old, hold, -⟩ := reconstruct_eq_ok.mp h.current
  obtain ⟨guard, hguard, hnk⟩ := reconstruct_eq_ok.mp h.next
  have hlt := (List.getElem?_eq_some_iff.mp hold).1
  have hlt' := (List.getElem?_eq_some_iff.mp hguard).1
  refine
    { dataLen := h.dataLen
      current := reconstruct_eq_ok.mpr ⟨guard, ?_, hnk⟩
      next := reconstruct_eq_ok.mpr ⟨_, ?_, SplitKeyGuard.reconstruct_new P key pages⟩
      valid_ck := h.valid_nk
      valid_nk := hkey
      length_chunks := h.length_chunks
      length_onNext := (List.length_replicate).trans h.length_chunks
      stored := ?_
      apart := h.apart
      nextChunk_lt := h.nextChunk_lt }
  · show ((box.guards ++ [SplitKeyGuard.new P key pages]).modify box.currentGuard
      SplitKeyGuard.collapse)[box.nextGuard]? = some guard
    rw [List.getElem?_modify, List.getElem?_append_left hlt', hguard]
    simp [hne]
  · show ((box.guards ++ [SplitKeyGuard.new P key pages]).modify box.currentGuard
      SplitKeyGuard.collapse)[box.guards.length]? = _
    rw [List.getElem?_modify, List.getElem?_concat_length]
    simp [Nat.ne_of_lt hlt]
  · intro i c b p hc hb hp
    change (List.replicate box.chunks.length false)[i]? = some b at hb
    obtain rfl : b = false := List.eq_of_mem_replicate (List.mem_of_getElem? hb)
    exact h.stored_next hw hc hp

/-! ### Runs -/

/-- A box that holds `plains` under two guards: what every complete hop keeps. -/
def Regular (P : Primitives) (plains : List Bytes) (box : ChunkedSecureBox) : Prop :=
  ∃ ck nk, Holds P plains ck nk box ∧ box.currentGuard ≠ box.nextGuard

/-- What happens to a box between its construction and a retrieval. -/
inductive Event
  | hop (env : HopEnv)
  | bounce (cell : ℕ × ℕ)

/-- A hop that returns, or a bounce of a key cell. -/
inductive Step (P : Primitives) : ChunkedSecureBox → Event → ChunkedSecureBox → Prop
  | hop {box : ChunkedSecureBox} {env : HopEnv} :
      (box.hop P env).outcome = .ok () → Step P box (.hop env) (box.hop P env).box
  | bounce {box : ChunkedSecureBox} {cell : ℕ × ℕ} :
      Step P box (.bounce cell) (box.bounce cell)

/-- Bounces move no guard. -/
theorem bounces_guards (box : ChunkedSecureBox) (cells : List (ℕ × ℕ)) :
    (box.bounces cells).currentGuard = box.currentGuard ∧
      (box.bounces cells).nextGuard = box.nextGuard := by
  rw [bounces_eq]
  exact ⟨rfl, rfl⟩

/-- Neither do hops before they rotate. -/
theorem advance_guards_ne {box : ChunkedSecureBox} (hne : box.currentGuard ≠ box.nextGuard)
    (cells : List (ℕ × ℕ)) (pools : List ChunkPool) :
    ((box.bounces cells).advance pools).currentGuard
      ≠ ((box.bounces cells).advance pools).nextGuard := by
  obtain ⟨hcurrent, hnext⟩ := bounces_guards box cells
  show (box.bounces cells).currentGuard ≠ (box.bounces cells).nextGuard
  rwa [hcurrent, hnext]

/-- A hop that returns leaves a regular box. -/
theorem Regular.hop {plains : List Bytes} {box : ChunkedSecureBox} (h : Regular P plains box)
    {env : HopEnv} (hok : (box.hop P env).outcome = .ok ()) :
    Regular P plains (box.hop P env).box := by
  obtain ⟨ck, nk, hold, hne⟩ := h
  obtain ⟨pools, hadv, ⟨-, hhop⟩ | ⟨hw, hhop⟩⟩ := hop_cases hold env
  · rw [hhop]
    exact ⟨ck, nk, hadv, advance_guards_ne hne _ _⟩
  · rw [hhop] at hok ⊢
    have hne₁ := advance_guards_ne hne env.between pools
    set box₁ := (box.bounces env.between).advance pools
    obtain ⟨key, pages, hkey, hrot⟩ := rotate_returned hok
    rw [hrot]
    exact ⟨nk, key, hadv.install_retire hw hne₁ (nextKey_valid hkey) pages,
      Nat.ne_of_lt hadv.nextGuard_lt⟩

/-- Whether it returns or raises in the middle of a rotation, a hop keeps the
plaintexts, as long as the callback does not raise. -/
theorem Regular.hop_holds {plains : List Bytes} {box : ChunkedSecureBox}
    (h : Regular P plains box) {env : HopEnv} (hcall : env.callback = .ok ()) :
    ∃ ck nk, Holds P plains ck nk (box.hop P env).box := by
  obtain ⟨ck, nk, hold, hne⟩ := h
  obtain ⟨pools, hadv, ⟨-, hhop⟩ | ⟨hw, hhop⟩⟩ := hop_cases hold env
  · rw [hhop]
    exact ⟨ck, nk, hadv⟩
  · rw [hhop]
    have hne₁ := advance_guards_ne hne env.between pools
    set box₁ := (box.bounces env.between).advance pools
    obtain ⟨e, hrot, -⟩ | ⟨key, pages, hkey, -, ⟨e, -, he, hrot⟩ | ⟨-, hrot⟩⟩ :=
      rotate_cases P env nk box₁
    · -- the box has been promoted and no more
      rw [hrot]
      exact ⟨nk, nk, hadv.promote hw⟩
    · exact nomatch hcall.symm.trans he
    · rw [hrot]
      exact ⟨nk, key, hadv.install_retire hw hne₁ (nextKey_valid hkey) pages⟩

theorem trustGroup_bounces (box : ChunkedSecureBox) (cells : List (ℕ × ℕ)) :
    (box.bounces cells).trustGroup = box.trustGroup := by
  rw [bounces_eq]

/-- A hop raises only when the world does. -/
theorem Regular.hop_returns {plains : List Bytes} {box : ChunkedSecureBox}
    (h : Regular P plains box) {env : HopEnv}
    (hfetch : box.trustGroup = true → ∃ external, env.fetch = .ok external)
    (hmmap : ∃ pages, env.mmap = .ok pages) (hcall : env.callback = .ok ()) :
    (box.hop P env).outcome = .ok () := by
  obtain ⟨ck, nk, hold, -⟩ := h
  obtain ⟨pools, -, ⟨-, hhop⟩ | ⟨hw, hhop⟩⟩ := hop_cases hold env
  · rw [hhop]
  · rw [hhop]
    rw [← trustGroup_bounces box env.between] at hfetch
    obtain ⟨key, hkey⟩ := nextKey_ok (P := P) nk hfetch
    obtain ⟨m, hm⟩ := hmmap
    obtain ⟨e, -, he | ⟨-, he⟩⟩ | ⟨_, _, -, -, ⟨e, -, he, -⟩ | ⟨-, hrot⟩⟩ :=
      rotate_cases P env nk ((box.bounces env.between).advance pools)
    · exact nomatch hkey.symm.trans he
    · exact nomatch hm.symm.trans he
    · exact nomatch hcall.symm.trans he
    · rw [hrot]

theorem Regular.step {plains : List Bytes} {box box' : ChunkedSecureBox} {event : Event}
    (h : Regular P plains box) (hstep : Step P box event box') : Regular P plains box' := by
  cases hstep with
  | hop hok => exact h.hop hok
  | bounce =>
    obtain ⟨ck, nk, hold, hne⟩ := h
    exact ⟨ck, nk, hold.bounce _, hne⟩

/-- The states a box built as `box₀` can be read in: after a run, or after one last
hop that may have raised in its rotation. -/
inductive Reached (P : Primitives) (box₀ : ChunkedSecureBox) : ChunkedSecureBox → Prop
  | run {events : List Event} {box : ChunkedSecureBox} :
      Run (Step P) box₀ events box → Reached P box₀ box
  | stopped {events : List Event} {box : ChunkedSecureBox} {last : HopEnv}
      {cells : List (ℕ × ℕ)} : Run (Step P) box₀ events box → last.callback = .ok () →
      Reached P box₀ ((box.hop P last).box.bounces cells)

theorem Reached.holds {plains : List Bytes} {box₀ box : ChunkedSecureBox}
    (h : Reached P box₀ box) (h₀ : Regular P plains box₀) :
    ∃ ck nk, Holds P plains ck nk box := by
  cases h with
  | run hrun =>
    obtain ⟨ck, nk, hold, -⟩ := hrun.invariant h₀ Regular.step
    exact ⟨ck, nk, hold⟩
  | stopped hrun hcall =>
    obtain ⟨ck, nk, hold⟩ := (hrun.invariant h₀ Regular.step).hop_holds hcall
    exact ⟨ck, nk, hold.bounces _⟩

/-! ### Retrieval -/

/-- The entry opens to the plaintext `p`. -/
def Opens (P : Primitives) (pools : List ChunkPool) (keys : Bytes × Bytes)
    (entry : Chunk × Bool) (p : Bytes) : Prop :=
  openEntry P pools keys entry = .ok p ∧ entry.1.plainLen = p.length

/-- Every chunk opens to its plaintext. -/
theorem Holds.opens {plains : List Bytes} {ck nk : Bytes} {box : ChunkedSecureBox}
    (h : Holds P plains ck nk box) :
    List.Forall₂ (Opens P box.pools (ck, nk)) box.entries plains := by
  have hlen : box.entries.length = plains.length := by
    rw [entries, List.length_zip, h.length_chunks, h.length_onNext, min_self]
  refine List.forall₂_iff_get.mpr ⟨hlen, fun i hi hi' => ?_⟩
  have hc : i < box.chunks.length := by rw [h.length_chunks]; exact hi'
  have hb : i < box.onNext.length := by rw [h.length_onNext]; exact hi'
  have hentry : box.entries.get ⟨i, hi⟩ = (box.chunks[i], box.onNext[i]) := by
    simp only [entries, List.get_eq_getElem, List.getElem_zip]
  have hstored := h.stored i _ _ _ (List.getElem?_eq_getElem hc) (List.getElem?_eq_getElem hb)
    (List.getElem?_eq_getElem hi')
  rw [hentry]
  exact ⟨decrypt_spec hstored, hstored.plainLen⟩

/-- The loop of `snapshot`. -/
theorem foldlM_opens {pools : List ChunkPool} {keys : Bytes × Bytes}
    {entries : List (Chunk × Bool)} {plains : List Bytes}
    (h : List.Forall₂ (Opens P pools keys) entries plains) (out : Bytes) :
    entries.foldlM (fun out entry => do
      let plaintext ← openEntry P pools keys entry
      return out ++ plaintext.take entry.1.plainLen) out
    = .ok (out ++ plains.flatten) := by
  induction h generalizing out with
  | nil => rw [List.flatten_nil, List.append_nil]; rfl
  | @cons entry p entries plains hentry _ ih =>
    rw [List.foldlM_cons, hentry.1, ok_bind, hentry.2, List.take_length]
    show List.foldlM _ (out ++ p) entries = _
    rw [ih, List.flatten_cons, List.append_assoc]

theorem Holds.paused {plains : List Bytes} {ck nk : Bytes} {box : ChunkedSecureBox}
    (h : Holds P plains ck nk box) (b : Bool) :
    Holds P plains ck nk { box with paused := b } := { h with }

/-- A snapshot is the concatenation of the plaintexts. -/
theorem Holds.snapshot {plains : List Bytes} {ck nk : Bytes} {box : ChunkedSecureBox}
    (h : Holds P plains ck nk box) (between : List (ℕ × ℕ)) :
    (box.snapshot P between).2 = .ok plains.flatten := by
  have hopens := ((h.paused true).bounces between).opens
  have hlen := ((h.paused true).bounces between).dataLen
  have hloop := foldlM_opens hopens []
  rw [List.nil_append] at hloop
  unfold ChunkedSecureBox.snapshot
  rw [(h.paused true).readKeys]
  dsimp only
  rw [hloop]
  dsimp only
  rw [hlen, List.take_length]

/-- **Snapshots.**  A box built from `data`, after any number of complete hops mixed
with bounces of its key cells, returns `data`.  Hops complete as long as the fetch,
the mapping and the callback do, and if one last hop does not, because the fetch or
the mapping raises in its rotation, the box still returns `data`. -/
theorem snapshot_returns_data (P : Primitives) (source : Source) (env : InitEnv) (data : Bytes)
    (chunkSize : ℕ) (hsize : 1 ≤ chunkSize) (trustGroup onNewGuard : Bool)
    (hfetch : trustGroup = true → ∃ external, env.fetch = .ok external) :
    ∃ box₀, construct source P env data chunkSize trustGroup onNewGuard = .ok box₀ ∧
      ∀ events box, Run (Step P) box₀ events box →
        (∀ between, (box.snapshot P between).2 = .ok data) ∧
        ∀ last : HopEnv, last.callback = .ok () →
          ((box.trustGroup = true → ∃ external, last.fetch = .ok external) →
            (∃ pages, last.mmap = .ok pages) → (box.hop P last).outcome = .ok ()) ∧
          ∀ cells between, (((box.hop P last).box.bounces cells).snapshot P between).2
            = .ok data := by
  obtain ⟨box₀, plains, ck, nk, hbuilt, rfl, -, hold, hne⟩ :=
    construct_spec (P := P) source data hsize onNewGuard hfetch
  refine ⟨box₀, hbuilt, fun events box hrun => ?_⟩
  have hreg : Regular P plains box := hrun.invariant ⟨ck, nk, hold, hne⟩ Regular.step
  refine ⟨fun between => ?_, fun last hcall => ⟨fun hf hm => ?_, fun cells between => ?_⟩⟩
  · obtain ⟨_, _, h, -⟩ := hreg
    exact h.snapshot between
  · exact hreg.hop_returns hf hm hcall
  · obtain ⟨_, _, h⟩ := (Reached.stopped hrun hcall).holds ⟨ck, nk, hold, hne⟩
    exact h.snapshot between

/-- A key, pages and nonces for the sample primitives. -/
def InitEnv.sample : InitEnv where
  key := ⟨List.replicate 32 7, by decide⟩
  fetch := .ok [1, 2, 3]
  currentPages i := (2 * i, 2 * i + 1)
  nextPages i := (100 + 2 * i, 101 + 2 * i)
  nonce i := ⟨List.replicate 12 (UInt8.ofNat i), List.length_replicate⟩
  poolAddr i := 1000 + i

theorem snapshot_returns_data_sample :
    ∃ box₀, construct .file Primitives.sample InitEnv.sample [1, 2, 3] 2 true true = .ok box₀ ∧
      ∀ events box, Run (Step Primitives.sample) box₀ events box →
        (∀ between, (box.snapshot Primitives.sample between).2 = .ok [1, 2, 3]) ∧
        ∀ last : HopEnv, last.callback = .ok () →
          ((box.trustGroup = true → ∃ external, last.fetch = .ok external) →
            (∃ pages, last.mmap = .ok pages) →
            (box.hop Primitives.sample last).outcome = .ok ()) ∧
          ∀ cells between, (((box.hop Primitives.sample last).box.bounces cells).snapshot
            Primitives.sample between).2 = .ok [1, 2, 3] :=
  snapshot_returns_data Primitives.sample .file InitEnv.sample [1, 2, 3] 2 (by decide) true true
    fun _ => ⟨[1, 2, 3], rfl⟩

end ChunkedSecureBox
