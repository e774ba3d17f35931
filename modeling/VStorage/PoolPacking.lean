/-
A pool list over its whole life.

`Packing` is the pool list of one box with the chunks packed into it, and for each
chunk the plaintext it was made from and the key it is under.  `exec` gives it one
call of `_new_chunk` or of `reencrypt`, with any arguments.

* `OnlySlot`: what a re-encryption may change, the bytes of one slot;
* `Packing.Wf`: the slots lie inside their pools and apart from each other;
* `pool_packing`: so it is after any calls, and every chunk keeps its plaintext.
-/
import Mathlib
import VStorage.ChunkPool

/-- A ciphertext that decrypts is 16 bytes longer than what it decrypts to, under
any key: the documented length law of AES-GCM. -/
def Primitives.LengthDecrypt (P : Primitives) : Prop :=
  ∀ (key nonce ct data : Bytes), P.decrypt key nonce ct = .ok data →
    ct.length = data.length + 16

/-! ### Slots -/

/-- The chunk's slot lies in a live pool, below the cursor. -/
def Chunk.Inside (pools : List ChunkPool) (c : Chunk) : Prop :=
  ∃ pool, pools[c.pool]? = some pool ∧ pool.Live ∧ c.stop ≤ pool.cursor

/-- `pools'` is `pools` but for bytes of the slot of `c`. -/
def Chunk.OnlySlot (c : Chunk) (pools pools' : List ChunkPool) : Prop :=
  pools'.length = pools.length ∧
    ∀ (k : ℕ) (pool : ChunkPool), pools[k]? = some pool → ∃ pool', pools'[k]? = some pool' ∧
      pool'.cursor = pool.cursor ∧ pool'.buf.size = pool.buf.size ∧
      pool'.closed = pool.closed ∧
      ∀ x, (k = c.pool → x < c.offset ∨ c.stop ≤ x) → pool'.buf.cell x = pool.buf.cell x

theorem Chunk.Stored.inside {P : Primitives} {pools : List ChunkPool} {key plaintext : Bytes}
    {c : Chunk} (h : c.Stored P pools key plaintext) : c.Inside pools := by
  obtain ⟨pool, -, -, hpool, hlive, hstop, -⟩ := h.slot
  exact ⟨pool, hpool, hlive, hstop⟩

/-- A chunk that reads what it read before holds what it held before. -/
theorem Chunk.Stored.of_payload {P : Primitives} {pools pools' : List ChunkPool}
    {key plaintext : Bytes} {d : Chunk} (h : d.Stored P pools key plaintext)
    (hin : d.Inside pools') (hsame : d.payload pools' = d.payload pools) :
    d.Stored P pools' key plaintext := by
  obtain ⟨nonce, ct, hpayload, henc, hlen⟩ := h.payload
  obtain ⟨pool, hpool, hlive, hstop⟩ := hin
  have hsize := hlive.cursor_le
  rw [Chunk.payload_slot hpool hlive, hpayload] at hsame
  obtain ⟨hn, hct⟩ := Prod.mk.inj (Except.ok.inj hsame)
  refine ⟨h.plainLen, pool, nonce, ct, hpool, hlive, hstop, henc, hlen, ?_⟩
  rw [Buffer.read_add (by unfold Chunk.stop at hstop; omega), hn, hct]

/-- A read sees only the cells it covers. -/
theorem Buffer.read_congr {α : Type*} {b b' : Buffer α} {o n : ℕ} (hsize : b'.size = b.size)
    (h : ∀ x, o ≤ x → x < o + n → b'.cell x = b.cell x) : b'.read o n = b.read o n := by
  rw [Buffer.read, Buffer.read, hsize]
  refine List.map_congr_left fun i hi => ?_
  have hin : i < n := lt_of_lt_of_le (List.mem_range.mp hi) (min_le_left _ _)
  exact h _ (Nat.le_add_right _ _) (by omega)

/-- A chunk reads only the bytes of its own slot. -/
theorem Chunk.payload_congr {d : Chunk} {pools pools' : List ChunkPool}
    {pool pool' : ChunkPool} (hpool : pools[d.pool]? = some pool)
    (hpool' : pools'[d.pool]? = some pool') (hclosed : pool'.closed = pool.closed)
    (hsize : pool'.buf.size = pool.buf.size)
    (hcell : ∀ x, d.offset ≤ x → x < d.stop → pool'.buf.cell x = pool.buf.cell x) :
    d.payload pools' = d.payload pools := by
  have hnonce : pool'.slice d.offset nonceLen = pool.slice d.offset nonceLen := by
    rw [ChunkPool.slice, ChunkPool.slice, hclosed, Buffer.read_congr hsize]
    intro x h1 h2
    exact hcell x h1 (by unfold Chunk.stop; omega)
  have hct : pool'.slice (d.offset + nonceLen) d.payloadLen
      = pool.slice (d.offset + nonceLen) d.payloadLen := by
    rw [ChunkPool.slice, ChunkPool.slice, hclosed, Buffer.read_congr hsize]
    intro x h1 h2
    exact hcell x (by omega) h2
  rw [Chunk.payload, Chunk.payload, pyIndex_natCast hpool, pyIndex_natCast hpool', ok_bind,
    ok_bind, hnonce, hct]

theorem Chunk.decrypt_congr {P : Primitives} {d : Chunk} {pools pools' : List ChunkPool}
    (h : d.payload pools' = d.payload pools) (key : Bytes) :
    d.decrypt P pools' key = d.decrypt P pools key := by
  rw [Chunk.decrypt, Chunk.decrypt, h]

namespace Chunk.OnlySlot

variable {c d : Chunk} {pools pools' : List ChunkPool}

theorem inside (h : c.OnlySlot pools pools') (hd : d.Inside pools) : d.Inside pools' := by
  obtain ⟨pool, hpool, hlive, hstop⟩ := hd
  obtain ⟨pool', hpool', hcursor, hsize, hclosed, -⟩ := h.2 d.pool pool hpool
  refine ⟨pool', hpool', ⟨hclosed.trans hlive.open_, ?_⟩, ?_⟩
  · rw [hcursor, hsize]
    exact hlive.cursor_le
  · rw [hcursor]
    exact hstop

/-- A chunk apart from the one rewritten reads what it read before. -/
theorem payload (h : c.OnlySlot pools pools') (hapart : c.Apart d) (hd : d.Inside pools) :
    d.payload pools' = d.payload pools := by
  obtain ⟨pool, hpool, -, -⟩ := hd
  obtain ⟨pool', hpool', -, hsize, hclosed, hcell⟩ := h.2 d.pool pool hpool
  refine Chunk.payload_congr hpool hpool' hclosed hsize fun x h1 h2 => hcell x fun hi => ?_
  rcases hapart hi.symm with hbefore | hafter
  · right
    omega
  · left
    omega

theorem live (h : c.OnlySlot pools pools') (hlive : ∀ p ∈ pools, p.Live) :
    ∀ p ∈ pools', p.Live := by
  intro p hp
  obtain ⟨k, hk⟩ := List.getElem?_of_mem hp
  have hlt : k < pools.length := by
    rw [← h.1]
    exact (List.getElem?_eq_some_iff.mp hk).1
  obtain ⟨pool', hpool', hcursor, hsize, hclosed, -⟩ :=
    h.2 k (pools[k]) (List.getElem?_eq_getElem hlt)
  obtain rfl : p = pool' := Option.some.inj (hk.symm.trans hpool')
  have hold := hlive _ (List.getElem_mem hlt)
  refine ⟨hclosed.trans hold.open_, ?_⟩
  rw [hcursor, hsize]
  exact hold.cursor_le

end Chunk.OnlySlot

/-! ### What the calls do to the slots -/

/-- The second `try_allocate`, on a pool made for the request, never returns `None`. -/
theorem tryAllocate_new (length addr : ℕ) :
    ((ChunkPool.new (max poolSize length) addr).tryAllocate length).2 = some 0 := by
  rw [tryAllocate_fresh]

/-- An allocation gives room past everything that lies in the pools so far, and
changes no byte. -/
theorem allocate_frame {pools pools' : List ChunkPool} {length addr i o : ℕ}
    (h : allocate pools length addr = .ok (pools', i, o)) {d : Chunk} (hd : d.Inside pools) :
    d.Inside pools' ∧ (d.pool = i → d.stop ≤ o) ∧ d.payload pools' = d.payload pools := by
  obtain ⟨pool, hpool, hlive, hstop⟩ := hd
  have hlt := (List.getElem?_eq_some_iff.mp hpool).1
  -- a new pool comes after all others
  have hfresh : freshPool pools length addr = .ok (pools', i, o) →
      d.Inside pools' ∧ (d.pool = i → d.stop ≤ o) ∧ d.payload pools' = d.payload pools := by
    intro h
    unfold freshPool at h
    split at h
    · simp only [Except.ok.injEq, Prod.mk.injEq] at h
      obtain ⟨rfl, rfl, -⟩ := h
      have hget := @List.getElem?_append_left _ _ [‹ChunkPool›] _ hlt
      rw [hpool] at hget
      refine ⟨⟨pool, hget, hlive, hstop⟩, fun hi => absurd hi (by omega), ?_⟩
      exact Chunk.payload_congr hpool hget rfl rfl fun _ _ _ => rfl
    · exact nomatch h
  unfold allocate at h
  cases hlast : pools.getLast? with
  | none =>
    rw [hlast] at h
    exact hfresh h
  | some last =>
    rw [hlast] at h
    have hget : pools[pools.length - 1]? = some last := by
      rw [← List.getLast?_eq_getElem?, hlast]
    rcases halloc : last.tryAllocate length with ⟨last', _ | o'⟩
    · simp only [halloc] at h
      exact hfresh h
    · obtain ⟨rfl, rfl, hroom⟩ := ChunkPool.tryAllocate_some halloc
      simp only [halloc, Except.ok.injEq, Prod.mk.injEq] at h
      obtain ⟨rfl, rfl, rfl⟩ := h
      by_cases hi : d.pool = pools.length - 1
      · obtain rfl : pool = last := by
          rw [hi, hget] at hpool
          exact (Option.some.inj hpool).symm
        have hset : (pools.set (pools.length - 1)
            { pool with cursor := pool.cursor + length })[d.pool]?
              = some { pool with cursor := pool.cursor + length } := by
          rw [hi]
          exact List.getElem?_set_self (by omega)
        refine ⟨⟨_, hset, ⟨hlive.open_, hroom⟩, ?_⟩, fun _ => hstop, ?_⟩
        · exact le_trans hstop (Nat.le_add_right _ _)
        · exact Chunk.payload_congr hpool hset rfl rfl fun _ _ _ => rfl
      · have hset : (pools.set (pools.length - 1)
            { last with cursor := last.cursor + length })[d.pool]? = some pool := by
          rw [List.getElem?_set_ne (Ne.symm hi), hpool]
        refine ⟨⟨pool, hset, hlive, hstop⟩, fun h => absurd h hi, ?_⟩
        exact Chunk.payload_congr hpool hset rfl rfl fun _ _ _ => rfl

/-- Writing a slot full touches nothing else. -/
theorem onlySlot_set {c : Chunk} {pools : List ChunkPool} {pool : ChunkPool} {data : Bytes}
    (hpool : pools[c.pool]? = some pool) (hlen : c.offset + data.length = c.stop) :
    c.OnlySlot pools (pools.set c.pool { pool with buf := pool.buf.write c.offset data }) := by
  refine ⟨List.length_set, ?_⟩
  intro k old hold
  by_cases hk : c.pool = k
  · subst hk
    obtain rfl : pool = old := Option.some.inj (hpool.symm.trans hold)
    refine ⟨_, List.getElem?_set_self (List.getElem?_eq_some_iff.mp hpool).1, rfl, rfl, rfl,
      ?_⟩
    intro x hx
    rcases hx rfl with hbefore | hafter
    · exact Buffer.write_cell_of_lt hbefore
    · exact Buffer.write_cell_of_ge (by omega)
  · exact ⟨old, (List.getElem?_set_ne hk).trans hold, rfl, rfl, rfl, fun _ _ => rfl⟩

/-- A re-encryption that returns has rewritten its own slot and nothing else, whatever
the keys. -/
theorem reencrypt_onlySlot {P : Primitives} (hlength : P.LengthDecrypt)
    {pools pools' : List ChunkPool} {c : Chunk} (hc : c.Inside pools)
    {currentKey newKey : Bytes} {nonce : Nonce}
    (h : c.reencrypt P pools currentKey newKey nonce = .ok pools') :
    c.OnlySlot pools pools' := by
  obtain ⟨pool, hpool, hlive, hstop⟩ := hc
  have hsize := hlive.cursor_le
  have hn : nonce.1.length = nonceLen := nonce.2
  rw [Chunk.reencrypt_eq] at h
  obtain ⟨⟨oldNonce, oldCt⟩, hpayload, h⟩ := bind_eq_ok.mp h
  obtain ⟨compressed, hdec, h⟩ := bind_eq_ok.mp h
  obtain ⟨ct, henc, h⟩ := bind_eq_ok.mp h
  -- the slot was full, so the old ciphertext has the length the chunk records
  have hold : oldCt.length = c.payloadLen := by
    rw [Chunk.payload_slot hpool hlive] at hpayload
    have hct := (Prod.mk.inj (Except.ok.inj hpayload)).2
    rw [← hct]
    exact Buffer.length_read_of_le (by unfold Chunk.stop at hstop; omega)
  have hnew : ct.length = c.payloadLen := by
    rw [P.length_encrypt henc, ← hlength _ _ _ _ hdec, hold]
  rw [storePayload_ok hpool hlive (by unfold Chunk.stop at hstop; omega)] at h
  obtain rfl := Except.ok.inj h
  refine onlySlot_set hpool ?_
  rw [List.length_append, hn, hnew, Chunk.stop]
  omega

/-- A re-encryption that raises does so before it writes: the old ciphertext did not
decrypt, or the new key is refused. -/
theorem reencrypt_error {P : Primitives} (hlength : P.LengthDecrypt)
    {pools : List ChunkPool} {c : Chunk} (hc : c.Inside pools)
    {currentKey newKey : Bytes} {nonce : Nonce} {e : PyError}
    (h : c.reencrypt P pools currentKey newKey nonce = .error e) :
    ∃ oldNonce oldCt, c.payload pools = .ok (oldNonce, oldCt) ∧
      (P.decrypt currentKey oldNonce oldCt = .error e ∨
        ∃ data, P.decrypt currentKey oldNonce oldCt = .ok data ∧
          P.encrypt newKey nonce data = .error e) := by
  obtain ⟨pool, hpool, hlive, hstop⟩ := hc
  have hsize := hlive.cursor_le
  have hpayload := Chunk.payload_slot hpool hlive
  refine ⟨_, _, hpayload, ?_⟩
  rw [Chunk.reencrypt_eq, hpayload, ok_bind] at h
  rcases bind_eq_error.mp h with hdec | ⟨data, hdec, h⟩
  · exact Or.inl hdec
  · rcases bind_eq_error.mp h with henc | ⟨ct, henc, h⟩
    · exact Or.inr ⟨data, hdec, henc⟩
    · -- the new ciphertext fits where the old one was
      have hfit : c.offset + nonceLen + ct.length ≤ pool.buf.size := by
        rw [P.length_encrypt henc, ← hlength _ _ _ _ hdec, Buffer.length_read_of_le
          (by unfold Chunk.stop at hstop; omega)]
        unfold Chunk.stop at hstop
        omega
      rw [storePayload_ok hpool hlive hfit] at h
      cases h

/-- `_new_chunk` raises only what `encrypt` raises. -/
theorem newChunk_error {P : Primitives} {pools : List ChunkPool} (hlive : ∀ p ∈ pools, p.Live)
    {plaintext key : Bytes} {nonce : Nonce} {addr : ℕ} {e : PyError}
    (h : newChunk P pools plaintext key nonce addr = .error e) :
    P.encrypt key nonce (P.pack plaintext) = .error e := by
  rw [newChunk_eq] at h
  rcases bind_eq_error.mp h with henc | ⟨ct, -, h⟩
  · exact henc
  · obtain ⟨pools₁, i, o, halloc, hlive₁, ⟨pool, hpool, hcursor⟩, -⟩ :=
      allocate_spec hlive (nonceLen + ct.length) addr
    have hpl := hlive₁ pool (List.mem_of_getElem? hpool)
    have hsize := hpl.cursor_le
    rw [halloc, ok_bind] at h
    change storePayload pools₁ i o nonce ct >>= _ = _ at h
    rw [storePayload_ok hpool hpl (by omega)] at h
    cases h

/-- A new chunk, taken apart: the room it was given, and the pools before and after the
payload is written there. -/
theorem newChunk_cases {P : Primitives} {pools pools' : List ChunkPool}
    (hlive : ∀ p ∈ pools, p.Live) {plaintext key : Bytes} {nonce : Nonce} {addr : ℕ} {c : Chunk}
    (h : newChunk P pools plaintext key nonce addr = .ok (pools', c)) :
    ∃ ct pools₁ pool, P.encrypt key nonce (P.pack plaintext) = .ok ct ∧
      allocate pools (nonceLen + ct.length) addr = .ok (pools₁, c.pool, c.offset) ∧
      (∀ p ∈ pools₁, p.Live) ∧ pools₁[c.pool]? = some pool ∧ c.stop = pool.cursor ∧
      c.plainLen = plaintext.length ∧ c.payloadLen = ct.length ∧
      pools' = pools₁.set c.pool { pool with buf := pool.buf.write c.offset (nonce ++ ct) } := by
  rw [newChunk_eq] at h
  obtain ⟨ct, henc, h⟩ := bind_eq_ok.mp h
  obtain ⟨pools₁, i, o, halloc, hlive₁, ⟨pool, hpool, hcursor⟩, -⟩ :=
    allocate_spec hlive (nonceLen + ct.length) addr
  have hpl := hlive₁ pool (List.mem_of_getElem? hpool)
  have hsize := hpl.cursor_le
  rw [halloc, ok_bind] at h
  change storePayload pools₁ i o nonce ct >>= _ = _ at h
  rw [storePayload_ok hpool hpl (by omega), ok_bind] at h
  obtain ⟨rfl, rfl⟩ := Prod.mk.inj (Except.ok.inj h)
  refine ⟨ct, pools₁, pool, henc, halloc, hlive₁, hpool, ?_, rfl, rfl, rfl⟩
  rw [← hcursor, Chunk.stop]
  exact Nat.add_assoc _ _ _

section NewChunk

variable {P : Primitives} {pools pools' : List ChunkPool} {plaintext key : Bytes}
  {nonce : Nonce} {addr : ℕ} {c d : Chunk}

/-- A new chunk holds its plaintext under its key. -/
theorem newChunk_stored (hlive : ∀ p ∈ pools, p.Live)
    (h : newChunk P pools plaintext key nonce addr = .ok (pools', c)) :
    (∀ p ∈ pools', p.Live) ∧ c.Stored P pools' key plaintext := by
  obtain ⟨ct, pools₁, pool, henc, -, hlive₁, hpool, hstop, hplain, hct, rfl⟩ :=
    newChunk_cases hlive h
  have hpl := hlive₁ pool (List.mem_of_getElem? hpool)
  have hsize := hpl.cursor_le
  have hpl' : ({ pool with buf := pool.buf.write c.offset (nonce ++ ct) } : ChunkPool).Live :=
    ⟨hpl.open_, hpl.cursor_le⟩
  exact ⟨ChunkPool.live_set hlive₁ hpl' _,
    Chunk.stored_write hpool hpl (le_of_eq hstop) hplain henc hct.symm⟩

/-- Everything older is apart from a new chunk and reads what it read. -/
theorem newChunk_frame (hlive : ∀ p ∈ pools, p.Live)
    (h : newChunk P pools plaintext key nonce addr = .ok (pools', c)) (hd : d.Inside pools) :
    d.Inside pools' ∧ d.Apart c ∧ d.payload pools' = d.payload pools := by
  obtain ⟨ct, pools₁, pool, -, halloc, -, hpool, -, -, hct, rfl⟩ := newChunk_cases hlive h
  have hn : nonce.1.length = nonceLen := nonce.2
  obtain ⟨hin, hbefore, hsame⟩ := allocate_frame halloc hd
  have hapart : d.Apart c := fun hi => Or.inl (hbefore hi)
  have honly : c.OnlySlot pools₁
      (pools₁.set c.pool { pool with buf := pool.buf.write c.offset (nonce ++ ct) }) := by
    refine onlySlot_set hpool ?_
    rw [List.length_append, hn, Chunk.stop, hct]
    exact (Nat.add_assoc _ _ _).symm
  exact ⟨honly.inside hin, hapart, (honly.payload hapart.symm hin).trans hsame⟩

end NewChunk

theorem Primitives.sample_lengthDecrypt : Primitives.sample.LengthDecrypt := by
  intro key nonce ct data h
  change (if ¬ ValidKey key then _ else if ct.drop (ct.length - 16) = sampleTag key nonce
    then Except.ok (ct.take (ct.length - 16)) else _) = _ at h
  split at h
  · exact nomatch h
  · split at h
    · rename_i htag
      obtain rfl := Except.ok.inj h
      have htaglen : (ct.drop (ct.length - 16)).length = 16 := by
        rw [htag, sampleTag, length_fitTo]
      rw [List.length_drop] at htaglen
      rw [List.length_take]
      omega
    · exact nomatch h

/-! ### Any calls -/

/-- A chunk with the plaintext it was made from and the key it is under: `none` once it
has been re-encrypted from a key that was not its own. -/
structure Packed where
  chunk : Chunk
  plaintext : Bytes
  ownKey : Option Bytes

/-- The key a chunk is under after a re-encryption that returned. -/
def Packed.moved (x : Packed) (currentKey newKey : Bytes) : Packed :=
  { x with ownKey := if x.ownKey = some currentKey then some newKey else none }

/-- One pool list and the chunks packed into it, in the order they were made. -/
structure Packing where
  pools : List ChunkPool := []
  chunks : List Packed := []

namespace Packing

/-- A call of `_new_chunk`, with the key, the nonce drawn and the address of a new pool's
mapping, or of `reencrypt` on the `i`-th chunk. -/
inductive Call
  | newChunk (plaintext key : Bytes) (nonce : Nonce) (addr : ℕ)
  | reencrypt (i : ℕ) (currentKey newKey : Bytes) (nonce : Nonce)

/-- What a call does.  A call that raises leaves everything as it was:
`newChunk_error` and `reencrypt_error` say that it raises before it writes. -/
def exec (P : Primitives) (s : Packing) : Call → Packing
  | .newChunk plaintext key nonce addr =>
    match newChunk P s.pools plaintext key nonce addr with
    | .ok (pools, c) => { pools := pools, chunks := s.chunks ++ [⟨c, plaintext, some key⟩] }
    | .error _ => s
  | .reencrypt i currentKey newKey nonce =>
    match s.chunks[i]? with
    | none => s
    | some x =>
      match x.chunk.reencrypt P s.pools currentKey newKey nonce with
      | .ok pools => { pools := pools, chunks := s.chunks.set i (x.moved currentKey newKey) }
      | .error _ => s

/-- The slots lie inside their pools, apart from each other, and a chunk whose key is
known holds its plaintext under it. -/
structure Wf (P : Primitives) (s : Packing) : Prop where
  live : ∀ p ∈ s.pools, p.Live
  inside : ∀ x ∈ s.chunks, x.chunk.Inside s.pools
  apart : s.chunks.Pairwise fun x y => x.chunk.Apart y.chunk
  kept : ∀ x ∈ s.chunks, ∀ key, x.ownKey = some key →
    x.chunk.Stored P s.pools key x.plaintext

theorem Wf.empty (P : Primitives) : Wf P {} where
  live _ hp := nomatch hp
  inside _ hx := nomatch hx
  apart := List.Pairwise.nil
  kept _ hx := nomatch hx

variable {P : Primitives} {s : Packing}

/-- Two chunks at different places are apart. -/
theorem Wf.apart_of_ne (h : Wf P s) {i j : ℕ} {x y : Packed} (hx : s.chunks[i]? = some x)
    (hy : s.chunks[j]? = some y) (hne : i ≠ j) : x.chunk.Apart y.chunk := by
  obtain ⟨hi, rfl⟩ := List.getElem?_eq_some_iff.mp hx
  obtain ⟨hj, rfl⟩ := List.getElem?_eq_some_iff.mp hy
  rcases Nat.lt_or_gt_of_ne hne with hlt | hlt
  · exact List.pairwise_iff_getElem.mp h.apart i j hi hj hlt
  · exact (List.pairwise_iff_getElem.mp h.apart j i hj hi hlt).symm

/-- A new chunk joins. -/
theorem Wf.newChunk (h : Wf P s) {plaintext key : Bytes} {nonce : Nonce} {addr : ℕ}
    {pools : List ChunkPool} {c : Chunk}
    (hnew : newChunk P s.pools plaintext key nonce addr = .ok (pools, c)) :
    Wf P { pools := pools, chunks := s.chunks ++ [⟨c, plaintext, some key⟩] } := by
  obtain ⟨hlive, hstored⟩ := newChunk_stored h.live hnew
  refine ⟨hlive, ?_, ?_, ?_⟩
  · intro x hx
    rcases List.mem_append.mp hx with hx | hx
    · exact (newChunk_frame h.live hnew (h.inside x hx)).1
    · rw [List.mem_singleton.mp hx]
      exact hstored.inside
  · refine List.pairwise_append.mpr ⟨h.apart, List.pairwise_singleton _ _, ?_⟩
    intro x hx y hy
    rw [List.mem_singleton.mp hy]
    exact (newChunk_frame h.live hnew (h.inside x hx)).2.1
  · intro x hx key' hkey
    rcases List.mem_append.mp hx with hx | hx
    · obtain ⟨hin, -, hsame⟩ := newChunk_frame h.live hnew (h.inside x hx)
      exact (h.kept x hx key' hkey).of_payload hin hsame
    · obtain rfl := List.mem_singleton.mp hx
      obtain rfl := Option.some.inj hkey
      exact hstored

/-- A chunk re-encrypted from its own key holds its plaintext under the new one. -/
theorem reencrypt_stored {pools pools' : List ChunkPool} {c : Chunk}
    {currentKey newKey plaintext : Bytes} {nonce : Nonce}
    (h : c.Stored P pools currentKey plaintext)
    (hcall : c.reencrypt P pools currentKey newKey nonce = .ok pools') :
    c.Stored P pools' newKey plaintext := by
  obtain ⟨pool, -, -, hpool, hlive, hstop, -⟩ := h.slot
  have hsize := hlive.cursor_le
  rw [h.reencrypt_eq] at hcall
  obtain ⟨ct, henc, hcall⟩ := bind_eq_ok.mp hcall
  have hlen := h.length_encrypt henc
  rw [storePayload_ok hpool hlive (by unfold Chunk.stop at hstop; omega)] at hcall
  obtain rfl := Except.ok.inj hcall
  exact Chunk.stored_write hpool hlive hstop h.plainLen henc hlen

/-- One chunk is re-encrypted. -/
theorem Wf.reencrypt (hlength : P.LengthDecrypt) (h : Wf P s) {i : ℕ} {x : Packed}
    (hx : s.chunks[i]? = some x) {currentKey newKey : Bytes} {nonce : Nonce}
    {pools : List ChunkPool}
    (hcall : x.chunk.reencrypt P s.pools currentKey newKey nonce = .ok pools) :
    Wf P { pools := pools, chunks := s.chunks.set i (x.moved currentKey newKey) } := by
  have hmem := List.mem_of_getElem? hx
  have honly := reencrypt_onlySlot hlength (h.inside x hmem) hcall
  -- the slots are where they were, so only what they hold needs an argument
  have hslots : (s.chunks.set i (x.moved currentKey newKey)).map Packed.chunk
      = s.chunks.map Packed.chunk := by
    have hget : (s.chunks.map Packed.chunk)[i]? = some x.chunk := by
      rw [List.getElem?_map, hx]
      rfl
    obtain ⟨hi, hv⟩ := List.getElem?_eq_some_iff.mp hget
    rw [List.map_set]
    show (s.chunks.map Packed.chunk).set i x.chunk = _
    rw [← hv]
    exact List.set_getElem_self hi
  refine ⟨honly.live h.live, ?_, ?_, ?_⟩
  · intro y hy
    rcases List.mem_or_eq_of_mem_set hy with hy | rfl
    · exact honly.inside (h.inside y hy)
    · exact honly.inside (h.inside x hmem)
  · have hapart := List.pairwise_map.mpr h.apart
    rw [← hslots] at hapart
    exact List.pairwise_map.mp hapart
  · intro y hy key hkey
    obtain ⟨j, hj⟩ := List.getElem?_of_mem hy
    by_cases hij : i = j
    · subst hij
      change (s.chunks.set i (x.moved currentKey newKey))[i]? = some y at hj
      rw [List.getElem?_set_self (List.getElem?_eq_some_iff.mp hx).1] at hj
      obtain rfl := Option.some.inj hj
      unfold Packed.moved at hkey
      split at hkey
      · rename_i hown
        obtain rfl := Option.some.inj hkey
        exact reencrypt_stored (h.kept x hmem _ hown) hcall
      · exact nomatch hkey
    · change (s.chunks.set i (x.moved currentKey newKey))[j]? = some y at hj
      rw [List.getElem?_set_ne hij] at hj
      have hy := List.mem_of_getElem? hj
      have hin := h.inside y hy
      exact (h.kept y hy key hkey).of_payload (honly.inside hin)
        (honly.payload (h.apart_of_ne hx hj hij) hin)

theorem Wf.exec (hlength : P.LengthDecrypt) (h : Wf P s) (call : Call) :
    Wf P (s.exec P call) := by
  cases call with
  | newChunk plaintext key nonce addr =>
    rw [Packing.exec]
    split
    · exact h.newChunk ‹_›
    · exact h
  | reencrypt i currentKey newKey nonce =>
    rw [Packing.exec]
    split
    · exact h
    · split
      · exact h.reencrypt hlength ‹_› ‹_›
      · exact h

theorem Wf.run (hlength : P.LengthDecrypt) (h : Wf P s) (calls : List Call) :
    Wf P (calls.foldl (Packing.exec P) s) := by
  induction calls generalizing s with
  | nil => exact h
  | cons call calls ih => exact ih (h.exec hlength call)

end Packing

open Packing in
/-- **Pool packing.**  Any calls of `_new_chunk` and `reencrypt` on one pool list, in any
order, leave the slots inside their pools and pairwise apart, and every chunk whose key is
known decrypts to its own plaintext.  A further `_new_chunk` raises only what `encrypt`
raises, a further `reencrypt` changes bytes of its own slot only, or none if it raises, and
every other chunk decrypts under any key to what it did. -/
theorem pool_packing {P : Primitives} (hlength : P.LengthDecrypt) (calls : List Call)
    {s : Packing} (hs : s = calls.foldl (Packing.exec P) {}) :
    (s.chunks.Pairwise fun x y => x.chunk.Apart y.chunk) ∧
    (∀ x ∈ s.chunks, ∃ pool, s.pools[x.chunk.pool]? = some pool ∧
      x.chunk.offset + nonceLen + x.chunk.payloadLen ≤ pool.buf.size) ∧
    (∀ x ∈ s.chunks, ∀ key, x.ownKey = some key →
      x.chunk.decrypt P s.pools key = .ok x.plaintext) ∧
    (∀ length addr : ℕ, ((ChunkPool.new (max poolSize length) addr).tryAllocate length).2
      = some 0) ∧
    (∀ plaintext key nonce addr e, newChunk P s.pools plaintext key nonce addr = .error e →
      P.encrypt key nonce (P.pack plaintext) = .error e) ∧
    ∀ (i : ℕ) (x : Packed) (currentKey newKey : Bytes) (nonce : Nonce),
      s.chunks[i]? = some x →
      match x.chunk.reencrypt P s.pools currentKey newKey nonce with
      | .ok pools => x.chunk.OnlySlot s.pools pools ∧
        ∀ (j : ℕ) (y : Packed), j ≠ i → s.chunks[j]? = some y → ∀ key,
          y.chunk.decrypt P pools key = y.chunk.decrypt P s.pools key
      | .error e => ∃ oldNonce oldCt, x.chunk.payload s.pools = .ok (oldNonce, oldCt) ∧
        (P.decrypt currentKey oldNonce oldCt = .error e ∨
          ∃ data, P.decrypt currentKey oldNonce oldCt = .ok data ∧
            P.encrypt newKey nonce data = .error e) := by
  have hwf : Wf P s := by
    rw [hs]
    exact (Wf.empty P).run hlength calls
  refine ⟨hwf.apart, ?_, ?_, tryAllocate_new, ?_, ?_⟩
  · intro x hx
    obtain ⟨pool, hpool, hlive, hstop⟩ := hwf.inside x hx
    exact ⟨pool, hpool, le_trans hstop hlive.cursor_le⟩
  · intro x hx key hkey
    exact decrypt_spec (hwf.kept x hx key hkey)
  · intro plaintext key nonce addr e h
    exact newChunk_error hwf.live h
  · intro i x currentKey newKey nonce hx
    have hin := hwf.inside x (List.mem_of_getElem? hx)
    split
    · rename_i pools hcall
      have honly := reencrypt_onlySlot hlength hin hcall
      refine ⟨honly, ?_⟩
      intro j y hne hy key
      have hyin := hwf.inside y (List.mem_of_getElem? hy)
      exact Chunk.decrypt_congr (honly.payload (hwf.apart_of_ne hx hy (Ne.symm hne)) hyin) key
    · exact reencrypt_error hlength hin ‹_›

/-- Two chunks made and the first of them moved to a third key. -/
def Packing.sampleCalls : List Packing.Call :=
  [.newChunk [7] (List.replicate 32 0) ⟨List.replicate 12 0, rfl⟩ 4096,
    .newChunk [] (List.replicate 32 1) ⟨List.replicate 12 0, rfl⟩ 0,
    .reencrypt 0 (List.replicate 32 0) (List.replicate 32 2) ⟨List.replicate 12 1, rfl⟩]

theorem pool_packing_pair :
    (Packing.sampleCalls.foldl (Packing.exec Primitives.sample) {}).chunks.map Packed.ownKey
        = [some (List.replicate 32 2), some (List.replicate 32 1)] ∧
      ∀ x ∈ (Packing.sampleCalls.foldl (Packing.exec Primitives.sample) {}).chunks, ∀ key,
        x.ownKey = some key → x.chunk.decrypt Primitives.sample
          (Packing.sampleCalls.foldl (Packing.exec Primitives.sample) {}).pools key
            = .ok x.plaintext :=
  ⟨by decide +kernel, (pool_packing Primitives.sample_lengthDecrypt Packing.sampleCalls rfl).2.2.1⟩
