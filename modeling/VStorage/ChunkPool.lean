/-
Chunks packed into pools: `_ChunkPool`, `_new_chunk` and `_Chunk`.

A chunk is a slot of a pool that holds a nonce and a ciphertext.  Pools are filled
by a bump cursor and a slot is never moved, so the slots of different chunks stay
apart.  Three specifications carry everything the boxes need:

* `newChunk_spec`: a new chunk holds its plaintext, away from every older one;
* `reencrypt_spec`: re-encryption changes the key of one chunk and nothing else;
* `decrypt_spec`: a chunk decrypts to what it holds.
-/
import Mathlib
import VStorage.Buffer
import VStorage.SplitKeyGuard
import VStorage.Traced

/-- `_POOL_SIZE`. -/
def poolSize : ℕ := 64 * 1024 * 1024

/-- `NONCE_LEN`. -/
def nonceLen : ℕ := 12

/-! ### Pools -/

/-- `_ChunkPool`, with the address of its mapping. -/
structure ChunkPool where
  buf : Buffer UInt8
  cursor : ℕ
  addr : ℕ
  closed : Bool

namespace ChunkPool

def new (size addr : ℕ) : ChunkPool :=
  { buf := Buffer.replicate size 0, cursor := 0, addr := addr, closed := false }

/-- `try_allocate`. -/
def tryAllocate (pool : ChunkPool) (length : ℕ) : ChunkPool × Option ℕ :=
  if pool.cursor + length > pool.buf.size then (pool, none)
  else ({ pool with cursor := pool.cursor + length }, some pool.cursor)

def region (pool : ChunkPool) : Region := (pool.addr, pool.buf.size)

def collapse (pool : ChunkPool) : ChunkPool := { pool with closed := true }

/-- `bytes(buf[o:o + n])`. -/
def slice (pool : ChunkPool) (o n : ℕ) : Except PyError Bytes :=
  if pool.closed then .error .valueError else .ok (pool.buf.read o n)

/-- `buf[o:o + len(data)] = data`: a memory map does not grow. -/
def assign (pool : ChunkPool) (o : ℕ) (data : Bytes) : Except PyError ChunkPool :=
  if pool.closed then .error .valueError
  else if o + data.length ≤ pool.buf.size then .ok { pool with buf := pool.buf.write o data }
  else .error .indexError

/-- A pool in use: mapped, with its cursor inside. -/
structure Live (pool : ChunkPool) : Prop where
  open_ : pool.closed = false
  cursor_le : pool.cursor ≤ pool.buf.size

theorem tryAllocate_some {pool pool' : ChunkPool} {length o : ℕ}
    (h : pool.tryAllocate length = (pool', some o)) :
    o = pool.cursor ∧ pool' = { pool with cursor := pool.cursor + length } ∧
      pool.cursor + length ≤ pool.buf.size := by
  unfold tryAllocate at h
  split at h
  · simp at h
  · simp only [Prod.mk.injEq, Option.some.injEq] at h
    exact ⟨h.2.symm, h.1.symm, by omega⟩

end ChunkPool

/-! ### Chunks -/

/-- `_Chunk`: the pool it lives in, by position, and its slot there. -/
structure Chunk where
  pool : ℕ
  offset : ℕ
  plainLen : ℕ
  payloadLen : ℕ

/-- Write a nonce and a ciphertext into a slot. -/
def storePayload (pools : List ChunkPool) (i o : ℕ) (nonce : Nonce) (ct : Bytes) :
    Except PyError (List ChunkPool) := do
  let pool ← pyIndex pools i
  let pool ← pool.assign o nonce
  let pool ← pool.assign (o + nonceLen) ct
  return pools.set i pool

/-- Start a new pool, mapped at `addr`, with `length` bytes taken. -/
def freshPool (pools : List ChunkPool) (length addr : ℕ) :
    Except PyError (List ChunkPool × ℕ × ℕ) :=
  match (ChunkPool.new (max poolSize length) addr).tryAllocate length with
  | (pool, some o) => .ok (pools ++ [pool], pools.length, o)
  | (_, none) => .error .typeError

/-- Room for `length` bytes in the last pool, or in a new one. -/
def allocate (pools : List ChunkPool) (length addr : ℕ) :
    Except PyError (List ChunkPool × ℕ × ℕ) :=
  match pools.getLast? with
  | none => freshPool pools length addr
  | some last =>
    match last.tryAllocate length with
    | (last, some o) => .ok (pools.set (pools.length - 1) last, pools.length - 1, o)
    | (_, none) => freshPool pools length addr

/-- A call of `AESGCM(key).encrypt(nonce, data, None)`. -/
structure Encryption where
  key : Bytes
  nonce : Nonce
  deriving DecidableEq

/-- `_new_chunk`, with the calls of `encrypt` that it makes. -/
def tracedNewChunk (P : Primitives) (pools : List ChunkPool) (plaintext key : Bytes)
    (nonce : Nonce) (addr : ℕ) : Traced Encryption PyError (List ChunkPool × Chunk) := do
  let ct ← .record ⟨key, nonce⟩ (P.encrypt key nonce (P.pack plaintext))
  let (pools, i, o) ← .lift (allocate pools (nonceLen + ct.length) addr)
  let pools ← .lift (storePayload pools i o nonce ct)
  return (pools, ⟨i, o, plaintext.length, ct.length⟩)

/-- `_new_chunk`. -/
def newChunk (P : Primitives) (pools : List ChunkPool) (plaintext key : Bytes)
    (nonce : Nonce) (addr : ℕ) : Except PyError (List ChunkPool × Chunk) :=
  (tracedNewChunk P pools plaintext key nonce addr).result

theorem newChunk_eq (P : Primitives) (pools : List ChunkPool) (plaintext key : Bytes)
    (nonce : Nonce) (addr : ℕ) :
    newChunk P pools plaintext key nonce addr = do
      let ct ← P.encrypt key nonce (P.pack plaintext)
      let (pools, i, o) ← allocate pools (nonceLen + ct.length) addr
      let pools ← storePayload pools i o nonce ct
      return (pools, ⟨i, o, plaintext.length, ct.length⟩) := by
  simp only [newChunk, tracedNewChunk, Traced.result_bind, Traced.result_record,
    Traced.result_lift]
  rfl

/-- A new chunk is encrypted once. -/
theorem trace_newChunk (P : Primitives) (pools : List ChunkPool) (plaintext key : Bytes)
    (nonce : Nonce) (addr : ℕ) :
    (tracedNewChunk P pools plaintext key nonce addr).trace = [⟨key, nonce⟩] := by
  refine Traced.trace_bind_of_nil _ fun ct => ?_
  refine Traced.trace_bind_of_nil _ fun _ => ?_
  exact Traced.trace_bind_of_nil _ fun _ => rfl

namespace Chunk

/-- The nonce and the ciphertext in a chunk's slot. -/
def payload (c : Chunk) (pools : List ChunkPool) : Except PyError (Bytes × Bytes) := do
  let pool ← pyIndex pools c.pool
  let nonce ← pool.slice c.offset nonceLen
  let ct ← pool.slice (c.offset + nonceLen) c.payloadLen
  return (nonce, ct)

/-- `_Chunk.reencrypt`, with the calls of `encrypt` that it makes.  The scratch copy that
the source zeroes is not kept. -/
def tracedReencrypt (P : Primitives) (c : Chunk) (pools : List ChunkPool)
    (currentKey newKey : Bytes) (newNonce : Nonce) :
    Traced Encryption PyError (List ChunkPool) := do
  let (nonce, ct) ← .lift (c.payload pools)
  let compressed ← .lift (P.decrypt currentKey nonce ct)
  let newCt ← .record ⟨newKey, newNonce⟩ (P.encrypt newKey newNonce compressed)
  Traced.lift (storePayload pools c.pool c.offset newNonce newCt)

/-- `_Chunk.reencrypt`. -/
def reencrypt (P : Primitives) (c : Chunk) (pools : List ChunkPool)
    (currentKey newKey : Bytes) (newNonce : Nonce) : Except PyError (List ChunkPool) :=
  (c.tracedReencrypt P pools currentKey newKey newNonce).result

theorem reencrypt_eq (P : Primitives) (c : Chunk) (pools : List ChunkPool)
    (currentKey newKey : Bytes) (newNonce : Nonce) :
    c.reencrypt P pools currentKey newKey newNonce = (do
      let (nonce, ct) ← c.payload pools
      let compressed ← P.decrypt currentKey nonce ct
      let newCt ← P.encrypt newKey newNonce compressed
      storePayload pools c.pool c.offset newNonce newCt) := by
  simp only [reencrypt, tracedReencrypt, Traced.result_bind, Traced.result_record,
    Traced.result_lift]

/-- `_Chunk.decrypt`. -/
def decrypt (P : Primitives) (c : Chunk) (pools : List ChunkPool) (key : Bytes) :
    Except PyError Bytes := do
  let (nonce, ct) ← c.payload pools
  let compressed ← P.decrypt key nonce ct
  P.unpack compressed

/-- Where the slot ends. -/
def stop (c : Chunk) : ℕ := c.offset + nonceLen + c.payloadLen

/-- Two chunks whose slots do not meet. -/
def Apart (c d : Chunk) : Prop := c.pool = d.pool → c.stop ≤ d.offset ∨ d.stop ≤ c.offset

theorem Apart.symm {c d : Chunk} (h : c.Apart d) : d.Apart c := fun he =>
  (h he.symm).symm

/-- The chunk's slot lies in a live pool, below the cursor, and holds `plaintext`
sealed under `key`. -/
structure Stored (P : Primitives) (pools : List ChunkPool) (key plaintext : Bytes)
    (c : Chunk) : Prop where
  plainLen : c.plainLen = plaintext.length
  slot : ∃ (pool : ChunkPool) (nonce : Nonce) (ct : Bytes), pools[c.pool]? = some pool ∧
    pool.Live ∧ c.stop ≤ pool.cursor ∧ P.encrypt key nonce (P.pack plaintext) = .ok ct ∧
    ct.length = c.payloadLen ∧
    pool.buf.read c.offset (nonceLen + c.payloadLen) = nonce ++ ct

end Chunk

/-! ### Writing and reading slots -/

theorem storePayload_ok {pools : List ChunkPool} {i o : ℕ} {pool : ChunkPool} {nonce : Nonce}
    {ct : Bytes} (hpool : pools[i]? = some pool) (hlive : pool.Live)
    (hfit : o + nonceLen + ct.length ≤ pool.buf.size) :
    storePayload pools i o nonce ct
      = .ok (pools.set i { pool with buf := pool.buf.write o (nonce ++ ct) }) := by
  have hn : nonce.1.length = nonceLen := nonce.2
  have hopen := hlive.open_
  rw [storePayload, pyIndex_natCast hpool, ok_bind, ChunkPool.assign, if_neg (by simp [hopen]),
    if_pos (by omega), ok_bind, ChunkPool.assign, if_neg (by simp [hopen]),
    if_pos (by simpa using hfit), ok_bind, Buffer.write_append, hn]
  rfl

/-- What a chunk reads: the nonce and the ciphertext of its slot, whatever they are. -/
theorem Chunk.payload_slot {pools : List ChunkPool} {c : Chunk} {pool : ChunkPool}
    (hpool : pools[c.pool]? = some pool) (hlive : pool.Live) :
    c.payload pools = .ok (pool.buf.read c.offset nonceLen,
      pool.buf.read (c.offset + nonceLen) c.payloadLen) := by
  have hopen : ¬ pool.closed = true := by simp [hlive.open_]
  rw [Chunk.payload, pyIndex_natCast hpool, ok_bind, ChunkPool.slice, if_neg hopen, ok_bind,
    ChunkPool.slice, if_neg hopen, ok_bind]
  rfl

theorem Chunk.Stored.payload {P : Primitives} {pools : List ChunkPool} {key plaintext : Bytes}
    {c : Chunk} (h : c.Stored P pools key plaintext) :
    ∃ (nonce : Nonce) (ct : Bytes), c.payload pools = .ok (nonce.1, ct) ∧
      P.encrypt key nonce (P.pack plaintext) = .ok ct ∧ ct.length = c.payloadLen := by
  obtain ⟨pool, nonce, ct, hpool, hlive, hstop, henc, hlen, hread⟩ := h.slot
  refine ⟨nonce, ct, ?_, henc, hlen⟩
  have hn : nonce.1.length = nonceLen := nonce.2
  have hsize := hlive.cursor_le
  have hin : c.offset + nonceLen ≤ pool.buf.size := by
    unfold Chunk.stop at hstop
    omega
  rw [Buffer.read_add hin] at hread
  obtain ⟨h1, h2⟩ := List.append_inj hread (by
    rw [Buffer.length_read_of_le hin, hn])
  rw [Chunk.payload_slot hpool hlive, h1, h2]

/-- A slot that is written full holds what was sealed. -/
theorem Chunk.stored_write {P : Primitives} {pools : List ChunkPool} {key plaintext : Bytes}
    {c : Chunk} {pool : ChunkPool} {nonce : Nonce} {ct : Bytes}
    (hpool : pools[c.pool]? = some pool) (hlive : pool.Live) (hstop : c.stop ≤ pool.cursor)
    (hplain : c.plainLen = plaintext.length)
    (henc : P.encrypt key nonce (P.pack plaintext) = .ok ct) (hct : ct.length = c.payloadLen) :
    c.Stored P (pools.set c.pool { pool with buf := pool.buf.write c.offset (nonce ++ ct) })
      key plaintext := by
  have hn : nonce.1.length = nonceLen := nonce.2
  have hsize := hlive.cursor_le
  have hwidth : nonceLen + c.payloadLen = (nonce.1 ++ ct).length := by
    rw [List.length_append, hn, hct]
  refine ⟨hplain, { pool with buf := pool.buf.write c.offset (nonce ++ ct) }, nonce, ct,
    List.getElem?_set_self (List.getElem?_eq_some_iff.mp hpool).1,
    ⟨hlive.open_, hlive.cursor_le⟩, hstop, henc, hct, ?_⟩
  rw [hwidth]
  refine Buffer.read_write_same ?_
  rw [← hwidth]
  unfold Chunk.stop at hstop
  omega

/-- What is re-encrypted is the plaintext, packed. -/
theorem Chunk.Stored.reencrypt_eq {P : Primitives} {pools : List ChunkPool}
    {currentKey plaintext : Bytes} {c : Chunk} (h : c.Stored P pools currentKey plaintext)
    (newKey : Bytes) (nonce : Nonce) :
    c.reencrypt P pools currentKey newKey nonce
      = P.encrypt newKey nonce (P.pack plaintext) >>= storePayload pools c.pool c.offset nonce := by
  obtain ⟨oldNonce, oldCt, hpayload, hold, -⟩ := h.payload
  rw [Chunk.reencrypt_eq, hpayload, ok_bind]
  show P.decrypt currentKey oldNonce oldCt >>= _ = _
  rw [P.decrypt_encrypt hold, ok_bind]

/-- A chunk that is re-encrypted is encrypted once. -/
theorem Chunk.Stored.trace_reencrypt {P : Primitives} {pools : List ChunkPool}
    {currentKey plaintext : Bytes} {c : Chunk} (h : c.Stored P pools currentKey plaintext)
    (newKey : Bytes) (nonce : Nonce) :
    (c.tracedReencrypt P pools currentKey newKey nonce).trace = [⟨newKey, nonce⟩] := by
  obtain ⟨oldNonce, oldCt, hpayload, hold, -⟩ := h.payload
  rw [Chunk.tracedReencrypt, hpayload, Traced.lift_ok_bind]
  show (Traced.lift (P.decrypt currentKey oldNonce oldCt) >>= _).trace = _
  rw [P.decrypt_encrypt hold, Traced.lift_ok_bind]
  exact Traced.trace_bind_of_nil _ fun _ => rfl

/-- And it is as long as it was, under any key. -/
theorem Chunk.Stored.length_encrypt {P : Primitives} {pools : List ChunkPool}
    {key newKey plaintext : Bytes} {c : Chunk} (h : c.Stored P pools key plaintext)
    {nonce : Nonce} {ct : Bytes} (henc : P.encrypt newKey nonce (P.pack plaintext) = .ok ct) :
    ct.length = c.payloadLen := by
  obtain ⟨oldNonce, oldCt, -, hold, holdLen⟩ := h.payload
  rw [P.length_encrypt henc, ← holdLen, P.length_encrypt hold]

theorem ChunkPool.live_set {pools : List ChunkPool} {pool : ChunkPool}
    (hlive : ∀ p ∈ pools, p.Live) (hpool : pool.Live) (i : ℕ) :
    ∀ p ∈ pools.set i pool, p.Live := by
  intro p hp
  rcases List.mem_or_eq_of_mem_set hp with hp | rfl
  · exact hlive p hp
  · exact hpool

/-- A chunk decrypts to what it holds. -/
theorem decrypt_spec {P : Primitives} {pools : List ChunkPool} {key plaintext : Bytes}
    {c : Chunk} (h : c.Stored P pools key plaintext) :
    c.decrypt P pools key = .ok plaintext := by
  obtain ⟨nonce, ct, hpayload, henc, -⟩ := h.payload
  rw [Chunk.decrypt, hpayload, ok_bind]
  show P.decrypt key nonce ct >>= _ = _
  rw [P.decrypt_encrypt henc, ok_bind, P.unpack_pack]

/-- Overwriting bytes of one pool that no part of a chunk's slot meets leaves the
chunk as it was. -/
theorem Chunk.Stored.set {P : Primitives} {pools : List ChunkPool} {key plaintext : Bytes}
    {d : Chunk} (h : d.Stored P pools key plaintext) {i : ℕ} {pool pool' : ChunkPool}
    (hpool : pools[i]? = some pool) (hlive : pool.Live → pool'.Live)
    (hcursor : pool.cursor ≤ pool'.cursor)
    (hread : d.pool = i → pool'.buf.read d.offset (nonceLen + d.payloadLen)
      = pool.buf.read d.offset (nonceLen + d.payloadLen)) :
    d.Stored P (pools.set i pool') key plaintext := by
  obtain ⟨dpool, nonce, ct, hdpool, hdlive, hstop, henc, hlen, hdread⟩ := h.slot
  refine ⟨h.plainLen, ?_⟩
  by_cases hi : d.pool = i
  · obtain rfl : dpool = pool := by
      rw [hi, hpool] at hdpool
      exact (Option.some.inj hdpool).symm
    refine ⟨pool', nonce, ct, ?_, hlive hdlive, le_trans hstop hcursor, henc, hlen, ?_⟩
    · rw [hi]
      exact List.getElem?_set_self (List.getElem?_eq_some_iff.mp hpool).1
    · rw [hread hi, hdread]
  · refine ⟨dpool, nonce, ct, ?_, hdlive, hstop, henc, hlen, hdread⟩
    rw [List.getElem?_set_ne (Ne.symm hi), hdpool]

/-! ### Specifications -/

/-- Re-encryption moves one chunk to the new key and leaves every other chunk alone. -/
theorem reencrypt_spec {P : Primitives} {pools : List ChunkPool} {currentKey newKey : Bytes}
    {plaintext : Bytes} {c : Chunk} (h : c.Stored P pools currentKey plaintext)
    (hkey : ValidKey newKey) (nonce : Nonce) :
    ∃ pools', c.reencrypt P pools currentKey newKey nonce = .ok pools' ∧
      c.Stored P pools' newKey plaintext ∧
      ∀ (d : Chunk) (key plain : Bytes), c.Apart d → d.Stored P pools key plain →
        d.Stored P pools' key plain := by
  obtain ⟨ct, henc⟩ := P.encrypt_ok nonce (P.pack plaintext) hkey
  -- same length in, same length out, so the slot still fits
  have hlen := h.length_encrypt henc
  obtain ⟨pool, -, -, hpool, hlive, hstop, -⟩ := h.slot
  have hsize := hlive.cursor_le
  have hn : nonce.1.length = nonceLen := nonce.2
  have hfit : c.offset + nonceLen + ct.length ≤ pool.buf.size := by
    unfold Chunk.stop at hstop
    omega
  refine ⟨pools.set c.pool { pool with buf := pool.buf.write c.offset (nonce ++ ct) },
    ?_, Chunk.stored_write hpool hlive hstop h.plainLen henc hlen, ?_⟩
  · rw [h.reencrypt_eq, henc, ok_bind]
    exact storePayload_ok hpool hlive hfit
  · intro d key plain hapart hd
    refine hd.set hpool (fun hl => ⟨hl.open_, hl.cursor_le⟩) le_rfl fun hi => ?_
    refine Buffer.read_write_disjoint ?_
    have := hapart hi.symm
    unfold Chunk.stop at this
    rw [List.length_append, hn, hlen]
    omega

/-- What an allocation gives: a slot in a live pool, past everything stored so far. -/
structure Allocated (pools : List ChunkPool) (length : ℕ) (pools' : List ChunkPool)
    (i o : ℕ) : Prop where
  live : ∀ p ∈ pools', p.Live
  slot : ∃ pool, pools'[i]? = some pool ∧ o + length = pool.cursor
  stored : ∀ (P : Primitives) (d : Chunk) (key plain : Bytes), d.Stored P pools key plain →
    d.Stored P pools' key plain ∧ (d.pool = i → d.stop ≤ o)

/-- A pool of its own is always large enough. -/
theorem tryAllocate_fresh (length addr : ℕ) :
    (ChunkPool.new (max poolSize length) addr).tryAllocate length
      = ({ ChunkPool.new (max poolSize length) addr with cursor := length }, some 0) := by
  have hroom : ¬ 0 + length > max poolSize length := by
    rw [Nat.zero_add]
    exact Nat.not_lt.mpr (le_max_right _ _)
  rw [ChunkPool.tryAllocate]
  show (if 0 + length > max poolSize length then _ else _) = _
  rw [if_neg hroom]
  show ({ ChunkPool.new (max poolSize length) addr with cursor := 0 + length }, _) = _
  rw [Nat.zero_add]
  rfl

theorem freshPool_spec {pools : List ChunkPool} (hlive : ∀ p ∈ pools, p.Live)
    (length addr : ℕ) :
    ∃ pools' i o, freshPool pools length addr = .ok (pools', i, o) ∧
      Allocated pools length pools' i o := by
  set pool : ChunkPool := { ChunkPool.new (max poolSize length) addr with cursor := length }
  have hpool : pool.Live := ⟨rfl, le_max_right _ _⟩
  have halloc : (ChunkPool.new (max poolSize length) addr).tryAllocate length
      = (pool, some 0) := tryAllocate_fresh length addr
  refine ⟨pools ++ [pool], pools.length, 0, by rw [freshPool, halloc], ?_, ⟨pool, by simp, ?_⟩,
    ?_⟩
  · intro p hp
    rcases List.mem_append.mp hp with hp | hp
    · exact hlive p hp
    · rwa [List.mem_singleton.mp hp]
  · exact Nat.zero_add _
  · intro P d key plain hd
    obtain ⟨dpool, nonce, ct, hdpool, hrest⟩ := hd.slot
    have hlt := (List.getElem?_eq_some_iff.mp hdpool).1
    refine ⟨⟨hd.plainLen, dpool, nonce, ct, ?_, hrest⟩, fun hi => absurd hi (by omega)⟩
    rw [List.getElem?_append_left hlt, hdpool]

theorem allocate_spec {pools : List ChunkPool} (hlive : ∀ p ∈ pools, p.Live)
    (length addr : ℕ) :
    ∃ pools' i o, allocate pools length addr = .ok (pools', i, o) ∧
      Allocated pools length pools' i o := by
  unfold allocate
  cases hlast : pools.getLast? with
  | none => exact freshPool_spec hlive length addr
  | some last =>
    have hget : pools[pools.length - 1]? = some last := by
      rw [← List.getLast?_eq_getElem?, hlast]
    have hl := hlive last (List.mem_of_getLast? hlast)
    rcases halloc : last.tryAllocate length with ⟨last', _ | o⟩
    · simp only [halloc]
      exact freshPool_spec hlive length addr
    · obtain ⟨rfl, rfl, hroom⟩ := ChunkPool.tryAllocate_some halloc
      simp only [halloc]
      have hlast' : ({ last with cursor := last.cursor + length } : ChunkPool).Live :=
        ⟨hl.open_, hroom⟩
      refine ⟨_, _, _, rfl, ChunkPool.live_set hlive hlast' _,
        ⟨{ last with cursor := last.cursor + length }, ?_, rfl⟩, ?_⟩
      · exact List.getElem?_set_self (List.getElem?_eq_some_iff.mp hget).1
      · intro P d key plain hd
        refine ⟨hd.set hget (fun _ => ⟨hl.open_, hroom⟩) (Nat.le_add_right _ _)
          fun _ => rfl, fun hi => ?_⟩
        obtain ⟨dpool, _, _, hdpool, _, hstop, _⟩ := hd.slot
        rw [hi, hget] at hdpool
        obtain rfl := Option.some.inj hdpool
        exact hstop

/-- A new chunk holds its plaintext under the given key, apart from every older
chunk, and the older chunks still hold theirs. -/
theorem newChunk_spec {P : Primitives} {pools : List ChunkPool} (hlive : ∀ p ∈ pools, p.Live)
    {key : Bytes} (hkey : ValidKey key) (plaintext : Bytes) (nonce : Nonce) (addr : ℕ) :
    ∃ pools' c, newChunk P pools plaintext key nonce addr = .ok (pools', c) ∧
      (∀ p ∈ pools', p.Live) ∧ c.Stored P pools' key plaintext ∧
      ∀ (d : Chunk) (key' plain : Bytes), d.Stored P pools key' plain →
        d.Stored P pools' key' plain ∧ d.Apart c := by
  obtain ⟨ct, henc⟩ := P.encrypt_ok nonce (P.pack plaintext) hkey
  obtain ⟨pools₁, i, o, halloc, hlive₁, ⟨pool, hpool, hcursor⟩, hold⟩ :=
    allocate_spec hlive (nonceLen + ct.length) addr
  have hpl := hlive₁ pool (List.mem_of_getElem? hpool)
  have hsize := hpl.cursor_le
  have hpl' : ({ pool with buf := pool.buf.write o (nonce ++ ct) } : ChunkPool).Live :=
    ⟨hpl.open_, hpl.cursor_le⟩
  have hstore : storePayload pools₁ i o nonce ct
      = .ok (pools₁.set i { pool with buf := pool.buf.write o (nonce ++ ct) }) :=
    storePayload_ok hpool hpl (by omega)
  -- the new chunk ends where the cursor is
  have hstop : (⟨i, o, plaintext.length, ct.length⟩ : Chunk).stop ≤ pool.cursor := by
    show o + nonceLen + ct.length ≤ pool.cursor
    omega
  refine ⟨pools₁.set i { pool with buf := pool.buf.write o (nonce ++ ct) },
    ⟨i, o, plaintext.length, ct.length⟩, ?_,
    ChunkPool.live_set hlive₁ hpl' i,
    Chunk.stored_write (c := ⟨i, o, plaintext.length, ct.length⟩) hpool hpl hstop rfl henc rfl, ?_⟩
  · rw [newChunk_eq, henc, ok_bind, halloc, ok_bind]
    show storePayload pools₁ i o nonce ct >>= _ = _
    rw [hstore]
    rfl
  · intro d key' plain hd
    obtain ⟨hd₁, hbefore⟩ := hold P d key' plain hd
    refine ⟨hd₁.set hpool (fun _ => ⟨hpl.open_, hpl.cursor_le⟩) le_rfl fun hi => ?_,
      fun hi => Or.inl (hbefore hi)⟩
    refine Buffer.read_write_disjoint (Or.inl ?_)
    have := hbefore hi
    unfold Chunk.stop at this
    omega
