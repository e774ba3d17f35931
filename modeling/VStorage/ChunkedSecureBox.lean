/-
`chunked_secure_box.py`: a box of chunks under two generations of keys.

The definitions of this file are the class itself: construction from bytes and
from a file, one hop with its rotation, the three ways out (`snapshot`,
`streamTo`, `streamToWrapped`) and `collapse`.  What the outside world decides
(random bytes, mapped addresses, the outcome of a trust-group fetch, of a mapping,
of a callback, of a write) is an argument.

A guard is referred to by its position in the list of all guards the box has
made, since after a failed rotation both fields of the object name one guard.
-/
import Mathlib
import VStorage.ChunkPool

/-- `b"vstorage-ratchet"`. -/
def ratchetLabel : Bytes := "vstorage-ratchet".toList.map fun c => UInt8.ofNat c.toNat

/-- `_ratchet`. -/
def ratchet (P : Primitives) (key : Bytes) : Bytes := P.sha256 (key ++ ratchetLabel)

/-- `_next_key`, given whether there is a trust group and what its `fetch` does. -/
def nextKey (P : Primitives) (trustGroup : Bool) (fetch : Except PyError Bytes)
    (currentKey : Bytes) : Except PyError Bytes :=
  if trustGroup then do
    let external ← fetch
    return P.sha256 (currentKey ++ external ++ ratchetLabel)
  else return ratchet P currentKey

structure ChunkedSecureBox where
  dataLen : ℕ
  trustGroup : Bool
  onNewGuard : Bool
  guards : List SplitKeyGuard
  currentGuard : ℕ
  nextGuard : ℕ
  pools : List ChunkPool
  chunks : List Chunk
  onNext : List Bool
  hops : ℕ
  nextChunk : ℕ
  paused : Bool
  removed : Bool

namespace ChunkedSecureBox

/-! ### Construction -/

/-- What the outside world supplies to a construction. -/
structure InitEnv where
  /-- `AESGCM.generate_key(bit_length=256)` -/
  key : {k : Bytes // k.length = 32}
  fetch : Except PyError Bytes
  currentPages : ℕ → ℕ × ℕ
  nextPages : ℕ → ℕ × ℕ
  nonce : ℕ → Nonce
  poolAddr : ℕ → ℕ

/-- `[data[i:i + n] for i in range(0, stop, n)]`. -/
def slices (data : Bytes) (stop n : ℕ) : Except PyError (List Bytes) :=
  if n = 0 then .error .valueError
  else .ok ((List.range ((stop + n - 1) / n)).map fun i => (data.drop (i * n)).take n)

/-- A call of `encrypt` that a box makes: for the chunk at this position, with the key of
the guard at that one. -/
structure Sealing where
  generation : ℕ
  chunk : ℕ
  encryption : Encryption
  deriving DecidableEq

/-- The chunks made one after another by `_new_chunk`, with the calls of `encrypt`. -/
def tracedNewChunks (P : Primitives) (env : InitEnv) (plaintexts : List Bytes) :
    Traced Sealing PyError (List ChunkPool × List Chunk) :=
  plaintexts.zipIdx.foldlM (fun (pools, chunks) (plaintext, i) => do
    let (pools, chunk) ←
      (tracedNewChunk P pools plaintext env.key (env.nonce i) (env.poolAddr i)).retell (⟨0, i, ·⟩)
    return (pools, chunks ++ [chunk])) ([], [])

def newChunks (P : Primitives) (env : InitEnv) (plaintexts : List Bytes) :
    Except PyError (List ChunkPool × List Chunk) := (tracedNewChunks P env plaintexts).result

/-- The part that `__init__` and `from_file` share: the two guards, the chunks, and
`_start_falling`. -/
def tracedBuild (P : Primitives) (env : InitEnv) (trustGroup onNewGuard : Bool) (dataLen : ℕ)
    (plaintexts : Except PyError (List Bytes)) : Traced Sealing PyError ChunkedSecureBox := do
  let next ← .lift (nextKey P trustGroup env.fetch env.key)
  let plaintexts ← .lift plaintexts
  let plaintexts := if plaintexts = [] then [[]] else plaintexts
  let (pools, chunks) ← tracedNewChunks P env plaintexts
  return {
    dataLen := dataLen, trustGroup := trustGroup, onNewGuard := onNewGuard
    guards := [SplitKeyGuard.new P env.key env.currentPages,
      SplitKeyGuard.new P next env.nextPages]
    currentGuard := 0, nextGuard := 1
    pools := pools, chunks := chunks, onNext := List.replicate chunks.length false
    hops := 0, nextChunk := 0, paused := false, removed := false }

def build (P : Primitives) (env : InitEnv) (trustGroup onNewGuard : Bool) (dataLen : ℕ)
    (plaintexts : Except PyError (List Bytes)) : Except PyError ChunkedSecureBox :=
  (tracedBuild P env trustGroup onNewGuard dataLen plaintexts).result

/-- `__init__`. -/
def init (P : Primitives) (env : InitEnv) (data : Bytes) (chunkSize : ℕ)
    (trustGroup onNewGuard : Bool) : Traced Sealing PyError ChunkedSecureBox :=
  tracedBuild P env trustGroup onNewGuard data.length (slices data (max data.length 1) chunkSize)

/-- `RAW_READ_SIZE`. -/
def rawReadSize (chunkSize : ℕ) : ℕ := max chunkSize (16 * 1024 * 1024)

theorem rawReadSize_pos (chunkSize : ℕ) : 0 < rawReadSize chunkSize :=
  lt_of_lt_of_le (by decide) (le_max_right _ _)

/-- The loop `while True: block = f.read(n); if not block: break`. -/
def readBlocks (n : ℕ) (hn : 0 < n) : Bytes → List Bytes
  | [] => []
  | b :: rest => (b :: rest).take n :: readBlocks n hn ((b :: rest).drop n)
termination_by rest => rest.length
decreasing_by
  rw [List.length_drop, List.length_cons]
  omega

/-- `from_file`, for a file with the given contents. -/
def fromFile (P : Primitives) (env : InitEnv) (contents : Bytes) (chunkSize : ℕ)
    (trustGroup onNewGuard : Bool) : Traced Sealing PyError ChunkedSecureBox :=
  tracedBuild P env trustGroup onNewGuard contents.length do
    let blocks ← (readBlocks (rawReadSize chunkSize) (rawReadSize_pos chunkSize) contents).mapM
      fun block => slices block block.length chunkSize
    return blocks.flatten

/-! Leaving out the calls of `encrypt`. -/

theorem newChunks_eq (P : Primitives) (env : InitEnv) (plaintexts : List Bytes) :
    newChunks P env plaintexts
      = plaintexts.zipIdx.foldlM (fun (pools, chunks) (plaintext, i) => do
          let (pools, chunk) ←
            newChunk P pools plaintext env.key (env.nonce i) (env.poolAddr i)
          return (pools, chunks ++ [chunk])) ([], []) := by
  refine Traced.result_foldlM (fun s a => ?_) _ _
  exact Traced.result_bind _ _

theorem build_eq (P : Primitives) (env : InitEnv) (trustGroup onNewGuard : Bool) (dataLen : ℕ)
    (plaintexts : Except PyError (List Bytes)) :
    build P env trustGroup onNewGuard dataLen plaintexts = do
      let next ← nextKey P trustGroup env.fetch env.key
      let plaintexts ← plaintexts
      let plaintexts := if plaintexts = [] then [[]] else plaintexts
      let (pools, chunks) ← newChunks P env plaintexts
      return {
        dataLen := dataLen, trustGroup := trustGroup, onNewGuard := onNewGuard
        guards := [SplitKeyGuard.new P env.key env.currentPages,
          SplitKeyGuard.new P next env.nextPages]
        currentGuard := 0, nextGuard := 1
        pools := pools, chunks := chunks, onNext := List.replicate chunks.length false
        hops := 0, nextChunk := 0, paused := false, removed := false } := by
  simp only [build, tracedBuild, Traced.result_bind, Traced.result_lift, newChunks]
  rfl

/-! ### Keys -/

/-- One cell of one of the box's guards bounces. -/
def bounce (box : ChunkedSecureBox) (cell : ℕ × ℕ) : ChunkedSecureBox :=
  { box with guards := box.guards.modify cell.1 (·.bounceCell cell.2) }

def bounces (box : ChunkedSecureBox) (cells : List (ℕ × ℕ)) : ChunkedSecureBox :=
  cells.foldl bounce box

/-- `reconstruct` of the guard at a position. -/
def reconstruct (P : Primitives) (box : ChunkedSecureBox) (i : ℕ) : Except PyError Bytes := do
  let guard ← pyIndex box.guards i
  guard.reconstruct P

/-- The two lines that open every operation: reconstruct the current key, then the
next one.  The cells in `between` bounce between the two calls. -/
def readKeys (P : Primitives) (between : List (ℕ × ℕ)) (box : ChunkedSecureBox) :
    ChunkedSecureBox × Except PyError (Bytes × Bytes) :=
  match box.reconstruct P box.currentGuard with
  | .error e => (box, .error e)
  | .ok currentKey =>
    let box := box.bounces between
    match box.reconstruct P box.nextGuard with
    | .error e => (box, .error e)
    | .ok nextKey => (box, .ok (currentKey, nextKey))

/-! ### Falling -/

/-- What the outside world supplies to one hop. -/
structure HopEnv where
  between : List (ℕ × ℕ)
  nonce : Nonce
  fetch : Except PyError Bytes
  mmap : Except PyError (ℕ → ℕ × ℕ)
  callback : Except PyError Unit

/-- A hop leaves a box, may have handed the regions of a new guard to
`on_new_guard`, and returns or raises. -/
structure HopResult where
  box : ChunkedSecureBox
  announced : Option (List Region)
  outcome : Except PyError Unit

/-- The end of a rotation: the old guard is collapsed and the flags are reset. -/
def retire (box : ChunkedSecureBox) (oldCurrent : ℕ) : ChunkedSecureBox :=
  { box with
    guards := box.guards.modify oldCurrent SplitKeyGuard.collapse
    onNext := List.replicate box.chunks.length false }

/-- The rotation inside `_do_one_hop_locked`. -/
def rotate (P : Primitives) (env : HopEnv) (next : Bytes) (box : ChunkedSecureBox) :
    HopResult :=
  let oldCurrent := box.currentGuard
  let box := { box with currentGuard := box.nextGuard }
  match nextKey P box.trustGroup env.fetch next with
  | .error e => ⟨box, none, .error e⟩
  | .ok key =>
    match env.mmap with
    | .error e => ⟨box, none, .error e⟩
    | .ok pages =>
      let guard := SplitKeyGuard.new P key pages
      let box := { box with guards := box.guards ++ [guard], nextGuard := box.guards.length }
      if box.onNewGuard then
        match env.callback with
        | .error e => ⟨box, some guard.regions, .error e⟩
        | .ok () => ⟨box.retire oldCurrent, some guard.regions, .ok ()⟩
      else ⟨box.retire oldCurrent, none, .ok ()⟩

/-- The bookkeeping after chunk `nextChunk` has been re-encrypted into `pools`. -/
def advance (box : ChunkedSecureBox) (pools : List ChunkPool) : ChunkedSecureBox :=
  { box with
    pools := pools
    onNext := box.onNext.set box.nextChunk true
    nextChunk := (box.nextChunk + 1) % box.chunks.length
    hops := box.hops + 1 }

/-- `_do_one_hop_locked`, with the calls of `encrypt` that it makes. -/
def tracedHop (P : Primitives) (env : HopEnv) (box : ChunkedSecureBox) :
    Traced Sealing Empty HopResult :=
  match box.readKeys P env.between with
  | (box, .error e) => pure ⟨box, none, .error e⟩
  | (box, .ok (currentKey, nextKey)) =>
    match box.chunks[box.nextChunk]?, box.onNext[box.nextChunk]? with
    | some chunk, some onNext => do
      let pools ← ((chunk.tracedReencrypt P box.pools (if onNext then nextKey else currentKey)
        nextKey env.nonce).retell (⟨box.nextGuard, box.nextChunk, ·⟩)).attempt
      match pools with
      | .error e => return ⟨box, none, .error e⟩
      | .ok pools =>
        let box := box.advance pools
        if box.nextChunk = 0 ∧ box.onNext.all id then return box.rotate P env nextKey
        else return ⟨box, none, .ok ()⟩
    | _, _ => pure ⟨box, none, .error .indexError⟩

/-- `_do_one_hop_locked`. -/
def hop (P : Primitives) (env : HopEnv) (box : ChunkedSecureBox) : HopResult :=
  (box.tracedHop P env).value

theorem hop_eq (P : Primitives) (env : HopEnv) (box : ChunkedSecureBox) :
    box.hop P env =
      match box.readKeys P env.between with
      | (box, .error e) => ⟨box, none, .error e⟩
      | (box, .ok (currentKey, nextKey)) =>
        match box.chunks[box.nextChunk]?, box.onNext[box.nextChunk]? with
        | some chunk, some onNext =>
          match chunk.reencrypt P box.pools (if onNext then nextKey else currentKey) nextKey
              env.nonce with
          | .error e => ⟨box, none, .error e⟩
          | .ok pools =>
            if (box.advance pools).nextChunk = 0 ∧ (box.advance pools).onNext.all id
            then (box.advance pools).rotate P env nextKey
            else ⟨box.advance pools, none, .ok ()⟩
        | _, _ => ⟨box, none, .error .indexError⟩ := by
  rw [hop, tracedHop]
  obtain ⟨box, e | ⟨currentKey, nextKey⟩⟩ := box.readKeys P env.between
  · rfl
  · dsimp only
    cases box.chunks[box.nextChunk]? with
    | none => rfl
    | some chunk =>
      cases box.onNext[box.nextChunk]? with
      | none => rfl
      | some onNext =>
        dsimp only
        rw [Traced.value_attempt_bind, Traced.result_retell, ← Chunk.reencrypt]
        cases chunk.reencrypt P box.pools (if onNext then nextKey else currentKey) nextKey
            env.nonce with
        | error e => rfl
        | ok pools =>
          dsimp only
          split_ifs
          · rfl
          · rfl

/-! ### The ways out -/

/-- Every chunk with its migration flag: `zip(self._chunks, self._on_next)`. -/
def entries (box : ChunkedSecureBox) : List (Chunk × Bool) := box.chunks.zip box.onNext

/-- `chunk.decrypt(next_key if on_next else current_key)`. -/
def openEntry (P : Primitives) (pools : List ChunkPool) (keys : Bytes × Bytes)
    (entry : Chunk × Bool) : Except PyError Bytes :=
  entry.1.decrypt P pools (if entry.2 then keys.2 else keys.1)

/-- `snapshot`.  An exception leaves the box paused. -/
def snapshot (P : Primitives) (between : List (ℕ × ℕ)) (box : ChunkedSecureBox) :
    ChunkedSecureBox × Except PyError Bytes :=
  match readKeys P between { box with paused := true } with
  | (box, .error e) => (box, .error e)
  | (box, .ok keys) =>
    match box.entries.foldlM (fun out entry => do
        let plaintext ← openEntry P box.pools keys entry
        return out ++ plaintext.take entry.1.plainLen) [] with
    | .error e => (box, .error e)
    | .ok out => ({ box with paused := false }, .ok (out.take box.dataLen))

/-- The loop of `stream_to` and `stream_to_wrapped` over the remaining chunks:
`wrap i piece` is what the `i`-th pass hands to `write`, and `write i` is how that
call ends.  The result is what was written and how the loop ended. -/
def streamLoop (P : Primitives) (pools : List ChunkPool) (keys : Bytes × Bytes)
    (wrap : ℕ → Bytes → Except PyError Bytes) (write : ℕ → Except PyError Unit) :
    List (Chunk × Bool) → ℕ → ℕ → List Bytes × Except PyError Unit
  | [], _, _ => ([], .ok ())
  | entry :: rest, i, remaining =>
    if remaining = 0 then ([], .ok ())
    else
      match openEntry P pools keys entry with
      | .error e => ([], .error e)
      | .ok plaintext =>
        let piece := plaintext.take (min entry.1.plainLen remaining)
        match wrap i piece with
        | .error e => ([], .error e)
        | .ok out =>
          match write i with
          | .error e => ([out], .error e)
          | .ok () =>
            let (written, outcome) :=
              streamLoop P pools keys wrap write rest (i + 1) (remaining - piece.length)
            (out :: written, outcome)

/-- A retrieval by streaming: pause, read the keys, run the loop; the pause is
lifted on every way out. -/
def stream (P : Primitives) (between : List (ℕ × ℕ)) (box : ChunkedSecureBox)
    (wrap : ℕ → Bytes → Except PyError Bytes) (write : ℕ → Except PyError Unit) :
    ChunkedSecureBox × List Bytes × Except PyError Unit :=
  match readKeys P between { box with paused := true } with
  | (box, .error e) => ({ box with paused := false }, [], .error e)
  | (box, .ok keys) =>
    ({ box with paused := false },
      streamLoop P box.pools keys wrap write box.entries 0 box.dataLen)

/-- `stream_to`. -/
def streamTo (P : Primitives) (between : List (ℕ × ℕ)) (box : ChunkedSecureBox)
    (write : ℕ → Except PyError Unit) :
    ChunkedSecureBox × List Bytes × Except PyError Unit :=
  stream P between box (fun _ piece => .ok piece) write

/-- `n.to_bytes(4, "big")`. -/
def toBytesBig (n : ℕ) : Except PyError Bytes :=
  if n < 2 ^ 32 then
    .ok [UInt8.ofNat (n / 2 ^ 24), UInt8.ofNat (n / 2 ^ 16), UInt8.ofNat (n / 2 ^ 8),
      UInt8.ofNat n]
  else .error .overflowError

/-- One frame of the wire format: length, nonce, ciphertext. -/
def wrapPiece (P : Primitives) (transitKey : Bytes) (nonce : Nonce) (piece : Bytes) :
    Except PyError Bytes := do
  let ct ← P.encrypt transitKey nonce piece
  return (← toBytesBig ct.length) ++ nonce ++ ct

/-- `stream_to_wrapped`. -/
def streamToWrapped (P : Primitives) (between : List (ℕ × ℕ)) (box : ChunkedSecureBox)
    (transitKey : Bytes) (nonces : ℕ → Nonce) (write : ℕ → Except PyError Unit) :
    ChunkedSecureBox × List Bytes × Except PyError Unit :=
  stream P between box (fun i piece => wrapPiece P transitKey (nonces i) piece) write

/-- `regions`. -/
def regions (box : ChunkedSecureBox) : List Region :=
  (box.guards[box.currentGuard]?.elim [] SplitKeyGuard.regions) ++
    (box.guards[box.nextGuard]?.elim [] SplitKeyGuard.regions) ++
    box.pools.map ChunkPool.region

/-- `collapse`. -/
def collapse (box : ChunkedSecureBox) : ChunkedSecureBox :=
  { box with
    removed := true
    guards := (box.guards.modify box.currentGuard SplitKeyGuard.collapse).modify
      box.nextGuard SplitKeyGuard.collapse
    pools := box.pools.map ChunkPool.collapse }

end ChunkedSecureBox
