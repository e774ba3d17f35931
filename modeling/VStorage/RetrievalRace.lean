/-
A retrieval by streaming against `collapse` of the same box.

The retrieval takes the lock of the box, reads both keys cell by cell, and then for every
chunk reads the nonce and the ciphertext out of its pool and writes the piece.  `collapse`
sets the removed flag under the lock, and then, without it, closes the cells of both
guards one by one and every pool.  The retrieval does not look at the flag.

* `Inv.steady`: a retrieval that has the lock before the flag is set is never disturbed;
* `complete_or_nothing_iff`: a run has all or nothing written, and nothing after the flag,
  exactly when every retrieval that took the lock late found its first chunk closed;
* `partial_retrieval`: otherwise a part of the file may be written.
-/
import Mathlib
import VStorage.FallScheduler

namespace RetrievalRace

open ChunkedSecureBox

/-! ### The two threads -/

/-- Where the retrieval is.  It has the lock from `current` on until it ends; `i` counts the
chunks it has written. -/
inductive Reader
  | waiting
  | current (read : List UInt8)
  | next (currentKey : Bytes) (read : List UInt8)
  | loop (keys : Bytes × Bytes) (rest : List (Chunk × Bool)) (i remaining : ℕ)
  | ciphertext (keys : Bytes × Bytes) (nonce : Bytes) (entry : Chunk × Bool)
      (rest : List (Chunk × Bool)) (i remaining : ℕ)
  | returned
  | raised (e : PyError)

def Reader.Locked : Reader → Prop
  | .waiting | .returned | .raised _ => False
  | .current _ | .next _ _ | .loop _ _ _ _ | .ciphertext _ _ _ _ _ _ => True

/-- The guard whose lock the retrieval has. -/
def Reader.guard? (box : ChunkedSecureBox) : Reader → Option ℕ
  | .current _ => some box.currentGuard
  | .next _ _ => some box.nextGuard
  | _ => none

/-- What `collapse` does once the flag is set. -/
inductive Closing
  | guard (g : ℕ)
  | cell (g k : ℕ)
  | pool (k : ℕ)

def Closing.apply (box : ChunkedSecureBox) : Closing → ChunkedSecureBox
  | .guard g => { box with guards := box.guards.modify g fun guard => { guard with removed := true } }
  | .cell g k => { box with
      guards := box.guards.modify g fun guard =>
        { guard with cells := guard.cells.modify k RawCell.collapse } }
  | .pool k => { box with pools := box.pools.modify k ChunkPool.collapse }

/-- `SplitKeyGuard.collapse`, for the guard at a position. -/
def guardClosings (box : ChunkedSecureBox) (g : ℕ) : List Closing :=
  .guard g :: (List.range (box.guards[g]?.elim 0 fun guard => guard.cells.length)).map (.cell g)

/-- The rest of `ChunkedSecureBox.collapse`. -/
def closings (box : ChunkedSecureBox) : List Closing :=
  guardClosings box box.currentGuard ++ guardClosings box box.nextGuard ++
    (List.range box.pools.length).map .pool

/-- The box, the two threads, and what has been passed to `write`.  `late` records whether the
flag was set when the retrieval took the lock. -/
structure State where
  box : ChunkedSecureBox
  reader : Reader
  closer : Option (List Closing)
  written : List Bytes
  late : Bool

def start (box : ChunkedSecureBox) : State where
  box := box
  reader := .waiting
  closer := none
  written := []
  late := false

/-- Change the elements at some places, one after the other. -/
def modifyAll {α : Type*} (f : α → α) (ks : List ℕ) (l : List α) : List α :=
  ks.foldl (fun l k => l.modify k f) l

theorem modifyAll_range {α : Type*} (f : α → α) (l : List α) :
    modifyAll f (List.range l.length) l = l.map f := by
  have hfirst : ∀ n j : ℕ, (modifyAll f (List.range n) l)[j]?
      = l[j]?.map fun a => if j < n then f a else a := by
    intro n j
    unfold modifyAll
    induction n with
    | zero => simp
    | succ n ih =>
      rw [List.range_succ, List.foldl_append, List.foldl_cons, List.foldl_nil,
        List.getElem?_modify, ih]
      cases l[j]? with
      | none => rfl
      | some a =>
        rcases Nat.lt_trichotomy j n with hj | hj | hj
        · simp [hj, Nat.ne_of_gt hj, Nat.lt_succ_of_lt hj]
        · simp [hj]
        · simp [Nat.ne_of_lt hj, Nat.not_lt.mpr (Nat.le_of_lt hj), Nat.not_lt.mpr hj]
  refine List.ext_getElem? fun j => ?_
  rw [hfirst, List.getElem?_map]
  cases hj : l[j]? with
  | none => rfl
  | some a => simp [(List.getElem?_eq_some_iff.mp hj).1]

theorem modify_id_of {α : Type*} {l : List α} {g : ℕ} {f f' : α → α}
    (h : ∀ a, l[g]? = some a → f a = f' a) : l.modify g f = l.modify g f' := by
  refine List.ext_getElem? fun j => ?_
  rw [List.getElem?_modify, List.getElem?_modify]
  by_cases hg : g = j
  · subst hg
    cases ha : l[g]? with
    | none => rfl
    | some a => simp [h a ha]
  · simp [hg]

/-- The steps for one guard are `SplitKeyGuard.collapse`. -/
theorem guardClosings_apply (box box' : ChunkedSecureBox) {g : ℕ}
    (hlen : ∀ guard', box'.guards[g]? = some guard' →
      (box.guards[g]?.elim 0 fun guard => guard.cells.length) = guard'.cells.length) :
    (guardClosings box g).foldl Closing.apply box'
      = { box' with guards := box'.guards.modify g SplitKeyGuard.collapse } := by
  have hcells : ∀ (ks : List ℕ) (f : SplitKeyGuard → SplitKeyGuard),
      (ks.map (Closing.cell g)).foldl Closing.apply
        { box' with guards := box'.guards.modify g f }
      = { box' with guards := box'.guards.modify g fun guard =>
          { f guard with cells := modifyAll RawCell.collapse ks (f guard).cells } } := by
    intro ks
    induction ks with
    | nil => exact fun f => rfl
    | cons k ks ih =>
      intro f
      rw [List.map_cons, List.foldl_cons]
      show (ks.map (Closing.cell g)).foldl Closing.apply
        { box' with guards := (box'.guards.modify g f).modify g fun guard =>
          { guard with cells := guard.cells.modify k RawCell.collapse } } = _
      rw [List.modify_modify_eq, ih]
      rfl
  rw [guardClosings, List.foldl_cons]
  refine (hcells _ fun guard => { guard with removed := true }).trans ?_
  refine congrArg (fun guards => ({ box' with guards := guards } : ChunkedSecureBox)) ?_
  refine modify_id_of fun guard hguard => ?_
  rw [hlen guard hguard, modifyAll_range]
  rfl

/-- **All the steps.**  With nothing in between, they are `collapse`. -/
theorem closings_apply (box : ChunkedSecureBox) :
    (closings box).foldl Closing.apply { box with removed := true } = box.collapse := by
  have hpools : ∀ (ks : List ℕ) (box' : ChunkedSecureBox),
      (ks.map Closing.pool).foldl Closing.apply box'
      = { box' with pools := modifyAll ChunkPool.collapse ks box'.pools } := by
    intro ks
    induction ks with
    | nil => exact fun box' => rfl
    | cons k ks ih =>
      intro box'
      rw [List.map_cons, List.foldl_cons, ih]
      rfl
  have hcurrent := guardClosings_apply box { box with removed := true } (g := box.currentGuard) <| by
    intro guard' hguard'
    change box.guards[box.currentGuard]? = some guard' at hguard'
    rw [hguard']
    rfl
  have hnext := guardClosings_apply box { box with
      removed := true
      guards := box.guards.modify box.currentGuard SplitKeyGuard.collapse }
      (g := box.nextGuard) <| by
    -- a guard that has been collapsed has as many cells as before
    intro guard' hguard'
    change (box.guards.modify box.currentGuard SplitKeyGuard.collapse)[box.nextGuard]?
      = some guard' at hguard'
    rw [List.getElem?_modify] at hguard'
    obtain ⟨guard, hguard, hmap⟩ := Option.map_eq_some_iff.mp hguard'
    rw [hguard, ← hmap]
    split
    · exact (List.length_map ..).symm
    · rfl
  rw [closings, List.foldl_append, List.foldl_append, hcurrent, hnext, hpools,
    ChunkedSecureBox.collapse]
  dsimp only
  rw [modifyAll_range]

/-! ### Steps of the retrieval -/

/-- The next cell of a key, or the key if there is none left. -/
def readCell (P : Primitives) (box : ChunkedSecureBox) (g : ℕ) (read : List UInt8) :
    Except PyError (List UInt8 ⊕ Bytes) := do
  let guard ← pyIndex box.guards g
  match guard.cells[read.length]? with
  | some cell => do
    let b ← cell.read
    return .inl (read ++ [b])
  | none => do
    let key ← P.decompress read
    return .inr key

/-- `bytes(buf[o:o + NONCE_LEN])`. -/
def readNonce (pools : List ChunkPool) (c : Chunk) : Except PyError Bytes := do
  let pool ← pyIndex pools c.pool
  pool.slice c.offset nonceLen

/-- The rest of `_Chunk.decrypt`. -/
def openRest (P : Primitives) (pools : List ChunkPool) (keys : Bytes × Bytes)
    (entry : Chunk × Bool) (nonce : Bytes) : Except PyError Bytes := do
  let pool ← pyIndex pools entry.1.pool
  let ct ← pool.slice (entry.1.offset + nonceLen) entry.1.payloadLen
  let compressed ← P.decrypt (if entry.2 then keys.2 else keys.1) nonce ct
  P.unpack compressed

variable (P : Primitives) (wrap : ℕ → Bytes → Except PyError Bytes)

/-- The next step of the retrieval: what is passed to `write`, which ends as given, and where
the retrieval is then. -/
def Reader.step (box : ChunkedSecureBox) (write : Except PyError Unit) :
    Reader → List Bytes × Reader
  | .waiting => ([], .current [])
  | .current read =>
    match readCell P box box.currentGuard read with
    | .error e => ([], .raised e)
    | .ok (.inl read) => ([], .current read)
    | .ok (.inr key) => ([], .next key [])
  | .next currentKey read =>
    match readCell P box box.nextGuard read with
    | .error e => ([], .raised e)
    | .ok (.inl read) => ([], .next currentKey read)
    | .ok (.inr key) => ([], .loop (currentKey, key) box.entries 0 box.dataLen)
  | .loop _ [] _ _ => ([], .returned)
  | .loop keys (entry :: rest) i remaining =>
    if remaining = 0 then ([], .returned)
    else
      match readNonce box.pools entry.1 with
      | .error e => ([], .raised e)
      | .ok nonce => ([], .ciphertext keys nonce entry rest i remaining)
  | .ciphertext keys nonce entry rest i remaining =>
    match openRest P box.pools keys entry nonce with
    | .error e => ([], .raised e)
    | .ok plaintext =>
      let piece := plaintext.take (min entry.1.plainLen remaining)
      match wrap i piece with
      | .error e => ([], .raised e)
      | .ok out =>
        match write with
        | .error e => ([out], .raised e)
        | .ok () => ([out], .loop keys rest (i + 1) (remaining - piece.length))
  | .returned => ([], .returned)
  | .raised e => ([], .raised e)

inductive Event
  | acquire
  | reader (write : Except PyError Unit)
  | flag
  | close
  | bounce (cell : ℕ × ℕ)

/-- One step of anyone.  Hops are left out: before the flag they give another box to start
from, and after it the scheduler makes none. -/
inductive Step : State → Event → State → Prop
  | acquire {s : State} : s.reader = .waiting →
      Step s .acquire { s with reader := .current [], late := s.box.removed }
  | reader {s : State} (write : Except PyError Unit) : s.reader.Locked →
      Step s (.reader write)
        { s with
          reader := (s.reader.step P wrap s.box write).2
          written := s.written ++ (s.reader.step P wrap s.box write).1 }
  | flag {s : State} : s.closer = none → ¬ s.reader.Locked →
      Step s .flag
        { s with box := { s.box with removed := true }, closer := some (closings s.box) }
  | close {s : State} {c : Closing} {todo : List Closing} : s.closer = some (c :: todo) →
      (∀ g, c = .guard g → s.reader.guard? s.box ≠ some g) →
      Step s .close { s with box := c.apply s.box, closer := some todo }
  | bounce {s : State} {cell : ℕ × ℕ} : s.reader.guard? s.box ≠ some cell.1 →
      Step s (.bounce cell) { s with box := s.box.bounce cell }

/-! ### The property and the condition -/

/-- What an undisturbed stream of the box writes. -/
def Complete (box₀ : ChunkedSecureBox) (written : List Bytes) : Prop :=
  (box₀.stream P [] wrap fun _ => .ok ()).2 = (written, .ok ())

/-- All or nothing, and nothing if the lock was taken after the flag was set. -/
structure Good (box₀ : ChunkedSecureBox) (s : State) : Prop where
  returned : s.reader = .returned → Complete P wrap box₀ s.written
  raised : ∀ e, s.reader = .raised e → s.written = []
  late : s.late = true → s.written = []

/-- The pool of the chunk has not been closed. -/
def PoolOpen (box : ChunkedSecureBox) (c : Chunk) : Prop :=
  ∃ pool, box.pools[c.pool]? = some pool ∧ pool.closed = false

/-- The piece in the chunk can be wrapped, as far as it can be read: for `stream_to` always. -/
def Wrappable (box : ChunkedSecureBox) (keys : Bytes × Bytes) (entry : Chunk × Bool)
    (i remaining : ℕ) : Prop :=
  ∀ plaintext, openEntry P box.pools keys entry = .ok plaintext →
    ∃ out, wrap i (plaintext.take (min entry.1.plainLen remaining)) = .ok out

/-- A retrieval that took the lock late comes to a chunk only when its pool has been closed, or
its piece cannot be wrapped; for one that was not late wrapping may fail at the first chunk only,
and `write` returns. -/
def Meets (s : State) (event : Event) : Prop :=
  ∀ write keys nonce entry rest i remaining, event = .reader write →
    s.reader = .ciphertext keys nonce entry rest i remaining →
    (s.late = true → ¬ (PoolOpen s.box entry.1 ∧ Wrappable P wrap s.box keys entry i remaining)) ∧
    (s.late = false → Wrappable P wrap s.box keys entry i remaining ∧ write = .ok () ∨
      ¬ Wrappable P wrap s.box keys entry i remaining ∧ i = 0)

/-! ### What the threads leave alone -/

variable {P wrap}

/-- The box but for what the closer and the cell scheduler have done to it. -/
structure Same (box₀ box : ChunkedSecureBox) : Prop where
  dataLen : box.dataLen = box₀.dataLen
  entries : box.entries = box₀.entries
  currentGuard : box.currentGuard = box₀.currentGuard
  nextGuard : box.nextGuard = box₀.nextGuard
  pools : ∀ (k : ℕ) (pool : ChunkPool), box₀.pools[k]? = some pool →
    box.pools[k]? = some pool ∨ box.pools[k]? = some pool.collapse

/-- Every cell of the guard is closed or gives its byte. -/
structure Sealed (bytes : List UInt8) (guard : SplitKeyGuard) : Prop where
  length : guard.cells.length = bytes.length
  cell : ∀ (k : ℕ) (c : RawCell), guard.cells[k]? = some c →
    c.closed = true ∨ ∃ b, bytes[k]? = some b ∧ c.read = .ok b

/-- So it is for a guard whose key reconstructs. -/
theorem sealed_of_reconstruct {guard : SplitKeyGuard} {key : Bytes}
    (h : guard.reconstruct P = .ok key) :
    ∃ bytes, Sealed bytes guard ∧ P.decompress bytes = .ok key := by
  obtain ⟨bytes, hread, hkey⟩ := bind_eq_ok.mp h
  refine ⟨bytes, ?_, hkey⟩
  clear h hkey
  obtain ⟨cells, removed⟩ := guard
  change cells.mapM RawCell.read = .ok bytes at hread
  induction cells generalizing bytes with
  | nil =>
    obtain rfl := Except.ok.inj hread
    exact ⟨rfl, fun k c hc => nomatch hc⟩
  | cons cell cells ih =>
    rw [List.mapM_cons] at hread
    obtain ⟨b, hb, hread⟩ := bind_eq_ok.mp hread
    obtain ⟨rest, hrest, hbytes⟩ := bind_eq_ok.mp hread
    obtain rfl := Except.ok.inj hbytes
    obtain ⟨hlen, hcell⟩ := ih rest hrest
    refine ⟨congrArg (· + 1) hlen, fun k c hc => ?_⟩
    cases k with
    | zero =>
      obtain rfl := Option.some.inj hc
      exact Or.inr ⟨b, rfl, hb⟩
    | succ k => exact hcell k c hc

theorem Sealed.removed {bytes : List UInt8} {guard : SplitKeyGuard} (h : Sealed bytes guard)
    (removed : Bool) : Sealed bytes { guard with removed := removed } := ⟨h.length, h.cell⟩

theorem Sealed.modify {bytes : List UInt8} {guard : SplitKeyGuard} (h : Sealed bytes guard)
    (k : ℕ) {f : RawCell → RawCell}
    (hf : ∀ c, (f c).closed = true ∨ (f c).closed = c.closed ∧ (f c).read = c.read) :
    Sealed bytes { guard with cells := guard.cells.modify k f } where
  length := (List.length_modify ..).trans h.length
  cell := by
    intro j c hc
    change (guard.cells.modify k f)[j]? = some c at hc
    rw [List.getElem?_modify] at hc
    obtain ⟨d, hd, hmap⟩ := Option.map_eq_some_iff.mp hc
    by_cases hk : k = j
    · rw [if_pos hk] at hmap
      obtain rfl : f d = c := hmap
      rcases hf d with hclosed | ⟨hclosed, hread⟩
      · exact Or.inl hclosed
      · rw [hclosed, hread]
        exact h.cell j d hd
    · rw [if_neg hk] at hmap
      obtain rfl : d = c := hmap
      exact h.cell j d hd

theorem Sealed.bounceCell {bytes : List UInt8} {guard : SplitKeyGuard} (h : Sealed bytes guard)
    (k : ℕ) : Sealed bytes (guard.bounceCell k) := by
  unfold SplitKeyGuard.bounceCell
  split
  · exact h
  · refine h.modify k fun c => Or.inr ⟨?_, c.read_bounce⟩
    unfold RawCell.bounce
    cases c.active <;> rfl

/-- The guard at a position is sealed, whatever is done to one of the guards. -/
theorem sealed_modify {guards : List SplitKeyGuard} {bytes : List UInt8} {g j : ℕ}
    {f : SplitKeyGuard → SplitKeyGuard}
    (h : ∃ guard, guards[j]? = some guard ∧ Sealed bytes guard)
    (hf : ∀ guard, Sealed bytes guard → Sealed bytes (f guard)) :
    ∃ guard, (guards.modify g f)[j]? = some guard ∧ Sealed bytes guard := by
  obtain ⟨guard, hguard, hsealed⟩ := h
  rw [List.getElem?_modify, hguard]
  by_cases hg : g = j
  · exact ⟨f guard, by simp [hg], hf guard hsealed⟩
  · exact ⟨guard, by simp [hg], hsealed⟩

/-- Closing a part of the box leaves the rest. -/
theorem Same.apply {box₀ box : ChunkedSecureBox} (h : Same box₀ box) (c : Closing) :
    Same box₀ (c.apply box) := by
  cases c with
  | guard g => exact ⟨h.dataLen, h.entries, h.currentGuard, h.nextGuard, h.pools⟩
  | cell g k => exact ⟨h.dataLen, h.entries, h.currentGuard, h.nextGuard, h.pools⟩
  | pool k =>
    refine ⟨h.dataLen, h.entries, h.currentGuard, h.nextGuard, fun j pool hpool => ?_⟩
    show (box.pools.modify k ChunkPool.collapse)[j]? = _ ∨ _
    rw [Closing.apply, List.getElem?_modify]
    by_cases hk : k = j
    · right
      rcases h.pools j pool hpool with hj | hj
      · simp [hj, hk]
      · simp [hj, hk, ChunkPool.collapse]
    · rcases h.pools j pool hpool with hj | hj
      · left
        simp [hj, hk]
      · right
        simp [hj, hk]

/-- The guards stay sealed when a part of the box is closed. -/
theorem sealed_apply {box : ChunkedSecureBox} {bytes : List UInt8} {j : ℕ}
    (h : ∃ guard, box.guards[j]? = some guard ∧ Sealed bytes guard) (c : Closing) :
    ∃ guard, (c.apply box).guards[j]? = some guard ∧ Sealed bytes guard := by
  cases c with
  | guard g => exact sealed_modify h fun guard hs => hs.removed true
  | cell g k => exact sealed_modify h fun guard hs => hs.modify k fun c => Or.inl rfl
  | pool k => exact h

/-! ### What the retrieval sees -/

/-- The pool of a chunk is as it was, or closed. -/
theorem Same.pool_cases {box₀ box : ChunkedSecureBox} (h : Same box₀ box) {c : Chunk}
    {pool : ChunkPool} (hpool : box₀.pools[c.pool]? = some pool) (hopen : pool.closed = false) :
    PoolOpen box c ∧ box.pools[c.pool]? = some pool ∨
      ¬ PoolOpen box c ∧ box.pools[c.pool]? = some pool.collapse := by
  rcases h.pools c.pool pool hpool with hsame | hclosed
  · exact Or.inl ⟨⟨pool, hsame, hopen⟩, hsame⟩
  · refine Or.inr ⟨?_, hclosed⟩
    rintro ⟨pool', hpool', hopen'⟩
    obtain rfl := Option.some.inj (hclosed.symm.trans hpool')
    exact Bool.false_ne_true hopen'.symm

/-- The two reads of a chunk are `decrypt`. -/
theorem openEntry_eq (P : Primitives) (pools : List ChunkPool) (keys : Bytes × Bytes)
    (entry : Chunk × Bool) : openEntry P pools keys entry = (do
      let nonce ← readNonce pools entry.1
      openRest P pools keys entry nonce) := by
  rw [openEntry, Chunk.decrypt, Chunk.payload, readNonce]
  cases hpool : pyIndex pools entry.1.pool with
  | error e => rfl
  | ok pool =>
    simp only [ok_bind, openRest, hpool]
    cases hnonce : pool.slice entry.1.offset nonceLen with
    | error e => rfl
    | ok nonce =>
      simp only [ok_bind]
      cases hct : pool.slice (entry.1.offset + nonceLen) entry.1.payloadLen with
      | error e => rfl
      | ok ct => rfl

/-- A chunk that opens has a pool that is not closed. -/
theorem pool_of_openEntry {pools : List ChunkPool} {keys : Bytes × Bytes}
    {entry : Chunk × Bool} {p : Bytes} (h : openEntry P pools keys entry = .ok p) :
    ∃ pool nonce, pools[entry.1.pool]? = some pool ∧ pool.closed = false ∧
      readNonce pools entry.1 = .ok nonce ∧ openRest P pools keys entry nonce = .ok p := by
  rw [openEntry_eq] at h
  obtain ⟨nonce, hnonce, hrest⟩ := bind_eq_ok.mp h
  obtain ⟨pool, hpool, hslice⟩ := bind_eq_ok.mp hnonce
  refine ⟨pool, nonce, pyIndex_eq_ok.mp hpool, ?_, hnonce, hrest⟩
  unfold ChunkPool.slice at hslice
  split at hslice
  · cases hslice
  · exact Bool.eq_false_iff.mpr ‹_›

theorem readNonce_congr {pools pools' : List ChunkPool} {c : Chunk} {pool : ChunkPool}
    (hpool : pools[c.pool]? = some pool) (hpool' : pools'[c.pool]? = some pool) :
    readNonce pools' c = readNonce pools c := by
  rw [readNonce, readNonce, pyIndex_natCast hpool, pyIndex_natCast hpool']

theorem openRest_congr {pools pools' : List ChunkPool} {entry : Chunk × Bool}
    {pool : ChunkPool} (hpool : pools[entry.1.pool]? = some pool)
    (hpool' : pools'[entry.1.pool]? = some pool) (keys : Bytes × Bytes) (nonce : Bytes) :
    openRest P pools' keys entry nonce = openRest P pools keys entry nonce := by
  rw [openRest, openRest, pyIndex_natCast hpool, pyIndex_natCast hpool']

/-- Nothing is read out of a closed pool. -/
theorem read_closed {pools : List ChunkPool} (entry : Chunk × Bool) {pool : ChunkPool}
    (hpool : pools[entry.1.pool]? = some pool.collapse) (keys : Bytes × Bytes) (nonce : Bytes) :
    readNonce pools entry.1 = .error .valueError ∧
      openRest P pools keys entry nonce = .error .valueError := by
  rw [readNonce, openRest, pyIndex_natCast hpool]
  exact ⟨rfl, rfl⟩

/-- One more cell of a sealed guard, or all of them have been read. -/
theorem readCell_cases {box : ChunkedSecureBox} {g : ℕ} {bytes read : List UInt8}
    (h : ∃ guard, box.guards[g]? = some guard ∧ Sealed bytes guard)
    (hread : read = bytes.take read.length) :
    (∃ e, readCell P box g read = .error e) ∨
      (∃ b, readCell P box g read = .ok (.inl (read ++ [b])) ∧
        read ++ [b] = bytes.take (read ++ [b]).length) ∨
      ∃ key, readCell P box g read = .ok (.inr key) ∧ P.decompress bytes = .ok key := by
  obtain ⟨guard, hguard, hsealed⟩ := h
  rw [readCell, pyIndex_natCast hguard, ok_bind]
  cases hc : guard.cells[read.length]? with
  | some c =>
    dsimp only
    rcases hsealed.cell _ _ hc with hclosed | ⟨b, hb, hok⟩
    · left
      rw [RawCell.read, if_pos hclosed]
      exact ⟨_, rfl⟩
    · right
      left
      refine ⟨b, by rw [hok]; rfl, ?_⟩
      rw [List.length_append, List.length_singleton, List.take_add_one, ← hread, hb]
      rfl
  | none =>
    dsimp only
    have hall : read = bytes := by
      rw [hread]
      refine List.take_of_length_le ?_
      rw [← hsealed.length]
      exact List.getElem?_eq_none_iff.mp hc
    rw [hall]
    cases hkey : P.decompress bytes with
    | error e => exact Or.inl ⟨e, rfl⟩
    | ok key => exact Or.inr (Or.inr ⟨key, rfl, rfl⟩)

/-! ### The invariant -/

section Invariant

variable (P wrap) (box₀ : ChunkedSecureBox) (ck nk : Bytes) (cb nb : List UInt8)

/-- The loop over the chunks of an undisturbed stream, from a place in it. -/
def left (rest : List (Chunk × Bool)) (i remaining : ℕ) : List Bytes × Except PyError Unit :=
  streamLoop P box₀.pools (ck, nk) wrap (fun _ => .ok ()) rest i remaining

/-- What has been written and what is left make up what an undisturbed stream writes. -/
def Left (rest : List (Chunk × Bool)) (i remaining : ℕ) (written : List Bytes) : Prop :=
  left P wrap box₀ ck nk box₀.entries 0 box₀.dataLen
    = (written ++ (left P wrap box₀ ck nk rest i remaining).1,
      (left P wrap box₀ ck nk rest i remaining).2)

/-- What is known of the retrieval from where it is. -/
def At (written : List Bytes) : Reader → Prop
  | .waiting => written = []
  | .current read => written = [] ∧ read = cb.take read.length
  | .next currentKey read => written = [] ∧ currentKey = ck ∧ read = nb.take read.length
  | .loop keys rest i remaining => keys = (ck, nk) ∧ rest ⊆ box₀.entries ∧
      Left P wrap box₀ ck nk rest i remaining written ∧ written.length = i
  | .ciphertext keys nonce entry rest i remaining => keys = (ck, nk) ∧
      entry :: rest ⊆ box₀.entries ∧ remaining ≠ 0 ∧ readNonce box₀.pools entry.1 = .ok nonce ∧
      Left P wrap box₀ ck nk (entry :: rest) i remaining written ∧ written.length = i
  | .returned => Complete P wrap box₀ written
  | .raised _ => True

/-- The invariant. -/
structure Inv (s : State) : Prop where
  same : Same box₀ s.box
  current : ∃ guard, s.box.guards[box₀.currentGuard]? = some guard ∧ Sealed cb guard
  next : ∃ guard, s.box.guards[box₀.nextGuard]? = some guard ∧ Sealed nb guard
  quiet : s.closer = none → s.box.pools = box₀.pools
  flagged : s.closer ≠ none → s.box.removed = true
  early : s.reader.Locked → s.late = false → s.closer = none
  at_ : At P wrap box₀ ck nk cb nb s.written s.reader

/-- What is fixed of a box that a retrieval and a removal start from. -/
structure Given : Prop where
  holds : ∃ plains, Holds P plains ck nk box₀
  current : P.decompress cb = .ok ck
  next : P.decompress nb = .ok nk

end Invariant

variable {box₀ : ChunkedSecureBox} {ck nk : Bytes} {cb nb : List UInt8} {s : State}

theorem Given.complete_iff (h : Given P box₀ ck nk cb nb) (written : List Bytes) :
    Complete P wrap box₀ written ↔
      left P wrap box₀ ck nk box₀.entries 0 box₀.dataLen = (written, .ok ()) := by
  obtain ⟨plains, hold⟩ := h.holds
  rw [Complete, stream, (hold.paused true).readKeys]
  exact Iff.rfl

theorem Given.opens (h : Given P box₀ ck nk cb nb) {entry : Chunk × Bool}
    (hentry : entry ∈ box₀.entries) : ∃ p, openEntry P box₀.pools (ck, nk) entry = .ok p := by
  obtain ⟨plains, hold⟩ := h.holds
  have hopens := hold.opens
  clear hold
  generalize box₀.entries = entries at hopens hentry
  induction hopens with
  | nil => exact nomatch hentry
  | cons hfirst _ ih =>
    rcases List.mem_cons.mp hentry with rfl | hrest
    · exact ⟨_, hfirst.1⟩
    · exact ih hrest

/-- A retrieval that was not late has the pools to itself. -/
theorem Inv.steady (h : Inv P wrap box₀ ck nk cb nb s) (hlocked : s.reader.Locked)
    (hlate : s.late = false) : s.box.pools = box₀.pools := h.quiet (h.early hlocked hlate)

/-- **A chunk comes up.**  Its pool is closed; or its piece cannot be wrapped; or the piece is
passed to `write`. -/
theorem Inv.chunk_cases (hgiven : Given P box₀ ck nk cb nb) (h : Inv P wrap box₀ ck nk cb nb s)
    {keys : Bytes × Bytes} {nonce : Bytes} {entry : Chunk × Bool} {rest : List (Chunk × Bool)}
    {i remaining : ℕ} (hat : s.reader = .ciphertext keys nonce entry rest i remaining)
    (write : Except PyError Unit) :
    (¬ PoolOpen s.box entry.1 ∧ s.reader.step P wrap s.box write = ([], .raised .valueError)) ∨
    (PoolOpen s.box entry.1 ∧ ¬ Wrappable P wrap s.box keys entry i remaining ∧
      ∃ e, s.reader.step P wrap s.box write = ([], .raised e)) ∨
    (PoolOpen s.box entry.1 ∧ Wrappable P wrap s.box keys entry i remaining ∧
      ∃ out remaining', left P wrap box₀ ck nk (entry :: rest) i remaining
          = (out :: (left P wrap box₀ ck nk rest (i + 1) remaining').1,
            (left P wrap box₀ ck nk rest (i + 1) remaining').2) ∧
        s.reader.step P wrap s.box write = ([out], match write with
          | .error e => .raised e
          | .ok () => .loop keys rest (i + 1) remaining')) := by
  have hknown := h.at_
  rw [hat] at hknown ⊢
  obtain ⟨rfl, hsub, hpos, hnonce, -⟩ := hknown
  obtain ⟨p, hopen⟩ := hgiven.opens (hsub List.mem_cons_self)
  obtain ⟨pool, nonce', hpool, hpoolopen, hnonce', hrest⟩ := pool_of_openEntry hopen
  obtain rfl := Except.ok.inj (hnonce'.symm.trans hnonce)
  rcases h.same.pool_cases hpool hpoolopen with ⟨hyes, hsame⟩ | ⟨hno, hclosed⟩
  swap
  · left
    refine ⟨hno, ?_⟩
    rw [Reader.step, (read_closed _ hclosed _ _).2]
  right
  have hread : openRest P s.box.pools (ck, nk) entry nonce' = .ok p :=
    (openRest_congr hpool hsame _ _).trans hrest
  have hopen' : openEntry P s.box.pools (ck, nk) entry = .ok p := by
    rw [openEntry_eq, readNonce_congr hpool hsame, hnonce', ok_bind, hread]
  set piece := p.take (min entry.1.plainLen remaining) with hpiece
  cases hwrap : wrap i piece with
  | error e =>
    left
    refine ⟨hyes, fun hwrappable => ?_, e, ?_⟩
    · obtain ⟨out, hout⟩ := hwrappable p hopen'
      exact nomatch hwrap.symm.trans hout
    · simp only [Reader.step, hread, ← hpiece, hwrap]
  | ok out =>
    right
    refine ⟨hyes, ?_, out, remaining - piece.length, ?_, ?_⟩
    · intro plaintext hplaintext
      obtain rfl := Except.ok.inj (hopen'.symm.trans hplaintext)
      exact ⟨out, hwrap⟩
    · rw [left, streamLoop, if_neg hpos, hopen]
      simp only [← hpiece, hwrap]
      rfl
    · simp only [Reader.step, hread, ← hpiece, hwrap]
      cases write <;> rfl

/-- The head of the loop: it is over, or the nonce of the next chunk is read, or its pool is
closed. -/
theorem Inv.loop_cases (hgiven : Given P box₀ ck nk cb nb) (h : Inv P wrap box₀ ck nk cb nb s)
    {keys : Bytes × Bytes} {rest : List (Chunk × Bool)} {i remaining : ℕ}
    (hat : s.reader = .loop keys rest i remaining) (write : Except PyError Unit) :
    (s.reader.step P wrap s.box write = ([], .returned) ∧
      left P wrap box₀ ck nk rest i remaining = ([], .ok ())) ∨
    ∃ entry rest', rest = entry :: rest' ∧ remaining ≠ 0 ∧
      (¬ PoolOpen s.box entry.1 ∧
          s.reader.step P wrap s.box write = ([], .raised .valueError) ∨
        ∃ nonce, readNonce box₀.pools entry.1 = .ok nonce ∧
          s.reader.step P wrap s.box write
            = ([], .ciphertext keys nonce entry rest' i remaining)) := by
  have hknown := h.at_
  rw [hat] at hknown ⊢
  obtain ⟨rfl, hsub, -⟩ := hknown
  cases rest with
  | nil => exact Or.inl ⟨rfl, by rw [left, streamLoop]⟩
  | cons entry rest =>
    by_cases hzero : remaining = 0
    · left
      rw [Reader.step, if_pos hzero, left, streamLoop, if_pos hzero]
      exact ⟨rfl, rfl⟩
    · refine Or.inr ⟨entry, rest, rfl, hzero, ?_⟩
      obtain ⟨p, hopen⟩ := hgiven.opens (hsub List.mem_cons_self)
      obtain ⟨pool, nonce, hpool, hpoolopen, hnonce, -⟩ := pool_of_openEntry hopen
      rw [Reader.step, if_neg hzero]
      rcases h.same.pool_cases hpool hpoolopen with ⟨-, hsame⟩ | ⟨hno, hclosed⟩
      · right
        rw [readNonce_congr hpool hsame, hnonce]
        exact ⟨nonce, rfl, rfl⟩
      · left
        rw [(read_closed (P := P) entry hclosed (ck, nk) []).1]
        exact ⟨hno, rfl⟩

/-- The reading of a key: it raises, goes on, or ends with the key. -/
theorem Inv.key_cases (hgiven : Given P box₀ ck nk cb nb) (h : Inv P wrap box₀ ck nk cb nb s)
    (write : Except PyError Unit) {read : List UInt8} (currentKey : Bytes)
    (hat : s.reader = .current read ∨ s.reader = .next currentKey read) :
    (s.reader.step P wrap s.box write).1 = [] ∧
      At P wrap box₀ ck nk cb nb [] (s.reader.step P wrap s.box write).2 := by
  have hknown := h.at_
  rcases hat with hat | hat
  · rw [hat] at hknown ⊢
    obtain ⟨-, hread⟩ := hknown
    have hguard := h.current
    rw [← h.same.currentGuard] at hguard
    rw [Reader.step]
    obtain ⟨e, hcell⟩ | ⟨b, hcell, htake⟩ | ⟨key, hcell, hkey⟩ :=
      readCell_cases (P := P) hguard hread
    · rw [hcell]
      exact ⟨rfl, trivial⟩
    · rw [hcell]
      exact ⟨rfl, rfl, htake⟩
    · rw [hcell]
      exact ⟨rfl, rfl, Except.ok.inj (hkey.symm.trans hgiven.current), rfl⟩
  · rw [hat] at hknown ⊢
    obtain ⟨-, rfl, hread⟩ := hknown
    have hguard := h.next
    rw [← h.same.nextGuard] at hguard
    rw [Reader.step]
    obtain ⟨e, hcell⟩ | ⟨b, hcell, htake⟩ | ⟨key, hcell, hkey⟩ :=
      readCell_cases (P := P) hguard hread
    · rw [hcell]
      exact ⟨rfl, trivial⟩
    · rw [hcell]
      exact ⟨rfl, rfl, rfl, htake⟩
    · rw [hcell]
      obtain rfl := Except.ok.inj (hkey.symm.trans hgiven.next)
      refine ⟨rfl, rfl, ?_, ?_, rfl⟩
      · rw [h.same.entries]
        exact List.Subset.refl _
      · rw [Left, h.same.entries, h.same.dataLen]
        rfl

/-! ### Every step -/

theorem written_nil_of_at {written : List Bytes} {reader : Reader}
    (h : At P wrap box₀ ck nk cb nb [] reader) (hwritten : written = []) :
    At P wrap box₀ ck nk cb nb (written ++ []) reader := by
  rw [hwritten]
  exact h

/-- **The retrieval moves.**  It stays on its course, and it passes something to `write` only
when it has found a chunk whose pool is open and whose piece can be wrapped. -/
theorem Inv.reader (hgiven : Given P box₀ ck nk cb nb) (h : Inv P wrap box₀ ck nk cb nb s)
    (hlocked : s.reader.Locked) (write : Except PyError Unit) :
    At P wrap box₀ ck nk cb nb (s.written ++ (s.reader.step P wrap s.box write).1)
        (s.reader.step P wrap s.box write).2 ∧
      ((s.reader.step P wrap s.box write).1 = [] ∨
        ∃ keys nonce entry rest i remaining,
          s.reader = .ciphertext keys nonce entry rest i remaining ∧
          PoolOpen s.box entry.1 ∧ Wrappable P wrap s.box keys entry i remaining) := by
  have hat := h.at_
  cases hreader : s.reader with
  | waiting => rw [hreader] at hlocked; exact hlocked.elim
  | returned => rw [hreader] at hlocked; exact hlocked.elim
  | raised e => rw [hreader] at hlocked; exact hlocked.elim
  | current read =>
    have hkey := h.key_cases hgiven write [] (Or.inl hreader)
    rw [hreader] at hkey hat
    rw [hkey.1]
    exact ⟨written_nil_of_at hkey.2 hat.1, Or.inl rfl⟩
  | next currentKey read =>
    have hkey := h.key_cases hgiven write currentKey (Or.inr hreader)
    rw [hreader] at hkey hat
    rw [hkey.1]
    exact ⟨written_nil_of_at hkey.2 hat.1, Or.inl rfl⟩
  | loop keys rest i remaining =>
    have hcases := h.loop_cases hgiven hreader write
    rw [hreader] at hcases hat
    obtain ⟨hkeys, hsub, hleft, hcount⟩ := hat
    obtain ⟨hstep, hdone⟩ | ⟨entry, rest', rfl, hpos, ⟨-, hstep⟩ | ⟨nonce, hnonce, hstep⟩⟩ := hcases
    · rw [hstep]
      refine ⟨?_, Or.inl rfl⟩
      show Complete P wrap box₀ (s.written ++ [])
      rw [hgiven.complete_iff]
      rw [Left, hdone] at hleft
      exact hleft
    · rw [hstep]
      exact ⟨trivial, Or.inl rfl⟩
    · rw [hstep, List.append_nil]
      exact ⟨⟨hkeys, hsub, hpos, hnonce, hleft, hcount⟩, Or.inl rfl⟩
  | ciphertext keys nonce entry rest i remaining =>
    have hcases := h.chunk_cases hgiven hreader write
    rw [hreader] at hcases hat
    obtain ⟨hkeys, hsub, -, -, hleft, hcount⟩ := hat
    obtain ⟨-, hstep⟩ | ⟨-, -, e, hstep⟩ | ⟨hyes, hwrap, out, remaining', hmore, hstep⟩ := hcases
    · rw [hstep]
      exact ⟨trivial, Or.inl rfl⟩
    · rw [hstep]
      exact ⟨trivial, Or.inl rfl⟩
    · rw [hstep]
      refine ⟨?_, Or.inr ⟨_, _, _, _, _, _, rfl, hyes, hwrap⟩⟩
      cases write with
      | error e => trivial
      | ok u =>
        refine ⟨hkeys, fun e he => hsub (List.mem_cons_of_mem _ he), ?_, ?_⟩
        · rw [Left, hmore] at hleft
          rw [Left, hleft, List.append_assoc]
          rfl
        · rw [List.length_append, hcount, List.length_singleton]

theorem Inv.start
    (hcurrent : ∃ guard, box₀.guards[box₀.currentGuard]? = some guard ∧ Sealed cb guard)
    (hnext : ∃ guard, box₀.guards[box₀.nextGuard]? = some guard ∧ Sealed nb guard) :
    Inv P wrap box₀ ck nk cb nb (start box₀) where
  same := ⟨rfl, rfl, rfl, rfl, fun _ _ h => Or.inl h⟩
  current := hcurrent
  next := hnext
  quiet _ := rfl
  flagged h := absurd rfl h
  early h := h.elim
  at_ := rfl

theorem Inv.step (hgiven : Given P box₀ ck nk cb nb) (h : Inv P wrap box₀ ck nk cb nb s)
    {s' : State} {event : Event} (hstep : Step P wrap s event s') :
    Inv P wrap box₀ ck nk cb nb s' := by
  cases hstep with
  | acquire hwaiting =>
    have hat := h.at_
    rw [hwaiting] at hat
    refine { h with early := fun _ hlate => ?_, at_ := ⟨hat, rfl⟩ }
    by_contra hclosing
    exact Bool.false_ne_true (hlate.symm.trans (h.flagged hclosing))
  | reader write hlocked =>
    exact { h with
      early := fun _ hlate => h.early hlocked hlate
      at_ := (h.reader hgiven hlocked write).1 }
  | flag hnone hfree =>
    exact { h with
      same := ⟨h.same.dataLen, h.same.entries, h.same.currentGuard, h.same.nextGuard,
        h.same.pools⟩
      quiet := fun hclosing => nomatch hclosing
      flagged := fun _ => rfl
      early := fun hlocked => absurd hlocked hfree }
  | @close c todo htodo hlock =>
    have hclosing : s.closer ≠ none := by
      rw [htodo]
      exact fun h => nomatch h
    refine { h with
      same := h.same.apply c
      current := sealed_apply h.current c
      next := sealed_apply h.next c
      quiet := fun hnone => nomatch hnone
      flagged := fun _ => ?_
      early := fun hlocked hlate => absurd (h.early hlocked hlate) hclosing }
    have hflag := h.flagged hclosing
    cases c <;> exact hflag
  | @bounce cell hlock =>
    exact { h with
      same := ⟨h.same.dataLen, h.same.entries, h.same.currentGuard, h.same.nextGuard,
        h.same.pools⟩
      current := sealed_modify h.current fun guard hs => hs.bounceCell _
      next := sealed_modify h.next fun guard hs => hs.bounceCell _
      quiet := h.quiet
      flagged := h.flagged }

/-- One that is not late has its pools open. -/
theorem Inv.poolOpen (hgiven : Given P box₀ ck nk cb nb) (h : Inv P wrap box₀ ck nk cb nb s)
    (hlocked : s.reader.Locked) (hlate : s.late = false) {entry : Chunk × Bool}
    (hentry : entry ∈ box₀.entries) : PoolOpen s.box entry.1 := by
  obtain ⟨p, hp⟩ := hgiven.opens hentry
  obtain ⟨pool, nonce, hpool, hpoolopen, -⟩ := pool_of_openEntry hp
  exact ⟨pool, by rwa [h.steady hlocked hlate], hpoolopen⟩

theorem Inv.mem_entries (h : Inv P wrap box₀ ck nk cb nb s) {keys : Bytes × Bytes}
    {nonce : Bytes} {entry : Chunk × Bool} {rest : List (Chunk × Bool)} {i remaining : ℕ}
    (hreader : s.reader = .ciphertext keys nonce entry rest i remaining) :
    entry ∈ box₀.entries := by
  have hat := h.at_
  rw [hreader] at hat
  exact hat.2.1 List.mem_cons_self

/-- The chunks are counted as they are written. -/
theorem Inv.length_written (h : Inv P wrap box₀ ck nk cb nb s) {keys : Bytes × Bytes}
    {nonce : Bytes} {entry : Chunk × Bool} {rest : List (Chunk × Bool)} {i remaining : ℕ}
    (hreader : s.reader = .ciphertext keys nonce entry rest i remaining) :
    s.written.length = i := by
  have hat := h.at_
  rw [hreader] at hat
  exact hat.2.2.2.2.2

/-- A step that meets the condition raises only when nothing has been written: only a late
retrieval finds a closed pool, and that one has written nothing. -/
theorem Inv.raised_nil (hgiven : Given P box₀ ck nk cb nb) (h : Inv P wrap box₀ ck nk cb nb s)
    (hgood : Good P wrap box₀ s) (hlocked : s.reader.Locked) {write : Except PyError Unit}
    (hmeets : Meets P wrap s (.reader write)) {e : PyError}
    (he : (s.reader.step P wrap s.box write).2 = .raised e) :
    s.written ++ (s.reader.step P wrap s.box write).1 = [] := by
  have hclosed : ∀ {entry}, entry ∈ box₀.entries → ¬ PoolOpen s.box entry.1 →
      s.written = [] := by
    intro entry hentry hno
    cases hlate : s.late with
    | true => exact hgood.late hlate
    | false => exact absurd (h.poolOpen hgiven hlocked hlate hentry) hno
  have hat := h.at_
  cases hreader : s.reader with
  | waiting => rw [hreader] at hlocked; exact hlocked.elim
  | returned => rw [hreader] at hlocked; exact hlocked.elim
  | raised e => rw [hreader] at hlocked; exact hlocked.elim
  | current read =>
    have hkey := (h.key_cases hgiven write [] (Or.inl hreader)).1
    rw [hreader] at hkey hat
    rw [hkey, hat.1]
    rfl
  | next currentKey read =>
    have hkey := (h.key_cases hgiven write currentKey (Or.inr hreader)).1
    rw [hreader] at hkey hat
    rw [hkey, hat.1]
    rfl
  | loop keys rest i remaining =>
    have hcases := h.loop_cases hgiven hreader write
    rw [hreader] at he hat hcases
    obtain ⟨hstep, -⟩ | ⟨entry, rest', rfl, -, ⟨hno, hstep⟩ | ⟨nonce, -, hstep⟩⟩ := hcases
    · rw [hstep] at he
      exact nomatch he
    · rw [hstep, hclosed (hat.2.1 List.mem_cons_self) hno]
      rfl
    · rw [hstep] at he
      exact nomatch he
  | ciphertext keys nonce entry rest i remaining =>
    have hcases := h.chunk_cases hgiven hreader write
    have hmeets := hmeets write keys nonce entry rest i remaining rfl hreader
    have hentry := h.mem_entries hreader
    rw [hreader] at he hcases
    obtain ⟨hno, hstep⟩ | ⟨-, hno, e', hstep⟩ | ⟨hyes, hwrap, out, remaining', -, hstep⟩ :=
      hcases
    · rw [hstep, hclosed hentry hno]
      rfl
    · rw [hstep, List.append_nil]
      cases hlate : s.late with
      | true => exact hgood.late hlate
      | false =>
        rcases hmeets.2 hlate with ⟨hwrap, -⟩ | ⟨-, rfl⟩
        · exact absurd hwrap hno
        · exact List.length_eq_zero_iff.mp (h.length_written hreader)
    · cases hlate : s.late with
      | true => exact absurd ⟨hyes, hwrap⟩ (hmeets.1 hlate)
      | false =>
        rcases hmeets.2 hlate with ⟨-, rfl⟩ | ⟨hno, -⟩
        · rw [hstep] at he
          exact nomatch he
        · exact absurd hwrap hno

/-- A step of a late retrieval that meets the condition writes nothing. -/
theorem Inv.late_nil (hgiven : Given P box₀ ck nk cb nb) (h : Inv P wrap box₀ ck nk cb nb s)
    (hgood : Good P wrap box₀ s) (hlocked : s.reader.Locked) {write : Except PyError Unit}
    (hmeets : Meets P wrap s (.reader write)) (hlate : s.late = true) :
    s.written ++ (s.reader.step P wrap s.box write).1 = [] := by
  rw [hgood.late hlate]
  obtain ⟨-, hnil | ⟨_, _, _, _, _, _, hreader, hyes, hwrap⟩⟩ := h.reader hgiven hlocked write
  · rw [hnil]
    rfl
  · exact absurd ⟨hyes, hwrap⟩ ((hmeets _ _ _ _ _ _ _ rfl hreader).1 hlate)

/-- A step after which nothing has gone wrong meets the condition. -/
theorem Inv.meets (hgiven : Given P box₀ ck nk cb nb) (h : Inv P wrap box₀ ck nk cb nb s)
    (hlocked : s.reader.Locked) {write : Except PyError Unit}
    (hraised : ∀ e, (s.reader.step P wrap s.box write).2 = .raised e →
      s.written ++ (s.reader.step P wrap s.box write).1 = [])
    (hlate' : s.late = true → s.written ++ (s.reader.step P wrap s.box write).1 = []) :
    Meets P wrap s (.reader write) := by
  intro write' keys nonce entry rest i remaining hevent hreader
  obtain rfl := Event.reader.inj hevent
  obtain ⟨hno, hstep⟩ | ⟨hyes, hno, e, hstep⟩ | ⟨hyes, hwrap, out, remaining', -, hstep⟩ :=
    h.chunk_cases hgiven hreader write
  · refine ⟨fun _ hboth => hno hboth.1, fun hlate => ?_⟩
    exact absurd (h.poolOpen hgiven hlocked hlate (h.mem_entries hreader)) hno
  · refine ⟨fun _ hboth => hno hboth.2, fun _ => Or.inr ⟨hno, ?_⟩⟩
    have hnil := hraised e (by rw [hstep])
    rw [hstep, List.append_nil] at hnil
    exact (h.length_written hreader).symm.trans (List.length_eq_zero_iff.mpr hnil)
  · have hsome : s.written ++ (s.reader.step P wrap s.box write).1 ≠ [] := by
      rw [hstep]
      exact List.append_ne_nil_of_right_ne_nil _ (List.cons_ne_nil _ _)
    refine ⟨fun hlate => absurd (hlate' hlate) hsome, fun _ => Or.inl ⟨hwrap, ?_⟩⟩
    cases hwrite : write with
    | ok u => rfl
    | error e =>
      refine absurd (hraised e ?_) hsome
      rw [hstep, hwrite]

/-- **One step.**  A step that meets the condition keeps all or nothing; any other step of
the retrieval breaks it. -/
theorem Inv.meets_iff (hgiven : Given P box₀ ck nk cb nb) (h : Inv P wrap box₀ ck nk cb nb s)
    (hgood : Good P wrap box₀ s) {s' : State} {event : Event} (hstep : Step P wrap s event s') :
    Meets P wrap s event ↔ Good P wrap box₀ s' := by
  have hat' := (h.step hgiven hstep).at_
  have hreturned : s'.reader = .returned → Complete P wrap box₀ s'.written := by
    intro hend
    rw [hend] at hat'
    exact hat'
  cases hstep with
  | acquire hwaiting =>
    have hat := h.at_
    rw [hwaiting] at hat
    refine iff_of_true (fun _ _ _ _ _ _ _ hevent => nomatch hevent) ⟨hreturned, ?_, fun _ => hat⟩
    exact fun e he => nomatch he
  | flag hnone hfree =>
    exact iff_of_true (fun _ _ _ _ _ _ _ hevent => nomatch hevent)
      ⟨hreturned, hgood.raised, hgood.late⟩
  | close htodo hlock =>
    exact iff_of_true (fun _ _ _ _ _ _ _ hevent => nomatch hevent)
      ⟨hreturned, hgood.raised, hgood.late⟩
  | bounce hlock =>
    exact iff_of_true (fun _ _ _ _ _ _ _ hevent => nomatch hevent)
      ⟨hreturned, hgood.raised, hgood.late⟩
  | reader write hlocked =>
    constructor
    · intro hmeets
      exact ⟨hreturned, fun e he => h.raised_nil hgiven hgood hlocked hmeets he,
        fun hlate => h.late_nil hgiven hgood hlocked hmeets hlate⟩
    · intro hgood'
      exact h.meets hgiven hlocked hgood'.raised hgood'.late

/-! ### Runs -/

/-- The bytes of both keys of a box that holds its data. -/
theorem exists_given (wrap : ℕ → Bytes → Except PyError Bytes) {plains : List Bytes}
    (hold : Holds P plains ck nk box₀) :
    ∃ cb nb, Given P box₀ ck nk cb nb ∧ Inv P wrap box₀ ck nk cb nb (start box₀) := by
  obtain ⟨guard, hguard, hck⟩ := reconstruct_eq_ok.mp hold.current
  obtain ⟨guard', hguard', hnk⟩ := reconstruct_eq_ok.mp hold.next
  obtain ⟨cb, hcb, hcurrent⟩ := sealed_of_reconstruct hck
  obtain ⟨nb, hnb, hnext⟩ := sealed_of_reconstruct hnk
  exact ⟨cb, nb, ⟨⟨plains, hold⟩, hcurrent, hnext⟩,
    Inv.start ⟨guard, hguard, hcb⟩ ⟨guard', hguard', hnb⟩⟩

/-- **Retrieval against deletion.**  From any box that hops and bounces lead to, and for any
wrapping of the pieces, an interleaving of a stream with `collapse` has all or nothing
written in every state, and nothing if the lock was taken after the flag was set, exactly
when every step of it meets the condition. -/
theorem complete_or_nothing_iff (P : Primitives) (wrap : ℕ → Bytes → Except PyError Bytes)
    {source : Source} {env : InitEnv} {data : Bytes} {chunkSize : ℕ}
    {trustGroup onNewGuard : Bool} {built box₀ : ChunkedSecureBox}
    (hbuilt : construct source P env data chunkSize trustGroup onNewGuard = .ok built)
    {hops : List ChunkedSecureBox.Event} (hhops : Run (ChunkedSecureBox.Step P) built hops box₀)
    {events : List Event} {s : State} :
    Run (Guarded (Step P wrap) (Meets P wrap)) (start box₀) events s ↔
      Run (fun s event s' => Step P wrap s event s' ∧ Good P wrap box₀ s') (start box₀) events s := by
  obtain ⟨plains, hregular⟩ := regular_construct hbuilt
  obtain ⟨ck, nk, hold, -⟩ := hhops.invariant hregular Regular.step
  obtain ⟨cb, nb, hgiven, hstart⟩ := exists_given wrap hold
  refine Run.guarded_iff hstart ⟨fun h => (nomatch h), fun e he => (nomatch he), fun _ => rfl⟩ ?_ ?_
  · intro t event u ht hstep
    exact ht.step hgiven hstep
  · intro t event u ht hgood hstep
    exact ht.meets_iff hgiven hgood hstep

/-! ### A partial retrieval -/

instance (r : Reader) : Decidable r.Locked := by
  cases r <;> unfold Reader.Locked <;> infer_instance

/-- The closing needs no lock that the retrieval has. -/
def Closing.free (s : State) : Closing → Bool
  | .guard g => s.reader.guard? s.box ≠ some g
  | .cell _ _ | .pool _ => true

/-- The step that an event stands for, if it can be taken. -/
def play (P : Primitives) (wrap : ℕ → Bytes → Except PyError Bytes) (s : State) :
    Event → Option State
  | .acquire =>
    match s.reader with
    | .waiting => some { s with reader := .current [], late := s.box.removed }
    | _ => none
  | .reader write =>
    if s.reader.Locked then
      let (out, reader) := s.reader.step P wrap s.box write
      some { s with reader := reader, written := s.written ++ out }
    else none
  | .flag =>
    if s.reader.Locked then none
    else match s.closer with
      | none =>
        some { s with box := { s.box with removed := true }, closer := some (closings s.box) }
      | some _ => none
  | .close =>
    match s.closer with
    | some (c :: todo) =>
      if c.free s then some { s with box := c.apply s.box, closer := some todo } else none
    | _ => none
  | .bounce cell =>
    if s.reader.guard? s.box ≠ some cell.1 then some { s with box := s.box.bounce cell } else none

theorem step_of_play {s' : State} {event : Event} (h : play P wrap s event = some s') :
    Step P wrap s event s' := by
  cases event with
  | acquire =>
    rw [play] at h
    split at h
    · obtain rfl := Option.some.inj h
      exact Step.acquire ‹_›
    · exact nomatch h
  | reader write =>
    rw [play] at h
    split at h
    · obtain rfl := Option.some.inj h
      exact Step.reader write ‹_›
    · exact nomatch h
  | flag =>
    rw [play] at h
    split at h
    · exact nomatch h
    · split at h
      · obtain rfl := Option.some.inj h
        exact Step.flag ‹_› ‹_›
      · exact nomatch h
  | close =>
    rw [play] at h
    split at h
    · split at h
      · rename_i c todo hcloser hfree
        obtain rfl := Option.some.inj h
        refine Step.close hcloser fun g hg => ?_
        rw [hg] at hfree
        exact of_decide_eq_true hfree
      · exact nomatch h
    · exact nomatch h
  | bounce cell =>
    rw [play] at h
    split at h
    · obtain rfl := Option.some.inj h
      exact Step.bounce ‹_›
    · exact nomatch h

theorem run_of_play {events : List Event} {s' : State}
    (h : events.foldlM (play P wrap) s = some s') : Run (Step P wrap) s events s' := by
  induction events generalizing s with
  | nil =>
    obtain rfl := Option.some.inj h
    exact Run.nil
  | cons event events ih =>
    rw [List.foldlM_cons] at h
    obtain ⟨t, ht, hrest⟩ := Option.bind_eq_some_iff.mp h
    exact (Run.single (step_of_play ht)).trans (ih hrest)

/-- `stream_to` of a box of two chunks that is being forgotten: the flag is set, the retrieval
takes the lock, reads both keys and writes the first chunk; then everything is closed. -/
def overtaken : List Event :=
  [.flag, .acquire] ++ List.replicate 70 (.reader (.ok ())) ++ List.replicate 69 .close ++
    [.reader (.ok ())]

/-- How it ends: is there an exception, what has been written, and was the lock taken late? -/
def overtakenEnd : Option (Bool × List Bytes × Bool) := do
  let box ← (construct .bytes Primitives.sample InitEnv.sample [1, 2, 3] 2 false false).toOption
  let s ← overtaken.foldlM (play Primitives.sample fun _ piece => .ok piece) (start box)
  return (match s.reader with | .raised _ => true | _ => false, s.written, s.late)

/-- A part of the file has been written, by a retrieval that took the lock after the flag was
set. -/
theorem partial_retrieval :
    ∃ box s e, construct .bytes Primitives.sample InitEnv.sample [1, 2, 3] 2 false false = .ok box ∧
      Run (Step Primitives.sample fun _ piece => .ok piece) (start box) overtaken s ∧
      s.late = true ∧ s.reader = .raised e ∧ s.written = [[1, 2]] ∧
      ¬ Good Primitives.sample (fun _ piece => .ok piece) box s := by
  have hend : overtakenEnd = some (true, [[1, 2]], true) := by decide +kernel
  simp only [overtakenEnd, Option.bind_eq_bind, Option.bind_eq_some_iff, Option.pure_def,
    Option.some.injEq, Prod.mk.injEq] at hend
  obtain ⟨box, hbox, s, hplay, hraised, hwritten, hlate⟩ := hend
  have hbuilt : construct .bytes Primitives.sample InitEnv.sample [1, 2, 3] 2 false false
      = .ok box := by
    cases hc : construct .bytes Primitives.sample InitEnv.sample [1, 2, 3] 2 false false with
    | error e =>
      rw [hc] at hbox
      exact nomatch hbox
    | ok box' =>
      rw [hc] at hbox
      rw [Option.some.inj hbox]
  have hgood : ¬ Good Primitives.sample (fun _ piece => .ok piece) box s := by
    intro hgood
    have hnil := hgood.late hlate
    rw [hwritten] at hnil
    exact nomatch hnil
  split at hraised
  · rename_i e he
    exact ⟨box, s, e, hbuilt, run_of_play hplay, hlate, he, hwritten, hgood⟩
  · exact nomatch hraised

/-- A box of two chunks against any interleaving, for `stream_to` and for `stream_to_wrapped`. -/
theorem complete_or_nothing_iff_pair :
    ∃ box, construct .bytes Primitives.sample InitEnv.sample [1, 2, 3] 2 false false = .ok box ∧
      (∀ events s, Run (Guarded (Step Primitives.sample fun _ piece => .ok piece)
          (Meets Primitives.sample fun _ piece => .ok piece)) (start box) events s ↔
        Run (fun s event s' => Step Primitives.sample (fun _ piece => .ok piece) s event s' ∧
          Good Primitives.sample (fun _ piece => .ok piece) box s') (start box) events s) ∧
      ∀ (transitKey : Bytes) (nonces : ℕ → Nonce) events s,
        Run (Guarded (Step .sample fun i => wrapPiece .sample transitKey (nonces i))
            (Meets .sample fun i => wrapPiece .sample transitKey (nonces i))) (start box) events s ↔
          Run (fun s event s' => Step .sample (fun i => wrapPiece .sample transitKey (nonces i))
              s event s' ∧ Good .sample (fun i => wrapPiece .sample transitKey (nonces i)) box s')
            (start box) events s := by
  obtain ⟨box, -, -, -, hbuilt, -⟩ := @construct_spec Primitives.sample .bytes
    InitEnv.sample [1, 2, 3] 2 (by decide) false false
    fun h => nomatch h
  exact ⟨box, hbuilt,
    fun events s => complete_or_nothing_iff Primitives.sample _ hbuilt Run.nil,
    fun transitKey nonces events s => complete_or_nothing_iff Primitives.sample _ hbuilt Run.nil⟩

end RetrievalRace
