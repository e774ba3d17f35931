/-
What a captured box says about the keys to come.

`SymbolicBox` is the box of `chunked_secure_box.py` with its keys as strings of symbols: the
first key is random, every later one is the hash of the one before it with the secret of the
trust group, and a chunk is its plaintext sealed under a key.

* `Mirrors.run`: a box and its symbolic twin go through the same hops, so that the keys of
  the box are the values of the keys of the twin.
* `unpredictable_iff`: the keys that will come into use cannot be made from what is in the
  box, unless the next one is still waiting there.
-/
import Mathlib
import VStorage.Symbolic
import VStorage.TwoGenerations

namespace KeyPrediction

open Symbolic ChunkedSecureBox

/-! ### A box of symbols -/

inductive Secret
  | random
  | external
  | label
  | nonce (n : Nonce)
  | data (i : ℕ)

/-- `_next_key`, with a trust group. -/
def ratchetKey (key : Word Secret) : Word Secret :=
  [.hash (key ++ [.atom .external] ++ [.atom .label])]

/-- `reencrypt`: the same plaintext under another key. -/
def reseal (key : Word Secret) (nonce : Secret) : Sym Secret → Sym Secret
  | .sealed _ _ plain => .sealed key nonce plain
  | s => s

structure SymbolicBox where
  currentKey : Word Secret
  nextKey : Word Secret
  chunks : List (Sym Secret)
  onNext : List Bool
  nextChunk : ℕ

namespace SymbolicBox

/-- `__init__`, for a number of chunks. -/
def init (count : ℕ) (nonce : ℕ → Nonce) : SymbolicBox where
  currentKey := [.atom .random]
  nextKey := ratchetKey [.atom .random]
  chunks := (List.range count).map fun i =>
    .sealed [.atom .random] (.nonce (nonce i)) [.atom (.data i)]
  onNext := List.replicate count false
  nextChunk := 0

/-- One chunk moves over to the next key. -/
def advance (nonce : Nonce) (s : SymbolicBox) : SymbolicBox :=
  { s with
    chunks := s.chunks.modify s.nextChunk (reseal s.nextKey (.nonce nonce))
    onNext := s.onNext.set s.nextChunk true
    nextChunk := (s.nextChunk + 1) % s.chunks.length }

/-- The rotation. -/
def rotate (s : SymbolicBox) : SymbolicBox :=
  { s with
    currentKey := s.nextKey
    nextKey := ratchetKey s.nextKey
    onNext := List.replicate s.chunks.length false }

/-- `_do_one_hop_locked`. -/
def hop (nonce : Nonce) (s : SymbolicBox) : SymbolicBox :=
  if (s.advance nonce).nextChunk = 0 ∧ (s.advance nonce).onNext.all id then
    (s.advance nonce).rotate
  else s.advance nonce

/-- A hop, labelled with the key that it encrypts under. -/
inductive Step : SymbolicBox → Word Secret → SymbolicBox → Prop
  | hop {s : SymbolicBox} (nonce : Nonce) : Step s s.nextKey (s.hop nonce)

/-- The keys of both guards, all chunks, and the label of the ratchet. -/
def captured (s : SymbolicBox) : Set (Word Secret) :=
  {w | w = s.currentKey ∨ w = s.nextKey ∨ (∃ c ∈ s.chunks, w = [c]) ∨ w = [.atom .label]}

/-- The key will encrypt some chunk. -/
def WillUse (s : SymbolicBox) (key : Word Secret) : Prop :=
  ∃ keys t, Run Step s keys t ∧ key ∈ keys

/-- The key encrypts some chunk. -/
def Uses (s : SymbolicBox) (key : Word Secret) : Prop :=
  ∃ nonce plain, .sealed key nonce plain ∈ s.chunks

/-- No key that is still to come into use can be made from what is in the box. -/
def Unpredictable (s : SymbolicBox) : Prop :=
  ∀ key, s.WillUse key → ¬ s.Uses key → ¬ Derives s.captured key

end SymbolicBox

/-! ### The chain of keys -/

/-- The symbol that key `n` consists of. -/
def link : ℕ → Sym Secret
  | 0 => .atom .random
  | n + 1 => .hash ([link n] ++ [.atom .external] ++ [.atom .label])

theorem ratchetKey_link (n : ℕ) : ratchetKey [link n] = [link (n + 1)] := rfl

theorem link_injective : Function.Injective link := by
  intro m n h
  induction m generalizing n with
  | zero =>
    cases n with
    | zero => rfl
    | succ n => exact nomatch h
  | succ m ih =>
    cases n with
    | zero => exact nomatch h
    | succ n =>
      obtain ⟨hlink, -⟩ := List.cons.inj (Sym.hash.inj h)
      rw [ih hlink]

namespace SymbolicBox

/-- The keys are two successive links, and each chunk is sealed under the one its flag
names. -/
structure Inv (n : ℕ) (s : SymbolicBox) : Prop where
  current : s.currentKey = [link n]
  next : s.nextKey = [link (n + 1)]
  length : s.onNext.length = s.chunks.length
  nextChunk_lt : s.nextChunk < s.chunks.length
  chunk : ∀ {i : ℕ} {c : Sym Secret} {b : Bool}, s.chunks[i]? = some c → s.onNext[i]? = some b →
    ∃ nonce, c = .sealed (if b then s.nextKey else s.currentKey) nonce [.atom (.data i)]

theorem Inv.init {count : ℕ} (h : 0 < count) (nonce : ℕ → Nonce) :
    Inv 0 (init count nonce) where
  current := rfl
  next := rfl
  length := by simp [SymbolicBox.init]
  nextChunk_lt := by simpa [SymbolicBox.init] using h
  chunk := by
    intro i c b hc hb
    obtain rfl : b = false := List.eq_of_mem_replicate (List.mem_of_getElem? hb)
    change ((List.range count).map _)[i]? = some c at hc
    rw [List.getElem?_map] at hc
    obtain ⟨j, hj, rfl⟩ := Option.map_eq_some_iff.mp hc
    obtain ⟨-, rfl⟩ := List.getElem?_eq_some_iff.mp hj
    rw [List.getElem_range]
    exact ⟨.nonce (nonce i), rfl⟩

theorem Inv.advance {n : ℕ} {s : SymbolicBox} (h : Inv n s) (nonce : Nonce) :
    Inv n (s.advance nonce) where
  current := h.current
  next := h.next
  length := by simpa [SymbolicBox.advance] using h.length
  nextChunk_lt := by
    have hpos := lt_of_le_of_lt (Nat.zero_le _) h.nextChunk_lt
    simpa [SymbolicBox.advance] using Nat.mod_lt _ hpos
  chunk := by
    intro i c b hc hb
    change (s.chunks.modify s.nextChunk (reseal s.nextKey (.nonce nonce)))[i]? = some c at hc
    change (s.onNext.set s.nextChunk true)[i]? = some b at hb
    rw [List.getElem?_modify] at hc
    rw [List.getElem?_set] at hb
    obtain ⟨c', hc', hmap⟩ := Option.map_eq_some_iff.mp hc
    by_cases hi : s.nextChunk = i
    · -- the chunk that has moved
      have hlt : s.nextChunk < s.onNext.length := h.length ▸ h.nextChunk_lt
      rw [if_pos hi, if_pos hlt] at hb
      obtain rfl := Option.some.inj hb
      obtain ⟨b', hb'⟩ : ∃ b', s.onNext[i]? = some b' :=
        ⟨_, List.getElem?_eq_getElem (hi ▸ hlt)⟩
      obtain ⟨_, rfl⟩ := h.chunk hc' hb'
      rw [if_pos hi] at hmap
      exact ⟨.nonce nonce, hmap.symm⟩
    · rw [if_neg hi] at hb hmap
      obtain rfl : c' = c := hmap
      exact h.chunk hc' hb

theorem Inv.rotate {n : ℕ} {s : SymbolicBox} (h : Inv n s) (hall : s.onNext.all id) :
    Inv (n + 1) s.rotate where
  current := h.next
  next := by
    show ratchetKey s.nextKey = _
    rw [h.next, ratchetKey_link]
  length := by simp [SymbolicBox.rotate]
  nextChunk_lt := h.nextChunk_lt
  chunk := by
    intro i c b hc hb
    change (List.replicate s.chunks.length false)[i]? = some b at hb
    obtain rfl : b = false := List.eq_of_mem_replicate (List.mem_of_getElem? hb)
    have hlt : i < s.onNext.length := h.length ▸ (List.getElem?_eq_some_iff.mp hc).1
    have htrue : s.onNext[i] = true := List.all_eq_true.mp hall _ (List.getElem_mem _)
    have hflag : s.onNext[i]? = some true := by rw [List.getElem?_eq_getElem hlt, htrue]
    exact h.chunk hc hflag

/-- A hop leaves two successive links. -/
theorem Inv.hop {n : ℕ} {s : SymbolicBox} (h : Inv n s) (nonce : Nonce) :
    ∃ m, n ≤ m ∧ Inv m (s.hop nonce) := by
  unfold SymbolicBox.hop
  split
  · rename_i hwrapped
    exact ⟨n + 1, Nat.le_succ n, (h.advance nonce).rotate hwrapped.2⟩
  · exact ⟨n, le_rfl, h.advance nonce⟩

/-- The keys of a run are links from the next one on. -/
theorem Inv.run {n : ℕ} {s t : SymbolicBox} {keys : List (Word Secret)} (h : Inv n s)
    (hrun : Run Step s keys t) :
    (∃ m, n ≤ m ∧ Inv m t) ∧ ∀ key ∈ keys, ∃ m, n < m ∧ key = [link m] := by
  induction hrun with
  | nil => exact ⟨⟨n, le_rfl, h⟩, fun _ hk => nomatch hk⟩
  | snoc _ hstep ih =>
    obtain ⟨⟨m, hm, ht⟩, hkeys⟩ := ih
    cases hstep with
    | hop nonce =>
      obtain ⟨m', hm', hhop⟩ := ht.hop nonce
      refine ⟨⟨m', hm.trans hm', hhop⟩, fun key hkey => ?_⟩
      rcases List.mem_append.mp hkey with hkey | hkey
      · exact hkeys key hkey
      · exact ⟨m + 1, Nat.lt_succ_of_le hm, (List.mem_singleton.mp hkey).trans ht.next⟩

/-! ### What a capture lays open -/

theorem Inv.exposed {n : ℕ} {s : SymbolicBox} (h : Inv n s) {x : Sym Secret}
    (hx : Exposed s.captured x) :
    x = link n ∨ x = link (n + 1) ∨ x ∈ s.chunks ∨ x = .atom .label ∨
      ∃ j, x = .atom (.data j) := by
  induction hx with
  | member hw hmem =>
    rcases hw with rfl | rfl | ⟨c, hc, rfl⟩ | rfl
    · rw [h.current] at hmem
      exact Or.inl (List.mem_singleton.mp hmem)
    · rw [h.next] at hmem
      exact Or.inr (Or.inl (List.mem_singleton.mp hmem))
    · rw [List.mem_singleton.mp hmem]
      exact Or.inr (Or.inr (Or.inl hc))
    · exact Or.inr (Or.inr (Or.inr (Or.inl (List.mem_singleton.mp hmem))))
  | opened _ hmem ih =>
    rcases ih with hlink | hlink | hchunk | hlabel | ⟨j, hdata⟩
    · cases n with
      | zero => exact nomatch hlink
      | succ n => exact nomatch hlink
    · exact nomatch hlink
    · -- the plaintext of a chunk
      obtain ⟨i, hi⟩ := List.getElem?_of_mem hchunk
      have hlt : i < s.onNext.length := h.length ▸ (List.getElem?_eq_some_iff.mp hi).1
      obtain ⟨_, hc⟩ := h.chunk hi (List.getElem?_eq_getElem hlt)
      obtain ⟨-, -, rfl⟩ := Sym.sealed.inj hc
      exact Or.inr (Or.inr (Or.inr (Or.inr ⟨i, List.mem_singleton.mp hmem⟩)))
    · exact nomatch hlabel
    · exact nomatch hdata

/-- Every chunk is a sealed one. -/
theorem Inv.sealed_of_mem {n : ℕ} {s : SymbolicBox} (h : Inv n s) {c : Sym Secret}
    (hc : c ∈ s.chunks) : ∃ b nonce j, b ∈ s.onNext ∧
      c = .sealed (if b then s.nextKey else s.currentKey) nonce [.atom (.data j)] := by
  obtain ⟨i, hi⟩ := List.getElem?_of_mem hc
  have hlt : i < s.onNext.length := h.length ▸ (List.getElem?_eq_some_iff.mp hi).1
  obtain ⟨nonce, hseal⟩ := h.chunk hi (List.getElem?_eq_getElem hlt)
  exact ⟨_, nonce, i, List.getElem_mem hlt, hseal⟩

/-- Later links cannot be made from a capture. -/
theorem Inv.not_derives {n : ℕ} {s : SymbolicBox} (h : Inv n s) {m : ℕ} (hm : n + 1 < m) :
    ¬ Derives s.captured [link m] := by
  intro hderives
  obtain ⟨m, rfl⟩ := Nat.exists_eq_succ_of_ne_zero (Nat.ne_of_gt (Nat.zero_lt_of_lt hm))
  have hkept : ¬ Exposed s.captured (.atom .external) := by
    intro hx
    rcases h.exposed hx with hlink | hlink | hchunk | hlabel | ⟨j, hdata⟩
    · cases n with
      | zero => exact nomatch hlink
      | succ n => exact nomatch hlink
    · exact nomatch hlink
    · obtain ⟨_, _, _, -, hseal⟩ := h.sealed_of_mem hchunk
      exact nomatch hseal
    · exact nomatch hlabel
    · exact nomatch hdata
  have hexposed : Exposed s.captured (link (m + 1)) :=
    hderives.exposed_hash (by simp) hkept
  rcases h.exposed hexposed with hlink | hlink | hchunk | hlabel | ⟨j, hdata⟩
  · have := link_injective hlink
    omega
  · have := link_injective hlink
    omega
  · obtain ⟨_, _, _, -, hseal⟩ := h.sealed_of_mem hchunk
    exact nomatch hseal
  · exact nomatch hlabel
  · exact nomatch hdata

/-- **Prediction.**  The keys to come cannot be made from a capture exactly when the next key
is in use already. -/
theorem Inv.unpredictable_iff {n : ℕ} {s : SymbolicBox} (h : Inv n s) :
    s.Unpredictable ↔ true ∈ s.onNext := by
  constructor
  · intro hsafe
    by_contra hnone
    refine hsafe s.nextKey ⟨_, _, Run.single (.hop ⟨List.replicate 12 0, rfl⟩),
      List.mem_singleton.mpr rfl⟩ ?_
      (.member (Or.inr (Or.inl rfl)))
    rintro ⟨nonce, plain, hmem⟩
    obtain ⟨b, nonce', j, hb, hseal⟩ := h.sealed_of_mem hmem
    obtain rfl : b = false := Bool.eq_false_iff.mpr fun htrue => hnone (htrue ▸ hb)
    obtain ⟨hkey, -⟩ := Sym.sealed.inj hseal
    rw [if_neg (by decide), h.next, h.current] at hkey
    have := link_injective (List.cons.inj hkey).1
    omega
  · rintro hmem key ⟨keys, t, hrun, hkey⟩ hunused
    obtain ⟨m, hm, rfl⟩ := (h.run hrun).2 key hkey
    rcases Nat.lt_or_eq_of_le (Nat.succ_le_of_lt hm) with hlt | rfl
    · exact h.not_derives hlt
    · -- the next key encrypts the chunk whose flag is set
      exfalso
      obtain ⟨i, hi⟩ := List.getElem?_of_mem hmem
      have hlt : i < s.chunks.length := h.length ▸ (List.getElem?_eq_some_iff.mp hi).1
      obtain ⟨nonce, hc⟩ := h.chunk (List.getElem?_eq_getElem hlt) hi
      rw [if_pos rfl, h.next] at hc
      exact hunused ⟨nonce, _, hc ▸ List.getElem_mem hlt⟩

end SymbolicBox

/-! ### The box and its twin -/

section Twin

variable (P : Primitives) (key external : Bytes) (plains : List Bytes)

/-- What the secrets stand for, in a box that started with `key`. -/
def secretValue : Secret → Bytes
  | .random => key
  | .external => external
  | .label => ratchetLabel
  | .nonce n => n
  | .data i => plains.getD i []

/-- How a chunk seals its plaintext. -/
def cipher (key nonce plain : Bytes) : Bytes :=
  (P.encrypt key nonce (P.pack plain)).toOption.getD []

/-- What a string stands for. -/
def value (w : Word Secret) : Bytes :=
  evalWord (secretValue key external plains) P.sha256 (cipher P) w

theorem value_ratchetKey (w : Word Secret) :
    value P key external plains (ratchetKey w)
      = P.sha256 (value P key external plains w ++ external ++ ratchetLabel) := by
  simp [value, ratchetKey, evalWord, evalWord_append, Sym.eval, secretValue]

/-- A box and its twin: the guards hold the values of the twin's keys, each chunk is stored
under the one that its flag names, and the flags are the same. -/
structure Mirrors (box : ChunkedSecureBox) (s : SymbolicBox) : Prop where
  holds : Holds P plains (value P key external plains s.currentKey)
    (value P key external plains s.nextKey) box
  apart : box.currentGuard ≠ box.nextGuard
  trustGroup : box.trustGroup = true
  length : s.chunks.length = box.chunks.length
  onNext : s.onNext = box.onNext
  nextChunk : s.nextChunk = box.nextChunk

/-- A group's `fetch` returns its secret, if it returns. -/
def Fetches (external : Bytes) : Event → Prop
  | .hop env => ∀ fetched, env.fetch = .ok fetched → fetched = external
  | .bounce _ => True

variable {P key external plains}

theorem Mirrors.hop {box : ChunkedSecureBox} {s : SymbolicBox}
    (h : Mirrors P key external plains box s) {env : HopEnv}
    (hok : (box.hop P env).outcome = .ok ()) (hfetch : Fetches external (.hop env)) :
    Mirrors P key external plains (box.hop P env).box (s.hop env.nonce) := by
  obtain ⟨pools, hadv, hcases⟩ := hop_cases h.holds env
  have hguards := bounces_eq box env.between
  have hne := advance_guards_ne h.apart env.between pools
  set box₁ := (box.bounces env.between).advance pools with hbox₁
  have htrust : box₁.trustGroup = true := by
    rw [hbox₁, hguards]
    exact h.trustGroup
  have honNext : (s.advance env.nonce).onNext = box₁.onNext := by
    rw [hbox₁, hguards]
    show s.onNext.set s.nextChunk true = box.onNext.set box.nextChunk true
    rw [h.onNext, h.nextChunk]
  have hlength : (s.advance env.nonce).chunks.length = box₁.chunks.length := by
    rw [hbox₁, hguards]
    show (s.chunks.modify _ _).length = box.chunks.length
    rw [List.length_modify, h.length]
  have hnextChunk : (s.advance env.nonce).nextChunk = box₁.nextChunk := by
    rw [hbox₁, hguards]
    show (s.nextChunk + 1) % s.chunks.length = (box.nextChunk + 1) % box.chunks.length
    rw [h.nextChunk, h.length]
  have hmoved : Mirrors P key external plains box₁ (s.advance env.nonce) :=
    ⟨hadv, hne, htrust, hlength, honNext, hnextChunk⟩
  rcases hcases with ⟨hw, hrun⟩ | ⟨hw, hrun⟩
  · rw [hrun, SymbolicBox.hop, if_neg (by rwa [honNext, hnextChunk])]
    exact hmoved
  rw [hrun] at hok ⊢
  rw [SymbolicBox.hop, if_pos (by rwa [honNext, hnextChunk])]
  obtain ⟨next, pages, hnext, hrot⟩ := rotate_returned hok
  -- the new key is the value of the new symbol
  obtain rfl : next = value P key external plains (ratchetKey s.nextKey) := by
    rw [htrust] at hnext
    obtain ⟨fetched, hfetched, hnext⟩ := bind_eq_ok.mp hnext
    rw [hfetch fetched hfetched] at hnext
    rw [value_ratchetKey]
    exact (Except.ok.inj hnext).symm
  rw [hrot]
  refine ⟨?_, Nat.ne_of_lt hadv.nextGuard_lt, htrust, hlength, ?_, hnextChunk⟩
  · exact hadv.install_retire hw hne (nextKey_valid hnext) pages
  · show List.replicate (s.advance env.nonce).chunks.length false
      = List.replicate box₁.chunks.length false
    rw [hlength]

/-- **Twins.**  Every run of hops and bounces is one of the twin. -/
theorem Mirrors.run {box₀ box : ChunkedSecureBox} {s₀ : SymbolicBox} {events : List Event}
    (h : Mirrors P key external plains box₀ s₀) (hrun : Run (Step P) box₀ events box)
    (hfetch : ∀ event ∈ events, Fetches external event) :
    ∃ keys s, Run SymbolicBox.Step s₀ keys s ∧ Mirrors P key external plains box s := by
  induction hrun with
  | nil => exact ⟨[], s₀, Run.nil, h⟩
  | snoc _ hstep ih =>
    obtain ⟨keys, s, hkeys, hs⟩ := ih fun event hevent =>
      hfetch event (List.mem_append_left _ hevent)
    cases hstep with
    | @hop env hok =>
      refine ⟨_, _, hkeys.snoc (.hop env.nonce), hs.hop hok ?_⟩
      exact hfetch _ (List.mem_append_right _ (List.mem_singleton.mpr rfl))
    | bounce => exact ⟨keys, s, hkeys, { hs with holds := hs.holds.bounce _ }⟩

/-- A new box and its twin. -/
theorem mirrors_construct {source : Source} {env : InitEnv} {data : Bytes} {chunkSize : ℕ}
    {onNewGuard : Bool} {box : ChunkedSecureBox}
    (h : construct source P env data chunkSize true onNewGuard = .ok box)
    (hfetch : env.fetch = .ok external) :
    0 < box.chunks.length ∧ ∃ plains, plains.flatten = data ∧
      Mirrors P env.key external plains box (.init box.chunks.length env.nonce) := by
  obtain ⟨plains, ck, nk, hdata, -, hold, hne⟩ := construct_ok h
  have hpos : 0 < box.chunks.length := by
    rw [hold.length_chunks]
    exact lt_of_le_of_lt (Nat.zero_le _) hold.nextChunk_lt
  obtain ⟨dataLen, plaintexts, hbuild⟩ : ∃ dataLen plaintexts,
      construct source P env data chunkSize true onNewGuard
        = build P env true onNewGuard dataLen plaintexts := by
    cases source with
    | bytes => exact ⟨_, _, rfl⟩
    | file => exact ⟨_, _, rfl⟩
  rw [hbuild, build_eq] at h
  obtain ⟨next, hnext, h⟩ := bind_eq_ok.mp h
  obtain ⟨_, -, h⟩ := bind_eq_ok.mp h
  obtain ⟨⟨pools, chunks⟩, -, h⟩ := bind_eq_ok.mp h
  obtain rfl := Except.ok.inj h
  have hck : ck = env.key :=
    Except.ok.inj (hold.current.symm.trans (SplitKeyGuard.reconstruct_new P _ _))
  have hnk : nk = next :=
    Except.ok.inj (hold.next.symm.trans (SplitKeyGuard.reconstruct_new P _ _))
  have hrandom : value P env.key external plains [.atom .random] = env.key := by
    simp [value, evalWord, Sym.eval, secretValue]
  have hratchet : value P env.key external plains (ratchetKey [.atom .random]) = next := by
    obtain ⟨fetched, hfetched, hnext⟩ := bind_eq_ok.mp hnext
    obtain rfl := Except.ok.inj (hfetched.symm.trans hfetch)
    rw [value_ratchetKey, hrandom]
    exact Except.ok.inj hnext
  refine ⟨hpos, plains, hdata, ?_, hne, rfl, ?_, rfl, rfl⟩
  · show Holds P plains (value P env.key external plains [.atom .random])
      (value P env.key external plains (ratchetKey [.atom .random])) _
    rw [hck, hnk] at hold
    rw [hrandom, hratchet]
    exact hold
  · simp [SymbolicBox.init]

/-- **One capture.**  In every state of a box with a trust group, what is in the box does not
yield a key that is still to come into use exactly when the key of its next guard is in use
already. -/
theorem next_in_use_iff {source : Source} {env : InitEnv} {data : Bytes} {chunkSize : ℕ}
    {onNewGuard : Bool} {box₀ box : ChunkedSecureBox} {events : List Event}
    (hbuilt : construct source P env data chunkSize true onNewGuard = .ok box₀)
    (hfetch : env.fetch = .ok external) (hrun : Run (Step P) box₀ events box)
    (hevents : ∀ event ∈ events, Fetches external event) :
    ∃ plains keys s, plains.flatten = data ∧
      Run SymbolicBox.Step (.init box₀.chunks.length env.nonce) keys s ∧
      Mirrors P env.key external plains box s ∧ (s.Unpredictable ↔ true ∈ box.onNext) := by
  obtain ⟨hpos, plains, hdata, hinit⟩ := mirrors_construct hbuilt hfetch
  obtain ⟨keys, s, hkeys, hs⟩ := hinit.run hrun hevents
  obtain ⟨⟨n, -, hinv⟩, -⟩ := (SymbolicBox.Inv.init hpos env.nonce).run hkeys
  refine ⟨plains, keys, s, hdata, hkeys, hs, ?_⟩
  rw [← hs.onNext]
  exact hinv.unpredictable_iff

end Twin

/-- A hop of a box of two chunks. -/
def sampleHop : HopEnv where
  between := []
  nonce := InitEnv.sample.nonce 5
  fetch := .ok [1, 2, 3]
  mmap := .ok fun i => (200 + 2 * i, 201 + 2 * i)
  callback := .ok ()

theorem next_in_use_iff_hop :
    ∃ box₀, construct .bytes Primitives.sample InitEnv.sample [1, 2, 3] 2 true true = .ok box₀ ∧
      ∃ plains keys s, plains.flatten = [1, 2, 3] ∧
        Run SymbolicBox.Step (.init box₀.chunks.length InitEnv.sample.nonce) keys s ∧
        Mirrors Primitives.sample InitEnv.sample.key [1, 2, 3] plains
          (box₀.hop Primitives.sample sampleHop).box s ∧
        (s.Unpredictable ↔ true ∈ (box₀.hop Primitives.sample sampleHop).box.onNext) := by
  obtain ⟨box₀, plains, ck, nk, hbuilt, -, -, hold, hne⟩ := construct_spec
    (P := Primitives.sample) .bytes [1, 2, 3] (show 1 ≤ 2 by decide) true
    (show true = true → ∃ external, InitEnv.sample.fetch = .ok external from
      fun _ => ⟨[1, 2, 3], rfl⟩)
  have hok : (box₀.hop Primitives.sample sampleHop).outcome = .ok () :=
    (show Regular Primitives.sample plains box₀ from ⟨ck, nk, hold, hne⟩).hop_returns
      (fun _ => ⟨[1, 2, 3], rfl⟩) ⟨_, rfl⟩ rfl
  refine ⟨box₀, hbuilt, next_in_use_iff hbuilt rfl (Run.single (.hop hok)) fun event hevent => ?_⟩
  obtain rfl := List.mem_singleton.mp hevent
  exact fun fetched h => (Except.ok.inj h).symm

/-- A box that has just been built: its next key is in its next guard, and encrypts nothing
yet. -/
theorem next_key_captured :
    ∃ box₀, construct .bytes Primitives.sample InitEnv.sample [1, 2, 3] 2 true true = .ok box₀ ∧
      ∃ plains s, plains.flatten = [1, 2, 3] ∧
        Mirrors Primitives.sample InitEnv.sample.key [1, 2, 3] plains box₀ s ∧
        s.WillUse s.nextKey ∧ ¬ s.Uses s.nextKey ∧ Derives s.captured s.nextKey ∧
        ¬ s.Unpredictable := by
  obtain ⟨box₀, -, -, -, hbuilt, -⟩ := construct_spec
    (P := Primitives.sample) .bytes [1, 2, 3] (show 1 ≤ 2 by decide) true
    (show true = true → ∃ external, InitEnv.sample.fetch = .ok external from
      fun _ => ⟨[1, 2, 3], rfl⟩)
  obtain ⟨hpos, plains, hdata, hs⟩ := mirrors_construct hbuilt rfl
  have hinv := SymbolicBox.Inv.init hpos InitEnv.sample.nonce
  set s := SymbolicBox.init box₀.chunks.length InitEnv.sample.nonce with hinit
  have huse : s.WillUse s.nextKey :=
    ⟨_, _, Run.single (.hop (InitEnv.sample.nonce 5)), List.mem_singleton.mpr rfl⟩
  have hunused : ¬ s.Uses s.nextKey := by
    rintro ⟨nonce, plain, hmem⟩
    obtain ⟨i, -, hseal⟩ := List.mem_map.mp hmem
    exact nomatch (Sym.sealed.inj hseal).1
  have hderives : Derives s.captured s.nextKey := .member (Or.inr (Or.inl rfl))
  exact ⟨box₀, hbuilt, plains, s, hdata, hs, huse, hunused, hderives,
    fun hsafe => hsafe _ huse hunused hderives⟩

end KeyPrediction
