/-
What captured keys open, and for how long.

An attacker has the keys of both guards of some states of a box, the ciphertexts of others,
which were recorded earlier or later, and perhaps the secret of the trust group.  A box
without a trust group is one whose group hands out nothing (`grouped`), so that its secret is
known to everyone.

* `opens_iff`: the attacker can make the plaintext of a chunk exactly when a ciphertext of it
  was recorded under a key of one of the guards captured, or, knowing the secret, under any
  later key.  What was recorded under earlier keys stays closed.
* `healed_iff`: after one capture, the box is out of reach again exactly when it has hopped
  twice round, counted from the last rotation.
-/
import Mathlib
import VStorage.KeyPrediction
import VStorage.RotationSchedule

namespace KeyExposure

open Symbolic ChunkedSecureBox KeyPrediction

/-! ### What can be made from captured keys and recorded ciphertexts -/

section Knowledge

variable {ι : Type*} (twins : ι → SymbolicBox) (gen : ι → ℕ) (captured seen : Set ι)
  (leaked : Prop)

/-- Both keys of the boxes captured, all chunks of those seen, the secret of the group if it has
leaked, and the label of the ratchet. -/
def knowledge : Set (Word Secret) :=
  {w | (∃ c ∈ captured, w = (twins c).currentKey ∨ w = (twins c).nextKey) ∨
    (∃ i ∈ seen, ∃ chunk ∈ (twins i).chunks, w = [chunk]) ∨
    leaked ∧ w = [.atom .external] ∨ w = [.atom .label]}

/-- The generation is one of those captured, or, if the secret has leaked, a later one. -/
def Reaches (m : ℕ) : Prop :=
  ∃ c ∈ captured, m = gen c ∨ m = gen c + 1 ∨ leaked ∧ gen c ≤ m

/-- What is laid open: keys of the generations reached, and the plaintexts under them. -/
inductive Shown : Sym Secret → Prop
  | label : Shown (.atom .label)
  | external : leaked → Shown (.atom .external)
  | key {m : ℕ} : Reaches gen captured leaked m → Shown (link m)
  | chunk {i : ι} {c : Sym Secret} : i ∈ seen → c ∈ (twins i).chunks → Shown c
  | plain {i : ι} {j : ℕ} {b : Bool} : i ∈ seen → (twins i).onNext[j]? = some b →
      Reaches gen captured leaked (gen i + b.toNat) → Shown (.atom (.data j))

variable {twins gen captured seen leaked}

theorem link_ne_sealed {m : ℕ} {key plain : Word Secret} {nonce : Secret} :
    link m ≠ .sealed key nonce plain := by
  cases m <;> exact nofun

/-- Only the first key is a secret by itself. -/
theorem link_eq_atom {m : ℕ} {a : Secret} (h : link m = .atom a) : a = .random := by
  cases m with
  | zero => exact (Sym.atom.inj h).symm
  | succ m => exact nomatch h

theorem sealed_of_seen (hseen : ∀ i ∈ seen, (twins i).Inv (gen i)) {i : ι} (hi : i ∈ seen)
    {c : Sym Secret} (hc : c ∈ (twins i).chunks) :
    ∃ j b nonce, (twins i).onNext[j]? = some b ∧
      c = .sealed [link (gen i + b.toNat)] nonce [.atom (.data j)] := by
  have h := hseen i hi
  obtain ⟨j, hj⟩ := List.getElem?_of_mem hc
  have hlt : j < (twins i).onNext.length := h.length ▸ (List.getElem?_eq_some_iff.mp hj).1
  obtain ⟨nonce, hseal⟩ := h.chunk hj (List.getElem?_eq_getElem hlt)
  refine ⟨j, _, nonce, List.getElem?_eq_getElem hlt, hseal.trans ?_⟩
  cases (twins i).onNext[j] with
  | false => rw [if_neg (by decide), h.current]; rfl
  | true => rw [if_pos rfl, h.next]; rfl

theorem Shown.leaked_of_external (hseen : ∀ i ∈ seen, (twins i).Inv (gen i)) {s : Sym Secret}
    (h : Shown twins gen captured seen leaked s) (hs : s = .atom .external) : leaked := by
  cases h with
  | label => exact nomatch hs
  | external hleaked => exact hleaked
  | key => exact nomatch link_eq_atom hs
  | chunk hi hc =>
    obtain ⟨_, _, _, -, rfl⟩ := sealed_of_seen hseen hi hc
    exact nomatch hs
  | plain => exact nomatch hs

theorem Shown.reaches_of_link (hseen : ∀ i ∈ seen, (twins i).Inv (gen i)) {s : Sym Secret}
    (h : Shown twins gen captured seen leaked s) {m : ℕ} (hs : s = link m) :
    Reaches gen captured leaked m := by
  cases h with
  | label => exact nomatch link_eq_atom hs.symm
  | external => exact nomatch link_eq_atom hs.symm
  | key hreach => exact link_injective hs ▸ hreach
  | chunk hi hc =>
    obtain ⟨_, _, _, -, rfl⟩ := sealed_of_seen hseen hi hc
    exact absurd hs.symm link_ne_sealed
  | plain => exact nomatch link_eq_atom hs.symm

theorem Shown.plain_of_data (hseen : ∀ i ∈ seen, (twins i).Inv (gen i)) {s : Sym Secret}
    (h : Shown twins gen captured seen leaked s) {j : ℕ} (hs : s = .atom (.data j)) :
    ∃ i ∈ seen, ∃ b, (twins i).onNext[j]? = some b ∧
      Reaches gen captured leaked (gen i + b.toNat) := by
  cases h with
  | label => exact nomatch hs
  | external => exact nomatch hs
  | key => exact nomatch link_eq_atom hs
  | chunk hi hc =>
    obtain ⟨_, _, _, -, rfl⟩ := sealed_of_seen hseen hi hc
    exact nomatch hs
  | plain hi hb hreach =>
    obtain rfl := Secret.data.inj (Sym.atom.inj hs)
    exact ⟨_, hi, _, hb, hreach⟩

/-- A key that can be put together is reached: hashing takes the secret. -/
theorem reaches_of_built (hseen : ∀ i ∈ seen, (twins i).Inv (gen i)) {m : ℕ}
    (h : Built (Shown twins gen captured seen leaked) (link m)) :
    Reaches gen captured leaked m := by
  induction m with
  | zero =>
    generalize hs : link 0 = s at h
    cases h with
    | base hshown => exact hshown.reaches_of_link hseen hs.symm
    | hash => exact nomatch hs
    | sealed => exact nomatch hs
  | succ m ih =>
    generalize hs : link (m + 1) = s at h
    cases h with
    | base hshown => exact hshown.reaches_of_link hseen hs.symm
    | hash hparts =>
      obtain rfl := Sym.hash.inj hs
      obtain ⟨c, hc, hm⟩ := ih (hparts _ (by simp))
      have hleaked : leaked := by
        cases hparts (.atom .external) (by simp) with
        | base hshown => exact hshown.leaked_of_external hseen rfl
      refine ⟨c, hc, Or.inr (Or.inr ⟨hleaked, ?_⟩)⟩
      rcases hm with rfl | rfl | ⟨-, hle⟩
      · exact Nat.le_succ _
      · exact (Nat.le_succ _).trans (Nat.le_succ _)
      · exact hle.trans (Nat.le_succ _)
    | sealed => exact nomatch hs

theorem shown_of_mem (hcaptured : ∀ c ∈ captured, (twins c).Inv (gen c)) {w : Word Secret}
    (hw : w ∈ knowledge twins captured seen leaked) {s : Sym Secret} (hs : s ∈ w) :
    Shown twins gen captured seen leaked s := by
  rcases hw with ⟨c, hc, rfl | rfl⟩ | ⟨i, hi, chunk, hchunk, rfl⟩ | ⟨hleaked, rfl⟩ | rfl
  · rw [(hcaptured c hc).current] at hs
    rw [List.mem_singleton.mp hs]
    exact .key ⟨c, hc, Or.inl rfl⟩
  · rw [(hcaptured c hc).next] at hs
    rw [List.mem_singleton.mp hs]
    exact .key ⟨c, hc, Or.inr (Or.inl rfl)⟩
  · rw [List.mem_singleton.mp hs]
    exact .chunk hi hchunk
  · rw [List.mem_singleton.mp hs]
    exact .external hleaked
  · rw [List.mem_singleton.mp hs]
    exact .label

/-- The keys of the generations reached can be made, one after the other. -/
theorem Reaches.derives (hcaptured : ∀ c ∈ captured, (twins c).Inv (gen c)) {m : ℕ}
    (h : Reaches gen captured leaked m) :
    Derives (knowledge twins captured seen leaked) [link m] := by
  obtain ⟨c, hc, rfl | rfl | ⟨hleaked, hle⟩⟩ := h
  · exact .member (Or.inl ⟨c, hc, Or.inl (hcaptured c hc).current.symm⟩)
  · exact .member (Or.inl ⟨c, hc, Or.inr (hcaptured c hc).next.symm⟩)
  · induction m, hle using Nat.le_induction with
    | base => exact .member (Or.inl ⟨c, hc, Or.inl (hcaptured c hc).current.symm⟩)
    | succ m _ ih =>
      have hexternal : Derives (knowledge twins captured seen leaked) [.atom .external] :=
        .member (Or.inr (Or.inr (Or.inl ⟨hleaked, rfl⟩)))
      have hlabel : Derives (knowledge twins captured seen leaked) [.atom .label] :=
        .member (Or.inr (Or.inr (Or.inr rfl)))
      exact .hash ((ih.append hexternal).append hlabel)

/-- Which plaintexts can be made. -/
theorem derives_data_iff (hcaptured : ∀ c ∈ captured, (twins c).Inv (gen c))
    (hseen : ∀ i ∈ seen, (twins i).Inv (gen i)) (j : ℕ) :
    Derives (knowledge twins captured seen leaked) [.atom (.data j)] ↔
      ∃ i ∈ seen, ∃ b, (twins i).onNext[j]? = some b ∧
        Reaches gen captured leaked (gen i + b.toNat) := by
  constructor
  · intro h
    have hbuilt := h.built (T := Shown twins gen captured seen leaked)
      (fun w hw s hs => shown_of_mem hcaptured hw hs) ?_ _ (List.mem_singleton.mpr rfl)
    · cases hbuilt with
      | base hshown => exact hshown.plain_of_data hseen rfl
    · -- a seal is a chunk that was seen, and its key one that can be put together
      intro key plain nonce hshown hkey s hs
      generalize hseal : Sym.sealed key nonce plain = x at hshown
      cases hshown with
      | label => exact nomatch hseal
      | external => exact nomatch hseal
      | key => exact absurd hseal.symm link_ne_sealed
      | chunk hi hc =>
        obtain ⟨j, b, _, hb, rfl⟩ := sealed_of_seen hseen hi hc
        obtain ⟨rfl, -, rfl⟩ := Sym.sealed.inj hseal
        rw [List.mem_singleton.mp hs]
        have hreach := reaches_of_built hseen (hkey _ (List.mem_singleton.mpr rfl))
        exact .base (.plain hi hb hreach)
      | plain => exact nomatch hseal
  · rintro ⟨i, hi, b, hb, hreach⟩
    have h := hseen i hi
    have hlt : j < (twins i).chunks.length := h.length ▸ (List.getElem?_eq_some_iff.mp hb).1
    obtain ⟨nonce, hseal⟩ := h.chunk (List.getElem?_eq_getElem hlt) hb
    have hkey : (if b then (twins i).nextKey else (twins i).currentKey)
        = [link (gen i + b.toNat)] := by
      cases b with
      | false => exact h.current
      | true => exact h.next
    rw [hkey] at hseal
    have hchunk : Derives (knowledge twins captured seen leaked) [(twins i).chunks[j]] :=
      .member (Or.inr (Or.inl ⟨i, hi, _, List.getElem_mem hlt, rfl⟩))
    rw [hseal] at hchunk
    exact hchunk.opened (hreach.derives hcaptured)

end Knowledge

/-! ### Hops, with any trust group -/

/-- Where `h` hops bring a box of `n` chunks, whatever its keys are. -/
structure Stands (n h : ℕ) (box : ChunkedSecureBox) : Prop where
  pos : 0 < n
  chunks : box.chunks.length = n
  currentGuard : box.currentGuard = h / n
  nextGuard : box.nextGuard = h / n + 1
  guards : box.guards.length = h / n + 2
  nextChunk : box.nextChunk = h % n
  onNext : box.onNext = flags n (h % n)

/-- How many hops there are in a run. -/
def hopCount (events : List Event) : ℕ :=
  events.countP fun event => match event with
    | .hop _ => true
    | .bounce _ => false

section Positions

variable {P : Primitives} {plains : List Bytes} {n h : ℕ} {box : ChunkedSecureBox}

theorem Stands.bounces (hs : Stands n h box) (cells : List (ℕ × ℕ)) :
    Stands n h (box.bounces cells) := by
  have hlen := length_bounces box cells
  rw [bounces_eq] at hlen ⊢
  exact { hs with guards := hlen.trans hs.guards }

/-- A chunk is moved, and the generation is complete or not. -/
theorem Stands.advance (hs : Stands n h box) (pools : List ChunkPool) :
    (box.advance pools).onNext = flags n (h % n + 1) ∧
      (box.advance pools).nextChunk = (h % n + 1) % n ∧
      ((box.advance pools).Wrapped ↔ n ∣ h + 1) := by
  have hlt := Nat.mod_lt h hs.pos
  have honNext : (box.advance pools).onNext = flags n (h % n + 1) := by
    show box.onNext.set box.nextChunk true = _
    rw [hs.onNext, hs.nextChunk, flags_set]
  have hnextChunk : (box.advance pools).nextChunk = (h % n + 1) % n := by
    show (box.nextChunk + 1) % box.chunks.length = _
    rw [hs.nextChunk, hs.chunks]
  refine ⟨honNext, hnextChunk, ?_⟩
  rw [Wrapped, hnextChunk, honNext, flags_all, dvd_succ_iff hs.pos]
  constructor
  · rintro ⟨-, hle⟩
    omega
  · intro hlast
    exact ⟨by rw [hlast, Nat.mod_self], by omega⟩

theorem Stands.hop (hs : Stands n h box) (hregular : Regular P plains box) {env : HopEnv}
    (hok : (box.hop P env).outcome = .ok ()) : Stands n (h + 1) (box.hop P env).box := by
  obtain ⟨ck, nk, hold, -⟩ := hregular
  obtain ⟨pools, -, hcase⟩ := hop_cases hold env
  have hs₁ := hs.bounces env.between
  set box₁ := box.bounces env.between
  obtain ⟨honNext, hnextChunk, hiff⟩ := hs₁.advance pools
  by_cases hlast : n ∣ h + 1
  · -- the rotation adds a guard
    obtain ⟨hdiv, hmod⟩ := succ_of_dvd hlast
    obtain ⟨hw, -⟩ | ⟨hw, hhop⟩ := hcase
    · exact absurd (hiff.mpr hlast) hw
    rw [hhop] at hok ⊢
    obtain ⟨new, pages, -, hrot⟩ := rotate_returned hok
    rw [hrot]
    refine ⟨hs.pos, hs₁.chunks, hs₁.nextGuard.trans hdiv.symm, ?_, ?_, ?_, ?_⟩
    · show box₁.guards.length = _
      rw [hs₁.guards, hdiv]
    · show ((box₁.guards ++ [_]).modify _ _).length = _
      rw [List.length_modify, List.length_append, hs₁.guards, hdiv]
      rfl
    · show (box₁.advance pools).nextChunk = _
      rw [hw.1, hmod]
    · show List.replicate box₁.chunks.length false = _
      rw [hs₁.chunks, hmod, flags_zero]
  · obtain ⟨hdiv, hmod⟩ := succ_of_not_dvd hlast
    obtain ⟨-, hhop⟩ | ⟨hw, -⟩ := hcase
    swap
    · exact absurd (hiff.mp hw) hlast
    rw [hhop]
    rw [dvd_succ_iff hs.pos] at hlast
    have hlt := Nat.mod_lt h hs.pos
    refine ⟨hs.pos, hs₁.chunks, hs₁.currentGuard.trans (by rw [hdiv]),
      hs₁.nextGuard.trans (by rw [hdiv]), hs₁.guards.trans (by rw [hdiv]), ?_,
      honNext.trans (by rw [hmod])⟩
    rw [hmod]
    exact hnextChunk.trans (Nat.mod_eq_of_lt (by omega))

theorem stands_construct {source : Source} {env : InitEnv} {data : Bytes} {chunkSize : ℕ}
    {trustGroup onNewGuard : Bool}
    (hbuilt : construct source P env data chunkSize trustGroup onNewGuard = .ok box) :
    Stands box.chunks.length 0 box := by
  obtain ⟨plains, ck, nk, -, -, hold, -⟩ := construct_ok hbuilt
  have hpos : 0 < box.chunks.length :=
    hold.length_chunks ▸ lt_of_le_of_lt (Nat.zero_le _) hold.nextChunk_lt
  obtain ⟨next, pools, chunks, -, rfl⟩ := construct_shape hbuilt
  refine ⟨hpos, rfl, (Nat.zero_div _).symm, by rw [Nat.zero_div], by rw [Nat.zero_div]; rfl,
    (Nat.zero_mod _).symm, by rw [Nat.zero_mod, flags_zero]⟩

theorem hopCount_concat (events : List Event) (event : Event) :
    hopCount (events ++ [event]) = hopCount events + hopCount [event] := List.countP_append

/-- Every run moves on by its hops. -/
theorem Stands.run {box₀ : ChunkedSecureBox} (hs : Stands n h box₀)
    (hregular : Regular P plains box₀) {events : List Event} (hrun : Run (Step P) box₀ events box) :
    Stands n (h + hopCount events) box := by
  induction hrun with
  | nil => exact hs
  | snoc hrun hstep ih =>
    rw [hopCount_concat, ← Nat.add_assoc]
    cases hstep with
    | hop hok => exact ih.hop (hrun.invariant hregular Regular.step) hok
    | bounce => exact ih.bounces [_]

end Positions

/-! ### Twins -/

/-- The box with a trust group, whether it has one or not. -/
def grouped (box : ChunkedSecureBox) : ChunkedSecureBox := { box with trustGroup := true }

/-- A group that hands out nothing. -/
def Event.silenced : Event → Event
  | .hop env => .hop { env with fetch := .ok [] }
  | .bounce cell => .bounce cell

section Twins

variable {P : Primitives} {box box₀ : ChunkedSecureBox}

theorem grouped_of_trustGroup (h : box.trustGroup = true) : grouped box = box := by
  rw [grouped, ← h]

/-- The ratchet is the chain of keys of such a group. -/
theorem nextKey_silenced (key : Bytes) (fetch : Except PyError Bytes) :
    nextKey P true (.ok []) key = nextKey P false fetch key := by
  rw [nextKey, nextKey, if_pos rfl, if_neg (by decide), ok_bind, List.append_nil]
  rfl

theorem bounces_grouped (cells : List (ℕ × ℕ)) (box : ChunkedSecureBox) :
    (grouped box).bounces cells = grouped (box.bounces cells) := by
  induction cells generalizing box with
  | nil => rfl
  | cons cell cells ih => exact ih (box.bounce cell)

theorem readKeys_grouped (between : List (ℕ × ℕ)) (box : ChunkedSecureBox) :
    (grouped box).readKeys P between
      = (grouped (box.readKeys P between).1, (box.readKeys P between).2) := by
  have hreconstruct : ∀ (box : ChunkedSecureBox) (i : ℕ),
      (grouped box).reconstruct P i = box.reconstruct P i := fun _ _ => rfl
  unfold ChunkedSecureBox.readKeys
  simp only [bounces_grouped, hreconstruct]
  rw [show (grouped box).currentGuard = box.currentGuard from rfl,
    show (grouped (box.bounces between)).nextGuard = (box.bounces between).nextGuard from rfl]
  cases box.reconstruct P box.currentGuard with
  | error e => rfl
  | ok currentKey =>
    dsimp only
    cases (box.bounces between).reconstruct P (box.bounces between).nextGuard with
    | error e => rfl
    | ok nextKey => rfl

theorem trustGroup_readKeys (between : List (ℕ × ℕ)) (box : ChunkedSecureBox) :
    (box.readKeys P between).1.trustGroup = box.trustGroup := by
  rw [ChunkedSecureBox.readKeys]
  cases box.reconstruct P box.currentGuard with
  | error e => rfl
  | ok currentKey =>
    dsimp only
    cases (box.bounces between).reconstruct P (box.bounces between).nextGuard with
    | error e => exact trustGroup_bounces box between
    | ok nextKey => exact trustGroup_bounces box between

theorem rotate_grouped (htrust : box.trustGroup = false) (env : HopEnv) (next : Bytes) :
    (grouped box).rotate P { env with fetch := .ok [] } next
      = { box.rotate P env next with box := grouped (box.rotate P env next).box } := by
  obtain ⟨dataLen, trustGroup, onNewGuard, guards, currentGuard, nextGuard, pools, chunks, onNext,
    hops, nextChunk, paused, removed⟩ := box
  obtain ⟨between, nonce, fetch, mmap, callback⟩ := env
  obtain rfl : trustGroup = false := htrust
  unfold rotate
  simp only [grouped, nextKey_silenced next fetch]
  cases nextKey P false fetch next with
  | error e => rfl
  | ok key =>
    cases mmap with
    | error e => rfl
    | ok pages =>
      cases onNewGuard with
      | false => rfl
      | true =>
        cases callback with
        | error e => rfl
        | ok u => rfl

/-- A box without a trust group hops like one whose group hands out nothing. -/
theorem hop_grouped (htrust : box.trustGroup = false) (env : HopEnv) :
    (grouped box).hop P { env with fetch := .ok [] }
      = { box.hop P env with box := grouped (box.hop P env).box } := by
  have hread := trustGroup_readKeys (P := P) env.between box
  rw [hop_eq, hop_eq]
  simp only [readKeys_grouped]
  generalize box.readKeys P env.between = read at hread
  obtain ⟨box₁, keys⟩ := read
  cases keys with
  | error e => rfl
  | ok keys =>
    obtain ⟨currentKey, nextKey⟩ := keys
    dsimp only
    rw [show (grouped box₁).chunks[(grouped box₁).nextChunk]? = box₁.chunks[box₁.nextChunk]?
        from rfl,
      show (grouped box₁).onNext[(grouped box₁).nextChunk]? = box₁.onNext[box₁.nextChunk]?
        from rfl]
    cases box₁.chunks[box₁.nextChunk]? with
    | none => rfl
    | some chunk =>
      cases box₁.onNext[box₁.nextChunk]? with
      | none => rfl
      | some onNext =>
        dsimp only
        rw [show (grouped box₁).pools = box₁.pools from rfl]
        cases chunk.reencrypt P box₁.pools (if onNext then nextKey else currentKey) nextKey
            env.nonce with
        | error e => rfl
        | ok pools =>
          dsimp only
          rw [show (grouped box₁).advance pools = grouped (box₁.advance pools) from rfl]
          rw [show (grouped (box₁.advance pools)).nextChunk = (box₁.advance pools).nextChunk
              from rfl,
            show (grouped (box₁.advance pools)).onNext = (box₁.advance pools).onNext from rfl]
          split_ifs
          · have hadvanced : (box₁.advance pools).trustGroup = false := hread.trans htrust
            exact rotate_grouped hadvanced env nextKey
          · rfl

theorem trustGroup_hop {plains : List Bytes} (hregular : Regular P plains box) {env : HopEnv}
    (hok : (box.hop P env).outcome = .ok ()) :
    (box.hop P env).box.trustGroup = box.trustGroup := by
  obtain ⟨ck, nk, hold, -⟩ := hregular
  obtain ⟨pools, -, ⟨-, hhop⟩ | ⟨-, hhop⟩⟩ := hop_cases hold env
  · rw [hhop]
    exact trustGroup_bounces box env.between
  · rw [hhop] at hok ⊢
    obtain ⟨new, pages, -, hrot⟩ := rotate_returned hok
    rw [hrot]
    exact trustGroup_bounces box env.between

theorem grouped_run {plains : List Bytes} (htrust : box₀.trustGroup = false)
    (hregular : Regular P plains box₀) {events : List Event} (hrun : Run (Step P) box₀ events box) :
    box.trustGroup = false ∧
      Run (Step P) (grouped box₀) (events.map Event.silenced) (grouped box) := by
  induction hrun with
  | nil => exact ⟨htrust, Run.nil⟩
  | snoc hrun hstep ih =>
    obtain ⟨hbox, hgrouped⟩ := ih
    rw [List.map_append]
    cases hstep with
    | @hop env hok =>
      have hhop := hop_grouped (P := P) hbox env
      have hstep : Step P _ _ _ := Step.hop (P := P) (by rw [hhop]; exact hok)
      rw [hhop] at hstep
      exact ⟨(trustGroup_hop (hrun.invariant hregular Regular.step) hok).trans hbox,
        hgrouped.snoc hstep⟩
    | bounce => exact ⟨hbox, hgrouped.snoc Step.bounce⟩

theorem build_grouped {env : InitEnv} {onNewGuard : Bool} {dataLen : ℕ}
    {plaintexts : Except PyError (List Bytes)}
    (h : build P env false onNewGuard dataLen plaintexts = .ok box) :
    build P { env with fetch := .ok [] } true onNewGuard dataLen plaintexts
      = .ok (grouped box) := by
  rw [build_eq] at h
  obtain ⟨next, hnext, h⟩ := bind_eq_ok.mp h
  obtain ⟨plains, hplains, h⟩ := bind_eq_ok.mp h
  obtain ⟨⟨pools, chunks⟩, hchunks, h⟩ := bind_eq_ok.mp h
  obtain rfl := Except.ok.inj h
  rw [build_eq, nextKey_silenced _ env.fetch, hnext, ok_bind, hplains, ok_bind]
  have hchunks' : newChunks P { env with fetch := .ok [] } (if plains = [] then [[]] else plains)
      = .ok (pools, chunks) := hchunks
  dsimp only
  rw [hchunks', ok_bind]
  rfl

theorem construct_grouped {source : Source} {env : InitEnv} {data : Bytes} {chunkSize : ℕ}
    {onNewGuard : Bool}
    (h : construct source P env data chunkSize false onNewGuard = .ok box) :
    construct source P { env with fetch := .ok [] } data chunkSize true onNewGuard
      = .ok (grouped box) := by
  cases source with
  | bytes => exact build_grouped h
  | file => exact build_grouped h

variable {key external : Bytes} {plains : List Bytes} {n h : ℕ} {s s₀ : SymbolicBox}

/-- The generation of the twin is the box's. -/
theorem inv_hop (hm : Mirrors P key external plains box s) (hs : Stands n h box)
    (hinv : s.Inv (h / n)) (nonce : Nonce) : (s.hop nonce).Inv ((h + 1) / n) := by
  obtain ⟨honNext, hnextChunk, hiff⟩ := hs.advance box.pools
  have hflags : (s.advance nonce).onNext = (box.advance box.pools).onNext := by
    show s.onNext.set s.nextChunk true = box.onNext.set box.nextChunk true
    rw [hm.onNext, hm.nextChunk]
  have hposition : (s.advance nonce).nextChunk = (box.advance box.pools).nextChunk := by
    show (s.nextChunk + 1) % s.chunks.length = (box.nextChunk + 1) % box.chunks.length
    rw [hm.nextChunk, hm.length]
  by_cases hlast : n ∣ h + 1
  · have hw := hiff.mpr hlast
    rw [Wrapped, ← hposition, ← hflags] at hw
    rw [SymbolicBox.hop, if_pos hw, (succ_of_dvd hlast).1]
    exact (hinv.advance nonce).rotate hw.2
  · have hw := fun hw => hlast (hiff.mp hw)
    rw [Wrapped, ← hposition, ← hflags] at hw
    rw [SymbolicBox.hop, if_neg hw, (succ_of_not_dvd hlast).1]
    exact hinv.advance nonce

/-- A run of a box, and of its twin, with their generation. -/
theorem twin_run (hm : Mirrors P key external plains box₀ s₀) (hs : Stands n h box₀)
    (hinv : s₀.Inv (h / n)) {events : List Event} (hrun : Run (Step P) box₀ events box)
    (hfetch : ∀ event ∈ events, Fetches external event) :
    ∃ keys s, Run SymbolicBox.Step s₀ keys s ∧ Mirrors P key external plains box s ∧
      s.Inv ((h + hopCount events) / n) := by
  have hregular : Regular P plains box₀ := ⟨_, _, hm.holds, hm.apart⟩
  induction hrun with
  | nil => exact ⟨[], s₀, Run.nil, hm, hinv⟩
  | snoc hrun hstep ih =>
    obtain ⟨keys, s, hkeys, hmirrors, hgen⟩ := ih fun event hevent =>
      hfetch event (List.mem_append_left _ hevent)
    rw [hopCount_concat, ← Nat.add_assoc]
    cases hstep with
    | @hop env hok =>
      have hlast := hfetch _ (List.mem_append_right _ (List.mem_singleton.mpr rfl))
      exact ⟨_, _, hkeys.snoc (.hop env.nonce), hmirrors.hop hok hlast,
        inv_hop hmirrors (hs.run hregular hrun) hgen env.nonce⟩
    | bounce =>
      exact ⟨keys, s, hkeys, { hmirrors with holds := hmirrors.holds.bounce _ }, hgen⟩

end Twins

/-! ### Exposure -/

section Exposure

variable {P : Primitives} {source : Source} {env : InitEnv} {data external : Bytes}
  {chunkSize : ℕ} {trustGroup onNewGuard : Bool} {box₀ box box' : ChunkedSecureBox}

/-- The guard whose key a chunk with this flag is under. -/
def guardOf (box : ChunkedSecureBox) (onNext : Bool) : ℕ :=
  if onNext then box.nextGuard else box.currentGuard

theorem Stands.guardOf {n h : ℕ} (hs : Stands n h box) (b : Bool) :
    guardOf box b = h / n + b.toNat := by
  cases b with
  | false => exact hs.currentGuard
  | true => exact hs.nextGuard

/-- The twins of a family of states of one box, of any group. -/
theorem exists_twins {ι : Type*}
    (hbuilt : construct source P env data chunkSize trustGroup onNewGuard = .ok box₀)
    (hfetch : trustGroup = true → env.fetch = .ok external) {boxes : ι → ChunkedSecureBox}
    {events : ι → List Event} (hrun : ∀ i, Run (Step P) box₀ (events i) (boxes i))
    (hevents : trustGroup = true → ∀ i, ∀ event ∈ events i, Fetches external event) :
    ∃ plains, plains.flatten = data ∧ ∀ i, ∃ s,
      (∃ keys, Run SymbolicBox.Step (.init box₀.chunks.length env.nonce) keys s) ∧
      Mirrors P env.key (if trustGroup then external else []) plains (grouped (boxes i)) s ∧
      s.Inv (hopCount (events i) / box₀.chunks.length) := by
  have hs := stands_construct hbuilt
  obtain ⟨plains₀, ck, nk, -, -, hold, hne⟩ := construct_ok hbuilt
  have htrust : box₀.trustGroup = trustGroup := by
    obtain ⟨_, _, _, -, rfl⟩ := construct_shape hbuilt
    rfl
  have hzero : ∀ {nonce : ℕ → Nonce},
      (SymbolicBox.init box₀.chunks.length nonce).Inv (0 / box₀.chunks.length) := by
    rw [Nat.zero_div]
    exact .init hs.pos _
  cases trustGroup with
  | true =>
    obtain ⟨-, plains, hdata, hmirrors⟩ := mirrors_construct hbuilt (hfetch rfl)
    refine ⟨plains, hdata, fun i => ?_⟩
    obtain ⟨keys, s, hkeys, hs', hinv⟩ :=
      twin_run hmirrors hs hzero (hrun i) (hevents rfl i)
    rw [Nat.zero_add] at hinv
    exact ⟨s, ⟨keys, hkeys⟩, by rwa [if_pos rfl, grouped_of_trustGroup hs'.trustGroup], hinv⟩
  | false =>
    obtain ⟨-, plains, hdata, hmirrors⟩ := mirrors_construct (construct_grouped hbuilt) rfl
    refine ⟨plains, hdata, fun i => ?_⟩
    obtain ⟨-, hgrouped⟩ := grouped_run htrust ⟨ck, nk, hold, hne⟩ (hrun i)
    have hs' : Stands box₀.chunks.length 0 (grouped box₀) := { hs with }
    have hsilent : ∀ event ∈ (events i).map Event.silenced, Fetches [] event := by
      intro event hevent
      obtain ⟨event, -, rfl⟩ := List.mem_map.mp hevent
      cases event with
      | hop env => exact fun fetched hfetched => (Except.ok.inj hfetched).symm
      | bounce cell => trivial
    obtain ⟨keys, s, hkeys, hmirrors', hinv⟩ := twin_run hmirrors hs' hzero hgrouped hsilent
    have hcount : hopCount ((events i).map Event.silenced) = hopCount (events i) := by
      rw [hopCount, hopCount, List.countP_map]
      congr 1
      funext event
      cases event <;> rfl
    rw [Nat.zero_add, hcount] at hinv
    exact ⟨s, ⟨keys, hkeys⟩, hmirrors', hinv⟩

/-- What can be opened, told by the guards of the boxes. -/
theorem derives_guards {ι : Type*} {n : ℕ} {key : Bytes} {plains : List Bytes}
    {boxes : ι → ChunkedSecureBox} {twins : ι → SymbolicBox} {hops : ι → ℕ}
    (hmirrors : ∀ i, Mirrors P key external plains (grouped (boxes i)) (twins i))
    (hinv : ∀ i, (twins i).Inv (hops i / n)) (hs : ∀ i, Stands n (hops i) (boxes i))
    (captured seen : Set ι) (leaked : Prop) (j : ℕ) :
    Derives (knowledge twins captured seen leaked) [.atom (.data j)] ↔
      ∃ i ∈ seen, ∃ b, (boxes i).onNext[j]? = some b ∧ ∃ c ∈ captured,
        guardOf (boxes i) b = (boxes c).currentGuard ∨
          guardOf (boxes i) b = (boxes c).nextGuard ∨
          leaked ∧ (boxes c).currentGuard ≤ guardOf (boxes i) b := by
  rw [derives_data_iff (fun c _ => hinv c) (fun i _ => hinv i)]
  refine exists_congr fun i => and_congr_right fun _ => exists_congr fun b => ?_
  rw [(hmirrors i).onNext]
  refine and_congr_right fun _ => exists_congr fun c => and_congr_right fun _ => ?_
  rw [(hs i).guardOf b, (hs c).currentGuard, (hs c).nextGuard]

/-- When every chunk is under a key later than the two next to `k`: the last chunk is the last one
to be moved. -/
theorem out_of_reach_iff {n h k : ℕ} (hs : Stands n h box) (hk : k ≤ h / n)
    (secret : Prop) :
    (∀ j < n, ∀ b, box.onNext[j]? = some b →
        ¬ (guardOf box b = k ∨ guardOf box b = k + 1 ∨ secret ∧ k ≤ guardOf box b)) ↔
      ¬ secret ∧ k + 2 ≤ h / n := by
  have hpos := hs.pos
  constructor
  · intro hclosed
    have hlast : box.onNext[n - 1]? = some (decide (n - 1 < h % n)) := by
      rw [hs.onNext, getElem?_flags (by omega)]
    have hflag : decide (n - 1 < h % n) = false := by
      have := Nat.mod_lt h hpos
      exact decide_eq_false (by omega)
    have hnot := hclosed (n - 1) (by omega) _ hlast
    rw [hflag, hs.guardOf, Bool.toNat_false, Nat.add_zero] at hnot
    refine ⟨fun hsecret => hnot (Or.inr (Or.inr ⟨hsecret, hk⟩)), ?_⟩
    by_contra hlt
    refine hnot ?_
    rcases Nat.eq_or_lt_of_le hk with heq | hgt
    · exact Or.inl heq.symm
    · exact Or.inr (Or.inl (by omega))
  · rintro ⟨hsecret, hround⟩ j - b - hreach
    rw [hs.guardOf] at hreach
    rcases hreach with heq | heq | ⟨hleaked, -⟩
    · omega
    · omega
    · exact hsecret hleaked

/-- Two rounds are over: the hops since the last rotation have gone round all chunks twice. -/
theorem Stands.two_rounds_iff {n h : ℕ} (hs : Stands n h box) (d : ℕ) :
    2 * n ≤ box.nextChunk + d ↔ h / n + 2 ≤ (h + d) / n := by
  have := Nat.div_add_mod h n
  rw [hs.nextChunk, Nat.le_div_iff_mul_le hs.pos, Nat.add_mul, Nat.mul_comm (h / n) n]
  omega

/-- **Exposure.**  Of the ciphertexts recorded in any states of a box, captured guards open
those under one of their own keys; with the secret of the group, or without a group, those under
later keys as well; and never one under an earlier key. -/
theorem opens_iff {ι : Type*}
    (hbuilt : construct source P env data chunkSize trustGroup onNewGuard = .ok box₀)
    (hfetch : trustGroup = true → env.fetch = .ok external) {boxes : ι → ChunkedSecureBox}
    {events : ι → List Event} (hrun : ∀ i, Run (Step P) box₀ (events i) (boxes i))
    (hevents : trustGroup = true → ∀ i, ∀ event ∈ events i, Fetches external event) :
    ∃ plains twins, plains.flatten = data ∧
      (∀ i, (∃ keys, Run SymbolicBox.Step (.init box₀.chunks.length env.nonce) keys (twins i)) ∧
        Mirrors P env.key (if trustGroup then external else []) plains (grouped (boxes i))
          (twins i)) ∧
      ∀ (captured seen : Set ι) (leaked : Prop) (j : ℕ),
        Derives (knowledge twins captured seen (leaked ∨ trustGroup = false))
            [.atom (.data j)] ↔
          ∃ i ∈ seen, ∃ b, (boxes i).onNext[j]? = some b ∧ ∃ c ∈ captured,
            guardOf (boxes i) b = (boxes c).currentGuard ∨
              guardOf (boxes i) b = (boxes c).nextGuard ∨
              (leaked ∨ trustGroup = false) ∧
                (boxes c).currentGuard ≤ guardOf (boxes i) b := by
  obtain ⟨plains, hdata, htwins⟩ := exists_twins hbuilt hfetch hrun hevents
  choose twins hkeys hmirrors hinv using htwins
  refine ⟨plains, twins, hdata, fun i => ⟨hkeys i, hmirrors i⟩, fun captured seen leaked j =>
    derives_guards hmirrors hinv (fun i => ?_) captured seen _ j⟩
  obtain ⟨_, ck, nk, -, -, hold, hne⟩ := construct_ok hbuilt
  have hs := (stands_construct hbuilt).run ⟨ck, nk, hold, hne⟩ (hrun i)
  rwa [Nat.zero_add] at hs

/-- **Healing.**  After a capture of both guards a box goes on, and what is in it is out of
reach of what was captured exactly when there is a trust group, its secret has not leaked, and
the hops since the last rotation have gone round all chunks twice. -/
theorem healed_iff
    (hbuilt : construct source P env data chunkSize trustGroup onNewGuard = .ok box₀)
    (hfetch : trustGroup = true → env.fetch = .ok external) {before after : List Event}
    (hrun : Run (Step P) box₀ before box) (hlater : Run (Step P) box after box')
    (hevents : trustGroup = true → ∀ event ∈ before ++ after, Fetches external event)
    (leaked : Prop) :
    ∃ plains twin twin', plains.flatten = data ∧
      Mirrors P env.key (if trustGroup then external else []) plains (grouped box) twin ∧
      Mirrors P env.key (if trustGroup then external else []) plains (grouped box') twin' ∧
      ((∀ j < box.chunks.length, ¬ Derives (knowledge (fun later : Bool =>
            if later then twin' else twin) {false} {true} (leaked ∨ trustGroup = false))
            [.atom (.data j)]) ↔
        (trustGroup = true ∧ ¬ leaked) ∧
          2 * box.chunks.length ≤ box.nextChunk + hopCount after) := by
  set n := box₀.chunks.length
  obtain ⟨_, ck, nk, -, -, hold, hne⟩ := construct_ok hbuilt
  have hregular : Regular P _ box₀ := ⟨ck, nk, hold, hne⟩
  have hs : Stands n (hopCount before) box := by
    have := (stands_construct hbuilt).run hregular hrun
    rwa [Nat.zero_add] at this
  have hs' : Stands n (hopCount before + hopCount after) box' :=
    hs.run (hrun.invariant hregular Regular.step) hlater
  have hruns : ∀ later : Bool, Run (Step P) box₀ (if later then before ++ after else before)
      (if later then box' else box) := by
    intro later
    cases later with
    | false => exact hrun
    | true => exact hrun.trans hlater
  have hfetches : trustGroup = true → ∀ later : Bool,
      ∀ event ∈ if later then before ++ after else before, Fetches external event := by
    intro htrust later event hevent
    refine hevents htrust event ?_
    cases later with
    | false => exact List.mem_append_left _ hevent
    | true => exact hevent
  obtain ⟨plains, hdata, htwins⟩ := exists_twins hbuilt hfetch hruns hfetches
  choose twins _ hmirrors hinv using htwins
  have hpair : (fun later : Bool => if later then twins true else twins false) = twins := by
    funext later
    cases later <;> rfl
  refine ⟨plains, twins false, twins true, hdata, hmirrors false, hmirrors true, ?_⟩
  rw [hpair, hs.chunks, hs.two_rounds_iff]
  have hopen : ∀ j, Derives (knowledge twins {false} {true} (leaked ∨ trustGroup = false))
      [.atom (.data j)] ↔ ∃ b, box'.onNext[j]? = some b ∧
        (guardOf box' b = hopCount before / n ∨ guardOf box' b = hopCount before / n + 1 ∨
          (leaked ∨ trustGroup = false) ∧ hopCount before / n ≤ guardOf box' b) := by
    intro j
    rw [derives_guards hmirrors hinv (n := n) fun later => ?_, ← hs.nextGuard, ← hs.currentGuard]
    · simp
    · cases later with
      | false => exact hs
      | true =>
        have hcount : hopCount (before ++ after) = hopCount before + hopCount after :=
          List.countP_append
        rw [if_pos rfl, if_pos rfl, hcount]
        exact hs'
  have hsecret : ¬ (leaked ∨ trustGroup = false) ↔ trustGroup = true ∧ ¬ leaked := by
    rw [not_or, Bool.not_eq_false, and_comm]
  rw [← hsecret, ← out_of_reach_iff hs' (Nat.div_le_div_right (Nat.le_add_right ..))]
  exact forall₂_congr fun j _ => by rw [hopen, not_exists]; simp only [not_and]

end Exposure

theorem opens_iff_hop :
    ∃ box₀, construct .bytes Primitives.sample InitEnv.sample [1, 2, 3] 2 true true = .ok box₀ ∧
      ∃ twins : Bool → SymbolicBox, ∀ (captured seen : Set Bool) (leaked : Prop) (j : ℕ),
        Derives (knowledge twins captured seen (leaked ∨ true = false)) [.atom (.data j)] ↔
          ∃ i ∈ seen, ∃ b,
            (if i then (box₀.hop Primitives.sample sampleHop).box else box₀).onNext[j]? = some b ∧
            ∃ c ∈ captured,
              guardOf (if i then (box₀.hop Primitives.sample sampleHop).box else box₀) b
                  = (if c then (box₀.hop Primitives.sample sampleHop).box else box₀).currentGuard ∨
                guardOf (if i then (box₀.hop Primitives.sample sampleHop).box else box₀) b
                  = (if c then (box₀.hop Primitives.sample sampleHop).box else box₀).nextGuard ∨
                (leaked ∨ true = false) ∧
                  (if c then (box₀.hop Primitives.sample sampleHop).box else box₀).currentGuard ≤
                    guardOf (if i then (box₀.hop Primitives.sample sampleHop).box else box₀) b := by
  obtain ⟨box₀, plains, ck, nk, hbuilt, -, -, hold, hne⟩ := construct_spec
    (P := Primitives.sample) .bytes [1, 2, 3] (show 1 ≤ 2 by decide) true
    (show true = true → ∃ external, InitEnv.sample.fetch = .ok external from
      fun _ => ⟨[1, 2, 3], rfl⟩)
  have hok : (box₀.hop Primitives.sample sampleHop).outcome = .ok () :=
    (show Regular Primitives.sample plains box₀ from ⟨ck, nk, hold, hne⟩).hop_returns
      (fun _ => ⟨[1, 2, 3], rfl⟩) ⟨_, rfl⟩ rfl
  have hruns : ∀ i : Bool, Run (Step Primitives.sample) box₀ (if i then [.hop sampleHop] else [])
      (if i then (box₀.hop Primitives.sample sampleHop).box else box₀) := by
    intro i
    cases i with
    | false => exact Run.nil
    | true => exact Run.single (.hop hok)
  have hfetches : ∀ i : Bool, ∀ event ∈ if i then [.hop sampleHop] else [],
      Fetches [1, 2, 3] event := by
    intro i event hevent
    cases i with
    | false => exact nomatch hevent
    | true =>
      obtain rfl := List.mem_singleton.mp hevent
      exact fun fetched h => (Except.ok.inj h).symm
  obtain ⟨-, twins, -, -, hopens⟩ := opens_iff hbuilt (fun _ => rfl) hruns fun _ => hfetches
  exact ⟨box₀, hbuilt, twins, hopens⟩

/-- One hop after the capture is not enough. -/
theorem healed_iff_hop :
    ∃ box₀, construct .bytes Primitives.sample InitEnv.sample [1, 2, 3] 2 true true = .ok box₀ ∧
      ∃ twin twin', (∀ j < box₀.chunks.length, ¬ Derives (knowledge (fun later : Bool =>
          if later then twin' else twin) {false} {true} (False ∨ true = false))
          [.atom (.data j)]) ↔
        (true = true ∧ ¬ False) ∧ 2 * box₀.chunks.length ≤ box₀.nextChunk + 1 := by
  obtain ⟨box₀, plains, ck, nk, hbuilt, -, -, hold, hne⟩ := construct_spec
    (P := Primitives.sample) .bytes [1, 2, 3] (show 1 ≤ 2 by decide) true
    (show true = true → ∃ external, InitEnv.sample.fetch = .ok external from
      fun _ => ⟨[1, 2, 3], rfl⟩)
  have hok : (box₀.hop Primitives.sample sampleHop).outcome = .ok () :=
    (show Regular Primitives.sample plains box₀ from ⟨ck, nk, hold, hne⟩).hop_returns
      (fun _ => ⟨[1, 2, 3], rfl⟩) ⟨_, rfl⟩ rfl
  obtain ⟨-, twin, twin', -, -, -, hhealed⟩ := healed_iff hbuilt (fun _ => rfl) Run.nil
    (Run.single (.hop hok))
    (fun _ event hevent => by
      obtain rfl := List.mem_singleton.mp hevent
      exact fun fetched h => (Except.ok.inj h).symm) False
  exact ⟨box₀, hbuilt, twin, twin', hhealed⟩

end KeyExposure
