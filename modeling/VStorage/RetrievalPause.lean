/-
The pause around a retrieval.

`snapshot`, `stream_to` and `stream_to_wrapped` set the pause flag of the box, work under
its lock, and clear the flag; the streams clear it in a `finally`, `snapshot` on its last
line but one.

* `stream_restored`: a stream leaves the box as it was, however it ends;
* `retrieval_restores_iff`: a snapshot does so exactly when both keys reconstruct and every
  chunk opens;
* `snapshot_leaves_paused`: otherwise the workers put the box back without ever hopping it.
-/
import Mathlib
import VStorage.FallScheduler

namespace ChunkedSecureBox

/-- The three ways to get the data out of a box. -/
inductive Retrieval
  | snapshot
  | streamTo (write : ℕ → Except PyError Unit)
  | streamToWrapped (transitKey : Bytes) (nonces : ℕ → Nonce) (write : ℕ → Except PyError Unit)

/-- The box that a retrieval leaves behind. -/
def Retrieval.after (P : Primitives) (between : List (ℕ × ℕ)) (box : ChunkedSecureBox) :
    Retrieval → ChunkedSecureBox
  | .snapshot => (box.snapshot P between).1
  | .streamTo write => (box.streamTo P between write).1
  | .streamToWrapped transitKey nonces write =>
    (box.streamToWrapped P between transitKey nonces write).1

/-- `box'` is `box` with the pause flag clear, but for cells that the shared scheduler has
bounced in the meantime. -/
def Restored (between : List (ℕ × ℕ)) (box box' : ChunkedSecureBox) : Prop :=
  ∃ cells, cells <+: between ∧ box' = { box.bounces cells with paused := false }

/-- Both keys reconstruct and every chunk opens. -/
def Readable (P : Primitives) (between : List (ℕ × ℕ)) (box : ChunkedSecureBox) : Prop :=
  ∃ currentKey nextKey, box.reconstruct P box.currentGuard = .ok currentKey ∧
    (box.bounces between).reconstruct P box.nextGuard = .ok nextKey ∧
    ∀ entry ∈ box.entries, ∃ plaintext,
      openEntry P box.pools (currentKey, nextKey) entry = .ok plaintext

variable {P : Primitives} {between : List (ℕ × ℕ)} {box : ChunkedSecureBox}

/-! ### What is restored -/

/-- Everything but the bounced cells is as it was. -/
theorem Restored.same {box' : ChunkedSecureBox} (h : Restored between box box') :
    box'.paused = false ∧ box'.removed = box.removed ∧ box'.pools = box.pools ∧
      box'.chunks = box.chunks ∧ box'.onNext = box.onNext ∧ box'.nextChunk = box.nextChunk ∧
      box'.hops = box.hops ∧ box'.currentGuard = box.currentGuard ∧
      box'.nextGuard = box.nextGuard ∧ box'.guards.length = box.guards.length := by
  obtain ⟨cells, -, rfl⟩ := h
  have hlen := length_bounces box cells
  rw [bounces_eq] at hlen ⊢
  exact ⟨rfl, rfl, rfl, rfl, rfl, rfl, rfl, rfl, rfl, hlen⟩

/-- When nothing bounces in between, everything is. -/
theorem Restored.eq {box' : ChunkedSecureBox} (h : Restored [] box box') :
    box' = { box with paused := false } := by
  obtain ⟨cells, hcells, rfl⟩ := h
  rw [List.prefix_nil.mp hcells]
  rfl

/-- The next worker that has the box hops it, if it has not been removed. -/
theorem Restored.enter {box' : ChunkedSecureBox} (h : Restored between box box') (b : ℕ) :
    FallScheduler.enter b box' = if box.removed then .peeking else .hopping b := by
  obtain ⟨hpaused, hremoved, -⟩ := h.same
  rw [FallScheduler.enter, hremoved, hpaused]
  rfl

/-! ### The three loops -/

/-- Bounces and the pause flag have nothing to do with each other. -/
theorem bounces_paused (box : ChunkedSecureBox) (cells : List (ℕ × ℕ)) (paused : Bool) :
    ({ box with paused := paused } : ChunkedSecureBox).bounces cells
      = { box.bounces cells with paused := paused } := by
  induction cells generalizing box with
  | nil => rfl
  | cons cell cells ih => exact ih (box.bounce cell)

/-- What reading the keys of a paused box gives. -/
theorem readKeys_cases (P : Primitives) (between : List (ℕ × ℕ)) (box : ChunkedSecureBox) :
    (∃ e cells, cells <+: between ∧ readKeys P between { box with paused := true }
        = ({ box.bounces cells with paused := true }, .error e) ∧
      ¬ Readable P between box) ∨
    ∃ currentKey nextKey, box.reconstruct P box.currentGuard = .ok currentKey ∧
      (box.bounces between).reconstruct P box.nextGuard = .ok nextKey ∧
      readKeys P between { box with paused := true }
        = ({ box.bounces between with paused := true }, .ok (currentKey, nextKey)) := by
  have hcurrent : ({ box with paused := true } : ChunkedSecureBox).reconstruct P
      box.currentGuard = box.reconstruct P box.currentGuard := rfl
  have hnext : ({ box.bounces between with paused := true } : ChunkedSecureBox).reconstruct P
      (box.bounces between).nextGuard = (box.bounces between).reconstruct P box.nextGuard := by
    rw [(bounces_guards box between).2]
    rfl
  unfold readKeys
  dsimp only
  rw [hcurrent, bounces_paused]
  cases hck : box.reconstruct P box.currentGuard with
  | error e =>
    refine Or.inl ⟨e, [], List.nil_prefix, rfl, ?_⟩
    rintro ⟨currentKey, -, hok, -⟩
    exact nomatch hck.symm.trans hok
  | ok currentKey =>
    dsimp only
    rw [hnext]
    cases hnk : (box.bounces between).reconstruct P box.nextGuard with
    | error e =>
      refine Or.inl ⟨e, between, List.prefix_refl _, rfl, ?_⟩
      rintro ⟨-, nextKey, -, hok, -⟩
      exact nomatch hnk.symm.trans hok
    | ok nextKey => exact Or.inr ⟨currentKey, nextKey, rfl, rfl, rfl⟩

/-- **Streams.**  Whatever is written, and wherever the keys, a chunk, the wrapping or the
write fails, a stream leaves the box as it was. -/
theorem stream_restored (P : Primitives) (between : List (ℕ × ℕ)) (box : ChunkedSecureBox)
    (wrap : ℕ → Bytes → Except PyError Bytes) (write : ℕ → Except PyError Unit) :
    Restored between box (box.stream P between wrap write).1 := by
  unfold stream
  obtain ⟨e, cells, hcells, hkeys, -⟩ | ⟨currentKey, nextKey, -, -, hkeys⟩ :=
    readKeys_cases P between box
  · rw [hkeys]
    exact ⟨cells, hcells, rfl⟩
  · rw [hkeys]
    exact ⟨between, List.prefix_refl _, rfl⟩

/-- The loop of `snapshot` gets to its end when every chunk opens. -/
theorem foldlM_opens_iff {pools : List ChunkPool} {keys : Bytes × Bytes}
    {entries : List (Chunk × Bool)} (out : Bytes) :
    (∃ all, entries.foldlM (fun out entry => do
        let plaintext ← openEntry P pools keys entry
        return out ++ plaintext.take entry.1.plainLen) out = .ok all) ↔
      ∀ entry ∈ entries, ∃ plaintext, openEntry P pools keys entry = .ok plaintext := by
  induction entries generalizing out with
  | nil =>
    constructor
    · intro _ entry hentry
      exact nomatch hentry
    · intro _
      exact ⟨out, rfl⟩
  | cons entry entries ih =>
    rw [List.forall_mem_cons]
    simp only [List.foldlM_cons]
    cases hopen : openEntry P pools keys entry with
    | error e =>
      constructor
      · rintro ⟨all, hall⟩
        exact nomatch hall
      · rintro ⟨⟨plaintext, hok⟩, -⟩
        exact nomatch hok
    | ok plaintext =>
      refine (ih (out ++ plaintext.take entry.1.plainLen)).trans ?_
      exact ⟨fun hrest => ⟨⟨plaintext, rfl⟩, hrest⟩, And.right⟩

/-- A snapshot leaves the box as it was exactly when nothing in it raises. -/
theorem snapshot_restored_iff (P : Primitives) (between : List (ℕ × ℕ)) (box : ChunkedSecureBox) :
    Restored between box (box.snapshot P between).1 ↔ Readable P between box := by
  -- an exception gets past the line that clears the flag
  have hstuck : ∀ cells, ¬ Restored between box { box.bounces cells with paused := true } :=
    fun cells h => Bool.false_ne_true h.same.1.symm
  unfold snapshot
  obtain ⟨e, cells, -, hkeys, hnot⟩ | ⟨currentKey, nextKey, hck, hnk, hkeys⟩ :=
    readKeys_cases P between box
  · rw [hkeys]
    exact iff_of_false (hstuck cells) hnot
  · rw [hkeys]
    have hentries : ({ box.bounces between with paused := true } : ChunkedSecureBox).entries
        = box.entries := by
      rw [bounces_eq]
      rfl
    have hpools : ({ box.bounces between with paused := true } : ChunkedSecureBox).pools
        = box.pools := by
      rw [bounces_eq]
    have hiff : (∃ all, box.entries.foldlM (fun out entry => do
        let plaintext ← openEntry P box.pools (currentKey, nextKey) entry
        return out ++ plaintext.take entry.1.plainLen) [] = .ok all) ↔ Readable P between box := by
      rw [foldlM_opens_iff]
      constructor
      · intro hopens
        exact ⟨currentKey, nextKey, hck, hnk, hopens⟩
      · rintro ⟨ck, nk, hck', hnk', hopens⟩
        obtain rfl := Except.ok.inj (hck.symm.trans hck')
        obtain rfl := Except.ok.inj (hnk.symm.trans hnk')
        exact hopens
    rw [← hentries, ← hpools] at hiff
    dsimp only
    split
    · rename_i e he
      refine iff_of_false (hstuck between) fun hread => ?_
      obtain ⟨all, hall⟩ := hiff.mpr hread
      exact nomatch he.symm.trans hall
    · rename_i out hout
      exact iff_of_true ⟨between, List.prefix_refl _, rfl⟩ (hiff.mp ⟨out, hout⟩)

/-- **Retrievals.**  A retrieval leaves the box as it was, with the pause flag clear, if and
only if it is a stream or a snapshot of a box whose keys reconstruct and whose chunks all
open. -/
theorem retrieval_restores_iff (P : Primitives) (between : List (ℕ × ℕ)) (box : ChunkedSecureBox)
    (retrieval : Retrieval) :
    Restored between box (retrieval.after P between box) ↔
      (retrieval = .snapshot → Readable P between box) := by
  cases retrieval with
  | snapshot => exact (snapshot_restored_iff P between box).trans ⟨fun h _ => h, fun h => h rfl⟩
  | streamTo write =>
    exact iff_of_true (stream_restored P between box _ write) fun h => nomatch h
  | streamToWrapped transitKey nonces write =>
    exact iff_of_true (stream_restored P between box _ write) fun h => nomatch h

/-- A box whose key cells the watchdog has overwritten with zeros. -/
def wiped (box : ChunkedSecureBox) : ChunkedSecureBox :=
  { box with guards := box.guards.map fun g =>
      { g with cells := g.cells.map fun c => { c with pageA := 0, pageB := 0 } } }

/-- A snapshot of a wiped box: how it ends, whether the box is paused afterwards, and what the
next worker that takes it does. -/
def stuck : Except PyError (Except PyError Bytes × Bool × Bool × FallScheduler.Worker) :=
  (construct .bytes Primitives.sample InitEnv.sample [7] 1 false false).map fun box =>
    let (box', result) := box.wiped.snapshot Primitives.sample []
    (result, box'.removed, box'.paused, FallScheduler.enter 0 box')

/-- The snapshot raises, the box stays paused though it has not been removed, and every worker
that takes it puts it back as it is. -/
theorem snapshot_leaves_paused :
    stuck = .ok (.error .lzmaError, false, true, .pushing 0 (1 / 1000)) ∧
      ∃ box : ChunkedSecureBox,
        ¬ Restored [] box (Retrieval.snapshot.after Primitives.sample [] box) := by
  have hstuck : stuck = .ok (.error .lzmaError, false, true, .pushing 0 (1 / 1000)) := by
    decide +kernel
  refine ⟨hstuck, ?_⟩
  unfold stuck at hstuck
  cases hbuilt : construct .bytes Primitives.sample InitEnv.sample [7] 1 false false with
  | error e =>
    rw [hbuilt] at hstuck
    exact nomatch hstuck
  | ok box =>
    refine ⟨box.wiped, fun hrestored => ?_⟩
    rw [hbuilt] at hstuck
    have hpaused := (Prod.mk.inj (Prod.mk.inj (Prod.mk.inj (Except.ok.inj hstuck)).2).2).1
    exact Bool.false_ne_true (hrestored.same.1.symm.trans hpaused)

end ChunkedSecureBox
