/-
Secrets that nobody can reach and that fall on.

A box falls until it is collapsed, and only `forget` collapses it.  `rotate` and `revoke`
forget the file whose entry they replace; `store` replaces an entry as well and forgets
nothing, and it has started the boxes of its file when it raises on a token that cannot be
encoded; `kill_replica` drops a whole store with everything in it.

* `orphans_iff`: the boxes that run are those of the current entries after every call of a
  run if and only if no call stores under a key that is taken or with a token that cannot be
  encoded, and none kills a replica that holds a secret;
* `orphaned_secrets`: two stores under one key, one store, and a kill.
-/
import Mathlib
import VStorage.Ownership
import VStorage.ReplicatedSecretsStore

open Ownership (Owned Orphan)

/-! ### The boxes of a file -/

namespace VirtualStorage

variable {FileId : Type*} [DecidableEq FileId]

/-- The boxes that `_hold` makes. -/
def boxesOf (fileId : FileId) : Finset (FileId × Piece) :=
  {(fileId, .content), (fileId, .structural), (fileId, .metadata)}

/-- The boxes that `forget` collapses. -/
def collapses (fileId : FileId) (vs : VirtualStorage FileId) : Finset (FileId × Piece) :=
  match vs.held.get? fileId with
  | none => ∅
  | some _ => boxesOf fileId

theorem mem_boxesOf {fileId : FileId} {box : FileId × Piece} :
    box ∈ boxesOf fileId ↔ box.1 = fileId := by
  obtain ⟨id, piece⟩ := box
  cases piece <;> simp [boxesOf]

theorem collapses_of_held {fileId : FileId} {vs : VirtualStorage FileId} {held : Held}
    (h : vs.held.get? fileId = some held) : vs.collapses fileId = boxesOf fileId := by
  rw [collapses, h]

end VirtualStorage

open VirtualStorage (boxesOf mem_boxesOf collapses_of_held)

/-- A store, and the boxes that run in its process. -/
structure Process (σ FileId : Type*) where
  store : σ
  running : Finset (FileId × Piece)

/-- The id of no box that runs. -/
def Process.Fresh {σ FileId : Type*} (p : Process σ FileId) (fileId : FileId) : Prop :=
  ∀ box ∈ p.running, box.1 ≠ fileId

theorem surjective_fst {FileId : Type*} :
    Function.Surjective (Prod.fst : FileId × Piece → FileId) :=
  fun fileId => ⟨(fileId, .content), rfl⟩

/-! ### A single store -/

namespace SecretsStore

variable {FileId τ η : Type*}

/-- The file of the current entry under a key. -/
def file (s : SecretsStore FileId η) (key : String) : Option FileId :=
  (s.entries.get? key).map Entry.fileId

theorem file_set (s : SecretsStore FileId η) (key : String) (entry : Entry FileId η) (k : String) :
    ((s.entries.set key entry).get? k).map Entry.fileId
      = if k = key then some entry.fileId else s.file k := by
  rw [Dict.get?_set]
  split
  · rfl
  · rfl

/-- A store with a token that cannot be encoded changes no entry. -/
theorem file_store [DecidableEq FileId] (P : Primitives) (L : Libraries)
    (hashToken : τ → Except PyError η) (s : SecretsStore FileId η) (key : String) (value : Bytes)
    (token : τ) (fileId : FileId) (k : String) :
    (s.store P L hashToken key value token fileId).1.file k =
      match hashToken token with
      | .ok _ => if k = key then some fileId else s.file k
      | .error _ => s.file k := by
  unfold SecretsStore.store
  cases hashToken token with
  | ok hash => exact file_set s key ⟨fileId, hash⟩ k
  | error e => rfl

theorem file_of_get? {s : SecretsStore FileId η} {key : String} {entry : Entry FileId η}
    (h : s.entries.get? key = some entry) : s.file key = some entry.fileId := by
  rw [file, h]
  rfl

/-- The call does not store under a key that is taken, nor with a token that cannot be
encoded. -/
def Clean (hashToken : τ → Except PyError η) (p : Process (SecretsStore FileId η) FileId) :
    Event FileId τ → Prop
  | .store key _ token =>
      p.store.entries.get? key = none ∧ ∃ hash, hashToken token = .ok hash
  | _ => True

/-- What a call leaves running without an entry: the boxes of a file that a store replaces, or
those that it starts before it raises. -/
def Lost (hashToken : τ → Except PyError η) (p q : Process (SecretsStore FileId η) FileId) :
    Event FileId τ → FileId × Piece → Prop
  | .store key _ token, box =>
    match hashToken token with
    | .ok _ => p.store.file key = some box.1
    | .error _ => box ∈ q.running ∧ box ∉ p.running
  | _, _ => False

section Lost

variable {hashToken : τ → Except PyError η} {p q : Process (SecretsStore FileId η) FileId}
  {key : String} {value : Bytes} {token : τ}

theorem lost_of_ok {hash : η}
    (htoken : hashToken token = .ok hash) (box : FileId × Piece) :
    Lost hashToken p q (.store key value token) box ↔ p.store.file key = some box.1 := by
  rw [Lost, htoken]

theorem lost_of_error {e : PyError}
    (htoken : hashToken token = .error e) (box : FileId × Piece) :
    Lost hashToken p q (.store key value token) box ↔ box ∈ q.running ∧ box ∉ p.running := by
  rw [Lost, htoken]

end Lost

variable [DecidableEq FileId]

section Boxes

variable [DecidableEq η] (P : Primitives) (L : Libraries) (hashToken : τ → Except PyError η)

/-- The boxes that run after `rotate`. -/
def rotateBoxes (key : String) (newValue : Bytes) (token : τ) (newFileId : FileId)
    (s : SecretsStore FileId η) (running : Finset (FileId × Piece)) : Finset (FileId × Piece) :=
  match s.entries.get? key with
  | none => running
  | some entry =>
    match checkOwner hashToken token entry with
    | .error _ => running
    | .ok () => (running ∪ boxesOf newFileId) \
        (s.vs.saveBytes P L newValue key newFileId).collapses entry.fileId

/-- The boxes that run after `revoke`. -/
def revokeBoxes (key : String) (token : τ) (s : SecretsStore FileId η)
    (running : Finset (FileId × Piece)) : Finset (FileId × Piece) :=
  match s.entries.get? key with
  | none => running
  | some entry =>
    match checkOwner hashToken token entry with
    | .error _ => running
    | .ok () => running \ s.vs.collapses entry.fileId

/-- A call that may start or collapse boxes, or a grant. -/
inductive Mutates : Process (SecretsStore FileId η) FileId → Event FileId τ →
    Process (SecretsStore FileId η) FileId → Prop
  | store {p : Process (SecretsStore FileId η) FileId} {key : String} {value : Bytes} {token : τ}
      {fileId : FileId} : p.Fresh fileId →
      Mutates p (.store key value token)
        ⟨(p.store.store P L hashToken key value token fileId).1, p.running ∪ boxesOf fileId⟩
  | share {p : Process (SecretsStore FileId η) FileId} {key : String} {owner grantee : τ} :
      Mutates p (.share key owner grantee)
        ⟨(p.store.share hashToken key owner grantee).1, p.running⟩
  | rotate {p : Process (SecretsStore FileId η) FileId} {key : String} {value : Bytes} {token : τ}
      {fileId : FileId} : p.Fresh fileId →
      Mutates p (.rotate key value token)
        ⟨(p.store.rotate P L hashToken key value token fileId).1,
          p.store.rotateBoxes P L hashToken key value token fileId p.running⟩
  | revoke {p : Process (SecretsStore FileId η) FileId} {key : String} {token : τ} :
      Mutates p (.revoke key token)
        ⟨(p.store.revoke hashToken key token).1, p.store.revokeBoxes hashToken key token p.running⟩

end Boxes

/-- The boxes that run are the three boxes of each current entry. -/
def NoOrphans (p : Process (SecretsStore FileId η) FileId) : Prop :=
  ∀ box, box ∈ p.running ↔
    ∃ key entry, p.store.entries.get? key = some entry ∧ box ∈ boxesOf entry.fileId

/-- No two entries have one file, the files of the entries are held, and their boxes run. -/
structure Accounted (p : Process (SecretsStore FileId η) FileId) : Prop where
  owned : Owned Prod.fst p.store.file (p.running : Set (FileId × Piece))
  held : ∀ key fileId, p.store.file key = some fileId →
    ∃ held, p.store.vs.held.get? fileId = some held

variable {P : Primitives} {L : Libraries} {hashToken : τ → Except PyError η}
  {p q : Process (SecretsStore FileId η) FileId}

/-- A file that is held is held after another has been saved. -/
theorem held_saveBytes {vs : VirtualStorage FileId} {file : FileId}
    (h : ∃ held, vs.held.get? file = some held) (raw : Bytes) (name : String) (fileId : FileId) :
    ∃ held, (vs.saveBytes P L raw name fileId).held.get? file = some held := by
  show ∃ held, (vs.held.set fileId _).get? file = some held
  rw [Dict.get?_set]
  split
  · exact ⟨_, rfl⟩
  · exact h

theorem held_forget {vs : VirtualStorage FileId} {file fileId : FileId}
    (h : ∃ held, vs.held.get? file = some held) (hne : file ≠ fileId) :
    ∃ held, (vs.forget fileId).held.get? file = some held := by
  show ∃ held, (vs.held.erase fileId).get? file = some held
  rw [Dict.get?_erase, if_neg hne]
  exact h

/-- The key gets the new file, and the boxes of its old one are lost. -/
theorem Accounted.enter (h : Accounted p) {fileId : FileId} (hfresh : p.Fresh fileId)
    {key : String} {value : Bytes} {token : τ} {hash : η} (htoken : hashToken token = .ok hash) :
    Accounted (η := η) ⟨(p.store.store P L hashToken key value token fileId).1,
        p.running ∪ boxesOf fileId⟩ ∧
      ∀ box, Orphan Prod.fst (p.store.store P L hashToken key value token fileId).1.file
          (↑(p.running ∪ boxesOf fileId) : Set (FileId × Piece)) box ↔
        Orphan Prod.fst p.store.file (p.running : Set (FileId × Piece)) box ∨
          p.store.file key = some box.1 := by
  set s := (p.store.store P L hashToken key value token fileId).1 with hs
  have hfile : ∀ k, s.file k = if k = key then some fileId else p.store.file k := by
    intro k
    rw [hs, file_store, htoken]
  have hself : s.file key = some fileId := by rw [hfile, if_pos rfl]
  have hnew : ∀ k ∈ ({key} : Set String), ∀ box : FileId × Piece,
      s.file k = some box.1 → box ∉ (p.running : Set (FileId × Piece)) := by
    rintro k rfl box hbox hrunning
    exact hfresh box hrunning (Option.some.inj (hself.symm.trans hbox)).symm
  have hlive : ∀ box, box ∈ (↑(p.running ∪ boxesOf fileId) : Set (FileId × Piece)) ↔
      box ∈ (p.running : Set (FileId × Piece)) ∨ ∃ k ∈ ({key} : Set String),
        s.file k = some box.1 := by
    intro box
    rw [Finset.mem_coe, Finset.mem_union, mem_boxesOf]
    simp [hself, eq_comm]
  have hout : ∀ k, k ∉ ({key} : Set String) → s.file k = p.store.file k :=
    fun k hk => (hfile k).trans (if_neg hk)
  obtain ⟨howned, horphan⟩ := h.owned.rewrite surjective_fst hout hnew
    (fun k hk k' hk' _ _ _ => hk.trans hk'.symm) hlive
  refine ⟨⟨howned, fun k file hk => ?_⟩, fun box => (horphan box).trans (by simp)⟩
  have hvs : s.vs = p.store.vs.saveBytes P L value key fileId := by
    rw [hs, SecretsStore.store, htoken]
  rw [hfile] at hk
  rw [hvs]
  split at hk
  · obtain rfl := Option.some.inj hk
    exact ⟨_, (Dict.get?_set ..).trans (if_pos rfl)⟩
  · exact held_saveBytes (h.held k file hk) value key fileId

/-- The boxes have been started, and no entry is for them. -/
theorem Accounted.saved (h : Accounted p) {fileId : FileId} (hfresh : p.Fresh fileId)
    {key : String} {value : Bytes} {token : τ} {e : PyError}
    (htoken : hashToken token = .error e) :
    Accounted (η := η) ⟨(p.store.store P L hashToken key value token fileId).1,
        p.running ∪ boxesOf fileId⟩ ∧
      ∀ box, Orphan Prod.fst (p.store.store P L hashToken key value token fileId).1.file
          (↑(p.running ∪ boxesOf fileId) : Set (FileId × Piece)) box ↔
        Orphan Prod.fst p.store.file (p.running : Set (FileId × Piece)) box ∨
          box ∈ boxesOf fileId := by
  have hnew : ∀ box ∈ (boxesOf fileId : Set (FileId × Piece)),
      box ∉ (p.running : Set (FileId × Piece)) := fun box hbox hrunning =>
    hfresh box hrunning (mem_boxesOf.mp hbox)
  obtain ⟨howned, horphan⟩ := h.owned.start hnew
  rw [SecretsStore.store, htoken, Finset.coe_union]
  refine ⟨⟨?_, fun k file hk => held_saveBytes (h.held k file hk) value key fileId⟩, horphan⟩
  rw [Finset.coe_union]
  exact howned

/-- The entry under a key gets another file, or goes, and its old file is forgotten. -/
theorem Accounted.replace (h : Accounted p) {key : String} {fileId : FileId}
    (hkey : p.store.file key = some fileId)
    (hout : ∀ k, k ≠ key → q.store.file k = p.store.file k)
    (hfresh : ∀ new, q.store.file key = some new → p.Fresh new ∧
      ∃ held, q.store.vs.held.get? new = some held)
    (hheld : ∀ k file, p.store.file k = some file → file ≠ fileId →
      ∃ held, q.store.vs.held.get? file = some held)
    (hrunning : ∀ box, box ∈ q.running ↔
      (box ∈ p.running ∨ q.store.file key = some box.1) ∧ box.1 ≠ fileId) :
    Accounted q ∧ ∀ box, Orphan Prod.fst q.store.file (q.running : Set (FileId × Piece)) box ↔
      Orphan Prod.fst p.store.file (p.running : Set (FileId × Piece)) box := by
  have hlive : ∀ box, box ∈ (q.running : Set (FileId × Piece)) ↔
      (box ∈ (p.running : Set (FileId × Piece)) ∨ q.store.file key = some box.1) ∧
        box.1 ≠ fileId := hrunning
  obtain ⟨howned, horphan⟩ := h.owned.replace surjective_fst hkey hout
    (fun box hbox hrun => (hfresh _ hbox).1 box hrun rfl) hlive
  refine ⟨⟨howned, fun k file hk => ?_⟩, horphan⟩
  by_cases hkk : k = key
  · rw [hkk] at hk
    exact (hfresh file hk).2
  · have hold := (hout k hkk).symm.trans hk
    refine hheld k file hold ?_
    rintro rfl
    exact hkk (h.owned.distinct k key _ hold hkey)

theorem accounted_new :
    Accounted (⟨new, ∅⟩ : Process (SecretsStore FileId η) FileId) where
  owned := ⟨fun _ _ _ h => (nomatch h), fun _ _ h => nomatch h⟩
  held _ _ h := nomatch h

theorem Accounted.noOrphans_iff (h : Accounted p) : NoOrphans p ↔
    ∀ box, ¬ Orphan Prod.fst p.store.file (p.running : Set (FileId × Piece)) box := by
  rw [← h.owned.exact_iff]
  refine forall_congr' fun box => iff_congr Iff.rfl (exists_congr fun key => ?_)
  rw [file, Option.map_eq_some_iff]
  refine exists_congr fun entry => and_congr_right' ?_
  rw [mem_boxesOf, eq_comm]

variable [DecidableEq η]

theorem Accounted.rotate (h : Accounted p) {fileId : FileId} (hfresh : p.Fresh fileId)
    (key : String) (value : Bytes) (token : τ) :
    Accounted (η := η) ⟨(p.store.rotate P L hashToken key value token fileId).1,
        p.store.rotateBoxes P L hashToken key value token fileId p.running⟩ ∧
      ∀ box, Orphan Prod.fst (p.store.rotate P L hashToken key value token fileId).1.file
          (p.store.rotateBoxes P L hashToken key value token fileId p.running :
            Set (FileId × Piece)) box ↔
        Orphan Prod.fst p.store.file (p.running : Set (FileId × Piece)) box := by
  unfold SecretsStore.rotate rotateBoxes
  cases hentry : p.store.entries.get? key with
  | none => exact ⟨h, fun _ => Iff.rfl⟩
  | some entry =>
    dsimp only
    cases checkOwner hashToken token entry with
    | error e => exact ⟨h, fun _ => Iff.rfl⟩
    | ok _ =>
      have hkey := file_of_get? hentry
      obtain ⟨held, hheld⟩ := held_saveBytes (P := P) (L := L) (h.held key _ hkey) value key fileId
      have hne : fileId ≠ entry.fileId := by
        rintro rfl
        exact hfresh _ (h.owned.live key (entry.fileId, .content) hkey) rfl
      have hfile : ∀ k, SecretsStore.file (η := η)
          { p.store with
            vs := (p.store.vs.saveBytes P L value key fileId).forget entry.fileId
            entries := p.store.entries.set key { entry with fileId := fileId } } k
          = if k = key then some fileId else p.store.file k := fun k =>
        file_set p.store key { entry with fileId := fileId } k
      refine h.replace hkey (fun k hk => (hfile k).trans (if_neg hk)) ?_ ?_ ?_
      · intro new hnew
        rw [hfile, if_pos rfl] at hnew
        obtain rfl := Option.some.inj hnew
        exact ⟨hfresh, held_forget ⟨_, (Dict.get?_set ..).trans (if_pos rfl)⟩ hne⟩
      · intro k file hk hother
        exact held_forget (held_saveBytes (h.held k file hk) value key fileId) hother
      · intro box
        rw [hfile, if_pos rfl]
        dsimp only
        rw [collapses_of_held hheld, Finset.mem_sdiff, Finset.mem_union, mem_boxesOf, mem_boxesOf]
        simp [eq_comm]

theorem Accounted.revoke (h : Accounted p) (key : String) (token : τ) :
    Accounted (η := η) ⟨(p.store.revoke hashToken key token).1,
        p.store.revokeBoxes hashToken key token p.running⟩ ∧
      ∀ box, Orphan Prod.fst (p.store.revoke hashToken key token).1.file
          (p.store.revokeBoxes hashToken key token p.running : Set (FileId × Piece)) box ↔
        Orphan Prod.fst p.store.file (p.running : Set (FileId × Piece)) box := by
  unfold SecretsStore.revoke revokeBoxes
  cases hentry : p.store.entries.get? key with
  | none => exact ⟨h, fun _ => Iff.rfl⟩
  | some entry =>
    dsimp only
    cases checkOwner hashToken token entry with
    | error e => exact ⟨h, fun _ => Iff.rfl⟩
    | ok _ =>
      have hkey := file_of_get? hentry
      obtain ⟨held, hheld⟩ := h.held key _ hkey
      -- the grants do not matter
      have hrevoked : ∀ shared : Dict String (Finset η),
          Accounted ⟨⟨p.store.vs.forget entry.fileId, p.store.entries.erase key, shared⟩,
            p.running \ p.store.vs.collapses entry.fileId⟩ ∧
          ∀ box, Orphan Prod.fst (SecretsStore.file
              ⟨p.store.vs.forget entry.fileId, p.store.entries.erase key, shared⟩)
              (↑(p.running \ p.store.vs.collapses entry.fileId) : Set (FileId × Piece)) box ↔
            Orphan Prod.fst p.store.file (p.running : Set (FileId × Piece)) box := by
        intro shared
        have hfile : ∀ k, SecretsStore.file
            ⟨p.store.vs.forget entry.fileId, p.store.entries.erase key, shared⟩ k
            = if k = key then none else p.store.file k := by
          intro k
          rw [file, Dict.get?_erase]
          split
          · rfl
          · rfl
        refine h.replace hkey (fun k hk => (hfile k).trans (if_neg hk)) ?_ ?_ ?_
        · intro new hnew
          rw [hfile, if_pos rfl] at hnew
          cases hnew
        · intro k file hk hother
          exact held_forget (h.held k file hk) hother
        · intro box
          rw [hfile, if_pos rfl]
          dsimp only
          rw [collapses_of_held hheld, Finset.mem_sdiff, mem_boxesOf]
          simp
      cases p.store.sharedWith.get? key with
      | none => exact hrevoked _
      | some _ => exact hrevoked _

omit [DecidableEq FileId] in
/-- Sharing changes no entry. -/
theorem file_share (s : SecretsStore FileId η) (key : String) (owner grantee : τ) :
    (s.share hashToken key owner grantee).1.file = s.file ∧
      (s.share hashToken key owner grantee).1.vs = s.vs := by
  unfold SecretsStore.share
  cases s.entries.get? key with
  | none => exact ⟨rfl, rfl⟩
  | some entry =>
    dsimp only
    cases checkOwner hashToken owner entry with
    | error e => exact ⟨rfl, rfl⟩
    | ok _ =>
      dsimp only
      cases s.sharedWith.get? key with
      | none => exact ⟨rfl, rfl⟩
      | some hashes =>
        dsimp only
        cases hashToken grantee with
        | error e => exact ⟨rfl, rfl⟩
        | ok hash => exact ⟨rfl, rfl⟩

/-- **Calls.**  What runs without an entry after a call did so before it, or has been lost in
a store. -/
theorem Accounted.step (h : Accounted p) {event : Event FileId τ}
    (hstep : Mutates P L hashToken p event q) :
    Accounted q ∧ ∀ box, Orphan Prod.fst q.store.file (q.running : Set (FileId × Piece)) box ↔
      Orphan Prod.fst p.store.file (p.running : Set (FileId × Piece)) box ∨
        Lost hashToken p q event box := by
  cases hstep with
  | @store key value token fileId hfresh =>
    cases htoken : hashToken token with
    | ok hash =>
      obtain ⟨hq, horphan⟩ := h.enter hfresh htoken
      exact ⟨hq, fun box => (horphan box).trans (or_congr Iff.rfl (lost_of_ok htoken box).symm)⟩
    | error e =>
      obtain ⟨hq, horphan⟩ := h.saved hfresh htoken
      refine ⟨hq, fun box => (horphan box).trans (or_congr Iff.rfl ?_)⟩
      rw [lost_of_error htoken, Finset.mem_union, mem_boxesOf]
      exact ⟨fun hbox => ⟨Or.inr hbox, fun hrunning => hfresh box hrunning hbox⟩,
        fun ⟨hbox, hnot⟩ => hbox.resolve_left hnot⟩
  | @share key owner grantee =>
    have hfile := @file_share _ _ _ hashToken _ p.store key owner grantee
    rw [hfile.1]
    refine ⟨⟨?_, ?_⟩, fun box => (or_iff_left id).symm⟩
    · rw [hfile.1]
      exact h.owned
    · rw [hfile.1, hfile.2]
      exact h.held
  | @rotate key value token fileId hfresh =>
    exact ⟨(h.rotate hfresh key value token).1, fun box =>
      ((h.rotate hfresh key value token).2 box).trans (or_iff_left id).symm⟩
  | @revoke key token =>
    exact ⟨(h.revoke key token).1, fun box =>
      ((h.revoke key token).2 box).trans (or_iff_left id).symm⟩

/-- A call loses nothing exactly when it is clean. -/
theorem clean_iff {event : Event FileId τ} (hstep : Mutates P L hashToken p event q) :
    Clean hashToken p event ↔ ∀ box, ¬ Lost hashToken p q event box := by
  cases hstep with
  | @store key value token fileId hfresh =>
    cases htoken : hashToken token with
    | ok hash =>
      simp only [lost_of_ok htoken, Clean, htoken, file]
      cases p.store.entries.get? key with
      | none => simp
      | some entry =>
        exact iff_of_false (fun h => Option.some_ne_none _ h.1) fun h =>
          h (entry.fileId, .content) rfl
    | error e =>
      -- the boxes of the file that has been saved
      simp only [lost_of_error htoken, Clean, htoken]
      have hraises : ¬ ∃ hash, (.error e : Except PyError η) = .ok hash := by
        rintro ⟨hash, hhash⟩
        cases hhash
      refine iff_of_false (fun hclean => hraises hclean.2) fun h => ?_
      refine h (fileId, .content) ⟨?_, fun hrunning => hfresh _ hrunning rfl⟩
      exact Finset.mem_union_right _ (mem_boxesOf.mpr rfl)
  | share => exact ⟨fun _ _ => id, fun _ => trivial⟩
  | rotate => exact ⟨fun _ _ => id, fun _ => trivial⟩
  | revoke => exact ⟨fun _ _ => id, fun _ => trivial⟩

/-- **Runs of one store.** -/
theorem noOrphans_run_iff {events : List (Event FileId τ)} :
    Run (Guarded (Mutates P L hashToken) (Clean hashToken)) ⟨new, ∅⟩ events p ↔
      Run (fun p event q => Mutates P L hashToken p event q ∧ NoOrphans q) ⟨new, ∅⟩ events p := by
  refine Run.guarded_iff accounted_new (accounted_new.noOrphans_iff.mpr fun box h => nomatch h.1)
    (fun h hstep => (h.step hstep).1) fun {p event q} h hnone hstep => ?_
  obtain ⟨hq, horphan⟩ := h.step hstep
  rw [hq.noOrphans_iff, clean_iff hstep]
  refine forall_congr' fun box => not_congr ?_
  rw [horphan]
  exact (or_iff_right (h.noOrphans_iff.mp hnone box)).symm

end SecretsStore

/-! ### Several stores -/

namespace ReplicatedSecretsStore

open SecretsStore (file_of_get?)

variable {FileId τ η : Type*}

/-- The file of the current entry under a key of a replica that is alive. -/
def file (s : ReplicatedSecretsStore FileId η) (slot : ℕ × String) : Option FileId :=
  (s.replicas[slot.1]?.join).bind fun replica => replica.file slot.2

theorem file_eq_some {s : ReplicatedSecretsStore FileId η} {i : ℕ} {key : String}
    {fileId : FileId} : s.file (i, key) = some fileId ↔
      ∃ replica, s.replicas[i]? = some (some replica) ∧ replica.file key = some fileId := by
  rw [file, Option.bind_eq_some_iff]
  simp only [Option.join_eq_some_iff]

/-- The call does not store under a key that is taken in a replica, nor with a token that
cannot be encoded as long as there is a replica, nor kill a replica that holds a secret. -/
def Clean (hashToken : τ → Except PyError η)
    (p : Process (ReplicatedSecretsStore FileId η) FileId) : Event FileId τ → Prop
  | .store key _ token => ∀ (i : ℕ) (replica : SecretsStore FileId η),
      p.store.replicas[i]? = some (some replica) →
      replica.entries.get? key = none ∧ ∃ hash, hashToken token = .ok hash
  | .kill index => ∀ (i : ℕ) (replica : SecretsStore FileId η),
      pyPosition p.store.alive.length index = some i →
      p.store.replicas[i]? = some (some replica) → ∀ key, replica.entries.get? key = none
  | _ => True

/-- No two entries of any replicas have one file, and the boxes of their files run. -/
def Accounted (p : Process (ReplicatedSecretsStore FileId η) FileId) : Prop :=
  Owned Prod.fst p.store.file (p.running : Set (FileId × Piece))

/-- What a call leaves running without an entry. -/
def Lost (hashToken : τ → Except PyError η)
    (p q : Process (ReplicatedSecretsStore FileId η) FileId) :
    Event FileId τ → FileId × Piece → Prop
  | .store key _ token, box =>
    match hashToken token with
    | .ok _ => ∃ i, p.store.file (i, key) = some box.1
    | .error _ => box ∈ q.running ∧ box ∉ p.running
  | .kill index, box => ∃ i key, pyPosition p.store.alive.length index = some i ∧
      p.store.file (i, key) = some box.1
  | _, _ => False

section Lost

variable {hashToken : τ → Except PyError η}
  {p q : Process (ReplicatedSecretsStore FileId η) FileId} {key : String} {value : Bytes}
  {token : τ}

theorem lost_of_ok {hash : η} (htoken : hashToken token = .ok hash) (box : FileId × Piece) :
    Lost hashToken p q (.store key value token) box ↔ ∃ i, p.store.file (i, key) = some box.1 := by
  rw [Lost, htoken]

theorem lost_of_error {e : PyError} (htoken : hashToken token = .error e)
    (box : FileId × Piece) :
    Lost hashToken p q (.store key value token) box ↔ box ∈ q.running ∧ box ∉ p.running := by
  rw [Lost, htoken]

end Lost

theorem accounted_new (replicaCount : ℕ) :
    Accounted (⟨new replicaCount, ∅⟩ : Process (ReplicatedSecretsStore FileId η) FileId) := by
  have hnone : ∀ slot, (new replicaCount : ReplicatedSecretsStore FileId η).file slot = none := by
    rintro ⟨i, key⟩
    by_contra hsome
    obtain ⟨fileId, hfile⟩ := Option.ne_none_iff_exists'.mp hsome
    obtain ⟨replica, hreplica, hkey⟩ := file_eq_some.mp hfile
    obtain ⟨-, heq⟩ := List.mem_replicate.mp (List.mem_of_getElem? hreplica)
    rw [Option.some.inj heq] at hkey
    exact nomatch hkey
  exact ⟨fun i _ _ h => (nomatch (hnone i).symm.trans h),
    fun i _ h => nomatch (hnone i).symm.trans h⟩

/-- The first replica that is there is alive. -/
theorem alive_of_first {s : ReplicatedSecretsStore FileId η} {i : ℕ}
    (hi : s.replicas.findIdx? Option.isSome = some i) : s.alive[i]? = some true := by
  obtain ⟨hlt, hsome, -⟩ := List.findIdx?_eq_some_iff_getElem.mp hi
  rw [s.alive_eq, List.getElem?_map, List.getElem?_eq_getElem hlt, Option.map_some, hsome]

/-- What is left after a kill. -/
theorem Accounted.kill {p : Process (ReplicatedSecretsStore FileId η) FileId} (h : Accounted p)
    (index : ℤ) :
    Accounted ⟨(p.store.killReplica index).1, p.running⟩ ∧
      ∀ box, Orphan Prod.fst (p.store.killReplica index).1.file
          (p.running : Set (FileId × Piece)) box ↔
        Orphan Prod.fst p.store.file (p.running : Set (FileId × Piece)) box ∨
          ∃ i key, pyPosition p.store.alive.length index = some i ∧
            p.store.file (i, key) = some box.1 := by
  unfold killReplica
  cases hindex : pyPosition p.store.alive.length index with
  | none => exact ⟨h, fun box => by simp⟩
  | some n =>
    dsimp only
    set s : ReplicatedSecretsStore FileId η :=
      ⟨p.store.replicas.set n none, p.store.alive.set n false, _⟩ with hs
    have hother : ∀ slot : ℕ × String, slot ∉ {slot : ℕ × String | slot.1 = n} →
        s.file slot = p.store.file slot := by
      rintro ⟨i, k⟩ (hi : i ≠ n)
      rw [file, file, hs, List.getElem?_set_ne (Ne.symm hi)]
    have hself : ∀ slot ∈ {slot : ℕ × String | slot.1 = n}, s.file slot = none := by
      rintro ⟨i, key⟩ (rfl : i = n)
      by_contra hsome
      obtain ⟨fileId, hfile⟩ := Option.ne_none_iff_exists'.mp hsome
      obtain ⟨replica, hreplica, -⟩ := file_eq_some.mp hfile
      rw [hs, List.getElem?_set] at hreplica
      simp at hreplica
    -- no slot is written, and the boxes are as they were
    have hlive : ∀ box, box ∈ (p.running : Set (FileId × Piece)) ↔
        box ∈ (p.running : Set (FileId × Piece)) ∨
          ∃ slot ∈ {slot : ℕ × String | slot.1 = n}, s.file slot = some box.1 := by
      intro box
      refine ⟨Or.inl, fun hbox => hbox.resolve_right ?_⟩
      rintro ⟨slot, hslot, hfile⟩
      exact nomatch (hself slot hslot).symm.trans hfile
    obtain ⟨howned, horphan⟩ := h.rewrite surjective_fst hother
      (fun slot hslot _ hfile => nomatch (hself slot hslot).symm.trans hfile)
      (fun slot hslot _ _ _ hfile _ => nomatch (hself slot hslot).symm.trans hfile) hlive
    refine ⟨howned, fun box => (horphan box).trans (or_congr Iff.rfl ?_)⟩
    constructor
    · rintro ⟨⟨i, key⟩, (rfl : i = n), hi⟩
      exact ⟨i, key, rfl, hi⟩
    · rintro ⟨i, key, hi, hfile⟩
      exact ⟨(i, key), (Option.some.inj hi).symm, hfile⟩

variable [DecidableEq FileId]

/-- The boxes that a write starts: in every replica that is alive, or, when it raises, in the
first of them. -/
def storeBoxes (hashToken : τ → Except PyError η) (token : τ) (fileIds : ℕ → FileId)
    (s : ReplicatedSecretsStore FileId η) : Finset (FileId × Piece) :=
  match hashToken token with
  | .ok _ => ((Finset.range s.alive.length).filter fun i => s.alive[i]? = some true).biUnion
      fun i => boxesOf (fileIds i)
  | .error _ =>
    match s.replicas.findIdx? Option.isSome with
    | none => ∅
    | some i => boxesOf (fileIds i)

section Boxes

variable (P : Primitives) (L : Libraries) (hashToken : τ → Except PyError η)

/-- A write, or a kill, which collapses no box. -/
inductive Mutates : Process (ReplicatedSecretsStore FileId η) FileId → Event FileId τ →
    Process (ReplicatedSecretsStore FileId η) FileId → Prop
  | store {p : Process (ReplicatedSecretsStore FileId η) FileId} {key : String} {value : Bytes}
      {token : τ} {fileIds : ℕ → FileId} :
      (∀ i, p.store.alive[i]? = some true → p.Fresh (fileIds i)) →
      (∀ i j, p.store.alive[i]? = some true → p.store.alive[j]? = some true →
        fileIds i = fileIds j → i = j) →
      Mutates p (.store key value token)
        ⟨(p.store.store P L hashToken key value token fileIds).1,
          p.running ∪ p.store.storeBoxes hashToken token fileIds⟩
  | kill {p : Process (ReplicatedSecretsStore FileId η) FileId} {index : ℤ} :
      Mutates p (.kill index) ⟨(p.store.killReplica index).1, p.running⟩

end Boxes

/-- The boxes that run are the three boxes of each current entry of a replica that is alive. -/
def NoOrphans (p : Process (ReplicatedSecretsStore FileId η) FileId) : Prop :=
  ∀ box, box ∈ p.running ↔
    ∃ (i : ℕ) (replica : SecretsStore FileId η) (key : String) (entry : Entry FileId η),
      p.store.alive[i]? = some true ∧ p.store.replicas[i]? = some (some replica) ∧
      replica.entries.get? key = some entry ∧ box ∈ boxesOf entry.fileId

variable {P : Primitives} {L : Libraries} {hashToken : τ → Except PyError η}
  {p q : Process (ReplicatedSecretsStore FileId η) FileId}

theorem mem_storeBoxes {token : τ} {hash : η} (htoken : hashToken token = .ok hash)
    {fileIds : ℕ → FileId} {s : ReplicatedSecretsStore FileId η} {box : FileId × Piece} :
    box ∈ s.storeBoxes hashToken token fileIds ↔
      ∃ i, s.alive[i]? = some true ∧ fileIds i = box.1 := by
  simp only [storeBoxes, htoken, Finset.mem_biUnion, Finset.mem_filter, Finset.mem_range,
    mem_boxesOf]
  refine exists_congr fun i => ⟨fun ⟨⟨_, hi⟩, heq⟩ => ⟨hi, heq.symm⟩, fun ⟨hi, heq⟩ => ?_⟩
  exact ⟨⟨(List.getElem?_eq_some_iff.mp hi).1, hi⟩, heq.symm⟩

theorem Accounted.noOrphans_iff (h : Accounted p) : NoOrphans p ↔
    ∀ box, ¬ Orphan Prod.fst p.store.file (p.running : Set (FileId × Piece)) box := by
  rw [← h.exact_iff]
  refine forall_congr' fun box => iff_congr Iff.rfl ?_
  constructor
  · rintro ⟨i, replica, key, entry, -, hreplica, hentry, hbox⟩
    rw [mem_boxesOf] at hbox
    exact ⟨(i, key), file_eq_some.mpr ⟨replica, hreplica, hbox ▸ file_of_get? hentry⟩⟩
  · rintro ⟨⟨i, key⟩, hfile⟩
    obtain ⟨replica, hreplica, hkey⟩ := file_eq_some.mp hfile
    obtain ⟨entry, hentry, heq⟩ := Option.map_eq_some_iff.mp hkey
    exact ⟨i, replica, key, entry, (p.store.alive_iff i).mpr ⟨replica, hreplica⟩, hreplica, hentry,
      mem_boxesOf.mpr heq.symm⟩

theorem file_store {token : τ} {hash : η} (htoken : hashToken token = .ok hash)
    {fileIds : ℕ → FileId} (s : ReplicatedSecretsStore FileId η) (key : String) (value : Bytes)
    (i : ℕ) (k : String) :
    (s.store P L hashToken key value token fileIds).1.file (i, k) =
      s.replicas[i]?.join.bind fun replica =>
        if k = key then some (fileIds i) else replica.file k := by
  rw [file, replicas_store_ok htoken]
  dsimp only
  rw [List.getElem?_mapIdx]
  cases hi : s.replicas[i]? with
  | none => rfl
  | some r =>
    cases r with
    | none => rfl
    | some replica =>
      have hfile := SecretsStore.file_store P L hashToken replica key value token (fileIds i) k
      rw [htoken] at hfile
      exact hfile

/-- A write that raises has changed no entry. -/
theorem file_store_of_error {token : τ} {e : PyError} (htoken : hashToken token = .error e)
    {fileIds : ℕ → FileId} (s : ReplicatedSecretsStore FileId η) (key : String) (value : Bytes) :
    (s.store P L hashToken key value token fileIds).1.file = s.file := by
  funext slot
  rw [file, file, replicas_store_error htoken]
  cases s.replicas.findIdx? Option.isSome with
  | none => rfl
  | some j =>
    dsimp only
    rw [List.getElem?_modify]
    cases s.replicas[slot.1]? with
    | none => rfl
    | some r =>
      rw [Option.map_eq_map, Option.map_some]
      split
      · cases r with
        | none => rfl
        | some replica =>
          have hfile := SecretsStore.file_store P L hashToken replica key value token (fileIds j)
            slot.2
          rw [htoken] at hfile
          exact hfile
      · rfl

/-- The key gets a new file in every replica, and the boxes of its old ones are lost. -/
theorem Accounted.enter (h : Accounted p) {fileIds : ℕ → FileId}
    (hfresh : ∀ i, p.store.alive[i]? = some true → p.Fresh (fileIds i))
    (hinj : ∀ i j, p.store.alive[i]? = some true → p.store.alive[j]? = some true →
      fileIds i = fileIds j → i = j) {key : String} {value : Bytes} {token : τ} {hash : η}
    (htoken : hashToken token = .ok hash) :
    Accounted ⟨(p.store.store P L hashToken key value token fileIds).1,
        p.running ∪ p.store.storeBoxes hashToken token fileIds⟩ ∧
      ∀ box, Orphan Prod.fst (p.store.store P L hashToken key value token fileIds).1.file
          (↑(p.running ∪ p.store.storeBoxes hashToken token fileIds) : Set (FileId × Piece)) box ↔
        Orphan Prod.fst p.store.file (p.running : Set (FileId × Piece)) box ∨
          ∃ i, p.store.file (i, key) = some box.1 := by
  set s := (p.store.store P L hashToken key value token fileIds).1 with hs
  have hother : ∀ slot : ℕ × String, slot ∉ {slot : ℕ × String | slot.2 = key} →
      s.file slot = p.store.file slot := by
    rintro ⟨i, k⟩ (hk : k ≠ key)
    rw [hs, file_store htoken, file]
    cases p.store.replicas[i]?.join with
    | none => rfl
    | some replica => exact if_neg hk
  have hself : ∀ i fileId, s.file (i, key) = some fileId ↔
      p.store.alive[i]? = some true ∧ fileIds i = fileId := by
    intro i fileId
    rw [hs, file_store htoken, alive_iff]
    constructor
    · intro h
      obtain ⟨replica, hreplica, hfile⟩ := Option.bind_eq_some_iff.mp h
      rw [if_pos rfl] at hfile
      exact ⟨⟨replica, Option.join_eq_some_iff.mp hreplica⟩, Option.some.inj hfile⟩
    · rintro ⟨⟨replica, hreplica⟩, rfl⟩
      rw [hreplica]
      exact if_pos rfl
  have hnew : ∀ slot ∈ {slot : ℕ × String | slot.2 = key}, ∀ box : FileId × Piece,
      s.file slot = some box.1 → box ∉ (p.running : Set (FileId × Piece)) := by
    rintro ⟨i, k⟩ (rfl : k = key) box hbox hrunning
    obtain ⟨halive, heq⟩ := (hself i box.1).mp hbox
    exact hfresh i halive box hrunning heq.symm
  have hapart : ∀ slot ∈ {slot : ℕ × String | slot.2 = key},
      ∀ slot' ∈ {slot : ℕ × String | slot.2 = key}, ∀ fileId,
      s.file slot = some fileId → s.file slot' = some fileId → slot = slot' := by
    rintro ⟨i, k⟩ (rfl : k = key) ⟨j, k'⟩ (rfl : k' = k) fileId hi hj
    obtain ⟨hialive, rfl⟩ := (hself i fileId).mp hi
    obtain ⟨hjalive, heq⟩ := (hself j _).mp hj
    rw [hinj i j hialive hjalive heq.symm]
  have hlive : ∀ box, box ∈ (↑(p.running ∪ p.store.storeBoxes hashToken token fileIds) :
        Set (FileId × Piece)) ↔
      box ∈ (p.running : Set (FileId × Piece)) ∨
        ∃ slot ∈ {slot : ℕ × String | slot.2 = key}, s.file slot = some box.1 := by
    intro box
    rw [Finset.mem_coe, Finset.mem_union, mem_storeBoxes htoken]
    refine or_congr Iff.rfl ⟨fun ⟨i, hi⟩ => ⟨(i, key), rfl, (hself i box.1).mpr hi⟩, ?_⟩
    rintro ⟨⟨i, k⟩, (rfl : k = key), hi⟩
    exact ⟨i, (hself i box.1).mp hi⟩
  obtain ⟨howned, horphan⟩ := h.rewrite surjective_fst hother hnew hapart hlive
  refine ⟨howned, fun box => (horphan box).trans (or_congr Iff.rfl ?_)⟩
  constructor
  · rintro ⟨⟨i, k⟩, (rfl : k = key), hi⟩
    exact ⟨i, hi⟩
  · rintro ⟨i, hi⟩
    exact ⟨(i, key), rfl, hi⟩

/-- The boxes that a write starts before it raises are new. -/
theorem fresh_storeBoxes {fileIds : ℕ → FileId}
    (hfresh : ∀ i, p.store.alive[i]? = some true → p.Fresh (fileIds i)) {token : τ} {e : PyError}
    (htoken : hashToken token = .error e) :
    ∀ box ∈ p.store.storeBoxes hashToken token fileIds, box ∉ p.running := by
  intro box hbox hrunning
  rw [storeBoxes, htoken] at hbox
  dsimp only at hbox
  cases hfirst : p.store.replicas.findIdx? Option.isSome with
  | none =>
    rw [hfirst] at hbox
    exact absurd hbox (Finset.notMem_empty _)
  | some i =>
    rw [hfirst] at hbox
    exact hfresh i (alive_of_first hfirst) box hrunning (mem_boxesOf.mp hbox)

/-- A write that raises starts nothing only if there is no replica. -/
theorem storeBoxes_eq_empty {s : ReplicatedSecretsStore FileId η} {fileIds : ℕ → FileId}
    {token : τ} {e : PyError} (htoken : hashToken token = .error e) :
    s.storeBoxes hashToken token fileIds = ∅ ↔
      ∀ (i : ℕ) (replica : SecretsStore FileId η), s.replicas[i]? ≠ some (some replica) := by
  rw [storeBoxes, htoken]
  dsimp only
  cases hfirst : s.replicas.findIdx? Option.isSome with
  | none =>
    refine iff_of_true rfl fun i replica hreplica => ?_
    have hdead := List.findIdx?_eq_none_iff.mp hfirst _ (List.mem_of_getElem? hreplica)
    exact Bool.false_ne_true hdead.symm
  | some i =>
    obtain ⟨replica, hreplica⟩ := (s.alive_iff i).mp (alive_of_first hfirst)
    refine iff_of_false (fun hempty => ?_) fun hnone => hnone i replica hreplica
    exact Finset.eq_empty_iff_forall_notMem.mp hempty (fileIds i, .content) (mem_boxesOf.mpr rfl)

/-- What a write that raises loses is what it has started. -/
theorem lost_iff_started {fileIds : ℕ → FileId}
    (hfresh : ∀ i, p.store.alive[i]? = some true → p.Fresh (fileIds i)) {key : String}
    {value : Bytes} {token : τ} {e : PyError} (htoken : hashToken token = .error e)
    {store : ReplicatedSecretsStore FileId η} (box : FileId × Piece) :
    Lost hashToken p ⟨store, p.running ∪ p.store.storeBoxes hashToken token fileIds⟩
      (.store key value token) box ↔ box ∈ p.store.storeBoxes hashToken token fileIds := by
  rw [lost_of_error htoken, Finset.mem_union]
  constructor
  · rintro ⟨hbox, hnot⟩
    exact hbox.resolve_left hnot
  · intro hbox
    exact ⟨Or.inr hbox, fresh_storeBoxes hfresh htoken box hbox⟩

/-- The boxes have been started, and no entry is for them. -/
theorem Accounted.saved (h : Accounted p) {fileIds : ℕ → FileId}
    (hfresh : ∀ i, p.store.alive[i]? = some true → p.Fresh (fileIds i)) {key : String}
    {value : Bytes} {token : τ} {e : PyError} (htoken : hashToken token = .error e) :
    Accounted ⟨(p.store.store P L hashToken key value token fileIds).1,
        p.running ∪ p.store.storeBoxes hashToken token fileIds⟩ ∧
      ∀ box, Orphan Prod.fst (p.store.store P L hashToken key value token fileIds).1.file
          (↑(p.running ∪ p.store.storeBoxes hashToken token fileIds) : Set (FileId × Piece)) box ↔
        Orphan Prod.fst p.store.file (p.running : Set (FileId × Piece)) box ∨
          box ∈ p.store.storeBoxes hashToken token fileIds := by
  rw [Accounted, file_store_of_error htoken, Finset.coe_union]
  exact Owned.start h (fresh_storeBoxes hfresh htoken)

/-- **Calls.**  What runs without an entry after a call did so before it, or has been lost in
a write or with its replica. -/
theorem Accounted.step (h : Accounted p) {event : Event FileId τ}
    (hstep : Mutates P L hashToken p event q) :
    Accounted q ∧ ∀ box, Orphan Prod.fst q.store.file (q.running : Set (FileId × Piece)) box ↔
      Orphan Prod.fst p.store.file (p.running : Set (FileId × Piece)) box ∨
        Lost hashToken p q event box := by
  cases hstep with
  | @store key value token fileIds hfresh hinj =>
    cases htoken : hashToken token with
    | ok hash =>
      obtain ⟨hq, horphan⟩ := h.enter hfresh hinj htoken
      exact ⟨hq, fun box => (horphan box).trans (or_congr Iff.rfl (lost_of_ok htoken box).symm)⟩
    | error e =>
      obtain ⟨hq, horphan⟩ := h.saved hfresh htoken
      exact ⟨hq, fun box =>
        (horphan box).trans (or_congr Iff.rfl (lost_iff_started hfresh htoken box).symm)⟩
  | kill => exact h.kill _

/-- A call loses nothing exactly when it is clean. -/
theorem clean_iff {event : Event FileId τ} (hstep : Mutates P L hashToken p event q) :
    Clean hashToken p event ↔ ∀ box, ¬ Lost hashToken p q event box := by
  -- an entry that is there has a box
  have hentry : ∀ {replica : SecretsStore FileId η} {key : String},
      replica.entries.get? key = none ↔ ∀ box : FileId × Piece, replica.file key ≠ some box.1 := by
    intro replica key
    rw [SecretsStore.file]
    cases replica.entries.get? key with
    | none => simp
    | some entry =>
      exact iff_of_false (Option.some_ne_none _) fun h => h (entry.fileId, .content) rfl
  cases hstep with
  | @store key value token fileIds hfresh hinj =>
    cases htoken : hashToken token with
    | ok hash =>
      simp only [lost_of_ok htoken, Clean, htoken]
      constructor
      · rintro hclean box ⟨i, hi⟩
        obtain ⟨replica, hreplica, hfile⟩ := file_eq_some.mp hi
        exact hentry.mp (hclean i replica hreplica).1 box hfile
      · intro hlost i replica hreplica
        refine ⟨hentry.mpr fun box hbox => hlost box ⟨i, ?_⟩, hash, rfl⟩
        exact file_eq_some.mpr ⟨replica, hreplica, hbox⟩
    | error e =>
      -- a box has been started in the first replica, if there is one
      simp only [lost_iff_started hfresh htoken]
      rw [← Finset.eq_empty_iff_forall_notMem, storeBoxes_eq_empty htoken]
      simp only [Clean, htoken]
      refine forall_congr' fun i => forall_congr' fun replica => ⟨fun hclean hreplica => ?_,
        fun habsent hreplica => absurd hreplica habsent⟩
      obtain ⟨-, hash, hhash⟩ := hclean hreplica
      cases hhash
  | @kill index =>
    constructor
    · rintro hclean box ⟨i, key, hindex, hi⟩
      obtain ⟨replica, hreplica, hfile⟩ := file_eq_some.mp hi
      exact hentry.mp (hclean i replica hindex hreplica key) box hfile
    · intro hlost i replica hindex hreplica key
      refine hentry.mpr fun box hbox => hlost box ⟨i, key, hindex, ?_⟩
      exact file_eq_some.mpr ⟨replica, hreplica, hbox⟩

/-- **Runs of several stores.** -/
theorem noOrphans_run_iff {replicaCount : ℕ} {events : List (Event FileId τ)} :
    Run (Guarded (Mutates P L hashToken) (Clean hashToken)) ⟨new replicaCount, ∅⟩ events p ↔
      Run (fun p event q => Mutates P L hashToken p event q ∧ NoOrphans q)
        ⟨new replicaCount, ∅⟩ events p := by
  have hnew : Accounted
      (⟨new replicaCount, ∅⟩ : Process (ReplicatedSecretsStore FileId η) FileId) :=
    accounted_new replicaCount
  refine Run.guarded_iff hnew (hnew.noOrphans_iff.mpr fun box h => nomatch h.1)
    (fun h hstep => (h.step hstep).1) fun {p event q} h hnone hstep => ?_
  obtain ⟨hq, horphan⟩ := h.step hstep
  rw [hq.noOrphans_iff, clean_iff hstep]
  refine forall_congr' fun box => not_congr ?_
  rw [horphan]
  exact (or_iff_right (h.noOrphans_iff.mp hnone box)).symm

end ReplicatedSecretsStore

/-! ### Both -/

section Runs

variable {FileId τ η : Type*} [DecidableEq FileId] [DecidableEq η]

/-- **No orphans.**  After every call of a run of a single store, or of several, the boxes that
run are the three boxes of each current entry of a store that is alive, if and only if every
call of the run is clean. -/
theorem orphans_iff (P : Primitives) (L : Libraries) (hashToken : τ → Except PyError η) :
    (∀ (events : List (SecretsStore.Event FileId τ)) (p : Process (SecretsStore FileId η) FileId),
      Run (fun p event q => SecretsStore.Mutates P L hashToken p event q ∧
          SecretsStore.NoOrphans q) ⟨.new, ∅⟩ events p ↔
        Run (Guarded (SecretsStore.Mutates P L hashToken) (SecretsStore.Clean hashToken))
          ⟨.new, ∅⟩ events p) ∧
    ∀ (replicaCount : ℕ) (events : List (ReplicatedSecretsStore.Event FileId τ))
      (p : Process (ReplicatedSecretsStore FileId η) FileId),
      Run (fun p event q => ReplicatedSecretsStore.Mutates P L hashToken p event q ∧
          ReplicatedSecretsStore.NoOrphans q) ⟨.new replicaCount, ∅⟩ events p ↔
        Run (Guarded (ReplicatedSecretsStore.Mutates P L hashToken)
          (ReplicatedSecretsStore.Clean hashToken)) ⟨.new replicaCount, ∅⟩ events p :=
  ⟨fun _ _ => SecretsStore.noOrphans_run_iff.symm,
    fun _ _ _ => ReplicatedSecretsStore.noOrphans_run_iff.symm⟩

/-- The boxes of a value that has been stored over, those of a value whose token cannot be
encoded (here the token `none`), and those of a replica that has been killed. -/
theorem orphaned_secrets :
    (∃ p : Process (SecretsStore ℕ String) ℕ,
      Run (SecretsStore.Mutates Primitives.sample Libraries.sample (SecretsStore.hashing id))
        ⟨.new, ∅⟩ [.store "db.pdf" [7] "alice", .store "db.pdf" [8] "alice"] p ∧
      ¬ SecretsStore.NoOrphans p) ∧
    (∃ p : Process (SecretsStore ℕ String) ℕ,
      Run (SecretsStore.Mutates Primitives.sample Libraries.sample
        fun token : Option String => token.elim (.error .valueError) .ok) ⟨.new, ∅⟩
        [.store "db.pdf" [7] none] p ∧
      ¬ SecretsStore.NoOrphans p) ∧
    ∃ p : Process (ReplicatedSecretsStore ℕ String) ℕ,
      Run (ReplicatedSecretsStore.Mutates Primitives.sample Libraries.sample
        (SecretsStore.hashing id)) ⟨.new 2, ∅⟩ [.store "db.pdf" [7] "alice", .kill 0] p ∧
      ¬ ReplicatedSecretsStore.NoOrphans p := by
  have hfirst : (⟨.new, ∅⟩ : Process (SecretsStore ℕ String) ℕ).Fresh 0 :=
    fun _ hbox => (nomatch hbox)
  refine ⟨?_, ?_, ?_⟩
  · have hsecond : Process.Fresh (⟨(SecretsStore.new.store Primitives.sample Libraries.sample
        (SecretsStore.hashing id) "db.pdf" [7] "alice" 0).1, ∅ ∪ boxesOf 0⟩ :
        Process (SecretsStore ℕ String) ℕ) 1 := by
      intro box hbox
      rw [Finset.empty_union, mem_boxesOf] at hbox
      rw [hbox]
      exact Nat.zero_ne_one
    refine ⟨_, (Run.single (.store hfirst)).snoc (.store hsecond), fun hnone => ?_⟩
    obtain ⟨key, entry, hentry, hbox⟩ := (hnone (0, .content)).mp (by decide)
    have hget := SecretsStore.file_of_get? hentry
    -- whatever the key, its file is not the first one
    rw [SecretsStore.file_store, SecretsStore.file_store, ← mem_boxesOf.mp hbox] at hget
    dsimp only [SecretsStore.hashing] at hget
    split at hget
    · exact nomatch hget
    · exact nomatch hget
  · refine ⟨_, Run.single (.store hfirst), fun hnone => ?_⟩
    obtain ⟨key, entry, hentry, -⟩ := (hnone (0, .content)).mp (by decide)
    exact nomatch hentry
  · have hhash : SecretsStore.hashing (id : String → String) "alice" = .ok "alice" := rfl
    have hfresh : ∀ i, (ReplicatedSecretsStore.new 2 : ReplicatedSecretsStore ℕ String).alive[i]?
        = some true → (⟨.new 2, ∅⟩ : Process (ReplicatedSecretsStore ℕ String) ℕ).Fresh i :=
      fun _ _ _ hbox => (nomatch hbox)
    refine ⟨_, (Run.single (.store hfresh fun _ _ _ _ => id)).snoc .kill, fun hnone => ?_⟩
    obtain ⟨i, replica, key, entry, halive, hreplica, hentry, hbox⟩ :=
      (hnone (0, .content)).mp (by decide)
    have hfile := ReplicatedSecretsStore.file_eq_some.mpr
      ⟨replica, ReplicatedSecretsStore.replica_killReplica hreplica,
        SecretsStore.file_of_get? hentry⟩
    rw [ReplicatedSecretsStore.file_store hhash, ← mem_boxesOf.mp hbox] at hfile
    obtain ⟨old, hold, hkey⟩ := Option.bind_eq_some_iff.mp hfile
    split at hkey
    · -- the file is that of the first replica
      obtain rfl : i = 0 := Option.some.inj hkey
      exact nomatch halive
    · obtain ⟨-, heq⟩ := List.mem_replicate.mp
        (List.mem_of_getElem? (Option.join_eq_some_iff.mp hold))
      rw [Option.some.inj heq] at hkey
      exact nomatch hkey

end Runs
