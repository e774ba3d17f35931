/-
`secrets_api.py`: secrets under keys, owned by tokens.

What a store is for is said by a finite map from keys to secrets, each with its value,
its owner and the tokens it has been shared with; `Event.apply` says what every call does
to it.  The code keeps three tables, and `Agrees` relates them to the map: an entry names
a held file of its own, and hashes stand for tokens.  A token that cannot be encoded has no
hash, and `_hash_token` raises; the map is of tokens that can (`hashing`).

* `secrets_refine`: after any calls and hops, the store serves exactly what the map
  permits, and calls that raise change nothing.
-/
import Mathlib
import VStorage.Runs
import VStorage.VirtualStorage

/-- `AuthError` is a class of its own. -/
inductive StoreError
  | py (e : PyError)
  | authError
  deriving DecidableEq

/-- `_Entry`. -/
structure Entry (FileId η : Type*) where
  fileId : FileId
  ownerTokenHash : η

/-- `SecretsStore`; the hash of a token is of type `η`. -/
structure SecretsStore (FileId η : Type*) where
  vs : VirtualStorage FileId
  entries : Dict String (Entry FileId η)
  sharedWith : Dict String (Finset η)

namespace SecretsStore

variable {FileId τ η : Type*}

/-- `__init__`. -/
def new : SecretsStore FileId η := ⟨.new, .empty, .empty⟩

/-- `_hash_token` on tokens that can all be encoded. -/
def hashing (hash : τ → η) : τ → Except PyError η := fun token => .ok (hash token)

section Operations

variable [DecidableEq FileId] [DecidableEq η] (P : Primitives) (L : Libraries)
  (hashToken : τ → Except PyError η)

/-- `store`, with the id that the new file gets.  The file is saved before the token is
hashed, which raises on a token that cannot be encoded. -/
def store (key : String) (value : Bytes) (token : τ) (fileId : FileId)
    (s : SecretsStore FileId η) : SecretsStore FileId η × Except StoreError Unit :=
  let saved : SecretsStore FileId η := { s with vs := s.vs.saveBytes P L value key fileId }
  match hashToken token with
  | .error e => (saved, .error (.py e))
  | .ok hash =>
    ({ saved with
        entries := s.entries.set key ⟨fileId, hash⟩
        sharedWith := s.sharedWith.set key ∅ }, .ok ())

/-- `token_hash == entry.owner_token_hash or token_hash in self._shared_with[key]`. -/
def allowed (key : String) (entry : Entry FileId η) (tokenHash : η) (s : SecretsStore FileId η) :
    Except StoreError Bool :=
  if tokenHash = entry.ownerTokenHash then .ok true
  else match s.sharedWith.get? key with
    | none => .error (.py .keyError)
    | some hashes => .ok (tokenHash ∈ hashes)

/-- `retrieve`. -/
def retrieve (key : String) (token : τ) (s : SecretsStore FileId η) : Except StoreError Bytes :=
  match s.entries.get? key with
  | none => .error (.py .keyError)
  | some entry =>
    match hashToken token with
    | .error e => .error (.py e)
    | .ok tokenHash =>
      match s.allowed key entry tokenHash with
      | .error e => .error e
      | .ok false => .error .authError
      | .ok true => (s.vs.retrieve P entry.fileId none).mapError .py

/-- `if _hash_token(token) != entry.owner_token_hash: raise AuthError(...)`. -/
def checkOwner (token : τ) (entry : Entry FileId η) : Except StoreError Unit :=
  match hashToken token with
  | .error e => .error (.py e)
  | .ok hash => if hash ≠ entry.ownerTokenHash then .error .authError else .ok ()

/-- `share`. -/
def share (key : String) (ownerToken granteeToken : τ) (s : SecretsStore FileId η) :
    SecretsStore FileId η × Except StoreError Unit :=
  match s.entries.get? key with
  | none => (s, .error (.py .keyError))
  | some entry =>
    match checkOwner hashToken ownerToken entry with
    | .error e => (s, .error e)
    | .ok () =>
      match s.sharedWith.get? key with
      | none => (s, .error (.py .keyError))
      | some hashes =>
        match hashToken granteeToken with
        | .error e => (s, .error (.py e))
        | .ok hash => ({ s with sharedWith := s.sharedWith.set key (insert hash hashes) }, .ok ())

/-- `rotate`, with the id that the new file gets. -/
def rotate (key : String) (newValue : Bytes) (token : τ) (newFileId : FileId)
    (s : SecretsStore FileId η) : SecretsStore FileId η × Except StoreError Unit :=
  match s.entries.get? key with
  | none => (s, .error (.py .keyError))
  | some entry =>
    match checkOwner hashToken token entry with
    | .error e => (s, .error e)
    | .ok () =>
      ({ s with
          vs := (s.vs.saveBytes P L newValue key newFileId).forget entry.fileId
          entries := s.entries.set key { entry with fileId := newFileId } }, .ok ())

/-- `revoke`. -/
def revoke (key : String) (token : τ) (s : SecretsStore FileId η) :
    SecretsStore FileId η × Except StoreError Unit :=
  match s.entries.get? key with
  | none => (s, .error (.py .keyError))
  | some entry =>
    match checkOwner hashToken token entry with
    | .error e => (s, .error e)
    | .ok () =>
      let forgotten : SecretsStore FileId η :=
        { s with vs := s.vs.forget entry.fileId, entries := s.entries.erase key }
      match s.sharedWith.get? key with
      | none => (forgotten, .error (.py .keyError))
      | some _ => ({ forgotten with sharedWith := s.sharedWith.erase key }, .ok ())

/-- The comprehension of `keys_for`, over the items that are left. -/
def keysForLoop (tokenHash : η) (s : SecretsStore FileId η) :
    List (String × Entry FileId η) → Except StoreError (List String)
  | [] => .ok []
  | (key, entry) :: items => do
    let allow ← s.allowed key entry tokenHash
    let keys ← keysForLoop tokenHash s items
    return if allow then key :: keys else keys

/-- `keys_for`. -/
def keysFor (token : τ) (s : SecretsStore FileId η) : Except StoreError (List String) :=
  match hashToken token with
  | .error e => .error (.py e)
  | .ok tokenHash => s.keysForLoop tokenHash s.entries.items

end Operations

theorem checkOwner_hashing [DecidableEq η] (hash : τ → η) (token : τ) (entry : Entry FileId η) :
    checkOwner (hashing hash) token entry =
      if hash token ≠ entry.ownerTokenHash then .error .authError else .ok () := rfl

/-- The comprehension keeps the keys that are allowed. -/
theorem keysForLoop_eq [DecidableEq η] {tokenHash : η} {s : SecretsStore FileId η}
    (allow : String → Bool) {items : List (String × Entry FileId η)}
    (h : ∀ item ∈ items, s.allowed item.1 item.2 tokenHash = .ok (allow item.1)) :
    s.keysForLoop tokenHash items = .ok ((items.map Prod.fst).filter allow) := by
  induction items with
  | nil => rfl
  | cons item items ih =>
    obtain ⟨hitem, hitems⟩ := List.forall_mem_cons.mp h
    rw [keysForLoop, hitem, ih hitems, List.map_cons, List.filter_cons]
    rfl

/-! ### What a store is for -/

/-- A secret: its value, who stored it, and whom it has been shared with since. -/
structure Secret (τ : Type*) where
  value : Bytes
  owner : τ
  granted : Set τ

/-- The secret is for this token. -/
def Secret.Permits (secret : Secret τ) (token : τ) : Prop :=
  token = secret.owner ∨ token ∈ secret.granted

inductive Event (FileId τ : Type*)
  | store (key : String) (value : Bytes) (token : τ)
  | retrieve (key : String) (token : τ)
  | share (key : String) (ownerToken granteeToken : τ)
  | rotate (key : String) (newValue : Bytes) (token : τ)
  | revoke (key : String) (token : τ)
  | keysFor (token : τ)
  | hop (fileId : FileId) (piece : Piece)

/-- A call on a secret that takes effect if it comes from the owner. -/
def onBehalf [DecidableEq τ] (key : String) (token : τ) (f : Secret τ → Option (Secret τ))
    (m : String → Option (Secret τ)) : String → Option (Secret τ) :=
  match m key with
  | none => m
  | some secret => if token = secret.owner then Function.update m key (f secret) else m

section OnBehalf

variable [DecidableEq τ] {m : String → Option (Secret τ)} {key : String} {token : τ}
  {secret : Secret τ} (f : Secret τ → Option (Secret τ))

theorem onBehalf_of_missing (hkey : m key = none) : onBehalf key token f m = m := by
  rw [onBehalf, hkey]

theorem onBehalf_of_owner (hkey : m key = some secret) (htoken : token = secret.owner) :
    onBehalf key token f m = Function.update m key (f secret) := by
  rw [onBehalf, hkey]
  exact if_pos htoken

theorem onBehalf_of_ne (hkey : m key = some secret) (htoken : token ≠ secret.owner) :
    onBehalf key token f m = m := by
  rw [onBehalf, hkey]
  exact if_neg htoken

end OnBehalf

/-- What an event does to the map of secrets. -/
def Event.apply [DecidableEq τ] :
    Event FileId τ → (String → Option (Secret τ)) → String → Option (Secret τ)
  | .store key value token, m => Function.update m key (some ⟨value, token, ∅⟩)
  | .share key owner grantee, m =>
    onBehalf key owner (fun secret => some { secret with granted := insert grantee secret.granted }) m
  | .rotate key value token, m =>
    onBehalf key token (fun secret => some { secret with value := value }) m
  | .revoke key token, m => onBehalf key token (fun _ => none) m
  | .retrieve _ _, m | .keysFor _, m | .hop _ _, m => m

/-- The secrets after some events. -/
def secrets [DecidableEq τ] (events : List (Event FileId τ)) : String → Option (Secret τ) :=
  events.foldl (fun m event => event.apply m) fun _ => none

theorem secrets_append [DecidableEq τ] (events later : List (Event FileId τ)) :
    secrets (events ++ later) = later.foldl (fun m event => event.apply m) (secrets events) :=
  List.foldl_append

/-- How a call ends that only the owner of a key may make. -/
def ownerOnly [DecidableEq τ] (secret : Option (Secret τ)) (token : τ) : Except StoreError Unit :=
  match secret with
  | none => .error (.py .keyError)
  | some secret => if token = secret.owner then .ok () else .error .authError

/-! ### Steps -/

/-- A call, or a hop of a box.  An id that `uuid4` gives is not in use. -/
inductive Step [DecidableEq FileId] [DecidableEq η] (P : Primitives) (L : Libraries)
    (hashToken : τ → Except PyError η) :
    SecretsStore FileId η → Event FileId τ → SecretsStore FileId η → Prop
  | store {s : SecretsStore FileId η} {key : String} {value : Bytes} {token : τ}
      {fileId : FileId} : s.vs.held.get? fileId = none →
      Step P L hashToken s (.store key value token)
        (s.store P L hashToken key value token fileId).1
  | retrieve {s : SecretsStore FileId η} {key : String} {token : τ} :
      Step P L hashToken s (.retrieve key token) s
  | share {s : SecretsStore FileId η} {key : String} {owner grantee : τ} :
      Step P L hashToken s (.share key owner grantee) (s.share hashToken key owner grantee).1
  | rotate {s : SecretsStore FileId η} {key : String} {value : Bytes} {token : τ}
      {fileId : FileId} : s.vs.held.get? fileId = none →
      Step P L hashToken s (.rotate key value token)
        (s.rotate P L hashToken key value token fileId).1
  | revoke {s : SecretsStore FileId η} {key : String} {token : τ} :
      Step P L hashToken s (.revoke key token) (s.revoke hashToken key token).1
  | keysFor {s : SecretsStore FileId η} {token : τ} : Step P L hashToken s (.keysFor token) s
  | hop {s : SecretsStore FileId η} {fileId : FileId} {piece : Piece} :
      Step P L hashToken s (.hop fileId piece) { s with vs := s.vs.fall fileId piece }

/-! ### The tables and the map -/

section Refinement

variable [DecidableEq FileId]

/-- The tables hold the secret under the key, by this entry. -/
structure Entered (P : Primitives) (hash : τ → η) (s : SecretsStore FileId η) (key : String)
    (secret : Secret τ) (entry : Entry FileId η) : Prop where
  found : s.entries.get? key = some entry
  owner : entry.ownerTokenHash = hash secret.owner
  shared : ∃ hashes, s.sharedWith.get? key = some hashes ∧
    ∀ token, hash token ∈ hashes ↔ token ∈ secret.granted
  keeps : s.vs.Keeps P entry.fileId secret.value

/-- The tables stand for the map, and no two keys have the same file. -/
structure Agrees (P : Primitives) (hash : τ → η) (s : SecretsStore FileId η)
    (m : String → Option (Secret τ)) : Prop where
  missing : ∀ key, m key = none → s.entries.get? key = none
  present : ∀ key secret, m key = some secret → ∃ entry, Entered P hash s key secret entry
  distinct : ∀ key key' entry entry', s.entries.get? key = some entry →
    s.entries.get? key' = some entry' → entry.fileId = entry'.fileId → key = key'

/-- What a call at one key leaves alone: the other keys, and their files. -/
structure Elsewhere (P : Primitives) (key : String) (s t : SecretsStore FileId η) : Prop where
  entries : ∀ k, k ≠ key → t.entries.get? k = s.entries.get? k
  shared : ∀ k, k ≠ key → t.sharedWith.get? k = s.sharedWith.get? k
  files : ∀ k entry raw, k ≠ key → s.entries.get? k = some entry →
    s.vs.Keeps P entry.fileId raw → t.vs.Keeps P entry.fileId raw

variable {P : Primitives} {L : Libraries} {hash : τ → η} {s t : SecretsStore FileId η}
  {m : String → Option (Secret τ)} {key : String} {token : τ} {secret : Secret τ}
  {entry : Entry FileId η}

theorem agrees_new : Agrees P hash (new : SecretsStore FileId η) fun _ => none where
  missing _ _ := rfl
  present _ _ h := nomatch h
  distinct _ _ _ _ h := nomatch h

/-- A file that is kept is held. -/
theorem Entered.ne_of_fresh (h : Entered P hash s key secret entry) {fileId : FileId}
    (hfresh : s.vs.held.get? fileId = none) : entry.fileId ≠ fileId := by
  rintro rfl
  obtain ⟨held, hheld, -⟩ := h.keeps
  exact nomatch hfresh.symm.trans hheld

theorem Agrees.of_entry (h : Agrees P hash s m) (hentry : s.entries.get? key = some entry) :
    ∃ secret, m key = some secret ∧ Entered P hash s key secret entry := by
  cases hkey : m key with
  | none => exact nomatch (h.missing key hkey).symm.trans hentry
  | some secret =>
    obtain ⟨entry', hentered⟩ := h.present key secret hkey
    obtain rfl := Option.some.inj (hentry.symm.trans hentered.found)
    exact ⟨secret, rfl, hentered⟩

theorem Agrees.ne_of_fresh (h : Agrees P hash s m) (hentry : s.entries.get? key = some entry)
    {fileId : FileId} (hfresh : s.vs.held.get? fileId = none) : entry.fileId ≠ fileId := by
  obtain ⟨secret, -, hentered⟩ := h.of_entry hentry
  exact hentered.ne_of_fresh hfresh

/-- **One key at a time.**  When a step leaves the other keys alone and makes the tables say
what the map is to say at its own key, the tables still stand for the map. -/
theorem Agrees.update (h : Agrees P hash s m) (helse : Elsewhere P key s t)
    (o : Option (Secret τ)) (hnone : o = none → t.entries.get? key = none)
    (hsome : ∀ secret, o = some secret → ∃ entry, Entered P hash t key secret entry ∧
      ∀ k e, k ≠ key → s.entries.get? k = some e → e.fileId ≠ entry.fileId) :
    Agrees P hash t (Function.update m key o) where
  missing k hk := by
    rcases eq_or_ne k key with rfl | hne
    · rw [Function.update_self] at hk
      exact hnone hk
    · rw [Function.update_of_ne hne] at hk
      exact (helse.entries k hne).trans (h.missing k hk)
  present k secret hk := by
    rcases eq_or_ne k key with rfl | hne
    · rw [Function.update_self] at hk
      obtain ⟨entry, hentered, -⟩ := hsome secret hk
      exact ⟨entry, hentered⟩
    · rw [Function.update_of_ne hne] at hk
      obtain ⟨entry, hentered⟩ := h.present k secret hk
      obtain ⟨hashes, hhashes, hgranted⟩ := hentered.shared
      exact ⟨entry, (helse.entries k hne).trans hentered.found, hentered.owner,
        ⟨hashes, (helse.shared k hne).trans hhashes, hgranted⟩,
        helse.files k entry _ hne hentered.found hentered.keeps⟩
  distinct k k' e e' he he' hids := by
    -- the entry at the key itself has a file that no other entry has
    have hown : ∀ k e e', t.entries.get? key = some e → k ≠ key → t.entries.get? k = some e' →
        e'.fileId ≠ e.fileId := by
      intro k e e' he hne he'
      cases ho : o with
      | none => exact nomatch (hnone ho).symm.trans he
      | some secret =>
        obtain ⟨entry, hentered, hother⟩ := hsome secret ho
        obtain rfl := Option.some.inj (hentered.found.symm.trans he)
        exact hother k e' hne ((helse.entries k hne).symm.trans he')
    by_cases hk : k = key
    · subst hk
      by_contra hne
      exact hown k' e e' he (Ne.symm hne) he' hids.symm
    · by_cases hk' : k' = key
      · subst hk'
        exact absurd hids (hown k e' e he' hk he)
      · exact h.distinct k k' e e' ((helse.entries k hk).symm.trans he)
          ((helse.entries k' hk').symm.trans he') hids

/-- What a call does and how it ends, when only the owner of the key may make it. -/
structure OwnerCall [DecidableEq τ] (P : Primitives) (hash : τ → η)
    (s : SecretsStore FileId η) (m : String → Option (Secret τ)) (key : String) (token : τ)
    (f : Secret τ → Option (Secret τ)) (r : SecretsStore FileId η × Except StoreError Unit) :
    Prop where
  outcome : r.2 = ownerOnly (m key) token
  unchanged : ∀ {e}, r.2 = .error e → r.1 = s
  agrees : Agrees P hash r.1 (onBehalf key token f m)

theorem Entered.isOwner (h : Entered P hash s key secret entry)
    (hinj : Function.Injective hash) :
    hash token = entry.ownerTokenHash ↔ token = secret.owner := by
  rw [h.owner]
  exact hinj.eq_iff

/-! ### Calls -/

/-- A new file changes the entry of its key and no other. -/
theorem Agrees.enter (h : Agrees P hash s m) {fileId : FileId}
    (hfresh : s.vs.held.get? fileId = none) (key : String) (value : Bytes) (token : τ) :
    Agrees P hash ⟨s.vs.saveBytes P L value key fileId, s.entries.set key ⟨fileId, hash token⟩,
        s.sharedWith.set key ∅⟩
      (Function.update m key (some ⟨value, token, ∅⟩)) := by
  refine h.update ⟨fun k hne => (Dict.get?_set ..).trans (if_neg hne),
    fun k hne => (Dict.get?_set ..).trans (if_neg hne), fun k entry raw _ hentry hkeeps =>
      hkeeps.saveBytes (h.ne_of_fresh hentry hfresh) value key⟩ _ (fun hnone => nomatch hnone) ?_
  intro secret hsecret
  obtain rfl := Option.some.inj hsecret
  refine ⟨_, ⟨(Dict.get?_set ..).trans (if_pos rfl), rfl,
    ⟨∅, (Dict.get?_set ..).trans (if_pos rfl), fun token => ?_⟩,
    VirtualStorage.keeps_saveBytes ..⟩, fun k e _ he => h.ne_of_fresh he hfresh⟩
  exact iff_of_false (Finset.notMem_empty _) (Set.notMem_empty _)

/-- Other files do not matter. -/
theorem Agrees.files (h : Agrees P hash s m) {vs : VirtualStorage FileId}
    (hkeeps : ∀ key entry raw, s.entries.get? key = some entry → s.vs.Keeps P entry.fileId raw →
      vs.Keeps P entry.fileId raw) : Agrees P hash { s with vs := vs } m where
  missing := h.missing
  present key secret hkey := by
    obtain ⟨entry, hentered⟩ := h.present key secret hkey
    exact ⟨entry, hentered.found, hentered.owner, hentered.shared,
      hkeeps key entry _ hentered.found hentered.keeps⟩
  distinct := h.distinct

theorem Agrees.hop (h : Agrees P hash s m) (fileId : FileId) (piece : Piece) :
    Agrees P hash { s with vs := s.vs.fall fileId piece } m :=
  h.files fun _ _ _ _ hkeeps => hkeeps.fall fileId piece

/-- The guard of the calls that only an owner may make, in front of what the call does. -/
theorem Agrees.ownerCall [DecidableEq τ] (h : Agrees P hash s m)
    (hinj : Function.Injective hash) {r : SecretsStore FileId η × Except StoreError Unit}
    {f : Secret τ → Option (Secret τ)}
    (hmissing : s.entries.get? key = none → r = (s, .error (.py .keyError)))
    (hforeign : ∀ entry, s.entries.get? key = some entry →
      hash token ≠ entry.ownerTokenHash → r = (s, .error .authError))
    (howner : ∀ secret entry, Entered P hash s key secret entry →
      hash token = entry.ownerTokenHash →
      r.2 = .ok () ∧ Agrees P hash r.1 (Function.update m key (f secret))) :
    OwnerCall P hash s m key token f r := by
  cases hkey : m key with
  | none =>
    obtain rfl := hmissing (h.missing key hkey)
    refine ⟨?_, fun _ => rfl, ?_⟩
    · rw [hkey]
      rfl
    · rw [onBehalf_of_missing f hkey]
      exact h
  | some secret =>
    obtain ⟨entry, hentered⟩ := h.present key secret hkey
    by_cases htoken : token = secret.owner
    · obtain ⟨hok, hagrees⟩ := howner secret entry hentered ((hentered.isOwner hinj).mpr htoken)
      refine ⟨?_, fun he => (nomatch hok.symm.trans he), ?_⟩
      · rw [hok, hkey]
        exact (if_pos htoken).symm
      · rw [onBehalf_of_owner f hkey htoken]
        exact hagrees
    · obtain rfl := hforeign entry hentered.found fun heq =>
        htoken ((hentered.isOwner hinj).mp heq)
      refine ⟨?_, fun _ => rfl, ?_⟩
      · rw [hkey]
        exact (if_neg htoken).symm
      · rw [onBehalf_of_ne f hkey htoken]
        exact h

variable [DecidableEq η]

theorem Agrees.share [DecidableEq τ] (h : Agrees P hash s m)
    (hinj : Function.Injective hash) (key : String) (token grantee : τ) :
    OwnerCall P hash s m key token
      (fun secret => some { secret with granted := insert grantee secret.granted })
      (s.share (hashing hash) key token grantee) := by
  refine h.ownerCall hinj (fun hnone => ?_) (fun entry hentry hne => ?_)
    fun secret entry hentered howner => ?_
  · rw [SecretsStore.share, hnone]
  · rw [SecretsStore.share, hentry]
    dsimp only
    rw [checkOwner_hashing, if_pos hne]
  · obtain ⟨hashes, hhashes, hgranted⟩ := hentered.shared
    have hshare : s.share (hashing hash) key token grantee =
        ({ s with sharedWith := s.sharedWith.set key (insert (hash grantee) hashes) },
          .ok ()) := by
      rw [SecretsStore.share, hentered.found]
      dsimp only
      rw [checkOwner_hashing, if_neg (not_not.mpr howner), hhashes]
      rfl
    rw [hshare]
    refine ⟨rfl, h.update ?_ _ (fun hnone => nomatch hnone) fun secret' hsecret => ?_⟩
    · exact ⟨fun _ _ => rfl, fun k hne => (Dict.get?_set ..).trans (if_neg hne),
        fun _ _ _ _ _ hkeeps => hkeeps⟩
    · obtain rfl := Option.some.inj hsecret
      refine ⟨entry, ⟨hentered.found, hentered.owner,
        ⟨_, (Dict.get?_set ..).trans (if_pos rfl), fun token => ?_⟩, hentered.keeps⟩,
        fun k e hne he hids => hne (h.distinct k key e entry he hentered.found hids)⟩
      rw [Finset.mem_insert, Set.mem_insert_iff, hinj.eq_iff, hgranted]

/-- The new file is held before the old one is forgotten. -/
theorem Agrees.rotate [DecidableEq τ] (h : Agrees P hash s m)
    (hinj : Function.Injective hash) {fileId : FileId}
    (hfresh : s.vs.held.get? fileId = none) (key : String) (value : Bytes) (token : τ) :
    OwnerCall P hash s m key token (fun secret => some { secret with value := value })
      (s.rotate P L (hashing hash) key value token fileId) := by
  refine h.ownerCall hinj (fun hnone => ?_) (fun entry hentry hne => ?_)
    fun secret entry hentered howner => ?_
  · rw [SecretsStore.rotate, hnone]
  · rw [SecretsStore.rotate, hentry]
    dsimp only
    rw [checkOwner_hashing, if_pos hne]
  · have hrotate : s.rotate P L (hashing hash) key value token fileId =
        ({ s with
            vs := (s.vs.saveBytes P L value key fileId).forget entry.fileId
            entries := s.entries.set key { entry with fileId := fileId } }, .ok ()) := by
      rw [SecretsStore.rotate, hentered.found]
      dsimp only
      rw [checkOwner_hashing, if_neg (not_not.mpr howner)]
    have hnew : fileId ≠ entry.fileId := (hentered.ne_of_fresh hfresh).symm
    rw [hrotate]
    refine ⟨rfl, h.update ?_ _ (fun hnone => nomatch hnone) fun secret' hsecret => ?_⟩
    · refine ⟨fun k hne => (Dict.get?_set ..).trans (if_neg hne), fun _ _ => rfl,
        fun k e raw hne he hkeeps => ?_⟩
      exact (hkeeps.saveBytes (h.ne_of_fresh he hfresh) value key).forget fun hids =>
        hne (h.distinct k key e entry he hentered.found hids)
    · obtain rfl := Option.some.inj hsecret
      exact ⟨_, ⟨(Dict.get?_set ..).trans (if_pos rfl), hentered.owner, hentered.shared,
        (VirtualStorage.keeps_saveBytes value key fileId s.vs).forget hnew⟩,
        fun k e _ he => h.ne_of_fresh he hfresh⟩

/-- The file, the entry and the grants go together. -/
theorem Agrees.revoke [DecidableEq τ] (h : Agrees P hash s m)
    (hinj : Function.Injective hash) (key : String) (token : τ) :
    OwnerCall P hash s m key token (fun _ => none) (s.revoke (hashing hash) key token) := by
  refine h.ownerCall hinj (fun hnone => ?_) (fun entry hentry hne => ?_)
    fun secret entry hentered howner => ?_
  · rw [SecretsStore.revoke, hnone]
  · rw [SecretsStore.revoke, hentry]
    dsimp only
    rw [checkOwner_hashing, if_pos hne]
  · obtain ⟨hashes, hhashes, -⟩ := hentered.shared
    have hrevoke : s.revoke (hashing hash) key token =
        (⟨s.vs.forget entry.fileId, s.entries.erase key, s.sharedWith.erase key⟩, .ok ()) := by
      rw [SecretsStore.revoke, hentered.found]
      dsimp only
      rw [checkOwner_hashing, if_neg (not_not.mpr howner), hhashes]
    rw [hrevoke]
    refine ⟨rfl, h.update ?_ _ (fun _ => (Dict.get?_erase ..).trans (if_pos rfl))
      fun secret' hsecret => nomatch hsecret⟩
    refine ⟨fun k hne => (Dict.get?_erase ..).trans (if_neg hne),
      fun k hne => (Dict.get?_erase ..).trans (if_neg hne), fun k e raw hne he hkeeps => ?_⟩
    exact hkeeps.forget fun hids => hne (h.distinct k key e entry he hentered.found hids)

/-- **Steps.** -/
theorem Agrees.step [DecidableEq τ] (h : Agrees P hash s m)
    (hinj : Function.Injective hash) {event : Event FileId τ}
    (hstep : Step P L (hashing hash) s event t) : Agrees P hash t (event.apply m) := by
  cases hstep with
  | store hfresh => exact h.enter hfresh ..
  | retrieve => exact h
  | share => exact (h.share hinj ..).agrees
  | rotate hfresh => exact (h.rotate hinj hfresh ..).agrees
  | revoke => exact (h.revoke hinj ..).agrees
  | keysFor => exact h
  | hop => exact h.hop ..

/-- **Runs.**  The tables stand for what the events have made of the map. -/
theorem agrees_run [DecidableEq τ] (hinj : Function.Injective hash)
    {events : List (Event FileId τ)} (hrun : Run (Step P L (hashing hash)) new events s) :
    Agrees P hash s (secrets events) := by
  refine hrun.history (I := fun events s => Agrees P hash s (secrets events)) agrees_new
    fun {events s event t} hagrees hstep => ?_
  rw [secrets_append]
  exact hagrees.step hinj hstep

/-! ### Reading -/

theorem Entered.allowed_eq (h : Entered P hash s key secret entry)
    (hinj : Function.Injective hash) [Decidable (secret.Permits token)] :
    s.allowed key entry (hash token) = .ok (decide (secret.Permits token)) := by
  rw [SecretsStore.allowed]
  by_cases howner : token = secret.owner
  · have hpermits : secret.Permits token := Or.inl howner
    rw [if_pos ((h.isOwner hinj).mpr howner), decide_eq_true hpermits]
  · rw [if_neg fun heq => howner ((h.isOwner hinj).mp heq)]
    obtain ⟨hashes, hhashes, hgranted⟩ := h.shared
    have hpermits : secret.Permits token ↔ hash token ∈ hashes :=
      (or_iff_right howner).trans (hgranted token).symm
    rw [hhashes]
    exact congrArg _ (decide_eq_decide.mpr hpermits.symm)

theorem Agrees.retrieve_missing (h : Agrees P hash s m) (hkey : m key = none) (token : τ) :
    s.retrieve P (hashing hash) key token = .error (.py .keyError) := by
  rw [SecretsStore.retrieve, h.missing key hkey]

open Classical in
theorem Agrees.retrieve_present (h : Agrees P hash s m)
    (hinj : Function.Injective hash) (hkey : m key = some secret) (token : τ) :
    s.retrieve P (hashing hash) key token =
      if secret.Permits token then .ok secret.value else .error .authError := by
  obtain ⟨entry, hentered⟩ := h.present key secret hkey
  rw [SecretsStore.retrieve, hentered.found]
  dsimp only [hashing]
  rw [hentered.allowed_eq hinj]
  by_cases hpermits : secret.Permits token
  · rw [decide_eq_true hpermits, if_pos hpermits]
    dsimp only
    rw [hentered.keeps.retrieve]
    rfl
  · rw [decide_eq_false hpermits, if_neg hpermits]

theorem Agrees.retrieve_ok_iff (h : Agrees P hash s m) (hinj : Function.Injective hash)
    {value : Bytes} : s.retrieve P (hashing hash) key token = .ok value ↔
      ∃ secret, m key = some secret ∧ secret.Permits token ∧ secret.value = value := by
  constructor
  · intro hok
    cases hkey : m key with
    | none => exact nomatch (h.retrieve_missing hkey token).symm.trans hok
    | some secret =>
      rw [h.retrieve_present hinj hkey] at hok
      split at hok
      · rename_i hpermits
        exact ⟨secret, rfl, hpermits, Except.ok.inj hok⟩
      · exact nomatch hok
  · rintro ⟨secret, hkey, hpermits, rfl⟩
    exact (h.retrieve_present hinj hkey token).trans (if_pos hpermits)

theorem Agrees.retrieve_keyError_iff (h : Agrees P hash s m)
    (hinj : Function.Injective hash) :
    s.retrieve P (hashing hash) key token = .error (.py .keyError) ↔ m key = none := by
  refine ⟨fun herror => ?_, fun hkey => h.retrieve_missing hkey token⟩
  cases hkey : m key with
  | none => rfl
  | some secret =>
    rw [h.retrieve_present hinj hkey] at herror
    split at herror <;> exact nomatch herror

theorem Agrees.retrieve_authError_iff (h : Agrees P hash s m)
    (hinj : Function.Injective hash) :
    s.retrieve P (hashing hash) key token = .error .authError ↔
      ∃ secret, m key = some secret ∧ ¬secret.Permits token := by
  constructor
  · intro herror
    cases hkey : m key with
    | none => exact nomatch (h.retrieve_missing hkey token).symm.trans herror
    | some secret =>
      refine ⟨secret, rfl, fun hpermits => ?_⟩
      exact nomatch ((h.retrieve_present hinj hkey token).trans (if_pos hpermits)).symm.trans herror
  · rintro ⟨secret, hkey, hrefused⟩
    exact (h.retrieve_present hinj hkey token).trans (if_neg hrefused)

open Classical in
theorem Agrees.keysFor (h : Agrees P hash s m) (hinj : Function.Injective hash)
    (token : τ) : ∃ keys, s.keysFor (hashing hash) token = .ok keys ∧ keys.Nodup ∧
      ∀ key, key ∈ keys ↔ ∃ secret, m key = some secret ∧ secret.Permits token := by
  let allow : String → Bool := fun key => decide (∃ secret, m key = some secret ∧ secret.Permits token)
  have hallowed : ∀ item ∈ s.entries.items,
      s.allowed item.1 item.2 (hash token) = .ok (allow item.1) := by
    rintro ⟨key, entry⟩ hmem
    obtain ⟨secret, hkey, hentered⟩ := h.of_entry (Dict.get?_eq_some.mpr hmem)
    rw [hentered.allowed_eq hinj]
    refine congrArg _ (decide_eq_decide.mpr ⟨fun hpermits => ⟨secret, hkey, hpermits⟩, ?_⟩)
    rintro ⟨secret', hkey', hpermits⟩
    obtain rfl := Option.some.inj (hkey.symm.trans hkey')
    exact hpermits
  refine ⟨_, keysForLoop_eq allow hallowed, s.entries.nodup.filter _, fun key => ?_⟩
  rw [List.mem_filter, decide_eq_true_iff, and_iff_right_iff_imp]
  rintro ⟨secret, hkey, -⟩
  obtain ⟨entry, hentered⟩ := h.present key secret hkey
  exact Dict.mem_keys.mpr ⟨entry, hentered.found⟩

/-! ### Refinement -/

/-- The store does what the map of secrets says. -/
structure Serves [DecidableEq τ] (P : Primitives) (L : Libraries) (hashToken : τ → Except PyError η)
    (s : SecretsStore FileId η) (m : String → Option (Secret τ)) : Prop where
  retrieve : ∀ key token value, s.retrieve P hashToken key token = .ok value ↔
    ∃ secret, m key = some secret ∧ secret.Permits token ∧ secret.value = value
  keyError : ∀ key token, s.retrieve P hashToken key token = .error (.py .keyError) ↔ m key = none
  authError : ∀ key token, s.retrieve P hashToken key token = .error .authError ↔
    ∃ secret, m key = some secret ∧ ¬secret.Permits token
  keysFor : ∀ token, ∃ keys, s.keysFor hashToken token = .ok keys ∧ keys.Nodup ∧
    ∀ key, key ∈ keys ↔ ∃ value, s.retrieve P hashToken key token = .ok value
  share : ∀ key token grantee, (s.share hashToken key token grantee).2 = ownerOnly (m key) token
  rotate : ∀ key value token fileId, s.vs.held.get? fileId = none →
    (s.rotate P L hashToken key value token fileId).2 = ownerOnly (m key) token
  revoke : ∀ key token, (s.revoke hashToken key token).2 = ownerOnly (m key) token
  share_error : ∀ key token grantee e, (s.share hashToken key token grantee).2 = .error e →
    (s.share hashToken key token grantee).1 = s
  rotate_error : ∀ key value token fileId e, s.vs.held.get? fileId = none →
    (s.rotate P L hashToken key value token fileId).2 = .error e →
    (s.rotate P L hashToken key value token fileId).1 = s
  revoke_error : ∀ key token e, (s.revoke hashToken key token).2 = .error e →
    (s.revoke hashToken key token).1 = s

theorem Agrees.serves [DecidableEq τ] (h : Agrees P hash s m)
    (hinj : Function.Injective hash) : Serves P L (hashing hash) s m where
  retrieve _ _ _ := h.retrieve_ok_iff hinj
  keyError _ _ := h.retrieve_keyError_iff hinj
  authError _ _ := h.retrieve_authError_iff hinj
  keysFor token := by
    obtain ⟨keys, hkeys, hnodup, hmem⟩ := h.keysFor hinj token
    refine ⟨keys, hkeys, hnodup, fun key => (hmem key).trans ⟨?_, ?_⟩⟩
    · rintro ⟨secret, hkey, hpermits⟩
      exact ⟨secret.value, (h.retrieve_ok_iff hinj).mpr ⟨secret, hkey, hpermits, rfl⟩⟩
    · rintro ⟨value, hvalue⟩
      obtain ⟨secret, hkey, hpermits, -⟩ := (h.retrieve_ok_iff hinj).mp hvalue
      exact ⟨secret, hkey, hpermits⟩
  share key token grantee := (h.share hinj key token grantee).outcome
  rotate key value token fileId hfresh := (h.rotate hinj hfresh key value token).outcome
  revoke key token := (h.revoke hinj key token).outcome
  share_error key token grantee _ he := (h.share hinj key token grantee).unchanged he
  rotate_error key value token fileId _ hfresh he :=
    (h.rotate hinj hfresh key value token).unchanged he
  revoke_error key token _ he := (h.revoke hinj key token).unchanged he

/-- **Refinement.**  After any calls, with any hops in between, the store serves the secrets
that the calls have made. -/
theorem secrets_refine [DecidableEq τ] (hinj : Function.Injective hash)
    {events : List (Event FileId τ)} (hrun : Run (Step P L (hashing hash)) new events s) :
    Serves P L (hashing hash) s (secrets events) :=
  (agrees_run hinj hrun).serves hinj

theorem secrets_refine_shared :
    Serves Primitives.sample Libraries.sample (hashing id)
      (((new : SecretsStore ℕ String).store Primitives.sample Libraries.sample (hashing id)
        "db.pdf" [7] "alice" 0).1.share (hashing id) "db.pdf" "alice" "bob").1
      (secrets [(.store "db.pdf" [7] "alice" : Event ℕ String), .share "db.pdf" "alice" "bob"]) :=
  secrets_refine Function.injective_id
    (((Run.refl _ _).snoc (Step.store rfl)).snoc Step.share)

end Refinement

end SecretsStore
