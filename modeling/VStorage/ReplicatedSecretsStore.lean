/-
`ReplicatedSecretsStore`: one secret in several stores.

A write goes to every replica that is alive and a read is served by the first of them, so
all that are left stand for the same map of secrets.  Tokens are compared by their hashes
only, and the map is therefore one of hashes: nothing has to be known about the hash, and a
token that cannot be encoded has none, in one store as in many.

* `replication_transparent`: as long as a replica is left, every retrieval ends like that
  of a single store after the same stores;
* `kills_unobservable`: and so it does not show which replicas have been killed.
-/
import Mathlib
import VStorage.SecretsStore

/-- The position that `xs[i]` stands for, in a list of length `n`. -/
def pyPosition (n : ℕ) (i : ℤ) : Option ℕ :=
  let j := if i < 0 then i + n else i
  if 0 ≤ j ∧ j < n then some j.toNat else none

/-- `ReplicatedSecretsStore`.  A replica is there as long as it is alive. -/
structure ReplicatedSecretsStore (FileId η : Type*) where
  replicas : List (Option (SecretsStore FileId η))
  alive : List Bool
  alive_eq : alive = replicas.map Option.isSome

namespace ReplicatedSecretsStore

variable {FileId τ η : Type*}

/-- `__init__`. -/
def new (replicaCount : ℕ) : ReplicatedSecretsStore FileId η where
  replicas := List.replicate replicaCount (some .new)
  alive := List.replicate replicaCount true
  alive_eq := by rw [List.map_replicate]; rfl

/-- `kill_replica`. -/
def killReplica (index : ℤ) (s : ReplicatedSecretsStore FileId η) :
    ReplicatedSecretsStore FileId η × Except StoreError Unit :=
  match pyPosition s.alive.length index with
  | none => (s, .error (.py .indexError))
  | some i =>
    ({ replicas := s.replicas.set i none
       alive := s.alive.set i false
       alive_eq := by rw [s.alive_eq, List.map_set]; rfl }, .ok ())

theorem isSome_zip (s : ReplicatedSecretsStore FileId η) :
    (s.replicas.zip s.alive).map (fun pair => pair.1.isSome) = s.alive := by
  have hlen : s.replicas.length ≤ s.alive.length := by rw [s.alive_eq, List.length_map]
  have hfst := congrArg (List.map Option.isSome) (List.map_fst_zip hlen)
  rw [List.map_map, ← s.alive_eq] at hfst
  exact hfst

section Operations

variable [DecidableEq FileId] (P : Primitives) (L : Libraries)
  (hashToken : τ → Except PyError η)

/-- The loop of `store`, over the replicas that are left to write, from position `i` on. -/
def storeLoop (key : String) (value : Bytes) (token : τ) (fileIds : ℕ → FileId) :
    ℕ → List (Option (SecretsStore FileId η) × Bool) →
      List (Option (SecretsStore FileId η)) × Except StoreError Unit
  | _, [] => ([], .ok ())
  | i, (replica, alive) :: rest =>
    if alive then
      match replica with
      | none => (none :: rest.map Prod.fst, .error (.py .attributeError))
      | some replica =>
        match replica.store P L hashToken key value token (fileIds i) with
        | (replica, .error e) => (some replica :: rest.map Prod.fst, .error e)
        | (replica, .ok ()) =>
          let (replicas, outcome) := storeLoop key value token fileIds (i + 1) rest
          (some replica :: replicas, outcome)
    else
      let (replicas, outcome) := storeLoop key value token fileIds (i + 1) rest
      (replica :: replicas, outcome)

/-- The loop leaves every replica where it is. -/
theorem isSome_storeLoop (key : String) (value : Bytes) (token : τ) (fileIds : ℕ → FileId) (i : ℕ)
    (pairs : List (Option (SecretsStore FileId η) × Bool)) :
    (storeLoop P L hashToken key value token fileIds i pairs).1.map Option.isSome =
      pairs.map fun pair => pair.1.isSome := by
  have hrest : ∀ rest : List (Option (SecretsStore FileId η) × Bool),
      (rest.map Prod.fst).map Option.isSome = rest.map fun pair => pair.1.isSome :=
    fun rest => List.map_map
  induction pairs generalizing i with
  | nil => rfl
  | cons pair rest ih =>
    obtain ⟨replica, alive⟩ := pair
    cases alive with
    | false => exact congrArg (replica.isSome :: ·) (ih (i + 1))
    | true =>
      cases replica with
      | none => exact congrArg (false :: ·) (hrest rest)
      | some replica =>
        simp only [storeLoop, if_pos]
        split
        · exact congrArg (true :: ·) (hrest rest)
        · exact congrArg (true :: ·) (ih (i + 1))

/-- `store`, with the id that the new file gets in each replica. -/
def store (key : String) (value : Bytes) (token : τ) (fileIds : ℕ → FileId)
    (s : ReplicatedSecretsStore FileId η) :
    ReplicatedSecretsStore FileId η × Except StoreError Unit :=
  let written := storeLoop P L hashToken key value token fileIds 0 (s.replicas.zip s.alive)
  ({ replicas := written.1
     alive := s.alive
     alive_eq := by rw [isSome_storeLoop, isSome_zip] }, written.2)

variable [DecidableEq η]

/-- The loop of `retrieve`, over the replicas that are left to ask. -/
def retrieveLoop (key : String) (token : τ) :
    List (Option (SecretsStore FileId η) × Bool) → Except StoreError Bytes
  | [] => .error (.py .keyError)
  | (replica, alive) :: rest =>
    if alive then
      match replica with
      | none => .error (.py .attributeError)
      | some replica =>
        match replica.retrieve P hashToken key token with
        | .error (.py .keyError) => retrieveLoop key token rest
        | outcome => outcome
    else retrieveLoop key token rest

/-- `retrieve`. -/
def retrieve (key : String) (token : τ) (s : ReplicatedSecretsStore FileId η) :
    Except StoreError Bytes :=
  retrieveLoop P hashToken key token (s.replicas.zip s.alive)

/-- A box of one of the replicas makes a hop. -/
def fall (i : ℕ) (fileId : FileId) (piece : Piece) (s : ReplicatedSecretsStore FileId η) :
    ReplicatedSecretsStore FileId η where
  replicas := s.replicas.modify i (Option.map fun replica =>
    { replica with vs := replica.vs.fall fileId piece })
  alive := s.alive
  alive_eq := by
    rw [s.alive_eq]
    apply List.ext_getElem <;> simp [List.getElem_modify]
    intro j hj
    split <;> simp

/-! ### Calls -/

inductive Event (FileId τ : Type*)
  | store (key : String) (value : Bytes) (token : τ)
  | retrieve (key : String) (token : τ) (outcome : Except StoreError Bytes)
  | kill (index : ℤ)
  | hop (i : ℕ) (fileId : FileId) (piece : Piece)

/-- A call, or a hop of a box.  An id that `uuid4` gives a replica is not in use there. -/
inductive Step : ReplicatedSecretsStore FileId η → Event FileId τ →
    ReplicatedSecretsStore FileId η → Prop
  | store {s : ReplicatedSecretsStore FileId η} {key : String} {value : Bytes} {token : τ}
      {fileIds : ℕ → FileId} :
      (∀ (i : ℕ) (replica : SecretsStore FileId η), s.replicas[i]? = some (some replica) →
        replica.vs.held.get? (fileIds i) = none) →
      Step s (.store key value token) (s.store P L hashToken key value token fileIds).1
  | retrieve {s : ReplicatedSecretsStore FileId η} {key : String} {token : τ} :
      Step s (.retrieve key token (s.retrieve P hashToken key token)) s
  | kill {s : ReplicatedSecretsStore FileId η} {index : ℤ} :
      Step s (.kill index) (s.killReplica index).1
  | hop {s : ReplicatedSecretsStore FileId η} {i : ℕ} {fileId : FileId} {piece : Piece} :
      Step s (.hop i fileId piece) (s.fall i fileId piece)

end Operations

/-- What a call stores. -/
def Event.stored? : Event FileId τ → Option (String × Bytes × τ)
  | .store key value token => some (key, value, token)
  | _ => none

end ReplicatedSecretsStore

namespace SecretsStore

variable {FileId τ η : Type*}

/-! ### A single store -/

/-- What a call of a single store stores. -/
def Event.stored? : Event FileId τ → Option (String × Bytes × τ)
  | .store key value token => some (key, value, token)
  | _ => none

/-- The calls that a replicated store has as well, and hops. -/
def Event.Plain : Event FileId τ → Prop
  | .store _ _ _ | .retrieve _ _ | .keysFor _ | .hop _ _ => True
  | .share _ _ _ | .rotate _ _ _ | .revoke _ _ => False

/-- What a store does to the secrets, by the hashes of their owners: nothing when the token
has none. -/
def storeSecret (hashToken : τ → Except PyError η) (key : String) (value : Bytes) (token : τ)
    (m : String → Option (Secret η)) : String → Option (Secret η) :=
  match hashToken token with
  | .error _ => m
  | .ok hash => Function.update m key (some ⟨value, hash, ∅⟩)

/-- The secrets after some stores. -/
def storedSecrets (hashToken : τ → Except PyError η) (stores : List (String × Bytes × τ)) :
    String → Option (Secret η) :=
  stores.foldl (fun m (key, value, token) => storeSecret hashToken key value token m)
    fun _ => none

theorem storedSecrets_concat (hashToken : τ → Except PyError η)
    (stores : List (String × Bytes × τ)) (key : String) (value : Bytes) (token : τ) :
    storedSecrets hashToken (stores ++ [(key, value, token)]) =
      storeSecret hashToken key value token (storedSecrets hashToken stores) :=
  List.foldl_append

/-- What the last event adds to a history. -/
theorem filterMap_concat_some {α β : Type*} {f : α → Option β} (as : List α) {a : α} {b : β}
    (h : f a = some b) : (as ++ [a]).filterMap f = as.filterMap f ++ [b] := by
  rw [List.filterMap_append, List.filterMap_cons_some h, List.filterMap_nil]

theorem filterMap_concat_none {α β : Type*} {f : α → Option β} (as : List α) {a : α}
    (h : f a = none) : (as ++ [a]).filterMap f = as.filterMap f := by
  rw [List.filterMap_append, List.filterMap_cons_none h, List.filterMap_nil, List.append_nil]

variable [DecidableEq FileId] {P : Primitives} {L : Libraries} {hashToken : τ → Except PyError η}

/-- A file that no entry is for. -/
theorem Agrees.saved {s : SecretsStore FileId η} {m : String → Option (Secret η)}
    (h : Agrees P id s m) {fileId : FileId} (hfresh : s.vs.held.get? fileId = none) (key : String)
    (value : Bytes) : Agrees P id { s with vs := s.vs.saveBytes P L value key fileId } m :=
  h.files fun _ _ _ hentry hkeeps => hkeeps.saveBytes (h.ne_of_fresh hentry hfresh) value key

/-- A store is a store of the hashed token. -/
theorem Agrees.store_hashed {s : SecretsStore FileId η} {m : String → Option (Secret η)}
    (h : Agrees P id s m) {fileId : FileId} (hfresh : s.vs.held.get? fileId = none) (key : String)
    (value : Bytes) (token : τ) :
    Agrees P id (s.store P L hashToken key value token fileId).1
      (storeSecret hashToken key value token m) := by
  unfold SecretsStore.store storeSecret
  cases hashToken token with
  | error e => exact h.saved hfresh key value
  | ok hash => exact h.enter hfresh key value hash

variable [DecidableEq η]

/-- A token is presented by its hash, when it has one. -/
theorem retrieve_hashed (s : SecretsStore FileId η) (key : String) {token : τ} {hash : η}
    (htoken : hashToken token = .ok hash) :
    s.retrieve P hashToken key token = s.retrieve P (hashing id) key hash := by
  rw [SecretsStore.retrieve, SecretsStore.retrieve, htoken]
  rfl

/-- Two stores that stand for the same secrets are read alike. -/
theorem Agrees.retrieve_congr {s t : SecretsStore FileId η} {m : String → Option (Secret η)}
    (h : Agrees P id s m) (h' : Agrees P id t m) (key : String) (token : τ) :
    s.retrieve P hashToken key token = t.retrieve P hashToken key token := by
  cases htoken : hashToken token with
  | error e =>
    cases hkey : m key with
    | none =>
      rw [SecretsStore.retrieve, SecretsStore.retrieve, h.missing key hkey, h'.missing key hkey]
    | some secret =>
      obtain ⟨entry, hentered⟩ := h.present key secret hkey
      obtain ⟨entry', hentered'⟩ := h'.present key secret hkey
      rw [SecretsStore.retrieve, SecretsStore.retrieve, hentered.found, hentered'.found, htoken]
  | ok hash =>
    rw [retrieve_hashed s key htoken, retrieve_hashed t key htoken]
    cases hkey : m key with
    | none => rw [h.retrieve_missing hkey, h'.retrieve_missing hkey]
    | some secret =>
      rw [h.retrieve_present Function.injective_id hkey,
        h'.retrieve_present Function.injective_id hkey]

/-- Whatever the hash, a single store stands for what has been stored. -/
theorem agrees_stored {events : List (Event FileId τ)} {s : SecretsStore FileId η}
    (hrun : Run (Step P L hashToken) new events s) (hplain : ∀ e ∈ events, e.Plain) :
    Agrees P id s (storedSecrets hashToken (events.filterMap Event.stored?)) := by
  induction hrun with
  | nil => exact agrees_new
  | @snoc events s t event _ hstep ih =>
    have hagrees := ih fun e he => hplain e (List.mem_append_left _ he)
    have hlast := hplain event (List.mem_append_right _ (List.mem_singleton_self _))
    -- a call that stores nothing leaves the stores and the secrets as they are
    cases hstep with
    | @store key value token fileId hfresh =>
      have hstored : (.store key value token : Event FileId τ).stored? = some (key, value, token) :=
        rfl
      rw [filterMap_concat_some events hstored, storedSecrets_concat]
      exact hagrees.store_hashed hfresh ..
    | retrieve =>
      rw [filterMap_concat_none _ rfl]
      exact hagrees
    | share => exact hlast.elim
    | rotate _ => exact hlast.elim
    | revoke => exact hlast.elim
    | keysFor =>
      rw [filterMap_concat_none _ rfl]
      exact hagrees
    | hop =>
      rw [filterMap_concat_none _ rfl]
      exact hagrees.hop ..

end SecretsStore

namespace ReplicatedSecretsStore

open SecretsStore (Secret hashing storeSecret storedSecrets storedSecrets_concat
  filterMap_concat_some filterMap_concat_none)

variable {FileId τ η : Type*}

/-! ### Several stores -/

theorem alive_iff (s : ReplicatedSecretsStore FileId η) (i : ℕ) :
    s.alive[i]? = some true ↔ ∃ replica, s.replicas[i]? = some (some replica) := by
  rw [s.alive_eq, List.getElem?_map]
  cases s.replicas[i]? with
  | none => simp
  | some replica => cases replica <;> simp

/-- What is left after a kill was there before. -/
theorem replica_killReplica {s : ReplicatedSecretsStore FileId η} {index : ℤ} {i : ℕ}
    {replica : SecretsStore FileId η}
    (h : (s.killReplica index).1.replicas[i]? = some (some replica)) :
    s.replicas[i]? = some (some replica) := by
  unfold killReplica at h
  split at h
  · exact h
  · rename_i k _
    change (s.replicas.set k none)[i]? = _ at h
    by_cases hk : k = i
    · rw [hk, List.getElem?_set] at h
      simp at h
    · rwa [List.getElem?_set_ne hk] at h

variable [DecidableEq FileId] {P : Primitives} {L : Libraries} {hashToken : τ → Except PyError η}

/-- Every replica that is left stands for the secrets. -/
def Agree (P : Primitives) (s : ReplicatedSecretsStore FileId η)
    (m : String → Option (Secret η)) : Prop :=
  ∀ (i : ℕ) (replica : SecretsStore FileId η), s.replicas[i]? = some (some replica) →
    replica.Agrees P id m

variable {s t : ReplicatedSecretsStore FileId η} {m : String → Option (Secret η)}

theorem agree_new (replicaCount : ℕ) :
    (new replicaCount : ReplicatedSecretsStore FileId η).Agree P fun _ => none := by
  intro i replica hreplica
  obtain ⟨-, heq⟩ := List.mem_replicate.mp (List.mem_of_getElem? hreplica)
  obtain rfl := Option.some.inj heq
  exact SecretsStore.agrees_new

theorem replica_fall {i j : ℕ} {fileId : FileId} {piece : Piece} {replica : SecretsStore FileId η}
    (h : (s.fall j fileId piece).replicas[i]? = some (some replica)) :
    ∃ old, s.replicas[i]? = some (some old) ∧
      (replica = old ∨ replica = { old with vs := old.vs.fall fileId piece }) := by
  change (s.replicas.modify j _)[i]? = _ at h
  rw [List.getElem?_modify] at h
  obtain ⟨old, hold, hmap⟩ := Option.map_eq_some_iff.mp h
  by_cases hj : j = i
  · rw [if_pos hj] at hmap
    obtain ⟨r, rfl, rfl⟩ := Option.map_eq_some_iff.mp hmap
    exact ⟨r, hold, Or.inr rfl⟩
  · rw [if_neg hj] at hmap
    exact ⟨replica, hold.trans (congrArg some hmap), Or.inl rfl⟩

/-- With a token that can be encoded, every replica that is there is written. -/
theorem storeLoop_ok {token : τ} {hash : η} (htoken : hashToken token = .ok hash) (key : String)
    (value : Bytes) (fileIds : ℕ → FileId) (i : ℕ)
    (replicas : List (Option (SecretsStore FileId η))) :
    storeLoop P L hashToken key value token fileIds i (replicas.zip (replicas.map Option.isSome)) =
      (replicas.mapIdx fun j => Option.map fun replica =>
        (replica.store P L hashToken key value token (fileIds (i + j))).1, .ok ()) := by
  induction replicas generalizing i with
  | nil => rfl
  | cons replica replicas ih =>
    have hindex : ∀ j, i + 1 + j = i + (j + 1) := fun j => by omega
    rw [List.mapIdx_cons, List.map_cons, List.zip_cons_cons]
    cases replica with
    | none =>
      simp only [storeLoop, Option.isSome_none, ih, hindex]
      rfl
    | some replica =>
      have hstore : (replica.store P L hashToken key value token (fileIds i)).2 = .ok () := by
        rw [SecretsStore.store, htoken]
      simp only [storeLoop, Option.isSome_some, if_pos, ih, hindex]
      rw [← Prod.eta (replica.store P L hashToken key value token (fileIds i)), hstore]
      rfl

/-- With one that cannot, the first replica that is there saves a file, and raises. -/
theorem storeLoop_error {token : τ} {e : PyError} (htoken : hashToken token = .error e)
    (key : String) (value : Bytes) (fileIds : ℕ → FileId) (i : ℕ)
    (replicas : List (Option (SecretsStore FileId η))) :
    storeLoop P L hashToken key value token fileIds i (replicas.zip (replicas.map Option.isSome)) =
      match replicas.findIdx? Option.isSome with
      | none => (replicas, .ok ())
      | some j => (replicas.modify j (Option.map fun replica =>
          (replica.store P L hashToken key value token (fileIds (i + j))).1), .error (.py e)) := by
  have hfst : ∀ replicas : List (Option (SecretsStore FileId η)),
      (replicas.zip (replicas.map Option.isSome)).map Prod.fst = replicas := by
    intro replicas
    exact List.map_fst_zip (by rw [List.length_map])
  induction replicas generalizing i with
  | nil => rfl
  | cons replica replicas ih =>
    have hindex : ∀ j, i + 1 + j = i + (j + 1) := fun j => by omega
    rw [List.map_cons, List.zip_cons_cons, List.findIdx?_cons]
    cases replica with
    | none =>
      simp only [storeLoop, Option.isSome_none, ih, hindex]
      cases replicas.findIdx? Option.isSome with
      | none => rfl
      | some j => rfl
    | some replica =>
      have hstore : (replica.store P L hashToken key value token (fileIds i)).2 = .error (.py e) := by
        rw [SecretsStore.store, htoken]
      simp only [storeLoop, Option.isSome_some, if_pos, hfst]
      rw [← Prod.eta (replica.store P L hashToken key value token (fileIds i)), hstore]
      rfl

theorem replicas_store_ok {token : τ} {hash : η} (htoken : hashToken token = .ok hash)
    (s : ReplicatedSecretsStore FileId η) (key : String) (value : Bytes) (fileIds : ℕ → FileId) :
    (s.store P L hashToken key value token fileIds).1.replicas =
      s.replicas.mapIdx fun i => Option.map fun replica =>
        (replica.store P L hashToken key value token (fileIds i)).1 := by
  show (storeLoop P L hashToken key value token fileIds 0 (s.replicas.zip s.alive)).1 = _
  rw [s.alive_eq, storeLoop_ok htoken]
  simp only [Nat.zero_add]

theorem replicas_store_error {token : τ} {e : PyError} (htoken : hashToken token = .error e)
    (s : ReplicatedSecretsStore FileId η) (key : String) (value : Bytes) (fileIds : ℕ → FileId) :
    (s.store P L hashToken key value token fileIds).1.replicas =
      match s.replicas.findIdx? Option.isSome with
      | none => s.replicas
      | some i => s.replicas.modify i (Option.map fun replica =>
          (replica.store P L hashToken key value token (fileIds i)).1) := by
  show (storeLoop P L hashToken key value token fileIds 0 (s.replicas.zip s.alive)).1 = _
  rw [s.alive_eq, storeLoop_error htoken]
  cases s.replicas.findIdx? Option.isSome with
  | none => rfl
  | some i => simp only [Nat.zero_add]

/-- What is there after a write was there before, and has been written as the token says, or
has been left alone because the token has no hash. -/
theorem replica_store {key : String} {value : Bytes} {token : τ} {fileIds : ℕ → FileId} {i : ℕ}
    {replica : SecretsStore FileId η}
    (h : (s.store P L hashToken key value token fileIds).1.replicas[i]? = some (some replica)) :
    ∃ old, s.replicas[i]? = some (some old) ∧
      (replica = (old.store P L hashToken key value token (fileIds i)).1 ∨
        replica = old ∧ ∃ e, hashToken token = .error e) := by
  cases htoken : hashToken token with
  | ok hash =>
    rw [replicas_store_ok htoken, List.getElem?_mapIdx] at h
    obtain ⟨r, hr, hmap⟩ := Option.map_eq_some_iff.mp h
    obtain ⟨old, rfl, rfl⟩ := Option.map_eq_some_iff.mp hmap
    exact ⟨old, hr, Or.inl rfl⟩
  | error e =>
    rw [replicas_store_error htoken] at h
    cases hfirst : s.replicas.findIdx? Option.isSome with
    | none =>
      rw [hfirst] at h
      exact ⟨replica, h, Or.inr ⟨rfl, e, rfl⟩⟩
    | some j =>
      rw [hfirst] at h
      dsimp only at h
      rw [List.getElem?_modify] at h
      obtain ⟨r, hr, hmap⟩ := Option.map_eq_some_iff.mp h
      split at hmap
      · rename_i hij
        obtain ⟨old, rfl, rfl⟩ := Option.map_eq_some_iff.mp hmap
        exact ⟨old, hr, Or.inl (hij ▸ rfl)⟩
      · exact ⟨replica, hr.trans (congrArg some hmap), Or.inr ⟨rfl, e, rfl⟩⟩

variable [DecidableEq η]

/-- **Steps.**  The replicas that are left go on standing for the same secrets. -/
theorem Agree.step {events : List (Event FileId τ)} {event : Event FileId τ}
    (h : s.Agree P (storedSecrets hashToken (events.filterMap Event.stored?)))
    (hstep : Step P L hashToken s event t) :
    t.Agree P (storedSecrets hashToken ((events ++ [event]).filterMap Event.stored?)) := by
  cases hstep with
  | @store key value token fileIds hfresh =>
    have hstored : (.store key value token : Event FileId τ).stored? = some (key, value, token) :=
      rfl
    rw [filterMap_concat_some events hstored, storedSecrets_concat]
    intro i replica hreplica
    obtain ⟨old, hold, rfl | ⟨rfl, e, he⟩⟩ := replica_store hreplica
    · exact (h i old hold).store_hashed (hfresh i old hold) ..
    · rw [storeSecret, he]
      exact h i _ hold
  | retrieve =>
    rw [filterMap_concat_none _ rfl]
    exact h
  | kill =>
    rw [filterMap_concat_none _ rfl]
    exact fun i replica hreplica => h i replica (replica_killReplica hreplica)
  | hop =>
    rw [filterMap_concat_none _ rfl]
    intro i replica hreplica
    obtain ⟨old, hold, rfl | rfl⟩ := replica_fall hreplica
    · exact h i _ hold
    · exact (h i old hold).hop ..

/-! ### Reading -/

/-- When every replica that is asked gives one answer, so does the loop. -/
theorem retrieveLoop_eq {key : String} {token : τ} {answer : Except StoreError Bytes}
    {pairs : List (Option (SecretsStore FileId η) × Bool)}
    (hpairs : ∀ pair ∈ pairs, pair.2 = pair.1.isSome)
    (hanswer : ∀ replica, (some replica, true) ∈ pairs →
      replica.retrieve P hashToken key token = answer)
    (hsome : ∃ replica, (some replica, true) ∈ pairs) :
    retrieveLoop P hashToken key token pairs = answer := by
  by_cases hmissing : answer = .error (.py .keyError)
  · -- everyone is asked, in vain
    clear hsome
    induction pairs with
    | nil => exact hmissing.symm
    | cons pair pairs ih =>
      obtain ⟨hpair, hlater⟩ := List.forall_mem_cons.mp hpairs
      have hrest := ih hlater fun replica hr => hanswer replica (List.mem_cons_of_mem _ hr)
      obtain ⟨replica, alive⟩ := pair
      obtain rfl : alive = replica.isSome := hpair
      cases replica with
      | none => exact hrest
      | some replica =>
        rw [retrieveLoop, hanswer replica List.mem_cons_self, hmissing]
        exact hrest.trans hmissing
  · -- the first that is alive gives the answer
    induction pairs with
    | nil => exact absurd hsome (by simp)
    | cons pair pairs ih =>
      obtain ⟨hpair, hlater⟩ := List.forall_mem_cons.mp hpairs
      obtain ⟨replica, alive⟩ := pair
      obtain rfl : alive = replica.isSome := hpair
      cases replica with
      | none =>
        refine ih hlater (fun replica hr => hanswer replica (List.mem_cons_of_mem _ hr)) ?_
        obtain ⟨replica, hr⟩ := hsome
        exact ⟨replica, (List.mem_cons.mp hr).resolve_left (by simp)⟩
      | some replica =>
        rw [retrieveLoop, hanswer replica List.mem_cons_self]
        dsimp only [Option.isSome_some]
        rw [if_pos rfl]
        split
        · exact absurd rfl hmissing
        · rfl

/-- A read is a read of any replica that is left. -/
theorem Agree.retrieve_eq (h : s.Agree P m) {i : ℕ} {replica : SecretsStore FileId η}
    (hreplica : s.replicas[i]? = some (some replica)) (key : String) (token : τ) :
    s.retrieve P hashToken key token = replica.retrieve P hashToken key token := by
  have hzip : ∀ pair ∈ s.replicas.zip s.alive, ∃ j : ℕ,
      s.replicas[j]? = some pair.1 ∧ s.alive[j]? = some pair.2 := by
    intro pair hpair
    obtain ⟨j, hj⟩ := List.getElem?_of_mem hpair
    exact ⟨j, List.getElem?_zip_eq_some.mp hj⟩
  refine retrieveLoop_eq ?_ ?_ ⟨replica, ?_⟩
  · intro pair hpair
    obtain ⟨j, hj, halive⟩ := hzip pair hpair
    rw [s.alive_eq, List.getElem?_map, hj] at halive
    exact (Option.some.inj halive).symm
  · intro other hother
    obtain ⟨j, hj, -⟩ := hzip _ hother
    exact (h j other hj).retrieve_congr (h i replica hreplica) key token
  · have halive := (s.alive_iff i).mpr ⟨replica, hreplica⟩
    exact List.mem_of_getElem? (List.getElem?_zip_eq_some.mpr ⟨hreplica, halive⟩)

/-! ### Runs -/

theorem agree_run {replicaCount : ℕ} {events : List (Event FileId τ)}
    (hrun : Run (Step P L hashToken) (new replicaCount) events s) :
    s.Agree P (storedSecrets hashToken (events.filterMap Event.stored?)) := by
  refine hrun.history (I := fun events s =>
    s.Agree P (storedSecrets hashToken (events.filterMap Event.stored?)))
    (agree_new replicaCount) ?_
  intro events t event u ht hstep
  exact ht.step hstep

/-- Nobody comes back. -/
theorem alive_of_step {event : Event FileId τ} (hstep : Step P L hashToken s event t)
    (h : true ∈ t.alive) : true ∈ s.alive := by
  cases hstep with
  | store _ => exact h
  | retrieve => exact h
  | kill =>
    unfold killReplica at h
    split at h
    · exact h
    · exact (List.mem_or_eq_of_mem_set h).resolve_right (by decide)
  | hop => exact h

/-- **Reads of a run.**  If a replica is left at the end, every retrieval has ended like one
of any store that stands for what had been stored by then. -/
theorem retrieve_run {replicaCount : ℕ} {events : List (Event FileId τ)}
    (hrun : Run (Step P L hashToken) (new replicaCount) events s) (halive : true ∈ s.alive)
    {pre post : List (Event FileId τ)} {key : String} {token : τ}
    {outcome : Except StoreError Bytes}
    (hevents : events = pre ++ .retrieve key token outcome :: post) {r : SecretsStore FileId η}
    (hr : r.Agrees P id (storedSecrets hashToken (pre.filterMap Event.stored?))) :
    outcome = r.retrieve P hashToken key token := by
  induction hrun generalizing post with
  | nil => exact absurd hevents (by simp)
  | @snoc events s event t hrun hstep ih =>
    have hbefore := alive_of_step hstep halive
    rcases List.eq_nil_or_concat post with rfl | ⟨post, last, rfl⟩
    · -- the retrieval is the last event
      obtain ⟨rfl, hlast⟩ := List.append_inj' hevents rfl
      obtain rfl := List.singleton_inj.mp hlast
      cases hstep with
      | retrieve =>
        obtain ⟨i, hi⟩ := List.getElem?_of_mem halive
        obtain ⟨replica, hreplica⟩ := (s.alive_iff i).mp hi
        rw [(agree_run hrun).retrieve_eq hreplica]
        exact (agree_run hrun i replica hreplica).retrieve_congr hr key token
    · rw [List.concat_eq_append, ← List.cons_append, ← List.append_assoc] at hevents
      exact ih hbefore (List.append_inj' hevents rfl).1

/-- **Replication is transparent.**  In any run of calls in which a replica is never killed,
every retrieval returns or raises what a single store returns or raises after the same
stores. -/
theorem replication_transparent {replicaCount : ℕ} {events : List (Event FileId τ)}
    (hrun : Run (Step P L hashToken) (new replicaCount) events s) (halive : true ∈ s.alive)
    {pre post : List (Event FileId τ)} {key : String} {token : τ}
    {outcome : Except StoreError Bytes}
    (hevents : events = pre ++ .retrieve key token outcome :: post)
    {calls : List (SecretsStore.Event FileId τ)} {single : SecretsStore FileId η}
    (hsingle : Run (SecretsStore.Step P L hashToken) .new calls single)
    (hplain : ∀ call ∈ calls, call.Plain)
    (hstores : calls.filterMap SecretsStore.Event.stored? = pre.filterMap Event.stored?) :
    outcome = single.retrieve P hashToken key token := by
  refine retrieve_run hrun halive hevents ?_
  rw [← hstores]
  exact SecretsStore.agrees_stored hsingle hplain

/-- Two replicas, the first of which is killed after the store. -/
theorem replication_transparent_killed :
    ((((new 2 : ReplicatedSecretsStore ℕ String).store Primitives.sample Libraries.sample
      (hashing id) "db.pdf" [7] "alice" fun _ => 0).1.killReplica 0).1.retrieve Primitives.sample
      (hashing id) "db.pdf" "bob") =
    (SecretsStore.new.store Primitives.sample Libraries.sample (hashing id) "db.pdf" [7] "alice"
      0).1.retrieve Primitives.sample (hashing id) "db.pdf" "bob" := by
  have hfresh : ∀ (i : ℕ) (replica : SecretsStore ℕ String),
      (new 2 : ReplicatedSecretsStore ℕ String).replicas[i]? = some (some replica) →
        replica.vs.held.get? 0 = none := by
    intro i replica hreplica
    obtain ⟨-, heq⟩ := List.mem_replicate.mp (List.mem_of_getElem? hreplica)
    rw [Option.some.inj heq]
    rfl
  let two := ((new 2 : ReplicatedSecretsStore ℕ String).store Primitives.sample Libraries.sample
    (hashing id) "db.pdf" [7] "alice" fun _ => 0).1
  have hrun : Run (Step Primitives.sample Libraries.sample (hashing id)) (new 2)
      ([.store "db.pdf" [7] "alice", .kill 0] ++ .retrieve "db.pdf" "bob"
        ((two.killReplica 0).1.retrieve Primitives.sample (hashing id) "db.pdf" "bob") :: [])
      (two.killReplica 0).1 :=
    ((Run.single (Step.store hfresh)).snoc Step.kill).snoc Step.retrieve
  exact replication_transparent hrun (List.mem_cons_of_mem _ List.mem_cons_self) rfl
    (Run.single (SecretsStore.Step.store rfl)) (by simp [SecretsStore.Event.Plain]) rfl

/-- Two runs with the same stores, whatever is killed in either, answer alike. -/
theorem kills_unobservable {replicaCount replicaCount' : ℕ} {events events' : List (Event FileId τ)}
    (hrun : Run (Step P L hashToken) (new replicaCount) events s) (halive : true ∈ s.alive)
    (hrun' : Run (Step P L hashToken) (new replicaCount') events' t) (halive' : true ∈ t.alive)
    (hstores : events.filterMap Event.stored? = events'.filterMap Event.stored?)
    (key : String) (token : τ) :
    s.retrieve P hashToken key token = t.retrieve P hashToken key token := by
  obtain ⟨i, hi⟩ := List.getElem?_of_mem halive'
  obtain ⟨replica, hreplica⟩ := (t.alive_iff i).mp hi
  rw [(agree_run hrun').retrieve_eq hreplica]
  refine retrieve_run (hrun.snoc Step.retrieve) halive rfl ?_
  rw [hstores]
  exact agree_run hrun' i replica hreplica

end ReplicatedSecretsStore
