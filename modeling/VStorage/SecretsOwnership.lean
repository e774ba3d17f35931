/-
`secrets_api.py`: what the owner of a secret can count on.

`share`, `rotate` and `revoke` compare the token with the owner's; `store` does not, and
replaces whatever is under the key.  So a secret is safe from other tokens exactly as long
as none of them stores under its key.

* `kept_iff`: through calls by other tokens, the owner keeps the key, its value and its
  grants if and only if none of the calls is a store under the key.
* `foreign_store_takes`: one such store takes the key away.
-/
import Mathlib
import VStorage.SecretsStore

namespace SecretsStore

variable {FileId τ η : Type*}

/-- The token by which a call changes something. -/
def Event.credential : Event FileId τ → Option τ
  | .store _ _ token | .share _ token _ | .rotate _ _ token | .revoke _ token => some token
  | .retrieve _ _ | .keysFor _ | .hop _ _ => none

/-- The key is there, and the token owns it. -/
def Owns (hash : τ → η) (key : String) (owner : τ) (s : SecretsStore FileId η) : Prop :=
  ∃ entry, s.entries.get? key = some entry ∧ entry.ownerTokenHash = hash owner

/-- The key has been shared with the token. -/
def Grants (hash : τ → η) (key : String) (token : τ) (s : SecretsStore FileId η) : Prop :=
  ∃ hashes, s.sharedWith.get? key = some hashes ∧ hash token ∈ hashes

/-- What the owner had at `s` is there at `t`: the key, its value and its grants. -/
structure Kept [DecidableEq FileId] [DecidableEq η] (P : Primitives) (hash : τ → η)
    (key : String) (owner : τ) (s t : SecretsStore FileId η) : Prop where
  owned : t.Owns hash key owner
  value : t.retrieve P (hashing hash) key owner = s.retrieve P (hashing hash) key owner
  granted : ∀ token, s.Grants hash key token → t.Grants hash key token

/-! ### The map, through calls by other tokens -/

section Foreign

variable {m : String → Option (Secret τ)} {key k : String} {token owner : τ}
  {secret : Secret τ} {event : Event FileId τ} {later : List (Event FileId τ)}

/-- The token does not own the key. -/
def NotOwned (key : String) (owner : τ) (m : String → Option (Secret τ)) : Prop :=
  ∀ secret, m key = some secret → secret.owner ≠ owner

theorem notOwned_store (m : String → Option (Secret τ)) (value : Bytes) (hne : token ≠ owner) :
    NotOwned key owner (Function.update m key (some ⟨value, token, ∅⟩)) := by
  intro secret hsecret
  rw [Function.update_self] at hsecret
  obtain rfl := Option.some.inj hsecret
  exact hne

variable [DecidableEq τ]

/-- What a call on behalf of an owner does, key by key. -/
theorem onBehalf_apply (f : Secret τ → Option (Secret τ)) (m : String → Option (Secret τ)) :
    onBehalf key token f m k =
      if k = key then (m k).bind fun secret => if token = secret.owner then f secret else some secret
      else m k := by
  by_cases hk : k = key
  · subst hk
    rw [if_pos rfl]
    cases hkey : m k with
    | none => rw [onBehalf_of_missing f hkey, hkey, Option.bind_none]
    | some secret =>
      rw [Option.bind_some]
      by_cases htoken : token = secret.owner
      · rw [onBehalf_of_owner f hkey htoken, Function.update_self, if_pos htoken]
      · rw [onBehalf_of_ne f hkey htoken, hkey, if_neg htoken]
  · rw [if_neg hk, onBehalf]
    cases m key with
    | none => rfl
    | some secret =>
      dsimp only
      split
      · exact Function.update_of_ne hk ..
      · rfl

/-- A guarded call by another token changes nothing. -/
theorem onBehalf_foreign (f : Secret τ → Option (Secret τ)) (hkey : m k = some secret)
    (htoken : token ≠ secret.owner) : onBehalf key token f m k = some secret := by
  rw [onBehalf_apply, hkey]
  split
  · exact if_neg htoken
  · rfl

/-- A guarded call makes nobody an owner. -/
theorem NotOwned.onBehalf {f : Secret τ → Option (Secret τ)} (h : NotOwned k owner m)
    (hf : ∀ secret secret', f secret = some secret' → secret'.owner = secret.owner) :
    NotOwned k owner (onBehalf key token f m) := by
  intro secret' hsecret'
  rw [onBehalf_apply] at hsecret'
  split at hsecret'
  · obtain ⟨secret, hkey, hsome⟩ := Option.bind_eq_some_iff.mp hsecret'
    split at hsome
    · exact hf secret secret' hsome ▸ h secret hkey
    · exact Option.some.inj hsome ▸ h secret hkey
  · exact h secret' hsecret'

/-- **Kept.**  Only a store under the key gets past its owner. -/
theorem Event.apply_foreign (hkey : m key = some secret)
    (hforeign : event.credential ≠ some secret.owner)
    (hstore : ∀ value token, event ≠ .store key value token) :
    event.apply m key = some secret := by
  cases event with
  | store key' value token =>
    have hne : key ≠ key' := by
      rintro rfl
      exact hstore value token rfl
    exact (Function.update_of_ne hne ..).trans hkey
  | retrieve | keysFor | hop => exact hkey
  | share key' token grantee => exact onBehalf_foreign _ hkey fun heq => hforeign (congrArg some heq)
  | rotate key' value token => exact onBehalf_foreign _ hkey fun heq => hforeign (congrArg some heq)
  | revoke key' token => exact onBehalf_foreign _ hkey fun heq => hforeign (congrArg some heq)

/-- **Lost.**  Once somebody else has the key, other tokens do not give it back. -/
theorem NotOwned.apply (h : NotOwned key owner m) (hforeign : event.credential ≠ some owner) :
    NotOwned key owner (event.apply m) := by
  cases event with
  | store key' value token =>
    have hne : token ≠ owner := fun heq => hforeign (congrArg some heq)
    by_cases hkey : key = key'
    · subst hkey
      exact notOwned_store m value hne
    · intro secret hsecret
      exact h secret ((Function.update_of_ne hkey ..).symm.trans hsecret)
  | retrieve | keysFor | hop => exact h
  | share key' token grantee =>
    refine h.onBehalf fun secret secret' hsome => ?_
    obtain rfl := Option.some.inj hsome
    rfl
  | rotate key' value token =>
    refine h.onBehalf fun secret secret' hsome => ?_
    obtain rfl := Option.some.inj hsome
    rfl
  | revoke key' token => exact h.onBehalf fun _ _ hsome => nomatch hsome

theorem foldl_foreign (hkey : m key = some secret)
    (hforeign : ∀ event ∈ later, event.credential ≠ some secret.owner)
    (hstore : ∀ value token, Event.store key value token ∉ later) :
    later.foldl (fun m event => event.apply m) m key = some secret := by
  induction later generalizing m with
  | nil => exact hkey
  | cons event later ih =>
    obtain ⟨hevent, hlater⟩ := List.forall_mem_cons.mp hforeign
    have hnot : ∀ value token, event ≠ .store key value token := fun value token heq =>
      hstore value token (heq ▸ List.mem_cons_self)
    exact ih (Event.apply_foreign hkey hevent hnot) hlater fun value token hmem =>
      hstore value token (List.mem_cons_of_mem event hmem)

theorem NotOwned.foldl (h : NotOwned key owner m)
    (hforeign : ∀ event ∈ later, event.credential ≠ some owner) :
    NotOwned key owner (later.foldl (fun m event => event.apply m) m) := by
  induction later generalizing m with
  | nil => exact h
  | cons event later ih =>
    obtain ⟨hevent, hlater⟩ := List.forall_mem_cons.mp hforeign
    exact ih (h.apply hevent) hlater

theorem notOwned_of_store {value : Bytes} (hmem : Event.store key value token ∈ later)
    (hforeign : ∀ event ∈ later, event.credential ≠ some owner) :
    NotOwned key owner (later.foldl (fun m event => event.apply m) m) := by
  have hne : token ≠ owner := fun heq => hforeign _ hmem (congrArg some heq)
  obtain ⟨earlier, rest, rfl⟩ := List.append_of_mem hmem
  rw [List.foldl_append, List.foldl_cons]
  have hstored : NotOwned key owner ((Event.store key value token : Event FileId τ).apply
      (earlier.foldl (fun m event => event.apply m) m)) := notOwned_store _ value hne
  exact hstored.foldl fun event hevent =>
    hforeign event (List.mem_append_right earlier (List.mem_cons_of_mem _ hevent))

end Foreign

/-! ### The store -/

section Store

variable [DecidableEq FileId] {P : Primitives} {L : Libraries}
  {hash : τ → η} {s t : SecretsStore FileId η} {m m' : String → Option (Secret τ)}
  {key : String} {owner token : τ} {secret : Secret τ}

theorem Agrees.owned_iff (h : Agrees P hash s m) (hinj : Function.Injective hash) :
    s.Owns hash key owner ↔ ∃ secret, m key = some secret ∧ secret.owner = owner := by
  constructor
  · rintro ⟨entry, hentry, howner⟩
    obtain ⟨secret, hkey, hentered⟩ := h.of_entry hentry
    exact ⟨secret, hkey, ((hentered.isOwner hinj).mp howner.symm).symm⟩
  · rintro ⟨secret, hkey, rfl⟩
    obtain ⟨entry, hentered⟩ := h.present key secret hkey
    exact ⟨entry, hentered.found, hentered.owner⟩

theorem Agrees.grants_iff (h : Agrees P hash s m) (hkey : m key = some secret) :
    s.Grants hash key token ↔ token ∈ secret.granted := by
  obtain ⟨entry, hentered⟩ := h.present key secret hkey
  obtain ⟨hashes, hhashes, hgranted⟩ := hentered.shared
  refine Iff.trans ⟨?_, fun hmem => ⟨hashes, hhashes, hmem⟩⟩ (hgranted token)
  rintro ⟨hashes', hhashes', hmem⟩
  obtain rfl := Option.some.inj (hhashes.symm.trans hhashes')
  exact hmem

variable [DecidableEq η]

/-- Two stores that stand for the same secret under a key do the same for its owner. -/
theorem Agrees.kept (h : Agrees P hash s m) (h' : Agrees P hash t m')
    (hinj : Function.Injective hash) (hkey : m key = some secret)
    (hkey' : m' key = some secret) : Kept P hash key secret.owner s t where
  owned := (h'.owned_iff hinj).mpr ⟨secret, hkey', rfl⟩
  value := (h'.retrieve_present hinj hkey' _).trans (h.retrieve_present hinj hkey _).symm
  granted _ hgrants := (h'.grants_iff hkey').mpr ((h.grants_iff hkey).mp hgrants)

/-- **Ownership.**  Through calls by other tokens, the owner of a key keeps it, its value and
its grants exactly when none of the calls stores under the key. -/
theorem kept_iff [DecidableEq τ] (hinj : Function.Injective hash)
    {events later : List (Event FileId τ)} (hrun : Run (Step P L (hashing hash)) new events s)
    (howner : s.Owns hash key owner) (hlater : Run (Step P L (hashing hash)) s later t)
    (hforeign : ∀ event ∈ later, event.credential ≠ some owner) :
    Kept P hash key owner s t ↔ ∀ value token, Event.store key value token ∉ later := by
  have hs := agrees_run hinj hrun
  have ht := agrees_run hinj (hrun.trans hlater)
  rw [secrets_append] at ht
  constructor
  · intro hkept value token hmem
    obtain ⟨secret, hkey, heq⟩ := (ht.owned_iff hinj).mp hkept.owned
    exact notOwned_of_store hmem hforeign secret hkey heq
  · intro hstore
    obtain ⟨secret, hkey, rfl⟩ := (hs.owned_iff hinj).mp howner
    exact hs.kept ht hinj hkey (foldl_foreign hkey hforeign hstore)

/-- Mallory's attempts, short of a store. -/
theorem kept_iff_attempts :
    let P := Primitives.sample
    let L := Libraries.sample
    let s := ((new : SecretsStore ℕ String).store P L (hashing id) "db" [1] "alice" 0).1
    let t := (((s.share (hashing id) "db" "mallory" "mallory").1.rotate P L (hashing id) "db" [2]
      "mallory" 1).1.revoke (hashing id) "db" "mallory").1
    let later : List (Event ℕ String) :=
      [.share "db" "mallory" "mallory", .rotate "db" [2] "mallory", .revoke "db" "mallory"]
    Kept P id "db" "alice" s t ↔ ∀ value token, Event.store "db" value token ∉ later :=
  kept_iff Function.injective_id ((Run.refl _ _).snoc (Step.store rfl)) ⟨_, rfl, rfl⟩
    ((((Run.refl _ _).snoc Step.share).snoc (Step.rotate rfl)).snoc Step.revoke) (by decide)

/-- A store under a key that has an owner takes the key away. -/
theorem foreign_store_takes :
    let P := Primitives.sample
    let L := Libraries.sample
    let s := ((new : SecretsStore ℕ String).store P L (hashing id) "db" [1] "alice" 0).1
    let t := (s.store P L (hashing id) "db" [2] "mallory" 1).1
    let later : List (Event ℕ String) := [.store "db" [2] "mallory"]
    Run (Step P L (hashing id)) new [.store "db" [1] "alice"] s ∧ s.Owns id "db" "alice" ∧
      Run (Step P L (hashing id)) s later t ∧ (∀ event ∈ later, event.credential ≠ some "alice") ∧
      s.retrieve P (hashing id) "db" "alice" = .ok [1] ∧
      t.retrieve P (hashing id) "db" "alice" = .error .authError ∧
      ¬Kept P id "db" "alice" s t := by
  refine ⟨(Run.refl _ _).snoc (Step.store rfl), ⟨_, rfl, rfl⟩,
    (Run.refl _ _).snoc (Step.store rfl), by decide, ?_, ?_, ?_⟩
  · decide +kernel
  · decide +kernel
  · rintro ⟨⟨entry, hentry, howner⟩, -, -⟩
    obtain rfl := Option.some.inj hentry
    exact absurd howner (by decide)

end Store

end SecretsStore
