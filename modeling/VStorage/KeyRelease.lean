/-
`retrieve_to_destination` and `redeem_key` of `secure_system.py`: files that leave under a
key of their own, and the key that follows them.

Any number of calls run at once, each through its own `open`, writes, `flush` and `fsync`,
all of which may fail; what they share is the table of pending keys under its lock, and
the clock.

* `Inv.step`: a token in the table belongs to one call, which had written and synced its
  whole file under the key in the table before it drew the token.
* `pending_of_run`: an entry leaves the table by the redemption of its own token, or when
  its time has passed.
-/
import Mathlib
import VStorage.Json
import VStorage.WrappedFile

namespace KeyRelease

/-! ### The table of pending keys -/

structure Entry (τ : Type*) where
  key : Bytes
  expiresAt : τ

/-- What `redeem_key` does: it returns a key or raises. -/
inductive Redemption
  | key (k : Bytes)
  | keyError
  | timeoutError

section Table

variable {Token τ : Type*} [LinearOrder τ]

/-- `_sweep_expired_tokens_locked`. -/
def sweep (now : τ) (pending : Token → Option (Entry τ)) : Token → Option (Entry τ) :=
  fun token => (pending token).filter fun entry => ¬ entry.expiresAt < now

/-- The critical section of `retrieve_to_destination`. -/
def issue [DecidableEq Token] (now : τ) (token : Token) (entry : Entry τ)
    (pending : Token → Option (Entry τ)) : Token → Option (Entry τ) :=
  Function.update (sweep now pending) token (some entry)

/-- What a sweep leaves was there before. -/
theorem sweep_eq_some {now : τ} {pending : Token → Option (Entry τ)} {token : Token}
    {entry : Entry τ} :
    sweep now pending token = some entry ↔
      pending token = some entry ∧ now ≤ entry.expiresAt := by
  simp [sweep, Option.filter_eq_some_iff]

/-- `redeem_key`. -/
def redeemKey [DecidableEq Token] (now : τ) (token : Token)
    (pending : Token → Option (Entry τ)) : (Token → Option (Entry τ)) × Redemption :=
  match pending token with
  | none => (pending, .keyError)
  | some entry =>
    if now > entry.expiresAt then (Function.update pending token none, .timeoutError)
    else (Function.update pending token none, .key entry.key)

theorem redeemKey_cases [DecidableEq Token] (now : τ) (token : Token)
    (pending : Token → Option (Entry τ)) :
    pending token = none ∧ redeemKey now token pending = (pending, .keyError) ∨
      ∃ entry, pending token = some entry ∧
        (entry.expiresAt < now ∧
            redeemKey now token pending = (Function.update pending token none, .timeoutError) ∨
          now ≤ entry.expiresAt ∧
            redeemKey now token pending = (Function.update pending token none, .key entry.key)) := by
  cases hentry : pending token with
  | none => exact Or.inl ⟨rfl, by rw [redeemKey, hentry]⟩
  | some entry =>
    refine Or.inr ⟨entry, rfl, ?_⟩
    rcases lt_or_ge entry.expiresAt now with hlt | hle
    · exact Or.inl ⟨hlt, by rw [redeemKey, hentry]; exact if_pos hlt⟩
    · exact Or.inr ⟨hle, by rw [redeemKey, hentry]; exact if_neg (not_lt.mpr hle)⟩

end Table

/-! ### Calls -/

inductive Trust
  | trusted
  | untrusted
  | hostile
  | unknown
  deriving DecidableEq

inductive Piece
  | content
  | layout
  | metadata
  | unknown
  deriving DecidableEq

/-- A box that was made from `data`. -/
structure Stored (P : Primitives) where
  data : Bytes
  box : ChunkedSecureBox
  built : ∃ source env chunkSize trustGroup onNewGuard,
    ChunkedSecureBox.construct source P env data chunkSize trustGroup onNewGuard = .ok box

/-- `_Held`. -/
structure Held (P : Primitives) where
  boxes : Piece → Option (Stored P)
  reconstructFrom : Piece

/-- The arguments of `retrieve_to_destination`; `which` is `none` for "full". -/
structure Request (FileId τ : Type*) where
  fileId : FileId
  destPath : PyStr
  trust : Trust
  which : Option Piece
  tokenTtl : τ

/-- `RetrievalReceipt`. -/
structure Receipt (Token τ : Type*) where
  destPath : PyStr
  trust : Trust
  key : Option Bytes
  token : Option Token
  expiresAt : Option τ

/-- Where a call is. -/
inductive Pc (Token τ : Type*)
  | called
  | streamed
  | flushed
  | synced
  | closed
  | drawn
  | returned (receipt : Receipt Token τ)
  | raised (e : PyError)

/-- A call: where it is, its `transit_key`, what it has handed to `f.write`, whether
`os.fsync` has returned, and its `token` with `expires_at`. -/
structure Call (Token τ : Type*) where
  pc : Pc Token τ
  transitKey : Bytes
  written : List Bytes
  synced : Bool
  token : Option (Token × τ)

/-- A call that has not begun. -/
def Call.start (Token τ : Type*) : Call Token τ := ⟨.called, [], [], false, none⟩

/-- `self._held[file_id].boxes[which]`. -/
def lookup {P : Primitives} {FileId τ : Type*} (held : FileId → Option (Held P))
    (r : Request FileId τ) : Except PyError (Stored P) :=
  match held r.fileId with
  | none => .error .keyError
  | some file =>
    match file.boxes (r.which.getD file.reconstructFrom) with
    | none => .error .keyError
    | some stored => .ok stored

/-! ### What a call has done -/

section Calls

variable {P : Primitives} {FileId Token τ : Type*} {held : FileId → Option (Held P)}

/-- A loop that returns has had every `write` return. -/
theorem streamLoop_ok {pools : List ChunkPool} {keys : Bytes × Bytes}
    {wrap : ℕ → Bytes → Except PyError Bytes} {write : ℕ → Except PyError Unit}
    {entries : List (Chunk × Bool)} {i remaining : ℕ} {written : List Bytes}
    (h : ChunkedSecureBox.streamLoop P pools keys wrap write entries i remaining
      = (written, .ok ())) :
    ChunkedSecureBox.streamLoop P pools keys wrap (fun _ => .ok ()) entries i remaining
      = (written, .ok ()) := by
  induction entries generalizing i remaining written with
  | nil => exact h
  | cons entry entries ih =>
    rw [ChunkedSecureBox.streamLoop] at h ⊢
    by_cases hz : remaining = 0
    · rwa [if_pos hz] at h ⊢
    rw [if_neg hz] at h ⊢
    cases hopen : ChunkedSecureBox.openEntry P pools keys entry with
    | error e =>
      rw [hopen] at h
      cases (Prod.mk.inj h).2
    | ok plaintext =>
      rw [hopen] at h
      dsimp only at h ⊢
      cases hwrap : wrap i (plaintext.take (min entry.1.plainLen remaining)) with
      | error e =>
        rw [hwrap] at h
        cases (Prod.mk.inj h).2
      | ok out =>
        rw [hwrap] at h
        dsimp only at h ⊢
        cases hwrite : write i with
        | error e =>
          rw [hwrite] at h
          cases (Prod.mk.inj h).2
        | ok =>
          rw [hwrite] at h
          obtain ⟨rfl, hok⟩ := Prod.mk.inj h
          rw [ih (Prod.ext rfl hok)]

theorem streamToWrapped_writes {box : ChunkedSecureBox} {between : List (ℕ × ℕ)} {key : Bytes}
    {nonces : ℕ → Nonce} {write : ℕ → Except PyError Unit} {written : List Bytes}
    (h : (box.streamToWrapped P between key nonces write).2 = (written, .ok ())) :
    (box.streamToWrapped P between key nonces fun _ => .ok ()).2 = (written, .ok ()) := by
  unfold ChunkedSecureBox.streamToWrapped ChunkedSecureBox.stream at h ⊢
  split at h
  · exact nomatch (Prod.mk.inj h).2
  · exact streamLoop_ok h

/-- A wrapped retrieval that returns has written the whole piece, from any box that can be
read. -/
theorem Stored.wrapped (stored : Stored P) {box : ChunkedSecureBox}
    (hreach : ChunkedSecureBox.Reached P stored.box box) {between : List (ℕ × ℕ)} {key : Bytes}
    {nonces : ℕ → Nonce} {write : ℕ → Except PyError Unit} {written : List Bytes}
    (h : (box.streamToWrapped P between key nonces write).2 = (written, .ok ())) :
    ∃ pieces fs, pieces.flatten = stored.data ∧ fs.map Frame.bytes = written ∧
      List.Forall₂ (Frame.Carries P key) pieces fs := by
  obtain ⟨source, env, chunkSize, trustGroup, onNewGuard, hbuilt⟩ := stored.built
  obtain ⟨plains, ck, nk, hdata, -, hold, hne⟩ := ChunkedSecureBox.construct_ok hbuilt
  obtain ⟨_, _, hold'⟩ := hreach.holds ⟨ck, nk, hold, hne⟩
  obtain ⟨fs, hfs, hcarries⟩ := hold'.streamToWrapped_ok (streamToWrapped_writes h)
  refine ⟨ChunkedSecureBox.upToEnd plains, fs, ?_, hfs, hcarries⟩
  rw [ChunkedSecureBox.flatten_upToEnd, hdata]

/-- The call has written the whole piece it was asked for, in frames under its key. -/
def Departed (held : FileId → Option (Held P)) (r : Request FileId τ) (call : Call Token τ) :
    Prop :=
  ∃ stored pieces fs, lookup held r = .ok stored ∧ pieces.flatten = stored.data ∧
    fs.map Frame.bytes = call.written ∧
    List.Forall₂ (Frame.Carries P call.transitKey) pieces fs

/-- What a receipt says about the call. -/
def Receipt.Of (held : FileId → Option (Held P)) (r : Request FileId τ) (call : Call Token τ)
    (receipt : Receipt Token τ) : Prop :=
  receipt.key = none ∧ receipt.token = none ∧ call.token = none ∨
    call.synced = true ∧ Departed held r call ∧
      (receipt.key = some call.transitKey ∧ receipt.token = none ∧ call.token = none ∨
        receipt.key = none ∧ ∃ token expiresAt, call.token = some (token, expiresAt) ∧
          receipt.token = some token ∧ receipt.expiresAt = some expiresAt)

/-- What is true of a call, by where it is. -/
def CallInv (held : FileId → Option (Held P)) (r : Request FileId τ) (call : Call Token τ) :
    Prop :=
  match call.pc with
  | .called => call.synced = false ∧ call.token = none
  | .streamed | .flushed => call.synced = false ∧ call.token = none ∧ Departed held r call
  | .synced | .closed => call.synced = true ∧ call.token = none ∧ Departed held r call
  | .drawn => call.synced = true ∧ Departed held r call ∧
      ∃ token expiresAt, call.token = some (token, expiresAt)
  | .returned receipt => receipt.Of held r call
  | .raised _ => call.token = none

/-- A call with a token has departed. -/
theorem CallInv.token {r : Request FileId τ} {call : Call Token τ} (h : CallInv held r call)
    {token : Token} {expiresAt : τ} (htoken : call.token = some (token, expiresAt)) :
    call.synced = true ∧ Departed held r call := by
  unfold CallInv at h
  split at h
  · exact nomatch h.2.symm.trans htoken
  · exact nomatch h.2.1.symm.trans htoken
  · exact nomatch h.2.1.symm.trans htoken
  · exact nomatch h.2.1.symm.trans htoken
  · exact nomatch h.2.1.symm.trans htoken
  · exact ⟨h.1, h.2.1⟩
  · rcases h with ⟨-, -, hnone⟩ | ⟨hsynced, hdep, -⟩
    · exact nomatch hnone.symm.trans htoken
    · exact ⟨hsynced, hdep⟩
  · exact nomatch h.symm.trans htoken

end Calls

/-! ### Runs -/

structure Vault (ι Token τ : Type*) where
  now : τ
  pending : Token → Option (Entry τ)
  calls : ι → Call Token τ

inductive Label (ι Token τ : Type*)
  | tick
  | call (c : ι)
  | redeem (token : Token) (result : Redemption) (now : τ)

section Invariant

variable {P : Primitives} {ι FileId Token τ : Type*}

/-- A call that has not come to its end. -/
def Pc.Live : Pc Token τ → Prop
  | .returned _ => False
  | .raised _ => False
  | _ => True

/-- The call has returned, with this token, key and expiry. -/
def Issued (s : Vault ι Token τ) (c : ι) (token : Token) (key : Bytes) (expiresAt : τ) : Prop :=
  (s.calls c).token = some (token, expiresAt) ∧ (s.calls c).transitKey = key ∧
    ¬ (s.calls c).pc.Live

variable [DecidableEq Token]

/-- A redemption that returns a key. -/
def Label.Redeems (token : Token) : Label ι Token τ → Bool
  | .redeem token' (.key _) _ => token' = token
  | _ => false

theorem countP_call (as : List (Label ι Token τ)) (c : ι) (token : Token) :
    (as ++ [Label.call c]).countP (Label.Redeems token) = as.countP (Label.Redeems token) := by
  rw [List.countP_append]
  rfl

variable [LinearOrder τ]

/-- What is true of every state reached through `as`. -/
structure Inv (held : FileId → Option (Held P)) (requests : ι → Request FileId τ)
    (as : List (Label ι Token τ)) (s : Vault ι Token τ) : Prop where
  calls : ∀ c, CallInv held (requests c) (s.calls c)
  tokens_inj : ∀ {c d token x y}, (s.calls c).token = some (token, x) →
    (s.calls d).token = some (token, y) → c = d
  pending : ∀ {token entry}, s.pending token = some entry →
    ∃ c, Issued s c token entry.key entry.expiresAt
  redeemed : ∀ {token key now}, .redeem token (.key key) now ∈ as →
    s.pending token = none ∧ ∃ c expiresAt, Issued s c token key expiresAt ∧ now ≤ expiresAt
  once : ∀ token, as.countP (Label.Redeems token) ≤ 1

theorem Inv.start (held : FileId → Option (Held P)) (requests : ι → Request FileId τ)
    (now : τ) :
    Inv held requests [] (⟨now, fun _ => none, fun _ => Call.start Token τ⟩ : Vault ι Token τ) where
  calls _ := ⟨rfl, rfl⟩
  tokens_inj h := nomatch h
  pending h := nomatch h
  redeemed h := nomatch h
  once _ := Nat.zero_le 1

/-- A step that returns no key and changes nothing. -/
theorem Inv.quiet {held : FileId → Option (Held P)} {requests : ι → Request FileId τ}
    {as : List (Label ι Token τ)} {s : Vault ι Token τ} (h : Inv held requests as s)
    {a : Label ι Token τ} (ha : ∀ token, Label.Redeems token a = false) :
    Inv held requests (as ++ [a]) s where
  calls := h.calls
  tokens_inj := h.tokens_inj
  pending := h.pending
  redeemed := by
    intro token key now hmem
    rcases List.mem_append.mp hmem with hmem | hmem
    · exact h.redeemed hmem
    · have hredeems := ha token
      rw [← List.mem_singleton.mp hmem] at hredeems
      exact absurd hredeems (by simp [Label.Redeems])
  once := by
    intro token
    rw [List.countP_append, List.countP_singleton, ha token, if_neg (by decide), Nat.add_zero]
    exact h.once token

/-- An entry leaves the table. -/
theorem Inv.erase {held : FileId → Option (Held P)} {requests : ι → Request FileId τ}
    {as : List (Label ι Token τ)} {s : Vault ι Token τ} (h : Inv held requests as s)
    (token : Token) :
    Inv held requests as { s with pending := Function.update s.pending token none } where
  calls := h.calls
  tokens_inj := h.tokens_inj
  pending := by
    intro token' entry hentry
    by_cases hne : token' = token
    · subst hne
      exact nomatch (Function.update_self token' none s.pending).symm.trans hentry
    · exact h.pending ((Function.update_of_ne hne none s.pending).symm.trans hentry)
  redeemed := by
    intro token' key now hmem
    obtain ⟨hnone, hissued⟩ := h.redeemed hmem
    refine ⟨?_, hissued⟩
    by_cases hne : token' = token
    · subst hne
      exact Function.update_self ..
    · exact (Function.update_of_ne hne none s.pending).trans hnone
  once := h.once

/-- A redemption. -/
theorem Inv.redeems {held : FileId → Option (Held P)} {requests : ι → Request FileId τ}
    {as : List (Label ι Token τ)} {s : Vault ι Token τ} (h : Inv held requests as s)
    (token : Token) :
    Inv held requests (as ++ [.redeem token (redeemKey s.now token s.pending).2 s.now])
      { s with pending := (redeemKey s.now token s.pending).1 } := by
  rcases redeemKey_cases s.now token s.pending with
    ⟨-, hrun⟩ | ⟨entry, hentry, ⟨-, hrun⟩ | ⟨hle, hrun⟩⟩
  · rw [hrun]
    exact h.quiet fun _ => rfl
  · rw [hrun]
    exact (h.erase token).quiet fun _ => rfl
  rw [hrun]
  have herased := h.erase token
  -- the token had not been redeemed: it was still in the table
  have hnew : as.countP (Label.Redeems token) = 0 := by
    refine List.countP_eq_zero.mpr fun a ha hredeems => ?_
    unfold Label.Redeems at hredeems
    split at hredeems
    · obtain rfl := of_decide_eq_true hredeems
      exact nomatch (h.redeemed ha).1.symm.trans hentry
    · exact nomatch hredeems
  constructor
  case calls => exact h.calls
  case tokens_inj => exact h.tokens_inj
  case pending => exact herased.pending
  case redeemed =>
    intro token' key now hmem
    rcases List.mem_append.mp hmem with hmem | hmem
    · exact herased.redeemed hmem
    · obtain ⟨rfl, hkey, rfl⟩ := Label.redeem.inj (List.mem_singleton.mp hmem)
      obtain rfl := Redemption.key.inj hkey
      obtain ⟨c, hc⟩ := h.pending hentry
      exact ⟨Function.update_self .., c, entry.expiresAt, hc, hle⟩
  case once =>
    intro token'
    rw [List.countP_append, List.countP_singleton]
    by_cases hne : token' = token
    · rw [hne, hnew]
      split <;> decide
    · rw [if_neg (by simp [Label.Redeems, Ne.symm hne])]
      exact h.once token'

end Invariant

section System

variable {ι FileId Token τ : Type*} [DecidableEq ι]

/-- One call changes. -/
def Vault.set (s : Vault ι Token τ) (c : ι) (call : Call Token τ) : Vault ι Token τ :=
  { s with calls := Function.update s.calls c call }

/-- One call moves on. -/
def Vault.goTo (s : Vault ι Token τ) (c : ι) (pc : Pc Token τ) : Vault ι Token τ :=
  s.set c { s.calls c with pc := pc }

/-- `secrets.token_urlsafe` draws no token twice. -/
def Vault.Fresh (s : Vault ι Token τ) (token : Token) : Prop :=
  ∀ c expiresAt, (s.calls c).token ≠ some (token, expiresAt)

variable {P : Primitives} {held : FileId → Option (Held P)} {requests : ι → Request FileId τ}

/-- A step of a call moves this call alone, and may draw a fresh token. -/
def Vault.Moves (held : FileId → Option (Held P)) (requests : ι → Request FileId τ)
    (s : Vault ι Token τ) (c : ι) (s' : Vault ι Token τ) : Prop :=
  ∃ call, s' = s.set c call ∧ CallInv held (requests c) call ∧
    ((s.calls c).synced = true → call.synced = true) ∧
    (call.token = (s.calls c).token ∨
      ∃ token expiresAt, call.token = some (token, expiresAt) ∧ s.Fresh token)

theorem Vault.goTo_moves {s : Vault ι Token τ} {c : ι} {pc : Pc Token τ}
    (h : CallInv held (requests c) { s.calls c with pc := pc }) :
    s.Moves held requests c (s.goTo c pc) :=
  ⟨_, rfl, h, id, Or.inl rfl⟩

/-- A call that is not at its end has not been issued a token. -/
theorem Issued.set {s : Vault ι Token τ} {c d : ι} {token : Token} {key : Bytes} {expiresAt : τ}
    (h : Issued s d token key expiresAt) (hlive : (s.calls c).pc.Live) (call : Call Token τ) :
    Issued (s.set c call) d token key expiresAt := by
  have hne : d ≠ c := by
    rintro rfl
    exact h.2.2 hlive
  have hsame : (s.set c call).calls d = s.calls d := Function.update_of_ne hne ..
  rw [Issued, hsame]
  exact h

/-- A token is new, or it was there before. -/
theorem token_set {s : Vault ι Token τ} {c d : ι} {call : Call Token τ} {token : Token} {x : τ}
    (hcall : call.token = (s.calls c).token ∨
      ∃ token expiresAt, call.token = some (token, expiresAt) ∧ s.Fresh token)
    (h : ((s.set c call).calls d).token = some (token, x)) :
    (s.calls d).token = some (token, x) ∨ d = c ∧ s.Fresh token := by
  by_cases hd : d = c
  · subst hd
    have hset : (s.set d call).calls d = call := Function.update_self ..
    rw [hset] at h
    rcases hcall with hsame | ⟨token', x', hnew, hfresh⟩
    · exact Or.inl (hsame ▸ h)
    · obtain ⟨rfl, rfl⟩ := Prod.mk.inj (Option.some.inj (hnew.symm.trans h))
      exact Or.inr ⟨rfl, hfresh⟩
  · have hset : (s.set c call).calls d = s.calls d := Function.update_of_ne hd ..
    rw [hset] at h
    exact Or.inl h

variable [DecidableEq Token] [LinearOrder τ]

/-- Or it enters its key into the table and returns. -/
def Vault.Issues (held : FileId → Option (Held P)) (requests : ι → Request FileId τ)
    (s : Vault ι Token τ) (c : ι) (s' : Vault ι Token τ) : Prop :=
  ∃ token expiresAt receipt, s' = { s.goTo c (.returned receipt) with
      pending := issue s.now token ⟨(s.calls c).transitKey, expiresAt⟩ s.pending } ∧
    (s.calls c).token = some (token, expiresAt) ∧ (s.calls c).pc = .drawn ∧
    CallInv held (requests c) { s.calls c with pc := .returned receipt }

theorem Inv.moves {as : List (Label ι Token τ)} {s s' : Vault ι Token τ} {c : ι}
    (h : Inv held requests as s) (hlive : (s.calls c).pc.Live)
    (hmove : s.Moves held requests c s') : Inv held requests (as ++ [.call c]) s' := by
  obtain ⟨call, rfl, hcall, -, htoken⟩ := hmove
  constructor
  case calls =>
    intro d
    by_cases hd : d = c
    · subst hd
      have hset : (s.set d call).calls d = call := Function.update_self ..
      rwa [hset]
    · have hset : (s.set c call).calls d = s.calls d := Function.update_of_ne hd ..
      rw [hset]
      exact h.calls d
  case tokens_inj =>
    intro d d' token x y hd hd'
    rcases token_set htoken hd with hold | ⟨rfl, hfresh⟩
    · rcases token_set htoken hd' with hold' | ⟨-, hfresh⟩
      · exact h.tokens_inj hold hold'
      · exact absurd hold (hfresh d x)
    · rcases token_set htoken hd' with hold' | ⟨rfl, -⟩
      · exact absurd hold' (hfresh d' y)
      · rfl
  case pending =>
    intro token entry hentry
    obtain ⟨d, hd⟩ := h.pending hentry
    exact ⟨d, hd.set hlive call⟩
  case redeemed =>
    intro token key now hmem
    rcases List.mem_append.mp hmem with hmem | hmem
    · obtain ⟨hnone, d, expiresAt, hd, hle⟩ := h.redeemed hmem
      exact ⟨hnone, d, expiresAt, hd.set hlive call, hle⟩
    · exact nomatch List.mem_singleton.mp hmem
  case once =>
    intro token
    rw [countP_call]
    exact h.once token

theorem Inv.issues {as : List (Label ι Token τ)} {s s' : Vault ι Token τ} {c : ι}
    (h : Inv held requests as s) (hissue : s.Issues held requests c s') :
    Inv held requests (as ++ [.call c]) s' := by
  obtain ⟨token, expiresAt, receipt, rfl, htoken, hdrawn, hcall⟩ := hissue
  have hlive : (s.calls c).pc.Live := by
    rw [hdrawn]
    trivial
  have hmoved := h.moves hlive (Vault.goTo_moves hcall)
  have hself : Issued (s.goTo c (.returned receipt)) c token (s.calls c).transitKey expiresAt := by
    have hset : (s.goTo c (.returned receipt)).calls c
        = { s.calls c with pc := .returned receipt } := Function.update_self ..
    rw [Issued, hset]
    exact ⟨htoken, rfl, id⟩
  constructor
  case calls => exact hmoved.calls
  case tokens_inj => exact hmoved.tokens_inj
  case pending =>
    intro token' entry hentry
    by_cases hne : token' = token
    · subst hne
      have hnew : issue s.now token' ⟨(s.calls c).transitKey, expiresAt⟩ s.pending token'
          = some ⟨(s.calls c).transitKey, expiresAt⟩ := Function.update_self ..
      obtain rfl := Option.some.inj (hnew.symm.trans hentry)
      exact ⟨c, hself⟩
    · have hold : issue s.now token ⟨(s.calls c).transitKey, expiresAt⟩ s.pending token'
          = sweep s.now s.pending token' := Function.update_of_ne hne ..
      exact hmoved.pending (sweep_eq_some.mp (hold.symm.trans hentry)).1
  case redeemed =>
    intro token' key now hmem
    obtain ⟨hnone, d, x, hd, hle⟩ := hmoved.redeemed hmem
    refine ⟨?_, d, x, hd, hle⟩
    have hne : token' ≠ token := by
      -- a redeemed token belongs to a call that has returned
      rintro rfl
      have hmem' : .redeem token' (.key key) now ∈ as := by
        rcases List.mem_append.mp hmem with hmem | hmem
        · exact hmem
        · exact nomatch List.mem_singleton.mp hmem
      obtain ⟨-, d', x', hd', -⟩ := h.redeemed hmem'
      obtain rfl := h.tokens_inj hd'.1 htoken
      exact hd'.2.2 hlive
    have hold : issue s.now token ⟨(s.calls c).transitKey, expiresAt⟩ s.pending token'
        = sweep s.now s.pending token' := Function.update_of_ne hne ..
    show issue s.now token ⟨(s.calls c).transitKey, expiresAt⟩ s.pending token' = none
    have hnone' : s.pending token' = none := hnone
    rw [hold, sweep, hnone']
    rfl
  case once => exact hmoved.once

variable [Add τ]

/-- The steps of all calls.  A box is read in any state that it can be in by then. -/
inductive Step (P : Primitives) (held : FileId → Option (Held P))
    (requests : ι → Request FileId τ) : Vault ι Token τ → Label ι Token τ → Vault ι Token τ → Prop
  | tick {s : Vault ι Token τ} {now : τ} : s.now ≤ now →
      Step P held requests s .tick { s with now := now }
  | trustUnknown {s : Vault ι Token τ} {c : ι} : (s.calls c).pc = .called →
      (requests c).trust = .unknown →
      Step P held requests s (.call c) (s.goTo c (.raised .valueError))
  | notHeld {s : Vault ι Token τ} {c : ι} {e : PyError} : (s.calls c).pc = .called →
      (requests c).trust ≠ .unknown → lookup held (requests c) = .error e →
      Step P held requests s (.call c) (s.goTo c (.raised e))
  | notOpened {s : Vault ι Token τ} {c : ι} : (s.calls c).pc = .called →
      (requests c).trust ≠ .unknown →
      Step P held requests s (.call c) (s.goTo c (.raised .osError))
  | plain {s : Vault ι Token τ} {c : ι} {stored : Stored P} {box : ChunkedSecureBox}
      {between : List (ℕ × ℕ)} {write : ℕ → Except PyError Unit} {close : Except PyError Unit}
      {written : List Bytes} {outcome : Except PyError Unit} :
      (s.calls c).pc = .called → (requests c).trust = .trusted →
      lookup held (requests c) = .ok stored → ChunkedSecureBox.Reached P stored.box box →
      (box.streamTo P between write).2 = (written, outcome) →
      Step P held requests s (.call c) (s.set c { s.calls c with
        pc := match outcome >>= fun _ => close with
          | .error e => .raised e
          | .ok () => .returned ⟨(requests c).destPath, .trusted, none, none, none⟩
        written := written })
  | stream {s : Vault ι Token τ} {c : ι} {stored : Stored P} {box : ChunkedSecureBox}
      {between : List (ℕ × ℕ)} {key : Bytes} {nonces : ℕ → Nonce}
      {write : ℕ → Except PyError Unit} {written : List Bytes} {outcome : Except PyError Unit} :
      (s.calls c).pc = .called → (requests c).trust = .untrusted ∨ (requests c).trust = .hostile →
      lookup held (requests c) = .ok stored → ChunkedSecureBox.Reached P stored.box box →
      key.length = 32 → (box.streamToWrapped P between key nonces write).2 = (written, outcome) →
      Step P held requests s (.call c) (s.set c { s.calls c with
        pc := match outcome with
          | .error e => .raised e
          | .ok () => .streamed
        transitKey := key, written := written })
  | flush {s : Vault ι Token τ} {c : ι} : (s.calls c).pc = .streamed →
      Step P held requests s (.call c) (s.goTo c .flushed)
  | fsync {s : Vault ι Token τ} {c : ι} : (s.calls c).pc = .flushed →
      Step P held requests s (.call c)
        (s.set c { s.calls c with pc := .synced, synced := true })
  | close {s : Vault ι Token τ} {c : ι} : (s.calls c).pc = .synced →
      Step P held requests s (.call c) (s.goTo c .closed)
  | fails {s : Vault ι Token τ} {c : ι} {e : PyError} :
      (s.calls c).pc = .streamed ∨ (s.calls c).pc = .flushed ∨ (s.calls c).pc = .synced →
      Step P held requests s (.call c) (s.goTo c (.raised e))
  | release {s : Vault ι Token τ} {c : ι} : (s.calls c).pc = .closed →
      (requests c).trust = .untrusted →
      Step P held requests s (.call c) (s.goTo c (.returned ⟨(requests c).destPath, .untrusted,
        some (s.calls c).transitKey, none, none⟩))
  | draw {s : Vault ι Token τ} {c : ι} {token : Token} : (s.calls c).pc = .closed →
      (requests c).trust = .hostile → s.Fresh token →
      Step P held requests s (.call c) (s.set c { s.calls c with
        pc := .drawn, token := some (token, s.now + (requests c).tokenTtl) })
  | issue {s : Vault ι Token τ} {c : ι} {token : Token} {expiresAt : τ} :
      (s.calls c).pc = .drawn → (s.calls c).token = some (token, expiresAt) →
      Step P held requests s (.call c)
        { s.goTo c (.returned ⟨(requests c).destPath, .hostile, none, some token,
            some expiresAt⟩) with
          pending := issue s.now token ⟨(s.calls c).transitKey, expiresAt⟩ s.pending }
  | redeem {s : Vault ι Token τ} (token : Token) :
      Step P held requests s (.redeem token (redeemKey s.now token s.pending).2 s.now)
        { s with pending := (redeemKey s.now token s.pending).1 }

/-! ### What one step can do -/

/-- **What a call can do.** -/
theorem Step.call_cases {s s' : Vault ι Token τ} {c : ι}
    (h : Step P held requests s (.call c) s') (hinv : CallInv held (requests c) (s.calls c)) :
    (s.calls c).pc.Live ∧ (s.Moves held requests c s' ∨ s.Issues held requests c s') := by
  cases h with
  | trustUnknown hpc =>
    simp only [CallInv, hpc] at hinv
    exact ⟨by rw [hpc]; trivial, Or.inl (Vault.goTo_moves hinv.2)⟩
  | notHeld hpc =>
    simp only [CallInv, hpc] at hinv
    exact ⟨by rw [hpc]; trivial, Or.inl (Vault.goTo_moves hinv.2)⟩
  | notOpened hpc =>
    simp only [CallInv, hpc] at hinv
    exact ⟨by rw [hpc]; trivial, Or.inl (Vault.goTo_moves hinv.2)⟩
  | @plain _ _ _ _ _ close written outcome hpc =>
    simp only [CallInv, hpc] at hinv
    refine ⟨by rw [hpc]; trivial, Or.inl ⟨_, rfl, ?_, id, Or.inl rfl⟩⟩
    cases hend : outcome >>= fun _ => close with
    | error e => exact hinv.2
    | ok => exact Or.inl ⟨rfl, rfl, hinv.2⟩
  | @stream _ stored box _ key _ _ written outcome hpc _ hlookup hreach _ hrun =>
    simp only [CallInv, hpc] at hinv
    refine ⟨by rw [hpc]; trivial, Or.inl ⟨_, rfl, ?_, id, Or.inl rfl⟩⟩
    cases outcome with
    | error e => exact hinv.2
    | ok =>
      obtain ⟨pieces, fs, hdata, hfs, hcarries⟩ := stored.wrapped hreach hrun
      exact ⟨hinv.1, hinv.2, stored, pieces, fs, hlookup, hdata, hfs, hcarries⟩
  | flush hpc =>
    simp only [CallInv, hpc] at hinv
    exact ⟨by rw [hpc]; trivial, Or.inl (Vault.goTo_moves hinv)⟩
  | fsync hpc =>
    simp only [CallInv, hpc] at hinv
    exact ⟨by rw [hpc]; trivial, Or.inl ⟨_, rfl, ⟨rfl, hinv.2⟩, fun _ => rfl, Or.inl rfl⟩⟩
  | close hpc =>
    simp only [CallInv, hpc] at hinv
    exact ⟨by rw [hpc]; trivial, Or.inl (Vault.goTo_moves hinv)⟩
  | fails hpc =>
    rcases hpc with hpc | hpc | hpc
    · simp only [CallInv, hpc] at hinv
      exact ⟨by rw [hpc]; trivial, Or.inl (Vault.goTo_moves hinv.2.1)⟩
    · simp only [CallInv, hpc] at hinv
      exact ⟨by rw [hpc]; trivial, Or.inl (Vault.goTo_moves hinv.2.1)⟩
    · simp only [CallInv, hpc] at hinv
      exact ⟨by rw [hpc]; trivial, Or.inl (Vault.goTo_moves hinv.2.1)⟩
  | release hpc =>
    simp only [CallInv, hpc] at hinv
    exact ⟨by rw [hpc]; trivial, Or.inl (Vault.goTo_moves
      (Or.inr ⟨hinv.1, hinv.2.2, Or.inl ⟨rfl, rfl, hinv.2.1⟩⟩))⟩
  | @draw _ token hpc _ hfresh =>
    simp only [CallInv, hpc] at hinv
    exact ⟨by rw [hpc]; trivial, Or.inl ⟨_, rfl, ⟨hinv.1, hinv.2.2, _, _, rfl⟩,
      id, Or.inr ⟨token, _, rfl, hfresh⟩⟩⟩
  | @issue _ token expiresAt hpc htoken =>
    simp only [CallInv, hpc] at hinv
    exact ⟨by rw [hpc]; trivial, Or.inr ⟨token, expiresAt, _, rfl, htoken, hpc,
      Or.inr ⟨hinv.1, hinv.2.1, Or.inr ⟨rfl, token, expiresAt, htoken, rfl, rfl⟩⟩⟩⟩

/-! ### Runs -/

theorem Inv.step {as : List (Label ι Token τ)} {s s' : Vault ι Token τ} {a : Label ι Token τ}
    (h : Inv held requests as s) (hstep : Step P held requests s a s') :
    Inv held requests (as ++ [a]) s' := by
  cases a with
  | tick =>
    cases hstep with
    | tick =>
      have hquiet : Inv held requests (as ++ [Label.tick]) s := h.quiet fun _ => rfl
      exact ⟨hquiet.calls, hquiet.tokens_inj, hquiet.pending, hquiet.redeemed, hquiet.once⟩
  | call c =>
    obtain ⟨hlive, hmove | hissue⟩ := hstep.call_cases (h.calls c)
    · exact h.moves hlive hmove
    · exact h.issues hissue
  | redeem token result now =>
    cases hstep with
    | redeem => exact h.redeems token

/-- The state before any call. -/
def Vault.start (now : τ) : Vault ι Token τ := ⟨now, fun _ => none, fun _ => Call.start Token τ⟩

theorem Inv.run {now : τ} {as : List (Label ι Token τ)} {t : Vault ι Token τ}
    (hrun : Run (Step P held requests) (Vault.start now) as t) : Inv held requests as t :=
  hrun.history (Inv.start held requests now) Inv.step

theorem Inv.runs {as bs : List (Label ι Token τ)} {s t : Vault ι Token τ}
    (h : Inv held requests as s) (hrun : Run (Step P held requests) s bs t) :
    Inv held requests (as ++ bs) t := by
  induction hrun with
  | nil => rwa [List.append_nil]
  | snoc _ hstep ih =>
    rw [← List.append_assoc]
    exact ih.step hstep

/-- The clock does not run back. -/
theorem Step.now_le {s s' : Vault ι Token τ} {a : Label ι Token τ}
    (hstep : Step P held requests s a s') : s.now ≤ s'.now := by
  cases hstep with
  | tick hle => exact hle
  | _ => exact le_rfl

/-- An entry outlives every step but the redemption of its token and the end of its time. -/
theorem Inv.keeps {as : List (Label ι Token τ)} {s s' : Vault ι Token τ} {a : Label ι Token τ}
    (h : Inv held requests as s) (hstep : Step P held requests s a s') {token : Token}
    {entry : Entry τ} (hentry : s.pending token = some entry) (hnow : s'.now ≤ entry.expiresAt)
    (ha : ∀ result now, a ≠ .redeem token result now) : s'.pending token = some entry := by
  cases a with
  | tick =>
    cases hstep with
    | tick => exact hentry
  | call c =>
    obtain ⟨hlive, ⟨call, rfl, -⟩ | ⟨token', expiresAt, receipt, rfl, htoken, -⟩⟩ :=
      hstep.call_cases (h.calls c)
    · exact hentry
    · have hne : token ≠ token' := by
        -- the token in the table is another call's
        rintro rfl
        obtain ⟨d, hd⟩ := h.pending hentry
        obtain rfl := h.tokens_inj hd.1 htoken
        exact hd.2.2 hlive
      have hother : issue s.now token' ⟨(s.calls c).transitKey, expiresAt⟩ s.pending token
          = sweep s.now s.pending token := Function.update_of_ne hne ..
      exact hother.trans (sweep_eq_some.mpr ⟨hentry, hnow⟩)
  | redeem token' result now =>
    cases hstep with
    | redeem =>
      have hne : token ≠ token' := by
        rintro rfl
        exact ha _ _ rfl
      rcases redeemKey_cases s.now token' s.pending with
        ⟨-, hrun⟩ | ⟨_, -, ⟨-, hrun⟩ | ⟨-, hrun⟩⟩
      · rw [hrun]
        exact hentry
      · rw [hrun]
        exact (Function.update_of_ne hne ..).trans hentry
      · rw [hrun]
        exact (Function.update_of_ne hne ..).trans hentry

/-- **Waiting.**  An entry is there until its token is redeemed or its time has passed. -/
theorem pending_of_run {as bs : List (Label ι Token τ)} {s t : Vault ι Token τ}
    (h : Inv held requests as s) (hrun : Run (Step P held requests) s bs t) {token : Token}
    {entry : Entry τ} (hentry : s.pending token = some entry) (hnow : t.now ≤ entry.expiresAt)
    (hbs : ∀ result now, .redeem token result now ∉ bs) : t.pending token = some entry := by
  induction hrun with
  | nil => exact hentry
  | @snoc bs t u a hrun hstep ih =>
    have hkept := ih (hstep.now_le.trans hnow) fun result now hmem =>
      hbs result now (List.mem_append_left _ hmem)
    refine (h.runs hrun).keeps hstep hkept hnow fun result now ha => ?_
    exact hbs result now (List.mem_append_right _ (List.mem_singleton.mpr ha.symm))

/-- What a step leaves of another call, and of one at its end. -/
theorem Inv.calls_step {as : List (Label ι Token τ)} {s s' : Vault ι Token τ}
    {a : Label ι Token τ} (h : Inv held requests as s) (hstep : Step P held requests s a s')
    (c : ι) : s'.calls c = s.calls c ∨ a = .call c ∧ (s.calls c).pc.Live ∧
      ((s.calls c).synced = true → (s'.calls c).synced = true) := by
  cases a with
  | tick =>
    cases hstep with
    | tick => exact Or.inl rfl
  | call d =>
    obtain ⟨hlive, hcases⟩ := hstep.call_cases (h.calls d)
    by_cases hc : c = d
    · subst hc
      refine Or.inr ⟨rfl, hlive, ?_⟩
      rcases hcases with ⟨call, rfl, -, hsynced, -⟩ | ⟨token, expiresAt, receipt, rfl, -⟩
      · have hset : (s.set c call).calls c = call := Function.update_self ..
        rwa [hset]
      · have hset : (s.goTo c (.returned receipt)).calls c
            = { s.calls c with pc := .returned receipt } := Function.update_self ..
        show (s.calls c).synced = true → ((s.goTo c (.returned receipt)).calls c).synced = true
        rw [hset]
        exact id
    · left
      rcases hcases with ⟨call, rfl, -⟩ | ⟨token, expiresAt, receipt, rfl, -⟩
      · exact Function.update_of_ne hc ..
      · exact Function.update_of_ne hc ..
  | redeem token result now =>
    cases hstep with
    | redeem => exact Or.inl rfl

theorem Inv.synced_run {as bs : List (Label ι Token τ)} {s t : Vault ι Token τ}
    (h : Inv held requests as s) (hrun : Run (Step P held requests) s bs t) {c : ι}
    (hc : (s.calls c).synced = true) : (t.calls c).synced = true := by
  induction hrun with
  | nil => exact hc
  | snoc hrun hstep ih =>
    rcases (h.runs hrun).calls_step hstep c with hsame | ⟨-, -, hsynced⟩
    · rw [hsame]
      exact ih
    · exact hsynced ih

/-- A call that has come to its end stays there. -/
theorem Inv.ended_run {as bs : List (Label ι Token τ)} {s t : Vault ι Token τ}
    (h : Inv held requests as s) (hrun : Run (Step P held requests) s bs t) {c : ι}
    (hc : ¬ (s.calls c).pc.Live) : t.calls c = s.calls c := by
  induction hrun with
  | nil => rfl
  | snoc hrun hstep ih =>
    rcases (h.runs hrun).calls_step hstep c with hsame | ⟨-, hlive, -⟩
    · exact hsame.trans ih
    · rw [ih] at hlive
      exact absurd hlive hc

/-- A call that has not synced its file has left the table as it was. -/
theorem Inv.unsynced_step {as bs : List (Label ι Token τ)} {s s' t : Vault ι Token τ} {c : ι}
    (h : Inv held requests as s) (hstep : Step P held requests s (.call c) s')
    (hrun : Run (Step P held requests) s' bs t) (hc : (t.calls c).synced = false) :
    s'.pending = s.pending := by
  obtain ⟨hlive, ⟨call, rfl, -⟩ | ⟨token, expiresAt, receipt, -, htoken, -⟩⟩ :=
    hstep.call_cases (h.calls c)
  · rfl
  · have hsynced := ((h.calls c).token htoken).1
    have hsynced' : (s'.calls c).synced = true := by
      rcases h.calls_step hstep c with hsame | ⟨-, -, hkeeps⟩
      · rwa [hsame]
      · exact hkeeps hsynced
    rw [(h.step hstep).synced_run hrun hsynced'] at hc
    exact nomatch hc

/-- **Key release.**  In every run: a token is redeemed for a key at most once, and not after
its time; the key is the one under which the call that drew the token wrote its file; the call
had written and synced the whole piece before it drew the token; an entry that is neither
redeemed nor expired stays; and a call that raises before its `fsync` returns draws no token
and leaves the table alone. -/
theorem key_release {now : τ} {as : List (Label ι Token τ)} {t : Vault ι Token τ}
    (hrun : Run (Step P held requests) (Vault.start now) as t) :
    (∀ token, as.countP (Label.Redeems token) ≤ 1) ∧
      (∀ token key now, .redeem token (.key key) now ∈ as →
        ∃ c expiresAt, (t.calls c).token = some (token, expiresAt) ∧ now ≤ expiresAt ∧
          (t.calls c).transitKey = key ∧ Departed held (requests c) (t.calls c)) ∧
      (∀ c token expiresAt, (t.calls c).token = some (token, expiresAt) →
        (t.calls c).synced = true ∧ Departed held (requests c) (t.calls c)) ∧
      (∀ token entry bs u, t.pending token = some entry → Run (Step P held requests) t bs u →
        u.now ≤ entry.expiresAt → (∀ result now, .redeem token result now ∉ bs) →
        u.pending token = some entry) ∧
      ∀ c e, (t.calls c).pc = .raised e → (t.calls c).synced = false →
        (t.calls c).token = none ∧
          (∀ bs u, Run (Step P held requests) t bs u → (u.calls c).pc = .raised e) ∧
          ∀ bs s s' cs, Run (Step P held requests) (Vault.start now) bs s →
            Step P held requests s (.call c) s' → Run (Step P held requests) s' cs t →
            s'.pending = s.pending := by
  have h := Inv.run hrun
  refine ⟨h.once, fun token key now hmem => ?_, fun c token expiresAt htoken => ?_,
    fun token entry bs u hentry hbs hnow hnot => ?_, fun c e hpc hsynced => ⟨?_, ?_, ?_⟩⟩
  · obtain ⟨-, c, expiresAt, ⟨htoken, hkey, -⟩, hle⟩ := h.redeemed hmem
    exact ⟨c, expiresAt, htoken, hle, hkey, ((h.calls c).token htoken).2⟩
  · exact (h.calls c).token htoken
  · exact pending_of_run h hbs hentry hnow hnot
  · have hcall := h.calls c
    simp only [CallInv, hpc] at hcall
    exact hcall
  · intro bs u hbs
    rw [h.ended_run hbs (by rw [hpc]; exact id), hpc]
  · intro bs s s' cs hbs hstep hcs
    exact (Inv.run hbs).unsynced_step hstep hcs hsynced

end System

/-- A file leaves under a token, and the token is redeemed. -/
theorem key_release_redeemed :
    ∃ (held : Unit → Option (Held Primitives.sample)) (requests : Unit → Request Unit ℕ)
      (as : List (Label Unit Bool ℕ)) (t : Vault Unit Bool ℕ) (key : Bytes),
      Run (Step Primitives.sample held requests) (Vault.start 3) as t ∧
        .redeem true (.key key) 3 ∈ as ∧ as.countP (Label.Redeems true) ≤ 1 ∧
        ∃ c expiresAt, (t.calls c).token = some (true, expiresAt) ∧ 3 ≤ expiresAt ∧
          (t.calls c).transitKey = key ∧ Departed held (requests c) (t.calls c) := by
  obtain ⟨box, plains, ck, nk, hbuilt, -, hle, hold, -⟩ :=
    ChunkedSecureBox.construct_spec (P := Primitives.sample) .bytes [1, 2, 3]
      (show 1 ≤ 2 by decide) false (show false = true →
        ∃ external, ChunkedSecureBox.InitEnv.sample.fetch = .ok external from nofun)
  have hsize : ∀ p ∈ plains, p.length + 16 < 2 ^ 32 := by
    intro p hp
    have := hle p hp
    omega
  obtain ⟨frames, hframes⟩ := hold.streamToWrapped hsize
    (show ValidKey (List.replicate 32 9) by decide) [] ChunkedSecureBox.InitEnv.sample.nonce
  let stored : Stored Primitives.sample := ⟨[1, 2, 3], box, _, _, _, _, _, hbuilt⟩
  let held : Unit → Option (Held Primitives.sample) :=
    fun _ => some ⟨fun _ => some stored, .content⟩
  let requests : Unit → Request Unit ℕ := fun _ => ⟨(), [], .hostile, none, 60⟩
  have hrun := (Run.refl (Step Primitives.sample held requests)
    (Vault.start 3 : Vault Unit Bool ℕ)).snoc (.stream (c := ()) rfl (Or.inr rfl) rfl
      (.run (Run.refl _ box)) (List.length_replicate) hframes)
    |>.snoc (.flush (c := ()) rfl) |>.snoc (.fsync (c := ()) rfl) |>.snoc (.close (c := ()) rfl)
    |>.snoc (.draw (c := ()) rfl rfl (show Vault.Fresh _ true from fun _ _ => nofun))
    |>.snoc (.issue (c := ()) rfl rfl) |>.snoc (.redeem true)
  obtain ⟨honce, hkey, -⟩ := key_release hrun
  exact ⟨held, requests, _, _, _, hrun, List.mem_append_right _ List.mem_cons_self, honce true,
    hkey true _ 3 (List.mem_append_right _ List.mem_cons_self)⟩

end KeyRelease
