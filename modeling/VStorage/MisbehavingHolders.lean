/-
`_ping`, `_monitor` and `fetch` of `network_trust.py` against holders that send anything.

A holder answers a request with any bytes, in any pieces, or with none.  `_ping` and `fetch`
catch what a connection raises and what `json.loads` and `bytes.fromhex` raise about a text,
but not what comes of a value of another type, and `fetch` combines the shares when its `try`
is over.

* `ping_ok_iff`: when a ping returns.
* `survives_iff`: when a fetch returns bytes or raises `TrustGroupCompromised`.
* `misbehaving_holders`: both, and the monitor, which runs until a ping raises.
-/
import Mathlib
import VStorage.UntrustedShares
import VStorage.Runs

namespace MisbehavingHolders

open NetworkTrustGroup (caught fromHex getItem line parseLine pong reply)

/-! ### The code -/

/-- What an exchange meets: whether `_send` gets through, and what every `recv` returns. -/
structure Incoming where
  sent : Bool
  chunks : List Bytes

/-- `_recv_line`.  Nothing is received at the end of the connection, and what has not come is
timed out. -/
def recvLine (depth : ℕ) (buf : Bytes) (chunks : List Bytes) : Except PyError Json :=
  if buf.getLast? = some 10 then parseLine depth buf
  else
    match chunks with
    | [] => .error .osError
    | [] :: _ => .error .eofError
    | chunk :: chunks => recvLine depth (buf ++ chunk) chunks

/-- `_send`, then `_recv_line`. -/
def exchange (depth : ℕ) (incoming : Incoming) : Except PyError Json :=
  if incoming.sent then recvLine depth [] incoming.chunks else .error .osError

/-- `_ping`. -/
def ping (depth : ℕ) (incoming : Incoming) : Except PyError Bool := pong (exchange depth incoming)

/-- `(resp["x"], bytes.fromhex(resp["share_hex"]))`. -/
def readAny (resp : Json) : Except PyError (Json × Bytes) := do
  let x ← getItem resp (pyStr "x")
  let shareHex ← getItem resp (pyStr "share_hex")
  let y ← match shareHex with
    | .str s => fromHex s
    | _ => .error .typeError
  return (x, y)

/-- `fetch`, by what it receives from each holder. -/
def fetchAny (k n : ℕ) (compromised : ℕ → Bool) (received : ℕ → Except PyError Json) :
    Except PyError Bytes :=
  let alive := aliveIndices n compromised
  if alive.length < k then .error .trustGroupCompromised
  else
    match (alive.take k).mapM fun i => do readAny (← received i) with
    | .ok collected => combineAny collected
    | .error e => .error (if caught e then .trustGroupCompromised else e)

/-- The monitor thread: the next holder, and those it has recorded. -/
inductive Watcher
  | watching (i : ℕ) (compromised : Finset ℕ)
  | ended (e : PyError)

/-- The steps of `_monitor`, until it is stopped; a thread in `fetch` may record a holder at any
moment. -/
inductive WatchStep (depth n : ℕ) : Watcher → Option (ℕ × Incoming) → Watcher → Prop
  | skip {i : ℕ} {compromised : Finset ℕ} : i < n → i ∈ compromised →
      WatchStep depth n (.watching i compromised) none (.watching (i + 1) compromised)
  | ping {i : ℕ} {compromised : Finset ℕ} {incoming : Incoming} {alive : Bool} : i < n →
      i ∉ compromised → ping depth incoming = .ok alive →
      WatchStep depth n (.watching i compromised) (some (i, incoming))
        (.watching (i + 1) (if alive then compromised else insert i compromised))
  | raises {i : ℕ} {compromised : Finset ℕ} {incoming : Incoming} {e : PyError} : i < n →
      i ∉ compromised → ping depth incoming = .error e →
      WatchStep depth n (.watching i compromised) (some (i, incoming)) (.ended e)
  | sleep {compromised : Finset ℕ} :
      WatchStep depth n (.watching n compromised) none (.watching 0 compromised)
  | recorded {i : ℕ} {compromised : Finset ℕ} {j : ℕ} :
      WatchStep depth n (.watching i compromised) none (.watching i (insert j compromised))

/-- A fetch returns, or it raises what its callers expect. -/
def Survives (result : Except PyError Bytes) : Prop :=
  (∃ secret, result = .ok secret) ∨ result = .error .trustGroupCompromised

/-! ### What an exchange raises -/

theorem decodeLoop_error (fuel : ℕ) (bs : Bytes) :
    Raises (· = .valueError) (NetworkTrustGroup.decodeLoop fuel bs) := by
  induction fuel generalizing bs with
  | zero =>
    cases bs with
    | nil => exact .ok []
    | cons b bs => exact .error rfl
  | succ fuel ih =>
    cases bs with
    | nil => exact .ok []
    | cons b bs =>
      rw [NetworkTrustGroup.decodeLoop]
      split
      · exact .error rfl
      · exact (ih _).bind fun _ => .ok _

theorem parseLine_error (depth : ℕ) (buf : Bytes) :
    Raises Json.Rejects (parseLine depth buf) := by
  rw [parseLine]
  refine Raises.bind (fun e he => Or.inl (decodeLoop_error _ _ e he)) fun s e he => ?_
  exact Json.loads_error he

/-- An exchange raises about the connection, or about the text of the line. -/
theorem exchange_error {depth : ℕ} {incoming : Incoming} {e : PyError}
    (h : exchange depth incoming = .error e) :
    e = .osError ∨ e = .eofError ∨ Json.Rejects e := by
  have hrecv : ∀ (chunks : List Bytes) (buf : Bytes) {e : PyError},
      recvLine depth buf chunks = .error e → e = .osError ∨ e = .eofError ∨ Json.Rejects e := by
    intro chunks
    induction chunks with
    | nil =>
      intro buf e h
      rw [recvLine] at h
      split at h
      · exact Or.inr (Or.inr (parseLine_error _ _ e h))
      · exact Or.inl (Except.error.inj h).symm
    | cons chunk chunks ih =>
      intro buf e h
      rw [recvLine.eq_def] at h
      split at h
      · exact Or.inr (Or.inr (parseLine_error _ _ e h))
      · cases chunk with
        | nil => exact Or.inr (Or.inl (Except.error.inj h).symm)
        | cons b chunk => exact ih _ h
  rw [exchange] at h
  split at h
  · exact hrecv _ _ h
  · exact Or.inl (Except.error.inj h).symm

/-! ### Pings -/

/-- What is received is not too deep to be read, and if it can be read it is an object. -/
def Pingable (received : Except PyError Json) : Prop :=
  received ≠ .error .recursionError ∧ ∀ v, received = .ok v → ∃ members, v = .obj members

/-- **Pings.**  A ping returns, be it `False`, unless what it reads has no `get`. -/
theorem ping_ok_iff (depth : ℕ) (incoming : Incoming) :
    (∃ b, ping depth incoming = .ok b) ↔ Pingable (exchange depth incoming) := by
  rw [ping, pong, Pingable]
  cases hreceived : exchange depth incoming with
  | error e =>
    rw [error_bind]
    rcases exchange_error hreceived with rfl | rfl | rfl | rfl
    · simp
    · simp
    · simp
    · simp
  | ok v =>
    rw [ok_bind]
    cases v <;> simp [NetworkTrustGroup.readPong]

/-- **The monitor.**  It runs as long as its pings return. -/
theorem watching_iff {depth n : ℕ} {as : List (Option (ℕ × Incoming))} {s : Watcher}
    (hrun : Run (WatchStep depth n) (.watching 0 ∅) as s) :
    (∃ i compromised, s = .watching i compromised) ↔
      ∀ i incoming, some (i, incoming) ∈ as → Pingable (exchange depth incoming) := by
  refine hrun.history (I := fun as s => (∃ i compromised, s = Watcher.watching i compromised) ↔
    ∀ i incoming, some (i, incoming) ∈ as → Pingable (exchange depth incoming))
    (iff_of_true ⟨0, ∅, rfl⟩ nofun) ?_
  intro as t a u ih hstep
  -- a thread that takes a step was running
  have hpast : ∀ i compromised, t = .watching i compromised → ∀ j incoming,
      some (j, incoming) ∈ as → Pingable (exchange depth incoming) :=
    fun i compromised ht => ih.mp ⟨i, compromised, ht⟩
  cases hstep with
  | skip =>
    refine iff_of_true ⟨_, _, rfl⟩ fun j incoming hmem => hpast _ _ rfl j incoming ?_
    simpa using hmem
  | sleep =>
    refine iff_of_true ⟨_, _, rfl⟩ fun j incoming hmem => hpast _ _ rfl j incoming ?_
    simpa using hmem
  | recorded =>
    refine iff_of_true ⟨_, _, rfl⟩ fun j incoming hmem => hpast _ _ rfl j incoming ?_
    simpa using hmem
  | ping _ _ hping =>
    refine iff_of_true ⟨_, _, rfl⟩ fun j incoming hmem => ?_
    rcases List.mem_append.mp hmem with hmem | hmem
    · exact hpast _ _ rfl j incoming hmem
    · cases List.mem_singleton.mp hmem
      exact (ping_ok_iff depth _).mp ⟨_, hping⟩
  | @raises i compromised incoming e _ _ hping =>
    refine iff_of_false nofun fun hall => ?_
    have hpingable := hall i incoming (List.mem_append_right _ (List.mem_singleton_self _))
    obtain ⟨b, hb⟩ := (ping_ok_iff depth incoming).mpr hpingable
    rw [hping] at hb
    cases hb

/-! ### Shares in form -/

/-- A share in form: an object with an "x", and a "share_hex" of hexadecimal digits. -/
def Gives (received : Except PyError Json) (share : Json × Bytes) : Prop :=
  ∃ members s, received = .ok (.obj members) ∧ Json.lookup (pyStr "x") members = some share.1 ∧
    Json.lookup (pyStr "share_hex") members = some (.str s) ∧ fromHex s = .ok share.2

/-- What is received is too deep to be read, or is no object, or has a "share_hex" that is no
string. -/
def Slips (received : Except PyError Json) : Prop :=
  received = .error .recursionError ∨ ∃ v, received = .ok v ∧ ∀ members, v = .obj members →
    ∃ x w, Json.lookup (pyStr "x") members = some x ∧
      Json.lookup (pyStr "share_hex") members = some w ∧ ∀ s, w ≠ .str s

theorem fromHex_error (s : PyStr) : Raises (· = .valueError) (fromHex s) := by
  fun_induction fromHex s with
  | case1 => exact .ok []
  | case2 c hspace => exact .ok []
  | case3 c hspace => exact .error rfl
  | case4 c d rest hspace ih => exact ih
  | case5 c d rest hspace high hhigh low hlow ih => exact ih.bind fun _ => .ok _
  | case6 c d rest hspace hnone => exact .error rfl

theorem readAny_obj (members : List (PyStr × Json)) :
    readAny (.obj members) =
      match Json.lookup (pyStr "x") members, Json.lookup (pyStr "share_hex") members with
      | some x, some (.str s) => (do return (x, ← fromHex s))
      | some _, some _ => .error .typeError
      | _, _ => .error .keyError := by
  rw [readAny, getItem, getItem]
  cases Json.lookup (pyStr "x") members with
  | none => rfl
  | some x =>
    cases Json.lookup (pyStr "share_hex") members with
    | none => rfl
    | some w => cases w <;> rfl

theorem readAny_eq_ok {received : Except PyError Json} {share : Json × Bytes} :
    (received >>= readAny) = .ok share ↔ Gives received share := by
  constructor
  · intro h
    obtain ⟨v, rfl, hread⟩ := bind_eq_ok.mp h
    cases v with
    | obj members =>
      rw [readAny_obj] at hread
      split at hread
      · rename_i x s hx hs
        obtain ⟨y, hy, hshare⟩ := bind_eq_ok.mp hread
        obtain rfl := Except.ok.inj hshare
        exact ⟨members, s, rfl, hx, hs, hy⟩
      · cases hread
      · cases hread
    | _ => cases hread
  · rintro ⟨members, s, rfl, hx, hs, hy⟩
    rw [ok_bind, readAny_obj, hx, hs]
    dsimp only
    rw [hy]
    rfl

theorem readAny_raises (v : Json) : Raises Other (readAny v) := by
  cases v with
  | obj members =>
    rw [readAny_obj]
    split
    · refine Raises.bind (fun e he => ?_) fun _ => .ok _
      rw [fromHex_error _ e he]
      decide
    · exact .error (by decide)
    · exact .error (by decide)
  | _ => exact Raises.error (show Other .typeError by decide)

/-- Where no share is received, the exception is not caught exactly when it slips past. -/
theorem caught_iff {received : Except PyError Json}
    (hreceived : ∀ e, received = .error e → e = .osError ∨ e = .eofError ∨ Json.Rejects e)
    {e : PyError} (h : (received >>= readAny) = .error e) : caught e = false ↔ Slips received := by
  cases received with
  | error e' =>
    obtain rfl : e' = e := Except.error.inj h
    rcases hreceived e' rfl with rfl | rfl | rfl | rfl
    · simp [Slips, caught]
    · simp [Slips, caught]
    · simp [Slips, caught]
    · simp [Slips, caught]
  | ok v =>
    rw [ok_bind] at h
    cases v with
    | obj members =>
      rw [readAny_obj] at h
      split at h
      · rename_i x s hx hs
        -- the string is not hexadecimal
        obtain rfl : e = .valueError := by
          rcases bind_eq_error.mp h with hhex | ⟨_, _, hok⟩
          · exact fromHex_error s e hhex
          · cases hok
        simp [Slips, caught, hx, hs]
      · rename_i x w hnot hx hw
        obtain rfl := Except.error.inj h
        refine iff_of_true rfl (Or.inr ⟨_, rfl, fun members' heq => ?_⟩)
        obtain rfl := Json.obj.inj heq
        exact ⟨x, w, hx, hw, hnot⟩
      · rename_i hnot hnot'
        obtain rfl := Except.error.inj h
        refine iff_of_false nofun ?_
        rintro (hdeep | ⟨v, hv, hall⟩)
        · cases hdeep
        · obtain rfl := Except.ok.inj hv
          obtain ⟨x, w, hx, hw, -⟩ := hall members rfl
          exact hnot' x w hx hw
    | _ =>
      obtain rfl := Except.error.inj h
      exact iff_of_true rfl (Or.inr ⟨_, rfl, nofun⟩)

/-! ### Fetching -/

/-- The replies, in the order in which they are asked for: the first that is not a share in form,
if there is one, does not slip past, and if there is none the shares can be combined. -/
def Tolerable (received : ℕ → Except PyError Json) (picks : List ℕ) : Prop :=
  (∀ pre i post, picks = pre ++ i :: post → (∀ j ∈ pre, ∃ share, Gives (received j) share) →
    ¬ Slips (received i)) ∧
  ∀ collected, List.Forall₂ (fun i share => Gives (received i) share) picks collected →
    Combinable collected

theorem not_slips_of_gives {received : Except PyError Json} {share : Json × Bytes}
    (h : Gives received share) : ¬ Slips received := by
  obtain ⟨members, s, rfl, -, hs, -⟩ := h
  rintro (hdeep | ⟨v, hv, hall⟩)
  · cases hdeep
  · obtain rfl := Except.ok.inj hv
    obtain ⟨x, w, -, hw, hnot⟩ := hall members rfl
    exact hnot s (Option.some.inj (hw.symm.trans hs))

section Fetch

variable {received : ℕ → Except PyError Json} {picks : List ℕ}

/-- All replies are shares in form. -/
theorem tolerable_of_collected {collected : List (Json × Bytes)}
    (h : (picks.mapM fun i => do readAny (← received i)) = .ok collected) :
    Tolerable received picks ↔ Combinable collected := by
  have hall : List.Forall₂ (fun i share => Gives (received i) share) picks collected :=
    (mapM_eq_ok_iff.mp h).imp fun _ _ => readAny_eq_ok.mp
  constructor
  · exact fun htolerable => htolerable.2 collected hall
  · intro hcombinable
    refine ⟨fun pre i post hpicks _ => ?_, fun collected' hall' => ?_⟩
    · obtain ⟨share, hshare⟩ := mapM_eq_ok h i (by rw [hpicks]; simp)
      exact not_slips_of_gives (readAny_eq_ok.mp hshare)
    · have h' := mapM_eq_ok_iff.mpr (hall'.imp fun _ _ => readAny_eq_ok.mpr)
      obtain rfl := Except.ok.inj (h.symm.trans h')
      exact hcombinable

/-- Some reply is not a share in form. -/
theorem tolerable_of_raised
    (hreceived : ∀ i e, received i = .error e → e = .osError ∨ e = .eofError ∨ Json.Rejects e)
    {e : PyError} (h : (picks.mapM fun i => do readAny (← received i)) = .error e) :
    Tolerable received picks ↔ caught e = true := by
  obtain ⟨pre, i, post, rfl, hpre, hi⟩ := exists_of_mapM_eq_error h
  have hgives : ∀ j ∈ pre, ∃ share, Gives (received j) share := by
    intro j hj
    obtain ⟨share, hshare⟩ := hpre j hj
    exact ⟨share, readAny_eq_ok.mp hshare⟩
  have hslips := caught_iff (hreceived i) hi
  rw [← Bool.not_eq_false, hslips]
  refine ⟨fun htolerable => htolerable.1 pre i post rfl hgives, fun hnot => ⟨?_, ?_⟩⟩
  · intro pre' j post' hsplit hpre'
    -- an earlier one is a share in form, and a later one is not asked for
    rcases List.append_eq_append_iff.mp hsplit with ⟨a, rfl, ha⟩ | ⟨a, rfl, ha⟩
    · cases a with
      | nil =>
        obtain ⟨rfl, -⟩ := List.cons.inj ha
        exact hnot
      | cons b a =>
        obtain ⟨rfl, -⟩ := List.cons.inj ha
        obtain ⟨share, hshare⟩ := hpre' i (by simp)
        rw [readAny_eq_ok.mpr hshare] at hi
        cases hi
    · cases a with
      | nil =>
        obtain ⟨rfl, -⟩ := List.cons.inj ha
        exact hnot
      | cons b a =>
        obtain ⟨rfl, -⟩ := List.cons.inj ha
        obtain ⟨share, hshare⟩ := hgives j (by simp)
        exact not_slips_of_gives hshare
  · intro collected hall
    have hok := mapM_eq_ok_iff.mpr (hall.imp fun _ _ => readAny_eq_ok.mpr)
    rw [h] at hok
    cases hok

/-- **Fetching.**  With too few holders left it raises what it should; else it goes by the
replies. -/
theorem survives_iff {k n : ℕ} {compromised : ℕ → Bool}
    (hreceived : ∀ i e, received i = .error e → e = .osError ∨ e = .eofError ∨ Json.Rejects e) :
    Survives (fetchAny k n compromised received) ↔
      (k ≤ (aliveIndices n compromised).length →
        Tolerable received ((aliveIndices n compromised).take k)) := by
  rw [fetchAny]
  by_cases hfew : (aliveIndices n compromised).length < k
  · rw [if_pos hfew]
    exact iff_of_true (Or.inr rfl) fun henough => absurd hfew (not_lt.mpr henough)
  rw [if_neg hfew, forall_prop_of_true (not_lt.mp hfew)]
  split
  · rename_i collected hcollected
    rw [tolerable_of_collected hcollected, ← (returnsIff_combineAny collected).exists_iff]
    refine or_iff_left fun hraised => ?_
    exact raises_combineAny collected _ hraised rfl
  · rename_i e hraised
    rw [tolerable_of_raised hreceived hraised, Survives]
    cases hcaught : caught e with
    | true => simp
    | false =>
      refine iff_of_false ?_ nofun
      rintro (⟨secret, hok⟩ | hcompromised)
      · cases hok
      · obtain rfl : e = .trustGroupCompromised := Except.error.inj hcompromised
        obtain ⟨pre, i, post, -, -, hi⟩ := exists_of_mapM_eq_error hraised
        rcases bind_eq_error.mp hi with hi | ⟨v, -, hi⟩
        · rcases hreceived i _ hi with h | h | h | h <;> cases h
        · exact readAny_raises v _ hi rfl

/-- An exchange that `fetch` has been told of before: with an index that is a whole number. -/
def Answers (answer : Answer) (read : Except PyError (Json × Bytes)) : Prop :=
  (∃ n y, answer = .reply n y ∧ read = .ok (.int n, y)) ∨ ∃ e, answer = .raises e ∧ read = .error e

theorem collect_eq_mapM {ask : ℕ → Answer}
    (hask : ∀ i, Answers (ask i) (do readAny (← received i))) (picks : List ℕ) :
    (∃ l, collect ask picks = .shares l ∧ (picks.mapM fun i => do readAny (← received i))
      = .ok (l.map (Prod.map Json.int id))) ∨
    ∃ i e, collect ask picks = .failed i e ∧
      (picks.mapM fun i => do readAny (← received i)) = .error e := by
  induction picks with
  | nil => exact Or.inl ⟨[], rfl, rfl⟩
  | cons i rest ih =>
    rw [List.mapM_cons, collect]
    rcases hask i with ⟨n, y, hans, hread⟩ | ⟨e, hans, hread⟩
    · rw [hans, hread, ok_bind]
      dsimp only
      rcases ih with ⟨l, hcollect, hmapM⟩ | ⟨j, e, hcollect, hmapM⟩
      · rw [hcollect, hmapM]
        exact Or.inl ⟨(n, y) :: l, rfl, rfl⟩
      · rw [hcollect, hmapM]
        exact Or.inr ⟨j, e, rfl, rfl⟩
    · rw [hans, hread]
      exact Or.inr ⟨i, e, rfl, rfl⟩

/-- With whole numbers for indices it is the `fetch` of honest holders. -/
theorem fetch_eq_fetchAny {k n : ℕ} {compromised : ℕ → Bool} {ask : ℕ → Answer}
    (hask : ∀ i, Answers (ask i) (do readAny (← received i))) :
    fetch caught k n compromised ask =
      match fetchAny k n compromised received with
      | .ok secret => .returned secret
      | .error e => .raised e := by
  rw [fetch, fetchAny]
  by_cases hfew : (aliveIndices n compromised).length < k
  · rw [if_pos hfew, if_pos hfew]
  · rw [if_neg hfew, if_neg hfew]
    rcases collect_eq_mapM hask ((aliveIndices n compromised).take k) with
      ⟨l, hcollect, hmapM⟩ | ⟨i, e, hcollect, hmapM⟩
    · rw [hcollect, hmapM]
      dsimp only
      rw [combineAny_int]
      cases hcombine : combineShares l with
      | ok secret => rw [combined, hcombine]
      | error e => rw [combined, hcombine]
    · rw [hcollect, hmapM]

end Fetch

/-- **Misbehaving holders.**  Whatever the holders send, a ping returns exactly when what it
receives is an object, if it can be read, and not too deep; the monitor runs exactly as long as
that is so; and a fetch returns bytes or raises `TrustGroupCompromised` exactly when the replies
up to the first that is not a share in form do not slip past its `try`, and the shares can be
combined if there is none. -/
theorem misbehaving_holders (depth : ℕ) :
    (∀ incoming, (∃ b, ping depth incoming = .ok b) ↔ Pingable (exchange depth incoming)) ∧
    (∀ n as s, Run (WatchStep depth n) (.watching 0 ∅) as s →
      ((∃ i compromised, s = .watching i compromised) ↔
        ∀ i incoming, some (i, incoming) ∈ as → Pingable (exchange depth incoming))) ∧
    ∀ k n compromised (incoming : ℕ → Incoming),
      Survives (fetchAny k n compromised fun i => exchange depth (incoming i)) ↔
        (k ≤ (aliveIndices n compromised).length →
          Tolerable (fun i => exchange depth (incoming i))
            ((aliveIndices n compromised).take k)) :=
  ⟨ping_ok_iff depth, fun _ _ _ hrun => watching_iff hrun,
    fun _ _ _ _ => survives_iff fun _ _ h => exchange_error h⟩

/-- A line that comes at once. -/
theorem exchange_line (depth : ℕ) (v : Json) :
    exchange depth ⟨true, [line v]⟩ = parseLine depth (line v) := by
  have hlast : (line v).getLast? = some 10 := by
    rw [line, NetworkTrustGroup.encode, List.map_append]
    simp
  obtain ⟨b, bs, hline⟩ : ∃ b bs, line v = b :: bs := by
    refine List.exists_cons_of_ne_nil fun hnil => ?_
    rw [hnil] at hlast
    cases hlast
  rw [hline] at hlast ⊢
  show recvLine depth [] [b :: bs] = _
  rw [recvLine.eq_def, if_neg (by simp)]
  show recvLine depth (b :: bs) [] = _
  rw [recvLine, if_pos hlast]

/-- A reply of the holder's own code, at once. -/
theorem exchange_reply {share : ℤ × Bytes} (h : NetworkTrustGroup.Dealt share)
    (hlen : (Json.decimal share.1.toNat).length ≤ Json.maxDigits) (op : NetworkTrustGroup.Op)
    (depth : ℕ) : exchange depth ⟨true, [line (reply share op)]⟩ = .ok (reply share op) :=
  (exchange_line ..).trans (NetworkTrustGroup.parseLine_line h hlen op depth)

/-- The first of three holders answers no ping, and is recorded; a thread in `fetch` records the
second, whose ping is answered, and the other two send two shares. -/
theorem misbehaving_holders_sample :
    (∃ b, ping 100 ⟨true, [line (reply (2, [1]) .ping)]⟩ = .ok b) ∧
    (∃ as i compromised, Run (WatchStep 100 3) (.watching 0 ∅) as (.watching i compromised) ∧
      (0, ⟨true, []⟩) ∈ as.reduceOption ∧
      (1, ⟨true, [line (reply (2, [1]) .ping)]⟩) ∈ as.reduceOption ∧
      (∀ i incoming, some (i, incoming) ∈ as → Pingable (exchange 100 incoming)) ∧
      0 ∈ compromised ∧ 1 ∈ compromised) ∧
    Survives (fetchAny 2 3 (fun i => i = 0) fun i =>
      exchange 100 ⟨true, [line (reply ((i : ℤ) + 1, [0]) .getShare)]⟩) := by
  obtain ⟨hping, hmonitor, hfetch⟩ := misbehaving_holders 100
  have hdealt : ∀ (i : ℕ) (y : Bytes), NetworkTrustGroup.Dealt ((i : ℤ) + 1, y) := fun i y =>
    show (0 : ℤ) ≤ i + 1 by omega
  have hanswer : exchange 100 ⟨true, [line (reply (2, [1]) .ping)]⟩
      = .ok (reply (2, [1]) .ping) :=
    exchange_reply (hdealt 1 [1]) (by decide) .ping 100
  have hpong : ping 100 ⟨true, [line (reply (2, [1]) .ping)]⟩ = .ok true := by
    rw [ping, hanswer]
    rfl
  have hsilent : ping 100 ⟨true, []⟩ = .ok false := by
    rw [ping, exchange, if_pos rfl, recvLine, if_neg (by simp)]
    rfl
  refine ⟨(hping _).mpr ?_, ?_, (hfetch 2 3 (fun i => i = 0) _).mpr fun _ => ?_⟩
  · rw [hanswer]
    exact ⟨nofun, fun v hv => ⟨_, (Except.ok.inj hv).symm⟩⟩
  · have hrun := Run.refl (WatchStep 100 3) (.watching 0 ∅)
      |>.snoc (.ping (i := 0) (by decide) (Finset.notMem_empty 0) hsilent)
      |>.snoc (.ping (i := 1) (by decide) (by decide) hpong)
      |>.snoc (.recorded (j := 1))
    exact ⟨_, _, _, hrun, by simp [List.reduceOption], by simp [List.reduceOption],
      (hmonitor 3 _ _ hrun).mp ⟨_, _, rfl⟩, by simp, by simp⟩
  · have hshare : ∀ i : ℕ, i = 1 ∨ i = 2 →
        exchange 100 ⟨true, [line (reply ((i : ℤ) + 1, [0]) .getShare)]⟩
          = .ok (reply ((i : ℤ) + 1, [0]) .getShare) := by
      rintro i (rfl | rfl)
      · exact exchange_reply (hdealt 1 [0]) (by decide) .getShare 100
      · exact exchange_reply (hdealt 2 [0]) (by decide) .getShare 100
    have hcollected : ((aliveIndices 3 fun i => i = 0).take 2).mapM (fun i => do
        readAny (← exchange 100 ⟨true, [line (reply ((i : ℤ) + 1, [0]) .getShare)]⟩))
          = .ok [(.int 2, [0]), (.int 3, [0])] := by
      have hpicks : (aliveIndices 3 fun i => i = 0).take 2 = [1, 2] := by decide
      rw [hpicks, List.mapM_cons, List.mapM_cons, List.mapM_nil, hshare 1 (Or.inl rfl),
        hshare 2 (Or.inr rfl)]
      rfl
    refine (tolerable_of_collected hcollected).mpr (Or.inr ⟨by decide, ?_, by decide⟩)
    simp [wholeNumber, InTable]

/-- A ping is answered with a number; and two holders send the same index. -/
theorem holder_crashes_client :
    (¬ ∀ incoming, ∃ b, ping 100 incoming = .ok b) ∧
    ¬ ∀ incoming : ℕ → Incoming,
      Survives (fetchAny 2 2 (fun _ => false) fun i => exchange 100 (incoming i)) := by
  constructor
  · intro hall
    obtain ⟨b, hb⟩ := hall ⟨true, [line (.int 1)]⟩
    have hraised : ping 100 ⟨true, [line (.int 1)]⟩ = .error .attributeError := by decide +kernel
    rw [hraised] at hb
    cases hb
  · intro hall
    have hraised : fetchAny 2 2 (fun _ => false)
        (fun _ => exchange 100 ⟨true, [line (reply (1, [0]) .getShare)]⟩)
          = .error .zeroDivisionError := by decide +kernel
    have hsurvives := hall fun _ => ⟨true, [line (reply (1, [0]) .getShare)]⟩
    rw [hraised] at hsurvives
    rcases hsurvives with ⟨secret, hok⟩ | hcompromised
    · cases hok
    · cases hcompromised

end MisbehavingHolders
