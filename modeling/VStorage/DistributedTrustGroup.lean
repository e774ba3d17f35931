/-
`distributed_key.py`: holders as local processes behind pipes.

Every holder keeps its share in a page that its own watchdog may zero, in one step,
before it kills the holder, in another; in between the holder still serves requests.
To serve one it receives it, copies the page and sends the copy, in three steps.  The
fetching threads, the monitor, the holders and their watchdogs take their steps in any
order.

* `fetch_returns_secret`: as long as no holder copies a page that has been zeroed,
  every fetch that returns, returns the secret.
* `fetch_returns_zeroed_share`: a holder that does sends zeros, and the fetch returns
  something else.
-/
import Mathlib
import VStorage.Runs
import VStorage.TrustGroup

/-! ### Holders -/

/-- What the parent sends down a pipe. -/
inductive Request
  | getShare
  | stop
  deriving DecidableEq, Repr

/-- Where `_holder_process` is in its loop: at `recv()`, at `bytes(buf[:n])`, or at the
`send` of what it has copied. -/
inductive HolderPhase
  | receiving
  | reading
  | sending (copy : Bytes)
  deriving DecidableEq, Repr

/-- `_holder_process` with its watchdog: the arguments it was started with, the bytes
of its page that hold the share, and the messages in its pipe, both ways.  The watchdog
is a process of its own, `watched` while it runs; it was forked with the holder's end of
the pipe open, and keeps it open. -/
structure Holder where
  x : ℤ
  shareBytes : Bytes
  page : Bytes
  phase : HolderPhase
  running : Bool
  watched : Bool
  detected : Bool
  requests : List Request
  replies : List (ℤ × Bytes)
  deriving DecidableEq, Repr

namespace Holder

def new (share : ℤ × Bytes) : Holder :=
  { x := share.1, shareBytes := share.2, page := share.2, phase := .receiving
    running := true, watched := true, detected := false, requests := [], replies := [] }

/-- One step of the loop of `_holder_process`. -/
def serve (h : Holder) : Holder :=
  match h.phase with
  | .receiving =>
    match h.requests with
    | [] => h
    | .getShare :: rest => { h with requests := rest, phase := .reading }
    | .stop :: rest => { h with requests := rest, running := false }
  | .reading => { h with phase := .sending h.page }
  | .sending copy => { h with phase := .receiving, replies := h.replies ++ [(h.x, copy)] }

/-- `_watch_process` has found a tracer and writes zeros over the registered region. -/
def wipe (h : Holder) : Holder :=
  { h with page := List.replicate h.shareBytes.length 0, detected := true }

/-- `os.kill(target_pid, SIGKILL)`, or any other end of the process. -/
def exit (h : Holder) : Holder := { h with running := false }

/-- The watchdog returns, or ends otherwise. -/
def leave (h : Holder) : Holder := { h with watched := false }

/-- The share is in the page as it was put there. -/
def Intact (h : Holder) : Prop := h.page = h.shareBytes

instance (h : Holder) : Decidable h.Intact := inferInstanceAs (Decidable (_ = _))

end Holder

/-! ### The group -/

namespace DistributedTrustGroup

/-- `conn.send("get_share")`, then `conn.recv()`. -/
inductive Talk
  | toSend
  | sent
  deriving DecidableEq, Repr

/-- The exchange over the pipe to holder `i`.  What a holder has sent can be received
after its end; then the pipe reports the end of file.  As long as the watchdog has the
other end, a request to a dead holder is taken, and `recv()` waits. -/
inductive PipeTalk (w : ℕ → Holder) (i : ℕ) : Talk → (ℕ → Holder) → Progress Talk → Prop
  | send : (w i).running = true ∨ (w i).watched = true → PipeTalk w i .toSend
      (Function.update w i { w i with requests := (w i).requests ++ [.getShare] }) (.more .sent)
  | broken : (w i).running = false → (w i).watched = false →
      PipeTalk w i .toSend w (.raises .osError)
  | recv {x : ℤ} {y : Bytes} {rest : List (ℤ × Bytes)} : (w i).replies = (x, y) :: rest →
      PipeTalk w i .sent (Function.update w i { w i with replies := rest }) (.reply x y)
  | eof : (w i).running = false → (w i).watched = false → (w i).replies = [] →
      PipeTalk w i .sent w (.raises .eofError)

/-- `except (EOFError, BrokenPipeError, OSError)`. -/
def caught (e : PyError) : Bool := e = .eofError ∨ e = .osError

def protocol (k n : ℕ) (killThreshold : ℤ) : Protocol (ℕ → Holder) Talk where
  k := k
  n := n
  killThreshold := killThreshold
  caught := caught
  start := .toSend
  talk := PipeTalk

/-- Where the monitor thread is. -/
inductive Monitor
  | testing (i : ℕ)
  | marking (i : ℕ) (mark : Mark)

structure State where
  group : TrustGroup (ℕ → Holder)
  fetchers : ℕ → FetchPhase Talk
  monitor : Monitor

def start (shares : List (ℤ × Bytes)) : State where
  group := { world := fun i => Holder.new (shares.getD i default), tally := .new, lock := none }
  fetchers := fun _ => .idle
  monitor := .testing 0

/-- Who takes a step. -/
inductive Event
  | fetcher (t : ℕ) (news : News)
  | monitor
  | serve (i : ℕ)
  | wipe (i : ℕ)
  | kill (i : ℕ)
  | leave (i : ℕ)
  | die (i : ℕ)

/-- The steps of `_monitor`. -/
inductive MonitorStep (n : ℕ) (killThreshold : ℤ) :
    TrustGroup (ℕ → Holder) → Monitor → Tally → Monitor → Prop
  | pass {g : TrustGroup (ℕ → Holder)} {i : ℕ} : i < n →
      i ∈ g.tally.compromised ∨ (g.world i).running = true →
      MonitorStep n killThreshold g (.testing i) g.tally (.testing (i + 1))
  | found {g : TrustGroup (ℕ → Holder)} {i : ℕ} : i < n → i ∉ g.tally.compromised →
      (g.world i).running = false →
      MonitorStep n killThreshold g (.testing i) g.tally (.marking i .check)
  | sleep {g : TrustGroup (ℕ → Holder)} :
      MonitorStep n killThreshold g (.testing n) g.tally (.testing 0)
  | mark {g : TrustGroup (ℕ → Holder)} {i : ℕ} {mark : Mark} : mark ≠ .done →
      MonitorStep n killThreshold g (.marking i mark)
        (mark.step killThreshold i g.tally).1
        (.marking i (mark.step killThreshold i g.tally).2)
  | marked {g : TrustGroup (ℕ → Holder)} {i : ℕ} :
      MonitorStep n killThreshold g (.marking i .done) g.tally (.testing (i + 1))

/-- Replace one holder. -/
def State.setHolder (s : State) (i : ℕ) (h : Holder) : State :=
  { s with group := { s.group with world := Function.update s.group.world i h } }

/-- One step of anyone.  The threads of the main process stop when it is killed. -/
inductive Step (p : Protocol (ℕ → Holder) Talk) : State → Event → State → Prop
  | fetcher {s : State} {t : ℕ} {phase phase' : FetchPhase Talk} {news : News}
      {g : TrustGroup (ℕ → Holder)} : s.group.tally.killed = false → s.fetchers t = phase →
      FetchStep p t s.group phase news g phase' →
      Step p s (.fetcher t news) { s with group := g, fetchers := Function.update s.fetchers t phase' }
  | monitor {s : State} {tally : Tally} {monitor : Monitor} :
      s.group.tally.killed = false →
      MonitorStep p.n p.killThreshold s.group s.monitor tally monitor →
      Step p s .monitor { s with group := { s.group with tally := tally }, monitor := monitor }
  | serve {s : State} {i : ℕ} : (s.group.world i).running = true →
      Step p s (.serve i) (s.setHolder i (s.group.world i).serve)
  | wipe {s : State} {i : ℕ} : (s.group.world i).running = true →
      (s.group.world i).watched = true → (s.group.world i).detected = false →
      Step p s (.wipe i) (s.setHolder i (s.group.world i).wipe)
  | kill {s : State} {i : ℕ} : (s.group.world i).watched = true →
      (s.group.world i).detected = true →
      Step p s (.kill i) (s.setHolder i (s.group.world i).exit)
  | leave {s : State} {i : ℕ} :
      Step p s (.leave i) (s.setHolder i (s.group.world i).leave)
  | die {s : State} {i : ℕ} : Step p s (.die i) (s.setHolder i (s.group.world i).exit)

/-- What thread `t` has been told in a run. -/
def Event.note (t : ℕ) (notes : Notes) : Event → Notes
  | .fetcher u news => if u = t then notes.read news else notes
  | _ => notes

def notes (t : ℕ) (events : List Event) : Notes := events.foldl (Event.note t) .blank

theorem notes_snoc (t : ℕ) (events : List Event) (event : Event) :
    notes t (events ++ [event]) = event.note t (notes t events) :=
  List.foldl_append ..

/-! ### Safety -/

/-- Whoever copies its page finds it intact. -/
def ReadsIntact (s : State) (event : Event) : Prop :=
  ∀ i, event = .serve i → (s.group.world i).phase = .reading → (s.group.world i).Intact

theorem readsIntact_serve {s : State} {i : ℕ}
    (h : (s.group.world i).phase = .reading → (s.group.world i).Intact) :
    ReadsIntact s (.serve i) := by
  intro j hj
  obtain rfl := Event.serve.inj hj
  exact h

/-- A holder that was dealt `share`, and has copied and handed over nothing else. -/
structure Honest (share : ℤ × Bytes) (h : Holder) : Prop where
  dealt : (h.x, h.shareBytes) = share
  sending : ∀ copy, h.phase = .sending copy → copy = h.shareBytes
  replies : ∀ reply ∈ h.replies, reply = share

theorem Honest.serve {share : ℤ × Bytes} {h : Holder} (hh : Honest share h)
    (hi : h.phase = .reading → h.Intact) : Honest share h.serve := by
  unfold Holder.serve
  split
  · split
    · exact hh
    · exact ⟨hh.dealt, nofun, hh.replies⟩
    · exact ⟨hh.dealt, hh.sending, hh.replies⟩
  · rename_i hphase
    refine ⟨hh.dealt, fun copy hcopy => ?_, hh.replies⟩
    obtain rfl := HolderPhase.sending.inj hcopy
    exact hi hphase
  · rename_i copy hphase
    refine ⟨hh.dealt, nofun, fun reply hreply => ?_⟩
    rcases List.mem_append.mp hreply with hreply | hreply
    · exact hh.replies reply hreply
    · rw [List.mem_singleton.mp hreply, hh.sending copy hphase]
      exact hh.dealt

/-- The invariant: honest holders, and threads that have seen genuine shares only. -/
structure Inv (p : Protocol (ℕ → Holder) Talk) (shares : List (ℤ × Bytes))
    (events : List Event) (s : State) : Prop where
  holders : ∀ i, Honest (shares.getD i default) (s.group.world i)
  fetchers : ∀ t, Observed p shares (notes t events) (s.fetchers t)

theorem inv_start (p : Protocol (ℕ → Holder) Talk) (shares : List (ℤ × Bytes)) :
    Inv p shares [] (start shares) :=
  ⟨fun _ => ⟨rfl, nofun, nofun⟩, fun _ => observed_blank p shares⟩

/-- A step that no fetching thread takes. -/
theorem Inv.away {p : Protocol (ℕ → Holder) Talk} {shares : List (ℤ × Bytes)}
    {events : List Event} {s s' : State} {event : Event} (h : Inv p shares events s)
    (haway : ∀ t notes, event.note t notes = notes) (hfetchers : s'.fetchers = s.fetchers)
    (hholders : ∀ i, Honest (shares.getD i default) (s'.group.world i)) :
    Inv p shares (events ++ [event]) s' := by
  refine ⟨hholders, fun t => ?_⟩
  rw [notes_snoc, haway, hfetchers]
  exact h.fetchers t

theorem honest_setHolder {shares : List (ℤ × Bytes)} {s : State} {i : ℕ} {holder : Holder}
    (h : ∀ j, Honest (shares.getD j default) (s.group.world j))
    (hi : Honest (shares.getD i default) holder) (j : ℕ) :
    Honest (shares.getD j default) ((s.setHolder i holder).group.world j) := by
  show Honest _ (Function.update s.group.world i holder j)
  by_cases hj : j = i
  · subst hj
    rwa [Function.update_self]
  · rw [Function.update_of_ne hj]
    exact h j

/-- An exchange takes a message off a pipe or puts a request on it. -/
theorem PipeTalk.honest {shares : List (ℤ × Bytes)} {w w' : ℕ → Holder} {i : ℕ} {talk : Talk}
    {progress : Progress Talk} (h : PipeTalk w i talk w' progress)
    (hw : ∀ j, Honest (shares.getD j default) (w j)) (j : ℕ) :
    Honest (shares.getD j default) (w' j) := by
  cases h with
  | send =>
    by_cases hj : j = i
    · subst hj
      rw [Function.update_self]
      exact ⟨(hw j).dealt, (hw j).sending, (hw j).replies⟩
    · rw [Function.update_of_ne hj]
      exact hw j
  | recv hreplies =>
    by_cases hj : j = i
    · subst hj
      rw [Function.update_self]
      exact ⟨(hw j).dealt, (hw j).sending, fun reply hr => (hw j).replies reply
        (hreplies ▸ List.mem_cons_of_mem _ hr)⟩
    · rw [Function.update_of_ne hj]
      exact hw j
  | broken => exact hw j
  | eof => exact hw j

theorem PipeTalk.reply_genuine {shares : List (ℤ × Bytes)} {w w' : ℕ → Holder} {i : ℕ}
    {talk : Talk} {x : ℤ} {y : Bytes} (h : PipeTalk w i talk w' (.reply x y))
    (hw : ∀ j, Honest (shares.getD j default) (w j)) : (x, y) = shares.getD i default := by
  cases h with
  | recv hreplies => exact (hw i).replies _ (hreplies ▸ List.mem_cons_self)

theorem Inv.step {k n : ℕ} {killThreshold : ℤ} {shares : List (ℤ × Bytes)}
    {events : List Event} {s s' : State} {event : Event}
    (h : Inv (protocol k n killThreshold) shares events s)
    (hstep : Guarded (Step (protocol k n killThreshold)) ReadsIntact s event s') :
    Inv (protocol k n killThreshold) shares (events ++ [event]) s' := by
  obtain ⟨hstep, hintact⟩ := hstep
  cases hstep with
  | @fetcher t phase phase' news g _ hphase hfetch =>
    refine ⟨?_, fun u => ?_⟩
    · obtain hworld | ⟨-, i, talk, progress, htalk⟩ := hfetch.world_cases
      · show ∀ i, Honest _ (g.world i)
        rw [hworld]
        exact h.holders
      · exact htalk.honest h.holders
    · rw [notes_snoc]
      show Observed _ shares _ (Function.update s.fetchers t phase' u)
      by_cases hu : u = t
      · subst hu
        rw [Function.update_self, Event.note, if_pos rfl]
        have hobs := h.fetchers u
        rw [hphase] at hobs
        exact hobs.step hfetch fun _ htalk => PipeTalk.reply_genuine htalk h.holders
      · rw [Function.update_of_ne hu, Event.note, if_neg (Ne.symm hu)]
        exact h.fetchers u
  | monitor => exact h.away (fun _ _ => rfl) rfl h.holders
  | serve =>
    exact h.away (fun _ _ => rfl) rfl
      (honest_setHolder h.holders ((h.holders _).serve (hintact _ rfl)))
  | wipe | kill | leave | die =>
    exact h.away (fun _ _ => rfl) rfl (honest_setHolder h.holders
      ⟨(h.holders _).dealt, (h.holders _).sending, (h.holders _).replies⟩)

theorem inv_of_run {k n : ℕ} {killThreshold : ℤ} {shares : List (ℤ × Bytes)}
    {events : List Event} {s : State}
    (hrun : Run (Guarded (Step (protocol k n killThreshold)) ReadsIntact) (start shares)
      events s) : Inv (protocol k n killThreshold) shares events s :=
  hrun.history (inv_start _ shares) Inv.step

/-- **Fetching.**  In every run in which no holder copies its share out of a page that
its watchdog has zeroed, every call of `fetch` that has returned has returned the
secret that was split. -/
theorem fetch_returns_secret {secret : Bytes} {k n : ℕ} {urandom : ℕ → ℕ → UInt8}
    {shares : List (ℤ × Bytes)} (hsplit : splitSecret secret k n urandom = .ok shares)
    {killThreshold : ℤ} {events : List Event} {s : State}
    (hrun : Run (Guarded (Step (protocol k n killThreshold)) ReadsIntact) (start shares)
      events s) (t : ℕ) (v : Bytes) (hreturned : s.fetchers t = .returned v) : v = secret := by
  have hobs := (inv_of_run hrun).fetchers t
  rw [hreturned] at hobs
  exact hobs.eq_secret hsplit

theorem fetch_returns_secret_one :
    ∃ events s v, Run (Guarded (Step (protocol 1 1 0)) ReadsIntact)
        (start [(1, List.replicate 32 5)]) events s ∧
      s.fetchers 0 = .returned v ∧ v = List.replicate 32 5 := by
  have hsplit : splitSecret (List.replicate 32 5) 1 1 (fun _ _ => 0)
      = .ok [(1, List.replicate 32 5)] := by decide +kernel
  have hfive : combineShares [(1, List.replicate 32 5)] = .ok (List.replicate 32 5) :=
    combineShares_single 1 _
  have hrun := Run.refl (Guarded (Step (protocol 1 1 0)) ReadsIntact)
      (start [(1, List.replicate 32 5)])
    |>.snoc ⟨.fetcher (t := 0) rfl rfl .call, fun _ h => nomatch h⟩
    |>.snoc ⟨.fetcher (t := 0) rfl rfl (.scan (by decide)), fun _ h => nomatch h⟩
    |>.snoc ⟨.fetcher (t := 0) rfl rfl (.enough (by decide)), fun _ h => nomatch h⟩
    |>.snoc ⟨.fetcher (t := 0) rfl rfl (.acquire rfl), fun _ h => nomatch h⟩
    |>.snoc ⟨.fetcher (t := 0) rfl rfl (.more (.send (Or.inl rfl))), fun _ h => nomatch h⟩
    |>.snoc ⟨.serve (i := 0) rfl, readsIntact_serve nofun⟩
    |>.snoc ⟨.serve (i := 0) rfl, readsIntact_serve fun _ => rfl⟩
    -- what it has copied it can send after its page has been zeroed
    |>.snoc ⟨.wipe (i := 0) rfl rfl rfl, fun _ h => nomatch h⟩
    |>.snoc ⟨.serve (i := 0) rfl, readsIntact_serve nofun⟩
    |>.snoc ⟨.fetcher (t := 0) rfl rfl (.reply (.recv rfl)), fun _ h => nomatch h⟩
    |>.snoc ⟨.fetcher (t := 0) rfl rfl .release, fun _ h => nomatch h⟩
    |>.snoc ⟨.fetcher (t := 0) rfl rfl (.combine hfive), fun _ h => nomatch h⟩
  exact ⟨_, _, _, hrun, rfl, fetch_returns_secret hsplit hrun 0 _ rfl⟩

/-- One holder with a constant secret, its page zeroed after it has received the request. -/
theorem fetch_returns_zeroed_share :
    ∃ shares events s, splitSecret (List.replicate 32 5) 1 1 (fun _ _ => 0) = .ok shares ∧
      Run (Step (protocol 1 1 0)) (start shares) events s ∧
      s.fetchers 0 = .returned (List.replicate 32 0) := by
  have hzero : combineShares [(1, List.replicate 32 0)] = .ok (List.replicate 32 0) :=
    combineShares_single 1 _
  exact ⟨[(1, List.replicate 32 5)], _, _, by decide +kernel,
    Run.nil
      |>.snoc (.fetcher (t := 0) rfl rfl .call)
      |>.snoc (.fetcher (t := 0) rfl rfl (.scan (by decide)))
      |>.snoc (.fetcher (t := 0) rfl rfl (.enough (by decide)))
      |>.snoc (.fetcher (t := 0) rfl rfl (.acquire rfl))
      |>.snoc (.fetcher (t := 0) rfl rfl (.more (.send (Or.inl rfl))))
      |>.snoc (.serve (i := 0) rfl)
      |>.snoc (.wipe (i := 0) rfl rfl rfl)
      |>.snoc (.serve (i := 0) rfl)
      |>.snoc (.serve (i := 0) rfl)
      |>.snoc (.fetcher (t := 0) rfl rfl (.reply (.recv rfl)))
      |>.snoc (.fetcher (t := 0) rfl rfl .release)
      |>.snoc (.fetcher (t := 0) rfl rfl (.combine hzero)), rfl⟩

end DistributedTrustGroup
