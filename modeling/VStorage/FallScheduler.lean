/-
The shared fall scheduler of `chunked_secure_box.py`, over a trust group.

A few workers take boxes off a heap, make each hop once under its lock, and push it
back.  A hop that completes a generation calls `fetch`, and the worker goes through the
call as one of the threads of the trust group, whose holders may be lost at any moment.
An exception out of a hop makes the worker drop the box.

* `scheduled_of_tolerated`: as long as every holder that a call asks answers, no box is
  dropped.
* `dropped_with_four_of_five`: one holder lost at the wrong moment, out of five of which
  three are needed, and a box is never serviced again.
-/
import Mathlib
import VStorage.FetchTolerance
import VStorage.HolderLoss
import VStorage.TwoGenerations

open ChunkedSecureBox (HopEnv Source construct Regular)

/-! ### Hops -/

namespace ChunkedSecureBox

variable {P : Primitives}

/-- The next hop ends a generation: the box will rotate, and ask for a key. -/
def Completing (box : ChunkedSecureBox) : Prop := (box.advance box.pools).Wrapped

theorem wrapped_iff_completing {box : ChunkedSecureBox} {cells : List (ℕ × ℕ)}
    {pools : List ChunkPool} : ((box.bounces cells).advance pools).Wrapped ↔ box.Completing := by
  rw [bounces_eq]
  rfl

/-- A hop raises only when the world does, and the trust group only if it is asked. -/
theorem Regular.hop_ok {plains : List Bytes} {box : ChunkedSecureBox} (h : Regular P plains box)
    {env : HopEnv}
    (hfetch : box.trustGroup = true → box.Completing → ∃ external, env.fetch = .ok external)
    (hmmap : ∃ pages, env.mmap = .ok pages) (hcall : env.callback = .ok ()) :
    (box.hop P env).outcome = .ok () := by
  by_cases hc : box.Completing
  · exact h.hop_returns (fun ht => hfetch ht hc) hmmap hcall
  · obtain ⟨ck, nk, hold, -⟩ := h
    obtain ⟨pools, -, ⟨-, hhop⟩ | ⟨hw, -⟩⟩ := hop_cases hold env
    · rw [hhop]
    · exact absurd (wrapped_iff_completing.mp hw) hc

/-- A hop that asks the trust group in vain raises. -/
theorem Regular.hop_raises {plains : List Bytes} {box : ChunkedSecureBox}
    (h : Regular P plains box) {env : HopEnv} (ht : box.trustGroup = true)
    (hc : box.Completing) {e : PyError} (hfetch : env.fetch = .error e) :
    (box.hop P env).outcome = .error e := by
  obtain ⟨ck, nk, hold, -⟩ := h
  obtain ⟨pools, -, ⟨hw, -⟩ | ⟨-, hhop⟩⟩ := hop_cases hold env
  · exact absurd (wrapped_iff_completing.mpr hc) hw
  · have hkey : nextKey P ((box.bounces env.between).advance pools).trustGroup env.fetch nk
        = .error e := by
      rw [show ((box.bounces env.between).advance pools).trustGroup = true from
        (trustGroup_bounces box env.between).trans ht, hfetch]
      rfl
    rw [hhop, rotate, hkey]

/-- A hop neither removes a box nor takes its trust group away. -/
theorem Regular.hop_flags {plains : List Bytes} {box : ChunkedSecureBox}
    (h : Regular P plains box) (env : HopEnv) :
    (box.hop P env).box.removed = box.removed ∧
      (box.hop P env).box.trustGroup = box.trustGroup := by
  obtain ⟨ck, nk, hold, -⟩ := h
  obtain ⟨pools, -, ⟨-, hhop⟩ | ⟨-, hhop⟩⟩ := hop_cases hold env
  · rw [hhop, bounces_eq]
    exact ⟨rfl, rfl⟩
  · rw [hhop, bounces_eq]
    obtain ⟨e, hrot, -⟩ | ⟨key, pages, -, -, ⟨e, -, -, hrot⟩ | ⟨-, hrot⟩⟩ := rotate_cases P env nk
      (({ box with guards := (box.bounces env.between).guards } : ChunkedSecureBox).advance pools)
    all_goals
      rw [hrot]
      exact ⟨rfl, rfl⟩

theorem construct_flags {source : Source} {env : InitEnv} {data : Bytes} {chunkSize : ℕ}
    {trustGroup onNewGuard : Bool} {box : ChunkedSecureBox}
    (h : construct source P env data chunkSize trustGroup onNewGuard = .ok box) :
    box.trustGroup = trustGroup ∧ box.removed = false ∧ box.paused = false := by
  obtain ⟨_, _, _, -, rfl⟩ := construct_shape h
  exact ⟨rfl, rfl, rfl⟩

theorem regular_construct {source : Source} {env : InitEnv} {data : Bytes} {chunkSize : ℕ}
    {trustGroup onNewGuard : Bool} {box : ChunkedSecureBox}
    (h : construct source P env data chunkSize trustGroup onNewGuard = .ok box) :
    ∃ plains, Regular P plains box := by
  obtain ⟨plains, ck, nk, -, -, hold, hne⟩ := construct_ok h
  exact ⟨plains, ck, nk, hold, hne⟩

theorem Regular.paused {plains : List Bytes} {box : ChunkedSecureBox} (h : Regular P plains box)
    (paused : Bool) : Regular P plains { box with paused := paused } := by
  obtain ⟨ck, nk, hold, hne⟩ := h
  exact ⟨ck, nk, hold.paused paused, hne⟩

end ChunkedSecureBox

namespace FallScheduler

/-! ### The heap -/

/-- `(due_time, seq, box)`; boxes are numbered in the order of their registration. -/
structure Entry where
  due : ℚ
  seq : ℕ
  box : ℕ
  deriving DecidableEq

/-- Tuples compare by time first; no two have the same number. -/
def Entry.before (a b : Entry) : Bool := a.due < b.due ∨ (a.due = b.due ∧ a.seq ≤ b.seq)

/-- `heapq.heappush`: the heap is kept as the list in which its entries will be popped. -/
def heappush (entry : Entry) : List Entry → List Entry
  | [] => [entry]
  | e :: rest => if entry.before e then entry :: e :: rest else e :: heappush entry rest

theorem mem_heappush {entry e : Entry} {heap : List Entry} :
    e ∈ heappush entry heap ↔ e = entry ∨ e ∈ heap := by
  induction heap with
  | nil => simp [heappush]
  | cons d rest ih =>
    rw [heappush]
    split
    · exact List.mem_cons
    · rw [List.mem_cons, ih, List.mem_cons]
      tauto

/-! ### The workers -/

/-- A box and its `_hop_interval`. -/
structure Falling where
  box : ChunkedSecureBox
  hopInterval : ℚ

/-- Where a worker is in `_run`. -/
inductive Worker
  | peeking
  | due
  | popped (b : ℕ)
  | hopping (b : ℕ)
  | pushing (b : ℕ) (delay : ℚ)
  deriving DecidableEq

/-- The top of the loop: is there an entry, and is it due? -/
def peek (heap : List Entry) (clock : ℚ) : Worker :=
  match heap with
  | [] => .peeking
  | entry :: _ => if entry.due - clock > 0 then .peeking else .due

/-- The check again under the lock, and `heapq.heappop`. -/
def pop (heap : List Entry) (clock : ℚ) : List Entry × Worker :=
  match heap with
  | [] => ([], .peeking)
  | entry :: rest =>
    if entry.due - clock > 0 then (entry :: rest, .peeking) else (rest, .popped entry.box)

/-- A worker pops the first entry or leaves the heap alone. -/
theorem pop_cases (heap : List Entry) (clock : ℚ) :
    pop heap clock = (heap, .peeking) ∨
      ∃ entry rest, heap = entry :: rest ∧ pop heap clock = (rest, .popped entry.box) := by
  cases heap with
  | nil => exact Or.inl rfl
  | cons entry rest =>
    rw [pop]
    split
    · exact Or.inl rfl
    · exact Or.inr ⟨entry, rest, rfl, rfl⟩

/-- With the lock of the box: removed, paused, or a hop to make. -/
def enter (b : ℕ) (box : ChunkedSecureBox) : Worker :=
  if box.removed then .peeking
  else if box.paused then .pushing b (1 / 1000)
  else .hopping b

/-- After the hop: `except Exception: continue`. -/
def leave (b : ℕ) (hopInterval : ℚ) (outcome : Except PyError Unit) : Worker :=
  match outcome with
  | .error _ => .peeking
  | .ok () => .pushing b hopInterval

/-- The worker has the box, from popping it to pushing it back. -/
def Worker.Services (b : ℕ) : Worker → Prop
  | .popped c | .hopping c | .pushing c _ => c = b
  | .peeking | .due => False

/-! ### The system -/

structure State where
  group : DistributedTrustGroup.State
  boxes : List Falling
  heap : List Entry
  seq : ℕ
  clock : ℚ
  workers : ℕ → Worker

def start (shares : List (ℤ × Bytes)) : State where
  group := DistributedTrustGroup.start shares
  boxes := []
  heap := []
  seq := 0
  clock := 0
  workers := fun _ => .peeking

inductive Event
  | group (event : DistributedTrustGroup.Event)
  | tick (d : ℚ)
  | register (falling : Falling)
  | bounce (b : ℕ) (cell : ℕ × ℕ)
  | pause (b : ℕ) (paused : Bool)
  | collapse (b : ℕ)
  | worker (w : ℕ)
  | hop (w : ℕ) (env : HopEnv)

/-- What a call of `fetch` that has ended gives its caller. -/
def Fetched (phase : FetchPhase DistributedTrustGroup.Talk) (fetch : Except PyError Bytes) : Prop :=
  match phase with
  | .returned v => fetch = .ok v
  | .raised e => fetch = .error e
  | _ => False

/-- Worker `w` makes a hop that needs a key. -/
def State.NeedsKey (s : State) (w : ℕ) : Prop :=
  ∃ b falling, s.workers w = .hopping b ∧ s.boxes[b]? = some falling ∧
    falling.box.trustGroup = true ∧ falling.box.Completing

/-- Thread `w` of the group is worker `w`, which calls `fetch` out of a hop only and goes
on with the hop when the call ends.  The other threads call it when they like. -/
def State.MayStep (s : State) (workerCount : ℕ) (event : DistributedTrustGroup.Event) : Prop :=
  ∀ w news, event = .fetcher w news → w < workerCount →
    s.NeedsKey w ∧ ¬ (s.group.fetchers w).Ended

def State.setBox (s : State) (b : ℕ) (f : ChunkedSecureBox → ChunkedSecureBox) : State :=
  { s with boxes := s.boxes.modify b fun falling => { falling with box := f falling.box } }

def State.setWorker (s : State) (w : ℕ) (worker : Worker) : State :=
  { s with workers := Function.update s.workers w worker }

@[simp] theorem State.setWorker_self (s : State) (w : ℕ) (worker : Worker) :
    (s.setWorker w worker).workers w = worker := Function.update_self ..

theorem State.setWorker_of_ne (s : State) {v w : ℕ} (h : v ≠ w) (worker : Worker) :
    (s.setWorker w worker).workers v = s.workers v := Function.update_of_ne h ..

/-- One step of anyone.  A box is collapsed under its lock, so not during a hop. -/
inductive Step (P : Primitives) (workerCount : ℕ)
    (p : Protocol (ℕ → Holder) DistributedTrustGroup.Talk) : State → Event → State → Prop
  | group {s : State} {event : DistributedTrustGroup.Event} {group : DistributedTrustGroup.State} :
      DistributedTrustGroup.Step p s.group event group → s.MayStep workerCount event →
      Step P workerCount p s (.group event) { s with group := group }
  | tick {s : State} {d : ℚ} : 0 ≤ d →
      Step P workerCount p s (.tick d) { s with clock := s.clock + d }
  | register {s : State} {source : Source} {env : ChunkedSecureBox.InitEnv} {data : Bytes}
      {chunkSize : ℕ} {onNewGuard : Bool} {falling : Falling} :
      construct source P env data chunkSize true onNewGuard = .ok falling.box →
      Step P workerCount p s (.register falling)
        { s with
          boxes := s.boxes ++ [falling]
          heap := heappush ⟨s.clock, s.seq + 1, s.boxes.length⟩ s.heap
          seq := s.seq + 1 }
  | bounce {s : State} {b : ℕ} {cell : ℕ × ℕ} :
      Step P workerCount p s (.bounce b cell) (s.setBox b (·.bounce cell))
  | pause {s : State} {b : ℕ} {paused : Bool} :
      Step P workerCount p s (.pause b paused) (s.setBox b ({ · with paused := paused }))
  | collapse {s : State} {b : ℕ} : (∀ w, s.workers w ≠ .hopping b) →
      Step P workerCount p s (.collapse b) (s.setBox b ChunkedSecureBox.collapse)
  -- a worker of the scheduler: look, wait and pop, take the lock, hop, push back
  | peek {s : State} {w : ℕ} : w < workerCount → s.workers w = .peeking →
      Step P workerCount p s (.worker w) (s.setWorker w (peek s.heap s.clock))
  | pop {s : State} {w : ℕ} : s.workers w = .due →
      Step P workerCount p s (.worker w)
        ({ s with heap := (pop s.heap s.clock).1 }.setWorker w (pop s.heap s.clock).2)
  | enter {s : State} {w b : ℕ} {falling : Falling} : s.workers w = .popped b →
      s.boxes[b]? = some falling → (∀ v, s.workers v ≠ .hopping b) →
      Step P workerCount p s (.worker w) (s.setWorker w (enter b falling.box))
  | hop {s : State} {w b : ℕ} {falling : Falling} {env : HopEnv} : s.workers w = .hopping b →
      s.boxes[b]? = some falling →
      (s.NeedsKey w → Fetched (s.group.fetchers w) env.fetch) →
      Step P workerCount p s (.hop w env)
        ({ s with
          group := { s.group with fetchers := Function.update s.group.fetchers w .idle }
          boxes := s.boxes.set b { falling with box := (falling.box.hop P env).box } }.setWorker w
            (leave b falling.hopInterval (falling.box.hop P env).outcome))
  | push {s : State} {w b : ℕ} {delay : ℚ} : s.workers w = .pushing b delay →
      Step P workerCount p s (.worker w)
        ({ s with
          heap := heappush ⟨s.clock + delay, s.seq + 1, b⟩ s.heap
          seq := s.seq + 1 }.setWorker w .peeking)

/-- The box has an entry in the heap, or a worker has it. -/
def State.Scheduled (s : State) (b : ℕ) : Prop :=
  (∃ entry ∈ s.heap, entry.box = b) ∨ ∃ w, (s.workers w).Services b

/-! ### Boxes stay scheduled -/

/-- Enough holders live, no call asks one that is lost, and neither the mapping of a
guard nor the callback raises. -/
structure Tolerated (k n : ℕ) (s : State) (event : Event) : Prop where
  group : ∀ e, event = .group e → DistributedTrustGroup.Tolerated k n s.group e
  world : ∀ w env, event = .hop w env →
    (∃ pages, env.mmap = .ok pages) ∧ env.callback = .ok ()

/-- A box whose hops go through as long as the world does its part. -/
def Working (P : Primitives) (box : ChunkedSecureBox) : Prop :=
  box.trustGroup = true ∧ ∃ plains, Regular P plains box

/-- The invariant: the threads of the group are on their course, and every box that has
not been collapsed is scheduled and works. -/
structure Inv (P : Primitives) (k n : ℕ) (shares : List (ℤ × Bytes)) (s : State) : Prop where
  steady : DistributedTrustGroup.Steady k n shares s.group
  boxes : ∀ (b : ℕ) (falling : Falling), s.boxes[b]? = some falling →
    falling.box.removed = false → s.Scheduled b ∧ Working P falling.box
  hopping : ∀ (w b : ℕ), s.workers w = .hopping b →
    ∃ falling : Falling, s.boxes[b]? = some falling ∧ falling.box.removed = false

theorem inv_start (P : Primitives) (k n : ℕ) (shares : List (ℤ × Bytes)) :
    Inv P k n shares (start shares) :=
  ⟨DistributedTrustGroup.steady_start k n shares, nofun, nofun⟩

section Invariant

variable {P : Primitives} {k n : ℕ} {shares : List (ℤ × Bytes)} {s : State}

theorem box_setBox {b c : ℕ} {f : ChunkedSecureBox → ChunkedSecureBox} {falling : Falling}
    (h : (s.setBox b f).boxes[c]? = some falling) :
    ∃ falling' : Falling, s.boxes[c]? = some falling' ∧
      falling.box = if b = c then f falling'.box else falling'.box := by
  rw [State.setBox, List.getElem?_modify] at h
  cases hc : s.boxes[c]? with
  | none => simp [hc] at h
  | some falling' =>
    refine ⟨falling', rfl, ?_⟩
    rw [hc] at h
    split at h
    · rename_i hb
      obtain rfl := Option.some.inj h
      rw [if_pos hb]
    · rename_i hb
      obtain rfl := Option.some.inj h
      rw [if_neg hb]

/-- One box changes, and works as before. -/
theorem Inv.setBox (h : Inv P k n shares s) {b : ℕ} {f : ChunkedSecureBox → ChunkedSecureBox}
    (hremoved : ∀ box, (f box).removed = box.removed)
    (hworking : ∀ box, Working P box → Working P (f box)) : Inv P k n shares (s.setBox b f) := by
  refine ⟨h.steady, fun c falling hc hr => ?_, fun w c hw => ?_⟩
  · obtain ⟨falling', hc', hbox⟩ := box_setBox hc
    have hr' : falling'.box.removed = false := by
      rw [hbox] at hr
      split at hr
      · rwa [hremoved] at hr
      · exact hr
    obtain ⟨hscheduled, hwork⟩ := h.boxes c falling' hc' hr'
    refine ⟨hscheduled, ?_⟩
    rw [hbox]
    split
    · exact hworking _ hwork
    · exact hwork
  -- a box that is being hopped has not been removed, before or after
  · obtain ⟨falling, hc, hr⟩ := h.hopping w c hw
    refine ⟨if b = c then { falling with box := f falling.box } else falling, ?_, ?_⟩
    · rw [State.setBox, List.getElem?_modify, hc]
      split <;> rfl
    · split
      · exact (hremoved _).trans hr
      · exact hr

/-- What was in the heap or with worker `w` is in the heap or with worker `w`. -/
theorem State.Scheduled.move {b : ℕ} (h : s.Scheduled b) (heap : List Entry) (seq : ℕ) {w : ℕ}
    {worker : Worker}
    (hheap : ∀ entry ∈ s.heap, entry.box = b →
      (∃ entry ∈ heap, entry.box = b) ∨ worker.Services b)
    (hworker : (s.workers w).Services b → (∃ entry ∈ heap, entry.box = b) ∨ worker.Services b) :
    ({ s with heap := heap, seq := seq }.setWorker w worker).Scheduled b := by
  have hnow : (∃ entry ∈ heap, entry.box = b) ∨ worker.Services b →
      ({ s with heap := heap, seq := seq }.setWorker w worker).Scheduled b := by
    rintro (hentry | hservices)
    · exact Or.inl hentry
    · exact Or.inr ⟨w, by rwa [State.setWorker_self]⟩
  rcases h with ⟨entry, hentry, hb⟩ | ⟨v, hv⟩
  · exact hnow (hheap entry hentry hb)
  · by_cases hvw : v = w
    · subst hvw
      exact hnow (hworker hv)
    · exact Or.inr ⟨v, by rwa [State.setWorker_of_ne _ hvw]⟩

/-- A worker takes a box off the heap, holds on to it, or puts it back. -/
theorem Inv.move (h : Inv P k n shares s) (heap : List Entry) (seq : ℕ) {w : ℕ} {worker : Worker}
    (hscheduled : ∀ (b : ℕ) (falling : Falling), s.boxes[b]? = some falling →
      falling.box.removed = false → s.Scheduled b →
      ({ s with heap := heap, seq := seq }.setWorker w worker).Scheduled b)
    (hhopping : ∀ b, worker = .hopping b →
      ∃ falling : Falling, s.boxes[b]? = some falling ∧ falling.box.removed = false) :
    Inv P k n shares ({ s with heap := heap, seq := seq }.setWorker w worker) := by
  refine ⟨h.steady, fun b falling hb hr => ?_, fun v b hv => ?_⟩
  · obtain ⟨hs, hwork⟩ := h.boxes b falling hb hr
    exact ⟨hscheduled b falling hb hr hs, hwork⟩
  · by_cases hvw : v = w
    · subst hvw
      rw [State.setWorker_self] at hv
      exact hhopping b hv
    · rw [State.setWorker_of_ne _ hvw] at hv
      exact h.hopping v b hv

theorem Inv.peek (h : Inv P k n shares s) {w : ℕ} (hw : s.workers w = .peeking) :
    Inv P k n shares (s.setWorker w (peek s.heap s.clock)) := by
  refine h.move s.heap s.seq (fun b falling _ _ hs => ?_) fun b hb => ?_
  · refine hs.move _ _ (fun entry hentry hb => Or.inl ⟨entry, hentry, hb⟩) fun hservices => ?_
    rw [hw] at hservices
    exact hservices.elim
  · unfold FallScheduler.peek at hb
    split at hb
    · exact nomatch hb
    · split at hb <;> exact nomatch hb

theorem Inv.pop (h : Inv P k n shares s) {w : ℕ} (hw : s.workers w = .due) :
    Inv P k n shares ({ s with heap := (pop s.heap s.clock).1 }.setWorker w
      (pop s.heap s.clock).2) := by
  have hcases := pop_cases s.heap s.clock
  refine h.move _ s.seq (fun b falling _ _ hs => ?_) fun b hb => ?_
  · refine hs.move _ _ (fun entry hentry hb => ?_) fun hservices => ?_
    · rcases hcases with hpop | ⟨first, rest, hheap, hpop⟩
      · rw [hpop]
        exact Or.inl ⟨entry, hentry, hb⟩
      · rw [hpop]
        rw [hheap] at hentry
        rcases List.mem_cons.mp hentry with rfl | hentry
        · exact Or.inr hb
        · exact Or.inl ⟨entry, hentry, hb⟩
    · rw [hw] at hservices
      exact hservices.elim
  · rcases hcases with hpop | ⟨first, rest, -, hpop⟩ <;> rw [hpop] at hb <;> exact nomatch hb

theorem Inv.enter (h : Inv P k n shares s) {w b : ℕ} {falling : Falling}
    (hw : s.workers w = .popped b) (hb : s.boxes[b]? = some falling) :
    Inv P k n shares (s.setWorker w (enter b falling.box)) := by
  refine h.move s.heap s.seq (fun c falling' hc hr hs => ?_) fun c hc => ?_
  · refine hs.move _ _ (fun entry hentry hb => Or.inl ⟨entry, hentry, hb⟩) fun hservices => ?_
    rw [hw] at hservices
    obtain rfl : b = c := hservices
    obtain rfl := Option.some.inj (hb.symm.trans hc)
    refine Or.inr ?_
    rw [FallScheduler.enter, if_neg (by rw [hr]; decide)]
    split <;> exact rfl
  · unfold FallScheduler.enter at hc
    split at hc
    · exact nomatch hc
    · rename_i hr
      split at hc
      · exact nomatch hc
      · obtain rfl := Worker.hopping.inj hc
        exact ⟨falling, hb, Bool.eq_false_iff.mpr hr⟩

theorem Inv.push (h : Inv P k n shares s) {w b : ℕ} {delay : ℚ}
    (hw : s.workers w = .pushing b delay) (entry : Entry) (hentry : entry.box = b) (seq : ℕ) :
    Inv P k n shares ({ s with heap := heappush entry s.heap, seq := seq }.setWorker w
      .peeking) := by
  refine h.move _ _ (fun c falling _ _ hs => ?_) fun c hc => nomatch hc
  refine hs.move _ _ (fun e he hec => Or.inl ⟨e, mem_heappush.mpr (Or.inr he), hec⟩)
    fun hservices => ?_
  rw [hw] at hservices
  obtain rfl : b = c := hservices
  exact Or.inl ⟨entry, mem_heappush.mpr (Or.inl rfl), hentry⟩

theorem Inv.collapse (h : Inv P k n shares s) {b : ℕ} (hfree : ∀ w, s.workers w ≠ .hopping b) :
    Inv P k n shares (s.setBox b ChunkedSecureBox.collapse) := by
  refine ⟨h.steady, fun c falling hc hr => ?_, fun w c hw => ?_⟩
  · obtain ⟨falling', hc', hbox⟩ := box_setBox hc
    rw [hbox] at hr ⊢
    split at hr
    · exact nomatch hr
    · rename_i hbc
      rw [if_neg hbc]
      exact h.boxes c falling' hc' hr
  · obtain ⟨falling, hc, hr⟩ := h.hopping w c hw
    have hbc : b ≠ c := by
      rintro rfl
      exact hfree w hw
    refine ⟨falling, ?_, hr⟩
    rw [State.setBox, List.getElem?_modify, hc]
    exact congrArg some (if_neg hbc)

theorem Inv.register (h : Inv P k n shares s) {falling : Falling}
    (hworking : Working P falling.box) (due : ℚ) (seq : ℕ) :
    Inv P k n shares { s with
      boxes := s.boxes ++ [falling]
      heap := heappush ⟨due, seq, s.boxes.length⟩ s.heap
      seq := seq } := by
  refine ⟨h.steady, fun b falling' hb hr => ?_, fun w b hw => ?_⟩
  · rcases Nat.lt_or_ge b s.boxes.length with hlt | hge
    · rw [List.getElem?_append_left hlt] at hb
      obtain ⟨hs, hwork⟩ := h.boxes b falling' hb hr
      refine ⟨?_, hwork⟩
      rcases hs with ⟨entry, hentry, heb⟩ | hservices
      · exact Or.inl ⟨entry, mem_heappush.mpr (Or.inr hentry), heb⟩
      · exact Or.inr hservices
    -- the new box, whose entry has just been pushed
    · have hlen := (List.getElem?_eq_some_iff.mp hb).1
      rw [List.length_append, List.length_singleton] at hlen
      obtain rfl : b = s.boxes.length := by omega
      rw [List.getElem?_concat_length] at hb
      obtain rfl := Option.some.inj hb
      exact ⟨Or.inl ⟨_, mem_heappush.mpr (Or.inl rfl), rfl⟩, hworking⟩
  · obtain ⟨falling', hb, hr⟩ := h.hopping w b hw
    exact ⟨falling', by
      rw [List.getElem?_append_left (List.getElem?_eq_some_iff.mp hb).1, hb], hr⟩

/-- A worker that needs a key and goes on with its hop has got one. -/
theorem Inv.fetched (h : Inv P k n shares s) {w : ℕ} {fetch : Except PyError Bytes}
    (hfetched : Fetched (s.group.fetchers w) fetch) : ∃ external, fetch = .ok external := by
  have hcourse := h.steady.fetchers w
  cases hphase : s.group.fetchers w with
  | returned v =>
    rw [hphase] at hfetched
    exact ⟨v, hfetched⟩
  | raised e =>
    rw [hphase] at hcourse
    exact hcourse.elim
  | _ =>
    rw [hphase] at hfetched
    exact hfetched.elim

theorem Inv.hop (h : Inv P k n shares s) {w b : ℕ} {falling : Falling} {env : HopEnv}
    (hw : s.workers w = .hopping b) (hb : s.boxes[b]? = some falling)
    (hfetched : s.NeedsKey w → Fetched (s.group.fetchers w) env.fetch)
    (hmmap : ∃ pages, env.mmap = .ok pages) (hcall : env.callback = .ok ()) :
    Inv P k n shares
      ({ s with
        group := { s.group with fetchers := Function.update s.group.fetchers w .idle }
        boxes := s.boxes.set b { falling with box := (falling.box.hop P env).box } }.setWorker w
          (leave b falling.hopInterval (falling.box.hop P env).outcome)) := by
  obtain ⟨falling', hb', hr⟩ := h.hopping w b hw
  obtain rfl := Option.some.inj (hb'.symm.trans hb)
  obtain ⟨-, htrust, plains, hregular⟩ := h.boxes b falling' hb hr
  -- enough holders answer, there is memory, and the callback returns
  have hok : (falling'.box.hop P env).outcome = .ok () :=
    hregular.hop_ok (fun _ hc => h.fetched (hfetched ⟨b, falling', hw, hb, htrust, hc⟩)) hmmap hcall
  obtain ⟨hremoved, htrust'⟩ := hregular.hop_flags env
  have hlt := (List.getElem?_eq_some_iff.mp hb).1
  rw [hok]
  refine ⟨?_, fun c falling hc hrc => ?_, fun v c hv => ?_⟩
  · refine ⟨h.steady.holders, h.steady.recorded, h.steady.marking, fun t => ?_⟩
    show DistributedTrustGroup.OnCourse k n shares _ (Function.update s.group.fetchers w .idle t)
    by_cases ht : t = w
    · subst ht
      rw [Function.update_self]
      trivial
    · rw [Function.update_of_ne ht]
      exact h.steady.fetchers t
  -- the box that has hopped is with its worker, which will push it back
  · by_cases hcb : c = b
    · subst hcb
      change (s.boxes.set c _)[c]? = some falling at hc
      rw [List.getElem?_set_self hlt] at hc
      obtain rfl := Option.some.inj hc
      exact ⟨Or.inr ⟨w, by rw [State.setWorker_self]; exact rfl⟩, htrust'.trans htrust, plains,
        hregular.hop hok⟩
    · change (s.boxes.set b _)[c]? = some falling at hc
      rw [List.getElem?_set_ne (Ne.symm hcb)] at hc
      obtain ⟨hs, hwork⟩ := h.boxes c falling hc hrc
      refine ⟨hs.move s.heap s.seq
        (fun entry hentry hec => Or.inl ⟨entry, hentry, hec⟩) fun hservices => ?_, hwork⟩
      rw [hw] at hservices
      exact absurd hservices.symm hcb
  · by_cases hvw : v = w
    · subst hvw
      rw [State.setWorker_self] at hv
      exact nomatch hv
    · rw [State.setWorker_of_ne _ hvw] at hv
      obtain ⟨falling'', hc, hrc⟩ := h.hopping v c hv
      by_cases hcb : c = b
      · subst hcb
        exact ⟨_, List.getElem?_set_self hlt, hremoved.trans hr⟩
      · exact ⟨falling'', (List.getElem?_set_ne (Ne.symm hcb)).trans hc, hrc⟩

theorem Inv.step {secret : Bytes} {urandom : ℕ → ℕ → UInt8}
    (hsplit : splitSecret secret k n urandom = .ok shares) (hn : n ≤ 255) {workerCount : ℕ}
    {killThreshold : ℤ} (h : Inv P k n shares s) {event : Event} {s' : State}
    (hstep : Guarded (Step P workerCount (DistributedTrustGroup.protocol k n killThreshold))
      (Tolerated k n) s event s') : Inv P k n shares s' := by
  obtain ⟨hstep, htol⟩ := hstep
  cases hstep with
  | group hgroup _ =>
    exact ⟨h.steady.step hsplit hn hgroup (htol.group _ rfl), h.boxes, h.hopping⟩
  | tick _ => exact ⟨h.steady, h.boxes, h.hopping⟩
  | register hbuilt =>
    exact h.register ⟨(ChunkedSecureBox.construct_flags hbuilt).1,
      ChunkedSecureBox.regular_construct hbuilt⟩ _ _
  | bounce =>
    refine h.setBox (fun _ => rfl) fun box hwork => ⟨hwork.1, ?_⟩
    obtain ⟨plains, ck, nk, hold, hne⟩ := hwork.2
    exact ⟨plains, ck, nk, hold.bounce _, hne⟩
  | pause =>
    refine h.setBox (fun _ => rfl) fun box hwork => ⟨hwork.1, ?_⟩
    obtain ⟨plains, hregular⟩ := hwork.2
    exact ⟨plains, hregular.paused _⟩
  | collapse hfree => exact h.collapse hfree
  | peek _ hw => exact h.peek hw
  | pop hw => exact h.pop hw
  | enter hw hb _ => exact h.enter hw hb
  | hop hw hb hfetched =>
    obtain ⟨hmmap, hcall⟩ := htol.world _ _ rfl
    exact h.hop hw hb hfetched hmmap hcall
  | push hw => exact h.push hw _ rfl _

end Invariant

/-- A hop that finds the world in order, but for what `fetch` comes to. -/
def hopEnv (fetch : Except PyError Bytes) : HopEnv where
  between := []
  nonce := ChunkedSecureBox.InitEnv.sample.nonce 0
  fetch := fetch
  mmap := .ok fun _ => (0, 0)
  callback := .ok ()

/-- A box of one chunk, without a callback; its first hop takes up a new guard. -/
theorem exists_completing :
    ∃ box, construct .bytes Primitives.sample ChunkedSecureBox.InitEnv.sample [] 1 true false
        = .ok box ∧ box.Completing ∧
      (box.hop Primitives.sample (hopEnv (.ok [7]))).box.currentGuard = 1 := by
  -- what matters of the box is closed, and computes
  have hshape : (construct .bytes Primitives.sample ChunkedSecureBox.InitEnv.sample [] 1 true
      false).toOption.map (fun box => (box.chunks.length, box.onNext, box.nextChunk))
        = some (1, [false], 0) := rfl
  have hturned : (construct .bytes Primitives.sample ChunkedSecureBox.InitEnv.sample [] 1 true
      false).toOption.map (fun box =>
        (box.hop Primitives.sample (hopEnv (.ok [7]))).box.currentGuard) = some 1 := by
    decide +kernel
  cases hbuilt : construct .bytes Primitives.sample ChunkedSecureBox.InitEnv.sample [] 1 true
      false with
  | error e =>
    rw [hbuilt] at hshape
    exact nomatch hshape
  | ok box =>
    rw [hbuilt] at hshape
    obtain ⟨hlen, hflags⟩ := Prod.mk.inj (Option.some.inj hshape)
    obtain ⟨hflags, hnext⟩ := Prod.mk.inj hflags
    rw [hbuilt, Except.toOption, Option.map_some, Option.some_inj] at hturned
    refine ⟨box, rfl, ?_, hturned⟩
    show (box.nextChunk + 1) % box.chunks.length = 0 ∧
      (box.onNext.set box.nextChunk true).all id = true
    rw [hlen, hflags, hnext]
    decide

/-- One box has been registered, and the first worker has come to `worker` with it. -/
def oneBox (shares : List (ℤ × Bytes)) (box : ChunkedSecureBox) (heap : List Entry)
    (worker : Worker) : State where
  group := DistributedTrustGroup.start shares
  boxes := [⟨box, 0⟩]
  heap := heap
  seq := 1
  clock := 0
  workers := Function.update (fun _ => .peeking) 0 worker

theorem oneBox_workers (shares : List (ℤ × Bytes)) (box : ChunkedSecureBox) (heap : List Entry)
    (worker : Worker) : (oneBox shares box heap worker).workers 0 = worker := by
  simp [oneBox]

theorem oneBox_setWorker (shares : List (ℤ × Bytes)) (box : ChunkedSecureBox) (heap : List Entry)
    (worker worker' : Worker) : (oneBox shares box heap worker).setWorker 0 worker'
      = oneBox shares box heap worker' := by
  rw [State.setWorker, oneBox, oneBox, Function.update_idem]

/-- A worker gets as far as the hop of the only box. -/
theorem run_to_hop {box : ChunkedSecureBox}
    (hbuilt : construct .bytes Primitives.sample ChunkedSecureBox.InitEnv.sample [] 1 true false
      = .ok box) (shares : List (ℤ × Bytes))
    (p : Protocol (ℕ → Holder) DistributedTrustGroup.Talk) (k n : ℕ) :
    ∃ events s, Run (Guarded (Step Primitives.sample 4 p) (Tolerated k n)) (start shares) events s ∧
      s.group = DistributedTrustGroup.start shares ∧ s.boxes = [⟨box, 0⟩] ∧ s.heap = [] ∧
      s.workers = Function.update (fun _ => .peeking) 0 (.hopping 0) := by
  obtain ⟨-, hremoved, hpaused⟩ := ChunkedSecureBox.construct_flags hbuilt
  have hpeek : peek [⟨0, 1, 0⟩] 0 = .due := by simp [peek]
  have hpop : pop [⟨0, 1, 0⟩] 0 = ([], .popped 0) := by simp [pop]
  have henter : enter 0 box = .hopping 0 := by simp [enter, hremoved, hpaused]
  -- the box is registered, due at once, popped and locked
  have hregister : Step Primitives.sample 4 p (start shares) (.register ⟨box, 0⟩)
      (oneBox shares box [⟨0, 1, 0⟩] .peeking) := by
    have hstep : Step Primitives.sample 4 p (start shares) (.register ⟨box, 0⟩) _ :=
      .register hbuilt
    rw [oneBox, Function.update_eq_self]
    exact hstep
  have hdue : Step Primitives.sample 4 p (oneBox shares box [⟨0, 1, 0⟩] .peeking) (.worker 0)
      (oneBox shares box [⟨0, 1, 0⟩] .due) := by
    have hstep : Step Primitives.sample 4 p (oneBox shares box [⟨0, 1, 0⟩] .peeking) (.worker 0)
        ((oneBox shares box [⟨0, 1, 0⟩] .peeking).setWorker 0 (peek [⟨0, 1, 0⟩] 0)) :=
      .peek (by decide) (oneBox_workers ..)
    rwa [hpeek, oneBox_setWorker] at hstep
  have hpopped : Step Primitives.sample 4 p (oneBox shares box [⟨0, 1, 0⟩] .due) (.worker 0)
      (oneBox shares box [] (.popped 0)) := by
    have hstep : Step Primitives.sample 4 p (oneBox shares box [⟨0, 1, 0⟩] .due) (.worker 0)
        ((oneBox shares box (pop [⟨0, 1, 0⟩] 0).1 .due).setWorker 0 (pop [⟨0, 1, 0⟩] 0).2) :=
      .pop (oneBox_workers ..)
    rwa [hpop, oneBox_setWorker] at hstep
  have hhopping : Step Primitives.sample 4 p (oneBox shares box [] (.popped 0)) (.worker 0)
      (oneBox shares box [] (.hopping 0)) := by
    have hbox : (oneBox shares box [] (.popped 0)).boxes[0]? = some ⟨box, 0⟩ := rfl
    have hfree : ∀ v, (oneBox shares box [] (.popped 0)).workers v ≠ .hopping 0 := by
      intro v hv
      by_cases hv0 : v = 0
      · subst hv0
        exact nomatch (oneBox_workers ..).symm.trans hv
      · exact nomatch (Function.update_of_ne hv0 _ fun _ => Worker.peeking).symm.trans hv
    have hstep : Step Primitives.sample 4 p (oneBox shares box [] (.popped 0)) (.worker 0)
        ((oneBox shares box [] (.popped 0)).setWorker 0 (enter 0 box)) :=
      .enter (oneBox_workers ..) hbox hfree
    rwa [henter, oneBox_setWorker] at hstep
  have htolerated : ∀ {s}, Tolerated k n s (.worker 0) :=
    ⟨fun _ h => (nomatch h), fun _ _ h => (nomatch h)⟩
  have hrun := Run.refl (Guarded (Step Primitives.sample 4 p) (Tolerated k n)) (start shares)
    |>.snoc ⟨hregister, fun _ h => (nomatch h), fun _ _ h => (nomatch h)⟩
    |>.snoc ⟨hdue, htolerated⟩
    |>.snoc ⟨hpopped, htolerated⟩
    |>.snoc ⟨hhopping, htolerated⟩
  exact ⟨_, _, hrun, rfl, rfl, rfl, rfl⟩

/-- A call of the group's first thread goes on while worker 0 is in a hop that needs a
key. -/
theorem run_group {P : Primitives} {workerCount : ℕ}
    {p : Protocol (ℕ → Holder) DistributedTrustGroup.Talk} {s : State} (hneeds : s.NeedsKey 0)
    {C : DistributedTrustGroup.State → DistributedTrustGroup.Event → Prop}
    {D : State → Event → Prop}
    (hone : ∀ g event, C g event → OneCall g event)
    (hD : ∀ g event, C g event → D { s with group := g } (.group event))
    {events : List DistributedTrustGroup.Event} {group : DistributedTrustGroup.State}
    (hrun : Run (Guarded (DistributedTrustGroup.Step p) C) s.group events group) :
    Run (Guarded (Step P workerCount p) D) s (events.map .group) { s with group := group } := by
  induction hrun with
  | nil => exact Run.nil
  | @snoc events group group' event _ hstep ih =>
    rw [List.map_append]
    refine ih.snoc ⟨.group (s := { s with group := group }) hstep.1 fun w news heq _ => ?_,
      hD group event hstep.2⟩
    obtain ⟨rfl, hended⟩ := (hone group event hstep.2).2 w news heq
    exact ⟨hneeds, hended⟩

section Dropped

variable {P : Primitives} {workerCount : ℕ}
  {p : Protocol (ℕ → Holder) DistributedTrustGroup.Talk} {s s' : State} {b : ℕ}

/-- What is scheduled after a worker's step was scheduled before it. -/
theorem State.Scheduled.of_move (heap : List Entry) (seq : ℕ) {w : ℕ} {worker : Worker}
    (h : ({ s with heap := heap, seq := seq }.setWorker w worker).Scheduled b)
    (hheap : ∀ entry ∈ heap, entry.box = b → s.Scheduled b)
    (hworker : worker.Services b → s.Scheduled b) : s.Scheduled b := by
  rcases h with ⟨entry, hentry, hb⟩ | ⟨v, hv⟩
  · exact hheap entry hentry hb
  · by_cases hvw : v = w
    · subst hvw
      rw [State.setWorker_self] at hv
      exact hworker hv
    · rw [State.setWorker_of_ne _ hvw] at hv
      exact Or.inr ⟨v, hv⟩

/-- No step schedules a box that has been registered before. -/
theorem Step.scheduled {event : Event} (hstep : Step P workerCount p s event s')
    (hb : b < s.boxes.length) (h : s'.Scheduled b) : s.Scheduled b := by
  have hheap : ∀ entry ∈ s.heap, entry.box = b → s.Scheduled b := fun entry hentry heb =>
    Or.inl ⟨entry, hentry, heb⟩
  cases hstep with
  | register =>
    rcases h with ⟨entry, hentry, heb⟩ | hservices
    · rcases mem_heappush.mp hentry with rfl | hentry
      · exact absurd hb (not_lt.mpr heb.le)
      · exact hheap entry hentry heb
    · exact Or.inr hservices
  | peek =>
    refine h.of_move s.heap s.seq hheap fun hservices => ?_
    unfold FallScheduler.peek at hservices
    split at hservices
    · exact hservices.elim
    · split at hservices <;> exact hservices.elim
  | pop =>
    refine h.of_move _ s.seq (fun entry hentry heb => ?_) fun hservices => ?_
    · rcases pop_cases s.heap s.clock with hpop | ⟨first, rest, hcons, hpop⟩
      · rw [hpop] at hentry
        exact hheap entry hentry heb
      · rw [hpop] at hentry
        exact hheap entry (hcons ▸ List.mem_cons_of_mem _ hentry) heb
    · rcases pop_cases s.heap s.clock with hpop | ⟨first, rest, hcons, hpop⟩
      · rw [hpop] at hservices
        exact hservices.elim
      · rw [hpop] at hservices
        exact hheap first (hcons ▸ List.mem_cons_self) hservices
  | @enter w c falling hw _ _ =>
    refine h.of_move s.heap s.seq hheap fun hservices => Or.inr ⟨w, ?_⟩
    rw [hw]
    unfold FallScheduler.enter at hservices
    split at hservices
    · exact hservices.elim
    · split at hservices <;> exact hservices
  | @hop w c falling env hw _ _ =>
    refine h.of_move s.heap s.seq hheap fun hservices => Or.inr ⟨w, ?_⟩
    rw [hw]
    unfold leave at hservices
    split at hservices
    · exact hservices.elim
    · exact hservices
  -- the one step that pushes: the worker had the box
  | @push w c delay hw =>
    refine h.of_move _ _ (fun entry hentry heb => ?_) False.elim
    rcases mem_heappush.mp hentry with rfl | hentry
    · exact Or.inr ⟨w, by rw [hw]; exact heb⟩
    · exact hheap entry hentry heb
  | _ => exact h

theorem Step.length_boxes {event : Event} (hstep : Step P workerCount p s event s') :
    s.boxes.length ≤ s'.boxes.length := by
  cases hstep with
  | register => exact Nat.le.intro (List.length_append ..).symm
  | bounce | pause | collapse => exact (List.length_modify ..).ge
  | hop => exact (List.length_set ..).ge
  | _ => exact le_rfl

/-- **Dropped for good.**  A box that is not scheduled is never scheduled again. -/
theorem dropped_forever {events : List Event} (hb : b < s.boxes.length) (h : ¬ s.Scheduled b)
    (hrun : Run (Step P workerCount p) s events s') : ¬ s'.Scheduled b :=
  (hrun.invariant (I := fun t => b < t.boxes.length ∧ ¬ t.Scheduled b) ⟨hb, h⟩
    fun ⟨hlt, hnot⟩ hstep => ⟨lt_of_lt_of_le hlt hstep.length_boxes,
      fun hs => hnot (hstep.scheduled hlt hs)⟩).2

end Dropped

end FallScheduler
