/-
In which order the worker pools serve, and when they stop.

`_run` takes the first entry of the heap, when it is due, and pushes it back with a later time.
So an entry that waits is passed by others only as long as their times come before its own.
Between popping an item and serving it a worker waits for the lock of the owner, which a caller
may keep as long as it likes: `stream_to` keeps it for the whole retrieval.

* `overtaking`: while an entry waits, how often any item is served before it.
* `stalled_iff`: the pool of the boxes stands still exactly when every worker waits for a box of
  its own that a caller has locked.
-/
import Mathlib
import VStorage.WorkerPool

namespace WorkerPool

/-! ### The order of the heap -/

section Order

variable {ι : Type}

/-- `a` is popped before `b`. -/
def Entry.Before (a b : Entry ι) : Prop := a.due < b.due ∨ a.due = b.due ∧ a.seq < b.seq

theorem Entry.Before.trans {a b c : Entry ι} (hab : a.Before b) (hbc : b.Before c) :
    a.Before c := by
  rcases hab with hab | ⟨hab, hseq⟩
  · rcases hbc with hbc | ⟨hbc, -⟩
    · exact Or.inl (hab.trans hbc)
    · exact Or.inl (hbc ▸ hab)
  · rcases hbc with hbc | ⟨hbc, hseq'⟩
    · exact Or.inl (hab ▸ hbc)
    · exact Or.inr ⟨hab.trans hbc, hseq.trans hseq'⟩

theorem Entry.lt_true {a b : Entry ι} (h : a.lt b = .ok true) : a.Before b := by
  unfold Entry.lt at h
  split at h
  · exact Or.inl (of_decide_eq_true (Except.ok.inj h))
  · rename_i hdue
    split at h
    · exact Or.inr ⟨not_not.mp hdue, of_decide_eq_true (Except.ok.inj h)⟩
    · cases h

theorem Entry.lt_false {a b : Entry ι} (h : a.lt b = .ok false) : b.Before a := by
  unfold Entry.lt at h
  split at h
  · rename_i hdue
    have hle := of_decide_eq_false (Except.ok.inj h)
    exact Or.inl (lt_of_le_of_ne (not_lt.mp hle) (Ne.symm hdue))
  · rename_i hdue
    split at h
    · rename_i hseq
      have hle := of_decide_eq_false (Except.ok.inj h)
      exact Or.inr ⟨(not_not.mp hdue).symm, lt_of_le_of_ne (not_lt.mp hle) (Ne.symm hseq)⟩
    · cases h

/-- The entries come one before the other. -/
def Ordered (heap : List (Entry ι)) : Prop := heap.Pairwise Entry.Before

theorem Ordered.heappush {entry : Entry ι} {heap heap' : List (Entry ι)} (h : Ordered heap)
    (hpush : heappush entry heap = .ok heap') : Ordered heap' := by
  induction heap generalizing heap' with
  | nil =>
    obtain rfl := Except.ok.inj hpush
    exact List.pairwise_singleton _ _
  | cons e rest ih =>
    obtain ⟨hfirst, hrest⟩ := List.pairwise_cons.mp h
    obtain ⟨r, hr, hpush⟩ := bind_eq_ok.mp hpush
    cases r with
    | true =>
      obtain rfl := Except.ok.inj hpush
      have hbefore := Entry.lt_true hr
      refine List.pairwise_cons.mpr ⟨fun x hx => ?_, h⟩
      rcases List.mem_cons.mp hx with rfl | hx
      · exact hbefore
      · exact hbefore.trans (hfirst x hx)
    | false =>
      rw [if_neg (by decide)] at hpush
      obtain ⟨rest', hrest', hpush⟩ := bind_eq_ok.mp hpush
      obtain rfl := Except.ok.inj hpush
      refine List.pairwise_cons.mpr ⟨fun x hx => ?_, ih hrest hrest'⟩
      rcases List.mem_cons.mp ((heappush_perm hrest').mem_iff.mp hx) with rfl | hx
      · exact Entry.lt_false hr
      · exact hfirst x hx

theorem Ordered.pushAll {entries : List (ℚ × ι)} {seq seq' : ℕ} {heap heap' : List (Entry ι)}
    (h : Ordered heap) (hpush : pushAll entries seq heap = .ok (seq', heap')) :
    Ordered heap' := by
  induction entries generalizing seq heap with
  | nil =>
    obtain ⟨-, rfl⟩ := Prod.mk.inj (Except.ok.inj hpush)
    exact h
  | cons entry rest ih =>
    obtain ⟨heap₁, hheap₁, hrest⟩ := bind_eq_ok.mp hpush
    exact ih (h.heappush hheap₁) hrest

/-- `register` numbers its entries from the next number on. -/
theorem pushAll_mem {entries : List (ℚ × ι)} {seq seq' : ℕ} {heap heap' : List (Entry ι)}
    (hpush : pushAll entries seq heap = .ok (seq', heap')) :
    seq ≤ seq' ∧ ∀ x ∈ heap', x ∈ heap ∨ x.item ∈ entries.map Prod.snd ∧ seq < x.seq := by
  induction entries generalizing seq heap with
  | nil =>
    obtain ⟨rfl, rfl⟩ := Prod.mk.inj (Except.ok.inj hpush)
    exact ⟨le_rfl, fun x hx => Or.inl hx⟩
  | cons entry rest ih =>
    obtain ⟨heap₁, hheap₁, hrest⟩ := bind_eq_ok.mp hpush
    obtain ⟨hseq, hmem⟩ := ih hrest
    refine ⟨Nat.le_of_succ_le hseq, fun x hx => ?_⟩
    rcases hmem x hx with hx | ⟨hitem, hx⟩
    · rcases List.mem_cons.mp ((heappush_perm hheap₁).mem_iff.mp hx) with rfl | hx
      · exact Or.inr ⟨List.mem_cons_self, Nat.lt_succ_self _⟩
      · exact Or.inl hx
    · exact Or.inr ⟨List.mem_cons_of_mem _ hitem, Nat.lt_of_succ_lt hx⟩

end Order

/-! ### One turn of a worker -/

section Turn

variable {κ ι δ : Type} [DecidableEq κ] {sched : Scheduler κ ι δ} {workerCount : ℕ}
  {s : State κ ι δ} {e : Entry ι} {rest heap : List (Entry ι)} {obj : Obj δ}

/-- The worker pops the first entry, which is due. -/
theorem run_pop (hcount : 0 < workerCount) (hworker : s.workers 0 = .peeking)
    (hheap : s.heap = e :: rest) (hdue : e.due ≤ s.clock) :
    Run (Step sched workerCount) s [.worker 0, .worker 0, .worker 0]
      ({ s with heap := rest }.setWorker 0 (.popped e.item)) := by
  have hlate : ¬ e.due - s.clock > 0 := not_lt.mpr (sub_nonpos.mpr hdue)
  have hpeek : Step sched workerCount s (.worker 0) (s.setWorker 0 (.waiting e.due)) := by
    have hstep := @Step.peek _ _ _ _ sched workerCount s 0 hcount hworker
    rwa [hheap] at hstep
  have hwait : Step sched workerCount (s.setWorker 0 (.waiting e.due)) (.worker 0)
      (s.setWorker 0 .due) := by
    have hstep := @Step.wait _ _ _ _ sched workerCount (s.setWorker 0 (.waiting e.due)) 0 e.due
      (State.setWorker_self ..)
    have hdone : wait e.due (s.setWorker 0 (.waiting e.due)).clock = (.due : Worker ι) :=
      if_neg hlate
    rwa [State.setWorker_setWorker, hdone] at hstep
  have hpop : Step sched workerCount (s.setWorker 0 .due) (.worker 0)
      ({ s with heap := rest }.setWorker 0 (.popped e.item)) := by
    have hstep := @Step.pop _ _ _ _ sched workerCount (s.setWorker 0 .due) 0
      (State.setWorker_self ..)
    have htaken : pop (s.setWorker 0 .due).heap (s.setWorker 0 .due).clock
        = (rest, .popped e.item) := by
      rw [show (s.setWorker 0 .due).heap = e :: rest from hheap]
      exact if_neg hlate
    rw [htaken] at hstep
    exact State.setWorker_setWorker { s with heap := rest } 0 .due (.popped e.item) ▸ hstep
  exact ((Run.single hpeek).snoc hwait).snoc hpop

/-- It takes the lock of the owner and begins to serve. -/
theorem run_serve (hcount : 0 < workerCount) (hworker : s.workers 0 = .peeking)
    (hheap : s.heap = e :: rest) (hdue : e.due ≤ s.clock)
    (hlock : s.locks (sched.owner e.item) = none)
    (hobj : s.objects (sched.owner e.item) = some obj) (hremoved : obj.removed = false)
    (hpaused : obj.paused = false) :
    Run (Step sched workerCount) s
      [.worker 0, .worker 0, .worker 0, .worker 0, .serve 0 e.item]
      (({ s with heap := rest }.setLock (sched.owner e.item) (some (.worker 0))).setWorker 0
        (.serving e.item)) := by
  set t := { s with heap := rest }.setLock (sched.owner e.item) (some (.worker 0)) with ht
  have hstep : Step sched workerCount ({ s with heap := rest }.setWorker 0 (.popped e.item))
      (.worker 0) (t.setWorker 0 (.locked e.item)) :=
    State.setWorker_setWorker t 0 (.popped e.item) (.locked e.item) ▸
      Step.lock (State.setWorker_self ..) hlock
  have hserve : Step sched workerCount (t.setWorker 0 (.locked e.item)) (.serve 0 e.item)
      (t.setWorker 0 (.serving e.item)) :=
    State.setWorker_setWorker t 0 (.locked e.item) (.serving e.item) ▸
      Step.serve (State.setWorker_self ..) hobj hremoved hpaused
  exact ((run_pop hcount hworker hheap hdue).snoc hstep).snoc hserve

/-- It gives the lock back and pushes the item with its next time. -/
theorem run_turn {next : Next} (hcount : 0 < workerCount) (hworker : s.workers 0 = .peeking)
    (hheap : s.heap = e :: rest) (hdue : e.due ≤ s.clock)
    (hlock : s.locks (sched.owner e.item) = none)
    (hobj : s.objects (sched.owner e.item) = some obj) (hremoved : obj.removed = false)
    (hpaused : obj.paused = false) (hagain : sched.again obj.data s.clock next)
    (hpush : heappush ⟨next.due s.clock, s.seq + 1, e.item⟩ rest = .ok heap) :
    Run (Step sched workerCount) s
      [.worker 0, .worker 0, .worker 0, .worker 0, .serve 0 e.item, .served 0 e.item, .worker 0]
      { s with heap := heap, seq := s.seq + 1 } := by
  have hserve := run_serve hcount hworker hheap hdue hlock hobj hremoved hpaused
  set t := { s with heap := rest }.setLock (sched.owner e.item) (some (.worker 0)) with ht
  have hunlocked : t.setLock (sched.owner e.item) none = { s with heap := rest } := by
    rw [ht, State.setLock, State.setLock, ← hlock]
    simp only [Function.update_idem, Function.update_eq_self]
  have hserved : Step sched workerCount (t.setWorker 0 (.serving e.item)) (.served 0 e.item)
      ({ s with heap := rest }.setWorker 0 (.pushing e.item next)) := by
    have hstep := @Step.served _ _ _ _ sched workerCount (t.setWorker 0 (.serving e.item)) 0
      e.item obj next (State.setWorker_self ..) hobj hagain
    rw [← hunlocked]
    exact State.setWorker_setWorker (t.setLock (sched.owner e.item) none) 0 (.serving e.item)
      (.pushing e.item next) ▸ hstep
  have hback : Step sched workerCount ({ s with heap := rest }.setWorker 0 (.pushing e.item next))
      (.worker 0) ({ s with heap := heap, seq := s.seq + 1 }.setWorker 0 .peeking) :=
    State.setWorker_setWorker { s with heap := heap, seq := s.seq + 1 } 0 (.pushing e.item next)
      .peeking ▸ Step.push (State.setWorker_self ..) hpush
  have hidle : { s with heap := heap, seq := s.seq + 1 }.setWorker 0 .peeking
      = { s with heap := heap, seq := s.seq + 1 } := by
    rw [State.setWorker, ← hworker, Function.update_eq_self]
  exact (hserve.snoc hserved).snoc (hidle ▸ hback)

end Turn

/-! ### Two boxes and one worker -/

/-- Box 0, which hops every second, and box 1, which hops every three; the worker looks for the
next entry. -/
def twoBoxes (clock : ℚ) (heap : List (Entry ℕ)) (seq : ℕ) : State ℕ ℕ ℚ :=
  { (({ start with heap, seq } : State ℕ ℕ ℚ).setObj 0 ⟨1, false, false⟩).setObj 1
      ⟨3, false, false⟩ with clock }

theorem run_twoBoxes :
    Run (Step fallScheduler 1) start [.register 0 1, .register 1 3]
      (twoBoxes 0 [⟨0, 1, 0⟩, ⟨0, 2, 1⟩] 2) := by
  have hstep : Step fallScheduler 1 start (.register 0 1)
      (({ start with heap := [⟨0, 1, 0⟩], seq := 1 } : State ℕ ℕ ℚ).setObj 0 ⟨1, false, false⟩) :=
    @Step.register _ _ _ _ _ _ _ _ _ [(0, 0)] _ _ rfl rfl (by simp [fallScheduler, start]) rfl
  have hpush : pushAll [((0 : ℚ), 1)] 1 [⟨0, 1, 0⟩] = .ok (2, [⟨0, 1, 0⟩, ⟨0, 2, 1⟩]) := by
    simp [pushAll, heappush, Entry.lt, pure, Except.pure, bind, Except.bind]
  exact (Run.single hstep).snoc (@Step.register _ _ _ _ _ _ _ _ _ [(0, 1)] _ _ rfl rfl
    (by simp [fallScheduler, start, State.setObj]) hpush)

/-- A box whose turn it is hops and is pushed back. -/
theorem turn_twoBoxes {clock due interval : ℚ} {n box seq : ℕ} {rest heap : List (Entry ℕ)}
    (hdue : due ≤ clock)
    (hobj : (twoBoxes clock (⟨due, n, box⟩ :: rest) seq).objects box
      = some ⟨interval, false, false⟩)
    (hpush : heappush ⟨clock + interval, seq + 1, box⟩ rest = .ok heap) :
    Run (Step fallScheduler 1) (twoBoxes clock (⟨due, n, box⟩ :: rest) seq)
      [.worker 0, .worker 0, .worker 0, .worker 0, .serve 0 box, .served 0 box, .worker 0]
      (twoBoxes clock heap (seq + 1)) :=
  @run_turn _ _ _ _ fallScheduler 1 (twoBoxes clock (⟨due, n, box⟩ :: rest) seq) ⟨due, n, box⟩
    rest heap ⟨interval, false, false⟩ (.after interval) Nat.one_pos rfl rfl hdue rfl hobj rfl rfl
    rfl hpush

/-! ### Overtaking -/

section Overtaking

variable {κ ι δ : Type}

/-- An item of an owner with this data is not due again before this long after its service. -/
def Scheduler.Spaced (sched : Scheduler κ ι δ) (gap : ℚ) (data : δ) : Prop :=
  ∀ clock next later, sched.again data clock next → clock ≤ later → clock + gap ≤ next.due later

theorem spaced_fallScheduler {gap hopInterval : ℚ} (h : gap ≤ hopInterval) :
    fallScheduler.Spaced gap hopInterval := by
  rintro clock next later rfl hlater
  exact add_le_add hlater h

theorem spaced_cellScheduler {gap : ℚ} {data : GuardData} (hmin : gap ≤ data.minInterval)
    (hmax : gap ≤ data.maxInterval) : cellScheduler.Spaced gap data := by
  rintro clock next later ⟨r, hr, rfl⟩ -
  exact add_le_add_right ((le_inf hmin hmax).trans hr.1) clock

def Event.serves [DecidableEq ι] (item : ι) : Event κ ι δ → Bool
  | .serve _ item' => item' = item
  | _ => false

/-- How often an item is served. -/
def services [DecidableEq ι] (item : ι) (events : List (Event κ ι δ)) : ℕ :=
  events.countP (Event.serves item)

theorem services_concat [DecidableEq ι] (item : ι) (events : List (Event κ ι δ))
    (event : Event κ ι δ) :
    services item (events ++ [event])
      = services item events + if event.serves item then 1 else 0 := by
  rw [services, List.countP_append, List.countP_singleton]
  rfl

variable {sched : Scheduler κ ι δ} {workerCount : ℕ} {s t u : State κ ι δ}
  {events : List (Event κ ι δ)} {event : Event κ ι δ}

/-- The item has been served `n` times since `s`, and `e` has waited all along: how late the item
is due again, wherever it is. -/
structure Overtaken (sched : Scheduler κ ι δ) (s : State κ ι δ) (e : Entry ι) (item : ι) (gap : ℚ)
    (n : ℕ) (t : State κ ι δ) : Prop where
  clock : s.clock ≤ t.clock
  seq : e.seq ≤ t.seq
  known : 0 < n → ∃ obj, t.objects (sched.owner item) = some obj
  queued : 0 < n → ∀ x ∈ t.heap, x.item = item → s.clock + n * gap ≤ x.due ∧ e.seq < x.seq
  taken : 0 < n → ∀ w, t.workers w = .popped item ∨ t.workers w = .locked item →
    s.clock + n * gap ≤ t.clock ∧ s.clock + n * gap < e.due
  serving : ∀ m, n = m + 1 → ∀ w, t.workers w = .serving item → s.clock + m * gap ≤ t.clock
  pushing : 0 < n → ∀ w next, t.workers w = .pushing item next → ∀ later, t.clock ≤ later →
    s.clock + n * gap ≤ next.due later
  bound : ∀ m, 0 < m → m < n → s.clock + m * gap < e.due

theorem overtaken_zero {e : Entry ι} (he : e.seq ≤ s.seq) (item : ι) (gap : ℚ) :
    Overtaken sched s e item gap 0 s where
  clock := le_rfl
  seq := he
  known h := absurd h (lt_irrefl 0)
  queued h := absurd h (lt_irrefl 0)
  taken h := absurd h (lt_irrefl 0)
  serving _ h := nomatch h
  pushing h := absurd h (lt_irrefl 0)
  bound _ _ h := nomatch h

variable {e : Entry ι} {item : ι} {gap : ℚ} {n : ℕ}

/-- A step of one worker that serves nothing. -/
theorem Overtaken.move (h : Overtaken sched s e item gap n t) {w : ℕ} {worker : Worker ι}
    (hclock : u.clock = t.clock) (hseq : t.seq ≤ u.seq) (hobjects : u.objects = t.objects)
    (hworkers : u.workers = t.workers)
    (hqueued : 0 < n → ∀ x ∈ u.heap, x.item = item →
      s.clock + n * gap ≤ x.due ∧ e.seq < x.seq)
    (htaken : 0 < n → worker = .popped item ∨ worker = .locked item →
      s.clock + n * gap ≤ t.clock ∧ s.clock + n * gap < e.due)
    (hserving : worker ≠ .serving item)
    (hpushing : 0 < n → ∀ next, worker = .pushing item next → ∀ later, t.clock ≤ later →
      s.clock + n * gap ≤ next.due later) :
    Overtaken sched s e item gap n (u.setWorker w worker) := by
  have hself : (u.setWorker w worker).workers w = worker := State.setWorker_self ..
  have hother : ∀ {v}, v ≠ w → (u.setWorker w worker).workers v = t.workers v := fun hv => by
    rw [State.setWorker_of_ne _ hv, hworkers]
  refine ⟨hclock.symm ▸ h.clock, h.seq.trans hseq, fun hn => ?_, hqueued, fun hn v hv => ?_,
    fun m hm v hv => ?_, fun hn v next hv later hlater => ?_, h.bound⟩
  · show ∃ obj, u.objects _ = some obj
    rw [hobjects]
    exact h.known hn
  · show s.clock + n * gap ≤ u.clock ∧ _
    rw [hclock]
    by_cases hvw : v = w
    · rw [hvw, hself] at hv
      exact htaken hn hv
    · rw [hother hvw] at hv
      exact h.taken hn v hv
  · show s.clock + m * gap ≤ u.clock
    rw [hclock]
    by_cases hvw : v = w
    · rw [hvw, hself] at hv
      exact absurd hv hserving
    · rw [hother hvw] at hv
      exact h.serving m hm v hv
  · have hlater' : t.clock ≤ later := hclock ▸ hlater
    by_cases hvw : v = w
    · rw [hvw, hself] at hv
      exact hpushing hn next hv later hlater'
    · rw [hother hvw] at hv
      exact h.pushing hn v next hv later hlater'

/-- A worker that has an item has its token. -/
theorem State.Idle.one_le [DecidableEq ι] (h : t.Idle workerCount) {w : ℕ}
    (hw : (t.workers w).item = some item) :
    1 ≤ ∑ v ∈ Finset.range workerCount, (t.workers v).token item := by
  have hlt : w < workerCount := h.lt rfl fun hpeeking => by
    rw [hpeeking] at hw
    exact nomatch hw
  have hone : (t.workers w).token item = 1 := if_pos hw
  rw [← hone]
  exact Finset.single_le_sum (fun v _ => Nat.zero_le ((t.workers v).token item))
    (Finset.mem_range.mpr hlt)

/-- The item that a worker has is not in the heap. -/
theorem Inv.notMem_heap [DecidableEq ι] (hinv : Inv sched workerCount events t) {w : ℕ}
    (hw : (t.workers w).item = some item) : ∀ x ∈ t.heap, x.item ≠ item := by
  have hone := hinv.orderly.idle.one_le hw
  have hsingle := hinv.single item
  rw [State.tokens] at hsingle
  have hzero : entriesOf t.heap item = 0 := by omega
  intro x hx heq
  exact List.countP_eq_zero.mp hzero x hx (decide_eq_true heq)

/-- The worker that serves the item is the only place where it is. -/
theorem Overtaken.serve [DecidableEq ι] (h : Overtaken sched s e item gap n t)
    (hinv : Inv sched workerCount events t) {w : ℕ} {obj : Obj δ}
    (hat : t.workers w = .locked item) (hobj : t.objects (sched.owner item) = some obj) :
    Overtaken sched s e item gap (n + 1) (t.setWorker w (.serving item)) := by
  have hitem : (t.workers w).item = some item := by rw [hat]; rfl
  have halone : ∀ {v worker}, (t.setWorker w (.serving item)).workers v = worker →
      worker.item = some item → v = w := by
    intro v worker hv hworker
    by_contra hne
    rw [State.setWorker_of_ne _ hne] at hv
    exact hne (hinv.eq_of_item (hv ▸ hworker) hitem)
  -- when the worker popped the item, it was due before `e` was
  have hdue : ∀ m, 0 < m → m = n → s.clock + m * gap ≤ t.clock ∧ s.clock + m * gap < e.due := by
    rintro m hm rfl
    exact h.taken hm w (Or.inr hat)
  refine ⟨h.clock, h.seq, fun _ => ⟨obj, hobj⟩, fun _ x hx heq => ?_, fun _ v hv => ?_,
    fun m hm v _ => ?_, fun _ v next hv => ?_, fun m hm hlt => ?_⟩
  · exact absurd heq (hinv.notMem_heap hitem x hx)
  · have hself := State.setWorker_self t w (.serving item)
    rcases hv with hv | hv
    · obtain rfl := halone hv rfl
      exact nomatch hv.symm.trans hself
    · obtain rfl := halone hv rfl
      exact nomatch hv.symm.trans hself
  · obtain rfl := Nat.succ.inj hm
    show s.clock + n * gap ≤ t.clock
    rcases Nat.eq_zero_or_pos n with rfl | hn
    · simpa using h.clock
    · exact (hdue n hn rfl).1
  · have hself := State.setWorker_self t w (.serving item)
    obtain rfl := halone hv rfl
    exact nomatch hv.symm.trans hself
  · rcases Nat.lt_succ_iff_lt_or_eq.mp hlt with hlt | heq
    · exact h.bound m hm hlt
    · exact (hdue m hm heq).2

variable [DecidableEq κ]

theorem Step.keeps_data (hstep : Step sched workerCount t event u) {k : κ} {obj : Obj δ}
    (hobj : t.objects k = some obj) :
    ∃ obj', u.objects k = some obj' ∧ obj'.data = obj.data := by
  obtain hsame | ⟨_, _, hnone, _⟩ | ⟨obj₀, obj', hobj₀, hobj', hdata, -⟩ := hstep.objects k
  · exact ⟨obj, hsame.trans hobj, rfl⟩
  · exact nomatch hnone.symm.trans hobj
  · obtain rfl := Option.some.inj (hobj₀.symm.trans hobj)
    exact ⟨obj', hobj', hdata⟩

theorem pop_due (heap : List (Entry ι)) (clock : ℚ) :
    pop heap clock = (heap, .peeking) ∨ ∃ entry rest, heap = entry :: rest ∧
      entry.due ≤ clock ∧ pop heap clock = (rest, .popped entry.item) := by
  cases heap with
  | nil => exact Or.inl rfl
  | cons entry rest =>
    by_cases hdue : entry.due - clock > 0
    · exact Or.inl (if_pos hdue)
    · exact Or.inr ⟨entry, rest, rfl, sub_nonpos.mp (not_lt.mp hdue), if_neg hdue⟩

/-- What a step does to the heap: nothing, or it registers an owner, pops the first entry, which
is due, or pushes an item back. -/
theorem Step.heap_cases (hstep : Step sched workerCount t event u) :
    u.heap = t.heap ∧ u.seq = t.seq ∨
    (∃ k data entries, t.objects k = none ∧ entries.map Prod.snd = sched.items k data ∧
      pushAll entries t.seq t.heap = .ok (u.seq, u.heap)) ∨
    (∃ entry, t.heap = entry :: u.heap ∧ entry.due ≤ t.clock ∧ u.seq = t.seq) ∨
    ∃ due item, heappush ⟨due, t.seq + 1, item⟩ t.heap = .ok u.heap ∧ u.seq = t.seq + 1 := by
  cases hstep with
  | register hnew hitems _ hpush => exact Or.inr (Or.inl ⟨_, _, _, hnew, hitems, hpush⟩)
  | pop =>
    rcases pop_due t.heap t.clock with hp | ⟨entry, rest, hheap, hdue, hp⟩ <;> rw [hp]
    · exact Or.inl ⟨rfl, rfl⟩
    · exact Or.inr (Or.inr (Or.inl ⟨entry, hheap, hdue, rfl⟩))
  | push _ hpush => exact Or.inr (Or.inr (Or.inr ⟨_, _, hpush, rfl⟩))
  | _ => exact Or.inl ⟨rfl, rfl⟩

theorem Step.ordered (hstep : Step sched workerCount t event u) (h : Ordered t.heap) :
    Ordered u.heap := by
  obtain ⟨hheap, -⟩ | ⟨_, _, _, -, -, hpush⟩ | ⟨_, hheap, -, -⟩ | ⟨_, _, hpush, -⟩ :=
    hstep.heap_cases
  · rwa [hheap]
  · exact h.pushAll hpush
  · rw [hheap] at h
    exact (List.pairwise_cons.mp h).2
  · exact h.heappush hpush

/-- An entry with an old number has been there before. -/
theorem Step.mem_heap (hstep : Step sched workerCount t event u) {e : Entry ι}
    (hseq : e.seq ≤ t.seq) (he : e ∈ u.heap) : e ∈ t.heap := by
  obtain ⟨hheap, -⟩ | ⟨_, _, _, -, -, hpush⟩ | ⟨_, hheap, -, -⟩ | ⟨_, _, hpush, -⟩ :=
    hstep.heap_cases
  · rwa [← hheap]
  · exact ((pushAll_mem hpush).2 e he).resolve_right fun hnew => absurd hnew.2 (not_lt.mpr hseq)
  · rw [hheap]
    exact List.mem_cons_of_mem _ he
  · rcases List.mem_cons.mp ((heappush_perm hpush).mem_iff.mp he) with rfl | he
    · exact absurd hseq (Nat.not_succ_le_self _)
    · exact he

theorem Step.seq_le (hstep : Step sched workerCount t event u) : t.seq ≤ u.seq := by
  obtain ⟨-, hseq⟩ | ⟨_, _, _, -, -, hpush⟩ | ⟨_, -, -, hseq⟩ | ⟨_, _, -, hseq⟩ :=
    hstep.heap_cases
  · exact hseq.ge
  · exact (pushAll_mem hpush).1
  · exact hseq.ge
  · exact hseq ▸ Nat.le_succ _

theorem Step.clock_le (hstep : Step sched workerCount t event u) : t.clock ≤ u.clock := by
  cases hstep with
  | tick hd => exact le_add_of_nonneg_right hd
  | _ => exact le_rfl

/-- A step that no worker takes. -/
theorem Overtaken.away (h : Overtaken sched s e item gap n t)
    (hstep : Step sched workerCount t event u) (hworkers : u.workers = t.workers)
    (hqueued : 0 < n → ∀ x ∈ u.heap, x.item = item →
      s.clock + n * gap ≤ x.due ∧ e.seq < x.seq) :
    Overtaken sched s e item gap n u := by
  have hclock := hstep.clock_le
  refine ⟨h.clock.trans hclock, h.seq.trans hstep.seq_le, fun hn => ?_, hqueued,
    fun hn v hv => ?_, fun m hm v hv => ?_, fun hn v next hv later hlater => ?_, h.bound⟩
  · obtain ⟨obj, hobj⟩ := h.known hn
    obtain ⟨obj', hobj', -⟩ := hstep.keeps_data hobj
    exact ⟨obj', hobj'⟩
  · rw [hworkers] at hv
    obtain ⟨hle, hlt⟩ := h.taken hn v hv
    exact ⟨hle.trans hclock, hlt⟩
  · rw [hworkers] at hv
    exact (h.serving m hm v hv).trans hclock
  · rw [hworkers] at hv
    exact h.pushing hn v next hv later (hclock.trans hlater)

variable [DecidableEq ι]

theorem Overtaken.step (h : Overtaken sched s e item gap n t)
    (hinv : Inv sched workerCount events t) (hordered : Ordered t.heap)
    (hspaced : ∀ obj, t.objects (sched.owner item) = some obj → sched.Spaced gap obj.data)
    (hstep : Step sched workerCount t event u) (hwaits : e ∈ u.heap) :
    Overtaken sched s e item gap (n + if event.serves item then 1 else 0) u := by
  -- a worker that has or takes no item, or only sets it aside
  have hkeep : ∀ {w worker} {locks : κ → Option Holder}, worker ≠ .popped item →
      worker ≠ .locked item → worker ≠ .serving item → (∀ next, worker ≠ .pushing item next) →
      Overtaken sched s e item gap n ({ t with locks }.setWorker w worker) := by
    intro w worker locks hpopped hlocked hserving hpushing
    exact h.move rfl le_rfl rfl rfl h.queued (fun _ hw => (hw.elim hpopped hlocked).elim) hserving
      fun _ next hw => absurd hw (hpushing next)
  cases id hstep with
  | tick => exact h.away hstep rfl h.queued
  | @register k data entries seq heap hnew hitems _ hpush =>
    refine h.away hstep rfl fun hn x hx heq => ?_
    rcases (pushAll_mem hpush).2 x hx with hx | ⟨hmem, -⟩
    · exact h.queued hn x hx heq
    -- the owner of the item has been registered before
    · rw [hitems, heq] at hmem
      obtain ⟨obj, hobj⟩ := h.known hn
      rw [sched.owner_items k data item hmem, hnew] at hobj
      exact nomatch hobj
  | pause => exact h.away hstep rfl h.queued
  | acquire => exact h.away hstep rfl h.queued
  | remove => exact h.away hstep rfl h.queued
  | release => exact h.away hstep rfl h.queued
  | peek =>
    rcases peek_cases t.heap with hp | ⟨due, hp⟩ <;> rw [hp]
    · exact hkeep nofun nofun nofun nofun
    · exact hkeep nofun nofun nofun nofun
  | @wait w due =>
    rcases wait_cases (ι := ι) due t.clock with hp | hp <;> rw [hp]
    · exact hkeep nofun nofun nofun nofun
    · exact hkeep nofun nofun nofun nofun
  | pop =>
    rcases pop_due t.heap t.clock with hp | ⟨entry, rest, hheap, hdue, hp⟩ <;> rw [hp] at hwaits ⊢
    · exact hkeep nofun nofun nofun nofun
    · have hbefore : entry.Before e := (List.pairwise_cons.mp (hheap ▸ hordered)).1 e hwaits
      refine h.move rfl le_rfl rfl rfl (fun hn x hx => ?_) (fun hn hw => ?_) nofun nofun
      · exact h.queued hn x (hheap ▸ List.mem_cons_of_mem entry hx)
      · obtain rfl := Worker.popped.inj (hw.resolve_right nofun)
        obtain ⟨hle, hseq⟩ := h.queued hn entry (hheap ▸ List.mem_cons_self) rfl
        refine ⟨hle.trans hdue, ?_⟩
        rcases hbefore with hlt | ⟨-, hlt⟩
        · exact hle.trans_lt hlt
        · exact absurd hlt (not_lt.mpr hseq.le)
  | @lock w item' hat =>
    refine h.move rfl le_rfl rfl rfl h.queued (fun hn hw => ?_) nofun nofun
    obtain rfl := Worker.locked.inj (hw.resolve_left nofun)
    exact h.taken hn w (Or.inl hat)
  | gone => exact hkeep nofun nofun nofun nofun
  | @skip w item' _ hat =>
    refine h.move rfl le_rfl rfl rfl h.queued (fun _ hw => hw.elim nofun nofun) nofun
      fun hn next hw later hlater => ?_
    obtain ⟨rfl, rfl⟩ := Worker.pushing.inj hw
    exact ((h.taken hn w (Or.inr hat)).1.trans hlater).trans (le_add_of_nonneg_right (by norm_num))
  | @serve w item' obj hat hobj =>
    by_cases heq : item' = item
    · subst heq
      rw [Event.serves, decide_eq_true rfl, if_pos rfl]
      exact h.serve hinv hat hobj
    · rw [Event.serves, decide_eq_false heq, if_neg Bool.false_ne_true]
      exact hkeep nofun nofun (fun hw => heq (Worker.serving.inj hw)) nofun
  | @served w item' obj next hat hobj hagain =>
    refine h.move rfl le_rfl rfl rfl h.queued (fun _ hw => hw.elim nofun nofun) nofun
      fun hn next' hw later hlater => ?_
    obtain ⟨rfl, rfl⟩ := Worker.pushing.inj hw
    obtain ⟨m, rfl⟩ := Nat.exists_eq_succ_of_ne_zero hn.ne'
    have hserved := h.serving m rfl w hat
    have hlate := hspaced obj hobj t.clock next later hagain hlater
    push_cast
    linarith
  | raised => exact hkeep nofun nofun nofun nofun
  | @push w item' next heap hat hpush =>
    refine h.move rfl (Nat.le_succ _) rfl rfl (fun hn x hx heq => ?_)
      (fun _ hw => hw.elim nofun nofun) nofun nofun
    rcases List.mem_cons.mp ((heappush_perm hpush).mem_iff.mp hx) with rfl | hx
    · subst heq
      exact ⟨h.pushing hn w next hat t.clock le_rfl, Nat.lt_succ_of_le h.seq⟩
    · exact h.queued hn x hx heq
  | crash => exact hkeep nofun nofun nofun nofun

theorem Overtaken.run {later : List (Event κ ι δ)}
    (hrun : Run (Step sched workerCount) start events s) (he : e ∈ s.heap)
    (hlater : Run (Step sched workerCount) s later t) (hwaits : e ∈ t.heap)
    (hspaced : ∀ obj, t.objects (sched.owner item) = some obj → sched.Spaced gap obj.data) :
    Overtaken sched s e item gap (services item later) t := by
  have hseq : e.seq ≤ s.seq := (inv_of_run hrun).orderly.numbered.le e he
  induction hlater with
  | nil => exact overtaken_zero hseq item gap
  | @snoc later u v event hmiddle hstep ih =>
    have hordered : Ordered u.heap :=
      (hrun.trans hmiddle).invariant List.Pairwise.nil fun h hs => hs.ordered h
    have hold : e.seq ≤ u.seq := hmiddle.invariant (I := fun v => e.seq ≤ v.seq) hseq
      fun h hs => h.trans hs.seq_le
    have hbefore := ih (hstep.mem_heap hold hwaits) fun obj hobj => by
      obtain ⟨obj', hobj', hdata⟩ := hstep.keeps_data hobj
      exact hdata ▸ hspaced obj' hobj'
    rw [services_concat]
    refine hbefore.step (inv_of_run (hrun.trans hmiddle)) hordered (fun obj hobj => ?_) hstep hwaits
    obtain ⟨obj', hobj', hdata⟩ := hstep.keeps_data hobj
    exact hdata ▸ hspaced obj' hobj'

/-- **Overtaking.**  While an entry that is due waits to be popped, every item is served once at
the most.  While one waits that is not due yet, an item that is due again `gap` after its service
at the earliest is served `n + 1` times only if that makes `n` gaps before the entry is due. -/
theorem overtaking {later : List (Event κ ι δ)}
    (hrun : Run (Step sched workerCount) start events s) (he : e ∈ s.heap)
    (hlater : Run (Step sched workerCount) s later t) (hwaits : e ∈ t.heap) (hgap : 0 ≤ gap)
    (hspaced : ∀ obj, t.objects (sched.owner item) = some obj → sched.Spaced gap obj.data) :
    (e.due ≤ s.clock → services item later ≤ 1) ∧
      ∀ n : ℕ, 0 < n → n < services item later → s.clock + n * gap < e.due := by
  have h := Overtaken.run hrun he hlater hwaits hspaced
  refine ⟨fun hdue => ?_, h.bound⟩
  by_contra hmany
  have hlate := h.bound 1 Nat.one_pos (not_le.mp hmany)
  push_cast at hlate
  linarith

/-- Both boxes have been served once, so that box 1 is due after three seconds.  After two of them
box 0 is served for the second time since. -/
theorem overtaking_two_boxes :
    ∃ (events later : List (Event ℕ ℕ ℚ)) (s t : State ℕ ℕ ℚ) (e : Entry ℕ),
      Run (Step fallScheduler 1) start events s ∧ e ∈ s.heap ∧ e.due = s.clock + 3 ∧
        Run (Step fallScheduler 1) s later t ∧ e ∈ t.heap ∧ services 0 later = 2 ∧
        ((e.due ≤ s.clock → services 0 later ≤ 1) ∧
          ∀ n : ℕ, 0 < n → n < services 0 later → s.clock + n * 1 < e.due) := by
  -- both boxes, then box 0 again after a second, and again after another
  have hfirst : heappush ⟨0 + 1, 3, 0⟩ [(⟨0, 2, 1⟩ : Entry ℕ)] = .ok [⟨0, 2, 1⟩, ⟨1, 3, 0⟩] := by
    norm_num [heappush, Entry.lt]
  have hsecond : heappush ⟨0 + 3, 4, 1⟩ [(⟨1, 3, 0⟩ : Entry ℕ)] = .ok [⟨1, 3, 0⟩, ⟨3, 4, 1⟩] := by
    norm_num [heappush, Entry.lt]
  have hthird : heappush ⟨0 + 1 + 1, 5, 0⟩ [(⟨3, 4, 1⟩ : Entry ℕ)]
      = .ok [⟨2, 5, 0⟩, ⟨3, 4, 1⟩] := by
    norm_num [heappush, Entry.lt]
    rfl
  have hrun : Run (Step fallScheduler 1) start _ (twoBoxes 0 [⟨1, 3, 0⟩, ⟨3, 4, 1⟩] 4) :=
    (run_twoBoxes.trans (turn_twoBoxes le_rfl rfl hfirst)).trans (turn_twoBoxes le_rfl rfl hsecond)
  have hlater : Run (Step fallScheduler 1) (twoBoxes 0 [⟨1, 3, 0⟩, ⟨3, 4, 1⟩] 4) _ _ :=
    (((Run.single (.tick zero_le_one)).trans
      (turn_twoBoxes (le_of_eq (zero_add 1).symm) rfl hthird)).snoc (.tick zero_le_one)).trans
      (@run_serve _ _ _ _ fallScheduler 1 (twoBoxes (0 + 1 + 1) [⟨2, 5, 0⟩, ⟨3, 4, 1⟩] 5)
        ⟨2, 5, 0⟩ [⟨3, 4, 1⟩] ⟨1, false, false⟩ Nat.one_pos rfl rfl (by norm_num [twoBoxes]) rfl rfl
        rfl rfl)
  have hwaits : (⟨3, 4, 1⟩ : Entry ℕ) ∈ [(⟨3, 4, 1⟩ : Entry ℕ)] := List.mem_singleton_self _
  refine ⟨_, _, _, _, ⟨3, 4, 1⟩, hrun, by simp [twoBoxes, State.setObj], by norm_num [twoBoxes],
    hlater, hwaits, rfl, overtaking hrun (by simp [twoBoxes, State.setObj]) hlater hwaits
      zero_le_one fun obj hobj => ?_⟩
  obtain rfl := Option.some.inj hobj
  exact spaced_fallScheduler le_rfl

end Overtaking

/-! ### Standing still -/

section Stalled

variable {κ ι δ : Type}

/-- The worker whose step it is. -/
def Event.worker? : Event κ ι δ → Option ℕ
  | .worker w | .serve w _ | .served w _ | .raised w _ => some w
  | _ => none

/-- The worker that has a lock is at its item. -/
def Owned (sched : Scheduler κ ι δ) (s : State κ ι δ) : Prop :=
  ∀ k w, s.locks k = some (.worker w) →
    ∃ item, (s.workers w).Holding item ∧ sched.owner item = k

theorem Worker.Holding.eq {worker : Worker ι} {item item' : ι} (h : worker.Holding item)
    (h' : worker.Holding item') : item = item' := by
  rcases h with rfl | rfl
  · exact Worker.locked.inj (h'.resolve_right nofun)
  · exact Worker.serving.inj (h'.resolve_left nofun)

variable [DecidableEq κ] {sched : Scheduler κ ι δ} {workerCount : ℕ} {s t : State κ ι δ}
  {events : List (Event κ ι δ)} {event : Event κ ι δ}

/-- No worker can take a step. -/
def State.Stalled (sched : Scheduler κ ι δ) (workerCount : ℕ) (s : State κ ι δ) : Prop :=
  ∀ event w t, event.worker? = some w → ¬ Step sched workerCount s event t

theorem Owned.step (h : Owned sched s) (hstep : Step sched workerCount s event t) :
    Owned sched t := by
  -- a worker without a lock moves
  have hmove : ∀ {w worker} {heap : List (Entry ι)} {seq : ℕ},
      (∀ item, ¬ (s.workers w).Holding item) →
      Owned sched ({ s with heap, seq }.setWorker w worker) := by
    intro w worker heap seq hout k v hk
    obtain ⟨item, hitem, howner⟩ := h k v hk
    have hne : v ≠ w := fun heq => hout item (heq ▸ hitem)
    exact ⟨item, by rwa [State.setWorker_of_ne _ hne], howner⟩
  -- a worker gives its lock back
  have hunlock : ∀ {w item worker}, (s.workers w).Holding item →
      Owned sched ((s.setLock (sched.owner item) none).setWorker w worker) := by
    intro w item worker hat k v hk
    by_cases hk' : k = sched.owner item
    · subst hk'
      exact nomatch (Function.update_self ..).symm.trans hk
    · obtain ⟨item', hitem', howner⟩ := h k v ((Function.update_of_ne hk' ..).symm.trans hk)
      have hne : v ≠ w := by
        rintro rfl
        exact hk' (howner.symm.trans (congrArg _ (hitem'.eq hat)))
      exact ⟨item', by rwa [State.setWorker_of_ne _ hne], howner⟩
  cases hstep with
  | tick => exact h
  | register => exact h
  | pause => exact h
  | remove => exact h
  | @acquire k =>
    intro l v hl
    by_cases hlk : l = k
    · subst hlk
      exact nomatch (Function.update_self ..).symm.trans hl
    · exact h l v ((Function.update_of_ne hlk ..).symm.trans hl)
  | @release k =>
    intro l v hl
    by_cases hlk : l = k
    · subst hlk
      exact nomatch (Function.update_self ..).symm.trans hl
    · exact h l v ((Function.update_of_ne hlk ..).symm.trans hl)
  | peek _ hat => exact hmove fun _ hh => by rw [hat] at hh; exact hh.elim nofun nofun
  | wait hat => exact hmove fun _ hh => by rw [hat] at hh; exact hh.elim nofun nofun
  | pop hat => exact hmove fun _ hh => by rw [hat] at hh; exact hh.elim nofun nofun
  | @lock w item hat =>
    intro k v hk
    by_cases hk' : k = sched.owner item
    · subst hk'
      have hself : some (Holder.worker w) = some (.worker v) :=
        (Function.update_self (sched.owner item) _ s.locks).symm.trans hk
      obtain rfl := Holder.worker.inj (Option.some.inj hself)
      exact ⟨item, Or.inl (State.setWorker_self ..), rfl⟩
    · obtain ⟨item', hitem', howner⟩ := h k v ((Function.update_of_ne hk' ..).symm.trans hk)
      have hne : v ≠ w := by
        rintro rfl
        rw [hat] at hitem'
        exact hitem'.elim nofun nofun
      exact ⟨item', by rwa [State.setWorker_of_ne _ hne], howner⟩
  | gone hat => exact hunlock (Or.inl hat)
  | skip hat => exact hunlock (Or.inl hat)
  | @serve w item _ hat =>
    intro k v hk
    obtain ⟨item', hitem', howner⟩ := h k v hk
    by_cases hvw : v = w
    · subst hvw
      obtain rfl := hitem'.eq (Or.inl hat)
      exact ⟨item', Or.inr (State.setWorker_self ..), howner⟩
    · exact ⟨item', by rwa [State.setWorker_of_ne _ hvw], howner⟩
  | served hat => exact hunlock (Or.inr hat)
  | raised hat => exact hunlock (Or.inr hat)
  | push hat => exact hmove fun _ hh => by rw [hat] at hh; exact hh.elim nofun nofun
  | crash hat => exact hmove fun _ hh => by rw [hat] at hh; exact hh.elim nofun nofun

theorem owned_run (hrun : Run (Step sched workerCount) start events s) : Owned sched s :=
  hrun.invariant (fun _ _ h => nomatch h) fun h hstep => h.step hstep

/-- A worker that has a lock can go on. -/
theorem holding_moves
    (hknown : ∀ w item, s.workers w = .locked item →
      ∃ obj, s.objects (sched.owner item) = some obj)
    {w : ℕ} {item : ι} (hat : (s.workers w).Holding item) :
    ∃ event t, event.worker? = some w ∧ Step sched workerCount s event t := by
  rcases hat with hat | hat
  · obtain ⟨obj, hobj⟩ := hknown w item hat
    cases hremoved : obj.removed with
    | true => exact ⟨_, _, rfl, .gone hat hobj hremoved⟩
    | false =>
      cases hpaused : obj.paused with
      | true => exact ⟨_, _, rfl, .skip hat hobj hremoved hpaused⟩
      | false => exact ⟨_, _, rfl, .serve hat hobj hremoved hpaused⟩
  · exact ⟨_, _, rfl, .raised hat⟩

variable [DecidableEq ι]

theorem Inv.stands_iff (hinv : Inv sched workerCount events s) (howned : Owned sched s) :
    s.Stalled sched workerCount ↔ ∀ w < workerCount, ∃ item,
      s.workers w = .popped item ∧ s.locks (sched.owner item) = some .caller := by
  constructor
  · intro hstalled w hw
    have hmoves : ∀ {event t}, event.worker? = some w → ¬ Step sched workerCount s event t :=
      fun hworker => hstalled _ w _ hworker
    have hknown : ∀ v item, s.workers v = .locked item →
        ∃ obj, s.objects (sched.owner item) = some obj := by
      intro v item hv
      have hitem : (s.workers v).item = some item := by rw [hv]; rfl
      obtain ⟨obj, hobj, -⟩ := hinv.known item
        ((hinv.orderly.idle.one_le hitem).trans (Nat.le_add_left _ _))
      exact ⟨obj, hobj⟩
    cases hat : s.workers w with
    | peeking => exact absurd (.peek hw hat) (hmoves rfl)
    | waiting => exact absurd (.wait hat) (hmoves rfl)
    | due => exact absurd (.pop hat) (hmoves rfl)
    | popped item =>
      refine ⟨item, rfl, ?_⟩
      cases hlock : s.locks (sched.owner item) with
      | none => exact absurd (.lock hat hlock) (hmoves rfl)
      | some holder =>
        cases holder with
        | caller => rfl
        -- the worker that has the lock can go on
        | worker v =>
          obtain ⟨item', hitem', -⟩ := howned _ v hlock
          obtain ⟨event, t, hworker, hstep⟩ := holding_moves hknown hitem'
          exact absurd hstep (hstalled event v t hworker)
    | locked item =>
      obtain ⟨event, t, hworker, hstep⟩ := holding_moves hknown (Or.inl hat)
      exact absurd hstep (hmoves hworker)
    | serving item => exact absurd (.raised hat) (hmoves rfl)
    | pushing item next =>
      obtain ⟨heap, hpush⟩ := hinv.orderly.numbered.heappush_ok (next.due s.clock) item
      exact absurd (.push hat hpush) (hmoves rfl)
    | stopped => exact absurd hat (hinv.orderly.running w)
  · intro hwaits event w t hworker hstep
    have hlt : ∀ {v worker}, s.workers v = worker → worker ≠ .peeking → v < workerCount :=
      fun hv hne => hinv.orderly.idle.lt hv hne
    -- a worker that is anywhere else does not wait
    have hout : ∀ {v worker}, v < workerCount → s.workers v = worker →
        (∀ item, worker ≠ .popped item) → False := by
      rintro v worker hv rfl hne
      obtain ⟨item, hitem, -⟩ := hwaits v hv
      exact hne item hitem
    cases hstep with
    | peek hw hat => exact hout hw hat nofun
    | wait hat => exact hout (hlt hat nofun) hat nofun
    | pop hat => exact hout (hlt hat nofun) hat nofun
    | lock hat hfree =>
      obtain ⟨_, hitem, hcaller⟩ := hwaits _ (hlt hat nofun)
      obtain rfl := Worker.popped.inj (hat.symm.trans hitem)
      exact nomatch hfree.symm.trans hcaller
    | gone hat => exact hout (hlt hat nofun) hat nofun
    | skip hat => exact hout (hlt hat nofun) hat nofun
    | serve hat => exact hout (hlt hat nofun) hat nofun
    | served hat => exact hout (hlt hat nofun) hat nofun
    | raised hat => exact hout (hlt hat nofun) hat nofun
    | push hat => exact hout (hlt hat nofun) hat nofun
    | crash hat => exact hout (hlt hat nofun) hat nofun
    | _ => exact nomatch hworker

end Stalled

end WorkerPool
