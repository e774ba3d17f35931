/-
The two worker pools: `_GlobalFallScheduler` and `_GlobalCellScheduler`.

Both keep a heap of items, a box or a cell of a guard, and a few workers which look at
the first entry, wait, look again under the lock of the heap and pop it, take the lock of
the item's owner, serve the item if its owner has not been removed, and push it back.
They differ in what an item is, when it is due, and whether an owner can be paused; that
is what a `Scheduler` says.

* `tokenSafe`: an item in service is in the heap once or with one worker, never both, no
  two entries have the same number, and an owner that has been removed is not served.
* `fallScheduler_cellScheduler_tokenSafe`: so it is in both pools.
-/
import Mathlib
import VStorage.Py
import VStorage.Runs

namespace WorkerPool

/-! ### The heap -/

/-- `(due_time, seq, item)`. -/
structure Entry (ι : Type) where
  due : ℚ
  seq : ℕ
  item : ι

section Heap

variable {ι : Type}

/-- Tuples compare by time first, then by number.  Neither boxes nor guards can be
compared. -/
def Entry.lt (a b : Entry ι) : Except PyError Bool :=
  if a.due ≠ b.due then .ok (a.due < b.due)
  else if a.seq ≠ b.seq then .ok (a.seq < b.seq)
  -- only now would Python compare the items themselves
  else .error .typeError

/-- `heapq.heappush`: the heap is kept as the list in which its entries will be popped. -/
def heappush (entry : Entry ι) : List (Entry ι) → Except PyError (List (Entry ι))
  | [] => .ok [entry]
  -- before the first entry that it comes before
  | e :: rest => do
    if ← entry.lt e then return entry :: e :: rest
    else return e :: (← heappush entry rest)

theorem Entry.lt_ok {a b : Entry ι} (h : a.seq ≠ b.seq) : ∃ r, a.lt b = .ok r := by
  unfold Entry.lt
  split <;> exact ⟨_, rfl⟩

/-- A number that is not in the heap yet can be pushed. -/
theorem heappush_ok {entry : Entry ι} {heap : List (Entry ι)}
    (h : ∀ e ∈ heap, entry.seq ≠ e.seq) : ∃ heap', heappush entry heap = .ok heap' := by
  induction heap with
  | nil => exact ⟨_, rfl⟩
  | cons e rest ih =>
    obtain ⟨hne, hrest⟩ := List.forall_mem_cons.mp h
    obtain ⟨r, hr⟩ := Entry.lt_ok hne
    obtain ⟨rest', hrest'⟩ := ih hrest
    rw [heappush, hr, ok_bind]
    cases r with
    | true => exact ⟨_, rfl⟩
    | false => exact ⟨_, by rw [if_neg (by decide), hrest']; rfl⟩

theorem heappush_perm {entry : Entry ι} {heap heap' : List (Entry ι)}
    (h : heappush entry heap = .ok heap') : heap'.Perm (entry :: heap) := by
  induction heap generalizing heap' with
  | nil =>
    obtain rfl := Except.ok.inj h
    exact List.Perm.refl _
  | cons e rest ih =>
    obtain ⟨r, -, h⟩ := bind_eq_ok.mp h
    cases r with
    -- the new entry stands here, or somewhere in the rest
    | true =>
      obtain rfl := Except.ok.inj h
      exact List.Perm.refl _
    | false =>
      rw [if_neg (by decide)] at h
      obtain ⟨rest', hrest, h⟩ := bind_eq_ok.mp h
      obtain rfl := Except.ok.inj h
      exact ((ih hrest).cons e).trans (List.Perm.swap entry e rest)

/-- The loop of `register`: a number and an entry for every item. -/
def pushAll : List (ℚ × ι) → ℕ → List (Entry ι) → Except PyError (ℕ × List (Entry ι))
  | [], seq, heap => .ok (seq, heap)
  | (due, item) :: rest, seq, heap => do
    pushAll rest (seq + 1) (← heappush ⟨due, seq + 1, item⟩ heap)

/-- The entries have different numbers, none of them past the last one given out. -/
structure Numbered (seq : ℕ) (heap : List (Entry ι)) : Prop where
  nodup : (heap.map Entry.seq).Nodup
  le : ∀ e ∈ heap, e.seq ≤ seq

theorem Numbered.heappush_ok {seq : ℕ} {heap : List (Entry ι)} (h : Numbered seq heap) (due : ℚ)
    (item : ι) : ∃ heap', heappush ⟨due, seq + 1, item⟩ heap = .ok heap' :=
  WorkerPool.heappush_ok fun e he => (Nat.lt_succ_of_le (h.le e he)).ne'

theorem Numbered.heappush {seq : ℕ} {heap heap' : List (Entry ι)} (h : Numbered seq heap)
    {due : ℚ} {item : ι} (hpush : heappush ⟨due, seq + 1, item⟩ heap = .ok heap') :
    Numbered (seq + 1) heap' := by
  have hperm := heappush_perm hpush
  refine ⟨(hperm.map Entry.seq).nodup_iff.mpr ?_, fun e he => ?_⟩
  · rw [List.map_cons, List.nodup_cons]
    refine ⟨fun hmem => ?_, h.nodup⟩
    obtain ⟨e, he, heq⟩ := List.mem_map.mp hmem
    exact absurd heq (Nat.lt_succ_of_le (h.le e he)).ne
  · rcases List.mem_cons.mp (hperm.mem_iff.mp he) with rfl | he
    · exact le_rfl
    · exact (h.le e he).trans (Nat.le_succ seq)

theorem Numbered.pushAll {entries : List (ℚ × ι)} {seq seq' : ℕ} {heap heap' : List (Entry ι)}
    (h : Numbered seq heap) (hpush : pushAll entries seq heap = .ok (seq', heap')) :
    Numbered seq' heap' := by
  induction entries generalizing seq heap with
  | nil =>
    obtain ⟨rfl, rfl⟩ := Prod.mk.inj (Except.ok.inj hpush)
    exact h
  | cons entry rest ih =>
    obtain ⟨heap₁, hheap₁, hrest⟩ := bind_eq_ok.mp hpush
    exact ih (h.heappush hheap₁) hrest

variable [DecidableEq ι]

/-- How many entries an item has. -/
def entriesOf (heap : List (Entry ι)) (item : ι) : ℕ := heap.countP (·.item = item)

theorem entriesOf_heappush {entry : Entry ι} {heap heap' : List (Entry ι)}
    (h : heappush entry heap = .ok heap') (item : ι) :
    entriesOf heap' item = entriesOf heap item + if entry.item = item then 1 else 0 := by
  rw [entriesOf, (heappush_perm h).countP_eq, List.countP_cons, entriesOf]
  simp

theorem entriesOf_pushAll {entries : List (ℚ × ι)} {seq seq' : ℕ} {heap heap' : List (Entry ι)}
    (h : pushAll entries seq heap = .ok (seq', heap')) (item : ι) :
    entriesOf heap' item = entriesOf heap item + (entries.map Prod.snd).count item := by
  induction entries generalizing seq heap with
  | nil =>
    obtain ⟨-, rfl⟩ := Prod.mk.inj (Except.ok.inj h)
    rfl
  | cons entry rest ih =>
    obtain ⟨heap₁, hheap₁, hrest⟩ := bind_eq_ok.mp h
    rw [ih hrest, entriesOf_heappush hheap₁, List.map_cons, List.count_cons]
    simp only [beq_iff_eq]
    omega

end Heap

/-! ### The workers -/

/-- When an entry that is pushed back is due: so long after the push, or then. -/
inductive Next
  | after (delay : ℚ)
  | fixed (due : ℚ)

def Next.due (clock : ℚ) : Next → ℚ
  | .after delay => clock + delay
  | .fixed due => due

/-- Where a worker is in `_run`. -/
inductive Worker (ι : Type)
  | peeking
  | waiting (due : ℚ)
  | due
  | popped (item : ι)
  | locked (item : ι)
  | serving (item : ι)
  | pushing (item : ι) (next : Next)
  | stopped

section Workers

variable {ι : Type}

/-- `entry = self._heap[0] if self._heap else None`. -/
def peek : List (Entry ι) → Worker ι
  | [] => .peeking
  | entry :: _ => .waiting entry.due

/-- `wait = entry[0] - time.monotonic()`. -/
def wait (due clock : ℚ) : Worker ι := if due - clock > 0 then .peeking else .due

/-- The check again under the lock, and `heapq.heappop`. -/
def pop (heap : List (Entry ι)) (clock : ℚ) : List (Entry ι) × Worker ι :=
  match heap with
  | [] => ([], .peeking)
  | entry :: rest =>
    if entry.due - clock > 0 then (entry :: rest, .peeking) else (rest, .popped entry.item)

/-- The item a worker has, from popping it to pushing it back. -/
def Worker.item : Worker ι → Option ι
  | .popped item | .locked item | .serving item | .pushing item _ => some item
  | .peeking | .waiting _ | .due | .stopped => none

end Workers

/-! ### The pools -/

/-- What the pools need to know of a box or a guard: `data` is what never changes. -/
structure Obj (δ : Type) where
  data : δ
  removed : Bool
  paused : Bool

/-- What one pool does differently from another.  `owner` is the object whose `_lock`
and `_removed` count for an item, `items` are those that `register` pushes, `first` says
when they may be due, and `again` when an item that has been served may be. -/
structure Scheduler (κ ι δ : Type) where
  owner : ι → κ
  items : κ → δ → List ι
  first : δ → ℚ → ℚ → Prop
  again : δ → ℚ → Next → Prop
  pausable : Bool
  nodup_items : ∀ k data, (items k data).Nodup
  owner_items : ∀ k data, ∀ item ∈ items k data, owner item = k

/-- `_GlobalFallScheduler`: boxes with a `_hop_interval`, due at once. -/
def fallScheduler : Scheduler ℕ ℕ ℚ where
  owner := id
  items box _ := [box]
  first _ clock due := due = clock
  again hopInterval _ next := next = .after hopInterval
  pausable := true
  nodup_items _ _ := List.nodup_singleton _
  owner_items _ _ _ h := List.mem_singleton.mp h

/-- `len(guard._cells)`, `_min_interval` and `_max_interval`. -/
structure GuardData where
  cells : ℕ
  minInterval : ℚ
  maxInterval : ℚ

/-- `random.uniform(guard._min_interval, guard._max_interval)`. -/
def GuardData.Uniform (data : GuardData) (r : ℚ) : Prop :=
  r ∈ Set.uIcc data.minInterval data.maxInterval

/-- `_GlobalCellScheduler`: the cells of a guard, each at a time of its own. -/
def cellScheduler : Scheduler ℕ (ℕ × ℕ) GuardData where
  owner := Prod.fst
  items guard data := (List.range data.cells).map fun idx => (guard, idx)
  first data clock due := ∃ now r, now ≤ clock ∧ data.Uniform r ∧ due = now + r
  again data clock next := ∃ r, data.Uniform r ∧ next = .fixed (clock + r)
  pausable := false
  nodup_items guard _ :=
    List.nodup_range.map fun _ _ h => (Prod.mk.inj h).2
  owner_items guard _ item h := by
    obtain ⟨idx, -, rfl⟩ := List.mem_map.mp h
    rfl

/-- Who has the lock of an object. -/
inductive Holder
  | worker (w : ℕ)
  | caller

section Pool

variable {κ ι δ : Type}

structure State (κ ι δ : Type) where
  objects : κ → Option (Obj δ)
  locks : κ → Option Holder
  heap : List (Entry ι)
  seq : ℕ
  clock : ℚ
  workers : ℕ → Worker ι

def start : State κ ι δ := ⟨fun _ => none, fun _ => none, [], 0, 0, fun _ => .peeking⟩

inductive Event (κ ι δ : Type)
  | tick (d : ℚ)
  | register (k : κ) (data : δ)
  | pause (k : κ) (paused : Bool)
  | acquire (k : κ)
  | remove (k : κ)
  | release (k : κ)
  | worker (w : ℕ)
  | serve (w : ℕ) (item : ι)
  | served (w : ℕ) (item : ι)
  | raised (w : ℕ) (item : ι)

def State.setWorker (s : State κ ι δ) (w : ℕ) (worker : Worker ι) : State κ ι δ :=
  { s with workers := Function.update s.workers w worker }

@[simp] theorem State.setWorker_self (s : State κ ι δ) (w : ℕ) (worker : Worker ι) :
    (s.setWorker w worker).workers w = worker := Function.update_self ..

theorem State.setWorker_setWorker (s : State κ ι δ) (w : ℕ) (worker worker' : Worker ι) :
    (s.setWorker w worker).setWorker w worker' = s.setWorker w worker' := by
  rw [State.setWorker, State.setWorker, State.setWorker, Function.update_idem]

theorem State.setWorker_of_ne (s : State κ ι δ) {v w : ℕ} (h : v ≠ w) (worker : Worker ι) :
    (s.setWorker w worker).workers v = s.workers v := Function.update_of_ne h ..

/-- Workers past the count never leave the top of the loop. -/
def State.Idle (s : State κ ι δ) (workerCount : ℕ) : Prop :=
  ∀ w, workerCount ≤ w → s.workers w = .peeking

theorem State.Idle.lt {s : State κ ι δ} {workerCount : ℕ} (h : s.Idle workerCount) {w : ℕ}
    {worker : Worker ι} (hw : s.workers w = worker) (hne : worker ≠ .peeking) :
    w < workerCount := by
  by_contra hge
  exact hne (hw.symm.trans (h w (not_lt.mp hge)))

variable [DecidableEq κ]

def State.setLock (s : State κ ι δ) (k : κ) (holder : Option Holder) : State κ ι δ :=
  { s with locks := Function.update s.locks k holder }

def State.setObj (s : State κ ι δ) (k : κ) (obj : Obj δ) : State κ ι δ :=
  { s with objects := Function.update s.objects k (some obj) }

/-- One step of anyone.  `collapse` takes the lock of its object, sets `_removed`, and
releases the lock; other callers take it and set nothing. -/
inductive Step (sched : Scheduler κ ι δ) (workerCount : ℕ) :
    State κ ι δ → Event κ ι δ → State κ ι δ → Prop
  | tick {s : State κ ι δ} {d : ℚ} : 0 ≤ d →
      Step sched workerCount s (.tick d) { s with clock := s.clock + d }
  | register {s : State κ ι δ} {k : κ} {data : δ} {entries : List (ℚ × ι)} {seq : ℕ}
      {heap : List (Entry ι)} : s.objects k = none →
      entries.map Prod.snd = sched.items k data →
      (∀ entry ∈ entries, sched.first data s.clock entry.1) →
      pushAll entries s.seq s.heap = .ok (seq, heap) →
      Step sched workerCount s (.register k data)
        ({ s with heap := heap, seq := seq }.setObj k ⟨data, false, false⟩)
  | pause {s : State κ ι δ} {k : κ} {obj : Obj δ} {paused : Bool} : sched.pausable = true →
      s.objects k = some obj →
      Step sched workerCount s (.pause k paused) (s.setObj k { obj with paused := paused })
  | acquire {s : State κ ι δ} {k : κ} : s.locks k = none →
      Step sched workerCount s (.acquire k) (s.setLock k (some .caller))
  | remove {s : State κ ι δ} {k : κ} {obj : Obj δ} : s.locks k = some .caller →
      s.objects k = some obj →
      Step sched workerCount s (.remove k) (s.setObj k { obj with removed := true })
  | release {s : State κ ι δ} {k : κ} : s.locks k = some .caller →
      Step sched workerCount s (.release k) (s.setLock k none)
  -- a worker: the first entry, the wait, the second look
  | peek {s : State κ ι δ} {w : ℕ} : w < workerCount → s.workers w = .peeking →
      Step sched workerCount s (.worker w) (s.setWorker w (peek s.heap))
  | wait {s : State κ ι δ} {w : ℕ} {due : ℚ} : s.workers w = .waiting due →
      Step sched workerCount s (.worker w) (s.setWorker w (wait due s.clock))
  | pop {s : State κ ι δ} {w : ℕ} : s.workers w = .due →
      Step sched workerCount s (.worker w)
        ({ s with heap := (pop s.heap s.clock).1 }.setWorker w (pop s.heap s.clock).2)
  -- then the lock of the owner, under which its flags are read and the item is served
  | lock {s : State κ ι δ} {w : ℕ} {item : ι} : s.workers w = .popped item →
      s.locks (sched.owner item) = none →
      Step sched workerCount s (.worker w)
        ((s.setLock (sched.owner item) (some (.worker w))).setWorker w (.locked item))
  | gone {s : State κ ι δ} {w : ℕ} {item : ι} {obj : Obj δ} : s.workers w = .locked item →
      s.objects (sched.owner item) = some obj → obj.removed = true →
      Step sched workerCount s (.worker w)
        ((s.setLock (sched.owner item) none).setWorker w .peeking)
  | skip {s : State κ ι δ} {w : ℕ} {item : ι} {obj : Obj δ} : s.workers w = .locked item →
      s.objects (sched.owner item) = some obj → obj.removed = false → obj.paused = true →
      Step sched workerCount s (.worker w)
        ((s.setLock (sched.owner item) none).setWorker w (.pushing item (.after (1 / 1000))))
  | serve {s : State κ ι δ} {w : ℕ} {item : ι} {obj : Obj δ} : s.workers w = .locked item →
      s.objects (sched.owner item) = some obj → obj.removed = false → obj.paused = false →
      Step sched workerCount s (.serve w item) (s.setWorker w (.serving item))
  | served {s : State κ ι δ} {w : ℕ} {item : ι} {obj : Obj δ} {next : Next} :
      s.workers w = .serving item → s.objects (sched.owner item) = some obj →
      sched.again obj.data s.clock next →
      Step sched workerCount s (.served w item)
        ((s.setLock (sched.owner item) none).setWorker w (.pushing item next))
  | raised {s : State κ ι δ} {w : ℕ} {item : ι} : s.workers w = .serving item →
      Step sched workerCount s (.raised w item)
        ((s.setLock (sched.owner item) none).setWorker w .peeking)
  -- back under the lock of the heap; a comparison that raises ends the thread
  | push {s : State κ ι δ} {w : ℕ} {item : ι} {next : Next} {heap : List (Entry ι)} :
      s.workers w = .pushing item next →
      heappush ⟨next.due s.clock, s.seq + 1, item⟩ s.heap = .ok heap →
      Step sched workerCount s (.worker w)
        ({ s with heap := heap, seq := s.seq + 1 }.setWorker w .peeking)
  | crash {s : State κ ι δ} {w : ℕ} {item : ι} {next : Next} {e : PyError} :
      s.workers w = .pushing item next →
      heappush ⟨next.due s.clock, s.seq + 1, item⟩ s.heap = .error e →
      Step sched workerCount s (.worker w) (s.setWorker w .stopped)

end Pool

/-! ### Locks -/

section Locks

variable {κ ι δ : Type} {sched : Scheduler κ ι δ} {workerCount : ℕ} {s s' : State κ ι δ}
  {event : Event κ ι δ}

/-- The places in which a worker has the lock of its item's owner. -/
def Worker.Holding (item : ι) (worker : Worker ι) : Prop :=
  worker = .locked item ∨ worker = .serving item

/-- A worker that looks at an item or serves it has the lock of its owner, so nobody
removes the owner meanwhile. -/
structure Orderly (sched : Scheduler κ ι δ) (workerCount : ℕ) (s : State κ ι δ) : Prop where
  idle : s.Idle workerCount
  numbered : Numbered s.seq s.heap
  running : ∀ w, s.workers w ≠ .stopped
  holding : ∀ w item, (s.workers w).Holding item →
    s.locks (sched.owner item) = some (.worker w)
  serving : ∀ w item, s.workers w = .serving item →
    ∃ obj, s.objects (sched.owner item) = some obj ∧ obj.removed = false

theorem orderly_start (sched : Scheduler κ ι δ) (workerCount : ℕ) :
    Orderly sched workerCount start where
  idle _ _ := rfl
  numbered := ⟨List.nodup_nil, nofun⟩
  running := nofun
  holding _ _ h := h.elim nofun nofun
  serving := nofun

/-- A step of one worker. -/
theorem Orderly.move (h : Orderly sched workerCount s) {t : State κ ι δ} {w : ℕ}
    {worker : Worker ι} (hw : w < workerCount) (hworkers : t.workers = s.workers)
    (hobjects : t.objects = s.objects) (hnumbered : Numbered t.seq t.heap)
    (hrunning : worker ≠ .stopped)
    (hlocks : ∀ v k, v ≠ w → s.locks k = some (.worker v) → t.locks k = some (.worker v))
    (hholding : ∀ item, worker.Holding item → t.locks (sched.owner item) = some (.worker w))
    (hserving : ∀ item, worker = .serving item →
      ∃ obj, s.objects (sched.owner item) = some obj ∧ obj.removed = false) :
    Orderly sched workerCount (t.setWorker w worker) := by
  have hother : ∀ {v}, v ≠ w → (t.setWorker w worker).workers v = s.workers v := fun hv => by
    rw [State.setWorker_of_ne _ hv, hworkers]
  -- the worker that moves, and the others
  refine ⟨fun v hv => ?_, hnumbered, fun v => ?_, fun v item hv => ?_, fun v item hv => ?_⟩
  · rw [hother (by omega)]
    exact h.idle v hv
  · by_cases hvw : v = w
    · subst hvw
      rwa [State.setWorker_self]
    · rw [hother hvw]
      exact h.running v
  · by_cases hvw : v = w
    · subst hvw
      rw [State.setWorker_self] at hv
      exact hholding item hv
    · rw [hother hvw] at hv
      exact hlocks v _ hvw (h.holding v item hv)
  · show ∃ obj, t.objects (sched.owner item) = some obj ∧ obj.removed = false
    rw [hobjects]
    by_cases hvw : v = w
    · subst hvw
      rw [State.setWorker_self] at hv
      exact hserving item hv
    · rw [hother hvw] at hv
      exact h.serving v item hv

variable [DecidableEq κ]

/-- A step registers an object that was not there, sets a flag, or leaves the objects
alone. -/
theorem Step.objects (hstep : Step sched workerCount s event s') (k : κ) :
    s'.objects k = s.objects k ∨
    (∃ data, event = .register k data ∧ s.objects k = none ∧
      s'.objects k = some ⟨data, false, false⟩) ∨
    ∃ obj obj', s.objects k = some obj ∧ s'.objects k = some obj' ∧ obj'.data = obj.data ∧
      (obj'.removed = obj.removed ∨ obj'.removed = true ∧ s.locks k = some .caller) := by
  cases hstep with
  | @register l data _ _ _ hnew =>
    by_cases hk : k = l
    · subst hk
      exact Or.inr (Or.inl ⟨_, rfl, hnew, Function.update_self ..⟩)
    · exact Or.inl (Function.update_of_ne hk ..)
  | @pause l obj _ _ hobj =>
    by_cases hk : k = l
    · subst hk
      exact Or.inr (Or.inr ⟨obj, _, hobj, Function.update_self .., rfl, Or.inl rfl⟩)
    · exact Or.inl (Function.update_of_ne hk ..)
  | @remove l obj hlock hobj =>
    by_cases hk : k = l
    · subst hk
      exact Or.inr (Or.inr ⟨obj, _, hobj, Function.update_self .., rfl, Or.inr ⟨rfl, hlock⟩⟩)
    · exact Or.inl (Function.update_of_ne hk ..)
  | _ => exact Or.inl rfl

/-- An object that is there was there, with the same data, or has just been registered. -/
theorem Step.objects_inv (hstep : Step sched workerCount s event s') {k : κ} {obj' : Obj δ}
    (h : s'.objects k = some obj') (hlive : obj'.removed = false) :
    (∃ obj, s.objects k = some obj ∧ obj.data = obj'.data ∧ obj.removed = false) ∨
      event = .register k obj'.data ∧ s.objects k = none := by
  obtain hsame | ⟨data, hevent, hnone, hnew⟩ | ⟨obj, obj'', hobj, hobj', hdata, hremoved⟩ :=
    hstep.objects k
  · exact Or.inl ⟨obj', hsame.symm.trans h, rfl, hlive⟩
  · obtain rfl := Option.some.inj (hnew.symm.trans h)
    exact Or.inr ⟨hevent, hnone⟩
  · obtain rfl := Option.some.inj (hobj'.symm.trans h)
    refine Or.inl ⟨obj, hobj, hdata.symm, ?_⟩
    rcases hremoved with heq | ⟨htrue, -⟩
    · exact heq.symm.trans hlive
    · exact absurd (hlive.symm.trans htrue) nofun

/-- What is registered stays registered. -/
theorem Step.known (hstep : Step sched workerCount s event s') {item : ι}
    (h : ∃ obj, s.objects (sched.owner item) = some obj ∧
      item ∈ sched.items (sched.owner item) obj.data) :
    ∃ obj, s'.objects (sched.owner item) = some obj ∧
      item ∈ sched.items (sched.owner item) obj.data := by
  obtain ⟨obj, hobj, hitem⟩ := h
  obtain hsame | ⟨data, -, hnone, -⟩ | ⟨obj₀, obj', hobj₀, hobj', hdata, -⟩ :=
    hstep.objects (sched.owner item)
  · exact ⟨obj, hsame.trans hobj, hitem⟩
  · exact nomatch hnone.symm.trans hobj
  · obtain rfl := Option.some.inj (hobj₀.symm.trans hobj)
    exact ⟨obj', hobj', hdata ▸ hitem⟩

/-- As long as a worker has the lock, an object is not removed. -/
theorem Step.live (hstep : Step sched workerCount s event s') {k : κ} {w : ℕ}
    (hlock : s.locks k = some (.worker w)) (h : ∃ obj, s.objects k = some obj ∧ obj.removed = false) :
    ∃ obj, s'.objects k = some obj ∧ obj.removed = false := by
  obtain ⟨obj, hobj, hremoved⟩ := h
  obtain hsame | ⟨_, _, hnone, _⟩ | ⟨obj₀, obj', hobj₀, hobj', -, heq | ⟨-, hcaller⟩⟩ :=
    hstep.objects k
  · exact ⟨obj, hsame.trans hobj, hremoved⟩
  · exact nomatch hnone.symm.trans hobj
  · obtain rfl := Option.some.inj (hobj₀.symm.trans hobj)
    exact ⟨obj', hobj', heq.trans hremoved⟩
  · exact nomatch hlock.symm.trans hcaller

/-- An object that has been removed stays removed. -/
theorem Step.removed (hstep : Step sched workerCount s event s') {k : κ}
    (h : ∃ obj, s.objects k = some obj ∧ obj.removed = true) :
    ∃ obj, s'.objects k = some obj ∧ obj.removed = true := by
  obtain ⟨obj, hobj, hremoved⟩ := h
  obtain hsame | ⟨_, _, hnone, _⟩ | ⟨obj₀, obj', hobj₀, hobj', -, heq | ⟨htrue, -⟩⟩ :=
    hstep.objects k
  · exact ⟨obj, hsame.trans hobj, hremoved⟩
  · exact nomatch hnone.symm.trans hobj
  · obtain rfl := Option.some.inj (hobj₀.symm.trans hobj)
    exact ⟨obj', hobj', heq.trans hremoved⟩
  · exact ⟨obj', hobj', htrue⟩

/-- A worker gives its lock back. -/
theorem Orderly.unlock (h : Orderly sched workerCount s) {w : ℕ} {item : ι}
    (hat : (s.workers w).Holding item) {worker : Worker ι} (hrunning : worker ≠ .stopped)
    (hout : ∀ item, ¬ worker.Holding item) :
    Orderly sched workerCount ((s.setLock (sched.owner item) none).setWorker w worker) := by
  have hlock := h.holding w item hat
  have hw : w < workerCount := by
    rcases hat with hat | hat
    · exact h.idle.lt hat nofun
    · exact h.idle.lt hat nofun
  -- the lock that is given back is no other worker's
  refine h.move hw rfl rfl h.numbered hrunning (fun v k hv hk => ?_)
    (fun item hitem => absurd hitem (hout item))
    fun item hitem => absurd (Or.inr hitem) (hout item)
  refine (Function.update_of_ne ?_ ..).trans hk
  rintro rfl
  obtain ⟨rfl⟩ := Holder.worker.inj (Option.some.inj (hk.symm.trans hlock))
  exact hv rfl

/-- A step that no worker takes, and that leaves the locks of the workers alone. -/
theorem Orderly.away (h : Orderly sched workerCount s)
    (hstep : Step sched workerCount s event s') (hworkers : s'.workers = s.workers)
    (hnumbered : Numbered s'.seq s'.heap)
    (hlocks : ∀ v k, s.locks k = some (.worker v) → s'.locks k = some (.worker v)) :
    Orderly sched workerCount s' := by
  refine ⟨fun v hv => ?_, hnumbered, fun v => ?_, fun v item hv => ?_, fun v item hv => ?_⟩
  · rw [hworkers]
    exact h.idle v hv
  · rw [hworkers]
    exact h.running v
  · rw [hworkers] at hv
    exact hlocks v _ (h.holding v item hv)
  · rw [hworkers] at hv
    exact hstep.live (h.holding v item (Or.inr hv)) (h.serving v item hv)

theorem peek_cases (heap : List (Entry ι)) :
    peek heap = .peeking ∨ ∃ due, peek heap = .waiting due := by
  cases heap with
  | nil => exact Or.inl rfl
  | cons entry rest => exact Or.inr ⟨_, rfl⟩

theorem wait_cases (due clock : ℚ) :
    (wait due clock : Worker ι) = .peeking ∨ (wait due clock : Worker ι) = .due := by
  unfold wait
  split
  · exact Or.inl rfl
  · exact Or.inr rfl

theorem pop_cases (heap : List (Entry ι)) (clock : ℚ) :
    pop heap clock = (heap, .peeking) ∨
      ∃ entry rest, heap = entry :: rest ∧ pop heap clock = (rest, .popped entry.item) := by
  cases heap with
  | nil => exact Or.inl rfl
  | cons entry rest =>
    rw [pop]
    split
    · exact Or.inl rfl
    · exact Or.inr ⟨entry, rest, rfl, rfl⟩

theorem Numbered.tail {entry : Entry ι} {seq : ℕ} {rest : List (Entry ι)}
    (h : Numbered seq (entry :: rest)) : Numbered seq rest :=
  ⟨(List.nodup_cons.mp h.nodup).2, fun e he => h.le e (List.mem_cons_of_mem _ he)⟩

/-- **Locks.**  Every step keeps the workers in order. -/
theorem Orderly.step (h : Orderly sched workerCount s)
    (hstep : Step sched workerCount s event s') : Orderly sched workerCount s' := by
  -- a worker that neither takes a lock nor has one
  have hkeep : ∀ {w : ℕ} {worker : Worker ι} {heap : List (Entry ι)} {seq : ℕ}, w < workerCount →
      Numbered seq heap → worker ≠ .stopped → (∀ item, ¬ worker.Holding item) →
      Orderly sched workerCount ({ s with heap := heap, seq := seq }.setWorker w worker) := by
    intro w worker heap seq hw hnumbered hrunning hout
    exact h.move hw rfl rfl hnumbered hrunning (fun _ _ _ hk => hk)
      (fun item hitem => absurd hitem (hout item))
      fun item hitem => absurd (Or.inr hitem) (hout item)
  cases id hstep with
  | tick => exact h.away hstep rfl h.numbered fun _ _ hk => hk
  | register _ _ _ hpush => exact h.away hstep rfl (h.numbered.pushAll hpush) fun _ _ hk => hk
  | pause => exact h.away hstep rfl h.numbered fun _ _ hk => hk
  | remove => exact h.away hstep rfl h.numbered fun _ _ hk => hk
  | acquire hfree =>
    refine h.away hstep rfl h.numbered fun v k hk => (Function.update_of_ne ?_ ..).trans hk
    rintro rfl
    exact nomatch hfree.symm.trans hk
  | release hcaller =>
    refine h.away hstep rfl h.numbered fun v k hk => (Function.update_of_ne ?_ ..).trans hk
    rintro rfl
    exact nomatch hcaller.symm.trans hk
  | peek hw hat =>
    rcases peek_cases s.heap with hp | ⟨due, hp⟩
    · rw [hp]
      exact hkeep hw h.numbered nofun fun _ hh => hh.elim nofun nofun
    · rw [hp]
      exact hkeep hw h.numbered nofun fun _ hh => hh.elim nofun nofun
  | @wait w due hat =>
    rcases wait_cases (ι := ι) due s.clock with hp | hp
    · rw [hp]
      exact hkeep (h.idle.lt hat nofun) h.numbered nofun fun _ hh => hh.elim nofun nofun
    · rw [hp]
      exact hkeep (h.idle.lt hat nofun) h.numbered nofun fun _ hh => hh.elim nofun nofun
  | pop hat =>
    rcases pop_cases s.heap s.clock with hp | ⟨entry, rest, hheap, hp⟩
    · rw [hp]
      exact hkeep (h.idle.lt hat nofun) h.numbered nofun fun _ hh => hh.elim nofun nofun
    · rw [hp]
      exact hkeep (h.idle.lt hat nofun) (hheap ▸ h.numbered).tail nofun
        fun _ hh => hh.elim nofun nofun
  | lock hat hfree =>
    refine h.move (h.idle.lt hat nofun) rfl rfl h.numbered nofun (fun v k _ hk => ?_)
      (fun i hi => ?_) nofun
    · refine (Function.update_of_ne ?_ ..).trans hk
      rintro rfl
      exact nomatch hfree.symm.trans hk
    · rcases hi with hi | hi
      · obtain rfl := Worker.locked.inj hi
        exact Function.update_self ..
      · exact nomatch hi
  | gone hat => exact h.unlock (Or.inl hat) nofun fun _ hh => hh.elim nofun nofun
  | skip hat => exact h.unlock (Or.inl hat) nofun fun _ hh => hh.elim nofun nofun
  | @serve w item obj hat hobj hremoved =>
    refine h.move (h.idle.lt hat nofun) rfl rfl h.numbered nofun (fun _ _ _ hk => hk)
      (fun i hi => ?_) fun i hi => ?_
    · rcases hi with hi | hi
      · exact nomatch hi
      · obtain rfl := Worker.serving.inj hi
        exact h.holding w item (Or.inl hat)
    · obtain rfl := Worker.serving.inj hi
      exact ⟨obj, hobj, hremoved⟩
  | served hat => exact h.unlock (Or.inr hat) nofun fun _ hh => hh.elim nofun nofun
  | raised hat => exact h.unlock (Or.inr hat) nofun fun _ hh => hh.elim nofun nofun
  | push hat hpush =>
    exact hkeep (h.idle.lt hat nofun) (h.numbered.heappush hpush) nofun
      fun _ hh => hh.elim nofun nofun
  -- a fresh number can always be pushed
  | @crash w item next e hat hpush =>
    obtain ⟨heap', hok⟩ := h.numbered.heappush_ok (next.due s.clock) item
    exact nomatch hpush.symm.trans hok

end Locks

/-! ### Tokens -/

section Tokens

variable {κ ι δ : Type} [DecidableEq ι]

/-- The token of an item, if the worker has it. -/
def Worker.token (worker : Worker ι) (item : ι) : ℕ := if worker.item = some item then 1 else 0

/-- The tokens of an item: its entries in the heap, and the workers that have it. -/
def State.tokens (s : State κ ι δ) (workerCount : ℕ) (item : ι) : ℕ :=
  entriesOf s.heap item + ∑ w ∈ Finset.range workerCount, (s.workers w).token item

/-- What a worker gives up goes to the heap, and what it gains comes from there. -/
theorem tokens_setWorker {workerCount : ℕ} (s t : State κ ι δ) {w : ℕ} (hw : w < workerCount)
    (hworkers : t.workers = s.workers) (worker : Worker ι) (item : ι) :
    (t.setWorker w worker).tokens workerCount item + (s.workers w).token item
        + entriesOf s.heap item
      = s.tokens workerCount item + worker.token item + entriesOf t.heap item := by
  have hmem : w ∈ Finset.range workerCount := Finset.mem_range.mpr hw
  -- the other workers count for what they did
  have hrest : ∑ v ∈ (Finset.range workerCount).erase w,
        ((t.setWorker w worker).workers v).token item
      = ∑ v ∈ (Finset.range workerCount).erase w, (s.workers v).token item := by
    refine Finset.sum_congr rfl fun v hv => ?_
    rw [State.setWorker_of_ne _ (Finset.ne_of_mem_erase hv), hworkers]
  rw [State.tokens, State.tokens, ← Finset.add_sum_erase _ _ hmem, ← Finset.add_sum_erase _ _ hmem,
    hrest, State.setWorker_self]
  show entriesOf t.heap item + _ + _ + _ = _
  omega

theorem tokens_keep {workerCount : ℕ} {s t : State κ ι δ} {w : ℕ} {worker : Worker ι} {item : ι}
    (hw : w < workerCount) (hworkers : t.workers = s.workers)
    (h : (s.workers w).token item + entriesOf s.heap item
      = worker.token item + entriesOf t.heap item) :
    (t.setWorker w worker).tokens workerCount item = s.tokens workerCount item := by
  have := tokens_setWorker s t hw hworkers worker item
  omega

/-- Popping moves a token from the heap to the worker. -/
theorem token_pop (heap : List (Entry ι)) (clock : ℚ) (item : ι) :
    (pop heap clock).2.token item + entriesOf (pop heap clock).1 item = entriesOf heap item := by
  cases heap with
  | nil => rfl
  | cons entry rest =>
    rw [pop]
    split
    · exact Nat.zero_add _
    · simp [entriesOf, Worker.token, Worker.item, List.countP_cons, add_comm]

theorem token_peek (heap : List (Entry ι)) (item : ι) : (peek heap).token item = 0 := by
  cases heap <;> rfl

theorem token_wait (due clock : ℚ) (item : ι) : (wait due clock : Worker ι).token item = 0 := by
  unfold wait
  split <;> rfl

/-- The invariant.  Tokens belong to items of registered owners; an item never has two,
and it has one unless its owner has been removed or a service of it has raised. -/
structure Inv (sched : Scheduler κ ι δ) (workerCount : ℕ) (events : List (Event κ ι δ))
    (s : State κ ι δ) : Prop where
  orderly : Orderly sched workerCount s
  known : ∀ item, 0 < s.tokens workerCount item → ∃ obj,
    s.objects (sched.owner item) = some obj ∧ item ∈ sched.items (sched.owner item) obj.data
  single : ∀ item, s.tokens workerCount item ≤ 1
  kept : ∀ k obj item, s.objects k = some obj → item ∈ sched.items k obj.data →
    obj.removed = false → (∀ w, .raised w item ∉ events) → s.tokens workerCount item = 1

theorem inv_start (sched : Scheduler κ ι δ) (workerCount : ℕ) :
    Inv sched workerCount [] start := by
  have hnone : ∀ item, (start : State κ ι δ).tokens workerCount item = 0 := fun item =>
    (Nat.zero_add _).trans (Finset.sum_eq_zero fun _ _ => rfl)
  refine ⟨orderly_start sched workerCount, fun item h => ?_, fun item => ?_, nofun⟩
  · exact absurd h (by rw [hnone]; exact lt_irrefl 0)
  · rw [hnone]
    exact Nat.zero_le 1

/-- No two workers have the same item. -/
theorem Inv.eq_of_item {sched : Scheduler κ ι δ} {workerCount : ℕ} {s : State κ ι δ}
    {events : List (Event κ ι δ)} (h : Inv sched workerCount events s) {v w : ℕ} {item : ι}
    (hv : (s.workers v).item = some item) (hw : (s.workers w).item = some item) : v = w := by
  by_contra hne
  have hin : ∀ {u}, (s.workers u).item = some item → u ∈ Finset.range workerCount := by
    intro u hu
    refine Finset.mem_range.mpr (h.orderly.idle.lt rfl fun hpeeking => ?_)
    rw [hpeeking] at hu
    exact nomatch hu
  have htoken : ∀ {u}, (s.workers u).item = some item → (s.workers u).token item = 1 :=
    fun hu => if_pos hu
  -- two workers with the item would be two tokens
  have hpair := Finset.add_le_sum (fun u _ => Nat.zero_le ((s.workers u).token item)) (hin hv)
    (hin hw) hne
  have hsingle := h.single item
  rw [htoken hv, htoken hw] at hpair
  rw [State.tokens] at hsingle
  omega

theorem count_items (sched : Scheduler κ ι δ) (k : κ) (data : δ) (item : ι) :
    (sched.items k data).count item = if item ∈ sched.items k data then 1 else 0 :=
  (sched.nodup_items k data).count

variable [DecidableEq κ]

variable {sched : Scheduler κ ι δ} {workerCount : ℕ} {s s' : State κ ι δ}
  {events : List (Event κ ι δ)} {event : Event κ ι δ}

/-- **What a step does to the tokens.**  It leaves them alone, or registers an owner, or
a worker drops its item, because the owner has been removed or the service has raised. -/
theorem Step.tokens (hstep : Step sched workerCount s event s') (hidle : s.Idle workerCount)
    (hnumbered : Numbered s.seq s.heap) :
    (∃ k data, event = .register k data ∧ s.objects k = none ∧
      s'.objects k = some ⟨data, false, false⟩ ∧ ∀ item,
      s'.tokens workerCount item = s.tokens workerCount item + (sched.items k data).count item) ∨
    (∀ k data, event ≠ .register k data) ∧
      ((∀ item, s'.tokens workerCount item = s.tokens workerCount item) ∨
      ∃ dropped, ((∃ obj, s.objects (sched.owner dropped) = some obj ∧ obj.removed = true) ∨
          ∃ w, event = .raised w dropped) ∧ ∀ item, s.tokens workerCount item
            = s'.tokens workerCount item + if dropped = item then 1 else 0) := by
  -- a worker that goes back to the top without pushing its item
  have hdrop : ∀ {w dropped worker}, s.workers w = worker → worker.item = some dropped →
      worker ≠ .peeking → ∀ item, s.tokens workerCount item
        = ((s.setLock (sched.owner dropped) none).setWorker w .peeking).tokens workerCount item
          + if dropped = item then 1 else 0 := by
    intro w dropped worker hat hitem hne item
    have htokens := tokens_setWorker s (s.setLock (sched.owner dropped) none)
      (hidle.lt hat hne) rfl .peeking item
    have htoken : worker.token item = if dropped = item then 1 else 0 := by
      simp [Worker.token, hitem]
    have hpeeking : (Worker.peeking : Worker ι).token item = 0 := rfl
    have hheap : (s.setLock (sched.owner dropped) none).heap = s.heap := rfl
    rw [hat, hheap] at htokens
    omega
  cases hstep with
  -- every new item gets one entry
  | register hnew hitems _ hpush =>
    refine Or.inl ⟨_, _, rfl, hnew, Function.update_self .., fun item => ?_⟩
    have hcount := entriesOf_pushAll hpush item
    rw [hitems] at hcount
    rw [State.tokens, State.tokens, add_right_comm, ← hcount]
    rfl
  | peek hw hat =>
    refine Or.inr ⟨nofun, Or.inl fun item => tokens_keep hw rfl ?_⟩
    rw [hat, token_peek]
    rfl
  | wait hat =>
    refine Or.inr ⟨nofun, Or.inl fun item => tokens_keep (hidle.lt hat nofun) rfl ?_⟩
    rw [hat, token_wait]
    rfl
  | pop hat =>
    refine Or.inr ⟨nofun, Or.inl fun item => tokens_keep (hidle.lt hat nofun) rfl ?_⟩
    rw [hat]
    exact (Nat.zero_add _).trans (token_pop ..).symm
  | lock hat _ =>
    refine Or.inr ⟨nofun, Or.inl fun item => tokens_keep (hidle.lt hat nofun) rfl ?_⟩
    rw [hat]
    rfl
  | gone hat hobj hremoved =>
    exact Or.inr ⟨nofun, Or.inr ⟨_, Or.inl ⟨_, hobj, hremoved⟩, hdrop hat rfl nofun⟩⟩
  | skip hat =>
    refine Or.inr ⟨nofun, Or.inl fun item => tokens_keep (hidle.lt hat nofun) rfl ?_⟩
    rw [hat]
    rfl
  | serve hat =>
    refine Or.inr ⟨nofun, Or.inl fun item => tokens_keep (hidle.lt hat nofun) rfl ?_⟩
    rw [hat]
    rfl
  | served hat =>
    refine Or.inr ⟨nofun, Or.inl fun item => tokens_keep (hidle.lt hat nofun) rfl ?_⟩
    rw [hat]
    rfl
  | raised hat => exact Or.inr ⟨nofun, Or.inr ⟨_, Or.inr ⟨_, rfl⟩, hdrop hat rfl nofun⟩⟩
  | push hat hpush =>
    refine Or.inr ⟨nofun, Or.inl fun item => tokens_keep (hidle.lt hat nofun) rfl ?_⟩
    have hcount := entriesOf_heappush hpush item
    rw [hat]
    show _ + entriesOf s.heap item = _ + entriesOf _ item
    rw [hcount]
    simp [Worker.token, Worker.item, add_comm]
  | @crash w item next e hat hpush =>
    obtain ⟨heap', hok⟩ := hnumbered.heappush_ok (next.due s.clock) item
    exact nomatch hpush.symm.trans hok
  | _ => exact Or.inr ⟨nofun, Or.inl fun _ => rfl⟩

theorem Inv.step (h : Inv sched workerCount events s)
    (hstep : Step sched workerCount s event s') :
    Inv sched workerCount (events ++ [event]) s' := by
  have horderly := h.orderly.step hstep
  have hearlier : ∀ {item}, (∀ w, .raised w item ∉ events ++ [event]) →
      ∀ w, .raised w item ∉ events :=
    fun hno w hw => hno w (List.mem_append_left _ hw)
  -- an item of an object that was there
  have hold : ∀ {k obj' item}, s'.objects k = some obj' → item ∈ sched.items k obj'.data →
      obj'.removed = false → (∀ w, .raised w item ∉ events ++ [event]) →
      (∃ obj, s.objects k = some obj ∧ obj.data = obj'.data ∧ obj.removed = false) →
      s.tokens workerCount item = 1 := by
    rintro k obj' item - hitem - hno ⟨obj, hobj, hdata, hlive⟩
    exact h.kept k obj item hobj (hdata ▸ hitem) hlive (hearlier hno)
  obtain ⟨l, data, rfl, hnone, hnew, hadd⟩ | ⟨hevent, hsame | ⟨dropped, hwhy, hdrop⟩⟩ :=
    hstep.tokens h.orderly.idle h.orderly.numbered
  · -- the items of the new object have no token yet
    have hfresh : ∀ item ∈ sched.items l data, s.tokens workerCount item = 0 := by
      intro item hitem
      by_contra hpos
      obtain ⟨obj, hobj, -⟩ := h.known item (Nat.pos_of_ne_zero hpos)
      rw [sched.owner_items l data item hitem, hnone] at hobj
      exact nomatch hobj
    have hmine : ∀ item ∈ sched.items l data, s'.tokens workerCount item = 1 := by
      intro item hitem
      rw [hadd, hfresh item hitem, count_items, if_pos hitem]
    have hother : ∀ item, item ∉ sched.items l data →
        s'.tokens workerCount item = s.tokens workerCount item := by
      intro item hitem
      rw [hadd, count_items, if_neg hitem]
      rfl
    refine ⟨horderly, fun item hpos => ?_, fun item => ?_, fun k obj' item hobj hitem hlive hno => ?_⟩
    · by_cases hitem : item ∈ sched.items l data
      · rw [sched.owner_items l data item hitem]
        exact ⟨_, hnew, hitem⟩
      · exact hstep.known (h.known item (hother item hitem ▸ hpos))
    · by_cases hitem : item ∈ sched.items l data
      · exact (hmine item hitem).le
      · exact hother item hitem ▸ h.single item
    · rcases hstep.objects_inv hobj hlive with hbefore | ⟨hregister, -⟩
      · rw [hother item ?_]
        · exact hold hobj hitem hlive hno hbefore
        · intro hitem'
          obtain ⟨obj, hbefore, -⟩ := hbefore
          have hkl : k = l := (sched.owner_items k _ item hitem).symm.trans
            (sched.owner_items l data item hitem')
          rw [hkl, hnone] at hbefore
          exact nomatch hbefore
      · obtain ⟨rfl, rfl⟩ := Event.register.inj hregister
        exact hmine item hitem
  -- no token is made or lost
  · refine ⟨horderly, fun item hpos => hstep.known (h.known item (hsame item ▸ hpos)),
      fun item => hsame item ▸ h.single item, fun k obj' item hobj hitem hlive hno => ?_⟩
    rw [hsame]
    rcases hstep.objects_inv hobj hlive with hbefore | ⟨hregister, -⟩
    · exact hold hobj hitem hlive hno hbefore
    · exact absurd hregister (hevent k obj'.data)
  -- a token is dropped, and its item is one of those that need not have any more
  · refine ⟨horderly, fun item hpos => hstep.known (h.known item ?_), fun item => ?_,
      fun k obj' item hobj hitem hlive hno => ?_⟩
    · have := hdrop item
      omega
    · have := hdrop item
      have := h.single item
      omega
    · rcases hstep.objects_inv hobj hlive with hbefore | ⟨hregister, -⟩
      · have hone := hold hobj hitem hlive hno hbefore
        obtain ⟨obj, hbefore, hdata, hlive'⟩ := hbefore
        have hne : dropped ≠ item := by
          rintro rfl
          rcases hwhy with ⟨obj₁, hobj₁, hremoved⟩ | ⟨w, rfl⟩
          · rw [sched.owner_items k obj'.data dropped hitem] at hobj₁
            obtain rfl := Option.some.inj (hobj₁.symm.trans hbefore)
            exact absurd (hlive'.symm.trans hremoved) nofun
          · exact hno w (List.mem_append_right _ List.mem_cons_self)
        have hsame := hdrop item
        rw [if_neg hne] at hsame
        exact hsame.symm.trans hone
      · exact absurd hregister (hevent k obj'.data)

theorem inv_of_run (hrun : Run (Step sched workerCount) start events s) :
    Inv sched workerCount events s :=
  hrun.history (inv_start sched workerCount) Inv.step

/-- **Removal.**  Nobody serves an object that has been removed, then or later. -/
theorem Inv.not_served (h : Inv sched workerCount events s) {k : κ}
    (hremoved : ∃ obj, s.objects k = some obj ∧ obj.removed = true)
    {later : List (Event κ ι δ)} {t : State κ ι δ} (hrun : Run (Step sched workerCount) s later t)
    {item : ι} (hk : sched.owner item = k) :
    (∀ w, t.workers w ≠ .serving item) ∧ ∀ w, .serve w item ∉ later := by
  subst hk
  -- once set, the flag stays, and a worker serves only after it has read it as clear
  have hlater := hrun.history (I := fun later t => Orderly sched workerCount t ∧
      (∃ obj, t.objects (sched.owner item) = some obj ∧ obj.removed = true) ∧
      ∀ w, .serve w item ∉ later) ⟨h.orderly, hremoved, fun _ => List.not_mem_nil⟩ <| by
    rintro later t event u ⟨horderly, hremoved, hnot⟩ hstep
    refine ⟨horderly.step hstep, hstep.removed hremoved, fun w hw => ?_⟩
    rcases List.mem_append.mp hw with hw | hw
    · exact hnot w hw
    · obtain rfl := List.mem_singleton.mp hw
      obtain ⟨obj, hobj, htrue⟩ := hremoved
      cases hstep with
      | serve _ hobj' hfalse =>
        obtain rfl := Option.some.inj (hobj'.symm.trans hobj)
        exact absurd (hfalse.symm.trans htrue) nofun
  obtain ⟨horderly, ⟨obj, hobj, htrue⟩, hnot⟩ := hlater
  refine ⟨fun w hw => ?_, hnot⟩
  obtain ⟨obj', hobj', hfalse⟩ := horderly.serving w item hw
  obtain rfl := Option.some.inj (hobj'.symm.trans hobj)
  exact absurd (hfalse.symm.trans htrue) nofun

/-- In every run of the pool: an item whose owner has not been removed, and whose service
has never raised, has one token, and no item is with two workers; no two entries have the
same number, a new one can always be pushed, and no worker has died of a comparison; and
the items of an owner that has been removed are never served again. -/
def TokenSafe (sched : Scheduler κ ι δ) : Prop :=
  ∀ (workerCount : ℕ) (events : List (Event κ ι δ)) (s : State κ ι δ),
    Run (Step sched workerCount) start events s →
    (∀ k obj item, s.objects k = some obj → item ∈ sched.items k obj.data →
      obj.removed = false → (∀ w, .raised w item ∉ events) → s.tokens workerCount item = 1) ∧
    (∀ v w item, (s.workers v).item = some item → (s.workers w).item = some item → v = w) ∧
    (s.heap.map Entry.seq).Nodup ∧
    (∀ due item, ∃ heap, heappush ⟨due, s.seq + 1, item⟩ s.heap = .ok heap) ∧
    (∀ w, s.workers w ≠ .stopped) ∧
    ∀ k obj, s.objects k = some obj → obj.removed = true →
      ∀ later t, Run (Step sched workerCount) s later t → ∀ item, sched.owner item = k →
        (∀ w, t.workers w ≠ .serving item) ∧ ∀ w, .serve w item ∉ later

/-- **Tokens.**  Every pool of this kind is safe. -/
theorem tokenSafe (sched : Scheduler κ ι δ) : TokenSafe sched := by
  intro workerCount events s hrun
  have h := inv_of_run hrun
  exact ⟨h.kept, fun v w item => h.eq_of_item, h.orderly.numbered.nodup,
    h.orderly.numbered.heappush_ok, h.orderly.running,
    fun k obj hobj hremoved later t hlater item hk =>
      h.not_served ⟨obj, hobj, hremoved⟩ hlater hk⟩

end Tokens

/-- **The pools of boxes and of cells.** -/
theorem fallScheduler_cellScheduler_tokenSafe :
    TokenSafe fallScheduler ∧ TokenSafe cellScheduler :=
  ⟨tokenSafe fallScheduler, tokenSafe cellScheduler⟩

end WorkerPool
