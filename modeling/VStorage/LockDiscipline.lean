/-
The locks of the storage, and who takes which inside which.

A hop holds the lock of its box and takes others inside it: those of the guards, that of
the trust group, that of the cell scheduler when it registers a new guard, and those of the
region table when it reports one.  Registering regions holds the lock of the count and takes
that of the array.  Nothing else is nested, so three ranks are enough: the store, the keys,
the boxes and the fall scheduler; the guards, the cell scheduler, the trust group and the
count; the array.

* `operation_ordered`: every operation keeps to the ranks;
* `waits_acyclic`: whatever any number of threads do, no lock and no thread waits for itself.
-/
import Mathlib
import VStorage.LockOrder

open LockOrder (Code Fits Step Blocks WaitsFor)

namespace LockDiscipline

/-! ### The locks -/

/-- The locks in a process; `vs` is a storage, with its trust group and its watchdog. -/
inductive Lock
  | store (vs : ℕ)
  | key (vs : ℕ)
  | box (b : ℕ)
  | fallScheduler
  | guard (g : ℕ)
  | cellScheduler
  | trustGroup (vs : ℕ)
  /-- `_region_count.get_lock()` -/
  | regionCount (vs : ℕ)
  /-- The lock of `_regions`. -/
  | regionArray (vs : ℕ)

/-- Locks of shared values are `RLock`s, the others are `threading.Lock`s. -/
def reentrant : Set Lock
  | .regionCount _ | .regionArray _ => True
  | _ => False

def rank : Lock → ℕ
  | .store _ | .key _ | .box _ | .fallScheduler => 0
  | .guard _ | .cellScheduler | .trustGroup _ | .regionCount _ => 1
  | .regionArray _ => 2

/-- `with l:`, and nothing in it that takes a lock. -/
def only (l : Lock) : Code Lock := .within l .skip

/-! ### The guards and the schedulers -/

def SplitKeyGuard.reconstruct (g : ℕ) : Code Lock := only (.guard g)

def SplitKeyGuard.collapse (g : ℕ) : Code Lock := only (.guard g)

/-- `_ensure_started`, of either scheduler. -/
def ensureStarted (scheduler : Lock) : Code Lock := .choice .skip (only scheduler)

/-- `register`. -/
def register (scheduler : Lock) : Code Lock := .seq (ensureStarted scheduler) (only scheduler)

/-- `_run`: look at the first entry, take it if it is due, service it, and put it back. -/
def run (scheduler : Lock) (service : Code Lock) : Code Lock :=
  .star (.seq (only scheduler) (.choice .skip (.seq (only scheduler) (.choice .skip
    (.seq service (.choice .skip (only scheduler)))))))

/-- `_GlobalCellScheduler._run`; a bounce is made under the lock of the guard. -/
def cellSchedulerRun : Code Lock := run .cellScheduler (.any fun g => only (.guard g))

/-- `SplitKeyGuard.__init__`. -/
def SplitKeyGuard.init : Code Lock := register .cellScheduler

/-! ### The trust group and the region table -/

/-- `fetch`, of either kind of group; the holders are asked under the lock, and answer or fail. -/
def fetch (vs : ℕ) : Code Lock := only (.trustGroup vs)

def ping (vs : ℕ) : Code Lock := only (.trustGroup vs)

/-- `_monitor`. -/
def monitor (vs : ℕ) : Code Lock := .star (.star (.choice .skip (ping vs)))

/-- `_region_count.value`, read or written. -/
def regionCountValue (vs : ℕ) : Code Lock := only (.regionCount vs)

/-- `_regions[i]`, read or written. -/
def regionsItem (vs : ℕ) : Code Lock := only (.regionArray vs)

/-- The loop over regions, two items each. -/
def regionsLoop (vs : ℕ) : Code Lock := .star (.seq (regionsItem vs) (regionsItem vs))

/-- `add_regions`. -/
def addRegions (vs : ℕ) : Code Lock :=
  .within (.regionCount vs) (.seq (regionCountValue vs) (.choice .skip
    (.seq (regionsLoop vs) (regionCountValue vs))))

/-- `reserve_slot`. -/
def reserveSlot (vs : ℕ) : Code Lock :=
  .within (.regionCount vs) (.seq (regionCountValue vs) (.choice .skip (regionCountValue vs)))

/-- `update_slot`. -/
def updateSlot (vs : ℕ) : Code Lock := regionsLoop vs

/-- `_watch_process`, which shares the table from its own process. -/
def watchProcess (vs : ℕ) : Code Lock :=
  .choice .skip (.seq (regionCountValue vs) (regionsLoop vs))

/-- `_on_new_guard`. -/
def onNewGuard (vs : ℕ) : Code Lock :=
  .seq (.choice .skip (reserveSlot vs)) (.choice .skip (updateSlot vs))

/-! ### The boxes -/

/-- `_next_key`. -/
def nextKey (vs : ℕ) : Code Lock := .choice .skip (fetch vs)

/-- The two keys that a box reads, from whatever guards it has. -/
def readKeys : Code Lock := .seq (.any SplitKeyGuard.reconstruct) (.any SplitKeyGuard.reconstruct)

/-- `_do_one_hop_locked`. -/
def doOneHopLocked (vs : ℕ) : Code Lock :=
  .seq readKeys (.choice .skip (.seq (nextKey vs) (.seq SplitKeyGuard.init
    (.seq (.choice .skip (onNewGuard vs)) (.any SplitKeyGuard.collapse)))))

/-- What `_GlobalFallScheduler._run` does with a box that is due. -/
def serviceBox (vs b : ℕ) : Code Lock :=
  .within (.box b) (.choice .skip (doOneHopLocked vs))

/-- `_GlobalFallScheduler._run`. -/
def fallSchedulerRun : Code Lock :=
  run .fallScheduler (.any fun vs => .any fun b => serviceBox vs b)

/-- `__init__` and `from_file`. -/
def ChunkedSecureBox.init (vs : ℕ) : Code Lock :=
  .seq SplitKeyGuard.init (.seq (nextKey vs) (.seq SplitKeyGuard.init (register .fallScheduler)))

def snapshot (b : ℕ) : Code Lock := .within (.box b) readKeys

/-- `stream_to`; `write` takes no lock. -/
def streamTo (b : ℕ) : Code Lock := .within (.box b) (.seq readKeys (.star .skip))

/-- `stream_to_wrapped`; `write` takes no lock. -/
def streamToWrapped (b : ℕ) : Code Lock := .within (.box b) (.seq readKeys (.star .skip))

def ChunkedSecureBox.collapse (b : ℕ) : Code Lock :=
  .seq (only (.box b)) (.seq (.any SplitKeyGuard.collapse) (.any SplitKeyGuard.collapse))

/-! ### The storage -/

/-- `_hold`, which `save` ends with. -/
def hold (vs : ℕ) : Code Lock :=
  .seq (ChunkedSecureBox.init vs) (.seq (ChunkedSecureBox.init vs) (.seq (ChunkedSecureBox.init vs)
    (.seq (.choice .skip (addRegions vs)) (only (.store vs)))))

/-- `retrieve_to_destination` to a destination that is not trusted. -/
def retrieveToDestination (vs b : ℕ) : Code Lock :=
  .seq (streamToWrapped b) (.choice .skip (only (.key vs)))

def redeemKey (vs : ℕ) : Code Lock := only (.key vs)

def forget (vs : ℕ) : Code Lock :=
  .seq (only (.store vs)) (.choice .skip (.seq (.any ChunkedSecureBox.collapse)
    (.seq (.any ChunkedSecureBox.collapse) (.any ChunkedSecureBox.collapse))))

/-- What the threads run, and the process of a watchdog. -/
inductive Operation : Code Lock → Prop
  | save (vs : ℕ) : Operation (hold vs)
  | snapshot (b : ℕ) : Operation (snapshot b)
  | streamTo (b : ℕ) : Operation (streamTo b)
  | streamToWrapped (b : ℕ) : Operation (streamToWrapped b)
  | retrieveToDestination (vs b : ℕ) : Operation (retrieveToDestination vs b)
  | forget (vs : ℕ) : Operation (forget vs)
  | redeemKey (vs : ℕ) : Operation (redeemKey vs)
  | fallSchedulerRun : Operation fallSchedulerRun
  | cellSchedulerRun : Operation cellSchedulerRun
  | addRegions (vs : ℕ) : Operation (addRegions vs)
  | reserveSlot (vs : ℕ) : Operation (reserveSlot vs)
  | updateSlot (vs : ℕ) : Operation (updateSlot vs)
  | fetch (vs : ℕ) : Operation (fetch vs)
  | monitor (vs : ℕ) : Operation (monitor vs)
  | watchProcess (vs : ℕ) : Operation (watchProcess vs)

/-- The operations, as the set of what a thread may start. -/
def operations : Set (Code Lock) := {c | Operation c}

/-! ### The order -/

/-- Every lock of a list has a rank below `n`. -/
def Below (n : ℕ) (locks : List Lock) : Prop := ∀ l ∈ locks, rank l < n

variable {locks : List Lock}

theorem below_nil (n : ℕ) : Below n [] := fun _ h => nomatch h

theorem Below.mono {m n : ℕ} (h : Below m locks) (hle : m ≤ n) : Below n locks :=
  fun l hl => lt_of_lt_of_le (h l hl) hle

theorem Below.cons {n : ℕ} (h : Below n locks) {l : Lock} (hl : rank l < n) :
    Below n (l :: locks) :=
  fun l' hl' => (List.mem_cons.mp hl').elim (fun heq => heq ▸ hl) (h l')

theorem Below.fits {l : Lock} (h : Below (rank l) locks) : Fits rank reentrant locks l :=
  fun l' hl' => Or.inl (h l' hl')

theorem ordered_only {l : Lock} (h : Below (rank l) locks) :
    (only l).Ordered rank reentrant locks :=
  ⟨h.fits, trivial⟩

theorem ordered_register {scheduler : Lock} (h : Below (rank scheduler) locks) :
    (register scheduler).Ordered rank reentrant locks :=
  ⟨⟨trivial, ordered_only h⟩, ordered_only h⟩

/-- A worker holds nothing when it services an entry. -/
theorem ordered_run (scheduler : Lock) {service : Code Lock}
    (h : service.Ordered rank reentrant []) :
    (run scheduler service).Ordered rank reentrant [] := by
  have hlock := ordered_only (below_nil (rank scheduler))
  exact ⟨hlock, trivial, hlock, trivial, h, trivial, hlock⟩

theorem ordered_regionsLoop (vs : ℕ) (h : Below 2 locks) :
    (regionsLoop vs).Ordered rank reentrant locks :=
  ⟨ordered_only h, ordered_only h⟩

/-- The count is read and written by whoever holds its lock already. -/
theorem ordered_regionCountValue (vs : ℕ) (h : Below 1 locks) :
    (regionCountValue vs).Ordered rank reentrant (.regionCount vs :: locks) := by
  refine ⟨fun l hl => ?_, trivial⟩
  rcases List.mem_cons.mp hl with rfl | hl
  · exact Or.inr ⟨rfl, trivial⟩
  · exact Or.inl (h l hl)

theorem ordered_addRegions (vs : ℕ) (h : Below 1 locks) :
    (addRegions vs).Ordered rank reentrant locks := by
  have hvalue := ordered_regionCountValue vs h
  have hinside : Below 2 (.regionCount vs :: locks) :=
    (h.mono one_le_two).cons (show 1 < 2 from one_lt_two)
  have hfits : Fits rank reentrant locks (.regionCount vs) := fun l hl => Or.inl (h l hl)
  exact ⟨hfits, hvalue, trivial, ordered_regionsLoop vs hinside, hvalue⟩

theorem ordered_reserveSlot (vs : ℕ) (h : Below 1 locks) :
    (reserveSlot vs).Ordered rank reentrant locks := by
  have hvalue := ordered_regionCountValue vs h
  have hfits : Fits rank reentrant locks (.regionCount vs) := fun l hl => Or.inl (h l hl)
  exact ⟨hfits, hvalue, trivial, hvalue⟩

theorem ordered_onNewGuard (vs : ℕ) (h : Below 1 locks) :
    (onNewGuard vs).Ordered rank reentrant locks :=
  ⟨⟨trivial, ordered_reserveSlot vs h⟩, trivial, ordered_regionsLoop vs (h.mono one_le_two)⟩

theorem ordered_nextKey (vs : ℕ) (h : Below 1 locks) : (nextKey vs).Ordered rank reentrant locks :=
  ⟨trivial, ordered_only h⟩

theorem ordered_readKeys (h : Below 1 locks) : readKeys.Ordered rank reentrant locks :=
  ⟨fun _ => ordered_only h, fun _ => ordered_only h⟩

/-- **A hop.**  All that is taken inside the lock of the box ranks above it. -/
theorem ordered_doOneHopLocked (vs : ℕ) (h : Below 1 locks) :
    (doOneHopLocked vs).Ordered rank reentrant locks := by
  refine ⟨ordered_readKeys h, trivial, ordered_nextKey vs h, ordered_register h, ?_, ?_⟩
  · exact ⟨trivial, ordered_onNewGuard vs h⟩
  · exact fun _ => ordered_only h

theorem below_box (b : ℕ) : Below 1 [.box b] := (below_nil 1).cons Nat.zero_lt_one

theorem ordered_boxInit (vs : ℕ) :
    (ChunkedSecureBox.init vs).Ordered rank reentrant [] :=
  ⟨ordered_register (below_nil _), ordered_nextKey vs (below_nil _), ordered_register (below_nil _),
    ordered_register (below_nil _)⟩

theorem ordered_boxCollapse (b : ℕ) : (ChunkedSecureBox.collapse b).Ordered rank reentrant [] :=
  ⟨ordered_only (below_nil _), fun _ => ordered_only (below_nil _),
    fun _ => ordered_only (below_nil _)⟩

/-- **Operations.**  They start with no lock, and every lock they take fits those they hold. -/
theorem operation_ordered {c : Code Lock} (h : Operation c) : c.Ordered rank reentrant [] := by
  cases h with
  | save vs =>
    have hinit := ordered_boxInit vs
    exact ⟨hinit, hinit, hinit, ⟨trivial, ordered_addRegions vs (below_nil _)⟩,
      ordered_only (below_nil _)⟩
  | snapshot b => exact ⟨(below_nil _).fits, ordered_readKeys (below_box b)⟩
  | streamTo b => exact ⟨(below_nil _).fits, ordered_readKeys (below_box b), trivial⟩
  | streamToWrapped b => exact ⟨(below_nil _).fits, ordered_readKeys (below_box b), trivial⟩
  | retrieveToDestination vs b =>
    refine ⟨⟨(below_nil _).fits, ordered_readKeys (below_box b), trivial⟩, trivial, ?_⟩
    exact ordered_only (below_nil _)
  | forget vs =>
    exact ⟨ordered_only (below_nil _), trivial, ordered_boxCollapse, ordered_boxCollapse,
      ordered_boxCollapse⟩
  | redeemKey vs => exact ordered_only (below_nil _)
  | fallSchedulerRun =>
    refine ordered_run _ fun vs b => ⟨(below_nil _).fits, trivial, ?_⟩
    exact ordered_doOneHopLocked vs (below_box b)
  | cellSchedulerRun => exact ordered_run _ fun g => ordered_only (below_nil _)
  | addRegions vs => exact ordered_addRegions vs (below_nil _)
  | reserveSlot vs => exact ordered_reserveSlot vs (below_nil _)
  | updateSlot vs => exact ordered_regionsLoop vs (below_nil _)
  | fetch vs => exact ordered_only (below_nil _)
  | monitor vs => exact ⟨trivial, ordered_only (below_nil _)⟩
  | watchProcess vs =>
    exact ⟨trivial, ordered_only (below_nil _), ordered_regionsLoop vs (below_nil _)⟩

theorem rank_le (l : Lock) : rank l ≤ 2 := by
  cases l <;> simp [rank]

/-- **No deadlock.**  In any state that any number of threads can reach, no chain of waits
leads from a lock to itself or from a thread to itself, and a thread that has something to
do can go on or waits in the end for one that can. -/
theorem waits_acyclic {ι : Type*} [DecidableEq ι] {threads : List ι}
    {s : ι → List (LockOrder.Item Lock)}
    (hrun : Run (Step operations reentrant) (fun _ => []) threads s) :
    (∀ l, ¬ Relation.TransGen (WaitsFor reentrant s) l l) ∧
      (∀ t, ¬ Relation.TransGen (Blocks reentrant s) t t) ∧
      ∀ t, s t ≠ [] → ∃ u, Relation.ReflTransGen (Blocks reentrant s) t u ∧
        ∃ s', Step operations reentrant s u s' := by
  have h := LockOrder.inv_run (fun c hc => operation_ordered hc) hrun
  exact ⟨h.locks_acyclic, h.threads_acyclic, fun t ht => h.progress operations rank_le ht⟩

/-- Two threads want one box: the second one waits for the first, and not the other way round. -/
theorem waits_acyclic_contended :
    ∃ s : ℕ → List (LockOrder.Item Lock),
      Run (Step operations reentrant) (fun _ => []) [0, 0, 1] s ∧
        Blocks reentrant s 1 0 ∧
        (∀ l, ¬ Relation.TransGen (WaitsFor reentrant s) l l) ∧
        (∀ t, ¬ Relation.TransGen (Blocks reentrant s) t t) ∧
        ∀ t, s t ≠ [] → ∃ u, Relation.ReflTransGen (Blocks reentrant s) t u ∧
          ∃ s', Step operations reentrant s u s' := by
  let idle : ℕ → List (LockOrder.Item Lock) := fun _ => []
  let started := Function.update idle 0 [.run (snapshot 0)]
  let inside := Function.update started 0 [.run readKeys, .release (.box 0)]
  let both := Function.update inside 1 [.run (streamTo 0)]
  have hstart : Step operations reentrant idle 0 started := .start rfl (.snapshot 0)
  have hacquire : Step operations reentrant started 0 inside := by
    refine .acquire rfl (fun u hu => ?_) fun h => nomatch h
    rw [show started u = [] from Function.update_of_ne hu _ _]
    exact List.not_mem_nil
  have hsecond : Step operations reentrant inside 1 both := .start rfl (.streamTo 0)
  have hrun : Run (Step operations reentrant) idle [0, 0, 1] both :=
    (((Run.refl _ idle).snoc hstart).snoc hacquire).snoc hsecond
  -- the first thread is in the box, the second one wants to be
  have hblocks : Blocks reentrant both 1 0 :=
    ⟨.box 0, rfl, List.mem_cons_self, fun h => nomatch h⟩
  exact ⟨both, hrun, hblocks, waits_acyclic hrun⟩

end LockDiscipline
