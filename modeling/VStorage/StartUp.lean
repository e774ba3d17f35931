/-
Starting a trust group: `__init__` of `DistributedTrustGroup` and of `NetworkTrustGroup`.

Both start their holders one after another, each by several calls that may raise, and there
is no `try` on the way.  Where `__init__` raises, nobody has an object to call `stop()` on.

* `running_iff`: a process runs exactly when it was started and has not ended by itself.
* `init_leaves_nothing_iff`: after an exception nothing runs exactly when that is so of every
  process that was started before it.
* `init_leaves_holder`: a second holder that cannot be started leaves the first one.
-/
import Mathlib
import VStorage.Py
import VStorage.Runs

namespace StartUp

/-! ### The code -/

/-- Holder `i`, and the watchdog of holder `i`. -/
inductive Process
  | holder (i : ℕ)
  | watchdog (i : ℕ)
  deriving DecidableEq

/-- The calls of the two `__init__`s, each of which may raise. -/
inductive Call
  | urandom
  | splitSecret
  -- `DistributedTrustGroup`
  | pipe
  | start (i : ℕ) (share : ℤ × Bytes)
  | recv (i : ℕ)
  | processWatchdog (i : ℕ)
  | addRegion
  -- `NetworkTrustGroup`
  | generateSelfSignedCert
  | loadVerifyLocations
  | popen (i : ℕ)
  | write
  | flush (i : ℕ) (share : ℤ × Bytes)
  | close
  | readline (i : ℕ)
  | getReady
  | getPort
  | createConnection
  | wrapSocket
  -- both
  | startMonitor

/-- The process that a call starts when it does not raise. -/
def Call.starts : Call → Option Process
  | .start i _ => some (.holder i)
  | .popen i => some (.holder i)
  | .processWatchdog i => some (.watchdog i)
  | _ => none

/-- An `__init__`: its calls in order, and whether the holders start their own watchdogs.  No
process is started twice. -/
structure Group where
  calls : List Call
  selfGuarding : Bool
  nodup : (calls.filterMap Call.starts).Nodup
  guards : selfGuarding = true → ∀ i, .watchdog i ∉ calls.filterMap Call.starts

/-- The calls of `DistributedTrustGroup.__init__` for one holder. -/
def localHolder (share : ℤ × Bytes) (i : ℕ) : List Call :=
  [.pipe, .start i share, .recv i, .processWatchdog i, .addRegion]

/-- The calls of `NetworkTrustGroup.__init__` for one holder. -/
def networkHolder (share : ℤ × Bytes) (i : ℕ) : List Call :=
  [.popen i, .write, .flush i share, .close, .readline i, .getReady, .getPort, .createConnection,
    .wrapSocket]

/-- The loop `for x, y in shares`. -/
def startAll (one : ℤ × Bytes → ℕ → List Call) (shares : List (ℤ × Bytes)) : List Call :=
  shares.zipIdx.flatMap fun (share, i) => one share i

/-- Holders of different numbers are different processes. -/
theorem nodup_startAll {one : ℤ × Bytes → ℕ → List Call} (shares : List (ℤ × Bytes))
    (hone : ∀ share i, ((one share i).filterMap Call.starts).Nodup)
    (hown : ∀ share i, ∀ p ∈ (one share i).filterMap Call.starts,
      p = .holder i ∨ p = .watchdog i) :
    ((startAll one shares).filterMap Call.starts).Nodup := by
  rw [startAll, List.filterMap_flatMap, List.nodup_flatMap]
  refine ⟨fun p _ => hone p.1 p.2, ?_⟩
  have hindices : (shares.zipIdx.map Prod.snd).Nodup := by
    rw [List.zipIdx_map_snd]
    exact List.nodup_range'
  refine (List.pairwise_map.mp hindices).imp fun {a b} hne p ha hb => hne ?_
  rcases hown a.1 a.2 p ha with rfl | rfl
  · rcases hown b.1 b.2 _ hb with h | h
    · exact Process.holder.inj h
    · cases h
  · rcases hown b.1 b.2 _ hb with h | h
    · cases h
    · exact Process.watchdog.inj h

@[simp] theorem starts_localHolder (share : ℤ × Bytes) (i : ℕ) :
    (localHolder share i).filterMap Call.starts = [.holder i, .watchdog i] := rfl

@[simp] theorem starts_networkHolder (share : ℤ × Bytes) (i : ℕ) :
    (networkHolder share i).filterMap Call.starts = [.holder i] := rfl

/-- `DistributedTrustGroup.__init__`. -/
def distributed (shares : List (ℤ × Bytes)) : Group where
  calls := [.urandom, .splitSecret] ++ startAll localHolder shares ++ [.startMonitor]
  selfGuarding := false
  nodup := by
    rw [List.filterMap_append, List.filterMap_append]
    show ([] ++ (startAll localHolder shares).filterMap Call.starts ++ []).Nodup
    rw [List.nil_append, List.append_nil]
    refine nodup_startAll shares (fun _ _ => ?_) fun _ _ p hp => ?_
    · rw [starts_localHolder]
      simp
    · rw [starts_localHolder] at hp
      simpa using hp
  guards := nofun

/-- `NetworkTrustGroup.__init__`. -/
def network (shares : List (ℤ × Bytes)) : Group where
  calls := [.urandom, .splitSecret, .generateSelfSignedCert, .loadVerifyLocations] ++
    startAll networkHolder shares ++ [.startMonitor]
  selfGuarding := true
  nodup := by
    rw [List.filterMap_append, List.filterMap_append]
    show ([] ++ (startAll networkHolder shares).filterMap Call.starts ++ []).Nodup
    rw [List.nil_append, List.append_nil]
    refine nodup_startAll shares (fun _ _ => ?_) fun _ _ p hp => ?_
    · rw [starts_networkHolder]
      exact List.nodup_singleton _
    · rw [starts_networkHolder] at hp
      exact Or.inl (List.mem_singleton.mp hp)
  guards _ i := by
    rw [List.filterMap_append, List.filterMap_append, startAll, List.filterMap_flatMap]
    simp [Call.starts]

/-! ### Runs -/

/-- The processes that run, what each holder has been given and has said, and which of them
have started their own watchdogs. -/
structure World where
  running : Process → Bool
  share : ℕ → Option (ℤ × Bytes)
  guarded : ℕ → Bool
  ready : ℕ → Bool

/-- What a call does.  The share reaches a holder with its arguments, or with the line of
configuration. -/
def Call.run (w : World) : Call → World
  | .start i share =>
    { w with
      running := Function.update w.running (.holder i) true
      share := Function.update w.share i (some share) }
  | .popen i => { w with running := Function.update w.running (.holder i) true }
  | .flush i share => { w with share := Function.update w.share i (some share) }
  | .processWatchdog i => { w with running := Function.update w.running (.watchdog i) true }
  | _ => w

/-- A call that reads the readiness message of a holder returns only with one. -/
def Call.Returns (w : World) : Call → Prop
  | .recv i => w.ready i = true
  | .readline i => w.ready i = true
  | _ => True

/-- Where `__init__` is. -/
inductive Phase
  | calling (pc : ℕ)
  | returned
  | raised (pc : ℕ) (e : PyError)

structure State where
  phase : Phase
  world : World

def start : State := ⟨.calling 0, ⟨fun _ => false, fun _ => none, fun _ => false, fun _ => false⟩⟩

/-- `__init__` goes on, or a process does something or ends by itself. -/
inductive Event
  | init
  | guard (i : ℕ)
  | ready (i : ℕ)
  | exits (p : Process)

inductive Step (g : Group) : State → Event → State → Prop
  | call {s : State} {pc : ℕ} {c : Call} : s.phase = .calling pc → g.calls[pc]? = some c →
      c.Returns s.world → Step g s .init ⟨.calling (pc + 1), c.run s.world⟩
  | raises {s : State} {pc : ℕ} {e : PyError} : s.phase = .calling pc → pc < g.calls.length →
      Step g s .init { s with phase := .raised pc e }
  | returns {s : State} : s.phase = .calling g.calls.length →
      Step g s .init { s with phase := .returned }
  -- `main` of `holder_server.py` starts its watchdog when it has its share
  | guard {s : State} {i : ℕ} : g.selfGuarding = true → s.world.running (.holder i) = true →
      (s.world.share i).isSome = true → s.world.guarded i = false →
      Step g s (.guard i) { s with world := { s.world with
        running := Function.update s.world.running (.watchdog i) true
        guarded := Function.update s.world.guarded i true } }
  | ready {s : State} {i : ℕ} : s.world.running (.holder i) = true →
      (g.selfGuarding = true → s.world.guarded i = true) →
      Step g s (.ready i) { s with world := { s.world with
        ready := Function.update s.world.ready i true } }
  | exits {s : State} {p : Process} : s.world.running p = true →
      Step g s (.exits p) { s with world := { s.world with
        running := Function.update s.world.running p false } }

/-- How many calls have returned. -/
def Phase.done (g : Group) : Phase → ℕ
  | .calling pc => pc
  | .returned => g.calls.length
  | .raised pc _ => pc

/-- A process is started by one of the first `pc` calls, or by its holder. -/
def Started (g : Group) (events : List Event) (pc : ℕ) (p : Process) : Prop :=
  p ∈ (g.calls.take pc).filterMap Call.starts ∨ ∃ i, p = .watchdog i ∧ .guard i ∈ events

/-! ### What runs -/

/-- The invariant: what runs was started and has not ended, and only what was started ends. -/
structure Inv (g : Group) (events : List Event) (s : State) : Prop where
  running : ∀ p, s.world.running p = true ↔
    Started g events (s.phase.done g) p ∧ .exits p ∉ events
  exited : ∀ p, .exits p ∈ events → Started g events (s.phase.done g) p
  guarded : ∀ i, .guard i ∈ events → g.selfGuarding = true ∧ s.world.guarded i = true

variable {g : Group} {events : List Event} {s s' : State} {pc : ℕ} {p : Process}

theorem inv_start (g : Group) : Inv g [] start where
  running p := by
    have hnot : ¬ Started g [] 0 p := by
      rintro (h | ⟨_, _, h⟩)
      · rw [List.take_zero] at h
        cases h
      · cases h
    exact iff_of_false nofun fun h => hnot h.1
  exited _ h := by cases h
  guarded _ h := by cases h

/-- A step that starts nothing and ends nothing. -/
theorem Inv.quiet (h : Inv g events s) {event : Event} {phase : Phase} {world : World}
    (hexits : ∀ p, event ≠ .exits p) (hguard : ∀ i, event ≠ .guard i)
    (hstarted : ∀ p, p ∈ (g.calls.take (phase.done g)).filterMap Call.starts ↔
      p ∈ (g.calls.take (s.phase.done g)).filterMap Call.starts)
    (hrunning : world.running = s.world.running) (hguarded : world.guarded = s.world.guarded) :
    Inv g (events ++ [event]) ⟨phase, world⟩ := by
  have hmem : ∀ a, a ≠ event → (a ∈ events ++ [event] ↔ a ∈ events) := by
    intro a hne
    rw [List.mem_append, List.mem_singleton, or_iff_left hne]
  have hsame : ∀ p, Started g (events ++ [event]) (phase.done g) p ↔
      Started g events (s.phase.done g) p := by
    intro p
    unfold Started
    rw [hstarted]
    simp only [hmem _ (hguard _).symm]
  refine ⟨fun p => ?_, fun p hp => ?_, fun i hi => ?_⟩
  · show world.running p = true ↔ Started g _ (phase.done g) p ∧ _
    rw [hrunning, hsame, hmem _ (hexits p).symm]
    exact h.running p
  · exact (hsame p).mpr (h.exited p ((hmem _ (hexits p).symm).mp hp))
  · show _ ∧ world.guarded i = true
    rw [hguarded]
    exact h.guarded i ((hmem _ (hguard i).symm).mp hi)

/-- A step that starts a process, which was not started before. -/
theorem Inv.starts (h : Inv g events s) {event : Event} {phase : Phase} {world : World}
    (hexits : ∀ p, event ≠ .exits p) (hnew : ¬ Started g events (s.phase.done g) p)
    (hstarted : ∀ q, Started g (events ++ [event]) (phase.done g) q ↔
      Started g events (s.phase.done g) q ∨ q = p)
    (hrunning : world.running = Function.update s.world.running p true)
    (hguarded : ∀ i, .guard i ∈ events ++ [event] →
      g.selfGuarding = true ∧ world.guarded i = true) :
    Inv g (events ++ [event]) ⟨phase, world⟩ := by
  have hmem : ∀ q, Event.exits q ∈ events ++ [event] ↔ .exits q ∈ events := by
    intro q
    rw [List.mem_append, List.mem_singleton, or_iff_left (hexits q).symm]
  refine ⟨fun q => ?_, fun q hq => ?_, hguarded⟩
  · show world.running q = true ↔ Started g _ (phase.done g) q ∧ _
    rw [hrunning, hstarted, hmem]
    by_cases hq : q = p
    · subst hq
      rw [Function.update_self]
      exact iff_of_true rfl ⟨Or.inr rfl, fun hexit => hnew (h.exited q hexit)⟩
    · rw [Function.update_of_ne hq, or_iff_left hq]
      exact h.running q
  · exact (hstarted q).mpr (Or.inl (h.exited q ((hmem q).mp hq)))

theorem running_run (c : Call) (w : World) :
    (c.run w).running = c.starts.elim w.running fun p => Function.update w.running p true := by
  cases c <;> rfl

theorem guarded_run (c : Call) (w : World) : (c.run w).guarded = w.guarded := by
  cases c <;> rfl

theorem take_succ_calls {c : Call} (hc : g.calls[pc]? = some c) :
    (g.calls.take (pc + 1)).filterMap Call.starts =
      (g.calls.take pc).filterMap Call.starts ++ c.starts.toList := by
  rw [List.take_add_one, hc, List.filterMap_append]
  cases hstarts : c.starts with
  | none => simp [hstarts]
  | some p => simp [hstarts]

/-- The process of the next call has not been started. -/
theorem not_started {c : Call} (hc : g.calls[pc]? = some c) (hp : c.starts = some p)
    (h : Inv g events s) : ¬ Started g events pc p := by
  have hmem : p ∈ g.calls.filterMap Call.starts :=
    List.mem_filterMap.mpr ⟨c, List.mem_of_getElem? hc, hp⟩
  rintro (hbefore | ⟨i, rfl, hguard⟩)
  · have hnodup := g.nodup
    rw [← List.take_append_drop (pc + 1) g.calls, List.filterMap_append, take_succ_calls hc,
      hp] at hnodup
    exact (List.nodup_append.mp (List.nodup_append.mp hnodup).1).2.2 p hbefore p
      (List.mem_singleton_self p) rfl
  · exact g.guards (h.guarded i hguard).1 i hmem

theorem Inv.call (h : Inv g events s) {c : Call} (hphase : s.phase = .calling pc)
    (hc : g.calls[pc]? = some c) :
    Inv g (events ++ [.init]) ⟨.calling (pc + 1), c.run s.world⟩ := by
  have hdone : s.phase.done g = pc := by rw [hphase]; rfl
  cases hstarts : c.starts with
  | none =>
    refine h.quiet nofun nofun (fun p => ?_) ?_ (guarded_run ..)
    · show p ∈ (g.calls.take (pc + 1)).filterMap Call.starts ↔ _
      rw [take_succ_calls hc, hstarts, hdone]
      simp
    · rw [running_run, hstarts]
      rfl
  | some p =>
    refine h.starts (p := p) nofun (hdone ▸ not_started hc hstarts h) (fun q => ?_) ?_ fun i hi => ?_
    · show Started g _ (pc + 1) q ↔ _
      unfold Started
      rw [take_succ_calls hc, hstarts, hdone]
      simp [or_right_comm]
    · rw [running_run, hstarts]
      rfl
    · rw [guarded_run]
      exact h.guarded i (by simpa using hi)

theorem Inv.guard (h : Inv g events s) {i : ℕ} (hself : g.selfGuarding = true)
    (hnot : s.world.guarded i = false) :
    Inv g (events ++ [.guard i]) { s with world := { s.world with
      running := Function.update s.world.running (.watchdog i) true
      guarded := Function.update s.world.guarded i true } } := by
  refine h.starts (p := .watchdog i) nofun ?_ (fun q => ?_) rfl fun j hj => ?_
  · rintro (hcall | ⟨j, heq, hguard⟩)
    · obtain ⟨c, hc, hstarts⟩ := List.mem_filterMap.mp hcall
      exact g.guards hself i (List.mem_filterMap.mpr ⟨c, List.mem_of_mem_take hc, hstarts⟩)
    · cases heq
      exact absurd ((h.guarded i hguard).2.symm.trans hnot) nofun
  · unfold Started
    constructor
    · rintro (hcall | ⟨j, rfl, hguard⟩)
      · exact Or.inl (Or.inl hcall)
      · rcases List.mem_append.mp hguard with hguard | hguard
        · exact Or.inl (Or.inr ⟨j, rfl, hguard⟩)
        · cases List.mem_singleton.mp hguard
          exact Or.inr rfl
    · rintro ((hcall | ⟨j, rfl, hguard⟩) | rfl)
      · exact Or.inl hcall
      · exact Or.inr ⟨j, rfl, List.mem_append_left _ hguard⟩
      · exact Or.inr ⟨i, rfl, List.mem_append_right _ (List.mem_singleton_self _)⟩
  · refine ⟨hself, ?_⟩
    show Function.update s.world.guarded i true j = true
    by_cases hji : j = i
    · rw [hji, Function.update_self]
    · rw [Function.update_of_ne hji]
      refine (h.guarded j ?_).2
      rcases List.mem_append.mp hj with hj | hj
      · exact hj
      · cases List.mem_singleton.mp hj
        exact absurd rfl hji

theorem Inv.exits (h : Inv g events s) (hp : s.world.running p = true) :
    Inv g (events ++ [.exits p]) { s with world := { s.world with
      running := Function.update s.world.running p false } } := by
  have hsame : ∀ q, Started g (events ++ [.exits p]) (s.phase.done g) q ↔
      Started g events (s.phase.done g) q := by
    intro q
    unfold Started
    simp
  refine ⟨fun q => ?_, fun q hq => ?_, fun i hi => h.guarded i (by simpa using hi)⟩
  · show Function.update s.world.running p false q = true ↔ Started g _ (s.phase.done g) q ∧ _
    rw [hsame]
    by_cases hq : q = p
    · subst hq
      rw [Function.update_self]
      refine iff_of_false nofun fun hrun => hrun.2 ?_
      exact List.mem_append_right _ (List.mem_singleton_self _)
    · rw [Function.update_of_ne hq, h.running]
      simp [hq]
  · rcases List.mem_append.mp hq with hq | hq
    · exact (hsame q).mpr (h.exited q hq)
    · cases List.mem_singleton.mp hq
      exact (hsame p).mpr ((h.running p).mp hp).1

theorem Inv.step {event : Event} (h : Inv g events s) (hstep : Step g s event s') :
    Inv g (events ++ [event]) s' := by
  cases hstep with
  | call hphase hc _ => exact h.call hphase hc
  | raises hphase _ =>
    exact h.quiet nofun nofun (fun _ => by rw [hphase]; exact Iff.rfl) rfl rfl
  | returns hphase =>
    exact h.quiet nofun nofun (fun _ => by rw [hphase]; exact Iff.rfl) rfl rfl
  | guard hself _ _ hnot => exact h.guard hself hnot
  | ready _ _ => exact h.quiet nofun nofun (fun _ => Iff.rfl) rfl rfl
  | exits hp => exact h.exits hp

/-- In every state a process runs exactly when it has been started and has not ended by
itself: `__init__` ends none. -/
theorem running_iff (hrun : Run (Step g) start events s) (p : Process) :
    s.world.running p = true ↔ Started g events (s.phase.done g) p ∧ .exits p ∉ events :=
  (hrun.history (I := Inv g) (inv_start g) fun h hstep => h.step hstep).running p

/-- **All or nothing.**  In every run of either `__init__` that has raised, no holder and no
watchdog is left exactly when every one that was started has ended by itself: those that the
calls before the exception have started, and the watchdogs that holders have started. -/
theorem init_leaves_nothing_iff (shares : List (ℤ × Bytes)) :
    ∀ g ∈ [distributed shares, network shares], ∀ events s pc e,
      Run (Step g) start events s → s.phase = .raised pc e →
      ((∀ p, s.world.running p = false) ↔ ∀ p, Started g events pc p → .exits p ∈ events) := by
  intro g _ events s pc e hrun hraised
  have hiff : ∀ p, s.world.running p = true ↔ Started g events pc p ∧ .exits p ∉ events := by
    intro p
    have hp := running_iff hrun p
    rwa [hraised] at hp
  constructor
  · intro hnothing p hstarted
    by_contra hnot
    have hruns := (hiff p).mpr ⟨hstarted, hnot⟩
    rw [hnothing p] at hruns
    cases hruns
  · intro hall p
    rw [Bool.eq_false_iff]
    intro hruns
    obtain ⟨hstarted, hnot⟩ := (hiff p).mp hruns
    exact hnot (hall p hstarted)

/-- The first holder dies before it is ready. -/
theorem init_leaves_nothing_iff_sample :
    ∃ events s pc e, Run (Step (distributed [(1, [5]), (2, [6])])) start events s ∧
      s.phase = .raised pc e ∧ .exits (.holder 0) ∈ events ∧
      ∀ p, s.world.running p = false := by
  have hrun := Run.refl (Step (distributed [(1, [5]), (2, [6])])) start
    |>.snoc (.call rfl rfl trivial)
    |>.snoc (.call rfl rfl trivial)
    |>.snoc (.call rfl rfl trivial)
    |>.snoc (.call rfl rfl trivial)
    |>.snoc (.exits (p := .holder 0) rfl)
    |>.snoc (.raises (e := .eofError) rfl (by decide))
  refine ⟨_, _, _, _, hrun, rfl, by simp, (init_leaves_nothing_iff [(1, [5]), (2, [6])] _
    List.mem_cons_self _ _ _ _ hrun rfl).mpr fun p hstarted => ?_⟩
  rcases hstarted with hcall | ⟨i, _, hguard⟩
  · obtain rfl : p = .holder 0 := List.mem_singleton.mp hcall
    simp
  · simp at hguard

/-- Holder 0 is up, with its watchdog; then no process can be started for holder 1, or the
connection to holder 0 is refused. -/
theorem init_leaves_holder :
    (¬ ∀ shares events s pc e, Run (Step (distributed shares)) start events s →
      s.phase = .raised pc e → ∀ p, s.world.running p = false) ∧
    ¬ ∀ shares events s pc e, Run (Step (network shares)) start events s →
      s.phase = .raised pc e → ∀ p, s.world.running p = false := by
  constructor
  · intro hall
    have hrun := Run.refl (Step (distributed [(1, [5]), (2, [6])])) start
      |>.snoc (.call rfl rfl trivial)
      |>.snoc (.call rfl rfl trivial)
      |>.snoc (.call rfl rfl trivial)
      |>.snoc (.call rfl rfl trivial)
      |>.snoc (.ready (i := 0) rfl nofun)
      |>.snoc (.call rfl rfl rfl)
      |>.snoc (.call rfl rfl trivial)
      |>.snoc (.call rfl rfl trivial)
      |>.snoc (.call rfl rfl trivial)
      |>.snoc (.raises (e := .osError) rfl (by decide))
    cases hall _ _ _ _ _ hrun rfl (.holder 0)
  · intro hall
    have hrun := Run.refl (Step (network [(1, [5]), (2, [6])])) start
      |>.snoc (.call rfl rfl trivial)
      |>.snoc (.call rfl rfl trivial)
      |>.snoc (.call rfl rfl trivial)
      |>.snoc (.call rfl rfl trivial)
      |>.snoc (.call rfl rfl trivial)
      |>.snoc (.call rfl rfl trivial)
      |>.snoc (.call rfl rfl trivial)
      |>.snoc (.call rfl rfl trivial)
      |>.snoc (.guard (i := 0) rfl rfl rfl rfl)
      |>.snoc (.ready (i := 0) rfl fun _ => rfl)
      |>.snoc (.call rfl rfl rfl)
      |>.snoc (.call rfl rfl trivial)
      |>.snoc (.call rfl rfl trivial)
      |>.snoc (.raises (e := .osError) rfl (by decide))
    cases hall _ _ _ _ _ hrun rfl (.watchdog 0)

end StartUp
