/-
`stop()` against the monitor, in both trust groups.

The monitor checks `_stopping`, then whether the holder is recorded, then whether it is
dead (a look into /proc, or a ping); then it reports.  `stop()` sets `_stopping` and goes
on to end every holder, and no lock keeps the two apart.

* `not_recorded`: when no holder ends, and no connection is closed, between the monitor's
  check of `_stopping` for it and the end of its test, no holder is recorded.
* `recorded_by_stop`: otherwise the monitor takes the clean shutdown for an attack, and
  with a threshold of one the main process is killed.
* `recorded_of_facing`: every holder that ends in between can be recorded.
-/
import Mathlib
import VStorage.DistributedTrustGroup
import VStorage.NetworkTrustGroup

namespace CleanStop

/-! ### The monitor and the flag -/

/-- Where the monitor is; `σ` is its progress in testing a holder. -/
inductive Watch (σ : Type)
  | looping
  | checking (i : ℕ)
  | looking (i : ℕ)
  | testing (i : ℕ) (test : σ)
  | marking (i : ℕ) (mark : Mark)
  | ended

/-- What a step of a test comes to. -/
inductive Verdict (σ : Type)
  | more (test : σ)
  | alive
  | dead
  | raised

/-- How a trust group tests its holders, and what else happens to them.  `Stands w i`
says that nothing has ended holder `i` or the connection to it, and `Ends w e i` that the
step `e` does. -/
structure System (W σ ε : Type) where
  n : ℕ
  killThreshold : ℤ
  first : σ
  test : W → ℕ → σ → W → Verdict σ → Prop
  act : Bool → W → ε → W → Prop
  Stands : W → ℕ → Prop
  Ends : W → ε → ℕ → Prop
  stands_test : ∀ {w w' : W} {i j : ℕ} {t : σ} {verdict : Verdict σ},
    test w i t w' verdict → Stands w j → Stands w' j
  stands_act : ∀ {stopping : Bool} {w w' : W} {e : ε} {i : ℕ},
    act stopping w e w' → ¬ Ends w e i → Stands w i → Stands w' i

section Runs

variable {W σ ε : Type}

structure State (W σ : Type) where
  world : W
  tally : Tally
  stopping : Bool
  monitor : Watch σ

def start (world : W) : State W σ := ⟨world, .new, false, .looping⟩

inductive Event (ε : Type)
  | monitor
  | verdict (i : ℕ) (dead : Bool)
  | flag
  | other (e : ε)

/-- One step of the monitor, of `stop()`, or of anyone else.  The monitor stops when the
main process is killed. -/
inductive Step (sys : System W σ ε) : State W σ → Event ε → State W σ → Prop
  | loop {s : State W σ} : s.tally.killed = false → s.monitor = .looping → s.stopping = false →
      Step sys s .monitor { s with monitor := .checking 0 }
  | leave {s : State W σ} : s.tally.killed = false → s.monitor = .looping → s.stopping = true →
      Step sys s .monitor { s with monitor := .ended }
  | go {s : State W σ} {i : ℕ} : s.tally.killed = false → s.monitor = .checking i → i < sys.n →
      s.stopping = false → Step sys s .monitor { s with monitor := .looking i }
  | quit {s : State W σ} {i : ℕ} : s.tally.killed = false → s.monitor = .checking i → i < sys.n →
      s.stopping = true → Step sys s .monitor { s with monitor := .ended }
  | sleep {s : State W σ} : s.tally.killed = false → s.monitor = .checking sys.n →
      Step sys s .monitor { s with monitor := .looping }
  -- past the flag: a holder that is in the set already is not tested again
  | skip {s : State W σ} {i : ℕ} : s.tally.killed = false → s.monitor = .looking i →
      i ∈ s.tally.compromised → Step sys s .monitor { s with monitor := .checking (i + 1) }
  | test {s : State W σ} {i : ℕ} : s.tally.killed = false → s.monitor = .looking i →
      i ∉ s.tally.compromised → Step sys s .monitor { s with monitor := .testing i sys.first }
  | more {s : State W σ} {i : ℕ} {t t' : σ} {w : W} : s.tally.killed = false →
      s.monitor = .testing i t → sys.test s.world i t w (.more t') →
      Step sys s .monitor { s with world := w, monitor := .testing i t' }
  | alive {s : State W σ} {i : ℕ} {t : σ} {w : W} : s.tally.killed = false →
      s.monitor = .testing i t → sys.test s.world i t w .alive →
      Step sys s (.verdict i false) { s with world := w, monitor := .checking (i + 1) }
  | dead {s : State W σ} {i : ℕ} {t : σ} {w : W} : s.tally.killed = false →
      s.monitor = .testing i t → sys.test s.world i t w .dead →
      Step sys s (.verdict i true) { s with world := w, monitor := .marking i .check }
  | raised {s : State W σ} {i : ℕ} {t : σ} {w : W} : s.tally.killed = false →
      s.monitor = .testing i t → sys.test s.world i t w .raised →
      Step sys s .monitor { s with world := w, monitor := .ended }
  | mark {s : State W σ} {i : ℕ} {m : Mark} : s.tally.killed = false →
      s.monitor = .marking i m → m ≠ .done →
      Step sys s .monitor { s with
        tally := (m.step sys.killThreshold i s.tally).1
        monitor := .marking i (m.step sys.killThreshold i s.tally).2 }
  | marked {s : State W σ} {i : ℕ} : s.tally.killed = false → s.monitor = .marking i .done →
      Step sys s .monitor { s with monitor := .checking (i + 1) }
  | flag {s : State W σ} : s.tally.killed = false → s.stopping = false →
      Step sys s .flag { s with stopping := true }
  -- `stop()` and the holders
  | act {s : State W σ} {e : ε} {w : W} : sys.act s.stopping s.world e w →
      Step sys s (.other e) { s with world := w }

/-- No holder ends before `stop()` has been called. -/
def Clean (sys : System W σ ε) (s : State W σ) (event : Event ε) : Prop :=
  ∀ e i, event = .other e → sys.Ends s.world e i → s.stopping = true

/-- The monitor has found `_stopping` unset for holder `i`, and has not tested it yet. -/
def Watch.Facing (i : ℕ) : Watch σ → Prop
  | .looking j | .testing j _ => j = i
  | _ => False

/-- No holder ends in the monitor's face. -/
def Undisturbed (sys : System W σ ε) (s : State W σ) (event : Event ε) : Prop :=
  ∀ e i, event = .other e → sys.Ends s.world e i → ¬ s.monitor.Facing i

/-- A holder that stands is not found dead. -/
def Answered (sys : System W σ ε) (s : State W σ) (event : Event ε) : Prop :=
  ∀ i, event = .verdict i true → ¬ sys.Stands s.world i

/-- A shutdown that does not disturb the monitor. -/
structure Calm (sys : System W σ ε) (s : State W σ) (event : Event ε) : Prop where
  clean : Clean sys s event
  undisturbed : Undisturbed sys s event
  answered : Answered sys s event

/-- The invariant: until `stop()` is called every holder stands, and after that those
still do which the monitor faces. -/
structure Inv (sys : System W σ ε) (s : State W σ) : Prop where
  unstopped : s.stopping = false → ∀ i, sys.Stands s.world i
  facing : ∀ i, s.monitor.Facing i → sys.Stands s.world i
  unmarked : ∀ i m, s.monitor ≠ .marking i m
  tally : s.tally = .new

theorem inv_start {sys : System W σ ε} {world : W} (h : ∀ i, sys.Stands world i) :
    Inv sys (start world) :=
  ⟨fun _ => h, fun _ h => h.elim, nofun, rfl⟩

theorem Inv.step {sys : System W σ ε} {s s' : State W σ} {event : Event ε} (h : Inv sys s)
    (hstep : Guarded (Step sys) (Calm sys) s event s') : Inv sys s' := by
  obtain ⟨hstep, hclean, hends, hverdict⟩ := hstep
  cases hstep with
  | loop => exact ⟨h.unstopped, fun _ hf => hf.elim, nofun, h.tally⟩
  | leave => exact ⟨h.unstopped, fun _ hf => hf.elim, nofun, h.tally⟩
  -- the flag is unset, so the holder that the monitor turns to stands
  | go _ _ _ hflag => exact ⟨h.unstopped, fun i _ => h.unstopped hflag i, nofun, h.tally⟩
  | quit => exact ⟨h.unstopped, fun _ hf => hf.elim, nofun, h.tally⟩
  | sleep => exact ⟨h.unstopped, fun _ hf => hf.elim, nofun, h.tally⟩
  | skip => exact ⟨h.unstopped, fun _ hf => hf.elim, nofun, h.tally⟩
  | test _ hm =>
    refine ⟨h.unstopped, fun i hf => h.facing i ?_, nofun, h.tally⟩
    rw [hm]
    exact hf
  | more _ hm htest =>
    refine ⟨fun hflag i => sys.stands_test htest (h.unstopped hflag i),
      fun i hf => sys.stands_test htest (h.facing i ?_), nofun, h.tally⟩
    rw [hm]
    exact hf
  | alive _ _ htest =>
    exact ⟨fun hflag i => sys.stands_test htest (h.unstopped hflag i), fun _ hf => hf.elim, nofun,
      h.tally⟩
  -- a holder that it faces stands, and one that stands is not found dead
  | @dead i _ _ _ hm =>
    refine absurd (h.facing i ?_) (hverdict i rfl)
    rw [hm]
    exact rfl
  | raised _ _ htest =>
    exact ⟨fun hflag i => sys.stands_test htest (h.unstopped hflag i), fun _ hf => hf.elim, nofun,
      h.tally⟩
  | mark _ hm => exact absurd hm (h.unmarked _ _)
  | marked _ hm => exact absurd hm (h.unmarked _ _)
  | flag => exact ⟨nofun, h.facing, h.unmarked, h.tally⟩
  -- before the flag no holder ends, after it none that the monitor faces
  | @act e w hact =>
    refine ⟨fun hflag i => ?_, fun i hf => ?_, h.unmarked, h.tally⟩
    · refine sys.stands_act hact (fun hend => ?_) (h.unstopped hflag i)
      exact absurd (hflag.symm.trans (hclean e i rfl hend)) nofun
    · exact sys.stands_act hact (fun hend => hends e i rfl hend hf) (h.facing i hf)

/-- **Clean shutdown.**  As long as no holder ends in the monitor's face, nothing is
recorded. -/
theorem tally_eq_new {sys : System W σ ε} {world : W} (h : ∀ i, sys.Stands world i)
    {events : List (Event ε)} {s : State W σ}
    (hrun : Run (Guarded (Step sys) (Calm sys)) (start world) events s) : s.tally = .new :=
  (hrun.invariant (inv_start h) Inv.step).tally

/-- A holder that is found dead is recorded two steps later. -/
theorem recorded_of_testing {sys : System W σ ε} {s : State W σ} {i : ℕ} {t : σ} {w : W}
    (hkilled : s.tally.killed = false) (hm : s.monitor = .testing i t)
    (hnot : i ∉ s.tally.compromised) (hdead : sys.test s.world i t w .dead) :
    ∃ events u, Run (Step sys) s events u ∧ i ∈ u.tally.compromised := by
  have hfound : Step sys s (.verdict i true) { s with world := w, monitor := .marking i .check } :=
    .dead hkilled hm hdead
  -- the report: not in the set yet, and added
  have hcheck : Step sys { s with world := w, monitor := .marking i .check } .monitor
      { s with world := w, monitor := .marking i .add } := by
    have hstep : Step sys { s with world := w, monitor := .marking i .check } .monitor _ :=
      .mark hkilled rfl (show Mark.check ≠ .done by decide)
    rwa [Mark.step, if_neg hnot] at hstep
  have hadd : Step sys { s with world := w, monitor := .marking i .add } .monitor
      { s with
        world := w
        tally := { s.tally with compromised := insert i s.tally.compromised }
        monitor := .marking i .guard } := by
    have hstep : Step sys { s with world := w, monitor := .marking i .add } .monitor _ :=
      .mark hkilled rfl (show Mark.add ≠ .done by decide)
    exact hstep
  exact ⟨_, _, ((Run.single hfound).snoc hcheck).snoc hadd, Finset.mem_insert_self ..⟩

/-- **Disturbance.**  A holder that the monitor faces and can find dead can be recorded. -/
theorem recorded_of_facing {sys : System W σ ε} {s : State W σ} {i : ℕ}
    (hkilled : s.tally.killed = false) (hfacing : s.monitor.Facing i)
    (hnot : i ∉ s.tally.compromised)
    (hdead : ∀ t, sys.test s.world i t s.world .dead ∨
      ∃ t', sys.test s.world i t s.world (.more t') ∧ sys.test s.world i t' s.world .dead) :
    ∃ events u, Run (Step sys) s events u ∧ i ∈ u.tally.compromised := by
  have htesting : ∀ t, ∃ events u,
      Run (Step sys) { s with monitor := .testing i t } events u ∧ i ∈ u.tally.compromised := by
    intro t
    rcases hdead t with hfound | ⟨t', hmore, hfound⟩
    · exact recorded_of_testing hkilled rfl hnot hfound
    · have hstep : Step sys { s with monitor := .testing i t } .monitor
          { s with monitor := .testing i t' } := .more hkilled rfl hmore
      obtain ⟨events, u, hrun, hin⟩ :=
        recorded_of_testing (s := { s with monitor := .testing i t' }) hkilled rfl hnot hfound
      exact ⟨_, u, (Run.single hstep).trans hrun, hin⟩
  -- the monitor has yet to begin the test, or is in it
  obtain ⟨world, tally, stopping, monitor⟩ := s
  cases monitor with
  | looking j =>
    obtain rfl : j = i := hfacing
    obtain ⟨events, u, hrun, hin⟩ := htesting sys.first
    exact ⟨_, u, (Run.single (.test hkilled rfl hnot)).trans hrun, hin⟩
  | testing j t =>
    obtain rfl : j = i := hfacing
    exact htesting t
  | _ => exact hfacing.elim

end Runs

end CleanStop

/-! ### Local holders -/

namespace DistributedTrustGroup

open CleanStop (Verdict System)

/-- Where `stop()` is after it has set the flag: at `wd.stop()`, `conn.send("stop")`, or
`p.join(timeout=1)` with the `terminate()` that may follow, of holder `i`. -/
inductive Stopper
  | watchdogs (i : ℕ)
  | sending (i : ℕ)
  | joining (i : ℕ)
  | ended

structure Shutdown where
  holders : ℕ → Holder
  stopper : Stopper

inductive StopEvent
  | stop
  | serve (i : ℕ)
  | die (i : ℕ)

/-- The steps of `stop()` and of the holders.  A signal ends its process later. -/
inductive StopAct (n : ℕ) : Bool → Shutdown → StopEvent → Shutdown → Prop
  | watchdog {w : Shutdown} {i : ℕ} : w.stopper = .watchdogs i → i < n →
      StopAct n true w .stop { w with stopper := .watchdogs (i + 1) }
  | watchdogs {w : Shutdown} : w.stopper = .watchdogs n →
      StopAct n true w .stop { w with stopper := .sending 0 }
  | send {w : Shutdown} {i : ℕ} : w.stopper = .sending i → i < n →
      StopAct n true w .stop
        { holders := Function.update w.holders i
            { w.holders i with requests := (w.holders i).requests ++ [.stop] }
          stopper := .sending (i + 1) }
  | sent {w : Shutdown} : w.stopper = .sending n →
      StopAct n true w .stop { w with stopper := .joining 0 }
  | join {w : Shutdown} {i : ℕ} : w.stopper = .joining i → i < n →
      StopAct n true w .stop { w with stopper := .joining (i + 1) }
  | joined {w : Shutdown} : w.stopper = .joining n →
      StopAct n true w .stop { w with stopper := .ended }
  -- a holder that reads "stop" exits; it can also die by itself, or of a signal
  | serve {stopping : Bool} {w : Shutdown} {i : ℕ} : (w.holders i).running = true →
      StopAct n stopping w (.serve i)
        { w with holders := Function.update w.holders i (w.holders i).serve }
  | die {stopping : Bool} {w : Shutdown} {i : ℕ} :
      StopAct n stopping w (.die i)
        { w with holders := Function.update w.holders i (w.holders i).exit }

/-- `_is_dead(p.pid)`. -/
inductive IsDead : Shutdown → ℕ → Unit → Shutdown → Verdict Unit → Prop
  | alive {w : Shutdown} {i : ℕ} : (w.holders i).running = true → IsDead w i () w .alive
  | dead {w : Shutdown} {i : ℕ} : (w.holders i).running = false → IsDead w i () w .dead

/-- The step ends the process of holder `i`. -/
def StopEvent.Ends (w : Shutdown) (e : StopEvent) (i : ℕ) : Prop :=
  e = .die i ∨ e = .serve i ∧ (w.holders i).phase = .receiving ∧
    (w.holders i).requests.head? = some .stop

theorem running_serve {h : Holder}
    (hstop : ¬ (h.phase = .receiving ∧ h.requests.head? = some .stop)) :
    h.serve.running = h.running := by
  unfold Holder.serve
  split
  · rename_i hphase
    split
    · rfl
    · rfl
    -- the one request that ends it
    · rename_i hrequests
      exact absurd ⟨hphase, congrArg List.head? hrequests⟩ hstop
  · rfl
  · rfl

theorem running_update {holders : ℕ → Holder} {i j : ℕ} {h : Holder}
    (hrunning : i = j → (holders i).running = true → h.running = true)
    (hi : (holders i).running = true) : (Function.update holders j h i).running = true := by
  by_cases hij : i = j
  · subst hij
    rw [Function.update_self]
    exact hrunning rfl hi
  · rwa [Function.update_of_ne hij]

/-- `DistributedTrustGroup` under `stop()`. -/
def stopSystem (n : ℕ) (killThreshold : ℤ) : System Shutdown Unit StopEvent where
  n := n
  killThreshold := killThreshold
  first := ()
  test := IsDead
  act := StopAct n
  Stands w i := (w.holders i).running = true
  Ends := StopEvent.Ends
  stands_test htest hstands := by
    cases htest <;> exact hstands
  stands_act hact hends hstands := by
    cases hact with
    | send =>
      refine running_update (fun hij hrunning => ?_) hstands
      subst hij
      exact hrunning
    | serve =>
      refine running_update (fun hij hrunning => ?_) hstands
      subst hij
      rw [running_serve fun hstop => hends (Or.inr ⟨rfl, hstop⟩)]
      exact hrunning
    | die => exact running_update (fun hij _ => absurd (Or.inl (hij ▸ rfl)) hends) hstands
    | _ => exact hstands

def stopStart (shares : List (ℤ × Bytes)) : Shutdown :=
  ⟨fun i => Holder.new (shares.getD i default), .watchdogs 0⟩

/-- **Disturbance of local holders.**  A holder that has ended in the monitor's face can
be recorded. -/
theorem recorded_of_facing {n : ℕ} {killThreshold : ℤ} {s : CleanStop.State Shutdown Unit} {i : ℕ}
    (hkilled : s.tally.killed = false) (hfacing : s.monitor.Facing i)
    (hnot : i ∉ s.tally.compromised) (hdead : (s.world.holders i).running = false) :
    ∃ events u, Run (CleanStop.Step (stopSystem n killThreshold)) s events u ∧
      i ∈ u.tally.compromised := by
  exact CleanStop.recorded_of_facing hkilled hfacing hnot fun _ => Or.inl (IsDead.dead hdead)

end DistributedTrustGroup

/-! ### Holders behind sockets -/

namespace NetworkTrustGroup

open CleanStop (Verdict System)

/-- Where `stop()` is after it has set the flag: at `sock.close()`, `proc.terminate()`, or
`proc.wait(timeout=2)` with the `kill()` that may follow, of holder `i`. -/
inductive Stopper
  | closing (i : ℕ)
  | terminating (i : ℕ)
  | waiting (i : ℕ)
  | ended

/-- `shut i`: this end of the connection has been closed. -/
structure Shutdown where
  socks : ℕ → Sock
  running : ℕ → Bool
  shut : ℕ → Bool
  stopper : Stopper

inductive StopEvent
  | stop
  | answer (i : ℕ)
  | exit (i : ℕ)

/-- The steps of `stop()` and of the holders.  A signal ends its process later, and a
connection goes with its process and takes what has not been read with it, or part of it. -/
inductive StopAct (shares : List (ℤ × Bytes)) (n : ℕ) :
    Bool → Shutdown → StopEvent → Shutdown → Prop
  | close {w : Shutdown} {i : ℕ} : w.stopper = .closing i → i < n →
      StopAct shares n true w .stop
        { w with shut := Function.update w.shut i true, stopper := .closing (i + 1) }
  | closed {w : Shutdown} : w.stopper = .closing n →
      StopAct shares n true w .stop { w with stopper := .terminating 0 }
  | terminate {w : Shutdown} {i : ℕ} : w.stopper = .terminating i → i < n →
      StopAct shares n true w .stop { w with stopper := .terminating (i + 1) }
  | terminated {w : Shutdown} : w.stopper = .terminating n →
      StopAct shares n true w .stop { w with stopper := .waiting 0 }
  | wait {w : Shutdown} {i : ℕ} : w.stopper = .waiting i → i < n →
      StopAct shares n true w .stop { w with stopper := .waiting (i + 1) }
  | waited {w : Shutdown} : w.stopper = .waiting n →
      StopAct shares n true w .stop { w with stopper := .ended }
  | answer {stopping : Bool} {w : Shutdown} {i : ℕ} {op : Op} {rest : List Op} :
      w.running i = true → (w.socks i).closed = false → (w.socks i).requests = op :: rest →
      StopAct shares n stopping w (.answer i)
        { w with socks := Function.update w.socks i { w.socks i with
            requests := rest
            wire := (w.socks i).wire ++ line (reply (shares.getD i default) op) } }
  | exit {stopping : Bool} {w : Shutdown} {i m : ℕ} :
      StopAct shares n stopping w (.exit i)
        { w with
          running := Function.update w.running i false
          socks := Function.update w.socks i
            { w.socks i with closed := true, wire := (w.socks i).wire.take m } }

/-- `_ping`, which waits for the lock first. -/
inductive Ping (depth : ℕ) :
    Shutdown → ℕ → Option Talk → Shutdown → Verdict (Option Talk) → Prop
  | acquire {w : Shutdown} {i : ℕ} : Ping depth w i none w (.more (some .toSend))
  | more {w : Shutdown} {i : ℕ} {talk talk' : Talk} {socks : ℕ → Sock} :
      Exchange depth .ping w.socks i talk socks (.more talk') →
      Ping depth w i (some talk) { w with socks := socks } (.more (some talk'))
  | alive {w : Shutdown} {i : ℕ} {talk : Talk} {socks : ℕ → Sock} {result : Except PyError Json} :
      Exchange depth .ping w.socks i talk socks (.done result) → pong result = .ok true →
      Ping depth w i (some talk) { w with socks := socks } .alive
  | dead {w : Shutdown} {i : ℕ} {talk : Talk} {socks : ℕ → Sock} {result : Except PyError Json} :
      Exchange depth .ping w.socks i talk socks (.done result) → pong result = .ok false →
      Ping depth w i (some talk) { w with socks := socks } .dead
  | raised {w : Shutdown} {i : ℕ} {talk : Talk} {socks : ℕ → Sock} {result : Except PyError Json}
      {e : PyError} : Exchange depth .ping w.socks i talk socks (.done result) →
      pong result = .error e → Ping depth w i (some talk) { w with socks := socks } .raised

/-- The step ends the process of holder `i`, or closes the connection to it. -/
def StopEvent.Ends (n : ℕ) (w : Shutdown) (e : StopEvent) (i : ℕ) : Prop :=
  e = .exit i ∨ e = .stop ∧ w.stopper = .closing i ∧ i < n

/-- `NetworkTrustGroup` under `stop()`. -/
def stopSystem (shares : List (ℤ × Bytes)) (n : ℕ) (killThreshold : ℤ) (depth : ℕ) :
    System Shutdown (Option Talk) StopEvent where
  n := n
  killThreshold := killThreshold
  first := none
  test := Ping depth
  act := StopAct shares n
  Stands w i := w.running i = true ∧ w.shut i = false
  Ends := StopEvent.Ends n
  stands_test htest hstands := by
    cases htest <;> exact hstands
  stands_act hact hends hstands := by
    cases hact with
    | @close w i hstopper hi =>
      refine ⟨hstands.1, (Function.update_of_ne ?_ ..).trans hstands.2⟩
      rintro rfl
      exact hends (Or.inr ⟨rfl, hstopper, hi⟩)
    | exit =>
      refine ⟨(Function.update_of_ne ?_ ..).trans hstands.1, hstands.2⟩
      rintro rfl
      exact hends (Or.inl rfl)
    | _ => exact hstands

def stopStart : Shutdown :=
  ⟨fun _ => ⟨[], [], false⟩, fun _ => true, fun _ => false, .closing 0⟩

/-- **Disturbance of holders behind sockets.**  A ping can fail at any moment. -/
theorem recorded_of_facing {shares : List (ℤ × Bytes)} {n depth : ℕ} {killThreshold : ℤ}
    {s : CleanStop.State Shutdown (Option Talk)} {i : ℕ} (hkilled : s.tally.killed = false)
    (hfacing : s.monitor.Facing i) (hnot : i ∉ s.tally.compromised) :
    ∃ events u, Run (CleanStop.Step (stopSystem shares n killThreshold depth)) s events u ∧
      i ∈ u.tally.compromised := by
  have hfound : ∀ talk, Ping depth s.world i (some talk) s.world .dead := by
    intro talk
    cases talk with
    | toSend => exact .dead .sendError rfl
    | receiving buf => exact .dead .timeout rfl
  refine CleanStop.recorded_of_facing hkilled hfacing hnot fun t => ?_
  cases t with
  | none => exact Or.inr ⟨_, Ping.acquire, hfound .toSend⟩
  | some talk => exact Or.inl (hfound talk)

end NetworkTrustGroup

/-! ### Both groups -/

namespace CleanStop

section Calm

variable {W σ ε : Type} {sys : System W σ ε} {s : State W σ}

theorem calm_monitor : Calm sys s .monitor := ⟨nofun, nofun, nofun⟩

theorem calm_flag : Calm sys s .flag := ⟨nofun, nofun, nofun⟩

theorem calm_alive {i : ℕ} : Calm sys s (.verdict i false) := ⟨nofun, nofun, nofun⟩

/-- After the flag, and out of the monitor's face. -/
theorem calm_other {e : ε} (hstopping : s.stopping = true) (hout : ∀ i, ¬ s.monitor.Facing i) :
    Calm sys s (.other e) :=
  ⟨fun _ _ _ _ => hstopping, fun _ i _ _ => hout i, nofun⟩

end Calm

/-- **Clean shutdown of both groups.**  In every run in which no holder ends before
`stop()` is called, and none ends, or has its connection closed, between the monitor's
check of the flag for it and the end of its test, no holder is recorded and the main
process is not killed.  (A ping over a standing connection is answered.) -/
theorem not_recorded {n : ℕ} {killThreshold : ℤ} {shares : List (ℤ × Bytes)} {depth : ℕ}
    {events : List (Event DistributedTrustGroup.StopEvent)}
    {s : State DistributedTrustGroup.Shutdown Unit}
    (hlocal : Run (Guarded (Step (DistributedTrustGroup.stopSystem n killThreshold))
      fun s e => Clean (DistributedTrustGroup.stopSystem n killThreshold) s e ∧
        Undisturbed (DistributedTrustGroup.stopSystem n killThreshold) s e)
      (start (DistributedTrustGroup.stopStart shares)) events s)
    {events' : List (Event NetworkTrustGroup.StopEvent)}
    {s' : State NetworkTrustGroup.Shutdown (Option NetworkTrustGroup.Talk)}
    (hnetwork : Run (Guarded (Step (NetworkTrustGroup.stopSystem shares n killThreshold depth))
      (Calm (NetworkTrustGroup.stopSystem shares n killThreshold depth)))
      (start NetworkTrustGroup.stopStart) events' s') :
    (s.tally.compromised = ∅ ∧ s.tally.killed = false) ∧
      s'.tally.compromised = ∅ ∧ s'.tally.killed = false := by
  have hcalm : Run (Guarded (Step (DistributedTrustGroup.stopSystem n killThreshold))
      (Calm (DistributedTrustGroup.stopSystem n killThreshold)))
      (start (DistributedTrustGroup.stopStart shares)) events s := by
    refine hlocal.mono fun ⟨hstep, hclean, hundisturbed⟩ => ⟨hstep, hclean, hundisturbed, ?_⟩
    -- a look into /proc does not err
    rintro i rfl
    cases hstep with
    | dead _ _ htest =>
      cases htest with
      | dead hdead => exact fun hstands => absurd (hstands.symm.trans hdead) nofun
  -- over the network the condition is the one in the statement
  have hstands : ∀ i, (NetworkTrustGroup.stopSystem shares n killThreshold depth).Stands
      NetworkTrustGroup.stopStart i := fun _ => ⟨rfl, rfl⟩
  have hnew := tally_eq_new (fun _ => rfl) hcalm
  have hnew' := tally_eq_new hstands hnetwork
  rw [hnew, hnew']
  exact ⟨⟨rfl, rfl⟩, rfl, rfl⟩

/-- One holder, which the monitor has tested before it ends; and one whose connection is
closed before the monitor comes to it. -/
theorem not_recorded_one :
    ∃ events s events' s',
      Run (Step (DistributedTrustGroup.stopSystem 1 1))
        (start (DistributedTrustGroup.stopStart [(1, [5])])) events s ∧
      (s.world.holders 0).running = false ∧ s.monitor = .ended ∧
      Run (Step (NetworkTrustGroup.stopSystem [(1, [5])] 1 1 100))
        (start NetworkTrustGroup.stopStart) events' s' ∧
      s'.world.shut 0 = true ∧ s'.monitor = .ended ∧
      (s.tally.compromised = ∅ ∧ s.tally.killed = false) ∧
        s'.tally.compromised = ∅ ∧ s'.tally.killed = false := by
  have hlocal := Run.refl (Guarded (Step (DistributedTrustGroup.stopSystem 1 1))
      (Calm (DistributedTrustGroup.stopSystem 1 1)))
      (start (DistributedTrustGroup.stopStart [(1, [5])]))
    |>.snoc ⟨.loop rfl rfl rfl, calm_monitor⟩
    |>.snoc ⟨.go rfl rfl Nat.one_pos rfl, calm_monitor⟩
    |>.snoc ⟨.test rfl rfl (Finset.notMem_empty 0), calm_monitor⟩
    |>.snoc ⟨.alive rfl rfl (.alive rfl), calm_alive⟩
    |>.snoc ⟨.flag rfl rfl, calm_flag⟩
    |>.snoc ⟨.act (.watchdog rfl Nat.one_pos), calm_other rfl fun _ => id⟩
    |>.snoc ⟨.act (.watchdogs rfl), calm_other rfl fun _ => id⟩
    |>.snoc ⟨.act (.send rfl Nat.one_pos), calm_other rfl fun _ => id⟩
    |>.snoc ⟨.act (.serve (i := 0) rfl), calm_other rfl fun _ => id⟩
    |>.snoc ⟨.sleep rfl rfl, calm_monitor⟩
    |>.snoc ⟨.leave rfl rfl rfl, calm_monitor⟩
  -- here the monitor finds the flag set
  have hnetwork := Run.refl (Guarded (Step (NetworkTrustGroup.stopSystem [(1, [5])] 1 1 100))
      (Calm (NetworkTrustGroup.stopSystem [(1, [5])] 1 1 100)))
      (start NetworkTrustGroup.stopStart)
    |>.snoc ⟨.loop rfl rfl rfl, calm_monitor⟩
    |>.snoc ⟨.flag rfl rfl, calm_flag⟩
    |>.snoc ⟨.act (.close rfl Nat.one_pos), calm_other rfl fun _ => id⟩
    |>.snoc ⟨.quit rfl rfl Nat.one_pos rfl, calm_monitor⟩
  exact ⟨_, _, _, _, hlocal.mono fun h => h.1, rfl, rfl, hnetwork.mono fun h => h.1, rfl, rfl,
    not_recorded (hlocal.mono fun h => ⟨h.1, h.2.clean, h.2.undisturbed⟩) hnetwork⟩

/-- One holder is enough: the monitor has found the flag unset, `stop()` sets it and ends
the holder, and the monitor reports it. -/
theorem recorded_by_stop :
    (∃ events s, Run (Guarded (Step (DistributedTrustGroup.stopSystem 1 1))
        (Clean (DistributedTrustGroup.stopSystem 1 1)))
        (start (DistributedTrustGroup.stopStart [(1, [5])])) events s ∧
      s.tally.compromised = {0} ∧ s.tally.killed = true) ∧
    ∃ events s, Run (Guarded (Step (NetworkTrustGroup.stopSystem [(1, [5])] 1 1 100))
        (Clean (NetworkTrustGroup.stopSystem [(1, [5])] 1 1 100)))
        (start NetworkTrustGroup.stopStart) events s ∧
      s.tally.compromised = {0} ∧ s.tally.killed = true := by
  constructor
  · have hrun := Run.refl (Guarded (Step (DistributedTrustGroup.stopSystem 1 1))
        (Clean (DistributedTrustGroup.stopSystem 1 1)))
        (start (DistributedTrustGroup.stopStart [(1, [5])]))
      |>.snoc ⟨.loop rfl rfl rfl, nofun⟩
      |>.snoc ⟨.go rfl rfl Nat.one_pos rfl, nofun⟩
      |>.snoc ⟨.test rfl rfl (Finset.notMem_empty 0), nofun⟩
      -- the monitor has found the flag unset, and now `stop()` sets it
      |>.snoc ⟨.flag rfl rfl, nofun⟩
      |>.snoc ⟨.act (.watchdog rfl Nat.one_pos), fun _ _ _ _ => rfl⟩
      |>.snoc ⟨.act (.watchdogs rfl), fun _ _ _ _ => rfl⟩
      |>.snoc ⟨.act (.send rfl Nat.one_pos), fun _ _ _ _ => rfl⟩
      |>.snoc ⟨.act (.serve (i := 0) rfl), fun _ _ _ _ => rfl⟩
      |>.snoc ⟨.dead rfl rfl (.dead rfl), nofun⟩
      |>.snoc ⟨.mark rfl rfl (show Mark.check ≠ .done by decide), nofun⟩
      |>.snoc ⟨.mark rfl rfl (show Mark.add ≠ .done by decide), nofun⟩
      |>.snoc ⟨.mark rfl rfl (show Mark.guard ≠ .done by decide), nofun⟩
      |>.snoc ⟨.mark rfl rfl (show Mark.compare ≠ .done by decide), nofun⟩
      |>.snoc ⟨.mark rfl rfl (show Mark.trigger ≠ .done by decide), nofun⟩
      |>.snoc ⟨.mark rfl rfl (show Mark.kill ≠ .done by decide), nofun⟩
    exact ⟨_, _, hrun, rfl, rfl⟩
  · have hrun := Run.refl (Guarded (Step (NetworkTrustGroup.stopSystem [(1, [5])] 1 1 100))
        (Clean (NetworkTrustGroup.stopSystem [(1, [5])] 1 1 100)))
        (start NetworkTrustGroup.stopStart)
      |>.snoc ⟨.loop rfl rfl rfl, nofun⟩
      |>.snoc ⟨.go rfl rfl Nat.one_pos rfl, nofun⟩
      |>.snoc ⟨.test rfl rfl (Finset.notMem_empty 0), nofun⟩
      |>.snoc ⟨.flag rfl rfl, nofun⟩
      |>.snoc ⟨.act (.close rfl Nat.one_pos), fun _ _ _ _ => rfl⟩
      |>.snoc ⟨.more rfl rfl .acquire, nofun⟩
      |>.snoc ⟨.dead rfl rfl (.dead .sendError rfl), nofun⟩
      |>.snoc ⟨.mark rfl rfl (show Mark.check ≠ .done by decide), nofun⟩
      |>.snoc ⟨.mark rfl rfl (show Mark.add ≠ .done by decide), nofun⟩
      |>.snoc ⟨.mark rfl rfl (show Mark.guard ≠ .done by decide), nofun⟩
      |>.snoc ⟨.mark rfl rfl (show Mark.compare ≠ .done by decide), nofun⟩
      |>.snoc ⟨.mark rfl rfl (show Mark.trigger ≠ .done by decide), nofun⟩
      |>.snoc ⟨.mark rfl rfl (show Mark.kill ≠ .done by decide), nofun⟩
    exact ⟨_, _, hrun, rfl, rfl⟩

end CleanStop
