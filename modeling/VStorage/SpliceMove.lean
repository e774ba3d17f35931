/-
`splice_stealth.py`: data moved from one pipe to the other, and collected.

A thread feeds the first pipe, the caller splices from it into the second, and another thread
drains that one.  How much a call moves, who moves next, and which of `os.splice`, `os.write` and
`os.read` fails with what exception is up to the system; an exception ends the part of the program
that it is raised in.  Creating the pipes and starting the threads do not fail.

* `collected`: as long as the reader does not fail, every run comes to its end.  Nothing is lost
  on the way, the result is the data or the first exception, and no end of a pipe stays open, but
  for the last one when `os.splice` has failed.
* `cut_short`: when only the reader fails, nobody hears of it.  If what is on its way fits in the
  second pipe, the call returns what has been received so far; else it never returns.
-/
import Mathlib
import VStorage.Py
import VStorage.Runs

namespace SpliceMove

/-! ### The threads -/

/-- `CHUNK`. -/
def chunk : ℕ := 64 * 1024

/-- A call of `splice_move`, and how many bytes its pipes take. -/
structure Move where
  data : Bytes
  srcCapacity : ℕ+
  dstCapacity : ℕ+

/-- The line of `splice_move` that comes next.  An exception from the loop goes through the
`os.close` of the `finally` and comes out as `failed`; `raised` is `raise errors[0]`. -/
inductive Main
  | startWriter
  | startReader
  | splicing (remaining : ℕ)
  | closeRead (raising : Option PyError)
  | closeWrite (raising : Option PyError)
  | joinWriter
  | joinReader
  | closeLast
  | returned (result : Bytes)
  | raised (e : PyError)
  | failed (e : PyError)

/-- Where `_feed` is. -/
inductive Feeder
  | unborn
  | feeding
  | closing
  | ended

/-- Where `drain_and_keep` is. -/
inductive Reader
  | unborn
  | draining
  | ended

/-- What can fail. -/
inductive Part
  | feeder
  | splice
  | reader
  deriving DecidableEq

structure State where
  main : Main
  feeder : Feeder
  reader : Reader
  pos : ℕ
  src : Bytes
  dst : Bytes
  received : Bytes
  errors : List PyError

def start : State := ⟨.startWriter, .unborn, .unborn, 0, [], [], [], []⟩

/-! The threads have the file descriptors in common, and each end is closed in one place. -/

inductive PipeEnd
  | srcR
  | srcW
  | dstR
  | dstW

@[simp] def Main.srcR : Main → Bool
  | .startWriter | .startReader | .splicing _ | .closeRead _ => true
  | _ => false

@[simp] def Main.dstW : Main → Bool
  | .startWriter | .startReader | .splicing _ | .closeRead _ | .closeWrite _ => true
  | _ => false

def Main.dstR : Main → Bool
  | .returned _ | .raised _ => false
  | _ => true

@[simp] def Feeder.srcW : Feeder → Bool
  | .ended => false
  | _ => true

def State.isOpen (s : State) : PipeEnd → Bool
  | .srcR => s.main.srcR
  | .srcW => s.feeder.srcW
  | .dstR => s.main.dstR
  | .dstW => s.main.dstW

/-- Who moves, or what fails. -/
inductive Event
  | main
  | feeder
  | reader
  | fault (part : Part) (e : PyError)

def Event.faults (part : Part) : Event → List PyError
  | .fault part' e => if part' = part then [e] else []
  | _ => []

/-- The exceptions of one part, from first to last. -/
def faults (events : List Event) (part : Part) : List PyError :=
  events.flatMap (Event.faults part)

/-- One step; `os.pipe` has returned both pipes, and `Thread.start` does not raise. -/
inductive Step (mv : Move) : State → Event → State → Prop
  -- `splice_move`
  | startWriter {s : State} : s.main = .startWriter →
      Step mv s .main { s with main := .startReader, feeder := .feeding }
  | startReader {s : State} : s.main = .startReader →
      Step mv s .main { s with main := .splicing mv.data.length, reader := .draining }
  -- `os.splice` waits until there is something in the one pipe, and room in the other
  | splice {s : State} {remaining n : ℕ} : s.main = .splicing remaining → 0 < n →
      n ≤ min chunk remaining → n ≤ s.src.length → s.dst.length + n ≤ mv.dstCapacity →
      Step mv s .main { s with
        main := .splicing (remaining - n), src := s.src.drop n, dst := s.dst ++ s.src.take n }
  | endOfSource {s : State} {remaining : ℕ} : s.main = .splicing remaining → 0 < remaining →
      s.src = [] → s.feeder.srcW = false → Step mv s .main { s with main := .closeRead none }
  | spliced {s : State} : s.main = .splicing 0 →
      Step mv s .main { s with main := .closeRead none }
  | spliceFails {s : State} {remaining : ℕ} {e : PyError} : s.main = .splicing remaining →
      0 < remaining → Step mv s (.fault .splice e) { s with main := .closeRead (some e) }
  | closeRead {s : State} {raising : Option PyError} : s.main = .closeRead raising →
      Step mv s .main { s with main := .closeWrite raising }
  | closeWrite {s : State} : s.main = .closeWrite none →
      Step mv s .main { s with main := .joinWriter }
  | fail {s : State} {e : PyError} : s.main = .closeWrite (some e) →
      Step mv s .main { s with main := .failed e }
  | joinWriter {s : State} : s.main = .joinWriter → s.feeder = .ended →
      Step mv s .main { s with main := .joinReader }
  | joinReader {s : State} : s.main = .joinReader → s.reader = .ended →
      Step mv s .main { s with main := .closeLast }
  | raise {s : State} {e : PyError} {more : List PyError} : s.main = .closeLast →
      s.errors = e :: more → Step mv s .main { s with main := .raised e }
  | ret {s : State} : s.main = .closeLast → s.errors = [] →
      Step mv s .main { s with main := .returned s.received }
  -- `_feed`; `os.write` waits for room, and takes some of the slice it is given
  | write {s : State} {n : ℕ} : s.feeder = .feeding → s.pos < mv.data.length →
      s.main.srcR = true → 0 < n → n ≤ ((mv.data.drop s.pos).take chunk).length →
      s.src.length + n ≤ mv.srcCapacity →
      Step mv s .feeder { s with
        pos := s.pos + n, src := s.src ++ (mv.data.drop s.pos).take n }
  | brokenPipe {s : State} : s.feeder = .feeding → s.pos < mv.data.length →
      s.main.srcR = false →
      Step mv s .feeder { s with feeder := .closing, errors := s.errors ++ [.osError] }
  | feedFails {s : State} {e : PyError} : s.feeder = .feeding → s.pos < mv.data.length →
      Step mv s (.fault .feeder e) { s with feeder := .closing, errors := s.errors ++ [e] }
  | fed {s : State} : s.feeder = .feeding → ¬ s.pos < mv.data.length →
      Step mv s .feeder { s with feeder := .closing }
  | closeSource {s : State} : s.feeder = .closing →
      Step mv s .feeder { s with feeder := .ended }
  -- `drain_and_keep`; `os.read` waits while the pipe is empty and its other end open
  | read {s : State} {n : ℕ} : s.reader = .draining → 0 < n → n ≤ chunk → n ≤ s.dst.length →
      Step mv s .reader { s with
        received := s.received ++ s.dst.take n, dst := s.dst.drop n }
  | endOfFile {s : State} : s.reader = .draining → s.dst = [] → s.main.dstW = false →
      Step mv s .reader { s with reader := .ended }
  -- what was read, if anything, may not have got into `received`; nobody looks at the exception
  | readFails {s : State} {n : ℕ} {e : PyError} : s.reader = .draining → n ≤ chunk →
      n ≤ s.dst.length →
      Step mv s (.fault .reader e) { s with reader := .ended, dst := s.dst.drop n }

/-! ### What is on its way -/

/-- What has not been read, in order.  Bytes in a pipe that is closed still count. -/
def State.ahead (mv : Move) (s : State) : Bytes := s.dst ++ s.src ++ mv.data.drop s.pos

/-- How far `splice_move` is. -/
@[simp] def Main.line : Main → ℕ
  | .startWriter => 0
  | .startReader => 1
  | .splicing _ => 2
  | .closeRead _ => 3
  | .closeWrite _ => 4
  | .joinWriter => 5
  | .joinReader => 6
  | .closeLast => 7
  | .returned _ | .raised _ | .failed _ => 8

/-- How many bytes are still to be spliced. -/
def Main.remaining (mv : Move) : Main → ℕ
  | .startWriter | .startReader => mv.data.length
  | .splicing remaining => remaining
  | _ => 0

/-- The exception that ended the loop. -/
@[simp] def Main.failure : Main → List PyError
  | .closeRead raising | .closeWrite raising => raising.toList
  | .failed e => [e]
  | _ => []

/-- The loop came to its end, or to the end of the first pipe. -/
@[simp] def Main.through : Main → Bool
  | .closeRead raising | .closeWrite raising => raising.isNone
  | .joinWriter | .joinReader | .closeLast | .returned _ | .raised _ => true
  | _ => false

/-- How many threads have been joined. -/
@[simp] def Main.joined : Main → ℕ
  | .joinReader => 1
  | .closeLast | .returned _ | .raised _ => 2
  | _ => 0

/-- The result is what the threads have left. -/
def Main.Outcome (received : Bytes) (errors : List PyError) : Main → Prop
  | .returned result => result = received ∧ errors = []
  | .raised e => errors.head? = some e
  | _ => True

/-- What `_feed` has done, by where it is. -/
def Feeder.Fed (len pos : ℕ) (errors : List PyError) : Feeder → Prop
  | .unborn | .feeding => errors = []
  | .closing | .ended => pos = len ∨ errors ≠ []

/-- The invariant, by the exceptions that there have been. -/
structure Inv (mv : Move) (faults : Part → List PyError) (s : State) : Prop where
  conserved : ∃ lost, s.received ++ (lost ++ s.ahead mv) = mv.data ∧
    (faults .reader = [] → lost = [])
  pos_le : s.pos ≤ mv.data.length
  feederBorn : s.feeder = .unborn ↔ s.main.line = 0
  readerBorn : s.reader = .unborn ↔ s.main.line ≤ 1
  remaining : s.main.line ≤ 2 →
    s.main.remaining mv = s.src.length + (mv.data.length - s.pos)
  through : s.main.through = true → s.src = [] ∧ (s.pos = mv.data.length ∨ s.errors ≠ [])
  failure : faults .splice = s.main.failure
  feederJoined : 1 ≤ s.main.joined → s.feeder = .ended
  readerJoined : 2 ≤ s.main.joined → s.reader = .ended
  outcome : s.main.Outcome s.received s.errors
  fed : s.feeder.Fed mv.data.length s.pos s.errors
  errors : faults .splice = [] → s.errors = faults .feeder
  drained : s.reader = .ended → faults .reader ≠ [] ∨ s.dst = [] ∧ s.main.dstW = false
  lost : faults .reader ≠ [] → s.reader = .ended
  dst_le : s.dst.length ≤ mv.dstCapacity

variable {mv : Move} {events : List Event} {event : Event} {s s' : State}
  {fs : Part → List PyError}

theorem faults_concat (events : List Event) (event : Event) :
    faults (events ++ [event]) = fun part => faults events part ++ event.faults part := by
  funext part
  rw [faults, List.flatMap_append, List.flatMap_singleton]
  rfl

theorem inv_start (mv : Move) : Inv mv (faults []) start where
  conserved := ⟨[], rfl, fun _ => rfl⟩
  pos_le := Nat.zero_le _
  feederBorn := iff_of_true rfl rfl
  readerBorn := iff_of_true rfl (Nat.zero_le 1)
  remaining _ := (Nat.zero_add _).symm
  through h := absurd h Bool.false_ne_true
  failure := rfl
  feederJoined h := absurd h (by decide)
  readerJoined h := absurd h (by decide)
  outcome := trivial
  fed := rfl
  errors _ := rfl
  drained h := by cases h
  lost h := absurd rfl h
  dst_le := Nat.zero_le _

/-- What is spliced stays on its way. -/
theorem ahead_splice (mv : Move) (s : State) (main : Main) (n : ℕ) :
    State.ahead mv { s with main := main, src := s.src.drop n, dst := s.dst ++ s.src.take n }
      = s.ahead mv := by
  show s.dst ++ s.src.take n ++ s.src.drop n ++ _ = s.dst ++ s.src ++ _
  rw [List.append_assoc s.dst, List.take_append_drop]

/-- So is what is written. -/
theorem ahead_write (mv : Move) (s : State) (n : ℕ) :
    State.ahead mv { s with pos := s.pos + n, src := s.src ++ (mv.data.drop s.pos).take n }
      = s.ahead mv := by
  show s.dst ++ (s.src ++ (mv.data.drop s.pos).take n) ++ mv.data.drop (s.pos + n)
    = s.dst ++ s.src ++ mv.data.drop s.pos
  rw [← List.drop_drop, ← List.append_assoc, List.append_assoc _ (List.take n _),
    List.take_append_drop]

/-- What is read leaves it at the front. -/
theorem ahead_read (mv : Move) (s : State) (reader : Reader) (received : Bytes) (n : ℕ) :
    s.dst.take n ++ State.ahead mv
        { s with reader := reader, received := received, dst := s.dst.drop n } = s.ahead mv := by
  show s.dst.take n ++ (s.dst.drop n ++ s.src ++ _) = s.dst ++ s.src ++ _
  rw [List.append_assoc, ← List.append_assoc (s.dst.take n), List.take_append_drop,
    List.append_assoc]

/-- The read end of the first pipe is closed after the loop. -/
theorem Main.failure_ne_nil {main : Main} (hclosed : main.srcR = false)
    (hthrough : main.through = false) : main.failure ≠ [] := by
  cases main with
  | closeWrite raising => cases raising <;> simp_all
  | _ => simp_all

/-- The caller goes on, when both threads are born. -/
theorem Inv.ofMain (h : Inv mv fs s) {main : Main} (hborn : 2 ≤ s.main.line)
    (hline : 3 ≤ main.line)
    (hthrough : main.through = true → s.src = [] ∧ (s.pos = mv.data.length ∨ s.errors ≠ []))
    (hfailure : s.main.failure = main.failure)
    (hfeeder : 1 ≤ main.joined → s.feeder = .ended)
    (hreader : 2 ≤ main.joined → s.reader = .ended)
    (houtcome : main.Outcome s.received s.errors)
    (hdstW : s.main.dstW = false → main.dstW = false) :
    Inv mv fs { s with main := main } :=
  { h with
    feederBorn := iff_of_false (fun hf => by have := h.feederBorn.mp hf; omega)
      (show ¬ main.line = 0 by omega)
    readerBorn := iff_of_false (fun hr => by have := h.readerBorn.mp hr; omega)
      (show ¬ main.line ≤ 1 by omega)
    remaining := fun hle => absurd (show main.line ≤ 2 from hle) (by omega)
    through := hthrough
    failure := h.failure.trans hfailure
    feederJoined := hfeeder
    readerJoined := hreader
    outcome := houtcome
    drained := fun hr => (h.drained hr).imp_right fun ⟨hdst, hw⟩ => ⟨hdst, hdstW hw⟩ }

/-- While `_feed` has something to write, the loop has not got through, and nobody has been
joined. -/
theorem Inv.feeding (h : Inv mv fs s) (hfeeder : s.feeder = .feeding)
    (hlt : s.pos < mv.data.length) :
    s.errors = [] ∧ s.main.through = false ∧ s.main.joined = 0 ∧ s.main.line ≠ 0 := by
  have herrors : s.errors = [] := by
    have hfed := h.fed
    rwa [hfeeder] at hfed
  refine ⟨herrors, Bool.eq_false_iff.mpr fun hthrough => ?_, ?_, fun hline => ?_⟩
  · rcases (h.through hthrough).2 with hpos | hne
    · omega
    · exact hne herrors
  · by_contra hjoined
    have hended := h.feederJoined (Nat.one_le_iff_ne_zero.mpr hjoined)
    rw [hfeeder] at hended
    cases hended
  · have hunborn := h.feederBorn.mpr hline
    rw [hfeeder] at hunborn
    cases hunborn

/-- A result comes after both threads have been joined. -/
theorem Main.outcome_of_joined {main : Main} (h : main.joined ≠ 2) (received : Bytes)
    (errors : List PyError) : main.Outcome received errors := by
  cases main with
  | returned => exact absurd rfl h
  | raised => exact absurd rfl h
  | _ => trivial

theorem Inv.reading (h : Inv mv fs s) (hreader : s.reader = .draining) :
    fs .reader = [] ∧ s.main.joined ≠ 2 ∧ ¬ s.main.line ≤ 1 := by
  refine ⟨?_, fun hjoined => ?_, fun hline => ?_⟩
  · by_contra hlost
    have hended := h.lost hlost
    rw [hreader] at hended
    cases hended
  · have hended := h.readerJoined hjoined.ge
    rw [hreader] at hended
    cases hended
  · have hunborn := h.readerBorn.mpr hline
    rw [hreader] at hunborn
    cases hunborn

theorem Inv.feeder_born (h : Inv mv fs s) (hborn : s.feeder ≠ .unborn) : s.main.line ≠ 0 :=
  fun hline => hborn (h.feederBorn.mpr hline)

/-- No exception. -/
theorem Inv.calm (h : Inv mv fs s) (hevent : ∀ part, event.faults part = []) :
    Inv mv (fun part => fs part ++ event.faults part) s := by
  have hsame : (fun part => fs part ++ event.faults part) = fs :=
    funext fun part => by rw [hevent, List.append_nil]
  rwa [hsame]

/-- An exception of another part. -/
theorem faults_other (fs : Part → List PyError) {part part' : Part} (hne : part ≠ part')
    (e : PyError) : fs part' ++ Event.faults part' (.fault part e) = fs part' := by
  rw [Event.faults, if_neg hne, List.append_nil]

/-! ### One step -/

theorem Inv.startWriter (h : Inv mv fs s) (hmain : s.main = .startWriter) :
    Inv mv fs { s with main := .startReader, feeder := .feeding } := by
  have hunborn := h.feederBorn.mpr (by simp [hmain])
  have hremaining := h.remaining (by simp [hmain])
  have hfailure := h.failure
  have hfed := h.fed
  have hreader := h.readerBorn.mpr (by simp [hmain])
  rw [hmain] at hremaining hfailure
  rw [hunborn] at hfed
  exact { h with
    feederBorn := by simp
    readerBorn := by simp [hreader]
    remaining := fun _ => hremaining
    through := by simp
    failure := hfailure
    feederJoined := by simp
    readerJoined := by simp
    outcome := trivial
    fed := hfed
    drained := by simp [hreader] }

theorem Inv.startReader (h : Inv mv fs s) (hmain : s.main = .startReader) :
    Inv mv fs { s with main := .splicing mv.data.length, reader := .draining } := by
  have hremaining := h.remaining (by simp [hmain])
  have hfailure := h.failure
  have hreader := h.readerBorn.mpr (by simp [hmain])
  rw [hmain] at hremaining hfailure
  exact { h with
    feederBorn := by simpa [hmain] using h.feederBorn
    readerBorn := by simp
    remaining := fun _ => hremaining
    through := by simp
    failure := hfailure
    feederJoined := by simp
    readerJoined := by simp
    outcome := trivial
    drained := by simp
    lost := fun hlost => by
      have hended := h.lost hlost
      rw [hreader] at hended
      cases hended }

theorem Inv.splice (h : Inv mv fs s) {remaining n : ℕ} (hmain : s.main = .splicing remaining)
    (hsrc : n ≤ s.src.length) (hroom : s.dst.length + n ≤ mv.dstCapacity) :
    Inv mv fs { s with
      main := .splicing (remaining - n), src := s.src.drop n, dst := s.dst ++ s.src.take n } := by
  have hremaining := h.remaining (by simp [hmain])
  have hfailure := h.failure
  have hdrained := h.drained
  rw [hmain] at hremaining hfailure hdrained
  have hleft : remaining = s.src.length + (mv.data.length - s.pos) := hremaining
  exact { h with
    conserved := by
      rw [ahead_splice]
      exact h.conserved
    feederBorn := by simpa [hmain] using h.feederBorn
    readerBorn := by simpa [hmain] using h.readerBorn
    remaining := fun _ => by
      show remaining - n = (s.src.drop n).length + (mv.data.length - s.pos)
      rw [List.length_drop]
      omega
    through := by simp
    failure := hfailure
    feederJoined := by simp
    readerJoined := by simp
    outcome := trivial
    drained := fun hended => (hdrained hended).imp_right fun hdst => by simp at hdst
    dst_le := by
      show (s.dst ++ s.src.take n).length ≤ _
      rw [List.length_append, List.length_take]
      omega }

theorem Inv.spliceFails (h : Inv mv fs s) {remaining : ℕ} {e : PyError}
    (hmain : s.main = .splicing remaining) :
    Inv mv (fun part => fs part ++ Event.faults part (.fault .splice e))
      { s with main := .closeRead (some e) } := by
  have hfailure := h.failure
  have hreader := faults_other fs (show Part.splice ≠ .reader by decide) e
  rw [hmain] at hfailure
  have hnone : fs .splice = [] := hfailure
  exact { h with
    conserved := by
      rw [hreader]
      exact h.conserved
    feederBorn := by simpa [hmain] using h.feederBorn
    readerBorn := by simpa [hmain] using h.readerBorn
    remaining := by simp
    through := by simp
    failure := by simp [hnone, Event.faults]
    feederJoined := by simp
    readerJoined := by simp
    outcome := trivial
    errors := by simp [hnone, Event.faults]
    drained := fun hended => by
      rw [hreader]
      refine (h.drained hended).imp_right fun hdst => ?_
      simp [hmain] at hdst
    lost := by
      rw [hreader]
      exact h.lost }

/-- The loop is over when all has been spliced, or when there is nothing more to come. -/
theorem Inv.spliced (h : Inv mv fs s) {remaining : ℕ} (hmain : s.main = .splicing remaining)
    (hend : remaining = 0 ∨ s.src = [] ∧ s.feeder.srcW = false) :
    Inv mv fs { s with main := .closeRead none } := by
  have hremaining := h.remaining (by simp [hmain])
  have hpos := h.pos_le
  have hfed := h.fed
  rw [hmain] at hremaining
  have hleft : remaining = s.src.length + (mv.data.length - s.pos) := hremaining
  refine h.ofMain (by simp [hmain]) le_rfl (fun _ => ?_) (by simp [hmain]) (by simp) (by simp)
    trivial (by simp [hmain])
  rcases hend with hzero | ⟨hsrc, hclosed⟩
  · exact ⟨List.eq_nil_of_length_eq_zero (by omega), Or.inl (by omega)⟩
  · have hended : s.feeder = .ended := by cases hfeeder : s.feeder <;> simp_all
    rw [hended] at hfed
    exact ⟨hsrc, hfed⟩

/-- The caller goes on past its loop. -/
theorem Inv.past (h : Inv mv fs s) {main : Main} (hline : 3 ≤ s.main.line)
    (hline' : 3 ≤ main.line) (hthrough : main.through = true → s.main.through = true)
    (hfailure : s.main.failure = main.failure)
    (hfeeder : 1 ≤ main.joined → s.feeder = .ended)
    (hreader : 2 ≤ main.joined → s.reader = .ended)
    (houtcome : main.Outcome s.received s.errors)
    (hdstW : s.main.dstW = false → main.dstW = false) : Inv mv fs { s with main := main } :=
  h.ofMain (by omega) hline' (fun hmain => h.through (hthrough hmain)) hfailure hfeeder hreader
    houtcome hdstW

theorem Inv.write (h : Inv mv fs s) {n : ℕ} (hfeeder : s.feeder = .feeding)
    (hlt : s.pos < mv.data.length) (hslice : n ≤ ((mv.data.drop s.pos).take chunk).length) :
    Inv mv fs { s with pos := s.pos + n, src := s.src ++ (mv.data.drop s.pos).take n } := by
  obtain ⟨herrors, hthrough, hjoined, -⟩ := h.feeding hfeeder hlt
  rw [List.length_take, List.length_drop] at hslice
  exact { h with
    conserved := by
      rw [ahead_write]
      exact h.conserved
    pos_le := by
      show s.pos + n ≤ _
      omega
    remaining := fun hline => by
      have hremaining := h.remaining hline
      show s.main.remaining mv = (s.src ++ (mv.data.drop s.pos).take n).length
        + (mv.data.length - (s.pos + n))
      rw [List.length_append, List.length_take, List.length_drop]
      omega
    through := fun heq => absurd (hthrough.symm.trans heq) Bool.false_ne_true
    fed := by
      show s.feeder.Fed _ _ _
      rw [hfeeder]
      exact herrors }

/-- `_feed` notes an exception, its own or that of a pipe without a reader. -/
theorem Inv.feederFails (h : Inv mv fs s) {fs' : Part → List PyError} {e : PyError}
    (hfeeder : s.feeder = .feeding) (hlt : s.pos < mv.data.length)
    (hsplice : fs' .splice = fs .splice) (hreader : fs' .reader = fs .reader)
    (herrors : fs .splice = [] → s.errors ++ [e] = fs' .feeder) :
    Inv mv fs' { s with feeder := .closing, errors := s.errors ++ [e] } := by
  obtain ⟨-, hthrough, hjoined, hline⟩ := h.feeding hfeeder hlt
  have hne : s.errors ++ [e] ≠ [] := by simp
  exact { h with
    conserved := by
      rw [hreader]
      exact h.conserved
    feederBorn := iff_of_false Feeder.noConfusion hline
    through := fun heq => absurd (hthrough.symm.trans heq) Bool.false_ne_true
    failure := hsplice.trans h.failure
    feederJoined := fun (hle : 1 ≤ s.main.joined) => absurd hle (by omega)
    outcome := Main.outcome_of_joined (show s.main.joined ≠ 2 by omega) _ _
    fed := Or.inr hne
    errors := fun hnone => herrors (hsplice.symm.trans hnone)
    drained := by
      rw [hreader]
      exact h.drained
    lost := by
      rw [hreader]
      exact h.lost }

theorem Inv.fed_all (h : Inv mv fs s) (hfeeder : s.feeder = .feeding)
    (hge : ¬ s.pos < mv.data.length) : Inv mv fs { s with feeder := .closing } := by
  have hline := h.feeder_born (by simp [hfeeder])
  have hpos := h.pos_le
  exact { h with
    feederBorn := iff_of_false Feeder.noConfusion hline
    feederJoined := fun hle => by
      have hended := h.feederJoined hle
      rw [hfeeder] at hended
      cases hended
    fed := Or.inl (show s.pos = mv.data.length by omega) }

theorem Inv.closeSource (h : Inv mv fs s) (hfeeder : s.feeder = .closing) :
    Inv mv fs { s with feeder := .ended } := by
  have hfed := h.fed
  have hline := h.feeder_born (by simp [hfeeder])
  rw [hfeeder] at hfed
  exact { h with
    feederBorn := iff_of_false Feeder.noConfusion hline
    feederJoined := fun _ => rfl
    fed := hfed }

theorem Inv.read (h : Inv mv fs s) {n : ℕ} (hreader : s.reader = .draining) :
    Inv mv fs { s with received := s.received ++ s.dst.take n, dst := s.dst.drop n } := by
  obtain ⟨hnone, hjoined, -⟩ := h.reading hreader
  obtain ⟨lost, hconserved, hlost⟩ := h.conserved
  have hle := h.dst_le
  exact { h with
    conserved := by
      obtain rfl := hlost hnone
      refine ⟨[], ?_, fun _ => rfl⟩
      rw [← hconserved, ← ahead_read mv s s.reader (s.received ++ s.dst.take n) n]
      exact List.append_assoc ..
    outcome := Main.outcome_of_joined hjoined _ _
    drained := by simp [hreader]
    dst_le := by
      show (s.dst.drop n).length ≤ _
      rw [List.length_drop]
      omega }

theorem Inv.endOfFile (h : Inv mv fs s) (hreader : s.reader = .draining) (hdst : s.dst = [])
    (hclosed : s.main.dstW = false) : Inv mv fs { s with reader := .ended } := by
  obtain ⟨-, -, hline⟩ := h.reading hreader
  exact { h with
    readerBorn := iff_of_false Reader.noConfusion hline
    readerJoined := fun _ => rfl
    drained := fun _ => Or.inr ⟨hdst, hclosed⟩
    lost := fun _ => rfl }

/-- What the reader has read and not kept is lost. -/
theorem Inv.readFails (h : Inv mv fs s) {n : ℕ} {e : PyError} (hreader : s.reader = .draining) :
    Inv mv (fun part => fs part ++ Event.faults part (.fault .reader e))
      { s with reader := .ended, dst := s.dst.drop n } := by
  obtain ⟨hnone, -, hline⟩ := h.reading hreader
  obtain ⟨lost, hconserved, hlost⟩ := h.conserved
  have hle := h.dst_le
  have hsplice := faults_other fs (show Part.reader ≠ .splice by decide) e
  have hfeeder := faults_other fs (show Part.reader ≠ .feeder by decide) e
  have hsome : fs .reader ++ Event.faults .reader (.fault .reader e) ≠ [] := by
    simp [Event.faults]
  exact { h with
    conserved := by
      obtain rfl := hlost hnone
      refine ⟨s.dst.take n, ?_, fun hempty => absurd hempty hsome⟩
      rw [← hconserved, ← ahead_read mv s .ended s.received n]
      rfl
    readerBorn := iff_of_false Reader.noConfusion hline
    failure := hsplice.trans h.failure
    readerJoined := fun _ => rfl
    errors := fun hempty => by
      rw [hsplice] at hempty
      rw [hfeeder]
      exact h.errors hempty
    drained := fun _ => Or.inl hsome
    lost := fun _ => rfl
    dst_le := by
      show (s.dst.drop n).length ≤ _
      rw [List.length_drop]
      omega }

/-- Every step keeps the invariant. -/
theorem Inv.step (h : Inv mv fs s) (hs : Step mv s event s') :
    Inv mv (fun part => fs part ++ event.faults part) s' := by
  cases hs with
  | startWriter hmain => exact (h.startWriter hmain).calm fun _ => rfl
  | startReader hmain => exact (h.startReader hmain).calm fun _ => rfl
  | splice hmain _ _ hsrc hroom => exact (h.splice hmain hsrc hroom).calm fun _ => rfl
  | endOfSource hmain _ hsrc hclosed =>
    exact (h.spliced hmain (Or.inr ⟨hsrc, hclosed⟩)).calm fun _ => rfl
  | spliced hmain => exact (h.spliced hmain (Or.inl rfl)).calm fun _ => rfl
  | spliceFails hmain => exact h.spliceFails hmain
  | closeRead hmain =>
    refine Inv.calm (h.past ?_ ?_ ?_ ?_ ?_ ?_ trivial ?_) fun _ => rfl <;> simp [hmain]
  | closeWrite hmain =>
    refine Inv.calm (h.past ?_ ?_ ?_ ?_ ?_ ?_ trivial ?_) fun _ => rfl <;> simp [hmain]
  | fail hmain =>
    refine Inv.calm (h.past ?_ ?_ ?_ ?_ ?_ ?_ trivial ?_) fun _ => rfl <;> simp [hmain]
  | joinWriter hmain hfeeder =>
    refine Inv.calm (h.past ?_ ?_ ?_ ?_ (fun _ => hfeeder) ?_ trivial ?_) fun _ => rfl <;>
      simp [hmain]
  | joinReader hmain hreader =>
    have hfeeder := h.feederJoined (by simp [hmain])
    refine Inv.calm (h.past ?_ ?_ ?_ ?_ (fun _ => hfeeder) (fun _ => hreader) trivial ?_)
      fun _ => rfl <;> simp [hmain]
  | raise hmain herrors =>
    have hfeeder := h.feederJoined (by simp [hmain])
    have hreader := h.readerJoined (by simp [hmain])
    have hfirst := congrArg List.head? herrors
    refine Inv.calm (h.past ?_ ?_ ?_ ?_ (fun _ => hfeeder) (fun _ => hreader) hfirst ?_)
      fun _ => rfl <;> simp [hmain]
  | ret hmain herrors =>
    have hfeeder := h.feederJoined (by simp [hmain])
    have hreader := h.readerJoined (by simp [hmain])
    refine Inv.calm (h.past ?_ ?_ ?_ ?_ (fun _ => hfeeder) (fun _ => hreader) ⟨rfl, herrors⟩ ?_)
      fun _ => rfl <;> simp [hmain]
  | write hfeeder hlt _ _ hslice => exact (h.write hfeeder hlt hslice).calm fun _ => rfl
  | brokenPipe hfeeder hlt hclosed =>
    refine Inv.calm (h.feederFails hfeeder hlt rfl rfl fun hnone => ?_) fun _ => rfl
    -- the read end was closed on the way to an exception
    have hthrough := (h.feeding hfeeder hlt).2.1
    exact absurd (h.failure.symm.trans hnone) (Main.failure_ne_nil hclosed hthrough)
  | @feedFails e hfeeder hlt =>
    refine h.feederFails hfeeder hlt (faults_other fs (by decide) e)
      (faults_other fs (by decide) e) fun hnone => ?_
    rw [h.errors hnone]
    rfl
  | fed hfeeder hge => exact (h.fed_all hfeeder hge).calm fun _ => rfl
  | closeSource hfeeder => exact (h.closeSource hfeeder).calm fun _ => rfl
  | read hreader => exact (h.read hreader).calm fun _ => rfl
  | endOfFile hreader hdst hclosed => exact (h.endOfFile hreader hdst hclosed).calm fun _ => rfl
  | readFails hreader => exact h.readFails hreader

theorem inv_of_run (hrun : Run (Step mv) start events s) : Inv mv (faults events) s := by
  refine hrun.history (I := fun events s => Inv mv (faults events) s) (inv_start mv) ?_
  intro events s event s' h hs
  rw [faults_concat]
  exact h.step hs

/-! ### The end -/

def Feeder.rank : Feeder → ℕ
  | .unborn => 3
  | .feeding => 2
  | .closing => 1
  | .ended => 0

def Reader.rank : Reader → ℕ
  | .unborn => 2
  | .draining => 1
  | .ended => 0

def State.rank (mv : Move) (s : State) : ℕ :=
  4 * (8 - s.main.line) + 2 * s.main.remaining mv + s.feeder.rank + s.reader.rank
    + (mv.data.length - s.pos) + s.dst.length

/-- What `splice_move` returns or raises. -/
def Main.result : Main → Option (Except PyError Bytes)
  | .returned result => some (.ok result)
  | .raised e | .failed e => some (.error e)
  | _ => none

/-- The call and both threads have come to their ends. -/
def State.Ended (s : State) : Prop :=
  s.main.result.isSome = true ∧ s.feeder = .ended ∧ s.reader = .ended

/-- No exception is raised. -/
def Event.Calm (event : Event) : Prop := ∀ part, event.faults part = []

/-- Every step brings the end nearer: a call that moves bytes moves a byte at least. -/
theorem Step.rank_lt (hs : Step mv s event s') : s'.rank mv < s.rank mv := by
  cases hs with
  | startWriter hmain | startReader hmain | splice hmain | endOfSource hmain | spliced hmain
  | spliceFails hmain | closeRead hmain | closeWrite hmain | fail hmain | joinWriter hmain
  | joinReader hmain | raise hmain | ret hmain =>
    have hfeeder : Feeder.feeding.rank = 2 := rfl
    have hreader : Reader.draining.rank = 1 := rfl
    simp only [State.rank, hmain, Main.line, Main.remaining, List.length_append,
      List.length_take]
    omega
  | write hfeeder | brokenPipe hfeeder | feedFails hfeeder | fed hfeeder
  | closeSource hfeeder =>
    simp only [State.rank, hfeeder, Feeder.rank]
    omega
  | read hreader | endOfFile hreader | readFails hreader =>
    simp only [State.rank, hreader, Reader.rank, List.length_drop]
    omega

/-- `_feed` goes on when there is room in its pipe, or nobody to read from it. -/
theorem feeder_moves (mv : Move) (hborn : s.feeder ≠ .unborn) (hended : s.feeder ≠ .ended)
    (hfree : s.main.srcR = false ∨ s.src = []) : ∃ s', Step mv s .feeder s' := by
  cases hfeeder : s.feeder with
  | unborn => exact absurd hfeeder hborn
  | feeding =>
    by_cases hlt : s.pos < mv.data.length
    · cases hopen : s.main.srcR with
      | false => exact ⟨_, .brokenPipe hfeeder hlt hopen⟩
      | true =>
        have hsrc : s.src = [] := hfree.resolve_left fun hclosed => by
          rw [hopen] at hclosed
          cases hclosed
        have hchunk : 1 ≤ chunk := by decide
        refine ⟨_, .write (n := 1) hfeeder hlt hopen one_pos ?_ ?_⟩
        · rw [List.length_take, List.length_drop]
          omega
        · simp [hsrc, Nat.one_le_iff_ne_zero]
    · exact ⟨_, .fed hfeeder hlt⟩
  | closing => exact ⟨_, .closeSource hfeeder⟩
  | ended => exact absurd hfeeder hended

/-- `drain_and_keep` goes on when there is something in its pipe, or nobody to write to it. -/
theorem reader_moves (mv : Move) (hreader : s.reader = .draining)
    (h : s.dst ≠ [] ∨ s.main.dstW = false) : ∃ s', Step mv s .reader s' := by
  by_cases hdst : s.dst = []
  · exact ⟨_, .endOfFile hreader hdst (h.resolve_left (by simp [hdst]))⟩
  · exact ⟨_, .read (n := 1) hreader one_pos (by decide) (List.length_pos_iff.mpr hdst)⟩

/-- A call that is past its loop waits for a thread, or is at its end. -/
theorem Inv.past_moves (h : Inv mv fs s) (hline : 5 ≤ s.main.line) :
    s.Ended ∨ ∃ event s', Step mv s event s' ∧ event.Calm := by
  have hfeeder : s.feeder ≠ .unborn := fun hf => by have := h.feederBorn.mp hf; omega
  have hreader : s.reader ≠ .unborn := fun hr => by have := h.readerBorn.mp hr; omega
  have hsrcR : s.main.srcR = false := by cases hmain : s.main <;> simp_all
  have hdstW : s.main.dstW = false := by cases hmain : s.main <;> simp_all
  by_cases hfended : s.feeder = .ended
  · by_cases hrended : s.reader = .ended
    · cases hmain : s.main with
      | joinWriter => exact Or.inr ⟨_, _, .joinWriter hmain hfended, fun _ => rfl⟩
      | joinReader => exact Or.inr ⟨_, _, .joinReader hmain hrended, fun _ => rfl⟩
      | closeLast =>
        cases herrors : s.errors with
        | nil => exact Or.inr ⟨_, _, .ret hmain herrors, fun _ => rfl⟩
        | cons e more => exact Or.inr ⟨_, _, .raise hmain herrors, fun _ => rfl⟩
      | returned | raised | failed => exact Or.inl ⟨by rw [hmain]; rfl, hfended, hrended⟩
      | _ => simp [hmain] at hline
    · have hdraining : s.reader = .draining := by cases hr : s.reader <;> simp_all
      obtain ⟨s', hs⟩ := reader_moves mv hdraining (Or.inr hdstW)
      exact Or.inr ⟨_, s', hs, fun _ => rfl⟩
  · obtain ⟨s', hs⟩ := feeder_moves mv hfeeder hfended (Or.inl hsrcR)
    exact Or.inr ⟨_, s', hs, fun _ => rfl⟩

/-- Nobody waits for good, unless the loop waits for room that a reader would have to make. -/
theorem Inv.progress (h : Inv mv fs s) (hroom : s.reader = .ended → s.main.line = 2 →
      s.src ≠ [] → s.dst.length < mv.dstCapacity) :
    s.Ended ∨ ∃ event s', Step mv s event s' ∧ event.Calm := by
  by_cases hpast : 5 ≤ s.main.line
  · exact h.past_moves hpast
  right
  cases hmain : s.main with
  | startWriter => exact ⟨_, _, .startWriter hmain, fun _ => rfl⟩
  | startReader => exact ⟨_, _, .startReader hmain, fun _ => rfl⟩
  | splicing remaining =>
    have hremaining := h.remaining (by simp [hmain])
    rw [hmain] at hremaining
    have hfeeder : s.feeder ≠ .unborn := fun hf => by simpa [hmain] using h.feederBorn.mp hf
    have hreader : s.reader ≠ .unborn := fun hr => by simpa [hmain] using h.readerBorn.mp hr
    rcases Nat.eq_zero_or_pos remaining with rfl | hpos
    · exact ⟨_, _, .spliced hmain, fun _ => rfl⟩
    by_cases hsrc : s.src = []
    -- there is more to come, or the end of the pipe
    · by_cases hended : s.feeder = .ended
      · exact ⟨_, _, .endOfSource hmain hpos hsrc (by simp [hended]), fun _ => rfl⟩
      · obtain ⟨s', hs⟩ := feeder_moves mv hfeeder hended (Or.inr hsrc)
        exact ⟨_, s', hs, fun _ => rfl⟩
    · by_cases hlt : s.dst.length < mv.dstCapacity
      · have hchunk : 1 ≤ chunk := by decide
        exact ⟨_, _, .splice (n := 1) hmain one_pos (by omega) (List.length_pos_iff.mpr hsrc) hlt,
          fun _ => rfl⟩
      -- the pipe is full, so that the reader has something to read
      · have hdst : s.dst ≠ [] := by
          intro hdst
          rw [hdst] at hlt
          exact hlt mv.dstCapacity.pos
        have hdraining : s.reader = .draining := by
          cases hr : s.reader with
          | unborn => exact absurd hr hreader
          | draining => rfl
          | ended => exact absurd (hroom hr (by simp [hmain]) hsrc) hlt
        obtain ⟨s', hs⟩ := reader_moves mv hdraining (Or.inl hdst)
        exact ⟨_, s', hs, fun _ => rfl⟩
  | closeRead raising => exact ⟨_, _, .closeRead hmain, fun _ => rfl⟩
  | closeWrite raising =>
    cases raising with
    | none => exact ⟨_, _, .closeWrite hmain, fun _ => rfl⟩
    | some e => exact ⟨_, _, .fail hmain, fun _ => rfl⟩
  | _ => simp [hmain] at hpast

/-- The result, or the first exception. -/
def answer (failures : List PyError) (data : Bytes) : Except PyError Bytes :=
  match failures with
  | [] => .ok data
  | e :: _ => .error e

/-- What the caller gets, when the loop has not failed, is what the threads have left. -/
theorem Inv.result_eq (h : Inv mv fs s) (hended : s.Ended) :
    s.main.result = some (answer (fs .splice ++ fs .feeder) s.received) ∧
      (fs .splice = [] → s.main.through = true ∧ s.main.dstR = false) ∧
      (fs .splice ≠ [] → s.main.dstR = true) := by
  obtain ⟨hresult, -, -⟩ := hended
  have hfailure := h.failure
  have hout := h.outcome
  cases hmain : s.main with
  | returned result =>
    rw [hmain] at hfailure hout
    have hnone : fs .splice = [] := hfailure
    obtain ⟨rfl, herrors⟩ := hout
    refine ⟨?_, fun _ => ⟨rfl, rfl⟩, fun hne => absurd hnone hne⟩
    rw [hnone, ← h.errors hnone, herrors]
    rfl
  | raised e =>
    rw [hmain] at hfailure hout
    have hnone : fs .splice = [] := hfailure
    refine ⟨?_, fun _ => ⟨rfl, rfl⟩, fun hne => absurd hnone hne⟩
    obtain ⟨more, hmore⟩ := List.head?_eq_some_iff.mp hout
    rw [hnone, ← h.errors hnone, hmore]
    rfl
  | failed e =>
    rw [hmain] at hfailure
    refine ⟨?_, fun hnone => ?_, fun _ => rfl⟩
    · rw [hfailure]
      rfl
    · rw [hnone] at hfailure
      cases hfailure
  | _ =>
    rw [hmain] at hresult
    cases hresult

theorem answer_congr {failures : List PyError} {data data' : Bytes}
    (h : failures = [] → data = data') : answer failures data = answer failures data' := by
  cases failures with
  | nil => rw [h rfl]
  | cons => rfl

theorem Main.closed_of_result {main : Main} (h : main.result.isSome = true) :
    main.srcR = false ∧ main.dstW = false := by
  cases main <;> simp_all [Main.result]

/-- When nothing has failed before, all is in the second pipe, or has been read. -/
theorem Inv.ahead_of_through (h : Inv mv fs s) (hsplice : fs .splice = [])
    (hfeeder : fs .feeder = []) (hthrough : s.main.through = true) : s.ahead mv = s.dst := by
  obtain ⟨hsrc, hpos⟩ := h.through hthrough
  have herrors : s.errors = [] := (h.errors hsplice).trans hfeeder
  have hall : s.pos = mv.data.length := hpos.resolve_right (absurd herrors)
  rw [State.ahead, hsrc, hall, List.drop_length, List.append_nil, List.append_nil]

/-- **What is collected.**  As long as the reader does not fail, whatever `os.splice` and `_feed`
raise, every run comes to its end.  What is received and what is on its way make up the data.  At
the end the caller gets the data, or the exception of `os.splice`, or else that of `_feed`; all
ends of the pipes have been closed, but the one that is closed last when it was `os.splice` that
failed. -/
theorem collected (mv : Move) :
    Inevitable (Guarded (Step mv) fun _ event => event.faults .reader = []) State.Ended start ∧
    ∀ (events : List Event) (s : State), Run (Step mv) start events s →
      faults events .reader = [] →
      s.received ++ s.ahead mv = mv.data ∧
      (s.Ended →
        s.main.result
          = some (answer (faults events .splice ++ faults events .feeder) mv.data) ∧
        ∀ x, s.isOpen x = true ↔ x = .dstR ∧ faults events .splice ≠ []) := by
  constructor
  · refine .of_rank (I := fun s => ∃ fs, Inv mv fs s ∧ fs .reader = []) (State.rank mv) ?_ ?_
      ⟨_, inv_start mv, rfl⟩
    · rintro s event s' ⟨fs, h, hnone⟩ ⟨hs, hevent⟩
      exact ⟨⟨_, h.step hs, by rw [hnone, hevent]; rfl⟩, hs.rank_lt⟩
    · rintro s ⟨fs, h, hnone⟩
      -- a reader that has ended has seen the other end of its pipe closed
      have hroom : s.reader = .ended → s.main.line = 2 → s.src ≠ [] →
          s.dst.length < mv.dstCapacity := by
        intro hended hline
        obtain hlost | ⟨-, hw⟩ := h.drained hended
        · exact absurd hnone hlost
        · cases hmain : s.main <;> simp_all
      exact (h.progress hroom).imp_right fun ⟨event, s', hs, hcalm⟩ =>
        ⟨event, s', hs, hcalm .reader⟩
  · intro events s hrun hnone
    have h := inv_of_run hrun
    obtain ⟨lost, hconserved, hlost⟩ := h.conserved
    obtain rfl := hlost hnone
    refine ⟨hconserved, fun hended => ?_⟩
    obtain ⟨hresult, hclosed, hleft⟩ := h.result_eq hended
    obtain ⟨hsome, hfeeder, hreader⟩ := hended
    obtain ⟨hsrcR, hdstW⟩ := Main.closed_of_result hsome
    refine ⟨?_, fun x => ?_⟩
    · rw [hresult, answer_congr fun hquiet => ?_]
      obtain ⟨hsplice, hfeed⟩ := List.append_eq_nil_iff.mp hquiet
      have hdst : s.dst = [] := ((h.drained hreader).resolve_left (absurd hnone)).1
      rw [← hconserved, h.ahead_of_through hsplice hfeed (hclosed hsplice).1, hdst]
      exact (List.append_nil _).symm
    · have hothers : x ≠ .dstR → s.isOpen x = false := by
        intro hx
        cases x with
        | srcR => exact hsrcR
        | srcW =>
          rw [State.isOpen, hfeeder]
          rfl
        | dstR => exact absurd rfl hx
        | dstW => exact hdstW
      constructor
      · intro hopen
        have hx : x = .dstR := by
          by_contra hx
          rw [hothers hx] at hopen
          cases hopen
        refine ⟨hx, fun hsplice => ?_⟩
        rw [hx, State.isOpen, (hclosed hsplice).2] at hopen
        cases hopen
      · rintro ⟨rfl, hsplice⟩
        exact hleft hsplice

/-- What holds on, once the reader has failed, as long as nothing else does. -/
structure Lost (mv : Move) (s t : State) : Prop where
  inv : ∃ fs, Inv mv fs t ∧ fs .feeder = [] ∧ fs .splice = []
  reader : t.reader = .ended
  received : t.received = s.received
  ahead : t.ahead mv = s.ahead mv

/-- Nobody reads any more; what is on its way stays there. -/
theorem Lost.step {u : State} (h : Lost mv u s) (hs : Step mv s event s')
    (hcalm : event.Calm) : Lost mv u s' := by
  obtain ⟨⟨fs, hinv, hfeeder, hsplice⟩, hreader, hreceived, hahead⟩ := h
  have hinv' : ∃ fs, Inv mv fs s' ∧ fs .feeder = [] ∧ fs .splice = [] :=
    ⟨_, hinv.step hs, by rw [hfeeder, hcalm]; rfl, by rw [hsplice, hcalm]; rfl⟩
  cases hs with
  | startReader hmain =>
    have hunborn := hinv.readerBorn.mpr (by simp [hmain])
    rw [hreader] at hunborn
    cases hunborn
  | splice => exact ⟨hinv', hreader, hreceived, (ahead_splice ..).trans hahead⟩
  | write => exact ⟨hinv', hreader, hreceived, (ahead_write ..).trans hahead⟩
  | read hdraining | endOfFile hdraining | readFails hdraining =>
    rw [hreader] at hdraining
    cases hdraining
  | _ => exact ⟨hinv', hreader, hreceived, hahead⟩

/-- A call that is not in its loop has got through, or failed. -/
theorem Main.cases_of_line {main : Main} (h : 2 ≤ main.line) :
    (∃ remaining, main = .splicing remaining) ∨ main.through = true ∨ main.failure ≠ [] := by
  cases main with
  | closeRead raising | closeWrite raising => cases raising <;> simp
  | _ => simp_all

/-- What is on its way fits in the second pipe: there is always room, and the call comes to its
end with what had been received. -/
theorem Lost.returns (h : Lost mv s s) (hfits : (s.ahead mv).length ≤ mv.dstCapacity) :
    Inevitable (Guarded (Step mv) fun _ event => event.Calm)
      (fun t => t.main = .returned s.received) s := by
  refine .of_rank (I := Lost mv s) (State.rank mv) ?_ ?_ h
  · rintro t event t' ht ⟨hs, hcalm⟩
    exact ⟨ht.step hs hcalm, hs.rank_lt⟩
  · intro t ht
    obtain ⟨⟨fs, hinv, hfeed, hspl⟩, hended, hreceived, hahead⟩ := ht
    have hroom : t.reader = .ended → t.main.line = 2 → t.src ≠ [] →
        t.dst.length < mv.dstCapacity := by
      intro _ _ hsrc
      have hlen := congrArg List.length hahead
      have hpos := List.length_pos_iff.mpr hsrc
      rw [State.ahead, List.length_append, List.length_append] at hlen
      omega
    obtain hend | ⟨event, t', hs, hcalm⟩ := hinv.progress hroom
    · left
      have hresult := (hinv.result_eq hend).1
      rw [hfeed, hspl, hreceived] at hresult
      cases hmain : t.main with
      | returned result =>
        rw [hmain] at hresult
        obtain rfl := Except.ok.inj (Option.some.inj hresult)
        rfl
      | _ =>
        rw [hmain] at hresult
        cases hresult
    · exact Or.inr ⟨event, t', hs, hcalm⟩

/-- It does not fit: nobody takes anything out, and the loop waits for room. -/
theorem Lost.stuck {t : State} (h : Lost mv s t) (hfull : mv.dstCapacity < (s.ahead mv).length) :
    ∃ remaining, t.main = .splicing remaining ∧ 0 < remaining := by
  obtain ⟨⟨fs, hinv, hfeed, hspl⟩, hended, -, hahead⟩ := h
  have hline : 2 ≤ t.main.line := by
    by_contra hlt
    have hunborn := hinv.readerBorn.mpr (by omega)
    rw [hended] at hunborn
    cases hunborn
  obtain ⟨remaining, hmain⟩ | hthrough | hfailed := Main.cases_of_line hline
  · have hremaining := hinv.remaining (by simp [hmain])
    have hlen := congrArg List.length hahead
    have hdst := hinv.dst_le
    rw [hmain] at hremaining
    have heq : remaining = t.src.length + (mv.data.length - t.pos) := hremaining
    rw [State.ahead, List.length_append, List.length_append, List.length_drop] at hlen
    exact ⟨remaining, hmain, by omega⟩
  -- all is in the second pipe, which is too small for that
  · have hdst := hinv.dst_le
    rw [← hahead, hinv.ahead_of_through hspl hfeed hthrough] at hfull
    omega
  · exact absurd (hinv.failure.symm.trans hspl) hfailed

/-- **A reader that fails.**  When nothing else fails, the caller does not hear of it.  Either
what is on its way fits in the second pipe, and the call returns, however it goes on, the beginning
of the data that had been received; or it does not fit, and the call is never through with its
loop. -/
theorem cut_short (hrun : Run (Step mv) start events s) (hreader : faults events .reader ≠ [])
    (hfeeder : faults events .feeder = []) (hsplice : faults events .splice = []) :
    s.received <+: mv.data ∧
    ((s.ahead mv).length ≤ mv.dstCapacity →
      Inevitable (Guarded (Step mv) fun _ event => event.Calm)
        (fun t => t.main = .returned s.received) s) ∧
    (mv.dstCapacity < (s.ahead mv).length →
      ∀ (later : List Event) (t : State),
        Run (Guarded (Step mv) fun _ event => event.Calm) s later t →
        ∃ remaining, t.main = .splicing remaining ∧ 0 < remaining) := by
  have h := inv_of_run hrun
  have hlost : Lost mv s s := ⟨⟨_, h, hfeeder, hsplice⟩, h.lost hreader, rfl, rfl⟩
  refine ⟨?_, hlost.returns, fun hfull later t hlater => ?_⟩
  · obtain ⟨lost, hconserved, -⟩ := h.conserved
    exact ⟨_, hconserved⟩
  · have ht : Lost mv s t := hlater.invariant hlost fun ht hs => ht.step hs.1 hs.2
    exact ht.stuck hfull

/-- Two bytes, pipes that take one, and a reader that fails at once. -/
theorem cut_short_sample :
    ([] : Bytes) <+: [1, 2] ∧ ∀ (later : List Event) (t : State),
      Run (Guarded (Step ⟨[1, 2], 1, 1⟩) fun _ event => event.Calm)
        ⟨.splicing 2, .feeding, .ended, 0, [], [], [], []⟩ later t →
      ∃ remaining, t.main = .splicing remaining ∧ 0 < remaining := by
  have hfails : Step ⟨[1, 2], 1, 1⟩ ⟨.splicing 2, .feeding, .draining, 0, [], [], [], []⟩
      (.fault .reader .memoryError) ⟨.splicing 2, .feeding, .ended, 0, [], [], [], []⟩ :=
    .readFails (n := 0) rfl (Nat.zero_le _) le_rfl
  have hrun : Run (Step ⟨[1, 2], 1, 1⟩) start [.main, .main, .fault .reader .memoryError]
      ⟨.splicing 2, .feeding, .ended, 0, [], [], [], []⟩ :=
    (Run.single (.startWriter rfl)).snoc (.startReader rfl) |>.snoc hfails
  obtain ⟨hbegin, -, hfull⟩ := cut_short hrun (by simp [faults, Event.faults])
    (by simp [faults, Event.faults]) (by simp [faults, Event.faults])
  exact ⟨hbegin, hfull (by decide)⟩

end SpliceMove
