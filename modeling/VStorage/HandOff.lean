/-
`sharing.py`: a piece handed from one process to another over a pipe.

The sender bounces the piece between its boxes, writes it into the pipe and clears the boxes;
the receiver reads until it has as many bytes as it expects, and bounces them in boxes of its
own.  How much a call of `os.write` or `os.read` moves, and who moves next, is up to the system.

* `copyBox_eq`: a bounce copies everything, whatever the length.
* `lossless`: every run comes to its end, and then the receiver's active box holds the data,
  each byte of which has gone through the pipe once and in order.
-/
import Mathlib
import VStorage.FallingBox
import VStorage.Runs

namespace HandOff

/-! ### The boxes -/

/-- `dst[i:j] = chunk`, on a `bytearray`. -/
def setSlice (dst : Bytes) (i j : ℕ) (chunk : Bytes) : Bytes :=
  dst.take i ++ chunk ++ dst.drop j

/-- `for i in range(0, len(src), BOX_SIZE): dst[i:i + BOX_SIZE] = src[i:i + BOX_SIZE]`. -/
def copyBox (src dst : Bytes) : Bytes :=
  (List.range ((src.length + boxSize - 1) / boxSize)).foldl (fun dst i =>
    setSlice dst (i * boxSize) (i * boxSize + boxSize)
      ((src.drop (i * boxSize)).take boxSize)) dst

/-- The two boxes of a side, and which of them the piece is in. -/
structure Boxes where
  boxA : Bytes
  boxB : Bytes
  active : Side

namespace Boxes

/-- The boxes in which a piece begins to fall. -/
def new (data : Bytes) : Boxes where
  boxA := data
  boxB := List.replicate data.length 0
  active := .a

/-- `_bounce_once`. -/
def bounceOnce (boxes : Boxes) : Boxes :=
  match boxes.active with
  | .a => { boxes with boxB := copyBox boxes.boxA boxes.boxB, active := .b }
  | .b => { boxes with boxA := copyBox boxes.boxB boxes.boxA, active := .a }

/-- `bytes(box_a if active == "a" else box_b)`. -/
def current (boxes : Boxes) : Bytes :=
  match boxes.active with
  | .a => boxes.boxA
  | .b => boxes.boxB

end Boxes

/-- One slice more has been copied. -/
theorem setSlice_copied {src dst : Bytes} {i : ℕ} (hi : i * boxSize ≤ src.length) :
    setSlice (src.take (i * boxSize) ++ dst.drop (i * boxSize)) (i * boxSize)
        (i * boxSize + boxSize) ((src.drop (i * boxSize)).take boxSize)
      = src.take ((i + 1) * boxSize) ++ dst.drop ((i + 1) * boxSize) := by
  have hlen : (src.take (i * boxSize)).length = i * boxSize := by
    rw [List.length_take, min_eq_left hi]
  rw [setSlice, List.take_left' hlen, Nat.succ_mul, List.take_add, ← List.drop_drop,
    List.drop_left' hlen, List.drop_drop]

/-- **Copying.**  Between boxes of one size the loop copies everything; the last slice may be
short, and there may be none. -/
theorem copyBox_eq {src dst : Bytes} (h : dst.length = src.length) : copyBox src dst = src := by
  have hloop : ∀ m, m ≤ (src.length + boxSize - 1) / boxSize →
      (List.range m).foldl (fun dst i => setSlice dst (i * boxSize) (i * boxSize + boxSize)
          ((src.drop (i * boxSize)).take boxSize)) dst
        = src.take (m * boxSize) ++ dst.drop (m * boxSize) := by
    intro m hm
    induction m with
    | zero => simp
    | succ m ih =>
      rw [List.range_succ, List.foldl_append, ih (by omega), List.foldl_cons, List.foldl_nil]
      exact setSlice_copied (chunk_le hm)
  have hcover := le_chunks src.length
  rw [copyBox, hloop _ le_rfl, List.take_of_length_le hcover,
    List.drop_eq_nil_of_le (h ▸ hcover), List.append_nil]

namespace Boxes

/-- The piece is in the active box, and the other has as much room. -/
structure Holds (data : Bytes) (boxes : Boxes) : Prop where
  current : boxes.current = data
  length : boxes.boxA.length = boxes.boxB.length

variable {data : Bytes} {boxes : Boxes}

theorem holds_new (data : Bytes) : (new data).Holds data := ⟨rfl, List.length_replicate.symm⟩

/-- A bounce keeps the piece. -/
theorem Holds.bounceOnce (h : boxes.Holds data) : boxes.bounceOnce.Holds data := by
  obtain ⟨hdata, hlen⟩ := h
  cases hactive : boxes.active with
  | a =>
    rw [Boxes.current, hactive] at hdata
    rw [Boxes.bounceOnce, hactive]
    dsimp only
    rw [copyBox_eq hlen.symm]
    exact ⟨hdata, rfl⟩
  | b =>
    rw [Boxes.current, hactive] at hdata
    rw [Boxes.bounceOnce, hactive]
    dsimp only
    rw [copyBox_eq hlen]
    exact ⟨hdata, rfl⟩

end Boxes

/-! ### The processes -/

/-- A call of `share_via_handoff`, and what it depends on: how often the clock lets the receiver
bounce, how many bytes the pipe takes, and whether the pipe of the queue has room for the
result before anybody asks for it. -/
structure Sharing where
  data : Bytes
  hopsBeforeHandoff : ℤ
  bouncesAfter : ℕ
  capacity : ℕ+
  queueTakes : Bool

/-- Where `_sender_process` is. -/
inductive Sender
  | unborn
  | falling (boxes : Boxes) (left : ℕ)
  | writing (current : Bytes) (pos : ℕ)
  | closed
  | exited
  | raised (e : PyError)

/-- Where `_receiver_process` is. -/
inductive Receiver
  | unborn
  | reading (received : Bytes)
  | falling (boxes : Boxes) (hops : ℕ)
  | done (boxes : Boxes)
  | exited (boxes : Boxes)

/-- What `share_via_handoff` returns. -/
structure Report where
  bytePerfect : Bool
  hopsInABeforeHandoff : ℤ
  hopsInBAfterHandoff : ℕ
  bytesMoved : ℕ

/-- The line of `share_via_handoff` that comes next. -/
inductive Parent
  | startReceiver
  | startSender
  | closeRead
  | closeWrite
  | joinSender
  | get
  | joinReceiver (final : Bytes) (hops : ℕ)
  | returned (report : Report)

structure State where
  parent : Parent
  sender : Sender
  receiver : Receiver
  pipe : Bytes
  queue : List (Bytes × ℕ)

def start : State := ⟨.startReceiver, .unborn, .unborn, [], []⟩

/-! A process that is forked inherits both ends of the pipe; the sender only closes the one it
writes to, and the receiver the one it reads from. -/

def Parent.holdsRead : Parent → Bool
  | .startReceiver | .startSender | .closeRead => true
  | _ => false

def Parent.holdsWrite : Parent → Bool
  | .startReceiver | .startSender | .closeRead | .closeWrite => true
  | _ => false

def Sender.holdsRead : Sender → Bool
  | .falling _ _ | .writing _ _ | .closed => true
  | _ => false

def Sender.holdsWrite : Sender → Bool
  | .falling _ _ | .writing _ _ => true
  | _ => false

def Receiver.holdsRead : Receiver → Bool
  | .reading _ => true
  | _ => false

def Receiver.holdsWrite : Receiver → Bool
  | .reading _ | .falling _ _ | .done _ => true
  | _ => false

/-- Somebody could still read from the pipe. -/
def State.hasReader (s : State) : Bool :=
  s.parent.holdsRead || s.sender.holdsRead || s.receiver.holdsRead

/-- Somebody could still write into the pipe. -/
def State.hasWriter (s : State) : Bool :=
  s.parent.holdsWrite || s.sender.holdsWrite || s.receiver.holdsWrite

/-- The process has come to its end, well or not. -/
def Sender.Ended : Sender → Prop
  | .exited | .raised _ => True
  | _ => False

/-- Who moves; and what goes into the pipe or out of it. -/
inductive Event
  | parent
  | sender
  | receiver
  | write (chunk : Bytes)
  | read (chunk : Bytes)

def Event.sent : Event → Bytes
  | .write chunk => chunk
  | _ => []

def Event.got : Event → Bytes
  | .read chunk => chunk
  | _ => []

/-- What has been written, from first to last. -/
def written (events : List Event) : Bytes := events.flatMap Event.sent

/-- What has been read, from first to last. -/
def taken (events : List Event) : Bytes := events.flatMap Event.got

theorem written_concat (events : List Event) (event : Event) :
    written (events ++ [event]) = written events ++ event.sent := by
  rw [written, List.flatMap_append, List.flatMap_singleton]
  rfl

theorem taken_concat (events : List Event) (event : Event) :
    taken (events ++ [event]) = taken events ++ event.got := by
  rw [taken, List.flatMap_append, List.flatMap_singleton]
  rfl

inductive Step (sh : Sharing) : State → Event → State → Prop
  -- `share_via_handoff`
  | startReceiver {s : State} : s.parent = .startReceiver →
      Step sh s .parent { s with parent := .startSender, receiver := .reading [] }
  | startSender {s : State} : s.parent = .startSender →
      Step sh s .parent { s with
        parent := .closeRead
        sender := .falling (.new sh.data) sh.hopsBeforeHandoff.toNat }
  | closeRead {s : State} : s.parent = .closeRead →
      Step sh s .parent { s with parent := .closeWrite }
  | closeWrite {s : State} : s.parent = .closeWrite →
      Step sh s .parent { s with parent := .joinSender }
  | joinSender {s : State} : s.parent = .joinSender → s.sender.Ended →
      Step sh s .parent { s with parent := .get }
  | get {s : State} {final : Bytes} {hops : ℕ} {queue : List (Bytes × ℕ)} : s.parent = .get →
      s.queue = (final, hops) :: queue →
      Step sh s .parent { s with parent := .joinReceiver final hops, queue := queue }
  | joinReceiver {s : State} {final : Bytes} {hops : ℕ} {boxes : Boxes} :
      s.parent = .joinReceiver final hops → s.receiver = .exited boxes →
      Step sh s .parent { s with
        parent := .returned ⟨final = sh.data, sh.hopsBeforeHandoff, hops, sh.data.length⟩ }
  -- `_sender_process`
  | bounceA {s : State} {boxes : Boxes} {left : ℕ} : s.sender = .falling boxes (left + 1) →
      Step sh s .sender { s with sender := .falling boxes.bounceOnce left }
  | handOff {s : State} {boxes : Boxes} : s.sender = .falling boxes 0 →
      Step sh s .sender { s with sender := .writing boxes.current 0 }
  -- `os.write` waits for room, and takes some of the slice it is given
  | write {s : State} {current : Bytes} {pos n : ℕ} : s.sender = .writing current pos →
      pos < current.length → s.hasReader = true → 0 < n →
      n ≤ ((current.drop pos).take boxSize).length → s.pipe.length + n ≤ sh.capacity →
      Step sh s (.write ((current.drop pos).take n)) { s with
        sender := .writing current (pos + n), pipe := s.pipe ++ (current.drop pos).take n }
  | brokenPipe {s : State} {current : Bytes} {pos : ℕ} : s.sender = .writing current pos →
      pos < current.length → s.hasReader = false →
      Step sh s .sender { s with sender := .raised .osError }
  | closeA {s : State} {current : Bytes} {pos : ℕ} : s.sender = .writing current pos →
      ¬ pos < current.length → Step sh s .sender { s with sender := .closed }
  | exitA {s : State} : s.sender = .closed → Step sh s .sender { s with sender := .exited }
  -- `_receiver_process`; `os.read` waits while the pipe is empty and somebody could write
  | read {s : State} {received : Bytes} {n : ℕ} : s.receiver = .reading received →
      received.length < sh.data.length → 0 < n → n ≤ boxSize → n ≤ s.pipe.length →
      Step sh s (.read (s.pipe.take n)) { s with
        receiver := .reading (received ++ s.pipe.take n), pipe := s.pipe.drop n }
  | endOfFile {s : State} {received : Bytes} : s.receiver = .reading received →
      received.length < sh.data.length → s.pipe = [] → s.hasWriter = false →
      Step sh s .receiver { s with receiver := .falling (.new received) 0 }
  | closeB {s : State} {received : Bytes} : s.receiver = .reading received →
      ¬ received.length < sh.data.length →
      Step sh s .receiver { s with receiver := .falling (.new received) 0 }
  | bounceB {s : State} {boxes : Boxes} {hops : ℕ} : s.receiver = .falling boxes hops →
      hops < sh.bouncesAfter →
      Step sh s .receiver { s with receiver := .falling boxes.bounceOnce (hops + 1) }
  | put {s : State} {boxes : Boxes} {hops : ℕ} : s.receiver = .falling boxes hops →
      ¬ hops < sh.bouncesAfter →
      Step sh s .receiver { s with
        receiver := .done boxes, queue := s.queue ++ [(boxes.current, hops)] }
  -- a process ends when what it has put has gone into the pipe of the queue
  | exitB {s : State} {boxes : Boxes} : s.receiver = .done boxes →
      sh.queueTakes = true ∨ s.queue = [] →
      Step sh s .receiver { s with receiver := .exited boxes }

/-! ### What is on its way -/

/-- What the sender has written, by where it is. -/
def Sender.Sent (data sent : Bytes) : Sender → Prop
  | .unborn => sent = []
  | .falling boxes _ => boxes.Holds data ∧ sent = []
  | .writing current pos => current = data ∧ pos ≤ data.length ∧ sent = data.take pos
  | .closed | .exited => sent = data
  | .raised _ => False

/-- What the receiver has read, by where it is. -/
def Receiver.Got (sh : Sharing) (got : Bytes) : Receiver → Prop
  | .unborn => got = []
  | .reading received => got = received
  | .falling boxes hops => boxes.Holds sh.data ∧ got = sh.data ∧ hops ≤ sh.bouncesAfter
  | .done boxes | .exited boxes => boxes.Holds sh.data ∧ got = sh.data

def Receiver.hasPut : Receiver → Bool
  | .done _ | .exited _ => true
  | _ => false

/-- How far `share_via_handoff` is. -/
def Parent.line : Parent → ℕ
  | .startReceiver => 0
  | .startSender => 1
  | .closeRead => 2
  | .closeWrite => 3
  | .joinSender => 4
  | .get => 5
  | .joinReceiver _ _ => 6
  | .returned _ => 7

/-- The caller has got the result. -/
def Parent.hasGot : Parent → Bool
  | .joinReceiver _ _ | .returned _ => true
  | _ => false

/-- What the caller knows when it has got the result. -/
def Parent.Knows (sh : Sharing) (receiver : Receiver) : Parent → Prop
  | .joinReceiver final hops =>
    final = sh.data ∧ hops = sh.bouncesAfter ∧ receiver.hasPut = true
  | .returned report =>
    report = ⟨true, sh.hopsBeforeHandoff, sh.bouncesAfter, sh.data.length⟩ ∧
      ∃ boxes, receiver = .exited boxes
  | _ => True

/-- No byte is lost on the way from the sender's position through the pipe to the receiver's. -/
structure Carried (sh : Sharing) (events : List Event) (s : State) : Prop where
  conserved : written events = taken events ++ s.pipe
  sender : s.sender.Sent sh.data (written events)
  receiver : s.receiver.Got sh (taken events)

/-- Each process, and the queue, is where the caller can expect it to be. -/
structure Placed (sh : Sharing) (s : State) : Prop where
  senderBorn : s.sender = .unborn ↔ s.parent.line ≤ 1
  receiverBorn : s.receiver = .unborn ↔ s.parent.line = 0
  joined : 5 ≤ s.parent.line → s.sender = .exited
  queue : s.queue = if s.receiver.hasPut && !s.parent.hasGot then
    [(sh.data, sh.bouncesAfter)] else []
  knows : s.parent.Knows sh s.receiver

/-- The invariant. -/
structure Inv (sh : Sharing) (events : List Event) (s : State) : Prop where
  carried : Carried sh events s
  placed : Placed sh s

variable {sh : Sharing} {events : List Event} {event : Event} {s s' : State}

theorem inv_start (sh : Sharing) : Inv sh [] start where
  carried := ⟨rfl, rfl, rfl⟩
  placed := ⟨iff_of_true rfl (Nat.zero_le 1), iff_of_true rfl rfl, fun h => absurd h (by decide),
    rfl, trivial⟩

/-- What has been written is the beginning of the data. -/
theorem Sender.Sent.prefix {sender : Sender} {data sent : Bytes} (h : sender.Sent data sent) :
    sent <+: data := by
  cases sender with
  | unborn =>
    rw [show sent = [] from h]
    exact List.nil_prefix
  | falling =>
    rw [h.2]
    exact List.nil_prefix
  | writing =>
    rw [h.2.2]
    exact List.take_prefix _ _
  | closed => exact h ▸ List.prefix_rfl
  | exited => exact h ▸ List.prefix_rfl
  | raised => exact h.elim

/-- So is what has been read, and it is the data once it is as long. -/
theorem Carried.taken_eq (h : Carried sh events s)
    (hlen : sh.data.length ≤ (taken events).length) : taken events = sh.data := by
  have hprefix : taken events <+: sh.data := by
    refine List.IsPrefix.trans ?_ h.sender.prefix
    rw [h.conserved]
    exact List.prefix_append _ _
  exact hprefix.eq_of_length_le hlen

/-- A step that puts in at one end what the sender writes, and takes out at the other what the
receiver reads. -/
theorem Carried.next (h : Carried sh events s)
    (hpipe : s.pipe ++ event.sent = event.got ++ s'.pipe)
    (hsent : s'.sender.Sent sh.data (written events ++ event.sent))
    (hgot : s'.receiver.Got sh (taken events ++ event.got)) :
    Carried sh (events ++ [event]) s' where
  conserved := by
    rw [written_concat, taken_concat, h.conserved, List.append_assoc, hpipe, List.append_assoc]
  sender := by rwa [written_concat]
  receiver := by rwa [taken_concat]

/-- Nothing goes in or out. -/
theorem Carried.quiet (h : Carried sh events s) (hsent : event.sent = []) (hgot : event.got = [])
    (hpipe : s'.pipe = s.pipe) (hsender : s'.sender.Sent sh.data (written events))
    (hreceiver : s'.receiver.Got sh (taken events)) : Carried sh (events ++ [event]) s' := by
  refine h.next ?_ ?_ ?_
  · rw [hsent, hgot, hpipe, List.append_nil]
    rfl
  · rwa [hsent, List.append_nil]
  · rwa [hgot, List.append_nil]

theorem Inv.carry (hinv : Inv sh events s) (hs : Step sh s event s') :
    Carried sh (events ++ [event]) s' := by
  have h := hinv.carried
  have hsent := h.sender
  have hgot := h.receiver
  cases hs with
  | startReceiver hparent =>
    have hunborn : s.receiver = .unborn := hinv.placed.receiverBorn.mpr (by rw [hparent]; rfl)
    rw [hunborn] at hgot
    exact h.quiet rfl rfl rfl hsent hgot
  | startSender hparent =>
    have hunborn : s.sender = .unborn := hinv.placed.senderBorn.mpr (by rw [hparent]; decide)
    rw [hunborn] at hsent
    exact h.quiet rfl rfl rfl ⟨Boxes.holds_new sh.data, hsent⟩ hgot
  | closeRead => exact h.quiet rfl rfl rfl hsent hgot
  | closeWrite => exact h.quiet rfl rfl rfl hsent hgot
  | joinSender => exact h.quiet rfl rfl rfl hsent hgot
  | get => exact h.quiet rfl rfl rfl hsent hgot
  | joinReceiver => exact h.quiet rfl rfl rfl hsent hgot
  | bounceA hsender =>
    rw [hsender] at hsent
    exact h.quiet rfl rfl rfl ⟨hsent.1.bounceOnce, hsent.2⟩ hgot
  | handOff hsender =>
    rw [hsender] at hsent
    exact h.quiet rfl rfl rfl ⟨hsent.1.current, Nat.zero_le _, hsent.2⟩ hgot
  | @write current pos n hsender hlt hreader hpos hslice hroom =>
    rw [hsender] at hsent
    obtain ⟨rfl, hle, hwritten⟩ := hsent
    refine h.next rfl ⟨rfl, ?_, ?_⟩ ?_
    · rw [List.length_take, List.length_drop] at hslice
      omega
    · rw [hwritten]
      exact List.take_add.symm
    · rw [show Event.got (.write _) = [] from rfl, List.append_nil]
      exact hgot
  | brokenPipe hsender hlt hreader =>
    rw [State.hasReader, hsender] at hreader
    simp [Sender.holdsRead] at hreader
  | closeA hsender hge =>
    rw [hsender] at hsent
    obtain ⟨rfl, -, hwritten⟩ := hsent
    refine h.quiet rfl rfl rfl ?_ hgot
    rw [hwritten]
    exact List.take_of_length_le (not_lt.mp hge)
  | exitA hsender =>
    rw [hsender] at hsent
    exact h.quiet rfl rfl rfl hsent hgot
  | @read received n hreceiver hlt hpos hbox hn =>
    rw [hreceiver] at hgot
    refine h.next ?_ ?_ ?_
    · rw [show Event.sent (.read _) = [] from rfl, List.append_nil]
      exact (List.take_append_drop n s.pipe).symm
    · rw [show Event.sent (.read _) = [] from rfl, List.append_nil]
      exact hsent
    · rw [show taken events = received from hgot]
      rfl
  | endOfFile hreceiver hlt hempty hwriter =>
    rw [State.hasWriter, hreceiver] at hwriter
    simp [Receiver.holdsWrite] at hwriter
  | closeB hreceiver hge =>
    rw [hreceiver] at hgot
    obtain rfl : taken events = _ := hgot
    have htaken := h.taken_eq (not_lt.mp hge)
    refine h.quiet rfl rfl rfl hsent ⟨?_, htaken, Nat.zero_le _⟩
    rw [htaken]
    exact Boxes.holds_new sh.data
  | bounceB hreceiver hlt =>
    rw [hreceiver] at hgot
    exact h.quiet rfl rfl rfl hsent ⟨hgot.1.bounceOnce, hgot.2.1, hlt⟩
  | put hreceiver =>
    rw [hreceiver] at hgot
    exact h.quiet rfl rfl rfl hsent ⟨hgot.1, hgot.2.1⟩
  | exitB hreceiver =>
    rw [hreceiver] at hgot
    exact h.quiet rfl rfl rfl hsent hgot

/-- Nobody has the result before it is put. -/
theorem Parent.Knows.early {parent : Parent} {receiver : Receiver}
    (h : parent.Knows sh receiver) (hput : receiver.hasPut = false) : parent.hasGot = false := by
  cases parent with
  | joinReceiver => cases hput.symm.trans h.2.2
  | returned =>
    obtain ⟨-, boxes, rfl⟩ := h
    cases hput
  | _ => rfl

theorem Parent.knows_of_early {parent : Parent} (h : parent.hasGot = false)
    (receiver : Receiver) : parent.Knows sh receiver := by
  cases parent with
  | joinReceiver => cases h
  | returned => cases h
  | _ => trivial

/-- The sender moves between its birth and its end. -/
theorem Placed.ofSender (h : Placed sh s) {sender : Sender} {pipe : Bytes}
    (hborn : s.sender ≠ .unborn) (hexited : s.sender ≠ .exited) (hborn' : sender ≠ .unborn) :
    Placed sh { s with sender := sender, pipe := pipe } where
  senderBorn := iff_of_false hborn' fun hline => hborn (h.senderBorn.mpr hline)
  receiverBorn := h.receiverBorn
  joined hline := absurd (h.joined hline) hexited
  queue := h.queue
  knows := h.knows

/-- The receiver moves between its birth and its result. -/
theorem Placed.ofReceiver (h : Placed sh s) {receiver : Receiver} {pipe : Bytes}
    (hborn : s.receiver ≠ .unborn) (hput : s.receiver.hasPut = false)
    (hborn' : receiver ≠ .unborn) (hput' : receiver.hasPut = false) :
    Placed sh { s with receiver := receiver, pipe := pipe } where
  senderBorn := h.senderBorn
  receiverBorn := iff_of_false hborn' fun hline => hborn (h.receiverBorn.mpr hline)
  joined := h.joined
  queue := by
    have hqueue := h.queue
    rw [hput] at hqueue
    show s.queue = if receiver.hasPut && _ then _ else _
    rw [hput']
    exact hqueue
  knows := Parent.knows_of_early (h.knows.early hput) receiver

/-- The caller goes on, to a line before the result, when both are born. -/
theorem Placed.ofParent (h : Placed sh s) {parent : Parent} (hlo : 2 ≤ s.parent.line)
    (hlo' : 2 ≤ parent.line) (hgot : s.parent.hasGot = false) (hgot' : parent.hasGot = false)
    (hjoined : 5 ≤ parent.line → s.sender = .exited) :
    Placed sh { s with parent := parent } where
  senderBorn := iff_of_false (fun hborn => by have := h.senderBorn.mp hborn; omega)
    (not_le.mpr hlo')
  receiverBorn := iff_of_false (fun hborn => by have := h.receiverBorn.mp hborn; omega)
    (Nat.ne_of_gt (Nat.lt_of_lt_of_le two_pos hlo'))
  joined := hjoined
  queue := by
    show s.queue = if _ && !parent.hasGot then _ else _
    rw [h.queue, hgot, hgot']
  knows := Parent.knows_of_early hgot' s.receiver

theorem Inv.place (hinv : Inv sh events s) (hs : Step sh s event s') : Placed sh s' := by
  have h := hinv.placed
  have hsent := hinv.carried.sender
  have hgot := hinv.carried.receiver
  have hbornA := h.senderBorn
  have hbornB := h.receiverBorn
  have hqueue := h.queue
  have hknows := h.knows
  cases hs with
  | startReceiver hparent =>
    rw [hparent] at hbornA hbornB hqueue
    rw [hbornB.mpr rfl] at hqueue
    refine ⟨iff_of_true (hbornA.mpr (Nat.zero_le 1)) le_rfl, iff_of_false nofun nofun, ?_,
      hqueue, trivial⟩
    exact fun hline => absurd hline (by show ¬ 5 ≤ 1; decide)
  | startSender hparent =>
    rw [hparent] at hbornB hqueue
    refine ⟨iff_of_false nofun (by show ¬ 2 ≤ 1; decide), ?_, ?_, hqueue, trivial⟩
    · exact iff_of_false (fun hborn => nomatch hbornB.mp hborn) nofun
    · exact fun hline => absurd hline (by show ¬ 5 ≤ 2; decide)
  | closeRead hparent =>
    refine h.ofParent ?_ (by decide) ?_ rfl fun hline => absurd hline (by decide)
    · rw [hparent]; decide
    · rw [hparent]; rfl
  | closeWrite hparent =>
    refine h.ofParent ?_ (by decide) ?_ rfl fun hline => absurd hline (by decide)
    · rw [hparent]; decide
    · rw [hparent]; rfl
  | joinSender hparent hended =>
    refine h.ofParent ?_ (by decide) ?_ rfl fun _ => ?_
    · rw [hparent]; decide
    · rw [hparent]; rfl
    cases hsender : s.sender with
    | exited => rfl
    | raised =>
      rw [hsender] at hsent
      exact hsent.elim
    | _ =>
      rw [hsender] at hended
      exact hended.elim
  | @get final hops queue hparent hfirst =>
    have hexited := h.joined (by rw [hparent]; decide)
    rw [hparent] at hbornB hqueue
    rw [hfirst] at hqueue
    cases hput : s.receiver.hasPut with
    | false =>
      rw [hput] at hqueue
      cases hqueue
    | true =>
      rw [hput] at hqueue
      obtain ⟨hresult, rfl⟩ := List.cons.inj hqueue
      obtain ⟨rfl, rfl⟩ := Prod.mk.inj hresult
      refine ⟨?_, ?_, fun _ => hexited, ?_, rfl, rfl, hput⟩
      · exact iff_of_false (by rw [hexited]; nofun) (by show ¬ 6 ≤ 1; decide)
      · exact iff_of_false (fun hborn => nomatch hbornB.mp hborn) nofun
      · show [] = if _ && false then _ else _
        rw [Bool.and_false]
        rfl
  | @joinReceiver final hops boxes hparent hreceiver =>
    have hexited := h.joined (by rw [hparent]; show 5 ≤ 6; decide)
    rw [hparent] at hqueue hknows
    obtain ⟨rfl, rfl, -⟩ := hknows
    refine ⟨?_, ?_, fun _ => hexited, ?_, ?_, boxes, hreceiver⟩
    · exact iff_of_false (by rw [hexited]; nofun) (by show ¬ 7 ≤ 1; decide)
    · exact iff_of_false (by rw [hreceiver]; nofun) nofun
    · exact hqueue
    · rw [decide_eq_true rfl]
  | bounceA hsender => exact h.ofSender (by rw [hsender]; nofun) (by rw [hsender]; nofun) nofun
  | handOff hsender => exact h.ofSender (by rw [hsender]; nofun) (by rw [hsender]; nofun) nofun
  | write hsender => exact h.ofSender (by rw [hsender]; nofun) (by rw [hsender]; nofun) nofun
  | brokenPipe hsender =>
    exact h.ofSender (by rw [hsender]; nofun) (by rw [hsender]; nofun) nofun
  | closeA hsender => exact h.ofSender (by rw [hsender]; nofun) (by rw [hsender]; nofun) nofun
  | exitA hsender => exact h.ofSender (by rw [hsender]; nofun) (by rw [hsender]; nofun) nofun
  | read hreceiver =>
    exact h.ofReceiver (by rw [hreceiver]; nofun) (by rw [hreceiver]; rfl) nofun rfl
  | endOfFile hreceiver =>
    exact h.ofReceiver (by rw [hreceiver]; nofun) (by rw [hreceiver]; rfl) nofun rfl
  | closeB hreceiver =>
    exact h.ofReceiver (by rw [hreceiver]; nofun) (by rw [hreceiver]; rfl) nofun rfl
  | bounceB hreceiver =>
    exact h.ofReceiver (by rw [hreceiver]; nofun) (by rw [hreceiver]; rfl) nofun rfl
  | @put boxes hops hreceiver hge =>
    rw [hreceiver] at hgot hbornB hqueue hknows
    obtain ⟨hholds, -, hle⟩ := hgot
    have hlast : hops = sh.bouncesAfter := by omega
    have hearly := hknows.early rfl
    refine ⟨hbornA, iff_of_false nofun fun hline => ?_, h.joined, ?_,
      Parent.knows_of_early hearly _⟩
    · cases hbornB.mpr hline
    · show s.queue ++ [(boxes.current, hops)] = if true && !s.parent.hasGot then _ else _
      rw [hqueue, hearly, hholds.current, hlast]
      rfl
  | @exitB boxes hreceiver hfed =>
    rw [hreceiver] at hbornB hqueue hknows
    refine ⟨hbornA, iff_of_false nofun fun hline => ?_, h.joined, hqueue, ?_⟩
    · cases hbornB.mpr hline
    show s.parent.Knows sh _
    cases hparent : s.parent with
    | joinReceiver =>
      rw [hparent] at hknows
      exact hknows
    | returned =>
      rw [hparent] at hknows
      exact ⟨hknows.1, boxes, rfl⟩
    | _ => trivial

theorem Inv.step (h : Inv sh events s) (hs : Step sh s event s') :
    Inv sh (events ++ [event]) s' := ⟨h.carry hs, h.place hs⟩

theorem inv_run (h : Run (Step sh) start events s) : Inv sh events s :=
  h.history (inv_start sh) Inv.step

/-! ### The end -/

/-- How many steps the sender has to go, at most. -/
def Sender.rank (sh : Sharing) : Sender → ℕ
  | .unborn => sh.hopsBeforeHandoff.toNat + sh.data.length + 4
  | .falling _ left => left + sh.data.length + 3
  | .writing current pos => (current.length - pos) + 2
  | .closed => 1
  | .exited | .raised _ => 0

def Receiver.rank (sh : Sharing) : Receiver → ℕ
  | .unborn => sh.data.length + sh.bouncesAfter + 4
  | .reading received => (sh.data.length - received.length) + sh.bouncesAfter + 3
  | .falling _ hops => (sh.bouncesAfter - hops) + 2
  | .done _ => 1
  | .exited _ => 0

def State.rank (sh : Sharing) (s : State) : ℕ :=
  (7 - s.parent.line) + s.sender.rank sh + s.receiver.rank sh

/-- `share_via_handoff` has returned. -/
def State.Ended (s : State) : Prop := ∃ report, s.parent = .returned report

/-- Every step brings the end nearer: a read or a write moves a byte at least. -/
theorem Inv.rank_lt (h : Inv sh events s) (hs : Step sh s event s') :
    s'.rank sh < s.rank sh := by
  cases hs with
  | startReceiver hparent =>
    have hreceiver := h.placed.receiverBorn.mpr (by rw [hparent]; rfl)
    simp only [State.rank, hparent, hreceiver, Parent.line, Receiver.rank, List.length_nil]
    omega
  | startSender hparent =>
    have hsender := h.placed.senderBorn.mpr (by rw [hparent]; decide)
    simp only [State.rank, hparent, hsender, Parent.line, Sender.rank]
    omega
  | closeRead hparent | closeWrite hparent | joinSender hparent | get hparent
  | joinReceiver hparent =>
    simp only [State.rank, hparent, Parent.line]
    omega
  | handOff hsender =>
    have hsent := h.carried.sender
    rw [hsender] at hsent
    simp only [State.rank, hsender, Sender.rank, hsent.1.current]
    omega
  | bounceA hsender | write hsender | brokenPipe hsender | closeA hsender | exitA hsender =>
    simp only [State.rank, hsender, Sender.rank]
    omega
  | read hreceiver hlt hpos hbox hn =>
    simp only [State.rank, hreceiver, Receiver.rank, List.length_append, List.length_take]
    omega
  | endOfFile hreceiver | closeB hreceiver | bounceB hreceiver | put hreceiver
  | exitB hreceiver =>
    simp only [State.rank, hreceiver, Receiver.rank]
    omega

/-- The receiver goes on while there is something to read, and when all is written. -/
theorem Inv.receiver_moves (h : Inv sh events s) (hborn : s.receiver ≠ .unborn)
    (hput : s.receiver.hasPut = false) (hpipe : s.pipe ≠ [] ∨ s.sender = .exited) :
    ∃ event s', Step sh s event s' := by
  cases hreceiver : s.receiver with
  | unborn => exact absurd hreceiver hborn
  | reading received =>
    by_cases hlt : received.length < sh.data.length
    · have hpos : 0 < s.pipe.length := by
        rcases hpipe with hne | hexited
        · exact List.length_pos_iff.mpr hne
        -- all has been written, and not all has been read
        · have hsent := h.carried.sender
          have hgot := h.carried.receiver
          rw [hexited] at hsent
          rw [hreceiver] at hgot
          have hlen := congrArg List.length h.carried.conserved
          rw [show written events = sh.data from hsent, show taken events = received from hgot,
            List.length_append] at hlen
          omega
      exact ⟨_, _, .read (n := 1) hreceiver hlt one_pos (by decide) hpos⟩
    · exact ⟨_, _, .closeB hreceiver hlt⟩
  | falling boxes hops =>
    by_cases hlt : hops < sh.bouncesAfter
    · exact ⟨_, _, .bounceB hreceiver hlt⟩
    · exact ⟨_, _, .put hreceiver hlt⟩
  | done =>
    rw [hreceiver] at hput
    cases hput
  | exited =>
    rw [hreceiver] at hput
    cases hput

/-- The pipe is empty when the receiver has what it expects. -/
theorem Carried.pipe_eq_nil (h : Carried sh events s) (htaken : taken events = sh.data) :
    s.pipe = [] := by
  have hlen := h.sender.prefix.length_le
  rw [h.conserved, htaken, List.length_append] at hlen
  exact List.eq_nil_of_length_eq_zero (by omega)

/-- The sender goes on while there is room in the pipe; where there is none, the receiver does. -/
theorem Inv.sender_moves (h : Inv sh events s) (hborn : s.sender ≠ .unborn)
    (hborn' : s.receiver ≠ .unborn) (hexited : s.sender ≠ .exited) :
    ∃ event s', Step sh s event s' := by
  have hsent := h.carried.sender
  cases hsender : s.sender with
  | unborn => exact absurd hsender hborn
  | falling boxes left =>
    cases left with
    | zero => exact ⟨_, _, .handOff hsender⟩
    | succ left => exact ⟨_, _, .bounceA hsender⟩
  | writing current pos =>
    by_cases hlt : pos < current.length
    · by_cases hroom : s.pipe.length + 1 ≤ sh.capacity
      · have hreader : s.hasReader = true := by
          rw [State.hasReader, hsender]
          simp [Sender.holdsRead]
        have hslice : 1 ≤ ((current.drop pos).take boxSize).length := by
          have hbox : 1 ≤ boxSize := by decide
          rw [List.length_take, List.length_drop]
          omega
        exact ⟨_, _, .write hsender hlt hreader one_pos hslice hroom⟩
      · have hfull : s.pipe ≠ [] := by
          intro hempty
          rw [hempty] at hroom
          exact hroom sh.capacity.pos
        refine h.receiver_moves hborn' ?_ (Or.inl hfull)
        have hgot := h.carried.receiver
        cases hreceiver : s.receiver with
        | done =>
          rw [hreceiver] at hgot
          exact absurd (h.carried.pipe_eq_nil hgot.2) hfull
        | exited =>
          rw [hreceiver] at hgot
          exact absurd (h.carried.pipe_eq_nil hgot.2) hfull
        | _ => rfl
    · exact ⟨_, _, .closeA hsender hlt⟩
  | closed => exact ⟨_, _, .exitA hsender⟩
  | exited => exact absurd hsender hexited
  | raised =>
    rw [hsender] at hsent
    exact hsent.elim

/-- Nobody waits for good. -/
theorem Inv.progress (h : Inv sh events s) : s.Ended ∨ ∃ event s', Step sh s event s' := by
  have hqueue := h.placed.queue
  have hknows := h.placed.knows
  cases hparent : s.parent with
  | startReceiver => exact Or.inr ⟨_, _, .startReceiver hparent⟩
  | startSender => exact Or.inr ⟨_, _, .startSender hparent⟩
  | closeRead => exact Or.inr ⟨_, _, .closeRead hparent⟩
  | closeWrite => exact Or.inr ⟨_, _, .closeWrite hparent⟩
  | joinSender =>
    right
    by_cases hexited : s.sender = .exited
    · exact ⟨_, _, .joinSender hparent (by rw [hexited]; trivial)⟩
    · refine h.sender_moves (fun hborn => ?_) (fun hborn => ?_) hexited
      · have hline := h.placed.senderBorn.mp hborn
        rw [hparent] at hline
        exact absurd hline (by decide)
      · have hline := h.placed.receiverBorn.mp hborn
        rw [hparent] at hline
        cases hline
  | get =>
    right
    rw [hparent] at hqueue
    cases hput : s.receiver.hasPut with
    | true =>
      rw [hput] at hqueue
      exact ⟨_, _, .get hparent hqueue⟩
    | false =>
      have hexited := h.placed.joined (by rw [hparent]; decide)
      refine h.receiver_moves (fun hborn => ?_) hput (Or.inr hexited)
      have hline := h.placed.receiverBorn.mp hborn
      rw [hparent] at hline
      cases hline
  | joinReceiver final hops =>
    right
    rw [hparent] at hqueue hknows
    cases hreceiver : s.receiver with
    | done boxes =>
      rw [hreceiver] at hqueue
      exact ⟨_, _, .exitB hreceiver (Or.inr hqueue)⟩
    | exited boxes => exact ⟨_, _, .joinReceiver hparent hreceiver⟩
    | _ =>
      rw [hreceiver] at hknows
      cases hknows.2.2
  | returned report => exact Or.inl ⟨report, hparent⟩

/-- **The hand-off is lossless.**  Whatever the data, the number of hops and bounces and the size
of the pipe, and however the processes take turns and the bytes are cut, the run comes to its
end.  What has been read and what is in the pipe is always what has been written, in that order,
and the beginning of the data; at the end all of it has been written and read, the receiver's
active box holds it, and the caller is told so. -/
theorem lossless (sh : Sharing) :
    Inevitable (Step sh) State.Ended start ∧
    ∀ (events : List Event) (s : State), Run (Step sh) start events s →
      (written events = taken events ++ s.pipe ∧ written events <+: sh.data) ∧
      (s.Ended → (written events = sh.data ∧ taken events = sh.data) ∧
        (∃ boxes, s.receiver = .exited boxes ∧ boxes.current = sh.data) ∧
        s.parent = .returned
          ⟨true, sh.hopsBeforeHandoff, sh.bouncesAfter, sh.data.length⟩) := by
  constructor
  · refine .of_rank (I := fun s => ∃ events, Inv sh events s) (State.rank sh) ?_ ?_
      ⟨[], inv_start sh⟩
    · rintro s event s' ⟨events, h⟩ hs
      exact ⟨⟨_, h.step hs⟩, h.rank_lt hs⟩
    · rintro s ⟨events, h⟩
      exact h.progress
  · intro events s hrun
    have h := inv_run hrun
    refine ⟨⟨h.carried.conserved, h.carried.sender.prefix⟩, ?_⟩
    rintro ⟨report, hparent⟩
    have hknows := h.placed.knows
    rw [hparent] at hknows
    obtain ⟨rfl, boxes, hreceiver⟩ := hknows
    have hgot := h.carried.receiver
    rw [hreceiver] at hgot
    have hwritten := h.carried.conserved
    rw [hgot.2, h.carried.pipe_eq_nil hgot.2, List.append_nil] at hwritten
    exact ⟨⟨hwritten, hgot.2⟩, ⟨boxes, hreceiver, hgot.1.current⟩, hparent⟩

end HandOff
