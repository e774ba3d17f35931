/-
`network_trust.py` and `holder_server.py`, byte for byte.

The client writes each request as a line of JSON with the token in it; the holder reads lines off
the connection, parses them, compares the token and writes a line back, in whatever order the
threads of the client, the monitor and the holders take turns.  Above, a holder had a list of
operations to answer; here it has bytes, and leaves the connection at the first line that it does
not accept.

* `related_run`: what the group does over bytes, it does over operations.
* `over_the_wire`: so no holder ever leaves the connection over what its group has sent, what
  waits to be read on a connection is always whole requests, and a fetch that returns, returns
  the secret.
-/
import Mathlib
import VStorage.HolderServer
import VStorage.NetworkTrustGroup
import VStorage.Runs

namespace HolderWire

open HolderServer (opName)
open NetworkTrustGroup (Event Heard Op Sock Talk line parseLine pong readPong readShare reply)

/-! ### Requests -/

/-- `json.dumps({"op": ..., "token": ...})`, and a newline. -/
def requestLine (token : PyStr) (op : Op) : Bytes :=
  line (.obj [(pyStr "op", .str (opName op)), (pyStr "token", .str token)])

/-- `f.readline()`, when there is a whole line to read, and what it leaves. -/
def readLine (bs : Bytes) : Option (Bytes × Bytes) :=
  match bs.dropWhile (· ≠ 10) with
  | [] => none
  | b :: rest => some (bs.takeWhile (· ≠ 10) ++ [b], rest)

theorem readLine_line {body : Bytes} (hbody : 10 ∉ body) (rest : Bytes) :
    readLine (body ++ 10 :: rest) = some (body ++ [10], rest) := by
  have hne : ∀ b ∈ body, decide (b ≠ 10) = true := by
    intro b hb
    exact decide_eq_true fun h => hbody (h ▸ hb)
  rw [readLine, List.dropWhile_append_of_pos hne, List.takeWhile_append_of_pos hne]
  simp

section Requests

variable (h : HolderServer.Holder)

/-- A request, as text. -/
def requestText (op : Op) : PyStr :=
  pyStr "\x7b\"op\": \"" ++ opName op ++ pyStr "\", \"token\": \"" ++ h.token ++ pyStr "\"\x7d"

theorem plain_opName (op : Op) : ∀ c ∈ opName op, Json.Plain c := by
  cases op <;> decide

theorem dumps_request (op : Op) :
    Json.dumps (.obj [(pyStr "op", .str (opName op)), (pyStr "token", .str h.token)])
      = requestText h op := by
  have hop : Json.dumpString (pyStr "op") = pyStr "\"op\"" := by decide
  have htoken : Json.dumpString (pyStr "token") = pyStr "\"token\"" := by decide
  simp only [Json.dumps, Json.dumpMembers, hop, htoken, Json.dumpString_plain h.token_plain,
    Json.dumpString_plain (plain_opName op)]
  simp [requestText, pyStr]

theorem requestText_ascii (op : Op) : ∀ c ∈ requestText h op, c < 128 ∧ c ≠ 10 := by
  have h₁ : ∀ c ∈ pyStr "\x7b\"op\": \"", c < 128 ∧ c ≠ 10 := by decide
  have h₂ : ∀ c ∈ pyStr "\", \"token\": \"", c < 128 ∧ c ≠ 10 := by decide
  have h₃ : ∀ c ∈ pyStr "\"\x7d", c < 128 ∧ c ≠ 10 := by decide
  have hplain : ∀ c, Json.Plain c → c < 128 ∧ c ≠ 10 := by
    rintro c ⟨hlow, hhigh, -⟩
    omega
  intro c hc
  simp only [requestText, List.mem_append] at hc
  rcases hc with (((hc | hc) | hc) | hc) | hc
  · exact h₁ c hc
  · exact hplain c (plain_opName op c hc)
  · exact h₂ c hc
  · exact hplain c (h.token_plain c hc)
  · exact h₃ c hc

theorem requestLine_eq (op : Op) :
    requestLine h.token op = NetworkTrustGroup.encode (requestText h op) ++ [10] := by
  rw [requestLine, line, dumps_request, NetworkTrustGroup.encode, List.map_append]
  rfl

theorem readLine_request (op : Op) (rest : Bytes) :
    readLine (requestLine h.token op ++ rest) = some (requestLine h.token op, rest) := by
  rw [requestLine_eq, List.append_assoc]
  refine readLine_line (fun hmem => ?_) rest
  obtain ⟨c, hc, hten⟩ := List.mem_map.mp hmem
  obtain ⟨hlt, hne⟩ := requestText_ascii h op c hc
  have hnat : c % 256 = 10 := by simpa using congrArg UInt8.toNat hten
  omega

theorem loads_request (op : Op) : HolderServer.loads (h.depth + 1) (requestLine h.token op)
    = .ok (.obj [(pyStr "op", .str (opName op)), (pyStr "token", .str h.token)]) := by
  have hascii : ∀ c ∈ requestText h op ++ ['\n'.toNat], c < 128 := by
    intro c hc
    rcases List.mem_append.mp hc with hc | hc
    · exact (requestText_ascii h op c hc).1
    · rw [List.mem_singleton.mp hc]
      decide
  have hnat : (requestLine h.token op).map UInt8.toNat = requestText h op ++ ['\n'.toNat] := by
    rw [requestLine, line, dumps_request]
    exact HolderServer.toNat_encode hascii
  have hbytes : ∀ b ∈ requestLine h.token op, b.toNat < 128 :=
    fun b hb => hascii _ (hnat ▸ List.mem_map_of_mem hb)
  have hdetect : HolderServer.detectEncoding (requestLine h.token op) = .utf8 := by
    rw [requestLine_eq]
    rfl
  have hscans : Json.Scans (h.depth + 1) (requestText h op)
      (.obj [(pyStr "op", .str (opName op)), (pyStr "token", .str h.token)]) := by
    have hkeys : [pyStr "op", pyStr "token"].Nodup := by decide
    have hop : ∀ c ∈ pyStr "op", Json.Plain c := by decide
    have htoken : ∀ c ∈ pyStr "token", Json.Plain c := by decide
    rw [← dumps_request]
    refine Json.scans_obj (List.cons_ne_nil _ _) (fun m hm => ?_) hkeys
    rcases List.mem_cons.mp hm with rfl | hm
    · exact ⟨hop, Json.scans_str (plain_opName op)⟩
    · obtain rfl := List.mem_singleton.mp hm
      exact ⟨htoken, Json.scans_str h.token_plain⟩
  rw [HolderServer.loads, HolderServer.decode, hdetect, HolderServer.decodeAs,
    HolderServer.utf8_ascii hbytes, ok_bind, hnat]
  exact (Json.loads_of_scans hscans (Json.ends_cons (by decide) [])).mpr ⟨rfl, rfl⟩

/-- A holder accepts what its group sends. -/
theorem request_line (op : Op) : h.request (requestLine h.token op) = .ok (some op) :=
  h.request_eq_some.mpr ⟨_, loads_request h op, rfl, rfl⟩

end Requests

/-! ### The group over bytes -/

/-- A connection: the bytes that the holder has not read, the bytes it has sent that have not been
read, whether the connection has gone, and whether the holder has left it over a line. -/
structure Conn where
  up : Bytes
  wire : Bytes
  closed : Bool
  left : Bool

/-- `_send` and `_recv_line`, as before; what goes out is a line.  It is one record of the TLS
connection: when sending it fails, the holder gets nothing of it, or all. -/
inductive Exchange (token : PyStr) (depth : ℕ) (op : Op) (w : ℕ → Conn) (i : ℕ) :
    Talk → (ℕ → Conn) → Heard → Prop
  | send : Exchange token depth op w i .toSend
      (Function.update w i { w i with up := (w i).up ++ requestLine token op })
      (.more (.receiving []))
  | sendError : Exchange token depth op w i .toSend w (.done (.error .osError))
  | sentError : Exchange token depth op w i .toSend
      (Function.update w i { w i with up := (w i).up ++ requestLine token op })
      (.done (.error .osError))
  | chunk {buf c rest : Bytes} : (w i).wire = c ++ rest → c ≠ [] → c.length ≤ 4096 →
      (buf ++ c).getLast? ≠ some 10 →
      Exchange token depth op w i (.receiving buf)
        (Function.update w i { w i with wire := rest }) (.more (.receiving (buf ++ c)))
  | line {buf c rest : Bytes} : (w i).wire = c ++ rest → c ≠ [] → c.length ≤ 4096 →
      (buf ++ c).getLast? = some 10 →
      Exchange token depth op w i (.receiving buf)
        (Function.update w i { w i with wire := rest }) (.done (parseLine depth (buf ++ c)))
  | eof {buf : Bytes} : (w i).closed = true → (w i).wire = [] →
      Exchange token depth op w i (.receiving buf) w (.done (.error .eofError))
  | timeout {buf : Bytes} :
      Exchange token depth op w i (.receiving buf) w (.done (.error .osError))

/-- What `fetch` makes of it. -/
inductive FetchTalk (token : PyStr) (depth : ℕ) (w : ℕ → Conn) (i : ℕ) (talk : Talk)
    (w' : ℕ → Conn) : Progress Talk → Prop
  | more {talk' : Talk} : Exchange token depth .getShare w i talk w' (.more talk') →
      FetchTalk token depth w i talk w' (.more talk')
  | reply {v : Json} {x : ℤ} {y : Bytes} :
      Exchange token depth .getShare w i talk w' (.done (.ok v)) → readShare v = .ok (x, y) →
      FetchTalk token depth w i talk w' (.reply x y)
  | unread {v : Json} {e : PyError} :
      Exchange token depth .getShare w i talk w' (.done (.ok v)) → readShare v = .error e →
      FetchTalk token depth w i talk w' (.raises e)
  | raises {e : PyError} : Exchange token depth .getShare w i talk w' (.done (.error e)) →
      FetchTalk token depth w i talk w' (.raises e)

def protocol (token : PyStr) (k n : ℕ) (killThreshold : ℤ) (depth : ℕ) :
    Protocol (ℕ → Conn) Talk where
  k := k
  n := n
  killThreshold := killThreshold
  caught := NetworkTrustGroup.caught
  start := .toSend
  talk := FetchTalk token depth

/-- The steps of `_monitor`. -/
inductive MonitorStep (token : PyStr) (n : ℕ) (killThreshold : ℤ) (depth : ℕ) :
    TrustGroup (ℕ → Conn) → NetworkTrustGroup.Monitor → TrustGroup (ℕ → Conn) →
    NetworkTrustGroup.Monitor → Prop
  | skip {g : TrustGroup (ℕ → Conn)} {i : ℕ} : i < n → i ∈ g.tally.compromised →
      MonitorStep token n killThreshold depth g (.testing i) g (.testing (i + 1))
  | ping {g : TrustGroup (ℕ → Conn)} {i : ℕ} : i < n → i ∉ g.tally.compromised →
      MonitorStep token n killThreshold depth g (.testing i) g (.waiting i)
  | sleep {g : TrustGroup (ℕ → Conn)} :
      MonitorStep token n killThreshold depth g (.testing n) g (.testing 0)
  | acquire {g : TrustGroup (ℕ → Conn)} {i : ℕ} : g.lock = none →
      MonitorStep token n killThreshold depth g (.waiting i)
        { g with lock := some .monitor } (.pinging i .toSend)
  | more {g : TrustGroup (ℕ → Conn)} {i : ℕ} {talk talk' : Talk} {w : ℕ → Conn} :
      Exchange token depth .ping g.world i talk w (.more talk') →
      MonitorStep token n killThreshold depth g (.pinging i talk)
        { g with world := w } (.pinging i talk')
  | alive {g : TrustGroup (ℕ → Conn)} {i : ℕ} {talk : Talk} {w : ℕ → Conn}
      {result : Except PyError Json} :
      Exchange token depth .ping g.world i talk w (.done result) → pong result = .ok true →
      MonitorStep token n killThreshold depth g (.pinging i talk)
        { g with world := w, lock := none } (.testing (i + 1))
  | dead {g : TrustGroup (ℕ → Conn)} {i : ℕ} {talk : Talk} {w : ℕ → Conn}
      {result : Except PyError Json} :
      Exchange token depth .ping g.world i talk w (.done result) → pong result = .ok false →
      MonitorStep token n killThreshold depth g (.pinging i talk)
        { g with world := w, lock := none } (.marking i .check)
  | raise {g : TrustGroup (ℕ → Conn)} {i : ℕ} {talk : Talk} {w : ℕ → Conn}
      {result : Except PyError Json} {e : PyError} :
      Exchange token depth .ping g.world i talk w (.done result) → pong result = .error e →
      MonitorStep token n killThreshold depth g (.pinging i talk)
        { g with world := w, lock := none } .ended
  | mark {g : TrustGroup (ℕ → Conn)} {i : ℕ} {mark : Mark} : mark ≠ .done →
      MonitorStep token n killThreshold depth g (.marking i mark)
        { g with tally := (mark.step killThreshold i g.tally).1 }
        (.marking i (mark.step killThreshold i g.tally).2)
  | marked {g : TrustGroup (ℕ → Conn)} {i : ℕ} :
      MonitorStep token n killThreshold depth g (.marking i .done) g (.testing (i + 1))

structure State where
  group : TrustGroup (ℕ → Conn)
  fetchers : ℕ → FetchPhase Talk
  monitor : NetworkTrustGroup.Monitor

def start : State where
  group := { world := fun _ => ⟨[], [], false, false⟩, tally := .new, lock := none }
  fetchers := fun _ => .idle
  monitor := .testing 0

/-- Replace one connection. -/
def State.setConn (s : State) (i : ℕ) (conn : Conn) : State :=
  { s with group := { s.group with world := Function.update s.group.world i conn } }

/-- One step of anyone.  A holder reads a line and answers it, or leaves the connection over it;
or the connection goes. -/
inductive Step (holders : ℕ → HolderServer.Holder) (token : PyStr)
    (p : Protocol (ℕ → Conn) Talk) (depth : ℕ) : State → Event → State → Prop
  | fetcher {s : State} {t : ℕ} {phase phase' : FetchPhase Talk} {news : News}
      {g : TrustGroup (ℕ → Conn)} : s.group.tally.killed = false → s.fetchers t = phase →
      FetchStep p t s.group phase news g phase' →
      Step holders token p depth s (.fetcher t news)
        { s with group := g, fetchers := Function.update s.fetchers t phase' }
  | monitor {s : State} {g : TrustGroup (ℕ → Conn)} {monitor : NetworkTrustGroup.Monitor} :
      s.group.tally.killed = false →
      MonitorStep token p.n p.killThreshold depth s.group s.monitor g monitor →
      Step holders token p depth s .monitor { s with group := g, monitor := monitor }
  | answer {s : State} {i : ℕ} {request rest : Bytes} {op : Op} :
      (s.group.world i).closed = false →
      readLine (s.group.world i).up = some (request, rest) →
      (holders i).request request = .ok (some op) →
      Step holders token p depth s (.answer i) (s.setConn i
        { s.group.world i with
          up := rest
          wire := (s.group.world i).wire ++ line (reply (holders i).share op) })
  | leave {s : State} {i : ℕ} {request rest : Bytes} : (s.group.world i).closed = false →
      readLine (s.group.world i).up = some (request, rest) →
      (∀ op, (holders i).request request ≠ .ok (some op)) →
      Step holders token p depth s (.cut i) (s.setConn i
        { s.group.world i with up := rest, closed := true, left := true })
  | cut {s : State} {i m : ℕ} :
      Step holders token p depth s (.cut i) (s.setConn i
        { s.group.world i with closed := true, wire := (s.group.world i).wire.take m })

/-! ### The same over operations -/

variable {token : PyStr} {holders : ℕ → HolderServer.Holder}

/-- What has been sent to a holder is whole requests. -/
structure Alike (token : PyStr) (conn : Conn) (sock : Sock) : Prop where
  up : conn.up = sock.requests.flatMap (requestLine token)
  wire : conn.wire = sock.wire
  closed : conn.closed = sock.closed
  left : conn.left = false

/-- The group is where it would be over operations. -/
structure Same (token : PyStr) (s : State) (a : NetworkTrustGroup.State) : Prop where
  world : ∀ i, Alike token (s.group.world i) (a.group.world i)
  tally : s.group.tally = a.group.tally
  lock : s.group.lock = a.group.lock
  fetchers : s.fetchers = a.fetchers
  monitor : s.monitor = a.monitor

theorem alike_update {w : ℕ → Conn} {v : ℕ → Sock} (h : ∀ i, Alike token (w i) (v i)) {i : ℕ}
    {conn : Conn} {sock : Sock} (hi : Alike token conn sock) (j : ℕ) :
    Alike token (Function.update w i conn j) (Function.update v i sock j) := by
  by_cases hj : j = i
  · subst hj
    rwa [Function.update_self, Function.update_self]
  · rw [Function.update_of_ne hj, Function.update_of_ne hj]
    exact h j

/-- One request more. -/
theorem Alike.send {conn : Conn} {sock : Sock} (h : Alike token conn sock) (op : Op) :
    Alike token { conn with up := conn.up ++ requestLine token op }
      { sock with requests := sock.requests ++ [op] } where
  up := by
    rw [List.flatMap_append, List.flatMap_singleton, ← h.up]
  wire := h.wire
  closed := h.closed
  left := h.left

theorem Exchange.related {depth : ℕ} {op : Op} {w w' : ℕ → Conn} {v : ℕ → Sock} {i : ℕ}
    {talk : Talk} {heard : Heard} (h : ∀ j, Alike token (w j) (v j))
    (hx : Exchange token depth op w i talk w' heard) :
    ∃ v', NetworkTrustGroup.Exchange depth op v i talk v' heard ∧
      ∀ j, Alike token (w' j) (v' j) := by
  have hwire := (h i).wire
  cases hx with
  | send => exact ⟨_, .send, alike_update h ((h i).send op)⟩
  | sendError => exact ⟨_, .sendError, h⟩
  | sentError => exact ⟨_, .sentError, alike_update h ((h i).send op)⟩
  | chunk hread hne hlen hlast =>
    exact ⟨_, .chunk (hwire.symm.trans hread) hne hlen hlast,
      alike_update h { h i with wire := rfl }⟩
  | line hread hne hlen hlast =>
    exact ⟨_, .line (hwire.symm.trans hread) hne hlen hlast,
      alike_update h { h i with wire := rfl }⟩
  | eof hclosed hread =>
    exact ⟨_, .eof ((h i).closed.symm.trans hclosed) (hwire.symm.trans hread), h⟩
  | timeout => exact ⟨_, .timeout, h⟩

theorem FetchTalk.related {depth : ℕ} {w w' : ℕ → Conn} {v : ℕ → Sock} {i : ℕ} {talk : Talk}
    {progress : Progress Talk} (h : ∀ j, Alike token (w j) (v j))
    (hx : FetchTalk token depth w i talk w' progress) :
    ∃ v', NetworkTrustGroup.FetchTalk depth v i talk v' progress ∧
      ∀ j, Alike token (w' j) (v' j) := by
  cases hx with
  | more hx =>
    obtain ⟨v', hv, h'⟩ := hx.related h
    exact ⟨v', .more hv, h'⟩
  | reply hx hread =>
    obtain ⟨v', hv, h'⟩ := hx.related h
    exact ⟨v', .reply hv hread, h'⟩
  | unread hx hread =>
    obtain ⟨v', hv, h'⟩ := hx.related h
    exact ⟨v', .unread hv hread, h'⟩
  | raises hx =>
    obtain ⟨v', hv, h'⟩ := hx.related h
    exact ⟨v', .raises hv, h'⟩

/-- The same group, over operations. -/
def onSocks (g : TrustGroup (ℕ → Conn)) (v : ℕ → Sock) : TrustGroup (ℕ → Sock) :=
  { world := v, tally := g.tally, lock := g.lock }

theorem fetchStep_related {k n : ℕ} {killThreshold : ℤ} {depth t : ℕ}
    {g g' : TrustGroup (ℕ → Conn)} {phase phase' : FetchPhase Talk} {news : News} {v : ℕ → Sock}
    (h : ∀ j, Alike token (g.world j) (v j))
    (hx : FetchStep (protocol token k n killThreshold depth) t g phase news g' phase') :
    ∃ v', FetchStep (NetworkTrustGroup.protocol k n killThreshold depth) t (onSocks g v) phase news
        (onSocks g' v') phase' ∧ ∀ j, Alike token (g'.world j) (v' j) := by
  cases hx with
  | call => exact ⟨v, .call, h⟩
  | scan hlt => exact ⟨v, .scan hlt, h⟩
  | few hlt => exact ⟨v, .few hlt, h⟩
  | enough hge => exact ⟨v, .enough hge, h⟩
  | acquire hlock => exact ⟨v, .acquire hlock, h⟩
  | more hx =>
    obtain ⟨v', hv, h'⟩ := FetchTalk.related h hx
    exact ⟨v', .more hv, h'⟩
  | reply hx =>
    obtain ⟨v', hv, h'⟩ := FetchTalk.related h hx
    exact ⟨v', .reply hv, h'⟩
  | fail hx hcaught =>
    obtain ⟨v', hv, h'⟩ := FetchTalk.related h hx
    exact ⟨v', .fail hv hcaught, h'⟩
  | escape hx hcaught =>
    obtain ⟨v', hv, h'⟩ := FetchTalk.related h hx
    exact ⟨v', .escape hv hcaught, h'⟩
  | mark hmark => exact ⟨v, .mark hmark, h⟩
  | marked => exact ⟨v, .marked, h⟩
  | release => exact ⟨v, .release, h⟩
  | combine hcombine => exact ⟨v, .combine hcombine, h⟩
  | combineFail hcombine => exact ⟨v, .combineFail hcombine, h⟩
  | leave => exact ⟨v, .leave, h⟩
  | catch_ => exact ⟨v, .catch_, h⟩

theorem MonitorStep.related {n : ℕ} {killThreshold : ℤ} {depth : ℕ}
    {g g' : TrustGroup (ℕ → Conn)} {m m' : NetworkTrustGroup.Monitor} {v : ℕ → Sock}
    (h : ∀ j, Alike token (g.world j) (v j))
    (hx : MonitorStep token n killThreshold depth g m g' m') :
    ∃ v', NetworkTrustGroup.MonitorStep n killThreshold depth (onSocks g v) m (onSocks g' v') m' ∧
      ∀ j, Alike token (g'.world j) (v' j) := by
  cases hx with
  | skip hlt hmem => exact ⟨v, .skip hlt hmem, h⟩
  | ping hlt hmem => exact ⟨v, .ping hlt hmem, h⟩
  | sleep => exact ⟨v, .sleep, h⟩
  | acquire hlock => exact ⟨v, .acquire hlock, h⟩
  | more hx =>
    obtain ⟨v', hv, h'⟩ := hx.related h
    exact ⟨v', .more hv, h'⟩
  | alive hx hpong =>
    obtain ⟨v', hv, h'⟩ := hx.related h
    exact ⟨v', .alive hv hpong, h'⟩
  | dead hx hpong =>
    obtain ⟨v', hv, h'⟩ := hx.related h
    exact ⟨v', .dead hv hpong, h'⟩
  | raise hx hpong =>
    obtain ⟨v', hv, h'⟩ := hx.related h
    exact ⟨v', .raise hv hpong, h'⟩
  | mark hmark => exact ⟨v, .mark hmark, h⟩
  | marked => exact ⟨v, .marked, h⟩

/-- The first line that a holder reads is the first request. -/
theorem Alike.readLine_eq {conn : Conn} {sock : Sock} (holder : HolderServer.Holder)
    (h : Alike holder.token conn sock) {request rest : Bytes}
    (hread : readLine conn.up = some (request, rest)) :
    ∃ op ops, sock.requests = op :: ops ∧ request = requestLine holder.token op ∧
      rest = ops.flatMap (requestLine holder.token) := by
  rw [h.up] at hread
  cases hops : sock.requests with
  | nil =>
    rw [hops] at hread
    cases hread
  | cons op ops =>
    rw [hops, List.flatMap_cons, readLine_request] at hread
    obtain ⟨rfl, rfl⟩ := Prod.mk.inj (Option.some.inj hread)
    exact ⟨op, ops, rfl, rfl, rfl⟩

theorem Step.related {shares : List (ℤ × Bytes)} {k n : ℕ} {killThreshold : ℤ} {depth : ℕ}
    (htoken : ∀ i, (holders i).token = token)
    (hshare : ∀ i, (holders i).share = shares.getD i default)
    {s s' : State} {event : Event} {a : NetworkTrustGroup.State} (h : Same token s a)
    (hs : Step holders token (protocol token k n killThreshold depth) depth s event s') :
    ∃ a', NetworkTrustGroup.Step shares (NetworkTrustGroup.protocol k n killThreshold depth) depth
        a event a' ∧ Same token s' a' := by
  obtain ⟨hworld, htally, hlock, hfetchers, hmonitor⟩ := h
  have hover : onSocks s.group a.group.world = a.group := by
    rw [onSocks, htally, hlock]
  cases hs with
  | fetcher hkilled hphase hx =>
    obtain ⟨v', hv, h'⟩ := fetchStep_related hworld hx
    rw [hover] at hv
    exact ⟨_, .fetcher (htally ▸ hkilled) (hfetchers ▸ hphase) hv, h', rfl, rfl,
      congrArg (Function.update · _ _) hfetchers, hmonitor⟩
  | monitor hkilled hx =>
    obtain ⟨v', hv, h'⟩ := hx.related hworld
    rw [hover, hmonitor] at hv
    exact ⟨_, .monitor (htally ▸ hkilled) hv, h', rfl, rfl, hfetchers, rfl⟩
  | @answer i request rest op hclosed hread hrequest =>
    have hi := hworld i
    rw [← htoken i] at hi
    obtain ⟨op', ops, hops, rfl, rfl⟩ := hi.readLine_eq (holders i) hread
    rw [request_line] at hrequest
    obtain rfl := Option.some.inj (Except.ok.inj hrequest)
    refine ⟨_, .answer ((hworld i).closed.symm.trans hclosed) hops, ?_, htally, hlock, hfetchers,
      hmonitor⟩
    refine alike_update hworld ⟨?_, ?_, hi.closed, hi.left⟩
    · rw [htoken]
    · rw [hi.wire, hshare]
  | @leave i request rest hclosed hread hrequest =>
    have hi := hworld i
    rw [← htoken i] at hi
    obtain ⟨op, ops, -, rfl, -⟩ := hi.readLine_eq (holders i) hread
    exact absurd (request_line (holders i) op) (hrequest op)
  | @cut i m =>
    refine ⟨_, .cut (m := m), ?_, htally, hlock, hfetchers, hmonitor⟩
    have hi := hworld i
    exact alike_update hworld ⟨hi.up, by rw [hi.wire], rfl, hi.left⟩

theorem same_start (token : PyStr) : Same token start NetworkTrustGroup.start :=
  ⟨fun _ => ⟨rfl, rfl, rfl, rfl⟩, rfl, rfl, rfl, rfl⟩

/-- **Refinement.**  What the group does over bytes, it does over operations. -/
theorem related_run {shares : List (ℤ × Bytes)} {k n : ℕ} {killThreshold : ℤ} {depth : ℕ}
    (htoken : ∀ i, (holders i).token = token)
    (hshare : ∀ i, (holders i).share = shares.getD i default)
    {events : List Event} {s : State}
    (hrun : Run (Step holders token (protocol token k n killThreshold depth) depth) start events
      s) :
    ∃ a, Run (NetworkTrustGroup.Step shares (NetworkTrustGroup.protocol k n killThreshold depth)
        depth) NetworkTrustGroup.start events a ∧ Same token s a :=
  hrun.related (fun h hs => hs.related htoken hshare h) (same_start token)

/-- **Over the wire.**  In every run, with the bytes of the holders late, in any pieces and cut
off anywhere, and with exceptions at any moment: no holder has left its connection over a line;
what it has not read is whole requests of its group; and every call of `fetch` that has returned
has returned the secret that was split. -/
theorem over_the_wire {secret : Bytes} {k n : ℕ} {urandom : ℕ → ℕ → UInt8}
    {shares : List (ℤ × Bytes)} (hsplit : splitSecret secret k n urandom = .ok shares)
    (htoken : ∀ i, (holders i).token = token)
    (hshare : ∀ i, (holders i).share = shares.getD i default) {killThreshold : ℤ} {depth : ℕ}
    {events : List Event} {s : State}
    (hrun : Run (Step holders token (protocol token k n killThreshold depth) depth) start events
      s) :
    (∀ i, (s.group.world i).left = false ∧
      ∃ ops : List Op, (s.group.world i).up = ops.flatMap (requestLine token)) ∧
    ∀ t v, s.fetchers t = .returned v → v = secret := by
  obtain ⟨a, harun, hsame⟩ := related_run htoken hshare hrun
  refine ⟨fun i => ⟨(hsame.world i).left, _, (hsame.world i).up⟩, fun t v hreturned => ?_⟩
  have hobs := (NetworkTrustGroup.inv_of_run hsplit harun).observed t
  rw [← hsame.fetchers, hreturned] at hobs
  exact hobs.eq_secret hsplit

/-- A line that comes at once. -/
theorem exchange_of_line {share : ℤ × Bytes} (hdealt : NetworkTrustGroup.Dealt share)
    (hdigits : (Json.decimal share.1.toNat).length ≤ Json.maxDigits) {depth i : ℕ} {op op' : Op}
    {w : ℕ → Conn} (hwire : (w i).wire = line (reply share op))
    (hlen : (line (reply share op)).length ≤ 4096) :
    Exchange token depth op' w i (.receiving []) (Function.update w i { w i with wire := [] })
      (.done (.ok (reply share op))) := by
  have hlast : (line (reply share op)).getLast? = some 10 := by
    rw [line, NetworkTrustGroup.encode, List.map_append]
    simp
  have hne : line (reply share op) ≠ [] := by
    intro h
    rw [h] at hlast
    cases hlast
  rw [← NetworkTrustGroup.parseLine_line hdealt hdigits op depth]
  exact Exchange.line (hwire.trans (List.append_nil _).symm) hne hlen hlast

/-- A group of two holders.  A ping is answered; of two fetches the first times out over the
first holder, whose answer comes late and is taken by the other; and its connection goes. -/
theorem over_the_wire_one :
    ∃ (holders : ℕ → HolderServer.Holder) (token : PyStr) (events : List Event) (s : State)
      (v : Bytes), Run (Step holders token (protocol token 2 2 3 100) 100) start events s ∧
        s.monitor = .testing 1 ∧ s.fetchers 0 = .raised .trustGroupCompromised ∧
        (s.group.world 0).up = requestLine token .getShare ∧ (s.group.world 0).closed = true ∧
        (s.group.world 0).left = false ∧ s.fetchers 1 = .returned v ∧ v = [7] := by
  have hsplit : splitSecret [7] 2 2 (fun _ _ => 1) = .ok [(1, [6]), (2, [5])] := by
    decide +kernel
  have hcombine := combineShares_picks hsplit (by decide) (show [0, 1].Nodup by decide) (by decide)
    (by decide)
  let holders : ℕ → HolderServer.Holder := fun i =>
    ⟨0, id, fun _ => true, [0xA5, 0x0F], [(1, [6]), (2, [5])].getD i default⟩
  let token := (holders 0).token
  have hread : ∀ op, readLine (requestLine token op) = some (requestLine token op, []) := by
    intro op
    have hfirst := readLine_request (holders 0) op []
    rwa [List.append_nil] at hfirst
  have hreply : ∀ (share : ℤ × Bytes) (op : Op), share = (1, [6]) ∨ share = (2, [5]) →
      NetworkTrustGroup.Dealt share ∧ (Json.decimal share.1.toNat).length ≤ Json.maxDigits ∧
        (line (reply share op)).length ≤ 4096 := by
    rintro share op (rfl | rfl)
    · refine ⟨show (0 : ℤ) ≤ 1 by decide, by decide, ?_⟩
      cases op with
      | ping => decide +kernel
      | getShare => decide +kernel
    · refine ⟨show (0 : ℤ) ≤ 2 by decide, by decide, ?_⟩
      cases op with
      | ping => decide +kernel
      | getShare => decide +kernel
  have hexchange : ∀ {share : ℤ × Bytes} {op op' : Op} {i : ℕ} {w : ℕ → Conn},
      share = (1, [6]) ∨ share = (2, [5]) → (w i).wire = line (reply share op) →
      Exchange token 100 op' w i (.receiving []) (Function.update w i { w i with wire := [] })
        (.done (.ok (reply share op))) := fun {share op} _ _ _ hs hwire =>
    exchange_of_line (hreply share op hs).1 (hreply share op hs).2.1 hwire (hreply share op hs).2.2
  have hrun := Run.refl (Step holders token (protocol token 2 2 3 100) 100) start
    |>.snoc (.monitor rfl (.ping (i := 0) (by decide) (by decide)))
    |>.snoc (.monitor rfl (.acquire rfl))
    |>.snoc (.monitor rfl (.more .send))
    |>.snoc (.answer (i := 0) rfl (hread .ping) (request_line (holders 0) .ping))
    |>.snoc (.monitor rfl (.alive (hexchange (Or.inl rfl) rfl) rfl))
    |>.snoc (.fetcher (t := 1) rfl rfl .call)
    |>.snoc (.fetcher (t := 1) rfl rfl (.scan (by decide)))
    |>.snoc (.fetcher (t := 1) rfl rfl (.scan (by decide)))
    |>.snoc (.fetcher (t := 1) rfl rfl (.enough (by decide)))
    |>.snoc (.fetcher (t := 0) rfl rfl .call)
    |>.snoc (.fetcher (t := 0) rfl rfl (.scan (by decide)))
    |>.snoc (.fetcher (t := 0) rfl rfl (.scan (by decide)))
    |>.snoc (.fetcher (t := 0) rfl rfl (.enough (by decide)))
    |>.snoc (.fetcher (t := 0) rfl rfl (.acquire rfl))
    |>.snoc (.fetcher (t := 0) rfl rfl (.more (.more .send)))
    |>.snoc (.fetcher (t := 0) rfl rfl (.fail (.raises .timeout) rfl))
    |>.snoc (.fetcher (t := 0) rfl rfl (.mark (by decide)))
    |>.snoc (.fetcher (t := 0) rfl rfl (.mark (show Mark.add ≠ .done by decide)))
    |>.snoc (.fetcher (t := 0) rfl rfl (.mark (show Mark.guard ≠ .done by decide)))
    |>.snoc (.fetcher (t := 0) rfl rfl (.mark (show Mark.compare ≠ .done by decide)))
    |>.snoc (.fetcher (t := 0) rfl rfl .marked)
    |>.snoc (.fetcher (t := 1) rfl rfl (.acquire rfl))
    |>.snoc (.fetcher (t := 1) rfl rfl (.more (.more .send)))
    -- the answer to the request of the other call
    |>.snoc (.answer (i := 0) rfl (readLine_request (holders 0) .getShare _)
      (request_line (holders 0) .getShare))
    |>.snoc (.fetcher (t := 1) rfl rfl (.reply (.reply
      (hexchange (Or.inl rfl) rfl) (NetworkTrustGroup.readShare_getShare _))))
    |>.snoc (.cut (i := 0) (m := 0))
    |>.snoc (.fetcher (t := 1) rfl rfl (.more (.more .send)))
    |>.snoc (.answer (i := 1) rfl (hread .getShare) (request_line (holders 1) .getShare))
    |>.snoc (.fetcher (t := 1) rfl rfl (.reply (.reply
      (hexchange (Or.inr rfl) rfl) (NetworkTrustGroup.readShare_getShare _))))
    |>.snoc (.fetcher (t := 1) rfl rfl .release)
    |>.snoc (.fetcher (t := 1) rfl rfl (.combine hcombine))
  have htoken : ∀ i, (holders i).token = token := fun _ => rfl
  have hshare : ∀ i, (holders i).share = [(1, [6]), (2, [5])].getD i default := fun _ => rfl
  have hwire := over_the_wire hsplit htoken hshare hrun
  exact ⟨holders, token, _, _, _, hrun, rfl, rfl, rfl, rfl, (hwire.1 0).1, rfl, hwire.2 1 _ rfl⟩

end HolderWire
