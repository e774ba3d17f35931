/-
`holder_server.py`: what a holder survives.

Anyone may connect to a holder and send it lines.  It reads each as JSON, compares the
token in it with its own and answers; some exceptions are caught inside
`_handle_connection`, some by the accept loop of `main`, and the others end the process.

* `main_serving`: the holder is still serving after a list of connections exactly when it
  survives each of them.
* `robust_iff`: and it survives a connection exactly when the handshake succeeds, no line
  that it gets to is `Deadly`, and no reply is lost twice.
-/
import Mathlib
import VStorage.Json
import VStorage.NetworkTrustGroup

namespace HolderServer

/-! ### Bytes to text -/

/-- The 'surrogatepass' error handler, for UTF-8: three bytes that would be a surrogate. -/
def passSurrogate : Bytes → Option (ℕ × Bytes)
  | a :: b :: c :: rest =>
    let continues (b : UInt8) : Bool := 0x80 ≤ b.toNat ∧ b.toNat < 0xC0
    let n := (a.toNat - 0xE0) * 4096 + (b.toNat - 0x80) * 64 + (c.toNat - 0x80)
    if 0xE0 ≤ a.toNat ∧ a.toNat < 0xF0 ∧ continues b ∧ continues c ∧ 0xD800 ≤ n ∧ n < 0xE000 then
      some (n, rest)
    else none
  | _ => none

/-- The number bounds the passes of the loop. -/
def utf8Loop : ℕ → Bytes → Except PyError PyStr
  | _, [] => .ok []
  | 0, _ :: _ => .error .valueError
  | fuel + 1, b :: bs =>
    match (NetworkTrustGroup.decodeChar (b :: bs)).or (passSurrogate (b :: bs)) with
    | none => .error .valueError
    | some (c, rest) => do return c :: (← utf8Loop fuel rest)

def utf8 (bs : Bytes) : Except PyError PyStr := utf8Loop bs.length bs

/-- Surrogates that pair up make one character; the others stay. -/
def joinSurrogates : PyStr → PyStr
  | [] => []
  | [c] => [c]
  | c :: d :: rest =>
    if 0xD800 ≤ c ∧ c < 0xDC00 ∧ 0xDC00 ≤ d ∧ d < 0xE000 then
      (0x10000 + (c - 0xD800) * 0x400 + (d - 0xDC00)) :: joinSurrogates rest
    else c :: joinSurrogates (d :: rest)

def utf16Units (bigEndian : Bool) : Bytes → Except PyError PyStr
  | [] => .ok []
  | [_] => .error .valueError
  | a :: b :: rest => do
    let unit := if bigEndian then 256 * a.toNat + b.toNat else 256 * b.toNat + a.toNat
    return unit :: (← utf16Units bigEndian rest)

def utf16 (bigEndian : Bool) (bs : Bytes) : Except PyError PyStr := do
  return joinSurrogates (← utf16Units bigEndian bs)

def utf32 (bigEndian : Bool) : Bytes → Except PyError PyStr
  | [] => .ok []
  | [_] | [_, _] | [_, _, _] => .error .valueError
  | a :: b :: c :: d :: rest =>
    let bytes := if bigEndian then [a, b, c, d] else [d, c, b, a]
    let n := bytes.foldl (fun n b => 256 * n + b.toNat) 0
    if n < 0x110000 then do return n :: (← utf32 bigEndian rest) else .error .valueError

inductive Encoding
  | utf8
  | utf8Sig
  | utf16
  | utf16be
  | utf16le
  | utf32
  | utf32be
  | utf32le
  deriving DecidableEq

/-- `json.detect_encoding`. -/
def detectEncoding (b : Bytes) : Encoding :=
  if b.take 4 = [0x00, 0x00, 0xFE, 0xFF] ∨ b.take 4 = [0xFF, 0xFE, 0x00, 0x00] then .utf32
  else if b.take 2 = [0xFE, 0xFF] ∨ b.take 2 = [0xFF, 0xFE] then .utf16
  else if b.take 3 = [0xEF, 0xBB, 0xBF] then .utf8Sig
  else if 4 ≤ b.length then
    if b.getD 0 0 = 0 then if b.getD 1 0 ≠ 0 then .utf16be else .utf32be
    else if b.getD 1 0 = 0 then
      if b.getD 2 0 ≠ 0 ∨ b.getD 3 0 ≠ 0 then .utf16le else .utf32le
    else .utf8
  else if b.length = 2 then
    if b.getD 0 0 = 0 then .utf16be else if b.getD 1 0 = 0 then .utf16le else .utf8
  else .utf8

/-- `b.decode(encoding, 'surrogatepass')`.  A mark at the start tells the order of bytes. -/
def decodeAs (b : Bytes) : Encoding → Except PyError PyStr
  | .utf8 => utf8 b
  | .utf8Sig => utf8 (b.drop 3)
  | .utf16 => utf16 (b.take 2 = [0xFE, 0xFF]) (b.drop 2)
  | .utf16be => utf16 true b
  | .utf16le => utf16 false b
  | .utf32 => utf32 (b.take 4 = [0x00, 0x00, 0xFE, 0xFF]) (b.drop 4)
  | .utf32be => utf32 true b
  | .utf32le => utf32 false b

def decode (b : Bytes) : Except PyError PyStr := decodeAs b (detectEncoding b)

/-- `json.loads(line)`; values may be nested `depth` deep. -/
def loads (depth : ℕ) (line : Bytes) : Except PyError Json := do
  Json.loads depth (← decode line)

/-! ### Values to text -/

section Repr

/-! How a float is written and which characters print is left open. -/

variable (floatRepr : PyStr → PyStr) (printable : ℕ → Bool)

def hexDigits : ℕ → ℕ → PyStr
  | 0, _ => []
  | width + 1, n => hexDigits width (n / 16) ++ [Json.hexDigit (n % 16)]

/-- One character of `repr(s)`. -/
def reprChar (quote c : ℕ) : PyStr :=
  if c = quote ∨ c = '\\'.toNat then ['\\'.toNat, c]
  else if c = 9 then pyStr "\\t"
  else if c = 10 then pyStr "\\n"
  else if c = 13 then pyStr "\\r"
  else if c < 32 ∨ c = 127 then pyStr "\\x" ++ hexDigits 2 c
  else if c < 127 ∨ printable c then [c]
  else if c < 0x100 then pyStr "\\x" ++ hexDigits 2 c
  else if c < 0x10000 then pyStr "\\u" ++ hexDigits 4 c
  else pyStr "\\U" ++ hexDigits 8 c

def reprStr (s : PyStr) : PyStr :=
  let quote := if '\''.toNat ∈ s ∧ '"'.toNat ∉ s then '"'.toNat else '\''.toNat
  quote :: s.flatMap (reprChar printable quote) ++ [quote]

mutual

/-- `repr(v)`. -/
def repr : Json → PyStr
  | .null => pyStr "None"
  | .bool b => if b then pyStr "True" else pyStr "False"
  | .int n => Json.dumps (.int n)
  | .float text => floatRepr text
  | .str s => reprStr printable s
  | .arr items => pyStr "[" ++ reprItems items ++ pyStr "]"
  | .obj members => pyStr "\x7b" ++ reprMembers members ++ pyStr "\x7d"

def reprItems : List Json → PyStr
  | [] => []
  | [v] => repr v
  | v :: w :: items => repr v ++ pyStr ", " ++ reprItems (w :: items)

def reprMembers : List (PyStr × Json) → PyStr
  | [] => []
  | [(key, v)] => reprStr printable key ++ pyStr ": " ++ repr v
  | (key, v) :: m :: members =>
    reprStr printable key ++ pyStr ": " ++ repr v ++ pyStr ", " ++ reprMembers (m :: members)

end

/-- `str(v)`. -/
def str : Json → PyStr
  | .str s => s
  | v => repr floatRepr printable v

end Repr


/-! ### Connections -/

/-- What becomes of a reply: when it is lost, closing the file may fail over it again. -/
inductive Flush
  | sent
  | lost (again : Bool)
  deriving DecidableEq

/-- A connection that is taken: what its peer sends, whether reading then fails instead of
ending, and what becomes of the replies. -/
structure Peer where
  sends : Bytes
  breaks : Bool
  flush : ℕ → Flush

inductive Connection
  | refused
  | accepted (peer : Peer)

/-- A text cut after every newline. -/
def cutLines : Bytes → List Bytes
  | [] => []
  | b :: bs =>
    if b = 10 then [b] :: cutLines bs
    else match cutLines bs with
      | [] => [[b]]
      | line :: lines => (b :: line) :: lines

/-- What `f.readline()` returns, time after time: the start of a line is returned at the
end of the file, but not when reading fails. -/
def Peer.lines (peer : Peer) : List Bytes :=
  if peer.breaks then (cutLines peer.sends).filter fun line => line.getLast? = some 10
  else cutLines peer.sends

/-- A holder: what its `config` says, and what the interpreter it runs in does.  Values may
be nested `depth + 1` deep.  Its token is the `secrets.token_hex` of its group. -/
structure Holder where
  depth : ℕ
  floatRepr : PyStr → PyStr
  printable : ℕ → Bool
  secret : Bytes
  share : ℤ × Bytes

/-- The value of `op` in a request. -/
def opName : NetworkTrustGroup.Op → PyStr
  | .ping => pyStr "ping"
  | .getShare => pyStr "get_share"

/-- The operation that is answered, if `op` is one. -/
def readOp : Option Json → Option NetworkTrustGroup.Op
  | some (.str op) =>
    if op = opName .getShare then some .getShare
    else if op = opName .ping then some .ping
    else none
  | _ => none

/-- `msg.get(key)`. -/
def get (msg : Json) (key : PyStr) : Except PyError (Option Json) :=
  match msg with
  | .obj members => .ok (Json.lookup key members)
  | _ => .error .attributeError

def isAscii (s : PyStr) : Bool := s.all (· < 128)

/-- `hmac.compare_digest`, of strings. -/
def compareDigest (a b : PyStr) : Except PyError Bool :=
  if isAscii a ∧ isAscii b then .ok (a = b) else .error .typeError

namespace Holder

variable (h : Holder)

def token : PyStr := NetworkTrustGroup.hex h.secret

/-- `str(msg.get("token", ""))`. -/
def given (token : Option Json) : PyStr :=
  str h.floatRepr h.printable (token.getD (.str []))

/-- The operation that a line asks for, when its token is right. -/
def request (line : Bytes) : Except PyError (Option NetworkTrustGroup.Op) := do
  let msg ← loads (h.depth + 1) line
  let given := h.given (← get msg (pyStr "token"))
  if ¬ (← compareDigest given h.token) then return none
  return readOp (← get msg (pyStr "op"))

/-- The loop of `_handle_connection`: the replies, and what it raises.
`json.JSONDecodeError` is a `ValueError`; either way the loop is left. -/
def handleLines : (ℕ → Flush) → List Bytes → List Bytes × Except PyError Unit
  | _, [] => ([], .ok ())
  | flush, line :: lines =>
    match h.request line with
    | .error e => ([], if e = .osError ∨ e = .valueError then .ok () else .error e)
    | .ok none => ([], .ok ())
    | .ok (some op) =>
      match flush 0 with
      | .sent =>
        let (replies, result) := handleLines (fun n => flush (n + 1)) lines
        (NetworkTrustGroup.line (NetworkTrustGroup.reply h.share op) :: replies, result)
      -- the exception is caught, but `f.close()` writes what is still in the buffer
      | .lost again => ([], if again then .error .osError else .ok ())

def handleConnection (peer : Peer) : List Bytes × Except PyError Unit :=
  h.handleLines peer.flush peer.lines

/-- Where `main` is after the connections so far. -/
inductive Status
  | serving
  | exited
  | raised (e : PyError)
  deriving DecidableEq

/-- The accept loop of `main`: what it sends on each connection, and where it is then. -/
def main : List Connection → List (List Bytes) × Status
  | [] => ([], .serving)
  | .refused :: _ => ([], .exited)
  | .accepted peer :: conns =>
    match h.handleConnection peer with
    | (replies, .error e) => ([replies], .raised e)
    | (replies, .ok ()) =>
      let (rest, status) := main conns
      (replies :: rest, status)

/-! ### What a holder survives -/

/-- A line that is answered. -/
def Asks (line : Bytes) (op : NetworkTrustGroup.Op) : Prop :=
  ∃ members, loads (h.depth + 1) line = .ok (.obj members) ∧
    h.given (Json.lookup (pyStr "token") members) = h.token ∧
    Json.lookup (pyStr "op") members = some (.str (opName op))

/-- A line that ends the process: it is nested too deep, or no object, or its token is not
in ASCII. -/
def Deadly (line : Bytes) : Prop :=
  loads (h.depth + 1) line = .error .recursionError ∨
    ∃ msg, loads (h.depth + 1) line = .ok msg ∧
      ∀ members, msg = .obj members → isAscii (h.given (Json.lookup (pyStr "token") members)) = false

/-- The holder goes on to line `i`: it has answered the lines before. -/
def Reaches (flush : ℕ → Flush) (lines : List Bytes) (i : ℕ) : Prop :=
  ∀ j < i, flush j = .sent ∧ ∃ line op, lines[j]? = some line ∧ h.Asks line op

/-- None of the lines that the holder gets to is deadly, and no reply is lost twice. -/
def HarmlessLines (flush : ℕ → Flush) (lines : List Bytes) : Prop :=
  ∀ i line, lines[i]? = some line → h.Reaches flush lines i →
    ¬ h.Deadly line ∧ ∀ op, h.Asks line op → flush i ≠ .lost true

def Harmless : Connection → Prop
  | .refused => False
  | .accepted peer => h.HarmlessLines peer.flush peer.lines

/-- What the group's client sends for a share. -/
def client : Peer where
  sends := NetworkTrustGroup.line (.obj [(pyStr "op", .str (opName .getShare)),
    (pyStr "token", .str h.token)])
  breaks := false
  flush := fun _ => .sent

end Holder

/-! ### Decoding raises `ValueError` -/

theorem utf8_error {bs : Bytes} {e : PyError} (h : utf8 bs = .error e) : e = .valueError := by
  have hloop : ∀ fuel bs, utf8Loop fuel bs = .error e → e = .valueError := by
    intro fuel
    induction fuel with
    | zero =>
      intro bs h
      cases bs with
      | nil => exact nomatch h
      | cons b bs => exact (Except.error.inj h).symm
    | succ fuel ih =>
      intro bs h
      cases bs with
      | nil => exact nomatch h
      | cons b bs =>
        rw [utf8Loop] at h
        split at h
        · exact (Except.error.inj h).symm
        · rcases bind_eq_error.mp h with h | ⟨a, -, h⟩
          · exact ih _ h
          · exact nomatch h
  exact hloop _ _ h

theorem utf16_error {bigEndian : Bool} {bs : Bytes} {e : PyError}
    (h : utf16 bigEndian bs = .error e) : e = .valueError := by
  have hunits : ∀ bs, utf16Units bigEndian bs = .error e → e = .valueError := by
    intro bs h
    induction bs using utf16Units.induct bigEndian with
    | case1 => exact nomatch h
    | case2 => exact (Except.error.inj h).symm
    | case3 a b rest ih =>
      rcases bind_eq_error.mp h with h | ⟨_, -, h⟩
      · exact ih h
      · exact nomatch h
  rcases bind_eq_error.mp h with h | ⟨_, -, h⟩
  · exact hunits _ h
  · exact nomatch h

theorem utf32_error {bigEndian : Bool} {bs : Bytes} {e : PyError}
    (h : utf32 bigEndian bs = .error e) : e = .valueError := by
  induction bs using utf32.induct bigEndian with
  | case1 => exact nomatch h
  | case2 | case3 | case4 => exact (Except.error.inj h).symm
  | case5 a b c d rest bytes n hn ih =>
    rw [utf32, if_pos hn] at h
    rcases bind_eq_error.mp h with h | ⟨_, -, h⟩
    · exact ih h
    · exact nomatch h
  | case6 a b c d rest bytes n hn =>
    rw [utf32, if_neg hn] at h
    exact (Except.error.inj h).symm

theorem decode_error {b : Bytes} {e : PyError} (h : decode b = .error e) : e = .valueError := by
  have hall : ∀ encoding, decodeAs b encoding = .error e → e = .valueError := by
    intro encoding h
    cases encoding with
    | utf8 => exact utf8_error h
    | utf8Sig => exact utf8_error h
    | utf16 => exact utf16_error h
    | utf16be => exact utf16_error h
    | utf16le => exact utf16_error h
    | utf32 => exact utf32_error h
    | utf32be => exact utf32_error h
    | utf32le => exact utf32_error h
  exact hall _ h

theorem loads_error {depth : ℕ} {line : Bytes} {e : PyError} (h : loads depth line = .error e) :
    Json.Rejects e := by
  rcases bind_eq_error.mp h with h | ⟨s, -, h⟩
  · exact Or.inl (decode_error h)
  · exact Json.loads_error h

/-! ### One line -/

theorem readOp_eq_some {v : Option Json} {op : NetworkTrustGroup.Op} :
    readOp v = some op ↔ v = some (.str (opName op)) := by
  constructor
  · intro hop
    unfold readOp at hop
    split at hop
    · split at hop
      · rename_i h
        rw [h, ← Option.some.inj hop]
      split at hop
      · rename_i h
        rw [h, ← Option.some.inj hop]
      · exact nomatch hop
    · exact nomatch hop
  · rintro rfl
    cases op with
    | ping => rfl
    | getShare => rfl

/-- A call of `_handle_connection`: its arguments, but for the connection, and what the
interpreter does.  The index comes from a `config` that was read as JSON, so that it is short
enough to be written again. -/
structure Server where
  depth : ℕ
  floatRepr : PyStr → PyStr
  printable : ℕ → Bool
  token : PyStr
  ascii : isAscii token = true
  x : ℤ
  shareHex : PyStr

namespace Server

variable (s : Server)

/-- `str(msg.get("token", ""))`. -/
def given (token : Option Json) : PyStr :=
  str s.floatRepr s.printable (token.getD (.str []))

/-- The operation that a line asks for, when its token is right. -/
def request (line : Bytes) : Except PyError (Option NetworkTrustGroup.Op) := do
  let msg ← loads (s.depth + 1) line
  let given := s.given (← get msg (pyStr "token"))
  if ¬ (← compareDigest given s.token) then return none
  return readOp (← get msg (pyStr "op"))

/-- A line that is answered. -/
def Asks (line : Bytes) (op : NetworkTrustGroup.Op) : Prop :=
  ∃ members, loads (s.depth + 1) line = .ok (.obj members) ∧
    s.given (Json.lookup (pyStr "token") members) = s.token ∧
    Json.lookup (pyStr "op") members = some (.str (opName op))

/-- What comes of an object whose token is in ASCII. -/
theorem request_obj {line : Bytes} {members : List (PyStr × Json)}
    (hload : loads (s.depth + 1) line = .ok (.obj members))
    (hascii : isAscii (s.given (Json.lookup (pyStr "token") members)) = true) :
    s.request line = .ok (if s.given (Json.lookup (pyStr "token") members) = s.token then
      readOp (Json.lookup (pyStr "op") members) else none) := by
  have hdigest : compareDigest (s.given (Json.lookup (pyStr "token") members)) s.token
      = .ok (s.given (Json.lookup (pyStr "token") members) = s.token) :=
    if_pos ⟨hascii, s.ascii⟩
  rw [request, hload, ok_bind]
  simp only [get, ok_bind, hdigest]
  by_cases hsame : s.given (Json.lookup (pyStr "token") members) = s.token
  · rw [decide_eq_true hsame, if_neg (by decide), if_pos hsame]
    rfl
  · rw [decide_eq_false hsame, if_pos (by decide), if_neg hsame]
    rfl

theorem request_eq_some {line : Bytes} {op : NetworkTrustGroup.Op} :
    s.request line = .ok (some op) ↔ s.Asks line op := by
  constructor
  · intro hreq
    obtain ⟨msg, hload, hrest⟩ := bind_eq_ok.mp hreq
    obtain ⟨token, hget, hrest⟩ := bind_eq_ok.mp hrest
    cases msg with
    | obj members =>
      obtain rfl := Except.ok.inj hget
      by_cases hascii : isAscii (s.given (Json.lookup (pyStr "token") members)) = true
      · rw [s.request_obj hload hascii] at hreq
        have hop := Except.ok.inj hreq
        split at hop
        · rename_i htoken
          exact ⟨members, hload, htoken, readOp_eq_some.mp hop⟩
        · cases hop
      · -- `compare_digest` refuses the token
        obtain ⟨same, hdigest, -⟩ := bind_eq_ok.mp hrest
        rw [compareDigest, if_neg fun h => hascii h.1] at hdigest
        cases hdigest
    | _ => cases hget
  · rintro ⟨members, hload, htoken, hop⟩
    have hascii : isAscii (s.given (Json.lookup (pyStr "token") members)) = true := by
      rw [htoken]
      exact s.ascii
    rw [s.request_obj hload hascii, if_pos htoken, readOp_eq_some.mpr hop]

end Server

namespace Holder

variable (h : Holder)

theorem isAscii_token : isAscii h.token = true := by
  rw [isAscii, List.all_eq_true]
  intro c hc
  exact decide_eq_true (NetworkTrustGroup.inner_hex h.secret c hc).1

/-- The call of `_handle_connection` that `main` makes. -/
def server : Server where
  depth := h.depth
  floatRepr := h.floatRepr
  printable := h.printable
  token := h.token
  ascii := h.isAscii_token
  x := h.share.1
  shareHex := NetworkTrustGroup.hex h.share.2

/-- What comes of an object whose token is in ASCII. -/
theorem request_obj {line : Bytes} {members : List (PyStr × Json)}
    (hload : loads (h.depth + 1) line = .ok (.obj members))
    (hascii : isAscii (h.given (Json.lookup (pyStr "token") members)) = true) :
    h.request line = .ok (if h.given (Json.lookup (pyStr "token") members) = h.token then
      readOp (Json.lookup (pyStr "op") members) else none) :=
  h.server.request_obj hload hascii

/-- What a deadly line raises is not caught. -/
theorem request_deadly {line : Bytes} (hdeadly : h.Deadly line) :
    ∃ e, h.request line = .error e ∧ ¬ (e = .osError ∨ e = .valueError) := by
  rcases hdeadly with hload | ⟨msg, hload, hmsg⟩
  · exact ⟨.recursionError, by rw [request, hload, error_bind], by decide⟩
  cases msg with
  | obj members =>
    refine ⟨.typeError, ?_, by decide⟩
    have hdigest : compareDigest (h.given (Json.lookup (pyStr "token") members)) h.token
        = .error .typeError := if_neg (by simp [hmsg members rfl])
    rw [request, hload, ok_bind]
    simp only [get, ok_bind, hdigest, error_bind]
  | _ => exact ⟨.attributeError, by rw [request, hload, ok_bind]; rfl, by decide⟩

/-- Any other line is answered, or the connection is closed over it. -/
theorem request_survived {line : Bytes} (hdeadly : ¬ h.Deadly line) :
    h.request line = .error .valueError ∨ ∃ op, h.request line = .ok op := by
  cases hload : loads (h.depth + 1) line with
  | error e =>
    rcases loads_error hload with rfl | rfl
    · exact Or.inl (by rw [request, hload, error_bind])
    · exact absurd (Or.inl hload) hdeadly
  | ok msg =>
    right
    have hmsg : ¬ ∀ members, msg = .obj members →
        isAscii (h.given (Json.lookup (pyStr "token") members)) = false :=
      fun hmsg => hdeadly (Or.inr ⟨msg, hload, hmsg⟩)
    push Not at hmsg
    obtain ⟨members, rfl, hascii⟩ := hmsg
    exact ⟨_, h.request_obj hload (Bool.eq_true_of_not_eq_false hascii)⟩

theorem request_eq_some {line : Bytes} {op : NetworkTrustGroup.Op} :
    h.request line = .ok (some op) ↔ h.Asks line op :=
  h.server.request_eq_some

/-! ### One connection -/

theorem harmlessLines_nil (flush : ℕ → Flush) : h.HarmlessLines flush [] :=
  fun _ _ hline => (nomatch hline)

theorem reaches_succ {flush : ℕ → Flush} {line : Bytes} {lines : List Bytes} {i : ℕ} :
    h.Reaches flush (line :: lines) (i + 1) ↔
      (flush 0 = .sent ∧ ∃ op, h.Asks line op) ∧
        h.Reaches (fun n => flush (n + 1)) lines i := by
  constructor
  · intro hreach
    refine ⟨?_, fun j hj => hreach (j + 1) (by omega)⟩
    obtain ⟨hsent, line', op, hline, hasks⟩ := hreach 0 (by omega)
    obtain rfl := Option.some.inj hline
    exact ⟨hsent, op, hasks⟩
  · rintro ⟨⟨hsent, op, hasks⟩, hreach⟩ j hj
    cases j with
    | zero => exact ⟨hsent, line, op, rfl, hasks⟩
    | succ j => exact hreach j (by omega)

/-- The rest of the lines matters when the first is answered. -/
theorem harmlessLines_cons {flush : ℕ → Flush} {line : Bytes} {lines : List Bytes} :
    h.HarmlessLines flush (line :: lines) ↔
      (¬ h.Deadly line ∧ ∀ op, h.Asks line op → flush 0 ≠ .lost true) ∧
        ((flush 0 = .sent ∧ ∃ op, h.Asks line op) →
          h.HarmlessLines (fun n => flush (n + 1)) lines) := by
  constructor
  · intro hall
    refine ⟨hall 0 line rfl fun j hj => absurd hj (by omega), fun hfirst i line' hline hreach => ?_⟩
    exact hall (i + 1) line' hline (h.reaches_succ.mpr ⟨hfirst, hreach⟩)
  · rintro ⟨hfirst, hrest⟩ i line' hline hreach
    cases i with
    | zero =>
      obtain rfl := Option.some.inj hline
      exact hfirst
    | succ i =>
      obtain ⟨hanswered, hreach⟩ := h.reaches_succ.mp hreach
      exact hrest hanswered i line' hline hreach

/-- **One connection.**  Nothing leaves `_handle_connection` exactly when the lines are
harmless. -/
theorem handleLines_ok {flush : ℕ → Flush} {lines : List Bytes} :
    (h.handleLines flush lines).2 = .ok () ↔ h.HarmlessLines flush lines := by
  induction lines generalizing flush with
  | nil => exact iff_of_true rfl (h.harmlessLines_nil flush)
  | cons line lines ih =>
    rw [harmlessLines_cons, handleLines]
    by_cases hdeadly : h.Deadly line
    · obtain ⟨e, he, hcaught⟩ := h.request_deadly hdeadly
      rw [he]
      dsimp only
      rw [if_neg hcaught]
      exact iff_of_false (fun h => nomatch h) fun hall => hall.1.1 hdeadly
    rcases h.request_survived hdeadly with he | ⟨op, hop⟩
    · -- the line is rejected
      have hasks : ∀ op, ¬ h.Asks line op := by
        intro op hasks
        rw [h.request_eq_some.mpr hasks] at he
        exact nomatch he
      rw [he]
      dsimp only
      refine iff_of_true (if_pos (Or.inr rfl)) ⟨⟨hdeadly, fun op h => absurd h (hasks op)⟩, ?_⟩
      rintro ⟨-, op, h⟩
      exact absurd h (hasks op)
    rw [hop]
    cases op with
    | none =>
      -- the connection is closed over it
      have hasks : ∀ op, ¬ h.Asks line op := by
        intro op hasks
        rw [h.request_eq_some.mpr hasks] at hop
        exact nomatch hop
      refine iff_of_true rfl ⟨⟨hdeadly, fun op h => absurd h (hasks op)⟩, ?_⟩
      rintro ⟨-, op, h⟩
      exact absurd h (hasks op)
    | some op =>
      have hasks := h.request_eq_some.mp hop
      dsimp only
      cases hflush : flush 0 with
      | sent =>
        refine ih.trans ⟨fun hrest => ⟨⟨hdeadly, fun _ _ => nofun⟩, fun _ => hrest⟩, ?_⟩
        exact fun hall => hall.2 ⟨rfl, op, hasks⟩
      | lost again =>
        cases again with
        | true => exact iff_of_false (fun h => nomatch h) fun hall => hall.1.2 op hasks rfl
        | false => exact iff_of_true rfl ⟨⟨hdeadly, fun _ _ => by decide⟩, fun h => nomatch h.1⟩

/-! ### All connections -/

/-- **The accept loop.**  `main` is still serving exactly when it survives each connection. -/
theorem main_serving {conns : List Connection} :
    (h.main conns).2 = .serving ↔ ∀ c ∈ conns, h.Harmless c := by
  induction conns with
  | nil => exact iff_of_true rfl fun _ hc => (nomatch hc)
  | cons c conns ih =>
    rw [List.forall_mem_cons]
    cases c with
    | refused => exact iff_of_false (fun h => nomatch h) fun hall => hall.1
    | accepted peer =>
      have hpeer : (h.handleConnection peer).2 = .ok () ↔ h.Harmless (.accepted peer) :=
        h.handleLines_ok
      rw [← hpeer, ← ih, main]
      rcases hrun : h.handleConnection peer with ⟨replies, _ | ⟨⟩⟩
      · exact iff_of_false (fun h => nomatch h) fun hall => nomatch hall.1
      · exact ⟨fun hrest => ⟨rfl, hrest⟩, fun hall => hall.2⟩

/-- A holder that is serving goes on with what comes next. -/
theorem main_append {conns : List Connection} (hserving : (h.main conns).2 = .serving)
    (rest : List Connection) :
    h.main (conns ++ rest) = ((h.main conns).1 ++ (h.main rest).1, (h.main rest).2) := by
  induction conns with
  | nil => rfl
  | cons c conns ih =>
    cases c with
    | refused => exact nomatch hserving
    | accepted peer =>
      rw [main] at hserving
      rw [List.cons_append, main, main]
      rcases hrun : h.handleConnection peer with ⟨replies, _ | ⟨⟩⟩
      · rw [hrun] at hserving
        exact nomatch hserving
      · rw [hrun] at hserving
        dsimp only
        rw [ih hserving]
        rfl

/-! ### The group's client -/

/-- What the client asks, as text. -/
def clientText : PyStr :=
  pyStr "\x7b\"op\": \"get_share\", \"token\": \"" ++ h.token ++ pyStr "\"\x7d"

theorem token_plain : ∀ c ∈ h.token, Json.Plain c := NetworkTrustGroup.plain_hex h.secret

theorem dumps_client : Json.dumps (.obj [(pyStr "op", .str (opName .getShare)),
    (pyStr "token", .str h.token)]) = h.clientText := by
  have hop : Json.dumpString (pyStr "op") = pyStr "\"op\"" := by decide
  have hget : Json.dumpString (opName .getShare) = pyStr "\"get_share\"" := by decide
  have htoken : Json.dumpString (pyStr "token") = pyStr "\"token\"" := by decide
  simp only [Json.dumps, Json.dumpMembers, hop, hget, htoken,
    Json.dumpString_plain h.token_plain]
  simp [clientText, pyStr]

theorem clientText_ascii : ∀ c ∈ h.clientText, c < 128 ∧ c ≠ 10 := by
  have hbefore : ∀ c ∈ pyStr "\x7b\"op\": \"get_share\", \"token\": \"", c < 128 ∧ c ≠ 10 := by
    decide
  have hafter : ∀ c ∈ pyStr "\"\x7d", c < 128 ∧ c ≠ 10 := by decide
  intro c hc
  rcases List.mem_append.mp hc with hc | hc
  · rcases List.mem_append.mp hc with hc | hc
    · exact hbefore c hc
    · obtain ⟨hlow, hhigh, -⟩ := h.token_plain c hc
      omega
  · exact hafter c hc

theorem scans_client : Json.Scans (h.depth + 1) h.clientText
    (.obj [(pyStr "op", .str (opName .getShare)), (pyStr "token", .str h.token)]) := by
  have hkeys : [pyStr "op", pyStr "token"].Nodup := by decide
  have hop : ∀ c ∈ pyStr "op", Json.Plain c := by decide
  have htoken : ∀ c ∈ pyStr "token", Json.Plain c := by decide
  rw [← h.dumps_client]
  refine Json.scans_obj (List.cons_ne_nil _ _) (fun m hm => ?_) hkeys
  rcases List.mem_cons.mp hm with rfl | hm
  · exact ⟨hop, Json.scans_str (by decide)⟩
  · obtain rfl := List.mem_singleton.mp hm
    exact ⟨htoken, Json.scans_str h.token_plain⟩

end Holder

theorem utf8_ascii {bs : Bytes} (hascii : ∀ b ∈ bs, b.toNat < 128) :
    utf8 bs = .ok (bs.map UInt8.toNat) := by
  have hloop : ∀ fuel, bs.length ≤ fuel → utf8Loop fuel bs = .ok (bs.map UInt8.toNat) := by
    induction bs with
    | nil => intro fuel _; cases fuel <;> rfl
    | cons b bs ih =>
      intro fuel hfuel
      obtain ⟨hb, hbs⟩ := List.forall_mem_cons.mp hascii
      cases fuel with
      | zero => simp at hfuel
      | succ fuel =>
        have hchar : NetworkTrustGroup.decodeChar (b :: bs) = some (b.toNat, bs) := if_pos hb
        rw [utf8Loop, hchar]
        dsimp only [Option.or]
        rw [ih hbs fuel (by simpa using hfuel)]
        rfl
  exact hloop _ le_rfl

theorem cutLines_line {bs : Bytes} (hbs : 10 ∉ bs) : cutLines (bs ++ [10]) = [bs ++ [10]] := by
  induction bs with
  | nil => rfl
  | cons b bs ih =>
    rw [List.mem_cons, not_or] at hbs
    rw [List.cons_append, cutLines, if_neg fun h => hbs.1 h.symm, ih hbs.2]

theorem toNat_encode {s : PyStr} (hs : ∀ c ∈ s, c < 128) :
    (NetworkTrustGroup.encode s).map UInt8.toNat = s := by
  rw [NetworkTrustGroup.encode, List.map_map]
  refine (List.map_congr_left fun c hc => ?_).trans (List.map_id _)
  have := hs c hc
  simp only [Function.comp_apply, UInt8.toNat_ofNat', id_eq]
  omega

namespace Holder

variable (h : Holder)

theorem client_sends :
    h.client.sends = NetworkTrustGroup.encode h.clientText ++ [10] := by
  rw [client, NetworkTrustGroup.line, dumps_client, NetworkTrustGroup.encode, List.map_append]
  rfl

theorem loads_client : loads (h.depth + 1) h.client.sends
    = .ok (.obj [(pyStr "op", .str (opName .getShare)), (pyStr "token", .str h.token)]) := by
  have hascii : ∀ c ∈ h.clientText ++ ['\n'.toNat], c < 128 := by
    intro c hc
    rcases List.mem_append.mp hc with hc | hc
    · exact (h.clientText_ascii c hc).1
    · rw [List.mem_singleton.mp hc]
      decide
  have hnat : h.client.sends.map UInt8.toNat = h.clientText ++ ['\n'.toNat] := by
    rw [client, NetworkTrustGroup.line, dumps_client]
    exact toNat_encode hascii
  have hbytes : ∀ b ∈ h.client.sends, b.toNat < 128 :=
    fun b hb => hascii _ (hnat ▸ List.mem_map_of_mem hb)
  have hdetect : detectEncoding h.client.sends = .utf8 := by
    rw [client_sends]
    rfl
  rw [loads, decode, hdetect, decodeAs, utf8_ascii hbytes, ok_bind, hnat]
  exact (Json.loads_of_scans h.scans_client (Json.ends_cons (by decide) [])).mpr ⟨rfl, rfl⟩

theorem main_client : h.main [.accepted h.client]
    = ([[NetworkTrustGroup.line (NetworkTrustGroup.reply h.share .getShare)]], .serving) := by
  have hlines : h.client.lines = [h.client.sends] := by
    have hbs : (10 : UInt8) ∉ NetworkTrustGroup.encode h.clientText := by
      intro hmem
      obtain ⟨c, hc, hten⟩ := List.mem_map.mp hmem
      obtain ⟨hlt, hne⟩ := h.clientText_ascii c hc
      have hnat : c % 256 = 10 := by simpa using congrArg UInt8.toNat hten
      omega
    show cutLines h.client.sends = _
    rw [client_sends]
    exact cutLines_line hbs
  have hrequest : h.request h.client.sends = .ok (some .getShare) :=
    h.request_eq_some.mpr ⟨_, h.loads_client, rfl, rfl⟩
  rw [main, handleConnection, hlines, handleLines, hrequest]
  rfl

/-- **Robustness.**  Whoever has connected and whatever they have sent, the holder is still
running and serves its share to a client with the right token exactly when every connection
was harmless. -/
theorem robust_iff (conns : List Connection) :
    (∃ replies, h.main conns = (replies, .serving) ∧
      h.main (conns ++ [.accepted h.client]) =
        (replies ++ [[NetworkTrustGroup.line (NetworkTrustGroup.reply h.share .getShare)]],
          .serving)) ↔
      ∀ c ∈ conns, h.Harmless c := by
  rw [← h.main_serving]
  constructor
  · rintro ⟨replies, hrun, -⟩
    rw [hrun]
  · intro hserving
    refine ⟨(h.main conns).1, by rw [← hserving], ?_⟩
    rw [h.main_append hserving, h.main_client]

/-- A failed handshake ends the holder, and so do a list and a token that is not in ASCII,
whoever sends them. -/
theorem main_killed :
    let h : Holder := ⟨0, id, fun _ => true, [0xA5, 0x0F], (1, [7, 9])⟩
    let sends (line : Bytes) : Connection := .accepted ⟨line, false, fun _ => .sent⟩
    let list := sends (NetworkTrustGroup.encode (pyStr "[1]\n"))
    let accent := sends (NetworkTrustGroup.encode (pyStr "\x7b\"token\": \"") ++ [0xC3, 0xA9] ++
      NetworkTrustGroup.encode (pyStr "\"\x7d\n"))
    h.main [.refused] = ([], .exited) ∧
      h.main [list] = ([[]], .raised .attributeError) ∧
      h.main [accent] = ([[]], .raised .typeError) ∧
      ∀ c ∈ [.refused, list, accent],
        ¬ ∃ replies, h.main [c] = (replies, .serving) ∧
          h.main [c, .accepted h.client] =
            (replies ++ [[NetworkTrustGroup.line (NetworkTrustGroup.reply h.share .getShare)]],
              .serving) := by
  intro h sends list accent
  have hrefused : h.main [.refused] = ([], .exited) := rfl
  have hlist : h.main [list] = ([[]], .raised .attributeError) := by decide +kernel
  have haccent : h.main [accent] = ([[]], .raised .typeError) := by decide +kernel
  refine ⟨hrefused, hlist, haccent, fun c hc => ?_⟩
  rintro ⟨replies, hserving, -⟩
  simp only [List.mem_cons, List.not_mem_nil, or_false] at hc
  rcases hc with rfl | rfl | rfl
  · exact nomatch hrefused.symm.trans hserving
  · exact nomatch hlist.symm.trans hserving
  · exact nomatch haccent.symm.trans hserving

end Holder

end HolderServer
