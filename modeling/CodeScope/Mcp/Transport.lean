import CodeScope.Library.Lines
import CodeScope.Library.Text

/-! # The MCP transport

The server reads JSON-RPC requests from stdin, one a line, and writes one line for every response.
`read_line` reads at most `MAX_LINE_LEN + 1` bytes and rejects what is not UTF-8; the remainder of a
longer line is drained, up to a cap. JSON values and their parser belong to `serde_json` and are
parameters, and so is the dispatch of a method. -/

namespace CodeScope.Mcp

open Text Lines

/-- stdin: the bytes that are still to come. -/
abbrev Bytes := List UInt8

def newline : UInt8 := 10

/-- `MAX_LINE_LEN`: 1 MiB. -/
def maxLineLen : ℕ := 2 ^ 20

/-- `MAX_DRAIN_BYTES`: 16 MiB. -/
def maxDrainBytes : ℕ := 16 * 2 ^ 20

/-- `MAX_MESSAGE_BYTES`: 1 MiB. -/
def maxMessageBytes : ℕ := 2 ^ 20

/-! ## Messages -/

variable {V : Type}

/-- `Request`; a request with an `id`, even a null one, is a standard one. -/
inductive Request (V : Type) where
  | standard (id : V) (method : Str) (params : Option V)
  | notification (method : Str) (params : Option V)

structure RpcError (V : Type) where
  code : Int
  message : Str
  data : Option V

/-- The -32700 response of `read_message`, whose `id` is null. -/
structure ParseErrorReply where
  detail : Str
  raw : Option Str
deriving DecidableEq

inductive ReadResult (V : Type) where
  | msg (req : Request V)
  | eof
  | parseError (written : ParseErrorReply)

/-- What `json_response` builds: the id of the request, and the result. -/
structure Response (V : Type) where
  id : V
  result : Except (RpcError V) V

/-- A line on stdout. -/
inductive Message (V : Type) where
  | parseError (reply : ParseErrorReply)
  | response (r : Response V)
  | oversized (id : V) (bytes : ℕ)

/-! ## Reading -/

/-- The text of UTF-8 bytes. -/
def decode (s : Bytes) : Option Str := (ByteArray.utf8Decode? ⟨s.toArray⟩).map Array.toList

/-- `char::is_whitespace` -/
def isWhitespace (c : Char) : Bool :=
  let n := c.toNat
  (9 ≤ n && n ≤ 13) || n = 0x20 || n = 0x85 || n = 0xA0 || n = 0x1680 ||
    (0x2000 ≤ n && n ≤ 0x200A) || n = 0x2028 || n = 0x2029 || n = 0x202F || n = 0x205F ||
    n = 0x3000

/-- `drain_stdin_until_newline` -/
def drain (s : Bytes) : Bytes := (readUntil newline s maxDrainBytes).2

/-- The outcome of one turn of the loop in `read_message`, with what is left of stdin. `return none`
    is the error of `read_line`. -/
inductive Turn (V : Type) where
  | again (rest : Bytes)
  | done (result : Option (ReadResult V)) (rest : Bytes)

/-- `format!("line exceeds {} byte limit", MAX_LINE_LEN)` -/
def overlongReply : ParseErrorReply :=
  ⟨str "line exceeds " ++ (toString maxLineLen).toList ++ str " byte limit", none⟩

/-- A line within the limit, as a text. -/
def readText (parse : Str → Except Str (Request V)) (text : Str) (rest : Bytes) : Turn V :=
  let trimmed := trim isWhitespace text
  if trimmed = [] then .again rest
  else
    match parse trimmed with
    | .ok req => .done (some (.msg req)) rest
    | .error e => .done (some (.parseError ⟨e, some trimmed⟩)) rest

/-- What happens to the bytes that `read_line` took. -/
def afterRead (parse : Str → Except Str (Request V)) (line rest : Bytes) : Turn V :=
  match decode line with
  | none => .done none rest
  | some text =>
      if line.length = 0 then .done (some .eof) rest
      else if line.getLast? ≠ some newline ∧ maxLineLen < line.length then
        .done (some (.parseError overlongReply)) (drain rest)
      else readText parse text rest

/-- One turn of the loop. -/
def turn (parse : Str → Except Str (Request V)) (s : Bytes) : Turn V :=
  let (line, rest) := readUntil newline s (maxLineLen + 1)
  afterRead parse line rest

/-- Where the server goes on reading after a result of `read_message`. -/
def nextRead : Option (ReadResult V) × Bytes → Option Bytes
  | (none, _) | (some .eof, _) => none
  | (some (.msg _), rest) | (some (.parseError _), rest) => some rest

/-- Where it goes on after a turn. -/
def Turn.next : Turn V → Option Bytes
  | .again rest => some rest
  | .done result rest => nextRead (result, rest)

theorem readText_next (parse : Str → Except Str (Request V)) (text : Str) (rest : Bytes) :
    (readText parse text rest).next = some rest := by
  simp only [readText]
  split
  · rfl
  · cases parse (trim isWhitespace text) with
    | ok req => rfl
    | error e => rfl

theorem readText_ne_eof (parse : Str → Except Str (Request V)) (text : Str) (rest next : Bytes) :
    readText parse text rest ≠ .done (some .eof) next := by
  intro h
  simp only [readText] at h
  split at h
  · cases h
  · cases hparse : parse (trim isWhitespace text) with
    | ok req | error e =>
        rw [hparse] at h
        cases h

theorem drain_length (s : Bytes) : (drain s).length ≤ s.length := readUntil_length s _

theorem decode_nil : decode [] = some [] := by decide +kernel

variable {parse : Str → Except Str (Request V)}

/-- After a read the server goes on with what is left, or with a part of it. -/
theorem afterRead_next {line rest next : Bytes} (h : (afterRead parse line rest).next = some next) :
    line ≠ [] ∧ next.length ≤ rest.length := by
  rw [afterRead] at h
  cases hdecode : decode line with
  | none =>
      rw [hdecode] at h
      exact absurd h (by simp [Turn.next, nextRead])
  | some text =>
      rw [hdecode] at h
      simp only at h
      split at h
      · exact absurd h (by simp [Turn.next, nextRead])
      · rename_i hline
        refine ⟨fun hnil => hline (by rw [hnil]; rfl), ?_⟩
        split at h
        · obtain rfl : drain rest = next := Option.some.inj h
          exact drain_length rest
        · rw [readText_next] at h
          exact (Option.some.inj h) ▸ Nat.le_refl _

/-- **Every turn after which the server goes on has read something.** -/
theorem turn_next {s next : Bytes} (h : (turn parse s).next = some next) :
    next.length < s.length := by
  obtain ⟨hline, hnext⟩ := afterRead_next h
  have hs : s ≠ [] := by
    rintro rfl
    exact hline rfl
  exact Nat.lt_of_le_of_lt hnext (readUntil_length_lt hs (Nat.succ_pos _))

/-- `read_message`: its result, `none` for an `Err`, and what is left of stdin. -/
def readMessage (parse : Str → Except Str (Request V)) (s : Bytes) :
    Option (ReadResult V) × Bytes :=
  match _hturn : turn parse s with
  | .again rest => readMessage parse rest
  | .done result rest => (result, rest)
termination_by s.length
decreasing_by exact turn_next (by rw [_hturn]; rfl)

theorem readMessage_next {s next : Bytes} (h : nextRead (readMessage parse s) = some next) :
    next.length < s.length := by
  induction hn : s.length using Nat.strong_induction_on generalizing s with
  | h n ih =>
      rw [readMessage] at h
      split at h
      · rename_i rest hturn
        have hlt : rest.length < s.length := turn_next (by rw [hturn]; rfl)
        exact hn ▸ Nat.lt_trans (ih rest.length (hn ▸ hlt) h rfl) hlt
      · rename_i result rest hturn
        have hnext : (turn parse s).next = some next := by
          rw [hturn]
          exact h
        exact hn ▸ turn_next hnext

/-! ## The server loop -/

/-- How the loop of `Server::run` ends. -/
inductive Ending where
  | eof
  | failed
deriving DecidableEq, Repr

/-- The server: dispatching a method changes its state, and `serde_json::to_string` says how long a
    response is. -/
structure Server (σ V : Type) where
  parse : Str → Except Str (Request V)
  dispatch : σ → Str → Option V → σ × Except (RpcError V) V
  size : Response V → ℕ

variable {σ : Type}

def handleRequest (server : Server σ V) (state : σ) : Request V → σ × Option (Response V)
  | .standard id method params =>
      let (state, result) := server.dispatch state method params
      (state, some ⟨id, result⟩)
  | .notification method params => ((server.dispatch state method params).1, none)

def writeMessage (server : Server σ V) (r : Response V) : Message V :=
  if maxMessageBytes < server.size r then .oversized r.id (server.size r) else .response r

/-- What a run of the server did: the results of `read_message`, the requests handed to the
    dispatch, and the lines on stdout. -/
structure Log (V : Type) where
  reads : List (ReadResult V)
  executed : List (Request V)
  messages : List (Message V)
  ending : Ending

/-- `Server::run`, with stdout never failing. -/
def run (server : Server σ V) (state : σ) (s : Bytes) : Log V :=
  match _hread : readMessage server.parse s with
  | (none, _) => ⟨[], [], [], .failed⟩
  | (some .eof, _) => ⟨[], [], [], .eof⟩
  | (some (.parseError written), rest) =>
      let log := run server state rest
      { log with
        reads := .parseError written :: log.reads
        messages := .parseError written :: log.messages }
  | (some (.msg req), rest) =>
      let (state, response) := handleRequest server state req
      let log := run server state rest
      { log with
        reads := .msg req :: log.reads
        executed := req :: log.executed
        messages := (response.map (writeMessage server)).toList ++ log.messages }
termination_by s.length
decreasing_by
  · exact readMessage_next (by rw [_hread]; rfl)
  · exact readMessage_next (by rw [_hread]; rfl)

end CodeScope.Mcp
