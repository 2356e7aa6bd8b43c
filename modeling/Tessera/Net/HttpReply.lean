import Tessera.Basic.Bytes
import Tessera.Lib.Run

/-!
# Replies of the HTTP server

`WriteReply` settles the header fields of a response and whether the connection is kept; the flag is
acted on when the send buffer is empty. Whether the two agree depends on the fields that the handler
has added: `WriteReply` replaces its `Connection` field only if the request asks for `close`.
-/

namespace Tessera.Net.Http

open Lib

/-- The bytes of a text. -/
def ascii (text : String) : Bytes := text.toList.map fun c => UInt8.ofNat c.toNat

local instance : Coe String Bytes := ⟨ascii⟩

/-! ### Header fields -/

/-- `ToLower`: only letters of ASCII are changed. -/
def toLower (str : Bytes) : Bytes := str.map fun c => if 65 ≤ c ∧ c ≤ 90 then c + 32 else c

def caseInsensitiveEqual (s1 s2 : Bytes) : Bool := toLower s1 == toLower s2

/-- The fields in the order in which they are written. -/
abbrev HTTPHeaders := List (Bytes × Bytes)

namespace HTTPHeaders

variable (headers : HTTPHeaders) (key : Bytes)

def findFirst : Option Bytes :=
  (headers.find? fun item => caseInsensitiveEqual key item.1).map Prod.snd

def findAll : List Bytes :=
  (headers.filter fun item => caseInsensitiveEqual key item.1).map Prod.snd

def write (value : Bytes) : HTTPHeaders := headers ++ [(key, value)]

/-- A field that is written only if it is needed. -/
def writeIf (needed : Bool) (value : Bytes) : HTTPHeaders :=
  if needed then headers.write key value else headers

def removeAll : HTTPHeaders := headers.filter fun item => !caseInsensitiveEqual key item.1

def stringify : Bytes :=
  headers.flatMap (fun item => item.1 ++ ascii ": " ++ item.2 ++ ascii "\r\n") ++ ascii "\r\n"

variable {headers key}

@[simp] theorem findAll_write {name value : Bytes} : findAll (headers.write name value) key =
    findAll headers key ++ if caseInsensitiveEqual key name then [value] else [] := by
  cases h : caseInsensitiveEqual key name <;> simp [findAll, write, h]

@[simp] theorem findAll_writeIf {needed : Bool} {name value : Bytes} :
    findAll (headers.writeIf name needed value) key =
      findAll headers key ++ if needed && caseInsensitiveEqual key name then [value] else [] := by
  cases needed <;> simp [writeIf]

@[simp] theorem findAll_removeAll : findAll (headers.removeAll key) key = [] := by
  simp [findAll, removeAll]

end HTTPHeaders

/-! ### The response -/

/-- A request that has been read: no other version is accepted. The method does not matter for the
reply. -/
structure HTTPRequest where
  major : Nat
  minor : Nat
  headers : HTTPHeaders
  responseHeaders : HTTPHeaders
  parsed : major = 1 ∧ minor ≤ 9

/-- What the first `Connection` field of the request says. -/
def HTTPRequest.asks (req : HTTPRequest) (option : String) : Bool :=
  (req.headers.findFirst "Connection").map toLower == some (ascii option)

def HTTPRequest.writeHeader (req : HTTPRequest) (hdr value : Bytes) : HTTPRequest :=
  { req with responseHeaders := req.responseHeaders.write hdr value }

def statusReasonString : Int → String
  | 200 => "OK"
  | 204 => "No Content"
  | 400 => "Bad Request"
  | 401 => "Unauthorized"
  | 403 => "Forbidden"
  | 404 => "Not Found"
  | 405 => "Method Not Allowed"
  | 413 => "Content too large"
  | 500 => "Internal Server Error"
  | 503 => "Service Unavailable"
  | _ => ""

def stringifyHeaders (major minor : Nat) (status : Int) (headers : HTTPHeaders) : Bytes :=
  let reason := statusReasonString status
  ascii s!"HTTP/{major}.{minor} {status} {reason}\r\n" ++ headers.stringify

/-- Whether a response with this status has a body. -/
def needsBody (status : Int) : Bool := status != 204 && (status < 100 || 200 ≤ status)

/-- What `WriteReply` is given, and the date. -/
structure Reply where
  req : HTTPRequest
  status : Int
  body : Bytes
  date : Bytes
  nobody : needsBody status = false → body = []

variable (r : Reply)

/-- The header fields of the response, and whether the connection is kept. -/
def Reply.settle : HTTPHeaders × Bool :=
  let headers := r.req.responseHeaders
  let (headers, needsContentLength, keepAlive) :=
    if r.req.major = 1 then
      if r.req.minor = 0 then
        if r.req.asks "keep-alive" then (headers.write "Connection" "keep-alive",
          needsBody r.status, true)
        else (headers, false, false)
      else (headers.write "Date" r.date, needsBody r.status, true)
    else (headers, false, false)
  let headers := headers.writeIf "Content-Length" needsContentLength (toString r.body.length)
  let headers := headers.writeIf "Content-Type"
    (needsBody r.status && (headers.findFirst "Content-Type").isNone)
      "text/html; charset=ISO-8859-1"
  if r.req.asks "close" then ((headers.removeAll "Connection").write "Connection" "close", false)
  else (headers, keepAlive)

/-- What is added to the send buffer. -/
def Reply.bytes : Bytes := stringifyHeaders r.req.major r.req.minor r.status r.settle.1 ++ r.body

/-! ### The send buffer -/

/-- The part of a client that sends. `sent` is what the socket has taken so far. -/
structure HTTPRemoteClient where
  sendBuffer : Bytes
  sendReady : Bool
  connectionBusy : Bool
  keepAlive : Bool
  disconnect : Bool
  reqBusy : Bool
  sent : Bytes

/-- What comes of an attempt to send: the first bytes are taken, or there is an error. -/
inductive SendResult
  | bytes (n : Nat)
  | transient
  | permanent

namespace HTTPRemoteClient

variable (c : HTTPRemoteClient) (result : SendResult)

/-- `MaybeSendBytesFromBuffer`, with whether the client may be read from. -/
def maybeSendBytesFromBuffer : Bool × HTTPRemoteClient :=
  if c.sendBuffer.isEmpty then (true, c)
  else match result with
    | .transient => (true, { c with sendReady := true, connectionBusy := true })
    | .permanent => (false, { c with sendReady := false, disconnect := true })
    | .bytes n =>
      let c := { c with sent := c.sent ++ c.sendBuffer.take n, sendBuffer := c.sendBuffer.drop n }
      if c.sendBuffer.isEmpty then
        let c := { c with sendReady := false, connectionBusy := false }
        if c.keepAlive then (true, c) else (false, { c with disconnect := true })
      else (true, { c with sendReady := true, connectionBusy := true })

/-- One round of the I/O loop. Clients that are to be disconnected are removed in each round. -/
def serve (result : SendResult) : HTTPRemoteClient :=
  if c.disconnect then c else (c.maybeSendBytesFromBuffer result).2

/-- The send buffer with a reply added. The I/O loop is told if it has others to send. -/
def fill (reply : Bytes) (keepAlive : Bool) : HTTPRemoteClient :=
  { c with
    keepAlive
    sendBuffer := c.sendBuffer ++ reply
    sendReady := c.sendReady || !c.sendBuffer.isEmpty }

end HTTPRemoteClient

/-- `WriteReply`, with the result of the attempt to send that is made if nothing else is waiting. -/
def Reply.write (c : HTTPRemoteClient) (result : SendResult) : HTTPRemoteClient :=
  let filled := c.fill r.bytes r.settle.2
  let c := if c.sendBuffer.isEmpty then (filled.maybeSendBytesFromBuffer result).2 else filled
  { c with reqBusy := false }

/-- The reply to a request whose handler throws. -/
def HTTPRequest.failed (req : HTTPRequest) (message date : Bytes) : Reply :=
  ⟨req.writeHeader "Connection" "close", 500, message, date, fun h => absurd h (by decide)⟩

/-- A client on the way to having sent some bytes: when that is done, the connection is closed or
kept. -/
structure Sending (bytes : Bytes) (keep : Bool) (c : HTTPRemoteClient) : Prop where
  bytes : c.sent ++ c.sendBuffer = bytes
  keepAlive : c.keepAlive = keep
  done : c.sendBuffer = [] → c.disconnect = !keep

variable {r} {bytes : Bytes} {keep : Bool} {c : HTTPRemoteClient}

private theorem Sending.maybeSendBytesFromBuffer (h : Sending bytes keep c)
    (hopen : c.disconnect = false) (result : SendResult) :
    Sending bytes keep (c.maybeSendBytesFromBuffer result).2 := by
  unfold HTTPRemoteClient.maybeSendBytesFromBuffer
  split
  · exact h
  next hbuffer =>
    have hwaiting : c.sendBuffer ≠ [] := by simpa using hbuffer
    cases result with
    | transient => exact ⟨h.bytes, h.keepAlive, fun hnil => absurd hnil hwaiting⟩
    | permanent => exact ⟨h.bytes, h.keepAlive, fun hnil => absurd hnil hwaiting⟩
    | bytes n =>
      have hbytes : (c.sent ++ c.sendBuffer.take n) ++ c.sendBuffer.drop n = bytes := by
        rw [List.append_assoc, List.take_append_drop, h.bytes]
      have hkeep := h.keepAlive
      dsimp only
      split
      · -- the last bytes have been taken, so the flag decides
        split <;> exact ⟨hbytes, hkeep, fun _ => by simp_all⟩
      next hrest => exact ⟨hbytes, hkeep, fun hnil => absurd (List.isEmpty_iff.mpr hnil) hrest⟩

private theorem Sending.serve (h : Sending bytes keep c) (result : SendResult) : Sending bytes keep
    (c.serve result) := by
  unfold HTTPRemoteClient.serve
  split
  · exact h
  next hopen => exact h.maybeSendBytesFromBuffer (Bool.eq_false_iff.mpr hopen) result

private theorem sending_write (hopen : c.disconnect = false) (result : SendResult) :
    Sending (c.sent ++ c.sendBuffer ++ r.bytes) r.settle.2 (r.write c result) := by
  have hwaiting : c.sendBuffer ++ r.bytes ≠ [] := by
    simp [Reply.bytes, stringifyHeaders, ascii]
  have hfilled : Sending (c.sent ++ c.sendBuffer ++ r.bytes) _ (c.fill r.bytes r.settle.2) :=
    ⟨(List.append_assoc ..).symm, rfl, fun hnil => absurd hnil hwaiting⟩
  unfold Reply.write
  split
  · obtain ⟨hbytes, hkeep, hdone⟩ := hfilled.maybeSendBytesFromBuffer hopen result
    exact ⟨hbytes, hkeep, hdone⟩
  · obtain ⟨hbytes, hkeep, hdone⟩ := hfilled
    exact ⟨hbytes, hkeep, hdone⟩

/-! ### What the response says -/

/-- A `Connection` field says so. -/
def announces (headers : HTTPHeaders) (option : String) : Bool :=
  (headers.findAll "Connection").any fun value => toLower value == ascii option

variable (r) in
/-- The client finds the end of the body: there is none, its length is said once, or the connection
is closed after it. There is one `Connection` field at most, and the connection is kept just if the
response says so. -/
def Reply.Truthful (kept : Bool) : Prop :=
  (needsBody r.status = false ∨ r.settle.1.findAll "Content-Length" =
    [ascii (toString r.body.length)] ∨ kept = false) ∧
  (r.settle.1.findAll "Connection").length ≤ 1 ∧
  (kept = true ↔ ¬announces r.settle.1 "close" ∧
    (1 ≤ r.req.minor ∨ announces r.settle.1 "keep-alive"))

variable (r) in
/-- The handler's fields fit what `WriteReply` makes of the connection. If the request asks for
`close`, its `Connection` fields are replaced. -/
def Reply.Agrees : Prop :=
  r.req.asks "close" ∨
    (r.req.responseHeaders.findAll "Connection").length ≤
      (if r.req.minor = 0 ∧ r.req.asks "keep-alive" then 0 else 1) ∧
    if 1 ≤ r.req.minor ∨ r.req.asks "keep-alive" then
      ¬announces r.req.responseHeaders "close" ∧
        (needsBody r.status → r.req.responseHeaders.findAll "Content-Length" = [])
    else ¬announces r.req.responseHeaders "keep-alive"

private theorem findAll_connection : r.settle.1.findAll "Connection" =
    if r.req.asks "close" then [ascii "close"]
    else r.req.responseHeaders.findAll "Connection" ++
      if r.req.minor = 0 ∧ r.req.asks "keep-alive" then [ascii "keep-alive"] else [] := by
  simp only [Reply.settle, r.req.parsed.1]
  cases r.req.asks "close" <;> cases r.req.asks "keep-alive" <;> by_cases h : r.req.minor =
    0 <;> simp +decide [h]

private theorem findAll_contentLength (h : r.settle.2 = true) (hbody : needsBody r.status) :
    r.settle.1.findAll "Content-Length" =
      r.req.responseHeaders.findAll "Content-Length" ++ [ascii (toString r.body.length)] := by
  simp only [Reply.settle, r.req.parsed.1] at h ⊢
  cases hc : r.req.asks "close" <;> cases hk : r.req.asks "keep-alive" <;>
    by_cases hm : r.req.minor = 0 <;> simp_all +decide

private theorem settle_snd : r.settle.2 =
    (!r.req.asks "close" && (decide (1 ≤ r.req.minor) || r.req.asks "keep-alive")) := by
  simp only [Reply.settle, r.req.parsed.1]
  cases r.req.asks "close" <;> cases r.req.asks "keep-alive" <;> by_cases h : r.req.minor =
    0 <;> simp [h]; omega

private theorem truthful_iff : r.Truthful r.settle.2 ↔ r.Agrees := by
  have hlength : (needsBody r.status = false ∨
      r.settle.1.findAll "Content-Length" = [ascii (toString r.body.length)] ∨ r.settle.2 = false) ↔
        (r.settle.2 = true → needsBody r.status →
          r.req.responseHeaders.findAll "Content-Length" = []) := by
    cases hkeep : r.settle.2 <;> cases hneeds : needsBody r.status
    case true.true => simp [findAll_contentLength hkeep hneeds]
    all_goals simp
  have hne : ascii "close" ≠ ascii "keep-alive" ∧ toLower "close" = "close" ∧ toLower "keep-alive" =
      "keep-alive" := by
    decide
  rw [Reply.Truthful, hlength, settle_snd, Reply.Agrees]
  simp only [announces, findAll_connection]
  generalize r.req.responseHeaders.findAll "Connection" = fields
  cases r.req.asks "close" <;> cases r.req.asks "keep-alive" <;> by_cases hminor :
    r.req.minor = 0 <;> rcases fields with _ | ⟨value, _ | ⟨_, _⟩⟩ <;> simp_all
  all_goals grind

/-- When everything is sent, what the response has told the client is true just if the handler's
fields fit. -/
theorem write_truthful_iff (r : Reply) (c : HTTPRemoteClient) (hopen : c.disconnect = false)
    (result : SendResult) (results : List SendResult)
    (hdrained : (run HTTPRemoteClient.serve (r.write c result) results).sendBuffer = []) :
    ((run HTTPRemoteClient.serve (r.write c result) results).sent = c.sent ++
      c.sendBuffer ++ r.bytes ∧
      r.Truthful !(run HTTPRemoteClient.serve (r.write c result) results).disconnect) ↔
        r.Agrees := by
  have h : Sending _ _ (run HTTPRemoteClient.serve (r.write c result) results) :=
    results.foldlRecOn _ (sending_write hopen result) fun _ h result _ => h.serve result
  have hsent := h.bytes
  rw [hdrained, List.append_nil] at hsent
  rw [h.done hdrained, Bool.not_not, truthful_iff]
  exact and_iff_right hsent

/-- A client with nothing to send, and a request of it. -/
def idle : HTTPRemoteClient := ⟨[], false, true, false, false, true, []⟩

def request : HTTPRequest := ⟨1, 1, [], [], by decide⟩

theorem write_truthful_sent_twice : (⟨request, 200, "ok", "", by decide⟩ : Reply).Truthful
    !(run HTTPRemoteClient.serve
      ((⟨request, 200, "ok", "", by decide⟩ : Reply).write idle (.bytes 9))
      [.transient, .bytes 99]).disconnect :=
  ((write_truthful_iff _ idle rfl (.bytes 9) [.transient, .bytes 99] (by decide)).mpr
    (by unfold Reply.Agrees; decide)).2

/-- A handler throws. The response says `close`, all of it is sent, and the connection stays open.
-/
theorem failed_kept : ((request.failed "error" "").write idle (.bytes 200)).sendBuffer = [] ∧
    ((request.failed "error" "").write idle (.bytes 200)).disconnect = false ∧
    announces (request.failed "error" "").settle.1 "close" := by
  decide

end Tessera.Net.Http
