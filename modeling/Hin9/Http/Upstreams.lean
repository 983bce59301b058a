import Hin9.Http.ProxyRequest

/-!
# `Http.Upstreams` — the connections to upstream servers (`connect.c`, `state.c`, `headers.c`, `rproxy.c`)

A connection is made for a request, or taken from the list of idle ones, and goes back to that list when its response is
through. Its life is driven by the completions of what is outstanding on it: the connect, the write of the head, the read
of the line buffer, the pipes of the response and of the upload, and the close.

The bits of `io_state` are fields. What is read is known by what it makes the line buffer do, and what the pipes move is
not looked at. A client is known by a number; `requests` is the request it is in. A connection that has been freed keeps
its last fields, and `freed` says so. The records behind `freed` are about the past: the server a connection was opened
for, whether it came from the idle list, how many requests use it, and what was sent.
-/

namespace Hin9
namespace Http

/-- The server behind an address. -/
structure Target where
  https : Bool := false
  host : Bytes := []
  port : Bytes := []
deriving Repr, DecidableEq

def Uri.target (uri : Uri) : Target where
  https := uri.https
  host := uri.host
  port := if uri.port ≠ [] then uri.port else if uri.https then bytes "443" else bytes "80"

namespace Upstreams

/-! ## State -/

/-- `c.sockfd`: no descriptor yet, an open one, or one that is given to a close request. -/
inductive Socket where
  | unset
  | opened
  | closed
deriving Repr, DecidableEq

/-- `http->state_callback`. -/
inductive Callback where
  | unset
  | proxy
  | download
deriving Repr, DecidableEq

/-- `http_client_t`. `sslLive` says that `SSL_free` has not been called on its SSL object. -/
structure Conn where
  uri : Option Uri := none
  host : Bytes := []
  port : Bytes := []
  method : Option Method := none
  keepalive : Bool := false
  headers : Bool := false
  data : Bool := false
  post : Bool := false
  ended : Bool := false
  stopping : Bool := false
  idle : Bool := false
  callback : Callback := .unset
  parent : Option Nat := none
  ssl : Bool := false
  sslLive : Bool := false
  socket : Socket := .unset
  -- what is outstanding, besides the head while `headers` is set
  reading : Bool := false
  connecting : Bool := false
  piping : Bool := false
  posting : Bool := false
  closing : Bool := false
  -- records
  freed : Bool := false
  openedFor : Target := {}
  pooled : Bool := false
  users : Nat := 0
deriving Repr, DecidableEq

/-- A request that was sent: the client with the number of its request, and what was written. -/
structure Attempt where
  client : Nat
  serial : Nat
  sent : SentHead
deriving Repr, DecidableEq

/-- A restart, and whether the attempt that had failed used a connection from the idle list. -/
structure Restart where
  client : Nat
  serial : Nat
  pooled : Bool
deriving Repr, DecidableEq

/-- All connections, `master.connection_idle`, and the clients; `busy` is `HIN_REQ_DATA` of a client. `handed` records the
    server that was asked for when an idle connection was taken, and the one it was opened for; `closes` the attempts whose
    connection was closed without an answer, `givenUp` the requests that were ended because their head could not be
    written, and `answered` the ones whose response has begun. -/
structure Pool where
  conns : Nat → Conn := fun _ => {}
  next : Nat := 0
  idle : List Nat := []
  requests : Nat → ProxiedRequest := fun _ => ⟨.get, [], [], []⟩
  serial : Nat → Nat := fun _ => 0
  busy : Nat → Bool := fun _ => false
  handed : List (Target × Target) := []
  attempts : List Attempt := []
  restarts : List Restart := []
  closes : List (Nat × Nat) := []
  givenUp : List (Nat × Nat) := []
  answered : List (Nat × Nat) := []

/-! ## Events -/

/-- What a read of the line buffer brings: the end, too little, no head, or a head. -/
inductive LineRead where
  | closed
  | wait
  | error
  | head
deriving Repr, DecidableEq

/-- What comes in: requests, and the completions of what is outstanding. -/
inductive Event where
  | proxy (client : Nat) (request : ProxiedRequest)
  | download (url : Bytes)
  | connected (i : Nat) (ok tlsOk : Bool)
  | sent (i : Nat) (ok : Bool)                 -- the head is written
  | lines (i : Nat) (r : LineRead)
  | piped (i : Nat)                            -- the response pipe is done
  | posted (i : Nat)                           -- the upload is done
  | closed (i : Nat) (ok : Bool)
  | closeIdle
deriving Repr, DecidableEq

/-! ## One connection -/

/-- `http_client_clean`. Of `io_state` it keeps `HIN_REQ_HEADERS`. -/
def Conn.clean (c : Conn) : Conn :=
  { c with
    uri := none
    parent := none
    keepalive := false
    method := none
    sslLive := c.sslLive && !c.ssl
    data := false
    post := false
    ended := false
    stopping := false
    idle := false }

/-- `http_client_unlink` goes on: the connection is closed and nothing is outstanding but what is not looked at. -/
def Conn.canUnlink (c : Conn) : Bool := c.ended && !c.headers && !c.post && !c.reading

/-- The rest of `http_client_unlink`. -/
def Conn.free (c : Conn) : Conn :=
  { c.clean with
    host := []
    port := []
    freed := true }

/-- A close request is submitted. -/
def Conn.close (c : Conn) : Conn :=
  { c with
    stopping := true
    socket := .closed
    closing := true }

/-- A request is done with the connection. -/
def Conn.leave (c : Conn) : Conn := { c with users := c.users - 1 }

/-- A cleaned connection waits in the idle list, and its line buffer is read into. -/
def Conn.rest (c : Conn) : Conn :=
  { c.clean with
    idle := true
    reading := true }

/-- A connection is taken from the idle list. -/
def Conn.take (c : Conn) (uri : Uri) : Conn :=
  { c with
    idle := false
    uri := some uri
    pooled := true
    users := c.users + 1 }

/-- A new connection. -/
def Conn.new (uri : Uri) : Conn where
  uri := some uri
  host := uri.host
  port := uri.target.port
  openedFor := uri.target
  users := 1

/-- The head of a request is being written. -/
def Conn.send (c : Conn) : Conn :=
  { c with
    headers := true
    data := true }

/-- `hin_rproxy_send_post`: a pipe sends the rest of the body. -/
def Conn.upload (c : Conn) : Conn :=
  { c with
    post := true
    posting := true }

/-- What `hin_proxy` and `http_client_restart` fill in. The restart leaves the method as it is, none. -/
def Conn.serve (c : Conn) (k : Nat) (method : Option Method) (callback : Callback) : Conn :=
  { c with
    keepalive := true
    parent := some k
    method := method
    callback := callback }

/-- A connection that has lost its request to another one. -/
def Conn.forget (c : Conn) : Conn :=
  { c with
    parent := none
    callback := .unset }

/-- The line buffer is not read into. -/
def Conn.stopReading (c : Conn) : Conn := { c with reading := false }

/-- The descriptor that a connect has made. -/
def Conn.opened (c : Conn) : Conn :=
  { c with
    socket := .opened
    reading := true }

/-- `hin_ssl_connect_init`. -/
def Conn.tls (c : Conn) : Conn :=
  { c with
    ssl := true
    sslLive := true }

namespace Pool

variable (s : Pool)

def on (i : Nat) (f : Conn → Conn) : Pool := { s with conns := Function.update s.conns i (f (s.conns i)) }

/-! ## The end of a connection -/

/-- `http_client_unlink`. -/
def httpClientUnlink (i : Nat) : Pool := if (s.conns i).canUnlink then s.on i Conn.free else s

/-- `http_client_shutdown`. -/
def httpClientShutdown (i : Nat) : Pool :=
  if (s.conns i).canUnlink then s.on i Conn.free
  else if (s.conns i).stopping then s
  else
    { s.on i Conn.close with
      idle := if (s.conns i).idle then s.idle.erase i else s.idle }

/-- `http_connection_close_idle`. -/
def httpConnectionCloseIdle : Pool := s.idle.foldl httpClientShutdown s

/-! ## The end of a request -/

/-- `http_connection_release`. -/
def httpConnectionRelease (i : Nat) : Pool :=
  if (s.conns i).keepalive then
    { s.on i Conn.rest with
      idle := s.idle ++ [i] }
  else s.httpClientShutdown i

/-- `hin_rproxy_finish`, from the state callback: the client's request is finished. Without a client it crashes. -/
def rproxyFinish (i : Nat) : Option Pool :=
  match (s.conns i).callback, (s.conns i).parent with
  | .proxy, none => none
  | .proxy, some k => some { s with busy := Function.update s.busy k false }
  | _, _ => some s

/-- `http_client_finish_request`. -/
def httpClientFinishRequest (i : Nat) : Option Pool :=
  if (s.conns i).data || (s.conns i).post then some s
  else (s.rproxyFinish i).map fun s => (s.on i Conn.leave).httpConnectionRelease i

/-! ## The start of a request -/

/-- The loop of `http_connection_get` over the idle connections. -/
def findIdle (uri : Uri) : Option Nat :=
  s.idle.find? fun i => !(s.conns i).headers && (s.conns i).host == uri.host && (s.conns i).port == uri.port

/-- `http_connection_get`. Its callers do not look whether the address could be parsed. -/
def httpConnectionGet (url : Bytes) : Option (Pool × Nat) :=
  (hinParseUri url).map fun uri =>
    match s.findIdle uri with
    | some i =>
        ({ s.on i fun c => Conn.take c uri with
          idle := if (s.conns i).idle then s.idle.erase i else s.idle
          handed := s.handed ++ [(uri.target, (s.conns i).openedFor)] }, i)
    | none =>
        ({ s.on s.next fun _ => Conn.new uri with
          next := s.next + 1 }, s.next)

/-- `http_client_start_headers`. -/
def httpClientStartHeaders (i : Nat) : Option Pool :=
  match (s.conns i).uri, (s.conns i).callback, (s.conns i).parent with
  | none, _, _ => none
  | some _, .proxy, none => none
  | some uri, .proxy, some k =>
      let passedOn := hinRproxySend (s.requests k).headers (s.requests k).behind
      let sent := Http.httpClientStartHeaders (s.conns i).method uri (s.conns i).keepalive passedOn
      let s := s.on i Conn.send
      let s := if passedOn.body.isSome then s.on i Conn.upload else s
      some { s with attempts := s.attempts ++ [⟨k, s.serial k, sent⟩] }
  | some _, _, _ => some (s.on i Conn.send)

/-- `http_connection_start`. -/
def httpConnectionStart (i : Nat) : Option Pool :=
  if (s.conns i).socket = .unset then some (s.on i fun c => { c with connecting := true })
  else (s.httpClientStartHeaders i).map fun s => s.on i fun c => { c with reading := true }

/-- A client is in a new request. -/
def begin (k : Nat) (request : ProxiedRequest) : Pool :=
  { s with
    busy := Function.update s.busy k true
    requests := Function.update s.requests k request
    serial := Function.update s.serial k (s.serial k + 1) }

/-- `hin_proxy`, where the local cache has no answer. A client that is in a response is turned away. -/
def hinProxy (k : Nat) (request : ProxiedRequest) : Option Pool :=
  if s.busy k then none
  else
    ((s.begin k request).httpConnectionGet request.url).bind fun (u, i) =>
      (u.on i fun c => Conn.serve c k (some request.method) .proxy).httpConnectionStart i

/-- `http_download_raw`. -/
def httpDownloadRaw (url : Bytes) : Option Pool :=
  (s.httpConnectionGet url).bind fun (u, i) =>
    (u.on i fun c => { c with callback := .download }).httpConnectionStart i

/-- `http_client_restart`. -/
def httpClientRestart (old : Nat) : Option Pool :=
  match (s.conns old).parent, (s.conns old).uri with
  | none, _ => some s
  | some _, none => none
  | some k, some uri =>
      let t : Pool := { s with restarts := s.restarts ++ [⟨k, s.serial k, (s.conns old).pooled⟩] }
      (t.httpConnectionGet uri.all).bind fun (u, i) =>
        ((u.on i fun c => Conn.serve c k c.method (u.conns old).callback).httpConnectionStart i).map fun u =>
          u.on old Conn.forget

/-- An attempt that ends without an answer is noted. -/
def noteClose (i : Nat) : Pool :=
  { s with closes := s.closes ++ ((s.conns i).parent.map fun k => (k, s.serial k)).toList }

/-- A request that ends because its head could not be written is noted. -/
def noteGivenUp (i : Nat) : Pool :=
  { s with givenUp := s.givenUp ++ ((s.conns i).parent.map fun k => (k, s.serial k)).toList }

/-- `http_client_headers_close_callback`. -/
def httpClientHeadersCloseCallback (i : Nat) : Option Pool :=
  (if ((s.conns i).headers || (s.conns i).data) && !(s.conns i).idle then (s.noteClose i).httpClientRestart i
    else some s).map fun s => s.httpClientShutdown i

/-! ## Completions -/

/-- `http_client_start_pipe`. `hin_rproxy_headers` needs a client. -/
def httpClientStartPipe (i : Nat) : Option Pool :=
  match (s.conns i).callback, (s.conns i).parent with
  | .proxy, none => none
  | .proxy, some k => some { s.on i fun c => { c with piping := true } with answered := s.answered ++ [(k, s.serial k)] }
  | _, _ => some (s.on i fun c => { c with piping := true })

/-- A read of the line buffer completes. What comes in while a connection is idle is kept, and read on. -/
def linesRead (i : Nat) : LineRead → Option Pool
  | .closed => (s.on i Conn.stopReading).httpClientHeadersCloseCallback i
  | .wait => some s
  | .error =>
      if (s.conns i).idle then none else (s.on i Conn.stopReading).httpClientHeadersCloseCallback i
  | .head => if (s.conns i).idle then none else (s.on i Conn.stopReading).httpClientStartPipe i

/-- `http_client_unlink_wrap`, after the client has been told. -/
def connectFailed (i : Nat) : Option Pool :=
  (s.rproxyFinish i).map fun s =>
    (s.on i fun c => { c with
      ended := true
      keepalive := false }).httpClientUnlink i

/-- `connected`. -/
def connected (i : Nat) (ok tlsOk : Bool) : Option Pool :=
  let s := s.on i fun c => { c with connecting := false }
  if !ok then s.connectFailed i
  else
    match (s.conns i).uri with
    | none => none
    | some uri =>
        if uri.https then
          if !tlsOk then s.connectFailed i
          else ((s.on i Conn.tls).on i Conn.opened).httpClientStartHeaders i
        else (s.on i Conn.opened).httpClientStartHeaders i

/-- `http_client_sent_callback`. -/
def httpClientSentCallback (i : Nat) (ok : Bool) : Option Pool :=
  let s := s.on i fun c => { c with headers := false }
  if (s.conns i).stopping then some (s.httpClientShutdown i)
  else if ok then some s
  else ((s.noteGivenUp i).rproxyFinish i).map fun s => s.httpClientShutdown i

/-- `http_client_close_callback`. -/
def httpClientCloseCallback (i : Nat) (ok : Bool) : Pool :=
  let s := s.on i fun c => { c with closing := false }
  if ok then (s.on i fun c => { c with ended := true }).httpClientUnlink i else s

/-- One event. Only what is outstanding completes. -/
def step : Event → Option Pool
  | .proxy k request => s.hinProxy k request
  | .download url => s.httpDownloadRaw url
  | .connected i ok tlsOk => if (s.conns i).connecting then s.connected i ok tlsOk else none
  | .sent i ok => if (s.conns i).headers then s.httpClientSentCallback i ok else none
  | .lines i r => if (s.conns i).reading then s.linesRead i r else none
  | .piped i =>
      if (s.conns i).piping then
        (s.on i fun c => { c with
          piping := false
          data := false }).httpClientFinishRequest i
      else none
  | .posted i =>
      if (s.conns i).posting then
        (s.on i fun c => { c with
          posting := false
          post := false }).httpClientFinishRequest i
      else none
  | .closed i ok => if (s.conns i).closing then some (s.httpClientCloseCallback i ok) else none
  | .closeIdle => some s.httpConnectionCloseIdle

end Pool
end Upstreams
end Http
end Hin9
