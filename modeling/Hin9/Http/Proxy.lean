import Hin9.Fcgi.Write
import Hin9.Http.Pool

/-!
# `Http.Proxy` — the response of an upstream server on its way to the client (`rproxy.c`, `data.c`, `header.c`)

`http_client_headers_read_callback` collects the head and starts the response pipe; `hin_rproxy_headers` chooses the
framing of the reply and puts the head of the reply in front of the body. Of the body, what was read together with the
head goes through the pipe at once, and the rest read by read.

The pipe is followed up to the calls of `read_callback` it makes; what its encoder queues is a function of these calls.
A head that is already in the local cache, and a client that goes away, are not modelled.
-/

namespace Hin9
namespace Http

open Netcode (READ_SZ)
open Pattern
open Fcgi (Chain HIN_HTTPD_MAX_HEADER_LINE_SIZE decimal cstr)

/-! ## The lines of a head -/

/-- `vheader`: a long text is left out, and one that does not fit together with its NUL goes to a new buffer. Where it
    does not fit there either, buffers are added without end. -/
def header (c : Chain) (text : Bytes) : Option Chain :=
  if text.length > HIN_HTTPD_MAX_HEADER_LINE_SIZE then some c
  else if text.length < c.sz - c.last.length then some { c with last := c.last ++ text }
  else
    let sz := max READ_SZ text.length
    if text.length < sz then some { c with full := c.full ++ [c.last], last := text, sz } else none

/-- The cases of `http_status_name`. -/
def statusNames : List (Int × Bytes) :=
  [(100, bytes "Continue"),
   (101, bytes "Switching Protocols"),
   (102, bytes "Processing"),
   (103, bytes "Early Hints"),
   (200, bytes "OK"),
   (201, bytes "Created"),
   (202, bytes "Accepted"),
   (203, bytes "Non-Authoritative Information"),
   (204, bytes "No Content"),
   (205, bytes "Reset Content"),
   (206, bytes "Partial Content"),
   (207, bytes "Multi-Status"),
   (208, bytes "Already Reported"),
   (300, bytes "Multiple Choice"),
   (301, bytes "Moved Permanently"),
   (302, bytes "Found"),
   (303, bytes "See Other"),
   (304, bytes "Not Modified"),
   (305, bytes "Use Proxy"),
   (306, bytes "Switch Proxy"),
   (307, bytes "Temporary Redirect"),
   (308, bytes "Permanent Redirect"),
   (400, bytes "Bad Request"),
   (401, bytes "Unauthorized"),
   (402, bytes "Payment Required"),
   (403, bytes "Forbidden"),
   (404, bytes "Not Found"),
   (405, bytes "Method Not Allowed"),
   (406, bytes "Not Acceptable"),
   (407, bytes "Proxy Authentication Required"),
   (408, bytes "Request Timeout"),
   (409, bytes "Conflict"),
   (410, bytes "Gone"),
   (411, bytes "Length Required"),
   (412, bytes "Precondition Failed"),
   (413, bytes "Payload Too Large"),
   (414, bytes "URI Too Long"),
   (415, bytes "Unsupported Media Type"),
   (416, bytes "Range Not Satisfiable"),
   (425, bytes "Too Early"),
   (426, bytes "Upgrade Required"),
   (428, bytes "Precondition Required"),
   (429, bytes "Too Many Requests"),
   (431, bytes "Request Header Fields Too Large"),
   (451, bytes "Unavailable For Legal Reasons"),
   (500, bytes "Server error"),
   (501, bytes "Not Implemented"),
   (502, bytes "Bad Gateway"),
   (503, bytes "Service Unavailable"),
   (504, bytes "Gateway Timeout"),
   (505, bytes "HTTP Version Not Supported"),
   (511, bytes "Network Authentication Required")]

/-- `http_status_name`. -/
def httpStatusName (status : Int) : Bytes := (statusNames.lookup status).getD (bytes "Unknown")

/-- The request of the client, as `hin_rproxy_headers` finds it. The last three fields are what
    `httpd_write_common_headers` writes apart from the lines the framing depends on: `Date` and `Server`,
    `Cache-Control`, and what stands behind `Connection`. -/
structure ProxyClient where
  method : Method := .get
  status : Nat := 200
  peerFlags : UInt32 := 0
  banner : List Bytes := []
  cacheControl : List Bytes := []
  appended : List Bytes := []
deriving Repr, DecidableEq

/-- The head of a reply, with the upstream lines that are copied. -/
structure ProxyHead where
  ver0 : Bool
  status : Int
  contentEncoding : Option ContentEncoding
  chunked : Bool
  keepAlive : Bool
  contentLength : Option Int
  copied : List Bytes
deriving Repr, DecidableEq

/-- The lines `hin_rproxy_headers` leaves out. -/
def leftOut : List Bytes :=
  [bytes "Content-Length:", bytes "Transfer-Encoding:", bytes "Content-Encoding:", bytes "Connection:",
    bytes "Cache-Control:", bytes "Server:", bytes "Date:", bytes "Accept:", bytes "Accept-Encoding:",
    bytes "Accept-Ranges:"]

def isCopied (line : Bytes) : Bool := leftOut.all fun name => (matchiString line name).took.isNone

/-- The flags `hin_rproxy_headers` settles, and the read callback of the pipe. `parent->status` is still that of the
    request. -/
def rproxyOptions (c : ProxyClient) (f : Framing) : UInt32 × Encoder :=
  httpdPipeSetHttp11ResponseOptions c.status c.method (c.peerFlags ||| if f.chunked then HIN_HTTP_CHUNKED else 0)

/-- The head `hin_rproxy_headers` writes. -/
def hinRproxyHeaders (c : ProxyClient) (u : UpstreamHead) : ProxyHead :=
  let peer := (rproxyOptions c u.framing).1
  { ver0 := hasFlag peer HIN_HTTP_VER0
    status := u.status
    contentEncoding :=
      if hasFlag peer HIN_HTTP_DEFLATE then some .deflate else if hasFlag peer HIN_HTTP_GZIP then some .gzip else none
    chunked := hasFlag peer HIN_HTTP_CHUNKED
    keepAlive := hasFlag peer HIN_HTTP_KEEPALIVE
    contentLength := if u.framing.sz ≠ 0 ∧ hasFlag peer HIN_HTTP_CHUNKED = false then some u.framing.sz else none
    copied := u.lines.filter isCopied }

/-- The texts of the head, one for each call of `header`. -/
def ProxyHead.texts (h : ProxyHead) (c : ProxyClient) : List Bytes :=
  [bytes "HTTP/1." ++ decimal (if h.ver0 then 0 else 1) ++ [32] ++ decimal h.status ++ [32] ++ httpStatusName h.status
    ++ [CR, LF]] ++
  c.banner ++
  (match h.contentEncoding with
    | some .deflate => [bytes "Content-Encoding: deflate\r\n"]
    | some .gzip => [bytes "Content-Encoding: gzip\r\n"]
    | none => []) ++
  (if h.chunked then [bytes "Transfer-Encoding: chunked\r\n"] else []) ++
  c.cacheControl ++
  [if h.keepAlive then bytes "Connection: keep-alive\r\n" else bytes "Connection: close\r\n"] ++
  c.appended ++
  (match h.contentLength with
    | some n => [bytes "Content-Length: " ++ decimal n ++ [CR, LF]]
    | none => []) ++
  h.copied.map (fun line => cstr line ++ [CR, LF]) ++
  [[CR, LF]]

/-- The buffers the head is written to. -/
def ProxyHead.buffers (h : ProxyHead) (c : ProxyClient) : Option Chain :=
  (h.texts c).foldlM header { sz := READ_SZ }

/-! ## The response pipe -/

/-- The calls of `read_callback` that `hin_pipe_process_buffer` makes for `data`: the bytes, and `flush`. -/
def BodyPipe.calls (p : BodyPipe) (data : Bytes) : List (Bytes × Bool) :=
  match p.decode with
  | none => [(data, p.done || ({ p with left := p.left.map (· - data.length) } : BodyPipe).exhausted)]
  | some st => ((hinPipeDecodeChunked st data [0]).map (·.handed)).getD []

inductive ProxyPhase where
  | waiting
  | piping (u : UpstreamHead) (p : BodyPipe) (calls : List (Bytes × Bool))
  | failed   -- no head could be read, or the decoder left its buffer
deriving Repr, DecidableEq

/-- A response on its way: the bytes received, and the phase. -/
structure ProxyState where
  received : Bytes := []
  phase : ProxyPhase := .waiting
deriving Repr, DecidableEq

inductive ProxyEvent where
  | lines (data : Bytes) (behind : UInt8)   -- a read of the line buffer completes; `behind` lies in its memory
  | body (data : Bytes)                     -- a read of the pipe completes; nothing at the end, or after an error
deriving Repr, DecidableEq

/-- The bytes an event brings. -/
def ProxyEvent.data : ProxyEvent → Bytes
  | .lines data _ => data
  | .body data => data

/-- `http_client_start_pipe` and `hin_pipe_start`. -/
def startPipe (head : Bool) (u : UpstreamHead) : ProxyPhase :=
  let p := BodyPipe.ofFraming head u.framing
  let piece := u.rest.data.take (firstPiece head u).toNat
  if 0 < firstPiece head u then
    match p.process piece with
    | some q => .piping u q.start (p.calls piece)
    | none => .failed
  else .piping u p.start []

/-- One event of the response to a request, by `HEAD` or not. A counted pipe asks for no more than what is left. -/
def proxyStep (head : Bool) (s : ProxyState) : ProxyEvent → Option ProxyState
  | .lines data behind =>
      match s.phase with
      | .waiting =>
          if data = [] then none
          else
            let received := s.received ++ data
            match httpClientHeaders behind received with
            | .wait => some { s with received }
            | .error => some { received, phase := .failed }
            | .head u => some { received, phase := startPipe head u }
      | _ => none
  | .body data =>
      match s.phase with
      | .piping u p calls =>
          if p.done ∨ READ_SZ < data.length ∨ (p.left.map fun (n : Int) => decide (n < data.length)).getD false then none
          else
            let p := { p with done := data.isEmpty }
            match p.process data with
            | some q => some { received := s.received ++ data, phase := .piping u q (calls ++ p.calls data) }
            | none => some { received := s.received ++ data, phase := .failed }
      | _ => none

/-- What the encoder queues for the calls made. -/
def Encoder.queued (Z : Zlib) (enc : Encoder) (calls : List (Bytes × Bool)) : Bytes :=
  (calls.foldl (fun (s : Sender Z) call => s.encode enc call.1 call.2) (Sender.start Z 0)).queued

/-- A reply as the client gets it: its head, the text of the head, and the bytes behind it. -/
structure ProxyReply where
  head : ProxyHead
  text : Bytes
  body : Bytes
deriving Repr, DecidableEq

/-- The reply for a response with this head and these calls. All buffers of the head are queued: the queue is empty
    when they are put in front of it. -/
def proxyReply (Z : Zlib) (c : ProxyClient) (u : UpstreamHead) (calls : List (Bytes × Bool)) : Option ProxyReply :=
  let head := hinRproxyHeaders c u
  (head.buffers c).map fun chain =>
    { head, text := chain.content, body := (rproxyOptions c u.framing).2.queued Z calls }

end Http
end Hin9
