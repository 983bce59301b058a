import Hin9.Http.HeadOnly

/-!
# `Http.CgiHead` — the head of a response a backend gives (`cgi_parse.c`, `httpd_cgi.c`, `fcgi.c`)

`hin_cgi_headers_read_callback` goes over the lines of the backend twice. The first pass notes what switches features
off; then the flags of the client settle how the body is sent, and the second pass copies the lines behind the ones the
server writes itself. The flags have a history: they are those of the request, changed when the backend is started, when
the request has been read, and when the compressor is set up.

A response that goes to the local cache has no head of its own and is left out.
-/

namespace Hin9
namespace Http

open Netcode (READ_SZ)
open Pattern
open Fcgi (Chain HIN_HTTPD_MAX_HEADER_LINE_SIZE cstr)

/-! ## Flags -/

/-- `hin_client_deflate_init`: one of the two encodings is left. -/
def hinClientDeflateInit (peer : UInt32) : UInt32 :=
  if hasFlag peer HIN_HTTP_DEFLATE then (httpdRequestChunked (peer &&& ~~~HIN_HTTP_COMPRESS ||| HIN_HTTP_DEFLATE)).1
  else if hasFlag peer HIN_HTTP_GZIP then (httpdRequestChunked (peer &&& ~~~HIN_HTTP_COMPRESS ||| HIN_HTTP_GZIP)).1
  else peer

/-- The request, as it is when `hin_cgi` or `hin_fastcgi` starts the backend, with `http->disable` as it is when the
    request has been handled. -/
structure CgiClient extends ProxyClient where
  disable : UInt32 := 0
deriving Repr, DecidableEq

/-- `http->peer_flags` when the head of the backend arrives: `httpd_request_chunked` at the start of the backend, then
    the rest of `httpd_client_read_callback`. -/
def CgiClient.started (c : CgiClient) : UInt32 :=
  let peer := (httpdRequestChunked c.peerFlags).1 &&& ~~~c.disable
  if hasFlag peer HIN_HTTP_COMPRESS then hinClientDeflateInit peer else peer

/-! ## Lines -/

/-- The lines of a head up to the blank one, and what is behind it; nothing as long as there is no blank one. -/
def cgiLines (behind : UInt8) : Nat → Source → Option (List Bytes × Source)
  | 0, _ => none
  | fuel + 1, s =>
      (hinFindLine behind s).bind fun r =>
        if r.1 = [] then some ([], r.2) else (cgiLines behind fuel r.2).map fun q => (r.1 :: q.1, q.2)

/-- What the first pass notes of the lines. -/
def CgiHead.ofLines (lines : List Bytes) : CgiHead := lines.foldl CgiHead.line {}

/-- The first pass takes the lines one after the other. -/
theorem cgiHeadLines_eq (behind : UInt8) (fuel : Nat) (s : Source) (h : CgiHead) :
    cgiHeadLines behind fuel s h = (cgiLines behind fuel s).map fun q => (q.1.foldl CgiHead.line h, q.2) := by
  induction fuel generalizing s h with
  | zero => rfl
  | succ fuel ih =>
      rw [cgiHeadLines, cgiLines]
      cases hinFindLine behind s with
      | none => rfl
      | some r =>
          rw [Option.bind_some, Option.bind_some]
          by_cases hblank : r.1 = []
          · rw [if_pos hblank, if_pos hblank]
            rfl
          · rw [if_neg hblank, if_neg hblank, ih, Option.map_map]
            rfl

/-- The second pass: what is written for a line. `HIN_HTTPD_DISABLE_POWERED_BY` is off. -/
def cgiCopied (chunked : Bool) (line : Bytes) : Option Bytes :=
  let begins := fun name : String => (matchiString line (bytes name)).took
  if (begins "Status:").isSome then none
  else if chunked && (begins "Content-Length:").isSome then none
  else
    match begins "Location:" with
    | some used => some (bytes "Location: " ++ line.drop used)   -- `hin_cgi_location`
    | none => if (matchString line (bytes "X-CGI-")).took.isSome then none else some line

/-! ## The reply -/

/-- The flags and the filter of the reply. -/
def CgiClient.options (c : CgiClient) (h : CgiHead) : UInt32 × Encoder :=
  httpdPipeSetHttp11ResponseOptions h.status.toNat c.method (c.started &&& ~~~(c.disable ||| h.disable))

/-- The head that is written for these lines. -/
def CgiClient.replyHead (c : CgiClient) (lines : List Bytes) : ProxyHead :=
  let h := CgiHead.ofLines lines
  let peer := (c.options h).1
  { ver0 := hasFlag peer HIN_HTTP_VER0
    status := h.status
    contentEncoding :=
      if hasFlag peer HIN_HTTP_DEFLATE then some .deflate else if hasFlag peer HIN_HTTP_GZIP then some .gzip else none
    chunked := hasFlag peer HIN_HTTP_CHUNKED
    keepAlive := hasFlag peer HIN_HTTP_KEEPALIVE
    contentLength := none
    copied := lines.filterMap (cgiCopied (hasFlag peer HIN_HTTP_CHUNKED)) }

/-- The output of a backend, with its head in lines. -/
def Output.lines (out : Output) : Option (List Bytes × Source) :=
  cgiLines out.behind (out.head.length + 1) { data := out.head }

/-- The calls of `read_callback`: for what was read behind the head, unless that is nothing, for what is read later,
    and for the end. -/
def Output.calls (out : Output) (lines : List Bytes) (rest : Source) : List (Bytes × Bool) :=
  let piece := cgiFirstPiece (CgiHead.ofLines lines) rest
  (if piece = [] then [] else [(piece, false)]) ++ out.more.map (·, false) ++ if out.ended then [([], true)] else []

/-- A reply: its head, the text of the head, the filter behind it, and what the filter has queued. -/
structure CgiReply where
  head : ProxyHead
  text : Bytes
  encoder : Encoder
  body : Bytes
deriving Repr, DecidableEq

/-- `hin_cgi_headers_read_callback`, where the local cache does not take the response, and the pipe it starts. The pipe has
    no `HIN_COUNT`. -/
def hinCgiReply (Z : Zlib) (c : CgiClient) (out : Output) : Option CgiReply :=
  out.lines.bind fun (lines, rest) =>
    let encoder := (c.options (CgiHead.ofLines lines)).2
    (((c.replyHead lines).texts c.toProxyClient).foldlM header { sz := (rest.len + READ_SZ).toNat }).map fun chain =>
      { head := c.replyHead lines, text := chain.content, encoder, body := encoder.queued Z (out.calls lines rest) }

end Http
end Hin9
