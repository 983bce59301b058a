import Hin9.Http.FileHead

/-!
# `Http.Request` — the fields of a connection that belong to its request (`httpd.c`, `httpd_head.c`, `lua_opt.c`)

One `httpd_client_t` serves all the requests of its connection, one after the other. The parser, the script and the
handler of a request write its fields; when the request is finished and the connection is kept, `httpd_client_clean` and
`httpd_client_start_request` reset them for the next one.

What the responders and backends leave in the fields is not computed here: `respond` gives the fields they write any
values. The cache keys are not among these, only `l_hin_set_option` writes them. The date of a conditional request is read
by the C library, and `toTime` stands for it.
-/

namespace Hin9
namespace Http

open Pattern

/-! ## Fields -/

/-- The bits of `http->state`. -/
def HIN_REQ_HEADERS : UInt32 := 0x1
def HIN_REQ_DATA : UInt32 := 0x2
def HIN_REQ_POST : UInt32 := 0x4
def HIN_REQ_CGI : UInt32 := 0x20
def HIN_REQ_FCGI : UInt32 := 0x40
def HIN_REQ_END : UInt32 := 0x80
def HIN_REQ_STOPPING : UInt32 := 0x100

/-- `http->method`. -/
def HIN_METHOD_GET : UInt32 := 0x10
def HIN_METHOD_HEAD : UInt32 := 0x11
def HIN_METHOD_POST : UInt32 := 0x20

/-- More bits of `http->peer_flags`. -/
def HIN_HTTP_CHUNKED_UPLOAD : UInt32 := 0x400
def HIN_HTTP_POST : UInt32 := 0x2000

/-- More bits of `http->cache_flags`. -/
def HIN_CACHE_PRIVATE : UInt32 := 0x8
def HIN_CACHE_NO_TRANSFORM : UInt32 := 0x40
def HIN_CACHE_MUST_REVALIDATE : UInt32 := 0x100
def HIN_CACHE_PROXY_REVALIDATE : UInt32 := 0x200

/-- `httpd_client_t`, as far as it belongs to a request. Descriptors are `0` and pointers `none` where there is nothing. -/
structure RequestFields where
  state : UInt32 := 0
  peerFlags : UInt32 := 0
  disable : UInt32 := 0
  status : Int := 0
  method : UInt32 := 0
  pos : Int := 0
  count : Int := 0
  file : Option Nat := none
  cache : Int := 0
  cacheFlags : UInt32 := 0
  modifiedSince : Int := 0
  cacheKey1 : UInt64 := 0
  cacheKey2 : UInt64 := 0
  etag : UInt64 := 0
  postFd : Int := 0
  postSz : Int := 0
  postSep : Option Bytes := none
  appendHeaders : Option Bytes := none
  contentType : Option Bytes := none
  hostname : Option Bytes := none
  debug : UInt32 := 0
  headers : Bytes := []
  vhost : Nat := 0
  fileFd : Int := 0
  filePath : Option Bytes := none
deriving Repr, DecidableEq

/-- What `httpd_vhost_switch` reads of a `httpd_vhost_t`. -/
structure Vhost where
  disable : UInt32 := 0
  debug : UInt32 := 0
deriving Repr, DecidableEq

/-- The virtual hosts: the one the server listens for, and the table of names. -/
structure Server where
  parent : Nat := 0
  vhosts : Nat → Vhost := fun _ => {}
  vhostHt : Bytes → Option Nat := fun _ => none

namespace RequestFields

variable (http : RequestFields)

/-! ## Reset -/

/-- `httpd_client_clean`. -/
def httpdClientClean : RequestFields :=
  { http with
    fileFd := 0
    postFd := 0
    peerFlags := 0
    disable := 0
    status := 0
    method := 0
    pos := 0
    count := 0
    cache := 0
    modifiedSince := 0
    cacheFlags := 0
    etag := 0
    postSz := 0
    postSep := none
    filePath := none
    appendHeaders := none
    hostname := none
    contentType := none
    file := none
    headers := [] }

/-- `httpd_vhost_switch`. -/
def httpdVhostSwitch (server : Server) (vhost : Nat) : RequestFields :=
  { http with
    vhost := vhost
    debug := (server.vhosts vhost).debug
    disable := (server.vhosts vhost).disable }

/-- `httpd_client_start_request`. -/
def httpdClientStartRequest (server : Server) : RequestFields :=
  { http with state := HIN_REQ_HEADERS ||| (http.state &&& HIN_REQ_STOPPING) }.httpdVhostSwitch server server.parent

/-- `httpd_client_accept`: a new client is all zeros. -/
def httpdClientAccept (server : Server) : RequestFields := ({} : RequestFields).httpdClientStartRequest server

/-! ## The parser -/

/-- `httpd_vhost_request`: the first name counts. -/
def httpdVhostRequest (server : Server) (name : Bytes) : RequestFields :=
  match http.hostname with
  | some _ => http
  | none =>
      let http := { http with hostname := some name }
      match server.vhostHt name with
      | some vhost => http.httpdVhostSwitch server vhost
      | none => http

/-- The loop over the encodings of `Accept-Encoding`. -/
def acceptEncodings : Nat → UInt32 → Bytes → UInt32
  | 0, peer, _ => peer
  | fuel + 1, peer, line =>
      let m := matchString line (bytes "([%w]+)")
      match m.took with
      | none => peer
      | some used =>
          let param := m.capture line 0
          let peer :=
            if (matchiString param (bytes "deflate")).took.isSome then peer ||| HIN_HTTP_DEFLATE
            else if (matchiString param (bytes "gzip")).took.isSome then peer ||| HIN_HTTP_GZIP
            else peer
          let line := line.drop used
          match (matchString line (bytes "%s*,%s*")).took with
          | none => peer
          | some used => acceptEncodings fuel peer (line.drop used)

/-- The loop over the options of `Connection`. -/
def connectionOptions : Nat → UInt32 → Bytes → UInt32
  | 0, peer, _ => peer
  | fuel + 1, peer, line =>
      let (peer, line) :=
        match (matchiString line (bytes "close")).took with
        | some used => (peer &&& ~~~HIN_HTTP_KEEPALIVE, line.drop used)
        | none =>
            match (matchiString line (bytes "keep-alive")).took with
            | some used => (peer ||| HIN_HTTP_KEEPALIVE, line.drop used)
            | none => (peer, line.drop ((matchString line (bytes "%w+")).took.getD 0))
      match (matchString line (bytes "%s*,%s*")).used with
      | none => peer
      | some used => connectionOptions fuel peer (line.drop used)

/-- `strtol (s, NULL, 16)`, as a `uint64_t`. -/
def strtolHex (s : Bytes) : UInt64 :=
  let s := s.dropWhile isspace
  let negative := s.head? == some 45
  let s := if s.head? == some 45 || s.head? == some 43 then s.tail else s
  let s := if s.head? == some 48 && toupper (s.tail.headD 0) == 88 && isxdigit (s.tail.tail.headD 0) then s.drop 2 else s
  let n := hexNat 0 (s.takeWhile isxdigit)
  if negative then 0 - UInt64.ofNat (min n (2 ^ 63)) else UInt64.ofNat (min n (2 ^ 63 - 1))

/-- The lines that only a `POST` is looked at for; `none` where the request is refused. -/
def httpdParsePostLine (line : Bytes) : Option RequestFields :=
  let len := matchiString line (bytes "Content-Length: (%d+)")
  let boundary := matchiString line (bytes "Content-Type:%s*multipart/form-data;%s*boundary=%\"?([%-%w]+)%\"?")
  match len.took, boundary.took, (matchiString line (bytes "Transfer-Encoding:%s*")).took with
  | some _, _, _ => some { http with
      postSz := atoi (len.capture line 0)
      peerFlags := http.peerFlags ||| HIN_HTTP_POST }
  | none, some _, _ => some { http with postSep := some (bytes "--" ++ boundary.capture line 0) }
  | none, none, some used =>
      if (matchiString (line.drop used) (bytes "chunked")).took.isSome then
        some { http with peerFlags := http.peerFlags ||| (HIN_HTTP_CHUNKED_UPLOAD ||| HIN_HTTP_POST) }
      else if (matchiString (line.drop used) (bytes "identity")).took.isSome then some http
      else none
  | none, none, none => some http

/-- `httpd_parse_headers_line`; `none` where the request is refused. -/
def httpdParseHeadersLine (server : Server) (toTime : Bytes → Int) (line : Bytes) : Option RequestFields :=
  let host := matchiString line (bytes "Host:%s*([%w.]+)")
  match (matchiString line (bytes "Accept-Encoding: ")).took with
  | some used => some { http with peerFlags := acceptEncodings (line.length + 1) http.peerFlags (line.drop used) }
  | none =>
  match host.took with
  | some _ => some (http.httpdVhostRequest server (host.capture line 0))
  | none =>
  match (matchiString line (bytes "If-Modified-Since:%s*")).took with
  | some used => some { http with modifiedSince := toTime (line.drop used) }
  | none =>
  match (matchiString line (bytes "If-None-Match:%s*\"")).took with
  | some used => some { http with etag := strtolHex (line.drop used) }
  | none =>
  match (matchiString line (bytes "Connection:%s*")).took with
  | some used => some { http with peerFlags := connectionOptions (line.length + 1) http.peerFlags (line.drop used) }
  | none =>
  match (matchiString line (bytes "Range:%s*")).took with
  | some _ =>
      let range := httpdParseRange { pos := http.pos, count := http.count } line
      some { http with
        pos := range.pos
        count := range.count }
  | none => if http.method = HIN_METHOD_POST then http.httpdParsePostLine line else some http

/-- The first line of a request, read by `httpd_parse_headers`: its method and whether it is `HTTP/1.0`. -/
def httpdParseRequestLine (method : UInt32) (ver0 : Bool) : RequestFields :=
  { http with
    peerFlags := http.peerFlags ||| (if ver0 then HIN_HTTP_VER0 else HIN_HTTP_KEEPALIVE)
    count := -1
    method := method }

/-- The head is complete and was not refused: the rest of `httpd_parse_headers` and `httpd_parse_req`, and
    `httpd_client_read_callback` up to the script. -/
def httpdParseReq (headers : Bytes) : RequestFields :=
  let postSz := if hasFlag http.peerFlags HIN_HTTP_CHUNKED_UPLOAD then 0 else http.postSz
  { http with
    postSz := max postSz 0
    peerFlags := http.peerFlags &&& ~~~http.disable
    state := http.state &&& ~~~HIN_REQ_HEADERS
    headers := headers
    status := 200 }

/-- `httpd_client_start_post`, with the temporary file it opens for a CGI, and the flags after it. -/
def httpdClientStartPost (fd : Int) : RequestFields :=
  let http :=
    if http.method &&& HIN_METHOD_POST = 0 then http
    else
      let http := if hasFlag http.state HIN_REQ_CGI then { http with postFd := fd } else http
      if hasFlag http.state HIN_REQ_FCGI then http
      else { http with state := http.state ||| HIN_REQ_POST }
  { http with peerFlags := http.peerFlags &&& ~~~http.disable }

/-! ## The script -/

/-- One option of a `Cache-Control` text. A text that begins with `no-store` sets its flag in the first of its two
    branches. -/
def cacheOption (opt : Bytes) (r : UInt32 × Option Int) : UInt32 × Option Int :=
  let age := matchString opt (bytes "max-age=%s*(%d+)")
  let begins := fun name : String => (matchString opt (bytes name)).took.isSome
  if age.took.isSome then (r.1 ||| HIN_CACHE_MAX_AGE, some (atoi (age.capture opt 0)))
  else if begins "public" then (r.1 ||| HIN_CACHE_PUBLIC, r.2)
  else if begins "private" then (r.1 ||| HIN_CACHE_PRIVATE, r.2)
  else if begins "immutable" then (r.1 ||| HIN_CACHE_IMMUTABLE, r.2)
  else if begins "no-cache" then (r.1 ||| HIN_CACHE_NO_CACHE, r.2)
  else if begins "no-store" then (r.1 ||| HIN_CACHE_NO_STORE, r.2)
  else if begins "no-transform" then (r.1 ||| HIN_CACHE_NO_TRANSFORM, r.2)
  else if begins "must-revalidate" then (r.1 ||| HIN_CACHE_MUST_REVALIDATE, r.2)
  else if begins "proxy-revalidate" then (r.1 ||| HIN_CACHE_PROXY_REVALIDATE, r.2)
  else r

/-- `httpd_parse_cache_str`: the flags, and the age when one is given. -/
def httpdParseCacheStr : Nat → UInt32 × Option Int → Bytes → UInt32 × Option Int
  | 0, r, _ => r
  | fuel + 1, r, source =>
      let m := matchString source (bytes "%s*([%w%-=]+)")
      match m.took with
      | none => r
      | some used =>
          let r := cacheOption (m.capture source 0) r
          let source := source.drop used
          match (matchString source (bytes "%s*,%s*")).took with
          | none => r
          | some used => httpdParseCacheStr fuel r (source.drop used)

/-- What a script can set. A cache key is two words of a hash of its texts. -/
inductive Setting where
  | enable (mask : UInt32)
  | disable (mask : UInt32)
  | status (status : Int)
  | cacheKey (key : Option (UInt64 × UInt64))
  | cacheNumber (num : Int)
  | cacheStr (str : Bytes)
  | noKeepalive
  | debug (mask : UInt32)
  | addHeader (name data : Bytes)
  | contentType (str : Bytes)
  | shutdown
deriving Repr, DecidableEq

/-- `l_hin_set_option`, `l_hin_add_header`, `l_hin_set_content_type` and `l_hin_shutdown`. -/
def lHinSetOption : Setting → RequestFields
  | .enable mask => { http with disable := http.disable &&& ~~~mask }
  | .disable mask => { http with disable := http.disable ||| mask }
  | .status status => { http with status := status }
  | .cacheKey none =>
      { http with
        cacheKey1 := 0
        cacheKey2 := 0 }
  | .cacheKey (some (key1, key2)) =>
      { http with
        cacheKey1 := key1
        cacheKey2 := key2 }
  | .cacheNumber num =>
      let set := hinCacheSetNumber {} num
      { http with
        cache := set.cache
        cacheFlags := set.cacheFlags }
  | .cacheStr str =>
      let set := httpdParseCacheStr (str.length + 1) (0, none) str
      { http with
        cacheFlags := set.1
        cache := set.2.getD http.cache }
  | .noKeepalive => { http with peerFlags := http.peerFlags &&& ~~~HIN_HTTP_KEEPALIVE }
  | .debug mask => { http with debug := mask }
  | .addHeader name data =>
      { http with appendHeaders := some (name ++ bytes ": " ++ data ++ [CR, LF] ++ http.appendHeaders.getD []) }
  | .contentType str => { http with contentType := some str }
  | .shutdown => { http with state := http.state ||| HIN_REQ_END }

/-- What responders and backends leave in the fields. They write no cache key. -/
def respond (left : RequestFields) : RequestFields :=
  { left with
    cacheKey1 := http.cacheKey1
    cacheKey2 := http.cacheKey2 }

/-! ## The end -/

/-- The start of `httpd_client_finish_request`, with the bytes its pipe has counted. -/
def responseDone (count : Option Int) : RequestFields :=
  { http with
    count := count.getD http.count
    state := http.state &&& ~~~HIN_REQ_DATA }

/-- The connection is kept for the next request. -/
def keep : Bool := hasFlag http.peerFlags HIN_HTTP_KEEPALIVE && !hasFlag http.state HIN_REQ_STOPPING

/-- `httpd_client_finish_request`, with what the script sets in its callback at the end; it waits for the upload. -/
def httpdClientFinishRequest (server : Server) (count : Option Int) (settings : List Setting) : RequestFields :=
  let http := http.responseDone count
  if hasFlag http.state HIN_REQ_POST then http
  else
    let done := settings.foldl lHinSetOption http
    if http.keep then done.httpdClientClean.httpdClientStartRequest server
    else { done with state := done.state ||| HIN_REQ_END ||| HIN_REQ_STOPPING }

end RequestFields

/-! ## Connections -/

inductive HttpdEvent where
  | requestLine (method : UInt32) (ver0 : Bool)
  | headersLine (line : Bytes)
  | request (headers : Bytes)                           -- the blank line
  | set (setting : RequestFields.Setting)
  | startPost (fd : Int)
  | respond (left : RequestFields)
  | finish (count : Option Int) (settings : List RequestFields.Setting)
  | configure (server : Server)                         -- the virtual hosts are set up anew

/-- A connection. `began` and `beganOn` record the fields and the server as the request began, and `since` what has
    happened from there on. -/
structure Httpd where
  http : RequestFields
  server : Server
  began : RequestFields
  beganOn : Server
  since : List HttpdEvent

/-- A connection is accepted. -/
def Httpd.accept (server : Server) : Httpd where
  http := RequestFields.httpdClientAccept server
  server := server
  began := RequestFields.httpdClientAccept server
  beganOn := server
  since := []

/-- A finish now begins the next request. -/
def Httpd.restarts (s : Httpd) : Bool := !hasFlag s.http.state HIN_REQ_POST && s.http.keep

/-- The request goes on. -/
def Httpd.goOn (s : Httpd) (e : HttpdEvent) (http : RequestFields) : Httpd :=
  { s with
    http := http
    since := s.since ++ [e] }

/-- One event of a connection. Nothing is parsed once it is being closed. -/
def Httpd.step (toTime : Bytes → Int) (s : Httpd) (e : HttpdEvent) : Option Httpd :=
  match e with
  | .requestLine method ver0 =>
      if hasFlag s.http.state HIN_REQ_STOPPING then none
      else some (s.goOn e (s.http.httpdParseRequestLine method ver0))
  | .headersLine line =>
      if hasFlag s.http.state HIN_REQ_STOPPING then none
      else (s.http.httpdParseHeadersLine s.server toTime line).map (s.goOn e)
  | .request headers => some (s.goOn e (s.http.httpdParseReq headers))
  | .set setting => some (s.goOn e (s.http.lHinSetOption setting))
  | .startPost fd => some (s.goOn e (s.http.httpdClientStartPost fd))
  | .respond left => some (s.goOn e (s.http.respond left))
  | .finish count settings =>
      let http := s.http.httpdClientFinishRequest s.server count settings
      if s.restarts then some ⟨http, s.server, http, s.server, []⟩ else some (s.goOn e http)
  | .configure server => some { s.goOn e s.http with server := server }

end Http
end Hin9
