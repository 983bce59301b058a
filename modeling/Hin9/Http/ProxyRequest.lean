import Hin9.Http.Upstream

/-!
# `Http.ProxyRequest` — the request that is sent to an upstream server (`headers.c`, `rproxy.c`, `http_utils.c`)

`http_client_start_headers` writes a head of its own, and `hin_rproxy_send` puts in it the lines of the client's head that
are passed on, and what was read of the client's body together with its head. A pipe sends the rest of the body.
-/

namespace Hin9
namespace Http

open Pattern

/-! ## Addresses -/

/-- `hin_uri_t`. The path goes up to the end of the query, as it is sent; `all` is the whole text. -/
structure Uri where
  https : Bool
  host : Bytes
  port : Bytes
  path : Bytes
  all : Bytes
deriving Repr, DecidableEq

/-- `PATH_ACCEPT`. -/
def pathAccept : String := "%w.=/;-_~!$&'%(%)%*%+,:%%@"

/-- The scheme: whether it is `https`, and what follows it. -/
def uriScheme (url : Bytes) : Bool × Bytes :=
  match (matchString url (bytes "(https)://")).took with
  | some n => (true, url.drop n)
  | none =>
      match (matchString url (bytes "(http)://")).took with
      | some n => (false, url.drop n)
      | none => (false, url.drop ((matchString url (bytes "([%w+-.]+)://")).took.getD 0))

/-- `hin_parse_uri`, but for the fragment. -/
def hinParseUri (url : Bytes) : Option Uri :=
  let (https, c) := uriScheme url
  let host := matchString c (bytes "([%w.-_]+)")
  let name := if host.used.isSome then host.capture c 0 else []
  let c := c.drop (host.used.getD 0)
  let port := matchString c (bytes ":(%d+)")
  let number := if port.took.isSome then port.capture c 0 else []
  let c := c.drop (port.took.getD 0)
  (matchString c (bytes ("([" ++ pathAccept ++ "]+)"))).used.map fun n =>
    let query := matchString (c.drop n) (bytes ("%?([" ++ pathAccept ++ "]+)"))
    { https
      host := name
      port := number
      path := c.take (n + query.took.getD 0)
      all := url }

/-! ## The head that is sent -/

/-- The request of a client: its method, the bytes from its head up to the body read with it, the address it is sent to,
    and what stands in memory behind the bytes. -/
structure ProxiedRequest where
  method : Method
  headers : Bytes
  url : Bytes
  behind : Bytes := []
deriving Repr, DecidableEq

/-- The lines that are not passed on, apart from `Content-Length`, which is written anew. -/
def notPassedOn : List Bytes :=
  [bytes "Host:", bytes "Connection:", bytes "Accept-Encoding:", bytes "Transfer-Encoding:", bytes "Content-Encoding:"]

/-- The loop of `hin_rproxy_send`: the lines passed on, the length announced, and what stands behind the blank line,
    where there is one. The number of a length is read from memory: behind a line without one `atoi` skips the line break
    and goes on in the next line. -/
def rproxyLines (behind : Bytes) : Nat → Source → List Bytes → Int → List Bytes × Int × Option Source
  | 0, _, copied, sz => (copied, sz, none)
  | fuel + 1, s, copied, sz =>
      match hinFindLine (behind.headD 0) s with
      | none => (copied, sz, none)
      | some (line, next) =>
          if line = [] then (copied, sz, some next)
          else if (matchiString line (bytes "Host:")).took.isSome then rproxyLines behind fuel next copied sz
          else
            match (matchiString line (bytes "Content-Length:")).took with
            | some n => rproxyLines behind fuel next copied (atoi (s.data.drop n ++ behind))
            | none =>
                if notPassedOn.any fun name => (matchiString line name).took.isSome then
                  rproxyLines behind fuel next copied sz
                else rproxyLines behind fuel next (copied ++ [line]) sz

/-- What `hin_rproxy_send` adds to a head: lines, and the length of the body with the bytes of it that are there. -/
structure PassedOn where
  copied : List Bytes := []
  body : Option (Int × Bytes) := none
deriving Repr, DecidableEq

/-- `hin_rproxy_send`, on the bytes of the head and what stands behind them. -/
def hinRproxySend (headers behind : Bytes) : PassedOn :=
  let s := ((hinFindLine (behind.headD 0) { data := headers }).map Prod.snd).getD { data := headers }
  match rproxyLines behind (headers.length + 1) s [] 0 with
  | (copied, sz, some s) =>
      { copied, body := if 0 < sz then some (sz, s.data.take sz.toNat) else none }
  | (copied, _, none) => { copied }

/-- The bytes of the body that a pipe is to send. -/
def PassedOn.rest (p : PassedOn) : Int := (p.body.map fun (sz, data) => sz - data.length).getD 0

/-- The method `http_client_start_headers` writes. -/
def sentMethod : Option Method → Bytes
  | some .post => bytes "POST"
  | some .head => bytes "HEAD"
  | _ => bytes "GET"

/-- The request that `http_client_start_headers` writes. -/
structure SentHead where
  method : Bytes
  path : Bytes
  host : Bytes
  port : Bytes
  keepalive : Bool
  passedOn : PassedOn
deriving Repr, DecidableEq

/-- `http_client_start_headers`, with what the state callback adds. -/
def httpClientStartHeaders (method : Option Method) (uri : Uri) (keepalive : Bool) (passedOn : PassedOn) : SentHead where
  method := sentMethod method
  path := uri.path
  host := uri.host
  port := uri.port
  keepalive := keepalive
  passedOn := passedOn

end Http
end Hin9
