import Hin9.Basic.Pattern
import Hin9.Fcgi.Record
import Hin9.Http.SendFile
import Hin9.Netcode.Pipe

/-!
# `Fcgi.Write` — a request to a fastcgi application (`fcgi_write.c`, `fcgi_post.c`, `header.c`)

`hin_fcgi_worker_run` lays a request into a growing chain of buffers: a `BEGIN_REQUEST`, the parameters, an empty
`PARAMS`, and what is there of the body. The rest of a body goes through the post pipe, one buffer for each read.

Of the request, the parts other modules find (the target and its query, the file and its directory, the two
addresses) are fields; the lines of the head are taken apart here.
-/

namespace Hin9
namespace Fcgi

open Pattern
open Http (Method)
open Netcode (READ_SZ)

/-! ## The buffer chain -/

def HIN_HTTPD_MAX_HEADER_LINE_SIZE : Nat := 4096

/-- A chain of buffers: the contents of all but the last, the content of the last and the size of its storage. `fault`
    says that something was written outside of the storage. -/
structure Chain where
  full : List Bytes := []
  last : Bytes := []
  sz : Nat
  fault : Bool := false
deriving Repr, DecidableEq

/-- What the chain holds. -/
def Chain.content (c : Chain) : Bytes := c.full.flatten ++ c.last

/-- The buffers as they are written. -/
def Chain.buffers (c : Chain) : List Bytes := c.full ++ [c.last]

/-- Room at the end of the chain, in the last buffer or in a new one, and `data` in it. -/
def Chain.append (c : Chain) (data : Bytes) : Chain :=
  if data.length ≤ c.sz - c.last.length then { c with last := c.last ++ data }
  else { c with full := c.full ++ [c.last], last := data, sz := max READ_SZ data.length }

/-- `header_ptr`, with `data` written to what it returns: nothing (`NULL`) for a large piece. -/
def headerPtr (c : Chain) (data : Bytes) : Chain :=
  if data.length > HIN_HTTPD_MAX_HEADER_LINE_SIZE then { c with fault := true } else c.append data

/-- `header_raw`: a large piece is left out. -/
def headerRaw (c : Chain) (data : Bytes) : Chain :=
  if data.length > HIN_HTTPD_MAX_HEADER_LINE_SIZE then c else c.append data

/-! ## Parameters -/

/-- `param`: the lengths, the name and the value. `vsnprintf` puts a NUL behind the value, for which no room has been
    asked: where the value ends with the storage, it falls outside. -/
def param (c : Chain) (pair : Bytes × Bytes) : Chain :=
  if pair.1.length ≥ 127 then c
  else
    let c := headerPtr c (lengthBytes pair.1.length pair.2.length)
    let c := headerRaw c pair.1
    let c := headerPtr c pair.2
    { c with fault := c.fault || c.last.length == c.sz }

/-- What `param` returns. -/
def paramSize (pair : Bytes × Bytes) : Nat :=
  if pair.1.length ≥ 127 then 0 else (lengthBytes pair.1.length pair.2.length).length + pair.1.length + pair.2.length

/-- A string as `%s` prints it. -/
def cstr (s : Bytes) : Bytes := s.takeWhile (· != 0)

def decimal (n : Int) : Bytes := bytes (toString n)

/-- A request, as `hin_fcgi_headers` finds it: `query` is none where the target is no uri, `cwdPath` where the virtual
    host has no directory, `file` (the path of its directory, its name) where no file belongs to the target;
    `buffered` is what stands behind the head in the line buffer. -/
structure FcgiRequest where
  method : Method := .get
  ver0 : Bool := false
  ssl : Bool := false
  status : Int := 200
  postSz : Nat := 0
  path : Bytes := []
  query : Option Bytes := some []
  cwdPath : Option Bytes := some []
  file : Option (Bytes × Bytes) := some ([], [])
  server : Option (Bytes × Bytes) := none
  client : Option (Bytes × Bytes) := none
  headers : List Bytes := []
  hostname : Option Bytes := none
  buffered : Bytes := []
deriving Repr, DecidableEq

/-- `hin_http_method_name`. -/
def hinHttpMethodName : Method → Bytes
  | .get => bytes "GET"
  | .head => bytes "HEAD"
  | .post => bytes "POST"

/-- `param_header`: the pair handed to `param`. -/
def paramHeader (name value : Bytes) : Option (Bytes × Bytes) :=
  let buffer := bytes "HTTP_" ++ name
  if buffer.length ≥ 128 then none
  else some (buffer.map fun c => if c = 45 then 95 else toupper c, cstr value)

/-- The pair a line of the head becomes. -/
def hinFcgiHeaderLine (line : Bytes) : Option (Bytes × Bytes) :=
  let m := matchString line (bytes "([%w_%-]+):%s*")
  match m.took with
  | none => none
  | some used =>
      let name := m.capture line 0
      let value := line.drop used
      if (matchiString name (bytes "content-type")).took.isSome then some (bytes "CONTENT_TYPE", cstr value)
      else paramHeader name value

/-- `hin_fcgi_headers`: the pairs handed to `param`, in order. It gives up (`-1`) in front of the first one. -/
def hinFcgiHeaders (r : FcgiRequest) : Option (List (Bytes × Bytes)) :=
  match r.query, r.cwdPath, r.file with
  | some query, some cwd, some (dir, name) =>
      some <|
        [(bytes "CONTENT_LENGTH", decimal r.postSz),
         (bytes "QUERY_STRING", query),
         (bytes "REQUEST_URI", r.path),
         (bytes "REDIRECT_STATUS", decimal r.status),
         (bytes "SCRIPT_NAME", dir.drop (cwd.length - 1) ++ name),
         (bytes "SCRIPT_FILENAME", dir ++ name),
         (bytes "DOCUMENT_ROOT", cwd.take (cwd.length - 1)),
         (bytes "REQUEST_METHOD", hinHttpMethodName r.method),
         (bytes "SERVER_PROTOCOL", bytes "HTTP/1." ++ decimal (if r.ver0 then 0 else 1)),
         (bytes "SERVER_SOFTWARE", bytes "hinsightd 0.9"),
         (bytes "GATEWAY_INTERFACE", bytes "CGI/1.1"),
         (bytes "REQUEST_SCHEME", bytes "http")] ++
        (match r.server with
          | some (host, port) => [(bytes "SERVER_PORT", port), (bytes "SERVER_ADDR", host)]
          | none => []) ++
        (match r.client with
          | some (host, port) => [(bytes "REMOTE_ADDR", host), (bytes "REMOTE_PORT", port)]
          | none => []) ++
        (if r.ssl then [(bytes "HTTPS", bytes "1")] else []) ++
        r.headers.filterMap hinFcgiHeaderLine ++
        [(bytes "SERVER_NAME", r.hostname.getD (bytes "unknown"))]
  | _, _, _ => none

/-- What `hin_fcgi_headers` returns. -/
def hinFcgiHeadersSize (r : FcgiRequest) : Int :=
  match hinFcgiHeaders r with
  | none => -1
  | some pairs => (pairs.map paramSize).sum

/-! ## Records -/

/-- `FCGI_ROUND_TO_PAD`: `num - 1` is an `int`, the division one of `size_t`. -/
def FCGI_ROUND_TO_PAD (num : Int) : Nat := (((num - 1) % 2 ^ 64 / 8 + 1) * 8 % 2 ^ 64).toNat

/-- `rounded - num`, in the `uint8_t` of the header. -/
def padding (num : Int) : Nat := (((FCGI_ROUND_TO_PAD num : Int) - num) % 256).toNat

/-- A number in a 16-bit field. -/
def field16 (num : Int) : Nat := (num % 65536).toNat

/-- `hin_fcgi_header`. -/
def hinFcgiHeader (c : Chain) (type : UInt8) (id len pad : Nat) : Chain := headerPtr c (headerBytes type id len pad)

/-- `FCGI_BeginRequestBody`. -/
def beginRequestBody (reuse : Bool) : Bytes := [0, 1, if reuse then 1 else 0, 0, 0, 0, 0, 0]

/-- `hin_fcgi_write_post`: the part of the body that is there. -/
def hinFcgiWritePost (c : Chain) (id : Nat) (r : FcgiRequest) : Chain :=
  if r.method ≠ .post then hinFcgiHeader c FCGI_STDIN id 0 0
  else
    let source := r.buffered.take r.postSz
    if source = [] then c
    else
      let c := hinFcgiHeader c FCGI_STDIN id (field16 source.length) (padding source.length)
      headerPtr c (source ++ List.replicate (FCGI_ROUND_TO_PAD source.length - source.length) 0)

/-- `hin_fcgi_worker_run`: the chain that is written. The length and the padding of the parameters are patched in when
    they are known. -/
def hinFcgiWorkerRun (reuse : Bool) (id : Nat) (r : FcgiRequest) : Chain :=
  let c : Chain := { sz := READ_SZ * 2 }
  let c := hinFcgiHeader c FCGI_BEGIN_REQUEST id 8 0
  let c := headerPtr c (beginRequestBody reuse)
  let sz := hinFcgiHeadersSize r
  let c := hinFcgiHeader c FCGI_PARAMS id (field16 sz) (padding sz)
  let c := ((hinFcgiHeaders r).getD []).foldl param c
  let c := headerPtr c (List.replicate (padding sz) 0)
  let c := hinFcgiHeader c FCGI_PARAMS id 0 0
  hinFcgiWritePost c id r

/-- `pipe->left` of the post pipe. -/
def postLeft (r : FcgiRequest) : Nat := r.postSz - (r.buffered.take r.postSz).length

/-- `hin_fcgi_post_read_callback`: the buffer made of one read. -/
def hinFcgiPostReadCallback (id : Nat) (data : Bytes) (flush : Bool) : Chain :=
  let rounded := FCGI_ROUND_TO_PAD data.length
  let c : Chain := { sz := rounded + 8 + if flush then 8 else 0 }
  let c :=
    if data = [] then c
    else
      let c := hinFcgiHeader c FCGI_STDIN id (field16 data.length) (padding data.length)
      headerPtr c (data ++ List.replicate (rounded - data.length) 0)
  if flush then hinFcgiHeader c FCGI_STDIN id 0 0 else c

/-- The post pipe: it reads until `left` bytes have come, or a read brings none. -/
def postPipe (id : Nat) : Nat → List Bytes → List Chain
  | _, [] => []
  | left, data :: ds =>
      if left = 0 then []
      else
        let flush := data = [] || left ≤ data.length
        hinFcgiPostReadCallback id data flush :: if flush then [] else postPipe id (left - data.length) ds

/-- The chains a request becomes: that of `hin_fcgi_worker_run`, and those of the post pipe. -/
def requestChains (reuse : Bool) (id : Nat) (r : FcgiRequest) (ds : List Bytes) : List Chain :=
  hinFcgiWorkerRun reuse id r :: if r.method = .post then postPipe id (postLeft r) ds else []

/-- All the bytes of a request. -/
def requestBytes (reuse : Bool) (id : Nat) (r : FcgiRequest) (ds : List Bytes) : Bytes :=
  (requestChains reuse id r ds).flatMap Chain.content

end Fcgi
end Hin9
