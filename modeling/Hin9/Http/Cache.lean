import Hin9.Http.SendFile
import Hin9.Lib.Runs

/-!
# `Http.Cache` — the local cache (`cache.c`)

An item enters the hash table when the first cacheable response for its key starts (`hin_cache_save`), is filled
by the generating pipe, completes in `hin_cache_finish` and leaves the table when its timer runs out or its
generation fails. It is counted by reference: the table, every queued client and every response pipe hold one.

The hash table is the finite map it implements. Items are never moved, so an item is named by the order of its
allocation and keeps its slot after `free` with `freed` set. A file of the cache directory is named by the key,
and a descriptor stands for the file it was opened on, whatever happens to the name. `History` is not part of
the program: it records who was queued, released and served, and what the backends produced.
-/

namespace Hin9
namespace Http

/-! ## The data -/

abbrev ClientId := Nat
abbrev ItemId := Nat

/-- The pair `cache_key1`, `cache_key2`. -/
abbrev Key := UInt64 × UInt64

/-- `http->cache_key1`, `http->cache_key2`. -/
def HttpdClient.key (http : HttpdClient) : Key := (http.cacheKey1, http.cacheKey2)

/-- `hin_cache_item_t`. -/
structure CacheItem extends FileItem where
  done : Bool := false
  error : Bool := false
  refcount : Int := 0
  key : Key := (0, 0)
  fd : Option Nat := none
  time : Int := 0
  clientQueue : List ClientId := []
  freed : Bool := false
deriving Repr

/-- The pipe that writes a backend's output into an item's file: `pipe->count` and `pipe->hash`. -/
structure GenPipe where
  count : Nat := 0
  hash : UInt64 := 6883
deriving Repr

/-- The pipe that sends an item to a client: the response, `pipe->parent` and `pipe->parent1`. -/
structure FilePipe extends FileResponse where
  client : ClientId
  item : ItemId
deriving Repr, DecidableEq

/-- The cache directory: the files by name, and their contents. -/
structure Disk where
  names : Key → Option Nat := fun _ => none
  data : Nat → Bytes := fun _ => []
  next : Nat := 0

/-- One call of `hin_cache_serve_client`: the request it answers and what is sent of which item. -/
structure Served where
  client : ClientId
  item : ItemId
  method : Method
  key : Key
  done : Bool
  response : Option FileResponse
deriving Repr

/-- What has happened so far, recorded beside the program. -/
structure History where
  body : ItemId → Bytes := fun _ => []
  origin : ItemId → Method := fun _ => .get
  queued : List (ClientId × ItemId) := []
  released : List (ClientId × ItemId) := []
  dropped : List (ClientId × ItemId) := []
  served : List Served := []

/-- `hin_cache_store_t` with its items, the timer list, the clients and the pipes that hold an item. -/
structure Cache where
  ht : Key → Option ItemId := fun _ => none
  size : Int := 0
  maxSize : Int := 64 * 1024 * 1024
  items : ItemId → CacheItem := fun _ => {}
  next : ItemId := 0
  timers : List ItemId := []
  disk : Disk := {}
  clients : ClientId → HttpdClient := fun _ => {}
  generating : ItemId → Option GenPipe := fun _ => none
  sending : List FilePipe := []
  history : History := {}

namespace Cache

variable (s : Cache)

def setItem (i : ItemId) (item : CacheItem) : Cache := { s with items := Function.update s.items i item }

def setClient (c : ClientId) (http : HttpdClient) : Cache := { s with clients := Function.update s.clients c http }

/-- `basic_ht_delete_pair` with the keys of an item. -/
def deletePair (i : ItemId) : Cache := { s with ht := Function.update s.ht (s.items i).key none }

/-- The item is the one the table holds for its key. -/
def Listed (i : ItemId) : Prop := s.ht (s.items i).key = some i

instance (i : ItemId) : Decidable (s.Listed i) := inferInstanceAs (Decidable (_ = _))

end Cache

/-! ## The cache directory -/

namespace Disk

variable (d : Disk)

/-- `openat (…, O_RDWR | O_CREAT | O_TRUNC)`. -/
def openTrunc (name : Key) : Disk × Nat :=
  match d.names name with
  | some n => ({ d with data := Function.update d.data n [] }, n)
  | none =>
      ({ names := Function.update d.names name (some d.next)
         data := Function.update d.data d.next []
         next := d.next + 1 }, d.next)

/-- `unlinkat`. -/
def unlink (name : Key) : Disk := { d with names := Function.update d.names name none }

/-- The bytes of a file after `data` is written at offset `pos`. -/
def overwrite (file : Bytes) (pos : Nat) (data : Bytes) : Bytes :=
  file.take pos ++ List.replicate (pos - file.length) 0 ++ data ++ file.drop (pos + data.length)

/-- `pwrite`. -/
def pwrite (n pos : Nat) (data : Bytes) : Disk :=
  { d with data := Function.update d.data n (overwrite (d.data n) pos data) }

end Disk

/-- The running hash of `hin_pipe_write_callback`. -/
def pipeHash (hash : UInt64) (data : Bytes) : UInt64 :=
  data.foldl (fun h c => ((h <<< 3) + h) + c.toUInt64) hash

/-! ## References -/

/-- `hin_cache_item_clean`: the queue is freed with the item, whoever waits on it. -/
def hinCacheItemClean (s : Cache) (i : ItemId) : Cache :=
  let item := s.items i
  { s.setItem i { item with freed := true, time := 0, clientQueue := [] } with
    timers := s.timers.erase i
    disk := s.disk.unlink item.key
    history := { s.history with dropped := s.history.dropped ++ item.clientQueue.map fun c => (c, i) } }

/-- `hin_cache_unref`. -/
def hinCacheUnref (s : Cache) (i : ItemId) : Cache :=
  let item := { s.items i with refcount := (s.items i).refcount - 1 }
  if item.refcount = 0 then hinCacheItemClean (s.setItem i item) i else s.setItem i item

/-- `hin_cache_remove`. -/
def hinCacheRemove (s : Cache) (i : ItemId) : Cache :=
  let s := s.deletePair i
  hinCacheUnref { s with size := s.size - (s.items i).size } i

/-- `hin_cache_timeout_callback`: it returns `1`, which leaves the timer in the list. -/
def hinCacheTimeoutCallback (s : Cache) (i : ItemId) : Cache := hinCacheRemove s i

/-! ## Serving -/

/-- `done_file`, the finish callback of a response pipe. The client's side of it (`httpd_client_finish_request`)
    does not touch the cache. -/
def doneFile (s : Cache) (pipe : FilePipe) : Cache :=
  hinCacheUnref { s with sending := s.sending.erase pipe } pipe.item

/-- What `hin_cache_serve_client` asks of `httpd_send_file`. -/
def answer (s : Cache) (c : ClientId) (i : ItemId) (now : Int) : HttpdClient × Option FileResponse :=
  httpdSendFile (hinCacheSetNumber { s.clients c with status := 200 } ((s.items i).time - now))
    (s.items i).toFileItem

/-- The client's request after the call, and the record of the call. -/
def recordServed (s : Cache) (c : ClientId) (i : ItemId) (now : Int) : Cache :=
  { s.setClient c (answer s c i now).1 with
    history := { s.history with
      served := s.history.served ++
        [⟨c, i, (s.clients c).method, (s.clients c).key, (s.items i).done, (answer s c i now).2⟩] } }

/-- `hin_cache_serve_client`. `accepts` says whether the first submission of the response pipe is accepted; a
    refused one closes the pipe before `hin_pipe_start` returns. -/
def hinCacheServeClient (s : Cache) (c : ClientId) (i : ItemId) (now : Int) (accepts : Bool) : Cache :=
  match (answer s c i now).2 with
  | none => recordServed s c i now
  | some r =>
      let s := recordServed s c i now
      let s := { s with sending := ⟨r, c, i⟩ :: s.sending }
      if accepts then s else doneFile s ⟨r, c, i⟩

/-- `item->refcount++`. -/
def ref (s : Cache) (i : ItemId) : Cache := s.setItem i { s.items i with refcount := (s.items i).refcount + 1 }

/-- `hin_cache_check`: `1` when the client is answered from the cache. -/
def hinCacheCheck (s : Cache) (c : ClientId) (now : Int) (accepts : Bool) : Cache × Int :=
  let http := s.clients c
  if http.disable &&& HIN_HTTP_LOCAL_CACHE ≠ 0 then (s, -1)
  else if http.cacheKey1 ||| http.cacheKey2 = 0 then (s, -1)
  else
    match s.ht http.key with
    | none => (s, 0)
    | some i => (hinCacheServeClient (ref s i) c i now accepts, 1)

/-! ## Filling -/

/-- `hin_timer_update` on the timer of a new item, which is in no list yet and has time `0`. -/
def startTimer (s : Cache) (i : ItemId) (new : Int) : Cache :=
  if new = 0 then s
  else
    let s := s.setItem i { s.items i with time := new }
    { s with timers := if new > 0 then s.timers ++ [i] else i :: s.timers }

/-- The item `hin_cache_save` allocates, queued on by the client that generates it. -/
def newItem (c : ClientId) (key : Key) : CacheItem := { refcount := 2, key := key, clientQueue := [c] }

/-- `hin_cache_save`: `1` starts the generating pipe, `0` queues the client on the item that is there, `-1`
    leaves the response to the caller. -/
def hinCacheSave (s : Cache) (c : ClientId) (openOk : Bool) (now : Int) : Cache × Int :=
  let http := s.clients c
  if http.disable &&& HIN_HTTP_LOCAL_CACHE ≠ 0 then (s, -1)
  else if http.cacheKey1 ||| http.cacheKey2 = 0 then (s, -1)
  else if s.size ≥ s.maxSize then (s, -1)
  else
    match s.ht http.key with
    | some i =>
        let item := s.items i
        let s := s.setItem i { item with clientQueue := c :: item.clientQueue, refcount := item.refcount + 1 }
        ({ s with history := { s.history with queued := s.history.queued ++ [(c, i)] } }, 0)
    | none =>
        let i := s.next
        let s := { s.setItem i (newItem c http.key) with
          next := i + 1
          ht := Function.update s.ht http.key (some i)
          history := { s.history with
            queued := s.history.queued ++ [(c, i)]
            origin := Function.update s.history.origin i http.method
            body := Function.update s.history.body i [] } }
        if openOk then
          let (disk, fd) := s.disk.openTrunc http.key
          let s := { s with disk := disk }
          let s := startTimer (s.setItem i { s.items i with fd := some fd }) i (now + http.cache)
          ({ s with generating := Function.update s.generating i (some {}) }, 1)
        else (s, -1)

/-- The part of `hin_cgi_headers_read_callback` that offers a response to the cache. -/
def hinCgiOfferCache (s : Cache) (c : ClientId) (openOk : Bool) (now : Int) : Cache × Int :=
  let http := s.clients c
  if http.cacheFlags &&& HIN_CACHE_PUBLIC ≠ 0 ∧ http.method ≠ .post ∧ http.status = 200 then
    hinCacheSave s c openOk now
  else (s, -1)

/-- A write of the generating pipe completes with `data` in the file. -/
def generated (s : Cache) (i : ItemId) (pipe : GenPipe) (data : Bytes) : Cache :=
  { s with
    disk := match (s.items i).fd with
      | some n => s.disk.pwrite n pipe.count data
      | none => s.disk
    generating := Function.update s.generating i
      (some { count := pipe.count + data.length, hash := pipeHash pipe.hash data })
    history := { s.history with body := Function.update s.history.body i (s.history.body i ++ data) } }

/-- The entry of a client leaves the queue loop of the finish or the error callback. -/
def release (s : Cache) (c : ClientId) (i : ItemId) : Cache :=
  { s with history := { s.history with released := s.history.released ++ [(c, i)] } }

/-- What `hin_cache_finish` fills in: the size and the hash of the pipe, and `store->size`. -/
def complete (s : Cache) (i : ItemId) (pipe : GenPipe) (now : Int) : Cache :=
  { s.setItem i { s.items i with size := pipe.count, etag := pipe.hash, done := true, modified := now } with
    size := s.size + pipe.count }

/-- The queue loop of `hin_cache_finish`. -/
def serveQueue (i : ItemId) (now : Int) (accepts : ClientId → Bool) : List ClientId → Cache → Cache
  | [], s => s
  | c :: q, s => serveQueue i now accepts q (release (hinCacheServeClient s c i now (accepts c)) c i)

/-- `item->client_queue = NULL`. -/
def emptyQueue (s : Cache) (i : ItemId) : Cache := s.setItem i { s.items i with clientQueue := [] }

/-- `hin_cache_finish`, when the generating pipe closes. -/
def hinCacheFinish (s : Cache) (i : ItemId) (pipe : GenPipe) (now : Int) (accepts : ClientId → Bool) : Cache :=
  if (s.items i).error then hinCacheUnref s i
  else emptyQueue (serveQueue i now accepts (s.items i).clientQueue (complete s i pipe now)) i

/-- The queue loop of `hin_cache_pipe_error_callback`. The error response itself is the server's. -/
def unrefQueue (i : ItemId) : List ClientId → Cache → Cache
  | [], s => s
  | c :: q, s => unrefQueue i q (hinCacheUnref (release s c i) i)

/-- `item->flags |= HIN_CACHE_ERROR`. -/
def setError (s : Cache) (i : ItemId) : Cache := s.setItem i { s.items i with error := true }

/-- `hin_cache_pipe_error_callback`. -/
def hinCachePipeErrorCallback (s : Cache) (i : ItemId) : Cache :=
  (setError (emptyQueue (unrefQueue i (s.items i).clientQueue s) i) i).deletePair i

/-- The timers a tick at `now` runs out. The list is not sorted, and it holds timers of clients too: `reach` is how
    far the walk comes before one of those stops it. -/
def Cache.due (s : Cache) (now : Int) (reach : Nat) : List ItemId :=
  (s.timers.take reach).takeWhile fun i => (s.items i).time ≤ now

/-- `hin_timer_check`. -/
def hinTimerCheck (s : Cache) (now : Int) (reach : Nat) : Cache :=
  (s.due now reach).foldl hinCacheTimeoutCallback s

/-! ## Runs -/

/-- What can happen to the cache next. -/
inductive Event where
  /-- A client's request is parsed, handed to its handler or replaced by the next one. -/
  | request (c : ClientId) (http : HttpdClient)
  /-- `hin_fastcgi` or `hin_proxy` looks the client's key up. -/
  | check (c : ClientId) (now : Int) (accepts : Bool)
  /-- The headers of a backend's response to the client are complete. -/
  | save (c : ClientId) (openOk : Bool) (now : Int)
  /-- The generating pipe has written bytes, or closes. -/
  | written (i : ItemId) (data : Bytes)
  | finish (i : ItemId) (now : Int) (accepts : ClientId → Bool)
  /-- The generating pipe reports an error; a write error closes it at once. -/
  | error (i : ItemId) (closes : Bool) (now : Int)
  /-- A response pipe closes, at its end or early. -/
  | sent (pipe : FilePipe)
  /-- A tick of the timers. -/
  | tick (now : Int) (reach : Nat)

/-- `hin_cache_create`. -/
def hinCacheCreate : Cache := {}

namespace Cache

/-- One step of the cache. -/
def step (s : Cache) : Event → Option Cache
  | .request c http => some (s.setClient c http)
  | .check c now accepts => some (hinCacheCheck s c now accepts).1
  | .save c openOk now => some (hinCgiOfferCache s c openOk now).1
  | .written i data => (s.generating i).map fun pipe => generated s i pipe data
  | .finish i now accepts => (s.generating i).map fun pipe =>
      hinCacheFinish { s with generating := Function.update s.generating i none } i pipe now accepts
  | .error i closes now => (s.generating i).map fun pipe =>
      if closes then
        let s := hinCachePipeErrorCallback { s with generating := Function.update s.generating i none } i
        hinCacheFinish s i pipe now fun _ => true
      else hinCachePipeErrorCallback s i
  | .sent pipe => if pipe ∈ s.sending then some (doneFile s pipe) else none
  | .tick now reach => some (hinTimerCheck s now reach)

end Cache

/-- The request of the sample runs: cacheable for ten seconds under the key `1`. -/
def cacheableRequest : HttpdClient := { cacheKey1 := 1, cache := 10, cacheFlags := HIN_CACHE_PUBLIC }

end Http
end Hin9
