import Mathlib

/-!
# `Fcgi.Group` — the sockets and workers of a fastcgi group (`fcgi_socket.c`, `fcgi_worker.c`, `fcgi.c`)

A group has `max_socket` places for sockets, or none. Each socket owns a table of workers, found by request id, and a
queue of workers that wait for their turn to write. A worker that has served its request goes to the idle list of the
group and is handed out again, whatever socket it belongs to; without places the socket is closed instead.

Addresses are natural numbers, given out once: `workers` and `sockets` are the heap. Events that dereference `NULL` end
the server and have no next state.
-/

namespace Hin9
namespace Fcgi

/-! ## State -/

/-- The request a worker serves. `streams`: its `POST` body is not wholly buffered, so its post pipe has to read. -/
structure Client where
  id : Nat
  streams : Bool
deriving Repr, DecidableEq

/-- `hin_fcgi_worker_t`, with the bits `HIN_REQ_POST`, `HIN_REQ_DATA` and `HIN_REQ_END` of its `io_state`. -/
structure Worker where
  reqId : Nat
  socket : Option Nat
  http : Option Client := none
  post : Bool := false
  data : Bool := false
  ended : Bool := false
deriving Repr, DecidableEq

/-- `hin_fcgi_socket_t`. `max_worker` is the length of `worker`. -/
structure Socket where
  id : Nat
  worker : List (Option Nat) := []
  lastWorker : Nat := 0
  numWorker : Nat := 0
  que : List Nat := []
  busy : Bool := true
  connected : Bool := false
deriving Repr, DecidableEq

/-- `hin_fcgi_group_t` with the workers and sockets it has allocated. Without places (`max_socket` is zero) the array
    `socket` is `NULL` and is not looked at. -/
structure Group where
  maxSocket : Nat
  curSocket : Nat := 0
  socket : Nat → Option Nat := fun _ => none
  idleWorker : List Nat := []
  workers : Nat → Option Worker := fun _ => none
  sockets : Nat → Option Socket := fun _ => none
  nextWorker : Nat := 0
  nextSocket : Nat := 0

/-- `hin_fcgi_start`. -/
def hinFcgiStart (max : Nat) : Group := { maxSocket := max }

namespace Group

variable (g : Group)

/-- The workers `ws` are changed in place. -/
def onWorkers (ws : List Nat) (f : Worker → Worker) : Group :=
  { g with workers := fun v => if v ∈ ws then (g.workers v).map f else g.workers v }

/-- The socket `k` is written. -/
def setSocket (k : Nat) (s : Socket) : Group :=
  { g with sockets := Function.update g.sockets k (some s) }

/-! ## Sockets and workers -/

/-- `hin_fcgi_get_socket`: the places take turns, and a place that holds a socket hands out that one. -/
def hinFcgiGetSocket : Group × Nat :=
  let pos := if g.maxSocket = 0 then g.curSocket else g.curSocket % g.maxSocket
  let g := { g with curSocket := g.curSocket + 1 }
  match (if g.maxSocket = 0 then none else g.socket pos) with
  | some k => (g, k)
  | none =>
      let k := g.nextSocket
      ({ g.setSocket k { id := pos } with
          nextSocket := k + 1
          socket := if g.maxSocket = 0 then g.socket else Function.update g.socket pos (some k) }, k)

/-- The table of workers holds `last` of them: it grows by five at a time. -/
def growTable (table : List (Option Nat)) (last : Nat) : List (Option Nat) :=
  if last ≤ table.length then table
  else table ++ List.replicate (5 * ((last - table.length + 4) / 5)) none

/-- A new worker of the socket `k`. -/
def newWorker (k : Nat) (s : Socket) : Group × Nat :=
  let w := g.nextWorker
  let reqId := s.lastWorker
  let s := { s with
    numWorker := s.numWorker + 1
    lastWorker := reqId + 1
    worker := (growTable s.worker (reqId + 1)).set reqId (some w) }
  ({ g.setSocket k s with
      workers := Function.update g.workers w (some { reqId, socket := some k })
      nextWorker := w + 1 }, w)

/-- `hin_fcgi_get_worker`: the first idle worker, or a new one. A freed socket cannot be read. -/
def hinFcgiGetWorker : Option (Group × Nat) :=
  match g.idleWorker with
  | w :: idle => some (({ g with idleWorker := idle }).onWorkers [w] fun x => { x with ended := false }, w)
  | [] =>
      let (g, k) := g.hinFcgiGetSocket
      match g.sockets k with
      | none => none
      | some s => some (g.newWorker k s)

/-- Whether the request of the worker has a post pipe that reads. -/
def streams (w : Nat) : Bool :=
  match g.workers w with
  | some x => (x.http.map Client.streams).getD false
  | none => false

/-- The workers that are started when those of `que` are run in turn: up to the first whose post pipe keeps the socket
    busy. -/
def startedWorkers (streams : Nat → Bool) : List Nat → List Nat
  | [] => []
  | w :: que => if streams w then [w] else w :: startedWorkers streams que

/-- The workers of `que` run as far as they go: each gets `HIN_REQ_DATA`, and `HIN_REQ_POST` if its post pipe reads. -/
def runQue (k : Nat) (s : Socket) (que : List Nat) : Group :=
  let started := startedWorkers g.streams que
  let held := started.any g.streams
  (g.setSocket k { s with busy := held, que := que.drop started.length }).onWorkers started fun x =>
    { x with data := true, post := x.post || (x.http.map Client.streams).getD false }

/-- `hin_fcgi_socket_continue`. -/
def hinFcgiSocketContinue (k : Nat) : Option Group :=
  match g.sockets k with
  | none => none
  | some s => some (g.runQue k s s.que)

/-- `hin_fcgi_worker_run`: the worker waits while the socket is busy. A request without a post pipe to wait for
    continues the queue itself. -/
def hinFcgiWorkerRun (w : Nat) : Option Group :=
  match (g.workers w).bind Worker.socket with
  | none => none
  | some k =>
      match g.sockets k with
      | none => none
      | some s =>
          if s.busy then some (g.setSocket k { s with que := s.que ++ [w] })
          else some (g.runQue k s (w :: s.que))

/-- `hin_fcgi_worker_reset` on a worker of a socket that is being closed. Its socket is `NULL` by then, so it is freed,
    unless `io_state` has it return before. -/
def closedWorker (x : Worker) : Option Worker :=
  if x.post || x.data || x.ended then some { x with http := none, socket := none } else none

/-- `hin_fcgi_socket_close`: every worker of the table loses its client, which is sent an error, and its socket. -/
def hinFcgiSocketClose (k : Nat) : Option Group :=
  match g.sockets k with
  | none => none
  | some s =>
      some { g with
        workers := fun w => if some w ∈ s.worker then (g.workers w).bind closedWorker else g.workers w
        sockets := Function.update g.sockets k none
        socket := if g.maxSocket = 0 then g.socket else Function.update g.socket s.id none }

/-- `hin_fcgi_worker_reset`: nothing while one of the bits is set, else the worker is idle, or it is freed when its socket
    is gone. -/
def hinFcgiWorkerReset (w : Nat) : Option Group :=
  match g.workers w with
  | none => none
  | some x =>
      if x.post || x.data || x.ended then some g
      else
        let g := g.onWorkers [w] fun x => { x with ended := true, http := none }
        match x.socket with
        | none => some { g with workers := Function.update g.workers w none }   -- `hin_fcgi_worker_free`
        | some k =>
            if g.maxSocket = 0 then g.hinFcgiSocketClose k
            else some { g with idleWorker := g.idleWorker ++ [w] }

/-! ## Requests and the ends of their bodies -/

/-- `hin_fastcgi` once it asks for a worker. -/
def hinFastcgi (http : Client) : Option Group :=
  match g.hinFcgiGetWorker with
  | none => none
  | some (g, w) => (g.onWorkers [w] fun x => { x with http := some http }).hinFcgiWorkerRun w

/-- `hin_fcgi_connect_callback`, without an error. -/
def hinFcgiConnect (k : Nat) : Option Group :=
  match g.sockets k with
  | none => none
  | some s => if s.connected then none else (g.setSocket k { s with connected := true }).hinFcgiSocketContinue k

/-- `hin_fcgi_pipe_finish_callback`: the response is written. It writes to the client of the worker, so there has to be
    one. -/
def hinFcgiPipeFinish (w : Nat) : Option Group :=
  match g.workers w with
  | none => none
  | some x =>
      if x.data && x.http.isSome then
        (g.onWorkers [w] fun x => { x with http := none, data := false }).hinFcgiWorkerReset w
      else none

/-- `hin_fcgi_post_done_callback`: the body is written, and the socket of the worker is free for the next one. -/
def hinFcgiPostDone (w : Nat) : Option Group :=
  match g.workers w with
  | none => none
  | some x =>
      match x.socket with
      | none => none
      | some k =>
          if x.post then
            (g.hinFcgiSocketContinue k).bind fun g =>
              (g.onWorkers [w] fun x => { x with post := false }).hinFcgiWorkerReset w
          else none

end Group

/-! ## Steps -/

inductive GroupEvent where
  | request (http : Client)   -- a request for the group
  | connected (k : Nat)       -- the connection of a socket is there
  | closed (k : Nat)          -- it could not be made, or a write on it failed
  | responseEnd (w : Nat)     -- the response pipe of a worker closes
  | postEnd (w : Nat)         -- the post pipe of a worker closes
deriving Repr, DecidableEq

/-- One event of the group. -/
def Group.step (g : Group) : GroupEvent → Option Group
  | .request http => g.hinFastcgi http
  | .connected k => g.hinFcgiConnect k
  | .closed k => g.hinFcgiSocketClose k
  | .responseEnd w => g.hinFcgiPipeFinish w
  | .postEnd w => g.hinFcgiPostDone w

end Fcgi
end Hin9
