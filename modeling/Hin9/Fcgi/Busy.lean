import Hin9.Fcgi.Write
import Hin9.Lib.Runs

/-!
# `Fcgi.Busy` — the requests that share a fastcgi socket (`fcgi_write.c`, `fcgi_post.c`, `fcgi_socket.c`)

The requests of one socket are written one after the other: while `HIN_FCGI_BUSY` is set, a worker waits in the queue of
the socket. A request without a body releases the socket before its own bytes are handed to the kernel, and the
release starts the next worker at once, so its bytes go first; a `POST` holds the socket until its post pipe closes.

What is handed over is a chain of buffers, written one after the other; the kernel takes a part of a buffer, and what
it leaves is handed over again. Nothing orders the writes of different chains.
-/

namespace Hin9
namespace Fcgi

open Netcode (READ_SZ)

/-! ## State -/

/-- A worker with the request `hin_fcgi_worker_run` writes for it: the chain of buffers and, for a `POST`, the bytes of
    the body that are still to be read. -/
structure Job where
  id : Nat
  buffers : List Bytes
  left : Option Nat
deriving Repr, DecidableEq

/-- The job of a request. -/
def FcgiRequest.job (reuse : Bool) (id : Nat) (r : FcgiRequest) : Job where
  id := id
  buffers := (hinFcgiWorkerRun reuse id r).buffers
  left := if r.method = .post then some (postLeft r) else none

/-- Its post pipe has something to read, and holds the socket. -/
def Job.streams (j : Job) : Bool :=
  match j.left with
  | some n => n != 0
  | none => false

/-- A write under way: what the kernel has not taken yet of a buffer, and the buffers behind it. -/
structure Write where
  id : Nat
  buffer : Bytes
  chained : List Bytes
  pipe : Bool
deriving Repr, DecidableEq

/-- The bytes of a write that are waiting. -/
def Write.waiting (w : Write) : Bytes := w.buffer ++ w.chained.flatten

/-- A post pipe: `pipe->left`, its write queue, whether a buffer of it is being written, and the `HIN_DONE` bit of its
    input. -/
structure PostPipe where
  id : Nat
  left : Nat
  queue : List Bytes := []
  writing : Bool := false
  done : Bool := false
deriving Repr, DecidableEq

/-- The writing side of a `hin_fcgi_socket_t`. `accepted` are the bytes the kernel has taken; `units` keeps what has
    been put up for writing, each the bytes of a `hin_fcgi_worker_run` or of one read of a post pipe. -/
structure Writer where
  connected : Bool := false
  busy : Bool := true
  que : List Job := []
  writes : List Write := []
  posts : List PostPipe := []
  accepted : Bytes := []
  units : List Bytes := []
deriving Repr, DecidableEq

/-- The bytes of requests that are waiting to be written. -/
def Writer.waiting (s : Writer) : Bytes :=
  s.writes.flatMap Write.waiting ++ s.posts.flatMap fun p => p.queue.flatten

/-- The workers whose bytes these are. -/
def Writer.waitingWorkers (s : Writer) : List Nat :=
  s.writes.map Write.id ++ (s.posts.filter fun p => !p.queue.isEmpty).map PostPipe.id

/-! ## Starting workers -/

/-- What `hin_fcgi_worker_run` and `hin_fcgi_socket_continue` start: the busy bit, the jobs in the order their writes
    are requested, the queue that is left, and the post pipes. -/
structure Started where
  busy : Bool := false
  writes : List Job := []
  que : List Job := []
  posts : List PostPipe := []
deriving Repr, DecidableEq

/-- `hin_fcgi_worker_run` on the first worker of the queue. A job whose post pipe has nothing to read is done with its
    body at once: it clears the bit and continues the queue before its own write is requested. -/
def runQue : List Job → Started
  | [] => {}
  | j :: que =>
      if j.streams then
        { busy := true, writes := [j], que, posts := [{ id := j.id, left := j.left.getD 0 }] }
      else
        let next := runQue que
        { next with writes := next.writes ++ [j] }

/-- The write of a job. -/
def Job.write (j : Job) : Write := ⟨j.id, j.buffers.headD [], j.buffers.tail, false⟩

/-- The workers in `que` are started as far as they go. -/
def Writer.start (s : Writer) (que : List Job) : Writer :=
  let r := runQue que
  { s with
    busy := r.busy
    que := r.que
    writes := s.writes ++ r.writes.map Job.write
    posts := s.posts ++ r.posts
    units := s.units ++ r.writes.map fun j => j.buffers.flatten }

/-! ## Steps -/

inductive WriterEvent where
  | request (j : Job)              -- `hin_fastcgi` on this socket
  | connect                        -- the connection is there
  | wrote (i k : Nat)              -- the kernel takes `k` bytes of the `i`-th write
  | read (i : Nat) (data : Bytes)  -- the `i`-th post pipe reads, nothing at the end
deriving Repr, DecidableEq

/-- `hin_pipe_advance` behind a finished write of the post pipe `i`: the next buffer, or the end of the body. -/
def Writer.pipeWritten (s : Writer) (i : Nat) : Writer :=
  match s.posts[i]? with
  | none => s
  | some p =>
      match p.queue with
      | b :: queue =>
          { s with writes := s.writes ++ [⟨p.id, b, [], true⟩], posts := s.posts.set i { p with queue } }
      | [] =>
          if p.done then ({ s with posts := s.posts.eraseIdx i }).start s.que
          else { s with posts := s.posts.set i { p with writing := false } }

/-- `hin_fcgi_write_callback` and `hin_pipe_write_callback`. -/
def Writer.wrote (s : Writer) (i k : Nat) (w : Write) : Writer :=
  let s := { s with accepted := s.accepted ++ w.buffer.take k }
  if k < w.buffer.length then { s with writes := s.writes.set i { w with buffer := w.buffer.drop k } }
  else
    match w.chained with
    | b :: chained => { s with writes := s.writes.set i { w with buffer := b, chained } }
    | [] =>
        let s := { s with writes := s.writes.eraseIdx i }
        if w.pipe then s.pipeWritten (s.posts.findIdx fun p => p.id == w.id) else s

/-- `hin_pipe_read_callback` of a post pipe, with `hin_fcgi_post_read_callback` and `hin_pipe_advance`. -/
def Writer.read (s : Writer) (i : Nat) (p : PostPipe) (data : Bytes) : Writer :=
  let flush := data = [] || p.left ≤ data.length
  let buffer := (hinFcgiPostReadCallback p.id data flush).content
  let s := { s with units := s.units ++ [buffer] }
  let p := { p with left := p.left - data.length, done := flush }
  if p.writing then { s with posts := s.posts.set i { p with queue := p.queue ++ [buffer] } }
  else { s with
    writes := s.writes ++ [⟨p.id, buffer, [], true⟩]
    posts := s.posts.set i { p with writing := true } }

def Writer.step (s : Writer) : WriterEvent → Option Writer
  | .request j => some (if s.busy then { s with que := s.que ++ [j] } else s.start (j :: s.que))
  | .connect => if s.connected then none else some (({ s with connected := true }).start s.que)
  | .wrote i k =>
      match s.writes[i]? with
      | none => none
      | some w => if 1 ≤ k ∧ k ≤ w.buffer.length then some (s.wrote i k w) else none
  | .read i data =>
      match s.posts[i]? with
      | none => none
      | some p => if p.done = false ∧ data.length ≤ p.left ∧ data.length ≤ READ_SZ then some (s.read i p data) else none

/-! ## The condition -/

/-- At most one request is started: the queue holds no more, or its first one keeps the socket. -/
def StartsOne : List Job → Prop
  | [] => True
  | [_] => True
  | j :: _ :: _ => j.streams = true

instance : ∀ que : List Job, Decidable (StartsOne que)
  | [] => inferInstanceAs (Decidable True)
  | [_] => inferInstanceAs (Decidable True)
  | j :: _ :: _ => inferInstanceAs (Decidable (j.streams = true))

/-- The write that completes is the last one of a body, and its post pipe closes. -/
def Writer.closes (s : Writer) (i k : Nat) : Bool :=
  match s.writes[i]? with
  | none => false
  | some w =>
      w.pipe && k == w.buffer.length && w.chained.isEmpty &&
        match s.posts[s.posts.findIdx fun p => p.id == w.id]? with
        | none => false
        | some p => p.queue.isEmpty && p.done

/-- The condition on a step: a request that does not have to queue finds nothing waiting; where the socket is released
    to the queue (it is connected, or a body is closed), at most one request is started; and a post pipe reads only when
    the head of its request has been taken. -/
def InTurn (s : Writer) : WriterEvent → Prop
  | .request _ => s.busy = true ∨ s.writes = []
  | .connect => StartsOne s.que
  | .wrote i k => s.closes i k = true → StartsOne s.que
  | .read _ _ => ∀ w ∈ s.writes, w.pipe = true

/-! ## The invariant -/

/-- How the socket is used: it is not connected yet, it is free with at most one head under way, or it belongs to one
    post pipe. -/
inductive Shape (s : Writer) : Prop where
  | unconnected (hconnected : s.connected = false) (hbusy : s.busy = true) (hwrites : s.writes = [])
      (hposts : s.posts = [])
  | free (hconnected : s.connected = true) (hbusy : s.busy = false) (hque : s.que = []) (hposts : s.posts = [])
      (hwrites : s.writes = [] ∨ ∃ w, s.writes = [w] ∧ w.pipe = false)
  | posting (p : PostPipe) (hconnected : s.connected = true) (hbusy : s.busy = true) (hposts : s.posts = [p])
      (hqueue : p.writing = false → p.queue = [])
      (hwrites : s.writes = [] ∧ p.writing = false ∨
        ∃ w, s.writes = [w] ∧ w.id = p.id ∧ w.pipe = p.writing ∧ (w.pipe = true → w.chained = []))

/-- **The invariant.** What has been taken, with what is waiting behind it, is what was put up for writing. -/
structure Ordered (s : Writer) : Prop where
  shape : Shape s
  whole : s.accepted ++ s.waiting = s.units.flatten

theorem Job.write_waiting (j : Job) : j.write.waiting = j.buffers.flatten := by
  unfold Job.write Write.waiting
  cases j.buffers with
  | nil => rfl
  | cons b bs => rfl

/-- **Releasing the socket to a queue that starts one request.** -/
theorem Ordered.start {s : Writer} (hconnected : s.connected = true) (hwrites : s.writes = []) (hposts : s.posts = [])
    (hwhole : s.accepted = s.units.flatten) {que : List Job} (hone : StartsOne que) : Ordered (s.start que) := by
  obtain ⟨connected, busy, sque, writes, posts, accepted, units⟩ := s
  dsimp only at hconnected hwrites hposts hwhole
  subst hconnected hwrites hposts hwhole
  cases que with
  | nil =>
      refine ⟨.free rfl rfl rfl rfl (Or.inl rfl), ?_⟩
      simp [Writer.start, runQue, Writer.waiting]
  | cons j que =>
      by_cases hstreams : j.streams = true
      · have hrun : runQue (j :: que) = ⟨true, [j], que, [{ id := j.id, left := j.left.getD 0 }]⟩ := by
          unfold runQue
          rw [if_pos hstreams]
        unfold Writer.start
        rw [hrun]
        refine ⟨.posting { id := j.id, left := j.left.getD 0 } rfl rfl rfl (fun _ => rfl)
          (Or.inr ⟨j.write, rfl, rfl, rfl, fun h => absurd h (by simp [Job.write])⟩), ?_⟩
        simp [Writer.waiting, Job.write_waiting]
      · -- the job lets the socket go, so nobody may be waiting behind it
        have hque : que = [] := by
          cases que with
          | nil => rfl
          | cons j' que => exact absurd hone hstreams
        have hrun : runQue [j] = ⟨false, [j], [], []⟩ := by
          unfold runQue
          rw [if_neg hstreams]
          rfl
        unfold Writer.start
        rw [hque, hrun]
        refine ⟨.free rfl rfl rfl rfl (Or.inr ⟨j.write, rfl, rfl⟩), ?_⟩
        simp [Writer.waiting, Job.write_waiting]

/-- There is at most one write under way. -/
theorem Shape.write_unique {s : Writer} (h : Shape s) {i : Nat} {w : Write} (hw : s.writes[i]? = some w) :
    i = 0 ∧ s.writes = [w] := by
  have hone : ∀ w', s.writes = [w'] → i = 0 ∧ s.writes = [w] := by
    intro w' hs
    rw [hs] at hw ⊢
    cases i with
    | zero => exact ⟨rfl, by rw [Option.some.inj hw]⟩
    | succ i => exact absurd hw (by simp)
  have hnone : s.writes ≠ [] := by
    intro hs
    rw [hs] at hw
    exact absurd hw (by simp)
  cases h with
  | unconnected _ _ hwrites _ => exact absurd hwrites hnone
  | free _ _ _ _ hwrites =>
      rcases hwrites with hwrites | ⟨w', hwrites, -⟩
      · exact absurd hwrites hnone
      · exact hone w' hwrites
  | posting p _ _ _ _ hwrites =>
      rcases hwrites with ⟨hwrites, -⟩ | ⟨w', hwrites, -⟩
      · exact absurd hwrites hnone
      · exact hone w' hwrites

theorem Ordered.request {s : Writer} (h : Ordered s) (j : Job) (hg : InTurn s (.request j)) {s' : Writer}
    (hs : s.step (.request j) = some s') : Ordered s' := by
  have hs := Option.some.inj hs
  obtain ⟨hshape, hwhole⟩ := h
  split at hs
  · rename_i hbusy
    rw [← hs]
    refine ⟨?_, hwhole⟩
    cases hshape with
    | unconnected h1 h2 h3 h4 => exact .unconnected h1 h2 h3 h4
    | free _ h2 => rw [h2] at hbusy; exact absurd hbusy (by simp)
    | posting p h1 h2 h3 h4 h5 => exact .posting p h1 h2 h3 h4 h5
  · rename_i hbusy
    have hwrites := hg.resolve_left hbusy
    rw [← hs]
    cases hshape with
    | unconnected _ h2 => exact absurd h2 hbusy
    | free hconnected _ hque hposts _ =>
        rw [hque]
        rw [Writer.waiting, hwrites, hposts] at hwhole
        have hone : StartsOne [j] := trivial
        exact Ordered.start hconnected hwrites hposts (by simpa using hwhole) hone
    | posting p _ h2 => exact absurd h2 hbusy

theorem Ordered.connect {s : Writer} (h : Ordered s) (hg : InTurn s .connect) {s' : Writer}
    (hs : s.step .connect = some s') : Ordered s' := by
  unfold Writer.step at hs
  dsimp only at hs
  split at hs
  · exact absurd hs (by simp)
  · rename_i hconnected
    rw [← Option.some.inj hs]
    cases h.shape with
    | unconnected _ _ hwrites hposts =>
        have hwhole := h.whole
        rw [Writer.waiting, hwrites, hposts] at hwhole
        have hone : StartsOne s.que := hg
        exact @Ordered.start { s with connected := true } rfl hwrites hposts (by simpa using hwhole) _ hone
    | free h1 => exact absurd h1 hconnected
    | posting p h1 => exact absurd h1 hconnected

theorem Ordered.read {s : Writer} (h : Ordered s) {i : Nat} {data : Bytes} (hg : InTurn s (.read i data)) {s' : Writer}
    (hs : s.step (.read i data) = some s') : Ordered s' := by
  unfold Writer.step at hs
  dsimp only at hs
  obtain ⟨hshape, hwhole⟩ := h
  have hposts : ∀ p, s.posts[i]? = some p → s.posts ≠ [] := by
    intro p hp hnil
    rw [hnil] at hp
    exact absurd hp (by simp)
  split at hs
  · exact absurd hs (by simp)
  rename_i p hp
  split at hs
  · rw [← Option.some.inj hs]
    cases hshape with
    | unconnected _ _ _ h4 => exact absurd h4 (hposts p hp)
    | free _ _ _ h4 => exact absurd h4 (hposts p hp)
    | posting p' hconnected hbusy hp' hqueue hwrites =>
        obtain rfl : i = 0 := by
          cases i with
          | zero => rfl
          | succ i => rw [hp'] at hp; exact absurd hp (by simp)
        obtain rfl : p' = p := by
          rw [hp'] at hp
          exact Option.some.inj hp
        obtain ⟨flush, hflush⟩ : ∃ flush : Bool, flush = (data = [] || p'.left ≤ data.length) := ⟨_, rfl⟩
        obtain ⟨buffer, hbuffer⟩ : ∃ buffer, buffer = (hinFcgiPostReadCallback p'.id data flush).content := ⟨_, rfl⟩
        unfold Writer.read
        dsimp only
        rw [← hflush, ← hbuffer, hp']
        rw [Writer.waiting, hp'] at hwhole
        rcases hwrites with ⟨hwrites, hidle⟩ | ⟨w, hwrites, hid, hpipe, hchained⟩
        · -- nothing is under way: the buffer is written at once
          rw [hidle, if_neg (by simp)]
          refine ⟨.posting ⟨p'.id, p'.left - data.length, p'.queue, true, flush⟩ hconnected hbusy rfl
            (fun h => absurd h (by simp)) (Or.inr ⟨⟨p'.id, buffer, [], true⟩, by rw [hwrites]; rfl, rfl, rfl,
              fun _ => rfl⟩), ?_⟩
          rw [hwrites] at hwhole
          simp only [List.flatMap_nil, List.flatMap_cons, hqueue hidle, List.flatten_nil, List.append_nil] at hwhole
          simp [Writer.waiting, hwrites, hwhole, Write.waiting, hqueue hidle]
        · -- the buffer queues behind the one that is being written
          have hwriting : p'.writing = true := by
            rw [← hpipe]
            exact hg w (by rw [hwrites]; exact List.mem_singleton_self w)
          rw [if_pos hwriting]
          refine ⟨.posting ⟨p'.id, p'.left - data.length, p'.queue ++ [buffer], p'.writing, flush⟩ hconnected hbusy rfl
            (fun h => absurd (hwriting.symm.trans h) (by simp)) (Or.inr ⟨w, hwrites, hid, hpipe, hchained⟩), ?_⟩
          rw [hwrites] at hwhole
          simp only [List.flatMap_nil, List.flatMap_cons, List.append_nil] at hwhole
          simp [Writer.waiting, hwrites, ← hwhole]
  · exact absurd hs (by simp)

/-- A write that goes on keeps the shape. -/
theorem Shape.goOn {s : Writer} (h : Shape s) {w w' : Write} (hw : s.writes = [w]) (accepted : Bytes) (hid : w'.id = w.id)
    (hpipe : w'.pipe = w.pipe) (hchained : w.chained = [] → w'.chained = []) :
    Shape { s with accepted, writes := [w'] } := by
  cases h with
  | unconnected h1 h2 h3 h4 =>
      rw [hw] at h3
      exact absurd h3 (by simp)
  | free h1 h2 h3 h4 h5 =>
      refine .free h1 h2 h3 h4 (Or.inr ⟨w', rfl, ?_⟩)
      rcases h5 with h5 | ⟨v, h5, hv⟩
      · rw [hw] at h5
        exact absurd h5 (by simp)
      · obtain rfl : w = v := by
          rw [hw] at h5
          exact (List.cons.inj h5).1
        rw [hpipe, hv]
  | posting p h1 h2 h3 h4 h5 =>
      refine .posting p h1 h2 h3 h4 (Or.inr ⟨w', rfl, ?_⟩)
      rcases h5 with ⟨h5, -⟩ | ⟨v, h5, hv, hvp, hvc⟩
      · rw [hw] at h5
        exact absurd h5 (by simp)
      · obtain rfl : w = v := by
          rw [hw] at h5
          exact (List.cons.inj h5).1
        exact ⟨hid.trans hv, hpipe.trans hvp, fun hp => hchained (hvc (hpipe ▸ hp))⟩

theorem Ordered.wrote {s : Writer} (h : Ordered s) {i k : Nat} (hg : InTurn s (.wrote i k)) {s' : Writer}
    (hs : s.step (.wrote i k) = some s') : Ordered s' := by
  unfold Writer.step at hs
  dsimp only at hs
  obtain ⟨hshape, hwhole⟩ := h
  split at hs
  · exact absurd hs (by simp)
  rename_i w hw
  split at hs
  case isFalse => exact absurd hs (by simp)
  rename_i hk
  obtain ⟨rfl, hwrites⟩ := hshape.write_unique hw
  rw [← Option.some.inj hs]
  obtain ⟨rest, hrest⟩ : ∃ rest, rest = s.posts.flatMap fun p => p.queue.flatten := ⟨_, rfl⟩
  rw [Writer.waiting, hwrites, ← hrest] at hwhole
  simp only [List.flatMap_cons, List.flatMap_nil, List.append_nil, Write.waiting] at hwhole
  unfold Writer.wrote
  dsimp only
  by_cases hpart : k < w.buffer.length
  · -- a part is taken, the rest is handed over again
    rw [if_pos hpart, hwrites]
    refine ⟨hshape.goOn hwrites _ rfl rfl fun h => h, ?_⟩
    have hsplit : w.buffer.take k ++ (w.buffer.drop k ++ (w.chained.flatten ++ rest)) =
        w.buffer ++ (w.chained.flatten ++ rest) := by
      rw [← List.append_assoc, List.take_append_drop]
    simp only [Writer.waiting, List.set_cons_zero, List.flatMap_cons, List.flatMap_nil, List.append_nil, Write.waiting,
      ← hrest, ← hwhole, List.append_assoc, hsplit]
  · have hall : k = w.buffer.length := by omega
    rw [if_neg hpart, hall, List.take_length]
    cases hch : w.chained with
    | cons b chained =>
        -- the next buffer of the chain
        dsimp only
        rw [hwrites]
        refine ⟨hshape.goOn hwrites _ rfl rfl fun h => absurd (hch.symm.trans h) (by simp), ?_⟩
        simp only [Writer.waiting, List.set_cons_zero, List.flatMap_cons, List.flatMap_nil, List.append_nil,
          Write.waiting, ← hrest, ← hwhole, List.append_assoc, hch, List.flatten_cons]
    | nil =>
        dsimp only
        rw [hwrites]
        rw [hch, List.flatten_nil, List.append_nil] at hwhole
        cases hshape with
        | unconnected _ _ h3 _ =>
            rw [hwrites] at h3
            exact absurd h3 (by simp)
        | free h1 h2 h3 h4 h5 =>
            rcases h5 with h5 | ⟨v, h5, hv⟩
            · rw [hwrites] at h5
              exact absurd h5 (by simp)
            obtain rfl : w = v := by
              rw [hwrites] at h5
              exact (List.cons.inj h5).1
            rw [hv, if_neg (by simp)]
            refine ⟨.free h1 h2 h3 h4 (Or.inl rfl), ?_⟩
            simp only [Writer.waiting, List.eraseIdx_cons_zero, List.flatMap_nil, List.nil_append, ← hrest, ← hwhole,
              List.append_assoc]
        | posting p h1 h2 h3 h4 h5 =>
            rcases h5 with ⟨h5, -⟩ | ⟨v, h5, hv, hvp, hvc⟩
            · rw [hwrites] at h5
              exact absurd h5 (by simp)
            obtain rfl : w = v := by
              rw [hwrites] at h5
              exact (List.cons.inj h5).1
            have hrestp : rest = p.queue.flatten := by
              rw [hrest, h3]
              simp
            cases hpipe : w.pipe with
            | false =>
                -- the head of the request is out; its body is still to come
                rw [if_neg (by simp)]
                refine ⟨.posting p h1 h2 h3 h4 (Or.inl ⟨rfl, by rw [← hvp, hpipe]⟩), ?_⟩
                simp only [Writer.waiting, List.eraseIdx_cons_zero, List.flatMap_nil, List.nil_append, ← hrest,
                  ← hwhole, List.append_assoc]
            | true =>
                rw [if_pos rfl]
                have hidx : (s.posts.findIdx fun p => p.id == w.id) = 0 := by
                  rw [h3]
                  simp [List.findIdx_cons, hv]
                rw [hidx]
                unfold Writer.pipeWritten
                dsimp only
                rw [h3]
                dsimp only [List.getElem?_cons_zero]
                cases hq : p.queue with
                | cons b queue =>
                    -- the next buffer of the pipe
                    dsimp only
                    refine ⟨.posting { p with queue } h1 h2 rfl
                      (fun h => absurd ((hvp.symm.trans hpipe).symm.trans h) (by simp))
                      (Or.inr ⟨⟨p.id, b, [], true⟩, rfl, rfl, hpipe.symm.trans hvp, fun _ => rfl⟩), ?_⟩
                    rw [hrestp, hq] at hwhole
                    simp [Writer.waiting, Write.waiting, ← hwhole]
                | nil =>
                    dsimp only
                    rw [hrestp, hq] at hwhole
                    cases hdone : p.done with
                    | true =>
                        -- the body is closed, and the socket released
                        rw [if_pos rfl]
                        have hcloses : s.closes 0 k = true := by
                          unfold Writer.closes
                          rw [hw]
                          dsimp only
                          rw [hidx, h3]
                          simp [hpipe, hall, hch, hq, hdone]
                        exact @Ordered.start { s with accepted := s.accepted ++ w.buffer, writes := [], posts := [] } h1 rfl rfl
                          (by simpa using hwhole) _ (hg hcloses)
                    | false =>
                        rw [if_neg (by simp)]
                        refine ⟨.posting ⟨p.id, p.left, [], false, false⟩ h1 h2 rfl (fun _ => rfl) (Or.inl ⟨rfl, rfl⟩), ?_⟩
                        simpa [Writer.waiting, hq] using hwhole

/-! ## The result -/

/-- Nothing is put up for writing twice, cut short or mixed: at most one worker has bytes waiting, and what the kernel
    has taken, with what is waiting, is what was put up for writing, one request or one read of a body after the other.
    Where those are whole records, the stream is these records one after the other. -/
structure Uninterrupted (s : Writer) : Prop where
  one : ∀ a ∈ s.waitingWorkers, ∀ b ∈ s.waitingWorkers, a = b
  whole : s.accepted ++ s.waiting = s.units.flatten
  records : (∀ u ∈ s.units, incomplete u = []) →
    Fcgi.records (s.accepted ++ s.waiting) = s.units.flatMap Fcgi.records ∧ incomplete (s.accepted ++ s.waiting) = []

/-- Whole pieces read one after the other. -/
theorem records_flatten {units : List Bytes} (h : ∀ u ∈ units, incomplete u = []) :
    records units.flatten = units.flatMap records ∧ incomplete units.flatten = [] := by
  induction units with
  | nil => exact ⟨by decide, by decide⟩
  | cons u units ih =>
      obtain ⟨h1, h2⟩ := ih fun v hv => h v (List.mem_cons_of_mem u hv)
      obtain ⟨h3, h4⟩ := records_append u units.flatten
      rw [h u List.mem_cons_self, List.nil_append] at h3 h4
      rw [List.flatten_cons, List.flatMap_cons, h3, h4, h1, h2]
      exact ⟨rfl, rfl⟩

/-- The bytes that are waiting are those of one worker. -/
theorem Shape.one_worker {s : Writer} (h : Shape s) : ∀ a ∈ s.waitingWorkers, ∀ b ∈ s.waitingWorkers, a = b := by
  have hsame : ∀ n, (∀ a ∈ s.waitingWorkers, a = n) → ∀ a ∈ s.waitingWorkers, ∀ b ∈ s.waitingWorkers, a = b :=
    fun n hn a ha b hb => (hn a ha).trans (hn b hb).symm
  cases h with
  | unconnected _ _ hwrites hposts =>
      apply hsame 0
      intro a ha
      rw [Writer.waitingWorkers, hwrites, hposts] at ha
      exact absurd ha (by simp)
  | free _ _ _ hposts hwrites =>
      rcases hwrites with hwrites | ⟨w, hwrites, -⟩
      · apply hsame 0
        intro a ha
        rw [Writer.waitingWorkers, hwrites, hposts] at ha
        exact absurd ha (by simp)
      · apply hsame w.id
        intro a ha
        rw [Writer.waitingWorkers, hwrites, hposts] at ha
        simpa using ha
  | posting p _ _ hposts _ hwrites =>
      apply hsame p.id
      intro a ha
      rw [Writer.waitingWorkers, hposts] at ha
      rcases List.mem_append.mp ha with ha | ha
      · rcases hwrites with ⟨hwrites, -⟩ | ⟨w, hwrites, hid, -⟩
        · rw [hwrites] at ha
          exact absurd ha (by simp)
        · rw [hwrites] at ha
          rw [← hid]
          simpa using ha
      · obtain ⟨q, hq, rfl⟩ := List.mem_map.mp ha
        rw [List.mem_singleton.mp (List.mem_filter.mp hq).1]

/-- One step in turn keeps the order. -/
theorem Ordered.step {s s' : Writer} {e : WriterEvent} (h : Ordered s) (hg : InTurn s e) (hs : s.step e = some s') :
    Ordered s' := by
  cases e with
  | request j => exact h.request j hg hs
  | connect => exact h.connect hg hs
  | wrote i k => exact h.wrote hg hs
  | read i data => exact h.read hg hs

/-- A request without a body, of the worker `id`. -/
def plainJob (id : Nat) : Job := ({} : FcgiRequest).job true id

/-- A connected socket with the requests of these workers handed over. -/
def handedOver (ids : List Nat) : Writer where
  connected := true
  busy := false
  writes := ids.map fun id => (plainJob id).write
  units := ids.map fun id => (plainJob id).buffers.flatten

end Fcgi
end Hin9
