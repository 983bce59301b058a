import Hin9.Fcgi.Record
import Hin9.Lib.Runs

/-!
# `Fcgi.Read` — reading what a fastcgi application sends (`fcgi_read.c`, `fcgi_socket.c`)

The read callback of a fastcgi socket handles the complete records of its line buffer one after the other and leaves
the rest for the next read. Handling a record works on the header in place, on the worker table of the socket, and on
whatever the worker it names has at that moment: a client, a buffer for the head of the response, a response pipe.

What the rest of the server makes of a record (the head of a response is complete and its pipe started, a response
has ended, a worker has been given the next request) is not part of this module: a `World` says how the worker table
looks behind it.
-/

namespace Hin9
namespace Fcgi

open Lib.Frames

/-! ## State -/

/-- What the reader uses of a `hin_fcgi_worker_t`: whether it has a client, a buffer that collects the head of the
    response, and a response pipe. -/
structure ReadWorker where
  http : Bool
  headerBuf : Bool
  out : Bool
deriving Repr, DecidableEq

/-- The worker table and what else the handling of a record leaves behind: whether it closed the socket. -/
structure World where
  worker : List (Option ReadWorker)
  closed : Bool := false
deriving Repr, DecidableEq

/-- A `hin_fcgi_socket_t` with its read buffer. `worker` has `max_worker` entries, `reuse` is whether the group keeps
    its sockets, `handled` are the records handled so far, and `fault` says that the table was indexed out of bounds or
    something missing was used. -/
structure ReadSocket where
  debug : Bool := false
  reuse : Bool := true
  worker : List (Option ReadWorker)
  buffered : Bytes := []
  handled : List Record := []
  fault : Bool := false
deriving Repr, DecidableEq

/-! ## Handling a record -/

/-- `endian_swap16` and `endian_swap32` of a field, in place. -/
def swapField (off n : Nat) (mem : Bytes) : Bytes :=
  mem.take off ++ ((mem.drop off).take n).reverse ++ mem.drop (off + n)

/-- `hin_fcgi_pipe_write`: the bytes go into the buffer for the head, whose callback looks at the client, or into the
    response pipe on behalf of the client. -/
def hinFcgiPipeWrite (w : ReadWorker) : Bool := w.http && (w.headerBuf || w.out)

/-- `hin_fcgi_pipe_end`: the client is asked for its debug flags and the response pipe is finished. -/
def hinFcgiPipeEnd (w : ReadWorker) : Bool := w.http && w.out

/-- What `hin_fcgi_read_rec` needs of the worker a record names. -/
def workerServes (debug : Bool) (type : UInt8) (w : Option ReadWorker) : Bool :=
  match w with
  | none => !debug && type != FCGI_STDOUT && type != FCGI_END_REQUEST
  | some w =>
      (!debug || w.http) && (type != FCGI_STDOUT || hinFcgiPipeWrite w) && (type != FCGI_END_REQUEST || hinFcgiPipeEnd w)

/-- What handling a record leaves: its length, the record, the memory behind `ptr`, and whether all went well. -/
structure ReadRec where
  total : Nat
  record : Record
  mem : Bytes
  ok : Bool
deriving Repr, DecidableEq

/-- `hin_fcgi_read_rec` on the memory from `ptr` on, `left` bytes of which have been received. An id equal to
    `max_worker` passes the check and is an entry behind the table. -/
def hinFcgiReadRec (debug : Bool) (worker : List (Option ReadWorker)) (mem : Bytes) (left : Nat) : Option ReadRec :=
  match recordFormat.first (mem.take left) with
  | none => none
  | some total =>
      let head := Record.ofBytes mem
      let mem := swapField 4 2 (swapField 2 2 mem)
      if head.id > worker.length then some ⟨total, head, mem, true⟩
      else match worker[head.id]? with
        | none => some ⟨total, head, mem, false⟩
        | some w =>
            -- `req->appStatus` is swapped in place, whatever the length of the content is
            let mem := if head.type = FCGI_END_REQUEST then swapField 8 4 mem else mem
            some ⟨total, head, mem, workerServes debug head.type w⟩

/-- The variables of the read loop. -/
structure ReadLoop where
  worker : List (Option ReadWorker)
  world : List World
  mem : Bytes
  left : Nat
  handled : List Record := []
  fault : Bool := false
deriving Repr, DecidableEq

/-- The loop of `hin_fcgi_socket_read_callback`. Only the end of a response closes a socket, and only in a group that
    does not keep its sockets; the loop goes on with the freed one. -/
def readLoop (debug reuse : Bool) : Nat → ReadLoop → ReadLoop
  | 0, l => l
  | fuel + 1, l =>
      match hinFcgiReadRec debug l.worker l.mem l.left with
      | none => l
      | some r =>
          let after := l.world.headD ⟨l.worker, false⟩
          let closed := after.closed && !reuse && r.record.type == FCGI_END_REQUEST
          let l := { l with
            worker := after.worker
            world := l.world.tail
            mem := r.mem.drop r.total
            left := l.left - r.total
            handled := l.handled ++ [r.record]
            fault := !r.ok || closed }
          if l.fault then l else readLoop debug reuse fuel l

/-! ## Runs -/

/-- What happens to the socket: bytes arrive, in front of whatever `stale` bytes the buffer holds, or the rest of the
    server works on the workers. -/
inductive ReadEvent where
  | recv (chunk stale : Bytes) (world : List World)
  | serve (worker : List (Option ReadWorker))
deriving Repr, DecidableEq

/-- The bytes of a buffer that has just been read into, with the loop's variables. -/
def ReadSocket.loopStart (s : ReadSocket) (chunk stale : Bytes) (world : List World) : ReadLoop where
  worker := s.worker
  world := world
  mem := s.buffered ++ chunk ++ stale
  left := s.buffered.length + chunk.length

/-- `hin_lines_read_callback` with the callbacks of the socket: what the loop has used is eaten. -/
def ReadSocket.step (s : ReadSocket) : ReadEvent → Option ReadSocket
  | .recv chunk stale world =>
      if s.fault = true ∨ chunk = [] then none
      else
        let l := readLoop s.debug s.reuse (s.buffered.length + chunk.length) (s.loopStart chunk stale world)
        some { s with
          worker := l.worker
          buffered := l.mem.take l.left
          handled := s.handled ++ l.handled
          fault := l.fault }
  | .serve worker => if s.fault = true then none else some { s with worker }

/-- The bytes received in a run. -/
def received : List ReadEvent → Bytes
  | [] => []
  | .recv chunk _ _ :: es => chunk ++ received es
  | .serve _ :: es => received es

/-! ## The condition -/

/-- A record finds what it needs: its id is not the one right behind the table; where it is inside, a `STDOUT` or an
    `END_REQUEST` names a request in progress, and an `END_REQUEST` brings its status. -/
def Fits (debug : Bool) (worker : List (Option ReadWorker)) (r : Record) : Prop :=
  r.id ≠ worker.length ∧ ∀ w, worker[r.id]? = some w →
    workerServes debug r.type w = true ∧ (r.type = FCGI_END_REQUEST → 5 ≤ r.content.length)

/-- Record after record finds what it needs, and none of them closes the socket. -/
def AllFit (debug reuse : Bool) : List (Option ReadWorker) → List World → List Record → Prop
  | _, _, [] => True
  | worker, world, r :: rs =>
      Fits debug worker r ∧ (r.type = FCGI_END_REQUEST → reuse = false → (world.headD ⟨worker, false⟩).closed = false) ∧
        AllFit debug reuse (world.headD ⟨worker, false⟩).worker world.tail rs

/-- The condition on what arrives. -/
def ReadOrderly (s : ReadSocket) : ReadEvent → Prop
  | .recv chunk _ world => AllFit s.debug s.reuse s.worker world (records (s.buffered ++ chunk))
  | .serve _ => True

/-! ## What handling a record changes -/

/-- Fields in front of `k` are swapped without a trace behind it. -/
theorem drop_swapField {off n k : Nat} (mem : Bytes) (h : off + n ≤ k) : (swapField off n mem).drop k = mem.drop k := by
  unfold swapField
  by_cases hlen : off + n ≤ mem.length
  · have hfront : (mem.take off ++ ((mem.drop off).take n).reverse).length = off + n := by
      rw [List.length_append, List.length_reverse, List.length_take, List.length_take, List.length_drop]
      omega
    obtain ⟨d, rfl⟩ : ∃ d, k = off + n + d := ⟨k - (off + n), by omega⟩
    rw [← List.drop_drop, ← hfront, List.drop_left, hfront, List.drop_drop]
  · have hshort : (mem.take off ++ ((mem.drop off).take n).reverse ++ mem.drop (off + n)).length ≤ k := by
      simp only [List.length_append, List.length_reverse, List.length_take, List.length_drop]
      omega
    rw [List.drop_of_length_le hshort, List.drop_of_length_le (by omega)]

section Handling

variable {debug : Bool} {worker : List (Option ReadWorker)} {bs : Bytes} {n : Nat}

theorem hinFcgiReadRec_none (stale : Bytes) (h : recordFormat.first bs = none) :
    hinFcgiReadRec debug worker (bs ++ stale) bs.length = none := by
  unfold hinFcgiReadRec
  rw [List.take_left, h]

/-- **A record that fits is handled as it stands**, and the bytes behind it stay what they were. -/
theorem hinFcgiReadRec_fits (stale : Bytes) (h : recordFormat.first bs = some n) (hfit : Fits debug worker (Record.ofBytes bs)) :
    ∃ mem, hinFcgiReadRec debug worker (bs ++ stale) bs.length = some ⟨n, Record.ofBytes bs, mem, true⟩ ∧
      mem.drop n = bs.drop n ++ stale := by
  obtain ⟨v, t, i1, i0, l1, l0, pad, r, data, hbs, hn, hdata⟩ := record_shape h
  have hhead : Record.ofBytes (bs ++ stale) = Record.ofBytes bs := Record.ofBytes_append h stale
  have hn8 : 8 ≤ n := by rw [hn]; unfold FCGI_HEADER_SZ; omega
  have hback : (swapField 4 2 (swapField 2 2 (bs ++ stale))).drop n = bs.drop n ++ stale := by
    rw [drop_swapField _ (by omega), drop_swapField _ (by omega),
      List.drop_append_of_le_length (Format.first_spec h).2.2]
  unfold hinFcgiReadRec
  rw [List.take_left, h]
  dsimp only
  rw [hhead]
  by_cases hout : (Record.ofBytes bs).id > worker.length
  · rw [if_pos hout]
    exact ⟨_, rfl, hback⟩
  rw [if_neg hout]
  have hlt : (Record.ofBytes bs).id < worker.length := Nat.lt_of_le_of_ne (Nat.not_lt.mp hout) hfit.1
  obtain ⟨hserves, hstatus⟩ := hfit.2 _ (List.getElem?_eq_getElem hlt)
  rw [List.getElem?_eq_getElem hlt]
  dsimp only
  rw [hserves]
  refine ⟨_, rfl, ?_⟩
  split
  · -- the status is part of the content
    rename_i hend
    have hlong := hstatus hend
    have hcontent : (Record.ofBytes bs).content.length ≤ be16 l1 l0 := by
      rw [hbs]
      exact List.length_take_le _ _
    rw [drop_swapField _ (by rw [hn]; unfold FCGI_HEADER_SZ; omega)]
    exact hback
  · exact hback

/-- **The read loop, when every record fits**: all complete records are handled, and the tail is left as it is. By
    induction on the records. -/
theorem readLoop_allFit (debug reuse : Bool) (bs : Bytes) : ∀ (fuel : Nat) (l : ReadLoop) (stale : Bytes), bs.length ≤ fuel →
    l.mem = bs ++ stale → l.left = bs.length → l.fault = false → AllFit debug reuse l.worker l.world (records bs) →
    (readLoop debug reuse fuel l).handled = l.handled ++ records bs ∧
      (readLoop debug reuse fuel l).mem.take (readLoop debug reuse fuel l).left = incomplete bs ∧
      (readLoop debug reuse fuel l).fault = false := by
  induction bs using recordFormat.split_induct with
  | hnone bs h =>
      rintro fuel l stale - hmem hleft hfault -
      have hstop : readLoop debug reuse fuel l = l := by
        cases fuel with
        | zero => rfl
        | succ fuel =>
            unfold readLoop
            rw [hmem, hleft, hinFcgiReadRec_none stale h]
      obtain ⟨hrec, hinc⟩ := records_none h
      rw [hstop, hrec, hinc, hmem, hleft, List.take_left, List.append_nil]
      exact ⟨rfl, rfl, hfault⟩
  | hsome bs n h ih =>
      intro fuel l stale hfuel hmem hleft hfault hall
      obtain ⟨-, hpos, hle⟩ := Format.first_spec h
      obtain ⟨hrec, hinc⟩ := records_some h
      rw [hrec] at hall
      obtain ⟨hfit, hopen, hrest⟩ := hall
      obtain ⟨mem, hread, hback⟩ := hinFcgiReadRec_fits stale h hfit
      obtain ⟨k, rfl⟩ : ∃ k, fuel = k + 1 := ⟨fuel - 1, by omega⟩
      have hclosed : ((l.world.headD ⟨l.worker, false⟩).closed && !reuse &&
          (Record.ofBytes bs).type == FCGI_END_REQUEST) = false := by
        by_cases hend : (Record.ofBytes bs).type = FCGI_END_REQUEST
        · cases hreuse : reuse with
          | true => simp
          | false => rw [hopen hend hreuse]; rfl
        · simp [hend]
      unfold readLoop
      rw [hmem, hleft, hread]
      dsimp only
      rw [hclosed]
      simp only [Bool.not_true, Bool.or_false, Bool.false_eq_true, if_false]
      obtain ⟨h1, h2, h3⟩ := ih k ⟨(l.world.headD ⟨l.worker, false⟩).worker, l.world.tail, mem.drop n, bs.length - n,
        l.handled ++ [Record.ofBytes bs], false⟩ stale
        (by rw [List.length_drop]; omega) hback (by rw [List.length_drop]) rfl hrest
      rw [hrec, hinc]
      refine ⟨?_, h2, h3⟩
      rw [h1, List.append_assoc]
      rfl

end Handling

/-! ## The result -/

theorem received_snoc (es : List ReadEvent) (e : ReadEvent) :
    received (es ++ [e]) = received es ++ received [e] := by
  induction es with
  | nil => rfl
  | cons e' es ih =>
      cases e' with
      | recv chunk stale world => simp only [List.cons_append, received, ih, List.append_assoc]
      | serve worker => simp only [List.cons_append, received, ih]

/-- The table of a socket with one request in progress. -/
def oneRequest : List (Option ReadWorker) := [some ⟨true, true, false⟩, none, none, none, none]

end Fcgi
end Hin9
