import Hin9.Http.CgiHead
import Hin9.Netcode.PipeCalls

/-!
# `Http.BodyEnd` — where the body of a response ends (`httpd.c`, `httpd_file.c`, `httpd_cgi.c`, `rproxy.c`, `data.c`)

The pipe that carries the body of a response ends when its source does, however little has come: the end of a file that has
shrunk, of a process or of a connection that breaks is an ordinary flush, and the finish callback of the pipe leads to
`httpd_client_finish_request`. What decides there whether the next request is started is the flag the head was written with,
and whether something else has shut the connection down.

A response is one of the three kinds the server builds, with the head it has written. Its pipe is that of
`Netcode.PipeLife`: what its filters queue comes with the events.
-/

namespace Hin9
namespace Http
namespace BodyEnd

open Netcode

/-! ## Responses -/

/-- A response with a body that comes from elsewhere. -/
inductive Response where
  | file (http : FileClient) (item : FileItem) (reply : FileReply) (sent : httpdSendFileReply http item = some reply)
  | upstream (client : ProxyClient) (u : UpstreamHead)
  | backend (client : CgiClient) (lines : List Bytes) (socket : Bool)    -- a fastcgi socket, or a process

namespace Response

/-- `HIN_HTTP_KEEPALIVE` in the flags the head was written with. -/
def keepAlive : Response → Bool
  | file _ _ reply _ => reply.head.keepAlive
  | upstream client u => (hinRproxyHeaders client u).keepAlive
  | backend client lines _ => (client.replyHead lines).keepAlive

/-- The head announces a body, by its length or in chunks. -/
def announces : Response → Bool
  | file http _ reply _ => decide (reply.response.status ≠ 304 ∧ http.method ≠ .head)
  | upstream client u =>
      let head := hinRproxyHeaders client u
      decide (client.method ≠ .head ∧ u.status ≠ 304) && (head.chunked || head.contentLength.isSome)
  | backend client lines _ =>
      let h := CgiHead.ofLines lines
      decide (client.method ≠ .head ∧ h.status ≠ 304) && ((client.replyHead lines).chunked || decide (h.sz ≠ 0))

/-- How many bytes the source owes: what `Content-Length` says, or what the source itself has said where chunks take its
    place. -/
def due : Response → Option Nat
  | file _ item reply _ => some (if reply.head.chunked then reply.response.left.toNat else item.size)
  | upstream _ u => if u.framing.chunked then none else some u.framing.sz.toNat
  | backend _ lines _ =>
      let h := CgiHead.ofLines lines
      if h.sz = 0 then none else some h.sz.toNat

/-- The source says itself where the body ends: it sends chunks. -/
def framed : Response → Bool
  | upstream _ u => u.framing.chunked
  | _ => false

/-- The pipe, with the head in its queue. `pipe->left` is only looked at where `HIN_COUNT` is set. -/
def pipe : Response → List Buffer → Pipe
  | file _ _ reply _, que =>
      { input := { offsets := true, count := true, pos := reply.response.pos.toNat }
        condense := true
        left := reply.response.left
        writeQue := que
        inErrorCb := false }
  | upstream client u, que =>
      let body := BodyPipe.ofFraming (decide (client.method = .head)) u.framing
      { input := { count := body.left.isSome }, left := body.left.getD 0, writeQue := que, inErrorCb := false }
  | backend _ _ socket, que => { input := { inactive := socket }, writeQue := que, inErrorCb := false }

end Response

/-- What there is when the pipe is started: the head, what was read behind the head of the source, and the state of the
    connection. -/
structure Begin where
  que : List Buffer := []
  piece : Nat := 0
  reply : Reply := {}
  stopping : Bool := false      -- HIN_REQ_STOPPING
  post : Bool := false          -- HIN_REQ_POST of the client
  upload : Bool := false        -- HIN_REQ_POST of the upstream connection

inductive Outcome where
  | kept     -- httpd_client_start_request
  | closed   -- HIN_REQ_END and httpd_client_shutdown
deriving Repr, DecidableEq

/-- A response on its way. -/
structure Answer where
  life : Life
  received : Nat                -- how much of the body the source has given
  last : Bool                   -- the last chunk of the source has come
  failed : Bool := false        -- a read has failed, or the socket of the backend was closed
  data : Bool := true           -- HIN_REQ_DATA of the client
  ioData : Bool := true         -- HIN_REQ_DATA of the upstream connection
  post : Bool
  upload : Bool
  error : Bool := false         -- HIN_REQ_ERROR
  stopping : Bool
  gone : Bool := false          -- the backend has lost its socket
  outcome : Option Outcome := none

def start (r : Response) (b : Begin) : Answer where
  life := { pipe := if b.piece = 0 then r.pipe b.que else hinPipeProcess (r.pipe b.que) b.piece b.reply }
  received := b.piece
  last := decide (b.piece ≠ 0) && b.reply.done
  post := b.post
  upload := b.upload
  stopping := b.stopping

/-! ## The functions -/

/-- `httpd_client_finish_request`. -/
def httpdClientFinishRequest (r : Response) (s : Answer) : Answer :=
  let s := { s with data := false }
  if s.post then s
  else { s with outcome := some (if r.keepAlive && !s.stopping then .kept else .closed) }

/-- `httpd_client_shutdown`. -/
def httpdClientShutdown (s : Answer) : Answer := { s with stopping := true }

/-- `done_file`, `hin_pipe_cgi_server_finish_callback` and `hin_fcgi_pipe_finish_callback`, or
    `hin_http_pipe_finish_callback` and what `http_client_finish_request` makes of it. -/
def finishCallback (r : Response) (s : Answer) : Answer :=
  match r with
  | .upstream _ _ =>
      let s := { s with ioData := false }
      if s.upload then s else httpdClientFinishRequest r s
  | _ => httpdClientFinishRequest r s

/-- One callback of the pipe. `httpd_pipe_error_callback` shuts the connection down; there is no callback for errors of the
    source. -/
def callback (r : Response) (s : Answer) : Call → Answer
  | .outError _ => if s.outcome.isSome then s else httpdClientShutdown s
  | .finish => if s.outcome.isSome then s else finishCallback r s
  | .inError _ | .free => s

/-- What an event of the pipe brings from the source. -/
def Answer.arrive (s : Answer) : LifeEvent → Answer
  | .readDone num reply | .feed num reply => { s with received := s.received + num, last := s.last || reply.done }
  | .readFailed _ _ => { s with failed := true }
  | _ => s

/-! ## Events -/

inductive Event where
  | pipe (e : Submit × LifeEvent)
  | shutdown                        -- `httpd_client_shutdown`, by a timer or for another buffer
  | uploadDone                      -- the pipe with the body of the request has ended
  | socketClosed                    -- `hin_fcgi_socket_close`
  | errorSent                       -- `http_raw_response_callback` behind `httpd_error`

/-- The backend drives the pipe. -/
def fed : LifeEvent → Bool
  | .feed _ _ | .finish _ => true
  | _ => false

/-- `post_done` and `hin_fcgi_post_done_callback`, or `hin_rproxy_post_done_callback`. -/
def uploadDone (r : Response) (s : Answer) : Option Answer :=
  match r with
  | .file _ _ _ _ => none
  | .upstream _ _ =>
      if s.upload then
        let s := { s with upload := false }
        some (if s.ioData then s else httpdClientFinishRequest r s)
      else none
  | .backend _ _ _ =>
      if s.post && !s.gone then
        let s := { s with post := false }
        some (if s.data then s else httpdClientFinishRequest r s)
      else none

/-- One event, until it is known what comes behind the response. A pipe that ends when its backend has lost the socket finds no
    client any more (`worker->http` is NULL). -/
def step (r : Response) (s : Answer) (e : Event) : Option Answer :=
  if s.outcome.isSome then none
  else
    match e with
    | .pipe e =>
        if s.gone && fed e.2 then none
        else
          (lifeStep s.life e).bind fun life =>
            let calls := life.pipe.log.drop s.life.pipe.log.length
            if s.gone && calls.contains .finish then none
            else some (calls.foldl (callback r) { s.arrive e.2 with life })
    | .shutdown => some (httpdClientShutdown s)
    | .uploadDone => uploadDone r s
    | .socketClosed =>
        match r with
        | .backend _ _ true =>
            if s.gone then none else some { s with gone := true, failed := true, data := true, post := false, error := true }
        | _ => none
    | .errorSent => if s.error then some (httpdClientFinishRequest r { s with error := false }) else none

/-- **The body ended early**: fewer bytes have come than were announced; or the last chunk has not; or, where the source has
    not said anything about the end, it has failed. -/
def Short (r : Response) (s : Answer) : Prop :=
  r.announces = true ∧
    match r.due with
    | some n => s.received < n
    | none => if r.framed then s.last = false else s.failed = true

/-- **The connection is shut down otherwise**: it was before the response, or it is meanwhile, or a write to it fails. -/
def Stopped (b : Begin) (es : List Event) (s : Answer) : Prop :=
  b.stopping = true ∨ .shutdown ∈ es ∨ ∃ err, .outError err ∈ s.life.pipe.log

/-! ## What decides -/

/-- The connection is closed behind the response if it is being shut down when the response ends, or is not to be kept. -/
structure Agrees (r : Response) (s : Answer) (stopped : Prop) : Prop where
  pending : s.outcome = none → (s.stopping = true ↔ stopped)
  decided : ∀ o, s.outcome = some o → (o = .closed ↔ r.keepAlive = false ∨ stopped)

variable {r : Response} {b : Begin} {s s' : Answer} {stopped stopped' : Prop}

theorem Agrees.congr (h : Agrees r s stopped) (hiff : stopped ↔ stopped') : Agrees r s stopped' :=
  ⟨fun hn => (h.pending hn).trans hiff, fun o ho => (h.decided o ho).trans (or_congr_right hiff)⟩

/-- Nothing is decided yet. -/
theorem Agrees.of_pending (h : s.outcome = none) : Agrees r s (s.stopping = true) :=
  ⟨fun _ => Iff.rfl, fun o ho => absurd (h.symm.trans ho) (by simp)⟩

/-- **`httpd_client_finish_request` decides**, if the body of the request is not waited for. -/
theorem agrees_finishRequest (h : s.outcome = none) :
    Agrees r (httpdClientFinishRequest r s) (s.stopping = true) ∧ (httpdClientFinishRequest r s).life = s.life := by
  unfold httpdClientFinishRequest
  dsimp only
  split
  · exact ⟨⟨fun _ => Iff.rfl, fun o ho => absurd (h.symm.trans ho) (by simp)⟩, rfl⟩
  · refine ⟨⟨fun hn => absurd hn (by simp), ?_⟩, rfl⟩
    intro o ho
    obtain rfl := Option.some.inj ho
    cases r.keepAlive <;> cases s.stopping <;> simp

theorem agrees_finishCallback (h : s.outcome = none) :
    Agrees r (finishCallback r s) (s.stopping = true) ∧ (finishCallback r s).life = s.life := by
  cases r with
  | upstream client u =>
      unfold finishCallback
      dsimp only
      split
      · exact ⟨.of_pending h, rfl⟩
      · exact agrees_finishRequest h
  | file http item reply sent => exact agrees_finishRequest h
  | backend client lines socket => exact agrees_finishRequest h

/-- Once it is decided, the callbacks of the pipe change nothing. -/
theorem callbacks_over {calls : List Call} (h : s.outcome.isSome = true) : calls.foldl (callback r) s = s := by
  induction calls with
  | nil => rfl
  | cons c calls ih =>
      have hsame : callback r s c = s := by
        cases c with
        | outError err => exact if_pos h
        | finish => exact if_pos h
        | inError err => rfl
        | free => rfl
      rw [List.foldl_cons, hsame]
      exact ih

theorem callback_life (s : Answer) (c : Call) : (callback r s c).life = s.life := by
  cases c with
  | outError err =>
      unfold callback
      dsimp only
      split <;> rfl
  | finish =>
      unfold callback
      dsimp only
      split
      · rfl
      · rename_i hn
        exact (agrees_finishCallback (Option.not_isSome_iff_eq_none.mp hn)).2
  | inError err => rfl
  | free => rfl

theorem callbacks_life (s : Answer) (calls : List Call) : (calls.foldl (callback r) s).life = s.life := by
  induction calls generalizing s with
  | nil => rfl
  | cons c calls ih => rw [List.foldl_cons, ih, callback_life]

/-- **The callbacks of one event.** A failed write counts if it is reported before the pipe ends. -/
theorem agrees_callbacks {calls : List Call} (h : s.outcome = none)
    (hlast : ∀ before behind, calls = before ++ .finish :: behind → ∀ err, .outError err ∉ behind) :
    Agrees r (calls.foldl (callback r) s) (s.stopping = true ∨ ∃ err, .outError err ∈ calls) := by
  induction calls generalizing s with
  | nil => exact (Agrees.of_pending h).congr (by simp)
  | cons c calls ih =>
      rw [List.foldl_cons]
      have hrest : ∀ before behind, calls = before ++ .finish :: behind → ∀ err, .outError err ∉ behind := by
        intro before behind hcalls
        exact hlast (c :: before) behind (by rw [hcalls]; rfl)
      have hnone : s.outcome.isSome = false := by
        rw [h]
        rfl
      cases c with
      | inError err => exact (ih h hrest).congr (by simp)
      | free => exact (ih h hrest).congr (by simp)
      | outError err =>
          have hshut : callback r s (.outError err) = httpdClientShutdown s := by
            unfold callback
            rw [hnone]
            rfl
          have hopen : (httpdClientShutdown s).outcome = none := h
          rw [hshut]
          refine (ih hopen hrest).congr ?_
          exact ⟨fun _ => .inr ⟨err, List.mem_cons_self⟩, fun _ => .inl rfl⟩
      | finish =>
          have hno := hlast [] calls rfl
          have hcb : callback r s .finish = finishCallback r s := by
            unfold callback
            rw [hnone]
            rfl
          have hiff : s.stopping = true ↔ s.stopping = true ∨ ∃ err, .outError err ∈ Call.finish :: calls := by
            refine ⟨.inl, ?_⟩
            rintro (hs | ⟨err, hmem⟩)
            · exact hs
            · rcases List.mem_cons.mp hmem with heq | hin
              · exact absurd heq (by simp)
              · exact absurd hin (hno err)
          have hagrees := (agrees_finishCallback (r := r) h).1.congr hiff
          rw [hcb]
          cases ho : (finishCallback r s).outcome with
          | some o =>
              rw [callbacks_over (by rw [ho]; rfl)]
              exact hagrees
          | none =>
              refine (ih ho hrest).congr ?_
              rw [hagrees.pending ho]
              exact ⟨fun hor => hor.elim id fun ⟨err, hin⟩ => absurd hin (hno err), .inl⟩

/-! ## Runs -/

/-- What is known of a response at any time. -/
structure Inv (r : Response) (b : Begin) (es : List Event) (s : Answer) : Prop where
  order : InOrder s.life.pipe
  agrees : Agrees r s (Stopped b es s)

theorem start_inv (r : Response) (b : Begin) : Inv r b [] (start r b) := by
  have hfresh : (start r b).life.pipe.log = [] ∧ (start r b).life.pipe.finishCb = true := by
    have hpipe : (r.pipe b.que).log = [] ∧ (r.pipe b.que).finishCb = true := by
      cases r <;> exact ⟨rfl, rfl⟩
    unfold start
    dsimp only
    split
    · exact hpipe
    · unfold hinPipeProcess
      split
      · exact hpipe
      · exact hpipe
  refine ⟨⟨?_, ?_, ?_⟩, ?_⟩
  · intro _
    rw [hfresh.1]
    exact List.not_mem_nil
  · intro hf
    exact absurd (hfresh.2.symm.trans hf) (by decide)
  · intro before behind hlog
    rw [hfresh.1] at hlog
    exact absurd hlog (by simp)
  · have hpending : (start r b).outcome = none := rfl
    refine (Agrees.of_pending hpending).congr ?_
    unfold Stopped
    rw [hfresh.1]
    refine ⟨.inl, ?_⟩
    rintro (hs | hmem | ⟨err, hmem⟩)
    · exact hs
    · exact absurd hmem List.not_mem_nil
    · exact absurd hmem List.not_mem_nil

/-- An event that is not a shutdown, and that the pipe has no part in. -/
theorem Stopped.snoc {es : List Event} {e : Event} (he : e ≠ .shutdown) (hlife : s'.life = s.life) :
    Stopped b es s ↔ Stopped b (es ++ [e]) s' := by
  unfold Stopped
  rw [hlife, List.mem_append, List.mem_singleton]
  have hno : (Event.shutdown = e) ↔ False := ⟨fun heq => he heq.symm, False.elim⟩
  rw [hno, or_false]

theorem Inv.pipe {es : List Event} (h : Inv r b es s) (hnone : s.outcome = none) {e : Submit × LifeEvent} {life : Life}
    (hlife : lifeStep s.life e = some life) :
    Inv r b (es ++ [.pipe e])
      ((life.pipe.log.drop s.life.pipe.log.length).foldl (callback r) { s.arrive e.2 with life }) := by
  have hcalls := lifeStep_calls hlife
  have horder : InOrder life.pipe := hcalls.inOrder h.order
  obtain ⟨calls, hlog⟩ := hcalls.log_prefix
  have hdrop : life.pipe.log.drop s.life.pipe.log.length = calls := by
    rw [← hlog, List.drop_left]
  rw [hdrop]
  have harrive : (s.arrive e.2).outcome = none ∧ (s.arrive e.2).stopping = s.stopping := by
    cases e.2 <;> exact ⟨hnone, rfl⟩
  have hpending : ({ s.arrive e.2 with life } : Answer).outcome = none := harrive.1
  have hlast : ∀ before behind, calls = before ++ .finish :: behind → ∀ err, .outError err ∉ behind := by
    intro before behind hsplit
    exact (horder.last (s.life.pipe.log ++ before) behind (by rw [← hlog, hsplit, List.append_assoc])).2
  have hagrees := agrees_callbacks (r := r) hpending hlast
  constructor
  · rw [callbacks_life]
    exact horder
  · refine hagrees.congr ?_
    have hstop := h.agrees.pending hnone
    have hsame : ({ s.arrive e.2 with life } : Answer).stopping = s.stopping := harrive.2
    rw [hsame, hstop]
    unfold Stopped
    rw [callbacks_life, List.mem_append, List.mem_singleton, ← hlog]
    constructor
    · rintro ((hs | hmem | ⟨err, hmem⟩) | ⟨err, hmem⟩)
      · exact .inl hs
      · exact .inr (.inl (.inl hmem))
      · exact .inr (.inr ⟨err, List.mem_append_left _ hmem⟩)
      · exact .inr (.inr ⟨err, List.mem_append_right _ hmem⟩)
    · rintro (hs | (hmem | heq) | ⟨err, hmem⟩)
      · exact .inl (.inl hs)
      · exact .inl (.inr (.inl hmem))
      · exact absurd heq (by simp)
      · rcases List.mem_append.mp hmem with hold | hnew
        · exact .inl (.inr (.inr ⟨err, hold⟩))
        · exact .inr ⟨err, hnew⟩

/-- The end of the request's body, or of an error page, may be what was waited for. -/
theorem Inv.finishRequest {es : List Event} (h : Inv r b es s) (hnone : s.outcome = none) {e : Event} (he : e ≠ .shutdown)
    {t : Answer} (hlife : t.life = s.life) (hstop : t.stopping = s.stopping) (ht : t.outcome = none) :
    Inv r b (es ++ [e]) (httpdClientFinishRequest r t) := by
  obtain ⟨hagrees, hsame⟩ := agrees_finishRequest (r := r) ht
  refine ⟨?_, hagrees.congr ?_⟩
  · rw [hsame, hlife]
    exact h.order
  · rw [hstop, h.agrees.pending hnone]
    exact Stopped.snoc he (hsame.trans hlife)

/-- Nothing is decided by an event. -/
theorem Inv.wait {es : List Event} (h : Inv r b es s) (hnone : s.outcome = none) {e : Event} (he : e ≠ .shutdown)
    {t : Answer} (hlife : t.life = s.life) (hstop : t.stopping = s.stopping) (ht : t.outcome = none) :
    Inv r b (es ++ [e]) t := by
  refine ⟨?_, (Agrees.of_pending ht).congr ?_⟩
  · rw [hlife]
    exact h.order
  · rw [hstop, h.agrees.pending hnone]
    exact Stopped.snoc he hlife

theorem Inv.step {es : List Event} {e : Event} (h : Inv r b es s) (hs : step r s e = some s') : Inv r b (es ++ [e]) s' := by
  unfold BodyEnd.step at hs
  split at hs
  · exact absurd hs (by simp)
  rename_i hopen
  have hnone : s.outcome = none := Option.not_isSome_iff_eq_none.mp hopen
  cases e with
  | pipe e =>
      dsimp only at hs
      split at hs
      · exact absurd hs (by simp)
      · obtain ⟨life, hlife, hs⟩ := Option.bind_eq_some_iff.mp hs
        split at hs
        · exact absurd hs (by simp)
        · obtain rfl := Option.some.inj hs
          exact h.pipe hnone hlife
  | shutdown =>
      obtain rfl := Option.some.inj hs
      have hopen : (httpdClientShutdown s).outcome = none := hnone
      refine ⟨h.order, (Agrees.of_pending hopen).congr ?_⟩
      exact ⟨fun _ => .inr (.inl (List.mem_append_right _ (List.mem_singleton.mpr rfl))), fun _ => rfl⟩
  | uploadDone =>
      unfold BodyEnd.uploadDone at hs
      cases r with
      | file http item reply sent => exact absurd hs (by simp)
      | upstream client u =>
          dsimp only at hs
          split at hs
          · obtain rfl := Option.some.inj hs
            split
            · exact h.wait hnone (by simp) rfl rfl hnone
            · exact h.finishRequest hnone (by simp) rfl rfl hnone
          · exact absurd hs (by simp)
      | backend client lines socket =>
          dsimp only at hs
          split at hs
          · obtain rfl := Option.some.inj hs
            split
            · exact h.wait hnone (by simp) rfl rfl hnone
            · exact h.finishRequest hnone (by simp) rfl rfl hnone
          · exact absurd hs (by simp)
  | socketClosed =>
      cases r with
      | file http item reply sent => exact absurd hs (by simp)
      | upstream client u => exact absurd hs (by simp)
      | backend client lines socket =>
          cases socket with
          | false => exact absurd hs (by simp)
          | true =>
              dsimp only at hs
              split at hs
              · exact absurd hs (by simp)
              · obtain rfl := Option.some.inj hs
                exact h.wait hnone (by simp) rfl rfl hnone
  | errorSent =>
      dsimp only at hs
      split at hs
      · obtain rfl := Option.some.inj hs
        exact h.finishRequest hnone (by simp) rfl rfl hnone
      · exact absurd hs (by simp)

/-- A file of ten bytes, for a client that keeps its connection. -/
def keepingClient : FileClient := { peerFlags := HIN_HTTP_KEEPALIVE }

def tenBytes : FileItem := { size := 10 }

def wholeFile : FileReply where
  head := fileHead { keepingClient.toHttpdClient with count := 10 } HIN_HTTP_KEEPALIVE tenBytes
  encoder := .raw
  response := ⟨200, 10, 0, 0, 10⟩

def tenByteFile : Response := .file keepingClient tenBytes wholeFile (by decide)

def sentHead : Buffer := ⟨bytes "head", 0, 4, 0, false, by decide⟩

def fourBytes : Buffer := ⟨bytes "data", 0, 4, 0, false, by decide⟩

/-- Only four bytes of the file are left. -/
def shrunkFile : List Event :=
  [.pipe (⟨true, true⟩, .start), .pipe (⟨true, true⟩, .writeDone 4), .pipe (⟨true, true⟩, .readDone 4 { que := [fourBytes] }),
    .pipe (⟨true, true⟩, .writeDone 4), .pipe (⟨true, true⟩, .readDone 0 {})]

theorem shrunkFile_run : ∃ s, Lib.Run (step tenByteFile) (start tenByteFile { que := [sentHead] }) shrunkFile s ∧
    s.outcome = some .kept ∧ s.received = 4 := by
  have hexec : (Lib.execWith (step tenByteFile) (fun _ _ => true) (start tenByteFile { que := [sentHead] }) shrunkFile).map
      (fun s => (s.outcome, s.received)) = some (some .kept, 4) := by decide
  obtain ⟨s, hs, hresult⟩ := Option.map_eq_some_iff.mp hexec
  exact ⟨s, Lib.RunWith.of_exec (fun _ _ _ => trivial) shrunkFile hs, congrArg Prod.fst hresult, congrArg Prod.snd hresult⟩

theorem tenByteFile_short (h : s.received = 4) : Short tenByteFile s := by
  refine ⟨by decide, ?_⟩
  show s.received < 10
  omega

end BodyEnd
end Http
end Hin9
