import Hin9.Http.ForwardedLength
import Hin9.Lib.Runs

/-!
# `Http.RequestBytes` — which bytes of a connection belong to a request (`httpd_read.c`, `httpd.c`, `fcgi_post.c`, `rproxy.c`)

The head of a request is read into a line buffer, and with it whatever the client has sent behind it. Of that,
`httpd_client_read_callback` takes as much as belongs to the body of a `POST`; a pipe of the handler reads the rest from the
socket. When the response has been sent, what was taken is eaten, and the next head is looked for behind it.

Every byte is known by its place in the stream of the client. A handler that has no pipe leaves the rest of a body to the next
head, and a body that was not a `POST`'s is only known to `hin_rproxy_send`.
-/

namespace Hin9
namespace Http
namespace RequestBytes

/-! ## Requests -/

/-- What answers a request, as far as its body is concerned. -/
inductive Handler where
  | text            -- a text, a file, an error page: of a `POST` they make a `GET`
  | buffer          -- httpd_respond_buffer
  | fastcgi         -- hin_fastcgi, with a worker
  | fastcgiCached   -- hin_fastcgi, from the local cache
  | proxy           -- hin_proxy
  | proxyCached     -- hin_proxy, from the local cache
deriving Repr, DecidableEq

/-- `httpd_client_start_post`: a fastcgi request waits for its body when its worker has started to send it. -/
def Handler.startsPost : Handler → Bool
  | buffer | proxy | proxyCached => true
  | text | fastcgi | fastcgiCached => false

/-- A request that is being answered. -/
structure Request where
  lines : List Bytes           -- of its head, behind the request line
  head : Nat                   -- the length of the head
  post : Bool                  -- it is a POST
  postSz : Int := 0            -- http->post_sz
  consume : Int := 0           -- how much of the body was taken from the line buffer
  taken : Nat := 0             -- http->headers.len
  handler : Handler := .text
  forwarded : Option Int := none   -- what a pipe of the proxy has to read
  waiting : Bool := false      -- HIN_REQ_POST
  uploading : Bool := false    -- the worker has started to send the body
  piped : List Nat := []       -- what the pipes have read
  refused : Bool := false      -- `httpd_client_read_callback` has returned -1 before it has set http->headers
deriving Repr, DecidableEq

/-- A request that was answered, on a connection that was kept: the bytes taken for it, what its pipes have not read, and
    where the next head is looked for. -/
structure Answered where
  lines : List Bytes
  head : Nat
  taken : List Nat
  pending : Nat
  follows : Nat
deriving Repr, DecidableEq

inductive Phase where
  | reading (asked : Bool)     -- whether a read of the line buffer is under way
  | handling (r : Request)
  | closed
deriving Repr, DecidableEq

/-- A connection. -/
structure Conn where
  held : List Nat := []                  -- the line buffer
  next : Nat := 0                        -- how much was received
  pipes : List (Nat × Nat) := []         -- the pipes, with their request and what is left to read
  phase : Phase := .reading false
  log : List Answered := []
deriving Repr, DecidableEq

/-- `HIN_HTTPD_MAX_HEADER_SIZE`. -/
def HIN_HTTPD_MAX_HEADER_SIZE : Nat := 65000

inductive Event where
  | received (n : Nat)                                                      -- a read of the line buffer
  | callback (http : RequestFields) (memory : Bytes) (handler : Handler)    -- httpd_client_read_callback
  | upload                                                                  -- hin_fcgi_write_post, hin_rproxy_send
  | piped (i n : Nat)                                                       -- a read of a pipe
  | pipeEnd (i : Nat)                                                       -- a pipe has ended
  | error                                                                   -- httpd_error, when a worker loses its socket
  | finish                                                                  -- httpd_client_finish_request
  | close
deriving Repr

/-- The event finishes no request. -/
def Event.unfinished : Event → Bool
  | .finish => false
  | _ => true

namespace Conn

variable (stream : Nat → UInt8) (server : Server) (toTime : Bytes → Int) (s : Conn)

/-- `httpd_client_read_callback`. The fields are those that the last request has left, and behind the bytes of the buffer
    lies `memory`. -/
def httpdClientReadCallback (http : RequestFields) (memory : Bytes) (handler : Handler) : Conn :=
  let data := s.held.map stream
  if HIN_HTTPD_MAX_HEADER_SIZE ≤ data.length then { s with phase := .closed }
  else
    match requestLines (memory.headD 0) data with
    | none => { s with phase := .reading true }
    | some (texts, rest) =>
        let lines := texts.tail
        let head := (data.length - rest.len).toNat
        let post := decide (texts.head?.bind headMethod = some HIN_METHOD_POST)
        match httpdParseHeaders server toTime (memory.headD 0) (http.httpdClientClean.httpdClientStartRequest server) data with
        | .wait => { s with phase := .reading true }
        | .refused _ => { s with phase := .handling { lines, head, post, refused := true } }
        | .accepted http used =>
            if hasFlag http.peerFlags HIN_HTTP_CHUNKED_UPLOAD then
              { s with phase := .handling { lines, head, post, refused := true } }
            else
              let consume : Int := if http.method &&& HIN_METHOD_POST = 0 then 0 else min ((data.length : Int) - used) http.postSz
              let sent := hinRproxySend (headersView http data memory used).1 (headersView http data memory used).2
              { s with
                phase := .handling
                  { lines, head, post, consume, handler
                    postSz := http.postSz
                    taken := (used + consume).toNat
                    forwarded := if sent.body.isSome then some sent.rest else none
                    waiting := decide (http.method &&& HIN_METHOD_POST ≠ 0) && handler.startsPost } }

/-- The number of the request. -/
def request : Nat := s.log.length

/-- `hin_fcgi_write_post`, `hin_rproxy_send`. What `hin_fcgi_write_post` finds behind the head is taken for longer than any body
    where the head ends behind the buffer. -/
def upload : Option Conn :=
  match s.phase with
  | .handling r =>
      match r.handler with
      | .fastcgi =>
          if r.refused || r.uploading || !r.post then none
          else
            let left := if r.consume < 0 then 0 else (r.postSz - r.consume).toNat
            some { s with
              pipes := s.pipes ++ [(s.request, left)]
              phase := .handling { r with uploading := true, waiting := true } }
      | .proxy =>
          if r.refused then none
          else
            match r.forwarded with
            | some left => some { s with pipes := s.pipes ++ [(s.request, left.toNat)] }
            | none => none
      | _ => none
  | _ => none

/-- A pipe reads from the socket. -/
def readPipe (i n : Nat) : Option Conn :=
  (s.pipes[i]?).bind fun (request, left) =>
    if n = 0 ∨ left < n then none
    else
      let s' := { s with next := s.next + n, pipes := s.pipes.set i (request, left - n) }
      match s.phase with
      | .handling r =>
          if request = s.request then
            some { s' with phase := .handling { r with piped := r.piped ++ List.range' s.next n } }
          else some s'
      | _ => some s'

/-- `hin_fcgi_post_done_callback`, `hin_rproxy_post_done_callback`. -/
def pipeEnd (i : Nat) : Option Conn :=
  (s.pipes[i]?).map fun (request, _) =>
    let s' := { s with pipes := s.pipes.set i (request, 0) }
    match s.phase with
    | .handling r =>
        if request = s.request ∧ r.handler = .fastcgi then { s' with phase := .handling { r with waiting := false } } else s'
    | _ => s'

/-- What the pipes of the request have not read. -/
def pending : Nat := ((s.pipes.filter fun p => p.1 == s.request).map Prod.snd).sum

/-- What is noted of a request when its response has been sent. -/
def answered (r : Request) : Answered where
  lines := r.lines
  head := r.head
  taken := s.held.take r.taken ++ r.piped
  pending := s.pending
  follows := (s.held.drop r.taken).head?.getD s.next

/-- `httpd_client_finish_request` on a connection that is kept. Eating more than the buffer holds ends the server. -/
def httpdClientFinishRequest : Option Conn :=
  match s.phase with
  | .handling r =>
      if r.waiting || decide (s.held.length < r.taken) then none
      else
        some { s with
          held := s.held.drop r.taken
          phase := .reading false
          log := s.log ++ [s.answered r] }
  | _ => none

end Conn

/-- One event. -/
def step (stream : Nat → UInt8) (server : Server) (toTime : Bytes → Int) (s : Conn) : Event → Option Conn
  | .received n =>
      match s.phase with
      | .reading true =>
          if n = 0 then none
          else some { s with held := s.held ++ List.range' s.next n, next := s.next + n, phase := .reading false }
      | _ => none
  | .callback http memory handler =>
      match s.phase with
      | .reading false => some (s.httpdClientReadCallback stream server toTime http memory handler)
      | _ => none
  | .upload => s.upload
  | .piped i n => s.readPipe i n
  | .pipeEnd i => s.pipeEnd i
  | .error =>
      match s.phase with
      | .handling r =>
          if r.handler = .fastcgi then some { s with phase := .handling { r with waiting := false } } else none
      | _ => none
  | .finish => s.httpdClientFinishRequest
  | .close => some { s with phase := .closed }

/-! ## What is promised -/

/-- The length of the body that a head declares: every `Content-Length` has this number, and there is none if there is no
    line of that name. -/
def Declares (lines : List Bytes) (n : Nat) : Prop :=
  (∀ line ∈ lines, named contentLength line = true → Announces line n) ∧
    ((∀ line ∈ lines, named contentLength line = false) → n = 0)

/-- **The bytes of a request** that begins at `start`: its head and its body, and nothing else now or later. The next head is
    looked for behind them. -/
structure Answered.Exact (a : Answered) (start n : Nat) : Prop where
  taken : a.taken = List.range' start (a.head + n)
  ended : a.pending = 0
  follows : a.follows = start + a.head + n

/-- The bytes of all requests, the first one of which begins at `start`. -/
def Exact : Nat → List Answered → Prop
  | _, [] => True
  | start, a :: log => (∀ n, Declares a.lines n → a.Exact start n) ∧ Exact a.follows log

/-- **When a request takes its own bytes.** All of its head is in the buffer. The body of a `POST` is in the buffer as well, and
    its length is not cut, or the pipe of the worker has read the rest; another request has no body, or all of it was read by the
    pipes of the proxy, which have nothing left to read. -/
def Meets (s : Conn) (r : Request) (n : Nat) : Prop :=
  r.refused = false ∧ r.head ≤ s.held.length ∧
    if r.post then
      (n ≤ s.held.length - r.head ∧ n < 2 ^ 31) ∨
        (s.held.length - r.head < n ∧ r.piped.length = n - (s.held.length - r.head))
    else r.piped.length = n ∧ (n = 0 ∨ s.held.length = r.head) ∧ s.pending = 0

/-- A head whose lengths contradict each other says nothing of the body. It leaves no gap if its pipes have read nothing, or
    everything was taken before. -/
def Apart (s : Conn) (r : Request) : Prop := (r.piped = [] ∨ r.taken = s.held.length) ∧ s.pending = 0

/-- A request that is answered takes its own bytes. -/
def Careful (s : Conn) : Event → Prop
  | .finish => ∀ r, s.phase = .handling r →
      (∃ n, Declares r.lines n ∧ Meets s r n) ∨ ((¬∃ n, Declares r.lines n) ∧ Apart s r)
  | _ => True

/-! ## The log -/

/-- A head declares one length. -/
theorem Declares.unique {lines : List Bytes} {n m : Nat} (hn : Declares lines n) (hm : Declares lines m) : n = m := by
  by_cases hsome : ∃ line ∈ lines, named contentLength line = true
  · obtain ⟨line, hin, hname⟩ := hsome
    exact (hn.1 line hin hname).unique (hm.1 line hin hname)
  · have hnone : ∀ line ∈ lines, named contentLength line = false := by
      intro line hin
      cases hname : named contentLength line with
      | false => rfl
      | true => exact absurd ⟨line, hin, hname⟩ hsome
    rw [hn.2 hnone, hm.2 hnone]

/-- Where a request behind the log begins. -/
def endOf (start : Nat) (log : List Answered) : Nat := (log.getLast?.map Answered.follows).getD start

theorem endOf_cons (start : Nat) (a : Answered) (log : List Answered) : endOf start (a :: log) = endOf a.follows log := by
  unfold endOf
  rw [List.getLast?_cons]
  cases log.getLast? <;> rfl

theorem endOf_snoc (start : Nat) (log : List Answered) (a : Answered) : endOf start (log ++ [a]) = a.follows := by
  unfold endOf
  rw [List.getLast?_concat]
  rfl

theorem exact_snoc {start : Nat} {log : List Answered} {a : Answered} :
    Exact start (log ++ [a]) ↔ Exact start log ∧ ∀ n, Declares a.lines n → a.Exact (endOf start log) n := by
  induction log generalizing start with
  | nil =>
      show _ ∧ True ↔ True ∧ _
      rw [and_true, true_and]
      rfl
  | cons b log ih =>
      rw [List.cons_append, endOf_cons]
      show _ ∧ Exact b.follows (log ++ [a]) ↔ (_ ∧ Exact b.follows log) ∧ _
      rw [ih, and_assoc]

/-! ## The pipes -/

/-- What the pipes of request `k` have left. -/
def owed (k : Nat) (pipes : List (Nat × Nat)) : Nat := ((pipes.filter fun p => p.1 == k).map Prod.snd).sum

theorem owed_cons (k : Nat) (p : Nat × Nat) (pipes : List (Nat × Nat)) :
    owed k (p :: pipes) = (if p.1 = k then p.2 else 0) + owed k pipes := by
  unfold owed
  by_cases hk : p.1 = k
  · rw [List.filter_cons, if_pos (beq_iff_eq.mpr hk), List.map_cons, List.sum_cons, if_pos hk]
  · rw [List.filter_cons, if_neg (by simpa using hk), if_neg hk, Nat.zero_add]

theorem owed_snoc (k left : Nat) (pipes : List (Nat × Nat)) : owed k (pipes ++ [(k, left)]) = owed k pipes + left := by
  induction pipes with
  | nil =>
      rw [List.nil_append, owed_cons, if_pos rfl]
      exact Nat.add_comm left 0
  | cons p pipes ih =>
      rw [List.cons_append, owed_cons, owed_cons, ih]
      omega

/-- What a pipe of the request has left counts. -/
theorem owed_set {k left left' i : Nat} {pipes : List (Nat × Nat)} (h : pipes[i]? = some (k, left)) :
    owed k (pipes.set i (k, left')) + left = owed k pipes + left' := by
  induction pipes generalizing i with
  | nil => exact absurd h (by simp)
  | cons p pipes ih =>
      cases i with
      | zero =>
          obtain rfl := Option.some.inj h
          rw [List.set_cons_zero, owed_cons, owed_cons, if_pos rfl, if_pos rfl]
          omega
      | succ i =>
          rw [List.set_cons_succ, owed_cons, owed_cons]
          have := ih h
          omega

/-- A pipe that has ended has nothing left. -/
theorem owed_set_le {k q left i : Nat} {pipes : List (Nat × Nat)} (h : pipes[i]? = some (q, left)) :
    owed k (pipes.set i (q, 0)) ≤ owed k pipes := by
  induction pipes generalizing i with
  | nil => exact absurd h (by simp)
  | cons p pipes ih =>
      cases i with
      | zero =>
          obtain rfl := Option.some.inj h
          rw [List.set_cons_zero, owed_cons, owed_cons, ite_self]
          omega
      | succ i =>
          rw [List.set_cons_succ, owed_cons, owed_cons]
          have := ih h
          omega

theorem owed_eq_zero {k : Nat} {pipes : List (Nat × Nat)} (h : owed k pipes = 0) : ∀ p ∈ pipes, p.1 = k → p.2 = 0 := by
  induction pipes with
  | nil => exact fun p hp => absurd hp List.not_mem_nil
  | cons q pipes ih =>
      rw [owed_cons] at h
      intro p hp hk
      rcases List.mem_cons.mp hp with rfl | hin
      · rw [if_pos hk] at h
        omega
      · exact ih (by omega) p hin hk

theorem owed_of_zero {k : Nat} {pipes : List (Nat × Nat)} (h : ∀ p ∈ pipes, p.2 = 0) : owed k pipes = 0 := by
  induction pipes with
  | nil => rfl
  | cons q pipes ih =>
      rw [owed_cons, h q List.mem_cons_self, ih fun p hp => h p (List.mem_cons_of_mem q hp), ite_self]

/-! ## A request that is begun -/

/-- What is settled of a request when its head is read, of which the buffer holds `held` bytes. -/
structure Request.Framed (r : Request) (held : Nat) : Prop where
  head_pos : 0 < r.head
  refused : r.refused = true → r.taken = 0
  head : r.refused = false → r.head ≤ held + 1
  taken : r.refused = false → r.taken = (r.head + r.consume).toNat
  other : r.refused = false → r.post = false → r.consume = 0
  posted : r.refused = false → r.post = true → 0 ≤ r.postSz ∧ r.consume = min ((held : Int) - r.head) r.postSz ∧
    ∀ n, Declares r.lines n → r.postSz = max (atoiNat n) 0

/-- The request has had no pipe yet. -/
structure Request.Begun (r : Request) (held : Nat) : Prop where
  framed : r.Framed held
  piped : r.piped = []
  uploading : r.uploading = false
  stuck : r.refused = false → r.post = true → r.handler.startsPost = true → r.waiting = true
  plain : r.refused = true → r.handler = .text

section

variable {stream : Nat → UInt8} {server : Server} {toTime : Bytes → Int}

/-- A request starts with no flags. -/
theorem started_flags (http : RequestFields) : (http.httpdClientClean.httpdClientStartRequest server).peerFlags = 0 := rfl

/-- The head of an accepted request, and its length. -/
theorem accepted_head {behind : UInt8} {http http' : RequestFields} {data : Bytes} {used : Nat} {texts : List Bytes}
    {rest : Source} (h : httpdParseHeaders server toTime behind http data = .accepted http' used)
    (hlines : requestLines behind data = some (texts, rest)) :
    ∃ first lines method, texts = first :: lines ∧ headMethod first = some method ∧ http'.method = method ∧
      (method = HIN_METHOD_POST ∨ method ≠ HIN_METHOD_POST ∧ method &&& HIN_METHOD_POST = 0) ∧ 0 ≤ http'.postSz ∧
      used = (data.length - rest.len).toNat := by
  obtain ⟨first, lines, rest', method, read, hacc⟩ := httpdParseHeaders_accepted h
  obtain ⟨rfl, rfl⟩ := Prod.mk.inj (Option.some.inj (hlines.symm.trans hacc.found))
  obtain ⟨path, ver0, hrequest, hread⟩ := hacc.request
  have hmethod : headMethod first = some method := by
    rw [headMethod, hrequest]
    rfl
  have hknown : method = HIN_METHOD_POST ∨ method ≠ HIN_METHOD_POST ∧ method &&& HIN_METHOD_POST = 0 := by
    unfold hinHttpParseHeaderLine at hrequest
    obtain ⟨n, -, hrequest⟩ := Option.map_eq_some_iff.mp hrequest
    exact methodNumber_post (congrArg RequestLine.method hrequest)
  refine ⟨first, lines, method, rfl, hmethod, ?_, hknown, hacc.settled ▸ settlePost_nonneg read, hacc.used⟩
  rw [hacc.settled]
  rcases hknown with rfl | ⟨hother, -⟩
  · exact (parseLines_posted rfl hread).1
  · exact (parseLines_other hother hread).1

/-- What is left behind the blank line of a head. -/
theorem requestLines_len {behind : UInt8} {data : Bytes} {texts : List Bytes} {rest : Source}
    (h : requestLines behind data = some (texts, rest)) : rest.len < data.length ∧ -1 ≤ rest.len := by
  have hhead : behind = [behind].headD 0 := rfl
  rw [requestLines, hhead, headTexts_lines] at h
  obtain ⟨⟨found, rest'⟩, hfound, heq⟩ := Option.map_eq_some_iff.mp h
  obtain ⟨-, rfl⟩ := Prod.mk.inj heq
  refine ⟨headTexts_len hfound, ?_⟩
  unfold Source.len
  split <;> omega

/-- **The length of a `POST` that is taken** is the number its head declares, as far as an `int` holds it. -/
theorem accepted_declares {behind : UInt8} {http http' : RequestFields} {data : Bytes} {used : Nat} {first : Bytes}
    {lines : List Bytes} {rest : Source} (hclean : http.peerFlags = 0)
    (h : httpdParseHeaders server toTime behind http data = .accepted http' used)
    (hlines : requestLines behind data = some (first :: lines, rest)) (hpost : headMethod first = some HIN_METHOD_POST)
    (hplain : hasFlag http'.peerFlags HIN_HTTP_CHUNKED_UPLOAD = false) {n : Nat} (hn : Declares lines n) :
    http'.postSz = max (atoiNat n) 0 := by
  obtain ⟨-, -, hsz⟩ := accepted_post hclean h hlines hpost
  have hask : ¬lines.any asksChunked = true := by
    rw [← accepted_chunked hclean h hlines hpost, hplain]
    exact Bool.false_ne_true
  rw [if_neg hask] at hsz
  obtain ⟨last, hlast, hsz⟩ := hsz
  obtain ⟨hin, hread⟩ := lastRead_mem hlast
  have hname := named_of_readsPostLength hread
  obtain ⟨v, hv⟩ := Option.isSome_iff_exists.mp hname
  rw [hsz, postLength_eq hread hv, (hn.1 last hin hname).atoi hv]

variable (stream server toTime) in
/-- **What the callback makes of the buffer**: it waits for more, closes, or begins a request. -/
theorem callback_phase (s : Conn) (http : RequestFields) (memory : Bytes) (handler : Handler) :
    ∃ phase, s.httpdClientReadCallback stream server toTime http memory handler = { s with phase } ∧
      (phase = .closed ∨ phase = .reading true ∨ ∃ r, phase = .handling r ∧ r.Begun s.held.length) := by
  unfold Conn.httpdClientReadCallback
  dsimp only
  split
  · exact ⟨_, rfl, .inl rfl⟩
  cases hlines : requestLines (memory.headD 0) (s.held.map stream) with
  | none => exact ⟨_, rfl, .inr (.inl rfl)⟩
  | some found =>
      obtain ⟨texts, rest⟩ := found
      obtain ⟨hleft, hbeyond⟩ := requestLines_len hlines
      have hlength : (s.held.map stream).length = s.held.length := List.length_map _
      rw [hlength] at hleft
      -- a refused head takes nothing from the buffer
      have hrefused : Request.Begun
          { lines := texts.tail, head := (((s.held.map stream).length : Int) - rest.len).toNat,
            post := decide (texts.head?.bind headMethod = some HIN_METHOD_POST), refused := true } s.held.length := by
        refine ⟨⟨?_, fun _ => rfl, ?_, ?_, ?_, ?_⟩, rfl, rfl, ?_, fun _ => rfl⟩
        · show 0 < (((s.held.map stream).length : Int) - rest.len).toNat
          omega
        all_goals exact fun h => absurd h.symm Bool.false_ne_true
      cases hparsed : httpdParseHeaders server toTime (memory.headD 0)
          (http.httpdClientClean.httpdClientStartRequest server) (s.held.map stream) with
      | wait => exact ⟨_, rfl, .inr (.inl rfl)⟩
      | refused status => exact ⟨_, rfl, .inr (.inr ⟨_, rfl, hrefused⟩)⟩
      | accepted http' used =>
          dsimp only
          by_cases hchunked : hasFlag http'.peerFlags HIN_HTTP_CHUNKED_UPLOAD = true
          · rw [if_pos hchunked]
            exact ⟨_, rfl, .inr (.inr ⟨_, rfl, hrefused⟩)⟩
          rw [if_neg hchunked]
          rw [Bool.not_eq_true] at hchunked
          obtain ⟨first, lines, method, rfl, hfirst, hmethod, hknown, hsz, hused⟩ := accepted_head hparsed hlines
          refine ⟨_, rfl, .inr (.inr ⟨_, rfl, ⟨⟨?_, ?_, ?_, ?_, ?_, ?_⟩, rfl, rfl, ?_, ?_⟩⟩)⟩
          · show 0 < (((s.held.map stream).length : Int) - rest.len).toNat
            omega
          · exact fun h => absurd h Bool.false_ne_true
          · intro _
            show (((s.held.map stream).length : Int) - rest.len).toNat ≤ s.held.length + 1
            omega
          · intro _
            show (used + _ : Int).toNat = ((((s.held.map stream).length : Int) - rest.len).toNat + _ : Int).toNat
            rw [hused]
          · -- another method has no body
            intro _ hpost
            have hother : method &&& HIN_METHOD_POST = 0 := by
              rcases hknown with rfl | ⟨-, hbit⟩
              · have hyes : decide ((first :: lines).head?.bind headMethod = some HIN_METHOD_POST) = true :=
                  decide_eq_true hfirst
                exact absurd (hyes.symm.trans hpost) (by simp)
              · exact hbit
            show (if http'.method &&& HIN_METHOD_POST = 0 then (0 : Int) else _) = 0
            rw [hmethod, if_pos hother]
          · intro _ hpost
            have hfirst' : headMethod first = some HIN_METHOD_POST := of_decide_eq_true hpost
            obtain rfl : method = HIN_METHOD_POST := Option.some.inj (hfirst.symm.trans hfirst')
            refine ⟨hsz, ?_, ?_⟩
            · show (if http'.method &&& HIN_METHOD_POST = 0 then (0 : Int) else _) = min _ _
              rw [hmethod, if_neg (by decide), hused, hlength]
            · intro n hn
              exact accepted_declares (started_flags http) hparsed hlines hfirst hchunked hn
          · intro _ hpost hstarts
            have hfirst' : headMethod first = some HIN_METHOD_POST := of_decide_eq_true hpost
            obtain rfl : method = HIN_METHOD_POST := Option.some.inj (hfirst.symm.trans hfirst')
            show (decide (http'.method &&& HIN_METHOD_POST ≠ 0) && handler.startsPost) = true
            rw [hmethod]
            exact hstarts
          · exact fun h => absurd h Bool.false_ne_true

end

/-! ## A request that is answered -/

/-- How much of the body of a `POST` the pipe of its worker may read. -/
def Request.room (r : Request) : Nat := if r.consume < 0 then 0 else (r.postSz - r.consume).toNat

/-- **A request that is being answered**: the buffer and the pipes hold the stream without a gap. -/
structure Handled (s : Conn) (r : Request) : Prop where
  framed : r.Framed s.held.length
  held : s.held = List.range' (endOf 0 s.log) s.held.length
  piped : r.piped = List.range' (endOf 0 s.log + s.held.length) r.piped.length
  next : s.next = endOf 0 s.log + s.held.length + r.piped.length
  idle : r.uploading = false → r.post = true → r.handler.startsPost = false → r.piped.length + s.pending = 0
  room : r.post = true → r.handler.startsPost = false → r.piped.length + s.pending ≤ r.room
  stuck : r.refused = false → r.post = true → r.handler.startsPost = true → r.waiting = true
  plain : r.refused = true → r.handler = .text ∧ r.piped.length + s.pending = 0
  others : ∀ p ∈ s.pipes, p.1 ≠ s.request → p.2 = 0

section

variable {s : Conn} {r : Request} {n : Nat}

theorem answered_taken (h : Handled s r) (hlong : r.taken ≤ s.held.length) :
    (s.answered r).taken = List.range' (endOf 0 s.log) r.taken ++
      List.range' (endOf 0 s.log + s.held.length) r.piped.length := by
  show s.held.take r.taken ++ r.piped = _
  rw [h.held, h.piped, List.length_range', List.length_range', List.take_range'_of_length_ge (by simpa using hlong)]

theorem answered_follows (h : Handled s r) (hlong : r.taken ≤ s.held.length) :
    (s.answered r).follows =
      if r.taken = s.held.length then endOf 0 s.log + s.held.length + r.piped.length else endOf 0 s.log + r.taken := by
  show (s.held.drop r.taken).head?.getD s.next = _
  rw [h.next, h.held, List.length_range', List.drop_range', List.head?_range', Nat.mul_one]
  by_cases hall : r.taken = s.held.length
  · rw [if_pos hall, if_pos (by omega)]
    rfl
  · rw [if_neg hall, if_neg (by omega)]
    rfl

/-- Two stretches of the stream are one exactly if there is no gap between them. -/
theorem stretches_iff {b k l t m : Nat} :
    List.range' b k ++ List.range' (b + l) t = List.range' b m ↔ k + t = m ∧ (t = 0 ∨ k = l) := by
  constructor
  · intro h
    have hlength := congrArg List.length h
    rw [List.length_append, List.length_range', List.length_range', List.length_range'] at hlength
    refine ⟨hlength, ?_⟩
    rw [← hlength, ← List.range'_append_1, List.append_cancel_left_eq, List.range'_inj] at h
    omega
  · rintro ⟨rfl, hgap⟩
    rw [← List.range'_append_1, List.append_cancel_left_eq, List.range'_inj]
    omega

/-- **The bytes taken are the declared ones** exactly if their number is right and there is no gap between what was in the buffer
    and what the pipes have read. -/
theorem answered_exact_iff (h : Handled s r) (hlong : r.taken ≤ s.held.length) :
    (s.answered r).Exact (endOf 0 s.log) n ↔ r.taken + r.piped.length = r.head + n ∧
      (r.piped.length = 0 ∨ r.taken = s.held.length) ∧ s.pending = 0 := by
  constructor
  · intro hexact
    have htaken := hexact.taken
    rw [answered_taken h hlong, stretches_iff] at htaken
    exact ⟨htaken.1, htaken.2, hexact.ended⟩
  · rintro ⟨hlength, hgap, hended⟩
    refine ⟨?_, hended, ?_⟩
    · rw [answered_taken h hlong]
      exact stretches_iff.mpr ⟨hlength, hgap⟩
    · rw [answered_follows h hlong]
      show _ = endOf 0 s.log + r.head + n
      split <;> omega

/-- **The condition of a request.** -/
theorem meets_iff (h : Handled s r) (hlong : r.taken ≤ s.held.length) (hdone : r.waiting = false)
    (hn : Declares r.lines n) : (s.answered r).Exact (endOf 0 s.log) n ↔ Meets s r n := by
  rw [answered_exact_iff h hlong]
  have hpos := h.framed.head_pos
  cases hrefused : r.refused with
  | true =>
      -- nothing is taken for a refused head
      have hnone := h.framed.refused hrefused
      have hempty := (h.plain hrefused).2
      constructor
      · rintro ⟨hlength, -⟩
        omega
      · intro hmeets
        exact absurd (hrefused.symm.trans hmeets.1) (by simp)
  | false =>
      have htaken := h.framed.taken hrefused
      unfold Meets
      rw [hrefused, eq_self, true_and]
      cases hpost : r.post with
      | false =>
          rw [h.framed.other hrefused hpost, Int.add_zero, Int.toNat_natCast] at htaken
          rw [if_neg Bool.false_ne_true, htaken]
          omega
      | true =>
          obtain ⟨hsz, hconsume, hdeclared⟩ := h.framed.posted hrefused hpost
          have hstarts : r.handler.startsPost = false := by
            rw [← Bool.not_eq_true]
            intro hstarts
            exact absurd ((h.stuck hrefused hpost hstarts).symm.trans hdone) (by simp)
          have hroom := h.room hpost hstarts
          have hkept := atoiNat_eq_iff n
          have hbelow := atoiNat_le n
          have hhead := h.framed.head hrefused
          have hbody := hdeclared n hn
          rw [if_pos rfl]
          unfold Request.room at hroom
          split at hroom
          · omega
          · omega

end

/-! ## Runs -/

/-- **The invariant.** While a head is read nothing but the line buffer reads from the socket. -/
def Sound (s : Conn) : Prop :=
  match s.phase with
  | .reading _ => s.held = List.range' (endOf 0 s.log) s.held.length ∧ s.next = endOf 0 s.log + s.held.length ∧
      ∀ p ∈ s.pipes, p.2 = 0
  | .handling r => Handled s r
  | .closed => True

section

variable {stream : Nat → UInt8} {server : Server} {toTime : Bytes → Int} {s s' : Conn} {r : Request} {n : Nat}

theorem sound_reading {asked : Bool} (hphase : s.phase = .reading asked) (h : Sound s) :
    s.held = List.range' (endOf 0 s.log) s.held.length ∧ s.next = endOf 0 s.log + s.held.length ∧ ∀ p ∈ s.pipes, p.2 = 0 := by
  unfold Sound at h
  rw [hphase] at h
  exact h

theorem sound_handling (hphase : s.phase = .handling r) (h : Sound s) : Handled s r := by
  unfold Sound at h
  rw [hphase] at h
  exact h

/-- What the socket has is read into the buffer. -/
theorem sound_received {asked : Bool} (hphase : s.phase = .reading asked) (h : Sound s) (n : Nat) :
    Sound { s with held := s.held ++ List.range' s.next n, next := s.next + n, phase := .reading false } := by
  obtain ⟨hheld, hnext, hpipes⟩ := sound_reading hphase h
  refine ⟨?_, ?_, hpipes⟩
  · show s.held ++ List.range' s.next n = List.range' (endOf 0 s.log) (s.held ++ List.range' s.next n).length
    rw [List.length_append, List.length_range', ← List.range'_append_1, ← hheld, ← hnext]
  · show s.next + n = endOf 0 s.log + (s.held ++ List.range' s.next n).length
    rw [List.length_append, List.length_range', hnext]
    omega

/-- A request that is begun. -/
theorem sound_begun {asked : Bool} (hphase : s.phase = .reading asked) (h : Sound s) (hbegun : r.Begun s.held.length) :
    Sound { s with phase := .handling r } := by
  obtain ⟨hheld, hnext, hpipes⟩ := sound_reading hphase h
  have hpending : s.pending = 0 := owed_of_zero hpipes
  have hnone : r.piped.length + s.pending = 0 := by rw [hbegun.piped, hpending]; rfl
  have hroom : r.piped.length + s.pending ≤ r.room := hnone ▸ Nat.zero_le _
  refine ⟨hbegun.framed, hheld, ?_, ?_, fun _ _ _ => hnone, fun _ _ => hroom, hbegun.stuck,
    fun hrefused => ⟨hbegun.plain hrefused, hnone⟩, fun p hp _ => hpipes p hp⟩
  · rw [hbegun.piped]
    rfl
  · rw [hbegun.piped]
    exact hnext

theorem sound_callback {asked : Bool} (hphase : s.phase = .reading asked) (h : Sound s) (http : RequestFields) (memory : Bytes)
    (handler : Handler) : Sound (s.httpdClientReadCallback stream server toTime http memory handler) := by
  obtain ⟨phase, heq, hcase⟩ := callback_phase stream server toTime s http memory handler
  rw [heq]
  rcases hcase with rfl | rfl | ⟨r, rfl, hbegun⟩
  · trivial
  · obtain ⟨hheld, hnext, hpipes⟩ := sound_reading hphase h
    exact ⟨hheld, hnext, hpipes⟩
  · exact sound_begun hphase h hbegun

/-- A pipe of the request is made, or has read. -/
theorem Handled.pipes (h : Handled s r) {pipes : List (Nat × Nat)} (hothers : ∀ p ∈ pipes, p.1 ≠ s.request → p.2 = 0)
    (more : List Nat) (hmore : more = List.range' s.next more.length) (waiting uploading : Bool)
    (hidle : uploading = false → r.post = true → r.handler.startsPost = false →
      (r.piped ++ more).length + owed s.request pipes = 0)
    (hroom : r.post = true → r.handler.startsPost = false → (r.piped ++ more).length + owed s.request pipes ≤ r.room)
    (hstuck : r.refused = false → r.post = true → r.handler.startsPost = true → waiting = true)
    (hplain : r.refused = true → (r.piped ++ more).length + owed s.request pipes = 0) :
    Sound { s with
      next := s.next + more.length
      pipes
      phase := .handling { r with piped := r.piped ++ more, waiting, uploading } } := by
  refine ⟨⟨h.framed.head_pos, h.framed.refused, h.framed.head, h.framed.taken, h.framed.other, h.framed.posted⟩, h.held, ?_, ?_,
    hidle, hroom, hstuck, fun hrefused => ⟨(h.plain hrefused).1, hplain hrefused⟩, hothers⟩
  · show r.piped ++ more = List.range' (endOf 0 s.log + s.held.length) (r.piped ++ more).length
    rw [List.length_append, ← List.range'_append_1, ← h.piped, ← h.next, ← hmore]
  · show s.next + more.length = endOf 0 s.log + s.held.length + (r.piped ++ more).length
    rw [List.length_append, h.next]
    omega

/-- A new pipe reads what is left of the body. -/
theorem sound_upload (h : Sound s) (hs : s.upload = some s') : Sound s' := by
  unfold Conn.upload at hs
  split at hs
  rotate_left
  · exact absurd hs (by simp)
  rename_i r hphase
  have hr := sound_handling hphase h
  have hothers : ∀ left, ∀ p ∈ s.pipes ++ [(s.request, left)], p.1 ≠ s.request → p.2 = 0 := by
    intro left p hp hne
    rcases List.mem_append.mp hp with hold | hnew
    · exact hr.others p hold hne
    · obtain rfl := List.mem_singleton.mp hnew
      exact absurd rfl hne
  split at hs
  · rename_i hhandler
    split at hs
    · exact absurd hs (by simp)
    rename_i hfree
    simp only [Bool.or_eq_true, not_or, Bool.not_eq_true, Bool.not_eq_true', Bool.not_eq_false] at hfree
    obtain ⟨⟨hrefused, huploading⟩, hpost⟩ := hfree
    have hstarts : r.handler.startsPost = false := by
      rw [hhandler]
      rfl
    have hnone := hr.idle huploading hpost hstarts
    have howed : ∀ left, owed s.request (s.pipes ++ [(s.request, left)]) = s.pending + left := fun left => owed_snoc _ _ _
    obtain rfl := Option.some.inj hs
    have hsound := hr.pipes (hothers r.room) [] rfl true true
      (fun hno => absurd hno.symm Bool.false_ne_true)
      (fun _ _ => by rw [howed, List.append_nil]; omega) (fun _ _ _ => rfl)
      (fun hyes => absurd (hyes.symm.trans hrefused) (by simp))
    rw [List.append_nil] at hsound
    exact hsound
  · rename_i hhandler
    split at hs
    · exact absurd hs (by simp)
    rename_i hfree
    rw [Bool.not_eq_true] at hfree
    split at hs
    rotate_left
    · exact absurd hs (by simp)
    rename_i left hleft
    have hstarts : r.handler.startsPost = true := by
      rw [hhandler]
      rfl
    obtain rfl := Option.some.inj hs
    have hsound := hr.pipes (hothers left.toNat) [] rfl r.waiting r.uploading
      (fun _ _ hno => absurd (hstarts.symm.trans hno) (by simp))
      (fun _ hno => absurd (hstarts.symm.trans hno) (by simp)) hr.stuck
      (fun hyes => absurd (hyes.symm.trans hfree) (by simp))
    rw [List.append_nil] at hsound
    unfold Sound
    rw [hphase]
    exact hsound
  · exact absurd hs (by simp)

theorem upload_log (hs : s.upload = some s') : s'.log = s.log := by
  unfold Conn.upload at hs
  split at hs
  rotate_left
  · exact absurd hs (by simp)
  split at hs
  · split at hs
    · exact absurd hs (by simp)
    · obtain rfl := Option.some.inj hs
      rfl
  · split at hs
    · exact absurd hs (by simp)
    · split at hs
      · obtain rfl := Option.some.inj hs
        rfl
      · exact absurd hs (by simp)
  · exact absurd hs (by simp)

theorem readPipe_log {i : Nat} (hs : s.readPipe i n = some s') : s'.log = s.log := by
  unfold Conn.readPipe at hs
  obtain ⟨⟨q, left⟩, -, hs⟩ := Option.bind_eq_some_iff.mp hs
  dsimp only at hs
  split at hs
  · exact absurd hs (by simp)
  · split at hs
    · split at hs <;> obtain rfl := Option.some.inj hs <;> rfl
    · obtain rfl := Option.some.inj hs
      rfl

theorem pipeEnd_log {i : Nat} (hs : s.pipeEnd i = some s') : s'.log = s.log := by
  unfold Conn.pipeEnd at hs
  obtain ⟨⟨q, left⟩, -, rfl⟩ := Option.map_eq_some_iff.mp hs
  dsimp only
  split
  · split <;> rfl
  · rfl

/-- The pipes of other requests have nothing left, whatever becomes of one of them. -/
theorem others_set {k i left left' : Nat} {pipes : List (Nat × Nat)} {q : Nat} (h : ∀ p ∈ pipes, p.1 ≠ k → p.2 = 0)
    (hq : pipes[i]? = some (q, left)) (hle : left' ≤ left) : ∀ p ∈ pipes.set i (q, left'), p.1 ≠ k → p.2 = 0 := by
  intro p hp hne
  rcases List.mem_or_eq_of_mem_set hp with hold | rfl
  · exact h p hold hne
  · have := h _ (List.mem_of_getElem? hq) hne
    exact Nat.le_zero.mp (this ▸ hle)

/-- A pipe that reads is one of the request that is being answered. -/
theorem sound_readPipe (h : Sound s) {i : Nat} (hs : s.readPipe i n = some s') : Sound s' := by
  unfold Conn.readPipe at hs
  obtain ⟨⟨q, left⟩, hq, hs⟩ := Option.bind_eq_some_iff.mp hs
  dsimp only at hs
  split at hs
  · exact absurd hs (by simp)
  rename_i hsome
  cases hphase : s.phase with
  | reading asked =>
      -- no pipe has anything left to read
      have hzero : left = 0 := (sound_reading hphase h).2.2 _ (List.mem_of_getElem? hq)
      omega
  | closed =>
      rw [hphase] at hs
      obtain rfl := Option.some.inj hs
      trivial
  | handling r =>
      have hr := sound_handling hphase h
      have hown : q = s.request := by
        by_contra hne
        have hzero : left = 0 := hr.others _ (List.mem_of_getElem? hq) hne
        omega
      subst hown
      rw [hphase] at hs
      dsimp only at hs
      rw [if_pos rfl] at hs
      obtain rfl := Option.some.inj hs
      have hset : owed s.request (s.pipes.set i (s.request, left - n)) + left = s.pending + (left - n) := owed_set hq
      have hlength : (r.piped ++ List.range' s.next n).length = r.piped.length + n := by
        rw [List.length_append, List.length_range']
      -- what has been read is no longer left
      have hkeeps : (r.piped ++ List.range' s.next n).length + owed s.request (s.pipes.set i (s.request, left - n)) =
          r.piped.length + s.pending := by omega
      have hsound := hr.pipes (others_set hr.others hq (Nat.sub_le left n)) (List.range' s.next n)
        (by rw [List.length_range']) r.waiting r.uploading
        (fun hno hpost hstarts => hkeeps.trans (hr.idle hno hpost hstarts))
        (fun hpost hstarts => hkeeps ▸ hr.room hpost hstarts) hr.stuck
        (fun hrefused => hkeeps.trans (hr.plain hrefused).2)
      rw [List.length_range'] at hsound
      exact hsound

/-- A pipe that has ended reads nothing more. -/
theorem sound_pipeEnd (h : Sound s) {i : Nat} (hs : s.pipeEnd i = some s') : Sound s' := by
  unfold Conn.pipeEnd at hs
  obtain ⟨⟨q, left⟩, hq, hs⟩ := Option.map_eq_some_iff.mp hs
  dsimp only at hs
  cases hphase : s.phase with
  | reading asked =>
      rw [hphase] at hs
      obtain rfl := hs
      obtain ⟨hheld, hnext, hpipes⟩ := sound_reading hphase h
      refine ⟨hheld, hnext, fun p hp => ?_⟩
      rcases List.mem_or_eq_of_mem_set hp with hold | rfl
      · exact hpipes p hold
      · rfl
  | closed =>
      rw [hphase] at hs
      obtain rfl := hs
      trivial
  | handling r =>
      have hr := sound_handling hphase h
      rw [hphase] at hs
      dsimp only at hs
      have hothers := others_set hr.others hq (Nat.zero_le left)
      have hless : owed s.request (s.pipes.set i (q, 0)) ≤ s.pending := owed_set_le hq
      have hkeeps : (r.piped ++ []).length + owed s.request (s.pipes.set i (q, 0)) ≤ r.piped.length + s.pending := by
        rw [List.append_nil]
        omega
      -- only the body of a worker is waited for
      have hsound : ∀ waiting, (r.refused = false → r.post = true → r.handler.startsPost = true → waiting = true) →
          Sound { s with pipes := s.pipes.set i (q, 0), phase := .handling { r with waiting } } := by
        intro waiting hstuck
        have hsound := hr.pipes hothers [] rfl waiting r.uploading
          (fun hno hpost hstarts => Nat.le_zero.mp (hr.idle hno hpost hstarts ▸ hkeeps))
          (fun hpost hstarts => hkeeps.trans (hr.room hpost hstarts)) hstuck
          (fun hrefused => Nat.le_zero.mp ((hr.plain hrefused).2 ▸ hkeeps))
        rw [List.append_nil] at hsound
        exact hsound
      split at hs
      · rename_i hworker
        obtain rfl := hs
        refine hsound false fun _ _ hstarts => ?_
        rw [hworker.2] at hstarts
        exact hstarts
      · obtain rfl := hs
        exact hsound r.waiting hr.stuck

/-- A worker that has lost its socket is waited for no longer. -/
theorem sound_error (hphase : s.phase = .handling r) (h : Sound s) (hhandler : r.handler = .fastcgi) :
    Sound { s with phase := .handling { r with waiting := false } } := by
  have hr := sound_handling hphase h
  have hkeeps : (r.piped ++ []).length + owed s.request s.pipes = r.piped.length + s.pending := by
    rw [List.append_nil]
    rfl
  have hsound := hr.pipes hr.others [] rfl false r.uploading
    (fun hno hpost hstarts => hkeeps.trans (hr.idle hno hpost hstarts))
    (fun hpost hstarts => hkeeps ▸ hr.room hpost hstarts)
    (fun _ _ hstarts => by rw [hhandler] at hstarts; exact hstarts)
    (fun hrefused => hkeeps.trans (hr.plain hrefused).2)
  rw [List.append_nil] at hsound
  exact hsound

/-- The request that is finished, and what is left of the buffer. -/
theorem finish_cases (hs : s.httpdClientFinishRequest = some s') :
    ∃ r, s.phase = .handling r ∧ r.waiting = false ∧ r.taken ≤ s.held.length ∧
      s' = { s with held := s.held.drop r.taken, phase := .reading false, log := s.log ++ [s.answered r] } := by
  unfold Conn.httpdClientFinishRequest at hs
  split at hs
  rotate_left
  · exact absurd hs (by simp)
  rename_i r hphase
  split at hs
  · exact absurd hs (by simp)
  rename_i hfree
  simp only [Bool.or_eq_true, decide_eq_true_eq, not_or, Bool.not_eq_true, not_lt] at hfree
  exact ⟨r, hphase, hfree.1, hfree.2, (Option.some.inj hs).symm⟩

/-- A request that takes its own bytes leaves no gap. -/
theorem meets_apart (h : Handled s r) (hlong : r.taken ≤ s.held.length) (hdone : r.waiting = false)
    (hn : Declares r.lines n) (hmeets : Meets s r n) : Apart s r := by
  obtain ⟨-, hgap, hended⟩ := (answered_exact_iff h hlong).mp ((meets_iff h hlong hdone hn).mpr hmeets)
  exact ⟨hgap.imp_left List.length_eq_zero_iff.mp, hended⟩

/-- **The next head is looked for behind the request**: there the buffer goes on, and no pipe reads any more. -/
theorem sound_finish (h : Handled s r) (hlong : r.taken ≤ s.held.length) (hapart : Apart s r) :
    Sound { s with held := s.held.drop r.taken, phase := .reading false, log := s.log ++ [s.answered r] } := by
  have hfollows := answered_follows h hlong
  have hdrop : s.held.drop r.taken = List.range' (endOf 0 s.log + r.taken) (s.held.length - r.taken) := by
    rw [h.held, List.drop_range', List.length_range', Nat.mul_one]
  have hlength : (s.held.drop r.taken).length = s.held.length - r.taken := List.length_drop
  obtain ⟨hgap, hended⟩ := hapart
  refine ⟨?_, ?_, ?_⟩
  · show s.held.drop r.taken = List.range' (endOf 0 (s.log ++ [s.answered r])) (s.held.drop r.taken).length
    rw [endOf_snoc, hfollows, hlength, hdrop]
    by_cases hall : r.taken = s.held.length
    · rw [hall, Nat.sub_self]
      rfl
    · rw [if_neg hall]
  · show s.next = endOf 0 (s.log ++ [s.answered r]) + (s.held.drop r.taken).length
    rw [endOf_snoc, hfollows, hlength, h.next]
    rcases hgap with hnone | hall
    · rw [hnone, List.length_nil]
      split <;> omega
    · rw [if_pos hall]
      omega
  · intro p hp
    by_cases hown : p.1 = s.request
    · exact owed_eq_zero hended p hp hown
    · exact h.others p hp hown

/-- The log of a request that is finished. -/
theorem finish_exact_iff (hlog : Exact 0 s.log) (h : Handled s r) (hlong : r.taken ≤ s.held.length) (hdone : r.waiting = false)
    (hn : Declares r.lines n) : Exact 0 (s.log ++ [s.answered r]) ↔ Meets s r n := by
  rw [exact_snoc, ← meets_iff h hlong hdone hn]
  constructor
  · rintro ⟨-, hall⟩
    exact hall n hn
  · intro hexact
    refine ⟨hlog, fun m hm => ?_⟩
    obtain rfl := hn.unique hm
    exact hexact

/-- **What one step keeps.** -/
theorem sound_step {e : Event} (hlog : Exact 0 s.log) (h : Sound s) (hcareful : Careful s e)
    (hs : step stream server toTime s e = some s') : Exact 0 s'.log ∧ Sound s' := by
  cases e with
  | received n =>
      unfold step at hs
      dsimp only at hs
      split at hs
      rotate_left
      · exact absurd hs (by simp)
      rename_i hphase
      split at hs
      · exact absurd hs (by simp)
      · obtain rfl := Option.some.inj hs
        exact ⟨hlog, sound_received hphase h n⟩
  | callback http memory handler =>
      unfold step at hs
      dsimp only at hs
      split at hs
      rotate_left
      · exact absurd hs (by simp)
      rename_i hphase
      obtain rfl := Option.some.inj hs
      refine ⟨?_, sound_callback hphase h http memory handler⟩
      obtain ⟨phase, heq, -⟩ := callback_phase stream server toTime s http memory handler
      rw [heq]
      exact hlog
  | upload => exact ⟨upload_log hs ▸ hlog, sound_upload h hs⟩
  | piped i n => exact ⟨readPipe_log hs ▸ hlog, sound_readPipe h hs⟩
  | pipeEnd i => exact ⟨pipeEnd_log hs ▸ hlog, sound_pipeEnd h hs⟩
  | error =>
      unfold step at hs
      dsimp only at hs
      split at hs
      rotate_left
      · exact absurd hs (by simp)
      rename_i r hphase
      split at hs
      · rename_i hhandler
        obtain rfl := Option.some.inj hs
        exact ⟨hlog, sound_error hphase h hhandler⟩
      · exact absurd hs (by simp)
  | finish =>
      obtain ⟨r, hphase, hdone, hlong, rfl⟩ := finish_cases hs
      have hr := sound_handling hphase h
      rcases hcareful r hphase with ⟨n, hn, hmeets⟩ | ⟨hnone, hapart⟩
      · exact ⟨(finish_exact_iff hlog hr hlong hdone hn).mpr hmeets,
          sound_finish hr hlong (meets_apart hr hlong hdone hn hmeets)⟩
      · exact ⟨exact_snoc.mpr ⟨hlog, fun n hn => absurd ⟨n, hn⟩ hnone⟩, sound_finish hr hlong hapart⟩
  | close =>
      obtain rfl := Option.some.inj hs
      exact ⟨hlog, trivial⟩

/-- The invariant in every state of a careful run. -/
theorem sound_run {es : List Event} (hrun : Lib.RunWith (step stream server toTime) Careful {} es s) :
    Exact 0 s.log ∧ Sound s := by
  refine Lib.RunWith.invariant (I := fun s => Exact 0 s.log ∧ Sound s) ?_ ?_ hrun
  · exact ⟨trivial, rfl, rfl, fun p hp => absurd hp List.not_mem_nil⟩
  · intro s e s' h hcareful hs
    exact sound_step h.1 h.2 hcareful hs

end

/-- A `POST` to a worker, three bytes of whose body come behind the first read. -/
def postStream (i : Nat) : UInt8 := (bytes "POST / HTTP/1.1\r\nContent-Length: 5\r\n\r\nhello").getD i 0

def postEvents : List Event :=
  [.callback {} [] .text, .received 40, .callback {} [] .fastcgi, .upload, .piped 0 3, .pipeEnd 0]

def postHandled : Request where
  lines := [bytes "Content-Length: 5"]
  head := 38
  post := true
  postSz := 5
  consume := 2
  taken := 40
  handler := .fastcgi
  forwarded := some 3
  uploading := true
  piped := List.range' 40 3

def postRead : Conn := { held := List.range' 0 40, next := 43, pipes := [(0, 0)], phase := .handling postHandled }

theorem postRead_exec : Lib.execWith (step postStream {} fun _ => 0) (fun _ e => e.unfinished) {} postEvents = some postRead := by
  decide

theorem postRead_run : Lib.RunWith (step postStream {} fun _ => 0) Careful {} postEvents postRead := by
  refine Lib.RunWith.of_exec ?_ postEvents postRead_exec
  intro s e he
  cases e with
  | finish => exact absurd he (by simp [Event.unfinished])
  | received | callback | upload | piped | pipeEnd | error | close => trivial

theorem postHandled_declares : Declares postHandled.lines 5 := by
  have hline : Announces (bytes "Content-Length: 5") 5 :=
    ⟨bytes " 5", bytes "5", by decide, ⟨[32], [], by decide, by simp, by simp⟩, by decide, by decide +kernel, by decide⟩
  refine ⟨fun line hin _ => List.mem_singleton.mp hin ▸ hline, fun hnone => ?_⟩
  have hnamed : named contentLength (bytes "Content-Length: 5") = true := by decide
  exact absurd (hnamed.symm.trans (hnone _ (List.mem_singleton.mpr rfl))) (by simp)

theorem postHandled_meets : Meets postRead postHandled 5 := by
  have hpost : postHandled.post = true := rfl
  refine ⟨rfl, by decide, ?_⟩
  rw [if_pos hpost]
  exact .inr ⟨by decide, by decide⟩

end RequestBytes
end Http
end Hin9
