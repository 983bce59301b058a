import Hin9.Http.ProxyReply
import Hin9.Http.Request

/-!
# `Http.HeadOnly` — responses that consist of a head (`httpd_req.c`, `filters.c`, `cgi_parse.c`)

The response to a `HEAD`, and a `304`, ends with the blank line. Each responder sees to this itself: the ones that write
their text at once look at the method, a pipe is given nothing to read. An error takes the method away before it is
answered; the pipe behind a CGI or FastCGI backend does not count what it reads, so that it has nothing to stop at; and a
`304` of an upstream server is not known for one.

`head_only_iff` says for every responder and every input when nothing is queued behind the head.
-/

namespace Hin9
namespace Http

open Netcode (READ_SZ)
open Pattern
open Fcgi (Chain HIN_HTTPD_MAX_HEADER_LINE_SIZE decimal cstr)

/-! ## Texts -/

def HIN_REQ_ERROR : UInt32 := 0x200

/-- The request with `http->state`. -/
structure RawClient extends ProxyClient where
  state : UInt32 := 0
deriving Repr, DecidableEq

/-- A response: its status, and what is queued behind the blank line. -/
structure Queued where
  status : Int
  body : Bytes
deriving Repr, DecidableEq

/-- The head that `httpd_respond_text` and `httpd_respond_buffer` write. -/
def rawHead (http : ProxyClient) (status : Int) (len : Nat) : Option Chain :=
  let head : ProxyHead :=
    { ver0 := hasFlag http.peerFlags HIN_HTTP_VER0
      status
      contentEncoding := none
      chunked := false
      keepAlive := hasFlag http.peerFlags HIN_HTTP_KEEPALIVE
      contentLength := some len
      copied := [] }
  (head.texts { http with cacheControl := [] }).foldlM header { sz := READ_SZ }

/-- `httpd_respond_text` behind its checks. -/
def respondRaw (http : ProxyClient) (status : Int) (text : Bytes) : Option Queued :=
  (rawHead http status text.length).bind fun head =>
    (if http.method = .head then some head else header head text).map fun whole =>
      { status, body := whole.content.drop head.content.length }

/-- The text for an error without one. -/
def errorText (status : Int) : Bytes :=
  bytes "<html><head></head><body><h1>Error " ++ decimal status ++ bytes ": " ++ httpStatusName status ++
    bytes "</h1></body></html>\n"

/-- The text of an error with `HIN_VERBOSE_ERRORS`. -/
def verboseText (status : Int) (msg : Bytes) : Bytes :=
  bytes "<html><head></head><body><h1>Error " ++ decimal status ++ bytes ": " ++ httpStatusName status ++
    bytes "</h1><p>" ++ msg ++ bytes "</p></body></html>\n"

/-- The text a body stands for. -/
def bodyText (status : Int) (body : Option Bytes) : Bytes := (body.map cstr).getD (errorText status)

/-- `httpd_respond_error`, and `httpd_respond_fatal`, which closes the connection. -/
def httpdRespondError (http : RawClient) (fatal : Bool) (status : Int) (body : Option Bytes) : Option Queued :=
  if hasFlag http.state HIN_REQ_ERROR then none
  else
    let peer := if fatal then http.peerFlags &&& ~~~HIN_HTTP_KEEPALIVE else http.peerFlags
    respondRaw { http.toProxyClient with
      method := .get
      peerFlags := peer } status (bodyText status body)

/-- `httpd_error`. -/
def httpdError (verbose : Bool) (http : RawClient) (status : Int) (msg : Bytes) : Option Queued :=
  httpdRespondError http true status (if verbose then some (verboseText status msg) else none)

/-- `httpd_respond_text`. -/
def httpdRespondText (verbose : Bool) (http : RawClient) (status : Int) (body : Option Bytes) : Option Queued :=
  if hasFlag http.state HIN_REQ_DATA then none
  else if http.method = .post then httpdError verbose http 405 (bytes "POST on a raw resource")
  else respondRaw http.toProxyClient status (bodyText status body)

/-- `httpd_respond_buffer`. -/
def httpdRespondBuffer (http : RawClient) (status : Int) (data : List Bytes) : Option Queued :=
  if hasFlag http.state HIN_REQ_DATA then none
  else
    (rawHead http.toProxyClient status (data.map List.length).sum).map fun _ =>
      { status, body := if http.method = .head then [] else data.flatten }

/-! ## Backends -/

def HIN_HTTP_CACHE : UInt32 := 0x10
def HIN_HTTP_DATE : UInt32 := 0x1000

/-- What `hin_cgi_headers_read_callback` notes of the head of a backend. -/
structure CgiHead where
  status : Int := 200
  sz : Int := 0
  disable : UInt32 := 0
deriving Repr, DecidableEq

/-- One line of the head. -/
def CgiHead.line (h : CgiHead) (line : Bytes) : CgiHead :=
  let status := matchiString line (bytes "Status: (%d+)")
  let length := matchiStringEqual line (bytes "Content-Length: (%d+)")
  let begins := fun name : String => (matchiString line (bytes name)).took.isSome
  if status.took.isSome then { h with status := atoi (status.capture line 0) }
  else if length.took.isSome then { h with sz := atoi (length.capture line 0) }
  else if begins "Content-Encoding:" then { h with disable := h.disable ||| HIN_HTTP_COMPRESS }
  else if begins "Transfer-Encoding:" then { h with disable := h.disable ||| HIN_HTTP_CHUNKED }
  else if begins "Cache-Control:" then { h with disable := h.disable ||| HIN_HTTP_CACHE }
  else if begins "Date:" then { h with disable := h.disable ||| HIN_HTTP_DATE }
  else h

/-- The loop over the lines; nothing as long as there is no blank one. -/
def cgiHeadLines (behind : UInt8) : Nat → Source → CgiHead → Option (CgiHead × Source)
  | 0, _, _ => none
  | fuel + 1, s, h =>
      (hinFindLine behind s).bind fun r =>
        if r.1 = [] then some (h, r.2) else cgiHeadLines behind fuel r.2 (h.line r.1)

/-- The bytes behind the head that go to the pipe at once. -/
def cgiFirstPiece (h : CgiHead) (rest : Source) : Bytes :=
  let len := if h.sz ≠ 0 ∧ h.sz < rest.len then h.sz else rest.len
  if 0 < len then rest.data.take len.toNat else []

/-- The output of a backend: what was read when the head was there (with the byte `behind` it), and what comes later. -/
structure Output where
  head : Bytes
  behind : UInt8 := 0
  more : List Bytes := []
  ended : Bool := false
deriving Repr, DecidableEq

/-- The output behind the head, with the head. -/
def Output.pieces (out : Output) : Option (CgiHead × List Bytes) :=
  (cgiHeadLines out.behind (out.head.length + 1) { data := out.head } {}).map fun r =>
    (r.1, cgiFirstPiece r.1 r.2 :: out.more)

/-- `hin_cgi_headers_read_callback`, where the local cache does not take the response, and the pipe it starts. The pipe has
    no `HIN_COUNT`. -/
def hinCgiHeadersReadCallback (Z : Zlib) (http : ProxyClient) (out : Output) : Option Queued :=
  out.pieces.map fun (h, pieces) =>
    let encoder := (httpdPipeSetHttp11ResponseOptions h.status.toNat http.method (http.peerFlags &&& ~~~h.disable)).2
    { status := h.status
      body := encoder.queued Z (pieces.map (·, false) ++ if out.ended then [([], true)] else []) }

/-! ## Responses -/

/-- What answers a request. `asked` says whether the upstream server was asked by `HEAD`: it is when the client asks so,
    unless the request was sent a second time. A cached item is answered like a file. -/
inductive Response where
  | text (verbose : Bool) (http : RawClient) (status : Int) (body : Option Bytes)
  | error (http : RawClient) (fatal : Bool) (status : Int) (body : Option Bytes)
  | buffer (http : RawClient) (status : Int) (data : List Bytes)
  | file (http : FileClient) (item : FileItem) (reads : List Bytes)
  | cgi (http : ProxyClient) (out : Output)
  | proxy (http : ProxyClient) (asked : Bool) (events : List ProxyEvent)

/-- The method of the request. -/
def Response.method : Response → Method
  | .text _ http _ _ => http.method
  | .error http _ _ _ => http.method
  | .buffer http _ _ => http.method
  | .file http _ _ => http.method
  | .cgi http _ => http.method
  | .proxy http _ _ => http.method

/-- The upstream side of a proxied response: the head, and what its pipe has handed on. -/
def upstreamHanded (asked : Bool) (events : List ProxyEvent) : Option (UpstreamHead × List (Bytes × Bool)) :=
  (events.foldlM (proxyStep asked) {}).bind fun s =>
    match s.phase with
    | .piping u _ calls => some (u, calls)
    | _ => none

/-- The response, as far as it has come. -/
def Response.queued (Z : Zlib) : Response → Option Queued
  | .text verbose http status body => httpdRespondText verbose http status body
  | .error http fatal status body => httpdRespondError http fatal status body
  | .buffer http status data => httpdRespondBuffer http status data
  | .file http item reads =>
      (httpdSendFileReply http item).bind fun r =>
        (reads.foldlM (Sender.step r.encoder) (Sender.start Z r.response.left)).map fun s =>
          { status := r.response.status, body := s.queued }
  | .cgi http out => hinCgiHeadersReadCallback Z http out
  | .proxy http asked events =>
      (upstreamHanded asked events).bind fun (u, calls) =>
        (proxyReply Z http u calls).map fun reply => { status := u.status, body := reply.body }

/-! ## When nothing follows the head -/

/-- A text that is not written: it is empty, or too long for `header`. -/
def Unwritten (text : Bytes) : Prop := text = [] ∨ HIN_HTTPD_MAX_HEADER_LINE_SIZE < text.length

/-- The bytes the compressor hands out for these pieces. -/
def Zlib.written (Z : Zlib) : Z.State → List (Bytes × Bool) → Bytes
  | _, [] => []
  | z, call :: calls => (Z.feed z call.1 call.2).2 ++ Z.written (Z.feed z call.1 call.2).1 calls

/-- Nothing that makes the filter of a reply write: no byte, no last piece where it writes chunks, and nothing that the
    compressor hands out. -/
def Encoder.Silent (Z : Zlib) : Encoder → List (Bytes × Bool) → Prop
  | .raw, calls => ∀ call ∈ calls, call.1 = []
  | .chunked, calls => ∀ call ∈ calls, call = ([], false)
  | .deflate _, calls => Z.written Z.init calls = []

/-- **When a response consists of a head.** A text has to be sent for a `HEAD` that is no error, or is not written; a
    backend says nothing behind its head; an upstream server is asked by `HEAD`, or nothing it sends is passed on. -/
def Response.Quiet (Z : Zlib) : Response → Prop
  | .text _ http status body => http.method = .head ∨ Unwritten (bodyText status body)
  | .error _ _ status body => Unwritten (bodyText status body)
  | .buffer http _ data => http.method = .head ∨ data.flatten = []
  | .file .. => True
  | .cgi _ out => ∀ h pieces, out.pieces = some (h, pieces) → ∀ piece ∈ pieces, piece = []
  | .proxy http asked events => asked = true ∨
      ∀ u calls, upstreamHanded asked events = some (u, calls) → (rproxyOptions http u.framing).2.Silent Z calls

/-! ## Filters -/

section Filters

variable {Z : Zlib}

/-- Bytes that are pending are written. -/
theorem deflateLoop_nil {chunked flush : Bool} {fuel : Nat} {pending : Bytes} :
    deflateLoop chunked flush (fuel + 1) pending = [] ↔ pending = [] := by
  constructor
  · intro h
    by_contra hne
    have htake : pending.take (deflateRoom chunked) ≠ [] := by
      have hroom := deflateRoom_pos chunked
      rw [ne_eq, List.take_eq_nil_iff]
      exact fun hor => hor.elim (fun h0 => by omega) hne
    have hbuffer : ∀ last, deflateBuffer chunked last (pending.take (deflateRoom chunked)) ≠ [] := by
      intro last
      unfold deflateBuffer
      split
      · simp [Lib.Chunked.frame]
      · exact htake
    have hempty : (pending.take (deflateRoom chunked)).isEmpty = false := by
      rw [List.isEmpty_eq_false_iff]
      exact htake
    unfold deflateLoop at h
    dsimp only at h
    rw [hempty, if_neg Bool.false_ne_true] at h
    split at h
    · exact hbuffer _ (List.append_eq_nil_iff.mp h).1
    · exact hbuffer _ h
  · rintro rfl
    unfold deflateLoop
    have hroom : (0 == deflateRoom chunked) = false := by
      rw [beq_eq_false_iff_ne]
      exact Nat.ne_of_lt (deflateRoom_pos chunked)
    simp [hroom]

theorem hinPipeCopyChunked_nil {data : Bytes} {flush : Bool} :
    hinPipeCopyChunked data flush = [] ↔ (data, flush) = ([], false) := by
  unfold hinPipeCopyChunked
  cases data with
  | nil => cases flush <;> simp [Lib.Chunked.lastChunk]
  | cons c cs => simp [Lib.Chunked.frame]

theorem foldl_encode_nil (enc : Encoder) (calls : List (Bytes × Bool)) (s : Sender Z) :
    (calls.foldl (fun (s : Sender Z) call => s.encode enc call.1 call.2) s).queued = [] ↔
      s.queued = [] ∧ match enc with
        | .raw => ∀ call ∈ calls, call.1 = []
        | .chunked => ∀ call ∈ calls, call = ([], false)
        | .deflate _ => Z.written s.z calls = [] := by
  induction calls generalizing s with
  | nil => cases enc <;> simp [Zlib.written]
  | cons call calls ih =>
      rw [List.foldl_cons, ih]
      cases enc with
      | raw =>
          simp only [Sender.encode, List.append_eq_nil_iff, List.forall_mem_cons]
          exact and_assoc
      | chunked =>
          simp only [Sender.encode, List.append_eq_nil_iff, List.forall_mem_cons, hinPipeCopyChunked_nil]
          exact and_assoc
      | deflate chunked =>
          simp only [Sender.encode, List.append_eq_nil_iff, Zlib.written, deflateLoop_nil]
          exact and_assoc

/-- **A filter that is given nothing queues nothing.** -/
theorem queued_nil_iff {enc : Encoder} {calls : List (Bytes × Bool)} : enc.queued Z calls = [] ↔ enc.Silent Z calls := by
  unfold Encoder.queued
  rw [foldl_encode_nil]
  cases enc <;> exact and_iff_right rfl

/-- A pipe that is given nothing to read queues nothing. -/
theorem sender_none {enc : Encoder} {reads : List Bytes} {s : Sender Z} {left : Int} (hleft : left ≤ 0)
    (h : reads.foldlM (Sender.step enc) (Sender.start Z left) = some s) : s.queued = [] := by
  cases reads with
  | nil => exact Option.some.inj h ▸ rfl
  | cons data reads =>
      have hstep : Sender.step enc (Sender.start Z left) data = none := by
        unfold Sender.step Sender.start
        rw [if_neg]
        simp [hleft]
      rw [List.foldlM_cons, hstep] at h
      exact absurd h (by simp)

end Filters

/-! ## Responders -/

section Responders

variable {Z : Zlib}

theorem foldlM_header_sz {c c' : Chain} (hc : c.sz = READ_SZ) {texts : List Bytes}
    (h : texts.foldlM header c = some c') : c'.sz = READ_SZ := by
  induction texts generalizing c with
  | nil => exact Option.some.inj h ▸ hc
  | cons text texts ih =>
      obtain ⟨hnone, hsome⟩ := header_spec hc text
      rw [List.foldlM_cons] at h
      obtain ⟨c1, h1, hrest⟩ := Option.bind_eq_some_iff.mp h
      by_cases hlen : text.length = HIN_HTTPD_MAX_HEADER_LINE_SIZE
      · exact absurd ((hnone hlen).symm.trans h1) (by simp)
      · obtain ⟨c2, h2, hsz, -⟩ := hsome hlen
        obtain rfl := Option.some.inj (h1.symm.trans h2)
        exact ih hsz hrest

/-- **A text is queued behind its head**, but for a `HEAD`. -/
theorem respondRaw_body {http : ProxyClient} {status : Int} {text : Bytes} {q : Queued}
    (h : respondRaw http status text = some q) :
    q.status = status ∧ (q.body = [] ↔ http.method = .head ∨ Unwritten text) := by
  unfold respondRaw at h
  obtain ⟨head, hhead, hrest⟩ := Option.bind_eq_some_iff.mp h
  obtain ⟨whole, hwhole, rfl⟩ := Option.map_eq_some_iff.mp hrest
  refine ⟨rfl, ?_⟩
  dsimp only
  by_cases hmethod : http.method = .head
  · rw [if_pos hmethod] at hwhole
    obtain rfl := Option.some.inj hwhole
    simp [hmethod]
  · rw [if_neg hmethod] at hwhole
    obtain ⟨hnone, hsome⟩ := header_spec (foldlM_header_sz rfl hhead) text
    have hlen : text.length ≠ HIN_HTTPD_MAX_HEADER_LINE_SIZE := by
      intro hlen
      exact absurd ((hnone hlen).symm.trans hwhole) (by simp)
    obtain ⟨c', hc', -, hcontent⟩ := hsome hlen
    obtain rfl := Option.some.inj (hwhole.symm.trans hc')
    rw [hcontent, List.drop_left]
    unfold Unwritten
    simp only [hmethod, false_or]
    split
    · rename_i hshort
      exact ⟨.inl, fun hor => hor.elim id fun hlong => absurd hlong (by omega)⟩
    · exact ⟨fun _ => .inr (by omega), fun _ => rfl⟩

/-- What `httpd_respond_error` writes, where it writes anything. -/
theorem httpdRespondError_body {http : RawClient} {fatal : Bool} {status : Int} {body : Option Bytes} {q : Queued}
    (h : httpdRespondError http fatal status body = some q) :
    q.status = status ∧ (q.body = [] ↔ Unwritten (bodyText status body)) := by
  unfold httpdRespondError at h
  split at h
  · exact absurd h (by simp)
  · obtain ⟨hstatus, hbody⟩ := respondRaw_body h
    refine ⟨hstatus, hbody.trans ?_⟩
    simp

/-- **A file response without a body reads nothing.** -/
theorem httpdSendFileReply_left {http : FileClient} {item : FileItem} {r : FileReply}
    (h : httpdSendFileReply http item = some r) (hno : http.method = .head ∨ r.response.status = 304) :
    r.response.left = 0 := by
  have hasks := (httpdSendFile_asks http.toHttpdClient item).1
  unfold httpdSendFileReply at h
  split at h
  · exact absurd h (by simp)
  · rename_i h2 r2 heq
    rw [heq] at hasks
    obtain rfl := Option.some.inj h
    unfold httpdSendFile at heq
    dsimp only at heq
    split at heq
    · exact absurd (Prod.mk.inj heq).2 (by simp)
    · obtain ⟨hh, hr⟩ := Prod.mk.inj heq
      have hr := Option.some.inj hr
      subst hr
      apply if_pos
      rcases hno with hhead | hstatus
      · exact .inr ((congrArg HttpdClient.method hh).trans (hasks.trans hhead))
      · exact .inl hstatus

/-- Nothing is handed on by a pipe behind a `HEAD`. -/
def HandsNothing (s : ProxyState) : Prop := ∀ u p calls, s.phase = .piping u p calls → p.done = true ∧ calls = []

theorem proxyStep_handsNothing {s s' : ProxyState} {e : ProxyEvent} (h : HandsNothing s)
    (hstep : proxyStep true s e = some s') : HandsNothing s' := by
  cases e with
  | lines data behind =>
      unfold proxyStep at hstep
      dsimp only at hstep
      split at hstep
      swap
      · exact absurd hstep (by simp)
      rename_i hwait
      split at hstep
      · exact absurd hstep (by simp)
      split at hstep
      · obtain rfl := Option.some.inj hstep
        intro u p calls hp
        exact absurd (hwait.symm.trans hp) (by simp)
      · obtain rfl := Option.some.inj hstep
        intro u p calls hp
        exact absurd hp (by simp)
      · rename_i u _
        obtain rfl := Option.some.inj hstep
        have hphase : startPipe true u = .piping u (BodyPipe.ofFraming true u.framing).start [] := rfl
        intro u' p calls hp
        obtain ⟨-, rfl, rfl⟩ := ProxyPhase.piping.inj (hphase.symm.trans hp)
        exact ⟨rfl, rfl⟩
  | body data =>
      unfold proxyStep at hstep
      dsimp only at hstep
      split at hstep
      · rename_i u p calls hphase
        rw [if_pos (.inl (h u p calls hphase).1)] at hstep
        exact absurd hstep (by simp)
      · exact absurd hstep (by simp)

theorem proxyRun_handsNothing {events : List ProxyEvent} {s s' : ProxyState} (h : HandsNothing s)
    (hrun : events.foldlM (proxyStep true) s = some s') : HandsNothing s' := by
  induction events generalizing s with
  | nil => exact Option.some.inj hrun ▸ h
  | cons e events ih =>
      rw [List.foldlM_cons] at hrun
      obtain ⟨t, ht, hrest⟩ := Option.bind_eq_some_iff.mp hrun
      exact ih (proxyStep_handsNothing h ht) hrest

/-- **An upstream response to a `HEAD` hands nothing on.** -/
theorem upstreamHanded_head {events : List ProxyEvent} {u : UpstreamHead} {calls : List (Bytes × Bool)}
    (h : upstreamHanded true events = some (u, calls)) : calls = [] := by
  unfold upstreamHanded at h
  obtain ⟨s, hs, hphase⟩ := Option.bind_eq_some_iff.mp h
  have hstart : HandsNothing {} := fun _ _ _ hp => absurd hp (by simp)
  split at hphase
  · rename_i u' p calls' hp
    obtain ⟨-, rfl⟩ := Prod.mk.inj (Option.some.inj hphase)
    exact (proxyRun_handsNothing hstart hs u' p calls' hp).2
  · exact absurd hphase (by simp)

/-! ## The result -/

/-- **Which responses consist of a head.** To a `HEAD`, or with the status `304`, a response has nothing behind its blank
    line exactly when its responder has nothing to say there. -/
theorem head_only_iff (Z : Zlib) {r : Response} {q : Queued} (h : r.queued Z = some q)
    (hno : r.method = .head ∨ q.status = 304) : q.body = [] ↔ r.Quiet Z := by
  cases r with
  | text verbose http status body =>
      unfold Response.queued httpdRespondText at h
      dsimp only at h
      split at h
      · exact absurd h (by simp)
      · split at h
        · rename_i hpost
          -- the request is a `POST`, and its response an error
          obtain ⟨hstatus, -⟩ := httpdRespondError_body h
          rcases hno with hhead | h304
          · exact absurd (hpost.symm.trans hhead) (by simp)
          · exact absurd (hstatus.symm.trans h304) (by decide)
        · exact (respondRaw_body h).2
  | error http fatal status body => exact (httpdRespondError_body h).2
  | buffer http status data =>
      unfold Response.queued httpdRespondBuffer at h
      dsimp only at h
      split at h
      · exact absurd h (by simp)
      · obtain ⟨chain, -, rfl⟩ := Option.map_eq_some_iff.mp h
        unfold Response.Quiet
        by_cases hmethod : http.method = .head <;> simp [hmethod]
  | file http item reads =>
      unfold Response.queued at h
      obtain ⟨reply, hreply, hrun⟩ := Option.bind_eq_some_iff.mp h
      obtain ⟨s, hs, rfl⟩ := Option.map_eq_some_iff.mp hrun
      have hleft := httpdSendFileReply_left hreply (hno.imp_right fun h304 => Int.ofNat.inj h304)
      exact iff_of_true (sender_none (Int.le_of_eq hleft) hs) trivial
  | cgi http out =>
      unfold Response.queued hinCgiHeadersReadCallback at h
      obtain ⟨⟨head, pieces⟩, hpieces, rfl⟩ := Option.map_eq_some_iff.mp h
      have hraw : (httpdPipeSetHttp11ResponseOptions head.status.toNat http.method
          (http.peerFlags &&& ~~~head.disable)).2 = .raw := by
        unfold httpdPipeSetHttp11ResponseOptions
        rw [if_pos]
        rcases hno with hhead | h304
        · exact .inr hhead
        · exact .inl (congrArg Int.toNat h304)
      dsimp only
      rw [hraw, queued_nil_iff]
      have hquiet : (Response.cgi http out).Quiet Z ↔ ∀ piece ∈ pieces, piece = [] := by
        unfold Response.Quiet
        constructor
        · exact fun hq => hq head pieces hpieces
        · intro hall h' pieces' hpieces'
          obtain ⟨-, rfl⟩ := Prod.mk.inj (Option.some.inj (hpieces.symm.trans hpieces'))
          exact hall
      rw [hquiet]
      constructor
      · intro hall piece hmem
        exact hall (piece, false) (List.mem_append_left _ (List.mem_map_of_mem hmem))
      · intro hall call hmem
        rcases List.mem_append.mp hmem with hmem | hmem
        · obtain ⟨piece, hpiece, rfl⟩ := List.mem_map.mp hmem
          exact hall piece hpiece
        · split at hmem
          · rw [List.mem_singleton.mp hmem]
          · exact absurd hmem List.not_mem_nil
  | proxy http asked events =>
      unfold Response.queued at h
      obtain ⟨⟨u, calls⟩, hhanded, hrest⟩ := Option.bind_eq_some_iff.mp h
      obtain ⟨reply, hreply, rfl⟩ := Option.map_eq_some_iff.mp hrest
      have hbody : reply.body = (rproxyOptions http u.framing).2.queued Z calls := by
        unfold proxyReply at hreply
        obtain ⟨chain, -, rfl⟩ := Option.map_eq_some_iff.mp hreply
        rfl
      dsimp only
      rw [hbody, queued_nil_iff]
      unfold Response.Quiet
      constructor
      · intro hsilent
        refine .inr fun u' calls' hhanded' => ?_
        obtain ⟨rfl, rfl⟩ := Prod.mk.inj (Option.some.inj (hhanded.symm.trans hhanded'))
        exact hsilent
      · rintro (rfl | hsilent)
        · rw [upstreamHanded_head hhanded]
          exact queued_nil_iff.mp rfl
        · exact hsilent u calls hhanded

end Responders

/-- A backend that says `304` and nothing else. -/
def notModified : Output := { head := bytes "Status: 304 Not Modified\r\nX: 1\r\n\r\n", ended := true }

theorem head_only_sample :
    ∃ q, (Response.cgi { peerFlags := HIN_HTTP_KEEPALIVE } notModified).queued zlibOfA = some q ∧
      (q.body = [] ↔ (Response.cgi { peerFlags := HIN_HTTP_KEEPALIVE } notModified).Quiet zlibOfA) := by
  have hq : (Response.cgi { peerFlags := HIN_HTTP_KEEPALIVE } notModified).queued zlibOfA = some ⟨304, []⟩ := by
    decide
  exact ⟨⟨304, []⟩, hq, head_only_iff zlibOfA hq (.inr rfl)⟩

/-- A backend that does not mind the method. -/
def alwaysSays : Output := { head := bytes "Content-Length: 2\r\n\r\nhi", ended := true }

/-- **Bytes behind the head**: of a FastCGI response to a `HEAD`, and of a `304` a script answers with a text, both on
    connections that are kept; and of an error in answer to a `HEAD`. -/
theorem head_only_broken :
    (∃ q, (Response.cgi { method := .head, peerFlags := HIN_HTTP_KEEPALIVE } alwaysSays).queued zlibOfA = some q ∧
      q.body = bytes "hi") ∧
    (∃ q, (Response.text false { peerFlags := HIN_HTTP_KEEPALIVE } 304 (some (bytes "same"))).queued zlibOfA = some q ∧
      q.status = 304 ∧ q.body = bytes "same") ∧
    ∃ q, (Response.error { method := .head, peerFlags := HIN_HTTP_KEEPALIVE } true 404 none).queued zlibOfA = some q ∧
      q.body = errorText 404 := by
  refine ⟨⟨⟨200, bytes "hi"⟩, ?_, rfl⟩, ⟨⟨304, bytes "same"⟩, ?_, rfl, rfl⟩, ⟨⟨404, errorText 404⟩, ?_, rfl⟩⟩
  · decide
  · decide
  · decide

end Http
end Hin9
