import Hin9.Http.FileReply
import Hin9.Http.ProxyPipe

/-!
# `Http.ProxyReply` — which upstream responses reach the client as they are

The framing of a reply is settled in three places: the pipe counts or decodes as the upstream head says, the flags of
the client decide on compression and chunks, and the head of the reply announces what the flags say.
`proxy_reply_iff` says for which responses and which clients the three agree.
-/

namespace Hin9
namespace Http

open Lib (RunWith)
open Netcode (READ_SZ)
open Pattern
open Lib.Chunked
open Fcgi (HIN_HTTPD_MAX_HEADER_LINE_SIZE Chain)

/-! ## Flags -/

theorem hasFlag_or (flags bit other : UInt32) :
    hasFlag (flags ||| bit) other = (hasFlag flags other || hasFlag bit other) := by
  have hand : (flags ||| bit) &&& other = (flags &&& other) ||| (bit &&& other) := by
    apply UInt32.toBitVec_inj.mp
    ext i hi
    simp only [UInt32.toBitVec_and, UInt32.toBitVec_or, BitVec.getElem_and, BitVec.getElem_or, Bool.and_or_distrib_right]
  have hzero : ∀ a b : UInt32, a ||| b = 0 ↔ a = 0 ∧ b = 0 := by
    intro a b
    exact UInt32.or_eq_zero_iff
  unfold hasFlag
  rw [hand, Bool.eq_iff_iff]
  simp only [bne_iff_ne, ne_eq, hzero, Bool.or_eq_true]
  exact not_and_or

/-- Clearing some flags keeps the others. -/
theorem hasFlag_keep {mask bit : UInt32} (h : ~~~mask &&& bit = bit) (flags : UInt32) :
    hasFlag (flags &&& ~~~mask) bit = hasFlag flags bit := by
  unfold hasFlag
  rw [UInt32.and_assoc, h]

/-- The client accepts a compressed body. -/
def ProxyClient.compresses (c : ProxyClient) : Bool := hasFlag c.peerFlags HIN_HTTP_COMPRESS

/-- It keeps its connection alive. -/
def ProxyClient.keepAlive (c : ProxyClient) : Bool := hasFlag c.peerFlags HIN_HTTP_KEEPALIVE

/-- It is a 1.0 client. -/
def ProxyClient.ver0 (c : ProxyClient) : Bool := hasFlag c.peerFlags HIN_HTTP_VER0

/-- `httpd_request_chunked` touches two flags only. -/
theorem httpdRequestChunked_flags (peer : UInt32) :
    hasFlag (httpdRequestChunked peer).1 HIN_HTTP_COMPRESS = hasFlag peer HIN_HTTP_COMPRESS ∧
      hasFlag (httpdRequestChunked peer).1 HIN_HTTP_KEEPALIVE =
        (!hasFlag peer HIN_HTTP_VER0 && hasFlag peer HIN_HTTP_KEEPALIVE) := by
  unfold httpdRequestChunked
  by_cases h0 : hasFlag peer HIN_HTTP_VER0 = true
  · rw [if_pos h0, h0, hasFlag_keep (by decide), hasFlag_clear (by decide)]
    exact ⟨rfl, rfl⟩
  · rw [if_neg h0, Bool.eq_false_iff.mpr h0]
    have hcompress : hasFlag HIN_HTTP_CHUNKED HIN_HTTP_COMPRESS = false := by decide
    have hkeep : hasFlag HIN_HTTP_CHUNKED HIN_HTTP_KEEPALIVE = false := by decide
    split
    · rw [hasFlag_or, hasFlag_or, hcompress, hkeep, Bool.or_false, Bool.or_false]
      exact ⟨rfl, rfl⟩
    · exact ⟨rfl, rfl⟩

/-- **The framing of a proxied reply**, for a client whose flags do not say `CHUNKED` yet. -/
theorem rproxyOptions_spec {c : ProxyClient} (hget : c.method = .get) (hstatus : c.status ≠ 304)
    (hflags : hasFlag c.peerFlags HIN_HTTP_CHUNKED = false) (f : Framing) :
    hasFlag (rproxyOptions c f).1 HIN_HTTP_CHUNKED = (!c.ver0 && (f.chunked || (c.compresses && c.keepAlive))) ∧
      hasFlag (rproxyOptions c f).1 HIN_HTTP_KEEPALIVE = (c.keepAlive && !(c.ver0 && (c.compresses || f.chunked))) ∧
      hasFlag (rproxyOptions c f).1 HIN_HTTP_COMPRESS = c.compresses ∧
      (rproxyOptions c f).2 =
        if c.compresses then .deflate (!c.ver0 && (f.chunked || c.keepAlive))
        else if !c.ver0 && f.chunked then .chunked else .raw := by
  obtain ⟨peer, hpeer⟩ : ∃ peer, peer = c.peerFlags ||| if f.chunked then HIN_HTTP_CHUNKED else 0 := ⟨_, rfl⟩
  have hbit : ∀ bit, hasFlag HIN_HTTP_CHUNKED bit = false → hasFlag peer bit = hasFlag c.peerFlags bit := by
    intro bit h
    rw [hpeer, hasFlag_or]
    split
    · rw [h, Bool.or_false]
    · rw [show hasFlag 0 bit = false by simp [hasFlag], Bool.or_false]
  have hchunked : hasFlag peer HIN_HTTP_CHUNKED = f.chunked := by
    rw [hpeer, hasFlag_or, hflags, Bool.false_or]
    cases f.chunked <;> decide
  have hcompress : hasFlag peer HIN_HTTP_COMPRESS = c.compresses := hbit _ (by decide)
  have hkeep : hasFlag peer HIN_HTTP_KEEPALIVE = c.keepAlive := hbit _ (by decide)
  have hver : hasFlag peer HIN_HTTP_VER0 = c.ver0 := hbit _ (by decide)
  have hoptions : rproxyOptions c f = httpdPipeSetChunked peer := by
    unfold rproxyOptions httpdPipeSetHttp11ResponseOptions
    rw [if_neg (by rw [hget]; simp [hstatus]), ← hpeer]
  obtain ⟨hr, hused⟩ := httpdRequestChunked_spec peer
  obtain ⟨hrc, hrk⟩ := httpdRequestChunked_flags peer
  rw [hver, hchunked, hkeep] at hr
  rw [hver] at hused
  rw [hver, hkeep] at hrk
  rw [hcompress] at hrc
  rw [hoptions]
  unfold httpdPipeSetChunked
  rw [hcompress, hchunked]
  cases hc : c.compresses with
  | true =>
      rw [if_pos rfl]
      dsimp only
      rw [hr, hrk, hrc, hc, if_pos rfl]
      cases c.ver0 <;> cases c.keepAlive <;> simp
  | false =>
      rw [if_neg Bool.false_ne_true, if_neg Bool.false_ne_true]
      cases hch : f.chunked with
      | true =>
          rw [if_pos rfl]
          dsimp only
          rw [hr, hrk, hrc, hc, hch, hused]
          cases c.ver0 <;> cases c.keepAlive <;> simp
      | false =>
          rw [if_neg Bool.false_ne_true]
          dsimp only
          rw [hchunked, hkeep, hcompress, hc, hch]
          cases c.ver0 <;> cases c.keepAlive <;> simp

/-! ## What the encoders queue -/

section Encoders

variable {Z : Zlib}

/-- The encoder behind these calls. -/
def fed (Z : Zlib) (enc : Encoder) (calls : List (Bytes × Bool)) : Sender Z :=
  calls.foldl (fun (s : Sender Z) call => s.encode enc call.1 call.2) (Sender.start Z 0)

theorem fed_snoc (enc : Encoder) (calls : List (Bytes × Bool)) (call : Bytes × Bool) :
    fed Z enc (calls ++ [call]) = (fed Z enc calls).encode enc call.1 call.2 := by
  unfold fed
  rw [List.foldl_append]
  rfl

theorem queued_raw (calls : List (Bytes × Bool)) : Encoder.raw.queued Z calls = calls.flatMap (·.1) := by
  show (fed Z .raw calls).queued = _
  induction calls using List.reverseRecOn with
  | nil => rfl
  | append_singleton calls call ih =>
      rw [fed_snoc, List.flatMap_append, ← ih]
      simp [Sender.encode]

/-- Pieces that are no bytes make no chunks. -/
theorem queued_chunked (ps : List Bytes) (d : Bytes) :
    ∃ chunks : List Bytes, Body chunks (Encoder.chunked.queued Z (ps.map (·, false) ++ [(d, true)])) ∧
      chunks.flatten = ps.flatten ++ d := by
  have hpiece : ∀ (d : Bytes) (flush : Bool), hinPipeCopyChunked d flush =
      (if d = [] then [] else [d]).flatMap frame ++ if flush then lastChunk else [] := by
    intro d flush
    unfold hinPipeCopyChunked
    cases d with
    | nil => rfl
    | cons c cs => simp
  have hopen : (fed Z .chunked (ps.map (·, false))).queued = (ps.filter (· ≠ [])).flatMap frame := by
    induction ps using List.reverseRecOn with
    | nil => rfl
    | append_singleton ps p ih =>
        rw [List.map_append, List.map_singleton, fed_snoc]
        show (fed Z .chunked (ps.map (·, false))).queued ++ hinPipeCopyChunked p false = _
        rw [ih, hpiece, List.filter_append, List.flatMap_append]
        by_cases hp : p = [] <;> simp [hp]
  refine ⟨ps.filter (· ≠ []) ++ if d = [] then [] else [d], ?_, ?_⟩
  · have hqueued : Encoder.chunked.queued Z (ps.map (·, false) ++ [(d, true)]) =
        (ps.filter (· ≠ []) ++ if d = [] then [] else [d]).flatMap frame ++ lastChunk := by
      show (fed Z .chunked (ps.map (·, false) ++ [(d, true)])).queued = _
      rw [fed_snoc]
      show (fed Z .chunked (ps.map (·, false))).queued ++ hinPipeCopyChunked d true = _
      rw [hopen, hpiece, List.flatMap_append, if_pos rfl, List.append_assoc]
    rw [hqueued]
    refine body_frames ?_
    intro c hc
    rcases List.mem_append.mp hc with hc | hc
    · simpa using (List.mem_filter.mp hc).2
    · split at hc
      · exact absurd hc List.not_mem_nil
      · rename_i hd
        rwa [List.mem_singleton.mp hc]
  · have hflat : ∀ ps : List Bytes, (ps.filter (· ≠ [])).flatten = ps.flatten := by
      intro ps
      induction ps with
      | nil => rfl
      | cons p ps ih =>
          by_cases hp : p = []
          · rw [List.filter_cons_of_neg (by simpa using hp), ih, hp]
            rfl
          · rw [List.filter_cons_of_pos (by simpa using hp), List.flatten_cons, List.flatten_cons, ih]
    rw [List.flatten_append, hflat]
    split
    · rename_i hd
      rw [hd]
      rfl
    · simp

/-- A compressing encoder that has not been told to finish. -/
theorem fed_deflate (chunked : Bool) (ps : List Bytes) :
    (fed Z (.deflate chunked) (ps.map (·, false))).z = Z.after ps ∧
      (fed Z (.deflate chunked) (ps.map (·, false))).body = Z.soFar ps := by
  induction ps using List.reverseRecOn with
  | nil => exact ⟨rfl, rfl⟩
  | append_singleton ps p ih =>
      rw [List.map_append, List.map_singleton, fed_snoc, Zlib.after_snoc, Zlib.soFar_snoc, ← ih.1, ← ih.2]
      exact ⟨rfl, rfl⟩

/-- **A compressed stream.** -/
theorem queued_deflate_plain (ps : List Bytes) (d : Bytes) :
    (Encoder.deflate false).queued Z (ps.map (·, false) ++ [(d, true)]) = Z.output (ps ++ [d]) := by
  have hbody : ∀ ps : List Bytes, (fed Z (.deflate false) (ps.map (·, false))).queued = Z.soFar ps := by
    intro ps
    induction ps using List.reverseRecOn with
    | nil => rfl
    | append_singleton ps p ih =>
        rw [List.map_append, List.map_singleton, fed_snoc, Zlib.soFar_snoc, ← ih, ← (fed_deflate false ps).1]
        unfold Sender.encode
        dsimp only
        rw [deflateLoop_plain _ _ _ (Nat.lt_succ_self _)]
  show (fed Z (.deflate false) (ps.map (·, false) ++ [(d, true)])).queued = _
  rw [fed_snoc, Zlib.output, List.dropLast_concat, Zlib.lastOutput_snoc, ← hbody ps, ← (fed_deflate false ps).1]
  unfold Sender.encode
  dsimp only
  rw [deflateLoop_plain _ _ _ (Nat.lt_succ_self _)]

/-- **A compressed stream in chunks**, which has a last chunk where the last output leaves room in its buffer. -/
theorem queued_deflate_chunked (ps : List Bytes) (d : Bytes) :
    ∃ chunks : List Bytes, (∀ c ∈ chunks, c ≠ []) ∧ chunks.flatten = Z.output (ps ++ [d]) ∧
      (Encoder.deflate true).queued Z (ps.map (·, false) ++ [(d, true)]) = chunks.flatMap frame ++
        if (Z.lastOutput (ps ++ [d])).length % deflateRoom true ≠ 0 then lastChunk else [] := by
  have hopen : ∀ ps : List Bytes, ∃ chunks : List Bytes, (∀ c ∈ chunks, c ≠ []) ∧ chunks.flatten = Z.soFar ps ∧
      (fed Z (.deflate true) (ps.map (·, false))).queued = chunks.flatMap frame := by
    intro ps
    induction ps using List.reverseRecOn with
    | nil => exact ⟨[], by simp, rfl, rfl⟩
    | append_singleton ps p ih =>
        obtain ⟨chunks, hne, hflat, hq⟩ := ih
        obtain ⟨more, hmne, hmflat, hmore⟩ := deflateLoop_chunked false
          ((Z.feed (Z.after ps) p false).2.length + 1) _ (Nat.lt_succ_self _)
        refine ⟨chunks ++ more, ?_, ?_, ?_⟩
        · intro c hc
          rcases List.mem_append.mp hc with hc | hc
          · exact hne c hc
          · exact hmne c hc
        · rw [List.flatten_append, hflat, hmflat, Zlib.soFar_snoc]
        · rw [List.map_append, List.map_singleton, fed_snoc]
          show (fed Z (.deflate true) (ps.map (·, false))).queued ++ deflateLoop true false _ _ = _
          rw [(fed_deflate true ps).1, hmore, hq, List.flatMap_append]
          simp
  obtain ⟨chunks, hne, hflat, hq⟩ := hopen ps
  obtain ⟨more, hmne, hmflat, hmore⟩ := deflateLoop_chunked true
    ((Z.feed (Z.after ps) d true).2.length + 1) _ (Nat.lt_succ_self _)
  refine ⟨chunks ++ more, ?_, ?_, ?_⟩
  · intro c hc
    rcases List.mem_append.mp hc with hc | hc
    · exact hne c hc
    · exact hmne c hc
  · rw [List.flatten_append, hflat, hmflat, Zlib.output, List.dropLast_concat, Zlib.lastOutput_snoc]
  · show (fed Z (.deflate true) (ps.map (·, false) ++ [(d, true)])).queued = _
    rw [fed_snoc]
    show (fed Z (.deflate true) (ps.map (·, false))).queued ++ deflateLoop true true _ _ = _
    rw [(fed_deflate true ps).1, hmore, hq, List.flatMap_append, List.append_assoc, Zlib.lastOutput_snoc]
    simp

end Encoders

/-! ## Replies -/

/-- What the reply delimits: chunks, as many bytes as are announced, or all there is. -/
def Delimits (reply : ProxyReply) (content : Bytes) : Prop :=
  if reply.head.chunked then ∃ chunks, Body chunks reply.body ∧ chunks.flatten = content
  else content = reply.body ∧ ∀ n, reply.head.contentLength = some n → (content.length : Int) = n

/-- The content stands for the body. -/
def Represents (Z : Zlib) (encoding : Option ContentEncoding) (content body : Bytes) : Prop :=
  match encoding with
  | none => content = body
  | some _ => ∃ ds : List Bytes, ds.flatten = body ∧ content = Z.stream ds

/-- **The reply is the response**: it has its status and its body, and nothing behind, and its head delimits the body
    where it announces that the connection is kept. -/
structure Faithful (Z : Zlib) (r : UpstreamResponse) (reply : ProxyReply) : Prop where
  status : reply.head.status = decNat 0 r.status
  body : ∃ content, Delimits reply content ∧ Represents Z reply.head.contentEncoding content r.body
  delimited : reply.head.keepAlive = true → reply.head.chunked = true ∨ reply.head.contentLength.isSome

/-- What is documented of the compressor: finishing a stream produces something, and what was compressed can be told
    from the stream. -/
structure Zlib.Lossless (Z : Zlib) : Prop where
  finish : ∀ z d, (Z.feed z d true).2 ≠ []
  decodable : ∀ ds ds' : List Bytes, Z.stream ds = Z.stream ds' → ds.flatten = ds'.flatten

theorem Zlib.Lossless.stream_ne_nil {Z : Zlib} (hz : Z.Lossless) (ds : List Bytes) : Z.stream ds ≠ [] := by
  unfold Zlib.stream
  split
  · exact hz.finish _ _
  · rename_i hne
    unfold Zlib.output Zlib.lastOutput
    rw [List.getLast?_eq_some_getLast hne]
    intro h
    exact hz.finish _ _ (List.append_eq_nil_iff.mp h).2

/-- What the compressor hands out at the end does not fill its buffers, so that a last chunk is written. -/
def LastFits (Z : Zlib) (calls : List (Bytes × Bool)) : Prop :=
  (Z.lastOutput (calls.map (·.1))).length % deflateRoom true ≠ 0

/-- The client gets a compressed body in chunks. -/
def ProxyClient.getsChunks (c : ProxyClient) : Bool := c.compresses && !c.ver0 && c.keepAlive

/-- **When a reply is faithful.** No line of its head has the one length for which buffers are added without end. A
    chunked response needs a last chunk where it is compressed into chunks again. A counted one that is compressed is
    sent in chunks, or happens to keep its length. One that has no length, or the length 0, was there as a whole when
    its head was, and is either compressed, and not empty, or sent to a client whose connection is closed. -/
def Kept (Z : Zlib) (c : ProxyClient) (r : UpstreamResponse) (u : UpstreamHead) (calls : List (Bytes × Bool)) : Prop :=
  (∀ text ∈ (hinRproxyHeaders c u).texts c, text.length ≠ HIN_HTTPD_MAX_HEADER_LINE_SIZE) ∧
  match r.framing with
  | .chunked .. => c.compresses = true → c.ver0 = false → LastFits Z calls
  | .length (n + 1) =>
      c.compresses = true →
        if c.getsChunks then LastFits Z calls else (Z.output (calls.map (·.1))).length = n + 1
  | _ =>
      u.rest.data = r.body ∧
      if c.compresses then r.body ≠ [] ∧ (c.getsChunks = true → LastFits Z calls) else c.keepAlive = false

/-! ## The head of a reply -/

/-- One text of a head. -/
theorem header_spec {c : Chain} (hc : c.sz = READ_SZ) (text : Bytes) :
    (text.length = HIN_HTTPD_MAX_HEADER_LINE_SIZE → header c text = none) ∧
      (text.length ≠ HIN_HTTPD_MAX_HEADER_LINE_SIZE → ∃ c', header c text = some c' ∧ c'.sz = READ_SZ ∧
        c'.content = c.content ++ if text.length < HIN_HTTPD_MAX_HEADER_LINE_SIZE then text else []) := by
  have hsize : READ_SZ = HIN_HTTPD_MAX_HEADER_LINE_SIZE := rfl
  have hmax : ∀ n, n ≤ READ_SZ → max READ_SZ n = READ_SZ := fun n hn => Nat.max_eq_left hn
  unfold header
  constructor
  · intro hlen
    rw [hc, if_neg (by omega), if_neg (by omega)]
    dsimp only
    rw [hmax _ (by omega), if_neg (by omega)]
  · intro hlen
    by_cases hlong : text.length > HIN_HTTPD_MAX_HEADER_LINE_SIZE
    · rw [if_pos hlong, if_neg (by omega), List.append_nil]
      exact ⟨c, rfl, hc, rfl⟩
    · have hshort : text.length < HIN_HTTPD_MAX_HEADER_LINE_SIZE := by omega
      rw [if_neg hlong, if_pos hshort]
      split
      · exact ⟨_, rfl, hc, (List.append_assoc ..).symm⟩
      · dsimp only
        rw [hmax _ (by omega), if_pos (by omega)]
        refine ⟨_, rfl, rfl, ?_⟩
        unfold Chain.content
        dsimp only
        rw [List.flatten_append]
        simp

/-- **The texts of a head are written in order**, without the ones that are too long; the one length that fits nowhere
    ends the server. -/
theorem foldlM_header {c : Chain} (hc : c.sz = READ_SZ) (texts : List Bytes) :
    ((∃ text ∈ texts, text.length = HIN_HTTPD_MAX_HEADER_LINE_SIZE) → texts.foldlM header c = none) ∧
      ((∀ text ∈ texts, text.length ≠ HIN_HTTPD_MAX_HEADER_LINE_SIZE) → ∃ c', texts.foldlM header c = some c' ∧
        c'.content = c.content ++ (texts.filter fun t => t.length < HIN_HTTPD_MAX_HEADER_LINE_SIZE).flatten) := by
  induction texts generalizing c with
  | nil => exact ⟨fun ⟨_, h, _⟩ => absurd h List.not_mem_nil, fun _ => ⟨c, rfl, by simp⟩⟩
  | cons text texts ih =>
      obtain ⟨hnone, hsome⟩ := header_spec hc text
      rw [List.foldlM_cons]
      by_cases hlen : text.length = HIN_HTTPD_MAX_HEADER_LINE_SIZE
      · rw [hnone hlen]
        exact ⟨fun _ => rfl, fun hall => absurd hlen (hall text List.mem_cons_self)⟩
      · obtain ⟨c', hheader, hsz, hcontent⟩ := hsome hlen
        obtain ⟨ihnone, ihsome⟩ := ih hsz
        rw [hheader]
        constructor
        · rintro ⟨t, ht, htlen⟩
          rcases List.mem_cons.mp ht with rfl | ht
          · exact absurd htlen hlen
          · exact ihnone ⟨t, ht, htlen⟩
        · intro hall
          obtain ⟨c'', hfold, hc''⟩ := ihsome fun t ht => hall t (List.mem_cons_of_mem _ ht)
          refine ⟨c'', hfold, ?_⟩
          rw [hc'', hcontent, List.append_assoc]
          congr 1
          by_cases hshort : text.length < HIN_HTTPD_MAX_HEADER_LINE_SIZE
          · rw [if_pos hshort, List.filter_cons_of_pos (by simpa using hshort), List.flatten_cons]
          · rw [if_neg hshort, List.filter_cons_of_neg (by simpa using hshort), List.nil_append]

/-- **There is a reply** unless a line of its head has the one length; its text is the lines, in order. -/
theorem proxyReply_spec (Z : Zlib) (c : ProxyClient) (u : UpstreamHead) (calls : List (Bytes × Bool)) :
    let head := hinRproxyHeaders c u
    ((∃ text ∈ head.texts c, text.length = HIN_HTTPD_MAX_HEADER_LINE_SIZE) → proxyReply Z c u calls = none) ∧
      ((∀ text ∈ head.texts c, text.length ≠ HIN_HTTPD_MAX_HEADER_LINE_SIZE) → proxyReply Z c u calls = some
        { head
          text := ((head.texts c).filter fun t => t.length < HIN_HTTPD_MAX_HEADER_LINE_SIZE).flatten
          body := (rproxyOptions c u.framing).2.queued Z calls }) := by
  intro head
  have hsz : ({ sz := READ_SZ } : Chain).sz = READ_SZ := rfl
  obtain ⟨hnone, hsome⟩ := foldlM_header hsz (head.texts c)
  unfold proxyReply ProxyHead.buffers
  constructor
  · intro h
    have hfold : (head.texts c).foldlM header { sz := READ_SZ } = none := hnone h
    dsimp only
    rw [hfold]
    rfl
  · intro h
    obtain ⟨chain, hfold, hcontent⟩ := hsome h
    dsimp only
    rw [hfold, Option.map_some, hcontent]
    rfl

/-- A line that is copied says nothing about the framing. -/
theorem copied_other {c : ProxyClient} {u : UpstreamHead} {line : Bytes} (h : line ∈ (hinRproxyHeaders c u).copied) :
    ∀ name ∈ leftOut, (matchiString line name).took = none := by
  have hcopied : isCopied line = true := (List.mem_filter.mp h).2
  intro name hname
  exact Option.isNone_iff_eq_none.mp (List.all_eq_true.mp hcopied name hname)

theorem hasFlag_compress (flags : UInt32) :
    hasFlag flags HIN_HTTP_COMPRESS = (hasFlag flags HIN_HTTP_DEFLATE || hasFlag flags HIN_HTTP_GZIP) := by
  have hcomm : ∀ a b : UInt32, hasFlag a b = hasFlag b a := by
    intro a b
    unfold hasFlag
    rw [UInt32.and_comm]
  rw [hcomm flags HIN_HTTP_COMPRESS, hcomm flags HIN_HTTP_DEFLATE, hcomm flags HIN_HTTP_GZIP]
  exact hasFlag_or _ _ _

section Table

variable {Z : Zlib} {c : ProxyClient} {r : UpstreamResponse} {tail : Bytes} {calls : List (Bytes × Bool)}
  {reply : ProxyReply}

/-- The reply for a response that was read as it stands. -/
structure IsReply (Z : Zlib) (c : ProxyClient) (r : UpstreamResponse) (calls : List (Bytes × Bool)) (reply : ProxyReply) :
    Prop where
  status : reply.head.status = decNat 0 r.status
  chunked : reply.head.chunked = (!c.ver0 && (r.noted.chunked || (c.compresses && c.keepAlive)))
  keepAlive : reply.head.keepAlive = (c.keepAlive && !(c.ver0 && (c.compresses || r.noted.chunked)))
  encoding : reply.head.contentEncoding.isSome = c.compresses
  length : reply.head.contentLength =
    if r.noted.sz ≠ 0 ∧ reply.head.chunked = false then some r.noted.sz else none
  body : reply.body = (if c.compresses then Encoder.deflate (!c.ver0 && (r.noted.chunked || c.keepAlive))
    else if !c.ver0 && r.noted.chunked then .chunked else .raw).queued Z calls

theorem isReply (tail : Bytes) (hget : c.method = .get) (hstatus : c.status ≠ 304) (hflags : hasFlag c.peerFlags HIN_HTTP_CHUNKED = false)
    (hhead : reply.head = hinRproxyHeaders c (r.upstreamHead tail))
    (hbody : reply.body = (rproxyOptions c r.noted).2.queued Z calls) : IsReply Z c r calls reply := by
  obtain ⟨hchunked, hkeep, hcompress, henc⟩ := rproxyOptions_spec hget hstatus hflags r.noted
  have hopt : (r.upstreamHead tail).framing = r.noted := rfl
  refine ⟨?_, ?_, ?_, ?_, ?_, ?_⟩
  · rw [hhead]
    rfl
  · rw [hhead, ← hchunked]
    rfl
  · rw [hhead, ← hkeep]
    rfl
  · rw [hhead, ← hcompress, hasFlag_compress]
    unfold hinRproxyHeaders
    dsimp only
    rw [hopt]
    cases hasFlag (rproxyOptions c r.noted).1 HIN_HTTP_DEFLATE <;>
      cases hasFlag (rproxyOptions c r.noted).1 HIN_HTTP_GZIP <;> rfl
  · rw [hhead]
    rfl
  · rw [hbody, henc]

/-- Some content of the reply stands for the body of the response. -/
def Conveys (Z : Zlib) (r : UpstreamResponse) (reply : ProxyReply) : Prop :=
  ∃ content, Delimits reply content ∧ Represents Z reply.head.contentEncoding content r.body

theorem stream_snoc (Z : Zlib) (ps : List Bytes) (d : Bytes) : Z.stream (ps ++ [d]) = Z.output (ps ++ [d]) := by
  unfold Zlib.stream
  rw [if_neg (by simp)]

theorem map_fst_calls (ps : List Bytes) (d : Bytes) : (ps.map (·, false) ++ [(d, true)]).map (·.1) = ps ++ [d] := by
  have hid : ((fun call : Bytes × Bool => call.1) ∘ fun p : Bytes => (p, false)) = id := rfl
  rw [List.map_append, List.map_map, hid, List.map_id]
  rfl

/-- A plain body. -/
theorem conveys_raw (hchunked : reply.head.chunked = false) (hencoding : reply.head.contentEncoding = none)
    (hbody : reply.body = Encoder.raw.queued Z calls) : Conveys Z r reply ↔
      (∀ n, reply.head.contentLength = some n → (r.body.length : Int) = n) ∧ calls.flatMap (·.1) = r.body := by
  unfold Conveys Delimits Represents
  rw [hchunked, hencoding, hbody, queued_raw]
  simp only [Bool.false_eq_true, if_false]
  constructor
  · rintro ⟨content, ⟨rfl, hlength⟩, hr⟩
    exact ⟨hr ▸ hlength, hr⟩
  · rintro ⟨hlength, hr⟩
    exact ⟨_, ⟨rfl, hr.symm ▸ hlength⟩, hr⟩

/-- A plain body in chunks. -/
theorem conveys_chunked {ps : List Bytes} {d : Bytes} (hcalls : calls = ps.map (·, false) ++ [(d, true)])
    (hchunked : reply.head.chunked = true) (hencoding : reply.head.contentEncoding = none)
    (hbody : reply.body = Encoder.chunked.queued Z calls) (hr : (ps ++ [d]).flatten = r.body) : Conveys Z r reply := by
  obtain ⟨chunks, hchunks, hflat⟩ := queued_chunked (Z := Z) ps d
  refine ⟨chunks.flatten, ?_, ?_⟩
  · unfold Delimits
    rw [hchunked, if_pos rfl, hbody, hcalls]
    exact ⟨chunks, hchunks, rfl⟩
  · unfold Represents
    rw [hencoding]
    dsimp only
    rw [hflat, ← hr]
    simp

/-- A compressed body without chunks. -/
theorem conveys_deflate (hz : Z.Lossless) {ps : List Bytes} {d : Bytes} (hcalls : calls = ps.map (·, false) ++ [(d, true)])
    (hchunked : reply.head.chunked = false) (hencoding : reply.head.contentEncoding.isSome = true)
    (hbody : reply.body = (Encoder.deflate false).queued Z calls) : Conveys Z r reply ↔
      (∀ n, reply.head.contentLength = some n → ((Z.output (calls.map (·.1))).length : Int) = n) ∧
        (ps ++ [d]).flatten = r.body := by
  obtain ⟨e, he⟩ := Option.isSome_iff_exists.mp hencoding
  unfold Conveys Delimits Represents
  rw [hchunked, he, hbody, hcalls, queued_deflate_plain, map_fst_calls]
  simp only [Bool.false_eq_true, if_false]
  constructor
  · rintro ⟨content, ⟨rfl, hlength⟩, ds, hds, hstream⟩
    refine ⟨hlength, ?_⟩
    rw [← hds]
    exact hz.decodable _ _ ((stream_snoc Z ps d).trans hstream)
  · rintro ⟨hlength, hr⟩
    exact ⟨_, ⟨rfl, hlength⟩, ps ++ [d], hr, (stream_snoc Z ps d).symm⟩

/-- **A compressed body in chunks.** -/
theorem conveys_deflate_chunks (hz : Z.Lossless) {ps : List Bytes} {d : Bytes}
    (hcalls : calls = ps.map (·, false) ++ [(d, true)])
    (hchunked : reply.head.chunked = true) (hencoding : reply.head.contentEncoding.isSome = true)
    (hbody : reply.body = (Encoder.deflate true).queued Z calls) : Conveys Z r reply ↔
      LastFits Z calls ∧ (ps ++ [d]).flatten = r.body := by
  obtain ⟨e, he⟩ := Option.isSome_iff_exists.mp hencoding
  obtain ⟨chunks, hne, hflat, hq⟩ := queued_deflate_chunked (Z := Z) ps d
  unfold Conveys Delimits Represents LastFits
  rw [hchunked, he, hbody, hcalls, hq, map_fst_calls]
  simp only [if_true]
  by_cases hlast : (Z.lastOutput (ps ++ [d])).length % deflateRoom true ≠ 0
  · rw [if_pos hlast]
    have hchunks := body_frames hne
    constructor
    · rintro ⟨content, ⟨found, hfound, rfl⟩, ds, hds, hstream⟩
      refine ⟨hlast, ?_⟩
      rw [hchunks.flatten_eq hfound, hflat] at hstream
      rw [← hds]
      exact hz.decodable _ _ ((stream_snoc Z ps d).trans hstream)
    · rintro ⟨-, hr⟩
      exact ⟨_, ⟨chunks, hchunks, rfl⟩, ps ++ [d], hr, by rw [hflat, stream_snoc]⟩
  · rw [if_neg hlast, List.append_nil]
    constructor
    · rintro ⟨content, ⟨found, hfound, -⟩, -⟩
      exact absurd hfound (not_body_frames hne found)
    · rintro ⟨h, -⟩
      exact absurd h hlast

theorem faithful_iff (h : IsReply Z c r calls reply) : Faithful Z r reply ↔
    Conveys Z r reply ∧ (reply.head.keepAlive = true → reply.head.chunked = true ∨ reply.head.contentLength.isSome) :=
  ⟨fun hf => ⟨hf.body, hf.delimited⟩, fun hf => ⟨h.status, hf.1, hf.2⟩⟩

/-- **Chunked responses.** -/
theorem faithful_chunked_iff (hz : Z.Lossless) (h : IsReply Z c r calls reply) (hnoted : r.noted = { chunked := true })
    {ps : List Bytes} {d : Bytes} (hcalls : calls = ps.map (·, false) ++ [(d, true)])
    (hr : (ps ++ [d]).flatten = r.body) : Faithful Z r reply ↔
      (c.compresses = true → c.ver0 = false → LastFits Z calls) := by
  rw [faithful_iff h]
  obtain ⟨-, hchunked, hkeep, hencoding, hlength, hbody⟩ := h
  rw [hnoted] at hchunked hkeep hlength hbody
  dsimp only at hchunked hkeep hlength hbody
  have hnone : reply.head.contentLength = none := by
    rw [hlength]
    exact if_neg fun hn => hn.1 rfl
  have hframed : reply.head.keepAlive = true → reply.head.chunked = true ∨ reply.head.contentLength.isSome := by
    rw [hkeep, hchunked]
    cases c.ver0 <;> cases c.keepAlive <;> simp
  rw [and_iff_left hframed]
  have hflat : calls.flatMap (·.1) = r.body := by
    rw [hcalls, ← hr, List.flatMap_append, List.flatMap_map]
    simp [List.flatMap_id']
  cases hc : c.compresses with
  | false =>
      rw [hc] at hencoding hbody
      have hencoding : reply.head.contentEncoding = none := Option.isSome_eq_false_iff.mp hencoding |> Option.isNone_iff_eq_none.mp
      cases hv : c.ver0 with
      | true =>
          rw [hv] at hchunked hbody
          refine iff_of_true ((conveys_raw hchunked hencoding hbody).mpr ⟨?_, hflat⟩) (by simp)
          intro n hn
          rw [hnone] at hn
          exact absurd hn (by simp)
      | false =>
          rw [hv] at hchunked hbody
          exact iff_of_true (conveys_chunked hcalls hchunked hencoding hbody hr) (by simp)
  | true =>
      rw [hc] at hencoding hbody
      cases hv : c.ver0 with
      | true =>
          rw [hv] at hchunked hbody
          refine iff_of_true ((conveys_deflate hz hcalls hchunked hencoding hbody).mpr ⟨?_, hr⟩) (by simp)
          intro n hn
          rw [hnone] at hn
          exact absurd hn (by simp)
      | false =>
          rw [hv] at hchunked hbody
          rw [conveys_deflate_chunks hz hcalls hchunked hencoding hbody, and_iff_left hr]
          simp

/-- **Counted responses.** -/
theorem faithful_length_iff (hz : Z.Lossless) (h : IsReply Z c r calls reply) {n : Nat}
    (hnoted : r.noted = { sz := ((n + 1 : Nat) : Int) }) {ps : List Bytes} {d : Bytes}
    (hcalls : calls = ps.map (·, false) ++ [(d, true)]) (hr : (ps ++ [d]).flatten = r.body)
    (hn : r.body.length = n + 1) : Faithful Z r reply ↔
      (c.compresses = true →
        if c.getsChunks then LastFits Z calls else (Z.output (calls.map (·.1))).length = n + 1) := by
  rw [faithful_iff h]
  obtain ⟨-, hchunked, hkeep, hencoding, hlength, hbody⟩ := h
  rw [hnoted] at hchunked hkeep hlength hbody
  dsimp only at hchunked hkeep hlength hbody
  rw [Bool.false_or] at hchunked hbody
  have hsz : ((n + 1 : Nat) : Int) ≠ 0 := by omega
  have hframed : reply.head.keepAlive = true → reply.head.chunked = true ∨ reply.head.contentLength.isSome := by
    intro _
    cases hch : reply.head.chunked with
    | true => exact .inl rfl
    | false =>
        rw [hlength, if_pos ⟨hsz, hch⟩]
        exact .inr rfl
  rw [and_iff_left hframed]
  have hflat : calls.flatMap (·.1) = r.body := by
    rw [hcalls, ← hr, List.flatMap_append, List.flatMap_map]
    simp [List.flatMap_id']
  have hcounted : reply.head.chunked = false → reply.head.contentLength = some ((n + 1 : Nat) : Int) := by
    intro hno
    rw [hlength, if_pos ⟨hsz, hno⟩]
  unfold ProxyClient.getsChunks
  cases hc : c.compresses with
  | false =>
      rw [hc] at hencoding hbody hchunked
      have hencoding : reply.head.contentEncoding = none := Option.isSome_eq_false_iff.mp hencoding |> Option.isNone_iff_eq_none.mp
      rw [Bool.false_and, Bool.and_false] at hchunked
      have hraw : reply.body = Encoder.raw.queued Z calls := by
        rw [hbody, if_neg Bool.false_ne_true, Bool.and_false, if_neg Bool.false_ne_true]
      refine iff_of_true ((conveys_raw hchunked hencoding hraw).mpr ⟨?_, hflat⟩) (by simp)
      intro m hm
      rw [hcounted hchunked] at hm
      rw [hn]
      exact Option.some.inj hm
  | true =>
      rw [hc, Bool.true_and] at hchunked
      rw [hc] at hencoding hbody
      rw [Bool.true_and]
      cases hch : (!c.ver0 && c.keepAlive) with
      | true =>
          rw [hch] at hchunked hbody
          rw [conveys_deflate_chunks hz hcalls hchunked hencoding hbody, and_iff_left hr]
          simp
      | false =>
          rw [hch] at hchunked hbody
          rw [conveys_deflate hz hcalls hchunked hencoding hbody, and_iff_left hr, hcounted hchunked]
          constructor
          · intro hall _
            have hlen := hall _ rfl
            rw [if_neg Bool.false_ne_true]
            exact_mod_cast hlen
          · intro hall m hm
            have hlen := hall rfl
            rw [if_neg Bool.false_ne_true] at hlen
            rw [hlen]
            exact Option.some.inj hm

/-- **Responses without a length**, or with the length 0. -/
theorem faithful_close_iff (hz : Z.Lossless) (h : IsReply Z c r calls reply) (hnoted : r.noted = {})
    (hcalls : calls = if tail = [] then [] else [(tail, true)]) : Faithful Z r reply ↔
      tail = r.body ∧
        if c.compresses then r.body ≠ [] ∧ (c.getsChunks = true → LastFits Z calls) else c.keepAlive = false := by
  rw [faithful_iff h]
  obtain ⟨-, hchunked, hkeep, hencoding, hlength, hbody⟩ := h
  rw [hnoted] at hchunked hkeep hlength hbody
  dsimp only at hchunked hkeep hlength hbody
  rw [Bool.false_or] at hchunked hbody
  rw [Bool.or_false] at hkeep
  have hnone : reply.head.contentLength = none := by
    rw [hlength]
    exact if_neg fun hn => hn.1 rfl
  rw [hnone]
  unfold ProxyClient.getsChunks
  cases hc : c.compresses with
  | false =>
      rw [hc] at hencoding hbody hchunked hkeep
      have hencoding : reply.head.contentEncoding = none := Option.isSome_eq_false_iff.mp hencoding |> Option.isNone_iff_eq_none.mp
      rw [Bool.false_and, Bool.and_false] at hchunked
      rw [Bool.and_false, Bool.not_false, Bool.and_true] at hkeep
      have hraw : reply.body = Encoder.raw.queued Z calls := by
        rw [hbody, if_neg Bool.false_ne_true, Bool.and_false, if_neg Bool.false_ne_true]
      have hflat : calls.flatMap (·.1) = tail := by
        rw [hcalls]
        split
        · rename_i hnil
          rw [hnil]
          rfl
        · simp
      rw [conveys_raw hchunked hencoding hraw, hnone, hflat, hchunked, hkeep, if_neg Bool.false_ne_true]
      simp
  | true =>
      rw [hc, Bool.true_and] at hchunked
      rw [hc, Bool.and_true] at hkeep
      rw [hc] at hencoding hbody
      have hframed : reply.head.keepAlive = true → reply.head.chunked = true ∨ (none : Option Int).isSome = true := by
        rw [hkeep, hchunked]
        cases c.ver0 <;> cases c.keepAlive <;> simp
      rw [and_iff_left hframed, Bool.true_and, if_pos rfl]
      by_cases hnil : tail = []
      · -- the compressor is never called
        rw [if_pos hnil] at hcalls
        have hempty : reply.body = [] := by
          rw [hbody, hcalls]
          rfl
        have hno : ¬ Conveys Z r reply := by
          rintro ⟨content, hdelimits, hrepresents⟩
          obtain ⟨e, he⟩ := Option.isSome_iff_exists.mp hencoding
          unfold Delimits at hdelimits
          unfold Represents at hrepresents
          rw [hempty] at hdelimits
          rw [he] at hrepresents
          obtain ⟨ds, -, rfl⟩ := hrepresents
          split at hdelimits
          · obtain ⟨chunks, hchunks, -⟩ := hdelimits
            exact not_body_frames (fun _ h => absurd h List.not_mem_nil) chunks hchunks
          · exact hz.stream_ne_nil ds hdelimits.1
        refine iff_of_false hno ?_
        rintro ⟨htail, hne, -⟩
        exact hne (htail.symm.trans hnil)
      · rw [if_neg hnil] at hcalls
        have hcalls' : calls = ([] : List Bytes).map (·, false) ++ [(tail, true)] := hcalls
        have hflat : ([] ++ [tail] : List Bytes).flatten = tail := by simp
        cases hch : (!c.ver0 && c.keepAlive) with
        | true =>
            rw [hch] at hchunked hbody
            rw [conveys_deflate_chunks hz hcalls' hchunked hencoding hbody, hflat]
            constructor
            · rintro ⟨hlast, htail⟩
              exact ⟨htail, fun hne => hnil (htail.trans hne), fun _ => hlast⟩
            · rintro ⟨htail, -, hlast⟩
              exact ⟨hlast rfl, htail⟩
        | false =>
            rw [hch] at hchunked hbody
            rw [conveys_deflate hz hcalls' hchunked hencoding hbody, hflat, hnone]
            constructor
            · rintro ⟨-, htail⟩
              exact ⟨htail, fun hne => hnil (htail.trans hne), fun hf => absurd hf Bool.false_ne_true⟩
            · rintro ⟨htail, -⟩
              exact ⟨fun n hn => absurd hn (by simp), htail⟩

end Table

/-! ## Whole responses -/

theorem flatMap_calls (ps : List Bytes) (d : Bytes) :
    (ps.map (·, false) ++ [(d, true)]).flatMap (·.1) = (ps ++ [d]).flatten := by
  rw [List.flatMap_def, map_fst_calls]

/-- **Which responses reach the client as they are.** The proxy of a response whose reads are cut well has the whole of
    it read when it has received it, and what it has sent then is the response exactly when `Kept` says so. -/
theorem proxy_reply_iff {Z : Zlib} (hz : Z.Lossless) {c : ProxyClient} (hget : c.method = .get) (hstatus : c.status ≠ 304)
    (hflags : hasFlag c.peerFlags HIN_HTTP_CHUNKED = false) {r : UpstreamResponse} (hr : r.WellFormed) (hp : r.Plain)
    {es : List ProxyEvent} {s : ProxyState}
    (hrun : RunWith (proxyStep false) (fun s e => Arrives r s e ∧ CutsProxy r s e) {} es s) :
    (s.received = r.wire → ∃ u p calls, s.phase = .piping u p calls ∧ p.done = true) ∧
      ∀ u p calls, s.phase = .piping u p calls → p.done = true →
        ((∃ reply, proxyReply Z c u calls = some reply ∧ Faithful Z r reply) ↔ Kept Z c r u calls) := by
  have htracks := proxy_tracks hr hp hrun
  unfold Tracks at htracks
  constructor
  · intro hall
    cases hphase : s.phase with
    | failed =>
        rw [hphase] at htracks
        exact htracks.elim
    | waiting =>
        rw [hphase] at htracks
        have hlt := htracks.2
        rw [hall] at hlt
        unfold UpstreamResponse.wire at hlt
        rw [List.length_append] at hlt
        omega
    | piping u p calls =>
        rw [hphase] at htracks
        obtain ⟨tail, got, -, hreceived, -, hpipe⟩ := htracks
        refine ⟨u, p, calls, rfl, ?_⟩
        have hgot : got = r.payload := by
          rw [hreceived] at hall
          exact List.append_cancel_left hall
        unfold PipeTracks at hpipe
        cases hframing : r.framing with
        | length n =>
            rw [hframing] at hpipe
            cases n with
            | zero => exact hpipe.1
            | succ n =>
                dsimp only at hpipe
                have hpayload : r.payload = r.body := by
                  unfold UpstreamResponse.payload
                  rw [hframing]
                rw [hpipe.done, hgot, hpayload, hr.length_body hframing]
                exact decide_eq_true (Nat.le_refl _)
        | chunked chunks enc trailer =>
            rw [hframing] at hpipe
            obtain ⟨rcv, hsync, hrcv, -, -, hdone, -⟩ := hpipe
            have hpayload : r.payload = enc ++ trailer := by
              unfold UpstreamResponse.payload
              rw [hframing]
            obtain ⟨henc, -⟩ := hr.encodes hframing
            have hend := (henc.run_prefix (hp.chunks _ _ _ hframing) hsync.pre).2
            rw [hdone, hsync.done]
            apply hend.mpr
            rw [hrcv, hgot, hpayload, List.length_append]
            omega
        | close =>
            rw [hframing] at hpipe
            exact hpipe.1
  · intro u p calls hphase hdone
    rw [hphase] at htracks
    obtain ⟨tail, got, rfl, -, hgot, hpipe⟩ := htracks
    unfold PipeTracks at hpipe
    unfold Kept
    obtain ⟨hnone, hsome⟩ := proxyReply_spec Z c (r.upstreamHead tail) calls
    by_cases hlines : ∀ text ∈ (hinRproxyHeaders c (r.upstreamHead tail)).texts c,
        text.length ≠ HIN_HTTPD_MAX_HEADER_LINE_SIZE
    swap
    · refine iff_of_false ?_ fun h => hlines h.1
      rintro ⟨reply, hreply, -⟩
      have hexists : ∃ text ∈ (hinRproxyHeaders c (r.upstreamHead tail)).texts c,
          text.length = HIN_HTTPD_MAX_HEADER_LINE_SIZE := by
        by_contra hno
        exact hlines fun text htext hlen => hno ⟨text, htext, hlen⟩
      rw [hnone hexists] at hreply
      exact absurd hreply (by simp)
    obtain ⟨reply, hreply⟩ : ∃ reply, proxyReply Z c (r.upstreamHead tail) calls = some reply := ⟨_, hsome hlines⟩
    have heq := Option.some.inj (hreply.symm.trans (hsome hlines))
    have his : IsReply Z c r calls reply := by
      refine isReply tail hget hstatus hflags ?_ ?_
      · rw [heq]
      · rw [heq]
        rfl
    have hthe : (∃ x, some reply = some x ∧ Faithful Z r x) ↔ Faithful Z r reply := by
      constructor
      · rintro ⟨x, hx, hfaithful⟩
        exact (Option.some.inj hx) ▸ hfaithful
      · exact fun hfaithful => ⟨reply, rfl, hfaithful⟩
    rw [and_iff_right hlines, hreply, hthe]
    cases hframing : r.framing with
    | length n =>
        rw [hframing] at hpipe
        have hpayload : r.payload = r.body := by
          unfold UpstreamResponse.payload
          rw [hframing]
        have hlength := hr.length_body hframing
        cases n with
        | zero =>
            have hnoted : r.noted = {} := by
              unfold UpstreamResponse.noted
              rw [hframing]
              rfl
            exact faithful_close_iff hz his hnoted hpipe.2.2
        | succ n =>
            have hnoted : r.noted = { sz := ((n + 1 : Nat) : Int) } := by
              unfold UpstreamResponse.noted
              rw [hframing]
            dsimp only at hpipe
            have hflushed := hpipe.flushed
            rw [hdone] at hflushed
            obtain ⟨ps, d, rfl⟩ := hflushed
            have hwhole : n + 1 ≤ got.length := of_decide_eq_true (hpipe.done.symm.trans hdone)
            have hbody : got = r.body := by
              rw [hpayload] at hgot
              exact hgot.eq_of_length_le (by omega)
            have hflat : (ps ++ [d]).flatten = r.body := by
              rw [← flatMap_calls, hpipe.handed, hbody]
            exact faithful_length_iff hz his hnoted rfl hflat hlength
    | chunked chunks enc trailer =>
        rw [hframing] at hpipe
        have hnoted : r.noted = { chunked := true } := by
          unfold UpstreamResponse.noted
          rw [hframing]
        obtain ⟨henc, hbody⟩ := hr.encodes hframing
        obtain ⟨rcv, hsync, -, -, -, hrdone, hhanded, hflushed⟩ := hpipe
        have hrcv : rcv.done = true := hrdone.symm.trans hdone
        have hend : enc.length ≤ rcv.received.length :=
          (henc.run_prefix (hp.chunks _ _ _ hframing) hsync.pre).2.mp (hsync.done.symm.trans hrcv)
        have houtput : calls.flatMap (·.1) = r.body := by
          rw [hbody, ← henc.payload_ended (hp.chunks _ _ _ hframing) hsync.pre hend, ← hsync.output, ← hhanded]
          rfl
        rw [hdone] at hflushed
        obtain ⟨ps, d, rfl⟩ := hflushed
        rw [flatMap_calls] at houtput
        exact faithful_chunked_iff hz his hnoted rfl houtput
    | close =>
        rw [hframing] at hpipe
        have hnoted : r.noted = {} := by
          unfold UpstreamResponse.noted
          rw [hframing]
        exact faithful_close_iff hz his hnoted hpipe.2.2

/-- A compressor that writes everything at the end. -/
def zlibAtEnd : Zlib where
  State := Bytes
  init := []
  feed z d finish := (z ++ d, if finish then
    if z ++ d = [97] then [0x78, 0x9c, 0x4b, 0x04, 0, 0, 0x62, 0, 0x62] else 0 :: (z ++ d) else [])

theorem zlibAtEnd_stream (ds : List Bytes) :
    zlibAtEnd.stream ds = (zlibAtEnd.feed [] ds.flatten true).2 := by
  have hafter : ∀ ds, zlibAtEnd.after ds = ds.flatten ∧ zlibAtEnd.soFar ds = [] := by
    intro ds
    induction ds using List.reverseRecOn with
    | nil => exact ⟨rfl, rfl⟩
    | append_singleton ds d ih =>
        rw [Zlib.after_snoc, Zlib.soFar_snoc, ih.1, ih.2]
        simp [zlibAtEnd]
  induction ds using List.reverseRecOn with
  | nil => rfl
  | append_singleton ds d =>
      rw [stream_snoc, Zlib.output, List.dropLast_concat, Zlib.lastOutput_snoc, (hafter ds).1, (hafter ds).2]
      simp [zlibAtEnd]

theorem zlibAtEnd_lossless : zlibAtEnd.Lossless where
  finish := fun (z : Bytes) d => by
    show (if z ++ d = [97] then _ else _ : Bytes) ≠ []
    split <;> simp
  decodable ds ds' h := by
    rw [zlibAtEnd_stream, zlibAtEnd_stream] at h
    have h : (if ds.flatten = [97] then [0x78, 0x9c, 0x4b, 0x04, 0, 0, 0x62, 0, 0x62] else 0 :: ds.flatten : Bytes) =
        if ds'.flatten = [97] then [0x78, 0x9c, 0x4b, 0x04, 0, 0, 0x62, 0, 0x62] else 0 :: ds'.flatten := h
    split at h
    · rename_i h1
      split at h
      · rename_i h2
        rw [h1, h2]
      · exact absurd (List.cons.inj h).1 (by decide)
    · split at h
      · exact absurd (List.cons.inj h).1 (by decide)
      · exact (List.cons.inj h).2

/-- A response with a length line. -/
def countedResponse (length : String) (body : Bytes) : UpstreamResponse where
  status := bytes "200"
  reason := bytes "OK"
  lines := [bytes length]
  framing := .length body.length
  body := body

theorem countedResponse_wellFormed {digit : UInt8} {length : String} {body : Bytes} (hdigit : isdigit digit = true)
    (hline : bytes length = bytes "Content-Length: " ++ [digit]) (hbody : decNat 0 [digit] = body.length) :
    (countedResponse length body).WellFormed := by
  have hvalue : fieldValue contentLength (bytes length) = some [32, digit] := by
    rw [hline]
    unfold fieldValue
    have hpre : literalPrefix true (contentLength ++ [58]) (bytes "Content-Length: " ++ [digit]) = true := by
      have hsplit : bytes "Content-Length: " ++ [digit] = (contentLength ++ [58]) ++ [32, digit] := by
        have h : bytes "Content-Length: " = contentLength ++ [58] ++ [32] := by decide
        rw [h, List.append_assoc]
        rfl
      rw [hsplit]
      exact literalPrefix_toupper rfl _
    rw [if_pos hpre]
    rfl
  have hother : fieldValue transferEncoding (bytes length) = none := by
    rw [hline]
    rfl
  have hplain : ∀ c ∈ bytes length, c ≠ CR ∧ c ≠ LF := by
    rw [hline]
    intro c hc
    rcases List.mem_append.mp hc with hc | hc
    · have hall : (bytes "Content-Length: ").all (fun c => c != CR && c != LF) = true := by decide
      have h := List.all_eq_true.mp hall c hc
      simpa using h
    · rw [List.mem_singleton.mp hc]
      constructor
      · rintro rfl
        exact absurd hdigit (by decide)
      · rintro rfl
        exact absurd hdigit (by decide)
  have hstatus : (∀ c ∈ bytes "200", isdigit c = true) ∧ 200 ≤ decNat 0 (bytes "200") ∧
      (decNat 0 (bytes "200") ≠ 204 ∧ decNat 0 (bytes "200") ≠ 304) ∧ CR ∉ bytes "OK" ∧ LF ∉ bytes "OK" :=
    ⟨List.all_eq_true.mp (by decide), by decide, by decide, by decide, by decide⟩
  refine ⟨hstatus.1, rfl, hstatus.2.1, hstatus.2.2.1, hstatus.2.2.2, ?_, ?_⟩
  · intro line hl
    rw [List.mem_singleton.mp hl]
    refine ⟨by rw [hline]; simp, fun hc => (hplain _ hc).1 rfl, fun hc => (hplain _ hc).2 rfl⟩
  · refine ⟨⟨bytes length, List.mem_singleton.mpr rfl, by rw [hvalue]; rfl⟩, ?_, ?_, rfl⟩
    · intro line hl v hv
      rw [List.mem_singleton.mp hl, hvalue] at hv
      obtain rfl := Option.some.inj hv
      refine ⟨[digit], ⟨[32], [], rfl, by simp, by simp⟩, by simp, ?_, hbody⟩
      intro c hc
      rw [List.mem_singleton.mp hc]
      exact hdigit
    · intro line hl
      rw [List.mem_singleton.mp hl]
      exact hother

/-- The requests of the samples. -/
def keepAliveRequest (accepts : UInt32) : ProxyClient := { peerFlags := HIN_HTTP_KEEPALIVE ||| accepts }

/-- A response that comes in two reads is compressed into chunks. -/
theorem proxy_reply_sample :
    ∃ reply, proxyReply zlibAtEnd (keepAliveRequest HIN_HTTP_DEFLATE)
        ((countedResponse "Content-Length: 1" [97]).upstreamHead [97]) [([97], true)] = some reply ∧
      Faithful zlibAtEnd (countedResponse "Content-Length: 1" [97]) reply := by
  let r := countedResponse "Content-Length: 1" [97]
  have hr : r.WellFormed := countedResponse_wellFormed (by decide : isdigit 49 = true) (by decide) (by decide)
  have hp : r.Plain := by
    refine ⟨⟨79, by decide, by decide⟩, ?_, fun _ _ _ h => absurd h (by simp [r, countedResponse])⟩
    intro line hl v hv
    rw [List.mem_singleton.mp hl] at hv
    have hvalue : fieldValue contentLength (bytes "Content-Length: 1") = some [32, 49] := by decide
    rw [hvalue] at hv
    exact ⟨[49], (Option.some.inj hv).symm, by decide, List.all_eq_true.mp (by decide), by decide⟩
  have hfirst : RunWith (proxyStep false) (fun s e => Arrives r s e ∧ CutsProxy r s e) {}
      ([] ++ [.lines (r.wire.take 20) 0]) { received := r.wire.take 20 } := by
    refine .snoc .nil ⟨⟨by decide, by decide⟩, fun _ => .inl (by decide), trivial⟩ ?_
    decide
  have hrun : RunWith (proxyStep false) (fun s e => Arrives r s e ∧ CutsProxy r s e) {}
      (([] ++ [.lines (r.wire.take 20) 0]) ++ [.lines (r.wire.drop 20) 0])
      { received := r.wire, phase := .piping (r.upstreamHead [97]) ⟨some 0, none, true⟩ [([97], true)] } := by
    refine .snoc hfirst ⟨⟨by decide, by decide⟩, fun _ => .inl (by decide), trivial⟩ ?_
    decide
  refine ((proxy_reply_iff zlibAtEnd_lossless rfl (by decide) (by decide) hr hp hrun).2 _ _ _ rfl rfl).mpr ⟨?_, ?_⟩
  · decide
  · intro _
    have hchunks : (keepAliveRequest HIN_HTTP_DEFLATE).getsChunks = true := by decide
    show if (keepAliveRequest HIN_HTTP_DEFLATE).getsChunks = true then _ else _
    rw [if_pos hchunks]
    unfold LastFits
    decide

/-- **A response without a body** is sent to a client whose connection is kept, with no line that says so. -/
theorem proxy_reply_undelimited : ¬ ∀ (Z : Zlib) (c : ProxyClient) (r : UpstreamResponse) (es : List ProxyEvent)
    (s : ProxyState) (u : UpstreamHead) (p : BodyPipe) (calls : List (Bytes × Bool)), Z.Lossless → c.method = .get →
    c.status ≠ 304 → hasFlag c.peerFlags HIN_HTTP_CHUNKED = false → r.WellFormed →
    RunWith (proxyStep false) (Arrives r) {} es s → s.phase = .piping u p calls → p.done = true →
    ∃ reply, proxyReply Z c u calls = some reply ∧ Faithful Z r reply := by
  intro hall
  let r := countedResponse "Content-Length: 0" []
  have hr : r.WellFormed := countedResponse_wellFormed (by decide : isdigit 48 = true) (by decide) (by decide)
  have hrun : RunWith (proxyStep false) (Arrives r) {} ([] ++ [.lines r.wire 0])
      { received := r.wire, phase := .piping (r.upstreamHead []) ⟨some 0, none, true⟩ [] } := by
    refine .snoc .nil ⟨by decide, by decide⟩ ?_
    decide
  obtain ⟨reply, hreply, hfaithful⟩ := hall zlibAtEnd (keepAliveRequest 0) r _ _ _ _ _ zlibAtEnd_lossless rfl
    (by decide) (by decide) hr hrun rfl rfl
  have hhead : (proxyReply zlibAtEnd (keepAliveRequest 0) (r.upstreamHead []) []).map
      (fun reply => (reply.head.keepAlive, reply.head.chunked, reply.head.contentLength)) = some (true, false, none) := by
    decide
  rw [hreply] at hhead
  obtain ⟨hkeep, hrest⟩ := Prod.mk.inj (Option.some.inj hhead)
  obtain ⟨hchunked, hlength⟩ := Prod.mk.inj hrest
  rcases hfaithful.delimited hkeep with h | h
  · exact absurd (hchunked.symm.trans h) (by simp)
  · rw [hlength] at h
    exact absurd h (by simp)

end Http
end Hin9
