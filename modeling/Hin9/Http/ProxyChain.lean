import Hin9.Http.ChunkRelay
import Hin9.Http.ForwardedHead

/-!
# `Http.ProxyChain` — a response that goes through any number of proxies (`rproxy.c`, `headers.c`, `data.c`)

What `hin_rproxy_headers` and the pipe behind it write is a response, and a proxy in front of this one reads it with
`http_client_headers_read_callback`. A response whose head says where it ends is written so that it can be read again
(`relayed_wellFormed`, `relayed_plain`), whatever the cuts in which it came; so the status, the body and the header lines that are
copied are the same behind any number of proxies.
-/

namespace Hin9
namespace Http

open Lib (RunWith)
open Lib.Chunked
open Pattern
open Fcgi (HIN_HTTPD_MAX_HEADER_LINE_SIZE cstr decimal)

/-! ## Numbers as they are printed -/

theorem digitChar_byte {d : Nat} (h : d < 10) : UInt8.ofNat (Nat.digitChar d).toNat = decDigit d := by
  interval_cases d <;> rfl

/-- The digits of a number are printed from the left, by strong induction. -/
theorem toDigits_bytes (n : Nat) : ∀ fuel, n < fuel →
    (Nat.toDigits 10 n).map (fun c => UInt8.ofNat c.toNat) = decDigitsAux fuel n := by
  induction n using Nat.strongRecOn with
  | ind n ih =>
      intro fuel hfuel
      obtain ⟨fuel, rfl⟩ : ∃ k, fuel = k + 1 := ⟨fuel - 1, by omega⟩
      rw [Nat.toDigits_eq_if (by decide), decDigitsAux]
      by_cases hlt : n < 10
      · rw [if_pos hlt, if_pos hlt, List.map_singleton, digitChar_byte hlt]
      · rw [if_neg hlt, if_neg hlt, List.map_append, ih (n / 10) (by omega) fuel (by omega), List.map_singleton,
          digitChar_byte (Nat.mod_lt _ (by decide))]

/-- **Both ways to print a number** are the same. -/
theorem decimal_eq (n : Nat) : decimal n = decDigits n := by
  have hstring : toString (n : Int) = n.repr := rfl
  rw [decimal, bytes, hstring, Nat.toList_repr]
  exact toDigits_bytes n (n + 1) (Nat.lt_succ_self n)

theorem decimal_length {n k : Nat} (hk : 0 < k) : (decimal n).length ≤ k ↔ n < 10 ^ k := by
  have hstring : toString (n : Int) = n.repr := rfl
  rw [decimal, bytes, hstring, Nat.toList_repr, List.length_map]
  exact Nat.length_toDigits_le_iff (by decide) hk

/-! ## A proxy between two others -/

/-- A line that is printed and copied as it is. -/
def IsLine (line : Bytes) : Prop :=
  line ≠ [] ∧ CR ∉ line ∧ LF ∉ line ∧ 0 ∉ line ∧ line.length + 2 < HIN_HTTPD_MAX_HEADER_LINE_SIZE

/-- A line that says nothing about the framing. -/
def Neutral (line : Bytes) : Prop := fieldValue contentLength line = none ∧ fieldValue transferEncoding line = none

/-- A line with its end. -/
def endLine (line : Bytes) : Bytes := line ++ [CR, LF]

/-- **A proxy whose client is a proxy**, and the lines it puts into its replies. It sends nothing compressed: its client, that
    is to copy the body, has not asked for it. -/
structure InnerProxy where
  client : ProxyClient
  banner : List Bytes
  cacheControl : List Bytes
  appended : List Bytes
  get : client.method = .get
  status : client.status ≠ 304
  flags : hasFlag client.peerFlags HIN_HTTP_CHUNKED = false
  uncompressed : client.compresses = false
  version : client.ver0 = false
  texts : client.banner = banner.map endLine ∧ client.cacheControl = cacheControl.map endLine ∧
    client.appended = appended.map endLine
  lines : ∀ line ∈ banner ++ cacheControl ++ appended, IsLine line ∧ Neutral line

namespace InnerProxy

/-- The lines of the head the proxy writes for a response. -/
def headLines (x : InnerProxy) (r : UpstreamResponse) : List Bytes :=
  x.banner ++ (if r.noted.chunked then [bytes "Transfer-Encoding: chunked"] else []) ++ x.cacheControl ++
    [if x.client.keepAlive then bytes "Connection: keep-alive" else bytes "Connection: close"] ++ x.appended ++
    (if r.noted.sz ≠ 0 ∧ r.noted.chunked = false then [bytes "Content-Length: " ++ decimal r.noted.sz] else []) ++
    r.lines.filter isCopied

/-- **The response as the next proxy is to read it**: the same status under its usual name, and the pieces of the body the pipe
    has handed on. -/
def relayed (x : InnerProxy) (r : UpstreamResponse) (calls : List (Bytes × Bool)) : UpstreamResponse where
  status := decimal (decNat 0 r.status)
  reason := httpStatusName (decNat 0 r.status)
  lines := x.headLines r
  framing := match r.framing with
    | .chunked .. => .chunked (payloads (calls.map Prod.fst)) (encodeCalls calls).dropLast.dropLast [CR, LF]
    | f => f
  body := calls.flatMap (·.1)

end InnerProxy

/-- A response that says where it ends, and whose lines and body fit into what a proxy has for them. -/
structure Fits (r : UpstreamResponse) : Prop where
  framing : (∃ n, r.framing = .length (n + 1)) ∨ ∃ chunks enc trailer, r.framing = .chunked chunks enc trailer
  lines : ∀ line ∈ r.lines, IsLine line
  body : r.body.length ≤ longMax

/-! ## The text of the head -/

theorem endLine_texts (lines : List Bytes) : (lines.map endLine ++ [[CR, LF]]).flatten = UpstreamResponse.text lines := by
  unfold UpstreamResponse.text
  rw [List.flatten_append, List.flatMap_def, List.flatten_singleton]
  rfl

/-- `httpd_request_chunked` leaves the version alone. -/
theorem httpdRequestChunked_version (peer : UInt32) :
    hasFlag (httpdRequestChunked peer).1 HIN_HTTP_VER0 = hasFlag peer HIN_HTTP_VER0 := by
  have hchunked : hasFlag HIN_HTTP_CHUNKED HIN_HTTP_VER0 = false := by decide
  unfold httpdRequestChunked
  split
  · exact hasFlag_keep (by decide) _
  · split
    · rw [hasFlag_or, hchunked, Bool.or_false]
    · rfl

theorem httpdPipeSetChunked_version (peer : UInt32) :
    hasFlag (httpdPipeSetChunked peer).1 HIN_HTTP_VER0 = hasFlag peer HIN_HTTP_VER0 := by
  unfold httpdPipeSetChunked
  split
  · exact httpdRequestChunked_version peer
  · split
    · exact httpdRequestChunked_version peer
    · rfl

theorem rproxyOptions_version {c : ProxyClient} (hget : c.method = .get) (hstatus : c.status ≠ 304) (f : Framing) :
    hasFlag (rproxyOptions c f).1 HIN_HTTP_VER0 = c.ver0 := by
  have hno : hasFlag (if f.chunked then HIN_HTTP_CHUNKED else 0) HIN_HTTP_VER0 = false := by cases f.chunked <;> decide
  unfold rproxyOptions httpdPipeSetHttp11ResponseOptions
  rw [if_neg (by rw [hget]; simp [hstatus]), httpdPipeSetChunked_version, hasFlag_or, hno, Bool.or_false]
  rfl

namespace InnerProxy

variable (x : InnerProxy) {r : UpstreamResponse}

/-- **The head that is written.** -/
theorem head_eq (tail : Bytes) : hinRproxyHeaders x.client (r.upstreamHead tail) =
    { ver0 := false, status := decNat 0 r.status, contentEncoding := none, chunked := r.noted.chunked,
      keepAlive := x.client.keepAlive,
      contentLength := if r.noted.sz ≠ 0 ∧ r.noted.chunked = false then some r.noted.sz else none,
      copied := r.lines.filter isCopied } := by
  obtain ⟨hchunked, hkeep, hcompress, -⟩ := rproxyOptions_spec x.get x.status x.flags r.noted
  have hversion := rproxyOptions_version x.get x.status r.noted
  rw [x.version] at hversion
  rw [x.version, x.uncompressed, Bool.false_and, Bool.or_false, Bool.not_false, Bool.true_and] at hchunked
  rw [x.version, Bool.false_and, Bool.not_false, Bool.and_true] at hkeep
  rw [x.uncompressed, hasFlag_compress, Bool.or_eq_false_iff] at hcompress
  have hnoted : (r.upstreamHead tail).framing = r.noted := rfl
  unfold hinRproxyHeaders
  dsimp only
  rw [hnoted, hversion, hchunked, hkeep, hcompress.1, hcompress.2]
  rfl

/-- What the encoder is. -/
theorem encoder_eq (f : Framing) : (rproxyOptions x.client f).2 = if f.chunked then .chunked else .raw := by
  obtain ⟨-, -, -, henc⟩ := rproxyOptions_spec x.get x.status x.flags f
  rw [henc, x.uncompressed, if_neg Bool.false_ne_true, x.version, Bool.not_false, Bool.true_and]

/-- **The texts of the head are lines**, with the blank one behind them. -/
theorem texts_eq (hr : Fits r) (tail : Bytes) (calls : List (Bytes × Bool)) :
    (hinRproxyHeaders x.client (r.upstreamHead tail)).texts x.client =
      ((x.relayed r calls).statusLine :: (x.relayed r calls).lines).map endLine ++ [[CR, LF]] := by
  obtain ⟨hbanner, hcache, happended⟩ := x.texts
  have hcopied : (r.lines.filter isCopied).map (fun line => cstr line ++ [CR, LF]) = (r.lines.filter isCopied).map endLine := by
    refine List.map_congr_left fun line hline => ?_
    obtain ⟨-, -, -, hnul, -⟩ := hr.lines line (List.mem_filter.mp hline).1
    rw [cstr_eq hnul]
    rfl
  have hchunked : endLine (bytes "Transfer-Encoding: chunked") = bytes "Transfer-Encoding: chunked\r\n" := by decide
  have hkeep : endLine (bytes "Connection: keep-alive") = bytes "Connection: keep-alive\r\n" := by decide
  have hclose : endLine (bytes "Connection: close") = bytes "Connection: close\r\n" := by decide
  have hfirst : endLine (x.relayed r calls).statusLine = bytes "HTTP/1." ++ decimal 1 ++ [32] ++ decimal (decNat 0 r.status) ++
      [32] ++ httpStatusName (decNat 0 r.status) ++ [CR, LF] := by
    have hone : bytes "HTTP/1." ++ decimal 1 ++ [32] = bytes "HTTP/1.1 " := by decide
    rw [hone]
    rfl
  have hlines : (x.relayed r calls).lines = x.headLines r := rfl
  unfold ProxyHead.texts
  rw [x.head_eq]
  dsimp only
  rw [hbanner, hcache, happended, hcopied, List.map_cons, hfirst, hlines]
  have hlength : ∀ n, endLine (bytes "Content-Length: " ++ decimal n) = bytes "Content-Length: " ++ decimal n ++ [CR, LF] :=
    fun _ => rfl
  unfold headLines
  cases r.noted.chunked <;> cases x.client.keepAlive <;> by_cases hsz : r.noted.sz = 0 <;>
    simp [hsz, hlength, hchunked, hkeep, hclose]

/-! ## The lines of the head -/

end InnerProxy

theorem isLine_of_all {line : Bytes} (h : (line != [] && line.all (fun c => c != CR && c != LF && c != 0) &&
    decide (line.length + 2 < HIN_HTTPD_MAX_HEADER_LINE_SIZE)) = true) : IsLine line := by
  simp only [Bool.and_eq_true, bne_iff_ne, ne_eq, List.all_eq_true, decide_eq_true_eq] at h
  obtain ⟨⟨hne, hall⟩, hlen⟩ := h
  refine ⟨hne, fun hc => (hall _ hc).1.1 rfl, fun hc => (hall _ hc).1.2 rfl, fun hc => (hall _ hc).2 rfl, hlen⟩

/-- A line that is copied is neutral. -/
theorem isCopied_neutral {line : Bytes} (h : isCopied line = true) : Neutral line := by
  have hnone : ∀ name : Bytes, name.all literalByte = true → name ++ [58] ∈ leftOut → fieldValue name line = none := by
    intro name hname hmem
    have hlit : (name ++ [58]).all literalByte = true := by
      rw [List.all_append, hname]
      decide
    have htook := List.all_eq_true.mp h _ hmem
    unfold matchiString at htook
    rw [← List.append_nil (name ++ [58]), matchStringVirtual_literal true (by simp) hlit] at htook
    unfold fieldValue
    split at htook
    · simp [formatLoop_end, Result.took] at htook
    · rename_i hno
      exact if_neg hno
  exact ⟨hnone contentLength (by decide) (by decide), hnone transferEncoding (by decide) (by decide)⟩

/-- The names of the statuses are texts that start with a letter. -/
theorem httpStatusName_text (status : Int) : CR ∉ httpStatusName status ∧ LF ∉ httpStatusName status ∧
    (httpStatusName status).length ≤ 40 ∧ ∃ c ∈ (httpStatusName status).head?, isalnum c = true := by
  have hgood : ∀ name ∈ bytes "Unknown" :: statusNames.map Prod.snd, CR ∉ name ∧ LF ∉ name ∧ name.length ≤ 40 ∧
      ∃ c ∈ name.head?, isalnum c = true := by
    decide
  refine hgood _ ?_
  unfold httpStatusName
  cases hlookup : statusNames.lookup status with
  | none => exact List.mem_cons_self
  | some name =>
      refine List.mem_cons_of_mem _ ?_
      obtain ⟨before, after, heq, -⟩ := List.lookup_eq_some_iff.mp hlookup
      rw [heq]
      simp

theorem decimal_spec (n : Nat) :
    decimal n ≠ [] ∧ (∀ c ∈ decimal n, isdigit c = true) ∧ decNat 0 (decimal n) = n := by
  rw [decimal_eq]
  exact decDigits_spec n

/-- A line with a number is one, and is found again. -/
theorem countedLine_spec (n : Nat) : fieldValue contentLength (bytes "Content-Length: " ++ decimal n) = some (32 :: decimal n) ∧
    fieldValue transferEncoding (bytes "Content-Length: " ++ decimal n) = none ∧
    (n < 2 ^ 31 → IsLine (bytes "Content-Length: " ++ decimal n)) := by
  refine ⟨?_, rfl, fun hn => ?_⟩
  · have hsplit : bytes "Content-Length: " ++ decimal n = (contentLength ++ [58]) ++ (32 :: decimal n) := by
      have h : bytes "Content-Length: " = contentLength ++ [58] ++ [32] := by decide
      rw [h, List.append_assoc]
      rfl
    unfold fieldValue
    rw [hsplit, if_pos (literalPrefix_toupper rfl _), List.drop_left' (by simp)]
  · have hlen := (decimal_length (n := n) (k := 10) (by decide)).mpr (by omega)
    have hdigits : ∀ c ∈ decimal n, c ≠ CR ∧ c ≠ LF ∧ c ≠ 0 := by
      intro c hc
      have hd := (decimal_spec n).2.1 c hc
      refine ⟨?_, ?_, ?_⟩
      all_goals
        rintro rfl
        exact absurd hd (by decide)
    apply isLine_of_all
    have hname : (bytes "Content-Length: ").all (fun c => c != CR && c != LF && c != 0) = true := by decide
    have hnum : (decimal n).all (fun c => c != CR && c != LF && c != 0) = true := by
      refine List.all_eq_true.mpr fun c hc => ?_
      obtain ⟨h1, h2, h3⟩ := hdigits c hc
      simp [h1, h2, h3]
    have hshort : (bytes "Content-Length: ").length = 16 := by decide
    have hmax : HIN_HTTPD_MAX_HEADER_LINE_SIZE = 4096 := rfl
    rw [List.all_append, hname, hnum, List.length_append, hshort]
    simp only [Bool.and_true, Bool.and_eq_true, bne_iff_ne, ne_eq, decide_eq_true_eq]
    exact ⟨by simp [(decimal_spec n).1], by omega⟩

/-- A counted body is no longer than the parser can count. -/
theorem counted_lt {r : UpstreamResponse} (hr : r.WellFormed) (hp : r.Plain) {n : Nat} (hframing : r.framing = .length n) :
    n < 2 ^ 31 := by
  have hframed := hr.framed
  unfold UpstreamResponse.Framed at hframed
  rw [hframing] at hframed
  obtain ⟨⟨line, hline, hsome⟩, hlength, -⟩ := hframed
  obtain ⟨v, hv⟩ := Option.isSome_iff_exists.mp hsome
  obtain ⟨digits, hvalue, -, hdigits, rfl⟩ := hlength line hline v hv
  obtain ⟨digits', rfl, -, hdigits', hlt⟩ := hp.length line hline v hv
  rwa [hvalue.digits_eq hdigits' hdigits]

namespace InnerProxy

variable (x : InnerProxy) {r : UpstreamResponse}

/-- **The lines of the head.** One of them declares the framing. -/
theorem mem_headLines {line : Bytes} (h : line ∈ x.headLines r) :
    (Neutral line ∧ (IsLine line ∨ line ∈ r.lines)) ∨
      (r.noted.chunked = true ∧ line = bytes "Transfer-Encoding: chunked") ∨
      (r.noted.sz ≠ 0 ∧ r.noted.chunked = false ∧ line = bytes "Content-Length: " ++ decimal r.noted.sz) := by
  have hown : ∀ line ∈ x.banner ++ x.cacheControl ++ x.appended, Neutral line ∧ (IsLine line ∨ line ∈ r.lines) :=
    fun line hline => ⟨(x.lines line hline).2, .inl (x.lines line hline).1⟩
  unfold headLines at h
  simp only [List.mem_append, List.mem_ite_nil_right, List.mem_singleton] at h
  rcases h with (((((h | ⟨hch, rfl⟩) | h) | h) | h) | ⟨hsz, h⟩) | h
  · exact .inl (hown line (by simp [h]))
  · exact .inr (.inl ⟨hch, rfl⟩)
  · exact .inl (hown line (by simp [h]))
  · refine .inl ?_
    split at h
    · subst h
      exact ⟨⟨by decide, by decide⟩, .inl (isLine_of_all (by decide))⟩
    · subst h
      exact ⟨⟨by decide, by decide⟩, .inl (isLine_of_all (by decide))⟩
  · exact .inl (hown line (by simp [h]))
  · exact .inr (.inr ⟨hsz.1, hsz.2, h⟩)
  · obtain ⟨hmem, hcopied⟩ := List.mem_filter.mp h
    exact .inl ⟨isCopied_neutral hcopied, .inr hmem⟩

theorem isLine_headLines (hr : r.WellFormed) (hp : r.Plain) (hfits : Fits r) {line : Bytes} (h : line ∈ x.headLines r) :
    IsLine line := by
  rcases x.mem_headLines h with ⟨-, hline | hline⟩ | ⟨-, rfl⟩ | ⟨hsz, hch, rfl⟩
  · exact hline
  · exact hfits.lines line hline
  · exact isLine_of_all (by decide)
  · rcases hfits.framing with ⟨n, hframing⟩ | ⟨chunks, enc, trailer, hframing⟩
    · have hnoted : r.noted.sz = ((n + 1 : Nat) : Int) := by
        unfold UpstreamResponse.noted
        rw [hframing]
      rw [hnoted]
      exact (countedLine_spec (n + 1)).2.2 (counted_lt hr hp hframing)
    · have hnoted : r.noted.chunked = true := by
        unfold UpstreamResponse.noted
        rw [hframing]
      exact absurd (hnoted.symm.trans hch) (by decide)

/-- **No text of the head is left out**, or has the length that fits nowhere. -/
theorem texts_short (hr : r.WellFormed) (hp : r.Plain) (hfits : Fits r) (tail : Bytes) (calls : List (Bytes × Bool)) :
    ∀ text ∈ (hinRproxyHeaders x.client (r.upstreamHead tail)).texts x.client,
      text.length < HIN_HTTPD_MAX_HEADER_LINE_SIZE := by
  intro text htext
  have hmax : HIN_HTTPD_MAX_HEADER_LINE_SIZE = 4096 := rfl
  have hend : ∀ line, (endLine line).length = line.length + 2 := fun line => List.length_append
  rw [x.texts_eq hfits tail calls, List.mem_append, List.mem_map, List.mem_singleton] at htext
  rcases htext with ⟨line, hline, rfl⟩ | rfl
  · rcases List.mem_cons.mp hline with rfl | hline
    · have hdigits := (decimal_length (n := decNat 0 r.status) (k := 3) (by decide)).mpr (by
        have := decNat_lt 0 r.status hr.digits
        rw [hr.three] at this
        omega)
      have hname := (httpStatusName_text (decNat 0 r.status)).2.2.1
      have hversion : (bytes "HTTP/1.1 ").length = 9 := by decide
      rw [hend]
      unfold UpstreamResponse.statusLine relayed
      simp only [List.length_append, List.length_singleton, hversion]
      omega
    · rw [hend]
      exact (x.isLine_headLines hr hp hfits hline).2.2.2.2
  · rw [hmax]
    decide

end InnerProxy

/-! ## The body behind the head -/

/-- **What the pipe of a whole response has handed on** is its body, and the last call has told the encoder so. -/
theorem piped_body {r : UpstreamResponse} (hr : r.WellFormed) (hp : r.Plain) (hfits : Fits r) {es : List ProxyEvent}
    {s : ProxyState} (hrun : RunWith (proxyStep false) (fun s e => Arrives r s e ∧ CutsProxy r s e) {} es s)
    {u : UpstreamHead} {p : BodyPipe} {calls : List (Bytes × Bool)} (hphase : s.phase = .piping u p calls)
    (hdone : p.done = true) :
    (∃ tail, u = r.upstreamHead tail) ∧ calls.flatMap (·.1) = r.body ∧ FlushedOnce calls := by
  have htracks := proxy_tracks hr hp hrun
  unfold Tracks at htracks
  rw [hphase] at htracks
  obtain ⟨tail, got, rfl, -, hgot, hpipe⟩ := htracks
  refine ⟨⟨tail, rfl⟩, ?_⟩
  unfold PipeTracks at hpipe
  rcases hfits.framing with ⟨n, hframing⟩ | ⟨chunks, enc, trailer, hframing⟩
  · rw [hframing] at hpipe
    dsimp only at hpipe
    have hpayload : r.payload = r.body := by
      unfold UpstreamResponse.payload
      rw [hframing]
    have hlength := hr.length_body hframing
    have hwhole : n + 1 ≤ got.length := of_decide_eq_true (hpipe.done.symm.trans hdone)
    have hbody : got = r.body := by
      rw [hpayload] at hgot
      exact hgot.eq_of_length_le (by omega)
    have hflushed := hpipe.flushed
    rw [hdone] at hflushed
    exact ⟨hpipe.handed.trans hbody, hflushed.once⟩
  · rw [hframing] at hpipe
    obtain ⟨henc, hbody⟩ := hr.encodes hframing
    obtain ⟨rcv, hsync, -, -, -, hrdone, hhanded, hflushed⟩ := hpipe
    have hend : enc.length ≤ rcv.received.length :=
      (henc.run_prefix (hp.chunks _ _ _ hframing) hsync.pre).2.mp (hsync.done.symm.trans (hrdone.symm.trans hdone))
    rw [hdone] at hflushed
    refine ⟨?_, hflushed.once⟩
    rw [hbody, ← henc.payload_ended (hp.chunks _ _ _ hframing) hsync.pre hend, ← hsync.output, ← hhanded]
    rfl

/-- **A response that has been received as a whole** has been handed on. -/
theorem received_done {r : UpstreamResponse} (hr : r.WellFormed) (hp : r.Plain) (hfits : Fits r) {es : List ProxyEvent}
    {s : ProxyState} (hrun : RunWith (proxyStep false) (fun s e => Arrives r s e ∧ CutsProxy r s e) {} es s)
    (hall : s.received = r.wire) : ∃ u p calls, s.phase = .piping u p calls ∧ p.done = true := by
  have htracks := proxy_tracks hr hp hrun
  unfold Tracks at htracks
  cases hphase : s.phase with
  | failed =>
      rw [hphase] at htracks
      exact htracks.elim
  | waiting =>
      -- a whole response is more than a part of its head
      rw [hphase] at htracks
      have hlt := htracks.2
      rw [hall] at hlt
      unfold UpstreamResponse.wire at hlt
      rw [List.length_append] at hlt
      omega
  | piping u p calls =>
      rw [hphase] at htracks
      obtain ⟨tail, got, -, hreceived, -, hpipe⟩ := htracks
      refine ⟨u, p, calls, rfl, ?_⟩
      have hgot : got = r.payload := by
        rw [hreceived] at hall
        exact List.append_cancel_left hall
      unfold PipeTracks at hpipe
      unfold UpstreamResponse.payload at hgot
      rcases hfits.framing with ⟨n, hframing⟩ | ⟨chunks, enc, trailer, hframing⟩
      · rw [hframing] at hpipe hgot
        dsimp only at hpipe hgot
        rw [hpipe.done, hgot, hr.length_body hframing]
        exact decide_eq_true (Nat.le_refl _)
      · rw [hframing] at hpipe hgot
        obtain ⟨rcv, hsync, hrcv, -, -, hdone, -⟩ := hpipe
        obtain ⟨henc, -⟩ := hr.encodes hframing
        rw [hdone, hsync.done]
        apply (henc.run_prefix (hp.chunks _ _ _ hframing) hsync.pre).2.mpr
        rw [hrcv, hgot, List.length_append]
        omega

/-- What the chunking encoder queues. -/
theorem queued_encodeCalls (Z : Zlib) (calls : List (Bytes × Bool)) : Encoder.chunked.queued Z calls = encodeCalls calls := by
  show (fed Z .chunked calls).queued = _
  induction calls using List.reverseRecOn with
  | nil => rfl
  | append_singleton calls call ih =>
      rw [fed_snoc, encodeCalls_append, ← ih]
      simp [Sender.encode, encodeCalls]

/-- A chunked body up to its trailer. -/
theorem body_dropLast {chunks : List Bytes} {stream : Bytes} (h : Body chunks stream) :
    Encodes chunks stream.dropLast.dropLast ∧ stream.dropLast.dropLast ++ [CR, LF] = stream := by
  obtain ⟨head, henc, rfl⟩ := h
  have hdrop : (head ++ [CR, LF]).dropLast.dropLast = head := by
    rw [List.dropLast_append_of_ne_nil (by simp)]
    exact List.dropLast_concat
  rw [hdrop]
  exact ⟨henc, rfl⟩

namespace InnerProxy

variable (x : InnerProxy) {r : UpstreamResponse} {calls : List (Bytes × Bool)}

/-- **What the proxy writes is the response it relays.** -/
theorem reply_wire (Z : Zlib) (hr : r.WellFormed) (hp : r.Plain) (hfits : Fits r) (tail : Bytes) (hcalls : FlushedOnce calls) :
    ∃ reply, proxyReply Z x.client (r.upstreamHead tail) calls = some reply ∧
      reply.text ++ reply.body = (x.relayed r calls).wire := by
  have hshort := x.texts_short hr hp hfits tail calls
  obtain ⟨-, hsome⟩ := proxyReply_spec Z x.client (r.upstreamHead tail) calls
  refine ⟨_, hsome fun text htext => Nat.ne_of_lt (hshort text htext), ?_⟩
  have hkept : (((hinRproxyHeaders x.client (r.upstreamHead tail)).texts x.client).filter
      fun t => t.length < HIN_HTTPD_MAX_HEADER_LINE_SIZE) = (hinRproxyHeaders x.client (r.upstreamHead tail)).texts x.client :=
    List.filter_eq_self.mpr fun text htext => decide_eq_true (hshort text htext)
  have hbody : (rproxyOptions x.client (r.upstreamHead tail).framing).2.queued Z calls = (x.relayed r calls).payload := by
    have hnoted : (r.upstreamHead tail).framing = r.noted := rfl
    rw [hnoted, x.encoder_eq]
    unfold UpstreamResponse.noted UpstreamResponse.payload relayed
    rcases hfits.framing with ⟨n, hframing⟩ | ⟨chunks, enc, trailer, hframing⟩
    · rw [hframing]
      exact queued_raw calls
    · rw [hframing]
      exact (queued_encodeCalls Z calls).trans (body_dropLast hcalls.body).2.symm
  dsimp only
  rw [hkept, x.texts_eq hfits tail calls, endLine_texts, hbody]
  rfl

/-- The framing the proxy declares is that of what it writes. -/
theorem relayed_framed (hr : r.WellFormed) (hfits : Fits r) (hcalls : FlushedOnce calls)
    (hbody : calls.flatMap (·.1) = r.body) : (x.relayed r calls).Framed := by
  unfold UpstreamResponse.Framed
  have hlines : (x.relayed r calls).lines = x.headLines r := rfl
  have hframed : (x.relayed r calls).framing = match r.framing with
    | .chunked .. => .chunked (payloads (calls.map Prod.fst)) (encodeCalls calls).dropLast.dropLast [CR, LF]
    | f => f := rfl
  rcases hfits.framing with ⟨n, hframing⟩ | ⟨chunks, enc, trailer, hframing⟩
  · have hsz : r.noted = { sz := ((n + 1 : Nat) : Int) } := by
      unfold UpstreamResponse.noted
      rw [hframing]
    obtain ⟨hvalue, hother, -⟩ := countedLine_spec (n + 1)
    rw [hframed, hframing, hlines]
    dsimp only
    refine ⟨⟨bytes "Content-Length: " ++ decimal ((n + 1 : Nat) : Int), ?_, by rw [hvalue]; rfl⟩, ?_, ?_, ?_⟩
    · have hcounted : r.noted.sz ≠ 0 ∧ r.noted.chunked = false := by
        rw [hsz]
        exact ⟨Int.natCast_ne_zero.mpr (Nat.succ_ne_zero n), rfl⟩
      unfold headLines
      refine List.mem_append_left _ (List.mem_append_right _ ?_)
      rw [if_pos hcounted, hsz]
      exact List.mem_singleton.mpr rfl
    · intro line hline v hv
      rcases x.mem_headLines hline with ⟨hneutral, -⟩ | ⟨hch, -⟩ | ⟨-, -, rfl⟩
      · exact absurd (hneutral.1.symm.trans hv) (by simp)
      · rw [hsz] at hch
        exact absurd hch Bool.false_ne_true
      · rw [hsz] at hv
        obtain rfl := Option.some.inj (hvalue.symm.trans hv)
        obtain ⟨hne, hdigits, hnum⟩ := decimal_spec (n + 1)
        exact ⟨_, ⟨[32], [], by simp, by simp, by simp⟩, hne, hdigits, hnum⟩
    · intro line hline
      rcases x.mem_headLines hline with ⟨hneutral, -⟩ | ⟨hch, -⟩ | ⟨-, -, rfl⟩
      · exact hneutral.2
      · rw [hsz] at hch
        exact absurd hch Bool.false_ne_true
      · rw [hsz]
        exact hother
    · exact (congrArg List.length hbody).trans (hr.length_body hframing)
  · have hch : r.noted.chunked = true := by
      unfold UpstreamResponse.noted
      rw [hframing]
    have hcoding : fieldValue transferEncoding (bytes "Transfer-Encoding: chunked") = some (32 :: bytes "chunked") := by decide
    rw [hframed, hframing, hlines]
    dsimp only
    refine ⟨⟨bytes "Transfer-Encoding: chunked", ?_, by rw [hcoding]; rfl⟩, ?_, ?_, (body_dropLast hcalls.body).1, ?_⟩
    · unfold headLines
      rw [if_pos hch]
      simp
    · intro line hline v hv
      rcases x.mem_headLines hline with ⟨hneutral, -⟩ | ⟨-, rfl⟩ | ⟨-, hno, -⟩
      · exact absurd (hneutral.2.symm.trans hv) (by simp)
      · obtain rfl := Option.some.inj (hcoding.symm.trans hv)
        exact ⟨bytes "chunked", ⟨[32], [], by simp, by simp, by simp⟩, by decide⟩
      · exact absurd (hch.symm.trans hno) (by decide)
    · intro line hline
      rcases x.mem_headLines hline with ⟨hneutral, -⟩ | ⟨-, rfl⟩ | ⟨-, hno, -⟩
      · exact hneutral.1
      · decide
      · exact absurd (hch.symm.trans hno) (by decide)
    · rw [flatten_payloads]
      exact List.flatMap_def

/-- **It is well-formed again.** -/
theorem relayed_wellFormed (hr : r.WellFormed) (hp : r.Plain) (hfits : Fits r) (hcalls : FlushedOnce calls)
    (hbody : calls.flatMap (·.1) = r.body) : (x.relayed r calls).WellFormed := by
  obtain ⟨-, hdigits, hvalue⟩ := decimal_spec (decNat 0 r.status)
  have hhigh : decNat 0 r.status < 10 ^ 3 := by
    have := decNat_lt 0 r.status hr.digits
    rw [hr.three] at this
    omega
  have hlow := hr.final
  have hname := httpStatusName_text (decNat 0 r.status)
  refine ⟨hdigits, ?_, hvalue ▸ hlow, hvalue ▸ hr.hasBody, ⟨hname.1, hname.2.1⟩, ?_, x.relayed_framed hr hfits hcalls hbody⟩
  · have hle := (decimal_length (n := decNat 0 r.status) (k := 3) (by decide)).mpr hhigh
    have hnot := (not_congr (decimal_length (n := decNat 0 r.status) (k := 2) (by decide))).mpr (by omega)
    show (decimal (decNat 0 r.status)).length = 3
    omega
  · intro line hline
    obtain ⟨hne, hcr, hlf, -⟩ := x.isLine_headLines hr hp hfits hline
    exact ⟨hne, hcr, hlf⟩

/-- It has what the next parser asks for. -/
theorem relayed_plain (hr : r.WellFormed) (hp : r.Plain) (hfits : Fits r) (hbody : calls.flatMap (·.1) = r.body) :
    (x.relayed r calls).Plain := by
  refine ⟨(httpStatusName_text (decNat 0 r.status)).2.2.2, ?_, ?_⟩
  · intro line hline v hv
    rcases x.mem_headLines hline with ⟨hneutral, -⟩ | ⟨-, rfl⟩ | ⟨hsz, hch, rfl⟩
    · exact absurd (hneutral.1.symm.trans hv) (by simp)
    · have hnone : fieldValue contentLength (bytes "Transfer-Encoding: chunked") = none := by decide
      exact absurd (hnone.symm.trans hv) (by simp)
    · rcases hfits.framing with ⟨n, hframing⟩ | ⟨chunks, enc, trailer, hframing⟩
      · have hnoted : r.noted.sz = ((n + 1 : Nat) : Int) := by
          unfold UpstreamResponse.noted
          rw [hframing]
        rw [hnoted, (countedLine_spec (n + 1)).1] at hv
        obtain ⟨hne, hdigits, hnum⟩ := decimal_spec (n + 1)
        refine ⟨_, (Option.some.inj hv).symm, hne, hdigits, ?_⟩
        rw [hnum]
        exact counted_lt hr hp hframing
      · have hnoted : r.noted.chunked = true := by
          unfold UpstreamResponse.noted
          rw [hframing]
        exact absurd (hnoted.symm.trans hch) (by decide)
  · intro chunks enc trailer hchunked
    have hsize : (calls.map Prod.fst).flatten.length ≤ longMax := by
      rw [← List.flatMap_def, hbody]
      exact hfits.body
    have hle : ∀ c ∈ payloads (calls.map Prod.fst), c.length ≤ longMax :=
      chunk_le (by rwa [flatten_payloads])
    unfold relayed at hchunked
    dsimp only at hchunked
    split at hchunked
    · obtain ⟨rfl, -⟩ := BodyFraming.chunked.inj hchunked
      exact hle
    · rename_i hno
      exact absurd hchunked (hno _ _ _)

theorem relayed_fits (hr : r.WellFormed) (hp : r.Plain) (hfits : Fits r) (hbody : calls.flatMap (·.1) = r.body) :
    Fits (x.relayed r calls) := by
  refine ⟨?_, fun line hline => x.isLine_headLines hr hp hfits hline, ?_⟩
  · unfold relayed
    rcases hfits.framing with ⟨n, hframing⟩ | ⟨chunks, enc, trailer, hframing⟩
    · rw [hframing]
      exact .inl ⟨n, rfl⟩
    · rw [hframing]
      exact .inr ⟨_, _, _, rfl⟩
  · show (calls.flatMap (·.1)).length ≤ longMax
    rw [hbody]
    exact hfits.body

/-- The lines that are copied stand at the end, and are copied again. -/
theorem relayed_copied : r.lines.filter isCopied <:+ (x.relayed r calls).lines.filter isCopied := by
  have hlines : (x.relayed r calls).lines = x.headLines r := rfl
  rw [hlines]
  unfold headLines
  rw [List.filter_append, List.filter_filter]
  simp only [Bool.and_self]
  exact List.suffix_append _ _

end InnerProxy

/-! ## Hops -/

/-- **A hop**: a proxy has read the response, in whatever reads, to its end, and what it has written is `r'`. -/
def Hop (Z : Zlib) (r r' : UpstreamResponse) : Prop :=
  ∃ (x : InnerProxy) (es : List ProxyEvent) (s : ProxyState) (u : UpstreamHead) (p : BodyPipe) (calls : List (Bytes × Bool))
    (reply : ProxyReply),
    RunWith (proxyStep false) (fun s e => Arrives r s e ∧ CutsProxy r s e) {} es s ∧ s.phase = .piping u p calls ∧
      p.done = true ∧ proxyReply Z x.client u calls = some reply ∧ reply.text ++ reply.body = r'.wire ∧
      r' = x.relayed r calls

/-- **The response has come through**: what is read now is a response again, with its status, its body, and behind the lines of
    the proxies its own. -/
structure Through (r r' : UpstreamResponse) : Prop where
  wellFormed : r'.WellFormed
  plain : r'.Plain
  fits : Fits r'
  status : decNat 0 r'.status = decNat 0 r.status
  body : r'.body = r.body
  copied : r.lines.filter isCopied <:+ r'.lines.filter isCopied

theorem Through.trans {r₁ r₂ r₃ : UpstreamResponse} (h : Through r₁ r₂) (h' : Through r₂ r₃) : Through r₁ r₃ where
  wellFormed := h'.wellFormed
  plain := h'.plain
  fits := h'.fits
  status := h'.status.trans h.status
  body := h'.body.trans h.body
  copied := h.copied.trans h'.copied

/-- What a proxy makes of a response it has read to its end. -/
theorem InnerProxy.relayed_through (x : InnerProxy) {r : UpstreamResponse} (hr : r.WellFormed) (hp : r.Plain) (hfits : Fits r)
    {calls : List (Bytes × Bool)} (hbody : calls.flatMap (·.1) = r.body) (hcalls : FlushedOnce calls) :
    Through r (x.relayed r calls) where
  wellFormed := x.relayed_wellFormed hr hp hfits hcalls hbody
  plain := x.relayed_plain hr hp hfits hbody
  fits := x.relayed_fits hr hp hfits hbody
  status := (decimal_spec (decNat 0 r.status)).2.2
  body := hbody
  copied := x.relayed_copied

/-- **One hop.** -/
theorem Hop.through {Z : Zlib} {r r' : UpstreamResponse} (h : Hop Z r r') (hr : r.WellFormed) (hp : r.Plain) (hfits : Fits r) :
    Through r r' := by
  obtain ⟨x, es, s, u, p, calls, reply, hrun, hphase, hdone, -, -, rfl⟩ := h
  obtain ⟨-, hbody, hcalls⟩ := piped_body hr hp hfits hrun hphase hdone
  exact x.relayed_through hr hp hfits hbody hcalls

/-- A proxy that has the whole of a response makes a hop of it. -/
theorem hop_of_received (Z : Zlib) (x : InnerProxy) {r : UpstreamResponse} (hr : r.WellFormed) (hp : r.Plain) (hfits : Fits r)
    {es : List ProxyEvent} {s : ProxyState}
    (hrun : RunWith (proxyStep false) (fun s e => Arrives r s e ∧ CutsProxy r s e) {} es s) (hall : s.received = r.wire) :
    ∃ u p calls reply r', s.phase = .piping u p calls ∧ proxyReply Z x.client u calls = some reply ∧
      reply.text ++ reply.body = r'.wire ∧ Hop Z r r' := by
  obtain ⟨u, p, calls, hphase, hdone⟩ := received_done hr hp hfits hrun hall
  obtain ⟨⟨tail, rfl⟩, -, hcalls⟩ := piped_body hr hp hfits hrun hphase hdone
  obtain ⟨reply, hreply, hwire⟩ := x.reply_wire Z hr hp hfits tail hcalls
  exact ⟨_, p, calls, reply, x.relayed r calls, hphase, hreply, hwire, x, es, s, _, p, calls, reply, hrun, hphase, hdone, hreply,
    hwire, rfl⟩

/-- The proxy of the sample. -/
def plainProxy : InnerProxy where
  client := keepAliveRequest 0
  banner := []
  cacheControl := []
  appended := []
  get := rfl
  status := by decide
  flags := by decide
  uncompressed := by decide
  version := by decide
  texts := ⟨rfl, rfl, rfl⟩
  lines := fun _ hline => absurd hline (by simp)

end Http
end Hin9
