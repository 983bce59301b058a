import Hin9.Basic.PatternSpec
import Hin9.Http.Filters
import Hin9.Http.SendFile

/-!
# `Http.FileHead` — the head of a file response (`httpd_head.c`, `httpd_file.c`, `filters.c`)

The `Range` branch of `httpd_parse_headers_line`, the flags `httpd_pipe_set_http11_response_options` settles, and the
lines `httpd_send_file` writes. Lines the framing of the response does not depend on (`Date`, `Server`,
`Cache-Control`, `Content-Type`, the headers a script appends) are left out.
-/

namespace Hin9
namespace Http

open Pattern

/-! ## The `Range` line -/

/-- `strtol (s, NULL, 10)`: white space, a sign, digits, saturation at the ends of `long`. -/
def strtolDec (s : Bytes) : Int :=
  let s := s.dropWhile isspace
  let negative := s.head? == some 45
  let s := if s.head? == some 45 || s.head? == some 43 then s.tail else s
  let n : Int := decNat 0 (s.takeWhile isdigit)
  if negative then max (-n) (-(2 ^ 63)) else min n (2 ^ 63 - 1)

/-- `atoi`: the result of `strtol`, cut to an `int`. -/
def atoi (s : Bytes) : Int := (strtolDec s).bmod (2 ^ 32)

/-- Digits are read as the number they denote, as far as a `long` goes. -/
theorem strtolDec_digits {a : Bytes} (hne : a ≠ []) (ha : ∀ c ∈ a, isdigit c = true) :
    strtolDec a = min (decNat 0 a : Int) (2 ^ 63 - 1) := by
  obtain ⟨c, cs, rfl⟩ := List.exists_cons_of_ne_nil hne
  have hc := ha c List.mem_cons_self
  have hfirst : isspace c = false ∧ c ≠ 45 ∧ c ≠ 43 := by
    simp only [isdigit, Bool.and_eq_true, decide_eq_true_eq, UInt8.le_iff_toNat_le] at hc
    have h48 : (48 : UInt8).toNat = 48 := rfl
    have h57 : (57 : UInt8).toNat = 57 := rfl
    refine ⟨?_, ?_, ?_⟩
    · simp only [isspace, Bool.or_eq_false_iff, Bool.and_eq_false_iff, beq_eq_false_iff_ne, decide_eq_false_iff_not,
        UInt8.le_iff_toNat_le]
      have h13 : (13 : UInt8).toNat = 13 := rfl
      refine ⟨?_, Or.inr (by omega)⟩
      rintro rfl
      exact absurd hc.1 (by decide)
    · rintro rfl
      exact absurd hc.1 (by decide)
    · rintro rfl
      exact absurd hc.1 (by decide)
  have htake : (c :: cs).takeWhile isdigit = c :: cs := List.takeWhile_eq_self_iff.mpr ha
  unfold strtolDec
  rw [List.dropWhile_cons_of_neg (by simp [hfirst.1])]
  simp [hfirst.2.1, hfirst.2.2, htake]

/-- **Numbers an `int` holds are read as they are written.** -/
theorem atoi_digits {a : Bytes} (hne : a ≠ []) (ha : ∀ c ∈ a, isdigit c = true) (hlt : decNat 0 a < 2 ^ 31) :
    atoi a = decNat 0 a := by
  unfold atoi
  rw [strtolDec_digits hne ha, min_eq_left (by omega)]
  exact Int.bmod_eq_of_le (by omega) (by omega)

/-- The `Range` branch of `httpd_parse_headers_line`. The names the branches above it look for start with other
    letters. The captures end in front of a byte that is no digit, where `atoi` stops as well. -/
def httpdParseRange (http : HttpdClient) (line : Bytes) : HttpdClient :=
  match (matchiString line (bytes "Range:%s*")).took with
  | none => http
  | some used =>
      let line := line.drop used
      let m := matchiString line (bytes "bytes=(%d+)-(%d*)")
      match m.took with
      | none => http
      | some _ =>
          { http with
            pos := atoi (m.capture line 0)
            count := if m.capture line 1 = [] then -1 else atoi (m.capture line 1) }

/-- The line a client sends for the bytes from `a` on, up to `b` where that is given. -/
def rangeLine (a b : Bytes) : Bytes := bytes "Range: bytes=" ++ a ++ [45] ++ b

theorem not_isdigit_dash : isdigit 45 = false := by decide

/-- **The line is read as it is written.** -/
theorem httpdParseRange_rangeLine (http : HttpdClient) {a b : Bytes} (hne : a ≠ [])
    (ha : ∀ c ∈ a, isdigit c = true) (hb : ∀ c ∈ b, isdigit c = true) :
    httpdParseRange http (rangeLine a b) =
      { http with pos := atoi a, count := if b = [] then -1 else atoi b } := by
  have hname : (matchiString (rangeLine a b) (bytes "Range:%s*")) = ⟨some 7, []⟩ := by
    have hf : bytes "Range:%s*" = bytes "Range:" ++ [37, 115, 42] := by decide
    have hline : rangeLine a b = bytes "Range:" ++ ([32] ++ (bytes "bytes=" ++ a ++ [45] ++ b)) := by
      unfold rangeLine
      simp only [← List.append_assoc]
      congr 4
    have hspec : takeSpecifier [42] = (⟨true, true⟩, []) := by decide
    have hp : matchPattern ([32] ++ (bytes "bytes=" ++ a ++ [45] ++ b)) [37, 115] ⟨true, true⟩ = some 1 := by
      refine matchPattern_class (m := PATTERN_SPACE) (by decide) true [32] _ ?_ ?_ (by simp)
      · intro c hc
        rw [List.mem_singleton.mp hc]
        decide
      · intro c hc
        have hc : (98 : UInt8) = c := by simpa [bytes] using hc
        rw [← hc]
        decide
    unfold matchiString matchStringVirtual
    rw [if_neg (by rw [hline]; simp [bytes]), hf, hline]
    show formatLoop true ((bytes "Range:").length + 4) _ _ 0 none [] = _
    have hpre : literalPrefix true (bytes "Range:")
        (bytes "Range:" ++ ([32] ++ (bytes "bytes=" ++ a ++ [45] ++ b))) = true := by
      simp [bytes, literalPrefix]
    rw [formatLoop_literal true 4 (by decide), if_pos hpre, List.drop_left, formatLoop_class, hspec]
    simp only [hp]
    rw [formatLoop_end]
    rfl
  have hvalue : (rangeLine a b).drop 7 = bytes "bytes=" ++ (a ++ 45 :: b) := by
    unfold rangeLine
    simp [bytes]
  have hbytes : matchiString (bytes "bytes=" ++ (a ++ 45 :: b)) (bytes "bytes=(%d+)-(%d*)") =
      ⟨some (7 + a.length + b.length), [(6, a.length), (7 + a.length, b.length)]⟩ := by
    have hf : bytes "bytes=(%d+)-(%d*)" = bytes "bytes=" ++ [40, 37, 100, 43, 41, 45, 40, 37, 100, 42, 41] := by decide
    have hs1 : takeSpecifier [43, 41, 45, 40, 37, 100, 42, 41] = (⟨true, false⟩, [41, 45, 40, 37, 100, 42, 41]) := by
      decide
    have hs2 : takeSpecifier [42, 41] = (⟨true, true⟩, [41]) := by decide
    have hp1 : matchPattern (a ++ 45 :: b) [37, 100] ⟨true, false⟩ = some a.length := by
      refine matchPattern_class (m := PATTERN_DIGIT) (by decide) false a _ ?_ ?_ (fun h => absurd h hne)
      · exact fun c hc => (matchChar_digit c 0).trans (ha c hc)
      · intro c hc
        have hc : (45 : UInt8) = c := by simpa using hc
        rw [← hc, matchChar_digit]
        exact not_isdigit_dash
    have hp2 : matchPattern b [37, 100] ⟨true, true⟩ = some b.length := by
      have h := matchPattern_class (m := PATTERN_DIGIT) (k := 100) (by decide) true b []
        (fun c hc => (matchChar_digit c 0).trans (hb c hc)) (by simp) (by simp)
      rwa [List.append_nil] at h
    unfold matchiString matchStringVirtual
    rw [if_neg (by simp [bytes]), hf]
    show formatLoop true ((bytes "bytes=").length + 12) _ _ 0 none [] = _
    have hpre : literalPrefix true (bytes "bytes=") (bytes "bytes=" ++ (a ++ 45 :: b)) = true := by
      simp [bytes, literalPrefix]
    rw [formatLoop_literal true 12 (by decide), if_pos hpre, List.drop_left, formatLoop_open, formatLoop_class, hs1]
    simp only [hp1]
    rw [List.drop_left, formatLoop_close]
    have hdash : formatLoop true 9 (45 :: [40, 37, 100, 42, 41]) (45 :: b) (0 + (bytes "bytes=").length + a.length) none
        ([] ++ [(0 + (bytes "bytes=").length, 0 + (bytes "bytes=").length + a.length - (0 + (bytes "bytes=").length))])
        = formatLoop true 8 [40, 37, 100, 42, 41] b (0 + (bytes "bytes=").length + a.length + 1) none
          ([] ++ [(0 + (bytes "bytes=").length, 0 + (bytes "bytes=").length + a.length - (0 + (bytes "bytes=").length))])
        := by
      rw [formatLoop]
      simp
    rw [hdash, formatLoop_open, formatLoop_class, hs2]
    simp only [hp2]
    rw [formatLoop_close, formatLoop_end]
    have hlen : (bytes "bytes=").length = 6 := by decide
    simp only [hlen]
    congr 1
    · simp
      omega
    · simp
      omega
  unfold httpdParseRange
  rw [hname]
  show (match (matchiString ((rangeLine a b).drop 7) (bytes "bytes=(%d+)-(%d*)")).took with
    | none => http
    | some _ => _) = _
  rw [hvalue, hbytes]
  have htook : (7 + a.length + b.length) = (6 + a.length + b.length) + 1 := by omega
  have hc0 : Result.capture ⟨some (7 + a.length + b.length), [(6, a.length), (7 + a.length, b.length)]⟩
      (bytes "bytes=" ++ (a ++ 45 :: b)) 0 = a := by
    show ((bytes "bytes=" ++ (a ++ 45 :: b)).drop 6).take a.length = a
    rw [show 6 = (bytes "bytes=").length by decide, List.drop_left, List.take_left]
  have hc1 : Result.capture ⟨some (7 + a.length + b.length), [(6, a.length), (7 + a.length, b.length)]⟩
      (bytes "bytes=" ++ (a ++ 45 :: b)) 1 = b := by
    show ((bytes "bytes=" ++ (a ++ 45 :: b)).drop (7 + a.length)).take b.length = b
    have hsplit : bytes "bytes=" ++ (a ++ 45 :: b) = (bytes "bytes=" ++ a ++ [45]) ++ b := by simp
    have hl : (bytes "bytes=" ++ a ++ [45]).length = 7 + a.length := by
      simp [bytes]
      omega
    rw [hsplit, ← hl, List.drop_left, List.take_length]
  simp only [hc0, hc1]
  rw [htook]
  rfl

/-! ## Flags -/

/-- The bits of `http->peer_flags`. -/
def HIN_HTTP_KEEPALIVE : UInt32 := 0x1
def HIN_HTTP_CHUNKED : UInt32 := 0x20
def HIN_HTTP_DEFLATE : UInt32 := 0x40
def HIN_HTTP_GZIP : UInt32 := 0x80
def HIN_HTTP_VER0 : UInt32 := 0x100
def HIN_HTTP_COMPRESS : UInt32 := HIN_HTTP_DEFLATE ||| HIN_HTTP_GZIP

def hasFlag (flags bit : UInt32) : Bool := flags &&& bit != 0

theorem hasFlag_clear {mask bit : UInt32} (h : ~~~mask &&& bit = 0) (flags : UInt32) :
    hasFlag (flags &&& ~~~mask) bit = false := by
  unfold hasFlag
  rw [UInt32.and_assoc, h]
  simp

/-- `httpd_request_chunked`: the flags, and whether chunks can be used. -/
def httpdRequestChunked (peer : UInt32) : UInt32 × Bool :=
  if hasFlag peer HIN_HTTP_VER0 then (peer &&& ~~~(HIN_HTTP_KEEPALIVE ||| HIN_HTTP_CHUNKED), false)
  else (if hasFlag peer HIN_HTTP_KEEPALIVE then peer ||| HIN_HTTP_CHUNKED else peer, true)

/-- `httpd_pipe_set_chunked`. -/
def httpdPipeSetChunked (peer : UInt32) : UInt32 × Encoder :=
  if hasFlag peer HIN_HTTP_COMPRESS then
    let peer := (httpdRequestChunked peer).1
    (peer, .deflate (hasFlag peer HIN_HTTP_CHUNKED))
  else if hasFlag peer HIN_HTTP_CHUNKED then
    let r := httpdRequestChunked peer
    (r.1, if r.2 then .chunked else .raw)
  else (peer, .raw)

/-- `httpd_pipe_set_http11_response_options`. -/
def httpdPipeSetHttp11ResponseOptions (status : Nat) (method : Method) (peer : UInt32) : UInt32 × Encoder :=
  if status = 304 ∨ method = .head then (peer &&& ~~~(HIN_HTTP_CHUNKED ||| HIN_HTTP_COMPRESS), .raw)
  else httpdPipeSetChunked peer

/-! ## The head -/

/-- The request with its `peer_flags`. -/
structure FileClient extends HttpdClient where
  peerFlags : UInt32 := 0
deriving Repr, DecidableEq

inductive ContentEncoding where
  | deflate
  | gzip
deriving Repr, DecidableEq

/-- The lines of the head: the version, the status and, where they are written, `Content-Encoding`,
    `Transfer-Encoding: chunked`, `Connection: keep-alive` (else `close`), `Last-Modified`, `ETag`,
    `Content-Length`, `Accept-Ranges` and `Content-Range`. -/
structure FileHead where
  ver0 : Bool
  status : Nat
  contentEncoding : Option ContentEncoding
  chunked : Bool
  keepAlive : Bool
  lastModified : Option Int
  etag : Option UInt64
  contentLength : Option Nat
  acceptRanges : Bool
  contentRange : Option (Int × Int × Int)
deriving Repr, DecidableEq

/-- A file response: its head, the read callback of its pipe, and what the pipe reads. -/
structure FileReply where
  head : FileHead
  encoder : Encoder
  response : FileResponse
deriving Repr, DecidableEq

/-- The lines `httpd_send_file` writes for the request `http` it has settled. -/
def fileHead (http : HttpdClient) (peer : UInt32) (item : FileItem) : FileHead where
  ver0 := hasFlag peer HIN_HTTP_VER0
  status := http.status
  contentEncoding :=
    if hasFlag peer HIN_HTTP_DEFLATE then some .deflate else if hasFlag peer HIN_HTTP_GZIP then some .gzip else none
  chunked := hasFlag peer HIN_HTTP_CHUNKED
  keepAlive := hasFlag peer HIN_HTTP_KEEPALIVE
  lastModified := if http.disable &&& HIN_HTTP_MODIFIED = 0 ∧ item.modified ≠ 0 then some item.modified else none
  etag := if http.disable &&& HIN_HTTP_ETAG = 0 ∧ item.etag ≠ 0 then some item.etag else none
  contentLength := if hasFlag peer HIN_HTTP_CHUNKED then none else some item.size
  acceptRanges := http.disable &&& HIN_HTTP_RANGE = 0 && !hasFlag peer HIN_HTTP_CHUNKED
  contentRange :=
    if http.status = 206 then some (http.pos, http.pos + http.count - 1, item.size) else none

/-- `httpd_send_file`: `none` is the `416` exit, whose response is not written here. -/
def httpdSendFileReply (http : FileClient) (item : FileItem) : Option FileReply :=
  match httpdSendFile http.toHttpdClient item with
  | (_, none) => none
  | (h, some r) =>
      let o := httpdPipeSetHttp11ResponseOptions h.status h.method (http.peerFlags &&& ~~~http.disable)
      some ⟨fileHead h o.1 item, o.2, r⟩

end Http
end Hin9
