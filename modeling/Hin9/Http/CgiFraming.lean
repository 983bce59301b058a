import Hin9.Http.CgiHead

/-!
# `Http.CgiFraming` — how the response of a backend is delimited

The framing of a response that a backend gives is decided by five flags of the client, the features that are switched
off, and the lines of the head. `options_spec` says what comes of them: whether the connection is kept, whether chunks
are sent, and which filter the body goes through.

What reaches the client of the backend's own lines is another matter. A length is left out only where chunks take its
place, so that it stays in front of a body that is compressed without chunks; and where neither chunks nor the lines
delimit the body, the head still says that the connection is kept. `cgi_framing_iff` is the exact condition.
-/

namespace Hin9
namespace Http

open Netcode (READ_SZ)
open Pattern
open Fcgi (Chain HIN_HTTPD_MAX_HEADER_LINE_SIZE cstr)

/-! ## Flags -/

theorem hasFlag_bit (flags : UInt32) (k : Nat) (hk : k < 32) :
    hasFlag flags ⟨BitVec.twoPow 32 k⟩ = flags.toBitVec.getLsbD k := by
  have hand : (flags &&& ⟨BitVec.twoPow 32 k⟩ : UInt32).toBitVec =
      if flags.toBitVec.getLsbD k then BitVec.twoPow 32 k else 0#32 := by
    rw [UInt32.toBitVec_and]
    exact BitVec.and_twoPow ..
  have hpow : BitVec.twoPow 32 k ≠ 0#32 := by
    intro h
    have : (BitVec.twoPow 32 k).getLsbD k = false := by
      rw [h]
      simp
    rw [BitVec.getLsbD_twoPow] at this
    simp [hk] at this
  unfold hasFlag
  rw [Bool.eq_iff_iff, bne_iff_ne, ne_eq, ← UInt32.toBitVec_inj, hand]
  cases hb : flags.toBitVec.getLsbD k with
  | true => simpa using hpow
  | false => simp

/-- A single flag is left when it is not in the mask. -/
theorem hasFlag_diff {bit : UInt32} (k : Nat) (hk : k < 32) (hbit : bit = ⟨BitVec.twoPow 32 k⟩) (flags mask : UInt32) :
    hasFlag (flags &&& ~~~mask) bit = (hasFlag flags bit && !hasFlag mask bit) := by
  subst hbit
  rw [hasFlag_bit _ k hk, hasFlag_bit _ k hk, hasFlag_bit _ k hk, UInt32.toBitVec_and, BitVec.getLsbD_and,
    UInt32.toBitVec_not, BitVec.getLsbD_not]
  simp [hk]

/-- The flags the framing depends on. -/
structure FramingFlags where
  ver0 : Bool
  keepAlive : Bool
  chunked : Bool
  deflate : Bool
  gzip : Bool
deriving Repr, DecidableEq

def FramingFlags.of (flags : UInt32) : FramingFlags :=
  { ver0 := hasFlag flags HIN_HTTP_VER0
    keepAlive := hasFlag flags HIN_HTTP_KEEPALIVE
    chunked := hasFlag flags HIN_HTTP_CHUNKED
    deflate := hasFlag flags HIN_HTTP_DEFLATE
    gzip := hasFlag flags HIN_HTTP_GZIP }

namespace FramingFlags

/-- `httpd_request_chunked`. -/
def request (f : FramingFlags) : FramingFlags :=
  { f with keepAlive := !f.ver0 && f.keepAlive, chunked := !f.ver0 && (f.chunked || f.keepAlive) }

def without (f m : FramingFlags) : FramingFlags :=
  { ver0 := f.ver0 && !m.ver0
    keepAlive := f.keepAlive && !m.keepAlive
    chunked := f.chunked && !m.chunked
    deflate := f.deflate && !m.deflate
    gzip := f.gzip && !m.gzip }

def compress (f : FramingFlags) : Bool := f.deflate || f.gzip

theorem of_diff (flags mask : UInt32) : of (flags &&& ~~~mask) = (of flags).without (of mask) := by
  unfold of without
  rw [hasFlag_diff 8 (by decide) (by decide), hasFlag_diff 0 (by decide) (by decide),
    hasFlag_diff 5 (by decide) (by decide), hasFlag_diff 6 (by decide) (by decide),
    hasFlag_diff 7 (by decide) (by decide)]

theorem of_or (flags other : UInt32) :
    of (flags ||| other) =
      { ver0 := (of flags).ver0 || (of other).ver0
        keepAlive := (of flags).keepAlive || (of other).keepAlive
        chunked := (of flags).chunked || (of other).chunked
        deflate := (of flags).deflate || (of other).deflate
        gzip := (of flags).gzip || (of other).gzip } := by
  simp only [of, hasFlag_or]

theorem of_compress (flags : UInt32) : hasFlag flags HIN_HTTP_COMPRESS = (of flags).compress := hasFlag_compress flags

theorem of_request (flags : UInt32) : of (httpdRequestChunked flags).1 = (of flags).request := by
  have hother : of (HIN_HTTP_KEEPALIVE ||| HIN_HTTP_CHUNKED) = ⟨false, true, true, false, false⟩ := by decide
  have hchunked : of HIN_HTTP_CHUNKED = ⟨false, false, true, false, false⟩ := by decide
  unfold httpdRequestChunked
  by_cases h0 : hasFlag flags HIN_HTTP_VER0 = true
  · have h0' : (of flags).ver0 = true := h0
    rw [if_pos h0, of_diff, hother]
    simp [without, request, h0']
  · have h0' : (of flags).ver0 = false := Bool.eq_false_iff.mpr h0
    rw [if_neg h0]
    by_cases hk : hasFlag flags HIN_HTTP_KEEPALIVE = true
    · have hk' : (of flags).keepAlive = true := hk
      rw [if_pos hk, of_or, hchunked]
      simp [request, h0', hk']
    · have hk' : (of flags).keepAlive = false := Bool.eq_false_iff.mpr hk
      rw [if_neg hk]
      show of flags = _
      rw [request, h0', hk']
      cases hf : of flags
      simp_all

/-- `hin_client_deflate_init`. -/
theorem of_deflateInit {flags : UInt32} (h : (of flags).compress = true) :
    of (hinClientDeflateInit flags) =
      ({ of flags with gzip := !(of flags).deflate && (of flags).gzip } : FramingFlags).request := by
  have hmask : of HIN_HTTP_COMPRESS = ⟨false, false, false, true, true⟩ := by decide
  have hd : of HIN_HTTP_DEFLATE = ⟨false, false, false, true, false⟩ := by decide
  have hg : of HIN_HTTP_GZIP = ⟨false, false, false, false, true⟩ := by decide
  unfold hinClientDeflateInit
  by_cases hdef : hasFlag flags HIN_HTTP_DEFLATE = true
  · have hdef' : (of flags).deflate = true := hdef
    rw [if_pos hdef, of_request, of_or, of_diff, hmask, hd]
    simp [without, hdef']
  · have hdef' : (of flags).deflate = false := Bool.eq_false_iff.mpr hdef
    have hgz' : (of flags).gzip = true := by simpa [compress, hdef'] using h
    have hgz : hasFlag flags HIN_HTTP_GZIP = true := hgz'
    rw [if_neg hdef, if_pos hgz, of_request, of_or, of_diff, hmask, hg]
    simp [without, hdef', hgz']

/-- The flags when the head of the backend arrives. -/
def started (f m : FramingFlags) : FramingFlags :=
  let f := f.request.without m
  if f.compress then ({ f with gzip := !f.deflate && f.gzip } : FramingFlags).request else f

/-- `httpd_pipe_set_chunked`. -/
def filter (f : FramingFlags) : FramingFlags × Encoder :=
  if f.compress then (f.request, .deflate f.request.chunked)
  else if f.chunked then (f.request, if f.ver0 then .raw else .chunked)
  else (f, .raw)

end FramingFlags

namespace CgiClient

/-- The flags of the client, and the features that are switched off. -/
def flags (c : CgiClient) : FramingFlags := .of c.peerFlags

def disabled (c : CgiClient) : FramingFlags := .of c.disable

theorem of_started (c : CgiClient) : FramingFlags.of c.started = c.flags.started c.disabled := by
  unfold CgiClient.started FramingFlags.started
  have hf : FramingFlags.of ((httpdRequestChunked c.peerFlags).1 &&& ~~~c.disable) = c.flags.request.without c.disabled := by
    rw [FramingFlags.of_diff, FramingFlags.of_request]
    rfl
  dsimp only
  rw [FramingFlags.of_compress, hf]
  split
  · rename_i hc
    rw [FramingFlags.of_deflateInit (by rw [hf]; exact hc), hf]
  · exact hf

end CgiClient

/-! ## What the first pass notes -/

/-- Two names that differ somewhere: no line begins with both. -/
def clash (a b : Bytes) : Bool := (a.zip b).any fun p => toupper p.1 != toupper p.2

theorem literalPrefix_clash {a b line : Bytes} (h : clash a b = true) (ha : literalPrefix true a line = true) :
    literalPrefix true b line = false := by
  induction a generalizing b line with
  | nil => simp [clash] at h
  | cons x xs ih =>
      cases b with
      | nil => simp [clash] at h
      | cons y ys =>
          cases line with
          | nil => simp [literalPrefix] at ha
          | cons c cs =>
              simp only [literalPrefix, if_true, Bool.and_eq_true, beq_iff_eq] at ha
              simp only [clash, List.zip_cons_cons, List.any_cons, Bool.or_eq_true, bne_iff_ne, ne_eq] at h
              simp only [literalPrefix, if_true, Bool.and_eq_false_iff, beq_eq_false_iff_ne, ne_eq]
              rcases h with h | h
              · left
                intro he
                exact h (ha.1.trans he.symm)
              · right
                exact ih h ha.2

/-- A line that does not begin with the literal part of a format does not match it. -/
theorem matchiString_none {lit fmt line : Bytes} (hne : lit ≠ []) (hlit : lit.all literalByte = true)
    (h : literalPrefix true lit line = false) : (matchiString line (lit ++ fmt)).took = none := by
  unfold matchiString
  rw [matchStringVirtual_literal true hne hlit, h]
  rfl

theorem matchiStringEqual_none {lit fmt line : Bytes} (hne : lit ≠ []) (hlit : lit.all literalByte = true)
    (h : literalPrefix true lit line = false) : (matchiStringEqual line (lit ++ fmt)).took = none := by
  unfold matchiStringEqual
  rw [matchStringVirtual_literal true hne hlit, h]
  simp [Result.took]

/-- A literal is matched by the lines that begin with it. -/
theorem matchiString_name {lit : Bytes} (hne : lit ≠ []) (hlit : lit.all literalByte = true) (line : Bytes) :
    (matchiString line lit).took = if literalPrefix true lit line then some lit.length else none := by
  have h := matchStringVirtual_literal true hne hlit [] line
  rw [List.append_nil] at h
  unfold matchiString
  rw [h]
  split
  · obtain ⟨c, cs, rfl⟩ := List.exists_cons_of_ne_nil hne
    simp [formatLoop, Result.took]
  · rfl

def contentEncoding : Bytes := bytes "Content-Encoding"

/-- The line has this name. -/
def named (name line : Bytes) : Bool := (fieldValue name line).isSome

theorem named_eq (name line : Bytes) : named name line = literalPrefix true (name ++ [58]) line := by
  unfold named fieldValue
  split
  · rename_i h
    rw [h]
    rfl
  · rename_i h
    rw [Bool.eq_false_iff.mpr h]
    rfl

/-- **One line.** Each of two names switches a feature off. -/
theorem line_disable (h : CgiHead) (line : Bytes) :
    FramingFlags.of (h.line line).disable =
      { FramingFlags.of h.disable with
        chunked := (FramingFlags.of h.disable).chunked || named transferEncoding line
        deflate := (FramingFlags.of h.disable).deflate || named contentEncoding line
        gzip := (FramingFlags.of h.disable).gzip || named contentEncoding line } := by
  have hst : bytes "Status: (%d+)" = bytes "Status: " ++ bytes "(%d+)" := by decide
  have hcl : bytes "Content-Length: (%d+)" = bytes "Content-Length: " ++ bytes "(%d+)" := by decide
  have hce : (matchiString line (bytes "Content-Encoding:")).took.isSome = named contentEncoding line := by
    rw [named_eq, show bytes "Content-Encoding:" = contentEncoding ++ [58] by decide,
      matchiString_name (by decide) (by decide)]
    split <;> simp_all
  have hte : (matchiString line (bytes "Transfer-Encoding:")).took.isSome = named transferEncoding line := by
    rw [named_eq, show bytes "Transfer-Encoding:" = transferEncoding ++ [58] by decide,
      matchiString_name (by decide) (by decide)]
    split <;> simp_all
  -- a line with one of the names is none of the lines that are looked for before it
  have earlier : ∀ name : Bytes, clash name (bytes "Status: ") = true → clash name (bytes "Content-Length: ") = true →
      literalPrefix true name line = true → (matchiString line (bytes "Status: (%d+)")).took = none ∧
        (matchiStringEqual line (bytes "Content-Length: (%d+)")).took = none := by
    intro name h1 h2 hname
    rw [hst, hcl]
    exact ⟨matchiString_none (by decide) (by decide) (literalPrefix_clash h1 hname),
      matchiStringEqual_none (by decide) (by decide) (literalPrefix_clash h2 hname)⟩
  have hcompress : FramingFlags.of HIN_HTTP_COMPRESS = ⟨false, false, false, true, true⟩ := by decide
  have hchunked : FramingFlags.of HIN_HTTP_CHUNKED = ⟨false, false, true, false, false⟩ := by decide
  by_cases hc : named contentEncoding line = true
  · have hpre : literalPrefix true (contentEncoding ++ [58]) line = true := by rwa [named_eq] at hc
    obtain ⟨h1, h2⟩ := earlier _ (by decide) (by decide) hpre
    have hno : named transferEncoding line = false := by
      rw [named_eq]
      exact literalPrefix_clash (by decide) hpre
    simp [CgiHead.line, hce, h1, h2, hc, hno, FramingFlags.of_or, hcompress]
  rw [Bool.not_eq_true] at hc
  by_cases ht : named transferEncoding line = true
  · have hpre : literalPrefix true (transferEncoding ++ [58]) line = true := by rwa [named_eq] at ht
    obtain ⟨h1, h2⟩ := earlier _ (by decide) (by decide) hpre
    simp [CgiHead.line, hce, hte, h1, h2, hc, ht, FramingFlags.of_or, hchunked]
  rw [Bool.not_eq_true] at ht
  have hcache : FramingFlags.of HIN_HTTP_CACHE = ⟨false, false, false, false, false⟩ := by decide
  have hdate : FramingFlags.of HIN_HTTP_DATE = ⟨false, false, false, false, false⟩ := by decide
  simp only [CgiHead.line, hce, hte, hc, ht, Bool.false_eq_true, if_false, Bool.or_false]
  split
  · rfl
  split
  · rfl
  split
  · simp [FramingFlags.of_or, hcache]
  split
  · simp [FramingFlags.of_or, hdate]
  · rfl

/-- **All lines.** -/
theorem ofLines_disable (lines : List Bytes) :
    FramingFlags.of (CgiHead.ofLines lines).disable =
      ⟨false, false, lines.any (named transferEncoding), lines.any (named contentEncoding),
        lines.any (named contentEncoding)⟩ := by
  have hfold : ∀ h : CgiHead, FramingFlags.of (lines.foldl CgiHead.line h).disable =
      { FramingFlags.of h.disable with
        chunked := (FramingFlags.of h.disable).chunked || lines.any (named transferEncoding)
        deflate := (FramingFlags.of h.disable).deflate || lines.any (named contentEncoding)
        gzip := (FramingFlags.of h.disable).gzip || lines.any (named contentEncoding) } := by
    induction lines with
    | nil => simp
    | cons line lines ih =>
        intro h
        rw [List.foldl_cons, ih, line_disable]
        simp only [List.any_cons, Bool.or_assoc]
  have hzero : FramingFlags.of ({} : CgiHead).disable = ⟨false, false, false, false, false⟩ := by decide
  rw [CgiHead.ofLines, hfold, hzero]
  simp only [Bool.false_or]

/-! ## The framing of the reply -/

namespace CgiClient

/-- The connection is kept: the client is no old one and asks for it, and the feature is not switched off. -/
def keeps (c : CgiClient) : Bool := !c.flags.ver0 && c.flags.keepAlive && !c.disabled.keepAlive

/-- The reply has no body. -/
def headOnly (c : CgiClient) (lines : List Bytes) : Bool :=
  decide ((CgiHead.ofLines lines).status.toNat = 304 ∨ c.method = .head)

/-- The body is compressed: the client accepts an encoding that is not switched off, and the backend has not chosen
    one. -/
def deflates (c : CgiClient) (lines : List Bytes) : Bool :=
  !c.headOnly lines && (c.flags.without c.disabled).compress && !lines.any (named contentEncoding)

/-- The body is sent in chunks: to a client that is no old one and keeps its connection (or was allowed chunks before),
    where chunks are not switched off and the backend has no coding of its own; and always where the body is compressed
    and the connection is kept. -/
def sendsChunks (c : CgiClient) (lines : List Bytes) : Bool :=
  !c.headOnly lines && !c.flags.ver0 &&
    ((c.flags.chunked || c.flags.keepAlive) && !c.disabled.chunked && !lines.any (named transferEncoding) ||
      c.deflates lines && c.keeps)

/-- The rules of `filters.c` for all flags at once. -/
theorem filter_spec : ∀ v k c d g mv mk mc md mg te ce : Bool,
    let f : FramingFlags := ⟨v, k, c, d, g⟩
    let m : FramingFlags := ⟨mv, mk, mc, md, mg⟩
    let r := ((f.started m).without ⟨mv || false, mk || false, mc || te, md || ce, mg || ce⟩)
    let keeps := !v && k && !mk
    let deflates := (f.without m).compress && !ce
    let chunks := !v && ((c || k) && !mc && !te || deflates && keeps)
    r.keepAlive = keeps ∧ r.filter.1.keepAlive = keeps ∧ r.filter.1.chunked = chunks ∧
      r.filter.2 = if deflates then .deflate chunks else if chunks then .chunked else .raw := by
  decide

/-- `httpd_pipe_set_chunked` in these flags. -/
theorem of_setChunked (peer : UInt32) :
    FramingFlags.of (httpdPipeSetChunked peer).1 = (FramingFlags.of peer).filter.1 ∧
      (httpdPipeSetChunked peer).2 = (FramingFlags.of peer).filter.2 := by
  unfold httpdPipeSetChunked FramingFlags.filter
  rw [FramingFlags.of_compress]
  split
  · refine ⟨FramingFlags.of_request peer, ?_⟩
    rw [← FramingFlags.of_request]
    rfl
  · have hchunked : hasFlag peer HIN_HTTP_CHUNKED = (FramingFlags.of peer).chunked := rfl
    rw [hchunked]
    split
    · refine ⟨FramingFlags.of_request peer, ?_⟩
      show (if (httpdRequestChunked peer).2 then Encoder.chunked else .raw) = _
      rw [(httpdRequestChunked_spec peer).2]
      have hver : hasFlag peer HIN_HTTP_VER0 = (FramingFlags.of peer).ver0 := rfl
      rw [hver]
      cases (FramingFlags.of peer).ver0 <;> rfl
    · exact ⟨rfl, rfl⟩

/-- **The framing of the reply**, from the flags of the client, the features that are switched off, and the lines. -/
theorem options_spec (c : CgiClient) (lines : List Bytes) :
    let r := c.options (CgiHead.ofLines lines)
    hasFlag r.1 HIN_HTTP_KEEPALIVE = c.keeps ∧ hasFlag r.1 HIN_HTTP_CHUNKED = c.sendsChunks lines ∧
      r.2 = if c.deflates lines then .deflate (c.sendsChunks lines)
        else if c.sendsChunks lines then .chunked else .raw := by
  intro r
  have hmask : FramingFlags.of (c.started &&& ~~~(c.disable ||| (CgiHead.ofLines lines).disable)) =
      (c.flags.started c.disabled).without
        ⟨c.disabled.ver0 || false, c.disabled.keepAlive || false,
          c.disabled.chunked || lines.any (named transferEncoding),
          c.disabled.deflate || lines.any (named contentEncoding),
          c.disabled.gzip || lines.any (named contentEncoding)⟩ := by
    rw [FramingFlags.of_diff, of_started, FramingFlags.of_or, ofLines_disable]
    rfl
  obtain ⟨h1, h2, h3, h4⟩ := filter_spec c.flags.ver0 c.flags.keepAlive c.flags.chunked c.flags.deflate c.flags.gzip
    c.disabled.ver0 c.disabled.keepAlive c.disabled.chunked c.disabled.deflate c.disabled.gzip
    (lines.any (named transferEncoding)) (lines.any (named contentEncoding))
  by_cases hhead : (CgiHead.ofLines lines).status.toNat = 304 ∨ c.method = .head
  · have hb : c.headOnly lines = true := decide_eq_true hhead
    have hr : r = ((c.started &&& ~~~(c.disable ||| (CgiHead.ofLines lines).disable)) &&&
        ~~~(HIN_HTTP_CHUNKED ||| HIN_HTTP_COMPRESS), .raw) := if_pos hhead
    have hof : FramingFlags.of (HIN_HTTP_CHUNKED ||| HIN_HTTP_COMPRESS) = ⟨false, false, true, true, true⟩ := by decide
    have hflags := FramingFlags.of_diff (c.started &&& ~~~(c.disable ||| (CgiHead.ofLines lines).disable))
      (HIN_HTTP_CHUNKED ||| HIN_HTTP_COMPRESS)
    rw [hof, hmask] at hflags
    refine ⟨?_, ?_, ?_⟩
    · rw [hr]
      exact (congrArg FramingFlags.keepAlive hflags).trans ((Bool.and_true _).trans h1)
    · rw [hr]
      refine (congrArg FramingFlags.chunked hflags).trans ?_
      simp [FramingFlags.without, sendsChunks, hb]
    · rw [hr]
      simp [deflates, sendsChunks, hb]
  · have hb : c.headOnly lines = false := decide_eq_false hhead
    have hr : r = httpdPipeSetChunked (c.started &&& ~~~(c.disable ||| (CgiHead.ofLines lines).disable)) :=
      if_neg hhead
    obtain ⟨hflags, henc⟩ := of_setChunked (c.started &&& ~~~(c.disable ||| (CgiHead.ofLines lines).disable))
    rw [hmask] at hflags henc
    have hd : c.deflates lines = ((c.flags.without c.disabled).compress && !lines.any (named contentEncoding)) := by
      rw [deflates, hb]
      rfl
    have hs : c.sendsChunks lines = (!c.flags.ver0 &&
        ((c.flags.chunked || c.flags.keepAlive) && !c.disabled.chunked && !lines.any (named transferEncoding) ||
          c.deflates lines && c.keeps)) := by
      rw [sendsChunks, hb]
      rfl
    rw [hs, hd, hr]
    refine ⟨?_, ?_, ?_⟩
    · exact (congrArg FramingFlags.keepAlive hflags).trans h2
    · exact (congrArg FramingFlags.chunked hflags).trans h3
    · exact henc.trans h4

end CgiClient

/-! ## Lines that are copied -/

theorem literalPrefix_of_append {lit line : Bytes} (h : lit <+: line) : literalPrefix true lit line = true := by
  obtain ⟨rest, rfl⟩ := h
  exact literalPrefix_toupper rfl rest

/-- A line with a name of its own is copied as it is. -/
theorem cgiCopied_of_named {name : Bytes} (hstatus : clash (name ++ [58]) (bytes "Status:") = true)
    (hlocation : clash (name ++ [58]) (bytes "Location:") = true) (hx : clash (name ++ [58]) (bytes "X-CGI-") = true)
    {chunked : Bool} (hlength : chunked = false ∨ clash (name ++ [58]) (bytes "Content-Length:") = true) {line : Bytes}
    (h : named name line = true) : cgiCopied chunked line = some line := by
  rw [named_eq] at h
  have h1 : (matchiString line (bytes "Status:")).took = none := by
    rw [matchiString_name (by decide) (by decide), literalPrefix_clash hstatus h]
    rfl
  have h2 : (chunked && (matchiString line (bytes "Content-Length:")).took.isSome) = false := by
    rcases hlength with rfl | hlength
    · rfl
    · rw [matchiString_name (by decide) (by decide), literalPrefix_clash hlength h]
      simp
  have h3 : (matchiString line (bytes "Location:")).took = none := by
    rw [matchiString_name (by decide) (by decide), literalPrefix_clash hlocation h]
    rfl
  have h4 : (matchString line (bytes "X-CGI-")).took = none := by
    rw [Result.took, matchString_literal (by decide) (by decide), if_neg]
    intro hpre
    have := literalPrefix_clash hx h
    rw [literalPrefix_of_append hpre] at this
    exact absurd this (by simp)
  simp [cgiCopied, h1, h2, h3, h4]

/-- What is copied under a name that is not `Location` is a line of the backend. -/
theorem eq_of_cgiCopied {name : Bytes} (hlocation : clash (bytes "Location: ") (name ++ [58]) = true) {chunked : Bool}
    {line copied : Bytes} (h : cgiCopied chunked line = some copied) (hname : named name copied = true) :
    copied = line ∧ (chunked && (matchiString line (bytes "Content-Length:")).took.isSome) = false := by
  simp only [cgiCopied] at h
  split at h
  · exact absurd h (by simp)
  split at h
  · exact absurd h (by simp)
  rename_i hlength
  split at h
  · rename_i used hused
    obtain rfl := Option.some.inj h
    have hpre : literalPrefix true (bytes "Location: ") (bytes "Location: " ++ line.drop used) = true :=
      literalPrefix_of_append (List.prefix_append _ _)
    rw [named_eq, literalPrefix_clash hlocation hpre] at hname
    exact absurd hname (by simp)
  · split at h
    · exact absurd h (by simp)
    · exact ⟨(Option.some.inj h).symm, Bool.eq_false_iff.mpr hlength⟩

/-- A line of the head that is not too long for `header`. -/
def written (line : Bytes) : Bool := decide ((cstr line ++ [CR, LF]).length ≤ HIN_HTTPD_MAX_HEADER_LINE_SIZE)

/-- The lines of the backend in the head of the reply. -/
def CgiReply.lines (r : CgiReply) : List Bytes := r.head.copied.filter written

theorem transferEncoding_copied (chunked : Bool) (lines : List Bytes) :
    (∃ line ∈ (lines.filterMap (cgiCopied chunked)).filter written, named transferEncoding line = true) ↔
      ∃ line ∈ lines, named transferEncoding line = true ∧ written line = true := by
  constructor
  · rintro ⟨copied, hmem, hname⟩
    obtain ⟨hmem, hwritten⟩ := List.mem_filter.mp hmem
    obtain ⟨line, hline, hcopied⟩ := List.mem_filterMap.mp hmem
    obtain ⟨rfl, -⟩ := eq_of_cgiCopied (by decide) hcopied hname
    exact ⟨copied, hline, hname, hwritten⟩
  · rintro ⟨line, hline, hname, hwritten⟩
    have hcopied : cgiCopied chunked line = some line :=
      cgiCopied_of_named (by decide) (by decide) (by decide) (.inr (by decide)) hname
    exact ⟨line, List.mem_filter.mpr ⟨List.mem_filterMap.mpr ⟨line, hline, hcopied⟩, hwritten⟩, hname⟩

theorem contentLength_copied (chunked : Bool) (lines : List Bytes) (line : Bytes) :
    line ∈ (lines.filterMap (cgiCopied chunked)).filter written ∧ named contentLength line = true ↔
      chunked = false ∧ line ∈ lines ∧ named contentLength line = true ∧ written line = true := by
  have hbegins : ∀ l, named contentLength l = true → (matchiString l (bytes "Content-Length:")).took.isSome = true := by
    intro l hl
    rw [named_eq] at hl
    rw [show bytes "Content-Length:" = contentLength ++ [58] by decide, matchiString_name (by decide) (by decide), hl]
    rfl
  constructor
  · rintro ⟨hmem, hname⟩
    obtain ⟨hmem, hwritten⟩ := List.mem_filter.mp hmem
    obtain ⟨l, hl, hcopied⟩ := List.mem_filterMap.mp hmem
    obtain ⟨rfl, hno⟩ := eq_of_cgiCopied (by decide) hcopied hname
    rw [hbegins _ hname, Bool.and_true] at hno
    exact ⟨hno, hl, hname, hwritten⟩
  · rintro ⟨rfl, hline, hname, hwritten⟩
    have hcopied : cgiCopied false line = some line :=
      cgiCopied_of_named (by decide) (by decide) (by decide) (.inl rfl) hname
    exact ⟨List.mem_filter.mpr ⟨List.mem_filterMap.mpr ⟨line, hline, hcopied⟩, hwritten⟩, hname⟩

/-- **The text of the head** is that of its lines, in order, without the ones that are too long. -/
theorem foldlM_header_some {texts : List Bytes} {chain chain' : Chain} (h : texts.foldlM header chain = some chain') :
    chain'.content = chain.content ++ (texts.filter fun t => t.length ≤ HIN_HTTPD_MAX_HEADER_LINE_SIZE).flatten := by
  induction texts generalizing chain with
  | nil =>
      obtain rfl := Option.some.inj h
      simp
  | cons text texts ih =>
      rw [List.foldlM_cons] at h
      obtain ⟨next, hnext, hrest⟩ := Option.bind_eq_some_iff.mp h
      rw [ih hrest]
      unfold header at hnext
      by_cases hlong : text.length > HIN_HTTPD_MAX_HEADER_LINE_SIZE
      · rw [if_pos hlong] at hnext
        obtain rfl := Option.some.inj hnext
        rw [List.filter_cons_of_neg (by simpa using hlong)]
      · have hcontent : next.content = chain.content ++ text := by
          rw [if_neg hlong] at hnext
          split at hnext
          · obtain rfl := Option.some.inj hnext
            exact (List.append_assoc ..).symm
          · dsimp only at hnext
            split at hnext
            · obtain rfl := Option.some.inj hnext
              simp [Chain.content]
            · exact absurd hnext (by simp)
        rw [List.filter_cons_of_pos (by simpa using hlong), List.flatten_cons, hcontent, List.append_assoc]

/-! ## Lengths -/

/-- The line is a `Content-Length` with this number, with blanks around it or none. -/
def Announces (line : Bytes) (n : Nat) : Prop :=
  ∃ v digits, fieldValue contentLength line = some v ∧ HasValue v digits ∧ digits ≠ [] ∧
    (∀ c ∈ digits, isdigit c = true) ∧ decNat 0 digits = n

theorem Announces.unique {line : Bytes} {n m : Nat} (hn : Announces line n) (hm : Announces line m) : n = m := by
  obtain ⟨v, ds, hv, hds, -, hdigits, rfl⟩ := hn
  obtain ⟨v', ds', hv', hds', -, hdigits', rfl⟩ := hm
  obtain rfl : v = v' := Option.some.inj (hv.symm.trans hv')
  rw [← hds.filter_digits hdigits, ← hds'.filter_digits hdigits']

/-- A name, a colon and a blank. -/
theorem fieldValue_blank {line : Bytes} (hpre : literalPrefix true (contentLength ++ [58, 32]) line = true) :
    fieldValue contentLength line = some (32 :: line.drop 16) := by
  have hsplit : contentLength ++ [58, 32] = (contentLength ++ [58]) ++ [32] := by decide
  have hname : literalPrefix true (contentLength ++ [58]) line = true ∧ literalPrefix true [32] (line.drop 15) = true := by
    rw [hsplit, literalPrefix_append, Bool.and_eq_true] at hpre
    exact hpre
  obtain ⟨tail, htail⟩ : ∃ tail, line.drop 15 = 32 :: tail := by
    cases hd : line.drop 15 with
    | nil => simp [hd, literalPrefix] at hname
    | cons c cs =>
        refine ⟨cs, ?_⟩
        have hc : toupper 32 = toupper c := by simpa [hd, literalPrefix] using hname.2
        rw [show toupper 32 = 32 by decide] at hc
        unfold toupper at hc
        split at hc
        · -- a small letter does not become a blank
          rename_i hlower
          simp only [islower, Bool.and_eq_true, decide_eq_true_eq, UInt8.le_iff_toNat_le] at hlower
          have h32 := congrArg UInt8.toNat hc
          have h97 : (97 : UInt8).toNat = 97 := rfl
          have h122 : (122 : UInt8).toNat = 122 := rfl
          have h0 : (32 : UInt8).toNat = 32 := rfl
          rw [UInt8.toNat_sub_of_le _ _ (by rw [UInt8.le_iff_toNat_le, h0]; omega)] at h32
          omega
        · rw [hc]
  have hdrop16 : line.drop 16 = tail := by
    rw [← List.drop_drop (i := 1) (j := 15), htail]
    rfl
  rw [fieldValue, if_pos hname.1, hdrop16]
  exact congrArg some htail

/-- **The format of a length** takes one blank and the digits behind it. -/
theorem lengthFormat_match (line : Bytes) : matchStringVirtual true line (bytes "Content-Length: (%d+)") =
    if literalPrefix true (contentLength ++ [58, 32]) line = true ∧ (line.drop 16).takeWhile isdigit ≠ [] then
      ⟨some (16 + ((line.drop 16).takeWhile isdigit).length), [(16, ((line.drop 16).takeWhile isdigit).length)]⟩
    else ⟨none, []⟩ := by
  have hf : bytes "Content-Length: (%d+)" = (contentLength ++ [58, 32]) ++ [40, 37, 100, 43, 41] := by decide
  have hlen : (contentLength ++ [58, 32]).length = 16 := by decide
  have hs : takeSpecifier [43, 41] = (⟨true, false⟩, [41]) := by decide
  have hi : getPattern [37, 100] 0 = [⟨PATTERN_DIGIT, 0⟩] := by decide
  rw [hf, matchStringVirtual_literal true (by decide) (by decide)]
  by_cases hpre : literalPrefix true (contentLength ++ [58, 32]) line = true
  rotate_left
  · rw [if_neg hpre, if_neg fun h => hpre h.1]
  rw [if_pos hpre, hlen]
  simp only [hpre, true_and]
  show formatLoop true 6 [40, 37, 100, 43, 41] (line.drop 16) 16 none [] = _
  rw [formatLoop_open, formatLoop_class, hs]
  have hsplit : line.drop 16 = (line.drop 16).takeWhile isdigit ++ (line.drop 16).dropWhile isdigit :=
    List.takeWhile_append_dropWhile.symm
  have hds : ∀ c ∈ (line.drop 16).takeWhile isdigit, isdigit c = true := fun c hc => List.mem_takeWhile_imp hc
  have hstop : ∀ c ∈ ((line.drop 16).dropWhile isdigit).head?, isdigit c = false := fun c hc =>
    head_dropWhile isdigit _ c hc
  by_cases hne : (line.drop 16).takeWhile isdigit = []
  · have hp : matchPattern (line.drop 16) [37, 100] ⟨true, false⟩ = none :=
      matchPattern_class_none hi fun c hc => (matchChar_digit c 0).trans (hstop c (by
        rw [hne, List.nil_append] at hsplit
        rw [← hsplit]
        exact hc))
    rw [hp, if_neg (not_not_intro hne)]
  · have hp : matchPattern (line.drop 16) [37, 100] ⟨true, false⟩ = some ((line.drop 16).takeWhile isdigit).length := by
      nth_rewrite 1 [hsplit]
      exact matchPattern_class hi false _ _ (fun c hc => (matchChar_digit c 0).trans (hds c hc))
        (fun c hc => (matchChar_digit c 0).trans (hstop c hc)) fun he => absurd he hne
    rw [if_pos hne]
    simp only [hp]
    rw [formatLoop_close, formatLoop_end, Nat.add_sub_cancel_left]
    rfl

/-- The first pass reads the length of this line. -/
def readsLength (line : Bytes) : Bool := (matchiStringEqual line (bytes "Content-Length: (%d+)")).took.isSome

/-- It asks for one blank and digits, and nothing behind them. -/
theorem readsLength_digits {line : Bytes} (h : readsLength line = true) :
    ∃ digits, fieldValue contentLength line = some (32 :: digits) ∧ digits ≠ [] ∧ ∀ c ∈ digits, isdigit c = true := by
  have hused : (matchStringVirtual true line (bytes "Content-Length: (%d+)")).used = some line.length := by
    by_contra hno
    rw [readsLength, matchiStringEqual, if_neg hno] at h
    exact absurd h (by simp [Result.took])
  rw [lengthFormat_match] at hused
  by_cases hmatch : literalPrefix true (contentLength ++ [58, 32]) line = true ∧ (line.drop 16).takeWhile isdigit ≠ []
  rotate_left
  · rw [if_neg hmatch] at hused
    exact absurd hused (by simp)
  obtain ⟨hpre, hne⟩ := hmatch
  rw [if_pos ⟨hpre, hne⟩] at hused
  have hlength : (line.drop 16).length ≤ ((line.drop 16).takeWhile isdigit).length := by
    have hlen := Option.some.inj hused
    rw [List.length_drop]
    omega
  have hall : (line.drop 16).takeWhile isdigit = line.drop 16 := (List.takeWhile_prefix _).eq_of_length_le hlength
  rw [hall] at hne
  exact ⟨line.drop 16, fieldValue_blank hpre, hne, fun c hc => List.mem_takeWhile_imp (hall ▸ hc)⟩

/-- What `atoi` makes of the digits of a number. -/
def atoiNat (n : Nat) : Int := (min (n : Int) (2 ^ 63 - 1)).bmod (2 ^ 32)

/-- The length that is noted of a line, where the lengths announced are `n`. -/
theorem line_sz {line : Bytes} {n : Nat} (h : named contentLength line = true → Announces line n) (head : CgiHead) :
    (head.line line).sz = if readsLength line then atoiNat n else head.sz := by
  have hst : bytes "Status: (%d+)" = bytes "Status: " ++ bytes "(%d+)" := by decide
  by_cases hread : readsLength line = true
  · obtain ⟨digits, hfield, hne, hdigits⟩ := readsLength_digits hread
    obtain ⟨-, hcapture⟩ := contentLength_digits hfield hne hdigits
    have hpre : literalPrefix true (contentLength ++ [58]) line = true := by
      by_contra hno
      rw [fieldValue, if_neg hno] at hfield
      exact absurd hfield (by simp)
    have hno : (matchiString line (bytes "Status: (%d+)")).took = none := by
      rw [hst]
      exact matchiString_none (by decide) (by decide) (literalPrefix_clash (by decide) hpre)
    have hvalue : decNat 0 digits = n := by
      have hown : Announces line (decNat 0 digits) :=
        ⟨32 :: digits, digits, hfield, ⟨[32], [], by simp, by simp, by simp⟩, hne, hdigits, rfl⟩
      exact hown.unique (h (by rw [named_eq]; exact hpre))
    rw [if_pos hread]
    rw [readsLength] at hread
    simp only [CgiHead.line, hno, hread, hcapture, Option.isSome_none, Bool.false_eq_true, if_false, if_true]
    rw [atoi, strtolDec_digits hne hdigits, hvalue]
    rfl
  · rw [if_neg hread]
    rw [readsLength] at hread
    simp only [CgiHead.line, if_neg hread]
    repeat' split
    all_goals rfl

theorem ofLines_sz {lines : List Bytes} {n : Nat}
    (h : ∀ line ∈ lines, named contentLength line = true → Announces line n) :
    (CgiHead.ofLines lines).sz = if lines.any readsLength then atoiNat n else 0 := by
  have hfold : ∀ head : CgiHead, (lines.foldl CgiHead.line head).sz =
      if lines.any readsLength then atoiNat n else head.sz := by
    induction lines with
    | nil => exact fun _ => rfl
    | cons line lines ih =>
        intro head
        rw [List.foldl_cons, ih fun l hl => h l (List.mem_cons_of_mem _ hl), line_sz (h line List.mem_cons_self),
          List.any_cons]
        cases lines.any readsLength <;> cases readsLength line <;> rfl
  exact hfold {}

/-! ## Bodies -/

/-- A compressing pipe without chunks queues what the compressor hands out. -/
theorem queued_written (Z : Zlib) (calls : List (Bytes × Bool)) :
    (Encoder.deflate false).queued Z calls = Z.written Z.init calls := by
  have hfold : ∀ s : Sender Z,
      (calls.foldl (fun (s : Sender Z) call => s.encode (.deflate false) call.1 call.2) s).queued =
        s.queued ++ Z.written s.z calls := by
    induction calls with
    | nil => simp [Zlib.written]
    | cons call calls ih =>
        intro s
        rw [List.foldl_cons, ih]
        simp only [Sender.encode, Zlib.written, deflateLoop_plain _ _ _ (Nat.lt_succ_self _), List.append_assoc]
  exact hfold _

/-- What a raw pipe hands on of an output. -/
theorem calls_bytes (out : Output) (lines : List Bytes) (rest : Source) :
    (out.calls lines rest).flatMap (·.1) = cgiFirstPiece (CgiHead.ofLines lines) rest ++ out.more.flatten := by
  have hmore : (out.more.map (·, false)).flatMap (·.1) = out.more.flatten := by
    rw [List.flatMap_map, List.flatMap_id']
  unfold Output.calls
  dsimp only
  rw [List.flatMap_append, List.flatMap_append, hmore]
  have hend : (if out.ended = true then [(([] : Bytes), true)] else []).flatMap (·.1) = [] := by
    split <;> rfl
  rw [hend, List.append_nil]
  congr 1
  split
  · rename_i hnil
    rw [hnil]
    rfl
  · simp

/-- There is no data in a source of length `-1`. -/
theorem cgiLines_beyond {behind : UInt8} {fuel : Nat} {s : Source} {lines : List Bytes} {rest : Source}
    (h : cgiLines behind fuel s = some (lines, rest)) : rest.beyond = true → rest.data = [] := by
  induction fuel generalizing s lines with
  | zero => exact absurd h (by simp [cgiLines])
  | succ fuel ih =>
      rw [cgiLines] at h
      obtain ⟨r, hr, hrest⟩ := Option.bind_eq_some_iff.mp h
      split at hrest
      · obtain ⟨-, rfl⟩ := Prod.mk.inj (Option.some.inj hrest)
        unfold hinFindLine at hr
        split at hr
        · exact absurd hr (by simp)
        split at hr
        · obtain rfl := Option.some.inj hr
          exact fun hb => absurd hb (by simp)
        · split at hr
          · obtain rfl := Option.some.inj hr
            exact fun _ => rfl
          · exact absurd hr (by simp)
      · obtain ⟨q, hq, he⟩ := Option.map_eq_some_iff.mp hrest
        obtain ⟨-, rfl⟩ := Prod.mk.inj he
        exact ih hq

/-- The pipe is given all that was read behind the head: no length is noted, or there is nothing, or the length noted is
    not below it. -/
theorem firstPiece_length {head : CgiHead} {rest : Source} (hbeyond : rest.beyond = true → rest.data = []) :
    (cgiFirstPiece head rest).length = rest.data.length ↔
      head.sz = 0 ∨ rest.data = [] ∨ (rest.data.length : Int) ≤ head.sz := by
  unfold cgiFirstPiece
  dsimp only
  cases hb : rest.beyond with
  | true =>
      rw [hbeyond hb]
      simp
  | false =>
      have hlen : rest.len = rest.data.length := by simp [Source.len, hb]
      rw [hlen]
      by_cases hnil : rest.data = []
      · simp [hnil]
      have hpos : 0 < rest.data.length := List.length_pos_iff.mpr hnil
      by_cases hcut : head.sz ≠ 0 ∧ head.sz < rest.data.length
      · rw [if_pos hcut]
        refine iff_of_false ?_ ?_
        · split
          · rw [List.length_take]
            omega
          · rw [List.length_nil]
            omega
        · rintro (h | h | h)
          · exact hcut.1 h
          · exact hnil h
          · omega
      · rw [if_neg hcut, if_pos (by omega)]
        refine iff_of_true ?_ ?_
        · rw [List.length_take]
          omega
        · by_cases hz : head.sz = 0
          · exact .inl hz
          · right
            right
            by_contra hlt
            exact hcut ⟨hz, by omega⟩

/-! ## When the framing is right -/

/-- The filter sends chunks. -/
def Encoder.inChunks : Encoder → Bool
  | .raw => false
  | .chunked => true
  | .deflate chunks => chunks

/-- **A response that is framed right.** Where the head announces that the connection is kept, the response delimits
    itself: by chunks, by a coding of the backend that is passed through, by a length, or by having no body at all; and
    every length in the head is that of the body, once it is complete. -/
structure CgiReply.WellFramed (r : CgiReply) (headOnly ended : Bool) : Prop where
  delimited : r.head.keepAlive = true →
    r.encoder.inChunks = true ∨ (∃ line ∈ r.lines, named transferEncoding line = true) ∨
      (∃ line ∈ r.lines, named contentLength line = true) ∨ headOnly = true ∧ r.body = []
  length : ended = true → ∀ line ∈ r.lines, named contentLength line = true → Announces line r.body.length

/-- The bytes of the backend behind its head. -/
def Output.body (out : Output) (rest : Source) : Bytes := rest.data ++ out.more.flatten

/-- **When a response is framed right.** A connection is kept only where chunks are sent, or the lines of the backend that
    reach the client have a coding or a length, or there is no body and nothing is sent for one. A length reaches the
    client only where chunks take its place, or where the body is sent as it is, with an `int` that holds the length or
    lets through what was read with the head; or where the compressed body happens to be as long as the other. -/
structure CgiClient.Frames (Z : Zlib) (c : CgiClient) (out : Output) (lines : List Bytes) (rest : Source) : Prop where
  delimited : c.keeps = true → c.sendsChunks lines = true ∨
    (∃ line ∈ lines, named transferEncoding line = true ∧ written line = true) ∨
    (∃ line ∈ lines, named contentLength line = true ∧ written line = true) ∨
    c.headOnly lines = true ∧ ∀ call ∈ out.calls lines rest, call.1 = []
  length : out.ended = true → (∃ line ∈ lines, named contentLength line = true ∧ written line = true) →
    c.sendsChunks lines = true ∨
    if c.deflates lines = true then (Z.written Z.init (out.calls lines rest)).length = (out.body rest).length
    else lines.any readsLength = true → atoiNat (out.body rest).length = 0 ∨ rest.data = [] ∨
      (rest.data.length : Int) ≤ atoiNat (out.body rest).length

section

variable {Z : Zlib} {c : CgiClient} {out : Output} {lines : List Bytes} {rest : Source} {r : CgiReply}

/-- What a reply is made of. -/
theorem hinCgiReply_some (hlines : out.lines = some (lines, rest)) (h : hinCgiReply Z c out = some r) :
    r.head = c.replyHead lines ∧ r.encoder = (c.options (CgiHead.ofLines lines)).2 ∧
      r.body = r.encoder.queued Z (out.calls lines rest) ∧
      r.text = ((r.head.texts c.toProxyClient).filter fun t => t.length ≤ HIN_HTTPD_MAX_HEADER_LINE_SIZE).flatten := by
  unfold hinCgiReply at h
  rw [hlines, Option.bind_some] at h
  obtain ⟨chain, hchain, rfl⟩ := Option.map_eq_some_iff.mp h
  refine ⟨rfl, rfl, rfl, ?_⟩
  have hcontent := foldlM_header_some hchain
  simpa [Chain.content] using hcontent

/-- **The body where no chunks are sent**: a length announced for the output of the backend is that of the body. -/
theorem body_length_iff (hlines : out.lines = some (lines, rest)) (hchunks : c.sendsChunks lines = false)
    (hright : ∀ line ∈ lines, named contentLength line = true → Announces line (out.body rest).length) :
    ((c.options (CgiHead.ofLines lines)).2.queued Z (out.calls lines rest)).length = (out.body rest).length ↔
      if c.deflates lines = true then (Z.written Z.init (out.calls lines rest)).length = (out.body rest).length
      else lines.any readsLength = true → atoiNat (out.body rest).length = 0 ∨ rest.data = [] ∨
        (rest.data.length : Int) ≤ atoiNat (out.body rest).length := by
  obtain ⟨-, -, henc⟩ := c.options_spec lines
  rw [henc, hchunks]
  by_cases hd : c.deflates lines = true
  · rw [if_pos hd, if_pos hd, queued_written]
  · rw [if_neg hd, if_neg hd, if_neg (by simp), queued_raw, calls_bytes, Output.body, List.length_append,
      List.length_append, Nat.add_right_cancel_iff, firstPiece_length (cgiLines_beyond hlines), ofLines_sz hright]
    rw [Output.body, List.length_append]
    by_cases hread : lines.any readsLength = true
    · rw [if_pos hread]
      exact ⟨fun h _ => h, fun h => h hread⟩
    · rw [if_neg hread]
      exact iff_of_true (.inl rfl) fun h => absurd h hread

/-- **Exactly when the framing is right**, for a backend whose own lengths are. -/
theorem cgi_framing_iff (hlines : out.lines = some (lines, rest)) (hr : hinCgiReply Z c out = some r)
    (hright : out.ended = true → ∀ line ∈ lines, named contentLength line = true →
      Announces line (out.body rest).length) :
    r.WellFramed (c.headOnly lines) out.ended ↔ c.Frames Z out lines rest := by
  obtain ⟨hhead, henc, hbody, -⟩ := hinCgiReply_some hlines hr
  obtain ⟨hkeep, hchunked, hoptions⟩ := c.options_spec lines
  have hkeeps : r.head.keepAlive = c.keeps := by
    rw [hhead]
    exact hkeep
  have hchunks : r.encoder.inChunks = c.sendsChunks lines := by
    rw [henc, hoptions]
    cases c.deflates lines <;> cases c.sendsChunks lines <;> rfl
  have hcopied : r.lines = (lines.filterMap (cgiCopied (c.sendsChunks lines))).filter written := by
    rw [CgiReply.lines, hhead, ← hchunked]
    rfl
  have hlength : (∃ line ∈ r.lines, named contentLength line = true) ↔
      c.sendsChunks lines = false ∧ ∃ line ∈ lines, named contentLength line = true ∧ written line = true := by
    rw [hcopied]
    constructor
    · rintro ⟨line, hmem, hname⟩
      obtain ⟨hno, h⟩ := (contentLength_copied _ lines line).mp ⟨hmem, hname⟩
      exact ⟨hno, line, h⟩
    · rintro ⟨hno, line, h⟩
      obtain ⟨hmem, hname⟩ := (contentLength_copied _ lines line).mpr ⟨hno, h⟩
      exact ⟨line, hmem, hname⟩
  -- no body: the filter is the raw one, and is given nothing
  have hempty : c.headOnly lines = true ∧ r.body = [] ↔
      c.headOnly lines = true ∧ ∀ call ∈ out.calls lines rest, call.1 = [] := by
    refine and_congr_right fun hh => ?_
    have hraw : r.encoder = .raw := by
      rw [henc, hoptions]
      simp [CgiClient.deflates, CgiClient.sendsChunks, hh]
    rw [hbody, hraw, queued_raw, List.flatMap_eq_nil_iff]
  constructor
  · intro h
    refine ⟨fun hk => ?_, fun hended hex => ?_⟩
    · have hd := h.delimited (hkeeps.trans hk)
      rw [hchunks, hcopied, transferEncoding_copied, ← hcopied, hlength, hempty] at hd
      rcases hd with hd | hd | hd | hd
      · exact .inl hd
      · exact .inr (.inl hd)
      · exact .inr (.inr (.inl hd.2))
      · exact .inr (.inr (.inr hd))
    · cases hc : c.sendsChunks lines with
      | true => exact .inl rfl
      | false =>
          right
          obtain ⟨line, hmem, hname⟩ := hlength.mpr ⟨hc, hex⟩
          have hline : line ∈ lines := ((contentLength_copied _ lines line).mp ⟨hcopied ▸ hmem, hname⟩).2.1
          have heq := (h.length hended line hmem hname).unique (hright hended line hline hname)
          rw [hbody, henc] at heq
          exact (body_length_iff hlines hc (hright hended)).mp heq
  · intro h
    refine ⟨fun hk => ?_, fun hended line hmem hname => ?_⟩
    · rw [hchunks, hcopied, transferEncoding_copied, ← hcopied, hlength, hempty]
      cases hc : c.sendsChunks lines with
      | true => exact .inl rfl
      | false =>
          rcases h.delimited (hkeeps.symm.trans hk) with hd | hd | hd | hd
          · rw [hc] at hd
            exact absurd hd (by simp)
          · exact .inr (.inl hd)
          · exact .inr (.inr (.inl ⟨rfl, hd⟩))
          · exact .inr (.inr (.inr hd))
    · obtain ⟨hc, hline, -, hwritten⟩ := (contentLength_copied _ lines line).mp ⟨hcopied ▸ hmem, hname⟩
      have hbody' : r.body.length = (out.body rest).length := by
        rw [hbody, henc]
        refine (body_length_iff hlines hc (hright hended)).mpr ?_
        exact (h.length hended ⟨line, hline, hname, hwritten⟩).resolve_left (by simp [hc])
      rw [hbody']
      exact hright hended line hline hname

end

/-- A `Content-Length` from the backend, and a client that keeps its connection: the body is sent in chunks. -/
theorem cgi_framing_sample : ∃ (Z : Zlib) (c : CgiClient) (out : Output) (r : CgiReply),
    hinCgiReply Z c out = some r ∧ r.head.keepAlive = true ∧ r.WellFramed false out.ended := by
  let Z : Zlib := ⟨Unit, (), fun _ data _ => ((), data)⟩
  let c : CgiClient := { peerFlags := HIN_HTTP_KEEPALIVE }
  let out : Output := { head := bytes "Content-Length: 5\n\nhello", ended := true }
  have hlines : out.lines = some ([bytes "Content-Length: 5"], { data := bytes "hello" }) := by decide
  have hsome : (hinCgiReply Z c out).isSome = true := by decide
  obtain ⟨r, hr⟩ := Option.isSome_iff_exists.mp hsome
  have hright : out.ended = true → ∀ line ∈ [bytes "Content-Length: 5"], named contentLength line = true →
      Announces line (out.body { data := bytes "hello" }).length := by
    intro _ line hline _
    rw [List.mem_singleton.mp hline]
    exact ⟨bytes " 5", bytes "5", by decide, ⟨[32], [], by decide, by simp, by simp⟩, by decide,
      List.all_eq_true.mp (by decide), by decide⟩
  have hkeep : ((hinCgiReply Z c out).map fun r => r.head.keepAlive) = some true := by decide
  rw [hr] at hkeep
  have hframes : c.Frames Z out [bytes "Content-Length: 5"] { data := bytes "hello" } :=
    ⟨fun _ => .inl (by decide), fun _ _ => .inl (by decide)⟩
  exact ⟨Z, c, out, r, hr, Option.some.inj hkeep, (cgi_framing_iff hlines hr hright).mpr hframes⟩

/-- **A connection that is kept behind a body without an end**: chunks are switched off, and the backend gives no
    length. -/
theorem cgi_framing_wrong : ¬ ∀ (Z : Zlib) (c : CgiClient) (out : Output) (lines : List Bytes) (rest : Source)
    (r : CgiReply), out.lines = some (lines, rest) → hinCgiReply Z c out = some r →
      (out.ended = true → ∀ line ∈ lines, named contentLength line = true → Announces line (out.body rest).length) →
        r.WellFramed (c.headOnly lines) out.ended := by
  intro hall
  let Z : Zlib := ⟨Unit, (), fun _ data _ => ((), data)⟩
  let c : CgiClient := { peerFlags := HIN_HTTP_KEEPALIVE, disable := HIN_HTTP_CHUNKED }
  let out : Output := { head := bytes "Content-Type: text/plain\n\nhello", ended := true }
  have hlines : out.lines = some ([bytes "Content-Type: text/plain"], { data := bytes "hello" }) := by decide
  have hrun : ((hinCgiReply Z c out).map fun r => (r.head.keepAlive, r.encoder, r.lines))
      = some (true, .raw, [bytes "Content-Type: text/plain"]) := by decide
  obtain ⟨r, hr, he⟩ := Option.map_eq_some_iff.mp hrun
  obtain ⟨hkeep, he⟩ := Prod.mk.inj he
  obtain ⟨henc, hrlines⟩ := Prod.mk.inj he
  have hname : ∀ line ∈ [bytes "Content-Type: text/plain"], named contentLength line = false ∧
      named transferEncoding line = false := by
    intro line hline
    rw [List.mem_singleton.mp hline]
    decide
  have hframed := hall Z c out _ _ r hlines hr fun _ line hline hl => by
    rw [(hname line hline).1] at hl
    exact absurd hl (by simp)
  rcases hframed.delimited hkeep with h | ⟨line, hline, h⟩ | ⟨line, hline, h⟩ | h
  · rw [henc] at h
    exact absurd h (by decide)
  · rw [hrlines] at hline
    rw [(hname line hline).2] at h
    exact absurd h (by simp)
  · rw [hrlines] at hline
    rw [(hname line hline).1] at h
    exact absurd h (by simp)
  · exact absurd h.1 (by decide)

end Http
end Hin9
