import Hin9.Http.CgiFraming
import Hin9.Http.Request

/-!
# `Http.RequestHead` — the head of a request as a whole (`httpd_head.c`, `http_utils.c`)

`httpd_parse_headers` waits for the blank line, reads the request line, and hands the lines behind it to
`httpd_parse_headers_line` one after the other. What it accepts is taken apart once, in `httpdParseHeaders_accepted`: the
lines, the fields behind all of them, and the checks they have passed. What a line does to a field is then a matter of the
patterns that it can match; `lineOf_…` say that no line is two of them.

The two checks of `conf.h` that are switched off, for an overloaded server and for a missing `Host`, are left out.
-/

namespace Hin9
namespace Http

open Pattern

/-! ## The request line -/

/-- The method: `GET`, `POST` or `HEAD` in upper or lower case. -/
def methodNumber (name : Bytes) : Option UInt32 :=
  if (matchiStringEqual name (bytes "GET")).took.isSome then some HIN_METHOD_GET
  else if (matchiStringEqual name (bytes "POST")).took.isSome then some HIN_METHOD_POST
  else if (matchiStringEqual name (bytes "HEAD")).took.isSome then some HIN_METHOD_HEAD
  else none

/-- The version: whether it is `1.0`, and `none` unless it is that or `1.1`. -/
def versionNumber (name : Bytes) : Option Bool :=
  if (matchStringEqual name (bytes "1.1")).took.isSome then some false
  else if (matchStringEqual name (bytes "1.0")).took.isSome then some true
  else none

/-- A request line, with what its method and version are known as. -/
structure RequestLine where
  method : Option UInt32
  path : Bytes
  ver0 : Option Bool
deriving Repr, DecidableEq

/-- `HIN_HTTP_PATH_ACCEPT`. -/
def hinHttpPathAccept : String := "[%w.%%_-/+&#$?=,:;~@!'*()%[%]]+"

/-- `hin_http_parse_header_line`. -/
def hinHttpParseHeaderLine (line : Bytes) : Option RequestLine :=
  let m := matchString line (bytes ("(%a+) (" ++ hinHttpPathAccept ++ ") HTTP/([%d.]+)"))
  m.took.map fun _ =>
    { method := methodNumber (m.capture line 0)
      path := m.capture line 1
      ver0 := versionNumber (m.capture line 2) }

/-! ## The head -/

/-- `HIN_HTTPD_MAX_POST_SIZE`. -/
def hinHttpdMaxPostSize : Int := 4121440

/-- What `httpd_parse_headers` returns: `0`, `-1` with the status of its error, or the number of bytes of the head. The
    status is `0` where `httpd_parse_headers_line` has refused a line. -/
inductive Parsed where
  | wait
  | refused (status : Int)
  | accepted (http : RequestFields) (used : Nat)
deriving Repr, DecidableEq

/-- The head is accepted, and its fields and length are as said. -/
def Parsed.acceptedWith (tells : RequestFields → Nat → Bool) : Parsed → Bool
  | .accepted http used => tells http used
  | _ => false

theorem Parsed.accepted_of {parsed : Parsed} {tells : RequestFields → Nat → Bool}
    (h : parsed.acceptedWith tells = true) : ∃ http used, parsed = .accepted http used ∧ tells http used = true := by
  cases parsed with
  | wait => exact absurd h (by simp [acceptedWith])
  | refused => exact absurd h (by simp [acceptedWith])
  | accepted http used => exact ⟨http, used, rfl, h⟩

/-- The first loop: the blank line is there. -/
def blankThere (behind : UInt8) : Nat → Source → Bool
  | 0, _ => false
  | fuel + 1, s =>
      if s.len ≤ 0 then false
      else
        match hinFindLine behind s with
        | none => false
        | some (line, s) => if line = [] then true else blankThere behind fuel s

/-- The second loop, behind the request line; `none` where a line is refused. -/
def headersLoop (server : Server) (toTime : Bytes → Int) (behind : UInt8) :
    Nat → RequestFields → Source → Option (RequestFields × Source)
  | 0, http, s => some (http, s)
  | fuel + 1, http, s =>
      match hinFindLine behind s with
      | none => some (http, s)
      | some (line, s) =>
          if line = [] then some (http, s)
          else
            match http.httpdParseHeadersLine server toTime line with
            | none => none
            | some http => headersLoop server toTime behind fuel http s

/-- `http->post_sz` behind the loop. -/
def RequestFields.settlePost (http : RequestFields) : RequestFields :=
  let sz := if hasFlag http.peerFlags HIN_HTTP_CHUNKED_UPLOAD then 0 else http.postSz
  { http with postSz := if sz < 0 then 0 else sz }

/-- The checks at the end, with the status of the error. -/
def RequestFields.checkPost (http : RequestFields) : Option Int :=
  if hasFlag (http.peerFlags &&& http.disable) HIN_HTTP_POST then some 403
  else if http.method = HIN_METHOD_POST ∧ hasFlag http.peerFlags HIN_HTTP_POST = false then some 411
  else if hinHttpdMaxPostSize ≠ 0 ∧ hinHttpdMaxPostSize ≤ http.postSz then some 413
  else none

/-- `httpd_parse_headers`, on the bytes collected and the byte `behind` them. -/
def httpdParseHeaders (server : Server) (toTime : Bytes → Int) (behind : UInt8) (http : RequestFields) (data : Bytes) :
    Parsed :=
  if blankThere behind (data.length + 2) { data } then
    match hinFindLine behind { data } with
    | none => .refused 501
    | some (line, s) =>
        match hinHttpParseHeaderLine line with
        | some ⟨some method, _, some ver0⟩ =>
            match headersLoop server toTime behind (data.length + 2) (http.httpdParseRequestLine method ver0) s with
            | none => .refused 0
            | some (http, s) =>
                let http := http.settlePost
                match http.checkPost with
                | some status => .refused status
                | none => .accepted http (data.length - s.len).toNat
        | some ⟨some _, _, none⟩ => .refused 505
        | _ => .refused 501   -- neither a method nor a version is known where the line is not matched
  else .wait

/-! ## What is accepted -/

/-- The lines of a head, the request line first, and what is behind the blank one. -/
def requestLines (behind : UInt8) (data : Bytes) : Option (List Bytes × Source) :=
  cgiLines behind (data.length + 2) { data }

/-- Lines, one after the other. -/
def RequestFields.parseLines (server : Server) (toTime : Bytes → Int) (lines : List Bytes) (http : RequestFields) :
    Option RequestFields :=
  lines.foldlM (fun (http : RequestFields) line => http.httpdParseHeadersLine server toTime line) http

section

variable {server : Server} {toTime : Bytes → Int} {behind : UInt8}

theorem parseLines_cons (line : Bytes) (lines : List Bytes) (http : RequestFields) :
    http.parseLines server toTime (line :: lines) =
      (http.httpdParseHeadersLine server toTime line).bind (RequestFields.parseLines server toTime lines) :=
  List.foldlM_cons

theorem parseLines_append (lines more : List Bytes) (http : RequestFields) :
    http.parseLines server toTime (lines ++ more) =
      (http.parseLines server toTime lines).bind (RequestFields.parseLines server toTime more) :=
  List.foldlM_append

/-- Where the blank line is there, the lines in front of it are found. -/
theorem blankThere_lines {fuel : Nat} {s : Source} (h : blankThere behind fuel s = true) :
    ∃ q, cgiLines behind fuel s = some q := by
  induction fuel generalizing s with
  | zero => exact absurd h (by simp [blankThere])
  | succ fuel ih =>
      rw [blankThere] at h
      split at h
      · exact absurd h (by simp)
      · cases hfind : hinFindLine behind s with
        | none => simp [hfind] at h
        | some r =>
            rw [cgiLines, hfind, Option.bind_some]
            by_cases hblank : r.1 = []
            · rw [if_pos hblank]
              exact ⟨_, rfl⟩
            · simp only [hfind, if_neg hblank] at h
              obtain ⟨q, hq⟩ := ih h
              rw [if_neg hblank, hq]
              exact ⟨_, rfl⟩

/-- The loop parses these lines one after the other. -/
theorem headersLoop_eq {fuel fuel' : Nat} (hfuel : fuel ≤ fuel') {s : Source} {lines : List Bytes} {rest : Source}
    (h : cgiLines behind fuel s = some (lines, rest)) (http : RequestFields) :
    headersLoop server toTime behind fuel' http s = (http.parseLines server toTime lines).map (·, rest) := by
  induction fuel generalizing fuel' s lines http with
  | zero => exact absurd h (by simp [cgiLines])
  | succ fuel ih =>
      obtain ⟨fuel', rfl⟩ : ∃ k, fuel' = k + 1 := ⟨fuel' - 1, by omega⟩
      obtain ⟨⟨line, s'⟩, hfind, hrest⟩ := Option.bind_eq_some_iff.mp h
      simp only [headersLoop, hfind]
      by_cases hblank : line = []
      · rw [if_pos hblank] at hrest
        obtain ⟨rfl, rfl⟩ := Prod.mk.inj (Option.some.inj hrest)
        rw [if_pos hblank]
        rfl
      · rw [if_neg hblank] at hrest
        obtain ⟨⟨more, rest'⟩, hmore, heq⟩ := Option.map_eq_some_iff.mp hrest
        obtain ⟨rfl, rfl⟩ := Prod.mk.inj heq
        rw [if_neg hblank, parseLines_cons]
        cases http.httpdParseHeadersLine server toTime line with
        | none => rfl
        | some http => exact ih (by omega) hmore http

/-- **An accepted head, taken apart**: its lines, the fields `read` behind all of them, and what has been checked. -/
structure Accepted (server : Server) (toTime : Bytes → Int) (behind : UInt8) (http : RequestFields) (data : Bytes)
    (http' : RequestFields) (used : Nat) (line : Bytes) (lines : List Bytes) (rest : Source) (method : UInt32)
    (read : RequestFields) : Prop where
  found : requestLines behind data = some (line :: lines, rest)
  request : ∃ path ver0, hinHttpParseHeaderLine line = some ⟨some method, path, some ver0⟩ ∧
    (http.httpdParseRequestLine method ver0).parseLines server toTime lines = some read
  settled : http' = read.settlePost
  checked : http'.checkPost = none
  used : used = (data.length - rest.len).toNat

theorem httpdParseHeaders_accepted {http http' : RequestFields} {data : Bytes} {used : Nat}
    (h : httpdParseHeaders server toTime behind http data = .accepted http' used) :
    ∃ line lines rest method read, Accepted server toTime behind http data http' used line lines rest method read := by
  unfold httpdParseHeaders at h
  split at h
  rotate_left
  · exact absurd h (by simp)
  rename_i hblank
  obtain ⟨⟨all, rest⟩, hall⟩ := blankThere_lines hblank
  cases hfind : hinFindLine behind { data } with
  | none => simp [hfind] at h
  | some r =>
      obtain ⟨line, s⟩ := r
      have hall' := hall
      rw [cgiLines, hfind, Option.bind_some] at hall'
      rw [hfind] at h
      dsimp only at h hall'
      split at h
      · rename_i method path ver0 hrequest
        -- a blank line is no request line
        have hne : line ≠ [] := by
          rintro rfl
          have hnone : hinHttpParseHeaderLine [] = none := by decide
          exact absurd (hrequest.symm.trans hnone) (by simp)
        rw [if_neg hne] at hall'
        obtain ⟨⟨lines, rest'⟩, hlines, heq⟩ := Option.map_eq_some_iff.mp hall'
        obtain ⟨rfl, rfl⟩ := Prod.mk.inj heq
        rw [headersLoop_eq (Nat.le_succ _) hlines] at h
        cases hfold : (http.httpdParseRequestLine method ver0).parseLines server toTime lines with
        | none => simp [hfold] at h
        | some read =>
            simp only [hfold, Option.map_some] at h
            cases hcheck : read.settlePost.checkPost with
            | some status => simp [hcheck] at h
            | none =>
                simp only [hcheck, Parsed.accepted.injEq] at h
                obtain ⟨hhttp, hused⟩ := h
                refine ⟨line, lines, rest', method, read, hall, ⟨path, ver0, hrequest, hfold⟩, hhttp.symm, ?_,
                  hused.symm⟩
                rw [← hhttp]
                exact hcheck
      · exact absurd h (by simp)
      · exact absurd h (by simp)

end

/-! ## One line

The formats that `httpd_parse_headers_line` tries begin with names, of which a line has one at most. -/

/-- A line that matches a format begins with its literal part. -/
theorem literalPrefix_of_took {lit fmt line : Bytes} (hne : lit ≠ []) (hlit : lit.all literalByte = true)
    (h : (matchiString line (lit ++ fmt)).took.isSome = true) : literalPrefix true lit line = true := by
  by_contra hno
  rw [matchiString_none hne hlit (Bool.eq_false_iff.mpr hno)] at h
  exact absurd h (by simp)

/-- The names in front of the formats, in the order in which they are tried. -/
def lineNames : List Bytes :=
  [bytes "Accept-Encoding: ", bytes "Host:", bytes "If-Modified-Since:", bytes "If-None-Match:", bytes "Connection:",
    bytes "Range:", bytes "Content-Length:", bytes "Content-Type:", bytes "Transfer-Encoding:"]

theorem lineNames_clash : lineNames.Pairwise fun a b => clash a b = true := by decide

theorem lineNames_literal : ∀ name ∈ lineNames, name ≠ [] ∧ name.all literalByte = true := by decide

theorem clash_comm (a b : Bytes) : clash a b = clash b a := by
  induction a generalizing b with
  | nil => simp [clash]
  | cons x xs ih =>
      cases b with
      | nil => simp [clash]
      | cons y ys =>
          have hrest : clash xs ys = clash ys xs := ih ys
          simp only [clash] at hrest
          simp only [clash, List.zip_cons_cons, List.any_cons, hrest, bne_comm (a := toupper x)]

/-- **A line is of one kind.** A line with one of the names matches no format with another one. -/
theorem took_of_other {i j : Nat} (hi : i < lineNames.length) (hj : j < lineNames.length) (hij : i ≠ j) {line : Bytes}
    (h : literalPrefix true lineNames[i] line = true) (fmt : Bytes) :
    (matchiString line (lineNames[j] ++ fmt)).took = none := by
  have hclash : clash lineNames[i] lineNames[j] = true := by
    rcases Nat.lt_or_gt_of_ne hij with hlt | hlt
    · exact List.pairwise_iff_getElem.mp lineNames_clash i j hi hj hlt
    · rw [clash_comm]
      exact List.pairwise_iff_getElem.mp lineNames_clash j i hj hi hlt
  obtain ⟨hne, hlit⟩ := lineNames_literal _ (List.getElem_mem hj)
  exact matchiString_none hne hlit (literalPrefix_clash hclash h)

section

variable {server : Server} {toTime : Bytes → Int} {http http' : RequestFields} {line : Bytes}

/-- What a line can do besides filling the field of its own kind: nothing. -/
inductive LineStep (server : Server) (toTime : Bytes → Int) (http : RequestFields) (line : Bytes) : RequestFields → Prop where
  | encoding (hname : literalPrefix true lineNames[0] line = true) (peer : UInt32)
      (hpeer : ∃ used, peer = RequestFields.acceptEncodings (line.length + 1) http.peerFlags (line.drop used)) :
      LineStep server toTime http line { http with peerFlags := peer }
  | host (hhost : (matchiString line (bytes "Host:%s*([%w.]+)")).took.isSome = true) :
      LineStep server toTime http line
        (http.httpdVhostRequest server ((matchiString line (bytes "Host:%s*([%w.]+)")).capture line 0))
  | since (hname : literalPrefix true lineNames[2] line = true) (t : Int) :
      LineStep server toTime http line { http with modifiedSince := t }
  | etag (used : Nat) (hetag : (matchiString line (bytes "If-None-Match:%s*\"")).took = some used) :
      LineStep server toTime http line { http with etag := RequestFields.strtolHex (line.drop used) }
  | connection (hname : literalPrefix true lineNames[4] line = true) (peer : UInt32)
      (hpeer : ∃ used, peer = RequestFields.connectionOptions (line.length + 1) http.peerFlags (line.drop used)) :
      LineStep server toTime http line { http with peerFlags := peer }
  | range (hname : literalPrefix true lineNames[5] line = true) (pos count : Int) :
      LineStep server toTime http line { http with pos := pos, count := count }
  | length (hpost : http.method = HIN_METHOD_POST)
      (hlength : (matchiString line (bytes "Content-Length: (%d+)")).took.isSome = true) :
      LineStep server toTime http line { http with
        postSz := atoi ((matchiString line (bytes "Content-Length: (%d+)")).capture line 0)
        peerFlags := http.peerFlags ||| HIN_HTTP_POST }
  | boundary (hname : literalPrefix true lineNames[7] line = true) (sep : Option Bytes) :
      LineStep server toTime http line { http with postSep := sep }
  | chunked (hpost : http.method = HIN_METHOD_POST) (used : Nat)
      (hcoding : (matchiString line (bytes "Transfer-Encoding:%s*")).took = some used)
      (hchunked : (matchiString (line.drop used) (bytes "chunked")).took.isSome = true) :
      LineStep server toTime http line
        { http with peerFlags := http.peerFlags ||| (HIN_HTTP_CHUNKED_UPLOAD ||| HIN_HTTP_POST) }
  | identity (hpost : http.method = HIN_METHOD_POST) (used : Nat)
      (hcoding : (matchiString line (bytes "Transfer-Encoding:%s*")).took = some used)
      (hplain : (matchiString (line.drop used) (bytes "chunked")).took = none) :
      LineStep server toTime http line http
  | other (hhost : (matchiString line (bytes "Host:%s*([%w.]+)")).took = none)
      (hetag : (matchiString line (bytes "If-None-Match:%s*\"")).took = none)
      (hpost : http.method = HIN_METHOD_POST → (matchiString line (bytes "Content-Length: (%d+)")).took = none ∧
        (matchiString line (bytes "Transfer-Encoding:%s*")).took = none) :
      LineStep server toTime http line http

theorem hostFormat_eq : bytes "Host:%s*([%w.]+)" = lineNames[1] ++ bytes "%s*([%w.]+)" := by decide

theorem etagFormat_eq : bytes "If-None-Match:%s*\"" = lineNames[3] ++ bytes "%s*\"" := by decide

theorem lengthFormat_eq : bytes "Content-Length: (%d+)" = lineNames[6] ++ bytes " (%d+)" := by decide

theorem codingFormat_eq : bytes "Transfer-Encoding:%s*" = lineNames[8] ++ bytes "%s*" := by decide

/-- A line that matches a format has its name. -/
theorem name_of_took {i : Nat} (hi : i < lineNames.length) {fmt : Bytes} {used : Nat}
    (h : (matchiString line (lineNames[i] ++ fmt)).took = some used) : literalPrefix true lineNames[i] line = true := by
  obtain ⟨hne, hlit⟩ := lineNames_literal _ (List.getElem_mem hi)
  exact literalPrefix_of_took hne hlit (by rw [h]; rfl)

/-- The lines that only a `POST` is looked at for. -/
theorem postLine_step (hpost : http.method = HIN_METHOD_POST)
    (hhost : (matchiString line (bytes "Host:%s*([%w.]+)")).took = none)
    (hetag : (matchiString line (bytes "If-None-Match:%s*\"")).took = none)
    (h : http.httpdParsePostLine line = some http') : LineStep server toTime http line http' := by
  have hboundary : bytes "Content-Type:%s*multipart/form-data;%s*boundary=%\"?([%-%w]+)%\"?" =
      lineNames[7] ++ bytes "%s*multipart/form-data;%s*boundary=%\"?([%-%w]+)%\"?" := by decide
  unfold RequestFields.httpdParsePostLine at h
  dsimp only at h
  split at h
  · rename_i used hlength
    obtain rfl := Option.some.inj h
    exact .length hpost (by rw [hlength]; rfl)
  · rename_i used hlength hbound
    obtain rfl := Option.some.inj h
    exact .boundary (name_of_took (by decide) (hboundary ▸ hbound)) _
  · rename_i used hlength hbound hcoding
    split at h
    · rename_i hchunked
      obtain rfl := Option.some.inj h
      exact .chunked hpost used hcoding hchunked
    · rename_i hplain
      split at h
      · obtain rfl := Option.some.inj h
        exact .identity hpost used hcoding (by simpa using hplain)
      · exact absurd h (by simp)
  · rename_i hlength hbound hcoding
    obtain rfl := Option.some.inj h
    exact .other hhost hetag fun _ => ⟨hlength, hcoding⟩

/-- **What a line does.** -/
theorem headersLine_step (h : http.httpdParseHeadersLine server toTime line = some http') :
    LineStep server toTime http line http' := by
  have haccept : bytes "Accept-Encoding: " = lineNames[0] ++ [] := by decide
  have hsince : bytes "If-Modified-Since:%s*" = lineNames[2] ++ bytes "%s*" := by decide
  have hconnection : bytes "Connection:%s*" = lineNames[4] ++ bytes "%s*" := by decide
  have hrange : bytes "Range:%s*" = lineNames[5] ++ bytes "%s*" := by decide
  unfold RequestFields.httpdParseHeadersLine at h
  dsimp only at h
  split at h
  · rename_i used h0
    obtain rfl := Option.some.inj h
    exact .encoding (name_of_took (by decide) (haccept ▸ h0)) _ ⟨used, rfl⟩
  split at h
  · rename_i used h1
    obtain rfl := Option.some.inj h
    exact .host (by rw [h1]; rfl)
  rename_i hhost
  split at h
  · rename_i used h2
    obtain rfl := Option.some.inj h
    exact .since (name_of_took (by decide) (hsince ▸ h2)) _
  split at h
  · rename_i used h3
    obtain rfl := Option.some.inj h
    exact .etag used h3
  rename_i hetag
  split at h
  · rename_i used h4
    obtain rfl := Option.some.inj h
    exact .connection (name_of_took (by decide) (hconnection ▸ h4)) _ ⟨used, rfl⟩
  split at h
  · rename_i used h5
    obtain rfl := Option.some.inj h
    exact .range (name_of_took (by decide) (hrange ▸ h5)) _ _
  split at h
  · rename_i hpost
    exact postLine_step hpost hhost hetag h
  · rename_i hpost
    obtain rfl := Option.some.inj h
    exact .other hhost hetag fun hm => absurd hm hpost

end

end Http
end Hin9
