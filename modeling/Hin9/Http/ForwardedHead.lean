import Hin9.Http.ForwardedLength
import Hin9.Http.ParseUri
import Hin9.Http.ProxyReply
import Hin9.Http.UpstreamRead

/-!
# `Http.ForwardedHead` — a request that one server forwards to another (`headers.c`, `rproxy.c`, `httpd_head.c`)

`http_client_start_headers` and `hin_rproxy_send` print a head, and `httpd_parse_headers` reads one. Where the upstream server is
another `hin9` the two meet: the request line that is printed is one that is read (`requestLine_match`), the lines that are passed
on do there what they did here (`headersLine_asked`), and the ones that are not ask for nothing (`keptBack_asked`).
-/

namespace Hin9
namespace Http

open Pattern
open Netcode (READ_SZ)
open Fcgi (Chain HIN_HTTPD_MAX_HEADER_LINE_SIZE cstr)

/-! ## The request line -/

/-- A byte of `HIN_HTTP_PATH_ACCEPT`. -/
def targetByte (c : UInt8) : Bool :=
  isalnum c || c == 46 || c == 37 || c == 95 || c == 45 || c == 47 || c == 43 || c == 38 || c == 35 || c == 36 || c == 63 ||
    c == 61 || c == 44 || c == 58 || c == 59 || c == 126 || c == 64 || c == 33 || c == 39 || c == 42 || c == 40 || c == 41 ||
    c == 91 || c == 93

def targetSet : Bytes := bytes "%w.%%_-/+&#$?=,:;~@!'*()%[%]"

theorem matchPattern_target (data : Bytes) : matchPattern data targetSet ⟨true, false⟩ =
    if data.takeWhile targetByte = [] then none else some (data.takeWhile targetByte).length := by
  have hes : ∀ e ∈ ([.letter 119, .char 46, .letter 37, .char 95, .char 45, .char 47, .char 43, .char 38, .char 35, .char 36,
      .char 63, .char 61, .char 44, .char 58, .char 59, .char 126, .char 64, .char 33, .char 39, .char 42, .char 40, .char 41,
      .letter 91, .letter 93] : List Elem), e.wellFormed = true := by decide
  refine matchPattern_set hes (by decide) (by decide) (fun c => ?_) data
  simp [Elem.takes, letterHas, capitalLetter, targetByte, Bool.or_assoc]

def versionByte (c : UInt8) : Bool := isdigit c || c == 46

theorem matchPattern_version (data : Bytes) : matchPattern data (bytes "%d.") ⟨true, false⟩ =
    if data.takeWhile versionByte = [] then none else some (data.takeWhile versionByte).length := by
  have hes : ∀ e ∈ ([.letter 100, .char 46] : List Elem), e.wellFormed = true := by decide
  refine matchPattern_set hes (by decide) (by decide) (fun c => ?_) data
  simp [Elem.takes, letterHas, capitalLetter, versionByte]

theorem matchChar_letter (c ch : UInt8) : matchChar c PATTERN_LETTER ch = isalpha c := by
  have h0 : hasMask PATTERN_LETTER PATTERN_LETTER = true := by decide
  have h : ([PATTERN_CUSTOM, PATTERN_DIGIT, PATTERN_SPACE, PATTERN_ALPHANUM, PATTERN_CONTROL, PATTERN_PUNCTUATION,
      PATTERN_LOWER, PATTERN_UPPER, PATTERN_HEXA, PATTERN_NULL_CHAR, PATTERN_NEGATIVE, PATTERN_ALL].all
        fun bit => !hasMask PATTERN_LETTER bit) = true := by
    decide
  simp only [List.all_cons, List.all_nil, Bool.and_true, Bool.and_eq_true, Bool.not_eq_true'] at h
  simp [matchChar, h0, h]

/-- A run that something else stops. -/
theorem takeWhile_run {p : UInt8 → Bool} {run rest : Bytes} (hrun : ∀ c ∈ run, p c = true)
    (hrest : ∀ c ∈ rest.head?, p c = false) : (run ++ rest).takeWhile p = run := by
  rw [List.takeWhile_append_of_pos hrun]
  cases rest with
  | nil => rw [List.takeWhile_nil, List.append_nil]
  | cons c cs => rw [List.takeWhile_cons_of_neg (by simp [hrest c rfl]), List.append_nil]

/-- **A request line that is printed is read.** -/
theorem requestLine_match {name path : Bytes} (hname : name ≠ []) (halpha : ∀ c ∈ name, isalpha c = true) (hpath : path ≠ [])
    (htarget : ∀ c ∈ path, targetByte c = true) :
    matchString (name ++ (32 :: (path ++ bytes " HTTP/1.1"))) (bytes ("(%a+) (" ++ hinHttpPathAccept ++ ") HTTP/([%d.]+)")) =
      ⟨some (name.length + 1 + path.length + 9),
        [(0, name.length), (name.length + 1, path.length), (name.length + 1 + path.length + 6, 3)]⟩ := by
  have hformat : bytes ("(%a+) (" ++ hinHttpPathAccept ++ ") HTTP/([%d.]+)") =
      40 :: 37 :: 97 :: 43 :: 41 :: ([32] ++ (40 :: 91 :: (targetSet ++ bytes "]+) HTTP/([%d.]+)"))) := by decide
  have hletter : getPattern [37, 97] 0 = [⟨PATTERN_LETTER, 0⟩] := by decide
  have hscan : scanSet 91 (targetSet ++ bytes "]+) HTTP/([%d.]+)") = some (targetSet, bytes "+) HTTP/([%d.]+)") := by decide
  have hscan' : scanSet 91 (bytes "%d.]+)") = some (bytes "%d.", bytes "+)") := by decide
  have hclose : bytes ") HTTP/([%d.]+)" = 41 :: (bytes " HTTP/" ++ (40 :: 91 :: bytes "%d.]+)")) := by decide
  -- the three runs
  have hfirst : (name ++ (32 :: (path ++ bytes " HTTP/1.1"))).takeWhile isalpha = name := by
    refine takeWhile_run halpha fun c hc => ?_
    obtain rfl := Option.some.inj hc
    decide
  have hsecond : (path ++ bytes " HTTP/1.1").takeWhile targetByte = path := by
    refine takeWhile_run htarget fun c hc => ?_
    obtain rfl : (32 : UInt8) = c := Option.some.inj hc
    decide
  have hthird : (bytes "1.1").takeWhile versionByte = bytes "1.1" := by decide
  have hlength : (bytes ("(%a+) (" ++ hinHttpPathAccept ++ ") HTTP/([%d.]+)")).length + 1 = 37 + 17 := by decide
  have hblank : ([32] : Bytes).all literalByte = true := by decide
  have hhttp : (bytes " HTTP/").all literalByte = true := by decide
  have hversion : bytes " HTTP/1.1" = bytes " HTTP/" ++ bytes "1.1" := by decide
  obtain ⟨c, cs, hdata⟩ := List.exists_cons_of_ne_nil (l := name ++ (32 :: (path ++ bytes " HTTP/1.1"))) (by simp)
  rw [matchString, matchStringVirtual, if_neg (by rw [hdata]; exact Bool.false_ne_true), hlength, hformat]
  generalize 37 = fuel
  -- the method
  rw [formatLoop_open, formatLoop_class]
  have hplus : takeSpecifier (43 :: 41 :: ([32] ++ (40 :: 91 :: (targetSet ++ bytes "]+) HTTP/([%d.]+)")))) =
      (⟨true, false⟩, 41 :: ([32] ++ (40 :: 91 :: (targetSet ++ bytes "]+) HTTP/([%d.]+)")))) := rfl
  rw [hplus]
  dsimp only
  rw [matchPattern_plus hletter (fun c => matchChar_letter c 0), hfirst, if_neg hname]
  dsimp only
  rw [formatLoop_close, List.drop_left, Nat.zero_add, Nat.sub_zero, List.nil_append]
  have hlit := formatLoop_literal false (fuel + 13) hblank (40 :: 91 :: (targetSet ++ bytes "]+) HTTP/([%d.]+)"))
    (32 :: (path ++ bytes " HTTP/1.1")) name.length none [(0, name.length)]
  rw [show ([32] : Bytes).length + (fuel + 13) = fuel + 14 by simp; omega] at hlit
  rw [hlit, if_pos (by simp [literalPrefix])]
  -- the target
  rw [formatLoop_open, formatLoop_set _ _ _ _ _ _ _ hscan]
  have hplus' : takeSpecifier (bytes "+) HTTP/([%d.]+)") = (⟨true, false⟩, bytes ") HTTP/([%d.]+)") := by decide
  have hdrop : (32 :: (path ++ bytes " HTTP/1.1") : Bytes).drop ([32] : Bytes).length = path ++ bytes " HTTP/1.1" := rfl
  rw [hplus', hdrop]
  dsimp only
  rw [matchPattern_target, hsecond, if_neg hpath]
  dsimp only
  rw [hclose, formatLoop_close, List.drop_left, hversion]
  have hspan : name.length + 1 + path.length - (name.length + 1) = path.length := by omega
  rw [show name.length + ([32] : Bytes).length = name.length + 1 from rfl, hspan, List.singleton_append]
  -- the version
  have hlit' := formatLoop_literal false (fuel + 4) hhttp (40 :: 91 :: bytes "%d.]+)") (bytes " HTTP/" ++ bytes "1.1")
    (name.length + 1 + path.length) none [(0, name.length), (name.length + 1, path.length)]
  have hsix : (bytes " HTTP/").length = 6 := by decide
  have hdrop' : (bytes " HTTP/" ++ bytes "1.1").drop 6 = bytes "1.1" := by decide
  have hsees : literalPrefix false (bytes " HTTP/") (bytes " HTTP/" ++ bytes "1.1") = true := by decide
  rw [hsix, hdrop', show 6 + (fuel + 4) = fuel + 10 by omega, if_pos hsees] at hlit'
  rw [hlit', formatLoop_open, formatLoop_set _ _ _ _ _ _ _ hscan']
  have hplus'' : takeSpecifier (bytes "+)") = (⟨true, false⟩, [41]) := by decide
  have hthree : (bytes "1.1").length = 3 := by decide
  rw [hplus'']
  dsimp only
  rw [matchPattern_version, hthird, if_neg (by decide), hthree]
  dsimp only
  rw [formatLoop_close, formatLoop_end, Nat.add_sub_cancel_left]
  rfl

/-- What `http_client_start_headers` prints first is read as what it was printed from. -/
theorem requestLine_read {name path : Bytes} (hname : name ≠ []) (halpha : ∀ c ∈ name, isalpha c = true) (hpath : path ≠ [])
    (htarget : ∀ c ∈ path, targetByte c = true) :
    hinHttpParseHeaderLine (name ++ (32 :: (path ++ bytes " HTTP/1.1"))) = some ⟨methodNumber name, path, some false⟩ := by
  have hmatch := requestLine_match hname halpha hpath htarget
  have hbehind : (name ++ (32 :: (path ++ bytes " HTTP/1.1"))).drop (name.length + 1) = path ++ bytes " HTTP/1.1" := by
    rw [← List.drop_drop, List.drop_left, List.drop_one, List.tail_cons]
  have hfirst : (name ++ (32 :: (path ++ bytes " HTTP/1.1"))).take name.length = name := List.take_left
  have hsecond : ((name ++ (32 :: (path ++ bytes " HTTP/1.1"))).drop (name.length + 1)).take path.length = path := by
    rw [hbehind, List.take_left]
  have hthird : ((name ++ (32 :: (path ++ bytes " HTTP/1.1"))).drop (name.length + 1 + path.length + 6)).take 3 =
      bytes "1.1" := by
    rw [Nat.add_assoc, ← List.drop_drop, hbehind, ← List.drop_drop, List.drop_left]
    decide
  have hversion : versionNumber (bytes "1.1") = some false := by decide
  unfold hinHttpParseHeaderLine
  rw [hmatch]
  simp only [Result.took, Result.capture, Option.map_some, List.getElem?_cons_zero, List.getElem?_cons_succ, List.drop_zero,
    hfirst, hsecond, hthird, hversion]

/-! ## The address -/

theorem targetByte_of_path {c : UInt8} (h : ParseUri.pathByte c = true) : targetByte c = true := by
  have hall : ∀ c : UInt8, ParseUri.pathByte c = true → targetByte c = true := forall_byte (by decide +kernel)
  exact hall c h

/-- The host is a run of its bytes, or there is none. -/
theorem host_bytes (c : Bytes) : ∀ b ∈ if (matchString c (bytes "([%w.-_]+)")).used.isSome then
    (matchString c (bytes "([%w.-_]+)")).capture c 0 else [], ParseUri.hostByte b = true := by
  intro b hb
  rw [ParseUri.matchString_host] at hb
  by_cases hnone : c.takeWhile ParseUri.hostByte = []
  · rw [if_pos hnone] at hb
    exact absurd hb List.not_mem_nil
  · rw [if_neg hnone] at hb
    have hrun : b ∈ c.take (c.takeWhile ParseUri.hostByte).length := hb
    rw [ParseUri.take_run] at hrun
    exact List.mem_takeWhile_imp hrun

theorem port_bytes (c : Bytes) : ∀ b ∈ if (matchString c (bytes ":(%d+)")).took.isSome then
    (matchString c (bytes ":(%d+)")).capture c 0 else [], isdigit b = true := by
  intro b hb
  have hmatch := ParseUri.matchString_port c
  cases c with
  | nil => exact absurd hb List.not_mem_nil
  | cons d ds =>
      dsimp only at hmatch
      by_cases hport : d = 58 ∧ ds.takeWhile isdigit ≠ []
      · rw [if_pos hport] at hmatch
        rw [hmatch] at hb
        split at hb
        · have hrun : b ∈ ds.take (ds.takeWhile isdigit).length := hb
          rw [ParseUri.take_run] at hrun
          exact List.mem_takeWhile_imp hrun
        · exact absurd hb List.not_mem_nil
      · rw [if_neg hport] at hmatch
        rw [hmatch] at hb
        exact absurd hb List.not_mem_nil

/-- The query is read with its marks, and they are bytes of a target as well. -/
theorem query_bytes (c : Bytes) : ∀ b ∈ c.take
    ((matchString c ([37, 63] ++ bytes "([" ++ ParseUri.pathAccept ++ bytes "]+)")).took.getD 0), targetByte b = true := by
  intro b hb
  rw [ParseUri.matchString_marked (.inl rfl)] at hb
  by_cases hquery : c.takeWhile (· == 63) ≠ [] ∧ (c.dropWhile (· == 63)).takeWhile ParseUri.pathByte ≠ []
  · have hmarks : c.drop (c.takeWhile (· == 63)).length = c.dropWhile (· == 63) := ParseUri.drop_run _ c
    have htook : ∀ (n m : Nat) (caps : List (Nat × Nat)), n ≠ 0 → (⟨some (n + m), caps⟩ : Result).took = some (n + m) := by
      intro n m caps hn
      obtain ⟨k, hk⟩ : ∃ k, n + m = k + 1 := ⟨n + m - 1, by omega⟩
      rw [hk]
      rfl
    rw [if_pos hquery, htook _ _ _ fun h0 => hquery.1 (List.length_eq_zero_iff.mp h0), Option.getD_some, List.take_add,
      ParseUri.take_run, hmarks, ParseUri.take_run] at hb
    rcases List.mem_append.mp hb with hmark | hrun
    · have hb := List.mem_takeWhile_imp hmark
      rw [beq_iff_eq] at hb
      rw [hb]
      decide
    · exact targetByte_of_path (List.mem_takeWhile_imp hrun)
  · rw [if_neg hquery] at hb
    exact absurd hb List.not_mem_nil

/-- The path and the query behind it. -/
theorem target_bytes {c : Bytes} {n : Nat} (h : (matchString c (bytes "([" ++ ParseUri.pathAccept ++ bytes "]+)")).used = some n) :
    c.take (n + (matchString (c.drop n) ([37, 63] ++ bytes "([" ++ ParseUri.pathAccept ++ bytes "]+)")).took.getD 0) ≠ [] ∧
      ∀ b ∈ c.take (n + (matchString (c.drop n) ([37, 63] ++ bytes "([" ++ ParseUri.pathAccept ++ bytes "]+)")).took.getD 0),
        targetByte b = true := by
  rw [ParseUri.matchString_path] at h
  by_cases hnone : c.takeWhile ParseUri.pathByte = []
  · rw [if_pos hnone] at h
    exact absurd h (by simp)
  · rw [if_neg hnone] at h
    obtain rfl := Option.some.inj h
    rw [List.take_add, ParseUri.take_run]
    refine ⟨fun hnil => hnone (List.append_eq_nil_iff.mp hnil).1, fun b hb => ?_⟩
    rcases List.mem_append.mp hb with hpath | hquery
    · exact targetByte_of_path (List.mem_takeWhile_imp hpath)
    · exact query_bytes _ b hquery

/-- **The parts of an address can be printed** in a head: the target has bytes of a target only, the host and the port have no
    line break. -/
theorem hinParseUri_printable {url : Bytes} {uri : Uri} (h : hinParseUri url = some uri) :
    uri.path ≠ [] ∧ (∀ c ∈ uri.path, targetByte c = true) ∧ (∀ c ∈ uri.host, ParseUri.hostByte c = true) ∧
      ∀ c ∈ uri.port, isdigit c = true := by
  have hpathFormat : bytes ("([" ++ pathAccept ++ "]+)") = bytes "([" ++ ParseUri.pathAccept ++ bytes "]+)" := by decide
  have hqueryFormat : bytes ("%?([" ++ pathAccept ++ "]+)") = [37, 63] ++ bytes "([" ++ ParseUri.pathAccept ++ bytes "]+)" := by
    decide
  unfold hinParseUri at h
  rw [hpathFormat, hqueryFormat] at h
  obtain ⟨n, hn, rfl⟩ := Option.map_eq_some_iff.mp h
  exact ⟨(target_bytes hn).1, (target_bytes hn).2, host_bytes _, port_bytes _⟩

/-! ## The head as it is sent -/

/-- The request line. -/
def SentHead.first (sent : SentHead) : Bytes := sent.method ++ (32 :: (sent.path ++ bytes " HTTP/1.1"))

/-- The lines about the connection. -/
def SentHead.own (sent : SentHead) : List Bytes :=
  [bytes "Host: " ++ (sent.host ++ if sent.port = [] then [] else 58 :: sent.port),
    bytes "Connection: " ++ if sent.keepalive then bytes "keep-alive" else bytes "close"]

/-- The length of a body as it is printed. -/
def lengthLine (sz : Int) : Bytes := bytes "Content-Length: " ++ decText sz

/-- The lines behind the request line: those that are passed on are printed as texts. -/
def SentHead.more (sent : SentHead) : List Bytes :=
  sent.own ++ (sent.passedOn.copied.map cstr ++ (sent.passedOn.body.map fun body => lengthLine body.1).toList)

def SentHead.lines (sent : SentHead) : List Bytes := sent.first :: sent.more

/-- The bytes of the body that go with the head. -/
def SentHead.data (sent : SentHead) : Bytes := (sent.passedOn.body.map Prod.snd).getD []

/-- The buffers that `http_client_start_headers` and `hin_rproxy_send` write, one line at a time. -/
def SentHead.buffers (sent : SentHead) : Option Chain :=
  ((sent.lines.map (· ++ [CR, LF]) ++ [[CR, LF]]).foldlM header { sz := READ_SZ }).map fun head => Fcgi.headerRaw head sent.data

/-- What is sent if it fits into one buffer. -/
def SentHead.wire (sent : SentHead) : Bytes := UpstreamResponse.text sent.lines ++ sent.data

/-- Texts that fit are written one behind the other. -/
theorem foldlM_header_fits {texts : List Bytes} {c : Chain} (hfits : c.last.length + texts.flatten.length < c.sz)
    (hsz : c.sz ≤ HIN_HTTPD_MAX_HEADER_LINE_SIZE) :
    texts.foldlM header c = some { c with last := c.last ++ texts.flatten } := by
  induction texts generalizing c with
  | nil => simp
  | cons text texts ih =>
      rw [List.flatten_cons, List.length_append] at hfits
      have hheader : header c text = some { c with last := c.last ++ text } := by
        unfold header
        rw [if_neg (by omega), if_pos (by omega)]
      rw [List.foldlM_cons, hheader, Option.bind_eq_bind, Option.bind_some, ih, List.flatten_cons, List.append_assoc]
      · dsimp only
        rw [List.length_append]
        omega
      · exact hsz

/-- **A request that fits into one buffer** is that buffer. -/
theorem buffers_fit {sent : SentHead} (hfits : sent.wire.length < READ_SZ) :
    sent.buffers = some { last := sent.wire, sz := READ_SZ } := by
  have hflatten : (sent.lines.map (· ++ [CR, LF]) ++ [[CR, LF]]).flatten = UpstreamResponse.text sent.lines := by
    rw [List.flatten_append, ← List.flatMap_def, List.flatten_singleton]
    rfl
  have hmax : READ_SZ = HIN_HTTPD_MAX_HEADER_LINE_SIZE := rfl
  unfold SentHead.buffers
  unfold SentHead.wire at hfits ⊢
  rw [List.length_append] at hfits
  rw [foldlM_header_fits (by rw [hflatten, List.length_nil]; dsimp only; omega) hmax.le, hflatten, Option.map_some, List.nil_append]
  unfold Fcgi.headerRaw Fcgi.Chain.append
  rw [if_neg (by omega), if_pos (by dsimp only; omega)]

/-! ## A head that is printed, read -/

section

variable {behind : UInt8} {tail : Bytes}

variable (behind tail) in
/-- The lines of a head are found in its text, by induction on the lines. -/
theorem cgiLines_text {lines : List Bytes} (h : ∀ line ∈ lines, line ≠ [] ∧ LF ∉ line) {fuel : Nat}
    (hfuel : lines.length < fuel) :
    cgiLines behind fuel { data := UpstreamResponse.text lines ++ tail } = some (lines, { data := tail }) := by
  induction lines generalizing fuel with
  | nil =>
      obtain ⟨fuel, rfl⟩ : ∃ n, fuel = n + 1 := ⟨fuel - 1, by omega⟩
      have hfind : hinFindLine behind { data := UpstreamResponse.text [] ++ tail } = some ([], { data := tail }) :=
        hinFindLine_line behind List.not_mem_nil tail
      rw [cgiLines, hfind, Option.bind_some, if_pos rfl]
  | cons line lines ih =>
      obtain ⟨fuel, rfl⟩ : ∃ n, fuel = n + 1 := ⟨fuel - 1, by omega⟩
      obtain ⟨hne, hlf⟩ := h line List.mem_cons_self
      have hfind : hinFindLine behind { data := UpstreamResponse.text (line :: lines) ++ tail } =
          some (line, { data := UpstreamResponse.text lines ++ tail }) := by
        rw [text_cons, List.append_assoc]
        exact hinFindLine_line behind hlf _
      rw [List.length_cons] at hfuel
      rw [cgiLines, hfind, Option.bind_some, if_neg hne, ih (fun l hl => h l (List.mem_cons_of_mem _ hl)) (by omega)]
      rfl

/-- Its blank line is there. -/
theorem blankThere_text {lines : List Bytes} (h : ∀ line ∈ lines, line ≠ [] ∧ LF ∉ line) {fuel : Nat}
    (hfuel : lines.length < fuel) : blankThere behind fuel { data := UpstreamResponse.text lines ++ tail } = true := by
  have hlen : ∀ lines : List Bytes, ¬ ({ data := UpstreamResponse.text lines ++ tail } : Source).len ≤ 0 := by
    intro lines
    have hpos := List.length_pos_of_ne_nil (text_ne_nil lines)
    unfold Source.len
    rw [if_neg Bool.false_ne_true, List.length_append]
    omega
  induction lines generalizing fuel with
  | nil =>
      obtain ⟨fuel, rfl⟩ : ∃ n, fuel = n + 1 := ⟨fuel - 1, by omega⟩
      have hfind : hinFindLine behind { data := UpstreamResponse.text [] ++ tail } = some ([], { data := tail }) :=
        hinFindLine_line behind List.not_mem_nil tail
      rw [blankThere, if_neg (hlen []), hfind]
      rfl
  | cons line lines ih =>
      obtain ⟨fuel, rfl⟩ : ∃ n, fuel = n + 1 := ⟨fuel - 1, by omega⟩
      obtain ⟨hne, hlf⟩ := h line List.mem_cons_self
      have hfind : hinFindLine behind { data := UpstreamResponse.text (line :: lines) ++ tail } =
          some (line, { data := UpstreamResponse.text lines ++ tail }) := by
        rw [text_cons, List.append_assoc]
        exact hinFindLine_line behind hlf _
      rw [List.length_cons] at hfuel
      rw [blankThere, if_neg (hlen _), hfind]
      dsimp only
      rw [if_neg hne]
      exact ih (fun l hl => h l (List.mem_cons_of_mem _ hl)) (by omega)

variable (behind tail) in
/-- **A head that is printed is read line by line**: what comes out depends on the checks at the end only. -/
theorem httpdParseHeaders_text {server : Server} {toTime : Bytes → Int} {http read : RequestFields} {first : Bytes}
    {lines : List Bytes} (h : ∀ line ∈ first :: lines, line ≠ [] ∧ LF ∉ line) {method : UInt32} {path : Bytes} {ver0 : Bool}
    (hfirst : hinHttpParseHeaderLine first = some ⟨some method, path, some ver0⟩)
    (hread : (http.httpdParseRequestLine method ver0).parseLines server toTime lines = some read) :
    httpdParseHeaders server toTime behind http (UpstreamResponse.text (first :: lines) ++ tail) =
      (read.settlePost.checkPost.map Parsed.refused).getD
        (.accepted read.settlePost (UpstreamResponse.text (first :: lines)).length) := by
  have hlong := lines_length_le (first :: lines)
  rw [List.length_cons] at hlong
  have hfuel : lines.length + 1 < (UpstreamResponse.text (first :: lines) ++ tail).length + 2 := by
    rw [List.length_append]
    omega
  have hfind : hinFindLine behind { data := UpstreamResponse.text (first :: lines) ++ tail } =
      some (first, { data := UpstreamResponse.text lines ++ tail }) := by
    rw [text_cons, List.append_assoc]
    exact hinFindLine_line behind (h first List.mem_cons_self).2 _
  have hrest : ∀ line ∈ lines, line ≠ [] ∧ LF ∉ line := fun line hin => h line (List.mem_cons_of_mem _ hin)
  have hlines := cgiLines_text behind tail hrest (Nat.lt_succ_self lines.length)
  have hused : ((UpstreamResponse.text (first :: lines) ++ tail).length - ({ data := tail } : Source).len).toNat =
      (UpstreamResponse.text (first :: lines)).length := by
    show (((UpstreamResponse.text (first :: lines) ++ tail).length : Int) - (tail.length : Int)).toNat = _
    rw [List.length_append]
    omega
  unfold httpdParseHeaders
  rw [if_pos (blankThere_text h hfuel), hfind]
  dsimp only
  rw [hfirst]
  dsimp only
  rw [headersLoop_eq (by omega) hlines, hread, Option.map_some]
  dsimp only
  rw [hused]
  cases read.settlePost.checkPost with
  | none => rfl
  | some status => rfl

end

/-! ## What is asked for -/

/-- The fields that the lines of a head set for the request itself, and not for the connection or for the length of the
    body. -/
structure AskedFor where
  method : UInt32
  pos : Int
  count : Int
  modifiedSince : Int
  etag : UInt64
  postSep : Option Bytes
deriving Repr, DecidableEq

def RequestFields.asked (http : RequestFields) : AskedFor where
  method := http.method
  pos := http.pos
  count := http.count
  modifiedSince := http.modifiedSince
  etag := http.etag
  postSep := http.postSep

section

variable {server server' : Server} {toTime : Bytes → Int} {http http' other : RequestFields} {line : Bytes}

theorem asked_vhostRequest (name : Bytes) : (http.httpdVhostRequest server name).asked = http.asked := by
  unfold RequestFields.httpdVhostRequest
  split
  · rfl
  · split <;> rfl

theorem postLine_asked (h : http.asked = other.asked) :
    (http.httpdParsePostLine line).map RequestFields.asked = (other.httpdParsePostLine line).map RequestFields.asked := by
  have heq := h
  simp only [RequestFields.asked, AskedFor.mk.injEq] at heq
  obtain ⟨hmethod, hpos, hcount, hsince, hetag, hsep⟩ := heq
  unfold RequestFields.httpdParsePostLine
  dsimp only
  cases hlength : (matchiString line (bytes "Content-Length: (%d+)")).took with
  | some used => simp only [Option.map_some, RequestFields.asked, hmethod, hpos, hcount, hsince, hetag, hsep]
  | none =>
      cases (matchiString line
          (bytes "Content-Type:%s*multipart/form-data;%s*boundary=%\"?([%-%w]+)%\"?")).took with
      | some used => simp only [Option.map_some, RequestFields.asked, hmethod, hpos, hcount, hsince, hetag]
      | none =>
          cases (matchiString line (bytes "Transfer-Encoding:%s*")).took with
          | none => simp only [Option.map_some, h]
          | some used =>
              dsimp only
              split
              · simp only [Option.map_some, RequestFields.asked, hmethod, hpos, hcount, hsince, hetag, hsep]
              · split
                · simp only [Option.map_some, h]
                · rfl

variable (server server' toTime line) in
/-- **A line asks for the same wherever it is read**: what it does to these fields depends on them alone. -/
theorem headersLine_asked (h : http.asked = other.asked) :
    (http.httpdParseHeadersLine server toTime line).map RequestFields.asked =
      (other.httpdParseHeadersLine server' toTime line).map RequestFields.asked := by
  have heq := h
  simp only [RequestFields.asked, AskedFor.mk.injEq] at heq
  obtain ⟨hmethod, hpos, hcount, hsince, hetag, hsep⟩ := heq
  unfold RequestFields.httpdParseHeadersLine
  dsimp only
  cases (matchiString line (bytes "Accept-Encoding: ")).took with
  | some used => simp only [Option.map_some, RequestFields.asked, hmethod, hpos, hcount, hsince, hetag, hsep]
  | none =>
  cases (matchiString line (bytes "Host:%s*([%w.]+)")).took with
  | some used => simp only [Option.map_some, asked_vhostRequest, h]
  | none =>
  cases (matchiString line (bytes "If-Modified-Since:%s*")).took with
  | some used => simp only [Option.map_some, RequestFields.asked, hmethod, hpos, hcount, hetag, hsep]
  | none =>
  cases (matchiString line (bytes "If-None-Match:%s*\"")).took with
  | some used => simp only [Option.map_some, RequestFields.asked, hmethod, hpos, hcount, hsince, hsep]
  | none =>
  cases (matchiString line (bytes "Connection:%s*")).took with
  | some used => simp only [Option.map_some, RequestFields.asked, hmethod, hpos, hcount, hsince, hetag, hsep]
  | none =>
  cases (matchiString line (bytes "Range:%s*")).took with
  | some used => simp only [Option.map_some, RequestFields.asked, hmethod, hpos, hcount, hsince, hetag, hsep]
  | none =>
      dsimp only
      rw [hmethod]
      split
      · exact postLine_asked h
      · simp only [Option.map_some, h]

/-- The names of the lines that are not passed on. -/
def keptBackNames : List Bytes := bytes "Content-Length:" :: notPassedOn

/-- The line is passed on. -/
def isPassedOn (line : Bytes) : Bool := !keptBackNames.any fun name => literalPrefix true name line

theorem keptBack_literal : ∀ name ∈ keptBackNames, name ≠ [] ∧ name.all literalByte = true := by decide

/-- **The lines that are not passed on ask for nothing**: they are about the connection and the length of the body. -/
theorem keptBack_asked (hback : isPassedOn line = false) (h : http.httpdParseHeadersLine server toTime line = some http') :
    http'.asked = http.asked := by
  obtain ⟨name, hin, hname⟩ : ∃ name ∈ keptBackNames, literalPrefix true name line = true := by
    simpa [isPassedOn] using hback
  -- they have none of these four names
  have hclash : ∀ name ∈ keptBackNames, ∀ i : Fin lineNames.length, i.val ∈ [2, 3, 5, 7] → clash name lineNames[i] = true := by
    decide
  have hother : ∀ {i : Nat} (hi : i < lineNames.length), i ∈ [2, 3, 5, 7] → literalPrefix true lineNames[i] line ≠ true := by
    intro i hi hmem hlit
    have hno := literalPrefix_clash (hclash name hin ⟨i, hi⟩ hmem) hname
    exact absurd (hno.symm.trans hlit) (by decide)
  cases headersLine_step h with
  | encoding => rfl
  | host => exact asked_vhostRequest _
  | since hlit => exact absurd hlit (hother (by decide) (by decide))
  | etag used htook => exact absurd (name_of_took (i := 3) (by decide) (etagFormat_eq ▸ htook)) (hother (by decide) (by decide))
  | connection => rfl
  | range hlit => exact absurd hlit (hother (by decide) (by decide))
  | length => rfl
  | boundary hlit => exact absurd hlit (hother (by decide) (by decide))
  | chunked => rfl
  | identity => rfl
  | other => rfl

variable (server toTime http) in
/-- Only a `Transfer-Encoding` line is refused. -/
theorem headersLine_some (hcoding : literalPrefix true lineNames[8] line = false) :
    ∃ http', http.httpdParseHeadersLine server toTime line = some http' := by
  have hnone : (matchiString line (bytes "Transfer-Encoding:%s*")).took = none := by
    obtain ⟨hne, hlit⟩ := lineNames_literal lineNames[8] (by decide)
    rw [codingFormat_eq]
    exact matchiString_none hne hlit hcoding
  unfold RequestFields.httpdParseHeadersLine RequestFields.httpdParsePostLine
  dsimp only
  rw [hnone]
  split
  · exact ⟨_, rfl⟩
  split
  · exact ⟨_, rfl⟩
  split
  · exact ⟨_, rfl⟩
  split
  · exact ⟨_, rfl⟩
  split
  · exact ⟨_, rfl⟩
  split
  · exact ⟨_, rfl⟩
  split
  · split
    · exact ⟨_, rfl⟩
    · exact ⟨_, rfl⟩
    · rename_i hcontra
      exact absurd hcontra (by simp)
    · exact ⟨_, rfl⟩
  · exact ⟨_, rfl⟩

variable (server toTime) in
/-- The lines that a server adds on its own ask for nothing. -/
theorem parseLines_added {lines : List Bytes}
    (h : ∀ line ∈ lines, isPassedOn line = false ∧ literalPrefix true lineNames[8] line = false) (http : RequestFields) :
    ∃ read, http.parseLines server toTime lines = some read ∧ read.asked = http.asked := by
  induction lines generalizing http with
  | nil => exact ⟨http, rfl, rfl⟩
  | cons line lines ih =>
      obtain ⟨hback, hcoding⟩ := h line List.mem_cons_self
      obtain ⟨next, hnext⟩ := headersLine_some server toTime http hcoding
      obtain ⟨read, hread, hasked⟩ := ih (fun l hl => h l (List.mem_cons_of_mem _ hl)) next
      refine ⟨read, ?_, hasked.trans (keptBack_asked hback hnext)⟩
      rw [parseLines_cons, hnext, Option.bind_some, hread]

variable (server') in
/-- **The lines that are passed on ask for all that was asked for**, by induction on the lines: one that is passed on does the
    same on both sides, and one that is not does nothing. -/
theorem parseLines_passed {lines : List Bytes} {read : RequestFields} (h : http.parseLines server toTime lines = some read)
    (heq : other.asked = http.asked) :
    ∃ read', other.parseLines server' toTime (lines.filter isPassedOn) = some read' ∧ read'.asked = read.asked := by
  induction lines generalizing http other with
  | nil =>
      obtain rfl := Option.some.inj h
      exact ⟨other, rfl, heq⟩
  | cons line lines ih =>
      rw [parseLines_cons] at h
      obtain ⟨next, hnext, hrest⟩ := Option.bind_eq_some_iff.mp h
      by_cases hpassed : isPassedOn line = true
      · rw [List.filter_cons_of_pos hpassed, parseLines_cons]
        have hsame := headersLine_asked server' server toTime line heq
        rw [hnext, Option.map_some] at hsame
        obtain ⟨next', hnext', heq'⟩ := Option.map_eq_some_iff.mp hsame
        rw [hnext', Option.bind_some]
        exact ih hrest heq'
      · rw [Bool.not_eq_true] at hpassed
        rw [List.filter_cons_of_neg (by simp [hpassed])]
        exact ih hrest (heq.trans (keptBack_asked hpassed hnext).symm)

/-! ## Virtual hosts that take a `POST` -/

/-- No virtual host refuses a `POST`. -/
def Server.takesPost (server : Server) : Prop := ∀ vhost, hasFlag (server.vhosts vhost).disable HIN_HTTP_POST = false

theorem vhostRequest_disable (hopen : server.takesPost) (h : hasFlag http.disable HIN_HTTP_POST = false) (name : Bytes) :
    hasFlag (http.httpdVhostRequest server name).disable HIN_HTTP_POST = false := by
  unfold RequestFields.httpdVhostRequest
  split
  · exact h
  · split
    · exact hopen _
    · exact h

theorem parseLines_disable {lines : List Bytes} {read : RequestFields} (hopen : server.takesPost)
    (hdisable : hasFlag http.disable HIN_HTTP_POST = false) (h : http.parseLines server toTime lines = some read) :
    hasFlag read.disable HIN_HTTP_POST = false := by
  induction lines generalizing http with
  | nil =>
      obtain rfl := Option.some.inj h
      exact hdisable
  | cons line lines ih =>
      rw [parseLines_cons] at h
      obtain ⟨next, hnext, hrest⟩ := Option.bind_eq_some_iff.mp h
      refine ih ?_ hrest
      cases headersLine_step hnext with
      | host => exact vhostRequest_disable hopen hdisable _
      | encoding => exact hdisable
      | since => exact hdisable
      | etag => exact hdisable
      | connection => exact hdisable
      | range => exact hdisable
      | length => exact hdisable
      | boundary => exact hdisable
      | chunked => exact hdisable
      | identity => exact hdisable
      | other => exact hdisable

end

/-! ## The lines that are passed on -/

/-- What `hin_rproxy_send` tests a line for. -/
theorem name_took {name : Bytes} (hin : name ∈ keptBackNames) (line : Bytes) :
    (matchiString line name).took = if literalPrefix true name line then some name.length else none := by
  obtain ⟨hne, hlit⟩ := keptBack_literal name hin
  exact matchiString_name hne hlit line

/-- **The loop copies the lines that are passed on**, in their order, by induction on the lines. -/
theorem rproxyLines_copied {memory : Bytes} {fuel fuel' : Nat} (hfuel : fuel ≤ fuel') {s rest : Source}
    {texts : List (Bytes × Bytes)} (h : headTexts memory fuel s = some (texts, rest)) (copied : List Bytes) (sz : Int) :
    ∃ sz', rproxyLines memory fuel' s copied sz = (copied ++ (texts.map Prod.fst).filter isPassedOn, sz', some rest) := by
  induction fuel generalizing fuel' s texts copied sz with
  | zero => exact absurd h (by simp [headTexts])
  | succ fuel ih =>
      obtain ⟨fuel', rfl⟩ : ∃ k, fuel' = k + 1 := ⟨fuel' - 1, by omega⟩
      obtain ⟨⟨line, next⟩, hfind, h⟩ := Option.bind_eq_some_iff.mp h
      simp only [rproxyLines, hfind]
      by_cases hblank : line = []
      · rw [if_pos hblank] at h
        obtain ⟨rfl, rfl⟩ := Prod.mk.inj (Option.some.inj h)
        rw [if_pos hblank]
        exact ⟨sz, by simp⟩
      · rw [if_neg hblank] at h
        obtain ⟨⟨more, rest'⟩, hmore, heq⟩ := Option.map_eq_some_iff.mp h
        obtain ⟨rfl, rfl⟩ := Prod.mk.inj heq
        rw [if_neg hblank, List.map_cons]
        by_cases hpassed : isPassedOn line = true
        · have hno : ∀ name ∈ keptBackNames, (matchiString line name).took = none := by
            intro name hin
            have hname : literalPrefix true name line = false := by
              simp only [isPassedOn, Bool.not_eq_true', List.any_eq_false, Bool.not_eq_true] at hpassed
              exact hpassed name hin
            rw [name_took hin, hname]
            rfl
          have hany : (notPassedOn.any fun name => (matchiString line name).took.isSome) = false := by
            simp only [List.any_eq_false]
            intro name hin
            rw [hno name (List.mem_cons_of_mem _ hin)]
            exact Bool.false_ne_true
          rw [hno (bytes "Host:") (by decide), hno (bytes "Content-Length:") (by decide), hany]
          dsimp only
          rw [Option.isSome_none, if_neg Bool.false_ne_true, if_neg Bool.false_ne_true, List.filter_cons_of_pos hpassed]
          obtain ⟨sz', hsz'⟩ := ih (show fuel ≤ fuel' by omega) hmore (copied ++ [line]) sz
          exact ⟨sz', by rw [hsz', List.append_assoc, List.singleton_append]⟩
        · rw [List.filter_cons_of_neg hpassed]
          split
          · exact ih (by omega) hmore _ _
          · rename_i hhost
            split
            · exact ih (by omega) hmore _ _
            · rename_i hlength
              split
              · exact ih (by omega) hmore _ _
              · -- one of the names is there
                rename_i hany
                refine absurd ?_ hpassed
                simp only [isPassedOn, Bool.not_eq_true', List.any_eq_false, Bool.not_eq_true]
                intro name hin
                by_contra hname
                rw [Bool.not_eq_false] at hname
                have htook := name_took hin line
                rw [if_pos hname] at htook
                rcases List.mem_cons.mp hin with rfl | hin
                · exact absurd (htook.symm.trans hlength) (by simp)
                · exact hany (List.any_eq_true.mpr ⟨name, hin, by rw [htook]; rfl⟩)

/-- What `hin_rproxy_send` passes on of a head. -/
theorem hinRproxySend_copied {headers behind : Bytes} {fuel : Nat} (hfuel : fuel ≤ headers.length + 2)
    {first : Bytes × Bytes} {texts : List (Bytes × Bytes)} {rest : Source}
    (h : headTexts behind fuel { data := headers } = some (first :: texts, rest)) :
    (hinRproxySend headers behind).copied = (texts.map Prod.fst).filter isPassedOn ∧
      ∀ body ∈ (hinRproxySend headers behind).body, 0 < body.1 := by
  cases fuel with
  | zero => exact absurd h (by simp [headTexts])
  | succ fuel =>
      obtain ⟨⟨line, next⟩, hfind, h⟩ := Option.bind_eq_some_iff.mp h
      by_cases hblank : line = []
      · rw [if_pos hblank] at h
        exact absurd h (by simp)
      · rw [if_neg hblank] at h
        obtain ⟨⟨more, rest'⟩, hmore, heq⟩ := Option.map_eq_some_iff.mp h
        obtain ⟨hcons, rfl⟩ := Prod.mk.inj heq
        obtain ⟨-, rfl⟩ := List.cons.inj hcons
        obtain ⟨sz, hloop⟩ := rproxyLines_copied (show fuel ≤ headers.length + 1 by omega) hmore [] 0
        unfold hinRproxySend
        rw [hfind]
        simp only [Option.map_some, Option.getD_some, hloop]
        refine ⟨rfl, fun body hbody => ?_⟩
        split at hbody
        · rename_i hpos
          obtain rfl := Option.some.inj hbody
          exact hpos
        · exact absurd hbody (by simp)

/-! ## The lines that are printed -/

theorem not_lf_dropCR {bs : Bytes} (h : LF ∉ bs) : LF ∉ dropCR bs := by
  unfold dropCR
  split
  · exact fun hin => h (List.mem_of_mem_dropLast hin)
  · exact h

/-- A line that is found has no line break in it. -/
theorem hinFindLine_proper {behind : UInt8} {s next : Source} {line : Bytes} (h : hinFindLine behind s = some (line, next)) :
    LF ∉ line := by
  unfold hinFindLine at h
  split at h
  · exact absurd h (by simp)
  · split at h
    · rename_i i hi
      obtain ⟨hlt, -, hbefore⟩ := List.findIdx?_eq_some_iff_getElem.mp hi
      obtain ⟨rfl, -⟩ := Prod.mk.inj (Option.some.inj h)
      refine not_lf_dropCR fun hin => ?_
      obtain ⟨j, hj, hlf⟩ := List.getElem_of_mem hin
      rw [List.length_take] at hj
      rw [List.getElem_take] at hlf
      have hno := hbefore j (by omega)
      rw [hlf] at hno
      exact absurd hno (by decide)
    · rename_i hnone
      have hno : LF ∉ s.data := fun hin => absurd (List.findIdx?_eq_none_iff.mp hnone LF hin) (by decide)
      split at h
      · obtain ⟨rfl, -⟩ := Prod.mk.inj (Option.some.inj h)
        exact not_lf_dropCR hno
      · exact absurd h (by simp)

theorem headTexts_proper {memory : Bytes} {fuel : Nat} {s rest : Source} {texts : List (Bytes × Bytes)}
    (h : headTexts memory fuel s = some (texts, rest)) : ∀ text ∈ texts, text.1 ≠ [] ∧ LF ∉ text.1 := by
  induction fuel generalizing s texts with
  | zero => exact absurd h (by simp [headTexts])
  | succ fuel ih =>
      obtain ⟨⟨line, next⟩, hfind, h⟩ := Option.bind_eq_some_iff.mp h
      by_cases hblank : line = []
      · rw [if_pos hblank] at h
        obtain ⟨rfl, rfl⟩ := Prod.mk.inj (Option.some.inj h)
        simp
      · rw [if_neg hblank] at h
        obtain ⟨⟨more, rest'⟩, hmore, heq⟩ := Option.map_eq_some_iff.mp h
        obtain ⟨rfl, rfl⟩ := Prod.mk.inj heq
        intro text hin
        rcases List.mem_cons.mp hin with rfl | hin
        · exact ⟨hblank, hinFindLine_proper hfind⟩
        · exact ih hmore text hin

theorem cstr_eq {s : Bytes} (h : 0 ∉ s) : cstr s = s := by
  refine List.takeWhile_eq_self_iff.mpr fun c hc => ?_
  simp only [bne_iff_ne, ne_eq]
  exact fun h0 => h (h0 ▸ hc)

/-- The method that is sent for a method that has been read. -/
def methodOf (method : UInt32) : Option Method :=
  if method = HIN_METHOD_POST then some .post else if method = HIN_METHOD_HEAD then some .head else some .get

/-- The methods there are. -/
theorem methodNumber_known {name : Bytes} {method : UInt32} (h : methodNumber name = some method) :
    method = HIN_METHOD_GET ∨ method = HIN_METHOD_POST ∨ method = HIN_METHOD_HEAD := by
  unfold methodNumber at h
  split at h
  · exact .inl (Option.some.inj h).symm
  · split at h
    · exact .inr (.inl (Option.some.inj h).symm)
    · split at h
      · exact .inr (.inr (Option.some.inj h).symm)
      · exact absurd h (by simp)

theorem sentMethod_read {method : UInt32}
    (h : method = HIN_METHOD_GET ∨ method = HIN_METHOD_POST ∨ method = HIN_METHOD_HEAD) :
    sentMethod (methodOf method) ≠ [] ∧ (∀ c ∈ sentMethod (methodOf method), isalpha c = true) ∧
      methodNumber (sentMethod (methodOf method)) = some method := by
  rcases h with rfl | rfl | rfl
  · exact ⟨by decide, by decide +kernel, by decide +kernel⟩
  · exact ⟨by decide, by decide +kernel, by decide +kernel⟩
  · exact ⟨by decide, by decide +kernel, by decide +kernel⟩

theorem not_lf_of {p : UInt8 → Bool} (hp : p LF = false) {bs : Bytes} (h : ∀ c ∈ bs, p c = true) : LF ∉ bs := by
  intro hin
  exact absurd ((h LF hin).symm.trans hp) (by decide)

theorem lengthLine_spec {n : Nat} (hlt : n < 2 ^ 31) :
    LF ∉ lengthLine n ∧ readsPostLength (lengthLine n) = true ∧ postLength (lengthLine n) = n := by
  obtain ⟨hne, hdigits, hval⟩ := decDigits_spec n
  have htext : decText n = decDigits n := if_neg (by omega)
  have hpre : literalPrefix true (contentLength ++ [58, 32]) (lengthLine n) = true :=
    literalPrefix_of_append ⟨decDigits n, by rw [lengthLine, htext]; rfl⟩
  have hdrop : (lengthLine n).drop 16 = decDigits n := by
    rw [lengthLine, htext]
    exact List.drop_left' (by decide)
  have hrun : (decDigits n).takeWhile isdigit = decDigits n := List.takeWhile_eq_self_iff.mpr hdigits
  have hmatch := lengthFormat_match (lengthLine n)
  rw [hdrop, hrun, if_pos ⟨hpre, hne⟩] at hmatch
  refine ⟨?_, ?_, ?_⟩
  · rw [lengthLine, htext, List.mem_append]
    rintro (hin | hin)
    · exact absurd hin (by decide)
    · exact absurd (hdigits LF hin) (by decide)
  · rw [readsPostLength, matchiString, hmatch]
    rw [show 16 + (decDigits n).length = (15 + (decDigits n).length) + 1 by omega]
    rfl
  · have hcapture : (matchiString (lengthLine n) (bytes "Content-Length: (%d+)")).capture (lengthLine n) 0 =
        decDigits n := by
      rw [matchiString, hmatch]
      show ((lengthLine n).drop 16).take (decDigits n).length = _
      rw [hdrop, List.take_length]
    rw [postLength, hcapture, atoi_digits hne hdigits (by rw [hval]; omega), hval]

theorem addedNames : ∀ k : Fin lineNames.length, k.val = 1 ∨ k.val = 4 ∨ k.val = 6 →
    lineNames[k] ∈ keptBackNames ∧ clash lineNames[k] lineNames[8] = true := by decide

theorem lineNames_lf : ∀ k : Fin lineNames.length, LF ∉ lineNames[k] := by decide

/-- A line a server adds on its own. -/
theorem added_line {i : Nat} (hi : i < lineNames.length) (hadded : i = 1 ∨ i = 4 ∨ i = 6) {line : Bytes}
    (hname : literalPrefix true lineNames[i] line = true) :
    isPassedOn line = false ∧ literalPrefix true lineNames[8] line = false ∧ asksChunked line = false := by
  obtain ⟨hin, hclash⟩ := addedNames ⟨i, hi⟩ hadded
  refine ⟨?_, literalPrefix_clash hclash hname, asksChunked_other hi (by omega) hname⟩
  simp only [isPassedOn, Bool.not_eq_false', List.any_eq_true]
  exact ⟨_, hin, hname⟩

/-- A line that is passed on says nothing of the length of the body. -/
theorem passedOn_line {line : Bytes} (h : isPassedOn line = true) : readsPostLength line = false ∧ asksChunked line = false := by
  have hno : ∀ name ∈ keptBackNames, literalPrefix true name line = false := by
    simpa only [isPassedOn, Bool.not_eq_true', List.any_eq_false, Bool.not_eq_true] using h
  have hnone : ∀ {i : Nat} (hi : i < lineNames.length) (fmt : Bytes), lineNames[i] ∈ keptBackNames →
      (matchiString line (lineNames[i] ++ fmt)).took = none := by
    intro i hi fmt hin
    obtain ⟨hne, hlit⟩ := keptBack_literal _ hin
    exact matchiString_none hne hlit (hno _ hin)
  refine ⟨?_, ?_⟩
  · rw [readsPostLength, lengthFormat_eq, hnone (by decide) _ (by decide)]
    rfl
  · rw [asksChunked, codingFormat_eq, hnone (by decide) _ (by decide)]
    rfl

/-! ## The whole head -/

/-- The fields of a connection on which no line of the next request has been read. -/
structure RequestFields.Fresh (server : Server) (http : RequestFields) : Prop where
  flags : http.peerFlags = 0
  length : http.postSz = 0
  pos : http.pos = 0
  since : http.modifiedSince = 0
  etag : http.etag = 0
  sep : http.postSep = none
  disable : http.disable = (server.vhosts server.parent).disable

theorem fresh_accept (server : Server) : (RequestFields.httpdClientAccept server).Fresh server :=
  ⟨rfl, rfl, rfl, rfl, rfl, rfl, rfl⟩

theorem fresh_startRequest (server : Server) (http : RequestFields) :
    (http.httpdClientClean.httpdClientStartRequest server).Fresh server :=
  ⟨rfl, rfl, rfl, rfl, rfl, rfl, rfl⟩

/-- The head that is sent for an accepted one. -/
def RequestFields.forward (http : RequestFields) (data memory : Bytes) (used : Nat) (uri : Uri) (keepalive : Bool) : SentHead :=
  httpClientStartHeaders (methodOf http.method) uri keepalive
    (hinRproxySend (headersView http data memory used).1 (headersView http data memory used).2)

/-- **A request is read as it was forwarded**: its lines are those that were printed, with what goes with the head behind them; it
    is for the address it was forwarded to; it asks for the same; and its body is as long. -/
structure ReadAs (server : Server) (toTime : Bytes → Int) (behind : UInt8) (fresh http : RequestFields) (uri : Uri)
    (sent : SentHead) (read : RequestFields) (used : Nat) : Prop where
  accepted : httpdParseHeaders server toTime behind fresh sent.wire = .accepted read used
  lines : requestLines behind sent.wire = some (sent.first :: sent.more, { data := sent.data })
  data : sent.wire.drop used = sent.data
  target : (hinHttpParseHeaderLine sent.first).map RequestLine.path = some uri.path
  asked : read.asked = http.asked
  length : read.bodyLength = http.bodyLength

section

variable {server server' : Server} {toTime : Bytes → Int} {http fresh read : RequestFields} {sent : SentHead}

/-- The lines about the connection are in order. -/
theorem own_spec (hhost : ∀ c ∈ sent.host, ParseUri.hostByte c = true) (hport : ∀ c ∈ sent.port, isdigit c = true) :
    ∀ line ∈ sent.own, (line ≠ [] ∧ LF ∉ line) ∧ readsPostLength line = false ∧
      isPassedOn line = false ∧ literalPrefix true lineNames[8] line = false ∧ asksChunked line = false := by
  have hname : ∀ {i : Nat} (hi : i < lineNames.length), i = 1 ∨ i = 4 → ∀ tail : Bytes, LF ∉ tail →
      let line := lineNames[i] ++ (32 :: tail)
      (line ≠ [] ∧ LF ∉ line) ∧ readsPostLength line = false ∧
        isPassedOn line = false ∧ literalPrefix true lineNames[8] line = false ∧ asksChunked line = false := by
    intro i hi hown tail htail
    have hlit : literalPrefix true lineNames[i] (lineNames[i] ++ (32 :: tail)) = true :=
      literalPrefix_of_append (List.prefix_append _ _)
    refine ⟨⟨by simp, ?_⟩, readsPostLength_other hi (by omega) hlit, added_line hi (by omega) hlit⟩
    rw [List.mem_append, List.mem_cons]
    rintro (hin | hblank | hin)
    · exact lineNames_lf ⟨i, hi⟩ hin
    · exact absurd hblank (by decide)
    · exact htail hin
  have hhostLf : LF ∉ sent.host := not_lf_of (by decide) hhost
  have hportLf : LF ∉ if sent.port = [] then [] else 58 :: sent.port := by
    split
    · exact List.not_mem_nil
    · rw [List.mem_cons]
      rintro (hcolon | hin)
      · exact absurd hcolon (by decide)
      · exact absurd (hport LF hin) (by decide)
  intro line hin
  rcases List.mem_cons.mp hin with rfl | hin
  · refine hname (i := 1) (by decide) (.inl rfl) (sent.host ++ if sent.port = [] then [] else 58 :: sent.port) ?_
    rw [List.mem_append]
    exact fun hor => hor.elim hhostLf hportLf
  · obtain rfl := List.mem_singleton.mp hin
    refine hname (i := 4) (by decide) (.inr rfl) (if sent.keepalive then bytes "keep-alive" else bytes "close") ?_
    split
    · decide
    · decide

/-- A head whose lines are read as they are printed. -/
structure SentHead.Printable (sent : SentHead) : Prop where
  host : ∀ c ∈ sent.host, ParseUri.hostByte c = true
  port : ∀ c ∈ sent.port, isdigit c = true
  copied : ∀ line ∈ sent.passedOn.copied, (line ≠ [] ∧ LF ∉ line) ∧ 0 ∉ line ∧ isPassedOn line = true
  body : ∀ body ∈ sent.passedOn.body, 0 < body.1 ∧ body.1 < 2 ^ 31

theorem SentHead.Printable.cstr_copied (h : sent.Printable) : sent.passedOn.copied.map cstr = sent.passedOn.copied :=
  (List.map_congr_left fun line hin => cstr_eq (h.copied line hin).2.1).trans (List.map_id _)

/-- The line with the length, where there is one. -/
theorem SentHead.Printable.length (h : sent.Printable) {body : Int × Bytes} (hbody : body ∈ sent.passedOn.body) :
    (lengthLine body.1 ≠ [] ∧ LF ∉ lengthLine body.1) ∧ postLength (lengthLine body.1) = body.1 ∧
      readsPostLength (lengthLine body.1) = true ∧ isPassedOn (lengthLine body.1) = false ∧
      literalPrefix true lineNames[8] (lengthLine body.1) = false ∧ asksChunked (lengthLine body.1) = false := by
  obtain ⟨hpos, hlt⟩ := h.body body hbody
  obtain ⟨n, hn⟩ := Int.eq_ofNat_of_zero_le hpos.le
  obtain ⟨hlf, hread, hlength⟩ := lengthLine_spec (n := n) (by omega)
  have hname : literalPrefix true lineNames[6] (lengthLine body.1) = true :=
    literalPrefix_of_append ⟨32 :: decText body.1, rfl⟩
  rw [← hn] at hlf hread hlength
  exact ⟨⟨by simp [lengthLine, bytes], hlf⟩, hlength, hread, added_line (by decide) (by omega) hname⟩

/-- **What the lines behind the request line say of the body.** -/
theorem more_spec (h : sent.Printable) :
    (∀ line ∈ sent.more, line ≠ [] ∧ LF ∉ line) ∧ sent.more.any asksChunked = false ∧
      sent.more.any readsPostLength = sent.passedOn.body.isSome ∧
      (lastRead sent.more).map postLength = sent.passedOn.body.map Prod.fst := by
  have hown := own_spec h.host h.port
  have hcopied : ∀ line ∈ sent.passedOn.copied, readsPostLength line = false ∧ asksChunked line = false :=
    fun line hin => passedOn_line (h.copied line hin).2.2
  have hlast : ∀ line ∈ (sent.passedOn.body.map fun body => lengthLine body.1).toList,
      ∃ body ∈ sent.passedOn.body, line = lengthLine body.1 := by
    intro line hin
    obtain ⟨body, hbody, rfl⟩ := Option.map_eq_some_iff.mp (Option.mem_toList.mp hin)
    exact ⟨body, hbody, rfl⟩
  have hnone : (sent.own ++ sent.passedOn.copied).filter readsPostLength = [] := by
    refine List.filter_eq_nil_iff.mpr fun line hin => ?_
    rcases List.mem_append.mp hin with hin | hin
    · simp [(hown line hin).2.1]
    · simp [(hcopied line hin).1]
  have hall : (sent.passedOn.body.map fun body => lengthLine body.1).toList.filter readsPostLength =
      (sent.passedOn.body.map fun body => lengthLine body.1).toList := by
    refine List.filter_eq_self.mpr fun line hin => ?_
    obtain ⟨body, hbody, rfl⟩ := hlast line hin
    exact (h.length hbody).2.2.1
  have hread : sent.more.filter readsPostLength = (sent.passedOn.body.map fun body => lengthLine body.1).toList := by
    rw [SentHead.more, h.cstr_copied, ← List.append_assoc, List.filter_append, hnone, hall, List.nil_append]
  refine ⟨?_, ?_, ?_, ?_⟩
  · intro line hin
    rw [SentHead.more, h.cstr_copied] at hin
    rcases List.mem_append.mp hin with hin | hin
    · exact (hown line hin).1
    · rcases List.mem_append.mp hin with hin | hin
      · exact (h.copied line hin).1
      · obtain ⟨body, hbody, rfl⟩ := hlast line hin
        exact (h.length hbody).1
  · refine List.any_eq_false.mpr fun line hin => ?_
    rw [SentHead.more, h.cstr_copied] at hin
    rcases List.mem_append.mp hin with hin | hin
    · simp [(hown line hin).2.2.2.2]
    · rcases List.mem_append.mp hin with hin | hin
      · simp [(hcopied line hin).2]
      · obtain ⟨body, hbody, rfl⟩ := hlast line hin
        simp [(h.length hbody).2.2.2.2.2]
  · have hmem : ∀ line, line ∈ sent.more ∧ readsPostLength line = true ↔
        line ∈ (sent.passedOn.body.map fun body => lengthLine body.1).toList := by
      intro line
      rw [← hread, List.mem_filter]
    cases hbody : sent.passedOn.body with
    | none =>
        rw [hbody] at hmem
        exact List.any_eq_false.mpr fun line hin hline => absurd ((hmem line).mp ⟨hin, hline⟩) (by simp)
    | some body =>
        rw [hbody] at hmem
        obtain ⟨hin, hline⟩ := (hmem (lengthLine body.1)).mpr (by simp)
        exact List.any_eq_true.mpr ⟨_, hin, hline⟩
  · rw [lastRead, hread]
    cases hbody : sent.passedOn.body with
    | none => rfl
    | some body => exact congrArg some (h.length (by rw [hbody]; exact rfl)).2.1

variable (server') in
/-- **The lines are parsed**, and ask for what the lines they were made from ask for. -/
theorem more_parsed {lines : List Bytes} (h : sent.Printable) (hread : http.parseLines server toTime lines = some read)
    (hcopied : sent.passedOn.copied = lines.filter isPassedOn) (heq : fresh.asked = http.asked) :
    ∃ read', fresh.parseLines server' toTime sent.more = some read' ∧ read'.asked = read.asked := by
  obtain ⟨own, hown, hownAsked⟩ := parseLines_added server' toTime
    (fun line hin => ⟨(own_spec h.host h.port line hin).2.2.1, (own_spec h.host h.port line hin).2.2.2.1⟩) fresh
  obtain ⟨passed, hpassed, hpassedAsked⟩ := parseLines_passed server' hread (hownAsked.trans heq)
  have hlength : ∀ line ∈ (sent.passedOn.body.map fun body => lengthLine body.1).toList,
      isPassedOn line = false ∧ literalPrefix true lineNames[8] line = false := by
    intro line hin
    obtain ⟨body, hbody, rfl⟩ := Option.map_eq_some_iff.mp (Option.mem_toList.mp hin)
    exact ⟨(h.length hbody).2.2.2.1, (h.length hbody).2.2.2.2.1⟩
  obtain ⟨last, hlast, hlastAsked⟩ := parseLines_added server' toTime hlength passed
  refine ⟨last, ?_, hlastAsked.trans hpassedAsked⟩
  rw [SentHead.more, h.cstr_copied, hcopied, parseLines_append, hown, Option.bind_some, parseLines_append, hpassed,
    Option.bind_some, hlast]

end

/-! ## One request, two servers -/

section

variable {server server' : Server} {toTime : Bytes → Int} {http http' fresh : RequestFields} {data memory : Bytes} {used : Nat}

/-- The checks at the end, passed. -/
theorem checkPost_none (read : RequestFields) : read.checkPost = none ↔
    hasFlag (read.peerFlags &&& read.disable) HIN_HTTP_POST = false ∧
      (read.method = HIN_METHOD_POST → hasFlag read.peerFlags HIN_HTTP_POST = true) ∧ read.postSz < hinHttpdMaxPostSize := by
  have hlimit : hinHttpdMaxPostSize ≠ 0 := by decide
  unfold RequestFields.checkPost
  by_cases hdisable : hasFlag (read.peerFlags &&& read.disable) HIN_HTTP_POST = true
  · rw [if_pos hdisable]
    simp [hdisable]
  · rw [if_neg hdisable]
    rw [Bool.not_eq_true] at hdisable
    by_cases hpost : read.method = HIN_METHOD_POST ∧ hasFlag read.peerFlags HIN_HTTP_POST = false
    · rw [if_pos hpost]
      simp [hpost.1, hpost.2]
    · rw [if_neg hpost]
      have hpost' : read.method = HIN_METHOD_POST → hasFlag read.peerFlags HIN_HTTP_POST = true := by
        intro hmethod
        by_contra hflag
        exact hpost ⟨hmethod, Bool.eq_false_iff.mpr hflag⟩
      by_cases hsz : hinHttpdMaxPostSize ≤ read.postSz
      · rw [if_pos ⟨hlimit, hsz⟩]
        simp [hsz]
      · rw [if_neg fun hboth => hsz hboth.2]
        exact ⟨fun _ => ⟨hdisable, hpost', not_le.mp hsz⟩, fun _ => rfl⟩

/-- What an accepted head says of its lines, in the form in which they stand in memory. -/
theorem accepted_texts (h : httpdParseHeaders server toTime (memory.headD 0) http data = .accepted http' used)
    {first : Bytes × Bytes} {texts : List (Bytes × Bytes)} {rest : Source}
    (htexts : headTexts memory (data.length + 2) { data } = some (first :: texts, rest)) :
    ∃ method path ver0 read, hinHttpParseHeaderLine first.1 = some ⟨some method, path, some ver0⟩ ∧
      (http.httpdParseRequestLine method ver0).parseLines server toTime (texts.map Prod.fst) = some read ∧
      http' = read.settlePost ∧ http'.checkPost = none ∧ used = (data.length - rest.len).toNat := by
  have hlines : requestLines (memory.headD 0) data = some (first.1 :: texts.map Prod.fst, rest) := by
    rw [requestLines, headTexts_lines, htexts]
    rfl
  obtain ⟨line, lines, rest', method, read, hacc⟩ := httpdParseHeaders_accepted h
  obtain ⟨heq, rfl⟩ := Prod.mk.inj (Option.some.inj (hacc.found.symm.trans hlines))
  obtain ⟨rfl, rfl⟩ := List.cons.inj heq
  obtain ⟨path, ver0, hrequest, hread⟩ := hacc.request
  exact ⟨method, path, ver0, read, hrequest, hread, hacc.settled, hacc.checked, hacc.used⟩

/-- What is forwarded of an accepted head can be read as it is printed. -/
theorem forward_printable (h : httpdParseHeaders server toTime (memory.headD 0) http data = .accepted http' used)
    {first : Bytes × Bytes} {texts : List (Bytes × Bytes)} {rest : Source}
    (htexts : headTexts memory (data.length + 2) { data } = some (first :: texts, rest))
    (hnul : ∀ text ∈ texts, 0 ∉ text.1) {url : Bytes} {uri : Uri} (huri : hinParseUri url = some uri) (keepalive : Bool)
    (hagree : (http'.forward data memory used uri keepalive).passedOn.length = http'.bodyLength) :
    (http'.forward data memory used uri keepalive).Printable ∧
      (http'.forward data memory used uri keepalive).passedOn.copied = (texts.map Prod.fst).filter isPassedOn := by
  obtain ⟨method, path, ver0, read, -, -, hsettled, hchecked, hused⟩ := accepted_texts h htexts
  obtain ⟨-, -, hhost, hport⟩ := hinParseUri_printable huri
  have hsz : 0 ≤ http'.postSz := hsettled ▸ settlePost_nonneg read
  obtain ⟨rest', hview⟩ := headersView_lines hused hsz htexts
  obtain ⟨hcopied, hpos⟩ := hinRproxySend_copied (by omega) hview
  have hproper := headTexts_proper htexts
  refine ⟨⟨hhost, hport, fun line hin => ?_, fun body hbody => ⟨hpos body hbody, ?_⟩⟩, hcopied⟩
  · have hin' : line ∈ (texts.map Prod.fst).filter isPassedOn := hcopied ▸ hin
    obtain ⟨hmem, hpassed⟩ := List.mem_filter.mp hin'
    obtain ⟨text, htext, rfl⟩ := List.mem_map.mp hmem
    exact ⟨hproper text (List.mem_cons_of_mem _ htext), hnul text htext, hpassed⟩
  · have hlimit : hinHttpdMaxPostSize < 2 ^ 31 := by decide
    have hsmall := ((checkPost_none http').mp hchecked).2.2
    have hlength : (http'.forward data memory used uri keepalive).passedOn.length = body.1 := by
      rw [PassedOn.length, Option.mem_def.mp hbody]
      rfl
    rw [← hlength, hagree, RequestFields.bodyLength]
    split
    · decide
    · omega

/-- The length the other server settles for a `POST`. -/
theorem posted_more {sent : SentHead} {read : RequestFields} (hprint : sent.Printable) (hfresh : fresh.Fresh server')
    (h : (fresh.httpdParseRequestLine HIN_METHOD_POST false).parseLines server' toTime sent.more = some read) :
    read.method = HIN_METHOD_POST ∧ hasFlag read.peerFlags HIN_HTTP_POST = sent.passedOn.body.isSome ∧
      read.settlePost.postSz = sent.passedOn.length := by
  obtain ⟨-, hchunks, hposted, hlast⟩ := more_spec hprint
  obtain ⟨hmethod, hsz, hflag, hchunked⟩ := parseLines_posted rfl h
  have hor : (sent.more.any fun line => readsPostLength line || asksChunked line) = sent.passedOn.body.isSome := by
    rw [← hposted]
    have hplain := List.any_eq_false.mp hchunks
    refine Bool.eq_iff_iff.mpr ?_
    rw [List.any_eq_true, List.any_eq_true]
    refine exists_congr fun line => and_congr_right fun hin => ?_
    rw [Bool.or_eq_true]
    exact or_iff_left (hplain line hin)
  rw [requestLine_clears hfresh.flags (by decide) (by decide), Bool.false_or, hor] at hflag
  rw [requestLine_clears hfresh.flags (by decide) (by decide), Bool.false_or, hchunks] at hchunked
  refine ⟨hmethod, hflag, ?_⟩
  have hsettle : read.settlePost.postSz = max read.postSz 0 := by
    show (if (if hasFlag read.peerFlags HIN_HTTP_CHUNKED_UPLOAD then 0 else read.postSz) < (0 : Int) then (0 : Int)
      else if hasFlag read.peerFlags HIN_HTTP_CHUNKED_UPLOAD then 0 else read.postSz) = _
    rw [hchunked, if_neg Bool.false_ne_true]
    split <;> omega
  rw [hsettle, hsz, hlast, PassedOn.length]
  cases hbody : sent.passedOn.body with
  | none =>
      show max fresh.postSz 0 = 0
      rw [hfresh.length]
      rfl
  | some body => exact max_eq_left (hprint.body body hbody).1.le

theorem hasFlag_of_none {flags mask bit : UInt32} (h : hasFlag mask bit = false) : hasFlag (flags &&& mask) bit = false := by
  have hnone : mask &&& bit = 0 := by simpa [hasFlag] using h
  unfold hasFlag
  rw [UInt32.and_assoc, hnone, UInt32.and_zero]
  rfl

end

/-- A `POST` with a line that is passed on, and the address it goes to. -/
def forwardedPost : Bytes := bytes "POST /a HTTP/1.1\r\nHost: a.b\r\nContent-Length: 5\r\nRange: bytes=0-1\r\n\r\nhello"

def upstreamUri : Uri where
  https := false
  host := bytes "c.d"
  port := bytes "81"
  path := bytes "/x?y"
  all := bytes "http://c.d:81/x?y"

end Http
end Hin9
