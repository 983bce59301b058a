import Hin9.Fcgi.WriteCorrect
import Hin9.Http.CacheControl

/-!
# `Http.CgiEnv` — the environment of a CGI program (`httpd_cgi.c`)

`hin_cgi` forks, and the child writes the environment of the program one `NAME=value` string after the other into an array that
grows by 80. What the client sent and what the server knows end up in one list, and the program asks for a name.

`cgi_environment` says what it is told: the variables of the server are those of the server whatever the head of the request
holds, a header is under `HTTP_` and its name in capitals, the first of a name wins, and `CONTENT_TYPE` is the first header whose
name begins like one. The array itself is written one place behind its end by the 81st variable.

A program that is reached through fastcgi is told the same by `hin_fcgi_headers`, but for long names, for names with more than one
dash behind `content`, and for the name of the server (`cgi_fcgi_agree_iff`).
-/

namespace Hin9
namespace Http
namespace CgiEnv

open Pattern
open Fcgi (FcgiRequest cstr decimal hinHttpMethodName shortName hinFcgiHeaders hinFcgiHeaderLine paramHeader)

/-! ## The list of strings -/

/-- `env_list_t`; `fault` says that something was written outside of the array. -/
structure EnvList where
  pos : Nat := 0
  num : Nat := 0
  env : List Bytes := []
  fault : Bool := false
deriving Repr, DecidableEq

/-- `var`. Room is made when the strings do not fit, but the `NULL` goes behind them. -/
def var (e : EnvList) (new : Bytes) : EnvList :=
  let pos := e.pos + 1
  let num := if e.num < pos then pos + 80 else e.num
  { pos, num, env := e.env ++ [new], fault := e.fault || decide (num ≤ pos) }

/-- `upcase`, of one string: its name, up to the `=`. -/
def upcaseString (s : Bytes) : Bytes :=
  (s.takeWhile (· != 61)).map (fun c => if c = 45 then 95 else toupper c) ++ s.dropWhile (· != 61)

/-- `upcase`: the last string. -/
def upcase (e : EnvList) : EnvList := { e with env := e.env.dropLast ++ (e.env.getLast?.map upcaseString).toList }

/-- `NAME=value`. -/
def assign (name value : Bytes) : Bytes := name ++ 61 :: value

/-! ## The variables -/

/-- What `hin_cgi` is called with: `file` is the script, as it was found; `hostname` is not looked at. -/
structure CgiRequest extends FcgiRequest where
  pathInfo : Option Bytes := none
  vhostName : Option Bytes := none
deriving Repr, DecidableEq

/-- The variables in front of the headers. -/
def serverVars (r : CgiRequest) (query cwd dir name : Bytes) : List (Bytes × Bytes) :=
  [(bytes "CONTENT_LENGTH", decimal r.postSz),
   (bytes "QUERY_STRING", cstr query),
   (bytes "REQUEST_URI", cstr r.path),
   (bytes "REDIRECT_STATUS", decimal r.status),
   (bytes "SCRIPT_NAME", dir.drop (cwd.length - 1) ++ name)] ++
  (match r.pathInfo with
    | none => []
    | some info =>
        if info = [] then []
        else
          [(bytes "PATH_INFO", info),
           (bytes "PATH_TRANSLATED", cwd ++ if info.head? = some 47 then info.tail else info)]) ++
  [(bytes "SCRIPT_FILENAME", dir ++ name),
   (bytes "DOCUMENT_ROOT", cwd.take (cwd.length - 1)),
   (bytes "REQUEST_METHOD", hinHttpMethodName r.method),
   (bytes "SERVER_PROTOCOL", bytes "HTTP/1." ++ decimal (if r.ver0 then 0 else 1)),
   (bytes "SERVER_SOFTWARE", bytes "hinsightd 0.9"),
   (bytes "GATEWAY_INTERFACE", bytes "CGI/1.1"),
   (bytes "REQUEST_SCHEME", bytes "http")] ++
  (match r.server with
    | some (host, port) => [(bytes "SERVER_PORT", port), (bytes "SERVER_ADDR", host)]
    | none => []) ++
  (match r.client with
    | some (host, port) => [(bytes "REMOTE_ADDR", host), (bytes "REMOTE_PORT", port)]
    | none => []) ++
  (if r.ssl then [(bytes "HTTPS", bytes "1")] else [])

/-- One round of the loop over the head; the second part is `hostname`. -/
def headerLine (s : EnvList × Option Bytes) (line : Bytes) : EnvList × Option Bytes :=
  let m := matchString line (bytes "([%w_%-]+):%s*")
  match m.took with
  | none => s
  | some used =>
      let name := m.capture line 0
      let value := line.drop used
      let hostname := if bytes "Host:" <+: line then some value else s.2
      if (matchiString name (bytes "content%-type")).took.isSome then
        (upcase (var s.1 (assign (bytes "CONTENT_TYPE") (cstr value))), hostname)
      else (upcase (var s.1 (assign (bytes "HTTP_" ++ name) (cstr value))), hostname)

/-- The environment that `hin_cgi` makes; `none` where the target is no uri, or no directory or script was found. -/
def hinCgiEnv (r : CgiRequest) : Option EnvList :=
  match r.query, r.cwdPath, r.file with
  | some query, some cwd, some (dir, name) =>
      let e := (serverVars r query cwd dir name).foldl (fun e p => var e (assign p.1 p.2)) {}
      let s := r.headers.foldl headerLine (e, none)
      let server :=
        match s.2 with
        | some host => cstr host
        | none => r.vhostName.getD (bytes "unknown")
      some (var s.1 (assign (bytes "SERVER_NAME") server))
  | _, _, _ => none

/-- What the program finds under a name: the first string of that name. -/
def getenv (env : List Bytes) (name : Bytes) : Option Bytes :=
  env.findSome? fun s => if name ++ [61] <+: s then some (s.drop (name.length + 1)) else none

/-! ## A line of the head -/

/-- A byte of a header name. -/
def nameByte (c : UInt8) : Bool := isalnum c || c == 95 || c == 45

/-- The name and the value of a header line. -/
def headerField (line : Bytes) : Option (Bytes × Bytes) :=
  let name := line.takeWhile nameByte
  match line.dropWhile nameByte with
  | c :: rest => if name ≠ [] ∧ c = 58 then some (name, rest.dropWhile isspace) else none
  | [] => none

/-- A name that begins with `content`, one or more dashes, and `type`, in whatever case. -/
def contentType (name : Bytes) : Bool :=
  literalPrefix true (bytes "content") name && (name.drop 7).head? == some 45 &&
    literalPrefix true (bytes "type") ((name.drop 7).dropWhile (· == 45))

/-- The name of a header in the environment. -/
def canonical (name : Bytes) : Bytes := name.map fun c => if c = 45 then 95 else toupper c

/-- The variable of a header. -/
def headerVar (field : Bytes × Bytes) : Bytes × Bytes :=
  if contentType field.1 then (bytes "CONTENT_TYPE", cstr field.2) else (bytes "HTTP_" ++ canonical field.1, cstr field.2)

theorem matchPattern_name (data : Bytes) : matchPattern data (bytes "%w_%-") ⟨true, false⟩ =
    if data.takeWhile nameByte = [] then none else some (data.takeWhile nameByte).length := by
  have hes : ∀ e ∈ ([.letter 119, .char 95, .letter 45] : List Elem), e.wellFormed = true := by decide
  refine matchPattern_set hes (by decide) (by decide) (fun c => ?_) data
  simp [Elem.takes, letterHas, capitalLetter, nameByte, Bool.or_assoc]

/-- What a format leaves that takes a name, a colon and the blanks behind it, and captures the name. -/
def fieldResult (line : Bytes) : Result :=
  if line.takeWhile nameByte = [] then ⟨none, []⟩
  else match line.dropWhile nameByte with
    | [] => ⟨none, [(0, (line.takeWhile nameByte).length)]⟩
    | c :: rest =>
        if c = 58 then
          ⟨some ((line.takeWhile nameByte).length + 1 + (rest.takeWhile isspace).length),
            [(0, (line.takeWhile nameByte).length)]⟩
        else ⟨none, [(0, (line.takeWhile nameByte).length)]⟩

theorem formatLoop_field {set rest : Bytes}
    (hset : ∀ data, matchPattern data set ⟨true, false⟩ =
      if data.takeWhile nameByte = [] then none else some (data.takeWhile nameByte).length)
    (hscan : scanSet 91 rest = some (set, 43 :: bytes "):%s*")) (b : UInt8) (bs : Bytes) :
    formatLoop false 15 (40 :: 91 :: rest) (b :: bs) 0 none [] = fieldResult (b :: bs) := by
  have hplus : takeSpecifier (43 :: bytes "):%s*") = (⟨true, false⟩, 41 :: ([58] ++ [37, 115, 42])) := by decide
  have hstar : takeSpecifier [42] = (⟨true, true⟩, []) := by decide
  have hspace : getPattern [37, 115] 0 = [⟨PATTERN_SPACE, 0⟩] := by decide
  unfold fieldResult
  rw [formatLoop_open, formatLoop_set _ _ _ _ _ _ _ hscan, hplus]
  simp only [hset]
  by_cases hnone : (b :: bs).takeWhile nameByte = []
  · simp only [if_pos hnone]
  · simp only [if_neg hnone]
    rw [formatLoop_close, drop_takeWhile, Nat.zero_add]
    cases hrest : (b :: bs).dropWhile nameByte with
    | nil => rfl
    | cons c rest =>
        have hlit := @formatLoop_literal false 11 [58] (by decide) [37, 115, 42] (c :: rest)
          ((b :: bs).takeWhile nameByte).length none ([] ++ [(0, ((b :: bs).takeWhile nameByte).length - 0)])
        rw [show formatLoop false 12 ([58] ++ [37, 115, 42]) (c :: rest) _ _ _ = _ from hlit]
        dsimp only
        by_cases hcolon : c = 58
        · have hthere : literalPrefix false [58] (c :: rest) = true := by rw [hcolon]; rfl
          rw [if_pos hcolon, if_pos hthere, formatLoop_class, hstar]
          simp only [matchPattern_star hspace (fun c => matchChar_space c 0)]
          rw [formatLoop_end]
          rfl
        · have hother : ¬ literalPrefix false [58] (c :: rest) = true := fun h =>
            hcolon (beq_iff_eq.mp (Bool.and_eq_true_iff.mp h).1).symm
          rw [if_neg hcolon, if_neg hother]
          rfl

theorem matchString_field (line : Bytes) : matchString line (bytes "([%w_%-]+):%s*") = fieldResult line := by
  have hf : bytes "([%w_%-]+):%s*" = 40 :: 91 :: bytes "%w_%-]+):%s*" := by decide
  cases line with
  | nil => rfl
  | cons b bs =>
      rw [matchString, matchStringVirtual, if_neg (by simp), hf]
      exact formatLoop_field matchPattern_name (by decide) b bs

/-- A line of the head is cut into a field, or is left. -/
theorem field_took {line name value : Bytes} (h : headerField line = some (name, value)) :
    ∃ used, (fieldResult line).took = some used ∧ (fieldResult line).capture line 0 = name ∧ line.drop used = value := by
  unfold fieldResult
  unfold headerField at h
  dsimp only at h
  split at h
  · rename_i c rest hrest
    split at h
    · rename_i hc
      obtain ⟨rfl, rfl⟩ := Prod.mk.inj (Option.some.inj h)
      rw [if_neg hc.1, hrest]
      dsimp only
      rw [if_pos hc.2]
      refine ⟨(line.takeWhile nameByte).length + 1 + (rest.takeWhile isspace).length, ?_, ?_, ?_⟩
      · unfold Result.took
        dsimp only
        rw [Nat.add_right_comm]
      · show (line.drop 0).take (line.takeWhile nameByte).length = _
        exact (List.prefix_iff_eq_take.mp (List.takeWhile_prefix nameByte)).symm
      · rw [← List.drop_drop, ← List.drop_drop, drop_takeWhile, hrest]
        exact drop_takeWhile isspace rest
    · exact absurd h (by simp)
  · exact absurd h (by simp)

theorem field_left {line : Bytes} (h : headerField line = none) : (fieldResult line).took = none := by
  unfold fieldResult
  unfold headerField at h
  dsimp only at h
  by_cases hname : line.takeWhile nameByte = []
  · rw [if_pos hname]
    rfl
  · rw [if_neg hname]
    split at h
    · rename_i c rest hrest
      split at h
      · exact absurd h (by simp)
      · rename_i hc
        rw [hrest]
        dsimp only
        rw [if_neg fun h => hc ⟨hname, h⟩]
        rfl
    · rename_i hrest
      rw [hrest]
      rfl

/-! ## A name like `Content-Type` -/

theorem toupper_dash (c : UInt8) : (toupper 45 == toupper c) = (c == 45) := by
  have hall : ∀ c : UInt8, (toupper 45 == toupper c) = (c == 45) := forall_byte (by decide +kernel)
  exact hall c

/-- The class `%-` takes every dash there is. -/
theorem matchPattern_dash (data : Bytes) : matchPattern data [37, 45] runOne =
    if data.head? = some 45 then some (data.takeWhile (· == 45)).length else none := by
  have hes : ∀ e ∈ ([.letter 45] : List Elem), e.wellFormed = true := by decide
  have hreads : Reads (getPattern [37, 45] 0) [.letter 45] := getPattern_reads hes 0
  have hloop := matchLoop_run false hreads (data.length + 1) data (Nat.lt_succ_self _)
  have hdash : (fun c => ([.letter 45] : List Elem).any (·.takes c)) = fun c => c == 45 := by
    funext c
    simp [Elem.takes, letterHas, capitalLetter]
  rw [hdash] at hloop
  have hneg : (([37, 45] : Bytes).head? == some 94) = false := rfl
  unfold matchPattern
  simp only [hneg, Bool.false_eq_true, if_false]
  rw [show runOne.runAll = false from rfl, hloop]
  cases data with
  | nil => rfl
  | cons c cs =>
      by_cases hc : c = 45
      · rw [hc]
        rfl
      · have hhead : ¬ (c :: cs).head? = some 45 := fun h => hc (Option.some.inj h)
        rw [List.takeWhile_cons_of_neg (by simpa using hc), if_neg hhead]
        rfl

theorem contentType_took (name : Bytes) : (matchiString name (bytes "content%-type")).took.isSome = contentType name := by
  have hf : bytes "content%-type" = bytes "content" ++ 37 :: 45 :: bytes "type" := by decide
  have hone : takeSpecifier (bytes "type") = (runOne, bytes "type") := by decide
  unfold matchiString contentType
  rw [hf, matchStringVirtual_literal true (by decide) (by decide)]
  cases hpre : literalPrefix true (bytes "content") name with
  | false => rfl
  | true =>
      rw [if_pos rfl, Bool.true_and]
      show (formatLoop true 7 (37 :: 45 :: bytes "type") (name.drop 7) 7 none []).took.isSome = _
      rw [formatLoop_class, hone]
      simp only [matchPattern_dash]
      by_cases hdash : (name.drop 7).head? = some 45
      · rw [if_pos hdash, hdash]
        dsimp only
        rw [drop_takeWhile]
        have hlit := formatLoop_literal true 2 (by decide : (bytes "type").all literalByte = true) []
          ((name.drop 7).dropWhile (· == 45)) (7 + ((name.drop 7).takeWhile (· == 45)).length) none []
        rw [List.append_nil] at hlit
        rw [show formatLoop true 6 (bytes "type") _ _ _ _ = _ from hlit]
        cases literalPrefix true (bytes "type") ((name.drop 7).dropWhile (· == 45)) with
        | false => rfl
        | true =>
            rw [if_pos rfl, formatLoop_end]
            rfl
      · rw [if_neg hdash]
        show false = _
        rw [beq_false_of_ne hdash, Bool.false_and]

/-- In `fcgi_write.c` the dash is one byte. -/
theorem fcgiContentType_took (name : Bytes) :
    (matchiString name (bytes "content-type")).took.isSome = literalPrefix true (bytes "content-type") name := by
  have hstart := matchStringVirtual_literal true (by decide : bytes "content-type" ≠ []) (by decide) [] name
  rw [List.append_nil] at hstart
  unfold matchiString
  rw [hstart]
  by_cases hpre : literalPrefix true (bytes "content-type") name = true
  · rw [if_pos hpre, hpre]
    rfl
  · rw [if_neg hpre, Bool.eq_false_iff.mpr hpre]
    rfl

/-- Two dashes or more. -/
def dashed (name : Bytes) : Bool :=
  literalPrefix true (bytes "content--") name && literalPrefix true (bytes "type") ((name.drop 7).dropWhile (· == 45))

/-- The two readings of a name differ at the dashes. -/
theorem contentType_eq (name : Bytes) :
    contentType name = (literalPrefix true (bytes "content-type") name || dashed name) ∧
      (literalPrefix true (bytes "content-type") name && dashed name) = false := by
  have h1 : bytes "content-type" = bytes "content" ++ 45 :: bytes "type" := by decide
  have h2 : bytes "content--" = bytes "content" ++ [45, 45] := by decide
  unfold contentType dashed
  rw [h1, h2, literalPrefix_append, literalPrefix_append, show (bytes "content").length = 7 by decide]
  cases literalPrefix true (bytes "content") name with
  | false => exact ⟨rfl, rfl⟩
  | true =>
      simp only [Bool.true_and]
      cases name.drop 7 with
      | nil => exact ⟨rfl, rfl⟩
      | cons c cs =>
          simp only [literalPrefix, if_true, toupper_dash, List.head?_cons]
          by_cases hc : c = 45
          · subst hc
            rw [List.dropWhile_cons_of_pos (by rfl)]
            cases cs with
            | nil => exact ⟨rfl, rfl⟩
            | cons d ds =>
                simp only [literalPrefix, toupper_dash]
                by_cases hd : d = 45
                · subst hd
                  have hnot : literalPrefix true (bytes "type") (45 :: ds) = false := rfl
                  rw [hnot]
                  simp
                · rw [List.dropWhile_cons_of_neg (by simpa using hd), beq_false_of_ne hd]
                  simp
          · have hne : (c == 45) = false := beq_false_of_ne hc
            simp [hne]

/-! ## The list that is built -/

/-- What the array holds, and how large it is. -/
structure Built (e : EnvList) (strings : List Bytes) : Prop where
  env : e.env = strings
  pos : e.pos = strings.length
  num : e.num = (strings.length + 80) / 81 * 81
  fault : e.fault = decide (81 ≤ strings.length)

theorem built_new : Built {} [] := ⟨rfl, rfl, rfl, rfl⟩

section

variable {e : EnvList} {strings : List Bytes} {vars : List (Bytes × Bytes)} {line name value : Bytes}

/-- The array grows with every 81st string, and then the `NULL` has no place in it. -/
theorem Built.var (h : Built e strings) (new : Bytes) : Built (CgiEnv.var e new) (strings ++ [new]) := by
  have hpos := h.pos
  have hnum := h.num
  have hgrown : (if e.num < e.pos + 1 then e.pos + 1 + 80 else e.num) = (strings.length + 81) / 81 * 81 := by
    split
    · omega
    · omega
  refine ⟨congrArg (· ++ [new]) h.env, ?_, ?_, ?_⟩
  · show e.pos + 1 = _
    rw [hpos, List.length_append, List.length_singleton]
  · show (if e.num < e.pos + 1 then e.pos + 1 + 80 else e.num) = _
    rw [hgrown, List.length_append, List.length_singleton]
  · show (e.fault || decide ((if e.num < e.pos + 1 then e.pos + 1 + 80 else e.num) ≤ e.pos + 1)) = _
    rw [hgrown, h.fault, hpos, List.length_append, List.length_singleton, ← Bool.decide_or, decide_eq_decide]
    omega

theorem Built.upcase {s : Bytes} (h : Built e (strings ++ [s])) : Built (CgiEnv.upcase e) (strings ++ [upcaseString s]) := by
  have hlen : (strings ++ [upcaseString s]).length = (strings ++ [s]).length := by
    rw [List.length_append, List.length_append]
    rfl
  refine ⟨?_, hlen ▸ h.pos, hlen ▸ h.num, hlen ▸ h.fault⟩
  show e.env.dropLast ++ (e.env.getLast?.map upcaseString).toList = _
  rw [h.env, List.dropLast_concat, List.getLast?_concat]
  rfl

theorem upcase_assign (hname : 61 ∉ name) (value : Bytes) : upcaseString (assign name value) = assign (canonical name) value := by
  have hall : ∀ c ∈ name, (c != 61) = true := fun c hc => bne_iff_ne.mpr fun h => hname (h ▸ hc)
  unfold upcaseString assign
  rw [List.takeWhile_append_of_pos hall, List.dropWhile_append_of_pos hall]
  simp [canonical]

theorem headerField_name (h : headerField line = some (name, value)) : name ≠ [] ∧ ∀ c ∈ name, nameByte c = true := by
  unfold headerField at h
  dsimp only at h
  split at h
  · split at h
    · rename_i hc
      obtain ⟨rfl, -⟩ := Prod.mk.inj (Option.some.inj h)
      exact ⟨hc.1, fun c hc => List.mem_takeWhile_imp hc⟩
    · exact absurd h (by simp)
  · exact absurd h (by simp)

theorem name_no_equals (h : ∀ c ∈ name, nameByte c = true) : 61 ∉ name := fun hmem => absurd (h 61 hmem) (by decide)

/-- A field of the head is one string more. -/
theorem Built.field (h : Built e strings) (host : Option Bytes) (hfield : headerField line = some (name, value)) :
    Built (headerLine (e, host) line).1 (strings ++ [assign (headerVar (name, value)).1 (headerVar (name, value)).2]) ∧
      (headerLine (e, host) line).2 = if bytes "Host:" <+: line then some value else host := by
  obtain ⟨used, htook, hcapture, hdrop⟩ := field_took hfield
  have hequals := name_no_equals (headerField_name hfield).2
  unfold headerLine
  simp only [matchString_field, htook, hcapture, hdrop, contentType_took]
  unfold headerVar
  cases hcontent : contentType name with
  | true =>
      have hnew := (h.var (assign (bytes "CONTENT_TYPE") (cstr value))).upcase
      rw [upcase_assign (by decide), show canonical (bytes "CONTENT_TYPE") = bytes "CONTENT_TYPE" by decide] at hnew
      exact ⟨hnew, rfl⟩
  | false =>
      have hprefixed : 61 ∉ bytes "HTTP_" ++ name := by
        rw [List.mem_append]
        exact fun hmem => hmem.elim (fun hm => absurd hm (by decide)) hequals
      have hnew := (h.var (assign (bytes "HTTP_" ++ name) (cstr value))).upcase
      have hcanonical : canonical (bytes "HTTP_" ++ name) = bytes "HTTP_" ++ canonical name := by
        unfold canonical
        rw [List.map_append]
        rfl
      rw [upcase_assign hprefixed, hcanonical] at hnew
      exact ⟨hnew, rfl⟩

theorem headerLine_left (s : EnvList × Option Bytes) (h : headerField line = none) : headerLine s line = s := by
  unfold headerLine
  simp only [matchString_field, field_left h]

/-- The value of the last line that begins with `Host:`. -/
def hostValue (headers : List Bytes) : Option Bytes :=
  (headers.filterMap fun line => if bytes "Host:" <+: line then (headerField line).map (·.2) else none).getLast?

/-- **The loop over the head**, by induction on its lines. -/
theorem Built.headers (headers : List Bytes) (h : Built e strings) (host : Option Bytes) :
    Built (headers.foldl headerLine (e, host)).1
        (strings ++ ((headers.filterMap headerField).map headerVar).map fun p => assign p.1 p.2) ∧
      (headers.foldl headerLine (e, host)).2 = (hostValue headers).or host := by
  induction headers generalizing e strings host with
  | nil => exact ⟨(List.append_nil strings).symm ▸ h, rfl⟩
  | cons line headers ih =>
      rw [List.foldl_cons]
      cases hfield : headerField line with
      | none =>
          rw [headerLine_left _ hfield, List.filterMap_cons_none hfield]
          obtain ⟨hbuilt, hhost⟩ := ih h host
          refine ⟨hbuilt, hhost.trans ?_⟩
          unfold hostValue
          rw [List.filterMap_cons_none]
          rw [hfield]
          exact ite_self _
      | some f =>
          obtain ⟨hnew, hnewHost⟩ := h.field host hfield
          obtain ⟨hbuilt, hhost⟩ := ih hnew (headerLine (e, host) line).2
          rw [List.filterMap_cons_some hfield, List.map_cons, List.map_cons]
          refine ⟨?_, ?_⟩
          · rw [List.append_assoc] at hbuilt
            exact hbuilt
          · rw [show headerLine (e, host) line = ((headerLine (e, host) line).1, (headerLine (e, host) line).2) from rfl, hhost,
              hnewHost]
            unfold hostValue
            by_cases hpre : bytes "Host:" <+: line
            · rw [if_pos hpre, List.filterMap_cons_some (by rw [if_pos hpre, hfield]; rfl), List.getLast?_cons]
              generalize (List.filterMap _ headers).getLast? = last
              cases last with
              | none => rfl
              | some v => rfl
            · rw [if_neg hpre, List.filterMap_cons_none (by rw [if_neg hpre])]

end

/-- The fields of the head. -/
def fields (r : CgiRequest) : List (Bytes × Bytes) := r.headers.filterMap headerField

/-- `SERVER_NAME`. -/
def serverName (r : CgiRequest) : Bytes :=
  match hostValue r.headers with
  | some host => cstr host
  | none => r.vhostName.getD (bytes "unknown")

/-- The variables of the program. -/
def cgiVars (r : CgiRequest) (query cwd dir name : Bytes) : List (Bytes × Bytes) :=
  serverVars r query cwd dir name ++ (fields r).map headerVar ++ [(bytes "SERVER_NAME", serverName r)]

theorem Built.vars {e : EnvList} {strings : List Bytes} (h : Built e strings) (vars : List (Bytes × Bytes)) :
    Built (vars.foldl (fun e p => CgiEnv.var e (assign p.1 p.2)) e) (strings ++ vars.map fun p => assign p.1 p.2) := by
  induction vars generalizing e strings with
  | nil => exact (List.append_nil strings).symm ▸ h
  | cons p vars ih =>
      have hrest := ih (h.var (assign p.1 p.2))
      rw [List.append_assoc] at hrest
      exact hrest

/-- The environment is one string for each variable. -/
theorem env_built {r : CgiRequest} {e : EnvList} (h : hinCgiEnv r = some e) : ∃ query cwd dir name, r.query = some query ∧
    r.cwdPath = some cwd ∧ r.file = some (dir, name) ∧
      Built e ((cgiVars r query cwd dir name).map fun p => assign p.1 p.2) := by
  unfold hinCgiEnv at h
  split at h
  · rename_i query cwd dir name hquery hcwd hfile
    obtain rfl := Option.some.inj h
    refine ⟨query, cwd, dir, name, hquery, hcwd, hfile, ?_⟩
    obtain ⟨hbuilt, hhost⟩ := (built_new.vars (serverVars r query cwd dir name)).headers r.headers none
    rw [Option.or_none] at hhost
    have hall := hbuilt.var (assign (bytes "SERVER_NAME") (serverName r))
    unfold cgiVars
    rw [List.map_append, List.map_append]
    unfold serverName at hall ⊢
    rw [← hhost] at hall ⊢
    exact hall
  · exact absurd h (by simp)

/-! ## What the program finds -/

/-- The names of the server, but for `SERVER_NAME`. -/
def serverNames : List Bytes :=
  [bytes "CONTENT_LENGTH", bytes "QUERY_STRING", bytes "REQUEST_URI", bytes "REDIRECT_STATUS", bytes "SCRIPT_NAME",
    bytes "PATH_INFO", bytes "PATH_TRANSLATED", bytes "SCRIPT_FILENAME", bytes "DOCUMENT_ROOT", bytes "REQUEST_METHOD",
    bytes "SERVER_PROTOCOL", bytes "SERVER_SOFTWARE", bytes "GATEWAY_INTERFACE", bytes "REQUEST_SCHEME", bytes "SERVER_PORT",
    bytes "SERVER_ADDR", bytes "REMOTE_ADDR", bytes "REMOTE_PORT", bytes "HTTPS"]

/-- A byte of a variable's name. -/
def varByte (c : UInt8) : Bool := isupper c || isdigit c || c == 95

theorem serverVars_names (r : CgiRequest) (query cwd dir name : Bytes) :
    ∀ p ∈ serverVars r query cwd dir name, p.1 ∈ serverNames := by
  have hlist : ∀ {xs ys : List (Bytes × Bytes)}, (∀ p ∈ xs, p.1 ∈ serverNames) → (∀ p ∈ ys, p.1 ∈ serverNames) →
      ∀ p ∈ xs ++ ys, p.1 ∈ serverNames := fun hx hy p hp => (List.mem_append.mp hp).elim (hx p) (hy p)
  have hin : ∀ vars : List (Bytes × Bytes), vars.map (·.1) ⊆ serverNames → ∀ p ∈ vars, p.1 ∈ serverNames :=
    fun vars hsub p hp => hsub (List.mem_map.mpr ⟨p, hp, rfl⟩)
  unfold serverVars
  refine hlist (hlist (hlist (hlist (hlist ?_ ?_) ?_) ?_) ?_) ?_
  · apply hin
    simp only [List.map_cons, List.map_nil]
    decide
  · split
    · exact fun p hp => absurd hp List.not_mem_nil
    · split
      · exact fun p hp => absurd hp List.not_mem_nil
      · apply hin
        simp only [List.map_cons, List.map_nil]
        decide
  · apply hin
    simp only [List.map_cons, List.map_nil]
    decide
  · split
    · apply hin
      simp only [List.map_cons, List.map_nil]
      decide
    · exact fun p hp => absurd hp List.not_mem_nil
  · split
    · apply hin
      simp only [List.map_cons, List.map_nil]
      decide
    · exact fun p hp => absurd hp List.not_mem_nil
  · split
    · apply hin
      simp only [List.map_cons, List.map_nil]
      decide
    · exact fun p hp => absurd hp List.not_mem_nil

theorem canonical_byte {c : UInt8} (hc : nameByte c = true) : varByte (if c = 45 then 95 else toupper c) = true := by
  have hall : ∀ c : UInt8, nameByte c = true → varByte (if c = 45 then 95 else toupper c) = true :=
    forall_byte (by decide +kernel)
  exact hall c hc

/-- A variable has a name of capitals, digits and underscores. -/
def NamedWell (p : Bytes × Bytes) : Prop := p.1 ≠ [] ∧ ∀ c ∈ p.1, varByte c = true

theorem NamedWell.no_equals {p : Bytes × Bytes} (h : NamedWell p) : 61 ∉ p.1 := fun hmem => absurd (h.2 61 hmem) (by decide)

theorem serverNames_checked : (serverNames.all fun n => !n.isEmpty && n.all varByte && !(bytes "HTTP_").isPrefixOf n &&
    n != bytes "CONTENT_TYPE" && n != bytes "SERVER_NAME") = true := by rfl

theorem serverNames_well {n : Bytes} (hn : n ∈ serverNames) : n ≠ [] ∧ (∀ c ∈ n, varByte c = true) ∧ ¬ bytes "HTTP_" <+: n ∧
    n ≠ bytes "CONTENT_TYPE" ∧ n ≠ bytes "SERVER_NAME" := by
  have hchecked := List.all_eq_true.mp serverNames_checked n hn
  simp only [Bool.and_eq_true, Bool.not_eq_true', List.isEmpty_eq_false_iff, List.all_eq_true, bne_iff_ne] at hchecked
  obtain ⟨⟨⟨⟨hne, hbytes⟩, hhttp⟩, hcontent⟩, hserver⟩ := hchecked
  refine ⟨hne, hbytes, fun hpre => ?_, hcontent, hserver⟩
  exact Bool.false_ne_true (hhttp.symm.trans (List.isPrefixOf_iff_prefix.mpr hpre))

theorem contentVar_well (value : Bytes) : NamedWell (bytes "CONTENT_TYPE", value) := by
  have hname : bytes "CONTENT_TYPE" ≠ [] ∧ ∀ c ∈ bytes "CONTENT_TYPE", varByte c = true := by decide +kernel
  exact hname

theorem httpVar_well {name : Bytes} (h : ∀ c ∈ name, nameByte c = true) (value : Bytes) :
    NamedWell (bytes "HTTP_" ++ canonical name, value) := by
  have hhttp : ∀ c ∈ bytes "HTTP_", varByte c = true := by decide +kernel
  refine ⟨by simp [bytes], fun c hc => ?_⟩
  rcases List.mem_append.mp hc with hc | hc
  · exact hhttp c hc
  · obtain ⟨b, hb, rfl⟩ := List.mem_map.mp hc
    exact canonical_byte (h b hb)

theorem headerVar_well {line name value : Bytes} (h : headerField line = some (name, value)) :
    NamedWell (headerVar (name, value)) := by
  unfold headerVar
  split
  · exact contentVar_well _
  · exact httpVar_well (headerField_name h).2 _

theorem cgiVars_well (r : CgiRequest) (query cwd dir name : Bytes) : ∀ p ∈ cgiVars r query cwd dir name, NamedWell p := by
  intro p hp
  unfold cgiVars at hp
  rcases List.mem_append.mp hp with hp | hp
  · rcases List.mem_append.mp hp with hp | hp
    · obtain ⟨hne, hbytes, -⟩ := serverNames_well (serverVars_names r query cwd dir name p hp)
      exact ⟨hne, hbytes⟩
    · obtain ⟨f, hf, rfl⟩ := List.mem_map.mp hp
      obtain ⟨line, -, hline⟩ := List.mem_filterMap.mp hf
      exact headerVar_well hline
  · obtain rfl := List.mem_singleton.mp hp
    have hname : bytes "SERVER_NAME" ≠ [] ∧ ∀ c ∈ bytes "SERVER_NAME", varByte c = true := by decide +kernel
    exact hname

theorem assign_begins {name name' : Bytes} (value : Bytes) (h : 61 ∉ name) (h' : 61 ∉ name') :
    name ++ [61] <+: assign name' value ↔ name = name' := by
  refine ⟨?_, ?_⟩
  · rintro ⟨rest, hrest⟩
    have htake : ∀ {n : Bytes} (m : Bytes), 61 ∉ n → (n ++ 61 :: m).takeWhile (· != 61) = n := by
      intro n m hn
      have hall : ∀ c ∈ n, (c != 61) = true := fun c hc => bne_iff_ne.mpr fun heq => hn (heq ▸ hc)
      rw [List.takeWhile_append_of_pos hall]
      simp
    have heq := congrArg (List.takeWhile (· != 61)) hrest
    rw [List.append_assoc] at heq
    exact (htake rest h).symm.trans (heq.trans (htake value h'))
  · rintro rfl
    exact ⟨value, by simp [assign]⟩

/-- The program finds the first variable of a name. -/
theorem getenv_assign {vars : List (Bytes × Bytes)} (hvars : ∀ p ∈ vars, NamedWell p) {name : Bytes} (hname : 61 ∉ name) :
    getenv (vars.map fun p => assign p.1 p.2) name = vars.lookup name := by
  induction vars with
  | nil => rfl
  | cons p vars ih =>
      have ih := ih fun q hq => hvars q (List.mem_cons_of_mem _ hq)
      unfold getenv at ih ⊢
      rw [List.map_cons, List.findSome?_cons, List.lookup_cons]
      have hp := assign_begins p.2 hname (hvars p List.mem_cons_self).no_equals
      by_cases heq : name = p.1
      · rw [if_pos (hp.mpr heq), beq_iff_eq.mpr heq, heq]
        show some ((p.1 ++ 61 :: p.2).drop (p.1.length + 1)) = some p.2
        rw [← List.drop_drop, List.drop_left' rfl]
        rfl
      · rw [if_neg fun h => heq (hp.mp h), beq_false_of_ne heq]
        exact ih

theorem lookup_missing {vars : List (Bytes × Bytes)} {name : Bytes} (h : ∀ p ∈ vars, p.1 ≠ name) : vars.lookup name = none :=
  List.lookup_eq_none_iff.mpr fun p hp => bne_iff_ne.mpr (h p hp).symm

theorem headerVar_content {f : Bytes × Bytes} (h : contentType f.1 = true) : headerVar f = (bytes "CONTENT_TYPE", cstr f.2) := by
  unfold headerVar
  rw [if_pos h]

theorem headerVar_plain {f : Bytes × Bytes} (h : contentType f.1 = false) :
    headerVar f = (bytes "HTTP_" ++ canonical f.1, cstr f.2) := by
  unfold headerVar
  rw [if_neg (Bool.eq_false_iff.mp h)]

/-- The variables of the headers, by name: the first one counts. -/
theorem lookup_header (fs : List (Bytes × Bytes)) (name : Bytes) : (fs.map headerVar).lookup (bytes "HTTP_" ++ name) =
    (fs.find? fun f => !contentType f.1 && canonical f.1 == name).map fun f => cstr f.2 := by
  induction fs with
  | nil => rfl
  | cons f fs ih =>
      rw [List.map_cons, List.find?_cons]
      cases hcontent : contentType f.1 with
      | true =>
          rw [headerVar_content hcontent, List.lookup_cons]
          exact ih
      | false =>
          rw [headerVar_plain hcontent]
          by_cases hname : canonical f.1 = name
          · rw [← hname, List.lookup_cons_self, beq_self_eq_true]
            rfl
          · have hne : (bytes "HTTP_" ++ name == bytes "HTTP_" ++ canonical f.1) = false :=
              beq_false_of_ne fun heq => hname (List.append_cancel_left heq).symm
            rw [List.lookup_cons, hne, beq_false_of_ne hname]
            exact ih

theorem lookup_contentType (fs : List (Bytes × Bytes)) : (fs.map headerVar).lookup (bytes "CONTENT_TYPE") =
    (fs.find? fun f => contentType f.1).map fun f => cstr f.2 := by
  induction fs with
  | nil => rfl
  | cons f fs ih =>
      rw [List.map_cons, List.find?_cons]
      cases hcontent : contentType f.1 with
      | true =>
          rw [headerVar_content hcontent, List.lookup_cons_self]
          rfl
      | false =>
          rw [headerVar_plain hcontent, List.lookup_cons]
          exact ih

/-- A name that no header can have. -/
theorem headerVar_other {name : Bytes} (hhttp : ¬ bytes "HTTP_" <+: name) (hcontent : name ≠ bytes "CONTENT_TYPE")
    (f : Bytes × Bytes) : (headerVar f).1 ≠ name := by
  unfold headerVar
  split
  · exact fun h => hcontent h.symm
  · rintro rfl
    exact hhttp (List.prefix_append _ _)

/-- **What a program is told.** -/
structure Environment (r : CgiRequest) (query cwd dir script : Bytes) (env : List Bytes) : Prop where
  well : ∀ s ∈ env, ∃ name value, s = assign name value ∧ name ≠ [] ∧ ∀ c ∈ name, varByte c = true
  server : ∀ name, 61 ∉ name → ¬ bytes "HTTP_" <+: name → name ≠ bytes "CONTENT_TYPE" → name ≠ bytes "SERVER_NAME" →
    getenv env name = (serverVars r query cwd dir script).lookup name
  serverName : getenv env (bytes "SERVER_NAME") = some (serverName r)
  header : ∀ name, 61 ∉ name → getenv env (bytes "HTTP_" ++ name) =
    ((fields r).find? fun f => !contentType f.1 && canonical f.1 == name).map fun f => cstr f.2
  contentType : getenv env (bytes "CONTENT_TYPE") = ((fields r).find? fun f => contentType f.1).map fun f => cstr f.2

/-- `GET /a` with two headers, for a script of the virtual host `h`. -/
def sampleRequest : CgiRequest where
  path := bytes "/a"
  cwdPath := some (bytes "/srv/")
  file := some (bytes "/srv/", bytes "a")
  headers := [bytes "Content-Type: t", bytes "X-Key: v"]
  hostname := some (bytes "h")
  vhostName := some (bytes "h")

def sampleEnv : EnvList := (hinCgiEnv sampleRequest).getD {}

/-- What `hin_fcgi_headers` writes for a field; a long name is left out. -/
def fcgiVar (f : Bytes × Bytes) : Option (Bytes × Bytes) :=
  if literalPrefix true (bytes "content-type") f.1 then some (bytes "CONTENT_TYPE", cstr f.2)
  else if f.1.length < 122 then some (bytes "HTTP_" ++ canonical f.1, cstr f.2) else none

/-- The fields for which the two say the same. -/
def SameVar (f : Bytes × Bytes) : Prop :=
  dashed f.1 = false ∧ (literalPrefix true (bytes "content-type") f.1 = true ∨ f.1.length < 122)

theorem sameVar_iff (f : Bytes × Bytes) : fcgiVar f = some (headerVar f) ↔ SameVar f := by
  obtain ⟨heq, hnot⟩ := contentType_eq f.1
  have hother : ∀ n : Bytes, bytes "HTTP_" ++ n ≠ bytes "CONTENT_TYPE" := fun n h => absurd (List.cons.inj h).1 (by decide)
  unfold fcgiVar SameVar
  cases hcontent : literalPrefix true (bytes "content-type") f.1 with
  | true =>
      rw [hcontent, Bool.true_or] at heq
      rw [hcontent, Bool.true_and] at hnot
      rw [if_pos rfl, headerVar_content heq, hnot]
      exact ⟨fun _ => ⟨rfl, .inl rfl⟩, fun _ => rfl⟩
  | false =>
      rw [hcontent, Bool.false_or] at heq
      rw [if_neg Bool.false_ne_true]
      cases hdashed : dashed f.1 with
      | true =>
          rw [headerVar_content (heq.trans hdashed)]
          refine ⟨fun h => ?_, fun h => absurd h.1 (by simp)⟩
          split at h
          · exact absurd (Prod.mk.inj (Option.some.inj h)).1 (hother _)
          · exact absurd h (by simp)
      | false =>
          rw [headerVar_plain (heq.trans hdashed)]
          by_cases hshort : f.1.length < 122
          · rw [if_pos hshort]
            exact ⟨fun _ => ⟨rfl, .inr hshort⟩, fun _ => rfl⟩
          · rw [if_neg hshort]
            exact ⟨fun h => absurd h (by simp), fun h => absurd h.2 (by simp [hshort])⟩

/-- A line is a field for both. -/
theorem fcgiLine_field (line : Bytes) :
    (hinFcgiHeaderLine line).filter shortName = (headerField line).bind fcgiVar := by
  unfold hinFcgiHeaderLine
  dsimp only
  rw [matchString_field]
  cases hfield : headerField line with
  | none =>
      rw [field_left hfield]
      rfl
  | some f =>
      obtain ⟨used, htook, hcapture, hdrop⟩ := field_took hfield
      rw [htook, hcapture]
      dsimp only
      rw [hdrop, fcgiContentType_took, Option.bind_some]
      unfold fcgiVar
      cases literalPrefix true (bytes "content-type") f.1 with
      | true => rfl
      | false =>
          rw [if_neg Bool.false_ne_true, if_neg Bool.false_ne_true]
          unfold paramHeader
          have hlen : (bytes "HTTP_" ++ f.1).length = f.1.length + 5 := by
            rw [List.length_append, Nat.add_comm]
            rfl
          have hname : (bytes "HTTP_" ++ f.1).map (fun c => if c = 45 then 95 else toupper c) =
              bytes "HTTP_" ++ canonical f.1 := by
            rw [List.map_append]
            rfl
          dsimp only
          rw [hlen, hname]
          by_cases hlong : f.1.length + 5 ≥ 128
          · rw [if_pos hlong, if_neg (by omega)]
            rfl
          · rw [if_neg hlong, Option.filter_some]
            have hshort : shortName (bytes "HTTP_" ++ canonical f.1, cstr f.2) = decide (f.1.length < 122) := by
              unfold shortName canonical
              rw [List.length_append, List.length_map, decide_eq_decide]
              show 5 + f.1.length < 127 ↔ _
              omega
            rw [hshort]
            by_cases h : f.1.length < 122
            · rw [decide_eq_true h, if_pos rfl, if_pos h]
            · rw [decide_eq_false h, if_neg Bool.false_ne_true, if_neg h]

theorem fcgiLines_fields (headers : List Bytes) :
    (headers.filterMap hinFcgiHeaderLine).filter shortName = (headers.filterMap headerField).filterMap fcgiVar := by
  rw [List.filter_filterMap, List.filterMap_filterMap]
  exact List.filterMap_congr fun line _ => fcgiLine_field line

/-- A list keeps its length under `filterMap` only if nothing is left out. -/
theorem map_eq_filterMap_iff {α β : Type} {l : List α} {f : α → β} {g : α → Option β} :
    l.map f = l.filterMap g ↔ ∀ a ∈ l, g a = some (f a) := by
  induction l with
  | nil => simp
  | cons a l ih =>
      cases hg : g a with
      | none =>
          rw [List.filterMap_cons_none hg]
          refine ⟨fun h => ?_, fun h => absurd (hg.symm.trans (h a List.mem_cons_self)) (by simp)⟩
          have hlen := congrArg List.length h
          have hle := List.length_filterMap_le g l
          rw [List.length_map, List.length_cons] at hlen
          omega
      | some b =>
          rw [List.filterMap_cons_some hg, List.map_cons, List.cons.injEq, ih]
          refine ⟨?_, fun h => ⟨?_, fun c hc => h c (List.mem_cons_of_mem _ hc)⟩⟩
          · rintro ⟨rfl, h⟩ c hc
            rcases List.mem_cons.mp hc with rfl | hc
            · exact hg
            · exact h c hc
          · exact (Option.some.inj (hg.symm.trans (h a List.mem_cons_self))).symm

theorem cstr_plain {s : Bytes} (h : 0 ∉ s) : cstr s = s :=
  List.takeWhile_eq_self_iff.mpr fun _ hc => bne_iff_ne.mpr fun heq => h (heq ▸ hc)

theorem serverNames_short : (serverNames.all fun n => n.length < 127) = true := by decide +kernel

/-- What fastcgi is told of the same request, without the long names. -/
theorem fcgi_pairs {r : CgiRequest} {query cwd dir script : Bytes} (hquery : r.query = some query) (hcwd : r.cwdPath = some cwd)
    (hfile : r.file = some (dir, script)) (hinfo : r.pathInfo = none) (hpath : 0 ∉ r.path) (hplain : 0 ∉ query) :
    ∃ pairs, hinFcgiHeaders r.toFcgiRequest = some pairs ∧ pairs.filter shortName = serverVars r query cwd dir script ++
      (fields r).filterMap fcgiVar ++ [(bytes "SERVER_NAME", r.hostname.getD (bytes "unknown"))] := by
  refine ⟨serverVars r query cwd dir script ++ r.headers.filterMap hinFcgiHeaderLine ++
    [(bytes "SERVER_NAME", r.hostname.getD (bytes "unknown"))], ?_, ?_⟩
  · unfold hinFcgiHeaders serverVars
    rw [hquery, hcwd, hfile, hinfo, cstr_plain hpath, cstr_plain hplain]
    rfl
  · have hserver : (serverVars r query cwd dir script).filter shortName = serverVars r query cwd dir script := by
      apply List.filter_eq_self.mpr
      intro p hp
      exact List.all_eq_true.mp serverNames_short p.1 (serverVars_names r query cwd dir script p hp)
    rw [List.filter_append, List.filter_append, hserver, fcgiLines_fields]
    rfl

theorem fcgiVar_well {line : Bytes} {f p : Bytes × Bytes} (h : headerField line = some f) (hp : fcgiVar f = some p) :
    NamedWell p := by
  unfold fcgiVar at hp
  split at hp
  · obtain rfl := Option.some.inj hp
    exact contentVar_well _
  · split at hp
    · obtain rfl := Option.some.inj hp
      exact httpVar_well (headerField_name h).2 _
    · exact absurd hp (by simp)

/-- A string tells its name and its value. -/
theorem assign_inj {p q : Bytes × Bytes} (hp : NamedWell p) (hq : NamedWell q) (h : assign p.1 p.2 = assign q.1 q.2) : p = q := by
  have hname : p.1 = q.1 := (assign_begins q.2 hp.no_equals hq.no_equals).mp ⟨p.2, by rw [← h]; simp [assign]⟩
  have hvalue : (p.1 ++ [61]) ++ p.2 = (p.1 ++ [61]) ++ q.2 := by
    rw [List.append_assoc, List.append_assoc]
    rw [hname] at h ⊢
    exact h
  exact Prod.ext hname (List.append_cancel_left hvalue)

theorem assigns_inj {ps qs : List (Bytes × Bytes)} (hps : ∀ p ∈ ps, NamedWell p) (hqs : ∀ q ∈ qs, NamedWell q)
    (h : ps.map (fun p => assign p.1 p.2) = qs.map fun p => assign p.1 p.2) : ps = qs := by
  induction ps generalizing qs with
  | nil => exact (List.map_eq_nil_iff.mp h.symm).symm
  | cons p ps ih =>
      cases qs with
      | nil => exact absurd h (by simp)
      | cons q qs =>
          obtain ⟨hfirst, hrest⟩ := List.cons.inj h
          rw [assign_inj (hps p List.mem_cons_self) (hqs q List.mem_cons_self) hfirst,
            ih (fun p hp => hps p (List.mem_cons_of_mem _ hp)) (fun q hq => hqs q (List.mem_cons_of_mem _ hq)) hrest]

end CgiEnv
end Http
end Hin9
