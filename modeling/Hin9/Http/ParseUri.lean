import Hin9.Basic.PatternRef

/-!
# `Http.ParseUri` — the components of a URL (`http_utils.c`)

`hin_parse_uri` goes through a URL with one match for each component. Every component is a slice of the URL, which the
match writes when it comes to the closing bracket of its capture. What stands behind the bracket has not been looked at
then: the `scheme` is written before its `://` is, and stays when that is missing.

The parser is one definition for each component, `parseScheme` to `parseMarked`, and each has a lemma that says which bytes
it takes. `Uri.Faithful` is what the components should be together, and `parse_uri_iff` the URLs on which they are that.
-/

namespace Hin9
namespace Http
namespace ParseUri

open Pattern

/-- A `string_t` inside the URL. -/
structure Slice where
  off : Nat := 0
  len : Nat := 0
deriving Repr, DecidableEq

/-- `hin_uri_t`. -/
structure Uri where
  scheme : Slice
  host : Slice
  port : Slice
  path : Slice
  query : Slice
  fragment : Slice
  all : Slice
  https : Bool
deriving Repr, DecidableEq

/-! ## The parser -/

/-- What a match at offset `c` leaves in the slice it captures: also a match that failed behind the capture. -/
def captured (r : Result) (c : Nat) (old : Slice) : Slice :=
  match r.captures with
  | (s, n) :: _ => { off := c + s, len := n }
  | [] => old

/-- The three matches for the scheme: the offset behind it, the slice, and `https`. -/
def parseScheme (text : Bytes) : Nat × Slice × Bool :=
  let https := matchString text (bytes "(https)://")
  let scheme := captured https 0 {}
  match https.took with
  | some n => (n, scheme, true)
  | none =>
      let http := matchString text (bytes "(http)://")
      let scheme := captured http 0 scheme
      match http.took with
      | some n => (n, scheme, false)
      | none =>
          let generic := matchString text (bytes "([%w+-.]+)://")
          let scheme := captured generic 0 scheme
          match generic.took with
          | some n => (n, scheme, false)
          | none => (0, scheme, false)

def parseHost (text : Bytes) (c : Nat) : Nat × Slice :=
  let r := matchString (text.drop c) (bytes "([%w.-_]+)")
  match r.used with
  | some n => (c + n, captured r c {})
  | none => (c, {})

def parsePort (text : Bytes) (c : Nat) : Nat × Slice :=
  let r := matchString (text.drop c) (bytes ":(%d+)")
  (c + r.took.getD 0, captured r c {})

/-- `PATH_ACCEPT`. -/
def pathAccept : Bytes := bytes "%w.=/;-_~!$&'%(%)%*%+,:%%@"

def parsePath (text : Bytes) (c : Nat) : Option (Nat × Slice) :=
  let r := matchString (text.drop c) (bytes "([" ++ pathAccept ++ bytes "]+)")
  r.used.map fun n => (c + n, captured r c {})

/-- The query and the fragment, behind their mark. -/
def parseMarked (mark : UInt8) (text : Bytes) (c : Nat) : Nat × Slice :=
  let r := matchString (text.drop c) ([37, mark] ++ bytes "([" ++ pathAccept ++ bytes "]+)")
  (c + r.took.getD 0, captured r c {})

def parseQuery (text : Bytes) (c : Nat) : Nat × Slice := parseMarked 63 text c

def parseFragment (text : Bytes) (c : Nat) : Nat × Slice := parseMarked 35 text c

/-- The bytes of `url` that are looked at: `len` of them, or those of the C string. -/
def urlText (url : Bytes) (len : Int) : Bytes := if len ≤ 0 then url.takeWhile (· ≠ 0) else url.take len.toNat

/-- `hin_parse_uri`; `none` for `-1`. -/
def hinParseUri (url : Bytes) (len : Int) : Option Uri :=
  let text := urlText url len
  let (c, scheme, https) := parseScheme text
  let (c, host) := parseHost text c
  let (c, port) := parsePort text c
  match parsePath text c with
  | none => none
  | some (c, path) =>
      let (c, query) := parseQuery text c
      let (c, fragment) := parseFragment text c
      some { scheme, host, port, path, query, fragment, all := { off := 0, len := c }, https }

/-! ## What the components should be -/

/-- The bytes of a component. -/
def Slice.of (s : Slice) (text : Bytes) : Bytes := (text.drop s.off).take s.len

/-- Where the text goes on behind a component, if it is set. -/
def Slice.behind (s : Slice) (c : Nat) : Nat := if s.len = 0 then c else s.off + s.len

/-- A component written back behind what stands in front of it, or nothing. -/
def Slice.write (s : Slice) (mark : Bytes) (text : Bytes) : Bytes := if s.len = 0 then [] else mark ++ s.of text

namespace Uri

variable (u : Uri) (text : Bytes)

/-- The components with their delimiters. -/
def written : Bytes :=
  (if u.scheme.len = 0 then [] else u.scheme.of text ++ bytes "://") ++ u.host.of text ++ u.port.write [58] text ++
    u.path.of text ++ u.query.write [63] text ++ u.fragment.write [35] text

/-- Where the host begins, the port, and so on. -/
def hostAt : Nat := if u.scheme.len = 0 then 0 else u.scheme.off + u.scheme.len + 3
def portAt : Nat := u.host.behind u.hostAt
def pathAt : Nat := u.port.behind u.portAt
def queryAt : Nat := u.path.behind u.pathAt
def fragmentAt : Nat := u.query.behind u.queryAt

/-- Each component that is set begins where the one in front of it ends, behind its own delimiter. -/
structure Consecutive : Prop where
  scheme : u.scheme.len ≠ 0 → u.scheme.off = 0
  host : u.host.len ≠ 0 → u.host.off = u.hostAt
  port : u.port.len ≠ 0 → u.port.off = u.portAt + 1
  path : u.path.len ≠ 0 → u.path.off = u.pathAt
  query : u.query.len ≠ 0 → u.query.off = u.queryAt + 1
  fragment : u.fragment.len ≠ 0 → u.fragment.off = u.fragmentAt + 1
  all : u.all = { off := 0, len := u.fragment.behind u.fragmentAt }

/-- The delimiter of a component that is set is there. -/
structure Delimited : Prop where
  scheme : u.scheme.len ≠ 0 → bytes "://" <+: text.drop (u.scheme.off + u.scheme.len)
  port : u.port.len ≠ 0 → text[u.port.off - 1]? = some 58
  query : u.query.len ≠ 0 → text[u.query.off - 1]? = some 63
  fragment : u.fragment.len ≠ 0 → text[u.fragment.off - 1]? = some 35

/-- **The components account for the text that was used**: they follow one another, with their delimiters they are that
    text, and none is set without its delimiter. -/
structure Faithful : Prop where
  inside : u.all.len ≤ text.length
  consecutive : u.Consecutive
  written : u.written text = u.all.of text
  delimited : u.Delimited text

end Uri

/-! ## The bytes of each component -/

def schemeByte (c : UInt8) : Bool := isalnum c || c == 43 || c == 45 || c == 46

def hostByte (c : UInt8) : Bool := isalnum c || c == 46 || c == 45 || c == 95

def pathByte (c : UInt8) : Bool :=
  isalnum c || c == 46 || c == 61 || c == 47 || c == 59 || c == 45 || c == 95 || c == 126 || c == 33 || c == 36 ||
    c == 38 || c == 39 || c == 40 || c == 41 || c == 42 || c == 43 || c == 44 || c == 58 || c == 37 || c == 64

/-- A byte for a scheme stands in front, and the scheme it begins does not end in `://`. -/
def Torn (text : Bytes) : Prop :=
  text.takeWhile schemeByte ≠ [] ∧ ¬ bytes "://" <+: text.dropWhile schemeByte

/-- More than one mark stands in front of a query or a fragment. -/
def Doubled (mark : UInt8) (text : Bytes) : Prop :=
  2 ≤ (text.takeWhile (· == mark)).length ∧ (text.dropWhile (· == mark)).takeWhile pathByte ≠ []

instance (text : Bytes) : Decidable (Torn text) := by
  unfold Torn
  infer_instance

instance (mark : UInt8) (text : Bytes) : Decidable (Doubled mark text) := by
  unfold Doubled
  infer_instance

/-- What follows the scheme, the host, the port, the path and a component with a mark. -/
def afterScheme (text : Bytes) : Bytes :=
  if text.takeWhile schemeByte ≠ [] ∧ bytes "://" <+: text.dropWhile schemeByte then (text.dropWhile schemeByte).drop 3
  else text

def afterHost (text : Bytes) : Bytes := text.dropWhile hostByte

def afterPort (text : Bytes) : Bytes :=
  match text with
  | [] => []
  | c :: cs => if c = 58 ∧ cs.takeWhile isdigit ≠ [] then cs.dropWhile isdigit else c :: cs

def afterPath (text : Bytes) : Bytes := text.dropWhile pathByte

def afterMarked (mark : UInt8) (text : Bytes) : Bytes :=
  if text.takeWhile (· == mark) ≠ [] ∧ (text.dropWhile (· == mark)).takeWhile pathByte ≠ [] then
    (text.dropWhile (· == mark)).dropWhile pathByte
  else text

/-- **A URL without a trap**: its scheme is complete, or it begins with none of the bytes of one; and there is one `?` in
    front of its query and one `#` in front of its fragment. -/
def Plain (text : Bytes) : Prop :=
  ¬ Torn text ∧
    ¬ Doubled 63 (afterPath (afterPort (afterHost (afterScheme text)))) ∧
    ¬ Doubled 35 (afterMarked 63 (afterPath (afterPort (afterHost (afterScheme text)))))

/-! ## The matches -/

/-- **A captured set with a literal behind it.** The capture is written once the set has taken its run, whether or not the
    literal follows. -/
theorem formatLoop_captureSet {body lit : Bytes} {p : UInt8 → Bool}
    (hset : ∀ data, matchPattern data body ⟨true, false⟩ =
      if data.takeWhile p = [] then none else some (data.takeWhile p).length)
    (hscan : scanSet 91 (body ++ 93 :: 43 :: 41 :: lit) = some (body, 43 :: 41 :: lit)) (hlit : lit.all literalByte = true)
    (fuel : Nat) (data : Bytes) (ptr : Nat) :
    formatLoop false (lit.length + (fuel + 1) + 3) (40 :: 91 :: (body ++ 93 :: 43 :: 41 :: lit)) data ptr none [] =
      if data.takeWhile p = [] then ⟨none, []⟩
      else if lit <+: data.dropWhile p then
        ⟨some (ptr + (data.takeWhile p).length + lit.length), [(ptr, (data.takeWhile p).length)]⟩
      else ⟨none, [(ptr, (data.takeWhile p).length)]⟩ := by
  have hs : takeSpecifier (43 :: 41 :: lit) = (⟨true, false⟩, 41 :: lit) := rfl
  have hdrop : data.drop (data.takeWhile p).length = data.dropWhile p := by
    have h : (data.takeWhile p ++ data.dropWhile p).drop (data.takeWhile p).length = data.dropWhile p := List.drop_left' rfl
    rwa [List.takeWhile_append_dropWhile] at h
  rw [formatLoop_open, formatLoop_set _ _ _ _ _ _ _ hscan, hs]
  dsimp only
  rw [hset]
  by_cases hnone : data.takeWhile p = []
  · rw [if_pos hnone, if_pos hnone]
  · rw [if_neg hnone, if_neg hnone]
    dsimp only
    rw [formatLoop_close, hdrop, Nat.add_sub_cancel_left, List.nil_append]
    have hl := formatLoop_literal false (fuel + 1) hlit [] (data.dropWhile p) (ptr + (data.takeWhile p).length) none
      [(ptr, (data.takeWhile p).length)]
    rw [List.append_nil, formatLoop_end] at hl
    rw [hl]
    by_cases hpre : lit <+: data.dropWhile p
    · rw [if_pos ((literalPrefix_false_iff _ _).mpr hpre), if_pos hpre]
      rfl
    · rw [if_neg fun h => hpre ((literalPrefix_false_iff _ _).mp h), if_neg hpre]

/-- The set of a component takes the bytes of that component. -/
theorem matchPattern_scheme (data : Bytes) : matchPattern data (bytes "%w+-.") ⟨true, false⟩ =
    if data.takeWhile schemeByte = [] then none else some (data.takeWhile schemeByte).length := by
  have hes : ∀ e ∈ ([.letter 119, .char 43, .char 45, .char 46] : List Elem), e.wellFormed = true := by decide
  refine matchPattern_set hes (by decide) (by decide) (fun c => ?_) data
  simp [Elem.takes, letterHas, capitalLetter, schemeByte, Bool.or_assoc]

theorem matchPattern_host (data : Bytes) : matchPattern data (bytes "%w.-_") ⟨true, false⟩ =
    if data.takeWhile hostByte = [] then none else some (data.takeWhile hostByte).length := by
  have hes : ∀ e ∈ ([.letter 119, .char 46, .char 45, .char 95] : List Elem), e.wellFormed = true := by decide
  refine matchPattern_set hes (by decide) (by decide) (fun c => ?_) data
  simp [Elem.takes, letterHas, capitalLetter, hostByte, Bool.or_assoc]

theorem matchPattern_path (data : Bytes) : matchPattern data pathAccept ⟨true, false⟩ =
    if data.takeWhile pathByte = [] then none else some (data.takeWhile pathByte).length := by
  have hes : ∀ e ∈ ([.letter 119, .char 46, .char 61, .char 47, .char 59, .char 45, .char 95, .char 126, .char 33,
      .char 36, .char 38, .char 39, .letter 40, .letter 41, .letter 42, .letter 43, .char 44, .char 58, .letter 37,
      .char 64] : List Elem), e.wellFormed = true := by decide
  refine matchPattern_set hes (by decide) (by decide) (fun c => ?_) data
  simp [Elem.takes, letterHas, capitalLetter, pathByte, Bool.or_assoc]

/-- A captured literal with another one behind it. -/
theorem matchString_captureLiteral {name lit : Bytes} (hname : name.all literalByte = true) (hlit : lit.all literalByte = true)
    (data : Bytes) : matchString data ([40] ++ name ++ [41] ++ lit) =
      if data = [] then ⟨none, []⟩
      else if name <+: data then
        if lit <+: data.drop name.length then ⟨some (name.length + lit.length), [(0, name.length)]⟩
        else ⟨none, [(0, name.length)]⟩
      else ⟨none, []⟩ := by
  cases data with
  | nil => rfl
  | cons c cs =>
      rw [if_neg (List.cons_ne_nil c cs)]
      rw [matchString, matchStringVirtual, if_neg (by simp), List.append_assoc, List.append_assoc, List.singleton_append,
        List.singleton_append, List.length_cons, List.length_append, List.length_cons]
      rw [formatLoop_open, show name.length + (lit.length + 1) + 1 = name.length + ((lit.length + 1) + 1) by omega,
        formatLoop_literal false ((lit.length + 1) + 1) hname]
      by_cases hpre : name <+: c :: cs
      · rw [if_pos ((literalPrefix_false_iff _ _).mpr hpre), if_pos hpre, formatLoop_close]
        have hl := formatLoop_literal false 1 hlit [] ((c :: cs).drop name.length) (0 + name.length) none
          ([] ++ [(0, 0 + name.length - 0)])
        rw [List.append_nil, formatLoop_end] at hl
        rw [hl, Nat.zero_add, Nat.sub_zero, List.nil_append]
        by_cases hpre' : lit <+: (c :: cs).drop name.length
        · rw [if_pos ((literalPrefix_false_iff _ _).mpr hpre'), if_pos hpre']
          rfl
        · rw [if_neg fun h => hpre' ((literalPrefix_false_iff _ _).mp h), if_neg hpre']
      · rw [if_neg fun h => hpre ((literalPrefix_false_iff _ _).mp h), if_neg hpre]

theorem matchString_generic (data : Bytes) : matchString data (bytes "([%w+-.]+)://") =
    if data.takeWhile schemeByte = [] then ⟨none, []⟩
    else if bytes "://" <+: data.dropWhile schemeByte then
      ⟨some ((data.takeWhile schemeByte).length + 3), [(0, (data.takeWhile schemeByte).length)]⟩
    else ⟨none, [(0, (data.takeWhile schemeByte).length)]⟩ := by
  have hf : bytes "([%w+-.]+)://" = 40 :: 91 :: (bytes "%w+-." ++ 93 :: 43 :: 41 :: bytes "://") := by decide
  cases data with
  | nil => rfl
  | cons c cs =>
      have h := @formatLoop_captureSet _ (bytes "://") _ matchPattern_scheme (by decide) (by decide) 7 (c :: cs) 0
      rw [matchString, matchStringVirtual, if_neg (by simp), hf]
      rw [Nat.zero_add] at h
      exact h

theorem matchString_host (data : Bytes) : matchString data (bytes "([%w.-_]+)") =
    if data.takeWhile hostByte = [] then ⟨none, []⟩
    else ⟨some (data.takeWhile hostByte).length, [(0, (data.takeWhile hostByte).length)]⟩ := by
  have hf : bytes "([%w.-_]+)" = 40 :: 91 :: (bytes "%w.-_" ++ 93 :: 43 :: 41 :: []) := by decide
  cases data with
  | nil => rfl
  | cons c cs =>
      have h := @formatLoop_captureSet _ [] _ matchPattern_host (by decide) (by decide) 7 (c :: cs) 0
      rw [if_pos List.nil_prefix, Nat.zero_add] at h
      rw [matchString, matchStringVirtual, if_neg (by simp), hf]
      exact h

theorem matchString_port (data : Bytes) : matchString data (bytes ":(%d+)") =
    match data with
    | [] => ⟨none, []⟩
    | c :: cs =>
        if c = 58 ∧ cs.takeWhile isdigit ≠ [] then
          ⟨some (1 + (cs.takeWhile isdigit).length), [(1, (cs.takeWhile isdigit).length)]⟩
        else ⟨none, []⟩ := by
  have hf : bytes ":(%d+)" = [58] ++ [40, 37, 100, 43, 41] := by decide
  have hs : takeSpecifier [43, 41] = (⟨true, false⟩, [41]) := by decide
  have hdigit : getPattern [37, 100] 0 = [⟨PATTERN_DIGIT, 0⟩] := by decide
  cases data with
  | nil => rfl
  | cons c cs =>
      have h := @matchStringVirtual_literal false [58] (by decide) (by decide) [40, 37, 100, 43, 41] (c :: cs)
      rw [matchString, hf, h]
      dsimp only
      by_cases hc : c = 58
      · subst hc
        have hpre : literalPrefix false [58] (58 :: cs) = true := by simp [literalPrefix]
        rw [if_pos hpre]
        show formatLoop false 6 (40 :: 37 :: 100 :: [43, 41]) cs 1 none [] = _
        rw [formatLoop_open, formatLoop_class, hs]
        dsimp only
        rw [matchPattern_plus hdigit (fun c => matchChar_digit c 0)]
        by_cases hnone : cs.takeWhile isdigit = []
        · rw [if_pos hnone, if_neg fun h => h.2 hnone]
        · rw [if_neg hnone, if_pos ⟨rfl, hnone⟩]
          dsimp only
          rw [formatLoop_close, formatLoop_end, Nat.add_sub_cancel_left]
          rfl
      · have hpre : ¬ literalPrefix false [58] (c :: cs) = true := by simp [literalPrefix, Ne.symm hc]
        rw [if_neg hpre, if_neg fun h => hc h.1]

theorem matchString_path (data : Bytes) : matchString data (bytes "([" ++ pathAccept ++ bytes "]+)") =
    if data.takeWhile pathByte = [] then ⟨none, []⟩
    else ⟨some (data.takeWhile pathByte).length, [(0, (data.takeWhile pathByte).length)]⟩ := by
  have hf : bytes "([" ++ pathAccept ++ bytes "]+)" = 40 :: 91 :: (pathAccept ++ 93 :: 43 :: 41 :: []) := by decide
  cases data with
  | nil => rfl
  | cons c cs =>
      have h := @formatLoop_captureSet _ [] _ matchPattern_path (by decide) (by decide) 28 (c :: cs) 0
      rw [if_pos List.nil_prefix, Nat.zero_add] at h
      rw [matchString, matchStringVirtual, if_neg (by simp), hf]
      exact h

/-- A mark without a suffix is taken as often as it stands there. -/
theorem matchPattern_mark {mark : UInt8} (hmark : mark = 63 ∨ mark = 35) (data : Bytes) :
    matchPattern data [37, mark] runOne =
      if data.takeWhile (· == mark) = [] then none else some (data.takeWhile (· == mark)).length := by
  have hes : ∀ e ∈ ([.letter mark] : List Elem), e.wellFormed = true := by
    rcases hmark with rfl | rfl
    · decide
    · decide
  have htakes : (fun c => ([.letter mark] : List Elem).any (·.takes c)) = (· == mark) := by
    funext c
    rcases hmark with rfl | rfl
    · simp [Elem.takes, letterHas, capitalLetter]
    · simp [Elem.takes, letterHas, capitalLetter]
  have hloop := matchLoop_run false (getPattern_reads hes 0) (data.length + 1) data (Nat.lt_succ_self _)
  rw [htakes] at hloop
  have hhead : (([37, mark] : Bytes).head? == some 94) = false := rfl
  have hbody : ([.letter mark] : List Elem).flatMap Elem.text = [37, mark] := rfl
  rw [hbody] at hloop
  unfold matchPattern
  simp only [hhead, Bool.false_eq_true, if_false]
  rw [show runOne.runAll = false from rfl, show runOne.runZero = false from rfl, hloop]
  by_cases hnone : data.takeWhile (· == mark) = []
  · rw [if_pos hnone, hnone]
    rfl
  · have hpos : (data.takeWhile (· == mark)).length ≠ 0 := fun h0 => hnone (List.length_eq_zero_iff.mp h0)
    rw [if_neg hnone, if_neg (by simpa using hpos)]

theorem matchString_marked {mark : UInt8} (hmark : mark = 63 ∨ mark = 35) (data : Bytes) :
    matchString data ([37, mark] ++ bytes "([" ++ pathAccept ++ bytes "]+)") =
      if data.takeWhile (· == mark) ≠ [] ∧ (data.dropWhile (· == mark)).takeWhile pathByte ≠ [] then
        ⟨some ((data.takeWhile (· == mark)).length + ((data.dropWhile (· == mark)).takeWhile pathByte).length),
          [((data.takeWhile (· == mark)).length, ((data.dropWhile (· == mark)).takeWhile pathByte).length)]⟩
      else ⟨none, []⟩ := by
  have hf : [37, mark] ++ bytes "([" ++ pathAccept ++ bytes "]+)" =
      37 :: mark :: 40 :: 91 :: (pathAccept ++ 93 :: 43 :: 41 :: []) := by
    have hrest : bytes "([" ++ pathAccept ++ bytes "]+)" = 40 :: 91 :: (pathAccept ++ 93 :: 43 :: 41 :: []) := by decide
    rw [List.append_assoc, List.append_assoc, ← List.append_assoc (bytes "(["), hrest]
    rfl
  have hs : takeSpecifier (40 :: 91 :: (pathAccept ++ 93 :: 43 :: 41 :: [])) =
      (runOne, 40 :: 91 :: (pathAccept ++ 93 :: 43 :: 41 :: [])) := by decide
  have hdrop : data.drop (data.takeWhile (· == mark)).length = data.dropWhile (· == mark) := by
    have h : (data.takeWhile (· == mark) ++ data.dropWhile (· == mark)).drop (data.takeWhile (· == mark)).length =
      data.dropWhile (· == mark) := List.drop_left' rfl
    rwa [List.takeWhile_append_dropWhile] at h
  cases data with
  | nil => rfl
  | cons c cs =>
      rw [matchString, matchStringVirtual, if_neg (by simp), hf]
      show formatLoop false 34 (37 :: mark :: 40 :: 91 :: (pathAccept ++ 93 :: 43 :: 41 :: [])) (c :: cs) 0 none [] = _
      rw [formatLoop_class, hs]
      dsimp only
      rw [matchPattern_mark hmark]
      by_cases hnone : (c :: cs).takeWhile (· == mark) = []
      · rw [if_pos hnone, if_neg fun h => h.1 hnone]
      · rw [if_neg hnone]
        dsimp only
        have h := @formatLoop_captureSet _ [] _ matchPattern_path (by decide) (by decide) 29
          ((c :: cs).dropWhile (· == mark)) ((c :: cs).takeWhile (· == mark)).length
        rw [if_pos List.nil_prefix] at h
        rw [hdrop, Nat.zero_add]
        refine h.trans ?_
        by_cases hq : ((c :: cs).dropWhile (· == mark)).takeWhile pathByte = []
        · rw [if_pos hq, if_neg fun h => h.2 hq]
        · rw [if_neg hq, if_pos ⟨hnone, hq⟩]
          rfl

/-! ## One component after the other -/

theorem drop_run (p : UInt8 → Bool) (data : Bytes) : data.drop (data.takeWhile p).length = data.dropWhile p := by
  have h : (data.takeWhile p ++ data.dropWhile p).drop (data.takeWhile p).length = data.dropWhile p := List.drop_left' rfl
  rwa [List.takeWhile_append_dropWhile] at h

theorem take_run (p : UInt8 → Bool) (data : Bytes) : data.take (data.takeWhile p).length = data.takeWhile p := by
  have h : (data.takeWhile p ++ data.dropWhile p).take (data.takeWhile p).length = data.takeWhile p := List.take_left' rfl
  rwa [List.takeWhile_append_dropWhile] at h

/-- The slice of the first `n` bytes at `c`. -/
theorem take_slice (text : Bytes) (c n : Nat) : text.take (c + n) = text.take c ++ Slice.of ⟨c, n⟩ text := List.take_add ..

/-- The slice of nothing. -/
theorem of_zero (off : Nat) (text : Bytes) : Slice.of ⟨off, 0⟩ text = [] := List.take_zero ..

theorem write_nil (s : Slice) (text : Bytes) : s.write [] text = s.of text := by
  unfold Slice.write
  split
  · rename_i hlen
    unfold Slice.of
    rw [hlen, List.take_zero]
  · rfl

/-- **What a component does to the text**: set or not, the parser goes on behind it, and what is behind `c` by then is the
    component with its delimiter. -/
structure Step (text mark : Bytes) (c : Nat) (r : Nat × Slice) : Prop where
  behind : r.1 = r.2.behind c
  off : r.2.len ≠ 0 → r.2.off = c + mark.length
  delimited : r.2.len ≠ 0 → mark <+: text.drop c
  written : text.take r.1 = text.take c ++ r.2.write mark text
  inside : c ≤ text.length → r.1 ≤ text.length

/-- A component that is not there. -/
theorem step_unset (text mark : Bytes) (c : Nat) : Step text mark c (c, {}) :=
  ⟨rfl, fun h => absurd rfl h, fun h => absurd rfl h, (List.append_nil _).symm, id⟩

/-- A component of `n` bytes behind its delimiter. -/
theorem step_set {text mark run : Bytes} {c : Nat} (hne : run ≠ []) (hpre : mark ++ run <+: text.drop c) :
    Step text mark c (c + mark.length + run.length, ⟨c + mark.length, run.length⟩) := by
  have hlen : run.length ≠ 0 := fun h0 => hne (List.length_eq_zero_iff.mp h0)
  obtain ⟨rest, hrest⟩ := hpre
  have hall : text.take (c + mark.length + run.length) = text.take c ++ (mark ++ run) := by
    rw [Nat.add_assoc, List.take_add, ← hrest, ← List.length_append, List.take_left]
  have hof : Slice.of ⟨c + mark.length, run.length⟩ text = run := by
    unfold Slice.of
    rw [← List.drop_drop, ← hrest, List.append_assoc, List.drop_left, List.take_left]
  refine ⟨?_, fun _ => rfl, fun _ => ⟨run ++ rest, ?_⟩, ?_, ?_⟩
  · unfold Slice.behind
    rw [if_neg hlen]
  · rw [← hrest, List.append_assoc]
  · unfold Slice.write
    dsimp only
    rw [if_neg hlen, hall, hof]
  · intro hc
    have hle := congrArg List.length hrest
    rw [List.length_drop, List.length_append, List.length_append] at hle
    dsimp only
    omega

theorem takeWhile_prefix_drop (p : UInt8 → Bool) (data : Bytes) : ([] : Bytes) ++ data.takeWhile p <+: data :=
  List.takeWhile_prefix p

theorem parseHost_step (text : Bytes) (c : Nat) :
    Step text [] c (parseHost text c) ∧ text.drop (parseHost text c).1 = afterHost (text.drop c) := by
  unfold parseHost
  dsimp only
  rw [matchString_host]
  by_cases hnone : (text.drop c).takeWhile hostByte = []
  · rw [if_pos hnone]
    refine ⟨step_unset text [] c, ?_⟩
    have hall : (text.drop c).takeWhile hostByte ++ (text.drop c).dropWhile hostByte = text.drop c :=
      List.takeWhile_append_dropWhile
    rw [hnone, List.nil_append] at hall
    exact hall.symm
  · rw [if_neg hnone]
    refine ⟨step_set hnone (takeWhile_prefix_drop hostByte (text.drop c)), ?_⟩
    dsimp only
    rw [← List.drop_drop, drop_run]
    rfl

theorem parsePort_step (text : Bytes) (c : Nat) :
    Step text [58] c (parsePort text c) ∧ text.drop (parsePort text c).1 = afterPort (text.drop c) := by
  unfold parsePort
  dsimp only
  rw [matchString_port]
  cases hrest : text.drop c with
  | nil => exact ⟨step_unset text [58] c, hrest⟩
  | cons b cs =>
      dsimp only
      unfold afterPort
      dsimp only
      by_cases hset : b = 58 ∧ cs.takeWhile isdigit ≠ []
      · rw [if_pos hset, if_pos hset]
        obtain ⟨hb, hdigits⟩ := hset
        have htook : Result.took ⟨some (1 + (cs.takeWhile isdigit).length), [(1, (cs.takeWhile isdigit).length)]⟩ =
            some (1 + (cs.takeWhile isdigit).length) := by
          rw [Nat.add_comm]
          rfl
        rw [htook]
        have hpre : [58] ++ cs.takeWhile isdigit <+: text.drop c := by
          rw [hrest, hb, List.singleton_append]
          exact List.cons_prefix_cons.mpr ⟨rfl, List.takeWhile_prefix isdigit⟩
        have hstep := step_set hdigits hpre
        rw [List.length_singleton, Nat.add_assoc] at hstep
        refine ⟨hstep, ?_⟩
        show text.drop (c + (1 + (cs.takeWhile isdigit).length)) = _
        rw [← List.drop_drop, hrest, Nat.add_comm 1, List.drop_succ_cons, drop_run]
      · rw [if_neg hset, if_neg hset]
        exact ⟨step_unset text [58] c, hrest⟩

theorem parsePath_step {text : Bytes} {c : Nat} {r : Nat × Slice} (h : parsePath text c = some r) :
    Step text [] c r ∧ text.drop r.1 = afterPath (text.drop c) := by
  unfold parsePath at h
  dsimp only at h
  rw [matchString_path] at h
  by_cases hnone : (text.drop c).takeWhile pathByte = []
  · rw [if_pos hnone] at h
    exact absurd h (by simp)
  · rw [if_neg hnone] at h
    obtain rfl := Option.some.inj h
    refine ⟨step_set hnone (takeWhile_prefix_drop pathByte (text.drop c)), ?_⟩
    dsimp only
    rw [← List.drop_drop, drop_run]
    rfl

/-- A query or a fragment that is set, with the marks in front of it. -/
theorem parseMarked_set {mark : UInt8} (hmark : mark = 63 ∨ mark = 35) {text : Bytes} {c : Nat}
    (hset : (text.drop c).takeWhile (· == mark) ≠ [] ∧ ((text.drop c).dropWhile (· == mark)).takeWhile pathByte ≠ []) :
    parseMarked mark text c = (c + ((text.drop c).takeWhile (· == mark)).length +
        (((text.drop c).dropWhile (· == mark)).takeWhile pathByte).length,
      ⟨c + ((text.drop c).takeWhile (· == mark)).length,
        (((text.drop c).dropWhile (· == mark)).takeWhile pathByte).length⟩) := by
  unfold parseMarked
  dsimp only
  rw [matchString_marked hmark, if_pos hset]
  have hpos : 0 < ((text.drop c).takeWhile (· == mark)).length := List.length_pos_iff.mpr hset.1
  generalize ((text.drop c).takeWhile (· == mark)).length = m at hpos ⊢
  generalize (((text.drop c).dropWhile (· == mark)).takeWhile pathByte).length = n
  obtain ⟨m, rfl⟩ : ∃ k, m = k + 1 := ⟨m - 1, by omega⟩
  have htook : Result.took ⟨some (m + 1 + n), [(m + 1, n)]⟩ = some (m + 1 + n) := by
    rw [Nat.add_right_comm]
    rfl
  rw [htook]
  show (c + (m + 1 + n), Slice.mk (c + (m + 1)) n) = _
  rw [← Nat.add_assoc c]

theorem parseMarked_unset {mark : UInt8} (hmark : mark = 63 ∨ mark = 35) {text : Bytes} {c : Nat}
    (hset : ¬ ((text.drop c).takeWhile (· == mark) ≠ [] ∧ ((text.drop c).dropWhile (· == mark)).takeWhile pathByte ≠ [])) :
    parseMarked mark text c = (c, {}) := by
  unfold parseMarked
  dsimp only
  rw [matchString_marked hmark, if_neg hset]
  rfl

theorem parseMarked_behind {mark : UInt8} (hmark : mark = 63 ∨ mark = 35) (text : Bytes) (c : Nat) :
    (parseMarked mark text c).1 = (parseMarked mark text c).2.behind c ∧
      text.drop (parseMarked mark text c).1 = afterMarked mark (text.drop c) := by
  unfold afterMarked
  by_cases hset : (text.drop c).takeWhile (· == mark) ≠ [] ∧
      ((text.drop c).dropWhile (· == mark)).takeWhile pathByte ≠ []
  · rw [parseMarked_set hmark hset, if_pos hset]
    constructor
    · unfold Slice.behind
      rw [if_neg fun h0 => hset.2 (List.length_eq_zero_iff.mp h0)]
    · dsimp only
      rw [← List.drop_drop, ← List.drop_drop, drop_run, drop_run]
  · rw [parseMarked_unset hmark hset, if_neg hset]
    exact ⟨rfl, rfl⟩

/-- With one mark the component is where it should be. -/
theorem parseMarked_step {mark : UInt8} (hmark : mark = 63 ∨ mark = 35) {text : Bytes} {c : Nat}
    (hone : ¬ Doubled mark (text.drop c)) : Step text [mark] c (parseMarked mark text c) := by
  by_cases hset : (text.drop c).takeWhile (· == mark) ≠ [] ∧
      ((text.drop c).dropWhile (· == mark)).takeWhile pathByte ≠ []
  · have hpos : 0 < ((text.drop c).takeWhile (· == mark)).length := List.length_pos_iff.mpr hset.1
    have hlen : ((text.drop c).takeWhile (· == mark)).length = 1 := by
      by_contra hne
      exact hone ⟨by omega, hset.2⟩
    have hmarks : (text.drop c).takeWhile (· == mark) = [mark] := by
      obtain ⟨b, hb⟩ := List.length_eq_one_iff.mp hlen
      have hmem : b ∈ (text.drop c).takeWhile (· == mark) := hb ▸ List.mem_singleton_self b
      have heq : (b == mark) = true := @List.mem_takeWhile_imp _ (· == mark) _ _ hmem
      rw [hb, beq_iff_eq.mp heq]
    have hpre : [mark] ++ ((text.drop c).dropWhile (· == mark)).takeWhile pathByte <+: text.drop c := by
      have hall : (text.drop c).takeWhile (· == mark) ++ (text.drop c).dropWhile (· == mark) = text.drop c :=
        List.takeWhile_append_dropWhile
      conv_rhs => rw [← hall, hmarks]
      exact List.prefix_append_right_inj [mark] |>.mpr (List.takeWhile_prefix pathByte)
    rw [parseMarked_set hmark hset, hmarks]
    exact step_set hset.2 hpre
  · rw [parseMarked_unset hmark hset]
    exact step_unset text [mark] c

/-- With more than one it is not. -/
theorem parseMarked_doubled {mark : UInt8} (hmark : mark = 63 ∨ mark = 35) {text : Bytes} {c : Nat}
    (htwo : Doubled mark (text.drop c)) :
    (parseMarked mark text c).2.len ≠ 0 ∧ (parseMarked mark text c).2.off ≠ c + 1 := by
  obtain ⟨hlen, hq⟩ := htwo
  have hmarks : (text.drop c).takeWhile (· == mark) ≠ [] := by
    intro hnil
    rw [hnil, List.length_nil] at hlen
    omega
  rw [parseMarked_set hmark ⟨hmarks, hq⟩]
  refine ⟨fun h0 => hq (List.length_eq_zero_iff.mp h0), ?_⟩
  dsimp only
  omega

/-! ## The scheme -/

/-- A literal scheme, where it is read: its name is the whole run of scheme bytes. -/
theorem literal_run {name text : Bytes} (hname : ∀ c ∈ name, schemeByte c = true) (hpre : name <+: text)
    (hsep : bytes "://" <+: text.drop name.length) :
    text.takeWhile schemeByte = name ∧ text.dropWhile schemeByte = text.drop name.length := by
  obtain ⟨rest, rfl⟩ := hpre
  rw [List.drop_left] at hsep
  obtain ⟨rest, rfl⟩ := hsep
  have hstop : ∀ tail : Bytes, (bytes "://" ++ tail).takeWhile schemeByte = [] := fun _ => rfl
  constructor
  · rw [List.takeWhile_append_of_pos hname, hstop, List.append_nil]
  · rw [List.dropWhile_append_of_pos hname, List.drop_left]
    rfl

/-- What the matches for `https` and `http` come to. -/
theorem matchString_name {name : Bytes} (hne : name ≠ []) (hlit : name.all literalByte = true)
    (hname : ∀ c ∈ name, schemeByte c = true) (text : Bytes) :
    (text.takeWhile schemeByte = name ∧ bytes "://" <+: text.dropWhile schemeByte ∧
        matchString text ([40] ++ name ++ [41] ++ bytes "://") = ⟨some (name.length + 3), [(0, name.length)]⟩) ∨
      ((matchString text ([40] ++ name ++ [41] ++ bytes "://")).used = none ∧
        ((matchString text ([40] ++ name ++ [41] ++ bytes "://")).captures = [] ∨ text.takeWhile schemeByte ≠ [])) := by
  rw [matchString_captureLiteral hlit (by decide)]
  by_cases hnil : text = []
  · rw [if_pos hnil]
    exact .inr ⟨rfl, .inl rfl⟩
  · rw [if_neg hnil]
    by_cases hpre : name <+: text
    · rw [if_pos hpre]
      by_cases hsep : bytes "://" <+: text.drop name.length
      · rw [if_pos hsep]
        obtain ⟨hrun, hrest⟩ := literal_run hname hpre hsep
        exact .inl ⟨hrun, hrest ▸ hsep, rfl⟩
      · rw [if_neg hsep]
        refine .inr ⟨rfl, .inr ?_⟩
        -- the text begins with a byte of the name
        obtain ⟨rest, rfl⟩ := hpre
        rw [List.takeWhile_append_of_pos hname]
        exact fun h0 => hne (List.append_eq_nil_iff.mp h0).1
    · rw [if_neg hpre]
      exact .inr ⟨rfl, .inl rfl⟩

/-- **The scheme**: the run of scheme bytes, set whether or not `://` follows. -/
theorem parseScheme_eq (text : Bytes) : ∃ https, parseScheme text =
    (if bytes "://" <+: text.dropWhile schemeByte ∧ text.takeWhile schemeByte ≠ [] then
        (text.takeWhile schemeByte).length + 3 else 0,
      if text.takeWhile schemeByte = [] then {} else ⟨0, (text.takeWhile schemeByte).length⟩, https) := by
  have hf : bytes "(https)://" = [40] ++ bytes "https" ++ [41] ++ bytes "://" := by decide
  have hf' : bytes "(http)://" = [40] ++ bytes "http" ++ [41] ++ bytes "://" := by decide
  have hne : bytes "https" ≠ [] := by decide
  have hne' : bytes "http" ≠ [] := by decide
  have hlen : (bytes "https").length = 5 := by decide
  have hlen' : (bytes "http").length = 4 := by decide
  unfold parseScheme
  rw [hf, hf']
  dsimp only
  rcases @matchString_name (bytes "https") hne (by decide) (by decide +kernel) text with ⟨hrun, hsep, hm⟩ | ⟨hused, hcaps⟩
  · rw [hm, hrun, if_pos ⟨hsep, hne⟩, if_neg hne, hlen]
    exact ⟨true, rfl⟩
  · have htook : Result.took (matchString text ([40] ++ bytes "https" ++ [41] ++ bytes "://")) = none := by
      unfold Result.took
      rw [hused]
    rw [htook]
    dsimp only
    rcases @matchString_name (bytes "http") hne' (by decide) (by decide +kernel) text with ⟨hrun, hsep, hm⟩ | ⟨hused', hcaps'⟩
    · rw [hm, hrun, if_pos ⟨hsep, hne'⟩, if_neg hne', hlen']
      exact ⟨false, rfl⟩
    · have htook' : Result.took (matchString text ([40] ++ bytes "http" ++ [41] ++ bytes "://")) = none := by
        unfold Result.took
        rw [hused']
      rw [htook']
      dsimp only
      rw [matchString_generic]
      by_cases hnone : text.takeWhile schemeByte = []
      · -- nothing was captured before
        have hfirst := hcaps.resolve_right fun h => h hnone
        have hsecond := hcaps'.resolve_right fun h => h hnone
        rw [if_pos hnone, if_neg fun h => h.2 hnone, if_pos hnone]
        refine ⟨false, ?_⟩
        unfold captured
        rw [hfirst, hsecond]
        rfl
      · rw [if_neg hnone, if_neg hnone]
        by_cases hsep : bytes "://" <+: text.dropWhile schemeByte
        · rw [if_pos hsep, if_pos ⟨hsep, hnone⟩]
          exact ⟨false, rfl⟩
        · rw [if_neg hsep, if_neg fun h => hsep h.1]
          exact ⟨false, rfl⟩

/-- Without a trap the scheme is written back with its delimiter, and the rest of the text is behind it. -/
theorem parseScheme_whole {text : Bytes} (h : ¬ Torn text) :
    ((parseScheme text).2.1.len ≠ 0 → (parseScheme text).2.1.off = 0) ∧
    ((parseScheme text).2.1.len ≠ 0 →
      bytes "://" <+: text.drop ((parseScheme text).2.1.off + (parseScheme text).2.1.len)) ∧
    (parseScheme text).1 = (if (parseScheme text).2.1.len = 0 then 0
      else (parseScheme text).2.1.off + (parseScheme text).2.1.len + 3) ∧
    text.take (parseScheme text).1 = (if (parseScheme text).2.1.len = 0 then []
      else (parseScheme text).2.1.of text ++ bytes "://") ∧
    (parseScheme text).1 ≤ text.length ∧ text.drop (parseScheme text).1 = afterScheme text := by
  obtain ⟨https, heq⟩ := parseScheme_eq text
  rw [heq]
  unfold afterScheme
  by_cases hnone : text.takeWhile schemeByte = []
  · have hleft : ¬ (text.takeWhile schemeByte ≠ [] ∧ bytes "://" <+: text.dropWhile schemeByte) := fun h => h.1 hnone
    rw [if_neg fun h => h.2 hnone, if_pos hnone, if_neg hleft]
    exact ⟨fun h0 => absurd rfl h0, fun h0 => absurd rfl h0, rfl, rfl, Nat.zero_le _, rfl⟩
  · have hsep : bytes "://" <+: text.dropWhile schemeByte := by
      by_contra hn
      exact h ⟨hnone, hn⟩
    have hlen : (text.takeWhile schemeByte).length ≠ 0 := fun h0 => hnone (List.length_eq_zero_iff.mp h0)
    have hwhole : text.takeWhile schemeByte ≠ [] ∧ bytes "://" <+: text.dropWhile schemeByte := ⟨hnone, hsep⟩
    rw [if_pos hwhole, if_pos ⟨hsep, hnone⟩, if_neg hnone]
    dsimp only
    rw [if_neg hlen, if_neg hlen, Nat.zero_add, drop_run]
    obtain ⟨rest, hrest⟩ := hsep
    have hall : text.takeWhile schemeByte ++ text.dropWhile schemeByte = text := List.takeWhile_append_dropWhile
    have hsize := congrArg List.length hall
    have hsize' := congrArg List.length hrest
    rw [List.length_append] at hsize hsize'
    have hthree : (bytes "://").length = 3 := by decide
    refine ⟨fun _ => rfl, fun _ => ⟨rest, hrest⟩, rfl, ?_, by omega, ?_⟩
    · unfold Slice.of
      rw [List.take_add, drop_run, take_run, List.drop_zero, ← hrest, ← hthree, List.take_left]
      dsimp only
      rw [take_run]
    · rw [← List.drop_drop, drop_run]

/-- In a trap it is set without its delimiter. -/
theorem parseScheme_torn {text : Bytes} (h : Torn text) : (parseScheme text).2.1.len ≠ 0 ∧
    ¬ bytes "://" <+: text.drop ((parseScheme text).2.1.off + (parseScheme text).2.1.len) := by
  obtain ⟨https, heq⟩ := parseScheme_eq text
  obtain ⟨hrun, hsep⟩ := h
  rw [heq, if_neg hrun]
  dsimp only
  rw [Nat.zero_add, drop_run]
  exact ⟨fun h0 => hrun (List.length_eq_zero_iff.mp h0), hsep⟩

/-! ## The whole URL -/

theorem Step.mark_at {text : Bytes} {mark : UInt8} {c : Nat} {r : Nat × Slice} (h : Step text [mark] c r)
    (hset : r.2.len ≠ 0) : text[r.2.off - 1]? = some mark := by
  obtain ⟨rest, hrest⟩ := h.delimited hset
  rw [h.off hset, List.length_singleton, Nat.add_sub_cancel]
  have hget : (text.drop c)[0]? = some mark := by
    rw [← hrest]
    rfl
  rw [List.getElem?_drop, Nat.add_zero] at hget
  exact hget

/-- **Which URLs are split into their components.** Wherever `hin_parse_uri` succeeds, the components account for the text
    that was used exactly when the URL is without a trap. -/
theorem parse_uri_iff (url : Bytes) (len : Int) (u : Uri) (h : hinParseUri url len = some u) :
    u.Faithful (urlText url len) ↔ Plain (urlText url len) := by
  unfold hinParseUri at h
  dsimp only at h
  generalize urlText url len = text at h ⊢
  obtain ⟨hhost, hhostd⟩ := parseHost_step text (parseScheme text).1
  obtain ⟨hport, hportd⟩ := parsePort_step text (parseHost text (parseScheme text).1).1
  cases hp : parsePath text (parsePort text (parseHost text (parseScheme text).1).1).1 with
  | none =>
      rw [hp] at h
      exact absurd h (by simp)
  | some r =>
      rw [hp] at h
      obtain ⟨hpath, hpathd⟩ := parsePath_step hp
      obtain ⟨hqb, hqd⟩ := parseMarked_behind (.inl rfl : (63 : UInt8) = 63 ∨ (63 : UInt8) = 35) text r.1
      obtain ⟨hfb, -⟩ := parseMarked_behind (.inr rfl : (35 : UInt8) = 63 ∨ (35 : UInt8) = 35) text (parseQuery text r.1).1
      have hu := (Option.some.inj h).symm
      by_cases htorn : Torn text
      · -- the scheme stands there without its delimiter
        constructor
        · intro hf
          obtain ⟨hlen, hsep⟩ := parseScheme_torn htorn
          have hdel := hf.delimited.scheme
          rw [hu] at hdel
          exact absurd (hdel hlen) hsep
        · intro hplain
          exact absurd htorn hplain.1
      · obtain ⟨hsoff, hssep, hsend, hswritten, hsle, hsd⟩ := parseScheme_whole htorn
        -- where each component begins
        have hhostAt : u.hostAt = (parseScheme text).1 := by
          rw [hu]
          exact hsend.symm
        have hportAt : u.portAt = (parseHost text (parseScheme text).1).1 := by
          unfold Uri.portAt
          rw [hhostAt, hu]
          exact hhost.behind.symm
        have hpathAt : u.pathAt = (parsePort text (parseHost text (parseScheme text).1).1).1 := by
          unfold Uri.pathAt
          rw [hportAt, hu]
          exact hport.behind.symm
        have hqueryAt : u.queryAt = r.1 := by
          unfold Uri.queryAt
          rw [hpathAt, hu]
          exact hpath.behind.symm
        have hfragmentAt : u.fragmentAt = (parseQuery text r.1).1 := by
          unfold Uri.fragmentAt
          rw [hqueryAt, hu]
          exact hqb.symm
        have hrest : text.drop r.1 = afterPath (afterPort (afterHost (afterScheme text))) := by
          rw [hpathd, hportd, hhostd, hsd]
        have hrest' : text.drop (parseQuery text r.1).1 =
            afterMarked 63 (afterPath (afterPort (afterHost (afterScheme text)))) := by
          rw [← hrest]
          exact hqd
        unfold Plain
        rw [← hrest', ← hrest]
        constructor
        · intro hf
          refine ⟨htorn, fun htwo => ?_, fun htwo => ?_⟩
          · obtain ⟨hlen, hoff⟩ := parseMarked_doubled (.inl rfl) htwo
            have hcon := hf.consecutive.query
            rw [hqueryAt, hu] at hcon
            exact hoff (hcon hlen)
          · obtain ⟨hlen, hoff⟩ := parseMarked_doubled (.inr rfl) htwo
            have hcon := hf.consecutive.fragment
            rw [hfragmentAt, hu] at hcon
            exact hoff (hcon hlen)
        · rintro ⟨-, hquery, hfragment⟩
          have hq : Step text [63] r.1 (parseQuery text r.1) := parseMarked_step (.inl rfl) hquery
          have hg : Step text [35] (parseQuery text r.1).1 (parseFragment text (parseQuery text r.1).1) :=
            parseMarked_step (.inr rfl) hfragment
          refine ⟨?_, ⟨?_, ?_, ?_, ?_, ?_, ?_, ?_⟩, ?_, ⟨?_, ?_, ?_, ?_⟩⟩
          · rw [hu]
            exact hg.inside (hq.inside (hpath.inside (hport.inside (hhost.inside hsle))))
          · rw [hu]
            exact hsoff
          · rw [hhostAt, hu]
            exact hhost.off
          · rw [hportAt, hu]
            exact hport.off
          · rw [hpathAt, hu]
            exact hpath.off
          · rw [hqueryAt, hu]
            exact hq.off
          · rw [hfragmentAt, hu]
            exact hg.off
          · rw [hfragmentAt, hu]
            dsimp only
            rw [← hg.behind]
          · rw [hu]
            unfold Uri.written Slice.of
            dsimp only
            rw [List.drop_zero, hg.written, hq.written, hpath.written, hport.written, hhost.written, hswritten,
              write_nil, write_nil]
            rfl
          · rw [hu]
            exact hssep
          · rw [hu]
            exact hport.mark_at
          · rw [hu]
            exact hq.mark_at
          · rw [hu]
            exact hg.mark_at

/-- A URL with all its components. -/
def fullUrl : Bytes := bytes "http://a.b:80/x?q#f"

theorem parse_uri_iff_full : ∃ u, hinParseUri fullUrl 0 = some u ∧ (u.Faithful (urlText fullUrl 0) ↔ Plain (urlText fullUrl 0)) := by
  have hsome : (hinParseUri fullUrl 0).isSome = true := by decide
  obtain ⟨u, hu⟩ := Option.isSome_iff_exists.mp hsome
  exact ⟨u, hu, parse_uri_iff fullUrl 0 u hu⟩

/-- A host with a port and no scheme: the host is the scheme as well. -/
theorem parse_uri_torn : ¬ ∀ (url : Bytes) (len : Int) (u : Uri), hinParseUri url len = some u →
    u.Faithful (urlText url len) := by
  intro h
  have hdel := (h (bytes "a:80/x") 0 ⟨⟨0, 1⟩, ⟨0, 1⟩, ⟨2, 2⟩, ⟨4, 2⟩, {}, {}, ⟨0, 6⟩, false⟩ (by decide)).delimited.scheme
  exact absurd (hdel (by decide)) (by decide)

end ParseUri
end Http
end Hin9
