import Hin9.Basic.Bytes

/-!
# `Basic.Pattern` — the pattern matcher (`basic_pattern.c`)

The matcher every parser of the server is built on. A format is a list of bytes: literals, `%`-classes,
`[…]` sets (a leading `^` negates), `( )` captures and the suffixes `+ * ?`. `matchPattern` counts how many
bytes of a view one item takes, `matchStringVirtual` runs a whole format, and `matchString`/`matchiString`
are the two entry points (case sensitive / insensitive literals).

The `while (1)` loops of the source run on fuel: every further round of the outer loop of `match_pattern`
has consumed a byte of the view, and every round of the format loop a byte of the format, so one more than
their length is enough.
-/

namespace Hin9
namespace Pattern

/-! ## Class masks -/

def PATTERN_LETTER : UInt32 := 1
def PATTERN_SPACE : UInt32 := 2
def PATTERN_CONTROL : UInt32 := 4
def PATTERN_DIGIT : UInt32 := 8
def PATTERN_LOWER : UInt32 := 0x10
def PATTERN_UPPER : UInt32 := 0x20
def PATTERN_PUNCTUATION : UInt32 := 0x40
def PATTERN_ALPHANUM : UInt32 := 0x80
def PATTERN_HEXA : UInt32 := 0x100
def PATTERN_NULL_CHAR : UInt32 := 0x200
def PATTERN_CUSTOM : UInt32 := 0x400
def PATTERN_NEGATIVE : UInt32 := 0x800
def PATTERN_ALL : UInt32 := 0x1000

/-- `RUN_ALL` and `RUN_ZERO`: may the item repeat, may it be absent. -/
structure Specifier where
  runAll : Bool
  runZero : Bool
deriving Repr, DecidableEq

def runOne : Specifier := ⟨false, false⟩

def getSpecifier (x : UInt8) : Specifier :=
  if x = 43 then ⟨true, false⟩        -- '+'
  else if x = 42 then ⟨true, true⟩    -- '*'
  else if x = 63 then ⟨false, true⟩   -- '?'
  else runOne

def hasMask (mask bit : UInt32) : Bool := mask &&& bit != 0

def matchChar (c : UInt8) (mask : UInt32) (ch : UInt8) : Bool :=
  (hasMask mask PATTERN_CUSTOM && c == ch)
    || (hasMask mask PATTERN_SPACE && isspace c)
    || (hasMask mask PATTERN_ALPHANUM && isalnum c)
    || (hasMask mask PATTERN_LETTER && isalpha c)
    || (hasMask mask PATTERN_DIGIT && isdigit c)
    || (hasMask mask PATTERN_CONTROL && iscntrl c)
    || (hasMask mask PATTERN_PUNCTUATION && ispunct c)
    || (hasMask mask PATTERN_LOWER && islower c)
    || (hasMask mask PATTERN_UPPER && isupper c)
    || (hasMask mask PATTERN_HEXA && isxdigit c)
    || (hasMask mask PATTERN_NULL_CHAR && c == 0)
    || (hasMask mask PATTERN_NEGATIVE && c != ch)
    || (hasMask mask PATTERN_ALL && c != 0)

/-- The mask of the class letter `k` after a `%`; `none` where the letter stands for itself. -/
def classMask (k : UInt8) : Option UInt32 :=
  if k = 97 then some PATTERN_LETTER                 -- a
  else if k = 65 then some (~~~PATTERN_LETTER)       -- A
  else if k = 115 then some PATTERN_SPACE            -- s
  else if k = 83 then some (~~~PATTERN_SPACE)        -- S
  else if k = 99 then some PATTERN_CONTROL           -- c
  else if k = 67 then some (~~~PATTERN_CONTROL)      -- C
  else if k = 100 then some PATTERN_DIGIT            -- d
  else if k = 68 then some (~~~PATTERN_DIGIT)        -- D
  else if k = 108 then some PATTERN_LOWER            -- l
  else if k = 76 then some (~~~PATTERN_LOWER)        -- L
  else if k = 117 then some PATTERN_UPPER            -- u
  else if k = 85 then some (~~~PATTERN_UPPER)        -- U
  else if k = 112 then some PATTERN_PUNCTUATION      -- p
  else if k = 80 then some (~~~PATTERN_PUNCTUATION)  -- P
  else if k = 119 then some PATTERN_ALPHANUM         -- w
  else if k = 87 then some (~~~PATTERN_ALPHANUM)     -- W
  else if k = 120 then some PATTERN_HEXA             -- x
  else if k = 88 then some (~~~PATTERN_HEXA)         -- X
  else if k = 122 then some PATTERN_NULL_CHAR        -- z
  else if k = 90 then some (~~~PATTERN_NULL_CHAR)    -- Z
  else if k = 121 then some PATTERN_ALL              -- y
  else if k = 89 then some (~~~PATTERN_ALL)          -- Y
  else none

/-- One item of a set: the mask it tests and the byte `*character` holds afterwards. -/
structure Item where
  mask : UInt32
  ch : UInt8
deriving Repr, DecidableEq

/-- `get_pattern` over a whole set. A class leaves `*character` as it was, so the byte is carried along. -/
def getPattern : Bytes → UInt8 → List Item
  | [], _ => []
  | [c], _ => if c = 37 then [⟨PATTERN_CUSTOM, 0⟩] else [⟨PATTERN_CUSTOM, c⟩]
  | c :: k :: rest, ch =>
      if c = 37 then
        match classMask k with
        | some m => ⟨m, ch⟩ :: getPattern rest ch
        | none => ⟨PATTERN_CUSTOM, k⟩ :: getPattern rest k
      else ⟨PATTERN_CUSTOM, c⟩ :: getPattern (k :: rest) c

/-! ## `match_pattern` -/

/-- The bytes `while (str < max_str && match_char (…)) str++` steps over. -/
def runMatch (it : Item) (str : Bytes) : Nat := (str.takeWhile fun c => matchChar c it.mask it.ch).length

/-- One pass of the inner loop over the items of the set: the bytes consumed, and whether any item matched. -/
def itemLoop (runAll : Bool) : List Item → Bytes → Nat × Bool
  | [], _ => (0, false)
  | it :: its, str =>
      match str with
      | [] => itemLoop runAll its []
      | c :: cs =>
          if matchChar c it.mask it.ch then
            let more := if runAll then runMatch it cs else 0
            let r := itemLoop runAll its (cs.drop more)
            (1 + more + r.1, true)
          else itemLoop runAll its (c :: cs)

/-- The outer loop of `match_pattern`: the number of bytes consumed. A negated set stops in front of the
    first byte it names, any other set stops after a pass in which no item matched. -/
def matchLoop (negative runAll : Bool) (items : List Item) : Nat → Bytes → Nat
  | 0, _ => 0
  | fuel + 1, str =>
      let r := itemLoop runAll items str
      if negative then
        if r.2 then r.1 - 1
        else match str with
          | [] => 0
          | _ :: cs => 1 + matchLoop negative runAll items fuel cs
      else if r.2 then r.1 + matchLoop negative runAll items fuel (str.drop r.1)
      else 0

/-- `match_pattern`: how many bytes of `data` the item `pattern` takes, `none` for `-1`. -/
def matchPattern (data pattern : Bytes) (spec : Specifier) : Option Nat :=
  let negative := pattern.head? == some 94
  let items := getPattern (if negative then pattern.tail else pattern) 0
  let count := matchLoop negative spec.runAll items (data.length + 1) data
  if count = 0 && !spec.runZero then none else some count

/-! ## `match_string_virtual` -/

/-- The body of a `[…]` set and the format after it; `none` when the `]` is missing. A `]` right after a `%`
    does not close the set. -/
def scanSet (prev : UInt8) : Bytes → Option (Bytes × Bytes)
  | [] => none
  | c :: cs =>
      if c = 93 && prev != 37 then some ([], cs)
      else (scanSet c cs).map fun r => (c :: r.1, r.2)

/-- What a match call leaves behind: the bytes used (`none` for `-1`) and the captures written, in order,
    as offset and length within the view. Captures are written while the match is still going on, so a
    failed match may leave some. -/
structure Result where
  used : Option Nat
  captures : List (Nat × Nat)
deriving Repr, DecidableEq

/-- The suffix specifier at the front of a format, and the format after it. -/
def takeSpecifier : Bytes → Specifier × Bytes
  | [] => (runOne, [])
  | x :: rest => if getSpecifier x = runOne then (runOne, x :: rest) else (getSpecifier x, rest)

/-- The main loop of `match_string_virtual`: `ptr` is the offset reached in the view, `data` the bytes from
    there on, `start` the open capture. -/
def formatLoop (nocase : Bool) : Nat → Bytes → Bytes → Nat → Option Nat → List (Nat × Nat) → Result
  | 0, _, _, _, _, caps => ⟨none, caps⟩
  | _ + 1, [], _, ptr, start, caps => ⟨if start.isSome then none else some ptr, caps⟩
  | fuel + 1, f :: fmt, data, ptr, start, caps =>
      if f = 37 then            -- '%'
        let k := fmt.head?.getD 0
        let sp := takeSpecifier fmt.tail
        match matchPattern data [37, k] sp.1 with
        | some used => formatLoop nocase fuel sp.2 (data.drop used) (ptr + used) start caps
        | none => ⟨none, caps⟩
      else if f = 91 then       -- '['
        match scanSet 91 fmt with
        | none => ⟨none, caps⟩
        | some (set, rest) =>
            let sp := takeSpecifier rest
            match matchPattern data set sp.1 with
            | some used => formatLoop nocase fuel sp.2 (data.drop used) (ptr + used) start caps
            | none => ⟨none, caps⟩
      else if f = 40 then       -- '('
        formatLoop nocase fuel fmt data ptr (some ptr) caps
      else if f = 41 then       -- ')'
        match start with
        | some s => formatLoop nocase fuel fmt data ptr none (caps ++ [(s, ptr - s)])
        | none => ⟨none, caps⟩
      else
        match data with
        | [] => ⟨none, caps⟩
        | c :: cs =>
            if (if nocase then toupper f == toupper c else f == c) then
              formatLoop nocase fuel fmt cs (ptr + 1) start caps
            else ⟨none, caps⟩

def matchStringVirtual (nocase : Bool) (data format : Bytes) : Result :=
  if data.isEmpty then ⟨if format.isEmpty then some 0 else none, []⟩
  else formatLoop nocase (format.length + 1) format data 0 none []

/-- `match_string`: on success the view advances by the bytes used. -/
def matchString (data format : Bytes) : Result := matchStringVirtual false data format

/-- `matchi_string`. -/
def matchiString (data format : Bytes) : Result := matchStringVirtual true data format

/-- `matchi_string_equal`: the whole view has to be used up; the view itself is put back. -/
def matchiStringEqual (data format : Bytes) : Result :=
  let r := matchStringVirtual true data format
  ⟨if r.used = some data.length then r.used else none, r.captures⟩

/-- `match_string_equal`. -/
def matchStringEqual (data format : Bytes) : Result :=
  let r := matchStringVirtual false data format
  ⟨if r.used = some data.length then r.used else none, r.captures⟩

/-- The bytes used by a match the caller tests with `> 0`. -/
def Result.took (r : Result) : Option Nat :=
  match r.used with
  | some (n + 1) => some (n + 1)
  | _ => none

/-- The `i`-th capture as bytes of the view (empty when it was never written). -/
def Result.capture (r : Result) (data : Bytes) (i : Nat) : Bytes :=
  match r.captures[i]? with
  | some (s, n) => (data.drop s).take n
  | none => []

end Pattern
end Hin9
