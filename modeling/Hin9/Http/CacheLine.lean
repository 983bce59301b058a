import Hin9.Http.CacheControl
import Hin9.Http.ForwardedLength

/-!
# `Http.CacheLine` — the cache directives of a backend's head (`http_misc.c`, `cgi_parse.c`, `headers.c`)

The readers of heads hand the value of a `Cache-Control` line to `httpd_parse_cache_str` as a pointer and a length. A length
of zero stands there for a text whose length is not known: the text then goes up to the next NUL, through the lines and the
body behind the line. `cache_line_alone_iff` says that this is the one way in which a line reads more than itself.

Memory is what is known of it. A read that would go on behind the known bytes gives `none`, so a result that is there for
the bytes of the line alone is one that no other byte was read for.
-/

namespace Hin9
namespace Http

open Pattern
open RequestFields (cacheOption httpdParseCacheStr)

/-! ## Reading memory -/

/-- `strlen`. -/
def strlen (mem : Bytes) : Option Nat := mem.findIdx? (· == 0)

/-- `atoi`, of a text that the known bytes end. -/
def atoiIn (mem : Bytes) : Option Int :=
  let s := mem.dropWhile isspace
  let s := if s.head? == some 45 || s.head? == some 43 then s.tail else s
  if s.dropWhile isdigit = [] then none else some (atoi mem)

/-- One option, with what stands in memory `behind` it. Only a number is read on there. -/
def cacheOptionIn (opt behind : Bytes) (r : UInt32 × Option Int) : Option (UInt32 × Option Int) :=
  let age := matchString opt (bytes "max-age=%s*(%d+)")
  if age.took.isSome then
    (atoiIn ((opt ++ behind).drop ((age.captures[0]?.map Prod.fst).getD 0))).map fun n => (r.1 ||| HIN_CACHE_MAX_AGE, some n)
  else some (cacheOption opt r)

/-- The loop of `httpd_parse_cache_str`. -/
def cacheStrIn (behind : Bytes) : Nat → UInt32 × Option Int → Bytes → Option (UInt32 × Option Int)
  | 0, r, _ => some r
  | fuel + 1, r, source =>
      let m := matchString source (bytes "%s*([%w%-=]+)")
      match m.took with
      | none => some r
      | some used =>
          (cacheOptionIn (m.capture source 0) (source.drop used ++ behind) r).bind fun r =>
            match (matchString (source.drop used) (bytes "%s*,%s*")).took with
            | none => some r
            | some sep => cacheStrIn behind fuel r ((source.drop used).drop sep)

/-- `httpd_parse_cache_str`, of a text that stands at the start of memory. -/
def httpdParseCacheMem (mem : Bytes) (len : Nat) : Option (UInt32 × Option Int) :=
  (if len = 0 then strlen mem else some len).bind fun len =>
    cacheStrIn (mem.drop len) (len + 1) (0, none) (mem.take len)

def cacheControl : Bytes := bytes "Cache-Control"

/-- What the readers of heads store of a line that stands at the start of memory. -/
def cacheControlLine (mem : Bytes) (len : Nat) : Option (UInt32 × Option Int) :=
  match (matchiString (mem.take len) (bytes "Cache-Control:")).took with
  | some n => httpdParseCacheMem (mem.drop n) (len - n)
  | none => some (0, none)

/-! ## A text that is not empty -/

theorem atoiIn_run {digits rest : Bytes} (hne : digits ≠ []) (hdigits : ∀ c ∈ digits, isdigit c = true) (hrest : rest ≠ [])
    (hstop : ∀ c ∈ rest.head?, isdigit c = false) : atoiIn (digits ++ rest) = some (atoi digits) := by
  have hatoi := @atoi_run [] _ _ (by simp) hne hdigits hstop
  rw [List.nil_append] at hatoi
  obtain ⟨c, cs, rfl⟩ := List.exists_cons_of_ne_nil hne
  obtain ⟨hspace, hminus, hplus⟩ := isdigit_facts (hdigits c List.mem_cons_self)
  obtain ⟨d, ds, rfl⟩ := List.exists_cons_of_ne_nil hrest
  have hdrop : (c :: cs ++ d :: ds).dropWhile isspace = c :: cs ++ d :: ds := by
    rw [List.cons_append, List.dropWhile_cons_of_neg (by simp [hspace])]
  have hleft : (c :: cs ++ d :: ds).dropWhile isdigit = d :: ds := by
    rw [List.dropWhile_append_of_pos hdigits, List.dropWhile_cons_of_neg (by simp [hstop d rfl])]
  have hsign : (((c :: cs ++ d :: ds).head? == some 45) || ((c :: cs ++ d :: ds).head? == some 43)) = false := by
    simp [hminus, hplus]
  unfold atoiIn
  dsimp only
  rw [hdrop, hsign, if_neg Bool.false_ne_true, hleft, if_neg hrest, hatoi]

/-- An option is read as it is in its text, where no digit stands behind it. -/
theorem cacheOptionIn_eq {opt behind : Bytes} (hbehind : behind ≠ []) (hstop : ∀ c ∈ behind.head?, isdigit c = false)
    (r : UInt32 × Option Int) : cacheOptionIn opt behind r = some (cacheOption opt r) := by
  unfold cacheOptionIn
  dsimp only
  split
  · rename_i htook
    have hage := htook
    rw [ageDigits_took] at hage
    obtain ⟨digits, hage⟩ := Option.isSome_iff_exists.mp hage
    obtain ⟨hcapture, hne, hdigits⟩ := ageDigits_capture hage
    have hmatch : bytes "max-age=" <+: opt ∧ ((opt.drop 8).dropWhile isspace).takeWhile isdigit ≠ [] := by
      by_contra hno
      rw [ageDigits, if_neg hno] at hage
      exact absurd hage (by simp)
    have hlong : 8 + ((opt.drop 8).takeWhile isspace).length ≤ opt.length := by
      have h8 := hmatch.1.length_le
      have hlen : (bytes "max-age=").length = 8 := by decide
      have hrun : ((opt.drop 8).takeWhile isspace).length ≤ (opt.drop 8).length := (List.takeWhile_prefix isspace).length_le
      rw [List.length_drop] at hrun
      omega
    -- the digits, and what is behind them in the option and in memory
    have hsplit : opt.drop (8 + ((opt.drop 8).takeWhile isspace).length) =
        digits ++ ((opt.drop 8).dropWhile isspace).dropWhile isdigit := by
      have hd : digits = ((opt.drop 8).dropWhile isspace).takeWhile isdigit := by
        rw [ageDigits, if_pos hmatch] at hage
        exact (Option.some.inj hage).symm
      rw [← List.drop_drop, drop_takeWhile, hd, List.takeWhile_append_dropWhile]
    have hrest : ∀ c ∈ (((opt.drop 8).dropWhile isspace).dropWhile isdigit ++ behind).head?, isdigit c = false := by
      have hown := head_dropWhile isdigit ((opt.drop 8).dropWhile isspace)
      cases hr : ((opt.drop 8).dropWhile isspace).dropWhile isdigit with
      | nil => exact hstop
      | cons d ds =>
          rw [hr] at hown
          exact hown
    have hstart : (((matchString opt (bytes "max-age=%s*(%d+)")).captures[0]?).map Prod.fst).getD 0 =
        8 + ((opt.drop 8).takeWhile isspace).length := by
      rw [matchString_age, if_pos hmatch]
      rfl
    rw [hstart, List.drop_append_of_le_length hlong, hsplit, List.append_assoc,
      atoiIn_run hne hdigits (by simp [hbehind]) hrest]
    unfold cacheOption
    dsimp only
    rw [if_pos htook, hcapture]
    rfl
  · rfl

/-- No digit stands behind an option. -/
theorem option_stop {source behind : Bytes} {used : Nat} (htook : (matchString source (bytes "%s*([%w%-=]+)")).took = some used)
    (hstop : ∀ c ∈ behind.head?, isdigit c = false) : ∀ c ∈ (source.drop used ++ behind).head?, isdigit c = false := by
  rw [matchString_option] at htook
  split at htook
  · exact absurd htook (by simp [Result.took])
  · have hused : used = (source.takeWhile isspace).length + ((source.dropWhile isspace).takeWhile optionByte).length := by
      unfold Result.took at htook
      dsimp only at htook
      split at htook
      · rename_i n hn
        exact (Option.some.inj htook).symm.trans (Option.some.inj hn).symm
      · exact absurd htook (by simp)
    have hdrop : source.drop used = (source.dropWhile isspace).dropWhile optionByte := by
      rw [hused, ← List.drop_drop, drop_takeWhile, drop_takeWhile]
    have hown := head_dropWhile optionByte (source.dropWhile isspace)
    rw [hdrop]
    cases hr : (source.dropWhile isspace).dropWhile optionByte with
    | nil => exact hstop
    | cons d ds =>
        rw [hr] at hown
        intro c hc
        obtain rfl : d = c := Option.some.inj hc
        have hno := hown d rfl
        by_contra hdigit
        simp [optionByte, isalnum, hdigit] at hno

/-- **A text with no digit behind it is read as it is,** by induction on its options. -/
theorem cacheStrIn_eq {behind : Bytes} (hbehind : behind ≠ []) (hstop : ∀ c ∈ behind.head?, isdigit c = false) (fuel : Nat)
    (r : UInt32 × Option Int) (source : Bytes) :
    cacheStrIn behind fuel r source = some (httpdParseCacheStr fuel r source) := by
  induction fuel generalizing r source with
  | zero => rfl
  | succ fuel ih =>
      rw [cacheStrIn, httpdParseCacheStr]
      dsimp only
      cases htook : (matchString source (bytes "%s*([%w%-=]+)")).took with
      | none => rfl
      | some used =>
          have hnext : ∀ c ∈ (source.drop used ++ behind).head?, isdigit c = false := option_stop htook hstop
          dsimp only
          rw [cacheOptionIn_eq (by simp [hbehind]) hnext, Option.bind_some]
          cases (matchString (source.drop used) (bytes "%s*,%s*")).took with
          | none => rfl
          | some sep => exact ih _ _

/-! ## A line of a head -/

/-- Whatever stands behind the line and its break, the same is stored, and no byte of it is read. -/
def StoresAlone (line brk : Bytes) : Prop :=
  ∃ stored, ∀ more, cacheControlLine (line ++ (brk ++ more)) line.length = some stored

theorem cacheControlLine_eq {line : Bytes} (hname : named cacheControl line = true) (tail : Bytes) :
    14 ≤ line.length ∧
      cacheControlLine (line ++ tail) line.length = httpdParseCacheMem (line.drop 14 ++ tail) (line.length - 14) := by
  rw [named_eq] at hname
  have hlong : 14 ≤ line.length := literalPrefix_length hname
  have htook : (matchiString line (bytes "Cache-Control:")).took = some 14 := by
    have hf : bytes "Cache-Control:" = cacheControl ++ [58] := by decide
    rw [hf, matchiString_name (by decide) (by decide), hname, if_pos rfl]
    rfl
  refine ⟨hlong, ?_⟩
  unfold cacheControlLine
  rw [List.take_left, htook]
  dsimp only
  rw [List.drop_append_of_le_length hlong]

/-- A break has no NUL, and no digit in front of it is read on. -/
theorem break_facts {brk : Bytes} (hbrk : brk = [LF] ∨ brk = [CR, LF]) (more : Bytes) :
    strlen brk = none ∧ brk ++ more ≠ [] ∧ ∀ c ∈ (brk ++ more).head?, isdigit c = false := by
  rcases hbrk with rfl | rfl
  · refine ⟨by decide, by simp, fun c hc => ?_⟩
    obtain rfl := Option.some.inj hc
    decide
  · refine ⟨by decide, by simp, fun c hc => ?_⟩
    obtain rfl := Option.some.inj hc
    decide

/-- **A line stores the same whatever follows it** exactly if it has a value. -/
theorem storesAlone_iff {line brk : Bytes} (hbrk : brk = [LF] ∨ brk = [CR, LF]) (hname : named cacheControl line = true) :
    StoresAlone line brk ↔ fieldValue cacheControl line ≠ some [] := by
  have hlong := (cacheControlLine_eq hname []).1
  have hvalue : fieldValue cacheControl line ≠ some [] ↔ line.length - 14 ≠ 0 := by
    have hfield : fieldValue cacheControl line = some (line.drop 14) := by
      rw [named_eq] at hname
      rw [fieldValue, if_pos hname]
      rfl
    rw [hfield, ne_eq, Option.some.injEq, List.drop_eq_nil_iff]
    omega
  rw [hvalue]
  constructor
  · rintro ⟨stored, hstored⟩ hempty
    -- the length of the text is looked for, and not found in the line
    have hline := hstored []
    have hdrop : line.drop 14 = [] := List.drop_eq_nil_iff.mpr (by omega)
    rw [List.append_nil, (cacheControlLine_eq hname _).2, hempty, hdrop, List.nil_append, httpdParseCacheMem, if_pos rfl,
      (break_facts hbrk []).1] at hline
    exact absurd hline (by simp)
  · intro hne
    refine ⟨httpdParseCacheStr (line.length - 14 + 1) (0, none) (line.drop 14), fun more => ?_⟩
    obtain ⟨-, hbehind, hstop⟩ := break_facts hbrk more
    have hlen : (line.drop 14).length = line.length - 14 := List.length_drop
    rw [(cacheControlLine_eq hname _).2, httpdParseCacheMem, if_neg hne, Option.bind_some, ← hlen, List.drop_left, List.take_left]
    exact cacheStrIn_eq hbehind hstop _ _ _

/-- **In every head, what a `Cache-Control` line stores depends on the line alone, and is read from it alone,** exactly if
    the line has a value. -/
theorem cache_line_alone_iff {memory : Bytes} {fuel : Nat} {s rest : Source} {texts : List (Bytes × Bytes)}
    (h : headTexts memory fuel s = some (texts, rest)) {text : Bytes × Bytes} (hin : text ∈ texts)
    (hname : named cacheControl text.1 = true) :
    ∃ brk more, (brk = [LF] ∨ brk = [CR, LF]) ∧ text.2 = text.1 ++ (brk ++ more) ∧
      (StoresAlone text.1 brk ↔ fieldValue cacheControl text.1 ≠ some []) := by
  obtain ⟨brk, more, hbrk, htext⟩ := headTexts_alone h text hin
  exact ⟨brk, more, hbrk, htext, storesAlone_iff hbrk hname⟩

/-- A head of a backend with a line, and a body behind it. -/
def backendHead (line body : Bytes) : Bytes := line ++ bytes "\r\n\r\n" ++ body

theorem cache_line_alone_sample : StoresAlone (bytes "Cache-Control: public") [CR, LF] := by
  have htexts : headTexts [0] 4 { data := backendHead (bytes "Cache-Control: public") (bytes "x") } =
      some ([(bytes "Cache-Control: public", backendHead (bytes "Cache-Control: public") (bytes "x") ++ [0])],
        { data := bytes "x" }) := by decide
  obtain ⟨brk, more, hbrk, htext, hiff⟩ := cache_line_alone_iff htexts (List.mem_singleton.mpr rfl) (by decide)
  have hstores := hiff.mpr (by decide)
  have hsplit : backendHead (bytes "Cache-Control: public") (bytes "x") ++ [0] =
      bytes "Cache-Control: public" ++ ([CR, LF] ++ ([CR, LF] ++ bytes "x" ++ [0])) := by decide
  rcases hbrk with rfl | rfl
  · rw [hsplit] at htext
    exact absurd (List.cons.inj (List.append_cancel_left htext)).1 (by decide)
  · exact hstores

/-- **The statement fails** for a line without a value: the body behind the head decides what is stored. -/
theorem cache_line_alone_wrong :
    headTexts [0] 4 { data := backendHead (bytes "Cache-Control:") (bytes "public") } =
        some ([(bytes "Cache-Control:", backendHead (bytes "Cache-Control:") (bytes "public") ++ [0])],
          { data := bytes "public" }) ∧
      headTexts [0] 4 { data := backendHead (bytes "Cache-Control:") (bytes "x") } =
        some ([(bytes "Cache-Control:", backendHead (bytes "Cache-Control:") (bytes "x") ++ [0])], { data := bytes "x" }) ∧
      cacheControlLine (backendHead (bytes "Cache-Control:") (bytes "public") ++ [0]) 14 = some (HIN_CACHE_PUBLIC, none) ∧
      cacheControlLine (backendHead (bytes "Cache-Control:") (bytes "x") ++ [0]) 14 = some (0, none) := by
  decide

end Http
end Hin9
