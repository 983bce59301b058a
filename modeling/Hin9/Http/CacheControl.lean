import Hin9.Basic.PatternRef
import Hin9.Http.HeaderChain
import Hin9.Http.PostLength
import Hin9.Http.RequestReset

/-!
# `Http.CacheControl` — cache directives, read and printed (`http_misc.c`)

`httpd_parse_cache_str` cuts a text into options and turns each into a flag, and an age into a number that `atoi` makes of
its digits. `header_cache_control` prints flags and age as a line at the end of a chain of buffers, and takes the last
separator back from the last buffer. `cache_round_trip_iff` says for which texts the printed line reads back as the same
flags and age.
-/

namespace Hin9
namespace Http

open Pattern
open RequestFields (cacheOption httpdParseCacheStr)

/-! ## Options -/

/-- The bytes of an option. -/
def optionByte (c : UInt8) : Bool := isalnum c || c == 45 || c == 61

/-- The options of a text, in order. -/
def cacheOptions : Nat → Bytes → List Bytes
  | 0, _ => []
  | fuel + 1, source =>
      let m := matchString source (bytes "%s*([%w%-=]+)")
      match m.took with
      | none => []
      | some used =>
          m.capture source 0 ::
            match (matchString (source.drop used) (bytes "%s*,%s*")).took with
            | none => []
            | some sep => cacheOptions fuel ((source.drop used).drop sep)

/-- What is read is read of one option after the other. -/
theorem httpdParseCacheStr_eq (fuel : Nat) (r : UInt32 × Option Int) (source : Bytes) :
    httpdParseCacheStr fuel r source = (cacheOptions fuel source).foldl (fun r opt => cacheOption opt r) r := by
  induction fuel generalizing r source with
  | zero => rfl
  | succ fuel ih =>
      rw [httpdParseCacheStr, cacheOptions]
      dsimp only
      cases (matchString source (bytes "%s*([%w%-=]+)")).took with
      | none => rfl
      | some used =>
          dsimp only
          rw [List.foldl_cons]
          cases (matchString (source.drop used) (bytes "%s*,%s*")).took with
          | none => rfl
          | some sep => exact ih _ _

theorem drop_takeWhile (p : UInt8 → Bool) (data : Bytes) : data.drop (data.takeWhile p).length = data.dropWhile p := by
  have h : (data.takeWhile p ++ data.dropWhile p).drop (data.takeWhile p).length = data.dropWhile p := List.drop_left' rfl
  rwa [List.takeWhile_append_dropWhile] at h

/-- An option is cut out behind the blanks in front of it. -/
theorem matchString_option (source : Bytes) : matchString source (bytes "%s*([%w%-=]+)") =
    if (source.dropWhile isspace).takeWhile optionByte = [] then ⟨none, []⟩
    else ⟨some ((source.takeWhile isspace).length + ((source.dropWhile isspace).takeWhile optionByte).length),
      [((source.takeWhile isspace).length, ((source.dropWhile isspace).takeWhile optionByte).length)]⟩ := by
  have hf : bytes "%s*([%w%-=]+)" = 37 :: 115 :: 42 :: 40 :: 91 :: bytes "%w%-=]+)" := by decide
  have hs : takeSpecifier (42 :: 40 :: 91 :: bytes "%w%-=]+)") = (⟨true, true⟩, 40 :: 91 :: bytes "%w%-=]+)") := by decide
  have hset : scanSet 91 (bytes "%w%-=]+)") = some (bytes "%w%-=", [43, 41]) := by decide
  have hs' : takeSpecifier [43, 41] = (⟨true, false⟩, [41]) := by decide
  have hspace : getPattern [37, 115] 0 = [⟨PATTERN_SPACE, 0⟩] := by decide
  have hbody : ∀ data : Bytes, matchPattern data (bytes "%w%-=") ⟨true, false⟩ =
      if data.takeWhile optionByte = [] then none else some (data.takeWhile optionByte).length := by
    have hes : ∀ e ∈ ([.letter 119, .letter 45, .char 61] : List Elem), e.wellFormed = true := by decide
    refine matchPattern_set hes (by decide) (by decide) fun c => ?_
    simp [Elem.takes, letterHas, capitalLetter, optionByte, Bool.or_assoc]
  cases source with
  | nil => rfl
  | cons c cs =>
      rw [matchString, matchStringVirtual, if_neg (by simp), hf]
      show formatLoop false 14 (37 :: 115 :: 42 :: 40 :: 91 :: bytes "%w%-=]+)") (c :: cs) 0 none [] = _
      rw [formatLoop_class, hs]
      simp only [matchPattern_star hspace (fun c => matchChar_space c 0), drop_takeWhile, Nat.zero_add]
      rw [formatLoop_open, formatLoop_set _ _ _ _ _ _ _ hset, hs']
      simp only [hbody]
      by_cases hnone : ((c :: cs).dropWhile isspace).takeWhile optionByte = []
      · simp only [if_pos hnone]
      · simp only [if_neg hnone]
        rw [formatLoop_close, formatLoop_end, Nat.add_sub_cancel_left]
        rfl

/-- An age is the digits behind its name. -/
theorem matchString_age (opt : Bytes) : matchString opt (bytes "max-age=%s*(%d+)") =
    if bytes "max-age=" <+: opt ∧ ((opt.drop 8).dropWhile isspace).takeWhile isdigit ≠ [] then
      ⟨some (8 + ((opt.drop 8).takeWhile isspace).length + (((opt.drop 8).dropWhile isspace).takeWhile isdigit).length),
        [(8 + ((opt.drop 8).takeWhile isspace).length, (((opt.drop 8).dropWhile isspace).takeWhile isdigit).length)]⟩
    else ⟨none, []⟩ := by
  have hf : bytes "max-age=%s*(%d+)" = bytes "max-age=" ++ [37, 115, 42, 40, 37, 100, 43, 41] := by decide
  have hs : takeSpecifier [42, 40, 37, 100, 43, 41] = (⟨true, true⟩, [40, 37, 100, 43, 41]) := by decide
  have hs' : takeSpecifier [43, 41] = (⟨true, false⟩, [41]) := by decide
  have hspace : getPattern [37, 115] 0 = [⟨PATTERN_SPACE, 0⟩] := by decide
  have hdigit : getPattern [37, 100] 0 = [⟨PATTERN_DIGIT, 0⟩] := by decide
  have hlen : (bytes "max-age=").length = 8 := by decide
  rw [matchString, hf, matchStringVirtual_literal false (by decide) (by decide)]
  by_cases hpre : bytes "max-age=" <+: opt
  rotate_left
  · rw [if_neg fun h => hpre ((literalPrefix_false_iff _ _).mp h), if_neg fun h => hpre h.1]
  rw [if_pos ((literalPrefix_false_iff _ _).mpr hpre), hlen]
  show formatLoop false 9 [37, 115, 42, 40, 37, 100, 43, 41] (opt.drop 8) 8 none [] = _
  rw [formatLoop_class, hs]
  simp only [matchPattern_star hspace (fun c => matchChar_space c 0), drop_takeWhile]
  rw [formatLoop_open, formatLoop_class, hs']
  simp only [matchPattern_plus hdigit (fun c => matchChar_digit c 0), hpre, true_and]
  by_cases hnone : ((opt.drop 8).dropWhile isspace).takeWhile isdigit = []
  · simp only [if_pos hnone, if_neg (not_not_intro hnone)]
  · simp only [if_neg hnone, if_pos hnone]
    rw [formatLoop_close, formatLoop_end, Nat.add_sub_cancel_left]
    rfl

/-- The digits of an age. -/
def ageDigits (opt : Bytes) : Option Bytes :=
  let digits := ((opt.drop 8).dropWhile isspace).takeWhile isdigit
  if bytes "max-age=" <+: opt ∧ digits ≠ [] then some digits else none

/-- The last age of some options. -/
def lastAge (opts : List Bytes) : Option Bytes := (opts.filterMap ageDigits).getLast?

/-- All flags of a `Cache-Control` text. -/
def cacheMask : UInt32 :=
  HIN_CACHE_PRIVATE ||| HIN_CACHE_PUBLIC ||| HIN_CACHE_MAX_AGE ||| HIN_CACHE_IMMUTABLE ||| HIN_CACHE_NO_CACHE |||
    HIN_CACHE_NO_STORE ||| HIN_CACHE_NO_TRANSFORM ||| HIN_CACHE_MUST_REVALIDATE ||| HIN_CACHE_PROXY_REVALIDATE

theorem ageDigits_took (opt : Bytes) :
    (matchString opt (bytes "max-age=%s*(%d+)")).took.isSome = (ageDigits opt).isSome := by
  rw [matchString_age, ageDigits]
  split
  · rename_i h
    obtain ⟨k, hk⟩ : ∃ k, 8 + ((opt.drop 8).takeWhile isspace).length +
        (((opt.drop 8).dropWhile isspace).takeWhile isdigit).length = k + 1 :=
      ⟨7 + ((opt.drop 8).takeWhile isspace).length + (((opt.drop 8).dropWhile isspace).takeWhile isdigit).length, by omega⟩
    rw [hk]
    rfl
  · rfl

theorem ageDigits_capture {opt digits : Bytes} (h : ageDigits opt = some digits) :
    (matchString opt (bytes "max-age=%s*(%d+)")).capture opt 0 = digits ∧ digits ≠ [] ∧
      ∀ c ∈ digits, isdigit c = true := by
  unfold ageDigits at h
  dsimp only at h
  split at h
  · rename_i hmatch
    obtain rfl := Option.some.inj h
    refine ⟨?_, hmatch.2, fun c hc => List.mem_takeWhile_imp hc⟩
    rw [matchString_age, if_pos hmatch]
    show (opt.drop (8 + ((opt.drop 8).takeWhile isspace).length)).take _ = _
    rw [← List.drop_drop, drop_takeWhile, ← List.prefix_iff_eq_take.mp (List.takeWhile_prefix isdigit)]
  · exact absurd h (by simp)

/-- **What an option does**: it sets the flag it would set alone, and its age, if it is one. -/
theorem cacheOption_eq (opt : Bytes) (r : UInt32 × Option Int) : cacheOption opt r =
    (r.1 ||| (cacheOption opt (0, none)).1, ((ageDigits opt).map fun digits => atoiNat (decNat 0 digits)).or r.2) := by
  unfold cacheOption
  dsimp only
  rw [ageDigits_took]
  cases hage : ageDigits opt with
  | some digits =>
      obtain ⟨hcapture, hne, hdigits⟩ := ageDigits_capture hage
      rw [hcapture, atoi_eq_atoiNat hne hdigits]
      simp
  | none =>
      simp only [Option.isSome_none, Bool.false_eq_true, if_false, Option.map_none, Option.none_or]
      split_ifs <;> simp

theorem cacheOption_flag (opt : Bytes) : (cacheOption opt (0, none)).1 &&& ~~~cacheMask = 0 ∧
    hasFlag (cacheOption opt (0, none)).1 HIN_CACHE_MAX_AGE = (ageDigits opt).isSome := by
  unfold cacheOption
  dsimp only
  rw [ageDigits_took]
  cases ageDigits opt with
  | some digits =>
      show (0 ||| HIN_CACHE_MAX_AGE) &&& ~~~cacheMask = 0 ∧ hasFlag (0 ||| HIN_CACHE_MAX_AGE) HIN_CACHE_MAX_AGE = true
      decide
  | none =>
      simp only [Option.isSome_none, Bool.false_eq_true, if_false]
      split_ifs <;> decide

/-- **What some options do,** by induction on them: flags of the mask are added, and the last age is the one. -/
theorem foldl_cacheOption (opts : List Bytes) (r : UInt32 × Option Int) :
    let read := opts.foldl (fun r opt => cacheOption opt r) r
    read.2 = ((lastAge opts).map fun digits => atoiNat (decNat 0 digits)).or r.2 ∧
      (r.1 &&& ~~~cacheMask = 0 → read.1 &&& ~~~cacheMask = 0) ∧
      (hasFlag r.1 HIN_CACHE_MAX_AGE = r.2.isSome → hasFlag read.1 HIN_CACHE_MAX_AGE = read.2.isSome) := by
  induction opts generalizing r with
  | nil => exact ⟨rfl, id, id⟩
  | cons opt opts ih =>
      intro read
      obtain ⟨hage, hmask, hflag⟩ := ih (cacheOption opt r)
      obtain ⟨hown, hownAge⟩ := cacheOption_flag opt
      have hlast : lastAge (opt :: opts) = (lastAge opts).or (ageDigits opt) := by
        unfold lastAge
        cases hd : ageDigits opt with
        | none => rw [List.filterMap_cons_none hd, Option.or_none]
        | some digits =>
            rw [List.filterMap_cons_some hd, List.getLast?_cons]
            cases (opts.filterMap ageDigits).getLast? <;> rfl
      refine ⟨?_, fun hr => hmask ?_, fun hr => hflag ?_⟩
      · show (opts.foldl (fun r opt => cacheOption opt r) (cacheOption opt r)).2 = _
        rw [hage, cacheOption_eq, hlast]
        cases lastAge opts <;> rfl
      · rw [cacheOption_eq]
        show (r.1 ||| _) &&& _ = 0
        rw [RequestFields.or_and, hr, hown]
        rfl
      · rw [cacheOption_eq, hasFlag_or, hr, hownAge]
        cases ageDigits opt <;> simp

/-! ## Printing -/

/-- What `header_cache_control` writes, one call after the other. -/
def cacheControlTexts (flags : UInt32) (maxAge : Int) : List Bytes :=
  [bytes "Cache-Control: "] ++
    (if hasFlag flags HIN_CACHE_PRIVATE then [bytes "private, "]
      else if hasFlag flags HIN_CACHE_PUBLIC then [bytes "public, "] else []) ++
    (if hasFlag flags HIN_CACHE_MAX_AGE then [bytes "max-age=" ++ decText maxAge ++ bytes ", "] else []) ++
    (if hasFlag flags HIN_CACHE_IMMUTABLE then [bytes "immutable, "]
      else if hasFlag flags HIN_CACHE_NO_CACHE then [bytes "no-cache, "] else []) ++
    (if hasFlag flags HIN_CACHE_NO_STORE then [bytes "no-store, "] else []) ++
    (if hasFlag flags HIN_CACHE_NO_TRANSFORM then [bytes "no-transform, "] else []) ++
    (if hasFlag flags HIN_CACHE_MUST_REVALIDATE then [bytes "must-revalidate, "] else []) ++
    (if hasFlag flags HIN_CACHE_PROXY_REVALIDATE then [bytes "proxy-revalidate, "] else [])

/-- `header`. The call comes to the last buffer of the chain, and to a new one behind it. -/
def headerCall (c : List HeaderBuffer) (text : Bytes) : Option (List HeaderBuffer) :=
  (vheader (c.length + 1) c text).map Prod.fst

/-- `last->count -= n`, for the last buffer of a chain. -/
def cutLast (c : List HeaderBuffer) (n : Int) : List HeaderBuffer :=
  c.dropLast ++ (c.getLast?.map fun b => b.take (-n)).toList

/-- `header_cache_control`. -/
def headerCacheControl (c : List HeaderBuffer) (flags : UInt32) (maxAge : Int) : Option (List HeaderBuffer) :=
  ((cacheControlTexts flags maxAge).foldlM headerCall c).bind fun c => headerCall (cutLast c 2) [CR, LF]

/-- The content of the last buffer. -/
def lastContent (c : List HeaderBuffer) : Bytes := (c.getLast?.map HeaderBuffer.content).getD []

theorem headerCall_cons (b next : HeaderBuffer) (rest : List HeaderBuffer) (text : Bytes) :
    headerCall (b :: next :: rest) text = (headerCall (next :: rest) text).map (b :: ·) := by
  unfold headerCall
  rw [List.length_cons, vheader, Option.map_map, Option.map_map]
  rfl

/-- **A short text is written as a whole**, and stands at the end of the last buffer, by induction on the chain. -/
theorem headerCall_short {c : List HeaderBuffer} (hc : ProperChain c) {text : Bytes} (hlen : text.length < Netcode.READ_SZ) :
    ∃ c', headerCall c text = some c' ∧ ProperChain c' ∧ contents c' = contents c ++ text ∧ text <:+ lastContent c' := by
  have hmax : Netcode.READ_SZ = Fcgi.HIN_HTTPD_MAX_HEADER_LINE_SIZE := rfl
  have hwrite : ∀ c : List HeaderBuffer, headerCall c text =
      (Writer.formatted.write (c.length + 1) c text).map Prod.fst := by
    intro c
    unfold headerCall Writer.write
    rw [Option.map_map]
    rfl
  have hfits : ∀ b : HeaderBuffer, b.Proper → (text.length : Int) + 1 ≤ b.room → ∀ fuel,
      ∃ b' nothing, Writer.formatted.write (fuel + 1) [b] text = some ([b'], nothing) ∧ b'.Proper ∧
        b'.content = b.content ++ text := by
    intro b hb hroom fuel
    obtain ⟨data, nothing, hpre, hdata, hrun⟩ := Writer.formatted.write_fits (show text.length ≤ _ by omega)
      (by rw [if_pos rfl]; exact hroom) fuel
    refine ⟨_, nothing, hrun, hb.take hdata hpre.length_le, ?_⟩
    rw [hb.content_take hpre.length_le, ← List.prefix_iff_eq_take.mp hpre]
  obtain ⟨hne, hproper⟩ := hc
  induction c with
  | nil => exact absurd rfl hne
  | cons b rest ih =>
      have hb := hproper b List.mem_cons_self
      cases rest with
      | cons next rest =>
          obtain ⟨c', hcall, hc', hcontents, hlast⟩ := ih (by simp) fun x hx => hproper x (List.mem_cons_of_mem b hx)
          obtain ⟨first, more, rfl⟩ := List.exists_cons_of_ne_nil hc'.1
          refine ⟨b :: first :: more, by rw [headerCall_cons, hcall]; rfl, hc'.cons hb, ?_, ?_⟩
          · rw [contents_cons b (first :: more), hcontents, contents_cons b (next :: rest), List.append_assoc]
          · rwa [lastContent, List.getLast?_cons_cons]
      | nil =>
          rw [hwrite]
          by_cases hroom : (text.length : Int) + 1 ≤ b.room
          · obtain ⟨b', nothing, hrun, hb', hcontent⟩ := hfits b hb hroom 1
            refine ⟨[b'], by rw [List.length_singleton, hrun]; rfl, .single hb', ?_, ?_⟩
            · rw [contents_cons, contents_cons, hcontent]
              simp [contents]
            · show text <:+ b'.content
              rw [hcontent]
              exact List.suffix_append _ _
          · obtain ⟨b', hb', hcontent, hgrows⟩ := Writer.formatted.write_grows hb (show text.length ≤ _ by omega)
              (by rw [if_pos rfl]; omega)
            have hfresh : (text.length : Int) + 1 ≤ (HeaderBuffer.fresh text.length).room := by
              rw [HeaderBuffer.fresh_room]
              omega
            obtain ⟨last, nothing, hrun, hlast, hcontent'⟩ := hfits _ (HeaderBuffer.fresh_proper _) hfresh 0
            refine ⟨[b', last], by rw [List.length_singleton, hgrows, hrun]; rfl, (ProperChain.single hlast).cons hb', ?_, ?_⟩
            · rw [contents_cons, contents_cons, contents_cons, hcontent, hcontent', HeaderBuffer.fresh_content]
              simp [contents]
            · show text <:+ last.content
              rw [hcontent']
              exact List.suffix_append _ _

/-- Short texts are written one behind the other. -/
theorem headerCalls_short {texts : List Bytes} (hlen : ∀ text ∈ texts, text.length < Netcode.READ_SZ)
    {c : List HeaderBuffer} (hc : ProperChain c) : ∃ c', texts.foldlM headerCall c = some c' ∧ ProperChain c' ∧
      contents c' = contents c ++ texts.flatten ∧ ∀ text ∈ texts.getLast?, text <:+ lastContent c' := by
  induction texts generalizing c with
  | nil => exact ⟨c, rfl, hc, by simp, by simp⟩
  | cons text texts ih =>
      obtain ⟨c₁, hcall, hc₁, hcontents₁, hlast₁⟩ := headerCall_short hc (hlen text List.mem_cons_self)
      obtain ⟨c', hcalls, hc', hcontents, hlast⟩ := ih (fun t ht => hlen t (List.mem_cons_of_mem _ ht)) hc₁
      refine ⟨c', ?_, hc', ?_, ?_⟩
      · rw [List.foldlM_cons, hcall]
        exact hcalls
      · rw [hcontents, hcontents₁, List.flatten_cons, List.append_assoc]
      · cases texts with
        | nil =>
            obtain rfl := Option.some.inj hcalls
            intro t ht
            obtain rfl := Option.some.inj ht
            exact hlast₁
        | cons next rest => exact hlast

/-- Bytes at the end of the last buffer are taken back. -/
theorem cutLast_spec {c : List HeaderBuffer} (hc : ProperChain c) {data sep : Bytes} (hcontents : contents c = data ++ sep)
    (hlast : sep <:+ lastContent c) : ProperChain (cutLast c sep.length) ∧ contents (cutLast c sep.length) = data := by
  obtain ⟨hne, hproper⟩ := hc
  obtain ⟨init, b, rfl⟩ : ∃ init b, c = init ++ [b] := ⟨c.dropLast, c.getLast hne, (List.dropLast_append_getLast hne).symm⟩
  have hb := hproper b (by simp)
  have hlen := hb.length_content
  obtain ⟨h0, hsz⟩ := hb
  obtain ⟨pre, hpre⟩ := hlast
  have hcontent : b.content = pre ++ sep := by simpa [lastContent] using hpre.symm
  have hcount : b.count.toNat = pre.length + sep.length := by rw [← hlen, hcontent, List.length_append]
  have hcut : cutLast (init ++ [b]) sep.length = init ++ [b.take (-sep.length)] := by simp [cutLast]
  have hkept : (b.take (-sep.length)).content = pre := by
    unfold HeaderBuffer.take HeaderBuffer.content at *
    dsimp only
    have hto : (b.count + -(sep.length : Int)).toNat = pre.length := by omega
    have hshort : (b.store.take b.count.toNat).take pre.length = pre := by rw [hcontent, List.take_left]
    rw [hto]
    rwa [List.take_take, min_eq_left (by omega)] at hshort
  rw [hcut]
  refine ⟨⟨by simp, fun x hx => ?_⟩, ?_⟩
  · rcases List.mem_append.mp hx with hx | hx
    · exact hproper x (List.mem_append_left _ hx)
    · obtain rfl := List.mem_singleton.mp hx
      unfold HeaderBuffer.take HeaderBuffer.Proper HeaderBuffer.sz at *
      dsimp only
      omega
  · have hall : contents (init ++ [b]) = contents init ++ b.content := by simp [contents]
    have hall' : contents (init ++ [b.take (-sep.length)]) = contents init ++ pre := by simp [contents, hkept]
    rw [hall, hcontent, ← List.append_assoc] at hcontents
    rw [hall']
    exact List.append_cancel_right hcontents

/-! ## The words of a line -/

/-- The words that are printed, each with its flag. -/
def cacheWords (maxAge : Int) : List (UInt32 × Bytes) :=
  [(HIN_CACHE_PRIVATE, bytes "private"), (HIN_CACHE_PUBLIC, bytes "public"),
    (HIN_CACHE_MAX_AGE, bytes "max-age=" ++ decText maxAge), (HIN_CACHE_IMMUTABLE, bytes "immutable"),
    (HIN_CACHE_NO_CACHE, bytes "no-cache"), (HIN_CACHE_NO_STORE, bytes "no-store"),
    (HIN_CACHE_NO_TRANSFORM, bytes "no-transform"), (HIN_CACHE_MUST_REVALIDATE, bytes "must-revalidate"),
    (HIN_CACHE_PROXY_REVALIDATE, bytes "proxy-revalidate")]

/-- The flags, where private overrides public and immutable overrides no-cache. -/
def printedFlags (flags : UInt32) : UInt32 :=
  flags &&& ~~~((if hasFlag flags HIN_CACHE_PRIVATE then HIN_CACHE_PUBLIC else 0) |||
    (if hasFlag flags HIN_CACHE_IMMUTABLE then HIN_CACHE_NO_CACHE else 0))

/-- The words of these flags. -/
def printedWords (flags : UInt32) (maxAge : Int) : List (UInt32 × Bytes) :=
  (cacheWords maxAge).filter fun word => hasFlag (printedFlags flags) word.1

/-- Words with a separator between them. -/
def joined : List Bytes → Bytes
  | [] => []
  | [word] => word
  | word :: next :: rest => word ++ [44, 32] ++ joined (next :: rest)

/-- The line of these flags. Without a word the colon is taken back. -/
def cacheLine (flags : UInt32) (maxAge : Int) : Bytes :=
  if printedWords flags maxAge = [] then bytes "Cache-Control"
  else bytes "Cache-Control: " ++ joined ((printedWords flags maxAge).map Prod.snd)

theorem hasFlag_printed {bit : UInt32} (k : Nat) (hk : k < 32) (hbit : bit = ⟨BitVec.twoPow 32 k⟩) (flags : UInt32) :
    hasFlag (printedFlags flags) bit = (hasFlag flags bit &&
      !((hasFlag flags HIN_CACHE_PRIVATE && hasFlag HIN_CACHE_PUBLIC bit) ||
        (hasFlag flags HIN_CACHE_IMMUTABLE && hasFlag HIN_CACHE_NO_CACHE bit))) := by
  have hnone : hasFlag 0 bit = false := by simp [hasFlag]
  rw [printedFlags, hasFlag_diff k hk hbit, hasFlag_or]
  cases hasFlag flags HIN_CACHE_PRIVATE <;> cases hasFlag flags HIN_CACHE_IMMUTABLE <;> simp [hnone]

theorem hasFlag_kept {bit : UInt32} (k : Nat) (hk : k < 32) (hbit : bit = ⟨BitVec.twoPow 32 k⟩)
    (hpublic : hasFlag HIN_CACHE_PUBLIC bit = false) (hcache : hasFlag HIN_CACHE_NO_CACHE bit = false) (flags : UInt32) :
    hasFlag (printedFlags flags) bit = hasFlag flags bit := by
  rw [hasFlag_printed k hk hbit, hpublic, hcache]
  simp

/-- **What is written are the words, each with a separator behind it.** -/
theorem cacheControlTexts_eq (flags : UInt32) (maxAge : Int) : cacheControlTexts flags maxAge =
    bytes "Cache-Control: " :: (printedWords flags maxAge).map fun word => word.2 ++ [44, 32] := by
  have hkept : ∀ bit, bit ∈ [HIN_CACHE_PRIVATE, HIN_CACHE_MAX_AGE, HIN_CACHE_IMMUTABLE, HIN_CACHE_NO_STORE,
      HIN_CACHE_NO_TRANSFORM, HIN_CACHE_MUST_REVALIDATE, HIN_CACHE_PROXY_REVALIDATE] →
      hasFlag (printedFlags flags) bit = hasFlag flags bit := by
    intro bit hbit
    simp only [List.mem_cons, List.not_mem_nil, or_false] at hbit
    rcases hbit with rfl | rfl | rfl | rfl | rfl | rfl | rfl
    · exact hasFlag_kept 3 (by decide) (by decide) (by decide) (by decide) flags
    · exact hasFlag_kept 10 (by decide) (by decide) (by decide) (by decide) flags
    · exact hasFlag_kept 7 (by decide) (by decide) (by decide) (by decide) flags
    · exact hasFlag_kept 5 (by decide) (by decide) (by decide) (by decide) flags
    · exact hasFlag_kept 6 (by decide) (by decide) (by decide) (by decide) flags
    · exact hasFlag_kept 8 (by decide) (by decide) (by decide) (by decide) flags
    · exact hasFlag_kept 9 (by decide) (by decide) (by decide) (by decide) flags
  have hpublic : hasFlag (printedFlags flags) HIN_CACHE_PUBLIC =
      (hasFlag flags HIN_CACHE_PUBLIC && !hasFlag flags HIN_CACHE_PRIVATE) := by
    rw [hasFlag_printed 2 (by decide) (by decide)]
    have hself : hasFlag HIN_CACHE_PUBLIC HIN_CACHE_PUBLIC = true ∧ hasFlag HIN_CACHE_NO_CACHE HIN_CACHE_PUBLIC = false := by
      decide
    simp [hself]
  have hcache : hasFlag (printedFlags flags) HIN_CACHE_NO_CACHE =
      (hasFlag flags HIN_CACHE_NO_CACHE && !hasFlag flags HIN_CACHE_IMMUTABLE) := by
    rw [hasFlag_printed 4 (by decide) (by decide)]
    have hself : hasFlag HIN_CACHE_NO_CACHE HIN_CACHE_NO_CACHE = true ∧
        hasFlag HIN_CACHE_PUBLIC HIN_CACHE_NO_CACHE = false := by decide
    simp [hself]
  -- one word, and two of which the first one overrides the second one
  have hone : ∀ (bit : UInt32) (word : Bytes), hasFlag (printedFlags flags) bit = hasFlag flags bit →
      ([(bit, word)].filter fun word => hasFlag (printedFlags flags) word.1).map (fun word => word.2 ++ [44, 32]) =
        if hasFlag flags bit then [word ++ [44, 32]] else [] := by
    intro bit word hbit
    cases hf : hasFlag flags bit <;> simp [hbit, hf]
  have htwo : ∀ (bit other : UInt32) (word second : Bytes), hasFlag (printedFlags flags) bit = hasFlag flags bit →
      hasFlag (printedFlags flags) other = (hasFlag flags other && !hasFlag flags bit) →
      ([(bit, word), (other, second)].filter fun word => hasFlag (printedFlags flags) word.1).map
          (fun word => word.2 ++ [44, 32]) =
        if hasFlag flags bit then [word ++ [44, 32]] else if hasFlag flags other then [second ++ [44, 32]] else [] := by
    intro bit other word second hbit hother
    cases hf : hasFlag flags bit <;> cases hf' : hasFlag flags other <;> simp [hbit, hother, hf, hf']
  have hsplit : cacheWords maxAge = [(HIN_CACHE_PRIVATE, bytes "private"), (HIN_CACHE_PUBLIC, bytes "public")] ++
      ([(HIN_CACHE_MAX_AGE, bytes "max-age=" ++ decText maxAge)] ++
      ([(HIN_CACHE_IMMUTABLE, bytes "immutable"), (HIN_CACHE_NO_CACHE, bytes "no-cache")] ++
      ([(HIN_CACHE_NO_STORE, bytes "no-store")] ++ ([(HIN_CACHE_NO_TRANSFORM, bytes "no-transform")] ++
      ([(HIN_CACHE_MUST_REVALIDATE, bytes "must-revalidate")] ++
      [(HIN_CACHE_PROXY_REVALIDATE, bytes "proxy-revalidate")]))))) := rfl
  rw [printedWords, hsplit]
  simp only [List.filter_append, List.map_append]
  rw [htwo _ _ _ _ (hkept _ (by simp)) hpublic, htwo _ _ _ _ (hkept _ (by simp)) hcache, hone _ _ (hkept _ (by simp)),
    hone _ _ (hkept _ (by simp)), hone _ _ (hkept _ (by simp)), hone _ _ (hkept _ (by simp)), hone _ _ (hkept _ (by simp))]
  simp only [cacheControlTexts, List.append_assoc]
  rfl

/-- What a single flag has in common with others is the flag or nothing. -/
theorem and_bit {bit : UInt32} (k : Nat) (hbit : bit = ⟨BitVec.twoPow 32 k⟩) (flags : UInt32) :
    flags &&& bit = if hasFlag flags bit then bit else 0 := by
  subst hbit
  have hand : (flags &&& ⟨BitVec.twoPow 32 k⟩ : UInt32).toBitVec =
      if flags.toBitVec.getLsbD k then BitVec.twoPow 32 k else 0#32 := by
    rw [UInt32.toBitVec_and]
    exact BitVec.and_twoPow ..
  unfold hasFlag
  by_cases hzero : flags &&& (⟨BitVec.twoPow 32 k⟩ : UInt32) = 0
  · rw [hzero]
    rfl
  · rw [if_pos (bne_iff_ne.mpr hzero)]
    refine UInt32.toBitVec_inj.mp ?_
    rw [hand]
    split
    · rfl
    · rename_i hbit
      rw [if_neg hbit] at hand
      exact absurd (UInt32.toBitVec_inj.mp hand) hzero

theorem and_or_split (a b c : UInt32) : a &&& (b ||| c) = (a &&& b) ||| (a &&& c) := by
  refine UInt32.toBitVec_inj.mp ?_
  simp only [UInt32.toBitVec_and, UInt32.toBitVec_or, BitVec.and_or_distrib_left]

/-- Single flags are collected. By induction on them: each adds what it has in common with `flags`. -/
theorem collect_flags (flags : UInt32) {bits : List UInt32}
    (hbits : ∀ bit ∈ bits, flags &&& bit = if hasFlag flags bit then bit else 0) (mask : UInt32) :
    (bits.filter fun bit => hasFlag flags bit).foldl (· ||| ·) (flags &&& mask) = flags &&& bits.foldl (· ||| ·) mask := by
  induction bits generalizing mask with
  | nil => rfl
  | cons bit bits ih =>
      have hrest := ih (fun b hb => hbits b (List.mem_cons_of_mem _ hb)) (mask ||| bit)
      have hbit := hbits bit List.mem_cons_self
      rw [List.foldl_cons, ← hrest, and_or_split, hbit]
      cases hflag : hasFlag flags bit with
      | true => rw [List.filter_cons_of_pos hflag, List.foldl_cons, if_pos rfl]
      | false => rw [List.filter_cons_of_neg (by simp [hflag]), if_neg Bool.false_ne_true, UInt32.or_zero]

/-- **The flags of the words are the flags that are printed.** -/
theorem printedWords_flags {flags : UInt32} (h : flags &&& ~~~cacheMask = 0) (maxAge : Int) :
    ((printedWords flags maxAge).map Prod.fst).foldl (· ||| ·) 0 = printedFlags flags := by
  have hbits : ∀ bit ∈ (cacheWords maxAge).map Prod.fst,
      printedFlags flags &&& bit = if hasFlag (printedFlags flags) bit then bit else 0 := by
    intro bit hbit
    simp only [cacheWords, List.map_cons, List.map_nil, List.mem_cons, List.not_mem_nil, or_false] at hbit
    rcases hbit with rfl | rfl | rfl | rfl | rfl | rfl | rfl | rfl | rfl
    · exact and_bit 3 (by decide) _
    · exact and_bit 2 (by decide) _
    · exact and_bit 10 (by decide) _
    · exact and_bit 7 (by decide) _
    · exact and_bit 4 (by decide) _
    · exact and_bit 5 (by decide) _
    · exact and_bit 6 (by decide) _
    · exact and_bit 8 (by decide) _
    · exact and_bit 9 (by decide) _
  have hmask : flags &&& cacheMask = flags := by
    have hsplit := and_or_split flags cacheMask (~~~cacheMask)
    have hall : cacheMask ||| ~~~cacheMask = -1 := by decide
    rw [hall, UInt32.and_neg_one, h, UInt32.or_zero] at hsplit
    exact hsplit.symm
  have hprinted : printedFlags flags &&& cacheMask = printedFlags flags := by
    unfold printedFlags
    rw [UInt32.and_assoc, UInt32.and_comm (~~~_) cacheMask, ← UInt32.and_assoc, hmask]
  have hwords : (printedWords flags maxAge).map Prod.fst =
      ((cacheWords maxAge).map Prod.fst).filter fun bit => hasFlag (printedFlags flags) bit := by
    rw [List.filter_map]
    rfl
  have hcollect := collect_flags (printedFlags flags) hbits 0
  rw [UInt32.and_zero] at hcollect
  rw [hwords, hcollect]
  exact hprinted

/-! ## Reading the words -/

theorem ageDigits_word (maxAge : Int) : ageDigits (bytes "max-age=" ++ decText maxAge) =
    if maxAge < 0 then none else some (decDigits maxAge.natAbs) := by
  obtain ⟨hne, hdigits, -⟩ := decDigits_spec maxAge.natAbs
  have hdrop : (bytes "max-age=" ++ decText maxAge).drop 8 = decText maxAge := List.drop_left' (by decide)
  have hpre : bytes "max-age=" <+: bytes "max-age=" ++ decText maxAge := List.prefix_append _ _
  unfold ageDigits
  dsimp only
  rw [hdrop]
  by_cases hneg : maxAge < 0
  · have htext : decText maxAge = 45 :: decDigits maxAge.natAbs := if_pos hneg
    have hnone : ((decText maxAge).dropWhile isspace).takeWhile isdigit = [] := by
      rw [htext, List.dropWhile_cons_of_neg (by decide), List.takeWhile_cons_of_neg (by decide)]
    rw [if_pos hneg, if_neg fun h => h.2 hnone]
  · have htext : decText maxAge = decDigits maxAge.natAbs := if_neg hneg
    have hall : ((decText maxAge).dropWhile isspace).takeWhile isdigit = decDigits maxAge.natAbs := by
      obtain ⟨c, cs, hcs⟩ := List.exists_cons_of_ne_nil hne
      have hspace := (isdigit_facts (hdigits c (hcs ▸ List.mem_cons_self))).1
      rw [htext, hcs, List.dropWhile_cons_of_neg (by simp [hspace]), ← hcs, List.takeWhile_eq_self_iff.mpr hdigits]
    rw [if_neg hneg, hall, if_pos ⟨hpre, hne⟩]

/-- **A word reads back as its flag,** and an age as the number, if that is not negative. -/
theorem cacheOption_word {maxAge : Int} {word : UInt32 × Bytes} (hin : word ∈ cacheWords maxAge)
    (hage : word.1 = HIN_CACHE_MAX_AGE → 0 ≤ maxAge) :
    (cacheOption word.2 (0, none)).1 = word.1 ∧
      ageDigits word.2 = if word.1 = HIN_CACHE_MAX_AGE then some (decDigits maxAge.natAbs) else none := by
  simp only [cacheWords, List.mem_cons, List.not_mem_nil, or_false] at hin
  rcases hin with rfl | rfl | rfl | rfl | rfl | rfl | rfl | rfl | rfl
  · exact ⟨by decide, by rw [if_neg (by decide)]; decide⟩
  · exact ⟨by decide, by rw [if_neg (by decide)]; decide⟩
  · have hdigits := ageDigits_word maxAge
    rw [if_neg (not_lt.mpr (hage rfl))] at hdigits
    refine ⟨?_, by rw [if_pos rfl, hdigits]⟩
    have htook := ageDigits_took (bytes "max-age=" ++ decText maxAge)
    rw [hdigits] at htook
    unfold cacheOption
    dsimp only
    rw [htook]
    rfl
  · exact ⟨by decide, by rw [if_neg (by decide)]; decide⟩
  · exact ⟨by decide, by rw [if_neg (by decide)]; decide⟩
  · exact ⟨by decide, by rw [if_neg (by decide)]; decide⟩
  · exact ⟨by decide, by rw [if_neg (by decide)]; decide⟩
  · exact ⟨by decide, by rw [if_neg (by decide)]; decide⟩
  · exact ⟨by decide, by rw [if_neg (by decide)]; decide⟩

/-- No word gives an age where the age is negative. -/
theorem ageDigits_negative {maxAge : Int} (hneg : maxAge < 0) {word : UInt32 × Bytes} (hin : word ∈ cacheWords maxAge) :
    ageDigits word.2 = none := by
  simp only [cacheWords, List.mem_cons, List.not_mem_nil, or_false] at hin
  rcases hin with rfl | rfl | rfl | rfl | rfl | rfl | rfl | rfl | rfl
  · decide
  · decide
  · rw [ageDigits_word, if_pos hneg]
  · decide
  · decide
  · decide
  · decide
  · decide
  · decide

/-- The words are options. -/
theorem cacheWords_bytes {maxAge : Int} {word : UInt32 × Bytes} (hin : word ∈ cacheWords maxAge) :
    word.2 ≠ [] ∧ ∀ c ∈ word.2, optionByte c = true := by
  have hfixed : ∀ text : Bytes, text.isEmpty = false ∧ text.all optionByte = true →
      text ≠ [] ∧ ∀ c ∈ text, optionByte c = true := by
    rintro text ⟨hne, hall⟩
    exact ⟨by simpa using hne, List.all_eq_true.mp hall⟩
  simp only [cacheWords, List.mem_cons, List.not_mem_nil, or_false] at hin
  rcases hin with rfl | rfl | rfl | rfl | rfl | rfl | rfl | rfl | rfl
  · exact hfixed _ (by decide)
  · exact hfixed _ (by decide)
  · refine ⟨List.append_ne_nil_of_left_ne_nil (by decide) _, fun c hc => ?_⟩
    obtain ⟨-, hdigits, -⟩ := decDigits_spec maxAge.natAbs
    have hdigit : ∀ d, isdigit d = true → optionByte d = true := by
      intro d hd
      simp [optionByte, isalnum, hd]
    rcases List.mem_append.mp hc with hc | hc
    · exact (hfixed (bytes "max-age=") (by decide)).2 c hc
    · unfold decText at hc
      split at hc
      · rcases List.mem_cons.mp hc with rfl | hc
        · decide
        · exact hdigit c (hdigits c hc)
      · exact hdigit c (hdigits c hc)
  · exact hfixed _ (by decide)
  · exact hfixed _ (by decide)
  · exact hfixed _ (by decide)
  · exact hfixed _ (by decide)
  · exact hfixed _ (by decide)
  · exact hfixed _ (by decide)

/-- The words that are read give their flags and the age, by induction on them. -/
theorem foldl_words {maxAge : Int} {words : List (UInt32 × Bytes)}
    (hin : ∀ word ∈ words, word ∈ cacheWords maxAge ∧ (word.1 = HIN_CACHE_MAX_AGE → 0 ≤ maxAge ∧ maxAge < 2 ^ 31))
    (r : UInt32 × Option Int) :
    (words.map Prod.snd).foldl (fun r opt => cacheOption opt r) r =
      ((words.map Prod.fst).foldl (· ||| ·) r.1,
        if HIN_CACHE_MAX_AGE ∈ words.map Prod.fst then some maxAge else r.2) := by
  induction words generalizing r with
  | nil => rfl
  | cons word words ih =>
      obtain ⟨hword, hage⟩ := hin word List.mem_cons_self
      obtain ⟨hflag, hdigits⟩ := cacheOption_word hword fun h => (hage h).1
      rw [List.map_cons, List.foldl_cons, ih (fun w hw => hin w (List.mem_cons_of_mem _ hw)), cacheOption_eq, hflag, hdigits,
        List.map_cons, List.foldl_cons]
      by_cases hmax : word.1 = HIN_CACHE_MAX_AGE
      · obtain ⟨-, -, hval⟩ := decDigits_spec maxAge.natAbs
        have hkept : atoiNat maxAge.natAbs = maxAge := by
          obtain ⟨h0, hlt⟩ := hage hmax
          have hsame := (atoiNat_eq_iff maxAge.natAbs).mpr (by omega)
          omega
        simp [hmax, hval, hkept]
      · have hmem : HIN_CACHE_MAX_AGE ∈ word.1 :: words.map Prod.fst ↔ HIN_CACHE_MAX_AGE ∈ words.map Prod.fst := by
          rw [List.mem_cons]
          exact or_iff_right fun h => hmax h.symm
        rw [if_neg hmax]
        by_cases hlater : HIN_CACHE_MAX_AGE ∈ words.map Prod.fst
        · rw [if_pos hlater, if_pos (hmem.mpr hlater)]
        · rw [if_neg hlater, if_neg fun h => hlater (hmem.mp h)]
          rfl

/-! ## The printed line -/

theorem joined_cons (word : Bytes) (words : List Bytes) :
    joined (word :: words) = word ++ if words = [] then [] else 44 :: 32 :: joined words := by
  cases words with
  | nil => simp [joined]
  | cons next rest => simp [joined]

theorem joined_mem {words : List Bytes} {c : UInt8} (h : c ∈ joined words) : c = 44 ∨ c = 32 ∨ ∃ word ∈ words, c ∈ word := by
  induction words with
  | nil => exact absurd h List.not_mem_nil
  | cons word words ih =>
      rw [joined_cons] at h
      rcases List.mem_append.mp h with hc | hc
      · exact .inr (.inr ⟨word, List.mem_cons_self, hc⟩)
      · split at hc
        · exact absurd hc List.not_mem_nil
        · rcases List.mem_cons.mp hc with rfl | hc
          · exact .inl rfl
          · rcases List.mem_cons.mp hc with rfl | hc
            · exact .inr (.inl rfl)
            · rcases ih hc with h | h | ⟨other, hin, hc⟩
              · exact .inl h
              · exact .inr (.inl h)
              · exact .inr (.inr ⟨other, List.mem_cons_of_mem _ hin, hc⟩)

theorem joined_length {words : List Bytes} (hne : ∀ word ∈ words, word ≠ []) : words.length ≤ (joined words).length := by
  induction words with
  | nil => exact Nat.zero_le _
  | cons word words ih =>
      have hfirst := List.length_pos_of_ne_nil (hne word List.mem_cons_self)
      have hrest := ih fun w hw => hne w (List.mem_cons_of_mem _ hw)
      rw [joined_cons, List.length_cons, List.length_append]
      by_cases hlast : words = []
      · subst hlast
        simp only [List.length_nil]
        omega
      · rw [if_neg hlast, List.length_cons, List.length_cons]
        omega

/-- The words with a separator behind each are the words with one between them, and one more. -/
theorem flatten_words {words : List Bytes} (hne : words ≠ []) :
    (words.map fun word => word ++ [44, 32]).flatten = joined words ++ [44, 32] := by
  induction words with
  | nil => exact absurd rfl hne
  | cons word words ih =>
      rw [List.map_cons, List.flatten_cons, joined_cons]
      by_cases hlast : words = []
      · subst hlast
        simp
      · rw [ih hlast, if_neg hlast]
        simp

theorem optionByte_facts {c : UInt8} (h : optionByte c = true) : isspace c = false ∧ c ≠ 44 ∧ c ≠ LF := by
  have hall : ∀ c : UInt8, optionByte c = true → isspace c = false ∧ c ≠ 44 ∧ c ≠ LF := forall_byte (by decide +kernel)
  exact hall c h

theorem matchString_separator {more : Bytes} (h : ∀ c ∈ more.head?, isspace c = false) :
    (matchString (44 :: 32 :: more) (bytes "%s*,%s*")).took = some 2 := by
  have hf : bytes "%s*,%s*" = [37, 115, 42, 44, 37, 115, 42] := by decide
  have hs : takeSpecifier [42, 44, 37, 115, 42] = (⟨true, true⟩, [44, 37, 115, 42]) := by decide
  have hs' : takeSpecifier [42] = (⟨true, true⟩, []) := by decide
  have hspace : getPattern [37, 115] 0 = [⟨PATTERN_SPACE, 0⟩] := by decide
  have hcomma : ((44 : UInt8) :: 32 :: more).takeWhile isspace = [] := List.takeWhile_cons_of_neg (by decide)
  have hblank : ((32 : UInt8) :: more).takeWhile isspace = [32] := by
    rw [List.takeWhile_cons_of_pos (by decide)]
    cases more with
    | nil => rfl
    | cons c cs => rw [List.takeWhile_cons_of_neg (by simp [h c rfl])]
  rw [matchString, matchStringVirtual, if_neg (by simp), hf]
  show (formatLoop false 8 (37 :: 115 :: [42, 44, 37, 115, 42]) (44 :: 32 :: more) 0 none []).took = some 2
  rw [formatLoop_class, hs]
  simp only [matchPattern_star hspace (fun c => matchChar_space c 0), hcomma, List.length_nil, List.drop_zero, Nat.add_zero]
  have hliteral : formatLoop false ([(44 : UInt8)].length + 6) ([44] ++ [37, 115, 42]) (44 :: 32 :: more) 0 none [] =
      formatLoop false 6 (37 :: 115 :: [42]) (32 :: more) 1 none [] := by
    rw [formatLoop_literal false 6 (by decide), if_pos (by simp [literalPrefix])]
    rfl
  show (formatLoop false ([(44 : UInt8)].length + 6) ([44] ++ [37, 115, 42]) (44 :: 32 :: more) 0 none []).took = some 2
  rw [hliteral, formatLoop_class, hs']
  simp only [matchPattern_star hspace (fun c => matchChar_space c 0), hblank]
  rw [formatLoop_end]
  rfl

/-- **The options of some words are the words,** by induction on them. -/
theorem cacheOptions_joined {words : List Bytes} (hwords : ∀ word ∈ words, word ≠ [] ∧ ∀ c ∈ word, optionByte c = true)
    {blanks : Bytes} (hblanks : ∀ c ∈ blanks, isspace c = true) {fuel : Nat} (hfuel : words.length < fuel) :
    cacheOptions fuel (blanks ++ joined words) = words := by
  induction words generalizing blanks fuel with
  | nil =>
      obtain ⟨fuel, rfl⟩ : ∃ k, fuel = k + 1 := ⟨fuel - 1, by simp at hfuel; omega⟩
      have hall : (blanks ++ joined []).dropWhile isspace = [] := by
        rw [joined, List.append_nil]
        exact List.dropWhile_eq_nil_iff.mpr hblanks
      rw [cacheOptions, matchString_option, hall]
      rfl
  | cons word words ih =>
      obtain ⟨fuel, rfl⟩ : ∃ k, fuel = k + 1 := ⟨fuel - 1, by simp at hfuel; omega⟩
      obtain ⟨hne, hword⟩ := hwords word List.mem_cons_self
      obtain ⟨rest, hrest⟩ : ∃ rest, rest = if words = [] then [] else (44 : UInt8) :: 32 :: joined words := ⟨_, rfl⟩
      have hsource : blanks ++ joined (word :: words) = blanks ++ (word ++ rest) := by rw [joined_cons, hrest]
      -- the blanks end where the word begins, and the word where the separator does
      have hspace : (blanks ++ (word ++ rest)).takeWhile isspace = blanks ∧
          (blanks ++ (word ++ rest)).dropWhile isspace = word ++ rest := by
        obtain ⟨c, cs, rfl⟩ := List.exists_cons_of_ne_nil hne
        have hc := (optionByte_facts (hword c List.mem_cons_self)).1
        rw [List.takeWhile_append_of_pos hblanks, List.dropWhile_append_of_pos hblanks, List.cons_append,
          List.takeWhile_cons_of_neg (by simp [hc]), List.dropWhile_cons_of_neg (by simp [hc]), List.append_nil]
        exact ⟨rfl, rfl⟩
      have hoption : (word ++ rest).takeWhile optionByte = word := by
        rw [List.takeWhile_append_of_pos hword, hrest]
        split
        · simp
        · rw [List.takeWhile_cons_of_neg (by decide), List.append_nil]
      have hmatch : matchString (blanks ++ (word ++ rest)) (bytes "%s*([%w%-=]+)") =
          ⟨some (blanks.length + word.length), [(blanks.length, word.length)]⟩ := by
        rw [matchString_option, hspace.1, hspace.2, hoption, if_neg hne]
      obtain ⟨k, hk⟩ : ∃ k, blanks.length + word.length = k + 1 :=
        ⟨blanks.length + word.length - 1, by have := List.length_pos_of_ne_nil hne; omega⟩
      have hcapture : (matchString (blanks ++ (word ++ rest)) (bytes "%s*([%w%-=]+)")).capture
          (blanks ++ (word ++ rest)) 0 = word := by
        rw [hmatch]
        show ((blanks ++ (word ++ rest)).drop blanks.length).take word.length = word
        rw [List.drop_left, List.take_left]
      have htook : (matchString (blanks ++ (word ++ rest)) (bytes "%s*([%w%-=]+)")).took =
          some (blanks.length + word.length) := by
        rw [hmatch, hk]
        rfl
      have hdrop : (blanks ++ (word ++ rest)).drop (blanks.length + word.length) = rest := by
        rw [← List.drop_drop, List.drop_left, List.drop_left]
      rw [hsource, cacheOptions]
      simp only [htook, hcapture, hdrop]
      by_cases hlast : words = []
      · rw [if_pos hlast] at hrest
        rw [hrest, hlast]
        rfl
      · rw [if_neg hlast] at hrest
        have hhead : ∀ c ∈ (joined words).head?, isspace c = false := by
          obtain ⟨next, more, rfl⟩ := List.exists_cons_of_ne_nil hlast
          obtain ⟨hne', hnext⟩ := hwords next (by simp)
          obtain ⟨d, ds, rfl⟩ := List.exists_cons_of_ne_nil hne'
          intro c hc
          rw [joined_cons] at hc
          obtain rfl : d = c := by simpa using hc
          exact (optionByte_facts (hnext d List.mem_cons_self)).1
        have hmore := @ih (fun w hw => hwords w (List.mem_cons_of_mem _ hw)) [] (by simp) fuel (by simp at hfuel; omega)
        rw [hrest, matchString_separator hhead]
        exact congrArg (word :: ·) hmore

theorem decText_length {n : Int} (h : n.natAbs < 10 ^ 19) : (decText n).length ≤ 20 := by
  have hdigits : (decDigits n.natAbs).length ≤ 19 := decDigitsAux_length h
  unfold decText
  split
  · rw [List.length_cons]
    omega
  · omega

/-- All that is written is short. -/
theorem cacheControlTexts_short {flags : UInt32} {maxAge : Int}
    (hage : hasFlag (printedFlags flags) HIN_CACHE_MAX_AGE = true → maxAge.natAbs < 10 ^ 19) :
    ∀ text ∈ cacheControlTexts flags maxAge, text.length < Netcode.READ_SZ := by
  have hfixed : ∀ text : Bytes, decide (text.length < 40) = true → (text ++ [44, 32]).length < Netcode.READ_SZ := by
    intro text hlen
    have hlen := of_decide_eq_true hlen
    rw [List.length_append]
    show text.length + 2 < 4096
    omega
  rw [cacheControlTexts_eq]
  intro text hin
  rcases List.mem_cons.mp hin with rfl | hin
  · decide
  · obtain ⟨word, hword, rfl⟩ := List.mem_map.mp hin
    obtain ⟨hword, hflag⟩ := List.mem_filter.mp hword
    simp only [cacheWords, List.mem_cons, List.not_mem_nil, or_false] at hword
    rcases hword with rfl | rfl | rfl | rfl | rfl | rfl | rfl | rfl | rfl
    · exact hfixed _ (by decide)
    · exact hfixed _ (by decide)
    · have hlen := decText_length (hage hflag)
      have hname : (bytes "max-age=").length = 8 := by decide
      apply hfixed
      rw [decide_eq_true_eq, List.length_append, hname]
      omega
    · exact hfixed _ (by decide)
    · exact hfixed _ (by decide)
    · exact hfixed _ (by decide)
    · exact hfixed _ (by decide)
    · exact hfixed _ (by decide)
    · exact hfixed _ (by decide)

/-- **What is printed is the line,** at the end of what the chain holds. -/
theorem headerCacheControl_spec {c : List HeaderBuffer} (hc : ProperChain c) {flags : UInt32} {maxAge : Int}
    (hage : hasFlag (printedFlags flags) HIN_CACHE_MAX_AGE = true → maxAge.natAbs < 10 ^ 19) :
    ∃ c', headerCacheControl c flags maxAge = some c' ∧ contents c' = contents c ++ (cacheLine flags maxAge ++ [CR, LF]) := by
  obtain ⟨c₁, hcalls, hc₁, hcontents, hlast⟩ := headerCalls_short (cacheControlTexts_short hage) hc
  -- the line and what is taken back from it
  obtain ⟨sep, hsep, hflat, hsuffix⟩ : ∃ sep : Bytes, sep.length = 2 ∧
      (cacheControlTexts flags maxAge).flatten = cacheLine flags maxAge ++ sep ∧
      ∃ text ∈ (cacheControlTexts flags maxAge).getLast?, sep <:+ text := by
    rw [cacheControlTexts_eq, cacheLine]
    by_cases hnone : printedWords flags maxAge = []
    · rw [hnone, if_pos rfl]
      exact ⟨[58, 32], rfl, by decide, bytes "Cache-Control: ", rfl, bytes "Cache-Control", by decide⟩
    · have hwords : (printedWords flags maxAge).map Prod.snd ≠ [] := by simpa using hnone
      have hflat := flatten_words hwords
      rw [List.map_map] at hflat
      refine ⟨[44, 32], rfl, ?_, ?_⟩
      · rw [if_neg hnone, List.flatten_cons, List.append_assoc, ← hflat]
        rfl
      · obtain ⟨init, word, hinit⟩ : ∃ init word, printedWords flags maxAge = init ++ [word] :=
          ⟨_, _, (List.dropLast_append_getLast hnone).symm⟩
        refine ⟨word.2 ++ [44, 32], ?_, List.suffix_append _ _⟩
        rw [hinit, List.map_append, List.getLast?_cons]
        simp
  obtain ⟨text, htext, hend⟩ := hsuffix
  rw [hflat, ← List.append_assoc] at hcontents
  obtain ⟨hcut, hkept⟩ := cutLast_spec hc₁ hcontents (hend.trans (hlast text htext))
  obtain ⟨c', hcall, -, hcontents', -⟩ := @headerCall_short _ hcut [CR, LF] (by decide)
  refine ⟨c', ?_, by rw [hcontents', hkept, List.append_assoc]⟩
  rw [headerCacheControl, hcalls, Option.bind_some]
  rw [hsep] at hcall
  exact hcall

/-! ## Reading it again -/

/-- What a reader of heads stores of a line. -/
def readCacheControl (line : Bytes) : UInt32 × Option Int :=
  match (matchiString line (bytes "Cache-Control:")).took with
  | some n => httpdParseCacheStr ((line.drop n).length + 1) (0, none) (line.drop n)
  | none => (0, none)

/-- The first line of a text is found and read. -/
def rereads (text : Bytes) : Option (UInt32 × Option Int) := (hinFindLine 0 { data := text }).map fun r => readCacheControl r.1

/-- **The printed line reads back as what its words are read as.** -/
theorem rereads_line (flags : UInt32) (maxAge : Int) : rereads (cacheLine flags maxAge ++ [CR, LF]) =
    some (((printedWords flags maxAge).map Prod.snd).foldl (fun r opt => cacheOption opt r) (0, none)) := by
  have hwords : ∀ text ∈ (printedWords flags maxAge).map Prod.snd, text ≠ [] ∧ ∀ c ∈ text, optionByte c = true := by
    intro text hin
    obtain ⟨word, hword, rfl⟩ := List.mem_map.mp hin
    exact cacheWords_bytes (List.mem_filter.mp hword).1
  have hlf : LF ∉ cacheLine flags maxAge := by
    unfold cacheLine
    split
    · decide
    · intro hin
      rcases List.mem_append.mp hin with hin | hin
      · exact absurd hin (by decide)
      · rcases joined_mem hin with h | h | ⟨text, htext, hc⟩
        · exact absurd h (by decide)
        · exact absurd h (by decide)
        · exact (optionByte_facts ((hwords text htext).2 _ hc)).2.2 rfl
  rw [rereads, hinFindLine_line 0 hlf [], Option.map_some]
  congr 1
  by_cases hnone : printedWords flags maxAge = []
  · rw [cacheLine, if_pos hnone, hnone]
    decide
  · have hline : cacheLine flags maxAge = bytes "Cache-Control:" ++ ([32] ++ joined ((printedWords flags maxAge).map Prod.snd)) := by
      rw [cacheLine, if_neg hnone, ← List.append_assoc]
      congr 1
    have htook : (matchiString (cacheLine flags maxAge) (bytes "Cache-Control:")).took = some 14 := by
      rw [matchiString_name (by decide) (by decide), hline, literalPrefix_of_append (List.prefix_append _ _), if_pos rfl]
      rfl
    have hdrop : (cacheLine flags maxAge).drop 14 = [32] ++ joined ((printedWords flags maxAge).map Prod.snd) := by
      rw [hline]
      exact List.drop_left' (by decide)
    have hblank : ∀ c ∈ ([32] : Bytes), isspace c = true := by simp [isspace]
    have hlong : ((printedWords flags maxAge).map Prod.snd).length <
        ([32] ++ joined ((printedWords flags maxAge).map Prod.snd)).length + 1 := by
      have := joined_length fun text hin => (hwords text hin).1
      rw [List.length_append]
      omega
    rw [readCacheControl, htook]
    dsimp only
    rw [hdrop, httpdParseCacheStr_eq, cacheOptions_joined hwords hblank hlong]

theorem atoiNat_range (n : Nat) : -(2 ^ 31) ≤ atoiNat n ∧ atoiNat n < 2 ^ 31 ∧
    (0 ≤ atoiNat n ↔ min n (2 ^ 63 - 1) % 2 ^ 32 < 2 ^ 31) := by
  unfold atoiNat Int.bmod
  dsimp only
  split <;> omega

/-- The number of the last age stays positive when it is converted. -/
def AgeFits (s : Bytes) : Prop :=
  ∀ digits ∈ lastAge (cacheOptions (s.length + 1) s), min (decNat 0 digits) (2 ^ 63 - 1) % 2 ^ 32 < 2 ^ 31

/-- **The line that is printed for what is read of a text reads back the same,** up to the flags that are overridden, exactly
    if the number of the last age is not converted to a negative one. `old` is the age from before, which is kept where the
    text has none. -/
theorem cache_round_trip_iff (s : Bytes) (old : Int) {c : List HeaderBuffer} (hc : ProperChain c) :
    let read := httpdParseCacheStr (s.length + 1) (0, none) s
    ∃ c' text, headerCacheControl c read.1 (read.2.getD old) = some c' ∧ contents c' = contents c ++ text ∧
      (rereads text = some (printedFlags read.1, read.2) ↔ AgeFits s) := by
  obtain ⟨hage, hmask, hflag⟩ := foldl_cacheOption (cacheOptions (s.length + 1) s) (0, none)
  rw [← httpdParseCacheStr_eq] at hage hmask hflag
  intro read
  have hmask : read.1 &&& ~~~cacheMask = 0 := hmask (by decide)
  have hflag : hasFlag read.1 HIN_CACHE_MAX_AGE = read.2.isSome := hflag (by decide)
  have hage : read.2 = (lastAge (cacheOptions (s.length + 1) s)).map fun digits => atoiNat (decNat 0 digits) := by
    rw [show read.2 = _ from hage, Option.or_none]
  have hprinted : hasFlag (printedFlags read.1) HIN_CACHE_MAX_AGE = read.2.isSome := by
    rw [hasFlag_kept 10 (by decide) (by decide) (by decide) (by decide), hflag]
  have hrange : ∀ age, read.2 = some age → -(2 ^ 31) ≤ age ∧ age < 2 ^ 31 := by
    intro age hsome
    rw [hage] at hsome
    obtain ⟨digits, -, rfl⟩ := Option.map_eq_some_iff.mp hsome
    obtain ⟨hlow, hhigh, -⟩ := atoiNat_range (decNat 0 digits)
    exact ⟨hlow, hhigh⟩
  obtain ⟨c', hcall, hcontents⟩ := @headerCacheControl_spec _ hc read.1 (read.2.getD old) (by
    intro hset
    rw [hprinted] at hset
    obtain ⟨age, hsome⟩ := Option.isSome_iff_exists.mp hset
    have := hrange age hsome
    rw [hsome, Option.getD_some]
    omega)
  refine ⟨c', _, hcall, hcontents, ?_⟩
  rw [rereads_line, Option.some.injEq]
  have hmem : HIN_CACHE_MAX_AGE ∈ (printedWords read.1 (read.2.getD old)).map Prod.fst ↔ read.2.isSome = true := by
    rw [← hprinted]
    constructor
    · intro hin
      obtain ⟨word, hword, heq⟩ := List.mem_map.mp hin
      rw [← heq]
      exact (List.mem_filter.mp hword).2
    · intro hset
      exact List.mem_map.mpr ⟨(HIN_CACHE_MAX_AGE, bytes "max-age=" ++ decText (read.2.getD old)),
        List.mem_filter.mpr ⟨by simp [cacheWords], hset⟩, rfl⟩
  cases hread : read.2 with
  | none =>
      rw [hread] at hage hmem
      have hnone : lastAge (cacheOptions (s.length + 1) s) = none := Option.map_eq_none_iff.mp hage.symm
      have hin : ∀ word ∈ printedWords read.1 ((none : Option Int).getD old), word ∈ cacheWords ((none : Option Int).getD old) ∧
          (word.1 = HIN_CACHE_MAX_AGE → 0 ≤ (none : Option Int).getD old ∧ (none : Option Int).getD old < 2 ^ 31) := by
        intro word hword
        refine ⟨(List.mem_filter.mp hword).1, fun hmax => ?_⟩
        have := hmem.mp (List.mem_map.mpr ⟨word, hword, hmax⟩)
        exact absurd this (by simp)
      have hfits : AgeFits s := by
        unfold AgeFits
        rw [hnone]
        simp
      refine iff_of_true ?_ hfits
      rw [foldl_words hin, printedWords_flags hmask, if_neg fun h => absurd (hmem.mp h) (by simp)]
  | some age =>
      rw [hread] at hage
      rw [hread, Option.getD_some] at hmem
      obtain ⟨digits, hdigits, hvalue⟩ := Option.map_eq_some_iff.mp hage.symm
      have hfits : AgeFits s ↔ 0 ≤ age := by
        unfold AgeFits
        rw [hdigits, ← hvalue, (atoiNat_range _).2.2]
        simp
      rw [hfits, Option.getD_some]
      constructor
      · intro heq
        by_contra hneg
        -- no word of the line has an age
        have hnone : lastAge ((printedWords read.1 age).map Prod.snd) = none := by
          unfold lastAge
          rw [List.filterMap_eq_nil_iff.mpr]
          · rfl
          · intro text htext
            obtain ⟨word, hword, rfl⟩ := List.mem_map.mp htext
            exact ageDigits_negative (not_le.mp hneg) (List.mem_filter.mp hword).1
        obtain ⟨hlast, -⟩ := foldl_cacheOption ((printedWords read.1 age).map Prod.snd) (0, none)
        rw [heq, hnone] at hlast
        exact absurd hlast (by simp)
      · intro hpos
        have hin : ∀ word ∈ printedWords read.1 age, word ∈ cacheWords age ∧
            (word.1 = HIN_CACHE_MAX_AGE → 0 ≤ age ∧ age < 2 ^ 31) :=
          fun word hword => ⟨(List.mem_filter.mp hword).1, fun _ => ⟨hpos, (hrange age hread).2⟩⟩
        rw [foldl_words hin, printedWords_flags hmask, if_pos (hmem.mpr rfl)]

theorem cache_round_trip_sample : ∃ c' text, headerCacheControl [HeaderBuffer.fresh 0]
      (httpdParseCacheStr 11 (0, none) (bytes "max-age=60")).1 60 = some c' ∧ contents c' = text ∧
    rereads text = some (HIN_CACHE_MAX_AGE, some 60) := by
  have hread : httpdParseCacheStr 11 (0, none) (bytes "max-age=60") = (HIN_CACHE_MAX_AGE, some 60) := by decide
  obtain ⟨c', text, hcall, hcontents, hiff⟩ :=
    cache_round_trip_iff (bytes "max-age=60") 0 (.single (HeaderBuffer.fresh_proper 0))
  have hfits : AgeFits (bytes "max-age=60") := by
    unfold AgeFits
    decide
  have hlen : (bytes "max-age=60").length + 1 = 11 := by decide
  have hback := hiff.mpr hfits
  rw [hlen, hread] at hback hcall
  rw [hread]
  exact ⟨c', text, hcall, hcontents, hback⟩

/-- **The statement fails** for an age of `2 ^ 31`: it is printed with a sign, and not read again. -/
theorem cache_round_trip_wrong :
    httpdParseCacheStr 19 (0, none) (bytes "max-age=2147483648") = (HIN_CACHE_MAX_AGE, some (-2147483648)) ∧
      ∃ c', headerCacheControl [HeaderBuffer.fresh 0] HIN_CACHE_MAX_AGE (-2147483648) = some c' ∧
        rereads (contents c') = some (0, none) := by
  refine ⟨by decide, ?_⟩
  obtain ⟨c', hcall, hcontents⟩ := @headerCacheControl_spec _ (.single (HeaderBuffer.fresh_proper 0))
    HIN_CACHE_MAX_AGE (-2147483648) (fun _ => by decide)
  refine ⟨c', hcall, ?_⟩
  have hempty : contents [HeaderBuffer.fresh 0] = [] := by simp [contents, HeaderBuffer.fresh_content]
  rw [hcontents, hempty, List.nil_append, rereads_line]
  decide

end Http
end Hin9
