import Hin9.Basic.Time
import Hin9.Http.EtagTag
import Hin9.Http.HeaderChain

/-!
# `Http.HttpDate` — a date that a client sends back (`header.c`, `http_misc.c`, `httpd_file.c`, `httpd_head.c`)

`httpd_send_file` prints the modification time of an item in Greenwich. `httpd_parse_headers_line` reads the date with
`strptime`, and takes it for a reading of the local clock. So a time comes back earlier by what the clock is ahead
(`date_round_trip`), and as an item counts as unchanged when it is newer than the date that is sent back, it is sent again
wherever the clock is not ahead of Greenwich (`revalidated_iff`).

Nothing tells `strptime` where the line ends. What stands behind a date is not looked at, so that makes no difference here.
-/

namespace Hin9
namespace Http

open Lib.Calendar Pattern

/-! ## The functions -/

/-- `HIN_HTTP_DATE_FORMAT`. -/
def hinHttpDateFormat : Bytes := bytes "%a, %d %b %Y %X GMT"

def httpDateFormat : List Item := formatItems hinHttpDateFormat

/-- What `gmtime_r` and `strftime` make of a time in `header_date`. -/
def headerDateText (fmt : Bytes) (t : Int) : Option Bytes := (gmtimeR t).map fun tm => strftime tm (formatItems fmt)

/-- The format of the line that `httpd_send_file` writes. -/
def lastModifiedFormat : Bytes := bytes "Last-Modified: " ++ hinHttpDateFormat ++ [CR, LF]

/-- `hin_date_str_to_time`. Whatever `stack` holds where the `struct tm` is. -/
def hinDateStrToTime (zone : Int → Int) (stack : Tm) (source : Bytes) : Int :=
  match strptime httpDateFormat source stack with
  | none => 0
  | some (tm, _) => if mktime zone tm = -1 then 0 else mktime zone tm

/-- The text of a time. -/
def httpDate (t : Int) : Bytes := strftime (utc t) httpDateFormat

/-! ## The format -/

theorem httpDateFormat_eq : httpDateFormat =
    [.weekday, .lit 44, .lit 32, .mday, .lit 32, .month, .lit 32] ++
      [.year, .lit 32, .hour, .lit 58, .min, .lit 58, .sec, .lit 32, .lit 71, .lit 77, .lit 84] := by decide

theorem lastModifiedFormat_items : formatItems lastModifiedFormat =
    (bytes "Last-Modified: ").map .lit ++ httpDateFormat ++ [.lit CR, .lit LF] := by decide

theorem decText_head (n : Int) : ∃ c s, decText n = c :: s ∧ isspace c = false := by
  unfold decText
  split
  · exact ⟨45, _, rfl, by decide⟩
  · obtain ⟨hne, hds, -⟩ := decDigits_spec n.natAbs
    obtain ⟨c, s, hcs⟩ := List.exists_cons_of_ne_nil hne
    exact ⟨c, s, hcs, (isdigit_facts (hds c (hcs ▸ List.mem_cons_self))).1⟩

theorem padTwo_head {n : Nat} (h : n < 100) : ∃ c s, padTwo n = c :: s ∧ isspace c = false := by
  obtain ⟨hlen, hds, -⟩ := padTwo_spec h
  obtain ⟨c, s, hcs⟩ := List.exists_cons_of_length_pos (by omega : 0 < (padTwo n).length)
  exact ⟨c, s, hcs, (isdigit_facts (hds c (hcs ▸ List.mem_cons_self))).1⟩

theorem name_head {names : List Bytes} (h : ∀ name ∈ names, ∃ c ∈ (name.take 3).head?, isspace c = false) {i : Nat}
    (hi : i < names.length) : ∃ c s, (names.getD i [63]).take 3 = c :: s ∧ isspace c = false := by
  rw [List.getD_eq_getElem _ _ hi]
  obtain ⟨c, hc, hspace⟩ := h _ (List.getElem_mem hi)
  obtain ⟨s, hs⟩ := List.head?_eq_some_iff.mp hc
  exact ⟨c, s, hs, hspace⟩

/-- **What is printed for a field** does not start with a blank. -/
theorem print_head {tm : Tm} (htm : tm.Valid) {item : Item} (hitem : ∀ c, item ≠ .lit c) :
    ∃ c s, item.print tm = c :: s ∧ isspace c = false := by
  cases item with
  | weekday => exact name_head (by decide +kernel) (i := tm.wday) htm.wday
  | month => exact name_head (by decide +kernel) (i := tm.mon) htm.mon
  | mday => exact padTwo_head (lt_of_le_of_lt htm.mday.2 (by decide))
  | year => exact decText_head _
  | hour => exact padTwo_head (htm.hour.trans (by decide))
  | min => exact padTwo_head (htm.min.trans (by decide))
  | sec => exact padTwo_head (htm.sec.trans (by decide))
  | lit c => exact absurd rfl (hitem c)

/-- A blank in front of a field takes nothing of it. -/
theorem blank_stops {tm : Tm} (htm : tm.Valid) {item : Item} (hitem : ∀ c, item ≠ .lit c) (fmt : List Item) (rest : Bytes) :
    (Item.lit 32).StopsAt (strftime tm (item :: fmt) ++ rest) := by
  obtain ⟨c, s, hprint, hspace⟩ := print_head htm hitem
  intro _ d hd
  have hhead : (strftime tm (item :: fmt) ++ rest).head? = some c := by
    unfold strftime
    rw [List.flatMap_cons, hprint]
    rfl
  rw [hhead] at hd
  rwa [← Option.some.inj hd]

/-- What may follow, if it is a byte of the format. -/
theorem stops_lit {p : UInt8 → Bool} {tm : Tm} {d : UInt8} (hd : p d = false) (fmt : List Item) (rest : Bytes) :
    ∀ c ∈ (strftime tm (.lit d :: fmt) ++ rest).head?, p c = false := by
  intro c hc
  rwa [← Option.some.inj hc]

/-- The format up to the year. -/
theorem dayMonth_separated {tm : Tm} (htm : tm.Valid) (fmt : List Item) (rest : Bytes) :
    Separated tm (strftime tm (.year :: fmt) ++ rest) [.weekday, .lit 44, .lit 32, .mday, .lit 32, .month, .lit 32] := by
  have hyear : (Item.lit 32).StopsAt (strftime tm (.year :: fmt) ++ rest) :=
    blank_stops htm (fun _ h => Item.noConfusion h) fmt rest
  refine ⟨stops_lit (by decide) _ _, ?_, blank_stops htm (by simp) _ _, trivial, blank_stops htm (by simp) _ _,
    stops_lit (by decide) _ _, hyear, trivial⟩
  exact fun h => absurd h (by decide)

/-- The format from the year on. -/
theorem yearTime_separated {tm : Tm} (htm : tm.Valid) (rest : Bytes) :
    Separated tm rest [.year, .lit 32, .hour, .lit 58, .min, .lit 58, .sec, .lit 32, .lit 71, .lit 77, .lit 84] := by
  have hno : ∀ {c : UInt8} {rest : Bytes}, isspace c = false → (Item.lit c).StopsAt rest :=
    fun hc h => absurd (hc.symm.trans h) Bool.false_ne_true
  exact ⟨stops_lit (by decide) _ _, blank_stops htm (by simp) _ _, trivial, hno (by decide), trivial, hno (by decide), trivial,
    fun _ => stops_lit (by decide) _ _, hno (by decide), hno (by decide), hno (by decide), trivial⟩

/-- **A date is read as it is printed.** -/
theorem strptime_httpDate {tm : Tm} (htm : tm.Valid) (hyear : tm.FourDigits) (rest : Bytes) (stack : Tm) :
    strptime httpDateFormat (strftime tm httpDateFormat ++ rest) stack = some (tm, rest) := by
  have hsep : Separated tm rest httpDateFormat := by
    rw [httpDateFormat_eq]
    exact (dayMonth_separated htm _ rest).append (yearTime_separated htm rest)
  have hset : httpDateFormat.foldl (Item.set tm) stack = tm := by
    rw [httpDateFormat_eq]
    rfl
  rw [strptime_strftime htm hsep (fun _ => hyear), hset]

/-! ## Years that do not come back -/

/-- A year that is no four digits leaves something else than the time that is to follow. -/
theorem strptime_noYear {tm into : Tm} (hno : ¬ tm.FourDigits) (fmt more : List Item) (rest : Bytes) :
    strptime (.year :: .lit 32 :: .hour :: .lit 58 :: fmt) (strftime tm (.year :: .lit 32 :: more) ++ rest) into = none := by
  obtain ⟨tail, htail⟩ : ∃ tail, tail = strftime tm more ++ rest := ⟨_, rfl⟩
  have htext : strftime tm (.year :: .lit 32 :: more) ++ rest = decText (tm.year + 1900) ++ 32 :: tail := by
    rw [htail]
    unfold strftime
    rw [List.flatMap_cons, List.flatMap_cons, List.append_assoc, List.append_assoc]
    rfl
  rw [htext]
  by_cases hneg : tm.year + 1900 < 0
  · -- a sign is no digit
    have hsign : decText (tm.year + 1900) = 45 :: decDigits (tm.year + 1900).natAbs := if_pos hneg
    rw [hsign]
    rfl
  · obtain ⟨-, hds, hval⟩ := decDigits_spec (tm.year + 1900).natAbs
    have hdigits : decText (tm.year + 1900) = decDigits (tm.year + 1900).natAbs := if_neg hneg
    have hbig : ¬ (tm.year + 1900).natAbs ≤ 9999 := fun h => hno ⟨by omega, by omega⟩
    have hlong : 4 + 1 ≤ (decDigits (tm.year + 1900).natAbs).length := by
      by_contra hshort
      have hlt := decNat_lt 0 _ hds
      have hpow : 10 ^ (decDigits (tm.year + 1900).natAbs).length ≤ 10 ^ 4 := Nat.pow_le_pow_right (by decide) (by omega)
      rw [hval] at hlt
      omega
    rw [hdigits]
    have hleft : DigitsLeft tail (4 + 1) (decDigits (tm.year + 1900).natAbs ++ 32 :: tail) := ⟨_, rfl, hds, hlong⟩
    generalize decDigits (tm.year + 1900).natAbs ++ 32 :: tail = text at hleft
    show ((getNumber 0 9999 4 text).map _).bind _ = none
    cases hfour : getNumber 0 9999 4 text with
    | none => rfl
    | some four =>
        obtain ⟨ds, hrest, hds, hlen⟩ := getNumber_left (v := four.1) hleft hfour
        obtain ⟨c, ds, rfl⟩ := List.exists_cons_of_length_pos (hlen : 0 < ds.length)
        have hblank : four.2.dropWhile isspace = four.2 := by
          rw [hrest]
          exact List.dropWhile_cons_of_neg (by simp [(isdigit_facts (hds c List.mem_cons_self)).1])
        -- the blank of the format takes nothing, and the hour reads on in the year
        show ((getNumber 0 23 2 (four.2.dropWhile isspace)).map _).bind _ = none
        rw [hblank]
        cases htwo : getNumber 0 23 2 four.2 with
        | none => rfl
        | some two =>
            have hleft : DigitsLeft tail (0 + 1) four.2 := ⟨c :: ds, hrest, hds, Nat.succ_le_succ (Nat.zero_le _)⟩
            obtain ⟨more, hrest', hmore, -⟩ := getNumber_left (v := two.1) hleft htwo
            have hcolon : two.2.head? ≠ some 58 := by
              rw [hrest']
              cases more with
              | nil => simp
              | cons d more =>
                  intro h
                  have hd := hmore d List.mem_cons_self
                  rw [Option.some.inj h] at hd
                  exact absurd hd (by decide)
            show (Item.scan _ two.2 (.lit 58)).bind _ = none
            rw [Item.scan_lit_none (by decide) hcolon]
            rfl

/-! ## There and back -/

/-- The years that are read back begin and end here. -/
theorem fourDigits_utc (t : Int) : (utc t).FourDigits ↔ -62167219200 ≤ t ∧ t < 253402300800 := by
  have hyear : (utc t).year + 1900 = yearOf (t / 86400) := sub_add_cancel _ _
  have hfirst : 0 ≤ yearOf (t / 86400) ↔ -719528 ≤ t / 86400 := le_yearOf_iff
  have hlast : 10000 ≤ yearOf (t / 86400) ↔ 2932897 ≤ t / 86400 := le_yearOf_iff
  unfold Tm.FourDigits
  rw [hyear]
  omega

/-- **What a date is read as**: the time, less what the local clock is ahead; outside of the years, or at `-1`, nothing. -/
theorem hinDateStrToTime_httpDate (zone : Int → Int) (stack : Tm) (t : Int) (rest : Bytes) :
    hinDateStrToTime zone stack (httpDate t ++ rest) =
      if (-62167219200 ≤ t ∧ t < 253402300800) ∧ t - zone t ≠ -1 then t - zone t else 0 := by
  have hvalid := utc_valid t
  unfold hinDateStrToTime httpDate
  by_cases hyear : (utc t).FourDigits
  · have htime : mktime zone (utc t) = t - zone t := by
      unfold mktime
      rw [timegm_utc]
    rw [strptime_httpDate hvalid hyear]
    dsimp only
    rw [htime]
    by_cases hminus : t - zone t = -1
    · rw [if_pos hminus, if_neg fun h => h.2 hminus]
    · rw [if_neg hminus, if_pos ⟨(fourDigits_utc t).mp hyear, hminus⟩]
  · have hnone : strptime httpDateFormat (strftime (utc t) httpDateFormat ++ rest) stack = none := by
      rw [httpDateFormat_eq, strftime_append, List.append_assoc, strptime_append,
        strptime_strftime hvalid (dayMonth_separated hvalid _ rest) (fun h => absurd h (by decide)), Option.bind_some]
      exact strptime_noYear hyear _ _ rest
    rw [hnone, if_neg fun h => hyear ((fourDigits_utc t).mpr h.1)]

/-- No name is printed with more than three letters. -/
theorem name_length (names : List Bytes) (i : Nat) : ((names.getD i [63]).take 3).length ≤ 3 := List.length_take_le _ _

/-- **The line that is printed** has room in what `strftime` gets. -/
theorem lastModified_line {t : Int} {tm : Tm} (h : gmtimeR t = some tm) :
    produced (headerDateText lastModifiedFormat t) = bytes "Last-Modified: " ++ httpDate t ++ [CR, LF] := by
  obtain ⟨⟨hlo, hhi⟩, rfl⟩ : (-2 ^ 31 ≤ (utc t).year ∧ (utc t).year < 2 ^ 31) ∧ utc t = tm := by
    unfold gmtimeR at h
    split at h
    · exact ⟨by assumption, Option.some.inj h⟩
    · exact absurd h (by simp)
  have hvalid := utc_valid t
  have hends : strftime (utc t) [.lit CR, .lit LF] = [CR, LF] := rfl
  have htext : headerDateText lastModifiedFormat t = some (bytes "Last-Modified: " ++ httpDate t ++ [CR, LF]) := by
    unfold headerDateText httpDate
    rw [h, lastModifiedFormat_items, Option.map_some, strftime_append, strftime_append, strftime_lits, hends]
  have hyear : (decText ((utc t).year + 1900)).length ≤ 11 := by
    have hdigits : (decDigits ((utc t).year + 1900).natAbs).length ≤ 10 := decDigitsAux_length (k := 9) (by omega)
    unfold decText
    split
    · exact Nat.succ_le_succ hdigits
    · exact hdigits.trans (by decide)
  have hshort : (httpDate t).length ≤ 36 := by
    have hday := (padTwo_spec (n := (utc t).mday) (lt_of_le_of_lt hvalid.mday.2 (by decide))).1
    have hhour := (padTwo_spec (n := (utc t).hour) (hvalid.hour.trans (by decide))).1
    have hmin := (padTwo_spec (n := (utc t).min) (hvalid.min.trans (by decide))).1
    have hsec := (padTwo_spec (n := (utc t).sec) (hvalid.sec.trans (by decide))).1
    have hweekday := name_length weekdayNames (utc t).wday
    have hmonth := name_length monthNames (utc t).mon
    unfold httpDate strftime
    rw [httpDateFormat_eq]
    simp only [List.cons_append, List.nil_append, List.flatMap_cons, List.flatMap_nil, List.length_append, List.length_cons,
      List.length_nil, Item.print]
    omega
  have hname : (bytes "Last-Modified: ").length = 15 := by decide
  have hlen : (bytes "Last-Modified: " ++ httpDate t ++ [CR, LF]).length < 80 := by
    rw [List.length_append, List.length_append, hname]
    show 15 + (httpDate t).length + 2 < 80
    omega
  rw [htext]
  exact if_pos hlen

/-- **A date that is printed and read back.** The line of a time that `gmtime_r` knows carries its date, and whatever stands
    behind it the date is read as the time less what the local clock is ahead: for the years from 0 to 9999, and unless
    that is the `-1` of an error. Any other date is read as none. -/
theorem date_round_trip (zone : Int → Int) (stack : Tm) (t : Int) (rest : Bytes) :
    produced (headerDateText lastModifiedFormat t) =
        (if (gmtimeR t).isSome then bytes "Last-Modified: " ++ httpDate t ++ [CR, LF] else []) ∧
      hinDateStrToTime zone stack (httpDate t ++ rest) =
        if (-62167219200 ≤ t ∧ t < 253402300800) ∧ t - zone t ≠ -1 then t - zone t else 0 := by
  refine ⟨?_, hinDateStrToTime_httpDate zone stack t rest⟩
  cases h : gmtimeR t with
  | none =>
      unfold headerDateText
      rw [h]
      rfl
  | some tm => exact lastModified_line h

/-! ## The line of a request -/

def ifModifiedSince : Bytes := bytes "If-Modified-Since"

/-- The line is an `If-Modified-Since` with the date of this time. -/
def CarriesDate (line : Bytes) (t : Int) : Prop :=
  ∃ v, fieldValue ifModifiedSince line = some v ∧ HasValue v (httpDate t)

theorem sinceFormat_eq : bytes "If-Modified-Since:%s*" = lineNames[2] ++ bytes "%s*" := by decide

theorem encodingFormat_eq : bytes "Accept-Encoding: " = lineNames[0] ++ [] := by decide

section

variable {server : Server} {toTime : Bytes → Int} {http http' : RequestFields} {line : Bytes}

/-- A line with a date is read from its first letter on. -/
theorem CarriesDate.took {t : Int} (h : CarriesDate line t) :
    ∃ used after, (matchiString line (bytes "If-Modified-Since:%s*")).took = some used ∧
      line.drop used = httpDate t ++ after := by
  obtain ⟨v, hv, before, after, rfl, hbefore, -⟩ := h
  have hname : literalPrefix true (ifModifiedSince ++ [58]) line = true ∧ line.drop 18 = before ++ httpDate t ++ after := by
    unfold fieldValue at hv
    split at hv
    · rename_i hpre
      exact ⟨hpre, Option.some.inj hv⟩
    · exact absurd hv (by simp)
  have hf : bytes "If-Modified-Since:%s*" = (ifModifiedSince ++ [58]) ++ [37, 115, 42] := by decide
  have hs : takeSpecifier [42] = (⟨true, true⟩, []) := by decide
  have hrun : matchPattern (before ++ (httpDate t ++ after)) [37, 115] ⟨true, true⟩ = some before.length := by
    refine matchPattern_class (m := PATTERN_SPACE) (by decide) true before _ ?_ ?_ (by simp)
    · intro c hc
      rw [matchChar_space]
      rcases hbefore c hc with rfl | rfl
      · decide
      · decide
    · intro c hc
      obtain ⟨d, s, hprint, hspace⟩ : ∃ d s, Item.print (utc t) .weekday = d :: s ∧ isspace d = false :=
        print_head (utc_valid t) fun _ h => Item.noConfusion h
      have hhead : (httpDate t ++ after).head? = some d := by
        unfold httpDate strftime
        rw [httpDateFormat_eq, List.cons_append, List.flatMap_cons, hprint]
        rfl
      rw [hhead] at hc
      rw [matchChar_space, ← Option.some.inj hc, hspace]
  refine ⟨before.length + 17 + 1, after, ?_, ?_⟩
  · unfold matchiString
    rw [hf, matchStringVirtual_literal true (by decide) (by decide), hname.1, if_pos rfl]
    have hlen : (ifModifiedSince ++ [58]).length = 18 := by decide
    rw [hlen, hname.2, List.append_assoc]
    show (formatLoop true 4 (37 :: 115 :: [42]) (before ++ (httpDate t ++ after)) 18 none []).took = _
    rw [formatLoop_class, hs]
    simp only [hrun]
    rw [formatLoop_end, show 18 + before.length = before.length + 17 + 1 by omega]
    rfl
  · rw [show before.length + 17 + 1 = 18 + before.length by omega, ← List.drop_drop, hname.2, List.append_assoc,
      List.drop_left]

/-- A line of another name leaves the date alone. -/
theorem LineStep.since_other (h : LineStep server toTime http line http') (hname : named ifModifiedSince line = false) :
    http'.modifiedSince = http.modifiedSince := by
  cases h with
  | since hsince =>
      have hname' : literalPrefix true lineNames[2] line = false := by
        rw [named_eq] at hname
        exact hname
      exact absurd (hsince.symm.trans hname') (by simp)
  | host hhost =>
      unfold RequestFields.httpdVhostRequest
      split
      · rfl
      · split <;> rfl
  | encoding | etag | connection | range | length | boundary | chunked | identity | other => rfl

/-- A line that is read sets it. -/
theorem headersLine_since {used : Nat} (h : (matchiString line (bytes "If-Modified-Since:%s*")).took = some used) :
    http.httpdParseHeadersLine server toTime line = some { http with modifiedSince := toTime (line.drop used) } := by
  have hpre : literalPrefix true lineNames[2] line = true := name_of_took (i := 2) (by decide) (sinceFormat_eq ▸ h)
  have hencoding : (matchiString line (bytes "Accept-Encoding: ")).took = none := by
    rw [encodingFormat_eq]
    exact took_of_other (i := 2) (j := 0) (by decide) (by decide) (by decide) hpre _
  have hhost : (matchiString line (bytes "Host:%s*([%w.]+)")).took = none := by
    rw [hostFormat_eq]
    exact took_of_other (i := 2) (j := 1) (by decide) (by decide) (by decide) hpre _
  unfold RequestFields.httpdParseHeadersLine
  dsimp only
  rw [hencoding]
  dsimp only
  rw [hhost]
  dsimp only
  rw [h]

/-- Lines of other names leave the date alone. By induction on the lines. -/
theorem parseLines_since_other {lines : List Bytes} (hother : ∀ line ∈ lines, named ifModifiedSince line = false)
    {http read : RequestFields} (h : http.parseLines server toTime lines = some read) :
    read.modifiedSince = http.modifiedSince := by
  induction lines generalizing http with
  | nil =>
      obtain rfl := Option.some.inj h
      rfl
  | cons line lines ih =>
      rw [parseLines_cons] at h
      obtain ⟨next, hnext, hrest⟩ := Option.bind_eq_some_iff.mp h
      have hsame := (headersLine_step hnext).since_other (hother line List.mem_cons_self)
      rw [ih (fun l hl => hother l (List.mem_cons_of_mem _ hl)) hrest, hsame]

/-- **The date of a request** is what is made of the last one. -/
theorem parseLines_since {before after : List Bytes} {t : Int} (hdate : CarriesDate line t)
    (hlast : ∀ l ∈ after, named ifModifiedSince l = false) {read : RequestFields}
    (h : http.parseLines server toTime (before ++ line :: after) = some read) :
    ∃ rest, read.modifiedSince = toTime (httpDate t ++ rest) := by
  rw [parseLines_append] at h
  obtain ⟨first, -, h⟩ := Option.bind_eq_some_iff.mp h
  rw [parseLines_cons] at h
  obtain ⟨next, hnext, hrest⟩ := Option.bind_eq_some_iff.mp h
  obtain ⟨used, tail, hused, hdrop⟩ := hdate.took
  rw [headersLine_since hused] at hnext
  refine ⟨tail, ?_⟩
  rw [parseLines_since_other hlast hrest, ← Option.some.inj hnext, hdrop]

end

/-! ## Revalidation -/

/-- **A copy that is asked about with the date it came with.** The head of the request has the date that was printed for the
    item, and no etag counts. The answer to a request for the whole item is a `304` exactly where the local clock is ahead of
    Greenwich, for the dates that come back. -/
theorem revalidated_iff {zone : Int → Int} {stack : Tm} {server : Server} {behind : UInt8} {http http' : RequestFields}
    {data : Bytes} {used : Nat}
    (h : httpdParseHeaders server (hinDateStrToTime zone stack) behind http data = .accepted http' used) {first line : Bytes}
    {before after : List Bytes} {rest : Source}
    (hlines : requestLines behind data = some (first :: (before ++ line :: after), rest)) {item : FileItem}
    (hdate : CarriesDate line item.modified) (hlast : ∀ l ∈ after, named ifModifiedSince l = false) {client : HttpdClient}
    (hclient : client.modifiedSince = http'.modifiedSince) (hwhole : WholeGet client item)
    (hon : client.disable &&& HIN_HTTP_MODIFIED = 0) (hetag : ¬ EtagGiven client) :
    Answers304 client item ↔ (-62167219200 ≤ item.modified ∧ item.modified < 253402300800) ∧ 0 < zone item.modified ∧
      item.modified - zone item.modified ≠ 0 ∧ item.modified - zone item.modified ≠ -1 := by
  obtain ⟨line0, lines, rest', method, read, hacc⟩ := httpdParseHeaders_accepted h
  obtain ⟨heq, -⟩ := Prod.mk.inj (Option.some.inj (hacc.found.symm.trans hlines))
  obtain ⟨-, rfl⟩ := List.cons.inj heq
  obtain ⟨path, ver0, -, hread⟩ := hacc.request
  obtain ⟨tail, hsince⟩ := parseLines_since hdate hlast hread
  have htime : client.modifiedSince = hinDateStrToTime zone stack (httpDate item.modified ++ tail) := by
    rw [hclient, hacc.settled]
    exact hsince
  rw [hinDateStrToTime_httpDate] at htime
  rw [hwhole.answers304_iff]
  have hnewer : Newer client item ↔ client.modifiedSince ≠ 0 ∧ client.modifiedSince < item.modified :=
    ⟨fun hn => hn.2, fun hn => ⟨hon, hn⟩⟩
  rw [hnewer, htime]
  constructor
  · rintro (⟨hgiven, -⟩ | ⟨-, hne, hlt⟩)
    · exact absurd hgiven hetag
    · split at hne
      · rename_i hback
        rw [if_pos hback] at hlt
        exact ⟨hback.1, by omega, hne, hback.2⟩
      · exact absurd rfl hne
  · rintro ⟨hyears, hahead, hne, hminus⟩
    rw [if_pos ⟨hyears, hminus⟩]
    exact .inr ⟨hetag, hne, by omega⟩

/-- The head of a `GET` with a date. -/
def datedGet : Bytes := bytes "GET / HTTP/1.1\r\nIf-Modified-Since: Thu, 01 Jan 1970 02:00:00 GMT\r\n\r\n"

/-- One hour ahead of Greenwich a copy is found to be current. -/
theorem revalidated_sample : ∃ http' used,
    httpdParseHeaders {} (hinDateStrToTime (fun _ => 3600) {}) 0 {} datedGet = .accepted http' used ∧
      Answers304 { modifiedSince := http'.modifiedSince } ⟨7200, 10, 0⟩ := by
  obtain ⟨http', used, h⟩ : ∃ http' used,
      httpdParseHeaders {} (hinDateStrToTime (fun _ => 3600) {}) 0 {} datedGet = .accepted http' used := ⟨_, _, rfl⟩
  have hlines : requestLines 0 datedGet = some (bytes "GET / HTTP/1.1" ::
      ([] ++ bytes "If-Modified-Since: Thu, 01 Jan 1970 02:00:00 GMT" :: []), { data := [] }) := by decide +kernel
  have hdate : CarriesDate (bytes "If-Modified-Since: Thu, 01 Jan 1970 02:00:00 GMT") (⟨7200, 10, 0⟩ : FileItem).modified :=
    ⟨32 :: httpDate 7200, by decide +kernel, [32], [], by simp, by simp, by simp⟩
  have hopen : (-1 : Int) < 0 := by decide
  have hwhole : WholeGet { modifiedSince := http'.modifiedSince } ⟨7200, 10, 0⟩ := ⟨rfl, rfl, rfl, .inl hopen⟩
  have hon : (0 : UInt32) &&& HIN_HTTP_MODIFIED = 0 := by decide
  have hiff := revalidated_iff h hlines hdate (by simp) rfl hwhole hon (fun hgiven => hgiven.2 rfl)
  exact ⟨http', used, h, hiff.mpr ⟨⟨by decide, by decide⟩, by decide, by decide, by decide⟩⟩

end Http
end Hin9
