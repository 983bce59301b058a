import Hin9.Basic.PatternSpec
import Hin9.Lib.Calendar

/-!
# `Basic.Time` — broken-down times and their texts, in the C locale (`time.h`)

`gmtime_r` takes a time apart and `mktime` puts it together again, as a reading of the local clock. `strftime` and `strptime`
go through a format item by item. An item reads back what it has printed in front of a byte that cannot belong to it
(`Item.scan_print`), and so does a format (`strptime_strftime`).

`zone` stands for the time zone: how many seconds the local clock is ahead when it reads so.
-/

namespace Hin9

open Lib.Calendar Pattern

/-! ## Broken-down times -/

/-- `struct tm`: the month is counted from 0, the year from 1900 and the weekday from Sunday. -/
structure Tm where
  sec : Nat := 0
  min : Nat := 0
  hour : Nat := 0
  mday : Nat := 0
  mon : Nat := 0
  year : Int := 0
  wday : Nat := 0
deriving Repr, DecidableEq

namespace Tm

/-- The fields are in their ranges. -/
structure Valid (tm : Tm) : Prop where
  sec : tm.sec < 60
  min : tm.min < 60
  hour : tm.hour < 24
  mday : 0 < tm.mday ∧ tm.mday ≤ 31
  mon : tm.mon < 12
  wday : tm.wday < 7

end Tm

/-- The broken-down time in Greenwich. -/
def utc (t : Int) : Tm where
  sec := (t % 60).toNat
  min := (t / 60 % 60).toNat
  hour := (t / 3600 % 24).toNat
  mday := (ofDayNumber (t / 86400)).day
  mon := (ofDayNumber (t / 86400)).month
  year := (ofDayNumber (t / 86400)).year - 1900
  wday := ((t / 86400 + 4) % 7).toNat

/-- `gmtime_r`: none where the year is no `int`. -/
def gmtimeR (t : Int) : Option Tm := if -2 ^ 31 ≤ (utc t).year ∧ (utc t).year < 2 ^ 31 then some (utc t) else none

/-- What `mktime` makes of a time in Greenwich: days that the month does not have are those of the next one. -/
def timegm (tm : Tm) : Int := dayNumber (tm.year + 1900) tm.mon tm.mday * 86400 + tm.hour * 3600 + tm.min * 60 + tm.sec

/-- `mktime`, with `tm_isdst` left to it. -/
def mktime (zone : Int → Int) (tm : Tm) : Int := timegm tm - zone (timegm tm)

theorem utc_valid (t : Int) : (utc t).Valid where
  sec := by
    show (t % 60).toNat < 60
    omega
  min := by
    show (t / 60 % 60).toNat < 60
    omega
  hour := by
    show (t / 3600 % 24).toNat < 24
    omega
  mday := ⟨(ofDayNumber (t / 86400)).positive, (ofDayNumber (t / 86400)).day_le⟩
  mon := (ofDayNumber (t / 86400)).month.isLt
  wday := by
    show ((t / 86400 + 4) % 7).toNat < 7
    omega

/-- **The parts of a time are put together again.** -/
theorem timegm_utc (t : Int) : timegm (utc t) = t := by
  have hday := dayNumber_ofDayNumber (t / 86400)
  unfold timegm
  show dayNumber ((ofDayNumber (t / 86400)).year - 1900 + 1900) (ofDayNumber (t / 86400)).month (ofDayNumber (t / 86400)).day *
    86400 + ((t / 3600 % 24).toNat : Int) * 3600 + ((t / 60 % 60).toNat : Int) * 60 + ((t % 60).toNat : Int) = t
  rw [sub_add_cancel, hday]
  omega

/-! ## Formats -/

/-- An item of a format. -/
inductive Item where
  | weekday
  | mday
  | month
  | year
  | hour
  | min
  | sec
  | lit (c : UInt8)
deriving Repr, DecidableEq

/-- The items of a format, with those conversions that are used; `%X` is `%H:%M:%S`. -/
def formatItems : Bytes → List Item
  | 37 :: 97 :: fmt => .weekday :: formatItems fmt
  | 37 :: 100 :: fmt => .mday :: formatItems fmt
  | 37 :: 98 :: fmt => .month :: formatItems fmt
  | 37 :: 89 :: fmt => .year :: formatItems fmt
  | 37 :: 88 :: fmt => [.hour, .lit 58, .min, .lit 58, .sec] ++ formatItems fmt
  | c :: fmt => .lit c :: formatItems fmt
  | [] => []

def weekdayNames : List Bytes :=
  [bytes "Sunday", bytes "Monday", bytes "Tuesday", bytes "Wednesday", bytes "Thursday", bytes "Friday", bytes "Saturday"]

def monthNames : List Bytes :=
  [bytes "January", bytes "February", bytes "March", bytes "April", bytes "May", bytes "June", bytes "July", bytes "August",
    bytes "September", bytes "October", bytes "November", bytes "December"]

/-- `%02d`. -/
def padTwo (n : Nat) : Bytes := if n < 10 then 48 :: decDigits n else decDigits n

/-- What `strftime` prints for an item. -/
def Item.print (tm : Tm) : Item → Bytes
  | weekday => (weekdayNames.getD tm.wday [63]).take 3
  | mday => padTwo tm.mday
  | month => (monthNames.getD tm.mon [63]).take 3
  | year => decText (tm.year + 1900)
  | hour => padTwo tm.hour
  | min => padTwo tm.min
  | sec => padTwo tm.sec
  | lit c => [c]

def strftime (tm : Tm) (fmt : List Item) : Bytes := fmt.flatMap (Item.print tm)

/-- A name, whole or its first three letters, in upper or lower case: its number, and what is behind it. -/
def scanName (names : List Bytes) (s : Bytes) : Option (Nat × Bytes) :=
  (names.findIdx? fun name => literalPrefix true (name.take 3) s).map fun i =>
    let name := names.getD i []
    (i, s.drop (if literalPrefix true name s then name.length else 3))

/-- At most `n` more digits behind `v`, as long as there can be another one. -/
def moreDigits (hi : Nat) : Nat → Nat → Bytes → Nat × Bytes
  | n + 1, v, c :: s => if v * 10 ≤ hi ∧ isdigit c then moreDigits hi n (v * 10 + (c.toNat - 48)) s else (v, c :: s)
  | _, v, s => (v, s)

/-- A number of at most `n` digits in its range, behind any blanks. -/
def getNumber (lo hi n : Nat) (s : Bytes) : Option (Nat × Bytes) :=
  match s.dropWhile (· == 32) with
  | [] => none
  | c :: s =>
      if isdigit c then
        let r := moreDigits hi (n - 1) (c.toNat - 48) s
        if lo ≤ r.1 ∧ r.1 ≤ hi then some r else none
      else none

/-- What `strptime` reads for an item, into a time. -/
def Item.scan (tm : Tm) (s : Bytes) : Item → Option (Tm × Bytes)
  | weekday => (scanName weekdayNames s).map fun r => ({ tm with wday := r.1 }, r.2)
  | mday => (getNumber 1 31 2 s).map fun r => ({ tm with mday := r.1 }, r.2)
  | month => (scanName monthNames s).map fun r => ({ tm with mon := r.1 }, r.2)
  | year => (getNumber 0 9999 4 s).map fun r => ({ tm with year := r.1 - 1900 }, r.2)
  | hour => (getNumber 0 23 2 s).map fun r => ({ tm with hour := r.1 }, r.2)
  | min => (getNumber 0 59 2 s).map fun r => ({ tm with min := r.1 }, r.2)
  | sec => (getNumber 0 61 2 s).map fun r => ({ tm with sec := r.1 }, r.2)
  | lit c =>
      if isspace c then some (tm, s.dropWhile isspace)
      else if s.head? = some c then some (tm, s.tail) else none

/-- `strptime`: the time, and what is behind its text. -/
def strptime : List Item → Bytes → Tm → Option (Tm × Bytes)
  | [], s, tm => some (tm, s)
  | item :: fmt, s, tm => (item.scan tm s).bind fun r => strptime fmt r.2 r.1

/-! ## Numbers -/

theorem le_decNat (acc : Nat) (ds : Bytes) : acc ≤ decNat acc ds := by
  induction ds generalizing acc with
  | nil => exact le_refl acc
  | cons c ds ih =>
      have hacc : acc ≤ acc * 10 + (c.toNat - 48) := by omega
      exact hacc.trans (ih _)

/-- Digits that stay in the range are read to their end. By induction on the digits. -/
theorem moreDigits_digits {hi n v : Nat} {ds rest : Bytes} (hds : ∀ c ∈ ds, isdigit c = true) (hlen : ds.length ≤ n)
    (hle : decNat v ds ≤ hi) (hstop : ds.length = n ∨ ∀ c ∈ rest.head?, isdigit c = false) :
    moreDigits hi n v (ds ++ rest) = (decNat v ds, rest) := by
  induction ds generalizing n v with
  | nil =>
      cases n with
      | zero => rfl
      | succ n =>
          cases rest with
          | nil => rfl
          | cons c rest =>
              have hc : isdigit c = false := hstop.resolve_left (Nat.succ_ne_zero n).symm c rfl
              have hno : ¬ (v * 10 ≤ hi ∧ isdigit c = true) := fun h => absurd h.2 (by simp [hc])
              rw [List.nil_append, moreDigits, if_neg hno]
              rfl
  | cons c ds ih =>
      obtain ⟨n, rfl⟩ : ∃ k, n = k + 1 := ⟨n - 1, by rw [List.length_cons] at hlen; omega⟩
      have hc := hds c List.mem_cons_self
      have hroom : v * 10 ≤ hi := by
        have hge : v * 10 + (c.toNat - 48) ≤ decNat v (c :: ds) := le_decNat _ ds
        omega
      rw [List.cons_append, moreDigits, if_pos ⟨hroom, hc⟩]
      refine ih (fun d hd => hds d (List.mem_cons_of_mem _ hd)) (Nat.le_of_succ_le_succ hlen) hle ?_
      exact hstop.imp (fun h => Nat.succ.inj h) id

/-- **A number is read as it is printed.** -/
theorem getNumber_digits {lo hi n : Nat} {ds rest : Bytes} (hne : ds ≠ []) (hds : ∀ c ∈ ds, isdigit c = true)
    (hlen : ds.length ≤ n) (hlo : lo ≤ decNat 0 ds) (hle : decNat 0 ds ≤ hi)
    (hstop : ds.length = n ∨ ∀ c ∈ rest.head?, isdigit c = false) :
    getNumber lo hi n (ds ++ rest) = some (decNat 0 ds, rest) := by
  obtain ⟨c, ds, rfl⟩ := List.exists_cons_of_ne_nil hne
  have hc := hds c List.mem_cons_self
  have hblank : (c == 32) = false := by
    rw [beq_eq_false_iff_ne]
    rintro rfl
    exact absurd hc (by decide)
  have hfirst : decNat 0 (c :: ds) = decNat (c.toNat - 48) ds := by
    show decNat (0 * 10 + (c.toNat - 48)) ds = _
    rw [Nat.zero_mul, Nat.zero_add]
  have hmore : moreDigits hi (n - 1) (c.toNat - 48) (ds ++ rest) = (decNat (c.toNat - 48) ds, rest) := by
    rw [List.length_cons] at hlen hstop
    refine moreDigits_digits (fun d hd => hds d (List.mem_cons_of_mem _ hd)) (by omega) (hfirst ▸ hle) ?_
    exact hstop.imp (fun h => by omega) id
  unfold getNumber
  rw [List.cons_append, List.dropWhile_cons_of_neg (by simp [hblank])]
  dsimp only
  rw [if_pos hc, hmore, if_pos ⟨hfirst ▸ hlo, hfirst ▸ hle⟩, hfirst]

/-- Two digits. -/
theorem padTwo_spec {n : Nat} (h : n < 100) :
    (padTwo n).length = 2 ∧ (∀ c ∈ padTwo n, isdigit c = true) ∧ decNat 0 (padTwo n) = n := by
  obtain ⟨hne, hds, hval⟩ := decDigits_spec n
  have hpos := List.length_pos_of_ne_nil hne
  unfold padTwo
  by_cases hn : n < 10
  · rw [if_pos hn]
    have hone : (decDigits n).length ≤ 0 + 1 := decDigitsAux_length hn
    refine ⟨?_, ?_, hval⟩
    · rw [List.length_cons]
      omega
    · intro c hc
      rcases List.mem_cons.mp hc with rfl | hc
      · decide
      · exact hds c hc
  · rw [if_neg hn]
    refine ⟨?_, hds, hval⟩
    -- the first digit is what is left by a tenth
    obtain ⟨hne, -, -⟩ := decDigitsAux_spec n (n / 10) (by omega)
    have hfirst := List.length_pos_of_ne_nil hne
    have htwo : (decDigits n).length ≤ 1 + 1 := decDigitsAux_length h
    have hsplit : decDigits n = decDigitsAux n (n / 10) ++ [decDigit (n % 10)] := if_neg hn
    rw [hsplit, List.length_append, List.length_singleton] at htwo ⊢
    omega

theorem getNumber_padTwo {lo hi n : Nat} (hlo : lo ≤ n) (hle : n ≤ hi) (hn : n < 100) (rest : Bytes) :
    getNumber lo hi 2 (padTwo n ++ rest) = some (n, rest) := by
  obtain ⟨hlen, hds, hval⟩ := padTwo_spec hn
  have hne : padTwo n ≠ [] := List.ne_nil_of_length_pos (by omega)
  rw [← hval] at hlo hle
  have hread := getNumber_digits hne hds hlen.le hlo hle (.inl hlen : _ ∨ ∀ c ∈ rest.head?, isdigit c = false)
  rwa [hval] at hread

/-! ## Names -/

/-- What is asked of a list of names: three letters tell them apart, and what follows these are letters. -/
structure Distinct (names : List Bytes) : Prop where
  apart : names.Pairwise fun a b => literalPrefix true (a.take 3) (b.take 3) = false
  letters : ∀ name ∈ names, 3 ≤ name.length ∧ ∀ c ∈ name.drop 3, isalpha c = true

theorem weekdayNames_distinct : Distinct weekdayNames := ⟨by decide +kernel, by decide +kernel⟩

theorem monthNames_distinct : Distinct monthNames := ⟨by decide +kernel, by decide +kernel⟩

/-- Only letters are letters in upper case. -/
theorem isalpha_toupper (c : UInt8) : isalpha c = (decide (65 ≤ toupper c) && decide (toupper c ≤ 90)) := by
  have hall : ∀ c : UInt8, isalpha c = (decide (65 ≤ toupper c) && decide (toupper c ≤ 90)) := forall_byte (by decide +kernel)
  exact hall c

theorem literalPrefix_self (lit : Bytes) : literalPrefix true lit lit = true := by
  induction lit with
  | nil => rfl
  | cons c lit ih => simp [literalPrefix, ih]

/-- A literal looks at as many bytes as it has. -/
theorem literalPrefix_left {lit text : Bytes} (h : lit.length ≤ text.length) (rest : Bytes) :
    literalPrefix true lit (text ++ rest) = literalPrefix true lit text := by
  induction lit generalizing text with
  | nil => rfl
  | cons f lit ih =>
      cases text with
      | nil => exact absurd h (by simp)
      | cons c text =>
          rw [List.cons_append, literalPrefix, literalPrefix, ih (Nat.le_of_succ_le_succ h)]

/-- **A name is read as it is printed**, in front of anything but a letter. -/
theorem scanName_print {names : List Bytes} (h : Distinct names) {i : Nat} (hi : i < names.length) {rest : Bytes}
    (hstop : ∀ c ∈ rest.head?, isalpha c = false) :
    scanName names ((names.getD i [63]).take 3 ++ rest) = some (i, rest) := by
  obtain ⟨name, hname⟩ : ∃ name, name = names[i] := ⟨_, rfl⟩
  have hget : ∀ d, names.getD i d = name := by
    intro d
    rw [List.getD_eq_getElem _ _ hi, hname]
  have hthree : ∀ other ∈ names, (other.take 3).length = 3 := fun other ho =>
    List.length_take_of_le (h.letters other ho).1
  have hmem : name ∈ names := hname ▸ List.getElem_mem hi
  have hlook : ∀ other ∈ names, literalPrefix true (other.take 3) (name.take 3 ++ rest) =
      literalPrefix true (other.take 3) (name.take 3) := fun other ho =>
    literalPrefix_left (by rw [hthree other ho, hthree name hmem]) rest
  have hfind : (names.findIdx? fun other => literalPrefix true (other.take 3) (name.take 3 ++ rest)) = some i := by
    rw [List.findIdx?_eq_some_iff_getElem]
    refine ⟨hi, ?_, ?_⟩
    · rw [hlook _ (List.getElem_mem hi), ← hname]
      exact literalPrefix_self _
    · intro j hj
      have hapart := List.pairwise_iff_getElem.mp h.apart j i (hj.trans hi) hi hj
      rw [hlook _ (List.getElem_mem (hj.trans hi)), hname, hapart]
      exact Bool.false_ne_true
  have hwhole : literalPrefix true name (name.take 3 ++ rest) = true → name.length = 3 := by
    intro hpre
    obtain ⟨hlen, hletters⟩ := h.letters name hmem
    rw [← List.take_append_drop 3 name, literalPrefix_append, hthree name hmem, List.take_append_drop] at hpre
    rw [List.drop_left' (hthree name hmem), Bool.and_eq_true] at hpre
    cases hmore : name.drop 3 with
    | nil =>
        have hzero := congrArg List.length hmore
        rw [List.length_drop, List.length_nil] at hzero
        omega
    | cons l more =>
        -- the next letter of the name is not what follows
        rw [hmore] at hpre hletters
        cases rest with
        | nil => exact absurd hpre.2 (by simp [literalPrefix])
        | cons c rest =>
            have hsame : toupper l = toupper c := by
              have htwo := hpre.2
              rw [literalPrefix, if_pos rfl, Bool.and_eq_true, beq_iff_eq] at htwo
              exact htwo.1
            have hl := hletters l List.mem_cons_self
            rw [isalpha_toupper, hsame, ← isalpha_toupper, hstop c rfl] at hl
            exact absurd hl Bool.false_ne_true
  have hdrop : (name.take 3 ++ rest).drop (if literalPrefix true name (name.take 3 ++ rest) then name.length else 3) = rest := by
    split
    · rename_i hpre
      rw [hwhole hpre]
      exact List.drop_left' (hthree name hmem)
    · exact List.drop_left' (hthree name hmem)
  unfold scanName
  rw [hget, hfind, Option.map_some]
  dsimp only
  rw [hget, hdrop]

/-! ## Formats that are read back -/

theorem strftime_append (tm : Tm) (fmt more : List Item) : strftime tm (fmt ++ more) = strftime tm fmt ++ strftime tm more :=
  List.flatMap_append

theorem strftime_lits (tm : Tm) (text : Bytes) : strftime tm (text.map .lit) = text := by
  unfold strftime
  induction text with
  | nil => rfl
  | cons c text ih =>
      rw [List.map_cons, List.flatMap_cons, ih]
      rfl


/-- What may follow an item. -/
def Item.StopsAt (rest : Bytes) : Item → Prop
  | weekday | month => ∀ c ∈ rest.head?, isalpha c = false
  | year => ∀ c ∈ rest.head?, isdigit c = false
  | lit c => isspace c = true → ∀ c ∈ rest.head?, isspace c = false
  | _ => True

/-- What an item reads. -/
def Item.set (tm into : Tm) : Item → Tm
  | weekday => { into with wday := tm.wday }
  | mday => { into with mday := tm.mday }
  | month => { into with mon := tm.mon }
  | year => { into with year := tm.year }
  | hour => { into with hour := tm.hour }
  | min => { into with min := tm.min }
  | sec => { into with sec := tm.sec }
  | lit _ => into

/-- The year has at most four digits. -/
def Tm.FourDigits (tm : Tm) : Prop := 0 ≤ tm.year + 1900 ∧ tm.year + 1900 ≤ 9999

/-- **An item reads what it has printed.** -/
theorem Item.scan_print {tm : Tm} (htm : tm.Valid) (into : Tm) {rest : Bytes} {item : Item} (hstop : item.StopsAt rest)
    (hyear : item = .year → tm.FourDigits) : item.scan into (item.print tm ++ rest) = some (item.set tm into, rest) := by
  cases item with
  | weekday =>
      have hread := scanName_print weekdayNames_distinct (i := tm.wday) htm.wday hstop
      show (scanName weekdayNames _).map _ = _
      rw [Item.print, hread]
      rfl
  | month =>
      have hread := scanName_print monthNames_distinct (i := tm.mon) htm.mon hstop
      show (scanName monthNames _).map _ = _
      rw [Item.print, hread]
      rfl
  | mday =>
      have := htm.mday
      show (getNumber 1 31 2 _).map _ = _
      rw [Item.print, getNumber_padTwo (by omega) (by omega) (by omega)]
      rfl
  | hour =>
      have := htm.hour
      show (getNumber 0 23 2 _).map _ = _
      rw [Item.print, getNumber_padTwo (by omega) (by omega) (by omega)]
      rfl
  | min =>
      have := htm.min
      show (getNumber 0 59 2 _).map _ = _
      rw [Item.print, getNumber_padTwo (by omega) (by omega) (by omega)]
      rfl
  | sec =>
      have := htm.sec
      show (getNumber 0 61 2 _).map _ = _
      rw [Item.print, getNumber_padTwo (by omega) (by omega) (by omega)]
      rfl
  | year =>
      obtain ⟨hlo, hhi⟩ := hyear rfl
      obtain ⟨hne, hds, hval⟩ := decDigits_spec (tm.year + 1900).natAbs
      have htext : decText (tm.year + 1900) = decDigits (tm.year + 1900).natAbs := if_neg (by omega)
      have hread := getNumber_digits hne hds (decDigitsAux_length (k := 3) (by omega)) (Nat.zero_le _)
        (by omega : decNat 0 _ ≤ 9999) (.inr hstop)
      rw [hval] at hread
      show (getNumber 0 9999 4 _).map _ = _
      rw [Item.print, htext, hread, Option.map_some, Item.set]
      congr 3
      omega
  | lit c =>
      show (if isspace c then some (into, ([c] ++ rest).dropWhile isspace)
        else if ([c] ++ rest).head? = some c then some (into, ([c] ++ rest).tail) else none) = some (into, rest)
      by_cases hspace : isspace c = true
      · have hrest : rest.dropWhile isspace = rest := by
          cases rest with
          | nil => rfl
          | cons d rest => exact List.dropWhile_cons_of_neg (by simp [hstop hspace d rfl])
        rw [if_pos hspace, List.singleton_append, List.dropWhile_cons_of_pos hspace, hrest]
      · rw [if_neg hspace, List.singleton_append, List.head?_cons, if_pos rfl]
        rfl

/-- Another byte than that of the format. -/
theorem Item.scan_lit_none {c : UInt8} {s : Bytes} {tm : Tm} (hc : isspace c = false) (hs : s.head? ≠ some c) :
    (Item.lit c).scan tm s = none := by
  show (if isspace c then some (tm, s.dropWhile isspace) else if s.head? = some c then some (tm, s.tail) else none) = none
  rw [if_neg (by simp [hc]), if_neg hs]

/-- Every item of a format is followed by what may follow it. -/
def Separated (tm : Tm) (rest : Bytes) : List Item → Prop
  | [] => True
  | item :: fmt => item.StopsAt (strftime tm fmt ++ rest) ∧ Separated tm rest fmt

theorem Separated.append {tm : Tm} {rest : Bytes} {fmt more : List Item} (h : Separated tm (strftime tm more ++ rest) fmt)
    (hmore : Separated tm rest more) : Separated tm rest (fmt ++ more) := by
  induction fmt with
  | nil => exact hmore
  | cons item fmt ih =>
      obtain ⟨hstop, hsep⟩ := h
      refine ⟨?_, ih hsep⟩
      rwa [List.append_eq, strftime_append, List.append_assoc]

/-- **A format reads what it has printed.** By induction on its items. -/
theorem strptime_strftime {tm : Tm} (htm : tm.Valid) {fmt : List Item} {rest : Bytes} (hsep : Separated tm rest fmt)
    (hyear : .year ∈ fmt → tm.FourDigits) (into : Tm) :
    strptime fmt (strftime tm fmt ++ rest) into = some (fmt.foldl (Item.set tm) into, rest) := by
  induction fmt generalizing into with
  | nil => rfl
  | cons item fmt ih =>
      obtain ⟨hstop, hsep⟩ := hsep
      have hprint : strftime tm (item :: fmt) ++ rest = item.print tm ++ (strftime tm fmt ++ rest) := by
        unfold strftime
        rw [List.flatMap_cons, List.append_assoc]
      have hread := Item.scan_print htm into hstop fun h => hyear (h ▸ List.mem_cons_self)
      rw [hprint, strptime, hread, Option.bind_some]
      exact ih hsep (fun h => hyear (List.mem_cons_of_mem _ h)) _

/-! ## Years that are no four digits -/

/-- A format is read in two parts. -/
theorem strptime_append (fmt more : List Item) (s : Bytes) (tm : Tm) :
    strptime (fmt ++ more) s tm = (strptime fmt s tm).bind fun r => strptime more r.2 r.1 := by
  induction fmt generalizing s tm with
  | nil => rfl
  | cons item fmt ih =>
      rw [List.cons_append, strptime, strptime, Option.bind_assoc]
      congr 1
      funext r
      exact ih r.2 r.1

/-- What is left of some digits with a blank behind them. -/
def DigitsLeft (tail : Bytes) (k : Nat) (s : Bytes) : Prop :=
  ∃ ds, s = ds ++ 32 :: tail ∧ (∀ c ∈ ds, isdigit c = true) ∧ k ≤ ds.length

theorem moreDigits_left {hi n v k : Nat} {tail s : Bytes} (h : DigitsLeft tail k s) :
    DigitsLeft tail (k - n) (moreDigits hi n v s).2 := by
  obtain ⟨ds, rfl, hds, hlen⟩ := h
  induction n generalizing v k ds with
  | zero => exact ⟨ds, rfl, hds, hlen⟩
  | succ n ih =>
      cases ds with
      | nil =>
          have hno : ¬ (v * 10 ≤ hi ∧ isdigit 32 = true) := fun h => absurd h.2 (by decide)
          rw [List.nil_append, moreDigits, if_neg hno]
          exact ⟨[], rfl, hds, by rw [List.length_nil] at hlen ⊢; omega⟩
      | cons c ds =>
          rw [List.length_cons] at hlen
          rw [List.cons_append, moreDigits]
          split
          · rw [show k - (n + 1) = (k - 1) - n by omega]
            exact ih ds (fun d hd => hds d (List.mem_cons_of_mem _ hd)) (by omega)
          · exact ⟨c :: ds, rfl, hds, by rw [List.length_cons]; omega⟩

/-- **A number leaves the digits it has no room for.** -/
theorem getNumber_left {lo hi n k v : Nat} {tail s rest : Bytes} (h : DigitsLeft tail (k + 1) s)
    (hread : getNumber lo hi n s = some (v, rest)) : DigitsLeft tail (k - (n - 1)) rest := by
  obtain ⟨ds, rfl, hds, hlen⟩ := h
  cases ds with
  | nil => exact absurd hlen (Nat.not_succ_le_zero k)
  | cons c ds =>
      have hc := hds c List.mem_cons_self
      have hblank : (c == 32) = false := by
        rw [beq_eq_false_iff_ne]
        rintro rfl
        exact absurd hc (by decide)
      have hleft : DigitsLeft tail (k - (n - 1)) (moreDigits hi (n - 1) (c.toNat - 48) (ds ++ 32 :: tail)).2 :=
        moreDigits_left ⟨ds, rfl, fun d hd => hds d (List.mem_cons_of_mem _ hd), Nat.le_of_succ_le_succ hlen⟩
      unfold getNumber at hread
      rw [List.cons_append, List.dropWhile_cons_of_neg (by simp [hblank])] at hread
      dsimp only at hread
      rw [if_pos hc] at hread
      split at hread
      · rw [Option.some.inj hread] at hleft
        exact hleft
      · exact absurd hread (by simp)

end Hin9
