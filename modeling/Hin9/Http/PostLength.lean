import Hin9.Http.RequestHead

/-!
# `Http.PostLength` — the length of a request's body (`httpd_head.c`)

The length of a `POST` is the number of its last `Content-Length` line in the one spelling that is read: one blank, then
digits. The number goes through `atoi` and is compared with the largest size afterwards. `declared_length_iff` says which
numbers are kept.
-/

namespace Hin9
namespace Http

open Pattern

/-! ## Numbers -/

/-- White space in front of digits and what stands behind them are not read. -/
theorem atoi_run {before digits rest : Bytes} (hbefore : ∀ c ∈ before, isspace c = true) (hne : digits ≠ [])
    (hdigits : ∀ c ∈ digits, isdigit c = true) (hrest : ∀ c ∈ rest.head?, isdigit c = false) :
    atoi (before ++ (digits ++ rest)) = atoi digits := by
  have htake : (digits ++ rest).takeWhile isdigit = digits := by
    rw [List.takeWhile_append_of_pos hdigits]
    cases rest with
    | nil => simp
    | cons d ds => rw [List.takeWhile_cons_of_neg (by simp [hrest d rfl]), List.append_nil]
  obtain ⟨c, cs, rfl⟩ := List.exists_cons_of_ne_nil hne
  obtain ⟨hspace, hminus, hplus⟩ := isdigit_facts (hdigits c List.mem_cons_self)
  have hself : (c :: cs).takeWhile isdigit = c :: cs := List.takeWhile_eq_self_iff.mpr hdigits
  have hdrop : ∀ more : Bytes, (c :: more).dropWhile isspace = c :: more :=
    fun more => List.dropWhile_cons_of_neg (by simp [hspace])
  rw [List.cons_append] at htake
  unfold atoi strtolDec
  rw [List.dropWhile_append_of_pos hbefore, List.cons_append, hdrop, hdrop]
  simp only [List.head?_cons, beq_iff_eq, Option.some.injEq, hminus, hplus, Bool.or_eq_true, or_self, if_false, htake, hself]

theorem atoi_eq_atoiNat {digits : Bytes} (hne : digits ≠ []) (hdigits : ∀ c ∈ digits, isdigit c = true) :
    atoi digits = atoiNat (decNat 0 digits) := by
  rw [atoi, strtolDec_digits hne hdigits]
  rfl

/-- A number is kept exactly if an `int` holds it. -/
theorem atoiNat_eq_iff (n : Nat) : atoiNat n = n ↔ n < 2 ^ 31 := by
  constructor
  · intro h
    have hlt := @Int.bmod_lt (min (n : Int) (2 ^ 63 - 1)) (2 ^ 32) (by decide)
    rw [show (min (n : Int) (2 ^ 63 - 1)).bmod (2 ^ 32) = n from h] at hlt
    omega
  · intro h
    rw [atoiNat, min_eq_left (by omega)]
    exact Int.bmod_eq_of_le (by omega) (by omega)

/-- No number grows. -/
theorem atoiNat_le (n : Nat) : atoiNat n ≤ n := by
  have hmin : min (n : Int) (2 ^ 63 - 1) ≤ n := min_le_left _ _
  have hpos : 0 ≤ min (n : Int) (2 ^ 63 - 1) := le_min (Int.natCast_nonneg n) (by decide)
  unfold atoiNat
  rw [Int.bmod]
  split <;> omega

/-! ## Lines -/

/-- The server reads a length of this line. -/
def readsPostLength (line : Bytes) : Bool := (matchiString line (bytes "Content-Length: (%d+)")).took.isSome

/-- The length it reads. -/
def postLength (line : Bytes) : Int := atoi ((matchiString line (bytes "Content-Length: (%d+)")).capture line 0)

/-- The line asks for a chunked upload. -/
def asksChunked (line : Bytes) : Bool :=
  (matchiString line (bytes "Transfer-Encoding:%s*")).took.any fun used =>
    (matchiString (line.drop used) (bytes "chunked")).took.isSome

/-- A line that is read has one blank and digits behind its name, and its length is their number. -/
theorem readsPostLength_digits {line : Bytes} (h : readsPostLength line = true) :
    ∃ digits rest, fieldValue contentLength line = some (32 :: (digits ++ rest)) ∧ digits ≠ [] ∧
      (∀ c ∈ digits, isdigit c = true) ∧ (∀ c ∈ rest.head?, isdigit c = false) ∧ postLength line = atoi digits := by
  have hread : (matchStringVirtual true line (bytes "Content-Length: (%d+)")).took.isSome = true := h
  rw [lengthFormat_match] at hread
  by_cases hmatch : literalPrefix true (contentLength ++ [58, 32]) line = true ∧ (line.drop 16).takeWhile isdigit ≠ []
  rotate_left
  · rw [if_neg hmatch] at hread
    exact absurd hread (by simp [Result.took])
  obtain ⟨hpre, hne⟩ := hmatch
  refine ⟨(line.drop 16).takeWhile isdigit, (line.drop 16).dropWhile isdigit, ?_, hne, fun c hc => List.mem_takeWhile_imp hc,
    head_dropWhile isdigit _, ?_⟩
  · rw [List.takeWhile_append_dropWhile]
    exact fieldValue_blank hpre
  · unfold postLength matchiString
    rw [lengthFormat_match, if_pos ⟨hpre, hne⟩]
    show atoi ((line.drop 16).take ((line.drop 16).takeWhile isdigit).length) = _
    rw [← List.prefix_iff_eq_take.mp (List.takeWhile_prefix isdigit)]

/-- The length that is read is what `atoi` makes of the value. -/
theorem postLength_eq {line v : Bytes} (h : readsPostLength line = true) (hv : fieldValue contentLength line = some v) :
    postLength line = atoi v := by
  obtain ⟨digits, rest, hfield, hne, hdigits, hrest, hlength⟩ := readsPostLength_digits h
  obtain rfl := Option.some.inj (hv.symm.trans hfield)
  have hblank : ∀ c ∈ ([32] : Bytes), isspace c = true := by simp [isspace]
  rw [hlength, ← List.singleton_append, atoi_run hblank hne hdigits hrest]

/-- A number between blanks is what `atoi` makes of it. -/
theorem Announces.atoi {line v : Bytes} {n : Nat} (h : Announces line n) (hv : fieldValue contentLength line = some v) :
    Http.atoi v = atoiNat n := by
  obtain ⟨w, digits, hw, ⟨before, after, rfl, hbefore, hafter⟩, hne, hdigits, rfl⟩ := h
  obtain rfl := Option.some.inj (hv.symm.trans hw)
  have hspace : ∀ c ∈ before, isspace c = true := by
    intro c hc
    rcases hbefore c hc with rfl | rfl <;> decide
  have hstop : ∀ c ∈ after.head?, isdigit c = false := by
    intro c hc
    rcases hafter c (List.mem_of_head? hc) with rfl | rfl <;> decide
  rw [List.append_assoc, atoi_run hspace hne hdigits hstop, atoi_eq_atoiNat hne hdigits]

theorem named_of_readsPostLength {line : Bytes} (h : readsPostLength line = true) : named contentLength line = true := by
  obtain ⟨digits, rest, hfield, -⟩ := readsPostLength_digits h
  rw [named, hfield]
  rfl

/-- A line with another name has no length. -/
theorem readsPostLength_other {i : Nat} (hi : i < lineNames.length) (hne : i ≠ 6) {line : Bytes}
    (hname : literalPrefix true lineNames[i] line = true) : readsPostLength line = false := by
  unfold readsPostLength
  rw [lengthFormat_eq, took_of_other hi (by decide) hne hname]
  rfl

theorem asksChunked_other {i : Nat} (hi : i < lineNames.length) (hne : i ≠ 8) {line : Bytes}
    (hname : literalPrefix true lineNames[i] line = true) : asksChunked line = false := by
  unfold asksChunked
  rw [codingFormat_eq, took_of_other hi (by decide) hne hname]
  rfl

/-! ## The flags the other lines set -/

theorem acceptEncodings_keeps {bit : UInt32} (hdeflate : hasFlag HIN_HTTP_DEFLATE bit = false)
    (hgzip : hasFlag HIN_HTTP_GZIP bit = false) (fuel : Nat) (peer : UInt32) (line : Bytes) :
    hasFlag (RequestFields.acceptEncodings fuel peer line) bit = hasFlag peer bit := by
  induction fuel generalizing peer line with
  | zero => rfl
  | succ fuel ih =>
      have hset : ∀ param : Bytes, hasFlag
          (if (matchiString param (bytes "deflate")).took.isSome then peer ||| HIN_HTTP_DEFLATE
            else if (matchiString param (bytes "gzip")).took.isSome then peer ||| HIN_HTTP_GZIP else peer) bit =
          hasFlag peer bit := by
        intro param
        split
        · rw [hasFlag_or, hdeflate, Bool.or_false]
        · split
          · rw [hasFlag_or, hgzip, Bool.or_false]
          · rfl
      unfold RequestFields.acceptEncodings
      dsimp only
      split
      · rfl
      · split
        · exact hset _
        · rw [ih, hset]

/-- What stands behind an option: nothing more, or a comma and the next option. -/
def moreOptions (fuel : Nat) (peer : UInt32) (line : Bytes) : UInt32 :=
  match (matchString line (bytes "%s*,%s*")).used with
  | none => peer
  | some used => RequestFields.connectionOptions fuel peer (line.drop used)

theorem connectionOptions_keeps {bit : UInt32} (hclear : ~~~HIN_HTTP_KEEPALIVE &&& bit = bit)
    (hset : hasFlag HIN_HTTP_KEEPALIVE bit = false) (fuel : Nat) (peer : UInt32) (line : Bytes) :
    hasFlag (RequestFields.connectionOptions fuel peer line) bit = hasFlag peer bit := by
  induction fuel generalizing peer line with
  | zero => rfl
  | succ fuel ih =>
      have hstep : ∀ (next : UInt32) (rest : Bytes), hasFlag next bit = hasFlag peer bit →
          hasFlag (moreOptions fuel next rest) bit = hasFlag peer bit := by
        intro next rest hnext
        unfold moreOptions
        split
        · exact hnext
        · rw [ih, hnext]
      unfold RequestFields.connectionOptions
      cases hclose : (matchiString line (bytes "close")).took with
      | some used => exact hstep _ _ (hasFlag_keep hclear peer)
      | none =>
          cases hkeep : (matchiString line (bytes "keep-alive")).took with
          | some used => exact hstep _ _ (by rw [hasFlag_or, hset, Bool.or_false])
          | none => exact hstep _ _ rfl

/-! ## The lines of a request -/

section

variable {server : Server} {toTime : Bytes → Int} {http http' : RequestFields} {line : Bytes}

theorem LineStep.method (h : LineStep server toTime http line http') : http'.method = http.method := by
  cases h with
  | host =>
      unfold RequestFields.httpdVhostRequest
      split
      · rfl
      · split <;> rfl
  | encoding | etag | since | connection | range | length | boundary | chunked | identity | other => rfl

/-- A request that is no `POST` has no length. -/
theorem LineStep.postSz_other (h : LineStep server toTime http line http') (hpost : http.method ≠ HIN_METHOD_POST) :
    http'.postSz = http.postSz := by
  cases h with
  | host =>
      unfold RequestFields.httpdVhostRequest
      split
      · rfl
      · split <;> rfl
  | length hpost' => exact absurd hpost' hpost
  | encoding | etag | since | connection | range | boundary | chunked | identity | other => rfl

/-- **What a line of a `POST` says of its body**: a length, or that it comes in chunks. -/
theorem LineStep.posted (h : LineStep server toTime http line http') (hpost : http.method = HIN_METHOD_POST) :
    http'.postSz = (if readsPostLength line then postLength line else http.postSz) ∧
      hasFlag http'.peerFlags HIN_HTTP_POST =
        (hasFlag http.peerFlags HIN_HTTP_POST || (readsPostLength line || asksChunked line)) ∧
      hasFlag http'.peerFlags HIN_HTTP_CHUNKED_UPLOAD =
        (hasFlag http.peerFlags HIN_HTTP_CHUNKED_UPLOAD || asksChunked line) := by
  -- a line with another name says neither
  have hother : ∀ i (hi : i < lineNames.length), i ≠ 6 → i ≠ 8 → literalPrefix true lineNames[i] line = true →
      readsPostLength line = false ∧ asksChunked line = false :=
    fun i hi h6 h8 hname => ⟨readsPostLength_other hi h6 hname, asksChunked_other hi h8 hname⟩
  cases h with
  | encoding hname peer hpeer =>
      obtain ⟨used, rfl⟩ := hpeer
      obtain ⟨hlength, hchunked⟩ := hother 0 (by decide) (by decide) (by decide) hname
      rw [hlength, hchunked]
      refine ⟨rfl, ?_, ?_⟩
      · simp only [@acceptEncodings_keeps HIN_HTTP_POST (by decide) (by decide), Bool.or_false]
      · simp only [@acceptEncodings_keeps HIN_HTTP_CHUNKED_UPLOAD (by decide) (by decide), Bool.or_false]
  | host hhost =>
      obtain ⟨used, hused⟩ := Option.isSome_iff_exists.mp hhost
      obtain ⟨hlength, hchunked⟩ := hother 1 (by decide) (by decide) (by decide)
        (name_of_took (by decide) (hostFormat_eq ▸ hused))
      have hkeep : ∀ name, (http.httpdVhostRequest server name).postSz = http.postSz ∧
          (http.httpdVhostRequest server name).peerFlags = http.peerFlags := by
        intro name
        unfold RequestFields.httpdVhostRequest
        split
        · exact ⟨rfl, rfl⟩
        · split <;> exact ⟨rfl, rfl⟩
      rw [hlength, hchunked, (hkeep _).1, (hkeep _).2]
      simp
  | since hname =>
      obtain ⟨hlength, hchunked⟩ := hother 2 (by decide) (by decide) (by decide) hname
      simp [hlength, hchunked]
  | etag used hetag =>
      obtain ⟨hlength, hchunked⟩ := hother 3 (by decide) (by decide) (by decide)
        (name_of_took (by decide) (etagFormat_eq ▸ hetag))
      simp [hlength, hchunked]
  | connection hname peer hpeer =>
      obtain ⟨used, rfl⟩ := hpeer
      obtain ⟨hlength, hchunked⟩ := hother 4 (by decide) (by decide) (by decide) hname
      rw [hlength, hchunked]
      refine ⟨rfl, ?_, ?_⟩
      · simp only [@connectionOptions_keeps HIN_HTTP_POST (by decide) (by decide), Bool.or_false]
      · simp only [@connectionOptions_keeps HIN_HTTP_CHUNKED_UPLOAD (by decide) (by decide), Bool.or_false]
  | range hname =>
      obtain ⟨hlength, hchunked⟩ := hother 5 (by decide) (by decide) (by decide) hname
      simp [hlength, hchunked]
  | length hpost hlength =>
      obtain ⟨used, hused⟩ := Option.isSome_iff_exists.mp hlength
      have hchunked := asksChunked_other (i := 6) (by decide) (by decide)
        (name_of_took (by decide) (lengthFormat_eq ▸ hused))
      have hread : readsPostLength line = true := hlength
      have hflag : hasFlag HIN_HTTP_POST HIN_HTTP_POST = true ∧ hasFlag HIN_HTTP_POST HIN_HTTP_CHUNKED_UPLOAD = false := by
        decide
      rw [hchunked, hread]
      refine ⟨rfl, ?_, ?_⟩
      · simp only [hasFlag_or, hflag, Bool.or_true, Bool.true_or]
      · simp only [hasFlag_or, hflag, Bool.or_false]
  | boundary hname =>
      obtain ⟨hlength, hchunked⟩ := hother 7 (by decide) (by decide) (by decide) hname
      simp [hlength, hchunked]
  | chunked hpost used hcoding hchunked =>
      have hlength := readsPostLength_other (i := 8) (by decide) (by decide)
        (name_of_took (by decide) (codingFormat_eq ▸ hcoding))
      have hask : asksChunked line = true := by
        rw [asksChunked, hcoding]
        exact hchunked
      have hflag : hasFlag (HIN_HTTP_CHUNKED_UPLOAD ||| HIN_HTTP_POST) HIN_HTTP_POST = true ∧
          hasFlag (HIN_HTTP_CHUNKED_UPLOAD ||| HIN_HTTP_POST) HIN_HTTP_CHUNKED_UPLOAD = true := by decide
      rw [hlength, hask]
      refine ⟨rfl, ?_, ?_⟩
      · rw [hasFlag_or, hflag.1, Bool.or_true, Bool.or_true, Bool.or_true]
      · rw [hasFlag_or, hflag.2]
  | identity hpost used hcoding hplain =>
      have hlength := readsPostLength_other (i := 8) (by decide) (by decide)
        (name_of_took (by decide) (codingFormat_eq ▸ hcoding))
      have hask : asksChunked line = false := by
        rw [asksChunked, hcoding]
        simp [hplain]
      simp [hlength, hask]
  | other hhost hetag hnone =>
      obtain ⟨hlength, hcoding⟩ := hnone hpost
      have hread : readsPostLength line = false := by rw [readsPostLength, hlength]; rfl
      have hask : asksChunked line = false := by rw [asksChunked, hcoding]; rfl
      simp [hread, hask]

/-- The last line whose length is read. -/
def lastRead (lines : List Bytes) : Option Bytes := (lines.filter readsPostLength).getLast?

theorem getLast?_filter_cons {α : Type*} (p : α → Bool) (x : α) (xs : List α) :
    ((x :: xs).filter p).getLast? = ((xs.filter p).getLast?).or (if p x then some x else none) := by
  by_cases hx : p x = true
  · rw [List.filter_cons_of_pos hx, if_pos hx, List.getLast?_cons]
    cases (xs.filter p).getLast? <;> rfl
  · rw [List.filter_cons_of_neg hx, if_neg hx, Option.or_none]

/-- **What the lines of a `POST` say of its body,** by induction on the lines: the last length that is read is the one. -/
theorem parseLines_posted {lines : List Bytes} {http read : RequestFields} (hpost : http.method = HIN_METHOD_POST)
    (h : http.parseLines server toTime lines = some read) :
    read.method = HIN_METHOD_POST ∧ read.postSz = ((lastRead lines).map postLength).getD http.postSz ∧
      hasFlag read.peerFlags HIN_HTTP_POST =
        (hasFlag http.peerFlags HIN_HTTP_POST || lines.any fun line => readsPostLength line || asksChunked line) ∧
      hasFlag read.peerFlags HIN_HTTP_CHUNKED_UPLOAD =
        (hasFlag http.peerFlags HIN_HTTP_CHUNKED_UPLOAD || lines.any asksChunked) := by
  induction lines generalizing http with
  | nil =>
      obtain rfl := Option.some.inj h
      simp [hpost, lastRead]
  | cons line lines ih =>
      rw [parseLines_cons] at h
      obtain ⟨next, hnext, hrest⟩ := Option.bind_eq_some_iff.mp h
      have hstep := headersLine_step hnext
      obtain ⟨hsz, hflag, hchunked⟩ := hstep.posted hpost
      obtain ⟨hmethod, hsz', hflag', hchunked'⟩ := ih (hstep.method.trans hpost) hrest
      refine ⟨hmethod, ?_, ?_, ?_⟩
      · rw [hsz', hsz, lastRead, lastRead, getLast?_filter_cons]
        cases (lines.filter readsPostLength).getLast? with
        | some last => rfl
        | none => cases readsPostLength line <;> rfl
      · rw [hflag', hflag, List.any_cons, Bool.or_assoc]
      · rw [hchunked', hchunked, List.any_cons, Bool.or_assoc]

theorem parseLines_other {lines : List Bytes} {http read : RequestFields} (hpost : http.method ≠ HIN_METHOD_POST)
    (h : http.parseLines server toTime lines = some read) : read.method = http.method ∧ read.postSz = http.postSz := by
  induction lines generalizing http with
  | nil =>
      obtain rfl := Option.some.inj h
      exact ⟨rfl, rfl⟩
  | cons line lines ih =>
      rw [parseLines_cons] at h
      obtain ⟨next, hnext, hrest⟩ := Option.bind_eq_some_iff.mp h
      have hstep := headersLine_step hnext
      obtain ⟨hmethod, hsz⟩ := ih (hstep.method ▸ hpost) hrest
      exact ⟨hmethod.trans hstep.method, hsz.trans (hstep.postSz_other hpost)⟩

/-! ## Heads that are accepted -/

variable {behind : UInt8} {data : Bytes} {used : Nat} {first : Bytes} {lines : List Bytes} {rest : Source}

/-- The method of a head. -/
def headMethod (first : Bytes) : Option UInt32 := (hinHttpParseHeaderLine first).bind RequestLine.method

/-- The request line sets no flag but those of its version. -/
theorem requestLine_clears {bit : UInt32} (hclean : http.peerFlags = 0) (hver : hasFlag HIN_HTTP_VER0 bit = false)
    (hkeep : hasFlag HIN_HTTP_KEEPALIVE bit = false) (method : UInt32) (ver0 : Bool) :
    hasFlag (http.httpdParseRequestLine method ver0).peerFlags bit = false := by
  show hasFlag (http.peerFlags ||| (if ver0 then HIN_HTTP_VER0 else HIN_HTTP_KEEPALIVE)) bit = false
  have hnone : hasFlag 0 bit = false := by simp [hasFlag]
  rw [hclean, hasFlag_or, hnone]
  cases ver0 with
  | false => exact hkeep
  | true => exact hver

/-- An accepted `POST` whose body comes in chunks is known by its flag. -/
theorem accepted_chunked (hclean : http.peerFlags = 0)
    (h : httpdParseHeaders server toTime behind http data = .accepted http' used)
    (hlines : requestLines behind data = some (first :: lines, rest)) (hpost : headMethod first = some HIN_METHOD_POST) :
    hasFlag http'.peerFlags HIN_HTTP_CHUNKED_UPLOAD = lines.any asksChunked := by
  obtain ⟨first', lines', rest', method, read, hacc⟩ := httpdParseHeaders_accepted h
  obtain ⟨heq, -⟩ := Prod.mk.inj (Option.some.inj (hlines.symm.trans hacc.found))
  obtain ⟨rfl, rfl⟩ := List.cons.inj heq
  obtain ⟨path, ver0, hrequest, hread⟩ := hacc.request
  rw [headMethod, hrequest] at hpost
  obtain rfl : method = HIN_METHOD_POST := Option.some.inj hpost
  obtain ⟨-, -, -, hchunked⟩ := parseLines_posted rfl hread
  have hflags : http'.peerFlags = read.peerFlags := by
    rw [hacc.settled]
    rfl
  rw [hflags, hchunked, requestLine_clears hclean (by decide) (by decide) _ _, Bool.false_or]

/-- **The length of an accepted `POST`**: none where it comes in chunks, else the last one that is read, of which there is
    one. -/
theorem accepted_post (hclean : http.peerFlags = 0)
    (h : httpdParseHeaders server toTime behind http data = .accepted http' used)
    (hlines : requestLines behind data = some (first :: lines, rest)) (hpost : headMethod first = some HIN_METHOD_POST) :
    http'.method = HIN_METHOD_POST ∧ http'.postSz < hinHttpdMaxPostSize ∧
      if lines.any asksChunked then http'.postSz = 0
      else ∃ last, lastRead lines = some last ∧ http'.postSz = max (postLength last) 0 := by
  obtain ⟨first', lines', rest', method, read, hacc⟩ := httpdParseHeaders_accepted h
  obtain ⟨heq, -⟩ := Prod.mk.inj (Option.some.inj (hlines.symm.trans hacc.found))
  obtain ⟨rfl, rfl⟩ := List.cons.inj heq
  obtain ⟨path, ver0, hrequest, hread⟩ := hacc.request
  rw [headMethod, hrequest] at hpost
  obtain rfl : method = HIN_METHOD_POST := Option.some.inj hpost
  obtain ⟨hmethod, hsz, hflag, hchunked⟩ := parseLines_posted rfl hread
  rw [requestLine_clears hclean (by decide) (by decide) _ _, Bool.false_or] at hflag
  rw [requestLine_clears hclean (by decide) (by decide) _ _, Bool.false_or] at hchunked
  have hchecked := hacc.checked
  obtain rfl := hacc.settled
  -- what the checks at the end leave
  have hpasses : hasFlag read.peerFlags HIN_HTTP_POST = true ∧ read.settlePost.postSz < hinHttpdMaxPostSize := by
    unfold RequestFields.checkPost at hchecked
    split at hchecked
    · exact absurd hchecked (by simp)
    · split at hchecked
      · exact absurd hchecked (by simp)
      · rename_i hno
        split at hchecked
        · exact absurd hchecked (by simp)
        · rename_i hsmall
          refine ⟨?_, ?_⟩
          · by_contra hunset
            exact hno ⟨hmethod, Bool.eq_false_iff.mpr hunset⟩
          · by_contra hbig
            exact hsmall ⟨by decide, not_lt.mp hbig⟩
  refine ⟨hmethod, hpasses.2, ?_⟩
  have hsettle : read.settlePost.postSz =
      max (if hasFlag read.peerFlags HIN_HTTP_CHUNKED_UPLOAD then 0 else read.postSz) 0 := by
    show (if _ < (0 : Int) then (0 : Int) else _) = _
    split <;> omega
  rw [hchunked] at hsettle
  by_cases hask : lines.any asksChunked = true
  · rw [if_pos hask, hsettle, if_pos hask]
    rfl
  · rw [if_neg hask] at hsettle ⊢
    have hsome : ∃ line ∈ lines, readsPostLength line = true := by
      rw [hpasses.1] at hflag
      obtain ⟨line, hin, hor⟩ := List.any_eq_true.mp hflag.symm
      rcases Bool.or_eq_true_iff.mp hor with hlength | hchunks
      · exact ⟨line, hin, hlength⟩
      · exact absurd (List.any_eq_true.mpr ⟨line, hin, hchunks⟩) hask
    obtain ⟨line, hin, hlength⟩ := hsome
    have hne : lines.filter readsPostLength ≠ [] := List.ne_nil_of_mem (List.mem_filter.mpr ⟨hin, hlength⟩)
    refine ⟨(lines.filter readsPostLength).getLast hne, List.getLast?_eq_getLast_of_ne_nil hne, ?_⟩
    rw [hsettle, hsz, lastRead, List.getLast?_eq_getLast_of_ne_nil hne]
    rfl

theorem settlePost_nonneg (http : RequestFields) : 0 ≤ http.settlePost.postSz := by
  show (0 : Int) ≤ if _ < (0 : Int) then (0 : Int) else _
  split <;> omega

theorem lastRead_mem {last : Bytes} (h : lastRead lines = some last) : last ∈ lines ∧ readsPostLength last = true :=
  List.mem_filter.mp (List.mem_of_getLast? h)

/-- **The length of an accepted `POST` is the one its `Content-Length` lines announce, and below the limit,** exactly if an
    `int` holds the number, or, where the body comes in chunks, if it is zero. -/
theorem declared_length_iff (hclean : http.peerFlags = 0)
    (h : httpdParseHeaders server toTime behind http data = .accepted http' used)
    (hlines : requestLines behind data = some (first :: lines, rest)) (hpost : headMethod first = some HIN_METHOD_POST)
    {n : Nat} (hannounced : ∀ line ∈ lines, named contentLength line = true → Announces line n) :
    (http'.postSz = n ∧ (n : Int) < hinHttpdMaxPostSize) ↔ if lines.any asksChunked then n = 0 else n < 2 ^ 31 := by
  obtain ⟨-, hsmall, hsz⟩ := accepted_post hclean h hlines hpost
  have hlimit : hinHttpdMaxPostSize < 2 ^ 31 := by decide
  have hpositive : 0 < hinHttpdMaxPostSize := by decide
  by_cases hask : lines.any asksChunked = true
  · rw [if_pos hask] at hsz ⊢
    rw [hsz]
    omega
  · rw [if_neg hask] at hsz ⊢
    obtain ⟨last, hlast, hsz⟩ := hsz
    obtain ⟨hin, hread⟩ := lastRead_mem hlast
    have hname := named_of_readsPostLength hread
    obtain ⟨v, hv⟩ := Option.isSome_iff_exists.mp hname
    have hvalue : postLength last = atoiNat n := by
      rw [postLength_eq hread hv]
      exact (hannounced last hin hname).atoi hv
    rw [hvalue] at hsz
    constructor
    · rintro ⟨-, hlt⟩
      omega
    · intro hlt
      rw [(atoiNat_eq_iff n).mpr hlt] at hsz
      omega

end

/-- The head of a `POST` with this length. -/
def postHead (value : Bytes) : Bytes := bytes "POST / HTTP/1.1\r\nContent-Length: " ++ value ++ bytes "\r\n\r\n"

theorem declared_length_sample : ∃ http' used,
    httpdParseHeaders {} (fun _ => 0) 0 {} (postHead (bytes "5")) = .accepted http' used ∧ http'.postSz = 5 := by
  obtain ⟨http', used, h, -⟩ := @Parsed.accepted_of (httpdParseHeaders {} (fun _ => 0) 0 {} (postHead (bytes "5")))
    (fun _ _ => true) (by decide)
  have hlines : requestLines 0 (postHead (bytes "5")) =
      some (bytes "POST / HTTP/1.1" :: [bytes "Content-Length: 5"], { data := [] }) := by decide
  have hpost : headMethod (bytes "POST / HTTP/1.1") = some HIN_METHOD_POST := by decide
  have hline : Announces (bytes "Content-Length: 5") 5 :=
    ⟨bytes " 5", bytes "5", by decide, ⟨[32], [], by decide, by simp, by simp⟩, by decide,
      by decide +kernel, by decide⟩
  have hiff := declared_length_iff rfl h hlines hpost (fun line hin _ => List.mem_singleton.mp hin ▸ hline)
  have hplain : [bytes "Content-Length: 5"].any asksChunked = false := by decide
  rw [hplain] at hiff
  exact ⟨http', used, h, (hiff.mpr (by decide)).1⟩

/-- **The statement fails** for a length above `2 ^ 32`: it is accepted as a length of one byte. -/
theorem declared_length_wrong : Announces (bytes "Content-Length: 4294967297") 4294967297 ∧ ∃ http' used,
    httpdParseHeaders {} (fun _ => 0) 0 {} (postHead (bytes "4294967297")) = .accepted http' used ∧ http'.postSz = 1 := by
  obtain ⟨http', used, h, hsz⟩ := @Parsed.accepted_of
    (httpdParseHeaders {} (fun _ => 0) 0 {} (postHead (bytes "4294967297"))) (fun http _ => decide (http.postSz = 1))
    (by decide)
  refine ⟨⟨bytes " 4294967297", bytes "4294967297", by decide, ⟨[32], [], by decide, by simp, by simp⟩,
    by decide, by decide +kernel, by decide⟩, http', used, h, of_decide_eq_true hsz⟩

end Http
end Hin9
