import Hin9.Http.Conditional
import Hin9.Http.RequestHead

/-!
# `Http.EtagTag` — an etag that a client sends back (`httpd_file.c`, `httpd_head.c`)

`httpd_send_file` prints the etag of an item as an unsigned number in hex; `httpd_parse_headers_line` reads it with
`strtol`, which has a sign and stops at the largest `long`. Etags from `2 ^ 63` on, which a hash is as often as not, are
read as that number and never match: `etag_round_trip_iff`.
-/

namespace Hin9
namespace Http

open Pattern

def ifNoneMatch : Bytes := bytes "If-None-Match"

/-- The tag that is printed for an etag: `"\"%llx\""`. -/
def etagText (e : UInt64) : Bytes := 34 :: (hexDigits e.toNat ++ [34])

/-- The line is an `If-None-Match` with this tag. -/
def CarriesTag (line : Bytes) (e : UInt64) : Prop :=
  ∃ v, fieldValue ifNoneMatch line = some v ∧ HasValue v (etagText e)

/-! ## The number -/

theorem toupper_88 : ∀ c : UInt8, isxdigit c = true → toupper c ≠ 88 := by
  intro c hc h
  have hall : ∀ c : UInt8, isxdigit c = true → toupper c ≠ 88 := forall_byte (by decide +kernel)
  exact hall c hc h

/-- **Digits are read as the number they are, as far as a `long` goes.** -/
theorem strtolHex_tag (n : Nat) (after : Bytes) :
    RequestFields.strtolHex (hexDigits n ++ 34 :: after) = UInt64.ofNat (min n (2 ^ 63 - 1)) := by
  obtain ⟨hne, hhex, hval⟩ := hexDigits_spec n
  obtain ⟨c, cs, hcs⟩ := List.exists_cons_of_ne_nil hne
  rw [hcs] at hhex hval ⊢
  have hc := hhex c List.mem_cons_self
  have hfirst : isspace c = false ∧ c ≠ 45 ∧ c ≠ 43 := isxdigit_facts hc
  -- no digit is the letter of a `0x`
  have hnox : (toupper ((cs ++ 34 :: after).headD 0) == 88) = false := by
    rw [beq_eq_false_iff_ne]
    cases cs with
    | nil =>
        have h34 : toupper 34 ≠ 88 := by decide
        exact h34
    | cons d ds => exact toupper_88 d (hhex d (by simp))
  have hquote : isxdigit 34 = false := by decide
  have htake : (c :: (cs ++ 34 :: after)).takeWhile isxdigit = c :: cs := by
    rw [← List.cons_append, List.takeWhile_append_of_pos hhex, List.takeWhile_cons_of_neg (by simp [hquote]),
      List.append_nil]
  rw [List.cons_append]
  generalize cs ++ 34 :: after = tail at hnox htake
  have hsign : (some c == some (45 : UInt8)) = false ∧ (some c == some (43 : UInt8)) = false := by
    simp [hfirst.2.1, hfirst.2.2]
  unfold RequestFields.strtolHex
  rw [List.dropWhile_cons_of_neg (by simp [hfirst.1])]
  simp only [List.head?_cons, List.tail_cons, hsign.1, hsign.2, Bool.or_false, Bool.false_eq_true, if_false, hnox,
    Bool.and_false, Bool.false_and, htake, hval]

/-! ## The line -/

section

variable {server : Server} {toTime : Bytes → Int} {http http' : RequestFields} {line : Bytes} {e : UInt64}

/-- A line with the tag is read from the first digit on. -/
theorem CarriesTag.took (h : CarriesTag line e) :
    ∃ used after, (matchiString line (bytes "If-None-Match:%s*\"")).took = some used ∧
      line.drop used = hexDigits e.toNat ++ 34 :: after := by
  obtain ⟨v, hv, before, after, rfl, hbefore, -⟩ := h
  have hname : literalPrefix true (ifNoneMatch ++ [58]) line = true ∧ line.drop 14 = before ++ etagText e ++ after := by
    unfold fieldValue at hv
    split at hv
    · rename_i hpre
      exact ⟨hpre, Option.some.inj hv⟩
    · exact absurd hv (by simp)
  have hf : bytes "If-None-Match:%s*\"" = (ifNoneMatch ++ [58]) ++ [37, 115, 42, 34] := by decide
  have hs : takeSpecifier [42, 34] = (⟨true, true⟩, [34]) := by decide
  have hrun : matchPattern (before ++ (etagText e ++ after)) [37, 115] ⟨true, true⟩ = some before.length := by
    refine matchPattern_class (m := PATTERN_SPACE) (by decide) true before _ ?_ ?_ (by simp)
    · intro c hc
      rw [matchChar_space]
      rcases hbefore c hc with rfl | rfl
      · decide
      · decide
    · intro c hc
      have hc : 34 = c := by simpa [etagText] using hc
      rw [← hc, matchChar_space]
      decide
  have hquote : formatLoop true ([(34 : UInt8)].length + 3) ([34] ++ []) (etagText e ++ after) (14 + before.length) none [] =
      ⟨some (14 + before.length + 1), []⟩ := by
    rw [formatLoop_literal true 3 (by decide), if_pos (by simp [etagText, literalPrefix]), formatLoop_end]
    rfl
  refine ⟨14 + before.length + 1, after, ?_, ?_⟩
  · unfold matchiString
    rw [hf, matchStringVirtual_literal true (by decide) (by decide), hname.1, if_pos rfl]
    have hlen : (ifNoneMatch ++ [58]).length = 14 := by decide
    rw [hlen, hname.2, List.append_assoc]
    show (formatLoop true 5 (37 :: 115 :: [42, 34]) (before ++ (etagText e ++ after)) 14 none []).took = _
    rw [formatLoop_class, hs]
    simp only [hrun, List.drop_left]
    exact congrArg Result.took hquote
  · have hdrop : line.drop (14 + before.length + 1) = (line.drop 14).drop (before.length + 1) := by
      rw [List.drop_drop]
      congr 1
    rw [hdrop, hname.2, List.append_assoc, ← List.drop_drop, List.drop_left]
    simp [etagText]

/-- A line of another name leaves the etag alone. -/
theorem LineStep.etag_other (h : LineStep server toTime http line http') (hname : named ifNoneMatch line = false) :
    http'.etag = http.etag := by
  cases h with
  | etag used hetag =>
      have hpre := name_of_took (i := 3) (by decide) (etagFormat_eq ▸ hetag)
      have hname' : literalPrefix true lineNames[3] line = false := by
        rw [named_eq] at hname
        exact hname
      exact absurd (hpre.symm.trans hname') (by simp)
  | host hhost =>
      unfold RequestFields.httpdVhostRequest
      split
      · rfl
      · split <;> rfl
  | encoding | since | connection | range | length | boundary | chunked | identity | other => rfl

/-- A line that is read sets it. -/
theorem LineStep.etag_own (h : LineStep server toTime http line http') {used : Nat}
    (hetag : (matchiString line (bytes "If-None-Match:%s*\"")).took = some used) :
    http'.etag = RequestFields.strtolHex (line.drop used) := by
  have hother : ∀ i (hi : i < lineNames.length), i ≠ 3 → literalPrefix true lineNames[i] line = true → False := by
    intro i hi hne hpre
    have hnone := took_of_other (j := 3) hi (by decide) hne hpre (bytes "%s*\"")
    rw [← etagFormat_eq, hetag] at hnone
    exact absurd hnone (by simp)
  cases h with
  | etag used' hetag' =>
      obtain rfl : used = used' := Option.some.inj (hetag.symm.trans hetag')
      rfl
  | encoding hname => exact (hother 0 (by decide) (by decide) hname).elim
  | host hhost =>
      obtain ⟨used', hused⟩ := Option.isSome_iff_exists.mp hhost
      exact (hother 1 (by decide) (by decide) (name_of_took (by decide) (hostFormat_eq ▸ hused))).elim
  | since hname => exact (hother 2 (by decide) (by decide) hname).elim
  | connection hname => exact (hother 4 (by decide) (by decide) hname).elim
  | range hname => exact (hother 5 (by decide) (by decide) hname).elim
  | length hpost hlength =>
      obtain ⟨used', hused⟩ := Option.isSome_iff_exists.mp hlength
      exact (hother 6 (by decide) (by decide) (name_of_took (by decide) (lengthFormat_eq ▸ hused))).elim
  | boundary hname => exact (hother 7 (by decide) (by decide) hname).elim
  | chunked hpost used' hcoding => exact (hother 8 (by decide) (by decide) (name_of_took (by decide) (codingFormat_eq ▸ hcoding))).elim
  | identity hpost used' hcoding => exact (hother 8 (by decide) (by decide) (name_of_took (by decide) (codingFormat_eq ▸ hcoding))).elim
  | other _ hnone => exact absurd (hetag.symm.trans hnone) (by simp)

end

/-! ## The head, and the answer -/

section

variable {server : Server} {toTime : Bytes → Int} {behind : UInt8}

/-- Lines of other names leave the etag alone. By induction on the lines. -/
theorem parseLines_etag_other {lines : List Bytes} (hother : ∀ line ∈ lines, named ifNoneMatch line = false)
    {http read : RequestFields} (h : http.parseLines server toTime lines = some read) : read.etag = http.etag := by
  induction lines generalizing http with
  | nil =>
      obtain rfl := Option.some.inj h
      rfl
  | cons line lines ih =>
      rw [parseLines_cons] at h
      obtain ⟨next, hnext, hrest⟩ := Option.bind_eq_some_iff.mp h
      have hsame := (headersLine_step hnext).etag_other (hother line List.mem_cons_self)
      rw [ih (fun l hl => hother l (List.mem_cons_of_mem _ hl)) hrest, hsame]

/-- **The etag of a request** is what `strtol` makes of the last tag. -/
theorem parseLines_etag {before after : List Bytes} {line : Bytes} {e : UInt64} (htag : CarriesTag line e)
    (hlast : ∀ l ∈ after, named ifNoneMatch l = false) {http read : RequestFields}
    (h : http.parseLines server toTime (before ++ line :: after) = some read) :
    read.etag = UInt64.ofNat (min e.toNat (2 ^ 63 - 1)) := by
  rw [parseLines_append] at h
  obtain ⟨first, -, h⟩ := Option.bind_eq_some_iff.mp h
  rw [parseLines_cons] at h
  obtain ⟨next, hnext, hrest⟩ := Option.bind_eq_some_iff.mp h
  obtain ⟨used, tail, hused, hdrop⟩ := htag.took
  rw [parseLines_etag_other hlast hrest, (headersLine_step hnext).etag_own hused, hdrop, strtolHex_tag]

/-- What fits into a `long` is read back, and nothing else is. -/
theorem clipped_eq_iff (e : UInt64) : UInt64.ofNat (min e.toNat (2 ^ 63 - 1)) = e ↔ e.toNat < 2 ^ 63 := by
  have hlt : e.toNat < 2 ^ 64 := e.toNat_lt
  rw [← UInt64.toNat_inj, UInt64.toNat_ofNat_of_lt' (lt_of_le_of_lt (min_le_left _ _) hlt)]
  omega

/-- **A request that names the etag of an item** is answered with `304` unless the bytes it asks for lie outside. -/
theorem answers304_of_etag {client : HttpdClient} {item : FileItem} (hgiven : EtagGiven client)
    (hetag : client.etag = item.etag) : Answers304 client item ↔ Selected client item.size := by
  have hrange := sendFileRange_eq client item.size
  have hstatus := sendFileConditions_status (sendFileRange client item.size) item
  have hnot : NotModified (sendFileRange client item.size) item := by
    rw [hrange]
    exact .inl ⟨hgiven, hetag⟩
  rw [if_pos hnot] at hstatus
  have hpos : (sendFileRange client item.size).pos = selectedStart client := by rw [hrange]
  have hcount : (sendFileRange client item.size).count = selectedCount client item.size := by rw [hrange]
  unfold Answers304 httpdSendFile
  dsimp only
  by_cases hout : (sendFileRange client item.size).pos < 0 ∨ (sendFileRange client item.size).pos > item.size ∨
      (sendFileRange client item.size).pos + (sendFileRange client item.size).count > item.size
  · rw [if_pos hout]
    refine iff_of_false (by simp) fun hsel => ?_
    rw [hpos, hcount] at hout
    have := hsel.start
    have := hsel.count
    have := hsel.inside
    omega
  · rw [if_neg hout]
    refine iff_of_true ⟨_, rfl, hstatus⟩ ?_
    rw [hpos, hcount] at hout
    refine ⟨by omega, ?_, by omega⟩
    unfold selectedCount selectedStart at *
    by_cases hgives : GivesParts client
    · rw [if_pos hgives] at hout ⊢
      exact askedCount_nonneg (by omega)
    · rw [if_neg hgives]
      exact Int.natCast_nonneg _

/-- **The tag that was printed for an item comes back as its etag, and is answered with `304`,** exactly if the etag fits
    into a `long` and the request does not ask for bytes outside of the item. The fields `client` of the request when it is
    answered are those of the head, or others that the script has set; it does not set the etag. -/
theorem etag_round_trip_iff {http http' : RequestFields} {data : Bytes} {used : Nat}
    (h : httpdParseHeaders server toTime behind http data = .accepted http' used) {first line : Bytes}
    {before after : List Bytes} {rest : Source}
    (hlines : requestLines behind data = some (first :: (before ++ line :: after), rest)) {e : UInt64} (he : e ≠ 0)
    (htag : CarriesTag line e) (hlast : ∀ l ∈ after, named ifNoneMatch l = false) {client : HttpdClient}
    (hclient : client.etag = http'.etag) {item : FileItem} (hitem : item.etag = e) :
    (http'.etag = e ∧ (client.disable &&& HIN_HTTP_ETAG = 0 → Answers304 client item)) ↔
      e.toNat < 2 ^ 63 ∧ (client.disable &&& HIN_HTTP_ETAG = 0 → Selected client item.size) := by
  obtain ⟨line0, lines, rest', method, read, hacc⟩ := httpdParseHeaders_accepted h
  obtain ⟨heq, -⟩ := Prod.mk.inj (Option.some.inj (hacc.found.symm.trans hlines))
  obtain ⟨-, rfl⟩ := List.cons.inj heq
  obtain ⟨path, ver0, -, hread⟩ := hacc.request
  have hetag : http'.etag = UInt64.ofNat (min e.toNat (2 ^ 63 - 1)) := by
    have hetag' := parseLines_etag htag hlast hread
    rw [hacc.settled]
    exact hetag'
  rw [hetag, clipped_eq_iff]
  refine and_congr_right fun hlt => ?_
  have hsame : client.etag = e := by rw [hclient, hetag, (clipped_eq_iff e).mpr hlt]
  refine forall_congr' fun hon => ?_
  exact answers304_of_etag ⟨hon, hsame ▸ he⟩ (hsame.trans hitem.symm)

end

/-- The head of a `GET` with an etag. -/
def taggedGet (e : UInt64) : Bytes :=
  bytes "GET / HTTP/1.1\r\nIf-None-Match: " ++ etagText e ++ bytes "\r\n\r\n"

theorem etag_round_trip_sample : ∃ http' used,
    httpdParseHeaders {} (fun _ => 0) 0 {} (taggedGet 0xabc) = .accepted http' used ∧ http'.etag = 0xabc ∧
      Answers304 { etag := 0xabc } ⟨0, 10, 0xabc⟩ := by
  obtain ⟨http', used, h, hetag⟩ : ∃ http' used,
      httpdParseHeaders {} (fun _ => 0) 0 {} (taggedGet 0xabc) = .accepted http' used ∧ http'.etag = 0xabc :=
    ⟨_, _, rfl, by decide⟩
  have hlines : requestLines 0 (taggedGet 0xabc) = some (bytes "GET / HTTP/1.1" ::
      ([] ++ (bytes "If-None-Match: " ++ etagText 0xabc) :: []), { data := [] }) := by decide
  have htag : CarriesTag (bytes "If-None-Match: " ++ etagText 0xabc) 0xabc :=
    ⟨32 :: etagText 0xabc, by decide, [32], [], by decide, by simp, by simp⟩
  have hclient : ({ etag := 0xabc } : HttpdClient).etag = http'.etag := hetag.symm
  have hitem : (⟨0, 10, 0xabc⟩ : FileItem).etag = 0xabc := rfl
  have hiff := etag_round_trip_iff h hlines (by decide) htag (by simp) hclient hitem
  obtain ⟨-, hanswer⟩ := hiff.mpr ⟨by decide, fun _ => ⟨by decide, by decide, by decide⟩⟩
  exact ⟨http', used, h, hetag, hanswer rfl⟩

/-- **The statement fails** for the largest etag. -/
theorem etag_round_trip_wrong : ∃ http' used,
    httpdParseHeaders {} (fun _ => 0) 0 {} (taggedGet 0xffffffffffffffff) = .accepted http' used ∧
      http'.etag = 0x7fffffffffffffff ∧ ¬ Answers304 { etag := http'.etag } ⟨0, 10, 0xffffffffffffffff⟩ := by
  obtain ⟨http', used, h, hetag⟩ : ∃ http' used,
      httpdParseHeaders {} (fun _ => 0) 0 {} (taggedGet 0xffffffffffffffff) = .accepted http' used ∧
        http'.etag = 0x7fffffffffffffff :=
    ⟨_, _, rfl, by decide⟩
  refine ⟨http', used, h, hetag, ?_⟩
  rw [hetag]
  rintro ⟨r, hr, h304⟩
  simp [httpdSendFile, sendFileRange, sendFileConditions] at hr
  simp [← hr] at h304

end Http
end Hin9
