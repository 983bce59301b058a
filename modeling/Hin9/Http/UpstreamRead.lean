import Hin9.Http.Proxy

/-!
# `Http.UpstreamRead` — well-formed responses and how their heads are read

`UpstreamResponse` is a response as a server writes it: a status line, header lines, and a body delimited by
`Content-Length`, by chunks or by the end of the connection. The head parser of the proxy asks for more than the
protocol does (`Plain`); on responses that give it that, it waits for the whole head and reads it as it stands.
-/

namespace Hin9
namespace Http

open Pattern
open Lib.Chunked (Encodes)

/-! ## Responses -/

/-- The value of a header line with this name, in upper or lower case; `none` for a line with another name. -/
def fieldValue (name line : Bytes) : Option Bytes :=
  if literalPrefix true (name ++ [58]) line then some (line.drop (name.length + 1)) else none

def contentLength : Bytes := bytes "Content-Length"

def transferEncoding : Bytes := bytes "Transfer-Encoding"

/-- A field value, with blanks around it. -/
def HasValue (field value : Bytes) : Prop :=
  ∃ before after, field = before ++ value ++ after ∧ (∀ c ∈ before, c = 32 ∨ c = 9) ∧ ∀ c ∈ after, c = 32 ∨ c = 9

/-- How the body of a response is delimited. For chunks, `enc` is their encoding up to the last-chunk line, and
    `trailer` what follows it. -/
inductive BodyFraming where
  | length (n : Nat)
  | chunked (chunks : List Bytes) (enc trailer : Bytes)
  | close
deriving Repr, DecidableEq

/-- A response of an upstream server. -/
structure UpstreamResponse where
  status : Bytes
  reason : Bytes
  lines : List Bytes
  framing : BodyFraming
  body : Bytes
deriving Repr, DecidableEq

namespace UpstreamResponse

def statusLine (r : UpstreamResponse) : Bytes := bytes "HTTP/1.1 " ++ r.status ++ [32] ++ r.reason

/-- Lines as they are sent, with the blank one behind them. -/
def text (lines : List Bytes) : Bytes := lines.flatMap (· ++ [CR, LF]) ++ [CR, LF]

def head (r : UpstreamResponse) : Bytes := text (r.statusLine :: r.lines)

/-- What follows the head. -/
def payload (r : UpstreamResponse) : Bytes :=
  match r.framing with
  | .chunked _ enc trailer => enc ++ trailer
  | _ => r.body

def wire (r : UpstreamResponse) : Bytes := r.head ++ r.payload

/-- The framing the head declares is that of the body. -/
def Framed (r : UpstreamResponse) : Prop :=
  match r.framing with
  | .length n =>
      (∃ line ∈ r.lines, (fieldValue contentLength line).isSome) ∧
      (∀ line ∈ r.lines, ∀ v, fieldValue contentLength line = some v →
        ∃ digits, HasValue v digits ∧ digits ≠ [] ∧ (∀ c ∈ digits, isdigit c = true) ∧ decNat 0 digits = n) ∧
      (∀ line ∈ r.lines, fieldValue transferEncoding line = none) ∧ r.body.length = n
  | .chunked chunks enc _ =>
      (∃ line ∈ r.lines, (fieldValue transferEncoding line).isSome) ∧
      (∀ line ∈ r.lines, ∀ v, fieldValue transferEncoding line = some v →
        ∃ coding, HasValue v coding ∧ coding.map toupper = bytes "CHUNKED") ∧
      (∀ line ∈ r.lines, fieldValue contentLength line = none) ∧ Encodes chunks enc ∧ r.body = chunks.flatten
  | .close =>
      (∀ line ∈ r.lines, fieldValue contentLength line = none) ∧
      ∀ line ∈ r.lines, fieldValue transferEncoding line = none

/-- **Well-formed responses.** The status is one of a response that has a body. -/
structure WellFormed (r : UpstreamResponse) : Prop where
  digits : ∀ c ∈ r.status, isdigit c = true
  three : r.status.length = 3
  final : 200 ≤ decNat 0 r.status
  hasBody : decNat 0 r.status ≠ 204 ∧ decNat 0 r.status ≠ 304
  reason : CR ∉ r.reason ∧ LF ∉ r.reason
  lines : ∀ line ∈ r.lines, line ≠ [] ∧ CR ∉ line ∧ LF ∉ line
  framed : r.Framed

/-- What the head parser asks for: a reason phrase that starts with a letter or a digit, one blank and nothing but
    digits in a `Content-Length` line, and numbers that fit into its variables. -/
structure Plain (r : UpstreamResponse) : Prop where
  reason : ∃ c ∈ r.reason.head?, isalnum c = true
  length : ∀ line ∈ r.lines, ∀ v, fieldValue contentLength line = some v →
    ∃ digits, v = 32 :: digits ∧ digits ≠ [] ∧ (∀ c ∈ digits, isdigit c = true) ∧ decNat 0 digits < 2 ^ 31
  chunks : ∀ chunks enc trailer, r.framing = .chunked chunks enc trailer → ∀ c ∈ chunks, c.length ≤ longMax

/-- What there is to note of the framing. -/
def noted (r : UpstreamResponse) : Framing :=
  match r.framing with
  | .length n => { sz := n }
  | .chunked .. => { chunked := true }
  | .close => {}

/-- The head as it is to be read, with `tail` behind it. -/
def upstreamHead (r : UpstreamResponse) (tail : Bytes) : UpstreamHead :=
  { status := decNat 0 r.status, framing := r.noted, lines := r.lines, rest := { data := tail } }

end UpstreamResponse

/-! ## Header lines -/

theorem contentLength_other {line : Bytes} (h : fieldValue contentLength line = none) :
    (matchiStringEqual line (bytes "Content-Length: (%d+)")).took = none := by
  have hf : bytes "Content-Length: (%d+)" = (contentLength ++ [58, 32]) ++ [40, 37, 100, 43, 41] := by decide
  have hpre : literalPrefix true (contentLength ++ [58, 32]) line = false := by
    have hsplit : contentLength ++ [58, 32] = (contentLength ++ [58]) ++ [32] := by decide
    unfold fieldValue at h
    split at h
    · exact absurd h (by simp)
    · rename_i hno
      rw [hsplit, literalPrefix_append, Bool.eq_false_iff.mpr hno, Bool.false_and]
  unfold matchiStringEqual
  rw [hf, matchStringVirtual_literal true (by decide) (by decide), hpre]
  simp [Result.took]

theorem contentLength_digits {line digits : Bytes} (h : fieldValue contentLength line = some (32 :: digits))
    (hne : digits ≠ []) (hdigits : ∀ c ∈ digits, isdigit c = true) :
    (matchiStringEqual line (bytes "Content-Length: (%d+)")).took.isSome ∧
      (matchiStringEqual line (bytes "Content-Length: (%d+)")).capture line 0 = digits := by
  have hf : bytes "Content-Length: (%d+)" = (contentLength ++ [58, 32]) ++ [40, 37, 100, 43, 41] := by decide
  have hlen : (contentLength ++ [58]).length = 15 := by decide
  have hdrop : line.drop 15 = 32 :: digits ∧ literalPrefix true (contentLength ++ [58]) line = true := by
    unfold fieldValue at h
    split at h
    · rename_i hpre
      exact ⟨Option.some.inj h, hpre⟩
    · exact absurd h (by simp)
  have hpre : literalPrefix true (contentLength ++ [58, 32]) line = true := by
    have hsplit : contentLength ++ [58, 32] = (contentLength ++ [58]) ++ [32] := by decide
    rw [hsplit, literalPrefix_append, hdrop.2, hlen, hdrop.1]
    simp [literalPrefix]
  have hdrop16 : line.drop 16 = digits := by
    rw [← List.drop_drop (i := 1) (j := 15), hdrop.1]
    rfl
  have hlength : line.length = 16 + digits.length := by
    have := congrArg List.length hdrop.1
    rw [List.length_drop, List.length_cons] at this
    omega
  have hp : matchPattern digits [37, 100] ⟨true, false⟩ = some digits.length := by
    have h := matchPattern_class (m := PATTERN_DIGIT) (k := 100) (by decide) false digits []
      (fun c hc => (matchChar_digit c 0).trans (hdigits c hc)) (by simp) (fun he => absurd he hne)
    rwa [List.append_nil] at h
  have hs : takeSpecifier [43, 41] = (⟨true, false⟩, [41]) := by decide
  have hlen16 : (contentLength ++ [58, 32]).length = 16 := by decide
  have hmatch : matchStringVirtual true line (bytes "Content-Length: (%d+)") =
      ⟨some (16 + digits.length), [(16, digits.length)]⟩ := by
    rw [hf, matchStringVirtual_literal true (by decide) (by decide), hpre, if_pos rfl, hlen16, hdrop16]
    show formatLoop true 6 [40, 37, 100, 43, 41] digits 16 none [] = _
    rw [formatLoop_open, formatLoop_class, hs]
    simp only [hp]
    rw [formatLoop_close, formatLoop_end]
    simp
  unfold matchiStringEqual
  simp only [hmatch]
  rw [if_pos (by rw [hlength])]
  constructor
  · cases digits with
    | nil => exact absurd rfl hne
    | cons c cs => simp [Result.took, ← Nat.add_assoc]
  · show (line.drop 16).take digits.length = digits
    rw [hdrop16, List.take_length]

/-- What is left of the value in front of the coding. -/
theorem dropWhile_isspace_blanks {before rest : Bytes} (hbefore : ∀ c ∈ before, c = 32 ∨ c = 9)
    (hrest : ∀ c ∈ rest.head?, isspace c = false) : (before ++ rest).takeWhile isspace = before := by
  rw [List.takeWhile_append_of_pos]
  · cases rest with
    | nil => simp
    | cons c cs => simp [hrest c (by simp)]
  · intro c hc
    rcases hbefore c hc with rfl | rfl <;> decide

theorem transferEncoding_other {line : Bytes} (h : fieldValue transferEncoding line = none) :
    (matchiString line (bytes "Transfer-Encoding:%s*")).took = none := by
  have hf : bytes "Transfer-Encoding:%s*" = (transferEncoding ++ [58]) ++ [37, 115, 42] := by decide
  have hpre : literalPrefix true (transferEncoding ++ [58]) line = false := by
    unfold fieldValue at h
    split at h
    · exact absurd h (by simp)
    · rename_i hno
      exact Bool.eq_false_iff.mpr hno
  unfold matchiString
  rw [hf, matchStringVirtual_literal true (by decide) (by decide), hpre]
  simp [Result.took]

/-- Letters that are the same in upper case. -/
theorem literalPrefix_toupper {lit coding : Bytes} (h : coding.map toupper = lit.map toupper) (rest : Bytes) :
    literalPrefix true lit (coding ++ rest) = true := by
  induction lit generalizing coding with
  | nil => simp [literalPrefix]
  | cons f fs ih =>
      cases coding with
      | nil => simp at h
      | cons c cs =>
          rw [List.map_cons, List.map_cons, List.cons.injEq] at h
          rw [List.cons_append, literalPrefix, ih h.2]
          simp [h.1]

/-- **A line that announces chunks** is taken for one, with the name and the blanks in front of the coding used up. -/
theorem transferEncoding_chunked {line v coding : Bytes} (h : fieldValue transferEncoding line = some v)
    (hv : HasValue v coding) (hcoding : coding.map toupper = bytes "CHUNKED") :
    ∃ n, (matchiString line (bytes "Transfer-Encoding:%s*")).took = some n ∧
      (matchiString (line.drop n) (bytes "chunked")).took.isSome := by
  obtain ⟨before, after, rfl, hbefore, -⟩ := hv
  have hf : bytes "Transfer-Encoding:%s*" = (transferEncoding ++ [58]) ++ [37, 115, 42] := by decide
  have hlen : (transferEncoding ++ [58]).length = 18 := by decide
  have hline : line.drop 18 = before ++ coding ++ after ∧ literalPrefix true (transferEncoding ++ [58]) line = true := by
    unfold fieldValue at h
    split at h
    · rename_i hpre
      exact ⟨Option.some.inj h, hpre⟩
    · exact absurd h (by simp)
  obtain ⟨c, cs, rfl⟩ : ∃ c cs, coding = c :: cs := by
    cases coding with
    | nil => exact absurd hcoding (by decide)
    | cons c cs => exact ⟨c, cs, rfl⟩
  have hc : isspace c = false := by
    have hupper : toupper c = 67 := by
      rw [List.map_cons] at hcoding
      exact (List.cons.inj hcoding).1
    by_contra hspace
    rw [Bool.not_eq_false] at hspace
    have hlower : islower c = false := by
      simp only [isspace, Bool.or_eq_true, beq_iff_eq, Bool.and_eq_true, decide_eq_true_eq, UInt8.le_iff_toNat_le] at hspace
      simp only [islower, Bool.and_eq_false_iff, decide_eq_false_iff_not, UInt8.le_iff_toNat_le]
      rcases hspace with rfl | hspace
      · decide
      · have h13 : (13 : UInt8).toNat = 13 := rfl
        have h97 : (97 : UInt8).toNat = 97 := rfl
        exact .inl (by omega)
    unfold toupper at hupper
    rw [hlower, if_neg Bool.false_ne_true] at hupper
    rw [hupper] at hspace
    exact absurd hspace (by decide)
  have hp : matchPattern (before ++ (c :: cs ++ after)) [37, 115] ⟨true, true⟩ = some before.length := by
    refine matchPattern_class (m := PATTERN_SPACE) (by decide) true before _ ?_ ?_ (fun _ => rfl)
    · intro d hd
      rw [matchChar_space]
      rcases hbefore d hd with rfl | rfl <;> decide
    · intro d hd
      obtain rfl : c = d := by simpa using hd
      rw [matchChar_space]
      exact hc
  have hs : takeSpecifier [42] = (⟨true, true⟩, []) := by decide
  have hmatch : matchiString line (bytes "Transfer-Encoding:%s*") = ⟨some (18 + before.length), []⟩ := by
    unfold matchiString
    rw [hf, matchStringVirtual_literal true (by decide) (by decide), hline.2, if_pos rfl, hlen, hline.1,
      List.append_assoc]
    show formatLoop true 4 [37, 115, 42] _ 18 none [] = _
    rw [formatLoop_class, hs]
    simp only [hp]
    rw [formatLoop_end]
    rfl
  refine ⟨18 + before.length, ?_, ?_⟩
  · rw [hmatch, Nat.add_comm]
    rfl
  · have hrest : line.drop (18 + before.length) = c :: cs ++ after := by
      rw [← List.drop_drop, hline.1, List.append_assoc, List.drop_left]
    have hlit : bytes "chunked" = bytes "chunked" ++ [] := (List.append_nil _).symm
    have hupper : (c :: cs).map toupper = (bytes "chunked").map toupper := hcoding.trans (by decide)
    unfold matchiString
    rw [hrest, hlit, matchStringVirtual_literal true (by decide) (by decide), literalPrefix_toupper hupper after, if_pos rfl]
    rw [formatLoop_end]
    decide

/-! ## The lines of a head -/

/-- A number has its digits from the field. -/
theorem HasValue.filter_digits {v digits : Bytes} (h : HasValue v digits) (hdigits : ∀ c ∈ digits, isdigit c = true) :
    v.filter isdigit = digits := by
  obtain ⟨before, after, rfl, hbefore, hafter⟩ := h
  have hblank : ∀ bs : Bytes, (∀ c ∈ bs, c = 32 ∨ c = 9) → bs.filter isdigit = [] := by
    intro bs hbs
    rw [List.filter_eq_nil_iff]
    intro c hc
    rcases hbs c hc with rfl | rfl <;> decide
  rw [List.filter_append, List.filter_append, hblank _ hbefore, hblank _ hafter, List.filter_eq_self.mpr hdigits,
    List.nil_append, List.append_nil]

/-- Numbers in the same blanks are the same. -/
theorem HasValue.digits_eq {digits digits' : Bytes} (h : HasValue (32 :: digits) digits')
    (hd : ∀ c ∈ digits, isdigit c = true) (hd' : ∀ c ∈ digits', isdigit c = true) : digits' = digits := by
  have hfilter := h.filter_digits hd'
  rw [List.filter_cons_of_neg (by decide), List.filter_eq_self.mpr hd] at hfilter
  exact hfilter.symm

/-- What a line of a well-formed head adds to what is noted. -/
def UpstreamResponse.note (r : UpstreamResponse) (f : Framing) (line : Bytes) : Framing :=
  match r.framing with
  | .length n => if (fieldValue contentLength line).isSome then { f with sz := n } else f
  | .chunked .. => if (fieldValue transferEncoding line).isSome then { f with chunked := true } else f
  | .close => f

/-- **Every line is read as it is written.** -/
theorem httpParseHeadersLine_spec {r : UpstreamResponse} (hr : r.WellFormed) (hp : r.Plain) {line : Bytes}
    (hline : line ∈ r.lines) (f : Framing) : httpParseHeadersLine f line = some (r.note f line) := by
  have hframed := hr.framed
  unfold UpstreamResponse.Framed at hframed
  unfold UpstreamResponse.note
  cases hfr : r.framing with
  | length n =>
      rw [hfr] at hframed
      dsimp only at hframed ⊢
      obtain ⟨-, hvalue, hother, -⟩ := hframed
      unfold httpParseHeadersLine
      dsimp only
      cases hv : fieldValue contentLength line with
      | none =>
          rw [contentLength_other hv, transferEncoding_other (hother line hline)]
          rfl
      | some v =>
          obtain ⟨digits, rfl, hne, hdigits, hlt⟩ := hp.length line hline v hv
          obtain ⟨digits', hhas, -, hdigits', hn⟩ := hvalue line hline _ hv
          obtain rfl := hhas.digits_eq hdigits hdigits'
          obtain ⟨htook, hcapture⟩ := contentLength_digits hv hne hdigits
          obtain ⟨used, hused⟩ := Option.isSome_iff_exists.mp htook
          rw [hused, hcapture, atoi_digits hne hdigits hlt, hn]
          rfl
  | chunked chunks enc trailer =>
      rw [hfr] at hframed
      dsimp only at hframed ⊢
      obtain ⟨-, hvalue, hother, -⟩ := hframed
      unfold httpParseHeadersLine
      dsimp only
      rw [contentLength_other (hother line hline)]
      dsimp only
      cases hv : fieldValue transferEncoding line with
      | none =>
          rw [transferEncoding_other hv]
          rfl
      | some v =>
          obtain ⟨coding, hhas, hcoding⟩ := hvalue line hline v hv
          obtain ⟨used, htook, hchunked⟩ := transferEncoding_chunked hv hhas hcoding
          obtain ⟨more, hmore⟩ := Option.isSome_iff_exists.mp hchunked
          rw [htook]
          dsimp only
          rw [hmore]
          rfl
  | close =>
      rw [hfr] at hframed
      dsimp only at hframed ⊢
      unfold httpParseHeadersLine
      dsimp only
      rw [contentLength_other (hframed.1 line hline), transferEncoding_other (hframed.2 line hline)]

/-- A step that sets one field leaves it set. -/
theorem foldl_set {α β : Type} (p : β → Bool) (set : α → α) (hset : ∀ a, set (set a) = set a) (bs : List β) (a : α) :
    bs.foldl (fun a b => if p b then set a else a) a = if ∃ b ∈ bs, p b = true then set a else a := by
  induction bs generalizing a with
  | nil => simp
  | cons b bs ih =>
      rw [List.foldl_cons, ih]
      by_cases hb : p b = true
      · rw [if_pos hb, if_pos (⟨b, List.mem_cons_self, hb⟩ : ∃ c ∈ b :: bs, p c = true)]
        split
        · exact hset a
        · rfl
      · rw [if_neg hb]
        congr 1
        simp [hb]

/-- **What is noted behind all lines.** -/
theorem note_lines {r : UpstreamResponse} (hr : r.WellFormed) : r.lines.foldl r.note {} = r.noted := by
  have hframed := hr.framed
  unfold UpstreamResponse.Framed at hframed
  unfold UpstreamResponse.noted
  cases hfr : r.framing with
  | length n =>
      rw [hfr] at hframed
      have hnote : r.note = fun f line => if (fieldValue contentLength line).isSome then { f with sz := n } else f := by
        funext f line
        unfold UpstreamResponse.note
        rw [hfr]
      rw [hnote, foldl_set (fun line => (fieldValue contentLength line).isSome) (fun f : Framing => { f with sz := n })
        (fun _ => rfl), if_pos hframed.1]
  | chunked chunks enc trailer =>
      rw [hfr] at hframed
      have hnote : r.note =
          fun f line => if (fieldValue transferEncoding line).isSome then { f with chunked := true } else f := by
        funext f line
        unfold UpstreamResponse.note
        rw [hfr]
      rw [hnote, foldl_set (fun line => (fieldValue transferEncoding line).isSome)
        (fun f : Framing => { f with chunked := true }) (fun _ => rfl), if_pos hframed.1]
  | close =>
      have hnote : r.note = fun f _ => f := by
        funext f line
        unfold UpstreamResponse.note
        rw [hfr]
      rw [hnote]
      exact List.foldl_fixed _

/-! ## Scanning a head -/

theorem dropCR_snoc (line : Bytes) : dropCR (line ++ [CR]) = line := by
  unfold dropCR
  rw [List.getLast?_concat, if_pos rfl, List.dropLast_concat]

/-- A line that is all there is found. -/
theorem hinFindLine_line (behind : UInt8) {line : Bytes} (hlf : LF ∉ line) (rest : Bytes) :
    hinFindLine behind { data := line ++ CR :: LF :: rest } = some (line, { data := rest }) := by
  have hfind : (line ++ CR :: LF :: rest).findIdx? (· == LF) = some (line.length + 1) := by
    rw [List.findIdx?_eq_some_iff_getElem]
    refine ⟨by simp, by simp, ?_⟩
    intro j hj
    by_cases hlt : j < line.length
    · rw [List.getElem_append_left hlt]
      simp only [beq_iff_eq]
      exact fun he => hlf (he ▸ List.getElem_mem hlt)
    · obtain rfl : j = line.length := by omega
      simp only [List.getElem_append_right (Nat.le_refl _), Nat.sub_self, List.getElem_cons_zero]
      decide
  unfold hinFindLine
  rw [if_neg Bool.false_ne_true]
  dsimp only
  rw [hfind]
  dsimp only
  have htake : (line ++ CR :: LF :: rest).take (line.length + 1) = line ++ [CR] := by
    rw [List.take_append, List.take_of_length_le (by omega)]
    simp
  have hdrop : (line ++ CR :: LF :: rest).drop (line.length + 1 + 1) = rest := by
    rw [List.drop_append, List.drop_eq_nil_of_le (by omega), List.nil_append,
      show line.length + 1 + 1 - line.length = 2 by omega]
    rfl
  rw [htake, hdrop, dropCR_snoc]

/-- A view without a line feed has a line only where one lies behind it. -/
theorem hinFindLine_open {behind : UInt8} {data : Bytes} (hlf : LF ∉ data) :
    hinFindLine behind { data } = if behind = LF then some (dropCR data, { data := [], beyond := true }) else none := by
  have hfind : data.findIdx? (· == LF) = none := by
    rw [List.findIdx?_eq_none_iff]
    intro c hc
    simp only [beq_eq_false_iff_ne, ne_eq]
    exact fun he => hlf (he ▸ hc)
  unfold hinFindLine
  rw [if_neg Bool.false_ne_true]
  dsimp only
  rw [hfind]

open UpstreamResponse (text)

theorem text_cons (line : Bytes) (lines : List Bytes) : text (line :: lines) = line ++ CR :: LF :: text lines := by
  unfold UpstreamResponse.text
  rw [List.flatMap_cons, List.append_assoc, List.append_assoc]
  rfl

theorem text_ne_nil (lines : List Bytes) : text lines ≠ [] := by
  unfold UpstreamResponse.text
  simp

theorem lines_length_le (lines : List Bytes) : lines.length < (text lines).length := by
  induction lines with
  | nil => decide
  | cons line lines ih =>
      rw [text_cons, List.length_append, List.length_cons, List.length_cons, List.length_cons]
      omega

/-- Lines that are no line feeds and no blank lines. -/
def ProperLines (lines : List Bytes) : Prop := ∀ line ∈ lines, line ≠ [] ∧ CR ∉ line ∧ LF ∉ line

/-- **A whole head is there.** -/
theorem headThere_whole (behind : UInt8) {lines : List Bytes} (h : ProperLines lines) (tail : Bytes) (fuel : Nat)
    (hfuel : lines.length < fuel) : headThere behind fuel { data := text lines ++ tail } = true := by
  induction lines generalizing fuel with
  | nil =>
      obtain ⟨fuel, rfl⟩ : ∃ n, fuel = n + 1 := ⟨fuel - 1, by simp at hfuel; omega⟩
      have hfind : hinFindLine behind { data := UpstreamResponse.text [] ++ tail } = some ([], { data := tail }) :=
        hinFindLine_line behind List.not_mem_nil tail
      unfold headThere
      rw [hfind]
      rfl
  | cons line lines ih =>
      obtain ⟨fuel, rfl⟩ : ∃ n, fuel = n + 1 := ⟨fuel - 1, by simp at hfuel; omega⟩
      obtain ⟨hne, -, hlf⟩ := h line List.mem_cons_self
      have hfind : hinFindLine behind { data := text (line :: lines) ++ tail } =
          some (line, { data := text lines ++ tail }) := by
        rw [text_cons, List.append_assoc]
        exact hinFindLine_line behind hlf _
      have hlen : ({ data := text lines ++ tail } : Source).len ≠ 0 := by
        unfold Source.len
        rw [if_neg Bool.false_ne_true]
        have := List.length_pos_of_ne_nil (text_ne_nil lines)
        rw [List.length_append]
        omega
      unfold headThere
      rw [hfind]
      dsimp only
      rw [if_neg hne, if_neg hlen]
      exact ih (fun l hl => h l (List.mem_cons_of_mem _ hl)) fuel (by simp at hfuel; omega)

/-- Nothing of a head is there behind the view. -/
theorem headThere_beyond {behind : UInt8} {s : Source} (h : s.beyond = true) (fuel : Nat) :
    headThere behind fuel s = false := by
  cases fuel with
  | zero => rfl
  | succ fuel =>
      unfold headThere
      rw [hinFindLine_beyond h]

/-- A prefix that reaches a line feed reaches behind the first line. -/
theorem prefix_line {line data rest : Bytes} (hlf : LF ∉ line) (hpre : data <+: line ++ CR :: LF :: rest) :
    (LF ∉ data ∧ data <+: line ++ [CR]) ∨ ∃ more, data = line ++ CR :: LF :: more ∧ more <+: rest := by
  by_cases hlen : data.length ≤ line.length + 1
  · have hsub : data <+: line ++ [CR] := by
      refine List.prefix_of_prefix_length_le hpre ⟨LF :: rest, ?_⟩ (by simpa using hlen)
      rw [List.append_assoc]
      rfl
    refine .inl ⟨?_, hsub⟩
    intro hmem
    rcases List.mem_append.mp (hsub.subset hmem) with hmem | hmem
    · exact hlf hmem
    · exact absurd (List.mem_singleton.mp hmem) (by decide)
  · have hline : line ++ [CR, LF] <+: data := by
      refine List.prefix_of_prefix_length_le ⟨rest, ?_⟩ hpre (by simp; omega)
      rw [List.append_assoc]
      rfl
    obtain ⟨more, rfl⟩ := hline
    refine .inr ⟨more, by rw [List.append_assoc]; rfl, ?_⟩
    rw [List.append_assoc, List.prefix_append_right_inj] at hpre
    have hpre : CR :: LF :: more <+: CR :: LF :: rest := hpre
    rwa [List.cons_prefix_cons, List.cons_prefix_cons, and_iff_right rfl, and_iff_right rfl] at hpre

/-- In a line that has not ended there is no blank one, unless the byte behind ends it. -/
theorem headThere_open {behind : UInt8} {data : Bytes} (hne : data ≠ []) (hlf : LF ∉ data)
    (hin : EndsInside behind data) (fuel : Nat) : headThere behind fuel { data } = false := by
  cases fuel with
  | zero => rfl
  | succ fuel =>
      unfold headThere
      rw [hinFindLine_open hlf]
      by_cases hb : behind = LF
      · rw [if_pos hb]
        dsimp only
        have hdrop : dropCR data = data := by
          unfold dropCR
          rw [if_neg]
          rcases hin with hin | hin
          · exact absurd hb hin
          · exact hin
        rw [hdrop, if_neg hne]
        split
        · rfl
        · exact headThere_beyond rfl fuel
      · rw [if_neg hb]

/-- **A head of which something is missing is waited for**, unless the byte behind ends it. By induction on the lines:
    the view ends inside the first one, or the rest of it is a part of the other ones. -/
theorem headThere_missing {behind : UInt8} {lines : List Bytes} (h : ProperLines lines) {data : Bytes} (hne : data ≠ [])
    (hpre : data <+: text lines) (hlt : data.length < (text lines).length) (hin : EndsInside behind data) (fuel : Nat) :
    headThere behind fuel { data } = false := by
  induction lines generalizing data fuel with
  | nil =>
      rcases @prefix_line [] data [] List.not_mem_nil hpre with ⟨hlf, -⟩ | ⟨more, rfl, hmore⟩
      · exact headThere_open hne hlf hin fuel
      · rw [List.prefix_nil.mp hmore] at hlt
        exact absurd hlt (by decide)
  | cons line lines ih =>
      obtain ⟨hline, -, hlf⟩ := h line List.mem_cons_self
      rw [text_cons] at hpre hlt
      rcases prefix_line hlf hpre with ⟨hnone, -⟩ | ⟨more, rfl, hmore⟩
      · exact headThere_open hne hnone hin fuel
      · cases fuel with
        | zero => rfl
        | succ fuel =>
            unfold headThere
            rw [hinFindLine_line behind hlf]
            dsimp only
            rw [if_neg hline]
            by_cases hnil : more = []
            · rw [hnil]
              rfl
            · split
              · rfl
              · have hlast : (line ++ CR :: LF :: more).getLast? = more.getLast? := by
                  have hsuf : more <:+ line ++ CR :: LF :: more := ⟨line ++ [CR, LF], by simp⟩
                  exact (getLast?_suffix hsuf hnil).symm
                have hin' : EndsInside behind more := by
                  unfold EndsInside at hin ⊢
                  rwa [hlast] at hin
                have hlt' : more.length < (text lines).length := by
                  simp only [List.length_append, List.length_cons] at hlt
                  omega
                exact ih (fun l hl => h l (List.mem_cons_of_mem _ hl)) hnil hmore hlt' hin' fuel

/-- **The lines of a head are read in order.** -/
theorem headLines_whole (behind : UInt8) {lines : List Bytes} (h : ProperLines lines) {note : Framing → Bytes → Framing}
    (hnote : ∀ line ∈ lines, ∀ f, httpParseHeadersLine f line = some (note f line)) (tail : Bytes) (f : Framing)
    (acc : List Bytes) (fuel : Nat) (hfuel : lines.length < fuel) :
    headLines behind fuel { data := text lines ++ tail } f acc =
      some ({ data := tail }, lines.foldl note f, acc ++ lines) := by
  induction lines generalizing f acc fuel with
  | nil =>
      obtain ⟨fuel, rfl⟩ : ∃ n, fuel = n + 1 := ⟨fuel - 1, by simp at hfuel; omega⟩
      have hfind : hinFindLine behind { data := UpstreamResponse.text [] ++ tail } = some ([], { data := tail }) :=
        hinFindLine_line behind List.not_mem_nil tail
      unfold headLines
      rw [hfind]
      dsimp only
      rw [if_pos rfl, List.foldl_nil, List.append_nil]
  | cons line lines ih =>
      obtain ⟨fuel, rfl⟩ : ∃ n, fuel = n + 1 := ⟨fuel - 1, by simp at hfuel; omega⟩
      obtain ⟨hne, -, hlf⟩ := h line List.mem_cons_self
      have hfind : hinFindLine behind { data := text (line :: lines) ++ tail } =
          some (line, { data := text lines ++ tail }) := by
        rw [text_cons, List.append_assoc]
        exact hinFindLine_line behind hlf _
      unfold headLines
      rw [hfind]
      dsimp only
      rw [if_neg hne, hnote line List.mem_cons_self]
      dsimp only
      rw [ih (fun l hl => h l (List.mem_cons_of_mem _ hl)) (fun l hl => hnote l (List.mem_cons_of_mem _ hl)) _ _ fuel
        (by simp at hfuel; omega), List.foldl_cons, List.append_assoc]
      rfl

/-! ## The status line -/

/-- A single digit is a number. -/
theorem matchPattern_oneDigit {d : UInt8} (hd : isdigit d = true) (rest : Bytes) :
    matchPattern (d :: 32 :: rest) [37, 100] runOne = some 1 := by
  have hi : getPattern [37, 100] 0 = [⟨PATTERN_DIGIT, 0⟩] := by decide
  have h94 : (([37, 100] : Bytes).head? == some 94) = false := by decide
  have hspace : matchChar 32 PATTERN_DIGIT 0 = false := by decide
  have hdigit : matchChar d PATTERN_DIGIT 0 = true := (matchChar_digit d 0).trans hd
  unfold matchPattern
  rw [h94]
  simp [hi, matchLoop, itemLoop, hdigit, hspace, runOne]

/-- **The status line.** What is captured is the status. -/
theorem statusLine_match {r : UpstreamResponse} (hr : r.WellFormed) (hp : r.Plain) :
    (matchString r.statusLine (bytes "HTTP/1.%d ([%d]+) %w+")).took.isSome ∧
      (matchString r.statusLine (bytes "HTTP/1.%d ([%d]+) %w+")).capture r.statusLine 0 = r.status := by
  have hf : bytes "HTTP/1.%d ([%d]+) %w+" =
      bytes "HTTP/1." ++ [37, 100, 32, 40, 91, 37, 100, 93, 43, 41, 32, 37, 119, 43] := by decide
  have hline : r.statusLine = bytes "HTTP/1." ++ (49 :: 32 :: (r.status ++ 32 :: r.reason)) := by
    unfold UpstreamResponse.statusLine
    have hsplit : bytes "HTTP/1.1 " = bytes "HTTP/1." ++ [49, 32] := by decide
    rw [hsplit, List.append_assoc, List.append_assoc, List.append_assoc]
    rfl
  have hpre : literalPrefix false (bytes "HTTP/1.") r.statusLine = true := by
    rw [literalPrefix_false_iff, hline]
    exact List.prefix_append _ _
  have hlen : (bytes "HTTP/1.").length = 7 := by decide
  have hdrop : r.statusLine.drop 7 = 49 :: 32 :: (r.status ++ 32 :: r.reason) := by
    rw [hline, ← hlen, List.drop_left]
  have hne : r.status ≠ [] := by
    intro hnil
    have := hr.three
    rw [hnil] at this
    exact absurd this (by decide)
  have hstatus : matchPattern (r.status ++ 32 :: r.reason) [37, 100] ⟨true, false⟩ = some r.status.length := by
    refine matchPattern_class (m := PATTERN_DIGIT) (by decide) false r.status _ ?_ ?_ (fun he => absurd he hne)
    · exact fun c hc => (matchChar_digit c 0).trans (hr.digits c hc)
    · intro c hc
      obtain rfl : 32 = c := by simpa using hc
      decide
  obtain ⟨word, hword, hreason⟩ : ∃ n, 0 < n ∧ matchPattern r.reason [37, 119] ⟨true, false⟩ = some n := by
    obtain ⟨c, hc, halnum⟩ := hp.reason
    obtain ⟨cs, hcs⟩ : ∃ cs, r.reason = c :: cs := by
      cases hreason : r.reason with
      | nil => rw [hreason] at hc; exact absurd hc (by simp)
      | cons d ds =>
          rw [hreason] at hc
          obtain rfl : d = c := by simpa using hc
          exact ⟨ds, rfl⟩
    have hsplit : r.reason = r.reason.takeWhile isalnum ++ r.reason.dropWhile isalnum := List.takeWhile_append_dropWhile.symm
    have hrun : r.reason.takeWhile isalnum ≠ [] := by
      rw [hcs, List.takeWhile_cons_of_pos halnum]
      simp
    refine ⟨(r.reason.takeWhile isalnum).length, List.length_pos_of_ne_nil hrun, ?_⟩
    have h := matchPattern_class (m := PATTERN_ALPHANUM) (k := 119) (by decide) false (r.reason.takeWhile isalnum)
      (r.reason.dropWhile isalnum) ?_ ?_ (fun he => absurd he hrun)
    · rwa [← hsplit] at h
    · intro d hd
      rw [matchChar_alnum]
      exact List.mem_takeWhile_imp hd
    · intro d hd
      rw [matchChar_alnum]
      have hnot := List.head?_dropWhile_not isalnum r.reason
      cases hdw : (r.reason.dropWhile isalnum).head? with
      | none => rw [hdw] at hd; exact absurd hd (by simp)
      | some e =>
          rw [hdw] at hd hnot
          obtain rfl : e = d := by simpa using hd
          simpa using hnot
  have hs1 : takeSpecifier [32, 40, 91, 37, 100, 93, 43, 41, 32, 37, 119, 43] =
      (runOne, [32, 40, 91, 37, 100, 93, 43, 41, 32, 37, 119, 43]) := by decide
  have hset : scanSet 91 [37, 100, 93, 43, 41, 32, 37, 119, 43] = some ([37, 100], [43, 41, 32, 37, 119, 43]) := by
    decide
  have hs2 : takeSpecifier [43, 41, 32, 37, 119, 43] = (⟨true, false⟩, [41, 32, 37, 119, 43]) := by decide
  have hs3 : takeSpecifier [43] = (⟨true, false⟩, []) := by decide
  have hblank : ∀ (fuel : Nat) (fmt data : Bytes) (ptr : Nat) (start : Option Nat) (caps : List (Nat × Nat)),
      formatLoop false (fuel + 1) (32 :: fmt) (32 :: data) ptr start caps =
        formatLoop false fuel fmt data (ptr + 1) start caps := by
    intro fuel fmt data ptr start caps
    have h := @formatLoop_literal false fuel [32] (by decide) fmt (32 :: data) ptr start caps
    rw [List.length_singleton, Nat.add_comm] at h
    rw [← List.singleton_append, h]
    rfl
  have hmatch : matchString r.statusLine (bytes "HTTP/1.%d ([%d]+) %w+") =
      ⟨some (9 + r.status.length + 1 + word), [(9, r.status.length)]⟩ := by
    unfold matchString
    rw [hf, matchStringVirtual_literal false (by decide) (by decide), hpre, if_pos rfl, hlen, hdrop]
    show formatLoop false 15 (37 :: 100 :: [32, 40, 91, 37, 100, 93, 43, 41, 32, 37, 119, 43]) _ 7 none [] = _
    rw [formatLoop_class, hs1]
    simp only [matchPattern_oneDigit (by decide : isdigit 49 = true)]
    rw [List.drop_one, List.tail_cons, hblank, formatLoop_open, formatLoop_set (h := hset), hs2]
    simp only [hstatus]
    rw [List.drop_left, formatLoop_close, hblank, formatLoop_class, hs3]
    simp only [hreason]
    rw [formatLoop_end]
    simp
  obtain ⟨w, rfl⟩ : ∃ w, word = w + 1 := ⟨word - 1, by omega⟩
  rw [hmatch]
  constructor
  · rfl
  · show (r.statusLine.drop 9).take r.status.length = r.status
    rw [← List.drop_drop (i := 2) (j := 7), hdrop]
    show (r.status ++ 32 :: r.reason).take r.status.length = r.status
    rw [List.take_left]

/-! ## The head -/

theorem decNat_lt (acc : Nat) (ds : Bytes) (h : ∀ c ∈ ds, isdigit c = true) :
    decNat acc ds < (acc + 1) * 10 ^ ds.length := by
  induction ds generalizing acc with
  | nil =>
      rw [List.length_nil, pow_zero, Nat.mul_one]
      exact Nat.lt_succ_self acc
  | cons d ds ih =>
      have hd := h d List.mem_cons_self
      simp only [isdigit, Bool.and_eq_true, decide_eq_true_eq, UInt8.le_iff_toNat_le] at hd
      have h57 : (57 : UInt8).toNat = 57 := rfl
      have hlt := ih (acc * 10 + (d.toNat - 48)) fun c hc => h c (List.mem_cons_of_mem _ hc)
      unfold decNat
      refine hlt.trans_le ?_
      rw [List.length_cons, pow_succ', ← Nat.mul_assoc]
      exact Nat.mul_le_mul_right _ (by omega)

namespace UpstreamResponse

variable {r : UpstreamResponse}

/-- The status is read as it is written. -/
theorem WellFormed.atoi_status (hr : r.WellFormed) : atoi r.status = decNat 0 r.status := by
  have hlt := decNat_lt 0 r.status hr.digits
  rw [hr.three] at hlt
  refine atoi_digits ?_ hr.digits (by omega)
  intro hnil
  have := hr.three
  rw [hnil] at this
  exact absurd this (by decide)

/-- The status line and the header lines are lines. -/
theorem WellFormed.properLines (hr : r.WellFormed) : ProperLines (r.statusLine :: r.lines) := by
  intro line hline
  rcases List.mem_cons.mp hline with rfl | hline
  · have hstatus : ∀ c ∈ r.status, c ≠ CR ∧ c ≠ LF := by
      intro c hc
      have hd := hr.digits c hc
      constructor
      · rintro rfl
        exact absurd hd (by decide)
      · rintro rfl
        exact absurd hd (by decide)
    have hcr : CR ∉ bytes "HTTP/1.1 " := by decide
    have hlf : LF ∉ bytes "HTTP/1.1 " := by decide
    unfold statusLine
    refine ⟨by simp, ?_, ?_⟩
    · simp only [List.mem_append, List.mem_singleton, not_or]
      exact ⟨⟨⟨hcr, fun hc => (hstatus _ hc).1 rfl⟩, by decide⟩, hr.reason.1⟩
    · simp only [List.mem_append, List.mem_singleton, not_or]
      exact ⟨⟨⟨hlf, fun hc => (hstatus _ hc).2 rfl⟩, by decide⟩, hr.reason.2⟩
  · exact hr.lines line hline

/-- **A whole head is read as it stands**, whatever lies behind it. -/
theorem httpClientHeaders_whole (hr : r.WellFormed) (hp : r.Plain) (behind : UInt8) (tail : Bytes) :
    httpClientHeaders behind (r.head ++ tail) = .head (r.upstreamHead tail) := by
  have hlines := hr.properLines
  have hlength := lines_length_le (r.statusLine :: r.lines)
  have hthere : headThere behind ((r.head ++ tail).length + 1) { data := r.head ++ tail } = true := by
    refine headThere_whole behind hlines tail _ ?_
    unfold head
    rw [List.length_append]
    omega
  have hfind : hinFindLine behind { data := r.head ++ tail } = some (r.statusLine, { data := text r.lines ++ tail }) := by
    unfold head
    rw [text_cons, List.append_assoc]
    exact hinFindLine_line behind (hlines r.statusLine List.mem_cons_self).2.2 _
  obtain ⟨htook, hcapture⟩ := statusLine_match hr hp
  obtain ⟨used, hused⟩ := Option.isSome_iff_exists.mp htook
  have hread : headLines behind ((r.head ++ tail).length + 1) { data := text r.lines ++ tail } {} [] =
      some ({ data := tail }, r.noted, r.lines) := by
    have hfuel : r.lines.length < (r.head ++ tail).length + 1 := by
      unfold head
      rw [List.length_append]
      rw [List.length_cons] at hlength
      omega
    have h := headLines_whole behind hr.lines (fun line hline f => httpParseHeadersLine_spec hr hp hline f) tail {} []
      _ hfuel
    rwa [note_lines hr, List.nil_append] at h
  unfold httpClientHeaders
  rw [if_pos hthere, hfind]
  dsimp only
  rw [hused, hread, hcapture, hr.atoi_status]
  rfl

/-- **A part of a head is waited behind**, unless the byte behind it ends it. -/
theorem httpClientHeaders_missing (hr : r.WellFormed) {behind : UInt8} {data : Bytes} (hne : data ≠ [])
    (hpre : data <+: r.head) (hlt : data.length < r.head.length) (hin : EndsInside behind data) :
    httpClientHeaders behind data = .wait := by
  unfold httpClientHeaders
  rw [headThere_missing hr.properLines hne hpre hlt hin, if_neg Bool.false_ne_true]

end UpstreamResponse

end Http
end Hin9
