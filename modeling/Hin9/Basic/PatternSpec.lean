import Hin9.Basic.Pattern

/-!
# `Basic.PatternSpec` — what the matcher does on the formats the server uses

One lemma for each shape of format, so that no caller unfolds the matcher:

* a run of literal bytes (`formatLoop_literal`, `matchString_literal`): the view has to start with it;
* the path segment format `([^/%z]+)` (`matchSegment_stops`): a segment that holds no `/` and no NUL ends where
  the view ends or where one of the two follows.
-/

namespace Hin9
namespace Pattern

/-! ## One round of the format loop -/

section

variable (nocase : Bool) (fuel : Nat) (fmt data : Bytes) (ptr : Nat) (start : Option Nat) (caps : List (Nat × Nat))

theorem formatLoop_end :
    formatLoop nocase (fuel + 1) [] data ptr start caps = ⟨if start.isSome then none else some ptr, caps⟩ := rfl

theorem formatLoop_open : formatLoop nocase (fuel + 1) (40 :: fmt) data ptr start caps =
    formatLoop nocase fuel fmt data ptr (some ptr) caps := rfl

theorem formatLoop_close (s : Nat) : formatLoop nocase (fuel + 1) (41 :: fmt) data ptr (some s) caps =
    formatLoop nocase fuel fmt data ptr none (caps ++ [(s, ptr - s)]) := rfl

theorem formatLoop_class (k : UInt8) : formatLoop nocase (fuel + 1) (37 :: k :: fmt) data ptr start caps =
    match matchPattern data [37, k] (takeSpecifier fmt).1 with
    | some used => formatLoop nocase fuel (takeSpecifier fmt).2 (data.drop used) (ptr + used) start caps
    | none => ⟨none, caps⟩ := by
  cases hm : matchPattern data [37, k] (takeSpecifier fmt).1 <;>
    simp only [formatLoop, if_true, List.head?_cons, Option.getD_some, List.tail_cons, hm]

theorem formatLoop_set {set rest : Bytes} (h : scanSet 91 fmt = some (set, rest)) :
    formatLoop nocase (fuel + 1) (91 :: fmt) data ptr start caps =
      match matchPattern data set (takeSpecifier rest).1 with
      | some used => formatLoop nocase fuel (takeSpecifier rest).2 (data.drop used) (ptr + used) start caps
      | none => ⟨none, caps⟩ := by
  cases hm : matchPattern data set (takeSpecifier rest).1 <;>
    simp only [formatLoop, show ¬ (91 : UInt8) = 37 by decide, if_false, if_true, h, hm]

end

/-! ## Literals -/

/-- A format byte without a meaning of its own. -/
def literalByte (f : UInt8) : Bool := f != 37 && f != 91 && f != 40 && f != 41

/-- The view starts with the literal, under the given case rule. -/
def literalPrefix (nocase : Bool) : Bytes → Bytes → Bool
  | [], _ => true
  | _ :: _, [] => false
  | f :: fs, c :: cs => (if nocase then toupper f == toupper c else f == c) && literalPrefix nocase fs cs

/-- **Literals consume themselves.** By induction on the literal: every byte takes one round. -/
theorem formatLoop_literal (nocase : Bool) (fuel : Nat) {lit : Bytes} (hlit : lit.all literalByte = true)
    (fmt data : Bytes) (ptr : Nat) (start : Option Nat) (caps : List (Nat × Nat)) :
    formatLoop nocase (lit.length + fuel) (lit ++ fmt) data ptr start caps =
      if literalPrefix nocase lit data then
        formatLoop nocase fuel fmt (data.drop lit.length) (ptr + lit.length) start caps
      else ⟨none, caps⟩ := by
  induction lit generalizing data ptr with
  | nil => simp [literalPrefix]
  | cons f fs ih =>
      obtain ⟨hf, hfs⟩ : literalByte f = true ∧ fs.all literalByte = true := by simpa using hlit
      have ih := ih hfs
      simp only [literalByte, Bool.and_eq_true, bne_iff_ne, ne_eq] at hf
      rw [List.length_cons, Nat.add_right_comm, List.cons_append]
      simp only [formatLoop, hf.1.1.1, hf.1.1.2, hf.1.2, hf.2, if_false]
      cases data with
      | nil => simp [literalPrefix]
      | cons c cs =>
          simp only [literalPrefix, Bool.and_eq_true, List.drop_succ_cons]
          by_cases hc : (if nocase then toupper f == toupper c else f == c) = true
          · rw [if_pos hc, ih]
            simp [hc, Nat.add_comm, Nat.add_left_comm]
          · rw [if_neg hc]
            simp [hc]

theorem literalPrefix_false_iff (lit data : Bytes) : literalPrefix false lit data = true ↔ lit <+: data := by
  induction lit generalizing data with
  | nil => simp [literalPrefix]
  | cons f fs ih =>
      cases data with
      | nil => simp [literalPrefix]
      | cons c cs => simp [literalPrefix, ih, List.cons_prefix_cons]

theorem literalPrefix_append (nocase : Bool) (lit more data : Bytes) :
    literalPrefix nocase (lit ++ more) data =
      (literalPrefix nocase lit data && literalPrefix nocase more (data.drop lit.length)) := by
  induction lit generalizing data with
  | nil => simp [literalPrefix]
  | cons f fs ih =>
      cases data with
      | nil => simp [literalPrefix]
      | cons c cs => simp only [List.cons_append, literalPrefix, ih, List.length_cons, List.drop_succ_cons, Bool.and_assoc]

/-- A format that starts with a literal. -/
theorem matchStringVirtual_literal (nocase : Bool) {lit : Bytes} (hne : lit ≠ []) (hlit : lit.all literalByte = true)
    (fmt data : Bytes) :
    matchStringVirtual nocase data (lit ++ fmt) =
      if literalPrefix nocase lit data then
        formatLoop nocase (fmt.length + 1) fmt (data.drop lit.length) lit.length none []
      else ⟨none, []⟩ := by
  unfold matchStringVirtual
  cases data with
  | nil =>
      cases lit with
      | nil => exact absurd rfl hne
      | cons f fs => simp [literalPrefix]
  | cons c cs =>
      have h := formatLoop_literal nocase (fmt.length + 1) hlit fmt (c :: cs) 0 none []
      rw [Nat.zero_add] at h
      rw [← h, List.length_append, Nat.add_assoc]
      rfl

/-- `match_string` with a literal: the whole literal or nothing. -/
theorem matchString_literal {lit : Bytes} (hne : lit ≠ []) (hlit : lit.all literalByte = true)
    (data : Bytes) :
    (matchString data lit).used = if lit <+: data then some lit.length else none := by
  unfold matchString matchStringVirtual
  cases data with
  | nil => simp [hne]
  | cons c cs =>
      have h := formatLoop_literal false 1 hlit [] (c :: cs) 0 none []
      rw [List.append_nil] at h
      simp only [List.isEmpty_cons, Bool.false_eq_true, if_false, h, literalPrefix_false_iff]
      split <;> simp [formatLoop]

/-- The literal `/` that separates path segments. -/
theorem matchString_slash (data : Bytes) :
    (matchString data (bytes "/")).took = if data.head? = some 47 then some 1 else none := by
  have h : (matchString data (bytes "/")).used = if data.head? = some 47 then some 1 else none := by
    rw [matchString_literal (by decide) (by decide)]
    cases data with
    | nil => simp [bytes]
    | cons c cs =>
        by_cases hc : c = 47
        · subst hc; simp [bytes]
        · simp [bytes, hc, Ne.symm hc]
  rw [Result.took, h]
  split
  · rename_i hn
    split at hn <;> simp_all
  · rename_i hn
    split at hn <;> simp_all

/-! ## Path segments -/

/-- A byte the format `[^/%z]` stops in front of. -/
def endsSegment (c : UInt8) : Bool := c == 47 || c == 0

/-- The format of a path segment, and the set inside its brackets. -/
def segmentFormat : Bytes := bytes "([^/%z]+)"

def segmentItems : List Item := [⟨PATTERN_CUSTOM, 47⟩, ⟨PATTERN_NULL_CHAR, 47⟩]

theorem matchChar_custom (c ch : UInt8) : matchChar c PATTERN_CUSTOM ch = (c == ch) := by
  have h0 : hasMask PATTERN_CUSTOM PATTERN_CUSTOM = true := by decide
  have h : ([PATTERN_SPACE, PATTERN_ALPHANUM, PATTERN_LETTER, PATTERN_DIGIT, PATTERN_CONTROL, PATTERN_PUNCTUATION, PATTERN_LOWER, PATTERN_UPPER, PATTERN_HEXA,
      PATTERN_NULL_CHAR, PATTERN_NEGATIVE, PATTERN_ALL].all fun bit => !hasMask PATTERN_CUSTOM bit) = true := by
    decide
  simp only [List.all_cons, List.all_nil, Bool.and_true, Bool.and_eq_true, Bool.not_eq_true'] at h
  simp [matchChar, h0, h]

theorem matchChar_nul (c ch : UInt8) : matchChar c PATTERN_NULL_CHAR ch = (c == 0) := by
  have h0 : hasMask PATTERN_NULL_CHAR PATTERN_NULL_CHAR = true := by decide
  have h : ([PATTERN_CUSTOM, PATTERN_SPACE, PATTERN_ALPHANUM, PATTERN_LETTER, PATTERN_DIGIT, PATTERN_CONTROL, PATTERN_PUNCTUATION, PATTERN_LOWER, PATTERN_UPPER,
      PATTERN_HEXA, PATTERN_NEGATIVE, PATTERN_ALL].all fun bit => !hasMask PATTERN_NULL_CHAR bit) = true := by
    decide
  simp only [List.all_cons, List.all_nil, Bool.and_true, Bool.and_eq_true, Bool.not_eq_true'] at h
  simp [matchChar, h0, h]

theorem matchChar_hexa (c ch : UInt8) : matchChar c PATTERN_HEXA ch = isxdigit c := by
  have h0 : hasMask PATTERN_HEXA PATTERN_HEXA = true := by decide
  have h : ([PATTERN_CUSTOM, PATTERN_SPACE, PATTERN_ALPHANUM, PATTERN_LETTER, PATTERN_DIGIT, PATTERN_CONTROL, PATTERN_PUNCTUATION, PATTERN_LOWER, PATTERN_UPPER,
      PATTERN_NULL_CHAR, PATTERN_NEGATIVE, PATTERN_ALL].all fun bit => !hasMask PATTERN_HEXA bit) = true := by
    decide
  simp only [List.all_cons, List.all_nil, Bool.and_true, Bool.and_eq_true, Bool.not_eq_true'] at h
  simp [matchChar, h0, h]

/-- One pass over the set matches exactly at a byte that ends a segment. -/
theorem itemLoop_segment (c : UInt8) (cs : Bytes) :
    (itemLoop true segmentItems (c :: cs)).2 = endsSegment c := by
  by_cases h : c = 47
  · subst h
    simp [segmentItems, itemLoop, matchChar_custom, endsSegment]
  · by_cases h0 : c = 0
    · subst h0
      simp [segmentItems, itemLoop, matchChar_custom, matchChar_nul, endsSegment]
    · simp [segmentItems, itemLoop, matchChar_custom, matchChar_nul, endsSegment, h, h0]

/-- How many bytes the set takes. -/
def segmentLength (data : Bytes) : Nat := matchLoop true true segmentItems (data.length + 1) data

/-- By induction on the view: as long as no byte ends the segment the loop steps over it. A loop that took a
    byte which ends the segment took it as the first byte of a run of them. -/
theorem matchLoop_segment_stops (fuel : Nat) (data : Bytes)
    (hplain : ∀ c ∈ data.take (matchLoop true true segmentItems fuel data), endsSegment c = false)
    (hfuel : data.length < fuel) :
    ∀ c ∈ (data.drop (matchLoop true true segmentItems fuel data)).head?, endsSegment c = true := by
  induction data generalizing fuel with
  | nil => simp
  | cons c cs ih =>
      obtain ⟨fuel, rfl⟩ : ∃ k, fuel = k + 1 := ⟨fuel - 1, by simp at hfuel; omega⟩
      simp only [matchLoop, if_true, itemLoop_segment] at hplain ⊢
      by_cases hc : endsSegment c = true
      · simp only [hc, if_true] at hplain ⊢
        cases hn : (itemLoop true segmentItems (c :: cs)).1 - 1 with
        | zero => simpa using hc
        | succ k =>
            rw [hn] at hplain
            exact absurd hc (by simpa using hplain c (by simp))
      · simp only [hc, if_false, Nat.add_comm 1, Bool.false_eq_true] at hplain ⊢
        rw [List.drop_succ_cons]
        refine ih fuel (fun d hd => hplain d ?_) (by simpa using hfuel)
        rw [List.take_succ_cons]
        exact List.mem_cons_of_mem _ hd

/-- The whole format: a capture of everything the set took, which is at least one byte. -/
theorem matchString_segment (data : Bytes) :
    matchString data segmentFormat =
      if segmentLength data = 0 then ⟨none, []⟩ else ⟨some (segmentLength data), [(0, segmentLength data)]⟩ := by
  cases data with
  | nil => decide
  | cons c cs =>
      have hp : matchPattern (c :: cs) (bytes "^/%z") ⟨true, false⟩ =
          if segmentLength (c :: cs) = 0 then none else some (segmentLength (c :: cs)) := by
        have hi : getPattern (bytes "/%z") 0 = segmentItems := by decide
        have hh : (bytes "^/%z").head? = some 94 := by decide
        have ht : (bytes "^/%z").tail = bytes "/%z" := by decide
        simp only [matchPattern, hh, ht, hi, segmentLength, beq_self_eq_true, if_true, Bool.not_false,
          Bool.and_true, decide_eq_true_eq]
        congr
      have h1 : scanSet 91 (bytes "^/%z]+)") = some (bytes "^/%z", bytes "+)") := by decide
      have h2 : takeSpecifier (bytes "+)") = (⟨true, false⟩, bytes ")") := by decide
      have hf : segmentFormat = 40 :: 91 :: bytes "^/%z]+)" := by decide
      have hl : segmentFormat.length + 1 = 10 := by decide
      have hb : bytes ")" = [41] := by decide
      unfold matchString matchStringVirtual
      rw [hl, hf]
      simp only [List.isEmpty_cons, Bool.false_eq_true, if_false]
      rw [formatLoop_open, formatLoop_set _ _ _ _ _ _ _ h1, h2]
      simp only [hp]
      by_cases h0 : segmentLength (c :: cs) = 0
      · simp only [if_pos h0]
      · simp only [if_neg h0, hb]
        rw [formatLoop_close, formatLoop_end]
        simp

theorem matchString_segment_took (data : Bytes) :
    (matchString data segmentFormat).took = if segmentLength data = 0 then none else some (segmentLength data) := by
  rw [matchString_segment]
  cases h : segmentLength data with
  | zero => rfl
  | succ n => simp [Result.took]

theorem matchString_segment_capture {data : Bytes} (h : segmentLength data ≠ 0) :
    (matchString data segmentFormat).capture data 0 = data.take (segmentLength data) := by
  rw [matchString_segment, if_neg h]
  simp [Result.capture]

/-- **A plain segment ends where it has to.** When the captured segment holds neither `/` nor NUL, what follows
    it is the end of the view, a `/` or a NUL. -/
theorem segment_stops {data : Bytes} (hplain : ∀ c ∈ data.take (segmentLength data), endsSegment c = false) :
    ∀ c ∈ (data.drop (segmentLength data)).head?, endsSegment c = true :=
  matchLoop_segment_stops _ data hplain (Nat.lt_succ_self _)

/-! ## Runs of one class -/

/-- What stops a run is not of its class. -/
theorem head_dropWhile (p : UInt8 → Bool) (data : Bytes) : ∀ c ∈ (data.dropWhile p).head?, p c = false := by
  intro c hc
  cases hd : data.dropWhile p with
  | nil => simp [hd] at hc
  | cons d ds =>
      have := List.head_dropWhile_not p (l := data) (by simp [hd])
      simp only [hd, List.head_cons] at this
      obtain rfl : d = c := by simpa [hd] using hc
      exact this

/-- Any bytes are a run of one class and what stops it. -/
theorem exists_run (p : UInt8 → Bool) (data : Bytes) : ∃ run rest, data = run ++ rest ∧ (∀ c ∈ run, p c = true) ∧
    ∀ c ∈ rest.head?, p c = false :=
  ⟨data.takeWhile p, data.dropWhile p, List.takeWhile_append_dropWhile.symm, fun _ hc => List.mem_takeWhile_imp hc,
    head_dropWhile p data⟩

/-- A `+` or `*` run of one item takes the longest run it matches. -/
theorem matchLoop_single (it : Item) (data : Bytes) :
    matchLoop false true [it] (data.length + 1) data = runMatch it data := by
  cases data with
  | nil => simp [matchLoop, itemLoop, runMatch]
  | cons c cs =>
      by_cases hc : matchChar c it.mask it.ch = true
      · have hrest : itemLoop true [it] (cs.drop (runMatch it cs)) = (0, false) := by
          have hdrop : cs.drop (runMatch it cs) = cs.dropWhile fun d => matchChar d it.mask it.ch := by
            have h : ((cs.takeWhile fun d => matchChar d it.mask it.ch) ++
                cs.dropWhile fun d => matchChar d it.mask it.ch).drop (runMatch it cs)
                  = cs.dropWhile fun d => matchChar d it.mask it.ch := List.drop_left' rfl
            rwa [List.takeWhile_append_dropWhile] at h
          rw [hdrop]
          cases hd : cs.dropWhile fun d => matchChar d it.mask it.ch with
          | nil => rfl
          | cons d ds =>
              have := List.head_dropWhile_not (fun d => matchChar d it.mask it.ch) (l := cs) (by simp [hd])
              simp only [hd, List.head_cons] at this
              simp [itemLoop, this]
        have hrun : runMatch it (c :: cs) = 1 + runMatch it cs := by
          simp [runMatch, hc, Nat.add_comm]
        have hpass : itemLoop true [it] (c :: cs) = (1 + runMatch it cs, true) := by
          simp [itemLoop, hc]
        have hdrop : (c :: cs).drop (1 + runMatch it cs) = cs.drop (runMatch it cs) := by
          rw [Nat.add_comm, List.drop_succ_cons]
        simp only [matchLoop, List.length_cons, Bool.false_eq_true, if_false, hpass, if_true, hrun, hdrop, hrest,
          Nat.add_zero]
      · simp [matchLoop, itemLoop, runMatch, hc]

theorem runMatch_eq {it : Item} {run rest : Bytes} (hrun : ∀ c ∈ run, matchChar c it.mask it.ch = true)
    (hrest : ∀ c ∈ rest.head?, matchChar c it.mask it.ch = false) : runMatch it (run ++ rest) = run.length := by
  rw [runMatch, List.takeWhile_append_of_pos hrun]
  cases rest with
  | nil => simp
  | cons c cs => simp [hrest c (by simp)]

/-- A class with a `+` or a `*` takes its longest run; a `+` fails where that is empty. -/
theorem matchPattern_class {k : UInt8} {m : UInt32} (hm : getPattern [37, k] 0 = [⟨m, 0⟩]) (runZero : Bool)
    (run rest : Bytes) (hrun : ∀ c ∈ run, matchChar c m 0 = true) (hrest : ∀ c ∈ rest.head?, matchChar c m 0 = false)
    (hempty : run = [] → runZero = true) :
    matchPattern (run ++ rest) [37, k] ⟨true, runZero⟩ = some run.length := by
  have hlen : runMatch ⟨m, 0⟩ (run ++ rest) = run.length := runMatch_eq hrun hrest
  have h94 : (([37, k] : Bytes).head? == some 94) = false := by
    rw [List.head?_cons]
    decide
  simp only [matchPattern, h94, Bool.false_eq_true, if_false, hm, matchLoop_single, hlen]
  cases run with
  | nil => simp [hempty rfl]
  | cons c cs => simp

/-- Where no byte is in the class, a `+` fails. -/
theorem matchPattern_class_none {k : UInt8} {m : UInt32} (hm : getPattern [37, k] 0 = [⟨m, 0⟩]) {data : Bytes}
    (h : ∀ c ∈ data.head?, matchChar c m 0 = false) : matchPattern data [37, k] ⟨true, false⟩ = none := by
  have hlen : runMatch ⟨m, 0⟩ ([] ++ data) = 0 := runMatch_eq (fun _ hc => absurd hc List.not_mem_nil) h
  have h94 : (([37, k] : Bytes).head? == some 94) = false := by
    rw [List.head?_cons]
    decide
  simp only [matchPattern, h94, Bool.false_eq_true, if_false, hm, matchLoop_single]
  rw [List.nil_append] at hlen
  rw [hlen]
  rfl

/-- A class with a `*` takes the bytes of the class, if there are any. -/
theorem matchPattern_star {k : UInt8} {m : UInt32} (hm : getPattern [37, k] 0 = [⟨m, 0⟩]) {p : UInt8 → Bool}
    (hp : ∀ c, matchChar c m 0 = p c) (data : Bytes) :
    matchPattern data [37, k] ⟨true, true⟩ = some (data.takeWhile p).length := by
  have h := matchPattern_class hm true (data.takeWhile p) (data.dropWhile p)
    (fun c hc => (hp c).trans (List.mem_takeWhile_imp hc)) (fun c hc => (hp c).trans (head_dropWhile p data c hc)) (fun _ => rfl)
  rwa [List.takeWhile_append_dropWhile] at h

/-- A class with a `+` fails where there is none. -/
theorem matchPattern_plus {k : UInt8} {m : UInt32} (hm : getPattern [37, k] 0 = [⟨m, 0⟩]) {p : UInt8 → Bool}
    (hp : ∀ c, matchChar c m 0 = p c) (data : Bytes) : matchPattern data [37, k] ⟨true, false⟩ =
      if data.takeWhile p = [] then none else some (data.takeWhile p).length := by
  by_cases hnone : data.takeWhile p = []
  · rw [if_pos hnone]
    refine matchPattern_class_none hm fun c hc => (hp c).trans ?_
    have hall : data.dropWhile p = data := by
      conv_rhs => rw [← @List.takeWhile_append_dropWhile _ p data, hnone, List.nil_append]
    rw [← hall] at hc
    exact head_dropWhile p data c hc
  · rw [if_neg hnone]
    have h := matchPattern_class hm false (data.takeWhile p) (data.dropWhile p)
      (fun c hc => (hp c).trans (List.mem_takeWhile_imp hc)) (fun c hc => (hp c).trans (head_dropWhile p data c hc))
      (fun he => absurd he hnone)
    rwa [List.takeWhile_append_dropWhile] at h

theorem matchChar_digit (c ch : UInt8) : matchChar c PATTERN_DIGIT ch = isdigit c := by
  have h0 : hasMask PATTERN_DIGIT PATTERN_DIGIT = true := by decide
  have h : ([PATTERN_CUSTOM, PATTERN_SPACE, PATTERN_ALPHANUM, PATTERN_LETTER, PATTERN_CONTROL, PATTERN_PUNCTUATION,
      PATTERN_LOWER, PATTERN_UPPER, PATTERN_HEXA, PATTERN_NULL_CHAR, PATTERN_NEGATIVE, PATTERN_ALL].all
        fun bit => !hasMask PATTERN_DIGIT bit) = true := by
    decide
  simp only [List.all_cons, List.all_nil, Bool.and_true, Bool.and_eq_true, Bool.not_eq_true'] at h
  simp [matchChar, h0, h]

theorem matchChar_space (c ch : UInt8) : matchChar c PATTERN_SPACE ch = isspace c := by
  have h0 : hasMask PATTERN_SPACE PATTERN_SPACE = true := by decide
  have h : ([PATTERN_CUSTOM, PATTERN_DIGIT, PATTERN_ALPHANUM, PATTERN_LETTER, PATTERN_CONTROL, PATTERN_PUNCTUATION,
      PATTERN_LOWER, PATTERN_UPPER, PATTERN_HEXA, PATTERN_NULL_CHAR, PATTERN_NEGATIVE, PATTERN_ALL].all
        fun bit => !hasMask PATTERN_SPACE bit) = true := by
    decide
  simp only [List.all_cons, List.all_nil, Bool.and_true, Bool.and_eq_true, Bool.not_eq_true'] at h
  simp [matchChar, h0, h]

theorem matchChar_alnum (c ch : UInt8) : matchChar c PATTERN_ALPHANUM ch = isalnum c := by
  have h0 : hasMask PATTERN_ALPHANUM PATTERN_ALPHANUM = true := by decide
  have h : ([PATTERN_CUSTOM, PATTERN_DIGIT, PATTERN_SPACE, PATTERN_LETTER, PATTERN_CONTROL, PATTERN_PUNCTUATION,
      PATTERN_LOWER, PATTERN_UPPER, PATTERN_HEXA, PATTERN_NULL_CHAR, PATTERN_NEGATIVE, PATTERN_ALL].all
        fun bit => !hasMask PATTERN_ALPHANUM bit) = true := by
    decide
  simp only [List.all_cons, List.all_nil, Bool.and_true, Bool.and_eq_true, Bool.not_eq_true'] at h
  simp [matchChar, h0, h]

theorem Result.took_pos {r : Result} {n : Nat} (h : r.took = some n) : 0 < n := by
  rw [Result.took] at h
  split at h
  · obtain rfl := Option.some.inj h
    exact Nat.succ_pos _
  · exact absurd h (by simp)

/-- The format of a chunk size line. -/
def sizeLineFormat : Bytes := bytes "(%x+)\r\n"

/-- **A size line is matched as a whole**, whatever follows it. -/
theorem matchString_sizeLine {hs : Bytes} (hne : hs ≠ []) (hhex : ∀ c ∈ hs, isxdigit c = true) (rest : Bytes) :
    matchString (hs ++ CR :: LF :: rest) sizeLineFormat = ⟨some (hs.length + 2), [(0, hs.length)]⟩ := by
  have hp : matchPattern (hs ++ CR :: LF :: rest) [37, 120] ⟨true, false⟩ = some hs.length := by
    have hi : getPattern [37, 120] 0 = [⟨PATTERN_HEXA, 0⟩] := by decide
    have hrun : runMatch ⟨PATTERN_HEXA, 0⟩ (hs ++ CR :: LF :: rest) = hs.length :=
      runMatch_eq (fun c hc => (matchChar_hexa c 0).trans (hhex c hc))
        (fun c hc => by
          obtain rfl : CR = c := by simpa using hc
          exact (matchChar_hexa CR 0).trans not_isxdigit_CR)
    have hpos : hs.length ≠ 0 := by simpa using hne
    have h94 : (([37, 120] : Bytes).head? == some 94) = false := by decide
    simp only [matchPattern, h94, Bool.false_eq_true, if_false, hi, matchLoop_single, hrun]
    simp [hpos]
  have hf : sizeLineFormat = [40, 37, 120, 43, 41, CR, LF] := by decide
  have h2 : takeSpecifier [43, 41, CR, LF] = (⟨true, false⟩, [41, CR, LF]) := by decide
  unfold matchString matchStringVirtual
  rw [if_neg (by simp [hne]), hf]
  show formatLoop false 8 [40, 37, 120, 43, 41, CR, LF] _ 0 none [] = _
  rw [formatLoop_open, formatLoop_class, h2]
  simp only [hp]
  rw [List.drop_left, formatLoop_close]
  simp [formatLoop, CR, LF]

/-- **Nothing else is matched**: bytes that do not start with digits and a CRLF are not a size line. -/
theorem matchString_not_sizeLine {hs rest : Bytes} (hhex : ∀ c ∈ hs, isxdigit c = true)
    (hstop : ∀ c ∈ rest.head?, isxdigit c = false) (h : hs = [] ∨ ¬ [CR, LF] <+: rest) :
    (matchString (hs ++ rest) sizeLineFormat).used = none := by
  have hf : sizeLineFormat = [40, 37, 120, 43, 41, CR, LF] := by decide
  have h2 : takeSpecifier [43, 41, CR, LF] = (⟨true, false⟩, [41, CR, LF]) := by decide
  have hi : getPattern [37, 120] 0 = [⟨PATTERN_HEXA, 0⟩] := by decide
  have hrun : ∀ c ∈ hs, matchChar c PATTERN_HEXA 0 = true := fun c hc => (matchChar_hexa c 0).trans (hhex c hc)
  have hrest : ∀ c ∈ rest.head?, matchChar c PATTERN_HEXA 0 = false := fun c hc =>
    (matchChar_hexa c 0).trans (hstop c hc)
  unfold matchString matchStringVirtual
  by_cases hempty : (hs ++ rest).isEmpty = true
  · rw [if_pos hempty, hf]
    rfl
  rw [if_neg hempty, hf]
  show (formatLoop false 8 [40, 37, 120, 43, 41, CR, LF] _ 0 none []).used = _
  rw [formatLoop_open, formatLoop_class, h2]
  by_cases hne : hs = []
  · subst hne
    have hp : matchPattern ([] ++ rest) [37, 120] ⟨true, false⟩ = none := matchPattern_class_none hi hrest
    rw [hp]
  · have hp : matchPattern (hs ++ rest) [37, 120] ⟨true, false⟩ = some hs.length :=
      matchPattern_class hi false hs rest hrun hrest fun he => absurd he hne
    have hno := h.resolve_left hne
    simp only [hp, List.drop_left]
    rw [formatLoop_close]
    have hlit := @formatLoop_literal false 3 [CR, LF] (by decide) [] rest (0 + hs.length) none
      ([] ++ [(0, 0 + hs.length - 0)])
    have hpre : ¬ literalPrefix false [CR, LF] rest = true := fun hp => hno ((literalPrefix_false_iff _ _).mp hp)
    rw [if_neg hpre] at hlit
    exact congrArg Result.used hlit

end Pattern
end Hin9
