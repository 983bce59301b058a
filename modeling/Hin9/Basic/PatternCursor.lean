import Hin9.Basic.PatternRef

/-!
# `Basic.PatternCursor` — the matcher, pointer by pointer (`basic_pattern.c`)

`Basic.Pattern` computes with the bytes that are left of a view and of a format. The source moves pointers over both, and
reads through them. Here the pointers are there: `readView` and `readFormat` are the only ways to a byte, they fail outside
the view and behind the terminator of the format, and a loop fails when it goes on for longer than its fuel. `none` is
therefore a read out of bounds, or a loop that does not end.

The lemmas follow the functions from the inside out. Each says that the pointers compute what the lists do, which is to
say that they stay inside. `match_string_safe` collects what that means for a caller.
-/

namespace Hin9
namespace Pattern
namespace Cursor

/-- A C string: the bytes in front of its terminator. -/
structure Format where
  bytes : Bytes
  noNul : 0 ∉ bytes

/-- Read in pairs of a `%` and the byte behind it, the text leaves a `%` alone at its end. -/
def endsInLonePercent : Bytes → Bool
  | [] => false
  | [c] => c == 37
  | c :: k :: rest => if c = 37 then endsInLonePercent rest else endsInLonePercent (k :: rest)

/-! ## Reading -/

def readView (view : Bytes) (ptr : Nat) : Option UInt8 := view[ptr]?

/-- The terminator can be read, and nothing behind it. -/
def readFormat (fmt : Bytes) (ptr : Nat) : Option UInt8 := (fmt ++ [0])[ptr]?

/-- The value of a number stored in an `int`. -/
def cInt (n : Int) : Int := Int.bmod n (2 ^ 32)

/-! ## `match_pattern` -/

/-- `get_pattern`: the item, and the bytes of the format it takes. -/
def getPatternAt (fmt : Bytes) (ptr : Nat) (ch : UInt8) : Option (Item × Nat) := do
  let c ← readFormat fmt ptr
  if c ≠ 37 then some (⟨PATTERN_CUSTOM, c⟩, 1)
  else
    let k ← readFormat fmt (ptr + 1)
    match classMask k with
    | some m => some (⟨m, ch⟩, 2)
    | none => some (⟨PATTERN_CUSTOM, k⟩, 2)

/-- `while (str < max_str && match_char (…)) str++`. -/
def runAt (view : Bytes) (maxStr : Nat) (it : Item) : Nat → Nat → Option Nat
  | 0, _ => none
  | fuel + 1, str =>
      if str < maxStr then do
        let c ← readView view str
        if matchChar c it.mask it.ch then runAt view maxStr it fuel (str + 1) else some str
      else some str

/-- Where a pass over the items ends: `str`, `character` and `match_anything`. -/
structure Pass where
  str : Nat
  ch : UInt8
  hit : Bool
deriving Repr, DecidableEq

/-- The inner loop of `match_pattern`. -/
def passAt (view fmt : Bytes) (maxStr maxFmt : Nat) (runAll : Bool) : Nat → Nat → Pass → Option Pass
  | 0, _, _ => none
  | fuel + 1, ptr, s =>
      if ptr < maxFmt then do
        let (it, n) ← getPatternAt fmt ptr s.ch
        if s.str < maxStr then
          let c ← readView view s.str
          if matchChar c it.mask it.ch then
            let str ← if runAll then runAt view maxStr it (view.length + 1) (s.str + 1) else some (s.str + 1)
            passAt view fmt maxStr maxFmt runAll fuel (ptr + n) ⟨str, it.ch, true⟩
          else passAt view fmt maxStr maxFmt runAll fuel (ptr + n) ⟨s.str, it.ch, s.hit⟩
        else passAt view fmt maxStr maxFmt runAll fuel (ptr + n) ⟨s.str, it.ch, s.hit⟩
      else some s

/-- The outer loop: where `str` is at its end. A negated set steps back from the byte that ended it. -/
def roundsAt (view fmt : Bytes) (maxStr start maxFmt : Nat) (negative runAll : Bool) : Nat → Nat → UInt8 → Option Int
  | 0, _, _ => none
  | fuel + 1, str, ch => do
      let r ← passAt view fmt maxStr maxFmt runAll (maxFmt - start + 1) start ⟨str, ch, false⟩
      if negative then
        if r.hit then some (r.str - 1 : Int)
        else if maxStr ≤ r.str then some r.str
        else roundsAt view fmt maxStr start maxFmt negative runAll fuel (r.str + 1) r.ch
      else if r.hit then roundsAt view fmt maxStr start maxFmt negative runAll fuel r.str r.ch
      else some r.str

/-- `match_pattern` on the view from `data` on, with the pattern of `len` bytes at `ptr`. -/
def matchPatternAt (view fmt : Bytes) (data ptr len : Nat) (spec : Specifier) : Option Int := do
  let c ← readFormat fmt ptr
  let negative := c == 94
  let start := if negative then ptr + 1 else ptr
  let str ← roundsAt view fmt view.length start (ptr + len) negative spec.runAll (view.length - data + 1) data 0
  let count := str - data
  if count = 0 && !spec.runZero then some (-1) else some (cInt count)

/-! ## `match_string_virtual` -/

/-- The loop that looks for the `]`: where it is, or `none` in front of the terminator. -/
def scanAt (fmt : Bytes) : Nat → Nat → Option (Option Nat)
  | 0, _ => none
  | fuel + 1, ptr => do
      let c ← readFormat fmt ptr
      if c = 0 then some none
      else if c = 93 then
        let prev ← readFormat fmt (ptr - 1)
        if prev ≠ 37 then some (some ptr) else scanAt fmt fuel (ptr + 1)
      else scanAt fmt fuel (ptr + 1)

/-- What is returned, the view that is left, and the captures that were written. -/
structure Outcome where
  ret : Int
  ptr : Nat
  len : Nat
  captures : List (Nat × Nat)
deriving Repr, DecidableEq

/-- A failure leaves the view as it was. -/
def failed (view : Bytes) (caps : List (Nat × Nat)) : Outcome := ⟨-1, 0, view.length, caps⟩

/-- `finalize`. -/
def finalize (view : Bytes) (ptr : Nat) (start : Option Nat) (caps : List (Nat × Nat)) : Outcome :=
  if start.isSome then failed view caps
  else
    let used := cInt ptr
    if used < 0 then failed view caps else ⟨used, used.toNat, view.length - used.toNat, caps⟩

/-- The main loop, at `fmt` in the format and at `ptr` in the view. -/
def formatAt (nocase : Bool) (view format : Bytes) :
    Nat → Nat → Nat → Option Nat → List (Nat × Nat) → Option Outcome
  | 0, _, _, _, _ => none
  | fuel + 1, fmt, ptr, start, caps => do
      let c ← readFormat format fmt
      if c = 37 then            -- '%'
        let spec := getSpecifier (← readFormat format (fmt + 2))
        let used ← matchPatternAt view format ptr fmt 2 spec
        if 0 ≤ used then
          formatAt nocase view format fuel (if spec = runOne then fmt + 2 else fmt + 3) (ptr + used.toNat) start caps
        else some (failed view caps)
      else if c = 91 then       -- '['
        match ← scanAt format (format.length + 1) (fmt + 1) with
        | none => some (failed view caps)
        | some close =>
            let spec := getSpecifier (← readFormat format (close + 1))
            let used ← matchPatternAt view format ptr (fmt + 1) (close - (fmt + 1)) spec
            if 0 ≤ used then
              formatAt nocase view format fuel (if spec = runOne then close + 1 else close + 2) (ptr + used.toNat) start caps
            else some (failed view caps)
      else if c = 40 then       -- '('
        formatAt nocase view format fuel (fmt + 1) ptr (some ptr) caps
      else if c = 41 then       -- ')'
        match start with
        | some s => formatAt nocase view format fuel (fmt + 1) ptr none (caps ++ [(s, ptr - s)])
        | none => some (failed view caps)
      else if c = 0 then some (finalize view ptr start caps)
      else if view.length ≤ ptr then some (failed view caps)
      else
        let b ← readView view ptr
        if (if nocase then toupper c == toupper b else c == b) then
          formatAt nocase view format fuel (fmt + 1) (ptr + 1) start caps
        else some (failed view caps)

/-- `match_string_virtual` on a view. -/
def matchStringVirtualAt (nocase : Bool) (view : Bytes) (format : Format) : Option Outcome :=
  if view.length = 0 then do
    let c ← readFormat format.bytes 0
    if c = 0 then some ⟨0, 0, 0, []⟩ else some (failed view [])
  else formatAt nocase view format.bytes (format.bytes.length + 1) 0 0 none []

/-- `match_string`. -/
def matchStringAt (view : Bytes) (format : Format) : Option Outcome := matchStringVirtualAt false view format

/-! ## The `%` at the end -/

theorem lone_cons {c : UInt8} (hc : c ≠ 37) (text : Bytes) : endsInLonePercent (c :: text) = endsInLonePercent text := by
  cases text with
  | nil => exact beq_eq_false_iff_ne.mpr hc
  | cons k rest =>
      rw [endsInLonePercent]
      exact if_neg hc

theorem lone_pair (k : UInt8) (text : Bytes) : endsInLonePercent (37 :: k :: text) = endsInLonePercent text := by
  rw [endsInLonePercent]
  exact if_pos rfl

/-- A text that leaves no `%` alone is a whole number of pairs and bytes. -/
theorem lone_append {body : Bytes} (h : endsInLonePercent body = false) (rest : Bytes) :
    endsInLonePercent (body ++ rest) = endsInLonePercent rest := by
  induction hn : body.length using Nat.strong_induction_on generalizing body with
  | _ n ih =>
  cases body with
  | nil => rfl
  | cons c body =>
      rw [List.length_cons] at hn
      by_cases hc : c = 37
      · subst hc
        cases body with
        | nil => exact absurd h (by decide)
        | cons k body =>
            rw [lone_pair] at h
            rw [List.length_cons] at hn
            rw [List.cons_append, List.cons_append, lone_pair]
            exact ih body.length (by omega) h rfl
      · rw [lone_cons hc] at h
        rw [List.cons_append, lone_cons hc]
        exact ih body.length (by omega) h rfl

/-- Only a `%` can be left alone. -/
theorem lone_last {text : Bytes} (h : endsInLonePercent text = true) : text.getLast? = some 37 := by
  induction hn : text.length using Nat.strong_induction_on generalizing text with
  | _ n ih =>
  cases text with
  | nil => exact absurd h (by decide)
  | cons c text =>
      rw [List.length_cons] at hn
      by_cases hc : c = 37
      · subst hc
        cases text with
        | nil => rfl
        | cons k text =>
            rw [lone_pair] at h
            rw [List.length_cons] at hn
            have hlast := ih text.length (by omega) h rfl
            rw [List.getLast?_cons_cons, List.getLast?_cons, hlast]
            rfl
      · rw [lone_cons hc] at h
        have hlast := ih text.length (by omega) h rfl
        rw [List.getLast?_cons, hlast]
        rfl

/-! ## Where the pointers are -/

section

variable {fmt : Bytes} {ptr : Nat}

theorem readFormat_cons {c : UInt8} {rest : Bytes} (h : fmt.drop ptr = c :: rest) :
    readFormat fmt ptr = some c ∧ fmt.drop (ptr + 1) = rest ∧ ptr < fmt.length := by
  have hlt : ptr < fmt.length := by
    by_contra hge
    rw [List.drop_eq_nil_of_le (Nat.not_lt.mp hge)] at h
    exact absurd h.symm (List.cons_ne_nil c rest)
  have hget : fmt[ptr]? = some c := by
    have h0 : (fmt.drop ptr)[0]? = some c := by
      rw [h]
      rfl
    rwa [List.getElem?_drop, Nat.add_zero] at h0
  refine ⟨?_, ?_, hlt⟩
  · unfold readFormat
    rw [List.getElem?_append_left hlt, hget]
  · rw [← List.drop_drop, h]
    rfl

theorem readFormat_end (h : ptr = fmt.length) : readFormat fmt ptr = some 0 := by
  unfold readFormat
  rw [h, List.getElem?_concat_length]

theorem drop_end (hle : ptr ≤ fmt.length) (h : fmt.drop ptr = []) : ptr = fmt.length :=
  Nat.le_antisymm hle (List.drop_eq_nil_iff.mp h)

theorem readView_cons {view : Bytes} {str : Nat} {c : UInt8} {rest : Bytes} (h : view.drop str = c :: rest) :
    readView view str = some c ∧ view.drop (str + 1) = rest ∧ str < view.length := by
  have hlt : str < view.length := by
    by_contra hge
    rw [List.drop_eq_nil_of_le (Nat.not_lt.mp hge)] at h
    exact absurd h.symm (List.cons_ne_nil c rest)
  refine ⟨?_, ?_, hlt⟩
  · have h0 : (view.drop str)[0]? = some c := by
      rw [h]
      rfl
    rwa [List.getElem?_drop, Nat.add_zero] at h0
  · rw [← List.drop_drop, h]
    rfl

end

/-! ## One pass -/

theorem runAt_eq {view : Bytes} {it : Item} {str : Nat} (hle : str ≤ view.length) {fuel : Nat}
    (hfuel : view.length - str < fuel) :
    runAt view view.length it fuel str = some (str + runMatch it (view.drop str)) := by
  induction fuel generalizing str with
  | zero => exact absurd hfuel (Nat.not_lt_zero _)
  | succ fuel ih =>
      unfold runAt runMatch
      cases hv : view.drop str with
      | nil =>
          have hend : str = view.length := drop_end hle hv
          rw [if_neg (by omega)]
          rfl
      | cons c cs =>
          obtain ⟨hread, hdrop, hlt⟩ := readView_cons hv
          rw [if_pos hlt, hread]
          show (if matchChar c it.mask it.ch then runAt view view.length it fuel (str + 1) else some str) = _
          by_cases hc : matchChar c it.mask it.ch = true
          · have htake : (c :: cs).takeWhile (fun c => matchChar c it.mask it.ch) =
                c :: cs.takeWhile fun c => matchChar c it.mask it.ch := List.takeWhile_cons_of_pos hc
            rw [if_pos hc, ih hlt (by omega), htake, hdrop, List.length_cons]
            unfold runMatch
            rw [Option.some.injEq]
            omega
          · have htake : (c :: cs).takeWhile (fun c => matchChar c it.mask it.ch) = [] := List.takeWhile_cons_of_neg hc
            rw [if_neg hc, htake]
            rfl

/-- One item of a pass, once it has been read. -/
theorem passAt_item {view fmt : Bytes} {maxFmt : Nat} {runAll : Bool} {fuel ptr n : Nat} {s : Pass} {it : Item}
    (hptr : ptr < maxFmt) (hget : getPatternAt fmt ptr s.ch = some (it, n)) (hle : s.str ≤ view.length) :
    passAt view fmt view.length maxFmt runAll (fuel + 1) ptr s =
      match view.drop s.str with
      | [] => passAt view fmt view.length maxFmt runAll fuel (ptr + n) ⟨s.str, it.ch, s.hit⟩
      | c :: cs =>
          if matchChar c it.mask it.ch then
            passAt view fmt view.length maxFmt runAll fuel (ptr + n)
              ⟨s.str + 1 + (if runAll then runMatch it cs else 0), it.ch, true⟩
          else passAt view fmt view.length maxFmt runAll fuel (ptr + n) ⟨s.str, it.ch, s.hit⟩ := by
  rw [passAt, if_pos hptr, hget]
  dsimp only [Option.bind_eq_bind, Option.bind_some]
  cases hv : view.drop s.str with
  | nil =>
      rw [if_neg (by rw [drop_end hle hv]; exact Nat.lt_irrefl _)]
  | cons c cs =>
      obtain ⟨hread, hdrop, hlt⟩ := readView_cons hv
      rw [if_pos hlt, hread]
      dsimp only [Option.bind_some]
      by_cases hc : matchChar c it.mask it.ch = true
      · rw [if_pos hc, if_pos hc]
        cases runAll with
        | false => rfl
        | true =>
            rw [if_pos rfl, if_pos rfl, runAt_eq hlt (by omega), hdrop]
            rfl
      · rw [if_neg hc, if_neg hc]

/-- The bytes a pass takes, in what follows the first item. -/
theorem itemLoop_length_le (runAll : Bool) (items : List Item) (str : Bytes) : (itemLoop runAll items str).1 ≤ str.length := by
  induction items generalizing str with
  | nil => exact Nat.zero_le _
  | cons it its ih =>
      cases str with
      | nil =>
          unfold itemLoop
          exact ih []
      | cons c cs =>
          unfold itemLoop
          dsimp only
          by_cases hc : matchChar c it.mask it.ch = true
          · rw [if_pos hc]
            have hmore : (if runAll then runMatch it cs else 0) ≤ cs.length := by
              cases runAll with
              | false => exact Nat.zero_le _
              | true => exact (List.takeWhile_sublist _).length_le
            have hrest := ih (cs.drop (if runAll then runMatch it cs else 0))
            rw [List.length_drop] at hrest
            rw [List.length_cons]
            dsimp only
            omega
          · rw [if_neg hc]
            exact ih (c :: cs)

/-- **A pass over the items of a set** computes what the list of items does. -/
theorem passAt_eq {view fmt : Bytes} {runAll : Bool} {body : Bytes} {ch : UInt8} {ptr maxFmt : Nat} {tail : Bytes}
    (hbody : fmt.drop ptr = body ++ tail) (hmax : maxFmt = ptr + body.length) (hpaired : endsInLonePercent body = false)
    {str : Nat} (hle : str ≤ view.length) (hit : Bool) {fuel : Nat} (hfuel : body.length < fuel) :
    ∃ ch', passAt view fmt view.length maxFmt runAll fuel ptr ⟨str, ch, hit⟩ =
      some ⟨str + (itemLoop runAll (getPattern body ch) (view.drop str)).1, ch',
        hit || (itemLoop runAll (getPattern body ch) (view.drop str)).2⟩ := by
  induction hn : body.length using Nat.strong_induction_on generalizing body ch ptr str hit fuel with
  | _ n ih =>
  obtain ⟨fuel, rfl⟩ : ∃ k, fuel = k + 1 := ⟨fuel - 1, by omega⟩
  -- what is left once the first item, `used` bytes of the body, has been read
  have hstep : ∀ (it : Item) (used : Nat) (rest : Bytes), body = body.take used ++ rest → 0 < used → used ≤ body.length →
      endsInLonePercent rest = false → getPatternAt fmt ptr ch = some (it, used) →
      getPattern body ch = it :: getPattern rest it.ch →
      ∃ ch', passAt view fmt view.length maxFmt runAll (fuel + 1) ptr ⟨str, ch, hit⟩ =
        some ⟨str + (itemLoop runAll (getPattern body ch) (view.drop str)).1, ch',
          hit || (itemLoop runAll (getPattern body ch) (view.drop str)).2⟩ := by
    intro it used rest hsplit hpos hused hpaired' hget hitems
    have hlen : body.length = used + rest.length := by
      have h := congrArg List.length hsplit
      rw [List.length_append, List.length_take, Nat.min_eq_left hused] at h
      exact h
    have hdrop : fmt.drop (ptr + used) = rest ++ tail := by
      rw [← List.drop_drop, hbody, hsplit, List.append_assoc, List.drop_append_of_le_length (by simp; omega),
        List.drop_of_length_le (by simp)]
      rfl
    have hnext : ∀ (str : Nat) (hit : Bool), str ≤ view.length →
        ∃ ch', passAt view fmt view.length maxFmt runAll fuel (ptr + used) ⟨str, it.ch, hit⟩ =
          some ⟨str + (itemLoop runAll (getPattern rest it.ch) (view.drop str)).1, ch',
            hit || (itemLoop runAll (getPattern rest it.ch) (view.drop str)).2⟩ := fun str hit hle =>
      ih rest.length (by omega) hdrop (by omega) hpaired' hle hit (by omega) rfl
    rw [passAt_item (by omega) hget hle, hitems]
    dsimp only
    cases hv : view.drop str with
    | nil =>
        obtain ⟨ch', heq⟩ := hnext str hit hle
        rw [hv] at heq
        exact ⟨ch', heq⟩
    | cons c cs =>
        obtain ⟨-, hcs, hlt⟩ := readView_cons hv
        unfold itemLoop
        dsimp only
        by_cases hc : matchChar c it.mask it.ch = true
        · rw [if_pos hc, if_pos hc]
          have hmore : (if runAll then runMatch it cs else 0) ≤ cs.length := by
            cases runAll with
            | false => exact Nat.zero_le _
            | true => exact (List.takeWhile_sublist _).length_le
          have hcslen : cs.length = view.length - (str + 1) := by rw [← hcs, List.length_drop]
          obtain ⟨ch', heq⟩ := hnext (str + 1 + (if runAll then runMatch it cs else 0)) true (by omega)
          rw [← List.drop_drop, hcs] at heq
          refine ⟨ch', heq.trans ?_⟩
          rw [Bool.true_or, Bool.or_true, Option.some.injEq, Pass.mk.injEq]
          exact ⟨by omega, rfl, rfl⟩
        · rw [if_neg hc, if_neg hc]
          obtain ⟨ch', heq⟩ := hnext str hit hle
          rw [hv] at heq
          exact ⟨ch', heq⟩
  cases body with
  | nil =>
      refine ⟨ch, ?_⟩
      rw [passAt, if_neg (by rw [hmax]; simp)]
      unfold getPattern
      cases view.drop str with
      | nil => simp [itemLoop]
      | cons c cs => simp [itemLoop]
  | cons c rest =>
      cases rest with
      | nil =>
          have hc : c ≠ 37 := by simpa [endsInLonePercent] using hpaired
          obtain ⟨hread, -, -⟩ := readFormat_cons hbody
          apply hstep ⟨PATTERN_CUSTOM, c⟩ 1 []
          · rfl
          · exact Nat.one_pos
          · exact Nat.le_refl 1
          · rfl
          · unfold getPatternAt
            rw [hread]
            exact if_pos hc
          · unfold getPattern
            rw [if_neg hc]
      | cons k rest =>
          obtain ⟨hread, hdrop, -⟩ := readFormat_cons hbody
          obtain ⟨hread', -, -⟩ := readFormat_cons hdrop
          unfold endsInLonePercent at hpaired
          by_cases hc : c = 37
          · rw [if_pos hc] at hpaired
            cases hk : classMask k with
            | some m =>
                apply hstep ⟨m, ch⟩ 2 rest
                · rfl
                · exact Nat.two_pos
                · simp
                · exact hpaired
                · unfold getPatternAt
                  rw [hread]
                  dsimp only [Option.bind_eq_bind, Option.bind_some]
                  rw [if_neg (by simpa using hc), hread']
                  dsimp only [Option.bind_some]
                  rw [hk]
                · rw [getPattern, if_pos hc, hk]
            | none =>
                apply hstep ⟨PATTERN_CUSTOM, k⟩ 2 rest
                · rfl
                · exact Nat.two_pos
                · simp
                · exact hpaired
                · unfold getPatternAt
                  rw [hread]
                  dsimp only [Option.bind_eq_bind, Option.bind_some]
                  rw [if_neg (by simpa using hc), hread']
                  dsimp only [Option.bind_some]
                  rw [hk]
                · rw [getPattern, if_pos hc, hk]
          · rw [if_neg hc] at hpaired
            apply hstep ⟨PATTERN_CUSTOM, c⟩ 1 (k :: rest)
            · rfl
            · exact Nat.one_pos
            · simp
            · exact hpaired
            · unfold getPatternAt
              rw [hread]
              exact if_pos hc
            · rw [getPattern, if_neg hc]

/-! ## One item -/

/-- Items that match the same bytes. -/
def Alike (its its' : List Item) : Prop :=
  List.Forall₂ (fun it it' => ∀ c, matchChar c it.mask it.ch = matchChar c it'.mask it'.ch) its its'

/-- `character` is left over from the pass before where a class does not set it, and no class looks at it. -/
theorem getPattern_alike (body : Bytes) (ch ch' : UInt8) : Alike (getPattern body ch) (getPattern body ch') := by
  induction body, ch using getPattern.induct generalizing ch' with
  | case1 => exact .nil
  | case2 ch =>
      unfold getPattern
      exact .cons (fun _ => rfl) .nil
  | case3 c ch hc =>
      unfold getPattern
      rw [if_neg hc]
      exact .cons (fun _ => rfl) .nil
  | case4 k rest ch m hm ih =>
      have hletter (c ch : UInt8) : matchChar c m ch = (Elem.letter k).takes c := by
        have h := matchChar_letter k c ch
        rw [hm] at h
        exact h
      unfold getPattern
      rw [if_pos rfl, hm]
      exact .cons (fun c => (hletter c ch).trans (hletter c ch').symm) (ih ch')
  | case5 k rest ch hm ih =>
      unfold getPattern
      rw [if_pos rfl, hm]
      exact .cons (fun _ => rfl) (ih k)
  | case6 c k rest ch hc ih =>
      unfold getPattern
      rw [if_neg hc, if_neg hc]
      exact .cons (fun _ => rfl) (ih c)

theorem itemLoop_alike (runAll : Bool) {its its' : List Item} (h : Alike its its') (str : Bytes) :
    itemLoop runAll its str = itemLoop runAll its' str := by
  induction h generalizing str with
  | nil => rfl
  | @cons it it' its its' hit _ ih =>
      have hrun : ∀ cs, runMatch it cs = runMatch it' cs := by
        intro cs
        unfold runMatch
        rw [funext hit]
      cases str with
      | nil => exact ih []
      | cons c cs =>
          unfold itemLoop
          dsimp only
          rw [hit, hrun, ih, ih]

/-- The bytes the outer loop takes. -/
theorem matchLoop_length_le (negative runAll : Bool) (items : List Item) (fuel : Nat) (str : Bytes) :
    matchLoop negative runAll items fuel str ≤ str.length := by
  induction fuel generalizing str with
  | zero => exact Nat.zero_le _
  | succ fuel ih =>
      have hpass := itemLoop_length_le runAll items str
      unfold matchLoop
      dsimp only
      split
      · split
        · omega
        · cases str with
          | nil => exact Nat.zero_le _
          | cons c cs =>
              have hrest := ih cs
              rw [List.length_cons]
              dsimp only
              omega
      · split
        · have hrest := ih (str.drop (itemLoop runAll items str).1)
          rw [List.length_drop] at hrest
          omega
        · exact Nat.zero_le _

/-- **The outer loop** computes what the rounds on lists do, and ends: every round but the last takes a byte. -/
theorem roundsAt_eq {view fmt : Bytes} {negative runAll : Bool} {body tail : Bytes} {start maxFmt : Nat}
    (hbody : fmt.drop start = body ++ tail) (hmax : maxFmt = start + body.length) (hpaired : endsInLonePercent body = false)
    {str : Nat} (hle : str ≤ view.length) (ch : UInt8) {fuel : Nat} (hfuel : view.length - str < fuel) :
    roundsAt view fmt view.length start maxFmt negative runAll fuel str ch =
      some ((str + matchLoop negative runAll (getPattern body 0) fuel (view.drop str) : Nat) : Int) := by
  induction fuel generalizing str ch with
  | zero => exact absurd hfuel (Nat.not_lt_zero _)
  | succ fuel ih =>
      obtain ⟨ch', hpass⟩ := @passAt_eq view fmt runAll body ch start maxFmt tail hbody hmax hpaired str hle false
        (maxFmt - start + 1) (by omega)
      rw [itemLoop_alike runAll (getPattern_alike body ch 0), Bool.false_or] at hpass
      have hbound := itemLoop_length_le runAll (getPattern body 0) (view.drop str)
      rw [List.length_drop] at hbound
      have hzero := itemLoop_zero runAll (getPattern body 0) (view.drop str)
      rw [roundsAt, hpass]
      dsimp only [Option.bind_eq_bind, Option.bind_some]
      unfold matchLoop
      dsimp only
      cases negative with
      | true =>
          rw [if_pos rfl, if_pos rfl]
          cases hhit : (itemLoop runAll (getPattern body 0) (view.drop str)).2 with
          | true =>
              -- back over the byte that ended the set
              have hpos : (itemLoop runAll (getPattern body 0) (view.drop str)).1 ≠ 0 := by
                intro h0
                rw [hzero.mp h0] at hhit
                exact absurd hhit Bool.false_ne_true
              rw [if_pos rfl, if_pos rfl, Option.some.injEq]
              omega
          | false =>
              have h0 := hzero.mpr hhit
              rw [if_neg Bool.false_ne_true, if_neg Bool.false_ne_true, h0, Nat.add_zero]
              cases hv : view.drop str with
              | nil =>
                  rw [if_pos (Nat.le_of_eq (drop_end hle hv).symm)]
                  rfl
              | cons c cs =>
                  obtain ⟨-, hcs, hlt⟩ := readView_cons hv
                  rw [if_neg (Nat.not_le.mpr hlt), ih hlt ch' (by omega), hcs]
                  dsimp only
                  rw [Option.some.injEq]
                  omega
      | false =>
          rw [if_neg Bool.false_ne_true, if_neg Bool.false_ne_true]
          cases hhit : (itemLoop runAll (getPattern body 0) (view.drop str)).2 with
          | true =>
              have hpos : (itemLoop runAll (getPattern body 0) (view.drop str)).1 ≠ 0 := by
                intro h0
                rw [hzero.mp h0] at hhit
                exact absurd hhit Bool.false_ne_true
              rw [if_pos rfl, if_pos rfl, ih (by omega) ch' (by omega), ← List.drop_drop, Option.some.injEq]
              omega
          | false =>
              rw [if_neg Bool.false_ne_true, if_neg Bool.false_ne_true, hzero.mpr hhit]

theorem cInt_small {n : Nat} (h : n < 2 ^ 31) : cInt n = n := by
  unfold cInt
  exact Int.bmod_eq_of_le (by omega) (by omega)

/-- The bytes an item takes. -/
theorem matchPattern_le {data body : Bytes} {spec : Specifier} {n : Nat} (h : matchPattern data body spec = some n) :
    n ≤ data.length := by
  have hcount : ∀ m, m ≤ data.length → (if m = 0 && !spec.runZero then none else some m) = some n → n ≤ data.length := by
    intro m hm hsome
    split at hsome
    · exact absurd hsome (by simp)
    · exact Option.some.inj hsome ▸ hm
  exact hcount _ (matchLoop_length_le _ _ _ _ _) h

/-- **`match_pattern` stays inside the view and the pattern**, and computes what `matchPattern` does. An empty pattern is
    looked at as well, where the bracket behind it is. -/
theorem matchPatternAt_eq {view fmt body tail : Bytes} {ptr data : Nat} {spec : Specifier}
    (hbody : fmt.drop ptr = body ++ tail) (hpaired : endsInLonePercent body = false)
    (hempty : body = [] → ∃ rest, tail = 93 :: rest) (hle : data ≤ view.length) (hsize : view.length < 2 ^ 31) :
    matchPatternAt view fmt data ptr body.length spec =
      some (match matchPattern (view.drop data) body spec with
        | some n => (n : Int)
        | none => -1) := by
  have hrounds : ∀ (neg : Bool) (items : Bytes) (start : Nat), fmt.drop start = items ++ tail →
      ptr + body.length = start + items.length → endsInLonePercent items = false →
      roundsAt view fmt view.length start (ptr + body.length) neg spec.runAll (view.length - data + 1) data 0 =
        some ((data + matchLoop neg spec.runAll (getPattern items 0) ((view.drop data).length + 1) (view.drop data) : Nat) :
          Int) := by
    intro neg items start hdrop hlen hpair
    rw [List.length_drop]
    exact roundsAt_eq hdrop hlen hpair hle 0 (Nat.lt_succ_self _)
  -- what is left once the loop has ended
  have hcount : ∀ (n : Nat), n ≤ (view.drop data).length →
      (if (((data + n : Nat) : Int) - data = 0) && !spec.runZero then some (-1 : Int)
        else some (cInt (((data + n : Nat) : Int) - data))) =
      some (match (if n = 0 && !spec.runZero then none else some n) with
        | some n => (n : Int)
        | none => -1) := by
    intro n hn
    rw [List.length_drop] at hn
    have hsub : ((data + n : Nat) : Int) - data = n := by omega
    have hsmall : cInt n = n := cInt_small (by omega)
    rw [hsub, hsmall]
    by_cases h0 : n = 0
    · subst h0
      cases spec.runZero with
      | false => rfl
      | true => rfl
    · simp [h0]
  unfold matchPatternAt matchPattern
  cases hb : body with
  | nil =>
      obtain ⟨rest, htail⟩ := hempty hb
      rw [hb, htail] at hbody
      obtain ⟨hread, -, -⟩ := readFormat_cons hbody
      rw [hread]
      dsimp only [Option.bind_eq_bind, Option.bind_some]
      have h := hrounds false [] ptr (by rw [hbody, htail]) (by rw [hb]) rfl
      rw [hb] at h
      rw [show ((93 : UInt8) == 94) = false from rfl, if_neg Bool.false_ne_true, h]
      exact hcount _ (matchLoop_length_le _ _ _ _ _)
  | cons c items =>
      rw [hb] at hbody hpaired
      obtain ⟨hread, hdrop, -⟩ := readFormat_cons hbody
      rw [hread]
      dsimp only [Option.bind_eq_bind, Option.bind_some]
      rw [List.head?_cons]
      by_cases hc : c = 94
      · subst hc
        have hitems : endsInLonePercent items = false := by
          rw [lone_cons (by decide)] at hpaired
          exact hpaired
        have h := hrounds true items (ptr + 1) hdrop (by rw [hb, List.length_cons]; omega) hitems
        rw [hb] at h
        rw [show ((94 : UInt8) == 94) = true from rfl, if_pos rfl, h]
        exact hcount _ (matchLoop_length_le _ _ _ _ _)
      · have h := hrounds false (c :: items) ptr hbody (by rw [hb]) hpaired
        rw [hb] at h
        have hne : (c == 94) = false := beq_eq_false_iff_ne.mpr hc
        have hne' : (some c == some (94 : UInt8)) = false := hne
        rw [hne, hne', if_neg Bool.false_ne_true, h]
        exact hcount _ (matchLoop_length_le _ _ _ _ _)

/-! ## The format -/

/-- The body of a set, and what is behind it; its last byte is no `%`, which would have kept the bracket in it. -/
theorem scanSet_split {prev : UInt8} {text set rest : Bytes} (h : scanSet prev text = some (set, rest)) :
    text = set ++ 93 :: rest ∧ (prev :: set).getLast? ≠ some 37 := by
  induction text generalizing prev set with
  | nil => exact absurd h (by simp [scanSet])
  | cons c cs ih =>
      unfold scanSet at h
      by_cases hclose : (decide (c = 93) && prev != 37) = true
      · rw [if_pos hclose] at h
        obtain ⟨rfl, rfl⟩ := Prod.mk.inj (Option.some.inj h)
        obtain ⟨hc, hprev⟩ := Bool.and_eq_true_iff.mp hclose
        refine ⟨by rw [of_decide_eq_true hc]; rfl, ?_⟩
        rw [List.getLast?_singleton]
        exact fun he => absurd (Option.some.inj he) (bne_iff_ne.mp hprev)
      · rw [if_neg hclose] at h
        obtain ⟨⟨set', rest'⟩, hscan, heq⟩ := Option.map_eq_some_iff.mp h
        obtain ⟨rfl, rfl⟩ := Prod.mk.inj heq
        obtain ⟨hcs, hlast⟩ := ih hscan
        refine ⟨by rw [hcs]; rfl, ?_⟩
        rw [List.getLast?_cons_cons]
        exact hlast

theorem scanSet_paired {text set rest : Bytes} (h : scanSet 91 text = some (set, rest)) : endsInLonePercent set = false := by
  obtain ⟨-, hlast⟩ := scanSet_split h
  by_contra hne
  have hset := lone_last (Bool.not_eq_false _ ▸ hne)
  rw [List.getLast?_cons, hset] at hlast
  exact hlast rfl

/-- **The loop that looks for the `]`** stays inside the format, and finds what `scanSet` does. -/
theorem scanAt_eq {fmt text : Bytes} {ptr : Nat} {prev : UInt8} (hnul : 0 ∉ fmt) (htext : fmt.drop ptr = text)
    (hle : ptr ≤ fmt.length) (hpos : 0 < ptr) (hprev : readFormat fmt (ptr - 1) = some prev) {fuel : Nat}
    (hfuel : text.length < fuel) :
    scanAt fmt fuel ptr = some ((scanSet prev text).map fun r => ptr + r.1.length) := by
  induction text generalizing ptr prev fuel with
  | nil =>
      obtain ⟨fuel, rfl⟩ : ∃ k, fuel = k + 1 := ⟨fuel - 1, by omega⟩
      rw [scanAt, readFormat_end (drop_end hle htext)]
      rfl
  | cons c cs ih =>
      rw [List.length_cons] at hfuel
      obtain ⟨fuel, rfl⟩ : ∃ k, fuel = k + 1 := ⟨fuel - 1, by omega⟩
      obtain ⟨hread, hdrop, hlt⟩ := readFormat_cons htext
      have hc0 : c ≠ 0 := by
        rintro rfl
        exact hnul (List.mem_of_mem_drop (htext ▸ List.mem_cons_self))
      have hnext : scanAt fmt fuel (ptr + 1) = some ((scanSet c cs).map fun r => ptr + 1 + r.1.length) :=
        ih hdrop hlt (Nat.succ_pos ptr) hread (by omega)
      have hmap : (Option.map (fun r => (c :: r.1, r.2)) (scanSet c cs)).map (fun r => ptr + r.1.length) =
          (scanSet c cs).map fun r => ptr + 1 + r.1.length := by
        rw [Option.map_map]
        congr 1
        funext r
        show ptr + (c :: r.1).length = ptr + 1 + r.1.length
        rw [List.length_cons]
        omega
      rw [scanAt, hread]
      dsimp only [Option.bind_eq_bind, Option.bind_some]
      rw [if_neg hc0]
      unfold scanSet
      by_cases hc : c = 93
      · rw [if_pos hc, hprev]
        dsimp only [Option.bind_some]
        by_cases hp : prev = 37
        · rw [if_neg (not_not.mpr hp), if_neg (by simp [hp]), hnext, hmap]
        · rw [if_pos hp, if_pos (by simp [hc, hp])]
          rfl
      · rw [if_neg hc, if_neg (by simp [hc]), hnext, hmap]

/-- The suffix of an item, or the byte behind the item. -/
theorem specifier_at {fmt rest : Bytes} {ptr : Nat} (hrest : fmt.drop ptr = rest) (hle : ptr ≤ fmt.length) :
    ∃ x, readFormat fmt ptr = some x ∧ getSpecifier x = (takeSpecifier rest).1 ∧
      fmt.drop (if getSpecifier x = runOne then ptr else ptr + 1) = (takeSpecifier rest).2 ∧
      (if getSpecifier x = runOne then ptr else ptr + 1) ≤ fmt.length ∧
      endsInLonePercent (takeSpecifier rest).2 = endsInLonePercent rest ∧
      (takeSpecifier rest).2.length ≤ rest.length := by
  cases rest with
  | nil =>
      refine ⟨0, readFormat_end (drop_end hle hrest), rfl, ?_, ?_, rfl, Nat.le_refl _⟩
      · rw [if_pos (by decide)]
        exact hrest
      · rw [if_pos (by decide)]
        exact hle
  | cons x rest =>
      obtain ⟨hread, hdrop, hlt⟩ := readFormat_cons hrest
      unfold takeSpecifier
      dsimp only
      by_cases hx : getSpecifier x = runOne
      · rw [if_pos hx]
        refine ⟨x, hread, hx, ?_, ?_, rfl, Nat.le_refl _⟩
        · rw [if_pos hx]
          exact hrest
        · rw [if_pos hx]
          exact hle
      · have h37 : x ≠ 37 := by
          rintro rfl
          exact hx (by decide)
        rw [if_neg hx]
        refine ⟨x, hread, rfl, ?_, ?_, (lone_cons h37 rest).symm, Nat.le_succ _⟩
        · rw [if_neg hx]
          exact hdrop
        · rw [if_neg hx]
          exact hlt

/-- What a result means for the view. -/
def outcomeOf (view : Bytes) (r : Result) : Outcome :=
  match r.used with
  | some n => ⟨n, n, view.length - n, r.captures⟩
  | none => failed view r.captures

theorem finalize_eq {view : Bytes} {ptr : Nat} (hle : ptr ≤ view.length) (hsize : view.length < 2 ^ 31)
    (start : Option Nat) (caps : List (Nat × Nat)) :
    finalize view ptr start caps = outcomeOf view ⟨if start.isSome then none else some ptr, caps⟩ := by
  have hint : cInt ptr = ptr := cInt_small (by omega)
  unfold finalize outcomeOf
  cases start with
  | some s => rfl
  | none =>
      simp only [Option.isSome_none, Bool.false_eq_true, if_false, hint, Int.toNat_natCast]
      exact if_neg (Int.not_lt.mpr (Int.natCast_nonneg ptr))

theorem formatLoop_unclosed {nocase : Bool} {fuel : Nat} {fmt data : Bytes} {ptr : Nat} {start : Option Nat}
    {caps : List (Nat × Nat)} (h : scanSet 91 fmt = none) :
    formatLoop nocase (fuel + 1) (91 :: fmt) data ptr start caps = ⟨none, caps⟩ := by
  simp only [formatLoop, show ¬ (91 : UInt8) = 37 by decide, if_false, if_true, h]

theorem formatLoop_byte {f : UInt8} (h37 : f ≠ 37) (h91 : f ≠ 91) (h40 : f ≠ 40) (h41 : f ≠ 41) {nocase : Bool}
    {fuel : Nat} {fmt data : Bytes} {ptr : Nat} {start : Option Nat} {caps : List (Nat × Nat)} :
    formatLoop nocase (fuel + 1) (f :: fmt) data ptr start caps =
      match data with
      | [] => ⟨none, caps⟩
      | c :: cs =>
          if (if nocase then toupper f == toupper c else f == c) then
            formatLoop nocase fuel fmt cs (ptr + 1) start caps
          else ⟨none, caps⟩ := by
  cases data <;> simp only [formatLoop, h37, h91, h40, h41, if_false]

/-- **The main loop stays inside the view and the format**, and computes what `formatLoop` does. -/
theorem formatAt_eq {nocase : Bool} {view format rest : Bytes} (hnul : 0 ∉ format) (hsize : view.length < 2 ^ 31)
    {fmt ptr : Nat} (hrest : format.drop fmt = rest) (hfmt : fmt ≤ format.length) (hpercent : endsInLonePercent rest = false)
    (hptr : ptr ≤ view.length) (start : Option Nat) (caps : List (Nat × Nat)) {fuel : Nat} (hfuel : rest.length < fuel) :
    formatAt nocase view format fuel fmt ptr start caps =
      some (outcomeOf view (formatLoop nocase fuel rest (view.drop ptr) ptr start caps)) := by
  induction fuel generalizing rest fmt ptr start caps with
  | zero => exact absurd hfuel (Nat.not_lt_zero _)
  | succ fuel ih =>
      -- an item, once its pattern and its suffix are known
      have hitem : ∀ (body tail after : Bytes) (p q : Nat) (spec : Specifier), format.drop p = body ++ tail →
          endsInLonePercent body = false → (body = [] → ∃ t, tail = 93 :: t) → format.drop q = after → q ≤ format.length →
          endsInLonePercent after = false → after.length < fuel →
          ((do
            let used ← matchPatternAt view format ptr p body.length spec
            if 0 ≤ used then formatAt nocase view format fuel q (ptr + used.toNat) start caps
            else some (failed view caps)) : Option Outcome) =
          some (outcomeOf view (match matchPattern (view.drop ptr) body spec with
            | some used => formatLoop nocase fuel after ((view.drop ptr).drop used) (ptr + used) start caps
            | none => ⟨none, caps⟩)) := by
        intro body tail after p q spec hbody hpaired hempty hafter hq hpercent' hlen
        rw [matchPatternAt_eq hbody hpaired hempty hptr hsize]
        dsimp only [Option.bind_eq_bind, Option.bind_some]
        cases hm : matchPattern (view.drop ptr) body spec with
        | none =>
            dsimp only
            rw [if_neg (by decide)]
            rfl
        | some used =>
            have hused := matchPattern_le hm
            rw [List.length_drop] at hused
            dsimp only
            rw [if_pos (Int.natCast_nonneg used), Int.toNat_natCast, List.drop_drop]
            exact ih hafter hq hpercent' (by omega) start caps hlen
      unfold formatAt
      cases hr : rest with
      | nil =>
          rw [hr] at hrest
          rw [readFormat_end (drop_end hfmt hrest), formatLoop_end]
          dsimp only [Option.bind_eq_bind, Option.bind_some]
          rw [if_neg (by decide), if_neg (by decide), if_neg (by decide), if_neg (by decide), if_pos rfl,
            finalize_eq hptr hsize]
      | cons c more =>
          rw [hr] at hrest hpercent hfuel
          rw [List.length_cons] at hfuel
          obtain ⟨hread, hdrop, hlt⟩ := readFormat_cons hrest
          have hc0 : c ≠ 0 := by
            rintro rfl
            exact hnul (List.mem_of_mem_drop (hrest ▸ List.mem_cons_self))
          rw [hread]
          dsimp only [Option.bind_eq_bind, Option.bind_some]
          by_cases h37 : c = 37
          · -- a class
            subst h37
            cases hm : more with
            | nil =>
                rw [hm] at hpercent
                exact absurd hpercent (by decide)
            | cons k tail =>
                rw [hm] at hrest hdrop hpercent hfuel
                rw [lone_pair] at hpercent
                rw [List.length_cons] at hfuel
                obtain ⟨-, hdrop', hlt'⟩ := readFormat_cons hdrop
                obtain ⟨x, hx, hspec, hafter, hq, hlone, hlen⟩ := specifier_at hdrop' (Nat.succ_le_of_lt hlt')
                have h := hitem [37, k] tail (takeSpecifier tail).2 fmt (if getSpecifier x = runOne then fmt + 2 else fmt + 3)
                  (takeSpecifier tail).1 hrest rfl (fun h0 => absurd h0 (List.cons_ne_nil _ _)) hafter hq
                  (hlone.trans hpercent) (by omega)
                rw [if_pos rfl, hx, formatLoop_class]
                dsimp only [Option.bind_some]
                rw [hspec] at h ⊢
                exact h
          · rw [lone_cons h37] at hpercent
            rw [if_neg h37]
            by_cases h91 : c = 91
            · -- a set
              subst h91
              rw [if_pos rfl, scanAt_eq hnul hdrop hlt (Nat.succ_pos fmt) hread (by
                have hle := congrArg List.length hdrop
                rw [List.length_drop] at hle
                omega)]
              dsimp only [Option.bind_some]
              cases hscan : scanSet 91 more with
              | none =>
                  rw [formatLoop_unclosed hscan]
                  rfl
              | some r =>
                  obtain ⟨set, tail⟩ := r
                  obtain ⟨hsplit, -⟩ := scanSet_split hscan
                  have hpaired := scanSet_paired hscan
                  rw [formatLoop_set _ _ _ _ _ _ _ hscan]
                  dsimp only [Option.map_some]
                  have htail : format.drop (fmt + 1 + set.length + 1) = tail := by
                    rw [← List.drop_drop, ← List.drop_drop, hdrop, hsplit, List.drop_left]
                    rfl
                  have htaille : fmt + 1 + set.length + 1 ≤ format.length := by
                    have hle := congrArg List.length hdrop
                    rw [List.length_drop, hsplit, List.length_append, List.length_cons] at hle
                    omega
                  have hlonetail : endsInLonePercent tail = false := by
                    rw [hsplit, lone_append hpaired, lone_cons (by decide)] at hpercent
                    exact hpercent
                  have hlentail : tail.length < more.length := by
                    rw [hsplit, List.length_append, List.length_cons]
                    omega
                  obtain ⟨x, hx, hspec, hafter, hq, hlone, hlen⟩ := specifier_at htail htaille
                  have h := hitem set (93 :: tail) (takeSpecifier tail).2 (fmt + 1)
                    (if getSpecifier x = runOne then fmt + 1 + set.length + 1 else fmt + 1 + set.length + 2)
                    (takeSpecifier tail).1 (hdrop.trans hsplit) hpaired (fun _ => ⟨tail, rfl⟩) hafter hq
                    (hlone.trans hlonetail) (by omega)
                  rw [hx]
                  dsimp only [Option.bind_some]
                  rw [Nat.add_sub_cancel_left, hspec]
                  rw [hspec] at h
                  exact h
            · rw [if_neg h91]
              by_cases h40 : c = 40
              · subst h40
                rw [if_pos rfl, formatLoop_open]
                exact ih hdrop hlt hpercent hptr (some ptr) caps (by omega)
              · rw [if_neg h40]
                by_cases h41 : c = 41
                · subst h41
                  rw [if_pos rfl]
                  cases start with
                  | none => rfl
                  | some st =>
                      rw [formatLoop_close]
                      exact ih hdrop hlt hpercent hptr none _ (by omega)
                · -- a literal
                  rw [if_neg h41, if_neg hc0, formatLoop_byte h37 h91 h40 h41]
                  cases hv : view.drop ptr with
                  | nil =>
                      rw [if_pos (Nat.le_of_eq (drop_end hptr hv).symm)]
                      rfl
                  | cons b bs =>
                      obtain ⟨hb, hbs, hblt⟩ := readView_cons hv
                      rw [if_neg (Nat.not_le.mpr hblt), hb]
                      dsimp only [Option.bind_some]
                      by_cases heq : (if nocase then toupper c == toupper b else c == b) = true
                      · rw [if_pos heq, if_pos heq, ← hbs]
                        exact ih hdrop hlt hpercent hblt start caps (by omega)
                      · rw [if_neg heq, if_neg heq]
                        rfl

/-! ## What is written -/

/-- A count that is found is inside the view, and so is every capture. -/
def Inside (total : Nat) (r : Result) : Prop :=
  (∀ n, r.used = some n → n ≤ total) ∧ ∀ c ∈ r.captures, c.1 + c.2 ≤ total

theorem inside_failed {total : Nat} {caps : List (Nat × Nat)} (hcaps : ∀ c ∈ caps, c.1 + c.2 ≤ total) :
    Inside total ⟨none, caps⟩ :=
  ⟨fun _ h => absurd h (by exact Option.some_ne_none _ ∘ Eq.symm), hcaps⟩

/-- **The cursor never leaves the view**, a capture that is open begins behind it, and one that is closed ends there. -/
theorem formatLoop_inside (nocase : Bool) (fuel : Nat) (fmt data : Bytes) (ptr : Nat) (start : Option Nat)
    (caps : List (Nat × Nat)) {total : Nat} (htotal : ptr + data.length = total) (hstart : ∀ s, start = some s → s ≤ ptr)
    (hcaps : ∀ c ∈ caps, c.1 + c.2 ≤ total) : Inside total (formatLoop nocase fuel fmt data ptr start caps) := by
  induction fuel generalizing fmt data ptr start caps with
  | zero => exact inside_failed hcaps
  | succ fuel ih =>
      -- a pattern moves the cursor by what it took from the data that is left
      have hitem : ∀ (body after : Bytes) (spec : Specifier),
          Inside total (match matchPattern data body spec with
            | some used => formatLoop nocase fuel after (data.drop used) (ptr + used) start caps
            | none => ⟨none, caps⟩) := by
        intro body after spec
        cases hm : matchPattern data body spec with
        | none => exact inside_failed hcaps
        | some used =>
            have hused := matchPattern_le hm
            refine ih after (data.drop used) (ptr + used) start caps ?_ ?_ hcaps
            · rw [List.length_drop]
              omega
            · exact fun s hs => Nat.le_trans (hstart s hs) (Nat.le_add_right ptr used)
      cases fmt with
      | nil =>
          rw [formatLoop_end]
          refine ⟨fun n hn => ?_, hcaps⟩
          cases start with
          | some s => exact absurd hn.symm (Option.some_ne_none n)
          | none =>
              have hn' : ptr = n := Option.some.inj hn
              omega
      | cons f fmt =>
          by_cases h37 : f = 37
          · simp only [formatLoop, h37, if_true]
            exact hitem _ _ _
          by_cases h91 : f = 91
          · subst h91
            cases hscan : scanSet 91 fmt with
            | none =>
                rw [formatLoop_unclosed hscan]
                exact inside_failed hcaps
            | some r =>
                rw [formatLoop_set _ _ _ _ _ _ _ hscan]
                exact hitem _ _ _
          by_cases h40 : f = 40
          · subst h40
            rw [formatLoop_open]
            exact ih fmt data ptr (some ptr) caps htotal (fun s hs => Nat.le_of_eq (Option.some.inj hs).symm) hcaps
          by_cases h41 : f = 41
          · subst h41
            cases start with
            | none =>
                simp only [formatLoop, show ¬ (41 : UInt8) = 37 by decide, show ¬ (41 : UInt8) = 91 by decide,
                  show ¬ (41 : UInt8) = 40 by decide, if_false, if_true]
                exact inside_failed hcaps
            | some s =>
                rw [formatLoop_close]
                refine ih fmt data ptr none _ htotal (fun t ht => absurd ht.symm (Option.some_ne_none t)) ?_
                intro c hc
                rcases List.mem_append.mp hc with hc | hc
                · exact hcaps c hc
                · have hs := hstart s rfl
                  rw [List.mem_singleton.mp hc]
                  show s + (ptr - s) ≤ total
                  omega
          rw [formatLoop_byte h37 h91 h40 h41]
          cases data with
          | nil => exact inside_failed hcaps
          | cons b bs =>
              rw [List.length_cons] at htotal
              by_cases heq : (if nocase then toupper f == toupper b else f == b) = true
              · dsimp only
                rw [if_pos heq]
                refine ih fmt bs (ptr + 1) start caps ?_ ?_ hcaps
                · omega
                · exact fun s hs => Nat.le_succ_of_le (hstart s hs)
              · dsimp only
                rw [if_neg heq]
                exact inside_failed hcaps

theorem matchStringVirtual_inside (nocase : Bool) (view format : Bytes) :
    Inside view.length (matchStringVirtual nocase view format) := by
  unfold matchStringVirtual
  by_cases h : view.isEmpty = true
  · rw [if_pos h]
    refine ⟨fun n hn => ?_, fun c hc => absurd hc (List.not_mem_nil)⟩
    by_cases hf : format.isEmpty = true
    · have hn' : some 0 = some n := by
        rw [← hn]
        exact (if_pos hf).symm
      rw [← Option.some.inj hn']
      exact Nat.zero_le _
    · have hn' : none = some n := by
        rw [← hn]
        exact (if_neg hf).symm
      exact absurd hn'.symm (Option.some_ne_none n)
  · rw [if_neg h]
    exact formatLoop_inside nocase _ format view 0 none [] (Nat.zero_add _)
      (fun s hs => absurd hs.symm (Option.some_ne_none s)) (fun c hc => absurd hc (List.not_mem_nil))

/-- **The cursor's run is the run on lists**: no read is out of bounds, and the loops end. -/
theorem matchStringVirtualAt_eq (nocase : Bool) {view : Bytes} (hsize : view.length < 2 ^ 31) {format : Format}
    (hpercent : endsInLonePercent format.bytes = false) :
    matchStringVirtualAt nocase view format = some (outcomeOf view (matchStringVirtual nocase view format.bytes)) := by
  unfold matchStringVirtualAt matchStringVirtual
  cases hview : view with
  | nil =>
      rw [if_pos List.length_nil, if_pos List.isEmpty_nil]
      cases hfmt : format.bytes with
      | nil => rfl
      | cons c rest =>
          have hc0 : c ≠ 0 := by
            rintro rfl
            exact format.noNul (hfmt ▸ List.mem_cons_self)
          obtain ⟨hread, -, -⟩ := @readFormat_cons (c :: rest) 0 c rest rfl
          rw [hread]
          dsimp only [Option.bind_eq_bind, Option.bind_some]
          rw [if_neg hc0]
          rfl
  | cons b bs =>
      rw [if_neg (by rw [List.length_cons]; exact Nat.succ_ne_zero _), if_neg (by exact Bool.false_ne_true), ← hview]
      exact formatAt_eq format.noNul hsize rfl (Nat.zero_le _) hpercent (Nat.zero_le _) none [] (Nat.lt_succ_self _)

/-- **A match is safe**: it ends, reads inside the view and the format only, returns -1 and leaves the view as it was or
advances it by what it returns, and every capture is a slice of the view. -/
theorem match_string_safe (view : Bytes) (format : Format) (hpercent : endsInLonePercent format.bytes = false)
    (hsize : view.length < 2 ^ 31) :
    ∃ o, matchStringAt view format = some o ∧
      ((o.ret = -1 ∧ o.ptr = 0 ∧ o.len = view.length) ∨
        (0 ≤ o.ret ∧ o.ret ≤ view.length ∧ o.ptr = o.ret ∧ o.len = view.length - o.ret)) ∧
      ∀ c ∈ o.captures, c.1 + c.2 ≤ view.length := by
  obtain ⟨hused, hcaps⟩ := matchStringVirtual_inside false view format.bytes
  refine ⟨_, matchStringVirtualAt_eq false hsize hpercent, ?_, ?_⟩
  · unfold outcomeOf
    cases hr : (matchStringVirtual false view format.bytes).used with
    | none => exact Or.inl ⟨rfl, rfl, rfl⟩
    | some n =>
        have hn := hused n hr
        refine Or.inr ⟨Int.natCast_nonneg n, Int.ofNat_le.mpr hn, rfl, ?_⟩
        exact Int.ofNat_sub hn
  · unfold outcomeOf
    cases hr : (matchStringVirtual false view format.bytes).used with
    | none => exact hcaps
    | some n => exact hcaps

/-- A request line read with a format of two captures, a set and a class. -/
theorem match_string_safe_line :
    ∃ o, matchStringAt (bytes "GET /a%b HTTP") ⟨bytes "(%a+) ([%w/%%.]+) ", by decide⟩ = some o ∧
      ((o.ret = -1 ∧ o.ptr = 0 ∧ o.len = (bytes "GET /a%b HTTP").length) ∨
        (0 ≤ o.ret ∧ o.ret ≤ (bytes "GET /a%b HTTP").length ∧ o.ptr = o.ret ∧
          o.len = (bytes "GET /a%b HTTP").length - o.ret)) ∧
      ∀ c ∈ o.captures, c.1 + c.2 ≤ (bytes "GET /a%b HTTP").length :=
  match_string_safe _ _ (by decide) (by decide)

end Cursor
end Pattern
end Hin9
