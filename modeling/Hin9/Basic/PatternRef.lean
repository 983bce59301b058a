import Hin9.Basic.PatternSpec

/-!
# `Basic.PatternRef` — the matcher against a reference matcher

A well-formed format is the text of a list of tokens: literals, `%`-letters and sets with a suffix, and captures.
`refMatch` is what the tokens mean: an item without a suffix takes one byte of its set, `?` at most one, `+` and
`*` the longest run. `match_pattern` does something else. Its outer loop goes on whatever the suffix, so every item takes
its longest run; a capital letter matches every byte; and a negated set gives back only one of the bytes that the
pass over its elements took. `pattern_reference` says that the two matchers agree as long as no item the reference
reaches meets such an input (`Clean`), and that a format of one item disagrees on all others.
-/

namespace Hin9
namespace Pattern

/-! ## Formats -/

/-- An element of a set: a byte, or a letter after a `%`. -/
inductive Elem where
  | char (c : UInt8)
  | letter (k : UInt8)
deriving Repr, DecidableEq

def Elem.text : Elem → Bytes
  | char c => [c]
  | letter k => [37, k]

/-- A set with its suffix. -/
structure SetItem where
  neg : Bool
  elems : List Elem
  spec : Specifier
deriving Repr, DecidableEq

/-- A piece of a format. -/
inductive Token where
  | lit (c : UInt8)
  | letter (k : UInt8) (spec : Specifier)
  | set (it : SetItem)
  | open
  | close
deriving Repr, DecidableEq

/-- A suffix as it is written. -/
def Specifier.text (spec : Specifier) : Bytes :=
  match spec.runAll, spec.runZero with
  | true, false => [43]
  | true, true => [42]
  | false, true => [63]
  | false, false => []

/-- What stands between the brackets of a set. -/
def SetItem.body (it : SetItem) : Bytes := (if it.neg then [94] else []) ++ it.elems.flatMap Elem.text

def Token.text : Token → Bytes
  | lit c => [c]
  | letter k spec => 37 :: k :: spec.text
  | set it => 91 :: it.body ++ 93 :: it.spec.text
  | .open => [40]
  | close => [41]

/-- The format string of a list of tokens. -/
def text (toks : List Token) : Bytes := toks.flatMap Token.text

/-- The bytes that can stand in a set as they are, and the letters that can follow a `%`. -/
def Elem.wellFormed : Elem → Bool
  | char c => c != 37 && c != 93 && c != 0
  | letter k => k != 0

/-- The elements can be written between brackets: a set that is not negated does not start with a `^`, and the
    last element is not `%%`, after which the bracket would not close the set. -/
def SetItem.wellFormed (it : SetItem) : Bool :=
  it.elems.all Elem.wellFormed && (it.neg || it.elems.head? != some (.char 94)) &&
    it.elems.getLast? != some (.letter 37)

/-- An item without a suffix is not followed by a literal that reads as one. -/
def separated (spec : Specifier) : List Token → Bool
  | .lit c :: _ => spec != runOne || getSpecifier c == runOne
  | _ => true

/-- A well-formed format; `opened` says that a capture is open in front of it. Captures do not nest. -/
def wellFormed : Bool → List Token → Bool
  | opened, [] => !opened
  | opened, .lit c :: toks => literalByte c && c != 0 && wellFormed opened toks
  | opened, .letter k spec :: toks => k != 0 && separated spec toks && wellFormed opened toks
  | opened, .set it :: toks => it.wellFormed && separated it.spec toks && wellFormed opened toks
  | opened, .open :: toks => !opened && wellFormed true toks
  | opened, .close :: toks => opened && wellFormed false toks

/-! ## The reference matcher -/

/-- The bytes a letter after a `%` stands for: a class, the bytes outside it, or the letter itself. -/
def letterHas (k c : UInt8) : Bool :=
  if k = 97 then isalpha c else if k = 65 then !isalpha c
  else if k = 115 then isspace c else if k = 83 then !isspace c
  else if k = 99 then iscntrl c else if k = 67 then !iscntrl c
  else if k = 100 then isdigit c else if k = 68 then !isdigit c
  else if k = 108 then islower c else if k = 76 then !islower c
  else if k = 117 then isupper c else if k = 85 then !isupper c
  else if k = 112 then ispunct c else if k = 80 then !ispunct c
  else if k = 119 then isalnum c else if k = 87 then !isalnum c
  else if k = 120 then isxdigit c else if k = 88 then !isxdigit c
  else if k = 122 then c == 0 else if k = 90 then c != 0
  else if k = 121 then c != 0 else if k = 89 then c == 0
  else c == k

def Elem.has : Elem → UInt8 → Bool
  | char c', c => c == c'
  | letter k, c => letterHas k c

/-- The bytes of a set. -/
def SetItem.has (it : SetItem) (c : UInt8) : Bool := it.elems.any (·.has c) != it.neg

/-- The longest run of bytes of the set. -/
def SetItem.run (it : SetItem) (data : Bytes) : Nat := (data.takeWhile it.has).length

/-- What an item takes: its longest run, one byte of it without `+` and `*`; `none` where it has to take a byte
    and there is none. -/
def SetItem.take (it : SetItem) (data : Bytes) : Option Nat :=
  let n := if it.spec.runAll then it.run data else min (it.run data) 1
  if n = 0 && !it.spec.runZero then none else some n

/-- The item of a letter that stands by itself. -/
def letterItem (k : UInt8) (spec : Specifier) : SetItem := ⟨false, [.letter k], spec⟩

/-- The reference matcher: the bytes used and the captures; `start` is where the open capture began. -/
def refMatch : List Token → Bytes → Nat → Nat → List (Nat × Nat) → Option (Nat × List (Nat × Nat))
  | [], _, ptr, _, caps => some (ptr, caps)
  | .lit _ :: _, [], _, _, _ => none
  | .lit f :: toks, c :: cs, ptr, start, caps =>
      if f == c then refMatch toks cs (ptr + 1) start caps else none
  | .letter k spec :: toks, data, ptr, start, caps =>
      ((letterItem k spec).take data).bind fun n => refMatch toks (data.drop n) (ptr + n) start caps
  | .set it :: toks, data, ptr, start, caps =>
      (it.take data).bind fun n => refMatch toks (data.drop n) (ptr + n) start caps
  | .open :: toks, data, ptr, _, caps => refMatch toks data ptr ptr caps
  | .close :: toks, data, ptr, start, caps => refMatch toks data ptr start (caps ++ [(start, ptr - start)])

/-- The outcome of a match: what was used and captured, `none` where it failed. -/
def Result.outcome (r : Result) : Option (Nat × List (Nat × Nat)) := r.used.map fun n => (n, r.captures)

/-! ## Where the two differ -/

/-- The letters that stand for the bytes outside a class; `match_char` takes every byte for them. -/
def capitalLetter (k : UInt8) : Bool := k ∈ [65, 83, 67, 68, 76, 85, 80, 87, 88, 90, 89]

/-- What `match_char` takes for an element. -/
def Elem.takes : Elem → UInt8 → Bool
  | char c', c => c == c'
  | letter k, c => letterHas k c || capitalLetter k

/-- The elements the pass still tries after it took `b`: those from the first that matches `b` on, and that one
    again with `+` or `*`. -/
def elemsFrom (runAll : Bool) (b : UInt8) (elems : List Elem) : List Elem :=
  let rest := elems.dropWhile fun e => !e.takes b
  if runAll then rest else rest.tail

/-- The letters of the set add nothing to it on the bytes the item looks at: those it takes and the next one. -/
def SetItem.LettersExact (it : SetItem) (data : Bytes) : Prop :=
  ∀ c ∈ data.take (it.run data + 1), it.elems.any (·.takes c) = it.elems.any (·.has c)

/-- The run ends where the item does: it is at most one byte long without `+` or `*`; and behind a negated set,
    the byte that ends the run is not followed by one which the rest of the same pass takes as well. -/
structure SetItem.Exact (it : SetItem) (data : Bytes) : Prop where
  single : it.spec.runAll = true ∨ it.run data ≤ 1
  ending : it.neg = true → ∀ b d rest, data.drop (it.run data) = b :: d :: rest →
    ∀ e ∈ elemsFrom it.spec.runAll b it.elems, e.takes d = false

/-- No item that the reference matcher reaches meets an input on which `match_pattern` does something else. -/
def Clean : List Token → Bytes → Prop
  | [], _ => True
  | .lit _ :: _, [] => True
  | .lit f :: toks, c :: cs => f = c → Clean toks cs
  | .letter k spec :: toks, data =>
      (letterItem k spec).LettersExact data ∧ (letterItem k spec).Exact data ∧
        ∀ n, (letterItem k spec).take data = some n → Clean toks (data.drop n)
  | .set it :: toks, data =>
      it.LettersExact data ∧ it.Exact data ∧ ∀ n, it.take data = some n → Clean toks (data.drop n)
  | .open :: toks, data => Clean toks data
  | .close :: toks, data => Clean toks data

/-- The tokens that have to take a byte. -/
def Token.needsByte : Token → Bool
  | lit _ => true
  | letter _ spec => !spec.runZero
  | set it => !it.spec.runZero
  | .open => false
  | close => false

/-! ## Elements and `match_char` -/

/-- The letters `get_pattern` knows. -/
def classLetters : List UInt8 :=
  [97, 65, 115, 83, 99, 67, 100, 68, 108, 76, 117, 85, 112, 80, 119, 87, 120, 88, 122, 90, 121, 89]

/-- **A letter after a `%`.** The small letters match their class; the masks of the capital ones have the bits of
    `PATTERN_CUSTOM` and `PATTERN_NEGATIVE` too, and so match every byte. -/
theorem matchChar_letter (k c ch : UInt8) :
    (match classMask k with
      | some m => matchChar c m ch
      | none => matchChar c PATTERN_CUSTOM k) = (Elem.letter k).takes c := by
  by_cases hk : k ∈ classLetters
  · simp only [classLetters, List.mem_cons, List.not_mem_nil, or_false] at hk
    rw [Bool.eq_iff_iff]
    rcases hk with rfl | rfl | rfl | rfl | rfl | rfl | rfl | rfl | rfl | rfl | rfl | rfl | rfl | rfl | rfl | rfl | rfl |
      rfl | rfl | rfl | rfl | rfl
    all_goals simp +decide [classMask, matchChar, Elem.takes, letterHas]
    all_goals tauto
  · simp only [classLetters, List.mem_cons, List.not_mem_nil, or_false, not_or] at hk
    have hnone : classMask k = none := by simp [classMask, hk]
    have hcap : capitalLetter k = false := by simp [capitalLetter, hk]
    have hself : letterHas k c = (c == k) := by simp [letterHas, hk]
    rw [hnone, Elem.takes, hcap, hself, Bool.or_false]
    exact matchChar_custom c k

/-- The items `get_pattern` makes of the elements: each matches what its element takes. -/
def Reads (items : List Item) (es : List Elem) : Prop :=
  List.Forall₂ (fun it e => ∀ c, matchChar c it.mask it.ch = e.takes c) items es

theorem getPattern_reads {es : List Elem} (hes : ∀ e ∈ es, e.wellFormed = true) (ch : UInt8) :
    Reads (getPattern (es.flatMap Elem.text) ch) es := by
  induction es generalizing ch with
  | nil => exact .nil
  | cons e es ih =>
      have ih := ih fun e' he => hes e' (List.mem_cons_of_mem _ he)
      have he := hes e List.mem_cons_self
      rw [List.flatMap_cons]
      cases e with
      | char c =>
          have h37 : c ≠ 37 := by
            simp only [Elem.wellFormed, Bool.and_eq_true, bne_iff_ne] at he
            exact he.1.1
          have hstep (rest : Bytes) : getPattern (c :: rest) ch = ⟨PATTERN_CUSTOM, c⟩ :: getPattern rest c := by
            cases rest <;> simp [getPattern, h37]
          rw [Elem.text, List.singleton_append, hstep]
          exact .cons (fun d => matchChar_custom d c) (ih c)
      | letter k =>
          have hm (d : UInt8) := matchChar_letter k d ch
          rw [Elem.text, List.cons_append, List.singleton_append]
          simp only [getPattern, if_true]
          cases hc : classMask k with
          | some m =>
              simp only [hc] at hm
              exact .cons hm (ih ch)
          | none =>
              simp only [hc] at hm
              exact .cons hm (ih k)

/-! ## One pass over a set -/

theorem takeWhile_length_mono {p q : UInt8 → Bool} (h : ∀ c, p c = true → q c = true) (data : Bytes) :
    (data.takeWhile p).length ≤ (data.takeWhile q).length := by
  induction data with
  | nil => simp
  | cons c cs ih =>
      by_cases hc : p c = true
      · rw [List.takeWhile_cons_of_pos hc, List.takeWhile_cons_of_pos (h c hc)]
        exact Nat.succ_le_succ ih
      · rw [List.takeWhile_cons_of_neg hc]
        exact Nat.zero_le _

/-- The run that is left behind a part of it. -/
theorem takeWhile_drop_length {p : UInt8 → Bool} {n : Nat} {data : Bytes} (h : n ≤ (data.takeWhile p).length) :
    ((data.drop n).takeWhile p).length = (data.takeWhile p).length - n := by
  induction data generalizing n with
  | nil => simp
  | cons c cs ih =>
      cases n with
      | zero => simp
      | succ n =>
          by_cases hc : p c = true
          · rw [List.takeWhile_cons_of_pos hc, List.length_cons] at h ⊢
            rw [List.drop_succ_cons, ih (Nat.le_of_succ_le_succ h)]
            omega
          · rw [List.takeWhile_cons_of_neg hc] at h
            exact absurd h (by simp)

section Pass

variable {items : List Item} {es : List Elem}

/-- A pass takes something exactly when an element matches the first byte. -/
theorem itemLoop_hit (runAll : Bool) (h : Reads items es) (str : Bytes) :
    (itemLoop runAll items str).2 = str.head?.any fun c => es.any (·.takes c) := by
  induction h with
  | nil => cases str <;> simp [itemLoop]
  | @cons it e its es hit _ ih =>
      cases str with
      | nil => simpa [itemLoop] using ih
      | cons c cs =>
          simp only [itemLoop, hit]
          split <;> rename_i hc
          · simp [hc]
          · rw [ih]
            simp [hc]

theorem itemLoop_zero (runAll : Bool) (items : List Item) (str : Bytes) :
    (itemLoop runAll items str).1 = 0 ↔ (itemLoop runAll items str).2 = false := by
  induction items generalizing str with
  | nil => simp [itemLoop]
  | cons it its ih =>
      cases str with
      | nil => simpa [itemLoop] using ih []
      | cons c cs =>
          simp only [itemLoop]
          split
          · simp
          · exact ih (c :: cs)

/-- A pass stays within the run of the bytes that some element matches. -/
theorem itemLoop_le (runAll : Bool) (h : Reads items es) (p : UInt8 → Bool)
    (hp : ∀ e ∈ es, ∀ c, e.takes c = true → p c = true) (str : Bytes) :
    (itemLoop runAll items str).1 ≤ (str.takeWhile p).length := by
  induction h generalizing str with
  | nil => simp [itemLoop]
  | @cons it e its es hit _ ih =>
      have ih := ih fun e' he => hp e' (List.mem_cons_of_mem _ he)
      cases str with
      | nil => simpa [itemLoop] using ih []
      | cons c cs =>
          simp only [itemLoop, hit]
          split <;> rename_i hc
          · have hrun : runMatch it cs ≤ (cs.takeWhile p).length :=
              takeWhile_length_mono (fun d hd => hp e List.mem_cons_self d ((hit d).symm.trans hd)) cs
            have hmore : (if runAll then runMatch it cs else 0) ≤ (cs.takeWhile p).length := by
              split
              · exact hrun
              · exact Nat.zero_le _
            have hrest := ih (cs.drop (if runAll then runMatch it cs else 0))
            rw [takeWhile_drop_length hmore] at hrest
            rw [List.takeWhile_cons_of_pos (hp e List.mem_cons_self c hc), List.length_cons]
            omega
          · exact ih (c :: cs)

/-- A pass takes nothing exactly when no element matches the first byte. -/
theorem itemLoop_idle (runAll : Bool) (h : Reads items es) (str : Bytes) :
    (itemLoop runAll items str).1 = 0 ↔ ∀ d rest, str = d :: rest → ∀ e ∈ es, e.takes d = false := by
  rw [itemLoop_zero, itemLoop_hit runAll h]
  cases str with
  | nil => simp
  | cons d rest => simp

/-- **A pass that takes the byte `b` takes no more** exactly when nothing it still tries matches the next byte. -/
theorem itemLoop_single (runAll : Bool) (h : Reads items es) {b : UInt8} (hb : es.any (·.takes b) = true)
    (rest : Bytes) :
    (itemLoop runAll items (b :: rest)).1 ≤ 1 ↔
      ∀ d rest', rest = d :: rest' → ∀ e ∈ elemsFrom runAll b es, e.takes d = false := by
  induction h with
  | nil => simp at hb
  | @cons it e its es hit hits ih =>
      simp only [itemLoop, hit]
      split <;> rename_i hc
      · have hfrom : elemsFrom runAll b (e :: es) = if runAll then e :: es else es := by
          simp [elemsFrom, hc]
        rw [hfrom]
        cases runAll with
        | false =>
            rw [if_neg (by decide), if_neg (by decide), List.drop_zero, ← itemLoop_idle false hits rest]
            omega
        | true =>
            rw [if_pos rfl, if_pos rfl]
            cases rest with
            | nil =>
                have hidle := (itemLoop_idle true hits []).mpr fun d rest' h => absurd h (by simp)
                simp [runMatch, hidle]
            | cons d rest =>
                by_cases hd : e.takes d = true
                · have hmore : 1 ≤ runMatch it (d :: rest) := by simp [runMatch, hit, hd]
                  exact ⟨fun h => by omega, fun h => absurd hd (by simp [h d rest rfl e List.mem_cons_self])⟩
                · have hmore : runMatch it (d :: rest) = 0 := by simp [runMatch, hit, hd]
                  have hidle := itemLoop_idle true hits (d :: rest)
                  rw [hmore, List.drop_zero]
                  constructor
                  · intro h d' rest' heq e' he
                    rcases List.mem_cons.mp he with rfl | he
                    · exact (List.cons.inj heq).1 ▸ Bool.eq_false_iff.mpr hd
                    · exact hidle.mp (by omega) d' rest' heq e' he
                  · intro h
                    have := hidle.mpr fun d' rest' heq e' he => h d' rest' heq e' (List.mem_cons_of_mem _ he)
                    omega
      · have hfrom : elemsFrom runAll b (e :: es) = elemsFrom runAll b es := by simp [elemsFrom, hc]
        rw [hfrom]
        exact ih (by simpa [hc] using hb)

/-! ## The outer loop -/

/-- The run of a set that is not negated, whatever the suffix. -/
theorem matchLoop_run (runAll : Bool) (h : Reads items es) (fuel : Nat) (data : Bytes) (hfuel : data.length < fuel) :
    matchLoop false runAll items fuel data = (data.takeWhile fun c => es.any (·.takes c)).length := by
  have hp : ∀ e ∈ es, ∀ c, e.takes c = true → (es.any (·.takes c)) = true := fun e he c hc =>
    List.any_eq_true.mpr ⟨e, he, hc⟩
  induction fuel generalizing data with
  | zero => exact absurd hfuel (Nat.not_lt_zero _)
  | succ fuel ih =>
      have hhit := itemLoop_hit runAll h data
      have hle := itemLoop_le runAll h _ hp data
      have hzero := itemLoop_zero runAll items data
      simp only [matchLoop, Bool.false_eq_true, if_false]
      split <;> rename_i ht
      · -- A pass that took something is followed by another one.
        have hpos : 0 < (itemLoop runAll items data).1 := Nat.pos_of_ne_zero fun h0 => by
          rw [hzero.mp h0] at ht
          exact absurd ht (by decide)
        have hlen : (data.takeWhile fun c => es.any (·.takes c)).length ≤ data.length :=
          (List.takeWhile_sublist _).length_le
        rw [ih _ (by rw [List.length_drop]; omega), takeWhile_drop_length hle]
        omega
      · cases data with
        | nil => simp
        | cons c cs =>
            rw [hhit] at ht
            rw [List.takeWhile_cons_of_neg (by simpa using ht)]
            rfl

/-- A negated set stops at the first byte one of its elements matches, and gives one byte of that pass back. -/
theorem matchLoop_negated (runAll : Bool) (h : Reads items es) (fuel : Nat) (data : Bytes)
    (hfuel : data.length < fuel) :
    matchLoop true runAll items fuel data =
      (data.takeWhile fun c => !es.any (·.takes c)).length +
        ((itemLoop runAll items (data.drop (data.takeWhile fun c => !es.any (·.takes c)).length)).1 - 1) := by
  induction fuel generalizing data with
  | zero => exact absurd hfuel (Nat.not_lt_zero _)
  | succ fuel ih =>
      have hhit := itemLoop_hit runAll h data
      simp only [matchLoop, if_true]
      cases data with
      | nil =>
          have h0 : (itemLoop runAll items []).1 = 0 := (itemLoop_idle runAll h []).mpr (by simp)
          simp [h0]
      | cons c cs =>
          rw [hhit]
          by_cases hc : (es.any (·.takes c)) = true
          · rw [if_pos (by simpa using hc), List.takeWhile_cons_of_neg (by simp [hc])]
            simp
          · have ih := ih cs (by simpa using hfuel)
            rw [if_neg (by simpa using hc), List.takeWhile_cons_of_pos (by simp [hc])]
            simp only [List.length_cons, List.drop_succ_cons, ih]
            omega

end Pass

/-! ## One item -/

/-- The bytes the pass that ends a negated set takes too many. -/
def SetItem.extra (it : SetItem) (data : Bytes) : Nat :=
  if it.neg then (itemLoop it.spec.runAll (getPattern (it.elems.flatMap Elem.text) 0) (data.drop (it.run data))).1 - 1
  else 0

/-- What `match_pattern` reads of a set: the brackets' body splits into the `^` and the elements. -/
structure SetItem.Readable (it : SetItem) : Prop where
  elems : ∀ e ∈ it.elems, e.wellFormed = true
  head : it.neg = true ∨ it.elems.head? ≠ some (.char 94)

theorem SetItem.wellFormed.readable {it : SetItem} (h : it.wellFormed = true) : it.Readable := by
  simp only [SetItem.wellFormed, Bool.and_eq_true, Bool.or_eq_true, bne_iff_ne, List.all_eq_true] at h
  exact ⟨h.1.1, h.1.2⟩

theorem letterItem_readable {k : UInt8} (hk : k ≠ 0) (spec : Specifier) : (letterItem k spec).Readable where
  elems := by
    intro e he
    obtain rfl := List.mem_singleton.mp he
    simpa [Elem.wellFormed] using hk
  head := .inr (by simp [letterItem])

/-- Two tests that agree on a run and on the byte that ends it have the same run. -/
theorem takeWhile_congr_run {p q : UInt8 → Bool} {data : Bytes}
    (h : ∀ c ∈ data.take ((data.takeWhile q).length + 1), p c = q c) : data.takeWhile p = data.takeWhile q := by
  induction data with
  | nil => rfl
  | cons c cs ih =>
      have hc : p c = q c := h c (by simp)
      by_cases hq : q c = true
      · rw [List.takeWhile_cons_of_pos hq] at h ⊢
        rw [List.takeWhile_cons_of_pos (hc.trans hq), ih fun d hd => h d (by
          rw [List.length_cons, List.take_succ_cons]
          exact List.mem_cons_of_mem _ hd)]
      · rw [List.takeWhile_cons_of_neg hq, List.takeWhile_cons_of_neg (by rw [hc]; exact hq)]

/-- A run under a wider test that is no longer has the tests agree on it and on the byte that ends it. -/
theorem takeWhile_run_congr {p q : UInt8 → Bool} (hpq : ∀ c, q c = true → p c = true) {data : Bytes}
    (h : (data.takeWhile p).length ≤ (data.takeWhile q).length) :
    ∀ c ∈ data.take ((data.takeWhile q).length + 1), p c = q c := by
  induction data with
  | nil => simp
  | cons c cs ih =>
      by_cases hq : q c = true
      · have hp := hpq c hq
        rw [List.takeWhile_cons_of_pos hq, List.takeWhile_cons_of_pos hp, List.length_cons, List.length_cons] at h
        rw [List.takeWhile_cons_of_pos hq, List.length_cons, List.take_succ_cons]
        intro d hd
        rcases List.mem_cons.mp hd with rfl | hd
        · rw [hp, hq]
        · exact ih (Nat.le_of_succ_le_succ h) d hd
      · have hp : ¬ p c = true := by
          intro hp
          rw [List.takeWhile_cons_of_pos hp, List.takeWhile_cons_of_neg hq] at h
          exact absurd h (by simp)
        rw [List.takeWhile_cons_of_neg hq]
        intro d hd
        obtain rfl : d = c := by simpa using hd
        rw [Bool.eq_false_iff.mpr hp, Bool.eq_false_iff.mpr hq]

/-- `match_pattern` finds the `^` of a negated set, and the elements behind it. -/
theorem body_split {it : SetItem} (hr : it.Readable) : (it.body.head? == some 94) = it.neg ∧
    (if it.neg then it.body.tail else it.body) = it.elems.flatMap Elem.text := by
  cases hn : it.neg with
  | true => simp [SetItem.body, hn]
  | false =>
      have hhead := hr.head.resolve_left (by simp [hn])
      refine ⟨?_, by simp [SetItem.body, hn]⟩
      rw [SetItem.body, hn]
      cases he : it.elems with
      | nil => rfl
      | cons e es =>
          cases e with
          | char c =>
              have hc : c ≠ 94 := fun h => hhead (by rw [he, h]; rfl)
              simp [Elem.text, hc]
          | letter k => rfl

/-- **What `match_pattern` takes of an item** whose letters are exact: its longest run, whatever the suffix, and the
    extra bytes of a negated set. -/
theorem matchPattern_item {it : SetItem} (hr : it.Readable) {data : Bytes} (hl : it.LettersExact data) :
    matchPattern data it.body it.spec =
      if it.run data + it.extra data = 0 && !it.spec.runZero then none else some (it.run data + it.extra data) := by
  have hreads := getPattern_reads hr.elems 0
  have hcount : matchLoop it.neg it.spec.runAll (getPattern (it.elems.flatMap Elem.text) 0) (data.length + 1) data =
      it.run data + it.extra data := by
    cases hn : it.neg with
    | false =>
        have hrun : (data.takeWhile fun c => it.elems.any (·.takes c)) = data.takeWhile it.has :=
          takeWhile_congr_run fun c hc => by rw [hl c hc, SetItem.has, hn, Bool.bne_false]
        rw [matchLoop_run _ hreads _ _ (Nat.lt_succ_self _), hrun, SetItem.extra, if_neg (by simp [hn])]
        rfl
    | true =>
        have hrun : (data.takeWhile fun c => !it.elems.any (·.takes c)) = data.takeWhile it.has :=
          takeWhile_congr_run fun c hc => by rw [hl c hc, SetItem.has, hn, Bool.bne_true]
        rw [matchLoop_negated _ hreads _ _ (Nat.lt_succ_self _), hrun, SetItem.extra, if_pos hn]
        rfl
  simp only [matchPattern, (body_split hr).1, (body_split hr).2, hcount, Bool.and_eq_true, decide_eq_true_eq]

/-- The byte that ends the run of an item: it is among those the item looks at, and not of the set. -/
theorem run_ends {it : SetItem} {data rest : Bytes} {b : UInt8} (h : data.drop (it.run data) = b :: rest) :
    it.has b = false ∧ b ∈ data.take (it.run data + 1) := by
  have hsplit : data.takeWhile it.has ++ data.dropWhile it.has = data := List.takeWhile_append_dropWhile
  have hdrop : data.drop (it.run data) = data.dropWhile it.has := by
    have hbehind : (data.takeWhile it.has ++ data.dropWhile it.has).drop (it.run data) = data.dropWhile it.has :=
      List.drop_left' rfl
    rwa [hsplit] at hbehind
  rw [hdrop] at h
  constructor
  · have := List.head_dropWhile_not it.has (l := data) (by simp [h])
    simpa only [h, List.head_cons] using this
  · have htake : data.take (it.run data + 1) = data.takeWhile it.has ++ [b] := by
      calc data.take (it.run data + 1) = (data.takeWhile it.has ++ b :: rest).take (it.run data + 1) := by
            rw [← h, hsplit]
        _ = data.takeWhile it.has ++ [b] := by simp [SetItem.run, List.take_append]
    rw [htake]
    simp

/-- **An item agrees with the reference** exactly when its run ends where the item does. -/
theorem matchPattern_exact {it : SetItem} (hr : it.Readable) {data : Bytes} (hl : it.LettersExact data) :
    matchPattern data it.body it.spec = it.take data ↔ it.Exact data := by
  have hextra : it.extra data = 0 ↔ (it.neg = true → ∀ b d rest, data.drop (it.run data) = b :: d :: rest →
      ∀ e ∈ elemsFrom it.spec.runAll b it.elems, e.takes d = false) := by
    have hreads := getPattern_reads hr.elems 0
    rw [SetItem.extra]
    split <;> rename_i hn
    · cases hd : data.drop (it.run data) with
      | nil =>
          have hidle := (itemLoop_idle it.spec.runAll hreads []).mpr fun d rest h => absurd h (by simp)
          simp [hidle]
      | cons b rest =>
          obtain ⟨hb, hm⟩ := run_ends hd
          -- The byte is outside the negated set, so an element matches it.
          have hhit : it.elems.any (·.takes b) = true := by
            rw [SetItem.has, hn, Bool.bne_true, Bool.not_eq_false'] at hb
            exact (hl b hm).trans hb
          rw [Nat.sub_eq_zero_iff_le, itemLoop_single _ hreads hhit]
          constructor
          · rintro h - b' d rest' heq
            obtain ⟨rfl, rfl⟩ := List.cons.inj heq
            exact h d rest' rfl
          · rintro h d rest' rfl
            exact h hn b d rest' rfl
    · simp [hn]
  have hexact : it.Exact data ↔ (it.spec.runAll = true ∨ it.run data ≤ 1) ∧ it.extra data = 0 :=
    ⟨fun h => ⟨h.single, hextra.mpr h.ending⟩, fun h => ⟨h.1, hextra.mp h.2⟩⟩
  rw [hexact, matchPattern_item hr hl, SetItem.take]
  generalize it.run data = R
  generalize it.extra data = x
  have hcount (n : Nat) (hle : n ≤ R) (hz : n = 0 → R = 0) :
      ((if R + x = 0 && !it.spec.runZero then none else some (R + x)) =
        if n = 0 && !it.spec.runZero then none else some n) ↔ n = R ∧ x = 0 := by
    cases it.spec.runZero <;> by_cases h0 : R + x = 0 <;> by_cases hn : n = 0 <;> simp [h0, hn] <;> omega
  cases it.spec.runAll with
  | true =>
      refine (hcount R le_rfl id).trans ?_
      simp
  | false =>
      refine (hcount (min R 1) (by omega) (by omega)).trans ?_
      simp

theorem Elem.takes_of_has {e : Elem} {c : UInt8} (h : e.has c = true) : e.takes c = true := by
  cases e with
  | char c' => exact h
  | letter k =>
      have h : letterHas k c = true := h
      simp [Elem.takes, h]

/-- A capital letter that matches the byte behind the run of a set makes the item take more than the reference. -/
theorem matchPattern_inexact {it : SetItem} (hr : it.Readable) (hn : it.neg = false) {data : Bytes}
    (hl : ¬ it.LettersExact data) : matchPattern data it.body it.spec ≠ it.take data := by
  have hwide (c : UInt8) (h : it.has c = true) : it.elems.any (·.takes c) = true := by
    rw [SetItem.has, hn, Bool.bne_false, List.any_eq_true] at h
    obtain ⟨e, he, hc⟩ := h
    exact List.any_eq_true.mpr ⟨e, he, Elem.takes_of_has hc⟩
  have hcount : matchLoop it.neg it.spec.runAll (getPattern (it.elems.flatMap Elem.text) 0) (data.length + 1) data =
      (data.takeWhile fun c => it.elems.any (·.takes c)).length := by
    rw [hn]
    exact matchLoop_run _ (getPattern_reads hr.elems 0) _ _ (Nat.lt_succ_self _)
  have hmore : it.run data < (data.takeWhile fun c => it.elems.any (·.takes c)).length := by
    by_contra hle
    refine hl fun c hc => ?_
    rw [takeWhile_run_congr hwide (Nat.le_of_not_lt hle) c hc, SetItem.has, hn, Bool.bne_false]
  have htake (n : Nat) (h : it.take data = some n) : n ≤ it.run data := by
    have hle : (if it.spec.runAll then it.run data else min (it.run data) 1) ≤ it.run data := by split <;> omega
    simp only [SetItem.take, Option.ite_none_left_eq_some] at h
    exact Option.some.inj h.2 ▸ hle
  have hcode : matchPattern data it.body it.spec = some (data.takeWhile fun c => it.elems.any (·.takes c)).length := by
    have hpos : (data.takeWhile fun c => it.elems.any (·.takes c)).length ≠ 0 := by omega
    simp only [matchPattern, (body_split hr).1, (body_split hr).2, hcount, decide_eq_false hpos, Bool.false_and,
      Bool.false_eq_true, if_false]
  exact fun heq => absurd (htake _ (heq.symm.trans hcode)) (Nat.not_le.mpr hmore)

/-- **When an item agrees with the reference.** -/
theorem matchPattern_agrees_iff {it : SetItem} (hr : it.Readable) {data : Bytes}
    (h : it.neg = false ∨ it.LettersExact data) :
    matchPattern data it.body it.spec = it.take data ↔ it.LettersExact data ∧ it.Exact data := by
  by_cases hl : it.LettersExact data
  · rw [matchPattern_exact hr hl, and_iff_right hl]
  · exact ⟨fun heq => absurd heq (matchPattern_inexact hr (h.resolve_right hl) hl), fun hb => absurd hb.1 hl⟩

/-! ## The format loop over tokens -/

/-- The suffix of an item is read back where no literal behind it reads as one. -/
theorem takeSpecifier_text {spec : Specifier} {toks : List Token} (h : separated spec toks = true) :
    takeSpecifier (spec.text ++ text toks) = (spec, text toks) := by
  obtain ⟨runAll, runZero⟩ := spec
  cases runAll <;> cases runZero
  · cases toks with
    | nil => rfl
    | cons t toks =>
        cases t with
        | lit c =>
            have hc : getSpecifier c = runOne := by simpa [separated, runOne] using h
            simp [Specifier.text, text, Token.text, takeSpecifier, hc, runOne]
        | letter k spec => rfl
        | set it => rfl
        | «open» => rfl
        | close => rfl
  all_goals rfl

/-- A set that can be written is read back up to its bracket. By induction on the elements; a bracket that is an
    element stands behind a `%`. -/
theorem scanSet_elems {es : List Elem} (hes : ∀ e ∈ es, e.wellFormed = true) (hlast : es.getLast? ≠ some (.letter 37))
    (prev : UInt8) (hprev : es = [] → prev ≠ 37) (rest : Bytes) :
    scanSet prev (es.flatMap Elem.text ++ 93 :: rest) = some (es.flatMap Elem.text, rest) := by
  induction es generalizing prev with
  | nil => simp [scanSet, hprev rfl]
  | cons e es ih =>
      have he := hes e List.mem_cons_self
      have hlast' : es.getLast? ≠ some (.letter 37) := by
        cases es with
        | nil => simp
        | cons e' es => simpa using hlast
      have ih := ih (fun e' he' => hes e' (List.mem_cons_of_mem _ he')) hlast'
      rw [List.flatMap_cons]
      cases e with
      | char c =>
          simp only [Elem.wellFormed, Bool.and_eq_true, bne_iff_ne] at he
          have hopen : ¬ (decide (c = 93) && prev != 37) = true := by simp [he.1.2]
          rw [Elem.text, List.singleton_append, List.cons_append, scanSet, if_neg hopen, ih c fun _ => he.1.1]
          rfl
      | letter k =>
          have hk : es = [] → k ≠ 37 := fun h hk => hlast (by rw [h, hk]; rfl)
          have h37 : scanSet 37 (k :: (es.flatMap Elem.text ++ 93 :: rest)) =
              some (k :: es.flatMap Elem.text, rest) := by
            simp only [scanSet, bne_self_eq_false, Bool.and_false, Bool.false_eq_true, if_false, ih k hk,
              Option.map_some]
          have hopen : ¬ (decide ((37 : UInt8) = 93) && prev != 37) = true := by simp
          simp only [Elem.text, List.cons_append, List.nil_append]
          rw [scanSet, if_neg hopen, h37]
          rfl

theorem scanSet_body {it : SetItem} (h : it.wellFormed = true) (rest : Bytes) :
    scanSet 91 (it.body ++ 93 :: rest) = some (it.body, rest) := by
  have hr := SetItem.wellFormed.readable h
  have hlast : it.elems.getLast? ≠ some (.letter 37) := by
    simp only [SetItem.wellFormed, Bool.and_eq_true, bne_iff_ne] at h
    exact h.2
  rw [SetItem.body]
  split
  · rw [List.append_assoc, List.singleton_append, scanSet, if_neg (by decide),
      scanSet_elems hr.elems hlast 94 (fun _ => by decide)]
    rfl
  · exact scanSet_elems hr.elems hlast 91 (fun _ => by decide) rest

/-- **The matcher follows the reference** as long as the inputs are clean. By induction on the tokens, one round of
    the loop for each. -/
theorem formatLoop_clean {toks : List Token} {opened : Bool} (hwf : wellFormed opened toks = true) {fuel : Nat}
    (hfuel : toks.length < fuel) {data : Bytes} (hclean : Clean toks data) (ptr start : Nat) (caps : List (Nat × Nat)) :
    (formatLoop false fuel (text toks) data ptr (if opened then some start else none) caps).outcome =
      refMatch toks data ptr start caps := by
  induction toks generalizing opened fuel data ptr start caps with
  | nil =>
      obtain ⟨fuel, rfl⟩ : ∃ k, fuel = k + 1 := ⟨fuel - 1, by simp at hfuel; omega⟩
      have ho : opened = false := by simpa [wellFormed] using hwf
      subst ho
      rfl
  | cons t toks ih =>
      obtain ⟨fuel, rfl⟩ : ∃ k, fuel = k + 1 := ⟨fuel - 1, by simp at hfuel; omega⟩
      have hfuel' : toks.length < fuel := by simpa using hfuel
      have htext : text (t :: toks) = t.text ++ text toks := rfl
      rw [htext]
      cases t with
      | lit f =>
          simp only [wellFormed, Bool.and_eq_true] at hwf
          have hlit := formatLoop_literal false fuel (show [f].all literalByte = true by simpa using hwf.1.1) (text toks) data ptr
            (if opened then some start else none) caps
          rw [List.length_singleton, Nat.add_comm 1] at hlit
          rw [Token.text, hlit]
          cases data with
          | nil => rfl
          | cons c cs =>
              by_cases hc : f = c
              · have hp : literalPrefix false [f] (c :: cs) = true := by simp [literalPrefix, hc]
                rw [if_pos hp, refMatch, if_pos (beq_iff_eq.mpr hc)]
                exact ih hwf.2 hfuel' (hclean hc) (ptr + 1) start caps
              · have hp : ¬ literalPrefix false [f] (c :: cs) = true := by simp [literalPrefix, hc]
                rw [if_neg hp, refMatch, if_neg fun h => hc (beq_iff_eq.mp h)]
                rfl
      | letter k spec =>
          simp only [wellFormed, Bool.and_eq_true, bne_iff_ne] at hwf
          obtain ⟨hl, he, hnext⟩ := hclean
          have hitem : matchPattern data [37, k] spec = (letterItem k spec).take data :=
            (matchPattern_exact (letterItem_readable hwf.1.1 spec) hl).mpr he
          rw [Token.text, List.cons_append, List.cons_append, formatLoop_class, takeSpecifier_text hwf.1.2]
          simp only [hitem, refMatch]
          cases ht : (letterItem k spec).take data with
          | none => rfl
          | some n => exact ih hwf.2 hfuel' (hnext n ht) (ptr + n) start caps
      | set it =>
          simp only [wellFormed, Bool.and_eq_true] at hwf
          obtain ⟨hl, he, hnext⟩ := hclean
          have hitem := (matchPattern_exact (SetItem.wellFormed.readable hwf.1.1) hl).mpr he
          have hscan := scanSet_body hwf.1.1 (it.spec.text ++ text toks)
          rw [Token.text, List.append_assoc, List.cons_append, List.cons_append, formatLoop_set _ _ _ _ _ _ _ hscan,
            takeSpecifier_text hwf.1.2]
          simp only [hitem, refMatch]
          cases ht : it.take data with
          | none => rfl
          | some n => exact ih hwf.2 hfuel' (hnext n ht) (ptr + n) start caps
      | «open» =>
          simp only [wellFormed, Bool.and_eq_true, Bool.not_eq_true'] at hwf
          obtain ⟨rfl, hwf⟩ := hwf
          rw [Token.text, List.singleton_append, formatLoop_open]
          exact ih hwf hfuel' hclean ptr ptr caps
      | close =>
          simp only [wellFormed, Bool.and_eq_true] at hwf
          obtain ⟨rfl, hwf⟩ := hwf
          rw [Token.text, List.singleton_append, if_pos rfl, formatLoop_close]
          exact ih hwf hfuel' hclean ptr start _

/-! ## The main result -/

theorem length_le_text (toks : List Token) : toks.length ≤ (text toks).length := by
  induction toks with
  | nil => simp
  | cons t toks ih =>
      have ht : 1 ≤ t.text.length := by cases t <;> simp [Token.text]
      have htext : (text (t :: toks)).length = t.text.length + (text toks).length := List.length_append
      rw [htext, List.length_cons]
      omega

theorem text_eq_nil_iff (toks : List Token) : text toks = [] ↔ toks = [] := by
  constructor
  · intro h
    have := length_le_text toks
    rw [h] at this
    simpa using this
  · rintro rfl
    rfl

/-- The reference matches the empty view unless a token has to take a byte. -/
theorem refMatch_nil (toks : List Token) (ptr start : Nat) (caps : List (Nat × Nat)) :
    refMatch toks [] ptr start caps = none ↔ ∃ t ∈ toks, t.needsByte = true := by
  induction toks generalizing ptr start caps with
  | nil => simp [refMatch]
  | cons t toks ih =>
      have htake (it : SetItem) : it.take [] = if !it.spec.runZero then none else some 0 := by
        simp [SetItem.take, SetItem.run]
      rw [List.exists_mem_cons_iff]
      cases t with
      | lit f => simp [refMatch, Token.needsByte]
      | letter k spec =>
          rw [refMatch, htake, letterItem]
          cases hz : spec.runZero with
          | true => simpa [Token.needsByte, hz] using ih ptr start caps
          | false => simp [Token.needsByte, hz]
      | set it =>
          rw [refMatch, htake]
          cases hz : it.spec.runZero with
          | true => simpa [Token.needsByte, hz] using ih ptr start caps
          | false => simp [Token.needsByte, hz]
      | «open» => simpa [refMatch, Token.needsByte] using ih ptr ptr caps
      | close => simpa [refMatch, Token.needsByte] using ih ptr start (caps ++ [(start, ptr - start)])

/-- A match on a view that is not empty. -/
theorem matchString_clean {toks : List Token} (hwf : wellFormed false toks = true) {data : Bytes} (hne : data ≠ [])
    (hclean : Clean toks data) : (matchString data (text toks)).outcome = refMatch toks data 0 0 [] := by
  rw [matchString, matchStringVirtual, if_neg (by simpa using hne)]
  exact formatLoop_clean hwf (Nat.lt_succ_of_le (length_le_text toks)) hclean 0 0 []

/-- The item of a token that is one. -/
def Token.item : Token → Option SetItem
  | letter k spec => some (letterItem k spec)
  | set it => some it
  | _ => none

/-- A format of one item matches what the item takes. -/
theorem matchString_item {it : SetItem} {t : Token} (hit : t.item = some it) (hwf : wellFormed false [t] = true)
    {data : Bytes} (hne : data ≠ []) :
    it.Readable ∧ (matchString data (text [t])).outcome = (matchPattern data it.body it.spec).map fun n => (n, []) := by
  have hlen : ∃ fuel, (text [t]).length + 1 = fuel + 2 := ⟨(text [t]).length - 1, by
    have := length_le_text [t]
    simp at this
    omega⟩
  obtain ⟨fuel, hfuel⟩ := hlen
  rw [matchString, matchStringVirtual, if_neg (by simpa using hne), hfuel]
  have hend (spec : Specifier) : takeSpecifier (spec.text ++ text []) = (spec, text []) :=
    takeSpecifier_text (by cases spec; rfl)
  have htext : text [t] = t.text ++ text [] := rfl
  cases t with
  | letter k spec =>
      obtain rfl : letterItem k spec = it := Option.some.inj hit
      simp only [wellFormed, Bool.and_eq_true, bne_iff_ne] at hwf
      refine ⟨letterItem_readable hwf.1.1 spec, ?_⟩
      have hbody : (letterItem k spec).body = [37, k] := rfl
      rw [htext, Token.text, List.cons_append, List.cons_append, formatLoop_class, hend, hbody]
      simp only [letterItem]
      cases matchPattern data [37, k] spec with
      | none => rfl
      | some n => simp [text, formatLoop, Result.outcome]
  | set it' =>
      obtain rfl : it' = it := Option.some.inj hit
      simp only [wellFormed, Bool.and_eq_true] at hwf
      refine ⟨SetItem.wellFormed.readable hwf.1.1, ?_⟩
      have hscan := scanSet_body hwf.1.1 (it'.spec.text ++ text [])
      rw [htext, Token.text, List.append_assoc, List.cons_append, List.cons_append, formatLoop_set _ _ _ _ _ _ _ hscan,
        hend]
      cases matchPattern data it'.body it'.spec with
      | none => rfl
      | some n => simp [text, formatLoop, Result.outcome]
  | lit c => simp [Token.item] at hit
  | «open» => simp [Token.item] at hit
  | close => simp [Token.item] at hit

theorem refMatch_item {it : SetItem} {t : Token} (hit : t.item = some it) (data : Bytes) :
    refMatch [t] data 0 0 [] = (it.take data).map fun n => (n, []) := by
  cases t with
  | letter k spec =>
      obtain rfl : letterItem k spec = it := Option.some.inj hit
      rw [refMatch]
      cases (letterItem k spec).take data <;> simp [refMatch]
  | set it' =>
      obtain rfl : it' = it := Option.some.inj hit
      rw [refMatch]
      cases it'.take data <;> simp [refMatch]
  | lit c => simp [Token.item] at hit
  | «open» => simp [Token.item] at hit
  | close => simp [Token.item] at hit

/-- **The matcher and its reference.** On a view that is not empty they agree as long as no item the reference
    reaches meets an input on which `match_pattern` takes something else; on the empty view exactly when the format
    is empty or has to take a byte. A format of one item agrees on no other input, unless a negated set holds a
    capital letter. -/
theorem pattern_reference (toks : List Token) (hwf : wellFormed false toks = true) (data : Bytes) :
    (data ≠ [] → Clean toks data → (matchString data (text toks)).outcome = refMatch toks data 0 0 []) ∧
    (data = [] → ((matchString data (text toks)).outcome = refMatch toks data 0 0 [] ↔
      toks = [] ∨ ∃ t ∈ toks, t.needsByte = true)) ∧
    (∀ t it, toks = [t] → t.item = some it → data ≠ [] → (it.neg = false ∨ it.LettersExact data) →
      ((matchString data (text toks)).outcome = refMatch toks data 0 0 [] ↔ it.LettersExact data ∧ it.Exact data)) := by
  refine ⟨matchString_clean hwf, ?_, ?_⟩
  · rintro rfl
    rw [← refMatch_nil toks 0 0 []]
    by_cases h : toks = []
    · subst h
      simp [matchString, matchStringVirtual, text, Result.outcome, refMatch]
    · have hcode : (matchString [] (text toks)).outcome = none := by
        have hne : text toks ≠ [] := fun he => h ((text_eq_nil_iff toks).mp he)
        simp [matchString, matchStringVirtual, hne, Result.outcome]
      rw [hcode, or_iff_right h, eq_comm]
  · rintro t it rfl hit hne h
    obtain ⟨hr, hcode⟩ := matchString_item hit hwf hne
    rw [hcode, refMatch_item hit, ← matchPattern_agrees_iff hr h]
    have hinj : Function.Injective fun n : Nat => (n, ([] : List (Nat × Nat))) := fun a b h => congrArg Prod.fst h
    exact (Option.map_injective hinj).eq_iff

/-- The format `([%w_%-]+):%s*` of a header name. -/
def headerName : List Token :=
  [.open, .set ⟨false, [.letter 119, .char 95, .letter 45], ⟨true, false⟩⟩, .close, .lit 58, .letter 115 ⟨true, true⟩]

theorem pattern_reference_sample : text headerName = bytes "([%w_%-]+):%s*" ∧
    (matchString (bytes "Age: 1") (text headerName)).outcome = refMatch headerName (bytes "Age: 1") 0 0 [] := by
  refine ⟨by decide, (pattern_reference headerName (by decide) (bytes "Age: 1")).1 (by decide) ?_⟩
  have htake : SetItem.take ⟨false, [.letter 119, .char 95, .letter 45], ⟨true, false⟩⟩ (bytes "Age: 1") = some 3 := by
    decide
  have hname : SetItem.LettersExact ⟨false, [.letter 119, .char 95, .letter 45], ⟨true, false⟩⟩ (bytes "Age: 1") := by
    unfold SetItem.LettersExact
    decide +kernel
  refine ⟨hname, ⟨.inl rfl, fun h => absurd h (by decide)⟩, fun n hn => ?_⟩
  obtain rfl : 3 = n := Option.some.inj (htake.symm.trans hn)
  have hrest : (bytes "Age: 1").drop 3 = [58, 32, 49] := by decide
  rw [hrest]
  have hblank : (letterItem 115 ⟨true, true⟩).LettersExact [32, 49] := by
    unfold SetItem.LettersExact
    decide +kernel
  exact fun _ => ⟨hblank, ⟨.inl rfl, fun h => absurd h (by decide)⟩, fun _ _ => trivial⟩

/-- A set that is not negated takes the bytes that one of its elements takes. -/
theorem matchPattern_set {body : Bytes} {es : List Elem} (hes : ∀ e ∈ es, e.wellFormed = true)
    (hbody : body = es.flatMap Elem.text) (hset : (body.head? == some 94) = false) {p : UInt8 → Bool}
    (hp : ∀ c, es.any (·.takes c) = p c) (data : Bytes) : matchPattern data body ⟨true, false⟩ =
      if data.takeWhile p = [] then none else some (data.takeWhile p).length := by
  have hreads : Reads (getPattern body 0) es := by
    rw [hbody]
    exact getPattern_reads hes 0
  have hloop := matchLoop_run true hreads (data.length + 1) data (Nat.lt_succ_self _)
  rw [show (fun c => es.any (·.takes c)) = p from funext hp] at hloop
  simp only [matchPattern, hset, Bool.false_eq_true, if_false, hloop]
  by_cases hnone : data.takeWhile p = []
  · simp [hnone]
  · have hpos : (data.takeWhile p).length ≠ 0 := by simpa using hnone
    simp [hnone, hpos]

/-- **Items run on.** `%d` takes both digits of `10`, `[^/]+` takes a `/` of `a//b`, `%A` takes a letter, and `%s*`
    fails on the empty view. -/
theorem pattern_differs :
    wellFormed false [.letter 100 runOne] = true ∧
    (matchString (bytes "10") (bytes "%d")).outcome = some (2, []) ∧
    refMatch [.letter 100 runOne] (bytes "10") 0 0 [] = some (1, []) ∧
    wellFormed false [.set ⟨true, [.char 47], ⟨true, false⟩⟩] = true ∧
    (matchString (bytes "a//b") (bytes "[^/]+")).outcome = some (2, []) ∧
    refMatch [.set ⟨true, [.char 47], ⟨true, false⟩⟩] (bytes "a//b") 0 0 [] = some (1, []) ∧
    wellFormed false [.letter 65 runOne] = true ∧
    (matchString (bytes "a") (bytes "%A")).outcome = some (1, []) ∧
    refMatch [.letter 65 runOne] (bytes "a") 0 0 [] = none ∧
    (matchString [] (bytes "%s*")).outcome = none ∧
    refMatch [.letter 115 ⟨true, true⟩] [] 0 0 [] = some (0, []) := by
  decide

end Pattern
end Hin9
