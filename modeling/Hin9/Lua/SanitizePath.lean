import Hin9.Basic.PatternRef

/-!
# `Lua.SanitizePath` — the path of a request under a base directory (`lua_req.c`)

`l_hin_sanitize_path` takes the segments of a raw path one by one, refuses one that begins with a dot, and writes the base,
the segments and, for a directory, the name of the index file into a block it allocates. `none` of `sanitizeLoop` is a loop
that is still going on when its fuel is used up, `undefined` a read through the `name` that no match has written.

What the loop does is given by the segments alone. `Walk` is the grammar of the raw paths that it gets through: a byte that
no segment has keeps it where it is, with the name of the segment in front. `sanitize_path_iff` adds what the copies need.
-/

namespace Hin9
namespace Lua
namespace SanitizePath

open Pattern

/-! ## The function -/

/-- What is passed: whether the client is one, the base, the raw path and the name of the index file. -/
structure Args where
  client : Bool
  base : Option Bytes
  raw : Option Bytes
  index : Option Bytes
deriving Repr, DecidableEq

/-- A `string_t` with the text it points into: the bytes from `ptr` to the terminator. -/
structure Name where
  text : Bytes
  len : Nat
deriving Repr, DecidableEq

/-- How the loop is left: `return 0`, with `name` never written, or with `len2`, `name` and `len3`. -/
inductive Exit where
  | refused
  | undefined
  | done (len2 : Nat) (name : Name) (len3 : Nat)
deriving Repr, DecidableEq

/-- The byte behind a pointer, which is the terminator at the end of the text. -/
def first (text : Bytes) : UInt8 := text.head?.getD 0

/-- `base` and `len1`. -/
def baseOf (base : Option Bytes) : Bytes :=
  match base with
  | none | some [] => bytes "."
  | some b => if b.getLast? = some 47 then b.dropLast else b

/-- `index_file`, which is read as a C string. -/
def indexOf (index : Option Bytes) : Bytes := (index.getD (bytes "index.html")).takeWhile (· ≠ 0)

/-- The loop over the segments. `used` is a `size_t`: the -1 of a match that failed is its greatest value, and what `len2`
    becomes with it is not read again. -/
def sanitizeLoop (index : Bytes) : Nat → Bytes → Option Name → Nat → Option Exit
  | 0, _, _, _ => none
  | fuel + 1, path, name, len2 =>
      let r := matchString path (bytes "/([%w%.,_-]*)")
      let used := r.used.getD (2 ^ 64 - 1)
      let name : Option Name := match r.captures with
        | (s, n) :: _ => some ⟨path.drop s, n⟩
        | [] => name
      let path := path.drop (r.used.getD 0)
      if used ≤ 0 then some .refused
      else
        match name with
        | none => some .undefined
        | some name =>
            if first name.text = 46 then some .refused
            else
              let len2 := len2 + used
              if first path = 63 then some (.done len2 name 1)
              else if name.len = 0 then some (.done len2 ⟨index, index.length⟩ (1 + index.length))
              else if path.length ≤ 0 then some (.done len2 name 1)
              else sanitizeLoop index fuel path (some name) len2

/-- `temp_cat` at the end of what has been written: `sz` bytes of the source, whose terminator can be read, and a
    terminator. -/
def tempCat (block : Bytes × Nat) (source : Bytes) (sz : Nat) : Bytes × Nat :=
  (block.1.take block.2 ++ (source ++ [0]).take sz ++ [0], block.2 + sz)

/-- The loop from the end of the name back to its last dot: what is behind it. -/
def extension (name : Name) : Nat → Option Bytes
  | 0 => none
  | k + 1 =>
      if first (name.text.drop (k + 1)) = 46 then some ((name.text.drop (k + 2)).take (name.len - (k + 2)))
      else extension name k

/-- What is returned, with the size of the block and the bytes that were written to it. -/
structure Returned where
  size : Nat
  block : Bytes
  path : Bytes
  name : Bytes
  ext : Option Bytes
deriving Repr, DecidableEq

inductive Outcome where
  | error (text : Bytes)
  | nothing
  | undefined
  | values (r : Returned)
deriving Repr, DecidableEq

/-- The block, filled and handed to Lua as a C string. -/
def finish (base raw index : Bytes) (len2 : Nat) (name : Name) (len3 : Nat) : Returned :=
  let block := tempCat ([], 0) base base.length
  let block := tempCat block raw len2
  let block := if 1 < len3 then tempCat block index len3 else block
  { size := base.length + len2 + len3
    block := block.1
    path := block.1.takeWhile (· ≠ 0)
    name := name.text.take name.len
    ext := extension name name.len }

/-- `l_hin_sanitize_path`, whose loop has `fuel`. -/
def lHinSanitizePath (fuel : Nat) (a : Args) : Option Outcome :=
  if !a.client then some (.error (bytes "requires valid client"))
  else
    match a.raw with
    | none => some .nothing
    | some raw =>
        (sanitizeLoop (indexOf a.index) fuel raw none 0).map fun
          | .refused => .nothing
          | .undefined => .undefined
          | .done len2 name len3 => .values (finish (baseOf a.base) raw (indexOf a.index) len2 name len3)

/-! ## What a path should be -/

/-- `/`-separated segments. -/
def segments (names : List Bytes) : Bytes := (names.map (47 :: ·)).flatten

/-- **The path is sanitized**: the call ends, writes inside its block, and what it returns is the base with segments behind
    it that are not hidden. -/
def Sanitized (a : Args) : Prop :=
  ∃ fuel o, lHinSanitizePath fuel a = some o ∧ o ≠ .undefined ∧
    ∀ r, o = .values r → r.block.length ≤ r.size ∧
      ∃ names, r.path = baseOf a.base ++ segments names ∧ ∀ n ∈ names, 47 ∉ n ∧ n.head? ≠ some 46

/-- A byte of the set `[%w%.,_-]`. -/
def nameByte (c : UInt8) : Bool := isalnum c || c == 46 || c == 44 || c == 95 || c == 45

/-- A segment that the loop goes on behind. -/
structure Segment (s : Bytes) : Prop where
  bytes : ∀ c ∈ s, nameByte c = true
  shown : s.head? ≠ some 46

/-- The raw paths that the loop gets through, and whether a path is returned. Only an index file without a name can be
    copied. -/
inductive Walk (index : Bytes) : Bytes → Bool → Prop where
  | hidden (rest : Bytes) : Walk index (47 :: 46 :: rest) false
  | last {s : Bytes} (hs : Segment s) (hne : s ≠ []) : Walk index (47 :: s) true
  | query {s : Bytes} (hs : Segment s) (rest : Bytes) : Walk index (47 :: (s ++ 63 :: rest)) true
  | directory (hindex : index = []) {rest : Bytes} (hrest : ∀ c ∈ rest.head?, nameByte c = false) : Walk index (47 :: rest) true
  | next {s : Bytes} (hs : Segment s) (hne : s ≠ []) {rest : Bytes} {b : Bool} (h : Walk index (47 :: rest) b) :
      Walk index (47 :: (s ++ 47 :: rest)) b

/-! ## The match -/

theorem nameByte_slash : nameByte 47 = false := by decide

theorem nameByte_mark : nameByte 63 = false := by decide

/-- The set of a segment takes the bytes of a name, also none. -/
theorem matchPattern_name (data : Bytes) :
    matchPattern data (bytes "%w%.,_-") ⟨true, true⟩ = some (data.takeWhile nameByte).length := by
  have hes : ∀ e ∈ ([.letter 119, .letter 46, .char 44, .char 95, .char 45] : List Elem), e.wellFormed = true := by decide
  have hreads : Reads (getPattern (bytes "%w%.,_-") 0) [.letter 119, .letter 46, .char 44, .char 95, .char 45] :=
    getPattern_reads hes 0
  have htakes : (fun c => ([.letter 119, .letter 46, .char 44, .char 95, .char 45] : List Elem).any (·.takes c)) = nameByte := by
    funext c
    simp [Elem.takes, letterHas, capitalLetter, nameByte, Bool.or_assoc]
  have hloop := matchLoop_run true hreads (data.length + 1) data (Nat.lt_succ_self _)
  rw [htakes] at hloop
  have hneg : ((bytes "%w%.,_-").head? == some 94) = false := by decide
  simp only [matchPattern, hneg, Bool.false_eq_true, if_false, hloop]
  simp

theorem drop_run (p : UInt8 → Bool) (data : Bytes) : data.drop (data.takeWhile p).length = data.dropWhile p := by
  have h : (data.takeWhile p ++ data.dropWhile p).drop (data.takeWhile p).length = data.dropWhile p := List.drop_left' rfl
  rwa [List.takeWhile_append_dropWhile] at h

/-- **One segment**: a slash, and the bytes of a name behind it. -/
theorem matchString_name (c : UInt8) (rest : Bytes) : matchString (c :: rest) (bytes "/([%w%.,_-]*)") =
    if c = 47 then ⟨some (1 + (rest.takeWhile nameByte).length), [(1, (rest.takeWhile nameByte).length)]⟩
    else ⟨none, []⟩ := by
  have hscan : scanSet 91 (bytes "%w%.,_-" ++ [93, 42, 41]) = some (bytes "%w%.,_-", [42, 41]) := by decide
  have hs : takeSpecifier [42, 41] = (⟨true, true⟩, [41]) := rfl
  show formatLoop false (1 + 13) ([47] ++ (40 :: 91 :: (bytes "%w%.,_-" ++ [93, 42, 41]))) (c :: rest) 0 none [] = _
  rw [show 1 + 13 = ([47] : Bytes).length + 13 from rfl, formatLoop_literal false 13 (by decide)]
  by_cases hc : c = 47
  · have hpre : literalPrefix false [47] (47 :: rest) = true := (literalPrefix_false_iff _ _).mpr ⟨rest, rfl⟩
    subst hc
    rw [if_pos hpre, if_pos rfl, formatLoop_open,
      formatLoop_set _ _ _ _ _ _ _ hscan, hs]
    dsimp only
    rw [matchPattern_name]
    dsimp only
    rw [formatLoop_close, formatLoop_end]
    simp
  · have hpre : ¬ [47] <+: c :: rest := by
      rintro ⟨t, ht⟩
      exact hc (List.cons.inj ht).1.symm
    rw [if_neg fun h => hpre ((literalPrefix_false_iff _ _).mp h), if_neg hc]

/-! ## The loop -/

/-- What the loop does with a segment. -/
theorem loop_slash (index : Bytes) (fuel : Nat) (rest : Bytes) (name : Option Name) (len2 : Nat) :
    sanitizeLoop index (fuel + 1) (47 :: rest) name len2 =
      if first rest = 46 then some .refused
      else if first (rest.dropWhile nameByte) = 63 then
        some (.done (len2 + (1 + (rest.takeWhile nameByte).length)) ⟨rest, (rest.takeWhile nameByte).length⟩ 1)
      else if (rest.takeWhile nameByte).length = 0 then
        some (.done (len2 + (1 + (rest.takeWhile nameByte).length)) ⟨index, index.length⟩ (1 + index.length))
      else if (rest.dropWhile nameByte).length ≤ 0 then
        some (.done (len2 + (1 + (rest.takeWhile nameByte).length)) ⟨rest, (rest.takeWhile nameByte).length⟩ 1)
      else
        sanitizeLoop index fuel (rest.dropWhile nameByte) (some ⟨rest, (rest.takeWhile nameByte).length⟩)
          (len2 + (1 + (rest.takeWhile nameByte).length)) := by
  have hdrop : (47 :: rest).drop (1 + (rest.takeWhile nameByte).length) = rest.dropWhile nameByte := by
    rw [Nat.add_comm, List.drop_succ_cons, drop_run]
  rw [sanitizeLoop, matchString_name, if_pos rfl]
  dsimp only [Option.getD_some]
  rw [if_neg (by omega)]
  simp only [hdrop]
  rfl

/-- The first match has to write the name. -/
theorem loop_unwritten (index : Bytes) (fuel : Nat) {path : Bytes} (hpath : ∀ rest, path ≠ 47 :: rest) (len2 : Nat) :
    sanitizeLoop index (fuel + 1) path none len2 = some .undefined := by
  cases path with
  | nil => rfl
  | cons c rest =>
      have hc : c ≠ 47 := fun hc => hpath rest (by rw [hc])
      rw [sanitizeLoop, matchString_name, if_neg hc]
      rfl

/-- **A byte that no segment has.** The match fails, what it returns is not taken for that, and nothing moves. -/
theorem loop_stuck (index : Bytes) (fuel : Nat) {c : UInt8} {rest : Bytes} (hslash : c ≠ 47) (hmark : c ≠ 63) {name : Name}
    (hshown : first name.text ≠ 46) (hlen : name.len ≠ 0) (len2 : Nat) :
    sanitizeLoop index fuel (c :: rest) (some name) len2 = none := by
  induction fuel generalizing len2 with
  | zero => rfl
  | succ fuel ih =>
      rw [sanitizeLoop, matchString_name, if_neg hslash]
      have hfirst : first (c :: rest) ≠ 63 := hmark
      rw [if_neg (by decide)]
      simp only [Option.getD_none, List.drop_zero]
      rw [if_neg hshown, if_neg hfirst, if_neg hlen, if_neg (by simp)]
      exact ih _

/-- The run at the front of a text, and what stops it. -/
theorem run_segment {rest : Bytes} (hshown : first rest ≠ 46) : Segment (rest.takeWhile nameByte) := by
  refine ⟨fun c hc => List.mem_takeWhile_imp hc, ?_⟩
  cases rest with
  | nil => exact fun h => absurd h.symm (Option.some_ne_none _)
  | cons c cs =>
      intro h
      by_cases hc : nameByte c = true
      · rw [List.takeWhile_cons_of_pos hc, List.head?_cons] at h
        exact hshown (Option.some.inj h)
      · rw [List.takeWhile_cons_of_neg hc] at h
        exact absurd h.symm (Option.some_ne_none _)

theorem takeWhile_segment {s rest : Bytes} (hs : ∀ c ∈ s, nameByte c = true) (hrest : ∀ c ∈ rest.head?, nameByte c = false) :
    (s ++ rest).takeWhile nameByte = s ∧ (s ++ rest).dropWhile nameByte = rest := by
  have hstop : rest.takeWhile nameByte = [] ∧ rest.dropWhile nameByte = rest := by
    cases rest with
    | nil => exact ⟨rfl, rfl⟩
    | cons c cs =>
        have hc : ¬ nameByte c = true := Bool.not_eq_true _ ▸ hrest c rfl
        exact ⟨List.takeWhile_cons_of_neg hc, List.dropWhile_cons_of_neg hc⟩
  rw [List.takeWhile_append_of_pos hs, List.dropWhile_append_of_pos hs, hstop.1, hstop.2, List.append_nil]
  exact ⟨rfl, rfl⟩

/-- A segment in front of something is hidden by neither. -/
theorem first_shown {s rest : Bytes} (hs : Segment s) (hrest : first rest ≠ 46) : first (s ++ rest) ≠ 46 := by
  cases s with
  | nil => exact hrest
  | cons c cs => exact fun h => hs.shown (congrArg some h)

/-- What a text begins with when it is not empty. -/
theorem eq_of_first {text : Bytes} {c : UInt8} (hc : c ≠ 0) (h : first text = c) : ∃ rest, text = c :: rest := by
  cases text with
  | nil => exact absurd h.symm hc
  | cons x rest => exact ⟨rest, by rw [← h]; rfl⟩

/-- Segments only. -/
def Shown (names : List Bytes) : Prop := ∀ n ∈ names, Segment n

theorem Segment.lacks {s : Bytes} (hs : Segment s) {c : UInt8} (hc : nameByte c = false) : c ∉ s := fun h =>
  absurd (hs.bytes c h) (by rw [hc]; exact Bool.false_ne_true)

theorem shown_nil : Shown [] := fun _ h => absurd h List.not_mem_nil

theorem shown_cons {s : Bytes} (hs : Segment s) {names : List Bytes} (h : Shown names) : Shown (s :: names) := by
  intro n hn
  rcases List.mem_cons.mp hn with rfl | hn
  · exact hs
  · exact h n hn

theorem segments_cons (s : Bytes) (names : List Bytes) : segments (s :: names) = 47 :: s ++ segments names := rfl

theorem Walk.slash {index path : Bytes} {b : Bool} (h : Walk index path b) : ∃ rest, path = 47 :: rest := by
  cases h with
  | hidden => exact ⟨_, rfl⟩
  | last => exact ⟨_, rfl⟩
  | query => exact ⟨_, rfl⟩
  | directory => exact ⟨_, rfl⟩
  | next => exact ⟨_, rfl⟩

/-- How the loop can be left: without a path, or with the length of what it took, and with the name of an index file to be
    copied unless the path is a walk that needs none. -/
def LeftWith (index path : Bytes) (len2 : Nat) : Exit → Prop
  | .refused => Walk index path false
  | .undefined => True
  | .done l _ len3 => (∃ k, l = len2 + k ∧ k ≤ path.length) ∧
      (len3 = 1 + index.length ∧ index ≠ [] ∨ len3 = 1 ∧ Walk index path true)

/-- **What the loop gets through is a walk.** -/
theorem loop_walk {index : Bytes} {fuel : Nat} {path : Bytes} {name : Option Name} {len2 : Nat} {e : Exit}
    (h : sanitizeLoop index fuel path name len2 = some e) (hname : ∀ nm, name = some nm →
      first nm.text ≠ 46 ∧ nm.len ≠ 0 ∧ first path ≠ 63 ∧ path ≠ []) : LeftWith index path len2 e := by
  induction fuel generalizing path name len2 with
  | zero => exact absurd h.symm (Option.some_ne_none e)
  | succ fuel ih =>
      by_cases hslash : ∃ rest, path = 47 :: rest
      swap
      · -- no segment: the name is not written, or the loop is stuck
        have hpath : ∀ rest, path ≠ 47 :: rest := fun rest hr => hslash ⟨rest, hr⟩
        cases name with
        | none =>
            rw [loop_unwritten index fuel hpath] at h
            rw [← Option.some.inj h]
            trivial
        | some nm =>
            obtain ⟨hshown, hlen, hmark, hne⟩ := hname nm rfl
            cases path with
            | nil => exact absurd rfl hne
            | cons c rest =>
                have hc : c ≠ 47 := fun hc => hpath rest (by rw [hc])
                rw [loop_stuck index (fuel + 1) hc hmark hshown hlen] at h
                exact absurd h.symm (Option.some_ne_none e)
      obtain ⟨rest, rfl⟩ := hslash
      rw [loop_slash] at h
      have hsplit : rest.takeWhile nameByte ++ rest.dropWhile nameByte = rest := List.takeWhile_append_dropWhile
      have hlen := congrArg List.length hsplit
      rw [List.length_append] at hlen
      by_cases hdot : first rest = 46
      · obtain ⟨rest', rfl⟩ := eq_of_first (by decide) hdot
        rw [if_pos hdot] at h
        rw [← Option.some.inj h]
        exact .hidden rest'
      have hs := run_segment hdot
      have hk : 1 + (rest.takeWhile nameByte).length ≤ (47 :: rest).length := by
        rw [List.length_cons]
        omega
      rw [if_neg hdot] at h
      by_cases hmark : first (rest.dropWhile nameByte) = 63
      · obtain ⟨rest', hrest'⟩ := eq_of_first (by decide) hmark
        rw [if_pos hmark] at h
        rw [← Option.some.inj h]
        refine ⟨⟨_, rfl, hk⟩, Or.inr ⟨rfl, ?_⟩⟩
        rw [← hsplit, hrest']
        exact .query hs rest'
      rw [if_neg hmark] at h
      by_cases hempty : (rest.takeWhile nameByte).length = 0
      · have hnil := List.eq_nil_of_length_eq_zero hempty
        rw [if_pos hempty] at h
        rw [← Option.some.inj h]
        refine ⟨⟨_, rfl, hk⟩, ?_⟩
        by_cases hindex : index = []
        · refine Or.inr ⟨by rw [hindex]; rfl, .directory hindex ?_⟩
          rw [hnil, List.nil_append] at hsplit
          exact hsplit ▸ head_dropWhile nameByte rest
        · exact Or.inl ⟨rfl, hindex⟩
      have hne : rest.takeWhile nameByte ≠ [] := fun h0 => hempty (by rw [h0]; rfl)
      rw [if_neg hempty] at h
      by_cases hend : (rest.dropWhile nameByte).length ≤ 0
      · have hnil := List.eq_nil_of_length_eq_zero (Nat.le_zero.mp hend)
        rw [if_pos hend] at h
        rw [← Option.some.inj h]
        refine ⟨⟨_, rfl, hk⟩, Or.inr ⟨rfl, ?_⟩⟩
        rw [hnil, List.append_nil] at hsplit
        rw [hsplit] at hs hne
        exact .last hs hne
      rw [if_neg hend] at h
      -- the next segment
      have hafter : rest.dropWhile nameByte ≠ [] := fun h0 => hend (by rw [h0]; exact Nat.le_refl 0)
      have hnext := ih h (fun nm hnm => by
        rw [← Option.some.inj hnm]
        exact ⟨hdot, hempty, hmark, hafter⟩)
      have hwalk : ∀ b, Walk index (rest.dropWhile nameByte) b → Walk index (47 :: rest) b := by
        intro b hb
        obtain ⟨rest', hrest'⟩ := hb.slash
        rw [← hsplit, hrest']
        rw [hrest'] at hb
        exact .next hs hne hb
      cases e with
      | refused => exact hwalk false hnext
      | undefined => trivial
      | done l nm len3 =>
          obtain ⟨⟨k, hl, hle⟩, hor⟩ := hnext
          refine ⟨⟨1 + (rest.takeWhile nameByte).length + k, by omega, ?_⟩, ?_⟩
          · rw [List.length_cons]
            omega
          · exact hor.imp id fun ⟨h1, hw⟩ => ⟨h1, hwalk true hw⟩

/-- **A walk is got through**, and what it returns are its segments. -/
theorem walk_loop {index path : Bytes} {b : Bool} (h : Walk index path b) (name : Option Name) (len2 : Nat) :
    ∃ fuel, (b = false → sanitizeLoop index fuel path name len2 = some .refused) ∧
      (b = true → ∃ k nm, sanitizeLoop index fuel path name len2 = some (.done (len2 + k) nm 1) ∧
        ∃ names, path.take k = segments names ∧ Shown names) := by
  induction h generalizing name len2 with
  | hidden rest =>
      refine ⟨1, fun _ => ?_, fun h => absurd h Bool.false_ne_true⟩
      rw [loop_slash]
      exact if_pos rfl
  | @last s hs hne =>
      obtain ⟨htake, hdrop⟩ := @takeWhile_segment s [] hs.bytes (fun c hc => absurd hc.symm (Option.some_ne_none c))
      have hfirst := @first_shown s [] hs (by decide)
      rw [List.append_nil] at htake hdrop hfirst
      refine ⟨1, fun h => absurd h.symm Bool.false_ne_true, fun _ => ⟨1 + s.length, ⟨s, s.length⟩, ?_, [s], ?_, ?_⟩⟩
      · rw [loop_slash, htake, hdrop, if_neg hfirst, if_neg (by decide), if_neg (by simpa using hne),
          if_pos (Nat.le_of_eq List.length_nil)]
      · rw [Nat.add_comm, List.take_succ_cons, List.take_length]
        simp [segments]
      · exact shown_cons hs shown_nil
  | @query s hs rest =>
      obtain ⟨htake, hdrop⟩ := @takeWhile_segment s (63 :: rest) hs.bytes (fun c hc => by
        rw [← Option.some.inj hc]
        exact nameByte_mark)
      refine ⟨1, fun h => absurd h.symm Bool.false_ne_true, fun _ =>
        ⟨1 + s.length, ⟨s ++ 63 :: rest, s.length⟩, ?_, [s], ?_, shown_cons hs shown_nil⟩⟩
      · rw [loop_slash, htake, hdrop, if_neg (first_shown hs (by show (63 : UInt8) ≠ 46; decide))]
        exact if_pos rfl
      · rw [Nat.add_comm, List.take_succ_cons, List.take_left]
        simp [segments]
  | @directory hindex rest hrest =>
      obtain ⟨htake, hdrop⟩ := @takeWhile_segment [] rest (fun c hc => absurd hc List.not_mem_nil) hrest
      rw [List.nil_append] at htake hdrop
      have hdot : first rest ≠ 46 := by
        intro h
        obtain ⟨rest', rfl⟩ := eq_of_first (by decide) h
        exact absurd (hrest 46 rfl) (by decide)
      have hnames : (47 :: rest).take 1 = segments [[]] := rfl
      have hshown : Shown [[]] := shown_cons ⟨fun c hc => absurd hc List.not_mem_nil, by simp⟩ shown_nil
      refine ⟨1, fun h => absurd h.symm Bool.false_ne_true, fun _ => ?_⟩
      by_cases hmark : first rest = 63
      · refine ⟨1, ⟨rest, 0⟩, ?_, [[]], hnames, hshown⟩
        rw [loop_slash, htake, hdrop, if_neg hdot, if_pos hmark]
        rfl
      · refine ⟨1, ⟨index, index.length⟩, ?_, [[]], hnames, hshown⟩
        rw [loop_slash, htake, hdrop, if_neg hdot, if_neg hmark, if_pos List.length_nil, hindex]
        rfl
  | @next s hs hne rest b h ih =>
      obtain ⟨htake, hdrop⟩ := @takeWhile_segment s (47 :: rest) hs.bytes (fun c hc => by
        rw [← Option.some.inj hc]
        exact nameByte_slash)
      obtain ⟨fuel, hfalse, htrue⟩ := ih (some ⟨s ++ 47 :: rest, s.length⟩) (len2 + (1 + s.length))
      have hstep : sanitizeLoop index (fuel + 1) (47 :: (s ++ 47 :: rest)) name len2 =
          sanitizeLoop index fuel (47 :: rest) (some ⟨s ++ 47 :: rest, s.length⟩) (len2 + (1 + s.length)) := by
        rw [loop_slash, htake, hdrop, if_neg (first_shown hs (by show (47 : UInt8) ≠ 46; decide)),
          if_neg (by show ¬ (47 : UInt8) = 63; decide), if_neg (by simpa using hne), if_neg (by simp)]
      refine ⟨fuel + 1, fun hb => hstep.trans (hfalse hb), fun hb => ?_⟩
      obtain ⟨k, nm, hloop, names, hnames, hshown⟩ := htrue hb
      refine ⟨1 + s.length + k, nm, ?_, s :: names, ?_, shown_cons hs hshown⟩
      · rw [hstep, hloop, Nat.add_assoc]
      · rw [segments_cons, ← hnames, show 1 + s.length + k = (s.length + k) + 1 by omega, List.take_succ_cons,
          List.take_length_add_append, List.cons_append]

/-! ## The block -/

/-- A copy writes its bytes and a terminator behind what is there. -/
theorem tempCat_eq (text source : Bytes) (tail : Bytes) {sz : Nat} (hsz : sz ≤ source.length) :
    tempCat (text ++ tail, text.length) source sz = (text ++ source.take sz ++ [0], (text ++ source.take sz).length) := by
  unfold tempCat
  rw [List.take_left, List.take_append_of_le_length hsz, List.length_append, List.length_take, Nat.min_eq_left hsz]

/-- What is in the block when no name is copied, and one byte more than its size when one is. -/
theorem finish_block {base raw index : Bytes} {len2 : Nat} (hlen : len2 ≤ raw.length) (name : Name) :
    (finish base raw index len2 name 1).block = base ++ raw.take len2 ++ [0] ∧
      (index ≠ [] → (finish base raw index len2 name (1 + index.length)).block.length =
        (finish base raw index len2 name (1 + index.length)).size + 1) := by
  have hbase := tempCat_eq [] base [] (Nat.le_refl base.length)
  rw [List.nil_append, List.take_length, List.nil_append, List.length_nil] at hbase
  have hraw := tempCat_eq base raw [0] hlen
  constructor
  · simp only [finish, hbase, hraw]
    exact congrArg Prod.fst (if_neg (Nat.lt_irrefl 1))
  · intro hindex
    have hlen3 : 1 < 1 + index.length := by
      have := List.length_pos_of_ne_nil hindex
      omega
    simp only [finish, hbase, hraw]
    rw [if_pos hlen3]
    simp only [tempCat, List.length_append, List.length_take, List.length_singleton]
    omega

theorem path_eq (base raw index : Bytes) (len2 : Nat) (name : Name) (len3 : Nat) :
    (finish base raw index len2 name len3).path = (finish base raw index len2 name len3).block.takeWhile (· ≠ 0) := rfl

/-- A path that goes on behind the base has no NUL in the base. -/
theorem finish_path {base raw index : Bytes} {len2 : Nat} {name : Name} {rest : Bytes}
    (h : (finish base raw index len2 name 1).path = base ++ rest) : 0 ∉ base := by
  intro h0
  have hmem : 0 ∈ (finish base raw index len2 name 1).block.takeWhile (· ≠ 0) := by
    rw [← path_eq, h]
    exact List.mem_append_left rest h0
  exact absurd (List.mem_takeWhile_imp hmem) (by decide)

/-! ## The result -/

theorem segments_noNul {names : List Bytes} (h : Shown names) : 0 ∉ segments names := by
  intro h0
  obtain ⟨l, hl, hmem⟩ := List.mem_flatten.mp h0
  obtain ⟨n, hn, rfl⟩ := List.mem_map.mp hl
  rcases List.mem_cons.mp hmem with h0 | h0
  · exact absurd h0 (by decide)
  · exact (h n hn).lacks (by decide) h0

/-- **When a path is sanitized**: the raw path has to be a walk, or the loop does not end or copies the name of an index file
with one terminator too many; and a base with a NUL in it is cut there. -/
theorem sanitize_path_iff (a : Args) : Sanitized a ↔
    a.client = true → ∀ raw, a.raw = some raw →
      Walk (indexOf a.index) raw false ∨ Walk (indexOf a.index) raw true ∧ 0 ∉ baseOf a.base := by
  constructor
  · rintro ⟨fuel, o, ho, hdef, hvalues⟩ hclient raw hraw
    unfold lHinSanitizePath at ho
    rw [hclient, hraw] at ho
    obtain ⟨e, he, heo⟩ := Option.map_eq_some_iff.mp ho
    have hwalk := loop_walk he (fun nm hnm => absurd hnm.symm (Option.some_ne_none nm))
    cases e with
    | refused => exact Or.inl hwalk
    | undefined => exact absurd heo.symm hdef
    | done len2 name len3 =>
        obtain ⟨hsize, names, hpath, -⟩ := hvalues _ heo.symm
        obtain ⟨⟨k, hk, hle⟩, ⟨rfl, hindex⟩ | ⟨rfl, hw⟩⟩ := hwalk
        · have hblock := (@finish_block (baseOf a.base) raw (indexOf a.index) len2 (by omega) name).2 hindex
          omega
        · exact Or.inr ⟨hw, finish_path hpath⟩
  · intro h
    by_cases hclient : a.client = true
    swap
    · refine ⟨0, .error (bytes "requires valid client"), ?_, by decide, fun r hr => absurd hr (by simp)⟩
      unfold lHinSanitizePath
      rw [Bool.eq_false_iff.mpr hclient]
      rfl
    cases hraw : a.raw with
    | none =>
        refine ⟨0, .nothing, ?_, by decide, fun r hr => absurd hr (by simp)⟩
        unfold lHinSanitizePath
        rw [hclient, hraw]
        rfl
    | some raw =>
        rcases h hclient raw hraw with hw | ⟨hw, hbase⟩
        · obtain ⟨fuel, hfalse, -⟩ := walk_loop hw none 0
          refine ⟨fuel, .nothing, ?_, by decide, fun r hr => absurd hr (by simp)⟩
          unfold lHinSanitizePath
          rw [hclient, hraw]
          dsimp only
          rw [hfalse rfl]
          rfl
        · obtain ⟨fuel, -, htrue⟩ := walk_loop hw none 0
          obtain ⟨k, nm, hloop, names, hnames, hshown⟩ := htrue rfl
          obtain ⟨⟨k', hk', hle⟩, -⟩ := loop_walk hloop (fun nm hnm => absurd hnm.symm (Option.some_ne_none nm))
          rw [Nat.add_left_cancel hk'] at hloop hnames
          rw [Nat.zero_add] at hloop
          obtain ⟨hblock, -⟩ := @finish_block (baseOf a.base) raw (indexOf a.index) k' hle nm
          refine ⟨fuel, .values (finish (baseOf a.base) raw (indexOf a.index) k' nm 1), ?_, by simp, ?_⟩
          · unfold lHinSanitizePath
            rw [hclient, hraw]
            dsimp only
            rw [hloop]
            rfl
          · intro r hr
            rw [← Outcome.values.inj hr]
            refine ⟨?_, names, ?_, fun n hn => ⟨(hshown n hn).lacks nameByte_slash, (hshown n hn).shown⟩⟩
            · rw [hblock, List.length_append, List.length_append, List.length_take, Nat.min_eq_left hle]
              exact Nat.le_refl _
            · have hplain : ∀ c ∈ baseOf a.base ++ segments names, decide (c ≠ 0) = true := by
                intro c hc
                rw [decide_eq_true_eq]
                rintro rfl
                exact (List.mem_append.mp hc).elim hbase (segments_noNul hshown)
              rw [path_eq, hblock, hnames, List.takeWhile_append_of_pos hplain]
              exact List.append_nil _

/-- A directory asked for with the usual index file, and a name with a space in it. -/
theorem sanitize_path_fails :
    ¬ Sanitized ⟨true, some (bytes "htdocs"), some (bytes "/"), none⟩ ∧
      ¬ Sanitized ⟨true, some (bytes "htdocs"), some (bytes "/a b"), none⟩ := by
  constructor
  · rintro ⟨fuel, o, ho, -, hvalues⟩
    cases fuel with
    | zero => exact absurd ho.symm (Option.some_ne_none o)
    | succ fuel =>
        have hrun : lHinSanitizePath (fuel + 1) ⟨true, some (bytes "htdocs"), some (bytes "/"), none⟩ =
            some (.values (finish (bytes "htdocs") (bytes "/") (bytes "index.html") 1 ⟨bytes "index.html", 10⟩ 11)) := rfl
        rw [hrun] at ho
        exact absurd (hvalues _ (Option.some.inj ho).symm).1 (by decide)
  · rintro ⟨fuel, o, ho, -, -⟩
    have hrun : lHinSanitizePath fuel ⟨true, some (bytes "htdocs"), some (bytes "/a b"), none⟩ = none := by
      cases fuel with
      | zero => rfl
      | succ fuel =>
          have hstep : sanitizeLoop (bytes "index.html") (fuel + 1) (bytes "/a b") none 0 =
              sanitizeLoop (bytes "index.html") fuel (32 :: bytes "b") (some ⟨bytes "a b", 1⟩) 2 := rfl
          show (sanitizeLoop (bytes "index.html") (fuel + 1) (bytes "/a b") none 0).map _ = none
          rw [hstep, loop_stuck _ _ (by decide) (by decide) (by decide) (by decide)]
          rfl
    rw [hrun] at ho
    exact absurd ho.symm (Option.some_ne_none o)

end SanitizePath
end Lua
end Hin9
