import Hin9.Http.PostLength
import Hin9.Http.ProxyRequest

/-!
# `Http.ForwardedLength` — the length of a body here and at the upstream server (`httpd_head.c`, `httpd_read.c`, `rproxy.c`)

A head is read twice: `httpd_parse_headers` settles which bytes behind it are its body, and `hin_rproxy_send` reads the
lines again and forwards a length of its own. The first pass looks at `Content-Length` only in a `POST` and in one spelling,
the second one in every request and in every spelling, and the number is read from memory. `forwarded_length_iff` says for
which heads the two lengths are the same.
-/

namespace Hin9
namespace Http

open Pattern

/-! ## What the upstream server is told -/

/-- `http->headers` as `httpd_client_read_callback` sets it, and what stands behind it in memory: the head, and the bytes of
    the body that have been read together with it. -/
def headersView (http : RequestFields) (data memory : Bytes) (used : Nat) : Bytes × Bytes :=
  let left : Int := data.length - used
  let consume : Int := if http.method &&& HIN_METHOD_POST = 0 then 0 else min left http.postSz
  let len := (used + consume).toNat
  ((data ++ memory).take len, (data ++ memory).drop len)

/-- The length that is forwarded. -/
def PassedOn.length (p : PassedOn) : Int := (p.body.map Prod.fst).getD 0

/-- The length of the body on the connection of the client. -/
def RequestFields.bodyLength (http : RequestFields) : Int := if http.method &&& HIN_METHOD_POST = 0 then 0 else http.postSz

/-! ## Lines and where they stand -/

/-- The lines of a head, each with what stands in memory from its start on. -/
def headTexts (memory : Bytes) : Nat → Source → Option (List (Bytes × Bytes) × Source)
  | 0, _ => none
  | fuel + 1, s =>
      (hinFindLine (memory.headD 0) s).bind fun r =>
        if r.1 = [] then some ([], r.2)
        else (headTexts memory fuel r.2).map fun q => ((r.1, s.data ++ memory) :: q.1, q.2)

/-- The number behind the name of a `Content-Length` line, as far as memory goes. -/
def numberBehind (text : Bytes × Bytes) : Int := atoi (text.2.drop 15)

/-- The last line named `Content-Length`, however it is spelled. -/
def lastNamed (texts : List (Bytes × Bytes)) : Option (Bytes × Bytes) :=
  (texts.filter fun text => named contentLength text.1).getLast?

/-- In a `POST` without chunks, the last `Content-Length` is in the spelling that is read here, or its number is that of the
    last one that is; in other requests, its number is not positive. -/
def LengthsAgree (method : Option UInt32) (texts : List (Bytes × Bytes)) : Prop :=
  if method = some HIN_METHOD_POST ∧ (texts.any fun text => asksChunked text.1) = false then
    ∀ text ∈ lastNamed texts, readsPostLength text.1 = true ∨
      ∃ last, lastRead (texts.map Prod.fst) = some last ∧ max (numberBehind text) 0 = max (postLength last) 0
  else ∀ text ∈ lastNamed texts, numberBehind text ≤ 0

/-! ## One memory, two views -/

theorem headTexts_lines (memory : Bytes) (fuel : Nat) (s : Source) :
    cgiLines (memory.headD 0) fuel s = (headTexts memory fuel s).map fun q => (q.1.map Prod.fst, q.2) := by
  induction fuel generalizing s with
  | zero => rfl
  | succ fuel ih =>
      rw [cgiLines, headTexts]
      cases hinFindLine (memory.headD 0) s with
      | none => rfl
      | some r =>
          rw [Option.bind_some, Option.bind_some, ih]
          by_cases hblank : r.1 = []
          · rw [if_pos hblank, if_pos hblank]
            rfl
          · rw [if_neg hblank, if_neg hblank, Option.map_map, Option.map_map]
            rfl

theorem hinFindLine_len {behind : UInt8} {s next : Source} {line : Bytes} (h : hinFindLine behind s = some (line, next)) :
    next.len < s.len := by
  unfold hinFindLine at h
  split at h
  · exact absurd h (by simp)
  rename_i hinside
  rw [Bool.not_eq_true] at hinside
  have hlen : s.len = s.data.length := by
    unfold Source.len
    rw [if_neg (by simp [hinside])]
  split at h
  · rename_i i hi
    have hbound := (List.findIdx?_eq_some_iff_getElem.mp hi).1
    obtain ⟨-, rfl⟩ := Prod.mk.inj (Option.some.inj h)
    rw [hlen]
    show ((s.data.drop (i + 1)).length : Int) < _
    rw [List.length_drop]
    omega
  · split at h
    · obtain ⟨-, rfl⟩ := Prod.mk.inj (Option.some.inj h)
      rw [hlen]
      show (-1 : Int) < _
      omega
    · exact absurd h (by simp)

/-- The view of the first `n` bytes of memory. -/
def viewOf (n : Nat) (mem : Bytes) : Source := { data := mem.take n }

/-- **A line is found by the first line feed in memory**, when that is in the view or the byte behind it. -/
theorem hinFindLine_viewOf (mem : Bytes) (n : Nat) : hinFindLine ((mem.drop n).headD 0) (viewOf n mem) =
    (mem.findIdx? (· == LF)).bind fun i =>
      if i < n then some (dropCR (mem.take i), viewOf (n - (i + 1)) (mem.drop (i + 1)))
      else if i = n then some (dropCR (mem.take i), { data := [], beyond := true }) else none := by
  unfold hinFindLine viewOf
  rw [if_neg (by simp)]
  dsimp only
  cases hfind : mem.findIdx? (· == LF) with
  | none =>
      have hno : ∀ c ∈ mem, c ≠ LF := by
        intro c hc
        simpa using List.findIdx?_eq_none_iff.mp hfind c hc
      have hnone : (mem.take n).findIdx? (· == LF) = none :=
        List.findIdx?_eq_none_iff.mpr fun c hc => by simpa using hno c (List.mem_of_mem_take hc)
      have hbehind : (mem.drop n).headD 0 ≠ LF := by
        cases hd : mem.drop n with
        | nil => decide
        | cons c cs => exact hno c (List.mem_of_mem_drop (hd ▸ List.mem_cons_self))
      rw [hnone]
      simp only [if_neg hbehind, Option.bind_none]
  | some i =>
      obtain ⟨hi, hlf, hbefore⟩ := List.findIdx?_eq_some_iff_getElem.mp hfind
      rw [Option.bind_some]
      by_cases hlt : i < n
      · have htake : (mem.take n).findIdx? (· == LF) = some i := by
          refine List.findIdx?_eq_some_iff_getElem.mpr ⟨by rw [List.length_take]; omega, ?_, ?_⟩
          · rw [List.getElem_take]
            exact hlf
          · intro j hj
            rw [List.getElem_take]
            exact hbefore j hj
        rw [htake, if_pos hlt]
        simp only [List.take_take, min_eq_left (Nat.le_of_lt hlt), List.drop_take]
      · have hnone : (mem.take n).findIdx? (· == LF) = none := by
          refine List.findIdx?_eq_none_iff.mpr fun c hc => ?_
          obtain ⟨j, hj, rfl⟩ := List.getElem_of_mem hc
          rw [List.getElem_take]
          have hjn : j < n := by
            rw [List.length_take] at hj
            omega
          simpa using hbefore j (by omega)
        rw [hnone, if_neg hlt]
        dsimp only
        by_cases heq : i = n
        · have hbehind : (mem.drop n).headD 0 = LF := by
            rw [← heq, List.drop_eq_getElem_cons hi, List.headD_cons]
            simpa using hlf
          rw [if_pos hbehind, if_pos heq, heq]
        · have hbehind : (mem.drop n).headD 0 ≠ LF := by
            have hn : n < mem.length := by omega
            rw [List.drop_eq_getElem_cons hn, List.headD_cons]
            simpa using hbefore n (by omega)
          rw [if_neg hbehind, if_neg heq]

/-- What is left behind the blank line is shorter. -/
theorem headTexts_len {memory : Bytes} {fuel : Nat} {s rest : Source} {texts : List (Bytes × Bytes)}
    (h : headTexts memory fuel s = some (texts, rest)) : rest.len < s.len := by
  induction fuel generalizing s texts with
  | zero => exact absurd h (by simp [headTexts])
  | succ fuel ih =>
      obtain ⟨⟨line, next⟩, hfind, h⟩ := Option.bind_eq_some_iff.mp h
      have hnext : next.len < s.len := hinFindLine_len hfind
      by_cases hblank : line = []
      · rw [if_pos hblank] at h
        obtain ⟨rfl, rfl⟩ := Prod.mk.inj (Option.some.inj h)
        exact hnext
      · rw [if_neg hblank] at h
        obtain ⟨⟨more, rest'⟩, hmore, heq⟩ := Option.map_eq_some_iff.mp h
        obtain ⟨rfl, rfl⟩ := Prod.mk.inj heq
        exact (ih hmore).trans hnext

theorem headTexts_viewOf (mem : Bytes) (n fuel : Nat) : headTexts (mem.drop n) (fuel + 1) (viewOf n mem) =
    (mem.findIdx? (· == LF)).bind fun i =>
      if i < n then
        if dropCR (mem.take i) = [] then some ([], viewOf (n - (i + 1)) (mem.drop (i + 1)))
        else (headTexts ((mem.drop (i + 1)).drop (n - (i + 1))) fuel (viewOf (n - (i + 1)) (mem.drop (i + 1)))).map
          fun q => ((dropCR (mem.take i), mem) :: q.1, q.2)
      else if i = n ∧ dropCR (mem.take i) = [] then some ([], { data := [], beyond := true }) else none := by
  rw [headTexts, hinFindLine_viewOf]
  cases hfind : mem.findIdx? (· == LF) with
  | none => rfl
  | some i =>
      rw [Option.bind_some, Option.bind_some]
      by_cases hlt : i < n
      · have hsame : (mem.drop (i + 1)).drop (n - (i + 1)) = mem.drop n := by
          rw [List.drop_drop]
          congr 1
          omega
        have hall : (viewOf n mem).data ++ mem.drop n = mem := List.take_append_drop n mem
        rw [if_pos hlt, if_pos hlt, Option.bind_some, hsame, hall]
      · rw [if_neg hlt, if_neg hlt]
        by_cases heq : i = n
        · rw [if_pos heq, Option.bind_some]
          by_cases hblank : dropCR (mem.take i) = []
          · rw [if_pos hblank, if_pos ⟨heq, hblank⟩]
          · -- nothing is found behind a line that ends behind the view
            rw [if_neg hblank, if_neg fun h => hblank h.2]
            cases fuel with
            | zero => rfl
            | succ fuel =>
                rw [headTexts, hinFindLine_beyond rfl]
                rfl
        · rw [if_neg heq, if_neg fun h => heq h.1]
          rfl

/-- **The lines are the same in every view of the memory** that holds all but the last line feed, by induction on the
    lines. -/
theorem headTexts_same {fuel fuel' n n' : Nat} {mem : Bytes} (hfuel : n' < fuel') {texts : List (Bytes × Bytes)}
    {rest : Source} (h : headTexts (mem.drop n) fuel (viewOf n mem) = some (texts, rest))
    (hlong : (viewOf n mem).len ≤ rest.len + n' + 1) (hn : n ≤ mem.length) :
    ∃ rest', headTexts (mem.drop n') fuel' (viewOf n' mem) = some (texts, rest') := by
  induction fuel generalizing fuel' n n' mem texts with
  | zero => exact absurd h (by simp [headTexts])
  | succ fuel ih =>
      obtain ⟨fuel', rfl⟩ : ∃ k, fuel' = k + 1 := ⟨fuel' - 1, by omega⟩
      have hview : ∀ (m : Bytes) (k : Nat), k ≤ m.length → (viewOf k m).len = k := by
        intro m k hk
        simp [viewOf, Source.len, List.length_take, hk]
      rw [headTexts_viewOf] at h ⊢
      obtain ⟨i, hi, h⟩ := Option.bind_eq_some_iff.mp h
      have hbound : i < mem.length := (List.findIdx?_eq_some_iff_getElem.mp hi).1
      rw [hview mem n hn] at hlong
      rw [hi, Option.bind_some]
      by_cases hlt : i < n
      · rw [if_pos hlt] at h
        have hrest : (mem.drop (i + 1)).length = mem.length - (i + 1) := List.length_drop
        by_cases hblank : dropCR (mem.take i) = []
        · rw [if_pos hblank] at h
          obtain ⟨rfl, rfl⟩ := Prod.mk.inj (Option.some.inj h)
          rw [hview _ _ (by omega)] at hlong
          by_cases hlt' : i < n'
          · rw [if_pos hlt', if_pos hblank]
            exact ⟨_, rfl⟩
          · rw [if_neg hlt', if_pos ⟨by omega, hblank⟩]
            exact ⟨_, rfl⟩
        · rw [if_neg hblank] at h
          obtain ⟨⟨more, rest'⟩, hmore, heq⟩ := Option.map_eq_some_iff.mp h
          obtain ⟨rfl, rfl⟩ := Prod.mk.inj heq
          -- another line follows, so this one ends in the other view too
          have hlong : (n : Int) ≤ rest'.len + n' + 1 := hlong
          have hlt' : i < n' := by
            have hleft : rest'.len < (viewOf (n - (i + 1)) (mem.drop (i + 1))).len := headTexts_len hmore
            rw [hview _ _ (by omega)] at hleft
            omega
          rw [if_pos hlt', if_neg hblank]
          obtain ⟨rest'', hsame⟩ := ih (show n' - (i + 1) < fuel' by omega) hmore
            (by rw [hview _ _ (by omega)]; omega) (by omega)
          exact ⟨rest'', by rw [hsame]; rfl⟩
      · rw [if_neg hlt] at h
        by_cases hends : i = n ∧ dropCR (mem.take i) = []
        · rw [if_pos hends] at h
          obtain ⟨rfl, rfl⟩ := Prod.mk.inj (Option.some.inj h)
          have hbeyond : Source.len { data := [], beyond := true } = -1 := rfl
          rw [hbeyond] at hlong
          by_cases hlt' : i < n'
          · rw [if_pos hlt', if_pos hends.2]
            exact ⟨_, rfl⟩
          · rw [if_neg hlt', if_pos ⟨by omega, hends.2⟩]
            exact ⟨_, rfl⟩
        · rw [if_neg hends] at h
          exact absurd h (by simp)

/-! ## Lines in memory -/

/-- A line stands at the start of its text, with its break behind it. -/
def StandsAlone (text : Bytes × Bytes) : Prop :=
  ∃ brk more, (brk = [LF] ∨ brk = [CR, LF]) ∧ text.2 = text.1 ++ (brk ++ more)

theorem standsAlone_lf (line more : Bytes) : StandsAlone (dropCR line, line ++ LF :: more) := by
  unfold StandsAlone dropCR
  dsimp only
  split
  · rename_i hcr
    obtain ⟨init, rfl⟩ := List.getLast?_eq_some_iff.mp hcr
    exact ⟨[CR, LF], more, .inr rfl, by simp⟩
  · exact ⟨[LF], more, .inl rfl, rfl⟩

theorem headTexts_alone {memory : Bytes} {fuel : Nat} {s rest : Source} {texts : List (Bytes × Bytes)}
    (h : headTexts memory fuel s = some (texts, rest)) : ∀ text ∈ texts, StandsAlone text := by
  induction fuel generalizing s texts with
  | zero => exact absurd h (by simp [headTexts])
  | succ fuel ih =>
      obtain ⟨⟨line, next⟩, hfind, h⟩ := Option.bind_eq_some_iff.mp h
      by_cases hblank : line = []
      · rw [if_pos hblank] at h
        obtain ⟨rfl, rfl⟩ := Prod.mk.inj (Option.some.inj h)
        simp
      · rw [if_neg hblank] at h
        obtain ⟨⟨more, rest'⟩, hmore, heq⟩ := Option.map_eq_some_iff.mp h
        obtain ⟨rfl, rfl⟩ := Prod.mk.inj heq
        have hfirst : StandsAlone (line, s.data ++ memory) := by
          unfold hinFindLine at hfind
          split at hfind
          · exact absurd hfind (by simp)
          · split at hfind
            · rename_i i hi
              obtain ⟨hlt, hlf, -⟩ := List.findIdx?_eq_some_iff_getElem.mp hi
              obtain ⟨rfl, -⟩ := Prod.mk.inj (Option.some.inj hfind)
              have hsplit : s.data = s.data.take i ++ LF :: s.data.drop (i + 1) := by
                have hi' : s.data[i] = LF := by simpa using hlf
                rw [← hi', ← List.drop_eq_getElem_cons hlt, List.take_append_drop]
              have halone := standsAlone_lf (s.data.take i) (s.data.drop (i + 1) ++ memory)
              rwa [← List.cons_append, ← List.append_assoc, ← hsplit] at halone
            · split at hfind
              · rename_i hlf
                obtain ⟨rfl, -⟩ := Prod.mk.inj (Option.some.inj hfind)
                cases memory with
                | nil => exact absurd hlf (by decide)
                | cons c cs =>
                    obtain rfl : c = LF := hlf
                    exact standsAlone_lf s.data cs
              · exact absurd hfind (by simp)
        intro text hin
        rcases List.mem_cons.mp hin with rfl | hin
        · exact hfirst
        · exact ih hmore text hin

/-- The number of a line that is read here is the length that is read. -/
theorem numberBehind_eq {text : Bytes × Bytes} (halone : StandsAlone text) (hread : readsPostLength text.1 = true) :
    numberBehind text = postLength text.1 := by
  obtain ⟨brk, more, hbrk, htext⟩ := halone
  obtain ⟨digits, rest, hfield, hne, hdigits, hrest, hlength⟩ := readsPostLength_digits hread
  have hdrop : text.1.drop 15 = 32 :: (digits ++ rest) := by
    unfold fieldValue at hfield
    split at hfield
    · exact Option.some.inj hfield
    · exact absurd hfield (by simp)
  have hlong : 15 ≤ text.1.length := by
    have := congrArg List.length hdrop
    rw [List.length_drop, List.length_cons] at this
    omega
  have hstop : ∀ c ∈ (rest ++ (brk ++ more)).head?, isdigit c = false := by
    cases rest with
    | nil =>
        intro c hc
        rcases hbrk with rfl | rfl
        · obtain rfl := Option.some.inj hc
          decide
        · obtain rfl := Option.some.inj hc
          decide
    | cons d ds => exact hrest
  have hblank : ∀ c ∈ ([32] : Bytes), isspace c = true := by simp [isspace]
  have hall : text.2.drop 15 = [32] ++ (digits ++ (rest ++ (brk ++ more))) := by
    rw [htext, List.drop_append_of_le_length hlong, hdrop]
    simp
  rw [numberBehind, hall, atoi_run hblank hne hdigits hstop, hlength]

/-! ## The second pass -/

theorem literalPrefix_length {nocase : Bool} {lit data : Bytes} (h : literalPrefix nocase lit data = true) :
    lit.length ≤ data.length := by
  induction lit generalizing data with
  | nil => exact Nat.zero_le _
  | cons f fs ih =>
      cases data with
      | nil => exact absurd h (by simp [literalPrefix])
      | cons d ds =>
          have hrest : literalPrefix nocase fs ds = true := by
            simp only [literalPrefix, Bool.and_eq_true] at h
            exact h.2
          exact Nat.succ_le_succ (ih hrest)

/-- A line with a name is as long as the name, and so is what is in the view. -/
theorem numberBehind_drop {memory line : Bytes} {s next : Source} (hfind : hinFindLine (memory.headD 0) s = some (line, next))
    (hnamed : named contentLength line = true) :
    numberBehind (line, s.data ++ memory) = atoi (s.data.drop 15 ++ memory) := by
  have hline : 15 ≤ line.length := by
    rw [named_eq] at hnamed
    exact literalPrefix_length hnamed
  have hlong : line.length ≤ s.data.length := by
    have hdrop : ∀ bs : Bytes, (dropCR bs).length ≤ bs.length := by
      intro bs
      unfold dropCR
      split
      · rw [List.length_dropLast]
        omega
      · exact le_refl _
    unfold hinFindLine at hfind
    split at hfind
    · exact absurd hfind (by simp)
    · split at hfind
      · obtain ⟨rfl, -⟩ := Prod.mk.inj (Option.some.inj hfind)
        exact (hdrop _).trans (List.length_take_le' _ _)
      · split at hfind
        · obtain ⟨rfl, -⟩ := Prod.mk.inj (Option.some.inj hfind)
          exact hdrop _
        · exact absurd hfind (by simp)
  rw [numberBehind, List.drop_append_of_le_length (hline.trans hlong)]

/-- **The length the second pass settles** is the number of the last line with the name, by induction on the lines. -/
theorem rproxyLines_eq {memory : Bytes} {fuel fuel' : Nat} (hfuel : fuel ≤ fuel') {s rest : Source}
    {texts : List (Bytes × Bytes)} (h : headTexts memory fuel s = some (texts, rest)) (copied : List Bytes) (sz : Int) :
    ∃ copied', rproxyLines memory fuel' s copied sz =
      (copied', ((lastNamed texts).map numberBehind).getD sz, some rest) := by
  induction fuel generalizing fuel' s texts copied sz with
  | zero => exact absurd h (by simp [headTexts])
  | succ fuel ih =>
      obtain ⟨fuel', rfl⟩ : ∃ k, fuel' = k + 1 := ⟨fuel' - 1, by omega⟩
      obtain ⟨⟨line, next⟩, hfind, h⟩ := Option.bind_eq_some_iff.mp h
      simp only [rproxyLines, hfind]
      by_cases hblank : line = []
      · rw [if_pos hblank] at h
        obtain ⟨rfl, rfl⟩ := Prod.mk.inj (Option.some.inj h)
        rw [if_pos hblank]
        exact ⟨copied, rfl⟩
      · rw [if_neg hblank] at h
        obtain ⟨⟨more, rest'⟩, hmore, heq⟩ := Option.map_eq_some_iff.mp h
        obtain ⟨rfl, rfl⟩ := Prod.mk.inj heq
        have hlast : ∀ start : Int, ((lastNamed ((line, s.data ++ memory) :: more)).map numberBehind).getD start =
            ((lastNamed more).map numberBehind).getD
              (if named contentLength line then numberBehind (line, s.data ++ memory) else start) := by
          intro start
          rw [lastNamed, lastNamed, getLast?_filter_cons]
          cases (more.filter fun text => named contentLength text.1).getLast? with
          | some last => rfl
          | none => cases named contentLength line <;> rfl
        rw [if_neg hblank, hlast]
        have hname : (matchiString line (bytes "Content-Length:")).took =
            if named contentLength line then some 15 else none := by
          rw [named_eq]
          exact matchiString_name (by decide) (by decide) line
        rw [hname]
        by_cases hnamed : named contentLength line = true
        · have hhost : (matchiString line (bytes "Host:")).took = none := by
            have hclash : clash (contentLength ++ [58]) (bytes "Host:") = true := by decide
            rw [named_eq] at hnamed
            rw [matchiString_name (by decide) (by decide), literalPrefix_clash hclash hnamed]
            rfl
          rw [if_pos hnamed, if_pos hnamed, hhost, if_neg (by simp)]
          have hnumber : numberBehind (line, s.data ++ memory) = atoi (s.data.drop 15 ++ memory) :=
            numberBehind_drop hfind hnamed
          rw [hnumber]
          exact ih (by omega) hmore _ _
        · rw [if_neg hnamed, if_neg hnamed]
          split
          · exact ih (by omega) hmore _ _
          · dsimp only
            split
            · exact ih (by omega) hmore _ _
            · exact ih (by omega) hmore _ _

/-- The length that is forwarded for a head. -/
theorem hinRproxySend_length {headers behind : Bytes} {fuel : Nat} (hfuel : fuel ≤ headers.length + 2)
    {first : Bytes × Bytes} {texts : List (Bytes × Bytes)} {rest : Source}
    (h : headTexts behind fuel { data := headers } = some (first :: texts, rest)) :
    (hinRproxySend headers behind).length = max (((lastNamed texts).map numberBehind).getD 0) 0 := by
  cases fuel with
  | zero => exact absurd h (by simp [headTexts])
  | succ fuel =>
      obtain ⟨⟨line, next⟩, hfind, h⟩ := Option.bind_eq_some_iff.mp h
      by_cases hblank : line = []
      · rw [if_pos hblank] at h
        exact absurd h (by simp)
      · rw [if_neg hblank] at h
        obtain ⟨⟨more, rest'⟩, hmore, heq⟩ := Option.map_eq_some_iff.mp h
        obtain ⟨hcons, rfl⟩ := Prod.mk.inj heq
        obtain ⟨-, rfl⟩ := List.cons.inj hcons
        obtain ⟨copied, hloop⟩ := rproxyLines_eq (show fuel ≤ headers.length + 1 by omega) hmore [] 0
        unfold hinRproxySend PassedOn.length
        rw [hfind]
        simp only [Option.map_some, Option.getD_some, hloop]
        split
        · rename_i hpos
          show _ = max _ _
          rw [max_eq_left hpos.le]
          rfl
        · rename_i hneg
          show _ = max _ _
          rw [max_eq_right (not_lt.mp hneg)]
          rfl

/-! ## Both passes -/

/-- The second pass finds the lines of the first one in its own view. -/
theorem headersView_lines {data memory : Bytes} {texts : List (Bytes × Bytes)} {rest : Source} {http : RequestFields}
    {used fuel : Nat} (hused : used = (data.length - rest.len).toNat) (hsz : 0 ≤ http.postSz)
    (h : headTexts memory fuel { data } = some (texts, rest)) :
    ∃ rest', headTexts (headersView http data memory used).2 ((headersView http data memory used).1.length + 1)
      { data := (headersView http data memory used).1 } = some (texts, rest') := by
  have hleft : rest.len < data.length := headTexts_len h
  have hbeyond : -1 ≤ rest.len := by
    unfold Source.len
    split <;> omega
  have hstart : viewOf data.length (data ++ memory) = { data } ∧ (data ++ memory).drop data.length = memory :=
    ⟨by rw [viewOf, List.take_left], List.drop_left⟩
  unfold headersView
  dsimp only
  -- at most the last line feed of the head is left out of the view
  have hlong : (data.length : Int) ≤ rest.len + ((used + (if http.method &&& HIN_METHOD_POST = 0 then 0
      else min ((data.length : Int) - used) http.postSz)).toNat : Int) + 1 := by
    split <;> omega
  generalize (used + (if http.method &&& HIN_METHOD_POST = 0 then 0
      else min ((data.length : Int) - used) http.postSz)).toNat = len at hlong ⊢
  have hsame : viewOf ((data ++ memory).take len).length (data ++ memory) = { data := (data ++ memory).take len } ∧
      (data ++ memory).drop ((data ++ memory).take len).length = (data ++ memory).drop len := by
    unfold viewOf
    rw [List.length_take]
    rcases Nat.le_total len (data ++ memory).length with hle | hle
    · rw [min_eq_left hle]
      exact ⟨rfl, rfl⟩
    · rw [min_eq_right hle, List.take_length, List.take_of_length_le hle, List.drop_length, List.drop_eq_nil_of_le hle]
      exact ⟨rfl, rfl⟩
  rw [← hsame.1, ← hsame.2]
  rw [← hstart.1] at h
  nth_rewrite 1 [← hstart.2] at h
  refine headTexts_same (Nat.lt_succ_self _) h ?_ (by simp)
  rw [hstart.1, List.length_take, List.length_append]
  show (data.length : Int) ≤ _
  omega

/-- The last line that is read is the last one with the name, where that one is read. -/
theorem lastRead_of_named {texts : List (Bytes × Bytes)} {text : Bytes × Bytes} (h : lastNamed texts = some text)
    (hread : readsPostLength text.1 = true) : lastRead (texts.map Prod.fst) = some text.1 := by
  obtain ⟨init, hinit⟩ := List.getLast?_eq_some_iff.mp h
  have hboth : texts.filter (fun text => readsPostLength text.1) =
      (texts.filter fun text => named contentLength text.1).filter fun text => readsPostLength text.1 := by
    rw [List.filter_filter]
    refine List.filter_congr fun other _ => ?_
    cases hother : readsPostLength other.1 with
    | false => rfl
    | true => rw [named_of_readsPostLength hother]; rfl
  have hmap : (texts.map Prod.fst).filter readsPostLength = (texts.filter fun text => readsPostLength text.1).map Prod.fst :=
    List.filter_map
  have hlast : [text].filter (fun text => readsPostLength text.1) = [text] := by simp [hread]
  rw [lastRead, hmap, hboth, hinit, List.filter_append, hlast, List.map_append, List.getLast?_append]
  rfl

/-- A method that is known is `POST`, or has not its bit. -/
theorem methodNumber_post {name : Bytes} {method : UInt32} (h : methodNumber name = some method) :
    method = HIN_METHOD_POST ∨ method ≠ HIN_METHOD_POST ∧ method &&& HIN_METHOD_POST = 0 := by
  unfold methodNumber at h
  split at h
  · obtain rfl := Option.some.inj h
    exact .inr (by decide)
  · split at h
    · obtain rfl := Option.some.inj h
      exact .inl rfl
    · split at h
      · obtain rfl := Option.some.inj h
        exact .inr (by decide)
      · exact absurd h (by simp)

/-- **The length that is forwarded is the one the body has here** exactly if the two passes agree on the lines: in a `POST`
    without chunks the last `Content-Length` is spelled as it is read here, or has the same number, and in other requests
    it asks for no body. -/
theorem forwarded_length_iff {server : Server} {toTime : Bytes → Int} {http http' : RequestFields} {data memory : Bytes}
    {used : Nat} (hclean : http.peerFlags = 0)
    (h : httpdParseHeaders server toTime (memory.headD 0) http data = .accepted http' used) {first : Bytes × Bytes}
    {texts : List (Bytes × Bytes)} {rest : Source}
    (htexts : headTexts memory (data.length + 2) { data } = some (first :: texts, rest)) :
    (hinRproxySend (headersView http' data memory used).1 (headersView http' data memory used).2).length =
      http'.bodyLength ↔ LengthsAgree (headMethod first.1) texts := by
  have hlines : requestLines (memory.headD 0) data = some (first.1 :: texts.map Prod.fst, rest) := by
    rw [requestLines, headTexts_lines, htexts]
    rfl
  obtain ⟨first', lines, rest', method, read, hacc⟩ := httpdParseHeaders_accepted h
  obtain ⟨heq, rfl⟩ := Prod.mk.inj (Option.some.inj (hacc.found.symm.trans hlines))
  obtain ⟨rfl, rfl⟩ := List.cons.inj heq
  obtain ⟨path, ver0, hrequest, hread⟩ := hacc.request
  have hmethod : headMethod first.1 = some method := by
    rw [headMethod, hrequest]
    rfl
  have hsz : 0 ≤ http'.postSz := hacc.settled ▸ settlePost_nonneg read
  obtain ⟨rest'', hview⟩ := headersView_lines hacc.used hsz htexts
  rw [hinRproxySend_length (by omega) hview, LengthsAgree, hmethod]
  have halone := headTexts_alone htexts
  have hknown : method = HIN_METHOD_POST ∨ method ≠ HIN_METHOD_POST ∧ method &&& HIN_METHOD_POST = 0 := by
    unfold hinHttpParseHeaderLine at hrequest
    obtain ⟨n, -, hrequest⟩ := Option.map_eq_some_iff.mp hrequest
    exact methodNumber_post (congrArg RequestLine.method hrequest)
  have hask : ((texts.map Prod.fst).any asksChunked) = texts.any fun text => asksChunked text.1 := List.any_map
  -- where no length is read here, none may be forwarded
  have hnone : http'.bodyLength = 0 → (max (((lastNamed texts).map numberBehind).getD 0) 0 = http'.bodyLength ↔
      ∀ text ∈ lastNamed texts, numberBehind text ≤ 0) := by
    intro hzero
    rw [hzero]
    cases lastNamed texts with
    | none => simp
    | some text => simp
  rcases hknown with rfl | ⟨hother, hbit⟩
  · obtain ⟨hpost, -, hlength⟩ := accepted_post hclean h hlines hmethod
    have hbody : http'.bodyLength = http'.postSz := by
      rw [RequestFields.bodyLength, hpost, if_neg (by decide)]
    rw [hask] at hlength
    by_cases hchunked : (texts.any fun text => asksChunked text.1) = true
    · rw [if_pos hchunked] at hlength
      rw [if_neg (by simp [hchunked])]
      exact hnone (hbody.trans hlength)
    · rw [if_neg hchunked] at hlength
      rw [if_pos ⟨rfl, by simpa using hchunked⟩, hbody]
      obtain ⟨last, hlast, hlength⟩ := hlength
      rw [hlength]
      -- the last line that is read has the name
      obtain ⟨hin, hlastRead⟩ := lastRead_mem hlast
      obtain ⟨source, hsource, rfl⟩ := List.mem_map.mp hin
      have hne : texts.filter (fun text => named contentLength text.1) ≠ [] :=
        List.ne_nil_of_mem (List.mem_filter.mpr ⟨hsource, named_of_readsPostLength hlastRead⟩)
      obtain ⟨text, htext⟩ : ∃ text, lastNamed texts = some text := ⟨_, List.getLast?_eq_getLast_of_ne_nil hne⟩
      have hmem : text ∈ texts := (List.mem_filter.mp (List.mem_of_getLast? htext)).1
      rw [htext]
      show max (numberBehind text) 0 = _ ↔ _
      constructor
      · intro heq text' htext'
        obtain rfl := Option.some.inj htext'
        exact .inr ⟨_, hlast, heq⟩
      · intro hagree
        rcases hagree text rfl with hspelled | ⟨last', hlast', heq⟩
        · have hsame := (lastRead_of_named htext hspelled).symm.trans hlast
          rw [numberBehind_eq (halone text (List.mem_cons_of_mem _ hmem)) hspelled, Option.some.inj hsame]
        · rw [heq, Option.some.inj (hlast'.symm.trans hlast)]
  · have hmethod' : http'.method = method := by
      rw [hacc.settled]
      exact (parseLines_other hother hread).1
    rw [if_neg fun hpost => hother (Option.some.inj hpost.1)]
    exact hnone (by rw [RequestFields.bodyLength, hmethod', if_pos hbit])

/-- A `POST` with two lengths, in two spellings. -/
def twoLengths (sz : Bytes) : Bytes :=
  bytes "POST / HTTP/1.1\r\nContent-Length: 5\r\ncontent-length:" ++ sz ++ bytes "\r\n\r\nhello"

theorem forwarded_length_sample : ∃ http' used,
    httpdParseHeaders {} (fun _ => 0) 0 {} (twoLengths (bytes "5")) = .accepted http' used ∧
      (hinRproxySend (headersView http' (twoLengths (bytes "5")) [] used).1
        (headersView http' (twoLengths (bytes "5")) [] used).2).length = http'.bodyLength := by
  obtain ⟨http', used, h, -⟩ := @Parsed.accepted_of (httpdParseHeaders {} (fun _ => 0) 0 {} (twoLengths (bytes "5")))
    (fun _ _ => true) (by decide)
  have htexts : ∃ first texts rest, headTexts [] ((twoLengths (bytes "5")).length + 2) { data := twoLengths (bytes "5") } =
      some (first :: texts, rest) ∧ headMethod first.1 = some HIN_METHOD_POST ∧
        (texts.any fun text => asksChunked text.1) = false ∧
        (lastNamed texts).map numberBehind = some 5 ∧ (lastRead (texts.map Prod.fst)).map postLength = some 5 :=
    ⟨_, _, _, rfl, by decide⟩
  obtain ⟨first, texts, rest, htexts, hpost, hplain, hnumber, hlast⟩ := htexts
  refine ⟨http', used, h, (@forwarded_length_iff _ _ {} http' _ [] _ rfl h _ _ _ htexts).mpr ?_⟩
  obtain ⟨text, htext, hnumber⟩ := Option.map_eq_some_iff.mp hnumber
  obtain ⟨last, hlast, hsz⟩ := Option.map_eq_some_iff.mp hlast
  rw [LengthsAgree, if_pos ⟨hpost, hplain⟩, htext]
  intro text' htext'
  obtain rfl := Option.some.inj htext'
  exact .inr ⟨last, hlast, by rw [hnumber, hsz]⟩

/-- **The statement fails** where a second length has no blank: five bytes are the body here, and six are forwarded. -/
theorem forwarded_length_wrong : ∃ http' used,
    httpdParseHeaders {} (fun _ => 0) 0 {} (twoLengths (bytes "6")) = .accepted http' used ∧ http'.bodyLength = 5 ∧
      (hinRproxySend (headersView http' (twoLengths (bytes "6")) [] used).1
        (headersView http' (twoLengths (bytes "6")) [] used).2).length = 6 := by
  obtain ⟨http', used, h, hboth⟩ := @Parsed.accepted_of (httpdParseHeaders {} (fun _ => 0) 0 {} (twoLengths (bytes "6")))
    (fun http' used => decide (http'.bodyLength = 5 ∧
      (hinRproxySend (headersView http' (twoLengths (bytes "6")) [] used).1
        (headersView http' (twoLengths (bytes "6")) [] used).2).length = 6)) (by decide)
  exact ⟨http', used, h, of_decide_eq_true hboth⟩

end Http
end Hin9
