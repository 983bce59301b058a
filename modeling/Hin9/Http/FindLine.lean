import Hin9.Http.UpstreamRead

/-!
# `Http.FindLine` — the scan for a line feed, pointer by pointer (`http_utils.c`)

`hin_find_line` walks from `source->ptr` to `source->ptr + source->len`, and `ptr <= max` lets it look at that last
address too, which is no part of the view. Here memory is a function of the address and the two pointers of the scan are
addresses, so that what lies behind the view is there to be read.

`findLoop_line` and `findLoop_open` say what the scan comes to, `hinFindLineAt_refines` that the function on the bytes of
a view (`Http.hinFindLine`) is what it computes, and `find_line_iff` on which views that is the line it should be.
-/

namespace Hin9
namespace Http
namespace FindLine

/-- What is in memory. -/
abbrev Memory := Nat → UInt8

/-- A `string_t`. Its length is unsigned in the source; one that comes out of a subtraction below zero is written as the
    negative number it is, so that `ptr + len` is the address the machine computes. -/
structure StringT where
  ptr : Nat
  len : Int
deriving Repr, DecidableEq

/-- `source->ptr + source->len`. -/
def StringT.max (s : StringT) : Int := s.ptr + s.len

/-- The `n` bytes at `ptr`. -/
def bytesAt (mem : Memory) (ptr : Nat) : Nat → Bytes
  | 0 => []
  | n + 1 => mem ptr :: bytesAt mem (ptr + 1) n

/-- The bytes a view covers. -/
def StringT.bytes (s : StringT) (mem : Memory) : Bytes := bytesAt mem s.ptr s.len.toNat

/-! ## The scan -/

/-- The `for` loop with `left` addresses up to `max`: where the line feed is, and where the line ends. -/
def findLoop (mem : Memory) : Nat → Nat → Nat → Option (Nat × Nat)
  | 0, _, _ => none
  | left + 1, ptr, last =>
      if mem ptr = LF then some (ptr, last)
      else if mem ptr = CR then findLoop mem left (ptr + 1) ptr
      else findLoop mem left (ptr + 1) (ptr + 1)

/-- What `hin_find_line` returns, and the two views it leaves. -/
structure FoundLine where
  ret : Nat
  source : StringT
  line : StringT
deriving Repr, DecidableEq

/-- `hin_find_line`. -/
def hinFindLineAt (mem : Memory) (source : StringT) : FoundLine :=
  match findLoop mem (source.max + 1 - source.ptr).toNat source.ptr source.ptr with
  | some (ptr, last) =>
      { ret := 1,
        source := { ptr := ptr + 1, len := source.max - (ptr + 1 : Nat) },
        line := { ptr := source.ptr, len := (last : Int) - source.ptr } }
  | none => { ret := 0, source, line := { ptr := source.ptr, len := 0 } }

@[simp] theorem bytesAt_length (mem : Memory) (ptr n : Nat) : (bytesAt mem ptr n).length = n := by
  induction n generalizing ptr with
  | zero => rfl
  | succ n ih => exact congrArg (· + 1) (ih (ptr + 1))

theorem bytesAt_append (mem : Memory) (ptr m n : Nat) :
    bytesAt mem ptr (m + n) = bytesAt mem ptr m ++ bytesAt mem (ptr + m) n := by
  induction m generalizing ptr with
  | zero => simp [bytesAt]
  | succ m ih =>
      rw [show m + 1 + n = (m + n) + 1 by omega, bytesAt, bytesAt, ih, List.cons_append,
        show ptr + 1 + m = ptr + (m + 1) by omega]

/-- Where a text lies in a view, memory holds it. -/
theorem bytesAt_split {mem : Memory} {ptr n : Nat} {before after : Bytes} {c : UInt8}
    (h : bytesAt mem ptr n = before ++ c :: after) :
    bytesAt mem ptr before.length = before ∧ mem (ptr + before.length) = c ∧
      bytesAt mem (ptr + before.length + 1) after.length = after ∧ n = before.length + 1 + after.length := by
  have hn : n = before.length + (1 + after.length) := by
    have hlen := congrArg List.length h
    rw [bytesAt_length, List.length_append, List.length_cons] at hlen
    omega
  rw [hn, bytesAt_append] at h
  obtain ⟨hbefore, hrest⟩ := List.append_inj h (bytesAt_length _ _ _)
  rw [show 1 + after.length = after.length + 1 by omega, bytesAt] at hrest
  obtain ⟨hc, hafter⟩ := List.cons.inj hrest
  exact ⟨hbefore, hc, hafter, by omega⟩

/-- The end of a line that has been scanned up to its line feed: in front of one carriage return. -/
def lineEnd (ptr : Nat) (last : Nat) (before : Bytes) : Nat :=
  if before = [] then last else if before.getLast? = some CR then ptr + before.length - 1 else ptr + before.length

theorem lineEnd_cons {ptr last : Nat} {c : UInt8} {before : Bytes} :
    lineEnd (ptr + 1) (if c = CR then ptr else ptr + 1) before = lineEnd ptr last (c :: before) := by
  unfold lineEnd
  rw [if_neg (List.cons_ne_nil c before)]
  cases before with
  | nil =>
      rw [if_pos rfl]
      simp only [List.getLast?_singleton, Option.some.injEq, List.length_singleton]
      by_cases hc : c = CR
      · rw [if_pos hc, if_pos hc]
        omega
      · rw [if_neg hc, if_neg hc]
  | cons d before =>
      rw [if_neg (List.cons_ne_nil d before), List.getLast?_cons_cons]
      simp only [List.length_cons]
      by_cases hcr : (d :: before).getLast? = some CR
      · rw [if_pos hcr, if_pos hcr]
        omega
      · rw [if_neg hcr, if_neg hcr]
        omega

/-- **A line feed in reach is found**, and the first of them. -/
theorem findLoop_line {mem : Memory} {n ptr last : Nat} {before after : Bytes}
    (h : bytesAt mem ptr n = before ++ LF :: after) (hlf : LF ∉ before) :
    findLoop mem n ptr last = some (ptr + before.length, lineEnd ptr last before) := by
  induction before generalizing n ptr last with
  | nil =>
      obtain ⟨-, hc, -, hn⟩ := bytesAt_split h
      rw [hn, show ([] : Bytes).length + 1 + after.length = after.length + 1 by simp; omega]
      exact if_pos hc
  | cons c before ih =>
      cases n with
      | zero => exact absurd h.symm (List.cons_ne_nil _ _)
      | succ n =>
          obtain ⟨hc, htail⟩ := List.cons.inj h
          have hne : mem ptr ≠ LF := fun he => hlf (he.symm.trans hc ▸ List.mem_cons_self)
          have hrest : LF ∉ before := fun hm => hlf (List.mem_cons_of_mem c hm)
          have hlen : ptr + 1 + before.length = ptr + (c :: before).length := by
            rw [List.length_cons]
            omega
          unfold findLoop
          rw [if_neg hne, ← lineEnd_cons, ← hlen, hc]
          -- the end of the line moves with the scan
          by_cases hcr : c = CR
          · rw [if_pos hcr, if_pos hcr]
            exact ih htail hrest
          · rw [if_neg hcr, if_neg hcr]
            exact ih htail hrest

/-- Without a line feed in reach the scan finds nothing. -/
theorem findLoop_open {mem : Memory} {n ptr last : Nat} (h : LF ∉ bytesAt mem ptr n) :
    findLoop mem n ptr last = none := by
  induction n generalizing ptr last with
  | zero => rfl
  | succ n ih =>
      have hne : mem ptr ≠ LF := fun he => h (he ▸ List.mem_cons_self)
      have hrest : LF ∉ bytesAt mem (ptr + 1) n := fun hm => h (List.mem_cons_of_mem _ hm)
      unfold findLoop
      rw [if_neg hne]
      split
      · exact ih hrest
      · exact ih hrest

/-! ## On a view -/

/-- A view of `len` bytes: what a caller has. -/
def view (ptr len : Nat) : StringT := { ptr, len }

theorem view_bytes (mem : Memory) (ptr len : Nat) : (view ptr len).bytes mem = bytesAt mem ptr len := rfl

/-- The scan reaches one address further than the view. -/
theorem reach_view (ptr len : Nat) : ((view ptr len).max + 1 - (view ptr len).ptr).toNat = len + 1 := by
  unfold view StringT.max
  dsimp only
  omega

theorem bytesAt_reach (mem : Memory) (ptr len : Nat) : bytesAt mem ptr (len + 1) = bytesAt mem ptr len ++ [mem (ptr + len)] := by
  rw [bytesAt_append]
  rfl

/-- The line that ends where `lineEnd` says. -/
theorem line_bytes {mem : Memory} {ptr : Nat} {before : Bytes} (h : bytesAt mem ptr before.length = before) :
    StringT.bytes { ptr, len := (lineEnd ptr ptr before : Int) - ptr } mem = dropCR before := by
  unfold StringT.bytes lineEnd dropCR
  dsimp only
  by_cases hnil : before = []
  · subst hnil
    simp [bytesAt]
  · rw [if_neg hnil]
    have hpos : 0 < before.length := List.length_pos_iff.mpr hnil
    by_cases hcr : before.getLast? = some CR
    · rw [if_pos hcr, if_pos hcr]
      -- one byte less of the same text
      have hlen : (((ptr + before.length - 1 : Nat) : Int) - ptr).toNat = before.length - 1 := by omega
      have hsplit := bytesAt_append mem ptr (before.length - 1) 1
      rw [show before.length - 1 + 1 = before.length by omega, h] at hsplit
      rw [hlen, List.dropLast_eq_take]
      conv_rhs => rw [hsplit]
      rw [List.take_append_of_le_length (by simp), List.take_of_length_le (by simp)]
    · rw [if_neg hcr, if_neg hcr]
      have hlen : (((ptr + before.length : Nat) : Int) - ptr).toNat = before.length := by omega
      rw [hlen, h]

/-- A line feed at some offset of the reach, with none before it: what is returned. -/
theorem hinFindLineAt_line {mem : Memory} {ptr len : Nat} {before after : Bytes}
    (h : bytesAt mem ptr (len + 1) = before ++ LF :: after) (hlf : LF ∉ before) :
    hinFindLineAt mem (view ptr len) =
      { ret := 1,
        source := { ptr := ptr + before.length + 1, len := (len : Int) - (before.length + 1) },
        line := { ptr, len := (lineEnd ptr ptr before : Int) - ptr } } := by
  unfold hinFindLineAt
  rw [reach_view, show (view ptr len).ptr = ptr from rfl, findLoop_line h hlf]
  dsimp only
  rw [show (view ptr len).max = (ptr : Int) + len from rfl]
  simp only [FoundLine.mk.injEq, StringT.mk.injEq, true_and, and_true]
  omega

/-- Nothing found: the source stays as it was. -/
theorem hinFindLineAt_open {mem : Memory} {ptr len : Nat} (h : LF ∉ bytesAt mem ptr (len + 1)) :
    hinFindLineAt mem (view ptr len) = { ret := 0, source := view ptr len, line := { ptr, len := 0 } } := by
  unfold hinFindLineAt
  rw [reach_view, show (view ptr len).ptr = ptr from rfl, findLoop_open h]

/-- The view as the list of bytes the parsers of this development work on. -/
def StringT.toSource (s : StringT) (mem : Memory) : Source := { data := s.bytes mem, beyond := decide (s.len < 0) }

theorem findIdx_first {before after : Bytes} (hlf : LF ∉ before) :
    (before ++ LF :: after).findIdx? (· == LF) = some before.length := by
  have hnone : before.findIdx? (· == LF) = none := by
    rw [List.findIdx?_eq_none_iff]
    intro c hc
    simp only [beq_eq_false_iff_ne, ne_eq]
    exact fun he => hlf (he ▸ hc)
  rw [List.findIdx?_append, hnone, List.findIdx?_cons]
  simp

/-- A line feed in the view: the line in front of it, and the bytes behind it as the new view. -/
theorem hinFindLineAt_inside {mem : Memory} {ptr len : Nat} {before after : Bytes}
    (h : bytesAt mem ptr len = before ++ LF :: after) (hlf : LF ∉ before) :
    (hinFindLineAt mem (view ptr len)).ret = 1 ∧
      (hinFindLineAt mem (view ptr len)).line.bytes mem = dropCR before ∧
      (hinFindLineAt mem (view ptr len)).source = view (ptr + before.length + 1) after.length ∧
      (view (ptr + before.length + 1) after.length).bytes mem = after ∧ after.length < len := by
  have hreach : bytesAt mem ptr (len + 1) = before ++ LF :: (after ++ [mem (ptr + len)]) := by
    rw [bytesAt_reach, h, List.append_assoc, List.cons_append]
  obtain ⟨hbefore, -, hafter, hlen⟩ := bytesAt_split h
  rw [hinFindLineAt_line hreach hlf]
  refine ⟨rfl, line_bytes hbefore, ?_, hafter, by omega⟩
  unfold view
  rw [StringT.mk.injEq]
  exact ⟨rfl, by omega⟩

/-- A line feed right behind the view: the whole view is a line, and the view that is left has the length `-1`. -/
theorem hinFindLineAt_behind {mem : Memory} {ptr len : Nat} (h : LF ∉ bytesAt mem ptr len) (hlf : mem (ptr + len) = LF) :
    (hinFindLineAt mem (view ptr len)).ret = 1 ∧
      (hinFindLineAt mem (view ptr len)).line.bytes mem = dropCR (bytesAt mem ptr len) ∧
      (hinFindLineAt mem (view ptr len)).source = { ptr := ptr + len + 1, len := -1 } := by
  have hreach : bytesAt mem ptr (len + 1) = bytesAt mem ptr len ++ LF :: [] := by
    rw [bytesAt_reach, hlf]
  rw [hinFindLineAt_line hreach h, bytesAt_length]
  refine ⟨rfl, ?_, ?_⟩
  · apply line_bytes
    rw [bytesAt_length]
  · rw [StringT.mk.injEq]
    exact ⟨rfl, by omega⟩

/-- No line feed, in the view or right behind it. -/
theorem hinFindLineAt_none {mem : Memory} {ptr len : Nat} (h : LF ∉ bytesAt mem ptr len) (hlf : mem (ptr + len) ≠ LF) :
    hinFindLineAt mem (view ptr len) = { ret := 0, source := view ptr len, line := { ptr, len := 0 } } := by
  apply hinFindLineAt_open
  rw [bytesAt_reach, List.mem_append, List.mem_singleton]
  rintro (hm | hm)
  · exact h hm
  · exact hlf hm.symm

/-- **The function on byte lists is what the pointers compute**, with the byte behind the view as its parameter. -/
theorem hinFindLineAt_refines (mem : Memory) (ptr len : Nat) :
    hinFindLine (mem (ptr + len)) ((view ptr len).toSource mem) =
      if (hinFindLineAt mem (view ptr len)).ret = 1 then
        some ((hinFindLineAt mem (view ptr len)).line.bytes mem, (hinFindLineAt mem (view ptr len)).source.toSource mem)
      else none := by
  have hsource : (view ptr len).toSource mem = { data := bytesAt mem ptr len } := by
    unfold StringT.toSource view
    rw [Source.mk.injEq]
    exact ⟨rfl, by simp⟩
  rw [hsource]
  by_cases h : LF ∈ bytesAt mem ptr len
  · obtain ⟨before, after, hsplit, hlf⟩ := List.eq_append_cons_of_mem h
    obtain ⟨hret, hline, hsrc, hafter, -⟩ := hinFindLineAt_inside hsplit hlf
    have hleft : (view (ptr + before.length + 1) after.length).toSource mem = { data := after } := by
      unfold StringT.toSource
      rw [hafter, Source.mk.injEq]
      exact ⟨rfl, by unfold view; simp⟩
    rw [if_pos hret, hline, hsrc, hleft, hsplit]
    unfold hinFindLine
    rw [if_neg Bool.false_ne_true]
    dsimp only
    rw [findIdx_first hlf]
    simp
  · rw [hinFindLine_open h]
    by_cases hlf : mem (ptr + len) = LF
    · obtain ⟨hret, hline, hsrc⟩ := hinFindLineAt_behind h hlf
      rw [if_pos hlf, if_pos hret, hline, hsrc]
      rfl
    · rw [if_neg hlf, hinFindLineAt_none h hlf, if_neg Nat.zero_ne_one]

/-! ## The line of a view -/

/-- **A view is split at its first line feed**: that is when a line is returned, it is the text in front of the line feed
    without a carriage return at its end, and the source is what follows. A view without a line feed stays as it is. -/
structure Splits (mem : Memory) (ptr len : Nat) : Prop where
  ret : (hinFindLineAt mem (view ptr len)).ret = 1 ↔ LF ∈ (view ptr len).bytes mem
  line : ∀ before after, (view ptr len).bytes mem = before ++ LF :: after → LF ∉ before →
    (hinFindLineAt mem (view ptr len)).line.bytes mem = dropCR before ∧
      (hinFindLineAt mem (view ptr len)).source.bytes mem = after ∧
      (hinFindLineAt mem (view ptr len)).source.ptr = ptr + before.length + 1 ∧
      0 ≤ (hinFindLineAt mem (view ptr len)).source.len ∧ (hinFindLineAt mem (view ptr len)).source.len < len
  unchanged : LF ∉ (view ptr len).bytes mem → (hinFindLineAt mem (view ptr len)).source = view ptr len

/-- **Nothing outside the view matters**: memory that holds the same bytes in it gives the same result. -/
def Local (mem : Memory) (ptr len : Nat) : Prop :=
  ∀ mem' : Memory, (view ptr len).bytes mem' = (view ptr len).bytes mem →
    hinFindLineAt mem' (view ptr len) = hinFindLineAt mem (view ptr len)

/-- A byte behind a text is no part of it. -/
theorem bytesAt_update (mem : Memory) (ptr n : Nat) {a : Nat} (ha : ptr + n ≤ a) (c : UInt8) :
    bytesAt (Function.update mem a c) ptr n = bytesAt mem ptr n := by
  induction n generalizing ptr with
  | zero => rfl
  | succ n ih =>
      unfold bytesAt
      rw [ih (ptr + 1) (by omega), Function.update_of_ne (by omega)]

theorem splits_inside {mem : Memory} {ptr len : Nat} (h : LF ∈ bytesAt mem ptr len) : Splits mem ptr len := by
  obtain ⟨first, rest, hfirst, hno⟩ := List.eq_append_cons_of_mem h
  refine ⟨⟨fun _ => h, fun _ => (hinFindLineAt_inside hfirst hno).1⟩, ?_, fun hn => absurd h hn⟩
  intro before after hsplit hlf
  rw [view_bytes] at hsplit
  obtain ⟨-, hline, hsrc, hafter, hlt⟩ := hinFindLineAt_inside hsplit hlf
  rw [hsrc, hafter]
  exact ⟨hline, rfl, rfl, Int.natCast_nonneg _, Int.ofNat_lt.mpr hlt⟩

theorem splits_none {mem : Memory} {ptr len : Nat} (h : LF ∉ bytesAt mem ptr len) (hlf : mem (ptr + len) ≠ LF) :
    Splits mem ptr len := by
  have hnone := hinFindLineAt_none h hlf
  refine ⟨⟨fun hret => ?_, fun hm => absurd hm h⟩, ?_, fun _ => ?_⟩
  · rw [hnone] at hret
    exact absurd hret Nat.zero_ne_one
  · intro before after hsplit _
    have hm : LF ∈ bytesAt mem ptr len := by
      rw [← view_bytes, hsplit]
      exact List.mem_append_right before List.mem_cons_self
    exact absurd hm h
  · rw [hnone]

theorem not_splits_behind {mem : Memory} {ptr len : Nat} (h : LF ∉ bytesAt mem ptr len) (hlf : mem (ptr + len) = LF) :
    ¬ Splits mem ptr len :=
  fun hs => h (hs.ret.mp (hinFindLineAt_behind h hlf).1)

/-- The scan of a view with a line feed ends inside it. -/
theorem local_inside {mem : Memory} {ptr len : Nat} (h : LF ∈ bytesAt mem ptr len) : Local mem ptr len := by
  intro mem' hsame
  rw [view_bytes, view_bytes] at hsame
  obtain ⟨before, after, hsplit, hlf⟩ := List.eq_append_cons_of_mem h
  have hreach (m : Memory) (hm : bytesAt m ptr len = before ++ LF :: after) :
      bytesAt m ptr (len + 1) = before ++ LF :: (after ++ [m (ptr + len)]) := by
    rw [bytesAt_reach, hm, List.append_assoc, List.cons_append]
  rw [hinFindLineAt_line (hreach mem' (hsame.trans hsplit)) hlf, hinFindLineAt_line (hreach mem hsplit) hlf]

/-- The scan of a view without one looks at the byte behind it. -/
theorem not_local_open {mem : Memory} {ptr len : Nat} (h : LF ∉ bytesAt mem ptr len) : ¬ Local mem ptr len := by
  intro hlocal
  have hkeep (c : UInt8) : bytesAt (Function.update mem (ptr + len) c) ptr len = bytesAt mem ptr len :=
    bytesAt_update mem ptr len (Nat.le_refl _) c
  have hopen (c : UInt8) : LF ∉ bytesAt (Function.update mem (ptr + len) c) ptr len := hkeep c ▸ h
  -- with a line feed there, and with another byte
  have hlf := hlocal (Function.update mem (ptr + len) LF) (hkeep LF)
  have hnul := hlocal (Function.update mem (ptr + len) 0) (hkeep 0)
  have h1 := (hinFindLineAt_behind (hopen LF) (Function.update_self (ptr + len) LF mem)).1
  have h0 := hinFindLineAt_none (hopen 0) (by rw [Function.update_self]; decide)
  rw [hlf, ← hnul, h0] at h1
  exact absurd h1 Nat.zero_ne_one

/-- **Which views give the line they should.** Result and independence of other memory go together exactly on the views
    with a line feed; the result alone is right on the others too, unless a line feed lies right behind the view. -/
theorem find_line_iff (mem : Memory) (ptr len : Nat) :
    (Splits mem ptr len ∧ Local mem ptr len ↔ LF ∈ (view ptr len).bytes mem) ∧
      (Splits mem ptr len ↔ LF ∈ (view ptr len).bytes mem ∨ mem (ptr + len) ≠ LF) := by
  rw [view_bytes]
  by_cases h : LF ∈ bytesAt mem ptr len
  · have hs := splits_inside h
    exact ⟨⟨fun _ => h, fun _ => ⟨hs, local_inside h⟩⟩, ⟨fun _ => .inl h, fun _ => hs⟩⟩
  · refine ⟨⟨fun hboth => absurd hboth.2 (not_local_open h), fun hm => absurd hm h⟩, ⟨fun hs => .inr fun hlf => ?_, ?_⟩⟩
    · exact not_splits_behind h hlf hs
    · rintro (hm | hlf)
      · exact absurd hm h
      · exact splits_none h hlf

/-- A line buffer with three bytes of a request, and the line feed of an earlier one behind them. -/
def staleBuffer : Memory := fun a => if a = 3 then LF else 65

/-- The stale line feed ends a line that is not there. -/
theorem stale_line_feed : ¬ ∀ (mem : Memory) (ptr len : Nat), Splits mem ptr len ∧ Local mem ptr len := by
  intro h
  have hret := (h staleBuffer 0 3).1.ret
  exact absurd hret (by decide)

end FindLine
end Http
end Hin9
