import Hin9.Lib.Runs
import Hin9.Netcode.Pipe

/-!
# `Netcode.Lines` — the growing read buffer (`buffer.c`)

What has been received and not eaten is at the front of the allocation; a read is requested for the room behind it, and the
allocation grows when there is not enough. The ring keeps the pointer and the size it was given until the read is complete. On
the other ways (epoll, TLS, a synchronous read) they are taken from the buffer when the read is made.

`hin_lines_request` leaves a buffer alone that is being read into, and the other functions do not look. `Careful` says when it
does not matter, and from there on a read always lands behind what is held: that is the invariant of the run.
-/

namespace Hin9
namespace Netcode
namespace Lines

/-! ## The buffer -/

/-- A read as the kernel is given it: which allocation, how far behind its start, how many bytes. -/
structure Read where
  alloc : Nat
  off : Nat
  len : Nat
deriving Repr, DecidableEq

/-- The fields of `hin_buffer_t` and `hin_lines_t`. The allocation has `sz` bytes. -/
structure Buffer where
  sz : Nat
  lines : Nat := 0                  -- lines->count
  mem : Nat → UInt8                 -- what lines->base points to
  alloc : Nat := 0                  -- how often it has been allocated anew
  ptr : Nat := 0                    -- buffer->ptr, counted from lines->base
  count : Nat                       -- buffer->count
  fd : Bool                         -- there is something to read from
  ring : Bool                       -- reads are made by the ring
  active : Bool := false            -- HIN_ACTIVE
  sqe : Read := ⟨0, 0, 0⟩           -- the read the ring was given last
  closed : Bool := false            -- the buffer has been handed to close_callback
  received : Bytes := []            -- everything that was ever put in
  eaten : Nat := 0                  -- how much of it has been eaten

namespace Buffer

variable (s : Buffer)

/-- The first `lines->count` bytes at `lines->base`. -/
def held : Bytes := (List.range s.lines).map s.mem

/-- The read that is being made, with the pointer and the size it will be made with. -/
def inFlight : Option Read :=
  if s.active then some (if s.ring then s.sqe else ⟨s.alloc, s.ptr, s.count⟩) else none

/-- `memcpy`, or a read of the kernel. -/
def writeAt (mem : Nat → UInt8) (off : Nat) (data : Bytes) (i : Nat) : UInt8 :=
  if off ≤ i then (data[i - off]?).getD (mem i) else mem i

/-! ## The functions -/

def INT_MAX : Nat := 2147483647

/-- `hin_buffer_prepare`. A size that is no `int` is undefined. -/
def hinBufferPrepare (num : Nat) : Option Buffer :=
  let pos := s.lines
  let minSz := pos + num
  if INT_MAX < minSz then none
  else
    let s := if minSz > s.sz then { s with sz := minSz, alloc := s.alloc + 1 } else s
    some { s with ptr := pos, count := num }

/-- `hin_buffer_eat`. To eat more than there is would move a negative number of bytes. -/
def hinBufferEat (num : Int) : Option Buffer :=
  let pos := s.lines
  if num < 0 then some s
  else if pos < num then none
  else
    let num := num.toNat
    some { s with
      mem := fun i => if i < pos - num then s.mem (i + num) else s.mem i
      ptr := pos - num
      lines := pos - num
      eaten := s.eaten + num }

/-- How many bytes `hin_lines_request` asks for. -/
def newSize (min : Int) : Int :=
  let left : Int := s.sz - s.lines
  if min > 0 ∧ min > left then min - left
  else if left < s.sz / 2 then READ_SZ
  else left

/-- `hin_lines_request`. -/
def hinLinesRequest (min : Int) : Option Buffer :=
  if s.active then some s
  else (s.hinBufferPrepare (s.newSize min).toNat).map fun s =>
    if s.fd then { s with active := true, sqe := ⟨s.alloc, s.ptr, s.count⟩ } else s

/-- `hin_lines_default_eat`, on what the read callback returned. -/
def hinLinesDefaultEat (num : Int) : Option Buffer :=
  if num > 0 then s.hinBufferEat num
  else if num = 0 then s.hinLinesRequest 0
  else some { s with closed := true }

/-- `hin_lines_read_callback` up to the read callback, which is told that there is something new. -/
def hinLinesReadCallback (data : Bytes) : Buffer :=
  if data = [] then { s with closed := true }
  else { s with count := 0, lines := s.lines + data.length, received := s.received ++ data }

/-- `hin_lines_reread`, in the same way. -/
def hinLinesReread : Buffer := { s with count := 0 }

/-- `hin_lines_write`. -/
def hinLinesWrite (data : Bytes) : Option Buffer :=
  (s.hinBufferPrepare data.length).map fun s =>
    ({ s with mem := writeAt s.mem s.ptr data } : Buffer).hinLinesReadCallback data

/-- A read is complete. What it was to write to may be gone. -/
def complete (data : Bytes) : Option Buffer :=
  match s.inFlight with
  | none => none
  | some r =>
      if data.length ≤ r.len then
        let mem := if r.alloc = s.alloc then writeAt s.mem r.off data else s.mem
        some (({ s with active := false, mem } : Buffer).hinLinesReadCallback data)
      else none

end Buffer

/-- `hin_lines_create_raw`. What is in fresh memory is not known. -/
def hinLinesCreateRaw (sz : Nat) (mem : Nat → UInt8) (fd ring : Bool) : Buffer where
  sz := sz
  mem := mem
  count := sz
  fd := fd
  ring := ring

/-! ## Runs -/

inductive Event where
  | request (min : Int)             -- hin_lines_request
  | complete (data : Bytes)         -- a read is complete, at the end of the input with nothing
  | write (data : Bytes)            -- hin_lines_write
  | reread                          -- hin_lines_reread
  | eat (num : Int)                 -- hin_buffer_eat
  | returned (num : Int)            -- a read callback returns

/-- One event, in any order, also from within a read callback. -/
def step (s : Buffer) (e : Event) : Option Buffer :=
  if s.closed then none
  else
    match e with
    | .request min => s.hinLinesRequest min
    | .complete data => s.complete data
    | .write data => s.hinLinesWrite data
    | .reread => some s.hinLinesReread
    | .eat num => s.hinBufferEat num
    | .returned num => s.hinLinesDefaultEat num

/-- **The buffer is as it should be.** It holds what was received and not eaten, in an allocation that is large enough. A read
    that is being made is for at least one byte, has room, and goes to the allocation there is. -/
structure Sound (s : Buffer) : Prop where
  stream : s.held = s.received.drop s.eaten
  bounded : s.lines ≤ s.sz
  positive : ∀ r, s.inFlight = some r → 0 < r.len
  fits : ∀ r, s.inFlight = some r → r.off + r.len ≤ s.sz
  base : ∀ r, s.inFlight = some r → r.alloc = s.alloc

/-- A read of a full buffer of less than two bytes asks for nothing, unless more than nothing is asked for. -/
def Asks (s : Buffer) (min : Int) : Prop := s.active = false → s.fd = true → ¬(s.sz < 2 ∧ s.lines = s.sz ∧ min ≤ 0)

/-- What the ring has been told where to write stays where it is. -/
def Stays (s : Buffer) (num : Int) : Prop := s.active = true → s.ring = true → num ≤ 0

/-- **Nothing happens to a buffer behind the back of a read.** -/
def Careful (s : Buffer) : Event → Prop
  | .request min => Asks s min
  | .complete _ => True
  | .write _ => s.active = false
  | .reread => s.active = true → s.ring = true
  | .eat num => Stays s num
  | .returned num => if num > 0 then Stays s num else num = 0 → Asks s 0

/-! ## Memory -/

/-- Data written behind what is held is held with it. -/
theorem held_writeAt (mem : Nat → UInt8) (n : Nat) (data : Bytes) :
    (List.range (n + data.length)).map (Buffer.writeAt mem n data) = (List.range n).map mem ++ data := by
  rw [List.range_add, List.map_append, List.map_map]
  congr 1
  · apply List.map_congr_left
    intro i hi
    exact if_neg (Nat.not_le.mpr (List.mem_range.mp hi))
  · apply List.ext_getElem
    · simp
    · intro i hi hi'
      rw [List.getElem_map, List.getElem_range, Function.comp_apply]
      unfold Buffer.writeAt
      rw [if_pos (Nat.le_add_right n i), Nat.add_sub_cancel_left, List.getElem?_eq_getElem hi']
      rfl

/-- What is moved to the front is what is not eaten. -/
theorem held_moved (mem : Nat → UInt8) (count num : Nat) :
    (List.range (count - num)).map (fun i => if i < count - num then mem (i + num) else mem i) =
      ((List.range count).map mem).drop num := by
  apply List.ext_getElem
  · simp
  · intro i hi hi'
    have hlt : i < count - num := by simpa using hi
    rw [List.getElem_map, List.getElem_range, if_pos hlt, List.getElem_drop, List.getElem_map, List.getElem_range,
      Nat.add_comm]

/-! ## The invariant -/

/-- A read that is being made goes to where what is held ends. -/
structure Placed (s : Buffer) (r : Read) : Prop where
  positive : 0 < r.len
  behind : r.off = s.lines
  fits : r.off + r.len ≤ s.sz
  base : r.alloc = s.alloc

structure Inv (s : Buffer) : Prop where
  stream : s.held = s.received.drop s.eaten
  eaten_le : s.eaten ≤ s.received.length
  bounded : s.lines ≤ s.sz
  read : ∀ r, s.inFlight = some r → Placed s r

variable {s s' : Buffer} {data : Bytes} {min num : Int}

theorem Inv.sound (h : Inv s) : Sound s where
  stream := h.stream
  bounded := h.bounded
  positive r hr := (h.read r hr).positive
  fits r hr := (h.read r hr).fits
  base r hr := (h.read r hr).base

theorem no_read (h : s.active = false) : ∀ r, s.inFlight = some r → Placed s r := by
  intro r hr
  unfold Buffer.inFlight at hr
  rw [h] at hr
  exact absurd hr (by simp)

/-- Preparing makes room behind what is held. -/
theorem prepare_spec {n : Nat} (h : s.hinBufferPrepare n = some s') :
    s'.lines = s.lines ∧ s'.mem = s.mem ∧ s'.received = s.received ∧ s'.eaten = s.eaten ∧ s'.active = s.active ∧
      s'.ptr = s.lines ∧ s'.count = n ∧ s'.fd = s.fd ∧ s'.ring = s.ring ∧ s.sz ≤ s'.sz ∧ s.lines + n ≤ s'.sz := by
  unfold Buffer.hinBufferPrepare at h
  dsimp only at h
  split at h
  · exact absurd h (by simp)
  · obtain rfl := Option.some.inj h
    split
    · rename_i hgrow
      exact ⟨rfl, rfl, rfl, rfl, rfl, rfl, rfl, rfl, rfl, Nat.le_of_lt hgrow, le_rfl⟩
    · rename_i hroom
      exact ⟨rfl, rfl, rfl, rfl, rfl, rfl, rfl, rfl, rfl, le_rfl, Nat.le_of_not_lt hroom⟩

/-- **A request asks for at least one byte**, unless the buffer is full and too small. -/
theorem newSize_pos (hle : s.lines ≤ s.sz) (hasks : ¬(s.sz < 2 ∧ s.lines = s.sz ∧ min ≤ 0)) : 0 < s.newSize min := by
  unfold Buffer.newSize READ_SZ
  dsimp only
  split
  · omega
  · split
    · decide
    · omega

theorem Inv.request (h : Inv s) (hasks : Asks s min) (hs : s.hinLinesRequest min = some s') : Inv s' := by
  unfold Buffer.hinLinesRequest at hs
  split at hs
  · obtain rfl := Option.some.inj hs
    exact h
  · rename_i hidle
    rw [Bool.not_eq_true] at hidle
    obtain ⟨t, ht, rfl⟩ := Option.map_eq_some_iff.mp hs
    obtain ⟨hlines, hmem, hreceived, heaten, hactive, hptr, hcount, hfd, hring, hsz, hroom⟩ := prepare_spec ht
    have hheld : t.held = s.held := by
      unfold Buffer.held
      rw [hlines, hmem]
    have hstream : t.held = t.received.drop t.eaten := by rw [hheld, hreceived, heaten, h.stream]
    have heat : t.eaten ≤ t.received.length := by rw [hreceived, heaten]; exact h.eaten_le
    have hbounded : t.lines ≤ t.sz := by rw [hlines]; exact h.bounded.trans hsz
    by_cases hf : t.fd = true
    · rw [if_pos hf]
      refine ⟨hstream, heat, hbounded, ?_⟩
      intro r hr
      have hpos := newSize_pos h.bounded (hasks hidle (hfd ▸ hf))
      -- the ring is given what the buffer says
      have hread : r = ⟨t.alloc, t.ptr, t.count⟩ := by
        unfold Buffer.inFlight at hr
        rw [if_pos rfl, ite_self] at hr
        exact (Option.some.inj hr).symm
      subst hread
      refine ⟨?_, ?_, ?_, rfl⟩
      · dsimp only
        omega
      · exact hptr.trans hlines.symm
      · dsimp only
        omega
    · rw [if_neg hf]
      exact ⟨hstream, heat, hbounded, no_read (hactive.trans hidle)⟩

/-- Data that has been written behind what is held, in the room there is. -/
theorem Inv.arrived (h : Inv s) {t : Buffer} (hmem : t.mem = Buffer.writeAt s.mem s.lines data)
    (hlines : t.lines = s.lines) (hreceived : t.received = s.received) (heaten : t.eaten = s.eaten)
    (hactive : t.active = false) (hroom : s.lines + data.length ≤ t.sz) : Inv (t.hinLinesReadCallback data) := by
  unfold Buffer.hinLinesReadCallback
  split
  · rename_i hnone
    subst hnone
    have hsame : t.held = s.held := by
      unfold Buffer.held
      rw [hlines, hmem]
      apply List.map_congr_left
      intro i hi
      exact if_neg (Nat.not_le.mpr (List.mem_range.mp hi))
    refine ⟨?_, ?_, ?_, no_read hactive⟩
    · exact hsame.trans (by rw [h.stream, hreceived, heaten])
    · exact heaten.trans_le (h.eaten_le.trans_eq (congrArg List.length hreceived.symm))
    · exact hlines.trans_le ((Nat.le_add_right ..).trans hroom)
  · refine ⟨?_, ?_, ?_, no_read hactive⟩
    · unfold Buffer.held
      dsimp only
      rw [hmem, hlines, held_writeAt, hreceived, heaten, List.drop_append_of_le_length h.eaten_le, ← h.stream]
      rfl
    · dsimp only
      rw [heaten, hreceived, List.length_append]
      exact h.eaten_le.trans (Nat.le_add_right ..)
    · dsimp only
      rw [hlines]
      exact hroom

theorem Inv.write (h : Inv s) (hidle : s.active = false) (hs : s.hinLinesWrite data = some s') : Inv s' := by
  obtain ⟨t, ht, rfl⟩ := Option.map_eq_some_iff.mp hs
  obtain ⟨hlines, hmem, hreceived, heaten, hactive, hptr, -, -, -, -, hroom⟩ := prepare_spec ht
  refine h.arrived ?_ hlines hreceived heaten (hactive.trans hidle) hroom
  dsimp only
  rw [hmem, hptr]

/-- **A read lands behind what is held.** -/
theorem Inv.complete (h : Inv s) (hs : s.complete data = some s') : Inv s' := by
  unfold Buffer.complete at hs
  split at hs
  · exact absurd hs (by simp)
  · rename_i r hr
    obtain ⟨-, hbehind, hfits, hbase⟩ := h.read r hr
    by_cases hlen : data.length ≤ r.len
    · rw [if_pos hlen, if_pos hbase, hbehind] at hs
      obtain rfl := Option.some.inj hs
      refine h.arrived rfl rfl rfl rfl rfl ?_
      dsimp only
      omega
    · rw [if_neg hlen] at hs
      exact absurd hs (by simp)

theorem Inv.eat (h : Inv s) (hstays : Stays s num) (hs : s.hinBufferEat num = some s') : Inv s' := by
  unfold Buffer.hinBufferEat at hs
  dsimp only at hs
  split at hs
  · obtain rfl := Option.some.inj hs
    exact h
  · rename_i hnum
    split at hs
    · exact absurd hs (by simp)
    · rename_i hle
      obtain rfl := Option.some.inj hs
      have hcount : s.held.length = s.lines := by simp [Buffer.held]
      have htotal : s.lines = s.received.length - s.eaten := by
        rw [← hcount, h.stream, List.length_drop]
      have hbounded := h.bounded
      have heaten := h.eaten_le
      refine ⟨?_, ?_, ?_, ?_⟩
      · unfold Buffer.held
        dsimp only
        rw [held_moved, ← List.drop_drop, ← h.stream]
        rfl
      · dsimp only
        omega
      · dsimp only
        omega
      · intro r hr
        unfold Buffer.inFlight at hr
        dsimp only at hr
        split at hr
        · rename_i hactive
          split at hr
          · -- the ring may go on where nothing is moved
            rename_i hring
            have hzero : num.toNat = 0 := by
              have hn := hstays hactive hring
              omega
            have hread := h.read r (by unfold Buffer.inFlight; rw [if_pos hactive, if_pos hring]; exact hr)
            refine ⟨hread.positive, ?_, hread.fits, hread.base⟩
            dsimp only
            rw [hzero, Nat.sub_zero]
            exact hread.behind
          · -- the other ways use the pointer that has been moved
            rename_i hring
            obtain rfl := Option.some.inj hr
            have hread := h.read ⟨s.alloc, s.ptr, s.count⟩
              (by unfold Buffer.inFlight; rw [if_pos hactive, if_neg hring])
            have hpos := hread.positive
            have hbehind := hread.behind
            have hfits := hread.fits
            dsimp only at hpos hbehind hfits
            refine ⟨hpos, rfl, ?_, rfl⟩
            dsimp only
            omega
        · exact absurd hr (by simp)

theorem Inv.reread (h : Inv s) (hring : s.active = true → s.ring = true) : Inv s.hinLinesReread := by
  refine ⟨h.stream, h.eaten_le, h.bounded, ?_⟩
  intro r hr
  have hsame : s.inFlight = some r := by
    unfold Buffer.hinLinesReread Buffer.inFlight at hr
    unfold Buffer.inFlight
    dsimp only at hr
    split at hr
    · rename_i hactive
      rw [if_pos (hring hactive)] at hr
      rw [if_pos hactive, if_pos (hring hactive)]
      exact hr
    · exact absurd hr (by simp)
  obtain ⟨hpos, hbehind, hfits, hbase⟩ := h.read r hsame
  exact ⟨hpos, hbehind, hfits, hbase⟩

/-- **One careful event keeps the invariant.** -/
theorem Inv.step {e : Event} (h : Inv s) (hcare : Careful s e) (hs : step s e = some s') : Inv s' := by
  unfold Lines.step at hs
  split at hs
  · exact absurd hs (by simp)
  · cases e with
    | request min => exact h.request hcare hs
    | complete data => exact h.complete hs
    | write data => exact h.write hcare hs
    | reread =>
        obtain rfl := Option.some.inj hs
        exact h.reread hcare
    | eat num => exact h.eat hcare hs
    | returned num =>
        unfold Careful at hcare
        dsimp only at hcare hs
        unfold Buffer.hinLinesDefaultEat at hs
        split at hs
        · rename_i hpos
          rw [if_pos hpos] at hcare
          exact h.eat hcare hs
        · rename_i hpos
          rw [if_neg hpos] at hcare
          split at hs
          · rename_i hzero
            exact h.request (hcare hzero) hs
          · obtain rfl := Option.some.inj hs
            refine ⟨h.stream, h.eaten_le, h.bounded, ?_⟩
            intro r hr
            obtain ⟨hp, hbehind, hfits, hbase⟩ := h.read r hr
            exact ⟨hp, hbehind, hfits, hbase⟩

theorem create_inv (sz : Nat) (mem : Nat → UInt8) (fd ring : Bool) : Inv (hinLinesCreateRaw sz mem fd ring) :=
  ⟨rfl, Nat.le_refl 0, Nat.zero_le sz, no_read rfl⟩

/-- **The buffer stays as it should be**, as long as it is only worked on behind no read's back. -/
theorem lines_sound (sz : Nat) (mem : Nat → UInt8) (fd ring : Bool) {es : List Event} {s : Buffer}
    (hrun : Lib.RunWith step Careful (hinLinesCreateRaw sz mem fd ring) es s) : Sound s :=
  (hrun.invariant (I := Inv) (create_inv sz mem fd ring) fun _ _ _ h hcare hs => h.step hcare hs).sound

instance (s : Buffer) (min : Int) : Decidable (Asks s min) :=
  inferInstanceAs (Decidable (s.active = false → s.fd = true → ¬(s.sz < 2 ∧ s.lines = s.sz ∧ min ≤ 0)))

instance (s : Buffer) (num : Int) : Decidable (Stays s num) :=
  inferInstanceAs (Decidable (s.active = true → s.ring = true → num ≤ 0))

instance (s : Buffer) : (e : Event) → Decidable (Careful s e)
  | .request min => inferInstanceAs (Decidable (Asks s min))
  | .complete _ => inferInstanceAs (Decidable True)
  | .write _ => inferInstanceAs (Decidable (s.active = false))
  | .reread => inferInstanceAs (Decidable (s.active = true → s.ring = true))
  | .eat num => inferInstanceAs (Decidable (Stays s num))
  | .returned num => inferInstanceAs (Decidable (if num > 0 then Stays s num else num = 0 → Asks s 0))

/-- Two reads, with something eaten in between, and a third one for which the buffer grows. -/
def sampleEvents : List Event :=
  [.request 0, .complete [1, 2, 3], .eat 2, .request 0, .complete [4, 5, 6], .returned 0]

theorem lines_sound_sample : ∃ s, Lib.RunWith step Careful (hinLinesCreateRaw 4 (fun _ => 0) true true) sampleEvents s ∧
    s.held = [3, 4, 5, 6] ∧ s.inFlight = some ⟨1, 4, 4096⟩ ∧ Sound s := by
  obtain ⟨s, hexec, hs⟩ : ∃ s, Lib.execWith step (fun s e => decide (Careful s e))
      (hinLinesCreateRaw 4 (fun _ => 0) true true) sampleEvents = some s ∧
      (s.held, s.inFlight) = ([3, 4, 5, 6], some ⟨1, 4, 4096⟩) := by
    rw [← Option.map_eq_some_iff]
    decide
  have hrun := Lib.RunWith.of_exec (fun _ _ => of_decide_eq_true) sampleEvents hexec
  exact ⟨s, hrun, congrArg Prod.fst hs, congrArg Prod.snd hs, lines_sound 4 (fun _ => 0) true true hrun⟩

/-- **A buffer that is written to while it is read into.** It grows, and the read goes to where it was before. -/
theorem lines_unsound : ¬ ∀ (sz : Nat) (mem : Nat → UInt8) (fd ring : Bool) (es : List Event) (s : Buffer),
    Lib.Run step (hinLinesCreateRaw sz mem fd ring) es s → Sound s := by
  intro hall
  obtain ⟨s, hexec, hs⟩ : ∃ s, Lib.execWith step (fun _ _ => true) (hinLinesCreateRaw 4 (fun _ => 0) true true)
      [.request 0, .write [1, 2, 3, 4, 5]] = some s ∧ (s.inFlight, s.alloc) = (some ⟨0, 0, 4⟩, 1) := by
    rw [← Option.map_eq_some_iff]
    decide
  have hrun := Lib.RunWith.of_exec (fun _ _ _ => trivial) _ hexec
  have hbase := (hall 4 (fun _ => 0) true true _ s hrun).base ⟨0, 0, 4⟩ (congrArg Prod.fst hs)
  rw [show s.alloc = 1 from congrArg Prod.snd hs] at hbase
  exact absurd hbase (by decide)

end Lines
end Netcode
end Hin9
