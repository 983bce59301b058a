import Hin9.Netcode.Pipe
import Hin9.Lib.Fifo
import Hin9.Lib.Runs

/-!
# `Netcode.PipeInvariant` — a copying pipe is a byte channel

The bytes a pipe holds are the view of the buffer being written followed by the views of the queue (`pending`).
Submitting reads and writes, condensing included, changes how they are cut into buffers but not the bytes; a
completed read puts its data behind them, a completed write takes what it wrote from their front. So every
completion is one operation of the abstract channel `Lib.Fifo` (`traffic_refines`), and conservation of the
stream is that of the channel.

`Inv` collects what the counters say along a run: `left` against the bytes received, the file positions against
the bytes accepted, and the count and the hash of what was accepted. `step_inv` is the step lemma,
`pipe_stream_invariant` the run.
-/

namespace Hin9
namespace Netcode

open Lib

/-! ## Views -/

namespace Buffer

theorem length_view (b : Buffer) : b.view.length = b.count := by
  have := b.bounds
  simp only [view, List.length_take, List.length_drop]
  omega

theorem view_consume (b : Buffer) (len : Nat) (h : len ≤ b.count) : (b.consume len h).view = b.view.drop len := by
  simp only [view, consume, List.drop_take, List.drop_drop]

theorem view_compact (b : Buffer) : b.compact.view = b.view := by
  have h := b.length_view
  simp only [compact, view, List.drop_zero] at h ⊢
  rw [List.take_append_of_le_length (Nat.le_of_eq h.symm), List.take_of_length_le (Nat.le_of_eq h)]

theorem view_append (b : Buffer) (data : Bytes) (h : b.ptr + b.count + data.length ≤ b.sz) :
    (b.append data h).view = b.view ++ data := by
  have hb := b.bounds
  have h1 : (b.store.take (b.ptr + b.count)).length = b.ptr + b.count := by
    rw [List.length_take]; omega
  simp only [view, append]
  rw [List.append_assoc, List.drop_append_of_le_length (by omega), List.drop_take, Nat.add_sub_cancel_left,
    ← List.append_assoc, List.take_append_of_le_length]
  · rw [List.take_of_length_le]
    simp only [List.length_append, List.length_take, List.length_drop]
    omega
  · simp only [List.length_append, List.length_take, List.length_drop]
    omega

theorem view_ofRead (data : Bytes) : (ofRead data).view = data := by
  simp [view, ofRead]

end Buffer

def views (que : List Buffer) : Bytes := que.flatMap Buffer.view

@[simp] theorem views_nil : views [] = [] := rfl

@[simp] theorem views_cons (b : Buffer) (que : List Buffer) : views (b :: que) = b.view ++ views que := rfl

@[simp] theorem views_append (que que' : List Buffer) : views (que ++ que') = views que ++ views que' :=
  List.flatMap_append

theorem Buffer.room_append (b : Buffer) (data : Bytes) (h : b.ptr + b.count + data.length ≤ b.sz) :
    (b.append data h).room = b.room - data.length := by
  simp only [sz] at h
  simp only [room, sz, append, List.length_append, List.length_take, List.length_drop]
  omega

/-- A full buffer takes nothing more. -/
theorem condenseLoop_full {b : Buffer} (h : b.room = 0) (rest : List Buffer) : condenseLoop b rest = (b, rest) := by
  cases rest with
  | nil => rfl
  | cons c rest => rw [condenseLoop, if_pos ⟨by omega, h⟩]

/-- **Condensing moves bytes, it does not change them.** By induction on the buffers behind the head; a buffer
    that is not emptied has filled the head, and the loop ends there. -/
theorem condenseLoop_views (b : Buffer) (rest : List Buffer) :
    (condenseLoop b rest).1.view ++ views (condenseLoop b rest).2 = b.view ++ views rest := by
  induction rest generalizing b with
  | nil => rfl
  | cons c rest ih =>
      have hlen : (c.view.take (min b.room c.count)).length = min b.room c.count := by
        rw [List.length_take, c.length_view]
        omega
      rw [condenseLoop]
      split
      · rfl
      · simp only
        split
        · rename_i hzero
          have hall : c.count ≤ min b.room c.count := by
            simp only [Buffer.consume] at hzero
            omega
          rw [ih, Buffer.view_append, Buffer.view_compact, views_cons, List.append_assoc,
            List.take_of_length_le (by rw [c.length_view]; exact hall)]
        · rename_i hsome
          rw [condenseLoop_full]
          · rw [views_cons, views_cons, Buffer.view_append, Buffer.view_compact, Buffer.view_consume,
              List.append_assoc, ← List.append_assoc (List.take _ _), List.take_append_drop]
          · rw [Buffer.room_append, Buffer.room_compact, hlen]
            simp only [Buffer.consume] at hsome
            omega

/-- The bytes in a pipe: what is being written, then the queue. -/
def Pipe.pending (p : Pipe) : Bytes := views p.writing ++ views p.writeQue

/-! ## A pipe and its traffic -/

/-- The settings of a pipe before `hin_pipe_start`. -/
structure PipeConfig where
  condense : Bool
  hashFlag : Bool
  inCount : Bool
  inOffsets : Bool
  outOffsets : Bool
  inInactive : Bool
  inDone : Bool
  left : Int
  inPos : Nat
  outPos : Nat

/-- A pipe with these settings and the given buffers queued. -/
def PipeConfig.pipe (c : PipeConfig) (que : List Buffer) : Pipe where
  input :=
    { done := c.inDone, inactive := c.inInactive, offsets := c.inOffsets, count := c.inCount, pos := c.inPos }
  output := { offsets := c.outOffsets, pos := c.outPos }
  condense := c.condense
  hashFlag := c.hashFlag
  left := c.left
  writeQue := que

/-- A pipe with the bytes it received and the log of what its output accepted, piece by piece with the file
    position of each. -/
structure Traffic where
  pipe : Pipe
  received : Bytes := []
  landed : List (Nat × Bytes) := []

def Traffic.start (c : PipeConfig) (que : List Buffer) : Traffic := ⟨hinPipeStart ⟨true, true⟩ (c.pipe que), [], []⟩

/-- One completion, with the bytes it moved recorded. -/
def Traffic.step (t : Traffic) (e : Submit × Event) : Option Traffic :=
  (Netcode.step t.pipe e).map fun p =>
    { pipe := p
      received := match e.2 with
        | .readDone data => t.received ++ data
        | _ => t.received
      landed := match e.2, t.pipe.writing with
        | .writeDone n, b :: _ => t.landed ++ [(b.pos, b.view.take n)]
        | _, _ => t.landed }

/-- A completion without an error, with every submission it leads to accepted. -/
def smooth (_ : Traffic) (e : Submit × Event) : Bool :=
  e.1 == ⟨true, true⟩ && match e.2 with
    | .readDone _ | .writeDone _ => true
    | .readFailed _ | .writeFailed _ => false

def Smooth (t : Traffic) (e : Submit × Event) : Prop := smooth t e = true

/-- What holds of a pipe that has received `received` and whose output accepted the pieces `landed`. -/
structure Inv (c : PipeConfig) (p : Pipe) (received : Bytes) (landed : List (Nat × Bytes)) : Prop where
  inOffsets : p.input.offsets = c.inOffsets
  inCount : p.input.count = c.inCount
  outOffsets : p.output.offsets = c.outOffsets
  hashFlag : p.hashFlag = c.hashFlag
  writing_le : p.writing.length ≤ 1
  reading_le : p.reading.length ≤ 1
  done : p.input.done = true → p.reading = []
  closed : p.output.inactive = true →
    p.input.inactive = true ∧ p.reading = [] ∧ p.writing = [] ∧ p.writeQue = []
  left : c.inCount = true → p.left = c.left - received.length
  forwarded : c.inCount = true → (received.length : Int) ≤ max c.left 0
  requested : c.inCount = true → ∀ r ∈ p.reading, 0 < p.left ∧ r.count ≤ p.left
  inPos : c.inOffsets = true →
    p.input.pos = c.inPos + received.length ∧ ∀ r ∈ p.reading, r.pos = c.inPos + received.length
  outPos : c.outOffsets = true →
    p.output.pos = c.outPos + (written landed).length + (views p.writing).length
  writePos : c.outOffsets = true →
    ∀ b ∈ p.writing, b.offsets = true ∧ b.pos = c.outPos + (written landed).length
  contiguous : c.outOffsets = true → Contiguous c.outPos landed
  count : p.count = (written landed).length
  hash : c.hashFlag = true → p.hash = (written landed).foldl hashByte 6883

section

variable {c : PipeConfig} {p : Pipe} {received : Bytes} {landed : List (Nat × Bytes)}

/-! ## Closing, reading, writing -/

theorem hinPipeClose_inv (h : Inv c p received landed) (hr : p.reading = []) (hw : p.writing = []) :
    Inv c (hinPipeClose p) received landed where
  inOffsets := h.inOffsets
  inCount := h.inCount
  outOffsets := h.outOffsets
  hashFlag := h.hashFlag
  writing_le := h.writing_le
  reading_le := h.reading_le
  done _ := hr
  closed _ := ⟨rfl, hr, hw, rfl⟩
  left := h.left
  forwarded := h.forwarded
  requested := h.requested
  inPos := h.inPos
  outPos := h.outPos
  writePos := h.writePos
  contiguous := h.contiguous
  count := h.count
  hash := h.hash

/-- An accepted read: one request, within `left` and at the position reached. -/
theorem hinPipeReadNext_inv (h : Inv c p received landed) (hr : p.reading = []) (hdone : p.input.done = false)
    (hopen : p.output.inactive = false) (hleft : c.inCount = true → 0 < p.left) :
    Inv c (hinPipeReadNext ⟨true, true⟩ p).1 received landed := by
  have hsize : c.inCount = true → readSize p ≤ p.left := by
    intro hc
    have h0 := hleft hc
    simp only [readSize, h.inCount, hc, Bool.true_and, decide_eq_true_eq]
    split
    · exact Int.le_refl _
    · split
      · split <;> omega
      · omega
  unfold hinPipeReadNext
  split
  · exact h
  · simp only [if_true]
    refine { h with reading_le := ?_, done := ?_, closed := ?_, requested := ?_, inPos := ?_ }
    · simp [hr]
    · intro hd
      rw [hdone] at hd
      exact absurd hd (by simp)
    · intro hd
      rw [hopen] at hd
      exact absurd hd (by simp)
    · intro hc r hmem
      obtain rfl : r = ⟨readSize p, p.input.pos⟩ := by simpa [hr] using hmem
      exact ⟨hleft hc, hsize hc⟩
    · intro hc
      refine ⟨(h.inPos hc).1, fun r hmem => ?_⟩
      obtain rfl : r = ⟨readSize p, p.input.pos⟩ := by simpa [hr] using hmem
      exact (h.inPos hc).1

/-- An accepted submission of the head: the position advances by what is submitted. -/
theorem submitHead_inv (h : Inv c p received landed) (hw : p.writing = []) (hopen : p.output.inactive = false)
    (b : Buffer) (rest : List Buffer) : Inv c (submitHead ⟨true, true⟩ p b rest).1 received landed := by
  simp only [submitHead, if_true, hw, List.nil_append]
  refine { h with outOffsets := ?_, writing_le := ?_, closed := ?_, outPos := ?_, writePos := ?_ }
  · simp only
    split <;> exact h.outOffsets
  · simp
  · intro hd
    split at hd <;> exact absurd (hopen.symm.trans hd) (by simp)
  · intro hc
    have := h.outPos hc
    simp only [h.outOffsets, hc, if_true, views_cons, views_nil, List.append_nil, hw, List.length_nil] at this ⊢
    rw [this, Buffer.length_view]
    rfl
  · intro hc b' hmem
    have := h.outPos hc
    simp only [hw, views_nil, List.length_nil, Nat.add_zero] at this
    obtain rfl := List.mem_singleton.mp hmem
    exact ⟨h.outOffsets.trans hc, this⟩

theorem hinPipeWriteNext_inv (h : Inv c p received landed) (hw : p.writing = [])
    (hopen : p.output.inactive = false) : Inv c (hinPipeWriteNext ⟨true, true⟩ p).1 received landed := by
  unfold hinPipeWriteNext
  split
  · exact h
  · split
    · split
      · exact h
      · exact submitHead_inv h hw hopen _ _
    · exact submitHead_inv h hw hopen _ _

/-! ## The bytes stay -/

theorem submitHead_pending (hw : p.writing = []) (b : Buffer) (rest : List Buffer) :
    (submitHead ⟨true, true⟩ p b rest).1.pending = b.view ++ views rest := by
  simp only [submitHead, if_true, Pipe.pending, hw, List.nil_append, views_cons, views_nil, List.append_nil]
  rfl

theorem hinPipeWriteNext_pending (hw : p.writing = []) :
    (hinPipeWriteNext ⟨true, true⟩ p).1.pending = p.pending := by
  have hp : p.pending = views p.writeQue := by simp [Pipe.pending, hw]
  rw [hp]
  unfold hinPipeWriteNext
  split
  · simp [Pipe.pending, hw]
  · rename_i b rest hque
    rw [hque]
    split
    · split
      · rw [hp, hque]
      · rw [submitHead_pending hw, condenseLoop_views, views_cons]
    · rw [submitHead_pending hw, views_cons]

theorem hinPipeReadNext_pending : (hinPipeReadNext ⟨true, true⟩ p).1.pending = p.pending := by
  unfold hinPipeReadNext
  split <;> rfl

/-! ## `hin_pipe_advance` -/

/-- Marking the input as done needs no read in flight. -/
theorem inputDone_inv (h : Inv c p received landed) (hr : p.reading = []) :
    Inv c { p with input := { p.input with done := true } } received landed :=
  { h with done := fun _ => hr }

theorem outputDone_inv (h : Inv c p received landed) :
    Inv c { p with output := { p.output with done := true } } received landed :=
  { h with }

/-- `hin_pipe_advance` keeps the invariant and the bytes: it only closes a pipe that holds none. -/
theorem hinPipeAdvance_spec (h : Inv c p received landed) :
    Inv c (hinPipeAdvance ⟨true, true⟩ p) received landed ∧ (hinPipeAdvance ⟨true, true⟩ p).pending = p.pending := by
  have hfirst : ∀ q, q = (if p.input.count && decide (p.left ≤ 0) then
      { p with input := { p.input with done := true } } else p) →
      Inv c q received landed ∧ q.pending = p.pending ∧ (q.input.done = false → c.inCount = true → 0 < q.left) := by
    rintro q rfl
    split
    · rename_i hle
      simp only [Bool.and_eq_true, decide_eq_true_eq] at hle
      refine ⟨inputDone_inv h ?_, rfl, by simp⟩
      cases hr : p.reading with
      | nil => rfl
      | cons r _ =>
          have := (h.requested (h.inCount ▸ hle.1) r (by simp [hr])).1
          omega
    · rename_i hgt
      refine ⟨h, rfl, fun _ hc => ?_⟩
      simp only [h.inCount, hc, Bool.true_and, decide_eq_true_eq] at hgt
      omega
  unfold hinPipeAdvance
  simp only
  generalize hq : (if p.input.count && decide (p.left ≤ 0) then
    { p with input := { p.input with done := true } } else p) = q
  obtain ⟨hi, hpend, hleft⟩ := hfirst q hq.symm
  split
  · -- nothing is held and both sides are done
    rename_i hclose
    simp only [Bool.and_eq_true, List.isEmpty_iff] at hclose
    refine ⟨hinPipeClose_inv hi (hi.done hclose.1.2) hclose.1.1.2, ?_⟩
    rw [← hpend]
    simp [Pipe.pending, hinPipeClose, hclose.1.1.1, hclose.1.1.2]
  · have hread : ∀ r, r = (if !q.input.done && !q.input.inactive && q.reading.isEmpty &&
        decide (queued q.writeQue < READ_SZ * 2) then hinPipeReadNext ⟨true, true⟩ q else (q, true)) →
        Inv c r.1 received landed ∧ r.1.pending = p.pending := by
      rintro r rfl
      split
      · rename_i hread
        simp only [Bool.and_eq_true, Bool.not_eq_true', List.isEmpty_iff] at hread
        obtain ⟨⟨⟨hdone, hinactive⟩, hreading⟩, -⟩ := hread
        refine ⟨hinPipeReadNext_inv hi hreading hdone ?_ (hleft hdone), hinPipeReadNext_pending.trans hpend⟩
        cases hopen : q.output.inactive with
        | false => rfl
        | true => exact absurd ((hi.closed hopen).1.symm.trans hinactive) (by simp)
      · exact ⟨hi, hpend⟩
    generalize hr : (if !q.input.done && !q.input.inactive && q.reading.isEmpty &&
      decide (queued q.writeQue < READ_SZ * 2) then hinPipeReadNext ⟨true, true⟩ q else (q, true)) = r
    obtain ⟨h1, h2⟩ := hread r hr.symm
    split
    · split
      · rename_i hwrite
        simp only [Bool.and_eq_true, Bool.not_eq_true', List.isEmpty_iff] at hwrite
        obtain ⟨hque, hw⟩ := hwrite
        refine ⟨hinPipeWriteNext_inv h1 hw ?_, (hinPipeWriteNext_pending hw).trans h2⟩
        cases hopen : r.1.output.inactive with
        | false => rfl
        | true => simp [(h1.closed hopen).2.2.2] at hque
      · exact ⟨h1, h2⟩
    · exact ⟨h1, h2⟩

/-! ## Completions -/

/-- Queueing received data: `left` goes down and the input position up by its length. -/
theorem hinPipeProcessBuffer_spec (h : Inv c p received landed) (hr : p.reading = [])
    (hopen : p.output.inactive = false) (data : Bytes)
    (hfit : c.inCount = true → (received.length + data.length : Int) ≤ max c.left 0) :
    Inv c (hinPipeProcessBuffer p (.ofRead data)) (received ++ data) landed ∧
      (hinPipeProcessBuffer p (.ofRead data)).pending = p.pending ++ data := by
  have hcount : (Buffer.ofRead data).count = data.length := rfl
  unfold hinPipeProcessBuffer
  rw [if_neg (by simp [hopen])]
  simp only [hcount]
  generalize hq : ({ p with
    left := if p.input.count then p.left - data.length else p.left
    input := { p.input with
      pos := if p.input.offsets then p.input.pos + data.length else p.input.pos
      done := p.input.done || (p.input.count && decide
        ((if p.input.count then p.left - data.length else p.left) ≤ 0)) } } : Pipe) = q
  have hi : Inv c q (received ++ data) landed := by
    subst hq
    refine { h with
      done := fun _ => hr, closed := fun hd => absurd (hopen.symm.trans hd) (by simp)
      left := ?_, forwarded := ?_, requested := ?_, inPos := ?_ }
    · intro hc
      simp only [h.inCount, hc, if_true, h.left hc, List.length_append]
      omega
    · intro hc
      rw [List.length_append]
      exact hfit hc
    · intro _ r hmem
      simp [hr] at hmem
    · intro hc
      refine ⟨?_, fun r hmem => by simp [hr] at hmem⟩
      simp only [h.inOffsets, hc, if_true, (h.inPos hc).1, List.length_append, Nat.add_assoc]
  have hpend : q.pending = p.pending := by subst hq; rfl
  have hqopen : q.output.inactive = false := by subst hq; exact hopen
  unfold hinPipeCopyRaw
  split
  · rename_i h0
    have hnil : data = [] := List.length_eq_zero_iff.mp h0
    refine ⟨hi, ?_⟩
    rw [hpend, hnil, List.append_nil]
  · refine ⟨{ hi with closed := fun hd => absurd (hqopen.symm.trans hd) (by simp) }, ?_⟩
    rw [← hpend]
    simp only [hinPipeAppendRaw, Pipe.pending, views_append, views_cons, views_nil, List.append_nil,
      Buffer.view_ofRead, List.append_assoc]

/-- A completed read. -/
theorem hinPipeReadCallback_spec (h : Inv c p received landed) {r : ReadReq} {rs : List ReadReq}
    (hr : p.reading = r :: rs) {data : Bytes} (hle : (data.length : Int) ≤ r.count) :
    Inv c (hinPipeReadCallback ⟨true, true⟩ p data) (received ++ data) landed ∧
      (hinPipeReadCallback ⟨true, true⟩ p data).pending = p.pending ++ data := by
  have htail : p.reading.tail = [] := by
    have := h.reading_le
    rw [hr] at this ⊢
    exact List.eq_nil_of_length_eq_zero (by simpa using this)
  have hopen : p.output.inactive = false := by
    cases hopen : p.output.inactive with
    | false => rfl
    | true => simp [(h.closed hopen).2.1] at hr
  have hfit : c.inCount = true → (received.length + data.length : Int) ≤ max c.left 0 := by
    intro hc
    have h1 := (h.requested hc r (by simp [hr])).2
    have h2 := h.left hc
    omega
  -- the pipe after the request left the list, with or without the end of the input
  have hi : ∀ done, Inv c { p with input := { p.input with done }, reading := p.reading.tail } received landed := by
    intro done
    rw [htail]
    refine { h with
      reading_le := by simp, done := fun _ => rfl, closed := fun hd => absurd (hopen.symm.trans hd) (by simp)
      requested := fun _ r hmem => by simp at hmem, inPos := fun hc => ⟨(h.inPos hc).1, by simp⟩ }
  have hend : ∀ q : Pipe, (∃ done, q = { p with input := { p.input with done } }) →
      Inv c (readCallbackEnd ⟨true, true⟩ q data) (received ++ data) landed ∧
        (readCallbackEnd ⟨true, true⟩ q data).pending = p.pending ++ data := by
    rintro q ⟨done, rfl⟩
    obtain ⟨h1, h2⟩ := hinPipeProcessBuffer_spec (hi done) htail hopen data hfit
    simp only [readCallbackEnd]
    split
    · obtain ⟨h3, h4⟩ := hinPipeAdvance_spec (outputDone_inv h1)
      exact ⟨h3, h4.trans h2⟩
    · obtain ⟨h3, h4⟩ := hinPipeAdvance_spec h1
      exact ⟨h3, h4.trans h2⟩
  unfold hinPipeReadCallback
  simp only
  split
  · exact hend _ ⟨true, rfl⟩
  · exact hend _ ⟨p.input.done, rfl⟩

/-- A completed write of `n` bytes of the buffer `b`, whole or in part. -/
theorem hinPipeWriteCallback_spec (h : Inv c p received landed) {b : Buffer} {bs : List Buffer}
    (hw : p.writing = b :: bs) {n : Nat} (hle : n ≤ b.count) :
    Inv c (hinPipeWriteCallback ⟨true, true⟩ p b n hle) received (landed ++ [(b.pos, b.view.take n)]) ∧
      (hinPipeWriteCallback ⟨true, true⟩ p b n hle).pending = p.pending.drop n := by
  obtain rfl : bs = [] := by
    have := h.writing_le
    rw [hw] at this
    exact List.eq_nil_of_length_eq_zero (by simpa using this)
  have hopen : p.output.inactive = false := by
    cases hopen : p.output.inactive with
    | false => rfl
    | true => simp [(h.closed hopen).2.2.1] at hw
  have hlen : (b.view.take n).length = n := by
    rw [List.length_take, b.length_view]
    omega
  have hwritten : written (landed ++ [(b.pos, b.view.take n)]) = written landed ++ b.view.take n := by
    rw [written_append]
    simp [written]
  have hviews : (views p.writing).length = b.count := by simp [hw, b.length_view]
  -- the pipe with the accepted bytes counted and `rest` in place of the write that completed
  have hi : ∀ (rest : List Buffer), (∀ b' ∈ rest, b'.offsets = b.offsets ∧ (b.offsets = true → b'.pos = b.pos + n)) →
      rest.length ≤ 1 → (views rest).length = b.count - n → ∀ hash,
      hash = (if p.hashFlag then (b.view.take n).foldl hashByte p.hash else p.hash) →
      Inv c { p with output := { p.output with done := true }, count := p.count + n, hash, writing := rest }
        received (landed ++ [(b.pos, b.view.take n)]) := by
    rintro rest hrest hone hrestlen _ rfl
    refine { h with
      writing_le := hone, closed := fun hd => absurd (hopen.symm.trans hd) (by simp)
      outPos := ?_, writePos := ?_, contiguous := ?_, count := ?_, hash := ?_ }
    · intro hc
      have := h.outPos hc
      rw [hwritten, List.length_append, hlen, hrestlen]
      rw [hviews] at this
      simp only [this]
      omega
    · intro hc b' hmem
      have hb := h.writePos hc b (by simp [hw])
      obtain ⟨h1, h2⟩ := hrest b' hmem
      refine ⟨h1.trans hb.1, ?_⟩
      rw [h2 hb.1, hwritten, List.length_append, hlen, hb.2, Nat.add_assoc]
    · intro hc
      exact (h.contiguous hc).snoc (h.writePos hc b (by simp [hw])).2
    · rw [hwritten, List.length_append, hlen, ← h.count]
    · intro hc
      rw [hwritten, List.foldl_append, ← h.hash hc]
      simp [h.hashFlag, hc]
  have hdrop : p.pending.drop n = b.view.drop n ++ views p.writeQue := by
    simp only [Pipe.pending, hw, views_cons, views_nil, List.append_nil]
    rw [List.drop_append_of_le_length (by rw [b.length_view]; exact hle)]
  unfold hinPipeWriteCallback
  simp only [hw, List.tail_cons, if_true]
  split
  · -- a partial write: the same buffer goes on behind the accepted bytes
    rename_i hlt
    refine ⟨hi _ ?_ (by simp) ?_ _ rfl, ?_⟩
    · intro b' hmem
      obtain rfl := List.mem_singleton.mp hmem
      cases hoff : b.offsets <;> simp [Buffer.consume, hoff]
    · rw [views_cons, views_nil, List.append_nil, Buffer.length_view]
      split <;> rfl
    · rw [hdrop]
      simp only [Pipe.pending, views_cons, views_nil, List.append_nil]
      congr 1
      split
      · exact b.view_consume n hle
      · exact b.view_consume n hle
  · -- the buffer is done: the next one is submitted
    rename_i hge
    have hn : n = b.count := by omega
    obtain h1 := hi [] (by simp) (by simp) (by simp [hn]) _ rfl
    have hnil : b.view.drop n = [] := List.drop_of_length_le (by rw [b.length_view]; omega)
    rw [hnil, List.nil_append] at hdrop
    split
    · obtain ⟨h2, h3⟩ := hinPipeAdvance_spec h1
      refine ⟨h2, h3.trans ?_⟩
      rw [hdrop]
      simp [Pipe.pending]
    · have hnext := hinPipeWriteNext_inv h1 rfl hopen
      obtain ⟨h2, h3⟩ := hinPipeAdvance_spec hnext
      refine ⟨h2, h3.trans ((hinPipeWriteNext_pending rfl).trans ?_)⟩
      rw [hdrop]
      simp [Pipe.pending]

end

/-! ## Runs -/

/-- The channel a pipe is: what its output accepted, and what it holds. -/
def Traffic.fifo (t : Traffic) : Fifo UInt8 := ⟨written t.landed, t.pipe.pending⟩

/-- A completion as an operation of the channel. -/
def eventOp (e : Submit × Event) : Fifo.Op UInt8 :=
  match e.2 with
  | .readDone data => .put data
  | .writeDone n => .take n
  | _ => .take 0

theorem start_spec (c : PipeConfig) (que : List Buffer) :
    Inv c (Traffic.start c que).pipe [] [] ∧ (Traffic.start c que).fifo = ⟨[], views que⟩ := by
  have h0 : ∀ hash, (c.hashFlag = true → hash = 6883) →
      Inv c { c.pipe que with hash, output := { (c.pipe que).output with done := true } } [] [] := by
    intro hash hhash
    exact {
      inOffsets := rfl, inCount := rfl, outOffsets := rfl, hashFlag := rfl
      writing_le := Nat.zero_le 1, reading_le := Nat.zero_le 1, done := fun _ => rfl
      closed := fun h => absurd h (by simp [PipeConfig.pipe])
      left := fun _ => (Int.sub_zero c.left).symm
      forwarded := fun _ => Int.le_max_right _ _
      requested := fun _ r hr => absurd hr (by simp [PipeConfig.pipe])
      inPos := fun _ => ⟨rfl, fun r hr => absurd hr (by simp [PipeConfig.pipe])⟩
      outPos := fun _ => rfl
      writePos := fun _ b hb => absurd hb (by simp [PipeConfig.pipe])
      contiguous := fun _ => trivial, count := rfl, hash := hhash }
  have h1 : Inv c (Traffic.start c que).pipe [] [] ∧ (Traffic.start c que).pipe.pending = views que := by
    simp only [Traffic.start, hinPipeStart]
    split
    · exact hinPipeAdvance_spec (h0 6883 fun _ => rfl)
    · rename_i hflag
      exact hinPipeAdvance_spec (h0 0 fun hc => absurd hc hflag)
  refine ⟨h1.1, ?_⟩
  rw [Traffic.fifo, h1.2]
  rfl

/-- **The step lemma.** A completion keeps the invariant, and is one operation of the channel. -/
theorem step_spec {c : PipeConfig} {t t' : Traffic} {e : Submit × Event}
    (h : Inv c t.pipe t.received t.landed) (hsmooth : Smooth t e) (hs : t.step e = some t') :
    Inv c t'.pipe t'.received t'.landed ∧ t'.fifo = t.fifo.step (eventOp e) ∧
      t'.received = t.received ++ Fifo.puts [eventOp e] := by
  obtain ⟨sub, ev⟩ := e
  obtain ⟨hsub, hev⟩ := (Bool.and_eq_true _ _).mp hsmooth
  obtain rfl : sub = ⟨true, true⟩ := by simpa using hsub
  obtain ⟨p, hp, rfl⟩ := Option.map_eq_some_iff.mp hs
  cases ev with
  | readFailed _ => simp at hev
  | writeFailed _ => simp at hev
  | readDone data =>
    simp only [step] at hp
    split at hp
    · rename_i r rs hr
      split at hp
      · rename_i hle
        obtain rfl := Option.some.inj hp
        obtain ⟨h1, h2⟩ := hinPipeReadCallback_spec h hr hle
        refine ⟨h1, ?_, ?_⟩
        · simp only [Traffic.fifo, h2]
          rfl
        · simp [eventOp, Fifo.puts]
      · simp at hp
    · simp at hp
  | writeDone n =>
    simp only [step] at hp
    split at hp
    · rename_i b bs hw
      split at hp
      · rename_i hle
        obtain rfl := Option.some.inj hp
        obtain ⟨h1, h2⟩ := hinPipeWriteCallback_spec h hw hle
        simp only [hw]
        refine ⟨h1, ?_, ?_⟩
        · simp only [Traffic.fifo, h2, eventOp, Fifo.step]
          congr 1
          rw [written_append, Pipe.pending, hw, views_cons, List.append_assoc,
            List.take_append_of_le_length (by rw [b.length_view]; exact hle)]
          simp [written]
        · simp [eventOp, Fifo.puts]
      · simp at hp
    · simp at hp

/-- **A pipe refines the channel.** Along every run of completions the invariant holds, and the accepted bytes
    and the bytes held are those of the channel after the same operations. -/
theorem traffic_refines {c : PipeConfig} {que : List Buffer} {es : List (Submit × Event)} {t : Traffic}
    (h : RunWith Traffic.step Smooth (Traffic.start c que) es t) :
    Inv c t.pipe t.received t.landed ∧ t.fifo = (Fifo.mk [] (views que)).run (es.map eventOp) ∧
      t.received = Fifo.puts (es.map eventOp) := by
  refine RunWith.invariant_trace (I := fun es t => Inv c t.pipe t.received t.landed ∧
    t.fifo = (Fifo.mk [] (views que)).run (es.map eventOp) ∧ t.received = Fifo.puts (es.map eventOp)) ?_ ?_ h
  · obtain ⟨h1, h2⟩ := start_spec c que
    exact ⟨h1, h2, rfl⟩
  · rintro es s e s' ⟨h1, h2, h3⟩ hsmooth hs
    obtain ⟨h4, h5, h6⟩ := step_spec h1 hsmooth hs
    refine ⟨h4, ?_, ?_⟩
    · rw [h5, h2, List.map_append, Fifo.run_append]
      rfl
    · rw [h6, h3, List.map_append, Fifo.puts_append]
      rfl

/-- **The stream of a copying pipe.** For all settings, all buffers queued at the start and all orders of read
    and write completions: the accepted bytes, the rest of the write in flight and the queue are the queued
    bytes followed by the bytes read; a counted input never asks for more than `left`; writes with offsets lie
    one behind the other; and the count and the hash are those of the accepted bytes. -/
theorem pipe_stream_invariant (c : PipeConfig) (que : List Buffer) (es : List (Submit × Event)) (t : Traffic)
    (h : RunWith Traffic.step Smooth (Traffic.start c que) es t) :
    written t.landed ++ (views t.pipe.writing ++ views t.pipe.writeQue) = views que ++ t.received ∧
      t.pipe.writing.length ≤ 1 ∧
      (c.inCount = true → (t.received.length : Int) ≤ max c.left 0 ∧
        ∀ r ∈ t.pipe.reading, t.received.length + r.count ≤ c.left) ∧
      (c.outOffsets = true → Contiguous c.outPos t.landed) ∧
      t.pipe.count = (written t.landed).length ∧
      (c.hashFlag = true → t.pipe.hash = (written t.landed).foldl hashByte 6883) := by
  obtain ⟨hi, hf, hr⟩ := traffic_refines h
  refine ⟨?_, hi.writing_le, fun hc => ⟨hi.forwarded hc, fun r hmem => ?_⟩, hi.contiguous, hi.count, hi.hash⟩
  · have hall : t.fifo.all = views que ++ t.received := by rw [hf, Fifo.run_all, hr]; rfl
    exact hall
  · have h1 := (hi.requested hc r hmem).2
    have h2 := hi.left hc
    omega

/-- A counted pipe with a head queued: the first read is merged into the head, which is written in two parts;
    the second read ends the input. -/
theorem pipe_stream_invariant_sample : ∃ (c : PipeConfig) (que : List Buffer) (es : List (Submit × Event))
    (t : Traffic), RunWith Traffic.step Smooth (Traffic.start c que) es t ∧ t.received = bytes "abcdef" ∧
      t.pipe.log = [.finish, .free] ∧
      written t.landed ++ (views t.pipe.writing ++ views t.pipe.writeQue) = views que ++ t.received := by
  let c : PipeConfig := ⟨true, true, true, false, true, false, false, 6, 0, 100⟩
  let que : List Buffer := [⟨bytes "HEAD" ++ List.replicate 12 0, 0, 4, 0, false, by decide⟩]
  let es : List (Submit × Event) := [.readDone (bytes "abc"), .writeDone 3, .readDone (bytes "def"),
    .writeDone 4, .writeDone 3].map fun e => (⟨true, true⟩, e)
  have hrun : ((execWith Traffic.step smooth (Traffic.start c que) es).map fun t => (t.received, t.pipe.log))
      = some (bytes "abcdef", [.finish, .free]) := by decide +kernel
  obtain ⟨t, ht, he⟩ := Option.map_eq_some_iff.mp hrun
  obtain ⟨hr, hl⟩ := Prod.mk.inj he
  have hs : RunWith Traffic.step Smooth (Traffic.start c que) es t := RunWith.of_exec (fun _ _ h => h) es ht
  exact ⟨c, que, es, t, hs, hr, hl, (pipe_stream_invariant c que es t hs).1⟩

end Netcode
end Hin9
