import Hin9.Netcode.PipeLife

/-!
# `Netcode.PipeEnd` — a pipe is closed once, freed once and not looked at again

A pipe is `Open`, or it is `Shut`: closed, and freed as soon as nothing is in flight. `Closing` is what lies between the two
inside a call: closed, with a completion taken off the lists, and not freed yet. Every function has one lemma that says
which of these it leads to, and the only one that asks for something is the write that `hin_pipe_write_callback` submits
before it advances.
-/

namespace Hin9
namespace Netcode

open Lib

/-! ## Closing -/

/-- A pipe that was not freed, whose finish callback was called at most once, and not while it is still set. -/
structure Held (p : Pipe) : Prop where
  noFree : p.log.count .free = 0
  once : p.log.count .finish + (if p.finishCb then 1 else 0) ≤ 1
  reading : p.reading.length ≤ 1
  writing : p.writing.length ≤ 1

/-- A pipe that was not closed. -/
structure Open (p : Pipe) (driven : Bool) : Prop extends Held p where
  isOpen : p.output.inactive = false
  driven : p.input.inactive = driven
  fits : p.condense = true → Fits p.writeQue

/-- A pipe that was closed and has not been freed yet. -/
structure Closing (p : Pipe) : Prop extends Held p where
  isClosed : p.output.inactive = true
  inInactive : p.input.inactive = true
  inDone : p.input.done = true
  outDone : p.output.done = true
  que : p.writeQue = []
  cb : p.finishCb = false

/-- A pipe that was closed: it is freed as soon as nothing is in flight. -/
structure Shut (p : Pipe) : Prop where
  isClosed : p.output.inactive = true
  inInactive : p.input.inactive = true
  inDone : p.input.done = true
  outDone : p.output.done = true
  que : p.writeQue = []
  cb : p.finishCb = false
  once : p.log.count .finish ≤ 1
  reading : p.reading.length ≤ 1
  writing : p.writing.length ≤ 1
  free : p.log.count .free = if p.reading.isEmpty && p.writing.isEmpty then 1 else 0

section

variable {p : Pipe} {sub : Submit} {driven : Bool}

theorem freed_eq_false (h : p.log.count .free = 0) : p.freed = false := by
  unfold Pipe.freed
  rw [← Bool.not_eq_true, List.contains_iff_mem]
  exact List.count_eq_zero.mp h

/-- **A pipe that is closed is freed if nothing is in flight.** -/
theorem Held.close (h : Held p) : Shut (hinPipeClose p) := by
  have hfinish : (hinPipeClose p).log.count .finish = p.log.count .finish + (if p.finishCb then 1 else 0) := by
    unfold hinPipeClose
    cases p.finishCb <;> cases (p.reading.isEmpty && p.writing.isEmpty) <;> simp
  have hfree : (hinPipeClose p).log.count .free = if p.reading.isEmpty && p.writing.isEmpty then 1 else 0 := by
    have hno := h.noFree
    unfold hinPipeClose
    cases p.finishCb <;> cases (p.reading.isEmpty && p.writing.isEmpty) <;> simp [hno]
  exact ⟨rfl, rfl, rfl, rfl, rfl, rfl, hfinish.trans_le h.once, h.reading, h.writing, hfree⟩

/-- What is in flight keeps a closed pipe from being freed. -/
theorem Shut.closing (h : Shut p) (hbusy : p.reading ≠ [] ∨ p.writing ≠ []) : Closing p := by
  refine ⟨⟨?_, ?_, h.reading, h.writing⟩, h.isClosed, h.inInactive, h.inDone, h.outDone, h.que, h.cb⟩
  · rw [h.free, if_neg]
    rw [Bool.and_eq_true, List.isEmpty_iff, List.isEmpty_iff]
    rintro ⟨hr, hw⟩
    exact hbusy.elim (fun hne => hne hr) (fun hne => hne hw)
  · rw [h.cb]
    exact h.once

theorem Held.outError (h : Held p) (err : Nat) : Held (p.outError err) := by
  unfold Pipe.outError
  split
  · refine ⟨?_, ?_, h.reading, h.writing⟩
    · simpa using h.noFree
    · simpa using h.once
  · exact h

theorem reading_outError (p : Pipe) (err : Nat) : (p.outError err).reading = p.reading := by
  unfold Pipe.outError
  split <;> rfl

theorem Held.inError (h : Held p) (err : Nat) : Held (p.inError err) := by
  unfold Pipe.inError
  split
  · refine ⟨?_, ?_, h.reading, h.writing⟩
    · simpa using h.noFree
    · simpa using h.once
  · exact h

/-- An advance of a closed pipe closes it again, or waits for what is in flight. -/
theorem Closing.advance (h : Closing p) (sub : Submit) : Shut (hinPipeAdvance sub p) := by
  unfold hinPipeAdvance
  have hcount : (if p.input.count && decide (p.left ≤ 0) then { p with input := { p.input with done := true } } else p) = p := by
    split
    · cases p with
      | mk input output =>
          cases input
          have hd := h.inDone
          dsimp only at hd
          simp [hd]
    · rfl
  rw [hcount]
  dsimp only
  rw [h.inDone, h.outDone, h.que]
  cases hw : p.writing with
  | nil => simpa using h.toHeld.close
  | cons b bs =>
      have hfree : p.log.count .free = if p.reading.isEmpty && p.writing.isEmpty then 1 else 0 := by
        rw [h.noFree, hw]
        simp
      have honce : p.log.count .finish ≤ 1 := by
        have := h.once
        omega
      have hshut : Shut p :=
        ⟨h.isClosed, h.inInactive, h.inDone, h.outDone, h.que, h.cb, honce, h.reading, h.writing, hfree⟩
      simpa [h.que] using hshut

/-! ## Submitting -/

theorem Open.readNext (h : Open p driven) (hread : sub.read = true) (hr : p.reading = [])
    (hactive : p.input.inactive = false) :
    Open (hinPipeReadNext sub p).1 driven ∧ (hinPipeReadNext sub p).2 = true ∧ (hinPipeReadNext sub p).1.reading ≠ [] := by
  unfold hinPipeReadNext
  rw [hactive, hread]
  refine ⟨{ h with reading := ?_ }, rfl, ?_⟩
  · simp [hr]
  · simp [hr]

theorem condenseLoop_fits {b : Buffer} {rest : List Buffer} (h : Fits rest) : Fits (condenseLoop b rest).2 := by
  induction rest generalizing b with
  | nil => exact h
  | cons c rest ih =>
      have hrest : Fits rest := fun x hx => h x (List.mem_cons_of_mem _ hx)
      unfold condenseLoop
      dsimp only
      split
      · exact h
      · split
        · exact ih hrest
        · intro x hx
          rcases List.mem_cons.mp hx with rfl | hx
          · exact h c List.mem_cons_self
          · exact ih hrest x hx

/-- The head of the queue is being written, or it was refused and the pipe is closed. -/
theorem Open.submitHead (h : Open p driven) (sub : Submit) (hw : p.writing = []) (b : Buffer) {rest : List Buffer}
    (hfits : p.condense = true → Fits rest) :
    ((Netcode.submitHead sub p b rest).2 = true ∧ Open (Netcode.submitHead sub p b rest).1 driven ∧
        (Netcode.submitHead sub p b rest).1.writing ≠ []) ∨
      (sub.write = false ∧ (Netcode.submitHead sub p b rest).2 = false ∧ Shut (Netcode.submitHead sub p b rest).1 ∧
        (Netcode.submitHead sub p b rest).1.reading = p.reading) := by
  unfold Netcode.submitHead
  dsimp only
  cases hwrite : sub.write with
  | true =>
      refine .inl ⟨rfl, { h with writing := ?_, isOpen := ?_, fits := hfits }, ?_⟩
      · simp [hw]
      · show (if p.output.offsets then _ else p.output : PipeDir).inactive = false
        split
        · exact h.isOpen
        · exact h.isOpen
      · simp [hw]
  | false =>
      refine .inr ⟨rfl, rfl, ?_, ?_⟩
      · have hheld : ∀ out : PipeDir, Held { p with output := out, writeQue := rest } := fun _ =>
          ⟨h.noFree, h.once, h.reading, h.writing⟩
        exact ((hheld _).outError 0).close
      · exact reading_outError _ 0

/-- The head of a condensing pipe is not full, nothing stands behind it, and more is to come. -/
def Waiting (p : Pipe) : Prop :=
  p.condense = true ∧ p.input.done = false ∧ ∃ b, p.writeQue = [b] ∧ b.count < b.sz

/-- **The head of the queue is submitted**, unless it waits to be filled. -/
theorem Open.writeNext (h : Open p driven) (sub : Submit) (hw : p.writing = []) (hque : p.writeQue ≠ []) :
    ((hinPipeWriteNext sub p).2 = true ∧ Open (hinPipeWriteNext sub p).1 driven ∧
        ((hinPipeWriteNext sub p).1.writing ≠ [] ∨ ((hinPipeWriteNext sub p).1 = p ∧ Waiting p))) ∨
      (sub.write = false ∧ (hinPipeWriteNext sub p).2 = false ∧ Shut (hinPipeWriteNext sub p).1 ∧
        (hinPipeWriteNext sub p).1.reading = p.reading) := by
  have hhead : ∀ b rest, (p.condense = true → Fits rest) →
      ((Netcode.submitHead sub p b rest).2 = true ∧ Open (Netcode.submitHead sub p b rest).1 driven ∧
          ((Netcode.submitHead sub p b rest).1.writing ≠ [] ∨
            ((Netcode.submitHead sub p b rest).1 = p ∧ Waiting p))) ∨
        (sub.write = false ∧ (Netcode.submitHead sub p b rest).2 = false ∧
          Shut (Netcode.submitHead sub p b rest).1 ∧ (Netcode.submitHead sub p b rest).1.reading = p.reading) := by
    intro b rest hrest
    rcases h.submitHead sub hw b hrest with ⟨h1, h2, h3⟩ | h1
    · exact .inl ⟨h1, h2, .inl h3⟩
    · exact .inr h1
  unfold hinPipeWriteNext
  cases hq : p.writeQue with
  | nil => exact absurd hq hque
  | cons b rest =>
      have hrest : p.condense = true → Fits rest := fun hc x hx => h.fits hc x (by simp [hq, hx])
      dsimp only
      by_cases hcond : (p.condense && decide (b.count < b.sz)) = true
      · rw [if_pos hcond]
        obtain ⟨hc, hroom⟩ := Bool.and_eq_true_iff.mp hcond
        by_cases hwait : (rest.isEmpty && !p.input.done) = true
        · rw [if_pos hwait]
          obtain ⟨hempty, hdone⟩ := Bool.and_eq_true_iff.mp hwait
          obtain rfl := List.isEmpty_iff.mp hempty
          exact .inl ⟨rfl, h, .inr ⟨rfl, hc, by simpa using hdone, b, hq, of_decide_eq_true hroom⟩⟩
        · rw [if_neg hwait]
          exact hhead _ _ fun hc => condenseLoop_fits (hrest hc)
      · rw [if_neg hcond]
        exact hhead _ _ hrest

/-! ## Advancing -/

/-- What an open pipe is between two calls: something is in flight, unless the input is fed from outside. -/
def Moving (p : Pipe) (driven : Bool) : Prop := Open p driven ∧ (driven = false → p.reading ≠ [] ∨ p.writing ≠ [])

theorem Open.inputDone (h : Open p driven) : Open { p with input := { p.input with done := true } } driven :=
  { h with driven := h.driven }

/-- **An advance of an open pipe** leaves something in flight, or the pipe is closed. -/
theorem Open.advance (h : Open p driven) (hread : sub.read = true)
    (hdone : driven = false → p.writeQue = [] → p.writing = [] → p.output.done = true) :
    Moving (hinPipeAdvance sub p) driven ∨ Shut (hinPipeAdvance sub p) := by
  unfold hinPipeAdvance
  dsimp only
  -- the counter may say that the input is done
  have hcounted : ∀ q, q = (if p.input.count && decide (p.left ≤ 0) then
      { p with input := { p.input with done := true } } else p) →
      Open q driven ∧ (driven = false → q.writeQue = [] → q.writing = [] → q.output.done = true) := by
    rintro q rfl
    split
    · exact ⟨h.inputDone, hdone⟩
    · exact ⟨h, hdone⟩
  generalize hq : (if p.input.count && decide (p.left ≤ 0) then
    { p with input := { p.input with done := true } } else p) = q
  obtain ⟨ho, hqdone⟩ := hcounted q hq.symm
  split
  · exact .inr ho.toHeld.close
  · rename_i hstay
    -- a read is submitted, or there is a reason not to
    have hreads : ∀ r, r = (if !q.input.done && !q.input.inactive && q.reading.isEmpty &&
        decide (queued q.writeQue < READ_SZ * 2) then hinPipeReadNext sub q else (q, true)) →
        Open r.1 driven ∧ r.2 = true ∧
          (r.1.reading ≠ [] ∨ r.1 = q ∧ (q.input.done = true ∨ driven = true ∨ READ_SZ * 2 ≤ queued q.writeQue)) := by
      rintro r rfl
      split
      · rename_i hsubmit
        simp only [Bool.and_eq_true, Bool.not_eq_true', List.isEmpty_iff] at hsubmit
        obtain ⟨h1, h2, h3⟩ := ho.readNext hread hsubmit.1.2 hsubmit.1.1.2
        exact ⟨h1, h2, .inl h3⟩
      · rename_i hskip
        refine ⟨ho, rfl, ?_⟩
        by_contra hnone
        simp only [not_or, not_and, not_not] at hnone
        obtain ⟨hempty, hrest⟩ := hnone
        obtain ⟨h1, h2, h3⟩ := hrest trivial
        apply hskip
        have hactive : q.input.inactive = false := by rw [ho.driven]; simpa using h2
        simp only [hactive, hempty, List.isEmpty_nil, Bool.and_true, Bool.not_false, Bool.and_eq_true,
          Bool.not_eq_true', decide_eq_true_eq]
        exact ⟨by simpa using h1, by omega⟩
    generalize hr : (if !q.input.done && !q.input.inactive && q.reading.isEmpty &&
      decide (queued q.writeQue < READ_SZ * 2) then hinPipeReadNext sub q else (q, true)) = r
    obtain ⟨hro, hok, hwhy⟩ := hreads r hr.symm
    rw [if_pos hok]
    split
    · rename_i hwrite
      simp only [Bool.and_eq_true, Bool.not_eq_true', List.isEmpty_iff] at hwrite
      have hque : r.1.writeQue ≠ [] := by
        intro hnil
        rw [hnil] at hwrite
        exact absurd hwrite.1 (by simp)
      rcases hro.writeNext sub hwrite.2 hque with ⟨-, hopen, hbusy | ⟨hsame, hwait⟩⟩ | ⟨-, -, hshut, -⟩
      · exact .inl ⟨hopen, fun _ => .inr hbusy⟩
      · rw [hsame]
        refine .inl ⟨hro, fun hdriven => .inl ?_⟩
        -- a head that waits is small, so a read was submitted
        obtain ⟨hc, hnotdone, b, hb, hroom⟩ := hwait
        rcases hwhy with hne | ⟨hrq, hdone' | hdrv | hmuch⟩
        · exact hne
        · rw [hrq, hdone'] at hnotdone
          exact absurd hnotdone (by simp)
        · exact absurd (hdriven.symm.trans hdrv) (by simp)
        · have hsmall := hro.fits hc b (by simp [hb])
          rw [← hrq, hb] at hmuch
          simp only [queued, List.map_cons, List.map_nil, List.sum_cons, List.sum_nil] at hmuch
          omega
      · exact .inr hshut
    · rename_i hidle
      refine .inl ⟨hro, fun hdriven => ?_⟩
      by_cases hw : r.1.writing = []
      · left
        rcases hwhy with hne | ⟨hrq, hwhy⟩
        · exact hne
        · -- nothing is queued or written either, so the pipe would have been closed
          exfalso
          have hnil : q.writeQue = [] := by
            by_contra hne
            apply hidle
            rw [hrq] at hw ⊢
            simp [hw, hne]
          rw [hrq] at hw
          have hout := hqdone hdriven hnil hw
          rcases hwhy with hd | hd | hd
          · exact hstay (by simp [hnil, hw, hd, hout])
          · exact absurd (hdriven.symm.trans hd) (by simp)
          · rw [hnil] at hd
            simp [queued, READ_SZ] at hd
      · exact .inr hw

/-! ## On the way to an advance -/

/-- A pipe that an advance may be called with. -/
def Ready (p : Pipe) (driven : Bool) : Prop :=
  (Open p driven ∧ (driven = false → p.writeQue = [] → p.writing = [] → p.output.done = true)) ∨ Closing p

theorem Shut.closing_of_not_freed (h : Shut p) (hfree : p.freed = false) : Closing p := by
  apply h.closing
  by_contra hnone
  simp only [not_or, not_not] at hnone
  have hcount : p.log.count .free = 1 := by rw [h.free, hnone.1, hnone.2]; rfl
  have hmem : Call.free ∈ p.log := List.count_pos_iff.mp (by omega)
  unfold Pipe.freed at hfree
  rw [← List.contains_iff_mem, hfree] at hmem
  exact absurd hmem (by simp)

theorem Open.process (h : Open p driven) {r : Reply} (hfits : p.condense = true → Fits r.que) (num : Nat) :
    Open (hinPipeProcess p num r) driven := by
  unfold hinPipeProcess
  rw [h.isOpen]
  refine { h with driven := h.driven, fits := ?_ }
  intro hc x hx
  rcases List.mem_append.mp hx with hx | hx
  · exact h.fits hc x hx
  · exact hfits hc x hx

theorem Closing.process (h : Closing p) (num : Nat) (r : Reply) : hinPipeProcess p num r = p := if_pos h.isClosed

/-- A completion was taken off the lists. -/
theorem Closing.less (h : Closing p) {reading : List ReadReq} {writing : List Buffer} (hr : reading.length ≤ 1)
    (hw : writing.length ≤ 1) : Closing { p with reading := reading, writing := writing } :=
  { h with reading := hr, writing := hw }

theorem Closing.inputDone (h : Closing p) : Closing { p with input := { p.input with done := true } } :=
  { h with inDone := rfl, inInactive := h.inInactive }

theorem Closing.outputDone (h : Closing p) : Closing { p with output := { p.output with done := true } } :=
  { h with outDone := rfl, isClosed := h.isClosed }

theorem Open.outputDone (h : Open p driven) : Open { p with output := { p.output with done := true } } driven :=
  { h with isOpen := h.isOpen }

theorem Open.inError (h : Open p driven) (err : Nat) : Open (p.inError err) driven := by
  refine ⟨h.toHeld.inError err, ?_, ?_, ?_⟩
  · unfold Pipe.inError
    split <;> exact h.isOpen
  · unfold Pipe.inError
    split <;> exact h.driven
  · unfold Pipe.inError
    split <;> exact h.fits

theorem Closing.inError (h : Closing p) (err : Nat) : Closing (p.inError err) := by
  have hheld := h.toHeld.inError err
  revert hheld
  unfold Pipe.inError
  split
  · intro hheld
    exact ⟨hheld, h.isClosed, h.inInactive, h.inDone, h.outDone, h.que, h.cb⟩
  · exact fun _ => h

theorem Open.readEntry_ready (h : Open p driven) {r : Reply} (hfits : p.condense = true → Fits r.que) (num : Nat) :
    Ready (readEntry p num r) driven := by
  have hprocessed : ∀ q, q = hinPipeProcess { (if num = 0 then { p with input := { p.input with done := true } } else p) with
      reading := (if num = 0 then { p with input := { p.input with done := true } } else p).reading.tail } num r →
      Open q driven := by
    rintro q rfl
    have hlen : p.reading.tail.length ≤ 1 := by
      have := h.reading
      simp only [List.length_tail]
      omega
    apply Open.process
    · split
      · exact { h with driven := h.driven, reading := hlen }
      · exact { h with reading := hlen }
    · intro hc
      apply hfits
      revert hc
      split <;> exact id
  unfold readEntry
  dsimp only
  generalize hq : hinPipeProcess { (if num = 0 then { p with input := { p.input with done := true } } else p) with
      reading := (if num = 0 then { p with input := { p.input with done := true } } else p).reading.tail } num r = q
  have ho := hprocessed q hq.symm
  left
  split
  · exact ⟨ho.outputDone, fun _ _ _ => rfl⟩
  · rename_i hne
    refine ⟨ho, fun _ hnil => ?_⟩
    exact absurd (by simp [hnil]) hne

theorem Closing.readEntry_ready (h : Closing p) (num : Nat) (r : Reply) : Ready (readEntry p num r) driven := by
  have hlen : p.reading.tail.length ≤ 1 := by
    have := h.reading
    simp only [List.length_tail]
    omega
  right
  unfold readEntry
  dsimp only
  by_cases hnum : num = 0
  · rw [if_pos hnum]
    have hc : Closing { p with input := { p.input with done := true }, reading := p.reading.tail } :=
      h.inputDone.less hlen h.writing
    rw [hc.process]
    split
    · exact hc.outputDone
    · exact hc
  · rw [if_neg hnum]
    have hc : Closing { p with reading := p.reading.tail } := h.less hlen h.writing
    rw [hc.process]
    split
    · exact hc.outputDone
    · exact hc

/-- **After a buffer was written** the next one is submitted. A refusal closes the pipe, which a read under way keeps from
    being freed. -/
theorem Open.writeEntry_ready (h : Open p driven) (b : Buffer) (hr : sub.write = true ∨ p.reading ≠ [] ∨ p.writeQue = []) :
    Ready (writeEntry sub p b) driven := by
  have hlen : p.writing.tail = [] := by
    apply List.eq_nil_of_length_eq_zero
    have := h.writing
    simp only [List.length_tail]
    omega
  unfold writeEntry
  dsimp only
  generalize (if p.hashFlag then b.view.foldl hashByte p.hash else p.hash) = hash
  have ho : Open
      { p with
        output := { p.output with done := true }
        count := p.count + b.count
        hash := hash
        writing := p.writing.tail } driven :=
    { h with isOpen := h.isOpen, writing := by simp [hlen] }
  by_cases hque : p.writeQue = []
  · left
    rw [if_pos (by simp [hque])]
    exact ⟨ho, fun _ _ _ => rfl⟩
  · rw [if_neg (by simpa using hque)]
    rcases ho.writeNext sub hlen hque with ⟨-, hopen, hbusy | ⟨hsame, -⟩⟩ | ⟨hrefused, -, hshut, hreading⟩
    · exact .inl ⟨hopen, fun _ _ hnil => absurd hnil hbusy⟩
    · rw [hsame]
      exact .inl ⟨ho, fun _ hnil => absurd hnil hque⟩
    · right
      apply hshut.closing
      left
      rw [hreading]
      rcases hr with hw | hne | hnil
      · exact absurd (hrefused.symm.trans hw) (by simp)
      · exact hne
      · exact absurd hnil hque

theorem Closing.writeEntry_ready (h : Closing p) (b : Buffer) : Ready (writeEntry sub p b) driven := by
  right
  unfold writeEntry
  dsimp only
  rw [if_pos (by simp [h.que])]
  have hlen : p.writing.tail.length ≤ 1 := by
    have := h.writing
    simp only [List.length_tail]
    omega
  exact ⟨⟨h.noFree, h.once, h.reading, hlen⟩, h.isClosed, h.inInactive, h.inDone, rfl, h.que, h.cb⟩

theorem Open.finishEntry_ready (h : Open p driven) (hdriven : driven = true) {r : Reply}
    (hfits : p.condense = true → Fits r.que) : Ready (finishEntry p r) driven := by
  have ho := h.inputDone.process hfits 0
  unfold finishEntry
  dsimp only
  left
  split
  · exact ⟨ho.outputDone, fun _ _ _ => rfl⟩
  · exact ⟨ho, fun hd => absurd (hdriven.symm.trans hd) (by simp)⟩

theorem Closing.finishEntry_ready (h : Closing p) (r : Reply) : Ready (finishEntry p r) driven := by
  right
  unfold finishEntry
  dsimp only
  rw [h.inputDone.process]
  split
  · exact h.inputDone.outputDone
  · exact h.inputDone

end

/-! ## Runs -/

/-- The invariant of a pipe. -/
def Life.Inv (s : Life) (driven : Bool) : Prop :=
  s.lost = false ∧ s.touched = false ∧
    (s.started = false ∧ Open s.pipe driven ∨ s.started = true ∧ (Moving s.pipe driven ∨ Shut s.pipe))

theorem Life.advance_inv {s : Life} {driven : Bool} {sub : Submit} {entry : Pipe} (hlost : s.lost = false)
    (htouched : s.touched = false) (hread : sub.read = true) (h : Ready entry driven) :
    (s.advance sub entry).Inv driven := by
  have hfreed : entry.freed = false := by
    apply freed_eq_false
    rcases h with ⟨h, -⟩ | h
    · exact h.noFree
    · exact h.noFree
  refine ⟨?_, ?_, .inr ⟨rfl, ?_⟩⟩
  · simp [Life.advance, hlost, hread]
  · simp [Life.advance, htouched, hfreed]
  · rcases h with ⟨h, hdone⟩ | h
    · exact h.advance hread hdone
    · exact .inr (h.advance sub)

theorem Held.writeFailed {p : Pipe} (h : Held p) (err : Nat) : Shut (hinPipeWriteFailed p err) := by
  unfold hinPipeWriteFailed
  apply Held.close
  apply Held.outError
  refine ⟨h.noFree, h.once, h.reading, ?_⟩
  have := h.writing
  simp only [List.length_tail]
  omega

/-- The rest of a buffer that was written in part is written next, or the pipe is closed. -/
theorem hinPipeWriteCallback_part {p : Pipe} {driven : Bool} {sub : Submit} {b : Buffer} {num : Nat} (hnum : num < b.count)
    (h : Moving p driven ∨ Shut p) (hw : p.writing ≠ []) :
    Moving (hinPipeWriteCallback sub p b num hnum.le) driven ∨ Shut (hinPipeWriteCallback sub p b num hnum.le) := by
  have hheld : Held p := by
    rcases h with ⟨h, -⟩ | h
    · exact h.toHeld
    · exact (h.closing (.inr hw)).toHeld
  have hlen : p.writing.tail = [] := by
    apply List.eq_nil_of_length_eq_zero
    have := hheld.writing
    simp only [List.length_tail]
    omega
  unfold hinPipeWriteCallback
  dsimp only
  rw [if_pos hnum]
  cases hsub : sub.write with
  | false =>
      right
      apply Held.close
      apply Held.outError
      exact ⟨hheld.noFree, hheld.once, hheld.reading, by simp [hlen]⟩
  | true =>
      rcases h with ⟨h, -⟩ | h
      · left
        refine ⟨{ h with isOpen := h.isOpen, writing := ?_ }, fun _ => .inr ?_⟩
        · simp [hlen]
        · simp
      · right
        refine { h with isClosed := h.isClosed, outDone := rfl, writing := ?_, free := ?_ }
        · simp [hlen]
        · have hfree := h.free
          have hno := hheld.noFree
          simp [hno]

theorem Life.step_inv {s s' : Life} {driven : Bool} {e : Submit × LifeEvent} (h : s.Inv driven) (hg : Accepted s e)
    (hs : lifeStep s e = some s') : s'.Inv driven := by
  obtain ⟨sub, e⟩ := e
  obtain ⟨hread, hg⟩ := hg
  obtain ⟨hlost, htouched, ⟨hstarted, hopen⟩ | ⟨hstarted, hstate⟩⟩ := h
  · -- only the start is possible
    unfold lifeStep at hs
    rw [hstarted] at hs
    cases e with
    | start =>
        obtain rfl := Option.some.inj hs
        apply Life.advance_inv hlost htouched hread
        left
        unfold startEntry
        dsimp only
        split
        · exact ⟨{ hopen with isOpen := hopen.isOpen }, fun _ _ _ => rfl⟩
        · exact ⟨hopen.outputDone, fun _ _ _ => rfl⟩
    | readDone num r => exact absurd hs (by simp)
    | readFailed err r => exact absurd hs (by simp)
    | writeDone num => exact absurd hs (by simp)
    | writeFailed err => exact absurd hs (by simp)
    | feed num r => exact absurd hs (by simp)
    | finish r => exact absurd hs (by simp)
  · unfold lifeStep at hs
    rw [hstarted] at hs
    cases e with
    | start => exact absurd hs (by simp)
    | readDone num r =>
        dsimp only at hs
        cases hreading : s.pipe.reading with
        | nil =>
            rw [hreading] at hs
            exact absurd hs (by simp)
        | cons q qs =>
            rw [hreading] at hs
            dsimp only at hs
            split at hs
            · obtain rfl := Option.some.inj hs
              apply Life.advance_inv hlost htouched hread
              rcases hstate with ⟨ho, -⟩ | hshut
              · exact ho.readEntry_ready hg num
              · exact (hshut.closing (.inl (by simp [hreading]))).readEntry_ready num r
            · exact absurd hs (by simp)
    | readFailed err r =>
        dsimp only at hs
        split at hs
        · exact absurd hs (by simp)
        · rename_i hbusy
          have hne : s.pipe.reading ≠ [] := by
            intro hnil
            exact hbusy (by simp [hnil])
          obtain rfl := Option.some.inj hs
          apply Life.advance_inv hlost htouched hread
          rcases hstate with ⟨ho, -⟩ | hshut
          · apply (ho.inError err).readEntry_ready
            intro hc
            apply hg
            revert hc
            unfold Pipe.inError
            split <;> exact id
          · exact ((hshut.closing (.inl hne)).inError err).readEntry_ready 0 r
    | writeDone num =>
        dsimp only at hs
        cases hwriting : s.pipe.writing with
        | nil =>
            rw [hwriting] at hs
            exact absurd hs (by simp)
        | cons b bs =>
            rw [hwriting] at hs
            dsimp only at hs
            have hw : s.pipe.writing ≠ [] := by simp [hwriting]
            by_cases hnum : num < b.count
            · rw [dif_pos hnum] at hs
              obtain rfl := Option.some.inj hs
              exact ⟨hlost, htouched, .inr ⟨rfl, hinPipeWriteCallback_part hnum hstate hw⟩⟩
            · rw [dif_neg hnum] at hs
              split at hs
              · rename_i hall
                obtain rfl := Option.some.inj hs
                apply Life.advance_inv hlost htouched hread
                rcases hstate with ⟨ho, -⟩ | hshut
                · apply ho.writeEntry_ready
                  rcases hg with hg | hg | hg | ⟨c, hc, hlt⟩
                  · exact .inl hg
                  · exact .inr (.inl hg)
                  · exact .inr (.inr hg)
                  · have hlen := ho.writing
                    rw [hwriting, List.length_cons] at hlen
                    have hbs : bs = [] := List.eq_nil_of_length_eq_zero (by omega)
                    rw [hwriting, hbs, List.mem_singleton] at hc
                    rw [hc] at hlt
                    omega
                · exact (hshut.closing (.inr hw)).writeEntry_ready b
              · exact absurd hs (by simp)
    | writeFailed err =>
        dsimp only at hs
        split at hs
        · exact absurd hs (by simp)
        · rename_i hbusy
          have hw : s.pipe.writing ≠ [] := by simpa using hbusy
          obtain rfl := Option.some.inj hs
          refine ⟨hlost, htouched, .inr ⟨rfl, .inr ?_⟩⟩
          rcases hstate with ⟨ho, -⟩ | hshut
          · exact ho.toHeld.writeFailed err
          · exact (hshut.closing (.inr hw)).toHeld.writeFailed err
    | feed num r =>
        dsimp only at hs
        split at hs
        · rename_i hfed
          obtain rfl := Option.some.inj hs
          apply Life.advance_inv hlost htouched hread
          rcases hstate with ⟨ho, -⟩ | hshut
          · have hdriven : driven = true := ho.driven.symm.trans hfed
            exact .inl ⟨ho.process hg.2 num, fun hd => absurd (hdriven.symm.trans hd) (by simp)⟩
          · have hc := hshut.closing_of_not_freed hg.1
            right
            rw [hc.process]
            exact hc
        · exact absurd hs (by simp)
    | finish r =>
        dsimp only at hs
        split at hs
        · rename_i hfed
          obtain rfl := Option.some.inj hs
          apply Life.advance_inv hlost htouched hread
          rcases hstate with ⟨ho, -⟩ | hshut
          · exact ho.finishEntry_ready (ho.driven.symm.trans hfed) hg.2
          · exact (hshut.closing_of_not_freed hg.1).finishEntry_ready r
        · exact absurd hs (by simp)

theorem Life.Inv.sound {s : Life} {driven : Bool} (h : s.Inv driven) : s.Sound driven := by
  obtain ⟨-, htouched, ⟨hstarted, ho⟩ | ⟨-, ⟨ho, hmoving⟩ | hshut⟩⟩ := h
  · have hfree := freed_eq_false ho.noFree
    refine ⟨?_, ?_, ?_, htouched, ?_, ?_⟩
    · have := ho.once
      omega
    · have := ho.noFree
      omega
    · exact fun hf => absurd (hfree.symm.trans hf) (by simp)
    · exact fun hst => absurd (hstarted.symm.trans hst) (by simp)
    · exact fun hc => absurd (ho.isOpen.symm.trans hc) (by simp)
  · have hfree := freed_eq_false ho.noFree
    refine ⟨?_, ?_, ?_, htouched, ?_, ?_⟩
    · have := ho.once
      omega
    · have := ho.noFree
      omega
    · exact fun hf => absurd (hfree.symm.trans hf) (by simp)
    · intro _ hr hw
      left
      by_contra hdriven
      exact (hmoving (by simpa using hdriven)).elim (fun hne => hne hr) (fun hne => hne hw)
    · exact fun hc => absurd (ho.isOpen.symm.trans hc) (by simp)
  · refine ⟨hshut.once, ?_, ?_, htouched, fun _ _ _ => .inr hshut.isClosed, ?_⟩
    · rw [hshut.free]
      split <;> omega
    · intro hf
      by_contra hbusy
      have hc : Closing s.pipe := by
        apply hshut.closing
        by_contra hnone
        simp only [not_or, not_not] at hnone
        exact hbusy hnone
      exact absurd ((freed_eq_false hc.noFree).symm.trans hf) (by simp)
    · intro _ hr hw
      by_contra hf
      have hc := hshut.closing_of_not_freed (by simpa using hf)
      have hcount := hshut.free
      rw [hc.noFree, hr, hw] at hcount
      exact absurd hcount (by simp)

/-- **A pipe ends as it should** in every run without a refused read and without a write that is refused inside the write
    callback while nothing is read: it is finished once and freed once, when nothing is in flight, and it does not stop
    before that. -/
theorem pipe_ends {c : NewPipe} {es : List (Submit × LifeEvent)} {s : Life}
    (h : RunWith lifeStep Accepted (Life.new c) es s) : s.Sound c.pipe.input.inactive := by
  apply Life.Inv.sound
  apply h.invariant (I := fun s => s.Inv c.pipe.input.inactive)
  · refine ⟨rfl, rfl, .inl ⟨rfl, ⟨?_, ?_, ?_, ?_⟩, c.isOpen, rfl, c.fits⟩⟩
    · simp [Life.new, c.log]
    · have hlog : (Life.new c).pipe.log.count .finish = 0 := by simp [Life.new, c.log]
      rw [hlog]
      split <;> omega
    · simp [Life.new, c.reading]
    · simp [Life.new, c.writing]
  · intro s e s' hinv hg hs
    exact Life.step_inv hinv hg hs

/-! ## The refused write -/

/-- Two buffers, and an input that has nothing more. -/
def twoBuffers : NewPipe where
  pipe := { input := { done := true }, writeQue := [.ofRead [97], .ofRead [98]] }
  reading := rfl
  writing := rfl
  isOpen := rfl
  log := rfl
  fits := fun h => absurd h (by simp)

def refusedWrite : List (Submit × LifeEvent) := [(⟨true, true⟩, .start), (⟨true, false⟩, .writeDone 1)]

/-- **A refused write frees the pipe twice.** The first buffer was written, the second is refused, the pipe is freed, and
    the callback goes on to advance it. -/
theorem pipe_freed_twice : ¬ ∀ (c : NewPipe) (es : List (Submit × LifeEvent)) (s : Life),
    Run lifeStep (Life.new c) es s → s.Sound c.pipe.input.inactive := by
  intro hall
  have hexec : ((execWith lifeStep (fun _ _ => true) (Life.new twoBuffers) refusedWrite).map fun s =>
      (s.pipe.log.count .free, s.touched)) = some (2, true) := by decide
  obtain ⟨s, hs, hval⟩ := Option.map_eq_some_iff.mp hexec
  have hrun : Run lifeStep (Life.new twoBuffers) refusedWrite s := .of_exec (fun _ _ _ => trivial) _ hs
  have htwice : s.pipe.log.count .free = 2 := congrArg Prod.fst hval
  have honce := (hall _ _ _ hrun).freedOnce
  omega

/-- Writes only, and all of them accepted. -/
def onlyWrites (_ : Life) (e : Submit × LifeEvent) : Bool :=
  match e with
  | (⟨true, true⟩, .start) | (⟨true, true⟩, .writeDone _) => true
  | _ => false

/-- The same two buffers with every write accepted. -/
theorem pipe_ends_two : ∃ s, RunWith lifeStep Accepted (Life.new twoBuffers)
    [(⟨true, true⟩, .start), (⟨true, true⟩, .writeDone 1), (⟨true, true⟩, .writeDone 1)] s ∧
      s.Sound false ∧ s.pipe.log = [.finish, .free] := by
  have hexec : ((execWith lifeStep onlyWrites (Life.new twoBuffers)
      [(⟨true, true⟩, .start), (⟨true, true⟩, .writeDone 1), (⟨true, true⟩, .writeDone 1)]).map fun s => s.pipe.log) =
      some [.finish, .free] := by decide
  obtain ⟨s, hs, hlog⟩ := Option.map_eq_some_iff.mp hexec
  have hguard : ∀ s e, onlyWrites s e = true → Accepted s e := by
    intro s e he
    unfold onlyWrites at he
    split at he
    · exact ⟨rfl, trivial⟩
    · exact ⟨rfl, .inl rfl⟩
    · exact absurd he (by simp)
  have hrun := RunWith.of_exec hguard _ hs
  exact ⟨s, hrun, pipe_ends hrun, hlog⟩

end Netcode
end Hin9
