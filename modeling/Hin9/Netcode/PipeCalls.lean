import Hin9.Netcode.PipeLife

/-!
# `Netcode.PipeCalls` — the order of a pipe's callbacks (`pipe.c`)

Whoever owns a pipe learns of it through its callbacks. A failed write is reported before the pipe is closed, and the finish
callback is the last of them: closing takes the others away. `Calls` says what a function of the pipe may do to its log, and
there is one lemma for each function.
-/

namespace Hin9
namespace Netcode

/-- **What a function may do to the callbacks of a pipe**: nothing, report an error, or close the pipe. -/
inductive Calls : Pipe → Pipe → Prop where
  | same {p q : Pipe} (log : q.log = p.log) (finish : q.finishCb = p.finishCb) (outError : q.outErrorCb = p.outErrorCb) :
      Calls p q
  | inError (p : Pipe) (err : Nat) : Calls p (p.inError err)
  | outError (p : Pipe) (err : Nat) : Calls p (p.outError err)
  | close (p : Pipe) : Calls p (hinPipeClose p)
  | trans {p q r : Pipe} : Calls p q → Calls q r → Calls p r

/-- **The finish callback is the last one.** -/
structure InOrder (p : Pipe) : Prop where
  pending : p.finishCb = true → .finish ∉ p.log
  closed : p.finishCb = false → p.outErrorCb = false
  last : ∀ before behind, p.log = before ++ .finish :: behind → .finish ∉ behind ∧ ∀ err, .outError err ∉ behind

variable {p q : Pipe} {sub : Submit}

theorem Calls.refl (p : Pipe) : Calls p p := .same rfl rfl rfl

/-- A call that comes when the pipe is not closed, and does not end it. -/
theorem InOrder.snoc {c : Call} (h : InOrder p) (hc : c ≠ .finish) (herr : ∀ err, c = .outError err → p.finishCb = true) :
    InOrder { p with log := p.log ++ [c] } := by
  refine ⟨?_, h.closed, ?_⟩
  · intro hcb hmem
    rcases List.mem_append.mp hmem with hold | hnew
    · exact h.pending hcb hold
    · exact hc (List.mem_singleton.mp hnew).symm
  · intro before behind hlog
    have hsplit : p.log ++ [c] = before ++ .finish :: behind := hlog
    rcases List.eq_nil_or_concat behind with rfl | ⟨init, d, rfl⟩
    · have hlast : c = .finish := (List.append_inj' hsplit rfl).2 |> List.head_eq_of_cons_eq
      exact absurd hlast hc
    · have hparts : p.log ++ [c] = (before ++ .finish :: init) ++ [d] := by
        rw [hsplit, List.append_assoc, List.concat_eq_append]
        rfl
      obtain ⟨hlog', hd⟩ := List.append_inj' hparts rfl
      obtain rfl := List.head_eq_of_cons_eq hd
      obtain ⟨hno, hnoerr⟩ := h.last before init hlog'
      have hclosed : p.finishCb = false := by
        cases hcb : p.finishCb with
        | false => rfl
        | true => exact absurd (by rw [hlog']; simp) (h.pending hcb)
      rw [List.concat_eq_append]
      constructor
      · intro hmem
        rcases List.mem_append.mp hmem with hold | hnew
        · exact hno hold
        · exact hc (List.mem_singleton.mp hnew).symm
      · intro err hmem
        rcases List.mem_append.mp hmem with hold | hnew
        · exact hnoerr err hold
        · have hcb := herr err (List.mem_singleton.mp hnew).symm
          exact absurd (hclosed.symm.trans hcb) (by decide)

/-- A pipe that calls its finish callback does not have it any more. -/
theorem InOrder.finish (h : InOrder p) (hcb : p.finishCb = true) :
    InOrder { p with log := p.log ++ [.finish], finishCb := false, outErrorCb := false } := by
  have hno := h.pending hcb
  refine ⟨fun hf => absurd hf (by simp), fun _ => rfl, ?_⟩
  intro before behind hlog
  have hsplit : p.log ++ [.finish] = before ++ .finish :: behind := hlog
  rcases List.eq_nil_or_concat behind with rfl | ⟨init, d, rfl⟩
  · exact ⟨List.not_mem_nil, fun _ => List.not_mem_nil⟩
  · have hparts : p.log ++ [.finish] = (before ++ .finish :: init) ++ [d] := by
      rw [hsplit, List.append_assoc, List.concat_eq_append]
      rfl
    obtain ⟨hlog', -⟩ := List.append_inj' hparts rfl
    exact absurd (by rw [hlog']; simp) hno

theorem InOrder.close (h : InOrder p) : InOrder (hinPipeClose p) := by
  -- the finish callback first, then `free`
  have hfinish : InOrder { p with
      log := if p.finishCb then p.log ++ [.finish] else p.log, finishCb := false, outErrorCb := false } := by
    cases hcb : p.finishCb with
    | true => exact h.finish hcb
    | false => exact ⟨fun hf => absurd hf (by simp), fun _ => rfl, h.last⟩
  unfold hinPipeClose
  dsimp only
  split
  · have hfree := hfinish.snoc (c := .free) (by decide) (fun err he => absurd he (by simp))
    exact ⟨hfree.pending, hfree.closed, hfree.last⟩
  · exact ⟨hfinish.pending, hfinish.closed, hfinish.last⟩

/-- **Whatever a pipe does, its finish callback stays the last one.** -/
theorem Calls.inOrder (h : Calls p q) : InOrder p → InOrder q := by
  induction h with
  | same hlog hfinish hout =>
      intro hp
      exact ⟨by rw [hlog, hfinish]; exact hp.pending, by rw [hfinish, hout]; exact hp.closed, by rw [hlog]; exact hp.last⟩
  | inError p err =>
      intro hp
      unfold Pipe.inError
      split
      · exact hp.snoc (by simp) (fun _ he => absurd he (by simp))
      · exact hp
  | outError p err =>
      intro hp
      unfold Pipe.outError
      split
      · rename_i hout
        refine hp.snoc (by simp) ?_
        intro _ _
        cases hcb : p.finishCb with
        | true => rfl
        | false => exact absurd ((hp.closed hcb).symm.trans hout) (by decide)
      · exact hp
  | close p => exact fun hp => hp.close
  | trans _ _ ih ih' => exact fun hp => ih' (ih hp)

/-- What has been said stays said. -/
theorem Calls.log_prefix (h : Calls p q) : p.log <+: q.log := by
  induction h with
  | same hlog => rw [hlog]
  | inError p err =>
      unfold Pipe.inError
      split
      · exact List.prefix_append _ _
      · exact List.prefix_rfl
  | outError p err =>
      unfold Pipe.outError
      split
      · exact List.prefix_append _ _
      · exact List.prefix_rfl
  | close p =>
      unfold hinPipeClose
      dsimp only
      split <;> split
      · rw [List.append_assoc]
        exact List.prefix_append _ _
      · exact List.prefix_append _ _
      · exact List.prefix_append _ _
      · exact List.prefix_rfl
  | trans _ _ ih ih' => exact ih.trans ih'

/-- Something else is changed first. -/
theorem Calls.after {r : Pipe} (h : Calls q r) (log : q.log = p.log) (finish : q.finishCb = p.finishCb)
    (outError : q.outErrorCb = p.outErrorCb) : Calls p r := (Calls.same log finish outError).trans h

/-- A submission is refused. -/
theorem calls_outErrorClose (p : Pipe) (err : Nat) : Calls p (hinPipeClose (p.outError err)) :=
  (Calls.outError p err).trans (.close _)

theorem calls_inErrorClose (p : Pipe) (err : Nat) : Calls p (hinPipeClose (p.inError err)) :=
  (Calls.inError p err).trans (.close _)

/-! ## The functions of the pipe -/

theorem calls_readNext (sub : Submit) (p : Pipe) : Calls p (hinPipeReadNext sub p).1 := by
  unfold hinPipeReadNext
  split
  · exact .refl p
  · dsimp only
    split
    · exact .same rfl rfl rfl
    · exact Calls.after (calls_inErrorClose _ 0) rfl rfl rfl

theorem calls_submitHead (sub : Submit) (p : Pipe) (b : Buffer) (rest : List Buffer) :
    Calls p (submitHead sub p b rest).1 := by
  unfold submitHead
  dsimp only
  split
  · exact .same rfl rfl rfl
  · exact Calls.after (calls_outErrorClose _ 0) rfl rfl rfl

theorem calls_writeNext (sub : Submit) (p : Pipe) : Calls p (hinPipeWriteNext sub p).1 := by
  unfold hinPipeWriteNext
  split
  · exact .refl p
  · split
    · split
      · exact .refl p
      · exact calls_submitHead sub p _ _
    · exact calls_submitHead sub p _ _

theorem calls_advance (sub : Submit) (p : Pipe) : Calls p (hinPipeAdvance sub p) := by
  unfold hinPipeAdvance
  dsimp only
  have hfirst : Calls p (if p.input.count && decide (p.left ≤ 0) then { p with input := { p.input with done := true } } else p) := by
    split
    · exact .same rfl rfl rfl
    · exact .refl p
  obtain ⟨q, hq⟩ : ∃ q, q = (if p.input.count && decide (p.left ≤ 0) then { p with input := { p.input with done := true } }
    else p) := ⟨_, rfl⟩
  rw [← hq] at hfirst ⊢
  refine hfirst.trans ?_
  split
  · exact .close q
  · have hread : Calls q (if !q.input.done && !q.input.inactive && q.reading.isEmpty && decide (queued q.writeQue < READ_SZ * 2)
        then hinPipeReadNext sub q else (q, true)).1 := by
      split
      · exact calls_readNext sub q
      · exact .refl q
    obtain ⟨t, ht⟩ : ∃ t, t = (if !q.input.done && !q.input.inactive && q.reading.isEmpty &&
        decide (queued q.writeQue < READ_SZ * 2) then hinPipeReadNext sub q else (q, true)) := ⟨_, rfl⟩
    rw [← ht] at hread ⊢
    split
    · split
      · exact hread.trans (calls_writeNext sub _)
      · exact hread
    · exact hread

theorem calls_process (p : Pipe) (num : Nat) (r : Reply) : Calls p (hinPipeProcess p num r) := by
  unfold hinPipeProcess
  split
  · exact .refl p
  · exact .same rfl rfl rfl

theorem calls_startEntry (p : Pipe) : Calls p (startEntry p) := by
  unfold startEntry
  dsimp only
  split
  · exact .same rfl rfl rfl
  · exact .same rfl rfl rfl

theorem calls_readEntry (p : Pipe) (num : Nat) (r : Reply) : Calls p (readEntry p num r) := by
  unfold readEntry
  dsimp only
  have hmarked : Calls p (if num = 0 then { p with input := { p.input with done := true } } else p) := by
    split
    · exact .same rfl rfl rfl
    · exact .refl p
  obtain ⟨q, hq⟩ : ∃ q, q = (if num = 0 then { p with input := { p.input with done := true } } else p) := ⟨_, rfl⟩
  rw [← hq] at hmarked ⊢
  have hprocess : Calls q (hinPipeProcess { q with reading := q.reading.tail } num r) :=
    Calls.after (calls_process _ num r) rfl rfl rfl
  refine hmarked.trans (hprocess.trans ?_)
  split
  · exact .same rfl rfl rfl
  · exact .refl _

theorem calls_writeEntry (sub : Submit) (p : Pipe) (b : Buffer) : Calls p (writeEntry sub p b) := by
  unfold writeEntry
  dsimp only
  split
  · exact .same rfl rfl rfl
  · exact Calls.after (calls_writeNext sub _) rfl rfl rfl

theorem calls_finishEntry (p : Pipe) (r : Reply) : Calls p (finishEntry p r) := by
  unfold finishEntry
  dsimp only
  have hprocess : Calls p (hinPipeProcess { p with input := { p.input with done := true } } 0 r) :=
    Calls.after (calls_process _ 0 r) rfl rfl rfl
  refine hprocess.trans ?_
  split
  · exact .same rfl rfl rfl
  · exact .refl _

theorem calls_writePart (sub : Submit) (p : Pipe) (b : Buffer) {num : Nat} (h : num < b.count) :
    Calls p (hinPipeWriteCallback sub p b num h.le) := by
  unfold hinPipeWriteCallback
  dsimp only
  rw [if_pos h]
  split
  · exact .same rfl rfl rfl
  · exact Calls.after (calls_outErrorClose _ 0) rfl rfl rfl

theorem calls_writeFailed (p : Pipe) (err : Nat) : Calls p (hinPipeWriteFailed p err) :=
  Calls.after (calls_outErrorClose _ err) rfl rfl rfl

/-- **Whatever happens to a pipe, its callbacks come in order.** -/
theorem lifeStep_calls {s s' : Life} {e : Submit × LifeEvent} (h : lifeStep s e = some s') : Calls s.pipe s'.pipe := by
  obtain ⟨sub, e⟩ := e
  have hadvance : ∀ entry, Calls s.pipe entry → Calls s.pipe (s.advance sub entry).pipe := fun entry hentry =>
    hentry.trans (calls_advance sub entry)
  unfold lifeStep at h
  split at h
  · obtain rfl := Option.some.inj h
    exact hadvance _ (calls_startEntry _)
  · split at h
    · split at h
      · obtain rfl := Option.some.inj h
        exact hadvance _ (calls_readEntry _ _ _)
      · exact absurd h (by simp)
    · exact absurd h (by simp)
  · split at h
    · exact absurd h (by simp)
    · obtain rfl := Option.some.inj h
      exact hadvance _ ((Calls.inError _ _).trans (calls_readEntry _ _ _))
  · split at h
    · split at h
      · rename_i hlt
        obtain rfl := Option.some.inj h
        exact calls_writePart sub _ _ hlt
      · split at h
        · obtain rfl := Option.some.inj h
          exact hadvance _ (calls_writeEntry sub _ _)
        · exact absurd h (by simp)
    · exact absurd h (by simp)
  · split at h
    · exact absurd h (by simp)
    · obtain rfl := Option.some.inj h
      exact calls_writeFailed _ _
  · split at h
    · obtain rfl := Option.some.inj h
      exact hadvance _ (calls_process _ _ _)
    · exact absurd h (by simp)
  · split at h
    · obtain rfl := Option.some.inj h
      exact hadvance _ (calls_finishEntry _ _)
    · exact absurd h (by simp)
  · exact absurd h (by simp)

end Netcode
end Hin9
