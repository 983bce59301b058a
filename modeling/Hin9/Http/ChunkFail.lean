import Hin9.Http.ChunkDecodeCorrect

/-!
# `Http.ChunkFail` — a chunked body that goes wrong (`filters.c`, `pipe.c`)

A stream goes wrong where the byte-wise reader of `Lib.Chunked` meets an error: a byte that no size line has,
a payload without its CRLF, a size that `off_t` does not hold. The call that meets such a place hands on the
payload in front of it and no more (`decodeLoop_err`, by induction on the rounds), and then returns `-1`, or asks
for more bytes where fewer than ten are left of the line. `hin_pipe_process_buffer` takes either for "the buffer
is used up": `HIN_DONE` is not set, and the next read is decoded as if nothing had happened
(`goes_on_after_failure`).
-/

namespace Hin9
namespace Http

open Pattern Lib Lib.Chunked

/-! ## Sizes that do not fit -/

/-- A size line of the bytes names more than `LONG_MAX`, where `strtol` saturates. -/
def oversize : Pos → Bytes → Bool
  | _, [] => false
  | p, c :: cs =>
      (match p with
        | .sizeLF acc => decide (c = LF ∧ longMax < acc)
        | _ => false) || oversize (p.next longMax c) cs

theorem oversize_append (p : Pos) (xs ys : Bytes) :
    oversize p (xs ++ ys) = (oversize p xs || oversize (run longMax p xs) ys) := by
  induction xs generalizing p with
  | nil => rfl
  | cons c cs ih => simp only [List.cons_append, oversize, ih, run, List.foldl_cons, Bool.or_assoc]

/-! ## The failing call -/

/-- A call that started with `handed` behind it stays in its buffers, hands on `pay`, and does not signal the
    end. -/
def HandsOnly (handed : List (Bytes × Bool)) (pay : Bytes) (r : Option Decoded) : Prop :=
  ∃ calls st' ok, r = some ⟨st', handed ++ calls, ok, false⟩ ∧ calls.flatMap (·.1) = pay

theorem HandsOnly.nothing (handed : List (Bytes × Bool)) (st : ChunkDecode) (ok : Bool) :
    HandsOnly handed [] (some ⟨st, handed, ok, false⟩) :=
  ⟨[], st, ok, by rw [List.append_nil], rfl⟩

theorem HandsOnly.after {handed : List (Bytes × Bool)} {pay chunk : Bytes} {r : Option Decoded}
    (h : HandsOnly (handed ++ [(chunk, false)]) pay r) : HandsOnly handed (chunk ++ pay) r := by
  obtain ⟨calls, st', ok, h1, h2⟩ := h
  refine ⟨(chunk, false) :: calls, st', ok, ?_, ?_⟩
  · rw [h1, List.append_assoc, List.singleton_append]
  · rw [List.flatMap_cons, h2]

/-- A wrong size line carries no payload. -/
theorem payload_not_sizeLine {hs rest : Bytes} (hhex : ∀ c ∈ hs, isxdigit c = true)
    (hstop : ∀ c ∈ rest.head?, isxdigit c = false) (h : hs = [] ∨ ¬ [CR, LF] <+: rest) :
    payload longMax .start (hs ++ rest) = [] := by
  obtain ⟨h1, h2⟩ := run_digits longMax hhex 0 false
  rw [payload_append, Pos.start, h2, h1, List.nil_append]
  cases rest with
  | nil => rfl
  | cons c rest =>
      have hc : isxdigit c = false := hstop c (by simp)
      have hstep : payload longMax (.size (hexNat 0 hs) (false || !hs.isEmpty)) (c :: rest) =
          payload longMax (if c = CR ∧ (false || !hs.isEmpty) = true then .sizeLF (hexNat 0 hs) else .err) rest := by
        simp [payload, Pos.next, Pos.emit, hc]
      rw [hstep]
      by_cases hcr : c = CR ∧ (false || !hs.isEmpty) = true
      swap
      · rw [if_neg hcr]
        exact payload_err rest
      rw [if_pos hcr]
      obtain ⟨rfl, hstarted⟩ := hcr
      have hne : hs ≠ [] := by
        rintro rfl
        simp at hstarted
      cases rest with
      | nil => rfl
      | cons d rest =>
          have hd : d ≠ LF := by
            rintro rfl
            exact h.resolve_left hne ⟨rest, rfl⟩
          have hstep : payload longMax (.sizeLF (hexNat 0 hs)) (d :: rest) = payload longMax .err rest := by
            simp [payload, Pos.next, Pos.emit, hd]
          rw [hstep]
          exact payload_err rest

/-- **The size line of a failing call.** Either the line itself is wrong, and nothing is handed on; or it is
    right, names a chunk, and the error is behind it. -/
theorem decodeSizeLine_err {store : Bytes} {next : ChunkDecode → Bytes → Option Decoded} {lo : Int}
    {source : Bytes} {handed : List (Bytes × Bool)} (herr : run longMax .start source = .err)
    (hfit : oversize .start source = false)
    (hnext : ∀ v line rest, 0 < v → source = line ++ rest → line ≠ [] → run longMax .start line = .data v →
      HandsOnly handed (payload longMax (.data v) rest) (next ⟨v, lo⟩ rest)) :
    HandsOnly handed (payload longMax .start source) (decodeSizeLine store next ⟨0, lo⟩ source handed) := by
  obtain ⟨hs, rest, rfl, hhex, hstop⟩ := exists_run isxdigit source
  by_cases hline : hs = [] ∨ ¬ [CR, LF] <+: rest
  · -- a wrong line: with fewer than ten bytes it counts as one that is not complete
    rw [payload_not_sizeLine hhex hstop hline]
    have htook : (matchString (hs ++ rest) sizeLineFormat).took = none := by
      rw [Result.took, matchString_not_sizeLine hhex hstop hline]
    simp only [decodeSizeLine, htook]
    by_cases hshort : (hs ++ rest).length < 10
    · rw [if_pos hshort, prepareHalfRead_some (.inl (Int.natCast_nonneg _))]
      exact HandsOnly.nothing handed _ true
    · rw [if_neg hshort]
      exact HandsOnly.nothing handed _ false
  obtain ⟨hhs, hcrlf⟩ := not_or.mp hline
  obtain ⟨rest, rfl⟩ := not_not.mp hcrlf
  obtain ⟨h1, h2⟩ := run_sizeLine longMax hhs hhex
  have hassoc : hs ++ ([CR, LF] ++ rest) = (hs ++ [CR, LF]) ++ rest := (List.append_assoc ..).symm
  have hm := matchString_sizeLine hhs hhex rest
  have hcap : (⟨some (hs.length + 2), [(0, hs.length)]⟩ : Result).capture (hs ++ CR :: LF :: rest) 0 = hs := by
    simp [Result.capture]
  have hdrop : (hs ++ CR :: LF :: rest).drop (hs.length + 2) = rest := by
    rw [← List.drop_drop, List.drop_left]
    rfl
  have hv : hexNat 0 hs ≠ 0 := by
    -- behind the last-chunk line nothing is wrong
    intro hz
    have hend := run_fin_ended longMax rest
    rw [hassoc, run_append, h1, Pos.ofSize, if_pos hz] at herr
    rw [herr] at hend
    exact absurd hend (by decide)
  have hle : hexNat 0 hs ≤ longMax := by
    by_contra hgt
    have hcr : run longMax .start (hs ++ [CR]) = .sizeLF (hexNat 0 hs) := by
      have hstarted : hs.isEmpty = false := by simpa using hhs
      rw [run_append, Pos.start, (run_digits longMax hhex 0 false).1, hstarted]
      simp [run, Pos.next, not_isxdigit_CR]
    have hover : oversize (.sizeLF (hexNat 0 hs)) (LF :: rest) = true := by
      simp [oversize, Nat.lt_of_not_le hgt]
    have hsplit : hs ++ ([CR, LF] ++ rest) = (hs ++ [CR]) ++ (LF :: rest) := by simp
    rw [hsplit, oversize_append, hcr, hover, Bool.or_true] at hfit
    exact absurd hfit (by simp)
  have hof : Pos.ofSize longMax (hexNat 0 hs) = .data (hexNat 0 hs) := by
    rw [Pos.ofSize, if_neg hv, if_pos hle]
  have hst : strtolHex hs = hexNat 0 hs := Nat.min_eq_left hle
  have hpay : payload longMax .start (hs ++ ([CR, LF] ++ rest)) = payload longMax (.data (hexNat 0 hs)) rest := by
    rw [hassoc, payload_append, h1, h2, hof, List.nil_append]
  rw [hpay]
  have hgo := hnext (hexNat 0 hs) (hs ++ [CR, LF]) rest (Nat.pos_of_ne_zero hv) hassoc (by simp) (h1.trans hof)
  show HandsOnly _ _ (decodeSizeLine store next ⟨0, lo⟩ (hs ++ CR :: LF :: rest) handed)
  simp only [decodeSizeLine, hm, Result.took, hcap, hdrop, hst]
  rw [if_neg fun h => hv h.1]
  exact hgo

/-- **The loop on bytes that go wrong.** By induction on the rounds: the payload in front of the error is handed
    on, and nothing behind it. The buffer has to hold a NUL where the last byte stands in the place of a CR: the
    call then asks for the missing CRLF with a negative count. -/
theorem decodeLoop_err (store : Bytes) (lo : Int) (fuel : Nat) {p : Pos} (hp : loopStart p) {source : Bytes}
    (hfuel : source.length < fuel) (handed : List (Bytes × Bool)) (herr : run longMax p source = .err)
    (hfit : oversize p source = false)
    (hnul : ∀ pre c, source = pre ++ [c] → run longMax p pre = .dataCR → 0 ∈ store) :
    HandsOnly handed (payload longMax p source)
      (decodeLoop store fuel handed ⟨(stateOf p).chunkSz, lo⟩ source) := by
  induction fuel generalizing p source handed with
  | zero => exact absurd hfuel (Nat.not_lt_zero _)
  | succ fuel ih =>
      -- the size line of this round, behind the bytes `done` of it, with the rounds that follow
      have sizeLine : ∀ (done source' : Bytes) (handed' : List (Bytes × Bool)), source = done ++ source' →
          run longMax p done = .start → HandsOnly handed' (payload longMax .start source')
            (decodeSizeLine store (decodeLoop store fuel handed') ⟨0, lo⟩ source' handed') := by
        rintro done source' handed' rfl hdone
        rw [run_append, hdone] at herr
        rw [oversize_append, hdone, Bool.or_eq_false_iff] at hfit
        refine decodeSizeLine_err herr hfit.2 fun v line rest hv hsrc hne hdata => ?_
        subst hsrc
        have hpos : 0 < line.length := List.length_pos_iff.mpr hne
        rw [run_append, hdata] at herr
        have hfit' : oversize (.data v) rest = false := by
          have := hfit.2
          rw [oversize_append, hdata, Bool.or_eq_false_iff] at this
          exact this.2
        simp only [List.length_append] at hfuel
        refine ih (p := .data v) (.inr ⟨v, hv, rfl⟩) (by omega) handed' herr hfit' fun pre c hpre hrun => ?_
        refine hnul (done ++ (line ++ pre)) c ?_ ?_
        · rw [hpre]
          simp only [List.append_assoc]
        · rw [run_append, hdone, run_append, hdata]
          exact hrun
      rcases hp with rfl | ⟨m, hm, rfl⟩
      · simp only [decodeLoop, stateOf, Pos.start, Nat.lt_irrefl, if_false]
        exact sizeLine [] source handed rfl rfl
      simp only [decodeLoop, stateOf, gt_iff_lt, hm, if_true]
      have hle : m ≤ source.length := by
        -- inside a payload nothing is wrong
        by_contra hshort
        have h1 := (run_data longMax source m (by omega) hm).1
        rw [if_neg (by omega), herr] at h1
        exact absurd h1 (by simp)
      have hlen : (source.take m).length = m := List.length_take_of_le hle
      obtain ⟨h1, h2⟩ := run_data longMax (source.take m) m (Nat.le_of_eq hlen) hm
      rw [if_pos hlen] at h1
      have hpay : payload longMax (.data m) source
          = source.take m ++ payload longMax .dataCR (source.drop m) := by
        conv_lhs => rw [← List.take_append_drop m source, payload_append, h1, h2]
      have hrest : run longMax .dataCR (source.drop m) = .err := by
        rw [← herr]
        conv_rhs => rw [← List.take_append_drop m source, run_append, h1]
      have hsplit : source = source.take m ++ source.drop m := (List.take_append_drop m source).symm
      simp only [Nat.min_eq_left hle, Nat.lt_irrefl, if_false, hpay]
      apply HandsOnly.after
      generalize source.drop m = rest at *
      cases rest with
      | nil => exact absurd hrest (by simp)
      | cons c rest =>
          cases rest with
          | nil =>
              -- one byte, and it is no CR
              have hpay' : payload longMax .dataCR [c] = [] := rfl
              rw [if_pos (by simp), prepareHalfRead_some (.inr (hnul _ c hsplit h1)), hpay']
              exact HandsOnly.nothing _ _ true
          | cons d rest =>
              rw [if_neg (by simp)]
              rw [matchString_literal (by decide) (by decide)]
              by_cases hcrlf : bytes "\r\n" <+: c :: d :: rest
              · rw [if_pos hcrlf]
                obtain ⟨rest', hrest'⟩ := hcrlf
                obtain ⟨rfl, rfl, rfl⟩ : c = CR ∧ d = LF ∧ rest = rest' := by
                  have : CR :: LF :: rest' = c :: d :: rest := hrest'
                  simp only [List.cons.injEq] at this
                  exact ⟨this.1.symm, this.2.1.symm, this.2.2.symm⟩
                refine sizeLine (source.take m ++ [CR, LF]) rest _ ?_ ?_
                · rw [List.append_assoc]
                  exact hsplit
                · rw [run_append, h1]
                  rfl
              · rw [if_neg hcrlf]
                have hpay' : payload longMax .dataCR (c :: d :: rest) = [] := by
                  by_cases hc : c = CR
                  · subst hc
                    have hd : d ≠ LF := by
                      rintro rfl
                      exact hcrlf ⟨rest, rfl⟩
                    have : payload longMax .dataCR (CR :: d :: rest) = payload longMax .err rest := by
                      simp [payload, Pos.next, Pos.emit, hd]
                    rw [this, payload_err]
                  · have : payload longMax .dataCR (c :: d :: rest) = payload longMax .err (d :: rest) := by
                      simp [payload, Pos.next, Pos.emit, hc]
                    rw [this, payload_err]
                rw [hpay']
                exact HandsOnly.nothing _ _ false

/-- A read in which the stream goes wrong and the decoder can tell: its size lines fit, a CRLF that was left for
    it stands at its front, and the buffer holds a NUL if the last byte stands in the place of a CR. -/
structure GoodFail (p : Pos) (data slack : Bytes) : Prop where
  fits : oversize p data = false
  cr : p = .dataCR → [CR, LF] <+: data
  lf : p = .dataLF → [LF] <+: data
  nul : run longMax p data.dropLast = .dataCR → 0 ∈ data ++ slack

instance (p : Pos) (data slack : Bytes) : Decidable (GoodFail p data slack) :=
  decidable_of_iff (oversize p data = false ∧ (p = .dataCR → [CR, LF] <+: data) ∧ (p = .dataLF → [LF] <+: data) ∧
      (run longMax p data.dropLast = .dataCR → 0 ∈ data ++ slack))
    ⟨fun ⟨h1, h2, h3, h4⟩ => ⟨h1, h2, h3, h4⟩, fun h => ⟨h.fits, h.cr, h.lf, h.nul⟩⟩

/-- **The failing call.** From the state of a resting place it hands on the payload in front of the error. -/
theorem hinPipeDecodeChunked_err {p : Pos} (hp : resting p) {data slack : Bytes} (herr : run longMax p data = .err)
    (hfail : GoodFail p data slack) :
    HandsOnly [] (payload longMax p data) (hinPipeDecodeChunked (stateOf p) data slack) := by
  have hnul : ∀ pre c, data = pre ++ [c] → run longMax p pre = .dataCR → 0 ∈ data ++ slack := by
    intro pre c hsplit hrun
    apply hfail.nul
    rw [hsplit, List.dropLast_concat]
    exact hrun
  -- behind the CRLF the call is one that starts at a size line
  have behind : ∀ skip : Bytes, stateOf p = ⟨0, -(skip.length : Int)⟩ → skip <+: data →
      run longMax p skip = .start → payload longMax p skip = [] →
      HandsOnly [] (payload longMax p data) (hinPipeDecodeChunked (stateOf p) data slack) := by
    rintro skip hst ⟨rest, rfl⟩ hrun hpay
    have hfit := hfail.fits
    rw [oversize_append, hrun, Bool.or_eq_false_iff] at hfit
    rw [run_append, hrun] at herr
    rw [payload_append, hrun, hpay, List.nil_append, hst, hinPipeDecodeChunked]
    have hskip : (- -(skip.length : Int)).toNat = skip.length := by omega
    simp only [hskip, List.drop_left]
    rw [if_neg (by omega), if_neg (by simp)]
    refine decodeLoop_err _ _ _ (.inl rfl) (by rw [List.length_append]; omega) [] herr hfit.2 fun pre c hpre hr => ?_
    refine hnul (skip ++ pre) c ?_ ?_
    · rw [hpre, List.append_assoc]
    · rw [run_append, hrun]
      exact hr
  rcases hp with hp | hp
  · have hst : stateOf p = ⟨(stateOf p).chunkSz, 0⟩ := by
      rcases hp with rfl | ⟨m, _, rfl⟩ <;> rfl
    rw [hst, hinPipeDecodeChunked]
    exact decodeLoop_err _ 0 _ hp (Nat.lt_succ_self _) [] herr hfail.fits hnul
  · have hcases : p = .dataCR ∨ p = .dataLF := by
      simpa [inCRLF] using hp
    rcases hcases with rfl | rfl
    · exact behind [CR, LF] rfl (hfail.cr rfl) rfl rfl
    · exact behind [LF] rfl (hfail.lf rfl) rfl rfl

/-! ## Whole streams -/

/-- **Nothing from behind the error.** Once the bytes received are no longer the beginning of a chunked body, what
    was handed on is payload from in front of the place where they went wrong. -/
def Receiver.Silent (s : Receiver) : Prop :=
  ∀ good, good <+: s.received → place good = .err → s.output <+: payload longMax .start good

/-- No read comes behind the one in which the stream goes wrong, every read is cut well, and that one read is one
    the decoder can tell. -/
def FailsLast (s : Receiver) (rd : Bytes × Bytes) : Prop :=
  place s.received ≠ .err ∧ CutsWell s rd ∧
    (place (s.received ++ rd.1) = .err → GoodFail (place s.received) rd.1 rd.2)

instance (s : Receiver) (rd : Bytes × Bytes) : Decidable (FailsLast s rd) :=
  inferInstanceAs (Decidable (_ ∧ _ ∧ _))

/-- The decoder has handed on what the reader emitted, and is where the reader is unless the stream went wrong. -/
structure InStep (s : Receiver) : Prop where
  fault : s.fault = false
  done : s.done = (place s.received).ended
  output : s.output = payload longMax .start s.received
  line : inSizeLine (place s.received) = false
  state : s.done = false → place s.received ≠ .err → s.state = stateOf (place s.received)

/-- The bytes handed on by one more call. -/
theorem Receiver.output_append {s : Receiver} {data : Bytes} {calls : List (Bytes × Bool)}
    (hout : s.output = payload longMax .start s.received)
    (hcalls : calls.flatMap (·.1) = payload longMax (place s.received) data) :
    (s.handed ++ calls).flatMap (·.1) = payload longMax .start (s.received ++ data) := by
  have hhanded : s.handed.flatMap (·.1) = payload longMax .start s.received := hout
  rw [List.flatMap_append, hhanded, hcalls, payload_append]
  rfl

/-- **The step lemma**, for a read that goes wrong and for one that does not. -/
theorem Receiver.step_inStep {stream : Bytes} {s s' : Receiver} {rd : Bytes × Bytes} (h : InStep s)
    (hg : FailsLast s rd) (hs : s.step stream rd = some s') : InStep s' := by
  obtain ⟨data, slack⟩ := rd
  simp only [Receiver.step] at hs
  split at hs
  swap
  · exact absurd hs (by simp)
  rename_i hen
  obtain ⟨hne, hdone, _, -⟩ := hen
  obtain ⟨hbefore, hcut, hfail⟩ := hg
  have hend : (place s.received).ended = false := h.done.symm.trans hdone
  have hrest := place_resting hbefore h.line hend
  have hplace : place (s.received ++ data) = run longMax (place s.received) data := run_append _ _ _
  simp only [CutsWell, hplace] at hcut hfail
  by_cases herr : run longMax (place s.received) data = .err
  · -- the payload in front of the error, and no end
    obtain ⟨calls, st', ok, h1, h2⟩ := hinPipeDecodeChunked_err hrest herr (hfail herr)
    rw [h.state hdone hbefore, h1] at hs
    obtain rfl := Option.some.inj hs
    refine ⟨h.fault, ?_, output_append h.output h2, ?_, fun _ hno => ?_⟩
    · rw [hplace, herr]
      rfl
    · rw [hplace, herr]
      rfl
    · rw [hplace, herr] at hno
      exact absurd rfl hno
  · obtain ⟨calls, st', h1, h2, -, h4⟩ := hinPipeDecodeChunked_spec hrest hne herr hcut
    rw [h.state hdone hbefore, h1] at hs
    obtain rfl := Option.some.inj hs
    refine ⟨h.fault, ?_, output_append h.output h2, ?_, fun hd _ => ?_⟩
    · rw [hplace]
    · rw [hplace]
      exact hcut.line
    · rw [hplace]
      exact h4 hd

/-- **A stream that goes wrong in its last read.** However a stream of any bytes is cut into reads that meet the
    condition, the decoder stays in its buffers and hands on nothing from behind the place where the stream went
    wrong. -/
theorem chunk_failure_silent (stream : Bytes) (reads : List (Bytes × Bytes)) (s : Receiver)
    (h : RunWith (Receiver.step stream) FailsLast {} reads s) : s.fault = false ∧ s.Silent := by
  have hstep : InStep s := by
    refine RunWith.invariant (I := InStep) ?_ ?_ h
    · exact ⟨rfl, rfl, rfl, rfl, fun _ _ => rfl⟩
    · exact fun s rd s' hi hg hs => Receiver.step_inStep hi hg hs
  refine ⟨hstep.fault, ?_⟩
  rintro good ⟨rest, hgood⟩ herr
  have hrun : run longMax .start good = .err := herr
  rw [hstep.output, ← hgood, payload_append, hrun, payload_err, List.append_nil]

/-- A chunk that arrives in two reads, and behind it a size line of ten bytes that are no digits. -/
theorem chunk_failure_silent_sample : ∃ (reads : List (Bytes × Bytes)) (s : Receiver),
    RunWith (Receiver.step (bytes "5\r\nhello\r\nzzzzzzzzzz5\r\nworld")) FailsLast {} reads s ∧
      s.failed = true ∧ s.output = bytes "hello" ∧ s.fault = false ∧ s.Silent := by
  let reads : List (Bytes × Bytes) := [(bytes "5\r\nhe", []), (bytes "llo\r\nzzzzzzzzzz5\r\nworld", [])]
  have hrun : ((execWith (Receiver.step (bytes "5\r\nhello\r\nzzzzzzzzzz5\r\nworld"))
      (fun s rd => decide (FailsLast s rd)) {} reads).map fun s => (s.failed, s.output))
      = some (true, bytes "hello") := by decide
  obtain ⟨s, hs, he⟩ := Option.map_eq_some_iff.mp hrun
  have hr := RunWith.of_exec (G := FailsLast) (fun _ _ h => of_decide_eq_true h) reads hs
  obtain ⟨h1, h2⟩ := Prod.mk.inj he
  exact ⟨reads, s, hr, h1, h2, chunk_failure_silent _ reads s hr⟩

/-- **The decoder takes up a broken stream again**: the first read holds no size line, and the call returns `-1`;
    the second is decoded from its first byte. -/
theorem chunk_failure_resumes : ¬ ∀ (stream : Bytes) (reads : List (Bytes × Bytes)) (s : Receiver),
    Run (Receiver.step stream) {} reads s → s.Silent := by
  intro hall
  let reads : List (Bytes × Bytes) := [(bytes "zzzzzzzzzz\r\n", []), (bytes "5\r\nhello", [0])]
  have hrun : ((execWith (Receiver.step (bytes "zzzzzzzzzz\r\n5\r\nhello")) (fun _ _ => true) {} reads).map
      fun s => (s.output, s.received)) = some (bytes "hello", bytes "zzzzzzzzzz\r\n5\r\nhello") := by decide
  obtain ⟨s, hs, he⟩ := Option.map_eq_some_iff.mp hrun
  obtain ⟨h1, h2⟩ := Prod.mk.inj he
  have hsilent := hall _ reads s (RunWith.of_exec (fun _ _ _ => trivial) reads hs)
  have hpre : bytes "z" <+: s.received := by
    rw [h2]
    decide
  have hout := hsilent (bytes "z") hpre (by decide)
  rw [h1] at hout
  exact absurd hout (by decide)

/-! ## What a failed call leaves -/

/-- By induction on the rounds: a call that returns `-1` has not signalled the end, and is back at a size line. -/
theorem decodeLoop_failed {store : Bytes} {fuel : Nat} {handed : List (Bytes × Bool)} {n : Nat} {lo : Int}
    {source : Bytes} {d : Decoded} (hfuel : source.length < fuel)
    (h : decodeLoop store fuel handed ⟨n, lo⟩ source = some d) (hf : d.ok = false) :
    d.done = false ∧ d.state = ⟨0, lo⟩ := by
  induction fuel generalizing n source handed with
  | zero => exact absurd hfuel (Nat.not_lt_zero _)
  | succ fuel ih =>
      have sizeLine : ∀ (source' : Bytes) (handed' : List (Bytes × Bool)), source'.length ≤ source.length →
          decodeSizeLine store (decodeLoop store fuel handed') ⟨0, lo⟩ source' handed' = some d →
          d.done = false ∧ d.state = ⟨0, lo⟩ := by
        intro source' handed' hlen hline
        rw [decodeSizeLine] at hline
        cases htook : (matchString source' sizeLineFormat).took with
        | none =>
            simp only [htook] at hline
            split at hline
            · obtain ⟨st, -, rfl⟩ := Option.map_eq_some_iff.mp hline
              exact absurd hf (by simp)
            · obtain rfl := Option.some.inj hline
              exact ⟨rfl, rfl⟩
        | some used =>
            simp only [htook] at hline
            split at hline
            · obtain rfl := Option.some.inj hline
              exact absurd hf (by simp)
            · -- the line took a byte at least, so the next round has less to do
              have hne : source' ≠ [] := by
                rintro rfl
                have hnil : (matchString [] sizeLineFormat).took = none := by decide
                rw [hnil] at htook
                exact absurd htook (by simp)
              have hpos : 0 < source'.length := List.length_pos_iff.mpr hne
              have hused : 0 < used := Result.took_pos htook
              refine ih ?_ hline
              rw [List.length_drop]
              omega
      rw [decodeLoop] at h
      split at h
      · rename_i hn
        simp only at h
        split at h
        · obtain rfl := Option.some.inj h
          exact absurd hf (by simp)
        · split at h
          · obtain ⟨st, -, rfl⟩ := Option.map_eq_some_iff.mp h
            exact absurd hf (by simp)
          · split at h
            · obtain rfl := Option.some.inj h
              exact ⟨rfl, rfl⟩
            · refine sizeLine _ _ ?_ h
              simp only [List.length_drop]
              omega
      · rename_i hn
        obtain rfl : n = 0 := by
          simpa using hn
        exact sizeLine source handed (Nat.le_refl _) h

/-- **A failed call leaves a fresh decoder**, whatever it was given. -/
theorem decode_failed {st : ChunkDecode} (hst : st.leftOver = 0) {data slack : Bytes} {d : Decoded}
    (h : hinPipeDecodeChunked st data slack = some d) (hf : d.ok = false) : d.done = false ∧ d.state = {} := by
  obtain ⟨n, lo⟩ := st
  obtain rfl : lo = 0 := hst
  exact decodeLoop_failed (Nat.lt_succ_self _) h hf

/-- **The failure does not end the input.** Behind a call that returned `-1` every further read is decoded like
    the first read of a body of its own. -/
theorem goes_on_after_failure {stream : Bytes} {s s' t : Receiver} {data slack more slack' : Bytes}
    (hst : s.state.leftOver = 0) (hok : s.failed = false) (hs : s.step stream (data, slack) = some s')
    (hf : s'.failed = true) (ht : s'.step stream (more, slack') = some t) (herr : place more ≠ .err)
    (hcut : GoodCut .start (place more) more slack') : t.output = s'.output ++ payload longMax .start more := by
  have hstate : s'.state = {} := by
    simp only [Receiver.step] at hs
    split at hs
    swap
    · exact absurd hs (by simp)
    split at hs
    · obtain rfl := Option.some.inj hs
      exact absurd hf (by simp [hok])
    · rename_i d hd
      obtain rfl := Option.some.inj hs
      exact (decode_failed hst hd (by simpa [hok] using hf)).2
  simp only [Receiver.step] at ht
  split at ht
  swap
  · exact absurd ht (by simp)
  rename_i hen
  obtain ⟨calls, st', h1, h2, -, -⟩ := hinPipeDecodeChunked_spec (.inl (.inl rfl)) hen.1 herr hcut
  have hcall : hinPipeDecodeChunked s'.state more slack' = some ⟨st', calls, true, (place more).ended⟩ := by
    rw [hstate]
    exact h1
  rw [hcall] at ht
  obtain rfl := Option.some.inj ht
  show (s'.handed ++ calls).flatMap (·.1) = _
  rw [List.flatMap_append, h2]
  rfl

end Http
end Hin9
