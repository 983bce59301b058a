import Hin9.Http.ChunkDecode
import Hin9.Lib.Chunked
import Hin9.Lib.Runs

/-!
# `Http.ChunkDecodeCorrect` — where a chunked body may be cut

The decoder is compared with the byte-wise reader of `Lib.Chunked`. A call that starts at a size line or inside
a payload, and ends outside a size line, does what the reader does on the same bytes (`decodeLoop_spec`, by
induction on the rounds of the loop). What it carries to the next call is right under three more conditions,
which `GoodCut` collects; along reads that meet it the decoder and the reader stay together
(`Receiver.step_synced`, `chunk_decoder_correct`).
-/

namespace Hin9
namespace Http

open Pattern Lib Lib.Chunked

/-! ## The state at a place in the body -/

/-- What the decoder carries when the reader is at `p`. -/
def stateOf : Pos → ChunkDecode
  | .data n => ⟨n, 0⟩
  | .dataCR => ⟨0, -2⟩
  | .dataLF => ⟨0, -1⟩
  | _ => ⟨0, 0⟩

def inSizeLine : Pos → Bool
  | .size _ true => true
  | .sizeLF _ => true
  | _ => false

def inData : Pos → Bool
  | .data _ => true
  | _ => false

/-- The CR or the LF behind a payload comes next. -/
def inCRLF (p : Pos) : Bool := p == .dataCR || p == .dataLF

/-- A call that started with `handed` behind it and ends where the reader is at `q`, with the payload `pay`: it
    handed the payload on, flushed exactly if the end was read, and left the state of `q`, except that inside a
    payload `left_over` is what it was. -/
def Follows (st : ChunkDecode) (handed : List (Bytes × Bool)) (q : Pos) (pay : Bytes) (r : Option Decoded) : Prop :=
  ∃ calls st', r = some ⟨st', handed ++ calls, true, q.ended⟩ ∧ calls.flatMap (·.1) = pay ∧
    calls.countP (·.2) = (if q.ended then 1 else 0) ∧
    (q.ended = false → st' = ⟨(stateOf q).chunkSz, if inData q then st.leftOver else (stateOf q).leftOver⟩)

/-- More payload handed on before. -/
theorem Follows.after {st : ChunkDecode} {handed : List (Bytes × Bool)} {q : Pos} {pay chunk : Bytes}
    {r : Option Decoded} (h : Follows st (handed ++ [(chunk, false)]) q pay r) :
    Follows st handed q (chunk ++ pay) r := by
  obtain ⟨calls, st', h1, h2, h3, h4⟩ := h
  refine ⟨(chunk, false) :: calls, st', ?_, ?_, ?_, h4⟩
  · rw [h1, List.append_assoc, List.singleton_append]
  · rw [List.flatMap_cons, h2]
  · rw [List.countP_cons, h3]
    simp

/-! ## Size lines -/

/-- Bytes that start at a size line and end outside one contain the whole line. -/
theorem sizeLine_split {source : Bytes} (hne : source ≠ []) (herr : run longMax .start source ≠ .err)
    (hline : inSizeLine (run longMax .start source) = false) :
    ∃ hs rest, source = hs ++ CR :: LF :: rest ∧ hs ≠ [] ∧ ∀ c ∈ hs, isxdigit c = true := by
  obtain ⟨hs, rest, rfl, hhex, hstop⟩ := exists_run isxdigit source
  obtain ⟨h1, _⟩ := run_digits longMax hhex 0 false
  rw [Pos.start, run_append, h1] at herr hline
  cases rest with
  | nil =>
      have : hs.isEmpty = false := by simpa using hne
      simp [this, inSizeLine] at hline
  | cons c rest =>
      have hc : isxdigit c = false := hstop c (by simp)
      have hstep : run longMax (.size (hexNat 0 hs) (false || !hs.isEmpty)) (c :: rest) =
          run longMax (if c = CR ∧ (false || !hs.isEmpty) = true then .sizeLF (hexNat 0 hs) else .err) rest := by
        simp [run, Pos.next, hc]
      rw [hstep] at herr hline
      by_cases hcr : c = CR ∧ (false || !hs.isEmpty) = true
      swap
      · rw [if_neg hcr, run_err] at herr
        exact absurd rfl herr
      rw [if_pos hcr] at herr hline
      obtain ⟨rfl, hstarted⟩ := hcr
      cases rest with
      | nil => simp [inSizeLine] at hline
      | cons d rest =>
          have hstep : run longMax (.sizeLF (hexNat 0 hs)) (d :: rest) =
              run longMax (if d = LF then .ofSize longMax (hexNat 0 hs) else .err) rest := rfl
          rw [hstep] at herr
          by_cases hlf : d = LF
          · subst hlf
            exact ⟨hs, rest, rfl, by simpa using hstarted, hhex⟩
          · rw [if_neg hlf, run_err] at herr
            exact absurd rfl herr

/-- The size line of a round: either the source is used up, or a whole line is there and the next round (or the
    end) follows. -/
theorem decodeSizeLine_spec {store : Bytes} {next : ChunkDecode → Bytes → Option Decoded} {lo : Int}
    {source : Bytes} {handed : List (Bytes × Bool)} (herr : run longMax .start source ≠ .err)
    (hline : inSizeLine (run longMax .start source) = false)
    (hnext : ∀ v rest, 0 < v → rest.length < source.length → run longMax .start source = run longMax (.data v) rest →
      Follows ⟨v, lo⟩ handed (run longMax (.data v) rest) (payload longMax (.data v) rest) (next ⟨v, lo⟩ rest)) :
    Follows ⟨0, lo⟩ handed (run longMax .start source) (payload longMax .start source)
      (decodeSizeLine store next ⟨0, lo⟩ source handed) := by
  by_cases hne : source = []
  · subst hne
    refine ⟨[], ⟨0, 0⟩, ?_, rfl, rfl, fun _ => rfl⟩
    rw [List.append_nil]
    rfl
  obtain ⟨hs, rest, rfl, hhs, hhex⟩ := sizeLine_split hne herr hline
  obtain ⟨h1, h2⟩ := run_sizeLine longMax hhs hhex
  have hrun : run longMax .start (hs ++ CR :: LF :: rest) = run longMax (.ofSize longMax (hexNat 0 hs)) rest := by
    rw [List.append_cons hs, List.append_cons (hs ++ [CR]), List.append_assoc hs, run_append]
    simp only [List.singleton_append, h1]
  have hpay : payload longMax .start (hs ++ CR :: LF :: rest)
      = payload longMax (.ofSize longMax (hexNat 0 hs)) rest := by
    rw [List.append_cons hs, List.append_cons (hs ++ [CR]), List.append_assoc hs, payload_append]
    simp only [List.singleton_append, h1, h2, List.nil_append]
  have hm := matchString_sizeLine hhs hhex rest
  have hcap : (⟨some (hs.length + 2), [(0, hs.length)]⟩ : Result).capture (hs ++ CR :: LF :: rest) 0 = hs := by
    simp [Result.capture]
  have hdrop : (hs ++ CR :: LF :: rest).drop (hs.length + 2) = rest := by
    rw [← List.drop_drop, List.drop_left]
    rfl
  rw [hrun] at herr hline ⊢
  rw [hpay]
  simp only [decodeSizeLine, hm, Result.took, hcap, hdrop]
  by_cases hz : hexNat 0 hs = 0
  · -- the last-chunk line
    have hof : Pos.ofSize longMax (hexNat 0 hs) = .fin := by rw [Pos.ofSize, if_pos hz]
    have hlen : 0 < hs.length := List.length_pos_iff.mpr hhs
    rw [if_pos (by simp [strtolHex, hz, hlen]), hof]
    have hend := run_fin_ended longMax rest
    refine ⟨[([], true)], _, by rw [hend], ?_, ?_, fun hne => ?_⟩
    · rw [payload_fin]
      rfl
    · rw [hend]
      rfl
    · rw [hend] at hne
      exact absurd hne (by simp)
  · by_cases hle : hexNat 0 hs ≤ longMax
    swap
    · rw [Pos.ofSize, if_neg hz, if_neg hle, run_err] at herr
      exact absurd rfl herr
    have hof : Pos.ofSize longMax (hexNat 0 hs) = .data (hexNat 0 hs) := by
      rw [Pos.ofSize, if_neg hz, if_pos hle]
    have hst : strtolHex hs = hexNat 0 hs := Nat.min_eq_left hle
    rw [hst, if_neg (fun h => hz h.1), hof]
    have := hnext (hexNat 0 hs) rest (by omega) (by simp; omega) (by rw [hrun, hof])
    exact this

/-! ## The loop -/

/-- Two bytes behind a payload are its CRLF; fewer leave the decoder in front of or inside it. -/
theorem run_dataCR_cases {rest : Bytes} (herr : run longMax .dataCR rest ≠ .err) :
    rest = [] ∨ rest = [CR] ∨ ∃ rest', rest = CR :: LF :: rest' := by
  cases rest with
  | nil => exact .inl rfl
  | cons c rest =>
      by_cases hc : c = CR
      swap
      · have : run longMax .dataCR (c :: rest) = run longMax .err rest := by simp [run, Pos.next, hc]
        rw [this, run_err] at herr
        exact absurd rfl herr
      subst hc
      cases rest with
      | nil => exact .inr (.inl rfl)
      | cons d rest =>
          by_cases hd : d = LF
          · subst hd
            exact .inr (.inr ⟨rest, rfl⟩)
          · have : run longMax .dataCR (CR :: d :: rest) = run longMax .err rest := by
              simp [run, Pos.next, hd]
            rw [this, run_err] at herr
            exact absurd rfl herr

theorem prepareHalfRead_some {store : Bytes} {st : ChunkDecode} {left : Int} (h : 0 ≤ left ∨ 0 ∈ store) :
    prepareHalfRead store st left = some { st with leftOver := left } := if_pos h

/-- Where the loop can start: at a size line or inside a payload that `off_t` can count. -/
def loopStart (p : Pos) : Prop := p = .start ∨ ∃ m, 0 < m ∧ p = .data m

/-- **The loop follows the reader.** By induction on the rounds: each takes the rest of a payload with its CRLF
    and one size line, unless the source ends before. -/
theorem decodeLoop_spec (store : Bytes) (lo : Int) (fuel : Nat) {p : Pos} (hp : loopStart p) {source : Bytes}
    (hfuel : source.length < fuel) (handed : List (Bytes × Bool)) (herr : run longMax p source ≠ .err)
    (hline : inSizeLine (run longMax p source) = false)
    (hnul : inCRLF (run longMax p source) = true → 0 ∈ store) :
    Follows ⟨(stateOf p).chunkSz, lo⟩ handed (run longMax p source) (payload longMax p source)
      (decodeLoop store fuel handed ⟨(stateOf p).chunkSz, lo⟩ source) := by
  induction fuel generalizing p source handed with
  | zero => exact absurd hfuel (Nat.not_lt_zero _)
  | succ fuel ih =>
      -- the size line of this round, with the rounds behind it
      have sizeLine : ∀ (source' : Bytes) (handed' : List (Bytes × Bool)), source'.length ≤ source.length →
          run longMax p source = run longMax .start source' →
          Follows ⟨0, lo⟩ handed' (run longMax .start source') (payload longMax .start source')
            (decodeSizeLine store (decodeLoop store fuel handed') ⟨0, lo⟩ source' handed') := by
        intro source' handed' hlen hrun
        refine decodeSizeLine_spec (hrun ▸ herr) (hrun ▸ hline) fun v rest hv hrest hdata => ?_
        rw [hrun, hdata] at herr hline hnul
        exact ih (p := .data v) (.inr ⟨v, hv, rfl⟩) (by omega) handed' herr hline hnul
      rcases hp with rfl | ⟨m, hm, rfl⟩
      · simp only [decodeLoop, stateOf, Pos.start, Nat.lt_irrefl, if_false]
        exact sizeLine source handed (Nat.le_refl _) rfl
      simp only [decodeLoop, stateOf, gt_iff_lt, hm, if_true]
      by_cases hshort : source.length < m
      · -- the source ends inside the payload
        obtain ⟨h1, h2⟩ := run_data longMax source m (Nat.le_of_lt hshort) hm
        rw [if_neg (by omega)] at h1
        simp only [h1, h2, Nat.min_eq_right (Nat.le_of_lt hshort), hshort, if_true, List.take_length]
        exact ⟨[(source, false)], _, rfl, by simp, rfl, fun _ => rfl⟩
      · have hle : m ≤ source.length := Nat.le_of_not_lt hshort
        have hlen : (source.take m).length = m := List.length_take_of_le hle
        obtain ⟨h1, h2⟩ := run_data longMax (source.take m) m (Nat.le_of_eq hlen) hm
        rw [if_pos hlen] at h1
        have hrun : run longMax (.data m) source = run longMax .dataCR (source.drop m) := by
          conv_lhs => rw [← List.take_append_drop m source, run_append, h1]
        have hpay : payload longMax (.data m) source
            = source.take m ++ payload longMax .dataCR (source.drop m) := by
          conv_lhs => rw [← List.take_append_drop m source, payload_append, h1, h2]
        have hdrop : (source.drop m).length ≤ source.length := by
          rw [List.length_drop]
          omega
        simp only [Nat.min_eq_left hle, Nat.lt_irrefl, if_false, hpay]
        rw [hrun] at herr hline hnul sizeLine ⊢
        apply Follows.after
        generalize source.drop m = rest at *
        rcases run_dataCR_cases herr with rfl | rfl | ⟨rest, rfl⟩
        · rw [if_pos (by simp), prepareHalfRead_some (.inr (hnul rfl))]
          exact ⟨[], _, by rw [List.append_nil]; rfl, rfl, rfl, fun _ => rfl⟩
        · rw [if_pos (by simp), prepareHalfRead_some (.inr (hnul rfl))]
          exact ⟨[], _, by rw [List.append_nil]; rfl, rfl, rfl, fun _ => rfl⟩
        · have hmatch : (matchString (CR :: LF :: rest) (bytes "\r\n")).used = some 2 := by
            rw [matchString_literal (by decide) (by decide), if_pos]
            · rfl
            · exact ⟨rest, rfl⟩
          rw [if_neg (by simp), hmatch]
          exact sizeLine rest _ (by simp at hdrop; omega) rfl

/-! ## One read -/

/-- The place of the reader behind the bytes received. -/
def place (received : Bytes) : Pos := run longMax .start received

/-- A cut the decoder survives: it is not inside a size line; a read that starts with the CRLF behind a payload
    does not end inside a later payload, and brings both its bytes if it starts with the CR; and a read that ends
    in front of or inside such a CRLF came in a buffer that holds a NUL. -/
structure GoodCut (p q : Pos) (data slack : Bytes) : Prop where
  line : inSizeLine q = false
  crlf : inCRLF p = true → inData q = false
  cr : p = .dataCR → 2 ≤ data.length
  nul : inCRLF q = true → 0 ∈ data ++ slack

instance (p q : Pos) (data slack : Bytes) : Decidable (GoodCut p q data slack) :=
  decidable_of_iff (inSizeLine q = false ∧ (inCRLF p = true → inData q = false) ∧
      (p = .dataCR → 2 ≤ data.length) ∧ (inCRLF q = true → 0 ∈ data ++ slack))
    ⟨fun ⟨h1, h2, h3, h4⟩ => ⟨h1, h2, h3, h4⟩, fun h => ⟨h.line, h.crlf, h.cr, h.nul⟩⟩

/-- The places between two calls. -/
def resting (p : Pos) : Prop := loopStart p ∨ inCRLF p = true

/-- A reader that started at a size line is at rest unless it is at an error, in a size line or at the end. -/
theorem place_resting {bs : Bytes} (herr : place bs ≠ .err) (hline : inSizeLine (place bs) = false)
    (hend : (place bs).ended = false) : resting (place bs) := by
  have hvalid : (place bs).Valid := run_valid longMax bs rfl
  cases hp : place bs with
  | size acc started =>
      cases started with
      | true => simp [hp, inSizeLine] at hline
      | false =>
          rw [hp] at hvalid
          exact .inl (.inl (by rw [show acc = 0 from hvalid]; rfl))
  | sizeLF => simp [hp, inSizeLine] at hline
  | data n =>
      rw [hp] at hvalid
      exact .inl (.inr ⟨n, hvalid, rfl⟩)
  | dataCR => exact .inr rfl
  | dataLF => exact .inr rfl
  | fin => simp [hp, Pos.ended] at hend
  | after => simp [hp, Pos.ended] at hend
  | err => exact absurd hp herr

/-- **One call.** From the state of a resting place, a good cut leads to the state of the next place, with the
    payload of the read handed on. -/
theorem hinPipeDecodeChunked_spec {p : Pos} (hp : resting p) {data slack : Bytes} (hne : data ≠ [])
    (herr : run longMax p data ≠ .err) (hcut : GoodCut p (run longMax p data) data slack) :
    ∃ calls st', hinPipeDecodeChunked (stateOf p) data slack = some ⟨st', calls, true, (run longMax p data).ended⟩ ∧
      calls.flatMap (·.1) = payload longMax p data ∧
      calls.countP (·.2) = (if (run longMax p data).ended then 1 else 0) ∧
      ((run longMax p data).ended = false → st' = stateOf (run longMax p data)) := by
  -- behind the CRLF the call is one that starts at a size line
  have behind : ∀ (skip : Bytes), stateOf p = ⟨0, -(skip.length : Int)⟩ → inCRLF p = true → (∃ rest, data = skip ++ rest) →
      run longMax p skip = .start → payload longMax p skip = [] →
      ∃ calls st', hinPipeDecodeChunked (stateOf p) data slack = some ⟨st', calls, true, (run longMax p data).ended⟩ ∧
        calls.flatMap (·.1) = payload longMax p data ∧
        calls.countP (·.2) = (if (run longMax p data).ended then 1 else 0) ∧
        ((run longMax p data).ended = false → st' = stateOf (run longMax p data)) := by
    rintro skip hst hcrlf ⟨rest, rfl⟩ hrun hpay
    have hq : run longMax p (skip ++ rest) = run longMax .start rest := by rw [run_append, hrun]
    have hdata := hcut.crlf hcrlf
    have hl := hcut.line
    have hn := hcut.nul
    rw [payload_append, hrun, hpay, List.nil_append]
    rw [hq] at herr hl hn hdata ⊢
    obtain ⟨calls, st', h1, h2, h3, h4⟩ := decodeLoop_spec (skip ++ rest ++ slack) (-(skip.length : Int))
      ((skip ++ rest).length + 1) (.inl rfl) (by rw [List.length_append]; omega) [] herr hl hn
    refine ⟨calls, st', ?_, h2, h3, fun hend => ?_⟩
    · rw [hst, hinPipeDecodeChunked]
      have hskip : (- -(skip.length : Int)).toNat = skip.length := by omega
      simp only [hskip, List.drop_left]
      rw [if_neg (by omega), if_neg (by simp)]
      exact h1
    · rw [h4 hend, hdata]
      rfl
  rcases hp with hp | hp
  · obtain ⟨calls, st', h1, h2, h3, h4⟩ := decodeLoop_spec (data ++ slack) 0 (data.length + 1) hp
      (Nat.lt_succ_self _) [] herr hcut.line hcut.nul
    refine ⟨calls, st', ?_, h2, h3, fun hend => ?_⟩
    · have hst : stateOf p = ⟨(stateOf p).chunkSz, 0⟩ := by
        rcases hp with rfl | ⟨m, _, rfl⟩ <;> rfl
      rw [hst, hinPipeDecodeChunked]
      exact h1
    · rw [h4 hend]
      cases run longMax p data <;> simp [stateOf, inData]
  · have hcases : p = .dataCR ∨ p = .dataLF := by
      simpa [inCRLF] using hp
    rcases hcases with rfl | rfl
    · have hlen := hcut.cr rfl
      rcases run_dataCR_cases herr with rfl | rfl | ⟨rest, rfl⟩
      · simp at hlen
      · simp at hlen
      · exact behind [CR, LF] rfl hp ⟨rest, rfl⟩ rfl rfl
    · cases data with
      | nil => exact absurd rfl hne
      | cons c cs =>
          have hrun : run longMax .dataLF (c :: cs) = run longMax (if c = LF then .start else .err) cs := rfl
          by_cases hc : c = LF
          · subst hc
            exact behind [LF] rfl hp ⟨cs, rfl⟩ rfl rfl
          · rw [hrun, if_neg hc, run_err] at herr
            exact absurd rfl herr

/-! ## A whole body -/

/-- Every read is cut well. -/
def CutsWell (s : Receiver) (rd : Bytes × Bytes) : Prop :=
  GoodCut (place s.received) (place (s.received ++ rd.1)) rd.1 rd.2

instance (s : Receiver) (rd : Bytes × Bytes) : Decidable (CutsWell s rd) :=
  inferInstanceAs (Decidable (GoodCut _ _ _ _))

/-- The decoder and the reader are at the same place and have handed on the same bytes. -/
structure Synced (enc : Bytes) (s : Receiver) : Prop where
  pre : s.received <+: enc
  fault : s.fault = false
  failed : s.failed = false
  done : s.done = (place s.received).ended
  output : s.output = payload longMax .start s.received
  flushes : s.flushes = if s.done then 1 else 0
  line : inSizeLine (place s.received) = false
  state : s.done = false → s.state = stateOf (place s.received)

section

variable {chunks : List Bytes} {head rest : Bytes}

/-- **The step lemma.** A good cut keeps decoder and reader together. -/
theorem Receiver.step_synced (henc : Encodes chunks head) (hsize : ∀ c ∈ chunks, c.length ≤ longMax)
    {s s' : Receiver} {rd : Bytes × Bytes} (h : Synced (head ++ rest) s) (hcut : CutsWell s rd)
    (hs : s.step (head ++ rest) rd = some s') : Synced (head ++ rest) s' := by
  obtain ⟨data, slack⟩ := rd
  simp only [Receiver.step] at hs
  split at hs
  swap
  · exact absurd hs (by simp)
  rename_i hen
  obtain ⟨hne, hdone, _, hpre⟩ := hen
  have hend : (place s.received).ended = false := h.done.symm.trans hdone
  have hrest := place_resting (henc.run_prefix hsize h.pre).1 h.line hend
  have herr : run longMax (place s.received) data ≠ .err := by
    have := (henc.run_prefix hsize hpre).1
    rwa [run_append] at this
  have hplace : place (s.received ++ data) = run longMax (place s.received) data := run_append _ _ _
  simp only [CutsWell, hplace] at hcut
  obtain ⟨calls, st', h1, h2, h3, h4⟩ := hinPipeDecodeChunked_spec hrest hne herr hcut
  rw [h.state hdone, h1] at hs
  obtain rfl := Option.some.inj hs
  refine ⟨hpre, h.fault, ?_, ?_, ?_, ?_, ?_, ?_⟩
  · simp [h.failed]
  · rw [hplace]
  · show (s.handed ++ calls).flatMap (·.1) = _
    have hout : s.handed.flatMap (·.1) = payload longMax .start s.received := h.output
    rw [List.flatMap_append, hout, h2, payload_append]
    rfl
  · show (s.handed ++ calls).countP (·.2) = _
    have hfl : s.handed.countP (·.2) = 0 := by
      have := h.flushes
      rw [hdone] at this
      exact this
    rw [List.countP_append, hfl, h3, Nat.zero_add]
  · rw [hplace]
    exact hcut.line
  · rw [hplace]
    exact h4

/-- **The chunk decoder on good cuts.** Along every way of cutting a valid encoding that meets `CutsWell` at
    every read, the decoder stays inside its buffers and fails nowhere, has handed on exactly the payload of the
    bytes received, and has signalled the end (one flush, and `HIN_DONE`) exactly when they contain the
    last-chunk line; what it has handed on then is the concatenation of the chunks. -/
theorem chunk_decoder_correct (chunks : List Bytes) (head rest : Bytes) (henc : Encodes chunks head)
    (hsize : ∀ c ∈ chunks, c.length ≤ longMax) (reads : List (Bytes × Bytes)) (s : Receiver)
    (h : RunWith (Receiver.step (head ++ rest)) CutsWell {} reads s) :
    s.fault = false ∧ s.failed = false ∧ s.output = payload longMax .start s.received ∧
      (s.done = true ↔ head.length ≤ s.received.length) ∧ s.flushes = (if s.done then 1 else 0) ∧
      (s.done = true → s.output = chunks.flatten) := by
  have hsync : Synced (head ++ rest) s := by
    refine RunWith.invariant (I := Synced (head ++ rest)) ?_ ?_ h
    · exact ⟨List.nil_prefix, rfl, rfl, rfl, rfl, rfl, rfl, fun _ => rfl⟩
    · exact fun s rd s' hi hg hs => Receiver.step_synced henc hsize hi hg hs
  have hend : s.done = true ↔ head.length ≤ s.received.length := by
    rw [hsync.done]
    exact (henc.run_prefix hsize hsync.pre).2
  refine ⟨hsync.fault, hsync.failed, hsync.output, hend, hsync.flushes, fun hd => ?_⟩
  rw [hsync.output]
  exact henc.payload_ended hsize hsync.pre (hend.mp hd)

end

/-- Two chunks, the second with leading zeros and upper case in its size line. -/
theorem encodes_sample : Encodes [bytes "hello", bytes "abcdefghij"]
    (bytes "5\r\nhello\r\n00A\r\nabcdefghij\r\n0\r\n") := by
  have h0 : Encodes [] (bytes "0" ++ [CR, LF]) := .last (by decide) (List.all_eq_true.mp (by decide)) (by decide)
  have h1 : Encodes [bytes "abcdefghij"]
      (bytes "00A" ++ [CR, LF] ++ bytes "abcdefghij" ++ [CR, LF] ++ (bytes "0" ++ [CR, LF])) :=
    .chunk (by decide) (List.all_eq_true.mp (by decide)) (by decide) (by decide) h0
  have h2 : Encodes [bytes "hello", bytes "abcdefghij"] (bytes "5" ++ [CR, LF] ++ bytes "hello" ++ [CR, LF] ++
      (bytes "00A" ++ [CR, LF] ++ bytes "abcdefghij" ++ [CR, LF] ++ (bytes "0" ++ [CR, LF]))) :=
    .chunk (by decide) (List.all_eq_true.mp (by decide)) (by decide) (by decide) h1
  exact h2

/-- A body cut inside a payload, right behind one, between CR and LF, and behind a size line. -/
theorem chunk_decoder_correct_sample : ∃ (reads : List (Bytes × Bytes)) (s : Receiver),
    RunWith (Receiver.step (bytes "5\r\nhello\r\n00A\r\nabcdefghij\r\n0\r\n" ++ bytes "\r\n")) CutsWell {} reads s ∧
      s.fault = false ∧ s.done = true ∧ s.output = [bytes "hello", bytes "abcdefghij"].flatten := by
  let reads : List (Bytes × Bytes) := [(bytes "5\r\nhe", []), (bytes "llo", [0]),
    (bytes "\r\n00A\r\nabcdefghij\r", [0]), (bytes "\n0\r\n", [])]
  have hrun : ((execWith (Receiver.step (bytes "5\r\nhello\r\n00A\r\nabcdefghij\r\n0\r\n" ++ bytes "\r\n"))
      (fun s rd => decide (CutsWell s rd)) {} reads).map (·.done)) = some true := by decide
  obtain ⟨s, hs, hd⟩ := Option.map_eq_some_iff.mp hrun
  have hr := RunWith.of_exec (G := CutsWell) (fun _ _ h => of_decide_eq_true h) reads hs
  have h := chunk_decoder_correct _ _ _ encodes_sample (by decide) reads s hr
  exact ⟨reads, s, hr, h.1, hd, h.2.2.2.2.2 hd⟩

/-- **A cut that loses bytes.** The first read ends right behind the payload `hello`, the second starts with its
    CRLF and ends inside the next payload: `left_over` is still `-2` for the third, which skips two bytes. -/
theorem chunk_decoder_loses_bytes : ¬ ∀ (chunks : List Bytes) (head rest : Bytes), Encodes chunks head →
    (∀ c ∈ chunks, c.length ≤ longMax) → ∀ (reads : List (Bytes × Bytes)) (s : Receiver),
      Run (Receiver.step (head ++ rest)) {} reads s →
        s.fault = false ∧ s.failed = false ∧ s.output = payload longMax .start s.received ∧
          (s.done = true ↔ head.length ≤ s.received.length) := by
  intro hall
  let reads : List (Bytes × Bytes) :=
    [(bytes "5\r\nhello", [0]), (bytes "\r\n00A\r\nabcdef", []), (bytes "ghij\r\n0\r\n\r\n", [])]
  have hrun : ((execWith (Receiver.step (bytes "5\r\nhello\r\n00A\r\nabcdefghij\r\n0\r\n" ++ bytes "\r\n"))
      (fun _ _ => true) {} reads).map fun s => (s.output, s.failed))
      = some (bytes "helloabcdefij\r\n", true) := by decide
  obtain ⟨s, hs, he⟩ := Option.map_eq_some_iff.mp hrun
  have h := hall _ _ _ encodes_sample (by decide) reads s (RunWith.of_exec (fun _ _ _ => trivial) reads hs)
  have hf : s.failed = true := (Prod.mk.inj he).2
  rw [h.2.1] at hf
  exact absurd hf (by simp)

end Http
end Hin9
