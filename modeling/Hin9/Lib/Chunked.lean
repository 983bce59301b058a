import Hin9.Basic.Bytes

/-!
# `Lib.Chunked` — the chunked transfer coding, one byte at a time

`Pos` is the place in a chunked body a reader has reached, `Pos.next` moves it by one byte and `Pos.emit` is the
payload the byte carries. The reader is a fold, so it does not see how the bytes were cut into reads
(`run_append`, `payload_append`).

`Encodes chunks head` says that `head` is a valid encoding of the chunks up to and including the last-chunk
line: any hex case, any number of leading zeros. A reader of a valid encoding ends exactly at the end of `head`
and has emitted the chunks (`Encodes.run_prefix`, `Encodes.payload_head`).

`limit` is the largest chunk size the reader can represent.
-/

namespace Hin9.Lib.Chunked

/-- The place in a chunked body. -/
inductive Pos where
  | size (acc : Nat) (started : Bool)   -- inside a size line, digits read so far
  | sizeLF (acc : Nat)                  -- behind the CR of a size line
  | data (left : Nat)                   -- inside a payload, this many bytes to go
  | dataCR                              -- behind a payload
  | dataLF                              -- between the CR and the LF behind a payload
  | fin                                 -- right behind the last-chunk line
  | after                               -- behind that
  | err
deriving Repr, DecidableEq

def Pos.start : Pos := .size 0 false

/-- The place behind a size line that denotes `n`. -/
def Pos.ofSize (limit n : Nat) : Pos :=
  if n = 0 then .fin else if n ≤ limit then .data n else .err

def Pos.next (limit : Nat) : Pos → UInt8 → Pos
  | .size acc started, c =>
      if isxdigit c then .size (acc * 16 + hexVal c) true
      else if c = CR ∧ started = true then .sizeLF acc else .err
  | .sizeLF acc, c => if c = LF then .ofSize limit acc else .err
  | .data left, _ => if left ≤ 1 then .dataCR else .data (left - 1)
  | .dataCR, c => if c = CR then .dataLF else .err
  | .dataLF, c => if c = LF then .start else .err
  | .fin, _ => .after
  | .after, _ => .after
  | .err, _ => .err

def Pos.emit : Pos → UInt8 → Bytes
  | .data _, c => [c]
  | _, _ => []

/-- The last-chunk line has been read. -/
def Pos.ended (p : Pos) : Bool := p == .fin || p == .after

def run (limit : Nat) (p : Pos) (bs : Bytes) : Pos := bs.foldl (Pos.next limit) p

def payload (limit : Nat) : Pos → Bytes → Bytes
  | _, [] => []
  | p, c :: cs => p.emit c ++ payload limit (p.next limit c) cs

variable {limit : Nat}

/-! ## Cutting the bytes -/

theorem run_append (p : Pos) (xs ys : Bytes) : run limit p (xs ++ ys) = run limit (run limit p xs) ys :=
  List.foldl_append

theorem payload_append (p : Pos) (xs ys : Bytes) :
    payload limit p (xs ++ ys) = payload limit p xs ++ payload limit (run limit p xs) ys := by
  induction xs generalizing p with
  | nil => rfl
  | cons c cs ih => simp only [List.cons_append, payload, ih, run, List.foldl_cons, List.append_assoc]

@[simp] theorem run_nil (p : Pos) : run limit p [] = p := rfl

@[simp] theorem payload_nil (p : Pos) : payload limit p [] = [] := rfl

theorem run_err (bs : Bytes) : run limit .err bs = .err := by
  induction bs with
  | nil => rfl
  | cons c cs ih => exact ih

theorem run_after (bs : Bytes) : run limit .after bs = .after := by
  induction bs with
  | nil => rfl
  | cons c cs ih => exact ih

theorem payload_after (bs : Bytes) : payload limit .after bs = [] := by
  induction bs with
  | nil => rfl
  | cons c cs ih => exact ih

theorem payload_err (bs : Bytes) : payload limit .err bs = [] := by
  induction bs with
  | nil => rfl
  | cons c cs ih => exact ih

theorem payload_fin (bs : Bytes) : payload limit .fin bs = [] := by
  cases bs with
  | nil => rfl
  | cons c cs => exact payload_after cs

theorem run_fin_ended (limit : Nat) (bs : Bytes) : (run limit .fin bs).ended = true := by
  cases bs with
  | nil => rfl
  | cons c cs =>
      have : run limit .fin (c :: cs) = .after := run_after cs
      rw [this]
      rfl

/-- A reader that is not at an error was not at one before. -/
theorem run_ne_err {p : Pos} {xs : Bytes} (ys : Bytes) (h : run limit p (xs ++ ys) ≠ .err) : run limit p xs ≠ .err := by
  intro he
  rw [run_append, he, run_err] at h
  exact h rfl

/-- A reader that has not passed the end has not done so before. -/
theorem run_not_after {p : Pos} {xs ys : Bytes} (hys : ys ≠ []) (h : run limit p (xs ++ ys) ≠ .after) :
    (run limit p xs).ended = false := by
  rw [run_append] at h
  cases hp : run limit p xs with
  | fin =>
      rw [hp] at h
      cases ys with
      | nil => exact absurd rfl hys
      | cons c cs => exact absurd (run_after cs) h
  | after => rw [hp, run_after] at h; exact absurd rfl h
  | size | sizeLF | data | dataCR | dataLF | err => rfl

/-- No digits have been read in front of the first one, and a payload is never left with nothing to go. -/
def Pos.Valid : Pos → Prop
  | .size acc false => acc = 0
  | .data n => 0 < n
  | _ => True

theorem Pos.Valid.next {p : Pos} (h : p.Valid) (limit : Nat) (c : UInt8) : (p.next limit c).Valid := by
  cases p with
  | size acc started =>
      simp only [Pos.next]
      split
      · trivial
      · split <;> trivial
  | sizeLF acc =>
      simp only [Pos.next, Pos.ofSize]
      split
      · split
        · trivial
        · split
          · exact Nat.pos_of_ne_zero ‹_›
          · trivial
      · trivial
  | data left =>
      simp only [Pos.next]
      split
      · trivial
      · show 0 < left - 1
        omega
  | dataCR =>
      simp only [Pos.next]
      split <;> trivial
  | dataLF =>
      simp only [Pos.next]
      split
      · rfl
      · trivial
  | fin => trivial
  | after => trivial
  | err => trivial

theorem run_valid (limit : Nat) (bs : Bytes) {p : Pos} (h : p.Valid) : (run limit p bs).Valid := by
  induction bs generalizing p with
  | nil => exact h
  | cons c cs ih => exact ih (h.next limit c)

/-! ## The parts of a body -/

theorem run_digits (limit : Nat) {hs : Bytes} (hhex : ∀ c ∈ hs, isxdigit c = true) (acc : Nat) (started : Bool) :
    run limit (.size acc started) hs = .size (hexNat acc hs) (started || !hs.isEmpty) ∧
      payload limit (.size acc started) hs = [] := by
  induction hs generalizing acc started with
  | nil => simp [hexNat]
  | cons c cs ih =>
      have hc : isxdigit c = true := hhex c List.mem_cons_self
      obtain ⟨h1, h2⟩ := ih (fun d hd => hhex d (List.mem_cons_of_mem _ hd)) (acc * 16 + hexVal c) true
      have hn : (Pos.size acc started).next limit c = .size (acc * 16 + hexVal c) true := by
        simp [Pos.next, hc]
      constructor
      · show run limit ((Pos.size acc started).next limit c) cs = _
        rw [hn, h1]
        simp [hexNat]
      · simp only [payload, hn, h2, Pos.emit, List.nil_append]

/-- A whole size line. -/
theorem run_sizeLine (limit : Nat) {hs : Bytes} (hne : hs ≠ []) (hhex : ∀ c ∈ hs, isxdigit c = true) :
    run limit .start (hs ++ [CR, LF]) = .ofSize limit (hexNat 0 hs) ∧
      payload limit .start (hs ++ [CR, LF]) = [] := by
  obtain ⟨h1, h2⟩ := run_digits limit hhex 0 false
  have hstart : hs.isEmpty = false := by simpa using hne
  rw [run_append, payload_append, Pos.start, h1, h2, hstart]
  simp [run, payload, Pos.next, Pos.emit, not_isxdigit_CR]

/-- A payload, or a part of one. -/
theorem run_data (limit : Nat) (bs : Bytes) (n : Nat) (hle : bs.length ≤ n) (hn : 0 < n) :
    run limit (.data n) bs = (if bs.length = n then .dataCR else .data (n - bs.length)) ∧
      payload limit (.data n) bs = bs := by
  induction bs generalizing n with
  | nil => simp; omega
  | cons c cs ih =>
      have hcs : cs.length + 1 ≤ n := hle
      have hstep : run limit (.data n) (c :: cs) = run limit ((Pos.data n).next limit c) cs := rfl
      rw [hstep]
      simp only [payload, Pos.emit, Pos.next, List.length_cons]
      by_cases h1 : n ≤ 1
      · obtain rfl : cs = [] := List.eq_nil_of_length_eq_zero (by omega)
        obtain rfl : n = 1 := by omega
        simp
      · obtain ⟨h2, h3⟩ := ih (n - 1) (by omega) (by omega)
        rw [if_neg h1, h2, h3]
        refine ⟨?_, rfl⟩
        by_cases h4 : cs.length + 1 = n
        · rw [if_pos h4, if_pos (by omega)]
        · rw [if_neg h4, if_neg (by omega)]
          congr 1
          omega

/-! ## Valid encodings -/

/-- `head` encodes the chunks, up to and including the last-chunk line. -/
inductive Encodes : List Bytes → Bytes → Prop where
  | last {hs : Bytes} : hs ≠ [] → (∀ c ∈ hs, isxdigit c = true) → hexNat 0 hs = 0 → Encodes [] (hs ++ [CR, LF])
  | chunk {hs chunk head : Bytes} {chunks : List Bytes} : hs ≠ [] → (∀ c ∈ hs, isxdigit c = true) →
      hexNat 0 hs = chunk.length → chunk ≠ [] → Encodes chunks head →
      Encodes (chunk :: chunks) (hs ++ [CR, LF] ++ chunk ++ [CR, LF] ++ head)

/-- **A valid encoding is read to its end, and the payload is the chunks.** By induction on the encoding. -/
theorem Encodes.run_head {chunks : List Bytes} {head : Bytes} (h : Encodes chunks head)
    (hlimit : ∀ c ∈ chunks, c.length ≤ limit) :
    run limit .start head = .fin ∧ payload limit .start head = chunks.flatten := by
  induction h with
  | last hne hhex hz =>
      obtain ⟨h1, h2⟩ := run_sizeLine limit hne hhex
      rw [h1, h2, hz]
      exact ⟨rfl, rfl⟩
  | @chunk hs chunk head chunks hne hhex hsize hchunk _ ih =>
      obtain ⟨h1, h2⟩ := run_sizeLine limit hne hhex
      obtain ⟨h3, h4⟩ := ih fun c hc => hlimit c (List.mem_cons_of_mem _ hc)
      have hpos : 0 < chunk.length := List.length_pos_iff.mpr hchunk
      obtain ⟨h5, h6⟩ := run_data limit chunk chunk.length (Nat.le_refl _) hpos
      have hof : Pos.ofSize limit (hexNat 0 hs) = .data chunk.length := by
        rw [hsize, Pos.ofSize, if_neg (by omega), if_pos (hlimit chunk List.mem_cons_self)]
      have hcrlf : run limit .dataCR [CR, LF] = .start ∧ payload limit .dataCR [CR, LF] = [] := by
        simp [run, payload, Pos.next, Pos.emit]
      rw [if_pos rfl] at h5
      simp only [run_append, payload_append, h1, h2, hof, h5, h6, hcrlf.1, hcrlf.2, h3, h4, List.flatten_cons,
        List.append_nil, List.nil_append, and_self]

/-- **The end is the end of the encoding.** A reader of a prefix of a valid encoding meets no error, and has read
    the last-chunk line exactly when the prefix contains it. -/
theorem Encodes.run_prefix {chunks : List Bytes} {head : Bytes} (h : Encodes chunks head)
    (hlimit : ∀ c ∈ chunks, c.length ≤ limit) {rest bs : Bytes} (hbs : bs <+: head ++ rest) :
    run limit .start bs ≠ .err ∧ ((run limit .start bs).ended = true ↔ head.length ≤ bs.length) := by
  obtain ⟨h1, _⟩ := h.run_head hlimit
  by_cases hlen : head.length ≤ bs.length
  · obtain ⟨t, rfl⟩ : head <+: bs := List.prefix_of_prefix_length_le (List.prefix_append _ _) hbs hlen
    have hend : (run limit .start (head ++ t)).ended = true := by
      rw [run_append, h1]
      exact run_fin_ended limit t
    refine ⟨fun he => ?_, iff_of_true hend hlen⟩
    rw [he] at hend
    exact absurd hend (by decide)
  · obtain ⟨t, ht⟩ : bs <+: head :=
      List.prefix_of_prefix_length_le hbs (List.prefix_append _ _) (Nat.le_of_lt (Nat.lt_of_not_le hlen))
    have hne : t ≠ [] := by
      rintro rfl
      rw [← ht] at hlen
      simp at hlen
    rw [← ht] at h1
    refine ⟨run_ne_err t (by rw [h1]; simp), iff_of_false ?_ hlen⟩
    rw [run_not_after hne (by rw [h1]; simp)]
    simp

/-- What is emitted once the last-chunk line is there. -/
theorem Encodes.payload_ended {chunks : List Bytes} {head : Bytes} (h : Encodes chunks head)
    (hlimit : ∀ c ∈ chunks, c.length ≤ limit) {rest bs : Bytes} (hbs : bs <+: head ++ rest)
    (hlen : head.length ≤ bs.length) : payload limit .start bs = chunks.flatten := by
  obtain ⟨h1, h2⟩ := h.run_head hlimit
  obtain ⟨t, rfl⟩ : head <+: bs := List.prefix_of_prefix_length_le (List.prefix_append _ _) hbs hlen
  rw [payload_append, h1, h2, payload_fin, List.append_nil]

/-! ## Writing a body -/

/-- One chunk with its size in front. -/
def frame (chunk : Bytes) : Bytes := hexDigits chunk.length ++ [CR, LF] ++ chunk ++ [CR, LF]

/-- The last chunk and the empty trailer. -/
def lastChunk : Bytes := [48, CR, LF, CR, LF]

/-- **A whole body**: the chunks, the last-chunk line and an empty trailer, with nothing behind. -/
def Body (chunks : List Bytes) (body : Bytes) : Prop := ∃ head, Encodes chunks head ∧ body = head ++ [CR, LF]

theorem encodes_frames {chunks : List Bytes} (h : ∀ c ∈ chunks, c ≠ []) :
    Encodes chunks (chunks.flatMap frame ++ [48, CR, LF]) := by
  induction chunks with
  | nil =>
      show Encodes [] ([48] ++ [CR, LF])
      refine Encodes.last (by decide) ?_ (by decide)
      intro c hc
      rw [List.mem_singleton.mp hc]
      decide
  | cons c cs ih =>
      obtain ⟨hne, hhex, hval⟩ := hexDigits_spec c.length
      have htail := Encodes.chunk hne hhex hval (h c List.mem_cons_self) (ih fun d hd => h d (List.mem_cons_of_mem c hd))
      simpa [frame, List.append_assoc] using htail

/-- Framed chunks with the last chunk behind them are a whole body. -/
theorem body_frames {chunks : List Bytes} (h : ∀ c ∈ chunks, c ≠ []) :
    Body chunks (chunks.flatMap frame ++ lastChunk) := by
  refine ⟨_, encodes_frames h, ?_⟩
  rw [List.append_assoc]
  rfl

/-- A reader of framed chunks is at the start of the next one behind them. -/
theorem run_frames (limit : Nat) {chunks : List Bytes} (h : ∀ c ∈ chunks, c ≠ [] ∧ c.length ≤ limit) :
    run limit .start (chunks.flatMap frame) = .start := by
  induction chunks with
  | nil => rfl
  | cons c cs ih =>
      obtain ⟨hne, hlimit⟩ := h c List.mem_cons_self
      obtain ⟨hdne, hdhex, hdval⟩ := hexDigits_spec c.length
      obtain ⟨h1, -⟩ := run_sizeLine limit hdne hdhex
      have hpos : 0 < c.length := List.length_pos_iff.mpr hne
      obtain ⟨h5, -⟩ := run_data limit c c.length (Nat.le_refl _) hpos
      rw [if_pos rfl] at h5
      have hof : Pos.ofSize limit (hexNat 0 (hexDigits c.length)) = .data c.length := by
        rw [hdval, Pos.ofSize, if_neg (by omega), if_pos hlimit]
      have hcrlf : run limit .dataCR [CR, LF] = .start := by simp [run, Pos.next]
      rw [List.flatMap_cons, run_append, frame]
      simp only [run_append] at h1 ⊢
      rw [h1, hof, h5, hcrlf]
      exact ih fun d hd => h d (List.mem_cons_of_mem c hd)

theorem length_le_flatten {chunks : List Bytes} {c : Bytes} (h : c ∈ chunks) : c.length ≤ chunks.flatten.length := by
  rw [List.length_flatten]
  exact List.single_le_sum (fun _ _ => Nat.zero_le _) _ (List.mem_map_of_mem h)

/-- **Without the last chunk there is no body**, whatever chunks one looks for. -/
theorem not_body_frames {chunks : List Bytes} (h : ∀ c ∈ chunks, c ≠ []) (found : List Bytes) :
    ¬ Body found (chunks.flatMap frame) := by
  rintro ⟨head, henc, heq⟩
  -- a limit both readings can represent
  let limit := chunks.flatten.length + found.flatten.length
  have hstart := run_frames limit fun c hc => ⟨h c hc, Nat.le_add_right_of_le (length_le_flatten hc)⟩
  have hfound : ∀ c ∈ found, c.length ≤ limit := fun c hc => Nat.le_add_left_of_le (length_le_flatten hc)
  obtain ⟨hfin, -⟩ := henc.run_head hfound
  rw [heq, run_append, hfin] at hstart
  exact absurd hstart (by simp [run, Pos.next, Pos.start])

/-- **A body has one content.** -/
theorem Body.flatten_eq {chunks found : List Bytes} {body : Bytes} (h : Body chunks body) (h' : Body found body) :
    found.flatten = chunks.flatten := by
  obtain ⟨head, henc, rfl⟩ := h
  obtain ⟨head', henc', heq⟩ := h'
  -- a limit both readings can represent
  let limit := chunks.flatten.length + found.flatten.length
  have h1 : payload limit .start (head ++ [CR, LF]) = chunks.flatten :=
    henc.payload_ended (fun c hc => Nat.le_add_right_of_le (length_le_flatten hc)) List.prefix_rfl (by simp)
  have h2 : payload limit .start (head ++ [CR, LF]) = found.flatten := by
    rw [heq]
    exact henc'.payload_ended (fun c hc => Nat.le_add_left_of_le (length_le_flatten hc)) List.prefix_rfl (by simp)
  exact h2.symm.trans h1

/-- **A body ends where it ends**: nothing can follow it and still be part of a body. -/
theorem Body.end_unique {chunks found : List Bytes} {body more : Bytes} (h : Body chunks body)
    (h' : Body found (body ++ more)) : more = [] := by
  obtain ⟨head, henc, rfl⟩ := h
  obtain ⟨head', henc', heq⟩ := h'
  -- a limit both readings can represent
  let limit := chunks.flatten.length + found.flatten.length
  have hlimit : ∀ c ∈ chunks, c.length ≤ limit := fun c hc => Nat.le_add_right_of_le (length_le_flatten hc)
  have hlimit' : ∀ c ∈ found, c.length ≤ limit := fun c hc => Nat.le_add_left_of_le (length_le_flatten hc)
  have hpre : head <+: head' ++ [CR, LF] := ⟨[CR, LF] ++ more, by rw [← heq, List.append_assoc]⟩
  have hpre' : head' <+: head ++ ([CR, LF] ++ more) := ⟨[CR, LF], by rw [← heq, List.append_assoc]⟩
  have hle : head'.length ≤ head.length := by
    refine (henc'.run_prefix hlimit' hpre).2.mp ?_
    rw [(henc.run_head hlimit).1]
    rfl
  have hle' : head.length ≤ head'.length := by
    refine (henc.run_prefix hlimit hpre').2.mp ?_
    rw [(henc'.run_head hlimit').1]
    rfl
  have hlen := congrArg List.length heq
  simp only [List.length_append] at hlen
  exact List.eq_nil_of_length_eq_zero (by omega)

end Hin9.Lib.Chunked
