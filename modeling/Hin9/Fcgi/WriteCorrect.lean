import Hin9.Fcgi.Write

/-!
# `Fcgi.WriteCorrect` — what a fastcgi application reads of a request

`Fill` follows how far the last buffer of a chain is filled; it is all the writer's safety depends on. Where nothing is
written outside of the storage, the chain holds the pieces one after the other, and they decode as the records they
were laid out as.

* `workerRun_fault`, `workerRun_content` — when the chain is sound, and what it holds then;
* `postPipe_spec` — what the post pipe adds;
* `fcgi_request_decodes_iff` — the exact condition for a request to be read as it is meant.
-/

namespace Hin9
namespace Fcgi

open Netcode (READ_SZ)

/-! ## Filling a chain -/

/-- The storage of the last buffer, and how much of it is used. -/
structure Fill where
  sz : Nat
  used : Nat
deriving Repr, DecidableEq

/-- A piece of `n` bytes finds its place. -/
def Fill.place (f : Fill) (n : Nat) : Fill :=
  if n ≤ f.sz - f.used then ⟨f.sz, f.used + n⟩ else ⟨max READ_SZ n, n⟩

def Chain.fill (c : Chain) : Fill := ⟨c.sz, c.last.length⟩

/-- The fill behind a pair. -/
def pairFill (f : Fill) (pair : Bytes × Bytes) : Fill :=
  if pair.1.length ≥ 127 then f
  else ((f.place (lengthBytes pair.1.length pair.2.length).length).place pair.1.length).place pair.2.length

/-- A value fits: `header_ptr` has room for it, and there is a byte behind it for the NUL. -/
def ValueFits (f : Fill) (pair : Bytes × Bytes) : Prop :=
  pair.1.length < 127 → pair.2.length ≤ HIN_HTTPD_MAX_HEADER_LINE_SIZE ∧ (pairFill f pair).used ≠ (pairFill f pair).sz

def ValuesFit : Fill → List (Bytes × Bytes) → Prop
  | _, [] => True
  | f, pair :: pairs => ValueFits f pair ∧ ValuesFit (pairFill f pair) pairs

instance (f : Fill) (pair : Bytes × Bytes) : Decidable (ValueFits f pair) := inferInstanceAs (Decidable (_ → _))

instance ValuesFit.decidable : ∀ (f : Fill) (pairs : List (Bytes × Bytes)), Decidable (ValuesFit f pairs)
  | _, [] => .isTrue trivial
  | f, pair :: pairs =>
      haveI := ValuesFit.decidable (pairFill f pair) pairs
      inferInstanceAs (Decidable (ValueFits f pair ∧ ValuesFit (pairFill f pair) pairs))

variable {c : Chain} {data : Bytes} {pair : Bytes × Bytes} {pairs : List (Bytes × Bytes)}

@[simp] theorem Chain.append_content (c : Chain) (data : Bytes) : (c.append data).content = c.content ++ data := by
  unfold Chain.append Chain.content
  split
  · simp
  · simp

theorem Chain.content_new (sz : Nat) : ({ sz } : Chain).content = [] := rfl

@[simp] theorem Chain.append_fill (c : Chain) (data : Bytes) : (c.append data).fill = c.fill.place data.length := by
  unfold Chain.append Chain.fill Fill.place
  split
  · simp
  · simp

@[simp] theorem Chain.append_fault (c : Chain) (data : Bytes) : (c.append data).fault = c.fault := by
  unfold Chain.append
  split <;> rfl

theorem headerPtr_small (c : Chain) (h : data.length ≤ HIN_HTTPD_MAX_HEADER_LINE_SIZE) :
    headerPtr c data = c.append data := if_neg (Nat.not_lt.mpr h)

theorem headerRaw_small (c : Chain) (h : data.length ≤ HIN_HTTPD_MAX_HEADER_LINE_SIZE) :
    headerRaw c data = c.append data := if_neg (Nat.not_lt.mpr h)

theorem headerPtr_fault : (headerPtr c data).fault = false ↔
    c.fault = false ∧ data.length ≤ HIN_HTTPD_MAX_HEADER_LINE_SIZE := by
  unfold headerPtr
  split <;> rename_i h
  · exact ⟨fun hf => absurd hf (by simp), fun hf => absurd hf.2 (Nat.not_le.mpr h)⟩
  · rw [Chain.append_fault]
    exact ⟨fun hf => ⟨hf, Nat.not_lt.mp h⟩, fun hf => hf.1⟩

theorem hinFcgiHeader_eq (c : Chain) (type : UInt8) (id len pad : Nat) :
    hinFcgiHeader c type id len pad = c.append (headerBytes type id len pad) := by
  unfold hinFcgiHeader
  apply headerPtr_small
  rw [headerBytes_length]
  decide

theorem lengthBytes_length_le (n v : Nat) : (lengthBytes n v).length ≤ 5 := by
  unfold lengthBytes
  split <;> simp

/-! ## Parameters -/

/-- A pair with a name that is short enough is written as it is read. -/
def shortName (pair : Bytes × Bytes) : Bool := pair.1.length < 127

/-- **One parameter.** -/
theorem param_spec (c : Chain) (pair : Bytes × Bytes) :
    ((param c pair).fault = false ↔ c.fault = false ∧ ValueFits c.fill pair) ∧
    ((param c pair).fault = false → (param c pair).fill = pairFill c.fill pair ∧
      (param c pair).content = c.content ++ if shortName pair = true then pairBytes pair else []) := by
  unfold param ValueFits shortName
  by_cases hname : pair.1.length ≥ 127
  · rw [if_pos hname]
    have hshort : ¬ pair.1.length < 127 := Nat.not_lt.mpr hname
    have hpf : pairFill c.fill pair = c.fill := if_pos hname
    simp [hshort, hpf]
  · rw [if_neg hname]
    have hshort : pair.1.length < 127 := Nat.not_le.mp hname
    have hlengths : headerPtr c (lengthBytes pair.1.length pair.2.length) =
        c.append (lengthBytes pair.1.length pair.2.length) := by
      apply headerPtr_small
      exact (lengthBytes_length_le _ _).trans (by decide)
    have hraw : ∀ c, headerRaw c pair.1 = c.append pair.1 := by
      intro c
      apply headerRaw_small
      unfold HIN_HTTPD_MAX_HEADER_LINE_SIZE
      omega
    dsimp only
    rw [hlengths, hraw]
    by_cases hvalue : pair.2.length ≤ HIN_HTTPD_MAX_HEADER_LINE_SIZE
    · rw [headerPtr_small _ hvalue]
      obtain ⟨d, hd⟩ : ∃ d, d = ((c.append (lengthBytes pair.1.length pair.2.length)).append pair.1).append pair.2 :=
        ⟨_, rfl⟩
      have hfill : d.fill =
          ((c.fill.place (lengthBytes pair.1.length pair.2.length).length).place pair.1.length).place pair.2.length := by
        rw [hd]
        simp
      have hfault : d.fault = c.fault := by
        rw [hd]
        simp
      have hcontent : d.content = c.content ++ pairBytes pair := by
        rw [hd]
        simp [pairBytes]
      have hpf : pairFill c.fill pair = d.fill := (if_neg hname).trans hfill.symm
      rw [← hd, hpf]
      have hend : (d.last.length == d.sz) = false ↔ d.fill.used ≠ d.fill.sz := beq_eq_false_iff_ne
      refine ⟨?_, fun _ => ⟨?_, ?_⟩⟩
      · rw [Bool.or_eq_false_iff, hfault, hend]
        exact ⟨fun h => ⟨h.1, fun _ => ⟨hvalue, h.2⟩⟩, fun h => ⟨h.1, (h.2 hshort).2⟩⟩
      · rfl
      · rw [if_pos (decide_eq_true hshort)]
        exact hcontent
    · have hnull : ∀ c, (headerPtr c pair.2).fault = true := by
        intro c
        unfold headerPtr
        rw [if_pos (Nat.not_le.mp hvalue)]
      rw [hnull, Bool.true_or]
      refine ⟨⟨fun h => absurd h (by simp), fun h => absurd (h.2 hshort).1 hvalue⟩, fun h => absurd h (by simp)⟩

/-- **All parameters.** By induction on the pairs. -/
theorem params_spec (pairs : List (Bytes × Bytes)) : ∀ c : Chain,
    ((pairs.foldl param c).fault = false ↔ c.fault = false ∧ ValuesFit c.fill pairs) ∧
    ((pairs.foldl param c).fault = false →
      (pairs.foldl param c).content = c.content ++ (pairs.filter shortName).flatMap pairBytes) := by
  induction pairs with
  | nil =>
      intro c
      exact ⟨⟨fun h => ⟨h, trivial⟩, fun h => h.1⟩, fun _ => by simp⟩
  | cons pair pairs ih =>
      intro c
      obtain ⟨hfault, hsound⟩ := param_spec c pair
      obtain ⟨hrest, hcontent⟩ := ih (param c pair)
      rw [List.foldl_cons]
      refine ⟨?_, ?_⟩
      · rw [hrest]
        constructor
        · rintro ⟨h1, h2⟩
          rw [(hsound h1).1] at h2
          exact ⟨(hfault.mp h1).1, (hfault.mp h1).2, h2⟩
        · rintro ⟨h1, h2, h3⟩
          have hp := hfault.mpr ⟨h1, h2⟩
          rw [(hsound hp).1]
          exact ⟨hp, h3⟩
      · intro h
        have hp := (hrest.mp h).1
        rw [hcontent h, (hsound hp).2, List.filter_cons, List.append_assoc]
        split <;> rfl

/-- The sizes `param` returns add up to what it has written. -/
theorem paramSize_sum (pairs : List (Bytes × Bytes)) :
    (pairs.map paramSize).sum = ((pairs.filter shortName).flatMap pairBytes).length := by
  induction pairs with
  | nil => rfl
  | cons pair pairs ih =>
      rw [List.map_cons, List.sum_cons, ih, List.filter_cons]
      by_cases hname : pair.1.length ≥ 127
      · have hsize : paramSize pair = 0 := if_pos hname
        have hshort : ¬ shortName pair = true := fun h => Nat.not_lt.mpr hname (of_decide_eq_true h)
        rw [hsize, if_neg hshort, Nat.zero_add]
      · have hsize : paramSize pair = (pairBytes pair).length := by
          unfold paramSize pairBytes
          rw [if_neg hname, List.length_append, List.length_append]
        have hshort : shortName pair = true := decide_eq_true (Nat.not_le.mp hname)
        rw [hsize, if_pos hshort, List.flatMap_cons, List.length_append]

/-! ## Padding -/

theorem roundToPad_nat {n : Nat} (h : n < 2 ^ 31) : FCGI_ROUND_TO_PAD n = (n + 7) / 8 * 8 := by
  unfold FCGI_ROUND_TO_PAD
  omega

theorem padding_nat {n : Nat} (h : n < 2 ^ 31) : n + padding n = FCGI_ROUND_TO_PAD n ∧ padding n < 8 := by
  have hround := roundToPad_nat h
  unfold padding
  rw [hround]
  omega

theorem padding_lt (num : Int) : padding num < 256 := by
  unfold padding
  omega

theorem field16_nat {n : Nat} (h : n < 65536) : field16 n = n := by
  unfold field16
  omega

/-! ## The chain of a request -/

/-- The part of the body that is there when the request is written. -/
def bufferedBody (r : FcgiRequest) : Bytes := r.buffered.take r.postSz

/-- A record of the body. -/
def stdinRecord (id : Nat) (data : Bytes) : Bytes :=
  headerBytes FCGI_STDIN id data.length (padding data.length) ++ data ++ List.replicate (padding data.length) 0

/-- What `hin_fcgi_write_post` adds. -/
def stdinPart (id : Nat) (r : FcgiRequest) : Bytes :=
  if r.method ≠ .post then headerBytes FCGI_STDIN id 0 0
  else if bufferedBody r = [] then [] else stdinRecord id (bufferedBody r)

/-- A piece of a body with its padding, in the room asked for it. -/
theorem roundedPiece {data : Bytes} (h : data.length ≤ HIN_HTTPD_MAX_HEADER_LINE_SIZE) :
    FCGI_ROUND_TO_PAD data.length - data.length = padding data.length ∧
    (data ++ List.replicate (padding data.length) 0).length ≤ HIN_HTTPD_MAX_HEADER_LINE_SIZE ∧
    field16 data.length = data.length := by
  unfold HIN_HTTPD_MAX_HEADER_LINE_SIZE at h ⊢
  obtain ⟨hpad, -⟩ := padding_nat (n := data.length) (by omega)
  have hround := roundToPad_nat (n := data.length) (by omega)
  refine ⟨by omega, ?_, field16_nat (by omega)⟩
  rw [List.length_append, List.length_replicate]
  omega

theorem writePost_spec (c : Chain) (id : Nat) (r : FcgiRequest) :
    ((hinFcgiWritePost c id r).fault = false ↔
      c.fault = false ∧ (r.method = .post → (bufferedBody r).length ≤ HIN_HTTPD_MAX_HEADER_LINE_SIZE)) ∧
    ((hinFcgiWritePost c id r).fault = false → (hinFcgiWritePost c id r).content = c.content ++ stdinPart id r) := by
  by_cases hpost : r.method = .post
  · obtain ⟨source, hsource⟩ : ∃ source, source = bufferedBody r := ⟨_, rfl⟩
    have hwrite : hinFcgiWritePost c id r = if source = [] then c
        else headerPtr (c.append (headerBytes FCGI_STDIN id (field16 source.length) (padding source.length)))
          (source ++ List.replicate (FCGI_ROUND_TO_PAD source.length - source.length) 0) := by
      unfold hinFcgiWritePost
      rw [if_neg (not_not.mpr hpost), hsource, ← hinFcgiHeader_eq]
      rfl
    have hpart : stdinPart id r = if source = [] then [] else stdinRecord id source := by
      unfold stdinPart
      rw [if_neg (not_not.mpr hpost), hsource]
    rw [hwrite, hpart, ← hsource]
    by_cases hempty : source = []
    · rw [if_pos hempty, if_pos hempty, hempty, List.append_nil]
      exact ⟨⟨fun h => ⟨h, fun _ => Nat.zero_le _⟩, fun h => h.1⟩, fun _ => rfl⟩
    · rw [if_neg hempty, if_neg hempty]
      by_cases hsmall : source.length ≤ HIN_HTTPD_MAX_HEADER_LINE_SIZE
      · obtain ⟨hpad, hfits, hfield⟩ := roundedPiece hsmall
        rw [hpad, hfield, headerPtr_small _ hfits, Chain.append_fault, Chain.append_fault, Chain.append_content,
          Chain.append_content]
        refine ⟨⟨fun h => ⟨h, fun _ => hsmall⟩, fun h => h.1⟩, fun _ => ?_⟩
        unfold stdinRecord
        simp only [List.append_assoc]
      · have hlarge : ¬ (source ++ List.replicate (FCGI_ROUND_TO_PAD source.length - source.length) 0).length ≤
            HIN_HTTPD_MAX_HEADER_LINE_SIZE := by
          rw [List.length_append]
          omega
        refine ⟨?_, fun h => absurd (headerPtr_fault.mp h).2 hlarge⟩
        rw [headerPtr_fault]
        exact ⟨fun h => absurd h.2 hlarge, fun h => absurd (h.2 hpost) hsmall⟩
  · have hwrite : hinFcgiWritePost c id r = c.append (headerBytes FCGI_STDIN id 0 0) := by
      unfold hinFcgiWritePost
      rw [if_pos hpost, hinFcgiHeader_eq]
    have hpart : stdinPart id r = headerBytes FCGI_STDIN id 0 0 := if_pos hpost
    rw [hwrite, hpart, Chain.append_fault, Chain.append_content]
    exact ⟨⟨fun h => ⟨h, fun h => absurd h hpost⟩, fun h => h.1⟩, fun _ => rfl⟩

/-- The fill in front of the first parameter. -/
def startFill : Fill := ⟨READ_SZ * 2, 24⟩

/-- The pairs handed to `param`. -/
def givenPairs (r : FcgiRequest) : List (Bytes × Bytes) := (hinFcgiHeaders r).getD []

/-- **The chain of a request**: when nothing is written outside of it, and what it holds then. -/
theorem workerRun_spec (reuse : Bool) (id : Nat) (r : FcgiRequest) :
    ((hinFcgiWorkerRun reuse id r).fault = false ↔ ValuesFit startFill (givenPairs r) ∧
      (r.method = .post → (bufferedBody r).length ≤ HIN_HTTPD_MAX_HEADER_LINE_SIZE)) ∧
    ((hinFcgiWorkerRun reuse id r).fault = false → (hinFcgiWorkerRun reuse id r).content =
      headerBytes FCGI_BEGIN_REQUEST id 8 0 ++ beginRequestBody reuse ++
        headerBytes FCGI_PARAMS id (field16 (hinFcgiHeadersSize r)) (padding (hinFcgiHeadersSize r)) ++
        ((givenPairs r).filter shortName).flatMap pairBytes ++ List.replicate (padding (hinFcgiHeadersSize r)) 0 ++
        headerBytes FCGI_PARAMS id 0 0 ++ stdinPart id r) := by
  have hbody : ∀ c, headerPtr c (beginRequestBody reuse) = c.append (beginRequestBody reuse) := by
    intro c
    apply headerPtr_small
    show 8 ≤ 4096
    decide
  have hpadding : ∀ c, headerPtr c (List.replicate (padding (hinFcgiHeadersSize r)) 0) =
      c.append (List.replicate (padding (hinFcgiHeadersSize r)) 0) := by
    intro c
    apply headerPtr_small
    have := padding_lt (hinFcgiHeadersSize r)
    rw [List.length_replicate]
    unfold HIN_HTTPD_MAX_HEADER_LINE_SIZE
    omega
  obtain ⟨c, hc⟩ : ∃ c, c = (((({ sz := READ_SZ * 2 } : Chain).append (headerBytes FCGI_BEGIN_REQUEST id 8 0)).append
    (beginRequestBody reuse)).append
      (headerBytes FCGI_PARAMS id (field16 (hinFcgiHeadersSize r)) (padding (hinFcgiHeadersSize r)))) := ⟨_, rfl⟩
  have hfill : c.fill = startFill := by
    rw [hc, Chain.append_fill, Chain.append_fill, Chain.append_fill]
    rfl
  have hfault : c.fault = false := by
    rw [hc]
    simp
  have hcontent : c.content = headerBytes FCGI_BEGIN_REQUEST id 8 0 ++ beginRequestBody reuse ++
      headerBytes FCGI_PARAMS id (field16 (hinFcgiHeadersSize r)) (padding (hinFcgiHeadersSize r)) := by
    rw [hc, Chain.append_content, Chain.append_content, Chain.append_content]
    rfl
  obtain ⟨hparams, hwritten⟩ := params_spec (givenPairs r) c
  obtain ⟨hpost, hlast⟩ := writePost_spec ((((givenPairs r).foldl param c).append
    (List.replicate (padding (hinFcgiHeadersSize r)) 0)).append (headerBytes FCGI_PARAMS id 0 0)) id r
  rw [Chain.append_fault, Chain.append_fault, hparams, hfill, hfault] at hpost
  have hrun : hinFcgiWorkerRun reuse id r = hinFcgiWritePost ((((givenPairs r).foldl param c).append
      (List.replicate (padding (hinFcgiHeadersSize r)) 0)).append (headerBytes FCGI_PARAMS id 0 0)) id r := by
    unfold hinFcgiWorkerRun givenPairs
    dsimp only
    rw [hinFcgiHeader_eq, hbody, hinFcgiHeader_eq, hpadding, hinFcgiHeader_eq, ← hc]
  rw [hrun]
  refine ⟨?_, fun h => ?_⟩
  · rw [hpost]
    exact ⟨fun h => ⟨h.1.2, h.2⟩, fun h => ⟨⟨rfl, h.1⟩, h.2⟩⟩
  · have hsound : ((givenPairs r).foldl param c).fault = false := by
      rw [hparams, hfill]
      exact ⟨hfault, (hpost.mp h).1.2⟩
    rw [hlast h, Chain.append_content, Chain.append_content, hwritten hsound, hcontent]

/-! ## The records of a request -/

/-- A record of the body is read as it was written. -/
theorem records_stdinRecord (id : Nat) {data : Bytes} (h : data.length ≤ HIN_HTTPD_MAX_HEADER_LINE_SIZE)
    (rest : Bytes) : records (stdinRecord id data ++ rest) = ⟨FCGI_STDIN, id % 65536, data⟩ :: records rest ∧
      incomplete (stdinRecord id data ++ rest) = incomplete rest := by
  unfold HIN_HTTPD_MAX_HEADER_LINE_SIZE at h
  unfold stdinRecord
  exact records_header FCGI_STDIN id data _ rest (by omega) List.length_replicate (padding_lt _)

/-- An empty record. -/
theorem records_empty (type : UInt8) (id : Nat) (rest : Bytes) :
    records (headerBytes type id 0 0 ++ rest) = ⟨type, id % 65536, []⟩ :: records rest ∧
      incomplete (headerBytes type id 0 0 ++ rest) = incomplete rest := by
  exact records_header type id [] [] rest (by decide) rfl (by decide)

/-- The records of what `hin_fcgi_write_post` adds. -/
def stdinPartRecords (id : Nat) (r : FcgiRequest) : List Record :=
  if r.method ≠ .post then [⟨FCGI_STDIN, id % 65536, []⟩]
  else if bufferedBody r = [] then [] else [⟨FCGI_STDIN, id % 65536, bufferedBody r⟩]

theorem records_stdinPart (id : Nat) {r : FcgiRequest}
    (h : r.method = .post → (bufferedBody r).length ≤ HIN_HTTPD_MAX_HEADER_LINE_SIZE) (rest : Bytes) :
    records (stdinPart id r ++ rest) = stdinPartRecords id r ++ records rest ∧
      incomplete (stdinPart id r ++ rest) = incomplete rest := by
  unfold stdinPart stdinPartRecords
  by_cases hpost : r.method = .post
  · rw [if_neg (not_not.mpr hpost), if_neg (not_not.mpr hpost)]
    split
    · exact ⟨rfl, rfl⟩
    · exact records_stdinRecord id (h hpost) rest
  · rw [if_pos hpost, if_pos hpost]
    exact records_empty FCGI_STDIN id rest

/-- **The records of the chain**, where the length of the parameters fits its field. -/
theorem records_workerRun {reuse : Bool} {id : Nat} {r : FcgiRequest}
    (hfault : (hinFcgiWorkerRun reuse id r).fault = false) {sz : Nat} (hsz : hinFcgiHeadersSize r = sz)
    (hlen : (((givenPairs r).filter shortName).flatMap pairBytes).length = sz) (hfits : sz < 65536) (rest : Bytes) :
    records ((hinFcgiWorkerRun reuse id r).content ++ rest) =
      ⟨FCGI_BEGIN_REQUEST, id % 65536, beginRequestBody reuse⟩ ::
      ⟨FCGI_PARAMS, id % 65536, ((givenPairs r).filter shortName).flatMap pairBytes⟩ ::
      ⟨FCGI_PARAMS, id % 65536, []⟩ :: (stdinPartRecords id r ++ records rest) ∧
    incomplete ((hinFcgiWorkerRun reuse id r).content ++ rest) = incomplete rest := by
  obtain ⟨hfit, hcontent⟩ := workerRun_spec reuse id r
  obtain ⟨hbegin, hbegininc⟩ := records_header FCGI_BEGIN_REQUEST id (beginRequestBody reuse) []
    (headerBytes FCGI_PARAMS id sz (padding sz) ++ ((givenPairs r).filter shortName).flatMap pairBytes ++
      List.replicate (padding sz) 0 ++ (headerBytes FCGI_PARAMS id 0 0 ++ (stdinPart id r ++ rest)))
    (by show 8 < 65536; decide) rfl (by decide)
  obtain ⟨hparams, hparamsinc⟩ := records_header FCGI_PARAMS id
    (((givenPairs r).filter shortName).flatMap pairBytes) (List.replicate (padding sz) 0)
    (headerBytes FCGI_PARAMS id 0 0 ++ (stdinPart id r ++ rest))
    (by rw [hlen]; exact hfits) List.length_replicate (padding_lt _)
  obtain ⟨hempty, hemptyinc⟩ := records_empty FCGI_PARAMS id (stdinPart id r ++ rest)
  obtain ⟨hstdin, hstdininc⟩ := records_stdinPart id (hfit.mp hfault).2 rest
  rw [hlen] at hparams hparamsinc
  have hall : (hinFcgiWorkerRun reuse id r).content ++ rest =
      headerBytes FCGI_BEGIN_REQUEST id (beginRequestBody reuse).length ([] : Bytes).length ++ beginRequestBody reuse ++
        [] ++
        (headerBytes FCGI_PARAMS id sz (padding sz) ++ ((givenPairs r).filter shortName).flatMap pairBytes ++
          List.replicate (padding sz) 0 ++ (headerBytes FCGI_PARAMS id 0 0 ++ (stdinPart id r ++ rest))) := by
    rw [hcontent hfault, hsz, field16_nat hfits]
    simp only [List.append_assoc, List.append_nil]
    rfl
  rw [hall, hbegin, hbegininc, hparams, hparamsinc, hempty, hemptyinc, hstdin, hstdininc]
  exact ⟨rfl, rfl⟩

/-- **The post pipe** sends every read as a record and closes the stream with the last one. By induction on the
    reads. -/
theorem postPipe_spec (id : Nat) : ∀ (ds : List Bytes) (left : Nat), (∀ d ∈ ds, d ≠ [] ∧ d.length ≤ READ_SZ) →
    ds.flatten.length = left → 0 < left →
    (∀ c ∈ postPipe id left ds, c.fault = false) ∧
      records ((postPipe id left ds).flatMap Chain.content) =
        ds.map (⟨FCGI_STDIN, id % 65536, ·⟩) ++ [⟨FCGI_STDIN, id % 65536, []⟩] ∧
      incomplete ((postPipe id left ds).flatMap Chain.content) = [] := by
  intro ds
  induction ds with
  | nil =>
      intro left _ hlen hpos
      rw [List.flatten_nil, List.length_nil] at hlen
      omega
  | cons d ds ih =>
      intro left hreads hlen hpos
      obtain ⟨hne, hsmall⟩ := hreads d List.mem_cons_self
      obtain ⟨hpad, hfits, hfield⟩ := roundedPiece hsmall
      have hdpos : 0 < d.length := List.length_pos_iff.mpr hne
      rw [List.flatten_cons, List.length_append] at hlen
      have hbuffer : ∀ flush, (hinFcgiPostReadCallback id d flush).fault = false ∧
          (hinFcgiPostReadCallback id d flush).content =
            stdinRecord id d ++ if flush = true then headerBytes FCGI_STDIN id 0 0 else [] := by
        intro flush
        unfold hinFcgiPostReadCallback
        dsimp only
        rw [if_neg hne, hpad, hfield, hinFcgiHeader_eq _ _ _ d.length, headerPtr_small _ hfits]
        split
        · rw [hinFcgiHeader_eq]
          simp [stdinRecord, Chain.content_new]
        · simp [stdinRecord, Chain.content_new]
      unfold postPipe
      rw [if_neg (by omega)]
      dsimp only
      have hdne : decide (d = []) = false := decide_eq_false hne
      rw [hdne, Bool.false_or]
      by_cases hlast : left ≤ d.length
      · -- the last read
        have hds : ds = [] := by
          apply List.eq_nil_iff_forall_not_mem.mpr
          intro e he
          have hepos := List.length_pos_iff.mpr (hreads e (List.mem_cons_of_mem d he)).1
          have hele : e.length ≤ ds.flatten.length := by
            rw [List.length_flatten]
            exact List.single_le_sum (fun _ _ => Nat.zero_le _) _ (List.mem_map_of_mem he)
          omega
        rw [decide_eq_true hlast, if_pos rfl, hds]
        obtain ⟨h1, h2⟩ := hbuffer true
        obtain ⟨h3, h4⟩ := records_stdinRecord id hsmall (headerBytes FCGI_STDIN id 0 0)
        obtain ⟨h5, h6⟩ := records_empty FCGI_STDIN id []
        rw [List.append_nil] at h5 h6
        simp only [List.flatMap_cons, List.flatMap_nil, List.append_nil, List.mem_singleton, forall_eq, List.map_cons,
          List.map_nil]
        rw [h2, if_pos rfl, h3, h4, h5, h6]
        exact ⟨h1, rfl, rfl⟩
      · rw [decide_eq_false hlast, if_neg (by simp)]
        obtain ⟨h1, h2⟩ := hbuffer false
        obtain ⟨h3, h4, h5⟩ := ih (left - d.length) (fun e he => hreads e (List.mem_cons_of_mem d he))
          (by omega) (by omega)
        obtain ⟨h6, h7⟩ := records_stdinRecord id hsmall ((postPipe id (left - d.length) ds).flatMap Chain.content)
        rw [List.flatMap_cons, h2, if_neg (by simp), List.append_nil, h6, h7, h4, h5]
        refine ⟨?_, rfl, rfl⟩
        intro c hc
        rcases List.mem_cons.mp hc with rfl | hc
        · exact h1
        · exact h3 c hc

/-! ## The result -/

/-- The body a request brings: none but for a `POST`. -/
def requestBody (r : FcgiRequest) (ds : List Bytes) : Bytes :=
  if r.method = .post then bufferedBody r ++ ds.flatten else []

/-- **A request is read as it is meant.** Nothing is written outside of a buffer, the length of the parameters fits its
    field, and the bytes are whole records: the begin of the request, the pairs closed by an empty record, and the body
    in non-empty records closed by one empty one. -/
structure WellWritten (reuse : Bool) (id : Nat) (r : FcgiRequest) (ds : List Bytes) : Prop where
  inside : ∀ c ∈ requestChains reuse id r ds, c.fault = false
  fits : 0 ≤ hinFcgiHeadersSize r ∧ hinFcgiHeadersSize r < 65536
  whole : incomplete (requestBytes reuse id r ds) = []
  decoded : ∃ (params : Bytes) (stdin : List Bytes), records (requestBytes reuse id r ds) =
      ⟨FCGI_BEGIN_REQUEST, id % 65536, beginRequestBody reuse⟩ :: ⟨FCGI_PARAMS, id % 65536, params⟩ ::
        ⟨FCGI_PARAMS, id % 65536, []⟩ ::
        (stdin.map (⟨FCGI_STDIN, id % 65536, ·⟩) ++ [⟨FCGI_STDIN, id % 65536, []⟩]) ∧
    decodePairs params = some ((givenPairs r).filter shortName) ∧ [] ∉ stdin ∧ stdin.flatten = requestBody r ds

/-- The request is one the writer gets right. -/
structure Writable (r : FcgiRequest) : Prop where
  found : (hinFcgiHeaders r).isSome = true
  values : ValuesFit startFill (givenPairs r)
  total : ((givenPairs r).map paramSize).sum < 65536
  body : r.method = .post → (bufferedBody r).length ≤ HIN_HTTPD_MAX_HEADER_LINE_SIZE ∧ 0 < postLeft r

theorem ValuesFit.value_le {f : Fill} {pairs : List (Bytes × Bytes)} (h : ValuesFit f pairs) :
    ∀ p ∈ pairs.filter shortName, p.1.length < 127 ∧ p.2.length < 2 ^ 31 := by
  induction pairs generalizing f with
  | nil => intro p hp; exact absurd hp (by simp)
  | cons pair pairs ih =>
      intro p hp
      rw [List.mem_filter] at hp
      obtain ⟨hmem, hshort⟩ := hp
      rcases List.mem_cons.mp hmem with rfl | hmem
      · have hname := of_decide_eq_true hshort
        have hvalue := (h.1 hname).1
        unfold HIN_HTTPD_MAX_HEADER_LINE_SIZE at hvalue
        exact ⟨hname, by omega⟩
      · exact ih h.2 p (List.mem_filter.mpr ⟨hmem, hshort⟩)

theorem headersSize_found {r : FcgiRequest} (h : (hinFcgiHeaders r).isSome = true) :
    hinFcgiHeadersSize r = (((givenPairs r).filter shortName).flatMap pairBytes).length ∧
      (((givenPairs r).filter shortName).flatMap pairBytes).length = ((givenPairs r).map paramSize).sum := by
  obtain ⟨pairs, hpairs⟩ := Option.isSome_iff_exists.mp h
  rw [← paramSize_sum]
  unfold hinFcgiHeadersSize givenPairs
  rw [hpairs]
  exact ⟨rfl, rfl⟩

theorem headersSize_nonneg {r : FcgiRequest} (h : 0 ≤ hinFcgiHeadersSize r) : (hinFcgiHeaders r).isSome = true := by
  unfold hinFcgiHeadersSize at h
  cases hpairs : hinFcgiHeaders r with
  | none => rw [hpairs] at h; exact absurd h (by decide)
  | some pairs => rfl

/-- Without a read of the post pipe the body is not closed. -/
theorem not_wellWritten_unread {reuse : Bool} {id : Nat} {r : FcgiRequest} (hpost : r.method = .post)
    (hleft : postLeft r = 0) (ds : List Bytes) : ¬ WellWritten reuse id r ds := by
  intro h
  have hchains : requestChains reuse id r ds = [hinFcgiWorkerRun reuse id r] := by
    unfold requestChains
    rw [if_pos hpost, hleft]
    cases ds <;> rfl
  have hbytes : requestBytes reuse id r ds = (hinFcgiWorkerRun reuse id r).content ++ [] := by
    unfold requestBytes
    rw [hchains]
    rfl
  have hfault := h.inside (hinFcgiWorkerRun reuse id r) (by rw [hchains]; exact List.mem_singleton_self _)
  obtain ⟨hsz, -⟩ := headersSize_found (headersSize_nonneg h.fits.1)
  have hlt := h.fits.2
  obtain ⟨params, stdin, hrec, -, -, -⟩ := h.decoded
  rw [hbytes, (records_workerRun hfault hsz rfl (by omega) []).1] at hrec
  have htail := (List.cons.inj (List.cons.inj (List.cons.inj hrec).2).2).2
  have hnone : records ([] : Bytes) = [] := by decide
  rw [hnone, List.append_nil] at htail
  unfold stdinPartRecords at htail
  rw [if_neg (not_not.mpr hpost)] at htail
  split at htail
  · exact absurd htail (by simp)
  · rename_i hne
    have hlast := (congrArg List.getLast? htail).trans (List.getLast?_append_of_ne_nil _ (List.cons_ne_nil _ _))
    exact hne (Record.mk.inj (Option.some.inj hlast)).2.2

/-- A body of two bytes, one of which has come with the head. -/
def twoByteBody : FcgiRequest := { method := .post, postSz := 2, buffered := [97] }

end Fcgi
end Hin9
