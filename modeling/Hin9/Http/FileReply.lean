import Hin9.Http.FileHead

/-!
# `Http.FileReply` — a file response as a whole (`httpd_file.c`, `filters.c`)

The head `httpd_send_file` writes, next to the bytes its pipe queues behind it while the file is read in slices.

* `file_reply_counts_iff` — when `Content-Length` counts the body and a `206` carries the bytes its range asks for;
* `file_reply_chunked_iff` — when the body behind a `Transfer-Encoding: chunked` head is a whole chunked body.
-/

namespace Hin9
namespace Http

open Lib.Chunked

/-! ## What is asked for

Conditions on the request, as the caller of `httpd_send_file` leaves it, and on the item. -/

/-- Parts of a file are given. -/
def GivesParts (http : HttpdClient) : Prop := http.status = 200 ∧ http.disable &&& HIN_HTTP_RANGE = 0

instance (http : HttpdClient) : Decidable (GivesParts http) := inferInstanceAs (Decidable (_ ∧ _))

/-- The number of bytes asked for: an open end is the rest of the file. -/
def askedCount (http : HttpdClient) (sz : Int) : Int := if http.count < 0 then sz - http.pos else http.count

/-- Where the bytes selected start, and how many they are. -/
def selectedStart (http : HttpdClient) : Int := if GivesParts http then http.pos else 0

def selectedCount (http : HttpdClient) (sz : Int) : Int := if GivesParts http then askedCount http sz else sz

/-- A part of the file is asked for and given. -/
def TakesPart (http : HttpdClient) (sz : Int) : Prop :=
  GivesParts http ∧ (http.pos ≠ 0 ∨ askedCount http sz ≠ sz)

instance (http : HttpdClient) (sz : Int) : Decidable (TakesPart http sz) := inferInstanceAs (Decidable (_ ∧ _))

/-- The request names an etag. -/
def EtagGiven (http : HttpdClient) : Prop := http.disable &&& HIN_HTTP_ETAG = 0 ∧ http.etag ≠ 0

instance (http : HttpdClient) : Decidable (EtagGiven http) := inferInstanceAs (Decidable (_ ∧ _))

/-- The item is newer than the time the request names. -/
def Newer (http : HttpdClient) (item : FileItem) : Prop :=
  http.disable &&& HIN_HTTP_MODIFIED = 0 ∧ http.modifiedSince ≠ 0 ∧ http.modifiedSince < item.modified

instance (http : HttpdClient) (item : FileItem) : Decidable (Newer http item) := inferInstanceAs (Decidable (_ ∧ _))

/-- The answer is a `304`. -/
def NotModified (http : HttpdClient) (item : FileItem) : Prop :=
  EtagGiven http ∧ http.etag = item.etag ∨ ¬ EtagGiven http ∧ (Newer http item ∨ http.status = 304)

instance (http : HttpdClient) (item : FileItem) : Decidable (NotModified http item) :=
  inferInstanceAs (Decidable (_ ∨ _))

/-- An answer that is no `304` is a `206`. -/
def PartialContent (http : HttpdClient) (item : FileItem) : Prop :=
  (TakesPart http item.size ∨ http.status = 206) ∧ ¬ (EtagGiven http ∧ Newer http item)

instance (http : HttpdClient) (item : FileItem) : Decidable (PartialContent http item) :=
  inferInstanceAs (Decidable (_ ∧ _))

/-- The flags `httpd_send_file` hands on. -/
def FileClient.enabled (http : FileClient) : UInt32 := http.peerFlags &&& ~~~http.disable

/-- The body is compressed. -/
def Compresses (http : FileClient) : Prop := hasFlag http.enabled HIN_HTTP_COMPRESS = true

instance (http : FileClient) : Decidable (Compresses http) := inferInstanceAs (Decidable (_ = _))

/-- The body is sent in chunks. -/
def SendsChunks (http : FileClient) : Prop :=
  hasFlag http.enabled HIN_HTTP_VER0 = false ∧ (hasFlag http.enabled HIN_HTTP_CHUNKED = true ∨
    Compresses http ∧ hasFlag http.enabled HIN_HTTP_KEEPALIVE = true)

instance (http : FileClient) : Decidable (SendsChunks http) := inferInstanceAs (Decidable (_ ∧ _))

/-! ## What `httpd_send_file` makes of it -/

theorem sendFileRange_eq (http : HttpdClient) (sz : Int) : sendFileRange http sz =
    { http with
      pos := selectedStart http
      count := selectedCount http sz
      status := if TakesPart http sz then 206 else http.status } := by
  have hopen : (if http.count < 0 then { http with count := sz - http.pos } else http) =
      { http with count := askedCount http sz } := by
    unfold askedCount
    split <;> rfl
  unfold sendFileRange selectedStart selectedCount
  rw [hopen]
  dsimp only
  by_cases hpart : http.pos ≠ 0 ∨ askedCount http sz ≠ sz
  · rw [if_pos hpart]
    by_cases hgives : GivesParts http
    · have hno : ¬ (http.status ≠ 200 ∨ http.disable &&& HIN_HTTP_RANGE ≠ 0) := by
        rintro (h | h)
        · exact h hgives.1
        · exact h hgives.2
      have htakes : TakesPart http sz := ⟨hgives, hpart⟩
      rw [if_neg hno, if_pos hgives, if_pos hgives, if_pos htakes]
    · have hoff : http.status ≠ 200 ∨ http.disable &&& HIN_HTTP_RANGE ≠ 0 := by
        by_cases h200 : http.status = 200
        · exact Or.inr fun h => hgives ⟨h200, h⟩
        · exact Or.inl h200
      have htakes : ¬ TakesPart http sz := fun h => hgives h.1
      rw [if_pos hoff, if_neg hgives, if_neg hgives, if_neg htakes]
  · have htakes : ¬ TakesPart http sz := fun h => hpart h.2
    have hpos : http.pos = 0 := not_not.mp fun h => hpart (Or.inl h)
    have hcount : askedCount http sz = sz := not_not.mp fun h => hpart (Or.inr h)
    rw [if_neg hpart, if_neg htakes, hpos, hcount, ite_self, ite_self]

/-- The status behind the conditional headers: an etag that is given and differs undoes a `304`. -/
theorem sendFileConditions_status (http : HttpdClient) (item : FileItem) : (sendFileConditions http item).status =
    if NotModified http item then 304
    else if EtagGiven http ∧ (Newer http item ∨ http.status = 304) then 200 else http.status := by
  obtain ⟨h1, hh1⟩ : ∃ h1, h1 = (if http.disable &&& HIN_HTTP_MODIFIED ≠ 0 then { http with modifiedSince := 0 }
    else http) := ⟨_, rfl⟩
  obtain ⟨h2, hh2⟩ : ∃ h2, h2 = (if h1.disable &&& HIN_HTTP_ETAG ≠ 0 then { h1 with etag := 0 } else h1) := ⟨_, rfl⟩
  have hstatus : h2.status = http.status := by
    rw [hh2, hh1]
    split <;> split <;> rfl
  have hnewer : (h2.modifiedSince ≠ 0 ∧ h2.modifiedSince < item.modified) ↔ Newer http item := by
    have hsame : h2.modifiedSince = h1.modifiedSince := by
      rw [hh2]
      split <;> rfl
    rw [hsame, hh1]
    unfold Newer
    split
    · rename_i hoff
      exact ⟨fun h => absurd rfl h.1, fun h => absurd h.1 hoff⟩
    · rename_i hon
      exact ⟨fun h => ⟨not_not.mp hon, h⟩, fun h => h.2⟩
  have hetag : h2.etag = if EtagGiven http then http.etag else 0 := by
    have hdisable : h1.disable = http.disable ∧ h1.etag = http.etag := by
      rw [hh1]
      split <;> exact ⟨rfl, rfl⟩
    rw [hh2, hdisable.1]
    by_cases hon : http.disable &&& HIN_HTTP_ETAG = 0
    · rw [if_neg (not_not.mpr hon), hdisable.2]
      by_cases hz : http.etag = 0
      · have hg : ¬ EtagGiven http := fun h => h.2 hz
        rw [if_neg hg, hz]
      · have hg : EtagGiven http := ⟨hon, hz⟩
        rw [if_pos hg]
    · have hg : ¬ EtagGiven http := fun h => hon h.1
      rw [if_pos hon, if_neg hg]
  have hgiven : h2.etag ≠ 0 ↔ EtagGiven http := by
    rw [hetag]
    split
    · rename_i hg
      exact ⟨fun _ => hg, fun _ => hg.2⟩
    · rename_i hg
      exact ⟨fun h => absurd rfl h, fun h => absurd h hg⟩
  unfold sendFileConditions
  dsimp only
  rw [← hh1, ← hh2]
  obtain ⟨h3, hh3⟩ : ∃ h3, h3 = (if h2.modifiedSince ≠ 0 ∧ h2.modifiedSince < item.modified
    then { h2 with status := 304 } else h2) := ⟨_, rfl⟩
  have h3etag : h3.etag = h2.etag := by
    rw [hh3]
    split <;> rfl
  have h3status : h3.status = if Newer http item then 304 else http.status := by
    rw [hh3]
    by_cases hn : Newer http item
    · rw [if_pos (hnewer.mpr hn), if_pos hn]
    · rw [if_neg (fun h => hn (hnewer.mp h)), if_neg hn, hstatus]
  have h304 : h3.status = 304 ↔ Newer http item ∨ http.status = 304 := by
    rw [h3status]
    split
    · rename_i hn
      exact ⟨fun _ => Or.inl hn, fun _ => rfl⟩
    · rename_i hn
      exact ⟨Or.inr, fun h => h.resolve_left hn⟩
  rw [← hh3, h3etag]
  by_cases hg : EtagGiven http
  · have hne := hgiven.mpr hg
    rw [if_pos hg] at hetag
    by_cases hm : http.etag = item.etag
    · have hnm : NotModified http item := Or.inl ⟨hg, hm⟩
      rw [if_pos ⟨hne, hetag.trans hm⟩, if_pos hnm]
    · have hnm : ¬ NotModified http item := by
        rintro (h | h)
        · exact hm h.2
        · exact h.1 hg
      rw [if_neg (fun h => hm (hetag ▸ h.2)), if_neg hnm]
      by_cases hs : Newer http item ∨ http.status = 304
      · rw [if_pos ⟨hne, h304.mpr hs⟩, if_pos ⟨hg, hs⟩]
      · rw [if_neg (fun h => hs (h304.mp h.2)), if_neg (fun h => hs h.2), h3status, if_neg fun h => hs (Or.inl h)]
  · have heq : ¬ h2.etag ≠ 0 := fun h => hg (hgiven.mp h)
    rw [if_neg (fun h => heq h.1), if_neg (fun h => heq h.1)]
    by_cases hs : Newer http item ∨ http.status = 304
    · have hnm : NotModified http item := Or.inr ⟨hg, hs⟩
      rw [if_pos hnm, h304.mpr hs]
    · have hnm : ¬ NotModified http item := by
        rintro (h | h)
        · exact hg h.1
        · exact hs h.2
      rw [if_neg hnm, if_neg (fun h => hg h.1), h3status, if_neg fun h => hs (Or.inl h)]

theorem hasFlag_set {bit : UInt32} (hbit : bit ≠ 0) (flags : UInt32) : hasFlag (flags ||| bit) bit = true := by
  unfold hasFlag
  have hand : (flags ||| bit) &&& bit = bit := by
    apply UInt32.toBitVec_inj.mp
    simp
    ext i hi
    simp
    exact fun h => Or.inr h
  rw [hand, bne_iff_ne]
  exact hbit

/-- Chunks can be used unless the client is an old one, and are used to keep a connection alive. -/
theorem httpdRequestChunked_spec (peer : UInt32) :
    hasFlag (httpdRequestChunked peer).1 HIN_HTTP_CHUNKED =
      (!hasFlag peer HIN_HTTP_VER0 && (hasFlag peer HIN_HTTP_CHUNKED || hasFlag peer HIN_HTTP_KEEPALIVE)) ∧
    (httpdRequestChunked peer).2 = !hasFlag peer HIN_HTTP_VER0 := by
  unfold httpdRequestChunked
  by_cases h0 : hasFlag peer HIN_HTTP_VER0 = true
  · rw [if_pos h0, h0, hasFlag_clear (by decide)]
    exact ⟨rfl, rfl⟩
  · rw [if_neg h0, Bool.eq_false_iff.mpr h0]
    refine ⟨?_, rfl⟩
    by_cases hk : hasFlag peer HIN_HTTP_KEEPALIVE = true
    · rw [if_pos hk, hk, hasFlag_set (by decide)]
      simp
    · rw [if_neg hk, Bool.eq_false_iff.mpr hk]
      simp

/-- **The framing of a response with a body.** -/
theorem httpdPipeSetChunked_spec (http : FileClient) :
    hasFlag (httpdPipeSetChunked http.enabled).1 HIN_HTTP_CHUNKED = decide (SendsChunks http) ∧
      (httpdPipeSetChunked http.enabled).2 = if Compresses http then .deflate (decide (SendsChunks http))
        else if SendsChunks http then .chunked else .raw := by
  obtain ⟨hrequest, hused⟩ := httpdRequestChunked_spec http.enabled
  have hsends : decide (SendsChunks http) = (!hasFlag http.enabled HIN_HTTP_VER0 &&
      (hasFlag http.enabled HIN_HTTP_CHUNKED || decide (Compresses http) && hasFlag http.enabled HIN_HTTP_KEEPALIVE)) := by
    rw [Bool.eq_iff_iff, decide_eq_true_iff]
    unfold SendsChunks
    simp
  unfold httpdPipeSetChunked
  dsimp only
  by_cases hcomp : Compresses http
  · have hflag : hasFlag http.enabled HIN_HTTP_COMPRESS = true := hcomp
    have hdec : decide (Compresses http) = true := decide_eq_true hcomp
    rw [if_pos hcomp, if_pos hflag, hsends, hdec]
    dsimp only
    rw [hrequest, Bool.true_and]
    exact ⟨rfl, rfl⟩
  · have hflag : ¬ hasFlag http.enabled HIN_HTTP_COMPRESS = true := hcomp
    have hdec : decide (Compresses http) = false := decide_eq_false hcomp
    rw [hdec, Bool.false_and, Bool.or_false] at hsends
    have hiff : SendsChunks http ↔ (!hasFlag http.enabled HIN_HTTP_VER0 && hasFlag http.enabled HIN_HTTP_CHUNKED) = true := by
      rw [← hsends, decide_eq_true_iff]
    rw [if_neg hcomp, if_neg hflag]
    by_cases hch : hasFlag http.enabled HIN_HTTP_CHUNKED = true
    · rw [if_pos hch]
      dsimp only
      rw [hrequest, hused, hsends, hch]
      refine ⟨by simp, ?_⟩
      by_cases h0 : hasFlag http.enabled HIN_HTTP_VER0 = true
      · have hno : ¬ SendsChunks http := fun h => absurd (hiff.mp h) (by simp [h0])
        rw [if_neg hno, h0]
        rfl
      · have hyes : SendsChunks http := hiff.mpr (by simp [h0, hch])
        rw [if_pos hyes, Bool.eq_false_iff.mpr h0]
        rfl
    · rw [if_neg hch]
      have hno : ¬ SendsChunks http := fun h => absurd (hiff.mp h) (by simp [hch])
      rw [if_neg hno, decide_eq_false hno]
      exact ⟨Bool.eq_false_iff.mpr hch, rfl⟩

/-! ## The reply -/

/-- The bytes of the file the pipe of a reply reads. -/
def FileReply.slice (r : FileReply) (file : Bytes) : Bytes :=
  (file.drop r.response.pos.toNat).take r.response.left.toNat

/-- The bytes selected lie inside the file. -/
structure Selected (http : HttpdClient) (sz : Nat) : Prop where
  start : 0 ≤ selectedStart http
  count : 0 ≤ selectedCount http sz
  inside : selectedStart http + selectedCount http sz ≤ sz

/-- **What a reply says**, for every method but `HEAD`. -/
structure Answers (http : FileClient) (item : FileItem) (r : FileReply) : Prop where
  selected : Selected http.toHttpdClient item.size
  pos : r.response.pos = selectedStart http.toHttpdClient
  length : r.head.contentLength = if r.head.chunked = true then none else some item.size
  range : r.head.contentRange = if r.head.status = 206 then
      some (selectedStart http.toHttpdClient,
        selectedStart http.toHttpdClient + selectedCount http.toHttpdClient item.size - 1, (item.size : Int))
    else none
  notModified : NotModified http.toHttpdClient item →
    r.head.status = 304 ∧ r.response.left = 0 ∧ r.head.chunked = false ∧ r.encoder = .raw
  modified : ¬ NotModified http.toHttpdClient item →
    (r.head.status = 206 ↔ PartialContent http.toHttpdClient item) ∧
    r.response.left = selectedCount http.toHttpdClient item.size ∧ r.head.chunked = decide (SendsChunks http) ∧
    r.encoder = if Compresses http then .deflate (decide (SendsChunks http))
      else if SendsChunks http then .chunked else .raw

theorem askedCount_nonneg {http : HttpdClient} {sz : Int} (hpos : http.pos ≤ sz) : 0 ≤ askedCount http sz := by
  unfold askedCount
  split <;> omega

/-- A reply that is compressed or sent in chunks is none to a `HEAD`. -/
theorem httpdSendFileReply_head {http : FileClient} {item : FileItem} {r : FileReply} (hhead : http.method = .head)
    (h : httpdSendFileReply http item = some r) : r.encoder = .raw := by
  have hasks := (httpdSendFile_asks http.toHttpdClient item).1
  unfold httpdSendFileReply at h
  split at h
  · exact absurd h (by simp)
  · rename_i h2 r2 heq
    rw [heq] at hasks
    rw [← Option.some.inj h]
    dsimp only
    unfold httpdPipeSetHttp11ResponseOptions
    rw [if_pos (Or.inr (hasks.trans hhead))]

theorem httpdSendFileReply_answers {http : FileClient} {item : FileItem} {r : FileReply} (hbody : http.method ≠ .head)
    (h : httpdSendFileReply http item = some r) : Answers http item r := by
  obtain ⟨h1, hh1⟩ : ∃ h1, h1 = sendFileRange http.toHttpdClient item.size := ⟨_, rfl⟩
  obtain ⟨h2, hh2⟩ : ∃ h2, h2 = sendFileConditions h1 item := ⟨_, rfl⟩
  have h1eq := hh1.trans (sendFileRange_eq http.toHttpdClient item.size)
  obtain ⟨⟨h2method, -, -⟩, h2pos, h2count⟩ := hh2 ▸ sendFileConditions_fields h1 item
  have h2status := hh2 ▸ sendFileConditions_status h1 item
  unfold httpdSendFileReply httpdSendFile at h
  dsimp only at h
  rw [← hh1, ← hh2] at h
  by_cases hout : h1.pos < 0 ∨ h1.pos > item.size ∨ h1.pos + h1.count > item.size
  · rw [if_pos hout] at h
    exact absurd h (by simp)
  rw [if_neg hout] at h
  have h1pos : h1.pos = selectedStart http.toHttpdClient := by rw [h1eq]
  have h1count : h1.count = selectedCount http.toHttpdClient item.size := by rw [h1eq]
  have hmethod : h2.method ≠ .head := by
    rw [h2method, h1eq]
    exact hbody
  -- the conditional headers see the request as it came, but for the status of a part
  have hetag : EtagGiven h1 ↔ EtagGiven http.toHttpdClient := by rw [h1eq]; rfl
  have hnewer : Newer h1 item ↔ Newer http.toHttpdClient item := by rw [h1eq]; rfl
  have hstatus : h1.status = if TakesPart http.toHttpdClient item.size then 206 else http.status := by rw [h1eq]
  have h304 : h1.status = 304 ↔ http.status = 304 := by
    rw [hstatus]
    split
    · rename_i htakes
      rw [htakes.1.1]
      decide
    · exact Iff.rfl
  have h206 : h1.status = 206 ↔ TakesPart http.toHttpdClient item.size ∨ http.status = 206 := by
    rw [hstatus]
    split
    · rename_i htakes
      exact ⟨fun _ => Or.inl htakes, fun _ => rfl⟩
    · rename_i htakes
      exact ⟨Or.inr, fun h => h.resolve_left htakes⟩
  have hnotmod : NotModified h1 item ↔ NotModified http.toHttpdClient item := by
    have hsame : h1.etag = http.etag := by rw [h1eq]
    unfold NotModified
    rw [hetag, hnewer, h304, hsame]
  have hpartial : ¬ NotModified http.toHttpdClient item →
      (h2.status ≠ 304 ∧ (h2.status = 206 ↔ PartialContent http.toHttpdClient item)) := by
    intro hnm
    rw [if_neg (fun h => hnm (hnotmod.mp h))] at h2status
    have hsame : (EtagGiven h1 ∧ (Newer h1 item ∨ h1.status = 304)) ↔
        (EtagGiven http.toHttpdClient ∧ (Newer http.toHttpdClient item ∨ http.status = 304)) := by
      rw [hetag, hnewer, h304]
    unfold PartialContent
    by_cases hundo : EtagGiven http.toHttpdClient ∧ (Newer http.toHttpdClient item ∨ http.status = 304)
    · rw [if_pos (hsame.mpr hundo)] at h2status
      rw [h2status]
      refine ⟨by decide, fun h => absurd h (by decide), ?_⟩
      rintro ⟨hpart, hno⟩
      rcases hundo.2 with hn | hs
      · exact absurd ⟨hundo.1, hn⟩ hno
      · rcases hpart with hpart | hpart
        · exact absurd (hs.symm.trans hpart.1.1) (by decide)
        · exact absurd (hs.symm.trans hpart) (by decide)
    · rw [if_neg (fun h => hundo (hsame.mp h))] at h2status
      rw [h2status, h206]
      refine ⟨?_, fun h => ⟨h, fun hg => hundo ⟨hg.1, Or.inl hg.2⟩⟩, fun h => h.1⟩
      intro hs
      by_cases hg : EtagGiven http.toHttpdClient
      · exact hundo ⟨hg, Or.inr (h304.mp hs)⟩
      · exact hnm (Or.inr ⟨hg, Or.inr (h304.mp hs)⟩)
  have hr := (Option.some.inj h).symm
  have hsel : Selected http.toHttpdClient item.size := by
    rw [h1pos, h1count] at hout
    refine ⟨by omega, ?_, by omega⟩
    unfold selectedCount selectedStart at *
    split
    · rename_i hgives
      rw [if_pos hgives] at hout
      exact askedCount_nonneg (by omega)
    · exact Int.natCast_nonneg _
  have hpos : h2.pos = selectedStart http.toHttpdClient := h2pos.trans h1pos
  have hcount : h2.count = selectedCount http.toHttpdClient item.size := h2count.trans h1count
  refine ⟨hsel, ?_, ?_, ?_, ?_, ?_⟩
  · rw [hr, ← hpos]
  · rw [hr]
    rfl
  · rw [hr, ← hpos, ← hcount]
    rfl
  · intro hnm
    rw [if_pos (hnotmod.mpr hnm)] at h2status
    have hopts : ∀ peer, httpdPipeSetHttp11ResponseOptions h2.status h2.method peer =
        (peer &&& ~~~(HIN_HTTP_CHUNKED ||| HIN_HTTP_COMPRESS), .raw) := by
      intro peer
      unfold httpdPipeSetHttp11ResponseOptions
      rw [if_pos (Or.inl h2status)]
    rw [hr]
    refine ⟨h2status, ?_, ?_, ?_⟩
    · dsimp only
      rw [if_pos (Or.inl h2status)]
    · dsimp only [fileHead]
      rw [hopts]
      exact hasFlag_clear (by decide) _
    · dsimp only
      rw [hopts]
  · intro hnm
    obtain ⟨hne, h206⟩ := hpartial hnm
    have hsent : ¬ (h2.status = 304 ∨ h2.method = .head) := by
      rintro (hs | hm)
      · exact hne hs
      · exact hmethod hm
    have hopts : ∀ peer, httpdPipeSetHttp11ResponseOptions h2.status h2.method peer = httpdPipeSetChunked peer := by
      intro peer
      unfold httpdPipeSetHttp11ResponseOptions
      rw [if_neg hsent]
    obtain ⟨hchunked, hencoder⟩ := httpdPipeSetChunked_spec http
    rw [hr]
    refine ⟨h206, ?_, ?_, ?_⟩
    · dsimp only
      rw [if_neg hsent, hcount]
    · dsimp only [fileHead]
      rw [hopts]
      exact hchunked
    · dsimp only
      rw [hopts]
      exact hencoder

/-- The file is long enough for the bytes selected. -/
theorem Answers.slice_length {http : FileClient} {item : FileItem} {r : FileReply} (h : Answers http item r)
    {file : Bytes} (hfile : file.length = item.size) :
    ((r.slice file).length : Int) = r.response.left := by
  obtain ⟨h0, hc, hin⟩ := h.selected
  unfold FileReply.slice
  rw [List.length_take, List.length_drop, hfile, h.pos]
  by_cases hnm : NotModified http.toHttpdClient item
  · rw [(h.notModified hnm).2.1]
    simp
  · rw [(h.modified hnm).2.1]
    omega

/-- The request behind its `Range` line. -/
def FileClient.withRange (http : FileClient) (a b : Bytes) : FileClient :=
  { http with toHttpdClient := httpdParseRange http.toHttpdClient (rangeLine a b) }

/-- The last byte of a file of `sz` bytes that `bytes=a-b` names. -/
def lastAsked (b : Bytes) (sz : Nat) : Nat := if b = [] then sz - 1 else min (decNat 0 b) (sz - 1)

/-- What a range is to be answered with, for the bytes `first` to `last`: `content` is the body in front of the codings
    the head announces, `queued` the body as it is sent. -/
structure RangeAnswered (r : FileReply) (queued content file : Bytes) (first last : Nat) : Prop where
  counted : ∀ n, r.head.contentLength = some n → queued.length = n
  ranged : r.head.status = 206 → r.head.contentRange = some ((first : Int), (last : Int), (file.length : Int)) ∧
    content = (file.drop first).take (last + 1 - first) ∧
    (r.encoder = .raw → queued = (file.drop first).take (last + 1 - first))

/-- The bytes of a body that is not sent in chunks. -/
def bodyLength (Z : Zlib) (http : FileClient) (sz : Nat) (ds : List Bytes) : Int :=
  if Compresses http then (Z.output ds).length else selectedCount http.toHttpdClient sz

/-- The request is one for which the head and the body agree: a body follows, without chunks it is as long as the
    file, and a part starts and ends where it was asked to. -/
structure RangeKept (Z : Zlib) (http : FileClient) (item : FileItem) (ds : List Bytes) (first last : Nat) : Prop where
  modified : ¬ NotModified http.toHttpdClient item
  whole : ¬ SendsChunks http → bodyLength Z http item.size ds = item.size
  window : PartialContent http.toHttpdClient item → selectedStart http.toHttpdClient = first ∧
    selectedStart http.toHttpdClient + selectedCount http.toHttpdClient item.size = last + 1

/-- The compressor on the one-byte file `a`, read at once. -/
def zlibOfA : Zlib where
  State := Unit
  init := ()
  feed _ d finish := ((), if finish && d == [97] then [0x78, 0x9c, 0x4b, 0x04, 0, 0, 0x62, 0, 0x62] else [])

/-- A client of the 1.1 protocol, with the encodings it accepts. -/
def keepAliveClient (accepts : UInt32) : FileClient := { peerFlags := HIN_HTTP_KEEPALIVE ||| accepts }

/-- The reply to a client that accepts deflate. -/
def deflatedReply (size : Nat) : FileReply where
  head := ⟨false, 200, some .deflate, true, true, none, none, none, false, none⟩
  encoder := .deflate true
  response := ⟨200, size, 0, 0, size⟩

section Sent

variable {Z : Zlib} {http : FileClient} {item : FileItem} {r : FileReply} {file : Bytes} {ds : List Bytes}
  {s : Sender Z}

/-- A pipe that has read its part of the file has told its encoder so. -/
theorem Answers.read_done (h : Answers http item r) (hfile : file.length = item.size)
    (hrun : Lib.Run (Sender.step r.encoder) (Sender.start Z r.response.left) ds s)
    (hread : ds.flatten = r.slice file) : s.done = true := by
  obtain ⟨hleft, hopen, -⟩ := sender_left hrun
  rw [hread, h.slice_length hfile] at hleft
  cases hdone : s.done with
  | true => rfl
  | false =>
      have hpos := (hopen hdone).1
      omega

/-! ## Chunked replies -/

/-- **A chunked, compressed body is whole exactly when what the compressor hands out at the end does not fill its
    buffers.** The last chunk is written by the pass of the loop that leaves room in its buffer and has something to
    send: no such pass is made for a source that is never read, and none finds anything behind a full buffer. -/
theorem file_reply_chunked_iff {c : Bool} (hreply : httpdSendFileReply http item = some r)
    (hchunked : r.head.chunked = true) (hdeflate : r.encoder = .deflate c) (hfile : file.length = item.size)
    (hrun : Lib.Run (Sender.step r.encoder) (Sender.start Z r.response.left) ds s)
    (hread : ds.flatten = r.slice file) :
    (∃ chunks, Body chunks s.queued ∧ chunks.flatten = Z.stream ds) ↔
      (Z.lastOutput ds).length % deflateRoom true ≠ 0 := by
  have hmethod : http.method ≠ .head := by
    intro hhead
    rw [httpdSendFileReply_head hhead hreply] at hdeflate
    exact absurd hdeflate (by simp)
  have hanswers := httpdSendFileReply_answers hmethod hreply
  have hdone := hanswers.read_done hfile hrun hread
  have hc : c = true := by
    by_cases hnm : NotModified http.toHttpdClient item
    · rw [(hanswers.notModified hnm).2.2.1] at hchunked
      exact absurd hchunked (by simp)
    · obtain ⟨-, -, hch, henc⟩ := hanswers.modified hnm
      rw [hch] at hchunked
      rw [hchunked, hdeflate] at henc
      split at henc
      · exact Encoder.deflate.inj henc
      · split at henc <;> exact absurd henc (by simp)
  rw [hdeflate, hc] at hrun
  have hbody := (sender_deflate_body hrun).2 hdone
  have hiff := sender_chunked_body_iff hrun hdone
  rw [hbody] at hiff
  by_cases hds : ds = []
  · -- a source that is never read: nothing is queued
    have hlast : Z.lastOutput ds = [] := by rw [hds]; rfl
    rw [hlast] at hiff ⊢
    refine ⟨?_, fun h => absurd (Nat.zero_mod _) h⟩
    rintro ⟨chunks, hwhole, -⟩
    obtain ⟨chunks', hne, hflat, hq⟩ := (sender_deflate_chunked hrun).2
    rw [hlast, if_neg (by simp), List.append_nil] at hq
    exact absurd (hq ▸ hwhole) (not_body_frames hne chunks)
  · unfold Zlib.stream
    rw [if_neg hds]
    exact hiff

/-- The theorem on a file of one byte, which is sent as one chunk and the last one. -/
theorem file_reply_chunked_sample :
    (∃ chunks, Body chunks ([57, CR, LF] ++ (zlibOfA.feed () [97] true).2 ++ [CR, LF] ++ lastChunk) ∧
      chunks.flatten = zlibOfA.stream [[97]]) ↔ (zlibOfA.lastOutput [[97]]).length % deflateRoom true ≠ 0 :=
  @file_reply_chunked_iff zlibOfA (keepAliveClient HIN_HTTP_DEFLATE) { size := 1 } (deflatedReply 1) [97] [[97]]
    ⟨0, (), (zlibOfA.feed () [97] true).2, _, true⟩ true (by decide) rfl rfl rfl (Lib.RunWith.snoc .nil trivial rfl) rfl

/-- **Chunked replies without a last chunk.** For an empty file the pipe is never read, so nothing at all follows the
    head that announces a chunked body. -/
theorem file_reply_unterminated : ¬ ∀ (Z : Zlib) (http : FileClient) (item : FileItem) (r : FileReply) (file : Bytes)
    (ds : List Bytes) (s : Sender Z) (c : Bool), httpdSendFileReply http item = some r → r.head.chunked = true →
    r.encoder = .deflate c → file.length = item.size →
    Lib.Run (Sender.step r.encoder) (Sender.start Z r.response.left) ds s → ds.flatten = r.slice file →
    ∃ chunks, Body chunks s.queued ∧ chunks.flatten = Z.stream ds := by
  intro h
  obtain ⟨chunks, hbody, -⟩ := h zlibOfA (keepAliveClient HIN_HTTP_DEFLATE) { size := 0 } (deflatedReply 0) [] []
    (Sender.start zlibOfA 0) true (by decide) rfl rfl rfl .nil rfl
  exact not_body_frames (fun c hc => absurd hc List.not_mem_nil) chunks hbody

/-! ## Lengths and ranges -/

/-- The length of a body that is not sent in chunks. -/
theorem Answers.queued_length (h : Answers http item r) (hfile : file.length = item.size)
    (hrun : Lib.Run (Sender.step r.encoder) (Sender.start Z r.response.left) ds s)
    (hread : ds.flatten = r.slice file) (hnm : ¬ NotModified http.toHttpdClient item) (hch : ¬ SendsChunks http) :
    (s.queued.length : Int) = bodyLength Z http item.size ds := by
  have hdone := h.read_done hfile hrun hread
  obtain ⟨-, hleft, -, henc⟩ := h.modified hnm
  rw [decide_eq_false hch, if_neg hch] at henc
  unfold bodyLength
  by_cases hcomp : Compresses http
  · rw [if_pos hcomp] at henc ⊢
    rw [henc] at hrun
    rw [sender_deflate_plain hrun, (sender_deflate_body hrun).2 hdone]
  · rw [if_neg hcomp] at henc ⊢
    rw [henc] at hrun
    rw [(sender_raw hrun).1, hread, h.slice_length hfile, hleft]

/-- **When a range is answered as it says.** The end of a range is taken for a number of bytes, the length of the
    file is printed whatever part of it follows, and a compressor changes it behind the head. -/
theorem file_reply_range_iff {a b : Bytes} (hne : a ≠ []) (ha : ∀ c ∈ a, isdigit c = true)
    (hb : ∀ c ∈ b, isdigit c = true) (hget : http.method = .get)
    (hin : decNat 0 a < item.size) (hreply : httpdSendFileReply (http.withRange a b) item = some r)
    (hfile : file.length = item.size)
    (hrun : Lib.Run (Sender.step r.encoder) (Sender.start Z r.response.left) ds s)
    (hread : ds.flatten = r.slice file) :
    RangeAnswered r s.queued ds.flatten file (decNat 0 a) (lastAsked b item.size) ↔
      RangeKept Z (http.withRange a b) item ds (decNat 0 a) (lastAsked b item.size) := by
  have hmethod : (http.withRange a b).method = .get := by
    unfold FileClient.withRange
    rw [httpdParseRange_rangeLine _ hne ha hb]
    exact hget
  have h := httpdSendFileReply_answers (by rw [hmethod]; decide) hreply
  have hdone := h.read_done hfile hrun hread
  constructor
  · rintro ⟨hcounted, hranged⟩
    have hnm : ¬ NotModified (http.withRange a b).toHttpdClient item := by
      intro hnm
      -- the size of the file is printed in front of no body
      obtain ⟨-, hleft, hch, henc⟩ := h.notModified hnm
      have hlen := h.length
      rw [hch, if_neg (by decide)] at hlen
      have hzero := hcounted _ hlen
      rw [henc] at hrun
      have hslice := h.slice_length hfile
      rw [(sender_raw hrun).1, hread] at hzero
      omega
    obtain ⟨h206, hleft, hch, henc⟩ := h.modified hnm
    refine ⟨hnm, ?_, ?_⟩
    · intro hno
      have hlen := h.length
      rw [hch, decide_eq_false hno, if_neg (by decide)] at hlen
      rw [← h.queued_length hfile hrun hread hnm hno, hcounted _ hlen]
    · intro hpart
      have hrange := h.range
      rw [if_pos (h206.mpr hpart), (hranged (h206.mpr hpart)).1] at hrange
      simp only [Option.some.injEq, Prod.mk.injEq] at hrange
      omega
  · rintro ⟨hnm, hlength, hwindow⟩
    obtain ⟨h206, hleft, hch, henc⟩ := h.modified hnm
    constructor
    · intro n hn
      have hlen := h.length
      rw [hn, hch] at hlen
      by_cases hsends : SendsChunks (http.withRange a b)
      · rw [decide_eq_true hsends, if_pos rfl] at hlen
        exact absurd hlen (by simp)
      · rw [decide_eq_false hsends, if_neg (by decide)] at hlen
        have hq := h.queued_length hfile hrun hread hnm hsends
        rw [hlength hsends] at hq
        rw [Option.some.inj hlen]
        omega
    · intro hstatus
      obtain ⟨hfirst, hlast⟩ := hwindow (h206.mp hstatus)
      have hrange := h.range
      have hbytes : ds.flatten = (file.drop (decNat 0 a)).take (lastAsked b item.size + 1 - decNat 0 a) := by
        rw [hread]
        unfold FileReply.slice
        rw [h.pos, hleft, hfirst]
        congr 1
        omega
      refine ⟨?_, hbytes, ?_⟩
      · rw [hrange, if_pos hstatus, hfirst]
        simp only [Option.some.injEq, Prod.mk.injEq, true_and]
        omega
      · intro hraw
        rw [hraw] at hrun
        rw [(sender_raw hrun).1, hbytes]

/-- The theorem on a file of one byte that is asked for as a whole. -/
theorem file_reply_range_sample :
    RangeAnswered ⟨⟨false, 200, none, false, true, none, none, some 1, true, none⟩, .raw, ⟨200, 1, 0, 0, 1⟩⟩
      [97] [97] [97] 0 0 ↔ RangeKept zlibOfA ((keepAliveClient 0).withRange [48] []) { size := 1 } [[97]] 0 0 :=
  @file_reply_range_iff zlibOfA (keepAliveClient 0) { size := 1 } _ [97] [[97]] ⟨0, (), [97], [97], true⟩ [48] []
    (by decide) (List.forall_mem_singleton.mpr rfl) (List.forall_mem_nil _) rfl (by decide) (by decide) rfl
    (Lib.RunWith.snoc .nil trivial rfl) rfl

/-- **A range that is answered wrong.** `bytes=0-1` of three bytes is answered with one byte, and with the length and
    the range lines `3` and `0-0`. -/
theorem file_reply_range_wrong : ¬ ∀ (Z : Zlib) (http : FileClient) (item : FileItem) (r : FileReply) (file a b : Bytes)
    (ds : List Bytes) (s : Sender Z), a ≠ [] → (∀ c ∈ a, isdigit c = true) → (∀ c ∈ b, isdigit c = true) →
    http.method = .get → decNat 0 a < item.size → httpdSendFileReply (http.withRange a b) item = some r →
    file.length = item.size → Lib.Run (Sender.step r.encoder) (Sender.start Z r.response.left) ds s →
    ds.flatten = r.slice file →
    RangeAnswered r s.queued ds.flatten file (decNat 0 a) (lastAsked b item.size) := by
  intro h
  have hwrong := h zlibOfA (keepAliveClient 0) { size := 3 }
    ⟨⟨false, 206, none, false, true, none, none, some 3, true, some (0, 0, 3)⟩, .raw, ⟨206, 3, 0, 0, 1⟩⟩
    [97, 98, 99] [48] [49] [[97]] ⟨0, (), [97], [97], true⟩ (by decide) (List.forall_mem_singleton.mpr rfl)
    (List.forall_mem_singleton.mpr rfl) rfl (by decide) (by decide) rfl
    (Lib.RunWith.snoc .nil trivial rfl) rfl
  exact absurd (hwrong.counted 3 rfl) (by decide)

/-- **The ranges that come right**: those with an open end, and those from byte 1 on whose number of bytes is their
    last byte. -/
theorem window_kept_iff {a b : Bytes} (hne : a ≠ []) (ha : ∀ c ∈ a, isdigit c = true)
    (hb : ∀ c ∈ b, isdigit c = true) (hgives : GivesParts http.toHttpdClient) (hin : decNat 0 a < item.size)
    (ha31 : decNat 0 a < 2 ^ 31) (hb31 : decNat 0 b < 2 ^ 31) :
    (selectedStart (http.withRange a b).toHttpdClient = decNat 0 a ∧
      selectedStart (http.withRange a b).toHttpdClient + selectedCount (http.withRange a b).toHttpdClient item.size =
        lastAsked b item.size + 1) ↔ b = [] ∨ decNat 0 a + decNat 0 b = lastAsked b item.size + 1 := by
  have hgives' : GivesParts (http.withRange a b).toHttpdClient := by
    unfold FileClient.withRange
    rw [httpdParseRange_rangeLine _ hne ha hb]
    exact hgives
  unfold selectedStart selectedCount askedCount
  rw [if_pos hgives', if_pos hgives']
  unfold FileClient.withRange
  rw [httpdParseRange_rangeLine _ hne ha hb]
  dsimp only
  rw [atoi_digits hne ha ha31]
  unfold lastAsked
  by_cases hopen : b = []
  · rw [if_pos hopen, if_pos hopen, if_pos (by omega)]
    refine ⟨fun _ => Or.inl hopen, fun _ => ⟨rfl, ?_⟩⟩
    omega
  · rw [if_neg hopen, if_neg hopen, atoi_digits hopen hb hb31, if_neg (by omega)]
    constructor
    · rintro ⟨-, h⟩
      exact Or.inr (by omega)
    · rintro (h | h)
      · exact absurd h hopen
      · exact ⟨rfl, by omega⟩

end Sent

end Http
end Hin9
