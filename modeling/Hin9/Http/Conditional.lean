import Hin9.Http.FileReply

/-!
# `Http.Conditional` — requests for a file that has changed, or has not (`httpd_file.c`, `httpd_head.c`)

A request can name the time and the etag of the copy its sender has. `httpd_send_file` lets an etag decide, and looks at
the time where there is none. It answers `304` for a file that is newer than the time, where it should do so for one that is
not. A time or an etag that is zero is one that was not given.
-/

namespace Hin9
namespace Http

/-! ## The copy of the sender -/

/-- `If-Modified-Since` and `If-None-Match`. -/
structure Copy where
  since : Option Int
  etag : Option UInt64
deriving Repr, DecidableEq

namespace Copy

variable (copy : Copy)

/-- What `httpd_parse_headers_line` puts in a request that is cleared. -/
def fill (http : HttpdClient) : HttpdClient :=
  { http with
    modifiedSince := copy.since.getD 0
    etag := copy.etag.getD 0 }

def enabledEtag (disable : UInt32) : Option UInt64 := if disable &&& HIN_HTTP_ETAG = 0 then copy.etag else none

def enabledSince (disable : UInt32) : Option Int := if disable &&& HIN_HTTP_MODIFIED = 0 then copy.since else none

/-- The copy is what would be sent: it has the etag, or where no etag is given the file was not modified after it. -/
def Current (disable : UInt32) (item : FileItem) : Prop :=
  match copy.enabledEtag disable with
  | some v => v = item.etag
  | none =>
      match copy.enabledSince disable with
      | some t => item.modified ≤ t
      | none => False

/-- An etag decides that is not zero, or nothing is asked. A zero etag leaves it to the time, and a zero time is none. -/
def Decides (disable : UInt32) (item : FileItem) : Prop :=
  match copy.enabledEtag disable, copy.enabledSince disable with
  | some v, since => v ≠ 0 ∨ (item.etag = 0 ↔ ∃ t, since = some t ∧ t ≠ 0 ∧ t < item.modified)
  | none, some t => t = 0 ∧ 0 < item.modified
  | none, none => True

end Copy

/-- A `GET` of a whole file. -/
structure WholeGet (http : HttpdClient) (item : FileItem) : Prop where
  method : http.method = .get
  status : http.status = 200
  pos : http.pos = 0
  count : http.count < 0 ∨ http.count = item.size

/-- The answer is a `304`. -/
def Answers304 (http : HttpdClient) (item : FileItem) : Prop :=
  ∃ r, (httpdSendFile http item).2 = some r ∧ r.status = 304

/-! ## The answer -/

/-- No part of the file is taken. -/
theorem WholeGet.range_eq {http : HttpdClient} {item : FileItem} (h : WholeGet http item) :
    sendFileRange http item.size = { http with count := item.size } := by
  have hasked : askedCount http item.size = item.size := by
    unfold askedCount
    rw [h.pos]
    split
    · omega
    · exact h.count.resolve_left (by assumption)
  have hpart : ¬ TakesPart http item.size := fun ht => ht.2.elim (fun hp => hp h.pos) fun hc => hc hasked
  have hstart : selectedStart http = http.pos := by
    unfold selectedStart
    split
    · rfl
    · exact h.pos.symm
  have hcount : selectedCount http item.size = item.size := by
    unfold selectedCount
    rw [hasked, ite_self]
  rw [sendFileRange_eq, if_neg hpart, hstart, hcount]

theorem WholeGet.answers304_iff {http : HttpdClient} {item : FileItem} (h : WholeGet http item) :
    Answers304 http item ↔ EtagGiven http ∧ http.etag = item.etag ∨ ¬ EtagGiven http ∧ Newer http item := by
  have hin : ¬ (http.pos < 0 ∨ http.pos > item.size ∨ http.pos + (item.size : Int) > item.size) := by
    rw [h.pos]
    omega
  have hstatus := sendFileConditions_status { http with count := item.size } item
  have hnot : NotModified { http with count := item.size } item ↔
      EtagGiven http ∧ http.etag = item.etag ∨ ¬ EtagGiven http ∧ Newer http item := by
    refine or_congr Iff.rfl (and_congr Iff.rfl (or_iff_left_of_imp fun h304 => ?_))
    exact absurd (h.status.symm.trans h304) (by decide)
  unfold Answers304 httpdSendFile
  rw [h.range_eq]
  simp only [if_neg hin, Option.some.injEq, exists_eq_left', hstatus, ← hnot]
  split
  · exact iff_of_true rfl (by assumption)
  · refine iff_of_false ?_ (by assumption)
    split
    · decide
    · rw [show ({ http with count := item.size } : HttpdClient).status = 200 from h.status]
      decide

/-- An etag is given if it is enabled and not zero. -/
theorem Copy.etagGiven_iff (copy : Copy) (http : HttpdClient) :
    EtagGiven (copy.fill http) ↔ ∃ v, copy.enabledEtag http.disable = some v ∧ v ≠ 0 := by
  unfold EtagGiven enabledEtag fill
  split
  · rename_i hon
    cases he : copy.etag with
    | none => simp
    | some v => simp [hon]
  · rename_i hoff
    simp [hoff]

theorem Copy.newer_iff (copy : Copy) (http : HttpdClient) (item : FileItem) :
    Newer (copy.fill http) item ↔ ∃ t, copy.enabledSince http.disable = some t ∧ t ≠ 0 ∧ t < item.modified := by
  unfold Newer enabledSince fill
  split
  · rename_i hon
    cases hs : copy.since with
    | none => simp
    | some t => simp [hon]
  · rename_i hoff
    simp [hoff]

theorem Copy.etag_fill {copy : Copy} {disable : UInt32} {v : UInt64} (h : copy.enabledEtag disable = some v)
    (http : HttpdClient) : (copy.fill http).etag = v := by
  unfold enabledEtag at h
  split at h
  · simp [fill, h]
  · exact absurd h (by simp)

/-- **A file that did not change is answered with `304`, and only such a file,** exactly if an etag decides that is not
    zero, or nothing is asked, or what is asked is answered by a zero. -/
theorem not_modified_iff (copy : Copy) {http : HttpdClient} {item : FileItem} (h : WholeGet http item) :
    (Answers304 (copy.fill http) item ↔ copy.Current http.disable item) ↔ copy.Decides http.disable item := by
  have hwhole : WholeGet (copy.fill http) item := ⟨h.method, h.status, h.pos, h.count⟩
  rw [hwhole.answers304_iff, copy.etagGiven_iff, copy.newer_iff]
  unfold Copy.Current Copy.Decides
  cases he : copy.enabledEtag http.disable with
  | some v =>
      rw [Copy.etag_fill he]
      by_cases hv : v = 0
      · subst hv
        simp [eq_comm, iff_comm]
      · simp [hv]
  | none =>
      cases hs : copy.enabledSince http.disable with
      | none => simp
      | some t =>
          simp
          omega

theorem not_modified_sample :
    Answers304 ((⟨some 100, some 7⟩ : Copy).fill {}) ⟨200, 10, 7⟩ ↔
      (⟨some 100, some 7⟩ : Copy).Current 0 ⟨200, 10, 7⟩ := by
  have hwhole : WholeGet {} ⟨200, 10, 7⟩ := ⟨rfl, rfl, rfl, .inl (by decide)⟩
  exact (not_modified_iff ⟨some 100, some 7⟩ hwhole).2 (.inl (by decide))

/-- A file that was not modified after the time of the request is sent again. -/
theorem not_modified_wrong : ¬ (Answers304 ((⟨some 100, none⟩ : Copy).fill {}) ⟨100, 10, 7⟩ ↔
    (⟨some 100, none⟩ : Copy).Current 0 ⟨100, 10, 7⟩) := by
  intro h
  obtain ⟨r, hr, h304⟩ := h.2 (by decide +revert : (100 : Int) ≤ 100)
  simp [httpdSendFile, sendFileRange, sendFileConditions, Copy.fill] at hr
  simp [← hr] at h304

end Http
end Hin9
