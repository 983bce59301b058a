import Hin9.Basic.Bytes

/-!
# `Http.SendFile` — answering from a file or a cached item (`httpd_file.c`)

`httpd_send_file` settles the range, the conditional headers and the number of bytes the response pipe reads,
from the client's request and the item's size, modification time and etag. Of `httpd_client_t` only the fields
that this decision and the local cache read are kept; the text of the head and the encoding of the body are
not part of this module.
-/

namespace Hin9
namespace Http

/-! ## Requests -/

/-- The methods `hin_http_parse_header_line` tells apart. -/
inductive Method where
  | get
  | head
  | post
deriving Repr, DecidableEq

/-- The bits of `http->disable`. -/
def HIN_HTTP_RANGE : UInt32 := 0x2
def HIN_HTTP_MODIFIED : UInt32 := 0x4
def HIN_HTTP_ETAG : UInt32 := 0x8
def HIN_HTTP_LOCAL_CACHE : UInt32 := 0x800

/-- The bits of `http->cache_flags`. -/
def HIN_CACHE_PUBLIC : UInt32 := 0x4
def HIN_CACHE_NO_CACHE : UInt32 := 0x10
def HIN_CACHE_NO_STORE : UInt32 := 0x20
def HIN_CACHE_IMMUTABLE : UInt32 := 0x80
def HIN_CACHE_MAX_AGE : UInt32 := 0x400

/-- `httpd_client_t`: the request a connection is serving. -/
structure HttpdClient where
  method : Method := .get
  status : Nat := 200
  disable : UInt32 := 0
  pos : Int := 0
  count : Int := -1
  cache : Int := 0
  cacheFlags : UInt32 := 0
  modifiedSince : Int := 0
  cacheKey1 : UInt64 := 0
  cacheKey2 : UInt64 := 0
  etag : UInt64 := 0
deriving Repr, DecidableEq

/-- `hin_cache_set_number`. -/
def hinCacheSetNumber (http : HttpdClient) (num : Int) : HttpdClient :=
  { http with
    cache := num
    cacheFlags :=
      if num > 0 then HIN_CACHE_PUBLIC ||| HIN_CACHE_IMMUTABLE ||| HIN_CACHE_MAX_AGE
      else if num < 0 then HIN_CACHE_NO_STORE ||| HIN_CACHE_NO_CACHE
      else 0 }

/-! ## The response -/

/-- What `httpd_send_file` reads of a `hin_cache_item_t`. -/
structure FileItem where
  modified : Int := 0
  size : Nat := 0
  etag : UInt64 := 0
deriving Repr, DecidableEq

/-- The response pipe that is started: its status, the size and etag its head announces, the file position it
    reads from and `pipe->left`. -/
structure FileResponse where
  status : Nat
  size : Nat
  etag : UInt64
  pos : Int
  left : Int
deriving Repr, DecidableEq

/-- The range part: an open end becomes the rest of the file, and a part of the file is a `206` unless ranges
    are off or the status is not `200`. -/
def sendFileRange (http : HttpdClient) (sz : Int) : HttpdClient :=
  let http := if http.count < 0 then { http with count := sz - http.pos } else http
  if http.pos ≠ 0 ∨ http.count ≠ sz then
    if http.status ≠ 200 ∨ http.disable &&& HIN_HTTP_RANGE ≠ 0 then { http with pos := 0, count := sz }
    else { http with status := 206 }
  else http

/-- The conditional headers. -/
def sendFileConditions (http : HttpdClient) (item : FileItem) : HttpdClient :=
  let http := if http.disable &&& HIN_HTTP_MODIFIED ≠ 0 then { http with modifiedSince := 0 } else http
  let http := if http.disable &&& HIN_HTTP_ETAG ≠ 0 then { http with etag := 0 } else http
  let http := if http.modifiedSince ≠ 0 ∧ http.modifiedSince < item.modified then { http with status := 304 }
    else http
  if http.etag ≠ 0 ∧ http.etag = item.etag then { http with status := 304 }
  else if http.etag ≠ 0 ∧ http.status = 304 then { http with status := 200 }
  else http

/-- `httpd_send_file`: `none` is the `416` exit, which starts no pipe. -/
def httpdSendFile (http : HttpdClient) (item : FileItem) : HttpdClient × Option FileResponse :=
  let http := sendFileRange http item.size
  if http.pos < 0 ∨ http.pos > item.size ∨ http.pos + http.count > item.size then (http, none)
  else
    let http := sendFileConditions http item
    let left := if http.status = 304 ∨ http.method = .head then 0 else http.count
    (http, some ⟨http.status, item.size, item.etag, http.pos, left⟩)

/-! ## What the function guarantees -/

/-- The range a request asks for lies inside a file of `sz` bytes, or is ignored because ranges are off. The
    status is the `200` every caller sets first. -/
def RangeFits (http : HttpdClient) (sz : Nat) : Prop :=
  http.disable &&& HIN_HTTP_RANGE ≠ 0 ∨
    0 ≤ http.pos ∧ http.pos ≤ sz ∧ (http.count < 0 ∨ http.pos + http.count ≤ sz)

instance (http : HttpdClient) (sz : Nat) : Decidable (RangeFits http sz) :=
  inferInstanceAs (Decidable (_ ∨ _))

/-- A response announces the size and the etag of the item. -/
theorem httpdSendFile_announces {http http' : HttpdClient} {item : FileItem} {r : FileResponse}
    (h : httpdSendFile http item = (http', some r)) : r.size = item.size ∧ r.etag = item.etag := by
  unfold httpdSendFile at h
  dsimp only at h
  split at h
  · exact absurd (Prod.mk.inj h).2 (by simp)
  · have hr := Option.some.inj (Prod.mk.inj h).2
    subst hr
    exact ⟨rfl, rfl⟩

/-- The range part leaves a request that fits inside the file. -/
theorem sendFileRange_fits {http : HttpdClient} {sz : Nat} (h200 : http.status = 200)
    (hfit : RangeFits http sz) :
    ¬ ((sendFileRange http sz).pos < 0 ∨ (sendFileRange http sz).pos > sz ∨
      (sendFileRange http sz).pos + (sendFileRange http sz).count > sz) := by
  unfold sendFileRange
  dsimp only
  rcases hfit with hoff | ⟨h0, hle, hend⟩
  · split_ifs <;> simp_all
  · split_ifs <;> simp_all

/-- With the status the callers set, a range that fits is answered. -/
theorem httpdSendFile_isSome {http : HttpdClient} {item : FileItem} (h200 : http.status = 200)
    (hfit : RangeFits http item.size) : (httpdSendFile http item).2.isSome = true := by
  unfold httpdSendFile
  dsimp only
  rw [if_neg (sendFileRange_fits h200 hfit)]
  rfl

/-- Two requests agree on what is asked for: the method and the key. -/
def SameAsk (http http' : HttpdClient) : Prop :=
  http'.method = http.method ∧ http'.cacheKey1 = http.cacheKey1 ∧ http'.cacheKey2 = http.cacheKey2

theorem SameAsk.trans {a b c : HttpdClient} (h : SameAsk a b) (h' : SameAsk b c) : SameAsk a c :=
  ⟨h'.1.trans h.1, h'.2.1.trans h.2.1, h'.2.2.trans h.2.2⟩

theorem sendFileRange_asks (http : HttpdClient) (sz : Int) : SameAsk http (sendFileRange http sz) := by
  unfold sendFileRange
  dsimp only
  split_ifs <;> exact ⟨rfl, rfl, rfl⟩

/-- The conditional headers change neither what is asked for nor the range. -/
theorem sendFileConditions_fields (http : HttpdClient) (item : FileItem) :
    SameAsk http (sendFileConditions http item) ∧ (sendFileConditions http item).pos = http.pos ∧
      (sendFileConditions http item).count = http.count := by
  unfold sendFileConditions
  dsimp only
  split_ifs <;> exact ⟨⟨rfl, rfl, rfl⟩, rfl, rfl⟩

/-- The function does not change what the request asks for. -/
theorem httpdSendFile_asks (http : HttpdClient) (item : FileItem) : SameAsk http (httpdSendFile http item).1 := by
  have hrange := sendFileRange_asks http item.size
  unfold httpdSendFile
  dsimp only
  split
  · exact hrange
  · exact hrange.trans (sendFileConditions_fields _ item).1

/-- A range that fits still fits once the request has been answered. -/
theorem rangeFits_httpdSendFile {http : HttpdClient} (item : FileItem) (h200 : http.status = 200)
    (hfit : RangeFits http item.size) : RangeFits (httpdSendFile http item).1 item.size := by
  have hin := sendFileRange_fits h200 hfit
  obtain ⟨-, hpos, hcount⟩ := sendFileConditions_fields (sendFileRange http item.size) item
  unfold httpdSendFile
  dsimp only
  rw [if_neg hin]
  refine Or.inr ⟨?_, ?_, ?_⟩
  · rw [hpos]; omega
  · rw [hpos]; omega
  · rw [hpos, hcount]; omega

end Http
end Hin9
