import Hin9.Http.Proxy

/-!
# `Http.HeaderChain` — writing a head into a chain of buffers (`header.c`)

The writers go to the last buffer of a chain, and put a new one behind it where the text does not fit. The formatted one
wants room for the NUL that `vsnprintf` writes as well, also in a buffer that was made for the text: a text of the
greatest length fits in none of those, and one is added after the other.

A buffer is its storage and `count`. The recursion to the last buffer runs on fuel, and none says that it has not come to
an end. `header_date` takes room in the last buffer of a chain and gives back what is left of it in the first one.
-/

namespace Hin9
namespace Http

open Netcode (READ_SZ)
open Fcgi (HIN_HTTPD_MAX_HEADER_LINE_SIZE)

/-! ## Buffers -/

/-- `hin_buffer_t`: its storage, and how much of it is in use. -/
structure HeaderBuffer where
  store : Bytes
  count : Int
deriving Repr, DecidableEq

namespace HeaderBuffer

variable (b : HeaderBuffer)

def sz : Int := b.store.length

def room : Int := b.sz - b.count

def content : Bytes := b.store.take b.count.toNat

/-- Bytes are written behind the ones in use. -/
def put (data : Bytes) : HeaderBuffer :=
  { b with store := b.store.take b.count.toNat ++ data ++ b.store.drop (b.count.toNat + data.length) }

/-- `vsnprintf`: as much of the text as there is room for, and a NUL. -/
def print (text : Bytes) : HeaderBuffer := if 0 < b.room then b.put (text.take (b.room.toNat - 1) ++ [0]) else b

def take (n : Int) : HeaderBuffer := { b with count := b.count + n }

/-- `new_buffer`. -/
def fresh (minSz : Nat) : HeaderBuffer where
  store := List.replicate (max READ_SZ minSz) 0
  count := 0

end HeaderBuffer

/-! ## The writers -/

/-- `vheader`. -/
def vheader : Nat → List HeaderBuffer → Bytes → Option (List HeaderBuffer × Nat)
  | 0, _, _ => none
  | _ + 1, [], _ => none
  | fuel + 1, b :: next :: rest, text => (vheader fuel (next :: rest) text).map fun r => (b :: r.1, r.2)
  | fuel + 1, [b], text =>
      let printed := b.print text
      if text.length > HIN_HTTPD_MAX_HEADER_LINE_SIZE then some ([printed], 0)
      else if (text.length : Int) ≥ b.room then
        (vheader fuel [HeaderBuffer.fresh text.length] text).map fun r => (printed :: r.1, r.2)
      else some ([printed.take text.length], text.length)

/-- `header_raw`. -/
def headerRaw : Nat → List HeaderBuffer → Bytes → Option (List HeaderBuffer × Nat)
  | 0, _, _ => none
  | _ + 1, [], _ => none
  | fuel + 1, b :: next :: rest, data => (headerRaw fuel (next :: rest) data).map fun r => (b :: r.1, r.2)
  | fuel + 1, [b], data =>
      if data.length > HIN_HTTPD_MAX_HEADER_LINE_SIZE then some ([b], 0)
      else if (data.length : Int) > b.room then
        (headerRaw fuel [HeaderBuffer.fresh data.length] data).map fun r => (b :: r.1, r.2)
      else some ([(b.put data).take data.length], data.length)

/-- `header_ptr`: the pointer is the number of a buffer and a place in it. -/
def headerPtr : Nat → List HeaderBuffer → Nat → Option (List HeaderBuffer × Option (Nat × Int))
  | 0, _, _ => none
  | _ + 1, [], _ => none
  | fuel + 1, b :: next :: rest, len =>
      (headerPtr fuel (next :: rest) len).map fun r => (b :: r.1, r.2.map fun p => (p.1 + 1, p.2))
  | fuel + 1, [b], len =>
      if len > HIN_HTTPD_MAX_HEADER_LINE_SIZE then some ([b], none)
      else if (len : Int) > b.room then
        (headerPtr fuel [HeaderBuffer.fresh len] len).map fun r => (b :: r.1, r.2.map fun p => (p.1 + 1, p.2))
      else some ([b.take len], some (0, b.count))

/-- Bytes are written through a pointer. -/
def fillAt (c : List HeaderBuffer) (p : Nat × Int) (data : Bytes) : List HeaderBuffer :=
  c.modify p.1 fun b => { b with
    store := b.store.take p.2.toNat ++ data ++ b.store.drop (p.2.toNat + data.length) }

/-- `header_date`, for what `strftime` makes of a time (none for one that `gmtime_r` does not know). Without room for the
    text and its NUL `strftime` writes nothing that can be relied on. -/
def headerDate (fuel : Nat) (c : List HeaderBuffer) (date : Option Bytes) : Option (List HeaderBuffer × Nat) :=
  match date with
  | none => some (c, 0)
  | some text =>
      let sz := 80
      (headerPtr fuel c sz).bind fun (c, p) => p.bind fun p =>
        let len := if text.length < sz then text.length else 0
        let c := if text.length < sz then fillAt c p (text ++ [0]) else c
        some (c.modify 0 fun b => b.take (len - sz), len)

/-! ## What a chain holds -/

def contents (c : List HeaderBuffer) : Bytes := c.flatMap HeaderBuffer.content

def HeaderBuffer.Proper (b : HeaderBuffer) : Prop := 0 ≤ b.count ∧ b.count ≤ b.sz

def ProperChain (c : List HeaderBuffer) : Prop := c ≠ [] ∧ ∀ b ∈ c, b.Proper

/-- The room in the last buffer. -/
def lastRoom (c : List HeaderBuffer) : Int := (c.getLast?.map HeaderBuffer.room).getD 0

inductive Writer where
  | formatted
  | raw
  | pointer
deriving Repr, DecidableEq

/-- A text is written: the chain, and whether the call returned 0 or `NULL`. -/
def Writer.write (w : Writer) (fuel : Nat) (c : List HeaderBuffer) (text : Bytes) : Option (List HeaderBuffer × Bool) :=
  match w with
  | .formatted => (vheader fuel c text).map fun r => (r.1, r.2 == 0)
  | .raw => (headerRaw fuel c text).map fun r => (r.1, r.2 == 0)
  | .pointer => (headerPtr fuel c text.length).map fun r => ((r.2.map fun p => fillAt r.1 p text).getD r.1, r.2.isNone)

/-- The call returns, with the text at the end of the chain, or with nothing done for a text that is too long. -/
def Appends (w : Writer) (c : List HeaderBuffer) (text : Bytes) : Prop :=
  ∃ fuel c' nothing, w.write fuel c text = some (c', nothing) ∧ ProperChain c' ∧
    if text.length ≤ HIN_HTTPD_MAX_HEADER_LINE_SIZE then contents c' = contents c ++ text
    else contents c' = contents c ∧ nothing = true

namespace HeaderBuffer

variable {b : HeaderBuffer}

theorem Proper.length_content (h : b.Proper) : b.content.length = b.count.toNat := by
  unfold content
  obtain ⟨h0, hsz⟩ := h
  rw [List.length_take]
  unfold sz at hsz
  omega

@[simp] theorem put_count (data : Bytes) : (b.put data).count = b.count := rfl

/-- What is in use stays as it is. -/
theorem Proper.content_put (h : b.Proper) (data : Bytes) : (b.put data).content = b.content := by
  have hlen := h.length_content
  unfold content at hlen ⊢
  unfold put
  dsimp only
  rw [List.append_assoc, List.take_append_of_le_length hlen.ge, List.take_of_length_le hlen.le]

theorem Proper.content_take (h : b.Proper) {data : Bytes} {n : Nat} (hn : n ≤ data.length) :
    ((b.put data).take n).content = b.content ++ data.take n := by
  have hlen := h.length_content
  obtain ⟨h0, _⟩ := h
  unfold content at hlen ⊢
  unfold take put
  dsimp only
  rw [show (b.count + n).toNat = (b.store.take b.count.toNat).length + n by omega, List.append_assoc,
    List.take_length_add_append, List.take_append_of_le_length hn]

theorem Proper.sz_put (h : b.Proper) {data : Bytes} (hfit : (data.length : Int) ≤ b.room) : (b.put data).sz = b.sz := by
  have hlen := h.length_content
  obtain ⟨h0, hsz⟩ := h
  unfold content at hlen
  unfold room sz at *
  unfold put
  simp only [List.length_append, List.length_drop, hlen]
  omega

theorem Proper.take (h : b.Proper) {data : Bytes} {n : Nat} (hfit : (data.length : Int) ≤ b.room) (hn : n ≤ data.length) :
    ((b.put data).take n).Proper := by
  have hsz := h.sz_put hfit
  obtain ⟨h0, h1⟩ := h
  unfold room at hfit
  refine ⟨?_, ?_⟩
  · show 0 ≤ b.count + n
    omega
  · show b.count + n ≤ (b.put data).sz
    rw [hsz]
    omega

theorem take_take (m n : Int) : (b.take m).take n = b.take (m + n) := by
  unfold take
  rw [Int.add_assoc]

theorem fresh_proper (n : Nat) : (fresh n).Proper := ⟨le_rfl, by simp [fresh, sz]⟩

theorem fresh_room (n : Nat) : (fresh n).room = max READ_SZ n := by simp [fresh, room, sz]

theorem fresh_sz (n : Nat) : (fresh n).sz.toNat = max READ_SZ n := by
  unfold fresh sz
  dsimp only
  rw [List.length_replicate, Int.toNat_natCast]

theorem fresh_content (n : Nat) : (fresh n).content = [] := rfl

/-- `vsnprintf` writes behind what is in use. -/
theorem Proper.content_print (h : b.Proper) (text : Bytes) : (b.print text).content = b.content := by
  unfold print
  split
  · exact h.content_put _
  · rfl

theorem Proper.sz_print (h : b.Proper) (text : Bytes) : (b.print text).sz = b.sz := by
  unfold HeaderBuffer.print
  split
  · rename_i hroom
    refine h.sz_put ?_
    rw [List.length_append, List.length_take, List.length_singleton]
    omega
  · rfl

theorem Proper.print (h : b.Proper) (text : Bytes) : (b.print text).Proper := by
  have hsz := h.sz_print text
  unfold HeaderBuffer.print at hsz ⊢
  split
  · rename_i hroom
    rw [if_pos hroom] at hsz
    exact ⟨h.1, hsz ▸ h.2⟩
  · exact h

/-- A text that fits with its NUL is written as a whole. -/
theorem print_eq_put {text : Bytes} (hfit : (text.length : Int) < b.room) : b.print text = b.put (text ++ [0]) := by
  unfold print
  rw [if_pos (by omega), List.take_of_length_le (by omega)]

end HeaderBuffer

open HeaderBuffer

/-! ## One call at the end of a chain -/

section

variable (w : Writer) {b : HeaderBuffer} {text : Bytes}

/-- The text goes to the buffer if it fits, for the formatted writer together with a NUL. -/
theorem Writer.write_fits (hlen : text.length ≤ HIN_HTTPD_MAX_HEADER_LINE_SIZE)
    (hfit : (text.length : Int) + (if w = .formatted then 1 else 0) ≤ b.room) (fuel : Nat) :
    ∃ data nothing, text <+: data ∧ (data.length : Int) ≤ b.room ∧
      w.write (fuel + 1) [b] text = some ([(b.put data).take text.length], nothing) := by
  cases w with
  | formatted =>
      rw [if_pos rfl] at hfit
      refine ⟨text ++ [0], text.length == 0, List.prefix_append _ _, by simpa using hfit, ?_⟩
      unfold Writer.write vheader
      dsimp only
      rw [if_neg (by omega), if_neg (by omega), print_eq_put (by omega)]
      rfl
  | raw =>
      rw [if_neg (by decide)] at hfit
      refine ⟨text, text.length == 0, List.prefix_rfl, by omega, ?_⟩
      unfold Writer.write headerRaw
      rw [if_neg (by omega), if_neg (by omega)]
      rfl
  | pointer =>
      rw [if_neg (by decide)] at hfit
      refine ⟨text, false, List.prefix_rfl, by omega, ?_⟩
      unfold Writer.write headerPtr
      rw [if_neg (by omega), if_neg (by omega)]
      rfl

/-- It goes to a new buffer if it does not. -/
theorem Writer.write_grows (hb : b.Proper) (hlen : text.length ≤ HIN_HTTPD_MAX_HEADER_LINE_SIZE)
    (hfit : b.room < (text.length : Int) + (if w = .formatted then 1 else 0)) :
    ∃ b' : HeaderBuffer, b'.Proper ∧ b'.content = b.content ∧ ∀ fuel,
      w.write (fuel + 1) [b] text = (w.write fuel [fresh text.length] text).map fun r => (b' :: r.1, r.2) := by
  cases w with
  | formatted =>
      rw [if_pos rfl] at hfit
      refine ⟨b.print text, hb.print text, hb.content_print text, fun fuel => ?_⟩
      unfold Writer.write
      rw [vheader]
      dsimp only
      rw [if_neg (by omega), if_pos (by omega), Option.map_map, Option.map_map]
      rfl
  | raw =>
      rw [if_neg (by decide)] at hfit
      refine ⟨b, hb, rfl, fun fuel => ?_⟩
      unfold Writer.write
      rw [headerRaw, if_neg (by omega), if_pos (by omega), Option.map_map, Option.map_map]
      rfl
  | pointer =>
      rw [if_neg (by decide)] at hfit
      refine ⟨b, hb, rfl, fun fuel => ?_⟩
      unfold Writer.write
      dsimp only
      rw [headerPtr, if_neg (by omega), if_pos (by omega), Option.map_map, Option.map_map]
      congr 1
      funext ⟨c, p⟩
      cases p <;> rfl

/-- A text that is too long is left out. -/
theorem Writer.write_long (hb : b.Proper) (hlen : HIN_HTTPD_MAX_HEADER_LINE_SIZE < text.length) (fuel : Nat) :
    ∃ b' : HeaderBuffer, b'.Proper ∧ b'.content = b.content ∧ b'.sz = b.sz ∧
      w.write (fuel + 1) [b] text = some ([b'], true) := by
  cases w with
  | formatted =>
      refine ⟨b.print text, hb.print text, hb.content_print text, hb.sz_print text, ?_⟩
      unfold Writer.write vheader
      dsimp only
      rw [if_pos hlen]
      rfl
  | raw =>
      refine ⟨b, hb, rfl, rfl, ?_⟩
      unfold Writer.write headerRaw
      rw [if_pos hlen]
      rfl
  | pointer =>
      refine ⟨b, hb, rfl, rfl, ?_⟩
      unfold Writer.write headerPtr
      rw [if_pos hlen]
      rfl

/-- A writer goes to the last buffer. -/
theorem Writer.write_cons (next : HeaderBuffer) (rest : List HeaderBuffer) (fuel : Nat) :
    w.write (fuel + 1) (b :: next :: rest) text =
      (w.write fuel (next :: rest) text).map fun r => (b :: r.1, r.2) := by
  unfold Writer.write
  cases w with
  | formatted =>
      dsimp only
      rw [vheader, Option.map_map, Option.map_map]
      rfl
  | raw =>
      dsimp only
      rw [headerRaw, Option.map_map, Option.map_map]
      rfl
  | pointer =>
      dsimp only
      rw [headerPtr, Option.map_map, Option.map_map]
      congr 1
      funext ⟨c, p⟩
      cases p <;> rfl

end

/-! ## More fuel -/

theorem vheader_succ {fuel : Nat} {c : List HeaderBuffer} {text : Bytes} {r : List HeaderBuffer × Nat}
    (h : vheader fuel c text = some r) : vheader (fuel + 1) c text = some r := by
  induction fuel generalizing c r with
  | zero => exact absurd h.symm (Option.some_ne_none r)
  | succ fuel ih =>
      match c, h with
      | [b], h =>
          unfold vheader at h ⊢
          dsimp only at h ⊢
          split_ifs at h ⊢
          · exact h
          · obtain ⟨q, hq, rfl⟩ := Option.map_eq_some_iff.1 h
            rw [ih hq]
            rfl
          · exact h
      | b :: next :: rest, h =>
          rw [vheader] at h ⊢
          obtain ⟨q, hq, rfl⟩ := Option.map_eq_some_iff.1 h
          rw [ih hq]
          rfl

theorem headerRaw_succ {fuel : Nat} {c : List HeaderBuffer} {data : Bytes} {r : List HeaderBuffer × Nat}
    (h : headerRaw fuel c data = some r) : headerRaw (fuel + 1) c data = some r := by
  induction fuel generalizing c r with
  | zero => exact absurd h.symm (Option.some_ne_none r)
  | succ fuel ih =>
      match c, h with
      | [b], h =>
          unfold headerRaw at h ⊢
          split_ifs at h ⊢
          · exact h
          · obtain ⟨q, hq, rfl⟩ := Option.map_eq_some_iff.1 h
            rw [ih hq]
            rfl
          · exact h
      | b :: next :: rest, h =>
          rw [headerRaw] at h ⊢
          obtain ⟨q, hq, rfl⟩ := Option.map_eq_some_iff.1 h
          rw [ih hq]
          rfl

theorem headerPtr_succ {fuel : Nat} {c : List HeaderBuffer} {len : Nat} {r : List HeaderBuffer × Option (Nat × Int)}
    (h : headerPtr fuel c len = some r) : headerPtr (fuel + 1) c len = some r := by
  induction fuel generalizing c r with
  | zero => exact absurd h.symm (Option.some_ne_none r)
  | succ fuel ih =>
      match c, h with
      | [b], h =>
          unfold headerPtr at h ⊢
          split_ifs at h ⊢
          · exact h
          · obtain ⟨q, hq, rfl⟩ := Option.map_eq_some_iff.1 h
            rw [ih hq]
            rfl
          · exact h
      | b :: next :: rest, h =>
          rw [headerPtr] at h ⊢
          obtain ⟨q, hq, rfl⟩ := Option.map_eq_some_iff.1 h
          rw [ih hq]
          rfl

/-- A call that comes to an end does so with more fuel, and with the same result. -/
theorem Writer.write_mono (w : Writer) {fuel more : Nat} (hle : fuel ≤ more) {c : List HeaderBuffer} {text : Bytes}
    {r : List HeaderBuffer × Bool} (h : w.write fuel c text = some r) : w.write more c text = some r := by
  induction more, hle using Nat.le_induction with
  | base => exact h
  | succ more _ ih =>
      cases w with
      | formatted =>
          obtain ⟨q, hq, rfl⟩ := Option.map_eq_some_iff.1 ih
          exact Option.map_eq_some_iff.2 ⟨q, vheader_succ hq, rfl⟩
      | raw =>
          obtain ⟨q, hq, rfl⟩ := Option.map_eq_some_iff.1 ih
          exact Option.map_eq_some_iff.2 ⟨q, headerRaw_succ hq, rfl⟩
      | pointer =>
          obtain ⟨q, hq, rfl⟩ := Option.map_eq_some_iff.1 ih
          exact Option.map_eq_some_iff.2 ⟨q, headerPtr_succ hq, rfl⟩

/-! ## The whole chain -/

theorem contents_cons (b : HeaderBuffer) (c : List HeaderBuffer) : contents (b :: c) = b.content ++ contents c := rfl

theorem ProperChain.cons {b : HeaderBuffer} {c : List HeaderBuffer} (hb : b.Proper) (hc : ProperChain c) :
    ProperChain (b :: c) :=
  ⟨by simp, fun x hx => (List.mem_cons.1 hx).elim (fun h => h ▸ hb) (hc.2 x)⟩

theorem ProperChain.single {b : HeaderBuffer} (hb : b.Proper) : ProperChain [b] :=
  ⟨by simp, fun x hx => List.mem_singleton.1 hx ▸ hb⟩

/-- A text is appended to what is behind a buffer. -/
theorem Appends.cons {w : Writer} {b next : HeaderBuffer} {rest : List HeaderBuffer} {text : Bytes}
    (h : Appends w (next :: rest) text) (hb : b.Proper) : Appends w (b :: next :: rest) text := by
  obtain ⟨fuel, c', nothing, hrun, hproper, hspec⟩ := h
  refine ⟨fuel + 1, b :: c', nothing, by rw [w.write_cons, hrun]; rfl, hproper.cons hb, ?_⟩
  rw [contents_cons, contents_cons b]
  split
  · rename_i hlen
    rw [if_pos hlen] at hspec
    rw [hspec, List.append_assoc]
  · rename_i hlen
    rw [if_neg hlen] at hspec
    exact ⟨by rw [hspec.1], hspec.2⟩

theorem Appends.fits {w : Writer} {b : HeaderBuffer} (hb : b.Proper) {text : Bytes}
    (hlen : text.length ≤ HIN_HTTPD_MAX_HEADER_LINE_SIZE)
    (hfit : (text.length : Int) + (if w = .formatted then 1 else 0) ≤ b.room) : Appends w [b] text := by
  obtain ⟨data, nothing, hpre, hroom, hwrite⟩ := w.write_fits hlen hfit 0
  refine ⟨1, _, nothing, hwrite, .single (hb.take hroom hpre.length_le), ?_⟩
  rw [if_pos hlen]
  unfold contents
  simp [hb.content_take hpre.length_le, (List.prefix_iff_eq_take.1 hpre).symm]

/-- A formatted text of the greatest length that finds no room in the last buffer. -/
def Endless (w : Writer) (room : Int) (text : Bytes) : Prop :=
  w = .formatted ∧ text.length = HIN_HTTPD_MAX_HEADER_LINE_SIZE ∧ room ≤ HIN_HTTPD_MAX_HEADER_LINE_SIZE

/-- A text that is not endless fits in the buffer that is made for it. -/
theorem fits_fresh {w : Writer} {room : Int} {text : Bytes} (hlen : text.length ≤ HIN_HTTPD_MAX_HEADER_LINE_SIZE)
    (hfit : room < (text.length : Int) + (if w = .formatted then 1 else 0)) (h : ¬ Endless w room text) :
    (text.length : Int) + (if w = .formatted then 1 else 0) ≤ (fresh text.length).room := by
  have hsz : READ_SZ = HIN_HTTPD_MAX_HEADER_LINE_SIZE := rfl
  rw [fresh_room]
  by_cases hw : w = .formatted
  · rw [if_pos hw] at hfit ⊢
    have hne : text.length ≠ HIN_HTTPD_MAX_HEADER_LINE_SIZE := fun heq => h ⟨hw, heq, by omega⟩
    omega
  · rw [if_neg hw]
    omega

theorem Appends.single {w : Writer} {b : HeaderBuffer} (hb : b.Proper) {text : Bytes} (h : ¬ Endless w b.room text) :
    Appends w [b] text := by
  by_cases hlen : text.length ≤ HIN_HTTPD_MAX_HEADER_LINE_SIZE
  · by_cases hfit : (text.length : Int) + (if w = .formatted then 1 else 0) ≤ b.room
    · exact .fits hb hlen hfit
    · have hfresh := fits_fresh hlen (not_le.1 hfit) h
      obtain ⟨b', hb', hcontent, hwrite⟩ := w.write_grows hb hlen (not_le.1 hfit)
      obtain ⟨fuel, c', nothing, hrun, hproper, hspec⟩ := Appends.fits (w := w) (fresh_proper text.length) hlen hfresh
      refine ⟨fuel + 1, b' :: c', nothing, by rw [hwrite, hrun]; rfl, hproper.cons hb', ?_⟩
      rw [if_pos hlen] at hspec ⊢
      rw [contents_cons, hspec, hcontent]
      simp [contents, fresh_content]
  · obtain ⟨b', hb', hcontent, -, hwrite⟩ := w.write_long hb (not_le.1 hlen) 0
    refine ⟨1, [b'], true, hwrite, .single hb', ?_⟩
    rw [if_neg hlen]
    exact ⟨by simp [contents, hcontent], rfl⟩

theorem lastRoom_cons (b next : HeaderBuffer) (rest : List HeaderBuffer) :
    lastRoom (b :: next :: rest) = lastRoom (next :: rest) := by
  simp [lastRoom]

/-- Where a formatted text of the greatest length finds no room, the buffer that is added has no room for it either. -/
theorem write_endless {c : List HeaderBuffer} (hc : ProperChain c) {text : Bytes}
    (h : Endless .formatted (lastRoom c) text) (fuel : Nat) : Writer.formatted.write fuel c text = none := by
  obtain ⟨-, hlen, hroom⟩ := h
  induction fuel generalizing c with
  | zero => rfl
  | succ fuel ih =>
      obtain ⟨hne, hproper⟩ := hc
      match c, hne with
      | [b], _ =>
          have hgrow : b.room < (text.length : Int) + if Writer.formatted = .formatted then 1 else 0 := by
            have : b.room ≤ HIN_HTTPD_MAX_HEADER_LINE_SIZE := hroom
            rw [if_pos rfl]
            omega
          obtain ⟨b', -, -, hwrite⟩ := Writer.formatted.write_grows (hproper b (by simp)) hlen.le hgrow
          have hfresh : lastRoom [fresh text.length] ≤ HIN_HTTPD_MAX_HEADER_LINE_SIZE := by
            show (fresh text.length).room ≤ _
            rw [fresh_room, hlen]
            decide
          rw [hwrite, ih (.single (fresh_proper _)) hfresh]
          rfl
      | b :: next :: rest, _ =>
          rw [lastRoom_cons] at hroom
          rw [Writer.write_cons, ih ⟨by simp, fun x hx => hproper x (List.mem_cons_of_mem b hx)⟩ hroom]
          rfl

/-- A text that is not endless is appended, by induction on the buffers in front of the last one. -/
theorem appends_of_not_endless (w : Writer) {c : List HeaderBuffer} (hc : ProperChain c) {text : Bytes}
    (hend : ¬ Endless w (lastRoom c) text) : Appends w c text := by
  obtain ⟨hne, hproper⟩ := hc
  induction c with
  | nil => exact absurd rfl hne
  | cons b c ih =>
      have hb := hproper b List.mem_cons_self
      cases c with
      | nil => exact Appends.single hb hend
      | cons next rest =>
          rw [lastRoom_cons] at hend
          exact (ih hend (by simp) fun x hx => hproper x (List.mem_cons_of_mem b hx)).cons hb

/-- **A text is appended,** whatever the chain and the way, unless it is formatted, has the greatest length, and the last
    buffer has no room for it and its NUL. -/
theorem header_append_iff (w : Writer) {c : List HeaderBuffer} (hc : ProperChain c) (text : Bytes) :
    Appends w c text ↔ ¬ Endless w (lastRoom c) text := by
  constructor
  · rintro ⟨fuel, c', nothing, hrun, -⟩ hend
    obtain rfl := hend.1
    rw [write_endless hc hend] at hrun
    exact absurd hrun (by simp)
  · exact appends_of_not_endless w hc

/-- **What a call that returns has done** with a text that is not too long. -/
theorem Writer.write_spec (w : Writer) {fuel : Nat} {c : List HeaderBuffer} (hc : ProperChain c) {text : Bytes}
    (hlen : text.length ≤ HIN_HTTPD_MAX_HEADER_LINE_SIZE) {r : List HeaderBuffer × Bool}
    (h : w.write fuel c text = some r) : ProperChain r.1 ∧ contents r.1 = contents c ++ text := by
  have hend : ¬ Endless w (lastRoom c) text := by
    intro hend
    obtain rfl := hend.1
    rw [write_endless hc hend] at h
    exact absurd h.symm (Option.some_ne_none r)
  obtain ⟨fuel', c', nothing, hrun, hproper, hspec⟩ := appends_of_not_endless w hc hend
  rw [if_pos hlen] at hspec
  -- both runs are the one with the fuel of the two together
  have hboth := (w.write_mono (Nat.le_add_right fuel fuel') h).symm.trans (w.write_mono (Nat.le_add_left fuel' fuel) hrun)
  rw [Option.some.inj hboth]
  exact ⟨hproper, hspec⟩

theorem header_append_sample :
    ProperChain [fresh 0] ∧ (Appends .formatted [fresh 0] (bytes "Date: ") ↔
      ¬ Endless .formatted (lastRoom [fresh 0]) (bytes "Date: ")) :=
  ⟨.single (fresh_proper 0), header_append_iff .formatted (.single (fresh_proper 0)) _⟩

/-- A line of the greatest length, to an empty buffer. -/
theorem header_append_endless :
    ¬ Appends .formatted [fresh 0] (List.replicate HIN_HTTPD_MAX_HEADER_LINE_SIZE 97) := by
  rintro ⟨fuel, c', nothing, hrun, -⟩
  have hend : Endless .formatted (lastRoom [fresh 0]) (List.replicate HIN_HTTPD_MAX_HEADER_LINE_SIZE 97) :=
    ⟨rfl, List.length_replicate, by show (fresh 0).room ≤ _; rw [fresh_room]; decide⟩
  rw [write_endless (.single (fresh_proper 0)) hend] at hrun
  exact absurd hrun (by simp)

/-! ## Dates -/

/-- What `strftime` produces. -/
def produced : Option Bytes → Bytes
  | some text => if text.length < 80 then text else []
  | none => []

/-- The date stands at the end of the chain, and no other buffer than the last one has changed its count. -/
def DateAppended (c : List HeaderBuffer) (date : Option Bytes) : Prop :=
  ∃ fuel d len, headerDate fuel c date = some (d, len) ∧ contents d = contents c ++ produced date ∧
    d.dropLast.map HeaderBuffer.count = (c.take (d.length - 1)).map HeaderBuffer.count

/-- Room is taken behind the first buffer of a longer chain, or of one that has none. -/
theorem headerPtr_behind {fuel : Nat} {b : HeaderBuffer} {c : List HeaderBuffer} {len : Nat}
    {r : List HeaderBuffer × Option (Nat × Int)} (hlen : len ≤ HIN_HTTPD_MAX_HEADER_LINE_SIZE)
    (h : c ≠ [] ∨ b.room < len) (hrun : headerPtr fuel (b :: c) len = some r) :
    ∃ rest, r.1 = b :: rest ∧ rest ≠ [] := by
  have hne : ∀ {fuel c} {r : List HeaderBuffer × Option (Nat × Int)}, headerPtr fuel c len = some r → r.1 ≠ [] := by
    intro fuel c r hr
    unfold headerPtr at hr
    split at hr
    · exact absurd hr (by simp)
    · exact absurd hr (by simp)
    · obtain ⟨r', -, rfl⟩ := Option.map_eq_some_iff.1 hr
      simp
    · split_ifs at hr
      · obtain rfl := Option.some.inj hr
        simp
      · obtain ⟨r', -, rfl⟩ := Option.map_eq_some_iff.1 hr
        simp
      · obtain rfl := Option.some.inj hr
        simp
  cases fuel with
  | zero => exact absurd hrun (by simp [headerPtr])
  | succ fuel =>
      cases c with
      | nil =>
          rw [headerPtr, if_neg (by omega), if_pos (by simpa using h)] at hrun
          obtain ⟨r', hr', rfl⟩ := Option.map_eq_some_iff.1 hrun
          exact ⟨r'.1, rfl, hne hr'⟩
      | cons next rest =>
          rw [headerPtr] at hrun
          obtain ⟨r', hr', rfl⟩ := Option.map_eq_some_iff.1 hrun
          exact ⟨r'.1, rfl, hne hr'⟩

/-- What is written through a pointer stands where the room was taken. -/
theorem fillAt_take (b : HeaderBuffer) (n : Int) (data : Bytes) :
    fillAt [b.take n] (0, b.count) data = [(b.put data).take n] := rfl

/-- What is written through a pointer changes no count. -/
theorem fillAt_counts (c : List HeaderBuffer) (p : Nat × Int) (data : Bytes) :
    (fillAt c p data).map HeaderBuffer.count = c.map HeaderBuffer.count := by
  obtain ⟨n, k⟩ := p
  unfold fillAt
  induction c generalizing n with
  | nil => simp
  | cons b c ih =>
      cases n with
      | zero => rfl
      | succ n => simpa using ih n

/-- A date that is appended had room in the only buffer there is. -/
theorem DateAppended.room {b : HeaderBuffer} {c : List HeaderBuffer} {text : Bytes} (h : DateAppended (b :: c) (some text)) :
    c = [] ∧ 80 ≤ b.room := by
  obtain ⟨fuel, d, len, hrun, -, hcounts⟩ := h
  by_contra hroom
  have hbehind : c ≠ [] ∨ b.room < (80 : Nat) := by
    by_contra hnot
    push Not at hnot
    obtain ⟨rfl, hr⟩ := hnot
    exact hroom ⟨rfl, hr⟩
  unfold headerDate at hrun
  obtain ⟨⟨c', p⟩, hptr, hrun⟩ := Option.bind_eq_some_iff.1 hrun
  obtain ⟨p, -, hrun⟩ := Option.bind_eq_some_iff.1 hrun
  obtain ⟨rest, rfl, hrest⟩ := headerPtr_behind (by decide) hbehind hptr
  obtain ⟨e, he⟩ : ∃ e, e = (if text.length < 80 then fillAt (b :: rest) p (text ++ [0]) else b :: rest) := ⟨_, rfl⟩
  have hmap : e.map HeaderBuffer.count = (b :: rest).map HeaderBuffer.count := by
    rw [he]
    split
    · exact fillAt_counts _ _ _
    · rfl
  obtain ⟨b₁, rest₁, rfl⟩ : ∃ b₁ rest₁, e = b₁ :: rest₁ := by
    cases e with
    | nil => simp at hmap
    | cons b₁ rest₁ => exact ⟨b₁, rest₁, rfl⟩
  simp only [List.map_cons, List.cons.injEq] at hmap
  have hrest₁ : rest₁ ≠ [] := fun h => hrest (by simpa [h] using hmap.2.symm)
  simp only [← he, List.modify_zero_cons, Option.some.injEq, Prod.mk.injEq] at hrun
  obtain ⟨next, rest₂, rfl⟩ := List.exists_cons_of_ne_nil hrest₁
  -- the count of the first buffer is cut by what was left of the room in another one
  obtain ⟨rfl, -⟩ := hrun
  simp only [List.dropLast_cons_cons, List.map_cons, List.length_cons, Nat.add_sub_cancel, List.take_succ_cons,
    List.cons.injEq] at hcounts
  have hcut : b₁.count + ((if text.length < 80 then text.length else 0 : Nat) - (80 : Nat) : Int) = b.count := hcounts.1
  rw [hmap.1] at hcut
  split at hcut <;> omega

theorem DateAppended.fits {b : HeaderBuffer} (hb : b.Proper) (hroom : 80 ≤ b.room) (text : Bytes) :
    DateAppended [b] (some text) := by
  have hptr : headerPtr 1 [b] 80 = some ([b.take 80], some (0, b.count)) := by
    rw [headerPtr, if_neg (by decide), if_neg (by omega)]
    rfl
  by_cases hfit : text.length < 80
  · refine ⟨1, [((b.put (text ++ [0])).take text.length)], text.length, ?_, ?_, rfl⟩
    · unfold headerDate
      simp only [hptr, Option.bind_some, if_pos hfit]
      rw [fillAt_take, List.modify_zero_cons, take_take]
      congr 4
      omega
    · have hlen : text.length ≤ (text ++ [0]).length := by simp
      simp [contents, produced, hfit, hb.content_take hlen]
  · refine ⟨1, [b], 0, ?_, ?_, rfl⟩
    · unfold headerDate
      simp only [hptr, Option.bind_some, if_neg hfit]
      rw [List.modify_zero_cons, take_take]
      simp [HeaderBuffer.take]
    · simp [produced, hfit]

/-- **A date is appended as it is** exactly if there is none, or the chain is one buffer with room for eighty bytes. -/
theorem header_date_iff {c : List HeaderBuffer} (hc : ProperChain c) (date : Option Bytes) :
    DateAppended c date ↔ date = none ∨ c.length = 1 ∧ 80 ≤ lastRoom c := by
  obtain ⟨hne, hproper⟩ := hc
  obtain ⟨b, c, rfl⟩ := List.exists_cons_of_ne_nil hne
  cases date with
  | none =>
      refine iff_of_true ⟨0, b :: c, 0, rfl, (List.append_nil _).symm, ?_⟩ (.inl rfl)
      rw [List.dropLast_eq_take]
  | some text =>
      constructor
      · intro h
        obtain ⟨rfl, hroom⟩ := h.room
        exact .inr ⟨rfl, hroom⟩
      · rintro (h | ⟨hone, hroom⟩)
        · exact absurd h (by simp)
        · obtain rfl := List.length_eq_zero_iff.1 (Nat.succ.inj hone)
          exact .fits (hproper b (by simp)) hroom text

theorem header_date_sample : DateAppended [fresh 0] (some (bytes "Thu")) ↔
    some (bytes "Thu") = none ∨ [fresh 0].length = 1 ∧ 80 ≤ lastRoom [fresh 0] :=
  header_date_iff (.single (fresh_proper 0)) _

/-- A head that has got a second buffer loses the end of its first one. -/
theorem header_date_cuts : ¬ DateAppended [fresh 0, fresh 0] (some (bytes "Thu")) :=
  fun h => absurd h.room.1 (by simp)

/-! ## Chains by their contents -/

/-- A chain as the modules that only look at its contents have it. -/
def chainOf (c : List HeaderBuffer) : Fcgi.Chain where
  full := c.dropLast.map HeaderBuffer.content
  last := (c.getLast?.map HeaderBuffer.content).getD []
  sz := ((c.getLast?.map HeaderBuffer.sz).getD 0).toNat

/-- What the writers do to such a chain. Through a pointer only what is not too long can be written. -/
def Writer.onChain (w : Writer) (c : Fcgi.Chain) (text : Bytes) : Option Fcgi.Chain :=
  match w with
  | .formatted => header c text
  | .raw => some (Fcgi.headerRaw c text)
  | .pointer => if text.length > HIN_HTTPD_MAX_HEADER_LINE_SIZE then some c else some (c.append text)

theorem chainOf_cons (b : HeaderBuffer) {c : List HeaderBuffer} (hc : c ≠ []) :
    chainOf (b :: c) = { chainOf c with full := b.content :: (chainOf c).full } := by
  obtain ⟨next, rest, rfl⟩ := List.exists_cons_of_ne_nil hc
  simp [chainOf]

/-- More full buffers in front make no difference. -/
theorem Writer.onChain_cons (w : Writer) (c : Fcgi.Chain) (first text : Bytes) :
    w.onChain { c with full := first :: c.full } text =
      (w.onChain c text).map fun d => { d with full := first :: d.full } := by
  cases w with
  | formatted =>
      unfold onChain header
      dsimp only
      split_ifs <;> rfl
  | raw =>
      unfold onChain Fcgi.headerRaw Fcgi.Chain.append
      dsimp only
      split_ifs <;> rfl
  | pointer =>
      unfold onChain Fcgi.Chain.append
      dsimp only
      split_ifs <;> rfl

theorem chainOf_single (b : HeaderBuffer) : chainOf [b] = { last := b.content, sz := b.sz.toNat } := rfl

/-- The text goes to the last buffer of a chain if there is room. -/
theorem Writer.onChain_fits (w : Writer) {b : HeaderBuffer} (hb : b.Proper) {text : Bytes}
    (hlen : text.length ≤ HIN_HTTPD_MAX_HEADER_LINE_SIZE)
    (hfit : (text.length : Int) + (if w = .formatted then 1 else 0) ≤ b.room) :
    w.onChain (chainOf [b]) text = some { last := b.content ++ text, sz := b.sz.toNat } := by
  have hcontent := hb.length_content
  obtain ⟨h0, hsz⟩ := hb
  unfold room at hfit
  rw [chainOf_single]
  cases w with
  | formatted =>
      rw [if_pos rfl] at hfit
      unfold onChain header
      dsimp only
      rw [if_neg (by omega), if_pos (by omega)]
  | raw =>
      rw [if_neg (by decide)] at hfit
      unfold onChain Fcgi.headerRaw Fcgi.Chain.append
      dsimp only
      rw [if_neg (by omega), if_pos (by omega)]
  | pointer =>
      rw [if_neg (by decide)] at hfit
      unfold onChain Fcgi.Chain.append
      dsimp only
      rw [if_neg (by omega), if_pos (by omega)]

/-- It goes to a new buffer if there is none. -/
theorem Writer.onChain_grows (w : Writer) {b : HeaderBuffer} (hb : b.Proper) {text : Bytes}
    (hlen : text.length ≤ HIN_HTTPD_MAX_HEADER_LINE_SIZE)
    (hfit : b.room < (text.length : Int) + (if w = .formatted then 1 else 0))
    (hend : ¬ Endless w b.room text) :
    w.onChain (chainOf [b]) text =
      some { full := [b.content], last := text, sz := max READ_SZ text.length } := by
  have hcontent := hb.length_content
  have hmax : READ_SZ = HIN_HTTPD_MAX_HEADER_LINE_SIZE := rfl
  obtain ⟨h0, hsz⟩ := hb
  unfold room at hfit hend
  rw [chainOf_single]
  cases w with
  | formatted =>
      rw [if_pos rfl] at hfit
      have hne : text.length ≠ HIN_HTTPD_MAX_HEADER_LINE_SIZE := fun heq => hend ⟨rfl, heq, by omega⟩
      unfold onChain header
      dsimp only
      rw [if_neg (by omega), if_neg (by omega), if_pos (by omega)]
      rfl
  | raw =>
      rw [if_neg (by decide)] at hfit
      unfold onChain Fcgi.headerRaw Fcgi.Chain.append
      dsimp only
      rw [if_neg (by omega), if_neg (by omega)]
      rfl
  | pointer =>
      rw [if_neg (by decide)] at hfit
      unfold onChain Fcgi.Chain.append
      dsimp only
      rw [if_neg (by omega), if_neg (by omega)]
      rfl

theorem Writer.onChain_long (w : Writer) (c : Fcgi.Chain) {text : Bytes}
    (hlen : HIN_HTTPD_MAX_HEADER_LINE_SIZE < text.length) : w.onChain c text = some c := by
  cases w with
  | formatted =>
      unfold onChain header
      rw [if_pos hlen]
  | raw =>
      unfold onChain Fcgi.headerRaw
      rw [if_pos hlen]
  | pointer =>
      unfold onChain
      exact if_pos hlen

/-- What is left of a buffer that was written to. -/
theorem chainOf_put {b : HeaderBuffer} (hb : b.Proper) {data text : Bytes} (hpre : text <+: data)
    (hroom : (data.length : Int) ≤ b.room) :
    chainOf [(b.put data).take text.length] = { last := b.content ++ text, sz := b.sz.toNat } := by
  have hsz : ((b.put data).take text.length).sz = b.sz := hb.sz_put hroom
  rw [chainOf_single, hsz, hb.content_take hpre.length_le, ← List.prefix_iff_eq_take.1 hpre]

/-- **The chains of the other modules are what the writers make of buffers.** -/
theorem write_refines (w : Writer) {fuel : Nat} {c d : List HeaderBuffer} (hc : ProperChain c) {text : Bytes}
    {nothing : Bool} (hrun : w.write fuel c text = some (d, nothing)) :
    d ≠ [] ∧ w.onChain (chainOf c) text = some (chainOf d) := by
  have hzero : ∀ {c}, w.write 0 c text = none := by
    intro c
    cases w <;> rfl
  induction fuel generalizing c d nothing with
  | zero => exact absurd hrun (by rw [hzero]; simp)
  | succ fuel ih =>
      obtain ⟨hne, hproper⟩ := hc
      match c, hne with
      | [b], _ =>
          have hb := hproper b (by simp)
          by_cases hlen : text.length ≤ HIN_HTTPD_MAX_HEADER_LINE_SIZE
          · by_cases hfit : (text.length : Int) + (if w = .formatted then 1 else 0) ≤ b.room
            · obtain ⟨data, n, hpre, hroom, hwrite⟩ := w.write_fits hlen hfit fuel
              obtain ⟨rfl, -⟩ := Prod.mk.inj (Option.some.inj (hwrite.symm.trans hrun))
              exact ⟨by simp, by rw [w.onChain_fits hb hlen hfit, chainOf_put hb hpre hroom]⟩
            · have hend : ¬ Endless w b.room text := fun hend => by
                obtain rfl := hend.1
                rw [write_endless (.single hb) hend] at hrun
                exact absurd hrun (by simp)
              obtain ⟨b', -, hcontent, hwrite⟩ := w.write_grows hb hlen (not_le.1 hfit)
              rw [hwrite] at hrun
              obtain ⟨⟨e, n⟩, he, hd⟩ := Option.map_eq_some_iff.1 hrun
              obtain ⟨rfl, -⟩ := Prod.mk.inj hd
              refine ⟨by simp, ?_⟩
              obtain ⟨hene, href⟩ := ih (.single (fresh_proper _)) he
              rw [w.onChain_fits (fresh_proper _) hlen (fits_fresh hlen (not_le.1 hfit) hend)] at href
              rw [w.onChain_grows hb hlen (not_le.1 hfit) hend, chainOf_cons b' hene, ← Option.some.inj href, hcontent]
              simp [fresh_content, fresh_sz]
          · obtain ⟨b', -, hcontent, hsz, hwrite⟩ := w.write_long hb (not_le.1 hlen) fuel
            obtain ⟨rfl, -⟩ := Prod.mk.inj (Option.some.inj (hwrite.symm.trans hrun))
            refine ⟨by simp, ?_⟩
            rw [w.onChain_long _ (not_le.1 hlen), chainOf_single, chainOf_single, hcontent, hsz]
      | b :: next :: rest, _ =>
          have hnext : ProperChain (next :: rest) := ⟨by simp, fun x hx => hproper x (List.mem_cons_of_mem b hx)⟩
          rw [w.write_cons] at hrun
          obtain ⟨⟨e, n⟩, he, hd⟩ := Option.map_eq_some_iff.1 hrun
          obtain ⟨rfl, rfl⟩ := Prod.mk.inj hd
          obtain ⟨hene, href⟩ := ih hnext he
          refine ⟨by simp, ?_⟩
          rw [chainOf_cons b (by simp), w.onChain_cons, href, chainOf_cons b hene]
          rfl

end Http
end Hin9
