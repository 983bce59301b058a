import Hin9.Basic.Bytes
import Hin9.Lib.Frames

/-!
# `Fcgi.Record` — the records of the FastCGI protocol (`fcgi.h`)

A record is an eight-byte header (version, type, request id, length of the content, length of the padding) followed by
the content and the padding. The numbers are big endian.
-/

namespace Hin9
namespace Fcgi

open Lib.Frames

def FCGI_BEGIN_REQUEST : UInt8 := 1
def FCGI_END_REQUEST : UInt8 := 3
def FCGI_PARAMS : UInt8 := 4
def FCGI_STDIN : UInt8 := 5
def FCGI_STDOUT : UInt8 := 6
def FCGI_STDERR : UInt8 := 7

/-- `sizeof (FCGI_Header)`. -/
def FCGI_HEADER_SZ : Nat := 8

/-- `endian_swap16` of two bytes in memory. -/
def be16 (hi lo : UInt8) : Nat := hi.toNat * 256 + lo.toNat

/-- A record as it is handed on. -/
structure Record where
  type : UInt8
  id : Nat
  content : Bytes
deriving Repr, DecidableEq

/-- The length of a record whose header is there. -/
def recordTotal : Bytes → Option Nat
  | _ :: _ :: _ :: _ :: l1 :: l0 :: pad :: _ :: _ => some (be16 l1 l0 + FCGI_HEADER_SZ + pad.toNat)
  | _ => none

/-- **Records as frames of a stream.** -/
def recordFormat : Format UInt8 where
  total := recordTotal
  pos := by
    intro xs n h
    unfold recordTotal at h
    split at h
    · have := Option.some.inj h
      unfold FCGI_HEADER_SZ at this
      omega
    · exact absurd h (by simp)
  stable := by
    intro xs n ys h
    unfold recordTotal at h
    split at h
    · exact h
    · exact absurd h (by simp)

/-- The record at the front of `bs`. -/
def Record.ofBytes : Bytes → Record
  | _ :: type :: i1 :: i0 :: l1 :: l0 :: _ :: _ :: data => ⟨type, be16 i1 i0, data.take (be16 l1 l0)⟩
  | _ => ⟨0, 0, []⟩

/-- The complete records of a stream, and the incomplete tail. -/
def records (bs : Bytes) : List Record := (recordFormat.split bs).1.map Record.ofBytes

def incomplete (bs : Bytes) : Bytes := (recordFormat.split bs).2

variable {bs : Bytes} {n : Nat}

theorem records_none (h : recordFormat.first bs = none) : records bs = [] ∧ incomplete bs = bs := by
  unfold records incomplete
  rw [Format.split_none h]
  exact ⟨rfl, rfl⟩

/-- A whole record has its header, and its content is its own. -/
theorem record_shape (h : recordFormat.first bs = some n) : ∃ v t i1 i0 l1 l0 pad r data,
    bs = v :: t :: i1 :: i0 :: l1 :: l0 :: pad :: r :: data ∧ n = be16 l1 l0 + FCGI_HEADER_SZ + pad.toNat ∧
      be16 l1 l0 + pad.toNat ≤ data.length := by
  obtain ⟨ht, -, hle⟩ := Format.first_spec h
  replace ht : recordTotal bs = some n := ht
  unfold recordTotal at ht
  split at ht
  · rename_i v t i1 i0 l1 l0 pad r data
    refine ⟨v, t, i1, i0, l1, l0, pad, r, data, rfl, (Option.some.inj ht).symm, ?_⟩
    have hn := Option.some.inj ht
    simp only [List.length_cons] at hle
    unfold FCGI_HEADER_SZ at hn
    omega
  · exact absurd ht (by simp)

/-- What stands behind a whole record is not part of it. -/
theorem Record.ofBytes_take (h : recordFormat.first bs = some n) : Record.ofBytes (bs.take n) = Record.ofBytes bs := by
  obtain ⟨v, t, i1, i0, l1, l0, pad, r, data, rfl, hn, hle⟩ := record_shape h
  obtain ⟨k, hk⟩ : ∃ k, n = k + 8 := ⟨be16 l1 l0 + pad.toNat, by rw [hn]; unfold FCGI_HEADER_SZ; omega⟩
  have htake : be16 l1 l0 ≤ k := by
    unfold FCGI_HEADER_SZ at hn
    omega
  rw [hk]
  simp only [List.take_succ_cons, Record.ofBytes, List.take_take]
  rw [min_eq_left htake]

theorem Record.ofBytes_append (h : recordFormat.first bs = some n) (ys : Bytes) :
    Record.ofBytes (bs ++ ys) = Record.ofBytes bs := by
  have hle := (Format.first_spec h).2.2
  rw [← Record.ofBytes_take (Format.first_append ys h), List.take_append_of_le_length hle, Record.ofBytes_take h]

theorem records_some (h : recordFormat.first bs = some n) :
    records bs = Record.ofBytes bs :: records (bs.drop n) ∧ incomplete bs = incomplete (bs.drop n) := by
  unfold records incomplete
  rw [Format.split_some h, List.map_cons, Record.ofBytes_take h]
  exact ⟨rfl, rfl⟩

/-- **Records do not depend on how the stream arrives.** -/
theorem records_append (xs ys : Bytes) : records (xs ++ ys) = records xs ++ records (incomplete xs ++ ys) ∧
    incomplete (xs ++ ys) = incomplete (incomplete xs ++ ys) := by
  unfold records incomplete
  rw [Format.split_append, List.map_append]
  exact ⟨rfl, rfl⟩

/-! ## Writing records -/

/-- `endian_swap16` of a number, as the two bytes it is stored in. -/
def be16Bytes (n : Nat) : Bytes := [UInt8.ofNat (n / 256), UInt8.ofNat n]

theorem be16_be16Bytes (n : Nat) : be16 (UInt8.ofNat (n / 256)) (UInt8.ofNat n) = n % 65536 := by
  unfold be16
  rw [UInt8.toNat_ofNat', UInt8.toNat_ofNat']
  omega

/-- A header. The byte behind the padding length is reserved. -/
def headerBytes (type : UInt8) (id len pad : Nat) : Bytes :=
  [1, type] ++ be16Bytes id ++ be16Bytes len ++ [UInt8.ofNat pad, 0]

theorem headerBytes_length (type : UInt8) (id len pad : Nat) : (headerBytes type id len pad).length = 8 := rfl

/-- **A record that is written is read.** -/
theorem records_header (type : UInt8) (id : Nat) (content padding rest : Bytes) {pad : Nat}
    (hlen : content.length < 65536) (hpad : padding.length = pad) (hsmall : pad < 256) :
    records (headerBytes type id content.length pad ++ content ++ padding ++ rest) =
        ⟨type, id % 65536, content⟩ :: records rest ∧
      incomplete (headerBytes type id content.length pad ++ content ++ padding ++ rest) = incomplete rest := by
  obtain ⟨bs, hbs⟩ : ∃ bs, bs = headerBytes type id content.length pad ++ content ++ padding ++ rest := ⟨_, rfl⟩
  have hlenval : be16 (UInt8.ofNat (content.length / 256)) (UInt8.ofNat content.length) = content.length := by
    rw [be16_be16Bytes, Nat.mod_eq_of_lt hlen]
  have hpadval : (UInt8.ofNat pad).toNat = pad := by
    rw [UInt8.toNat_ofNat']
    omega
  have hfront : (headerBytes type id content.length pad ++ content ++ padding).length =
      content.length + FCGI_HEADER_SZ + pad := by
    rw [List.length_append, List.length_append, headerBytes_length, hpad]
    unfold FCGI_HEADER_SZ
    omega
  have htotal : recordTotal bs = some (content.length + FCGI_HEADER_SZ + pad) := by
    rw [hbs]
    show some (be16 (UInt8.ofNat (content.length / 256)) (UInt8.ofNat content.length) + FCGI_HEADER_SZ +
      (UInt8.ofNat pad).toNat) = _
    rw [hlenval, hpadval]
  have hfirst : recordFormat.first bs = some (content.length + FCGI_HEADER_SZ + pad) := by
    apply Format.first_eq htotal
    rw [hbs, List.length_append, hfront]
    omega
  have hrecord : Record.ofBytes bs = ⟨type, id % 65536, content⟩ := by
    rw [hbs]
    show Record.mk type (be16 (UInt8.ofNat (id / 256)) (UInt8.ofNat id))
      ((content ++ padding ++ rest).take (be16 (UInt8.ofNat (content.length / 256)) (UInt8.ofNat content.length))) = _
    rw [hlenval, be16_be16Bytes, List.append_assoc, List.take_left]
  have hdrop : bs.drop (content.length + FCGI_HEADER_SZ + pad) = rest := by
    rw [hbs, ← hfront, List.drop_left]
  obtain ⟨hrec, hinc⟩ := records_some hfirst
  rw [hdrop] at hrec hinc
  rw [← hbs, hrec, hinc, hrecord]
  exact ⟨rfl, rfl⟩

/-! ## Name-value pairs -/

/-- A length at the front: one byte below `128`, else four with the top bit set. -/
def decodeLength : Bytes → Option (Nat × Bytes)
  | [] => none
  | b :: rest =>
      if b.toNat < 128 then some (b.toNat, rest)
      else match rest with
        | b2 :: b1 :: b0 :: rest =>
            some ((b.toNat - 128) * 2 ^ 24 + b2.toNat * 2 ^ 16 + b1.toNat * 2 ^ 8 + b0.toNat, rest)
        | _ => none

/-- A pair at the front. -/
def decodePair (bs : Bytes) : Option ((Bytes × Bytes) × Bytes) :=
  match decodeLength bs with
  | none => none
  | some (n, bs) =>
      match decodeLength bs with
      | none => none
      | some (v, bs) =>
          if n + v ≤ bs.length then some ((bs.take n, (bs.drop n).take v), bs.drop (n + v)) else none

def decodePairsAux : Nat → Bytes → Option (List (Bytes × Bytes))
  | _, [] => some []
  | 0, _ :: _ => none
  | fuel + 1, b :: bs =>
      match decodePair (b :: bs) with
      | none => none
      | some (pair, rest) => (decodePairsAux fuel rest).map (pair :: ·)

/-- The pairs of a stream of parameters. -/
def decodePairs (bs : Bytes) : Option (List (Bytes × Bytes)) := decodePairsAux bs.length bs

/-- The lengths in front of a pair whose name is shorter than `127` bytes. -/
def lengthBytes (name value : Nat) : Bytes :=
  if value < 127 then [UInt8.ofNat name, UInt8.ofNat value]
  else [UInt8.ofNat name, UInt8.ofNat (value / 2 ^ 24 % 128 + 128), UInt8.ofNat (value / 2 ^ 16),
    UInt8.ofNat (value / 2 ^ 8), UInt8.ofNat value]

theorem decodeLength_short {n : Nat} (h : n < 128) (rest : Bytes) :
    decodeLength (UInt8.ofNat n :: rest) = some (n, rest) := by
  have hn : (UInt8.ofNat n).toNat = n := by
    rw [UInt8.toNat_ofNat']
    omega
  unfold decodeLength
  dsimp only
  rw [hn, if_pos h]

theorem decodeLength_long {n : Nat} (h : n < 2 ^ 31) (rest : Bytes) :
    decodeLength (UInt8.ofNat (n / 2 ^ 24 % 128 + 128) :: UInt8.ofNat (n / 2 ^ 16) :: UInt8.ofNat (n / 2 ^ 8) ::
      UInt8.ofNat n :: rest) = some (n, rest) := by
  unfold decodeLength
  simp only [UInt8.toNat_ofNat']
  rw [if_neg (by omega)]
  congr 2
  omega

/-- **A pair that is written is read.** -/
theorem decodePair_write {name value : Bytes} (hname : name.length < 127) (hvalue : value.length < 2 ^ 31)
    (rest : Bytes) : decodePair (lengthBytes name.length value.length ++ name ++ value ++ rest) =
      some ((name, value), rest) := by
  have hlengths : decodePair (lengthBytes name.length value.length ++ (name ++ (value ++ rest))) =
      if name.length + value.length ≤ (name ++ (value ++ rest)).length then
        some (((name ++ (value ++ rest)).take name.length,
          ((name ++ (value ++ rest)).drop name.length).take value.length),
          (name ++ (value ++ rest)).drop (name.length + value.length)) else none := by
    unfold lengthBytes
    by_cases hshort : value.length < 127
    · rw [if_pos hshort]
      simp only [List.cons_append, List.nil_append]
      unfold decodePair
      rw [decodeLength_short (by omega)]
      dsimp only
      rw [decodeLength_short (by omega)]
    · rw [if_neg hshort]
      simp only [List.cons_append, List.nil_append]
      unfold decodePair
      rw [decodeLength_short (by omega)]
      dsimp only
      rw [decodeLength_long hvalue]
  have hfits : name.length + value.length ≤ (name ++ (value ++ rest)).length := by
    simp only [List.length_append]
    omega
  rw [List.append_assoc, List.append_assoc, hlengths, if_pos hfits, List.take_left, List.drop_left, List.take_left,
    ← List.drop_drop, List.drop_left, List.drop_left]

/-- A pair as `param` writes it. -/
def pairBytes (pair : Bytes × Bytes) : Bytes := lengthBytes pair.1.length pair.2.length ++ pair.1 ++ pair.2

theorem pairBytes_pos (pair : Bytes × Bytes) : 0 < (pairBytes pair).length := by
  unfold pairBytes lengthBytes
  split <;> simp

/-- **A stream of parameters is read back.** By induction on the pairs. -/
theorem decodePairs_write {pairs : List (Bytes × Bytes)}
    (h : ∀ p ∈ pairs, p.1.length < 127 ∧ p.2.length < 2 ^ 31) : decodePairs (pairs.flatMap pairBytes) = some pairs := by
  have haux : ∀ fuel, (pairs.flatMap pairBytes).length ≤ fuel →
      decodePairsAux fuel (pairs.flatMap pairBytes) = some pairs := by
    induction pairs with
    | nil =>
        intro fuel _
        cases fuel <;> rfl
    | cons p ps ih =>
        intro fuel hfuel
        obtain ⟨hname, hvalue⟩ := h p List.mem_cons_self
        have hpos := pairBytes_pos p
        rw [List.flatMap_cons, List.length_append] at hfuel
        obtain ⟨k, rfl⟩ : ∃ k, fuel = k + 1 := ⟨fuel - 1, by omega⟩
        obtain ⟨b, bs, hcons⟩ : ∃ b bs, pairBytes p ++ ps.flatMap pairBytes = b :: bs := by
          apply List.exists_cons_of_ne_nil
          intro hnil
          rw [(List.append_eq_nil_iff.mp hnil).1] at hpos
          exact absurd hpos (by simp)
        have hpair : decodePair (pairBytes p ++ ps.flatMap pairBytes) = some (p, ps.flatMap pairBytes) :=
          decodePair_write hname hvalue _
        rw [List.flatMap_cons, hcons]
        unfold decodePairsAux
        rw [← hcons, hpair]
        dsimp only
        rw [ih (fun q hq => h q (List.mem_cons_of_mem p hq)) k (by omega)]
        rfl
  exact haux _ (Nat.le_refl _)

end Fcgi
end Hin9
