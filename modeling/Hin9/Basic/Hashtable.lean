import Hin9.Basic.Bytes
import Hin9.Lib.Horner

/-!
# `Basic.Hashtable` — the hash table of hash pairs (`basic_hashtable.c`)

The table stores under each pair `key1`, `key2` two values, and it never sees the string the pair was computed
from. `basicHtGetPair`, `basicHtSetPair` and `basicHtDeletePair` walk the chain of the bin `key1 & mask`;
`lookup_set` and `lookup_delete` say that together they implement the finite map from hash pairs to values.

`basicHtHash` is a pair of polynomial hashes with the seed as start term. `hash_eq_iff` carries a collision over
to the integers, where the two values at 33 and at 9 decide it.
-/

namespace Hin9
namespace Hashtable

/-! ## The hash pair -/

/-- A byte as the loop adds it: `c = *str++` is a signed `char`, converted to `basic_ht_hash_t`. -/
def hashChar (c : UInt8) : UInt64 := c.toInt8.toInt64.toUInt64

/-- `basic_ht_hash_continue`, and the loop of `basic_ht_hash`. -/
def basicHtHashContinue (str : Bytes) (hash1 hash2 : UInt64) : UInt64 × UInt64 :=
  match str with
  | [] => (hash1, hash2)
  | c :: str => basicHtHashContinue str (((hash1 <<< 5) + hash1) + hashChar c) (((hash2 <<< 3) + hash2) + hashChar c)

/-- `basic_ht_hash`. -/
def basicHtHash (str : Bytes) (seed : UInt64) : UInt64 × UInt64 :=
  basicHtHashContinue str (5381 * seed) (6883 * seed)

/-- The value of a signed `char`. -/
def charVal (c : UInt8) : Int := c.toInt8.toInt

/-- What a hash with multiplier `x` reads off a string from start value `a`, over the integers. -/
def charHash (x a : Int) (str : Bytes) : Int := Lib.horner x a (str.map charVal)

/-! ## The table -/

/-- `basic_ht_pair_t`; a value is a pointer, `none` being `NULL`. -/
structure Pair (V : Type) where
  key1 : UInt64
  key2 : UInt64
  value1 : Option V
  value2 : Option V

/-- The pair the loops compare a key with. -/
def Pair.key {V : Type} (p : Pair V) : UInt64 × UInt64 := (p.key1, p.key2)

/-- `basic_ht_t`: every bin is within the table, and no chain holds a key twice. -/
structure BasicHt (V : Type) where
  size : Nat
  seed : UInt64
  mask : UInt64
  table : Vector (List (Pair V)) size
  mask_lt : mask.toNat < size
  distinct : ∀ (i : Nat) (h : i < size), (table[i].map Pair.key).Nodup

/-- The loop of `isPowerOfTwo`: double `pow` while it is smaller than `num`. -/
def doublePow (num : Nat) : Nat → Nat → Nat
  | 0, pow => pow
  | fuel + 1, pow => if num > pow then doublePow num fuel (pow * 2) else pow

def isPowerOfTwo (num : Nat) : Bool := if num = 0 then false else num = doublePow num num 1

variable {V : Type}

/-- `basic_ht_init`, `none` where it returns `-1`. -/
def basicHtInit (size : Nat) (seed : UInt64) : Option (BasicHt V) :=
  if h : size < 1 then none
  else if !isPowerOfTwo size then none
  else some {
    size := size
    seed := seed
    mask := UInt64.ofNat (size - 1)
    table := Vector.replicate size []
    mask_lt := by
      rw [UInt64.toNat_ofNat']
      exact (Nat.mod_le _ _).trans_lt (by omega)
    distinct := by simp }

/-- `basic_ht_create`. -/
def basicHtCreate (size : Nat) (seed : UInt64) : Option (BasicHt V) := basicHtInit size seed

/-- The loop of `basic_ht_set_pair` over a chain: change the values of the key in place, or append it. -/
def chainSet (key1 key2 : UInt64) (value1 value2 : Option V) : List (Pair V) → List (Pair V)
  | [] => [⟨key1, key2, value1, value2⟩]
  | next :: chain =>
      if next.key1 = key1 ∧ next.key2 = key2 then { next with value1 := value1, value2 := value2 } :: chain
      else next :: chainSet key1 key2 value1 value2 chain

/-- The loop of `basic_ht_delete_pair` over a chain: unlink the first element with the key. -/
def chainDelete (key1 key2 : UInt64) : List (Pair V) → List (Pair V)
  | [] => []
  | next :: chain => if next.key1 = key1 ∧ next.key2 = key2 then chain else next :: chainDelete key1 key2 chain

/-- The loop of `basic_ht_get_pair` over a chain. -/
def chainGet (key1 key2 : UInt64) : List (Pair V) → Option (Pair V)
  | [] => none
  | pair :: chain => if pair.key1 = key1 ∧ pair.key2 = key2 then some pair else chainGet key1 key2 chain

namespace BasicHt

variable (ht : BasicHt V)

/-- The bin of a key, `key1 & mask`. -/
def bin (key1 : UInt64) : Fin ht.size :=
  ⟨(key1 &&& ht.mask).toNat, by
    rw [UInt64.toNat_and]
    exact Nat.and_le_right.trans_lt ht.mask_lt⟩

/-- The chain of a key. -/
def chain (key1 : UInt64) : List (Pair V) := ht.table.get (ht.bin key1)

theorem chain_distinct (key1 : UInt64) : ((ht.chain key1).map Pair.key).Nodup :=
  ht.distinct (ht.bin key1) (ht.bin key1).isLt

end BasicHt

/-- `basic_ht_get_pair`. -/
def basicHtGetPair (ht : BasicHt V) (key1 key2 : UInt64) : Option (Pair V) := chainGet key1 key2 (ht.chain key1)

/-! ### Chains -/

section Chains

variable (key1 key2 : UInt64) (value1 value2 : Option V)

/-- Setting a pair keeps the keys of a chain, or appends the new one. -/
theorem chainSet_keys (chain : List (Pair V)) :
    (chainSet key1 key2 value1 value2 chain).map Pair.key =
      if (key1, key2) ∈ chain.map Pair.key then chain.map Pair.key else chain.map Pair.key ++ [(key1, key2)] := by
  induction chain with
  | nil => simp [chainSet, Pair.key]
  | cons next chain ih =>
      by_cases h : next.key1 = key1 ∧ next.key2 = key2
      · rw [chainSet, if_pos h]
        simp [Pair.key, h.1, h.2]
      · have hne : (key1, key2) ≠ next.key := fun he => h ⟨(congrArg Prod.fst he).symm, (congrArg Prod.snd he).symm⟩
        rw [chainSet, if_neg h, List.map_cons, ih, List.map_cons]
        by_cases hm : (key1, key2) ∈ chain.map Pair.key
        · rw [if_pos hm, if_pos (List.mem_cons_of_mem _ hm)]
        · rw [if_neg hm, if_neg fun ho => (List.mem_cons.mp ho).elim hne hm, List.cons_append]

theorem chainSet_distinct {chain : List (Pair V)} (h : (chain.map Pair.key).Nodup) :
    ((chainSet key1 key2 value1 value2 chain).map Pair.key).Nodup := by
  rw [chainSet_keys]
  split <;> rename_i hm
  · exact h
  · exact List.nodup_append.mpr ⟨h, List.nodup_singleton _, by
      rintro k hk k' hk' rfl
      exact hm (List.mem_singleton.mp hk' ▸ hk)⟩

theorem chainDelete_sublist (chain : List (Pair V)) : (chainDelete key1 key2 chain).Sublist chain := by
  induction chain with
  | nil => exact List.Sublist.refl []
  | cons next chain ih =>
      rw [chainDelete]
      split
      · exact List.sublist_cons_self next chain
      · exact ih.cons_cons next

theorem chainDelete_distinct {chain : List (Pair V)} (h : (chain.map Pair.key).Nodup) :
    ((chainDelete key1 key2 chain).map Pair.key).Nodup :=
  h.sublist ((chainDelete_sublist key1 key2 chain).map Pair.key)

/-- A chain holds a key exactly when the search finds it. -/
theorem chainGet_eq_none_iff (chain : List (Pair V)) :
    chainGet key1 key2 chain = none ↔ (key1, key2) ∉ chain.map Pair.key := by
  induction chain with
  | nil => simp [chainGet]
  | cons next chain ih =>
      rw [chainGet, List.map_cons, List.mem_cons, not_or, ← ih]
      split <;> rename_i h
      · simp [Pair.key, h.1, h.2]
      · have hne : (key1, key2) ≠ next.key := fun he => h ⟨(congrArg Prod.fst he).symm, (congrArg Prod.snd he).symm⟩
        exact ⟨fun hg => ⟨hne, hg⟩, fun hg => hg.2⟩

theorem chainGet_chainSet (k1 k2 : UInt64) (chain : List (Pair V)) :
    chainGet k1 k2 (chainSet key1 key2 value1 value2 chain) =
      if k1 = key1 ∧ k2 = key2 then some ⟨key1, key2, value1, value2⟩ else chainGet k1 k2 chain := by
  induction chain with
  | nil => simp only [chainSet, chainGet, eq_comm]
  | cons next chain ih =>
      by_cases h : next.key1 = key1 ∧ next.key2 = key2
      · rw [chainSet, if_pos h, chainGet, chainGet, h.1, h.2]
        by_cases hk : key1 = k1 ∧ key2 = k2
        · simp [hk.1, hk.2]
        · rw [if_neg hk, if_neg hk, if_neg fun he => hk ⟨he.1.symm, he.2.symm⟩]
      · rw [chainSet, if_neg h, chainGet, chainGet, ih]
        by_cases hk : next.key1 = k1 ∧ next.key2 = k2
        · rw [if_pos hk, if_neg (by rintro ⟨rfl, rfl⟩; exact h hk), if_pos hk]
        · rw [if_neg hk, if_neg hk]

theorem chainGet_chainDelete (k1 k2 : UInt64) {chain : List (Pair V)} (hd : (chain.map Pair.key).Nodup) :
    chainGet k1 k2 (chainDelete key1 key2 chain) =
      if k1 = key1 ∧ k2 = key2 then none else chainGet k1 k2 chain := by
  induction chain with
  | nil => simp [chainDelete, chainGet]
  | cons next chain ih =>
      rw [List.map_cons, List.nodup_cons] at hd
      by_cases h : next.key1 = key1 ∧ next.key2 = key2
      · rw [chainDelete, if_pos h]
        split <;> rename_i hk
        · rw [hk.1, hk.2, ← h.1, ← h.2, chainGet_eq_none_iff]
          exact hd.1
        · rw [chainGet, if_neg fun he => hk ⟨he.1.symm.trans h.1, he.2.symm.trans h.2⟩]
      · rw [chainDelete, if_neg h, chainGet, ih hd.2, chainGet]
        by_cases hk : next.key1 = k1 ∧ next.key2 = k2
        · rw [if_pos hk, if_pos hk, if_neg (by rintro ⟨rfl, rfl⟩; exact h hk)]
        · rw [if_neg hk, if_neg hk]

end Chains

/-! ### The table as a map -/

/-- Change the chain of a key. -/
def BasicHt.setChain (ht : BasicHt V) (key1 : UInt64) (chain : List (Pair V))
    (h : (chain.map Pair.key).Nodup) : BasicHt V :=
  { ht with
    table := ht.table.set (ht.bin key1) chain
    distinct := by
      intro i hi
      rw [Vector.getElem_set]
      split
      · exact h
      · exact ht.distinct i hi }

/-- `basic_ht_set_pair`. -/
def basicHtSetPair (ht : BasicHt V) (key1 key2 : UInt64) (value1 value2 : Option V) : BasicHt V :=
  ht.setChain key1 (chainSet key1 key2 value1 value2 (ht.chain key1))
    (chainSet_distinct key1 key2 value1 value2 (ht.chain_distinct key1))

/-- `basic_ht_delete_pair`. -/
def basicHtDeletePair (ht : BasicHt V) (key1 key2 : UInt64) : BasicHt V :=
  ht.setChain key1 (chainDelete key1 key2 (ht.chain key1)) (chainDelete_distinct key1 key2 (ht.chain_distinct key1))

/-- The values stored under a key. -/
def lookup (ht : BasicHt V) (key : UInt64 × UInt64) : Option (Option V × Option V) :=
  (basicHtGetPair ht key.1 key.2).map fun p => (p.value1, p.value2)

theorem chain_setChain (ht : BasicHt V) (key1 k1 : UInt64) (chain : List (Pair V)) (h) :
    (ht.setChain key1 chain h).chain k1 = if ht.bin key1 = ht.bin k1 then chain else ht.chain k1 := by
  have hset : (ht.setChain key1 chain h).chain k1 = (ht.table.set (ht.bin key1) chain)[(ht.bin k1 : Nat)] := rfl
  rw [hset, Vector.getElem_set]
  simp only [Fin.ext_iff]
  rfl

/-- **Setting a pair updates the map.** -/
theorem lookup_set (ht : BasicHt V) (key1 key2 : UInt64) (value1 value2 : Option V) :
    lookup (basicHtSetPair ht key1 key2 value1 value2) =
      Function.update (lookup ht) (key1, key2) (some (value1, value2)) := by
  funext ⟨k1, k2⟩
  rw [Function.update_apply, lookup, basicHtGetPair, basicHtSetPair, chain_setChain]
  by_cases hk : k1 = key1 ∧ k2 = key2
  · rw [if_pos (Prod.ext hk.1 hk.2), if_pos (by rw [hk.1]), chainGet_chainSet, if_pos hk]
    rfl
  · rw [if_neg fun he => hk ⟨congrArg Prod.fst he, congrArg Prod.snd he⟩]
    split <;> rename_i hb
    · rw [chainGet_chainSet, if_neg hk]
      simp only [BasicHt.chain, hb, lookup, basicHtGetPair]
    · rfl

/-- **Deleting a pair removes its key from the map.** -/
theorem lookup_delete (ht : BasicHt V) (key1 key2 : UInt64) :
    lookup (basicHtDeletePair ht key1 key2) = Function.update (lookup ht) (key1, key2) none := by
  funext ⟨k1, k2⟩
  have hd := ht.chain_distinct key1
  rw [Function.update_apply, lookup, basicHtGetPair, basicHtDeletePair, chain_setChain]
  by_cases hk : k1 = key1 ∧ k2 = key2
  · rw [if_pos (Prod.ext hk.1 hk.2), if_pos (by rw [hk.1]), chainGet_chainDelete _ _ _ _ hd, if_pos hk]
    rfl
  · rw [if_neg fun he => hk ⟨congrArg Prod.fst he, congrArg Prod.snd he⟩]
    split <;> rename_i hb
    · rw [chainGet_chainDelete _ _ _ _ hd, if_neg hk]
      simp only [BasicHt.chain, hb, lookup, basicHtGetPair]
    · rfl

@[simp] theorem basicHtSetPair_seed (ht : BasicHt V) (key1 key2 : UInt64) (value1 value2 : Option V) :
    (basicHtSetPair ht key1 key2 value1 value2).seed = ht.seed := rfl

@[simp] theorem basicHtDeletePair_seed (ht : BasicHt V) (key1 key2 : UInt64) :
    (basicHtDeletePair ht key1 key2).seed = ht.seed := rfl

/-- A new table is empty, whatever its seed. -/
theorem basicHtInit_spec {size : Nat} {seed : UInt64} {ht : BasicHt V} (h : basicHtInit size seed = some ht) :
    ht.seed = seed ∧ ∀ key, lookup ht key = none := by
  unfold basicHtInit at h
  split at h
  · exact absurd h (by simp)
  · split at h
    · exact absurd h (by simp)
    · simp only [Option.some.injEq] at h
      subst h
      refine ⟨rfl, fun key => ?_⟩
      simp [lookup, basicHtGetPair, BasicHt.chain, chainGet]

/-- The size both tables of the server are created with. -/
theorem isPowerOfTwo_1024 : isPowerOfTwo 1024 = true := by decide

/-! ### The hash over the integers -/

theorem abs_charVal (c : UInt8) : |charVal c| ≤ 128 :=
  abs_le.mpr ⟨Int8.le_toInt c.toInt8, (Int8.toInt_le c.toInt8).trans (by decide)⟩

theorem charVal_injective : Function.Injective charVal := by
  intro c d h
  have h8 : c.toInt8 = d.toInt8 := Int8.toInt_inj.mp h
  exact congrArg Int8.toUInt8 h8

theorem hash1_step (h c : UInt64) : (((h <<< 5) + h) + c).toBitVec = h.toBitVec * 33 + c.toBitVec := by
  have hs : (((h <<< 5) + h) + c).toBitVec = ((h.toBitVec <<< 5) + h.toBitVec) + c.toBitVec := rfl
  rw [hs, add_left_inj]
  bv_omega

theorem hash2_step (h c : UInt64) : (((h <<< 3) + h) + c).toBitVec = h.toBitVec * 9 + c.toBitVec := by
  have hs : (((h <<< 3) + h) + c).toBitVec = ((h.toBitVec <<< 3) + h.toBitVec) + c.toBitVec := rfl
  rw [hs, add_left_inj]
  bv_omega

/-- Reading a string is reading its characters as integers, modulo the word size. -/
theorem hashContinue_spec (str : Bytes) (a b : Int) (hash1 hash2 : UInt64)
    (h1 : hash1.toBitVec = (a : BitVec 64)) (h2 : hash2.toBitVec = (b : BitVec 64)) :
    (basicHtHashContinue str hash1 hash2).1.toBitVec = (charHash 33 a str : BitVec 64) ∧
    (basicHtHashContinue str hash1 hash2).2.toBitVec = (charHash 9 b str : BitVec 64) := by
  induction str generalizing a b hash1 hash2 with
  | nil => exact ⟨h1, h2⟩
  | cons c str ih =>
      have hc : (hashChar c).toBitVec = ((charVal c : Int) : BitVec 64) := rfl
      refine ih (a * 33 + charVal c) (b * 9 + charVal c) _ _ ?_ ?_
      · rw [hash1_step, h1, hc]
        push_cast
        rfl
      · rw [hash2_step, h2, hc]
        push_cast
        rfl

theorem hashContinue_append (s t : Bytes) (hash1 hash2 : UInt64) :
    basicHtHashContinue (s ++ t) hash1 hash2 =
      basicHtHashContinue t (basicHtHashContinue s hash1 hash2).1 (basicHtHashContinue s hash1 hash2).2 := by
  induction s generalizing hash1 hash2 with
  | nil => rfl
  | cons c s ih => exact ih _ _

/-- **The hash pair of a string.** Each half is the value of the string as a polynomial, modulo `2 ^ 64`. -/
theorem hash_spec (str : Bytes) (seed : UInt64) :
    (basicHtHash str seed).1.toBitVec = (charHash 33 (5381 * seed.toNat) str : BitVec 64) ∧
    (basicHtHash str seed).2.toBitVec = (charHash 9 (6883 * seed.toNat) str : BitVec 64) := by
  have hseed (k : UInt64) : (k * seed).toBitVec = ((k.toNat * seed.toNat : Int) : BitVec 64) := by
    have hnat (w : UInt64) : w.toBitVec = ((w.toNat : Int) : BitVec 64) :=
      BitVec.eq_of_toNat_eq (by simp)
    push_cast
    rw [UInt64.toBitVec_mul, hnat k, hnat seed]
    push_cast
    rfl
  exact hashContinue_spec str _ _ _ _ (hseed 5381) (hseed 6883)

theorem intCast_eq_iff (a b : Int) : (a : BitVec 64) = (b : BitVec 64) ↔ (2 ^ 64 : Int) ∣ a - b := by
  have hnat (z : Int) : (z : BitVec 64).toNat = (z % 2 ^ 64).toNat := BitVec.toNat_ofInt z
  rw [← BitVec.toNat_inj, hnat, hnat]
  omega

/-- **A collision, over the integers.** -/
theorem hash_eq_iff (s t : Bytes) (seed : UInt64) :
    basicHtHash s seed = basicHtHash t seed ↔
      (2 ^ 64 : Int) ∣ charHash 33 (5381 * seed.toNat) s - charHash 33 (5381 * seed.toNat) t ∧
      (2 ^ 64 : Int) ∣ charHash 9 (6883 * seed.toNat) s - charHash 9 (6883 * seed.toNat) t := by
  rw [← intCast_eq_iff, ← intCast_eq_iff, ← (hash_spec s seed).1, ← (hash_spec t seed).1, ← (hash_spec s seed).2,
    ← (hash_spec t seed).2, UInt64.toBitVec_inj, UInt64.toBitVec_inj]
  exact Prod.ext_iff

/-- Strings of one length differ by the same amount from every start value. -/
theorem charHash_sub (x a : Int) {s t : Bytes} (h : s.length = t.length) :
    charHash x a s - charHash x a t = charHash x 0 s - charHash x 0 t := by
  rw [charHash, charHash, Lib.horner_eq x a (s.map charVal), Lib.horner_eq x a (t.map charVal), List.length_map,
    List.length_map, h, add_sub_add_left_eq_sub]
  rfl

/-- **The seed does not matter** to strings of one length: they collide for every seed or for none. -/
theorem hash_eq_seed {s t : Bytes} (h : s.length = t.length) (seed seed' : UInt64) :
    basicHtHash s seed = basicHtHash t seed ↔ basicHtHash s seed' = basicHtHash t seed' := by
  rw [hash_eq_iff, hash_eq_iff, charHash_sub 33 (5381 * seed.toNat) h, charHash_sub 33 (5381 * seed'.toNat) h,
    charHash_sub 9 (6883 * seed.toNat) h, charHash_sub 9 (6883 * seed'.toNat) h]

theorem abs_charHash_le {x : Int} (hx : 1 ≤ x) (s : Bytes) :
    (x - 1) * |charHash x 0 s| ≤ 128 * (x ^ s.length - 1) := by
  have h := Lib.horner_bound hx (s.map charVal) (b := 128) fun d hd => by
    obtain ⟨c, -, rfl⟩ := List.mem_map.mp hd
    exact abs_charVal c
  rwa [List.length_map] at h

/-- **Short strings of one length never collide**, whatever the seed: up to twelve bytes the two polynomials do
    not wrap around, and their values at 33 and at 9 determine the bytes. -/
theorem hash_injective_short {s t : Bytes} (hlen : s.length = t.length) (h12 : s.length ≤ 12) {seed : UInt64}
    (h : basicHtHash s seed = basicHtHash t seed) : s = t := by
  obtain ⟨h33, h9⟩ := (hash_eq_iff s t seed).mp h
  rw [charHash_sub _ _ hlen] at h33 h9
  have hzero {x : Int} (hx : 1 < x) (hwrap : 256 * x ^ 12 < (x - 1) * 2 ^ 64)
      (hd : (2 ^ 64 : Int) ∣ charHash x 0 s - charHash x 0 t) : charHash x 0 s = charHash x 0 t := by
    have hpow : x ^ s.length ≤ x ^ 12 := pow_le_pow_right₀ hx.le h12
    have hs := abs_charHash_le hx.le s
    have ht := abs_charHash_le hx.le t
    rw [← hlen] at ht
    have hsub : |charHash x 0 s - charHash x 0 t| < 2 ^ 64 := by
      refine lt_of_mul_lt_mul_left ?_ (sub_pos.mpr hx).le
      calc (x - 1) * |charHash x 0 s - charHash x 0 t|
          ≤ (x - 1) * (|charHash x 0 s| + |charHash x 0 t|) :=
            mul_le_mul_of_nonneg_left (abs_sub _ _) (sub_pos.mpr hx).le
        _ ≤ 256 * x ^ 12 := by rw [mul_add]; omega
        _ < (x - 1) * 2 ^ 64 := hwrap
    exact sub_eq_zero.mp (Int.eq_zero_of_abs_lt_dvd hd hsub)
  have hdig : ∀ d ∈ s.map charVal, ∀ e ∈ t.map charVal, |d - e| ≤ 256 := by
    intro d hd e he
    obtain ⟨c, -, rfl⟩ := List.mem_map.mp hd
    obtain ⟨c', -, rfl⟩ := List.mem_map.mp he
    exact (abs_sub _ _).trans (add_le_add (abs_charVal c) (abs_charVal c'))
  exact List.map_injective_iff.mpr charVal_injective
    (Lib.horner_pair_injective (by decide) (by decide) (by decide : (256 : Int) < 33 * 9) (by simpa using hlen) hdig
      (hzero (by decide) (by norm_num) h33) (hzero (by decide) (by norm_num) h9))

/-- **The seed 101 keeps short strings of different lengths apart**: up to eleven bytes the start term, carried
    along by the length, puts the first hash of each length into an interval of its own. -/
theorem hash_length_short {s t : Bytes} (hs : s.length ≤ 11) (ht : t.length ≤ 11)
    (h : basicHtHash s 101 = basicHtHash t 101) : s.length = t.length := by
  obtain ⟨⟨k, hk⟩, -⟩ := (hash_eq_iff s t 101).mp h
  have hstart (u : Bytes) : charHash 33 (5381 * (101 : UInt64).toNat) u = 543481 * 33 ^ u.length + charHash 33 0 u := by
    have h101 : (5381 * (101 : UInt64).toNat : Int) = 543481 := by decide
    rw [h101, charHash, Lib.horner_eq, List.length_map]
    rfl
  rw [hstart, hstart] at hk
  have hbs := abs_charHash_le (x := 33) (by decide) s
  have hbt := abs_charHash_le (x := 33) (by decide) t
  have hA := And.intro (neg_abs_le (charHash 33 0 s)) (le_abs_self (charHash 33 0 s))
  have hB := And.intro (neg_abs_le (charHash 33 0 t)) (le_abs_self (charHash 33 0 t))
  clear hstart h
  generalize s.length = n at *
  generalize t.length = m at *
  interval_cases n <;> interval_cases m <;> omega

end Hashtable
end Hin9
