import Hin9.Basic.Hashtable

/-!
# `Basic.HashtableIterate` — the table as a finite map (`basic_hashtable.c`)

`basicHtIteratePair` follows the chain it is in, and scans the bins from the saved one on when the chain ends. What it has
still to return is `left`: the rest of the chain, and the chains of the bins behind it. Every call takes the first pair of it.

A pass returns all the chains one after the other. No key is in two of them, since a pair is always in the bin of its own
key. `Placed` says so, and it is the only thing about the table that the sequence of calls has to carry along.
-/

namespace Hin9
namespace Hashtable

variable {V : Type}

/-! ## The iterator -/

/-- `basic_ht_iterator_t`. The pair is there with what follows it in its chain; nothing is `NULL`. -/
structure BasicHtIterator (V : Type) where
  bin : Nat := 0
  pair : List (Pair V) := []

/-- The loop of `basic_ht_iterate_pair` over the bins that are left, of which `i` is the first. -/
def scanBins (iter : BasicHtIterator V) (i : Nat) : List (List (Pair V)) → BasicHtIterator V × Option (Pair V)
  | [] => (iter, none)
  | chain :: bins =>
      let iter := { iter with pair := chain }
      match chain with
      | pair :: _ => ({ iter with bin := i + 1 }, some pair)
      | [] => scanBins iter (i + 1) bins

/-- `basic_ht_iterate_pair`. -/
def basicHtIteratePair (ht : BasicHt V) (iter : BasicHtIterator V) : BasicHtIterator V × Option (Pair V) :=
  match iter.pair with
  | _ :: next :: chain => ({ iter with pair := next :: chain }, some next)
  | _ => scanBins iter iter.bin (ht.table.toList.drop iter.bin)

/-- What call `n` of a pass returns. The pass starts from a zeroed iterator, and nothing else is called in between. -/
def callReturns (ht : BasicHt V) (n : Nat) : Option (Pair V) :=
  (basicHtIteratePair ht ((fun iter => (basicHtIteratePair ht iter).1)^[n] {})).2

/-! ## Sequences of calls -/

inductive Op (V : Type) where
  | set (key1 key2 : UInt64) (value1 value2 : Option V)     -- basic_ht_set_pair
  | delete (key1 key2 : UInt64)                             -- basic_ht_delete_pair

def BasicHt.apply (ht : BasicHt V) : Op V → BasicHt V
  | .set key1 key2 value1 value2 => basicHtSetPair ht key1 key2 value1 value2
  | .delete key1 key2 => basicHtDeletePair ht key1 key2

/-- The same call on a map. -/
def Op.update (m : UInt64 × UInt64 → Option (Option V × Option V)) : Op V → UInt64 × UInt64 → Option (Option V × Option V)
  | .set key1 key2 value1 value2 => Function.update m (key1, key2) (some (value1, value2))
  | .delete key1 key2 => Function.update m (key1, key2) none

/-- The map the table stands for: a key has the values of the last set, unless it was deleted after that. -/
def stored (ops : List (Op V)) : UInt64 × UInt64 → Option (Option V × Option V) :=
  ops.foldl Op.update fun _ => none

/-! ## What the iterator has still to return -/

/-- The rest of the chain, and the bins behind it. -/
def BasicHtIterator.left (ht : BasicHt V) (iter : BasicHtIterator V) : List (Pair V) :=
  iter.pair.tail ++ (ht.table.toList.drop iter.bin).flatten

/-- **The scan stops at the first pair in the bins.** The bins it skipped are empty, so the saved bin may stay behind. -/
theorem scanBins_left {ht : BasicHt V} {iter : BasicHtIterator V} {i : Nat} {bins : List (List (Pair V))}
    (hbins : ht.table.toList.drop i = bins) (hskip : (ht.table.toList.drop iter.bin).flatten = bins.flatten)
    (hend : iter.pair.tail = []) :
    (scanBins iter i bins).2 = bins.flatten.head? ∧ (scanBins iter i bins).1.left ht = bins.flatten.tail := by
  induction bins generalizing iter i with
  | nil =>
      refine ⟨rfl, ?_⟩
      unfold BasicHtIterator.left
      rw [scanBins, hend, hskip]
      rfl
  | cons chain bins ih =>
      have hnext : ht.table.toList.drop (i + 1) = bins := by
        rw [← List.tail_drop, hbins]
        rfl
      cases chain with
      | nil => exact ih hnext hskip rfl
      | cons pair chain =>
          refine ⟨rfl, ?_⟩
          unfold BasicHtIterator.left
          rw [scanBins, hnext]
          rfl

/-- **A call takes the first pair of what is left.** -/
theorem basicHtIteratePair_left (ht : BasicHt V) (iter : BasicHtIterator V) :
    (basicHtIteratePair ht iter).2 = (iter.left ht).head? ∧
    (basicHtIteratePair ht iter).1.left ht = (iter.left ht).tail := by
  obtain ⟨bin, pair⟩ := iter
  cases pair with
  | nil => exact scanBins_left rfl rfl rfl
  | cons p chain =>
      cases chain with
      | nil => exact scanBins_left rfl rfl rfl
      | cons next chain => exact ⟨rfl, rfl⟩

/-- A pass goes through what is left, and nothing comes after it. -/
theorem iterate_left (ht : BasicHt V) (iter : BasicHtIterator V) (n : Nat) :
    (basicHtIteratePair ht ((fun iter => (basicHtIteratePair ht iter).1)^[n] iter)).2 = (iter.left ht)[n]? := by
  induction n generalizing iter with
  | zero =>
      rw [← List.head?_eq_getElem?]
      exact (basicHtIteratePair_left ht iter).1
  | succ n ih =>
      rw [Function.iterate_succ_apply, ih, (basicHtIteratePair_left ht iter).2, List.getElem?_tail]

theorem callReturns_eq (ht : BasicHt V) (n : Nat) : callReturns ht n = ht.table.toList.flatten[n]? :=
  iterate_left ht {} n

/-! ## The bins -/

/-- Every pair is in the bin of its key. -/
def Placed (ht : BasicHt V) : Prop :=
  ∀ (i : Nat) (h : i < ht.size), ∀ key ∈ ht.table[i].map Pair.key, (ht.bin key.1 : Nat) = i

theorem Placed.setChain {ht : BasicHt V} (hp : Placed ht) {key1 : UInt64} {chain : List (Pair V)} (h)
    (hchain : ∀ key ∈ chain.map Pair.key, ht.bin key.1 = ht.bin key1) : Placed (ht.setChain key1 chain h) := by
  intro i hi key hkey
  have hget : (ht.setChain key1 chain h).table[i] = if (ht.bin key1 : Nat) = i then chain else ht.table[i] :=
    Vector.getElem_set (ht.bin key1).isLt hi
  rw [hget] at hkey
  split at hkey
  · rename_i hbin
    exact (congrArg Fin.val (hchain key hkey)).trans hbin
  · exact hp i hi key hkey

/-- The keys of a chain have one bin. -/
theorem Placed.chain {ht : BasicHt V} (hp : Placed ht) (key1 : UInt64) :
    ∀ key ∈ (ht.chain key1).map Pair.key, ht.bin key.1 = ht.bin key1 := by
  intro key hkey
  exact Fin.ext (hp (ht.bin key1) (ht.bin key1).isLt key hkey)

theorem Placed.apply {ht : BasicHt V} (hp : Placed ht) (op : Op V) : Placed (ht.apply op) := by
  cases op with
  | set key1 key2 value1 value2 =>
      refine hp.setChain (chainSet_distinct key1 key2 value1 value2 (ht.chain_distinct key1)) ?_
      intro key hkey
      rw [chainSet_keys] at hkey
      split at hkey
      · exact hp.chain key1 key hkey
      · rcases List.mem_append.mp hkey with hold | hnew
        · exact hp.chain key1 key hold
        · rw [List.mem_singleton.mp hnew]
  | delete key1 key2 =>
      refine hp.setChain (chainDelete_distinct key1 key2 (ht.chain_distinct key1)) ?_
      intro key hkey
      exact hp.chain key1 key (((chainDelete_sublist key1 key2 _).map Pair.key).subset hkey)

/-- A search finds nothing but what is in the chain, and under its own key. -/
theorem chainGet_some {key1 key2 : UInt64} {chain : List (Pair V)} {p : Pair V} (h : chainGet key1 key2 chain = some p) :
    p ∈ chain ∧ p.key = (key1, key2) := by
  induction chain with
  | nil => exact absurd h (by simp [chainGet])
  | cons next chain ih =>
      rw [chainGet] at h
      split at h
      · rename_i hkey
        obtain rfl := Option.some.inj h
        exact ⟨List.mem_cons_self, Prod.ext hkey.1 hkey.2⟩
      · obtain ⟨hmem, hkey⟩ := ih h
        exact ⟨List.mem_cons_of_mem _ hmem, hkey⟩

theorem chainGet_of_mem {chain : List (Pair V)} (hd : (chain.map Pair.key).Nodup) {p : Pair V} (hmem : p ∈ chain) :
    chainGet p.key1 p.key2 chain = some p := by
  induction chain with
  | nil => exact absurd hmem List.not_mem_nil
  | cons next chain ih =>
      rw [List.map_cons, List.nodup_cons] at hd
      rw [chainGet]
      rcases List.mem_cons.mp hmem with rfl | hlater
      · exact if_pos ⟨rfl, rfl⟩
      · rw [if_neg]
        · exact ih hd.2 hlater
        · intro hkey
          apply hd.1
          have he : next.key = p.key := Prod.ext hkey.1 hkey.2
          rw [he]
          exact List.mem_map_of_mem hlater

/-- **The pairs in the bins are what a search finds.** -/
theorem Placed.mem_iff {ht : BasicHt V} (hp : Placed ht) (p : Pair V) :
    p ∈ ht.table.toList.flatten ↔ basicHtGetPair ht p.key1 p.key2 = some p := by
  constructor
  · intro hmem
    obtain ⟨chain, hchain, hin⟩ := List.mem_flatten.mp hmem
    obtain ⟨i, hi, rfl⟩ := List.mem_iff_getElem.mp hchain
    have hsize : i < ht.size := by simpa using hi
    rw [Vector.getElem_toList] at hin
    have hbin := hp i hsize p.key (List.mem_map_of_mem hin)
    have hsame : ht.chain p.key1 = ht.table[i] := by
      unfold BasicHt.chain
      rw [Vector.get_eq_getElem]
      congr 1
    unfold basicHtGetPair
    rw [hsame]
    exact chainGet_of_mem (ht.distinct i hsize) hin
  · intro hget
    have hin := (chainGet_some hget).1
    refine List.mem_flatten.mpr ⟨_, ?_, hin⟩
    unfold BasicHt.chain
    rw [Vector.get_eq_getElem]
    simp

/-- **No key is in the table twice.** -/
theorem Placed.nodup {ht : BasicHt V} (hp : Placed ht) : (ht.table.toList.flatten.map Pair.key).Nodup := by
  rw [List.map_flatten, List.nodup_flatten]
  constructor
  · intro keys hkeys
    obtain ⟨chain, hchain, rfl⟩ := List.mem_map.mp hkeys
    obtain ⟨i, hi, rfl⟩ := List.mem_iff_getElem.mp hchain
    rw [Vector.getElem_toList]
    exact ht.distinct i (by simpa using hi)
  · rw [List.pairwise_iff_getElem]
    intro i j hi hj hlt key hki hkj
    rw [List.getElem_map, Vector.getElem_toList] at hki hkj
    have hbi := hp i (by simpa using hi) key hki
    have hbj := hp j (by simpa using hj) key hkj
    omega

/-! ## From the empty table on -/

/-- The loop finds every power of two. -/
theorem doublePow_pow {k fuel j : Nat} (hle : j ≤ k) (hfuel : k ≤ j + fuel) : doublePow (2 ^ k) fuel (2 ^ j) = 2 ^ k := by
  induction fuel generalizing j with
  | zero =>
      obtain rfl : j = k := by omega
      rfl
  | succ fuel ih =>
      rw [doublePow]
      by_cases hlt : j < k
      · rw [if_pos (Nat.pow_lt_pow_right (by decide) hlt), ← pow_succ]
        exact ih (by omega) (by omega)
      · obtain rfl : j = k := by omega
        exact if_neg (lt_irrefl _)

theorem isPowerOfTwo_pow (k : Nat) : isPowerOfTwo (2 ^ k) = true := by
  have hdouble : doublePow (2 ^ k) (2 ^ k) (2 ^ 0) = 2 ^ k :=
    doublePow_pow (Nat.zero_le k) ((Nat.lt_two_pow_self (n := k)).le.trans (Nat.le_add_left _ _))
  rw [pow_zero] at hdouble
  unfold isPowerOfTwo
  rw [if_neg (Nat.two_pow_pos k).ne', hdouble]
  exact decide_eq_true rfl

/-- A table of a power-of-two size can be created, and has nothing in it. -/
theorem basicHtInit_pow (k : Nat) (seed : UInt64) :
    ∃ ht : BasicHt V, basicHtInit (2 ^ k) seed = some ht ∧ Placed ht ∧ lookup ht = fun _ => none := by
  have hsize : ¬2 ^ k < 1 := Nat.not_lt.mpr (Nat.two_pow_pos k)
  have hpower : ¬(!isPowerOfTwo (2 ^ k)) = true := by
    rw [isPowerOfTwo_pow]
    decide
  obtain ⟨ht, hinit⟩ : ∃ ht : BasicHt V, basicHtInit (2 ^ k) seed = some ht := by
    unfold basicHtInit
    rw [dif_neg hsize, if_neg hpower]
    exact ⟨_, rfl⟩
  refine ⟨ht, hinit, ?_, funext (basicHtInit_spec hinit).2⟩
  unfold basicHtInit at hinit
  rw [dif_neg hsize, if_neg hpower] at hinit
  obtain rfl := Option.some.inj hinit
  intro i hi key hkey
  simp at hkey

/-- Every call is an update of the map, from any map the table stands for. -/
theorem apply_all {ht : BasicHt V} (hp : Placed ht) (ops : List (Op V)) {m : UInt64 × UInt64 → Option (Option V × Option V)}
    (hm : lookup ht = m) :
    Placed (ops.foldl BasicHt.apply ht) ∧ lookup (ops.foldl BasicHt.apply ht) = ops.foldl Op.update m := by
  induction ops generalizing ht m with
  | nil => exact ⟨hp, hm⟩
  | cons op ops ih =>
      apply ih (hp.apply op)
      rw [← hm]
      cases op with
      | set key1 key2 value1 value2 => exact lookup_set ht key1 key2 value1 value2
      | delete key1 key2 => exact lookup_delete ht key1 key2

/-- What is stored under the key of a pair. -/
theorem lookup_pair_iff (ht : BasicHt V) (p : Pair V) :
    lookup ht p.key = some (p.value1, p.value2) ↔ basicHtGetPair ht p.key1 p.key2 = some p := by
  unfold lookup
  rw [Option.map_eq_some_iff]
  constructor
  · rintro ⟨q, hq, hvalues⟩
    have hkey := (chainGet_some hq).2
    have hpq : q = p := by
      obtain ⟨a, b, v, w⟩ := q
      obtain ⟨c, d, x, y⟩ := p
      simp only [Pair.key, Prod.mk.injEq] at hkey hvalues
      rw [hkey.1, hkey.2, hvalues.1, hvalues.2]
    rw [← hpq] at hq ⊢
    exact hq
  · intro hget
    exact ⟨p, hget, rfl⟩

/-- **The table is a finite map.** After any sequence of calls a search finds what the map has, and a pass returns the pairs
    of the map, each of them once, and then `NULL` for good. -/
theorem table_is_map (k : Nat) (seed : UInt64) (ops : List (Op V)) :
    ∃ ht, basicHtInit (2 ^ k) seed = some ht ∧ lookup (ops.foldl BasicHt.apply ht) = stored ops ∧
      ∃ pairs : List (Pair V), (pairs.map Pair.key).Nodup ∧
        (∀ p, p ∈ pairs ↔ stored ops p.key = some (p.value1, p.value2)) ∧
        ∀ n, callReturns (ops.foldl BasicHt.apply ht) n = pairs[n]? := by
  obtain ⟨ht, hinit, hplaced, hempty⟩ := basicHtInit_pow (V := V) k seed
  obtain ⟨hp, hmap⟩ := apply_all hplaced ops hempty
  refine ⟨ht, hinit, hmap, (ops.foldl BasicHt.apply ht).table.toList.flatten, hp.nodup, ?_, callReturns_eq _⟩
  intro p
  rw [hp.mem_iff, ← lookup_pair_iff, hmap]
  rfl

end Hashtable
end Hin9
