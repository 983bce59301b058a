import Hin9.Basic.Hashtable
import Hin9.Http.Cache

/-!
# `Http.Names` — host names and cache keys are looked up by their hash pair

`httpd_vhost_add` and `hin_cache_save` keep the hash pair of a name and forget the name, so a lookup answers for
every string with the pair of a stored one. `looked_up_by_hash` says exactly that, and how far it is from a
comparison of the strings: up to eleven bytes the pair determines a host name, up to twelve bytes it determines
a cache key among those of its length. `names_confused` gives two host names of 24 letters that no seed tells
apart: both hashes are linear in the bytes, and the seed is a term they share.
-/

namespace Hin9
namespace Http

open Hashtable

variable {V : Type}

/-! ## Virtual hosts -/

/-- `httpd_vhost_add`; `vhost_ht` is created by the first call. -/
def httpdVhostAdd (vhostHt : Option (BasicHt V)) (name : Bytes) (vhost : V) : Option (BasicHt V) :=
  (vhostHt.or (basicHtCreate 1024 101)).map fun ht =>
    let h := basicHtHash name ht.seed
    basicHtSetPair ht h.1 h.2 none (some vhost)

/-- `httpd_vhost_get`. -/
def httpdVhostGet (vhostHt : Option (BasicHt V)) (name : Bytes) : Option V :=
  vhostHt.bind fun ht =>
    let h := basicHtHash name ht.seed
    (basicHtGetPair ht h.1 h.2).bind Pair.value2

/-- The table after the hosts of a configuration are added in order. -/
def addHosts (hosts : List (Bytes × V)) : Option (BasicHt V) :=
  hosts.foldl (fun vhostHt host => httpdVhostAdd vhostHt host.1 host.2) none

/-! ## Cache keys -/

/-- The strings given to the option `cache_key`. -/
structure CacheKeyArgs where
  str : Bytes
  more : List Bytes := []

/-- The key string: the arguments one after the other. -/
def CacheKeyArgs.text (args : CacheKeyArgs) : Bytes := args.str ++ args.more.flatten

/-- `l_hin_set_option (cache_key)`: the first string starts the hashes, the others continue them. -/
def lHinSetCacheKey (seed : UInt64) (args : CacheKeyArgs) : Key :=
  args.more.foldl (fun key str => basicHtHashContinue str key.1 key.2) (basicHtHash args.str seed)

/-- `hin_cache_get`. -/
def hinCacheGet (store : BasicHt ItemId) (key : Key) : Option ItemId :=
  (basicHtGetPair store key.1 key.2).bind Pair.value1

/-- What `hin_cache_save` does to the table: an item enters it under a key that is set and not there yet. -/
def cacheSave (store : BasicHt ItemId) (key : Key) (item : ItemId) : BasicHt ItemId :=
  if key.1 ||| key.2 = 0 then store
  else
    match hinCacheGet store key with
    | some _ => store
    | none => basicHtSetPair store key.1 key.2 (some item) none

/-- The lookup of `hin_cache_check`. -/
def cacheCheck (store : BasicHt ItemId) (key : Key) : Option ItemId :=
  if key.1 ||| key.2 = 0 then none else hinCacheGet store key

/-- What happens to the table: an item is saved, or the item of a key times out or fails. -/
inductive StoreOp where
  | save (args : CacheKeyArgs) (item : ItemId)
  | remove (args : CacheKeyArgs)

def StoreOp.args : StoreOp → CacheKeyArgs
  | save args _ => args
  | remove args => args

/-- One operation on the table of a store. -/
def storeStep (store : BasicHt ItemId) : StoreOp → BasicHt ItemId
  | .save args item => cacheSave store (lHinSetCacheKey store.seed args) item
  | .remove args => basicHtDeletePair store (lHinSetCacheKey store.seed args).1 (lHinSetCacheKey store.seed args).2

/-- The table of `hin_cache_create` with a seed, after the operations. -/
def storeAfter (seed : UInt64) (ops : List StoreOp) : Option (BasicHt ItemId) :=
  (basicHtInit 1024 seed).map fun store => ops.foldl storeStep store

/-! ## Lookups -/

theorem basicHtInit_1024 (seed : UInt64) : ∃ ht : BasicHt V, basicHtInit 1024 seed = some ht := by
  unfold basicHtInit
  rw [dif_neg (by decide), if_neg (by rw [isPowerOfTwo_1024]; decide)]
  exact ⟨_, rfl⟩

theorem httpdVhostGet_eq (ht : BasicHt V) (name : Bytes) :
    httpdVhostGet (some ht) name = (lookup ht (basicHtHash name ht.seed)).bind Prod.snd := by
  simp only [httpdVhostGet, lookup, Option.bind_some, Option.bind_map]
  rfl

/-- Adding a host to the table, or to the new one of the first call. -/
theorem httpdVhostAdd_eq (vhostHt : Option (BasicHt V)) (name : Bytes) (vhost : V)
    (hseed : ∀ ht, vhostHt = some ht → ht.seed = 101) :
    ∃ ht, httpdVhostAdd vhostHt name vhost = some ht ∧ ht.seed = 101 ∧
      ∀ other, httpdVhostGet (some ht) other =
        if basicHtHash name 101 = basicHtHash other 101 then some vhost else httpdVhostGet vhostHt other := by
  have hadd (ht : BasicHt V) (h : ht.seed = 101) (other : Bytes) :
      httpdVhostGet (some (basicHtSetPair ht (basicHtHash name ht.seed).1 (basicHtHash name ht.seed).2 none
        (some vhost))) other =
        if basicHtHash name 101 = basicHtHash other 101 then some vhost else httpdVhostGet (some ht) other := by
    rw [httpdVhostGet_eq, lookup_set, basicHtSetPair_seed, h, Function.update_apply, httpdVhostGet_eq, h]
    simp only [eq_comm (a := basicHtHash other 101)]
    split <;> rfl
  cases vhostHt with
  | some ht => exact ⟨_, rfl, hseed ht rfl, hadd ht (hseed ht rfl)⟩
  | none =>
      obtain ⟨ht, hht⟩ := basicHtInit_1024 (V := V) 101
      obtain ⟨h101, hempty⟩ := basicHtInit_spec hht
      have hnew : httpdVhostAdd none name vhost = some (basicHtSetPair ht (basicHtHash name ht.seed).1
          (basicHtHash name ht.seed).2 none (some vhost)) := by
        rw [httpdVhostAdd, Option.none_or, basicHtCreate, hht]
        rfl
      refine ⟨_, hnew, h101, fun other => ?_⟩
      rw [hadd ht h101 other, httpdVhostGet_eq, hempty]
      rfl

/-- **A host lookup answers for the hash pair**, with the host added last under it. -/
theorem httpdVhostGet_addHosts (hosts : List (Bytes × V)) (name : Bytes) :
    httpdVhostGet (addHosts hosts) name =
      (hosts.reverse.find? fun host => basicHtHash host.1 101 = basicHtHash name 101).map Prod.snd := by
  have hrun : (∀ ht, addHosts hosts = some ht → ht.seed = 101) ∧ httpdVhostGet (addHosts hosts) name =
      (hosts.reverse.find? fun host => basicHtHash host.1 101 = basicHtHash name 101).map Prod.snd := by
    induction hosts using List.reverseRecOn with
    | nil => exact ⟨fun ht h => absurd h (by simp [addHosts]), rfl⟩
    | append_singleton hosts host ih =>
        obtain ⟨ht, hadd, hseed, hget⟩ := httpdVhostAdd_eq (addHosts hosts) host.1 host.2 ih.1
        have hsnoc : addHosts (hosts ++ [host]) = some ht := by
          rw [addHosts, List.foldl_append]
          exact hadd
        refine ⟨fun ht' h => by rw [← Option.some.inj (hsnoc.symm.trans h)]; exact hseed, ?_⟩
        rw [hsnoc, hget, List.reverse_append, List.reverse_singleton, List.singleton_append, List.find?_cons, ih.2]
        by_cases h : basicHtHash host.1 101 = basicHtHash name 101
        · rw [if_pos h, decide_eq_true h]
          rfl
        · rw [if_neg h, decide_eq_false h]
  exact hrun.2

/-- Several strings make the key of their concatenation. -/
theorem lHinSetCacheKey_eq (seed : UInt64) (args : CacheKeyArgs) :
    lHinSetCacheKey seed args = basicHtHash args.text seed := by
  have hcont (more : List Bytes) (str : Bytes) :
      more.foldl (fun key str => basicHtHashContinue str key.1 key.2) (basicHtHash str seed) =
        basicHtHash (str ++ more.flatten) seed := by
    induction more generalizing str with
    | nil => simp
    | cons next more ih =>
        rw [List.foldl_cons, List.flatten_cons, ← List.append_assoc, ← ih (str ++ next)]
        congr 1
        exact (hashContinue_append str next _ _).symm
  exact hcont args.more args.str

/-- The table of a store as the map the cache is modelled with. -/
def tableOf (store : BasicHt ItemId) : Key → Option ItemId := hinCacheGet store

theorem tableOf_eq (store : BasicHt ItemId) (key : Key) : tableOf store key = (lookup store key).bind Prod.fst := by
  simp only [tableOf, hinCacheGet, lookup, Option.bind_map]
  rfl

/-- **Storing an item is the update of the cache model.** -/
theorem tableOf_set (store : BasicHt ItemId) (key : Key) (item : ItemId) :
    tableOf (basicHtSetPair store key.1 key.2 (some item) none) = Function.update (tableOf store) key (some item) := by
  funext k
  rw [tableOf_eq, lookup_set, Function.update_apply, Function.update_apply, tableOf_eq]
  split <;> rfl

/-- **Deleting a pair is the update of the cache model.** -/
theorem tableOf_delete (store : BasicHt ItemId) (key : Key) :
    tableOf (basicHtDeletePair store key.1 key.2) = Function.update (tableOf store) key none := by
  funext k
  rw [tableOf_eq, lookup_delete, Function.update_apply, Function.update_apply, tableOf_eq]
  split <;> rfl

theorem storeStep_seed (store : BasicHt ItemId) (op : StoreOp) : (storeStep store op).seed = store.seed := by
  cases op with
  | save args item =>
      simp only [storeStep, cacheSave]
      split
      · rfl
      · split <;> rfl
  | remove args => rfl

/-- What one operation does to the keys of the table. -/
theorem storeStep_spec (store : BasicHt ItemId) (op : StoreOp) (key : Key) (hkey : key.1 ||| key.2 ≠ 0) :
    (cacheCheck (storeStep store op) key).isSome ↔
      match op with
      | .save args _ => lHinSetCacheKey store.seed args = key ∨ (cacheCheck store key).isSome
      | .remove args => lHinSetCacheKey store.seed args ≠ key ∧ (cacheCheck store key).isSome := by
  have hcheck (store : BasicHt ItemId) : cacheCheck store key = tableOf store key := if_neg hkey
  rw [hcheck, hcheck]
  cases op with
  | save args item =>
      generalize hk : lHinSetCacheKey store.seed args = k
      simp only [storeStep, hk, cacheSave]
      split
      · rename_i hzero
        exact ⟨.inr, fun h => h.resolve_left fun he => hkey (he ▸ hzero)⟩
      · split
        · rename_i i hget
          exact ⟨.inr, fun h => h.elim (fun he => by rw [← he, tableOf, hget]; rfl) id⟩
        · rw [tableOf_set, Function.update_apply]
          by_cases he : k = key
          · simp [he]
          · simp [he, eq_comm (a := key)]
  | remove args =>
      generalize hk : lHinSetCacheKey store.seed args = k
      simp only [storeStep, hk]
      rw [tableOf_delete, Function.update_apply]
      by_cases he : k = key
      · simp [he]
      · simp [he, eq_comm (a := key)]

/-- The operations leave an item under a key: one was saved under it, and nothing removed it since. -/
def SavedUnder (seed : UInt64) (key : Key) (ops : List StoreOp) : Prop :=
  ∃ before args item after, ops = before ++ .save args item :: after ∧ lHinSetCacheKey seed args = key ∧
    ∀ args', .remove args' ∈ after → lHinSetCacheKey seed args' ≠ key

theorem savedUnder_nil (seed : UInt64) (key : Key) : ¬ SavedUnder seed key [] := by
  rintro ⟨before, args, item, after, h, -⟩
  exact absurd h (by simp)

/-- One more operation: a save under the key, or an item left by the others and not removed by this one. -/
theorem savedUnder_snoc (seed : UInt64) (key : Key) (ops : List StoreOp) (op : StoreOp) :
    SavedUnder seed key (ops ++ [op]) ↔
      match op with
      | .save args _ => lHinSetCacheKey seed args = key ∨ SavedUnder seed key ops
      | .remove args => lHinSetCacheKey seed args ≠ key ∧ SavedUnder seed key ops := by
  have hold (keeps : ∀ args', op = .remove args' → lHinSetCacheKey seed args' ≠ key)
      (h : SavedUnder seed key ops) : SavedUnder seed key (ops ++ [op]) := by
    obtain ⟨before, args, item, after, rfl, hk, hafter⟩ := h
    refine ⟨before, args, item, after ++ [op], by simp, hk, fun args' hm => ?_⟩
    rcases List.mem_append.mp hm with hm | hm
    · exact hafter args' hm
    · exact keeps args' (List.mem_singleton.mp hm).symm
  have hnew (h : SavedUnder seed key (ops ++ [op])) :
      (∃ args item, op = .save args item ∧ lHinSetCacheKey seed args = key) ∨
        (∀ args', op = .remove args' → lHinSetCacheKey seed args' ≠ key) ∧ SavedUnder seed key ops := by
    obtain ⟨before, args, item, after, heq, hk, hafter⟩ := h
    -- Either the save is the last operation, or the last one is among those after it.
    rcases List.eq_nil_or_concat after with rfl | ⟨after, last, rfl⟩
    · obtain ⟨-, hlast⟩ := List.append_inj' heq rfl
      exact .inl ⟨args, item, by simpa using hlast, hk⟩
    · rw [List.concat_eq_append, ← List.cons_append, ← List.append_assoc] at heq
      obtain ⟨hops, hlast⟩ := List.append_inj' heq rfl
      obtain rfl : op = last := by simpa using hlast
      exact .inr ⟨fun args' ho => hafter args' (by simp [ho]),
        before, args, item, after, hops, hk, fun args' hm => hafter args' (by simp [hm])⟩
  cases op with
  | save args item =>
      constructor
      · intro h
        rcases hnew h with ⟨args', item', he, hk⟩ | ⟨-, h⟩
        · obtain ⟨rfl, -⟩ := StoreOp.save.inj he
          exact .inl hk
        · exact .inr h
      · rintro (hk | h)
        · exact ⟨ops, args, item, [], rfl, hk, fun args' hm => absurd hm List.not_mem_nil⟩
        · exact hold (fun args' he => nomatch he) h
  | remove args =>
      constructor
      · intro h
        rcases hnew h with ⟨args', item', he, -⟩ | ⟨hne, h⟩
        · exact nomatch he
        · exact ⟨hne args rfl, h⟩
      · rintro ⟨hne, h⟩
        exact hold (fun args' he => StoreOp.remove.inj he ▸ hne) h

theorem foldl_storeStep_seed (ops : List StoreOp) (store : BasicHt ItemId) :
    (ops.foldl storeStep store).seed = store.seed := by
  induction ops generalizing store with
  | nil => rfl
  | cons op ops ih => exact (ih (storeStep store op)).trans (storeStep_seed store op)

/-- **A cache lookup answers for the hash pair**: it succeeds exactly when the pair is not zero and an item saved
    under it is still there. -/
theorem cacheCheck_storeAfter {seed : UInt64} {ops : List StoreOp} {store : BasicHt ItemId}
    (h : storeAfter seed ops = some store) (key : Key) :
    (cacheCheck store key).isSome ↔ key.1 ||| key.2 ≠ 0 ∧ SavedUnder seed key ops := by
  obtain ⟨empty, hinit, rfl⟩ := Option.map_eq_some_iff.mp h
  obtain ⟨hseed, hempty⟩ := basicHtInit_spec hinit
  clear h
  by_cases hkey : key.1 ||| key.2 = 0
  · simp [cacheCheck, hkey]
  · rw [and_iff_right hkey]
    induction ops using List.reverseRecOn with
    | nil =>
        have hnone : cacheCheck empty key = none := by
          rw [cacheCheck, if_neg hkey, ← tableOf, tableOf_eq, hempty]
          rfl
        simp [hnone, savedUnder_nil]
    | append_singleton ops op ih =>
        rw [List.foldl_append, List.foldl_cons, List.foldl_nil, storeStep_spec _ _ _ hkey, foldl_storeStep_seed,
          hseed, savedUnder_snoc]
        cases op with
        | save args item => exact or_congr Iff.rfl ih
        | remove args => exact and_congr Iff.rfl ih

/-! ## Names and hash pairs -/

/-- **Names are looked up by their hash pair.** A host lookup gives the host added last under the pair of the
    name; a cache lookup succeeds exactly when an item saved under the key's pair is still there. Host names of at
    most eleven bytes, and key strings of one length and at most twelve bytes under any seed, are never confused;
    and strings of one length that are confused under one seed are confused under every seed. -/
theorem looked_up_by_hash :
    (∀ (hosts : List (Bytes × V)) (name : Bytes),
      httpdVhostGet (addHosts hosts) name =
        (hosts.reverse.find? fun host => basicHtHash host.1 101 = basicHtHash name 101).map Prod.snd ∧
      ((∀ host ∈ hosts, host.1.length ≤ 11) → name.length ≤ 11 →
        (httpdVhostGet (addHosts hosts) name).isSome → ∃ host ∈ hosts, host.1 = name)) ∧
    (∀ (seed : UInt64) (ops : List StoreOp), ∃ store, storeAfter seed ops = some store ∧
      ∀ args : CacheKeyArgs,
        ((cacheCheck store (lHinSetCacheKey seed args)).isSome ↔
          (basicHtHash args.text seed).1 ||| (basicHtHash args.text seed).2 ≠ 0 ∧
          SavedUnder seed (basicHtHash args.text seed) ops) ∧
        ((∀ op ∈ ops, op.args.text.length = args.text.length) → args.text.length ≤ 12 →
          (cacheCheck store (lHinSetCacheKey seed args)).isSome →
          ∃ op ∈ ops, op.args.text = args.text)) ∧
    (∀ (s t : Bytes) (seed seed' : UInt64), s.length = t.length →
      (basicHtHash s seed = basicHtHash t seed ↔ basicHtHash s seed' = basicHtHash t seed')) := by
  refine ⟨fun hosts name => ⟨httpdVhostGet_addHosts hosts name, fun hshort hname hsome => ?_⟩,
    fun seed ops => ?_, fun s t seed seed' h => hash_eq_seed h seed seed'⟩
  · rw [httpdVhostGet_addHosts, Option.isSome_map, List.find?_isSome] at hsome
    obtain ⟨host, hm, heq⟩ := hsome
    have hin : host ∈ hosts := List.mem_reverse.mp hm
    have heq : basicHtHash host.1 101 = basicHtHash name 101 := of_decide_eq_true heq
    have hlen := hash_length_short (hshort host hin) hname heq
    exact ⟨host, hin, hash_injective_short hlen (by have := hshort host hin; omega) heq⟩
  · obtain ⟨empty, hinit⟩ := basicHtInit_1024 (V := ItemId) seed
    have hstore : storeAfter seed ops = some (ops.foldl storeStep empty) := by rw [storeAfter, hinit]; rfl
    refine ⟨_, hstore, fun args => ⟨?_, fun hlen h12 hsome => ?_⟩⟩
    · rw [lHinSetCacheKey_eq]
      exact cacheCheck_storeAfter hstore _
    · obtain ⟨-, before, args', item, after, rfl, hkey, -⟩ := (cacheCheck_storeAfter hstore _).mp hsome
      have hm : StoreOp.save args' item ∈ before ++ .save args' item :: after := by simp
      rw [lHinSetCacheKey_eq, lHinSetCacheKey_eq] at hkey
      have hlen' := hlen _ hm
      exact ⟨_, hm, hash_injective_short hlen' (hlen'.trans_le h12) hkey⟩

/-- Two host names of 24 letters. -/
def storedName : Bytes := bytes "fdqaaaaacashfaaafpigaaaa"
def otherName : Bytes := bytes "aaafoekpaqaaabaaaaaadbqf"

/-- **Two names no seed tells apart.** The second name is answered with the first one's host, and under every seed
    (that does not make their pair zero) the second key with the first one's item. -/
theorem names_confused : storedName ≠ otherName ∧
    httpdVhostGet (addHosts [(storedName, 7)]) otherName = some 7 ∧
    ∀ seed : UInt64, basicHtHash storedName seed = basicHtHash otherName seed ∧
      ∀ store, storeAfter seed [.save { str := storedName } 7] = some store →
        (basicHtHash storedName seed).1 ||| (basicHtHash storedName seed).2 ≠ 0 →
        (cacheCheck store (lHinSetCacheKey seed { str := otherName })).isSome := by
  have h101 : basicHtHash storedName 101 = basicHtHash otherName 101 := by decide +kernel
  have hall (seed : UInt64) : basicHtHash storedName seed = basicHtHash otherName seed :=
    (hash_eq_seed (by decide) 101 seed).mp h101
  refine ⟨by decide, ?_, fun seed => ⟨hall seed, fun store hstore hnz => ?_⟩⟩
  · rw [httpdVhostGet_addHosts]
    simp [h101]
  · have hkey : lHinSetCacheKey seed { str := otherName } = basicHtHash storedName seed := (hall seed).symm
    rw [cacheCheck_storeAfter hstore, hkey]
    exact ⟨hnz, [], { str := storedName }, 7, [], rfl, rfl, fun args hm => absurd hm List.not_mem_nil⟩

end Http
end Hin9
