import Hin9.Http.CacheFrame

/-!
# `Http.CacheRefs` — the reference counters and the size of the local cache

`Books s i d` is what every operation of the cache keeps, at its start, at its end and in between: each counter
equals the number of holders, off by `d` for the one item `i` that is being worked on, an item is freed exactly
when its counter is `0`, and `store->size` is the sum over the completed items of the table. One lemma says what
`hin_cache_unref` does to the books, one what serving a client does, and the steps are put together from them.
-/

namespace Hin9
namespace Http

/-! ## Holders -/

namespace Cache

variable (s : Cache)

/-- The number of references to an item: the table's, one for each queued client and one for each response. -/
def holders (i : ItemId) : Int :=
  (if s.Listed i then 1 else 0) + (s.items i).clientQueue.length + s.sends i

/-- What an item adds to `store->size`: its size once it is completed, as long as the table holds it. -/
def share (i : ItemId) : Int := if s.Listed i ∧ (s.items i).done = true then (s.items i).size else 0

/-- The sum of the sizes of the completed items in the table. -/
def completed : Int := ∑ i ∈ Finset.range s.next, s.share i

end Cache

/-- **The books.** The counters are right but for `d` at the item `i`. -/
structure Books (s : Cache) (i : ItemId) (d : Int) : Prop where
  refs : ∀ j < s.next, (s.items j).refcount = s.holders j + if j = i then d else 0
  freed : ∀ j < s.next, ((s.items j).freed = true ↔ (s.items j).refcount = 0)
  size : s.size = s.completed
  table : ∀ k j, s.ht k = some j → j < s.next ∧ (s.items j).key = k
  sending : ∀ p ∈ s.sending, p.item < s.next
  timers : s.timers.Nodup ∧ ∀ j ∈ s.timers, j < s.next
  unfinished : ∀ j < s.next, (s.items j).done = false → (s.items j).size = 0
  generating : ∀ j pipe, s.generating j = some pipe →
    j < s.next ∧ (s.items j).done = false ∧ (s.items j).error = false

theorem Books.shift {s : Cache} {i : ItemId} (h : Books s i 0) (j : ItemId) : Books s j 0 :=
  { h with refs := fun k hk => by simpa using h.refs k hk }

/-- The disk, the clients and the record of the past are not in the books. -/
theorem Books.aside {s : Cache} {i : ItemId} {d : Int} (h : Books s i d) (disk : Disk)
    (clients : ClientId → HttpdClient) (history : History) :
    Books { s with disk := disk, clients := clients, history := history } i d :=
  ⟨h.refs, h.freed, h.size, h.table, h.sending, h.timers, h.unfinished, h.generating⟩

theorem holders_nonneg (s : Cache) (i : ItemId) : 0 ≤ s.holders i := by
  unfold Cache.holders
  split <;> omega

theorem queue_le_holders (s : Cache) (i : ItemId) : ((s.items i).clientQueue.length : Int) ≤ s.holders i := by
  unfold Cache.holders
  split <;> omega

/-- A sum over the items changes by what its one changed term changes by. -/
theorem completed_change (s s' : Cache) {i : ItemId} (hi : i < s.next) (hn : s'.next = s.next)
    (hne : ∀ j < s.next, j ≠ i → s'.share j = s.share j) :
    s'.completed = s.completed + (s'.share i - s.share i) := by
  unfold Cache.completed
  rw [hn, ← Finset.add_sum_erase _ s'.share (Finset.mem_range.mpr hi),
    ← Finset.add_sum_erase _ s.share (Finset.mem_range.mpr hi)]
  have hsum : ∑ j ∈ (Finset.range s.next).erase i, s'.share j = ∑ j ∈ (Finset.range s.next).erase i, s.share j :=
    Finset.sum_congr rfl fun j hj =>
      hne j (Finset.mem_range.mp (Finset.mem_of_mem_erase hj)) (Finset.ne_of_mem_erase hj)
  rw [hsum]
  ring

/-! ## Work on one item -/

namespace Touches

variable {s s' : Cache} {i : ItemId}

theorem holders (h : Touches s s' i) {j : ItemId} (hj : j ≠ i) : s'.holders j = s.holders j := by
  unfold Cache.holders
  simp only [h.listed j, h.items j hj, h.sends j hj]

theorem share (h : Touches s s' i) {j : ItemId} (hj : j ≠ i) : s'.share j = s.share j := by
  unfold Cache.share
  simp only [h.listed j, h.items j hj]

end Touches

/-- **The rule for work on one item.** The books stay right if they are right at the item itself. -/
theorem Books.update {s s' : Cache} {i : ItemId} {d d' : Int} (h : Books s i d) (hi : i < s.next)
    (t : Touches s s' i) (hrefs : (s'.items i).refcount = s'.holders i + d')
    (hfreed : (s'.items i).freed = true ↔ (s'.items i).refcount = 0)
    (hsize : s'.size = s.size + (s'.share i - s.share i))
    (hunf : (s'.items i).done = false → (s'.items i).size = 0)
    (hgen : ∀ pipe, s'.generating i = some pipe → (s'.items i).done = false ∧ (s'.items i).error = false) :
    Books s' i d' := by
  refine ⟨?_, ?_, ?_, ?_, ?_, ?_, ?_, ?_⟩
  · intro j hj
    by_cases hji : j = i
    · subst hji
      simpa using hrefs
    · rw [t.items j hji, t.holders hji]
      simpa [hji] using h.refs j (t.next ▸ hj)
  · intro j hj
    by_cases hji : j = i
    · subst hji
      exact hfreed
    · rw [t.items j hji]
      exact h.freed j (t.next ▸ hj)
  · rw [hsize, h.size, completed_change s s' hi t.next fun j _ hj => t.share hj]
  · intro k j hk
    rw [t.ht] at hk
    rw [t.next, t.keys j]
    exact h.table k j hk
  · intro p hp
    rw [t.next]
    rcases t.sending p hp with hp | hp
    · exact h.sending p hp
    · rw [hp]; exact hi
  · rw [t.next]
    exact ⟨h.timers.1.sublist t.timers, fun j hj => h.timers.2 j (t.timers.subset hj)⟩
  · intro j hj
    by_cases hji : j = i
    · subst hji
      exact hunf
    · rw [t.items j hji]
      exact h.unfinished j (t.next ▸ hj)
  · intro j pipe hg
    have hold := h.generating j pipe (t.generating j pipe hg)
    rw [t.next]
    by_cases hji : j = i
    · subst hji
      exact ⟨hi, hgen pipe hg⟩
    · rw [t.items j hji]
      exact hold

/-- **Changing a record.** What the counter of an item gains beyond its queue goes to the account of the item. -/
theorem setItem_books {s : Cache} {i : ItemId} {d : Int} (e : Int) (item : CacheItem) (h : Books s i d)
    (hi : i < s.next)
    (hkey : item.key = (s.items i).key) (hdone : item.done = (s.items i).done)
    (hsize : item.size = (s.items i).size)
    (hrefs : item.refcount - item.clientQueue.length =
      (s.items i).refcount - (s.items i).clientQueue.length + e)
    (hfreed : item.freed = true ↔ item.refcount = 0)
    (herr : item.error = (s.items i).error ∨ s.generating i = none) : Books (s.setItem i item) i (d + e) := by
  have t := touches_setItem s i item hkey
  have hitem : (s.setItem i item).items i = item := Function.update_self _ _ _
  have hr := h.refs i hi
  have hshare : (s.setItem i item).share i = s.share i := by
    unfold Cache.share
    simp only [t.listed i, hitem, hdone, hsize]
  refine h.update hi t ?_ ?_ ?_ ?_ ?_
  · unfold Cache.holders at hr ⊢
    simp only [t.listed i, hitem, if_true] at hr ⊢
    change item.refcount = _ + _ + (s.sends i : Int) + _
    omega
  · rw [hitem]
    exact hfreed
  · rw [hshare]
    show s.size = _
    omega
  · rw [hitem, hdone, hsize]
    exact h.unfinished i hi
  · intro p hp
    have hg := (h.generating i p hp).2
    rw [hitem, hdone]
    rcases herr with herr | hnone
    · rw [herr]; exact hg
    · exact absurd (show s.generating i = some p from hp) (by rw [hnone]; simp)

/-! ## `hin_cache_unref` -/

/-- **Dropping a reference.** With at least one reference counted, and nobody queued when it is the last one,
    the counter of the item falls by one and nothing else in the books changes. -/
theorem hinCacheUnref_books {s : Cache} {i : ItemId} {d : Int} (h : Books s i d) (hi : i < s.next)
    (hpos : 1 ≤ (s.items i).refcount) (hlast : (s.items i).refcount = 1 → (s.items i).clientQueue = []) :
    Books (hinCacheUnref s i) i (d - 1) := by
  have t := touches_hinCacheUnref s i
  have hr := h.refs i hi
  have hf := h.freed i hi
  -- the fields of the item that the books read, apart from the counter and `freed`
  have hitem : ((hinCacheUnref s i).items i).clientQueue = (s.items i).clientQueue ∧
      ((hinCacheUnref s i).items i).done = (s.items i).done ∧
      ((hinCacheUnref s i).items i).error = (s.items i).error ∧
      ((hinCacheUnref s i).items i).size = (s.items i).size := by
    rw [hinCacheUnref_items, Function.update_self]
    by_cases h1 : (s.items i).refcount = 1
    · simp [h1, hlast h1]
    · simp [h1]
  have hhold : (hinCacheUnref s i).holders i = s.holders i := by
    unfold Cache.holders Cache.sends
    simp only [t.listed i, hitem.1, hinCacheUnref_sending]
  have hshare : (hinCacheUnref s i).share i = s.share i := by
    unfold Cache.share
    simp only [t.listed i, hitem.2.1, hitem.2.2.2]
  have hcount : ((hinCacheUnref s i).items i).refcount = (s.items i).refcount - 1 ∧
      (((hinCacheUnref s i).items i).freed = true ↔ (s.items i).refcount = 1) := by
    rw [hinCacheUnref_items, Function.update_self]
    by_cases h1 : (s.items i).refcount = 1
    · simp [h1]
    · -- the counter stays above zero, so the item was not freed and is not
      have h0 : ¬ (s.items i).refcount = 0 := by omega
      simp only [h1, if_false, true_and, iff_false]
      exact fun hfr => h0 (hf.mp hfr)
  simp only [if_true] at hr
  refine h.update hi t ?_ ?_ ?_ ?_ ?_
  · rw [hcount.1, hhold]; omega
  · rw [hcount.2, hcount.1]; omega
  · rw [hinCacheUnref_size, hshare]; omega
  · rw [hitem.2.1, hitem.2.2.2]; exact h.unfinished i hi
  · intro pipe hg
    rw [hinCacheUnref_generating] at hg
    rw [hitem.2.1, hitem.2.2.1]
    exact (h.generating i pipe hg).2

/-! ## Serving -/

/-- The record of a call changes no counter. -/
theorem recordServed_books {s : Cache} {i : ItemId} {d : Int} (h : Books s i d) (c : ClientId) (now : Int) :
    Books (recordServed s c i now) i d :=
  h.aside _ _ _

/-- **Serving a client.** Where at least two references are counted and the range fits, one reference of the
    item goes to the response or is given back, and the item is not freed. -/
theorem hinCacheServeClient_books {s : Cache} {i : ItemId} {d : Int} (c : ClientId) (now : Int) (accepts : Bool)
    (h : Books s i d) (hi : i < s.next) (hrc : 2 ≤ (s.items i).refcount)
    (hfit : RangeFits (s.clients c) (s.items i).size) :
    Books (hinCacheServeClient s c i now accepts) i (d - 1) ∧
      Touches s (hinCacheServeClient s c i now accepts) i ∧
      ∃ n, (hinCacheServeClient s c i now accepts).items i = { s.items i with refcount := n } ∧
        (s.items i).refcount - 1 ≤ n := by
  have hsome : (answer s c i now).2.isSome = true := httpdSendFile_isSome rfl hfit
  obtain ⟨r, hr⟩ := Option.isSome_iff_exists.mp hsome
  have hb := recordServed_books h c now
  have ht := touches_recordServed s c i now
  rw [hinCacheServeClient_some hr]
  cases accepts with
  | true =>
      have t := (quiet_send (recordServed s c i now) ⟨r, c, i⟩).toTouches
      refine ⟨hb.update hi t ?_ (hb.freed i hi) ?_ (hb.unfinished i hi) fun pipe hg => (hb.generating i pipe hg).2,
        ht.trans t, (s.items i).refcount, rfl, by omega⟩
      · have hrefs := hb.refs i hi
        have hsends : Cache.sends { recordServed s c i now with sending := ⟨r, c, i⟩ :: s.sending } i
            = (recordServed s c i now).sends i + 1 := by
          unfold Cache.sends
          simp only [List.countP_cons, decide_true, if_true]
          rfl
        simp only [if_true] at hrefs ⊢
        unfold Cache.holders at hrefs ⊢
        rw [hsends]
        push_cast
        change (s.items i).refcount = _ at hrefs
        change (s.items i).refcount = (if s.Listed i then 1 else 0) + _ + _ + _
        change _ = (if s.Listed i then 1 else 0) + _ + _ + _ at hrefs
        omega
      · change s.size = s.size + (s.share i - s.share i)
        omega
  | false =>
      have h1 : (recordServed s c i now).items i = s.items i := rfl
      refine ⟨hinCacheUnref_books hb hi ?_ ?_, ht.trans (touches_hinCacheUnref _ i), (s.items i).refcount - 1, ?_,
        le_refl _⟩
      · rw [h1]; omega
      · rw [h1]; omega
      · have hne : ((recordServed s c i now).items i).refcount ≠ 1 := by rw [h1]; omega
        simp only [Bool.false_eq_true, if_false]
        rw [hinCacheUnref_eq _ i hne, h1]
        simp [Cache.setItem]

/-! ## The queue loops -/

/-- **The loop of the finish callback.** Every queued client's reference goes to its response or is given back,
    and the table's reference keeps the item alive through the whole loop. -/
theorem serveQueue_books (i : ItemId) (now : Int) (accepts : ClientId → Bool) (q : List ClientId) {s : Cache}
    {d : Int} (h : Books s i d) (hi : i < s.next) (hrc : (q.length : Int) + 1 ≤ (s.items i).refcount)
    (hfit : ∀ c ∈ q, RangeFits (s.clients c) (s.items i).size) :
    Books (serveQueue i now accepts q s) i (d - q.length) ∧ Touches s (serveQueue i now accepts q s) i ∧
      ∃ n, (serveQueue i now accepts q s).items i = { s.items i with refcount := n } := by
  induction q generalizing s d with
  | nil =>
      refine ⟨by simpa [serveQueue] using h, Touches.refl s i, (s.items i).refcount, rfl⟩
  | cons c q ih =>
      rw [List.length_cons] at hrc
      push_cast at hrc
      obtain ⟨hb, ht, n, hn, hle⟩ := hinCacheServeClient_books c now (accepts c) h hi
        (by omega) (hfit c List.mem_cons_self)
      -- the clients still queued ask for the same ranges as before
      have hclients : ∀ c' ∈ q, RangeFits
          ((hinCacheServeClient s c i now (accepts c)).clients c') (s.items i).size := by
        intro c' hc'
        have hold := hfit c' (List.mem_cons_of_mem c hc')
        have heq : (hinCacheServeClient s c i now (accepts c)).clients = (recordServed s c i now).clients := by
          unfold hinCacheServeClient
          cases (answer s c i now).2 with
          | none => rfl
          | some r => cases accepts c <;> simp [doneFile]
        rw [heq]
        by_cases hcc : c' = c
        · subst hcc
          simp only [recordServed, Cache.setClient, Function.update_self]
          exact rangeFits_httpdSendFile (s.items i).toFileItem rfl hold
        · simpa [recordServed, Cache.setClient, hcc] using hold
      have hb' : Books (release (hinCacheServeClient s c i now (accepts c)) c i) i (d - 1) := hb.aside _ _ _
      have hitem : (release (hinCacheServeClient s c i now (accepts c)) c i).items i
          = { s.items i with refcount := n } := hn
      obtain ⟨hb'', ht'', m, hm⟩ := ih hb' (show i < _ from ht.next ▸ hi)
        (by rw [hitem]; show (q.length : Int) + 1 ≤ n; omega)
        (by rw [hitem]; exact hclients)
      refine ⟨?_, ?_, m, ?_⟩
      · rw [List.length_cons]
        push_cast
        have hd : d - ((q.length : Int) + 1) = d - 1 - q.length := by omega
        rw [hd]
        exact hb''
      · exact (ht.trans (touches_release _ c i)).trans ht''
      · rw [serveQueue, hm, hitem]

/-- **The loop of the error callback.** Every queued client's reference is dropped. -/
theorem unrefQueue_books (i : ItemId) (q : List ClientId) {s : Cache} {d : Int} (h : Books s i d)
    (hi : i < s.next) (hrc : (q.length : Int) + 1 ≤ (s.items i).refcount) :
    Books (unrefQueue i q s) i (d - q.length) ∧ Touches s (unrefQueue i q s) i ∧
      ∃ n, (unrefQueue i q s).items i = { s.items i with refcount := n } := by
  induction q generalizing s d with
  | nil =>
      refine ⟨by simpa [unrefQueue] using h, Touches.refl s i, (s.items i).refcount, rfl⟩
  | cons c q ih =>
      rw [List.length_cons] at hrc
      push_cast at hrc
      have hb' : Books (release s c i) i d := h.aside _ _ _
      have h2 : ((release s c i).items i).refcount ≠ 1 := by show (s.items i).refcount ≠ 1; omega
      have hb := hinCacheUnref_books hb' hi (show 1 ≤ (s.items i).refcount by omega) fun h1 => absurd h1 h2
      have ht := touches_hinCacheUnref (release s c i) i
      have hitem : (hinCacheUnref (release s c i) i).items i
          = { s.items i with refcount := (s.items i).refcount - 1 } := by
        rw [hinCacheUnref_eq _ _ h2]
        simp [Cache.setItem, release]
      obtain ⟨hb'', ht'', m, hm⟩ := ih hb (show i < _ from ht.next ▸ hi)
        (by rw [hitem]; show (q.length : Int) + 1 ≤ (s.items i).refcount - 1; omega)
      refine ⟨?_, ?_, m, ?_⟩
      · rw [List.length_cons]
        push_cast
        have hd : d - ((q.length : Int) + 1) = d - 1 - q.length := by omega
        rw [hd]
        exact hb''
      · exact ((touches_release s c i).trans ht).trans ht''
      · rw [unrefQueue, hm, hitem]

/-! ## The functions of the cache -/

/-- **Leaving the table.** An item the table holds is one holder less when its key is deleted, and takes its
    share of `store->size` with it. -/
theorem Books.unlist {s : Cache} {i : ItemId} {d z : Int} (h : Books s i d) (hl : s.Listed i)
    (hsize : z = s.size - s.share i) : Books { s.deletePair i with size := z } i (d + 1) := by
  have hi : i < s.next := (h.table _ _ hl).1
  -- no other item is listed under this key
  have hlist : ∀ j, Cache.Listed { s.deletePair i with size := z } j ↔ s.Listed j ∧ j ≠ i := by
    intro j
    unfold Cache.Listed Cache.deletePair
    dsimp only
    rw [Function.update_apply]
    by_cases hk : (s.items j).key = (s.items i).key
    · simp only [hk, if_true, reduceCtorEq, false_iff, not_and, not_not]
      intro hj
      exact Option.some.inj (hj.symm.trans hl)
    · simp only [hk, if_false, iff_self_and]
      intro _ hji
      exact hk (by rw [hji])
  have hhold : ∀ j, Cache.holders { s.deletePair i with size := z } j =
      s.holders j - if j = i then 1 else 0 := by
    intro j
    unfold Cache.holders
    simp only [hlist]
    change (if s.Listed j ∧ j ≠ i then (1 : Int) else 0) + (s.items j).clientQueue.length + s.sends j = _
    by_cases hji : j = i
    · subst hji
      simp only [hl, ne_eq, not_true_eq_false, and_false, if_false, if_true]
      omega
    · simp only [hji, ne_eq, not_false_eq_true, and_true, if_false, sub_zero]
  have hshare : ∀ j, Cache.share { s.deletePair i with size := z } j = if j = i then 0 else s.share j := by
    intro j
    unfold Cache.share
    simp only [hlist]
    by_cases hji : j = i
    · simp [hji]
    · simp only [hji, ne_eq, not_false_eq_true, and_true, if_false]
      rfl
  refine ⟨?_, h.freed, ?_, ?_, h.sending, h.timers, h.unfinished, h.generating⟩
  · intro j hj
    have hr := h.refs j hj
    rw [hhold]
    show (s.items j).refcount = _
    by_cases hji : j = i
    · simp only [hji, if_true] at hr ⊢
      omega
    · simp only [hji, if_false] at hr ⊢
      omega
  · have hchange := completed_change s { s.deletePair i with size := z } hi rfl
      fun j _ hj => by rw [hshare, if_neg hj]
    rw [hchange, hshare, if_pos rfl, ← h.size]
    show z = _
    omega
  · intro k j hk
    change Function.update s.ht (s.items i).key none k = some j at hk
    rw [Function.update_apply] at hk
    split at hk
    · exact absurd hk (by simp)
    · exact h.table k j hk

/-- `hin_cache_remove` of an item the table holds. -/
theorem hinCacheRemove_books {s : Cache} {i : ItemId} (h : Books s i 0) (hl : s.Listed i) :
    Books (hinCacheRemove s i) i 0 := by
  have hi : i < s.next := (h.table _ _ hl).1
  have hr := h.refs i hi
  have hq := queue_le_holders s i
  -- an item that is not completed still has size `0`
  have hshare : ((s.items i).size : Int) = s.share i := by
    unfold Cache.share
    cases hd : (s.items i).done with
    | true => simp [hl]
    | false => simp [h.unfinished i hi hd]
  have hhold : s.holders i = 1 + (s.items i).clientQueue.length + s.sends i := by
    unfold Cache.holders
    rw [if_pos hl]
  have hb := h.unlist hl (z := s.size - (s.items i).size) (by rw [hshare])
  simp only [if_true] at hr
  refine hinCacheUnref_books hb hi ?_ ?_
  · show 1 ≤ (s.items i).refcount
    omega
  · intro h1
    change (s.items i).refcount = 1 at h1
    show (s.items i).clientQueue = []
    exact List.eq_nil_of_length_eq_zero (by omega)

/-- `done_file` on a response that holds an item. -/
theorem doneFile_books {s : Cache} {pipe : FilePipe} (h : Books s pipe.item 0) (hp : pipe ∈ s.sending) :
    Books (doneFile s pipe) pipe.item 0 := by
  have hi : pipe.item < s.next := h.sending pipe hp
  have hr := h.refs pipe.item hi
  have hcount := sends_erase hp
  have hpos := one_le_sends hp
  have hhold : s.holders pipe.item = (if s.Listed pipe.item then 1 else 0) +
      (s.items pipe.item).clientQueue.length + s.sends pipe.item := rfl
  have t : Touches s { s with sending := s.sending.erase pipe } pipe.item := by
    refine ⟨rfl, rfl, fun _ _ => rfl, rfl, ?_, fun p hp => Or.inl (List.mem_of_mem_erase hp),
      List.Sublist.refl _, fun _ _ hg => hg⟩
    intro j hj
    rw [hcount]
    simp [hj]
  have hb : Books { s with sending := s.sending.erase pipe } pipe.item (0 + 1) := by
    refine h.update hi t ?_ (h.freed _ hi) ?_ (h.unfinished _ hi) fun p hg => (h.generating _ p hg).2
    · unfold Cache.holders
      rw [hcount]
      change (s.items pipe.item).refcount = (if s.Listed pipe.item then 1 else 0) +
        ((s.items pipe.item).clientQueue.length : Int) + _ + _
      simp only [if_true] at hr ⊢
      omega
    · change s.size = s.size + (s.share pipe.item - s.share pipe.item)
      omega
  simp only [if_true] at hr
  refine hinCacheUnref_books hb hi ?_ ?_
  · show 1 ≤ (s.items pipe.item).refcount
    have : (0 : Int) ≤ if s.Listed pipe.item then 1 else 0 := by split <;> omega
    omega
  · intro h1
    change (s.items pipe.item).refcount = 1 at h1
    have : (0 : Int) ≤ if s.Listed pipe.item then 1 else 0 := by split <;> omega
    show (s.items pipe.item).clientQueue = []
    exact List.eq_nil_of_length_eq_zero (by omega)

/-- Emptying the queue takes its entries off the holders. -/
theorem emptyQueue_books {s : Cache} {i : ItemId} {d : Int} (h : Books s i d) (hi : i < s.next) :
    Books (emptyQueue s i) i (d + (s.items i).clientQueue.length) := by
  refine setItem_books _ _ h hi rfl rfl rfl ?_ (h.freed i hi) (Or.inl rfl)
  show (s.items i).refcount - (([] : List ClientId).length : Int) = _
  rw [List.length_nil]
  omega

/-- Completing an item of the table adds its size to `store->size` and to the sum. -/
theorem complete_books {s : Cache} {i : ItemId} {d : Int} (pipe : GenPipe) (now : Int) (h : Books s i d) (hl : s.Listed i)
    (hclosed : s.generating i = none) (hdone : (s.items i).done = false) :
    Books (complete s i pipe now) i d := by
  have hi : i < s.next := (h.table _ _ hl).1
  have hr := h.refs i hi
  have t := touches_complete s i pipe now
  have hitem : (complete s i pipe now).items i =
    { s.items i with size := pipe.count, etag := pipe.hash, done := true, modified := now } :=
      Function.update_self _ _ _
  have hold : s.share i = 0 := by
    unfold Cache.share
    simp [hdone]
  have hnew : (complete s i pipe now).share i = pipe.count := by
    unfold Cache.share
    simp only [t.listed i, hitem]
    simp [hl]
  refine h.update hi t ?_ ?_ ?_ ?_ ?_
  · unfold Cache.holders at hr ⊢
    simp only [t.listed i, hitem]
    show (s.items i).refcount = (if s.Listed i then 1 else 0) + ((s.items i).clientQueue.length : Int) + s.sends i + d
    simpa using hr
  · rw [hitem]
    exact h.freed i hi
  · rw [hnew, hold]
    show s.size + (pipe.count : Int) = _
    omega
  · rw [hitem]
    simp
  · intro p hp
    exact absurd (show s.generating i = some p from hp) (by rw [hclosed]; simp)

/-- **Finishing.** `hin_cache_finish` keeps the books of an item the table holds, if every queued client asks
    for a range that fits. -/
theorem hinCacheFinish_books {s : Cache} {i : ItemId} {pipe : GenPipe} {now : Int} {accepts : ClientId → Bool}
    (h : Books s i 0) (hl : s.Listed i) (hclosed : s.generating i = none) (hdone : (s.items i).done = false)
    (herr : (s.items i).error = false) (hfit : ∀ c ∈ (s.items i).clientQueue, RangeFits (s.clients c) pipe.count) :
    Books (hinCacheFinish s i pipe now accepts) i 0 := by
  have hi : i < s.next := (h.table _ _ hl).1
  have hr := h.refs i hi
  simp only [if_true, add_zero] at hr
  have hhold : s.holders i = 1 + (s.items i).clientQueue.length + s.sends i := by
    unfold Cache.holders
    rw [if_pos hl]
  have hitem : (complete s i pipe now).items i =
    { s.items i with size := pipe.count, etag := pipe.hash, done := true, modified := now } :=
      Function.update_self _ _ _
  obtain ⟨hb, ht, n, hn⟩ := serveQueue_books i now accepts (s.items i).clientQueue
    (complete_books pipe now h hl hclosed hdone) hi
    (by rw [hitem]; show _ ≤ (s.items i).refcount; omega) (by rw [hitem]; exact hfit)
  have hlast := emptyQueue_books hb (ht.next ▸ hi)
  have hlen : ((serveQueue i now accepts (s.items i).clientQueue (complete s i pipe now)).items i).clientQueue
      = (s.items i).clientQueue := by rw [hn, hitem]
  rw [hlen] at hlast
  unfold hinCacheFinish
  rw [herr, if_neg (by simp)]
  simpa using hlast

/-- **Failing.** A write error of the generating pipe drops the queued references, the table's entry and, when
    the pipe closes, the table's reference. -/
theorem hinCachePipeError_books {s : Cache} {i : ItemId} {pipe : GenPipe} {now : Int}
    (h : Books s i 0) (hl : s.Listed i) (hclosed : s.generating i = none) (hdone : (s.items i).done = false) :
    Books (hinCacheFinish (hinCachePipeErrorCallback s i) i pipe now fun _ => true) i 0 := by
  have hi : i < s.next := (h.table _ _ hl).1
  have hr := h.refs i hi
  simp only [if_true, add_zero] at hr
  have hhold : s.holders i = 1 + (s.items i).clientQueue.length + s.sends i := by
    unfold Cache.holders
    rw [if_pos hl]
  obtain ⟨hb, ht, n, hn⟩ := unrefQueue_books i (s.items i).clientQueue h hi (by omega)
  have h₁ := emptyQueue_books hb (ht.next ▸ hi)
  have hlen : ((unrefQueue i (s.items i).clientQueue s).items i).clientQueue = (s.items i).clientQueue := by rw [hn]
  rw [hlen] at h₁
  have hd : (0 : Int) - (s.items i).clientQueue.length + (s.items i).clientQueue.length = 0 := by omega
  rw [hd] at h₁
  obtain ⟨s₁, hs₁⟩ : ∃ s₁, s₁ = emptyQueue (unrefQueue i (s.items i).clientQueue s) i := ⟨_, rfl⟩
  have t₁ : Touches s s₁ i := by rw [hs₁]; exact ht.trans (touches_setItem _ i _ rfl)
  have hitem₁ : s₁.items i = { s.items i with refcount := n, clientQueue := [] } := by
    rw [hs₁]
    show Function.update _ i _ i = _
    rw [Function.update_self, hn]
  rw [← hs₁] at h₁
  have hi₁ : i < s₁.next := t₁.next ▸ hi
  have hnone : s₁.generating i = none := by
    cases hg : s₁.generating i with
    | none => rfl
    | some p => exact absurd (t₁.generating i p hg) (by rw [hclosed]; simp)
  have h₂ : Books (setError s₁ i) i 0 := by
    have h₂ := setItem_books 0 { s₁.items i with error := true } h₁ hi₁ rfl rfl rfl
      (by show (s₁.items i).refcount - ((s₁.items i).clientQueue.length : Int) = _; omega) (h₁.freed i hi₁) (Or.inr hnone)
    rwa [add_zero] at h₂
  have hitem₂ : (setError s₁ i).items i = { s₁.items i with error := true } := Function.update_self _ _ _
  -- leaving the table: an item being generated has no share of the size
  have hl₂ : (setError s₁ i).Listed i :=
    ((touches_setItem s₁ i { s₁.items i with error := true } rfl).listed i).mpr ((t₁.listed i).mpr hl)
  have hshare : (setError s₁ i).share i = 0 := by
    unfold Cache.share
    rw [hitem₂, hitem₁]
    simp [hdone]
  have h₃ := h₂.unlist hl₂ (z := (setError s₁ i).size) (by rw [hshare]; omega)
  obtain ⟨s₃, hs₃⟩ : ∃ s₃, s₃ = (setError s₁ i).deletePair i := ⟨_, rfl⟩
  have h₃' : Books s₃ i 1 := by rw [hs₃]; exact h₃
  have hitem₃ : s₃.items i = { s.items i with refcount := n, clientQueue := [], error := true } := by
    rw [hs₃]
    show (setError s₁ i).items i = _
    rw [hitem₂, hitem₁]
  have hcall : hinCachePipeErrorCallback s i = s₃ := by rw [hs₃, hs₁]; rfl
  have hr₃ := h₃'.refs i (by rw [hs₃]; exact hi₁)
  have hpos := holders_nonneg s₃ i
  simp only [if_true] at hr₃
  unfold hinCacheFinish
  rw [hcall, hitem₃, if_pos rfl]
  refine hinCacheUnref_books h₃' (by rw [hs₃]; exact hi₁) (by omega) ?_
  intro _
  rw [hitem₃]

theorem Cache.hit_listed {s : Cache} {c : ClientId} {i : ItemId} (h : Books s 0 0) (hk : s.hit c = some i) :
    i < s.next ∧ s.Listed i := by
  have ht := h.table _ _ (Cache.hit_ht hk)
  refine ⟨ht.1, ?_⟩
  unfold Cache.Listed
  rw [ht.2, Cache.hit_ht hk]

/-- `hin_cache_check`, if the range asked for fits the item that is found. -/
theorem hinCacheCheck_books {s : Cache} (h : Books s 0 0) (c : ClientId) (now : Int) (accepts : Bool)
    (hfit : ∀ i ∈ s.hit c, RangeFits (s.clients c) (s.items i).size) :
    Books (hinCacheCheck s c now accepts).1 0 0 := by
  rw [hinCacheCheck_eq]
  cases hk : s.hit c with
  | none => exact h
  | some i =>
      obtain ⟨hi, hl⟩ := Cache.hit_listed h hk
      have hr := (h.shift i).refs i hi
      simp only [if_true, add_zero] at hr
      have hhold : s.holders i = 1 + (s.items i).clientQueue.length + s.sends i := by
        unfold Cache.holders
        rw [if_pos hl]
      have hitem : (ref s i).items i = { s.items i with refcount := (s.items i).refcount + 1 } :=
        Function.update_self _ _ _
      have hb : Books (ref s i) i (0 + 1) := by
        have hf := h.freed i hi
        refine setItem_books _ _ (h.shift i) hi rfl rfl rfl ?_ ?_ (Or.inl rfl)
        · show (s.items i).refcount + 1 - ((s.items i).clientQueue.length : Int) = _
          omega
        · show (s.items i).freed = true ↔ (s.items i).refcount + 1 = 0
          rw [hf]
          omega
      have hserve := hinCacheServeClient_books c now accepts hb hi
        (by rw [hitem]; show 2 ≤ (s.items i).refcount + 1; omega)
        (by rw [hitem]; exact hfit i hk)
      exact Books.shift (by simpa using hserve.1) 0

/-- A new item has two holders, the table and the client that generates it. -/
theorem newItem_books {s : Cache} (item : CacheItem) {key : Key} (h : Books s 0 0) (hnone : s.ht key = none)
    (hkey : item.key = key) (hdone : item.done = false) (hsize : item.size = 0) (hrc : item.refcount = 2)
    (hq : item.clientQueue.length = 1) (hfreed : item.freed = false) (disk : Disk) (history : History) :
    Books { s.setItem s.next item with
      next := s.next + 1, ht := Function.update s.ht key (some s.next), disk := disk, history := history } 0 0 := by
  obtain ⟨s', hs'⟩ : ∃ s' : Cache, s' = { s.setItem s.next item with
    next := s.next + 1, ht := Function.update s.ht key (some s.next), disk := disk, history := history } := ⟨_, rfl⟩
  rw [← hs']
  have hnew : s'.items s.next = item := by rw [hs']; exact Function.update_self _ _ _
  have hold : ∀ j < s.next, s'.items j = s.items j := fun j hj => by
    rw [hs']; exact Function.update_of_ne (Nat.ne_of_lt hj) _ _
  have hht : s'.ht = Function.update s.ht key (some s.next) := by rw [hs']
  have hnext : s'.next = s.next + 1 := by rw [hs']
  have hsend : s'.sending = s.sending := by rw [hs']; rfl
  -- the older items keep their entries: the key was free
  have hlist : ∀ j < s.next, (s'.Listed j ↔ s.Listed j) := by
    intro j hj
    unfold Cache.Listed
    rw [hht, hold j hj, Function.update_apply]
    by_cases hk : (s.items j).key = key
    · simp only [hk, if_true, Option.some.injEq, hnone, reduceCtorEq, iff_false]
      exact fun hj' => Nat.lt_irrefl _ (hj' ▸ hj)
    · simp only [hk, if_false]
  have hlistNew : s'.Listed s.next := by
    unfold Cache.Listed
    rw [hht, hnew, hkey, Function.update_self]
  have hsends : ∀ j, s'.sends j = s.sends j := fun j => by unfold Cache.sends; rw [hsend]
  have hsendsNew : s.sends s.next = 0 := by
    unfold Cache.sends
    rw [List.countP_eq_zero]
    intro p hp
    simpa using Nat.ne_of_lt (h.sending p hp)
  have hcases : ∀ j, j < s'.next → j < s.next ∨ j = s.next := fun j hj => by
    rw [hnext] at hj
    exact Nat.lt_succ_iff_lt_or_eq.mp hj
  refine ⟨?_, ?_, ?_, ?_, ?_, ?_, ?_, ?_⟩
  · intro j hj
    rcases hcases j hj with hj | rfl
    · have hr := h.refs j hj
      unfold Cache.holders at hr ⊢
      simp only [hlist j hj, hold j hj, hsends j]
      exact hr
    · unfold Cache.holders
      rw [if_pos hlistNew, hnew, hsends, hsendsNew, hq, hrc]
      simp
  · intro j hj
    rcases hcases j hj with hj | rfl
    · rw [hold j hj]; exact h.freed j hj
    · rw [hnew, hfreed, hrc]; simp
  · have hsum : s'.completed = s.completed := by
      unfold Cache.completed
      rw [hnext, Finset.sum_range_succ]
      have hzero : s'.share s.next = 0 := by
        unfold Cache.share
        rw [hnew, hdone]
        simp
      rw [hzero, add_zero]
      refine Finset.sum_congr rfl fun j hj => ?_
      have hj := Finset.mem_range.mp hj
      unfold Cache.share
      simp only [hlist j hj, hold j hj]
    rw [hsum, hs']
    exact h.size
  · intro k j hk
    rw [hht, Function.update_apply] at hk
    split at hk
    · rename_i hkk
      have hj := Option.some.inj hk
      subst hj
      exact ⟨by rw [hnext]; exact Nat.lt_succ_self _, by rw [hnew, hkey, hkk]⟩
    · have ht := h.table k j hk
      exact ⟨by rw [hnext]; exact Nat.lt_succ_of_lt ht.1, by rw [hold j ht.1]; exact ht.2⟩
  · intro p hp
    rw [hsend] at hp
    rw [hnext]
    exact Nat.lt_succ_of_lt (h.sending p hp)
  · have htim : s'.timers = s.timers := by rw [hs']; rfl
    rw [htim, hnext]
    exact ⟨h.timers.1, fun j hj => Nat.lt_succ_of_lt (h.timers.2 j hj)⟩
  · intro j hj hd
    rcases hcases j hj with hj | rfl
    · rw [hold j hj] at hd ⊢; exact h.unfinished j hj hd
    · rw [hnew]; exact hsize
  · intro j p hp
    have hg : s.generating j = some p := by rw [hs'] at hp; exact hp
    have hgen := h.generating j p hg
    rw [hold j hgen.1]
    exact ⟨by rw [hnext]; exact Nat.lt_succ_of_lt hgen.1, hgen.2⟩

/-- Starting the timer and the generating pipe of an item that is neither completed nor failed. -/
theorem startTimer_books {s : Cache} {i : ItemId} (h : Books s 0 0) (hi : i < s.next) (new : Int)
    (hfresh : i ∉ s.timers) (hdone : (s.items i).done = false) (herr : (s.items i).error = false) (pipe : GenPipe) :
    Books { startTimer s i new with
      generating := Function.update (startTimer s i new).generating i (some pipe) } 0 0 := by
  have hgen : ∀ (s : Cache), Books s 0 0 → i < s.next → (s.items i).done = false → (s.items i).error = false →
      Books { s with generating := Function.update s.generating i (some pipe) } 0 0 := by
    intro s h hi hd he
    refine ⟨h.refs, h.freed, h.size, h.table, h.sending, h.timers, h.unfinished, ?_⟩
    intro j p hp
    change Function.update s.generating i (some pipe) j = some p at hp
    by_cases hji : j = i
    · subst hji; exact ⟨hi, hd, he⟩
    · rw [Function.update_of_ne hji] at hp; exact h.generating j p hp
  unfold startTimer
  split
  · exact hgen s h hi hdone herr
  · have hb := setItem_books 0 { s.items i with time := new } (h.shift i) hi rfl rfl rfl
      (by show (s.items i).refcount - ((s.items i).clientQueue.length : Int) = _; omega) (h.freed i hi) (Or.inl rfl)
    rw [add_zero] at hb
    have hb₀ := hb.shift 0
    refine hgen _ ⟨hb₀.refs, hb₀.freed, hb₀.size, hb₀.table, hb₀.sending, ?_, hb₀.unfinished, hb₀.generating⟩ hi
      (by simpa [Cache.setItem] using hdone) (by simpa [Cache.setItem] using herr)
    split
    · refine ⟨List.nodup_append.mpr ⟨h.timers.1, List.nodup_singleton i, ?_⟩, ?_⟩
      · intro a ha b hb hab
        rw [List.mem_singleton.mp hb] at hab
        exact hfresh (hab ▸ ha)
      · intro j hj
        rcases List.mem_append.mp hj with hj | hj
        · exact h.timers.2 j hj
        · rw [List.mem_singleton.mp hj]; exact hi
    · refine ⟨List.nodup_cons.mpr ⟨hfresh, h.timers.1⟩, ?_⟩
      intro j hj
      rcases List.mem_cons.mp hj with rfl | hj
      · exact hi
      · exact h.timers.2 j hj

/-- `hin_cache_save`, whatever it finds. -/
theorem hinCacheSave_books {s : Cache} (h : Books s 0 0) (c : ClientId) (openOk : Bool) (now : Int) :
    Books (hinCacheSave s c openOk now).1 0 0 := by
  unfold hinCacheSave
  dsimp only
  split
  · exact h
  split
  · exact h
  split
  · exact h
  cases hk : s.ht (s.clients c).key with
  | some i =>
      have hi : i < s.next := (h.table _ _ hk).1
      have hl : s.Listed i := by
        unfold Cache.Listed
        rw [(h.table _ _ hk).2, hk]
      have hr := (h.shift i).refs i hi
      simp only [if_true, add_zero] at hr
      have hpos : 1 ≤ s.holders i := by
        unfold Cache.holders
        rw [if_pos hl]
        omega
      have hf := h.freed i hi
      have hb := setItem_books 0 { s.items i with
          clientQueue := c :: (s.items i).clientQueue, refcount := (s.items i).refcount + 1 }
        (h.shift i) hi rfl rfl rfl
        (by
          show (s.items i).refcount + 1 - ((c :: (s.items i).clientQueue).length : Int) = _
          rw [List.length_cons]
          push_cast
          omega)
        (by
          show (s.items i).freed = true ↔ (s.items i).refcount + 1 = 0
          rw [hf]
          omega) (Or.inl rfl)
      rw [add_zero] at hb
      exact (hb.shift 0).aside _ _ _
  | none =>
      dsimp only
      cases openOk with
      | false =>
          exact newItem_books (newItem c (s.clients c).key) h hk rfl rfl rfl rfl rfl rfl s.disk _
      | true =>
          have hfresh : s.next ∉ s.timers := fun hm => Nat.lt_irrefl _ (h.timers.2 _ hm)
          have hb := newItem_books { newItem c (s.clients c).key with
            fd := some (s.disk.openTrunc (s.clients c).key).2 } h hk rfl rfl rfl rfl rfl rfl
            (s.disk.openTrunc (s.clients c).key).1 { s.history with
              queued := s.history.queued ++ [(c, s.next)]
              origin := Function.update s.history.origin s.next (s.clients c).method
              body := Function.update s.history.body s.next [] }
          have hst := startTimer_books hb (i := s.next) (Nat.lt_succ_self _) (now + (s.clients c).cache)
            hfresh (by simp [Cache.setItem, newItem]) (by simp [Cache.setItem, newItem]) {}
          simpa [Cache.setItem] using hst

/-- A tick all of whose timers belong to items of the table. -/
theorem timeouts_books (l : List ItemId) {s : Cache} (h : Books s 0 0) (hnd : l.Nodup) (hl : ∀ i ∈ l, s.Listed i) :
    Books (l.foldl hinCacheTimeoutCallback s) 0 0 := by
  induction l generalizing s with
  | nil => exact h
  | cons i l ih =>
      rw [List.nodup_cons] at hnd
      have hli := hl i List.mem_cons_self
      refine ih ((hinCacheRemove_books (h.shift i) hli).shift 0) hnd.2 fun j hj => ?_
      exact listed_remove hli (hl j (List.mem_cons_of_mem i hj)) fun hij => hnd.1 (hij ▸ hj)

/-! ## Runs -/

/-- **The steps that keep the counters.** No response answered from the cache asks for a range outside its item, a
    generating pipe ends while the table holds its item, and fails only by a write error, and no timer runs out
    of an item that has left the table. -/
def CountedStep (s : Cache) : Event → Prop
  | .check c _ _ => ∀ i ∈ s.hit c, RangeFits (s.clients c) (s.items i).size
  | .finish i _ _ => s.Listed i ∧
      ∀ pipe ∈ s.generating i, ∀ c ∈ (s.items i).clientQueue, RangeFits (s.clients c) pipe.count
  | .error i closes _ => s.Listed i ∧ closes = true
  | .tick now reach => ∀ i ∈ s.due now reach, s.Listed i
  | _ => True

instance (s : Cache) : (e : Event) → Decidable (CountedStep s e)
  | .check c _ _ => inferInstanceAs (Decidable (∀ i ∈ s.hit c, RangeFits (s.clients c) (s.items i).size))
  | .finish i _ _ => inferInstanceAs (Decidable (s.Listed i ∧
      ∀ pipe ∈ s.generating i, ∀ c ∈ (s.items i).clientQueue, RangeFits (s.clients c) pipe.count))
  | .error i closes _ => inferInstanceAs (Decidable (s.Listed i ∧ closes = true))
  | .tick now reach => inferInstanceAs (Decidable (∀ i ∈ s.due now reach, s.Listed i))
  | .request .. | .save .. | .written .. | .sent _ => inferInstanceAs (Decidable True)

/-- The counters, the lifetimes and the size of the store are what the holders make them. -/
def Counted (s : Cache) : Prop :=
  (∀ i < s.next, (s.items i).refcount = s.holders i ∧ ((s.items i).freed = true ↔ s.holders i = 0)) ∧
    s.size = s.completed

theorem Books.counted {s : Cache} (h : Books s 0 0) : Counted s := by
  refine ⟨fun i hi => ?_, h.size⟩
  have hr := (h.shift i).refs i hi
  simp only [if_true, add_zero] at hr
  refine ⟨hr, ?_⟩
  rw [h.freed i hi, hr]

theorem hinCacheCreate_books : Books hinCacheCreate 0 0 := by
  refine ⟨?_, ?_, rfl, ?_, ?_, ?_, ?_, ?_⟩
  · exact fun j hj => absurd hj (Nat.not_lt_zero j)
  · exact fun j hj => absurd hj (Nat.not_lt_zero j)
  · exact fun k j hk => absurd (show (none : Option ItemId) = some j from hk) (by simp)
  · exact fun p hp => absurd hp List.not_mem_nil
  · exact ⟨List.nodup_nil, fun j hj => absurd hj List.not_mem_nil⟩
  · exact fun j hj => absurd hj (Nat.not_lt_zero j)
  · exact fun j p hp => absurd (show (none : Option GenPipe) = some p from hp) (by simp)

/-- Closing the generating pipe. -/
theorem Books.closed {s : Cache} (h : Books s 0 0) (i : ItemId) :
    Books { s with generating := Function.update s.generating i none } 0 0 := by
  refine ⟨h.refs, h.freed, h.size, h.table, h.sending, h.timers, h.unfinished, ?_⟩
  intro j p hp
  change Function.update s.generating i none j = some p at hp
  by_cases hji : j = i
  · subst hji
    rw [Function.update_self] at hp
    exact absurd hp (by simp)
  · rw [Function.update_of_ne hji] at hp
    exact h.generating j p hp

/-- **One step.** -/
theorem step_books {s s' : Cache} {e : Event} (h : Books s 0 0) (hg : CountedStep s e) (hs : s.step e = some s') :
    Books s' 0 0 := by
  cases e with
  | request c http =>
      have hs := Option.some.inj hs
      subst hs
      exact h.aside _ _ _
  | check c now accepts =>
      have hs := Option.some.inj hs
      subst hs
      exact hinCacheCheck_books h c now accepts hg
  | save c openOk now =>
      have hs := Option.some.inj hs
      subst hs
      unfold hinCgiOfferCache
      dsimp only
      split
      · exact hinCacheSave_books h c openOk now
      · exact h
  | written i data =>
      obtain ⟨pipe, hp, hs⟩ := Option.map_eq_some_iff.mp hs
      subst hs
      have hgen := h.generating i pipe hp
      refine ⟨h.refs, h.freed, h.size, h.table, h.sending, h.timers, h.unfinished, ?_⟩
      intro j p hj
      change Function.update s.generating i _ j = some p at hj
      by_cases hji : j = i
      · subst hji; exact hgen
      · rw [Function.update_of_ne hji] at hj; exact h.generating j p hj
  | finish i now accepts =>
      obtain ⟨pipe, hp, hs⟩ := Option.map_eq_some_iff.mp hs
      subst hs
      have hgen := h.generating i pipe hp
      exact (hinCacheFinish_books ((h.closed i).shift i) hg.1 (Function.update_self _ _ _) hgen.2.1 hgen.2.2
        (hg.2 pipe hp)).shift 0
  | error i closes now =>
      obtain ⟨pipe, hp, hs⟩ := Option.map_eq_some_iff.mp hs
      rw [hg.2, if_pos rfl] at hs
      subst hs
      have hgen := h.generating i pipe hp
      exact (hinCachePipeError_books ((h.closed i).shift i) hg.1 (Function.update_self _ _ _) hgen.2.1).shift 0
  | sent pipe =>
      simp only [Cache.step] at hs
      split at hs
      · rename_i hmem
        have hs := Option.some.inj hs
        subst hs
        exact (doneFile_books (h.shift pipe.item) hmem).shift 0
      · exact absurd hs (by simp)
  | tick now reach =>
      have hs := Option.some.inj hs
      subst hs
      refine timeouts_books (s.due now reach) h ?_ hg
      exact (h.timers.1.sublist (List.take_sublist _ _)).sublist (List.takeWhile_sublist _)

/-- **The counters over a run.** After any run of the cache whose steps all keep the counters, every item's counter
    is the number of its holders, an item is freed exactly when nobody holds it, and the size of the store is the
    sum over the completed items of the table. -/
theorem cache_counted {es : List Event} {s : Cache} (h : Lib.RunWith Cache.step CountedStep hinCacheCreate es s) :
    Counted s :=
  (h.invariant (I := fun s => Books s 0 0) hinCacheCreate_books fun _ _ _ hb hg hs => step_books hb hg hs).counted

/-- Two clients ask for one key: the first generates the item, the second waits for it, both are served, and the
    item runs out after they have read it. -/
theorem cache_counted_sample : ∃ (es : List Event) (s : Cache),
    Lib.RunWith Cache.step CountedStep hinCacheCreate es s ∧ (s.items 0).freed = true ∧ s.size = 0 ∧ Counted s := by
  let response : FileResponse := ⟨200, 2, pipeHash 6883 [72, 105], 0, 2⟩
  let es : List Event := [.request 1 cacheableRequest, .request 2 cacheableRequest, .save 1 true 100, .save 2 true 101,
    .written 0 [72, 105], .finish 0 102 fun _ => true, .sent ⟨response, 1, 0⟩, .sent ⟨response, 2, 0⟩, .tick 110 1]
  have hrun : ((Lib.execWith Cache.step (fun s e => decide (CountedStep s e)) hinCacheCreate es).map fun s =>
      ((s.items 0).freed, s.size)) = some (true, 0) := by decide
  obtain ⟨s, hs, he⟩ := Option.map_eq_some_iff.mp hrun
  have h : Lib.RunWith Cache.step CountedStep hinCacheCreate es s :=
    Lib.RunWith.of_exec (fun _ _ hd => of_decide_eq_true hd) es hs
  exact ⟨es, s, h, (Prod.mk.inj he).1, (Prod.mk.inj he).2, cache_counted h⟩

/-- **A timer that goes on.** The callback returns `1`, so the timer of an expired item stays in the list while a slow
    client still reads it: the second tick takes that client's reference away and frees the item. -/
theorem cache_counters_wrong :
    ¬ ∀ (es : List Event) (s : Cache), Lib.Run Cache.step hinCacheCreate es s → Counted s := by
  intro hall
  let es : List Event := [.request 1 cacheableRequest, .save 1 true 100, .written 0 [72, 105],
    .finish 0 102 fun _ => true, .tick 110 1, .tick 111 1]
  have hrun : ((Lib.execWith Cache.step (fun _ _ => true) hinCacheCreate es).map fun s =>
      ((s.items 0).freed, s.next, s.holders 0)) = some (true, 1, 1) := by decide
  obtain ⟨s, hs, he⟩ := Option.map_eq_some_iff.mp hrun
  have h := (hall es s (Lib.RunWith.of_exec (fun _ _ _ => trivial) es hs)).1 0
  simp only [Prod.mk.injEq] at he
  have hzero := (h (by rw [he.2.1]; exact Nat.one_pos)).2.mp he.1
  rw [he.2.2] at hzero
  exact absurd hzero (by decide)

end Http
end Hin9
