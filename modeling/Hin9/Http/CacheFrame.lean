import Hin9.Http.Cache

/-!
# `Http.CacheFrame` — what the functions of the cache leave alone

Every function works on one item. `Touches s s' i` says what that leaves unchanged in the table, the other items and
the pipes; `Quiet s s' i` adds that the item itself keeps everything but its counter, its queue, its timer and its
life, and that no file is written. Dropping a reference, serving a client and both queue loops are quiet.
-/

namespace Hin9
namespace Http

/-- The response pipes that hold the item. -/
def Cache.sends (s : Cache) (i : ItemId) : Nat := s.sending.countP fun p => p.item = i

/-! ## Work on one item -/

/-- The work from `s` to `s'` is on the item `i` alone: the table, the keys, the other items and the responses
    of the other items are the same, no timer is started and no generating pipe opened. -/
structure Touches (s s' : Cache) (i : ItemId) : Prop where
  next : s'.next = s.next
  ht : s'.ht = s.ht
  items : ∀ j, j ≠ i → s'.items j = s.items j
  key : (s'.items i).key = (s.items i).key
  sends : ∀ j, j ≠ i → s'.sends j = s.sends j
  sending : ∀ p ∈ s'.sending, p ∈ s.sending ∨ p.item = i
  timers : s'.timers.Sublist s.timers
  generating : ∀ j pipe, s'.generating j = some pipe → s.generating j = some pipe

namespace Touches

variable {s s' s'' : Cache} {i : ItemId}

theorem refl (s : Cache) (i : ItemId) : Touches s s i :=
  ⟨rfl, rfl, fun _ _ => rfl, rfl, fun _ _ => rfl, fun _ hp => Or.inl hp, List.Sublist.refl _, fun _ _ hg => hg⟩

theorem trans (h : Touches s s' i) (h' : Touches s' s'' i) : Touches s s'' i where
  next := h'.next.trans h.next
  ht := h'.ht.trans h.ht
  items j hj := (h'.items j hj).trans (h.items j hj)
  key := h'.key.trans h.key
  sends j hj := (h'.sends j hj).trans (h.sends j hj)
  sending p hp := by
    rcases h'.sending p hp with hp | hp
    · exact h.sending p hp
    · exact Or.inr hp
  timers := h'.timers.trans h.timers
  generating j pipe hg := h.generating j pipe (h'.generating j pipe hg)

theorem keys (h : Touches s s' i) (j : ItemId) : (s'.items j).key = (s.items j).key := by
  by_cases hj : j = i
  · rw [hj]; exact h.key
  · rw [h.items j hj]

theorem listed (h : Touches s s' i) (j : ItemId) : s'.Listed j ↔ s.Listed j := by
  unfold Cache.Listed
  rw [h.ht, h.keys j]

end Touches

/-- A change of an item's record that keeps its key is work on that item. -/
theorem touches_setItem (s : Cache) (i : ItemId) (item : CacheItem) (hkey : item.key = (s.items i).key) :
    Touches s (s.setItem i item) i where
  next := rfl
  ht := rfl
  items j hj := Function.update_of_ne hj _ _
  key := by simpa [Cache.setItem] using hkey
  sends _ _ := rfl
  sending p hp := Or.inl hp
  timers := List.Sublist.refl _
  generating _ _ hg := hg

theorem touches_complete (s : Cache) (i : ItemId) (pipe : GenPipe) (now : Int) :
    Touches s (complete s i pipe now) i := by
  have t := touches_setItem s i { s.items i with
    size := pipe.count, etag := pipe.hash, done := true, modified := now } rfl
  exact ⟨t.next, t.ht, t.items, t.key, t.sends, t.sending, t.timers, t.generating⟩

/-- The record of the past is outside the work on items. -/
theorem touches_release (s : Cache) (c : ClientId) (i : ItemId) : Touches s (release s c i) i :=
  ⟨rfl, rfl, fun _ _ => rfl, rfl, fun _ _ => rfl, fun _ hp => Or.inl hp, List.Sublist.refl _, fun _ _ hg => hg⟩

/-! ## `hin_cache_unref` -/

section Unref

variable (s : Cache) (i : ItemId)

@[simp] theorem hinCacheUnref_ht : (hinCacheUnref s i).ht = s.ht := by
  unfold hinCacheUnref; dsimp only; split <;> rfl

@[simp] theorem hinCacheUnref_next : (hinCacheUnref s i).next = s.next := by
  unfold hinCacheUnref; dsimp only; split <;> rfl

@[simp] theorem hinCacheUnref_size : (hinCacheUnref s i).size = s.size := by
  unfold hinCacheUnref; dsimp only; split <;> rfl

@[simp] theorem hinCacheUnref_sending : (hinCacheUnref s i).sending = s.sending := by
  unfold hinCacheUnref; dsimp only; split <;> rfl

@[simp] theorem hinCacheUnref_generating : (hinCacheUnref s i).generating = s.generating := by
  unfold hinCacheUnref; dsimp only; split <;> rfl

@[simp] theorem hinCacheUnref_clients : (hinCacheUnref s i).clients = s.clients := by
  unfold hinCacheUnref; dsimp only; split <;> rfl

/-- What dropping a reference does to the items. -/
theorem hinCacheUnref_items : (hinCacheUnref s i).items = Function.update s.items i
    (if (s.items i).refcount = 1 then
      { s.items i with refcount := 0, freed := true, time := 0, clientQueue := [] }
    else { s.items i with refcount := (s.items i).refcount - 1 }) := by
  unfold hinCacheUnref
  dsimp only
  by_cases h : (s.items i).refcount = 1
  · simp only [h, sub_self, if_true, hinCacheItemClean, Cache.setItem, Function.update_self, Function.update_idem]
  · have h' : ¬ (s.items i).refcount - 1 = 0 := by omega
    simp only [h, h', if_false, Cache.setItem]

theorem hinCacheUnref_timers : (hinCacheUnref s i).timers.Sublist s.timers := by
  unfold hinCacheUnref
  dsimp only
  split
  · exact List.erase_sublist
  · exact List.Sublist.refl _

theorem touches_hinCacheUnref : Touches s (hinCacheUnref s i) i where
  next := hinCacheUnref_next s i
  ht := hinCacheUnref_ht s i
  items j hj := by rw [hinCacheUnref_items, Function.update_of_ne hj]
  key := by
    rw [hinCacheUnref_items, Function.update_self]
    split <;> rfl
  sends j _ := by unfold Cache.sends; rw [hinCacheUnref_sending]
  sending p hp := Or.inl (by rwa [hinCacheUnref_sending] at hp)
  timers := hinCacheUnref_timers s i
  generating j pipe hg := by rwa [hinCacheUnref_generating] at hg

/-- Away from the last reference only the counter changes. -/
theorem hinCacheUnref_eq (h : (s.items i).refcount ≠ 1) :
    hinCacheUnref s i = s.setItem i { s.items i with refcount := (s.items i).refcount - 1 } := by
  unfold hinCacheUnref
  have h' : ¬ (s.items i).refcount - 1 = 0 := by omega
  simp only [h', if_false]

end Unref

/-! ## `hin_cache_serve_client` -/

theorem touches_recordServed (s : Cache) (c : ClientId) (i : ItemId) (now : Int) :
    Touches s (recordServed s c i now) i where
  next := rfl
  ht := rfl
  items _ _ := rfl
  key := rfl
  sends _ _ := rfl
  sending _ hp := Or.inl hp
  timers := List.Sublist.refl _
  generating _ _ hg := hg

/-- A response that is accepted is one more holder; one that is refused gives its reference back. -/
theorem hinCacheServeClient_some {s : Cache} {c : ClientId} {i : ItemId} {now : Int} {accepts : Bool}
    {r : FileResponse} (h : (answer s c i now).2 = some r) :
    hinCacheServeClient s c i now accepts =
      if accepts then { recordServed s c i now with sending := ⟨r, c, i⟩ :: s.sending }
      else hinCacheUnref (recordServed s c i now) i := by
  unfold hinCacheServeClient
  rw [h]
  cases accepts with
  | true => rfl
  | false =>
      simp only [doneFile, List.erase_cons_head, Bool.false_eq_true, if_false]

/-! ## `hin_cache_check` -/

/-- The item `hin_cache_check` finds for a client. -/
def Cache.hit (s : Cache) (c : ClientId) : Option ItemId :=
  if (s.clients c).disable &&& HIN_HTTP_LOCAL_CACHE ≠ 0 then none
  else if (s.clients c).cacheKey1 ||| (s.clients c).cacheKey2 = 0 then none
  else s.ht (s.clients c).key

theorem hinCacheCheck_eq (s : Cache) (c : ClientId) (now : Int) (accepts : Bool) :
    (hinCacheCheck s c now accepts).1 =
      match s.hit c with
      | none => s
      | some i => hinCacheServeClient (ref s i) c i now accepts := by
  unfold hinCacheCheck Cache.hit
  dsimp only
  split_ifs
  · rfl
  · rfl
  · cases s.ht (s.clients c).key <;> rfl

theorem Cache.hit_ht {s : Cache} {c : ClientId} {i : ItemId} (hk : s.hit c = some i) :
    s.ht (s.clients c).key = some i := by
  unfold Cache.hit at hk
  split_ifs at hk
  exact hk

/-! ## `done_file` and `hin_cache_remove` -/

theorem sends_erase {s : Cache} {pipe : FilePipe} (hp : pipe ∈ s.sending) (j : ItemId) :
    Cache.sends { s with sending := s.sending.erase pipe } j = s.sends j - if j = pipe.item then 1 else 0 := by
  unfold Cache.sends
  rw [List.countP_erase]
  by_cases hj : j = pipe.item
  · simp [hj, hp]
  · have hj' : ¬ pipe.item = j := fun hh => hj hh.symm
    simp [hj, hj']

theorem one_le_sends {s : Cache} {pipe : FilePipe} (hp : pipe ∈ s.sending) : 1 ≤ s.sends pipe.item := by
  unfold Cache.sends
  exact List.countP_pos_iff.mpr ⟨pipe, hp, by simp⟩

/-- The removal of one item of the table leaves the others in it: they are listed under other keys. -/
theorem listed_remove {s : Cache} {i j : ItemId} (hi : s.Listed i) (hj : s.Listed j) (hij : i ≠ j) :
    (hinCacheTimeoutCallback s i).Listed j := by
  have t := touches_hinCacheUnref { s.deletePair i with size := s.size - (s.items i).size } i
  refine (t.listed j).mpr ?_
  show Function.update s.ht (s.items i).key none (s.items j).key = some j
  have hne : (s.items j).key ≠ (s.items i).key := fun hk => hij (Option.some.inj (hi.symm.trans (hk ▸ hj)))
  rw [Function.update_of_ne hne]
  exact hj

/-! ## Quiet work -/

/-- The work on `i` changes its counter, queue, timer and life only: nothing is completed or fails, and no file is
    written. -/
structure Quiet (s s' : Cache) (i : ItemId) : Prop extends Touches s s' i where
  done : (s'.items i).done = (s.items i).done
  error : (s'.items i).error = (s.items i).error
  file : (s'.items i).toFileItem = (s.items i).toFileItem
  fd : (s'.items i).fd = (s.items i).fd
  opened : s'.generating = s.generating
  body : s'.history.body = s.history.body
  origin : s'.history.origin = s.history.origin
  data : s'.disk.data = s.disk.data
  inodes : s'.disk.next = s.disk.next
  names : ∀ k n, s'.disk.names k = some n → s.disk.names k = some n

namespace Quiet

variable {s s' s'' : Cache} {i : ItemId}

theorem refl (s : Cache) (i : ItemId) : Quiet s s i :=
  ⟨Touches.refl s i, rfl, rfl, rfl, rfl, rfl, rfl, rfl, rfl, rfl, fun _ _ h => h⟩

theorem trans (h : Quiet s s' i) (h' : Quiet s' s'' i) : Quiet s s'' i where
  toTouches := h.toTouches.trans h'.toTouches
  done := h'.done.trans h.done
  error := h'.error.trans h.error
  file := h'.file.trans h.file
  fd := h'.fd.trans h.fd
  opened := h'.opened.trans h.opened
  body := h'.body.trans h.body
  origin := h'.origin.trans h.origin
  data := h'.data.trans h.data
  inodes := h'.inodes.trans h.inodes
  names k n hk := h.names k n (h'.names k n hk)

/-- The fields every item keeps. -/
theorem fields (h : Quiet s s' i) (j : ItemId) :
    (s'.items j).key = (s.items j).key ∧ (s'.items j).done = (s.items j).done ∧
      (s'.items j).error = (s.items j).error ∧ (s'.items j).toFileItem = (s.items j).toFileItem ∧
      (s'.items j).fd = (s.items j).fd := by
  by_cases hj : j = i
  · subst hj
    exact ⟨h.key, h.done, h.error, h.file, h.fd⟩
  · rw [h.items j hj]
    exact ⟨rfl, rfl, rfl, rfl, rfl⟩

end Quiet

theorem quiet_release (s : Cache) (c : ClientId) (i : ItemId) : Quiet s (release s c i) i :=
  ⟨touches_release s c i, rfl, rfl, rfl, rfl, rfl, rfl, rfl, rfl, rfl, fun _ _ h => h⟩

theorem quiet_recordServed (s : Cache) (c : ClientId) (i : ItemId) (now : Int) :
    Quiet s (recordServed s c i now) i :=
  ⟨touches_recordServed s c i now, rfl, rfl, rfl, rfl, rfl, rfl, rfl, rfl, rfl, fun _ _ h => h⟩

theorem quiet_hinCacheUnref (s : Cache) (i : ItemId) : Quiet s (hinCacheUnref s i) i := by
  have hitems : ∀ item : CacheItem, (hinCacheUnref s i).items i = item →
      item.done = (s.items i).done ∧ item.error = (s.items i).error ∧
        item.toFileItem = (s.items i).toFileItem ∧ item.fd = (s.items i).fd := by
    intro item h
    rw [hinCacheUnref_items, Function.update_self] at h
    subst h
    split <;> exact ⟨rfl, rfl, rfl, rfl⟩
  obtain ⟨hdone, herr, hfile, hfd⟩ := hitems _ rfl
  refine ⟨touches_hinCacheUnref s i, hdone, herr, hfile, hfd, hinCacheUnref_generating s i, ?_, ?_, ?_, ?_, ?_⟩
  · unfold hinCacheUnref; dsimp only; split <;> rfl
  · unfold hinCacheUnref; dsimp only; split <;> rfl
  · unfold hinCacheUnref; dsimp only; split <;> rfl
  · unfold hinCacheUnref; dsimp only; split <;> rfl
  · intro k n
    unfold hinCacheUnref
    dsimp only
    split
    · show Function.update s.disk.names _ none k = some n → _
      rw [Function.update_apply]
      split
      · exact fun h => absurd h (by simp)
      · exact id
    · exact id

/-- One more response pipe. -/
theorem quiet_send (s : Cache) (pipe : FilePipe) :
    Quiet s { s with sending := pipe :: s.sending } pipe.item := by
  refine ⟨⟨rfl, rfl, fun _ _ => rfl, rfl, ?_, ?_, List.Sublist.refl _, fun _ _ hg => hg⟩,
    rfl, rfl, rfl, rfl, rfl, rfl, rfl, rfl, rfl, fun _ _ h => h⟩
  · intro j hj
    have hne : ¬ pipe.item = j := fun hij => hj hij.symm
    unfold Cache.sends
    simp only [List.countP_cons, hne, decide_false, Bool.false_eq_true, if_false]
    rfl
  · intro p hp
    rcases List.mem_cons.mp hp with rfl | hp
    · exact Or.inr rfl
    · exact Or.inl hp

theorem quiet_hinCacheServeClient (s : Cache) (c : ClientId) (i : ItemId) (now : Int) (accepts : Bool) :
    Quiet s (hinCacheServeClient s c i now accepts) i := by
  have hrec := quiet_recordServed s c i now
  cases hr : (answer s c i now).2 with
  | none =>
      unfold hinCacheServeClient
      rw [hr]
      exact hrec
  | some r =>
      rw [hinCacheServeClient_some hr]
      cases accepts with
      | true => exact hrec.trans (quiet_send (recordServed s c i now) ⟨r, c, i⟩)
      | false => exact hrec.trans (quiet_hinCacheUnref _ i)

theorem quiet_serveQueue (i : ItemId) (now : Int) (accepts : ClientId → Bool) (q : List ClientId) (s : Cache) :
    Quiet s (serveQueue i now accepts q s) i := by
  induction q generalizing s with
  | nil => exact Quiet.refl s i
  | cons c q ih => exact ((quiet_hinCacheServeClient s c i now (accepts c)).trans (quiet_release _ c i)).trans (ih _)

theorem quiet_unrefQueue (i : ItemId) (q : List ClientId) (s : Cache) : Quiet s (unrefQueue i q s) i := by
  induction q generalizing s with
  | nil => exact Quiet.refl s i
  | cons c q ih => exact ((quiet_release s c i).trans (quiet_hinCacheUnref _ i)).trans (ih _)

theorem quiet_emptyQueue (s : Cache) (i : ItemId) : Quiet s (emptyQueue s i) i := by
  have hitem : (emptyQueue s i).items i = { s.items i with clientQueue := [] } := Function.update_self _ _ _
  refine ⟨touches_setItem s i _ rfl, ?_, ?_, ?_, ?_, rfl, rfl, rfl, rfl, rfl, fun _ _ h => h⟩ <;> rw [hitem]

theorem quiet_ref (s : Cache) (i : ItemId) : Quiet s (ref s i) i := by
  have hitem : (ref s i).items i = { s.items i with refcount := (s.items i).refcount + 1 } :=
    Function.update_self _ _ _
  refine ⟨touches_setItem s i _ rfl, ?_, ?_, ?_, ?_, rfl, rfl, rfl, rfl, rfl, fun _ _ h => h⟩ <;> rw [hitem]

/-! ## `hin_cache_save` -/

/-- The timer list after the start of a timer. -/
def timersWith (timers : List ItemId) (i : ItemId) (new : Int) : List ItemId :=
  if new = 0 then timers else if new > 0 then timers ++ [i] else i :: timers

/-- A timer that was not running is set, and listed unless its time is `0`. -/
theorem startTimer_eq {s : Cache} {i : ItemId} (new : Int) (h0 : (s.items i).time = 0) :
    startTimer s i new =
      { s.setItem i { s.items i with time := new } with timers := timersWith s.timers i new } := by
  unfold startTimer timersWith
  by_cases hz : new = 0
  · have hitem : { s.items i with time := (0 : Int) } = s.items i := by rw [← h0]
    rw [if_pos hz, if_pos hz, hz, hitem]
    show s = { s with items := Function.update s.items i (s.items i), timers := s.timers }
    rw [Function.update_eq_self]
  · rw [if_neg hz, if_neg hz]
    rfl

theorem timersWith_fresh {timers : List ItemId} {i : ItemId} (new : Int) (hnd : timers.Nodup)
    (hlt : ∀ j ∈ timers, j < i) :
    (timersWith timers i new).Nodup ∧ ∀ j ∈ timersWith timers i new, j < i + 1 := by
  have hfresh : i ∉ timers := fun hm => Nat.lt_irrefl _ (hlt i hm)
  have hup : ∀ j ∈ timers, j < i + 1 := fun j hj => Nat.lt_succ_of_lt (hlt j hj)
  unfold timersWith
  split
  · exact ⟨hnd, hup⟩
  split
  · constructor
    · rw [List.nodup_append]
      refine ⟨hnd, List.nodup_singleton _, ?_⟩
      intro a ha b hb hab
      rw [List.mem_singleton.mp hb] at hab
      exact hfresh (hab ▸ ha)
    · intro j hj
      rcases List.mem_append.mp hj with hj | hj
      · exact hup j hj
      · rw [List.mem_singleton.mp hj]
        exact Nat.lt_succ_self _
  · constructor
    · exact List.nodup_cons.mpr ⟨hfresh, hnd⟩
    · intro j hj
      rcases List.mem_cons.mp hj with rfl | hj
      · exact Nat.lt_succ_self _
      · exact hup j hj

/-- The new item of a client, with its file and its timer. -/
def openedItem (s : Cache) (c : ClientId) (fd : Nat) (now : Int) : CacheItem :=
  { newItem c (s.clients c).key with fd := some fd, time := now + (s.clients c).cache }

/-- The state with a new item in it. -/
def allocated (s : Cache) (c : ClientId) (item : CacheItem) : Cache :=
  { s.setItem s.next item with
    next := s.next + 1
    ht := Function.update s.ht (s.clients c).key (some s.next)
    history := { s.history with
      queued := s.history.queued ++ [(c, s.next)]
      origin := Function.update s.history.origin s.next (s.clients c).method
      body := Function.update s.history.body s.next [] } }

/-- The response to the client is offered to the store, and the store takes it. -/
def Cache.Offered (s : Cache) (c : ClientId) : Prop :=
  ((s.clients c).cacheFlags &&& HIN_CACHE_PUBLIC ≠ 0 ∧ (s.clients c).method ≠ .post ∧ (s.clients c).status = 200) ∧
    (s.clients c).disable &&& HIN_HTTP_LOCAL_CACHE = 0 ∧ (s.clients c).cacheKey1 ||| (s.clients c).cacheKey2 ≠ 0 ∧
    s.size < s.maxSize

instance (s : Cache) (c : ClientId) : Decidable (s.Offered c) := inferInstanceAs (Decidable (_ ∧ _))

/-- The item whose queue the client joins when its response is offered. -/
def Cache.joins (s : Cache) (c : ClientId) : Option ItemId :=
  if s.Offered c then s.ht (s.clients c).key else none

/-- The client's response becomes a new item when it is offered. -/
def Cache.Opens (s : Cache) (c : ClientId) : Prop := s.Offered c ∧ s.ht (s.clients c).key = none

instance (s : Cache) (c : ClientId) : Decidable (s.Opens c) := inferInstanceAs (Decidable (_ ∧ _))

/-- **What the offer of a response does**: nothing, one more client in a queue, or a new item whose generation starts
    unless its file could not be opened. -/
theorem hinCgiOfferCache_cases (s : Cache) (c : ClientId) (openOk : Bool) (now : Int) :
    (hinCgiOfferCache s c openOk now).1 = s ∨
    (∃ i, s.joins c = some i ∧ (hinCgiOfferCache s c openOk now).1 =
      { s.setItem i { s.items i with
          clientQueue := c :: (s.items i).clientQueue, refcount := (s.items i).refcount + 1 } with
        history := { s.history with queued := s.history.queued ++ [(c, i)] } }) ∨
    (s.Opens c ∧ openOk = false ∧
      (hinCgiOfferCache s c openOk now).1 = allocated s c (newItem c (s.clients c).key)) ∨
    (s.Opens c ∧ openOk = true ∧ (hinCgiOfferCache s c openOk now).1 =
      { allocated s c (openedItem s c (s.disk.openTrunc (s.clients c).key).2 now) with
        disk := (s.disk.openTrunc (s.clients c).key).1
        timers := timersWith s.timers s.next (now + (s.clients c).cache)
        generating := Function.update s.generating s.next (some {}) }) := by
  unfold hinCgiOfferCache
  dsimp only
  split
  · rename_i hpub
    unfold hinCacheSave
    dsimp only
    split
    · exact Or.inl rfl
    rename_i hon
    split
    · exact Or.inl rfl
    rename_i hkey
    split
    · exact Or.inl rfl
    rename_i hfull
    have hoff : s.Offered c := ⟨hpub, not_not.mp hon, hkey, not_le.mp hfull⟩
    cases hk : s.ht (s.clients c).key with
    | some i =>
        refine Or.inr (Or.inl ⟨i, ?_, rfl⟩)
        unfold Cache.joins
        rw [if_pos hoff, hk]
    | none =>
        have hopens : s.Opens c := ⟨hoff, hk⟩
        cases openOk with
        | false => exact Or.inr (Or.inr (Or.inl ⟨hopens, rfl, rfl⟩))
        | true =>
            refine Or.inr (Or.inr (Or.inr ⟨hopens, rfl, ?_⟩))
            simp only [if_true]
            rw [startTimer_eq _ (by simp [Cache.setItem, newItem])]
            simp [Cache.setItem, allocated, openedItem]
  · exact Or.inl rfl

theorem Cache.joins_ht {s : Cache} {c : ClientId} {i : ItemId} (h : s.joins c = some i) :
    s.Offered c ∧ s.ht (s.clients c).key = some i := by
  unfold Cache.joins at h
  split at h
  · rename_i hoff
    exact ⟨hoff, h⟩
  · exact absurd h (by simp)

/-! ## `hin_cache_pipe_error_callback` -/

theorem hinCachePipeErrorCallback_error (s : Cache) (i : ItemId) :
    ((hinCachePipeErrorCallback s i).items i).error = true := by
  unfold hinCachePipeErrorCallback Cache.deletePair setError
  simp [Cache.setItem]

theorem quiet_pipeError (s : Cache) (i : ItemId) :
    Quiet s (emptyQueue (unrefQueue i (s.items i).clientQueue s) i) i :=
  (quiet_unrefQueue i _ s).trans (quiet_emptyQueue _ i)

theorem hinCachePipeErrorCallback_next (s : Cache) (i : ItemId) : (hinCachePipeErrorCallback s i).next = s.next :=
  (quiet_pipeError s i).next

theorem hinCachePipeErrorCallback_generating (s : Cache) (i : ItemId) :
    (hinCachePipeErrorCallback s i).generating = s.generating :=
  (quiet_pipeError s i).opened

/-- Neither `hin_cache_unref` nor the queue loop looks at the generating pipes. -/
theorem hinCacheUnref_closed (g : ItemId → Option GenPipe) (s : Cache) (i : ItemId) :
    hinCacheUnref { s with generating := g } i = { hinCacheUnref s i with generating := g } := by
  unfold hinCacheUnref
  dsimp only
  by_cases h : (s.items i).refcount - 1 = 0
  · simp only [h, if_true]; rfl
  · simp only [h, if_false]; rfl

theorem unrefQueue_closed (g : ItemId → Option GenPipe) (i : ItemId) (q : List ClientId) (s : Cache) :
    unrefQueue i q { s with generating := g } = { unrefQueue i q s with generating := g } := by
  induction q generalizing s with
  | nil => rfl
  | cons c q ih =>
      have hone : hinCacheUnref (release { s with generating := g } c i) i =
          { hinCacheUnref (release s c i) i with generating := g } := hinCacheUnref_closed g (release s c i) i
      rw [unrefQueue, hone, ih]
      rfl

theorem hinCachePipeErrorCallback_closed (s : Cache) (i : ItemId) :
    hinCachePipeErrorCallback { s with generating := Function.update s.generating i none } i =
      { hinCachePipeErrorCallback s i with
        generating := Function.update (hinCachePipeErrorCallback s i).generating i none } := by
  rw [hinCachePipeErrorCallback_generating]
  unfold hinCachePipeErrorCallback
  rw [unrefQueue_closed]
  rfl

/-! ## `hin_timer_check` -/

theorem due_nodup {s : Cache} (h : s.timers.Nodup) (now : Int) (reach : Nat) : (s.due now reach).Nodup :=
  (h.sublist (List.take_sublist _ _)).sublist (List.takeWhile_sublist _)

end Http
end Hin9
