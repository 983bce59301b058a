import Hin9.Http.CacheFrame

/-!
# `Http.CacheServe` — what is served out of the local cache

A response from the cache is the response the backend produced only if the item was complete when it was served,
if it stays alive while the response pipe reads it, and if nobody truncates its file. `Serving` is the invariant
behind all three: counters never fall below the holders, completed items have the size, hash and file contents of
what their backend produced, and no two items share a file.
-/

namespace Hin9
namespace Http

/-! ## The invariant -/

namespace Cache

variable (s : Cache)

/-- The references of the table and of the responses. -/
def held (i : ItemId) : Int := (if s.Listed i then 1 else 0) + s.sends i

/-- The size and the etag of the whole body the item's backend has produced. -/
def Announces (i : ItemId) (r : FileResponse) : Prop :=
  r.size = (s.history.body i).length ∧ r.etag = pipeHash 6883 (s.history.body i)

/-- The item's file holds the bytes its backend has produced. -/
def Stored (i : ItemId) : Prop := ∃ n, (s.items i).fd = some n ∧ s.disk.data n = s.history.body i

end Cache

/-- **The invariant.** -/
structure Serving (s : Cache) : Prop where
  table : ∀ k i, s.ht k = some i → i < s.next ∧ (s.items i).key = k ∧ (s.items i).error = false
  refs : ∀ i < s.next, (s.items i).error = false →
    s.held i + (s.items i).clientQueue.length ≤ (s.items i).refcount
  freed : ∀ i < s.next, (s.items i).error = false → (s.items i).freed = true → (s.items i).refcount ≤ 0
  timers : s.timers.Nodup ∧ ∀ i ∈ s.timers, i < s.next
  generating : ∀ i pipe, s.generating i = some pipe → i < s.next ∧ (s.items i).done = false ∧
    ((s.items i).error = false → pipe.count = (s.history.body i).length ∧
      pipe.hash = pipeHash 6883 (s.history.body i) ∧ s.Stored i)
  done : ∀ i < s.next, (s.items i).done = true → (s.items i).error = false ∧
    (s.items i).size = (s.history.body i).length ∧ (s.items i).etag = pipeHash 6883 (s.history.body i) ∧ s.Stored i
  fds : ∀ i < s.next, ∀ n, (s.items i).fd = some n →
    n < s.disk.next ∧ ∀ j < s.next, (s.items j).fd = some n → j = i
  names : ∀ k n, s.disk.names k = some n → n < s.disk.next
  sending : ∀ p ∈ s.sending, p.item < s.next ∧ (s.items p.item).done = true ∧ s.Announces p.item p.toFileResponse
  served : ∀ v ∈ s.history.served, v.item < s.next ∧ v.done = true ∧ (s.items v.item).done = true ∧
    ∀ r ∈ v.response, s.Announces v.item r

/-! ## Quiet work keeps it -/

theorem Quiet.held_ne {s s' : Cache} {i j : ItemId} (q : Quiet s s' i) (hj : j ≠ i) : s'.held j = s.held j := by
  unfold Cache.held
  simp only [q.listed j, q.sends j hj]

theorem Quiet.announces {s s' : Cache} {i : ItemId} (q : Quiet s s' i) (j : ItemId) (r : FileResponse) :
    s'.Announces j r ↔ s.Announces j r := by
  unfold Cache.Announces
  rw [q.body]

theorem Quiet.stored {s s' : Cache} {i : ItemId} (q : Quiet s s' i) (j : ItemId) : s'.Stored j ↔ s.Stored j := by
  unfold Cache.Stored
  rw [(q.fields j).2.2.2.2, q.data, q.body]

/-- **The rule for quiet work.** Only the counter of the item, the new responses and the new records are left to
    check. -/
theorem Serving.quiet {s s' : Cache} {i : ItemId} (h : Serving s) (q : Quiet s s' i)
    (hrefs : i < s.next → (s.items i).error = false →
      s'.held i + (s'.items i).clientQueue.length ≤ (s'.items i).refcount)
    (hfreed : i < s.next → (s.items i).error = false → (s'.items i).freed = true → (s'.items i).refcount ≤ 0)
    (hsend : ∀ p ∈ s'.sending, p ∈ s.sending ∨
      p.item < s.next ∧ (s.items p.item).done = true ∧ s.Announces p.item p.toFileResponse)
    (hserved : ∀ v ∈ s'.history.served, v ∈ s.history.served ∨
      v.item < s.next ∧ v.done = true ∧ (s.items v.item).done = true ∧ ∀ r ∈ v.response, s.Announces v.item r) :
    Serving s' := by
  refine ⟨?_, ?_, ?_, ?_, ?_, ?_, ?_, ?_, ?_, ?_⟩
  · intro k j hk
    rw [q.ht] at hk
    rw [q.next, (q.fields j).1, (q.fields j).2.2.1]
    exact h.table k j hk
  · intro j hj herr
    rw [q.next] at hj
    rw [(q.fields j).2.2.1] at herr
    by_cases hji : j = i
    · subst hji; exact hrefs hj herr
    · rw [q.held_ne hji, q.items j hji]; exact h.refs j hj herr
  · intro j hj herr
    rw [q.next] at hj
    rw [(q.fields j).2.2.1] at herr
    by_cases hji : j = i
    · subst hji; exact hfreed hj herr
    · rw [q.items j hji]; exact h.freed j hj herr
  · rw [q.next]
    exact ⟨h.timers.1.sublist q.timers, fun j hj => h.timers.2 j (q.timers.subset hj)⟩
  · intro j pipe hg
    rw [q.opened] at hg
    rw [q.next, (q.fields j).2.1, (q.fields j).2.2.1, q.body, q.stored j]
    exact h.generating j pipe hg
  · intro j hj hd
    rw [q.next] at hj
    rw [(q.fields j).2.1] at hd
    have hfile := (q.fields j).2.2.2.1
    rw [(q.fields j).2.2.1, q.body, q.stored j, show (s'.items j).size = (s.items j).size from congrArg _ hfile,
      show (s'.items j).etag = (s.items j).etag from congrArg FileItem.etag hfile]
    exact h.done j hj hd
  · intro j hj n hn
    rw [q.next] at hj ⊢
    rw [(q.fields j).2.2.2.2] at hn
    rw [q.inodes]
    refine ⟨(h.fds j hj n hn).1, fun m hm hmn => ?_⟩
    rw [(q.fields m).2.2.2.2] at hmn
    exact (h.fds j hj n hn).2 m hm hmn
  · intro k n hk
    rw [q.inodes]
    exact h.names k n (q.names k n hk)
  · intro p hp
    rw [q.next, (q.fields p.item).2.1, q.announces]
    rcases hsend p hp with hp | hp
    · exact h.sending p hp
    · exact hp
  · intro v hv
    simp only [q.next, (q.fields v.item).2.1, q.announces]
    rcases hserved v hv with hv | hv
    · exact h.served v hv
    · exact hv

/-! ## Counters -/

theorem hinCacheUnref_refcount (s : Cache) (i : ItemId) :
    ((hinCacheUnref s i).items i).refcount = (s.items i).refcount - 1 := by
  rw [hinCacheUnref_items, Function.update_self]
  split
  · rename_i h1; rw [h1]; rfl
  · rfl

theorem hinCacheUnref_queue (s : Cache) (i : ItemId) :
    ((hinCacheUnref s i).items i).clientQueue.Sublist (s.items i).clientQueue := by
  rw [hinCacheUnref_items, Function.update_self]
  split
  · exact List.nil_sublist _
  · exact List.Sublist.refl _

theorem hinCacheUnref_held (s : Cache) (i : ItemId) : (hinCacheUnref s i).held i = s.held i := by
  unfold Cache.held Cache.sends
  simp only [(touches_hinCacheUnref s i).listed i, hinCacheUnref_sending]

theorem hinCacheUnref_served (s : Cache) (i : ItemId) :
    (hinCacheUnref s i).history.served = s.history.served := by
  unfold hinCacheUnref; dsimp only; split <;> rfl

theorem hinCacheUnref_freed {s : Cache} {i : ItemId}
    (h : (s.items i).freed = true → (s.items i).refcount ≤ 0)
    (hf : ((hinCacheUnref s i).items i).freed = true) : ((hinCacheUnref s i).items i).refcount ≤ 0 := by
  rw [hinCacheUnref_items, Function.update_self] at hf ⊢
  split at hf
  · rename_i h1; rw [if_pos h1]
  · rename_i h1
    rw [if_neg h1]
    have := h hf
    show (s.items i).refcount - 1 ≤ 0
    omega

/-- Dropping a reference nobody holds. -/
theorem Serving.unref {s : Cache} {i : ItemId} (h : Serving s)
    (hrefs : i < s.next → (s.items i).error = false →
      s.held i + (s.items i).clientQueue.length + 1 ≤ (s.items i).refcount) : Serving (hinCacheUnref s i) := by
  refine h.quiet (quiet_hinCacheUnref s i) ?_ ?_ ?_ ?_
  · intro hi herr
    have hle := (hinCacheUnref_queue s i).length_le
    have := hrefs hi herr
    rw [hinCacheUnref_held, hinCacheUnref_refcount]
    omega
  · exact fun hi herr => hinCacheUnref_freed (h.freed i hi herr)
  · exact fun p hp => Or.inl (by rwa [hinCacheUnref_sending] at hp)
  · exact fun v hv => Or.inl (by rwa [hinCacheUnref_served] at hv)

/-- **Using up references.** From `s` to `s'` every client of `q` uses up one reference of the item at most: its
    response keeps it or it is given back. The responses announce the item, and the calls are recorded. -/
structure Serves (s s' : Cache) (q : List ClientId) (i : ItemId) : Prop extends Quiet s s' i where
  refs : s'.held i - (s'.items i).refcount ≤ s.held i - (s.items i).refcount + q.length
  queue : (s'.items i).clientQueue.Sublist (s.items i).clientQueue
  freed : ((s.items i).freed = true → (s.items i).refcount ≤ 0) →
    (s'.items i).freed = true → (s'.items i).refcount ≤ 0
  responses : ∀ p ∈ s'.sending, p ∈ s.sending ∨
    p.item = i ∧ p.size = (s.items i).size ∧ p.etag = (s.items i).etag
  records : ∀ v ∈ s'.history.served, v ∈ s.history.served ∨
    v.client ∈ q ∧ v.item = i ∧ v.method = (s.clients v.client).method ∧ v.key = (s.clients v.client).key ∧
      v.done = (s.items i).done ∧ ∀ r ∈ v.response, r.size = (s.items i).size ∧ r.etag = (s.items i).etag
  asked : ∀ c, (s'.clients c).method = (s.clients c).method ∧ (s'.clients c).key = (s.clients c).key

namespace Serves

variable {s s' s'' : Cache} {q q' : List ClientId} {i : ItemId}

theorem refl (s : Cache) (i : ItemId) : Serves s s [] i where
  toQuiet := Quiet.refl s i
  refs := by simp
  queue := List.Sublist.refl _
  freed := id
  responses _ hp := Or.inl hp
  records _ hv := Or.inl hv
  asked _ := ⟨rfl, rfl⟩

theorem trans (h : Serves s s' q i) (h' : Serves s' s'' q' i) : Serves s s'' (q ++ q') i where
  toQuiet := h.toQuiet.trans h'.toQuiet
  refs := by
    have h1 := h.refs
    have h2 := h'.refs
    rw [List.length_append]
    push_cast
    omega
  queue := h'.queue.trans h.queue
  freed hf := h'.freed (h.freed hf)
  responses p hp := by
    have hsize : (s'.items i).size = (s.items i).size := congrArg FileItem.size h.file
    have hetag : (s'.items i).etag = (s.items i).etag := congrArg FileItem.etag h.file
    rcases h'.responses p hp with hp | ⟨hi, hs, he⟩
    · exact h.responses p hp
    · exact Or.inr ⟨hi, hs.trans hsize, he.trans hetag⟩
  records v hv := by
    have hsize : (s'.items i).size = (s.items i).size := congrArg FileItem.size h.file
    have hetag : (s'.items i).etag = (s.items i).etag := congrArg FileItem.etag h.file
    rcases h'.records v hv with hv | ⟨hc, hi, hm, hk, hd, hr⟩
    · rcases h.records v hv with hv | ⟨hc, hrest⟩
      · exact Or.inl hv
      · exact Or.inr ⟨List.mem_append_left _ hc, hrest⟩
    · refine Or.inr ⟨List.mem_append_right _ hc, hi, ?_, ?_, ?_, ?_⟩
      · rw [hm, (h.asked v.client).1]
      · rw [hk, (h.asked v.client).2]
      · rw [hd, h.done]
      · exact fun r hmem => ⟨(hr r hmem).1.trans hsize, (hr r hmem).2.trans hetag⟩
  asked c := ⟨(h'.asked c).1.trans (h.asked c).1, (h'.asked c).2.trans (h.asked c).2⟩

end Serves

theorem serves_release (s : Cache) (c : ClientId) (i : ItemId) : Serves s (release s c i) [] i where
  toQuiet := quiet_release s c i
  refs := by
    show s.held i - (s.items i).refcount ≤ _
    simp
  queue := List.Sublist.refl _
  freed := id
  responses _ hp := Or.inl hp
  records _ hv := Or.inl hv
  asked _ := ⟨rfl, rfl⟩

theorem serves_hinCacheUnref (s : Cache) (c : ClientId) (i : ItemId) : Serves s (hinCacheUnref s i) [c] i where
  toQuiet := quiet_hinCacheUnref s i
  refs := by
    rw [hinCacheUnref_held, hinCacheUnref_refcount, List.length_singleton]
    push_cast
    omega
  queue := hinCacheUnref_queue s i
  freed := hinCacheUnref_freed
  responses p hp := Or.inl (by rwa [hinCacheUnref_sending] at hp)
  records v hv := Or.inl (by rwa [hinCacheUnref_served] at hv)
  asked c := by rw [hinCacheUnref_clients]; exact ⟨rfl, rfl⟩

theorem answer_announces {s : Cache} {c : ClientId} {i : ItemId} {now : Int} {r : FileResponse}
    (h : (answer s c i now).2 = some r) : r.size = (s.items i).size ∧ r.etag = (s.items i).etag := by
  obtain ⟨http, hhttp⟩ : ∃ http, (answer s c i now).1 = http := ⟨_, rfl⟩
  exact httpdSendFile_announces (Prod.ext hhttp h)

theorem serves_recordServed (s : Cache) (c : ClientId) (i : ItemId) (now : Int) :
    Serves s (recordServed s c i now) [c] i where
  toQuiet := quiet_recordServed s c i now
  refs := by
    show s.held i - (s.items i).refcount ≤ _
    rw [List.length_singleton]
    push_cast
    omega
  queue := List.Sublist.refl _
  freed := id
  responses _ hp := Or.inl hp
  records v hv := by
    rcases List.mem_append.mp hv with hv | hv
    · exact Or.inl hv
    · rw [List.mem_singleton.mp hv]
      exact Or.inr ⟨List.mem_singleton_self c, rfl, rfl, rfl, rfl, fun r hr => answer_announces hr⟩
  asked c' := by
    show ((Function.update s.clients c (answer s c i now).1) c').method = _ ∧
      ((Function.update s.clients c (answer s c i now).1) c').key = _
    by_cases hc : c' = c
    · subst hc
      rw [Function.update_self]
      obtain ⟨hm, h1, h2⟩ := httpdSendFile_asks
        (hinCacheSetNumber { s.clients c' with status := 200 } ((s.items i).time - now)) (s.items i).toFileItem
      exact ⟨hm, Prod.ext h1 h2⟩
    · rw [Function.update_of_ne hc]
      exact ⟨rfl, rfl⟩

theorem serves_hinCacheServeClient (s : Cache) (c : ClientId) (i : ItemId) (now : Int) (accepts : Bool) :
    Serves s (hinCacheServeClient s c i now accepts) [c] i := by
  have hrec := serves_recordServed s c i now
  have hq := quiet_hinCacheServeClient s c i now accepts
  cases hr : (answer s c i now).2 with
  | none =>
      unfold hinCacheServeClient
      rw [hr]
      exact hrec
  | some r =>
      rw [hinCacheServeClient_some hr] at hq ⊢
      cases accepts with
      | true =>
          refine ⟨hq, ?_, List.Sublist.refl _, id, ?_, hrec.records, hrec.asked⟩
          · have hsends : Cache.sends { recordServed s c i now with sending := ⟨r, c, i⟩ :: s.sending } i
                = s.sends i + 1 := by
              unfold Cache.sends
              simp only [List.countP_cons, decide_true, if_true]
            show Cache.held { recordServed s c i now with sending := ⟨r, c, i⟩ :: s.sending } i -
              (s.items i).refcount ≤ _
            unfold Cache.held
            rw [hsends, List.length_singleton]
            change (if s.Listed i then (1 : Int) else 0) + _ - _ ≤ _
            push_cast
            omega
          · intro p hp
            rcases List.mem_cons.mp hp with rfl | hp
            · exact Or.inr ⟨rfl, answer_announces hr⟩
            · exact Or.inl hp
      | false =>
          -- the refused response gives the reference back
          refine ⟨hq, ?_, hinCacheUnref_queue _ i, fun h hf => hinCacheUnref_freed (s := recordServed s c i now) h hf,
            ?_, ?_, ?_⟩
          · simp only [Bool.false_eq_true, if_false]
            rw [hinCacheUnref_held, hinCacheUnref_refcount, List.length_singleton]
            show s.held i - ((s.items i).refcount - 1) ≤ _
            push_cast
            omega
          · intro p hp
            simp only [Bool.false_eq_true, if_false] at hp
            rw [hinCacheUnref_sending] at hp
            exact Or.inl hp
          · intro v hv
            simp only [Bool.false_eq_true, if_false] at hv
            rw [hinCacheUnref_served] at hv
            exact hrec.records v hv
          · intro c'
            simp only [Bool.false_eq_true, if_false]
            rw [hinCacheUnref_clients]
            exact hrec.asked c'

theorem serves_serveQueue (i : ItemId) (now : Int) (accepts : ClientId → Bool) (q : List ClientId) (s : Cache) :
    Serves s (serveQueue i now accepts q s) q i := by
  induction q generalizing s with
  | nil => exact Serves.refl s i
  | cons c q ih =>
      have h := (serves_hinCacheServeClient s c i now (accepts c)).trans (serves_release _ c i)
      exact h.trans (ih _)

theorem serves_unrefQueue (i : ItemId) (q : List ClientId) (s : Cache) : Serves s (unrefQueue i q s) q i := by
  induction q generalizing s with
  | nil => exact Serves.refl s i
  | cons c q ih =>
      have h := (serves_release s c i).trans (serves_hinCacheUnref _ c i)
      exact h.trans (ih _)

theorem unrefQueue_sending (i : ItemId) (q : List ClientId) (s : Cache) :
    (unrefQueue i q s).sending = s.sending := by
  induction q generalizing s with
  | nil => rfl
  | cons c q ih =>
      rw [unrefQueue, ih, hinCacheUnref_sending]
      rfl

theorem unrefQueue_served (i : ItemId) (q : List ClientId) (s : Cache) :
    (unrefQueue i q s).history.served = s.history.served := by
  induction q generalizing s with
  | nil => rfl
  | cons c q ih =>
      rw [unrefQueue, ih, hinCacheUnref_served]
      rfl

/-! ## The functions of the cache -/

/-- **Serving out of a completed item.** What is sent and recorded announces the body of the item. -/
theorem Serving.serves {s s' : Cache} {q : List ClientId} {i : ItemId} (h : Serving s) (hs : Serves s s' q i)
    (hi : i < s.next) (hdone : (s.items i).done = true)
    (hrefs : s'.held i + (s'.items i).clientQueue.length ≤ (s'.items i).refcount) : Serving s' := by
  obtain ⟨herr, hsize, hetag, -⟩ := h.done i hi hdone
  refine h.quiet hs.toQuiet (fun _ _ => hrefs) (fun _ _ => hs.freed (h.freed i hi herr)) ?_ ?_
  · intro p hp
    rcases hs.responses p hp with hp | ⟨rfl, hps, hpe⟩
    · exact Or.inl hp
    · exact Or.inr ⟨hi, hdone, hps.trans hsize, hpe.trans hetag⟩
  · intro v hv
    rcases hs.records v hv with hv | ⟨-, hvi, -, -, hvd, hvr⟩
    · exact Or.inl hv
    · rw [hvi, hvd]
      exact Or.inr ⟨hi, hdone, hdone, fun r hr => ⟨(hvr r hr).1.trans hsize, (hvr r hr).2.trans hetag⟩⟩

/-- Deleting a pair of the table only takes holders away. -/
theorem Serving.deletePair {s : Cache} (h : Serving s) (i : ItemId) (z : Int) :
    Serving { s.deletePair i with size := z } := by
  have hlist : ∀ j, Cache.Listed { s.deletePair i with size := z } j → s.Listed j := by
    intro j hj
    change Function.update s.ht (s.items i).key none (s.items j).key = some j at hj
    rw [Function.update_apply] at hj
    split at hj
    · exact absurd hj (by simp)
    · exact hj
  refine ⟨?_, ?_, h.freed, h.timers, h.generating, h.done, h.fds, h.names, h.sending, h.served⟩
  · intro k j hk
    change Function.update s.ht (s.items i).key none k = some j at hk
    rw [Function.update_apply] at hk
    split at hk
    · exact absurd hk (by simp)
    · exact h.table k j hk
  · intro j hj herr
    have hr := h.refs j hj herr
    have hle : Cache.held { s.deletePair i with size := z } j ≤ s.held j := by
      unfold Cache.held
      show _ + (s.sends j : Int) ≤ _
      by_cases hl : Cache.Listed { s.deletePair i with size := z } j
      · rw [if_pos hl, if_pos (hlist j hl)]
      · rw [if_neg hl]
        split <;> omega
    show _ + ((s.items j).clientQueue.length : Int) ≤ (s.items j).refcount
    omega

/-- `hin_cache_remove` of an item the table holds. -/
theorem Serving.remove {s : Cache} {i : ItemId} (h : Serving s) (hl : s.Listed i) :
    Serving (hinCacheRemove s i) := by
  refine (h.deletePair i (s.size - (s.items i).size)).unref ?_
  intro hi herr
  have hr := h.refs i hi herr
  have hheld : s.held i = 1 + s.sends i := by
    unfold Cache.held
    rw [if_pos hl]
  have hgone : Cache.held { s.deletePair i with size := s.size - (s.items i).size } i = s.sends i := by
    unfold Cache.held
    rw [if_neg]
    · show (0 : Int) + s.sends i = _
      omega
    · intro hh
      change Function.update s.ht (s.items i).key none (s.items i).key = some i at hh
      rw [Function.update_self] at hh
      exact absurd hh (by simp)
  show _ + ((s.items i).clientQueue.length : Int) + 1 ≤ (s.items i).refcount
  rw [hgone]
  omega

/-- A change of an item that keeps its key and holders keeps its references. -/
theorem held_setItem (s : Cache) (i j : ItemId) (item : CacheItem) (hkey : item.key = (s.items i).key) :
    (s.setItem i item).held j = s.held j := by
  have t := touches_setItem s i item hkey
  unfold Cache.held
  simp only [t.listed j]
  rfl

/-- The generating pipe of an item has closed: what it wrote is what the item becomes. -/
theorem Serving.complete {s : Cache} {i : ItemId} {pipe : GenPipe} (h : Serving s) (hi : i < s.next) (now : Int)
    (hclosed : s.generating i = none) (herr : (s.items i).error = false)
    (hcount : pipe.count = (s.history.body i).length) (hhash : pipe.hash = pipeHash 6883 (s.history.body i))
    (hstored : s.Stored i) : Serving (complete s i pipe now) := by
  obtain ⟨item, hitem⟩ : ∃ item : CacheItem, item =
    { s.items i with size := pipe.count, etag := pipe.hash, done := true, modified := now } := ⟨_, rfl⟩
  obtain ⟨s', hs'⟩ : ∃ s', s' = Http.complete s i pipe now := ⟨_, rfl⟩
  have t : Touches s s' i := hs' ▸ touches_complete s i pipe now
  have hself : s'.items i = item := by rw [hs', hitem]; exact Function.update_self _ _ _
  have hother : ∀ j, j ≠ i → s'.items j = s.items j := t.items
  have hsame : ∀ j, (s'.items j).key = (s.items j).key ∧ (s'.items j).error = (s.items j).error ∧
      (s'.items j).clientQueue = (s.items j).clientQueue ∧ (s'.items j).refcount = (s.items j).refcount ∧
      (s'.items j).freed = (s.items j).freed ∧ (s'.items j).fd = (s.items j).fd := by
    intro j
    by_cases hj : j = i
    · subst hj; rw [hself, hitem]; exact ⟨rfl, rfl, rfl, rfl, rfl, rfl⟩
    · rw [hother j hj]; exact ⟨rfl, rfl, rfl, rfl, rfl, rfl⟩
  have hdone : ∀ j, (s.items j).done = true → (s'.items j).done = true := by
    intro j hd
    by_cases hj : j = i
    · subst hj; rw [hself, hitem]
    · rw [hother j hj]; exact hd
  have hbody : s'.history = s.history := by rw [hs']; rfl
  have hdisk : s'.disk = s.disk := by rw [hs']; rfl
  have hst : ∀ j, s'.Stored j ↔ s.Stored j := by
    intro j
    unfold Cache.Stored
    rw [(hsame j).2.2.2.2.2, hdisk, hbody]
  have hheld : ∀ j, s'.held j = s.held j := by
    intro j
    rw [hs']
    exact held_setItem s i j _ rfl
  have hgen : s'.generating = s.generating := by rw [hs']; rfl
  rw [← hs']
  refine ⟨?_, ?_, ?_, ?_, ?_, ?_, ?_, ?_, ?_, ?_⟩
  · intro k j hk
    rw [t.ht] at hk
    rw [t.next, (hsame j).1, (hsame j).2.1]
    exact h.table k j hk
  · intro j hj he
    rw [(hsame j).2.1] at he
    rw [hheld, (hsame j).2.2.1, (hsame j).2.2.2.1]
    exact h.refs j (t.next ▸ hj) he
  · intro j hj he
    rw [(hsame j).2.1] at he
    rw [(hsame j).2.2.2.1, (hsame j).2.2.2.2.1]
    exact h.freed j (t.next ▸ hj) he
  · rw [t.next]
    exact ⟨h.timers.1.sublist t.timers, fun j hj => h.timers.2 j (t.timers.subset hj)⟩
  · intro j p hp
    have hji : j ≠ i := by
      intro hji
      subst hji
      rw [hgen, hclosed] at hp
      exact absurd hp (by simp)
    rw [hgen] at hp
    rw [t.next, hother j hji, hbody, hst]
    exact h.generating j p hp
  · intro j hj hd
    by_cases hji : j = i
    · subst hji
      rw [hself, hitem, hbody, hst]
      exact ⟨herr, hcount, hhash, hstored⟩
    · rw [hother j hji] at hd ⊢
      rw [hbody, hst]
      exact h.done j (t.next ▸ hj) hd
  · intro j hj n hn
    rw [t.next] at hj ⊢
    rw [(hsame j).2.2.2.2.2] at hn
    rw [hdisk]
    refine ⟨(h.fds j hj n hn).1, fun m hm hmn => ?_⟩
    rw [(hsame m).2.2.2.2.2] at hmn
    exact (h.fds j hj n hn).2 m hm hmn
  · rw [hdisk]
    exact h.names
  · intro p hp
    have hp' : p ∈ s.sending := by rw [hs'] at hp; exact hp
    have hold := h.sending p hp'
    rw [t.next]
    unfold Cache.Announces
    rw [hbody]
    exact ⟨hold.1, hdone _ hold.2.1, hold.2.2⟩
  · intro v hv
    rw [hbody] at hv
    have hold := h.served v hv
    rw [t.next]
    unfold Cache.Announces
    rw [hbody]
    exact ⟨hold.1, hold.2.1, hdone _ hold.2.2.1, hold.2.2.2⟩

/-- `hin_cache_finish` of an item whose pipe has closed. -/
theorem Serving.finish {s : Cache} {i : ItemId} {pipe : GenPipe} (h : Serving s) (hi : i < s.next) (now : Int)
    (accepts : ClientId → Bool) (hclosed : s.generating i = none)
    (hfilled : (s.items i).error = false → pipe.count = (s.history.body i).length ∧
      pipe.hash = pipeHash 6883 (s.history.body i) ∧ s.Stored i) :
    Serving (hinCacheFinish s i pipe now accepts) := by
  unfold hinCacheFinish
  cases herr : (s.items i).error with
  | true =>
      rw [if_pos rfl]
      exact h.unref fun _ he => absurd (herr.symm.trans he) (by simp)
  | false =>
      rw [if_neg (by simp)]
      obtain ⟨hcount, hhash, hstored⟩ := hfilled herr
      have hc := h.complete hi now hclosed herr hcount hhash hstored
      have hitem : (Http.complete s i pipe now).items i =
        { s.items i with size := pipe.count, etag := pipe.hash, done := true, modified := now } :=
          Function.update_self _ _ _
      have hs := serves_serveQueue i now accepts (s.items i).clientQueue (Http.complete s i pipe now)
      -- the emptied queue makes up for the references the loop has used
      have hempty := (hs.toQuiet).trans (quiet_emptyQueue _ i)
      have hr := h.refs i hi herr
      have huse := hs.refs
      rw [show (Http.complete s i pipe now).held i = s.held i from held_setItem s i i _ rfl, hitem] at huse
      refine hc.serves (q := (s.items i).clientQueue) ⟨hempty, ?_, ?_, ?_, hs.responses, hs.records, hs.asked⟩ hi
        (by rw [hitem]) ?_
      · rw [show (emptyQueue (serveQueue i now accepts (s.items i).clientQueue (Http.complete s i pipe now)) i).held i =
            (serveQueue i now accepts (s.items i).clientQueue (Http.complete s i pipe now)).held i from
          held_setItem _ i i _ rfl]
        simpa [emptyQueue, Cache.setItem] using hs.refs
      · simp [emptyQueue, Cache.setItem]
      · simpa [emptyQueue, Cache.setItem] using hs.freed
      · rw [show (emptyQueue (serveQueue i now accepts (s.items i).clientQueue (Http.complete s i pipe now)) i).held i =
            (serveQueue i now accepts (s.items i).clientQueue (Http.complete s i pipe now)).held i from
          held_setItem _ i i _ rfl]
        simp only [emptyQueue, Cache.setItem, Function.update_self, List.length_nil, Nat.cast_zero, add_zero]
        change _ - _ ≤ s.held i - (s.items i).refcount + _ at huse
        omega

/-- Failing: an item that is not complete leaves the table with its error flag set. -/
theorem Serving.fail {s : Cache} {i : ItemId} (h : Serving s) (hdone : (s.items i).done = false) :
    Serving ((setError s i).deletePair i) := by
  have hd := h.deletePair i s.size
  obtain ⟨s', hs'⟩ : ∃ s', s' = (setError s i).deletePair i := ⟨_, rfl⟩
  have hself : s'.items i = { s.items i with error := true } := by
    rw [hs']; exact Function.update_self _ _ _
  have hother : ∀ j, j ≠ i → s'.items j = s.items j := fun j hj => by
    rw [hs']; exact Function.update_of_ne hj _ _
  have hht : s'.ht = (s.deletePair i).ht := by
    rw [hs']
    unfold Cache.deletePair setError
    simp [Cache.setItem]
  have hrest : s'.next = s.next ∧ s'.timers = s.timers ∧ s'.generating = s.generating ∧ s'.disk = s.disk ∧
      s'.history = s.history ∧ s'.sending = s.sending := by
    rw [hs']; exact ⟨rfl, rfl, rfl, rfl, rfl, rfl⟩
  obtain ⟨hnext, htim, hgen, hdisk, hhist, hsend⟩ := hrest
  have hsame : ∀ j, (s'.items j).key = (s.items j).key ∧ (s'.items j).done = (s.items j).done ∧
      (s'.items j).fd = (s.items j).fd := by
    intro j
    by_cases hj : j = i
    · subst hj; rw [hself]; exact ⟨rfl, rfl, rfl⟩
    · rw [hother j hj]; exact ⟨rfl, rfl, rfl⟩
  have herr : ∀ j, (s'.items j).error = false → j ≠ i ∧ (s.items j).error = false := by
    intro j he
    by_cases hj : j = i
    · subst hj; rw [hself] at he; exact absurd he (by simp)
    · rw [hother j hj] at he; exact ⟨hj, he⟩
  have hst : ∀ j, s'.Stored j ↔ s.Stored j := by
    intro j
    unfold Cache.Stored
    rw [(hsame j).2.2, hdisk, hhist]
  rw [← hs']
  refine ⟨?_, ?_, ?_, ?_, ?_, ?_, ?_, ?_, ?_, ?_⟩
  · intro k j hk
    rw [hht] at hk
    have ht := hd.table k j hk
    -- the item itself is not found under its key any more
    have hji : j ≠ i := by
      intro hji
      have hkey : k = (s.items i).key := by rw [← hji]; exact ht.2.1.symm
      change Function.update s.ht (s.items i).key none k = some j at hk
      rw [hkey, Function.update_self] at hk
      exact absurd hk (by simp)
    rw [hnext, hother j hji]
    exact ht
  · intro j hj he
    obtain ⟨hji, he⟩ := herr j he
    rw [hother j hji]
    have hr := hd.refs j (hnext ▸ hj) he
    have hl : s'.Listed j ↔ Cache.Listed { s.deletePair i with size := s.size } j := by
      unfold Cache.Listed
      rw [hht, (hsame j).1]
      rfl
    have hheld : s'.held j = Cache.held { s.deletePair i with size := s.size } j := by
      unfold Cache.held Cache.sends
      simp only [hl, hsend]
      rfl
    rw [hheld]
    exact hr
  · intro j hj he
    obtain ⟨hji, he⟩ := herr j he
    rw [hother j hji]
    exact h.freed j (hnext ▸ hj) he
  · rw [htim, hnext]
    exact h.timers
  · intro j p hp
    rw [hgen] at hp
    have hg := h.generating j p hp
    rw [hnext, (hsame j).2.1, hhist, hst]
    exact ⟨hg.1, hg.2.1, fun he => hg.2.2 (herr j he).2⟩
  · intro j hj hdn
    rw [(hsame j).2.1] at hdn
    have hji : j ≠ i := by
      intro hji
      rw [hji, hdone] at hdn
      exact absurd hdn (by simp)
    rw [hother j hji, hhist, hst]
    exact h.done j (hnext ▸ hj) hdn
  · intro j hj n hn
    rw [hnext] at hj ⊢
    rw [(hsame j).2.2] at hn
    rw [hdisk]
    refine ⟨(h.fds j hj n hn).1, fun m hm hmn => ?_⟩
    rw [(hsame m).2.2] at hmn
    exact (h.fds j hj n hn).2 m hm hmn
  · rw [hdisk]
    exact h.names
  · intro p hp
    rw [hsend] at hp
    rw [hnext, (hsame p.item).2.1]
    unfold Cache.Announces
    rw [hhist]
    exact h.sending p hp
  · intro v hv
    rw [hhist] at hv
    rw [hnext, (hsame v.item).2.1]
    unfold Cache.Announces
    rw [hhist]
    exact h.served v hv

/-- `hin_cache_pipe_error_callback` on an item that is not complete. -/
theorem Serving.error {s : Cache} {i : ItemId} (h : Serving s) (hdone : (s.items i).done = false) :
    Serving (hinCachePipeErrorCallback s i) := by
  have hs := serves_unrefQueue i (s.items i).clientQueue s
  have hq := hs.toQuiet.trans (quiet_emptyQueue _ i)
  have hitem : (emptyQueue (unrefQueue i (s.items i).clientQueue s) i).items i =
      { (unrefQueue i (s.items i).clientQueue s).items i with clientQueue := [] } := Function.update_self _ _ _
  refine Serving.fail ?_ (by rw [hq.done]; exact hdone)
  refine h.quiet hq ?_ ?_ ?_ ?_
  · intro hi herr
    have hr := h.refs i hi herr
    have huse := hs.refs
    rw [show (emptyQueue (unrefQueue i (s.items i).clientQueue s) i).held i =
      (unrefQueue i (s.items i).clientQueue s).held i from held_setItem _ i i _ rfl, hitem]
    show _ + (([] : List ClientId).length : Int) ≤
      ((unrefQueue i (s.items i).clientQueue s).items i).refcount
    rw [List.length_nil]
    omega
  · intro hi herr
    rw [hitem]
    exact hs.freed (h.freed i hi herr)
  · -- no response is started: the queue holds clients of an incomplete item
    exact fun p hp => Or.inl (unrefQueue_sending i _ s ▸ hp)
  · exact fun v hv => Or.inl (unrefQueue_served i _ s ▸ hv)

/-- `hin_cache_check`, if it finds a completed item only. -/
theorem Serving.check {s : Cache} (h : Serving s) (c : ClientId) (now : Int) (accepts : Bool)
    (hdone : ∀ i ∈ s.hit c, (s.items i).done = true) : Serving (hinCacheCheck s c now accepts).1 := by
  rw [hinCacheCheck_eq]
  cases hk : s.hit c with
  | none => exact h
  | some i =>
      have hht := Cache.hit_ht hk
      have hi := (h.table _ _ hht).1
      have hd := hdone i hk
      have hr := h.refs i hi (h.done i hi hd).1
      have hf := h.freed i hi (h.done i hi hd).1
      have hs := serves_hinCacheServeClient (ref s i) c i now accepts
      have hitem : (ref s i).items i = { s.items i with refcount := (s.items i).refcount + 1 } :=
        Function.update_self _ _ _
      have hheld : (ref s i).held i = s.held i := held_setItem s i i _ rfl
      have hpos : 1 ≤ s.held i := by
        unfold Cache.held
        rw [if_pos (by unfold Cache.Listed; rw [(h.table _ _ hht).2.1, hht])]
        omega
      have hqueue := hs.queue
      have huse := hs.refs
      rw [hheld, hitem] at huse
      rw [hitem] at hqueue
      change _ ≤ s.held i - ((s.items i).refcount + 1) + _ at huse
      change List.Sublist _ (s.items i).clientQueue at hqueue
      have hlen := hqueue.length_le
      rw [List.length_singleton] at huse
      push_cast at huse
      show Serving (hinCacheServeClient (ref s i) c i now accepts)
      refine h.serves (q := [c]) ⟨(quiet_ref s i).trans hs.toQuiet, ?_, hqueue, ?_, ?_, ?_, hs.asked⟩ hi hd ?_
      · rw [List.length_singleton]
        push_cast
        omega
      · -- an item of the table is alive, so the counter it gains brings nothing back to life
        intro hfr
        refine hs.freed ?_
        rw [hitem]
        intro hfreed
        have := hf hfreed
        show (s.items i).refcount + 1 ≤ 0
        omega
      · intro p hp
        have hp' := hs.responses p hp
        rw [hitem] at hp'
        exact hp'
      · intro v hv
        have hv' := hs.records v hv
        rw [hitem] at hv'
        exact hv'
      · omega

/-- `done_file`. -/
theorem Serving.sent {s : Cache} {pipe : FilePipe} (h : Serving s) (hp : pipe ∈ s.sending) :
    Serving (doneFile s pipe) := by
  have hcount : ∀ j, Cache.sends { s with sending := s.sending.erase pipe } j =
      s.sends j - if j = pipe.item then 1 else 0 := sends_erase hp
  have hpos : 1 ≤ s.sends pipe.item := one_le_sends hp
  have hb : Serving { s with sending := s.sending.erase pipe } := by
    refine ⟨h.table, ?_, h.freed, h.timers, h.generating, h.done, h.fds, h.names, ?_, h.served⟩
    · intro j hj he
      have hr := h.refs j hj he
      unfold Cache.held at hr ⊢
      rw [hcount]
      change (if s.Listed j then (1 : Int) else 0) + _ + ((s.items j).clientQueue.length : Int) ≤ (s.items j).refcount
      omega
    · exact fun p hp => h.sending p (List.mem_of_mem_erase hp)
  refine hb.unref ?_
  intro hi he
  have hr := h.refs pipe.item hi he
  unfold Cache.held at hr ⊢
  rw [hcount, if_pos rfl]
  change (if s.Listed pipe.item then (1 : Int) else 0) + _ + ((s.items pipe.item).clientQueue.length : Int) + 1 ≤
    (s.items pipe.item).refcount
  omega

/-- A tick all of whose timers belong to items of the table. -/
theorem Serving.timeouts (l : List ItemId) {s : Cache} (h : Serving s) (hnd : l.Nodup) (hl : ∀ i ∈ l, s.Listed i) :
    Serving (l.foldl hinCacheTimeoutCallback s) := by
  induction l generalizing s with
  | nil => exact h
  | cons i l ih =>
      rw [List.nodup_cons] at hnd
      have hli := hl i List.mem_cons_self
      refine ih (h.remove hli) hnd.2 fun j hj => ?_
      exact listed_remove hli (hl j (List.mem_cons_of_mem i hj)) fun hij => hnd.1 (hij ▸ hj)

/-! ## The backend's output -/

/-- Writing at the end of a file appends. -/
theorem overwrite_end (file data : Bytes) : Disk.overwrite file file.length data = file ++ data := by
  unfold Disk.overwrite
  rw [Nat.sub_self, List.take_length, List.drop_eq_nil_of_le (Nat.le_add_right _ _)]
  simp

theorem pipeHash_append (hash : UInt64) (data data' : Bytes) :
    pipeHash hash (data ++ data') = pipeHash (pipeHash hash data) data' := by
  unfold pipeHash
  rw [List.foldl_append]

/-- What one item's backend produces reaches that item's file only. -/
theorem generated_stored_ne {s : Cache} {i j : ItemId} (h : Serving s) (hi : i < s.next) (hj : j < s.next)
    (hji : j ≠ i) (pipe : GenPipe) (data : Bytes) (hst : s.Stored j) : (generated s i pipe data).Stored j := by
  obtain ⟨n, hfd, hdata⟩ := hst
  refine ⟨n, hfd, ?_⟩
  have hbody : (generated s i pipe data).history.body j = s.history.body j := Function.update_of_ne hji _ _
  rw [hbody, ← hdata]
  unfold generated
  dsimp only
  cases hfi : (s.items i).fd with
  | none => rfl
  | some m =>
      have hnm : n ≠ m := fun hnm => hji ((h.fds i hi m hfi).2 j hj (hnm ▸ hfd))
      exact Function.update_of_ne hnm _ _

/-- A write of the generating pipe. -/
theorem Serving.generated {s : Cache} {i : ItemId} {pipe : GenPipe} (h : Serving s)
    (hp : s.generating i = some pipe) (data : Bytes) : Serving (generated s i pipe data) := by
  obtain ⟨hi, hnd, hfill⟩ := h.generating i pipe hp
  have hdisk : (Http.generated s i pipe data).disk.next = s.disk.next ∧
      (Http.generated s i pipe data).disk.names = s.disk.names := by
    unfold Http.generated
    cases (s.items i).fd <;> exact ⟨rfl, rfl⟩
  have hne : ∀ j, (s.items j).done = true → j ≠ i := by
    intro j hd hji
    rw [hji, hnd] at hd
    exact absurd hd (by simp)
  have hann : ∀ j r, (s.items j).done = true → s.Announces j r → (Http.generated s i pipe data).Announces j r := by
    intro j r hd hr
    have hbody : (Http.generated s i pipe data).history.body j = s.history.body j :=
      Function.update_of_ne (hne j hd) _ _
    unfold Cache.Announces at hr ⊢
    rwa [hbody]
  refine ⟨h.table, h.refs, h.freed, h.timers, ?_, ?_, ?_, ?_, ?_, ?_⟩
  · intro j p hj
    change Function.update s.generating i _ j = some p at hj
    by_cases hji : j = i
    · subst hji
      rw [Function.update_self] at hj
      have hpe := (Option.some.inj hj).symm
      subst hpe
      refine ⟨hi, hnd, fun herr => ?_⟩
      obtain ⟨hcount, hhash, n, hfd, hdata⟩ := hfill herr
      have hbody : (Http.generated s j pipe data).history.body j = s.history.body j ++ data :=
        Function.update_self _ _ _
      rw [hbody]
      refine ⟨?_, ?_, n, hfd, ?_⟩
      · show pipe.count + data.length = _
        rw [hcount, List.length_append]
      · show pipeHash pipe.hash data = _
        rw [hhash, ← pipeHash_append]
      · rw [hbody]
        unfold Http.generated
        simp only [hfd]
        show Function.update s.disk.data n (Disk.overwrite (s.disk.data n) pipe.count data) n = _
        rw [Function.update_self, hdata, hcount, overwrite_end]
    · rw [Function.update_of_ne hji] at hj
      obtain ⟨hjn, hjd, hjf⟩ := h.generating j p hj
      have hbody : (Http.generated s i pipe data).history.body j = s.history.body j := Function.update_of_ne hji _ _
      refine ⟨hjn, hjd, fun herr => ?_⟩
      obtain ⟨hcount, hhash, hst⟩ := hjf herr
      rw [hbody]
      exact ⟨hcount, hhash, generated_stored_ne h hi hjn hji pipe data hst⟩
  · intro j hj hd
    obtain ⟨herr, hsize, hetag, hst⟩ := h.done j hj hd
    have hbody : (Http.generated s i pipe data).history.body j = s.history.body j :=
      Function.update_of_ne (hne j hd) _ _
    rw [hbody]
    exact ⟨herr, hsize, hetag, generated_stored_ne h hi hj (hne j hd) pipe data hst⟩
  · rw [hdisk.1]
    exact h.fds
  · rw [hdisk.1, hdisk.2]
    exact h.names
  · intro p hpm
    obtain ⟨hpi, hpd, hpa⟩ := h.sending p hpm
    exact ⟨hpi, hpd, hann _ _ hpd hpa⟩
  · intro v hv
    obtain ⟨hvi, hvd, hvdone, hva⟩ := h.served v hv
    exact ⟨hvi, hvd, hvdone, fun r hr => hann _ _ hvdone (hva r hr)⟩

/-- Closing the generating pipe. -/
theorem Serving.closed {s : Cache} (h : Serving s) (i : ItemId) :
    Serving { s with generating := Function.update s.generating i none } := by
  refine ⟨h.table, h.refs, h.freed, h.timers, ?_, h.done, h.fds, h.names, h.sending, h.served⟩
  intro j p hp
  change Function.update s.generating i none j = some p at hp
  by_cases hji : j = i
  · subst hji
    rw [Function.update_self] at hp
    exact absurd hp (by simp)
  · rw [Function.update_of_ne hji] at hp
    exact h.generating j p hp

/-! ## `hin_cache_save` -/

/-- A client is queued on an item of the table. -/
theorem Serving.queue {s s' : Cache} {i : ItemId} (h : Serving s) (hl : s.ht (s.items i).key = some i) (c : ClientId)
    (hs : s' = { s.setItem i { s.items i with
        clientQueue := c :: (s.items i).clientQueue, refcount := (s.items i).refcount + 1 } with
      history := { s.history with queued := s.history.queued ++ [(c, i)] } }) : Serving s' := by
  have hself : s'.items i = { s.items i with
      clientQueue := c :: (s.items i).clientQueue, refcount := (s.items i).refcount + 1 } := by
    rw [hs]; exact Function.update_self _ _ _
  have hheld : s'.held i = s.held i := by rw [hs]; exact held_setItem s i i _ rfl
  have hpos : 1 ≤ s.held i := by
    unfold Cache.held
    rw [if_pos (show s.Listed i from hl)]
    omega
  have t := touches_setItem s i { s.items i with
    clientQueue := c :: (s.items i).clientQueue, refcount := (s.items i).refcount + 1 } rfl
  have hq : Quiet s s' i := by
    have ht : Touches s s' i := by
      rw [hs]
      exact ⟨t.next, t.ht, t.items, t.key, t.sends, t.sending, t.timers, t.generating⟩
    refine ⟨ht, ?_, ?_, ?_, ?_, ?_, ?_, ?_, ?_, ?_, ?_⟩
    · rw [hself]
    · rw [hself]
    · rw [hself]
    · rw [hself]
    · rw [hs]; rfl
    · rw [hs]
    · rw [hs]
    · rw [hs]; rfl
    · rw [hs]; rfl
    · intro k n hk
      rw [hs] at hk
      exact hk
  refine h.quiet hq ?_ ?_ ?_ ?_
  · intro hi herr
    have hr := h.refs i hi herr
    rw [hheld, hself]
    show s.held i + ((c :: (s.items i).clientQueue).length : Int) ≤ (s.items i).refcount + 1
    rw [List.length_cons]
    push_cast
    omega
  · -- the table holds a reference, so the item is alive
    intro hi herr hfr
    rw [hself] at hfr
    have hr := h.refs i hi herr
    have hf := h.freed i hi herr hfr
    omega
  · intro p hp
    rw [hs] at hp
    exact Or.inl hp
  · intro v hv
    rw [hs] at hv
    exact Or.inl hv

/-- A new item, in the table under a key that was free, on an inode of its own. -/
theorem Serving.alloc {s s' : Cache} (item : CacheItem) (h : Serving s)
    (hnew : item.done = false ∧ item.error = false ∧ item.freed = false ∧ item.refcount = 2 ∧
      item.clientQueue.length = 1)
    (hnext : s'.next = s.next + 1) (hht : s'.ht = Function.update s.ht item.key (some s.next))
    (hitems : s'.items = Function.update s.items s.next item) (hsend : s'.sending = s.sending)
    (htimers : s'.timers.Nodup ∧ ∀ j ∈ s'.timers, j < s.next + 1)
    (hbody : s'.history.body = Function.update s.history.body s.next [])
    (hserved : s'.history.served = s.history.served)
    (hgen : ∀ j pipe, s'.generating j = some pipe → s.generating j = some pipe ∨
      j = s.next ∧ pipe = {} ∧ ∃ n, item.fd = some n ∧ s'.disk.data n = [])
    (hnextfd : s.disk.next ≤ s'.disk.next) (hdata : ∀ n < s.disk.next, s'.disk.data n = s.disk.data n)
    (hfd : ∀ n, item.fd = some n → s.disk.next ≤ n ∧ n < s'.disk.next)
    (hnames : ∀ k n, s'.disk.names k = some n → n < s'.disk.next) : Serving s' := by
  obtain ⟨hdone, herr, hfreed, hrefs, hqueue⟩ := hnew
  have hself : s'.items s.next = item := by rw [hitems, Function.update_self]
  have hother : ∀ j < s.next, s'.items j = s.items j := fun j hj => by
    rw [hitems, Function.update_of_ne (Nat.ne_of_lt hj)]
  have hbodies : ∀ j < s.next, s'.history.body j = s.history.body j := fun j hj => by
    rw [hbody, Function.update_of_ne (Nat.ne_of_lt hj)]
  have hcases : ∀ j < s'.next, j < s.next ∨ j = s.next := fun j hj =>
    Nat.lt_succ_iff_lt_or_eq.mp (show j < s.next + 1 from hnext ▸ hj)
  have hup : ∀ j < s.next, j < s'.next := fun j hj => hnext ▸ Nat.lt_succ_of_lt hj
  have hst : ∀ j < s.next, s.Stored j → s'.Stored j := by
    rintro j hj ⟨n, hn, hd⟩
    exact ⟨n, by rw [hother j hj]; exact hn, by rw [hdata n (h.fds j hj n hn).1, hbodies j hj]; exact hd⟩
  have hann : ∀ j < s.next, ∀ r, s.Announces j r → s'.Announces j r := by
    intro j hj r hr
    unfold Cache.Announces at hr ⊢
    rwa [hbodies j hj]
  have hsends : ∀ j, s'.sends j = s.sends j := by
    intro j
    unfold Cache.sends
    rw [hsend]
  have hnone : s.sends s.next = 0 := by
    unfold Cache.sends
    rw [List.countP_eq_zero]
    intro p hp
    have := (h.sending p hp).1
    simpa using Nat.ne_of_lt this
  refine ⟨?_, ?_, ?_, ?_, ?_, ?_, ?_, ?_, ?_, ?_⟩
  · intro k j hk
    rw [hht, Function.update_apply] at hk
    split at hk
    · rename_i hkey
      have hj := (Option.some.inj hk).symm
      subst hj
      rw [hself, hkey, hnext]
      exact ⟨Nat.lt_succ_self _, rfl, herr⟩
    · obtain ⟨hj, hjk, hje⟩ := h.table k j hk
      rw [hother j hj]
      exact ⟨hup j hj, hjk, hje⟩
  · intro j hj he
    unfold Cache.held
    rw [hsends]
    rcases hcases j hj with hj | rfl
    · have hl : s'.Listed j → s.Listed j := by
        unfold Cache.Listed
        rw [hht, hother j hj, Function.update_apply]
        split
        · exact fun hn => absurd (Option.some.inj hn) (Nat.ne_of_gt hj)
        · exact id
      rw [hother j hj] at he ⊢
      have hr := h.refs j hj he
      unfold Cache.held at hr
      by_cases hls : s'.Listed j
      · rw [if_pos hls]; rwa [if_pos (hl hls)] at hr
      · rw [if_neg hls]
        split at hr <;> omega
    · rw [hnone, hself, hrefs, hqueue]
      split <;> simp
  · intro j hj he hf
    rcases hcases j hj with hj | rfl
    · rw [hother j hj] at he hf ⊢
      exact h.freed j hj he hf
    · rw [hself, hfreed] at hf
      exact absurd hf (by simp)
  · rw [hnext]
    exact htimers
  · intro j pipe hg
    rcases hgen j pipe hg with hg | ⟨rfl, rfl, n, hn, hd⟩
    · obtain ⟨hj, hjd, hjf⟩ := h.generating j pipe hg
      rw [hother j hj, hbodies j hj]
      refine ⟨hup j hj, hjd, fun he => ?_⟩
      obtain ⟨hc, hh, hs⟩ := hjf he
      exact ⟨hc, hh, hst j hj hs⟩
    · have hempty : s'.history.body s.next = [] := by rw [hbody, Function.update_self]
      rw [hself, hempty, hnext]
      refine ⟨Nat.lt_succ_self _, hdone, fun _ => ⟨rfl, rfl, n, ?_, ?_⟩⟩
      · rw [hself]; exact hn
      · rw [hempty]; exact hd
  · intro j hj hd
    rcases hcases j hj with hj | rfl
    · rw [hother j hj] at hd ⊢
      obtain ⟨he, hs, ht, hS⟩ := h.done j hj hd
      rw [hbodies j hj]
      exact ⟨he, hs, ht, hst j hj hS⟩
    · rw [hself, hdone] at hd
      exact absurd hd (by simp)
  · intro j hj n hn
    rcases hcases j hj with hj | rfl
    · rw [hother j hj] at hn
      obtain ⟨hlt, huniq⟩ := h.fds j hj n hn
      refine ⟨Nat.lt_of_lt_of_le hlt hnextfd, fun m hm hmn => ?_⟩
      rcases hcases m hm with hm | rfl
      · rw [hother m hm] at hmn
        exact huniq m hm hmn
      · rw [hself] at hmn
        exact absurd (hfd n hmn).1 (Nat.not_le_of_lt hlt)
    · rw [hself] at hn
      refine ⟨(hfd n hn).2, fun m hm hmn => ?_⟩
      rcases hcases m hm with hm | rfl
      · rw [hother m hm] at hmn
        exact absurd (hfd n hn).1 (Nat.not_le_of_lt (h.fds m hm n hmn).1)
      · rfl
  · exact hnames
  · intro p hp
    rw [hsend] at hp
    obtain ⟨hpi, hpd, hpa⟩ := h.sending p hp
    rw [hother _ hpi]
    exact ⟨hup _ hpi, hpd, hann _ hpi _ hpa⟩
  · intro v hv
    rw [hserved] at hv
    obtain ⟨hvi, hvd, hvdone, hva⟩ := h.served v hv
    rw [hother _ hvi]
    exact ⟨hup _ hvi, hvd, hvdone, fun r hr => hann _ hvi r (hva r hr)⟩

/-- Opening a file no name leads to yet creates an empty one. -/
theorem openTrunc_fresh {d : Disk} {name : Key} (h : d.names name = none) :
    d.openTrunc name = ({ names := Function.update d.names name (some d.next)
                          data := Function.update d.data d.next []
                          next := d.next + 1 }, d.next) := by
  unfold Disk.openTrunc
  rw [h]

/-- The offer of a response, if a file it opens for a new item is not the file of an earlier one. -/
theorem Serving.save {s : Cache} (h : Serving s) (c : ClientId) (openOk : Bool) (now : Int)
    (hname : s.Opens c → openOk = true → s.disk.names (s.clients c).key = none) :
    Serving (hinCgiOfferCache s c openOk now).1 := by
  have htimers : ∀ new, (timersWith s.timers s.next new).Nodup ∧
      ∀ j ∈ timersWith s.timers s.next new, j < s.next + 1 := fun new =>
    timersWith_fresh new h.timers.1 h.timers.2
  rcases hinCgiOfferCache_cases s c openOk now with hs | ⟨i, hk, hs⟩ | ⟨-, -, hs⟩ | ⟨hk, hopen, hs⟩
  · rw [hs]
    exact h
  · have hht := (Cache.joins_ht hk).2
    exact h.queue (by rw [(h.table _ _ hht).2.1]; exact hht) c hs
  · rw [hs]
    refine h.alloc (newItem c (s.clients c).key) ⟨rfl, rfl, rfl, rfl, rfl⟩ rfl rfl rfl rfl (htimers 0) rfl rfl
      (fun j pipe hg => Or.inl hg) (le_refl _) (fun _ _ => rfl) ?_ h.names
    exact fun n hn => absurd (show (none : Option Nat) = some n from hn) (by simp)
  · rw [hs, openTrunc_fresh (hname hk hopen)]
    refine h.alloc (openedItem s c s.disk.next now) ⟨rfl, rfl, rfl, rfl, rfl⟩ rfl rfl rfl rfl (htimers _) rfl rfl
      ?_ (Nat.le_succ _) (fun n hn => Function.update_of_ne (Nat.ne_of_lt hn) _ _) ?_ ?_
    · intro j pipe hg
      change Function.update s.generating s.next (some {}) j = some pipe at hg
      rw [Function.update_apply] at hg
      split at hg
      · rename_i hj
        exact Or.inr ⟨hj, (Option.some.inj hg).symm, s.disk.next, rfl, Function.update_self _ _ _⟩
      · exact Or.inl hg
    · intro n hn
      rw [← Option.some.inj hn]
      exact ⟨le_refl _, Nat.lt_succ_self _⟩
    · intro k n hn
      change Function.update s.disk.names (s.clients c).key (some s.disk.next) k = some n at hn
      show n < s.disk.next + 1
      rw [Function.update_apply] at hn
      split at hn
      · exact Option.some.inj hn ▸ Nat.lt_succ_self _
      · exact Nat.lt_succ_of_lt (h.names k n hn)

end Http
end Hin9
