import Hin9.Http.CacheFrame

/-!
# `Http.CacheQueue` — the clients that wait for an item

A client is queued on an item in `hin_cache_save` and taken off its queue in the finish or the error callback of the
generating pipe. `Waiting` is the ledger: whoever was queued is either still in the queue of an item that is being
generated or was released, once for every time it was queued, and nobody was thrown away with a freed item.
-/

namespace Hin9
namespace Http

/-! ## References of a queue -/

/-- Nobody waits for the item, or more than `n` references of it are left. -/
def Spare (s : Cache) (i : ItemId) (n : Nat) : Prop :=
  (s.items i).clientQueue = [] ∨ (n : Int) < (s.items i).refcount

instance (s : Cache) (i : ItemId) (n : Nat) : Decidable (Spare s i n) := inferInstanceAs (Decidable (_ ∨ _))

/-- **Quiet work that minds the queue.** It uses `n` references of the item at most, releases the clients `q` and
    leaves the queue as it is. -/
structure Minds (s s' : Cache) (i : ItemId) (n : Nat) (q : List ClientId) : Prop extends Quiet s s' i where
  queue : (s'.items i).clientQueue = (s.items i).clientQueue
  refs : (s.items i).refcount ≤ (s'.items i).refcount + n
  queued : s'.history.queued = s.history.queued
  released : s'.history.released = s.history.released ++ q.map fun c => (c, i)
  dropped : s'.history.dropped = s.history.dropped

namespace Minds

variable {s s' s'' : Cache} {i : ItemId} {n n' : Nat} {q q' : List ClientId}

theorem refl (s : Cache) (i : ItemId) : Minds s s i 0 [] where
  toQuiet := Quiet.refl s i
  queue := rfl
  refs := by simp
  queued := rfl
  released := by simp
  dropped := rfl

theorem trans (h : Minds s s' i n q) (h' : Minds s' s'' i n' q') : Minds s s'' i (n + n') (q ++ q') where
  toQuiet := h.toQuiet.trans h'.toQuiet
  queue := h'.queue.trans h.queue
  refs := by
    have h1 := h.refs
    have h2 := h'.refs
    push_cast
    omega
  queued := h'.queued.trans h.queued
  released := by rw [h'.released, h.released, List.map_append, List.append_assoc]
  dropped := h'.dropped.trans h.dropped

theorem spare (h : Minds s s' i n q) (m : Nat) (hs : Spare s i (n + m)) : Spare s' i m := by
  unfold Spare at hs ⊢
  rw [h.queue]
  rcases hs with hs | hs
  · exact Or.inl hs
  · have hr := h.refs
    push_cast at hs
    exact Or.inr (by omega)

end Minds

theorem Spare.mono {s : Cache} {i : ItemId} {n n' : Nat} (h : Spare s i n') (hn : n ≤ n') : Spare s i n := by
  rcases h with h | h
  · exact Or.inl h
  · exact Or.inr (by omega)

theorem minds_hinCacheUnref {s : Cache} {i : ItemId} (h : Spare s i 1) : Minds s (hinCacheUnref s i) i 1 [] := by
  by_cases hr : (s.items i).refcount = 1
  · -- the item is freed, and nobody waits for it
    have hq : (s.items i).clientQueue = [] := by
      rcases h with h | h
      · exact h
      · rw [hr] at h
        exact absurd h (by decide)
    have hitem : (hinCacheUnref s i).items i =
        { s.items i with refcount := 0, freed := true, time := 0, clientQueue := [] } := by
      rw [hinCacheUnref_items, Function.update_self, if_pos hr]
    have hclean : hinCacheUnref s i =
        hinCacheItemClean (s.setItem i { s.items i with refcount := (s.items i).refcount - 1 }) i := by
      unfold hinCacheUnref
      simp only [hr, sub_self, if_true]
    refine ⟨quiet_hinCacheUnref s i, ?_, ?_, ?_, ?_, ?_⟩
    · rw [hitem, hq]
    · rw [hitem, hr]
      exact le_refl _
    · rw [hclean]
      rfl
    · rw [hclean, List.map_nil, List.append_nil]
      rfl
    · rw [hclean]
      unfold hinCacheItemClean
      simp [Cache.setItem, hq]
  · have heq := hinCacheUnref_eq s i hr
    have hitem : (hinCacheUnref s i).items i = { s.items i with refcount := (s.items i).refcount - 1 } := by
      rw [heq]
      exact Function.update_self _ _ _
    refine ⟨quiet_hinCacheUnref s i, ?_, ?_, ?_, ?_, ?_⟩
    · rw [hitem]
    · rw [hitem]
      show (s.items i).refcount ≤ (s.items i).refcount - 1 + ((1 : Nat) : Int)
      push_cast
      omega
    · rw [heq]
      rfl
    · rw [heq, List.map_nil, List.append_nil]
      rfl
    · rw [heq]
      rfl

theorem minds_release (s : Cache) (c : ClientId) (i : ItemId) : Minds s (release s c i) i 0 [c] where
  toQuiet := quiet_release s c i
  queue := rfl
  refs := by
    show _ ≤ (s.items i).refcount + _
    simp
  queued := rfl
  released := rfl
  dropped := rfl

theorem minds_recordServed (s : Cache) (c : ClientId) (i : ItemId) (now : Int) :
    Minds s (recordServed s c i now) i 0 [] where
  toQuiet := quiet_recordServed s c i now
  queue := rfl
  refs := by
    show _ ≤ (s.items i).refcount + _
    simp
  queued := rfl
  released := by simp [recordServed, Cache.setClient]
  dropped := rfl

/-- The references one answer can use up. -/
def refused (accepts : Bool) : Nat := if accepts then 0 else 1

theorem minds_hinCacheServeClient {s : Cache} {i : ItemId} (c : ClientId) (now : Int) {accepts : Bool}
    (h : Spare s i (refused accepts)) : Minds s (hinCacheServeClient s c i now accepts) i (refused accepts) [] := by
  have hq := quiet_hinCacheServeClient s c i now accepts
  have hrec := minds_recordServed s c i now
  cases hr : (answer s c i now).2 with
  | none =>
      unfold hinCacheServeClient at hq ⊢
      rw [hr] at hq ⊢
      refine ⟨hq, hrec.queue, ?_, hrec.queued, hrec.released, hrec.dropped⟩
      show _ ≤ (s.items i).refcount + _
      omega
  | some r =>
      rw [hinCacheServeClient_some hr] at hq ⊢
      cases accepts with
      | true => exact ⟨hq, hrec.queue, hrec.refs, hrec.queued, hrec.released, hrec.dropped⟩
      | false =>
          have hspare : Spare (recordServed s c i now) i 1 := hrec.spare 1 h
          have hu := hrec.trans (minds_hinCacheUnref hspare)
          exact ⟨hq, hu.queue, hu.refs, hu.queued, hu.released, hu.dropped⟩

theorem minds_serveQueue (i : ItemId) (now : Int) (accepts : ClientId → Bool) (q : List ClientId) {s : Cache}
    (h : Spare s i (q.map fun c => refused (accepts c)).sum) :
    Minds s (serveQueue i now accepts q s) i (q.map fun c => refused (accepts c)).sum q := by
  induction q generalizing s with
  | nil => exact Minds.refl s i
  | cons c q ih =>
      rw [List.map_cons, List.sum_cons] at h ⊢
      have hone := (minds_hinCacheServeClient c now (h.mono (Nat.le_add_right _ _))).trans (minds_release _ c i)
      have hrest := ih (hone.spare (q.map fun c => refused (accepts c)).sum h)
      exact hone.trans hrest

theorem minds_unrefQueue (i : ItemId) (q : List ClientId) {s : Cache} (h : Spare s i q.length) :
    Minds s (unrefQueue i q s) i q.length q := by
  induction q generalizing s with
  | nil => exact Minds.refl s i
  | cons c q ih =>
      rw [List.length_cons] at h ⊢
      have hrel := minds_release s c i
      have hone := hrel.trans (minds_hinCacheUnref (hrel.spare 1 (h.mono (by omega))))
      have hrest := ih (hone.spare q.length (h.mono (by omega)))
      have hall := hone.trans hrest
      rwa [show 0 + 1 + q.length = q.length + 1 by omega] at hall

/-! ## The ledger -/

/-- **The invariant.** -/
structure Waiting (s : Cache) : Prop where
  table : ∀ k i, s.ht k = some i → i < s.next ∧ (s.items i).key = k ∧ (s.items i).error = false
  generating : ∀ i pipe, s.generating i = some pipe → i < s.next ∧ (s.items i).done = false ∧
    ((s.items i).error = false → (s.items i).clientQueue ≠ [])
  timers : s.timers.Nodup ∧ ∀ i ∈ s.timers, i < s.next
  fresh : ∀ i, s.next ≤ i → (s.items i).clientQueue = []
  queue : ∀ i, (s.items i).clientQueue ≠ [] → s.generating i ≠ none ∧ (s.items i).error = false ∧
    0 < (s.items i).refcount
  ledger : ∀ c i, s.history.queued.count (c, i) =
    s.history.released.count (c, i) + (s.items i).clientQueue.count c
  dropped : s.history.dropped = []

/-- **The rule for quiet work that releases nobody.** -/
theorem Waiting.minds {s s' : Cache} {i : ItemId} {n : Nat} (h : Waiting s) (hspare : Spare s i n)
    (m : Minds s s' i n []) : Waiting s' := by
  have hqueue : ∀ j, (s'.items j).clientQueue = (s.items j).clientQueue := by
    intro j
    by_cases hj : j = i
    · subst hj; exact m.queue
    · rw [m.items j hj]
  have hrel : s'.history.released = s.history.released := by
    rw [m.released, List.map_nil, List.append_nil]
  constructor
  case table =>
    intro k j hk
    rw [m.ht] at hk
    rw [m.next, (m.fields j).1, (m.fields j).2.2.1]
    exact h.table k j hk
  case generating =>
    intro j pipe hg
    rw [m.opened] at hg
    rw [m.next, (m.fields j).2.1, (m.fields j).2.2.1, hqueue]
    exact h.generating j pipe hg
  case timers =>
    rw [m.next]
    exact ⟨h.timers.1.sublist m.timers, fun j hj => h.timers.2 j (m.timers.subset hj)⟩
  case fresh =>
    intro j hj
    rw [hqueue]
    exact h.fresh j (m.next ▸ hj)
  case queue =>
    intro j hj
    rw [hqueue] at hj
    obtain ⟨hg, herr, hpos⟩ := h.queue j hj
    rw [m.opened, (m.fields j).2.2.1]
    refine ⟨hg, herr, ?_⟩
    by_cases hji : j = i
    · subst hji
      rcases hspare with hnil | hlt
      · exact absurd hnil hj
      · have := m.refs
        omega
    · rw [m.items j hji]
      exact hpos
  case ledger =>
    intro c j
    rw [m.queued, hrel, hqueue]
    exact h.ledger c j
  case dropped =>
    rw [m.dropped]
    exact h.dropped

/-- How often a client is released when the queue of an item is. -/
theorem count_released (q : List ClientId) (c : ClientId) (i j : ItemId) :
    (q.map fun c => (c, i)).count (c, j) = if j = i then q.count c else 0 := by
  by_cases hj : j = i
  · subst hj
    rw [if_pos rfl]
    exact List.count_map_of_injective q (fun c => (c, j)) (fun a b hab => (Prod.mk.inj hab).1) c
  · rw [if_neg hj, List.count_eq_zero]
    intro hm
    obtain ⟨c', -, hc⟩ := List.mem_map.mp hm
    exact hj (Prod.mk.inj hc).2.symm

/-- **The rule for the end of a generation.** The whole queue is released, and the item is the only one whose flags or
    pipe change. -/
theorem Waiting.drained {s s' : Cache} {i : ItemId} (h : Waiting s) (hnext : s'.next = s.next)
    (hht : ∀ k j, s'.ht k = some j → s.ht k = some j ∧ (j = i → (s'.items i).error = false))
    (hitems : ∀ j, j ≠ i → s'.items j = s.items j) (hkey : (s'.items i).key = (s.items i).key)
    (hempty : (s'.items i).clientQueue = []) (htimers : s'.timers.Sublist s.timers)
    (hother : ∀ j, j ≠ i → s'.generating j = s.generating j)
    (hself : ∀ pipe, s'.generating i = some pipe → i < s.next ∧ (s'.items i).done = false ∧
      (s'.items i).error = true)
    (hqueued : s'.history.queued = s.history.queued)
    (hreleased : s'.history.released =
      s.history.released ++ (s.items i).clientQueue.map fun c => (c, i))
    (hdropped : s'.history.dropped = s.history.dropped) : Waiting s' := by
  constructor
  case table =>
    intro k j hk
    obtain ⟨hk, herr⟩ := hht k j hk
    obtain ⟨hj, hjk, hje⟩ := h.table k j hk
    rw [hnext]
    by_cases hji : j = i
    · subst hji
      exact ⟨hj, hkey.trans hjk, herr rfl⟩
    · rw [hitems j hji]
      exact ⟨hj, hjk, hje⟩
  case generating =>
    intro j pipe hg
    rw [hnext]
    by_cases hji : j = i
    · subst hji
      obtain ⟨hj, hd, herr⟩ := hself pipe hg
      exact ⟨hj, hd, fun hf => absurd (herr.symm.trans hf) (by simp)⟩
    · rw [hother j hji] at hg
      rw [hitems j hji]
      exact h.generating j pipe hg
  case timers =>
    rw [hnext]
    exact ⟨h.timers.1.sublist htimers, fun j hj => h.timers.2 j (htimers.subset hj)⟩
  case fresh =>
    intro j hj
    by_cases hji : j = i
    · rw [hji]; exact hempty
    · rw [hitems j hji]
      exact h.fresh j (hnext ▸ hj)
  case queue =>
    intro j hj
    by_cases hji : j = i
    · rw [hji] at hj
      exact absurd hempty hj
    · rw [hitems j hji] at hj ⊢
      rw [hother j hji]
      exact h.queue j hj
  case ledger =>
    intro c j
    have hold := h.ledger c j
    rw [hqueued, hreleased, List.count_append, count_released]
    by_cases hji : j = i
    · subst hji
      rw [if_pos rfl, hempty, List.count_nil]
      omega
    · rw [if_neg hji, hitems j hji]
      omega
  case dropped =>
    rw [hdropped]
    exact h.dropped

/-! ## The functions of the cache -/

/-- The clients of the queue that refuse the start of their response. -/
def refusals (s : Cache) (i : ItemId) (accepts : ClientId → Bool) : Nat :=
  ((s.items i).clientQueue.map fun c => refused (accepts c)).sum

/-- `hin_cache_finish` when the generating pipe closes. -/
theorem Waiting.finish {s : Cache} {i : ItemId} {pipe : GenPipe} (h : Waiting s) (now : Int)
    (accepts : ClientId → Bool) (hspare : Spare s i (refusals s i accepts)) :
    Waiting (hinCacheFinish { s with generating := Function.update s.generating i none } i pipe now accepts) := by
  obtain ⟨t, ht⟩ : ∃ t, t = { s with generating := Function.update s.generating i none } := ⟨_, rfl⟩
  rw [← ht]
  have hgen : ∀ j, j ≠ i → t.generating j = s.generating j := by
    intro j hj
    rw [ht]
    exact Function.update_of_ne hj _ _
  have hclosed : t.generating i = none := by
    rw [ht]
    exact Function.update_self _ _ _
  unfold hinCacheFinish
  cases herr : (t.items i).error with
  | true =>
      -- an item that has failed has no queue any more
      have herr' : (s.items i).error = true := by rw [ht] at herr; exact herr
      have hnil : (s.items i).clientQueue = [] := by
        by_contra hne
        rw [(h.queue i hne).2.1] at herr'
        exact absurd herr' (by simp)
      have m : Minds t (hinCacheUnref t i) i 1 [] := minds_hinCacheUnref (Or.inl (by rw [ht]; exact hnil))
      rw [if_pos rfl]
      refine h.drained ?_ ?_ ?_ ?_ ?_ ?_ ?_ ?_ ?_ ?_ ?_ (i := i)
      · rw [m.next, ht]
      · intro k j hk
        rw [m.ht, ht] at hk
        refine ⟨hk, fun hji => ?_⟩
        rw [hji] at hk
        exact absurd (herr'.symm.trans (h.table k i hk).2.2) (by simp)
      · intro j hj
        rw [m.items j hj, ht]
      · rw [m.key, ht]
      · rw [m.queue, ht]
        exact hnil
      · have := m.timers
        rw [ht] at this
        rw [ht]
        exact this
      · intro j hj
        rw [m.opened]
        exact hgen j hj
      · intro p hp
        rw [m.opened, hclosed] at hp
        exact absurd hp (by simp)
      · rw [m.queued, ht]
      · rw [m.released, ht, hnil]
      · rw [m.dropped, ht]
  | false =>
      obtain ⟨u, hu⟩ : ∃ u, u = complete t i pipe now := ⟨_, rfl⟩
      have hitem : u.items i = { s.items i with
          size := pipe.count, etag := pipe.hash, done := true, modified := now } := by
        rw [hu, ht]
        exact Function.update_self _ _ _
      have htouch : Touches t u i := by rw [hu]; exact touches_complete t i pipe now
      have hq : (u.items i).clientQueue = (s.items i).clientQueue := by rw [hitem]
      have m : Minds u (serveQueue i now accepts (s.items i).clientQueue u) i (refusals s i accepts)
          (s.items i).clientQueue := by
        refine minds_serveQueue i now accepts _ ?_
        unfold Spare
        rw [hitem]
        exact hspare
      have hempty := quiet_emptyQueue (serveQueue i now accepts (s.items i).clientQueue u) i
      rw [if_neg (by simp), ← hu, show (t.items i).clientQueue = (s.items i).clientQueue by rw [ht]]
      have herr' : (s.items i).error = false := by rw [ht] at herr; exact herr
      refine h.drained ?_ ?_ ?_ ?_ ?_ ?_ ?_ ?_ ?_ ?_ ?_ (i := i)
      · rw [hempty.next, m.next, htouch.next, ht]
      · intro k j hk
        rw [hempty.ht, m.ht, htouch.ht, ht] at hk
        refine ⟨hk, fun _ => ?_⟩
        rw [hempty.error, m.error, hitem]
        exact herr'
      · intro j hj
        rw [hempty.items j hj, m.items j hj, htouch.items j hj, ht]
      · rw [hempty.key, m.key, htouch.key, ht]
      · simp [emptyQueue, Cache.setItem]
      · have hsub := (hempty.timers.trans m.timers).trans htouch.timers
        rw [ht] at hsub
        exact hsub
      · intro j hj
        rw [hempty.opened, m.opened, hu]
        exact hgen j hj
      · intro p hp
        rw [hempty.opened, m.opened, hu] at hp
        exact absurd (hclosed.symm.trans hp) (by simp)
      · show (serveQueue i now accepts (s.items i).clientQueue u).history.queued = _
        rw [m.queued, hu, ht]
        rfl
      · show (serveQueue i now accepts (s.items i).clientQueue u).history.released = _
        rw [m.released, hu, ht]
        rfl
      · show (serveQueue i now accepts (s.items i).clientQueue u).history.dropped = _
        rw [m.dropped, hu, ht]
        rfl

/-- `hin_cache_pipe_error_callback`. -/
theorem Waiting.error {s : Cache} {i : ItemId} {pipe : GenPipe} (h : Waiting s) (hp : s.generating i = some pipe)
    (hspare : Spare s i (s.items i).clientQueue.length) : Waiting (hinCachePipeErrorCallback s i) := by
  have m := minds_unrefQueue i (s.items i).clientQueue hspare
  have hempty := quiet_emptyQueue (unrefQueue i (s.items i).clientQueue s) i
  obtain ⟨t, ht⟩ : ∃ t, t = emptyQueue (unrefQueue i (s.items i).clientQueue s) i := ⟨_, rfl⟩
  rw [← ht] at hempty
  have hcall : hinCachePipeErrorCallback s i = (setError t i).deletePair i := by rw [ht]; rfl
  have hitem : (hinCachePipeErrorCallback s i).items i = { t.items i with error := true } := by
    rw [hcall]
    exact Function.update_self _ _ _
  have hother : ∀ j, j ≠ i → (hinCachePipeErrorCallback s i).items j = t.items j := by
    intro j hj
    rw [hcall]
    exact Function.update_of_ne hj _ _
  refine h.drained ?_ ?_ ?_ ?_ ?_ ?_ ?_ ?_ ?_ ?_ ?_ (i := i)
  · rw [hcall]
    show t.next = _
    rw [hempty.next, m.next]
  · intro k j hk
    rw [hcall] at hk
    have hkey : ((setError t i).items i).key = (s.items i).key := by
      show (Function.update t.items i { t.items i with error := true } i).key = _
      rw [Function.update_self, ← m.key, ← hempty.key]
    change Function.update t.ht ((setError t i).items i).key none k = some j at hk
    rw [hkey, Function.update_apply] at hk
    split at hk
    · exact absurd hk (by simp)
    · rename_i hne
      rw [hempty.ht, m.ht] at hk
      refine ⟨hk, fun hji => ?_⟩
      rw [hji] at hk
      exact absurd (h.table k i hk).2.1.symm hne
  · intro j hj
    rw [hother j hj, hempty.items j hj, m.items j hj]
  · rw [hitem]
    show (t.items i).key = _
    rw [hempty.key, m.key]
  · rw [hitem, ht]
    simp [emptyQueue, Cache.setItem]
  · rw [hcall]
    exact hempty.timers.trans m.timers
  · intro j hj
    rw [hcall]
    show t.generating j = _
    rw [hempty.opened, m.opened]
  · intro p _
    rw [hitem]
    show _ ∧ (t.items i).done = false ∧ _
    rw [hempty.done, m.done]
    exact ⟨(h.generating i pipe hp).1, (h.generating i pipe hp).2.1, rfl⟩
  · rw [hcall]
    show t.history.queued = _
    rw [ht]
    exact m.queued
  · rw [hcall]
    show t.history.released = _
    rw [ht]
    exact m.released
  · rw [hcall]
    show t.history.dropped = _
    rw [ht]
    exact m.dropped

/-- Closing the pipe of an item that has failed. -/
theorem Waiting.failed {s : Cache} {i : ItemId} (h : Waiting s) (herr : (s.items i).error = true) (pipe : GenPipe)
    (now : Int) (accepts : ClientId → Bool) :
    Waiting (hinCacheFinish { s with generating := Function.update s.generating i none } i pipe now accepts) := by
  have hnil : (s.items i).clientQueue = [] := by
    by_contra hne
    exact absurd ((h.queue i hne).2.1.symm.trans herr) (by simp)
  exact h.finish now accepts (Or.inl hnil)

/-- A lookup never frees an item that clients wait for. -/
theorem Waiting.check {s : Cache} (h : Waiting s) (c : ClientId) (now : Int) (accepts : Bool) :
    Waiting (hinCacheCheck s c now accepts).1 := by
  rw [hinCacheCheck_eq]
  cases hk : s.hit c with
  | none => exact h
  | some i =>
      have hitem : (ref s i).items i = { s.items i with refcount := (s.items i).refcount + 1 } :=
        Function.update_self _ _ _
      have hspare : Spare s i 0 := by
        by_cases hq : (s.items i).clientQueue = []
        · exact Or.inl hq
        · exact Or.inr (h.queue i hq).2.2
      have href : Minds s (ref s i) i 0 [] := by
        refine ⟨quiet_ref s i, ?_, ?_, rfl, ?_, rfl⟩
        · rw [hitem]
        · rw [hitem]
          show (s.items i).refcount ≤ (s.items i).refcount + 1 + ((0 : Nat) : Int)
          push_cast
          omega
        · rw [List.map_nil, List.append_nil]
          rfl
      -- the reference the lookup takes is the one a refused response gives back
      have hafter : Spare (ref s i) i (refused accepts) := by
        unfold Spare
        rw [hitem]
        rcases hspare with hq | hlt
        · exact Or.inl hq
        · refine Or.inr ?_
          show _ < (s.items i).refcount + 1
          unfold refused
          split <;> push_cast <;> omega
      exact (h.minds hspare href).minds hafter (minds_hinCacheServeClient c now hafter)

/-- A client joins the queue of an item that is still being generated. -/
theorem Waiting.join {s : Cache} {i : ItemId} {c : ClientId} (h : Waiting s) (hht : s.ht (s.clients c).key = some i)
    (hgen : s.generating i ≠ none) :
    Waiting { s.setItem i { s.items i with
        clientQueue := c :: (s.items i).clientQueue, refcount := (s.items i).refcount + 1 } with
      history := { s.history with queued := s.history.queued ++ [(c, i)] } } := by
  obtain ⟨item, hitem⟩ : ∃ item : CacheItem, item = { s.items i with
    clientQueue := c :: (s.items i).clientQueue, refcount := (s.items i).refcount + 1 } := ⟨_, rfl⟩
  rw [← hitem]
  obtain ⟨s', hs'⟩ : ∃ s', s' = { s.setItem i item with
    history := { s.history with queued := s.history.queued ++ [(c, i)] } } := ⟨_, rfl⟩
  rw [← hs']
  obtain ⟨-, -, herr⟩ := h.table _ _ hht
  obtain ⟨pipe, hpipe⟩ := Option.ne_none_iff_exists'.mp hgen
  have hself : s'.items i = item := by rw [hs']; exact Function.update_self _ _ _
  have hother : ∀ j, j ≠ i → s'.items j = s.items j := fun j hj => by
    rw [hs']; exact Function.update_of_ne hj _ _
  have hfields : ∀ j, (s'.items j).key = (s.items j).key ∧ (s'.items j).error = (s.items j).error ∧
      (s'.items j).done = (s.items j).done := by
    intro j
    by_cases hj : j = i
    · subst hj; rw [hself, hitem]; exact ⟨rfl, rfl, rfl⟩
    · rw [hother j hj]; exact ⟨rfl, rfl, rfl⟩
  have hgens : s'.generating = s.generating := by rw [hs']; rfl
  constructor
  case table =>
    intro k j hk
    have hk' : s.ht k = some j := by rw [hs'] at hk; exact hk
    rw [(hfields j).1, (hfields j).2.1, hs']
    exact h.table k j hk'
  case generating =>
    intro j p hg
    rw [hgens] at hg
    obtain ⟨hj, hd, hq⟩ := h.generating j p hg
    rw [(hfields j).2.1, (hfields j).2.2]
    refine ⟨by rw [hs']; exact hj, hd, fun he => ?_⟩
    by_cases hji : j = i
    · rw [hji, hself, hitem]
      exact List.cons_ne_nil _ _
    · rw [hother j hji]
      exact hq he
  case timers =>
    rw [hs']
    exact h.timers
  case fresh =>
    intro j hj
    have hj' : s.next ≤ j := by rw [hs'] at hj; exact hj
    have hji : j ≠ i := by
      intro hji
      exact absurd (h.table _ _ hht).1 (Nat.not_lt_of_le (hji ▸ hj'))
    rw [hother j hji]
    exact h.fresh j hj'
  case queue =>
    intro j hj
    rw [hgens, (hfields j).2.1]
    by_cases hji : j = i
    · subst hji
      have hpos := (h.queue j ((h.generating j pipe hpipe).2.2 herr)).2.2
      refine ⟨hgen, herr, ?_⟩
      rw [hself, hitem]
      show 0 < (s.items j).refcount + 1
      omega
    · rw [hother j hji] at hj ⊢
      exact h.queue j hj
  case ledger =>
    intro c' j
    have hold := h.ledger c' j
    rw [show s'.history.queued = s.history.queued ++ [(c, i)] by rw [hs'],
      show s'.history.released = s.history.released by rw [hs'], List.count_append]
    by_cases hji : j = i
    · subst hji
      rw [hself, hitem, List.count_singleton]
      show _ = _ + List.count c' (c :: (s.items j).clientQueue)
      have hsame : ((c, j) == (c', j)) = (c == c') := by simp
      rw [List.count_cons, hsame]
      omega
    · rw [hother j hji, List.count_singleton]
      have hne : ((c, i) == (c', j)) = false := by
        rw [beq_eq_false_iff_ne]
        exact fun hh => hji (Prod.mk.inj hh).2.symm
      rw [hne]
      simpa using hold
  case dropped =>
    rw [hs']
    exact h.dropped

/-- The offer of a response, if it finds an item that is still being generated, or opens the file of a new one. -/
theorem Waiting.save {s : Cache} (h : Waiting s) (c : ClientId) (openOk : Bool) (now : Int)
    (hjoin : ∀ i ∈ s.joins c, s.generating i ≠ none) (hopen : s.Opens c → openOk = true) :
    Waiting (hinCgiOfferCache s c openOk now).1 := by
  rcases hinCgiOfferCache_cases s c openOk now with hs | ⟨i, hk, hs⟩ | ⟨hk, hf, -⟩ | ⟨hk, -, hs⟩
  · rw [hs]
    exact h
  · rw [hs]
    exact h.join (Cache.joins_ht hk).2 (hjoin i hk)
  · rw [hopen hk] at hf
    exact absurd hf (by simp)
  · obtain ⟨item, hitem⟩ : ∃ item, item = openedItem s c (s.disk.openTrunc (s.clients c).key).2 now := ⟨_, rfl⟩
    obtain ⟨s', hs'⟩ : ∃ s', s' = (hinCgiOfferCache s c openOk now).1 := ⟨_, rfl⟩
    rw [← hs'] at hs ⊢
    rw [← hitem] at hs
    have hself : s'.items s.next = item := by rw [hs]; exact Function.update_self _ _ _
    have hother : ∀ j, j ≠ s.next → s'.items j = s.items j := fun j hj => by
      rw [hs]; exact Function.update_of_ne hj _ _
    have hnext : s'.next = s.next + 1 := by rw [hs]; rfl
    have hgens : s'.generating = Function.update s.generating s.next (some {}) := by rw [hs]
    constructor
    case table =>
      intro k j hk
      have hk' : Function.update s.ht (s.clients c).key (some s.next) k = some j := by rw [hs] at hk; exact hk
      rw [Function.update_apply] at hk'
      rw [hnext]
      split at hk'
      · rename_i hkey
        rw [← Option.some.inj hk', hself, hitem]
        exact ⟨Nat.lt_succ_self _, hkey.symm, rfl⟩
      · obtain ⟨hj, hjk, hje⟩ := h.table k j hk'
        rw [hother j (Nat.ne_of_lt hj)]
        exact ⟨Nat.lt_succ_of_lt hj, hjk, hje⟩
    case generating =>
      intro j p hg
      rw [hgens, Function.update_apply] at hg
      rw [hnext]
      split at hg
      · rename_i hj
        rw [hj, hself, hitem]
        exact ⟨Nat.lt_succ_self _, rfl, fun _ => List.cons_ne_nil _ _⟩
      · rename_i hj
        obtain ⟨hlt, hd, hq⟩ := h.generating j p hg
        rw [hother j hj]
        exact ⟨Nat.lt_succ_of_lt hlt, hd, hq⟩
    case timers =>
      rw [hnext, hs]
      exact timersWith_fresh _ h.timers.1 h.timers.2
    case fresh =>
      intro j hj
      rw [hnext] at hj
      rw [hother j (Nat.ne_of_gt hj)]
      exact h.fresh j (Nat.le_of_succ_le hj)
    case queue =>
      intro j hj
      rw [hgens]
      by_cases hji : j = s.next
      · rw [hji, Function.update_self, hself, hitem]
        exact ⟨Option.some_ne_none _, rfl, by show (0 : Int) < 2; decide⟩
      · rw [hother j hji] at hj ⊢
        rw [Function.update_of_ne hji]
        exact h.queue j hj
    case ledger =>
      intro c' j
      have hold := h.ledger c' j
      rw [show s'.history.queued = s.history.queued ++ [(c, s.next)] by rw [hs]; rfl,
        show s'.history.released = s.history.released by rw [hs]; rfl, List.count_append, List.count_singleton]
      by_cases hji : j = s.next
      · subst hji
        rw [h.fresh s.next (le_refl _), List.count_nil] at hold
        rw [hself, hitem]
        show _ = _ + List.count c' [c]
        have hsame : ((c, s.next) == (c', s.next)) = (c == c') := by simp
        rw [List.count_singleton, hsame]
        omega
      · rw [hother j hji]
        have hne : ((c, s.next) == (c', j)) = false := by
          rw [beq_eq_false_iff_ne]
          exact fun hh => hji (Prod.mk.inj hh).2.symm
        rw [hne]
        simpa using hold
    case dropped =>
      rw [hs]
      exact h.dropped

/-- `done_file`. -/
theorem Waiting.sent {s : Cache} (h : Waiting s) (pipe : FilePipe) (hspare : Spare s pipe.item 1) :
    Waiting (doneFile s pipe) := by
  have hb : Waiting { s with sending := s.sending.erase pipe } :=
    ⟨h.table, h.generating, h.timers, h.fresh, h.queue, h.ledger, h.dropped⟩
  exact hb.minds (n := 1) hspare (minds_hinCacheUnref hspare)

/-- `hin_cache_remove`. -/
theorem Waiting.remove {s : Cache} (h : Waiting s) {i : ItemId} (hspare : Spare s i 1) :
    Waiting (hinCacheRemove s i) := by
  have hb : Waiting { s.deletePair i with size := s.size - (s.items i).size } := by
    refine ⟨?_, h.generating, h.timers, h.fresh, h.queue, h.ledger, h.dropped⟩
    intro k j hk
    change Function.update s.ht (s.items i).key none k = some j at hk
    rw [Function.update_apply] at hk
    split at hk
    · exact absurd hk (by simp)
    · exact h.table k j hk
  exact hb.minds (n := 1) hspare (minds_hinCacheUnref hspare)

/-- A tick that leaves a reference to every item clients wait for. -/
theorem Waiting.timeouts (l : List ItemId) {s : Cache} (h : Waiting s) (hnd : l.Nodup) (hl : ∀ i ∈ l, Spare s i 1) :
    Waiting (l.foldl hinCacheTimeoutCallback s) := by
  induction l generalizing s with
  | nil => exact h
  | cons i l ih =>
      rw [List.nodup_cons] at hnd
      refine ih (h.remove (hl i List.mem_cons_self)) hnd.2 fun j hj => ?_
      have hji : j ≠ i := fun hji => hnd.1 (hji ▸ hj)
      have t := touches_hinCacheUnref { s.deletePair i with size := s.size - (s.items i).size } i
      have hitem : (hinCacheTimeoutCallback s i).items j = s.items j := t.items j hji
      unfold Spare
      rw [hitem]
      exact hl j (List.mem_cons_of_mem i hj)

/-! ## Runs -/

/-- **The steps that lose no client.** A response is queued on items that are still being generated only, the file of
    a new item can be opened, and no step takes the last reference of an item clients wait for. -/
def KeepsWaiting (s : Cache) : Event → Prop
  | .save c openOk _ => (∀ i ∈ s.joins c, s.generating i ≠ none) ∧ (s.Opens c → openOk = true)
  | .finish i _ accepts => Spare s i (refusals s i accepts)
  | .error i _ _ => Spare s i (s.items i).clientQueue.length
  | .sent pipe => Spare s pipe.item 1
  | .tick now reach => ∀ i ∈ s.due now reach, Spare s i 1
  | _ => True

instance (s : Cache) : (e : Event) → Decidable (KeepsWaiting s e)
  | .save c openOk _ =>
      inferInstanceAs (Decidable ((∀ i ∈ s.joins c, s.generating i ≠ none) ∧ (s.Opens c → openOk = true)))
  | .finish i _ accepts => inferInstanceAs (Decidable (Spare s i (refusals s i accepts)))
  | .error i _ _ => inferInstanceAs (Decidable (Spare s i (s.items i).clientQueue.length))
  | .sent pipe => inferInstanceAs (Decidable (Spare s pipe.item 1))
  | .tick now reach => inferInstanceAs (Decidable (∀ i ∈ s.due now reach, Spare s i 1))
  | .request .. | .check .. | .written .. => inferInstanceAs (Decidable True)

/-- An item clients wait for is being generated and neither complete nor failed, and whoever was queued was released
    or still waits, once for every time it was queued. -/
def NobodyForgotten (s : Cache) : Prop :=
  (∀ i, (s.items i).clientQueue ≠ [] →
    s.generating i ≠ none ∧ (s.items i).done = false ∧ (s.items i).error = false) ∧
  (∀ c i, s.history.queued.count (c, i) = s.history.released.count (c, i) + (s.items i).clientQueue.count c) ∧
  s.history.dropped = []

theorem Waiting.nobodyForgotten {s : Cache} (h : Waiting s) : NobodyForgotten s := by
  refine ⟨?_, h.ledger, h.dropped⟩
  intro i hq
  obtain ⟨hgen, herr, -⟩ := h.queue i hq
  obtain ⟨pipe, hpipe⟩ := Option.ne_none_iff_exists'.mp hgen
  exact ⟨hgen, (h.generating i pipe hpipe).2.1, herr⟩

theorem hinCacheCreate_waiting : Waiting hinCacheCreate := by
  constructor
  case table => exact fun k j hk => absurd (show (none : Option ItemId) = some j from hk) (by simp)
  case generating => exact fun j p hp => absurd (show (none : Option GenPipe) = some p from hp) (by simp)
  case timers => exact ⟨List.nodup_nil, fun j hj => absurd hj List.not_mem_nil⟩
  case fresh => exact fun _ _ => rfl
  case queue => exact fun i hq => absurd rfl hq
  case ledger => exact fun _ _ => rfl
  case dropped => rfl

/-- **One step.** -/
theorem step_waiting {s s' : Cache} {e : Event} (h : Waiting s) (hg : KeepsWaiting s e) (hs : s.step e = some s') :
    Waiting s' := by
  cases e with
  | request c http =>
      rw [← Option.some.inj hs]
      exact ⟨h.table, h.generating, h.timers, h.fresh, h.queue, h.ledger, h.dropped⟩
  | check c now accepts =>
      rw [← Option.some.inj hs]
      exact h.check c now accepts
  | save c openOk now =>
      rw [← Option.some.inj hs]
      exact h.save c openOk now hg.1 hg.2
  | written i data =>
      obtain ⟨pipe, hp, hs⟩ := Option.map_eq_some_iff.mp hs
      rw [← hs]
      refine ⟨h.table, ?_, h.timers, h.fresh, ?_, h.ledger, h.dropped⟩
      · intro j p hj
        change Function.update s.generating i _ j = some p at hj
        by_cases hji : j = i
        · rw [hji]
          exact h.generating i pipe hp
        · rw [Function.update_of_ne hji] at hj
          exact h.generating j p hj
      · intro j hj
        obtain ⟨hgen, hrest⟩ := h.queue j hj
        refine ⟨?_, hrest⟩
        show Function.update s.generating i _ j ≠ none
        by_cases hji : j = i
        · rw [hji, Function.update_self]
          exact Option.some_ne_none _
        · rw [Function.update_of_ne hji]
          exact hgen
  | finish i now accepts =>
      obtain ⟨pipe, -, hs⟩ := Option.map_eq_some_iff.mp hs
      rw [← hs]
      exact h.finish now accepts hg
  | error i closes now =>
      obtain ⟨pipe, hp, hs⟩ := Option.map_eq_some_iff.mp hs
      rw [← hs]
      have he := h.error hp hg
      cases closes with
      | false => exact he
      | true =>
          -- the pipe is closed before the callback runs, which does not look at it
          have hf := he.failed (hinCachePipeErrorCallback_error s i) pipe now fun _ => true
          have hcomm : hinCachePipeErrorCallback { s with generating := Function.update s.generating i none } i =
              { hinCachePipeErrorCallback s i with
                generating := Function.update (hinCachePipeErrorCallback s i).generating i none } :=
            hinCachePipeErrorCallback_closed s i
          rw [if_pos rfl, hcomm]
          exact hf
  | sent pipe =>
      simp only [Cache.step] at hs
      split at hs
      · rw [← Option.some.inj hs]
        exact h.sent pipe hg
      · exact absurd hs (by simp)
  | tick now reach =>
      rw [← Option.some.inj hs]
      exact h.timeouts _ (due_nodup h.timers.1 now reach) hg

/-- **The queue over a run.** -/
theorem cache_nobody_forgotten {es : List Event} {s : Cache}
    (h : Lib.RunWith Cache.step KeepsWaiting hinCacheCreate es s) : NobodyForgotten s :=
  (h.invariant (I := Waiting) hinCacheCreate_waiting fun _ _ _ hi hg hs => step_waiting hi hg hs).nobodyForgotten

/-- Three clients wait for an item; it is sent to two of them, the third refuses, and a fourth one's item fails. -/
theorem cache_nobody_forgotten_sample : ∃ (es : List Event) (s : Cache),
    Lib.RunWith Cache.step KeepsWaiting hinCacheCreate es s ∧ s.history.released.length = 4 ∧ NobodyForgotten s := by
  let es : List Event := [.request 1 cacheableRequest, .request 2 cacheableRequest, .request 3 cacheableRequest,
    .request 4 { cacheableRequest with cacheKey1 := 2 }, .save 1 true 100, .save 2 true 101, .save 3 true 101,
    .save 4 true 101, .written 0 [72, 105], .finish 0 102 fun c => c != 3, .error 1 true 103]
  have hrun : ((Lib.execWith Cache.step (fun s e => decide (KeepsWaiting s e)) hinCacheCreate es).map fun s =>
      s.history.released.length) = some 4 := by decide
  obtain ⟨s, hs, hlen⟩ := Option.map_eq_some_iff.mp hrun
  have h : Lib.RunWith Cache.step KeepsWaiting hinCacheCreate es s :=
    Lib.RunWith.of_exec (fun _ _ hd => of_decide_eq_true hd) es hs
  exact ⟨es, s, h, hlen, cache_nobody_forgotten h⟩

/-- **A client that comes too late.** Two backends run for one key; the first one's item is complete when the second
    one's headers arrive, and the second client is queued on it for good. -/
theorem cache_client_forgotten : ¬ ∀ (es : List Event) (s : Cache),
    Lib.Run Cache.step hinCacheCreate es s → NobodyForgotten s := by
  intro hall
  let es : List Event := [.request 1 cacheableRequest, .request 2 cacheableRequest, .save 1 true 100,
    .written 0 [72, 105], .finish 0 101 fun _ => true, .save 2 true 102]
  have hrun : ((Lib.execWith Cache.step (fun _ _ => true) hinCacheCreate es).map fun s =>
      ((s.items 0).clientQueue, (s.items 0).done)) = some ([2], true) := by decide
  obtain ⟨s, hs, he⟩ := Option.map_eq_some_iff.mp hrun
  obtain ⟨hq, hdone⟩ := Prod.mk.inj he
  have h := (hall es s (Lib.RunWith.of_exec (fun _ _ _ => trivial) es hs)).1 0
  have hd := (h (by rw [hq]; exact List.cons_ne_nil _ _)).2.1
  exact absurd (hd.symm.trans hdone) (by simp)

end Http
end Hin9
