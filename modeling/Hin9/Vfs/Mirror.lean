import Hin9.Vfs.Confine
import Hin9.Vfs.World

/-!
# `Vfs.Mirror` — the tree follows the disk (`inotify.c`, `dir.c`, `stat.c`)

What keeps the tree and the disk together is `Cell`, for every name of every directory that was read: played back from what the
tree holds, the events that are still waiting for the name lead to what is on the disk (`follows`), and where none is waiting, the
node shows what the kernel would say. A directory below is watched as long as nothing waits for its own name, and its events come
before the one that frees it. So nothing freed is looked at, and a name that nothing waits for is found exactly if it is there
(`tree_follows_disk`).

The last section has two runs that `Told` leaves out: in one the tree stays behind for good (`replaced_stale`), in the other an
event is for a directory that was freed (`loaded_early`).
-/

namespace Hin9
namespace Vfs

open Lib

/-! ## The invariant -/

/-- **A name of a directory that was read.** What waits for it leads from the tree to the disk; if nothing does, the node shows
    what is on the disk. A directory below it loses its watch before its name is removed, and its events come first. -/
structure Cell (w : World) (i : Ino) (d : DirId) (x : Bytes) : Prop where
  chain : follows (basicVfsSearchDir w.heap.tree (some d) x).isSome (w.pending i x) =
    some (w.watched i && (w.entry i x).isSome)
  known : w.watched i = true → w.pending i x = [] → ∀ n e, basicVfsSearchDir w.heap.tree (some d) x = some n →
    w.entry i x = some e → Known e.stat (w.heap.tree.shown n)
  removal : ∀ n d', basicVfsSearchDir w.heap.tree (some d) x = some n → w.heap.tree.Loaded n d' →
    ∀ m ms, w.pending i x = m :: ms → m = .delete ∨ m = .movedFrom
  below : ∀ n d' j, basicVfsSearchDir w.heap.tree (some d) x = some n → w.heap.tree.Loaded n d' → w.table j = some d' →
    (w.watched j = true → w.pending i x = [] ∧ ∃ e, w.entry i x = some e ∧ e.stat.isDir = true ∧ e.ino = j) ∧
      w.queue.Pairwise fun a b => a.1 = i → a.2.2 = x → b.1 ≠ j

/-- **What holds at every step**; `r` is the root directory. -/
structure Inv (r : Ino) (w : World) : Prop where
  good : Good w.heap
  wf : WF w.heap.tree
  tail : Tail w.heap.tree
  untouched : w.touched = false
  cell : ∀ i d x, w.table i = some d → w.heap.LiveDir d → Cell w i d x
  tableInj : ∀ i j d, w.table i = some d → w.table j = some d → i = j
  tableLt : ∀ i d, w.table i = some d → d < w.heap.tree.dirCount
  live : ∀ i, (w.watched i = true ∨ ∃ q ∈ w.queue, q.1 = i) → ∃ d, w.table i = some d ∧ w.heap.LiveDir d
  owner : ∀ j d', w.watched j = true → w.table j = some d' → j = r ∨ ∃ i d x n, w.table i = some d ∧ w.heap.LiveDir d ∧
    basicVfsSearchDir w.heap.tree (some d) x = some n ∧ w.heap.tree.Loaded n d'
  uniq : ∀ i x e i' x' e', w.entry i x = some e → e.stat.isDir = true → w.entry i' x' = some e' → e'.stat.isDir = true →
    e.ino = e'.ino → i = i' ∧ x = x'
  gone : ∀ i x e, w.entry i x = some e → e.stat.isDir = true → (w.table e.ino).isSome = true →
    w.watched e.ino = true ∧ e.ino ≠ r
  valid : ∀ q ∈ w.queue, ValidName q.2.2
  bare : ∀ d, w.heap.LiveDir d → (∀ i, w.table i ≠ some d) → ∀ y, basicVfsSearchDir w.heap.tree (some d) y = none
  root : (w.table r).isSome = true

section

variable {w w' : World} {r i j k : Ino} {m : Mask} {x y : Bytes} {d e : DirId} {n : NodeId} {os : Os} {h' : Heap}

/-! ## What a directory below tells -/

/-- A directory that is watched is on the disk where its node is in the tree. -/
theorem Inv.watched_entry (hw : Inv r w) (hi : w.table i = some d) (hd : w.heap.LiveDir d)
    (hs : basicVfsSearchDir w.heap.tree (some d) x = some n) {d' : DirId} (hl : w.heap.tree.Loaded n d')
    (hj : w.table j = some d') (hwatched : w.watched j = true) :
    w.watched i = true ∧ w.pending i x = [] ∧ ∃ e, w.entry i x = some e ∧ e.stat.isDir = true ∧ e.ino = j := by
  have hc := hw.cell i d x hi hd
  obtain ⟨hpending, e, he, hdir, hino⟩ := (hc.below n d' j hs hl hj).1 hwatched
  refine ⟨?_, hpending, e, he, hdir, hino⟩
  have hchain := hc.chain
  rw [hpending, hs, he] at hchain
  have htrue : true = (w.watched i && true) := Option.some.inj hchain
  rw [Bool.and_true] at htrue
  exact htrue.symm

/-- A directory is not below itself: its path would be longer than it is. -/
theorem Inv.below_ne (hw : Inv r w) (hd : w.heap.LiveDir d) (hs : basicVfsSearchDir w.heap.tree (some d) x = some n) {d' : DirId}
    (hl : w.heap.tree.Loaded n d') : d' ≠ d := by
  rintro rfl
  have hpath := hw.wf.loaded_path n d' d' hl (search_entry hw.good hd hs).2.1
  have hlen := congrArg List.length hpath
  simp only [List.length_append, List.length_singleton] at hlen
  omega

/-- **A directory whose name is about to go holds nothing**, and no event is for it. -/
theorem Inv.removal_empty (hw : Inv r w) (hi : w.table i = some d) (hd : w.heap.LiveDir d)
    (hs : basicVfsSearchDir w.heap.tree (some d) x = some n) {d' : DirId} (hl : w.heap.tree.Loaded n d')
    {rest : List (Ino × Mask × Bytes)} (hq : w.queue = (i, m, x) :: rest) :
    (∀ j, w.table j = some d' → w.watched j = false ∧ ∀ q ∈ rest, q.1 ≠ j) ∧
      ∀ y, basicVfsSearchDir w.heap.tree (some d') y = none := by
  have hc := hw.cell i d x hi hd
  have hlive' : w.heap.LiveDir d' := hw.good.loaded n d' (search_entry hw.good hd hs).1 hl
  have hall : ∀ j, w.table j = some d' → w.watched j = false ∧ ∀ q ∈ rest, q.1 ≠ j := by
    intro j hj
    obtain ⟨hwatched, hbefore⟩ := hc.below n d' j hs hl hj
    refine ⟨?_, ?_⟩
    · by_contra hne
      obtain ⟨hnone, -⟩ := hwatched (Bool.not_eq_false _ ▸ hne)
      exact waiting_of_mem (hq ▸ List.mem_cons_self : (i, m, x) ∈ w.queue) hnone
    · intro q hmem
      rw [hq] at hbefore
      exact (List.pairwise_cons.mp hbefore).1 q hmem rfl rfl
  refine ⟨hall, fun y => ?_⟩
  by_cases htable : ∃ j, w.table j = some d'
  · obtain ⟨j, hj⟩ := htable
    obtain ⟨hwatched, hlater⟩ := hall j hj
    -- nothing waits for its names, and it is not watched
    have hnone : w.pending j y = [] := by
      by_contra hpending
      obtain ⟨m', ms, hms⟩ := List.exists_cons_of_ne_nil hpending
      have hmem : (j, m', y) ∈ w.queue := mem_of_waiting (hms ▸ List.mem_cons_self : m' ∈ w.pending j y)
      rw [hq] at hmem
      rcases List.mem_cons.mp hmem with heq | hmem
      · obtain rfl : j = i := (Prod.mk.inj heq).1
        exact hw.below_ne hd hs hl (Option.some.inj (hj.symm.trans hi))
      · exact hlater _ hmem rfl
    have hchain := (hw.cell j d' y hj hlive').chain
    rw [hnone, hwatched, Bool.false_and] at hchain
    have hmissing : (basicVfsSearchDir w.heap.tree (some d') y).isSome = false := Option.some.inj hchain
    exact Option.isSome_eq_false_iff.mp hmissing |> Option.isNone_iff_eq_none.mp
  · exact hw.bare d' hlive' (fun j hj => htable ⟨j, hj⟩) y

/-! ## The disk changes -/

theorem change_cases {old new : Option DiskEntry} {mask : Option Mask} (h : w.change i x new mask = some w')
    (hold : w.entry i x = old) : ValidName x ∧ reports old new mask = true ∧
      (∀ j, removedDir old mask = some j → w.disk j = []) ∧
      w' = { w with
        disk := Function.update w.disk i (putEntry (w.disk i) x new)
        watched := fun j => w.watched j && removedDir old mask != some j
        queue := w.queue ++ if w.watched i then (mask.map fun m => (i, m, x)).toList else [] } := by
  unfold World.change at h
  dsimp only at h
  rw [hold] at h
  split at h
  · rename_i hcan
    exact ⟨hcan.1, hcan.2.1, hcan.2.2, (Option.some.inj h).symm⟩
  · exact absurd h (by simp)

/-- What is on the disk after a change. -/
theorem change_entry {new : Option DiskEntry} {mask : Option Mask} (h : w.change i x new mask = some w') (k : Ino) (y : Bytes) :
    w'.entry k y = if k = i ∧ y = x then new else w.entry k y := by
  obtain ⟨-, -, -, rfl⟩ := change_cases h rfl
  show (Function.update w.disk i (putEntry (w.disk i) x new) k).lookup y = _
  by_cases hki : k = i
  · rw [hki, Function.update_self, lookup_putEntry]
    by_cases hyx : y = x
    · rw [if_pos hyx, if_pos ⟨rfl, hyx⟩]
    · rw [if_neg hyx, if_neg fun h => hyx h.2]
      rfl
  · rw [Function.update_of_ne hki, if_neg fun h => hki h.1]
    rfl

theorem reports_next {old new : Option DiskEntry} (h : reports old new (some m) = true) (hmoved : m = .movedTo → old = none) :
    m.next old.isSome = some new.isSome := by
  cases m with
  | create =>
      obtain ⟨hold, hnew⟩ := Bool.and_eq_true_iff.mp h
      rw [Option.isNone_iff_eq_none.mp hold, hnew]
      rfl
  | modify =>
      obtain ⟨hold, hnew⟩ := Bool.and_eq_true_iff.mp h
      cases old with
      | none => exact absurd hold Bool.false_ne_true
      | some e =>
          cases new with
          | none => exact absurd hnew Bool.false_ne_true
          | some e' => rfl
  | movedTo =>
      rw [hmoved rfl, show new.isSome = true from h]
      rfl
  | delete =>
      obtain ⟨hold, hnew⟩ := Bool.and_eq_true_iff.mp h
      rw [Option.isNone_iff_eq_none.mp hnew, hold]
      rfl
  | movedFrom =>
      obtain ⟨hold, hnew⟩ := Bool.and_eq_true_iff.mp h
      rw [Option.isNone_iff_eq_none.mp hnew, hold]
      rfl

/-- What is reported of a directory that was read, while nothing waits for its name, is that it goes. -/
theorem Inv.reported_removal (hw : Inv r w) (hi : w.table i = some d) (hd : w.heap.LiveDir d)
    (hs : basicVfsSearchDir w.heap.tree (some d) x = some n) {d' : DirId} (hl : w.heap.tree.Loaded n d')
    (hpending : w.pending i x = []) (hwatched : w.watched i = true) {new : Option DiskEntry}
    (hreports : reports (w.entry i x) new (some m) = true) (hmoved : m = .movedTo → w.entry i x = none) :
    m = .delete ∨ m = .movedFrom := by
  have hc := hw.cell i d x hi hd
  have hchain := hc.chain
  rw [hpending, hs, hwatched, Bool.true_and] at hchain
  obtain ⟨e, he⟩ := Option.isSome_iff_exists.mp (Option.some.inj hchain).symm
  have hdir := (hc.known hwatched hpending n e hs he).dir hl.1
  rw [he] at hreports hmoved
  cases m with
  | create => exact absurd hreports (by simp [reports])
  | modify =>
      obtain ⟨hold, -⟩ := Bool.and_eq_true_iff.mp hreports
      have hfile : (!e.stat.isDir) = true := hold
      rw [hdir] at hfile
      exact absurd hfile Bool.false_ne_true
  | movedTo => exact absurd (hmoved rfl) (by simp)
  | delete => exact .inl rfl
  | movedFrom => exact .inr rfl

/-- What a change leaves, and what it needs. -/
structure Changed (w w' : World) (i : Ino) (x : Bytes) (new : Option DiskEntry) (mask : Option Mask) : Prop where
  heap : w'.heap = w.heap
  table : w'.table = w.table
  touched : w'.touched = w.touched
  entry : ∀ k y, w'.entry k y = if k = i ∧ y = x then new else w.entry k y
  watched : ∀ j, w'.watched j = (w.watched j && removedDir (w.entry i x) mask != some j)
  queue : w'.queue = w.queue ++ if w.watched i then (mask.map fun m => (i, m, x)).toList else []
  valid : ValidName x
  reports : reports (w.entry i x) new mask = true
  empty : ∀ j, removedDir (w.entry i x) mask = some j → ∀ y, w.entry j y = none

section

variable {new : Option DiskEntry} {mask : Option Mask}

theorem change_changed (h : w.change i x new mask = some w') : Changed w w' i x new mask := by
  have hentry := change_entry h
  obtain ⟨hx, hreports, hempty, rfl⟩ := change_cases h rfl
  refine ⟨rfl, rfl, rfl, hentry, fun _ => rfl, rfl, hx, hreports, fun j hj y => ?_⟩
  unfold World.entry
  rw [hempty j hj]
  rfl

theorem Changed.still (hc : Changed w w' i x new mask) (hj : w'.watched j = true) : w.watched j = true :=
  (Bool.and_eq_true_iff.mp ((hc.watched j).symm.trans hj)).1

theorem removedDir_some {old : Option DiskEntry} (h : removedDir old mask = some j) :
    mask = some .delete ∧ ∃ e, old = some e ∧ e.stat.isDir = true ∧ e.ino = j := by
  unfold removedDir at h
  split at h
  · rename_i hmask
    obtain ⟨e, he, rfl⟩ := Option.map_eq_some_iff.mp h
    obtain ⟨hold, hdir⟩ := Option.filter_eq_some_iff.mp he
    exact ⟨hmask, e, hold, hdir, rfl⟩
  · exact absurd h (by simp)

/-- The directory itself is not the one that goes. -/
theorem Changed.self (hc : Changed w w' i x new mask) : w'.watched i = w.watched i := by
  have hkept : removedDir (w.entry i x) mask ≠ some i := by
    intro hgone
    obtain ⟨-, e, he, -⟩ := removedDir_some hgone
    exact absurd (he.symm.trans (hc.empty i hgone x)) (by simp)
  rw [hc.watched, bne_iff_ne.mpr hkept, Bool.and_true]

theorem Changed.pending_other (hc : Changed w w' i x new mask) (hne : ¬ (k = i ∧ y = x)) : w'.pending k y = w.pending k y := by
  have hnone : waiting (if w.watched i then (mask.map fun m => (i, m, x)).toList else []) k y = [] := by
    split
    · cases mask with
      | none => rfl
      | some m => exact waiting_other [] m (not_and_or.mp hne)
    · rfl
  unfold World.pending
  rw [hc.queue, waiting_append, hnone, List.append_nil]

/-- The name that changed, in a directory that is watched: one more event waits for it. -/
theorem Changed.cell_told (hc : Changed w w' i x new (some m)) (hw : Inv r w) (hi : w.table i = some d) (hd : w.heap.LiveDir d)
    (hwatched : w.watched i = true) (hmoved : m = .movedTo → w.entry i x = none)
    (hfrom : m = .movedFrom → ∀ e, w.entry i x = some e → e.stat.isDir = true → w.watched e.ino = false) : Cell w' i d x := by
  have hcell := hw.cell i d x hi hd
  have hq : w'.queue = w.queue ++ [(i, m, x)] := by
    rw [hc.queue, hwatched]
    rfl
  have hpending : w'.pending i x = w.pending i x ++ [m] := by
    unfold World.pending
    rw [hq, waiting_append, waiting_self]
    rfl
  refine ⟨?_, ?_, ?_, ?_⟩
  · rw [hpending, follows_snoc, hc.heap, hcell.chain, hc.self, hwatched, Bool.true_and, Bool.true_and, hc.entry,
      if_pos ⟨rfl, rfl⟩]
    exact reports_next hc.reports hmoved
  · intro _ hnone
    rw [hpending] at hnone
    exact absurd hnone (by simp)
  · intro n d' hs hl m' ms hms
    rw [hc.heap] at hs hl
    rw [hpending] at hms
    cases hold : w.pending i x with
    | nil =>
        rw [hold] at hms
        obtain rfl : m = m' := (List.cons.inj hms).1
        exact hw.reported_removal hi hd hs hl hold hwatched hc.reports hmoved
    | cons m₀ ms₀ =>
        rw [hold] at hms
        obtain rfl : m₀ = m' := (List.cons.inj hms).1
        exact hcell.removal n d' hs hl m₀ ms₀ hold
  · intro n d' j hs hl hj
    rw [hc.heap] at hs hl
    rw [hc.table] at hj
    obtain ⟨hbelow, hbefore⟩ := hcell.below n d' j hs hl hj
    refine ⟨fun hj' => ?_, ?_⟩
    · -- the watch goes with the name
      obtain ⟨hold, e, he, hdir, rfl⟩ := hbelow (hc.still hj')
      rcases hw.reported_removal hi hd hs hl hold hwatched hc.reports hmoved with rfl | rfl
      · have hgone : removedDir (w.entry i x) (some .delete) = some e.ino := by
          rw [he]
          unfold removedDir
          rw [if_pos rfl, Option.filter_some, if_pos hdir]
          rfl
        rw [hc.watched, hgone, bne_self_eq_false, Bool.and_false] at hj'
        exact absurd hj' Bool.false_ne_true
      · exact absurd ((hfrom rfl e he hdir).symm.trans (hc.still hj')) Bool.false_ne_true
    · rw [hq, List.pairwise_append]
      refine ⟨hbefore, List.pairwise_singleton _ _, ?_⟩
      intro a _ b hb _ _
      obtain rfl := List.mem_singleton.mp hb
      rintro rfl
      exact hw.below_ne hd hs hl (Option.some.inj (hj.symm.trans hi))

/-- The name that changed, in a directory that is watched no longer. -/
theorem Changed.cell_untold (hc : Changed w w' i x new mask) (hw : Inv r w) (hi : w.table i = some d) (hd : w.heap.LiveDir d)
    (hwatched : w.watched i = false) : Cell w' i d x := by
  have hcell := hw.cell i d x hi hd
  have hq : w'.queue = w.queue := by
    rw [hc.queue, hwatched]
    exact List.append_nil _
  have hpending : w'.pending i x = w.pending i x := by
    unfold World.pending
    rw [hq]
  refine ⟨?_, ?_, ?_, ?_⟩
  · rw [hpending, hc.heap, hcell.chain, hc.self, hwatched, Bool.false_and, Bool.false_and]
  · intro hi'
    rw [hc.self, hwatched] at hi'
    exact absurd hi' Bool.false_ne_true
  · rw [hc.heap, hpending]
    exact hcell.removal
  · intro n d' j hs hl hj
    rw [hc.heap] at hs hl
    rw [hc.table] at hj
    refine ⟨fun hj' => ?_, hq ▸ (hcell.below n d' j hs hl hj).2⟩
    have hwi := (hw.watched_entry hi hd hs hl hj (hc.still hj')).1
    exact absurd (hwatched.symm.trans hwi) Bool.false_ne_true

/-- The other names, in whatever directory. -/
theorem Changed.cell_other (hc : Changed w w' i x new mask) (hw : Inv r w) (hk : w.table k = some d) (hd : w.heap.LiveDir d)
    (hne : ¬ (k = i ∧ y = x)) : Cell w' k d y := by
  have hcell := hw.cell k d y hk hd
  have hsame : w'.entry k y = w.entry k y := (hc.entry k y).trans (if_neg hne)
  refine ⟨?_, ?_, ?_, ?_⟩
  · rw [hc.pending_other hne, hc.heap, hcell.chain, hsame, hc.watched]
    by_cases hgone : removedDir (w.entry i x) mask = some k
    · -- nothing is in a directory that is removed
      rw [hc.empty k hgone y, Option.isSome_none, Bool.and_false, Bool.and_false]
    · rw [bne_iff_ne.mpr hgone, Bool.and_true]
  · intro hk'
    rw [hc.pending_other hne, hsame, hc.heap]
    exact hcell.known (hc.still hk')
  · rw [hc.pending_other hne, hc.heap]
    exact hcell.removal
  · intro n d' j hs hl hj
    rw [hc.heap] at hs hl
    rw [hc.table] at hj
    obtain ⟨hbelow, hbefore⟩ := hcell.below n d' j hs hl hj
    refine ⟨fun hj' => ?_, ?_⟩
    · rw [hc.pending_other hne, hsame]
      exact hbelow (hc.still hj')
    · rw [hc.queue]
      split
      · rename_i hi
        rw [List.pairwise_append]
        refine ⟨hbefore, ?_, ?_⟩
        · cases mask with
          | none => exact List.Pairwise.nil
          | some m => exact List.pairwise_singleton _ _
        · rintro ⟨a, m', b⟩ ha c hmem rfl rfl hj'
          -- what waits for the name of a directory means that it is watched no longer
          obtain ⟨m'', -, rfl⟩ := Option.map_eq_some_iff.mp (Option.mem_toList.mp hmem)
          obtain ⟨hold, -⟩ := hbelow (hj' ▸ hi)
          exact waiting_of_mem ha hold
      · rw [List.append_nil]
        exact hbefore

/-- **A change of the disk.** -/
theorem Inv.change (hw : Inv r w) (hg : Told w (.change i x new mask)) (h : w.change i x new mask = some w') : Inv r w' := by
  obtain ⟨hreport, hmovedFrom, hnew⟩ := hg
  have hc := change_changed h
  refine ⟨?_, ?_, ?_, ?_, ?_, ?_, ?_, ?_, ?_, ?_, ?_, ?_, ?_, hc.table ▸ hw.root⟩
  · exact hc.heap ▸ hw.good
  · exact hc.heap ▸ hw.wf
  · exact hc.heap ▸ hw.tail
  · exact hc.touched.trans hw.untouched
  · intro k d y hk hd
    rw [hc.table] at hk
    rw [hc.heap] at hd
    by_cases hhere : k = i ∧ y = x
    · obtain ⟨rfl, rfl⟩ := hhere
      cases hwatched : w.watched k with
      | false => exact hc.cell_untold hw hk hd hwatched
      | true =>
          obtain ⟨hsome, hmovedTo⟩ := hreport hwatched
          obtain ⟨m, rfl⟩ := Option.ne_none_iff_exists'.mp hsome
          exact hc.cell_told hw hk hd hwatched (fun hm => hmovedTo (congrArg some hm)) fun hm => hmovedFrom (congrArg some hm)
    · exact hc.cell_other hw hk hd hhere
  · rw [hc.table]
    exact hw.tableInj
  · rw [hc.table, hc.heap]
    exact hw.tableLt
  · intro k hk
    rw [hc.table, hc.heap]
    apply hw.live
    rcases hk with hk | ⟨q, hq, rfl⟩
    · exact .inl (hc.still hk)
    · rw [hc.queue] at hq
      rcases List.mem_append.mp hq with hq | hq
      · exact .inr ⟨q, hq, rfl⟩
      · split at hq
        · rename_i hi
          obtain ⟨m, -, rfl⟩ := Option.map_eq_some_iff.mp (Option.mem_toList.mp hq)
          exact .inl hi
        · exact absurd hq List.not_mem_nil
  · intro j d' hj ht
    rw [hc.table] at ht ⊢
    rw [hc.heap]
    exact hw.owner j d' (hc.still hj) ht
  · -- a directory that is new to the tree has a number of its own
    have hown : ∀ e, new = some e → e.stat.isDir = true → ∀ k y e', w.entry k y = some e' → e'.stat.isDir = true →
        e.ino = e'.ino → k = i ∧ y = x := by
      intro e he hdir k y e' he' hdir' hino
      by_cases hsame : ∀ o, w.entry i x = some o → o.stat.isDir = true → o.ino ≠ e.ino
      · exact absurd hino.symm ((hnew e he hdir hsame).2 k y e' he' hdir')
      · push Not at hsame
        obtain ⟨o, ho, hodir, hoino⟩ := hsame
        exact hw.uniq k y e' i x o he' hdir' ho hodir (hino.symm.trans hoino.symm)
    intro k y e k' y' e' he hdir he' hdir' hino
    rw [hc.entry] at he he'
    by_cases hhere : k = i ∧ y = x
    · rw [if_pos hhere] at he
      by_cases hhere' : k' = i ∧ y' = x
      · exact ⟨hhere.1.trans hhere'.1.symm, hhere.2.trans hhere'.2.symm⟩
      · rw [if_neg hhere'] at he'
        exact absurd (hown e he hdir k' y' e' he' hdir' hino) hhere'
    · rw [if_neg hhere] at he
      by_cases hhere' : k' = i ∧ y' = x
      · rw [if_pos hhere'] at he'
        exact absurd (hown e' he' hdir' k y e he hdir hino.symm) hhere
      · rw [if_neg hhere'] at he'
        exact hw.uniq k y e k' y' e' he hdir he' hdir' hino
  · intro k y e he hdir ht
    rw [hc.table] at ht
    rw [hc.entry] at he
    by_cases hhere : k = i ∧ y = x
    · rw [if_pos hhere] at he
      by_cases hsame : ∀ o, w.entry i x = some o → o.stat.isDir = true → o.ino ≠ e.ino
      · rw [(hnew e he hdir hsame).1] at ht
        exact absurd ht (by simp)
      · push Not at hsame
        obtain ⟨o, ho, hodir, hoino⟩ := hsame
        obtain ⟨hwatched, hroot⟩ := hw.gone i x o ho hodir (hoino ▸ ht)
        refine ⟨?_, hoino ▸ hroot⟩
        have hkept : removedDir (w.entry i x) mask ≠ some e.ino := by
          intro hgone
          obtain ⟨rfl, -⟩ := removedDir_some hgone
          have hnone := (Bool.and_eq_true_iff.mp hc.reports).2
          rw [he] at hnone
          exact absurd hnone (by simp)
        rw [hc.watched, ← hoino, hwatched, hoino, bne_iff_ne.mpr hkept]
        rfl
    · rw [if_neg hhere] at he
      obtain ⟨hwatched, hroot⟩ := hw.gone k y e he hdir ht
      refine ⟨?_, hroot⟩
      have hkept : removedDir (w.entry i x) mask ≠ some e.ino := by
        intro hgone
        obtain ⟨-, o, ho, hodir, hoino⟩ := removedDir_some hgone
        exact hhere (hw.uniq k y e i x o he hdir ho hodir hoino.symm)
      rw [hc.watched, hwatched, bne_iff_ne.mpr hkept]
      rfl
  · intro q hq
    rw [hc.queue] at hq
    rcases List.mem_append.mp hq with hq | hq
    · exact hw.valid q hq
    · split at hq
      · obtain ⟨m, -, rfl⟩ := Option.map_eq_some_iff.mp (Option.mem_toList.mp hq)
        exact hc.valid
      · exact absurd hq List.not_mem_nil
  · intro d hd hnone y
    rw [hc.heap] at hd ⊢
    exact hw.bare d hd (hc.table ▸ hnone) y

end

/-! ## One name of the tree changes -/

/-- What is left of the queue. -/
structure Rest (w : World) (queue : List (Ino × Mask × Bytes)) (i : Ino) (x : Bytes) : Prop where
  sublist : queue.Sublist w.queue
  other : ∀ k y, ¬ (k = i ∧ y = x) → waiting queue k y = w.pending k y

/-- **A call that is about one name** of the directory `d`, and the node `n` there. -/
theorem Inv.moved (hw : Inv r w) (hi : w.table i = some d) {queue : List (Ino × Mask × Bytes)}
    (hq : Rest w queue i x) (hgood : Good h') (hwf : WF h'.tree) (htail : Tail h'.tree) (hf : Frame w.heap h' d x n)
    (hn : w.heap.LiveNode n → (w.heap.tree.nodes n).parent = some d ∧ (w.heap.tree.nodes n).name = x)
    (hback : ∀ e, h'.LiveDir e → w.heap.LiveDir e)
    (hkeep : ∀ e k, w.heap.LiveDir e → w.table k = some e → (w.watched k = true ∨ ∃ q ∈ queue, q.1 = k) → h'.LiveDir e)
    (hcell : h'.LiveDir d → Cell { w with heap := h', queue } i d x)
    (hlink : ∀ m d' j, basicVfsSearchDir w.heap.tree (some d) x = some m → w.heap.tree.Loaded m d' → w.table j = some d' →
      w.watched j = false) : Inv r { w with heap := h', queue } := by
  have hsearch : ∀ k e y, w.table k = some e → ¬ (k = i ∧ y = x) →
      basicVfsSearchDir h'.tree (some e) y = basicVfsSearchDir w.heap.tree (some e) y := by
    intro k e y hk hne
    apply hf.search
    by_cases hed : e = d
    · refine .inr fun hyx => hne ⟨hw.tableInj k i d (hed ▸ hk) hi, hyx⟩
    · exact .inl hed
  -- a node that is found under another name is another one
  have hshown : ∀ k e y m, w.table k = some e → ¬ (k = i ∧ y = x) → w.heap.LiveDir e → h'.LiveDir e →
      basicVfsSearchDir w.heap.tree (some e) y = some m → h'.tree.shown m = w.heap.tree.shown m := by
    intro k e y m hk hne he he' hs
    obtain ⟨hlive, hparent, hname⟩ := search_entry hw.good he hs
    refine hf.shown m hlive (search_entry hgood he' ((hsearch k e y hk hne).trans hs)).1 ?_
    rintro rfl
    obtain ⟨hparent', hname'⟩ := hn hlive
    obtain rfl : e = d := Option.some.inj (hparent.symm.trans hparent')
    exact hne ⟨hw.tableInj k i e hk hi, hname.symm.trans hname'⟩
  refine ⟨hgood, hwf, htail, hw.untouched, ?_, hw.tableInj, ?_, ?_, ?_, hw.uniq, hw.gone,
    fun q hmem => hw.valid q (hq.sublist.subset hmem), ?_, hw.root⟩
  · intro k e y hk he'
    by_cases hhere : k = i ∧ y = x
    · obtain ⟨rfl, rfl⟩ := hhere
      obtain rfl : e = d := Option.some.inj (hk.symm.trans hi)
      exact hcell he'
    · have he := hback e he'
      have hc := hw.cell k e y hk he
      have hsame := hsearch k e y hk hhere
      have hpending : World.pending { w with heap := h', queue } k y = w.pending k y := hq.other k y hhere
      refine ⟨?_, ?_, ?_, ?_⟩
      · rw [hpending]
        show follows (basicVfsSearchDir h'.tree (some e) y).isSome _ = _
        rw [hsame]
        exact hc.chain
      · intro hwatched hnone m e' hs he''
        rw [hpending] at hnone
        have hs' := hsame.symm.trans hs
        show Known e'.stat (h'.tree.shown m)
        rw [hshown k e y m hk hhere he he' hs']
        exact hc.known hwatched hnone m e' hs' he''
      · intro m d' hs hl
        have hs' := hsame.symm.trans hs
        rw [hpending]
        exact hc.removal m d' hs' ((shown_loaded (hshown k e y m hk hhere he he' hs')).mp hl)
      · intro m d' j hs hl hj
        have hs' := hsame.symm.trans hs
        rw [hpending]
        obtain ⟨hbelow, hbefore⟩ := hc.below m d' j hs' ((shown_loaded (hshown k e y m hk hhere he he' hs')).mp hl) hj
        exact ⟨hbelow, hbefore.sublist hq.sublist⟩
  · intro k e hk
    exact (hw.tableLt k e hk).trans_eq hf.dirCount.symm
  · intro k hk
    obtain ⟨e, he, hlive⟩ := hw.live k (hk.imp_right fun ⟨q, hmem, heq⟩ => ⟨q, hq.sublist.subset hmem, heq⟩)
    exact ⟨e, he, hkeep e k hlive he hk⟩
  · intro j d' hj hd'
    refine (hw.owner j d' hj hd').imp_right ?_
    rintro ⟨k, e, y, m, hk, he, hs, hl⟩
    have hhere : ¬ (k = i ∧ y = x) := by
      rintro ⟨rfl, rfl⟩
      obtain rfl : e = d := Option.some.inj (hk.symm.trans hi)
      exact absurd ((hlink m d' j hs hl hd').symm.trans hj) Bool.false_ne_true
    have he' := hkeep e k he hk (.inl (hw.watched_entry hk he hs hl hd' hj).1)
    exact ⟨k, e, y, m, hk, he', (hsearch k e y hk hhere).trans hs, (shown_loaded (hshown k e y m hk hhere he he' hs)).mpr hl⟩
  · intro e he' hnone y
    have hed : e ≠ d := by
      rintro rfl
      exact hnone i hi
    exact (hf.search e y (.inl hed)).trans (hw.bare e (hback e he') hnone y)

/-! ## An event is read -/

/-- What comes after the first event. -/
theorem rest_tail {rest : List (Ino × Mask × Bytes)} (hq : w.queue = (i, m, x) :: rest) : Rest w rest i x := by
  refine ⟨hq ▸ List.sublist_cons_self _ _, fun k y hne => ?_⟩
  unfold World.pending
  rw [hq]
  exact (waiting_other rest m (not_and_or.mp hne)).symm

/-- The first event fits what the tree holds. -/
theorem Inv.first (hw : Inv r w) (hi : w.table i = some d) (hd : w.heap.LiveDir d) {rest : List (Ino × Mask × Bytes)}
    (hq : w.queue = (i, m, x) :: rest) : ∃ b, m.next (basicVfsSearchDir w.heap.tree (some d) x).isSome = some b ∧
      follows b (waiting rest i x) = some (w.watched i && (w.entry i x).isSome) := by
  have hchain := (hw.cell i d x hi hd).chain
  unfold World.pending at hchain
  rw [hq, waiting_self, follows_cons] at hchain
  exact Option.bind_eq_some_iff.mp hchain

/-- A name is new: `IN_CREATE`, `IN_MOVED_TO`. -/
theorem Inv.created (hw : Inv r w) (hi : w.table i = some d) (hd : w.heap.LiveDir d) {rest : List (Ino × Mask × Bytes)}
    (hq : w.queue = (i, m, x) :: rest) (hm : m = .create ∨ m = .movedTo) (hsees : Sees os w) :
    Inv r { w with heap := basicVfsEventSingle os w.heap d m x, queue := rest } := by
  obtain ⟨b, hnext, hfollows⟩ := hw.first hi hd hq
  have hs : basicVfsSearchDir w.heap.tree (some d) x = none ∧ b = true := by
    cases hs : basicVfsSearchDir w.heap.tree (some d) x with
    | none =>
        rw [hs] at hnext
        rcases hm with rfl | rfl
        · exact ⟨rfl, (Option.some.inj hnext).symm⟩
        · exact ⟨rfl, (Option.some.inj hnext).symm⟩
    | some n =>
        rw [hs] at hnext
        rcases hm with rfl | rfl
        · exact absurd hnext (by simp [Mask.next])
        · exact absurd hnext (by simp [Mask.next])
  obtain ⟨hs, rfl⟩ := hs
  have hx : ValidName x := hw.valid (i, m, x) (hq ▸ List.mem_cons_self)
  obtain ⟨he, hnode⟩ := add_entered hw.good hw.wf hd .none hx hs
  have hinode : ((w.heap.setTree (basicVfsAdd w.heap.tree d .none x).1).tree.nodes w.heap.tree.nodeCount).inode = none :=
    congrArg Node.inode he.node
  have ha := stat_asked he.good he.wf os he.live hinode ((w.heap.tree.dirs d).path ++ 47 :: x)
  obtain ⟨v, hv⟩ : ∃ v, v = (basicVfsStat os (basicVfsAdd w.heap.tree d .none x).1 w.heap.tree.nodeCount
    ((w.heap.tree.dirs d).path ++ 47 :: x)).1 := ⟨_, rfl⟩
  have heq : basicVfsEventSingle os w.heap d m x = w.heap.setTree v := by
    rw [hv, ← hnode]
    rcases hm with rfl | rfl
    · rfl
    · rfl
  rw [show (basicVfsStat os (w.heap.setTree (basicVfsAdd w.heap.tree d .none x).1).tree w.heap.tree.nodeCount
    ((w.heap.tree.dirs d).path ++ 47 :: x)).1 = v from hv.symm] at ha
  rw [heq]
  have hdirs : ∀ e, (w.heap.setTree v).LiveDir e ↔ w.heap.LiveDir e := by
    intro e
    unfold Heap.LiveDir
    rw [show (w.heap.setTree v).tree.dirCount = w.heap.tree.dirCount from
      ((ha.frame d x).dirCount).trans he.frame.dirCount]
    exact Iff.rfl
  apply hw.moved hi (rest_tail hq) ha.good ha.wf ((hw.tail.add hw.wf d .none x).congr ha.dirs)
    (he.frame.trans (ha.frame d x))
  · exact fun hn => absurd hn.1 (lt_irrefl _)
  · exact fun e => (hdirs e).mp
  · exact fun e _ he _ _ => (hdirs e).mpr he
  · intro _
    have hfound := (ha.search d x).trans he.found
    refine ⟨?_, ?_, ?_, ?_⟩
    · exact (congrArg (fun found => follows (Option.isSome found) (waiting rest i x)) hfound).trans hfollows
    · intro hwatched _ n e hn hentry
      obtain rfl := Option.some.inj (hfound.symm.trans hn)
      apply ha.known
      rw [(hsees i d hwatched hi).statx x hx]
      exact congrArg (Option.map (·.stat)) hentry
    · intro n d' hn hl
      obtain rfl := Option.some.inj (hfound.symm.trans hn)
      exact absurd hl (ha.unread d')
    · intro n d' j hn hl
      obtain rfl := Option.some.inj (hfound.symm.trans hn)
      exact absurd hl (ha.unread d')
  · intro n d' j hn
    exact absurd (hs.symm.trans hn) (by simp)

/-- A file says something new: `IN_MODIFY`. -/
theorem Inv.modified (hw : Inv r w) (hi : w.table i = some d) (hd : w.heap.LiveDir d) {rest : List (Ino × Mask × Bytes)}
    (hq : w.queue = (i, .modify, x) :: rest) (hsees : Sees os w) :
    Inv r { w with heap := basicVfsEventSingle os w.heap d .modify x, queue := rest } := by
  obtain ⟨b, hnext, hfollows⟩ := hw.first hi hd hq
  have hc := hw.cell i d x hi hd
  have hpending : w.pending i x = .modify :: waiting rest i x := by
    unfold World.pending
    rw [hq, waiting_self]
  cases hs : basicVfsSearchDir w.heap.tree (some d) x with
  | none =>
      rw [hs] at hnext
      exact absurd hnext (by simp [Mask.next])
  | some n =>
      rw [hs] at hnext
      obtain rfl : true = b := Option.some.inj hnext
      obtain ⟨hn, hparent, hname⟩ := search_entry hw.good hd hs
      -- it is no directory that was read
      have hunread : ∀ e, ¬ w.heap.tree.Loaded n e := by
        intro e hl
        rcases hc.removal n e hs hl _ _ hpending with hm | hm
        · exact absurd hm (by simp)
        · exact absurd hm (by simp)
      obtain ⟨hg, hv, hf, hsearch, hinode, hnode, hdir, hdirs⟩ :=
        freeInode_asked hw.good hw.wf hn (by rw [hparent]; simp) hunread
      have hn' : (freeInode w.heap n).LiveNode n := ⟨hn.1.trans_le (hf d x).nodeCount, hnode ▸ hn.2⟩
      have ha := stat_asked hg hv os hn' hinode ((w.heap.tree.dirs d).path ++ 47 :: x)
      have heq : basicVfsEventSingle os w.heap d .modify x = (freeInode w.heap n).setTree
          (basicVfsStat os (freeInode w.heap n).tree n ((w.heap.tree.dirs d).path ++ 47 :: x)).1 := by
        unfold basicVfsEventSingle
        dsimp only
        rw [add_present .none hs]
        rfl
      rw [heq]
      generalize (basicVfsStat os (freeInode w.heap n).tree n ((w.heap.tree.dirs d).path ++ 47 :: x)).1 = v at ha
      have hlive : ∀ e, ((freeInode w.heap n).setTree v).LiveDir e ↔ w.heap.LiveDir e := by
        intro e
        unfold Heap.LiveDir
        rw [show ((freeInode w.heap n).setTree v).tree.dirCount = w.heap.tree.dirCount from
          ((ha.frame d x).dirCount).trans (hf d x).dirCount,
          show ((freeInode w.heap n).setTree v).freed.dir = w.heap.freed.dir from hdir]
      have hfound : basicVfsSearchDir v (some d) x = some n := ((ha.search d x).trans (hsearch d x)).trans hs
      apply hw.moved hi (rest_tail hq) ha.good ha.wf ((hw.tail.congr hdirs).congr ha.dirs) ((hf d x).trans (ha.frame d x))
      · exact fun _ => ⟨hparent, hname⟩
      · exact fun e => (hlive e).mp
      · exact fun e _ he _ _ => (hlive e).mpr he
      · intro _
        refine ⟨?_, ?_, ?_, ?_⟩
        · exact (congrArg (fun found => follows (Option.isSome found) (waiting rest i x)) hfound).trans hfollows
        · intro hwatched _ n' e hn' hentry
          obtain rfl := Option.some.inj (hfound.symm.trans hn')
          apply ha.known
          rw [(hsees i d hwatched hi).statx x (search_valid hw.wf hs)]
          exact congrArg (Option.map (·.stat)) hentry
        · intro n' d' hn' hl
          obtain rfl := Option.some.inj (hfound.symm.trans hn')
          exact absurd hl (ha.unread d')
        · intro n' d' j hn' hl
          obtain rfl := Option.some.inj (hfound.symm.trans hn')
          exact absurd hl (ha.unread d')
      · intro n' d' j hn' hl
        obtain rfl := Option.some.inj (hs.symm.trans hn')
        exact absurd hl (hunread d')

/-- A name is gone: `IN_DELETE`, `IN_MOVED_FROM`. -/
theorem Inv.deleted (hw : Inv r w) (hi : w.table i = some d) (hd : w.heap.LiveDir d) {rest : List (Ino × Mask × Bytes)}
    (hq : w.queue = (i, m, x) :: rest) (hm : m = .delete ∨ m = .movedFrom) :
    Inv r { w with heap := basicVfsEventSingle os w.heap d m x, queue := rest } := by
  obtain ⟨b, hnext, hfollows⟩ := hw.first hi hd hq
  have heq : basicVfsEventSingle os w.heap d m x = basicVfsDelete w.heap d x := by
    rcases hm with rfl | rfl
    · rfl
    · rfl
  rw [heq]
  cases hs : basicVfsSearchDir w.heap.tree (some d) x with
  | none =>
      rw [hs] at hnext
      rcases hm with rfl | rfl
      · exact absurd hnext (by simp [Mask.next])
      · exact absurd hnext (by simp [Mask.next])
  | some n =>
      rw [hs] at hnext
      obtain rfl : false = b := by
        rcases hm with rfl | rfl
        · exact Option.some.inj hnext
        · exact Option.some.inj hnext
      obtain ⟨hn, hparent, hname⟩ := search_entry hw.good hd hs
      have hrem := delete_removed hw.good hw.wf hd hs fun e hl =>
        hw.tail.empty hw.wf (hw.removal_empty hi hd hs hl hq).2
      obtain ⟨i', v, hdirs, htree⟩ := hrem.cleared
      apply hw.moved hi (rest_tail hq) hrem.good hrem.wf (htree ▸ (hw.tail.congr hdirs).clear d i') hrem.frame
      · exact fun _ => ⟨hparent, hname⟩
      · exact hrem.back
      · intro e k he hk hneeded
        refine hrem.dir e he fun hl => ?_
        -- what is freed with the name is not watched, and no event is for it
        obtain ⟨hwatched, hnone⟩ := (hw.removal_empty hi hd hs hl hq).1 k hk
        rcases hneeded with hyes | ⟨q, hmem, heq⟩
        · exact absurd (hwatched.symm.trans hyes) Bool.false_ne_true
        · exact hnone q hmem heq
      · intro _
        refine ⟨?_, ?_, ?_, ?_⟩
        · exact (congrArg (fun found => follows (Option.isSome found) (waiting rest i x)) hrem.missing).trans hfollows
        · intro _ _ n' e hn'
          exact absurd (hrem.missing.symm.trans hn') (by simp)
        · intro n' d' hn'
          exact absurd (hrem.missing.symm.trans hn') (by simp)
        · intro n' d' j hn'
          exact absurd (hrem.missing.symm.trans hn') (by simp)
      · intro n' d' j hn' hl hj
        obtain rfl := Option.some.inj (hs.symm.trans hn')
        exact ((hw.removal_empty hi hd hs hl hq).1 j hj).1

/-- **`basic_vfs_event_single`**: the event is for a directory that is there, and brings its name closer to the disk. -/
theorem Inv.deliver (hw : Inv r w) (hsees : Sees os w) (h : w.deliver os = some w') : Inv r w' := by
  unfold World.deliver at h
  split at h
  · exact absurd h (by simp)
  · rename_i i m x rest hq
    obtain ⟨d, hi, hd⟩ := hw.live i (.inr ⟨(i, m, x), hq ▸ List.mem_cons_self, rfl⟩)
    have htouched : (w.touched || w.heap.freed.dir d) = w.touched := by
      rw [hd.2, Bool.or_false]
    rw [hi] at h
    obtain rfl := Option.some.inj h
    rw [htouched]
    cases m with
    | create => exact hw.created hi hd hq (.inl rfl) hsees
    | movedTo => exact hw.created hi hd hq (.inr rfl) hsees
    | modify => exact hw.modified hi hd hq hsees
    | delete => exact hw.deleted hi hd hq (.inl rfl)
    | movedFrom => exact hw.deleted hi hd hq (.inr rfl)

/-! ## Calls -/

theorem called_live (hn : w.heap.LiveNode n) (v : Tree) : w.called n v = { w with heap := w.heap.setTree v } := by
  unfold World.called
  rw [hn.2, Bool.or_false]

/-- A call that changes nothing that is found. -/
theorem Inv.quiet (hw : Inv r w) {v : Tree} (hv : Quiet w.heap v) : Inv r { w with heap := w.heap.setTree v } := by
  have hdir : ∀ e, (w.heap.setTree v).LiveDir e ↔ w.heap.LiveDir e := by
    intro e
    unfold Heap.LiveDir
    rw [show (w.heap.setTree v).tree.dirCount = w.heap.tree.dirCount from hv.dirCount]
    exact Iff.rfl
  have hloaded : ∀ m e, v.Loaded m e ↔ w.heap.tree.Loaded m e := fun m _ => shown_loaded (hv.shown m)
  refine ⟨hv.good, hv.wf, hw.tail.congr hv.dirs, hw.untouched, ?_, hw.tableInj, ?_, ?_, ?_, hw.uniq, hw.gone, hw.valid, ?_,
    hw.root⟩
  · intro i d x hi hd
    have hc := hw.cell i d x hi ((hdir d).mp hd)
    refine ⟨?_, ?_, ?_, ?_⟩
    · exact (congrArg (fun found => follows (Option.isSome found) (w.pending i x)) hv.search).trans hc.chain
    · intro hwatched hnone n e hs he
      show Known e.stat (v.shown n)
      rw [hv.shown n]
      exact hc.known hwatched hnone n e (hv.search.symm.trans hs) he
    · exact fun n d' hs hl => hc.removal n d' (hv.search.symm.trans hs) ((hloaded n d').mp hl)
    · exact fun n d' j hs hl => hc.below n d' j (hv.search.symm.trans hs) ((hloaded n d').mp hl)
  · exact fun i d hi => (hw.tableLt i d hi).trans_eq hv.dirCount.symm
  · intro i hi
    obtain ⟨d, hd, hlive⟩ := hw.live i hi
    exact ⟨d, hd, (hdir d).mpr hlive⟩
  · intro j d' hj hd'
    refine (hw.owner j d' hj hd').imp_right ?_
    rintro ⟨i, d, x, n, hi, hd, hs, hl⟩
    exact ⟨i, d, x, n, hi, (hdir d).mpr hd, hv.search.trans hs, (hloaded n d').mpr hl⟩
  · exact fun d hd hnone y => hv.search.trans (hw.bare d ((hdir d).mp hd) hnone y)

/-- **`basic_vfs_get_file`** asks about a name that the tree has. -/
theorem Inv.gotFile (hw : Inv r w) (hn : w.heap.LiveNode n) (hsees : Sees os w)
    (hfound : (w.heap.tree.nodes n).type = .file → Found w n) :
    Inv r (w.called n (basicVfsGetFile os w.heap.tree n).1) := by
  rw [called_live hn]
  by_cases htype : (w.heap.tree.nodes n).type = .file
  · obtain ⟨d, hd, hs⟩ := hfound htype
    obtain ⟨i, hi⟩ : ∃ i, w.table i = some d := by
      by_contra hnone
      push Not at hnone
      exact absurd (hs.symm.trans (hw.bare d hd hnone _)) (by simp)
    rcases getFile_asked hw.good hw.wf os hd hs with hsame | ha
    · rw [hsame]
      exact hw.quiet (Quiet.refl hw.good hw.wf)
    · generalize (basicVfsGetFile os w.heap.tree n).1 = v at ha
      have hlive : ∀ e, (w.heap.setTree v).LiveDir e ↔ w.heap.LiveDir e := by
        intro e
        unfold Heap.LiveDir
        rw [show (w.heap.setTree v).tree.dirCount = w.heap.tree.dirCount from (ha.frame d []).dirCount]
        exact Iff.rfl
      have hc := hw.cell i d (w.heap.tree.nodes n).name hi hd
      have hkept := (ha.search d (w.heap.tree.nodes n).name).trans hs
      apply hw.moved hi ⟨List.Sublist.refl _, fun _ _ _ => rfl⟩ ha.good ha.wf (hw.tail.congr ha.dirs)
        (ha.frame d (w.heap.tree.nodes n).name)
      · exact fun _ => ⟨(search_entry hw.good hd hs).2.1, rfl⟩
      · exact fun e => (hlive e).mp
      · exact fun e _ he _ _ => (hlive e).mpr he
      · intro _
        refine ⟨?_, ?_, ?_, ?_⟩
        · exact (congrArg (fun found => follows (Option.isSome found) (w.pending i (w.heap.tree.nodes n).name))
            (ha.search d (w.heap.tree.nodes n).name)).trans hc.chain
        · intro hwatched _ m e hm hentry
          obtain rfl := Option.some.inj (hkept.symm.trans hm)
          apply ha.known
          rw [(hsees i d hwatched hi).statx _ (search_valid hw.wf hs)]
          exact congrArg (Option.map (·.stat)) hentry
        · intro m d' hm hl
          obtain rfl := Option.some.inj (hkept.symm.trans hm)
          exact absurd hl (ha.unread d')
        · intro m d' j hm hl
          obtain rfl := Option.some.inj (hkept.symm.trans hm)
          exact absurd hl (ha.unread d')
      · intro m d' j hm hl
        obtain rfl := Option.some.inj (hs.symm.trans hm)
        exact absurd (htype.symm.trans hl.1) (by simp)
  · have hsame : (basicVfsGetFile os w.heap.tree n).1 = w.heap.tree := by
      unfold basicVfsGetFile
      rw [if_pos htype]
    rw [hsame]
    exact hw.quiet (Quiet.refl hw.good hw.wf)

/-! ## A directory is read -/

/-- What is not in the table is not watched, and no event is for it. -/
theorem Inv.idle (hw : Inv r w) (hi : w.table i = none) : w.watched i = false ∧ ∀ q ∈ w.queue, q.1 ≠ i := by
  refine ⟨Bool.eq_false_iff.mpr fun hyes => ?_, fun q hq heq => ?_⟩
  · obtain ⟨d, hd, -⟩ := hw.live i (.inl hyes)
    exact absurd (hi.symm.trans hd) (by simp)
  · obtain ⟨d, hd, -⟩ := hw.live i (.inr ⟨q, hq, heq⟩)
    exact absurd (hi.symm.trans hd) (by simp)

/-- The directory whose name is on the disk is new to the tree: whatever had the number would be watched, and be the same node. -/
theorem Inv.settled_new (hw : Inv r w) (hinode : (w.heap.tree.nodes n).inode = none)
    (htype : (w.heap.tree.nodes n).type = .dir) {p : DirId} {o : DiskEntry} (hk : w.table k = some p)
    (hwatched : w.watched k = true) (hs : basicVfsSearchDir w.heap.tree (some p) x = some n) (hpending : w.pending k x = [])
    (ho : w.entry k x = some o) : w.heap.LiveDir p ∧ o.stat.isDir = true ∧ w.table o.ino = none := by
  obtain ⟨p', hp', hlive⟩ := hw.live k (.inl hwatched)
  obtain rfl : p' = p := Option.some.inj (hp'.symm.trans hk)
  have hdir : o.stat.isDir = true := ((hw.cell k p' _ hk hlive).known hwatched hpending n o hs ho).dir htype
  refine ⟨hlive, hdir, ?_⟩
  cases ht : w.table o.ino with
  | none => rfl
  | some d' =>
      obtain ⟨hwo, hne⟩ := hw.gone k _ o ho hdir (ht ▸ rfl)
      rcases hw.owner o.ino d' hwo ht with heq | ⟨i, d, y, m, hi, hd, hm, hl⟩
      · exact absurd heq hne
      · obtain ⟨-, -, o', ho', hdir', hino⟩ := hw.watched_entry hi hd hm hl ht hwo
        obtain ⟨rfl, rfl⟩ := hw.uniq i y o' k _ o ho' hdir' ho hdir hino
        obtain rfl : d = p' := Option.some.inj (hi.symm.trans hk)
        obtain rfl : m = n := Option.some.inj (hm.symm.trans hs)
        exact absurd (hinode.symm.trans hl.2) (by simp)

/-- **A directory is looked into for the first time.** Its node `n` was found under the name `x` of the directory `k`, where `o`
    is on the disk and nothing waits. The number of `o` now stands for the new directory, or for nothing if it cannot be
    opened. -/
structure Loads (w w' : World) (n : NodeId) (k : Ino) (p : DirId) (x : Bytes) (o : DiskEntry) : Prop where
  opened : Opened w.heap w'.heap.tree n p
  heap : w'.heap = w.heap.setTree w'.heap.tree
  tail : Tail w'.heap.tree
  disk : w'.disk = w.disk
  queue : w'.queue = w.queue
  touched : w'.touched = w.touched
  watched : ∀ j, j ≠ o.ino → w'.watched j = w.watched j
  table : ∀ j, j ≠ o.ino → w'.table j = w.table j
  parent : w.table k = some p
  live : w.heap.LiveDir p
  found : basicVfsSearchDir w.heap.tree (some p) x = some n
  unread : (w.heap.tree.nodes n).inode = none
  settled : w.pending k x = []
  there : w.entry k x = some o
  dir : o.stat.isDir = true
  fresh : w.table o.ino = none
  new : (w'.table o.ino = none ∧ w'.watched o.ino = false ∧
      ∀ y, basicVfsSearchDir w'.heap.tree (some w.heap.tree.dirCount) y = none) ∨
    (w'.table o.ino = some w.heap.tree.dirCount ∧ w'.watched o.ino = true ∧ ∀ y, Cell w' o.ino w.heap.tree.dirCount y)

namespace Loads

variable {p : DirId} {o : DiskEntry}

theorem known (hl : Loads w w' n k p x o) (hj : w.table j = some e) : j ≠ o.ino := by
  rintro rfl
  exact absurd (hl.fresh.symm.trans hj) (by simp)

/-- A directory of the table is an old one or the new one. -/
theorem cases (hl : Loads w w' n k p x o) (hj : w'.table j = some e) :
    (j ≠ o.ino ∧ w.table j = some e) ∨ (j = o.ino ∧ e = w.heap.tree.dirCount) := by
  by_cases hji : j = o.ino
  · subst hji
    rcases hl.new with ⟨hnone, -⟩ | ⟨hsome, -⟩
    · exact absurd (hnone.symm.trans hj) (by simp)
    · exact .inr ⟨rfl, Option.some.inj (hj.symm.trans hsome)⟩
  · exact .inl ⟨hji, (hl.table j hji).symm.trans hj⟩

theorem liveDir (hl : Loads w w' n k p x o) (he : e < w.heap.tree.dirCount) : w'.heap.LiveDir e ↔ w.heap.LiveDir e := by
  unfold Heap.LiveDir
  rw [show w'.heap.freed = w.heap.freed from (congrArg Heap.freed hl.heap).trans rfl, hl.opened.dirCount]
  exact ⟨fun h => ⟨he, h.2⟩, fun h => ⟨he.trans (Nat.lt_succ_self _), h.2⟩⟩

theorem shown (hl : Loads w w' n k p x o) (hg : Good w.heap) (he : w.heap.LiveDir e) {m : NodeId}
    (hm : basicVfsSearchDir w.heap.tree (some e) y = some m) (hmn : m ≠ n) :
    w'.heap.tree.shown m = w.heap.tree.shown m := hl.opened.shown m (search_entry hg he hm).1 hmn

theorem pending (hl : Loads w w' n k p x o) (j : Ino) (y : Bytes) : w'.pending j y = w.pending j y := by
  unfold World.pending
  rw [hl.queue]

theorem entry (hl : Loads w w' n k p x o) (j : Ino) (y : Bytes) : w'.entry j y = w.entry j y := by
  unfold World.entry
  rw [hl.disk]

theorem node (hl : Loads w w' n k p x o) {d' : DirId} : w'.heap.tree.Loaded n d' ↔ d' = w.heap.tree.dirCount := by
  have hshown := hl.opened.node
  have htype : (w'.heap.tree.nodes n).type = .dir := congrArg Prod.fst hshown
  have hinode : (w'.heap.tree.nodes n).inode = some w.heap.tree.dirCount := congrArg (fun t => t.2.1) hshown
  refine ⟨fun hd' => Option.some.inj (hd'.2.symm.trans hinode), ?_⟩
  rintro rfl
  exact ⟨htype, hinode⟩

/-- The node has no other name. -/
theorem name (hl : Loads w w' n k p x o) (hw : Inv r w) (hj : w.table j = some e) (he : w.heap.LiveDir e)
    (hm : basicVfsSearchDir w.heap.tree (some e) y = some n) : j = k ∧ y = x := by
  obtain ⟨-, hparent, hname⟩ := search_entry hw.good he hm
  obtain ⟨-, hparent', hname'⟩ := search_entry hw.good hl.live hl.found
  obtain rfl : e = p := Option.some.inj (hparent.symm.trans hparent')
  exact ⟨hw.tableInj j k e hj hl.parent, hname.symm.trans hname'⟩

/-- The names of the directories that were read before. -/
theorem cell (hl : Loads w w' n k p x o) (hw : Inv r w) (hj : w.table j = some e) (he : w.heap.LiveDir e) : Cell w' j e y := by
  have hc := hw.cell j e y hj he
  have hsearch := hl.opened.search e y (hw.tableLt j e hj)
  have hstays : w'.watched j = w.watched j := hl.watched j (hl.known hj)
  refine ⟨?_, ?_, ?_, ?_⟩
  · rw [hsearch, hl.pending, hl.entry, hstays]
    exact hc.chain
  · intro hwatched hnone m e' hm he'
    rw [hsearch] at hm
    rw [hl.entry] at he'
    by_cases hmn : m = n
    · obtain rfl := hmn
      obtain ⟨rfl, rfl⟩ := hl.name hw hj he hm
      obtain rfl : o = e' := Option.some.inj (hl.there.symm.trans he')
      rw [hl.opened.node]
      exact ⟨fun _ => hl.dir, fun hfile => absurd hfile (by simp), fun t ht => absurd ht (by simp)⟩
    · rw [hl.shown hw.good he hm hmn]
      exact hc.known (hstays ▸ hwatched) (hl.pending j y ▸ hnone) m e' hm he'
  · intro m d' hm hd' m' ms hms
    rw [hsearch] at hm
    rw [hl.pending] at hms
    by_cases hmn : m = n
    · obtain rfl := hmn
      obtain ⟨rfl, rfl⟩ := hl.name hw hj he hm
      exact absurd (hl.settled.symm.trans hms) (by simp)
    · exact hc.removal m d' hm ((shown_loaded (hl.shown hw.good he hm hmn)).mp hd') m' ms hms
  · intro m d' j' hm hd' hj'
    rw [hsearch] at hm
    rw [hl.pending, hl.entry, hl.queue]
    by_cases hmn : m = n
    · obtain rfl := hmn
      obtain ⟨rfl, rfl⟩ := hl.name hw hj he hm
      rcases hl.cases hj' with ⟨-, hold⟩ | ⟨rfl, -⟩
      · exact absurd (hw.tableLt j' d' hold) (hl.node.mp hd' ▸ lt_irrefl _)
      · refine ⟨fun _ => ⟨hl.settled, o, hl.there, hl.dir, rfl⟩, ?_⟩
        exact List.pairwise_iff_forall_sublist.mpr fun hsub _ _ => (hw.idle hl.fresh).2 _ (hsub.subset (by simp))
    · have hd := (shown_loaded (hl.shown hw.good he hm hmn)).mp hd'
      rcases hl.cases hj' with ⟨hne, hold⟩ | ⟨-, rfl⟩
      · rw [hl.watched j' hne]
        exact hc.below m d' j' hm hd hold
      · exact absurd (hw.good.loaded m _ (search_entry hw.good he hm).1 hd).1 (lt_irrefl _)

theorem inv (hl : Loads w w' n k p x o) (hw : Inv r w) : Inv r w' := by
  have hnew : o.ino ≠ r := by
    intro hor
    have hroot := hw.root
    rw [← hor, hl.fresh] at hroot
    exact absurd hroot (by simp)
  refine ⟨hl.heap ▸ hl.opened.good, hl.opened.wf, hl.tail, hl.touched.trans hw.untouched, ?_, ?_, ?_, ?_, ?_, ?_, ?_,
    hl.queue ▸ hw.valid, ?_, (hl.table r hnew.symm).symm ▸ hw.root⟩
  · intro j e y hj he
    rcases hl.cases hj with ⟨-, hj⟩ | ⟨rfl, rfl⟩
    · exact hl.cell hw hj ((hl.liveDir (hw.tableLt j e hj)).mp he)
    · rcases hl.new with ⟨hnone, -⟩ | ⟨-, -, hcell⟩
      · exact absurd (hnone.symm.trans hj) (by simp)
      · exact hcell y
  · intro i j d hi hj
    rcases hl.cases hi with ⟨-, hi⟩ | ⟨rfl, rfl⟩
    · rcases hl.cases hj with ⟨-, hj⟩ | ⟨rfl, rfl⟩
      · exact hw.tableInj i j d hi hj
      · exact absurd (hw.tableLt i _ hi) (lt_irrefl _)
    · rcases hl.cases hj with ⟨-, hj⟩ | ⟨rfl, -⟩
      · exact absurd (hw.tableLt j _ hj) (lt_irrefl _)
      · rfl
  · intro j e hj
    rw [hl.opened.dirCount]
    rcases hl.cases hj with ⟨-, hj⟩ | ⟨-, rfl⟩
    · exact (hw.tableLt j e hj).trans (Nat.lt_succ_self _)
    · exact Nat.lt_succ_self _
  · intro j hj
    rw [hl.queue] at hj
    by_cases hji : j = o.ino
    · subst hji
      rcases hj with hj | ⟨q, hq, heq⟩
      · rcases hl.new with ⟨-, hno, -⟩ | ⟨hsome, -⟩
        · exact absurd (hno.symm.trans hj) Bool.false_ne_true
        · refine ⟨_, hsome, hl.opened.dirCount ▸ Nat.lt_succ_self _, ?_⟩
          rw [hl.heap]
          exact hw.good.freshDir _ le_rfl
      · exact absurd heq ((hw.idle hl.fresh).2 q hq)
    · rw [hl.watched j hji] at hj
      obtain ⟨e, he, hlv⟩ := hw.live j hj
      exact ⟨e, (hl.table j hji).trans he, (hl.liveDir hlv.1).mpr hlv⟩
  · intro j d' hj hd'
    rcases hl.cases hd' with ⟨hne, hd'⟩ | ⟨rfl, rfl⟩
    · rw [hl.watched j hne] at hj
      refine (hw.owner j d' hj hd').imp_right ?_
      rintro ⟨i, d, y, m, hi, hd, hm, hloaded⟩
      have hmn : m ≠ n := by
        rintro rfl
        exact absurd (hl.unread.symm.trans hloaded.2) (by simp)
      exact ⟨i, d, y, m, (hl.table i (hl.known hi)).trans hi, (hl.liveDir hd.1).mpr hd, (hl.opened.search d y hd.1).trans hm,
        (shown_loaded (hl.shown hw.good hd hm hmn)).mpr hloaded⟩
    · -- the directory above is the one where it was found
      exact .inr ⟨k, p, x, n, (hl.table k (hl.known hl.parent)).trans hl.parent, (hl.liveDir hl.live.1).mpr hl.live,
        (hl.opened.search p x hl.live.1).trans hl.found, hl.node.mpr rfl⟩
  · intro i y e i' y' e' he hd he' hd' hino
    rw [hl.entry] at he he'
    exact hw.uniq i y e i' y' e' he hd he' hd' hino
  · intro i y e he hd ht
    rw [hl.entry] at he
    by_cases hei : e.ino = o.ino
    · rw [hei] at ht ⊢
      rcases hl.new with ⟨hnone, -⟩ | ⟨-, hyes, -⟩
      · rw [hnone] at ht
        exact absurd ht (by simp)
      · exact ⟨hyes, hnew⟩
    · rw [hl.table e.ino hei] at ht
      rw [hl.watched e.ino hei]
      exact hw.gone i y e he hd ht
  · intro d hd hnone y
    rcases Nat.lt_or_eq_of_le (Nat.le_of_lt_succ (hl.opened.dirCount ▸ hd.1)) with hlt | rfl
    · rw [hl.opened.search d y hlt]
      exact hw.bare d ((hl.liveDir hlt).mp hd) (fun j hj => hnone j ((hl.table j (hl.known hj)).trans hj)) y
    · rcases hl.new with ⟨-, -, hempty⟩ | ⟨hsome, -⟩
      · exact hempty y
      · exact absurd hsome (hnone _)

end Loads

/-- The names of a directory right after it was read: the node is there exactly if the name is, and shows it. -/
theorem ReadSoFar.cell {dents : List Dirent} (hr : ReadSoFar w.heap.tree d dents fun x => (w.entry i x).map (·.stat))
    (hlists : Lists dents fun x => (w.entry i x).map (·.stat)) (hwatched : w.watched i = true) (hpending : w.pending i x = []) :
    Cell w i d x := by
  refine ⟨?_, ?_, ?_, ?_⟩
  · rw [hpending, hwatched, Bool.true_and]
    show some _ = some _
    congr 1
    cases hs : basicVfsSearchDir w.heap.tree (some d) x with
    | some n =>
        obtain ⟨st, hst, -⟩ := hr.found x n hs
        obtain ⟨e, he, -⟩ := Option.map_eq_some_iff.mp hst
        rw [he]
        rfl
    | none =>
        cases he : w.entry i x with
        | none => rfl
        | some e =>
            obtain ⟨dent, hmem, rfl, htype, hdot, hdots⟩ := hlists.listed x e.stat (congrArg (Option.map (·.stat)) he)
            exact absurd hs (hr.all dent hmem htype hdot hdots)
  · intro _ _ n e hs he
    obtain ⟨st, hst, hknown, -⟩ := hr.found x n hs
    obtain ⟨e', he', rfl⟩ := Option.map_eq_some_iff.mp hst
    obtain rfl : e = e' := Option.some.inj (he.symm.trans he')
    exact hknown
  · intro n d' hs hl
    obtain ⟨-, -, -, hunread⟩ := hr.found x n hs
    exact absurd hl (hunread d')
  · intro n d' j hs hl
    obtain ⟨-, -, -, hunread⟩ := hr.found x n hs
    exact absurd hl (hunread d')

/-- **`basic_vfs_get_dir`**. -/
theorem Inv.gotDir (hw : Inv r w) (hn : w.heap.LiveNode n)
    (hsettled : (w.heap.tree.nodes n).type = .dir → (w.heap.tree.nodes n).inode = none → Settled os w n i) :
    Inv r (w.getDir os n i) := by
  by_cases hload : (w.heap.tree.nodes n).type = .dir ∧ (w.heap.tree.nodes n).inode = none
  · obtain ⟨htype, hinode⟩ := hload
    obtain ⟨p, k, o, hparent, hk, hwatched, hs, hpending, ho, rfl, hleads⟩ := hsettled htype hinode
    obtain ⟨hlive, hdir, hfresh⟩ := hw.settled_new hinode htype hk hwatched hs hpending ho
    obtain ⟨hopened, hempty, hread⟩ := getDir_read hw.good hw.wf os hn htype hinode hparent hleads.statx hleads.list
    have htail := hw.tail.getDir hw.wf os htype hinode hparent
    have hidle := hw.idle hfresh
    unfold World.getDir
    dsimp only
    rw [hopened.path]
    cases hdents : os.readDir ((w.heap.tree.dirs p).path ++ (w.heap.tree.nodes n).name ++ [47]) with
    | none =>
        rw [if_neg (by simp), called_live hn]
        apply Loads.inv (n := n) (k := k) (p := p) (x := (w.heap.tree.nodes n).name) (o := o) _ hw
        exact ⟨hopened, rfl, htail, rfl, rfl, rfl, fun _ _ => rfl, fun _ _ => rfl, hk, hlive, hs, hinode, hpending, ho, hdir,
          hfresh, .inl ⟨hfresh, hidle.1, hempty hdents⟩⟩
    | some dents =>
        rw [if_pos ⟨hopened.dirCount ▸ Nat.lt_succ_self _, rfl⟩, called_live hn]
        apply Loads.inv (n := n) (k := k) (p := p) (x := (w.heap.tree.nodes n).name) (o := o) _ hw
        refine ⟨hopened, rfl, htail, rfl, rfl, rfl, fun j hj => Function.update_of_ne hj _ _,
          fun j hj => Function.update_of_ne hj _ _, hk, hlive, hs, hinode, hpending, ho, hdir, hfresh,
          .inr ⟨Function.update_self _ _ _, Function.update_self _ _ _, ?_⟩⟩
        intro y
        apply ReadSoFar.cell
        · exact hread dents hdents
        · exact hleads.list dents hdents
        · exact Function.update_self _ _ _
        · exact waiting_none hidle.2
  · -- it is no directory, or it was read before
    have hsame : (basicVfsGetDir os w.heap.tree n).1 = w.heap.tree := by
      unfold basicVfsGetDir
      split
      · rfl
      · rename_i htype
        cases hinode : (w.heap.tree.nodes n).inode with
        | some d => rfl
        | none => exact absurd ⟨not_not.mp htype, hinode⟩ hload
    unfold World.getDir
    dsimp only
    rw [hsame, if_neg fun h => lt_irrefl _ h.1, called_live hn]
    exact hw.quiet (Quiet.refl hw.good hw.wf)

theorem inv_step {ev : FsEvent} (hw : Inv r w) (hg : Told w ev) (h : w.step ev = some w') : Inv r w' := by
  cases ev with
  | change i x entry mask => exact hw.change hg h
  | deliver os => exact hw.deliver hg h
  | getDir os n i =>
      obtain rfl := Option.some.inj h
      exact hw.gotDir hg.1 hg.2
  | getFile os n =>
      obtain rfl := Option.some.inj h
      exact hw.gotFile hg.1 hg.2.1 hg.2.2
  | ref os n =>
      obtain ⟨v, hv, rfl⟩ := Option.map_eq_some_iff.mp h
      rw [called_live hg]
      exact hw.quiet (quiet_ref hw.good hw.wf os hv)
  | unref n =>
      obtain ⟨v, hv, rfl⟩ := Option.map_eq_some_iff.mp h
      rw [called_live hg]
      exact hw.quiet (quiet_unref hw.good hw.wf hv)

end

/-! ## The start -/

/-- `basic_vfs_init` has read the root directory. -/
def World.start (os : Os) (disk : Ino → List (Bytes × DiskEntry)) (r : Ino) : World where
  heap := { tree := (basicVfsStatDir os bareTree 0 (bytes "/")).1 }
  disk := disk
  watched := fun i => decide (i = r)
  table := fun i => if i = r then some 0 else none

/-- The root directory can be read, a directory has one name, and the root directory has none. -/
structure Starts (os : Os) (disk : Ino → List (Bytes × DiskEntry)) (r : Ino) : Prop where
  dents : ∃ dents, os.readDir (bytes "/") = some dents
  leads : Leads os (World.start os disk r) r (bytes "/")
  uniq : ∀ i x e i' x' e', (disk i).lookup x = some e → e.stat.isDir = true → (disk i').lookup x' = some e' →
    e'.stat.isDir = true → e.ino = e'.ino → i = i' ∧ x = x'
  root : ∀ i x e, (disk i).lookup x = some e → e.stat.isDir = true → e.ino ≠ r

section

variable {os : Os} {disk : Ino → List (Bytes × DiskEntry)} {r : Ino}

theorem start_inv (hs : Starts os disk r) : Inv r (World.start os disk r) := by
  obtain ⟨dents, hdents⟩ := hs.dents
  have hbare : Heap.LiveDir { tree := bareTree } 0 := ⟨Nat.zero_lt_one, rfl⟩
  have hset := bareTree_good.setPath 0 (bytes "/")
  have hwf : WF (bareTree.setDir 0 { bareTree.dirs 0 with path := bytes "/" }) := initTree_wf rfl
  have hnone : ∀ e, ((bareTree.setDir 0 { bareTree.dirs 0 with path := bytes "/" }).dirs e).entries = [] := by
    intro e
    by_cases he : e = 0
    · rw [he]
      rfl
    · have hother : (bareTree.setDir 0 { bareTree.dirs 0 with path := bytes "/" }).dirs e = bareTree.dirs e :=
        Function.update_of_ne he _ _
      rw [hother]
      rfl
  have htail : Tail (bareTree.setDir 0 { bareTree.dirs 0 with path := bytes "/" }) := by
    intro e i m hm
    unfold Tree.EntryAt at hm
    rw [hnone e] at hm
    exact absurd hm (by simp)
  have htree : (World.start os disk r).heap.tree =
      dents.foldl (addDirent os 0) (bareTree.setDir 0 { bareTree.dirs 0 with path := bytes "/" }) := by
    show (basicVfsStatDir os bareTree 0 (bytes "/")).1 = _
    rw [basicVfsStatDir_eq os rfl, hdents]
  have hstart : ReadSoFar (bareTree.setDir 0 { bareTree.dirs 0 with path := bytes "/" }) 0 []
      fun x => ((World.start os disk r).entry r x).map (·.stat) :=
    ⟨fun x n hn => absurd hn (by simp [bareTree, basicVfsSearchDir, Tree.setDir, searchEntries]),
      fun e he => absurd he (by simp)⟩
  obtain ⟨hread, hapart⟩ := readdir_read os hset.1 hwf (hbare.grow hset) hs.leads.statx (hs.leads.list dents hdents).there hstart
  have hspec := foldl_addDirent_spec os dents hwf (d := 0) Nat.zero_lt_one
  have hcount : (World.start os disk r).heap.tree.dirCount = 1 := (congrArg Tree.dirCount htree).trans hapart.dirCount
  have hdir : ∀ d, (World.start os disk r).heap.LiveDir d → d = 0 := fun d hd => Nat.lt_one_iff.mp (hcount ▸ hd.1)
  have htable : ∀ i d, (World.start os disk r).table i = some d → i = r ∧ d = 0 := by
    intro i d hi
    replace hi : (if i = r then some 0 else none) = some d := hi
    split at hi
    · rename_i heq
      exact ⟨heq, (Option.some.inj hi).symm⟩
    · exact absurd hi (by simp)
  refine ⟨(bareTree_good.statDir os hbare (bytes "/")).1, htree ▸ hspec.1, htree ▸ htail.readdir hwf Nat.zero_lt_one os dents,
    rfl, ?_, ?_, ?_, ?_, ?_, hs.uniq, ?_, fun q hq => absurd hq List.not_mem_nil, ?_, ?_⟩
  · intro i d x hi _
    obtain ⟨rfl, rfl⟩ := htable i d hi
    apply ReadSoFar.cell
    · rw [htree]
      exact hread
    · exact hs.leads.list dents hdents
    · exact decide_eq_true rfl
    · rfl
  · intro i j d hi hj
    exact (htable i d hi).1.trans (htable j d hj).1.symm
  · intro i d hi
    rw [hcount, (htable i d hi).2]
    exact Nat.zero_lt_one
  · rintro i (hi | ⟨q, hq, -⟩)
    · obtain rfl : i = r := of_decide_eq_true hi
      exact ⟨0, if_pos rfl, hcount ▸ Nat.zero_lt_one, rfl⟩
    · exact absurd hq List.not_mem_nil
  · intro j d' hj _
    exact .inl (of_decide_eq_true hj)
  · intro i x e he hdir ht
    obtain ⟨d, hd⟩ := Option.isSome_iff_exists.mp ht
    exact absurd (htable _ d hd).1 (hs.root i x e he hdir)
  · intro d hd hnone
    obtain rfl := hdir d hd
    exact absurd (if_pos rfl) (hnone r)
  · exact congrArg Option.isSome (if_pos rfl)

end

/-! ## The tree and the disk -/

/-- **What the tree knows of the disk.** Nothing that was freed was looked at, and no event waits that would. A directory that is
    watched shows every name that nothing waits for: it is found exactly if it is there, with what the kernel says of it; and the
    directories below it are those of the disk. -/
structure Mirrors (w : World) : Prop where
  untouched : w.touched = false
  live : ∀ q ∈ w.queue, ∃ d, w.table q.1 = some d ∧ w.heap.LiveDir d
  found : ∀ i d x, w.watched i = true → w.table i = some d → w.pending i x = [] →
    (basicVfsSearchDir w.heap.tree (some d) x).isSome = (w.entry i x).isSome
  shown : ∀ i d x n e, w.watched i = true → w.table i = some d → w.pending i x = [] →
    basicVfsSearchDir w.heap.tree (some d) x = some n → w.entry i x = some e → Known e.stat (w.heap.tree.shown n)
  below : ∀ i d x n d' j, w.table i = some d → w.heap.LiveDir d → basicVfsSearchDir w.heap.tree (some d) x = some n →
    w.heap.tree.Loaded n d' → w.table j = some d' → w.watched j = true →
    w.watched i = true ∧ ∃ e, w.entry i x = some e ∧ e.stat.isDir = true ∧ e.ino = j

theorem Inv.mirrors {w : World} {r : Ino} (hw : Inv r w) : Mirrors w := by
  have hcell : ∀ i d x, w.watched i = true → w.table i = some d → Cell w i d x := by
    intro i d x hwatched hi
    obtain ⟨d', hd', hlive⟩ := hw.live i (.inl hwatched)
    obtain rfl : d' = d := Option.some.inj (hd'.symm.trans hi)
    exact hw.cell i d' x hi hlive
  refine ⟨hw.untouched, fun q hq => hw.live q.1 (.inr ⟨q, hq, rfl⟩), ?_, ?_, ?_⟩
  · intro i d x hwatched hi hnone
    have hchain := (hcell i d x hwatched hi).chain
    rw [hnone, hwatched, Bool.true_and] at hchain
    exact Option.some.inj hchain
  · exact fun i d x n e hwatched hi hnone => (hcell i d x hwatched hi).known hwatched hnone n e
  · intro i d x n d' j hi hd hs hl hj hwatched
    obtain ⟨hi', -, hentry⟩ := hw.watched_entry hi hd hs hl hj hwatched
    exact ⟨hi', hentry⟩

def siteDir : Stat := ⟨0x41ed, 0, 0, 0⟩

def siteFile : Stat := ⟨0x81a4, 0, 0, 10⟩

/-- The root directory 1 holds the empty directory `b`, which is 2. -/
def siteDisk : Ino → List (Bytes × DiskEntry) := fun i => if i = 1 then [(bytes "b", { stat := siteDir, ino := 2 })] else []

def siteOs : Os where
  readDir path := if path = bytes "/" then some [⟨bytes "b", .dir, by decide⟩] else some []
  statx path := if path = bytes "//b" then some siteDir else none
  openat _ := none

/-- The kernel when `b` holds `a`; nothing is listed any more. -/
def siteLater : Os where
  readDir _ := none
  statx path := if path = bytes "/b//a" then some siteFile else siteOs.statx path
  openat _ := none

def siteStart : World := World.start siteOs siteDisk 1

def siteRead : World := siteStart.getDir siteOs 1 2

def siteChanged : World := (siteRead.change 2 (bytes "a") (some { stat := siteFile }) (some .create)).getD siteRead

def siteTold : World := (siteChanged.deliver siteLater).getD siteChanged

theorem siteDisk_entry {i : Ino} {x : Bytes} {e : DiskEntry} (h : (siteDisk i).lookup x = some e) :
    i = 1 ∧ x = bytes "b" ∧ e = { stat := siteDir, ino := 2 } := by
  unfold siteDisk at h
  split at h
  · rename_i hi
    rw [List.lookup_cons] at h
    split at h
    · rename_i hx
      exact ⟨hi, beq_iff_eq.mp hx, (Option.some.inj h).symm⟩
    · exact absurd h (by simp)
  · exact absurd h (by simp)

theorem siteOs_other {path : Bytes} (h : path ≠ bytes "//b") : siteOs.statx path = none := by
  unfold siteOs
  dsimp only
  rw [if_neg h]

theorem siteLater_other {path : Bytes} (h : path ≠ bytes "/b//a") : siteLater.statx path = siteOs.statx path := by
  unfold siteLater
  dsimp only
  rw [if_neg h]

theorem siteOs_root (x : Bytes) : siteOs.statx (bytes "//" ++ x) = ((siteDisk 1).lookup x).map (·.stat) := by
  by_cases hx : x = bytes "b"
  · rw [hx]
    rfl
  · have hother : bytes "//" ++ x ≠ bytes "//b" := fun h =>
      hx (List.append_cancel_left (show bytes "//" ++ x = bytes "//" ++ bytes "b" from h))
    cases hl : (siteDisk 1).lookup x with
    | none => exact siteOs_other hother
    | some e => exact absurd (siteDisk_entry hl).2.1 hx

theorem siteOs_below (x : Bytes) : siteOs.statx (bytes "/b//" ++ x) = none :=
  siteOs_other fun h => absurd (List.cons.inj (List.cons.inj h).2).1 (by decide)

theorem site_starts : Starts siteOs siteDisk 1 := by
  refine ⟨⟨_, rfl⟩, ⟨fun x _ => siteOs_root x, ?_⟩, ?_, ?_⟩
  · intro dents hdents
    obtain rfl := Option.some.inj hdents
    refine ⟨fun x st hst => ?_, fun e he _ _ _ => ?_⟩
    · obtain ⟨e, he, -⟩ := Option.map_eq_some_iff.mp hst
      obtain ⟨-, rfl, -⟩ := siteDisk_entry (i := 1) he
      exact ⟨_, List.mem_cons_self, rfl, by decide, by decide, by decide⟩
    · obtain rfl := List.mem_singleton.mp he
      exact ⟨siteDir, rfl, fun _ => by decide, fun h => absurd h (by decide)⟩
  · intro i x e i' x' e' he _ he' _ _
    obtain ⟨rfl, rfl, -⟩ := siteDisk_entry he
    obtain ⟨rfl, rfl, -⟩ := siteDisk_entry he'
    exact ⟨rfl, rfl⟩
  · intro i x e he _
    obtain ⟨-, -, rfl⟩ := siteDisk_entry he
    decide

theorem siteRead_told : Told siteStart (.getDir siteOs 1 2) := by
  refine ⟨⟨by decide, rfl⟩, fun _ _ => ⟨0, 1, { stat := siteDir, ino := 2 }, rfl, rfl, rfl, rfl, rfl, rfl, rfl, ?_, ?_⟩⟩
  · exact fun x _ => siteOs_below x
  · intro dents hdents
    obtain rfl : [] = dents := Option.some.inj hdents
    exact ⟨fun x st hst => absurd hst (by simp [siteStart, World.start, World.entry, siteDisk]), fun e he => absurd he (by simp)⟩

theorem siteChanged_told : Told siteRead (.change 2 (bytes "a") (some { stat := siteFile }) (some .create)) := by
  refine ⟨fun _ => ⟨by simp, by simp⟩, by simp, fun e he hdir => ?_⟩
  obtain rfl := Option.some.inj he
  exact absurd hdir (by decide)

theorem siteTold_told : Told siteChanged (.deliver siteLater) := by
  intro i d _ hd
  have htable : siteChanged.table = Function.update siteStart.table 2 (some 1) := rfl
  rw [htable] at hd
  have hlist : ∀ dents, siteLater.readDir (siteChanged.heap.tree.dirs d).path = some dents →
      Lists dents fun x => (siteChanged.entry i x).map (·.stat) := fun dents hdents => absurd hdents (by simp [siteLater])
  by_cases hi : i = 2
  · subst hi
    rw [Function.update_self] at hd
    obtain rfl : 1 = d := Option.some.inj hd
    refine ⟨fun x _ => ?_, hlist⟩
    have hentry : siteChanged.entry 2 x = if x = bytes "a" then some { stat := siteFile } else none :=
      lookup_putEntry [] (bytes "a") x _
    rw [hentry]
    by_cases hx : x = bytes "a"
    · rw [hx]
      rfl
    · have hother : bytes "/b//" ++ x ≠ bytes "/b//a" := fun h =>
        hx (List.append_cancel_left (show bytes "/b//" ++ x = bytes "/b//" ++ bytes "a" from h))
      rw [if_neg hx]
      exact (siteLater_other hother).trans (siteOs_below x)
  · rw [Function.update_of_ne hi] at hd
    have hroot : i = 1 ∧ 0 = d := by
      replace hd : (if i = 1 then some 0 else none) = some d := hd
      split at hd
      · rename_i h
        exact ⟨h, Option.some.inj hd⟩
      · exact absurd hd (by simp)
    obtain ⟨rfl, rfl⟩ := hroot
    refine ⟨fun x _ => ?_, hlist⟩
    have hother : bytes "//" ++ x ≠ bytes "/b//a" := fun h => absurd (List.cons.inj (List.cons.inj h).2).1 (by decide)
    exact (siteLater_other hother).trans (siteOs_root x)

/-- The root directory holds the file `a`. -/
def plainDisk : Ino → List (Bytes × DiskEntry) := fun i => if i = 1 then [(bytes "a", { stat := siteFile })] else []

theorem plainName_valid : ValidName (bytes "a") := by decide

def plainOs (st : Stat) : Os where
  readDir _ := some [⟨bytes "a", .reg, plainName_valid⟩]
  statx _ := some st
  openat _ := none

/-- A file that another one is moved to: once nothing waits any more, the tree still has the size of the one that was there. -/
theorem replaced_stale : ∃ w, execWith World.step (fun _ _ => true) (World.start (plainOs siteFile) plainDisk 1)
      [.change 1 (bytes "a") (some { stat := { siteFile with size := 20 } }) (some .movedTo),
        .deliver (plainOs { siteFile with size := 20 })] = some w ∧ w.queue = [] ∧
      w.entry 1 (bytes "a") = some { stat := { siteFile with size := 20 } } ∧
      w.heap.tree.shown 1 = (.file, some 0, some siteFile.stated) :=
  ⟨_, rfl, rfl, rfl, rfl⟩

/-- A directory that is made again under its old name and looked into before the first event is read: the event frees what was
    just read, and the next event is for it. -/
theorem loaded_early : ∃ w, execWith World.step (fun _ _ => true) siteStart
      [.change 1 (bytes "b") none (some .delete), .change 1 (bytes "b") (some { stat := siteDir, ino := 3 }) (some .create),
        .getDir siteOs 1 3, .change 3 (bytes "a") (some { stat := siteFile }) (some .create), .deliver siteOs, .deliver siteOs,
        .deliver siteOs] = some w ∧ w.touched = true :=
  ⟨_, rfl, rfl⟩

end Vfs
end Hin9
