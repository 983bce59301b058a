import Hin9.Vfs.Lookup

/-!
# `Vfs.World` — the disk, the watches and the tree (`inotify.c`, `dir.c`, `stat.c`)

A directory is read once, and from then on the kernel tells what changes in it. The tree is always behind: a change is on the
disk at once, its event waits in a queue, and requests read and load directories in between. `World` is the disk, the kernel's
watches and queue, and the tree; a directory of the disk goes by a number that is given out once, and so does its watch.

`Told` says what has to be so at a step. Nothing is reported of a file that only gets a new time, and a name that another file is
moved to keeps the inode it had; the watch of a directory that is moved away outlives its inode, and so does the one of a
directory that is loaded while its own name is still to be removed.

Opening a directory, watching it and reading it are one step here.
-/

namespace Hin9
namespace Vfs

open Lib

/-! ## The disk -/

/-- The number of a directory on the disk, and of its watch. -/
abbrev Ino := Nat

/-- An entry of a directory on the disk: what `statx` says of it and, if it is a directory, its number. -/
structure DiskEntry where
  stat : Stat
  ino : Ino := 0
deriving Repr, DecidableEq

/-- The disk, the watches, the events that wait to be read, and the tree; `table` is `vfs->ht`. -/
structure World where
  heap : Heap
  disk : Ino → List (Bytes × DiskEntry)
  watched : Ino → Bool
  table : Ino → Option DirId
  queue : List (Ino × Mask × Bytes) := []
  touched : Bool := false

/-- A directory with one entry made, changed or taken out. -/
def putEntry (es : List (Bytes × DiskEntry)) (x : Bytes) (entry : Option DiskEntry) : List (Bytes × DiskEntry) :=
  (entry.map fun e => (x, e)).toList ++ es.filter fun p => p.1 ≠ x

/-- The events for the name `x` of the directory `i`. -/
def waiting (queue : List (Ino × Mask × Bytes)) (i : Ino) (x : Bytes) : List Mask :=
  (queue.filter fun q => q.1 = i ∧ q.2.2 = x).map (·.2.1)

namespace World

variable (w : World)

/-- What is at the name `x` of the directory `i`. -/
def entry (i : Ino) (x : Bytes) : Option DiskEntry := (w.disk i).lookup x

/-- The events that wait for the name `x` of the directory `i`. -/
def pending (i : Ino) (x : Bytes) : List Mask := waiting w.queue i x

end World

/-! ## Steps -/

/-- Whether a change from `old` to `new` can be reported with the mask. Times and rights change without one. -/
def reports (old new : Option DiskEntry) : Option Mask → Bool
  | some .create => old.isNone && new.isSome
  | some .movedTo => new.isSome
  | some .modify => old.any (fun e => !e.stat.isDir) && new.any (fun e => !e.stat.isDir)
  | some .delete | some .movedFrom => old.isSome && new.isNone
  | none => old.any fun e => new.any fun e' => e.stat.isDir == e'.stat.isDir && e.ino == e'.ino

/-- The directory that the kernel forgets with the name `x`, and its watch with it. -/
def removedDir (old : Option DiskEntry) (mask : Option Mask) : Option Ino :=
  if mask = some .delete then (old.filter fun e => e.stat.isDir).map (·.ino) else none

inductive FsEvent where
  | change (i : Ino) (x : Bytes) (entry : Option DiskEntry) (mask : Option Mask)
  | deliver (os : Os)
  | getDir (os : Os) (n : NodeId) (i : Ino)
  | getFile (os : Os) (n : NodeId)
  | ref (os : Os) (n : NodeId)
  | unref (n : NodeId)

namespace World

variable (w : World)

/-- The disk changes, and the watch of the directory says so. Only an empty directory is removed. -/
def change (i : Ino) (x : Bytes) (entry : Option DiskEntry) (mask : Option Mask) : Option World :=
  let gone := removedDir (w.entry i x) mask
  if ValidName x ∧ reports (w.entry i x) entry mask ∧ ∀ j ∈ gone, w.disk j = [] then
    some { w with
      disk := Function.update w.disk i (putEntry (w.disk i) x entry)
      watched := fun j => w.watched j && gone != some j
      queue := w.queue ++ if w.watched i then (mask.map fun m => (i, m, x)).toList else [] }
  else none

/-- `basic_vfs_event` takes the first event. -/
def deliver (os : Os) : Option World :=
  match w.queue with
  | [] => none
  | (i, m, x) :: rest =>
      match w.table i with
      | none => some { w with queue := rest, touched := true }
      | some d =>
          some { w with
            heap := basicVfsEventSingle os w.heap d m x
            queue := rest
            touched := w.touched || w.heap.freed.dir d }

/-- The heap after a call for the node `n`. -/
def called (n : NodeId) (v : Tree) : World :=
  { w with heap := w.heap.setTree v, touched := w.touched || w.heap.freed.node n }

/-- A directory is looked into. If it is read, `basic_vfs_add_inotify` watches it; `i` is what its path leads to. -/
def getDir (os : Os) (n : NodeId) (i : Ino) : World :=
  let v := (basicVfsGetDir os w.heap.tree n).1
  let d := w.heap.tree.dirCount
  if d < v.dirCount ∧ (os.readDir (v.dirs d).path).isSome then
    { w.called n v with
      watched := Function.update w.watched i true
      table := Function.update w.table i (some d) }
  else w.called n v

/-- One step; `none` where nothing waits, where the kernel cannot do it, or where `NULL` is dereferenced. -/
def step : FsEvent → Option World
  | .change i x entry mask => w.change i x entry mask
  | .deliver os => w.deliver os
  | .getDir os n i => some (w.getDir os n i)
  | .getFile os n => some (w.called n (basicVfsGetFile os w.heap.tree n).1)
  | .ref os n => (basicVfsRef os w.heap.tree n).map (w.called n)
  | .unref n => (basicVfsUnref w.heap.tree n).map (w.called n)

end World

/-! ## When -/

/-- The path leads to the directory `i` of the disk. -/
structure Leads (os : Os) (w : World) (i : Ino) (path : Bytes) : Prop where
  statx : ∀ x, ValidName x → os.statx (path ++ 47 :: x) = (w.entry i x).map (·.stat)
  list : ∀ dents, os.readDir path = some dents → Lists dents fun x => (w.entry i x).map (·.stat)

/-- What is watched is found where it was read. -/
def Sees (os : Os) (w : World) : Prop :=
  ∀ i d, w.watched i = true → w.table i = some d → Leads os w i (w.heap.tree.dirs d).path

/-- The number of a directory that is new to the tree. -/
def New (w : World) (j : Ino) : Prop :=
  w.table j = none ∧ ∀ k y e, w.entry k y = some e → e.stat.isDir = true → e.ino ≠ j

/-- The node was found under its name. -/
def Found (w : World) (n : NodeId) : Prop :=
  ∃ d, w.heap.LiveDir d ∧ basicVfsSearchDir w.heap.tree (some d) (w.heap.tree.nodes n).name = some n

/-- The node of a directory is looked into while its name is on the disk and nothing waits for it. -/
def Settled (os : Os) (w : World) (n : NodeId) (i : Ino) : Prop :=
  ∃ p k e, (w.heap.tree.nodes n).parent = some p ∧ w.table k = some p ∧ w.watched k = true ∧
    basicVfsSearchDir w.heap.tree (some p) (w.heap.tree.nodes n).name = some n ∧
    w.pending k (w.heap.tree.nodes n).name = [] ∧ w.entry k (w.heap.tree.nodes n).name = some e ∧ e.ino = i ∧
    Leads os w i ((w.heap.tree.dirs p).path ++ (w.heap.tree.nodes n).name ++ [47])

/-- What has to be so at a step: what changes in a directory that is watched is told, and as it is; no directory that is watched
    moves away; the kernel answers for the disk; and no directory is loaded while something waits for its name. -/
def Told (w : World) : FsEvent → Prop
  | .change i x entry mask =>
      (w.watched i = true → mask ≠ none ∧ (mask = some .movedTo → w.entry i x = none)) ∧
        (mask = some .movedFrom → ∀ e, w.entry i x = some e → e.stat.isDir = true → w.watched e.ino = false) ∧
        ∀ e, entry = some e → e.stat.isDir = true →
          (∀ o, w.entry i x = some o → o.stat.isDir = true → o.ino ≠ e.ino) → New w e.ino
  | .deliver os => Sees os w
  | .getDir os n i => w.heap.LiveNode n ∧
      ((w.heap.tree.nodes n).type = .dir → (w.heap.tree.nodes n).inode = none → Settled os w n i)
  | .getFile os n => w.heap.LiveNode n ∧ Sees os w ∧ ((w.heap.tree.nodes n).type = .file → Found w n)
  | .ref _ n | .unref n => w.heap.LiveNode n

/-! ## Events that wait -/

/-- What an event does to whether the name is there; `none` where it cannot have happened. -/
def Mask.next : Mask → Bool → Option Bool
  | .create, false | .movedTo, false => some true
  | .modify, true => some true
  | .delete, true | .movedFrom, true => some false
  | _, _ => none

/-- The events in order. -/
def follows (there : Bool) (masks : List Mask) : Option Bool := masks.foldlM (fun b m => m.next b) there

theorem follows_snoc (there : Bool) (masks : List Mask) (m : Mask) :
    follows there (masks ++ [m]) = (follows there masks).bind m.next := by
  unfold follows
  rw [List.foldlM_append]
  cases masks.foldlM (fun b m => m.next b) there with
  | none => rfl
  | some b =>
      show ([m].foldlM (fun b m => m.next b) b : Option Bool) = m.next b
      rw [List.foldlM_cons]
      cases m.next b with
      | none => rfl
      | some b' => rfl

theorem follows_cons (there : Bool) (m : Mask) (masks : List Mask) :
    follows there (m :: masks) = (m.next there).bind fun b => follows b masks := by
  unfold follows
  rw [List.foldlM_cons]
  rfl

section

variable {q : List (Ino × Mask × Bytes)} {i j k : Ino} {m : Mask} {x y : Bytes}

theorem waiting_append (q q' : List (Ino × Mask × Bytes)) (i : Ino) (x : Bytes) :
    waiting (q ++ q') i x = waiting q i x ++ waiting q' i x := by
  unfold waiting
  rw [List.filter_append, List.map_append]

theorem waiting_self (q : List (Ino × Mask × Bytes)) (i : Ino) (m : Mask) (x : Bytes) :
    waiting ((i, m, x) :: q) i x = m :: waiting q i x := by
  unfold waiting
  rw [List.filter_cons_of_pos (by simp)]
  rfl

theorem waiting_other (q : List (Ino × Mask × Bytes)) (m : Mask) (hne : k ≠ i ∨ y ≠ x) :
    waiting ((i, m, x) :: q) k y = waiting q k y := by
  unfold waiting
  rw [List.filter_cons_of_neg]
  rw [decide_eq_true_eq]
  rintro ⟨rfl, rfl⟩
  exact hne.elim (fun h => h rfl) fun h => h rfl

/-- What waits for some name of a directory is among the events. -/
theorem mem_of_waiting (hm : m ∈ waiting q i x) : (i, m, x) ∈ q := by
  obtain ⟨⟨k, m', y⟩, hmem, rfl⟩ := List.mem_map.mp hm
  obtain ⟨hq, heq⟩ := List.mem_filter.mp hmem
  rw [decide_eq_true_eq] at heq
  obtain ⟨rfl, rfl⟩ := heq
  exact hq

theorem waiting_none (h : ∀ e ∈ q, e.1 ≠ i) : waiting q i x = [] := by
  by_contra hsome
  obtain ⟨m, ms, hms⟩ := List.exists_cons_of_ne_nil hsome
  have hm : m ∈ waiting q i x := hms ▸ List.mem_cons_self
  exact h _ (mem_of_waiting hm) rfl

theorem waiting_of_mem (hm : (i, m, x) ∈ q) : waiting q i x ≠ [] := by
  intro hnil
  have hin : m ∈ waiting q i x := List.mem_map.mpr ⟨(i, m, x), List.mem_filter.mpr ⟨hm, by simp⟩, rfl⟩
  rw [hnil] at hin
  exact absurd hin List.not_mem_nil

end

theorem lookup_putEntry (es : List (Bytes × DiskEntry)) (x y : Bytes) (entry : Option DiskEntry) :
    (putEntry es x entry).lookup y = if y = x then entry else es.lookup y := by
  have hrest : ∀ es : List (Bytes × DiskEntry), (es.filter fun p => p.1 ≠ x).lookup y = if y = x then none else es.lookup y := by
    intro es
    induction es with
    | nil => exact (ite_self _).symm
    | cons p es ih =>
        by_cases hp : p.1 = x
        · rw [List.filter_cons_of_neg (by simp [hp]), ih]
          by_cases hy : y = x
          · rw [if_pos hy, if_pos hy]
          · rw [if_neg hy, if_neg hy, List.lookup_cons, show (y == p.1) = false from beq_false_of_ne (hp ▸ hy)]
        · rw [List.filter_cons_of_pos (by simp [hp]), List.lookup_cons, ih, List.lookup_cons]
          by_cases hy : y = x
          · rw [if_pos hy, if_pos hy, show (y == p.1) = false from beq_false_of_ne (fun h => hp (h.symm.trans hy))]
          · rw [if_neg hy, if_neg hy]
  unfold putEntry
  cases entry with
  | none => exact hrest es
  | some e =>
      show ((x, e) :: es.filter fun p => p.1 ≠ x).lookup y = _
      rw [List.lookup_cons, hrest]
      by_cases hy : y = x
      · rw [show (y == x) = true from beq_iff_eq.mpr hy]
        exact (if_pos hy).symm
      · rw [if_neg hy, if_neg hy, show (y == x) = false from beq_false_of_ne hy]

end Vfs
end Hin9
