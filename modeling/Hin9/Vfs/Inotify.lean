import Hin9.Vfs.Path
import Hin9.Vfs.TreeInvariant
import Hin9.Lib.Runs

/-!
# `Vfs.Inotify` — files that requests hold, and what the file system reports about them (`inotify.c`, `dir.c`)

`http->file` is the node a request holds: path resolution takes a reference on it and the end of the request gives it up.
The kernel reports what happens in a directory that was read, and `basic_vfs_event_single` follows: a new entry is added,
a changed one loses its inode, one that is gone is freed with everything below it. None of this asks for the references.

`free` is recorded and not carried out: addresses are never given out twice here, so that what still points to something
freed can be told.
-/

namespace Hin9
namespace Vfs

open Lib

/-- What was freed. -/
structure Freed where
  node : NodeId → Bool := fun _ => false
  dir : DirId → Bool := fun _ => false
  file : FileId → Bool := fun _ => false

/-- The tree, and what of it was freed. -/
structure Heap where
  tree : Tree
  freed : Freed := {}

namespace Heap

variable (h : Heap)

def setTree (v : Tree) : Heap := { h with tree := v }

def freeNode (n : NodeId) : Heap := { h with freed := { h.freed with node := Function.update h.freed.node n true } }

def freeDir (d : DirId) : Heap := { h with freed := { h.freed with dir := Function.update h.freed.dir d true } }

def freeFile (f : FileId) : Heap := { h with freed := { h.freed with file := Function.update h.freed.file f true } }

end Heap

/-! ## Freeing -/

/-- `basic_vfs_node_free`; the depth of the tree is less than the number of its nodes. -/
def basicVfsNodeFree : Nat → Heap → NodeId → Heap
  | 0, h, _ => h
  | fuel + 1, h, n =>
      let h' :=
        match (h.tree.nodes n).type, (h.tree.nodes n).inode with
        | .none, some f => (h.setTree ((basicVfsUnref h.tree n).getD h.tree)).freeFile f
        | .file, some f => (h.setTree ((basicVfsUnref h.tree n).getD h.tree)).freeFile f
        | .dir, some d => (((h.tree.dirs d).entries.filterMap id).foldl (basicVfsNodeFree fuel) h).freeDir d
        | _, _ => h
      h'.freeNode n

/-- Whether the entry has the name. -/
def entryNamed (v : Tree) (name : Bytes) : Option NodeId → Bool
  | none => false
  | some n => decide ((v.nodes n).name = name)

/-- `dir->entries[i] = NULL`. -/
def Tree.clearEntry (v : Tree) (d : DirId) (i : Nat) : Tree :=
  v.setDir d { v.dirs d with entries := (v.dirs d).entries.set i none }

/-- `basic_vfs_delete`. -/
def basicVfsDelete (h : Heap) (d : DirId) (name : Bytes) : Heap :=
  let D := h.tree.dirs d
  match (D.entries.take D.num).findIdx? (entryNamed h.tree name) with
  | none => h
  | some i =>
      match D.entries[i]? with
      | some (some n) =>
          let h := basicVfsNodeFree (h.tree.nodeCount + 1) h n
          h.setTree (h.tree.clearEntry d i)
      | _ => h

/-! ## Events -/

/-- What an event reports. -/
inductive Mask where
  | create
  | modify
  | movedTo
  | delete
  | movedFrom
deriving Repr, DecidableEq

/-- `free (node->inode); node->inode = NULL`. -/
def freeInode (h : Heap) (n : NodeId) : Heap :=
  let N := h.tree.nodes n
  let h :=
    match N.inode with
    | none => h
    | some i => if N.type = EntType.dir then h.freeDir i else h.freeFile i
  h.setTree (h.tree.setNode n { N with inode := none })

/-- `basic_vfs_event_single`, for an entry of the watched directory `d`. -/
def basicVfsEventSingle (os : Os) (h : Heap) (d : DirId) (mask : Mask) (name : Bytes) : Heap :=
  let path := (h.tree.dirs d).path ++ 47 :: name
  match mask with
  | .create | .movedTo =>
      let (v, n) := basicVfsAdd h.tree d .none name
      h.setTree (basicVfsStat os v n path).1
  | .modify =>
      let (v, n) := basicVfsAdd h.tree d .none name
      let h := freeInode (h.setTree v) n
      h.setTree (basicVfsStat os h.tree n path).1
  | .delete | .movedFrom => basicVfsDelete h d name

/-! ## Requests -/

/-- The heap, and `http->file` of every client that has one. -/
structure Shared where
  heap : Heap
  held : List (Nat × NodeId) := []

namespace Shared

variable (s : Shared)

/-- `http->file` of the client `r`. -/
def fileOf (r : Nat) : Option NodeId := (s.held.find? fun h => h.1 = r).map (·.2)

/-- The other clients. -/
def others (r : Nat) : List (Nat × NodeId) := s.held.filter fun h => h.1 ≠ r

/-- The heap after a call for the client `r`, and what the call left in `http->file`. -/
def update (r : Nat) (v : Tree) (file : Option NodeId) : Shared where
  heap := s.heap.setTree v
  held := (file.map fun n => (r, n)).toList ++ s.others r

end Shared

/-- What happens to the tree: a request resolves a path, from C or from Lua, ends, or goes away; the kernel reports. -/
inductive VfsEvent where
  | sendRawPath (r : Nat) (os : Os) (cwd : NodeId) (path : Bytes)
  | setPath (r : Nat) (os : Os) (cwd : NodeId) (noRedirect : Bool) (path : Bytes) (names : List Bytes)
  | finishRequest (r : Nat)
  | clean (r : Nat)
  | inotify (os : Os) (d : DirId) (mask : Mask) (name : Bytes)

/-- One event; `none` where `NULL` is dereferenced. -/
def vfsStep (s : Shared) : VfsEvent → Option Shared
  | .sendRawPath r os cwd path =>
      (hinSendRawPath os s.heap.tree cwd path (s.fileOf r)).map fun res => s.update r res.tree res.file
  | .setPath r os cwd noRedirect path names =>
      (lHinSetPath os s.heap.tree cwd noRedirect path names (s.fileOf r)).map fun res => s.update r res.tree res.file
  | .finishRequest r => (dropFile s.heap.tree (s.fileOf r)).map fun v => s.update r v none
  | .clean r => some { s with held := s.others r }
  | .inotify os d mask name => some { s with heap := basicVfsEventSingle os s.heap d mask name }

/-! ## What is promised -/

/-- The inode of a file. -/
def Tree.fileInode (v : Tree) (n : NodeId) : Option FileId :=
  if (v.nodes n).type = .file then (v.nodes n).inode else none

/-- The client `r` holds the file node `n`. -/
def Shared.Holds (s : Shared) (r : Nat) (n : NodeId) : Prop := (r, n) ∈ s.held ∧ (s.heap.tree.nodes n).type = .file

def Shared.holders (s : Shared) (n : NodeId) : Nat := s.held.countP fun h => h.2 = n

/-- **What a request may rely on.** The file it holds is there, its inode counts the requests that hold it, and only an
    inode that is held has a descriptor, which it shares with no other. -/
structure Shared.Sound (s : Shared) : Prop where
  held : ∀ r n, s.Holds r n → s.heap.freed.node n = false ∧ ∃ f, s.heap.tree.fileInode n = some f ∧
    s.heap.freed.file f = false ∧ (s.heap.tree.files f).refcount = s.holders n
  closed : ∀ f, f < s.heap.tree.fileCount → s.heap.freed.file f = false → (s.heap.tree.files f).fd ≠ none →
    ∃ r n, s.Holds r n ∧ s.heap.tree.fileInode n = some f
  own : ∀ f g d, f < s.heap.tree.fileCount → g < s.heap.tree.fileCount →
    s.heap.freed.file f = false → s.heap.freed.file g = false →
    (s.heap.tree.files f).fd = some d → (s.heap.tree.files g).fd = some d → f = g

/-- **The descriptor of a file that is held before and after stays the same.** -/
def Shared.Steady (s s' : Shared) : Prop :=
  ∀ r r' n f d, s.Holds r n → s'.Holds r' n → s.heap.tree.fileInode n = some f → (s.heap.tree.files f).fd = some d →
    s'.heap.tree.fileInode n = some f ∧ (s'.heap.tree.files f).fd = some d

/-! ## When -/

/-- `m` is `n`, or an entry somewhere below the directory `n`. -/
inductive Tree.Below (v : Tree) (n : NodeId) : NodeId → Prop where
  | refl : Tree.Below v n n
  | entry {p m : NodeId} {d : DirId} : Tree.Below v n p → v.Loaded p d → some m ∈ (v.dirs d).entries → Tree.Below v n m

/-- The path leads to a directory that has none of the index files. -/
def LeadsToDir (os : Os) (v : Tree) (cwd : NodeId) (path : Bytes) (names : List Bytes) : Prop :=
  ∃ res n rest v', getPathNode os v cwd path = some res ∧ res.found = some (n, rest) ∧
    (res.tree.nodes n).type = .dir ∧ searchIndex os res.tree n names = some (v', none)

/-- The kernel gives out only descriptors that are not in use. -/
def FreeIn (os : Os) (v : Tree) : Prop :=
  ∀ p d, os.openat p = some d → ∀ f, f < v.fileCount → (v.files f).fd ≠ some d

/-- The directory of the virtual host is there, and a client that holds a file does not go on to a directory. -/
def Resolves (s : Shared) (r : Nat) (os : Os) (cwd : NodeId) (path : Bytes) (names : List Bytes) : Prop :=
  FreeIn os s.heap.tree ∧ cwd < s.heap.tree.nodeCount ∧ s.heap.freed.node cwd = false ∧
    (s.heap.tree.nodes cwd).type = .dir ∧ ((∃ n, s.Holds r n) → ¬ LeadsToDir os s.heap.tree cwd path names)

/-- What has to be so at a step: nothing changes, goes or moves away that a request holds. -/
def Undisturbed (s : Shared) : VfsEvent → Prop
  | .sendRawPath r os cwd path => Resolves s r os cwd path [bytes "index.html"]
  | .setPath r os cwd _ path names => Resolves s r os cwd path names
  | .finishRequest _ => True
  | .clean r => ∀ n, ¬ s.Holds r n
  | .inotify _ d mask name =>
      d < s.heap.tree.dirCount ∧ s.heap.freed.dir d = false ∧
        match mask with
        | .create | .movedTo => True
        | .modify => ∀ n, basicVfsSearchDir s.heap.tree (some d) name = some n → ∀ h ∈ s.held, h.2 ≠ n
        | .delete | .movedFrom =>
            ∀ n, basicVfsSearchDir s.heap.tree (some d) name = some n → ∀ r m, s.Holds r m → ¬ s.heap.tree.Below n m

end Vfs
end Hin9
