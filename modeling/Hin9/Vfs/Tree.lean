import Hin9.Basic.Pattern

/-!
# `Vfs.Tree` — the directory tree of the virtual file system

The structures of `basic_vfs.h` on an explicit heap: nodes, directory inodes and file inodes are named by
natural numbers, `nodeCount`/`dirCount`/`fileCount` are the next free addresses. `node->inode` is one `void *`
in the source; here too it is one number, read as a directory or as a file by `node->type`.

Directories are loaded lazily (`basicVfsGetDir`), so looking something up changes the heap. What the kernel
answers is the parameter `Os`. The inotify watch table (`vfs->ht`) is filled by `basic_vfs_stat_dir` but read
by the event handler only, and is left out together with the debug output.
-/

namespace Hin9
namespace Vfs

/-! ## Data -/

/-- `node->type`; `none` is the `0` of an entry that is not known yet (a symbolic link). -/
inductive EntType where
  | none
  | dir
  | file
  | unknown
deriving Repr, DecidableEq

abbrev NodeId := Nat
abbrev DirId := Nat
abbrev FileId := Nat

/-- A name a directory entry can have: not empty, without `/` and without NUL. -/
def ValidName (name : Bytes) : Prop := name ≠ [] ∧ ∀ c ∈ name, c ≠ 47 ∧ c ≠ 0

instance (name : Bytes) : Decidable (ValidName name) :=
  @instDecidableAnd _ _ _ (List.decidableBAll _ _)

/-- `basic_vfs_node_t`. -/
structure Node where
  type : EntType := .none
  refcount : Int := 0
  forbidden : Bool := false
  parent : Option DirId := none
  inode : Option Nat := none
  name : Bytes := []
deriving Repr, DecidableEq

/-- `basic_vfs_dir_t`; `entries` has `max` slots. -/
structure Dir where
  num : Nat := 0
  used : Nat := 0
  max : Nat := 0
  entries : List (Option NodeId) := []
  parent : Option DirId := none
  path : Bytes := []
deriving Repr, DecidableEq

/-- `basic_vfs_file_t`; a negative `fd` is `none`. -/
structure File where
  refcount : Int := 0
  fd : Option Nat := none
  parent : NodeId := 0
  modified : Int := 0
  size : Nat := 0
  etag : UInt64 := 0
deriving Repr, DecidableEq

/-- `basic_vfs_t` and the heap its pointers lead into. -/
structure Tree where
  nodes : NodeId → Node := fun _ => {}
  nodeCount : Nat := 0
  dirs : DirId → Dir := fun _ => {}
  dirCount : Nat := 0
  files : FileId → File := fun _ => {}
  fileCount : Nat := 0
  root : NodeId := 0

/-- `dent->d_type`, as far as `basic_vfs_stat_dir` tells them apart. -/
inductive DType where
  | dir
  | reg
  | lnk
  | other
deriving Repr, DecidableEq

/-- What `readdir` returns: the kernel never reports a name that is empty or holds `/` or NUL. -/
structure Dirent where
  name : Bytes
  type : DType
  valid : ValidName name

/-- The fields of `struct statx` the tree reads. -/
structure Stat where
  mode : UInt16
  mtimeSec : Int
  mtimeNsec : Nat
  size : Nat
deriving Repr, DecidableEq

/-- The kernel: `opendir`/`readdir`, `statx` and `openat`, each with `none` for an error. -/
structure Os where
  readDir : Bytes → Option (List Dirent)
  statx : Bytes → Option Stat
  openat : Bytes → Option Nat

/-! ## Heap updates -/

def Tree.setNode (v : Tree) (n : NodeId) (N : Node) : Tree :=
  { v with nodes := Function.update v.nodes n N }

def Tree.setDir (v : Tree) (d : DirId) (D : Dir) : Tree :=
  { v with dirs := Function.update v.dirs d D }

def Tree.setFile (v : Tree) (f : FileId) (F : File) : Tree :=
  { v with files := Function.update v.files f F }

/-- `calloc` of a node, a directory inode, a file inode. -/
def Tree.newNode (v : Tree) (N : Node) : Tree × NodeId :=
  ({ v with nodes := Function.update v.nodes v.nodeCount N, nodeCount := v.nodeCount + 1 }, v.nodeCount)

def Tree.newDir (v : Tree) (D : Dir) : Tree × DirId :=
  ({ v with dirs := Function.update v.dirs v.dirCount D, dirCount := v.dirCount + 1 }, v.dirCount)

def Tree.newFile (v : Tree) (F : File) : Tree × FileId :=
  ({ v with files := Function.update v.files v.fileCount F, fileCount := v.fileCount + 1 }, v.fileCount)

/-! ## `dir.c` -/

/-- The loop of `basic_vfs_search_dir` over the slots `0 … num-1`. -/
def searchEntries (nodes : NodeId → Node) (name : Bytes) : List (Option NodeId) → Option NodeId
  | [] => none
  | none :: es => searchEntries nodes name es
  | some n :: es => if (nodes n).name = name then some n else searchEntries nodes name es

def basicVfsSearchDir (v : Tree) (dir : Option DirId) (name : Bytes) : Option NodeId :=
  match dir with
  | none => none
  | some d => searchEntries v.nodes name ((v.dirs d).entries.take (v.dirs d).num)

/-- The slot `basic_vfs_add` fills and the `num` it leaves. The branch for `used < num` looks for a hole from
    `num` on, with `num` itself reset to `0`, so its loop ends in the first round. -/
def addSlot (D : Dir) : Nat × Nat :=
  if D.used + 1 < D.num + 1 then
    if D.entries[D.num]? = some none then (D.num, 0) else (D.num + 1, 1)
  else (D.num, D.num + 1)

/-- The slots after `if (dir->num >= dir->max)`, with `num` already counted up. -/
def growEntries (D : Dir) (num : Nat) : Nat × List (Option NodeId) :=
  if num ≥ D.max then (D.max + 20, D.entries ++ List.replicate 20 none) else (D.max, D.entries)

def basicVfsAdd (v : Tree) (d : DirId) (type : EntType) (name : Bytes) : Tree × NodeId :=
  match basicVfsSearchDir v (some d) name with
  | some n => (v, n)
  | none =>
      let D := v.dirs d
      let slot := addSlot D
      let grown := growEntries D slot.2
      let (v, n) := v.newNode { type, parent := some d, name }
      (v.setDir d { D with num := slot.2, used := D.used + 1, max := grown.1,
                           entries := grown.2.set slot.1 (some n) }, n)

/-! ## `stat.c` -/

def S_IFDIR : UInt16 := 0x4000

def statEtag (st : Stat) : UInt64 :=
  UInt64.ofInt (st.mtimeSec * 0xffff) + UInt64.ofNat (st.mtimeNsec * 0xff) + UInt64.ofNat st.size

/-- `basic_vfs_stat`: the inode (`NULL` for a directory, which is loaded later). -/
def basicVfsStat (os : Os) (v : Tree) (n : NodeId) (path : Bytes) : Tree × Option Nat :=
  match (v.nodes n).inode with
  | some i => (v, some i)
  | none =>
      match os.statx path with
      | none => (v, none)
      | some st =>
          if st.mode &&& S_IFDIR ≠ 0 then (v.setNode n { v.nodes n with type := .dir }, none)
          else
            let (v, f) := v.newFile { parent := n, modified := st.mtimeSec, size := st.size, etag := statEtag st }
            (v.setNode n { v.nodes n with type := .file, inode := some f }, some f)

/-- `basic_vfs_get_file`; the path is `"%s/%s"` of the directory's path and the name. -/
def basicVfsGetFile (os : Os) (v : Tree) (n : NodeId) : Tree × Option FileId :=
  if (v.nodes n).type ≠ .file then (v, none)
  else
    match (v.nodes n).inode with
    | some f => (v, some f)
    | none =>
        match (v.nodes n).parent with
        | none => (v, none)
        | some d => basicVfsStat os v n ((v.dirs d).path ++ 47 :: (v.nodes n).name)

/-- One round of the `readdir` loop of `basic_vfs_stat_dir`. -/
def addDirent (os : Os) (d : DirId) (v : Tree) (e : Dirent) : Tree :=
  if e.name = bytes "." ∨ e.name = bytes ".." then v
  else
    match e.type with
    | .dir => (basicVfsAdd v d .dir e.name).1
    | .reg => let (v, n) := basicVfsAdd v d .file e.name; (basicVfsGetFile os v n).1
    | .lnk => let (v, n) := basicVfsAdd v d .none e.name; (basicVfsGetFile os v n).1
    | .other => v

/-- `basic_vfs_stat_dir`; `false` for the `-1` of a directory that cannot be opened. -/
def basicVfsStatDir (os : Os) (v : Tree) (d : DirId) (path : Bytes) : Tree × Bool :=
  let v := v.setDir d { v.dirs d with path }
  match os.readDir path with
  | none => (v, false)
  | some dents => (dents.foldl (addDirent os d) v, true)

/-- `basic_vfs_get_dir`: the directory inode of a node, loaded on the first use. Only the root has no parent,
    and it is loaded by `basic_vfs_init`. -/
def basicVfsGetDir (os : Os) (v : Tree) (n : NodeId) : Tree × Option DirId :=
  if (v.nodes n).type ≠ .dir then (v, none)
  else
    match (v.nodes n).inode with
    | some d => (v, some d)
    | none =>
        match (v.nodes n).parent with
        | none => (v, none)
        | some p =>
            let path := (v.dirs p).path ++ (v.nodes n).name ++ [47]
            let (v, d) := v.newDir { parent := some p }
            let v := v.setNode n { v.nodes n with inode := some d }
            match basicVfsStatDir os v d path with
            | (v, true) => (v, some d)
            | (v, false) => (v.setNode n { v.nodes n with forbidden := true }, some d)

end Vfs
end Hin9
