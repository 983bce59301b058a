import Hin9.Vfs.Tree
import Hin9.Basic.PatternSpec

/-!
# `Vfs.Path` — resolving request paths (`path.c`, `lua_vfs.c`)

`basicVfsRefPath` walks a path through the tree, loading directories on the way, and takes a reference on the
node it ends in; `getPathNode` is what the server calls with a client's path. Both return the heap together
with what was found. The outer `none` is a dereference of `NULL`: a regular file whose `statx` failed has no
inode, and `basic_vfs_ref` does not test for it.
-/

namespace Hin9
namespace Vfs

open Pattern

/-! ## References -/

def basicVfsRefFile (os : Os) (v : Tree) (f : FileId) : Tree :=
  let F := { v.files f with refcount := (v.files f).refcount + 1 }
  let v := v.setFile f F
  if F.fd.isSome then v
  else
    match (v.nodes F.parent).parent with
    | none => v
    | some d =>
        match os.openat ((v.dirs d).path ++ (v.nodes F.parent).name) with
        | some fd => v.setFile f { F with fd := some fd }
        | none => v.setNode F.parent { v.nodes F.parent with forbidden := true }

def basicVfsUnrefFile (v : Tree) (f : FileId) : Tree :=
  let F := { v.files f with refcount := (v.files f).refcount - 1 }
  v.setFile f (if F.refcount > 0 then F else { F with fd := none })

def basicVfsRef (os : Os) (v : Tree) (n : NodeId) : Option Tree :=
  let v := v.setNode n { v.nodes n with refcount := (v.nodes n).refcount + 1 }
  if (v.nodes n).type = .file then (v.nodes n).inode.map (basicVfsRefFile os v) else some v

def basicVfsUnref (v : Tree) (n : NodeId) : Option Tree :=
  let v := v.setNode n { v.nodes n with refcount := (v.nodes n).refcount - 1 }
  if (v.nodes n).type = .file then (v.nodes n).inode.map (basicVfsUnrefFile v) else some v

/-! ## `basic_vfs_ref_path` -/

/-- A heap, and the node found in it with the rest of the path; `none` is the `NULL` of a failed lookup. -/
structure RefResult where
  tree : Tree
  found : Option (NodeId × Bytes)

def RefResult.null (v : Tree) : Option RefResult := some ⟨v, none⟩

/-- The exit of the loop: `*path = source`, a reference on `next`. -/
def refFound (os : Os) (v : Tree) (next : NodeId) (source : Bytes) : Option RefResult :=
  (basicVfsRef os v next).map fun v => ⟨v, some (next, source)⟩

/-- The loop over the path segments. Every round consumes a byte of `source`. -/
def refLoop (os : Os) : Nat → Tree → Option DirId → Bytes → Option RefResult
  | 0, v, _, _ => RefResult.null v
  | fuel + 1, v, dir, source =>
      let m := matchString source segmentFormat
      match m.took with
      | none => RefResult.null v
      | some used =>
          let name := m.capture source 0
          let source := source.drop used
          match basicVfsSearchDir v dir name with
          | none => RefResult.null v
          | some next =>
              if (v.nodes next).type ≠ .dir then refFound os v next source
              else
                match (matchString source (bytes "/")).took with
                | none => refFound os v next source
                | some k =>
                    let source := source.drop k
                    if source = [] then refFound os v next source
                    else
                      let loaded := basicVfsGetDir os v next
                      match loaded.2 with
                      | none => RefResult.null loaded.1
                      | some d => refLoop os fuel loaded.1 (some d) source

def basicVfsRefPath (os : Os) (v : Tree) (dirNode : Option NodeId) (path : Bytes) : Option RefResult :=
  if path = [] then RefResult.null v
  else
    let slash := (matchString path (bytes "/")).took
    let source := path.drop (slash.getD 0)
    let current := if slash.isSome then some v.root else dirNode   -- an initial / means the root of the tree
    match current with
    | none => RefResult.null v
    | some cur =>
        if (v.nodes cur).type ≠ .dir then RefResult.null v
        else
          let loaded := basicVfsGetDir os v cur
          refLoop os (source.length + 1) loaded.1 loaded.2 source

/-! ## `lua_vfs.c` -/

def getPathNode (os : Os) (v : Tree) (cwd : NodeId) (path : Bytes) : Option RefResult :=
  let path := path.drop ((matchString path (bytes "/")).took.getD 0)
  if path = [] then some ⟨v, some (cwd, path)⟩ else basicVfsRefPath os v (some cwd) path

/-- `hin_search_dir`: the file `name` in the directory `node`; the reference moves from `node` to it. -/
def hinSearchDir (os : Os) (v : Tree) (node : NodeId) (name : Bytes) : Option (Tree × Option NodeId) :=
  let loaded := basicVfsGetDir os v node
  match basicVfsSearchDir loaded.1 loaded.2 name with
  | none => some (loaded.1, none)
  | some new =>
      if (loaded.1.nodes new).type = .file then
        (basicVfsRef os loaded.1 new).bind fun v => (basicVfsUnref v node).map fun v => (v, some new)
      else some (loaded.1, none)

/-- `if (http->file) basic_vfs_unref (vfs, http->file)`. -/
def dropFile (v : Tree) : Option NodeId → Option Tree
  | none => some v
  | some n => basicVfsUnref v n

/-- What `hin_send_raw_path` leaves behind: the heap, `http->file`, and whether a file is being sent. -/
structure SendPath where
  tree : Tree
  file : Option NodeId
  sent : Bool

/-- The end of `hin_send_raw_path`: `node` becomes the file of the request if its inode is there. -/
def sendRawFile (os : Os) (v : Tree) (node : NodeId) (file : Option NodeId) : Option SendPath :=
  let got := basicVfsGetFile os v node
  match got.2 with
  | none => some ⟨got.1, file, false⟩
  | some _ => (dropFile got.1 file).map fun v => ⟨v, some node, true⟩

def hinSendRawPath (os : Os) (v : Tree) (cwd : NodeId) (path : Bytes) (file : Option NodeId) :
    Option SendPath :=
  (getPathNode os v cwd path).bind fun res =>
    match res.found with
    | none => some ⟨res.tree, file, false⟩
    | some (node, _) =>
        if (res.tree.nodes node).type = .dir then
          (hinSearchDir os res.tree node (bytes "index.html")).bind fun r =>
            match r.2 with
            | some new => sendRawFile os r.1 new file
            | none => some ⟨r.1, some node, false⟩
        else sendRawFile os res.tree node file

/-- The loop of `l_hin_set_path` over the index names its Lua caller passed (tables are searched in order). -/
def searchIndex (os : Os) (v : Tree) (node : NodeId) : List Bytes → Option (Tree × Option NodeId)
  | [] => some (v, none)
  | name :: names =>
      (hinSearchDir os v node name).bind fun r =>
        match r.2 with
        | some new => some (r.1, some new)
        | none => searchIndex os r.1 node names

/-- The values `l_hin_set_path` returns to Lua. -/
structure PathInfo where
  dirPath : Bytes
  name : Option Bytes
  ext : Option Bytes
  rest : Option Bytes
  redirect : Option Bytes
deriving Repr, DecidableEq

/-- The extension: what follows the last `.` that is not the first byte of the name. -/
def extension (name : Bytes) : Option Bytes :=
  match (List.range name.length).reverse.find? fun i => 0 < i && name[i]? == some 46 with
  | some i => some (name.drop (i + 1))
  | none => none

structure SetPath where
  tree : Tree
  file : Option NodeId
  info : Option PathInfo

/-- The values pushed for `node`; `path` is the path asked for and `rest` what is left of it. An empty path
    compares the byte in front of the view with `/`; it is not one. -/
def pathInfo (N : Node) (noRedirect isDir : Bool) (dirPath : Bytes) (name : Option Bytes) (path rest : Bytes) :
    PathInfo :=
  let orig := path.take (path.length - rest.length)
  { dirPath, name
    ext := if N.type = .file then extension N.name else none
    rest := if rest = [] then none else some rest
    redirect := if isDir && !noRedirect && orig.getLast? != some 47 then some (orig ++ [47]) else none }

/-- The path of `node->parent`. -/
def parentPath (v : Tree) (node : NodeId) : Bytes := ((v.nodes node).parent.map fun d => (v.dirs d).path).getD []

/-- The end of `l_hin_set_path` for a file. -/
def setPathFile (os : Os) (v : Tree) (node : NodeId) (noRedirect isDir : Bool) (path rest : Bytes)
    (file : Option NodeId) : Option SetPath :=
  let got := basicVfsGetFile os v node
  match got.2 with
  | none => some ⟨got.1, file, none⟩
  | some _ =>
      (dropFile got.1 file).map fun v =>
        ⟨v, some node, some (pathInfo (v.nodes node) noRedirect isDir (parentPath v node)
          (some (v.nodes node).name) path rest)⟩

def lHinSetPath (os : Os) (v : Tree) (cwd : NodeId) (noRedirect : Bool) (path : Bytes) (names : List Bytes)
    (file : Option NodeId) : Option SetPath :=
  (getPathNode os v cwd path).bind fun res =>
    match res.found with
    | none => some ⟨res.tree, file, none⟩
    | some (node, rest) =>
        if (res.tree.nodes node).type = .dir then
          (searchIndex os res.tree node names).bind fun r =>
            match r.2 with
            | some new => setPathFile os r.1 new noRedirect true path rest file
            | none =>
                let loaded := basicVfsGetDir os r.1 node
                let dirPath := (loaded.2.map fun d => (loaded.1.dirs d).path).getD []
                some ⟨loaded.1, some node,
                  some (pathInfo (loaded.1.nodes node) noRedirect true dirPath none path rest)⟩
        else setPathFile os res.tree node noRedirect false path rest file

/-! ## Setting the tree up -/

/-- `basic_vfs_init`: the root directory is read, then the path of the process is looked up. -/
def basicVfsInit (os : Os) (cwdPath : Bytes) : Option Tree :=
  let v : Tree :=
    { nodes := Function.update (fun _ => {}) 0 { type := .dir, inode := some 0 }, nodeCount := 1
      dirCount := 1 }
  (basicVfsRefPath os (basicVfsStatDir os v 0 (bytes "/")).1 none cwdPath).map (·.tree)

/-- `httpd_vhost_set_work_dir`, from the real path of the directory on: `vhost->cwd_dir` and its inode. -/
def httpdVhostSetWorkDir (os : Os) (v : Tree) (absPath : Bytes) : Option (Tree × Option (NodeId × DirId)) :=
  (basicVfsRefPath os v none absPath).map fun res =>
    match res.found with
    | none => (res.tree, none)
    | some (cwd, _) =>
        let loaded := basicVfsGetDir os res.tree cwd
        (loaded.1, loaded.2.map fun d => (cwd, d))

end Vfs
end Hin9
