import Hin9.Vfs.Walk

/-!
# `Vfs.Confine` — which nodes a client's path reaches

`get_path_node` removes one leading slash and looks the rest up from the working directory of the vhost.
`basic_vfs_ref_path` has a rule of its own for a leading slash: it starts at the root of the tree. So a path
stays below the working directory unless it starts with *two* slashes; `getPathNode_below_iff` says when such a
path still does. The file a request is answered with (`hin_send_raw_path`, `l_hin_set_path`) is the node found
or an index file in it, and is covered by the same condition.

The first section shows that the assumptions on the tree and the working directory are what `basic_vfs_init` and
`httpd_vhost_set_work_dir` establish.
-/

namespace Hin9
namespace Vfs

open Pattern Lib

/-! ## The trees the server builds -/

/-- The working directory of a vhost: a loaded directory of the tree. -/
structure WorkDir (v : Tree) (cwd : NodeId) (d : DirId) : Prop where
  lt : cwd < v.nodeCount
  loaded : v.Loaded cwd d
  below : Below v.child v.root cwd

theorem WorkDir.ext {v v' : Tree} {cwd : NodeId} {d : DirId} (h : WorkDir v cwd d) (hv : WF v) (he : Ext v v') :
    WorkDir v' cwd d := by
  obtain ⟨names, hw⟩ := h.below
  refine ⟨Nat.lt_of_lt_of_le h.lt he.nodeCount, he.loaded cwd d h.lt h.loaded, names, ?_⟩
  rw [he.root]
  exact hw.mono fun p name n => he.child hv

theorem WF.below_lt {v : Tree} (hv : WF v) {n : NodeId} (h : Below v.child v.root n) : n < v.nodeCount := by
  obtain ⟨names, hn⟩ := h
  rcases List.eq_nil_or_concat names with rfl | ⟨names, last, rfl⟩
  · cases hn
    exact hv.root_lt
  · obtain ⟨_, _, he⟩ := Walk.last (by simpa using hn)
    exact (hv.child_entry he).1

/-- The heap of `basic_vfs_init` before the root directory is read. -/
theorem initTree_wf {v : Tree} (hv : v =
    { nodes := Function.update (fun _ => {}) 0 { type := .dir, inode := some 0 }, nodeCount := 1
      dirs := Function.update (fun _ => {}) 0 { path := [47] }, dirCount := 1 }) : WF v := by
  have node : ∀ n, v.nodes n = if n = 0 then { type := .dir, inode := some 0 } else {} := by
    intro n
    rw [hv]
    by_cases h : n = 0 <;> simp [h]
  have dir : ∀ d, v.dirs d = if d = 0 then { path := [47] } else {} := by
    intro d
    rw [hv]
    by_cases h : d = 0 <;> simp [h]
  have slots : ∀ d, v.slots d = [] := by
    intro d
    simp only [Tree.slots, dir]
    split <;> rfl
  have hroot : v.root = 0 := by rw [hv]
  have loaded : ∀ n d, v.Loaded n d → n = 0 ∧ d = 0 := by
    rintro n d ⟨h1, h2⟩
    rw [node] at h1 h2
    split at h1 <;> simp_all
  refine ⟨by rw [hv]; decide, ?_, ⟨0, ⟨?_, ?_⟩, ?_⟩, ?_, ?_, ?_, ?_, ?_, ?_, ?_, ?_⟩
  · simp [node, hroot]
  · simp [node, hroot]
  · simp [node, hroot]
  · simp [dir]
  · intro d n hn
    simp [slots] at hn
  · intro n p hp
    rw [node] at hp
    split at hp <;> simp at hp
  · intro n d hl
    rw [(loaded n d hl).2, hv]
    decide
  · intro n d p _ hp
    rw [node] at hp
    split at hp <;> simp at hp
  · intro n m d hn hm
    rw [(loaded n d hn).1, (loaded m d hm).1]
  all_goals
    intro d
    rw [dir]
    split <;> simp

theorem basicVfsInit_wf (os : Os) {cwdPath : Bytes} {v : Tree} (h : basicVfsInit os cwdPath = some v) : WF v := by
  obtain ⟨res, hres, rfl⟩ := Option.map_eq_some_iff.mp h
  refine (basicVfsRefPath_kept os ?_ (by simp) hres).1
  rw [basicVfsStatDir_eq os rfl]
  have h0 := initTree_wf rfl
  split
  · simpa [Tree.setDir, bytes] using h0
  · rename_i dents _
    have h1 := (foldl_addDirent_spec os dents h0 (d := 0) (by decide)).1
    simpa [Tree.setDir, bytes] using h1

/-- `httpd_vhost_set_work_dir` keeps the tree, and what it stores in the vhost is a working directory. -/
theorem httpdVhostSetWorkDir_spec (os : Os) {v : Tree} (hv : WF v) {absPath : Bytes}
    {r : Tree × Option (NodeId × DirId)} (h : httpdVhostSetWorkDir os v absPath = some r) :
    WF r.1 ∧ Ext v r.1 ∧ ∀ cwd d, r.2 = some (cwd, d) → WorkDir r.1 cwd d := by
  obtain ⟨⟨w, found⟩, hres, rfl⟩ := Option.map_eq_some_iff.mp h
  obtain ⟨h1, h2⟩ := basicVfsRefPath_kept os hv (by simp) hres
  rcases found with _ | ⟨cwd, rest⟩
  · exact ⟨h1, h2, by simp⟩
  obtain ⟨source, rfl⟩ : ∃ source, absPath = 47 :: source := by
    cases absPath with
    | nil => simp [basicVfsRefPath, RefResult.null] at hres
    | cons c cs =>
        by_cases hc : c = 47
        · exact ⟨cs, by rw [hc]⟩
        · simp [basicVfsRefPath, RefResult.null, matchString_slash, hc] at hres
  obtain ⟨_, _, names, _, hw, _⟩ := basicVfsRefPath_absolute os hv hres
  have hbelow : Below w.child w.root cwd := ⟨names, hw⟩
  obtain ⟨h3, h4, h5⟩ := basicVfsGetDir_spec os h1 (h1.below_lt hbelow)
  refine ⟨h3, h2.trans h4, fun cwd' d he => ?_⟩
  obtain ⟨d', hd', he⟩ := Option.map_eq_some_iff.mp he
  obtain ⟨rfl, rfl⟩ : cwd = cwd' ∧ d' = d := by simpa using he
  refine ⟨Nat.lt_of_lt_of_le (h1.below_lt hbelow) h4.nodeCount, h5 _ hd', names, ?_⟩
  rw [h4.root]
  exact hw.mono fun p name n => h4.child h1

/-- Three directories and two files, with the working directory `/srv`. -/
def sampleOs : Os where
  readDir path :=
    if path = bytes "/" then some [⟨bytes "etc", .dir, by decide⟩, ⟨bytes "srv", .dir, by decide⟩]
    else if path = bytes "/etc/" then some [⟨bytes "passwd", .reg, by decide⟩]
    else if path = bytes "/srv/" then some [⟨bytes "index.html", .reg, by decide⟩]
    else none
  statx _ := some ⟨0x8000, 0, 0, 10⟩
  openat _ := some 3

/-- The tree and the working directory the server starts with there. -/
def sampleTree : Option (Tree × NodeId × DirId) :=
  (basicVfsInit sampleOs (bytes "/srv")).bind fun v =>
    (httpdVhostSetWorkDir sampleOs v (bytes "/srv")).bind fun r => r.2.map fun c => (r.1, c.1, c.2)

theorem sampleTree_spec {v : Tree} {cwd : NodeId} {d : DirId} (h : sampleTree = some (v, cwd, d)) :
    WF v ∧ WorkDir v cwd d := by
  obtain ⟨v0, h0, h⟩ := Option.bind_eq_some_iff.mp h
  obtain ⟨r, hr, h⟩ := Option.bind_eq_some_iff.mp h
  obtain ⟨⟨cwd', d'⟩, hc, he⟩ := Option.map_eq_some_iff.mp h
  simp only [Prod.mk.injEq] at he
  obtain ⟨rfl, rfl, rfl⟩ := he
  obtain ⟨h1, _, h2⟩ := httpdVhostSetWorkDir_spec sampleOs (basicVfsInit_wf sampleOs h0) hr
  exact ⟨h1, h2 _ _ hc⟩

/-! ## Paths inside the working directory -/

/-- A path does not leave the directory whose stored path is `cwdPath`: it does not start with two slashes, or
    what follows the first slash starts with the text of that directory. -/
def StaysInside (cwdPath path : Bytes) : Prop :=
  ¬ [47, 47] <+: path ∨ ∃ rest, path.drop 1 = cwdPath.dropLast ++ rest ∧ Stops rest

/-- `get_path_node` looks up the path without its leading slash, if it has one. -/
theorem getPathNode_cases {os : Os} {v : Tree} {cwd : NodeId} {path : Bytes} {res : RefResult}
    (h : getPathNode os v cwd path = some res) :
    ∃ source, (path = 47 :: source ∨ (path = source ∧ source.head? ≠ some 47)) ∧
      (if source = [] then some ⟨v, some (cwd, source)⟩ else basicVfsRefPath os v (some cwd) source) = some res := by
  simp only [getPathNode, matchString_slash] at h
  by_cases hslash : path.head? = some 47
  · obtain ⟨source, rfl⟩ : ∃ cs, path = 47 :: cs := by
      cases path with
      | nil => simp at hslash
      | cons c cs => exact ⟨cs, by simpa using hslash⟩
    exact ⟨source, .inl rfl, by simpa using h⟩
  · exact ⟨path, .inr ⟨rfl, hslash⟩, by simpa [hslash] using h⟩

/-- What `get_path_node` guarantees about the node it returns. -/
structure Resolved (v v' : Tree) (cwd : NodeId) (d : DirId) (path : Bytes) (r : NodeId) : Prop where
  wf : WF v'
  ext : Ext v v'
  reached : Below v'.child v'.root r
  inside : Below v'.child cwd r ↔ StaysInside (v.dirs d).path path

theorem getPathNode_spec (os : Os) {v : Tree} (hv : WF v) {cwd : NodeId} {d : DirId} (hcwd : WorkDir v cwd d)
    {path : Bytes} {v' : Tree} {r : NodeId} {after : Bytes}
    (h : getPathNode os v cwd path = some ⟨v', some (r, after)⟩) : Resolved v v' cwd d path r := by
  obtain ⟨source, hpath, hlook⟩ := getPathNode_cases h
  have relative : WF v' ∧ Ext v v' ∧ Below v'.child cwd r → source.head? ≠ some 47 →
      Resolved v v' cwd d path r := by
    rintro ⟨h1, h2, h3⟩ hrel
    refine ⟨h1, h2, (hcwd.ext hv h2).below.trans h3, iff_of_true h3 (.inl ?_)⟩
    rintro ⟨t, ht⟩
    rcases hpath with rfl | ⟨rfl, _⟩
    · obtain rfl : 47 :: t = source := by simpa using ht
      exact hrel rfl
    · rw [← ht] at hrel
      exact hrel rfl
  by_cases hempty : source = []
  · subst hempty
    obtain ⟨rfl, rfl, -⟩ : v = v' ∧ cwd = r ∧ [] = after := by simpa using hlook
    exact relative ⟨hv, Ext.refl v, [], .nil⟩ (by simp)
  rw [if_neg hempty] at hlook
  by_cases habs : source.head? = some 47
  swap
  · exact relative (basicVfsRefPath_relative os hv hcwd.lt habs hlook) habs
  -- two slashes: the lookup starts at the root
  obtain rfl : path = 47 :: source := hpath.resolve_right fun hp => hp.2 habs
  obtain ⟨source, rfl⟩ : ∃ cs, source = 47 :: cs := by
    cases source with
    | nil => simp at habs
    | cons c cs => exact ⟨cs, by simpa using habs⟩
  obtain ⟨h1, h2, names, rest, hw, htext, harr⟩ := basicVfsRefPath_absolute os hv hlook
  obtain ⟨cs, hc⟩ := (hcwd.ext hv h2).below
  have hdir : (v.dirs d).path.dropLast = absPath cs := by
    rw [← h2.path d (hv.loaded_lt cwd d hcwd.loaded), h1.loaded_absPath hc (hcwd.ext hv h2).loaded,
      List.dropLast_concat]
  refine ⟨h1, h2, ⟨names, hw⟩, ?_⟩
  rw [absolute_below_iff h1 hc hw htext harr]
  simp [StaysInside, hdir]

/-- **Which paths stay inside.** Whatever node a path resolves to, it is the working directory or below it
    exactly when the path does not start with two slashes or names a place inside the directory after them. -/
theorem getPathNode_below_iff (os : Os) (v : Tree) (hv : WF v) (cwd : NodeId) (d : DirId)
    (hcwd : WorkDir v cwd d) (path : Bytes) (v' : Tree) (r : NodeId) (after : Bytes)
    (h : getPathNode os v cwd path = some ⟨v', some (r, after)⟩) :
    Below v'.child cwd r ↔ StaysInside (v.dirs d).path path :=
  (getPathNode_spec os hv hcwd h).inside

/-- A path in the vhost, and a path with two slashes that is back in it. -/
theorem getPathNode_below_iff_sample : ∃ v cwd d v' r after v'' r' after',
    getPathNode sampleOs v cwd (bytes "/index.html") = some ⟨v', some (r, after)⟩ ∧
    (Below v'.child cwd r ↔ StaysInside (v.dirs d).path (bytes "/index.html")) ∧
    getPathNode sampleOs v cwd (bytes "//srv/index.html") = some ⟨v'', some (r', after')⟩ ∧
    (Below v''.child cwd r' ↔ StaysInside (v.dirs d).path (bytes "//srv/index.html")) := by
  have hset : sampleTree.isSome = true := by decide
  obtain ⟨⟨v, cwd, d⟩, hs⟩ := Option.isSome_iff_exists.mp hset
  obtain ⟨hv, hcwd⟩ := sampleTree_spec hs
  have found : ∀ path, ((sampleTree.bind fun s => getPathNode sampleOs s.1 s.2.1 path).bind (·.found)).isSome →
      ∃ v' r after, getPathNode sampleOs v cwd path = some ⟨v', some (r, after)⟩ := by
    intro path h
    obtain ⟨⟨r, after⟩, hf⟩ := Option.isSome_iff_exists.mp h
    obtain ⟨⟨v', _⟩, hg, rfl⟩ := Option.bind_eq_some_iff.mp hf
    rw [hs] at hg
    exact ⟨v', r, after, hg⟩
  obtain ⟨v', r, after, h1⟩ := found (bytes "/index.html") (by decide)
  obtain ⟨v'', r', after', h2⟩ := found (bytes "//srv/index.html") (by decide)
  exact ⟨v, cwd, d, v', r, after, v'', r', after',
    h1, getPathNode_below_iff sampleOs v hv cwd d hcwd _ v' r after h1,
    h2, getPathNode_below_iff sampleOs v hv cwd d hcwd _ v'' r' after' h2⟩

/-- **A request path that leaves the working directory.** With `/srv` as the working directory the path
    `//etc/passwd` resolves to `/etc/passwd`. -/
theorem getPathNode_escapes : ¬ ∀ (os : Os) (v : Tree) (cwd : NodeId) (d : DirId) (path : Bytes) (v' : Tree)
    (r : NodeId) (after : Bytes), WF v → WorkDir v cwd d →
      getPathNode os v cwd path = some ⟨v', some (r, after)⟩ → Below v'.child cwd r := by
  intro hall
  have hset : (sampleTree.map fun s => ((s.1.dirs s.2.2).path,
      (getPathNode sampleOs s.1 s.2.1 (bytes "//etc/passwd")).map (·.found)))
        = some (bytes "/srv/", some (some (4, []))) := by decide
  obtain ⟨⟨v, cwd, d⟩, hs, he⟩ := Option.map_eq_some_iff.mp hset
  obtain ⟨hv, hcwd⟩ := sampleTree_spec hs
  obtain ⟨hpath, hget⟩ := Prod.mk.inj he
  obtain ⟨⟨v', found⟩, hget, rfl⟩ := Option.map_eq_some_iff.mp hget
  have hin := (getPathNode_spec sampleOs hv hcwd hget).inside.mp (hall _ v cwd d _ v' 4 [] hv hcwd hget)
  simp only at hpath
  rw [hpath] at hin
  rcases hin with h | ⟨rest, h, -⟩
  · exact h (by decide)
  · have : bytes "/srv" <+: bytes "/etc/passwd" := ⟨rest, h.symm⟩
    exact absurd this (by decide)

/-! ## The file a request is answered with -/

/-- A file in `r` is below the working directory exactly when `r` is. -/
theorem below_child_iff {v : Tree} (hv : WF v) {cwd r f : NodeId} {d : DirId} {name : Bytes}
    (hcwd : WorkDir v cwd d) (hc : v.child r name f) (htype : (v.nodes f).type = .file) :
    Below v.child cwd f ↔ Below v.child cwd r := by
  constructor
  · rintro ⟨names, hw⟩
    rcases List.eq_nil_or_concat names with rfl | ⟨names, last, rfl⟩
    · cases hw
      rw [hcwd.loaded.1] at htype
      exact absurd htype (by simp)
    · obtain ⟨p, hp, he⟩ := Walk.last (by simpa using hw)
      obtain ⟨rfl, -⟩ := hv.child_unique_parent _ _ _ _ _ he hc
      exact ⟨names, hp⟩
  · rintro ⟨names, hw⟩
    exact ⟨names ++ [name], hw.snoc hc⟩

/-- `hin_search_dir` returns a file of the directory it is given. -/
theorem hinSearchDir_spec (os : Os) {v : Tree} (hv : WF v) {node : NodeId} (hn : node < v.nodeCount)
    {name : Bytes} {r : Tree × Option NodeId} (h : hinSearchDir os v node name = some r) :
    WF r.1 ∧ Ext v r.1 ∧ ∀ new, r.2 = some new → r.1.child node name new ∧ (r.1.nodes new).type = .file := by
  obtain ⟨h1, h2, h3⟩ := basicVfsGetDir_spec os hv hn
  simp only [hinSearchDir] at h
  cases hs : basicVfsSearchDir (basicVfsGetDir os v node).1 (basicVfsGetDir os v node).2 name with
  | none =>
      rw [hs] at h
      obtain rfl := Option.some.inj h
      exact ⟨h1, h2, by simp⟩
  | some new =>
      simp only [hs] at h
      split at h
      · rename_i htype
        obtain ⟨u, hu, h⟩ := Option.bind_eq_some_iff.mp h
        obtain ⟨w, hw, rfl⟩ := Option.map_eq_some_iff.mp h
        have hk := (basicVfsRef_kept os h1 hu).trans (basicVfsUnref_kept (basicVfsRef_kept os h1 hu).1 hw)
        refine ⟨hk.1, h2.trans hk.2.1, fun new' he => ?_⟩
        obtain rfl := Option.some.inj he
        obtain ⟨d, hd⟩ : ∃ d, (basicVfsGetDir os v node).2 = some d := by
          cases hd : (basicVfsGetDir os v node).2 with
          | none => simp [hd, basicVfsSearchDir] at hs
          | some d => exact ⟨d, rfl⟩
        rw [hd] at hs
        exact ⟨hk.2.1.child h1 ⟨d, Nat.lt_of_lt_of_le hn h2.nodeCount, h3 d hd, hs⟩, (hk.2.2 new).trans htype⟩
      · obtain rfl := Option.some.inj h
        exact ⟨h1, h2, by simp⟩

/-- The search over the index names, by induction on the names. -/
theorem searchIndex_spec (os : Os) (names : List Bytes) {v : Tree} (hv : WF v) {node : NodeId}
    (hn : node < v.nodeCount) {r : Tree × Option NodeId} (h : searchIndex os v node names = some r) :
    WF r.1 ∧ Ext v r.1 ∧
      ∀ new, r.2 = some new → ∃ name, r.1.child node name new ∧ (r.1.nodes new).type = .file := by
  induction names generalizing v with
  | nil =>
      obtain rfl := Option.some.inj h
      exact ⟨hv, Ext.refl v, by simp⟩
  | cons name names ih =>
      obtain ⟨s, hs, h⟩ := Option.bind_eq_some_iff.mp h
      obtain ⟨h1, h2, h3⟩ := hinSearchDir_spec os hv hn hs
      cases hnew : s.2 with
      | some new =>
          simp only [hnew] at h
          obtain rfl := Option.some.inj h
          exact ⟨h1, h2, fun new' he => ⟨name, h3 new' (hnew.trans he)⟩⟩
      | none =>
          simp only [hnew] at h
          obtain ⟨h4, h5, h6⟩ := ih h1 (Nat.lt_of_lt_of_le hn h2.nodeCount) h
          exact ⟨h4, h2.trans h5, h6⟩

/-- Growing the tree moves nothing into or out of the working directory. -/
theorem below_ext_iff {v w : Tree} (hv : WF v) (hw : WF w) (he : Ext v w) {cwd f : NodeId} {d : DirId}
    (hcwd : WorkDir v cwd d) (hf : Below v.child v.root f) : Below w.child cwd f ↔ Below v.child cwd f := by
  obtain ⟨cs, hc⟩ := hcwd.below
  obtain ⟨fs, hf⟩ := hf
  have hc' : Walk w.child w.root cs cwd := he.root ▸ hc.mono fun _ _ _ => he.child hv
  have hf' : Walk w.child w.root fs f := he.root ▸ hf.mono fun _ _ _ => he.child hv
  rw [Walk.below_iff_prefix (child_deterministic v) hv.child_unique_parent hv.child_root hc hf,
    Walk.below_iff_prefix (child_deterministic w) hw.child_unique_parent hw.child_root hc' hf']

theorem dropFile_kept {v w : Tree} (hv : WF v) {file : Option NodeId} (h : dropFile v file = some w) :
    WF w ∧ Ext v w := by
  cases file with
  | none =>
      obtain rfl := Option.some.inj h
      exact ⟨hv, Ext.refl v⟩
  | some n =>
      have hk := basicVfsUnref_kept hv h
      exact ⟨hk.1, hk.2.1⟩

/-- The node found stays inside under the same condition in every later heap. -/
theorem Resolved.later {v v' w : Tree} {cwd r : NodeId} {d : DirId} {path : Bytes} (hv : WF v)
    (hcwd : WorkDir v cwd d) (h : Resolved v v' cwd d path r) (hw : WF w) (he : Ext v' w) :
    Resolved v w cwd d path r := by
  refine ⟨hw, h.ext.trans he, ?_, (below_ext_iff h.wf hw he (hcwd.ext hv h.ext) h.reached).trans h.inside⟩
  obtain ⟨names, hn⟩ := h.reached
  exact ⟨names, he.root ▸ hn.mono fun _ _ _ => he.child h.wf⟩

/-- So does a file in it. -/
theorem Resolved.file {v v' : Tree} {cwd r f : NodeId} {d : DirId} {path name : Bytes} (hv : WF v)
    (hcwd : WorkDir v cwd d) (h : Resolved v v' cwd d path r) (hc : v'.child r name f)
    (htype : (v'.nodes f).type = .file) : Resolved v v' cwd d path f := by
  refine ⟨h.wf, h.ext, ?_, (below_child_iff h.wf (hcwd.ext hv h.ext) hc htype).trans h.inside⟩
  obtain ⟨names, hn⟩ := h.reached
  exact ⟨names ++ [name], hn.snoc hc⟩

theorem Resolved.lt {v v' : Tree} {cwd r : NodeId} {d : DirId} {path : Bytes}
    (h : Resolved v v' cwd d path r) : r < v'.nodeCount :=
  h.wf.below_lt h.reached

theorem sendRawFile_resolved (os : Os) {v v' w : Tree} {cwd node f : NodeId} {d : DirId} {path : Bytes}
    (hv : WF v) (hcwd : WorkDir v cwd d) (hr : Resolved v v' cwd d path node) {file : Option NodeId}
    (h : sendRawFile os v' node file = some ⟨w, some f, true⟩) : Resolved v w cwd d path f := by
  obtain ⟨h1, h2⟩ := basicVfsGetFile_spec os hr.wf node
  simp only [sendRawFile] at h
  split at h
  · simp at h
  · obtain ⟨u, hu, he⟩ := Option.map_eq_some_iff.mp h
    obtain ⟨rfl, rfl⟩ : u = w ∧ node = f := by simpa using he
    obtain ⟨h3, h4⟩ := dropFile_kept h1 hu
    exact hr.later hv hcwd h3 (h2.trans h4)

/-- **The file `hin_send_raw_path` sends** is below the working directory under the same condition on the
    path. -/
theorem hinSendRawPath_below_iff (os : Os) {v : Tree} (hv : WF v) {cwd : NodeId} {d : DirId}
    (hcwd : WorkDir v cwd d) {path : Bytes} {file : Option NodeId} {w : Tree} {f : NodeId}
    (h : hinSendRawPath os v cwd path file = some ⟨w, some f, true⟩) :
    Below w.child cwd f ↔ StaysInside (v.dirs d).path path := by
  obtain ⟨⟨v', found⟩, hget, h⟩ := Option.bind_eq_some_iff.mp h
  rcases found with _ | ⟨node, rest⟩
  · simp at h
  have hr := getPathNode_spec os hv hcwd hget
  simp only at h
  split at h
  · obtain ⟨r, hs, h⟩ := Option.bind_eq_some_iff.mp h
    obtain ⟨h1, h2, h3⟩ := hinSearchDir_spec os hr.wf hr.lt hs
    split at h
    · rename_i new hnew
      obtain ⟨hc, htype⟩ := h3 new hnew
      exact (sendRawFile_resolved os hv hcwd ((hr.later hv hcwd h1 h2).file hv hcwd hc htype) h).inside
    · simp at h
  · exact (sendRawFile_resolved os hv hcwd hr h).inside

theorem setPathFile_resolved (os : Os) {v v' w : Tree} {cwd node f : NodeId} {d : DirId} {path : Bytes}
    (hv : WF v) (hcwd : WorkDir v cwd d) (hr : Resolved v v' cwd d path node) {file : Option NodeId}
    {noRedirect isDir : Bool} {asked rest : Bytes} {info : PathInfo}
    (h : setPathFile os v' node noRedirect isDir asked rest file = some ⟨w, some f, some info⟩) :
    Resolved v w cwd d path f := by
  obtain ⟨h1, h2⟩ := basicVfsGetFile_spec os hr.wf node
  simp only [setPathFile] at h
  split at h
  · simp at h
  · obtain ⟨u, hu, he⟩ := Option.map_eq_some_iff.mp h
    simp only [SetPath.mk.injEq, Option.some.injEq] at he
    obtain ⟨rfl, rfl, -⟩ := he
    obtain ⟨h3, h4⟩ := dropFile_kept h1 hu
    exact hr.later hv hcwd h3 (h2.trans h4)

/-- **The node `l_hin_set_path` selects** is below the working directory under the same condition on the
    path, whatever index names its Lua caller passes. -/
theorem lHinSetPath_below_iff (os : Os) {v : Tree} (hv : WF v) {cwd : NodeId} {d : DirId}
    (hcwd : WorkDir v cwd d) {noRedirect : Bool} {path : Bytes} {names : List Bytes} {file : Option NodeId}
    {w : Tree} {f : NodeId} {info : PathInfo}
    (h : lHinSetPath os v cwd noRedirect path names file = some ⟨w, some f, some info⟩) :
    Below w.child cwd f ↔ StaysInside (v.dirs d).path path := by
  obtain ⟨⟨v', found⟩, hget, h⟩ := Option.bind_eq_some_iff.mp h
  rcases found with _ | ⟨node, rest⟩
  · simp at h
  have hr := getPathNode_spec os hv hcwd hget
  simp only at h
  split at h
  · obtain ⟨r, hs, h⟩ := Option.bind_eq_some_iff.mp h
    obtain ⟨h1, h2, h3⟩ := searchIndex_spec os names hr.wf hr.lt hs
    have hr' := hr.later hv hcwd h1 h2
    split at h
    · rename_i new hnew
      obtain ⟨_, hc, htype⟩ := h3 new hnew
      exact (setPathFile_resolved os hv hcwd (hr'.file hv hcwd hc htype) h).inside
    · obtain ⟨h4, h5, _⟩ := basicVfsGetDir_spec os h1 hr'.lt
      simp only [Option.some.injEq, SetPath.mk.injEq] at h
      obtain ⟨rfl, rfl, -⟩ := h
      exact (hr'.later hv hcwd h4 h5).inside
  · exact (setPathFile_resolved os hv hcwd hr h).inside

end Vfs
end Hin9
