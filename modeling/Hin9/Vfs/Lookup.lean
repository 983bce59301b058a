import Hin9.Vfs.DirMap
import Hin9.Vfs.HeldOpen
import Hin9.Vfs.Walk

/-!
# `Vfs.Lookup` — what a search finds after each call (`dir.c`, `stat.c`, `inotify.c`)

A call changes one name of one directory, and one node. `Frame` says that: every other name is found as before, and every other
node shows what it showed. Each call that follows the file system has its frame here, and keeps the heap a tree (`WF`), also
where an entry goes (`WF.cleared`). `Read` says what a directory holds that was read.
-/

namespace Hin9
namespace Vfs

/-! ## What a node shows -/

/-- What `statx` said about a file. -/
def File.stated (F : File) : Nat × Int × UInt64 := (F.size, F.modified, F.etag)

/-- What a node says about itself: its type, its inode, and what is known about its file. -/
def Tree.shown (v : Tree) (n : NodeId) : EntType × Option Nat × Option (Nat × Int × UInt64) :=
  ((v.nodes n).type, (v.nodes n).inode, (v.fileInode n).map fun f => (v.files f).stated)

section

variable {v w : Tree} {h h' u : Heap} {n m : NodeId} {N : Node} {d e : DirId} {x y : Bytes} {i : Nat}
  {os : Os}

theorem Tree.setNode_self (v : Tree) (n : NodeId) (N : Node) : (v.setNode n N).nodes n = N := Function.update_self _ _ _

theorem Tree.setNode_of_ne (v : Tree) (N : Node) (hmn : m ≠ n) : (v.setNode n N).nodes m = v.nodes m :=
  Function.update_of_ne hmn _ _

theorem Tree.setNode_name (v : Tree) {N : Node} (hname : N.name = (v.nodes n).name) (m : NodeId) :
    ((v.setNode n N).nodes m).name = (v.nodes m).name := by
  by_cases hmn : m = n
  · rw [hmn, Tree.setNode_self, hname]
  · rw [Tree.setNode_of_ne v N hmn]

theorem shown_loaded (hs : w.shown m = v.shown m) : w.Loaded m e ↔ v.Loaded m e := by
  simp only [Tree.shown, Prod.mk.injEq] at hs
  unfold Tree.Loaded
  rw [hs.1, hs.2.1]

/-- A node that was not touched shows the same, if its file is described as before. -/
theorem shown_eq (htype : (w.nodes m).type = (v.nodes m).type) (hinode : (w.nodes m).inode = (v.nodes m).inode)
    (hfile : ∀ f, v.fileInode m = some f → (w.files f).stated = (v.files f).stated) : w.shown m = v.shown m := by
  have hsame : w.fileInode m = v.fileInode m := by
    unfold Tree.fileInode
    rw [htype, hinode]
  unfold Tree.shown
  rw [htype, hinode, hsame]
  cases hf : v.fileInode m with
  | none => rfl
  | some f => rw [Option.map_some, Option.map_some, hfile f hf]

/-- **What a call leaves alone**: every name but `x` of the directory `d`, and every node but `n`. -/
structure Frame (h h' : Heap) (d : DirId) (x : Bytes) (n : NodeId) : Prop where
  nodeCount : h.tree.nodeCount ≤ h'.tree.nodeCount
  dirCount : h'.tree.dirCount = h.tree.dirCount
  path : ∀ e, (h'.tree.dirs e).path = (h.tree.dirs e).path
  search : ∀ e y, e ≠ d ∨ y ≠ x → basicVfsSearchDir h'.tree (some e) y = basicVfsSearchDir h.tree (some e) y
  node : ∀ m, h'.LiveNode m → m < h.tree.nodeCount → h.LiveNode m
  shown : ∀ m, h.LiveNode m → h'.LiveNode m → m ≠ n → h'.tree.shown m = h.tree.shown m

theorem Frame.trans (hf : Frame h h' d x n) (hu : Frame h' u d x n) : Frame h u d x n where
  nodeCount := hf.nodeCount.trans hu.nodeCount
  dirCount := hu.dirCount.trans hf.dirCount
  path e := (hu.path e).trans (hf.path e)
  search e y hne := (hu.search e y hne).trans (hf.search e y hne)
  node m hm hlt := hf.node m (hu.node m hm (hlt.trans_le hf.nodeCount)) hlt
  shown m hm hm' hmn := by
    have hmid := hu.node m hm' (hm.1.trans_le hf.nodeCount)
    exact (hu.shown m hmid hm' hmn).trans (hf.shown m hm hmid hmn)

/-- A call that changes nothing but the node `n` and files, and frees nothing. -/
theorem Frame.of_node (hg : Good h) (hnodes : v.nodeCount = h.tree.nodeCount) (hdirs : v.dirs = h.tree.dirs)
    (hcount : v.dirCount = h.tree.dirCount) (hname : ∀ m, (v.nodes m).name = (h.tree.nodes m).name)
    (hother : ∀ m, m ≠ n → (v.nodes m).type = (h.tree.nodes m).type ∧ (v.nodes m).inode = (h.tree.nodes m).inode)
    (hfiles : ∀ f, f < h.tree.fileCount → (h.tree.files f).parent ≠ n → (v.files f).stated = (h.tree.files f).stated)
    (d : DirId) (x : Bytes) : Frame h (h.setTree v) d x n where
  nodeCount := hnodes.ge
  dirCount := hcount
  path e := congrArg (fun dirs => (dirs e).path) hdirs
  search e y _ := by
    show searchEntries v.nodes y (v.slots e) = searchEntries h.tree.nodes y (h.tree.slots e)
    unfold Tree.slots
    rw [hdirs]
    exact searchEntries_congr y fun m _ => hname m
  node m hm _ := ⟨hnodes ▸ hm.1, hm.2⟩
  shown m hm _ hmn := by
    refine shown_eq (hother m hmn).1 (hother m hmn).2 fun f hf => ?_
    obtain ⟨hlive, hparent⟩ := hg.fileInode hm hf
    exact hfiles f hlive.1 (hparent ▸ hmn)

/-! ## References -/

/-- A file that says the same about itself. -/
theorem Good.setFile (hg : Good h) {f : FileId} (F : File) (hparent : F.parent = (h.tree.files f).parent) :
    Good (h.setTree (h.tree.setFile f F)) := by
  refine ⟨hg.root, hg.top, hg.entry, hg.once, hg.loaded, hg.loadedInj, ?_, hg.freshNode, hg.freshDir, hg.freshFile⟩
  intro m g hm htype hinode
  obtain ⟨ht, hlive, hp⟩ := hg.file m g hm htype hinode
  refine ⟨ht, hlive, ?_⟩
  show (Function.update h.tree.files f F g).parent = m
  by_cases hgf : g = f
  · rw [hgf, Function.update_self, hparent, ← hgf, hp]
  · rw [Function.update_of_ne hgf, hp]

/-- A call that changes nothing that a search finds and nothing that a node shows. -/
structure Quiet (h : Heap) (v : Tree) : Prop where
  good : Good (h.setTree v)
  wf : WF v
  nodeCount : v.nodeCount = h.tree.nodeCount
  dirCount : v.dirCount = h.tree.dirCount
  dirs : v.dirs = h.tree.dirs
  name : ∀ m, (v.nodes m).name = (h.tree.nodes m).name
  parent : ∀ m, (v.nodes m).parent = (h.tree.nodes m).parent
  shown : ∀ m, v.shown m = h.tree.shown m

theorem Quiet.refl (hg : Good h) (hv : WF h.tree) : Quiet h h.tree :=
  ⟨hg, hv, rfl, rfl, rfl, fun _ => rfl, fun _ => rfl, fun _ => rfl⟩

theorem Quiet.trans (hv : Quiet h v) (hw : Quiet (h.setTree v) w) : Quiet h w where
  good := hw.good
  wf := hw.wf
  nodeCount := hw.nodeCount.trans hv.nodeCount
  dirCount := hw.dirCount.trans hv.dirCount
  dirs := hw.dirs.trans hv.dirs
  name m := (hw.name m).trans (hv.name m)
  parent m := (hw.parent m).trans (hv.parent m)
  shown m := (hw.shown m).trans (hv.shown m)

theorem Quiet.search (hv : Quiet h v) : basicVfsSearchDir v (some e) y = basicVfsSearchDir h.tree (some e) y := by
  show searchEntries v.nodes y (v.slots e) = searchEntries h.tree.nodes y (h.tree.slots e)
  unfold Tree.slots
  rw [hv.dirs]
  exact searchEntries_congr y fun m _ => hv.name m

/-- The node changes in what says nothing about its entry. -/
theorem quiet_setNode (hg : Good h) (hv : WF h.tree) (N : Node) (hname : N.name = (h.tree.nodes n).name)
    (hparent : N.parent = (h.tree.nodes n).parent) (htype : N.type = (h.tree.nodes n).type)
    (hinode : N.inode = (h.tree.nodes n).inode) : Quiet h (h.tree.setNode n N) := by
  have hsame : ∀ m, ((h.tree.setNode n N).nodes m).name = (h.tree.nodes m).name ∧
      ((h.tree.setNode n N).nodes m).parent = (h.tree.nodes m).parent ∧
      ((h.tree.setNode n N).nodes m).type = (h.tree.nodes m).type ∧
      ((h.tree.setNode n N).nodes m).inode = (h.tree.nodes m).inode := by
    intro m
    by_cases hmn : m = n
    · rw [hmn, Tree.setNode_self]
      exact ⟨hname, hparent, htype, hinode⟩
    · rw [Tree.setNode_of_ne _ _ hmn]
      exact ⟨rfl, rfl, rfl, rfl⟩
  refine ⟨hg.touch N hparent htype hinode, ?_, rfl, rfl, rfl, fun m => (hsame m).1, fun m => (hsame m).2.1, ?_⟩
  · exact (hv.setNode hname hparent fun d => by rw [htype, hinode]; exact Iff.rfl).1
  · exact fun m => shown_eq (hsame m).2.2.1 (hsame m).2.2.2 fun _ _ => rfl

/-- A file changes in what `statx` did not say about it. -/
theorem quiet_setFile (hg : Good h) (hv : WF h.tree) {f : FileId} (F : File) (hparent : F.parent = (h.tree.files f).parent)
    (hstated : F.stated = (h.tree.files f).stated) : Quiet h (h.tree.setFile f F) := by
  refine ⟨hg.setFile F hparent, (kept_setFile hv f F).1, rfl, rfl, rfl, fun _ => rfl, fun _ => rfl, ?_⟩
  intro m
  refine shown_eq rfl rfl fun g _ => ?_
  show (Function.update h.tree.files f F g).stated = _
  by_cases hgf : g = f
  · rw [hgf, Function.update_self, hstated]
  · rw [Function.update_of_ne hgf]

theorem quiet_refFile (hg : Good h) (hv : WF h.tree) (os : Os) (f : FileId) : Quiet h (basicVfsRefFile os h.tree f) := by
  have hcount := quiet_setFile hg hv { h.tree.files f with refcount := (h.tree.files f).refcount + 1 } rfl rfl
  have hself : ∀ F, (h.setTree (h.tree.setFile f F)).tree.files f = F := fun F => Function.update_self _ _ _
  unfold basicVfsRefFile
  dsimp only
  split
  · exact hcount
  split
  · exact hcount
  split
  · apply hcount.trans
    apply quiet_setFile hcount.good hcount.wf
    · rw [hself]
    · rw [hself]
      rfl
  · exact hcount.trans (quiet_setNode hcount.good hcount.wf _ rfl rfl rfl rfl)

/-- **Taking a reference** says nothing new about the tree. -/
theorem quiet_ref (hg : Good h) (hv : WF h.tree) (os : Os) (href : basicVfsRef os h.tree n = some v) : Quiet h v := by
  have hnode := quiet_setNode hg hv (n := n) { h.tree.nodes n with refcount := (h.tree.nodes n).refcount + 1 }
    rfl rfl rfl rfl
  unfold basicVfsRef at href
  dsimp only at href
  split at href
  · obtain ⟨f, -, rfl⟩ := Option.map_eq_some_iff.mp href
    exact hnode.trans (quiet_refFile hnode.good hnode.wf os f)
  · obtain rfl := Option.some.inj href
    exact hnode

/-- **Giving a reference up** says nothing new about the tree. -/
theorem quiet_unref (hg : Good h) (hv : WF h.tree) (hunref : basicVfsUnref h.tree n = some v) : Quiet h v := by
  have hnode := quiet_setNode hg hv (n := n) { h.tree.nodes n with refcount := (h.tree.nodes n).refcount - 1 }
    rfl rfl rfl rfl
  unfold basicVfsUnref at hunref
  dsimp only at hunref
  split at hunref
  · obtain ⟨f, -, rfl⟩ := Option.map_eq_some_iff.mp hunref
    apply hnode.trans
    unfold basicVfsUnrefFile
    dsimp only
    split
    · exact quiet_setFile hnode.good hnode.wf _ rfl rfl
    · exact quiet_setFile hnode.good hnode.wf _ rfl rfl
  · obtain rfl := Option.some.inj hunref
    exact hnode

/-! ## Adding, and asking the kernel -/

/-- Whether `basic_vfs_stat` takes it for a directory. -/
def Stat.isDir (st : Stat) : Bool := st.mode &&& S_IFDIR ≠ 0

def Stat.stated (st : Stat) : Nat × Int × UInt64 := (st.size, st.mtimeSec, statEtag st)

/-- **What a node shows is true** of an entry of which the kernel says `st`. -/
structure Known (st : Stat) (shown : EntType × Option Nat × Option (Nat × Int × UInt64)) : Prop where
  dir : shown.1 = .dir → st.isDir = true
  file : shown.1 = .file → st.isDir = false
  stated : ∀ t, shown.2.2 = some t → t = st.stated

/-- What a call that asks about the node `n` leaves behind: the node is not a directory that was read, and what it shows is
    what the kernel answered, if it did. -/
structure Asked (h : Heap) (v : Tree) (n : NodeId) (answer : Option Stat) : Prop where
  good : Good (h.setTree v)
  wf : WF v
  dirs : v.dirs = h.tree.dirs
  frame : ∀ d x, Frame h (h.setTree v) d x n
  search : ∀ e y, basicVfsSearchDir v (some e) y = basicVfsSearchDir h.tree (some e) y
  unread : ∀ e, ¬ v.Loaded n e
  known : ∀ st, answer = some st → Known st (v.shown n)

/-- A node that changes, and is not a directory that was read. -/
theorem asked_setNode (hg : Good h) (hgood : Good (h.setTree (v.setNode n N))) (hwf : WF (v.setNode n N))
    (hnodes : v.nodes = h.tree.nodes) (hnodeCount : v.nodeCount = h.tree.nodeCount) (hdirs : v.dirs = h.tree.dirs)
    (hdirCount : v.dirCount = h.tree.dirCount) (hname : N.name = (v.nodes n).name)
    (hfiles : ∀ f, f < h.tree.fileCount → (h.tree.files f).parent ≠ n → (v.files f).stated = (h.tree.files f).stated)
    (hunread : N.type = .dir → N.inode = none) {answer : Option Stat}
    (hknown : ∀ st, answer = some st → Known st ((v.setNode n N).shown n)) : Asked h (v.setNode n N) n answer := by
  have hnames : ∀ m, ((v.setNode n N).nodes m).name = (h.tree.nodes m).name := by
    intro m
    rw [Tree.setNode_name v hname, hnodes]
  refine ⟨hgood, hwf, hdirs, ?_, ?_, ?_, hknown⟩
  · refine Frame.of_node hg ?_ ?_ ?_ hnames ?_ ?_
    · exact hnodeCount
    · exact hdirs
    · exact hdirCount
    · intro m hmn
      rw [Tree.setNode_of_ne v N hmn, hnodes]
      exact ⟨rfl, rfl⟩
    · exact hfiles
  · intro e y
    show searchEntries (v.setNode n N).nodes y (v.slots e) = searchEntries h.tree.nodes y (h.tree.slots e)
    unfold Tree.slots
    rw [hdirs]
    exact searchEntries_congr y fun m _ => hnames m
  · intro e he
    unfold Tree.Loaded at he
    rw [Tree.setNode_self] at he
    exact absurd ((hunread he.1).symm.trans he.2) (by simp)

/-- **`statx` of a node without an inode.** -/
theorem stat_asked (hg : Good h) (hv : WF h.tree) (os : Os) (hn : h.LiveNode n) (hinode : (h.tree.nodes n).inode = none)
    (path : Bytes) : Asked h (basicVfsStat os h.tree n path).1 n (os.statx path) := by
  have hgood := (hg.stat os hn path).1
  have hwf := (basicVfsStat_spec os hv n path).1
  have hunread : ∀ e, ¬ h.tree.Loaded n e := fun e he => absurd (hinode.symm.trans he.2) (by simp)
  unfold basicVfsStat at hgood hwf ⊢
  rw [hinode] at hgood hwf ⊢
  dsimp only at hgood hwf ⊢
  cases hst : os.statx path with
  | none =>
      refine ⟨hg, hv, rfl, fun d x => ?_, fun _ _ => rfl, hunread, fun st h => absurd h (by simp)⟩
      exact Frame.of_node hg rfl rfl rfl (fun _ => rfl) (fun _ _ => ⟨rfl, rfl⟩) (fun _ _ _ => rfl) d x
  | some st =>
      rw [hst] at hgood hwf
      dsimp only at hgood hwf ⊢
      split
      · rename_i hdir
        rw [if_pos hdir] at hgood hwf
        refine asked_setNode hg hgood hwf rfl rfl rfl rfl rfl (fun _ _ _ => rfl) (fun _ => hinode) ?_
        rintro st' hst'
        obtain rfl := Option.some.inj hst'
        unfold Tree.shown Tree.fileInode
        rw [Tree.setNode_self]
        exact ⟨fun _ => decide_eq_true hdir, fun hf => absurd hf (by simp), fun t ht => absurd ht (by simp)⟩
      · rename_i hdir
        rw [if_neg hdir] at hgood hwf
        refine asked_setNode hg hgood hwf rfl rfl rfl rfl rfl ?_ (fun hd => absurd hd (by simp)) ?_
        · intro f hf _
          exact congrArg File.stated (Function.update_of_ne (Nat.ne_of_lt hf) _ _)
        · rintro st' hst'
          obtain rfl := Option.some.inj hst'
          unfold Tree.shown Tree.fileInode
          rw [Tree.setNode_self]
          refine ⟨fun hd => absurd hd (by simp), fun _ => decide_eq_false hdir, ?_⟩
          rintro t ht
          obtain rfl : _ = t := Option.some.inj ht
          exact congrArg File.stated (Function.update_self h.tree.fileCount _ h.tree.files)

/-- A file that no node has is freed. -/
theorem Good.freeFile (hg : Good h) {f : FileId} (hlt : f < h.tree.fileCount)
    (hno : ∀ m, h.LiveNode m → (h.tree.nodes m).type ≠ .dir → (h.tree.nodes m).inode ≠ some f) : Good (h.freeFile f) := by
  refine ⟨hg.root, hg.top, hg.entry, hg.once, hg.loaded, hg.loadedInj, ?_, hg.freshNode, hg.freshDir, ?_⟩
  · intro m g hm htype hinode
    obtain ⟨ht, hlive, hp⟩ := hg.file m g hm htype hinode
    have hne : g ≠ f := by
      rintro rfl
      exact hno m hm htype hinode
    exact ⟨ht, ⟨hlive.1, (Function.update_of_ne hne _ _).trans hlive.2⟩, hp⟩
  · intro g hg'
    exact (Function.update_of_ne (Nat.ne_of_gt (hlt.trans_le hg')) _ _).trans (hg.freshFile g hg')

/-- **A node loses its inode**, and is no directory that was read. -/
theorem freeInode_asked (hg : Good h) (hv : WF h.tree) (hn : h.LiveNode n) (hparent : (h.tree.nodes n).parent ≠ none)
    (hunread : ∀ e, ¬ h.tree.Loaded n e) :
    Good (freeInode h n) ∧ WF (freeInode h n).tree ∧ (∀ d x, Frame h (freeInode h n) d x n) ∧
      (∀ e y, basicVfsSearchDir (freeInode h n).tree (some e) y = basicVfsSearchDir h.tree (some e) y) ∧
      ((freeInode h n).tree.nodes n).inode = none ∧ (freeInode h n).freed.node = h.freed.node ∧
      (freeInode h n).freed.dir = h.freed.dir ∧ (freeInode h n).tree.dirs = h.tree.dirs := by
  let N : Node := { h.tree.nodes n with inode := none }
  have hbare : Good (h.setTree (h.tree.setNode n N)) := by
    apply hg.setNode
    · rfl
    · exact fun _ hp => absurd hp hparent
    · exact fun _ _ d hd => absurd hd (by simp [N])
    · exact fun _ _ f hf => absurd hf (by simp [N])
  have hwf : WF (h.tree.setNode n N) := by
    refine (hv.setNode (N := N) rfl rfl fun d => ?_).1
    exact ⟨fun hd => absurd hd.2 (by simp [N]), fun hd => absurd hd (hunread d)⟩
  have hasked : Asked h (h.tree.setNode n N) n none := by
    apply asked_setNode hg hbare hwf
    · rfl
    · rfl
    · rfl
    · rfl
    · rfl
    · exact fun _ _ _ => rfl
    · exact fun _ => rfl
    · exact fun st hst => absurd hst (by simp)
  have hself : ((h.tree.setNode n N).nodes n).inode = none := congrArg Node.inode (Tree.setNode_self _ _ _)
  unfold Vfs.freeInode
  dsimp only
  cases hinode : (h.tree.nodes n).inode with
  | none => exact ⟨hasked.good, hwf, hasked.frame, hasked.search, hself, rfl, rfl, rfl⟩
  | some f =>
      have htype : (h.tree.nodes n).type ≠ .dir := fun ht => hunread f ⟨ht, hinode⟩
      obtain ⟨-, hlive, hfile⟩ := hg.file n f hn htype hinode
      dsimp only
      rw [if_neg htype]
      refine ⟨?_, hwf, ?_, hasked.search, hself, rfl, rfl, rfl⟩
      · -- the inode was the node's alone
        apply hbare.freeFile hlive.1
        intro m hm hmtype hmf
        have hmn : m ≠ n := by
          rintro rfl
          exact absurd (hself.symm.trans hmf) (by simp)
        rw [show (h.setTree (h.tree.setNode n N)).tree.nodes m = h.tree.nodes m from Tree.setNode_of_ne _ _ hmn]
          at hmtype hmf
        exact hmn ((hg.file m f hm hmtype hmf).2.2.symm.trans hfile)
      · intro d x
        obtain ⟨h1, h2, h3, h4, h5, h6⟩ := hasked.frame d x
        exact ⟨h1, h2, h3, h4, h5, h6⟩

/-- **A new name**: a new node, which shows nothing yet. -/
structure Entered (h : Heap) (v : Tree) (d : DirId) (x : Bytes) (type : EntType) : Prop where
  good : Good (h.setTree v)
  wf : WF v
  frame : Frame h (h.setTree v) d x h.tree.nodeCount
  found : basicVfsSearchDir v (some d) x = some h.tree.nodeCount
  node : v.nodes h.tree.nodeCount = { type, parent := some d, name := x }
  live : (h.setTree v).LiveNode h.tree.nodeCount

theorem add_entered (hg : Good h) (hv : WF h.tree) (hd : h.LiveDir d) (type : EntType) (hx : ValidName x)
    (hs : basicVfsSearchDir h.tree (some d) x = none) :
    Entered h (basicVfsAdd h.tree d type x).1 d x type ∧ (basicVfsAdd h.tree d type x).2 = h.tree.nodeCount := by
  obtain ⟨ha, hn⟩ := basicVfsAdd_new hv type hs
  obtain ⟨hgrown, hlive, -⟩ := hg.add hd type x
  have hfiles : (basicVfsAdd h.tree d type x).1.files = h.tree.files := by
    unfold basicVfsAdd
    rw [hs]
    rfl
  refine ⟨⟨hgrown.1, ha.wf hv hd.1 rfl rfl hx hs, ?_, ha.search_new hv hs, ha.node_new, hn ▸ hlive⟩, hn⟩
  refine ⟨hgrown.2.nodeCount, ha.dirCount, ha.path, ?_, fun m hm hlt => ⟨hlt, hm.2⟩, ?_⟩
  · intro e y hne
    have hold : ∀ e, searchEntries (basicVfsAdd h.tree d type x).1.nodes y (h.tree.slots e) =
        searchEntries h.tree.nodes y (h.tree.slots e) := fun e => searchEntries_congr y fun m hm => ha.names_old hv hm
    show searchEntries (basicVfsAdd h.tree d type x).1.nodes y ((basicVfsAdd h.tree d type x).1.slots e) =
      searchEntries h.tree.nodes y (h.tree.slots e)
    by_cases hed : e = d
    · -- the new slot is the last one, and has another name
      rw [hed, ha.slots_new, searchEntries_append, hold]
      have hother : searchEntries (basicVfsAdd h.tree d type x).1.nodes y [some h.tree.nodeCount] = none := by
        have hxy : x ≠ y := fun heq => hne.elim (fun h => h hed) fun h => h heq.symm
        unfold searchEntries
        rw [ha.node_new]
        exact if_neg hxy
      rw [hother, Option.or_none]
    · rw [ha.slots_old e hed]
      exact hold e
  · intro m _ _ hmn
    have hnode := ha.node_old m hmn
    exact shown_eq (congrArg Node.type hnode) (congrArg Node.inode hnode) fun f _ => congrArg (fun F => (F f).stated) hfiles

/-! ## Deleting -/

/-- An entry that goes is missed under its own name only. By induction on the slots. -/
theorem searchEntries_clear {nodes : NodeId → Node} {es : List (Option NodeId)} (hi : es[i]? = some (some n))
    (hy : (nodes n).name ≠ y) : searchEntries nodes y (es.set i none) = searchEntries nodes y es := by
  induction es generalizing i with
  | nil => exact absurd hi (by simp)
  | cons e es ih =>
      cases i with
      | zero =>
          obtain rfl : e = some n := Option.some.inj hi
          exact (if_neg hy).symm
      | succ i =>
          rw [List.getElem?_cons_succ] at hi
          rw [List.set_cons_succ]
          cases e with
          | none => exact ih hi
          | some m =>
              unfold searchEntries
              rw [ih hi]

theorem findIdx_of_search {es : List (Option NodeId)} (hs : searchEntries v.nodes x es = some n) :
    ∃ i : Nat, es.findIdx? (entryNamed v x) = some i ∧ es[i]? = some (some n) := by
  induction es with
  | nil => exact absurd hs (by simp [searchEntries])
  | cons e es ih =>
      have hskip : entryNamed v x e = false → searchEntries v.nodes x es = some n →
          ∃ i : Nat, (e :: es).findIdx? (entryNamed v x) = some i ∧ (e :: es)[i]? = some (some n) := by
        intro he hs
        obtain ⟨i, hi, hn⟩ := ih hs
        refine ⟨i + 1, ?_, hn⟩
        rw [List.findIdx?_cons, he, if_neg Bool.false_ne_true, hi]
        rfl
      cases e with
      | none => exact hskip rfl hs
      | some m =>
          unfold searchEntries at hs
          by_cases hm : (v.nodes m).name = x
          · rw [if_pos hm] at hs
            have hnamed : entryNamed v x (some m) = true := decide_eq_true hm
            refine ⟨0, ?_, congrArg some hs⟩
            rw [List.findIdx?_cons, if_pos hnamed]
          · rw [if_neg hm] at hs
            exact hskip (decide_eq_false hm) hs

theorem unref_name (v : Tree) (n m : NodeId) : (((basicVfsUnref v n).getD v).nodes m).name = (v.nodes m).name := by
  have hnode := Tree.setNode_name v (n := n) (N := { v.nodes n with refcount := (v.nodes n).refcount - 1 }) rfl m
  unfold basicVfsUnref
  dsimp only
  split
  · cases ((v.setNode n { v.nodes n with refcount := (v.nodes n).refcount - 1 }).nodes n).inode with
    | none => rfl
    | some f => exact hnode
  · exact hnode

/-- Freeing changes no name. By induction on the depth. -/
theorem nodeFree_name (fuel : Nat) (h : Heap) (n m : NodeId) :
    ((basicVfsNodeFree fuel h n).tree.nodes m).name = (h.tree.nodes m).name := by
  induction fuel generalizing h n with
  | zero => rfl
  | succ fuel ih =>
      have hfold : ∀ (ms : List NodeId) (h : Heap),
          ((ms.foldl (basicVfsNodeFree fuel) h).tree.nodes m).name = (h.tree.nodes m).name := by
        intro ms
        induction ms with
        | nil => exact fun _ => rfl
        | cons k ms ihms => exact fun h => (ihms _).trans (ih h k)
      unfold basicVfsNodeFree
      dsimp only
      split
      · exact unref_name h.tree n m
      · exact unref_name h.tree n m
      · exact hfold _ h
      · rfl

/-- **An entry is taken out of a directory**, and the heap is still a tree. -/
theorem WF.cleared (hv : WF v) (hw : Alike v w) (hname : ∀ m, (w.nodes m).name = (v.nodes m).name)
    (hi : (v.slots d)[i]? = some (some n)) (honce : ∀ j, (v.slots d)[j]? = some (some n) → j = i) :
    WF (w.clearEntry d i) ∧ basicVfsSearchDir (w.clearEntry d i) (some d) (v.nodes n).name = none ∧
      ∀ e y, e ≠ d ∨ y ≠ (v.nodes n).name →
        basicVfsSearchDir (w.clearEntry d i) (some e) y = basicVfsSearchDir v (some e) y := by
  have hdir : ∀ e, e ≠ d → (w.clearEntry d i).dirs e = v.dirs e := by
    intro e hed
    rw [← hw.dirs]
    exact Function.update_of_ne hed _ _
  have hself : (w.clearEntry d i).dirs d = { v.dirs d with entries := (v.dirs d).entries.set i none } := by
    rw [← hw.dirs]
    exact Function.update_self _ _ _
  have hslots : (w.clearEntry d i).slots d = (v.slots d).set i none := by
    unfold Tree.slots
    rw [hself, List.take_set]
  have hother : ∀ e, e ≠ d → (w.clearEntry d i).slots e = v.slots e := by
    intro e hed
    unfold Tree.slots
    rw [hdir e hed]
  have hnode : ∀ m, (w.clearEntry d i).nodes m = w.nodes m := fun _ => rfl
  have hcongr : ∀ es y, searchEntries (w.clearEntry d i).nodes y es = searchEntries v.nodes y es := fun es y =>
    searchEntries_congr y fun m _ => hname m
  have hsearch : ∀ e y, e ≠ d ∨ y ≠ (v.nodes n).name →
      searchEntries (w.clearEntry d i).nodes y ((w.clearEntry d i).slots e) = searchEntries v.nodes y (v.slots e) := by
    intro e y hne
    by_cases hed : e = d
    · rw [hed, hslots, hcongr]
      exact searchEntries_clear hi fun heq => hne.elim (fun h => h hed) fun h => h heq.symm
    · rw [hother e hed, hcongr]
  -- what is left was there before, and is not the entry that went
  have hleft : ∀ e m, some m ∈ (w.clearEntry d i).slots e → some m ∈ v.slots e ∧ (e = d → m ≠ n) := by
    intro e m hm
    by_cases hed : e = d
    · rw [hed, hslots] at hm
      obtain ⟨j, hj⟩ := List.mem_iff_getElem?.mp hm
      rw [List.getElem?_set] at hj
      by_cases hij : i = j
      · rw [if_pos hij] at hj
        split at hj
        · exact absurd hj (by simp)
        · exact absurd hj (by simp)
      · rw [if_neg hij] at hj
        rw [hed]
        exact ⟨List.mem_of_getElem? hj, fun _ hmn => hij (honce j (hmn ▸ hj)).symm⟩
    · rw [hother e hed] at hm
      exact ⟨hm, fun h => absurd h hed⟩
  have hdistinct : ∀ m, some m ∈ v.slots d → (v.nodes m).name = (v.nodes n).name → m = n := by
    intro m hm heq
    have hsm := (hv.entry d m hm).2.2.2
    have hsn := (hv.entry d n (List.mem_of_getElem? hi)).2.2.2
    rw [heq] at hsm
    exact Option.some.inj (hsm.symm.trans hsn)
  have hpath : ∀ e, ((w.clearEntry d i).dirs e).path = (v.dirs e).path := by
    intro e
    by_cases hed : e = d
    · rw [hed, hself]
    · rw [hdir e hed]
  refine ⟨⟨?_, ?_, ?_, ?_, ?_, ?_, ?_, ?_, ?_, ?_, ?_⟩, ?_, fun e y hne => hsearch e y hne⟩
  · exact hw.root ▸ hw.nodeCount ▸ hv.root_lt
  · rw [show (w.clearEntry d i).root = v.root from hw.root, hnode, (hw.node _).2.2]
    exact hv.root_parent
  · obtain ⟨e, he, hp⟩ := hv.root_loaded
    rw [show (w.clearEntry d i).root = v.root from hw.root]
    exact ⟨e, hw.loaded.mpr he, (hpath e).trans hp⟩
  · intro e m hm
    obtain ⟨hold, hmn⟩ := hleft e m hm
    obtain ⟨h1, h2, h3, h4⟩ := hv.entry e m hold
    rw [hnode, (hw.node m).2.2, hname]
    refine ⟨hw.nodeCount.symm ▸ h1, h2, h3, ?_⟩
    rw [hsearch, h4]
    by_cases hed : e = d
    · refine .inr fun heq => hmn hed (hdistinct m (hed ▸ hold) heq)
    · exact .inl hed
  · intro m p hp
    rw [hnode, (hw.node m).2.2] at hp
    exact hw.dirCount.symm ▸ hv.parent_lt m p hp
  · intro m e he
    exact hw.dirCount.symm ▸ hv.loaded_lt m e (hw.loaded.mp he)
  · intro m e p he hp
    rw [hnode, (hw.node m).2.2] at hp
    rw [hpath, hpath, hnode, hname]
    exact hv.loaded_path m e p (hw.loaded.mp he) hp
  · intro m k e hm hk
    exact hv.loaded_inj m k e (hw.loaded.mp hm) (hw.loaded.mp hk)
  · intro e
    by_cases hed : e = d
    · rw [hed, hself]
      exact hv.used_eq d
    · rw [hdir e hed]
      exact hv.used_eq e
  · intro e
    by_cases hed : e = d
    · rw [hed, hself]
      exact hv.num_le d
    · rw [hdir e hed]
      exact hv.num_le e
  · intro e
    by_cases hed : e = d
    · rw [hed, hself]
      exact (List.length_set ..).trans (hv.max_eq d)
    · rw [hdir e hed]
      exact hv.max_eq e
  · show searchEntries (w.clearEntry d i).nodes (v.nodes n).name ((w.clearEntry d i).slots d) = none
    cases hs : searchEntries (w.clearEntry d i).nodes (v.nodes n).name ((w.clearEntry d i).slots d) with
    | none => rfl
    | some m =>
        obtain ⟨hm, heq⟩ := searchEntries_found hs
        obtain ⟨hold, hmn⟩ := hleft d m hm
        rw [hnode, hname] at heq
        exact absurd (hdistinct m hold heq) (hmn rfl)

/-- What a name leaves behind that is deleted. -/
structure Removed (h h' : Heap) (d : DirId) (x : Bytes) (n : NodeId) : Prop where
  good : Good h'
  wf : WF h'.tree
  frame : Frame h h' d x n
  missing : basicVfsSearchDir h'.tree (some d) x = none
  dir : ∀ e, h.LiveDir e → ¬ h.tree.Loaded n e → h'.LiveDir e
  back : ∀ e, h'.LiveDir e → h.LiveDir e
  cleared : ∃ i : Nat, ∃ w : Tree, w.dirs = h.tree.dirs ∧ h'.tree = w.clearEntry d i

/-- **`basic_vfs_delete` of a name that is there**, of a file or of a directory that holds nothing. -/
theorem delete_removed (hg : Good h) (hv : WF h.tree) (hd : h.LiveDir d)
    (hs : basicVfsSearchDir h.tree (some d) x = some n)
    (hempty : ∀ e, h.tree.Loaded n e → ∀ m, some m ∉ (h.tree.dirs e).entries) :
    Removed h (basicVfsDelete h d x) d x n := by
  have hslots : searchEntries h.tree.nodes x (h.tree.slots d) = some n := hs
  obtain ⟨i, hfind, hi⟩ := findIdx_of_search hslots
  obtain ⟨-, hx⟩ := searchEntries_found hslots
  have hentry : (h.tree.dirs d).entries[i]? = some (some n) := by
    have htake := hi
    unfold Tree.slots at htake
    rw [List.getElem?_take] at htake
    split at htake
    · exact htake
    · exact absurd htake (by simp)
  have heq : basicVfsDelete h d x =
      (basicVfsNodeFree (h.tree.nodeCount + 1) h n).setTree
        ((basicVfsNodeFree (h.tree.nodeCount + 1) h n).tree.clearEntry d i) := by
    unfold Tree.slots at hfind
    unfold basicVfsDelete
    dsimp only
    rw [hfind]
    dsimp only
    rw [hentry]
  have hc := nodeFree_clears (h.tree.nodeCount + 1) h n
  have hfreed := nodeFree_freed h.tree.nodeCount h n
  have hname := nodeFree_name (h.tree.nodeCount + 1) h n
  generalize basicVfsNodeFree (h.tree.nodeCount + 1) h n = h' at hc hfreed hname heq
  rw [heq]
  have hgood := hg.cleared hd hentry hc hfreed
  have honce : ∀ j, (h.tree.slots d)[j]? = some (some n) → j = i := by
    intro j hj
    unfold Tree.slots at hj
    rw [List.getElem?_take] at hj
    split at hj
    · exact hg.once d hd j i n hj hentry
    · exact absurd hj (by simp)
  obtain ⟨hwf, hmissing, hsearch⟩ := hv.cleared hc.alike hname hi honce
  -- nothing is below the node
  have hbelow : ∀ m, h.tree.Below n m → m = n := by
    intro m hm
    induction hm with
    | refl => rfl
    | entry _ hloaded hmem ih => exact absurd hmem (hempty _ (ih ▸ hloaded) _)
  refine ⟨hgood, hwf, ⟨hc.alike.nodeCount.ge, hc.alike.dirCount, ?_, ?_, fun m hm _ => hc.live_node hm, ?_⟩, ?_, ?_, ?_,
    i, h'.tree, hc.alike.dirs, rfl⟩
  · intro e
    show ((h'.tree.clearEntry d i).dirs e).path = _
    by_cases hed : e = d
    · rw [hed]
      exact (congrArg Dir.path (Function.update_self _ _ _)).trans (congrArg (fun dirs => (dirs d).path) hc.alike.dirs)
    · exact (congrArg Dir.path (Function.update_of_ne hed _ _)).trans (congrArg (fun dirs => (dirs e).path) hc.alike.dirs)
  · intro e y hne
    exact hsearch e y (hx ▸ hne)
  · intro m hm hm' hmn
    refine shown_eq (hc.alike.node m).1 (hc.alike.node m).2.1 fun f hf => ?_
    have hf' : (h'.tree.clearEntry d i).fileInode m = some f := (hc.alike.fileInode (n := m)).trans hf
    exact congrArg File.stated (hc.files f (hgood.fileInode hm' hf').1.2)
  · exact hx ▸ hmissing
  · intro e he hloaded
    refine ⟨hc.alike.dirCount ▸ he.1, ?_⟩
    by_contra hne
    have hef : h'.freed.dir e = true := Bool.not_eq_false _ ▸ hne
    rcases hc.dir e hef with hold | ⟨p, ⟨s, rfl, hp⟩, hl, -⟩
    · exact absurd hold (by simp [he.2])
    · exact hloaded (hbelow p hp ▸ hl)
  · exact fun e he => hc.live_dir he

/-! ## Reading a directory -/

/-- What the kernel lists is what is there: `entry` says what `statx` says of a name, and `none` for a name that is not there. -/
structure Lists (dents : List Dirent) (entry : Bytes → Option Stat) : Prop where
  listed : ∀ x st, entry x = some st → ∃ e ∈ dents, e.name = x ∧ e.type ≠ .other ∧ x ≠ bytes "." ∧ x ≠ bytes ".."
  there : ∀ e ∈ dents, e.type ≠ .other → e.name ≠ bytes "." → e.name ≠ bytes ".." → ∃ st, entry e.name = some st ∧
    (e.type = .dir → st.isDir = true) ∧ (e.type = .reg → st.isDir = false)

/-- What is in the directory `d` so far, of the names that were listed. -/
structure ReadSoFar (v : Tree) (d : DirId) (dents : List Dirent) (entry : Bytes → Option Stat) : Prop where
  found : ∀ x n, basicVfsSearchDir v (some d) x = some n → ∃ st, entry x = some st ∧ Known st (v.shown n) ∧ ∀ e, ¬ v.Loaded n e
  all : ∀ e ∈ dents, e.type ≠ .other → e.name ≠ bytes "." → e.name ≠ bytes ".." →
    basicVfsSearchDir v (some d) e.name ≠ none

/-- What a search finds in a directory that is there, is there, and is that directory's. -/
theorem search_entry (hg : Good h) (hd : h.LiveDir d) (hs : basicVfsSearchDir h.tree (some d) x = some n) :
    h.LiveNode n ∧ (h.tree.nodes n).parent = some d ∧ (h.tree.nodes n).name = x := by
  obtain ⟨hmem, hname⟩ := search_mem hs
  obtain ⟨hlive, hparent⟩ := hg.entry d hd n hmem
  exact ⟨hlive, hparent, hname⟩

theorem search_valid (hv : WF h.tree) (hs : basicVfsSearchDir h.tree (some d) x = some n) : ValidName x := by
  obtain ⟨hmem, rfl⟩ := searchEntries_found hs
  exact (hv.entry d n hmem).2.2.1

/-- `basic_vfs_get_file` asks about an entry, or changes nothing. -/
theorem getFile_asked (hg : Good h) (hv : WF h.tree) (os : Os) (hd : h.LiveDir d)
    (hs : basicVfsSearchDir h.tree (some d) x = some n) : (basicVfsGetFile os h.tree n).1 = h.tree ∨
      Asked h (basicVfsGetFile os h.tree n).1 n (os.statx ((h.tree.dirs d).path ++ 47 :: x)) := by
  obtain ⟨hn, hparent, hname⟩ := search_entry hg hd hs
  unfold basicVfsGetFile
  split
  · exact .inl rfl
  split
  · exact .inl rfl
  · rename_i hinode
    rw [hparent, hname]
    exact .inr (stat_asked hg hv os hn hinode _)

variable {dents : List Dirent} {entry : Bytes → Option Stat}

/-- One of the entries was asked about. -/
theorem ReadSoFar.asked (hr : ReadSoFar h.tree d dents entry) (hg : Good h) (hd : h.LiveDir d)
    (hs : basicVfsSearchDir h.tree (some d) x = some n) (ha : Asked h v n (entry x)) : ReadSoFar v d dents entry := by
  refine ⟨?_, ?_⟩
  · intro y m hm
    rw [ha.search] at hm
    obtain ⟨st, hst, hknown, hunread⟩ := hr.found y m hm
    by_cases hmn : m = n
    · rw [hmn] at hm ⊢
      obtain rfl : y = x := (search_entry hg hd hm).2.2.symm.trans (search_entry hg hd hs).2.2
      exact ⟨st, hst, ha.known st hst, ha.unread⟩
    · have hlive := (search_entry hg hd hm).1
      have hshown := (ha.frame d x).shown m hlive ⟨hlive.1.trans_le (ha.frame d x).nodeCount, hlive.2⟩ hmn
      refine ⟨st, hst, hshown ▸ hknown, fun e he => hunread e ((shown_loaded hshown).mp he)⟩
  · intro e he htype hdot hdots
    rw [ha.search]
    exact hr.all e he htype hdot hdots

/-- One more entry. -/
theorem ReadSoFar.entered {type : EntType} (hr : ReadSoFar h.tree d dents entry) (hg : Good h) (hd : h.LiveDir d)
    (he : Entered h v d x type) {st : Stat} (hst : entry x = some st) (hknown : Known st (type, none, none)) :
    ReadSoFar v d dents entry := by
  have hshown : v.shown h.tree.nodeCount = (type, none, none) := by
    have hnone : v.fileInode h.tree.nodeCount = none := by
      unfold Tree.fileInode
      rw [he.node]
      exact ite_self _
    unfold Tree.shown
    rw [hnone, he.node]
    rfl
  refine ⟨?_, ?_⟩
  · intro y m hm
    by_cases hyx : y = x
    · rw [hyx] at hm ⊢
      obtain rfl : h.tree.nodeCount = m := Option.some.inj (he.found.symm.trans hm)
      refine ⟨st, hst, hshown ▸ hknown, fun e hl => ?_⟩
      have hinode := hl.2
      rw [he.node] at hinode
      exact absurd hinode (by simp)
    · rw [show basicVfsSearchDir v (some d) y = basicVfsSearchDir h.tree (some d) y from he.frame.search d y (.inr hyx)] at hm
      obtain ⟨st', hst', hknown', hunread⟩ := hr.found y m hm
      have hlive := (search_entry hg hd hm).1
      have hsame : v.shown m = h.tree.shown m :=
        he.frame.shown m hlive ⟨hlive.1.trans_le he.frame.nodeCount, hlive.2⟩ (Nat.ne_of_lt hlive.1)
      exact ⟨st', hst', hsame ▸ hknown', fun e hl => hunread e ((shown_loaded hsame).mp hl)⟩
  · intro e hmem htype hdot hdots
    by_cases hyx : e.name = x
    · rw [hyx, he.found]
      simp
    · rw [show basicVfsSearchDir v (some d) e.name = basicVfsSearchDir h.tree (some d) e.name from
        he.frame.search d e.name (.inr hyx)]
      exact hr.all e hmem htype hdot hdots

/-- A call that is about the entries of the directory `d`. -/
structure Apart (h : Heap) (v : Tree) (d : DirId) : Prop where
  nodeCount : h.tree.nodeCount ≤ v.nodeCount
  dirCount : v.dirCount = h.tree.dirCount
  path : ∀ e, (v.dirs e).path = (h.tree.dirs e).path
  search : ∀ e y, e ≠ d → basicVfsSearchDir v (some e) y = basicVfsSearchDir h.tree (some e) y
  shown : ∀ m, h.LiveNode m → (h.tree.nodes m).parent ≠ some d →
    v.shown m = h.tree.shown m ∧ (v.nodes m).parent = (h.tree.nodes m).parent

theorem Apart.refl (h : Heap) (d : DirId) : Apart h h.tree d :=
  ⟨le_rfl, rfl, fun _ => rfl, fun _ _ _ => rfl, fun _ _ _ => ⟨rfl, rfl⟩⟩

theorem Apart.trans (hv : Apart h v d) (hw : Apart (h.setTree v) w d) : Apart h w d where
  nodeCount := hv.nodeCount.trans hw.nodeCount
  dirCount := hw.dirCount.trans hv.dirCount
  path e := (hw.path e).trans (hv.path e)
  search e y hed := (hw.search e y hed).trans (hv.search e y hed)
  shown m hm hp := by
    obtain ⟨hs, hp'⟩ := hv.shown m hm hp
    obtain ⟨hs', hp''⟩ := hw.shown m ⟨hm.1.trans_le hv.nodeCount, hm.2⟩ (fun h => hp (hp'.symm.trans h))
    exact ⟨hs'.trans hs, hp''.trans hp'⟩

/-- The node of the call is in the directory, or is new. -/
theorem Frame.apart (hf : Frame h (h.setTree v) d x n) (hext : Ext h.tree v)
    (hn : h.LiveNode n → (h.tree.nodes n).parent = some d) : Apart h v d where
  nodeCount := hf.nodeCount
  dirCount := hf.dirCount
  path := hf.path
  search e y hed := hf.search e y (.inl hed)
  shown m hm hp := by
    have hmn : m ≠ n := by
      rintro rfl
      exact hp (hn hm)
    exact ⟨hf.shown m hm ⟨hm.1.trans_le hf.nodeCount, hm.2⟩ hmn, hext.parent m hm.1⟩

theorem add_read (hg : Good h) (hv : WF h.tree) (hd : h.LiveDir d) (type : EntType) (hx : ValidName x)
    (hr : ReadSoFar h.tree d dents entry) {st : Stat} (hst : entry x = some st) (hknown : Known st (type, none, none)) :
    ReadSoFar (basicVfsAdd h.tree d type x).1 d dents entry ∧ Apart h (basicVfsAdd h.tree d type x).1 d ∧
      Good (h.setTree (basicVfsAdd h.tree d type x).1) ∧ WF (basicVfsAdd h.tree d type x).1 ∧
      (h.setTree (basicVfsAdd h.tree d type x).1).LiveDir d ∧
      basicVfsSearchDir (basicVfsAdd h.tree d type x).1 (some d) x = some (basicVfsAdd h.tree d type x).2 := by
  obtain ⟨hwf, hext, hfound⟩ := basicVfsAdd_spec hv hd.1 type hx
  have hgrown := (hg.add hd type x).1
  refine ⟨?_, ?_, hgrown.1, hwf, hd.grow hgrown, hfound⟩
  · cases hs : basicVfsSearchDir h.tree (some d) x with
    | some n =>
        rw [add_present type hs]
        exact hr
    | none => exact hr.entered hg hd (add_entered hg hv hd type hx hs).1 hst hknown
  · cases hs : basicVfsSearchDir h.tree (some d) x with
    | some n =>
        rw [add_present type hs]
        exact Apart.refl h d
    | none => exact (add_entered hg hv hd type hx hs).1.frame.apart hext fun hn => absurd hn.1 (lt_irrefl _)

variable (os) in
theorem getFile_read (hg : Good h) (hv : WF h.tree) (hd : h.LiveDir d) (hs : basicVfsSearchDir h.tree (some d) x = some n)
    (hr : ReadSoFar h.tree d dents entry) (hstatx : os.statx ((h.tree.dirs d).path ++ 47 :: x) = entry x) :
    ReadSoFar (basicVfsGetFile os h.tree n).1 d dents entry ∧ Apart h (basicVfsGetFile os h.tree n).1 d ∧
      basicVfsSearchDir (basicVfsGetFile os h.tree n).1 (some d) x = some n := by
  rcases getFile_asked hg hv os hd hs with heq | ha
  · rw [heq]
    exact ⟨hr, Apart.refl h d, hs⟩
  · rw [hstatx] at ha
    refine ⟨hr.asked hg hd hs ha, ?_, (ha.search d x).trans hs⟩
    exact (ha.frame d x).apart (basicVfsGetFile_spec os hv n).2 fun _ => (search_entry hg hd hs).2.1

/-- **One round of the `readdir` loop.** -/
theorem addDirent_read (hg : Good h) (hv : WF h.tree) (hd : h.LiveDir d)
    (hstatx : ∀ x, ValidName x → os.statx ((h.tree.dirs d).path ++ 47 :: x) = entry x) (hr : ReadSoFar h.tree d dents entry)
    (e : Dirent) (hthere : e.type ≠ .other → e.name ≠ bytes "." → e.name ≠ bytes ".." → ∃ st, entry e.name = some st ∧
      (e.type = .dir → st.isDir = true) ∧ (e.type = .reg → st.isDir = false)) :
    ReadSoFar (addDirent os d h.tree e) d (dents ++ [e]) entry ∧ Apart h (addDirent os d h.tree e) d := by
  have hmore : ∀ v : Tree, ReadSoFar v d dents entry →
      (e.type ≠ .other → e.name ≠ bytes "." → e.name ≠ bytes ".." → basicVfsSearchDir v (some d) e.name ≠ none) →
      ReadSoFar v d (dents ++ [e]) entry := by
    intro v hv hthis
    refine ⟨hv.found, fun e' hmem => ?_⟩
    rcases List.mem_append.mp hmem with hold | hnew
    · exact hv.all e' hold
    · obtain rfl := List.mem_singleton.mp hnew
      exact hthis
  -- what is added, and then asked about
  have hget : ∀ type, (∀ st, entry e.name = some st → Known st (type, none, none)) → e.type ≠ .other →
      e.name ≠ bytes "." → e.name ≠ bytes ".." →
      let a := basicVfsAdd h.tree d type e.name
      ReadSoFar (basicVfsGetFile os a.1 a.2).1 d (dents ++ [e]) entry ∧ Apart h (basicVfsGetFile os a.1 a.2).1 d := by
    intro type hknown htype hdot hdots
    obtain ⟨st, hst, -⟩ := hthere htype hdot hdots
    obtain ⟨hr', hapart, hg', hv', hd', hfound⟩ := add_read hg hv hd type e.valid hr hst (hknown st hst)
    obtain ⟨hr'', hapart', hfound'⟩ := getFile_read os hg' hv' hd' hfound hr' (by
      rw [show ((h.setTree (basicVfsAdd h.tree d type e.name).1).tree.dirs d).path = (h.tree.dirs d).path from
        hapart.path d]
      exact hstatx e.name e.valid)
    exact ⟨hmore _ hr'' fun _ _ _ hnone => absurd (hfound'.symm.trans hnone) (by simp), hapart.trans hapart'⟩
  unfold addDirent
  split
  · rename_i hdots
    refine ⟨hmore _ hr fun _ hdot hdot' => ?_, Apart.refl h d⟩
    exact absurd hdots (by simp [hdot, hdot'])
  rename_i hnodots
  rw [not_or] at hnodots
  split
  · rename_i htype
    have hother : e.type ≠ .other := by simp [htype]
    obtain ⟨st, hst, hdir, -⟩ := hthere hother hnodots.1 hnodots.2
    obtain ⟨hr', hapart, -, -, -, hfound⟩ := add_read hg hv hd .dir e.valid hr hst
      ⟨fun _ => hdir htype, fun hf => absurd hf (by simp), fun t ht => absurd ht (by simp)⟩
    refine ⟨hmore _ hr' fun _ _ _ => ?_, hapart⟩
    rw [hfound]
    simp
  · rename_i htype
    have hother : e.type ≠ .other := by simp [htype]
    obtain ⟨st, hst, -, hreg⟩ := hthere hother hnodots.1 hnodots.2
    refine hget .file (fun st' hst' => ?_) hother hnodots.1 hnodots.2
    obtain rfl := Option.some.inj (hst.symm.trans hst')
    exact ⟨fun hf => absurd hf (by simp), fun _ => hreg htype, fun t ht => absurd ht (by simp)⟩
  · rename_i htype
    refine hget .none (fun st _ => ?_) (by simp [htype]) hnodots.1 hnodots.2
    exact ⟨fun hf => absurd hf (by simp), fun hf => absurd hf (by simp), fun t ht => absurd ht (by simp)⟩
  · rename_i htype
    exact ⟨hmore _ hr fun hother => absurd htype hother, Apart.refl h d⟩

variable (os) in
/-- **The loop**, by induction on what is still to be read. -/
theorem readdir_read (hg : Good h) (hv : WF h.tree) (hd : h.LiveDir d)
    (hstatx : ∀ x, ValidName x → os.statx ((h.tree.dirs d).path ++ 47 :: x) = entry x) {more : List Dirent}
    (hthere : ∀ e ∈ more, e.type ≠ .other → e.name ≠ bytes "." → e.name ≠ bytes ".." → ∃ st, entry e.name = some st ∧
      (e.type = .dir → st.isDir = true) ∧ (e.type = .reg → st.isDir = false)) (hr : ReadSoFar h.tree d dents entry) :
    ReadSoFar (more.foldl (addDirent os d) h.tree) d (dents ++ more) entry ∧
      Apart h (more.foldl (addDirent os d) h.tree) d := by
  induction more generalizing h dents with
  | nil =>
      rw [List.append_nil]
      exact ⟨hr, Apart.refl h d⟩
  | cons e more ih =>
      obtain ⟨hr', hapart⟩ := addDirent_read hg hv hd hstatx hr e (hthere e List.mem_cons_self)
      have hgrown := hg.addDirent os hd e
      have hpath : ((h.setTree (addDirent os d h.tree e)).tree.dirs d).path = (h.tree.dirs d).path := hapart.path d
      obtain ⟨hall, hrest⟩ := ih hgrown.1 (addDirent_spec os hv hd.1 e).1 (hd.grow hgrown) (hpath ▸ hstatx)
        (fun e he => hthere e (List.mem_cons_of_mem _ he)) hr'
      rw [List.append_assoc] at hall
      exact ⟨hall, hapart.trans hrest⟩

/-- What is there after the directory node `n` was looked into for the first time: its inode is the new one, and the rest of
    the tree is as it was. -/
structure Opened (h : Heap) (v : Tree) (n : NodeId) (p : DirId) : Prop where
  good : Good (h.setTree v)
  wf : WF v
  nodeCount : h.tree.nodeCount ≤ v.nodeCount
  dirCount : v.dirCount = h.tree.dirCount + 1
  path : (v.dirs h.tree.dirCount).path = (h.tree.dirs p).path ++ (h.tree.nodes n).name ++ [47]
  paths : ∀ e, e < h.tree.dirCount → (v.dirs e).path = (h.tree.dirs e).path
  search : ∀ e y, e < h.tree.dirCount → basicVfsSearchDir v (some e) y = basicVfsSearchDir h.tree (some e) y
  shown : ∀ m, h.LiveNode m → m ≠ n → v.shown m = h.tree.shown m
  node : v.shown n = (.dir, some h.tree.dirCount, none)

theorem opened_dir (v : Tree) (n : NodeId) (p : DirId) : (v.opened n p).dirs v.dirCount =
    { parent := some p, path := (v.dirs p).path ++ (v.nodes n).name ++ [47] } := Function.update_self _ _ _

theorem opened_shown (p : DirId) (htype : (h.tree.nodes n).type = .dir) :
    (∀ e y, e < h.tree.dirCount → basicVfsSearchDir (h.tree.opened n p) (some e) y = basicVfsSearchDir h.tree (some e) y) ∧
      (∀ m, m ≠ n → (h.tree.opened n p).shown m = h.tree.shown m) ∧
      (h.tree.opened n p).shown n = (.dir, some h.tree.dirCount, none) ∧
      (∀ y, basicVfsSearchDir (h.tree.opened n p) (some h.tree.dirCount) y = none) := by
  have hself : (h.tree.opened n p).nodes n = { h.tree.nodes n with inode := some h.tree.dirCount } :=
    Function.update_self _ _ _
  have hother : ∀ m, m ≠ n → (h.tree.opened n p).nodes m = h.tree.nodes m := fun m hmn => Function.update_of_ne hmn _ _
  refine ⟨?_, ?_, ?_, ?_⟩
  · intro e y he
    have hdir : (h.tree.opened n p).slots e = h.tree.slots e := by
      unfold Tree.slots
      rw [show (h.tree.opened n p).dirs e = h.tree.dirs e from Function.update_of_ne (Nat.ne_of_lt he) _ _]
    show searchEntries (h.tree.opened n p).nodes y ((h.tree.opened n p).slots e) = _
    rw [hdir]
    refine searchEntries_congr y fun m _ => ?_
    by_cases hmn : m = n
    · rw [hmn, hself]
    · rw [hother m hmn]
  · intro m hmn
    have hnode := hother m hmn
    exact shown_eq (congrArg Node.type hnode) (congrArg Node.inode hnode) fun _ _ => rfl
  · unfold Tree.shown Tree.fileInode
    rw [hself]
    dsimp only
    rw [htype, if_neg (by simp)]
    rfl
  · intro y
    have hdir : (h.tree.opened n p).slots h.tree.dirCount = [] := by
      unfold Tree.slots
      rw [opened_dir]
      rfl
    show searchEntries (h.tree.opened n p).nodes y ((h.tree.opened n p).slots h.tree.dirCount) = none
    rw [hdir]
    rfl

/-- **A directory is looked into for the first time**, and then holds what the kernel lists. -/
theorem getDir_read (hg : Good h) (hv : WF h.tree) (os : Os) {p : DirId} (hn : h.LiveNode n)
    (htype : (h.tree.nodes n).type = .dir) (hinode : (h.tree.nodes n).inode = none)
    (hparent : (h.tree.nodes n).parent = some p)
    (hstatx : ∀ x, ValidName x → os.statx ((h.tree.dirs p).path ++ (h.tree.nodes n).name ++ [47] ++ 47 :: x) = entry x)
    (hlists : ∀ dents, os.readDir ((h.tree.dirs p).path ++ (h.tree.nodes n).name ++ [47]) = some dents → Lists dents entry) :
    Opened h (basicVfsGetDir os h.tree n).1 n p ∧
      (os.readDir ((h.tree.dirs p).path ++ (h.tree.nodes n).name ++ [47]) = none →
        ∀ y, basicVfsSearchDir (basicVfsGetDir os h.tree n).1 (some h.tree.dirCount) y = none) ∧
      ∀ dents, os.readDir ((h.tree.dirs p).path ++ (h.tree.nodes n).name ++ [47]) = some dents →
        ReadSoFar (basicVfsGetDir os h.tree n).1 h.tree.dirCount dents entry := by
  have hgood := ((hg.getDir os hn).1).1
  have hwf := (basicVfsGetDir_spec os hv hn.1).1
  obtain ⟨hopened, hlive⟩ := hg.opened (p := p) htype hinode
  obtain ⟨howf, -⟩ := opened_spec hv htype hinode hparent
  obtain ⟨hsearch, hshown, hnode, hempty⟩ := opened_shown p htype
  have hpath : ((h.tree.opened n p).dirs h.tree.dirCount).path = (h.tree.dirs p).path ++ (h.tree.nodes n).name ++ [47] := by
    rw [opened_dir]
  have hpaths : ∀ e, e < h.tree.dirCount → ((h.tree.opened n p).dirs e).path = (h.tree.dirs e).path := fun e he =>
    congrArg Dir.path (Function.update_of_ne (Nat.ne_of_lt he) _ _)
  rw [basicVfsGetDir_load os htype hinode hparent] at hgood hwf ⊢
  cases hread : os.readDir ((h.tree.dirs p).path ++ (h.tree.nodes n).name ++ [47]) with
  | none =>
      rw [hread] at hgood hwf
      dsimp only at hgood hwf ⊢
      have hquiet := quiet_setNode hopened.1 howf { (h.tree.opened n p).nodes n with forbidden := true } rfl rfl rfl rfl
      refine ⟨⟨hgood, hwf, le_rfl, rfl, hpath, hpaths, ?_, ?_, ?_⟩, ?_, fun dents hdents => absurd hdents (by simp)⟩
      · exact fun e y he => hquiet.search.trans (hsearch e y he)
      · exact fun m _ hmn => (hquiet.shown m).trans (hshown m hmn)
      · exact (hquiet.shown n).trans hnode
      · exact fun _ y => hquiet.search.trans (hempty y)
  | some dents =>
      rw [hread] at hgood hwf
      dsimp only at hgood hwf ⊢
      obtain ⟨hlisted, hthere⟩ := hlists dents hread
      have hstart : ReadSoFar (h.setTree (h.tree.opened n p)).tree h.tree.dirCount [] entry := by
        refine ⟨fun x m hm => ?_, fun e he => absurd he (by simp)⟩
        exact absurd ((hempty x).symm.trans hm) (by simp)
      obtain ⟨hr, hapart⟩ := readdir_read os hopened.1 howf hlive (hpath ▸ hstatx) hthere hstart
      refine ⟨⟨hgood, hwf, hapart.nodeCount, hapart.dirCount, (hapart.path _).trans hpath, ?_, ?_, ?_, ?_⟩, ?_, ?_⟩
      · exact fun e he => (hapart.path e).trans (hpaths e he)
      · exact fun e y he => (hapart.search e y (Nat.ne_of_lt he)).trans (hsearch e y he)
      · intro m hm hmn
        have hparentm : ((h.tree.opened n p).nodes m).parent ≠ some h.tree.dirCount := by
          rw [show (h.tree.opened n p).nodes m = h.tree.nodes m from Function.update_of_ne hmn _ _]
          exact fun hp => absurd (hv.parent_lt m _ hp) (lt_irrefl _)
        exact (hapart.shown m hm hparentm).1.trans (hshown m hmn)
      · have hparentn : ((h.tree.opened n p).nodes n).parent ≠ some h.tree.dirCount := by
          rw [show (h.tree.opened n p).nodes n = { h.tree.nodes n with inode := some h.tree.dirCount } from
            Function.update_self _ _ _]
          exact fun hp => absurd (hv.parent_lt n _ hp) (lt_irrefl _)
        exact (hapart.shown n hn hparentn).1.trans hnode
      · exact fun hnone => absurd hnone (by simp)
      · rintro dents' hdents'
        obtain rfl := Option.some.inj hdents'
        exact hr

/-! ## Behind the slots -/

/-- The slots that `num` does not count are free. -/
def Tail (v : Tree) : Prop := ∀ e i m, v.EntryAt e i m → i < (v.dirs e).num

theorem Tail.congr (ht : Tail v) (hdirs : w.dirs = v.dirs) : Tail w := by
  intro e i m hm
  unfold Tree.EntryAt at hm
  rw [hdirs] at hm ⊢
  exact ht e i m hm

/-- A directory in which nothing is found holds nothing. -/
theorem Tail.empty (ht : Tail v) (hv : WF v) (hnone : ∀ y, basicVfsSearchDir v (some e) y = none) (m : NodeId) :
    some m ∉ (v.dirs e).entries := by
  intro hm
  obtain ⟨i, hi⟩ := List.mem_iff_getElem?.mp hm
  have hslot : some m ∈ v.slots e := by
    apply List.mem_of_getElem? (i := i)
    unfold Tree.slots
    rw [List.getElem?_take, if_pos (ht e i m hi)]
    exact hi
  exact absurd ((hnone _).symm.trans (hv.entry e m hslot).2.2.2) (by simp)

theorem Tail.add (ht : Tail v) (hv : WF v) (d : DirId) (type : EntType) (x : Bytes) : Tail (basicVfsAdd v d type x).1 := by
  unfold basicVfsAdd
  split
  · exact ht
  · -- the new entry is in the slot that is counted now
    have hslot : addSlot (v.dirs d) = ((v.dirs d).num, (v.dirs d).num + 1) := by
      unfold addSlot
      rw [if_neg (by rw [hv.used_eq]; exact Nat.lt_irrefl _)]
    dsimp only
    intro e i m hm
    rw [hslot] at hm ⊢
    unfold Tree.EntryAt at hm
    by_cases hed : e = d
    · rw [hed] at hm ⊢
      have hm' : ((growEntries (v.dirs d) ((v.dirs d).num + 1)).2.set (v.dirs d).num (some v.nodeCount))[i]? =
          some (some m) := (congrArg (fun D => D.entries[i]?) (Function.update_self d _ v.dirs)).symm.trans hm
      show i < (Function.update v.dirs d _ d).num
      rw [Function.update_self]
      rw [List.getElem?_set] at hm'
      by_cases hi : (v.dirs d).num = i
      · exact hi ▸ Nat.lt_succ_self _
      · rw [if_neg hi, growEntries_get] at hm'
        exact Nat.lt_succ_of_lt (ht d i m hm')
    · have hdir : ∀ D, (((v.newNode { type, parent := some d, name := x }).1.setDir d D).dirs e) = v.dirs e := fun D =>
        Function.update_of_ne hed _ _
      rw [hdir] at hm ⊢
      exact ht e i m hm

theorem stat_dirs (os : Os) (v : Tree) (n : NodeId) (path : Bytes) : (basicVfsStat os v n path).1.dirs = v.dirs := by
  unfold basicVfsStat
  split
  · rfl
  split
  · rfl
  split
  · rfl
  · rfl

theorem getFile_dirs (os : Os) (v : Tree) (n : NodeId) : (basicVfsGetFile os v n).1.dirs = v.dirs := by
  unfold basicVfsGetFile
  split
  · rfl
  split
  · rfl
  split
  · rfl
  · exact stat_dirs os v n _

theorem Tail.readdir (ht : Tail v) (hv : WF v) (hd : d < v.dirCount) (os : Os) (dents : List Dirent) :
    Tail (dents.foldl (addDirent os d) v) := by
  induction dents generalizing v with
  | nil => exact ht
  | cons e dents ih =>
      obtain ⟨hwf, hext⟩ := addDirent_spec os hv hd e
      refine ih ?_ hwf (hd.trans_le hext.dirCount)
      have hget : ∀ type, Tail (basicVfsGetFile os (basicVfsAdd v d type e.name).1 (basicVfsAdd v d type e.name).2).1 :=
        fun type => (ht.add hv d type e.name).congr (getFile_dirs os _ _)
      unfold addDirent
      split
      · exact ht
      split
      · exact ht.add hv d .dir e.name
      · exact hget .file
      · exact hget .none
      · exact ht

theorem Tail.getDir (ht : Tail v) (hv : WF v) (os : Os) {p : DirId} (htype : (v.nodes n).type = .dir)
    (hinode : (v.nodes n).inode = none) (hparent : (v.nodes n).parent = some p) : Tail (basicVfsGetDir os v n).1 := by
  have hopened : Tail (v.opened n p) := by
    intro e i m hm
    unfold Tree.EntryAt at hm
    by_cases hed : e = v.dirCount
    · rw [hed, opened_dir] at hm
      exact absurd hm (by simp)
    · rw [show (v.opened n p).dirs e = v.dirs e from Function.update_of_ne hed _ _] at hm ⊢
      exact ht e i m hm
  rw [basicVfsGetDir_load os htype hinode hparent]
  split
  · exact hopened.congr rfl
  · exact hopened.readdir (opened_spec hv htype hinode hparent).1 (Nat.lt_succ_self _) os _

theorem Tail.clear (ht : Tail v) (d : DirId) (i : Nat) : Tail (v.clearEntry d i) := by
  intro e j m hm
  unfold Tree.EntryAt at hm
  by_cases hed : e = d
  · rw [hed] at hm ⊢
    have hself : (v.clearEntry d i).dirs d = { v.dirs d with entries := (v.dirs d).entries.set i none } :=
      Function.update_self _ _ _
    rw [hself] at hm ⊢
    rw [show ({ v.dirs d with entries := (v.dirs d).entries.set i none } : Dir).entries[j]? =
      ((v.dirs d).entries.set i none)[j]? from rfl, List.getElem?_set] at hm
    split at hm
    · split at hm
      · exact absurd hm (by simp)
      · exact absurd hm (by simp)
    · exact ht d j m hm
  · rw [show (v.clearEntry d i).dirs e = v.dirs e from Function.update_of_ne hed _ _] at hm ⊢
    exact ht e j m hm

end

end Vfs
end Hin9
