import Hin9.Vfs.Live

/-!
# `Vfs.Holders` — a file that is held stays open

`Counted h c` says that the inode of every file that is there is referenced `c f` times, and has a descriptor of its own
only where that is positive. Looking something up keeps it, taking a reference adds one to `c`, giving it up takes one
away, and what the kernel reports leaves it alone as long as nothing that is counted is freed.
-/

namespace Hin9
namespace Vfs

open Lib

section

variable {h : Heap} {c : FileId → Nat} {n : NodeId} {d : DirId} {f : FileId} {v : Tree}

/-! ## Counting -/

/-- Every inode has the references `c` says, and a descriptor only if it has one. -/
structure Counted (h : Heap) (c : FileId → Nat) : Prop where
  good : Good h
  count : ∀ f, h.LiveFile f → (h.tree.files f).refcount = c f
  shut : ∀ f, h.LiveFile f → (h.tree.files f).fd ≠ none → 0 < c f
  own : ∀ f g d, h.LiveFile f → h.LiveFile g →
    (h.tree.files f).fd = some d → (h.tree.files g).fd = some d → f = g
  fresh : ∀ f, h.tree.fileCount ≤ f → c f = 0

/-- One reference more. -/
def charge (c : FileId → Nat) (file : Option FileId) : FileId → Nat := fun f => c f + if file = some f then 1 else 0

@[simp] theorem charge_none : charge c none = c := by
  funext f
  simp [charge]

theorem charge_self : charge c (some f) f = c f + 1 := by
  simp [charge]

theorem charge_of_ne {g : FileId} (hne : g ≠ f) : charge c (some f) g = c g := by
  simp [charge, Ne.symm hne]

/-- What a step leaves of the nodes that had an inode, and of the descriptors that are still counted. -/
structure Keeps (c : FileId → Nat) (v v' : Tree) : Prop where
  nodeCount : v.nodeCount ≤ v'.nodeCount
  fileCount : v.fileCount ≤ v'.fileCount
  inode : ∀ n i, n < v.nodeCount → (v.nodes n).inode = some i →
    (v'.nodes n).type = (v.nodes n).type ∧ (v'.nodes n).inode = some i
  fds : ∀ f d, f < v.fileCount → 0 < c f → (v.files f).fd = some d → (v'.files f).fd = some d

theorem Keeps.refl (v : Tree) : Keeps c v v := ⟨le_rfl, le_rfl, fun _ _ _ hi => ⟨rfl, hi⟩, fun _ _ _ _ hd => hd⟩

theorem Keeps.trans {u w : Tree} (hu : Keeps c u v) (hw : Keeps c v w) : Keeps c u w where
  nodeCount := hu.nodeCount.trans hw.nodeCount
  fileCount := hu.fileCount.trans hw.fileCount
  inode n i hn hi := by
    obtain ⟨ht, hi'⟩ := hu.inode n i hn hi
    obtain ⟨ht', hi''⟩ := hw.inode n i (hn.trans_le hu.nodeCount) hi'
    exact ⟨ht'.trans ht, hi''⟩
  fds f d hf hc hd := hw.fds f d (hf.trans_le hu.fileCount) hc (hu.fds f d hf hc hd)

theorem Grows.keeps {w : Tree} (hw : Grows v w) : Keeps c v w where
  nodeCount := hw.nodeCount
  fileCount := hw.fileCount
  inode := hw.inode
  fds f d hf _ hd := (congrArg File.fd (hw.files f hf)).trans hd

theorem FreeIn.grow {os : Os} {w : Tree} (hfree : FreeIn os v) (hw : Grows v w) : FreeIn os w := by
  intro p d hp f hf
  by_cases hlt : f < v.fileCount
  · rw [hw.files f hlt]
    exact hfree p d hp f hlt
  · rw [(hw.newFiles f (Nat.le_of_not_lt hlt) hf).2]
    simp

theorem Counted.grow (hc : Counted h c) (hv : h.Grown v) : Counted (h.setTree v) c := by
  have hcases : ∀ f, (h.setTree v).LiveFile f →
      h.LiveFile f ∧ v.files f = h.tree.files f ∨ c f = 0 ∧ (v.files f).refcount = 0 ∧ (v.files f).fd = none := by
    intro f hf
    by_cases hlt : f < h.tree.fileCount
    · exact .inl ⟨⟨hlt, hf.2⟩, hv.2.files f hlt⟩
    · exact .inr ⟨hc.fresh f (Nat.le_of_not_lt hlt), hv.2.newFiles f (Nat.le_of_not_lt hlt) hf.1⟩
  refine ⟨hv.1, ?_, ?_, ?_, fun f hf => hc.fresh f (hv.2.fileCount.trans hf)⟩
  · intro f hf
    show (v.files f).refcount = c f
    rcases hcases f hf with ⟨hl, hsame⟩ | ⟨h0, hr, -⟩
    · rw [hsame]
      exact hc.count f hl
    · rw [h0, hr]
      rfl
  · intro f hf hfd
    have hfd' : (v.files f).fd ≠ none := hfd
    rcases hcases f hf with ⟨hl, hsame⟩ | ⟨-, -, hnone⟩
    · rw [hsame] at hfd'
      exact hc.shut f hl hfd'
    · exact absurd hnone hfd'
  · intro f g d hf hg hfd hgd
    have hfd' : (v.files f).fd = some d := hfd
    have hgd' : (v.files g).fd = some d := hgd
    rcases hcases f hf with ⟨hl, hsame⟩ | ⟨-, -, hnone⟩
    · rcases hcases g hg with ⟨hl', hsame'⟩ | ⟨-, -, hnone⟩
      · rw [hsame] at hfd'
        rw [hsame'] at hgd'
        exact hc.own f g d hl hl' hfd' hgd'
      · exact absurd (hnone.symm.trans hgd') (by simp)
    · exact absurd (hnone.symm.trans hfd') (by simp)

/-- A change to a node that leaves its inode alone. -/
theorem Counted.touch (hc : Counted h c) (N : Node) (hparent : N.parent = (h.tree.nodes n).parent)
    (htype : N.type = (h.tree.nodes n).type) (hinode : N.inode = (h.tree.nodes n).inode) :
    Counted (h.setTree (h.tree.setNode n N)) c :=
  ⟨hc.good.touch N hparent htype hinode, hc.count, hc.shut, hc.own, hc.fresh⟩

theorem keeps_touch (N : Node) (htype : N.type = (v.nodes n).type) (hinode : N.inode = (v.nodes n).inode) :
    Keeps c v (v.setNode n N) := by
  refine ⟨le_rfl, le_rfl, ?_, fun _ _ _ _ hd => hd⟩
  intro m i hm hi
  by_cases hmn : m = n
  · subst hmn
    rw [show (v.setNode m N).nodes m = N from Function.update_self _ _ _, htype, hinode]
    exact ⟨rfl, hi⟩
  · rw [show (v.setNode n N).nodes m = v.nodes m from Function.update_of_ne hmn _ _]
    exact ⟨rfl, hi⟩

/-- One inode with another number of references. -/
theorem Counted.setFile {c' : FileId → Nat} (hc : Counted h c) (hf : f < h.tree.fileCount) (F : File)
    (hparent : F.parent = (h.tree.files f).parent) (hother : ∀ g, g ≠ f → c' g = c g) (hcount : F.refcount = c' f)
    (hshut : F.fd ≠ none → 0 < c' f)
    (hown : ∀ d, F.fd = some d → ∀ g, g ≠ f → h.LiveFile g → (h.tree.files g).fd ≠ some d) :
    Counted (h.setTree (h.tree.setFile f F)) c' := by
  have hself : (h.tree.setFile f F).files f = F := Function.update_self _ _ _
  have hne : ∀ g, g ≠ f → (h.tree.setFile f F).files g = h.tree.files g := fun g hg => Function.update_of_ne hg _ _
  have hgood := hc.good
  refine ⟨⟨hgood.root, hgood.top, hgood.entry, hgood.once, hgood.loaded, hgood.loadedInj, ?_, hgood.freshNode,
    hgood.freshDir, hgood.freshFile⟩, ?_, ?_, ?_, ?_⟩
  · intro m g hm ht hg
    obtain ⟨htype, hlive, hp⟩ := hgood.file m g hm ht hg
    refine ⟨htype, hlive, ?_⟩
    show ((h.tree.setFile f F).files g).parent = m
    by_cases hgf : g = f
    · rw [hgf] at hp ⊢
      rw [hself, hparent, hp]
    · rw [hne g hgf, hp]
  · intro g hg
    show ((h.tree.setFile f F).files g).refcount = c' g
    by_cases hgf : g = f
    · rw [hgf, hself, hcount]
    · rw [hne g hgf, hother g hgf]
      exact hc.count g hg
  · intro g hg hfd
    have hfd' : ((h.tree.setFile f F).files g).fd ≠ none := hfd
    by_cases hgf : g = f
    · rw [hgf, hself] at hfd'
      rw [hgf]
      exact hshut hfd'
    · rw [hne g hgf] at hfd'
      rw [hother g hgf]
      exact hc.shut g hg hfd'
  · intro a b d ha hb had hbd
    have had' : ((h.tree.setFile f F).files a).fd = some d := had
    have hbd' : ((h.tree.setFile f F).files b).fd = some d := hbd
    by_cases haf : a = f
    · by_cases hbf : b = f
      · rw [haf, hbf]
      · rw [haf, hself] at had'
        rw [hne b hbf] at hbd'
        exact absurd hbd' (hown d had' b hbf hb)
    · rw [hne a haf] at had'
      by_cases hbf : b = f
      · rw [hbf, hself] at hbd'
        exact absurd had' (hown d hbd' a haf ha)
      · rw [hne b hbf] at hbd'
        exact hc.own a b d ha hb had' hbd'
  · intro g hg
    by_cases hgf : g = f
    · rw [hgf] at hg
      exact absurd hf (Nat.not_lt.mpr hg)
    · rw [hother g hgf]
      exact hc.fresh g hg

theorem keeps_setFile (F : File) (hfd : 0 < c f → ∀ d, (v.files f).fd = some d → F.fd = some d) :
    Keeps c v (v.setFile f F) := by
  refine ⟨le_rfl, le_rfl, fun _ _ _ hi => ⟨rfl, hi⟩, ?_⟩
  intro g d _ hpos hd
  by_cases hgf : g = f
  · rw [hgf] at hpos hd ⊢
    rw [show (v.setFile f F).files f = F from Function.update_self _ _ _]
    exact hfd hpos d hd
  · rw [show (v.setFile f F).files g = v.files g from Function.update_of_ne hgf _ _]
    exact hd

/-! ## Taking and giving up a reference -/

theorem fileInode_of_file (htype : (v.nodes n).type = .file) : v.fileInode n = (v.nodes n).inode := if_pos htype

theorem fileInode_of_ne (htype : (v.nodes n).type ≠ .file) : v.fileInode n = none := if_neg htype

theorem fileInode_eq_some : v.fileInode n = some f ↔ (v.nodes n).type = .file ∧ (v.nodes n).inode = some f := by
  unfold Tree.fileInode
  split
  · rename_i h
    simp [h]
  · rename_i h
    simp [h]

theorem Keeps.fileInode {w : Tree} (hw : Keeps c v w) (hn : n < v.nodeCount) (hi : (v.nodes n).inode ≠ none) :
    w.fileInode n = v.fileInode n := by
  obtain ⟨i, hi⟩ := Option.ne_none_iff_exists'.mp hi
  obtain ⟨htype, hinode⟩ := hw.inode n i hn hi
  unfold Tree.fileInode
  rw [htype, hinode, hi]

/-- The inode of a file is one of those that are there. -/
theorem Good.fileInode (hg : Good h) (hn : h.LiveNode n) (hf : h.tree.fileInode n = some f) :
    h.LiveFile f ∧ (h.tree.files f).parent = n := by
  obtain ⟨htype, hinode⟩ := fileInode_eq_some.mp hf
  have hne : (h.tree.nodes n).type ≠ .dir := by
    rw [htype]
    simp
  exact (hg.file n f hn hne hinode).2

theorem Counted.refFile (hc : Counted h c) (hf : h.LiveFile f) {os : Os} (hfree : FreeIn os h.tree) :
    Counted (h.setTree (basicVfsRefFile os h.tree f)) (charge c (some f)) ∧
      ∀ c', Keeps c' h.tree (basicVfsRefFile os h.tree f) := by
  have hcount : (h.tree.files f).refcount + 1 = (charge c (some f) f : Nat) := by
    rw [charge_self, hc.count f hf]
    simp
  have hpos : 0 < charge c (some f) f := by
    rw [charge_self]
    exact Nat.succ_pos _
  -- the reference is counted, the descriptor stays
  have hfirst : Counted (h.setTree (h.tree.setFile f { h.tree.files f with refcount := (h.tree.files f).refcount + 1 }))
      (charge c (some f)) := by
    apply hc.setFile hf.1
    · rfl
    · exact fun g hg => charge_of_ne hg
    · exact hcount
    · exact fun _ => hpos
    · exact fun d hd g hg hl hgd => hg (hc.own g f d hl hf hgd hd)
  have hkeeps : ∀ c', Keeps c' h.tree
      (h.tree.setFile f { h.tree.files f with refcount := (h.tree.files f).refcount + 1 }) :=
    fun c' => keeps_setFile _ fun _ d hd => hd
  unfold basicVfsRefFile
  dsimp only
  split
  · exact ⟨hfirst, hkeeps⟩
  · rename_i hnone
    have hclosed : (h.tree.files f).fd = none := Option.not_isSome_iff_eq_none.mp hnone
    split
    · exact ⟨hfirst, hkeeps⟩
    · split
      · rename_i fd hfd
        have hself : (h.tree.setFile f { h.tree.files f with refcount := (h.tree.files f).refcount + 1 }).files f =
            { h.tree.files f with refcount := (h.tree.files f).refcount + 1 } := Function.update_self _ _ _
        constructor
        · apply hfirst.setFile hf.1
          · exact (congrArg File.parent hself).symm
          · exact fun _ _ => rfl
          · exact hcount
          · exact fun _ => hpos
          · intro d hd g hg hl hgd
            obtain rfl : fd = d := Option.some.inj hd
            have hother : ∀ F, (h.tree.setFile f F).files g = h.tree.files g := fun F => Function.update_of_ne hg _ _
            exact hfree _ fd hfd g hl.1 ((congrArg File.fd (hother _)).symm.trans hgd)
        · intro c'
          refine (hkeeps c').trans (keeps_setFile _ fun _ d hd => ?_)
          rw [hself] at hd
          exact absurd (hclosed.symm.trans hd) (by simp)
      · constructor
        · exact hfirst.touch (n := (h.tree.files f).parent) { h.tree.nodes (h.tree.files f).parent with forbidden := true } rfl rfl rfl
        · exact fun c' => (hkeeps c').trans (keeps_touch _ rfl rfl)

/-- **A reference is taken.** -/
theorem Counted.ref (hc : Counted h c) (hn : h.LiveNode n) {os : Os} (hfree : FreeIn os h.tree)
    (hv : basicVfsRef os h.tree n = some v) :
    Counted (h.setTree v) (charge c (v.fileInode n)) ∧ (∀ c', Keeps c' h.tree v) ∧
      (v.nodes n).type = (h.tree.nodes n).type ∧ ((v.nodes n).type = .file → (v.nodes n).inode ≠ none) ∧
      ((v.nodes n).type ≠ .file → FreeIn os v) := by
  have hself : (h.tree.setNode n { h.tree.nodes n with refcount := (h.tree.nodes n).refcount + 1 }).nodes n =
      { h.tree.nodes n with refcount := (h.tree.nodes n).refcount + 1 } := Function.update_self _ _ _
  have htouch := hc.touch { h.tree.nodes n with refcount := (h.tree.nodes n).refcount + 1 } rfl rfl rfl
  have hkeeps : ∀ c', Keeps c' h.tree
      (h.tree.setNode n { h.tree.nodes n with refcount := (h.tree.nodes n).refcount + 1 }) :=
    fun c' => keeps_touch _ rfl rfl
  unfold basicVfsRef at hv
  dsimp only at hv
  rw [hself] at hv
  by_cases htype : (h.tree.nodes n).type = .file
  · rw [if_pos htype] at hv
    obtain ⟨f, hf, hv⟩ := Option.map_eq_some_iff.mp hv
    have hinode : h.tree.fileInode n = some f := (fileInode_of_file htype).trans hf
    obtain ⟨hlive, -⟩ := hc.good.fileInode hn hinode
    obtain ⟨hcounted, hkept⟩ := htouch.refFile hlive hfree
    have hall : ∀ c', Keeps c' h.tree v := fun c' => hv ▸ (hkeeps c').trans (hkept c')
    obtain ⟨htype', hinode'⟩ := (hall c).inode n f hn.1 hf
    refine ⟨?_, hall, htype', fun _ => ?_, fun hne => absurd (htype'.trans htype) hne⟩
    · rw [show v.fileInode n = some f from fileInode_eq_some.mpr ⟨htype'.trans htype, hinode'⟩, ← hv]
      exact hcounted
    · rw [hinode']
      simp
  · rw [if_neg htype] at hv
    obtain rfl := Option.some.inj hv
    have htype' := congrArg Node.type hself
    refine ⟨?_, hkeeps, htype', fun hfile => absurd (htype'.symm.trans hfile) htype, fun _ => hfree⟩
    rw [fileInode_of_ne (htype'.trans_ne htype), charge_none]
    exact htouch

theorem Counted.unrefFile (hc : Counted h (charge c (some f))) (hf : h.LiveFile f) :
    Counted (h.setTree (basicVfsUnrefFile h.tree f)) c ∧ Keeps c h.tree (basicVfsUnrefFile h.tree f) := by
  have hcount : (h.tree.files f).refcount = (c f : Int) + 1 := by
    rw [hc.count f hf, charge_self]
    simp
  unfold basicVfsUnrefFile
  dsimp only
  by_cases hpos : (h.tree.files f).refcount - 1 > 0
  · rw [if_pos hpos]
    constructor
    · apply hc.setFile hf.1
      · rfl
      · exact fun g hg => (charge_of_ne hg).symm
      · show (h.tree.files f).refcount - 1 = c f
        omega
      · intro _
        omega
      · exact fun d hd g hg hl hgd => hg (hc.own g f d hl hf hgd hd)
    · exact keeps_setFile _ fun _ d hd => hd
  · rw [if_neg hpos]
    constructor
    · apply hc.setFile hf.1
      · rfl
      · exact fun g hg => (charge_of_ne hg).symm
      · show (h.tree.files f).refcount - 1 = c f
        omega
      · exact fun hfd => absurd rfl hfd
      · exact fun d hd => absurd hd (by simp)
    · -- nobody else counts on the descriptor
      refine keeps_setFile _ fun hc' => ?_
      omega

theorem basicVfsUnref_of_ne (htype : (v.nodes n).type ≠ .file) :
    basicVfsUnref v n = some (v.setNode n { v.nodes n with refcount := (v.nodes n).refcount - 1 }) := by
  have hself : (v.setNode n { v.nodes n with refcount := (v.nodes n).refcount - 1 }).nodes n =
      { v.nodes n with refcount := (v.nodes n).refcount - 1 } := Function.update_self _ _ _
  unfold basicVfsUnref
  dsimp only
  rw [hself]
  exact if_neg htype

/-- **A reference is given up**: the descriptor goes with the last one. -/
theorem Counted.unref (hn : h.tree.fileInode n ≠ none → h.LiveNode n)
    (hc : Counted h (charge c (h.tree.fileInode n))) (hv : basicVfsUnref h.tree n = some v) :
    Counted (h.setTree v) c ∧ Keeps c h.tree v := by
  have hself : (h.tree.setNode n { h.tree.nodes n with refcount := (h.tree.nodes n).refcount - 1 }).nodes n =
      { h.tree.nodes n with refcount := (h.tree.nodes n).refcount - 1 } := Function.update_self _ _ _
  have htouch := hc.touch { h.tree.nodes n with refcount := (h.tree.nodes n).refcount - 1 } rfl rfl rfl
  have hkeeps : Keeps c h.tree (h.tree.setNode n { h.tree.nodes n with refcount := (h.tree.nodes n).refcount - 1 }) :=
    keeps_touch _ rfl rfl
  unfold basicVfsUnref at hv
  dsimp only at hv
  rw [hself] at hv
  by_cases htype : (h.tree.nodes n).type = .file
  · rw [if_pos htype] at hv
    obtain ⟨f, hf, hv⟩ := Option.map_eq_some_iff.mp hv
    have hinode : h.tree.fileInode n = some f := (fileInode_of_file htype).trans hf
    have hlive : h.LiveNode n := hn (by rw [hinode]; simp)
    rw [hinode] at htouch
    obtain ⟨hcounted, hkept⟩ := htouch.unrefFile (hc.good.fileInode hlive hinode).1
    exact ⟨hv ▸ hcounted, hv ▸ hkeeps.trans hkept⟩
  · rw [if_neg htype] at hv
    obtain rfl := Option.some.inj hv
    rw [fileInode_of_ne htype, charge_none] at htouch
    exact ⟨htouch, hkeeps⟩

/-! ## Looking a path up -/

/-- What a lookup leaves behind: the references there were, and one for the node that was found. -/
structure Takes (os : Os) (h : Heap) (c : FileId → Nat) (v : Tree) (found : Option NodeId) : Prop where
  counted : Counted (h.setTree v) (charge c (found.bind v.fileInode))
  keeps : ∀ c', Keeps c' h.tree v
  live : ∀ n, found = some n → (h.setTree v).LiveNode n
  inode : ∀ n, found = some n → (v.nodes n).type = .file → (v.nodes n).inode ≠ none
  free : (∀ n, found = some n → (v.nodes n).type ≠ .file) → FreeIn os v

theorem Counted.looked (hc : Counted h c) {os : Os} (hfree : FreeIn os h.tree) (hv : h.Grown v) :
    Takes os h c v none where
  counted := by
    rw [show charge c ((none : Option NodeId).bind v.fileInode) = c from charge_none]
    exact hc.grow hv
  keeps _ := hv.2.keeps
  live n hn := absurd hn (by simp)
  inode n hn := absurd hn (by simp)
  free _ := hfree.grow hv.2

theorem Takes.after {os : Os} {w : Tree} {found : Option NodeId} (hv : ∀ c', Keeps c' h.tree v)
    (hw : Takes os (h.setTree v) c w found) : Takes os h c w found where
  counted := hw.counted
  keeps c' := (hv c').trans (hw.keeps c')
  live := hw.live
  inode := hw.inode
  free := hw.free

/-- The node a lookup ends in gets its reference. -/
theorem Counted.took (hc : Counted h c) {os : Os} (hfree : FreeIn os h.tree) (hn : h.LiveNode n)
    (hv : basicVfsRef os h.tree n = some v) : Takes os h c v (some n) := by
  obtain ⟨hcounted, hkeeps, -, hinode, hfree'⟩ := hc.ref hn hfree hv
  refine ⟨hcounted, hkeeps, ?_, ?_, fun h' => hfree' (h' n rfl)⟩
  · intro m hm
    obtain rfl := Option.some.inj hm
    exact ⟨hn.1.trans_le (hkeeps c).nodeCount, hn.2⟩
  · intro m hm
    obtain rfl := Option.some.inj hm
    exact hinode

theorem Counted.refLoop (os : Os) (fuel : Nat) (dir : Option DirId) (source : Bytes) (hc : Counted h c)
    (hfree : FreeIn os h.tree) (hdir : ∀ d, dir = some d → h.LiveDir d) {res : RefResult}
    (hr : Vfs.refLoop os fuel h.tree dir source = some res) :
    Takes os h c res.tree (res.found.map (·.1)) := by
  -- a lookup that fails leaves what it found on the way
  have hnull : ∀ {v : Tree} {res : RefResult}, h.Grown v → RefResult.null v = some res →
      Takes os h c res.tree (res.found.map (·.1)) := by
    intro v res hv hres
    obtain rfl := Option.some.inj hres
    exact hc.looked hfree hv
  induction fuel generalizing h dir source with
  | zero => exact hnull ⟨hc.good, Grows.refl _⟩ hr
  | succ fuel ih =>
      unfold Vfs.refLoop at hr
      dsimp only at hr
      split at hr
      · exact hnull ⟨hc.good, Grows.refl _⟩ hr
      · split at hr
        · exact hnull ⟨hc.good, Grows.refl _⟩ hr
        · rename_i next hnext
          have hlive : h.LiveNode next := by
            cases dir with
            | none => exact absurd hnext (by simp [basicVfsSearchDir])
            | some d => exact (hc.good.entry d (hdir d rfl) next (search_mem hnext).1).1
          -- the path ends here
          have hfound : ∀ source, refFound os h.tree next source = some res →
              Takes os h c res.tree (res.found.map (·.1)) := by
            intro source hres
            obtain ⟨v, hv, rfl⟩ := Option.map_eq_some_iff.mp hres
            exact hc.took hfree hlive hv
          split at hr
          · exact hfound _ hr
          · split at hr
            · exact hfound _ hr
            · split at hr
              · exact hfound _ hr
              · obtain ⟨hgrown, hloaded⟩ := hc.good.getDir os hlive
                split at hr
                · exact hnull hgrown hr
                · rename_i d hd
                  apply Takes.after fun _ => hgrown.2.keeps
                  apply ih _ _ (hc.grow hgrown) (hfree.grow hgrown.2) _ hr
                  · intro v res hv hres
                    obtain rfl := Option.some.inj hres
                    exact (hc.grow hgrown).looked (hfree.grow hgrown.2) hv
                  · intro e he
                    obtain rfl := Option.some.inj he
                    exact (hloaded d hd).1

theorem Counted.refPath (os : Os) {dirNode : Option NodeId} {path : Bytes} (hc : Counted h c)
    (hfree : FreeIn os h.tree) (hdir : ∀ n, dirNode = some n → h.LiveNode n) {res : RefResult}
    (hr : basicVfsRefPath os h.tree dirNode path = some res) : Takes os h c res.tree (res.found.map (·.1)) := by
  have hnull : RefResult.null h.tree = some res → Takes os h c res.tree (res.found.map (·.1)) := by
    intro hres
    obtain rfl := Option.some.inj hres
    exact hc.looked hfree ⟨hc.good, Grows.refl _⟩
  unfold basicVfsRefPath at hr
  dsimp only at hr
  split at hr
  · exact hnull hr
  · split at hr
    · exact hnull hr
    · rename_i cur hcur
      have hlive : h.LiveNode cur := by
        split at hcur
        · obtain rfl := Option.some.inj hcur
          exact hc.good.root.1
        · exact hdir cur hcur
      split at hr
      · exact hnull hr
      · obtain ⟨hgrown, hloaded⟩ := hc.good.getDir os hlive
        apply Takes.after fun _ => hgrown.2.keeps
        apply (hc.grow hgrown).refLoop os _ _ _ (hfree.grow hgrown.2) _ hr
        intro d hd
        exact (hloaded d hd).1

theorem Counted.pathNode (os : Os) {cwd : NodeId} {path : Bytes} (hc : Counted h c) (hfree : FreeIn os h.tree)
    (hcwd : h.LiveNode cwd) (htype : (h.tree.nodes cwd).type = .dir) {res : RefResult}
    (hr : getPathNode os h.tree cwd path = some res) : Takes os h c res.tree (res.found.map (·.1)) := by
  unfold getPathNode at hr
  dsimp only at hr
  split at hr
  · obtain rfl := Option.some.inj hr
    have hdir : (h.tree.nodes cwd).type ≠ .file := by
      rw [htype]
      simp
    have hnull := hc.looked hfree ⟨hc.good, Grows.refl _⟩
    refine ⟨?_, hnull.keeps, ?_, ?_, fun _ => hfree⟩
    · show Counted h (charge c (h.tree.fileInode cwd))
      rw [fileInode_of_ne hdir, charge_none]
      exact hc
    · intro n hn
      obtain rfl := Option.some.inj hn
      exact hcwd
    · intro n hn hfile
      obtain rfl := Option.some.inj hn
      exact absurd hfile hdir
  · apply hc.refPath os hfree _ hr
    intro n hn
    obtain rfl := Option.some.inj hn
    exact hcwd

/-- A directory that is there has been read, or is read now. -/
theorem Good.getDir_some (hg : Good h) (os : Os) (hn : h.LiveNode n) (htype : (h.tree.nodes n).type = .dir) :
    ∃ d, (basicVfsGetDir os h.tree n).2 = some d := by
  cases hinode : (h.tree.nodes n).inode with
  | some d => exact ⟨d, by simp [basicVfsGetDir, htype, hinode]⟩
  | none =>
      cases hparent : (h.tree.nodes n).parent with
      | none =>
          obtain ⟨d, hd⟩ := hg.top n hn hparent
          exact absurd (hinode.symm.trans hd.2) (by simp)
      | some p =>
          rw [basicVfsGetDir_load os htype hinode hparent]
          split
          · exact ⟨_, rfl⟩
          · exact ⟨_, rfl⟩

/-- **A file is looked for in a directory**: the reference goes over to it, or nothing was found. -/
theorem Counted.searchDir (os : Os) {name : Bytes} {w : Tree} {r : Option NodeId} (hc : Counted h c)
    (hfree : FreeIn os h.tree) (hn : h.LiveNode n) (htype : (h.tree.nodes n).type = .dir)
    (hr : hinSearchDir os h.tree n name = some (w, r)) :
    Takes os h c w r ∧ (∀ m, r = some m → (w.nodes m).type = .file) ∧
      (r = none → h.Grown w ∧ ∃ d, w.Loaded n d) := by
  obtain ⟨hgrown, hloaded⟩ := hc.good.getDir os hn
  obtain ⟨d, hd⟩ := hc.good.getDir_some os hn htype
  have hmiss : some ((basicVfsGetDir os h.tree n).1, (none : Option NodeId)) = some (w, r) →
      Takes os h c w r ∧ (∀ m, r = some m → (w.nodes m).type = .file) ∧
        (r = none → h.Grown w ∧ ∃ d, w.Loaded n d) := by
    intro heq
    obtain ⟨rfl, rfl⟩ := Prod.mk.inj (Option.some.inj heq)
    exact ⟨hc.looked hfree hgrown, fun m hm => absurd hm (by simp), fun _ => ⟨hgrown, d, (hloaded d hd).2⟩⟩
  unfold hinSearchDir at hr
  dsimp only at hr
  rw [hd] at hr
  split at hr
  · exact hmiss hr
  · rename_i new hnew
    split at hr
    · rename_i hfile
      have hlive := (hgrown.1.entry d (hloaded d hd).1 new (search_mem hnew).1).1
      obtain ⟨v, hv, hr⟩ := Option.bind_eq_some_iff.mp hr
      obtain ⟨v', hv', heq⟩ := Option.map_eq_some_iff.mp hr
      obtain ⟨rfl, rfl⟩ := Prod.mk.inj heq
      have htook := (hc.grow hgrown).took (hfree.grow hgrown.2) hlive hv
      obtain ⟨hnewtype, -⟩ := ((hc.grow hgrown).ref hlive (hfree.grow hgrown.2) hv).2.2
      -- the directory gives its reference up
      obtain ⟨hdirtype, -⟩ := (htook.keeps c).inode n d (hn.1.trans_le hgrown.2.nodeCount) (hloaded d hd).2.2
      have hdirtype' : (v.nodes n).type = .dir := hdirtype.trans (hloaded d hd).2.1
      have hunref : v' = v.setNode n { v.nodes n with refcount := (v.nodes n).refcount - 1 } := by
        rw [basicVfsUnref_of_ne (by simp [hdirtype'])] at hv'
        exact (Option.some.inj hv').symm
      have hkeeps : ∀ c', Keeps c' v v' := fun c' => hunref ▸ keeps_touch _ rfl rfl
      have hnewlive : (h.setTree v).LiveNode new := htook.live new rfl
      have hsame : v'.fileInode new = v.fileInode new ∧ (v'.nodes new).type = (v.nodes new).type := by
        rw [hunref]
        unfold Tree.fileInode
        by_cases hnn : new = n
        · rw [hnn]
          simp [Tree.setNode]
        · rw [show (v.setNode n { v.nodes n with refcount := (v.nodes n).refcount - 1 }).nodes new = v.nodes new from
            Function.update_of_ne hnn _ _]
          exact ⟨rfl, rfl⟩
      refine ⟨⟨?_, ?_, ?_, ?_, ?_⟩, ?_, fun hnone => absurd hnone (by simp)⟩
      · show Counted (h.setTree v') (charge c (v'.fileInode new))
        rw [hsame.1, hunref]
        exact htook.counted.touch { v.nodes n with refcount := (v.nodes n).refcount - 1 } rfl rfl rfl
      · exact fun c' => hgrown.2.keeps.trans ((htook.keeps c').trans (hkeeps c'))
      · intro m hm
        obtain rfl := Option.some.inj hm
        exact ⟨hnewlive.1.trans_le (hkeeps c).nodeCount, hnewlive.2⟩
      · intro m hm hfile'
        obtain rfl := Option.some.inj hm
        obtain ⟨i, hi⟩ := Option.ne_none_iff_exists'.mp (htook.inode new rfl (hsame.2.symm.trans hfile'))
        rw [((hkeeps c).inode new i hnewlive.1 hi).2]
        simp
      · intro hne
        exact absurd (hsame.2.trans (hnewtype.trans hfile)) (hne new rfl)
      · intro m hm
        obtain rfl := Option.some.inj hm
        exact hsame.2.trans (hnewtype.trans hfile)
    · exact hmiss hr

theorem Counted.searchIndex (os : Os) {names : List Bytes} {w : Tree} {r : Option NodeId} (hc : Counted h c)
    (hfree : FreeIn os h.tree) (hn : h.LiveNode n) (htype : (h.tree.nodes n).type = .dir)
    (hr : Vfs.searchIndex os h.tree n names = some (w, r)) :
    Takes os h c w r ∧ (∀ m, r = some m → (w.nodes m).type = .file) ∧
      (r = none → h.Grown w ∧ (w.nodes n).type = .dir) := by
  induction names generalizing h with
  | nil =>
      obtain ⟨rfl, rfl⟩ := Prod.mk.inj (Option.some.inj hr)
      have hgrown : h.Grown h.tree := ⟨hc.good, Grows.refl _⟩
      exact ⟨hc.looked hfree hgrown, fun m hm => absurd hm (by simp), fun _ => ⟨hgrown, htype⟩⟩
  | cons name names ih =>
      unfold Vfs.searchIndex at hr
      obtain ⟨⟨u, found⟩, hu, hr⟩ := Option.bind_eq_some_iff.mp hr
      obtain ⟨htakes, hfile, hnone⟩ := hc.searchDir os hfree hn htype hu
      cases found with
      | some new =>
          obtain ⟨rfl, rfl⟩ := Prod.mk.inj (Option.some.inj hr)
          exact ⟨htakes, hfile, fun h' => absurd h' (by simp)⟩
      | none =>
          obtain ⟨hgrown, d, hd⟩ := hnone rfl
          obtain ⟨htakes', hfile', hnone'⟩ := ih (hc.grow hgrown) (hfree.grow hgrown.2) (hn.grow hgrown) hd.1 hr
          exact ⟨htakes'.after fun _ => hgrown.2.keeps, hfile', fun h' => ⟨hgrown.trans (hnone' h').1, (hnone' h').2⟩⟩

end

end Vfs
end Hin9
