import Hin9.Vfs.Holders

/-!
# `Vfs.Removal` — what goes with a node (`basic_vfs_node_free`, `basic_vfs_delete`)

`Clears S h h'` says that only nodes below those of `S` were freed between `h` and `h'`, with their inodes, and that the
tree itself is still as it was. `basic_vfs_node_free` clears the node it is called for (`nodeFree_clears`); once the entry
is taken out of its directory, nothing that can be reached was freed (`Counted.delete`).
-/

namespace Hin9
namespace Vfs

section

variable {h h' : Heap} {c : FileId → Nat} {n : NodeId} {d : DirId} {f : FileId} {v : Tree} {S : NodeId → Prop}

/-! ## Below a node -/

theorem Tree.Below.trans {m p : NodeId} (hn : v.Below n m) (hm : v.Below m p) : v.Below n p := by
  induction hm with
  | refl => exact hn
  | entry _ hloaded hmem ih => exact .entry ih hloaded hmem

/-- The two trees differ in references at most. -/
structure Alike (v v' : Tree) : Prop where
  root : v'.root = v.root
  nodeCount : v'.nodeCount = v.nodeCount
  dirCount : v'.dirCount = v.dirCount
  fileCount : v'.fileCount = v.fileCount
  dirs : v'.dirs = v.dirs
  node : ∀ n, (v'.nodes n).type = (v.nodes n).type ∧ (v'.nodes n).inode = (v.nodes n).inode ∧
    (v'.nodes n).parent = (v.nodes n).parent

theorem Alike.refl (v : Tree) : Alike v v := ⟨rfl, rfl, rfl, rfl, rfl, fun _ => ⟨rfl, rfl, rfl⟩⟩

theorem Alike.trans {u w : Tree} (hu : Alike u v) (hw : Alike v w) : Alike u w where
  root := hw.root.trans hu.root
  nodeCount := hw.nodeCount.trans hu.nodeCount
  dirCount := hw.dirCount.trans hu.dirCount
  fileCount := hw.fileCount.trans hu.fileCount
  dirs := hw.dirs.trans hu.dirs
  node n := by
    obtain ⟨ht, hi, hp⟩ := hu.node n
    obtain ⟨ht', hi', hp'⟩ := hw.node n
    exact ⟨ht'.trans ht, hi'.trans hi, hp'.trans hp⟩

theorem Alike.loaded {w : Tree} (hw : Alike v w) : w.Loaded n d ↔ v.Loaded n d := by
  unfold Tree.Loaded
  rw [(hw.node n).1, (hw.node n).2.1]

theorem Alike.below {w : Tree} {m : NodeId} (hw : Alike v w) (hm : w.Below n m) : v.Below n m := by
  induction hm with
  | refl => exact .refl
  | entry _ hloaded hmem ih => exact .entry ih (hw.loaded.mp hloaded) (hw.dirs ▸ hmem)

theorem Alike.fileInode {w : Tree} (hw : Alike v w) : w.fileInode n = v.fileInode n := by
  unfold Tree.fileInode
  rw [(hw.node n).1, (hw.node n).2.1]

/-! ## What is freed with a node -/

/-- `p` is below one of `S`. -/
def Under (v : Tree) (S : NodeId → Prop) (p : NodeId) : Prop := ∃ s, S s ∧ v.Below s p

/-- Nothing was freed but what is below `S`: a node with the directory it is in, an inode with its node. -/
structure Clears (S : NodeId → Prop) (h h' : Heap) : Prop where
  alike : Alike h.tree h'.tree
  files : ∀ f, h'.freed.file f = false → h'.tree.files f = h.tree.files f
  monoNode : ∀ m, h.freed.node m = true → h'.freed.node m = true
  monoDir : ∀ e, h.freed.dir e = true → h'.freed.dir e = true
  monoFile : ∀ f, h.freed.file f = true → h'.freed.file f = true
  node : ∀ m, h'.freed.node m = true → h.freed.node m = true ∨ S m ∨
    ∃ p e, Under h.tree S p ∧ h.tree.Loaded p e ∧ some m ∈ (h.tree.dirs e).entries ∧ h'.freed.dir e = true
  dir : ∀ e, h'.freed.dir e = true → h.freed.dir e = true ∨
    ∃ p, Under h.tree S p ∧ h.tree.Loaded p e ∧ h'.freed.node p = true
  file : ∀ f, h'.freed.file f = true → h.freed.file f = true ∨
    ∃ p, Under h.tree S p ∧ (h.tree.nodes p).type ≠ .dir ∧ (h.tree.nodes p).inode = some f ∧ h'.freed.node p = true

theorem Clears.refl (S : NodeId → Prop) (h : Heap) : Clears S h h :=
  ⟨Alike.refl _, fun _ _ => rfl, fun _ hm => hm, fun _ he => he, fun _ hf => hf, fun _ hm => .inl hm,
    fun _ he => .inl he, fun _ hf => .inl hf⟩

theorem Clears.trans {u w : Heap} (hu : Clears S h u) (hw : Clears S u w) : Clears S h w := by
  have hunder : ∀ p, Under u.tree S p → Under h.tree S p := by
    rintro p ⟨s, hs, hp⟩
    exact ⟨s, hs, hu.alike.below hp⟩
  refine ⟨hu.alike.trans hw.alike, ?_, fun m hm => hw.monoNode m (hu.monoNode m hm),
    fun e he => hw.monoDir e (hu.monoDir e he), fun f hf => hw.monoFile f (hu.monoFile f hf), ?_, ?_, ?_⟩
  · intro f hf
    have hmid : u.freed.file f = false := by
      by_contra hne
      exact absurd (hw.monoFile f (Bool.not_eq_false _ ▸ hne)) (by simp [hf])
    exact (hw.files f hf).trans (hu.files f hmid)
  · intro m hm
    rcases hw.node m hm with hm | hm | ⟨p, e, hp, hloaded, hmem, he⟩
    · rcases hu.node m hm with hm | hm | ⟨p, e, hp, hloaded, hmem, he⟩
      · exact .inl hm
      · exact .inr (.inl hm)
      · exact .inr (.inr ⟨p, e, hp, hloaded, hmem, hw.monoDir e he⟩)
    · exact .inr (.inl hm)
    · exact .inr (.inr ⟨p, e, hunder p hp, hu.alike.loaded.mp hloaded, hu.alike.dirs ▸ hmem, he⟩)
  · intro e he
    rcases hw.dir e he with he | ⟨p, hp, hloaded, hfreed⟩
    · rcases hu.dir e he with he | ⟨p, hp, hloaded, hfreed⟩
      · exact .inl he
      · exact .inr ⟨p, hp, hloaded, hw.monoNode p hfreed⟩
    · exact .inr ⟨p, hunder p hp, hu.alike.loaded.mp hloaded, hfreed⟩
  · intro f hf
    rcases hw.file f hf with hf | ⟨p, hp, htype, hinode, hfreed⟩
    · rcases hu.file f hf with hf | ⟨p, hp, htype, hinode, hfreed⟩
      · exact .inl hf
      · exact .inr ⟨p, hp, htype, hinode, hw.monoNode p hfreed⟩
    · refine .inr ⟨p, hunder p hp, ?_, ?_, hfreed⟩
      · rwa [← (hu.alike.node p).1]
      · rwa [← (hu.alike.node p).2.1]

theorem Clears.mono {T : NodeId → Prop} (hST : ∀ m, S m → T m) (hc : Clears S h h') : Clears T h h' := by
  have hunder : ∀ p, Under h.tree S p → Under h.tree T p := fun p ⟨s, hs, hp⟩ => ⟨s, hST s hs, hp⟩
  refine ⟨hc.alike, hc.files, hc.monoNode, hc.monoDir, hc.monoFile, ?_, ?_, ?_⟩
  · intro m hm
    rcases hc.node m hm with hm | hm | ⟨p, e, hp, hrest⟩
    · exact .inl hm
    · exact .inr (.inl (hST m hm))
    · exact .inr (.inr ⟨p, e, hunder p hp, hrest⟩)
  · intro e he
    exact (hc.dir e he).imp_right fun ⟨p, hp, hrest⟩ => ⟨p, hunder p hp, hrest⟩
  · intro f hf
    exact (hc.file f hf).imp_right fun ⟨p, hp, hrest⟩ => ⟨p, hunder p hp, hrest⟩

theorem Clears.foldl {free : Heap → NodeId → Heap} (hfree : ∀ h m, Clears (· = m) h (free h m)) (ms : List NodeId)
    (h : Heap) : Clears (· ∈ ms) h (ms.foldl free h) := by
  induction ms generalizing h with
  | nil => exact Clears.refl _ h
  | cons m ms ih =>
      have hfirst : Clears (· ∈ m :: ms) h (free h m) :=
        (hfree h m).mono fun k (hk : k = m) => hk ▸ List.mem_cons_self
      exact hfirst.trans ((ih (free h m)).mono fun k hk => List.mem_cons_of_mem m hk)

theorem Clears.under {m : NodeId} (hc : Clears S h h') (hm : h'.freed.node m = true) :
    h.freed.node m = true ∨ Under h.tree S m := by
  rcases hc.node m hm with hm | hm | ⟨p, e, ⟨s, hs, hp⟩, hloaded, hmem, -⟩
  · exact .inl hm
  · exact .inr ⟨m, hm, .refl⟩
  · exact .inr ⟨s, hs, .entry hp hloaded hmem⟩

/-- The inode of a file is freed after it was given up. -/
theorem unref_alike (hinode : (v.nodes n).inode = some f) :
    Alike v ((basicVfsUnref v n).getD v) ∧ ∀ g, g ≠ f → ((basicVfsUnref v n).getD v).files g = v.files g := by
  have hself : (v.setNode n { v.nodes n with refcount := (v.nodes n).refcount - 1 }).nodes n =
      { v.nodes n with refcount := (v.nodes n).refcount - 1 } := Function.update_self _ _ _
  have halike : Alike v (v.setNode n { v.nodes n with refcount := (v.nodes n).refcount - 1 }) := by
    refine ⟨rfl, rfl, rfl, rfl, rfl, fun m => ?_⟩
    by_cases hmn : m = n
    · rw [hmn, hself]
      exact ⟨rfl, rfl, rfl⟩
    · rw [show (v.setNode n { v.nodes n with refcount := (v.nodes n).refcount - 1 }).nodes m = v.nodes m from
        Function.update_of_ne hmn _ _]
      exact ⟨rfl, rfl, rfl⟩
  by_cases htype : (v.nodes n).type = .file
  · have heq : basicVfsUnref v n = some (basicVfsUnrefFile
        (v.setNode n { v.nodes n with refcount := (v.nodes n).refcount - 1 }) f) := by
      unfold basicVfsUnref
      dsimp only
      rw [hself, if_pos htype, hinode]
      rfl
    rw [heq]
    refine ⟨⟨rfl, rfl, rfl, rfl, rfl, halike.node⟩, fun g hg => ?_⟩
    exact Function.update_of_ne hg _ _
  · rw [basicVfsUnref_of_ne htype]
    exact ⟨halike, fun _ _ => rfl⟩

/-- A node that is no directory, with its inode. -/
theorem clears_leaf {w : Heap} (halike : Alike h.tree w.tree)
    (hfiles : ∀ f, w.freed.file f = false → w.tree.files f = h.tree.files f)
    (hnode : w.freed.node = Function.update h.freed.node n true) (hdir : w.freed.dir = h.freed.dir)
    (hmono : ∀ f, h.freed.file f = true → w.freed.file f = true)
    (hfile : ∀ f, w.freed.file f = true →
      h.freed.file f = true ∨ (h.tree.nodes n).type ≠ .dir ∧ (h.tree.nodes n).inode = some f) :
    Clears (· = n) h w := by
  have hself : w.freed.node n = true := by
    rw [hnode, Function.update_self]
  refine ⟨halike, hfiles, ?_, fun e he => hdir ▸ he, hmono, ?_, fun e he => .inl (hdir ▸ he), ?_⟩
  · intro m hm
    by_cases hmn : m = n
    · rw [hmn, hself]
    · rw [hnode, Function.update_of_ne hmn, hm]
  · intro m hm
    by_cases hmn : m = n
    · exact .inr (.inl hmn)
    · rw [hnode, Function.update_of_ne hmn] at hm
      exact .inl hm
  · intro f hf
    rcases hfile f hf with hf | ⟨htype, hinode⟩
    · exact .inl hf
    · exact .inr ⟨n, ⟨n, rfl, .refl⟩, htype, hinode, hself⟩

/-- A directory, after all that is in it. -/
theorem Clears.directory {u : Heap} (hloaded : h.tree.Loaded n d)
    (hu : Clears (· ∈ (h.tree.dirs d).entries.filterMap id) h u) : Clears (· = n) h ((u.freeDir d).freeNode n) := by
  have hself : ((u.freeDir d).freeNode n).freed.node n = true := Function.update_self _ _ _
  have hdself : ((u.freeDir d).freeNode n).freed.dir d = true := Function.update_self _ _ _
  have hnode : ∀ m, u.freed.node m = true → ((u.freeDir d).freeNode n).freed.node m = true := by
    intro m hm
    by_cases hmn : m = n
    · rw [hmn, hself]
    · exact (Function.update_of_ne hmn _ _).trans hm
  have hdir : ∀ e, u.freed.dir e = true → ((u.freeDir d).freeNode n).freed.dir e = true := by
    intro e he
    by_cases hed : e = d
    · rw [hed, hdself]
    · exact (Function.update_of_ne hed _ _).trans he
  have hmem : ∀ m, m ∈ (h.tree.dirs d).entries.filterMap id → some m ∈ (h.tree.dirs d).entries := by
    intro m hm
    obtain ⟨o, ho, rfl⟩ := List.mem_filterMap.mp hm
    exact ho
  have hunder : ∀ p, Under h.tree (· ∈ (h.tree.dirs d).entries.filterMap id) p → Under h.tree (· = n) p := by
    rintro p ⟨s, hs, hp⟩
    exact ⟨n, rfl, (Tree.Below.entry .refl hloaded (hmem s hs)).trans hp⟩
  refine ⟨hu.alike, hu.files, fun m hm => hnode m (hu.monoNode m hm), fun e he => hdir e (hu.monoDir e he),
    hu.monoFile, ?_, ?_, ?_⟩
  · intro m hm
    by_cases hmn : m = n
    · exact .inr (.inl hmn)
    · have hm' : u.freed.node m = true := (Function.update_of_ne hmn _ _).symm.trans hm
      rcases hu.node m hm' with hm' | hm' | ⟨p, e, hp, hl, hin, he⟩
      · exact .inl hm'
      · exact .inr (.inr ⟨n, d, ⟨n, rfl, .refl⟩, hloaded, hmem m hm', hdself⟩)
      · exact .inr (.inr ⟨p, e, hunder p hp, hl, hin, hdir e he⟩)
  · intro e he
    by_cases hed : e = d
    · rw [hed]
      exact .inr ⟨n, ⟨n, rfl, .refl⟩, hloaded, hself⟩
    · have he' : u.freed.dir e = true := (Function.update_of_ne hed _ _).symm.trans he
      exact (hu.dir e he').imp_right fun ⟨p, hp, hl, hfreed⟩ => ⟨p, hunder p hp, hl, hnode p hfreed⟩
  · intro f hf
    exact (hu.file f hf).imp_right fun ⟨p, hp, ht, hi, hfreed⟩ => ⟨p, hunder p hp, ht, hi, hnode p hfreed⟩

/-- **Only what is below the node is freed.** -/
theorem nodeFree_clears (fuel : Nat) (h : Heap) (n : NodeId) : Clears (· = n) h (basicVfsNodeFree fuel h n) := by
  induction fuel generalizing h n with
  | zero => exact Clears.refl _ h
  | succ fuel ih =>
      -- a file goes after the reference that is given up for it
      have hfile : ∀ f, (h.tree.nodes n).type ≠ .dir → (h.tree.nodes n).inode = some f →
          Clears (· = n) h (((h.setTree ((basicVfsUnref h.tree n).getD h.tree)).freeFile f).freeNode n) := by
        intro f htype hinode
        obtain ⟨halike, hfiles⟩ := unref_alike hinode
        apply clears_leaf halike
        · intro g hg
          apply hfiles g
          rintro rfl
          exact absurd ((Function.update_self _ _ _).symm.trans hg) (by simp)
        · rfl
        · rfl
        · intro g hg
          by_cases hgf : g = f
          · rw [hgf]
            exact Function.update_self _ _ _
          · exact (Function.update_of_ne hgf _ _).trans hg
        · intro g hg
          by_cases hgf : g = f
          · exact .inr ⟨htype, hgf ▸ hinode⟩
          · exact .inl ((Function.update_of_ne hgf _ _).symm.trans hg)
      have hbare : Clears (· = n) h (h.freeNode n) :=
        clears_leaf (Alike.refl _) (fun _ _ => rfl) rfl rfl (fun _ hf => hf) fun _ hf => .inl hf
      unfold basicVfsNodeFree
      dsimp only
      cases htype : (h.tree.nodes n).type with
      | none =>
          cases hinode : (h.tree.nodes n).inode with
          | none => exact hbare
          | some f => exact hfile f (by simp [htype]) hinode
      | file =>
          cases hinode : (h.tree.nodes n).inode with
          | none => exact hbare
          | some f => exact hfile f (by simp [htype]) hinode
      | dir =>
          cases hinode : (h.tree.nodes n).inode with
          | none => exact hbare
          | some d => exact Clears.directory ⟨htype, hinode⟩ (Clears.foldl ih _ h)
      | unknown => exact hbare

theorem nodeFree_freed (fuel : Nat) (h : Heap) (n : NodeId) :
    (basicVfsNodeFree (fuel + 1) h n).freed.node n = true := by
  unfold basicVfsNodeFree
  exact Function.update_self _ _ _

/-! ## The entry that is gone -/

theorem Good.below (hg : Good h) {m : NodeId} (hn : h.LiveNode n) (hm : h.tree.Below n m) : h.LiveNode m := by
  induction hm with
  | refl => exact hn
  | entry _ hloaded hmem ih => exact (hg.entry _ (hg.loaded _ _ ih hloaded) _ hmem).1

theorem Clears.live_node {m : NodeId} (hc : Clears S h h') (hm : h'.LiveNode m) : h.LiveNode m := by
  refine ⟨hc.alike.nodeCount ▸ hm.1, ?_⟩
  by_contra hne
  exact absurd (hc.monoNode m (Bool.not_eq_false _ ▸ hne)) (by simp [hm.2])

theorem Clears.live_dir {e : DirId} (hc : Clears S h h') (he : h'.LiveDir e) : h.LiveDir e := by
  refine ⟨hc.alike.dirCount ▸ he.1, ?_⟩
  by_contra hne
  exact absurd (hc.monoDir e (Bool.not_eq_false _ ▸ hne)) (by simp [he.2])

theorem Clears.live_file (hc : Clears S h h') (hf : h'.LiveFile f) : h.LiveFile f := by
  refine ⟨hc.alike.fileCount ▸ hf.1, ?_⟩
  by_contra hne
  exact absurd (hc.monoFile f (Bool.not_eq_false _ ▸ hne)) (by simp [hf.2])

/-- What was freed between the two, and is not `n` itself, was in a directory that was freed as well. -/
theorem Clears.parent_freed (hg : Good h) (hn : h.LiveNode n) (hc : Clears (· = n) h h') {m : NodeId}
    (hm : h.LiveNode m) (hmn : m ≠ n) (hfreed : h'.freed.node m = true) :
    ∃ e, (h.tree.nodes m).parent = some e ∧ h'.freed.dir e = true := by
  rcases hc.node m hfreed with hm' | hm' | ⟨p, e, ⟨s, rfl, hp⟩, hloaded, hmem, he⟩
  · exact absurd hm' (by simp [hm.2])
  · exact absurd hm' hmn
  · have hlive : h.LiveDir e := hg.loaded p e (hg.below hn hp) hloaded
    exact ⟨e, (hg.entry e hlive m hmem).2, he⟩

/-- **A node is freed and taken out of its directory.** -/
theorem Good.cleared (hg : Good h) (hd : h.LiveDir d) {i : Nat} (hi : (h.tree.dirs d).entries[i]? = some (some n))
    (hc : Clears (· = n) h h') (hfreed : h'.freed.node n = true) :
    Good (h'.setTree (h'.tree.clearEntry d i)) := by
  obtain ⟨hn, hparent⟩ := hg.entry d hd n (List.mem_of_getElem? hi)
  -- the entries that are left were there before, and none of them is the node
  have hentry : ∀ e (j : Nat) m, ((h'.tree.clearEntry d i).dirs e).entries[j]? = some (some m) →
      (h.tree.dirs e).entries[j]? = some (some m) ∧ (e = d → j ≠ i) := by
    intro e j m hj
    by_cases hed : e = d
    · rw [hed] at hj ⊢
      rw [show (h'.tree.clearEntry d i).dirs d =
        { h'.tree.dirs d with entries := (h'.tree.dirs d).entries.set i none } from Function.update_self _ _ _] at hj
      have hj' : ((h'.tree.dirs d).entries.set i none)[j]? = some (some m) := hj
      rw [List.getElem?_set] at hj'
      by_cases hij : i = j
      · rw [if_pos hij] at hj'
        split at hj'
        · exact absurd hj' (by simp)
        · exact absurd hj' (by simp)
      · rw [if_neg hij, hc.alike.dirs] at hj'
        exact ⟨hj', fun _ => Ne.symm hij⟩
    · rw [show (h'.tree.clearEntry d i).dirs e = h'.tree.dirs e from Function.update_of_ne hed _ _,
        hc.alike.dirs] at hj
      exact ⟨hj, fun h => absurd h hed⟩
  have hnode : ∀ m, h.LiveNode m → (∀ e, (h.tree.nodes m).parent = some e → h'.freed.dir e = false) → m ≠ n →
      h'.LiveNode m := by
    intro m hm hdir hmn
    refine ⟨hc.alike.nodeCount ▸ hm.1, ?_⟩
    by_contra hne
    obtain ⟨e, hp, he⟩ := hc.parent_freed hg hn hm hmn (Bool.not_eq_false _ ▸ hne)
    exact absurd he (by simp [hdir e hp])
  have hrootn : h.tree.root ≠ n := by
    intro heq
    have hp := hg.root.2
    rw [heq, hparent] at hp
    exact absurd hp (by simp)
  refine ⟨⟨?_, ?_⟩, ?_, ?_, ?_, ?_, ?_, ?_, ?_, ?_, ?_⟩
  · show h'.LiveNode h'.tree.root
    rw [hc.alike.root]
    apply hnode _ hg.root.1
    · intro e he
      exact absurd (hg.root.2.symm.trans he) (by simp)
    · exact hrootn
  · show (h'.tree.nodes h'.tree.root).parent = none
    rw [hc.alike.root, (hc.alike.node _).2.2]
    exact hg.root.2
  · intro m hm hp
    obtain ⟨e, he⟩ := hg.top m (hc.live_node hm) ((hc.alike.node m).2.2.symm.trans hp)
    exact ⟨e, hc.alike.loaded.mpr he⟩
  · intro e he m hm
    obtain ⟨j, hj⟩ := List.mem_iff_getElem?.mp hm
    obtain ⟨hj', hji⟩ := hentry e j m hj
    have hle : h.LiveDir e := hc.live_dir he
    obtain ⟨hm, hp⟩ := hg.entry e hle m (List.mem_of_getElem? hj')
    refine ⟨hnode m hm ?_ ?_, ((hc.alike.node m).2.2).trans hp⟩
    · intro e' he'
      obtain rfl := Option.some.inj (hp.symm.trans he')
      exact he.2
    · rintro rfl
      obtain rfl := Option.some.inj (hp.symm.trans hparent)
      exact hji rfl (hg.once e hd j i m hj' hi)
  · intro e he j k m hj hk
    exact hg.once e (hc.live_dir he) j k m (hentry e j m hj).1 (hentry e k m hk).1
  · intro m e hm he
    have hm' : h.LiveNode m := hc.live_node hm
    have he' : h.tree.Loaded m e := hc.alike.loaded.mp he
    have hle : h.LiveDir e := hg.loaded m e hm' he'
    refine ⟨?_, ?_⟩
    · exact hc.alike.dirCount.symm ▸ hle.1
    · by_contra hne
      have hfe : h'.freed.dir e = true := Bool.not_eq_false _ ▸ hne
      rcases hc.dir e hfe with hfe | ⟨p, ⟨s, rfl, hp⟩, hloaded, hpf⟩
      · exact absurd hfe (by simp [hle.2])
      · obtain rfl := hg.loadedInj p m e (hg.below hn hp) hm' hloaded he'
        exact absurd (hpf.symm.trans hm.2) (by simp)
  · intro m k e hm hk hme hke
    exact hg.loadedInj m k e (hc.live_node hm) (hc.live_node hk) (hc.alike.loaded.mp hme) (hc.alike.loaded.mp hke)
  · intro m f hm ht hf
    have hm' : h.LiveNode m := hc.live_node hm
    have ht' : (h.tree.nodes m).type ≠ .dir := fun h => ht ((hc.alike.node m).1.trans h)
    have hf' : (h.tree.nodes m).inode = some f := (hc.alike.node m).2.1.symm.trans hf
    obtain ⟨htype, hlive, hp⟩ := hg.file m f hm' ht' hf'
    have hkept : h'.freed.file f = false := by
      by_contra hne
      have hff : h'.freed.file f = true := Bool.not_eq_false _ ▸ hne
      rcases hc.file f hff with hff | ⟨p, ⟨s, rfl, hps⟩, hpt, hpi, hpf⟩
      · exact absurd hff (by simp [hlive.2])
      · obtain rfl : p = m := ((hg.file p f (hg.below hn hps) hpt hpi).2.2).symm.trans hp
        exact absurd (hpf.symm.trans hm.2) (by simp)
    refine ⟨((hc.alike.node m).1).trans htype, ⟨hc.alike.fileCount.symm ▸ hlive.1, hkept⟩, ?_⟩
    exact (congrArg File.parent (hc.files f hkept)).trans hp
  · intro m hm
    by_contra hne
    have hmf : h'.freed.node m = true := Bool.not_eq_false _ ▸ hne
    have hm' : h.tree.nodeCount ≤ m := hc.alike.nodeCount ▸ hm
    rcases hc.under hmf with hmf | ⟨s, rfl, hs⟩
    · exact absurd hmf (by simp [hg.freshNode m hm'])
    · exact absurd (hg.below hn hs).1 (Nat.not_lt.mpr hm')
  · intro e he
    by_contra hne
    have hef : h'.freed.dir e = true := Bool.not_eq_false _ ▸ hne
    have he' : h.tree.dirCount ≤ e := hc.alike.dirCount ▸ he
    rcases hc.dir e hef with hef | ⟨p, ⟨s, rfl, hp⟩, hloaded, -⟩
    · exact absurd hef (by simp [hg.freshDir e he'])
    · exact absurd (hg.loaded p e (hg.below hn hp) hloaded).1 (Nat.not_lt.mpr he')
  · intro f hf
    by_contra hne
    have hff : h'.freed.file f = true := Bool.not_eq_false _ ▸ hne
    have hf' : h.tree.fileCount ≤ f := hc.alike.fileCount ▸ hf
    rcases hc.file f hff with hff | ⟨p, ⟨s, rfl, hp⟩, ht, hi, -⟩
    · exact absurd hff (by simp [hg.freshFile f hf'])
    · exact absurd (hg.file p f (hg.below hn hp) ht hi).2.1.1 (Nat.not_lt.mpr hf')

end

end Vfs
end Hin9
