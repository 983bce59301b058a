import Hin9.Vfs.Inotify

/-!
# `Vfs.Live` — nothing that can be reached was freed

`Good` says that the entries of a directory that is there are there too, each once and with this directory as its parent,
that the inode of a node belongs to no other, and that what was freed had been allocated. Looking something up loads
directories on the way: that keeps `Good`, and `Grows` says that it leaves every inode alone that was there before.
-/

namespace Hin9
namespace Vfs

namespace Heap

variable (h : Heap)

/-- The node was allocated and not freed. -/
def LiveNode (n : NodeId) : Prop := n < h.tree.nodeCount ∧ h.freed.node n = false

def LiveDir (d : DirId) : Prop := d < h.tree.dirCount ∧ h.freed.dir d = false

def LiveFile (f : FileId) : Prop := f < h.tree.fileCount ∧ h.freed.file f = false

end Heap

/-- What can be reached was not freed. -/
structure Good (h : Heap) : Prop where
  root : h.LiveNode h.tree.root ∧ (h.tree.nodes h.tree.root).parent = none
  top : ∀ n, h.LiveNode n → (h.tree.nodes n).parent = none → ∃ d, h.tree.Loaded n d
  entry : ∀ d, h.LiveDir d → ∀ n, some n ∈ (h.tree.dirs d).entries →
    h.LiveNode n ∧ (h.tree.nodes n).parent = some d
  once : ∀ d, h.LiveDir d → ∀ (i j : Nat) (n : NodeId), (h.tree.dirs d).entries[i]? = some (some n) →
    (h.tree.dirs d).entries[j]? = some (some n) → i = j
  loaded : ∀ n d, h.LiveNode n → h.tree.Loaded n d → h.LiveDir d
  loadedInj : ∀ n m d, h.LiveNode n → h.LiveNode m → h.tree.Loaded n d → h.tree.Loaded m d → n = m
  file : ∀ n f, h.LiveNode n → (h.tree.nodes n).type ≠ .dir → (h.tree.nodes n).inode = some f →
    (h.tree.nodes n).type = .file ∧ h.LiveFile f ∧ (h.tree.files f).parent = n
  freshNode : ∀ n, h.tree.nodeCount ≤ n → h.freed.node n = false
  freshDir : ∀ d, h.tree.dirCount ≤ d → h.freed.dir d = false
  freshFile : ∀ f, h.tree.fileCount ≤ f → h.freed.file f = false

/-- `v'` has what `v` has, and every inode that was there is as it was. -/
structure Grows (v v' : Tree) : Prop where
  root : v'.root = v.root
  nodeCount : v.nodeCount ≤ v'.nodeCount
  dirCount : v.dirCount ≤ v'.dirCount
  fileCount : v.fileCount ≤ v'.fileCount
  inode : ∀ n i, n < v.nodeCount → (v.nodes n).inode = some i →
    (v'.nodes n).type = (v.nodes n).type ∧ (v'.nodes n).inode = some i
  files : ∀ f, f < v.fileCount → v'.files f = v.files f
  newFiles : ∀ f, v.fileCount ≤ f → f < v'.fileCount → (v'.files f).refcount = 0 ∧ (v'.files f).fd = none

theorem Grows.refl (v : Tree) : Grows v v :=
  ⟨rfl, le_rfl, le_rfl, le_rfl, fun _ _ _ h => ⟨rfl, h⟩, fun _ _ => rfl, fun _ h h' => absurd h' (by omega)⟩

theorem Grows.trans {u v w : Tree} (h : Grows u v) (h' : Grows v w) : Grows u w where
  root := h'.root.trans h.root
  nodeCount := h.nodeCount.trans h'.nodeCount
  dirCount := h.dirCount.trans h'.dirCount
  fileCount := h.fileCount.trans h'.fileCount
  inode n i hn hi := by
    obtain ⟨ht, hi'⟩ := h.inode n i hn hi
    obtain ⟨ht', hi''⟩ := h'.inode n i (hn.trans_le h.nodeCount) hi'
    exact ⟨ht'.trans ht, hi''⟩
  files f hf := (h'.files f (hf.trans_le h.fileCount)).trans (h.files f hf)
  newFiles f hf hf' := by
    by_cases hmid : f < v.fileCount
    · rw [h'.files f hmid]
      exact h.newFiles f hf hmid
    · exact h'.newFiles f (by omega) hf'

section

variable {h : Heap} {n : NodeId} {d : DirId}

/-- What a lookup leaves behind. -/
def Heap.Grown (h : Heap) (v : Tree) : Prop := Good (h.setTree v) ∧ Grows h.tree v

theorem Heap.Grown.trans {v w : Tree} (hv : h.Grown v) (hw : (h.setTree v).Grown w) : h.Grown w :=
  ⟨hw.1, hv.2.trans hw.2⟩

theorem Heap.LiveNode.grow {v : Tree} (hn : h.LiveNode n) (hv : h.Grown v) : (h.setTree v).LiveNode n :=
  ⟨hn.1.trans_le hv.2.nodeCount, hn.2⟩

theorem Heap.LiveDir.grow {v : Tree} (hd : h.LiveDir d) (hv : h.Grown v) : (h.setTree v).LiveDir d :=
  ⟨hd.1.trans_le hv.2.dirCount, hd.2⟩

/-! ## One node changed in place -/

theorem Good.setNode (hg : Good h) (N : Node) (hparent : N.parent = (h.tree.nodes n).parent)
    (htop : h.LiveNode n → (h.tree.nodes n).parent = none → N.type = .dir ∧ N.inode ≠ none)
    (hdir : h.LiveNode n → N.type = .dir → ∀ d, N.inode = some d →
      h.LiveDir d ∧ ∀ m, h.LiveNode m → h.tree.Loaded m d → m = n)
    (hfile : h.LiveNode n → N.type ≠ .dir → ∀ f, N.inode = some f →
      N.type = .file ∧ h.LiveFile f ∧ (h.tree.files f).parent = n) : Good (h.setTree (h.tree.setNode n N)) := by
  have hself : (h.tree.setNode n N).nodes n = N := Function.update_self _ _ _
  have hother : ∀ m, m ≠ n → (h.tree.setNode n N).nodes m = h.tree.nodes m := fun m hm => Function.update_of_ne hm _ _
  have hpar : ∀ m, ((h.tree.setNode n N).nodes m).parent = (h.tree.nodes m).parent := by
    intro m
    by_cases hm : m = n
    · rw [hm, hself, hparent]
    · rw [hother m hm]
  refine ⟨⟨hg.root.1, (hpar _).trans hg.root.2⟩, ?_, ?_, hg.once, ?_, ?_, ?_, hg.freshNode, hg.freshDir, hg.freshFile⟩
  · intro m hm hp
    rw [show ((h.setTree (h.tree.setNode n N)).tree.nodes m).parent = (h.tree.nodes m).parent from hpar m] at hp
    unfold Tree.Loaded
    by_cases hmn : m = n
    · rw [hmn] at hm hp ⊢
      obtain ⟨htype, hinode⟩ := htop hm hp
      obtain ⟨d, hd⟩ := Option.ne_none_iff_exists'.mp hinode
      refine ⟨d, ?_⟩
      rw [show (h.setTree (h.tree.setNode n N)).tree.nodes n = N from hself]
      exact ⟨htype, hd⟩
    · rw [show (h.setTree (h.tree.setNode n N)).tree.nodes m = h.tree.nodes m from hother m hmn]
      exact hg.top m hm hp
  · intro e he m hm
    obtain ⟨hlive, hp⟩ := hg.entry e he m hm
    exact ⟨hlive, (hpar m).trans hp⟩
  · intro m e hm he
    by_cases hmn : m = n
    · rw [hmn] at hm he
      unfold Tree.Loaded at he
      rw [show (h.setTree (h.tree.setNode n N)).tree.nodes n = N from hself] at he
      exact (hdir hm he.1 e he.2).1
    · unfold Tree.Loaded at he
      rw [show (h.setTree (h.tree.setNode n N)).tree.nodes m = h.tree.nodes m from hother m hmn] at he
      exact hg.loaded m e hm he
  · intro m k e hm hk hme hke
    unfold Tree.Loaded at hme hke
    by_cases hmn : m = n
    · by_cases hkn : k = n
      · rw [hmn, hkn]
      · rw [hmn] at hm hme ⊢
        rw [show (h.setTree (h.tree.setNode n N)).tree.nodes n = N from hself] at hme
        rw [show (h.setTree (h.tree.setNode n N)).tree.nodes k = h.tree.nodes k from hother k hkn] at hke
        exact ((hdir hm hme.1 e hme.2).2 k hk hke).symm
    · rw [show (h.setTree (h.tree.setNode n N)).tree.nodes m = h.tree.nodes m from hother m hmn] at hme
      by_cases hkn : k = n
      · rw [hkn] at hk hke ⊢
        rw [show (h.setTree (h.tree.setNode n N)).tree.nodes n = N from hself] at hke
        exact (hdir hk hke.1 e hke.2).2 m hm hme
      · rw [show (h.setTree (h.tree.setNode n N)).tree.nodes k = h.tree.nodes k from hother k hkn] at hke
        exact hg.loadedInj m k e hm hk hme hke
  · intro m f hm htype hf
    by_cases hmn : m = n
    · rw [hmn] at hm htype hf ⊢
      rw [show (h.setTree (h.tree.setNode n N)).tree.nodes n = N from hself] at htype hf ⊢
      exact hfile hm htype f hf
    · rw [show (h.setTree (h.tree.setNode n N)).tree.nodes m = h.tree.nodes m from hother m hmn] at htype hf ⊢
      exact hg.file m f hm htype hf

/-- A change that leaves the type and the inode of the node alone. -/
theorem Good.touch (hg : Good h) (N : Node) (hparent : N.parent = (h.tree.nodes n).parent)
    (htype : N.type = (h.tree.nodes n).type) (hinode : N.inode = (h.tree.nodes n).inode) :
    Good (h.setTree (h.tree.setNode n N)) := by
  apply hg.setNode N hparent
  · intro hn hp
    obtain ⟨d, hd⟩ := hg.top n hn hp
    rw [htype, hinode, hd.1, hd.2]
    exact ⟨rfl, by simp⟩
  · intro hn ht d hd
    have hl : h.tree.Loaded n d := ⟨htype ▸ ht, hinode ▸ hd⟩
    exact ⟨hg.loaded n d hn hl, fun m hm hmd => hg.loadedInj m n d hm hn hmd hl⟩
  · intro hn ht f hf
    rw [htype]
    exact hg.file n f hn (htype ▸ ht) (hinode ▸ hf)

/-! ## Looking up -/

/-- A new inode for a node that has none. -/
theorem Good.newFile (hg : Good h) (hn : h.LiveNode n) (hinode : (h.tree.nodes n).inode = none) (F : File)
    (hF : F.parent = n) (hcount : F.refcount = 0 ∧ F.fd = none) :
    h.Grown ((h.tree.newFile F).1.setNode n
      { (h.tree.newFile F).1.nodes n with type := .file, inode := some (h.tree.newFile F).2 }) := by
  have hne : ∀ f, f < h.tree.fileCount → (h.tree.newFile F).1.files f = h.tree.files f := fun f hf =>
    Function.update_of_ne (Nat.ne_of_lt hf) _ _
  have hlive : (h.setTree (h.tree.newFile F).1).LiveFile h.tree.fileCount :=
    ⟨Nat.lt_succ_self _, hg.freshFile _ le_rfl⟩
  have hgood : Good (h.setTree (h.tree.newFile F).1) := by
    refine ⟨hg.root, hg.top, hg.entry, hg.once, hg.loaded, hg.loadedInj, ?_, hg.freshNode, hg.freshDir, ?_⟩
    · intro m f hm ht hf
      obtain ⟨htype, hfile, hparent⟩ := hg.file m f hm ht hf
      refine ⟨htype, ⟨hfile.1.trans (Nat.lt_succ_self _), hfile.2⟩, ?_⟩
      exact (congrArg File.parent (hne f hfile.1)).trans hparent
    · intro f hf
      exact hg.freshFile f (Nat.le_of_succ_le hf)
  constructor
  · refine hgood.setNode { (h.tree.newFile F).1.nodes n with type := .file, inode := some (h.tree.newFile F).2 } rfl
      ?_ ?_ ?_
    · intro _ hp
      obtain ⟨d, hd⟩ := hg.top n hn hp
      exact absurd (hinode.symm.trans hd.2) (by simp)
    · intro _ ht
      exact absurd ht (by simp)
    · intro _ _ f hf
      obtain rfl : h.tree.fileCount = f := by simpa [Tree.newFile] using hf
      refine ⟨rfl, hlive, ?_⟩
      show (Function.update h.tree.files h.tree.fileCount F h.tree.fileCount).parent = n
      rw [Function.update_self, hF]
  · refine ⟨rfl, le_rfl, le_rfl, Nat.le_succ _, ?_, hne, ?_⟩
    · intro m i hm hi
      have hmn : m ≠ n := by
        rintro rfl
        exact absurd (hinode.symm.trans hi) (by simp)
      have hsame : ∀ N, ((h.tree.newFile F).1.setNode n N).nodes m = h.tree.nodes m := fun N =>
        Function.update_of_ne hmn _ _
      rw [hsame]
      exact ⟨rfl, hi⟩
    · intro f hf hf'
      obtain rfl : f = h.tree.fileCount := Nat.le_antisymm (Nat.le_of_lt_succ hf') hf
      show (Function.update h.tree.files h.tree.fileCount F h.tree.fileCount).refcount = 0 ∧
        (Function.update h.tree.files h.tree.fileCount F h.tree.fileCount).fd = none
      rw [Function.update_self]
      exact hcount

theorem Good.stat (hg : Good h) (os : Os) (hn : h.LiveNode n) (path : Bytes) :
    h.Grown (basicVfsStat os h.tree n path).1 := by
  unfold basicVfsStat
  cases hinode : (h.tree.nodes n).inode with
  | some i => exact ⟨hg, Grows.refl _⟩
  | none =>
      dsimp only
      cases os.statx path with
      | none => exact ⟨hg, Grows.refl _⟩
      | some st =>
          dsimp only
          split
          · constructor
            · refine hg.setNode { h.tree.nodes n with type := .dir } rfl ?_ ?_ ?_
              · intro _ hp
                obtain ⟨d, hd⟩ := hg.top n hn hp
                exact absurd (hinode.symm.trans hd.2) (by simp)
              · intro _ _ d hd
                exact absurd (hinode.symm.trans hd) (by simp)
              · intro _ _ f hf
                exact absurd (hinode.symm.trans hf) (by simp)
            · refine ⟨rfl, le_rfl, le_rfl, le_rfl, ?_, fun _ _ => rfl, fun _ hf hf' => absurd hf' (Nat.not_lt.mpr hf)⟩
              intro m i hm hi
              have hmn : m ≠ n := by
                rintro rfl
                exact absurd (hinode.symm.trans hi) (by simp)
              have hsame : (h.tree.setNode n { h.tree.nodes n with type := .dir }).nodes m = h.tree.nodes m :=
                Function.update_of_ne hmn _ _
              rw [hsame]
              exact ⟨rfl, hi⟩
          · exact hg.newFile hn hinode _ rfl ⟨rfl, rfl⟩

theorem Good.getFile (hg : Good h) (os : Os) (hn : h.LiveNode n) : h.Grown (basicVfsGetFile os h.tree n).1 := by
  unfold basicVfsGetFile
  split
  · exact ⟨hg, Grows.refl _⟩
  · split
    · exact ⟨hg, Grows.refl _⟩
    · split
      · exact ⟨hg, Grows.refl _⟩
      · exact hg.stat os hn _

/-- What a search finds is an entry of the directory. -/
theorem search_mem {v : Tree} {name : Bytes} (hs : basicVfsSearchDir v (some d) name = some n) :
    some n ∈ (v.dirs d).entries ∧ (v.nodes n).name = name := by
  obtain ⟨hmem, hname⟩ := searchEntries_found hs
  exact ⟨List.mem_of_mem_take hmem, hname⟩

theorem mem_growEntries {D : Dir} {num : Nat} (hmem : some n ∈ (growEntries D num).2) : some n ∈ D.entries := by
  unfold growEntries at hmem
  split at hmem
  · rcases List.mem_append.mp hmem with hmem | hmem
    · exact hmem
    · exact absurd (List.eq_of_mem_replicate hmem) (by simp)
  · exact hmem

theorem getElem?_growEntries {D : Dir} {num i : Nat} (hi : (growEntries D num).2[i]? = some (some n)) :
    D.entries[i]? = some (some n) := by
  unfold growEntries at hi
  split at hi
  · rw [List.getElem?_append] at hi
    split at hi
    · exact hi
    · have hmem := List.mem_of_getElem? hi
      exact absurd (List.eq_of_mem_replicate hmem) (by simp)
  · exact hi

/-- A new node in a slot of a directory. -/
theorem Good.newEntry (hg : Good h) (hd : h.LiveDir d) (N : Node) (D : Dir) (hparent : N.parent = some d)
    (hinode : N.inode = none)
    (hmem : ∀ m, some m ∈ D.entries → some m ∈ (h.tree.dirs d).entries ∨ m = h.tree.nodeCount)
    (honce : ∀ (i j : Nat) (m : NodeId), D.entries[i]? = some (some m) → D.entries[j]? = some (some m) → i = j) :
    h.Grown ((h.tree.newNode N).1.setDir d D) := by
  have hold : ∀ m, m < h.tree.nodeCount → ((h.tree.newNode N).1.setDir d D).nodes m = h.tree.nodes m := fun m hm =>
    Function.update_of_ne (Nat.ne_of_lt hm) _ _
  have hnew : ((h.tree.newNode N).1.setDir d D).nodes h.tree.nodeCount = N := Function.update_self _ _ _
  -- an allocated node is an old one or the new one
  have hcases : ∀ m, m < ((h.tree.newNode N).1.setDir d D).nodeCount → m < h.tree.nodeCount ∨ m = h.tree.nodeCount :=
    fun m hm => Nat.lt_or_eq_of_le (Nat.le_of_lt_succ hm)
  have hnotLoaded : ∀ e, ¬ ((h.tree.newNode N).1.setDir d D).Loaded h.tree.nodeCount e := by
    intro e he
    have hi := he.2
    rw [hnew, hinode] at hi
    exact absurd hi (by simp)
  have hloaded : ∀ m e, m < h.tree.nodeCount → ((h.tree.newNode N).1.setDir d D).Loaded m e → h.tree.Loaded m e := by
    intro m e hm he
    unfold Tree.Loaded at he
    rwa [hold m hm] at he
  constructor
  · refine ⟨⟨⟨Nat.lt_succ_of_lt hg.root.1.1, hg.root.1.2⟩, ?_⟩, ?_, ?_, ?_, ?_, ?_, ?_, ?_, hg.freshDir, hg.freshFile⟩
    · exact (congrArg Node.parent (hold _ hg.root.1.1)).trans hg.root.2
    · intro m hm hp
      unfold Tree.Loaded
      rcases hcases m hm.1 with hlt | rfl
      · rw [show (h.setTree ((h.tree.newNode N).1.setDir d D)).tree.nodes m = h.tree.nodes m from hold m hlt] at hp ⊢
        exact hg.top m ⟨hlt, hm.2⟩ hp
      · rw [show (h.setTree ((h.tree.newNode N).1.setDir d D)).tree.nodes h.tree.nodeCount = N from hnew, hparent] at hp
        exact absurd hp (by simp)
    · intro e he m hm
      by_cases hed : e = d
      · have hD : ((h.tree.newNode N).1.setDir d D).dirs e = D := by
          rw [hed]
          exact Function.update_self _ _ _
        have hm' : some m ∈ D.entries := hD ▸ hm
        rcases hmem m hm' with hin | rfl
        · obtain ⟨hl, hp⟩ := hg.entry d hd m hin
          refine ⟨⟨Nat.lt_succ_of_lt hl.1, hl.2⟩, ?_⟩
          rw [hed]
          exact (congrArg Node.parent (hold m hl.1)).trans hp
        · refine ⟨⟨Nat.lt_succ_self _, hg.freshNode _ le_rfl⟩, ?_⟩
          rw [hed]
          exact (congrArg Node.parent hnew).trans hparent
      · have hD : ((h.tree.newNode N).1.setDir d D).dirs e = h.tree.dirs e := Function.update_of_ne hed _ _
        obtain ⟨hl, hp⟩ := hg.entry e he m (hD ▸ hm)
        exact ⟨⟨Nat.lt_succ_of_lt hl.1, hl.2⟩, (congrArg Node.parent (hold m hl.1)).trans hp⟩
    · intro e he
      by_cases hed : e = d
      · have hD : ((h.tree.newNode N).1.setDir d D).dirs e = D := by
          rw [hed]
          exact Function.update_self _ _ _
        intro i j m hi hj
        have hi' : (((h.tree.newNode N).1.setDir d D).dirs e).entries[i]? = some (some m) := hi
        have hj' : (((h.tree.newNode N).1.setDir d D).dirs e).entries[j]? = some (some m) := hj
        rw [hD] at hi' hj'
        exact honce i j m hi' hj'
      · have hD : ((h.tree.newNode N).1.setDir d D).dirs e = h.tree.dirs e := Function.update_of_ne hed _ _
        intro i j m hi hj
        have hi' : (((h.tree.newNode N).1.setDir d D).dirs e).entries[i]? = some (some m) := hi
        have hj' : (((h.tree.newNode N).1.setDir d D).dirs e).entries[j]? = some (some m) := hj
        rw [hD] at hi' hj'
        exact hg.once e he i j m hi' hj'
    · intro m e hm he
      rcases hcases m hm.1 with hlt | rfl
      · exact hg.loaded m e ⟨hlt, hm.2⟩ (hloaded m e hlt he)
      · exact absurd he (hnotLoaded e)
    · intro m k e hm hk hme hke
      rcases hcases m hm.1 with hlt | rfl
      · rcases hcases k hk.1 with hlt' | rfl
        · exact hg.loadedInj m k e ⟨hlt, hm.2⟩ ⟨hlt', hk.2⟩ (hloaded m e hlt hme) (hloaded k e hlt' hke)
        · exact absurd hke (hnotLoaded e)
      · exact absurd hme (hnotLoaded e)
    · intro m f hm ht hf
      rcases hcases m hm.1 with hlt | rfl
      · have hsame : (h.setTree ((h.tree.newNode N).1.setDir d D)).tree.nodes m = h.tree.nodes m := hold m hlt
        rw [hsame] at ht hf ⊢
        exact hg.file m f ⟨hlt, hm.2⟩ ht hf
      · have hsame : (h.setTree ((h.tree.newNode N).1.setDir d D)).tree.nodes h.tree.nodeCount = N := hnew
        rw [hsame, hinode] at hf
        exact absurd hf (by simp)
    · exact fun m hm => hg.freshNode m (Nat.le_of_succ_le hm)
  · refine ⟨rfl, Nat.le_succ _, le_rfl, le_rfl, ?_, fun _ _ => rfl, fun _ hf hf' => absurd hf' (Nat.not_lt.mpr hf)⟩
    intro m i hm hi
    rw [hold m hm]
    exact ⟨rfl, hi⟩

/-- **An entry is there, or it is added.** -/
theorem Good.add (hg : Good h) (hd : h.LiveDir d) (type : EntType) (name : Bytes) :
    h.Grown (basicVfsAdd h.tree d type name).1 ∧
      (h.setTree (basicVfsAdd h.tree d type name).1).LiveNode (basicVfsAdd h.tree d type name).2 ∧
      (basicVfsSearchDir h.tree (some d) name = some (basicVfsAdd h.tree d type name).2 ∨
        h.tree.nodeCount ≤ (basicVfsAdd h.tree d type name).2) := by
  unfold basicVfsAdd
  cases hs : basicVfsSearchDir h.tree (some d) name with
  | some n =>
      obtain ⟨hmem, -⟩ := search_mem hs
      exact ⟨⟨hg, Grows.refl _⟩, (hg.entry d hd n hmem).1, .inl rfl⟩
  | none =>
      dsimp only
      refine ⟨?_, ⟨Nat.lt_succ_self _, hg.freshNode _ le_rfl⟩, .inr le_rfl⟩
      apply hg.newEntry hd
      · rfl
      · rfl
      · intro m hm
        rcases List.mem_or_eq_of_mem_set hm with hin | heq
        · exact .inl (mem_growEntries hin)
        · exact .inr (Option.some.inj heq)
      · intro i j m hi hj
        -- the new node is in one slot only, and the others were there before
        rw [List.getElem?_set] at hi hj
        have hfresh : some h.tree.nodeCount ∉ (h.tree.dirs d).entries := by
          intro hin
          exact absurd (hg.entry d hd _ hin).1.1 (lt_irrefl _)
        have hnew : ∀ k : Nat, (growEntries (h.tree.dirs d) (addSlot (h.tree.dirs d)).2).2[k]? = some (some m) →
            m ≠ h.tree.nodeCount := by
          rintro k hk rfl
          exact hfresh (List.mem_of_getElem? (getElem?_growEntries hk))
        by_cases hsi : (addSlot (h.tree.dirs d)).1 = i
        · by_cases hsj : (addSlot (h.tree.dirs d)).1 = j
          · exact hsi.symm.trans hsj
          · rw [if_pos hsi] at hi
            rw [if_neg hsj] at hj
            split at hi
            · have hm : h.tree.nodeCount = m := by simpa [Tree.newNode] using hi
              exact absurd hm.symm (hnew j hj)
            · exact absurd hi (by simp)
        · rw [if_neg hsi] at hi
          by_cases hsj : (addSlot (h.tree.dirs d)).1 = j
          · rw [if_pos hsj] at hj
            split at hj
            · have hm : h.tree.nodeCount = m := by simpa [Tree.newNode] using hj
              exact absurd hm.symm (hnew i hi)
            · exact absurd hj (by simp)
          · rw [if_neg hsj] at hj
            exact hg.once d hd i j m (getElem?_growEntries hi) (getElem?_growEntries hj)

theorem Good.addDirent (hg : Good h) (os : Os) (hd : h.LiveDir d) (e : Dirent) :
    h.Grown (Vfs.addDirent os d h.tree e) := by
  unfold Vfs.addDirent
  have hadded : ∀ type, h.Grown (basicVfsGetFile os (basicVfsAdd h.tree d type e.name).1
      (basicVfsAdd h.tree d type e.name).2).1 := by
    intro type
    obtain ⟨hgrown, hlive, -⟩ := hg.add hd type e.name
    exact hgrown.trans (hgrown.1.getFile os hlive)
  split
  · exact ⟨hg, Grows.refl _⟩
  · split
    · exact (hg.add hd _ _).1
    · exact hadded _
    · exact hadded _
    · exact ⟨hg, Grows.refl _⟩

theorem Good.readDir (hg : Good h) (os : Os) (hd : h.LiveDir d) (dents : List Dirent) :
    h.Grown (dents.foldl (Vfs.addDirent os d) h.tree) := by
  induction dents generalizing h with
  | nil => exact ⟨hg, Grows.refl _⟩
  | cons e dents ih =>
      have hfirst := hg.addDirent os hd e
      exact hfirst.trans (ih hfirst.1 (hd.grow hfirst))

/-- The text of a path is nothing that could be freed. -/
theorem Good.setPath (hg : Good h) (d : DirId) (path : Bytes) :
    h.Grown (h.tree.setDir d { h.tree.dirs d with path := path }) := by
  have hentries : ∀ e, ((h.tree.setDir d { h.tree.dirs d with path := path }).dirs e).entries = (h.tree.dirs e).entries := by
    intro e
    by_cases hed : e = d
    · rw [hed]
      show (Function.update h.tree.dirs d { h.tree.dirs d with path := path } d).entries = _
      rw [Function.update_self]
    · exact congrArg Dir.entries (Function.update_of_ne hed _ _)
  constructor
  · refine ⟨hg.root, hg.top, ?_, ?_, hg.loaded, hg.loadedInj, hg.file, hg.freshNode, hg.freshDir, hg.freshFile⟩
    · intro e he m hm
      exact hg.entry e he m (hentries e ▸ hm)
    · intro e he i j m hi hj
      have hi' : ((h.tree.setDir d { h.tree.dirs d with path := path }).dirs e).entries[i]? = some (some m) := hi
      have hj' : ((h.tree.setDir d { h.tree.dirs d with path := path }).dirs e).entries[j]? = some (some m) := hj
      rw [hentries e] at hi' hj'
      exact hg.once e he i j m hi' hj'
  · exact ⟨rfl, le_rfl, le_rfl, le_rfl, fun _ _ _ hi => ⟨rfl, hi⟩, fun _ _ => rfl, fun _ hf hf' => absurd hf' (Nat.not_lt.mpr hf)⟩

theorem Good.statDir (hg : Good h) (os : Os) (hd : h.LiveDir d) (path : Bytes) :
    h.Grown (basicVfsStatDir os h.tree d path).1 := by
  have hset := hg.setPath d path
  unfold basicVfsStatDir
  dsimp only
  cases os.readDir path with
  | none => exact hset
  | some dents => exact hset.trans (hset.1.readDir os (hd.grow hset) dents)

/-- An empty directory that no node has yet. -/
theorem Good.newDir (hg : Good h) (D : Dir) (hentries : D.entries = []) : h.Grown (h.tree.newDir D).1 := by
  have hold : ∀ e, e < h.tree.dirCount → (h.tree.newDir D).1.dirs e = h.tree.dirs e := fun e he =>
    Function.update_of_ne (Nat.ne_of_lt he) _ _
  have hnew : (h.tree.newDir D).1.dirs h.tree.dirCount = D := Function.update_self _ _ _
  have hcases : ∀ e, (h.setTree (h.tree.newDir D).1).LiveDir e → h.LiveDir e ∨ e = h.tree.dirCount := by
    intro e he
    rcases Nat.lt_or_eq_of_le (Nat.le_of_lt_succ he.1) with hlt | heq
    · exact .inl ⟨hlt, he.2⟩
    · exact .inr heq
  constructor
  · refine ⟨hg.root, hg.top, ?_, ?_, ?_, hg.loadedInj, hg.file, hg.freshNode, ?_, hg.freshFile⟩
    · intro e he m hm
      have hm' : some m ∈ ((h.tree.newDir D).1.dirs e).entries := hm
      rcases hcases e he with hl | rfl
      · rw [hold e hl.1] at hm'
        exact hg.entry e hl m hm'
      · rw [hnew, hentries] at hm'
        exact absurd hm' (by simp)
    · intro e he i j m hi hj
      have hi' : ((h.tree.newDir D).1.dirs e).entries[i]? = some (some m) := hi
      have hj' : ((h.tree.newDir D).1.dirs e).entries[j]? = some (some m) := hj
      rcases hcases e he with hl | rfl
      · rw [hold e hl.1] at hi' hj'
        exact hg.once e hl i j m hi' hj'
      · rw [hnew, hentries] at hi'
        exact absurd hi' (by simp)
    · intro m e hm he
      obtain ⟨hlt, hfree⟩ := hg.loaded m e hm he
      exact ⟨Nat.lt_succ_of_lt hlt, hfree⟩
    · exact fun e he => hg.freshDir e (Nat.le_of_succ_le he)
  · exact ⟨rfl, le_rfl, Nat.le_succ _, le_rfl, fun _ _ _ hi => ⟨rfl, hi⟩, fun _ _ => rfl,
      fun _ hf hf' => absurd hf' (Nat.not_lt.mpr hf)⟩

/-- The node of a directory gets its inode. -/
theorem Good.opened (hg : Good h) {p : DirId} (htype : (h.tree.nodes n).type = .dir)
    (hinode : (h.tree.nodes n).inode = none) :
    h.Grown (h.tree.opened n p) ∧ (h.setTree (h.tree.opened n p)).LiveDir h.tree.dirCount := by
  have hempty := hg.newDir { parent := some p, path := (h.tree.dirs p).path ++ (h.tree.nodes n).name ++ [47] } rfl
  have hlive : (h.setTree (h.tree.opened n p)).LiveDir h.tree.dirCount := ⟨Nat.lt_succ_self _, hg.freshDir _ le_rfl⟩
  refine ⟨⟨?_, hempty.2.trans ⟨rfl, le_rfl, le_rfl, le_rfl, ?_, fun _ _ => rfl,
    fun _ hf hf' => absurd hf' (Nat.not_lt.mpr hf)⟩⟩, hlive⟩
  · refine hempty.1.setNode { h.tree.nodes n with inode := some h.tree.dirCount } rfl ?_ ?_ ?_
    · exact fun _ _ => ⟨htype, by simp⟩
    · intro _ _ e he
      obtain rfl : h.tree.dirCount = e := Option.some.inj he
      refine ⟨hlive, fun m hm hme => ?_⟩
      exact absurd (hg.loaded m _ hm hme).1 (lt_irrefl _)
    · exact fun _ ht => absurd htype ht
  · intro m i hm hi
    have hmn : m ≠ n := by
      rintro rfl
      exact absurd (hinode.symm.trans hi) (by simp)
    have hsame : (h.tree.opened n p).nodes m = h.tree.nodes m := Function.update_of_ne hmn _ _
    rw [hsame]
    exact ⟨rfl, hi⟩

/-- **A directory is loaded** when it is looked into for the first time. -/
theorem Good.getDir (hg : Good h) (os : Os) (hn : h.LiveNode n) :
    h.Grown (basicVfsGetDir os h.tree n).1 ∧
      ∀ d, (basicVfsGetDir os h.tree n).2 = some d →
        (h.setTree (basicVfsGetDir os h.tree n).1).LiveDir d ∧ (basicVfsGetDir os h.tree n).1.Loaded n d := by
  by_cases htype : (h.tree.nodes n).type = .dir
  · cases hinode : (h.tree.nodes n).inode with
    | some d =>
        have heq : basicVfsGetDir os h.tree n = (h.tree, some d) := by simp [basicVfsGetDir, htype, hinode]
        rw [heq]
        refine ⟨⟨hg, Grows.refl _⟩, ?_⟩
        intro e he
        obtain rfl : d = e := Option.some.inj he
        exact ⟨hg.loaded n d hn ⟨htype, hinode⟩, htype, hinode⟩
    | none =>
        cases hparent : (h.tree.nodes n).parent with
        | none =>
            have heq : basicVfsGetDir os h.tree n = (h.tree, none) := by
              simp [basicVfsGetDir, htype, hinode, hparent]
            rw [heq]
            exact ⟨⟨hg, Grows.refl _⟩, fun d hd => absurd hd (by simp)⟩
        | some p =>
            rw [basicVfsGetDir_load os htype hinode hparent]
            obtain ⟨hopened, hlive⟩ := hg.opened (p := p) htype hinode
            have hl : (h.tree.opened n p).Loaded n h.tree.dirCount := opened_loaded htype
            split
            · -- the directory cannot be read
              have htouch : h.Grown ((h.tree.opened n p).setNode n
                  { (h.tree.opened n p).nodes n with forbidden := true }) := by
                constructor
                · exact hopened.1.touch { (h.tree.opened n p).nodes n with forbidden := true } rfl rfl rfl
                · refine hopened.2.trans ⟨rfl, le_rfl, le_rfl, le_rfl, ?_, fun _ _ => rfl,
                    fun _ hf hf' => absurd hf' (Nat.not_lt.mpr hf)⟩
                  intro m i hm hi
                  by_cases hmn : m = n
                  · subst hmn
                    have hself : ((h.tree.opened m p).setNode m
                        { (h.tree.opened m p).nodes m with forbidden := true }).nodes m =
                        { (h.tree.opened m p).nodes m with forbidden := true } := Function.update_self _ _ _
                    rw [hself]
                    exact ⟨rfl, hi⟩
                  · have hsame : ((h.tree.opened n p).setNode n
                        { (h.tree.opened n p).nodes n with forbidden := true }).nodes m = (h.tree.opened n p).nodes m :=
                      Function.update_of_ne hmn _ _
                    rw [hsame]
                    exact ⟨rfl, hi⟩
              refine ⟨htouch, fun e he => ?_⟩
              obtain rfl : h.tree.dirCount = e := Option.some.inj he
              have hself : ((h.tree.opened n p).setNode n
                  { (h.tree.opened n p).nodes n with forbidden := true }).nodes n =
                  { (h.tree.opened n p).nodes n with forbidden := true } := Function.update_self _ _ _
              refine ⟨hlive, ?_, ?_⟩
              · rw [hself]
                exact hl.1
              · rw [hself]
                exact hl.2
            · rename_i dents _
              have hread := hopened.1.readDir os hlive dents
              refine ⟨hopened.trans hread, fun e he => ?_⟩
              obtain rfl : h.tree.dirCount = e := Option.some.inj he
              obtain ⟨htype', hinode'⟩ := hread.2.inode n _ hn.1 hl.2
              exact ⟨hlive.grow hread, htype'.trans hl.1, hinode'⟩
  · have heq : basicVfsGetDir os h.tree n = (h.tree, none) := by simp [basicVfsGetDir, htype]
    rw [heq]
    exact ⟨⟨hg, Grows.refl _⟩, fun d hd => absurd hd (by simp)⟩

end

end Vfs
end Hin9
