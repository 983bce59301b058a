import Hin9.Vfs.Tree
import Hin9.Lib.LabelledTree

/-!
# `Vfs.TreeInvariant` — the heap stays a tree, and loading only adds to it

`WF` says what makes the heap a tree: every entry of a directory points back to it and is found under its own
name, a directory inode belongs to one node, and its path is that of the directory above followed by the name.
`Ext` says that one heap extends another: nothing a search found before is lost or moved.

Every operation a lookup can trigger (adding an entry, `stat`, loading a directory) keeps `WF` and leads to an
extension; the last section reads the two as facts about the labelled tree `child`.
-/

namespace Hin9
namespace Vfs

open Lib

/-! ## Searching the slots -/

/-- The slots `basic_vfs_search_dir` looks at. -/
def Tree.slots (v : Tree) (d : DirId) : List (Option NodeId) := (v.dirs d).entries.take (v.dirs d).num

theorem basicVfsSearchDir_some (v : Tree) (d : DirId) (name : Bytes) :
    basicVfsSearchDir v (some d) name = searchEntries v.nodes name (v.slots d) := rfl

theorem searchEntries_found {nodes : NodeId → Node} {name : Bytes} {es : List (Option NodeId)} {n : NodeId}
    (h : searchEntries nodes name es = some n) : some n ∈ es ∧ (nodes n).name = name := by
  induction es with
  | nil => exact absurd h (by simp [searchEntries])
  | cons e es ih =>
      cases e with
      | none =>
          have := ih h
          exact ⟨List.mem_cons_of_mem _ this.1, this.2⟩
      | some m =>
          simp only [searchEntries] at h
          split at h
          · rename_i hname
            obtain rfl := Option.some.inj h
            exact ⟨List.mem_cons_self, hname⟩
          · have := ih h
            exact ⟨List.mem_cons_of_mem _ this.1, this.2⟩

theorem searchEntries_append (nodes : NodeId → Node) (name : Bytes) (es fs : List (Option NodeId)) :
    searchEntries nodes name (es ++ fs) = (searchEntries nodes name es).or (searchEntries nodes name fs) := by
  induction es with
  | nil => simp [searchEntries]
  | cons e es ih =>
      cases e with
      | none => simpa [searchEntries] using ih
      | some m =>
          simp only [List.cons_append, searchEntries]
          split
          · simp
          · exact ih

/-- A search reads nothing but the names of the entries. -/
theorem searchEntries_congr {nodes nodes' : NodeId → Node} {es : List (Option NodeId)} (name : Bytes)
    (h : ∀ n, some n ∈ es → (nodes' n).name = (nodes n).name) :
    searchEntries nodes' name es = searchEntries nodes name es := by
  induction es with
  | nil => rfl
  | cons e es ih =>
      have ih' := ih fun n hn => h n (List.mem_cons_of_mem _ hn)
      cases e with
      | none => exact ih'
      | some m => simp only [searchEntries, h m List.mem_cons_self, ih']

/-! ## The invariant and the extension order -/

/-- `n` is a loaded directory whose inode is `d`. -/
def Tree.Loaded (v : Tree) (n : NodeId) (d : DirId) : Prop := (v.nodes n).type = .dir ∧ (v.nodes n).inode = some d

/-- The heap is a tree. -/
structure WF (v : Tree) : Prop where
  root_lt : v.root < v.nodeCount
  root_parent : (v.nodes v.root).parent = none
  root_loaded : ∃ d, v.Loaded v.root d ∧ (v.dirs d).path = [47]
  entry : ∀ d n, some n ∈ v.slots d →
    n < v.nodeCount ∧ (v.nodes n).parent = some d ∧ ValidName (v.nodes n).name ∧
      searchEntries v.nodes (v.nodes n).name (v.slots d) = some n
  parent_lt : ∀ n p, (v.nodes n).parent = some p → p < v.dirCount
  loaded_lt : ∀ n d, v.Loaded n d → d < v.dirCount
  loaded_path : ∀ n d p, v.Loaded n d → (v.nodes n).parent = some p →
    (v.dirs d).path = (v.dirs p).path ++ (v.nodes n).name ++ [47]
  loaded_inj : ∀ n m d, v.Loaded n d → v.Loaded m d → n = m
  used_eq : ∀ d, (v.dirs d).used = (v.dirs d).num
  num_le : ∀ d, (v.dirs d).num ≤ (v.dirs d).max
  max_eq : ∀ d, (v.dirs d).entries.length = (v.dirs d).max

/-- `v'` has everything `v` has, in the same place. -/
structure Ext (v v' : Tree) : Prop where
  root : v'.root = v.root
  nodeCount : v.nodeCount ≤ v'.nodeCount
  dirCount : v.dirCount ≤ v'.dirCount
  name : ∀ n, n < v.nodeCount → (v'.nodes n).name = (v.nodes n).name
  parent : ∀ n, n < v.nodeCount → (v'.nodes n).parent = (v.nodes n).parent
  loaded : ∀ n d, n < v.nodeCount → v.Loaded n d → v'.Loaded n d
  path : ∀ d, d < v.dirCount → (v'.dirs d).path = (v.dirs d).path
  search : ∀ d name n, d < v.dirCount →
    basicVfsSearchDir v (some d) name = some n → basicVfsSearchDir v' (some d) name = some n

theorem Ext.refl (v : Tree) : Ext v v :=
  ⟨rfl, Nat.le_refl _, Nat.le_refl _, fun _ _ => rfl, fun _ _ => rfl, fun _ _ _ h => h, fun _ _ => rfl, fun _ _ _ _ h => h⟩

theorem Ext.trans {u v w : Tree} (h : Ext u v) (h' : Ext v w) : Ext u w where
  root := h'.root.trans h.root
  nodeCount := Nat.le_trans h.nodeCount h'.nodeCount
  dirCount := Nat.le_trans h.dirCount h'.dirCount
  name n hn := (h'.name n (Nat.lt_of_lt_of_le hn h.nodeCount)).trans (h.name n hn)
  parent n hn := (h'.parent n (Nat.lt_of_lt_of_le hn h.nodeCount)).trans (h.parent n hn)
  loaded n d hn hl := h'.loaded n d (Nat.lt_of_lt_of_le hn h.nodeCount) (h.loaded n d hn hl)
  path d hd := (h'.path d (Nat.lt_of_lt_of_le hd h.dirCount)).trans (h.path d hd)
  search d name n hd hs := h'.search d name n (Nat.lt_of_lt_of_le hd h.dirCount) (h.search d name n hd hs)

/-! ## One node changed in place -/

/-- Setting a node keeps the tree when its name and parent stay and it does not become a loaded directory
    it was not: this covers `stat`, the reference counts and the forbidden flag. -/
theorem WF.setNode {v : Tree} (hv : WF v) {n : NodeId} {N : Node} (hname : N.name = (v.nodes n).name)
    (hparent : N.parent = (v.nodes n).parent)
    (hloaded : ∀ d, (N.type = .dir ∧ N.inode = some d) ↔ v.Loaded n d) :
    WF (v.setNode n N) ∧ Ext v (v.setNode n N) := by
  have nm : ∀ m, ((v.setNode n N).nodes m).name = (v.nodes m).name := by
    intro m
    by_cases h : m = n
    · subst h; simpa [Tree.setNode] using hname
    · simp [Tree.setNode, h]
  have pr : ∀ m, ((v.setNode n N).nodes m).parent = (v.nodes m).parent := by
    intro m
    by_cases h : m = n
    · subst h; simpa [Tree.setNode] using hparent
    · simp [Tree.setNode, h]
  have ld : ∀ m d, (v.setNode n N).Loaded m d ↔ v.Loaded m d := by
    intro m d
    by_cases h : m = n
    · subst h; simpa [Tree.setNode, Tree.Loaded] using hloaded d
    · simp [Tree.setNode, Tree.Loaded, h]
  have sr : ∀ d name, searchEntries (v.setNode n N).nodes name (v.slots d)
      = searchEntries v.nodes name (v.slots d) := fun d name => searchEntries_congr name fun m _ => nm m
  refine ⟨⟨hv.root_lt, ?_, ?_, ?_, ?_, ?_, ?_, ?_, hv.used_eq, hv.num_le, hv.max_eq⟩, ?_⟩
  · exact (pr _).trans hv.root_parent
  · obtain ⟨d, hd, hp⟩ := hv.root_loaded
    exact ⟨d, (ld _ _).mpr hd, hp⟩
  · intro d m hm
    obtain ⟨h1, h2, h3, h4⟩ := hv.entry d m hm
    refine ⟨h1, (pr m).trans h2, by rw [nm]; exact h3, ?_⟩
    rw [nm]
    exact (sr d _).trans h4
  · intro m p hp
    rw [pr] at hp
    exact hv.parent_lt m p hp
  · intro m d hd
    exact hv.loaded_lt m d ((ld m d).mp hd)
  · intro m d p hd hp
    rw [pr] at hp
    rw [nm]
    exact hv.loaded_path m d p ((ld m d).mp hd) hp
  · intro m m' d h1 h2
    exact hv.loaded_inj m m' d ((ld m d).mp h1) ((ld m' d).mp h2)
  · exact ⟨rfl, Nat.le_refl _, Nat.le_refl _, fun m _ => nm m, fun m _ => pr m, fun m d _ h => (ld m d).mpr h,
      fun _ _ => rfl, fun d name m _ h => (sr d name).trans h⟩

/-- Allocating or changing a file inode touches neither nodes nor directories. -/
theorem WF.files {v : Tree} (hv : WF v) (files : FileId → File) (k : Nat) :
    WF { v with files := files, fileCount := k } ∧ Ext v { v with files := files, fileCount := k } :=
  ⟨⟨hv.root_lt, hv.root_parent, hv.root_loaded, hv.entry, hv.parent_lt, hv.loaded_lt, hv.loaded_path,
      hv.loaded_inj, hv.used_eq, hv.num_le, hv.max_eq⟩,
    ⟨rfl, Nat.le_refl _, Nat.le_refl _, fun _ _ => rfl, fun _ _ => rfl, fun _ _ _ h => h, fun _ _ => rfl,
      fun _ _ _ _ h => h⟩⟩

/-! ## `stat` -/

theorem basicVfsStat_spec (os : Os) {v : Tree} (hv : WF v) (n : NodeId) (path : Bytes) :
    WF (basicVfsStat os v n path).1 ∧ Ext v (basicVfsStat os v n path).1 := by
  unfold basicVfsStat
  split
  · exact ⟨hv, Ext.refl v⟩
  · rename_i hino
    split
    · exact ⟨hv, Ext.refl v⟩
    · split
      · exact hv.setNode rfl rfl fun d => by simp [Tree.Loaded, hino]
      · rename_i st _ _
        have hf := hv.files (Function.update v.files v.fileCount
          { parent := n, modified := st.mtimeSec, size := st.size, etag := statEtag st }) (v.fileCount + 1)
        have hs := hf.1.setNode (n := n)
          (N := { v.nodes n with type := .file, inode := some v.fileCount }) rfl rfl
          fun d => by simp [Tree.Loaded, hino]
        exact ⟨hs.1, hf.2.trans hs.2⟩

theorem basicVfsGetFile_spec (os : Os) {v : Tree} (hv : WF v) (n : NodeId) :
    WF (basicVfsGetFile os v n).1 ∧ Ext v (basicVfsGetFile os v n).1 := by
  unfold basicVfsGetFile
  split
  · exact ⟨hv, Ext.refl v⟩
  · split
    · exact ⟨hv, Ext.refl v⟩
    · split
      · exact ⟨hv, Ext.refl v⟩
      · exact basicVfsStat_spec os hv n _

/-! ## Adding an entry -/

/-- The slots after an addition: the old ones and the new node, whether or not the table had to grow. -/
theorem take_set_growEntries {D : Dir} (hle : D.num ≤ D.max) (hlen : D.entries.length = D.max) (n : NodeId) :
    ((growEntries D (D.num + 1)).2.set D.num (some n)).take (D.num + 1) = D.entries.take D.num ++ [some n] := by
  have hsplit : ∀ es : List (Option NodeId), D.num < es.length →
      (es.set D.num (some n)).take (D.num + 1) = es.take D.num ++ [some n] := by
    intro es h
    rw [List.take_set, List.take_add_one, List.getElem?_eq_getElem h, List.set_append]
    simp [Nat.min_eq_left (Nat.le_of_lt h)]
  unfold growEntries
  split
  · rw [hsplit _ (by simp; omega), List.take_append_of_le_length (by omega)]
  · rename_i hlt
    exact hsplit D.entries (by omega)

theorem length_growEntries {D : Dir} (hlen : D.entries.length = D.max) (num : Nat) :
    (growEntries D num).2.length = (growEntries D num).1 := by
  unfold growEntries
  split <;> simp [hlen]

/-- What an addition does, as its callers see it: `v'` is `v` with the fresh node `N` in a new last slot of
    the directory `d`. -/
structure Appended (v v' : Tree) (d : DirId) (N : Node) : Prop where
  root : v'.root = v.root
  nodeCount : v'.nodeCount = v.nodeCount + 1
  dirCount : v'.dirCount = v.dirCount
  node_new : v'.nodes v.nodeCount = N
  node_old : ∀ m, m ≠ v.nodeCount → v'.nodes m = v.nodes m
  slots_new : v'.slots d = v.slots d ++ [some v.nodeCount]
  slots_old : ∀ e, e ≠ d → v'.slots e = v.slots e
  path : ∀ e, (v'.dirs e).path = (v.dirs e).path
  used_eq : ∀ e, (v'.dirs e).used = (v'.dirs e).num
  num_le : ∀ e, (v'.dirs e).num ≤ (v'.dirs e).max
  max_eq : ∀ e, (v'.dirs e).entries.length = (v'.dirs e).max

theorem basicVfsAdd_new {v : Tree} (hv : WF v) {d : DirId} (type : EntType) {name : Bytes}
    (hnew : basicVfsSearchDir v (some d) name = none) :
    Appended v (basicVfsAdd v d type name).1 d { type, parent := some d, name } ∧
      (basicVfsAdd v d type name).2 = v.nodeCount := by
  simp only [basicVfsAdd, hnew, addSlot, hv.used_eq, Nat.lt_irrefl, if_false, Tree.newNode, Tree.setDir]
  refine ⟨⟨rfl, rfl, rfl, ?_, ?_, ?_, ?_, ?_, ?_, ?_, ?_⟩, trivial⟩
  · simp
  · intro m hm
    exact Function.update_of_ne hm _ _
  · simp only [Tree.slots, Function.update_self]
    exact take_set_growEntries (hv.num_le d) (hv.max_eq d) _
  · intro e he
    simp only [Tree.slots, Function.update_of_ne he]
  all_goals
    intro e
    by_cases he : e = d
    swap
    · simp only [Function.update_of_ne he, hv.used_eq, hv.num_le, hv.max_eq]
  · subst he; simp
  · subst he; simp
  · subst he
    have := hv.num_le e
    simp only [Function.update_self, growEntries]
    split <;> simp only <;> omega
  · subst he
    simpa using length_growEntries (hv.max_eq e) _

namespace Appended

variable {v v' : Tree} {d : DirId} {N : Node}

theorem names_old (h : Appended v v' d N) (hv : WF v) {e : DirId} {m : NodeId} (hm : some m ∈ v.slots e) :
    (v'.nodes m).name = (v.nodes m).name := by
  rw [h.node_old m (Nat.ne_of_lt (hv.entry e m hm).1)]

/-- The old slots of a directory are searched as before. -/
theorem search_old (h : Appended v v' d N) (hv : WF v) {e : DirId} {name : Bytes} {m : NodeId}
    (hs : basicVfsSearchDir v (some e) name = some m) : basicVfsSearchDir v' (some e) name = some m := by
  rw [basicVfsSearchDir_some] at hs ⊢
  rw [← searchEntries_congr name fun m hm => h.names_old hv hm] at hs
  by_cases he : e = d
  · subst he
    rw [h.slots_new, searchEntries_append, hs, Option.some_or]
  · rw [h.slots_old e he, hs]

/-- A new name leads to the new node. -/
theorem search_new (h : Appended v v' d N) (hv : WF v) (hs : basicVfsSearchDir v (some d) N.name = none) :
    basicVfsSearchDir v' (some d) N.name = some v.nodeCount := by
  rw [basicVfsSearchDir_some] at hs ⊢
  rw [h.slots_new, searchEntries_append, searchEntries_congr N.name fun m hm => h.names_old hv hm, hs]
  simp [searchEntries, h.node_new]

theorem loaded_iff (h : Appended v v' d N) (hN : N.inode = none) (m e : Nat) :
    v'.Loaded m e ↔ m ≠ v.nodeCount ∧ v.Loaded m e := by
  by_cases hm : m = v.nodeCount
  · subst hm; simp [Tree.Loaded, h.node_new, hN]
  · simp [Tree.Loaded, h.node_old m hm, hm]

theorem ext (h : Appended v v' d N) (hv : WF v) (hN : N.inode = none) : Ext v v' where
  root := h.root
  nodeCount := by rw [h.nodeCount]; exact Nat.le_succ _
  dirCount := Nat.le_of_eq h.dirCount.symm
  name m hm := by rw [h.node_old m (Nat.ne_of_lt hm)]
  parent m hm := by rw [h.node_old m (Nat.ne_of_lt hm)]
  loaded m e hm hl := (h.loaded_iff hN m e).mpr ⟨Nat.ne_of_lt hm, hl⟩
  path e _ := h.path e
  search _ _ _ _ hs := h.search_old hv hs

/-- Every entry of the grown directory still points back to it and is found under its name. -/
theorem entry (h : Appended v v' d N) (hv : WF v) (hp : N.parent = some d) (hname : ValidName N.name)
    (hs : basicVfsSearchDir v (some d) N.name = none) (e : DirId) (m : NodeId) (hm : some m ∈ v'.slots e) :
    m < v'.nodeCount ∧ (v'.nodes m).parent = some e ∧ ValidName (v'.nodes m).name ∧
      searchEntries v'.nodes (v'.nodes m).name (v'.slots e) = some m := by
  have old : some m ∈ v.slots e → m < v'.nodeCount ∧ (v'.nodes m).parent = some e ∧
      ValidName (v'.nodes m).name ∧ searchEntries v'.nodes (v'.nodes m).name (v'.slots e) = some m := by
    intro hm
    obtain ⟨h1, h2, h3, h4⟩ := hv.entry e m hm
    rw [h.node_old m (Nat.ne_of_lt h1), h.nodeCount]
    exact ⟨Nat.lt_succ_of_lt h1, h2, h3, h.search_old hv h4⟩
  by_cases he : e = d
  · subst he
    rw [h.slots_new] at hm
    rcases List.mem_append.mp hm with hm | hm
    · exact old hm
    · obtain rfl : m = v.nodeCount := by simpa using hm
      rw [h.node_new, h.nodeCount]
      exact ⟨Nat.lt_succ_self _, hp, hname, h.search_new hv hs⟩
  · rw [h.slots_old e he] at hm
    exact old hm

theorem wf (h : Appended v v' d N) (hv : WF v) (hd : d < v.dirCount) (hN : N.inode = none)
    (hp : N.parent = some d) (hname : ValidName N.name)
    (hs : basicVfsSearchDir v (some d) N.name = none) : WF v' where
  root_lt := by rw [h.root, h.nodeCount]; exact Nat.lt_succ_of_lt hv.root_lt
  root_parent := by rw [h.root, h.node_old _ (Nat.ne_of_lt hv.root_lt)]; exact hv.root_parent
  root_loaded := by
    obtain ⟨e, he, hpath⟩ := hv.root_loaded
    rw [h.root]
    exact ⟨e, (h.loaded_iff hN _ _).mpr ⟨Nat.ne_of_lt hv.root_lt, he⟩, (h.path e).trans hpath⟩
  entry := h.entry hv hp hname hs
  parent_lt := by
    intro m p hmp
    rw [h.dirCount]
    by_cases hm : m = v.nodeCount
    · subst hm
      rw [h.node_new, hp] at hmp
      obtain rfl := Option.some.inj hmp
      exact hd
    · rw [h.node_old m hm] at hmp
      exact hv.parent_lt m p hmp
  loaded_lt := by
    intro m e hl
    rw [h.dirCount]
    exact hv.loaded_lt m e ((h.loaded_iff hN m e).mp hl).2
  loaded_path := by
    intro m e p hl hmp
    obtain ⟨hm, hl⟩ := (h.loaded_iff hN m e).mp hl
    rw [h.node_old m hm] at hmp ⊢
    rw [h.path, h.path]
    exact hv.loaded_path m e p hl hmp
  loaded_inj m m' e h1 h2 := hv.loaded_inj m m' e ((h.loaded_iff hN m e).mp h1).2 ((h.loaded_iff hN m' e).mp h2).2
  used_eq := h.used_eq
  num_le := h.num_le
  max_eq := h.max_eq

end Appended

/-- `basic_vfs_add` keeps the tree, loses nothing, and returns an entry of `d` with the name. -/
theorem basicVfsAdd_spec {v : Tree} (hv : WF v) {d : DirId} (hd : d < v.dirCount) (type : EntType)
    {name : Bytes} (hname : ValidName name) :
    WF (basicVfsAdd v d type name).1 ∧ Ext v (basicVfsAdd v d type name).1 ∧
      basicVfsSearchDir (basicVfsAdd v d type name).1 (some d) name = some (basicVfsAdd v d type name).2 := by
  cases hs : basicVfsSearchDir v (some d) name with
  | some n =>
      have h : basicVfsAdd v d type name = (v, n) := by simp only [basicVfsAdd, hs]
      rw [h]
      exact ⟨hv, Ext.refl v, hs⟩
  | none =>
      obtain ⟨ha, hn⟩ := basicVfsAdd_new hv type hs
      rw [hn]
      exact ⟨ha.wf hv hd rfl rfl hname hs, ha.ext hv rfl, ha.search_new hv hs⟩

/-! ## Loading a directory -/

theorem addDirent_spec (os : Os) {d : DirId} {v : Tree} (hv : WF v) (hd : d < v.dirCount) (e : Dirent) :
    WF (addDirent os d v e) ∧ Ext v (addDirent os d v e) := by
  have get : ∀ type, WF (basicVfsGetFile os (basicVfsAdd v d type e.name).1 (basicVfsAdd v d type e.name).2).1 ∧
      Ext v (basicVfsGetFile os (basicVfsAdd v d type e.name).1 (basicVfsAdd v d type e.name).2).1 := by
    intro type
    obtain ⟨h1, h2, _⟩ := basicVfsAdd_spec hv hd type e.valid
    obtain ⟨h3, h4⟩ := basicVfsGetFile_spec os h1 (basicVfsAdd v d type e.name).2
    exact ⟨h3, h2.trans h4⟩
  unfold addDirent
  split
  · exact ⟨hv, Ext.refl v⟩
  · split
    · obtain ⟨h1, h2, _⟩ := basicVfsAdd_spec hv hd .dir e.valid
      exact ⟨h1, h2⟩
    · exact get .file
    · exact get .none
    · exact ⟨hv, Ext.refl v⟩

/-- The `readdir` loop, by induction on what `readdir` returns. -/
theorem foldl_addDirent_spec (os : Os) {d : DirId} (dents : List Dirent) {v : Tree} (hv : WF v)
    (hd : d < v.dirCount) :
    WF (dents.foldl (addDirent os d) v) ∧ Ext v (dents.foldl (addDirent os d) v) := by
  induction dents generalizing v with
  | nil => exact ⟨hv, Ext.refl v⟩
  | cons e dents ih =>
      obtain ⟨h1, h2⟩ := addDirent_spec os hv hd e
      obtain ⟨h3, h4⟩ := ih h1 (Nat.lt_of_lt_of_le hd h2.dirCount)
      exact ⟨h3, h2.trans h4⟩

/-- The heap in which a directory node got its fresh inode, with the path `basic_vfs_stat_dir` writes first. -/
def Tree.opened (v : Tree) (n : NodeId) (p : DirId) : Tree :=
  { v with
    nodes := Function.update v.nodes n { v.nodes n with inode := some v.dirCount }
    dirs := Function.update v.dirs v.dirCount
      { parent := some p, path := (v.dirs p).path ++ (v.nodes n).name ++ [47] }
    dirCount := v.dirCount + 1 }

theorem opened_spec {v : Tree} (hv : WF v) {n : NodeId} {p : DirId} (htype : (v.nodes n).type = .dir)
    (hino : (v.nodes n).inode = none) (hpar : (v.nodes n).parent = some p) :
    WF (v.opened n p) ∧ Ext v (v.opened n p) := by
  have nm : ∀ m, ((v.opened n p).nodes m).name = (v.nodes m).name := by
    intro m
    by_cases h : m = n
    · subst h; simp [Tree.opened]
    · simp [Tree.opened, h]
  have pr : ∀ m, ((v.opened n p).nodes m).parent = (v.nodes m).parent := by
    intro m
    by_cases h : m = n
    · subst h; simp [Tree.opened]
    · simp [Tree.opened, h]
  have ld : ∀ m d, (v.opened n p).Loaded m d ↔ v.Loaded m d ∨ (m = n ∧ d = v.dirCount) := by
    intro m d
    by_cases h : m = n
    · subst h; simp [Tree.opened, Tree.Loaded, htype, hino, eq_comm]
    · simp [Tree.opened, Tree.Loaded, h]
  have dr : ∀ d, d ≠ v.dirCount → (v.opened n p).dirs d = v.dirs d := by
    intro d hd
    simp [Tree.opened, hd]
  have drn : (v.opened n p).dirs v.dirCount
      = { parent := some p, path := (v.dirs p).path ++ (v.nodes n).name ++ [47] } := by
    simp [Tree.opened]
  have sl : ∀ d, d ≠ v.dirCount → (v.opened n p).slots d = v.slots d := by
    intro d hd
    simp only [Tree.slots, dr d hd]
  have hlt := hv.parent_lt n p hpar
  have sr : ∀ d name, d ≠ v.dirCount → searchEntries (v.opened n p).nodes name ((v.opened n p).slots d)
      = searchEntries v.nodes name (v.slots d) := by
    intro d name hd
    rw [sl d hd]
    exact searchEntries_congr name fun m _ => nm m
  have parent_ne : ∀ m q, (v.nodes m).parent = some q → q ≠ v.dirCount := fun m q h =>
    Nat.ne_of_lt (hv.parent_lt m q h)
  refine ⟨⟨hv.root_lt, (pr _).trans hv.root_parent, ?_, ?_, ?_, ?_, ?_, ?_, ?_, ?_, ?_⟩,
    ⟨rfl, Nat.le_refl _, Nat.le_succ _, fun m _ => nm m, fun m _ => pr m,
      fun m d _ h => (ld m d).mpr (.inl h), ?_, ?_⟩⟩
  · obtain ⟨d, hd, hp⟩ := hv.root_loaded
    refine ⟨d, (ld _ _).mpr (.inl hd), ?_⟩
    rw [dr d (Nat.ne_of_lt (hv.loaded_lt _ d hd)), hp]
  · intro d m hm
    have hd : d ≠ v.dirCount := by
      rintro rfl
      simp [Tree.slots, drn] at hm
    rw [sl d hd] at hm
    obtain ⟨h1, h2, h3, h4⟩ := hv.entry d m hm
    rw [nm, pr, sr d _ hd]
    exact ⟨h1, h2, h3, h4⟩
  · intro m q hq
    rw [pr] at hq
    exact Nat.lt_succ_of_lt (hv.parent_lt m q hq)
  · intro m d hl
    rcases (ld m d).mp hl with hl | ⟨_, rfl⟩
    · exact Nat.lt_succ_of_lt (hv.loaded_lt m d hl)
    · exact Nat.lt_succ_self _
  · intro m d q hl hq
    rw [pr] at hq
    rw [nm, dr q (parent_ne m q hq)]
    rcases (ld m d).mp hl with hl | ⟨rfl, rfl⟩
    · rw [dr d (Nat.ne_of_lt (hv.loaded_lt m d hl))]
      exact hv.loaded_path m d q hl hq
    · rw [hpar] at hq
      obtain rfl := Option.some.inj hq
      rw [drn]
  · intro m m' d h1 h2
    rcases (ld m d).mp h1 with h1 | ⟨hm, he⟩ <;> rcases (ld m' d).mp h2 with h2 | ⟨hm', he'⟩
    · exact hv.loaded_inj m m' d h1 h2
    · exact absurd he' (Nat.ne_of_lt (hv.loaded_lt m d h1))
    · exact absurd he (Nat.ne_of_lt (hv.loaded_lt m' d h2))
    · exact hm.trans hm'.symm
  · intro d
    by_cases hd : d = v.dirCount
    · subst hd; rw [drn]
    · rw [dr d hd]; exact hv.used_eq d
  · intro d
    by_cases hd : d = v.dirCount
    · subst hd; simp [drn]
    · rw [dr d hd]; exact hv.num_le d
  · intro d
    by_cases hd : d = v.dirCount
    · subst hd; rw [drn]; rfl
    · rw [dr d hd]; exact hv.max_eq d
  · intro d hd
    rw [dr d (Nat.ne_of_lt hd)]
  · intro d name m hd hs
    exact (sr d name (Nat.ne_of_lt hd)).trans hs

theorem opened_loaded {v : Tree} {n : NodeId} {p : DirId} (htype : (v.nodes n).type = .dir) :
    (v.opened n p).Loaded n v.dirCount := by
  simp [Tree.opened, Tree.Loaded, htype]

theorem basicVfsStatDir_eq (os : Os) {v w : Tree} {d : DirId} {path : Bytes}
    (h : v.setDir d { v.dirs d with path } = w) :
    basicVfsStatDir os v d path =
      match os.readDir path with
      | none => (w, false)
      | some dents => (dents.foldl (addDirent os d) w, true) := by
  subst h
  rfl

/-- Loading an unloaded directory reads it into the heap `opened`. -/
theorem basicVfsGetDir_load (os : Os) {v : Tree} {n : NodeId} {p : DirId} (htype : (v.nodes n).type = .dir)
    (hino : (v.nodes n).inode = none) (hpar : (v.nodes n).parent = some p) :
    basicVfsGetDir os v n =
      match os.readDir ((v.dirs p).path ++ (v.nodes n).name ++ [47]) with
      | none => ((v.opened n p).setNode n { (v.opened n p).nodes n with forbidden := true }, some v.dirCount)
      | some dents => (dents.foldl (addDirent os v.dirCount) (v.opened n p), some v.dirCount) := by
  unfold basicVfsGetDir
  rw [if_neg (by simp [htype])]
  split
  · simp_all
  · split
    · simp_all
    · rename_i q hq
      obtain rfl : p = q := Option.some.inj (hpar.symm.trans hq)
      simp only [Tree.newDir]
      rw [basicVfsStatDir_eq (w := v.opened n p)]
      · cases os.readDir ((v.dirs p).path ++ (v.nodes n).name ++ [47]) <;> rfl
      · simp [Tree.setNode, Tree.setDir, Tree.opened]

/-- `basic_vfs_get_dir` keeps the tree and loses nothing, and the inode it returns is the node's. -/
theorem basicVfsGetDir_spec (os : Os) {v : Tree} (hv : WF v) {n : NodeId} (hn : n < v.nodeCount) :
    WF (basicVfsGetDir os v n).1 ∧ Ext v (basicVfsGetDir os v n).1 ∧
      ∀ d, (basicVfsGetDir os v n).2 = some d → (basicVfsGetDir os v n).1.Loaded n d := by
  have unchanged : ∀ d, basicVfsGetDir os v n = (v, d) → (∀ e, d = some e → v.Loaded n e) →
      WF (basicVfsGetDir os v n).1 ∧ Ext v (basicVfsGetDir os v n).1 ∧
        ∀ e, (basicVfsGetDir os v n).2 = some e → (basicVfsGetDir os v n).1.Loaded n e := by
    intro d h hd
    rw [h]
    exact ⟨hv, Ext.refl v, hd⟩
  by_cases htype : (v.nodes n).type = .dir
  swap
  · exact unchanged none (by simp [basicVfsGetDir, htype]) (by simp)
  cases hino : (v.nodes n).inode with
  | some d =>
      refine unchanged (some d) (by simp [basicVfsGetDir, htype, hino]) ?_
      intro e he
      obtain rfl := Option.some.inj he
      exact ⟨htype, hino⟩
  | none =>
      cases hpar : (v.nodes n).parent with
      | none => exact unchanged none (by simp [basicVfsGetDir, htype, hino, hpar]) (by simp)
      | some p =>
          rw [basicVfsGetDir_load os htype hino hpar]
          obtain ⟨h1, h2⟩ := opened_spec hv htype hino hpar
          have hl : (v.opened n p).Loaded n v.dirCount := opened_loaded htype
          split
          · obtain ⟨h3, h4⟩ := h1.setNode (n := n)
              (N := { (v.opened n p).nodes n with forbidden := true }) rfl rfl fun d => Iff.rfl
            refine ⟨h3, h2.trans h4, fun e he => ?_⟩
            obtain rfl := Option.some.inj he
            exact h4.loaded n _ hn hl
          · rename_i dents _
            obtain ⟨h3, h4⟩ := foldl_addDirent_spec os dents h1 (d := v.dirCount) (Nat.lt_succ_self _)
            refine ⟨h3, h2.trans h4, fun e he => ?_⟩
            obtain rfl := Option.some.inj he
            exact h4.loaded n _ hn hl

/-! ## The labelled tree -/

/-- The edges a lookup can follow: `n` is what a search of the loaded directory `p` finds under `name`. -/
def Tree.child (v : Tree) (p : NodeId) (name : Bytes) (n : NodeId) : Prop :=
  ∃ d, p < v.nodeCount ∧ v.Loaded p d ∧ basicVfsSearchDir v (some d) name = some n

theorem WF.child_entry {v : Tree} (hv : WF v) {p n : NodeId} {name : Bytes} (h : v.child p name n) :
    n < v.nodeCount ∧ (v.nodes n).name = name ∧ ValidName name ∧
      ∃ d, v.Loaded p d ∧ (v.nodes n).parent = some d := by
  obtain ⟨d, _, hl, hs⟩ := h
  obtain ⟨hmem, rfl⟩ := searchEntries_found hs
  obtain ⟨h1, h2, h3, _⟩ := hv.entry d n hmem
  exact ⟨h1, rfl, h3, d, hl, h2⟩

theorem child_deterministic (v : Tree) : Deterministic v.child := by
  rintro p name n n' ⟨d, _, hl, hs⟩ ⟨d', _, hl', hs'⟩
  obtain rfl : d = d' := Option.some.inj (hl.2.symm.trans hl'.2)
  exact Option.some.inj (hs.symm.trans hs')

theorem WF.child_unique_parent {v : Tree} (hv : WF v) : UniqueParent v.child := by
  intro p p' name name' n h h'
  obtain ⟨_, hn, _, d, hl, hp⟩ := hv.child_entry h
  obtain ⟨_, hn', _, d', hl', hp'⟩ := hv.child_entry h'
  obtain rfl : d = d' := Option.some.inj (hp.symm.trans hp')
  exact ⟨hv.loaded_inj p p' d hl hl', hn.symm.trans hn'⟩

theorem WF.child_root {v : Tree} (hv : WF v) : IsRoot v.child v.root := by
  intro p name h
  obtain ⟨_, _, _, d, _, hp⟩ := hv.child_entry h
  rw [hv.root_parent] at hp
  exact absurd hp (by simp)

/-- Loading keeps every edge. -/
theorem Ext.child {v v' : Tree} (hv : WF v) (h : Ext v v') {p n : NodeId} {name : Bytes}
    (hc : v.child p name n) : v'.child p name n := by
  obtain ⟨d, hp, hl, hs⟩ := hc
  exact ⟨d, Nat.lt_of_lt_of_le hp h.nodeCount, h.loaded p d hp hl, h.search d name n (hv.loaded_lt p d hl) hs⟩

end Vfs
end Hin9
