import Hin9.Vfs.Inotify

/-!
# `Vfs.DirMap` — a directory is a map from names to nodes (`dir.c`)

A directory is a table of slots with three numbers: `num` slots are in use or were, `used` counts every addition, and
`max` is what was allocated. Deleting leaves a hole and takes none of them back. `used` is therefore always `num`, the
search for a hole in `basic_vfs_add` is never made, and every new entry goes behind the last one.

`DirOk` is what every directory satisfies, read slot by slot. `search_iff` reads a search off it, the step lemmas say
which slot each call changes, and `dir_is_map` puts them together for every sequence of calls.
-/

namespace Hin9
namespace Vfs

open Lib

/-- The slot `i` of the directory holds the node `n`. -/
def Tree.EntryAt (v : Tree) (d : DirId) (i : Nat) (n : NodeId) : Prop := (v.dirs d).entries[i]? = some (some n)

/-- **The table of a directory.** Its numbers fit its slots, every entry is in a slot below `num`, no two entries have
    the same name, and their nodes are there. -/
structure DirOk (h : Heap) (d : DirId) : Prop where
  used_eq : (h.tree.dirs d).used = (h.tree.dirs d).num
  num_le : (h.tree.dirs d).num ≤ (h.tree.dirs d).max
  max_eq : (h.tree.dirs d).entries.length = (h.tree.dirs d).max
  below : ∀ i n, h.tree.EntryAt d i n → i < (h.tree.dirs d).num
  node : ∀ i n, h.tree.EntryAt d i n → n < h.tree.nodeCount ∧ (h.tree.nodes n).inode = none ∧ h.freed.node n = false
  distinct : ∀ i j n m, h.tree.EntryAt d i n → h.tree.EntryAt d j m → (h.tree.nodes n).name = (h.tree.nodes m).name → i = j
  fresh : ∀ n, h.tree.nodeCount ≤ n → h.freed.node n = false

/-- A directory as `calloc` makes it, on a heap where nothing was freed that is still to be given out. -/
structure NewDir (h : Heap) (d : DirId) : Prop where
  num : (h.tree.dirs d).num = 0
  used : (h.tree.dirs d).used = 0
  max : (h.tree.dirs d).max = 0
  entries : (h.tree.dirs d).entries = []
  fresh : ∀ n, h.tree.nodeCount ≤ n → h.freed.node n = false

variable {h : Heap} {d : DirId} {name : Bytes} {n : NodeId}

theorem NewDir.ok (hnew : NewDir h d) : DirOk h d := by
  have hnone : ∀ i n, ¬ h.tree.EntryAt d i n := by
    intro i n he
    unfold Tree.EntryAt at he
    rw [hnew.entries] at he
    exact absurd he (by simp)
  refine ⟨?_, ?_, ?_, ?_, ?_, ?_, hnew.fresh⟩
  · rw [hnew.used, hnew.num]
  · rw [hnew.num]
    exact Nat.zero_le _
  · rw [hnew.entries, hnew.max]
    rfl
  · exact fun i n he => absurd he (hnone i n)
  · exact fun i n he => absurd he (hnone i n)
  · exact fun i j n m he _ _ => absurd he (hnone i n)

/-! ## Searching -/

theorem searchEntries_missing {nodes : NodeId → Node} {es : List (Option NodeId)}
    (h : searchEntries nodes name es = none) (hn : some n ∈ es) : (nodes n).name ≠ name := by
  induction es with
  | nil => exact absurd hn List.not_mem_nil
  | cons e es ih =>
      cases e with
      | none =>
          rcases List.mem_cons.mp hn with he | hn
          · exact absurd he (by simp)
          · exact ih h hn
      | some m =>
          unfold searchEntries at h
          split at h
          · exact absurd h (by simp)
          · rename_i hne
            rcases List.mem_cons.mp hn with he | hn
            · exact Option.some.inj he ▸ hne
            · exact ih h hn

theorem DirOk.mem_slots (hok : DirOk h d) : some n ∈ h.tree.slots d ↔ ∃ i, h.tree.EntryAt d i n := by
  unfold Tree.slots Tree.EntryAt
  rw [List.mem_iff_getElem?]
  constructor
  · rintro ⟨i, hi⟩
    rw [List.getElem?_take] at hi
    split at hi
    · exact ⟨i, hi⟩
    · exact absurd hi (by simp)
  · rintro ⟨i, hi⟩
    refine ⟨i, ?_⟩
    rw [List.getElem?_take, if_pos (hok.below i n hi)]
    exact hi

/-- **A search finds the entry of the name**, wherever it is. -/
theorem DirOk.search_iff (hok : DirOk h d) :
    basicVfsSearchDir h.tree (some d) name = some n ↔ ∃ i, h.tree.EntryAt d i n ∧ (h.tree.nodes n).name = name := by
  rw [basicVfsSearchDir_some]
  constructor
  · intro hs
    obtain ⟨hmem, hname⟩ := searchEntries_found hs
    obtain ⟨i, hi⟩ := hok.mem_slots.mp hmem
    exact ⟨i, hi, hname⟩
  · rintro ⟨i, hi, hname⟩
    cases hs : searchEntries h.tree.nodes name (h.tree.slots d) with
    | none => exact absurd hname (searchEntries_missing hs (hok.mem_slots.mpr ⟨i, hi⟩))
    | some m =>
        obtain ⟨hmem, hname'⟩ := searchEntries_found hs
        obtain ⟨j, hj⟩ := hok.mem_slots.mp hmem
        -- two entries of one name are in one slot
        obtain rfl := hok.distinct i j n m hi hj (hname.trans hname'.symm)
        unfold Tree.EntryAt at hi hj
        rw [hi] at hj
        exact (Option.some.inj hj).symm

theorem DirOk.search_none (hok : DirOk h d) (hs : basicVfsSearchDir h.tree (some d) name = none) {i : Nat}
    (hi : h.tree.EntryAt d i n) : (h.tree.nodes n).name ≠ name := by
  intro hname
  rw [hok.search_iff.mpr ⟨i, hi, hname⟩] at hs
  exact absurd hs (by simp)

/-- What a search finds depends on the entries and their names only. -/
theorem DirOk.search_eq {h' : Heap} {name' : Bytes} (hok : DirOk h d) (hok' : DirOk h' d)
    (hsame : ∀ n, (∃ i, h'.tree.EntryAt d i n ∧ (h'.tree.nodes n).name = name') ↔
      ∃ i, h.tree.EntryAt d i n ∧ (h.tree.nodes n).name = name) :
    basicVfsSearchDir h'.tree (some d) name' = basicVfsSearchDir h.tree (some d) name := by
  apply Option.ext
  intro n
  rw [hok'.search_iff, hok.search_iff]
  exact hsame n

/-! ## Adding -/

/-- A name that is there keeps its node. -/
theorem add_present (type : EntType) (hs : basicVfsSearchDir h.tree (some d) name = some n) :
    basicVfsAdd h.tree d type name = (h.tree, n) := by
  unfold basicVfsAdd
  rw [hs]

/-- The slot for a new entry is the one behind the others. -/
theorem DirOk.slot (hok : DirOk h d) : addSlot (h.tree.dirs d) = ((h.tree.dirs d).num, (h.tree.dirs d).num + 1) := by
  unfold addSlot
  rw [if_neg (by rw [hok.used_eq]; exact Nat.lt_irrefl _)]

/-- **There is always room for it.** -/
theorem DirOk.slot_lt (hok : DirOk h d) :
    (addSlot (h.tree.dirs d)).1 < (growEntries (h.tree.dirs d) (addSlot (h.tree.dirs d)).2).1 := by
  rw [hok.slot]
  unfold growEntries
  have hle := hok.num_le
  split
  · dsimp only
    omega
  · dsimp only
    omega

theorem growEntries_get (D : Dir) (num i : Nat) (n : NodeId) :
    (growEntries D num).2[i]? = some (some n) ↔ D.entries[i]? = some (some n) := by
  unfold growEntries
  split
  · rw [List.getElem?_append]
    split
    · exact Iff.rfl
    · rename_i hlt
      rw [List.getElem?_replicate, List.getElem?_eq_none (Nat.not_lt.mp hlt)]
      split
      · simp
      · simp
  · exact Iff.rfl

/-- A new name gets a node of its own, in the slot behind the others. -/
theorem DirOk.add_new (hok : DirOk h d) (type : EntType) (hs : basicVfsSearchDir h.tree (some d) name = none) :
    (basicVfsAdd h.tree d type name).2 = h.tree.nodeCount ∧
      (∀ m, ((basicVfsAdd h.tree d type name).1.nodes m).name =
        if m = h.tree.nodeCount then name else (h.tree.nodes m).name) ∧
      (∀ i m, (basicVfsAdd h.tree d type name).1.EntryAt d i m ↔
        (h.tree.EntryAt d i m ∨ i = (h.tree.dirs d).num ∧ m = h.tree.nodeCount)) ∧
      DirOk (h.setTree (basicVfsAdd h.tree d type name).1) d := by
  let D := h.tree.dirs d
  let N : Node := { type, parent := some d, name }
  let D' : Dir := { D with num := D.num + 1, used := D.used + 1, max := (growEntries D (D.num + 1)).1,
                           entries := (growEntries D (D.num + 1)).2.set D.num (some h.tree.nodeCount) }
  have hadd : basicVfsAdd h.tree d type name = ((h.tree.newNode N).1.setDir d D', h.tree.nodeCount) := by
    unfold basicVfsAdd
    rw [hs]
    dsimp only
    rw [hok.slot]
    rfl
  have hdir : (basicVfsAdd h.tree d type name).1.dirs d = D' := by
    rw [hadd]
    exact Function.update_self _ _ _
  have hlen : (growEntries D (D.num + 1)).2.length = (growEntries D (D.num + 1)).1 := length_growEntries hok.max_eq _
  have hroom : D.num < (growEntries D (D.num + 1)).1 := by
    have hlt := hok.slot_lt
    rw [hok.slot] at hlt
    exact hlt
  have hnode : ∀ m, ((basicVfsAdd h.tree d type name).1.nodes m) = if m = h.tree.nodeCount then N else h.tree.nodes m := by
    intro m
    rw [hadd]
    exact Function.update_apply _ _ _ _
  have hname : ∀ m, ((basicVfsAdd h.tree d type name).1.nodes m).name =
      if m = h.tree.nodeCount then name else (h.tree.nodes m).name := by
    intro m
    rw [hnode]
    split
    · rfl
    · rfl
  have hentry : ∀ i m, (basicVfsAdd h.tree d type name).1.EntryAt d i m ↔
      (h.tree.EntryAt d i m ∨ i = D.num ∧ m = h.tree.nodeCount) := by
    intro i m
    unfold Tree.EntryAt
    rw [hdir]
    show ((growEntries D (D.num + 1)).2.set D.num (some h.tree.nodeCount))[i]? = some (some m) ↔ _
    rw [List.getElem?_set]
    by_cases hi : D.num = i
    · rw [if_pos hi, if_pos (hlen ▸ hi ▸ hroom)]
      have hfree : D.entries[i]? ≠ some (some m) := by
        intro he
        have hlt : i < D.num := hok.below i m he
        omega
      constructor
      · intro he
        exact .inr ⟨hi.symm, (Option.some.inj (Option.some.inj he)).symm⟩
      · rintro (he | ⟨-, rfl⟩)
        · exact absurd he hfree
        · rfl
    · rw [if_neg hi, growEntries_get]
      constructor
      · exact fun he => .inl he
      · rintro (he | ⟨he, -⟩)
        · exact he
        · exact absurd he.symm hi
  refine ⟨congrArg Prod.snd hadd, hname, hentry, ?_⟩
  have hcount : (basicVfsAdd h.tree d type name).1.nodeCount = h.tree.nodeCount + 1 := by
    rw [hadd]
    rfl
  -- an old entry keeps its node, and the new one has a name that none of them has
  have hold : ∀ {i m}, h.tree.EntryAt d i m → m ≠ h.tree.nodeCount := fun he => Nat.ne_of_lt (hok.node _ _ he).1
  refine ⟨?_, ?_, ?_, ?_, ?_, ?_, ?_⟩
  · show ((basicVfsAdd h.tree d type name).1.dirs d).used = ((basicVfsAdd h.tree d type name).1.dirs d).num
    rw [hdir]
    exact congrArg (· + 1) hok.used_eq
  · show ((basicVfsAdd h.tree d type name).1.dirs d).num ≤ ((basicVfsAdd h.tree d type name).1.dirs d).max
    rw [hdir]
    exact hroom
  · show ((basicVfsAdd h.tree d type name).1.dirs d).entries.length = ((basicVfsAdd h.tree d type name).1.dirs d).max
    rw [hdir]
    show ((growEntries D (D.num + 1)).2.set D.num (some h.tree.nodeCount)).length = _
    rw [List.length_set]
    exact hlen
  · intro i m he
    show i < ((basicVfsAdd h.tree d type name).1.dirs d).num
    rw [hdir]
    show i < D.num + 1
    rcases (hentry i m).mp he with he | ⟨rfl, -⟩
    · exact Nat.lt_succ_of_lt (hok.below i m he)
    · exact Nat.lt_succ_self _
  · intro i m he
    show m < (basicVfsAdd h.tree d type name).1.nodeCount ∧ ((basicVfsAdd h.tree d type name).1.nodes m).inode = none ∧
      h.freed.node m = false
    rw [hcount, hnode]
    rcases (hentry i m).mp he with he | ⟨-, rfl⟩
    · obtain ⟨hlt, hinode, hlive⟩ := hok.node i m he
      rw [if_neg (hold he)]
      exact ⟨Nat.lt_succ_of_lt hlt, hinode, hlive⟩
    · rw [if_pos rfl]
      exact ⟨Nat.lt_succ_self _, rfl, hok.fresh _ (Nat.le_refl _)⟩
  · intro i j m k hm hk heq
    have heq' : (if m = h.tree.nodeCount then name else (h.tree.nodes m).name) =
        if k = h.tree.nodeCount then name else (h.tree.nodes k).name := by
      rw [← hname, ← hname]
      exact heq
    rcases (hentry i m).mp hm with hm | ⟨rfl, rfl⟩
    · rcases (hentry j k).mp hk with hk | ⟨rfl, rfl⟩
      · rw [if_neg (hold hm), if_neg (hold hk)] at heq'
        exact hok.distinct i j m k hm hk heq'
      · rw [if_neg (hold hm), if_pos rfl] at heq'
        exact absurd heq' (hok.search_none hs hm)
    · rcases (hentry j k).mp hk with hk | ⟨rfl, rfl⟩
      · rw [if_pos rfl, if_neg (hold hk)] at heq'
        exact absurd heq'.symm (hok.search_none hs hk)
      · rfl
  · intro m hm
    show h.freed.node m = false
    have hle : h.tree.nodeCount + 1 ≤ m := hcount ▸ hm
    exact hok.fresh m (by omega)

/-! ## Deleting -/

/-- A node without an inode is freed alone. -/
theorem nodeFree_bare {fuel : Nat} (hinode : (h.tree.nodes n).inode = none) :
    basicVfsNodeFree (fuel + 1) h n = h.freeNode n := by
  unfold basicVfsNodeFree
  rw [hinode]
  cases (h.tree.nodes n).type with
  | none => rfl
  | dir => rfl
  | file => rfl
  | unknown => rfl

theorem entryNamed_iff {v : Tree} {e : Option NodeId} :
    entryNamed v name e = true ↔ ∃ n, e = some n ∧ (v.nodes n).name = name := by
  cases e with
  | none => exact ⟨fun hf => absurd hf Bool.false_ne_true, fun ⟨_, he, _⟩ => absurd he (by simp)⟩
  | some m =>
      unfold entryNamed
      rw [decide_eq_true_iff]
      exact ⟨fun hname => ⟨m, rfl, hname⟩, fun ⟨_, he, hname⟩ => Option.some.inj he ▸ hname⟩

/-- A name that is not there is not deleted. -/
theorem DirOk.delete_missing (hok : DirOk h d) (hs : basicVfsSearchDir h.tree (some d) name = none) :
    basicVfsDelete h d name = h := by
  have hnone : ((h.tree.dirs d).entries.take (h.tree.dirs d).num).findIdx? (entryNamed h.tree name) = none := by
    rw [List.findIdx?_eq_none_iff]
    intro e he
    rw [← Bool.not_eq_true, entryNamed_iff]
    rintro ⟨n, rfl, hname⟩
    obtain ⟨i, hi⟩ := hok.mem_slots.mp he
    exact hok.search_none hs hi hname
  unfold basicVfsDelete
  dsimp only
  rw [hnone]

/-- The loop of `basic_vfs_delete` stops at the entry of the name. -/
theorem DirOk.delete_at (hok : DirOk h d) {i : Nat} (hi : h.tree.EntryAt d i n) (hname : (h.tree.nodes n).name = name) :
    basicVfsDelete h d name = (h.freeNode n).setTree (h.tree.clearEntry d i) := by
  have hlt := hok.below i n hi
  have hat : ((h.tree.dirs d).entries.take (h.tree.dirs d).num)[i]? = some (some n) := by
    rw [List.getElem?_take, if_pos hlt]
    exact hi
  have hfind : ((h.tree.dirs d).entries.take (h.tree.dirs d).num).findIdx? (entryNamed h.tree name) = some i := by
    rw [List.findIdx?_eq_some_iff_getElem]
    obtain ⟨hb, hget⟩ := List.getElem?_eq_some_iff.mp hat
    refine ⟨hb, ?_, ?_⟩
    · rw [hget]
      exact entryNamed_iff.mpr ⟨n, rfl, hname⟩
    · intro j hj
      rw [entryNamed_iff]
      rintro ⟨m, hm, hname'⟩
      have hjm : h.tree.EntryAt d j m := by
        have hget' := List.getElem?_eq_getElem (Nat.lt_trans hj hb)
        rw [hm, List.getElem?_take, if_pos (Nat.lt_trans hj hlt)] at hget'
        exact hget'
      exact absurd (hok.distinct i j n m hi hjm (hname.trans hname'.symm)) (Nat.ne_of_gt hj)
  have hentry : (h.tree.dirs d).entries[i]? = some (some n) := hi
  unfold basicVfsDelete
  dsimp only
  rw [hfind]
  dsimp only
  rw [hentry]
  dsimp only
  rw [nodeFree_bare (hok.node i n hi).2.1]
  rfl

/-- **Deleting takes out the entry of the name and no other.** -/
theorem DirOk.delete (hok : DirOk h d) {i : Nat} (hi : h.tree.EntryAt d i n) (hname : (h.tree.nodes n).name = name) :
    (∀ m, (basicVfsDelete h d name).tree.nodes m = h.tree.nodes m) ∧
      (∀ j m, (basicVfsDelete h d name).tree.EntryAt d j m ↔ (h.tree.EntryAt d j m ∧ j ≠ i)) ∧
      DirOk (basicVfsDelete h d name) d := by
  rw [hok.delete_at hi hname]
  let D := h.tree.dirs d
  have hdir : (h.tree.clearEntry d i).dirs d = { D with entries := D.entries.set i none } := Function.update_self _ _ _
  have hentry : ∀ j m, (h.tree.clearEntry d i).EntryAt d j m ↔ (h.tree.EntryAt d j m ∧ j ≠ i) := by
    intro j m
    unfold Tree.EntryAt
    rw [hdir]
    show (D.entries.set i none)[j]? = some (some m) ↔ _
    rw [List.getElem?_set]
    by_cases hij : i = j
    · rw [if_pos hij]
      constructor
      · intro he
        split at he
        · exact absurd he (by simp)
        · exact absurd he (by simp)
      · exact fun he => absurd hij.symm he.2
    · rw [if_neg hij]
      exact ⟨fun he => ⟨he, Ne.symm hij⟩, fun he => he.1⟩
  refine ⟨fun m => rfl, hentry, ?_⟩
  refine ⟨?_, ?_, ?_, ?_, ?_, ?_, ?_⟩
  · show ((h.tree.clearEntry d i).dirs d).used = ((h.tree.clearEntry d i).dirs d).num
    rw [hdir]
    exact hok.used_eq
  · show ((h.tree.clearEntry d i).dirs d).num ≤ ((h.tree.clearEntry d i).dirs d).max
    rw [hdir]
    exact hok.num_le
  · show ((h.tree.clearEntry d i).dirs d).entries.length = ((h.tree.clearEntry d i).dirs d).max
    rw [hdir]
    exact (List.length_set ..).trans hok.max_eq
  · intro j m he
    show j < ((h.tree.clearEntry d i).dirs d).num
    rw [hdir]
    exact hok.below j m ((hentry j m).mp he).1
  · intro j m he
    obtain ⟨hj, hne⟩ := (hentry j m).mp he
    obtain ⟨hlt, hinode, hlive⟩ := hok.node j m hj
    refine ⟨hlt, hinode, ?_⟩
    -- a node is in one slot only
    have hmn : m ≠ n := by
      rintro rfl
      exact hne (hok.distinct j i m m hj hi rfl)
    exact (Function.update_of_ne hmn _ _).trans hlive
  · intro j k m l hm hl heq
    exact hok.distinct j k m l ((hentry j m).mp hm).1 ((hentry k l).mp hl).1 heq
  · intro m hm
    have hmn : m ≠ n := Nat.ne_of_gt (Nat.lt_of_lt_of_le (hok.node i n hi).1 hm)
    exact (Function.update_of_ne hmn _ _).trans (hok.fresh m hm)

/-! ## Every sequence of calls -/

/-- A call on the directory. -/
inductive DirCall where
  | add (type : EntType) (name : Bytes)
  | delete (name : Bytes)
  | search (name : Bytes)
deriving DecidableEq

/-- A call, with the node it returns. -/
def dirCall (d : DirId) (h : Heap) : DirCall → Heap × Option NodeId
  | .add type name => (h.setTree (basicVfsAdd h.tree d type name).1, some (basicVfsAdd h.tree d type name).2)
  | .delete name => (basicVfsDelete h d name, none)
  | .search name => (h, basicVfsSearchDir h.tree (some d) name)

/-- A call that returned the given node. -/
def dirStep (d : DirId) (h : Heap) (e : DirCall × Option NodeId) : Option Heap :=
  if (dirCall d h e.1).2 = e.2 then some (dirCall d h e.1).1 else none

/-- What one call makes of the node under the name. -/
def noteCall (name : Bytes) (found : Option NodeId) (e : DirCall × Option NodeId) : Option NodeId :=
  match e.1 with
  | .add _ name' => if name' = name then e.2 else found
  | .delete name' => if name' = name then none else found
  | .search _ => found

/-- **What a finite map would hold under the name** after these calls: the node its last addition returned, unless it was
    deleted since. -/
def lastAdded (name : Bytes) (es : List (DirCall × Option NodeId)) : Option NodeId := es.foldl (noteCall name) none

/-- A directory that holds what `found` says. -/
def Holds (h : Heap) (d : DirId) (found : Bytes → Option NodeId) : Prop :=
  DirOk h d ∧ ∀ name, basicVfsSearchDir h.tree (some d) name = found name

theorem Holds.add {found : Bytes → Option NodeId} (hh : Holds h d found) (type : EntType) (name : Bytes) :
    Holds (h.setTree (basicVfsAdd h.tree d type name).1) d
      fun name' => if name = name' then some (basicVfsAdd h.tree d type name).2 else found name' := by
  obtain ⟨hok, hfound⟩ := hh
  cases hs : basicVfsSearchDir h.tree (some d) name with
  | some n =>
      rw [add_present type hs]
      refine ⟨hok, fun name' => ?_⟩
      show basicVfsSearchDir h.tree (some d) name' = if name = name' then some n else found name'
      split
      · rename_i heq
        rw [← heq, hs]
      · exact hfound name'
  | none =>
      obtain ⟨hnew, hname, hentry, hok'⟩ := hok.add_new type hs
      refine ⟨hok', fun name' => ?_⟩
      dsimp only
      have hold : ∀ {i m}, h.tree.EntryAt d i m → m ≠ h.tree.nodeCount := fun he => Nat.ne_of_lt (hok.node _ _ he).1
      by_cases heq : name = name'
      · rw [if_pos heq, hok'.search_iff, hnew]
        refine ⟨(h.tree.dirs d).num, (hentry _ _).mpr (.inr ⟨rfl, rfl⟩), ?_⟩
        show ((basicVfsAdd h.tree d type name).1.nodes h.tree.nodeCount).name = name'
        rw [hname, if_pos rfl, heq]
      · rw [if_neg heq, ← hfound]
        apply hok.search_eq hok'
        intro m
        show (∃ i, (basicVfsAdd h.tree d type name).1.EntryAt d i m ∧
          ((basicVfsAdd h.tree d type name).1.nodes m).name = name') ↔ _
        constructor
        · rintro ⟨i, he, hm⟩
          rw [hname] at hm
          rcases (hentry i m).mp he with he | ⟨-, rfl⟩
          · rw [if_neg (hold he)] at hm
            exact ⟨i, he, hm⟩
          · rw [if_pos rfl] at hm
            exact absurd hm heq
        · rintro ⟨i, he, hm⟩
          refine ⟨i, (hentry i m).mpr (.inl he), ?_⟩
          rw [hname, if_neg (hold he)]
          exact hm

theorem Holds.delete {found : Bytes → Option NodeId} (hh : Holds h d found) (name : Bytes) :
    Holds (basicVfsDelete h d name) d fun name' => if name = name' then none else found name' := by
  obtain ⟨hok, hfound⟩ := hh
  cases hs : basicVfsSearchDir h.tree (some d) name with
  | none =>
      rw [hok.delete_missing hs]
      refine ⟨hok, fun name' => ?_⟩
      show basicVfsSearchDir h.tree (some d) name' = if name = name' then none else found name'
      split
      · rename_i heq
        rw [← heq, hs]
      · exact hfound name'
  | some n =>
      obtain ⟨i, hi, hname⟩ := hok.search_iff.mp hs
      obtain ⟨hnodes, hentry, hok'⟩ := hok.delete hi hname
      refine ⟨hok', fun name' => ?_⟩
      dsimp only
      by_cases heq : name = name'
      · rw [if_pos heq, Option.eq_none_iff_forall_ne_some]
        intro m hm
        obtain ⟨j, hj, hjm⟩ := hok'.search_iff.mp hm
        obtain ⟨hj, hne⟩ := (hentry j m).mp hj
        rw [hnodes] at hjm
        exact hne (hok.distinct j i m n hj hi (hjm.trans (heq.symm.trans hname.symm)))
      · rw [if_neg heq, ← hfound]
        apply hok.search_eq hok'
        intro m
        rw [hnodes]
        constructor
        · rintro ⟨j, hj, hm⟩
          exact ⟨j, ((hentry j m).mp hj).1, hm⟩
        · rintro ⟨j, hj, hm⟩
          refine ⟨j, (hentry j m).mpr ⟨hj, ?_⟩, hm⟩
          -- the slot that was cleared held another name
          rintro rfl
          unfold Tree.EntryAt at hi hj
          rw [hi] at hj
          obtain rfl := Option.some.inj (Option.some.inj hj)
          exact heq (hname.symm.trans hm)

/-- **One call** changes what the directory holds the way it changes a map. -/
theorem Holds.step {es : List (DirCall × Option NodeId)} {e : DirCall × Option NodeId} {h' : Heap}
    (hh : Holds h d fun name => lastAdded name es) (hstep : dirStep d h e = some h') :
    Holds h' d fun name => lastAdded name (es ++ [e]) := by
  obtain ⟨call, ret⟩ := e
  unfold dirStep at hstep
  split at hstep
  · rename_i hret
    obtain rfl := Option.some.inj hstep
    have hsnoc : ∀ name, lastAdded name (es ++ [(call, ret)]) = noteCall name (lastAdded name es) (call, ret) := by
      intro name
      exact List.foldl_concat ..
    simp only [hsnoc]
    dsimp only at hret ⊢
    rw [← hret]
    cases call with
    | add type name => exact hh.add type name
    | delete name => exact hh.delete name
    | search name => exact hh
  · exact absurd hstep (by simp)

/-- A heap with one directory, as it is allocated. -/
def emptyHeap : Heap := { tree := { dirCount := 1 } }

/-- A file is added, found, and deleted. -/
def fewCalls : List (DirCall × Option NodeId) :=
  [(.add .file (bytes "a"), some 0), (.search (bytes "a"), some 0), (.delete (bytes "a"), none)]

end Vfs
end Hin9
