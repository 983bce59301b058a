import Hin9.Vfs.Removal

/-!
# `Vfs.HeldOpen` — what holds while requests come and go and the directories change

A request that resolves a path moves its reference from the file it had to the one it found (`Served`); what the kernel
reports changes nodes and frees them, and `Undisturbed` says that none of these is in use. The references then count the
requests over every run (`files_held`). Without it they do not: `modify` takes the inode from under a request and leaves
its descriptor open, `delete` frees the node (`files_freed_in_use`).
-/

namespace Hin9
namespace Vfs

open Lib

section

variable {h : Heap} {c : FileId → Nat} {n : NodeId} {d : DirId} {f : FileId} {v : Tree} {os : Os}

/-! ## Requests -/

theorem charge_comm (a b : Option FileId) : charge (charge c a) b = charge (charge c b) a := by
  funext g
  unfold charge
  omega

/-- The node is one that a request may hold: a directory, or a file that is there. -/
def Holdable (h : Heap) (file : Option NodeId) : Prop :=
  ∀ n, file = some n → n < h.tree.nodeCount ∧ (h.tree.nodes n).inode ≠ none ∧
    ((h.tree.nodes n).type = .file → h.LiveNode n)

theorem Holdable.keeps {file : Option NodeId} {c' : FileId → Nat} (hf : Holdable h file) (hv : Keeps c' h.tree v) :
    Holdable (h.setTree v) file ∧ file.bind v.fileInode = file.bind h.tree.fileInode := by
  constructor
  · intro n hn
    obtain ⟨hlt, hinode, hlive⟩ := hf n hn
    obtain ⟨i, hi⟩ := Option.ne_none_iff_exists'.mp hinode
    obtain ⟨htype, hi'⟩ := hv.inode n i hlt hi
    refine ⟨hlt.trans_le hv.nodeCount, ?_, fun hfile => ?_⟩
    · rw [show (h.setTree v).tree.nodes n = v.nodes n from rfl, hi']
      simp
    · obtain ⟨hlt', hfree⟩ := hlive (htype.symm.trans hfile)
      exact ⟨hlt'.trans_le hv.nodeCount, hfree⟩
  · cases file with
    | none => rfl
    | some n =>
        obtain ⟨hlt, hinode, -⟩ := hf n rfl
        exact hv.fileInode hlt hinode

/-- A request has got `file`: of the references that count, this is its only one. -/
structure Served (h : Heap) (c : FileId → Nat) (v : Tree) (file : Option NodeId) : Prop where
  counted : Counted (h.setTree v) (charge c (file.bind v.fileInode))
  keeps : Keeps (charge c (file.bind v.fileInode)) h.tree v
  holdable : Holdable (h.setTree v) file

/-- The reference of the request is given up for the one it has taken. -/
theorem Counted.dropFile {file : Option NodeId} (hfile : Holdable h file)
    (hc : Counted h (charge c (file.bind h.tree.fileInode))) (hv : Vfs.dropFile h.tree file = some v) :
    Counted (h.setTree v) c ∧ Keeps c h.tree v := by
  cases file with
  | none =>
      obtain rfl := Option.some.inj hv
      exact ⟨hc, Keeps.refl _⟩
  | some n =>
      refine Counted.unref (fun hne => (hfile n rfl).2.2 ?_) hc hv
      by_contra htype
      exact hne (fileInode_of_ne htype)

theorem Counted.sendRawFile {node : NodeId} {file : Option NodeId} {res : SendPath} (hfile : Holdable h file)
    (hn : h.LiveNode node) (hinode : (h.tree.nodes node).type = .file → (h.tree.nodes node).inode ≠ none)
    (hc : Counted h (charge (charge c (file.bind h.tree.fileInode)) (h.tree.fileInode node)))
    (hr : Vfs.sendRawFile os h.tree node file = some res) : Served h c res.tree res.file := by
  by_cases htype : (h.tree.nodes node).type = .file
  · obtain ⟨i, hi⟩ := Option.ne_none_iff_exists'.mp (hinode htype)
    have hgot : basicVfsGetFile os h.tree node = (h.tree, some i) := by simp [basicVfsGetFile, htype, hi]
    unfold Vfs.sendRawFile at hr
    dsimp only at hr
    rw [hgot] at hr
    obtain ⟨v, hv, rfl⟩ := Option.map_eq_some_iff.mp hr
    rw [charge_comm] at hc
    obtain ⟨hcounted, hkeeps⟩ := hc.dropFile hfile hv
    have hnode : Holdable h (some node) := by
      intro m hm
      obtain rfl := Option.some.inj hm
      exact ⟨hn.1, hinode htype, fun _ => hn⟩
    obtain ⟨hholdable, hsame⟩ := hnode.keeps hkeeps
    have hsame' : (some node).bind v.fileInode = h.tree.fileInode node := hsame
    refine ⟨?_, ?_, hholdable⟩
    · show Counted (h.setTree v) (charge c ((some node).bind v.fileInode))
      rwa [hsame']
    · show Keeps (charge c ((some node).bind v.fileInode)) h.tree v
      rwa [hsame']
  · have hgot : basicVfsGetFile os h.tree node = (h.tree, none) := by simp [basicVfsGetFile, htype]
    unfold Vfs.sendRawFile at hr
    dsimp only at hr
    rw [hgot] at hr
    obtain rfl := Option.some.inj hr
    rw [fileInode_of_ne htype, charge_none] at hc
    exact ⟨hc, Keeps.refl _, hfile⟩

/-- `l_hin_set_path` leaves what `hin_send_raw_path` does. -/
theorem setPathFile_sends {node : NodeId} {noRedirect isDir : Bool} {path rest : Bytes} {file : Option NodeId}
    {res : SetPath} (hr : setPathFile os v node noRedirect isDir path rest file = some res) :
    ∃ sent, sendRawFile os v node file = some sent ∧ sent.tree = res.tree ∧ sent.file = res.file := by
  unfold setPathFile at hr
  unfold Vfs.sendRawFile
  dsimp only at hr ⊢
  cases hgot : (basicVfsGetFile os v node).2 with
  | none =>
      rw [hgot] at hr
      obtain rfl := Option.some.inj hr
      exact ⟨_, rfl, rfl, rfl⟩
  | some f =>
      rw [hgot] at hr
      obtain ⟨w, hw, rfl⟩ := Option.map_eq_some_iff.mp hr
      exact ⟨⟨w, some node, true⟩, Option.map_eq_some_iff.mpr ⟨w, hw, rfl⟩, rfl, rfl⟩

/-- What a lookup with a file to go to comes to: the end of the request's calls. -/
theorem Takes.send {node : NodeId} {file : Option NodeId} {res : SendPath} (hfile : Holdable h file)
    (hv : Takes os h (charge c (file.bind h.tree.fileInode)) v (some node))
    (hr : Vfs.sendRawFile os v node file = some res) : Served h c res.tree res.file := by
  have hcounted : Counted (h.setTree v) (charge (charge c (file.bind h.tree.fileInode)) (v.fileInode node)) := hv.counted
  obtain ⟨hholdable, hsame⟩ := hfile.keeps (hv.keeps c)
  rw [← hsame] at hcounted
  obtain ⟨hc', hk', hh'⟩ := hcounted.sendRawFile (h := h.setTree v) hholdable (hv.live node rfl) (hv.inode node rfl) hr
  exact ⟨hc', (hv.keeps _).trans hk', hh'⟩

/-- A lookup that found nothing leaves the file of the request. -/
theorem Takes.missed {file : Option NodeId} (hfile : Holdable h file)
    (hv : Takes os h (charge c (file.bind h.tree.fileInode)) v none) : Served h c v file := by
  obtain ⟨hholdable, hsame⟩ := hfile.keeps (hv.keeps c)
  refine ⟨?_, hv.keeps _, hholdable⟩
  rw [hsame]
  exact hv.counted

/-- A directory takes the place of nothing. -/
theorem Counted.directory (hc : Counted h c) (hv : h.Grown v) (hn : n < v.nodeCount) (hl : v.Loaded n d) :
    Served h c v (some n) := by
  have htype : (v.nodes n).type ≠ .file := by
    rw [hl.1]
    simp
  have hnone : (some n).bind v.fileInode = none := fileInode_of_ne htype
  refine ⟨?_, hv.2.keeps, ?_⟩
  · rw [hnone, charge_none]
    exact hc.grow hv
  · intro m hm
    obtain rfl := Option.some.inj hm
    refine ⟨hn, ?_, fun hfile => absurd hfile htype⟩
    rw [show (h.setTree v).tree.nodes n = v.nodes n from rfl, hl.2]
    simp

theorem Served.after {file : Option NodeId} {w : Tree} (hv : ∀ c', Keeps c' h.tree v)
    (hw : Served (h.setTree v) c w file) : Served h c w file :=
  ⟨hw.counted, (hv _).trans hw.keeps, hw.holdable⟩

/-- A directory is only looked into: none of the references is to it. -/
theorem Takes.through {node : NodeId} (hv : Takes os h c v (some node)) (htype : (v.nodes node).type = .dir) :
    Counted (h.setTree v) c ∧ FreeIn os v := by
  have hne : (v.nodes node).type ≠ .file := by
    rw [htype]
    simp
  have hcounted : Counted (h.setTree v) (charge c (v.fileInode node)) := hv.counted
  rw [fileInode_of_ne hne, charge_none] at hcounted
  refine ⟨hcounted, hv.free ?_⟩
  intro m hm
  obtain rfl := Option.some.inj hm
  exact hne

/-- **A request resolves a path and is sent the file.** -/
theorem Counted.sendRawPath {cwd : NodeId} {path : Bytes} {file : Option NodeId} {res : SendPath}
    (hfile : Holdable h file) (hc : Counted h (charge c (file.bind h.tree.fileInode))) (hfree : FreeIn os h.tree)
    (hcwd : h.LiveNode cwd) (htype : (h.tree.nodes cwd).type = .dir)
    (hdir : file.bind h.tree.fileInode ≠ none → ¬ LeadsToDir os h.tree cwd path [bytes "index.html"])
    (hr : hinSendRawPath os h.tree cwd path file = some res) : Served h c res.tree res.file := by
  unfold hinSendRawPath at hr
  obtain ⟨found, hfound, hr⟩ := Option.bind_eq_some_iff.mp hr
  have htakes := hc.pathNode os hfree hcwd htype hfound
  obtain ⟨v, at'⟩ := found
  cases at' with
  | none =>
      obtain rfl := Option.some.inj hr
      exact htakes.missed hfile
  | some nr =>
      obtain ⟨node, rest⟩ := nr
      by_cases hnode : (v.nodes node).type = .dir
      · obtain ⟨hcounted, hfree'⟩ := htakes.through hnode
        dsimp only at hr
        rw [if_pos hnode] at hr
        obtain ⟨⟨w, index⟩, hw, hr⟩ := Option.bind_eq_some_iff.mp hr
        obtain ⟨htakes', -, hnone⟩ := hcounted.searchDir os hfree' (htakes.live node rfl) hnode hw
        cases index with
        | some new => exact (htakes'.after htakes.keeps).send hfile hr
        | none =>
            obtain rfl := Option.some.inj hr
            obtain ⟨hgrown, d, hd⟩ := hnone rfl
            -- the reference that is forgotten here was none
            have hold : file.bind h.tree.fileInode = none := by
              by_contra hne
              refine hdir hne ⟨_, node, rest, w, hfound, rfl, hnode, ?_⟩
              simp only [Vfs.searchIndex, hw, Option.bind_some]
            rw [hold, charge_none] at hcounted
            exact (hcounted.directory hgrown ((htakes.live node rfl).1.trans_le hgrown.2.nodeCount) hd).after htakes.keeps
      · dsimp only at hr
        rw [if_neg hnode] at hr
        exact htakes.send hfile hr

theorem Counted.setPath {cwd : NodeId} {noRedirect : Bool} {path : Bytes} {names : List Bytes} {file : Option NodeId}
    {res : SetPath} (hfile : Holdable h file) (hc : Counted h (charge c (file.bind h.tree.fileInode)))
    (hfree : FreeIn os h.tree) (hcwd : h.LiveNode cwd) (htype : (h.tree.nodes cwd).type = .dir)
    (hdir : file.bind h.tree.fileInode ≠ none → ¬ LeadsToDir os h.tree cwd path names)
    (hr : lHinSetPath os h.tree cwd noRedirect path names file = some res) : Served h c res.tree res.file := by
  unfold lHinSetPath at hr
  obtain ⟨found, hfound, hr⟩ := Option.bind_eq_some_iff.mp hr
  have htakes := hc.pathNode os hfree hcwd htype hfound
  obtain ⟨v, at'⟩ := found
  cases at' with
  | none =>
      obtain rfl := Option.some.inj hr
      exact htakes.missed hfile
  | some nr =>
      obtain ⟨node, rest⟩ := nr
      by_cases hnode : (v.nodes node).type = .dir
      · obtain ⟨hcounted, hfree'⟩ := htakes.through hnode
        dsimp only at hr
        rw [if_pos hnode] at hr
        obtain ⟨⟨w, index⟩, hw, hr⟩ := Option.bind_eq_some_iff.mp hr
        obtain ⟨htakes', -, hnone⟩ := hcounted.searchIndex os hfree' (htakes.live node rfl) hnode hw
        cases index with
        | some new =>
            obtain ⟨sent, hsent, htree, hsentfile⟩ := setPathFile_sends hr
            rw [← htree, ← hsentfile]
            exact (htakes'.after htakes.keeps).send hfile hsent
        | none =>
            obtain rfl := Option.some.inj hr
            obtain ⟨hgrown, hwtype⟩ := hnone rfl
            have hold : file.bind h.tree.fileInode = none := by
              by_contra hne
              exact hdir hne ⟨_, node, rest, w, hfound, rfl, hnode, hw⟩
            rw [hold, charge_none] at hcounted
            -- its path is asked for once more
            have hlive : (h.setTree w).LiveNode node := (htakes.live node rfl).grow hgrown
            obtain ⟨hgrown', hloaded⟩ := hgrown.1.getDir os hlive
            obtain ⟨d, hd⟩ := hgrown.1.getDir_some os hlive hwtype
            have hall : (h.setTree v).Grown (basicVfsGetDir os w node).1 := hgrown.trans hgrown'
            exact (hcounted.directory hall (hlive.1.trans_le hgrown'.2.nodeCount) (hloaded d hd).2).after htakes.keeps
      · dsimp only at hr
        rw [if_neg hnode] at hr
        obtain ⟨sent, hsent, htree, hsentfile⟩ := setPathFile_sends hr
        rw [← htree, ← hsentfile]
        exact htakes.send hfile hsent

/-! ## What the kernel reports -/

/-- An inode that no node leads to any more is freed. -/
theorem Counted.freeInode (hc : Counted h c) (hn : h.LiveNode n) (hparent : (h.tree.nodes n).parent ≠ none) :
    Counted (freeInode h n) c := by
  have hbare : Counted (h.setTree (h.tree.setNode n { h.tree.nodes n with inode := none })) c := by
    refine ⟨?_, hc.count, hc.shut, hc.own, hc.fresh⟩
    apply hc.good.setNode
    · rfl
    · exact fun _ hp => absurd hp hparent
    · exact fun _ _ d hd => absurd hd (by simp)
    · exact fun _ _ f hf => absurd hf (by simp)
  have hother : ∀ N m, m ≠ n → (h.tree.setNode n N).nodes m = h.tree.nodes m := fun N m hm =>
    Function.update_of_ne hm _ _
  have hself : ∀ N, (h.tree.setNode n N).nodes n = N := fun N => Function.update_self _ _ _
  have hg := hbare.good
  unfold Vfs.freeInode
  dsimp only
  cases hinode : (h.tree.nodes n).inode with
  | none => exact hbare
  | some i =>
      dsimp only
      by_cases htype : (h.tree.nodes n).type = .dir
      · rw [if_pos htype]
        have hi : h.LiveDir i := hc.good.loaded n i hn ⟨htype, hinode⟩
        have hlive : ∀ e, e ≠ i → h.freed.dir e = false → (h.freeDir i).freed.dir e = false := fun e he hf =>
          (Function.update_of_ne he _ _).trans hf
        have hback : ∀ e, (h.freeDir i).freed.dir e = false → h.freed.dir e = false := by
          intro e he
          by_cases hei : e = i
          · rw [hei] at he
            exact absurd ((Function.update_self _ _ _).symm.trans he) (by simp)
          · exact (Function.update_of_ne hei _ _).symm.trans he
        refine ⟨⟨hg.root, hg.top, fun e he => hg.entry e ⟨he.1, hback e he.2⟩,
          fun e he => hg.once e ⟨he.1, hback e he.2⟩, ?_, hg.loadedInj, hg.file, hg.freshNode, ?_, hg.freshFile⟩,
          hbare.count, hbare.shut, hbare.own, hbare.fresh⟩
        · intro m e hm he
          obtain ⟨hlt, hfree⟩ := hg.loaded m e hm he
          refine ⟨hlt, hlive e ?_ hfree⟩
          -- the directory had one node, and it has lost it
          rintro rfl
          have he' : (h.tree.setNode n { h.tree.nodes n with inode := none }).Loaded m e := he
          unfold Tree.Loaded at he'
          by_cases hmn : m = n
          · rw [hmn, hself] at he'
            exact absurd he'.2 (by simp)
          · rw [hother _ m hmn] at he'
            exact hmn (hc.good.loadedInj m n e hm hn he' ⟨htype, hinode⟩)
        · intro e he
          have hei : e ≠ i := by
            rintro rfl
            exact absurd hi.1 (Nat.not_lt.mpr he)
          exact hlive e hei (hg.freshDir e he)
      · rw [if_neg htype]
        obtain ⟨-, hi, hp⟩ := hc.good.file n i hn htype hinode
        have hlive : ∀ f, f ≠ i → h.freed.file f = false → (h.freeFile i).freed.file f = false := fun f hf hfree =>
          (Function.update_of_ne hf _ _).trans hfree
        have hback : ∀ f, (h.freeFile i).freed.file f = false → h.freed.file f = false := by
          intro f hf
          by_cases hfi : f = i
          · rw [hfi] at hf
            exact absurd ((Function.update_self _ _ _).symm.trans hf) (by simp)
          · exact (Function.update_of_ne hfi _ _).symm.trans hf
        refine ⟨⟨hg.root, hg.top, hg.entry, hg.once, hg.loaded, hg.loadedInj, ?_, hg.freshNode, hg.freshDir, ?_⟩,
          fun f hf => hbare.count f ⟨hf.1, hback f hf.2⟩, fun f hf => hbare.shut f ⟨hf.1, hback f hf.2⟩,
          fun f g d hf hg => hbare.own f g d ⟨hf.1, hback f hf.2⟩ ⟨hg.1, hback g hg.2⟩, hbare.fresh⟩
        · intro m f hm ht hf
          obtain ⟨htype', hfile, hparent'⟩ := hg.file m f hm ht hf
          refine ⟨htype', ⟨hfile.1, hlive f ?_ hfile.2⟩, hparent'⟩
          -- an inode has one node, and this one has lost it
          rintro rfl
          have hmn : m = n := hparent'.symm.trans hp
          have hf' : ((h.tree.setNode n { h.tree.nodes n with inode := none }).nodes m).inode = some f := hf
          rw [hmn, hself] at hf'
          exact absurd hf' (by simp)
        · intro f hf
          have hfi : f ≠ i := by
            rintro rfl
            exact absurd hi.1 (Nat.not_lt.mpr hf)
          exact hlive f hfi (hg.freshFile f hf)

theorem freeInode_other {m : NodeId} (hmn : m ≠ n) : (freeInode h n).tree.nodes m = h.tree.nodes m := by
  unfold Vfs.freeInode
  dsimp only
  cases hinode : (h.tree.nodes n).inode with
  | none => exact Function.update_of_ne hmn _ _
  | some i =>
      dsimp only
      split
      · exact Function.update_of_ne hmn _ _
      · exact Function.update_of_ne hmn _ _

/-- The rest of the heap is as it was. -/
theorem freeInode_rest : (freeInode h n).tree.nodeCount = h.tree.nodeCount ∧
    (freeInode h n).tree.fileCount = h.tree.fileCount ∧ (freeInode h n).tree.files = h.tree.files ∧
    (freeInode h n).freed.node = h.freed.node := by
  unfold Vfs.freeInode
  dsimp only
  cases hinode : (h.tree.nodes n).inode with
  | none => exact ⟨rfl, rfl, rfl, rfl⟩
  | some i =>
      dsimp only
      split
      · exact ⟨rfl, rfl, rfl, rfl⟩
      · exact ⟨rfl, rfl, rfl, rfl⟩

theorem search_of_findIdx {name : Bytes} {es : List (Option NodeId)} {i : Nat}
    (hi : es.findIdx? (entryNamed v name) = some i) (hn : es[i]? = some (some n)) :
    searchEntries v.nodes name es = some n := by
  induction es generalizing i with
  | nil => exact absurd hi (by simp)
  | cons e es ih =>
      rw [List.findIdx?_cons] at hi
      by_cases he : entryNamed v name e = true
      · rw [if_pos he] at hi
        obtain rfl := Option.some.inj hi
        obtain rfl := Option.some.inj hn
        have hname : (v.nodes n).name = name := of_decide_eq_true he
        exact if_pos hname
      · rw [if_neg he] at hi
        obtain ⟨j, hj, rfl⟩ := Option.map_eq_some_iff.mp hi
        rw [List.getElem?_cons_succ] at hn
        cases e with
        | none => exact ih hj hn
        | some m =>
            have hname : (v.nodes m).name ≠ name := fun hm => he (decide_eq_true hm)
            exact (if_neg hname).trans (ih hj hn)

/-- `basic_vfs_delete` clears the node of the name, or there is none. -/
theorem delete_cases (h : Heap) (d : DirId) (name : Bytes) : basicVfsDelete h d name = h ∨
    ∃ n i h', basicVfsSearchDir h.tree (some d) name = some n ∧ (h.tree.dirs d).entries[i]? = some (some n) ∧
      Clears (· = n) h h' ∧ h'.freed.node n = true ∧ basicVfsDelete h d name = h'.setTree (h'.tree.clearEntry d i) := by
  unfold basicVfsDelete
  dsimp only
  split
  · exact .inl rfl
  · rename_i i hi
    split
    · rename_i n hn
      refine .inr ⟨n, i, basicVfsNodeFree (h.tree.nodeCount + 1) h n, ?_, hn, nodeFree_clears _ h n,
        nodeFree_freed _ h n, rfl⟩
      obtain ⟨hlt, -⟩ := List.findIdx?_eq_some_iff_getElem.mp hi
      have htake : ((h.tree.dirs d).entries.take (h.tree.dirs d).num)[i]? = some (some n) := by
        rw [List.getElem?_take_of_lt (Nat.lt_of_lt_of_le hlt (List.length_take_le _ _)), hn]
      exact search_of_findIdx hi htake
    · exact .inl rfl

theorem Counted.cleared {h' : Heap} (hc : Counted h c) (hd : h.LiveDir d) {i : Nat}
    (hi : (h.tree.dirs d).entries[i]? = some (some n)) (hcl : Clears (· = n) h h') (hfreed : h'.freed.node n = true) :
    Counted (h'.setTree (h'.tree.clearEntry d i)) c := by
  refine ⟨hc.good.cleared hd hi hcl hfreed, ?_, ?_, ?_, fun f hf => hc.fresh f (hcl.alike.fileCount ▸ hf)⟩
  · intro f hf
    exact (congrArg File.refcount (hcl.files f hf.2)).trans (hc.count f (hcl.live_file hf))
  · intro f hf hfd
    have hfd' : (h'.tree.files f).fd ≠ none := hfd
    rw [hcl.files f hf.2] at hfd'
    exact hc.shut f (hcl.live_file hf) hfd'
  · intro f g e hf hg hfe hge
    have hfe' : (h'.tree.files f).fd = some e := hfe
    have hge' : (h'.tree.files g).fd = some e := hge
    rw [hcl.files f hf.2] at hfe'
    rw [hcl.files g hg.2] at hge'
    exact hc.own f g e (hcl.live_file hf) (hcl.live_file hg) hfe' hge'

/-! ## The invariant -/

/-- How many of the clients in `held` hold the file with this inode. -/
def tally (v : Tree) (held : List (Nat × NodeId)) : FileId → Nat := fun f =>
  held.countP fun x => v.fileInode x.2 = some f

/-- The references are those of the requests, and what they hold is there. -/
structure Shared.Inv (s : Shared) : Prop where
  counted : Counted s.heap (tally s.heap.tree s.held)
  keys : (s.held.map (·.1)).Nodup
  holdable : ∀ x ∈ s.held, Holdable s.heap (some x.2)

theorem tally_cons (r : Nat) (held : List (Nat × NodeId)) :
    tally v ((r, n) :: held) = charge (tally v held) (v.fileInode n) := by
  funext f
  unfold tally charge
  rw [List.countP_cons]
  simp

theorem tally_congr {w : Tree} {held : List (Nat × NodeId)} (hsame : ∀ x ∈ held, w.fileInode x.2 = v.fileInode x.2) :
    tally w held = tally v held := by
  funext f
  apply List.countP_congr
  intro x hx
  rw [hsame x hx]

/-- The references of a client and those of the others. -/
theorem tally_split {held : List (Nat × NodeId)} (hkeys : (held.map (·.1)).Nodup) (r : Nat) :
    tally v held = charge (tally v (held.filter fun x => x.1 ≠ r))
      (((held.find? fun x => x.1 = r).map (·.2)).bind v.fileInode) := by
  induction held with
  | nil => exact charge_none.symm
  | cons x held ih =>
      obtain ⟨k, n⟩ := x
      obtain ⟨hk, hkeys⟩ := List.nodup_cons.mp hkeys
      rw [tally_cons]
      by_cases hkr : k = r
      · -- nobody else has its name
        have hothers : held.filter (fun x => x.1 ≠ r) = held := by
          rw [List.filter_eq_self]
          intro x hx
          have hne : x.1 ≠ r := by
            intro hxr
            apply hk
            show k ∈ held.map (·.1)
            rw [hkr, ← hxr]
            exact List.mem_map_of_mem hx
          simpa using hne
        rw [List.find?_cons_of_pos (by simpa using hkr), List.filter_cons_of_neg (by simpa using hkr), hothers]
        rfl
      · rw [List.find?_cons_of_neg (by simpa using hkr), List.filter_cons_of_pos (by simpa using hkr), tally_cons,
          ih hkeys, charge_comm]

theorem Shared.mem_of_fileOf {s : Shared} {r : Nat} (hr : s.fileOf r = some n) : (r, n) ∈ s.held := by
  obtain ⟨x, hx, rfl⟩ := Option.map_eq_some_iff.mp hr
  have hmem := List.mem_of_find?_eq_some hx
  have hkey : x.1 = r := by simpa using List.find?_some hx
  rwa [← hkey]

theorem Shared.Inv.sound {s : Shared} (hs : s.Inv) : s.Sound := by
  have hlive : ∀ r n, s.Holds r n → s.heap.LiveNode n ∧ ∃ f, s.heap.tree.fileInode n = some f := by
    rintro r n ⟨hmem, htype⟩
    obtain ⟨-, hinode, hl⟩ := hs.holdable (r, n) hmem n rfl
    obtain ⟨f, hf⟩ := Option.ne_none_iff_exists'.mp hinode
    exact ⟨hl htype, f, fileInode_eq_some.mpr ⟨htype, hf⟩⟩
  refine ⟨?_, ?_, fun f g d hf hg hfree hfree' => hs.counted.own f g d ⟨hf, hfree⟩ ⟨hg, hfree'⟩⟩
  · intro r n hn
    obtain ⟨hl, f, hf⟩ := hlive r n hn
    obtain ⟨hlf, hparent⟩ := hs.counted.good.fileInode hl hf
    refine ⟨hl.2, f, hf, hlf.2, ?_⟩
    rw [hs.counted.count f hlf]
    -- a client has the inode just when it has the node
    have hcount : tally s.heap.tree s.held f = s.holders n := by
      apply List.countP_congr
      intro x hx
      simp only [decide_eq_true_eq]
      constructor
      · intro hxf
        have htype := (fileInode_eq_some.mp hxf).1
        have hxl := (hs.holdable x hx x.2 rfl).2.2 htype
        exact ((hs.counted.good.fileInode hxl hxf).2).symm.trans hparent
      · intro hxn
        rw [hxn, hf]
    rw [hcount]
  · intro f hlt hfree hfd
    obtain ⟨x, hx, hxf⟩ := List.countP_pos_iff.mp (hs.counted.shut f ⟨hlt, hfree⟩ hfd)
    have hxf' : s.heap.tree.fileInode x.2 = some f := of_decide_eq_true hxf
    exact ⟨x.1, x.2, ⟨hx, (fileInode_eq_some.mp hxf').1⟩, hxf'⟩

/-! ## Steps -/

/-- A client whose request was served has the file it got, and the others have theirs. -/
theorem Shared.Inv.served {s : Shared} {r : Nat} {file : Option NodeId} (hs : s.Inv)
    (hv : Served s.heap (tally s.heap.tree (s.others r)) v file) :
    (s.update r v file).Inv ∧ s.Steady (s.update r v file) := by
  have hothers : ∀ x ∈ s.others r, Holdable (s.heap.setTree v) (some x.2) ∧ v.fileInode x.2 = s.heap.tree.fileInode x.2 :=
    fun x hx => (hs.holdable x (List.mem_of_mem_filter hx)).keeps hv.keeps
  have htally : tally v (s.update r v file).held =
      charge (tally s.heap.tree (s.others r)) (file.bind v.fileInode) := by
    rw [← tally_congr fun x hx => (hothers x hx).2]
    cases file with
    | none => exact charge_none.symm
    | some n => exact tally_cons r _
  have hinv : (s.update r v file).Inv := by
    refine ⟨?_, ?_, ?_⟩
    · show Counted (s.heap.setTree v) (tally v (s.update r v file).held)
      rw [htally]
      exact hv.counted
    · have hkeys : ((s.others r).map (·.1)).Nodup := hs.keys.sublist (List.filter_sublist.map _)
      cases file with
      | none => exact hkeys
      | some n =>
          refine List.nodup_cons.mpr ⟨?_, hkeys⟩
          intro hmem
          obtain ⟨x, hx, hxr⟩ := List.mem_map.mp hmem
          exact absurd hxr (by simpa using (List.mem_filter.mp hx).2)
    · intro x hx
      rcases List.mem_append.mp hx with hx | hx
      · obtain ⟨n, hn, rfl⟩ := Option.map_eq_some_iff.mp (Option.mem_toList.mp hx)
        rw [← hn]
        exact hv.holdable
      · exact (hothers x hx).1
  refine ⟨hinv, ?_⟩
  intro k k' n f d hn hn' hf hd
  obtain ⟨hlt, hinode, hlive⟩ := hs.holdable (k, n) hn.1 n rfl
  have hsame : v.fileInode n = some f := (hv.keeps.fileInode hlt hinode).trans hf
  refine ⟨hsame, hv.keeps.fds f d (hs.counted.good.fileInode (hlive hn.2) hf).1.1 ?_ hd⟩
  rw [← htally]
  exact List.countP_pos_iff.mpr ⟨(k', n), hn'.1, decide_eq_true hsame⟩

/-- What is reported leaves alone what is held. -/
theorem Shared.Inv.reported {s : Shared} {h' : Heap} (hs : s.Inv)
    (hc : Counted h' (tally s.heap.tree s.held)) (hcount : s.heap.tree.nodeCount ≤ h'.tree.nodeCount)
    (hnode : ∀ x ∈ s.held, (h'.tree.nodes x.2).type = (s.heap.tree.nodes x.2).type ∧
      (h'.tree.nodes x.2).inode = (s.heap.tree.nodes x.2).inode)
    (hlive : ∀ x ∈ s.held, (s.heap.tree.nodes x.2).type = .file → h'.LiveNode x.2)
    (hfile : ∀ x ∈ s.held, ∀ f, s.heap.tree.fileInode x.2 = some f → h'.tree.files f = s.heap.tree.files f) :
    Shared.Inv { s with heap := h' } ∧ s.Steady { s with heap := h' } := by
  have hsame : ∀ x ∈ s.held, h'.tree.fileInode x.2 = s.heap.tree.fileInode x.2 := by
    intro x hx
    unfold Tree.fileInode
    rw [(hnode x hx).1, (hnode x hx).2]
  refine ⟨⟨?_, hs.keys, ?_⟩, ?_⟩
  · show Counted h' (tally h'.tree s.held)
    rw [tally_congr hsame]
    exact hc
  · intro x hx n hn
    obtain rfl : x.2 = n := Option.some.inj hn
    obtain ⟨hlt, hinode, -⟩ := hs.holdable x hx x.2 rfl
    obtain ⟨ht, hi⟩ := hnode x hx
    exact ⟨hlt.trans_le hcount, fun hnone => hinode (hi.symm.trans hnone), fun htype => hlive x hx (ht.symm.trans htype)⟩
  · intro r r' n f d hn _ hf hd
    exact ⟨(hsame (r, n) hn.1).trans hf, (congrArg File.fd (hfile (r, n) hn.1 f hf)).trans hd⟩

/-- A report that only adds to the tree. -/
theorem Shared.Inv.grown {s : Shared} (hs : s.Inv) (hv : s.heap.Grown v) :
    Shared.Inv { s with heap := s.heap.setTree v } ∧ s.Steady { s with heap := s.heap.setTree v } := by
  apply hs.reported (hs.counted.grow hv) hv.2.nodeCount
  · intro x hx
    obtain ⟨hlt, hinode, -⟩ := hs.holdable x hx x.2 rfl
    obtain ⟨i, hi⟩ := Option.ne_none_iff_exists'.mp hinode
    obtain ⟨ht, hi'⟩ := hv.2.inode x.2 i hlt hi
    exact ⟨ht, hi'.trans hi.symm⟩
  · intro x hx htype
    exact ((hs.holdable x hx x.2 rfl).2.2 htype).grow hv
  · intro x hx f hf
    have hlive := (hs.holdable x hx x.2 rfl).2.2 (fileInode_eq_some.mp hf).1
    exact hv.2.files f (hs.counted.good.fileInode hlive hf).1.1

theorem Shared.Inv.deleted {s : Shared} {name : Bytes} (hs : s.Inv) (hd : s.heap.LiveDir d)
    (hguard : ∀ n, basicVfsSearchDir s.heap.tree (some d) name = some n →
      ∀ r m, s.Holds r m → ¬ s.heap.tree.Below n m) :
    Shared.Inv { s with heap := basicVfsDelete s.heap d name } ∧
      s.Steady { s with heap := basicVfsDelete s.heap d name } := by
  rcases delete_cases s.heap d name with heq | ⟨n, i, h', hn, hi, hcl, hfreed, heq⟩
  · rw [heq]
    exact hs.grown ⟨hs.counted.good, Grows.refl _⟩
  · rw [heq]
    have hsurvives : ∀ x ∈ s.held, (s.heap.tree.nodes x.2).type = .file → h'.LiveNode x.2 := by
      intro x hx htype
      obtain ⟨hlt, hfree⟩ := (hs.holdable x hx x.2 rfl).2.2 htype
      refine ⟨hcl.alike.nodeCount ▸ hlt, ?_⟩
      by_contra hne
      rcases hcl.under (Bool.not_eq_false _ ▸ hne) with hgone | ⟨m, rfl, hbelow⟩
      · exact absurd (hgone.symm.trans hfree) (by simp)
      · exact hguard m hn x.1 x.2 ⟨hx, htype⟩ hbelow
    apply hs.reported (hs.counted.cleared hd hi hcl hfreed) hcl.alike.nodeCount.ge
    · exact fun x _ => ⟨(hcl.alike.node x.2).1, (hcl.alike.node x.2).2.1⟩
    · exact hsurvives
    · intro x hx f hf
      have hlive := hsurvives x hx (fileInode_eq_some.mp hf).1
      have hgood := (hs.counted.cleared hd hi hcl hfreed).good
      have hf' : (h'.tree.clearEntry d i).fileInode x.2 = some f := (hcl.alike.fileInode (n := x.2)).trans hf
      exact hcl.files f (hgood.fileInode hlive hf').1.2

theorem Good.add_parent (hg : Good h) (hd : h.LiveDir d) (type : EntType) (name : Bytes) :
    ((basicVfsAdd h.tree d type name).1.nodes (basicVfsAdd h.tree d type name).2).parent = some d := by
  unfold basicVfsAdd
  cases hs : basicVfsSearchDir h.tree (some d) name with
  | some n => exact (hg.entry d hd n (search_mem hs).1).2
  | none => exact congrArg Node.parent (Function.update_self h.tree.nodeCount _ h.tree.nodes)

theorem Shared.Inv.modified {s : Shared} {name path : Bytes} (hs : s.Inv) (hd : s.heap.LiveDir d)
    (hguard : ∀ n, basicVfsSearchDir s.heap.tree (some d) name = some n → ∀ x ∈ s.held, x.2 ≠ n) :
    let h' := Vfs.freeInode (s.heap.setTree (basicVfsAdd s.heap.tree d .none name).1)
      (basicVfsAdd s.heap.tree d .none name).2
    Shared.Inv { s with heap := h'.setTree (basicVfsStat os h'.tree (basicVfsAdd s.heap.tree d .none name).2 path).1 } ∧
      s.Steady
        { s with heap := h'.setTree (basicVfsStat os h'.tree (basicVfsAdd s.heap.tree d .none name).2 path).1 } := by
  obtain ⟨hgrown, hlive, hwhich⟩ := hs.counted.good.add hd .none name
  have hparent := hs.counted.good.add_parent hd .none name
  generalize (basicVfsAdd s.heap.tree d .none name).1 = v at hgrown hlive hparent
  generalize (basicVfsAdd s.heap.tree d .none name).2 = n at hlive hwhich hparent
  intro h'
  have hother : ∀ x ∈ s.held, x.2 ≠ n := by
    intro x hx hxn
    rcases hwhich with hfound | hnew
    · exact hguard n hfound x hx hxn
    · exact absurd ((hs.holdable x hx x.2 rfl).1) (Nat.not_lt.mpr (hxn ▸ hnew))
  obtain ⟨hnodes, hfiles, hsame, hfreed⟩ := freeInode_rest (h := s.heap.setTree v) (n := n)
  have hcounted : Counted h' (tally s.heap.tree s.held) :=
    (hs.counted.grow hgrown).freeInode hlive (by simp [Heap.setTree, hparent])
  have hlive' : h'.LiveNode n := ⟨hnodes.symm ▸ hlive.1, hfreed ▸ hlive.2⟩
  have hstat := hcounted.good.stat os hlive' path
  -- a node that is held goes through all three unharmed
  have hkept : ∀ x ∈ s.held, x.2 < h'.tree.nodeCount ∧ (h'.tree.nodes x.2).type = (s.heap.tree.nodes x.2).type ∧
      ∃ i, (h'.tree.nodes x.2).inode = some i ∧ (s.heap.tree.nodes x.2).inode = some i := by
    intro x hx
    obtain ⟨hlt, hinode, -⟩ := hs.holdable x hx x.2 rfl
    obtain ⟨i, hi⟩ := Option.ne_none_iff_exists'.mp hinode
    obtain ⟨ht, hi'⟩ := hgrown.2.inode x.2 i hlt hi
    rw [freeInode_other (hother x hx)]
    exact ⟨hnodes.symm ▸ hlt.trans_le hgrown.2.nodeCount, ht, i, hi', hi⟩
  apply hs.reported (hcounted.grow hstat)
  · exact (hgrown.2.nodeCount.trans hnodes.ge).trans hstat.2.nodeCount
  · intro x hx
    obtain ⟨hlt, ht, i, hi, hi'⟩ := hkept x hx
    obtain ⟨ht', hi''⟩ := hstat.2.inode x.2 i hlt hi
    exact ⟨ht'.trans ht, hi''.trans hi'.symm⟩
  · intro x hx htype
    obtain ⟨-, hfree⟩ := (hs.holdable x hx x.2 rfl).2.2 htype
    refine Heap.LiveNode.grow (h := h') ⟨(hkept x hx).1, ?_⟩ hstat
    show h'.freed.node x.2 = false
    rw [hfreed]
    exact hfree
  · intro x hx f hf
    have hlive := (hs.holdable x hx x.2 rfl).2.2 (fileInode_eq_some.mp hf).1
    have hlt := (hs.counted.good.fileInode hlive hf).1.1
    have hlt' : f < h'.tree.fileCount := hfiles.symm ▸ hlt.trans_le hgrown.2.fileCount
    exact (hstat.2.files f hlt').trans ((congrFun hsame f).trans (hgrown.2.files f hlt))

/-- **Every step keeps the count**, if nothing that is held is taken away. -/
theorem vfs_step_inv (s : Shared) (e : VfsEvent) (s' : Shared) (hs : s.Inv) (hg : Undisturbed s e)
    (hstep : vfsStep s e = some s') : s'.Inv ∧ s.Steady s' := by
  have hfile : ∀ r, Holdable s.heap (s.fileOf r) := by
    intro r n hn
    exact hs.holdable (r, n) (Shared.mem_of_fileOf hn) n rfl
  have hcounted : ∀ r, Counted s.heap
      (charge (tally s.heap.tree (s.others r)) ((s.fileOf r).bind s.heap.tree.fileInode)) := by
    intro r
    have hsplit := tally_split (v := s.heap.tree) hs.keys r
    exact hsplit ▸ hs.counted
  have hheld : ∀ r, (s.fileOf r).bind s.heap.tree.fileInode ≠ none → ∃ n, s.Holds r n := by
    intro r hne
    obtain ⟨f, hf⟩ := Option.ne_none_iff_exists'.mp hne
    obtain ⟨n, hn, hf⟩ := Option.bind_eq_some_iff.mp hf
    exact ⟨n, Shared.mem_of_fileOf hn, (fileInode_eq_some.mp hf).1⟩
  cases e with
  | sendRawPath r os cwd path =>
      obtain ⟨hfree, hlt, hlive, htype, hdir⟩ := hg
      obtain ⟨res, hres, rfl⟩ := Option.map_eq_some_iff.mp hstep
      exact hs.served ((hcounted r).sendRawPath (hfile r) hfree ⟨hlt, hlive⟩ htype (fun hne => hdir (hheld r hne)) hres)
  | setPath r os cwd noRedirect path names =>
      obtain ⟨hfree, hlt, hlive, htype, hdir⟩ := hg
      obtain ⟨res, hres, rfl⟩ := Option.map_eq_some_iff.mp hstep
      exact hs.served ((hcounted r).setPath (hfile r) hfree ⟨hlt, hlive⟩ htype (fun hne => hdir (hheld r hne)) hres)
  | finishRequest r =>
      obtain ⟨v, hv, rfl⟩ := Option.map_eq_some_iff.mp hstep
      obtain ⟨hc, hk⟩ := (hcounted r).dropFile (hfile r) hv
      apply hs.served
      refine ⟨?_, ?_, fun n hn => absurd hn (by simp)⟩
      · rwa [show (none : Option NodeId).bind v.fileInode = none from rfl, charge_none]
      · rwa [show (none : Option NodeId).bind v.fileInode = none from rfl, charge_none]
  | clean r =>
      obtain rfl := Option.some.inj hstep
      have hnone : (s.fileOf r).bind s.heap.tree.fileInode = none := by
        by_contra hne
        obtain ⟨n, hn⟩ := hheld r hne
        exact hg n hn
      have hc := hcounted r
      rw [hnone] at hc
      have hserved : Served s.heap (tally s.heap.tree (s.others r)) s.heap.tree none :=
        ⟨hc, Keeps.refl _, fun n hn => absurd hn (by simp)⟩
      exact hs.served hserved
  | inotify os d mask name =>
      obtain rfl := Option.some.inj hstep
      obtain ⟨hlt, hfree, hmask⟩ := hg
      have hd : s.heap.LiveDir d := ⟨hlt, hfree⟩
      have hadded : ∀ path, s.heap.Grown
          (basicVfsStat os (basicVfsAdd s.heap.tree d .none name).1 (basicVfsAdd s.heap.tree d .none name).2 path).1 := by
        intro path
        obtain ⟨hgrown, hlive, -⟩ := hs.counted.good.add hd .none name
        exact hgrown.trans (hgrown.1.stat os hlive path)
      cases mask with
      | create => exact hs.grown (hadded _)
      | movedTo => exact hs.grown (hadded _)
      | modify => exact hs.modified hd hmask
      | delete => exact hs.deleted hd hmask
      | movedFrom => exact hs.deleted hd hmask

/-! ## Runs -/

/-- Nothing is held yet, and nothing is open. -/
structure Shared.Idle (s : Shared) : Prop where
  good : Good s.heap
  files : ∀ f, f < s.heap.tree.fileCount → (s.heap.tree.files f).refcount = 0 ∧ (s.heap.tree.files f).fd = none
  held : s.held = []

theorem Shared.Idle.inv {s : Shared} (hs : s.Idle) : s.Inv := by
  refine ⟨⟨hs.good, ?_, ?_, ?_, ?_⟩, ?_, ?_⟩
  · intro f hf
    rw [(hs.files f hf.1).1, hs.held]
    rfl
  · exact fun f hf hfd => absurd (hs.files f hf.1).2 hfd
  · exact fun f g d hf _ hfd => absurd ((hs.files f hf.1).2.symm.trans hfd) (by simp)
  · intro f _
    rw [hs.held]
    rfl
  · rw [hs.held]
    exact List.nodup_nil
  · rw [hs.held]
    exact fun x hx => absurd hx (by simp)

/-- Looking up a directory leaves it so. -/
theorem Shared.Idle.refPath {v : Tree} {os : Os} {dirNode : Option NodeId} {path : Bytes} {res : RefResult}
    (hs : Shared.Idle { heap := { tree := v } }) (hdir : ∀ n, dirNode = some n → n < v.nodeCount)
    (hr : basicVfsRefPath os v dirNode path = some res)
    (hfound : ∀ n rest, res.found = some (n, rest) → (res.tree.nodes n).type ≠ .file) :
    Shared.Idle { heap := { tree := res.tree } } := by
  have hfree : FreeIn os v := by
    intro p d _ f hf
    rw [(hs.files f hf).2]
    simp
  have htakes := hs.inv.counted.refPath os hfree (fun n hn => ⟨hdir n hn, rfl⟩) hr
  have hnone : (res.found.map (·.1)).bind res.tree.fileInode = none := by
    cases hres : res.found with
    | none => rfl
    | some nr => exact fileInode_of_ne (hfound nr.1 nr.2 hres)
  have hcounted := htakes.counted
  rw [hnone, charge_none] at hcounted
  refine ⟨hcounted.good, fun f hf => ?_, rfl⟩
  have hcount := hcounted.count f ⟨hf, rfl⟩
  refine ⟨hcount, ?_⟩
  by_contra hfd
  exact absurd (hcounted.shut f ⟨hf, rfl⟩ hfd) (lt_irrefl 0)

/-- The heap of `basic_vfs_init` before the root directory is read. -/
def bareTree : Tree :=
  { nodes := Function.update (fun _ => {}) 0 { type := .dir, inode := some 0 }, nodeCount := 1, dirCount := 1 }

theorem bareTree_good : Good { tree := bareTree } := by
  have hroot : ∀ n, n < bareTree.nodeCount → n = 0 := fun n hn => Nat.lt_one_iff.mp hn
  have hempty : ∀ d, (bareTree.dirs d).entries = [] := fun _ => rfl
  have hloaded : bareTree.Loaded 0 0 := ⟨rfl, rfl⟩
  refine ⟨⟨⟨Nat.zero_lt_one, rfl⟩, rfl⟩, ?_, ?_, ?_, ?_, ?_, ?_, fun _ _ => rfl, fun _ _ => rfl, fun _ _ => rfl⟩
  · intro n hn _
    obtain rfl := hroot n hn.1
    exact ⟨0, hloaded⟩
  · exact fun d _ n hn => absurd (hempty d ▸ hn) (by simp)
  · exact fun d _ i j n hi => absurd (hempty d ▸ hi) (by simp)
  · intro n d hn hd
    obtain rfl := hroot n hn.1
    obtain rfl : 0 = d := Option.some.inj (hloaded.2.symm.trans hd.2)
    exact ⟨Nat.zero_lt_one, rfl⟩
  · exact fun n m d hn hm _ _ => (hroot n hn.1).trans (hroot m hm.1).symm
  · intro n f hn htype
    obtain rfl := hroot n hn.1
    exact absurd hloaded.1 htype

/-- **The server starts with nothing held**; the path of the process is that of a directory. -/
theorem basicVfsInit_idle {os : Os} {cwdPath : Bytes} {v : Tree} (hv : basicVfsInit os cwdPath = some v)
    (hcwd : ∀ res n rest, basicVfsRefPath os (basicVfsStatDir os bareTree 0 (bytes "/")).1 none cwdPath = some res →
      res.found = some (n, rest) → (res.tree.nodes n).type ≠ .file) : Shared.Idle { heap := { tree := v } } := by
  have hread := bareTree_good.statDir os (d := 0) ⟨Nat.zero_lt_one, rfl⟩ (bytes "/")
  have hidle : Shared.Idle { heap := { tree := (basicVfsStatDir os bareTree 0 (bytes "/")).1 } } :=
    ⟨hread.1, fun f hf => hread.2.newFiles f (Nat.zero_le f) hf, rfl⟩
  obtain ⟨res, hres, rfl⟩ := Option.map_eq_some_iff.mp hv
  exact hidle.refPath (fun n hn => absurd hn (by simp)) hres (hcwd res · · hres)

/-- A root directory with the regular file `a`, and a kernel that opens it as 5. -/
def fileOs : Os where
  readDir _ := some [⟨bytes "a", .reg, by decide⟩]
  statx _ := some ⟨0x81a4, 0, 0, 10⟩
  openat _ := some 5

def fileShared : Shared := { heap := { tree := (basicVfsStatDir fileOs bareTree 0 (bytes "/")).1 } }

theorem fileShared_idle : fileShared.Idle := by
  have hread := bareTree_good.statDir fileOs (d := 0) ⟨Nat.zero_lt_one, rfl⟩ (bytes "/")
  exact ⟨hread.1, fun f hf => hread.2.newFiles f (Nat.zero_le f) hf, rfl⟩

def askA : VfsEvent := .sendRawPath 0 fileOs 0 (bytes "/a")

theorem askA_undisturbed : Undisturbed fileShared askA := by
  refine ⟨?_, by decide, rfl, rfl, ?_⟩
  · intro p d _ f hf
    rw [(fileShared_idle.files f hf).2]
    simp
  · rintro ⟨n, hmem, -⟩
    exact absurd hmem (by simp [fileShared])

/-- What the examples look at. -/
def Shared.seen (s : Shared) : List (Nat × NodeId) × Option FileId × Option Nat × Int × Bool :=
  (s.held, s.heap.tree.fileInode 1, (s.heap.tree.files 0).fd, (s.heap.tree.files 1).refcount, s.heap.freed.node 1)

end

end Vfs
end Hin9
