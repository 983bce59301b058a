import Hin9.Lib.Runs
import Mathlib.Logic.Function.Basic

/-!
# `System.Children` — programs that are started, and what is called when they end (`signal.c`, `lua_os.c`)

`exec` of a script forks, and remembers the child under its pid if the script wants to be called (`hin_children_add`). When
children have ended, `hin_sig_child_handler` reaps one after the other and calls what is remembered for the pid; a script that is
called may start the next program there. The kernel gives a pid out again as soon as it was reaped.

`children_reported` — every child that wants it is called once, with the status it ended with, and nothing is called that was
freed. It needs that `exec` in the mode `wait` has no callback, and that a callback does not start a child which is given the very
pid that was just reaped: in the one case the pid stays behind with a child that was freed (`waited_stays`), in the other the new
child is forgotten with the old one (`reused_forgotten`).
-/

namespace Hin9
namespace System

open Lib

/-! ## State -/

/-- The children and the kernel's processes; a process goes by the number of its fork. `pids` is what runs under a pid, or waits
    to be reaped; `status` is of a process that has ended; `table` is `child_ht`, with the `hin_child_t` of that fork; `handling`
    is the child that is being called, and its pid; `touched` says that a child was looked at which was freed. -/
structure Children where
  forks : Nat := 0
  pids : Nat → Option Nat := fun _ => none
  status : Nat → Option Int := fun _ => none
  callback : Nat → Bool := fun _ => false
  freed : Nat → Bool := fun _ => false
  table : Nat → Option Nat := fun _ => none
  handling : Option (Nat × Nat) := none
  calls : List (Nat × Int) := []
  touched : Bool := false

namespace Children

variable (s : Children)

/-- `fork` gives out a pid that is free. -/
def fork (pid : Nat) (callback : Bool) : Option Children :=
  if pid = 0 ∨ (s.pids pid).isSome then none
  else
    some { s with
      forks := s.forks + 1
      pids := Function.update s.pids pid (some s.forks)
      callback := Function.update s.callback s.forks callback }

/-- `hin_children_add`. -/
def hinChildrenAdd (pid c : Nat) : Children := { s with table := Function.update s.table pid (some c) }

/-- `child->callback`. -/
def call (c : Nat) (status : Int) : Children :=
  { s with calls := s.calls ++ [(c, status)], touched := s.touched || s.freed c }

def free (c : Nat) : Children := { s with freed := Function.update s.freed c true, touched := s.touched || s.freed c }

/-- `l_hin_exec` in the mode `fork`, and `hin_restart1`. -/
def execFork (pid : Nat) (callback : Bool) : Option Children :=
  (s.fork pid callback).map fun t => if callback then t.hinChildrenAdd pid s.forks else t

/-- `l_hin_exec` in the mode `wait`: the child is reaped at once, and then called and freed by `hin_child_call_callback`. -/
def execWait (pid : Nat) (callback : Bool) (status : Int) : Option Children :=
  (s.execFork pid callback).map fun t =>
    let t : Children := { t with
      pids := Function.update t.pids pid none
      status := Function.update t.status s.forks (some status) }
    if callback then (t.call s.forks status).free s.forks else t

/-- A process ends. -/
def exits (pid : Nat) (status : Int) : Option Children :=
  (s.pids pid).bind fun n =>
    if (s.status n).isSome then none else some { s with status := Function.update s.status n (some status) }

/-- `waitpid` in `hin_sig_child_handler`, and `hin_children_close_pid` up to the callback. -/
def reap (pid : Nat) : Option Children :=
  match s.handling, s.pids pid with
  | none, some n =>
      (s.status n).map fun status =>
        let t : Children := { s with pids := Function.update s.pids pid none }
        match t.table pid with
        | none => t
        | some c => { t.call c status with handling := some (pid, c) }
  | _, _ => none

/-- `hin_children_close_pid` behind the callback. -/
def closed : Option Children :=
  s.handling.map fun h =>
    let t := s.free h.2
    { t with table := Function.update t.table h.1 none, handling := none }

end Children

/-- What happens. While a child is being called, nothing is reaped, but programs start and end. -/
inductive ChildEvent where
  | execFork (pid : Nat) (callback : Bool)
  | execWait (pid : Nat) (callback : Bool) (status : Int)
  | exits (pid : Nat) (status : Int)
  | reap (pid : Nat)
  | closed
deriving Repr, DecidableEq

def childStep (s : Children) : ChildEvent → Option Children
  | .execFork pid callback => s.execFork pid callback
  | .execWait pid callback status => s.execWait pid callback status
  | .exits pid status => s.exits pid status
  | .reap pid => s.reap pid
  | .closed => s.closed

/-- No callback is given with the mode `wait`, and the pid that was just reaped does not come back to the callback. -/
def Apart (s : Children) : ChildEvent → Prop
  | .execWait _ callback _ => callback = false
  | .execFork pid callback => callback = true → ∀ h ∈ s.handling, h.1 ≠ pid
  | _ => True

instance (s : Children) (e : ChildEvent) : Decidable (Apart s e) :=
  match e with
  | .execFork pid callback => inferInstanceAs (Decidable (callback = true → ∀ h ∈ s.handling, h.1 ≠ pid))
  | .execWait _ callback _ => inferInstanceAs (Decidable (callback = false))
  | .exits _ _ | .reap _ | .closed => inferInstanceAs (Decidable True)

/-! ## The invariant -/

/-- **What holds at every step**. A child that wants to be called is in the table as long as its process is there, and while it is
    called. -/
structure ChildInv (s : Children) : Prop where
  untouched : s.touched = false
  new : ∀ n, s.forks ≤ n → s.callback n = false ∧ s.freed n = false ∧ s.status n = none
  old : ∀ pid n, s.pids pid = some n → n < s.forks
  inj : ∀ pid pid' n, s.pids pid = some n → s.pids pid' = some n → pid = pid'
  tabled : ∀ pid n, s.pids pid = some n → s.callback n = true → s.table pid = some n
  table : ∀ pid c, s.table pid = some c → c < s.forks ∧ s.callback c = true ∧ s.freed c = false ∧
    (s.pids pid = some c ∨ s.handling = some (pid, c))
  handling : ∀ pid c, s.handling = some (pid, c) → s.table pid = some c ∧ ∃ status, (c, status) ∈ s.calls
  once : (s.calls.map (·.1)).Nodup
  called : ∀ n status, (n, status) ∈ s.calls → n < s.forks ∧ s.callback n = true ∧ s.status n = some status ∧
    ∀ pid, s.pids pid ≠ some n
  all : ∀ n, n < s.forks → s.callback n = true → (∀ pid, s.pids pid ≠ some n) → ∃ status, (n, status) ∈ s.calls
  freed : ∀ n, n < s.forks → s.callback n = true →
    (s.freed n = true ↔ (∃ status, (n, status) ∈ s.calls) ∧ ∀ pid, s.handling ≠ some (pid, n))

section

variable {s t : Children} {pid pid' n c : Nat} {callback : Bool} {status : Int}

theorem fork_some (h : s.fork pid callback = some t) : pid ≠ 0 ∧ s.pids pid = none ∧ t = { s with
    forks := s.forks + 1
    pids := Function.update s.pids pid (some s.forks)
    callback := Function.update s.callback s.forks callback } := by
  unfold Children.fork at h
  split at h
  · exact absurd h (by simp)
  · rename_i hfree
    rw [not_or] at hfree
    exact ⟨hfree.1, Option.not_isSome_iff_eq_none.mp hfree.2, (Option.some.inj h).symm⟩

/-- No process under the pid that is being handled wants to be called. -/
theorem ChildInv.handled_plain (hs : ChildInv s) (hh : s.handling = some (pid, c)) (hn : s.pids pid = some n) :
    s.callback n = false := by
  by_contra hne
  obtain ⟨htable, status, hcall⟩ := hs.handling pid c hh
  obtain rfl : c = n := Option.some.inj (htable.symm.trans (hs.tabled pid n hn (Bool.not_eq_false _ ▸ hne)))
  exact (hs.called c status hcall).2.2.2 pid hn

/-- What `fork` and `hin_children_add` leave. -/
def Children.started (s : Children) (pid : Nat) (callback : Bool) : Children :=
  { s with
    forks := s.forks + 1
    pids := Function.update s.pids pid (some s.forks)
    callback := Function.update s.callback s.forks callback
    table := if callback then Function.update s.table pid (some s.forks) else s.table }

theorem execFork_some (h : s.execFork pid callback = some t) : s.pids pid = none ∧ t = s.started pid callback := by
  obtain ⟨u, hu, rfl⟩ := Option.map_eq_some_iff.mp h
  obtain ⟨-, hfree, rfl⟩ := fork_some hu
  refine ⟨hfree, ?_⟩
  cases callback with
  | false => rfl
  | true => rfl

/-- A process is the new one, or was there. -/
theorem started_pids (hs : ChildInv s) (h : (s.started pid callback).pids pid' = some n) :
    (pid' = pid ∧ n = s.forks) ∨ (pid' ≠ pid ∧ s.pids pid' = some n ∧ n ≠ s.forks) := by
  replace h : Function.update s.pids pid (some s.forks) pid' = some n := h
  by_cases heq : pid' = pid
  · rw [heq, Function.update_self] at h
    exact .inl ⟨heq, (Option.some.inj h).symm⟩
  · rw [Function.update_of_ne heq] at h
    exact .inr ⟨heq, h, Nat.ne_of_lt (hs.old pid' n h)⟩

theorem started_gone (hs : ChildInv s) (hfree : s.pids pid = none) (hn : n < s.forks) :
    (∀ pid', (s.started pid callback).pids pid' ≠ some n) ↔ ∀ pid', s.pids pid' ≠ some n := by
  refine ⟨fun hall pid' h => ?_, fun hall pid' h => ?_⟩
  · have hother : pid' ≠ pid := by
      rintro rfl
      exact absurd (hfree.symm.trans h) (by simp)
    exact hall pid' ((Function.update_of_ne hother _ _).trans h)
  · rcases started_pids hs h with ⟨-, rfl⟩ | ⟨-, h, -⟩
    · exact absurd hn (lt_irrefl _)
    · exact hall pid' h

theorem started_callback (hn : n < s.forks) : (s.started pid callback).callback n = s.callback n :=
  Function.update_of_ne (Nat.ne_of_lt hn) _ _

/-- An entry of the table is the new one, or was there; a new one has replaced it if the child wants to be called. -/
theorem started_table (h : (s.started pid callback).table pid' = some c) :
    (pid' = pid ∧ c = s.forks ∧ callback = true) ∨ (s.table pid' = some c ∧ (pid' = pid → callback = false)) := by
  replace h : (if callback = true then Function.update s.table pid (some s.forks) else s.table) pid' = some c := h
  cases callback with
  | false =>
      rw [if_neg Bool.false_ne_true] at h
      exact .inr ⟨h, fun _ => rfl⟩
  | true =>
      rw [if_pos rfl] at h
      by_cases heq : pid' = pid
      · rw [heq, Function.update_self] at h
        exact .inl ⟨heq, (Option.some.inj h).symm, rfl⟩
      · rw [Function.update_of_ne heq] at h
        exact .inr ⟨h, fun hp => absurd hp heq⟩

theorem started_kept (h : s.table pid' = some c) (hne : pid' = pid → callback = false) :
    (s.started pid callback).table pid' = some c := by
  show (if callback = true then Function.update s.table pid (some s.forks) else s.table) pid' = some c
  cases callback with
  | false => exact h
  | true =>
      rw [if_pos rfl, Function.update_of_ne fun hp => absurd (hne hp) (by simp)]
      exact h

/-- **A program is started.** -/
theorem ChildInv.started (hs : ChildInv s) (hfree : s.pids pid = none)
    (hg : callback = true → ∀ h ∈ s.handling, h.1 ≠ pid) : ChildInv (s.started pid callback) := by
  obtain ⟨-, hunfreed, hrunning⟩ := hs.new s.forks le_rfl
  refine ⟨hs.untouched, ?_, ?_, ?_, ?_, ?_, ?_, hs.once, ?_, ?_, ?_⟩
  · intro n hn
    obtain ⟨hcallback, hrest⟩ := hs.new n (Nat.le_of_succ_le hn)
    exact ⟨(Function.update_of_ne (Nat.ne_of_gt hn) _ _).trans hcallback, hrest⟩
  · intro pid' n hn
    rcases started_pids hs hn with ⟨-, rfl⟩ | ⟨-, hn, -⟩
    · exact Nat.lt_succ_self _
    · exact (hs.old pid' n hn).trans (Nat.lt_succ_self _)
  · intro p q n hp hq
    rcases started_pids hs hp with ⟨rfl, rfl⟩ | ⟨-, hp, hne⟩
    · rcases started_pids hs hq with ⟨rfl, -⟩ | ⟨-, -, hne⟩
      · rfl
      · exact absurd rfl hne
    · rcases started_pids hs hq with ⟨-, rfl⟩ | ⟨-, hq, -⟩
      · exact absurd rfl hne
      · exact hs.inj p q n hp hq
  · intro p n hp hn
    rcases started_pids hs hp with ⟨rfl, rfl⟩ | ⟨hne, hp, hold⟩
    · have hcallback : callback = true := (Function.update_self _ _ _).symm.trans hn
      show (if callback = true then Function.update s.table p (some s.forks) else s.table) p = some s.forks
      rw [if_pos hcallback, Function.update_self]
    · rw [started_callback (hs.old p n hp)] at hn
      exact started_kept (hs.tabled p n hp hn) fun h => absurd h hne
  · intro p c hp
    rcases started_table hp with ⟨rfl, rfl, hcallback⟩ | ⟨hp, hkept⟩
    · exact ⟨Nat.lt_succ_self _, (Function.update_self _ _ _).trans hcallback, hunfreed, .inl (Function.update_self _ _ _)⟩
    · obtain ⟨hlt, hcallback, hfreed, hwhere⟩ := hs.table p c hp
      refine ⟨hlt.trans (Nat.lt_succ_self _), (started_callback hlt).trans hcallback, hfreed, hwhere.imp_left fun h => ?_⟩
      have hne : p ≠ pid := by
        rintro rfl
        exact absurd (hfree.symm.trans h) (by simp)
      exact (Function.update_of_ne hne _ _).trans h
  · intro p c hp
    obtain ⟨htable, hcall⟩ := hs.handling p c hp
    refine ⟨started_kept htable fun heq => ?_, hcall⟩
    -- the pid that is handled does not come back to a child that wants to be called
    by_contra hne
    exact hg (Bool.not_eq_false _ ▸ hne) (p, c) hp heq
  · intro n status hn
    obtain ⟨hlt, hcallback, hstatus, hgone⟩ := hs.called n status hn
    exact ⟨hlt.trans (Nat.lt_succ_self _), (started_callback hlt).trans hcallback, hstatus, (started_gone hs hfree hlt).mpr hgone⟩
  · intro n hn hcallback hgone
    rcases Nat.lt_or_eq_of_le (Nat.le_of_lt_succ hn) with hlt | rfl
    · rw [started_callback hlt] at hcallback
      exact hs.all n hlt hcallback ((started_gone hs hfree hlt).mp hgone)
    · exact absurd (Function.update_self _ _ _) (hgone pid)
  · intro n hn hcallback
    rcases Nat.lt_or_eq_of_le (Nat.le_of_lt_succ hn) with hlt | rfl
    · rw [started_callback hlt] at hcallback
      exact hs.freed n hlt hcallback
    · refine ⟨fun h => absurd (hunfreed.symm.trans h) Bool.false_ne_true, ?_⟩
      rintro ⟨⟨status, hcall⟩, -⟩
      exact absurd (hs.called _ status hcall).1 (lt_irrefl _)

/-- **A program is started and waited for**: nothing is left but its status. -/
theorem execWait_inv (hs : ChildInv s) (h : s.execWait pid false status = some t) : ChildInv t := by
  obtain ⟨u, hu, rfl⟩ := Option.map_eq_some_iff.mp h
  obtain ⟨hfree, rfl⟩ := execFork_some hu
  have hinv : ChildInv (s.started pid false) := hs.started hfree fun h => absurd h Bool.false_ne_true
  have hcallbacks : ∀ n, n < s.forks → (s.started pid false).callback n = s.callback n := fun _ => started_callback
  have hpids : Function.update (s.started pid false).pids pid none = s.pids := by
    show Function.update (Function.update s.pids pid (some s.forks)) pid none = s.pids
    rw [Function.update_idem, ← hfree, Function.update_eq_self]
  have hstatus : ∀ n, n ≠ s.forks → Function.update s.status s.forks (some status) n = s.status n := fun n hne =>
    Function.update_of_ne hne _ _
  show ChildInv { s.started pid false with
    pids := Function.update (s.started pid false).pids pid none
    status := Function.update s.status s.forks (some status) }
  rw [hpids]
  refine ⟨hinv.untouched, ?_, ?_, hs.inj, ?_, ?_, hinv.handling, hinv.once, ?_, ?_, hinv.freed⟩
  · intro n hn
    obtain ⟨hcallback, hfreed, hnone⟩ := hinv.new n hn
    exact ⟨hcallback, hfreed, (hstatus n (Nat.ne_of_gt hn)).trans hnone⟩
  · exact fun p n hp => (hs.old p n hp).trans (Nat.lt_succ_self _)
  · intro p n hp hn
    exact hs.tabled p n hp ((hcallbacks n (hs.old p n hp)).symm.trans hn)
  · intro p c hp
    obtain ⟨hlt, hcallback, hfreed, hwhere⟩ := hs.table p c hp
    exact ⟨hlt.trans (Nat.lt_succ_self _), (hcallbacks _ hlt).trans hcallback, hfreed, hwhere⟩
  · intro n st hn
    obtain ⟨hlt, hcallback, hst, hgone⟩ := hs.called n st hn
    exact ⟨hlt.trans (Nat.lt_succ_self _), (hcallbacks _ hlt).trans hcallback, (hstatus n (Nat.ne_of_lt hlt)).trans hst, hgone⟩
  · intro n hn hcallback hgone
    rcases Nat.lt_or_eq_of_le (Nat.le_of_lt_succ hn) with hlt | rfl
    · exact hs.all n hlt ((hcallbacks n hlt).symm.trans hcallback) hgone
    · exact absurd ((Function.update_self _ _ _).symm.trans hcallback) Bool.false_ne_true

theorem exits_inv (hs : ChildInv s) (h : s.exits pid status = some t) : ChildInv t := by
  obtain ⟨n, hn, h⟩ := Option.bind_eq_some_iff.mp h
  split at h
  · exact absurd h (by simp)
  obtain rfl := Option.some.inj h
  have hold := hs.old pid n hn
  refine ⟨hs.untouched, ?_, hs.old, hs.inj, hs.tabled, hs.table, hs.handling, hs.once, ?_, hs.all, hs.freed⟩
  · intro m hm
    obtain ⟨hcallback, hfreed, hnone⟩ := hs.new m hm
    have hne : m ≠ n := fun heq => absurd (heq ▸ hm) (Nat.not_le_of_lt hold)
    exact ⟨hcallback, hfreed, (Function.update_of_ne hne _ _).trans hnone⟩
  · intro m st hm
    obtain ⟨hlt, hcallback, hst, hgone⟩ := hs.called m st hm
    have hne : m ≠ n := by
      rintro rfl
      exact hgone pid hn
    exact ⟨hlt, hcallback, (Function.update_of_ne hne _ _).trans hst, hgone⟩

/-- What `waitpid` and the call leave. -/
theorem reap_some (h : s.reap pid = some t) : ∃ n status, s.handling = none ∧ s.pids pid = some n ∧ s.status n = some status ∧
    ((s.table pid = none ∧ t = { s with pids := Function.update s.pids pid none }) ∨
      ∃ c, s.table pid = some c ∧ t = { s with
        pids := Function.update s.pids pid none
        calls := s.calls ++ [(c, status)]
        touched := s.touched || s.freed c
        handling := some (pid, c) }) := by
  unfold Children.reap at h
  split at h
  · rename_i n hnone hn
    obtain ⟨status, hstatus, rfl⟩ := Option.map_eq_some_iff.mp h
    refine ⟨n, status, hnone, hn, hstatus, ?_⟩
    cases htable : s.table pid with
    | none =>
        left
        refine ⟨rfl, ?_⟩
        dsimp only
        rw [htable]
    | some c =>
        right
        refine ⟨c, rfl, ?_⟩
        dsimp only
        rw [htable]
        rfl
  · exact absurd h (by simp)

/-- **A child is reaped and called.** What is in the table under its pid is the child itself. -/
theorem reap_inv (hs : ChildInv s) (h : s.reap pid = some t) : ChildInv t := by
  obtain ⟨n, status, hnone, hn, hstatus, hcases⟩ := reap_some h
  have hpids : ∀ p m, Function.update s.pids pid none p = some m → p ≠ pid ∧ s.pids p = some m := by
    intro p m hp
    by_cases heq : p = pid
    · rw [heq, Function.update_self] at hp
      exact absurd hp (by simp)
    · rw [Function.update_of_ne heq] at hp
      exact ⟨heq, hp⟩
  have hgone : ∀ m, m ≠ n → (∀ p, Function.update s.pids pid none p ≠ some m) → ∀ p, s.pids p ≠ some m := by
    intro m hne hall p hp
    have hother : p ≠ pid := by
      rintro rfl
      exact hne (Option.some.inj (hp.symm.trans hn))
    exact hall p ((Function.update_of_ne hother _ _).trans hp)
  have hlast : ∀ p, Function.update s.pids pid none p ≠ some n := by
    intro p hp
    obtain ⟨hne, hp⟩ := hpids p n hp
    exact hne (hs.inj p pid n hp hn)
  rcases hcases with ⟨htable, rfl⟩ | ⟨c, htable, rfl⟩
  · -- nobody waits for it
    have hplain : s.callback n = false := by
      by_contra hne
      exact absurd (htable.symm.trans (hs.tabled pid n hn (Bool.not_eq_false _ ▸ hne))) (by simp)
    refine ⟨hs.untouched, hs.new, fun p m hp => hs.old p m (hpids p m hp).2,
      fun p q m hp hq => hs.inj p q m (hpids p m hp).2 (hpids q m hq).2, fun p m hp => hs.tabled p m (hpids p m hp).2, ?_,
      hs.handling, hs.once, ?_, ?_, hs.freed⟩
    · intro p c hp
      obtain ⟨hlt, hcallback, hfreed, hwhere⟩ := hs.table p c hp
      refine ⟨hlt, hcallback, hfreed, hwhere.imp_left fun h => ?_⟩
      have hne : p ≠ pid := by
        rintro rfl
        exact absurd (htable.symm.trans hp) (by simp)
      exact (Function.update_of_ne hne _ _).trans h
    · intro m st hm
      obtain ⟨hlt, hcallback, hst, hall⟩ := hs.called m st hm
      exact ⟨hlt, hcallback, hst, fun p hp => hall p (hpids p m hp).2⟩
    · intro m hm hcallback hall
      have hne : m ≠ n := by
        rintro rfl
        exact absurd (hplain.symm.trans hcallback) Bool.false_ne_true
      exact hs.all m hm hcallback (hgone m hne hall)
  · obtain ⟨hlt, hcallback, hfreed, hwhere⟩ := hs.table pid c htable
    have hcn : c = n := by
      rcases hwhere with h | h
      · exact Option.some.inj (h.symm.trans hn)
      · exact absurd (hnone.symm.trans h) (by simp)
    subst hcn
    have huncalled : ∀ st, (c, st) ∉ s.calls := fun st hmem => (hs.called c st hmem).2.2.2 pid hn
    have hcalls : ∀ m st, (m, st) ∈ s.calls ++ [(c, status)] → (m, st) ∈ s.calls ∨ (m = c ∧ st = status) := by
      intro m st hm
      rcases List.mem_append.mp hm with hm | hm
      · exact .inl hm
      · exact .inr (Prod.mk.inj (List.mem_singleton.mp hm))
    refine ⟨?_, hs.new, fun p m hp => hs.old p m (hpids p m hp).2,
      fun p q m hp hq => hs.inj p q m (hpids p m hp).2 (hpids q m hq).2, fun p m hp => hs.tabled p m (hpids p m hp).2, ?_, ?_, ?_,
      ?_, ?_, ?_⟩
    · show (s.touched || s.freed c) = false
      rw [hs.untouched, hfreed]
      rfl
    · intro p c' hp
      obtain ⟨hlt', hcallback', hfreed', hwhere'⟩ := hs.table p c' hp
      refine ⟨hlt', hcallback', hfreed', ?_⟩
      rcases hwhere' with h | h
      · by_cases heq : p = pid
        · subst heq
          obtain rfl : c = c' := Option.some.inj (htable.symm.trans hp)
          exact .inr rfl
        · exact .inl ((Function.update_of_ne heq _ _).trans h)
      · exact absurd (hnone.symm.trans h) (by simp)
    · intro p c' hp
      obtain ⟨rfl, rfl⟩ := Prod.mk.inj (Option.some.inj hp)
      exact ⟨htable, status, List.mem_append_right _ List.mem_cons_self⟩
    · show ((s.calls ++ [(c, status)]).map (·.1)).Nodup
      rw [List.map_append, List.nodup_append]
      refine ⟨hs.once, List.nodup_singleton _, fun a ha b hb hab => ?_⟩
      obtain rfl : b = c := List.mem_singleton.mp hb
      obtain ⟨⟨m, st⟩, hm, rfl⟩ := List.mem_map.mp ha
      exact huncalled st (hab ▸ hm)
    · intro m st hm
      rcases hcalls m st hm with hm | ⟨rfl, rfl⟩
      · obtain ⟨hlt', hcallback', hst, hall⟩ := hs.called m st hm
        exact ⟨hlt', hcallback', hst, fun p hp => hall p (hpids p m hp).2⟩
      · exact ⟨hlt, hcallback, hstatus, hlast⟩
    · intro m hm hcallback' hall
      by_cases heq : m = c
      · exact ⟨status, heq ▸ List.mem_append_right _ List.mem_cons_self⟩
      · obtain ⟨st, hst⟩ := hs.all m hm hcallback' (hgone m heq hall)
        exact ⟨st, List.mem_append_left _ hst⟩
    · intro m hm hcallback'
      rw [hs.freed m hm hcallback']
      by_cases heq : m = c
      · subst heq
        refine ⟨?_, fun h => absurd rfl (h.2 pid)⟩
        rintro ⟨⟨st, hst⟩, -⟩
        exact absurd hst (huncalled st)
      · refine ⟨?_, ?_⟩
        · rintro ⟨⟨st, hst⟩, -⟩
          exact ⟨⟨st, List.mem_append_left _ hst⟩, fun p hp => heq (Prod.mk.inj (Option.some.inj hp)).2.symm⟩
        · rintro ⟨⟨st, hst⟩, -⟩
          refine ⟨⟨st, (hcalls m st hst).resolve_right fun h => heq h.1⟩, fun p hp => ?_⟩
          exact absurd (hnone.symm.trans hp) (by simp)

/-- **The callback has returned**: the child is freed and forgotten. -/
theorem closed_inv (hs : ChildInv s) (h : s.closed = some t) : ChildInv t := by
  obtain ⟨⟨pid, c⟩, hh, rfl⟩ := Option.map_eq_some_iff.mp h
  obtain ⟨htable, status, hcall⟩ := hs.handling pid c hh
  obtain ⟨hlt, hcallback, hfreed, -⟩ := hs.table pid c htable
  have hfree : ∀ m, m ≠ c → Function.update s.freed c true m = s.freed m := fun m hne => Function.update_of_ne hne _ _
  have htables : ∀ p m, Function.update s.table pid none p = some m → p ≠ pid ∧ s.table p = some m := by
    intro p m hp
    by_cases heq : p = pid
    · rw [heq, Function.update_self] at hp
      exact absurd hp (by simp)
    · rw [Function.update_of_ne heq] at hp
      exact ⟨heq, hp⟩
  refine ⟨?_, ?_, hs.old, hs.inj, ?_, ?_, fun p m hp => absurd hp (by simp), hs.once, hs.called, hs.all, ?_⟩
  · show (s.touched || s.freed c) = false
    rw [hs.untouched, hfreed]
    rfl
  · intro m hm
    obtain ⟨hcallback', hfreed', hnone⟩ := hs.new m hm
    exact ⟨hcallback', (hfree m fun heq => absurd (heq ▸ hlt) (Nat.not_lt_of_le hm)).trans hfreed', hnone⟩
  · intro p m hp hm
    have hne : p ≠ pid := by
      rintro rfl
      exact absurd ((hs.handled_plain hh hp).symm.trans hm) Bool.false_ne_true
    exact (Function.update_of_ne hne _ _).trans (hs.tabled p m hp hm)
  · intro p m hp
    obtain ⟨hne, hp⟩ := htables p m hp
    obtain ⟨hlt', hcallback', hfreed', hwhere⟩ := hs.table p m hp
    rcases hwhere with hrun | hhandled
    · have hmc : m ≠ c := by
        rintro rfl
        exact (hs.called m status hcall).2.2.2 p hrun
      exact ⟨hlt', hcallback', (hfree m hmc).trans hfreed', .inl hrun⟩
    · exact absurd (Prod.mk.inj (Option.some.inj (hh.symm.trans hhandled))).1.symm hne
  · intro m hm hcallback'
    by_cases heq : m = c
    · subst heq
      refine ⟨fun _ => ⟨⟨status, hcall⟩, fun p hp => absurd hp (by simp)⟩, fun _ => Function.update_self _ _ _⟩
    · show Function.update s.freed c true m = true ↔ _
      rw [hfree m heq, hs.freed m hm hcallback']
      refine and_congr_right fun _ => ⟨fun _ p hp => absurd hp (by simp), fun _ p hp => ?_⟩
      exact heq (Prod.mk.inj (Option.some.inj (hh.symm.trans hp))).2.symm

theorem child_step_inv {e : ChildEvent} (hs : ChildInv s) (hg : Apart s e) (h : childStep s e = some t) : ChildInv t := by
  cases e with
  | execFork pid callback =>
      obtain ⟨hfree, rfl⟩ := execFork_some h
      exact hs.started hfree hg
  | execWait pid callback status =>
      obtain rfl : callback = false := hg
      exact execWait_inv hs h
  | exits pid status => exact exits_inv hs h
  | reap pid => exact reap_inv hs h
  | closed => exact closed_inv hs h

end

theorem childInv_new : ChildInv {} where
  untouched := rfl
  new := fun _ _ => ⟨rfl, rfl, rfl⟩
  old := fun _ _ h => absurd h (by simp)
  inj := fun _ _ _ h => absurd h (by simp)
  tabled := fun _ _ h => absurd h (by simp)
  table := fun _ _ h => absurd h (by simp)
  handling := fun _ _ h => absurd h (by simp)
  once := List.nodup_nil
  called := fun _ _ h => absurd h List.not_mem_nil
  all := fun _ h => absurd h (Nat.not_lt_zero _)
  freed := fun _ h => absurd h (Nat.not_lt_zero _)

/-! ## Every child is called once -/

/-- **What has been called**: no child that was freed, none twice, and exactly those that wanted it and were reaped, with the
    status they ended with. What has been called is freed as soon as the call is over, and nothing else is. -/
structure Reported (s : Children) : Prop where
  untouched : s.touched = false
  once : (s.calls.map (·.1)).Nodup
  called : ∀ n status, (n, status) ∈ s.calls ↔
    n < s.forks ∧ s.callback n = true ∧ s.status n = some status ∧ ∀ pid, s.pids pid ≠ some n
  freed : ∀ n, n < s.forks → s.callback n = true →
    (s.freed n = true ↔ (∃ status, (n, status) ∈ s.calls) ∧ ∀ pid, s.handling ≠ some (pid, n))

/-- **Every child is reported once**, over every run of programs that are started, end and are reaped. -/
theorem children_reported {es : List ChildEvent} {s : Children} (h : RunWith childStep Apart {} es s) : Reported s := by
  have hs : ChildInv s := h.invariant childInv_new fun s e s' hs hg hstep => child_step_inv hs hg hstep
  refine ⟨hs.untouched, hs.once, fun n status => ⟨hs.called n status, ?_⟩, hs.freed⟩
  rintro ⟨hlt, hcallback, hstatus, hgone⟩
  obtain ⟨st, hst⟩ := hs.all n hlt hcallback hgone
  obtain rfl : st = status := Option.some.inj ((hs.called n st hst).2.2.1.symm.trans hstatus)
  exact hst

/-- Two programs, the second one in the callback of the first. -/
def twoPrograms : List ChildEvent :=
  [.execFork 7 true, .exits 7 1, .reap 7, .execFork 8 true, .closed, .exits 8 0, .reap 8, .closed]

theorem children_reported_two : ∃ s, RunWith childStep Apart {} twoPrograms s ∧ Reported s ∧ s.calls = [(0, 1), (1, 0)] := by
  obtain ⟨s, hs, hcalls⟩ : ∃ s, execWith childStep (fun s e => decide (Apart s e)) {} twoPrograms = some s ∧
      s.calls = [(0, 1), (1, 0)] := ⟨_, rfl, rfl⟩
  have hrun : RunWith childStep Apart {} twoPrograms s := RunWith.of_exec (fun _ _ hg => of_decide_eq_true hg) twoPrograms hs
  exact ⟨s, hrun, children_reported hrun, hcalls⟩

/-! ## What is left out -/

/-- A child that was waited for stays in the table; the next program under its pid ends, and what was freed is called again. -/
theorem waited_stays : ∃ s, execWith childStep (fun _ _ => true) {}
    [.execWait 7 true 0, .execFork 7 false, .exits 7 1, .reap 7] = some s ∧ s.touched = true ∧ s.calls = [(0, 0), (0, 1)] :=
  ⟨_, rfl, rfl, rfl⟩

/-- A callback starts a child under the pid that was just reaped: the entry that goes is the new one, and nobody is called. -/
theorem reused_forgotten : ∃ s, execWith childStep (fun _ _ => true) {}
    [.execFork 7 true, .exits 7 1, .reap 7, .execFork 7 true, .closed, .exits 7 0, .reap 7] = some s ∧
      s.callback 1 = true ∧ s.calls = [(0, 1)] ∧ s.pids 7 = none :=
  ⟨_, rfl, rfl, rfl, rfl⟩

end System
end Hin9
