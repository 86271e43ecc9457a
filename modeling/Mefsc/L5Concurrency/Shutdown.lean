import Mefsc.L5Concurrency.Ledger

/-!
# Waking the workers

`server_alive` is cleared and `queue_cv` notified without `queue_mutex`. A
worker that has found the queue empty and the server alive, and has not gone to
sleep yet (`park`), is missed by a `notify_all`; the kill listener issues none,
and the one of `main` is the last.

`shutdown_wakes_iff`: once all notifications are out, no worker sleeps from
there on exactly when one of the `notify_all` calls that followed the store
found no worker at `park`.
-/
namespace Mefsc.L5

variable {ι : Type}

/-- `queue_cv.notify_all()` of `main` or of the signal handler. -/
def PoolAct.notifiesAll : PoolAct ι → Prop
  | .main .notifyAll | .signal .notify => True
  | _ => False

namespace Pool

/-- The server is down and nobody is about to notify. -/
structure Quiesced (s : Pool ι) : Prop where
  dead : s.server_alive = false
  main : s.main = .join
  signal : s.signal ≠ .notify

/-- Some `notify_all` of the run came behind the store and between no worker's
test and its sleep. -/
def Caught (tr : List (Pool ι × PoolAct ι)) : Prop :=
  ∃ t l, (t, l) ∈ tr ∧ l.notifiesAll ∧ t.server_alive = false ∧ ∀ w, t.workers w ≠ .park

/-- No worker sleeps or is about to, and none will be. -/
structure Awake (s : Pool ι) : Prop where
  dead : s.server_alive = false
  park : ∀ w, s.workers w ≠ .park
  asleep : ∀ w, s.workers w ≠ .asleep

/-- Some worker sleeps or is about to. -/
def Dozing (s : Pool ι) : Prop := ∃ w, s.workers w = .park ∨ s.workers w = .asleep

theorem wakeAll_ne_asleep (s : Pool ι) (w : ι) : s.wakeAll.workers w ≠ .asleep := by
  unfold wakeAll
  dsimp only
  split
  · simp
  · assumption

/-- It only moves the ones that sleep. -/
theorem wakeAll_park (s : Pool ι) (w : ι) : s.wakeAll.workers w = .park ↔ s.workers w = .park := by
  unfold wakeAll
  dsimp only
  split
  · rename_i h
    simp [h]
  · rfl

/-- A `notify_all` that finds nobody at `park` leaves nobody asleep. -/
theorem Awake.wakeAll {s : Pool ι} (ha : s.server_alive = false) (hp : ∀ w, s.workers w ≠ .park) :
    s.wakeAll.Awake where
  dead := ha
  park w := by
    rw [Ne, wakeAll_park]
    exact hp w
  asleep := wakeAll_ne_asleep s

/-- One that finds a worker there misses it. -/
theorem Dozing.wakeAll {s : Pool ι} {w : ι} (hw : s.workers w = .park) : s.wakeAll.Dozing :=
  ⟨w, .inl ((wakeAll_park s w).mpr hw)⟩

variable [DecidableEq ι]

/-- What a worker's step does to sleeping: it moves itself only, it goes to
sleep from `park` and nowhere else, and it gets to `park` only while the
server is alive. -/
theorem workerStep_sleep {s s' : Pool ι} {w : ι} {a : WorkerAct} (hs : s.workerStep w a = some s') :
    s'.server_alive = s.server_alive ∧ s'.main = s.main ∧ s.workers w ≠ .asleep ∧
      ∃ pc, s'.workers = Function.update s.workers w pc ∧ (pc = .asleep ↔ s.workers w = .park) ∧
        (pc = .park → s.server_alive = true) := by
  cases workerStep_move hs with
  | loop hw =>
    refine ⟨rfl, rfl, by simp [hw], _, rfl, ?_⟩
    cases s.server_alive <;> simp [hw]
  | test hw =>
    refine ⟨rfl, rfl, by simp [hw], _, rfl, ?_⟩
    by_cases h : s.client_queue ≠ [] ∨ s.server_alive = false
    · simp [h, hw]
    · simp only [not_or, Bool.not_eq_false] at h
      simp [h, hw]
  | lock hw | park hw | check hw | exit hw | pop c cs hw | crypt c hw | cryptFails c hw
  | verify c ok hw | refuse c hw | session c hw | erase c hw | close c hw | uncount c hw =>
    exact ⟨rfl, rfl, by simp [hw], _, rfl, by simp [hw]⟩

/-! ## Nobody is missed -/

theorem Awake.worker {s s' : Pool ι} (h : s.Awake) {w : ι} {a : WorkerAct}
    (hs : s.workerStep w a = some s') : s'.Awake := by
  obtain ⟨ha, -, -, pc, hw, hsleep, hpark⟩ := workerStep_sleep hs
  refine ⟨ha.trans h.dead, fun v => ?_, fun v => ?_⟩ <;> rw [hw] <;> by_cases hv : v = w
  · subst hv
    rw [Function.update_self]
    intro hpc
    have := hpark hpc
    simp [h.dead] at this
  · rw [Function.update_of_ne hv]
    exact h.park v
  · subst hv
    rw [Function.update_self, Ne, hsleep]
    exact h.park v
  · rw [Function.update_of_ne hv]
    exact h.asleep v

theorem Awake.main [Fintype ι] {s s' : Pool ι} (h : s.Awake) {a : MainAct ι}
    (hs : s.mainStep a = some s') : s'.Awake := by
  cases mainStep_move hs with
  | notifyOne c w hm hw => exact absurd hw (h.asleep w)
  | notifyAll hm =>
    have hn := Awake.wakeAll h.dead h.park
    exact ⟨h.dead, hn.park, hn.asleep⟩
  | _ => exact ⟨h.dead, h.park, h.asleep⟩

theorem Awake.step [Fintype ι] {s s' : Pool ι} (h : s.Awake) {a : PoolAct ι}
    (hs : s.step a = some s') : s'.Awake := by
  cases a with
  | main a => exact h.main hs
  | worker w a => exact h.worker hs
  | signal a =>
    rcases signalStep_cases hs with ⟨-, rfl⟩ | ⟨-, rfl⟩ | ⟨-, rfl⟩
    · exact ⟨rfl, h.park, h.asleep⟩
    · have hn := Awake.wakeAll h.dead h.park
      exact ⟨h.dead, hn.park, hn.asleep⟩
    · exact ⟨h.dead, h.park, h.asleep⟩
  | kill a =>
    rcases killStep_cases hs with ⟨-, rfl⟩ | ⟨-, rfl⟩
    · exact ⟨rfl, h.park, h.asleep⟩
    · exact ⟨h.dead, h.park, h.asleep⟩

/-- A `notify_all` that catches everybody. -/
theorem Awake.of_notify [Fintype ι] {s s' : Pool ι} {a : PoolAct ι} (hn : a.notifiesAll)
    (ha : s.server_alive = false) (hp : ∀ w, s.workers w ≠ .park) (hs : s.step a = some s') :
    s'.Awake := by
  have hw := Awake.wakeAll ha hp
  unfold PoolAct.notifiesAll at hn
  split at hn
  · have hs' : s.mainStep .notifyAll = some s' := hs
    cases mainStep_move hs'
    exact ⟨ha, hw.park, hw.asleep⟩
  · have hs' : s.signalStep .notify = some s' := hs
    rcases signalStep_cases hs' with ⟨he, -⟩ | ⟨-, rfl⟩ | ⟨he, -⟩
    · cases he
    · exact ⟨ha, hw.park, hw.asleep⟩
    · cases he
  · exact hn.elim

theorem awake_of_caught [Fintype ι] {s s' : Pool ι} {tr : List (Pool ι × PoolAct ι)}
    (h : (poolLTS ι).Trace s tr s') (hc : Caught tr) : s'.Awake := by
  induction h with
  | refl =>
    obtain ⟨t, l, hm, -⟩ := hc
    cases hm
  | snoc h hl ih =>
    obtain ⟨t, l, hm, hn, ha, hp⟩ := hc
    rcases List.mem_append.mp hm with hm | hm
    · exact (ih ⟨t, l, hm, hn, ha, hp⟩).step hl
    · simp only [List.mem_singleton, Prod.mk.injEq] at hm
      obtain ⟨rfl, rfl⟩ := hm
      exact Awake.of_notify hn ha hp hl

/-! ## Somebody is missed -/

/-- `main` leaves the accept loop only when the server is down. -/
def LeftDown (s : Pool ι) : Prop := s.main = .leave ∨ s.main = .join → s.server_alive = false

theorem leftDown_invariant [Fintype ι] : (poolLTS ι).Invariant LeftDown where
  init s hs := by
    obtain rfl := hs
    intro h
    simp [init] at h
  step s a s' hl hs := by
    cases a with
    | main a =>
      cases mainStep_move hs with
      | loop hm | again hm =>
        cases ha : s.server_alive <;> simp [LeftDown]
      | stop c hm ha => exact fun _ => ha
      | notifyAll hm => exact fun _ => hl (.inl hm)
      | _ => simp [LeftDown]
    | worker w a =>
      obtain ⟨ha, hm, -⟩ := workerStep_sleep hs
      intro h
      rw [ha]
      rw [hm] at h
      exact hl h
    | signal a =>
      rcases signalStep_cases hs with ⟨-, rfl⟩ | ⟨-, rfl⟩ | ⟨-, rfl⟩
      · exact fun _ => rfl
      · exact hl
      · exact hl
    | kill a =>
      rcases killStep_cases hs with ⟨-, rfl⟩ | ⟨-, rfl⟩
      · exact fun _ => rfl
      · exact hl

theorem Dozing.worker {s s' : Pool ι} (h : s.Dozing) {w : ι} {a : WorkerAct}
    (hs : s.workerStep w a = some s') : s'.Dozing := by
  obtain ⟨v, hv⟩ := h
  obtain ⟨-, -, hne, pc, hw, hsleep, -⟩ := workerStep_sleep hs
  refine ⟨v, ?_⟩
  rw [hw]
  by_cases he : v = w
  · subst he
    rw [Function.update_self]
    rcases hv with hv | hv
    · exact .inr (hsleep.mpr hv)
    · exact absurd hv hne
  · rw [Function.update_of_ne he]
    exact hv

/-- When `main` joins and no `notify_all` found `park` empty, one sleeps. -/
theorem dozing_of_not_caught [Fintype ι] {s s' : Pool ι} {tr : List (Pool ι × PoolAct ι)}
    (r : (poolLTS ι).Reachable s) (hj : s.main ≠ .join) (h : (poolLTS ι).Trace s tr s')
    (hc : ¬ Caught tr) (hm : s'.main = .join) : s'.Dozing := by
  induction h with
  | refl => exact absurd hm hj
  | @snoc tr t u l h hl ih =>
    have hdown := leftDown_invariant.reachable (h.reachable r)
    have hc' : ¬ Caught tr := by
      rintro ⟨t', l', hm', hrest⟩
      exact hc ⟨t', l', List.mem_append_left _ hm', hrest⟩
    -- a `notify_all` of this step found somebody at `park`
    have hpark : l.notifiesAll → t.server_alive = false → ∃ w, t.workers w = .park := by
      intro hn ha
      by_contra hno
      exact hc ⟨t, l, by simp, hn, ha, not_exists.mp hno⟩
    cases l with
    | main a =>
      cases mainStep_move hl with
      | notifyAll hmain =>
        obtain ⟨w, hw⟩ := hpark trivial (hdown (.inl hmain))
        exact Dozing.wakeAll hw
      | loop hmain | again hmain => cases ha : t.server_alive <;> simp [ha] at hm
      | _ => cases hm
    | worker w a =>
      obtain ⟨-, hmain, -⟩ := workerStep_sleep hl
      exact (ih hc' (hmain ▸ hm)).worker hl
    | signal a =>
      rcases signalStep_cases hl with ⟨rfl, rfl⟩ | ⟨rfl, rfl⟩ | ⟨rfl, rfl⟩
      · exact ih hc' hm
      · obtain ⟨w, hw⟩ := hpark trivial (hdown (.inr hm))
        exact Dozing.wakeAll hw
      · exact ih hc' hm
    | kill a =>
      rcases killStep_cases hl with ⟨rfl, rfl⟩ | ⟨rfl, rfl⟩ <;> exact ih hc' hm

end Pool

/-- A run has issued all its notifications. No state from there on has a
worker asleep exactly when some `notify_all` behind the store found no worker
between its test and its sleep. -/
theorem shutdown_wakes_iff {ι : Type} [DecidableEq ι] [Fintype ι] {s : Pool ι}
    {tr : List (Pool ι × PoolAct ι)} (h : (poolLTS ι).Trace .init tr s) (hq : s.Quiesced) :
    (∀ tr' t, (poolLTS ι).Trace s tr' t → t.Quiesced → ∀ w, t.workers w ≠ .asleep) ↔
      Pool.Caught tr := by
  constructor
  · intro hall
    by_contra hc
    obtain ⟨w, hw⟩ := Pool.dozing_of_not_caught (.init rfl) (by simp [Pool.init]) h hc hq.main
    rcases hw with hw | hw
    · -- it goes to sleep, and nothing else changes
      have hstep : (poolLTS ι).step s (.worker w .park)
          { s.at_ w .asleep with queue_mutex := none } := by
        simp [poolLTS, Pool.step, Pool.workerStep, hw]
      refine hall _ _ (.snoc .refl hstep) ⟨hq.dead, hq.main, hq.signal⟩ w ?_
      simp [Pool.at_]
    · exact hall [] s .refl hq w hw
  · intro hc tr' t ht _ w
    have hcaught : Pool.Caught (tr ++ tr') := by
      obtain ⟨u, l, hm, hrest⟩ := hc
      exact ⟨u, l, List.mem_append_left _ hm, hrest⟩
    exact (Pool.awake_of_caught (h.trans ht) hcaught).asleep w

/-- Worker 0 goes to sleep before a signal stops the server. -/
def sleepRun : List (PoolAct (Fin POOL_SIZE)) :=
  [.worker firstWorker .loop, .worker firstWorker .lock, .worker firstWorker .test, .worker firstWorker .park,
   .signal .store, .signal .notify, .signal .shut, .main .loop]

theorem shutdown_wakes_iff_sleepRun :
    ∃ s tr, (poolLTS (Fin POOL_SIZE)).Trace .init tr s ∧ s.Quiesced ∧
      ∀ tr' t, (poolLTS (Fin POOL_SIZE)).Trace s tr' t → t.Quiesced → ∀ w, t.workers w ≠ .asleep := by
  have hrun : (sleepRun.foldlM Pool.step Pool.init).map
      (fun s => (s.server_alive, s.main, s.signal, decide (∀ w, s.workers w ≠ .park))) =
      some (false, .leave, .idle, true) := by decide
  obtain ⟨s, hs, he⟩ := Option.map_eq_some_iff.mp hrun
  simp only [Prod.mk.injEq, decide_eq_true_eq] at he
  obtain ⟨ha, hm, hsig, hp⟩ := he
  obtain ⟨tr, htr⟩ := LTS.Trace.foldlM (M := poolLTS (Fin POOL_SIZE)) (fun _ _ _ h => h) hs
  have hstep : (poolLTS (Fin POOL_SIZE)).step s (.main .notifyAll) { s.wakeAll with main := .join } := by
    simp [poolLTS, Pool.step, Pool.mainStep, hm]
  have hq : Pool.Quiesced { s.wakeAll with main := .join } := by
    refine ⟨ha, rfl, ?_⟩
    show s.signal ≠ .notify
    simp [hsig]
  exact ⟨_, _, .snoc htr hstep, hq,
    (shutdown_wakes_iff (.snoc htr hstep) hq).mpr ⟨s, .main .notifyAll, by simp, trivial, ha, hp⟩⟩

/-- It is between its test and its sleep when the notifications are issued. -/
def lostRun : List (PoolAct (Fin POOL_SIZE)) :=
  [.worker firstWorker .loop, .worker firstWorker .lock, .worker firstWorker .test, .signal .store,
   .signal .notify, .signal .shut, .main .loop, .main .notifyAll, .worker firstWorker .park]

theorem shutdown_misses_worker :
    ∃ s, (poolLTS (Fin POOL_SIZE)).Reachable s ∧ s.Quiesced ∧ s.workers 0 = .asleep := by
  have hrun : (lostRun.foldlM Pool.step Pool.init).map
      (fun s => (s.server_alive, s.main, s.signal, s.workers 0)) =
      some (false, .join, .idle, .asleep) := by decide
  obtain ⟨s, hs, he⟩ := Option.map_eq_some_iff.mp hrun
  simp only [Prod.mk.injEq] at he
  obtain ⟨ha, hm, hsig, hw⟩ := he
  have hr : (poolLTS (Fin POOL_SIZE)).Reachable s := .foldlM (fun _ _ _ h => h) (.init rfl) hs
  exact ⟨s, hr, ⟨ha, hm, by simp [hsig]⟩, hw⟩

end Mefsc.L5
