import Mathlib.Algebra.Group.Action.Defs
import Mathlib.Algebra.Order.BigOperators.Group.Finset
import Mefsc.L5Concurrency.Dispatch
import Mefsc.L5Concurrency.Shutdown

/-!
# When the workers can be joined

`clean_all` (`src/server/server.cpp:62-78`) joins the workers. Once the server is down
they have few steps left, whatever they are doing: a session that goes on is served to
its end, nobody takes a new connection but the one who is past the check, and the
queue is left as it is. `workers_exit_iff`: when they have come to rest, all of them
have returned, exactly when some `notify_all` found nobody between the test and the
sleep.
-/
namespace Mefsc.L5

variable {ι : Type}

/-- The steps to the end of `worker`, with the server down. -/
def WorkerPc.left : WorkerPc → Nat
  | .pop => 11
  | pc => pc.togo

theorem WorkerPc.left_le (pc : WorkerPc) : pc.left ≤ 11 := by
  cases pc with
  | handle c ph => cases ph <;> simp [left, togo, Phase.togo]
  | _ => simp [left, togo]

namespace Pool

variable [DecidableEq ι] [Fintype ι] {s s' t : Pool ι}

def left (s : Pool ι) : Nat := ∑ w, (s.workers w).left

omit [DecidableEq ι] in
theorem left_le (s : Pool ι) : s.left ≤ 11 * Fintype.card ι := by
  have hsum := Finset.sum_le_card_nsmul Finset.univ (fun w => (s.workers w).left) 11
    fun w _ => (s.workers w).left_le
  rw [smul_eq_mul, Finset.card_univ, Nat.mul_comm] at hsum
  exact hsum

theorem left_at {w : ι} {pc : WorkerPc} (hw : s'.workers = (s.at_ w pc).workers)
    (hlt : pc.left < (s.workers w).left) : s'.left < s.left := by
  have hsum := sum_update WorkerPc.left s.workers w pc
  unfold left
  rw [hw]
  show (∑ v, (Function.update s.workers w pc v).left) < _
  omega

/-- Down, the workers only go on to the end. -/
theorem left_worker (ha : s.server_alive = false) {w : ι} {a : WorkerAct} (hs : s.workerStep w a = some s') :
    s'.left < s.left := by
  cases workerStep_move hs with
  | loop hw => exact left_at rfl (by simp [hw, ha, WorkerPc.left, WorkerPc.togo])
  | test hw => exact left_at rfl (by simp [hw, ha, WorkerPc.left, WorkerPc.togo])
  | check hw hup =>
    rw [ha] at hup
    cases hup
  | verify c ok hw =>
    refine left_at rfl ?_
    cases ok <;> simp [hw, WorkerPc.left, WorkerPc.togo, Phase.togo]
  | lock hw | park hw | exit hw | pop c cs hw | crypt c hw | cryptFails c hw | refuse c hw | session c hw | erase c hw
  | close c hw | uncount c hw => exact left_at rfl (by simp [hw, WorkerPc.left, WorkerPc.togo, Phase.togo])

omit [DecidableEq ι] in
theorem left_wakeAll (s : Pool ι) : s.wakeAll.left = s.left := by
  refine Finset.sum_congr rfl fun w _ => ?_
  by_cases hw : s.workers w = .asleep
  · simp [wakeAll, hw, WorkerPc.left, WorkerPc.togo]
  · simp [wakeAll, hw]

/-- The server stays down. -/
theorem left_step (ha : s.server_alive = false) {a : PoolAct ι} (hs : s.step a = some s') :
    s'.server_alive = false ∧ s'.left ≤ s.left ∧ (a.ofWorker → s'.left < s.left) := by
  cases a with
  | worker w a =>
    have hlt := left_worker ha hs
    exact ⟨(workerStep_sleep hs).1.trans ha, hlt.le, fun _ => hlt⟩
  | main a =>
    suffices hm : s'.server_alive = false ∧ s'.left ≤ s.left from ⟨hm.1, hm.2, fun h => h.elim⟩
    cases mainStep_move hs with
    | notifyOne c w hm hw =>
      have hsum := sum_update WorkerPc.left s.workers w .lock
      rw [hw] at hsum
      exact ⟨ha, (Nat.add_right_cancel hsum).le⟩
    | notifyAll hm => exact ⟨ha, (left_wakeAll s).le⟩
    | _ => exact ⟨ha, Nat.le_refl _⟩
  | signal a =>
    suffices hm : s'.server_alive = false ∧ s'.left ≤ s.left from ⟨hm.1, hm.2, fun h => h.elim⟩
    rcases signalStep_cases hs with ⟨-, rfl⟩ | ⟨-, rfl⟩ | ⟨-, rfl⟩
    · exact ⟨rfl, Nat.le_refl _⟩
    · exact ⟨ha, (left_wakeAll s).le⟩
    · exact ⟨ha, Nat.le_refl _⟩
  | kill a =>
    suffices hm : s'.server_alive = false ∧ s'.left ≤ s.left from ⟨hm.1, hm.2, fun h => h.elim⟩
    rcases killStep_cases hs with ⟨-, rfl⟩ | ⟨-, rfl⟩
    · exact ⟨rfl, Nat.le_refl _⟩
    · exact ⟨ha, Nat.le_refl _⟩

/-- Nobody can move: nobody has the mutex, and nobody waits for it. -/
theorem Attended.at_rest (h : s.Attended) (ha : s.server_alive = false)
    (hno : ¬ (poolLTS ι).Enabled PoolAct.ofWorker s) (w : ι) : s.workers w = .exited ∨ s.workers w = .asleep := by
  have hnone : ∀ v a, s.workerStep v a = none := by
    intro v a
    cases hs : s.workerStep v a with
    | none => rfl
    | some s' => exact absurd ⟨.worker v a, s', trivial, hs⟩ hno
  have hout : ∀ v, (s.workers v).inside = false := by
    intro v
    cases hpc : s.workers v with
    | test =>
      have := hnone v .test
      simp [workerStep, hpc] at this
    | park =>
      have := hnone v .park
      simp [workerStep, hpc] at this
    | check =>
      have := hnone v .check
      simp [workerStep, hpc, ha] at this
    | pop =>
      have hfits := h.fits v
      rw [hpc] at hfits
      obtain ⟨c, cs, hcs⟩ := List.exists_cons_of_ne_nil hfits
      have := hnone v .pop
      simp [workerStep, hpc, hcs] at this
    | _ => rfl
  have hfree : s.queue_mutex = none := by
    cases hm : s.queue_mutex with
    | none => rfl
    | some v =>
      have hin := (h.holder v).mpr hm
      rw [hout v] at hin
      cases hin
  cases hpc : s.workers w with
  | exited => exact .inl rfl
  | asleep => exact .inr rfl
  | loop =>
    have := hnone w .loop
    simp [workerStep, hpc] at this
  | lock =>
    have := hnone w .lock
    simp [workerStep, hpc, hfree] at this
  | handle c ph =>
    cases ph with
    | crypt => simpa [workerStep, hpc] using hnone w (.crypt true)
    | verify => simpa [workerStep, hpc] using hnone w (.verify true)
    | refuse => simpa [workerStep, hpc] using hnone w .refuse
    | session => simpa [workerStep, hpc] using hnone w .session
    | erase => simpa [workerStep, hpc] using hnone w .erase
    | close => simpa [workerStep, hpc] using hnone w .close
    | uncount => simpa [workerStep, hpc] using hnone w .uncount
  | test | park | check | pop =>
    have := hout w
    simp [hpc, WorkerPc.inside] at this

end Pool

/-- All notifications are out. The workers take few more steps, in every continuation;
and when they cannot move any more they have all returned, exactly when some
`notify_all` behind the store found no worker between its test and its sleep. -/
theorem workers_exit_iff {ι : Type} [DecidableEq ι] [Fintype ι] {s : Pool ι} {tr : List (Pool ι × PoolAct ι)}
    (h : (poolLTS ι).Trace .init tr s) (hq : s.Quiesced) :
    (∀ tr' t, (poolLTS ι).Trace s tr' t → tr'.countP (fun x => x.2.ofWorker) ≤ 11 * Fintype.card ι) ∧
      ((∀ tr' t, (poolLTS ι).Trace s tr' t → ¬ (poolLTS ι).Enabled PoolAct.ofWorker t →
        ∀ w, t.workers w = .exited) ↔ Pool.Caught tr) := by
  have hr := h.reachable (.init rfl)
  have hrank : ∀ {tr' t}, (poolLTS ι).Trace s tr' t →
      t.server_alive = false ∧ tr'.countP (fun x => x.2.ofWorker) + t.left ≤ s.left := by
    intro tr' t ht
    have hstep : ∀ u l u', u.server_alive = false → (poolLTS ι).step u l u' →
        u'.server_alive = false ∧ u'.left + (if l.ofWorker then 1 else 0) ≤ u.left + 0 := by
      intro u l u' ha hs
      obtain ⟨hd, hle, hlt⟩ := Pool.left_step ha hs
      refine ⟨hd, ?_⟩
      split
      · exact hlt ‹_›
      · exact hle
    simpa using ht.count_le hstep hq.dead
  refine ⟨fun tr' t ht => ?_, ?_, ?_⟩
  · have hle := (hrank ht).2
    have hmax := s.left_le
    omega
  · intro hall
    by_contra hc
    -- the one who was missed sleeps on while the others come to rest
    have hdoze := Pool.dozing_of_not_caught (.init rfl) (by simp [Pool.init]) h hc hq.main
    obtain ⟨tr', t, ht, ⟨-, w, hw⟩, hno⟩ := LTS.exists_not_enabled (M := poolLTS ι)
      (I := fun s => s.server_alive = false ∧ s.Dozing) (A := PoolAct.ofWorker) (μ := Pool.left)
      (by
        rintro u l u' ⟨ha, hd⟩ hs hl
        cases l with
        | worker v a => exact ⟨⟨(Pool.left_step ha hs).1, hd.worker hs⟩, (Pool.left_step ha hs).2.2 hl⟩
        | _ => exact hl.elim) ⟨hq.dead, hdoze⟩
    have hexit := hall tr' t ht hno w
    rcases hw with hw | hw <;> simp [hexit] at hw
  · intro hc tr' t ht hno w
    have hcaught : Pool.Caught (tr ++ tr') := by
      obtain ⟨u, l, hm, hrest⟩ := hc
      exact ⟨u, l, List.mem_append_left _ hm, hrest⟩
    have hawake := Pool.awake_of_caught (h.trans ht) hcaught
    have hatt := Pool.attended_invariant.reachable (ht.reachable hr)
    exact (hatt.at_rest hawake.dead hno w).resolve_right (hawake.asleep w)

/-- Worker 0 is woken by the signal handler; the others have not looked at the queue
yet. -/
theorem workers_exit_iff_sleepRun :
    ∃ s tr, (poolLTS (Fin POOL_SIZE)).Trace .init tr s ∧ s.Quiesced ∧
      (∀ tr' t, (poolLTS (Fin POOL_SIZE)).Trace s tr' t → tr'.countP (fun x => x.2.ofWorker) ≤ 88) ∧
      ∀ tr' t, (poolLTS (Fin POOL_SIZE)).Trace s tr' t →
        ¬ (poolLTS (Fin POOL_SIZE)).Enabled PoolAct.ofWorker t → ∀ w, t.workers w = .exited := by
  have hrun : (sleepRun.foldlM Pool.step Pool.init).map
      (fun s => (s.server_alive, s.main, s.signal, decide (∀ w, s.workers w ≠ .park))) =
      some (false, .leave, .idle, true) := by decide
  obtain ⟨s, hs, he⟩ := Option.map_eq_some_iff.mp hrun
  simp only [Prod.mk.injEq, decide_eq_true_eq] at he
  obtain ⟨ha, hm, hsig, hp⟩ := he
  obtain ⟨tr, htr⟩ := LTS.Trace.foldlM (M := poolLTS (Fin POOL_SIZE)) (fun _ _ _ h => h) hs
  have hstep : (poolLTS (Fin POOL_SIZE)).step s (.main .notifyAll) { s.wakeAll with main := .join } := by
    simp [poolLTS, Pool.step, Pool.mainStep, hm]
  have hq : Pool.Quiesced { s.wakeAll with main := .join } := by
    refine ⟨ha, rfl, ?_⟩
    show s.signal ≠ .notify
    simp [hsig]
  obtain ⟨hbound, hexit⟩ := workers_exit_iff (.snoc htr hstep) hq
  exact ⟨_, _, .snoc htr hstep, hq, hbound, hexit.mpr ⟨s, .main .notifyAll, by simp, trivial, ha, hp⟩⟩

end Mefsc.L5
