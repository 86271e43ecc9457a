import Mathlib.Data.List.Sort
import Mefsc.Core.Fair
import Mefsc.L5Concurrency.Registry

/-!
# From the accept loop to a worker

`main` pushes a connection under `queue_mutex` and calls `notify_one` after it has let
go of the mutex (`src/server/server.cpp:305-309`), so a worker may fall asleep, or wake
and find the queue empty, in between.

* `handed_in_order`: the workers take the connections in the order in which they were
  accepted, each one once.
* `no_call_lost`: while a worker sleeps, the queue is no longer than the number of
  workers that are on their way to it, the pending `notify_one` counted.
* `queued_taken`: in a run in which the server stays up and the threads go on, a
  connection in the queue is taken by a worker. The threads go on when a worker moves
  once one of them can, and `main` does not stop in front of `notify_one`. A session
  that never ends is a worker that stands still; `SO_RCVTIMEO` and `SO_SNDTIMEO` are
  there against it.

The workers do not all have to move: it is enough that one of them does.
-/
namespace Mefsc.L5

variable {ι : Type}

/-- `queue_mutex` is held. -/
def WorkerPc.inside : WorkerPc → Bool
  | .test | .park | .check | .pop => true
  | _ => false

/-- On its way to the queue. -/
def WorkerPc.coming : WorkerPc → Nat
  | .loop | .lock | .test | .check | .pop => 1
  | _ => 0

/-- `notify_one` is pending. -/
def MainPc.calls : MainPc → Nat
  | .notify _ => 1
  | _ => 0

/-- What a worker knows about the queue. -/
def WorkerPc.Fits (alive : Bool) (queue : List Conn) : WorkerPc → Prop
  | .park => queue = []
  | .check => queue ≠ [] ∨ alive = false
  | .pop => queue ≠ []
  | .exited => alive = false
  | _ => True

namespace Pool

def coming [Fintype ι] (s : Pool ι) : Nat := ∑ w, (s.workers w).coming

structure Attended [Fintype ι] (s : Pool ι) : Prop where
  holder : ∀ w, (s.workers w).inside = true ↔ s.queue_mutex = some w
  fits : ∀ w, (s.workers w).Fits s.server_alive s.client_queue
  enough : s.server_alive = true → (∃ w, s.workers w = .asleep) →
    s.client_queue.length ≤ s.coming + s.main.calls

/-- The mutex excludes everybody who looks at the queue. -/
theorem fits_of_outside {alive : Bool} {queue queue' : List Conn} {pc : WorkerPc} (h : pc.inside = false)
    (hf : pc.Fits alive queue) : pc.Fits alive queue' := by
  cases pc with
  | test | park | check | pop => cases h
  | _ => exact hf

theorem fits_down {alive : Bool} {queue : List Conn} {pc : WorkerPc} (hf : pc.Fits alive queue) :
    pc.Fits false queue := by
  cases pc with
  | check => exact .inr rfl
  | exited => rfl
  | _ => exact hf

section
variable [DecidableEq ι] [Fintype ι] {s s' : Pool ι}

theorem coming_at (s : Pool ι) (w : ι) (pc : WorkerPc) :
    (s.at_ w pc).coming + (s.workers w).coming = s.coming + pc.coming :=
  sum_update WorkerPc.coming s.workers w pc

omit [DecidableEq ι] in
theorem Attended.outside (h : s.Attended) {w v : ι} (hw : (s.workers w).inside = true) (hv : v ≠ w) :
    (s.workers v).inside = false := by
  rw [← Bool.not_eq_true]
  intro hin
  have hv' := (h.holder v).mp hin
  rw [(h.holder w).mp hw] at hv'
  exact hv (Option.some.inj hv').symm

/-- A worker that neither takes the mutex nor leaves it. -/
theorem Attended.move (h : s.Attended) {w : ι} {pc : WorkerPc} (hin : pc.inside = (s.workers w).inside)
    (hf : pc.Fits s.server_alive s.client_queue)
    (hc : s.server_alive = true → (s.workers w).coming ≤ pc.coming ∨ s.client_queue = []) (hpc : pc ≠ .asleep) :
    (s.at_ w pc).Attended where
  holder v := by
    by_cases hv : v = w
    · subst hv
      simpa [at_, hin] using h.holder v
    · simpa [at_, hv] using h.holder v
  fits v := by
    by_cases hv : v = w
    · subst hv
      simpa [at_] using hf
    · simpa [at_, hv] using h.fits v
  enough ha hs := by
    have hcoming := coming_at s w pc
    rcases hc ha with hle | hnil
    · obtain ⟨v, hv⟩ := hs
      have hvw : v ≠ w := by
        rintro rfl
        simp [at_, hpc] at hv
      have hlen := h.enough ha ⟨v, by simpa [at_, hvw] using hv⟩
      show s.client_queue.length ≤ (s.at_ w pc).coming + s.main.calls
      omega
    · show s.client_queue.length ≤ _
      rw [hnil]
      exact Nat.zero_le _

/-- A worker that leaves the mutex. -/
theorem Attended.release (h : s.Attended) {w : ι} {pc : WorkerPc} {q : List Conn} (hw : (s.workers w).inside = true)
    (hin : pc.inside = false) (hf : pc.Fits s.server_alive q)
    (hq : s.server_alive = true → q = [] ∨ (pc ≠ .asleep ∧
      q.length + (s.workers w).coming ≤ s.client_queue.length + pc.coming)) :
    Attended { s.at_ w pc with client_queue := q, queue_mutex := none } where
  holder v := by
    by_cases hv : v = w
    · subst hv
      simp [at_, hin]
    · simp [at_, hv, h.outside hw hv]
  fits v := by
    by_cases hv : v = w
    · subst hv
      simpa [at_] using hf
    · have hout : (s.workers v).Fits s.server_alive q := fits_of_outside (h.outside hw hv) (h.fits v)
      simpa [at_, hv] using hout
  enough ha hs := by
    have hcoming := coming_at s w pc
    show q.length ≤ (s.at_ w pc).coming + s.main.calls
    rcases hq ha with rfl | ⟨hpc, hle⟩
    · exact Nat.zero_le _
    · obtain ⟨v, hv⟩ := hs
      have hvw : v ≠ w := by
        rintro rfl
        simp [at_, hpc] at hv
      have hlen := h.enough ha ⟨v, by simpa [at_, hvw] using hv⟩
      omega

theorem Attended.lock (h : s.Attended) {w : ι} (hw : s.workers w = .lock) (hq : s.queue_mutex = none) :
    Attended { s.at_ w .test with queue_mutex := some w } where
  holder v := by
    by_cases hv : v = w
    · subst hv
      simp [at_, WorkerPc.inside]
    · have hout : (s.workers v).inside = false := by
        rw [← Bool.not_eq_true, h.holder v, hq]
        simp
      simp [at_, hv, hout, Ne.symm hv]
  fits v := by
    by_cases hv : v = w
    · subst hv
      simp [at_, WorkerPc.Fits]
    · simpa [at_, hv] using h.fits v
  enough ha hs := by
    have hcoming := coming_at s w .test
    rw [hw] at hcoming
    obtain ⟨v, hv⟩ := hs
    have hvw : v ≠ w := by
      rintro rfl
      simp [at_] at hv
    have hlen := h.enough ha ⟨v, by simpa [at_, hvw] using hv⟩
    show s.client_queue.length ≤ (s.at_ w .test).coming + s.main.calls
    simp only [WorkerPc.coming] at hcoming
    omega

/-- `handle_conn` goes on. -/
theorem Attended.handling (h : s.Attended) {w : ι} {c : Conn} {ph ph' : Phase} (hw : s.workers w = .handle c ph) :
    (s.at_ w (.handle c ph')).Attended :=
  h.move (by simp [hw, WorkerPc.inside]) trivial (fun _ => .inl (by simp [hw, WorkerPc.coming])) (by simp)

theorem Attended.handled (h : s.Attended) {w : ι} {c : Conn} {ph : Phase} (hw : s.workers w = .handle c ph) :
    (s.at_ w .loop).Attended :=
  h.move (by simp [hw, WorkerPc.inside]) trivial (fun _ => .inl (by simp [hw, WorkerPc.coming])) (by simp)

theorem Attended.worker (h : s.Attended) {w : ι} {a : WorkerAct} (hs : s.workerStep w a = some s') :
    s'.Attended := by
  have hfits := h.fits w
  cases workerStep_move hs with
  | loop hw =>
    cases ha : s.server_alive with
    | true =>
      exact h.move (by simp [hw, WorkerPc.inside]) trivial (fun _ => .inl (by simp [hw, WorkerPc.coming])) (by simp)
    | false => exact h.move (by simp [hw, WorkerPc.inside]) ha (fun ht => by simp [ha] at ht) (by simp)
  | lock hw hq => exact h.lock hw hq
  | test hw =>
    by_cases hp : s.client_queue ≠ [] ∨ s.server_alive = false
    · rw [if_pos hp]
      exact h.move (by simp [hw, WorkerPc.inside]) hp (fun _ => .inl (by simp [hw, WorkerPc.coming])) (by simp)
    · rw [if_neg hp]
      have hnil : s.client_queue = [] := by
        simp only [not_or, not_not] at hp
        exact hp.1
      exact h.move (by simp [hw, WorkerPc.inside]) hnil (fun _ => .inr hnil) (by simp)
  | park hw =>
    rw [hw] at hfits
    exact h.release (by simp [hw, WorkerPc.inside]) rfl trivial (fun _ => .inl hfits)
  | check hw ha =>
    rw [hw] at hfits
    have hne : s.client_queue ≠ [] := hfits.resolve_right (by simp [ha])
    exact h.move (by simp [hw, WorkerPc.inside]) hne (fun _ => .inl (by simp [hw, WorkerPc.coming])) (by simp)
  | exit hw ha =>
    exact h.release (by simp [hw, WorkerPc.inside]) rfl ha (fun ht => by simp [ha] at ht)
  | pop c cs hw hq =>
    refine h.release (by simp [hw, WorkerPc.inside]) rfl trivial fun _ => .inr ⟨by simp, ?_⟩
    simp [hw, hq, WorkerPc.coming]
  | crypt c hw => exact h.handling hw
  | verify c ok hw => exact h.handling hw
  | session c hw => exact h.handling hw
  | erase c hw => exact ⟨(h.handling hw).holder, (h.handling hw).fits, (h.handling hw).enough⟩
  | close c hw => exact ⟨(h.handling hw).holder, (h.handling hw).fits, (h.handling hw).enough⟩
  | cryptFails c hw | refuse c hw | uncount c hw =>
    have hm := h.handled hw
    exact ⟨hm.holder, hm.fits, hm.enough⟩

omit [DecidableEq ι] in
theorem Attended.wakeAll (h : s.Attended) : s.wakeAll.Attended where
  holder v := by
    by_cases hv : s.workers v = .asleep
    · have hlock := h.holder v
      rw [hv] at hlock
      simpa [Pool.wakeAll, hv, WorkerPc.inside] using hlock
    · simpa [Pool.wakeAll, hv] using h.holder v
  fits v := by
    by_cases hv : s.workers v = .asleep
    · simp [Pool.wakeAll, hv, WorkerPc.Fits]
    · simpa [Pool.wakeAll, hv] using h.fits v
  enough _ hs := by
    obtain ⟨v, hv⟩ := hs
    by_cases hv' : s.workers v = .asleep <;> simp [Pool.wakeAll, hv'] at hv

omit [DecidableEq ι] in
/-- What `main` does besides the queue. -/
theorem Attended.mains (h : s.Attended) (hw : s'.workers = s.workers) (hm : s'.queue_mutex = s.queue_mutex)
    (hq : s'.client_queue = s.client_queue) (ha : s'.server_alive = s.server_alive)
    (hc : s.main.calls ≤ s'.main.calls) : s'.Attended where
  holder v := by
    rw [hw, hm]
    exact h.holder v
  fits v := by
    rw [hw, hq, ha]
    exact h.fits v
  enough ht hs := by
    rw [ha] at ht
    rw [hw] at hs
    have hlen := h.enough ht hs
    unfold coming at hlen ⊢
    rw [hq, hw]
    omega

omit [DecidableEq ι] in
theorem Attended.push (h : s.Attended) {c : Conn} (hm : s.main = .push c) (hq : s.queue_mutex = none) :
    Attended { s with client_queue := s.client_queue ++ [c], main := .notify c } where
  holder := h.holder
  fits v := by
    have hout : (s.workers v).inside = false := by
      rw [← Bool.not_eq_true, h.holder v, hq]
      simp
    exact fits_of_outside hout (h.fits v)
  enough ha hs := by
    have hlen := h.enough ha hs
    simp only [hm, MainPc.calls] at hlen
    rw [List.length_append]
    exact Nat.add_le_add_right hlen 1

theorem Attended.notifyOne (h : s.Attended) {c : Conn} {w : ι} (hm : s.main = .notify c)
    (hw : s.workers w = .asleep) : Attended { s.at_ w .lock with main := .countTotal c } where
  holder v := by
    by_cases hv : v = w
    · subst hv
      have hlock := h.holder v
      rw [hw] at hlock
      simpa [at_, WorkerPc.inside] using hlock
    · simpa [at_, hv] using h.holder v
  fits v := by
    by_cases hv : v = w
    · subst hv
      simp [at_, WorkerPc.Fits]
    · simpa [at_, hv] using h.fits v
  enough ha _ := by
    have hcoming := coming_at s w .lock
    have hlen := h.enough ha ⟨w, hw⟩
    simp only [hw, hm, WorkerPc.coming, MainPc.calls] at hcoming hlen
    show s.client_queue.length ≤ (s.at_ w .lock).coming + 0
    omega

/-- `notify_one` wakes somebody when somebody sleeps. -/
theorem notifyNone_awake (hs : s.mainStep (.notifyOne none) = some s') (w : ι) :
    s.workers w ≠ .asleep := by
  simp only [mainStep] at hs
  split at hs
  · split at hs
    · exact ‹∀ w, s.workers w ≠ .asleep› w
    · cases hs
  · cases hs

theorem Attended.main (h : s.Attended) {a : MainAct ι} (hs : s.mainStep a = some s') : s'.Attended := by
  cases mainStep_move hs with
  | push c hm hq => exact h.push hm hq
  | notifyNone c hm =>
    refine ⟨h.holder, h.fits, fun _ hs' => ?_⟩
    obtain ⟨w, hw⟩ := hs'
    exact absurd hw (notifyNone_awake hs w)
  | notifyOne c w hm hw => exact h.notifyOne hm hw
  | notifyAll hm =>
    have hw := h.wakeAll
    exact hw.mains rfl rfl rfl rfl (by simp [Pool.wakeAll, hm, MainPc.calls])
  | loop hm | acceptFails hm | accept fd hm | again hm | check c hm | stop c hm | timeout c hm | timeoutFails c hm
  | register c hm | countTotal c hm | countLive c hm =>
    exact h.mains rfl rfl rfl rfl (by simp [hm, MainPc.calls])

omit [DecidableEq ι] in
theorem Attended.down (h : s.Attended) (hw : s'.workers = s.workers) (hm : s'.queue_mutex = s.queue_mutex)
    (hq : s'.client_queue = s.client_queue) (ha : s'.server_alive = false) : s'.Attended where
  holder v := by
    rw [hw, hm]
    exact h.holder v
  fits v := by
    rw [hw, hq, ha]
    exact fits_down (h.fits v)
  enough ht _ := by
    rw [ha] at ht
    cases ht

theorem attended_invariant : (poolLTS ι).Invariant Attended where
  init s hs := by
    obtain rfl := hs
    exact ⟨fun w => by simp [init, WorkerPc.inside], fun w => trivial, fun _ _ => Nat.zero_le _⟩
  step s a s' h hs := by
    cases a with
    | main a => exact h.main hs
    | worker w a => exact h.worker hs
    | signal a =>
      rcases signalStep_cases hs with ⟨-, rfl⟩ | ⟨-, rfl⟩ | ⟨-, rfl⟩
      · exact h.down rfl rfl rfl rfl
      · exact h.wakeAll.mains rfl rfl rfl rfl (Nat.le_refl _)
      · exact h.mains rfl rfl rfl rfl (Nat.le_refl _)
    | kill a =>
      rcases killStep_cases hs with ⟨-, rfl⟩ | ⟨-, rfl⟩
      · exact h.down rfl rfl rfl rfl
      · exact h.mains rfl rfl rfl rfl (Nat.le_refl _)

end

end Pool

/-! ## In order -/

/-- The connection this step of a run pushes. -/
def handedIn (x : Pool ι × PoolAct ι) : Option Conn :=
  match x.2, x.1.main with
  | .main .push, .push c => some c
  | _, _ => none

/-- The connection it takes, and the worker. -/
def takenOut (x : Pool ι × PoolAct ι) : Option (ι × Conn) :=
  match x.2, x.1.client_queue with
  | .worker w .pop, c :: _ => some (w, c)
  | _, _ => none

/-- A run up to `s`. The numbers are given out in the order of the accepts, and `main`
has the newest. -/
structure InLine (tr : List (Pool ι × PoolAct ι)) (s : Pool ι) : Prop where
  line : (tr.filterMap takenOut).map Prod.snd ++ s.client_queue = tr.filterMap handedIn
  sorted : (tr.filterMap handedIn).Pairwise fun c d => c.id < d.id
  older : ∀ c ∈ tr.filterMap handedIn, ∀ d, s.main.grip.item = some d → c.id < d.id
  given : ∀ c ∈ tr.filterMap handedIn, c.id < s.next
  hand : ∀ d, s.main.grip.item = some d → d.id < s.next

section
variable [DecidableEq ι] [Fintype ι] {s s' : Pool ι} {tr : List (Pool ι × PoolAct ι)}

omit [DecidableEq ι] [Fintype ι] in
/-- A step that leaves the queue alone. -/
theorem InLine.pass (h : InLine tr s) {a : PoolAct ι} (hin : handedIn (s, a) = none) (hout : takenOut (s, a) = none)
    (hq : s'.client_queue = s.client_queue) (hnext : s.next ≤ s'.next)
    (hm : ∀ d, s'.main.grip.item = some d → s.main.grip.item = some d ∨ (s.next ≤ d.id ∧ d.id < s'.next)) :
    InLine (tr ++ [(s, a)]) s' := by
  have h1 : (tr ++ [(s, a)]).filterMap handedIn = tr.filterMap handedIn := by simp [hin]
  have h2 : (tr ++ [(s, a)]).filterMap takenOut = tr.filterMap takenOut := by simp [hout]
  refine ⟨?_, ?_, ?_, ?_, ?_⟩
  · rw [h1, h2, hq]
    exact h.line
  · rw [h1]
    exact h.sorted
  · rw [h1]
    intro c hc d hd
    rcases hm d hd with hold | ⟨hnew, -⟩
    · exact h.older c hc d hold
    · exact (h.given c hc).trans_le hnew
  · rw [h1]
    exact fun c hc => (h.given c hc).trans_le hnext
  · intro d hd
    rcases hm d hd with hold | ⟨-, hnew⟩
    · exact (h.hand d hold).trans_le hnext
    · exact hnew

omit [Fintype ι] in
theorem InLine.worker (h : InLine tr s) {w : ι} {a : WorkerAct} (hs : s.workerStep w a = some s') :
    InLine (tr ++ [(s, .worker w a)]) s' := by
  cases Pool.workerStep_move hs with
  | pop c cs hw hq =>
    have h1 : (tr ++ [(s, PoolAct.worker w .pop)]).filterMap handedIn = tr.filterMap handedIn := by simp [handedIn]
    have h2 : (tr ++ [(s, PoolAct.worker w .pop)]).filterMap takenOut = tr.filterMap takenOut ++ [(w, c)] := by
      simp [takenOut, hq]
    refine ⟨?_, ?_, ?_, ?_, h.hand⟩
    · rw [h1, h2, ← h.line, hq]
      simp
    · rw [h1]
      exact h.sorted
    · rw [h1]
      exact h.older
    · rw [h1]
      exact h.given
  | _ => exact h.pass rfl rfl rfl (Nat.le_refl _) fun d hd => .inl hd

theorem InLine.main (h : InLine tr s) {a : MainAct ι} (hs : s.mainStep a = some s') :
    InLine (tr ++ [(s, .main a)]) s' := by
  have hidle : ∀ {t : Pool ι} {b : MainAct ι}, handedIn (s, .main b) = none → t.client_queue = s.client_queue →
      t.next = s.next → (t.main.grip.item = none ∨ t.main.grip.item = s.main.grip.item) →
      InLine (tr ++ [(s, .main b)]) t := by
    intro t b hin hq hnext hm
    refine h.pass hin rfl hq hnext.ge fun d hd => .inl ?_
    rcases hm with hm | hm
    · rw [hm] at hd
      cases hd
    · rwa [← hm]
  cases Pool.mainStep_move hs with
  | push c hm hq =>
    have h1 : (tr ++ [(s, PoolAct.main .push)]).filterMap handedIn = tr.filterMap handedIn ++ [c] := by
      simp [handedIn, hm]
    have h2 : (tr ++ [(s, PoolAct.main .push)]).filterMap takenOut = tr.filterMap takenOut := by simp [takenOut]
    have hc : s.main.grip.item = some c := by rw [hm]; rfl
    refine ⟨?_, ?_, ?_, ?_, ?_⟩
    · rw [h1, h2, ← h.line, List.append_assoc]
    · rw [h1]
      refine List.pairwise_append.mpr ⟨h.sorted, List.pairwise_singleton _ _, fun d hd e he => ?_⟩
      obtain rfl := List.mem_singleton.mp he
      exact h.older d hd e hc
    · intro _ _ d hd
      cases hd
    · rw [h1]
      intro d hd
      rcases List.mem_append.mp hd with hd | hd
      · exact h.given d hd
      · obtain rfl := List.mem_singleton.mp hd
        exact h.hand d hc
    · intro d hd
      cases hd
  | accept fd hm ho =>
    refine h.pass rfl rfl rfl (Nat.le_succ _) fun d hd => .inr ?_
    cases hd
    exact ⟨Nat.le_refl _, Nat.lt_succ_self _⟩
  | loop hm | again hm =>
    refine hidle rfl rfl rfl (.inl ?_)
    cases s.server_alive <;> rfl
  | check c hm | timeout c hm | register c hm =>
    refine hidle rfl rfl rfl (.inr ?_)
    rw [hm]
    rfl
  | _ => exact hidle rfl rfl rfl (.inl rfl)

end

/-- What was taken, in the order of the takes, with what is still in the queue is what
was pushed, and that in the order of the accepts. So nobody is skipped, and nobody is
served by two workers. -/
theorem handed_in_order {ι : Type} [DecidableEq ι] [Fintype ι] {s : Pool ι} {tr : List (Pool ι × PoolAct ι)}
    (h : (poolLTS ι).Trace .init tr s) :
    (tr.filterMap takenOut).map Prod.snd ++ s.client_queue = tr.filterMap handedIn ∧
      (tr.filterMap handedIn).Pairwise fun c d => c.id < d.id := by
  have hline : InLine tr s := by
    induction h with
    | refl => exact ⟨rfl, .nil, (by simp), (by simp), fun d hd => by cases hd⟩
    | @snoc tr t u l _ hl ih =>
      cases l with
      | worker w a => exact ih.worker hl
      | main a => exact ih.main hl
      | signal a =>
        rcases Pool.signalStep_cases hl with ⟨-, rfl⟩ | ⟨-, rfl⟩ | ⟨-, rfl⟩ <;>
          exact ih.pass rfl rfl rfl (Nat.le_refl _) fun d hd => .inl hd
      | kill a =>
        rcases Pool.killStep_cases hl with ⟨-, rfl⟩ | ⟨-, rfl⟩ <;>
          exact ih.pass rfl rfl rfl (Nat.le_refl _) fun d hd => .inl hd
  exact ⟨hline.line, hline.sorted⟩

/-- Two connections are accepted, and the second worker takes the first one. -/
theorem handed_in_order_second :
    ∃ s tr, (poolLTS (Fin POOL_SIZE)).Trace .init tr s ∧ s.workers 1 = .handle ⟨5, 0⟩ .crypt ∧
      s.client_queue = [⟨6, 1⟩] ∧ (tr.filterMap takenOut).map Prod.snd ++ s.client_queue = tr.filterMap handedIn ∧
      (tr.filterMap handedIn).Pairwise fun c d => c.id < d.id := by
  have hrun : ((takeIn 5 ++ takeIn 6 ++ pickUp 1).foldlM Pool.step Pool.init).map
      (fun s => (s.workers 1, s.client_queue)) = some (.handle ⟨5, 0⟩ .crypt, [⟨6, 1⟩]) := by decide +kernel
  obtain ⟨s, hs, he⟩ := Option.map_eq_some_iff.mp hrun
  obtain ⟨h1, h2⟩ := Prod.mk.inj he
  obtain ⟨tr, htr⟩ := LTS.Trace.foldlM (M := poolLTS (Fin POOL_SIZE)) (fun _ _ _ h => h) hs
  exact ⟨s, tr, htr, h1, h2, handed_in_order htr⟩

/-! ## No call is lost -/

theorem no_call_lost {ι : Type} [DecidableEq ι] [Fintype ι] {s : Pool ι} (r : (poolLTS ι).Reachable s)
    (ha : s.server_alive = true) {w : ι} (hw : s.workers w = .asleep) :
    s.client_queue.length ≤ s.coming + s.main.calls :=
  (Pool.attended_invariant.reachable r).enough ha ⟨w, hw⟩

/-- Worker `w` finds the queue empty and goes to sleep. -/
def nap (w : Fin POOL_SIZE) : List (PoolAct (Fin POOL_SIZE)) :=
  [.worker w .lock, .worker w .test, .worker w .park]

/-- Everybody sleeps, and a connection is pushed. -/
def napRun : List (PoolAct (Fin POOL_SIZE)) :=
  ((List.finRange POOL_SIZE).flatMap fun w => .worker w .loop :: nap w) ++
    [.main .loop, .main (.accept (some 5)), .main .check, .main (.timeout true), .main .register, .main .push]

/-- What `napRun` leads to, and how it goes on. -/
structure Napping (s : Pool (Fin POOL_SIZE)) : Prop where
  alive : s.server_alive = true
  asleep : ∀ w, s.workers w = .asleep
  main : s.main = .notify ⟨5, 0⟩
  queue : s.client_queue = [⟨5, 0⟩]

theorem exists_napping : ∃ s, napRun.foldlM Pool.step Pool.init = some s ∧ Napping s := by
  have hrun : (napRun.foldlM Pool.step Pool.init).map
      (fun s => (s.server_alive, decide (∀ w, s.workers w = .asleep), s.main, s.client_queue)) =
      some (true, true, .notify ⟨5, 0⟩, [⟨5, 0⟩]) := by decide +kernel
  obtain ⟨s, hs, he⟩ := Option.map_eq_some_iff.mp hrun
  simp only [Prod.mk.injEq, decide_eq_true_eq] at he
  exact ⟨s, hs, he.1, he.2.1, he.2.2.1, he.2.2.2⟩

/-- Everybody sleeps, and the call is about to be made. -/
theorem no_call_lost_nap :
    ∃ s, (poolLTS (Fin POOL_SIZE)).Reachable s ∧ s.server_alive = true ∧ s.workers 0 = .asleep ∧
      s.client_queue = [⟨5, 0⟩] ∧ s.client_queue.length ≤ s.coming + s.main.calls := by
  obtain ⟨s, hs, h⟩ := exists_napping
  have hr : (poolLTS (Fin POOL_SIZE)).Reachable s := .foldlM (fun _ _ _ h => h) (.init rfl) hs
  exact ⟨s, hr, h.alive, h.asleep 0, h.queue, no_call_lost hr h.alive (h.asleep 0)⟩

/-! ## The way to the queue -/

/-- The steps to the next `pop`. -/
def Phase.togo : Phase → Nat
  | .crypt => 6
  | .verify => 5
  | .session => 4
  | .erase => 3
  | .close => 2
  | .refuse | .uncount => 1

def WorkerPc.togo : WorkerPc → Nat
  | .pop | .exited => 0
  | .check => 1
  | .test => 2
  | .lock | .asleep => 3
  | .loop | .park => 4
  | .handle _ ph => 4 + ph.togo

def PoolAct.ofWorker : PoolAct ι → Prop
  | .worker _ _ => True
  | _ => False

instance : DecidablePred (PoolAct.ofWorker (ι := ι))
  | .worker _ _ => .isTrue trivial
  | .main _ | .signal _ | .kill _ => .isFalse id

def PoolAct.calls : PoolAct ι → Prop
  | .main (.notifyOne _) => True
  | _ => False

namespace Pool

variable [DecidableEq ι] [Fintype ι] {s s' : Pool ι}

/-- The worker steps until `c` is taken, at most. A `pop` of another connection costs
its worker a whole round. -/
def ahead (s : Pool ι) (c : Conn) : Nat := 11 * s.client_queue.idxOf c + ∑ w, (s.workers w).togo

theorem togo_at (s : Pool ι) (w : ι) (pc : WorkerPc) :
    (∑ v, ((s.at_ w pc).workers v).togo) + (s.workers w).togo = (∑ v, (s.workers v).togo) + pc.togo :=
  sum_update WorkerPc.togo s.workers w pc

theorem ahead_at {c : Conn} {w : ι} {pc : WorkerPc} (hw : s'.workers = (s.at_ w pc).workers)
    (hq : s'.client_queue = s.client_queue) (hlt : pc.togo < (s.workers w).togo) : s'.ahead c < s.ahead c := by
  have htogo := togo_at s w pc
  unfold ahead
  rw [hw, hq]
  omega

/-- A step of a worker takes `c`, or brings a worker nearer to it. -/
theorem Attended.nearer (h : s.Attended) (ha : s.server_alive = true) {c : Conn} (hc : c ∈ s.client_queue) {w : ι}
    {a : WorkerAct} (hs : s.workerStep w a = some s') :
    (a = .pop ∧ s'.workers w = .handle c .crypt) ∨ (c ∈ s'.client_queue ∧ s'.ahead c < s.ahead c) := by
  have hfits := h.fits w
  have hne : s.client_queue ≠ [] := List.ne_nil_of_mem hc
  cases workerStep_move hs with
  | loop hw =>
    rw [ha]
    exact .inr ⟨hc, ahead_at rfl rfl (by simp [hw, WorkerPc.togo])⟩
  | lock hw hq => exact .inr ⟨hc, ahead_at rfl rfl (by simp [hw, WorkerPc.togo])⟩
  | test hw =>
    rw [if_pos (.inl hne)]
    exact .inr ⟨hc, ahead_at rfl rfl (by simp [hw, WorkerPc.togo])⟩
  | park hw =>
    rw [hw] at hfits
    exact absurd hfits hne
  | check hw => exact .inr ⟨hc, ahead_at rfl rfl (by simp [hw, WorkerPc.togo])⟩
  | exit hw hd =>
    rw [ha] at hd
    cases hd
  | pop d cs hw hq =>
    rw [hq] at hc
    by_cases hd : d = c
    · subst hd
      exact .inl ⟨rfl, by simp [at_]⟩
    · have hmem : c ∈ cs := (List.mem_cons.mp hc).resolve_left (Ne.symm hd)
      have htogo := togo_at s w (.handle d .crypt)
      have hround : (WorkerPc.handle d .crypt).togo = 10 := rfl
      have hpop : WorkerPc.pop.togo = 0 := rfl
      rw [hw, hround, hpop] at htogo
      refine .inr ⟨hmem, ?_⟩
      unfold ahead
      rw [hq, List.idxOf_cons_ne _ hd]
      show 11 * cs.idxOf c + ∑ v, ((s.at_ w (.handle d .crypt)).workers v).togo < _
      omega
  | verify d ok hw =>
    refine .inr ⟨hc, ahead_at rfl rfl ?_⟩
    cases ok <;> simp [hw, WorkerPc.togo, Phase.togo]
  | crypt d hw | session d hw | erase d hw | close d hw | cryptFails d hw | refuse d hw | uncount d hw =>
    exact .inr ⟨hc, ahead_at rfl rfl (by simp [hw, WorkerPc.togo, Phase.togo])⟩

omit [DecidableEq ι] in
theorem wakeAll_togo (s : Pool ι) : (∑ w, (s.wakeAll.workers w).togo) = ∑ w, (s.workers w).togo := by
  refine Finset.sum_congr rfl fun w _ => ?_
  by_cases hw : s.workers w = .asleep
  · simp [wakeAll, hw, WorkerPc.togo]
  · simp [wakeAll, hw]

/-- The others do not get in the way. -/
theorem ahead_others {a : PoolAct ι} (hn : ¬ a.ofWorker) {c : Conn} (hc : c ∈ s.client_queue)
    (hs : s.step a = some s') : c ∈ s'.client_queue ∧ s'.ahead c ≤ s.ahead c := by
  have hsame : ∀ t : Pool ι, t.client_queue = s.client_queue → (∑ w, (t.workers w).togo) = ∑ w, (s.workers w).togo →
      c ∈ t.client_queue ∧ t.ahead c ≤ s.ahead c := by
    intro t hq ht
    unfold ahead
    rw [hq, ht]
    exact ⟨hc, Nat.le_refl _⟩
  cases a with
  | worker w a => exact absurd trivial hn
  | main a =>
    cases mainStep_move hs with
    | push d hm hq =>
      refine ⟨List.mem_append_left _ hc, ?_⟩
      unfold ahead
      rw [List.idxOf_append_of_mem hc]
    | notifyOne d w hm hw =>
      have htogo := togo_at s w .lock
      rw [hw] at htogo
      exact hsame _ rfl (Nat.add_right_cancel htogo)
    | notifyAll hm => exact hsame _ rfl (wakeAll_togo s)
    | _ => exact hsame _ rfl rfl
  | signal a =>
    rcases signalStep_cases hs with ⟨-, rfl⟩ | ⟨-, rfl⟩ | ⟨-, rfl⟩
    · exact hsame _ rfl rfl
    · exact hsame _ rfl (wakeAll_togo s)
    · exact hsame _ rfl rfl
  | kill a =>
    rcases killStep_cases hs with ⟨-, rfl⟩ | ⟨-, rfl⟩
    · exact hsame _ rfl rfl
    · exact hsame _ rfl rfl

/-! ## Somebody can move -/

/-- A worker that can move. -/
def Able (s : Pool ι) (w : ι) : Prop :=
  (s.workers w).inside = true ∨ (s.queue_mutex = none ∧ s.workers w ≠ .asleep)

theorem Attended.able_enabled (h : s.Attended) (ha : s.server_alive = true) (hq : s.client_queue ≠ []) {w : ι}
    (hw : s.Able w) : (poolLTS ι).Enabled PoolAct.ofWorker s := by
  have hfits := h.fits w
  obtain ⟨c, cs, hcs⟩ := List.exists_cons_of_ne_nil hq
  have hstep : ∃ a, (s.workerStep w a).isSome := by
    unfold Able at hw
    cases hpc : s.workers w with
    | loop => exact ⟨.loop, by simp [workerStep, hpc]⟩
    | lock =>
      have hnone : s.queue_mutex = none := by
        rw [hpc] at hw
        exact (hw.resolve_left (by simp [WorkerPc.inside])).1
      exact ⟨.lock, by simp [workerStep, hpc, hnone]⟩
    | test => exact ⟨.test, by simp [workerStep, hpc]⟩
    | park => exact ⟨.park, by simp [workerStep, hpc]⟩
    | asleep =>
      rw [hpc] at hw
      simp [WorkerPc.inside] at hw
    | check => exact ⟨.check, by simp [workerStep, hpc, ha]⟩
    | pop => exact ⟨.pop, by simp [workerStep, hpc, hcs]⟩
    | handle d ph =>
      cases ph with
      | crypt => exact ⟨.crypt true, by simp [workerStep, hpc]⟩
      | verify => exact ⟨.verify true, by simp [workerStep, hpc]⟩
      | refuse => exact ⟨.refuse, by simp [workerStep, hpc]⟩
      | session => exact ⟨.session, by simp [workerStep, hpc]⟩
      | erase => exact ⟨.erase, by simp [workerStep, hpc]⟩
      | close => exact ⟨.close, by simp [workerStep, hpc]⟩
      | uncount => exact ⟨.uncount, by simp [workerStep, hpc]⟩
    | exited =>
      rw [hpc, WorkerPc.Fits, ha] at hfits
      cases hfits
  obtain ⟨a, hsome⟩ := hstep
  obtain ⟨s', hs⟩ := Option.isSome_iff_exists.mp hsome
  exact ⟨.worker w a, s', trivial, hs⟩

omit [DecidableEq ι] in
/-- With something in the queue, a worker can move or `main` is about to wake one. -/
theorem Attended.able_or_calls [Nonempty ι] (h : s.Attended) (ha : s.server_alive = true) (hq : s.client_queue ≠ []) :
    (∃ w, s.Able w) ∨ ∃ c, s.main = .notify c := by
  cases hm : s.queue_mutex with
  | some w => exact .inl ⟨w, .inl ((h.holder w).mpr hm)⟩
  | none =>
    by_cases hall : ∀ w, s.workers w = .asleep
    · -- nobody is on the way, so the call is still to come
      obtain ⟨w⟩ : Nonempty ι := inferInstance
      have hlen := h.enough ha ⟨w, hall w⟩
      have hcoming : s.coming = 0 := Finset.sum_eq_zero fun v _ => by rw [hall v]; rfl
      have hpos := List.length_pos_iff.mpr hq
      cases hmain : s.main with
      | notify c => exact .inr ⟨c, rfl⟩
      | _ =>
        simp only [hmain, MainPc.calls] at hlen
        omega
    · simp only [not_forall] at hall
      obtain ⟨w, hw⟩ := hall
      exact .inl ⟨w, .inr ⟨hm, hw⟩⟩

/-- Only a worker takes the mutex from those who can move. -/
theorem able_others {a : PoolAct ι} (hn : ¬ a.ofWorker) {w : ι} (hw : s.Able w) (hs : s.step a = some s') :
    s'.Able w := by
  have hwake : s.wakeAll.Able w := by
    unfold Able at hw ⊢
    by_cases hsl : s.workers w = .asleep
    · simp [hsl, WorkerPc.inside] at hw
    · simpa [wakeAll, hsl] using hw
  cases a with
  | worker v a => exact absurd trivial hn
  | main a =>
    cases mainStep_move hs with
    | notifyOne d v hm hv =>
      unfold Able at hw ⊢
      by_cases hvw : w = v
      · subst hvw
        simp [hv, WorkerPc.inside] at hw
      · simpa [at_, hvw] using hw
    | notifyAll hm => exact hwake
    | _ => exact hw
  | signal a =>
    rcases signalStep_cases hs with ⟨-, rfl⟩ | ⟨-, rfl⟩ | ⟨-, rfl⟩
    · exact hw
    · exact hwake
    · exact hw
  | kill a =>
    rcases killStep_cases hs with ⟨-, rfl⟩ | ⟨-, rfl⟩
    · exact hw
    · exact hw

theorem calls_enabled {c : Conn} (hm : s.main = .notify c) : (poolLTS ι).Enabled PoolAct.calls s := by
  have hstep : ∃ o, (s.mainStep (.notifyOne o)).isSome := by
    by_cases hall : ∀ w, s.workers w ≠ .asleep
    · exact ⟨none, by simp [mainStep, hm, hall]⟩
    · simp only [not_forall, not_not] at hall
      obtain ⟨w, hw⟩ := hall
      exact ⟨some w, by simp [mainStep, hm, hw]⟩
  obtain ⟨o, hsome⟩ := hstep
  obtain ⟨s', hs⟩ := Option.isSome_iff_exists.mp hsome
  exact ⟨.main (.notifyOne o), s', trivial, hs⟩

/-- `main` stays in front of its call until it makes it. -/
theorem notify_others {a : PoolAct ι} (hn : ¬ a.calls) {c : Conn} (hm : s.main = .notify c)
    (hs : s.step a = some s') : s'.main = .notify c := by
  cases a with
  | worker w a =>
    cases workerStep_move hs <;> exact hm
  | main a =>
    cases mainStep_move hs with
    | notifyNone | notifyOne => exact absurd trivial hn
    | _ => simp_all
  | signal a =>
    rcases signalStep_cases hs with ⟨-, rfl⟩ | ⟨-, rfl⟩ | ⟨-, rfl⟩ <;> exact hm
  | kill a =>
    rcases killStep_cases hs with ⟨-, rfl⟩ | ⟨-, rfl⟩ <;> exact hm

theorem calls_done {a : PoolAct ι} (ha : a.calls) (hs : s.step a = some s') (c : Conn) : s'.main ≠ .notify c := by
  cases a with
  | main a =>
    cases a with
    | notifyOne o =>
      cases mainStep_move hs with
      | notifyNone | notifyOne => simp
    | _ => exact ha.elim
  | _ => exact ha.elim

end Pool

section
variable [DecidableEq ι] [Fintype ι] [Nonempty ι] (r : (poolLTS ι).Run)
  (hup : ∀ n, (r.st n).server_alive = true) (hw : r.Fair PoolAct.ofWorker) (hm : r.Fair PoolAct.calls)
include hup

theorem able_of_queued {n : Nat} (hq : (r.st n).client_queue ≠ []) (hno : ∀ c, (r.st n).main ≠ .notify c) :
    ∃ w, (r.st n).Able w :=
  ((Pool.attended_invariant.reachable (r.reachable n)).able_or_calls (hup n) hq).resolve_right
    fun ⟨c, hc⟩ => hno c hc

include hw hm

/-- While something is in the queue, workers move. -/
theorem worker_moves {n : Nat} {c : Conn} (hc : c ∈ (r.st n).client_queue) :
    ∃ m, n ≤ m ∧ (r.lab m).ofWorker := by
  by_contra hno
  have hnone : ∀ m, n ≤ m → ¬ (r.lab m).ofWorker := fun m hle ha => hno ⟨m, hle, ha⟩
  have hqueue : ∀ m, n ≤ m → c ∈ (r.st m).client_queue := by
    intro m hle
    induction m, hle using Nat.le_induction with
    | base => exact hc
    | succ m hle ih => exact (Pool.ahead_others (hnone m hle) ih (r.step m)).1
  have hne : ∀ m, n ≤ m → (r.st m).client_queue ≠ [] := fun m hle => List.ne_nil_of_mem (hqueue m hle)
  -- behind the pending call somebody is awake
  obtain ⟨k, hk, w, hable⟩ : ∃ k, n ≤ k ∧ ∃ w, (r.st k).Able w := by
    by_cases hcall : ∃ d, (r.st n).main = .notify d
    · obtain ⟨d, hd⟩ := hcall
      obtain ⟨m, hle, ⟨-, -⟩, ha⟩ := r.fires hm (P := fun m => n ≤ m ∧ (r.st m).main = .notify d)
        (fun m hP => Pool.calls_enabled hP.2)
        (fun m hP hna => ⟨by omega, Pool.notify_others hna hP.2 (r.step m)⟩) ⟨Nat.le_refl n, hd⟩
      exact ⟨m + 1, by omega, able_of_queued r hup (hne (m + 1) (by omega)) (Pool.calls_done ha (r.step m))⟩
    · exact ⟨n, Nat.le_refl n, able_of_queued r hup (hne n (Nat.le_refl n)) fun d hd => hcall ⟨d, hd⟩⟩
  obtain ⟨m, hle, -, ha⟩ := r.fires hw (P := fun m => k ≤ m ∧ (r.st m).Able w)
    (fun m hP => (Pool.attended_invariant.reachable (r.reachable m)).able_enabled (hup m) (hne m (by omega)) hP.2)
    (fun m hP hna => ⟨by omega, Pool.able_others hna hP.2 (r.step m)⟩) ⟨Nat.le_refl k, hable⟩
  exact hnone m (by omega) ha

end

theorem queued_taken {ι : Type} [DecidableEq ι] [Fintype ι] [Nonempty ι] (r : (poolLTS ι).Run)
    (hup : ∀ n, (r.st n).server_alive = true) (hw : r.Fair PoolAct.ofWorker) (hm : r.Fair PoolAct.calls)
    {n : Nat} {c : Conn} (hc : c ∈ (r.st n).client_queue) :
    ∃ m w, n ≤ m ∧ r.lab m = .worker w .pop ∧ (r.st (m + 1)).workers w = .handle c .crypt := by
  have hstep : ∀ k, c ∈ (r.st k).client_queue →
      (∃ w, r.lab k = .worker w .pop ∧ (r.st (k + 1)).workers w = .handle c .crypt) ∨
      (c ∈ (r.st (k + 1)).client_queue ∧ (r.st (k + 1)).ahead c ≤ (r.st k).ahead c ∧
        ((r.lab k).ofWorker → (r.st (k + 1)).ahead c < (r.st k).ahead c)) := by
    intro k hk
    have hs : (r.st k).step (r.lab k) = some (r.st (k + 1)) := r.step k
    by_cases hl : (r.lab k).ofWorker
    · cases hlab : r.lab k with
      | worker w a =>
        rw [hlab] at hs
        rcases (Pool.attended_invariant.reachable (r.reachable k)).nearer (hup k) hk hs with ⟨rfl, hp⟩ | ⟨hq, hlt⟩
        · exact .inl ⟨w, rfl, hp⟩
        · exact .inr ⟨hq, hlt.le, fun _ => hlt⟩
      | _ =>
        rw [hlab] at hl
        exact hl.elim
    · obtain ⟨hq, hle⟩ := Pool.ahead_others hl hk hs
      exact .inr ⟨hq, hle, fun h => absurd h hl⟩
  obtain ⟨m, hle, -, w, hg⟩ := eventually_of_rank (μ := fun k => (r.st k).ahead c)
    (G := fun k => ∃ w, r.lab k = .worker w .pop ∧ (r.st (k + 1)).workers w = .handle c .crypt) hstep
    (fun k hk => worker_moves r hup hw hm hk) hc
  exact ⟨m, w, hle, hg⟩

/-! ### A run -/

/-- The connection is served, and the worker sleeps again. -/
def serveAll : List (PoolAct (Fin POOL_SIZE)) :=
  [.main (.notifyOne (some firstWorker)), .main .countTotal, .main .countLive] ++
    [.lock, .test, .check, .pop, .crypt true, .verify true, .session, .erase, .close, .uncount, .loop].map
      (.worker firstWorker) ++ nap firstWorker

/-- `accept` fails again and again. -/
def failing (n : Nat) : MainPc × MainAct ι :=
  match n % 3 with
  | 0 => (.loop, .loop)
  | 1 => (.accept, .accept none)
  | _ => (.accepted none, .check)

theorem failing_step [DecidableEq ι] [Fintype ι] {s : Pool ι} (ha : s.server_alive = true) (n : Nat) :
    Pool.step { s with main := (failing (ι := ι) n).1 } (.main (failing n).2) =
      some { s with main := (failing (ι := ι) (n + 1)).1 } := by
  have hmod : n % 3 = 0 ∨ n % 3 = 1 ∨ n % 3 = 2 := by omega
  rcases hmod with h | h | h
  · have h' : (n + 1) % 3 = 1 := by omega
    simp [failing, h, h', Pool.step, Pool.mainStep, ha]
  · have h' : (n + 1) % 3 = 2 := by omega
    simp [failing, h, h', Pool.step, Pool.mainStep]
  · have h' : (n + 1) % 3 = 0 := by omega
    simp [failing, h, h', Pool.step, Pool.mainStep, ha]

/-- From a state in which everybody sleeps and `main` is at the head of its loop. -/
def failingRun [DecidableEq ι] [Fintype ι] {s : Pool ι} (hr : (poolLTS ι).Reachable s) (ha : s.server_alive = true)
    (hm : s.main = .loop) : (poolLTS ι).Run where
  st n := { s with main := (failing (ι := ι) n).1 }
  lab n := .main (failing n).2
  start := by
    have hs : { s with main := (failing (ι := ι) 0).1 } = s := by
      rw [show (failing (ι := ι) 0).1 = s.main from hm.symm]
    rw [hs]
    exact hr
  step n := failing_step ha n

theorem not_enabled_asleep [DecidableEq ι] [Fintype ι] {s : Pool ι} (h : ∀ w, s.workers w = .asleep) :
    ¬ (poolLTS ι).Enabled PoolAct.ofWorker s := by
  rintro ⟨l, s', hl, hs⟩
  cases l with
  | worker w a =>
    have hw := h w
    cases Pool.workerStep_move hs <;> simp_all
  | _ => exact hl

theorem not_enabled_calls [DecidableEq ι] [Fintype ι] {s : Pool ι} (h : ∀ c, s.main ≠ .notify c) :
    ¬ (poolLTS ι).Enabled PoolAct.calls s := by
  rintro ⟨l, s', hl, hs⟩
  cases l with
  | main a =>
    cases a with
    | notifyOne o =>
      cases Pool.mainStep_move hs with
      | notifyNone c hm | notifyOne c w hm => exact h c hm
    | _ => exact hl
  | _ => exact hl

theorem failing_ne_notify (n : Nat) (c : Conn) : (failing (ι := ι) n).1 ≠ .notify c := by
  unfold failing
  split <;> simp

/-- Everybody sleeps when the connection comes; it is served, and then `accept` fails
for ever. -/
theorem queued_taken_nap :
    ∃ r : (poolLTS (Fin POOL_SIZE)).Run, (∀ n, (r.st n).server_alive = true) ∧ r.Fair PoolAct.ofWorker ∧
      r.Fair PoolAct.calls ∧ (⟨5, 0⟩ : Conn) ∈ (r.st 0).client_queue ∧
      ∃ m w, 0 ≤ m ∧ r.lab m = .worker w .pop ∧ (r.st (m + 1)).workers w = .handle ⟨5, 0⟩ .crypt := by
  obtain ⟨s, hs, h⟩ := exists_napping
  have hr : (poolLTS (Fin POOL_SIZE)).Reachable s := .foldlM (fun _ _ _ h => h) (.init rfl) hs
  have hrun : ((napRun.foldlM Pool.step Pool.init).bind fun s =>
      serveAll.foldlM (LTS.guarded (fun s _ => s.server_alive) Pool.step) s).map
      (fun s => (s.server_alive, decide (∀ w, s.workers w = .asleep), s.main)) = some (true, true, .loop) := by
    decide +kernel
  rw [hs, Option.bind_some] at hrun
  obtain ⟨t, ht, he⟩ := Option.map_eq_some_iff.mp hrun
  simp only [Prod.mk.injEq, decide_eq_true_eq] at he
  obtain ⟨ha, hsleep, hm⟩ := he
  have hrt : (poolLTS (Fin POOL_SIZE)).Reachable t := .foldlM (fun _ _ _ h => (LTS.guarded_some h).2) hr ht
  have ht0 : t = (failingRun hrt ha hm).st 0 := by
    show t = { t with main := .loop }
    rw [← hm]
  rw [ht0] at ht
  obtain ⟨r, h0, hup, hfair⟩ := (failingRun hrt ha hm).exists_foldlM (P := fun s => s.server_alive = true)
    (fun _ _ h => h) (fun _ _ _ h => h) (fun _ => ha) hr ht
  have hw := hfair PoolAct.ofWorker fun n hen => absurd (hen n (Nat.le_refl n)) (not_enabled_asleep hsleep)
  have hc := hfair PoolAct.calls fun n hen =>
    absurd (hen n (Nat.le_refl n)) (not_enabled_calls (failing_ne_notify n))
  have hq : (⟨5, 0⟩ : Conn) ∈ (r.st 0).client_queue := by
    rw [h0, h.queue]
    exact List.mem_singleton_self _
  exact ⟨r, hup, hw, hc, hq, queued_taken r hup hw hc hq⟩

end Mefsc.L5
