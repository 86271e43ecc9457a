import Mefsc.L5Concurrency.Pool

/-!
# The registry of connections

`main` and the workers keep custody of their sockets (`Mefsc.Core.Custody`):
`custody` reads a pool state as a custody state, with `main` (`none`) and the
workers (`some w`) as the threads, and every step of the pool is a custody step
or leaves the custody as it was (`custody_step`). `moved` is where a step leaves
the connection it is about.

`registry_safe`: in every reachable state the keys of `clients` are open
sockets, whatever is queued or handled has its entry, nothing is queued twice
or in the hands of two workers, and `erase` and `close` hit what belongs to the
handler's own connection. This rests on the order of `handle_conn`: the entry
goes first and the descriptor after it, so a descriptor that can be accepted
again has no entry left. The exits that skip both keep entry and descriptor.
-/
namespace Mefsc.L5

open Function

/-- mirrors src/server/server.cpp:279-308: `fresh` up to the insertion into
`clients`, `entered` up to the push. -/
def MainPc.grip : MainPc → Grip
  | .accepted (some c) | .timeout c | .register c => .fresh c
  | .push c => .entered c
  | _ => .idle

def WorkerPc.grip : WorkerPc → Grip
  | .handle c .close => .erased c
  | .handle c .uncount => .closed c
  | .handle c _ => .entered c
  | _ => .idle

/-- Where connections are, with the exit by which `handle_conn` left them. -/
abbrev Places (ι : Type) := Nat → Place (Option ι) Exit

namespace Pool

variable {ι : Type}

def gripsOf (m : MainPc) (ws : ι → WorkerPc) : Option ι → Grip
  | none => m.grip
  | some w => (ws w).grip

def custody (s : Pool ι) (place : Places ι) : Custody (Option ι) Exit where
  opened := s.opened
  entries := s.clients
  queue := s.client_queue
  next := s.next
  grip := gripsOf s.main s.workers
  place := place

/-- Where the connection a step is about is after it. -/
def moved (s : Pool ι) (place : Places ι) : PoolAct ι → Places ι
  | .main (.accept (some _)) => update place s.next (.held none)
  | .main .check =>
    match s.main with
    | .accepted (some c) => if s.server_alive then place else update place c.id .discarded
    | _ => place
  | .main (.timeout false) =>
    match s.main with
    | .timeout c => update place c.id .discarded
    | _ => place
  | .main .register =>
    match s.main with
    | .register c => update place c.id (.held none)
    | _ => place
  | .main .push =>
    match s.main with
    | .push c => update place c.id .queued
    | _ => place
  | .worker w .pop =>
    match s.client_queue with
    | c :: _ => update place c.id (.held (some w))
    | [] => place
  | .worker w (.crypt false) =>
    match s.workers w with
    | .handle c _ => update place c.id (.lost c .keyExchange)
    | _ => place
  | .worker w .refuse =>
    match s.workers w with
    | .handle c _ => update place c.id (.lost c .refused)
    | _ => place
  | .worker w .erase | .worker w .close =>
    match s.workers w with
    | .handle c _ => update place c.id (.held (some w))
    | _ => place
  | .worker w .uncount =>
    match s.workers w with
    | .handle c _ => update place c.id (.released .served)
    | _ => place
  | _ => place

theorem gripsOf_wakeAll (s : Pool ι) (m : MainPc) :
    gripsOf m s.wakeAll.workers = gripsOf m s.workers := by
  funext k
  cases k with
  | none => rfl
  | some v =>
    by_cases hv : s.workers v = .asleep
    · simp [gripsOf, wakeAll, hv, WorkerPc.grip]
    · simp [gripsOf, wakeAll, hv]

theorem gripsOf_main (m m' : MainPc) (ws : ι → WorkerPc) [DecidableEq (Option ι)] :
    gripsOf m' ws = update (gripsOf m ws) none m'.grip := by
  funext k
  cases k <;> simp [gripsOf]

theorem gripsOf_main_same {m m' : MainPc} (h : m'.grip = m.grip) (ws : ι → WorkerPc) :
    gripsOf m' ws = gripsOf m ws := by
  funext k
  cases k with
  | none => exact h
  | some w => rfl

variable [DecidableEq ι]

theorem gripsOf_worker (m : MainPc) (ws : ι → WorkerPc) (w : ι) (pc : WorkerPc) :
    gripsOf m (update ws w pc) = update (gripsOf m ws) (some w) pc.grip := by
  funext k
  cases k with
  | none => simp [gripsOf]
  | some v =>
    by_cases hv : v = w
    · subst hv
      simp [gripsOf]
    · simp [gripsOf, hv]

/-- A worker moves on without a change of grip. -/
theorem gripsOf_worker_same {m : MainPc} {ws : ι → WorkerPc} {w : ι} {pc : WorkerPc}
    (h : pc.grip = (ws w).grip) : gripsOf m (update ws w pc) = gripsOf m ws := by
  rw [gripsOf_worker]
  exact update_eq_self_iff.mpr h

/-! ## Steps -/

/-- A custody step, or none. -/
def Follows (s s' : Pool ι) (place place' : Places ι) : Prop :=
  s'.custody place' = s.custody place ∨ (s.custody place).Step (s'.custody place')

theorem follows_quiet {s s' : Pool ι} (place : Places ι) (ho : s'.opened = s.opened)
    (hc : s'.clients = s.clients) (hq : s'.client_queue = s.client_queue) (hn : s'.next = s.next)
    (hg : gripsOf s'.main s'.workers = gripsOf s.main s.workers) : Follows s s' place place := by
  left
  unfold custody
  rw [ho, hc, hq, hn, hg]

/-- Worker `w` moves on with the same grip. -/
theorem follows_worker {s s' : Pool ι} {w : ι} {pc : WorkerPc} (place : Places ι)
    (ho : s'.opened = s.opened) (hc : s'.clients = s.clients)
    (hq : s'.client_queue = s.client_queue) (hn : s'.next = s.next) (hm : s'.main = s.main)
    (hws : s'.workers = update s.workers w pc) (hg : pc.grip = (s.workers w).grip) :
    Follows s s' place place := by
  refine follows_quiet place ho hc hq hn ?_
  rw [hm, hws]
  exact gripsOf_worker_same hg

/-- `main` moves on with the same grip. -/
theorem follows_main {s s' : Pool ι} (place : Places ι) (ho : s'.opened = s.opened)
    (hc : s'.clients = s.clients) (hq : s'.client_queue = s.client_queue) (hn : s'.next = s.next)
    (hws : s'.workers = s.workers) (hg : s'.main.grip = s.main.grip) : Follows s s' place place := by
  refine follows_quiet place ho hc hq hn ?_
  rw [hws]
  exact gripsOf_main_same hg _

theorem custody_worker {s s' : Pool ι} {w : ι} {a : WorkerAct} (hs : s.workerStep w a = some s')
    (place : Places ι) : Follows s s' place (s.moved place (.worker w a)) := by
  cases workerStep_move hs with
  | loop hw =>
    refine follows_worker place rfl rfl rfl rfl rfl rfl ?_
    rw [hw]
    split <;> rfl
  | lock hw => exact follows_worker place rfl rfl rfl rfl rfl rfl (by simp [hw, WorkerPc.grip])
  | test hw =>
    refine follows_worker place rfl rfl rfl rfl rfl rfl ?_
    rw [hw]
    split <;> rfl
  | park hw => exact follows_worker place rfl rfl rfl rfl rfl rfl (by simp [hw, WorkerPc.grip])
  | check hw => exact follows_worker place rfl rfl rfl rfl rfl rfl (by simp [hw, WorkerPc.grip])
  | exit hw => exact follows_worker place rfl rfl rfl rfl rfl rfl (by simp [hw, WorkerPc.grip])
  | pop c cs hw hq =>
    right
    have h := Custody.Step.pop (s := s.custody place) (some w) c cs
      (by simp [custody, gripsOf, hw, WorkerPc.grip]) hq
    simpa [custody, moved, hq, Custody.move, at_, WorkerPc.grip, gripsOf_worker] using h
  | crypt c hw => exact follows_worker place rfl rfl rfl rfl rfl rfl (by simp [hw, WorkerPc.grip])
  | cryptFails c hw =>
    right
    have h := Custody.Step.lose (s := s.custody place) (some w) c Exit.keyExchange
      (by simp [custody, gripsOf, hw, WorkerPc.grip])
    simpa [custody, moved, hw, Custody.move, leave, at_, WorkerPc.grip, gripsOf_worker] using h
  | verify c ok hw =>
    refine follows_worker place rfl rfl rfl rfl rfl rfl ?_
    rw [hw]
    split <;> rfl
  | refuse c hw =>
    right
    have h := Custody.Step.lose (s := s.custody place) (some w) c Exit.refused
      (by simp [custody, gripsOf, hw, WorkerPc.grip])
    simpa [custody, moved, hw, Custody.move, leave, uncount, at_, WorkerPc.grip, gripsOf_worker] using h
  | session c hw => exact follows_worker place rfl rfl rfl rfl rfl rfl (by simp [hw, WorkerPc.grip])
  | erase c hw =>
    right
    have h := Custody.Step.erase (s := s.custody place) (some w) c
      (by simp [custody, gripsOf, hw, WorkerPc.grip])
    simpa [custody, moved, hw, Custody.move, erase, at_, WorkerPc.grip, gripsOf_worker] using h
  | close c hw =>
    right
    have h := Custody.Step.close (s := s.custody place) (some w) c
      (by simp [custody, gripsOf, hw, WorkerPc.grip])
    simpa [custody, moved, hw, Custody.move, close, at_, WorkerPc.grip, gripsOf_worker] using h
  | uncount c hw =>
    right
    have h := Custody.Step.release (s := s.custody place) (some w) c Exit.served
      (by simp [custody, gripsOf, hw, WorkerPc.grip])
    simpa [custody, moved, hw, Custody.move, leave, uncount, at_, WorkerPc.grip, gripsOf_worker] using h

theorem custody_main [Fintype ι] {s s' : Pool ι} {a : MainAct ι} (hs : s.mainStep a = some s')
    (place : Places ι) : Follows s s' place (s.moved place (.main a)) := by
  cases mainStep_move hs with
  | loop hm =>
    refine follows_main place rfl rfl rfl rfl rfl ?_
    rw [hm]
    split <;> rfl
  | acceptFails hm => exact follows_main place rfl rfl rfl rfl rfl (by simp [hm, MainPc.grip])
  | accept fd hm ho =>
    right
    have h := Custody.Step.accept (s := s.custody place) none fd
      (by simp [custody, gripsOf, hm, MainPc.grip]) ho
    simpa [custody, moved, Custody.move, gripsOf_main s.main (.accepted _), MainPc.grip] using h
  | again hm =>
    simp only [moved, hm]
    refine follows_main place rfl rfl rfl rfl rfl ?_
    rw [hm]
    split <;> rfl
  | check c hm ha =>
    simp only [moved, hm, ha, if_true]
    exact follows_main place rfl rfl rfl rfl rfl (by simp [hm, MainPc.grip])
  | stop c hm ha =>
    right
    have h := Custody.Step.discard (s := s.custody place) none c
      (by simp [custody, gripsOf, hm, MainPc.grip])
    simpa [custody, moved, hm, ha, Custody.move, close, gripsOf_main s.main .leave, MainPc.grip] using h
  | timeout c hm => exact follows_main place rfl rfl rfl rfl rfl (by simp [hm, MainPc.grip])
  | timeoutFails c hm =>
    right
    have h := Custody.Step.discard (s := s.custody place) none c
      (by simp [custody, gripsOf, hm, MainPc.grip])
    simpa [custody, moved, hm, Custody.move, close, gripsOf_main s.main .loop, MainPc.grip] using h
  | register c hm =>
    right
    have h := Custody.Step.enter (s := s.custody place) none c
      (by simp [custody, gripsOf, hm, MainPc.grip])
    simpa [custody, moved, hm, Custody.move, gripsOf_main s.main (.push c), MainPc.grip] using h
  | push c hm =>
    right
    have h := Custody.Step.push (s := s.custody place) none c
      (by simp [custody, gripsOf, hm, MainPc.grip])
    simpa [custody, moved, hm, Custody.move, gripsOf_main s.main (.notify c), MainPc.grip] using h
  | notifyNone c hm => exact follows_main place rfl rfl rfl rfl rfl (by simp [hm, MainPc.grip])
  | notifyOne c w hm hw =>
    refine follows_quiet place rfl rfl rfl rfl ?_
    rw [gripsOf_main_same (m := s.main) (by simp [hm, MainPc.grip])]
    exact gripsOf_worker_same (by simp [hw, WorkerPc.grip])
  | countTotal c hm => exact follows_main place rfl rfl rfl rfl rfl (by simp [hm, MainPc.grip])
  | countLive c hm => exact follows_main place rfl rfl rfl rfl rfl (by simp [hm, MainPc.grip])
  | notifyAll hm =>
    refine follows_quiet place rfl rfl rfl rfl ?_
    rw [gripsOf_main_same (m := s.main) (by simp [hm, MainPc.grip])]
    exact gripsOf_wakeAll s s.main

theorem custody_signal {s s' : Pool ι} {a : SignalAct} (hs : s.signalStep a = some s')
    (place : Places ι) : Follows s s' place place := by
  rcases signalStep_cases hs with ⟨-, rfl⟩ | ⟨-, rfl⟩ | ⟨-, rfl⟩
  · exact follows_quiet place rfl rfl rfl rfl rfl
  · exact follows_quiet place rfl rfl rfl rfl (gripsOf_wakeAll s s.main)
  · exact follows_quiet place rfl rfl rfl rfl rfl

theorem custody_kill {s s' : Pool ι} {a : KillAct} (hs : s.killStep a = some s')
    (place : Places ι) : Follows s s' place place := by
  rcases killStep_cases hs with ⟨-, rfl⟩ | ⟨-, rfl⟩ <;>
    exact follows_quiet place rfl rfl rfl rfl rfl

/-- Every step of the pool is a custody step or leaves the custody alone. -/
theorem custody_step [Fintype ι] {s s' : Pool ι} {a : PoolAct ι} (hs : s.step a = some s')
    (place : Places ι) : Follows s s' place (s.moved place a) := by
  cases a with
  | main a => exact custody_main hs place
  | worker w a => exact custody_worker hs place
  | signal a => exact custody_signal hs place
  | kill a => exact custody_kill hs place

theorem custody_inv_step [Fintype ι] {s s' : Pool ι} {a : PoolAct ι} (hs : s.step a = some s')
    {place : Places ι} (I : (s.custody place).Inv) : (s'.custody (s.moved place a)).Inv := by
  rcases custody_step hs place with h | h
  · rw [h]
    exact I
  · exact Custody.inv_step I h

omit [DecidableEq ι] in
theorem custody_inv_init : ((init : Pool ι).custody fun _ => .unborn).Inv := by
  constructor
  · constructor <;> simp [custody, init, gripsOf, MainPc.grip, WorkerPc.grip, Grip.item, Option.forall]
  all_goals simp [custody, init, gripsOf, MainPc.grip, WorkerPc.grip, Grip.owned, Option.forall]

/-! ## What holds in every state -/

/-- A worker has `c` in `handle_conn` and has not closed it. -/
def handles (s : Pool ι) (w : ι) (c : Conn) : Prop := ∃ ph, s.workers w = .handle c ph ∧ ph ≠ .uncount

/-- A worker has `c` in `handle_conn` and has not erased its entry. -/
def handlesEntry (s : Pool ι) (w : ι) (c : Conn) : Prop :=
  ∃ ph, s.workers w = .handle c ph ∧ ph ≠ .close ∧ ph ≠ .uncount

structure RegistrySafe (s : Pool ι) : Prop where
  keys_open : ∀ fd, (s.clients fd).isSome → (s.opened fd).isSome
  queued_key : ∀ c ∈ s.client_queue, s.clients c.fd = some c.id
  handled_key : ∀ w c, s.handlesEntry w c → s.clients c.fd = some c.id
  queued_once : (s.client_queue.map Handle.fd).Nodup
  queued_apart : ∀ c ∈ s.client_queue, ∀ w d, s.handles w d → c.fd ≠ d.fd
  handled_once : ∀ w w' c d, s.handles w c → s.handles w' d → c.fd = d.fd → w = w'
  erase_own : ∀ w c, s.workers w = .handle c .erase → s.clients c.fd = some c.id
  close_own : ∀ w c, s.workers w = .handle c .close → s.opened c.fd = some c.id

section
omit [DecidableEq ι]
variable {s : Pool ι} {place : Places ι}

theorem owned_of_handles {w : ι} {c : Conn} (h : s.handles w c) :
    ((s.custody place).grip (some w)).owned = some c := by
  obtain ⟨ph, hw, hph⟩ := h
  cases ph <;> simp_all [custody, gripsOf, WorkerPc.grip, Grip.owned]

theorem entered_of_handlesEntry {w : ι} {c : Conn} (h : s.handlesEntry w c) :
    (s.custody place).grip (some w) = .entered c := by
  obtain ⟨ph, hw, hph, hph'⟩ := h
  cases ph <;> simp_all [custody, gripsOf, WorkerPc.grip]

theorem registrySafe_of_inv (I : (s.custody place).Inv) : s.RegistrySafe where
  keys_open fd hfd := by
    obtain ⟨id, hid⟩ := Option.isSome_iff_exists.mp hfd
    have ho : s.opened fd = some id := I.keys fd id hid
    simp [ho]
  queued_key c hc := (I.waiting c hc).2
  handled_key w c h := I.entered (some w) c (entered_of_handlesEntry h)
  queued_once := by
    -- two queued connections with one descriptor would be the same connection
    have hq : ∀ c ∈ s.client_queue, s.opened c.fd = some c.id := fun c hc => (I.waiting c hc).1
    have hnd : (s.client_queue.map Handle.id).Nodup := I.nodup
    rw [List.nodup_map_iff_inj_on hnd.of_map]
    intro c hc d hd he
    have h1 := hq c hc
    rw [he, hq d hd] at h1
    exact List.inj_on_of_nodup_map hnd hc hd (by simpa using h1.symm)
  queued_apart c hc w d hd := I.queue_fd_ne (owned_of_handles hd) hc
  handled_once w w' c d hc hd he := by
    by_contra hne
    exact I.fd_ne (owned_of_handles hd) (owned_of_handles hc) (fun h => hne (Option.some.inj h)) he
  erase_own w c hw :=
    I.entered (some w) c (entered_of_handlesEntry ⟨_, hw, by decide, by decide⟩)
  close_own w c hw := I.owned (some w) c (owned_of_handles ⟨_, hw, by decide⟩)

end

theorem exists_custody [Fintype ι] {s : Pool ι} (r : (poolLTS ι).Reachable s) :
    ∃ place, (s.custody place).Inv := by
  induction r with
  | init h =>
    obtain rfl := h
    exact ⟨_, custody_inv_init⟩
  | step _ hs ih =>
    obtain ⟨place, I⟩ := ih
    exact ⟨_, custody_inv_step hs I⟩

end Pool

/-- The registry of connections, over any interleaving of the accept loop and
the workers and any reuse of descriptors. -/
theorem registry_safe {ι : Type} [DecidableEq ι] [Fintype ι] {s : Pool ι}
    (r : (poolLTS ι).Reachable s) : s.RegistrySafe := by
  obtain ⟨place, I⟩ := Pool.exists_custody r
  exact Pool.registrySafe_of_inv I

/-- A connection goes through the accept loop. -/
def takeIn (fd : Nat) : List (PoolAct (Fin POOL_SIZE)) :=
  [.main .loop, .main (.accept (some fd)), .main .check, .main (.timeout true), .main .register,
   .main .push, .main (.notifyOne none), .main .countTotal, .main .countLive]

/-- Worker `w` takes the next one. -/
def pickUp (w : Fin POOL_SIZE) : List (PoolAct (Fin POOL_SIZE)) :=
  [.worker w .loop, .worker w .lock, .worker w .test, .worker w .check, .worker w .pop]

/-- The first connection is served to the point where its descriptor is
closed; the descriptor is accepted again and handled by another worker, and a
third connection waits. -/
def reuseRun : List (PoolAct (Fin POOL_SIZE)) :=
  takeIn 5 ++ pickUp 0 ++ [.worker 0 (.crypt true), .worker 0 (.verify true), .worker 0 .session,
    .worker 0 .erase, .worker 0 .close] ++ takeIn 5 ++ pickUp 1 ++ takeIn 6

theorem registry_safe_reuseRun :
    ∃ s, (poolLTS (Fin POOL_SIZE)).Reachable s ∧ s.workers 0 = .handle ⟨5, 0⟩ .uncount ∧
      s.workers 1 = .handle ⟨5, 1⟩ .crypt ∧ s.client_queue = [⟨6, 2⟩] ∧ s.RegistrySafe := by
  have hrun : (reuseRun.foldlM Pool.step Pool.init).map
      (fun s => (s.workers 0, s.workers 1, s.client_queue)) =
      some (.handle ⟨5, 0⟩ .uncount, .handle ⟨5, 1⟩ .crypt, [⟨6, 2⟩]) := by decide
  obtain ⟨s, hs, he⟩ := Option.map_eq_some_iff.mp hrun
  simp only [Prod.mk.injEq] at he
  have hr : (poolLTS (Fin POOL_SIZE)).Reachable s := .foldlM (fun _ _ _ h => h) (.init rfl) hs
  exact ⟨s, hr, he.1, he.2.1, he.2.2, registry_safe hr⟩

end Mefsc.L5
