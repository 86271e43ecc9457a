import Mathlib.Data.Fintype.Basic
import Mathlib.Logic.Function.Basic
import Mefsc.Core.Bytes
import Mefsc.Core.Custody
import Mefsc.Core.Lts

/-!
# The accept loop and the worker pool

`src/server/server.cpp`: `main` accepts connections, enters them in `clients`
and pushes them on `client_queue`; the workers take them from there and run
`handle_conn`; a signal (`handle_signal`) or the kill listener (`kill_server`)
clears `server_alive`.

One step is one access to shared state. `queue_mutex` is explicit, since a
worker holds it while it evaluates the wait predicate; the critical sections
of `clients_mutex` hold a single operation on the map each and are one step.
`park` is the atomic unlock-and-sleep of `queue_cv.wait`; a sleeping worker is
woken only by a notify issued while it sleeps, and then locks again.

`accept` returns any descriptor that is not open. The descriptors do not tell
connections apart, so every connection carries a number of its own (`id`), a
ghost: `opened fd` is the connection an open accepted socket belongs to, and
`clients fd` the connection its entry was made for. `erase` and `close` go by
the descriptor alone, as in the source. `counted`, `uncounted` and `returned`
are ghosts too: the connections for which `++live_connections` and
`--live_connections` ran, and how `handle_conn` returned.

`handle_conn` may fail in the key exchange, refuse the login, or run the
session to its end; what happens inside these is not seen here. An exception
in the session ends the process and has no step.
-/
namespace Mefsc.L5

abbrev Conn := Handle

/-- Where `handle_conn` returns.
mirrors src/server/server.cpp:123, :134 and :184 -/
inductive Exit where
  | keyExchange | refused | served
  deriving DecidableEq, Repr

/-- Inside `handle_conn`: about to do what the name says.
mirrors src/server/server.cpp:113-184 -/
inductive Phase where
  | crypt | verify | refuse | session | erase | close | uncount
  deriving DecidableEq, Repr

/-- `test`, `park`, `check` and `pop` are under `queue_mutex`.
mirrors src/server/server.cpp:195-209 -/
inductive WorkerPc where
  | loop | lock | test | park | asleep | check | pop
  | handle (c : Conn) (ph : Phase)
  | exited
  deriving DecidableEq, Repr

/-- mirrors src/server/server.cpp:277-318 -/
inductive MainPc where
  | loop | accept
  | accepted (r : Option Conn)
  | timeout (c : Conn) | register (c : Conn) | push (c : Conn)
  | notify (c : Conn) | countTotal (c : Conn) | countLive (c : Conn)
  | leave | join
  deriving DecidableEq, Repr

/-- mirrors src/server/server.cpp:54-58 -/
inductive SignalPc where
  | idle | notify | shut
  deriving DecidableEq, Repr

/-- mirrors src/server/server.cpp:186-193 -/
inductive KillPc where
  | idle | shut | done
  deriving DecidableEq, Repr

structure Pool (ι : Type) where
  server_alive : Bool
  listening : Bool
  opened : Nat → Option Nat
  clients : Nat → Option Nat
  client_queue : List Conn
  queue_mutex : Option ι
  total_connections : Nat
  live_connections : Nat
  main : MainPc
  workers : ι → WorkerPc
  signal : SignalPc
  kill : KillPc
  next : Nat
  counted : List Nat
  uncounted : List Nat
  returned : List (Conn × Exit)

inductive MainAct (ι : Type) where
  | loop | accept (fd : Option Nat) | check | timeout (ok : Bool) | register | push
  | notifyOne (w : Option ι) | countTotal | countLive | notifyAll
  deriving DecidableEq, Repr

inductive WorkerAct where
  | loop | lock | test | park | check | pop
  | crypt (ok : Bool) | verify (ok : Bool) | refuse | session | erase | close | uncount
  deriving DecidableEq, Repr

inductive SignalAct where
  | store | notify | shut
  deriving DecidableEq, Repr

inductive KillAct where
  | store | shut
  deriving DecidableEq, Repr

inductive PoolAct (ι : Type) where
  | main (a : MainAct ι)
  | worker (w : ι) (a : WorkerAct)
  | signal (a : SignalAct)
  | kill (a : KillAct)
  deriving DecidableEq, Repr

namespace Pool

variable {ι : Type} [DecidableEq ι]

/-- Worker `w` moves on. -/
def at_ (s : Pool ι) (w : ι) (pc : WorkerPc) : Pool ι :=
  { s with workers := Function.update s.workers w pc }

/-- `queue_cv.notify_all()` -/
def wakeAll (s : Pool ι) : Pool ι :=
  { s with workers := fun w => if s.workers w = .asleep then .lock else s.workers w }

/-- `clients.erase(client_sock)` -/
def erase (s : Pool ι) (fd : Nat) : Pool ι :=
  { s with clients := Function.update s.clients fd none }

/-- `close(client_sock)` -/
def close (s : Pool ι) (fd : Nat) : Pool ι :=
  { s with opened := Function.update s.opened fd none }

/-- `--live_connections`, on a `size_t` -/
def uncount (s : Pool ι) (c : Conn) : Pool ι :=
  { s with live_connections := dec64 s.live_connections, uncounted := s.uncounted ++ [c.id] }

/-- `handle_conn` returns to the loop of `worker`. -/
def leave (s : Pool ι) (w : ι) (c : Conn) (x : Exit) : Pool ι :=
  { s.at_ w .loop with returned := s.returned ++ [(c, x)] }

/-- mirrors src/server/server.cpp:195-209 -/
def workerStep (s : Pool ι) (w : ι) : WorkerAct → Option (Pool ι)
  | .loop =>
    if s.workers w = .loop then some (s.at_ w (if s.server_alive then .lock else .exited)) else none
  | .lock =>
    if s.workers w = .lock ∧ s.queue_mutex = none then
      some { s.at_ w .test with queue_mutex := some w }
    else none
  | .test =>
    if s.workers w = .test then
      some (s.at_ w (if s.client_queue ≠ [] ∨ s.server_alive = false then .check else .park))
    else none
  | .park =>
    if s.workers w = .park then some { s.at_ w .asleep with queue_mutex := none } else none
  | .check =>
    if s.workers w = .check then
      if s.server_alive then some (s.at_ w .pop)
      else some { s.at_ w .exited with queue_mutex := none }
    else none
  | .pop =>
    match s.workers w, s.client_queue with
    | .pop, c :: cs =>
      some { s.at_ w (.handle c .crypt) with client_queue := cs, queue_mutex := none }
    | _, _ => none
  -- handle_conn, src/server/server.cpp:113-184
  | .crypt ok =>
    match s.workers w with
    | .handle c .crypt => some (if ok then s.at_ w (.handle c .verify) else s.leave w c .keyExchange)
    | _ => none
  | .verify ok =>
    match s.workers w with
    | .handle c .verify => some (s.at_ w (.handle c (if ok then .session else .refuse)))
    | _ => none
  | .refuse =>
    match s.workers w with
    | .handle c .refuse => some ((s.uncount c).leave w c .refused)
    | _ => none
  | .session =>
    match s.workers w with
    | .handle c .session => some (s.at_ w (.handle c .erase))
    | _ => none
  | .erase =>
    match s.workers w with
    | .handle c .erase => some ((s.erase c.fd).at_ w (.handle c .close))
    | _ => none
  | .close =>
    match s.workers w with
    | .handle c .close => some ((s.close c.fd).at_ w (.handle c .uncount))
    | _ => none
  | .uncount =>
    match s.workers w with
    | .handle c .uncount => some ((s.uncount c).leave w c .served)
    | _ => none

/-- mirrors src/server/server.cpp:277-318 -/
def mainStep [Fintype ι] (s : Pool ι) : MainAct ι → Option (Pool ι)
  | .loop =>
    if s.main = .loop then some { s with main := if s.server_alive then .accept else .leave } else none
  | .accept none => if s.main = .accept then some { s with main := .accepted none } else none
  | .accept (some fd) =>
    if s.main = .accept ∧ s.listening = true ∧ s.opened fd = none then
      some { s with opened := Function.update s.opened fd (some s.next), next := s.next + 1,
                    main := .accepted (some ⟨fd, s.next⟩) }
    else none
  | .check =>
    match s.main with
    | .accepted none => some { s with main := if s.server_alive then .loop else .leave }
    | .accepted (some c) =>
      if s.server_alive then some { s with main := .timeout c }
      else some { s.close c.fd with main := .leave }
    | _ => none
  | .timeout ok =>
    match s.main with
    | .timeout c =>
      if ok then some { s with main := .register c } else some { s.close c.fd with main := .loop }
    | _ => none
  | .register =>
    match s.main with
    | .register c =>
      some { s with clients := Function.update s.clients c.fd (some c.id), main := .push c }
    | _ => none
  | .push =>
    match s.main with
    | .push c =>
      if s.queue_mutex = none then
        some { s with client_queue := s.client_queue ++ [c], main := .notify c }
      else none
    | _ => none
  | .notifyOne none =>
    match s.main with
    | .notify c =>
      if ∀ w, s.workers w ≠ .asleep then some { s with main := .countTotal c } else none
    | _ => none
  | .notifyOne (some w) =>
    match s.main with
    | .notify c =>
      if s.workers w = .asleep then some { s.at_ w .lock with main := .countTotal c } else none
    | _ => none
  | .countTotal =>
    match s.main with
    | .countTotal c =>
      some { s with total_connections := inc64 s.total_connections, main := .countLive c }
    | _ => none
  | .countLive =>
    match s.main with
    | .countLive c =>
      some { s with live_connections := inc64 s.live_connections, main := .loop,
                    counted := s.counted ++ [c.id] }
    | _ => none
  | .notifyAll => if s.main = .leave then some { s.wakeAll with main := .join } else none

/-- mirrors src/server/server.cpp:54-58 -/
def signalStep (s : Pool ι) : SignalAct → Option (Pool ι)
  | .store => if s.signal = .idle then some { s with server_alive := false, signal := .notify } else none
  | .notify => if s.signal = .notify then some { s.wakeAll with signal := .shut } else none
  | .shut => if s.signal = .shut then some { s with listening := false, signal := .idle } else none

/-- mirrors src/server/server.cpp:186-193 -/
def killStep (s : Pool ι) : KillAct → Option (Pool ι)
  | .store => if s.kill = .idle then some { s with server_alive := false, kill := .shut } else none
  | .shut => if s.kill = .shut then some { s with listening := false, kill := .done } else none

def step [Fintype ι] (s : Pool ι) : PoolAct ι → Option (Pool ι)
  | .main a => s.mainStep a
  | .worker w a => s.workerStep w a
  | .signal a => s.signalStep a
  | .kill a => s.killStep a

def init : Pool ι where
  server_alive := true
  listening := true
  opened := fun _ => none
  clients := fun _ => none
  client_queue := []
  queue_mutex := none
  total_connections := 0
  live_connections := 0
  main := .loop
  workers := fun _ => .loop
  signal := .idle
  kill := .idle
  next := 0
  counted := []
  uncounted := []
  returned := []

/-! ## What a step can do -/

inductive WorkerMove (s : Pool ι) (w : ι) : WorkerAct → Pool ι → Prop where
  | loop (hw : s.workers w = .loop) :
      WorkerMove s w .loop (s.at_ w (if s.server_alive then .lock else .exited))
  | lock (hw : s.workers w = .lock) (hq : s.queue_mutex = none) :
      WorkerMove s w .lock { s.at_ w .test with queue_mutex := some w }
  | test (hw : s.workers w = .test) :
      WorkerMove s w .test
        (s.at_ w (if s.client_queue ≠ [] ∨ s.server_alive = false then .check else .park))
  | park (hw : s.workers w = .park) :
      WorkerMove s w .park { s.at_ w .asleep with queue_mutex := none }
  | check (hw : s.workers w = .check) (ha : s.server_alive = true) :
      WorkerMove s w .check (s.at_ w .pop)
  | exit (hw : s.workers w = .check) (ha : s.server_alive = false) :
      WorkerMove s w .check { s.at_ w .exited with queue_mutex := none }
  | pop (c : Conn) (cs : List Conn) (hw : s.workers w = .pop) (hq : s.client_queue = c :: cs) :
      WorkerMove s w .pop { s.at_ w (.handle c .crypt) with client_queue := cs, queue_mutex := none }
  | crypt (c : Conn) (hw : s.workers w = .handle c .crypt) :
      WorkerMove s w (.crypt true) (s.at_ w (.handle c .verify))
  | cryptFails (c : Conn) (hw : s.workers w = .handle c .crypt) :
      WorkerMove s w (.crypt false) (s.leave w c .keyExchange)
  | verify (c : Conn) (ok : Bool) (hw : s.workers w = .handle c .verify) :
      WorkerMove s w (.verify ok) (s.at_ w (.handle c (if ok then .session else .refuse)))
  | refuse (c : Conn) (hw : s.workers w = .handle c .refuse) :
      WorkerMove s w .refuse ((s.uncount c).leave w c .refused)
  | session (c : Conn) (hw : s.workers w = .handle c .session) :
      WorkerMove s w .session (s.at_ w (.handle c .erase))
  | erase (c : Conn) (hw : s.workers w = .handle c .erase) :
      WorkerMove s w .erase ((s.erase c.fd).at_ w (.handle c .close))
  | close (c : Conn) (hw : s.workers w = .handle c .close) :
      WorkerMove s w .close ((s.close c.fd).at_ w (.handle c .uncount))
  | uncount (c : Conn) (hw : s.workers w = .handle c .uncount) :
      WorkerMove s w .uncount ((s.uncount c).leave w c .served)

theorem workerStep_move {s s' : Pool ι} {w : ι} {a : WorkerAct} (hs : s.workerStep w a = some s') :
    s.WorkerMove w a s' := by
  cases a with
  | loop =>
    simp only [workerStep] at hs
    split at hs <;> cases hs
    exact .loop ‹_›
  | lock =>
    simp only [workerStep] at hs
    split at hs <;> cases hs
    rename_i h
    exact .lock h.1 h.2
  | test =>
    simp only [workerStep] at hs
    split at hs <;> cases hs
    exact .test ‹_›
  | park =>
    simp only [workerStep] at hs
    split at hs <;> cases hs
    exact .park ‹_›
  | check =>
    simp only [workerStep] at hs
    split at hs
    · rename_i hw
      split at hs <;> rename_i ha <;> cases hs
      · exact .check hw ha
      · exact .exit hw (by simpa using ha)
    · cases hs
  | pop =>
    simp only [workerStep] at hs
    split at hs <;> cases hs
    exact .pop _ _ ‹_› ‹_›
  | crypt ok =>
    simp only [workerStep] at hs
    split at hs <;> cases hs
    cases ok
    · exact .cryptFails _ ‹_›
    · exact .crypt _ ‹_›
  | verify ok =>
    simp only [workerStep] at hs
    split at hs <;> cases hs
    exact .verify _ ok ‹_›
  | refuse =>
    simp only [workerStep] at hs
    split at hs <;> cases hs
    exact .refuse _ ‹_›
  | session =>
    simp only [workerStep] at hs
    split at hs <;> cases hs
    exact .session _ ‹_›
  | erase =>
    simp only [workerStep] at hs
    split at hs <;> cases hs
    exact .erase _ ‹_›
  | close =>
    simp only [workerStep] at hs
    split at hs <;> cases hs
    exact .close _ ‹_›
  | uncount =>
    simp only [workerStep] at hs
    split at hs <;> cases hs
    exact .uncount _ ‹_›

inductive MainMove (s : Pool ι) : MainAct ι → Pool ι → Prop where
  | loop (hm : s.main = .loop) :
      MainMove s .loop { s with main := if s.server_alive then .accept else .leave }
  | acceptFails (hm : s.main = .accept) : MainMove s (.accept none) { s with main := .accepted none }
  | accept (fd : Nat) (hm : s.main = .accept) (ho : s.opened fd = none) :
      MainMove s (.accept (some fd))
        { s with opened := Function.update s.opened fd (some s.next), next := s.next + 1,
                 main := .accepted (some ⟨fd, s.next⟩) }
  | again (hm : s.main = .accepted none) :
      MainMove s .check { s with main := if s.server_alive then .loop else .leave }
  | check (c : Conn) (hm : s.main = .accepted (some c)) (ha : s.server_alive = true) :
      MainMove s .check { s with main := .timeout c }
  | stop (c : Conn) (hm : s.main = .accepted (some c)) (ha : s.server_alive = false) :
      MainMove s .check { s.close c.fd with main := .leave }
  | timeout (c : Conn) (hm : s.main = .timeout c) :
      MainMove s (.timeout true) { s with main := .register c }
  | timeoutFails (c : Conn) (hm : s.main = .timeout c) :
      MainMove s (.timeout false) { s.close c.fd with main := .loop }
  | register (c : Conn) (hm : s.main = .register c) :
      MainMove s .register
        { s with clients := Function.update s.clients c.fd (some c.id), main := .push c }
  | push (c : Conn) (hm : s.main = .push c) (hq : s.queue_mutex = none) :
      MainMove s .push { s with client_queue := s.client_queue ++ [c], main := .notify c }
  | notifyNone (c : Conn) (hm : s.main = .notify c) :
      MainMove s (.notifyOne none) { s with main := .countTotal c }
  | notifyOne (c : Conn) (w : ι) (hm : s.main = .notify c) (hw : s.workers w = .asleep) :
      MainMove s (.notifyOne (some w)) { s.at_ w .lock with main := .countTotal c }
  | countTotal (c : Conn) (hm : s.main = .countTotal c) :
      MainMove s .countTotal
        { s with total_connections := inc64 s.total_connections, main := .countLive c }
  | countLive (c : Conn) (hm : s.main = .countLive c) :
      MainMove s .countLive
        { s with live_connections := inc64 s.live_connections, main := .loop,
                 counted := s.counted ++ [c.id] }
  | notifyAll (hm : s.main = .leave) : MainMove s .notifyAll { s.wakeAll with main := .join }

theorem mainStep_move [Fintype ι] {s s' : Pool ι} {a : MainAct ι} (hs : s.mainStep a = some s') :
    s.MainMove a s' := by
  cases a with
  | loop =>
    simp only [mainStep] at hs
    split at hs <;> cases hs
    exact .loop ‹_›
  | accept o =>
    cases o with
    | none =>
      simp only [mainStep] at hs
      split at hs <;> cases hs
      exact .acceptFails ‹_›
    | some fd =>
      simp only [mainStep] at hs
      split at hs <;> cases hs
      rename_i h
      exact .accept fd h.1 h.2.2
  | check =>
    simp only [mainStep] at hs
    split at hs
    · cases hs
      exact .again ‹_›
    · split at hs <;> rename_i ha <;> cases hs
      · exact .check _ ‹_› ha
      · exact .stop _ ‹_› (by simpa using ha)
    · cases hs
  | timeout ok =>
    simp only [mainStep] at hs
    split at hs
    · cases ok <;> cases hs
      · exact .timeoutFails _ ‹_›
      · exact .timeout _ ‹_›
    · cases hs
  | register =>
    simp only [mainStep] at hs
    split at hs <;> cases hs
    exact .register _ ‹_›
  | push =>
    simp only [mainStep] at hs
    split at hs
    · split at hs <;> cases hs
      exact .push _ ‹_› ‹_›
    · cases hs
  | notifyOne o =>
    cases o with
    | none =>
      simp only [mainStep] at hs
      split at hs
      · split at hs <;> cases hs
        exact .notifyNone _ ‹_›
      · cases hs
    | some w =>
      simp only [mainStep] at hs
      split at hs
      · split at hs <;> cases hs
        exact .notifyOne _ w ‹_› ‹_›
      · cases hs
  | countTotal =>
    simp only [mainStep] at hs
    split at hs <;> cases hs
    exact .countTotal _ ‹_›
  | countLive =>
    simp only [mainStep] at hs
    split at hs <;> cases hs
    exact .countLive _ ‹_›
  | notifyAll =>
    simp only [mainStep] at hs
    split at hs <;> cases hs
    exact .notifyAll ‹_›

omit [DecidableEq ι] in
/-- The signal handler clears `server_alive`, wakes and shuts the socket. -/
theorem signalStep_cases {s s' : Pool ι} {a : SignalAct} (hs : s.signalStep a = some s') :
    (a = .store ∧ s' = { s with server_alive := false, signal := .notify }) ∨
    (a = .notify ∧ s' = { s.wakeAll with signal := .shut }) ∨
    (a = .shut ∧ s' = { s with listening := false, signal := .idle }) := by
  cases a <;> simp only [signalStep] at hs <;> split at hs <;> cases hs
  · exact .inl ⟨rfl, rfl⟩
  · exact .inr (.inl ⟨rfl, rfl⟩)
  · exact .inr (.inr ⟨rfl, rfl⟩)

omit [DecidableEq ι] in
theorem killStep_cases {s s' : Pool ι} {a : KillAct} (hs : s.killStep a = some s') :
    (a = .store ∧ s' = { s with server_alive := false, kill := .shut }) ∨
    (a = .shut ∧ s' = { s with listening := false, kill := .done }) := by
  cases a <;> simp only [killStep] at hs <;> split at hs <;> cases hs
  · exact .inl ⟨rfl, rfl⟩
  · exact .inr ⟨rfl, rfl⟩

end Pool

/-- The server process with a pool of workers `ι`. -/
def poolLTS (ι : Type) [DecidableEq ι] [Fintype ι] : LTS (Pool ι) (PoolAct ι) where
  init s := s = .init
  step s a s' := s.step a = some s'

/-- mirrors src/server/server.cpp:31 -/
abbrev POOL_SIZE : Nat := 8

theorem pool_size_pos : 0 < POOL_SIZE := by decide

/-- The worker of the runs below. -/
def firstWorker : Fin POOL_SIZE := ⟨0, pool_size_pos⟩

end Mefsc.L5
