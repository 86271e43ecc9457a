import Mefsc.L5Concurrency.Registry

/-!
# Counting and cleaning up

`live_connections` goes up in the accept loop and down in `handle_conn`.
`Ledger` relates the two counters and the lists of connections they were
changed for to where the connections are (`Registry`).

* `cleaned_iff`: a connection whose `handle_conn` has returned is closed,
  erased and taken off the count exactly when it was left by the last line.
  The two early returns keep the socket open and entered; the first of them
  does not touch the counter either. Hence a pool with nothing queued and
  nothing handled holds nothing exactly when all of them were left so (and
  `main` is not about to enter or count another one).
* `live_le_total`: the counter stays below `total_connections` in every run in
  which no worker takes a connection off the count before `main`, which pushes
  it first, has put it on.
-/
namespace Mefsc.L5

open Function

variable {ι : Type}

/-- The connection `main` has pushed and not yet counted. -/
def MainPc.counting : MainPc → Option Nat
  | .notify c | .countTotal c | .countLive c => some c.id
  | _ => none

/-- `total_connections` is one ahead. -/
def MainPc.ahead : MainPc → Nat
  | .countLive _ => 1
  | _ => 0

/-- It has been through the queue. -/
def pushed : Place (Option ι) Exit → Bool
  | .held (some _) | .queued | .lost _ _ | .released _ => true
  | .held none | .unborn | .discarded => false

/-- `--live_connections` ran for it. -/
def settled : Place (Option ι) Exit → Bool
  | .lost _ .refused | .released _ => true
  | _ => false

/-- `handle_conn` has returned. -/
def gone : Place (Option ι) Exit → Bool
  | .lost _ _ | .released _ => true
  | _ => false

/-- Where `handle_conn` leaves a connection. -/
def Exit.place (c : Conn) : Exit → Place (Option ι) Exit
  | .served => .released .served
  | x => .lost c x

namespace Pool

structure Ledger (s : Pool ι) (place : Places ι) : Prop where
  up : ∀ id, id ∈ s.counted ↔ pushed (place id) = true ∧ s.main.counting ≠ some id
  pending : ∀ id, s.main.counting = some id → pushed (place id) = true
  down : ∀ id, id ∈ s.uncounted ↔ settled (place id) = true
  upNodup : s.counted.Nodup
  downNodup : s.uncounted.Nodup
  returned : ∀ c x, (c, x) ∈ s.returned → place c.id = x.place c
  lost : ∀ id c x, place id = .lost c x → (c, x) ∈ s.returned
  live_lt : s.live_connections < 2 ^ 64
  live : (s.live_connections + s.uncounted.length) % 2 ^ 64 = s.counted.length % 2 ^ 64
  total : s.total_connections = (s.counted.length + s.main.ahead) % 2 ^ 64

theorem ledger_init : Ledger (init : Pool ι) fun _ => .unborn := by
  constructor <;> simp [init, pushed, settled, MainPc.counting, MainPc.ahead]

section
variable {s s' : Pool ι} {place : Places ι}

/-- A step that neither counts nor returns. -/
theorem Ledger.frame (L : s.Ledger place) (hc : s'.counted = s.counted)
    (hu : s'.uncounted = s.uncounted) (hr : s'.returned = s.returned)
    (hl : s'.live_connections = s.live_connections) (ht : s'.total_connections = s.total_connections)
    (hm : s'.main.counting = s.main.counting) (ha : s'.main.ahead = s.main.ahead) :
    s'.Ledger place where
  up := by rw [hc, hm]; exact L.up
  pending := by rw [hm]; exact L.pending
  down := by rw [hu]; exact L.down
  upNodup := by rw [hc]; exact L.upNodup
  downNodup := by rw [hu]; exact L.downNodup
  returned := by rw [hr]; exact L.returned
  lost := by rw [hr]; exact L.lost
  live_lt := by rw [hl]; exact L.live_lt
  live := by rw [hl, hu, hc]; exact L.live
  total := by rw [ht, hc, ha]; exact L.total

/-- A connection moves between places that the books do not tell apart. -/
theorem Ledger.replace (L : s.Ledger place) (id : Nat) (p : Place (Option ι) Exit)
    (hp : pushed p = pushed (place id)) (hs : settled p = settled (place id))
    (hg : gone (place id) = false) (hg' : gone p = false) : s.Ledger (update place id p) where
  up id' := by
    by_cases he : id' = id
    · subst he
      rw [update_self, hp]
      exact L.up id'
    · rw [update_of_ne he]
      exact L.up id'
  pending id' hid := by
    by_cases he : id' = id
    · subst he
      rw [update_self, hp]
      exact L.pending id' hid
    · rw [update_of_ne he]
      exact L.pending id' hid
  down id' := by
    by_cases he : id' = id
    · subst he
      rw [update_self, hs]
      exact L.down id'
    · rw [update_of_ne he]
      exact L.down id'
  upNodup := L.upNodup
  downNodup := L.downNodup
  returned c x hx := by
    have hpl := L.returned c x hx
    have he : c.id ≠ id := by
      rintro rfl
      rw [hpl] at hg
      cases x <;> simp [Exit.place, gone] at hg
    rw [update_of_ne he]
    exact hpl
  lost id' c x hx := by
    by_cases he : id' = id
    · subst he
      rw [update_self] at hx
      simp [hx, gone] at hg'
    · rw [update_of_ne he] at hx
      exact L.lost id' c x hx
  live_lt := L.live_lt
  live := L.live
  total := L.total

/-- `handle_conn` returns for `c`. -/
theorem Ledger.leave [DecidableEq ι] (L : s.Ledger place) {w : ι} {c : Conn} {x : Exit}
    (hg : gone (place c.id) = false) (hp : pushed (place c.id) = true) (hc : s'.counted = s.counted)
    (hr : s'.returned = s.returned) (ht : s'.total_connections = s.total_connections)
    (hm : s'.main = s.main)
    (hu : ∀ id, id ∈ s'.uncounted ↔ settled (update place c.id (x.place c) id) = true)
    (hn : s'.uncounted.Nodup) (hl : s'.live_connections < 2 ^ 64)
    (hs : (s'.live_connections + s'.uncounted.length) % 2 ^ 64 = s.counted.length % 2 ^ 64) :
    (s'.leave w c x).Ledger (update place c.id (x.place c)) where
  up id := by
    show id ∈ s'.counted ↔ _ ∧ s'.main.counting ≠ some id
    rw [hc, hm]
    by_cases he : id = c.id
    · subst he
      have hpx : pushed (x.place c : Place (Option ι) Exit) = true := by cases x <;> rfl
      rw [update_self, hpx]
      simpa [hp] using L.up c.id
    · rw [update_of_ne he]
      exact L.up id
  pending id hid := by
    by_cases he : id = c.id
    · subst he
      rw [update_self]
      cases x <;> rfl
    · rw [update_of_ne he]
      have hid' : s'.main.counting = some id := hid
      exact L.pending id (hm ▸ hid')
  down := hu
  upNodup := by
    show s'.counted.Nodup
    rw [hc]
    exact L.upNodup
  downNodup := hn
  returned d y hy := by
    have hy' : (d, y) ∈ s'.returned ++ [(c, x)] := hy
    rw [hr] at hy'
    rcases List.mem_append.mp hy' with hy | hy
    · have hpl := L.returned d y hy
      have he : d.id ≠ c.id := by
        intro he
        rw [← he, hpl] at hg
        cases y <;> simp [Exit.place, gone] at hg
      rw [update_of_ne he]
      exact hpl
    · obtain ⟨rfl, rfl⟩ : d = c ∧ y = x := by simpa using hy
      rw [update_self]
  lost id d y hy := by
    show (d, y) ∈ s'.returned ++ [(c, x)]
    rw [hr]
    by_cases he : id = c.id
    · subst he
      rw [update_self] at hy
      have hdy : d = c ∧ y = x := by
        cases x <;> simp only [Exit.place, Place.lost.injEq, reduceCtorEq] at hy
        · exact ⟨hy.1.symm, hy.2.symm⟩
        · exact ⟨hy.1.symm, hy.2.symm⟩
      obtain ⟨rfl, rfl⟩ := hdy
      exact List.mem_append_right _ (List.mem_singleton_self _)
    · rw [update_of_ne he] at hy
      exact List.mem_append_left _ (L.lost id d y hy)
  live_lt := hl
  live := by
    show (s'.live_connections + s'.uncounted.length) % 2 ^ 64 = s'.counted.length % 2 ^ 64
    rw [hc]
    exact hs
  total := by
    show s'.total_connections = (s'.counted.length + s'.main.ahead) % 2 ^ 64
    rw [hc, ht, hm]
    exact L.total

/-- With `--live_connections` before it. -/
theorem Ledger.uncount_leave [DecidableEq ι] (L : s.Ledger place) {w : ι} {c : Conn} {x : Exit}
    (hg : gone (place c.id) = false) (hp : pushed (place c.id) = true)
    (hx : settled (x.place c : Place (Option ι) Exit) = true) :
    ((s.uncount c).leave w c x).Ledger (update place c.id (x.place c)) := by
  have hset : settled (place c.id) = false := by
    cases hpl : place c.id with
    | lost d y => simp [hpl, gone] at hg
    | released y => simp [hpl, gone] at hg
    | _ => rfl
  have hnew : c.id ∉ s.uncounted := by
    rw [L.down, hset]
    simp
  refine L.leave hg hp rfl rfl rfl rfl ?_ ?_ (dec64_lt L.live_lt) ?_
  · intro id
    show id ∈ s.uncounted ++ [c.id] ↔ _
    by_cases he : id = c.id
    · subst he
      simp [hx]
    · rw [update_of_ne he, List.mem_append, ← L.down]
      simp [he]
  · show (s.uncounted ++ [c.id]).Nodup
    rw [List.nodup_append]
    exact ⟨L.downNodup, List.nodup_singleton _, fun a ha b hb => by
      obtain rfl : b = c.id := by simpa using hb
      exact fun he => hnew (he ▸ ha)⟩
  · show (dec64 s.live_connections + (s.uncounted ++ [c.id]).length) % 2 ^ 64 = _
    have h1 := L.live
    have h2 := dec64_mod L.live_lt
    rw [List.length_append, List.length_singleton]
    omega

/-- `main` passes a connection on before it counts it. -/
theorem Ledger.push (L : s.Ledger place) {c : Conn} (hm : s.main = .push c)
    (hp : place c.id = .held none) :
    Ledger { s with client_queue := s.client_queue ++ [c], main := .notify c }
      (update place c.id .queued) where
  up id := by
    have hup := L.up id
    rw [hm] at hup
    by_cases he : id = c.id
    · subst he
      rw [hp] at hup
      simpa [pushed, MainPc.counting] using hup
    · have hne : c.id ≠ id := Ne.symm he
      rw [update_of_ne he]
      simpa [MainPc.counting, hne] using hup
  pending id hid := by
    obtain rfl : c.id = id := by simpa [MainPc.counting] using hid
    rw [update_self]
    rfl
  down id := by
    by_cases he : id = c.id
    · subst he
      have hd := L.down c.id
      rw [hp] at hd
      rw [update_self]
      simpa [settled] using hd
    · rw [update_of_ne he]
      exact L.down id
  upNodup := L.upNodup
  downNodup := L.downNodup
  returned d x hx := by
    have hpl := L.returned d x hx
    have he : d.id ≠ c.id := by
      intro he
      rw [he, hp] at hpl
      cases x <;> cases hpl
    rw [update_of_ne he]
    exact hpl
  lost id d x hx := by
    have he : id ≠ c.id := by
      rintro rfl
      simp at hx
    rw [update_of_ne he] at hx
    exact L.lost id d x hx
  live_lt := L.live_lt
  live := L.live
  total := by
    have ht := L.total
    rw [hm] at ht
    exact ht

theorem Ledger.countTotal (L : s.Ledger place) {c : Conn} (hm : s.main = .countTotal c) :
    Ledger { s with total_connections := inc64 s.total_connections, main := .countLive c } place where
  up := by
    have hup := L.up
    rw [hm] at hup
    exact hup
  pending := by
    have hpe := L.pending
    rw [hm] at hpe
    exact hpe
  down := L.down
  upNodup := L.upNodup
  downNodup := L.downNodup
  returned := L.returned
  lost := L.lost
  live_lt := L.live_lt
  live := L.live
  total := by
    have ht := L.total
    rw [hm] at ht
    show inc64 s.total_connections = (s.counted.length + 1) % 2 ^ 64
    have ht' : s.total_connections = s.counted.length % 2 ^ 64 := ht
    rw [inc64_mod (by omega)]
    omega

theorem Ledger.countLive (L : s.Ledger place) {c : Conn} (hm : s.main = .countLive c) :
    Ledger { s with live_connections := inc64 s.live_connections, main := .loop,
                    counted := s.counted ++ [c.id] } place where
  up id := by
    have hup := L.up id
    rw [hm] at hup
    show id ∈ s.counted ++ [c.id] ↔ _
    by_cases he : id = c.id
    · subst he
      have hpe := L.pending c.id (by rw [hm]; rfl)
      simp [hpe, MainPc.counting]
    · have hne : c.id ≠ id := Ne.symm he
      simpa [MainPc.counting, he, hne] using hup
  pending id hid := by simp [MainPc.counting] at hid
  down := L.down
  upNodup := by
    have hnew : c.id ∉ s.counted := by
      rw [L.up, hm]
      simp [MainPc.counting]
    show (s.counted ++ [c.id]).Nodup
    rw [List.nodup_append]
    exact ⟨L.upNodup, List.nodup_singleton _, fun a ha b hb => by
      obtain rfl : b = c.id := by simpa using hb
      exact fun he => hnew (he ▸ ha)⟩
  downNodup := L.downNodup
  returned := L.returned
  lost := L.lost
  live_lt := inc64_lt L.live_lt
  live := by
    have hl := L.live
    show (inc64 s.live_connections + s.uncounted.length) % 2 ^ 64 = (s.counted ++ [c.id]).length % 2 ^ 64
    rw [inc64_mod L.live_lt, List.length_append, List.length_singleton]
    omega
  total := by
    have ht := L.total
    rw [hm] at ht
    have ht' : s.total_connections = (s.counted.length + 1) % 2 ^ 64 := ht
    show s.total_connections = ((s.counted ++ [c.id]).length + 0) % 2 ^ 64
    rw [List.length_append, List.length_singleton]
    omega

end

/-! ## Steps -/

section
variable [DecidableEq ι] {s s' : Pool ι} {place : Places ι}

omit [DecidableEq ι] in
/-- A worker's connection is where the custody says. -/
theorem place_handled (I : (s.custody place).Inv) {w : ι} {c : Conn} {ph : Phase}
    (hw : s.workers w = .handle c ph) : place c.id = .held (some w) := by
  refine I.held (some w) c ?_
  cases ph <;> simp [custody, gripsOf, hw, WorkerPc.grip, Grip.item]

theorem ledger_worker (I : (s.custody place).Inv) (L : s.Ledger place) {w : ι} {a : WorkerAct}
    (hs : s.workerStep w a = some s') : s'.Ledger (s.moved place (.worker w a)) := by
  cases workerStep_move hs with
  | loop | lock | test | park | check | exit | crypt | verify | session =>
    exact L.frame rfl rfl rfl rfl rfl rfl rfl
  | pop c cs hw hq =>
    have hp : place c.id = .queued := I.queued c (by simp [custody, hq])
    have hL := L.replace c.id (.held (some w)) (by rw [hp]; rfl) (by rw [hp]; rfl)
      (by rw [hp]; rfl) rfl
    simp only [moved, hq]
    exact hL.frame rfl rfl rfl rfl rfl rfl rfl
  | cryptFails c hw =>
    have hp := place_handled I hw
    simp only [moved, hw]
    refine L.leave (x := .keyExchange) (by rw [hp]; rfl) (by rw [hp]; rfl) rfl rfl rfl rfl ?_ L.downNodup L.live_lt
      L.live
    intro id
    by_cases he : id = c.id
    · subst he
      have hd := L.down c.id
      rw [hp] at hd
      rw [update_self]
      simpa [settled, Exit.place] using hd
    · rw [update_of_ne he]
      exact L.down id
  | refuse c hw =>
    have hp := place_handled I hw
    simp only [moved, hw]
    exact L.uncount_leave (x := .refused) (by rw [hp]; rfl) (by rw [hp]; rfl) rfl
  | erase c hw =>
    have hp := place_handled I hw
    have hL := L.replace c.id (.held (some w)) (by rw [hp]) (by rw [hp])
      (by rw [hp]; rfl) rfl
    simp only [moved, hw]
    exact hL.frame rfl rfl rfl rfl rfl rfl rfl
  | close c hw =>
    have hp := place_handled I hw
    have hL := L.replace c.id (.held (some w)) (by rw [hp]) (by rw [hp])
      (by rw [hp]; rfl) rfl
    simp only [moved, hw]
    exact hL.frame rfl rfl rfl rfl rfl rfl rfl
  | uncount c hw =>
    have hp := place_handled I hw
    simp only [moved, hw]
    exact L.uncount_leave (x := .served) (by rw [hp]; rfl) (by rw [hp]; rfl) rfl

omit [DecidableEq ι] in
theorem place_main (I : (s.custody place).Inv) {c : Conn} (hm : s.main.grip.item = some c) :
    place c.id = .held none := I.held none c hm

theorem ledger_main [Fintype ι] (I : (s.custody place).Inv) (L : s.Ledger place) {a : MainAct ι}
    (hs : s.mainStep a = some s') : s'.Ledger (s.moved place (.main a)) := by
  cases mainStep_move hs with
  | loop hm =>
    refine L.frame rfl rfl rfl rfl rfl ?_ ?_ <;> rw [hm] <;> cases s.server_alive <;> rfl
  | acceptFails hm =>
    exact L.frame rfl rfl rfl rfl rfl (by rw [hm]; rfl) (by rw [hm]; rfl)
  | accept fd hm ho =>
    have hp : place s.next = .unborn := I.unborn s.next (Nat.le_refl _)
    have hL := L.replace s.next (.held none) (by rw [hp]; rfl) (by rw [hp]; rfl)
      (by rw [hp]; rfl) rfl
    exact hL.frame rfl rfl rfl rfl rfl (by rw [hm]; rfl) (by rw [hm]; rfl)
  | again hm =>
    simp only [moved, hm]
    refine L.frame rfl rfl rfl rfl rfl ?_ ?_ <;> rw [hm] <;> cases s.server_alive <;> rfl
  | check c hm ha =>
    simp only [moved, hm, ha, if_true]
    exact L.frame rfl rfl rfl rfl rfl (by rw [hm]; rfl) (by rw [hm]; rfl)
  | stop c hm ha =>
    have hp := place_main I (c := c) (by rw [hm]; rfl)
    have hL := L.replace c.id .discarded (by rw [hp]; rfl) (by rw [hp]; rfl)
      (by rw [hp]; rfl) rfl
    simp only [moved, hm, ha, Bool.false_eq_true, if_false]
    exact hL.frame rfl rfl rfl rfl rfl (by rw [hm]; rfl) (by rw [hm]; rfl)
  | timeout c hm =>
    exact L.frame rfl rfl rfl rfl rfl (by rw [hm]; rfl) (by rw [hm]; rfl)
  | timeoutFails c hm =>
    have hp := place_main I (c := c) (by rw [hm]; rfl)
    have hL := L.replace c.id .discarded (by rw [hp]; rfl) (by rw [hp]; rfl)
      (by rw [hp]; rfl) rfl
    simp only [moved, hm]
    exact hL.frame rfl rfl rfl rfl rfl (by rw [hm]; rfl) (by rw [hm]; rfl)
  | register c hm =>
    have hp := place_main I (c := c) (by rw [hm]; rfl)
    have hL := L.replace c.id (.held none) (by rw [hp]) (by rw [hp])
      (by rw [hp]; rfl) rfl
    simp only [moved, hm]
    exact hL.frame rfl rfl rfl rfl rfl (by rw [hm]; rfl) (by rw [hm]; rfl)
  | push c hm =>
    simp only [moved, hm]
    exact L.push hm (place_main I (by rw [hm]; rfl))
  | notifyNone c hm =>
    exact L.frame rfl rfl rfl rfl rfl (by rw [hm]; rfl) (by rw [hm]; rfl)
  | notifyOne c w hm hw =>
    exact L.frame rfl rfl rfl rfl rfl (by rw [hm]; rfl) (by rw [hm]; rfl)
  | countTotal c hm => exact L.countTotal hm
  | countLive c hm => exact L.countLive hm
  | notifyAll hm =>
    exact L.frame rfl rfl rfl rfl rfl (by rw [hm]; rfl) (by rw [hm]; rfl)

theorem ledger_step [Fintype ι] {a : PoolAct ι} (I : (s.custody place).Inv) (L : s.Ledger place)
    (hs : s.step a = some s') : s'.Ledger (s.moved place a) := by
  cases a with
  | main a => exact ledger_main I L hs
  | worker w a => exact ledger_worker I L hs
  | signal a =>
    rcases signalStep_cases hs with ⟨-, rfl⟩ | ⟨-, rfl⟩ | ⟨-, rfl⟩ <;>
      exact L.frame rfl rfl rfl rfl rfl rfl rfl
  | kill a =>
    rcases killStep_cases hs with ⟨-, rfl⟩ | ⟨-, rfl⟩ <;>
      exact L.frame rfl rfl rfl rfl rfl rfl rfl

end

/-- Custody and books, for one assignment of places. -/
def Kept (s : Pool ι) : Prop := ∃ place, (s.custody place).Inv ∧ s.Ledger place

theorem kept_invariant [DecidableEq ι] [Fintype ι] : (poolLTS ι).Invariant Kept where
  init s hs := by
    obtain rfl := hs
    exact ⟨_, custody_inv_init, ledger_init⟩
  step s a s' hk hs := by
    obtain ⟨place, I, L⟩ := hk
    exact ⟨_, custody_inv_step hs I, ledger_step I L hs⟩

/-! ## Cleaning up -/

/-- The socket is closed, its entry erased, and it was taken off the count
once. -/
structure Cleaned (s : Pool ι) (c : Conn) : Prop where
  closed : s.opened c.fd ≠ some c.id
  erased : s.clients c.fd ≠ some c.id
  uncounted : s.uncounted.count c.id = 1

/-- No accepted socket is open, `clients` is empty and the counter is 0. -/
structure AllReleased (s : Pool ι) : Prop where
  opened : ∀ fd, s.opened fd = none
  clients : ∀ fd, s.clients fd = none
  live : s.live_connections = 0

/-- `main` has no connection in its hands, nor one left to count. -/
def MainQuiet (s : Pool ι) : Prop := s.main.grip = .idle ∧ s.main.counting = none

section
variable {s : Pool ι} {place : Places ι}

theorem cleaned_of_kept (I : (s.custody place).Inv) (L : s.Ledger place) {c : Conn} {x : Exit}
    (hx : (c, x) ∈ s.returned) : s.Cleaned c ↔ x = .served := by
  have hp := L.returned c x hx
  constructor
  · intro hc
    by_contra hne
    have hlost : place c.id = .lost c x := by cases x <;> first | exact hp | exact absurd rfl hne
    exact hc.closed (I.lost c.id c x hlost).2.1
  · rintro rfl
    have hno : s.opened c.fd ≠ some c.id := by
      intro ho
      have horig := I.origin c.fd c.id ho
      have hpl : (s.custody place).place c.id = .released .served := hp
      rw [hpl] at horig
      exact horig
    refine ⟨hno, fun he => hno (I.keys c.fd c.id he), ?_⟩
    refine List.count_eq_one_of_mem L.downNodup ((L.down c.id).mpr ?_)
    rw [hp]
    rfl

/-- Nothing is queued and nothing is in `handle_conn`. -/
def Unoccupied (s : Pool ι) : Prop := s.client_queue = [] ∧ ∀ w c ph, s.workers w ≠ .handle c ph

/-- Then whatever was pushed has been through `handle_conn`. -/
theorem gone_of_unoccupied (I : (s.custody place).Inv) (hu : s.Unoccupied) (id : Nat)
    (hp : pushed (place id) = true) : gone (place id) = true := by
  obtain ⟨hq, hw⟩ := hu
  cases hpl : place id with
  | held h =>
    cases h with
    | none => simp [hpl, pushed] at hp
    | some w =>
      obtain ⟨c, hc, -⟩ := I.holder id (some w) hpl
      exfalso
      have hc' : (s.workers w).grip.item = some c := hc
      cases hpc : s.workers w with
      | handle d ph => exact hw w d ph hpc
      | _ => simp [hpc, WorkerPc.grip, Grip.item] at hc'
  | queued =>
    obtain ⟨c, hc, -⟩ := I.member id hpl
    have hc' : c ∈ s.client_queue := hc
    simp [hq] at hc'
  | unborn => simp [hpl, pushed] at hp
  | discarded => simp [hpl, pushed] at hp
  | lost c x => rfl
  | released x => rfl

/-- The pool holds nothing. -/
theorem allReleased_of_kept (I : (s.custody place).Inv) (L : s.Ledger place) (hu : s.Unoccupied)
    (hm : s.MainQuiet) (hall : ∀ c x, (c, x) ∈ s.returned → x = .served) : s.AllReleased := by
  have hserved : ∀ id, pushed (place id) = true → settled (place id) = true := by
    intro id hp
    have hg := gone_of_unoccupied I hu id hp
    cases hpl : place id with
    | lost c x =>
      have hx := hall c x (L.lost id c x hpl)
      subst hx
      obtain ⟨hid, -, -⟩ := I.lost id c .served hpl
      have hp' := L.returned c .served (L.lost id c .served hpl)
      rw [hid, hpl] at hp'
      cases hp'
    | released x => rfl
    | _ => simp [hpl, gone] at hg
  have hopen : ∀ fd, s.opened fd = none := by
    intro fd
    cases ho : s.opened fd with
    | none => rfl
    | some id =>
      exfalso
      have horig := I.origin fd id ho
      cases hpl : place id with
      | held h =>
        have hown : ((s.custody place).grip h).owned = some ⟨fd, id⟩ := by
          have hpl' : (s.custody place).place id = .held h := hpl
          rw [hpl'] at horig
          exact horig
        cases h with
        | none =>
          have hg : s.main.grip.owned = some ⟨fd, id⟩ := hown
          rw [hm.1] at hg
          cases hg
        | some w =>
          have hg := gone_of_unoccupied I hu id (by rw [hpl]; rfl)
          rw [hpl] at hg
          cases hg
      | queued =>
        have hg := gone_of_unoccupied I hu id (by rw [hpl]; rfl)
        rw [hpl] at hg
        cases hg
      | lost c x =>
        have hst := hserved id (by rw [hpl]; rfl)
        have hx := hall c x (L.lost id c x hpl)
        subst hx
        rw [hpl] at hst
        cases hst
      | unborn | discarded | released =>
        have hpl' : (s.custody place).place id = _ := hpl
        rw [hpl'] at horig
        exact horig
  refine ⟨hopen, ?_, ?_⟩
  · intro fd
    cases hc : s.clients fd with
    | none => rfl
    | some id =>
      have ho : s.opened fd = some id := I.keys fd id hc
      rw [hopen fd] at ho
      cases ho
  · -- the same connections were put on the count and taken off it
    have hsame : ∀ id, id ∈ s.counted ↔ id ∈ s.uncounted := by
      intro id
      rw [L.up, L.down, hm.2]
      constructor
      · rintro ⟨hp, -⟩
        exact hserved id hp
      · intro hst
        refine ⟨?_, by simp⟩
        cases hpl : place id <;> simp_all [settled, pushed]
    have hlen : s.counted.length = s.uncounted.length :=
      ((List.perm_ext_iff_of_nodup L.upNodup L.downNodup).mpr hsame).length_eq
    have h1 := L.live
    have h2 := L.live_lt
    omega

/-- A pool that holds nothing has lost nothing. -/
theorem quiet_of_allReleased (I : (s.custody place).Inv) (L : s.Ledger place) (hu : s.Unoccupied)
    (hr : s.AllReleased) : s.MainQuiet ∧ ∀ c x, (c, x) ∈ s.returned → x = .served := by
  have hnot : ∀ id c x, place id ≠ .lost c x := by
    intro id c x hpl
    have ho := (I.lost id c x hpl).2.1
    have ho' : s.opened c.fd = some c.id := ho
    rw [hr.opened c.fd] at ho'
    cases ho'
  have hgrip : s.main.grip = .idle := by
    have hown : ∀ c, s.main.grip.owned ≠ some c := by
      intro c hc
      have ho : s.opened c.fd = some c.id := I.owned none c hc
      rw [hr.opened c.fd] at ho
      cases ho
    cases hg : s.main.grip with
    | idle => rfl
    | closed c =>
      unfold MainPc.grip at hg
      split at hg <;> cases hg
    | fresh c | entered c | erased c => exact absurd (by rw [hg]; rfl) (hown c)
  have hrel : ∀ id, pushed (place id) = true → settled (place id) = true := by
    intro id hp
    have hg := gone_of_unoccupied I hu id hp
    cases hpl : place id with
    | lost c x => exact absurd hpl (hnot id c x)
    | released x => rfl
    | _ => simp [hpl, gone] at hg
  refine ⟨⟨hgrip, ?_⟩, ?_⟩
  · cases hc : s.main.counting with
    | none => rfl
    | some id =>
      -- one more was taken off the count than put on it
      exfalso
      have hnew : id ∉ s.counted := by
        rw [L.up, hc]
        simp
      have hsame : ∀ id', id' ∈ id :: s.counted ↔ id' ∈ s.uncounted := by
        intro id'
        rw [List.mem_cons, L.up, L.down, hc]
        constructor
        · rintro (rfl | ⟨hp, -⟩)
          · exact hrel id' (L.pending id' hc)
          · exact hrel id' hp
        · intro hst
          by_cases he : id' = id
          · exact .inl he
          · refine .inr ⟨?_, fun h => he (Option.some.inj h).symm⟩
            cases hpl : place id' <;> simp_all [settled, pushed]
      have hlen : (id :: s.counted).length = s.uncounted.length :=
        ((List.perm_ext_iff_of_nodup (List.nodup_cons.mpr ⟨hnew, L.upNodup⟩) L.downNodup).mpr
          hsame).length_eq
      have h1 := L.live
      rw [hr.live, ← hlen, List.length_cons] at h1
      omega
  · intro c x hx
    have hp := L.returned c x hx
    cases x with
    | served => rfl
    | keyExchange => exact absurd hp (hnot c.id c .keyExchange)
    | refused => exact absurd hp (hnot c.id c .refused)

end

end Pool

/-- A connection for which `handle_conn` has returned is closed, erased and
taken off the count exactly when `handle_conn` was left by its last line; and
when nothing is queued or handled, nothing is held exactly when all were, and
`main` has none in its hands. -/
theorem cleaned_iff {ι : Type} [DecidableEq ι] [Fintype ι] {s : Pool ι}
    (r : (poolLTS ι).Reachable s) :
    (∀ c x, (c, x) ∈ s.returned → (s.Cleaned c ↔ x = .served)) ∧
      (s.Unoccupied → (s.AllReleased ↔
        s.MainQuiet ∧ ∀ c x, (c, x) ∈ s.returned → x = .served)) := by
  obtain ⟨place, I, L⟩ := Pool.kept_invariant.reachable r
  refine ⟨fun c x hx => Pool.cleaned_of_kept I L hx, fun hu => ⟨?_, ?_⟩⟩
  · intro hr
    exact Pool.quiet_of_allReleased I L hu hr
  · rintro ⟨hm, hall⟩
    exact Pool.allReleased_of_kept I L hu hm hall

/-- `handle_conn` on the first worker, from its first line to its last. -/
def serveRun : List (PoolAct (Fin POOL_SIZE)) :=
  [.crypt true, .verify true, .session, .erase, .close, .uncount].map (.worker firstWorker)

theorem cleaned_iff_serveRun :
    ∃ s, (poolLTS (Fin POOL_SIZE)).Reachable s ∧ s.returned = [(⟨5, 0⟩, .served)] ∧
      s.Cleaned ⟨5, 0⟩ := by
  have hrun : ((takeIn 5 ++ pickUp 0 ++ serveRun).foldlM Pool.step Pool.init).map
      (fun s => s.returned) = some [(⟨5, 0⟩, .served)] := by decide
  obtain ⟨s, hs, he⟩ := Option.map_eq_some_iff.mp hrun
  have hr : (poolLTS (Fin POOL_SIZE)).Reachable s := .foldlM (fun _ _ _ h => h) (.init rfl) hs
  exact ⟨s, hr, he, ((cleaned_iff hr).1 ⟨5, 0⟩ .served (by simp [he])).mpr rfl⟩

/-- A client that hangs up in the key exchange. -/
def hangUpRun : List (PoolAct (Fin POOL_SIZE)) := [.worker firstWorker (.crypt false)]

/-- `handle_conn` returns, the socket stays open, entered and counted, and
nobody has it any more. -/
theorem key_exchange_leaks :
    ∃ s, (poolLTS (Fin POOL_SIZE)).Reachable s ∧ (⟨5, 0⟩, .keyExchange) ∈ s.returned ∧
      s.client_queue = [] ∧ (∀ w c ph, s.workers w ≠ .handle c ph) ∧
      s.opened 5 = some 0 ∧ s.clients 5 = some 0 ∧ s.live_connections = 1 ∧ ¬ s.Cleaned ⟨5, 0⟩ := by
  have hrun : ((takeIn 5 ++ pickUp 0 ++ hangUpRun).foldlM Pool.step Pool.init).map
      (fun s => ((s.returned, s.client_queue, s.live_connections), s.opened 5, s.clients 5,
        decide (∀ w, s.workers w = .loop))) =
      some (([(⟨5, 0⟩, .keyExchange)], [], 1), some 0, some 0, true) := by decide
  obtain ⟨s, hs, he⟩ := Option.map_eq_some_iff.mp hrun
  simp only [Prod.mk.injEq, decide_eq_true_eq] at he
  obtain ⟨⟨h1, h2, h3⟩, h4, h5, h6⟩ := he
  have hr : (poolLTS (Fin POOL_SIZE)).Reachable s := .foldlM (fun _ _ _ h => h) (.init rfl) hs
  refine ⟨s, hr, by simp [h1], h2, ?_, h4, h5, h3, fun hc => hc.closed h4⟩
  intro w c ph hw
  rw [h6 w] at hw
  cases hw

/-! ## The counters -/

/-- The connection this step takes off the count. -/
def Pool.uncounts (s : Pool ι) : PoolAct ι → Option Nat
  | .worker w .refuse | .worker w .uncount =>
    match s.workers w with
    | .handle c _ => some c.id
    | _ => none
  | _ => none

/-- A worker takes a connection off the count only when `main` is not still
between pushing and counting it, and `total_connections` does not overflow. -/
def Pool.inOrder [DecidableEq ι] (s : Pool ι) (a : PoolAct ι) : Prop :=
  (s.main.counting ≠ none → s.uncounts a ≠ s.main.counting) ∧
    (a = .main .countTotal → s.total_connections + 1 < 2 ^ 64)

instance [DecidableEq ι] (s : Pool ι) (a : PoolAct ι) : Decidable (s.inOrder a) :=
  inferInstanceAs (Decidable (_ ∧ _))

/-- What was taken off the count had been put on it. -/
structure Pool.Balanced (s : Pool ι) : Prop where
  sub : ∀ id ∈ s.uncounted, id ∈ s.counted
  lt : s.counted.length + s.main.ahead < 2 ^ 64

namespace Pool

variable [DecidableEq ι] {s s' : Pool ι}

theorem Balanced.worker (hk : s.Kept) (hb : s.Balanced) {w : ι} {a : WorkerAct}
    (ho : s.inOrder (.worker w a)) (hs : s.workerStep w a = some s') : s'.Balanced := by
  obtain ⟨place, I, L⟩ := hk
  have hcount : ∀ c ph, s.workers w = .handle c ph → s.uncounts (.worker w a) = some c.id →
      ∀ id ∈ s.uncounted ++ [c.id], id ∈ s.counted := by
    intro c ph hw hun id hid
    have hne : s.main.counting ≠ some c.id := by
      intro hc
      exact ho.1 (by simp [hc]) (by rw [hun, hc])
    rcases List.mem_append.mp hid with hid | hid
    · exact hb.sub id hid
    · obtain rfl : id = c.id := by simpa using hid
      refine (L.up c.id).mpr ⟨?_, hne⟩
      rw [place_handled I hw]
      rfl
  cases workerStep_move hs with
  | refuse c hw => exact ⟨hcount c _ hw (by simp [uncounts, hw]), hb.lt⟩
  | uncount c hw => exact ⟨hcount c _ hw (by simp [uncounts, hw]), hb.lt⟩
  | _ => exact ⟨hb.sub, hb.lt⟩

theorem Balanced.main [Fintype ι] (hk : s.Kept) (hb : s.Balanced) {a : MainAct ι}
    (ho : s.inOrder (.main a)) (hs : s.mainStep a = some s') : s'.Balanced := by
  obtain ⟨place, I, L⟩ := hk
  have hlt := hb.lt
  cases mainStep_move hs with
  | loop hm | again hm =>
    rw [hm] at hlt
    refine ⟨hb.sub, ?_⟩
    cases s.server_alive <;> exact hlt
  | countTotal c hm =>
    have ht := L.total
    rw [hm] at hlt ht
    have hlt' : s.counted.length < 2 ^ 64 := hlt
    have ht' : s.total_connections = s.counted.length % 2 ^ 64 := ht
    have ho' := ho.2 rfl
    refine ⟨hb.sub, ?_⟩
    show s.counted.length + 1 < 2 ^ 64
    omega
  | countLive c hm =>
    rw [hm] at hlt
    have hlt' : s.counted.length + 1 < 2 ^ 64 := hlt
    refine ⟨fun id hid => List.mem_append_left _ (hb.sub id hid), ?_⟩
    show (s.counted ++ [c.id]).length + 0 < 2 ^ 64
    rw [List.length_append, List.length_singleton]
    omega
  | acceptFails hm | accept fd hm | check c hm | stop c hm | timeout c hm | timeoutFails c hm
  | register c hm | push c hm | notifyNone c hm | notifyOne c w hm | notifyAll hm =>
    rw [hm] at hlt
    exact ⟨hb.sub, hlt⟩

theorem Balanced.step [Fintype ι] (hk : s.Kept) (hb : s.Balanced) {a : PoolAct ι}
    (ho : s.inOrder a) (hs : s.step a = some s') : s'.Balanced := by
  cases a with
  | main a => exact hb.main hk ho hs
  | worker w a => exact hb.worker hk ho hs
  | signal a =>
    rcases signalStep_cases hs with ⟨-, rfl⟩ | ⟨-, rfl⟩ | ⟨-, rfl⟩ <;> exact ⟨hb.sub, hb.lt⟩
  | kill a => rcases killStep_cases hs with ⟨-, rfl⟩ | ⟨-, rfl⟩ <;> exact ⟨hb.sub, hb.lt⟩

end Pool

/-- In every run in which connections are counted before they are taken off
the count, `live_connections` is at most `total_connections`. -/
theorem live_le_total {ι : Type} [DecidableEq ι] [Fintype ι] {s : Pool ι}
    (r : ((poolLTS ι).during Pool.inOrder).Reachable s) :
    s.live_connections ≤ s.total_connections := by
  obtain ⟨place, I, L⟩ := Pool.kept_invariant.reachable r.of_during
  have hb : s.Balanced := by
    refine Pool.kept_invariant.during ?_ ?_ r
    · rintro s rfl
      exact ⟨by simp [Pool.init], by simp [Pool.init, MainPc.ahead]⟩
    · intro s a s' hk ho hb hs
      exact hb.step hk ho hs
  have hle : s.uncounted.length ≤ s.counted.length :=
    (List.subperm_of_subset L.downNodup hb.sub).length_le
  have h1 := L.live
  have h2 := L.live_lt
  have h3 := L.total
  have h4 := hb.lt
  omega

theorem live_le_total_serveRun :
    ∃ s, ((poolLTS (Fin POOL_SIZE)).during Pool.inOrder).Reachable s ∧ s.uncounted = [0] ∧
      s.counted = [0, 1] ∧ s.live_connections ≤ s.total_connections := by
  have hrun : ((takeIn 5 ++ pickUp 0 ++ serveRun ++ takeIn 5).foldlM
      (fun (s : Pool (Fin POOL_SIZE)) a => if s.inOrder a then s.step a else none) Pool.init).map
      (fun s => (s.uncounted, s.counted)) = some ([0], [0, 1]) := by decide
  obtain ⟨s, hs, he⟩ := Option.map_eq_some_iff.mp hrun
  simp only [Prod.mk.injEq] at he
  have hr : ((poolLTS (Fin POOL_SIZE)).during Pool.inOrder).Reachable s := by
    refine .foldlM ?_ (.init rfl) hs
    intro t a t' ht
    split at ht
    · exact ⟨ht, ‹_›⟩
    · cases ht
  exact ⟨s, hr, he.1, he.2, live_le_total hr⟩

/-- `main` has pushed the socket; the worker serves it to the end before
`main` goes on. -/
def overtakeRun : List (PoolAct (Fin POOL_SIZE)) :=
  (takeIn 5).take 6 ++ pickUp firstWorker ++ serveRun

theorem overtaken_counter_wraps :
    ∃ s, (poolLTS (Fin POOL_SIZE)).Reachable s ∧ s.live_connections = 2 ^ 64 - 1 ∧
      s.total_connections = 0 ∧ ¬ s.live_connections ≤ s.total_connections := by
  have hrun : (overtakeRun.foldlM Pool.step Pool.init).map
      (fun s => (s.live_connections, s.total_connections)) = some (2 ^ 64 - 1, 0) := by decide
  obtain ⟨s, hs, he⟩ := Option.map_eq_some_iff.mp hrun
  simp only [Prod.mk.injEq] at he
  have hr : (poolLTS (Fin POOL_SIZE)).Reachable s := .foldlM (fun _ _ _ h => h) (.init rfl) hs
  refine ⟨s, hr, he.1, he.2, ?_⟩
  rw [he.1, he.2]
  decide

end Mefsc.L5
