import Mathlib.Data.List.Perm.Basic
import Mathlib.Data.List.Nodup
import Mefsc.Core.Bytes
import Mefsc.Core.Lts

/-!
# `TwoSlotBuffer` and its writer thread

`include/common/TwoSlotBuffer.h`: two slots, a queue of free and a queue of
ready slot numbers, one producer (the thread that receives chunks) and one
consumer (the thread that writes them to the file). The member functions run
under the mutex; the slots are filled and drained outside it, byte by byte, so
a producer that stored into the slot being written would be seen here.

A thread whose wait predicate is false goes to sleep and is woken only by a
notify issued while it sleeps. The producer may take a slot and call `finish`
without publishing it (the error exits), and joins the consumer at the end.

`joined_file`: when the writer has been joined, the bytes appended to the file
are the published chunks in order, whatever the interleaving. The handlers
therefore use `writerOutput`.
-/
namespace Mefsc.L2

/-- mirrors include/common/TwoSlotBuffer.h:67-78 -/
structure TwoSlotBuffer where
  slots_ : Fin 2 → Bytes
  len_ : Fin 2 → Nat
  producer_slot_ : Option (Fin 2)
  consumer_slot_ : Option (Fin 2)
  free_ : List (Fin 2)
  ready_ : List (Fin 2)
  done_ : Bool

namespace TwoSlotBuffer

/-- mirrors include/common/TwoSlotBuffer.h:13-19 -/
def new (slot_capacity : Nat) : TwoSlotBuffer where
  slots_ := fun _ => List.replicate slot_capacity 0
  len_ := fun _ => 0
  producer_slot_ := none
  consumer_slot_ := none
  free_ := [0, 1]
  ready_ := []
  done_ := false

/-- `none`: the predicate is false and the caller sleeps.
mirrors include/common/TwoSlotBuffer.h:26-32 -/
def nextWritable (b : TwoSlotBuffer) : Option TwoSlotBuffer :=
  match b.free_ with
  | [] => none
  | i :: fs => some { b with producer_slot_ := some i, free_ := fs }

/-- mirrors include/common/TwoSlotBuffer.h:34-39 -/
def publish (b : TwoSlotBuffer) (filled_len : Nat) : TwoSlotBuffer :=
  match b.producer_slot_ with
  | none => b
  | some i =>
    { b with len_ := fun j => if j = i then filled_len else b.len_ j, ready_ := b.ready_ ++ [i] }

/-- mirrors include/common/TwoSlotBuffer.h:41-45 -/
def finish (b : TwoSlotBuffer) : TwoSlotBuffer := { b with done_ := true }

inductive Waited where
  | sleep
  | null
  | slot (len : Nat) (b : TwoSlotBuffer)

/-- mirrors include/common/TwoSlotBuffer.h:47-59 -/
def waitReady (b : TwoSlotBuffer) : Waited :=
  match b.ready_ with
  | [] => if b.done_ then .null else .sleep
  | i :: rs => .slot (b.len_ i) { b with consumer_slot_ := some i, ready_ := rs }

/-- mirrors include/common/TwoSlotBuffer.h:61-65 -/
def doneWith (b : TwoSlotBuffer) : TwoSlotBuffer :=
  match b.consumer_slot_ with
  | none => b
  | some i => { b with free_ := b.free_ ++ [i] }

/-- A store into the producer's slot, outside the lock. -/
def store (b : TwoSlotBuffer) (off : Nat) (x : UInt8) : TwoSlotBuffer :=
  match b.producer_slot_ with
  | none => b
  | some i => { b with slots_ := fun j => if j = i then (b.slots_ j).set off x else b.slots_ j }

/-- The chunk a slot holds. -/
def chunk (b : TwoSlotBuffer) (i : Fin 2) : Bytes := (b.slots_ i).take (b.len_ i)

end TwoSlotBuffer

open TwoSlotBuffer

/-! ## The two threads -/

/-- Producer: between calls, inside `next_writable` (about to test the
predicate, or asleep on `cv_free_`), holding a slot, past `finish`, past
`join`. -/
inductive PPc where
  | run | trying | asleep | holding | finished | joined
  deriving DecidableEq, Repr

/-- Consumer: between calls, inside `wait_ready`, writing the `len` bytes of
its slot to the file (`pos` done), or exited. -/
inductive CPc where
  | run | trying | asleep
  | writing (len pos : Nat)
  | exited
  deriving DecidableEq, Repr

/-- `published` records the content of each slot when it was published. -/
structure Pipe where
  buf : TwoSlotBuffer
  p : PPc
  c : CPc
  file : Bytes
  published : List Bytes

inductive PipeAct where
  | callNext | tryNext | store (off : Nat) (x : UInt8) | publish (len : Nat) | finish | join
  | callWait | tryWait | write | doneWith
  deriving DecidableEq, Repr

def wakeP (p : PPc) : PPc := if p = .asleep then .trying else p

def wakeC (c : CPc) : CPc := if c = .asleep then .trying else c

/-- mirrors src/server/read_write_handlers.cpp:162-213 and
src/client/authed_entry.cpp:283-335 (the calls the two threads make) -/
def Pipe.step (cap : Nat) (s : Pipe) : PipeAct → Option Pipe
  | .callNext => if s.p = .run then some { s with p := .trying } else none
  | .tryNext =>
    if s.p = .trying then
      match s.buf.nextWritable with
      | none => some { s with p := .asleep }
      | some b => some { s with buf := b, p := .holding }
    else none
  | .store off x =>
    if s.p = .holding ∧ off < cap then some { s with buf := s.buf.store off x } else none
  | .publish len =>
    if s.p = .holding ∧ len ≤ cap then
      some { s with buf := s.buf.publish len, p := .run, c := wakeC s.c,
                    published := s.published ++
                      (s.buf.producer_slot_.map fun i => (s.buf.slots_ i).take len).toList }
    else none
  | .finish =>
    if s.p = .run ∨ s.p = .holding then
      some { s with buf := s.buf.finish, p := .finished, c := wakeC s.c }
    else none
  | .join => if s.p = .finished ∧ s.c = .exited then some { s with p := .joined } else none
  | .callWait => if s.c = .run then some { s with c := .trying } else none
  | .tryWait =>
    if s.c = .trying then
      match s.buf.waitReady with
      | .sleep => some { s with c := .asleep }
      | .null => some { s with c := .exited }
      | .slot len b => some { s with buf := b, c := .writing len 0 }
    else none
  | .write =>
    match s.c, s.buf.consumer_slot_ with
    | .writing len pos, some i =>
      if pos < len then
        some { s with c := .writing len (pos + 1), file := s.file ++ (s.buf.slots_ i)[pos]?.toList }
      else none
    | _, _ => none
  | .doneWith =>
    match s.c with
    | .writing len pos =>
      if pos = len then some { s with buf := s.buf.doneWith, c := .run, p := wakeP s.p } else none
    | _ => none

/-- The pipeline over a file that already holds `base`. -/
def pipeLTS (cap : Nat) (base : Bytes) : LTS Pipe PipeAct where
  init s := s = ⟨.new cap, .run, .run, base, []⟩
  step s a s' := s.step cap a = some s'

/-- What the joined writer has appended. -/
def writerOutput (published : List Bytes) : Bytes := published.flatten

/-! ## Invariant -/

namespace Pipe

/-- The slot the producer holds. -/
def heldP (b : TwoSlotBuffer) (p : PPc) : List (Fin 2) :=
  if p = .holding then b.producer_slot_.toList else []

/-- The slot the consumer holds. -/
def heldC (b : TwoSlotBuffer) : CPc → List (Fin 2)
  | .writing _ _ => b.consumer_slot_.toList
  | _ => []

/-- What is left to write of the consumer's slot. -/
def current (b : TwoSlotBuffer) : CPc → Bytes
  | .writing len pos =>
    match b.consumer_slot_ with
    | some i => ((b.slots_ i).take len).drop pos
    | none => []
  | _ => []

@[simp] theorem heldP_wakeP (b : TwoSlotBuffer) (p : PPc) : heldP b (wakeP p) = heldP b p := by
  cases p <;> simp [heldP, wakeP]

@[simp] theorem heldC_wakeC (b : TwoSlotBuffer) (c : CPc) : heldC b (wakeC c) = heldC b c := by
  cases c <;> simp [heldC, wakeC]

@[simp] theorem current_wakeC (b : TwoSlotBuffer) (c : CPc) : current b (wakeC c) = current b c := by
  cases c <;> simp [current, wakeC]

@[simp] theorem wakeC_writing (c : CPc) (len pos : Nat) :
    wakeC c = .writing len pos ↔ c = .writing len pos := by
  cases c <;> simp [wakeC]

@[simp] theorem wakeC_exited (c : CPc) : wakeC c = .exited ↔ c = .exited := by
  cases c <;> simp [wakeC]

theorem wakeP_eq_iff {p q : PPc} (h : q ≠ .asleep) (h' : q ≠ .trying) : wakeP p = q ↔ p = q := by
  cases p <;> cases q <;> simp_all [wakeP]

/-- The slots of the two queues and of the two threads. -/
def owners (b : TwoSlotBuffer) (p : PPc) (c : CPc) : List (Fin 2) :=
  b.free_ ++ b.ready_ ++ heldP b p ++ heldC b c

/-- No slot has two owners (and none is lost before `finish`), and the file,
the rest of the chunk being written and the ready chunks are what was
published. -/
structure Inv (cap : Nat) (base : Bytes) (s : Pipe) : Prop where
  own : (owners s.buf s.p s.c).Nodup
  full : s.buf.done_ = false → (owners s.buf s.p s.c).length = 2
  size : ∀ i, (s.buf.slots_ i).length = cap
  data : s.file ++ current s.buf s.c ++ (s.buf.ready_.map s.buf.chunk).flatten =
    base ++ s.published.flatten
  writing : ∀ len pos, s.c = .writing len pos → pos ≤ len ∧ len ≤ cap ∧ s.buf.consumer_slot_.isSome
  ready : ∀ i ∈ s.buf.ready_, s.buf.len_ i ≤ cap
  holding : s.p = .holding → s.buf.producer_slot_.isSome
  done : s.buf.done_ = true ↔ s.p = .finished ∨ s.p = .joined
  exited : s.c = .exited → s.buf.ready_ = [] ∧ s.buf.done_ = true
  joined : s.p = .joined → s.c = .exited

theorem inv_init (cap : Nat) (base : Bytes) : Inv cap base ⟨.new cap, .run, .run, base, []⟩ where
  own := by simp [owners, heldP, heldC, new]
  full := by simp [owners, heldP, heldC, new]
  size := by simp [new]
  data := by simp [current, new]
  writing := by simp
  ready := by simp [new]
  holding := by simp
  done := by simp [new]
  exited := by simp
  joined := by simp

variable {cap : Nat} {base : Bytes} {s : Pipe}

/-- The producer's slot belongs to nobody else. -/
theorem Inv.producer_alone (hi : Inv cap base s) (hp : s.p = .holding) {i : Fin 2}
    (hs : s.buf.producer_slot_ = some i) : i ∉ s.buf.ready_ ∧ i ∉ heldC s.buf s.c := by
  have hn := hi.own
  simp only [owners, heldP, hp, if_true, hs, Option.toList_some, List.append_assoc, List.nodup_append,
    List.nodup_cons, List.mem_append, List.mem_cons] at hn
  grind

/-- Steps of the producer that take no slot and move no data. -/
theorem inv_quietP (hi : Inv cap base s) {p : PPc} (hs : s.p = .run ∨ s.p = .trying)
    (hp : p = .trying ∨ p = .asleep) : Inv cap base { s with p := p } := by
  have ho : owners s.buf p s.c = owners s.buf s.p s.c := by
    rcases hs with hs | hs <;> rcases hp with rfl | rfl <;> simp [owners, heldP, hs]
  constructor
  case own => exact ho ▸ hi.own
  case full => exact fun h => ho ▸ hi.full h
  case holding => rcases hp with rfl | rfl <;> simp
  case done =>
    have h := hi.done
    rcases hs with hs | hs <;> rcases hp with rfl | rfl <;> simpa [hs] using h
  case joined => rcases hp with rfl | rfl <;> simp
  · exact hi.size
  · exact hi.data
  · exact hi.writing
  · exact hi.ready
  · exact hi.exited

theorem inv_take (hi : Inv cap base s) (hp : s.p = .trying) {i : Fin 2} {fs : List (Fin 2)}
    (hf : s.buf.free_ = i :: fs) :
    Inv cap base
      { s with buf := { s.buf with producer_slot_ := some i, free_ := fs }, p := .holding } := by
  have hheld : heldC { s.buf with producer_slot_ := some i, free_ := fs } s.c = heldC s.buf s.c := by
    cases s.c <;> simp [heldC]
  have ho : (owners { s.buf with producer_slot_ := some i, free_ := fs } .holding s.c).Perm
      (owners s.buf s.p s.c) := by
    rw [owners, hheld]
    simp only [owners, heldP, hp, hf, reduceCtorEq, if_false, if_true, Option.toList_some,
      List.append_nil, List.append_assoc, List.cons_append, List.nil_append]
    rw [← List.append_assoc fs, ← List.append_assoc fs]
    exact List.perm_middle
  constructor
  case own => exact ho.nodup_iff.mpr hi.own
  case full => exact fun h => ho.length_eq.trans (hi.full h)
  case holding => simp
  case done => simpa [hp] using hi.done
  case joined => simp
  · exact hi.size
  · exact hi.data
  · exact hi.writing
  · exact hi.ready
  · exact hi.exited

theorem inv_store (hi : Inv cap base s) (hp : s.p = .holding) (off : Nat) (x : UInt8) :
    Inv cap base { s with buf := s.buf.store off x } := by
  obtain ⟨i, hs⟩ := Option.isSome_iff_exists.mp (hi.holding hp)
  obtain ⟨hr, hc⟩ := hi.producer_alone hp hs
  have e : s.buf.store off x =
      { s.buf with slots_ := fun j => if j = i then (s.buf.slots_ j).set off x else s.buf.slots_ j } := by
    simp [store, hs]
  -- no ready slot and not the consumer's slot changes
  have hready : s.buf.ready_.map (s.buf.store off x).chunk = s.buf.ready_.map s.buf.chunk := by
    apply List.map_congr_left
    intro j hj
    have hne : j ≠ i := by rintro rfl; exact hr hj
    simp [e, chunk, hne]
  have hcur : current (s.buf.store off x) s.c = current s.buf s.c := by
    cases hsc : s.c <;> cases hcs : s.buf.consumer_slot_ <;> simp [current, e, hcs]
    rename_i j
    rw [if_neg]
    rintro rfl
    exact hc (by simp [heldC, hsc, hcs])
  have ho : owners (s.buf.store off x) s.p s.c = owners s.buf s.p s.c := by
    cases s.c <;> simp [owners, heldP, heldC, e]
  constructor
  case own => exact ho ▸ hi.own
  case full =>
    intro h
    exact ho ▸ hi.full (by simpa [e] using h)
  case size =>
    intro j
    by_cases h : j = i <;> simp [e, h, hi.size]
  case data =>
    rw [hcur, show (s.buf.store off x).ready_ = s.buf.ready_ by simp [e], hready]
    exact hi.data
  all_goals simp only [e]
  · exact hi.writing
  · exact hi.ready
  · exact hi.holding
  · exact hi.done
  · exact hi.exited
  · exact hi.joined

theorem inv_publish (hi : Inv cap base s) (hp : s.p = .holding) {len : Nat} (hl : len ≤ cap) :
    Inv cap base { s with buf := s.buf.publish len, p := .run, c := wakeC s.c,
                          published := s.published ++
                            (s.buf.producer_slot_.map fun i => (s.buf.slots_ i).take len).toList } := by
  obtain ⟨i, hs⟩ := Option.isSome_iff_exists.mp (hi.holding hp)
  obtain ⟨hr, hc⟩ := hi.producer_alone hp hs
  have e : s.buf.publish len = { s.buf with
      len_ := fun j => if j = i then len else s.buf.len_ j, ready_ := s.buf.ready_ ++ [i] } := by
    simp [publish, hs]
  have hready : s.buf.ready_.map (s.buf.publish len).chunk = s.buf.ready_.map s.buf.chunk := by
    apply List.map_congr_left
    intro j hj
    have hne : j ≠ i := by rintro rfl; exact hr hj
    simp [e, chunk, hne]
  have hcur : current (s.buf.publish len) s.c = current s.buf s.c := by
    cases s.c <;> simp [current, e]
  have hheld : heldC (s.buf.publish len) s.c = heldC s.buf s.c := by cases s.c <;> simp [heldC, e]
  have ho : owners (s.buf.publish len) .run (wakeC s.c) = owners s.buf s.p s.c := by
    rw [owners, heldC_wakeC, hheld]
    simp [owners, heldP, hp, hs, e]
  constructor
  case own => exact ho ▸ hi.own
  case full =>
    intro h
    exact ho ▸ hi.full (by simpa [e] using h)
  case size => simpa [e] using hi.size
  case data =>
    have hd := hi.data
    simp only [current_wakeC, hcur, show (s.buf.publish len).ready_ = s.buf.ready_ ++ [i] by simp [e],
      List.map_append, hready, List.flatten_append, hs, Option.map_some, Option.toList_some]
    rw [← List.append_assoc, hd]
    simp [chunk, e]
  case writing => simpa [e] using hi.writing
  case ready =>
    intro j hj
    simp only [e, List.mem_append, List.mem_singleton] at hj ⊢
    by_cases h : j = i
    · simp [h, hl]
    · simpa [h] using hi.ready j (by simpa [h] using hj)
  case holding => simp
  case done => simpa [e, hp] using hi.done
  case exited =>
    intro h
    -- an exited consumer means `finish` was called, so the producer holds no slot
    have hd := hi.done.mp (hi.exited (by simpa using h)).2
    simp [hp] at hd
  case joined => simp

/-- The error exits: a slot that is held here is never published. -/
theorem inv_finish (hi : Inv cap base s) :
    Inv cap base { s with buf := s.buf.finish, p := .finished, c := wakeC s.c } := by
  have hheld : heldC s.buf.finish s.c = heldC s.buf s.c := by cases s.c <;> simp [heldC, finish]
  have ho : (owners s.buf.finish .finished (wakeC s.c)).Sublist (owners s.buf s.p s.c) := by
    rw [owners, heldC_wakeC, hheld]
    simp [owners, heldP, finish]
  constructor
  case own => exact ho.nodup hi.own
  case full => simp [finish]
  case size => simpa [finish] using hi.size
  case data =>
    have hcur : current s.buf.finish s.c = current s.buf s.c := by cases s.c <;> simp [current, finish]
    rw [current_wakeC, hcur]
    exact hi.data
  case writing => simpa [finish] using hi.writing
  case ready => simpa [finish] using hi.ready
  case holding => simp
  case done => simp [finish]
  case exited =>
    intro h
    exact ⟨(hi.exited (by simpa using h)).1, rfl⟩
  case joined => simp

theorem inv_join (hi : Inv cap base s) (hp : s.p = .finished) (hc : s.c = .exited) :
    Inv cap base { s with p := .joined } := by
  have ho : owners s.buf .joined s.c = owners s.buf s.p s.c := by simp [owners, heldP, hp]
  constructor
  case own => exact ho ▸ hi.own
  case full => exact fun h => ho ▸ hi.full h
  case holding => simp
  case done => simpa [hp] using hi.done
  case joined => exact fun _ => hc
  · exact hi.size
  · exact hi.data
  · exact hi.writing
  · exact hi.ready
  · exact hi.exited

/-- Steps of the consumer that take no slot: into the wait, to sleep, and out
of the loop once nothing is ready and `finish` was called. -/
theorem inv_quietC (hi : Inv cap base s) {c : CPc} (hs : s.c = .run ∨ s.c = .trying)
    (hc : c = .trying ∨ c = .asleep ∨ c = .exited ∧ s.buf.ready_ = [] ∧ s.buf.done_ = true) :
    Inv cap base { s with c := c } := by
  have hold : heldC s.buf s.c = [] ∧ current s.buf s.c = [] := by
    rcases hs with hs | hs <;> simp [hs, heldC, current]
  have hnew : heldC s.buf c = [] ∧ current s.buf c = [] := by
    rcases hc with rfl | rfl | ⟨rfl, -⟩ <;> simp [heldC, current]
  have ho : owners s.buf s.p c = owners s.buf s.p s.c := by rw [owners, owners, hold.1, hnew.1]
  constructor
  case own => exact ho ▸ hi.own
  case full => exact fun h => ho ▸ hi.full h
  case data =>
    have hd := hi.data
    rw [hold.2] at hd
    rw [hnew.2]
    exact hd
  case writing => rcases hc with rfl | rfl | ⟨rfl, -⟩ <;> simp
  case exited =>
    rintro rfl
    simpa using hc
  case joined =>
    intro h
    have hx := hi.joined h
    rcases hs with hs | hs <;> simp [hs] at hx
  · exact hi.size
  · exact hi.ready
  · exact hi.holding
  · exact hi.done

theorem inv_takeReady (hi : Inv cap base s) (hc : s.c = .trying) {i : Fin 2} {rs : List (Fin 2)}
    (hr : s.buf.ready_ = i :: rs) :
    Inv cap base { s with buf := { s.buf with consumer_slot_ := some i, ready_ := rs },
                          c := .writing (s.buf.len_ i) 0 } := by
  have ho : (owners { s.buf with consumer_slot_ := some i, ready_ := rs } s.p
      (.writing (s.buf.len_ i) 0)).Perm (owners s.buf s.p s.c) := by
    have hheld : heldP { s.buf with consumer_slot_ := some i, ready_ := rs } s.p = heldP s.buf s.p := by
      simp [heldP]
    rw [owners, hheld]
    simp only [owners, heldC, hc, hr, Option.toList_some, List.append_nil, List.append_assoc,
      List.cons_append]
    refine List.Perm.append_left _ ?_
    rw [← List.append_assoc]
    exact List.perm_append_singleton i _
  constructor
  case own => exact ho.nodup_iff.mpr hi.own
  case full => exact fun h => ho.length_eq.trans (hi.full h)
  case data =>
    have hd := hi.data
    simp only [hc, current, hr, List.map_cons, List.flatten_cons, List.append_nil] at hd
    rw [← List.append_assoc] at hd
    exact hd
  case writing =>
    intro len pos h
    cases h
    exact ⟨Nat.zero_le _, hi.ready i (by simp [hr]), rfl⟩
  case ready => exact fun j hj => hi.ready j (by simp [hr, hj])
  case exited => simp
  case joined =>
    intro h
    exact absurd (hi.joined h) (by simp [hc])
  · exact hi.size
  · exact hi.holding
  · exact hi.done

theorem inv_write (hi : Inv cap base s) {len pos : Nat} (hc : s.c = .writing len pos)
    {i : Fin 2} (hs : s.buf.consumer_slot_ = some i) (hl : pos < len) :
    Inv cap base { s with c := .writing len (pos + 1),
                          file := s.file ++ (s.buf.slots_ i)[pos]?.toList } := by
  obtain ⟨-, hcap, -⟩ := hi.writing len pos hc
  have hp : pos < (s.buf.slots_ i).length := by rw [hi.size]; omega
  have ho : owners s.buf s.p (.writing len (pos + 1)) = owners s.buf s.p s.c := by
    simp [owners, heldC, hc]
  constructor
  case own => exact ho ▸ hi.own
  case full => exact fun h => ho ▸ hi.full h
  case data =>
    have hd := hi.data
    have hcons : ((s.buf.slots_ i).take len).drop pos =
        (s.buf.slots_ i)[pos]?.toList ++ ((s.buf.slots_ i).take len).drop (pos + 1) := by
      rw [List.drop_eq_getElem_cons (by simp; omega)]
      simp [hp]
    simp only [hc, current, hs, hcons] at hd
    simpa [current, hs] using hd
  case writing =>
    intro len' pos' h
    cases h
    exact ⟨hl, hcap, by simp [hs]⟩
  case exited => simp
  case joined =>
    intro h
    exact absurd (hi.joined h) (by simp [hc])
  · exact hi.size
  · exact hi.ready
  · exact hi.holding
  · exact hi.done

theorem inv_doneWith (hi : Inv cap base s) {len : Nat} (hc : s.c = .writing len len) :
    Inv cap base { s with buf := s.buf.doneWith, c := .run, p := wakeP s.p } := by
  obtain ⟨-, -, hsome⟩ := hi.writing len len hc
  obtain ⟨i, hs⟩ := Option.isSome_iff_exists.mp hsome
  have e : s.buf.doneWith = { s.buf with free_ := s.buf.free_ ++ [i] } := by simp [doneWith, hs]
  have hheld : heldP s.buf.doneWith s.p = heldP s.buf s.p := by simp [heldP, e]
  have ho : (owners s.buf.doneWith (wakeP s.p) .run).Perm (owners s.buf s.p s.c) := by
    rw [owners, heldP_wakeP, hheld]
    simp only [owners, heldC, hc, hs, e, Option.toList_some, List.append_nil, List.append_assoc,
      List.singleton_append]
    refine List.Perm.append_left _ ?_
    rw [← List.append_assoc s.buf.ready_]
    exact (List.perm_append_singleton i _).symm
  constructor
  case own => exact ho.nodup_iff.mpr hi.own
  case full => exact fun h => ho.length_eq.trans (hi.full (by simpa [e] using h))
  case data =>
    have hd := hi.data
    have hz : ((s.buf.slots_ i).take len).drop len = [] := by simp
    simp only [hc, current, hs, hz] at hd
    rw [e]
    exact hd
  case writing => simp
  case exited => simp
  case joined =>
    intro h
    rw [wakeP_eq_iff (by simp) (by simp)] at h
    exact absurd (hi.joined h) (by simp [hc])
  case holding =>
    intro h
    rw [wakeP_eq_iff (by simp) (by simp)] at h
    simpa [e] using hi.holding h
  case done =>
    rw [wakeP_eq_iff (by simp) (by simp), wakeP_eq_iff (by simp) (by simp)]
    simpa [e] using hi.done
  · simpa [e] using hi.size
  · simpa [e] using hi.ready

/-! ## Every step -/

/-- The steps, each with what it needs and what it leaves. -/
inductive StepTo (cap : Nat) (s : Pipe) : PipeAct → Pipe → Prop where
  | callNext (hp : s.p = .run) : StepTo cap s .callNext { s with p := .trying }
  | sleepP (hp : s.p = .trying) (hf : s.buf.free_ = []) : StepTo cap s .tryNext { s with p := .asleep }
  | take (hp : s.p = .trying) (i : Fin 2) (fs : List (Fin 2)) (hf : s.buf.free_ = i :: fs) :
    StepTo cap s .tryNext
      { s with buf := { s.buf with producer_slot_ := some i, free_ := fs }, p := .holding }
  | store (hp : s.p = .holding) (off : Nat) (x : UInt8) :
    StepTo cap s (.store off x) { s with buf := s.buf.store off x }
  | publish (hp : s.p = .holding) (len : Nat) (hl : len ≤ cap) : StepTo cap s (.publish len)
      { s with buf := s.buf.publish len, p := .run, c := wakeC s.c,
               published := s.published ++
                 (s.buf.producer_slot_.map fun i => (s.buf.slots_ i).take len).toList }
  | finish (hp : s.p = .run ∨ s.p = .holding) :
    StepTo cap s .finish { s with buf := s.buf.finish, p := .finished, c := wakeC s.c }
  | join (hp : s.p = .finished) (hc : s.c = .exited) : StepTo cap s .join { s with p := .joined }
  | callWait (hc : s.c = .run) : StepTo cap s .callWait { s with c := .trying }
  | sleepC (hc : s.c = .trying) (hr : s.buf.ready_ = []) (hd : s.buf.done_ = false) :
    StepTo cap s .tryWait { s with c := .asleep }
  | exit (hc : s.c = .trying) (hr : s.buf.ready_ = []) (hd : s.buf.done_ = true) :
    StepTo cap s .tryWait { s with c := .exited }
  | takeReady (hc : s.c = .trying) (i : Fin 2) (rs : List (Fin 2)) (hr : s.buf.ready_ = i :: rs) :
    StepTo cap s .tryWait { s with buf := { s.buf with consumer_slot_ := some i, ready_ := rs },
                                   c := .writing (s.buf.len_ i) 0 }
  | write (len pos : Nat) (hc : s.c = .writing len pos) (i : Fin 2) (hs : s.buf.consumer_slot_ = some i)
      (hl : pos < len) : StepTo cap s .write
      { s with c := .writing len (pos + 1), file := s.file ++ (s.buf.slots_ i)[pos]?.toList }
  | doneWith (len : Nat) (hc : s.c = .writing len len) :
    StepTo cap s .doneWith { s with buf := s.buf.doneWith, c := .run, p := wakeP s.p }

theorem step_to {s' : Pipe} {a : PipeAct} (h : s.step cap a = some s') : StepTo cap s a s' := by
  cases a with
  | callNext =>
    obtain ⟨hp, rfl⟩ : s.p = .run ∧ _ = s' := by simpa [step] using h
    exact .callNext hp
  | tryNext =>
    by_cases hp : s.p = .trying
    · cases hf : s.buf.free_ with
      | nil =>
        obtain rfl : _ = s' := by simpa [step, hp, nextWritable, hf] using h
        exact .sleepP hp hf
      | cons i fs =>
        obtain rfl : _ = s' := by simpa [step, hp, nextWritable, hf] using h
        exact .take hp i fs hf
    · simp [step, hp] at h
  | store off x =>
    obtain ⟨⟨hp, -⟩, rfl⟩ : (s.p = .holding ∧ off < cap) ∧ _ = s' := by simpa [step] using h
    exact .store hp off x
  | publish len =>
    obtain ⟨⟨hp, hl⟩, rfl⟩ : (s.p = .holding ∧ len ≤ cap) ∧ _ = s' := by simpa [step] using h
    exact .publish hp len hl
  | finish =>
    obtain ⟨hp, rfl⟩ : (s.p = .run ∨ s.p = .holding) ∧ _ = s' := by simpa [step] using h
    exact .finish hp
  | join =>
    obtain ⟨⟨hp, hc⟩, rfl⟩ : (s.p = .finished ∧ s.c = .exited) ∧ _ = s' := by simpa [step] using h
    exact .join hp hc
  | callWait =>
    obtain ⟨hc, rfl⟩ : s.c = .run ∧ _ = s' := by simpa [step] using h
    exact .callWait hc
  | tryWait =>
    by_cases hc : s.c = .trying
    · cases hr : s.buf.ready_ with
      | nil =>
        by_cases hd : s.buf.done_ = true
        · obtain rfl : _ = s' := by simpa [step, hc, waitReady, hr, hd] using h
          exact .exit hc hr hd
        · obtain rfl : _ = s' := by simpa [step, hc, waitReady, hr, hd] using h
          exact .sleepC hc hr (by simpa using hd)
      | cons i rs =>
        obtain rfl : _ = s' := by simpa [step, hc, waitReady, hr] using h
        exact .takeReady hc i rs hr
    · simp [step, hc] at h
  | write =>
    simp only [step] at h
    split at h
    case h_1 len pos i hc hs =>
      obtain ⟨hl, rfl⟩ : pos < len ∧ _ = s' := by simpa using h
      exact .write len pos hc i hs hl
    case h_2 => simp at h
  | doneWith =>
    simp only [step] at h
    split at h
    case h_1 len pos hc =>
      obtain ⟨rfl, rfl⟩ : pos = len ∧ _ = s' := by simpa using h
      exact .doneWith pos hc
    case h_2 => simp at h

theorem inv_step {s' : Pipe} {a : PipeAct} (hi : Inv cap base s) (h : s.step cap a = some s') :
    Inv cap base s' := by
  cases step_to h with
  | callNext hp => exact inv_quietP hi (.inl hp) (.inl rfl)
  | sleepP hp => exact inv_quietP hi (.inr hp) (.inr rfl)
  | take hp i fs hf => exact inv_take hi hp hf
  | store hp off x => exact inv_store hi hp off x
  | publish hp len hl => exact inv_publish hi hp hl
  | finish => exact inv_finish hi
  | join hp hc => exact inv_join hi hp hc
  | callWait hc => exact inv_quietC hi (.inl hc) (.inl rfl)
  | sleepC hc => exact inv_quietC hi (.inr hc) (.inr (.inl rfl))
  | exit hc hr hd => exact inv_quietC hi (.inr hc) (.inr (.inr ⟨rfl, hr, hd⟩))
  | takeReady hc i rs hr => exact inv_takeReady hi hc hr
  | write len pos hc i hs hl => exact inv_write hi hc hs hl
  | doneWith len hc => exact inv_doneWith hi hc

end Pipe

theorem pipe_invariant (cap : Nat) (base : Bytes) :
    (pipeLTS cap base).Invariant (Pipe.Inv cap base) where
  init := by
    rintro s rfl
    exact Pipe.inv_init cap base
  step := fun _ _ _ hi h => Pipe.inv_step hi h

/-- Whatever the interleaving, the joined writer has appended the published
chunks, in order and whole. -/
theorem joined_file {cap : Nat} {base : Bytes} {s : Pipe} (h : (pipeLTS cap base).Reachable s)
    (hj : s.p = .joined) : s.file = base ++ writerOutput s.published := by
  have hi := (pipe_invariant cap base).reachable h
  have hx := hi.joined hj
  have hd := hi.data
  simpa [hx, Pipe.current, (hi.exited hx).1, writerOutput] using hd

/-- Two chunks through both slots, the second published while the first is
being written, then an error exit that holds a slot. -/
def errorExitRun : List PipeAct :=
  [.callNext, .tryNext, .store 0 1, .store 1 2, .publish 2, .callWait, .tryWait, .write,
   .callNext, .tryNext, .store 0 7, .publish 1, .callNext, .tryNext, .write, .doneWith, .tryNext,
   .store 0 5, .callWait, .tryWait, .finish, .write, .doneWith, .callWait, .tryWait, .join]

theorem joined_file_errorExitRun :
    ∃ s, (pipeLTS 2 [9]).Reachable s ∧ s.p = .joined ∧ s.published = [[1, 2], [7]] ∧
      s.file = [9] ++ writerOutput [[1, 2], [7]] := by
  have hrun : (errorExitRun.foldlM (Pipe.step 2) ⟨.new 2, .run, .run, [9], []⟩).map
      (fun s => (s.p, s.published)) = some (.joined, [[1, 2], [7]]) := by decide
  obtain ⟨s, hs, he⟩ := Option.map_eq_some_iff.mp hrun
  obtain ⟨hp, hpub⟩ := Prod.mk.inj he
  have hr : (pipeLTS 2 [9]).Reachable s := .foldlM (fun _ _ _ h => h) (.init rfl) hs
  exact ⟨s, hr, hp, hpub, hpub ▸ joined_file hr hp⟩

end Mefsc.L2
