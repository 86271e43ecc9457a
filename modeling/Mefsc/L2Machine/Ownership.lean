import Mefsc.L2Machine.TwoSlotBuffer

/-!
# Who sleeps, and who owns which slot

`include/common/TwoSlotBuffer.h` under the two threads of `TwoSlotBuffer`.

* `Asleep`: a thread that sleeps still has nothing to do. A notify that is issued
  while it sleeps wakes it at once here, so none is ever pending.
  `never_stuck`: some thread can go on until the producer has joined.
* `Tracked`: the pipeline with what the member variables do not say, since
  `producer_slot_` and `consumer_slot_` are never reset: the slot the producer has
  between `next_writable` and `publish` (it keeps one that an error exit does not
  publish), that of the consumer between `wait_ready` and `done_with`, and the
  length last published for each slot. `slots_owned`: each slot is in exactly one
  place.
-/
namespace Mefsc.L2

open TwoSlotBuffer

/-! ## Sleeping -/

namespace Pipe

/-- The wait predicate of a thread that sleeps is false. -/
structure Asleep (s : Pipe) : Prop where
  producer : s.p = .asleep → s.buf.free_ = []
  consumer : s.c = .asleep → s.buf.ready_ = [] ∧ s.buf.done_ = false

theorem wakeP_ne_asleep (p : PPc) : wakeP p ≠ .asleep := by
  cases p <;> simp [wakeP]

theorem wakeC_ne_asleep (c : CPc) : wakeC c ≠ .asleep := by
  cases c <;> simp [wakeC]

variable {cap : Nat} {base : Bytes} {s s' : Pipe} {a : PipeAct}

/-- A store changes the bytes of a slot and nothing else. -/
theorem store_slots (b : TwoSlotBuffer) (off : Nat) (x : UInt8) :
    ∃ slots, b.store off x = { b with slots_ := slots } ∧
      ∀ i, b.producer_slot_ ≠ some i → slots i = b.slots_ i := by
  unfold TwoSlotBuffer.store
  split
  · exact ⟨b.slots_, rfl, fun _ _ => rfl⟩
  · rename_i j hj
    refine ⟨_, rfl, fun i hi => if_neg fun h => hi ?_⟩
    rw [hj, h]

theorem asleep_step (hi : Asleep s) (h : s.step cap a = some s') : Asleep s' := by
  cases step_to h with
  | callNext => exact ⟨fun h => by simp at h, hi.consumer⟩
  | sleepP _ hf => exact ⟨fun _ => hf, hi.consumer⟩
  | take => exact ⟨fun h => by simp at h, hi.consumer⟩
  | store hp off x =>
    obtain ⟨slots, hst, -⟩ := store_slots s.buf off x
    simp only [hst]
    exact ⟨fun h => by simp [hp] at h, hi.consumer⟩
  | publish => exact ⟨fun h => by simp at h, fun h => absurd h (wakeC_ne_asleep _)⟩
  | finish => exact ⟨fun h => by simp at h, fun h => absurd h (wakeC_ne_asleep _)⟩
  | join => exact ⟨fun h => by simp at h, hi.consumer⟩
  | callWait => exact ⟨hi.producer, fun h => by simp at h⟩
  | sleepC _ hr hd => exact ⟨hi.producer, fun _ => ⟨hr, hd⟩⟩
  | exit => exact ⟨hi.producer, fun h => by simp at h⟩
  | takeReady => exact ⟨hi.producer, fun h => by simp at h⟩
  | write => exact ⟨hi.producer, fun h => by simp at h⟩
  | doneWith => exact ⟨fun h => absurd h (wakeP_ne_asleep _), fun h => by simp at h⟩

/-- A consumer that is neither asleep nor gone can go on. -/
theorem consumer_goes_on (hi : Inv cap base s) (ha : s.c ≠ .asleep) (hx : s.c ≠ .exited) :
    ∃ a s', s.step cap a = some s' := by
  cases hc : s.c with
  | run => exact ⟨.callWait, _, by simp [step, hc]; rfl⟩
  | trying =>
    refine ⟨.tryWait, ?_⟩
    simp only [step, hc, if_true]
    cases s.buf.waitReady <;> exact ⟨_, rfl⟩
  | asleep => exact absurd hc ha
  | writing len pos =>
    obtain ⟨hle, -, hsome⟩ := hi.writing len pos hc
    obtain ⟨i, hs⟩ := Option.isSome_iff_exists.mp hsome
    rcases Nat.lt_or_eq_of_le hle with hlt | rfl
    · exact ⟨.write, _, by simp [step, hc, hs, hlt]; rfl⟩
    · exact ⟨.doneWith, _, by simp [step, hc]; rfl⟩
  | exited => exact absurd hc hx

/-- While the producer sleeps both slots are with the consumer or on their way to it,
so the consumer does not. -/
theorem consumer_busy (hi : Inv cap base s) (hs : Asleep s) (hp : s.p = .asleep) :
    s.c ≠ .asleep ∧ s.c ≠ .exited := by
  have hdone : s.buf.done_ = false := by
    cases hd : s.buf.done_ with
    | false => rfl
    | true => rcases hi.done.mp hd with h | h <;> simp [hp] at h
  have hlen := hi.full hdone
  constructor
  · intro hc
    have hready := (hs.consumer hc).1
    simp [owners, heldP, heldC, hp, hc, hs.producer hp, hready] at hlen
  · intro hc
    have h := (hi.exited hc).2
    rw [hdone] at h
    cases h

theorem goes_on (hi : Inv cap base s) (hs : Asleep s) (hend : ¬ (s.p = .joined ∧ s.c = .exited)) :
    ∃ a s', s.step cap a = some s' := by
  cases hp : s.p with
  | run => exact ⟨.callNext, _, by simp [step, hp]; rfl⟩
  | trying =>
    refine ⟨.tryNext, ?_⟩
    simp only [step, hp, if_true]
    cases s.buf.nextWritable <;> exact ⟨_, rfl⟩
  | asleep =>
    obtain ⟨ha, hx⟩ := consumer_busy hi hs hp
    exact consumer_goes_on hi ha hx
  | holding => exact ⟨.publish 0, _, by simp [step, hp]; rfl⟩
  | finished =>
    by_cases hx : s.c = .exited
    · exact ⟨.join, _, by simp [step, hp, hx]; rfl⟩
    · refine consumer_goes_on hi (fun ha => ?_) hx
      have hdone := hi.done.mpr (.inl hp)
      rw [(hs.consumer ha).2] at hdone
      cases hdone
  | joined => exact absurd ⟨hp, hi.joined hp⟩ hend

end Pipe

theorem asleep_invariant (cap : Nat) (base : Bytes) : (pipeLTS cap base).Invariant Pipe.Asleep where
  init := by
    intro s hs
    subst hs
    exact ⟨fun h => by simp at h, fun h => by simp at h⟩
  step _ _ _ hi h := Pipe.asleep_step hi h

/-- Until the producer has joined some thread can go on, nobody sleeps whose predicate
is true, and the consumer is gone only when it has taken, and written, everything that
was published. -/
theorem never_stuck {cap : Nat} {base : Bytes} {s : Pipe} (h : (pipeLTS cap base).Reachable s) :
    (¬ (s.p = .joined ∧ s.c = .exited) → ∃ a s', (pipeLTS cap base).step s a s') ∧
    s.Asleep ∧
    (s.c = .exited → s.buf.done_ = true ∧ s.buf.ready_ = [] ∧ s.file = base ++ s.published.flatten) := by
  have hi := (pipe_invariant cap base).reachable h
  have hs := (asleep_invariant cap base).reachable h
  refine ⟨Pipe.goes_on hi hs, hs, fun hx => ?_⟩
  obtain ⟨hready, hdone⟩ := hi.exited hx
  have hd := hi.data
  simp only [hx, Pipe.current, hready, List.map_nil, List.flatten_nil, List.append_nil] at hd
  exact ⟨hdone, hready, hd⟩

/-- The producer asleep, with one chunk being written and one ready. -/
def sleepingRun : List PipeAct :=
  [.callNext, .tryNext, .publish 1, .callWait, .tryWait, .callNext, .tryNext, .publish 0, .callNext, .tryNext]

theorem never_stuck_sleeping :
    ∃ s, (pipeLTS 1 []).Reachable s ∧ s.p = .asleep ∧ ∃ a s', (pipeLTS 1 []).step s a s' := by
  have hrun : (sleepingRun.foldlM (Pipe.step 1) ⟨.new 1, .run, .run, [], []⟩).map (fun s => s.p) =
      some .asleep := by decide
  obtain ⟨s, hs, hp⟩ := Option.map_eq_some_iff.mp hrun
  have hr : (pipeLTS 1 []).Reachable s := .foldlM (fun _ _ _ h => h) (.init rfl) hs
  exact ⟨s, hr, hp, (never_stuck hr).1 (by simp [hp])⟩

/-! ## Ownership -/

/-- `filling` and `reading` are the slots the two threads have, `last` the length
last published for each slot. -/
structure Tracked where
  pipe : Pipe
  filling : Option (Fin 2)
  reading : Option (Fin 2)
  last : Fin 2 → Option Nat

namespace Tracked

def start (cap : Nat) (base : Bytes) : Tracked := ⟨⟨.new cap, .run, .run, base, []⟩, none, none, fun _ => none⟩

/-- What a step of the pipeline changes of it: `s` is the pipeline afterwards. -/
def after (t : Tracked) (s : Pipe) : PipeAct → Tracked
  | .tryNext => { t with pipe := s, filling := if s.p = .holding then s.buf.producer_slot_ else t.filling }
  | .publish len =>
    { t with pipe := s, filling := none,
             last := fun i => if t.pipe.buf.producer_slot_ = some i then some len else t.last i }
  | .tryWait =>
    match s.c with
    | .writing _ _ => { t with pipe := s, reading := s.buf.consumer_slot_ }
    | _ => { t with pipe := s }
  | .doneWith => { t with pipe := s, reading := none }
  | _ => { t with pipe := s }

def step (cap : Nat) (t : Tracked) (a : PipeAct) : Option Tracked :=
  (t.pipe.step cap a).map fun s => t.after s a

def lts (cap : Nat) (base : Bytes) : LTS Tracked PipeAct where
  init t := t = start cap base
  step t a t' := t.step cap a = some t'

/-- The slots of both queues and both threads. -/
def places (t : Tracked) : List (Fin 2) :=
  t.pipe.buf.free_ ++ t.pipe.buf.ready_ ++ t.filling.toList ++ t.reading.toList

structure Inv (t : Tracked) : Prop where
  places : t.places.Perm [0, 1]
  filling : t.pipe.p = .holding → t.filling = t.pipe.buf.producer_slot_ ∧ t.filling.isSome
  empty : t.pipe.p = .run ∨ t.pipe.p = .trying ∨ t.pipe.p = .asleep → t.filling = none
  reading : ∀ len pos, t.pipe.c = .writing len pos → t.reading = t.pipe.buf.consumer_slot_ ∧ t.reading.isSome
  idle : (∀ len pos, t.pipe.c ≠ .writing len pos) → t.reading = none
  last : ∀ i, i ∈ t.pipe.buf.ready_ ∨ t.reading = some i → t.last i = some (t.pipe.buf.len_ i)

variable {cap : Nat} {base : Bytes} {t t' : Tracked} {a : PipeAct}

/-- The pipeline takes the same steps with and without the tracking. -/
theorem pipe_step (h : t.step cap a = some t') : t.pipe.step cap a = some t'.pipe := by
  obtain ⟨s, hs, rfl⟩ := Option.map_eq_some_iff.mp h
  rw [hs]
  unfold after
  split <;> try rfl
  split <;> rfl

theorem tracked {s : Pipe} (h : (pipeLTS cap base).Reachable s) :
    ∃ t, (lts cap base).Reachable t ∧ t.pipe = s := by
  induction h with
  | init h => exact ⟨_, .init rfl, h.symm⟩
  | step _ hs ih =>
    obtain ⟨t, ht, rfl⟩ := ih
    have hstep : t.step cap _ = some (t.after _ _) := Option.map_eq_some_iff.mpr ⟨_, hs, rfl⟩
    have hpipe := pipe_step hstep
    rw [hs] at hpipe
    exact ⟨_, .step ht hstep, (Option.some.inj hpipe).symm⟩

theorem inv_start (cap : Nat) (base : Bytes) : Inv (start cap base) where
  places := by simp [places, start, new]
  filling := by simp [start]
  empty := by simp [start]
  reading := by simp [start]
  idle := by simp [start]
  last := by simp [start, new]

theorem inv_take (hi : Inv t) (hp : t.pipe.p = .trying) {i : Fin 2} {fs : List (Fin 2)}
    (hf : t.pipe.buf.free_ = i :: fs) :
    Inv { t with pipe := { t.pipe with
                   buf := { t.pipe.buf with producer_slot_ := some i, free_ := fs }, p := .holding },
                 filling := some i } := by
  have hempty := hi.empty (.inr (.inl hp))
  refine ⟨?_, fun _ => ⟨rfl, rfl⟩, fun h => by simp at h, hi.reading, hi.idle, hi.last⟩
  refine List.Perm.trans ?_ hi.places
  simp only [places, hempty, hf, Option.toList_none, Option.toList_some, List.append_nil, List.cons_append,
    List.append_assoc, List.nil_append]
  rw [← List.append_assoc fs]
  exact List.perm_middle.trans (by simp)

theorem inv_publish (hi : Inv t) (hp : t.pipe.p = .holding) (len : Nat) (published : List Bytes) :
    Inv { t with pipe := { t.pipe with buf := t.pipe.buf.publish len, p := .run, c := wakeC t.pipe.c,
                                       published := published },
                 filling := none,
                 last := fun i => if t.pipe.buf.producer_slot_ = some i then some len else t.last i } := by
  obtain ⟨hslot, hsome⟩ := hi.filling hp
  obtain ⟨j, hj⟩ := Option.isSome_iff_exists.mp hsome
  rw [hj] at hslot
  have hb : t.pipe.buf.publish len = { t.pipe.buf with
      len_ := fun i => if i = j then len else t.pipe.buf.len_ i, ready_ := t.pipe.buf.ready_ ++ [j] } := by
    simp [publish, ← hslot]
  refine ⟨?_, fun h => by simp at h, fun _ => rfl, fun len' pos hc => ?_, fun hc => ?_, fun i hi' => ?_⟩
  · refine List.Perm.trans ?_ hi.places
    simp [places, hb, hj]
  · simp only [hb]
    exact hi.reading len' pos (by simpa using hc)
  · exact hi.idle (by simpa using hc)
  · simp only [hb, ← hslot, List.mem_append, List.mem_singleton, Option.some.injEq] at hi' ⊢
    by_cases hij : i = j
    · simp [hij]
    · rw [if_neg (Ne.symm hij), if_neg hij]
      exact hi.last i (by simpa [hij] using hi')

theorem inv_takeReady (hi : Inv t) (hc : t.pipe.c = .trying) {i : Fin 2} {rs : List (Fin 2)}
    (hr : t.pipe.buf.ready_ = i :: rs) :
    Inv { t with pipe := { t.pipe with buf := { t.pipe.buf with consumer_slot_ := some i, ready_ := rs },
                                       c := .writing (t.pipe.buf.len_ i) 0 },
                 reading := some i } := by
  have hidle := hi.idle (by simp [hc])
  refine ⟨?_, hi.filling, hi.empty, fun _ _ _ => ⟨rfl, rfl⟩, fun h => absurd rfl (h _ _), fun j hj => ?_⟩
  · refine List.Perm.trans ?_ hi.places
    simp only [places, hidle, hr, Option.toList_none, Option.toList_some, List.append_nil, List.cons_append,
      List.append_assoc]
    refine List.Perm.append_left _ ?_
    rw [← List.append_assoc]
    exact List.perm_append_singleton i _
  · refine hi.last j (.inl ?_)
    simp only [hr, List.mem_cons]
    rcases hj with hj | hj
    · exact .inr hj
    · exact .inl (Option.some.inj hj).symm

theorem inv_doneWith (hi : Inv t) {len pos : Nat} (hc : t.pipe.c = .writing len pos) :
    Inv { t with pipe := { t.pipe with buf := t.pipe.buf.doneWith, c := .run, p := wakeP t.pipe.p },
                 reading := none } := by
  obtain ⟨hslot, hsome⟩ := hi.reading len pos hc
  obtain ⟨j, hj⟩ := Option.isSome_iff_exists.mp hsome
  rw [hj] at hslot
  have hb : t.pipe.buf.doneWith = { t.pipe.buf with free_ := t.pipe.buf.free_ ++ [j] } := by
    simp [doneWith, ← hslot]
  refine ⟨?_, fun h => ?_, fun h => ?_, fun _ _ h => by simp at h, fun _ => rfl, fun i hi' => ?_⟩
  · refine List.Perm.trans ?_ hi.places
    simp only [places, hb, hj, Option.toList_none, Option.toList_some, List.append_nil, List.append_assoc,
      List.singleton_append]
    refine List.Perm.append_left _ ?_
    rw [← List.append_assoc t.pipe.buf.ready_]
    exact (List.perm_append_singleton j _).symm
  · rw [Pipe.wakeP_eq_iff (by simp) (by simp)] at h
    rw [hb]
    exact hi.filling h
  · refine hi.empty ?_
    revert h
    cases t.pipe.p <;> simp [wakeP]
  · simp only [hb] at hi' ⊢
    exact hi.last i (.inl (by simpa using hi'))

theorem inv_step (hi : Inv t) (h : t.step cap a = some t') : Inv t' := by
  obtain ⟨s, hs, rfl⟩ := Option.map_eq_some_iff.mp h
  cases Pipe.step_to hs with
  | callNext hp =>
    exact ⟨hi.places, fun h => by simp [after] at h, fun _ => hi.empty (.inl hp), hi.reading, hi.idle, hi.last⟩
  | sleepP hp hf =>
    simp only [after, reduceCtorEq, if_false]
    exact ⟨hi.places, fun h => by simp at h, fun _ => hi.empty (.inr (.inl hp)), hi.reading, hi.idle, hi.last⟩
  | take hp i fs hf => exact inv_take hi hp hf
  | store hp off x =>
    obtain ⟨slots, hst, -⟩ := Pipe.store_slots t.pipe.buf off x
    simp only [after, hst]
    exact ⟨hi.places, hi.filling, hi.empty, hi.reading, hi.idle, hi.last⟩
  | publish hp len hl => exact inv_publish hi hp len _
  | finish hp =>
    refine ⟨hi.places, fun h => by simp [after] at h, fun h => by simp [after] at h, fun len pos hc => ?_,
      fun hc => ?_, hi.last⟩
    · exact hi.reading len pos (by simpa [after] using hc)
    · exact hi.idle (by simpa [after] using hc)
  | join hp hc =>
    exact ⟨hi.places, fun h => by simp [after] at h, fun h => by simp [after] at h, hi.reading, hi.idle, hi.last⟩
  | callWait hc =>
    exact ⟨hi.places, hi.filling, hi.empty, fun _ _ h => by simp [after] at h, fun _ => hi.idle (by simp [hc]),
      hi.last⟩
  | sleepC hc hr hd =>
    exact ⟨hi.places, hi.filling, hi.empty, fun _ _ h => by simp [after] at h, fun _ => hi.idle (by simp [hc]),
      hi.last⟩
  | exit hc hr hd =>
    exact ⟨hi.places, hi.filling, hi.empty, fun _ _ h => by simp [after] at h, fun _ => hi.idle (by simp [hc]),
      hi.last⟩
  | takeReady hc i rs hr => exact inv_takeReady hi hc hr
  | write len pos hc i hsl hl =>
    exact ⟨hi.places, hi.filling, hi.empty, fun _ _ _ => hi.reading len pos hc, fun h => absurd rfl (h _ _), hi.last⟩
  | doneWith len hc => exact inv_doneWith hi hc

end Tracked

theorem tracked_invariant (cap : Nat) (base : Bytes) : (Tracked.lts cap base).Invariant Tracked.Inv where
  init := by
    intro t ht
    subst ht
    exact Tracked.inv_start cap base
  step _ _ _ hi h := Tracked.inv_step hi h

namespace Tracked

variable {cap : Nat} {t t' : Tracked}

theorem nodup_places (hi : Inv t) : t.places.Nodup := hi.places.nodup_iff.mpr (by decide)

theorem length_le (hi : Inv t) : t.pipe.buf.free_.length ≤ 2 ∧ t.pipe.buf.ready_.length ≤ 2 := by
  have hlen := hi.places.length_eq
  simp only [places, List.length_append, List.length_cons, List.length_nil] at hlen
  omega

/-- The two threads never have the same slot. -/
theorem filling_ne (hi : Inv t) {i : Fin 2} (hr : t.reading = some i) : t.filling ≠ some i := by
  intro hf
  have hnodup := nodup_places hi
  unfold places at hnodup
  rw [hf, hr, List.append_assoc] at hnodup
  have htail := (List.nodup_append.mp hnodup).2.1
  simp at htail

theorem store_reading (hi : Inv t) {off : Nat} {x : UInt8} (h : t.step cap (.store off x) = some t')
    {i : Fin 2} (hr : t.reading = some i) : t'.pipe.buf.slots_ i = t.pipe.buf.slots_ i := by
  have hs := Pipe.step_to (pipe_step h)
  generalize hp' : t'.pipe = s' at hs
  cases hs with
  | store hp =>
    obtain ⟨slots, hst, hkeep⟩ := Pipe.store_slots t.pipe.buf off x
    simp only [hst]
    refine hkeep i fun hprod => ?_
    have hfill := (hi.filling hp).1
    exact filling_ne hi hr (hfill.trans hprod)

end Tracked

/-- The slots in the two queues and with the two threads are slot 0 and slot 1, each
once. So a store leaves the slot being read alone, no queue has more than two entries,
and the length of a ready slot or of the one being read is the last published one. -/
theorem slots_owned {cap : Nat} {base : Bytes} {t : Tracked} (h : (Tracked.lts cap base).Reachable t) :
    t.places.Perm [0, 1] ∧
    (∀ i, t.reading = some i → t.filling ≠ some i ∧
      ∀ off x t', t.step cap (.store off x) = some t' → t'.pipe.buf.slots_ i = t.pipe.buf.slots_ i) ∧
    (t.pipe.buf.free_.length ≤ 2 ∧ t.pipe.buf.ready_.length ≤ 2) ∧
    ∀ i, i ∈ t.pipe.buf.ready_ ∨ t.reading = some i → t.last i = some (t.pipe.buf.len_ i) := by
  have hi := (tracked_invariant cap base).reachable h
  refine ⟨hi.places, fun i hr => ⟨Tracked.filling_ne hi hr, fun off x t' hs => ?_⟩, Tracked.length_le hi, hi.last⟩
  exact Tracked.store_reading hi hs hr

/-- Slot 0 is being written to the file while slot 1 is filled. -/
def overlappingRun : List PipeAct :=
  [.callNext, .tryNext, .publish 1, .callWait, .tryWait, .callNext, .tryNext, .store 0 7]

theorem slots_owned_overlapping :
    ∃ t, (Tracked.lts 1 []).Reachable t ∧ t.reading = some 0 ∧ t.filling = some 1 ∧
      t.places.Perm [0, 1] ∧ t.last 0 = some (t.pipe.buf.len_ 0) := by
  have hrun : (overlappingRun.foldlM (Tracked.step 1) (.start 1 [])).map (fun t => (t.reading, t.filling)) =
      some (some 0, some 1) := by decide
  obtain ⟨t, ht, hpair⟩ := Option.map_eq_some_iff.mp hrun
  have hread : t.reading = some 0 := congrArg Prod.fst hpair
  have hr : (Tracked.lts 1 []).Reachable t := .foldlM (fun _ _ _ h => h) (.init rfl) ht
  obtain ⟨hplaces, -, -, hlast⟩ := slots_owned hr
  exact ⟨t, hr, hread, congrArg Prod.snd hpair, hplaces, hlast 0 (.inr hread)⟩

end Mefsc.L2
