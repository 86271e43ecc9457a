import Mefsc.Core.Fair
import Mefsc.L2Machine.Ownership

/-!
# What the two threads do

Besides the bytes the producer stores, the two threads take a step for every byte that
is written and a few for every chunk: nobody wakes for nothing more than once a chunk,
and nobody spins (`pipe_settles`). So a producer with finitely many chunks ends, and
when neither thread can go on both are done and the file is whole.
-/
namespace Mefsc.L2

open TwoSlotBuffer

/-- Any step but the filling of a slot. -/
def PipeAct.moves : PipeAct → Prop
  | .store _ _ => False
  | _ => True

instance : DecidablePred PipeAct.moves
  | .store _ _ => .isFalse id
  | .callNext | .tryNext | .publish _ | .finish | .join | .callWait | .tryWait | .write | .doneWith => .isTrue trivial

/-- The steps a `publish` brings with it. -/
def PipeAct.brings : PipeAct → Nat
  | .publish len => len + 8
  | _ => 0

def PPc.left : PPc → Nat
  | .run => 5
  | .trying => 4
  | .asleep | .holding => 3
  | .finished => 1
  | .joined => 0

def CPc.left : CPc → Nat
  | .run => 2
  | .trying => 1
  | .asleep | .exited => 0
  | .writing len pos => len - pos + 4

namespace Pipe

/-- The steps that can be taken without another `publish`. -/
def left (s : Pipe) : Nat := s.p.left + s.c.left + (s.buf.ready_.map fun i => s.buf.len_ i + 4).sum

variable {cap : Nat} {base : Bytes} {s s' : Pipe} {a : PipeAct}

theorem wakeC_left (c : CPc) : (wakeC c).left ≤ c.left + 1 := by
  cases c <;> simp [wakeC, CPc.left]

theorem wakeP_left (p : PPc) : (wakeP p).left ≤ p.left + 1 := by
  cases p <;> simp [wakeP, PPc.left]

/-- With the queue of ready slots as it is. -/
theorem left_threads {n k : Nat} (hr : s'.buf.ready_ = s.buf.ready_) (hl : s'.buf.len_ = s.buf.len_)
    (h : s'.p.left + s'.c.left + n ≤ s.p.left + s.c.left + k) : s'.left + n ≤ s.left + k := by
  unfold left
  rw [hr, hl]
  omega

theorem left_publish (hi : Inv cap base s) (hp : s.p = .holding) (len : Nat) {i : Fin 2}
    (hs : s.buf.producer_slot_ = some i) :
    ((s.buf.publish len).ready_.map fun j => (s.buf.publish len).len_ j + 4).sum =
      (s.buf.ready_.map fun j => s.buf.len_ j + 4).sum + (len + 4) := by
  have hout := (hi.producer_alone hp hs).1
  have hsame : (s.buf.ready_.map fun j => (if j = i then len else s.buf.len_ j) + 4) =
      s.buf.ready_.map fun j => s.buf.len_ j + 4 := by
    refine List.map_congr_left fun j hj => ?_
    have hne : j ≠ i := by
      rintro rfl
      exact hout hj
    rw [if_neg hne]
  simp only [publish, hs, List.map_append, List.sum_append, hsame, List.map_cons, List.map_nil, List.sum_singleton,
    if_true]

theorem left_step (hi : Inv cap base s) (h : s.step cap a = some s') :
    s'.left + (if a.moves then 1 else 0) ≤ s.left + a.brings := by
  cases step_to h with
  | callNext hp => exact left_threads rfl rfl (by simp [hp, PPc.left, PipeAct.moves]; omega)
  | sleepP hp => exact left_threads rfl rfl (by simp [hp, PPc.left, PipeAct.moves]; omega)
  | take hp => exact left_threads rfl rfl (by simp [hp, PPc.left, PipeAct.moves]; omega)
  | store hp off x =>
    have hb : (s.buf.store off x).ready_ = s.buf.ready_ ∧ (s.buf.store off x).len_ = s.buf.len_ := by
      unfold TwoSlotBuffer.store
      split <;> exact ⟨rfl, rfl⟩
    exact left_threads hb.1 hb.2 (by simp [PipeAct.moves])
  | publish hp len hl =>
    obtain ⟨i, hs⟩ := Option.isSome_iff_exists.mp (hi.holding hp)
    have hready := left_publish hi hp len hs
    have hwake := wakeC_left s.c
    have hcost : (if (PipeAct.publish len).moves then 1 else 0) = 1 := if_pos trivial
    rw [hcost]
    simp only [left, hp, PPc.left, PipeAct.brings, hready]
    omega
  | finish hp =>
    have hwake := wakeC_left s.c
    refine left_threads rfl rfl ?_
    rcases hp with hp | hp <;> simp [hp, PPc.left, PipeAct.moves] <;> omega
  | join hp hc => exact left_threads rfl rfl (by simp [hp, PPc.left, PipeAct.moves]; omega)
  | callWait hc => exact left_threads rfl rfl (by simp [hc, CPc.left, PipeAct.moves])
  | sleepC hc => exact left_threads rfl rfl (by simp [hc, CPc.left, PipeAct.moves])
  | exit hc => exact left_threads rfl rfl (by simp [hc, CPc.left, PipeAct.moves])
  | takeReady hc i rs hr =>
    have hcost : (if PipeAct.tryWait.moves then 1 else 0) = 1 := if_pos trivial
    rw [hcost]
    simp only [left, hc, hr, CPc.left, List.map_cons, List.sum_cons]
    omega
  | write len pos hc i hs hl =>
    exact left_threads rfl rfl (by simp [hc, CPc.left, PipeAct.moves]; omega)
  | doneWith len hc =>
    have hwake := wakeP_left s.p
    have hb : s.buf.doneWith.ready_ = s.buf.ready_ ∧ s.buf.doneWith.len_ = s.buf.len_ := by
      unfold TwoSlotBuffer.doneWith
      split <;> exact ⟨rfl, rfl⟩
    exact left_threads hb.1 hb.2 (by simp [hc, CPc.left, PipeAct.moves]; omega)

theorem Inv.file_of_exited (hi : Inv cap base s) (hx : s.c = .exited) : s.file = base ++ writerOutput s.published := by
  have hd := hi.data
  simpa [hx, current, (hi.exited hx).1, writerOutput] using hd

/-- A thread that can only fill its slot can publish it. -/
theorem moves_on (hi : Inv cap base s) (hs : Asleep s) (hend : ¬ (s.p = .joined ∧ s.c = .exited)) :
    (pipeLTS cap base).Enabled PipeAct.moves s := by
  obtain ⟨a, s', h⟩ := goes_on hi hs hend
  by_cases hm : a.moves
  · exact ⟨a, s', hm, h⟩
  · cases a with
    | store off x =>
      cases step_to h with
      | store hp => exact ⟨.publish 0, _, trivial, by simp [pipeLTS, step, hp]; rfl⟩
    | _ => exact absurd trivial hm

end Pipe

/-- Every run, with any contents, any lengths and any interleaving. -/
theorem pipe_settles {cap : Nat} {base : Bytes} {s : Pipe} {tr : List (Pipe × PipeAct)}
    (h : (pipeLTS cap base).Trace ⟨.new cap, .run, .run, base, []⟩ tr s) :
    tr.countP (fun x => x.2.moves) ≤ 7 + (tr.map fun x => x.2.brings).sum ∧
      (¬ (pipeLTS cap base).Enabled PipeAct.moves s →
        s.p = .joined ∧ s.c = .exited ∧ s.file = base ++ writerOutput s.published) := by
  have hr := h.reachable (.init rfl)
  have hi := (pipe_invariant cap base).reachable hr
  have hstep : ∀ u l u', Pipe.Inv cap base u → (pipeLTS cap base).step u l u' →
      Pipe.Inv cap base u' ∧ u'.left + (if l.moves then 1 else 0) ≤ u.left + l.brings :=
    fun _ _ _ hu hs => ⟨Pipe.inv_step hu hs, Pipe.left_step hu hs⟩
  have hcount := h.count_le hstep (Pipe.inv_init cap base)
  refine ⟨?_, fun hno => ?_⟩
  · have hstart : Pipe.left ⟨.new cap, .run, .run, base, []⟩ = 7 := rfl
    have hle := hcount.2
    rw [hstart] at hle
    omega
  · have hend : s.p = .joined ∧ s.c = .exited := by
      by_contra hend
      exact hno (Pipe.moves_on hi ((asleep_invariant cap base).reachable hr) hend)
    exact ⟨hend.1, hend.2, hi.file_of_exited hend.2⟩

/-- Two chunks of two bytes and one, an error exit, and the join. -/
theorem pipe_settles_errorExitRun :
    ∃ s tr, (pipeLTS 2 [9]).Trace ⟨.new 2, .run, .run, [9], []⟩ tr s ∧ s.p = .joined ∧
      tr.countP (fun x => x.2.moves) ≤ 7 + (tr.map fun x => x.2.brings).sum := by
  have hrun : (errorExitRun.foldlM (Pipe.step 2) ⟨.new 2, .run, .run, [9], []⟩).map (fun s => s.p) = some .joined := by
    decide
  obtain ⟨s, hs, hp⟩ := Option.map_eq_some_iff.mp hrun
  obtain ⟨tr, htr⟩ := LTS.Trace.foldlM (M := pipeLTS 2 [9]) (fun _ _ _ h => h) hs
  exact ⟨s, tr, htr, hp, (pipe_settles htr).1⟩

end Mefsc.L2
