import Mefsc.Core.Net
import Mefsc.Core.Trace

/-!
# What the channels of a net carry

The bytes a party has received, with those still on their way to it, are the
first bytes that the other sent, and all of them until the other has returned
(`Run.delivers`).

`Sure s t`: a net in `s` gets to `t` on whatever schedule, in the sense that no
run from `s` leads away from it. By `Core.Net` one run is enough for that.
-/
namespace Mefsc

variable {σ τ ρ α β : Type}

def Ev.isSnd : Ev ρ → Bool
  | .snd _ _ => true
  | .rcv _ _ => false

def Ev.isRcv : Ev ρ → Bool
  | .snd _ _ => false
  | .rcv _ _ => true

/-- The bytes received in a history. -/
def rcvd : List (Ev ρ) → Bytes
  | [] => []
  | .rcv _ (some b) :: es => b ++ rcvd es
  | .rcv _ none :: es => rcvd es
  | .snd _ _ :: es => rcvd es

@[simp] theorem rcvd_append (x y : List (Ev ρ)) : rcvd (x ++ y) = rcvd x ++ rcvd y := by
  induction x with
  | nil => rfl
  | cons e x ih =>
    cases e with
    | snd r b => simp [rcvd, ih]
    | rcv r o => cases o <;> simp [rcvd, ih]

/-! ## One process -/

theorem World.recv_bytes {w w' : World σ ρ} {r : ρ} {n : Nat} {x : Option Bytes} (h : w.recv r n = some (x, w')) :
    rcvd w'.hist ++ w'.inp <+: rcvd w.hist ++ w.inp := by
  unfold World.recv at h
  split at h
  · simp only [Option.some.injEq, Prod.mk.injEq] at h
    obtain ⟨-, rfl⟩ := h
    simp [rcvd]
  · split at h
    · simp only [Option.some.injEq, Prod.mk.injEq] at h
      obtain ⟨-, rfl⟩ := h
      simp [rcvd]
    · cases h

theorem World.send_bytes (w : World σ ρ) (r : ρ) (b : Bytes) :
    rcvd (w.send r b).2.hist ++ (w.send r b).2.inp = rcvd w.hist ++ w.inp := by
  unfold World.send
  split <;> simp [rcvd]

/-- What a process has received is the first of what there was. -/
theorem Proc.Goes.bytes {n : Nat} {p q : Proc σ ρ α} {w v : World σ ρ} {o : List (ρ × Bytes)}
    (h : Goes n p w o q v) : rcvd v.hist ++ v.inp <+: rcvd w.hist ++ w.inp := by
  induction h with
  | refl => exact List.prefix_rfl
  | @head n p q r w w1 w' o o' h t ih =>
    refine ih.trans ?_
    cases p with
    | ret a => cases h
    | recv r m k =>
      obtain ⟨x, hx, h⟩ := Option.map_eq_some_iff.mp h
      simp only [Prod.mk.injEq] at h
      obtain ⟨-, rfl, -⟩ := h
      exact World.recv_bytes hx
    | send r b k =>
      simp only [Proc.next, Option.some.injEq, Prod.mk.injEq] at h
      obtain ⟨-, rfl, -⟩ := h
      exact ⟨[], by rw [List.append_nil, World.send_bytes]⟩
    | act f k =>
      simp only [Proc.next, Option.some.injEq, Prod.mk.injEq] at h
      obtain ⟨-, rfl, -⟩ := h
      exact List.prefix_rfl
    | iter body g k =>
      simp only [Proc.next, Option.some.injEq, Prod.mk.injEq] at h
      obtain ⟨-, rfl, -⟩ := h
      exact List.prefix_rfl

/-! ## Two parties -/

namespace Party

/-- What a step does to the bytes on their way: it takes some off, or finds the
stream ended. -/
theorem step_bytes {p q : Party σ ρ α} {e : Bool} {o : Bytes} (h : p.step e = some (q, o)) :
    ∃ evs, q.hist = p.hist ++ evs ∧ sent evs = o ∧
      (rcvd evs ++ q.inp = p.inp ∨ e = true ∧ rcvd evs = [] ∧ q.inp = []) := by
  obtain ⟨pr, st, inp, hist⟩ := p
  cases pr with
  | ret a => simp [step] at h
  | recv r n k =>
    by_cases hn : n ≤ inp.length
    · simp only [step, hn, if_true, Option.some.injEq, Prod.mk.injEq] at h
      obtain ⟨rfl, rfl⟩ := h
      exact ⟨_, rfl, rfl, .inl (by simp [rcvd])⟩
    · simp only [step, hn, if_false] at h
      split at h
      · rename_i he
        simp only [Option.some.injEq, Prod.mk.injEq] at h
        obtain ⟨rfl, rfl⟩ := h
        exact ⟨_, rfl, rfl, .inr ⟨he, rfl, rfl⟩⟩
      · simp at h
  | send r b k =>
    simp only [step, Option.some.injEq, Prod.mk.injEq] at h
    obtain ⟨rfl, rfl⟩ := h
    exact ⟨_, rfl, by simp [sent], .inl rfl⟩
  | act f k =>
    simp only [step, Option.some.injEq, Prod.mk.injEq] at h
    obtain ⟨rfl, rfl⟩ := h
    exact ⟨[], by simp, rfl, .inl rfl⟩
  | iter body g k =>
    simp only [step, Option.some.injEq, Prod.mk.injEq] at h
    obtain ⟨rfl, rfl⟩ := h
    exact ⟨[], by simp, rfl, .inl rfl⟩

/-- Of `x`, which its peer sent, the party has got the first bytes, and the others
are on their way unless the peer is gone. -/
structure Gets (p : Party σ ρ α) (x : Bytes) (gone : Bool) : Prop where
  begins : rcvd p.hist ++ p.inp <+: x
  whole : gone = false → rcvd p.hist ++ p.inp = x

theorem Gets.step {p q : Party σ ρ α} {x : Bytes} {gone : Bool} {o : Bytes} (h : p.Gets x gone)
    (hs : p.step gone = some (q, o)) : q.Gets x gone := by
  obtain ⟨evs, hh, -, hb⟩ := step_bytes hs
  rcases hb with hb | ⟨he, hr, hi⟩
  · have hsame : rcvd q.hist ++ q.inp = rcvd p.hist ++ p.inp := by
      rw [hh, rcvd_append, List.append_assoc, hb]
    exact ⟨hsame ▸ h.begins, fun hg => hsame ▸ h.whole hg⟩
  · have hless : rcvd q.hist ++ q.inp = rcvd p.hist := by
      rw [hh, rcvd_append, hr, hi, List.append_nil, List.append_nil]
    refine ⟨hless ▸ (List.prefix_append _ _).trans h.begins, fun hg => ?_⟩
    rw [he] at hg
    cases hg

theorem Gets.feed {p : Party σ ρ α} {x : Bytes} (h : p.Gets x false) (o : Bytes) (gone : Bool) :
    (p.feed o).Gets (x ++ o) gone := by
  have hw : rcvd (p.feed o).hist ++ (p.feed o).inp = x ++ o := by
    rw [← h.whole rfl]
    simp [Party.feed]
  exact ⟨hw ▸ List.prefix_rfl, fun _ => hw⟩

end Party

namespace Net

/-- Both channels deliver in order, and lose nothing while their writer lives. -/
structure Delivers (s : Net σ τ ρ α β) : Prop where
  l : s.l.Gets (sent s.r.hist) s.r.done
  r : s.r.Gets (sent s.l.hist) s.l.done

theorem Delivers.stepL {s t : Net σ τ ρ α β} (h : s.Delivers) (hs : s.stepL = some t) : t.Delivers := by
  simp only [Net.stepL, Option.map_eq_some_iff] at hs
  obtain ⟨⟨q, o⟩, hs, rfl⟩ := hs
  have hlive : s.l.done = false := by
    by_contra hc
    simp [Party.step_done (by simpa using hc)] at hs
  obtain ⟨evs, hh, ho, -⟩ := Party.step_bytes hs
  have hr := h.r
  rw [hlive] at hr
  refine ⟨h.l.step hs, ?_⟩
  rw [hh, sent_append, ho]
  exact hr.feed o _

theorem Delivers.stepR {s t : Net σ τ ρ α β} (h : s.Delivers) (hs : s.stepR = some t) : t.Delivers := by
  simp only [Net.stepR, Option.map_eq_some_iff] at hs
  obtain ⟨⟨q, o⟩, hs, rfl⟩ := hs
  have hlive : s.r.done = false := by
    by_contra hc
    simp [Party.step_done (by simpa using hc)] at hs
  obtain ⟨evs, hh, ho, -⟩ := Party.step_bytes hs
  have hl := h.l
  rw [hlive] at hl
  refine ⟨?_, h.r.step hs⟩
  rw [hh, sent_append, ho]
  exact hl.feed o _

theorem Run.delivers {i j : Nat} {s t : Net σ τ ρ α β} (h : Run i j s t) (hs : s.Delivers) : t.Delivers := by
  induction h with
  | refl => exact hs
  | left h _ ih => exact ih (hs.stepL h)
  | right h _ ih => exact ih (hs.stepR h)

/-- The peer of a party that has returned, with nothing on its way, receives no
byte. -/
theorem Run.quiet_l {i j : Nat} {s t : Net σ τ ρ α β} (h : Run i j s t) (hd : s.l.done = true)
    (hi : s.r.inp = []) : t.l.hist = s.l.hist ∧ ∃ evs, t.r.hist = s.r.hist ++ evs ∧ rcvd evs = [] := by
  induction h with
  | refl => exact ⟨rfl, [], by simp, rfl⟩
  | left h _ _ => simp [Net.stepL, Party.step_done hd] at h
  | right h _ ih =>
    simp only [Net.stepR, Option.map_eq_some_iff] at h
    obtain ⟨⟨q, o⟩, h, rfl⟩ := h
    obtain ⟨evs, hh, -, hb⟩ := Party.step_bytes h
    have hnone : rcvd evs = [] ∧ q.inp = [] := by
      rcases hb with hb | ⟨-, hb⟩
      · rw [hi] at hb
        simpa using hb
      · exact hb
    obtain ⟨h1, evs', h2, h3⟩ := ih hd hnone.2
    refine ⟨h1, evs ++ evs', ?_, ?_⟩
    · rw [h2, hh, List.append_assoc]
    · rw [rcvd_append, hnone.1, h3]
      rfl

/-- A party that has returned has no further history. -/
theorem Run.quiet_r {i j : Nat} {s t : Net σ τ ρ α β} (h : Run i j s t) (hd : s.r.done = true) :
    t.r.hist = s.r.hist := by
  induction h with
  | refl => rfl
  | left h _ ih =>
    simp only [Net.stepL, Option.map_eq_some_iff] at h
    obtain ⟨⟨q, o⟩, h, rfl⟩ := h
    exact ih hd
  | right h _ _ => simp [Net.stepR, Party.step_done hd] at h

/-! ## Every schedule -/

/-- `n` steps, of the left party whenever it can. -/
def leftFirst : Nat → Net σ τ ρ α β → Net σ τ ρ α β
  | 0, s => s
  | n + 1, s =>
    match s.stepL, s.stepR with
    | some t, _ => leftFirst n t
    | none, some t => leftFirst n t
    | none, none => s

theorem reach_leftFirst (n : Nat) (s : Net σ τ ρ α β) : Reach s (leftFirst n s) := by
  induction n generalizing s with
  | zero => exact Reach.refl s
  | succ n ih =>
    unfold leftFirst
    split
    · rename_i t hl
      exact Reach.trans ⟨1, 0, .left hl (.refl t)⟩ (ih t)
    · rename_i t _ hr
      exact Reach.trans ⟨0, 1, .right hr (.refl t)⟩ (ih t)
    · exact Reach.refl s

/-- `t` is reached, and every other run from `s` can be continued to where one
from `t` comes, too. -/
structure Sure (s t : Net σ τ ρ α β) : Prop where
  reach : Reach s t
  meets : ∀ u, Reach s u → ∃ v, Reach u v ∧ Reach t v

theorem Reach.sure {s t : Net σ τ ρ α β} (h : Reach s t) : Sure s t := by
  refine ⟨h, fun u hu => ?_⟩
  obtain ⟨i, j, h⟩ := h
  obtain ⟨i', j', hu⟩ := hu
  obtain ⟨v, h1, h2⟩ := hu.join h
  exact ⟨v, ⟨_, _, h1⟩, ⟨_, _, h2⟩⟩

theorem stuck_of_done {s : Net σ τ ρ α β} (hl : s.l.done = true) (hr : s.r.done = true) : s.Stuck := by
  simp [Stuck, stepL, stepR, Party.step_done hl, Party.step_done hr]

/-- Two runs that end with both parties done end in one state. -/
theorem done_unique {s t u : Net σ τ ρ α β} (ht : Reach s t) (hu : Reach s u) (htd : t.Stuck)
    (hud : u.Stuck) : t = u := by
  obtain ⟨i, j, ht⟩ := ht
  obtain ⟨i', j', hu⟩ := hu
  obtain ⟨-, -, h⟩ := run_to_stuck hu hud ht
  obtain ⟨-, -, h⟩ := htd.run_eq h
  exact h.symm

end Net

end Mefsc
