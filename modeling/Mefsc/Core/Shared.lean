import Mathlib.Logic.Function.Basic
import Mefsc.Core.Channel
import Mefsc.Core.Lockstep
import Mefsc.Core.Zoom

/-!
# Nets whose right parties share a part of their state

`Shared`: a family of nets, and a value that is a part of the state of every right
party. A step of the system is a step of one party of one net, with the shared value
as it is at that moment (`stepAt`, `Goes`).

`Minds`: the right party of net `i` does the same in any two states that `R i`
relates, and no step of it takes `R j` away from another one. Then every net goes, in
every interleaving, as it goes alone (`alone`): rely and guarantee, with `Lockstep`
for the guarantee. The guard `G i` may be lost, but only for good.
-/
namespace Mefsc

structure Shared (ι σ τ ρ α β ω : Type) where
  common : ω
  nets : ι → Net σ τ ρ α β

namespace Shared

variable {ι σ τ ρ α β ω : Type} (L : Part ω τ)

/-- Net `i` with the shared value as it is. -/
def view (s : Shared ι σ τ ρ α β ω) (i : ι) : Net σ τ ρ α β :=
  ⟨(s.nets i).l, (s.nets i).r.withSt (L.set (s.nets i).r.st s.common)⟩

theorem get_view (s : Shared ι σ τ ρ α β ω) (i : ι) : L.get (s.view L i).r.st = s.common := L.get_set ..

variable [DecidableEq ι]

/-- The shared value and net `i` behind a step. -/
def put (s : Shared ι σ τ ρ α β ω) (i : ι) (t : Net σ τ ρ α β) : Shared ι σ τ ρ α β ω :=
  ⟨L.get t.r.st, Function.update s.nets i t⟩

/-- One operation of a party of net `i`. -/
def stepAt (s : Shared ι σ τ ρ α β ω) (i : ι) (right : Bool) : Option (Shared ι σ τ ρ α β ω) :=
  (if right then (s.view L i).stepR else (s.view L i).stepL).map (s.put L i)

/-- Any operations of any parties, in any order. -/
inductive Goes (s : Shared ι σ τ ρ α β ω) : Shared ι σ τ ρ α β ω → Prop where
  | refl : Goes s s
  | step {t u : Shared ι σ τ ρ α β ω} {i : ι} {right : Bool} (r : Goes s t)
      (h : t.stepAt L i right = some u) : Goes s u

/-- On one schedule; whose turn it is when it cannot go is left out. -/
def play (s : Shared ι σ τ ρ α β ω) : List (ι × Bool) → Shared ι σ τ ρ α β ω
  | [] => s
  | x :: xs => play ((s.stepAt L x.1 x.2).getD s) xs

variable {L} {s : Shared ι σ τ ρ α β ω} {i j : ι} {t : Net σ τ ρ α β}

theorem Goes.trans {s t u : Shared ι σ τ ρ α β ω} (h1 : Goes L s t) (h2 : Goes L t u) : Goes L s u := by
  induction h2 with
  | refl => exact h1
  | step _ h ih => exact .step ih h

theorem goes_play (s : Shared ι σ τ ρ α β ω) (xs : List (ι × Bool)) : Goes L s (s.play L xs) := by
  induction xs generalizing s with
  | nil => exact .refl
  | cons x xs ih =>
    unfold play
    cases h : s.stepAt L x.1 x.2 with
    | none => exact ih s
    | some t => exact Goes.trans (.step .refl h) (ih t)

theorem nets_put_self : (s.put L i t).nets i = t := Function.update_self ..

theorem nets_put_ne (h : j ≠ i) : (s.put L i t).nets j = s.nets j := Function.update_of_ne h ..

theorem view_put_self : (s.put L i t).view L i = t := by
  unfold view
  rw [nets_put_self]
  simp [put, Party.withSt, L.set_get]

end Shared

namespace Proc

variable {ι τ ρ β ω : Type} (L : Part ω τ) (G : ι → τ → Prop) (R : ι → τ → τ → Prop) (I : ι → τ → Prop)

/-- A process of the right party of net `i`: it does the same in related states, and
`R j` stays for every other `j`. -/
structure Minds (i : ι) (p : Proc τ ρ β) : Prop where
  own : Lockstep (G i) (R i) p
  others : ∀ j, j ≠ i → ∀ x t, Lockstep (G i) (fun s s' => s = s' ∧ I i s ∧ R j (L.set x (L.get s)) t) p

variable {L G R I} {i : ι} {p q : Party τ ρ β} {e : Bool} {o : Bytes}

theorem Minds.step (hp : Minds L G R I i p.pr) (h : p.step e = some (q, o)) : Minds L G R I i q.pr :=
  ⟨(hp.own.step h).1, fun j hj x t => ((hp.others j hj x t).step h).1⟩

/-- What a step does to the others. -/
theorem Minds.keeps (hp : Minds L G R I i p.pr) (h : p.step e = some (q, o)) {j : ι} (hj : j ≠ i) {x t : τ}
    (hg : G i q.st) (hI : I i p.st) (hR : R j (L.set x (L.get p.st)) t) : R j (L.set x (L.get q.st)) t := by
  obtain ⟨-, -, hstep⟩ := (hp.others j hj x t).step h
  obtain ⟨t', -, -, -, hR'⟩ := hstep p.st ⟨rfl, hI, hR⟩ hg
  exact hR'

end Proc

namespace Shared

open Proc

variable {ι σ τ ρ α β ω : Type} [DecidableEq ι] {L : Part ω τ} {G : ι → τ → Prop} {R : ι → τ → τ → Prop}
  {I : ι → τ → Prop}

/-- While the guards hold, every net is where it comes alone, in a related state. -/
structure Alone (L : Part ω τ) (G : ι → τ → Prop) (R : ι → τ → τ → Prop) (I : ι → τ → Prop)
    (solo : ι → Net σ τ ρ α β) (s : Shared ι σ τ ρ α β ω) : Prop where
  minds : ∀ i, Minds L G R I i (s.view L i).r.pr
  reach : (∀ i, G i (s.view L i).r.st) → ∀ i, ∃ t, R i (s.view L i).r.st t ∧
    Net.Reach (solo i) ⟨(s.view L i).l, (s.view L i).r.withSt t⟩

variable {solo : ι → Net σ τ ρ α β} {s u : Shared ι σ τ ρ α β ω} {i j : ι} {t : Net σ τ ρ α β}

/-- Of another net a step changes the shared value alone. -/
theorem view_put_ne (h : j ≠ i) : (s.put L i t).view L j =
    ⟨(s.view L j).l, (s.view L j).r.withSt (L.set (s.view L j).r.st (L.get t.r.st))⟩ := by
  unfold view
  rw [nets_put_ne h]
  simp [put, Party.withSt, L.set_set]

/-- A left party does nothing to the shared value. -/
theorem Alone.stepL (h : Alone L G R I solo s) {q : Party σ ρ α} {o : Bytes}
    (hq : (s.view L i).l.step (s.view L i).r.done = some (q, o)) :
    Alone L G R I solo (s.put L i ⟨q, (s.view L i).r.feed o⟩) := by
  have hsame (j : ι) (hj : j ≠ i) : (s.put L i ⟨q, (s.view L i).r.feed o⟩).view L j = s.view L j := by
    have hget : L.get ((s.view L i).r.feed o).st = L.get (s.view L j).r.st := by
      rw [get_view]
      exact get_view L s i
    rw [view_put_ne hj, hget, L.set_get]
    rfl
  refine ⟨fun j => ?_, fun hG j => ?_⟩
  · by_cases hj : j = i
    · subst hj
      rw [view_put_self]
      exact h.minds j
    · rw [hsame j hj]
      exact h.minds j
  · have hG' : ∀ j, G j (s.view L j).r.st := by
      intro j
      have hj := hG j
      by_cases hji : j = i
      · subst hji
        rwa [view_put_self] at hj
      · rwa [hsame j hji] at hj
    obtain ⟨t, hR, hreach⟩ := h.reach hG' j
    by_cases hj : j = i
    · subst hj
      rw [view_put_self]
      refine ⟨t, hR, hreach.trans ⟨1, 0, .left ?_ (.refl _)⟩⟩
      simp only [Net.stepL, Option.map_eq_some_iff]
      exact ⟨(q, o), hq, rfl⟩
    · rw [hsame j hj]
      exact ⟨t, hR, hreach⟩

/-- A right party does what it does alone, and the others stay related. -/
theorem Alone.stepR (hguard : ∀ i x c, G i (L.set x c) ↔ G i x) (hinv : ∀ i s t, R i s t → I i s)
    (h : Alone L G R I solo s) {q : Party τ ρ β} {o : Bytes}
    (hq : (s.view L i).r.step (s.view L i).l.done = some (q, o)) :
    Alone L G R I solo (s.put L i ⟨(s.view L i).l.feed o, q⟩) := by
  refine ⟨fun j => ?_, fun hG j => ?_⟩
  · by_cases hj : j = i
    · subst hj
      rw [view_put_self]
      exact (h.minds j).step hq
    · rw [view_put_ne hj]
      exact h.minds j
  · have hGi : G i q.st := by
      have := hG i
      rwa [view_put_self] at this
    obtain ⟨-, hback, hmatch⟩ := (h.minds i).own.step hq
    have hG' : ∀ j, G j (s.view L j).r.st := by
      intro j
      by_cases hj : j = i
      · exact hj ▸ hback hGi
      · have := hG j
        rw [view_put_ne hj] at this
        exact (hguard _ _ _).mp this
    obtain ⟨ti, hRi, hreachi⟩ := h.reach hG' i
    by_cases hj : j = i
    · subst hj
      rw [view_put_self]
      obtain ⟨t', hstep, hR'⟩ := hmatch ti hRi hGi
      refine ⟨t', hR', hreachi.trans ⟨0, 1, .right ?_ (.refl _)⟩⟩
      simp only [Net.stepR, Option.map_eq_some_iff]
      exact ⟨_, hstep, rfl⟩
    · obtain ⟨tj, hRj, hreachj⟩ := h.reach hG' j
      rw [view_put_ne hj]
      refine ⟨tj, ?_, hreachj⟩
      refine (h.minds i).keeps hq hj hGi (hinv i _ _ hRi) ?_
      rw [get_view, ← get_view L s j, L.set_get]
      exact hRj

theorem Alone.step (hguard : ∀ i x c, G i (L.set x c) ↔ G i x) (hinv : ∀ i s t, R i s t → I i s)
    (h : Alone L G R I solo s) {right : Bool} (hs : s.stepAt L i right = some u) : Alone L G R I solo u := by
  obtain ⟨t, ht, rfl⟩ := Option.map_eq_some_iff.mp hs
  cases right with
  | false =>
    obtain ⟨⟨q, o⟩, hq, rfl⟩ := Option.map_eq_some_iff.mp (show (s.view L i).stepL = some t from ht)
    exact h.stepL hq
  | true =>
    obtain ⟨⟨q, o⟩, hq, rfl⟩ := Option.map_eq_some_iff.mp (show (s.view L i).stepR = some t from ht)
    exact h.stepR hguard hinv hq

/-- Every interleaving takes every net to where it comes alone. -/
theorem alone (hguard : ∀ i x c, G i (L.set x c) ↔ G i x) (hinv : ∀ i s t, R i s t → I i s)
    (h : Alone L G R I solo s) (hu : Goes L s u) : Alone L G R I solo u := by
  induction hu with
  | refl => exact h
  | step _ hs ih => exact ih.step hguard hinv hs

/-- Whether a party is stuck does not depend on its state. -/
theorem step_withSt_none {p : Party τ ρ β} {t : τ} {e : Bool} : (p.withSt t).step e = none ↔ p.step e = none := by
  obtain ⟨pr, st, inp, h⟩ := p
  cases pr with
  | recv r n k =>
    simp only [Party.withSt, Party.step]
    split
    · simp
    · split <;> simp
  | _ => simp [Party.withSt, Party.step]

/-- A net that ends when it is alone: here it goes on or is at that end. -/
theorem Alone.ends (h : Alone L G R I solo s) (hG : ∀ i, G i (s.view L i).r.st) {e : Net σ τ ρ α β}
    (he : Net.Reach (solo i) e) (hstuck : e.Stuck) : (∃ right u, s.stepAt L i right = some u) ∨
      ∃ t, R i (s.view L i).r.st t ∧ e = ⟨(s.view L i).l, (s.view L i).r.withSt t⟩ := by
  obtain ⟨t, hR, hreach⟩ := h.reach hG i
  cases hl : (s.view L i).stepL with
  | some u => exact .inl ⟨false, s.put L i u, by simp [stepAt, hl]⟩
  | none =>
    cases hr : (s.view L i).stepR with
    | some u => exact .inl ⟨true, s.put L i u, by simp [stepAt, hr]⟩
    | none =>
      refine .inr ⟨t, hR, Net.done_unique he hreach hstuck ⟨?_, ?_⟩⟩
      · have hdone : ((s.view L i).r.withSt t).done = (s.view L i).r.done := rfl
        simpa [Net.stepL, hdone] using hl
      · simpa [Net.stepR, step_withSt_none] using hr

end Shared

end Mefsc
