import Mefsc.Core.Channel
import Mefsc.Core.Zoom

/-!
# A net inside a larger one

`Net.within`: the two parties of a net as the rest of two larger programs, each on a
part of a larger state, with a history before it and a result that is renamed. Its
steps are those of the net (`stepL_within`, `stepR_within`), so that what is reached
from it is what is reached from the net (`reach_within`).
-/
namespace Mefsc

variable {σ τ σ' τ' ρ ρ' α β α' β' : Type}

/-- Where a party is put: the part of the state, the labels, the state around it, the
history before it and what becomes of its result. -/
structure Frame (σ τ ρ ρ' α β : Type) where
  part : Part σ τ
  label : ρ → ρ'
  around : τ
  before : List (Ev ρ')
  result : α → β

namespace Party

variable (F : Frame σ τ ρ ρ' α β)

def within (p : Party σ ρ α) : Party τ ρ' β :=
  ⟨(Proc.zoom F.part F.label p.pr).bind fun a => .ret (F.result a), F.part.set F.around p.st, p.inp,
    F.before ++ p.hist.map (Ev.relabel F.label)⟩

@[simp] theorem done_within (p : Party σ ρ α) : (p.within F).done = p.done := by
  obtain ⟨pr, st, inp, h⟩ := p
  cases pr <;> rfl

@[simp] theorem feed_within (p : Party σ ρ α) (x : Bytes) : (p.within F).feed x = (p.feed x).within F := rfl

theorem step_within (p : Party σ ρ α) (e : Bool) :
    (p.within F).step e = (p.step e).map fun x => (x.1.within F, x.2) := by
  obtain ⟨pr, st, inp, h⟩ := p
  cases pr with
  | ret a => rfl
  | recv r n k =>
    by_cases hn : n ≤ inp.length
    · simp [within, Proc.zoom, Proc.bind, step, hn, Ev.relabel]
    · by_cases he : e = true
      · simp [within, Proc.zoom, Proc.bind, step, hn, he, Ev.relabel]
      · simp [within, Proc.zoom, Proc.bind, step, hn, he]
  | send r b k => simp [within, Proc.zoom, Proc.bind, step, Ev.relabel]
  | act f k => simp [within, Proc.zoom, Proc.bind, step, F.part.get_set, F.part.set_set]
  | iter body g k =>
    simp only [within, Proc.zoom, Proc.bind, step, Option.map_some, Option.some.injEq, Prod.mk.injEq, and_true,
      mk.injEq]
    rw [Proc.zoom_bind, Proc.bind_assoc]
    congr 1
    funext x
    cases x <;> rfl

end Party

namespace Net

variable (F : Frame σ σ' ρ ρ' α α') (F' : Frame τ τ' ρ ρ' β β')

def within (s : Net σ τ ρ α β) : Net σ' τ' ρ' α' β' := ⟨s.l.within F, s.r.within F'⟩

variable {F F'} {s : Net σ τ ρ α β}

theorem stepL_within : (s.within F F').stepL = s.stepL.map (Net.within F F') := by
  simp only [stepL, within, Party.step_within, Party.done_within, Option.map_map]
  rfl

theorem stepR_within : (s.within F F').stepR = s.stepR.map (Net.within F F') := by
  simp only [stepR, within, Party.step_within, Party.done_within, Option.map_map]
  rfl

theorem Run.within {i j : Nat} {t : Net σ τ ρ α β} (h : Run i j s t) :
    Run i j (s.within F F') (t.within F F') := by
  induction h with
  | refl => exact .refl _
  | left h _ ih => exact .left (by rw [stepL_within, h]; rfl) ih
  | right h _ ih => exact .right (by rw [stepR_within, h]; rfl) ih

theorem Run.of_within {i j : Nat} {v u : Net σ' τ' ρ' α' β'} (h : Run i j v u) (hv : v = s.within F F') :
    ∃ t, Run i j s t ∧ u = t.within F F' := by
  induction h generalizing s with
  | refl => exact ⟨s, .refl s, hv⟩
  | left h _ ih =>
    subst hv
    rw [stepL_within, Option.map_eq_some_iff] at h
    obtain ⟨t, ht, rfl⟩ := h
    obtain ⟨u, hu, rfl⟩ := ih rfl
    exact ⟨u, .left ht hu, rfl⟩
  | right h _ ih =>
    subst hv
    rw [stepR_within, Option.map_eq_some_iff] at h
    obtain ⟨t, ht, rfl⟩ := h
    obtain ⟨u, hu, rfl⟩ := ih rfl
    exact ⟨u, .right ht hu, rfl⟩

/-- What the larger net gets to is what the net gets to. -/
theorem reach_within {u : Net σ' τ' ρ' α' β'} :
    Reach (s.within F F') u ↔ ∃ t, Reach s t ∧ u = t.within F F' := by
  constructor
  · rintro ⟨i, j, h⟩
    obtain ⟨t, ht, rfl⟩ := h.of_within rfl
    exact ⟨t, ⟨i, j, ht⟩, rfl⟩
  · rintro ⟨t, ⟨i, j, h⟩, rfl⟩
    exact ⟨i, j, h.within⟩

end Net

end Mefsc
