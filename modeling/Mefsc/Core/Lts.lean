import Mathlib.Logic.Basic

/-!
# Labelled transition systems

States reached by any sequence of steps, and the rule that an inductive
property holds in all of them. `M.during P` are the runs of `M` all of whose
steps meet `P`; `M.Trace s tr s'` keeps the steps of a run, each with the state
it was taken in.
-/
namespace Mefsc

structure LTS (S L : Type) where
  init : S → Prop
  step : S → L → S → Prop

namespace LTS

variable {S L : Type}

inductive Reachable (M : LTS S L) : S → Prop where
  | init {s : S} (h : M.init s) : Reachable M s
  | step {s s' : S} {l : L} (r : Reachable M s) (h : M.step s l s') : Reachable M s'

/-- `I` holds initially and is kept by every step. -/
structure Invariant (M : LTS S L) (I : S → Prop) : Prop where
  init : ∀ s, M.init s → I s
  step : ∀ s l s', I s → M.step s l s' → I s'

theorem Invariant.reachable {M : LTS S L} {I : S → Prop} (h : M.Invariant I) {s : S}
    (r : M.Reachable s) : I s := by
  induction r with
  | init hs => exact h.init _ hs
  | step _ hs ih => exact h.step _ _ _ ih hs

/-- The runs in which every step meets `P`. -/
def during (M : LTS S L) (P : S → L → Prop) : LTS S L where
  init := M.init
  step s l s' := M.step s l s' ∧ P s l

theorem Reachable.of_during {M : LTS S L} {P : S → L → Prop} {s : S}
    (r : (M.during P).Reachable s) : M.Reachable s := by
  induction r with
  | init h => exact .init h
  | step _ h ih => exact .step ih h.1

/-- An invariant of all runs may be used to show one of the restricted runs. -/
theorem Invariant.during {M : LTS S L} {P : S → L → Prop} {I J : S → Prop} (hI : M.Invariant I)
    (init : ∀ s, M.init s → J s)
    (step : ∀ s l s', I s → P s l → J s → M.step s l s' → J s') {s : S}
    (r : (M.during P).Reachable s) : J s := by
  induction r with
  | init h => exact init _ h
  | step r h ih => exact step _ _ _ (hI.reachable r.of_during) h.2 ih h.1

/-- A run from `s` to `s'` with the states and labels of its steps. -/
inductive Trace (M : LTS S L) (s : S) : List (S × L) → S → Prop where
  | refl : Trace M s [] s
  | snoc {tr : List (S × L)} {t u : S} {l : L} (h : Trace M s tr t) (hl : M.step t l u) :
      Trace M s (tr ++ [(t, l)]) u

theorem Trace.reachable {M : LTS S L} {s s' : S} {tr : List (S × L)} (h : M.Trace s tr s')
    (r : M.Reachable s) : M.Reachable s' := by
  induction h with
  | refl => exact r
  | snoc _ hl ih => exact .step ih hl

theorem Trace.trans {M : LTS S L} {s t u : S} {xs ys : List (S × L)} (h : M.Trace s xs t)
    (h' : M.Trace t ys u) : M.Trace s (xs ++ ys) u := by
  induction h' with
  | refl => simpa using h
  | snoc _ hl ih =>
    rw [← List.append_assoc]
    exact .snoc ih hl

/-- Running a list of labels through a step function. -/
theorem Trace.foldlM {M : LTS S L} {f : S → L → Option S}
    (hf : ∀ s l s', f s l = some s' → M.step s l s') {ls : List L} {s s' : S}
    (h : ls.foldlM f s = some s') : ∃ tr, M.Trace s tr s' := by
  induction ls generalizing s with
  | nil =>
    obtain rfl : s = s' := by simpa using h
    exact ⟨[], .refl⟩
  | cons l ls ih =>
    obtain ⟨t, ht, h'⟩ : ∃ t, f s l = some t ∧ ls.foldlM f t = some s' := by
      simpa [List.foldlM_cons, Option.bind_eq_some_iff] using h
    obtain ⟨tr, htr⟩ := ih h'
    exact ⟨_, (Trace.snoc .refl (hf _ _ _ ht)).trans htr⟩

theorem Reachable.foldlM {M : LTS S L} {f : S → L → Option S}
    (hf : ∀ s l s', f s l = some s' → M.step s l s') {ls : List L} {s s' : S}
    (r : M.Reachable s) (h : ls.foldlM f s = some s') : M.Reachable s' := by
  obtain ⟨tr, htr⟩ := Trace.foldlM hf h
  exact htr.reachable r

/-- Steps that pass a test. -/
def guarded (g : S → L → Bool) (f : S → L → Option S) (s : S) (l : L) : Option S :=
  if g s l then f s l else none

/-- Running a list of labels, with a test that `P` holds of each step. -/
theorem Reachable.guarded {M : LTS S L} {P : S → L → Prop} {g : S → L → Bool} {f : S → L → Option S}
    (hg : ∀ s l, g s l = true → P s l) (hf : ∀ s l s', f s l = some s' → M.step s l s') {ls : List L}
    {s s' : S} (r : (M.during P).Reachable s) (h : ls.foldlM (guarded g f) s = some s') :
    (M.during P).Reachable s' := by
  refine Reachable.foldlM (fun s l s' hs => ?_) r h
  unfold LTS.guarded at hs
  split at hs
  · exact ⟨hf s l s' hs, hg s l ‹_›⟩
  · cases hs

end LTS

end Mefsc
