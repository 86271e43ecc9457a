import Mathlib.Algebra.BigOperators.Group.Finset.Piecewise
import Mathlib.Algebra.GroupWithZero.Nat
import Mathlib.Data.Fintype.Basic
import Mefsc.Core.Lts

/-!
# Runs that go on, and fairness

An infinite run of a transition system, and what it means for it to be fair to a set
of labels: when one of them can be taken from some moment on, one of them is taken.
`Run.fires`: a state in which they can be taken, and that only they leave,
is left by one of them. `eventually_of_rank`: a rank that is never raised and is
lowered again and again brings about what else can happen. `Trace.count_le` bounds
the steps of finite runs in the same way.

`sum_update` is for ranks that are sums over threads.
-/
namespace Mefsc

/-- One summand is replaced. -/
theorem sum_update {ι β : Type} [Fintype ι] [DecidableEq ι] (g : β → Nat) (f : ι → β) (i : ι) (x : β) :
    (∑ j, g (Function.update f i x j)) + g (f i) = (∑ j, g (f j)) + g x := by
  have hg : (fun j => g (Function.update f i x j)) = Function.update (fun j => g (f j)) i (g x) := by
    funext j
    by_cases h : j = i
    · subst h
      simp
    · simp [h]
  rw [hg, Finset.sum_update_of_mem (Finset.mem_univ i)]
  have hsplit := Finset.sum_sdiff (f := fun j => g (f j)) (Finset.subset_univ {i})
  rw [Finset.sum_singleton] at hsplit
  omega

theorem eventually_of_rank {W A G : Nat → Prop} {μ : Nat → Nat}
    (hstep : ∀ n, W n → G n ∨ (W (n + 1) ∧ μ (n + 1) ≤ μ n ∧ (A n → μ (n + 1) < μ n)))
    (hA : ∀ n, W n → ∃ m, n ≤ m ∧ A m) {n : Nat} (hn : W n) : ∃ m, n ≤ m ∧ W m ∧ G m := by
  -- on the rank; between two steps that lower it, on the distance
  induction hr : μ n using Nat.strong_induction_on generalizing n with
  | _ r ih =>
    obtain ⟨m, hm, ha⟩ := hA n hn
    have hwalk : ∀ k, n ≤ k → k ≤ m → (∃ j, n ≤ j ∧ W j ∧ G j) ∨ (W k ∧ μ k ≤ μ n) := by
      intro k hk
      induction k, hk using Nat.le_induction with
      | base => exact fun _ => .inr ⟨hn, Nat.le_refl _⟩
      | succ k hk ihk =>
        intro hle
        rcases ihk (by omega) with hg | ⟨hw, hle'⟩
        · exact .inl hg
        rcases hstep k hw with hg | ⟨hw', hmu, -⟩
        · exact .inl ⟨k, hk, hw, hg⟩
        · exact .inr ⟨hw', hmu.trans hle'⟩
    rcases hwalk m hm (Nat.le_refl m) with hg | ⟨hw, hle⟩
    · exact hg
    rcases hstep m hw with hg | ⟨hw', -, hlt⟩
    · exact ⟨m, hm, hw, hg⟩
    have hdown := hlt ha
    obtain ⟨j, hj, hG⟩ := ih (μ (m + 1)) (by omega) hw' rfl
    exact ⟨j, by omega, hG⟩

namespace LTS

variable {S L : Type}

theorem guarded_some {g : S → L → Bool} {f : S → L → Option S} {s s' : S} {l : L} (h : guarded g f s l = some s') :
    g s l = true ∧ f s l = some s' := by
  unfold guarded at h
  split at h
  · exact ⟨‹_›, h⟩
  · cases h

/-- Some label of `A` can be taken. -/
def Enabled (M : LTS S L) (A : L → Prop) (s : S) : Prop := ∃ l s', A l ∧ M.step s l s'

/-- A rank that is lowered by the steps of `A` and raised by others by their `gain`
bounds the number of the former. -/
theorem Trace.count_le {M : LTS S L} {I : S → Prop} {A : L → Prop} [DecidablePred A] {μ : S → Nat} {gain : L → Nat}
    (hstep : ∀ s l s', I s → M.step s l s' → I s' ∧ μ s' + (if A l then 1 else 0) ≤ μ s + gain l) {s t : S}
    {tr : List (S × L)} (h : M.Trace s tr t) (hs : I s) :
    I t ∧ tr.countP (fun x => A x.2) + μ t ≤ μ s + (tr.map fun x => gain x.2).sum := by
  induction h with
  | refl => exact ⟨hs, by simp⟩
  | @snoc tr t u l _ hl ih =>
    obtain ⟨hI, hle⟩ := ih
    obtain ⟨hu, hmu⟩ := hstep _ _ _ hI hl
    refine ⟨hu, ?_⟩
    rw [List.countP_append, List.countP_singleton, List.map_append, List.sum_append]
    simp only [decide_eq_true_eq, List.map_cons, List.map_nil, List.sum_singleton]
    omega

/-- When the rank is lowered as long as labels of `A` are taken, they run out. -/
theorem exists_not_enabled {M : LTS S L} {I : S → Prop} {A : L → Prop} {μ : S → Nat}
    (hstep : ∀ s l s', I s → M.step s l s' → A l → I s' ∧ μ s' < μ s) {s : S} (hs : I s) :
    ∃ tr t, M.Trace s tr t ∧ I t ∧ ¬ M.Enabled A t := by
  induction hr : μ s using Nat.strong_induction_on generalizing s with
  | _ r ih =>
    by_cases he : M.Enabled A s
    · obtain ⟨l, s', hl, hs'⟩ := he
      obtain ⟨hI, hlt⟩ := hstep s l s' hs hs' hl
      obtain ⟨tr, t, htr, ht⟩ := ih (μ s') (by omega) hI rfl
      exact ⟨_, t, (Trace.snoc .refl hs').trans htr, ht⟩
    · exact ⟨[], s, .refl, hs, he⟩

/-- It goes on for ever. -/
structure Run (M : LTS S L) where
  st : Nat → S
  lab : Nat → L
  start : M.Reachable (st 0)
  step : ∀ n, M.step (st n) (lab n) (st (n + 1))

namespace Run

variable {M : LTS S L} (r : M.Run)

theorem reachable (n : Nat) : M.Reachable (r.st n) := by
  induction n with
  | zero => exact r.start
  | succ n ih => exact .step ih (r.step n)

def Fair (A : L → Prop) : Prop := ∀ n, (∀ m, n ≤ m → M.Enabled A (r.st m)) → ∃ m, n ≤ m ∧ A (r.lab m)

/-- `P` at `n` is left by a label of `A`, and holds until then. -/
theorem fires {A : L → Prop} (hf : r.Fair A) {P : Nat → Prop} (hen : ∀ n, P n → M.Enabled A (r.st n))
    (hkeep : ∀ n, P n → ¬ A (r.lab n) → P (n + 1)) {n : Nat} (hn : P n) : ∃ m, n ≤ m ∧ P m ∧ A (r.lab m) := by
  by_contra hno
  have hP : ∀ m, n ≤ m → P m := by
    intro m hm
    induction m, hm using Nat.le_induction with
    | base => exact hn
    | succ m hm ih => exact hkeep m ih fun ha => hno ⟨m, hm, ih, ha⟩
  obtain ⟨m, hm, ha⟩ := hf n fun m hm => hen m (hP m hm)
  exact hno ⟨m, hm, hP m hm, ha⟩

/-- A step before it. -/
def cons {s : S} {l : L} (hs : M.Reachable s) (h : M.step s l (r.st 0)) : M.Run where
  st := fun n => Nat.casesOn n s r.st
  lab := fun n => Nat.casesOn n l r.lab
  start := hs
  step := by
    intro n
    cases n with
    | zero => exact h
    | succ n => exact r.step n

/-- Fairness does not depend on the first step. -/
theorem fair_cons {s : S} {l : L} (hs : M.Reachable s) (h : M.step s l (r.st 0)) {A : L → Prop} (hf : r.Fair A) :
    (r.cons hs h).Fair A := by
  intro n hen
  obtain ⟨m, hm, ha⟩ := hf n fun m hm => hen (m + 1) (by omega)
  exact ⟨m + 1, by omega, ha⟩

/-- Steps before it, with a test that `P` holds in their states. -/
theorem exists_foldlM {P : S → Prop} {g : S → L → Bool} {f : S → L → Option S}
    (hg : ∀ s l, g s l = true → P s) (hf : ∀ s l s', f s l = some s' → M.step s l s') (hP : ∀ n, P (r.st n))
    {ls : List L} {s : S} (hs : M.Reachable s) (h : ls.foldlM (guarded g f) s = some (r.st 0)) :
    ∃ r' : M.Run, r'.st 0 = s ∧ (∀ n, P (r'.st n)) ∧ ∀ A, r.Fair A → r'.Fair A := by
  induction ls generalizing s with
  | nil =>
    obtain rfl : s = r.st 0 := by simpa using h
    exact ⟨r, rfl, hP, fun _ ha => ha⟩
  | cons l ls ih =>
    obtain ⟨t, ht, h'⟩ : ∃ t, guarded g f s l = some t ∧ ls.foldlM (guarded g f) t = some (r.st 0) := by
      simpa [List.foldlM_cons, Option.bind_eq_some_iff] using h
    have hst := hf s l t (guarded_some ht).2
    obtain ⟨r', h0, hP', hF⟩ := ih (.step hs hst) h'
    subst h0
    refine ⟨r'.cons hs hst, rfl, ?_, fun A ha => r'.fair_cons hs hst (hF A ha)⟩
    intro n
    cases n with
    | zero => exact hg s l (guarded_some ht).1
    | succ n => exact hP' n

end Run

end LTS

end Mefsc
