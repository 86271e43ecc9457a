import Mefsc.Core.Net

/-!
# One party against any peer, and two runs of it side by side

`Party.run`: a party under a list of moves, each the arrival of some bytes or
one operation of its own. Whatever the peer is and however it is scheduled, what
it does to the party is such a list.

`Lockstep G R p`: from states related by `R`, every operation of `p` has the
same outcome and leads to related states again, as long as the guard `G` holds
of the state after it; and `G` never comes back once it is lost. Then a run that
ends with `G` is matched, move for move, by a run from any related state
(`Lockstep.run`). With `R s t := s = t ∧ I s` this is an invariant rule.
-/
namespace Mefsc

variable {σ ρ α β γ : Type}

namespace Party

inductive Move where
  | arrive (x : Bytes)
  | step (eof : Bool)

def move (p : Party σ ρ α) : Move → Option (Party σ ρ α × Bytes)
  | .arrive x => some (p.feed x, [])
  | .step e => p.step e

/-- The party after some moves, and what it sent. -/
def run (p : Party σ ρ α) : List Move → Option (Party σ ρ α × Bytes)
  | [] => some (p, [])
  | m :: ms => (p.move m).bind fun x => (x.1.run ms).map fun y => (y.1, x.2 ++ y.2)

theorem run_cons {p q : Party σ ρ α} {m : Move} {ms : List Move} {o : Bytes} :
    p.run (m :: ms) = some (q, o) ↔
      ∃ p' o1 o2, p.move m = some (p', o1) ∧ p'.run ms = some (q, o2) ∧ o = o1 ++ o2 := by
  simp only [run, Option.bind_eq_some_iff, Option.map_eq_some_iff, Prod.exists, Prod.mk.injEq]
  constructor
  · rintro ⟨p', o1, h1, q', o2, h2, rfl, rfl⟩
    exact ⟨p', o1, o2, h1, h2, rfl⟩
  · rintro ⟨p', o1, o2, h1, h2, rfl⟩
    exact ⟨p', o1, h1, q, o2, h2, rfl, rfl⟩

theorem Steps.run {e : Bool} {n : Nat} {p q : Party σ ρ α} {o : Bytes} (h : Steps e n p q o) :
    p.run (List.replicate n (.step e)) = some (q, o) := by
  induction h with
  | refl p => rfl
  | head h _ ih => exact run_cons.mpr ⟨_, _, _, h, ih, rfl⟩

/-- The same party in another state. -/
def withSt (p : Party σ ρ α) (t : σ) : Party σ ρ α := { p with st := t }

end Party

namespace Proc

def Lockstep (G : σ → Prop) (R : σ → σ → Prop) : {α : Type} → Proc σ ρ α → Prop
  | _, .ret _ => True
  | _, .recv _ _ k => ∀ o, Lockstep G R (k o)
  | _, .send _ _ k => ∀ o, Lockstep G R (k o)
  | _, .act f k =>
    (∀ s, G (f s).2 → G s) ∧
    (∀ s t, R s t → G (f s).2 → (f s).1 = (f t).1 ∧ R (f s).2 (f t).2) ∧ ∀ x, Lockstep G R (k x)
  | _, .iter body _ k => (∀ g, Lockstep G R (body g)) ∧ ∀ x, Lockstep G R (k x)

variable {G : σ → Prop} {R : σ → σ → Prop}

theorem Lockstep.bind' {p : Proc σ ρ α} {f : α → Proc σ ρ β} (hp : Lockstep G R p)
    (hf : ∀ a, Lockstep G R (f a)) : Lockstep G R (p.bind f) := by
  induction p with
  | ret a => exact hf a
  | recv r n k ih => exact fun o => ih o (hp o) hf
  | send r b k ih => exact fun o => ih o (hp o) hf
  | act g k ih => exact ⟨hp.1, hp.2.1, fun x => ih x (hp.2.2 x) hf⟩
  | iter body g k _ ih => exact ⟨hp.1, fun x => ih x (hp.2 x) hf⟩

theorem Lockstep.bind {p : Proc σ ρ α} {f : α → Proc σ ρ β} (hp : Lockstep G R p)
    (hf : ∀ a, Lockstep G R (f a)) : Lockstep G R (p >>= f) := hp.bind' hf

theorem Lockstep.ite {c : Prop} [Decidable c] {p q : Proc σ ρ α} (hp : Lockstep G R p)
    (hq : Lockstep G R q) : Lockstep G R (if c then p else q) := by
  split
  · exact hp
  · exact hq

theorem lockstep_pure (a : α) : Lockstep G R (pure a : Proc σ ρ α) := trivial

theorem lockstep_recvN (r : ρ) (n : Nat) : Lockstep G R (recvN r n : Proc σ ρ (Option Bytes)) :=
  fun _ => trivial

theorem lockstep_sendB (r : ρ) (b : Bytes) : Lockstep G R (sendB r b : Proc σ ρ (Option Nat)) :=
  fun _ => trivial

theorem lockstep_modifyGet {f : σ → β × σ} (hG : ∀ s, G (f s).2 → G s)
    (hR : ∀ s t, R s t → G (f s).2 → (f s).1 = (f t).1 ∧ R (f s).2 (f t).2) :
    Lockstep G R (modifyGet f : Proc σ ρ β) := ⟨hG, hR, fun _ => trivial⟩

theorem lockstep_modify {f : σ → σ} (hG : ∀ s, G (f s) → G s)
    (hR : ∀ s t, R s t → G (f s) → R (f s) (f t)) : Lockstep G R (modify f : Proc σ ρ Unit) :=
  ⟨hG, fun s t h hg => ⟨rfl, hR s t h hg⟩, fun _ => trivial⟩

theorem lockstep_read {f : σ → β} (hR : ∀ s t, R s t → G s → f s = f t) :
    Lockstep G R (read f : Proc σ ρ β) :=
  ⟨fun _ h => h, fun s t h hg => ⟨hR s t h hg, h⟩, fun _ => trivial⟩

theorem Lockstep.loop {body : γ → Proc σ ρ (γ ⊕ β)} (hb : ∀ g, Lockstep G R (body g)) (g : γ) :
    Lockstep G R (loop body g) := ⟨hb, fun _ => trivial⟩

/-- One of a family of relations, which may be chosen anew at every operation. -/
theorem Lockstep.of_family {κ : Type} {S : κ → σ → σ → Prop} (hin : ∀ s t, R s t → ∃ c, S c s t)
    (hout : ∀ c s t, S c s t → R s t) {p : Proc σ ρ α} (hp : ∀ c, Lockstep G (S c) p) [Nonempty κ] :
    Lockstep G R p := by
  obtain ⟨c0⟩ := ‹Nonempty κ›
  induction p with
  | ret a => trivial
  | recv r n k ih => exact fun o => ih o fun c => hp c o
  | send r b k ih => exact fun o => ih o fun c => hp c o
  | act f k ih =>
    refine ⟨(hp c0).1, fun s t h hg => ?_, fun x => ih x fun c => (hp c).2.2 x⟩
    obtain ⟨c, hc⟩ := hin s t h
    obtain ⟨h1, h2⟩ := (hp c).2.1 s t hc hg
    exact ⟨h1, hout c _ _ h2⟩
  | iter body g k ihb ih => exact ⟨fun g => ihb g fun c => (hp c).1 g, fun x => ih x fun c => (hp c).2 x⟩

/-- With an invariant of the first of the two. -/
theorem Lockstep.and_inv {I : σ → Prop} {p : Proc σ ρ α} (hp : Lockstep G R p)
    (hI : Lockstep G (fun s s' => s = s' ∧ I s) p) : Lockstep G (fun s t => R s t ∧ I s) p := by
  induction p with
  | ret a => trivial
  | recv r n k ih => exact fun o => ih o (hp o) (hI o)
  | send r b k ih => exact fun o => ih o (hp o) (hI o)
  | act f k ih =>
    refine ⟨hp.1, fun s t h hg => ?_, fun x => ih x (hp.2.2 x) (hI.2.2 x)⟩
    obtain ⟨h1, h2⟩ := hp.2.1 s t h.1 hg
    exact ⟨h1, h2, (hI.2.1 s s ⟨rfl, h.2⟩ hg).2.2⟩
  | iter body g k ihb ih => exact ⟨fun g => ihb g (hp.1 g) (hI.1 g), fun x => ih x (hp.2 x) (hI.2 x)⟩

/-! ## Runs -/

open Party

theorem Lockstep.step {p q : Party σ ρ α} {e : Bool} {o : Bytes} (hp : Lockstep G R p.pr)
    (h : p.step e = some (q, o)) :
    Lockstep G R q.pr ∧ (G q.st → G p.st) ∧
      ∀ t, R p.st t → G q.st → ∃ t', (p.withSt t).step e = some (q.withSt t', o) ∧ R q.st t' := by
  obtain ⟨pr, st, inp, hist⟩ := p
  cases pr with
  | ret a => simp [Party.step] at h
  | recv r n k =>
    by_cases hn : n ≤ inp.length
    · simp only [Party.step, hn, if_true, Option.some.injEq, Prod.mk.injEq] at h
      obtain ⟨rfl, rfl⟩ := h
      exact ⟨hp _, id, fun t ht _ => ⟨t, by simp [Party.step, withSt, hn], ht⟩⟩
    · simp only [Party.step, hn, if_false] at h
      split at h
      · rename_i he
        simp only [Option.some.injEq, Prod.mk.injEq] at h
        obtain ⟨rfl, rfl⟩ := h
        exact ⟨hp _, id, fun t ht _ => ⟨t, by simp [Party.step, withSt, hn, he], ht⟩⟩
      · cases h
  | send r b k =>
    simp only [Party.step, Option.some.injEq, Prod.mk.injEq] at h
    obtain ⟨rfl, rfl⟩ := h
    exact ⟨hp _, id, fun t ht _ => ⟨t, rfl, ht⟩⟩
  | act f k =>
    simp only [Party.step, Option.some.injEq, Prod.mk.injEq] at h
    obtain ⟨rfl, rfl⟩ := h
    obtain ⟨hG, hR, hk⟩ := hp
    refine ⟨hk _, hG st, fun t ht hg => ?_⟩
    obtain ⟨h1, h2⟩ := hR st t ht hg
    exact ⟨(f t).2, by simp [Party.step, withSt, h1], h2⟩
  | iter body g k =>
    simp only [Party.step, Option.some.injEq, Prod.mk.injEq] at h
    obtain ⟨rfl, rfl⟩ := h
    refine ⟨(hp.1 g).bind' fun x => ?_, id, fun t ht _ => ⟨t, rfl, ht⟩⟩
    cases x with
    | inl g' => exact ⟨hp.1, hp.2⟩
    | inr b => exact hp.2 b

theorem Lockstep.move {p q : Party σ ρ α} {m : Move} {o : Bytes} (hp : Lockstep G R p.pr)
    (h : p.move m = some (q, o)) :
    Lockstep G R q.pr ∧ (G q.st → G p.st) ∧
      ∀ t, R p.st t → G q.st → ∃ t', (p.withSt t).move m = some (q.withSt t', o) ∧ R q.st t' := by
  cases m with
  | step e => exact hp.step h
  | arrive x =>
    simp only [Party.move, Option.some.injEq, Prod.mk.injEq] at h
    obtain ⟨rfl, rfl⟩ := h
    exact ⟨hp, id, fun t ht _ => ⟨t, rfl, ht⟩⟩

theorem Lockstep.guard {p q : Party σ ρ α} {ms : List Move} {o : Bytes} (hp : Lockstep G R p.pr)
    (h : p.run ms = some (q, o)) (hg : G q.st) : G p.st := by
  induction ms generalizing p o with
  | nil =>
    simp only [Party.run, Option.some.injEq, Prod.mk.injEq] at h
    exact h.1 ▸ hg
  | cons m ms ih =>
    obtain ⟨p', o1, o2, h1, h2, -⟩ := run_cons.mp h
    obtain ⟨hp', hG, -⟩ := hp.move h1
    exact hG (ih hp' h2)

theorem Lockstep.run {p q : Party σ ρ α} {ms : List Move} {o : Bytes} (hp : Lockstep G R p.pr)
    (h : p.run ms = some (q, o)) (hg : G q.st) {t : σ} (ht : R p.st t) :
    ∃ t', (p.withSt t).run ms = some (q.withSt t', o) ∧ R q.st t' := by
  induction ms generalizing p o t with
  | nil =>
    simp only [Party.run, Option.some.injEq, Prod.mk.injEq] at h
    obtain ⟨rfl, rfl⟩ := h
    exact ⟨t, rfl, ht⟩
  | cons m ms ih =>
    obtain ⟨p', o1, o2, h1, h2, rfl⟩ := run_cons.mp h
    obtain ⟨hp', -, hm⟩ := hp.move h1
    obtain ⟨t1, hm1, ht1⟩ := hm t ht (hp'.guard h2 hg)
    obtain ⟨t', hr, ht'⟩ := ih hp' h2 ht1
    exact ⟨t', run_cons.mpr ⟨_, _, _, hm1, hr, rfl⟩, ht'⟩

end Proc

end Mefsc
