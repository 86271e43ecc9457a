import Mefsc.Core.Proc

/-!
# Processes that end

On a stream that the peer has closed every `recv` returns, so a process without
loops ends (`Straight.halts`), and a loop ends when each of its rounds does and
a measure goes down with every round (`halts_loop`). `Rounds body g w g' w'`:
some rounds of the loop lead from one loop state and world to another; a loop
that ends gets through all of them (`Rounds.halts`).

`Closed P`: the predicate `P` of processes goes through the ways of building one;
`Moves R` does, for a preorder `R` on states.
-/
namespace Mefsc

namespace Proc

variable {σ ρ α β γ : Type}

/-! ## What every run keeps -/

theorem recv_st {w w' : World σ ρ} {r : ρ} {n : Nat} {o : Option Bytes}
    (h : w.recv r n = some (o, w')) : w'.st = w.st := by
  unfold World.recv at h
  split at h
  · cases h
    rfl
  · split at h
    · cases h
      rfl
    · cases h

theorem send_st (w : World σ ρ) (r : ρ) (b : Bytes) : (w.send r b).2.st = w.st := by
  unfold World.send
  split <;> rfl

/-- A send leaves everything alone that does not record it. -/
theorem send_same (w : World σ ρ) (r : ρ) (b : Bytes) :
    ∃ h os, (w.send r b).2 = ⟨w.st, w.inp, w.eof, h, os⟩ := by
  unfold World.send
  split <;> exact ⟨_, _, rfl⟩

theorem runs_send (w : World σ ρ) (r : ρ) (b : Bytes) : Runs (sendB r b) w (w.send r b).1 (w.send r b).2 :=
  (runs_sendB _ _ _ _ _).mpr rfl

theorem exec_stream {n : Nat} {p : Proc σ ρ α} {w w' : World σ ρ} {a : α}
    (h : exec n p w = some (a, w')) : w'.eof = w.eof ∧ w'.inp.length ≤ w.inp.length := by
  induction p generalizing w w' with
  | ret b =>
    simp only [exec, Option.some.injEq, Prod.mk.injEq] at h
    rw [← h.2]
    exact ⟨rfl, Nat.le_refl _⟩
  | recv r m k ih =>
    simp only [exec, Option.bind_eq_some_iff] at h
    obtain ⟨⟨o, w1⟩, h1, h2⟩ := h
    have hw := ih o h2
    unfold World.recv at h1
    split at h1
    · simp only [Option.some.injEq, Prod.mk.injEq] at h1
      obtain ⟨-, rfl⟩ := h1
      simp only [List.length_drop] at hw
      exact ⟨hw.1, by omega⟩
    · split at h1
      · simp only [Option.some.injEq, Prod.mk.injEq] at h1
        obtain ⟨-, rfl⟩ := h1
        simp only [List.length_nil] at hw
        exact ⟨hw.1, by omega⟩
      · cases h1
  | send r b k ih =>
    have hw := ih _ h
    unfold World.send at hw
    split at hw <;> exact hw
  | act f k ih => exact ih (f w.st).1 (w := { w with st := (f w.st).2 }) h
  | iter body g k ihb ih =>
    simp only [exec, Option.bind_eq_some_iff] at h
    obtain ⟨⟨b, w1⟩, h1, h2⟩ := h
    have hw := ih b h2
    have key : ∀ m g w, iterN (fun g w => exec n (body g) w) m g w = some (b, w1) →
        w1.eof = w.eof ∧ w1.inp.length ≤ w.inp.length := by
      intro m
      induction m with
      | zero => intro g w hx; simp [iterN] at hx
      | succ m ihm =>
        intro g w hx
        rw [iterN] at hx
        cases hg : exec n (body g) w with
        | none => simp [hg] at hx
        | some y =>
          obtain ⟨y, w2⟩ := y
          have h2 := ihb g hg
          cases y with
          | inl g' =>
            simp only [hg] at hx
            have h3 := ihm g' w2 hx
            exact ⟨h3.1.trans h2.1, h3.2.trans h2.2⟩
          | inr b' =>
            simp only [hg, Option.some.injEq, Prod.mk.injEq] at hx
            rw [← hx.2]
            exact h2
    have h3 := key n g w h1
    exact ⟨hw.1.trans h3.1, hw.2.trans h3.2⟩

theorem Runs.eof {p : Proc σ ρ α} {w w' : World σ ρ} {a : α} (h : Runs p w a w') :
    w'.eof = w.eof := by
  obtain ⟨n, h⟩ := h
  exact (exec_stream h).1

theorem Runs.inp_le {p : Proc σ ρ α} {w w' : World σ ρ} {a : α} (h : Runs p w a w') :
    w'.inp.length ≤ w.inp.length := by
  obtain ⟨n, h⟩ := h
  exact (exec_stream h).2

/-! ## Without loops -/

def Straight : {α : Type} → Proc σ ρ α → Prop
  | _, .ret _ => True
  | _, .recv _ _ k => ∀ o, Straight (k o)
  | _, .send _ _ k => ∀ o, Straight (k o)
  | _, .act _ k => ∀ x, Straight (k x)
  | _, .iter _ _ _ => False

theorem Straight.bind {p : Proc σ ρ α} {f : α → Proc σ ρ β} (hp : Straight p)
    (hf : ∀ a, Straight (f a)) : Straight (p >>= f) := by
  change Straight (p.bind f)
  induction p with
  | ret a => exact hf a
  | recv r n k ih => exact fun o => ih o (hp o) hf
  | send r b k ih => exact fun o => ih o (hp o) hf
  | act g k ih => exact fun x => ih x (hp x) hf
  | iter body g k _ _ => exact hp.elim

theorem Straight.exec_isSome {p : Proc σ ρ α} (hp : Straight p) (n : Nat) {w : World σ ρ}
    (he : w.eof = true) : (exec n p w).isSome := by
  induction p generalizing w with
  | ret a => rfl
  | recv r m k ih =>
    by_cases hm : m ≤ w.inp.length
    · have h1 : w.recv r m = some (some (w.inp.take m),
          { w with inp := w.inp.drop m, hist := w.hist ++ [.rcv r (some (w.inp.take m))] }) := by
        simp [World.recv, hm]
      simp only [exec, h1, Option.bind_some]
      exact ih _ (hp _) he
    · have h1 : w.recv r m = some (none, { w with inp := [], hist := w.hist ++ [.rcv r none] }) := by
        simp [World.recv, hm, he]
      simp only [exec, h1, Option.bind_some]
      exact ih _ (hp _) he
  | send r b k ih =>
    refine ih _ (hp _) ?_
    unfold World.send
    split <;> exact he
  | act f k ih => exact ih _ (hp _) he
  | iter body g k _ _ => exact hp.elim

theorem Straight.halts {p : Proc σ ρ α} (hp : Straight p) {w : World σ ρ} (he : w.eof = true) :
    Halts p w := by
  obtain ⟨⟨a, w'⟩, h⟩ := Option.isSome_iff_exists.mp (hp.exec_isSome 0 he)
  exact ⟨a, w', 0, h⟩

/-! ## Loops -/

theorem Halts.bind {p : Proc σ ρ α} {f : α → Proc σ ρ β} {w : World σ ρ} (hp : Halts p w)
    (hf : ∀ a w', Runs p w a w' → Halts (f a) w') : Halts (p >>= f) w := by
  obtain ⟨a, w', h⟩ := hp
  exact h.halts_bind (hf a w' h)

/-- A process that ends gets through its first part and ends behind it. -/
theorem Halts.of_bind {p : Proc σ ρ α} {f : α → Proc σ ρ β} {w w' : World σ ρ} {a : α}
    (h : Halts (p >>= f) w) (hp : Runs p w a w') : Halts (f a) w' := by
  obtain ⟨b, w2, h⟩ := h
  obtain ⟨a', w1, h1, h2⟩ := (runs_bind p f w b w2).mp h
  obtain ⟨rfl, rfl⟩ := hp.unique h1
  exact ⟨b, w2, h2⟩

theorem halts_loop {body : γ → Proc σ ρ (γ ⊕ β)} {I : γ → World σ ρ → Prop} (μ : γ → World σ ρ → Nat)
    (hb : ∀ g w, I g w → Halts (body g) w)
    (hn : ∀ g w g' w', I g w → Runs (body g) w (.inl g') w' → I g' w' ∧ μ g' w' < μ g w)
    {g : γ} {w : World σ ρ} (hI : I g w) : Halts (loop body g) w := by
  induction hm : μ g w using Nat.strongRecOn generalizing g w with
  | ind m ih =>
    obtain ⟨x, w1, hx⟩ := hb g w hI
    cases x with
    | inr b => exact ⟨b, w1, (runs_loop _ _ _ _ _).mpr ⟨_, _, hx, rfl, rfl⟩⟩
    | inl g' =>
      obtain ⟨hI', hlt⟩ := hn g w g' w1 hI hx
      obtain ⟨b, w2, h2⟩ := ih (μ g' w1) (hm ▸ hlt) hI' rfl
      exact ⟨b, w2, (runs_loop _ _ _ _ _).mpr ⟨_, _, hx, h2⟩⟩

/-- Some rounds of a loop. -/
inductive Rounds (body : γ → Proc σ ρ (γ ⊕ β)) (g : γ) (w : World σ ρ) : γ → World σ ρ → Prop where
  | refl : Rounds body g w g w
  | snoc {g1 g2 : γ} {w1 w2 : World σ ρ} (h : Rounds body g w g1 w1)
      (hr : Runs (body g1) w1 (.inl g2) w2) : Rounds body g w g2 w2

theorem Rounds.head {body : γ → Proc σ ρ (γ ⊕ β)} {g g1 g2 : γ} {w w1 w2 : World σ ρ}
    (hr : Runs (body g) w (.inl g1) w1) (h : Rounds body g1 w1 g2 w2) : Rounds body g w g2 w2 := by
  induction h with
  | refl => exact .snoc .refl hr
  | snoc _ hr' ih => exact .snoc ih hr'

theorem Rounds.eof {body : γ → Proc σ ρ (γ ⊕ β)} {g g' : γ} {w w' : World σ ρ}
    (h : Rounds body g w g' w') : w'.eof = w.eof := by
  induction h with
  | refl => rfl
  | snoc _ hr ih => exact hr.eof.trans ih

theorem Rounds.halts {body : γ → Proc σ ρ (γ ⊕ β)} {g g' : γ} {w w' : World σ ρ}
    (h : Rounds body g w g' w') (hl : Halts (loop body g) w) : Halts (loop body g') w' := by
  induction h with
  | refl => exact hl
  | snoc _ hr ih =>
    obtain ⟨b, w2, h2⟩ := ih
    obtain ⟨x, w3, h3, h4⟩ := (runs_loop _ _ _ _ _).mp h2
    obtain ⟨rfl, rfl⟩ := hr.unique h3
    exact ⟨b, w2, h4⟩

section
variable {body : Nat → Proc σ ρ (Nat ⊕ β)} (hc : ∀ g w g' w', Runs (body g) w (.inl g') w' → g' = g + 1)

include hc in
theorem Rounds.count_le {g g' : Nat} {w w' : World σ ρ} (h : Rounds body g w g' w') : g ≤ g' := by
  induction h with
  | refl => exact Nat.le_refl _
  | snoc _ hr ih =>
    have hn := hc _ _ _ _ hr
    omega

include hc in
/-- A loop that counts its rounds is in one world at each count. -/
theorem Rounds.unique {g n m : Nat} {w w1 w2 : World σ ρ} (h1 : Rounds body g w n w1)
    (h2 : Rounds body g w m w2) (hnm : n = m) : w1 = w2 := by
  induction h1 generalizing m w2 with
  | refl =>
    cases h2 with
    | refl => rfl
    | snoc h hr =>
      have hn := hc _ _ _ _ hr
      have hle := h.count_le hc
      omega
  | snoc h hr ih =>
    have hn := hc _ _ _ _ hr
    cases h2 with
    | refl =>
      have hle := h.count_le hc
      omega
    | snoc h' hr' =>
      have hn' := hc _ _ _ _ hr'
      obtain rfl := ih h' (by omega)
      obtain rfl : _ = _ := Nat.succ.inj (hn.symm.trans (hnm.trans hn'))
      exact (hr.unique hr').2

end

/-- A loop that ends does so in a round that some rounds lead to. -/
theorem Runs.last_round {body : γ → Proc σ ρ (γ ⊕ β)} {g : γ} {w w' : World σ ρ} {b : β}
    (h : Runs (loop body g) w b w') :
    ∃ g1 w1, Rounds body g w g1 w1 ∧ Runs (body g1) w1 (.inr b) w' := by
  refine Runs.loop_rec (P := fun g w b w' => ∃ g1 w1, Rounds body g w g1 w1 ∧
    Runs (body g1) w1 (.inr b) w') ?_ ?_ h
  · intro g w b w' hr
    exact ⟨g, w, .refl, hr⟩
  · intro g w g' w1 b w' hr ih
    obtain ⟨g2, w2, h2, h3⟩ := ih
    exact ⟨g2, w2, .head hr h2, h3⟩

/-- So does one that is left in a round reached so. -/
theorem Rounds.runs {body : γ → Proc σ ρ (γ ⊕ β)} {g g' : γ} {w w1 w' : World σ ρ} {b : β}
    (h : Rounds body g w g' w1) (hr : Runs (body g') w1 (.inr b) w') : Runs (loop body g) w b w' := by
  have hl : Runs (loop body g') w1 b w' := (runs_loop _ _ _ _ _).mpr ⟨_, _, hr, rfl, rfl⟩
  clear hr
  induction h with
  | refl => exact hl
  | snoc _ hr' ih => exact ih ((runs_loop _ _ _ _ _).mpr ⟨_, _, hr', hl⟩)

/-! ## Predicates of processes -/

/-- `P` goes through sequencing and holds of the transfers. -/
structure Closed (P : {α : Type} → Proc σ ρ α → Prop) : Prop where
  pure : ∀ {α : Type} (a : α), P (Pure.pure a : Proc σ ρ α)
  bind : ∀ {α β : Type} {p : Proc σ ρ α} {f : α → Proc σ ρ β}, P p → (∀ a, P (f a)) → P (p >>= f)
  recvN : ∀ r n, P (recvN r n : Proc σ ρ (Option Bytes))
  sendB : ∀ r b, P (sendB r b : Proc σ ρ (Option Nat))

theorem Closed.ite {P : {α : Type} → Proc σ ρ α → Prop} {c : Prop} [Decidable c] {p q : Proc σ ρ α}
    (hp : P p) (hq : P q) : P (if c then p else q) := by
  split
  · exact hp
  · exact hq

/-- Every run of `p` takes the state along `R`. -/
def Moves (R : σ → σ → Prop) (p : Proc σ ρ α) : Prop := ∀ w a w', Runs p w a w' → R w.st w'.st

theorem moves_modifyGet {R : σ → σ → Prop} {f : σ → β × σ} (hf : ∀ s, R s (f s).2) :
    Moves R (modifyGet f : Proc σ ρ β) := by
  intro w a w' h
  obtain ⟨-, rfl⟩ := (runs_modifyGet f w a w').mp h
  exact hf w.st

section
variable {R : σ → σ → Prop} (hr : ∀ s, R s s) (ht : ∀ {s t u}, R s t → R t u → R s u)

include hr ht in
theorem closed_moves : Closed (fun {_} (p : Proc σ ρ _) => Moves R p) where
  pure _ := by
    intro w b w' h
    obtain ⟨-, rfl⟩ := (runs_pure _ _ _ _).mp h
    exact hr _
  bind hp hf := by
    intro w b w' h
    obtain ⟨a, w1, h1, h2⟩ := (runs_bind _ _ _ _ _).mp h
    exact ht (hp w a w1 h1) (hf a w1 b w' h2)
  recvN r n := by
    intro w o w' h
    rw [runs_recvN] at h
    have hst := recv_st h
    rw [hst]
    exact hr _
  sendB r b := by
    intro w o w' h
    rw [runs_sendB] at h
    have hst : (w.send r b).2.st = w.st := send_st w r b
    rw [h] at hst
    rw [hst]
    exact hr _

include hr ht in
theorem Moves.loop {body : γ → Proc σ ρ (γ ⊕ β)} (hb : ∀ g, Moves R (body g)) (g : γ) :
    Moves R (Proc.loop body g) := by
  intro w b w' h
  refine Runs.loop_induct (I := fun _ v => R w.st v.st) (Q := fun _ v => R w.st v.st) ?_ ?_ (hr _) h
  · exact fun g v g' v' hI hv => ht hI (hb g v _ v' hv)
  · exact fun g v b v' hI hv => ht hI (hb g v _ v' hv)

end

theorem closed_straight : Closed (fun {_} (p : Proc σ ρ _) => Straight p) where
  pure _ := trivial
  bind := Straight.bind
  recvN _ _ _ := trivial
  sendB _ _ _ := trivial

end Proc

end Mefsc
