import Mefsc.Core.Trace

/-!
# What is offered, and in which state

`stamped f n p w`: what the first `n` operations of `p` offer to the connection,
each piece with what `f` says of the state it is offered in.

`Sums R I p`: `R` relates the states before and behind `p` and what it offers
in between, and `I` the state before with that of any moment of `p`. With a `Law`
for the two relations this goes through sequencing and loops.
-/
namespace Mefsc.Proc

variable {σ τ ρ α β γ : Type}

def stamped (f : σ → τ) : Nat → Proc σ ρ α → World σ ρ → List (τ × ρ × Bytes)
  | 0, _, _ => []
  | n + 1, p, w =>
    match p.next w with
    | none => []
    | some (q, v, o) => o.map (f w.st, ·) ++ stamped f n q v

section
variable {f : σ → τ} {n : Nat} {p q : Proc σ ρ α} {w v : World σ ρ} {o : List (ρ × Bytes)}

/-- All of it was offered. -/
theorem Goes.stamped_snd (f : σ → τ) (h : Goes n p w o q v) : (stamped f n p w).map Prod.snd = o := by
  induction h with
  | refl => rfl
  | head hn _ ih => simp [stamped, hn, ih, Function.comp_def]

theorem Goes.stamped_add (f : σ → τ) (h : Goes n p w o q v) (k : Nat) :
    stamped f (n + k) p w = stamped f n p w ++ stamped f k q v := by
  induction h with
  | refl => simp [stamped]
  | head hn _ ih => simp [Nat.add_right_comm, stamped, hn, ih]

theorem Goes.stamped_bind (f : σ → τ) (h : Goes n p w o q v) (g : α → Proc σ ρ β) :
    stamped f n (p.bind g) w = stamped f n p w := by
  induction h with
  | refl => rfl
  | head hn _ ih => simp [stamped, next_bind hn, hn, ih]

/-- First what `p` offers, then what comes behind it. -/
theorem stamped_seq (f : σ → τ) {m : Nat} {a : α} {w1 : World σ ρ} (h : Goes m p w o (.ret a) w1) (k : Nat)
    (g : α → Proc σ ρ β) : stamped f (m + k) (p >>= g) w = stamped f m p w ++ stamped f k (g a) w1 := by
  rw [← h.stamped_bind f g]
  exact (h.bind g).stamped_add f k

/-- The first `n` operations, or as many as there are. -/
theorem stamped_reached (f : σ → τ) (n : Nat) (p : Proc σ ρ α) (w : World σ ρ) :
    ∃ m o q v, Goes m p w o q v ∧ stamped f n p w = stamped f m p w := by
  induction n generalizing p w with
  | zero => exact ⟨0, [], p, w, .refl _ _, rfl⟩
  | succ n ih =>
    cases hn : p.next w with
    | none => exact ⟨0, [], p, w, .refl _ _, by simp [stamped, hn]⟩
    | some x =>
      obtain ⟨q, v, o⟩ := x
      obtain ⟨m, o', q', v', hg, hs⟩ := ih q v
      exact ⟨m + 1, _, q', v', .head hn hg, by simp [stamped, hn, hs]⟩

/-- What the first `n` operations of `p` offer. -/
def offered (n : Nat) (p : Proc σ ρ α) (w : World σ ρ) : List (ρ × Bytes) := (stamped (fun _ => ()) n p w).map Prod.snd

end

/-! ## Relations along a run -/

structure Law (R I : σ → List (τ × ρ × Bytes) → σ → Prop) : Prop where
  refl : ∀ s, R s [] s
  trans : ∀ {s t u l l'}, R s l t → R t l' u → R s (l ++ l') u
  now : ∀ {s t l}, R s l t → I s l t
  moment : ∀ {s t u l l'}, R s l t → I t l' u → I s (l ++ l') u

def Sums (f : σ → τ) (R I : σ → List (τ × ρ × Bytes) → σ → Prop) (p : Proc σ ρ α) : Prop :=
  ∀ n w o q v, Goes n p w o q v →
    I w.st (stamped f n p w) v.st ∧ ∀ a, q = .ret a → R w.st (stamped f n p w) v.st

section
variable {f : σ → τ} {R I : σ → List (τ × ρ × Bytes) → σ → Prop} (hL : Law R I)

include hL in
theorem Law.pure (a : α) : Sums f R I (Pure.pure a : Proc σ ρ α) := by
  intro n w o q v hg
  obtain ⟨rfl, -, -, rfl⟩ := goes_ret hg
  exact ⟨hL.now (hL.refl _), fun _ _ => hL.refl _⟩

include hL in
theorem Law.bind {p : Proc σ ρ α} {k : α → Proc σ ρ β} (hp : Sums f R I p) (hk : ∀ a, Sums f R I (k a)) :
    Sums f R I (p >>= k) := by
  intro n w o r v hg
  rcases Goes.bind_cases hg with ⟨q, hq, rfl⟩ | ⟨m, m', a, w1, o1, o2, h1, h2, rfl, -⟩
  · have hs := hq.stamped_bind f k
    change I _ (stamped f n (p.bind k) w) _ ∧ ∀ a, _ → R _ (stamped f n (p.bind k) w) _
    rw [hs]
    obtain ⟨hI, hR⟩ := hp _ _ _ _ _ hq
    refine ⟨hI, fun b hb => ?_⟩
    cases q with
    | ret a =>
      have hk0 := (hk a 0 v [] _ v (.refl _ _)).2 b hb
      simpa [stamped] using hL.trans (hR a rfl) hk0
    | _ => cases hb
  · rw [stamped_seq f h1]
    have hR := (hp _ _ _ _ _ h1).2 a rfl
    obtain ⟨hI2, hR2⟩ := hk a _ _ _ _ _ h2
    exact ⟨hL.moment hR hI2, fun b hb => hL.trans hR (hR2 b hb)⟩

include hL in
theorem Law.loop {body : γ → Proc σ ρ (γ ⊕ β)} (hb : ∀ g, Sums f R I (body g)) (g : γ) :
    Sums f R I (Proc.loop body g) := by
  intro n
  induction n using Nat.strongRecOn generalizing g with
  | ind n ih =>
    intro w o q v hg
    cases hg with
    | refl => exact ⟨hL.now (hL.refl _), fun a ha => by cases ha⟩
    | @head n _ q1 _ _ w1 _ oa ob h t =>
      simp only [Proc.loop, next, Option.some.injEq, Prod.mk.injEq] at h
      obtain ⟨rfl, rfl, rfl⟩ := h
      have hs : stamped f (n + 1) (Proc.loop body g) w = stamped f n ((body g).bind (again body)) w := rfl
      have ht : Goes n ((body g).bind (again body)) _ _ _ _ := t
      rw [hs]
      rcases Goes.bind_cases ht with ⟨q0, h0, rfl⟩ | ⟨m, k, x, w1, o1, o2, h1, h2, rfl, -⟩
      · rw [h0.stamped_bind]
        obtain ⟨hI, hR⟩ := hb g _ _ _ _ _ h0
        refine ⟨hI, fun b hq => ?_⟩
        cases q0 with
        | ret x => exact hR x rfl
        | _ => cases hq
      · rw [(h1.bind _).stamped_add f k, h1.stamped_bind]
        have hR := (hb g _ _ _ _ _ h1).2 x rfl
        cases x with
        | inl g' =>
          obtain ⟨hI2, hR2⟩ := ih k (by omega) g' _ _ _ _ h2
          exact ⟨hL.moment hR hI2, fun b hq => hL.trans hR (hR2 b hq)⟩
        | inr b =>
          obtain ⟨rfl, -, -, rfl⟩ := goes_ret h2
          rw [stamped, List.append_nil]
          exact ⟨hL.now hR, fun _ _ => hR⟩

include hL in
theorem Law.recvN (r : ρ) (n : Nat) : Sums f R I (Proc.recvN r n : Proc σ ρ (Option Bytes)) := by
  intro m w o q v hg
  cases hg with
  | refl => exact ⟨hL.now (hL.refl _), fun _ _ => hL.refl _⟩
  | head hn t =>
    simp only [Proc.recvN, next, Option.map_eq_some_iff, Prod.mk.injEq] at hn
    obtain ⟨x, hx, rfl, rfl, rfl⟩ := hn
    obtain ⟨rfl, -, -, rfl⟩ := goes_ret t
    rw [recv_st hx]
    simp only [stamped, Proc.recvN, next, hx, Option.map_some, List.map_nil, List.append_nil]
    exact ⟨hL.now (hL.refl _), fun _ _ => hL.refl _⟩

include hL in
theorem Law.sendB {r : ρ} {b : Bytes} (h : ∀ s, R s [(f s, r, b)] s) :
    Sums f R I (Proc.sendB r b : Proc σ ρ (Option Nat)) := by
  intro m w o q v hg
  cases hg with
  | refl => exact ⟨hL.now (hL.refl _), fun _ _ => hL.refl _⟩
  | head hn t =>
    simp only [Proc.sendB, next, Option.some.injEq, Prod.mk.injEq] at hn
    obtain ⟨rfl, rfl, rfl⟩ := hn
    obtain ⟨rfl, -, -, rfl⟩ := goes_ret t
    rw [send_st]
    simp only [stamped, Proc.sendB, next, List.map_cons, List.map_nil, List.append_nil]
    exact ⟨hL.now (h _), fun _ _ => h _⟩

include hL in
theorem Law.modifyGet {g : σ → β × σ} (h : ∀ s, R s [] (g s).2) :
    Sums f R I (Proc.modifyGet g : Proc σ ρ β) := by
  intro m w o q v hg
  cases hg with
  | refl => exact ⟨hL.now (hL.refl _), fun _ _ => hL.refl _⟩
  | head hn t =>
    simp only [Proc.modifyGet, next, Option.some.injEq, Prod.mk.injEq] at hn
    obtain ⟨rfl, rfl, rfl⟩ := hn
    obtain ⟨rfl, -, -, rfl⟩ := goes_ret t
    simp only [stamped, Proc.modifyGet, next, List.map_nil, List.append_nil]
    exact ⟨hL.now (h _), fun _ _ => h _⟩

include hL in
/-- Two operations on the state, with `I` alone in between. -/
theorem Law.acts {g : σ → β × σ} {k : β → σ → σ} (hI : ∀ s, I s [] (g s).2)
    (hR : ∀ s, R s [] (k (g s).1 (g s).2)) :
    Sums f R I (Proc.modifyGet g >>= fun b => Proc.modify (k b) : Proc σ ρ Unit) := by
  intro n w o q v hg
  cases hg with
  | refl => exact ⟨hL.now (hL.refl _), fun a ha => by cases ha⟩
  | head h t =>
    cases h
    cases t with
    | refl => exact ⟨hI _, fun a ha => by cases ha⟩
    | head h t =>
      cases h
      obtain ⟨rfl, -, -, rfl⟩ := goes_ret t
      exact ⟨hL.now (hR _), fun _ _ => hR _⟩

include hL in
/-- A send of what the state says, and an operation on the state behind it. -/
theorem Law.sendAct {r : ρ} {g : σ → β} {b : β → Bytes} {k : β → σ → σ}
    (hI : ∀ s, I s [(f s, r, b (g s))] s) (hR : ∀ s, R s [(f s, r, b (g s))] (k (g s) s)) :
    Sums f R I (Proc.read g >>= fun x => Proc.sendB r (b x) >>= fun _ => Proc.modify (k x) : Proc σ ρ Unit) := by
  intro n w o q v hg
  cases hg with
  | refl => exact ⟨hL.now (hL.refl _), fun a ha => by cases ha⟩
  | head h t =>
    cases h
    cases t with
    | refl => exact ⟨hL.now (hL.refl _), fun a ha => by cases ha⟩
    | head h t =>
      have hst := send_st w r (b (g w.st))
      cases h
      cases t with
      | refl =>
        rw [hst]
        exact ⟨hI _, fun a ha => by cases ha⟩
      | head h t =>
        cases h
        obtain ⟨rfl, -, -, rfl⟩ := goes_ret t
        have h := hR w.st
        simp only [hst]
        exact ⟨hL.now h, fun _ _ => h⟩

end

end Mefsc.Proc
