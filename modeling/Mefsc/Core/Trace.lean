import Mefsc.Core.Halting

/-!
# What happens during a run

`Runs` speaks about a process that returns. `Goes n p w o q w'` also speaks
about one that waits, is cut off or never ends: `n` operations of `p` from the
world `w` lead to the world `w'`, with `q` left to do; `o` is what was offered to
the connection, whatever it took of it.

`Always I p Q o w` is the form with pre- and postcondition: with `o` offered
before, `I` holds at every moment of `p`, and `Q` when it returns. The rules take
a program apart; a loop needs an invariant at the start of its rounds
(`Always.loop`). `Keeps R` is `Moves R` for every moment of a process.
-/
namespace Mefsc

namespace Proc

variable {σ ρ α β γ : Type}

/-- One operation, and what it offers to the connection. -/
def next : Proc σ ρ α → World σ ρ → Option (Proc σ ρ α × World σ ρ × List (ρ × Bytes))
  | .ret _, _ => none
  | .recv r n k, w => (w.recv r n).map fun x => (k x.1, x.2, [])
  | .send r b k, w => some (k (w.send r b).1, (w.send r b).2, [(r, b)])
  | .act f k, w => some (k (f w.st).1, { w with st := (f w.st).2 }, [])
  | .iter body g k, w =>
    some ((body g).bind fun
      | .inl g' => .iter body g' k
      | .inr b => k b, w, [])

inductive Goes : Nat → Proc σ ρ α → World σ ρ → List (ρ × Bytes) → Proc σ ρ α → World σ ρ → Prop where
  | refl (p : Proc σ ρ α) (w : World σ ρ) : Goes 0 p w [] p w
  | head {n : Nat} {p q r : Proc σ ρ α} {w w1 w' : World σ ρ} {o o' : List (ρ × Bytes)}
      (h : p.next w = some (q, w1, o)) (t : Goes n q w1 o' r w') : Goes (n + 1) p w (o ++ o') r w'

theorem Goes.trans {n m : Nat} {p q r : Proc σ ρ α} {w w1 w' : World σ ρ} {o o' : List (ρ × Bytes)}
    (h1 : Goes n p w o q w1) (h2 : Goes m q w1 o' r w') : Goes (n + m) p w (o ++ o') r w' := by
  induction h1 with
  | refl p w => simpa using h2
  | head h t ih =>
    rw [List.append_assoc, Nat.add_right_comm]
    exact .head h (ih h2)

theorem Goes.one {p q : Proc σ ρ α} {w w' : World σ ρ} {o : List (ρ × Bytes)}
    (h : p.next w = some (q, w', o)) : Goes 1 p w o q w' := by
  simpa using Goes.head h (.refl q w')

/-- The world behind `n` operations, or as many as there are. -/
def played : Nat → Proc σ ρ α → World σ ρ → World σ ρ
  | 0, _, w => w
  | n + 1, p, w =>
    match p.next w with
    | none => w
    | some (q, w1, _) => played n q w1

theorem goes_played (n : Nat) (p : Proc σ ρ α) (w : World σ ρ) : ∃ m o q, Goes m p w o q (played n p w) := by
  induction n generalizing p w with
  | zero => exact ⟨0, [], p, .refl p w⟩
  | succ n ih =>
    cases hn : p.next w with
    | none => exact ⟨0, [], p, by simpa [played, hn] using Goes.refl p w⟩
    | some x =>
      obtain ⟨q, w1, o⟩ := x
      obtain ⟨m, o', r, h⟩ := ih q w1
      exact ⟨m + 1, o ++ o', r, by simpa [played, hn] using Goes.head hn h⟩

theorem goes_ret {n : Nat} {a : α} {w w' : World σ ρ} {o : List (ρ × Bytes)} {q : Proc σ ρ α}
    (h : Goes n (.ret a) w o q w') : n = 0 ∧ o = [] ∧ q = .ret a ∧ w' = w := by
  cases h with
  | refl => exact ⟨rfl, rfl, rfl, rfl⟩
  | head h _ => simp [next] at h

/-- A receive does not depend on the history and the outcomes. -/
theorem recv_any (s : σ) (inp : Bytes) (e : Bool) (r : ρ) (n : Nat) :
    (∃ x inp1, ∀ h os, World.recv ⟨s, inp, e, h, os⟩ r n = some (x, ⟨s, inp1, e, h ++ [.rcv r x], os⟩)) ∨
    ∀ h os, World.recv (⟨s, inp, e, h, os⟩ : World σ ρ) r n = none := by
  unfold World.recv
  by_cases hn : n ≤ inp.length
  · exact .inl ⟨some (inp.take n), inp.drop n, fun h os => by simp [hn]⟩
  · cases e with
    | true => exact .inl ⟨none, [], fun h os => by simp [hn]⟩
    | false => exact .inr fun h os => by simp [hn]

/-! ## Sequencing -/

theorem next_bind {p q : Proc σ ρ α} {w w1 : World σ ρ} {o : List (ρ × Bytes)}
    (h : p.next w = some (q, w1, o)) (f : α → Proc σ ρ β) : (p.bind f).next w = some (q.bind f, w1, o) := by
  cases p with
  | ret a => simp [next] at h
  | recv r n k =>
    simp only [next, Option.map_eq_some_iff, Prod.mk.injEq] at h
    obtain ⟨x, hx, rfl, rfl, rfl⟩ := h
    simp [bind, next, hx]
  | send r b k =>
    simp only [next, Option.some.injEq, Prod.mk.injEq] at h
    obtain ⟨rfl, rfl, rfl⟩ := h
    rfl
  | act g k =>
    simp only [next, Option.some.injEq, Prod.mk.injEq] at h
    obtain ⟨rfl, rfl, rfl⟩ := h
    rfl
  | iter body g k =>
    simp only [next, Option.some.injEq, Prod.mk.injEq] at h
    obtain ⟨rfl, rfl, rfl⟩ := h
    simp only [bind, next, bind_assoc, Option.some.injEq, Prod.mk.injEq, and_true]
    congr 1
    funext x
    cases x <;> rfl

/-- What is not done can be told apart from what comes behind it. -/
theorem next_of_bind {p : Proc σ ρ α} {f : α → Proc σ ρ β} {r : Proc σ ρ β} {w w1 : World σ ρ}
    {o : List (ρ × Bytes)} (h : (p.bind f).next w = some (r, w1, o)) :
    (∃ a, p = .ret a) ∨ ∃ q, p.next w = some (q, w1, o) ∧ r = q.bind f := by
  cases hp : p.next w with
  | some x =>
    obtain ⟨q, v, o'⟩ := x
    have hb := next_bind hp f
    rw [h] at hb
    simp only [Option.some.injEq, Prod.mk.injEq] at hb
    obtain ⟨rfl, rfl, rfl⟩ := hb
    exact .inr ⟨q, rfl, rfl⟩
  | none =>
    cases p with
    | ret a => exact .inl ⟨a, rfl⟩
    | recv r n k =>
      simp only [next, Option.map_eq_none_iff] at hp
      simp [bind, next, hp] at h
    | send r b k => simp [next] at hp
    | act g k => simp [next] at hp
    | iter body g k => simp [next] at hp

theorem Goes.bind {n : Nat} {p q : Proc σ ρ α} {w w' : World σ ρ} {o : List (ρ × Bytes)}
    (h : Goes n p w o q w') (f : α → Proc σ ρ β) : Goes n (p.bind f) w o (q.bind f) w' := by
  induction h with
  | refl p w => exact .refl _ _
  | head h _ ih => exact .head (next_bind h f) ih

theorem Goes.bind_cases {n : Nat} {p : Proc σ ρ α} {f : α → Proc σ ρ β} {r : Proc σ ρ β}
    {w w' : World σ ρ} {o : List (ρ × Bytes)} (h : Goes n (p.bind f) w o r w') :
    (∃ q, Goes n p w o q w' ∧ r = q.bind f) ∨
    ∃ m k a w1 o1 o2, Goes m p w o1 (.ret a) w1 ∧ Goes k (f a) w1 o2 r w' ∧ n = m + k ∧ o = o1 ++ o2 := by
  induction n generalizing p w o with
  | zero =>
    cases h with
    | refl => exact .inl ⟨p, .refl _ _, rfl⟩
  | succ n ih =>
    cases h with
    | @head _ _ q1 _ _ w1 _ o1 o2 h t =>
      rcases next_of_bind h with ⟨a, rfl⟩ | ⟨q, hq, rfl⟩
      · exact .inr ⟨0, n + 1, a, w, [], o1 ++ o2, .refl _ _, .head h t, by omega, rfl⟩
      · rcases ih t with ⟨q', hq', rfl⟩ | ⟨m, k, a, v, o3, o4, h1, h2, rfl, rfl⟩
        · exact .inl ⟨q', .head hq hq', rfl⟩
        · exact .inr ⟨m + 1, k, a, v, o1 ++ o3, o4, .head hq h1, h2, by omega, by rw [List.append_assoc]⟩

/-! ## Runs -/

theorem runs_next {p q : Proc σ ρ α} {w w1 w' : World σ ρ} {o : List (ρ × Bytes)} {a : α}
    (h : p.next w = some (q, w1, o)) (hq : Runs q w1 a w') : Runs p w a w' := by
  cases p with
  | ret b => simp [next] at h
  | recv r n k =>
    simp only [next, Option.map_eq_some_iff, Prod.mk.injEq] at h
    obtain ⟨x, hx, rfl, rfl, rfl⟩ := h
    obtain ⟨m, hm⟩ := hq
    exact ⟨m, by simp [exec, hx, hm]⟩
  | send r b k =>
    simp only [next, Option.some.injEq, Prod.mk.injEq] at h
    obtain ⟨rfl, rfl, rfl⟩ := h
    exact hq
  | act g k =>
    simp only [next, Option.some.injEq, Prod.mk.injEq] at h
    obtain ⟨rfl, rfl, rfl⟩ := h
    exact hq
  | iter body g k =>
    simp only [next, Option.some.injEq, Prod.mk.injEq] at h
    obtain ⟨rfl, rfl, rfl⟩ := h
    obtain ⟨x, v, hx, hv⟩ := (runs_bind' _ _ _ _ _).mp hq
    -- the round, then the rest of the loop, then what is behind it
    refine (runs_bind' (loop body g) k _ _ _).mpr ?_
    cases x with
    | inl g' =>
      obtain ⟨b, u, hb, hk⟩ := (runs_bind' (loop body g') k _ _ _).mp hv
      exact ⟨b, u, (runs_loop _ _ _ _ _).mpr ⟨_, _, hx, hb⟩, hk⟩
    | inr b => exact ⟨b, v, (runs_loop _ _ _ _ _).mpr ⟨_, _, hx, rfl, rfl⟩, hv⟩

theorem Goes.runs {n : Nat} {p q : Proc σ ρ α} {w w1 w' : World σ ρ} {o : List (ρ × Bytes)} {a : α}
    (h : Goes n p w o q w1) (hq : Runs q w1 a w') : Runs p w a w' := by
  induction h with
  | refl => exact hq
  | head h _ ih => exact runs_next h (ih hq)

/-- A process that has nothing left to do has returned. -/
theorem Goes.returns {n : Nat} {p : Proc σ ρ α} {w w' : World σ ρ} {o : List (ρ × Bytes)} {a : α}
    (h : Goes n p w o (.ret a) w') : Runs p w a w' := h.runs ((runs_ret _ _ _ _).mpr ⟨rfl, rfl⟩)

theorem exec_goes {m : Nat} {p : Proc σ ρ α} {w w' : World σ ρ} {a : α} (h : exec m p w = some (a, w')) :
    ∃ n o, Goes n p w o (.ret a) w' := by
  induction p generalizing w w' with
  | ret b =>
    simp only [exec, Option.some.injEq, Prod.mk.injEq] at h
    obtain ⟨rfl, rfl⟩ := h
    exact ⟨0, [], .refl _ _⟩
  | recv r k f ih =>
    simp only [exec, Option.bind_eq_some_iff] at h
    obtain ⟨x, hx, h⟩ := h
    obtain ⟨n, o, hg⟩ := ih _ h
    exact ⟨n + 1, _, .head (by rw [next, hx]; rfl) hg⟩
  | send r b f ih =>
    obtain ⟨n, o, hg⟩ := ih _ h
    exact ⟨n + 1, _, .head rfl hg⟩
  | act g f ih =>
    obtain ⟨n, o, hg⟩ := ih _ h
    exact ⟨n + 1, _, .head rfl hg⟩
  | iter body g f ihb ih =>
    simp only [exec, Option.bind_eq_some_iff] at h
    obtain ⟨⟨b, v⟩, hl, hk⟩ := h
    -- the induction is on the rounds
    have key : ∀ k g w, iterN (fun g w => exec m (body g) w) k g w = some (b, v) →
        ∃ n o, Goes n (.iter body g f) w o (f b) v := by
      intro k
      induction k with
      | zero =>
        intro g w hx
        simp [iterN] at hx
      | succ k ihk =>
        intro g w hx
        rw [iterN] at hx
        cases hg : exec m (body g) w with
        | none => simp [hg] at hx
        | some y =>
          obtain ⟨y, w1⟩ := y
          obtain ⟨n1, o1, hb⟩ := ihb g hg
          have hround := Goes.head (p := .iter body g f) rfl (hb.bind _)
          cases y with
          | inl g' =>
            simp only [hg] at hx
            obtain ⟨n2, o2, hrest⟩ := ihk g' w1 hx
            exact ⟨_, _, hround.trans hrest⟩
          | inr b' =>
            simp only [hg, Option.some.injEq, Prod.mk.injEq] at hx
            obtain ⟨rfl, rfl⟩ := hx
            exact ⟨_, _, hround⟩
    obtain ⟨n1, o1, h1⟩ := key m g w hl
    obtain ⟨n2, o2, h2⟩ := ih b hk
    exact ⟨_, _, h1.trans h2⟩

theorem Runs.goes {p : Proc σ ρ α} {w w' : World σ ρ} {a : α} (h : Runs p w a w') :
    ∃ n o, Goes n p w o (.ret a) w' := by
  obtain ⟨m, h⟩ := h
  exact exec_goes h

/-! ## Runs with what they offered -/

def Offers (p : Proc σ ρ α) (w : World σ ρ) (o : List (ρ × Bytes)) (a : α) (w' : World σ ρ) : Prop :=
  ∃ n, Goes n p w o (.ret a) w'

theorem offers_pure (a : α) (w : World σ ρ) : Offers (Pure.pure a) w [] a w := ⟨0, .refl _ _⟩

theorem Offers.goes_bind {p : Proc σ ρ α} {f : α → Proc σ ρ β} {q : Proc σ ρ β} {w w1 w' : World σ ρ}
    {o o' : List (ρ × Bytes)} {a : α} (h1 : Offers p w o a w1) (h2 : ∃ n, Goes n (f a) w1 o' q w') :
    ∃ n, Goes n (p >>= f) w (o ++ o') q w' := by
  obtain ⟨m, h1⟩ := h1
  obtain ⟨n, h2⟩ := h2
  exact ⟨m + n, (h1.bind f).trans h2⟩

theorem Offers.bind {p : Proc σ ρ α} {f : α → Proc σ ρ β} {w w1 w' : World σ ρ} {o o' : List (ρ × Bytes)}
    {a : α} {b : β} (h1 : Offers p w o a w1) (h2 : Offers (f a) w1 o' b w') :
    Offers (p >>= f) w (o ++ o') b w' := h1.goes_bind h2

theorem offers_sendB (r : ρ) (b : Bytes) (w : World σ ρ) :
    Offers (sendB r b) w [(r, b)] (w.send r b).1 (w.send r b).2 := ⟨1, .one rfl⟩

theorem offers_modifyGet (f : σ → β × σ) (w : World σ ρ) :
    Offers (modifyGet f) w [] (f w.st).1 { w with st := (f w.st).2 } := ⟨1, .one rfl⟩

/-- The first round of a loop. -/
theorem Offers.round {body : γ → Proc σ ρ (γ ⊕ β)} {g : γ} {w w' : World σ ρ} {o : List (ρ × Bytes)} {x : γ ⊕ β}
    (h : Offers (body g) w o x w') : ∃ n q, Goes n (loop body g) w o q w' := by
  obtain ⟨n, h⟩ := h
  exact ⟨n + 1, _, Goes.head (p := loop body g) (o := []) rfl (h.bind _)⟩

/-! ## Rules -/

/-- With `o` offered before, `I` holds at every moment of `p`, and `Q` when it
returns. -/
def Always (I : List (ρ × Bytes) → World σ ρ → Prop) (p : Proc σ ρ α)
    (Q : α → List (ρ × Bytes) → World σ ρ → Prop) (o : List (ρ × Bytes)) (w : World σ ρ) : Prop :=
  ∀ n o' q w', Goes n p w o' q w' → I (o ++ o') w' ∧ ∀ a, q = .ret a → Q a (o ++ o') w'

section
variable {I : List (ρ × Bytes) → World σ ρ → Prop} {p : Proc σ ρ α}
  {Q : α → List (ρ × Bytes) → World σ ρ → Prop} {o : List (ρ × Bytes)} {w : World σ ρ}

theorem Always.now (h : Always I p Q o w) : I o w := by
  simpa using (h 0 [] p w (.refl _ _)).1

theorem Always.mono {R : α → List (ρ × Bytes) → World σ ρ → Prop} (h : Always I p Q o w)
    (hQ : ∀ a o w, I o w → Q a o w → R a o w) : Always I p R o w := by
  intro n o' q w' hg
  obtain ⟨h1, h2⟩ := h n o' q w' hg
  exact ⟨h1, fun a ha => hQ a _ _ h1 (h2 a ha)⟩

theorem Always.pure {a : α} (hI : I o w) (hQ : Q a o w) : Always I (Pure.pure a) Q o w := by
  intro n o' q w' hg
  obtain ⟨-, rfl, rfl, rfl⟩ := goes_ret hg
  rw [List.append_nil]
  refine ⟨hI, fun b hb => ?_⟩
  cases hb
  exact hQ

theorem Always.bind {f : α → Proc σ ρ β} {R : β → List (ρ × Bytes) → World σ ρ → Prop}
    (h : Always I p (fun a o w => Always I (f a) R o w) o w) : Always I (p >>= f) R o w := by
  intro n o' r w' hg
  rcases Goes.bind_cases hg with ⟨q, hq, rfl⟩ | ⟨m, k, a, w1, o1, o2, h1, h2, -, rfl⟩
  · obtain ⟨hI, hp⟩ := h _ _ _ _ hq
    refine ⟨hI, fun b hb => ?_⟩
    cases q with
    | ret a =>
      have hf := hp a rfl 0 [] (f a) w' (.refl _ _)
      rw [List.append_nil] at hf
      exact hf.2 b hb
    | _ => cases hb
  · rw [← List.append_assoc]
    exact (h _ _ _ _ h1).2 a rfl _ _ _ _ h2

theorem Always.ite {c : Prop} [Decidable c] {q : Proc σ ρ α} (hp : c → Always I p Q o w)
    (hq : ¬ c → Always I q Q o w) : Always I (if c then p else q) Q o w := by
  split
  · exact hp ‹_›
  · exact hq ‹_›

/-- `J` is the invariant at the start of the rounds. -/
theorem Always.loop {body : γ → Proc σ ρ (γ ⊕ β)} {J : γ → List (ρ × Bytes) → World σ ρ → Prop}
    {R : β → List (ρ × Bytes) → World σ ρ → Prop}
    (hb : ∀ g o w, J g o w → Always I (body g) (fun x o w =>
      match x with
      | .inl g' => J g' o w
      | .inr b => R b o w) o w) {g : γ} (hJ : J g o w) : Always I (loop body g) R o w := by
  intro n
  induction n using Nat.strongRecOn generalizing g o w with
  | ind n ih =>
    intro o' q w' hg
    cases hg with
    | refl => exact ⟨by simpa using (hb g o w hJ).now, fun a ha => by cases ha⟩
    | @head n _ q1 _ _ w1 _ oa ob h t =>
      simp only [loop, next, Option.some.injEq, Prod.mk.injEq] at h
      obtain ⟨rfl, rfl, rfl⟩ := h
      rw [List.nil_append]
      rcases Goes.bind_cases t with ⟨q0, h0, rfl⟩ | ⟨m, k, x, w1, o1, o2, h1, h2, rfl, rfl⟩
      · obtain ⟨hI, hx⟩ := hb g o w hJ _ _ _ _ h0
        refine ⟨hI, fun b hq => ?_⟩
        cases q0 with
        | ret x =>
          cases x with
          | inl g' => cases hq
          | inr b' =>
            cases hq
            exact hx _ rfl
        | _ => cases hq
      · obtain ⟨hI, hx⟩ := hb g o w hJ _ _ _ _ h1
        rw [← List.append_assoc]
        cases x with
        | inl g' => exact ih k (by omega) (hx _ rfl) _ _ _ h2
        | inr b =>
          obtain ⟨-, rfl, rfl, rfl⟩ := goes_ret h2
          rw [List.append_nil]
          refine ⟨hI, fun b' hb' => ?_⟩
          cases hb'
          exact hx _ rfl

theorem Always.recvN {r : ρ} {n : Nat} {R : Option Bytes → List (ρ × Bytes) → World σ ρ → Prop} (hI : I o w)
    (h : ∀ x w', w.recv r n = some (x, w') → I o w' ∧ R x o w') : Always I (recvN r n) R o w := by
  intro m o' q w' hg
  cases hg with
  | refl => exact ⟨by simpa using hI, fun a ha => by cases ha⟩
  | head hn t =>
    simp only [Proc.recvN, next, Option.map_eq_some_iff, Prod.mk.injEq] at hn
    obtain ⟨x, hx, rfl, rfl, rfl⟩ := hn
    obtain ⟨-, rfl, rfl, rfl⟩ := goes_ret t
    obtain ⟨h1, h2⟩ := h x.1 x.2 hx
    simp only [List.append_nil]
    refine ⟨h1, fun a ha => ?_⟩
    cases ha
    exact h2

theorem Always.sendB {r : ρ} {b : Bytes} {R : Option Nat → List (ρ × Bytes) → World σ ρ → Prop} (hI : I o w)
    (h : I (o ++ [(r, b)]) (w.send r b).2 ∧ R (w.send r b).1 (o ++ [(r, b)]) (w.send r b).2) :
    Always I (sendB r b) R o w := by
  intro m o' q w' hg
  cases hg with
  | refl => exact ⟨by simpa using hI, fun a ha => by cases ha⟩
  | head hn t =>
    simp only [Proc.sendB, next, Option.some.injEq, Prod.mk.injEq] at hn
    obtain ⟨rfl, rfl, rfl⟩ := hn
    obtain ⟨-, rfl, rfl, rfl⟩ := goes_ret t
    rw [List.append_nil]
    refine ⟨h.1, fun a ha => ?_⟩
    cases ha
    exact h.2

theorem Always.modifyGet {f : σ → β × σ} {R : β → List (ρ × Bytes) → World σ ρ → Prop} (hI : I o w)
    (h : I o { w with st := (f w.st).2 } ∧ R (f w.st).1 o { w with st := (f w.st).2 }) :
    Always I (modifyGet f) R o w := by
  intro m o' q w' hg
  cases hg with
  | refl => exact ⟨by simpa using hI, fun a ha => by cases ha⟩
  | head hn t =>
    simp only [Proc.modifyGet, next, Option.some.injEq, Prod.mk.injEq] at hn
    obtain ⟨rfl, rfl, rfl⟩ := hn
    obtain ⟨-, rfl, rfl, rfl⟩ := goes_ret t
    simp only [List.append_nil]
    refine ⟨h.1, fun a ha => ?_⟩
    cases ha
    exact h.2

end

/-! ## At every moment -/

/-- `p` takes the state along `R`, however far it gets. -/
def Keeps (R : σ → σ → Prop) (p : Proc σ ρ α) : Prop :=
  ∀ n w o q w', Goes n p w o q w' → R w.st w'.st

theorem keeps_of_always {R : σ → σ → Prop} {p : Proc σ ρ α}
    (h : ∀ w, Always (fun _ v => R w.st v.st) p (fun _ _ _ => True) [] w) : Keeps R p :=
  fun n w o q w' hg => (h w n o q w' hg).1

theorem Keeps.always {R : σ → σ → Prop} {p : Proc σ ρ α} (hp : Keeps R p)
    {I : List (ρ × Bytes) → World σ ρ → Prop} {o : List (ρ × Bytes)} {w : World σ ρ}
    (h : ∀ o' w', R w.st w'.st → I (o ++ o') w') :
    Always I p (fun a _ w' => R w.st w'.st ∧ Runs p w a w') o w := by
  intro n o' q w' hg
  refine ⟨h o' w' (hp n w o' q w' hg), fun a ha => ?_⟩
  subst ha
  exact ⟨hp n w o' _ w' hg, hg.returns⟩

section
variable {R : σ → σ → Prop} (hrefl : ∀ s, R s s) (htrans : ∀ {s t u}, R s t → R t u → R s u)

include hrefl in
theorem keeps_modifyGet {f : σ → β × σ} (hf : ∀ s, R s (f s).2) : Keeps R (modifyGet f : Proc σ ρ β) :=
  keeps_of_always fun w => Always.modifyGet (hrefl w.st) ⟨hf w.st, trivial⟩

include hrefl htrans in
theorem closed_keeps : Closed (fun {_} (p : Proc σ ρ _) => Keeps R p) where
  pure a := keeps_of_always fun w => Always.pure (hrefl w.st) trivial
  bind {_ _ p f} hp hf := by
    intro n w o r w' hg
    rcases Goes.bind_cases hg with ⟨q, hq, -⟩ | ⟨m, k, a, w1, o1, o2, h1, h2, -, -⟩
    · exact hp _ _ _ _ _ hq
    · exact htrans (hp _ _ _ _ _ h1) (hf a _ _ _ _ _ h2)
  recvN r n := keeps_of_always fun w => Always.recvN (hrefl w.st) fun x w' hr => by
    rw [recv_st hr]
    exact ⟨hrefl _, trivial⟩
  sendB r b := keeps_of_always fun w => Always.sendB (hrefl w.st) (by
    rw [send_st]
    exact ⟨hrefl _, trivial⟩)

include hrefl htrans in
theorem Keeps.loop {body : γ → Proc σ ρ (γ ⊕ β)} (hb : ∀ g, Keeps R (body g)) (g : γ) :
    Keeps R (Proc.loop body g) :=
  keeps_of_always fun w => Always.loop (J := fun _ _ v => R w.st v.st) (fun g o v hv n o' q w' hg => by
    have h := htrans hv (hb g n v o' q w' hg)
    refine ⟨h, fun x hx => ?_⟩
    cases x with
    | inl g' => exact h
    | inr b => trivial) (hrefl w.st)

end

end Proc

end Mefsc
