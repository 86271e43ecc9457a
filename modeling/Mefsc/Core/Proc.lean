import Mefsc.Core.Bytes

/-!
# Sequential processes over a byte stream

A `Proc σ ρ α` is a sequential program with a private state `σ` that talks
over one connection: it receives a fixed number of bytes (`recv`, the whole
count or the end of the stream), sends bytes (`send`, with the number of bytes
the connection took), acts on its state (`act`) and loops (`iter`). Every
transfer carries a role `ρ`, a ghost label that no step depends on.

* `exec n p w`: run `p` against a `World` (state, bytes still to arrive,
  history), each loop for at most `n` rounds. `none`: `p` waits for bytes that
  are not there, or a loop needs more rounds.
* `Runs p w a w'`: some bound suffices. The rules `runs_bind`, `runs_loop`
  and so on take a program apart; `Runs.loop_induct` is the invariant rule,
  `Runs.loop_rec` the induction over the rounds of a loop that ended.
* `Halts p w`: it ends, in whatever way.
-/
namespace Mefsc

/-- A transfer: what one `recv` returned (`none`: end of the stream), or
the bytes one `send` put on the connection. -/
inductive Ev (ρ : Type) where
  | rcv (r : ρ) (b : Option Bytes)
  | snd (r : ρ) (b : Bytes)
  deriving DecidableEq, Repr

inductive Proc (σ ρ : Type) : Type → Type 1 where
  | ret {α : Type} (a : α) : Proc σ ρ α
  | recv {α : Type} (r : ρ) (n : Nat) (k : Option Bytes → Proc σ ρ α) : Proc σ ρ α
  | send {α : Type} (r : ρ) (b : Bytes) (k : Option Nat → Proc σ ρ α) : Proc σ ρ α
  | act {α β : Type} (f : σ → β × σ) (k : β → Proc σ ρ α) : Proc σ ρ α
  | iter {α β γ : Type} (body : γ → Proc σ ρ (γ ⊕ β)) (g : γ) (k : β → Proc σ ρ α) : Proc σ ρ α

namespace Proc

variable {σ ρ α β γ δ : Type}

def bind : Proc σ ρ α → (α → Proc σ ρ β) → Proc σ ρ β
  | .ret a, f => f a
  | .recv r n k, f => .recv r n fun o => (k o).bind f
  | .send r b k, f => .send r b fun o => (k o).bind f
  | .act g k, f => .act g fun x => (k x).bind f
  | .iter body g k, f => .iter body g fun x => (k x).bind f

instance : Monad (Proc σ ρ) where
  pure := .ret
  bind := Proc.bind

theorem bind_ret (p : Proc σ ρ α) : p.bind .ret = p := by
  induction p with
  | ret a => rfl
  | recv r n k ih => simp [bind, ih]
  | send r b k ih => simp [bind, ih]
  | act f k ih => simp [bind, ih]
  | iter body g k _ ih => simp [bind, ih]

theorem bind_assoc (p : Proc σ ρ α) (f : α → Proc σ ρ β) (g : β → Proc σ ρ δ) :
    (p.bind f).bind g = p.bind fun a => (f a).bind g := by
  induction p with
  | ret a => rfl
  | recv r n k ih => simp [bind, ih]
  | send r b k ih => simp [bind, ih]
  | act f k ih => simp [bind, ih]
  | iter body g k _ ih => simp [bind, ih]

instance : LawfulMonad (Proc σ ρ) :=
  LawfulMonad.mk' _ (fun p => bind_ret p) (fun _ _ => rfl) (fun p f g => bind_assoc p f g)

/-- Receive exactly `n` bytes, or learn that the stream ended first. -/
def recvN (r : ρ) (n : Nat) : Proc σ ρ (Option Bytes) := .recv r n .ret

def sendB (r : ρ) (b : Bytes) : Proc σ ρ (Option Nat) := .send r b .ret

def modifyGet (f : σ → β × σ) : Proc σ ρ β := .act f .ret

def modify (f : σ → σ) : Proc σ ρ Unit := .act (fun s => ((), f s)) .ret

def read (f : σ → β) : Proc σ ρ β := .act (fun s => (f s, s)) .ret

/-- `do { .. } while`: the body returns the next loop state or the result. -/
def loop (body : γ → Proc σ ρ (γ ⊕ β)) (g : γ) : Proc σ ρ β := .iter body g .ret

/-- What a loop does behind a round. -/
def again (body : γ → Proc σ ρ (γ ⊕ β)) : γ ⊕ β → Proc σ ρ β
  | .inl g => loop body g
  | .inr b => .ret b

end Proc

/-! ## Worlds and execution -/

/-- What a process runs against. `eof`: the peer has closed, so a `recv`
that lacks bytes returns. `outcomes`: what the next `send` calls accept
(`none`: failure); once it is used up every send is taken whole. -/
structure World (σ ρ : Type) where
  st : σ
  inp : Bytes
  eof : Bool
  hist : List (Ev ρ)
  outcomes : List (Option Nat)

namespace World

variable {σ ρ : Type}

/-- `n` bytes, or none of them when the peer has closed in front of the last one. A
receive that timed out is such a one too; no bytes come behind it. -/
def recv (w : World σ ρ) (r : ρ) (n : Nat) : Option (Option Bytes × World σ ρ) :=
  if n ≤ w.inp.length then
    some (some (w.inp.take n),
      { w with inp := w.inp.drop n, hist := w.hist ++ [.rcv r (some (w.inp.take n))] })
  else if w.eof then some (none, { w with inp := [], hist := w.hist ++ [.rcv r none] })
  else none

def send (w : World σ ρ) (r : ρ) (b : Bytes) : Option Nat × World σ ρ :=
  match w.outcomes with
  | [] => (some b.length, { w with hist := w.hist ++ [.snd r b] })
  | none :: os => (none, { w with outcomes := os })
  | some m :: os =>
    (some (min m b.length), { w with outcomes := os, hist := w.hist ++ [.snd r (b.take m)] })

end World

/-- Up to `n` rounds of a loop body. -/
def iterN {γ β W : Type} (body : γ → W → Option ((γ ⊕ β) × W)) : Nat → γ → W → Option (β × W)
  | 0, _, _ => none
  | n + 1, g, w =>
    match body g w with
    | none => none
    | some (.inl g', w') => iterN body n g' w'
    | some (.inr b, w') => some (b, w')

namespace Proc

variable {σ ρ α β γ : Type}

def exec (n : Nat) : {α : Type} → Proc σ ρ α → World σ ρ → Option (α × World σ ρ)
  | _, .ret a, w => some (a, w)
  | _, .recv r m k, w => (w.recv r m).bind fun x => exec n (k x.1) x.2
  | _, .send r b k, w => exec n (k (w.send r b).1) (w.send r b).2
  | _, .act f k, w => exec n (k (f w.st).1) { w with st := (f w.st).2 }
  | _, .iter body g k, w =>
    (iterN (fun g w => exec n (body g) w) n g w).bind fun x => exec n (k x.1) x.2

def Runs (p : Proc σ ρ α) (w : World σ ρ) (a : α) (w' : World σ ρ) : Prop :=
  ∃ n, exec n p w = some (a, w')

section
variable (n : Nat) (w : World σ ρ)

@[simp] theorem exec_ret (a : α) : exec n (.ret a) w = some (a, w) := rfl

@[simp] theorem exec_recv (r : ρ) (m : Nat) (k : Option Bytes → Proc σ ρ α) :
    exec n (.recv r m k) w = (w.recv r m).bind fun x => exec n (k x.1) x.2 := rfl

@[simp] theorem exec_send (r : ρ) (b : Bytes) (k : Option Nat → Proc σ ρ α) :
    exec n (.send r b k) w = exec n (k (w.send r b).1) (w.send r b).2 := rfl

@[simp] theorem exec_act (f : σ → β × σ) (k : β → Proc σ ρ α) :
    exec n (.act f k) w = exec n (k (f w.st).1) { w with st := (f w.st).2 } := rfl

@[simp] theorem exec_iter (body : γ → Proc σ ρ (γ ⊕ β)) (g : γ) (k : β → Proc σ ρ α) :
    exec n (.iter body g k) w =
      (iterN (fun g w => exec n (body g) w) n g w).bind fun x => exec n (k x.1) x.2 := rfl

end

theorem exec_bind (n : Nat) (p : Proc σ ρ α) (f : α → Proc σ ρ β) (w : World σ ρ) :
    exec n (p.bind f) w = (exec n p w).bind fun x => exec n (f x.1) x.2 := by
  induction p generalizing w with
  | ret a => rfl
  | recv r m k ih => cases h : w.recv r m <;> simp [bind, h, ih]
  | send r b k ih => simp [bind, ih]
  | act g k ih => simp [bind, ih]
  | iter body g k _ ih =>
    cases h : iterN (fun g w => exec n (body g) w) n g w <;> simp [bind, h, ih]

theorem iterN_mono {W : Type} {b1 b2 : γ → W → Option ((γ ⊕ β) × W)}
    (hb : ∀ g w x, b1 g w = some x → b2 g w = some x) {n m : Nat} (hnm : n ≤ m) {g : γ} {w : W}
    {x : β × W} (h : iterN b1 n g w = some x) : iterN b2 m g w = some x := by
  induction n generalizing m g w with
  | zero => simp [iterN] at h
  | succ n ih =>
    obtain ⟨m, rfl⟩ : ∃ k, m = k + 1 := ⟨m - 1, by omega⟩
    rw [iterN] at h ⊢
    cases hg : b1 g w with
    | none => simp [hg] at h
    | some y =>
      rw [hb _ _ _ hg]
      obtain ⟨_ | _, _⟩ := y
      · simp only [hg] at h ⊢; exact ih (by omega) h
      · simp only [hg] at h ⊢; exact h

theorem exec_mono {n m : Nat} (hnm : n ≤ m) (p : Proc σ ρ α) (w : World σ ρ) {x : α × World σ ρ}
    (h : exec n p w = some x) : exec m p w = some x := by
  induction p generalizing w with
  | ret a => exact h
  | recv r b k ih =>
    simp only [exec_recv, Option.bind_eq_some_iff] at h ⊢
    obtain ⟨y, h1, h2⟩ := h
    exact ⟨y, h1, ih _ _ h2⟩
  | send r b k ih => exact ih _ _ h
  | act f k ih => exact ih _ _ h
  | iter body g k ihb ih =>
    simp only [exec_iter, Option.bind_eq_some_iff] at h ⊢
    obtain ⟨y, h1, h2⟩ := h
    exact ⟨y, iterN_mono (fun g w x hx => ihb g w hx) hnm h1, ih _ _ h2⟩

theorem Runs.unique {p : Proc σ ρ α} {w : World σ ρ} {a b : α} {w1 w2 : World σ ρ}
    (h1 : Runs p w a w1) (h2 : Runs p w b w2) : a = b ∧ w1 = w2 := by
  obtain ⟨n, hn⟩ := h1
  obtain ⟨m, hm⟩ := h2
  have e1 := exec_mono (Nat.le_max_left n m) p w hn
  have e2 := exec_mono (Nat.le_max_right n m) p w hm
  rw [e1] at e2
  simpa using e2

/-! ## Rules -/

@[simp] theorem runs_ret (b : α) (w : World σ ρ) (a : α) (w' : World σ ρ) :
    Runs (.ret b) w a w' ↔ a = b ∧ w' = w := by
  simp [Runs, eq_comm]

@[simp] theorem runs_pure (b : α) (w : World σ ρ) (a : α) (w' : World σ ρ) :
    Runs (pure b) w a w' ↔ a = b ∧ w' = w := runs_ret b w a w'

theorem runs_ite_pure (c : Prop) [Decidable c] (x y : α) (w : World σ ρ) (a : α) (w' : World σ ρ) :
    Runs (if c then pure x else pure y) w a w' ↔ a = (if c then x else y) ∧ w' = w := by
  split <;> exact runs_pure _ _ _ _

theorem runs_bind' (p : Proc σ ρ α) (f : α → Proc σ ρ β) (w : World σ ρ) (b : β)
    (w' : World σ ρ) : Runs (p.bind f) w b w' ↔ ∃ a w1, Runs p w a w1 ∧ Runs (f a) w1 b w' := by
  constructor
  · rintro ⟨n, h⟩
    rw [exec_bind, Option.bind_eq_some_iff] at h
    obtain ⟨⟨a, w1⟩, h1, h2⟩ := h
    exact ⟨a, w1, ⟨n, h1⟩, ⟨n, h2⟩⟩
  · rintro ⟨a, w1, ⟨n, h1⟩, ⟨m, h2⟩⟩
    refine ⟨max n m, ?_⟩
    rw [exec_bind, exec_mono (Nat.le_max_left n m) p w h1]
    exact exec_mono (Nat.le_max_right n m) _ _ h2

@[simp] theorem runs_bind (p : Proc σ ρ α) (f : α → Proc σ ρ β) (w : World σ ρ) (b : β)
    (w' : World σ ρ) : Runs (p >>= f) w b w' ↔ ∃ a w1, Runs p w a w1 ∧ Runs (f a) w1 b w' :=
  runs_bind' p f w b w'

theorem Runs.bind {p : Proc σ ρ α} {f : α → Proc σ ρ β} {w w1 w' : World σ ρ} {a : α} {b : β}
    (h1 : Runs p w a w1) (h2 : Runs (f a) w1 b w') : Runs (p >>= f) w b w' :=
  (runs_bind p f w b w').mpr ⟨a, w1, h1, h2⟩

/-- `p` ends. -/
def Halts (p : Proc σ ρ α) (w : World σ ρ) : Prop := ∃ a w', Runs p w a w'

theorem Runs.halts_bind {p : Proc σ ρ α} {f : α → Proc σ ρ β} {w w1 : World σ ρ} {a : α}
    (h1 : Runs p w a w1) (h2 : Halts (f a) w1) : Halts (p >>= f) w := by
  obtain ⟨b, w', h2⟩ := h2
  exact ⟨b, w', h1.bind h2⟩

theorem runs_recvN (r : ρ) (n : Nat) (w : World σ ρ) (o : Option Bytes) (w' : World σ ρ) :
    Runs (recvN r n) w o w' ↔ w.recv r n = some (o, w') := by
  constructor
  · rintro ⟨m, h⟩
    simp only [recvN, exec_recv, exec_ret, Option.bind_eq_some_iff] at h
    obtain ⟨y, h1, h2⟩ := h
    rw [h1, ← h2]
  · intro h
    exact ⟨0, by simp [recvN, h]⟩

theorem runs_sendB (r : ρ) (b : Bytes) (w : World σ ρ) (o : Option Nat) (w' : World σ ρ) :
    Runs (sendB r b) w o w' ↔ w.send r b = (o, w') := by
  constructor
  · rintro ⟨m, h⟩
    simpa [sendB] using h
  · intro h
    exact ⟨0, by simp [sendB, h]⟩

@[simp] theorem runs_modifyGet (f : σ → β × σ) (w : World σ ρ) (b : β) (w' : World σ ρ) :
    Runs (modifyGet f) w b w' ↔ b = (f w.st).1 ∧ w' = { w with st := (f w.st).2 } := by
  simp [Runs, modifyGet, eq_comm]

@[simp] theorem runs_modify (f : σ → σ) (w : World σ ρ) (u : Unit) (w' : World σ ρ) :
    Runs (modify f) w u w' ↔ w' = { w with st := f w.st } := by
  simp [Runs, modify, eq_comm]

@[simp] theorem runs_read (f : σ → β) (w : World σ ρ) (b : β) (w' : World σ ρ) :
    Runs (read f) w b w' ↔ b = f w.st ∧ w' = w := by
  simp [Runs, read, @eq_comm _ b, @eq_comm _ w']

section
variable {st : σ} {inp : Bytes} {e : Bool} {h : List (Ev ρ)} {o : List (Option Nat)} {a : α}
  {w : World σ ρ}

theorem Runs.modifyGet_bind {f : σ → β × σ} {k : β → Proc σ ρ α}
    (hk : Runs (k (f st).1) ⟨(f st).2, inp, e, h, o⟩ a w) :
    Runs (modifyGet f >>= k) ⟨st, inp, e, h, o⟩ a w :=
  Runs.bind ((runs_modifyGet f _ _ _).mpr ⟨rfl, rfl⟩) hk

theorem Runs.modify_bind {f : σ → σ} {k : Unit → Proc σ ρ α}
    (hk : Runs (k ()) ⟨f st, inp, e, h, o⟩ a w) : Runs (modify f >>= k) ⟨st, inp, e, h, o⟩ a w :=
  Runs.bind ((runs_modify f _ () _).mpr rfl) hk

theorem Runs.read_bind {f : σ → β} {k : β → Proc σ ρ α}
    (hk : Runs (k (f st)) ⟨st, inp, e, h, o⟩ a w) : Runs (read f >>= k) ⟨st, inp, e, h, o⟩ a w :=
  Runs.bind ((runs_read f _ _ _).mpr ⟨rfl, rfl⟩) hk

end

theorem exec_loop (n : Nat) (body : γ → Proc σ ρ (γ ⊕ β)) (g : γ) (w : World σ ρ) :
    exec n (loop body g) w = iterN (fun g w => exec n (body g) w) n g w := by
  cases h : iterN (fun g w => exec n (body g) w) n g w <;> simp [loop, h]

/-- One round of a loop. -/
theorem runs_loop (body : γ → Proc σ ρ (γ ⊕ β)) (g : γ) (w : World σ ρ) (b : β)
    (w' : World σ ρ) : Runs (loop body g) w b w' ↔
      ∃ x w1, Runs (body g) w x w1 ∧
        match x with
        | .inl g' => Runs (loop body g') w1 b w'
        | .inr b' => b = b' ∧ w' = w1 := by
  constructor
  · rintro ⟨n, h⟩
    rw [exec_loop] at h
    cases n with
    | zero => simp [iterN] at h
    | succ n =>
      rw [iterN] at h
      cases hg : exec (n + 1) (body g) w with
      | none => simp [hg] at h
      | some x =>
        obtain ⟨x, w1⟩ := x
        refine ⟨x, w1, ⟨n + 1, hg⟩, ?_⟩
        cases x with
        | inl g' =>
          simp only [hg] at h
          exact ⟨n + 1, by rw [exec_loop]; exact iterN_mono (fun _ _ _ hx => hx) (Nat.le_succ n) h⟩
        | inr b' =>
          simp only [hg, Option.some.injEq, Prod.mk.injEq] at h
          exact ⟨h.1.symm, h.2.symm⟩
  · rintro ⟨x, w1, ⟨n, h1⟩, h2⟩
    cases x with
    | inr b' =>
      obtain ⟨rfl, rfl⟩ := h2
      exact ⟨n + 1, by rw [exec_loop, iterN, exec_mono (Nat.le_succ n) (body g) w h1]⟩
    | inl g' =>
      obtain ⟨m, h2⟩ := h2
      rw [exec_loop] at h2
      have e1 := exec_mono (show n ≤ max n m + 1 by omega) (body g) w h1
      have e2 := iterN_mono (m := max n m)
        (fun g w x hx => exec_mono (show m ≤ max n m + 1 by omega) (body g) w hx) (by omega) h2
      exact ⟨max n m + 1, by rw [exec_loop, iterN, e1]; exact e2⟩

/-- The invariant rule for loops: `I` holds of the loop state at the start of
every round, and a round that leaves the loop establishes `Q`. -/
theorem Runs.loop_induct {body : γ → Proc σ ρ (γ ⊕ β)} {I : γ → World σ ρ → Prop}
    {Q : β → World σ ρ → Prop}
    (hl : ∀ g w g' w', I g w → Runs (body g) w (.inl g') w' → I g' w')
    (hr : ∀ g w b w', I g w → Runs (body g) w (.inr b) w' → Q b w')
    {g : γ} {w : World σ ρ} {b : β} {w' : World σ ρ} (hI : I g w) (h : Runs (loop body g) w b w') :
    Q b w' := by
  obtain ⟨n, h⟩ := h
  rw [exec_loop] at h
  have hex : ∀ g w x, exec n (body g) w = some x → Runs (body g) w x.1 x.2 :=
    fun g w x hx => ⟨n, hx⟩
  -- the bound on each round stays `n`; the induction is on the rounds left
  generalize hm : n = m at h
  have hbd : (fun g w => exec m (body g) w) = fun g w => exec n (body g) w := by rw [hm]
  rw [hbd] at h
  clear hm hbd
  induction m generalizing g w with
  | zero => simp [iterN] at h
  | succ m ih =>
    rw [iterN] at h
    cases hg : exec n (body g) w with
    | none => simp [hg] at h
    | some x =>
      obtain ⟨x, w1⟩ := x
      have hx := hex g w _ hg
      cases x with
      | inl g' => simp only [hg] at h; exact ih (hl _ _ _ _ hI hx) h
      | inr b' =>
        simp only [hg, Option.some.injEq, Prod.mk.injEq] at h
        obtain ⟨rfl, rfl⟩ := h
        exact hr _ _ _ _ hI hx

/-- What holds of a round that leaves the loop, and is carried over a round in
front of it, holds of the whole loop. -/
theorem Runs.loop_rec {body : γ → Proc σ ρ (γ ⊕ β)} {P : γ → World σ ρ → β → World σ ρ → Prop}
    (stop : ∀ g w b w', Runs (body g) w (.inr b) w' → P g w b w')
    (next : ∀ g w g' w1 b w', Runs (body g) w (.inl g') w1 → P g' w1 b w' → P g w b w')
    {g : γ} {w : World σ ρ} {b : β} {w' : World σ ρ} (h : Runs (loop body g) w b w') :
    P g w b w' := by
  refine Runs.loop_induct (I := fun g1 w1 => ∀ b w', P g1 w1 b w' → P g w b w') ?_ ?_
    (fun _ _ hp => hp) h
  · intro g1 w1 g2 w2 hI hb b w' hp
    exact hI b w' (next _ _ _ _ _ _ hb hp)
  · intro g1 w1 b w' hI hb
    exact hI b w' (stop _ _ _ _ hb)

end Proc

end Mefsc
