import Mefsc.Core.Proc

/-!
# Two processes over two FIFO channels

A `Net` is a pair of parties, each a process with its state, the bytes on
their way to it and its history. A step runs one operation of one party; what
it sends is appended to the other's input; a `recv` that lacks bytes returns
only once the other party has returned (its socket is closed).

Both parties are deterministic and a channel is written by one and read by the
other, so steps of the two commute (`diamond`), and any two runs from one
state can be completed to a common one (`Run.join`). Hence facts about *every*
interleaving follow from one run:

* `noWait_of_run`: if no mutual wait is reachable after some run, none is
  reachable before it, on any other schedule either;
* `run_to_stuck`: if one run ends stuck, every run can be continued to that
  same state, and none is longer;
* `agrees_of_run`: role agreement at the end of some run holds everywhere
  before it.

`Reach.runsL` / `Reach.runsR` turn an execution of a party (`Proc.Runs`) into a
run of the net, `Reach.loopR` an execution of a loop body.
-/
namespace Mefsc

variable {σ τ ρ α β : Type}

/-! ## Histories -/

/-- The bytes sent in a history. -/
def sent : List (Ev ρ) → Bytes
  | [] => []
  | .snd _ b :: es => b ++ sent es
  | .rcv _ _ :: es => sent es

/-- The role of each byte sent, in order. -/
def stags : List (Ev ρ) → List ρ
  | [] => []
  | .snd r b :: es => List.replicate b.length r ++ stags es
  | .rcv _ _ :: es => stags es

/-- The role in which each byte was received, in order. -/
def rtags : List (Ev ρ) → List ρ
  | [] => []
  | .rcv r (some b) :: es => List.replicate b.length r ++ rtags es
  | .rcv _ none :: es => rtags es
  | .snd _ _ :: es => rtags es

@[simp] theorem sent_append (x y : List (Ev ρ)) : sent (x ++ y) = sent x ++ sent y := by
  induction x with
  | nil => rfl
  | cons e x ih => cases e <;> simp [sent, ih]

@[simp] theorem stags_append (x y : List (Ev ρ)) : stags (x ++ y) = stags x ++ stags y := by
  induction x with
  | nil => rfl
  | cons e x ih => cases e <;> simp [stags, ih]

@[simp] theorem rtags_append (x y : List (Ev ρ)) : rtags (x ++ y) = rtags x ++ rtags y := by
  induction x with
  | nil => rfl
  | cons e x ih =>
    cases e with
    | snd r b => simp [rtags, ih]
    | rcv r o => cases o <;> simp [rtags, ih]

/-! ## Parties -/

structure Party (σ ρ α : Type) where
  pr : Proc σ ρ α
  st : σ
  inp : Bytes
  hist : List (Ev ρ)

namespace Party

def done (p : Party σ ρ α) : Bool :=
  match p.pr with
  | .ret _ => true
  | _ => false

/-- Bytes arrive. -/
def feed (p : Party σ ρ α) (x : Bytes) : Party σ ρ α := { p with inp := p.inp ++ x }

/-- What has not returned before its continuation does. -/
theorem done_bind {γ : Type} {p : Proc σ ρ γ} {f : γ → Proc σ ρ α} {w w' : World σ ρ} {a : γ}
    (hx : Proc.Runs p w a w') {st : σ} {inp : Bytes} {h : List (Ev ρ)}
    (hf : (⟨f a, st, inp, h⟩ : Party σ ρ α).done = false) :
    (⟨p >>= f, st, inp, h⟩ : Party σ ρ α).done = false := by
  cases p with
  | ret b =>
    obtain ⟨rfl, -⟩ := (Proc.runs_ret _ _ _ _).mp hx
    exact hf
  | _ => rfl

/-- One operation, and the bytes it sends. `eof`: the peer has closed. -/
def step (p : Party σ ρ α) (eof : Bool) : Option (Party σ ρ α × Bytes) :=
  match p with
  | ⟨.ret _, _, _, _⟩ => none
  | ⟨.recv r n k, st, inp, h⟩ =>
    if n ≤ inp.length then
      some (⟨k (some (inp.take n)), st, inp.drop n, h ++ [.rcv r (some (inp.take n))]⟩, [])
    else if eof then some (⟨k none, st, [], h ++ [.rcv r none]⟩, [])
    else none
  | ⟨.send r b k, st, inp, h⟩ => some (⟨k (some b.length), st, inp, h ++ [.snd r b]⟩, b)
  | ⟨.act f k, st, inp, h⟩ => some (⟨k (f st).1, (f st).2, inp, h⟩, [])
  | ⟨.iter body g k, st, inp, h⟩ =>
    some (⟨(body g).bind fun
      | .inl g' => .iter body g' k
      | .inr b => k b, st, inp, h⟩, [])

/-- Waits in a `recv` for bytes that have not arrived. -/
def waits (p : Party σ ρ α) : Bool :=
  match p.pr with
  | .recv _ n _ => decide (p.inp.length < n)
  | _ => false

@[simp] theorem feed_nil (p : Party σ ρ α) : p.feed [] = p := by simp [feed]

@[simp] theorem done_feed (p : Party σ ρ α) (x : Bytes) : (p.feed x).done = p.done := rfl

theorem step_done {p : Party σ ρ α} {e : Bool} (h : p.done = true) : p.step e = none := by
  obtain ⟨pr, st, inp, hist⟩ := p
  cases pr <;> simp_all [done, step]

theorem done_of_waits {p : Party σ ρ α} (h : p.waits = true) : p.done = false := by
  obtain ⟨pr, st, inp, hist⟩ := p
  cases pr <;> simp_all [waits, done]

theorem step_waits {p : Party σ ρ α} (h : p.waits = true) : p.step false = none := by
  obtain ⟨pr, st, inp, hist⟩ := p
  cases pr <;> simp_all [waits, step]

/-- A step that does not see the end of the stream is the same with more
bytes behind it, closed or not. -/
theorem step_feed {p q : Party σ ρ α} {o : Bytes} (h : p.step false = some (q, o)) (x : Bytes)
    (e : Bool) : (p.feed x).step e = some (q.feed x, o) := by
  obtain ⟨pr, st, inp, hist⟩ := p
  cases pr with
  | ret a => simp [step] at h
  | recv r n k =>
    by_cases hn : n ≤ inp.length
    · simp only [step, hn, if_true, Option.some.injEq, Prod.mk.injEq] at h
      obtain ⟨rfl, rfl⟩ := h
      have hn' : n ≤ inp.length + x.length := by omega
      simp [feed, step, hn', List.take_append_of_le_length hn, List.drop_append_of_le_length hn]
    · simp [step, hn] at h
  | send r b k => simp only [step, Option.some.injEq, Prod.mk.injEq] at h; obtain ⟨rfl, rfl⟩ := h; rfl
  | act f k => simp only [step, Option.some.injEq, Prod.mk.injEq] at h; obtain ⟨rfl, rfl⟩ := h; rfl
  | iter body g k =>
    simp only [step, Option.some.injEq, Prod.mk.injEq] at h; obtain ⟨rfl, rfl⟩ := h; rfl

/-- What a step does to the history and the input. -/
theorem step_hist {p q : Party σ ρ α} {e : Bool} {o : Bytes} (h : p.step e = some (q, o)) :
    ∃ evs, q.hist = p.hist ++ evs ∧ evs.length ≤ 1 ∧ (stags evs).length = o.length ∧
      (rtags evs).length + q.inp.length ≤ p.inp.length := by
  obtain ⟨pr, st, inp, hist⟩ := p
  cases pr with
  | ret a => simp [step] at h
  | recv r n k =>
    by_cases hn : n ≤ inp.length
    · simp only [step, hn, if_true, Option.some.injEq, Prod.mk.injEq] at h
      obtain ⟨rfl, rfl⟩ := h
      exact ⟨_, rfl, by simp, rfl, by simp [rtags]; omega⟩
    · simp only [step, hn, if_false] at h
      split at h
      · simp only [Option.some.injEq, Prod.mk.injEq] at h
        obtain ⟨rfl, rfl⟩ := h
        exact ⟨_, rfl, by simp, rfl, by simp [rtags]⟩
      · simp at h
  | send r b k =>
    simp only [step, Option.some.injEq, Prod.mk.injEq] at h
    obtain ⟨rfl, rfl⟩ := h
    exact ⟨_, rfl, by simp, by simp [stags], by simp [rtags]⟩
  | act f k =>
    simp only [step, Option.some.injEq, Prod.mk.injEq] at h
    obtain ⟨rfl, rfl⟩ := h
    exact ⟨[], by simp, by simp, rfl, by simp [rtags]⟩
  | iter body g k =>
    simp only [step, Option.some.injEq, Prod.mk.injEq] at h
    obtain ⟨rfl, rfl⟩ := h
    exact ⟨[], by simp, by simp, rfl, by simp [rtags]⟩

/-! ### Executions of one party -/

/-- `n` steps of one party, and all it sent. -/
inductive Steps (e : Bool) : Nat → Party σ ρ α → Party σ ρ α → Bytes → Prop where
  | refl (p : Party σ ρ α) : Steps e 0 p p []
  | head {n : Nat} {p q r : Party σ ρ α} {o o' : Bytes} (h : p.step e = some (q, o))
      (t : Steps e n q r o') : Steps e (n + 1) p r (o ++ o')

theorem Steps.trans {e : Bool} {n m : Nat} {p q r : Party σ ρ α} {o o' : Bytes}
    (h1 : Steps e n p q o) (h2 : Steps e m q r o') : Steps e (n + m) p r (o ++ o') := by
  induction h1 with
  | refl p => simpa using h2
  | head h t ih =>
    rw [List.append_assoc, Nat.add_right_comm]
    exact .head h (ih h2)

theorem Steps.one {e : Bool} {p q : Party σ ρ α} {o : Bytes} (h : p.step e = some (q, o)) :
    Steps e 1 p q o := by
  simpa using Steps.head h (.refl q)

theorem Steps.feed {n : Nat} {p q : Party σ ρ α} {o : Bytes} (h : Steps false n p q o)
    (x : Bytes) (e : Bool) : Steps e n (p.feed x) (q.feed x) o := by
  induction h with
  | refl p => exact .refl _
  | head h t ih => exact .head (step_feed h x e) ih

end Party

open Party in
/-- An execution of `p` is a run of a party that goes on with `f`. -/
theorem Proc.exec_steps (n : Nat) (p : Proc σ ρ α) (f : α → Proc σ ρ β) (st : σ) (inp : Bytes)
    (e : Bool) (h : List (Ev ρ)) (a : α) (w' : World σ ρ)
    (hx : exec n p ⟨st, inp, e, h, []⟩ = some (a, w')) :
    ∃ k evs, w' = ⟨w'.st, w'.inp, e, h ++ evs, []⟩ ∧
      Steps e k ⟨p.bind f, st, inp, h⟩ ⟨f a, w'.st, w'.inp, h ++ evs⟩ (sent evs) := by
  induction p generalizing st inp h w' with
  | ret b =>
    simp only [exec, Option.some.injEq, Prod.mk.injEq] at hx
    obtain ⟨rfl, rfl⟩ := hx
    exact ⟨0, [], by simp, by simpa [Proc.bind, sent] using Steps.refl _⟩
  | recv r m k ih =>
    simp only [exec, Option.bind_eq_some_iff] at hx
    obtain ⟨⟨o, w1⟩, h1, h2⟩ := hx
    simp only [World.recv] at h1
    split at h1
    · rename_i hm
      simp only [Option.some.injEq, Prod.mk.injEq] at h1
      obtain ⟨rfl, rfl⟩ := h1
      obtain ⟨j, evs, hw, hs⟩ := ih _ _ _ _ _ _ _ h2
      refine ⟨j + 1, .rcv r (some (inp.take m)) :: evs, by simpa using hw, ?_⟩
      have h0 : (⟨(Proc.recv r m k).bind f, st, inp, h⟩ : Party σ ρ β).step e =
          some (⟨(k (some (inp.take m))).bind f, st, inp.drop m,
            h ++ [.rcv r (some (inp.take m))]⟩, []) := by
        simp [Proc.bind, Party.step, hm]
      simpa [sent] using Steps.head h0 hs
    · split at h1
      · rename_i hm he
        simp only [Option.some.injEq, Prod.mk.injEq] at h1
        obtain ⟨rfl, rfl⟩ := h1
        obtain ⟨j, evs, hw, hs⟩ := ih _ _ _ _ _ _ _ h2
        refine ⟨j + 1, .rcv r none :: evs, by simpa using hw, ?_⟩
        have h0 : (⟨(Proc.recv r m k).bind f, st, inp, h⟩ : Party σ ρ β).step e =
            some (⟨(k none).bind f, st, [], h ++ [.rcv r none]⟩, []) := by
          simp [Proc.bind, Party.step, hm, he]
        simpa [sent] using Steps.head h0 hs
      · simp at h1
  | send r b k ih =>
    simp only [exec, World.send] at hx
    obtain ⟨j, evs, hw, hs⟩ := ih _ f _ _ _ _ _ hx
    have h0 : (⟨(Proc.send r b k).bind f, st, inp, h⟩ : Party σ ρ β).step e =
        some (⟨(k (some b.length)).bind f, st, inp, h ++ [.snd r b]⟩, b) := rfl
    exact ⟨j + 1, .snd r b :: evs, by simpa using hw, by simpa [sent] using Steps.head h0 hs⟩
  | act g k ih =>
    obtain ⟨j, evs, hw, hs⟩ := ih _ f _ _ _ _ _ hx
    have h0 : (⟨(Proc.act g k).bind f, st, inp, h⟩ : Party σ ρ β).step e =
        some (⟨(k (g st).1).bind f, (g st).2, inp, h⟩, []) := rfl
    exact ⟨j + 1, evs, hw, by simpa using Steps.head h0 hs⟩
  | iter body g k ihb ih =>
    simp only [exec, Option.bind_eq_some_iff] at hx
    obtain ⟨⟨b, w1⟩, h1, h2⟩ := hx
    -- induction on the rounds: each is a run of the body with the loop behind it
    have key : ∀ m g st inp h, iterN (fun g w => exec n (body g) w) m g ⟨st, inp, e, h, []⟩ =
        some (b, w1) → ∃ j evs, w1 = ⟨w1.st, w1.inp, e, h ++ evs, []⟩ ∧
          Steps e j ⟨(Proc.iter body g k).bind f, st, inp, h⟩
            ⟨(k b).bind f, w1.st, w1.inp, h ++ evs⟩ (sent evs) := by
      intro m
      induction m with
      | zero => intro g st inp h hx; simp [iterN] at hx
      | succ m ihm =>
        intro g st inp h hx
        rw [iterN] at hx
        cases hg : exec n (body g) ⟨st, inp, e, h, []⟩ with
        | none => simp [hg] at hx
        | some y =>
          obtain ⟨y, w2⟩ := y
          obtain ⟨j, evs, hw2, hs⟩ := ihb g (fun
            | .inl g' => .iter body g' fun b => (k b).bind f
            | .inr b => (k b).bind f) st inp h y w2 hg
          have h0 : (⟨(Proc.iter body g k).bind f, st, inp, h⟩ : Party σ ρ β).step e =
              some (⟨(body g).bind fun
                | .inl g' => .iter body g' fun b => (k b).bind f
                | .inr b => (k b).bind f, st, inp, h⟩, []) := rfl
          have hs' := Steps.head h0 hs
          cases y with
          | inr b' =>
            simp only [hg, Option.some.injEq, Prod.mk.injEq] at hx
            obtain ⟨rfl, rfl⟩ := hx
            exact ⟨_, evs, hw2, by simpa using hs'⟩
          | inl g' =>
            simp only [hg] at hx
            rw [hw2] at hx
            obtain ⟨j', evs', hw1, hs2⟩ := ihm _ _ _ _ hx
            have hs3 := hs'.trans hs2
            exact ⟨_, evs ++ evs', by simpa using hw1, by simpa using hs3⟩
    obtain ⟨j, evs, hw1, hs⟩ := key n g st inp h h1
    rw [hw1] at h2
    obtain ⟨j', evs', hw, hs'⟩ := ih _ _ _ _ _ _ _ h2
    exact ⟨_, evs ++ evs', by simpa using hw, by simpa using hs.trans hs'⟩

namespace Party

/-- An execution of `p`, with `f` behind it. -/
theorem Steps.ofRuns {p : Proc σ ρ α} (f : α → Proc σ ρ β) {st st' : σ} {inp inp' : Bytes} {e : Bool}
    {h evs : List (Ev ρ)} {a : α}
    (hx : Proc.Runs p ⟨st, inp, e, h, []⟩ a ⟨st', inp', e, h ++ evs, []⟩) :
    ∃ n, Steps e n ⟨p >>= f, st, inp, h⟩ ⟨f a, st', inp', h ++ evs⟩ (sent evs) := by
  obtain ⟨m, hx⟩ := hx
  obtain ⟨n, evs', hw, hs⟩ := Proc.exec_steps m p f st inp e h a _ hx
  simp only [World.mk.injEq, true_and, and_true] at hw
  obtain rfl := List.append_cancel_left hw
  exact ⟨n, hs⟩

theorem step_loop {γ : Type} (body : γ → Proc σ ρ (γ ⊕ α)) (f : α → Proc σ ρ β) (g : γ) (st : σ)
    (inp : Bytes) (h : List (Ev ρ)) (e : Bool) :
    (⟨Proc.loop body g >>= f, st, inp, h⟩ : Party σ ρ β).step e =
      some (⟨body g >>= fun y => Proc.again body y >>= f, st, inp, h⟩, []) := by
  refine congrArg (fun k => some ((⟨(body g).bind k, st, inp, h⟩ : Party σ ρ β), [])) (funext fun y => ?_)
  cases y <;> rfl

/-- A round of a loop, with `f` behind the loop. -/
theorem Steps.round {γ : Type} {body : γ → Proc σ ρ (γ ⊕ α)} (f : α → Proc σ ρ β) {g : γ} {st st' : σ}
    {inp inp' : Bytes} {e : Bool} {h evs : List (Ev ρ)} {x : γ ⊕ α}
    (hx : Proc.Runs (body g) ⟨st, inp, e, h, []⟩ x ⟨st', inp', e, h ++ evs, []⟩) :
    ∃ n, Steps e (n + 1) ⟨Proc.loop body g >>= f, st, inp, h⟩
      ⟨Proc.again body x >>= f, st', inp', h ++ evs⟩ (sent evs) := by
  obtain ⟨n, hs⟩ := Steps.ofRuns (fun y => Proc.again body y >>= f) hx
  exact ⟨n, by simpa using Steps.head (step_loop body f g st inp h e) hs⟩

end Party

/-! ## Nets -/

structure Net (σ τ ρ α β : Type) where
  l : Party σ ρ α
  r : Party τ ρ β

namespace Net

def stepL (s : Net σ τ ρ α β) : Option (Net σ τ ρ α β) :=
  (s.l.step s.r.done).map fun x => ⟨x.1, s.r.feed x.2⟩

def stepR (s : Net σ τ ρ α β) : Option (Net σ τ ρ α β) :=
  (s.r.step s.l.done).map fun x => ⟨s.l.feed x.2, x.1⟩

/-- A run with `i` steps of the left and `j` of the right party. -/
inductive Run : Nat → Nat → Net σ τ ρ α β → Net σ τ ρ α β → Prop where
  | refl (s : Net σ τ ρ α β) : Run 0 0 s s
  | left {i j : Nat} {s t u : Net σ τ ρ α β} (h : s.stepL = some t) (r : Run i j t u) :
      Run (i + 1) j s u
  | right {i j : Nat} {s t u : Net σ τ ρ α β} (h : s.stepR = some t) (r : Run i j t u) :
      Run i (j + 1) s u

def Reach (s t : Net σ τ ρ α β) : Prop := ∃ i j, Run i j s t

/-- Both parties wait in a `recv` that the bytes on their way do not fill. -/
def MutualWait (s : Net σ τ ρ α β) : Prop := s.l.waits = true ∧ s.r.waits = true

def Stuck (s : Net σ τ ρ α β) : Prop := s.stepL = none ∧ s.stepR = none

theorem Run.trans {i j i' j' : Nat} {s t u : Net σ τ ρ α β} (h1 : Run i j s t)
    (h2 : Run i' j' t u) : Run (i + i') (j + j') s u := by
  induction h1 with
  | refl s => simpa using h2
  | left h _ ih => rw [Nat.add_right_comm]; exact .left h (ih h2)
  | right h _ ih => rw [Nat.add_right_comm]; exact .right h (ih h2)

theorem Reach.refl (s : Net σ τ ρ α β) : Reach s s := ⟨0, 0, .refl s⟩

theorem Reach.trans {s t u : Net σ τ ρ α β} (h1 : Reach s t) (h2 : Reach t u) : Reach s u := by
  obtain ⟨i, j, h1⟩ := h1
  obtain ⟨i', j', h2⟩ := h2
  exact ⟨_, _, h1.trans h2⟩

theorem stuck_of_mutualWait {s : Net σ τ ρ α β} (h : s.MutualWait) : s.Stuck := by
  simp [Stuck, stepL, stepR, Party.done_of_waits h.1, Party.done_of_waits h.2, Party.step_waits h.1,
    Party.step_waits h.2]

/-! ### Steps of the two parties commute -/

theorem diamond {s a b : Net σ τ ρ α β} (ha : s.stepL = some a) (hb : s.stepR = some b) :
    ∃ c, a.stepR = some c ∧ b.stepL = some c := by
  obtain ⟨l, r⟩ := s
  simp only [stepL, stepR, Option.map_eq_some_iff] at ha hb
  obtain ⟨⟨l', o1⟩, h1, rfl⟩ := ha
  obtain ⟨⟨r', o2⟩, h2, rfl⟩ := hb
  -- a party that can step has not returned, so neither sees the end of its stream
  have hl : l.done = false := by
    by_contra hc; simp [Party.step_done (by simpa using hc)] at h1
  have hr : r.done = false := by
    by_contra hc; simp [Party.step_done (by simpa using hc)] at h2
  rw [hr] at h1
  rw [hl] at h2
  refine ⟨⟨l'.feed o2, r'.feed o1⟩, ?_, ?_⟩
  · simp [stepR, Party.step_feed h2 o1]
  · simp [stepL, Party.step_feed h1 o2]

/-- A left step and a run from the same state. -/
theorem strip_left {i j : Nat} {s a u : Net σ τ ρ α β} (ha : s.stepL = some a)
    (h : Run i j s u) :
    (∃ i', i = i' + 1 ∧ Run i' j a u) ∨ (i = 0 ∧ ∃ v, u.stepL = some v ∧ Run 0 j a v) := by
  induction h generalizing a with
  | refl s => exact .inr ⟨rfl, a, ha, .refl a⟩
  | left h r _ => rw [ha] at h; cases h; exact .inl ⟨_, rfl, r⟩
  | right h r ih =>
    obtain ⟨c, hc1, hc2⟩ := diamond ha h
    rcases ih hc2 with ⟨i', rfl, r'⟩ | ⟨rfl, v, hv, r'⟩
    · exact .inl ⟨i', rfl, .right hc1 r'⟩
    · exact .inr ⟨rfl, v, hv, .right hc1 r'⟩

theorem strip_right {i j : Nat} {s a u : Net σ τ ρ α β} (ha : s.stepR = some a)
    (h : Run i j s u) :
    (∃ j', j = j' + 1 ∧ Run i j' a u) ∨ (j = 0 ∧ ∃ v, u.stepR = some v ∧ Run i 0 a v) := by
  induction h generalizing a with
  | refl s => exact .inr ⟨rfl, a, ha, .refl a⟩
  | right h r _ => rw [ha] at h; cases h; exact .inl ⟨_, rfl, r⟩
  | left h r ih =>
    obtain ⟨c, hc1, hc2⟩ := diamond h ha
    rcases ih hc1 with ⟨j', rfl, r'⟩ | ⟨rfl, v, hv, r'⟩
    · exact .inl ⟨j', rfl, .left hc2 r'⟩
    · exact .inr ⟨rfl, v, hv, .left hc2 r'⟩

/-- Two runs from one state are completed to a common state, each by the
steps of the other that it lacks. -/
theorem Run.join {i j i' j' : Nat} {s t u : Net σ τ ρ α β} (h1 : Run i j s t)
    (h2 : Run i' j' s u) : ∃ v, Run (i' - i) (j' - j) t v ∧ Run (i - i') (j - j') u v := by
  induction h1 generalizing i' j' u with
  | refl s => exact ⟨u, by simpa using h2, by simpa using Run.refl u⟩
  | left h _ ih =>
    rcases strip_left h h2 with ⟨k, rfl, r'⟩ | ⟨rfl, w, hw, r'⟩
    · obtain ⟨v, hv1, hv2⟩ := ih r'
      exact ⟨v, by simpa using hv1, by simpa using hv2⟩
    · obtain ⟨v, hv1, hv2⟩ := ih r'
      exact ⟨v, by simpa using hv1, by simpa using Run.left hw hv2⟩
  | right h _ ih =>
    rcases strip_right h h2 with ⟨k, rfl, r'⟩ | ⟨rfl, w, hw, r'⟩
    · obtain ⟨v, hv1, hv2⟩ := ih r'
      exact ⟨v, by simpa using hv1, by simpa using hv2⟩
    · obtain ⟨v, hv1, hv2⟩ := ih r'
      exact ⟨v, by simpa using hv1, by simpa using Run.right hw hv2⟩

/-! ### From one run to all -/

theorem Stuck.run_eq {s t : Net σ τ ρ α β} {i j : Nat} (hs : s.Stuck) (h : Run i j s t) :
    i = 0 ∧ j = 0 ∧ t = s := by
  cases h with
  | refl => exact ⟨rfl, rfl, rfl⟩
  | left h _ => rw [hs.1] at h; cases h
  | right h _ => rw [hs.2] at h; cases h

/-- If one run ends stuck, every run can be continued to the same state and
none has more steps of either party. -/
theorem run_to_stuck {i j i' j' : Nat} {s t u : Net σ τ ρ α β} (hu : Run i' j' s u)
    (hs : u.Stuck) (ht : Run i j s t) : i ≤ i' ∧ j ≤ j' ∧ Run (i' - i) (j' - j) t u := by
  obtain ⟨v, h1, h2⟩ := ht.join hu
  obtain ⟨hi, hj, rfl⟩ := hs.run_eq h2
  exact ⟨by omega, by omega, h1⟩

def NoWait (s : Net σ τ ρ α β) : Prop := ∀ t, Reach s t → ¬ t.MutualWait

/-- No mutual wait after one run: none on any schedule. -/
theorem noWait_of_run {s u : Net σ τ ρ α β} (h : Reach s u) (hu : u.NoWait) : s.NoWait := by
  rintro t ⟨i, j, ht⟩ hw
  obtain ⟨i', j', h⟩ := h
  obtain ⟨-, -, hr⟩ := run_to_stuck ht (stuck_of_mutualWait hw) h
  exact hu t ⟨_, _, hr⟩ hw

/-- A party that has returned stays so. -/
theorem Run.done {i j : Nat} {s t : Net σ τ ρ α β} (h : Run i j s t) :
    (s.l.done = true → t.l.done = true) ∧ (s.r.done = true → t.r.done = true) := by
  induction h with
  | refl => exact ⟨id, id⟩
  | left h _ ih =>
    simp only [stepL, Option.map_eq_some_iff] at h
    obtain ⟨⟨q, o⟩, h, rfl⟩ := h
    refine ⟨fun hd => ?_, fun hd => ih.2 (by simpa using hd)⟩
    rw [Party.step_done hd] at h
    cases h
  | right h _ ih =>
    simp only [stepR, Option.map_eq_some_iff] at h
    obtain ⟨⟨q, o⟩, h, rfl⟩ := h
    refine ⟨fun hd => ih.1 (by simpa using hd), fun hd => ?_⟩
    rw [Party.step_done hd] at h
    cases h

theorem noWait_of_done {s : Net σ τ ρ α β} (h : s.l.done = true ∨ s.r.done = true) : s.NoWait := by
  rintro t ⟨i, j, ht⟩ ⟨hl, hr⟩
  obtain ⟨h1, h2⟩ := ht.done
  rcases h with h | h
  · rw [Party.done_of_waits hl] at h1
    cases h1 h
  · rw [Party.done_of_waits hr] at h2
    cases h2 h

/-- A run of every length: no mutual wait. -/
theorem noWait_of_unbounded {s : Net σ τ ρ α β} (h : ∀ n, ∃ i j u, n ≤ i + j ∧ Run i j s u) :
    s.NoWait := by
  rintro t ⟨i, j, ht⟩ hw
  obtain ⟨i', j', u, hn, hu⟩ := h (i + j + 1)
  obtain ⟨hi, hj, -⟩ := run_to_stuck ht (stuck_of_mutualWait hw) hu
  omega

/-! ### Role agreement -/

/-- Every byte received so far was received in the role it was sent in. -/
def Agrees (s : Net σ τ ρ α β) : Prop :=
  rtags s.l.hist <+: stags s.r.hist ∧ rtags s.r.hist <+: stags s.l.hist

/-- No more bytes have been received or are on their way than were sent. -/
def Fifo (s : Net σ τ ρ α β) : Prop :=
  (rtags s.l.hist).length + s.l.inp.length ≤ (stags s.r.hist).length ∧
    (rtags s.r.hist).length + s.r.inp.length ≤ (stags s.l.hist).length

theorem Run.fifo {i j : Nat} {s t : Net σ τ ρ α β} (h : Run i j s t) (hs : s.Fifo) : t.Fifo := by
  induction h with
  | refl => exact hs
  | left h _ ih =>
    simp only [stepL, Option.map_eq_some_iff] at h
    obtain ⟨⟨q, o⟩, h, rfl⟩ := h
    obtain ⟨evs, h1, h2, h3, h4⟩ := Party.step_hist h
    apply ih
    simp only [Fifo, Party.feed, h1, rtags_append, stags_append, List.length_append] at hs ⊢
    omega
  | right h _ ih =>
    simp only [stepR, Option.map_eq_some_iff] at h
    obtain ⟨⟨q, o⟩, h, rfl⟩ := h
    obtain ⟨evs, h1, h2, h3, h4⟩ := Party.step_hist h
    apply ih
    simp only [Fifo, Party.feed, h1, rtags_append, stags_append, List.length_append] at hs ⊢
    omega

theorem Run.hist_grows {i j : Nat} {s t : Net σ τ ρ α β} (h : Run i j s t) :
    s.l.hist <+: t.l.hist ∧ s.r.hist <+: t.r.hist := by
  induction h with
  | refl => exact ⟨List.prefix_rfl, List.prefix_rfl⟩
  | left h _ ih =>
    simp only [stepL, Option.map_eq_some_iff] at h
    obtain ⟨⟨q, o⟩, h, rfl⟩ := h
    obtain ⟨evs, h1, -⟩ := Party.step_hist h
    exact ⟨(by rw [h1]; exact List.prefix_append _ _ : _ <+: q.hist).trans ih.1, ih.2⟩
  | right h _ ih =>
    simp only [stepR, Option.map_eq_some_iff] at h
    obtain ⟨⟨q, o⟩, h, rfl⟩ := h
    obtain ⟨evs, h1, -⟩ := Party.step_hist h
    exact ⟨ih.1, (by rw [h1]; exact List.prefix_append _ _ : _ <+: q.hist).trans ih.2⟩

theorem rtags_mono {x y : List (Ev ρ)} (h : x <+: y) : rtags x <+: rtags y := by
  obtain ⟨z, rfl⟩ := h; simp

theorem stags_mono {x y : List (Ev ρ)} (h : x <+: y) : stags x <+: stags y := by
  obtain ⟨z, rfl⟩ := h; simp

/-- Agreement at a later state implies it now. -/
theorem Agrees.of_run {i j : Nat} {s t : Net σ τ ρ α β} (h : Run i j s t) (hf : s.Fifo)
    (ht : t.Agrees) : s.Agrees := by
  obtain ⟨h1, h2⟩ := h.hist_grows
  constructor
  · exact List.prefix_of_prefix_length_le ((rtags_mono h1).trans ht.1) (stags_mono h2)
      (by have := hf.1; omega)
  · exact List.prefix_of_prefix_length_le ((rtags_mono h2).trans ht.2) (stags_mono h1)
      (by have := hf.2; omega)

def AlwaysAgrees (s : Net σ τ ρ α β) : Prop := ∀ t, Reach s t → t.Agrees

theorem agrees_of_run {s u : Net σ τ ρ α β} (hf : s.Fifo) (h : Reach s u)
    (hu : u.AlwaysAgrees) : s.AlwaysAgrees := by
  rintro t ⟨i, j, ht⟩
  obtain ⟨i', j', h⟩ := h
  obtain ⟨v, h1, h2⟩ := ht.join h
  exact Agrees.of_run h1 (ht.fifo hf) (hu v ⟨_, _, h2⟩)

/-- Runs in which both parties take any number of steps and that end in
agreement. -/
theorem agrees_of_unbounded {s : Net σ τ ρ α β} (hf : s.Fifo)
    (h : ∀ n, ∃ i j u, n ≤ i ∧ n ≤ j ∧ Run i j s u ∧ u.Agrees) : s.AlwaysAgrees := by
  rintro t ⟨i, j, ht⟩
  obtain ⟨i', j', u, hi, hj, hu, ha⟩ := h (max i j)
  obtain ⟨v, h1, h2⟩ := ht.join hu
  rw [show i - i' = 0 by omega, show j - j' = 0 by omega] at h2
  cases h2
  exact Agrees.of_run h1 (ht.fifo hf) ha

theorem agrees_of_stuck {s : Net σ τ ρ α β} (hs : s.Stuck) (ha : s.Agrees) : s.AlwaysAgrees := by
  rintro t ⟨i, j, ht⟩
  obtain ⟨-, -, rfl⟩ := hs.run_eq ht
  exact ha

/-- A party that has read everything from a peer that has returned reads
nothing more. -/
theorem agrees_of_done_r {s : Net σ τ ρ α β} (hd : s.r.done = true) (hi : s.l.inp = [])
    (ha : s.Agrees) : s.AlwaysAgrees := by
  rintro t ⟨i, j, ht⟩
  induction ht with
  | refl => exact ha
  | left h _ ih =>
    simp only [stepL, Option.map_eq_some_iff] at h
    obtain ⟨⟨q, o⟩, h, rfl⟩ := h
    obtain ⟨evs, h1, -, -, h4⟩ := Party.step_hist h
    rw [hi, List.length_nil] at h4
    have hr : rtags evs = [] := List.length_eq_zero_iff.mp (by omega)
    have hq : q.inp = [] := List.length_eq_zero_iff.mp (by omega)
    refine ih (by simpa using hd) hq ⟨?_, ?_⟩
    · simpa [Party.feed, h1, hr] using ha.1
    · simpa [Party.feed, h1] using ha.2.trans (List.prefix_append _ (stags evs))
  | right h _ _ => simp [stepR, Party.step_done hd] at h

theorem agrees_of_done_l {s : Net σ τ ρ α β} (hd : s.l.done = true) (hi : s.r.inp = [])
    (ha : s.Agrees) : s.AlwaysAgrees := by
  rintro t ⟨i, j, ht⟩
  induction ht with
  | refl => exact ha
  | right h _ ih =>
    simp only [stepR, Option.map_eq_some_iff] at h
    obtain ⟨⟨q, o⟩, h, rfl⟩ := h
    obtain ⟨evs, h1, -, -, h4⟩ := Party.step_hist h
    rw [hi, List.length_nil] at h4
    have hr : rtags evs = [] := List.length_eq_zero_iff.mp (by omega)
    have hq : q.inp = [] := List.length_eq_zero_iff.mp (by omega)
    refine ih (by simpa using hd) hq ⟨?_, ?_⟩
    · simpa [Party.feed, h1] using ha.1.trans (List.prefix_append _ (stags evs))
    · simpa [Party.feed, h1, hr] using ha.2
  | left h _ _ => simp [stepL, Party.step_done hd] at h

/-! ### Executions of a party inside a net -/

theorem Run.ofStepsL {e : Bool} {n : Nat} {p q : Party σ ρ α} {o : Bytes}
    (h : Party.Steps e n p q o) (r : Party τ ρ β) (hr : r.done = e) :
    Run n 0 ⟨p, r⟩ ⟨q, r.feed o⟩ := by
  induction h generalizing r with
  | refl p => simpa using Run.refl _
  | @head n p q p' o o' h _ ih =>
    refine .left (t := ⟨q, r.feed o⟩) (by simp [stepL, hr, h]) ?_
    simpa [Party.feed] using ih (r.feed o) (by simpa using hr)

theorem Run.ofStepsR {e : Bool} {n : Nat} {p q : Party τ ρ β} {o : Bytes}
    (h : Party.Steps e n p q o) (l : Party σ ρ α) (hl : l.done = e) :
    Run 0 n ⟨l, p⟩ ⟨l.feed o, q⟩ := by
  induction h generalizing l with
  | refl p => simpa using Run.refl _
  | @head n p q p' o o' h _ ih =>
    refine .right (t := ⟨l.feed o, q⟩) (by simp [stepR, hl, h]) ?_
    simpa [Party.feed] using ih (l.feed o) (by simpa using hl)

theorem Reach.stepsL {e : Bool} {n : Nat} {p q : Party σ ρ α} {o : Bytes} (h : Party.Steps e n p q o)
    (r : Party τ ρ β) (hr : r.done = e) : Reach ⟨p, r⟩ ⟨q, r.feed o⟩ :=
  ⟨n, 0, Run.ofStepsL h r hr⟩

theorem Reach.stepsR {e : Bool} {n : Nat} {p q : Party τ ρ β} {o : Bytes} (h : Party.Steps e n p q o)
    (l : Party σ ρ α) (hl : l.done = e) : Reach ⟨l, p⟩ ⟨l.feed o, q⟩ :=
  ⟨0, n, Run.ofStepsR h l hl⟩

/-- The left party executes `p`, with `f` behind it, and sends `sent evs`. -/
theorem Reach.runsL {γ : Type} {p : Proc σ ρ γ} (f : γ → Proc σ ρ α) {st st' : σ}
    {inp inp' : Bytes} {e : Bool} {h evs : List (Ev ρ)} {a : γ}
    (hx : Proc.Runs p ⟨st, inp, e, h, []⟩ a ⟨st', inp', e, h ++ evs, []⟩) (r : Party τ ρ β)
    (hr : r.done = e) :
    Reach ⟨⟨p >>= f, st, inp, h⟩, r⟩ ⟨⟨f a, st', inp', h ++ evs⟩, r.feed (sent evs)⟩ := by
  obtain ⟨n, hs⟩ := Party.Steps.ofRuns f hx
  exact Reach.stepsL hs r hr

theorem Reach.runsR {γ : Type} {p : Proc τ ρ γ} (f : γ → Proc τ ρ β) {st st' : τ}
    {inp inp' : Bytes} {e : Bool} {h evs : List (Ev ρ)} {a : γ}
    (hx : Proc.Runs p ⟨st, inp, e, h, []⟩ a ⟨st', inp', e, h ++ evs, []⟩) (l : Party σ ρ α)
    (hl : l.done = e) :
    Reach ⟨l, ⟨p >>= f, st, inp, h⟩⟩ ⟨l.feed (sent evs), ⟨f a, st', inp', h ++ evs⟩⟩ := by
  obtain ⟨n, hs⟩ := Party.Steps.ofRuns f hx
  exact Reach.stepsR hs l hl

/-- The right party runs a loop body. -/
theorem Reach.loopR {γ : Type} {body : γ → Proc τ ρ (γ ⊕ β)} {g : γ} {st st' : τ} {inp inp' : Bytes}
    {e : Bool} {h evs : List (Ev ρ)} {x : γ ⊕ β}
    (hx : Proc.Runs (body g) ⟨st, inp, e, h, []⟩ x ⟨st', inp', e, h ++ evs, []⟩) (l : Party σ ρ α)
    (hl : l.done = e) :
    Reach ⟨l, ⟨Proc.loop body g, st, inp, h⟩⟩
      ⟨l.feed (sent evs), ⟨Proc.again body x, st', inp', h ++ evs⟩⟩ := by
  obtain ⟨n, hs⟩ := Party.Steps.round pure hx
  rw [bind_pure, bind_pure] at hs
  exact Reach.stepsR hs l hl

end Net

end Mefsc
