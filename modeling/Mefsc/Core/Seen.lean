import Mathlib.Data.Set.Insert
import Mefsc.Core.Script
import Mefsc.Core.Stamped

/-!
# What is seen of a process

`Seen f p w`: from the moment `p` is called, the value it has returned, `f` of its
state and what it has offered to the connection. How many operations it takes, and
what it receives, is not seen.

`Blind f k w`: the processes `k m` cannot be told apart, whatever `m` is. What is
`Silent` in front of them does not matter (`blind_silent`), and a value that it
draws from `m` goes into the rest (`blind_draw`), so that a process is taken apart
up to the first thing that is seen.
-/
namespace Mefsc.Proc

variable {σ ρ ω α β γ M : Type}

/-- The value a process has returned. -/
def value : Proc σ ρ α → Option α
  | .ret a => some a
  | _ => none

def Seen (f : σ → ω) (p : Proc σ ρ α) (w : World σ ρ) : Set (Option α × ω × List (ρ × Bytes)) :=
  insert (none, f w.st, []) {x | ∃ n o q v, Goes n p w o q v ∧ x = (q.value, f v.st, o)}

def Blind (f : σ → ω) (k : M → Proc σ ρ α) (w : World σ ρ) : Prop := ∀ m m', Seen f (k m) w = Seen f (k m') w

/-- Neither sends anything nor changes what is seen of the state. -/
def Silent (f : σ → ω) (p : Proc σ ρ α) (w : World σ ρ) : Prop :=
  ∀ n o q v, Goes n p w o q v → o = [] ∧ f v.st = f w.st

variable {f : σ → ω} {p q : Proc σ ρ α} {w v : World σ ρ}

theorem value_bind (hp : p.value = none) (k : α → Proc σ ρ β) : (p.bind k).value = none := by
  cases p with
  | ret a => cases hp
  | _ => rfl

theorem seen_start : (none, f w.st, []) ∈ Seen f p w := .inl rfl

theorem Goes.seen {n : Nat} {o : List (ρ × Bytes)} (h : Goes n p w o q v) : (q.value, f v.st, o) ∈ Seen f p w :=
  .inr ⟨n, o, q, v, h, rfl⟩

theorem seen_now (f : σ → ω) (p : Proc σ ρ α) (w : World σ ρ) : (p.value, f w.st, []) ∈ Seen f p w :=
  (Goes.refl p w).seen

theorem seen_pure (f : σ → ω) (a : α) (w : World σ ρ) :
    Seen f (Pure.pure a : Proc σ ρ α) w = {(none, f w.st, []), (some a, f w.st, [])} := by
  apply Set.Subset.antisymm
  · intro x hx
    rcases hx with rfl | ⟨n, o, q, v, hg, rfl⟩
    · exact .inl rfl
    · obtain ⟨-, rfl, rfl, rfl⟩ := goes_ret hg
      exact .inr rfl
  · intro x hx
    rcases hx with rfl | rfl
    · exact seen_start
    · exact seen_now f (Pure.pure a) w

section
variable {g : σ → β × σ} {k k' : β → Proc σ ρ α} {x : Option α × ω × List (ρ × Bytes)}

theorem seen_act_cases (hx : x ∈ Seen f (modifyGet g >>= k) w) :
    x = (none, f w.st, []) ∨ x ∈ Seen f (k (g w.st).1) { w with st := (g w.st).2 } := by
  rcases hx with rfl | ⟨n, o, q, v, hg, rfl⟩
  · exact .inl rfl
  cases hg with
  | refl => exact .inl rfl
  | head h t =>
    cases h
    exact .inr t.seen

theorem Goes.seen_act {n : Nat} {o : List (ρ × Bytes)} (hg : Goes n (k (g w.st).1) { w with st := (g w.st).2 } o q v) :
    (q.value, f v.st, o) ∈ Seen f (modifyGet g >>= k) w :=
  (Goes.head (p := modifyGet g >>= k) (o := []) rfl hg).seen

theorem seen_acted : ((k (g w.st).1).value, f (g w.st).2, []) ∈ Seen f (modifyGet g >>= k) w :=
  (Goes.refl (k (g w.st).1) { w with st := (g w.st).2 }).seen_act

theorem seen_act (hv : (k (g w.st).1).value = none) : Seen f (modifyGet g >>= k) w =
    insert (none, f w.st, []) (Seen f (k (g w.st).1) { w with st := (g w.st).2 }) := by
  apply Set.Subset.antisymm
  · intro x hx
    exact seen_act_cases hx
  · intro x hx
    rcases hx with rfl | rfl | ⟨n, o, q, v, hg, rfl⟩
    · exact seen_start
    · rw [← hv]
      exact seen_acted
    · exact hg.seen_act

theorem seen_act_congr (h : k (g w.st).1 = k' (g w.st).1) :
    Seen f (modifyGet g >>= k) w = Seen f (modifyGet g >>= k') w := by
  have key {k k' : β → Proc σ ρ α} (h : k (g w.st).1 = k' (g w.st).1) :
      Seen f (modifyGet g >>= k) w ⊆ Seen f (modifyGet g >>= k') w := by
    intro x hx
    rcases hx with rfl | ⟨n, o, q, v, hg, rfl⟩
    · exact seen_start
    cases hg with
    | refl => exact seen_start
    | head hn t =>
      cases hn
      change Goes _ (k (g w.st).1) _ _ _ _ at t
      rw [h] at t
      exact t.seen_act
  exact Set.Subset.antisymm (key h) (key h.symm)

end

/-- An operation that is seen, in front. -/
theorem blind_act {g : σ → β × σ} {k : M → β → Proc σ ρ α} (hv : ∀ m, (k m (g w.st).1).value = none)
    (hf : ∀ m x, x ∈ Seen f (k m (g w.st).1) { w with st := (g w.st).2 } → x.2.1 ≠ f w.st) :
    Blind f (fun m => modifyGet g >>= k m) w ↔ Blind f (fun m => k m (g w.st).1) { w with st := (g w.st).2 } := by
  have key {m m' : M} (h : Seen f (modifyGet g >>= k m) w = Seen f (modifyGet g >>= k m') w) :
      Seen f (k m (g w.st).1) { w with st := (g w.st).2 } ⊆ Seen f (k m' (g w.st).1) { w with st := (g w.st).2 } := by
    intro x hx
    have hin : x ∈ Seen f (modifyGet g >>= k m) w := by
      rw [seen_act (hv m)]
      exact .inr hx
    rcases seen_act_cases (h.subset hin) with rfl | hx'
    · exact absurd rfl (hf m _ hx)
    · exact hx'
  constructor
  · intro h m m'
    exact Set.Subset.antisymm (key (h m m')) (key (h m' m))
  · intro h m m'
    rw [seen_act (hv m), seen_act (hv m'), h m m']

/-! ## Behind what is not seen -/

section
variable {k : α → Proc σ ρ β} {a : α}

theorem seen_silent (hp : Silent f p w) (hr : Runs p w a v) : Seen f (p >>= k) w = Seen f (k a) v := by
  obtain ⟨m, o1, h1⟩ := hr.goes
  obtain ⟨rfl, hv⟩ := hp _ _ _ _ h1
  apply Set.Subset.antisymm
  · intro x hx
    rcases hx with rfl | ⟨n, o, r, u, hg, rfl⟩
    · rw [← hv]
      exact seen_start
    rcases Goes.bind_cases hg with ⟨q, hq, rfl⟩ | ⟨m', k', b, w1, o1, o2, h1', h2, -, rfl⟩
    · obtain ⟨rfl, hu⟩ := hp _ _ _ _ hq
      cases hval : q.value with
      | none =>
        rw [value_bind hval, hu, ← hv]
        exact seen_start
      | some b =>
        cases q with
        | ret b =>
          obtain ⟨rfl, rfl⟩ := hr.unique hq.returns
          exact seen_now f (k a) v
        | _ => cases hval
    · obtain ⟨rfl, -⟩ := hp _ _ _ _ h1'
      obtain ⟨rfl, rfl⟩ := hr.unique h1'.returns
      exact h2.seen
  · intro x hx
    rcases hx with rfl | ⟨n, o, q, u, hg, rfl⟩
    · rw [hv]
      exact seen_start
    · exact ((h1.bind k).trans hg).seen

/-- Nothing is seen behind what does not return. -/
theorem seen_stuck (hp : Silent f p w) (hr : ∀ a v, ¬ Runs p w a v) :
    Seen f (p >>= k) w = {(none, f w.st, [])} := by
  apply Set.Subset.antisymm
  · intro x hx
    rcases hx with rfl | ⟨n, o, r, u, hg, rfl⟩
    · rfl
    rcases Goes.bind_cases hg with ⟨q, hq, rfl⟩ | ⟨m', k', b, w1, o1, o2, h1', h2, -, rfl⟩
    · obtain ⟨rfl, hu⟩ := hp _ _ _ _ hq
      cases q with
      | ret b => exact absurd hq.returns (hr b u)
      | _ => rw [hu]; rfl
    · exact absurd h1'.returns (hr b w1)
  · intro x hx
    rw [hx]
    exact seen_start

end

theorem blind_pure {g : M → α} : Blind f (fun m => (Pure.pure (g m) : Proc σ ρ α)) w ↔ ∀ m m', g m = g m' := by
  unfold Blind
  simp only [seen_pure]
  refine forall_congr' fun m => forall_congr' fun m' => ⟨fun h => ?_, fun h => by rw [h]⟩
  have hm : (some (g m), f w.st, []) ∈ ({(none, f w.st, []), (some (g m'), f w.st, [])} :
      Set (Option α × ω × List (ρ × Bytes))) := h ▸ .inr rfl
  simpa using hm

theorem blind_silent {k : M → α → Proc σ ρ β} (hp : Silent f p w) :
    Blind f (fun m => p >>= k m) w ↔ ∀ a v, Runs p w a v → Blind f (fun m => k m a) v := by
  constructor
  · intro h a v hr m m'
    have hm := h m m'
    rwa [seen_silent hp hr, seen_silent hp hr] at hm
  · intro h m m'
    by_cases hr : ∃ a v, Runs p w a v
    · obtain ⟨a, v, hr⟩ := hr
      rw [seen_silent hp hr, seen_silent hp hr]
      exact h a v hr m m'
    · have hr : ∀ a v, ¬ Runs p w a v := fun a v h => hr ⟨a, v, h⟩
      rw [seen_stuck hp hr, seen_stuck hp hr]

theorem blind_draw {p : M → Proc σ ρ α} {k : M → α → Proc σ ρ β} {a : M → α} (hp : ∀ m, Silent f (p m) w)
    (hr : ∀ m, Runs (p m) w (a m) v) : Blind f (fun m => p m >>= k m) w ↔ Blind f (fun m => k m (a m)) v := by
  unfold Blind
  refine forall_congr' fun m => forall_congr' fun m' => ?_
  rw [seen_silent (hp m) (hr m), seen_silent (hp m') (hr m')]

/-- What is seen is later, in its state, than the start. -/
theorem Keeps.seen {R : σ → σ → Prop} (hp : Keeps R p) (hrefl : ∀ s, R s s) {x : Option α × ω × List (ρ × Bytes)}
    (hx : x ∈ Seen f p w) : ∃ s, R w.st s ∧ x.2.1 = f s := by
  rcases hx with rfl | ⟨n, o, q, v, hg, rfl⟩
  · exact ⟨w.st, hrefl _, rfl⟩
  · exact ⟨v.st, hp n w o q v hg, rfl⟩

/-- Of what two moments have offered one is the front of the other. -/
theorem seen_offers {x y : Option α × ω × List (ρ × Bytes)} (hx : x ∈ Seen f p w) (hy : y ∈ Seen f p w) :
    x.2.2 <+: y.2.2 ∨ y.2.2 <+: x.2.2 := by
  have key {n m : Nat} {q q' : Proc σ ρ α} {v v' : World σ ρ} {o o' : List (ρ × Bytes)}
      (h1 : Goes n p w o q v) (h2 : Goes m p w o' q' v') (hnm : n ≤ m) : o <+: o' := by
    obtain ⟨o2, h⟩ := h1.later h2 hnm
    have h12 := h1.trans h
    rw [Nat.add_sub_cancel' hnm] at h12
    have e1 := h12.stamped_snd fun _ => ()
    rw [h2.stamped_snd fun _ => ()] at e1
    rw [e1]
    exact List.prefix_append o o2
  rcases hx with rfl | ⟨n, o, q, v, h1, rfl⟩
  · exact .inl List.nil_prefix
  rcases hy with rfl | ⟨m, o', q', v', h2, rfl⟩
  · exact .inr List.nil_prefix
  rcases Nat.le_total n m with h | h
  · exact .inl (key h1 h2 h)
  · exact .inr (key h2 h1 h)

/-- A process does not see the history. -/
theorem next_hist {p q : Proc σ ρ α} {s : σ} {inp : Bytes} {e : Bool} {h : List (Ev ρ)} {os : List (Option Nat)}
    {v : World σ ρ} {o : List (ρ × Bytes)} (hn : p.next ⟨s, inp, e, h, os⟩ = some (q, v, o)) (h' : List (Ev ρ)) :
    ∃ h2, p.next ⟨s, inp, e, h', os⟩ = some (q, ⟨v.st, v.inp, v.eof, h2, v.outcomes⟩, o) := by
  cases p with
  | ret a => simp [next] at hn
  | recv r n k =>
    rcases recv_any s inp e r n with ⟨x, inp1, hx⟩ | hx
    · simp only [next, hx, Option.map_some, Option.some.injEq, Prod.mk.injEq] at hn ⊢
      obtain ⟨rfl, rfl, rfl⟩ := hn
      exact ⟨_, rfl, rfl, rfl⟩
    · simp [next, hx] at hn
  | send r b k =>
    simp only [next, Option.some.injEq, Prod.mk.injEq] at hn ⊢
    obtain ⟨rfl, rfl, rfl⟩ := hn
    cases os with
    | nil => exact ⟨_, rfl, rfl, rfl⟩
    | cons m os => cases m <;> exact ⟨_, rfl, rfl, rfl⟩
  | act g k =>
    simp only [next, Option.some.injEq, Prod.mk.injEq] at hn ⊢
    obtain ⟨rfl, rfl, rfl⟩ := hn
    exact ⟨h', rfl, rfl, rfl⟩
  | iter body g k =>
    simp only [next, Option.some.injEq, Prod.mk.injEq] at hn ⊢
    obtain ⟨rfl, rfl, rfl⟩ := hn
    exact ⟨h', rfl, rfl, rfl⟩

theorem Goes.hist {n : Nat} {o : List (ρ × Bytes)} (hg : Goes n p w o q v) (h' : List (Ev ρ)) :
    ∃ v', Goes n p { w with hist := h' } o q v' ∧ v'.st = v.st := by
  induction hg generalizing h' with
  | refl p w => exact ⟨_, .refl _ _, rfl⟩
  | head hn _ ih =>
    obtain ⟨h2, hn2⟩ := next_hist hn h'
    obtain ⟨v', hg', hst⟩ := ih h2
    exact ⟨v', .head hn2 hg', hst⟩

theorem seen_hist (f : σ → ω) (p : Proc σ ρ α) (w : World σ ρ) (h' : List (Ev ρ)) :
    Seen f p { w with hist := h' } = Seen f p w := by
  have key (w : World σ ρ) (h' : List (Ev ρ)) : Seen f p w ⊆ Seen f p { w with hist := h' } := by
    intro x hx
    rcases hx with rfl | ⟨n, o, q, v, hg, rfl⟩
    · exact seen_start
    · obtain ⟨v', hg', hst⟩ := hg.hist h'
      rw [← hst]
      exact hg'.seen
  exact Set.Subset.antisymm (key { w with hist := h' } w.hist) (key w h')

/-! ## Silent processes -/

/-- What `Silent` says, as a relation along a run. -/
def SilentRel (f : σ → ω) (s : σ) (l : List (Unit × ρ × Bytes)) (t : σ) : Prop := l = [] ∧ f t = f s

theorem silent_act {g : σ → β × σ} (hg : f (g w.st).2 = f w.st) : Silent f (modifyGet g : Proc σ ρ β) w := by
  intro n o q v h
  cases h with
  | refl => exact ⟨rfl, rfl⟩
  | head hn t =>
    cases hn
    obtain ⟨-, rfl, -, rfl⟩ := goes_ret t
    exact ⟨rfl, hg⟩

theorem silent_law (f : σ → ω) : Law (SilentRel (ρ := ρ) f) (SilentRel f) where
  refl _ := ⟨rfl, rfl⟩
  trans h h' := ⟨by rw [h.1, h'.1]; rfl, h'.2.trans h.2⟩
  now h := h
  moment h h' := ⟨by rw [h.1, h'.1]; rfl, h'.2.trans h.2⟩

theorem Sums.silent {p : Proc σ ρ α} (h : Sums (fun _ => ()) (SilentRel f) (SilentRel f) p)
    (w : World σ ρ) : Silent f p w := by
  intro n o q v hg
  obtain ⟨⟨hl, hf⟩, -⟩ := h n w o q v hg
  refine ⟨?_, hf⟩
  rw [← hg.stamped_snd fun _ => (), hl]
  rfl

end Mefsc.Proc
