import Mefsc.Core.Trace

/-!
# A process on a part of the state

`zoom`: a process with state `σ` run as a step of one with state `τ`, of which
`σ` is a part; its transfers get the labels of the larger process. It does there
what it does on its own (`runs_zoom`).
-/
namespace Mefsc

variable {σ τ ρ ρ' α β γ : Type}

/-- `σ` as a part of `τ`. -/
structure Part (σ τ : Type) where
  get : τ → σ
  set : τ → σ → τ
  get_set : ∀ t s, get (set t s) = s
  set_set : ∀ t s s', set (set t s) s' = set t s'
  set_get : ∀ t, set t (get t) = t

def Ev.relabel (l : ρ → ρ') : Ev ρ → Ev ρ'
  | .rcv r b => .rcv (l r) b
  | .snd r b => .snd (l r) b

/-- A world of the part, with what surrounds it. -/
def World.within (L : Part σ τ) (l : ρ → ρ') (t : τ) (h : List (Ev ρ')) (w : World σ ρ) : World τ ρ' :=
  ⟨L.set t w.st, w.inp, w.eof, h ++ w.hist.map (Ev.relabel l), w.outcomes⟩

/-- What the part starts from. -/
def World.part (L : Part σ τ) (ρ : Type) (w : World τ ρ') : World σ ρ :=
  ⟨L.get w.st, w.inp, w.eof, [], w.outcomes⟩

theorem World.part_within (L : Part σ τ) (l : ρ → ρ') (w : World τ ρ') :
    (w.part L ρ).within L l w.st w.hist = w := by
  simp [World.part, World.within, L.set_get]

namespace Proc

def zoom (L : Part σ τ) (l : ρ → ρ') : {α : Type} → Proc σ ρ α → Proc τ ρ' α
  | _, .ret a => .ret a
  | _, .recv r n k => .recv (l r) n fun o => zoom L l (k o)
  | _, .send r b k => .send (l r) b fun o => zoom L l (k o)
  | _, .act f k => .act (fun t => ((f (L.get t)).1, L.set t (f (L.get t)).2)) fun x => zoom L l (k x)
  | _, .iter body g k => .iter (fun g => zoom L l (body g)) g fun x => zoom L l (k x)

theorem iterN_map {W W' : Type} {b1 : γ → W → Option ((γ ⊕ β) × W)} {b2 : γ → W' → Option ((γ ⊕ β) × W')}
    {f : W → W'} (hb : ∀ g w, b2 g (f w) = (b1 g w).map fun x => (x.1, f x.2)) (n : Nat) (g : γ) (w : W) :
    iterN b2 n g (f w) = (iterN b1 n g w).map fun x => (x.1, f x.2) := by
  induction n generalizing g w with
  | zero => rfl
  | succ n ih =>
    rw [iterN, iterN, hb]
    cases b1 g w with
    | none => rfl
    | some x =>
      obtain ⟨x, w1⟩ := x
      cases x with
      | inl g' => exact ih g' w1
      | inr b => rfl

variable (L : Part σ τ) (l : ρ → ρ') (t : τ) (h : List (Ev ρ'))

theorem send_within (w : World σ ρ) (r : ρ) (b : Bytes) :
    (w.within L l t h).send (l r) b = ((w.send r b).1, (w.send r b).2.within L l t h) := by
  unfold World.send
  cases ho : w.outcomes with
  | nil => simp [World.within, ho, Ev.relabel]
  | cons o os => cases o <;> simp [World.within, ho, Ev.relabel]

theorem exec_zoom (n : Nat) (p : Proc σ ρ α) (w : World σ ρ) :
    exec n (zoom L l p) (w.within L l t h) =
      (exec n p w).map fun x => (x.1, x.2.within L l t h) := by
  induction p generalizing w with
  | ret a => rfl
  | recv r m k ih =>
    by_cases hm : m ≤ w.inp.length
    · have h1 : (w.within L l t h).recv (l r) m = some (some (w.inp.take m),
          World.within L l t h { w with inp := w.inp.drop m, hist := w.hist ++ [.rcv r (some (w.inp.take m))] }) := by
        simp [World.recv, World.within, hm, Ev.relabel]
      have h2 : w.recv r m = some (some (w.inp.take m),
          { w with inp := w.inp.drop m, hist := w.hist ++ [.rcv r (some (w.inp.take m))] }) := by
        simp [World.recv, hm]
      simp only [zoom, exec, h1, h2, Option.bind_some]
      exact ih _ _
    · by_cases he : w.eof = true
      · have h1 : (w.within L l t h).recv (l r) m = some (none,
            World.within L l t h { w with inp := [], hist := w.hist ++ [.rcv r none] }) := by
          simp [World.recv, World.within, hm, he, Ev.relabel]
        have h2 : w.recv r m = some (none, { w with inp := [], hist := w.hist ++ [.rcv r none] }) := by
          simp [World.recv, hm, he]
        simp only [zoom, exec, h1, h2, Option.bind_some]
        exact ih _ _
      · simp [zoom, exec, World.recv, World.within, hm, he]
  | send r b k ih =>
    simp only [zoom, exec, send_within]
    exact ih _ _
  | act f k ih =>
    simp only [zoom, exec, World.within, L.get_set, L.set_set]
    exact ih _ { w with st := (f w.st).2 }
  | iter body g k ihb ih =>
    simp only [zoom, exec]
    rw [iterN_map (f := World.within L l t h) (fun g w => ihb g w)]
    cases iterN (fun g w => exec n (body g) w) n g w with
    | none => rfl
    | some x => exact ih x.1 x.2

variable {L l t h}

theorem runs_zoom {p : Proc σ ρ α} {w : World τ ρ'} {a : α} {w' : World τ ρ'} :
    Runs (zoom L l p) w a w' ↔
      ∃ v, Runs p (w.part L ρ) a v ∧ w' = v.within L l w.st w.hist := by
  have key := fun n => exec_zoom L l w.st w.hist n p (w.part L ρ)
  simp only [World.part_within] at key
  constructor
  · rintro ⟨n, hn⟩
    rw [key n, Option.map_eq_some_iff] at hn
    obtain ⟨⟨a', v⟩, hv, he⟩ := hn
    simp only [Prod.mk.injEq] at he
    exact ⟨v, ⟨n, he.1 ▸ hv⟩, he.2.symm⟩
  · rintro ⟨v, ⟨n, hv⟩, rfl⟩
    exact ⟨n, by rw [key n, hv]; rfl⟩

/-- From the part's own world. -/
theorem runs_zoom_within {p : Proc σ ρ α} {w : World σ ρ} {a : α} {w' : World τ ρ'} :
    Runs (zoom L l p) (w.within L l t h) a w' ↔ ∃ v, Runs p w a v ∧ w' = v.within L l t h := by
  unfold Runs
  simp only [exec_zoom, Option.map_eq_some_iff, Prod.mk.injEq]
  constructor
  · rintro ⟨n, ⟨b, v⟩, hv, rfl, rfl⟩
    exact ⟨v, ⟨n, hv⟩, rfl⟩
  · rintro ⟨v, ⟨n, hv⟩, rfl⟩
    exact ⟨n, (a, v), hv, rfl, rfl⟩

theorem halts_zoom {p : Proc σ ρ α} {w : World τ ρ'} : Halts (zoom L l p) w ↔ Halts p (w.part L ρ) := by
  constructor
  · rintro ⟨a, w', hx⟩
    obtain ⟨v, hv, -⟩ := runs_zoom.mp hx
    exact ⟨a, v, hv⟩
  · rintro ⟨a, v, hv⟩
    exact ⟨a, _, runs_zoom.mpr ⟨v, hv, rfl⟩⟩

/-! ## Moments -/

theorem zoom_bind (p : Proc σ ρ α) (f : α → Proc σ ρ β) :
    zoom L l (p.bind f) = (zoom L l p).bind fun a => zoom L l (f a) := by
  induction p with
  | ret a => rfl
  | recv r n k ih => simp [zoom, bind, ih]
  | send r b k ih => simp [zoom, bind, ih]
  | act g k ih => simp [zoom, bind, ih]
  | iter body g k _ ih => simp [zoom, bind, ih]

/-- What the part offers, with the labels of the larger process. -/
def relabelled (l : ρ → ρ') (o : List (ρ × Bytes)) : List (ρ' × Bytes) := o.map fun x => (l x.1, x.2)

variable (L l t h) in
theorem next_zoom (p : Proc σ ρ α) (w : World σ ρ) :
    (zoom L l p).next (w.within L l t h) =
      (p.next w).map fun x => (zoom L l x.1, x.2.1.within L l t h, relabelled l x.2.2) := by
  cases p with
  | ret a => rfl
  | recv r m k =>
    by_cases hm : m ≤ w.inp.length
    · simp [zoom, next, World.recv, World.within, hm, Ev.relabel, relabelled]
    · by_cases he : w.eof = true
      · simp [zoom, next, World.recv, World.within, hm, he, Ev.relabel, relabelled]
      · simp [zoom, next, World.recv, World.within, hm, he]
  | send r b k =>
    simp [zoom, next, send_within, relabelled]
  | act f k => simp [zoom, next, World.within, L.get_set, L.set_set, relabelled]
  | iter body g k =>
    simp only [zoom, next, Option.map_some, zoom_bind, relabelled, List.map_nil, Option.some.injEq, Prod.mk.injEq,
      and_true]
    congr 1
    funext x
    cases x <;> rfl

theorem goes_zoom {n : Nat} {p : Proc σ ρ α} {w : World σ ρ} {o : List (ρ' × Bytes)} {q : Proc τ ρ' α}
    {v : World τ ρ'} (hg : Goes n (zoom L l p) (w.within L l t h) o q v) :
    ∃ o0 q0 v0, Goes n p w o0 q0 v0 ∧ o = relabelled l o0 ∧ q = zoom L l q0 ∧ v = v0.within L l t h := by
  induction n generalizing p w o with
  | zero =>
    cases hg
    exact ⟨[], p, w, .refl _ _, rfl, rfl, rfl⟩
  | succ n ih =>
    cases hg with
    | head hn t =>
      rw [next_zoom, Option.map_eq_some_iff] at hn
      obtain ⟨⟨q1, w1, o1⟩, hp, heq⟩ := hn
      simp only [Prod.mk.injEq] at heq
      obtain ⟨rfl, rfl, rfl⟩ := heq
      obtain ⟨o0, q0, v0, h0, rfl, rfl, rfl⟩ := ih t
      exact ⟨o1 ++ o0, q0, v0, .head hp h0, by simp [relabelled], rfl, rfl⟩

theorem Straight.zoom {p : Proc σ ρ α} (hp : Straight p) : Straight (zoom L l p) := by
  induction p with
  | ret a => trivial
  | recv r n k ih => exact fun o => ih o (hp o)
  | send r b k ih => exact fun o => ih o (hp o)
  | act f k ih => exact fun x => ih x (hp x)
  | iter body g k _ _ => exact hp.elim

end Proc

end Mefsc
