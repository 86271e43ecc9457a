import Mefsc.L2Machine.TwoSlotBuffer

/-!
# A producer with a given output

The pipeline of `TwoSlotBuffer` with a producer that has a list of chunks to
publish, each the length it passes to `publish` and the bytes it has put at the
front of its slot by then. It calls `finish` behind the last of them, with or
without a slot in hand. `fed_file`: if the lengths are those of the bytes, the
file holds the chunks once the writer is joined, whatever the interleaving.
-/
namespace Mefsc.L2

structure Fed where
  pipe : Pipe
  todo : List (Nat × Bytes)

namespace Fed

def step (cap : Nat) (s : Fed) : PipeAct → Option Fed
  | .publish len =>
    match s.todo with
    | [] => none
    | (n, m) :: rest =>
      if len = n ∧ (s.pipe.buf.producer_slot_.map fun i => (s.pipe.buf.slots_ i).take m.length) = some m then
        (s.pipe.step cap (.publish len)).map fun p => ⟨p, rest⟩
      else none
  | .finish => if s.todo = [] then (s.pipe.step cap .finish).map fun p => ⟨p, []⟩ else none
  | a => (s.pipe.step cap a).map fun p => ⟨p, s.todo⟩

end Fed

/-- The pipeline over a file that holds `base`, with `todo` to publish. -/
def fedLTS (cap : Nat) (base : Bytes) (todo : List (Nat × Bytes)) : LTS Fed PipeAct where
  init s := s = ⟨⟨.new cap, .run, .run, base, []⟩, todo⟩
  step s a s' := s.step cap a = some s'

/-- A producer past `finish`. -/
def Pipe.Past (s : Pipe) : Prop := s.p = .finished ∨ s.p = .joined

/-- Only `publish` publishes, and only `finish` ends the producer. -/
theorem Pipe.step_quiet {cap : Nat} {s s' : Pipe} {a : PipeAct} (hp : ∀ len, a ≠ .publish len)
    (h : s.step cap a = some s') : s'.published = s.published ∧ (s'.Past → a = .finish ∨ s.Past) := by
  unfold Past
  cases a with
  | callNext =>
    obtain ⟨-, rfl⟩ : s.p = .run ∧ _ = s' := by simpa [step] using h
    exact ⟨rfl, by simp⟩
  | tryNext =>
    simp only [step] at h
    split at h
    · split at h
      · obtain rfl := Option.some.inj h
        exact ⟨rfl, by simp⟩
      · obtain rfl := Option.some.inj h
        exact ⟨rfl, by simp⟩
    · cases h
  | store off x =>
    obtain ⟨⟨hs, -⟩, rfl⟩ : (s.p = .holding ∧ off < cap) ∧ _ = s' := by simpa [step] using h
    exact ⟨rfl, .inr⟩
  | publish len => exact absurd rfl (hp len)
  | finish =>
    obtain ⟨-, rfl⟩ : (s.p = .run ∨ s.p = .holding) ∧ _ = s' := by simpa [step] using h
    exact ⟨rfl, fun _ => .inl rfl⟩
  | join =>
    obtain ⟨⟨hs, -⟩, rfl⟩ : (s.p = .finished ∧ s.c = .exited) ∧ _ = s' := by simpa [step] using h
    exact ⟨rfl, fun _ => .inr (.inl hs)⟩
  | callWait =>
    obtain ⟨-, rfl⟩ : s.c = .run ∧ _ = s' := by simpa [step] using h
    exact ⟨rfl, .inr⟩
  | tryWait =>
    simp only [step] at h
    split at h
    · split at h
      all_goals
        obtain rfl := Option.some.inj h
        exact ⟨rfl, .inr⟩
    · cases h
  | write =>
    simp only [step] at h
    split at h
    · split at h
      · obtain rfl := Option.some.inj h
        exact ⟨rfl, .inr⟩
      · cases h
    · cases h
  | doneWith =>
    simp only [step] at h
    split at h
    · split at h
      · obtain rfl := Option.some.inj h
        refine ⟨rfl, fun hw => .inr ?_⟩
        rwa [Pipe.wakeP_eq_iff (by simp) (by simp), Pipe.wakeP_eq_iff (by simp) (by simp)] at hw
      · cases h
    · cases h

/-- What is published and what is left are the list; nothing is left behind
`finish`. -/
structure Fed.Inv (cap : Nat) (base : Bytes) (all : List (Nat × Bytes)) (s : Fed) : Prop where
  pipe : (pipeLTS cap base).Reachable s.pipe
  data : s.pipe.published ++ s.todo.map Prod.snd = all.map Prod.snd
  sizes : ∀ x ∈ s.todo, x.1 = x.2.length
  past : s.pipe.Past → s.todo = []

section
variable {cap : Nat} {base : Bytes} {all : List (Nat × Bytes)}

theorem fed_invariant (hall : ∀ x ∈ all, x.1 = x.2.length) :
    (fedLTS cap base all).Invariant (Fed.Inv cap base all) where
  init := by
    rintro s rfl
    exact ⟨.init rfl, rfl, hall, by simp [Pipe.Past]⟩
  step := by
    rintro ⟨pipe, todo⟩ a s' hi h
    simp only [fedLTS] at h
    cases a with
    | publish len =>
      match todo, hi, h with
      | (n, m) :: rest, hi, h =>
        simp only [Fed.step] at h
        split at h
        · rename_i hslot
          obtain ⟨rfl, hm⟩ := hslot
          obtain ⟨p, hp, rfl⟩ := Option.map_eq_some_iff.mp h
          have hn : len = m.length := hi.sizes (len, m) List.mem_cons_self
          have hstep := hp
          obtain ⟨-, rfl⟩ : (pipe.p = .holding ∧ len ≤ cap) ∧ _ = p := by simpa [Pipe.step] using hp
          refine ⟨.step hi.pipe hstep, ?_, fun x hx => hi.sizes x (List.mem_cons_of_mem _ hx), by simp [Pipe.Past]⟩
          have hd := hi.data
          simp only [hn, hm, Option.toList_some, List.map_cons] at hd ⊢
          simpa using hd
        · cases h
    | finish =>
      simp only [Fed.step] at h
      split at h
      · rename_i hnil
        subst hnil
        obtain ⟨p, hp, rfl⟩ := Option.map_eq_some_iff.mp h
        have hq := Pipe.step_quiet (by simp) hp
        have hd := hi.data
        exact ⟨.step hi.pipe hp, by simpa [hq.1] using hd, by simp, fun _ => rfl⟩
      · cases h
    | _ =>
      obtain ⟨p, hp, rfl⟩ := Option.map_eq_some_iff.mp h
      have hq := Pipe.step_quiet (by simp) hp
      refine ⟨.step hi.pipe hp, by simpa [hq.1] using hi.data, hi.sizes, fun hpast => hi.past ?_⟩
      rcases hq.2 hpast with hf | hf
      · cases hf
      · exact hf

theorem fed_file (hall : ∀ x ∈ all, x.1 = x.2.length) {s : Fed} (h : (fedLTS cap base all).Reachable s)
    (hj : s.pipe.p = .joined) : s.pipe.file = base ++ writerOutput (all.map Prod.snd) := by
  have hi := (fed_invariant hall).reachable h
  have hd := hi.data
  rw [hi.past (.inr hj), List.map_nil, List.append_nil] at hd
  rw [← hd]
  exact joined_file hi.pipe hj

end

end Mefsc.L2
