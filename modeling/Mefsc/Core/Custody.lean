import Mathlib.Data.List.Nodup
import Mathlib.Logic.Function.Basic

/-!
# Custody of reused descriptors

Descriptors are numbers that a kernel hands out again once they are closed. A
`Handle` is a descriptor together with a number of its own that no other
handle has; the code sees the descriptor only. Threads (`κ`) accept a
descriptor, enter it in a registry, pass it on through a queue, and in the end
erase its entry and close it, in this order, or lose it while it is still
entered.

`place` says where every handle is; it is a function, so a handle is in one
place. `Inv` ties the rest of the state to it, and `inv_step` is the one proof
that custody is kept: whoever still has a handle finds the descriptor open and
belonging to that handle, and the entry of a handle that is entered is its own.
-/
namespace Mefsc

structure Handle where
  fd : Nat
  id : Nat
  deriving DecidableEq, Repr

/-- What a thread has in its hands: a handle it accepted, one that is
entered, one whose entry it erased, one it closed. -/
inductive Grip where
  | idle
  | fresh (c : Handle)
  | entered (c : Handle)
  | erased (c : Handle)
  | closed (c : Handle)
  deriving DecidableEq, Repr

namespace Grip

def item : Grip → Option Handle
  | .idle => none
  | .fresh c | .entered c | .erased c | .closed c => some c

/-- The handle, while its descriptor is open. -/
def owned : Grip → Option Handle
  | .idle | .closed _ => none
  | .fresh c | .entered c | .erased c => some c

theorem item_of_owned {g : Grip} {c : Handle} (h : g.owned = some c) : g.item = some c := by
  cases g <;> simp_all [owned, item]

end Grip

/-- `lost`: dropped while entered; `released`: erased and closed. -/
inductive Place (κ ε : Type) where
  | unborn
  | held (h : κ)
  | queued
  | discarded
  | lost (c : Handle) (x : ε)
  | released (x : ε)

structure Custody (κ ε : Type) where
  opened : Nat → Option Nat
  entries : Nat → Option Nat
  queue : List Handle
  next : Nat
  grip : κ → Grip
  place : Nat → Place κ ε

namespace Custody

variable {κ ε : Type}

/-- What thread `h` puts in place of its grip, and where the handle `id` then
is. -/
def move [DecidableEq κ] (s : Custody κ ε) (h : κ) (g : Grip) (id : Nat) (p : Place κ ε) : Custody κ ε :=
  { s with grip := Function.update s.grip h g, place := Function.update s.place id p }

inductive Step [DecidableEq κ] (s : Custody κ ε) : Custody κ ε → Prop where
  | accept (h : κ) (fd : Nat) (hg : s.grip h = .idle) (ho : s.opened fd = none) :
      Step s { s.move h (.fresh ⟨fd, s.next⟩) s.next (.held h) with
        opened := Function.update s.opened fd (some s.next), next := s.next + 1 }
  | discard (h : κ) (c : Handle) (hg : s.grip h = .fresh c) :
      Step s { s.move h .idle c.id .discarded with opened := Function.update s.opened c.fd none }
  | enter (h : κ) (c : Handle) (hg : s.grip h = .fresh c) :
      Step s { s.move h (.entered c) c.id (.held h) with
        entries := Function.update s.entries c.fd (some c.id) }
  | push (h : κ) (c : Handle) (hg : s.grip h = .entered c) :
      Step s { s.move h .idle c.id .queued with queue := s.queue ++ [c] }
  | pop (h : κ) (c : Handle) (cs : List Handle) (hg : s.grip h = .idle) (hq : s.queue = c :: cs) :
      Step s { s.move h (.entered c) c.id (.held h) with queue := cs }
  | lose (h : κ) (c : Handle) (x : ε) (hg : s.grip h = .entered c) :
      Step s (s.move h .idle c.id (.lost c x))
  | erase (h : κ) (c : Handle) (hg : s.grip h = .entered c) :
      Step s { s.move h (.erased c) c.id (.held h) with
        entries := Function.update s.entries c.fd none }
  | close (h : κ) (c : Handle) (hg : s.grip h = .erased c) :
      Step s { s.move h (.closed c) c.id (.held h) with
        opened := Function.update s.opened c.fd none }
  | release (h : κ) (c : Handle) (x : ε) (hg : s.grip h = .closed c) :
      Step s (s.move h .idle c.id (.released x))

/-- Where the owner of an open descriptor is. -/
def Origin (s : Custody κ ε) (fd id : Nat) : Place κ ε → Prop
  | .held h => (s.grip h).owned = some ⟨fd, id⟩
  | .queued => ⟨fd, id⟩ ∈ s.queue
  | .lost c _ => c = ⟨fd, id⟩
  | .unborn | .discarded | .released _ => False

/-- Grips and queue agree with `place`. -/
structure Placed (s : Custody κ ε) : Prop where
  held : ∀ h c, (s.grip h).item = some c → s.place c.id = .held h
  queued : ∀ c ∈ s.queue, s.place c.id = .queued
  nodup : (s.queue.map Handle.id).Nodup
  unborn : ∀ id, s.next ≤ id → s.place id = .unborn
  holder : ∀ id h, s.place id = .held h → ∃ c, (s.grip h).item = some c ∧ c.id = id
  member : ∀ id, s.place id = .queued → ∃ c ∈ s.queue, c.id = id

structure Inv (s : Custody κ ε) : Prop extends Placed s where
  owned : ∀ h c, (s.grip h).owned = some c → s.opened c.fd = some c.id
  waiting : ∀ c ∈ s.queue, s.opened c.fd = some c.id ∧ s.entries c.fd = some c.id
  entered : ∀ h c, s.grip h = .entered c → s.entries c.fd = some c.id
  absent : ∀ h c, s.grip h = .fresh c ∨ s.grip h = .erased c → s.entries c.fd = none
  keys : ∀ fd id, s.entries fd = some id → s.opened fd = some id
  lost : ∀ id c x, s.place id = .lost c x →
    c.id = id ∧ s.opened c.fd = some c.id ∧ s.entries c.fd = some c.id
  origin : ∀ fd id, s.opened fd = some id → s.Origin fd id (s.place id)

/-! ## Handles in different hands -/

section
variable {s : Custody κ ε} {h h' : κ} {c d : Handle}

theorem Placed.item_ne (P : s.Placed) (hc : (s.grip h).item = some c)
    (hd : (s.grip h').item = some d) (hne : h' ≠ h) : d.id ≠ c.id := by
  intro he
  have h1 := P.held h c hc
  have h2 := P.held h' d hd
  rw [he, h1] at h2
  cases h2
  exact hne rfl

theorem Placed.queue_ne (P : s.Placed) (hc : (s.grip h).item = some c) (hd : d ∈ s.queue) :
    d.id ≠ c.id := by
  intro he
  have h1 := P.held h c hc
  have h2 := P.queued d hd
  rw [he, h1] at h2
  cases h2

theorem Placed.item_lt (P : s.Placed) (hc : (s.grip h).item = some c) : c.id < s.next := by
  by_contra hlt
  have h1 := P.held h c hc
  rw [P.unborn c.id (by omega)] at h1
  cases h1

theorem Placed.queue_lt (P : s.Placed) (hc : c ∈ s.queue) : c.id < s.next := by
  by_contra hlt
  have h1 := P.queued c hc
  rw [P.unborn c.id (by omega)] at h1
  cases h1

/-- Two owners of open descriptors have different ones. -/
theorem Inv.fd_ne (I : s.Inv) (hc : (s.grip h).owned = some c) (hd : (s.grip h').owned = some d)
    (hne : h' ≠ h) : d.fd ≠ c.fd := by
  intro he
  have h1 := I.owned h c hc
  have h2 := I.owned h' d hd
  rw [he, h1] at h2
  have h3 := I.item_ne (Grip.item_of_owned hc) (Grip.item_of_owned hd) hne
  exact h3 (by simpa using h2.symm)

theorem Inv.queue_fd_ne (I : s.Inv) (hc : (s.grip h).owned = some c) (hd : d ∈ s.queue) :
    d.fd ≠ c.fd := by
  intro he
  have h1 := I.owned h c hc
  have h2 := (I.waiting d hd).1
  rw [he, h1] at h2
  have h3 := I.queue_ne (Grip.item_of_owned hc) hd
  exact h3 (by simpa using h2.symm)

theorem Inv.lost_fd_ne (I : s.Inv) (hc : (s.grip h).owned = some c) {id : Nat} {x : ε}
    (hd : s.place id = .lost d x) : d.fd ≠ c.fd := by
  intro he
  obtain ⟨rfl, h2, -⟩ := I.lost id d x hd
  have h1 := I.owned h c hc
  rw [he, h1] at h2
  have h3 := I.held h c (Grip.item_of_owned hc)
  have h4 : c.id = d.id := by simpa using h2
  rw [h4, hd] at h3
  cases h3

end

/-- The owner is where it was, in another state. -/
theorem Origin.carry {s t : Custody κ ε} {fd id : Nat} {p : Place κ ε} (ho : s.Origin fd id p)
    (hg : ∀ h, (s.grip h).owned = some ⟨fd, id⟩ → (t.grip h).owned = some ⟨fd, id⟩)
    (hq : ⟨fd, id⟩ ∈ s.queue → ⟨fd, id⟩ ∈ t.queue) : t.Origin fd id p := by
  cases p with
  | held h => exact hg h ho
  | queued => exact hq ho
  | _ => exact ho

/-! ## One step -/

section
variable [DecidableEq κ] {s : Custody κ ε} {h : κ} {c : Handle}

/-- A thread changes its grip on a handle, or lets go of it. -/
theorem Placed.move (P : s.Placed) (hc : (s.grip h).item = some c) {g : Grip} {p : Place κ ε}
    (hg : ∀ d, g.item = some d → d = c ∧ p = .held h)
    (hp : ∀ h', p = .held h' → h' = h ∧ g.item = some c) (hq : p ≠ .queued) :
    (s.move h g c.id p).Placed where
  holder id h' hid := by
    by_cases he : id = c.id
    · subst he
      obtain ⟨rfl, hgc⟩ := hp h' (by simpa [Custody.move] using hid)
      exact ⟨c, by simpa [Custody.move] using hgc, rfl⟩
    · obtain ⟨d, hd, rfl⟩ := P.holder id h' (by simpa [Custody.move, he] using hid)
      have hh : h' ≠ h := by
        rintro rfl
        rw [hc] at hd
        exact he (congrArg Handle.id (Option.some.inj hd)).symm
      exact ⟨d, by simpa [Custody.move, hh] using hd, rfl⟩
  member id hid := by
    by_cases he : id = c.id
    · subst he
      exact absurd (by simpa [Custody.move] using hid) hq
    · exact P.member id (by simpa [Custody.move, he] using hid)
  held h' d hd := by
    by_cases hh : h' = h
    · subst hh
      obtain ⟨rfl, rfl⟩ := hg d (by simpa [Custody.move] using hd)
      simp [Custody.move]
    · have hd' : (s.grip h').item = some d := by simpa [Custody.move, hh] using hd
      have hne := P.item_ne hc hd' hh
      simpa [Custody.move, hne] using P.held h' d hd'
  queued d hd := by
    have hne := P.queue_ne hc hd
    simpa [Custody.move, hne] using P.queued d hd
  nodup := P.nodup
  unborn id hid := by
    have hlt := P.item_lt hc
    have hne : id ≠ c.id := by
      intro he
      have h1 : s.next ≤ id := hid
      omega
    simpa [Custody.move, hne] using P.unborn id hid

/-- What the other threads own stays. -/
theorem owned_move {g : Grip} {d : Handle} {h' : κ} (hd : (s.grip h').owned = some d)
    (hne : (s.grip h).owned ≠ some d) : (Function.update s.grip h g h').owned = some d := by
  have hh : h' ≠ h := by
    rintro rfl
    exact hne hd
  simpa [hh] using hd

theorem place_move_ne {g : Grip} {p : Place κ ε} {id id' : Nat} (hne : id' ≠ id) :
    (s.move h g id p).place id' = s.place id' := by
  simp [Custody.move, hne]

/-- What a thread may do to the descriptor and the entry of a handle it
owns: no other handle has either. -/
theorem Inv.touch (I : s.Inv) (hc : (s.grip h).owned = some c) {g : Grip} {p : Place κ ε}
    {o e : Option Nat} (hg : ∀ d, g.item = some d → d = c ∧ p = .held h)
    (hp : ∀ h', p = .held h' → h' = h ∧ g.item = some c) (hq : p ≠ .queued) (own : g.owned.isSome → o = some c.id)
    (ent : ∀ d, g = .entered d → e = some c.id)
    (abs : ∀ d, g = .fresh d ∨ g = .erased d → e = none) (key : ∀ id, e = some id → o = some id)
    (lost : ∀ d x, p = .lost d x → d = c ∧ o = some c.id ∧ e = some c.id)
    (orig : ∀ id, o = some id → id = c.id ∧ (p = .held h ∧ g.owned = some c ∨ ∃ x, p = .lost c x)) :
    Inv { s.move h g c.id p with
      opened := Function.update s.opened c.fd o, entries := Function.update s.entries c.fd e } := by
  have P := I.toPlaced.move (Grip.item_of_owned hc) hg hp hq
  refine ⟨⟨P.held, P.queued, P.nodup, P.unborn, P.holder, P.member⟩, ?_, ?_, ?_, ?_, ?_, ?_, ?_⟩
  · intro h' d hd
    by_cases hh : h' = h
    · subst hh
      have hd' : g.owned = some d := by simpa [Custody.move] using hd
      obtain ⟨rfl, -⟩ := hg d (Grip.item_of_owned hd')
      simpa [Custody.move] using own (by simp [hd'])
    · have hd' : (s.grip h').owned = some d := by simpa [Custody.move, hh] using hd
      have hne := I.fd_ne hc hd' hh
      simpa [Custody.move, hne] using I.owned h' d hd'
  · intro d hd
    have hne := I.queue_fd_ne hc hd
    simpa [Custody.move, hne] using I.waiting d hd
  · intro h' d hd
    by_cases hh : h' = h
    · subst hh
      have hd' : g = .entered d := by simpa [Custody.move] using hd
      obtain ⟨rfl, -⟩ := hg d (by simp [hd', Grip.item])
      simpa [Custody.move] using ent d hd'
    · have hd' : s.grip h' = .entered d := by simpa [Custody.move, hh] using hd
      have hne := I.fd_ne hc (d := d) (by simp [hd', Grip.owned]) hh
      simpa [Custody.move, hne] using I.entered h' d hd'
  · intro h' d hd
    by_cases hh : h' = h
    · subst hh
      have hd' : g = .fresh d ∨ g = .erased d := by simpa [Custody.move] using hd
      obtain ⟨rfl, -⟩ := hg d (by rcases hd' with hd' | hd' <;> simp [hd', Grip.item])
      simpa [Custody.move] using abs d hd'
    · have hd' : s.grip h' = .fresh d ∨ s.grip h' = .erased d := by simpa [Custody.move, hh] using hd
      have hne := I.fd_ne hc (d := d) (by rcases hd' with hd' | hd' <;> simp [hd', Grip.owned]) hh
      simpa [Custody.move, hne] using I.absent h' d hd'
  · intro fd id hid
    by_cases hfd : fd = c.fd
    · subst hfd
      simpa using key id (by simpa using hid)
    · simpa [hfd] using I.keys fd id (by simpa [hfd] using hid)
  · intro id d x hx
    by_cases hid : id = c.id
    · subst hid
      obtain ⟨rfl, ho, he⟩ := lost d x (by simpa [Custody.move] using hx)
      exact ⟨rfl, by simpa using ho, by simpa using he⟩
    · have hx' : s.place id = .lost d x := by simpa [Custody.move, hid] using hx
      have hne := I.lost_fd_ne hc hx'
      simpa [Custody.move, hne] using I.lost id d x hx'
  · intro fd id ho
    by_cases hfd : fd = c.fd
    · subst hfd
      obtain ⟨rfl, ⟨rfl, hgc⟩ | ⟨x, rfl⟩⟩ := orig id (by simpa using ho)
      · simpa [Custody.move, Origin] using hgc
      · simp [Custody.move, Origin]
    · have ho' : s.opened fd = some id := by simpa [hfd] using ho
      have horig := I.origin fd id ho'
      have hne : id ≠ c.id := by
        rintro rfl
        rw [I.held h c (Grip.item_of_owned hc)] at horig
        have hc' : (s.grip h).owned = some ⟨fd, c.id⟩ := horig
        rw [hc] at hc'
        exact hfd (by simpa using congrArg (Option.map Handle.fd) hc'.symm)
      have hpl := place_move_ne (s := s) (h := h) (g := g) (p := p) hne
      show Origin _ fd id ((s.move h g c.id p).place id)
      rw [hpl]
      refine horig.carry (fun h' hd => owned_move hd ?_) fun hq => hq
      rw [hc]
      intro he
      exact hfd (by simpa using congrArg (Option.map Handle.fd) he.symm)

theorem Inv.accept (I : s.Inv) (hg : s.grip h = .idle) {fd : Nat} (ho : s.opened fd = none) :
    Inv { s.move h (.fresh ⟨fd, s.next⟩) s.next (.held h) with
      opened := Function.update s.opened fd (some s.next), next := s.next + 1 } := by
  -- whoever has a descriptor finds it open, so it is not the one accepted
  have hown : ∀ h' d, (s.grip h').owned = some d → d.fd ≠ fd := by
    rintro h' d hd rfl
    rw [I.owned h' d hd] at ho
    cases ho
  have hent : ∀ fd' id, s.entries fd' = some id → fd' ≠ fd := by
    rintro fd' id he rfl
    rw [I.keys fd' id he] at ho
    cases ho
  refine ⟨⟨?_, ?_, I.nodup, ?_, ?_, ?_⟩, ?_, ?_, ?_, ?_, ?_, ?_, ?_⟩
  · intro h' d hd
    by_cases hh : h' = h
    · subst hh
      obtain rfl : ⟨fd, s.next⟩ = d := by simpa [Custody.move, Grip.item] using hd
      simp [Custody.move]
    · have hd' : (s.grip h').item = some d := by simpa [Custody.move, hh] using hd
      have hlt := I.item_lt hd'
      simpa [Custody.move, Nat.ne_of_lt hlt] using I.held h' d hd'
  · intro d hd
    have hlt := I.queue_lt hd
    simpa [Custody.move, Nat.ne_of_lt hlt] using I.queued d hd
  · intro id hid
    have hle : s.next + 1 ≤ id := hid
    have hne : id ≠ s.next := by omega
    simpa [Custody.move, hne] using I.unborn id (by omega)
  · intro id h' hid
    by_cases he : id = s.next
    · subst he
      obtain rfl : h = h' := by simpa [Custody.move] using hid
      exact ⟨⟨fd, s.next⟩, by simp [Custody.move, Grip.item], rfl⟩
    · obtain ⟨d, hd, rfl⟩ := I.holder id h' (by simpa [Custody.move, he] using hid)
      have hh : h' ≠ h := by
        rintro rfl
        simp [hg, Grip.item] at hd
      exact ⟨d, by simpa [Custody.move, hh] using hd, rfl⟩
  · intro id hid
    by_cases he : id = s.next
    · subst he
      simp [Custody.move] at hid
    · exact I.member id (by simpa [Custody.move, he] using hid)
  · intro h' d hd
    by_cases hh : h' = h
    · subst hh
      obtain rfl : ⟨fd, s.next⟩ = d := by simpa [Custody.move, Grip.owned] using hd
      simp
    · have hd' : (s.grip h').owned = some d := by simpa [Custody.move, hh] using hd
      simpa [hown h' d hd'] using I.owned h' d hd'
  · intro d hd
    obtain ⟨h1, h2⟩ := I.waiting d hd
    exact ⟨by simpa [hent _ _ h2] using h1, h2⟩
  · intro h' d hd
    by_cases hh : h' = h
    · subst hh
      simp [Custody.move] at hd
    · exact I.entered h' d (by simpa [Custody.move, hh] using hd)
  · intro h' d hd
    by_cases hh : h' = h
    · subst hh
      obtain rfl : ⟨fd, s.next⟩ = d := by simpa [Custody.move] using hd
      show s.entries fd = none
      cases he : s.entries fd with
      | none => rfl
      | some id => exact absurd rfl (hent fd id he)
    · exact I.absent h' d (by simpa [Custody.move, hh] using hd)
  · intro fd' id he
    simpa [hent fd' id he] using I.keys fd' id he
  · intro id d x hx
    by_cases hid : id = s.next
    · subst hid
      simp [Custody.move] at hx
    · obtain ⟨h1, h2, h3⟩ := I.lost id d x (by simpa [Custody.move, hid] using hx)
      exact ⟨h1, by simpa [hent _ _ h3] using h2, h3⟩
  · intro fd' id ho'
    by_cases hfd : fd' = fd
    · subst hfd
      obtain rfl : s.next = id := by simpa using ho'
      simp [Custody.move, Origin, Grip.owned]
    · have ho2 : s.opened fd' = some id := by simpa [hfd] using ho'
      have horig := I.origin fd' id ho2
      have hne : id ≠ s.next := by
        rintro rfl
        rw [I.unborn s.next (Nat.le_refl _)] at horig
        exact horig
      have hpl := place_move_ne (s := s) (h := h) (g := .fresh ⟨fd, s.next⟩) (p := .held h) hne
      show Origin _ fd' id ((s.move h (.fresh ⟨fd, s.next⟩) s.next (.held h)).place id)
      rw [hpl]
      refine horig.carry (fun h' hd => owned_move hd ?_) fun hq => hq
      simp [hg, Grip.owned]

/-- A handle passes from a thread's hands into the queue. -/
theorem Inv.push (I : s.Inv) (hg : s.grip h = .entered c) :
    Inv { s.move h .idle c.id .queued with queue := s.queue ++ [c] } := by
  have hit : (s.grip h).item = some c := by simp [hg, Grip.item]
  have hown : (s.grip h).owned = some c := by simp [hg, Grip.owned]
  have P := I.toPlaced.move (p := .discarded) hit (g := .idle) (by simp [Grip.item]) (by simp) (by simp)
  have hback : ∀ h' g, g ≠ .idle → Function.update s.grip h .idle h' = g → s.grip h' = g := by
    intro h' g hne hgr
    by_cases hh : h' = h
    · subst hh
      simp only [Function.update_self] at hgr
      exact absurd hgr.symm hne
    · simpa [hh] using hgr
  refine ⟨⟨?_, ?_, ?_, ?_, ?_, ?_⟩, ?_, ?_, ?_, ?_, I.keys, ?_, ?_⟩
  · intro h' d hd
    have hne : d.id ≠ c.id := by
      intro he
      have hx := P.held h' d hd
      simp [Custody.move, he] at hx
    simpa [Custody.move, hne] using P.held h' d hd
  · intro d hd
    rcases List.mem_append.mp hd with hd | hd
    · have hne := I.queue_ne hit hd
      simpa [Custody.move, hne] using I.queued d hd
    · obtain rfl : d = c := by simpa using hd
      simp [Custody.move]
  · have hnew : c.id ∉ s.queue.map Handle.id := by
      intro hm
      obtain ⟨d, hd, he⟩ := List.mem_map.mp hm
      exact I.queue_ne hit hd he
    show ((s.queue ++ [c]).map Handle.id).Nodup
    rw [List.map_append, List.map_singleton]
    exact (List.nodup_append.mpr ⟨I.nodup, List.nodup_singleton _, by
      intro x hx y hy
      obtain rfl : y = c.id := by simpa using hy
      exact fun he => hnew (he ▸ hx)⟩)
  · intro id hid
    have hne : id ≠ c.id := by
      rintro rfl
      have hx := P.unborn c.id hid
      simp [Custody.move] at hx
    simpa [Custody.move, hne] using P.unborn id hid
  · intro id h' hid
    have hne : id ≠ c.id := by
      rintro rfl
      simp [Custody.move] at hid
    exact P.holder id h' (by simpa [Custody.move, hne] using hid)
  · intro id hid
    by_cases he : id = c.id
    · exact ⟨c, List.mem_append_right _ (List.mem_singleton_self c), he.symm⟩
    · obtain ⟨d, hd, rfl⟩ := I.member id (by simpa [Custody.move, he] using hid)
      exact ⟨d, List.mem_append_left _ hd, rfl⟩
  · intro h' d hd
    refine I.owned h' d ?_
    by_cases hh : h' = h
    · subst hh
      simp [Custody.move, Grip.owned] at hd
    · simpa [Custody.move, hh] using hd
  · intro d hd
    rcases List.mem_append.mp hd with hd | hd
    · exact I.waiting d hd
    · obtain rfl : d = c := by simpa using hd
      exact ⟨I.owned h d hown, I.entered h d hg⟩
  · intro h' d hd
    exact I.entered h' d (hback h' _ (by simp) hd)
  · intro h' d hd
    exact I.absent h' d (hd.imp (hback h' _ (by simp)) (hback h' _ (by simp)))
  · intro id d x hx
    by_cases hid : id = c.id
    · subst hid
      simp [Custody.move] at hx
    · exact I.lost id d x (by simpa [Custody.move, hid] using hx)
  · intro fd id ho
    have horig := I.origin fd id ho
    by_cases hid : id = c.id
    · subst hid
      rw [I.held h c hit] at horig
      have hc' : (s.grip h).owned = some ⟨fd, c.id⟩ := horig
      rw [hown] at hc'
      have hce : c = ⟨fd, c.id⟩ := by simpa using hc'
      have hpl : (s.move h .idle c.id .queued).place c.id = .queued := by simp [Custody.move]
      show Origin _ fd c.id ((s.move h .idle c.id .queued).place c.id)
      rw [hpl]
      exact List.mem_append_right _ (by simp [← hce])
    · have hpl := place_move_ne (s := s) (h := h) (g := .idle) (p := .queued) hid
      show Origin _ fd id ((s.move h .idle c.id .queued).place id)
      rw [hpl]
      refine horig.carry (fun h' hd => owned_move hd ?_) (List.mem_append_left _)
      rw [hown]
      intro he
      exact hid (by simpa using congrArg (Option.map Handle.id) he.symm)

/-- A thread takes the first handle of the queue. -/
theorem Inv.pop (I : s.Inv) {cs : List Handle} (hg : s.grip h = .idle) (hq : s.queue = c :: cs) :
    Inv { s.move h (.entered c) c.id (.held h) with queue := cs } := by
  have hcq : c ∈ s.queue := by simp [hq]
  have hcs : ∀ d ∈ cs, d ∈ s.queue := fun d hd => by simp [hq, hd]
  have hnd := I.nodup
  rw [hq, List.map_cons, List.nodup_cons] at hnd
  have hne : ∀ d ∈ cs, d.id ≠ c.id := fun d hd he => hnd.1 (he ▸ List.mem_map_of_mem hd)
  have hitem : ∀ h' d, (s.grip h').item = some d → d.id ≠ c.id :=
    fun h' d hd he => I.queue_ne hd hcq he.symm
  refine ⟨⟨?_, ?_, hnd.2, ?_, ?_, ?_⟩, ?_, ?_, ?_, ?_, I.keys, ?_, ?_⟩
  · intro h' d hd
    by_cases hh : h' = h
    · subst hh
      obtain rfl : c = d := by simpa [Custody.move, Grip.item] using hd
      simp [Custody.move]
    · have hd' : (s.grip h').item = some d := by simpa [Custody.move, hh] using hd
      simpa [Custody.move, hitem h' d hd'] using I.held h' d hd'
  · intro d hd
    simpa [Custody.move, hne d hd] using I.queued d (hcs d hd)
  · intro id hid
    have hlt := I.queue_lt hcq
    have hid' : s.next ≤ id := hid
    have hidne : id ≠ c.id := by omega
    simpa [Custody.move, hidne] using I.unborn id hid'
  · intro id h' hid
    by_cases he : id = c.id
    · subst he
      obtain rfl : h = h' := by simpa [Custody.move] using hid
      exact ⟨c, by simp [Custody.move, Grip.item], rfl⟩
    · obtain ⟨d, hd, rfl⟩ := I.holder id h' (by simpa [Custody.move, he] using hid)
      have hh : h' ≠ h := by
        rintro rfl
        simp [hg, Grip.item] at hd
      exact ⟨d, by simpa [Custody.move, hh] using hd, rfl⟩
  · intro id hid
    have he : id ≠ c.id := by
      rintro rfl
      simp [Custody.move] at hid
    obtain ⟨d, hd, rfl⟩ := I.member id (by simpa [Custody.move, he] using hid)
    rw [hq] at hd
    rcases List.mem_cons.mp hd with rfl | hd
    · exact absurd rfl he
    · exact ⟨d, hd, rfl⟩
  · intro h' d hd
    by_cases hh : h' = h
    · subst hh
      obtain rfl : c = d := by simpa [Custody.move, Grip.owned] using hd
      exact (I.waiting c hcq).1
    · exact I.owned h' d (by simpa [Custody.move, hh] using hd)
  · intro d hd
    exact I.waiting d (hcs d hd)
  · intro h' d hd
    by_cases hh : h' = h
    · subst hh
      obtain rfl : c = d := by simpa [Custody.move] using hd
      exact (I.waiting c hcq).2
    · exact I.entered h' d (by simpa [Custody.move, hh] using hd)
  · intro h' d hd
    by_cases hh : h' = h
    · subst hh
      simp [Custody.move] at hd
    · exact I.absent h' d (by simpa [Custody.move, hh] using hd)
  · intro id d x hx
    by_cases hid : id = c.id
    · subst hid
      simp [Custody.move] at hx
    · exact I.lost id d x (by simpa [Custody.move, hid] using hx)
  · intro fd id ho
    have horig := I.origin fd id ho
    by_cases hid : id = c.id
    · subst hid
      rw [I.queued c hcq] at horig
      have hmem : (⟨fd, c.id⟩ : Handle) ∈ c :: cs := hq ▸ horig
      have hce : (⟨fd, c.id⟩ : Handle) = c := by
        rcases List.mem_cons.mp hmem with he | he
        · exact he
        · exact absurd rfl (hne ⟨fd, c.id⟩ he)
      have hpl : (s.move h (.entered c) c.id (.held h)).place c.id = .held h := by simp [Custody.move]
      show Origin _ fd c.id ((s.move h (.entered c) c.id (.held h)).place c.id)
      rw [hpl]
      show (Function.update s.grip h (.entered c) h).owned = some ⟨fd, c.id⟩
      rw [Function.update_self, hce]
      rfl
    · have hpl := place_move_ne (s := s) (h := h) (g := .entered c) (p := .held h) hid
      show Origin _ fd id ((s.move h (.entered c) c.id (.held h)).place id)
      rw [hpl]
      refine horig.carry (fun h' hd => owned_move hd (by simp [hg, Grip.owned])) fun hm => ?_
      rw [hq] at hm
      rcases List.mem_cons.mp hm with he | he
      · exact absurd (congrArg Handle.id he) hid
      · exact he

/-- A thread is done with a handle whose descriptor is closed. -/
theorem Inv.release (I : s.Inv) (hg : s.grip h = .closed c) (x : ε) :
    Inv (s.move h .idle c.id (.released x)) := by
  have hit : (s.grip h).item = some c := by simp [hg, Grip.item]
  have hback : ∀ h' g, g ≠ .idle → Function.update s.grip h .idle h' = g → s.grip h' = g := by
    intro h' g hne hgr
    by_cases hh : h' = h
    · subst hh
      simp only [Function.update_self] at hgr
      exact absurd hgr.symm hne
    · simpa [hh] using hgr
  refine ⟨I.toPlaced.move hit (by simp [Grip.item]) (by simp) (by simp), ?_, I.waiting, ?_, ?_, I.keys, ?_, ?_⟩
  · intro h' d hd
    refine I.owned h' d ?_
    by_cases hh : h' = h
    · subst hh
      simp [Custody.move, Grip.owned] at hd
    · simpa [Custody.move, hh] using hd
  · intro h' d hd
    exact I.entered h' d (hback h' _ (by simp) hd)
  · intro h' d hd
    exact I.absent h' d (hd.imp (hback h' _ (by simp)) (hback h' _ (by simp)))
  · intro id d y hy
    by_cases hid : id = c.id
    · subst hid
      simp [Custody.move] at hy
    · exact I.lost id d y (by simpa [Custody.move, hid] using hy)
  · intro fd id ho
    have horig := I.origin fd id ho
    have hid : id ≠ c.id := by
      rintro rfl
      rw [I.held h c hit] at horig
      have hc' : (s.grip h).owned = some ⟨fd, c.id⟩ := horig
      simp [hg, Grip.owned] at hc'
    rw [place_move_ne hid]
    exact horig.carry (fun h' hd => owned_move hd (by simp [hg, Grip.owned])) fun hm => hm

theorem inv_step {t : Custody κ ε} (I : s.Inv) (hs : s.Step t) : t.Inv := by
  cases hs with
  | accept h fd hg ho => exact I.accept hg ho
  | push h c hg => exact I.push hg
  | pop h c cs hg hq => exact I.pop hg hq
  | release h c x hg => exact I.release hg x
  | discard h c hg =>
    have hc : (s.grip h).owned = some c := by simp [hg, Grip.owned]
    have he : Function.update s.entries c.fd none = s.entries :=
      Function.update_eq_self_iff.mpr (I.absent h c (.inl hg)).symm
    have ht := I.touch hc (g := .idle) (p := .discarded) (o := none) (e := none) (by simp [Grip.item])
      (by simp) (by simp) (by simp [Grip.owned]) (by simp) (by simp) (by simp) (by simp) (by simp)
    rwa [he] at ht
  | enter h c hg =>
    have hc : (s.grip h).owned = some c := by simp [hg, Grip.owned]
    have ho : Function.update s.opened c.fd (some c.id) = s.opened :=
      Function.update_eq_self_iff.mpr (I.owned h c hc).symm
    have ht := I.touch hc (g := .entered c) (p := .held h) (o := some c.id) (e := some c.id)
      (by simp [Grip.item]) (by simp [Grip.item]) (by simp) (by simp) (by simp) (by simp) (by simp)
      (by simp) (by simp [Grip.owned, eq_comm])
    rwa [ho] at ht
  | lose h c x hg =>
    have hc : (s.grip h).owned = some c := by simp [hg, Grip.owned]
    have ho : Function.update s.opened c.fd (some c.id) = s.opened :=
      Function.update_eq_self_iff.mpr (I.owned h c hc).symm
    have he : Function.update s.entries c.fd (some c.id) = s.entries :=
      Function.update_eq_self_iff.mpr (I.entered h c hg).symm
    have ht := I.touch hc (g := .idle) (p := .lost c x) (o := some c.id) (e := some c.id)
      (by simp [Grip.item]) (by simp) (by simp) (by simp) (by simp) (by simp) (by simp)
      (by simp +contextual)
      (by simp [eq_comm])
    rwa [ho, he] at ht
  | erase h c hg =>
    have hc : (s.grip h).owned = some c := by simp [hg, Grip.owned]
    have ho : Function.update s.opened c.fd (some c.id) = s.opened :=
      Function.update_eq_self_iff.mpr (I.owned h c hc).symm
    have ht := I.touch hc (g := .erased c) (p := .held h) (o := some c.id) (e := none)
      (by simp [Grip.item]) (by simp [Grip.item]) (by simp) (by simp) (by simp) (by simp) (by simp)
      (by simp) (by simp [Grip.owned, eq_comm])
    rwa [ho] at ht
  | close h c hg =>
    have hc : (s.grip h).owned = some c := by simp [hg, Grip.owned]
    have he : Function.update s.entries c.fd none = s.entries :=
      Function.update_eq_self_iff.mpr (I.absent h c (.inr hg)).symm
    have ht := I.touch hc (g := .closed c) (p := .held h) (o := none) (e := none)
      (by simp [Grip.item]) (by simp [Grip.item]) (by simp) (by simp [Grip.owned]) (by simp) (by simp)
      (by simp) (by simp) (by simp)
    rwa [he] at ht

end

end Custody

end Mefsc
