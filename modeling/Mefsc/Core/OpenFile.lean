import Mathlib.Data.Fintype.Basic
import Mathlib.Logic.Function.Basic
import Mefsc.Core.Bytes
import Mefsc.Core.Lts

/-!
# A file that several hold open

Writers truncate the file when they open it and put their pieces at offsets of
their own; readers read at theirs, the `k`-th time `size k` bytes, until they come
to the end. Nothing keeps them apart: a piece lands on whatever is there.

Both are buffered. A piece goes into its writer's buffer and from there to the file
at any later time, in any portions, the rest when the writer closes the file. A
reader fills its buffer in any portions while it holds less than the read asks for.

`Alone`: a writer opens the file when nobody has it open, a reader when no writer
has. In runs that keep to that, a reader gets what one writer wrote, all of it
(`Kept.delivered`), and between two writers the file is what the last one of them
wrote (`Kept.settled`).
-/
namespace Mefsc

/-- `pwrite`: a gap in front of the bytes is filled with zeros. -/
def writeAt (c : Bytes) (off : Nat) (b : Bytes) : Bytes :=
  if b = [] then c else (c ++ List.replicate (off - c.length) 0).take off ++ b ++ c.drop (off + b.length)

theorem writeAt_end (c b : Bytes) : writeAt c c.length b = c ++ b := by
  unfold writeAt
  split
  · rename_i hb
    simp [hb]
  · simp

inductive Job where
  | writer (pieces : List Bytes)
  | reader
  deriving DecidableEq, Repr

/-- All that it writes. -/
def Job.bytes : Job → Bytes
  | .writer pieces => pieces.flatten
  | .reader => []

inductive JobPc where
  | idle
  /-- `pending`: its buffer -/
  | writing (off : Nat) (pending : Bytes) (left : List Bytes)
  | closed
  /-- `ahead`: its buffer; `dry`: it has come to the end -/
  | reading (off : Nat) (ahead : Bytes) (dry : Bool) (got : List Bytes)
  | delivered (got : List Bytes)
  /-- there was no file -/
  | missing
  deriving DecidableEq, Repr

structure OpenFile (ι : Type) where
  content : Option Bytes
  pcs : ι → JobPc

inductive FileAct (ι : Type) where
  | open (i : ι)
  | write (i : ι)
  /-- up to `n` bytes of the buffer go to the file -/
  | flush (i : ι) (n : Nat)
  | close (i : ι)
  /-- up to `n` bytes of the file go to the buffer -/
  | fetch (i : ι) (n : Nat)
  | read (i : ι)
  deriving DecidableEq, Repr

def FileAct.who {ι : Type} : FileAct ι → ι
  | .open i | .write i | .flush i _ | .close i | .fetch i _ | .read i => i

namespace OpenFile

variable {ι : Type} [DecidableEq ι]

/-- A job has done something, and the file is now `c`. -/
def set (s : OpenFile ι) (c : Option Bytes) (i : ι) (pc : JobPc) : OpenFile ι :=
  ⟨c, Function.update s.pcs i pc⟩

/-- A read of `n` bytes from the buffer: what it yields, what stays there and
whether it came to the end. `none`: the buffer holds too little. -/
def takeAhead (ahead : Bytes) (dry : Bool) (n : Nat) : Option (Bytes × Bytes × Bool) :=
  if dry then some (ahead, [], true)
  else if n ≤ ahead.length then some (ahead.take n, ahead.drop n, false)
  else none

/-- `least`: so many reads are made before the end is looked at. -/
def step (job : ι → Job) (size : Nat → Nat) (least : Nat) (s : OpenFile ι) : FileAct ι → Option (OpenFile ι)
  | .open i =>
    match job i, s.pcs i with
    | .writer pieces, .idle => some (s.set (some []) i (.writing 0 [] pieces))
    | .reader, .idle =>
      match s.content with
      | none => some (s.set none i .missing)
      | some c => some (s.set (some c) i (.reading 0 [] false []))
    | _, _ => none
  | .write i =>
    match s.pcs i with
    | .writing off pending (b :: left) => some (s.set s.content i (.writing off (pending ++ b) left))
    | _ => none
  | .flush i n =>
    match s.pcs i, s.content with
    | .writing off pending left, some c =>
      let b := pending.take n
      some (s.set (some (writeAt c off b)) i (.writing (off + b.length) (pending.drop n) left))
    | _, _ => none
  | .close i =>
    match s.pcs i, s.content with
    | .writing off pending [], some c => some (s.set (some (writeAt c off pending)) i .closed)
    | _, _ => none
  | .fetch i n =>
    match s.pcs i, s.content with
    | .reading off ahead false got, some c =>
      if 0 < n ∧ ahead.length < size got.length then
        let b := (c.drop off).take n
        some (s.set (some c) i (.reading (off + b.length) (ahead ++ b) (decide (b = [])) got))
      else none
    | _, _ => none
  | .read i =>
    match s.pcs i with
    | .reading off ahead dry got =>
      match takeAhead ahead dry (size got.length) with
      | none => none
      | some (b, ahead', eof) =>
        if least ≤ got.length ∧ eof = true then some (s.set s.content i (.delivered (got ++ [b])))
        else some (s.set s.content i (.reading off ahead' dry (got ++ [b])))
    | _ => none

def lts (job : ι → Job) (size : Nat → Nat) (least : Nat) : LTS (OpenFile ι) (FileAct ι) where
  init s := s = ⟨none, fun _ => .idle⟩
  step s a s' := s.step job size least a = some s'

end OpenFile

/-! ## Taking turns -/

namespace JobPc

def Writes (pc : JobPc) : Prop := ∃ off pending left, pc = .writing off pending left

def Reads (pc : JobPc) : Prop := ∃ off ahead dry got, pc = .reading off ahead dry got

instance : DecidablePred Writes
  | .writing off pending left => isTrue ⟨off, pending, left, rfl⟩
  | .idle | .closed | .reading _ _ _ _ | .delivered _ | .missing => isFalse (by simp [Writes])

instance : DecidablePred Reads
  | .reading off ahead dry got => isTrue ⟨off, ahead, dry, got, rfl⟩
  | .idle | .closed | .writing _ _ _ | .delivered _ | .missing => isFalse (by simp [Reads])

end JobPc

namespace OpenFile

variable {ι : Type}

/-- Nobody opens the file that a writer has open, and no writer one that
anybody has. -/
def Alone (job : ι → Job) (s : OpenFile ι) : FileAct ι → Prop
  | .open i => (∀ j, ¬ (s.pcs j).Writes) ∧ (job i ≠ .reader → ∀ j, ¬ (s.pcs j).Reads)
  | _ => True

instance [Fintype ι] (job : ι → Job) (s : OpenFile ι) : DecidablePred (Alone job s)
  | .open i => inferInstanceAs
    (Decidable ((∀ j, ¬ (s.pcs j).Writes) ∧ (job i ≠ .reader → ∀ j, ¬ (s.pcs j).Reads)))
  | .write _ | .flush _ _ | .close _ | .fetch _ _ | .read _ => isTrue trivial

/-- What the file holds is what its writer has flushed or, when there is none, all
that one has written. A reader's buffer is the part of it that follows what was
read. -/
structure Kept (job : ι → Job) (s : OpenFile ι) : Prop where
  single : ∀ i j, (s.pcs i).Writes → (s.pcs j).Writes ∨ (s.pcs j).Reads → j = i
  writing : ∀ i off pending left, s.pcs i = .writing off pending left →
    ∃ c, s.content = some c ∧ c.length = off ∧ c ++ pending ++ left.flatten = (job i).bytes
  reading : ∀ j off ahead dry got, s.pcs j = .reading off ahead dry got →
    ∃ c, s.content = some c ∧ got.flatten ++ ahead = c.take off ∧ off ≤ c.length ∧ (dry = true → off = c.length)
  settled : (∀ i, ¬ (s.pcs i).Writes) →
    (s.content = none ∧ ∀ i, s.pcs i ≠ .closed) ∨ ∃ i, s.pcs i = .closed ∧ s.content = some (job i).bytes
  delivered : ∀ j got, s.pcs j = .delivered got → ∃ i, s.pcs i = .closed ∧ got.flatten = (job i).bytes

variable [DecidableEq ι] {job : ι → Job} {size : Nat → Nat} {least : Nat}

/-- What a step can do. -/
inductive Move (job : ι → Job) (size : Nat → Nat) (s : OpenFile ι) : FileAct ι → OpenFile ι → Prop where
  | openWriter (i : ι) (pieces : List Bytes) (hj : job i = .writer pieces) (hp : s.pcs i = .idle) :
      Move job size s (.open i) (s.set (some []) i (.writing 0 [] pieces))
  | openMissing (i : ι) (hj : job i = .reader) (hp : s.pcs i = .idle) (hc : s.content = none) :
      Move job size s (.open i) (s.set none i .missing)
  | openReader (i : ι) (c : Bytes) (hj : job i = .reader) (hp : s.pcs i = .idle) (hc : s.content = some c) :
      Move job size s (.open i) (s.set (some c) i (.reading 0 [] false []))
  | write (i : ι) (off : Nat) (pending b : Bytes) (left : List Bytes)
      (hp : s.pcs i = .writing off pending (b :: left)) :
      Move job size s (.write i) (s.set s.content i (.writing off (pending ++ b) left))
  | flush (i : ι) (n off : Nat) (pending : Bytes) (left : List Bytes) (c : Bytes)
      (hp : s.pcs i = .writing off pending left) (hc : s.content = some c) :
      Move job size s (.flush i n) (s.set (some (writeAt c off (pending.take n))) i
        (.writing (off + (pending.take n).length) (pending.drop n) left))
  | close (i : ι) (off : Nat) (pending c : Bytes) (hp : s.pcs i = .writing off pending []) (hc : s.content = some c) :
      Move job size s (.close i) (s.set (some (writeAt c off pending)) i .closed)
  | fetch (i : ι) (n off : Nat) (ahead : Bytes) (got : List Bytes) (c : Bytes)
      (hp : s.pcs i = .reading off ahead false got) (hc : s.content = some c) (hn : 0 < n)
      (hlt : ahead.length < size got.length) :
      Move job size s (.fetch i n) (s.set (some c) i (.reading (off + ((c.drop off).take n).length)
        (ahead ++ (c.drop off).take n) (decide ((c.drop off).take n = [])) got))
  | read (i : ι) (off : Nat) (ahead : Bytes) (dry : Bool) (got : List Bytes) (b ahead' : Bytes) (eof : Bool)
      (hp : s.pcs i = .reading off ahead dry got)
      (hb : takeAhead ahead dry (size got.length) = some (b, ahead', eof)) :
      Move job size s (.read i) (s.set s.content i (.reading off ahead' dry (got ++ [b])))
  | last (i : ι) (off : Nat) (ahead : Bytes) (dry : Bool) (got : List Bytes) (b ahead' : Bytes)
      (hp : s.pcs i = .reading off ahead dry got)
      (hb : takeAhead ahead dry (size got.length) = some (b, ahead', true)) :
      Move job size s (.read i) (s.set s.content i (.delivered (got ++ [b])))

theorem step_move {s s' : OpenFile ι} {a : FileAct ι} (h : s.step job size least a = some s') :
    Move job size s a s' := by
  cases a with
  | «open» i =>
    simp only [step] at h
    split at h
    · rename_i pieces hj hp
      cases h
      exact .openWriter i pieces hj hp
    · rename_i hj hp
      split at h
      · rename_i hc
        cases h
        exact .openMissing i hj hp hc
      · rename_i c hc
        cases h
        exact .openReader i c hj hp hc
    · cases h
  | write i =>
    simp only [step] at h
    split at h
    · rename_i off pending b left hp
      cases h
      exact .write i off pending b left hp
    · cases h
  | flush i n =>
    simp only [step] at h
    split at h
    · rename_i off pending left c hp hc
      cases h
      exact .flush i n off pending left c hp hc
    · cases h
  | close i =>
    simp only [step] at h
    split at h
    · rename_i off pending c hp hc
      cases h
      exact .close i off pending c hp hc
    · cases h
  | fetch i n =>
    simp only [step] at h
    split at h
    · rename_i off ahead got c hp hc
      split at h
      · rename_i hn
        cases h
        exact .fetch i n off ahead got c hp hc hn.1 hn.2
      · cases h
    · cases h
  | read i =>
    simp only [step] at h
    split at h
    · rename_i off ahead dry got hp
      split at h
      · cases h
      · rename_i b ahead' eof hb
        split at h
        · rename_i hl
          cases h
          obtain ⟨-, rfl⟩ := hl
          exact .last i off ahead dry got b ahead' hp hb
        · cases h
          exact .read i off ahead dry got b ahead' eof hp hb
    · cases h

/-- A read takes the front of the buffer, all of it at the end. -/
theorem takeAhead_append {ahead b ahead' : Bytes} {dry eof : Bool} {n : Nat}
    (h : takeAhead ahead dry n = some (b, ahead', eof)) :
    b ++ ahead' = ahead ∧ eof = dry ∧ (eof = true → ahead' = []) := by
  unfold takeAhead at h
  split at h
  · rename_i hd
    cases h
    simp [hd]
  · rename_i hd
    split at h
    · cases h
      simp [hd]
    · cases h

/-- More of a file that stays as it is. -/
theorem fetch_take {c ahead g : Bytes} {off n : Nat} (hg : g ++ ahead = c.take off) (hle : off ≤ c.length)
    (hn : 0 < n) : g ++ (ahead ++ (c.drop off).take n) = c.take (off + ((c.drop off).take n).length) ∧
      off + ((c.drop off).take n).length ≤ c.length ∧
      ((c.drop off).take n = [] → off + ((c.drop off).take n).length = c.length) := by
  have hlen : ((c.drop off).take n).length = min n (c.length - off) := by simp
  refine ⟨?_, by omega, fun hnil => ?_⟩
  · rw [← List.append_assoc, hg, hlen, List.take_add]
    congr 1
    rcases Nat.le_total n (c.length - off) with h | h
    · rw [Nat.min_eq_left h]
    · rw [Nat.min_eq_right h, List.take_of_length_le (by simpa using h), List.take_of_length_le (by simp)]
  · rw [hnil, List.length_nil] at hlen
    rw [hnil, List.length_nil]
    omega

@[simp] theorem set_content (s : OpenFile ι) (c : Option Bytes) (i : ι) (pc : JobPc) :
    (s.set c i pc).content = c := rfl

@[simp] theorem set_self (s : OpenFile ι) (c : Option Bytes) (i : ι) (pc : JobPc) :
    (s.set c i pc).pcs i = pc := Function.update_self ..

theorem set_ne (s : OpenFile ι) (c : Option Bytes) {i j : ι} (pc : JobPc) (h : j ≠ i) :
    (s.set c i pc).pcs j = s.pcs j := Function.update_of_ne h ..

theorem Move.other {s s' : OpenFile ι} {a : FileAct ι} (h : Move job size s a s') {j : ι} (hj : j ≠ a.who) :
    s'.pcs j = s.pcs j := by
  cases h <;> exact set_ne _ _ _ hj

/-- A job that is closed has not moved. -/
theorem closed_set {s : OpenFile ι} {c : Option Bytes} {i k : ι} {pc : JobPc} (hi : s.pcs i ≠ .closed)
    (hk : s.pcs k = .closed) : (s.set c i pc).pcs k = .closed := by
  have hne : k ≠ i := by
    rintro rfl
    exact hi hk
  rw [set_ne s c pc hne, hk]

/-- A step of a reader. -/
theorem Kept.reader {s : OpenFile ι} (h : Kept job s) {i : ι} {pc : JobPc} (hw : ¬ (s.pcs i).Writes)
    (hcl : s.pcs i ≠ .closed) (hpw : ¬ pc.Writes) (hpc : pc ≠ .closed)
    (hex : pc.Reads → ∀ k, ¬ (s.pcs k).Writes)
    (hrd : ∀ off ahead dry got, pc = .reading off ahead dry got →
      ∃ c, s.content = some c ∧ got.flatten ++ ahead = c.take off ∧ off ≤ c.length ∧ (dry = true → off = c.length))
    (hdel : ∀ got, pc = .delivered got → ∃ k, s.pcs k = .closed ∧ got.flatten = (job k).bytes) :
    Kept job (s.set s.content i pc) where
  single k j hk hj := by
    have hki : k ≠ i := by
      rintro rfl
      rw [set_self] at hk
      exact hpw hk
    rw [set_ne s _ pc hki] at hk
    by_cases hji : j = i
    · subst hji
      rw [set_self] at hj
      rcases hj with hj | hj
      · exact absurd hj hpw
      · exact absurd hk (hex hj k)
    · rw [set_ne s _ pc hji] at hj
      exact h.single k j hk hj
  writing k off pending left hk := by
    have hki : k ≠ i := by
      rintro rfl
      rw [set_self] at hk
      exact hpw ⟨off, pending, left, hk⟩
    rw [set_ne s _ pc hki] at hk
    exact h.writing k off pending left hk
  reading j off ahead dry got hj := by
    by_cases hji : j = i
    · subst hji
      rw [set_self] at hj
      exact hrd off ahead dry got hj
    · rw [set_ne s _ pc hji] at hj
      exact h.reading j off ahead dry got hj
  settled hno := by
    have hold : ∀ k, ¬ (s.pcs k).Writes := by
      intro k hk
      by_cases hki : k = i
      · exact hw (hki ▸ hk)
      · exact hno k (by rwa [set_ne s _ pc hki])
    rcases h.settled hold with ⟨hc, hall⟩ | ⟨k, hk, hc⟩
    · refine .inl ⟨hc, fun k hk => ?_⟩
      by_cases hki : k = i
      · subst hki
        rw [set_self] at hk
        exact hpc hk
      · rw [set_ne s _ pc hki] at hk
        exact hall k hk
    · exact .inr ⟨k, closed_set hcl hk, hc⟩
  delivered j got hj := by
    by_cases hji : j = i
    · subst hji
      rw [set_self] at hj
      obtain ⟨k, hk, hg⟩ := hdel got hj
      exact ⟨k, closed_set hcl hk, hg⟩
    · rw [set_ne s _ pc hji] at hj
      obtain ⟨k, hk, hg⟩ := h.delivered j got hj
      exact ⟨k, closed_set hcl hk, hg⟩

/-- While a writer is at it, what it has still to do is its own affair. -/
theorem Kept.writer {s : OpenFile ι} (h : Kept job s) {i : ι} {c pending : Bytes} {left : List Bytes}
    (hcl : s.pcs i ≠ .closed) (hex : ∀ j, (s.pcs j).Writes ∨ (s.pcs j).Reads → j = i)
    (hc : c ++ pending ++ left.flatten = (job i).bytes) :
    Kept job (s.set (some c) i (.writing c.length pending left)) where
  single k j hk hj := by
    have hki : k = i := by
      by_contra hne
      rw [set_ne s _ _ hne] at hk
      exact hne (hex k (.inl hk))
    subst hki
    by_contra hne
    rw [set_ne s _ _ hne] at hj
    exact hne (hex j hj)
  writing k off pending' left' hk := by
    by_cases hki : k = i
    · subst hki
      rw [set_self] at hk
      cases hk
      exact ⟨c, rfl, rfl, hc⟩
    · rw [set_ne s _ _ hki] at hk
      exact absurd (hex k (.inl ⟨off, pending', left', hk⟩)) hki
  reading j off ahead dry got hj := by
    by_cases hji : j = i
    · subst hji
      rw [set_self] at hj
      cases hj
    · rw [set_ne s _ _ hji] at hj
      exact absurd (hex j (.inr ⟨off, ahead, dry, got, hj⟩)) hji
  settled hno := by
    refine absurd ?_ (hno i)
    rw [set_self]
    exact ⟨_, _, _, rfl⟩
  delivered j got hj := by
    by_cases hji : j = i
    · subst hji
      rw [set_self] at hj
      cases hj
    · rw [set_ne s _ _ hji] at hj
      obtain ⟨k, hk, hg⟩ := h.delivered j got hj
      exact ⟨k, closed_set hcl hk, hg⟩

/-- It flushes its buffer and closes the file. -/
theorem Kept.close {s : OpenFile ι} (h : Kept job s) {i : ι} {off : Nat} {pending c : Bytes}
    (hp : s.pcs i = .writing off pending []) (hc : s.content = some c) :
    Kept job (s.set (some (writeAt c off pending)) i .closed) := by
  have hex := fun j => h.single i j ⟨off, pending, [], hp⟩
  obtain ⟨c', hc', rfl, hb⟩ := h.writing i off pending [] hp
  obtain rfl := Option.some.inj (hc.symm.trans hc')
  have hnone : ∀ j pc, (s.set (some (writeAt c c.length pending)) i .closed).pcs j = pc →
      ¬ pc.Writes ∧ ¬ pc.Reads := by
    rintro j pc rfl
    by_cases hji : j = i
    · subst hji
      rw [set_self]
      exact ⟨by simp [JobPc.Writes], by simp [JobPc.Reads]⟩
    · rw [set_ne s _ _ hji]
      exact ⟨fun hw => hji (hex j (.inl hw)), fun hr => hji (hex j (.inr hr))⟩
  refine ⟨?_, ?_, ?_, ?_, ?_⟩
  · intro k j hk
    exact absurd hk (hnone k _ rfl).1
  · intro k off pending left hk
    exact absurd ⟨off, pending, left, rfl⟩ (hnone k _ hk).1
  · intro j off ahead dry got hj
    exact absurd ⟨off, ahead, dry, got, rfl⟩ (hnone j _ hj).2
  · intro _
    refine .inr ⟨i, set_self .., ?_⟩
    rw [set_content, writeAt_end, ← hb]
    simp
  · intro j got hj
    have hji : j ≠ i := by
      rintro rfl
      rw [set_self] at hj
      cases hj
    rw [set_ne s _ _ hji] at hj
    obtain ⟨k, hk, hg⟩ := h.delivered j got hj
    refine ⟨k, ?_, hg⟩
    by_cases hki : k = i
    · subst hki
      exact set_self ..
    · rw [set_ne s _ _ hki, hk]

omit [DecidableEq ι] in
theorem kept_init : Kept job (⟨none, fun _ => .idle⟩ : OpenFile ι) where
  single i j h := by simp [JobPc.Writes] at h
  writing i off pending left h := by cases h
  reading j off ahead dry got h := by cases h
  settled _ := .inl ⟨rfl, by simp⟩
  delivered j got h := by cases h

omit [DecidableEq ι] in
/-- While somebody reads nobody writes. -/
theorem Kept.not_writes {s : OpenFile ι} (h : Kept job s) {i : ι} {off : Nat} {ahead : Bytes} {dry : Bool}
    {got : List Bytes} (hp : s.pcs i = .reading off ahead dry got) (k : ι) : ¬ (s.pcs k).Writes := by
  intro hk
  have hik := h.single k i hk (.inr ⟨off, ahead, dry, got, hp⟩)
  rw [← hik, hp] at hk
  simp [JobPc.Writes] at hk

theorem Kept.step {s s' : OpenFile ι} {a : FileAct ι} (h : Kept job s) (ha : s.Alone job a)
    (hs : s.step job size least a = some s') : Kept job s' := by
  cases step_move hs with
  | openWriter i pieces hj hp =>
    obtain ⟨hw, hr⟩ := ha
    refine h.writer (c := []) (by simp [hp]) (fun j hx => ?_) (by simp [hj, Job.bytes])
    rcases hx with hx | hx
    · exact absurd hx (hw j)
    · exact absurd hx (hr (by simp [hj]) j)
  | openMissing i hj hp hc =>
    rw [← hc]
    exact h.reader (by simp [hp, JobPc.Writes]) (by simp [hp]) (by simp [JobPc.Writes]) (by simp)
      (by simp [JobPc.Reads]) (by simp) (by simp)
  | openReader i c hj hp hc =>
    rw [← hc]
    refine h.reader (by simp [hp, JobPc.Writes]) (by simp [hp]) (by simp [JobPc.Writes]) (by simp)
      (fun _ => ha.1) ?_ (by simp)
    intro off ahead dry got he
    cases he
    exact ⟨c, hc, by simp, by simp, by simp⟩
  | write i off pending b left hp =>
    obtain ⟨c, hc, rfl, hb⟩ := h.writing i off _ _ hp
    rw [hc]
    refine h.writer (by simp [hp]) (fun j => h.single i j ⟨_, _, _, hp⟩) ?_
    simpa [List.append_assoc] using hb
  | flush i n off pending left c hp hc =>
    obtain ⟨c', hc', rfl, hb⟩ := h.writing i off _ _ hp
    obtain rfl := Option.some.inj (hc.symm.trans hc')
    rw [writeAt_end, ← List.length_append]
    refine h.writer (by simp [hp]) (fun j => h.single i j ⟨_, _, _, hp⟩) ?_
    rw [List.append_assoc c, List.take_append_drop, hb]
  | close i off pending c hp hc => exact h.close hp hc
  | fetch i n off ahead got c hp hc hn _ =>
    obtain ⟨c', hc', hg, hle, -⟩ := h.reading i off ahead false got hp
    obtain rfl := Option.some.inj (hc.symm.trans hc')
    obtain ⟨htake, hle', hnil⟩ := fetch_take hg hle hn
    rw [← hc]
    refine h.reader (by simp [hp, JobPc.Writes]) (by simp [hp]) (by simp [JobPc.Writes]) (by simp)
      (fun _ => h.not_writes hp) ?_ (by simp)
    intro off2 ahead2 dry2 got2 heq
    cases heq
    exact ⟨c, hc, htake, hle', fun hd => hnil (of_decide_eq_true hd)⟩
  | read i off ahead dry got b ahead' eof hp hb =>
    obtain ⟨c, hc, hg, hle, hd⟩ := h.reading i off ahead dry got hp
    obtain ⟨rfl, -, -⟩ := takeAhead_append hb
    refine h.reader (by simp [hp, JobPc.Writes]) (by simp [hp]) (by simp [JobPc.Writes]) (by simp)
      (fun _ => h.not_writes hp) ?_ (by simp)
    intro off2 ahead2 dry2 got2 heq
    cases heq
    exact ⟨c, hc, by simpa [List.append_assoc] using hg, hle, hd⟩
  | last i off ahead dry got b ahead' hp hb =>
    obtain ⟨c, hc, hg, hle, hd⟩ := h.reading i off ahead dry got hp
    obtain ⟨rfl, rfl, hnil⟩ := takeAhead_append hb
    refine h.reader (by simp [hp, JobPc.Writes]) (by simp [hp]) (by simp [JobPc.Writes]) (by simp)
      (by simp [JobPc.Reads]) (by simp) ?_
    intro got2 heq
    cases heq
    have hall : (got ++ [b]).flatten = c := by
      rw [hnil rfl, List.append_nil, hd rfl, List.take_length] at hg
      simpa using hg
    rw [hall]
    -- no writer has the file open, so it is what one of them left
    rcases h.settled (h.not_writes hp) with ⟨hnone, -⟩ | ⟨k, hk, hkc⟩
    · rw [hc] at hnone
      cases hnone
    · exact ⟨k, hk, Option.some.inj (hc.symm.trans hkc)⟩

theorem kept_reachable {s : OpenFile ι} (hr : ((lts job size least).during (Alone job)).Reachable s) :
    Kept job s := by
  induction hr with
  | init h =>
    obtain rfl : _ = _ := h
    exact kept_init
  | step _ h ih => exact ih.step h.2 h.1

/-- A reader comes to the end when its buffer is too short for a read. -/
theorem dry_short (hsize : ∀ k, 0 < size k) {s : OpenFile ι} (hr : (lts job size least).Reachable s) {j : ι}
    {off : Nat} {ahead : Bytes} {got : List Bytes} (hp : s.pcs j = .reading off ahead true got) :
    ahead.length < size got.length := by
  induction hr generalizing off ahead got with
  | init h =>
    obtain rfl : _ = _ := h
    cases hp
  | @step s s' a _ h ih =>
    by_cases hj : j = a.who
    · subst hj
      cases step_move h with
      | openWriter i _ _ _ | openMissing i _ _ _ | openReader i _ _ _ _ | write i _ _ _ _ _ | flush i _ _ _ _ _ _ _
      | close i _ _ _ _ _ | last i _ _ _ _ _ _ _ _ =>
        cases (set_self ..).symm.trans hp
      | fetch i n off' ahead' got' c _ _ _ hlt =>
        simp only [FileAct.who, set_self, JobPc.reading.injEq, decide_eq_true_eq] at hp
        obtain ⟨-, rfl, hb, rfl⟩ := hp
        rw [hb, List.append_nil]
        exact hlt
      | read i off' ahead' dry got' b left eof _ hb =>
        simp only [FileAct.who, set_self, JobPc.reading.injEq] at hp
        obtain ⟨-, rfl, rfl, -⟩ := hp
        obtain ⟨-, rfl, hnil⟩ := takeAhead_append hb
        rw [hnil rfl]
        exact hsize _
    · rw [(step_move h).other hj] at hp
      exact ih hp

/-- Only writers close the file. -/
theorem writer_of_closed {s : OpenFile ι} (hr : (lts job size least).Reachable s) {i : ι}
    (hi : s.pcs i = .closed) : ∃ pieces, job i = .writer pieces := by
  have hinv : ∀ i, s.pcs i = .closed ∨ (s.pcs i).Writes → ∃ pieces, job i = .writer pieces := by
    clear hi i
    induction hr with
    | init h =>
      obtain rfl : _ = _ := h
      intro i hi
      simp [JobPc.Writes] at hi
    | @step s s' a _ h ih =>
      intro k hk
      by_cases hka : k = a.who
      · subst hka
        cases step_move h with
        | openWriter i pieces hj _ => exact ⟨pieces, hj⟩
        | write i _ _ _ _ hp | flush i _ _ _ _ _ hp _ | close i _ _ _ hp _ => exact ih i (.inr ⟨_, _, _, hp⟩)
        | openMissing i _ _ _ | openReader i _ _ _ _ | fetch i _ _ _ _ _ _ _ _ _ | read i _ _ _ _ _ _ _ _ _
        | last i _ _ _ _ _ _ _ _ => simp [FileAct.who, JobPc.Writes] at hk
      · rw [(step_move h).other hka] at hk
        exact ih k hk
  exact hinv i (.inl hi)

end OpenFile

end Mefsc
