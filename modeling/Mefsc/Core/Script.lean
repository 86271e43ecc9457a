import Mefsc.Core.Net
import Mefsc.Core.Trace

/-!
# Sends that are cut

A process that does not look at what became of its sends goes on behind one that
was cut, and the bytes of a later item then stand where the rest of the earlier
one was to come. `Item`s are what such a process sends: a first send and,
when that was taken whole and there is more, a second. `puts os its` is what the
connection takes of the items `its` under the outcomes `os`, each byte with its
role, and `Clean os its` a condition on the outcomes alone: behind the first item
that was cut no send takes a byte.

* `puts_prefix_iff`: what is taken is a prefix of the items themselves exactly
  when the outcomes are clean.
* `Plays p s inp e items`: with the state `s` and the bytes `inp` to come, `p`
  sends the items, whatever the outcomes; `items n` are those of its first `n`
  rounds.
* `Plays.prefix_iff`: the same of the run of a process.
-/
namespace Mefsc

variable {σ ρ α β γ : Type}

/-! ## Outcomes -/

/-- How many of `n` bytes the next send takes. -/
def accepts : List (Option Nat) → Nat → Nat
  | [], n => n
  | none :: _, _ => 0
  | some m :: _, n => min m n

/-- The next `n` sends take nothing. -/
def Refused : List (Option Nat) → Nat → Prop
  | _, 0 => True
  | [], _ + 1 => False
  | x :: os, n + 1 => (x = none ∨ x = some 0) ∧ Refused os n

theorem accepts_le (os : List (Option Nat)) (n : Nat) : accepts os n ≤ n := by
  unfold accepts
  split <;> omega

structure Item (ρ : Type) where
  role : ρ
  first : Bytes
  more : Bytes
  first_ne : first ≠ []

namespace Item

def all (it : Item ρ) : Bytes := it.first ++ it.more

/-- What the connection takes of an item. -/
def put (os : List (Option Nat)) (it : Item ρ) : Bytes :=
  if accepts os it.first.length = it.first.length then it.first ++ it.more.take (accepts os.tail it.more.length)
  else it.first.take (accepts os it.first.length)

/-- The outcomes of the sends behind it. -/
def left (os : List (Option Nat)) (it : Item ρ) : List (Option Nat) :=
  if accepts os it.first.length = it.first.length ∧ it.more ≠ [] then os.tail.tail else os.tail

def Whole (os : List (Option Nat)) (it : Item ρ) : Prop :=
  accepts os it.first.length = it.first.length ∧ accepts os.tail it.more.length = it.more.length

instance (os : List (Option Nat)) (it : Item ρ) : Decidable (it.Whole os) := instDecidableAnd

/-- The bytes of an item, with its role. -/
def mark (it : Item ρ) (b : Bytes) : List (ρ × UInt8) := b.map (it.role, ·)

end Item

/-- What the connection takes of the items. -/
def puts : List (Option Nat) → List (Item ρ) → List (ρ × UInt8)
  | _, [] => []
  | os, it :: its => it.mark (it.put os) ++ puts (it.left os) its

/-- The outcomes behind the items. -/
def behind : List (Option Nat) → List (Item ρ) → List (Option Nat)
  | os, [] => os
  | os, it :: its => behind (it.left os) its

/-- Behind the first item that is cut no send takes a byte. -/
def Clean : List (Option Nat) → List (Item ρ) → Prop
  | _, [] => True
  | os, it :: its => if it.Whole os then Clean (it.left os) its else Refused (it.left os) its.length

theorem puts_append (os : List (Option Nat)) (a b : List (Item ρ)) :
    puts os (a ++ b) = puts os a ++ puts (behind os a) b := by
  induction a generalizing os with
  | nil => rfl
  | cons it a ih =>
    simp only [List.cons_append, puts, behind, ih, List.append_assoc]

theorem behind_append (os : List (Option Nat)) (a b : List (Item ρ)) :
    behind os (a ++ b) = behind (behind os a) b := by
  induction a generalizing os with
  | nil => rfl
  | cons it a ih => exact ih _

/-! ## What is taken of an item -/

namespace Item

variable {os : List (Option Nat)} {it : Item ρ}

theorem length_pos (it : Item ρ) : 0 < it.first.length := List.length_pos_of_ne_nil it.first_ne

theorem put_whole (h : it.Whole os) : it.put os = it.all := by
  unfold put all
  rw [if_pos h.1, h.2, List.take_length]

/-- Of an item that is cut the bytes in front of the cut are taken. -/
theorem put_cut (h : ¬ it.Whole os) : ∃ x c, it.all = it.put os ++ x :: c := by
  have key : it.put os <+: it.all ∧ (it.put os).length < it.all.length := by
    unfold put all
    split
    · rename_i hf
      have hm : accepts os.tail it.more.length ≠ it.more.length := fun hm => h ⟨hf, hm⟩
      have hle := accepts_le os.tail it.more.length
      refine ⟨(List.prefix_append_right_inj _).mpr (List.take_prefix _ _), ?_⟩
      rw [List.length_append, List.length_append, List.length_take]
      omega
    · rename_i hf
      have hle := accepts_le os it.first.length
      refine ⟨(List.take_prefix _ _).trans (List.prefix_append _ _), ?_⟩
      rw [List.length_append, List.length_take]
      omega
  obtain ⟨⟨c, hc⟩, hlen⟩ := key
  cases c with
  | nil =>
    rw [← hc] at hlen
    simp at hlen
  | cons x c => exact ⟨x, c, hc.symm⟩

theorem put_prefix (os : List (Option Nat)) (it : Item ρ) : it.put os <+: it.all := by
  by_cases h : it.Whole os
  · exact ⟨[], by rw [put_whole h, List.append_nil]⟩
  · obtain ⟨x, c, hc⟩ := put_cut h
    exact ⟨x :: c, hc.symm⟩

theorem put_eq_nil : it.put os = [] ↔ accepts os it.first.length = 0 := by
  have hpos := it.length_pos
  unfold put
  split
  · rename_i hf
    rw [List.append_eq_nil_iff]
    exact ⟨fun h => absurd h.1 it.first_ne, fun h => by omega⟩
  · rw [List.take_eq_nil_iff]
    exact ⟨fun h => h.elim id fun hn => absurd hn it.first_ne, .inl⟩

theorem left_of_put_nil (h : it.put os = []) : it.left os = os.tail := by
  have hpos := it.length_pos
  have h0 := put_eq_nil.mp h
  unfold left
  rw [if_neg (by omega)]

@[simp] theorem mark_append (it : Item ρ) (a b : Bytes) : it.mark (a ++ b) = it.mark a ++ it.mark b :=
  List.map_append

theorem mark_eq_nil {b : Bytes} : it.mark b = [] ↔ b = [] := List.map_eq_nil_iff

end Item

theorem puts_eq_nil {os : List (Option Nat)} {its : List (Item ρ)} :
    puts os its = [] ↔ Refused os its.length := by
  induction its generalizing os with
  | nil => simp [puts, Refused]
  | cons it its ih =>
    have hpos := it.length_pos
    have hput : puts os (it :: its) = [] ↔ accepts os it.first.length = 0 ∧ puts os.tail its = [] := by
      rw [puts, List.append_eq_nil_iff, Item.mark_eq_nil, ← Item.put_eq_nil]
      exact ⟨fun ⟨h1, h2⟩ => ⟨h1, Item.left_of_put_nil h1 ▸ h2⟩,
        fun ⟨h1, h2⟩ => ⟨h1, (Item.left_of_put_nil h1).symm ▸ h2⟩⟩
    rw [hput, ih]
    match os with
    | [] => exact ⟨fun h => by simp only [accepts] at h; omega, fun h => h.elim⟩
    | none :: os => exact ⟨fun h => ⟨.inl rfl, h.2⟩, fun h => ⟨rfl, h.2⟩⟩
    | some m :: os =>
      have hm : accepts (some m :: os) it.first.length = 0 ↔ (some m = none ∨ some m = some 0) := by
        simp only [accepts, reduceCtorEq, false_or, Option.some.injEq]
        omega
      rw [hm]
      exact Iff.rfl

theorem mem_puts {os : List (Option Nat)} {its : List (Item ρ)} {x : ρ × UInt8} (h : x ∈ puts os its) :
    ∃ it ∈ its, it.role = x.1 := by
  induction its generalizing os with
  | nil => cases h
  | cons it its ih =>
    rcases List.mem_append.mp h with h | h
    · obtain ⟨b, -, rfl⟩ := List.mem_map.mp h
      exact ⟨it, List.mem_cons_self, rfl⟩
    · obtain ⟨jt, hj, hr⟩ := ih h
      exact ⟨jt, List.mem_cons_of_mem _ hj, hr⟩

theorem put_full (it : Item ρ) : it.put [] = it.all := Item.put_whole ⟨rfl, rfl⟩

theorem left_full (it : Item ρ) : it.left [] = [] := by
  unfold Item.left
  split <;> rfl

theorem length_puts_le (os : List (Option Nat)) (its : List (Item ρ)) :
    (puts os its).length ≤ (puts [] its).length := by
  induction its generalizing os with
  | nil => exact Nat.le_refl _
  | cons it its ih =>
    have h1 := (it.put_prefix os).length_le
    have h2 := ih (it.left os)
    simp only [puts, put_full, left_full, Item.mark, List.length_append, List.length_map]
    omega

/-- When no two items have one role, the roles of the bytes tell an item that
was cut from the one behind it. -/
theorem roles_prefix_clean {os : List (Option Nat)} {its : List (Item ρ)} (hn : (its.map Item.role).Nodup)
    (h : (puts os its).map Prod.fst <+: (puts [] its).map Prod.fst) : Clean os its := by
  induction its generalizing os with
  | nil => trivial
  | cons it its ih =>
    obtain ⟨hnot, hn⟩ := List.nodup_cons.mp hn
    unfold Clean
    simp only [puts, put_full, left_full] at h
    split
    · rename_i hw
      rw [Item.put_whole hw, List.map_append, List.map_append, List.prefix_append_right_inj] at h
      exact ih hn h
    · rename_i hw
      obtain ⟨x, c, hc⟩ := Item.put_cut hw
      rw [hc, Item.mark_append, List.map_append, List.map_append, List.map_append, List.append_assoc,
        List.prefix_append_right_inj] at h
      rw [← puts_eq_nil]
      -- the next byte on the connection would have to be one of `it`
      cases hp : puts (it.left os) its with
      | nil => rfl
      | cons y ys =>
        obtain ⟨jt, hj, hr⟩ := mem_puts (x := y) (by rw [hp]; exact List.mem_cons_self)
        rw [hp] at h
        have hrole : y.1 = it.role := (List.cons_prefix_cons.mp h).1
        exact absurd (List.mem_map.mpr ⟨jt, hj, hr.trans hrole⟩) hnot

theorem clean_prefix {os : List (Option Nat)} {its : List (Item ρ)} (h : Clean os its) :
    puts os its <+: puts [] its := by
  induction its generalizing os with
  | nil => exact List.prefix_refl _
  | cons it its ih =>
    unfold Clean at h
    simp only [puts, put_full, left_full]
    split at h
    · rename_i hw
      rw [Item.put_whole hw, List.prefix_append_right_inj]
      exact ih h
    · obtain ⟨c, hc⟩ := it.put_prefix os
      rw [puts_eq_nil.mpr h, List.append_nil, ← hc, Item.mark_append, List.append_assoc]
      exact List.prefix_append _ _

/-! ## Histories -/

/-- The bytes sent in a history, each with its role. -/
def labelled : List (Ev ρ) → List (ρ × UInt8)
  | [] => []
  | .snd r b :: es => b.map (r, ·) ++ labelled es
  | .rcv _ _ :: es => labelled es

@[simp] theorem labelled_append (x y : List (Ev ρ)) : labelled (x ++ y) = labelled x ++ labelled y := by
  induction x with
  | nil => rfl
  | cons e x ih => cases e <;> simp [labelled, ih]

theorem labelled_map_snd (h : List (Ev ρ)) : (labelled h).map Prod.snd = sent h := by
  induction h with
  | nil => rfl
  | cons e h ih => cases e <;> simp [labelled, sent, ih, Function.comp_def]

theorem labelled_map_fst (h : List (Ev ρ)) : (labelled h).map Prod.fst = stags h := by
  induction h with
  | nil => rfl
  | cons e h ih => cases e <;> simp [labelled, stags, ih, Function.comp_def, List.map_const']

theorem send_labelled (w : World σ ρ) (r : ρ) (b : Bytes) :
    labelled (w.send r b).2.hist = labelled w.hist ++ (b.take (accepts w.outcomes b.length)).map (r, ·) := by
  obtain ⟨st, inp, e, h, os⟩ := w
  match os with
  | [] => simp [World.send, labelled, accepts]
  | none :: os => simp [World.send, accepts]
  | some m :: os => simp [World.send, labelled, accepts, List.take_eq_take_iff]

theorem send_outcomes (w : World σ ρ) (r : ρ) (b : Bytes) : (w.send r b).2.outcomes = w.outcomes.drop 1 := by
  unfold World.send
  split <;> rename_i hos <;> simp [hos]

/-- A send that is taken whole says so. -/
theorem send_whole (w : World σ ρ) (r : ρ) {b : Bytes} (hb : b ≠ []) (h : accepts w.outcomes b.length = b.length) :
    (w.send r b).1 = some b.length := by
  have hpos := List.length_pos_of_ne_nil hb
  unfold World.send
  unfold accepts at h
  split at h
  · rename_i hos
    rw [hos]
  · omega
  · rename_i m os hos
    rw [hos]
    simp only [h]

/-- A send on any outcomes. -/
theorem send_cut (s : σ) (inp : Bytes) (e : Bool) (h : List (Ev ρ)) (os : List (Option Nat)) (r : ρ) (b : Bytes) :
    ∃ x h', World.send ⟨s, inp, e, h, os⟩ r b = (x, ⟨s, inp, e, h', os.tail⟩) ∧
      labelled h' = labelled h ++ (b.take (accepts os b.length)).map (r, ·) ∧
      (b ≠ [] → (x = some b.length ↔ accepts os b.length = b.length)) := by
  have hl := send_labelled ⟨s, inp, e, h, os⟩ r b
  match os with
  | [] => exact ⟨_, _, rfl, hl, fun _ => ⟨fun _ => rfl, fun _ => rfl⟩⟩
  | none :: os =>
    refine ⟨_, _, rfl, hl, fun hb => ?_⟩
    have hpos := List.length_pos_of_ne_nil hb
    simp only [accepts, reduceCtorEq, false_iff]
    omega
  | some m :: os => exact ⟨_, _, rfl, hl, fun _ => by rw [Option.some.injEq]; exact Iff.rfl⟩

namespace Proc

/-! ## Two moments of a run -/

theorem goes_next {n : Nat} {p q : Proc σ ρ α} {w v : World σ ρ} {o : List (ρ × Bytes)}
    (h : Goes n p w o q v) (hp : p.next w = none) : n = 0 := by
  cases h with
  | refl => rfl
  | head hn _ => rw [hp] at hn; cases hn

/-- Of two moments of a run the later one is reached from the earlier. -/
theorem Goes.later {n m : Nat} {p q q' : Proc σ ρ α} {w v v' : World σ ρ} {o o' : List (ρ × Bytes)}
    (h1 : Goes n p w o q v) (h2 : Goes m p w o' q' v') (hnm : n ≤ m) : ∃ o2, Goes (m - n) q v o2 q' v' := by
  induction h1 generalizing m o' with
  | refl => exact ⟨o', h2⟩
  | head hn _ ih =>
    cases h2 with
    | refl => omega
    | head hn' t' =>
      rw [hn] at hn'
      simp only [Option.some.injEq, Prod.mk.injEq] at hn'
      obtain ⟨rfl, rfl, -⟩ := hn'
      obtain ⟨o2, h⟩ := ih t' (by omega)
      rw [Nat.add_sub_add_right]
      exact ⟨o2, h⟩

theorem next_labelled {p q : Proc σ ρ α} {w v : World σ ρ} {o : List (ρ × Bytes)}
    (h : p.next w = some (q, v, o)) : labelled w.hist <+: labelled v.hist := by
  cases p with
  | ret a => simp [next] at h
  | recv r n k =>
    simp only [next, Option.map_eq_some_iff, Prod.mk.injEq] at h
    obtain ⟨x, hx, rfl, rfl, rfl⟩ := h
    unfold World.recv at hx
    split at hx
    · cases hx
      simp
    · split at hx
      · cases hx
        simp
      · cases hx
  | send r b k =>
    simp only [next, Option.some.injEq, Prod.mk.injEq] at h
    obtain ⟨rfl, rfl, rfl⟩ := h
    rw [send_labelled]
    exact List.prefix_append _ _
  | act g k =>
    simp only [next, Option.some.injEq, Prod.mk.injEq] at h
    obtain ⟨rfl, rfl, rfl⟩ := h
    exact List.prefix_refl _
  | iter body g k =>
    simp only [next, Option.some.injEq, Prod.mk.injEq] at h
    obtain ⟨rfl, rfl, rfl⟩ := h
    exact List.prefix_refl _

theorem Goes.labelled_prefix {n : Nat} {p q : Proc σ ρ α} {w v : World σ ρ} {o : List (ρ × Bytes)}
    (h : Goes n p w o q v) : labelled w.hist <+: labelled v.hist := by
  induction h with
  | refl => exact List.prefix_refl _
  | head hn _ ih => exact (next_labelled hn).trans ih

theorem Goes.labelled_total {n m : Nat} {p q q' : Proc σ ρ α} {w v v' : World σ ρ} {o o' : List (ρ × Bytes)}
    (h1 : Goes n p w o q v) (h2 : Goes m p w o' q' v') :
    labelled v.hist <+: labelled v'.hist ∨ labelled v'.hist <+: labelled v.hist := by
  rcases Nat.le_total n m with hnm | hnm
  · obtain ⟨o2, h⟩ := h1.later h2 hnm
    exact .inl h.labelled_prefix
  · obtain ⟨o2, h⟩ := h2.later h1 hnm
    exact .inr h.labelled_prefix

/-- What a run that ends has sent begins with what was sent at any moment of it. -/
theorem Runs.sent_prefix {n : Nat} {p q : Proc σ ρ α} {w v v' : World σ ρ} {o : List (ρ × Bytes)} {a : α}
    (hr : Runs p w a v) (h : Goes n p w o q v') : sent v'.hist <+: sent v.hist := by
  obtain ⟨m, o', hg⟩ := hr.goes
  simp only [← labelled_map_snd]
  rcases Nat.le_total n m with hnm | hnm
  · obtain ⟨o2, h2⟩ := h.later hg hnm
    exact h2.labelled_prefix.map Prod.snd
  · obtain ⟨o2, h2⟩ := hg.later h hnm
    obtain ⟨-, -, -, rfl⟩ := goes_ret h2
    exact List.prefix_refl _

/-! ## Sending items -/

def sendItem (it : Item ρ) : Proc σ ρ Unit := do
  let x ← sendB it.role it.first
  if x = some it.first.length ∧ it.more ≠ [] then
    let _ ← sendB it.role it.more
    return ()
  else return ()

/-- From the state `s`, with `inp` to come, `p` sends the items and returns. -/
def Sends (p : Proc σ ρ α) (s : σ) (inp : Bytes) (e : Bool) (its : List (Item ρ)) (a : α) (s' : σ)
    (inp' : Bytes) : Prop :=
  ∀ h os, ∃ o h', Offers p ⟨s, inp, e, h, os⟩ o a ⟨s', inp', e, h', behind os its⟩ ∧
    labelled h' = labelled h ++ puts os its

theorem sends_item (it : Item ρ) (s : σ) (inp : Bytes) (e : Bool) :
    Sends (sendItem it) s inp e [it] () s inp := by
  intro h os
  obtain ⟨x, h1, hs, hl, hx⟩ := send_cut s inp e h os it.role it.first
  have hx := hx it.first_ne
  have o1 := offers_sendB it.role it.first ⟨s, inp, e, h, os⟩
  rw [hs] at o1
  unfold sendItem
  by_cases hc : x = some it.first.length ∧ it.more ≠ []
  · obtain ⟨y, h2, hs2, hl2, -⟩ := send_cut s inp e h1 os.tail it.role it.more
    have o2 := offers_sendB it.role it.more ⟨s, inp, e, h1, os.tail⟩
    rw [hs2] at o2
    have hw := hx.mp hc.1
    have hb : behind os [it] = os.tail.tail := if_pos ⟨hw, hc.2⟩
    refine ⟨[(it.role, it.first)] ++ ([(it.role, it.more)] ++ []), h2, o1.bind ?_, ?_⟩
    · rw [if_pos hc, hb]
      exact o2.bind (offers_pure _ _)
    · rw [hl2, hl, hw, List.take_length, puts, puts, List.append_nil, Item.put, if_pos hw, Item.mark_append,
        List.append_assoc]
      rfl
  · have hb : behind os [it] = os.tail := if_neg fun h => hc ⟨hx.mpr h.1, h.2⟩
    refine ⟨[(it.role, it.first)] ++ [], h1, o1.bind ?_, ?_⟩
    · rw [if_neg hc, hb]
      exact offers_pure _ _
    · have hput : it.put os = it.first.take (accepts os it.first.length) := by
        unfold Item.put
        split
        · rename_i hw
          have hm : it.more = [] := Classical.byContradiction fun hm => hc ⟨hx.mpr hw, hm⟩
          rw [hw, hm, List.take_nil, List.append_nil, List.take_length]
        · rfl
      rw [hl, puts, puts, List.append_nil, hput]
      rfl

section
variable {p : Proc σ ρ α} {f : α → Proc σ ρ β} {s s1 s' : σ} {inp inp1 inp' : Bytes} {e : Bool}
  {its its' : List (Item ρ)} {a : α} {b : β}

theorem sends_pure (a : α) (s : σ) (inp : Bytes) (e : Bool) : Sends (Pure.pure a : Proc σ ρ α) s inp e [] a s inp :=
  fun h _ => ⟨[], h, offers_pure _ _, (List.append_nil _).symm⟩

theorem sends_modifyGet (g : σ → β × σ) (s : σ) (inp : Bytes) (e : Bool) :
    Sends (modifyGet g : Proc σ ρ β) s inp e [] (g s).1 (g s).2 inp :=
  fun h _ => ⟨[], h, offers_modifyGet _ _, (List.append_nil _).symm⟩

theorem Sends.bind (h1 : Sends p s inp e its a s1 inp1) (h2 : Sends (f a) s1 inp1 e its' b s' inp') :
    Sends (p >>= f) s inp e (its ++ its') b s' inp' := by
  intro h os
  obtain ⟨o, h', ho, hl⟩ := h1 h os
  obtain ⟨o2, h2', ho2, hl2⟩ := h2 h' (behind os its)
  refine ⟨o ++ o2, h2', ?_, ?_⟩
  · rw [behind_append]
    exact ho.bind ho2
  · rw [hl2, hl, puts_append, List.append_assoc]

end

/-! ## Processes that play -/

/-- From the state `s`, with `inp` to come, the process sends the items, whatever
the outcomes; `items n` are sent when it has made `n` operations, or as many as
it can. -/
def Plays (p : Proc σ ρ α) (s : σ) (inp : Bytes) (e : Bool) (items : Nat → List (Item ρ)) : Prop :=
  ∀ n h os, ∃ k o q v, Goes k p ⟨s, inp, e, h, os⟩ o q v ∧ labelled v.hist = labelled h ++ puts os (items n) ∧
    (n ≤ k ∨ q.next v = none)

section
variable {p : Proc σ ρ α} {f : α → Proc σ ρ β} {s s1 s' : σ} {inp inp1 inp' : Bytes} {e : Bool}
  {its : List (Item ρ)} {items : Nat → List (Item ρ)} {a : α}

theorem Sends.plays (h : Sends p s inp e its a s' inp') : Plays p s inp e fun _ => its := by
  intro n h0 os
  obtain ⟨o, h', ⟨k, hg⟩, hl⟩ := h h0 os
  exact ⟨k, o, _, _, hg, hl, .inr rfl⟩

theorem Sends.plays_bind (h1 : Sends p s inp e its a s1 inp1) (h2 : Plays (f a) s1 inp1 e items) :
    Plays (p >>= f) s inp e fun n => its ++ items n := by
  intro n h os
  obtain ⟨o, h', ⟨k1, hg1⟩, hl⟩ := h1 h os
  obtain ⟨k, o2, q, v, hg, hl2, hn⟩ := h2 n h' (behind os its)
  refine ⟨k1 + k, _, q, v, (hg1.bind f).trans hg, ?_, ?_⟩
  · rw [hl2, hl, puts_append, List.append_assoc]
  · exact hn.imp (fun h => by omega) id

/-- What comes behind a process that plays sends nothing. -/
theorem Plays.bind_pure (h : Plays p s inp e items) (g : α → β) :
    Plays (p >>= fun a => Pure.pure (g a)) s inp e items := by
  intro n h0 os
  obtain ⟨k, o, q, v, hg, hl, hn⟩ := h n h0 os
  refine ⟨k, o, _, v, hg.bind _, hl, hn.imp id fun hq => ?_⟩
  cases q with
  | ret a => rfl
  | recv r m k =>
    simp only [next, Option.map_eq_none_iff] at hq
    simp [Proc.bind, next, hq]
  | _ => cases hq

end

/-- It comes to a receive for which the bytes are not there. -/
def Stuck (p : Proc σ ρ α) (s : σ) (inp : Bytes) (e : Bool) : Prop :=
  ∀ h os, ∃ k o r m f v, Goes k p ⟨s, inp, e, h, os⟩ o (.recv r m f) v ∧ labelled v.hist = labelled h ∧
    v.recv r m = none

theorem Stuck.plays_bind {p : Proc σ ρ α} {s : σ} {inp : Bytes} {e : Bool} (h : Stuck p s inp e)
    (f : α → Proc σ ρ β) : Plays (p >>= f) s inp e fun _ => [] := by
  intro n h0 os
  obtain ⟨k, o, r, m, g, v, hg, hl, hr⟩ := h h0 os
  refine ⟨k, o, _, v, hg.bind f, by rw [hl]; exact (List.append_nil _).symm, .inr ?_⟩
  simp [Proc.bind, next, hr]

theorem Stuck.not_runs {p : Proc σ ρ α} {w w' : World σ ρ} {a : α} (h : Stuck p w.st w.inp w.eof)
    (hr : Runs p w a w') : False := by
  obtain ⟨k, o, r, m, g, v, hg, -, hv⟩ := h w.hist w.outcomes
  obtain ⟨n, o', hn⟩ := hr.goes
  rcases Nat.le_total k n with hkn | hkn
  · obtain ⟨o2, h2⟩ := hg.later hn hkn
    have hz := goes_next h2 (by simp [next, hv])
    rw [hz] at h2
    cases h2
  · obtain ⟨o2, h2⟩ := hn.later hg hkn
    obtain ⟨-, -, hq, -⟩ := goes_ret h2
    cases hq

section
variable {s s' : σ} {inp inp1 inp' : Bytes} {e : Bool} {r : ρ} {n : Nat} {k : Option Bytes → Proc σ ρ α}
  {x : Option Bytes}
  (hx : ∀ h os, World.recv ⟨s, inp, e, h, os⟩ r n = some (x, ⟨s, inp1, e, h ++ [.rcv r x], os⟩))

include hx in
theorem Sends.recv {its : List (Item ρ)} {a : α} (hk : Sends (k x) s inp1 e its a s' inp') :
    Sends (.recv r n k) s inp e its a s' inp' := by
  intro h os
  obtain ⟨o, h', ⟨m, hg⟩, hl⟩ := hk (h ++ [.rcv r x]) os
  refine ⟨[] ++ o, h', ⟨m + 1, .head (by rw [next, hx]; rfl) hg⟩, ?_⟩
  rw [hl]
  simp [labelled]

include hx in
theorem Stuck.recv (hk : Stuck (k x) s inp1 e) : Stuck (.recv r n k) s inp e := by
  intro h os
  obtain ⟨m, o, r', n', f, v, hg, hl, hv⟩ := hk (h ++ [.rcv r x]) os
  refine ⟨m + 1, [] ++ o, r', n', f, v, .head (by rw [next, hx]; rfl) hg, ?_, hv⟩
  rw [hl]
  simp [labelled]

end

/-- The items of the first rounds of a loop, from what a round sends. -/
def rounds (f : γ → σ → List (Item ρ) × (γ ⊕ β) × σ) : Nat → γ → σ → List (Item ρ)
  | 0, _, _ => []
  | n + 1, g, s =>
    (f g s).1 ++
      match (f g s).2.1 with
      | .inl g' => rounds f n g' (f g s).2.2
      | .inr _ => []

theorem plays_loop {body : γ → Proc σ ρ (γ ⊕ β)} {f : γ → σ → List (Item ρ) × (γ ⊕ β) × σ} {inp : Bytes}
    {e : Bool} (hb : ∀ g s, Sends (body g) s inp e (f g s).1 (f g s).2.1 (f g s).2.2 inp) (g : γ) (s : σ) :
    Plays (loop body g) s inp e fun n => rounds f n g s := by
  intro n
  induction n generalizing g s with
  | zero => exact fun h os => ⟨0, [], _, _, .refl _ _, (List.append_nil _).symm, .inl (Nat.le_refl _)⟩
  | succ n ih =>
    intro h os
    obtain ⟨o, h', ⟨k1, hg1⟩, hl⟩ := hb g s h os
    have hround := Goes.head (p := loop body g) rfl (hg1.bind _)
    simp only [rounds]
    cases hx : (f g s).2.1 with
    | inl g' =>
      rw [hx] at hround
      obtain ⟨k, o2, q, v, hg, hl2, hn⟩ := ih g' (f g s).2.2 h' (behind os (f g s).1)
      refine ⟨k1 + 1 + k, _, q, v, hround.trans hg, ?_, hn.imp (fun h => by omega) id⟩
      rw [hl2, hl, puts_append, List.append_assoc]
    | inr b =>
      rw [hx] at hround
      exact ⟨k1 + 1, _, _, _, hround, by rw [List.append_nil]; exact hl, .inr rfl⟩

/-! ## The prefix -/

/-- What is on the connection, at any moment, is a prefix of what would be there
with full sends, and no byte stands in the place of one of another item. -/
def PrefixOfFull (p : Proc σ ρ α) (w : World σ ρ) : Prop :=
  ∀ n o q v, Goes n p w o q v → ∃ n' o' q' v', Goes n' p { w with outcomes := [] } o' q' v' ∧
    sent v.hist <+: sent v'.hist ∧ stags v.hist <+: stags v'.hist

theorem Plays.prefix_iff {p : Proc σ ρ α} {w : World σ ρ} {items : Nat → List (Item ρ)}
    (h : Plays p w.st w.inp w.eof items) (hn : ∀ n, ((items n).map Item.role).Nodup) :
    PrefixOfFull p w ↔ ∀ n, Clean w.outcomes (items n) := by
  obtain ⟨s, inp, e, h0, os⟩ := w
  constructor
  · intro hp n
    obtain ⟨k, o, q, v, hg, hl, -⟩ := h n h0 os
    obtain ⟨k', o', q', v', hg', -, ht⟩ := hp k o q v hg
    obtain ⟨m, o2, q2, v2, hg2, hl2, -⟩ := h n h0 []
    have hlen := length_puts_le os (items n)
    -- both are on the connection in the run with full sends
    have hpre : stags v.hist <+: stags v2.hist := by
      simp only [← labelled_map_fst] at ht ⊢
      rcases hg'.labelled_total hg2 with hle | hle
      · exact ht.trans (hle.map Prod.fst)
      · refine List.prefix_of_prefix_length_le ht (hle.map Prod.fst) ?_
        rw [hl, hl2]
        simp only [List.length_map, List.length_append]
        omega
    simp only [← labelled_map_fst, hl, hl2, List.map_append, List.prefix_append_right_inj] at hpre
    exact roles_prefix_clean (hn n) hpre
  · intro hc n o q v hg
    obtain ⟨k, o1, q1, v1, hg1, hl1, hk⟩ := h n h0 os
    obtain ⟨m, o2, q2, v2, hg2, hl2, -⟩ := h n h0 []
    have hv : labelled v.hist <+: labelled v1.hist := by
      rcases Nat.le_total n k with hnk | hnk
      · obtain ⟨o3, h3⟩ := hg.later hg1 hnk
        exact h3.labelled_prefix
      · obtain ⟨o3, h3⟩ := hg1.later hg hnk
        rcases hk with hk | hk
        · have hz : n - k = 0 := by omega
          rw [hz] at h3
          cases h3
          exact List.prefix_refl _
        · have hz := goes_next h3 hk
          rw [hz] at h3
          cases h3
          exact List.prefix_refl _
    have hpre : labelled v.hist <+: labelled v2.hist := by
      refine hv.trans ?_
      rw [hl1, hl2, List.prefix_append_right_inj]
      exact clean_prefix (hc n)
    refine ⟨m, o2, q2, v2, hg2, ?_, ?_⟩
    · simpa only [labelled_map_snd] using hpre.map Prod.snd
    · simpa only [labelled_map_fst] using hpre.map Prod.fst

end Proc

end Mefsc
