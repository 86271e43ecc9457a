import Mefsc.Core.Halting
import Mefsc.Core.Script
import Mefsc.Core.Stamped
import Mefsc.Core.Trace
import Mefsc.L1Encoding.SessionEnc

/-!
# What the transfers offer

The rules of `Core.Trace` for the session layer: a frame is one send, a raw blob
two of which the second depends on what became of the first, and the readers
send nothing. The rules are for invariants of what was offered and of the
process's own state.

`frameItem` and `blobItem` are the two as items of a script.
-/
namespace Mefsc.L1

open Proc SessionEncWrapper

variable {σ ρ α : Type}

/-- An invariant of what was offered and of the state. -/
def OnState (K : List (ρ × Bytes) → σ → Prop) (o : List (ρ × Bytes)) (w : World σ ρ) : Prop := K o w.st

/-- Only receives. -/
def Reads : {α : Type} → Proc σ ρ α → Prop
  | _, .ret _ => True
  | _, .recv _ _ k => ∀ o, Reads (k o)
  | _, .send _ _ _ => False
  | _, .act _ _ => False
  | _, .iter _ _ _ => False

theorem reads_ofSock (r : ρ) : Reads (ofSock r : Proc σ ρ SessionEncWrapper) := by
  intro o
  cases o with
  | none => trivial
  | some lenBytes =>
    change Reads (if _ then _ else _)
    split
    · trivial
    · intro o
      cases o with
      | none => trivial
      | some nonce =>
        intro o
        cases o <;> trivial

theorem Reads.goes {p q : Proc σ ρ α} {n : Nat} {w w' : World σ ρ} {o : List (ρ × Bytes)} (hp : Reads p)
    (h : Goes n p w o q w') : o = [] ∧ w'.st = w.st := by
  induction h with
  | refl => exact ⟨rfl, rfl⟩
  | @head _ p _ _ _ _ _ _ _ h _ ih =>
    cases p with
    | ret a => simp [next] at h
    | recv r m k =>
      simp only [next, Option.map_eq_some_iff, Prod.mk.injEq] at h
      obtain ⟨x, hx, rfl, rfl, rfl⟩ := h
      obtain ⟨rfl, hst⟩ := ih (hp x.1)
      exact ⟨rfl, hst.trans (recv_st hx)⟩
    | send r b k => exact hp.elim
    | act f k => exact hp.elim
    | iter body g k => exact hp.elim

/-- Whatever becomes of it, a frame is one send. -/
theorem sendFrame_eq (A : Aead) (r : ρ) (m tx nonce : Bytes) :
    (sendFrame A r m tx nonce : Proc σ ρ Bytes) =
      Proc.sendB r (frame A tx (sodiumIncrement nonce) m) >>= fun _ => pure (sodiumIncrement nonce) := by
  change ((Proc.sendB r (frame A tx (sodiumIncrement nonce) m)).bind _).bind _ = _
  rw [Proc.bind_assoc]
  change Proc.bind _ _ = Proc.bind _ _
  congr 1
  funext x
  cases x <;> rfl

theorem offers_sendFrame (A : Aead) (r : ρ) (m tx nonce : Bytes) (w : World σ ρ) :
    Offers (sendFrame A r m tx nonce) w [(r, frame A tx (sodiumIncrement nonce) m)] (sodiumIncrement nonce)
      (w.send r (frame A tx (sodiumIncrement nonce) m)).2 := by
  rw [sendFrame_eq]
  exact (offers_sendB _ _ _).bind (offers_pure _ _)

theorem offers_sendRawBlob (r : ρ) (b : Bytes) (w : World σ ρ) :
    ∃ o x w', Offers (sendRawBlob r b) w ((r, u64Enc b.length) :: o) x w' := by
  have h1 := offers_sendB r (u64Enc b.length) w
  unfold sendRawBlob
  by_cases h8 : (w.send r (u64Enc b.length)).1 = some 8
  · by_cases hb : b = []
    · refine ⟨[], 0, (w.send r (u64Enc b.length)).2, h1.bind ?_⟩
      rw [if_neg (by simp [h8]), if_pos hb]
      exact offers_pure _ _
    · have h2 := offers_sendB r b (w.send r (u64Enc b.length)).2
      generalize ((w.send r (u64Enc b.length)).2.send r b).2 = w2 at h2
      generalize ((w.send r (u64Enc b.length)).2.send r b).1 = x at h2
      refine ⟨[(r, b)], if x ≠ some b.length then 1 else 0, w2, h1.bind ?_⟩
      simp only [h8, ne_eq, not_true_eq_false, if_false, hb]
      refine h2.bind ?_
      split <;> exact offers_pure _ _
  · refine ⟨[], 1, (w.send r (u64Enc b.length)).2, h1.bind ?_⟩
    simp only [h8, ne_eq, not_false_eq_true, if_true]
    exact offers_pure _ _

section
variable {K : List (ρ × Bytes) → σ → Prop} {o : List (ρ × Bytes)} {w : World σ ρ}

theorem Always.sendFrame {A : Aead} {r : ρ} {m tx nonce : Bytes}
    {R : Bytes → List (ρ × Bytes) → World σ ρ → Prop} (hK : K o w.st)
    (hK' : K (o ++ [(r, frame A tx (sodiumIncrement nonce) m)]) w.st)
    (h : ∀ w', w'.st = w.st → w'.outcomes = w.outcomes.drop 1 →
      R (sodiumIncrement nonce) (o ++ [(r, frame A tx (sodiumIncrement nonce) m)]) w') :
    Always (OnState K) (sendFrame A r m tx nonce) R o w := by
  have hst := send_st w r (frame A tx (sodiumIncrement nonce) m)
  have hI : OnState K (o ++ [(r, frame A tx (sodiumIncrement nonce) m)])
      (w.send r (frame A tx (sodiumIncrement nonce) m)).2 := by
    unfold OnState
    rw [hst]
    exact hK'
  rw [sendFrame_eq]
  exact Always.bind (Always.sendB hK ⟨hI, Always.pure hI (h _ hst (send_outcomes _ _ _))⟩)

theorem Always.sendRawBlob {r : ρ} {b : Bytes} {R : Int → List (ρ × Bytes) → World σ ρ → Prop} (hK : K o w.st)
    (h1 : K (o ++ [(r, u64Enc b.length)]) w.st)
    (h2 : K (o ++ [(r, u64Enc b.length)] ++ [(r, b)]) w.st)
    (hR1 : ∀ v w', w'.st = w.st → w'.outcomes = w.outcomes.drop 1 → (accepts w.outcomes 8 = 8 → b = []) →
      R v (o ++ [(r, u64Enc b.length)]) w')
    (hR2 : ∀ v w', w'.st = w.st → w'.outcomes = w.outcomes.drop 2 →
      R v (o ++ [(r, u64Enc b.length)] ++ [(r, b)]) w') :
    Always (OnState K) (sendRawBlob r b) R o w := by
  have hst := send_st w r (u64Enc b.length)
  have hos := send_outcomes w r (u64Enc b.length)
  have hI : OnState K (o ++ [(r, u64Enc b.length)]) (w.send r (u64Enc b.length)).2 := by
    unfold OnState
    rw [hst]
    exact h1
  refine Always.bind (Always.sendB hK ⟨hI, ?_⟩)
  refine Always.ite (fun hcut => Always.pure hI (hR1 _ _ hst hos fun hw => ?_)) fun _ => ?_
  · have hlen : (u64Enc b.length).length = 8 := u64Enc_length _
    have hne : u64Enc b.length ≠ [] := List.ne_nil_of_length_pos (by rw [hlen]; decide)
    have hs := send_whole w r hne (by rw [hlen, hw])
    rw [hlen] at hs
    exact absurd hs hcut
  refine Always.ite (fun hb => Always.pure hI (hR1 _ _ hst hos fun _ => hb)) fun _ => ?_
  generalize hw1 : (w.send r (u64Enc b.length)).2 = w1 at hst hos hI
  have hst2 : (w1.send r b).2.st = w.st := (send_st w1 r b).trans hst
  have hI2 : OnState K (o ++ [(r, u64Enc b.length)] ++ [(r, b)]) (w1.send r b).2 := by
    unfold OnState
    rw [hst2]
    exact h2
  have hos2 : (w1.send r b).2.outcomes = w.outcomes.drop 2 := by rw [send_outcomes, hos, List.drop_drop]
  refine Always.bind (Always.sendB hI ⟨hI2, ?_⟩)
  exact Always.ite (fun _ => Always.pure hI2 (hR2 _ _ hst2 hos2)) fun _ => Always.pure hI2 (hR2 _ _ hst2 hos2)

/-- On an invariant of the state, an operation on the state. -/
theorem Always.act {β : Type} {f : σ → β × σ} {R : β → List (ρ × Bytes) → World σ ρ → Prop} (hK : K o w.st)
    (hK' : K o (f w.st).2) (h : R (f w.st).1 o { w with st := (f w.st).2 }) :
    Always (OnState K) (modifyGet f) R o w := Always.modifyGet hK ⟨hK', h⟩

theorem Always.modify {f : σ → σ} {R : Unit → List (ρ × Bytes) → World σ ρ → Prop} (hK : K o w.st)
    (hK' : K o (f w.st)) (h : R () o { w with st := f w.st }) : Always (OnState K) (Proc.modify f) R o w :=
  Always.modifyGet hK ⟨hK', h⟩

theorem Always.read {β : Type} {f : σ → β} {R : β → List (ρ × Bytes) → World σ ρ → Prop} (hK : K o w.st)
    (h : R (f w.st) o w) : Always (OnState K) (Proc.read f) R o w := Always.modifyGet hK ⟨hK, h⟩

end

/-! ## In relations along a run -/

section
variable {τ : Type} {f : σ → τ} {R I : σ → List (τ × ρ × Bytes) → σ → Prop} (hL : Law R I)

include hL in
theorem Law.ofSock (r : ρ) : Sums f R I (SessionEncWrapper.ofSock r : Proc σ ρ SessionEncWrapper) := by
  refine hL.bind (hL.recvN r 8) fun o => ?_
  cases o with
  | none => exact hL.pure _
  | some lenBytes =>
    dsimp only
    split
    · exact hL.pure _
    refine hL.bind (hL.recvN r _) fun o => ?_
    cases o with
    | none => exact hL.pure _
    | some nonce =>
      refine hL.bind (hL.recvN r _) fun o => ?_
      cases o <;> exact hL.pure _

include hL in
theorem Law.recvRawBlob (r : ρ) (cap : Nat) : Sums f R I (L1.recvRawBlob r cap : Proc σ ρ (Option Bytes)) := by
  refine hL.bind (hL.recvN r 8) fun o => ?_
  cases o with
  | none => exact hL.pure _
  | some nBytes =>
    dsimp only
    split
    · exact hL.pure _
    split
    · exact hL.pure _
    · exact hL.recvN r _

end

/-! ## As items -/

theorem u64Enc_ne (n : Nat) : u64Enc n ≠ [] := by
  intro h
  have := u64Enc_length n
  rw [h] at this
  cases this

theorem frame_ne (A : Aead) (tx n m : Bytes) : frame A tx n m ≠ [] := by
  unfold frame
  rw [List.append_assoc]
  exact fun h => u64Enc_ne _ (List.append_eq_nil_iff.mp h).1

theorem frame_inj {A : Aead} {tx n n' m m' : Bytes} (hn : n.length = 8) (hn' : n'.length = 8)
    (h : frame A tx n m = frame A tx n' m') : n = n' ∧ m = m' := by
  obtain ⟨h1, h2⟩ := List.append_inj h (by simp [hn, hn'])
  obtain ⟨-, rfl⟩ := List.append_inj h1 (by simp)
  have hd := A.decrypt_encrypt tx n m
  rw [h2, A.decrypt_encrypt] at hd
  exact ⟨rfl, (Option.some.inj hd).symm⟩

def frameItem (A : Aead) (r : ρ) (m tx nonce : Bytes) : Item ρ :=
  ⟨r, frame A tx (sodiumIncrement nonce) m, [], frame_ne A tx (sodiumIncrement nonce) m⟩

def blobItem (r : ρ) (b : Bytes) : Item ρ := ⟨r, u64Enc b.length, b, u64Enc_ne b.length⟩

section
variable {s s' : σ} {inp inp' : Bytes} {e : Bool} {its : List (Item ρ)} {a : α}

theorem sends_sendFrame (A : Aead) (r : ρ) (m tx nonce : Bytes) (s : σ) (inp : Bytes) (e : Bool) :
    Sends (sendFrame A r m tx nonce) s inp e [frameItem A r m tx nonce] (sodiumIncrement nonce) s inp := by
  have heq : (sendFrame A r m tx nonce : Proc σ ρ Bytes) =
      sendItem (frameItem A r m tx nonce) >>= fun _ => pure (sodiumIncrement nonce) := by
    rw [sendFrame_eq, sendItem, LawfulMonad.bind_assoc]
    congr 1
    funext x
    rw [if_neg fun h => h.2 rfl]
    rfl
  rw [heq]
  exact (sends_item _ s inp e).bind (sends_pure _ _ _ _)

/-- A blob, when nothing looks at what became of it. -/
theorem Sends.blob {r : ρ} {b : Bytes} {k : Proc σ ρ α} (hk : Sends k s inp e its a s' inp') :
    Sends (sendRawBlob r b >>= fun _ => k) s inp e (blobItem r b :: its) a s' inp' := by
  have heq : (sendRawBlob r b >>= fun _ => k) = sendItem (blobItem r b) >>= fun _ => k := by
    rw [sendRawBlob, sendItem, LawfulMonad.bind_assoc, LawfulMonad.bind_assoc]
    congr 1
    funext x
    simp only [blobItem, u64Enc_length]
    by_cases h8 : x = some 8
    · by_cases hb : b = []
      · simp [h8, hb]
      · simp only [h8, ne_eq, not_true_eq_false, if_false, hb, not_false_eq_true, and_self, if_true,
          LawfulMonad.bind_assoc]
        congr 1
        funext y
        split <;> rfl
    · simp [h8]
  rw [heq]
  exact (sends_item _ s inp e).bind hk

/-- A reader returns, or waits for bytes that are not there. -/
theorem Reads.sends {p : Proc σ ρ α} (hp : Reads p) (s : σ) (inp : Bytes) (e : Bool) :
    (∃ a inp', Sends p s inp e [] a s inp') ∨ Stuck p s inp e := by
  induction p generalizing inp with
  | ret a => exact .inl ⟨a, inp, sends_pure a s inp e⟩
  | recv r n k ih =>
    rcases recv_any s inp e r n with ⟨x, inp1, hx⟩ | hx
    · rcases ih x (hp x) inp1 with ⟨a, inp', h⟩ | h
      · exact .inl ⟨a, inp', h.recv hx⟩
      · exact .inr (h.recv hx)
    · exact .inr fun h os => ⟨0, [], r, n, k, _, .refl _ _, rfl, hx h os⟩
  | send r b k => exact hp.elim
  | act f k => exact hp.elim
  | iter body g k => exact hp.elim

end

end Mefsc.L1
