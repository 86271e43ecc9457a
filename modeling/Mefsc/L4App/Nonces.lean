import Mefsc.Core.Stamped
import Mefsc.Core.Windows
import Mefsc.L1Encoding.Offers
import Mefsc.L3Protocol.ServerParts
import Mefsc.L4App.ShortSends

/-!
# Nonces over a session

Every frame of a session carries the value of some nonce variable after
`sodium_increment`. On the server there is one, `FS_Operator::nonce`, drawn
anew in some handlers and carried over in others; a frame is stamped with the
number of draws made so far, and the frames with one stamp are the window of the last
of these draws (`server_counted`). `ClientNonces` has the client.

`Counted` says that a window carries the numbers right behind its draw, in
order; when two frames share a nonce follows from that (`Counted.nodup_iff`).
-/
namespace Mefsc.L4

open L1 L1.SessionEncWrapper L2 L3
open Proc hiding ret recv send act iter bind

/-- How many nonces there are. -/
def nonceSpace : Nat := 2 ^ 64

/-- All but the raw blobs are frames. -/
def framed : Kind → Bool
  | .chunk _ => false
  | _ => true

/-- The nonce a frame carries behind its length field. -/
def nonceOf (b : Bytes) : Nat := leDec ((b.drop 8).take AEAD_NPUBBYTES)

theorem leDec_sodiumIncrement (n : Bytes) : leDec (sodiumIncrement n) = (leDec n + 1) % nonceSpace := by
  unfold sodiumIncrement nonceSpace
  rw [leDec_leEnc_mod]
  rfl

theorem nonceOf_frame (A : Aead) (tx n m : Bytes) :
    nonceOf (frame A tx (sodiumIncrement n) m) = (leDec n + 1) % nonceSpace := by
  have hn : (sodiumIncrement n).length = AEAD_NPUBBYTES := sodiumIncrement_length n
  unfold nonceOf frame
  rw [List.append_assoc, List.drop_left' (u64Enc_length _), List.take_left' hn, leDec_sodiumIncrement]

/-! ## The server -/

/-- The frames among the pieces, each with its stamp and its nonce. -/
def framesOf (l : List (Nat × Role × Bytes)) : List (Nat × Nat) :=
  l.filterMap fun x => if framed x.2.1.kind then some (x.1, nonceOf x.2.2) else none

theorem framesOf_append (l l' : List (Nat × Role × Bytes)) : framesOf (l ++ l') = framesOf l ++ framesOf l' :=
  List.filterMap_append

/-- Where the counter of a window stands for a state to come: the register for
the window that is open, the value of its draw for a later one. -/
def windowStart (E : ServerEnv) (s : FsOperator) (d : Nat) : Nat :=
  if d = s.draws then leDec s.nonce else leDec (drawnNonce E (d - 1))

/-- From `s` to a later moment the windows go on as they should. -/
structure Serving (E : ServerEnv) (s : FsOperator) (l : List (Nat × Role × Bytes)) (t : FsOperator) : Prop where
  draws : s.draws ≤ t.draws
  stamps : ∀ x ∈ framesOf l, s.draws ≤ x.1 ∧ x.1 ≤ t.draws
  counted : Counted nonceSpace (windowStart E s) (framesOf l)

/-- And the register holds the last nonce of the open window. -/
structure Served (E : ServerEnv) (s : FsOperator) (l : List (Nat × Role × Bytes)) (t : FsOperator) : Prop
    extends Serving E s l t where
  register : leDec t.nonce % nonceSpace = (windowStart E s t.draws + (given t.draws (framesOf l)).length) % nonceSpace

section
variable {E : ServerEnv} {s t u : FsOperator} {l l' : List (Nat × Role × Bytes)}

/-- No frame has a stamp outside those of its stretch. -/
theorem Serving.given_nil (h : Serving E s l t) {d : Nat} (hd : d < s.draws ∨ t.draws < d) :
    given d (framesOf l) = [] := by
  rw [List.eq_nil_iff_forall_not_mem]
  intro x hx
  have hs := h.stamps _ (mem_given.mp hx)
  simp only at hs
  omega

theorem Served.start (h : Served E s l t) {d : Nat} (hd : t.draws ≤ d) :
    windowStart E t d % nonceSpace = (windowStart E s d + (given d (framesOf l)).length) % nonceSpace := by
  by_cases he : d = t.draws
  · subst he
    rw [← h.register]
    simp [windowStart]
  · have hs := h.draws
    rw [h.given_nil (.inr (by omega))]
    simp only [windowStart, he, if_false, List.length_nil, Nat.add_zero]
    rw [if_neg (by omega)]

theorem Served.serving (h : Served E s l t) (h' : Serving E t l' u) : Serving E s (l ++ l') u where
  draws := h.draws.trans h'.draws
  stamps x hx := by
    have h1 := h.draws
    have h2 := h'.draws
    rw [framesOf_append] at hx
    rcases List.mem_append.mp hx with hx | hx
    · have := h.stamps x hx
      omega
    · have := h'.stamps x hx
      omega
  counted := by
    rw [framesOf_append]
    refine h.counted.append h'.counted fun d => ?_
    rcases Nat.lt_or_ge d t.draws with hd | hd
    · exact .inl (h'.given_nil (.inl hd))
    · exact .inr (h.start hd)

variable (E) in
theorem served_law : Law (Served E) (Serving E) where
  refl s := ⟨⟨Nat.le_refl _, fun x hx => absurd hx List.not_mem_nil, counted_nil _ _⟩, by
    simp [windowStart, framesOf]⟩
  trans {s t u l l'} h h' := ⟨h.serving h'.toServing, by
    rw [h'.register, framesOf_append, given_append, List.length_append, ← Nat.add_assoc]
    exact Nat.ModEq.add_right _ (h.start h'.draws)⟩
  now h := h.toServing
  moment h h' := h.serving h'

/-! ## The handlers -/

/-- An operation that leaves the nonce and the draws alone. -/
theorem served_same (h1 : t.draws = s.draws) (h2 : t.nonce = s.nonce) : Served E s [] t where
  draws := Nat.le_of_eq h1.symm
  stamps x hx := absurd hx List.not_mem_nil
  counted := counted_nil _ _
  register := by simp [windowStart, framesOf, h1, h2]

variable (E) in
/-- What the server does, in the terms of `Served`. -/
abbrev Counts {α : Type} (p : Server α) : Prop := Sums (fun s : FsOperator => s.draws) (Served E) (Serving E) p

theorem counts_act {β : Type} {f : FsOperator → β × FsOperator} (h1 : ∀ s, (f s).2.draws = s.draws)
    (h2 : ∀ s, (f s).2.nonce = s.nonce) : Counts E (modifyGet f) :=
  (served_law E).modifyGet fun s => served_same (h1 s) (h2 s)

theorem counts_ofSock (r : Role) : Counts E (ofSock r) := Law.ofSock (served_law E) r

/-- A blob is no frame. -/
theorem counts_sendRawBlob (act j : Nat) (b : Bytes) : Counts E (sendRawBlob ⟨act, .chunk j⟩ b) := by
  have hsend (b : Bytes) : Counts E (sendB ⟨act, .chunk j⟩ b) := (served_law E).sendB fun s => by
    have h : framesOf [(s.draws, ⟨act, .chunk j⟩, b)] = framesOf [] := rfl
    obtain ⟨⟨h1, h2, h3⟩, h4⟩ := (served_law E).refl s
    exact ⟨⟨h1, h ▸ h2, h ▸ h3⟩, h ▸ h4⟩
  refine (served_law E).bind (hsend _) fun o => ?_
  split
  · exact (served_law E).pure _
  split
  · exact (served_law E).pure _
  refine (served_law E).bind (hsend _) fun o => ?_
  split <;> exact (served_law E).pure _

/-- A draw opens a window. -/
theorem counts_freshNonce : Counts E E.freshNonce := by
  refine (served_law E).acts (fun s => ?_) fun s => ?_
  · exact ⟨Nat.le_succ _, fun x hx => absurd hx List.not_mem_nil, counted_nil _ _⟩
  · refine ⟨⟨Nat.le_succ _, fun x hx => absurd hx List.not_mem_nil, counted_nil _ _⟩, ?_⟩
    simp [windowStart, framesOf, drawnNonce]

/-- A frame carries the next number of the open window. -/
theorem counts_sendSession {r : Role} (hr : framed r.kind = true) (m : Bytes) : Counts E (E.sendSession r m) := by
  have heq : E.sendSession r m = (do
      let nonce ← read fun s : FsOperator => s.nonce
      let _ ← sendB r (frame E.na.aead E.server_tx (sodiumIncrement nonce) m)
      modify fun s => { s with nonce := sodiumIncrement nonce }) := by
    unfold ServerEnv.sendSession
    simp only [sendFrame_eq, LawfulMonad.bind_assoc, pure_bind]
  have hone (s : FsOperator) : framesOf [(s.draws, r, frame E.na.aead E.server_tx (sodiumIncrement s.nonce) m)] =
      [(s.draws, (leDec s.nonce + 1) % nonceSpace)] := by
    simp [framesOf, hr, nonceOf_frame]
  have hI (s : FsOperator) :
      Serving E s [(s.draws, r, frame E.na.aead E.server_tx (sodiumIncrement s.nonce) m)] s := by
    refine ⟨Nat.le_refl _, ?_, ?_⟩
    · rw [hone]
      intro x hx
      rw [List.mem_singleton.mp hx]
      exact ⟨Nat.le_refl _, Nat.le_refl _⟩
    · rw [hone]
      exact (counted_nil _ _).next s.draws (by simp [windowStart])
  rw [heq]
  refine (served_law E).sendAct hI fun s => ⟨⟨(hI s).draws, (hI s).stamps, (hI s).counted⟩, ?_⟩
  rw [hone]
  simp [leDec_sodiumIncrement, windowStart]

theorem counts_ite {α : Type} {c : Prop} [Decidable c] {p q : Server α} (hp : Counts E p) (hq : Counts E q) :
    Counts E (if c then p else q) := by
  split
  · exact hp
  · exact hq

theorem counts_uninit : Counts E E.uninit := counts_act (fun _ => rfl) fun _ => rfl

theorem counts_initRead (act : Nat) (b h sa : Bytes) : Counts E (E.initRead act b h sa) := by
  have hL := served_law E
  refine hL.bind (counts_ofSock _) fun w => ?_
  refine counts_ite (hL.pure _) (counts_ite (hL.pure _) ?_)
  refine hL.bind (counts_ofSock _) fun w => ?_
  refine counts_ite (hL.pure _) (hL.bind counts_uninit fun len0 => ?_)
  refine counts_ite (hL.pure _) (counts_ite (hL.pure _) ?_)
  refine hL.bind (counts_ofSock _) fun w => ?_
  refine counts_ite (hL.pure _) (counts_ite (hL.pure _) ?_)
  refine hL.bind (counts_ofSock _) fun w => ?_
  exact counts_ite (hL.pure _) (counts_ite (hL.pure _) (hL.pure _))

theorem counts_wtfsRound (act : Nat) (g : ServerEnv.Receiving) : Counts E (E.wtfsRound act g) := by
  have hL := served_law E
  refine hL.bind (counts_ofSock _) fun w => ?_
  refine counts_ite (hL.pure _) (counts_ite (hL.pure _) ?_)
  refine hL.bind (Law.recvRawBlob hL _ _) fun o => ?_
  cases o with
  | none => exact hL.pure _
  | some b => exact counts_ite (hL.pure _) (counts_ite (hL.pure _) (hL.pure _))

theorem counts_wtfs (act : Nat) : Counts E (E.wtfsHandlerServer act) := by
  have hL := served_law E
  have hw (b : Bytes) : Counts E (ServerEnv.writeOut b) :=
    counts_act (fun s => by unfold ServerEnv.written; split <;> rfl) fun s => by
      unfold ServerEnv.written
      split <;> rfl
  have ho (n : Bytes) : Counts E (E.openOut n) :=
    counts_act (fun s => by unfold ServerEnv.opened; split <;> rfl) fun s => by
      unfold ServerEnv.opened
      split <;> rfl
  refine hL.bind counts_uninit fun _ => hL.bind counts_uninit fun _ => hL.bind counts_uninit fun _ => ?_
  refine hL.bind (counts_initRead act _ _ _) fun x => ?_
  cases x with
  | error e => exact hL.pure _
  | ok x =>
    refine hL.bind (ho _) fun _ => hL.bind (hw _) fun _ => hL.bind (hw _) fun _ => ?_
    refine hL.bind (hL.loop (counts_wtfsRound act) _) fun x => ?_
    exact hL.bind (hw _) fun _ => hL.pure _

theorem counts_rffsRound (act : Nat) (g : Nat × IStream) : Counts E (E.rffsRound act g) := by
  have hL := served_law E
  unfold ServerEnv.rffsRound
  rcases g.2.read FILE_ENCRYPTED_CHUNK_SIZE with ⟨file_chunk, file⟩
  refine hL.bind (counts_sendSession rfl _) fun _ => hL.bind (counts_sendRawBlob _ _ _) fun _ => ?_
  exact counts_ite (hL.pure _) (hL.pure _)

theorem counts_rffs {φ : Nat → Option Nat} (act : Nat) : Counts E (E.rffsVia (E.openInOn φ) act) := by
  have hL := served_law E
  refine hL.bind counts_freshNonce fun _ => hL.bind counts_uninit fun _ => ?_
  refine hL.bind (counts_ofSock _) fun w => ?_
  refine counts_ite (hL.pure _) (counts_ite (hL.pure _) ?_)
  refine hL.bind (counts_act (fun _ => rfl) fun _ => rfl) fun o => ?_
  cases o with
  | none => exact hL.pure _
  | some src =>
    refine hL.bind counts_uninit fun _ => hL.bind counts_uninit fun _ => ?_
    refine hL.bind (counts_sendSession rfl _) fun _ => hL.bind (counts_sendSession rfl _) fun _ => ?_
    exact hL.loop (counts_rffsRound act) _

theorem counts_sendNames (act i : Nat) (ns : List Name) : Counts E (E.sendNames act i ns) := by
  have hL := served_law E
  induction ns generalizing i with
  | nil => exact hL.pure _
  | cons n ns ih =>
    exact hL.bind counts_freshNonce fun _ => hL.bind (counts_sendSession rfl _) fun _ => ih (i + 1)

theorem counts_lffs (act : Nat) : Counts E (E.lffsHandlerServer act) := by
  have hL := served_law E
  have hl : Counts E E.listDir := counts_act (fun _ => rfl) fun _ => rfl
  refine hL.bind hl fun x => ?_
  cases x with
  | error e => exact hL.pure _
  | ok entries =>
    refine hL.bind counts_freshNonce fun _ => hL.bind (counts_sendSession rfl _) fun _ => hL.bind hl fun x => ?_
    cases x with
    | error e => exact hL.pure _
    | ok entries => exact hL.bind (counts_sendNames act 0 entries) fun _ => hL.pure _

theorem counts_dffs (act : Nat) : Counts E (E.dffsHandlerServer act) := by
  have hL := served_law E
  have hr (n : Bytes) : Counts E (E.removeFile n) :=
    counts_act (fun s => by split <;> rfl) fun s => by split <;> rfl
  refine hL.bind counts_freshNonce fun _ => hL.bind (counts_ofSock _) fun w => ?_
  refine counts_ite (hL.pure _) (counts_ite (hL.pure _) ?_)
  refine hL.bind (hr _) fun x => ?_
  cases x with
  | error e => exact hL.pure _
  | ok removed => exact hL.bind counts_freshNonce fun _ => hL.bind (counts_sendSession rfl _) fun _ => hL.pure _

theorem counts_serveRound {φ : Nat → Option Nat} (act : Nat) : Counts E (E.serveRoundVia (E.openInOn φ) act) := by
  have hL := served_law E
  have hn : Counts E (E.receiveNoticeOfNewAction act) := by
    refine hL.bind counts_uninit fun _ => hL.bind (counts_ofSock _) fun w => ?_
    exact counts_ite (hL.pure _) (counts_ite (hL.pure _) (counts_ite (hL.pure _) (hL.pure _)))
  have hi : Counts E (E.readIntent act) := by
    refine hL.bind counts_uninit fun _ => hL.bind (counts_ofSock _) fun w => ?_
    exact counts_ite (hL.pure _) (counts_ite (hL.pure _) (hL.pure _))
  have hd (i : Int) : Counts E (E.dispatchVia (E.openInOn φ) act i) := by
    refine counts_ite (hL.bind (counts_rffs act) fun _ => hL.pure _) ?_
    refine counts_ite (hL.bind (counts_wtfs act) fun _ => hL.pure _) ?_
    refine counts_ite (hL.bind (counts_lffs act) fun _ => hL.pure _) ?_
    exact counts_ite (hL.bind (counts_dffs act) fun _ => hL.pure _) (hL.pure _)
  refine hL.bind hn fun r => counts_ite (hL.pure _) ?_
  refine hL.bind hi fun i => counts_ite (hL.pure _) ?_
  refine hL.bind (hd i) fun x => ?_
  cases x <;> exact hL.pure _

/-- The value a window of the server is drawn at: a frame with stamp `d` comes
behind draw `d - 1`. -/
def serverDraw (E : ServerEnv) (d : Nat) : Nat := leDec (drawnNonce E (d - 1))

/-- The frames of the first `n` operations of a session. -/
def serverFrames (E : ServerEnv) (φ : Nat → Option Nat) (n : Nat) (w : World FsOperator Role) : List (Nat × Nat) :=
  framesOf (stamped (fun s => s.draws) n (E.sessionVia (E.openInOn φ)) w)

theorem server_counted {φ : Nat → Option Nat} {n : Nat} {o : List (Role × Bytes)} {q : Server ServerEnv.Ended}
    {w v : World FsOperator Role} (hg : Goes n (E.sessionVia (E.openInOn φ)) w o q v) :
    Counted nonceSpace (serverDraw E) (serverFrames E φ n w) ∧
      ∀ x ∈ serverFrames E φ n w, w.st.draws < x.1 ∧ x.1 ≤ v.st.draws := by
  have hnone : Counted nonceSpace (serverDraw E) [] ∧
      ∀ x ∈ ([] : List (Nat × Nat)), w.st.draws < x.1 ∧ x.1 ≤ v.st.draws :=
    ⟨counted_nil _ _, fun x hx => absurd hx List.not_mem_nil⟩
  have hquiet {α : Type} {n : Nat} {p q : Server α} {w v : World FsOperator Role}
      (h : Goes n p w [] q v) : stamped (fun s : FsOperator => s.draws) n p w = [] :=
    List.map_eq_nil_iff.mp (h.stamped_snd _)
  have hmake {n : Nat} {o : List (Role × Bytes)} {q : Server (Except Errno Unit)} {w v : World FsOperator Role}
      (h : Goes n E.makeUserDir w o q v) : o = [] ∧ v.st.draws = w.st.draws := by
    cases h with
    | refl => exact ⟨rfl, rfl⟩
    | head h t =>
      cases h
      obtain ⟨-, rfl, -, rfl⟩ := goes_ret t
      refine ⟨rfl, ?_⟩
      dsimp only
      split <;> rfl
  have hfresh {n : Nat} {o : List (Role × Bytes)} {q : Server Unit} {w v : World FsOperator Role}
      (h : Goes n E.freshNonce w o q v) : o = [] := by
    cases h with
    | refl => rfl
    | head h t =>
      cases h
      cases t with
      | refl => rfl
      | head h t =>
        cases h
        obtain ⟨-, rfl, -, -⟩ := goes_ret t
        rfl
  unfold serverFrames
  rcases Goes.bind_cases hg with ⟨q0, h0, rfl⟩ | ⟨m, k, x, w1, o1, o2, h1, h2, rfl, rfl⟩
  · obtain ⟨rfl, -⟩ := hmake h0
    rw [hquiet hg]
    exact hnone
  obtain ⟨rfl, hd1⟩ := hmake h1
  cases x with
  | error e =>
    obtain ⟨-, rfl, -, -⟩ := goes_ret h2
    rw [hquiet hg]
    exact hnone
  | ok _ =>
    rcases Goes.bind_cases h2 with ⟨q0, h0, rfl⟩ | ⟨m', k', _, w2, o3, o4, h3, h4, rfl, rfl⟩
    · obtain rfl := hfresh h0
      rw [hquiet hg]
      exact hnone
    · -- the window of the constructor's draw is open
      obtain rfl := hfresh h3
      have hst : w2.st = { w1.st with nonce := drawnNonce E w1.st.draws, draws := w1.st.draws + 1 } := by
        obtain ⟨n, u, hn, hu⟩ := (runs_bind _ _ _ _ _).mp h3.returns
        obtain ⟨rfl, rfl⟩ := (runs_modifyGet _ _ _ _).mp hn
        rw [(runs_modify _ _ _ _).mp hu]
        rfl
      have hstart : windowStart E w2.st = serverDraw E := by
        funext d
        rw [hst]
        unfold windowStart serverDraw
        split
        · rename_i hd
          simp only at hd
          rw [hd, Nat.add_sub_cancel]
        · rfl
      obtain ⟨hserving, -⟩ := (served_law E).loop counts_serveRound 0 k' w2 _ _ _ h4
      have hs : stamped (fun s : FsOperator => s.draws) (m + (m' + k')) (E.sessionVia (E.openInOn φ)) w =
          stamped (fun s : FsOperator => s.draws) k' (E.serveVia (E.openInOn φ)) w2 := by
        have h12 := stamped_seq (fun s : FsOperator => s.draws) h3 k' fun _ => E.serveVia (E.openInOn φ)
        rw [hquiet h3, List.nil_append] at h12
        rw [← h12]
        refine (stamped_seq (fun s : FsOperator => s.draws) h1 (m' + k') _).trans ?_
        rw [hquiet h1, List.nil_append]
      rw [hs]
      refine ⟨hstart ▸ hserving.counted, fun x hx => ?_⟩
      have hx := hserving.stamps x hx
      rw [hst] at hx
      simp only at hx
      omega

end

end Mefsc.L4
