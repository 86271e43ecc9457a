import Mefsc.L3Protocol.ClientConn
import Mefsc.L4App.Nonces

/-!
# Nonces of the client

On the client every action has nonce variables of its own besides
`original_nonce`, which the login, the notices and the intents share. Each
variable is drawn once (`drawOf` says by which draw), and the role of a frame says
from which of them it is encrypted (`varOf`).

`nonce_windows` puts the two sides together.
-/
namespace Mefsc.L4

open L1 L1.SessionEncWrapper L2 L3
open Proc hiding ret recv send act iter bind

/-! ## Variables -/

/-- The nonce variables of a client session; the numbers are those of the
actions. Each is drawn once. -/
inductive NonceVar where
  | original
  | sender (act : Nat)
  | receiver (act : Nat)
  | remover (act : Nat)
  deriving DecidableEq, Repr

/-- The variable a frame of the actions `as` is encrypted from. -/
def varOf (as : List UserAction) (r : Role) : NonceVar :=
  match r.kind with
  | .notice => .original
  | .intent => .original
  | _ =>
    match as[r.action]? with
    | none => .sender r.action
    | some a =>
      if a.intention = READ_FROM_FILESYSTEM then .receiver r.action
      else if a.intention = DELETE_FILE then .remover r.action
      else .sender r.action

def connVar (as : List UserAction) : ConnRole → Option NonceVar
  | .publicKey => none
  | .ack => none
  | .credential _ => some .original
  | .session r => if framed r.kind then some (varOf as r) else none

/-- The frames of a client session, each with its variable and its nonce. -/
def clientFrames (as : List UserAction) (o : List (ConnRole × Bytes)) : List (NonceVar × Nat) :=
  o.filterMap fun x => (connVar as x.1).map fun v => (v, nonceOf x.2)

/-- The draws an action makes: the two agents with the salt of the sender, and the
salt and the header of an upload or the nonce of a delete. -/
def drawsIn (a : UserAction) : Nat :=
  if a.intention = WRITE_TO_FILESYSTEM then 5 else if a.intention = DELETE_FILE then 4 else 3

def drawnBefore (as : List UserAction) (act : Nat) : Nat := ((as.take act).map drawsIn).sum

/-- The draw a variable gets its value from; `d` is that of `original_nonce`. -/
def drawOf (as : List UserAction) (d : Nat) : NonceVar → Nat
  | .original => d
  | .sender act => d + 1 + drawnBefore as act
  | .receiver act => d + 1 + drawnBefore as act + 2
  | .remover act => d + 1 + drawnBefore as act + 3

def clientDraw (C : ClientEnv) (as : List UserAction) (d : Nat) (v : NonceVar) : Nat :=
  leDec (fit AEAD_NPUBBYTES (C.host.rand (drawOf as d v)))

section
variable (C : ClientEnv) (as : List UserAction) (d : Nat) (before : List (ConnRole × Bytes))

/-- All frames so far: those of the login and those of the actions. -/
def framesSoFar (o : List (Role × Bytes)) : List (NonceVar × Nat) :=
  clientFrames as (before ++ relabelled .session o)

/-- A variable holds the last nonce of its window. -/
def Stands (v : NonceVar) (nonce : Bytes) (F : List (NonceVar × Nat)) : Prop :=
  leDec nonce % nonceSpace = (clientDraw C as d v + (given v F).length) % nonceSpace

/-- At every moment. -/
def Numbered (o : List (Role × Bytes)) (_ : ClientState) : Prop :=
  Counted nonceSpace (clientDraw C as d) (framesSoFar as before o)

/-- With `n` draws made; the variables of the actions from `act` on have no frames
yet. -/
structure Ready (act n : Nat) (o : List (Role × Bytes)) (s : ClientState) : Prop where
  draws : s.draws = n
  counted : Counted nonceSpace (clientDraw C as d) (framesSoFar as before o)
  original : Stands C as d .original s.original_nonce (framesSoFar as before o)
  fresh : ∀ i, act ≤ i → given (.sender i) (framesSoFar as before o) = [] ∧
    given (.receiver i) (framesSoFar as before o) = [] ∧ given (.remover i) (framesSoFar as before o) = []

variable {C as d before} {o : List (Role × Bytes)} {s : ClientState} {act n : Nat}

theorem framesSoFar_frame {r : Role} (hr : framed r.kind = true) (N m : Bytes) (o : List (Role × Bytes)) :
    framesSoFar as before (o ++ [(r, frame C.na.aead C.client_tx (sodiumIncrement N) m)]) =
      framesSoFar as before o ++ [(varOf as r, (leDec N + 1) % nonceSpace)] := by
  simp [framesSoFar, relabelled, clientFrames, connVar, hr, nonceOf_frame]

theorem framesSoFar_blob {r : Role} (hr : framed r.kind = false) (b : Bytes) (o : List (Role × Bytes)) :
    framesSoFar as before (o ++ [(r, b)]) = framesSoFar as before o := by
  simp [framesSoFar, relabelled, clientFrames, connVar, hr]

/-- One more frame from the variable `v`. -/
theorem Stands.next {v : NonceVar} {N : Bytes} {F : List (NonceVar × Nat)} (h : Stands C as d v N F) :
    (leDec N + 1) % nonceSpace = (clientDraw C as d v + (given v F).length + 1) % nonceSpace ∧
      Stands C as d v (sodiumIncrement N) (F ++ [(v, (leDec N + 1) % nonceSpace)]) := by
  have hn : (leDec N + 1) % nonceSpace = (clientDraw C as d v + (given v F).length + 1) % nonceSpace :=
    Nat.ModEq.add_right 1 h
  refine ⟨hn, ?_⟩
  unfold Stands
  rw [leDec_sodiumIncrement, given_append, given_one_self, List.length_append, Nat.mod_mod]
  exact hn

/-- And of the others. -/
theorem Stands.other {u v : NonceVar} {N : Bytes} {F : List (NonceVar × Nat)} (h : Stands C as d u N F) (huv : v ≠ u)
    (x : Nat) : Stands C as d u N (F ++ [(v, x)]) := by
  unfold Stands
  rw [given_append, given_one_of_ne huv, List.append_nil]
  exact h

theorem Ready.later (h : Ready C as d before act n o s) : Ready C as d before (act + 1) n o s :=
  ⟨h.draws, h.counted, h.original, fun i hi => h.fresh i (by omega)⟩

/-- `Ready` looks at the draws and `original_nonce` alone. -/
theorem Ready.state (h : Ready C as d before act n o s) {t : ClientState} {m : Nat} (h1 : t.draws = m)
    (h2 : t.original_nonce = s.original_nonce) : Ready C as d before act m o t :=
  ⟨h1, h.counted, h2 ▸ h.original, h.fresh⟩

/-- A frame from `original_nonce`. -/
theorem Ready.session (h : Ready C as d before act n o s) {r : Role} (hr : framed r.kind = true)
    (hv : varOf as r = .original) (m : Bytes) :
    Numbered C as d before (o ++ [(r, frame C.na.aead C.client_tx (sodiumIncrement s.original_nonce) m)]) s ∧
    Ready C as d before act n (o ++ [(r, frame C.na.aead C.client_tx (sodiumIncrement s.original_nonce) m)])
      { s with original_nonce := sodiumIncrement s.original_nonce } := by
  obtain ⟨hn, hs⟩ := h.original.next
  have hF : framesSoFar as before (o ++ [(r, frame C.na.aead C.client_tx (sodiumIncrement s.original_nonce) m)]) = _ :=
    framesSoFar_frame hr s.original_nonce m o
  rw [hv] at hF
  have hc := h.counted.next .original hn
  rw [← hF] at hc hs
  refine ⟨hc, h.draws, hc, hs, fun i hi => ?_⟩
  obtain ⟨h1, h2, h3⟩ := h.fresh i hi
  rw [hF, given_append, given_append, given_append, h1, h2, h3]
  exact ⟨rfl, rfl, rfl⟩

/-- The variables of an action's own. -/
def Local (act : Nat) (v : NonceVar) : Prop := v = .sender act ∨ v = .receiver act ∨ v = .remover act

/-- A frame from a variable of the action. -/
theorem Ready.agent (h : Ready C as d before (act + 1) n o s) {v : NonceVar} (hl : Local act v) {N : Bytes}
    (hs : Stands C as d v N (framesSoFar as before o)) {r : Role} (hr : framed r.kind = true) (hv : varOf as r = v)
    (m : Bytes) :
    Ready C as d before (act + 1) n (o ++ [(r, frame C.na.aead C.client_tx (sodiumIncrement N) m)]) s ∧
    Stands C as d v (sodiumIncrement N)
      (framesSoFar as before (o ++ [(r, frame C.na.aead C.client_tx (sodiumIncrement N) m)])) := by
  obtain ⟨hn, hs⟩ := hs.next
  have hF : framesSoFar as before (o ++ [(r, frame C.na.aead C.client_tx (sodiumIncrement N) m)]) = _ :=
    framesSoFar_frame hr N m o
  rw [hv] at hF
  have hc := h.counted.next v hn
  rw [hF]
  refine ⟨⟨h.draws, hF ▸ hc, ?_, fun i hi => ?_⟩, hs⟩
  · rw [hF]
    exact h.original.other (by rcases hl with rfl | rfl | rfl <;> simp) _
  · obtain ⟨h1, h2, h3⟩ := h.fresh i hi
    rw [hF, given_append, given_append, given_append, h1, h2, h3]
    rcases hl with rfl | rfl | rfl
    · exact ⟨given_one_of_ne (by simp; omega) _, rfl, rfl⟩
    · exact ⟨rfl, given_one_of_ne (by simp; omega) _, rfl⟩
    · exact ⟨rfl, rfl, given_one_of_ne (by simp; omega) _⟩

/-! ## The client's handlers -/

section
variable {w : World ClientState Role}

/-- The invariant at every moment of the actions. -/
abbrev Numbers (C : ClientEnv) (as : List UserAction) (d : Nat) (before : List (ConnRole × Bytes)) :
    List (Role × Bytes) → World ClientState Role → Prop := OnState (Numbered C as d before)

theorem always_session (h : Ready C as d before act n o w.st) {r : Role} (hr : framed r.kind = true)
    (hv : varOf as r = .original) (m : Bytes) : Always (Numbers C as d before) (C.sendSession r m)
      (fun _ o w => Ready C as d before act n o w.st) o w := by
  obtain ⟨hk, hready⟩ := h.session hr hv m
  refine Always.bind (Always.read h.counted ?_)
  refine Always.bind (Always.sendFrame h.counted hk fun w' hw' _ => ?_)
  exact Always.modify (hw' ▸ hk) hk (hw' ▸ hready)

theorem always_agent (h : Ready C as d before (act + 1) n o w.st) {v : NonceVar} (hl : Local act v) {N : Bytes}
    (hs : Stands C as d v N (framesSoFar as before o)) {r : Role} (hr : framed r.kind = true) (hv : varOf as r = v)
    (m : Bytes) {R : Bytes → List (Role × Bytes) → World ClientState Role → Prop}
    (hR : ∀ o w, Ready C as d before (act + 1) n o w.st →
      Stands C as d v (sodiumIncrement N) (framesSoFar as before o) → R (sodiumIncrement N) o w) :
    Always (Numbers C as d before) (sendFrame C.na.aead r m C.client_tx N) R o w := by
  obtain ⟨hready, hstands⟩ := h.agent hl hs hr hv m
  exact Always.sendFrame h.counted hready.counted fun w' hw' _ => hR _ _ (hw' ▸ hready) hstands

/-- A random draw. -/
theorem always_randombytes (h : Ready C as d before act n o w.st) (k : Nat)
    {R : Bytes → List (Role × Bytes) → World ClientState Role → Prop}
    (hR : ∀ w, Ready C as d before act (n + 1) o w.st → R (fit k (C.host.rand n)) o w) :
    Always (Numbers C as d before) (C.randombytes k) R o w := by
  refine Always.act h.counted h.counted ?_
  rw [h.draws]
  exact hR _ (h.state rfl rfl)

/-- What sends nothing, draws nothing and leaves `original_nonce` alone. -/
def Still (s : ClientState) (l : List (Unit × Role × Bytes)) (t : ClientState) : Prop :=
  l = [] ∧ t.draws = s.draws ∧ t.original_nonce = s.original_nonce

theorem still_law : Law Still Still where
  refl _ := ⟨rfl, rfl, rfl⟩
  trans h h' := ⟨by rw [h.1, h'.1]; rfl, h'.2.1.trans h.2.1, h'.2.2.trans h.2.2⟩
  now h := h
  moment h h' := ⟨by rw [h.1, h'.1]; rfl, h'.2.1.trans h.2.1, h'.2.2.trans h.2.2⟩

abbrev Stays {α : Type} (p : Client α) : Prop := Sums (fun _ => ()) Still Still p

theorem always_still {α : Type} {p : Client α} (hp : Stays p) (h : Ready C as d before act n o w.st)
    {R : α → List (Role × Bytes) → World ClientState Role → Prop}
    (hR : ∀ a w, Ready C as d before act n o w.st → R a o w) : Always (Numbers C as d before) p R o w := by
  intro k o' q w' hg
  obtain ⟨⟨hl, h1, h2⟩, -⟩ := hp k w o' q w' hg
  have ho : o' = [] := by
    rw [← hg.stamped_snd fun _ => (), hl]
    rfl
  subst ho
  rw [List.append_nil]
  exact ⟨h.counted, fun a _ => hR a w' (h.state (h1.trans h.draws) h2)⟩

theorem stays_act {β : Type} {f : ClientState → β × ClientState} (h1 : ∀ s, (f s).2.draws = s.draws)
    (h2 : ∀ s, (f s).2.original_nonce = s.original_nonce) : Stays (modifyGet f) :=
  still_law.modifyGet fun s => ⟨rfl, h1 s, h2 s⟩

theorem stays_ite {α : Type} {c : Prop} [Decidable c] {p q : Client α} (hp : Stays p) (hq : Stays q) :
    Stays (if c then p else q) := by
  split
  · exact hp
  · exact hq

theorem stays_print (x : Shown) : Stays (ClientEnv.print x) := stays_act (fun _ => rfl) fun _ => rfl

theorem stays_openOut (name : Bytes) : Stays (C.openOut name) :=
  stays_act (fun s => by unfold ClientEnv.opened; split <;> rfl) fun s => by
    unfold ClientEnv.opened
    split <;> rfl

theorem stays_writeOut (b : Bytes) : Stays (ClientEnv.writeOut b) :=
  stays_act (fun s => by unfold ClientEnv.written; split <;> rfl) fun s => by
    unfold ClientEnv.written
    split <;> rfl

theorem stays_uninit : Stays C.uninit := stays_act (fun _ => rfl) fun _ => rfl

theorem stays_pwhash (salt : Bytes) : Stays (C.cryptoPwhash salt) := stays_act (fun _ => rfl) fun _ => rfl

theorem stays_pullRound (act : Nat) (g : C.Pulling) : Stays (C.pullRound act g) := by
  refine still_law.bind (Law.ofSock still_law _) fun w => still_law.bind (Law.recvRawBlob still_law _ _) fun o => ?_
  cases o with
  | none => exact still_law.pure _
  | some file_chunk =>
    dsimp only
    split
    · exact still_law.pure _
    · exact stays_ite (still_law.pure _) (still_law.pure _)

theorem stays_decrypt (act : Nat) : Stays (C.decryptAndReadFromServer act) := by
  have hi (h sa : Bytes) : Stays (C.initRead act h sa) := by
    refine still_law.bind (Law.ofSock still_law _) fun w => stays_ite (still_law.pure _) ?_
    exact still_law.bind (Law.ofSock still_law _) fun w => stays_ite (still_law.pure _) (still_law.pure _)
  refine still_law.bind stays_uninit fun _ => still_law.bind stays_uninit fun _ => still_law.bind (hi _ _) fun x => ?_
  cases x with
  | error e => exact still_law.pure _
  | ok x =>
    refine still_law.bind (stays_pwhash _) fun key => ?_
    cases key with
    | none => exact still_law.pure _
    | some key =>
      dsimp only
      split
      · exact still_law.pure _
      · refine still_law.bind (still_law.loop (stays_pullRound act) _) fun x => ?_
        refine still_law.bind (stays_writeOut _) fun _ => ?_
        exact still_law.bind (stays_act (fun _ => rfl) fun _ => rfl) fun _ => still_law.pure _

theorem stays_lffs (act : Nat) : Stays (C.lffsHandler act) := by
  have hn (count : Int) (i : Nat) : Stays (C.readNames act count i) := by
    refine stays_ite (still_law.pure _) (still_law.bind (Law.ofSock still_law _) fun w => ?_)
    refine stays_ite (still_law.pure _) (stays_ite (still_law.pure _) ?_)
    exact still_law.bind (stays_print _) fun _ => still_law.pure _
  refine still_law.bind stays_uninit fun _ => still_law.bind (Law.ofSock still_law _) fun w => ?_
  refine stays_ite (still_law.pure _) (stays_ite (still_law.pure _) ?_)
  exact still_law.bind (stays_print _) fun _ => still_law.loop (hn _) 0

theorem Ready.blob (h : Ready C as d before act n o s) {r : Role} (hr : framed r.kind = false) (b : Bytes) :
    Ready C as d before act n (o ++ [(r, b)]) s := by
  have hF : framesSoFar as before (o ++ [(r, b)]) = framesSoFar as before o := framesSoFar_blob hr b o
  exact ⟨h.draws, hF ▸ h.counted, hF ▸ h.original, hF ▸ h.fresh⟩

theorem always_blob (h : Ready C as d before act n o w.st) {r : Role} (hr : framed r.kind = false) (b : Bytes)
    {R : Int → List (Role × Bytes) → World ClientState Role → Prop}
    (hR : ∀ x o' w, Ready C as d before act n o' w.st →
      framesSoFar as before o' = framesSoFar as before o → R x o' w) :
    Always (Numbers C as d before) (sendRawBlob r b) R o w := by
  have h1 := h.blob hr (u64Enc b.length)
  have h2 := h1.blob hr b
  have hF1 : framesSoFar as before (o ++ [(r, u64Enc b.length)]) = framesSoFar as before o := framesSoFar_blob hr _ o
  have hF2 : framesSoFar as before (o ++ [(r, u64Enc b.length)] ++ [(r, b)]) = framesSoFar as before o :=
    (framesSoFar_blob hr b _).trans hF1
  exact Always.sendRawBlob h.counted h1.counted h2.counted (fun x w' hw' _ _ => hR x _ w' (hw' ▸ h1) hF1)
    fun x w' hw' _ => hR x _ w' (hw' ▸ h2) hF2

theorem always_setCrypto (h : Ready C as d before act n o w.st) (SA : SenderAgent)
    {R : SenderAgent → List (Role × Bytes) → World ClientState Role → Prop}
    (hR : ∀ SA' w, SA'.nonce = SA.nonce → Ready C as d before act (n + 1) o w.st → R SA' o w) :
    Always (Numbers C as d before) (C.setCrypto SA) R o w := by
  refine Always.bind (always_randombytes h _ fun w1 h1 => ?_)
  refine Always.bind (always_still (stays_pwhash _) h1 fun key w2 h2 => ?_)
  cases key with
  | none => exact Always.pure h2.counted (hR _ w2 rfl h2)
  | some key => exact Always.pure h2.counted (hR _ w2 rfl h2)

/-- The agent's window is open, with its counter at `nonce`. -/
def Open (C : ClientEnv) (as : List UserAction) (d : Nat) (before : List (ConnRole × Bytes)) (act n : Nat)
    (nonce : Bytes) (o : List (Role × Bytes)) (w : World ClientState Role) : Prop :=
  Ready C as d before (act + 1) n o w.st ∧ Stands C as d (.sender act) nonce (framesSoFar as before o)

section
variable (hv : ∀ k : Kind, k ≠ .notice → k ≠ .intent → varOf as ⟨act, k⟩ = .sender act)

include hv in
/-- In a round the prefix moves the counter, and the blob moves nothing. -/
theorem always_round (g : C.Sending) (h : Open C as d before act n g.2.2.2 o w) :
    Always (Numbers C as d before) (C.sendRound act g) (fun x o w =>
      match x with
      | .inl g' => Open C as d before act n g'.2.2.2 o w
      | .inr _ => Ready C as d before (act + 1) n o w.st) o w := by
  obtain ⟨h, hs⟩ := h
  rw [sendRound_eq]
  refine Always.bind (always_agent h (.inl rfl) hs rfl (hv _ (by simp) (by simp)) _ fun o w h hs => ?_)
  refine Always.bind (always_blob h rfl _ fun _ o' w h hF => ?_)
  refine Always.pure h.counted ?_
  unfold roundEnds
  split
  · rename_i heq
    split at heq
    · cases heq
    · cases heq
      exact ⟨h, hF ▸ hs⟩
  · exact h

include hv in
theorem always_sendLoop (g : C.Sending) (h : Open C as d before act n g.2.2.2 o w) :
    Always (Numbers C as d before) (loop (C.sendRound act) g)
      (fun _ o w => Ready C as d before (act + 1) n o w.st) o w :=
  Always.loop (J := fun g o w => Open C as d before act n g.2.2.2 o w)
    (fun g _ _ h => (always_round hv g h).mono fun x _ _ _ hx => by cases x <;> exact hx) h

include hv in
theorem always_announce (SA : SenderAgent) (file : Option Source) (file_name header : Bytes)
    (h : Open C as d before act n SA.nonce o w)
    {R : Int × Bytes → List (Role × Bytes) → World ClientState Role → Prop}
    (hR : ∀ x nonce o w, Open C as d before act n nonce o w → R (x, nonce) o w) :
    Always (Numbers C as d before) (C.initSend act SA file file_name header) R o w := by
  have hframe {o : List (Role × Bytes)} {w : World ClientState Role} {N : Bytes} (k : Kind) (hk : framed k = true)
      (h1 : k ≠ .notice) (h2 : k ≠ .intent) (m : Bytes)
      {R : Bytes → List (Role × Bytes) → World ClientState Role → Prop} (h : Open C as d before act n N o w)
      (hR : ∀ N o w, Open C as d before act n N o w → R N o w) :
      Always (Numbers C as d before) (sendFrame C.na.aead ⟨act, k⟩ m C.client_tx N) R o w :=
    always_agent h.1 (.inl rfl) h.2 hk (hv k h1 h2) m fun o w h hs => hR _ o w ⟨h, hs⟩
  unfold ClientEnv.initSend
  refine Always.bind (hframe _ rfl (by simp) (by simp) _ h fun N o w h => ?_)
  cases file with
  | none => exact Always.pure h.1.counted (hR _ _ _ _ h)
  | some src =>
    refine Always.bind (hframe _ rfl (by simp) (by simp) _ h fun N o w h => ?_)
    refine Always.bind (hframe _ rfl (by simp) (by simp) _ h fun N o w h => ?_)
    refine Always.bind (hframe _ rfl (by simp) (by simp) _ h fun N o w h => ?_)
    exact Always.pure h.1.counted (hR _ _ _ _ h)

include hv in
/-- An upload, with the agent's counter at the start of its window. -/
theorem always_upload {SA : SenderAgent} (h : Open C as d before act n SA.nonce o w) (file_name : Bytes) :
    Always (Numbers C as d before) (C.wtfsHandler act SA file_name)
      (fun _ o w => Ready C as d before (act + 1) (n + 2) o w.st) o w := by
  unfold ClientEnv.wtfsHandler ClientEnv.encryptAndSendToServer
  refine Always.bind (Always.mono (Q := fun _ o w => Ready C as d before (act + 1) (n + 2) o w.st) ?_
    fun x o w _ h => Always.ite (fun _ => Always.pure h.counted h) fun _ => Always.pure h.counted h)
  refine Always.bind (always_setCrypto h.1 SA fun SA1 w1 hn1 h1 => ?_)
  refine Always.bind (Always.read h1.counted ?_)
  refine Always.bind (always_randombytes h1 _ fun w2 h2 => ?_)
  generalize w1.st.fs.openRead C.cwd file_name = file
  generalize C.na.ss.initPush _ SA1.key = x
  obtain ⟨state, header⟩ := x
  refine Always.bind (always_announce hv SA1 file file_name header ⟨h2, hn1 ▸ h.2⟩ fun x nonce o w h => ?_)
  cases file with
  | none => exact Always.pure h.1.counted h.1
  | some src =>
    refine Always.bind ((always_sendLoop hv (0, IStream.ofSource src, state, nonce) h).mono fun _ o w _ h => ?_)
    exact Always.pure h.counted h

end

theorem drawnBefore_succ {a : UserAction} (ha : as[act]? = some a) :
    drawnBefore as (act + 1) = drawnBefore as act + drawsIn a := by
  unfold drawnBefore
  rw [List.take_add_one, ha]
  simp

theorem varOf_local {a : UserAction} (ha : as[act]? = some a) {k : Kind} (h1 : k ≠ .notice) (h2 : k ≠ .intent) :
    varOf as ⟨act, k⟩ =
      if a.intention = READ_FROM_FILESYSTEM then .receiver act
      else if a.intention = DELETE_FILE then .remover act
      else .sender act := by
  unfold varOf
  cases k with
  | notice => exact absurd rfl h1
  | intent => exact absurd rfl h2
  | _ => simp only [ha]

/-- A variable that was just drawn. -/
theorem Stands.drawn {v : NonceVar} {F : List (NonceVar × Nat)} (hF : given v F = []) {m : Nat}
    (hm : m = drawOf as d v) : Stands C as d v (fit AEAD_NPUBBYTES (C.host.rand m)) F := by
  unfold Stands clientDraw
  rw [hF, hm]
  rfl

theorem always_performAction {a : UserAction} (ha : as[act]? = some a)
    (h : Ready C as d before act (d + 1 + drawnBefore as act) o w.st) :
    Always (Numbers C as d before) (C.performAction act a)
      (fun x o w => x = none → Ready C as d before (act + 1) (d + 1 + drawnBefore as (act + 1)) o w.st) o w := by
  have hsucc := drawnBefore_succ ha
  refine Always.bind (always_session h rfl rfl _ |>.mono fun _ o w _ h => ?_)
  -- the two agents
  refine Always.bind (Always.bind (always_randombytes h _ fun w h1 => ?_))
  refine always_setCrypto h1 _ fun SA w hSA h2 => ?_
  refine Always.bind (Always.bind (always_randombytes h2 _ fun w h3 => ?_))
  refine Always.pure h3.counted ?_
  obtain ⟨f1, f2, f3⟩ := h3.fresh act (Nat.le_refl _)
  have intent {o : List (Role × Bytes)} {w : World ClientState Role}
      (h : Ready C as d before act (d + 1 + drawnBefore as act + 1 + 1 + 1) o w.st) :
      Always (Numbers C as d before) (C.sendIntention act a.intention)
        (fun _ o w => Ready C as d before act (d + 1 + drawnBefore as act + 1 + 1 + 1) o w.st) o w :=
    always_session h rfl rfl _
  refine Always.ite (fun _ => Always.pure h3.counted fun hx => by cases hx) fun hconf => ?_
  refine Always.ite (fun hread => ?_) fun hread => ?_
  · refine Always.bind ((intent h3).mono fun _ o w _ h => ?_)
    have hv := varOf_local ha (k := .fileName) (by simp) (by simp)
    rw [if_pos hread] at hv
    have hs : Stands C as d (.receiver act)
        (fit AEAD_NPUBBYTES (C.host.rand (d + 1 + drawnBefore as act + 1 + 1))) (framesSoFar as before o) :=
      .drawn (h.fresh act (Nat.le_refl _)).2.1 rfl
    have hin : drawsIn a = 3 := by
      unfold drawsIn
      rw [hread]
      rfl
    refine Always.bind (Always.bind (always_agent h.later (.inr (.inl rfl)) hs rfl hv _ fun o w h hs => ?_))
    refine Always.ite (fun _ => Always.pure h.counted (Always.pure h.counted fun hx => by cases hx)) fun _ => ?_
    refine Always.bind (always_still (stays_openOut _) h fun _ w h => ?_)
    refine Always.bind (always_still (stays_decrypt act) h fun _ w h => ?_)
    exact Always.pure h.counted (Always.pure h.counted fun _ => h.state (by rw [h.draws]; omega) rfl)
  refine Always.ite (fun hwrite => ?_) fun hwrite => ?_
  · refine Always.bind ((intent h3).mono fun _ o w _ h => ?_)
    have hv (k : Kind) (h1 : k ≠ .notice) (h2 : k ≠ .intent) : varOf as ⟨act, k⟩ = .sender act := by
      rw [varOf_local ha h1 h2, if_neg hread, hwrite]
      rfl
    have hs : Stands C as d (.sender act) SA.nonce (framesSoFar as before o) := by
      rw [hSA]
      exact .drawn (h.fresh act (Nat.le_refl _)).1 rfl
    have hin : drawsIn a = 5 := if_pos hwrite
    refine Always.bind ((always_upload hv ⟨h.later, hs⟩ a.file_name).mono fun _ o w _ h => ?_)
    exact Always.pure h.counted fun _ => h.state (by rw [h.draws]; omega) rfl
  refine Always.ite (fun hlist => ?_) fun hlist => ?_
  · refine Always.bind ((intent h3).mono fun _ o w _ h => ?_)
    have hin : drawsIn a = 3 := by
      unfold drawsIn
      rw [hlist]
      rfl
    refine Always.bind (always_still (stays_lffs act) h fun _ w h => ?_)
    exact Always.pure h.counted fun _ => h.later.state (by rw [h.draws]; omega) rfl
  refine Always.ite (fun hdel => ?_) fun hdel => ?_
  · refine Always.bind ((intent h3).mono fun _ o w _ h => ?_)
    have hv := varOf_local ha (k := .fileName) (by simp) (by simp)
    rw [if_neg hread, if_pos hdel] at hv
    have hin : drawsIn a = 4 := by
      unfold drawsIn
      rw [if_neg hwrite, if_pos hdel]
    have hdone {o : List (Role × Bytes)} {w : World ClientState Role}
        (h : Ready C as d before (act + 1) (d + 1 + drawnBefore as act + 1 + 1 + 1 + 1) o w.st) :
        Always (Numbers C as d before) (Pure.pure none : Client (Option ClientEnd)) (fun x o w => x = none →
          Ready C as d before (act + 1) (d + 1 + drawnBefore as (act + 1)) o w.st) o w :=
      Always.pure h.counted fun _ => h.state (by rw [h.draws]; omega) rfl
    refine Always.bind (Always.bind (always_randombytes h _ fun w h => ?_))
    have hs : Stands C as d (.remover act)
        (fit AEAD_NPUBBYTES (C.host.rand (d + 1 + drawnBefore as act + 1 + 1 + 1))) (framesSoFar as before o) :=
      .drawn (h.fresh act (Nat.le_refl _)).2.2 rfl
    refine Always.bind (always_agent h.later (.inr (.inr rfl)) hs rfl hv _ fun o w h hs => ?_)
    refine Always.bind (always_still stays_uninit h fun _ w h => ?_)
    refine Always.bind (always_still (Law.ofSock still_law _) h fun _ w h => ?_)
    refine Always.ite (fun _ => Always.pure h.counted (hdone h)) fun _ => ?_
    refine Always.ite (fun _ => Always.pure h.counted (hdone h)) fun _ => ?_
    refine Always.ite (fun _ => ?_) fun _ => ?_
    · refine Always.bind (always_still (stays_print _) h fun _ w h => ?_)
      exact Always.pure h.counted (hdone h)
    · refine Always.bind (always_still (stays_print _) h fun _ w h => ?_)
      exact Always.pure h.counted (hdone h)
  · have hin : drawsIn a = 3 := by simp [drawsIn, hwrite, hdel]
    exact Always.pure h3.counted fun _ => h3.later.state (by rw [h3.draws]; omega) rfl

/-- The actions from the `act`-th on. -/
theorem always_actions (rest : List UserAction) (hrest : as.drop act = rest)
    (h : Ready C as d before act (d + 1 + drawnBefore as act) o w.st) :
    Always (Numbers C as d before) (C.actionsFrom act rest) (fun _ _ _ => True) o w := by
  induction rest generalizing act o w with
  | nil =>
    refine Always.bind ((always_session h rfl rfl _).mono fun _ o w _ h => ?_)
    exact Always.pure h.counted trivial
  | cons a rest ih =>
    have ha : as[act]? = some a := by
      rw [← List.head?_drop, hrest]
      rfl
    refine Always.bind ((always_performAction ha h).mono fun x o w hK hx => ?_)
    cases x with
    | some e => exact Always.pure hK trivial
    | none =>
      refine ih ?_ (hx rfl)
      rw [← List.tail_drop, hrest]
      rfl

end

end

/-! ## The login -/

section
variable {C : ClientEnv} {as : List UserAction} {d : Nat} {o : List (ConnRole × Bytes)}
  {w : World ClientState ConnRole}

/-- At every moment of a connection. -/
abbrev ConnNumbers (C : ClientEnv) (as : List UserAction) (d : Nat) :
    List (ConnRole × Bytes) → World ClientState ConnRole → Prop :=
  OnState fun o (_ : ClientState) => Counted nonceSpace (clientDraw C as d) (clientFrames as o)

/-- Behind the draw of `original_nonce`, with its frames alone. -/
structure LogsIn (C : ClientEnv) (as : List UserAction) (d : Nat) (o : List (ConnRole × Bytes)) (s : ClientState) :
    Prop where
  draws : s.draws = d + 1
  counted : Counted nonceSpace (clientDraw C as d) (clientFrames as o)
  original : Stands C as d .original s.original_nonce (clientFrames as o)
  alone : ∀ x ∈ clientFrames as o, x.1 = .original

theorem always_credential (h : LogsIn C as d o w.st) (c : Credential) (m : Bytes) :
    Always (ConnNumbers C as d) (C.sendCredential c m) (fun _ o w => LogsIn C as d o w.st) o w := by
  have hF : clientFrames as (o ++
      [(.credential c, frame C.na.aead C.client_tx (sodiumIncrement w.st.original_nonce) m)]) =
      clientFrames as o ++ [(.original, (leDec w.st.original_nonce + 1) % nonceSpace)] := by
    simp [clientFrames, connVar, nonceOf_frame]
  obtain ⟨hn, hs⟩ := h.original.next
  have hc := h.counted.next .original hn
  rw [← hF] at hc hs
  refine Always.bind (Always.read h.counted ?_)
  refine Always.bind (Always.sendFrame h.counted hc fun w' hw' _ => ?_)
  refine Always.modify hc hc ⟨by rw [hw', h.draws], hc, hs, fun x hx => ?_⟩
  rw [hF] at hx
  rcases List.mem_append.mp hx with hx | hx
  · exact h.alone x hx
  · rw [List.mem_singleton.mp hx]

/-- The actions as a part of the connection. -/
theorem always_authed (first : UserAction) (more : List UserAction) (has : as = first :: more)
    (h : LogsIn C as d o w.st) :
    Always (ConnNumbers C as d) (zoom (wholePart ClientState) ConnRole.session (C.authedComms first more))
      (fun _ _ _ => True) o w := by
  have hnil (v : NonceVar) (hv : v ≠ .original) : given v (clientFrames as o) = [] := by
    rw [List.eq_nil_iff_forall_not_mem]
    exact fun x hx => hv (h.alone _ (mem_given.mp hx))
  have hF : framesSoFar as o [] = clientFrames as o := by simp [framesSoFar, relabelled]
  have hready : Ready C as d o 0 (d + 1 + drawnBefore as 0) [] w.st := by
    refine ⟨h.draws, hF ▸ h.counted, hF ▸ h.original, fun i _ => ?_⟩
    rw [hF]
    exact ⟨hnil _ (by simp), hnil _ (by simp), hnil _ (by simp)⟩
  have hacts := always_actions (w := w.part (wholePart ClientState) Role) as rfl hready
  intro n o' q w' hg
  rw [← World.part_within (wholePart ClientState) ConnRole.session w] at hg
  obtain ⟨o0, q0, v0, h0, rfl, -, -⟩ := goes_zoom hg
  subst has
  exact ⟨(hacts n o0 q0 v0 h0).1, fun _ _ => trivial⟩

/-- All frames of a client session. -/
theorem client_counted (C : ClientEnv) (username : Bytes) (got : Nat) (first : UserAction) (more : List UserAction)
    {n : Nat} {o : List (ConnRole × Bytes)} {q : Proc ClientState ConnRole (Option ClientEnd)}
    {w v : World ClientState ConnRole}
    (hg : Goes n (C.clientMain username got first more) w o q v) :
    Counted nonceSpace (clientDraw C (first :: more) w.st.draws) (clientFrames (first :: more) o) := by
  have hnil := counted_nil nonceSpace (clientDraw C (first :: more) w.st.draws)
  suffices h : Always (ConnNumbers C (first :: more) w.st.draws) (C.clientMain username got first more)
      (fun _ _ _ => True) [] w from (h n o q v hg).1
  refine Always.bind (Always.act hnil hnil ?_)
  refine Always.bind (Always.modify hnil hnil ?_)
  have hlogin : LogsIn C (first :: more) w.st.draws []
      { w.st with original_nonce := fit AEAD_NPUBBYTES (C.host.rand w.st.draws), draws := w.st.draws + 1 } :=
    ⟨rfl, hnil, .drawn rfl rfl, fun x hx => absurd hx List.not_mem_nil⟩
  refine Always.bind (Always.bind (Always.bind ((always_credential hlogin .username _).mono fun _ o w _ h => ?_)))
  refine (always_credential h .password _).mono fun _ o w _ h => ?_
  refine Always.bind (Always.recvN h.counted fun x w' hr => ⟨h.counted, ?_⟩)
  have h' : LogsIn C (first :: more) _ o w'.st := recv_st hr ▸ h
  cases x with
  | none =>
    refine Always.pure h'.counted (Always.ite (fun hc => ?_) fun _ => Always.pure h'.counted trivial)
    cases hc
  | some b =>
    refine Always.pure h'.counted (Always.ite (fun _ => ?_) fun _ => Always.pure h'.counted trivial)
    exact Always.bind ((always_authed first more rfl h').mono fun _ o w hK _ => Always.pure hK trivial)

end

/-! ## When a nonce comes twice -/

/-- Two frames share a nonce exactly when two windows overlap or one has gone all
the way round. -/
def SharedIff {V : Type} [DecidableEq V] (start : V → Nat) (F : List (V × Nat)) : Prop :=
  ¬ (F.map Prod.snd).Nodup ↔
    (∃ u v, u ≠ v ∧ Overlap nonceSpace (start u) (given u F).length (start v) (given v F).length) ∨
    ∃ v, nonceSpace < (given v F).length

theorem shared_of_counted {V : Type} [DecidableEq V] {start : V → Nat} {F : List (V × Nat)}
    (h : Counted nonceSpace start F) : SharedIff start F :=
  h.nodup_iff (Nat.two_pow_pos 64)

/-- The frames of a session, server's or client's, after any number of
operations: each window carries the numbers right behind its draw, in order, and two
frames share a nonce exactly when windows overlap. -/
theorem nonce_windows :
    (∀ (E : ServerEnv) (φ : Nat → Option Nat) (w : World FsOperator Role) (n : Nat),
      Counted nonceSpace (serverDraw E) (serverFrames E φ n w) ∧
      (∀ x ∈ serverFrames E φ n w, w.st.draws < x.1) ∧ SharedIff (serverDraw E) (serverFrames E φ n w)) ∧
    ∀ (C : ClientEnv) (username : Bytes) (got : Nat) (first : UserAction) (more : List UserAction)
      (w : World ClientState ConnRole) (n : Nat),
      Counted nonceSpace (clientDraw C (first :: more) w.st.draws)
        (clientFrames (first :: more) (offered n (C.clientMain username got first more) w)) ∧
      SharedIff (clientDraw C (first :: more) w.st.draws)
        (clientFrames (first :: more) (offered n (C.clientMain username got first more) w)) := by
  refine ⟨fun E φ w n => ?_, fun C username got first more w n => ?_⟩
  · obtain ⟨m, o, q, v, hg, hs⟩ := stamped_reached (fun s : FsOperator => s.draws) n (E.sessionVia (E.openInOn φ)) w
    obtain ⟨hc, hd⟩ := server_counted hg
    have hF : serverFrames E φ n w = serverFrames E φ m w := congrArg framesOf hs
    rw [hF]
    exact ⟨hc, fun x hx => (hd x hx).1, shared_of_counted hc⟩
  · obtain ⟨m, o, q, v, hg, hs⟩ := stamped_reached (fun _ => ()) n (C.clientMain username got first more) w
    have ho : offered n (C.clientMain username got first more) w = o := by
      unfold offered
      rw [hs, hg.stamped_snd]
    have hc := client_counted C username got first more hg
    rw [ho]
    exact ⟨hc, shared_of_counted hc⟩

end Mefsc.L4
