import Mefsc.Core.Within
import Mefsc.L3Protocol.ClientConn
import Mefsc.L4App.Ends
import Mefsc.L4App.Turn
import Mefsc.L4App.Verdict

/-!
# A connection from its first byte on

The net of a client in `main` and a server in `handle_conn`: key exchange, login and
session. Each side's keys are the other's (`Agreed`), so that behind the login the two
are the client and the server of a session, `Linked` (`connection_opens`), or both are
gone and no file has been touched (`connection_refused`). Every schedule leads there.

The session goes on inside the connection as it goes on its own (`Core.Within`).
-/
namespace Mefsc.L4

open L1 L1.SessionEncWrapper L2 L3
open Proc hiding ret recv send act iter bind bind_assoc
open Net hiding MutualWait

abbrev Connection := Net ClientState WorkerState ConnRole ClientExit ConnEnd

/-- The socket is connected, and nothing has been sent. The verdict comes with one
`recv`. -/
def connecting (H : ClientHost) (S : ServerHost) (username : Bytes) (first : UserAction) (more : List UserAction)
    (cst : ClientState) (wst : WorkerState) : Connection :=
  ⟨⟨H.main username 4 first more, cst, [], []⟩, ⟨S.handleConn, wst, [], []⟩⟩

/-- What `crypto_kx` promises of two honest key pairs: `server_rx` is `client_tx` and
`server_tx` is `client_rx`. -/
structure Agreed (H : ClientHost) (S : ServerHost) (up down : Bytes) : Prop where
  na : S.na = H.na
  client_pk : H.client_pk.length = KX_PUBLICKEYBYTES
  server_pk : S.server_pk.length = KX_PUBLICKEYBYTES
  server : S.server_session_keys H.client_pk = some (up, down)
  client : H.client_session_keys S.server_pk = some (down, up)

/-! ## The programs in parts -/

section
variable (H : ClientHost) (username : Bytes) (first : UserAction) (more : List UserAction)

/-- `client_crypt_gen` behind its `send`. -/
def awaitKeys : Proc ClientState ConnRole (Except Int (Bytes × Bytes)) := do
  match ← recvN .publicKey KX_PUBLICKEYBYTES with
  | none => return .error 2
  | some server_pk =>
    match H.client_session_keys server_pk with
    | none => return .error 1
    | some keys => return .ok keys

/-- What `main` returns. -/
def exitOf : Option ClientEnd → ClientExit
  | none => .unauthenticated
  | some e => .ended e

/-- `main` behind `client_crypt_gen`. -/
def withKeys : Except Int (Bytes × Bytes) → Proc ClientState ConnRole ClientExit
  | .error _ => return .keyExchange
  | .ok keys => do return exitOf (← (H.env keys).clientMain username 4 first more)

theorem main_eq : H.main username 4 first more =
    sendB .publicKey H.client_pk >>= fun _ => awaitKeys H >>= withKeys H username first more := by
  unfold ClientHost.main
  have hgen : H.clientCryptGen = sendB .publicKey H.client_pk >>= fun _ => awaitKeys H := rfl
  rw [hgen, LawfulMonad.bind_assoc]
  refine congrArg (sendB _ _ >>= ·) (funext fun _ => congrArg (awaitKeys H >>= ·) (funext fun x => ?_))
  cases x with
  | error e => rfl
  | ok keys =>
    refine congrArg ((H.env keys).clientMain username 4 first more >>= ·) (funext fun y => ?_)
    cases y <;> rfl

variable (C : ClientEnv)

/-- `main` up to the `recv` of the verdict. -/
def offer : Proc ClientState ConnRole Unit := do
  let n ← zoom (wholePart ClientState) ConnRole.session (C.randombytes AEAD_NPUBBYTES)
  modify fun s => { s with original_nonce := n }
  C.offerCredentials username

/-- `main` from there on. -/
def onVerdict : Option Bytes → Proc ClientState ConnRole (Option ClientEnd)
  | none => return none
  | some b =>
    if ClientEnv.authStat b ≠ -1 then do
      let e ← zoom (wholePart ClientState) ConnRole.session (C.authedComms first more)
      return some e
    else return none

theorem clientMain_eq : C.clientMain username 4 first more =
    offer username C >>= fun _ => recvN .ack 4 >>= onVerdict first more C := by
  unfold ClientEnv.clientMain ClientEnv.sendCredentials offer
  simp only [LawfulMonad.bind_assoc]
  refine congrArg (_ >>= ·) (funext fun n => congrArg (_ >>= ·) (funext fun _ => congrArg (_ >>= ·)
    (funext fun _ => congrArg (_ >>= ·) (funext fun o => ?_))))
  cases o with
  | none => rfl
  | some b =>
    simp only [onVerdict, pure_bind]
    by_cases hb : ClientEnv.authStat b = -1
    · simp [hb]
    · simp [hb]

/-- `handle_conn` behind `server_crypt_gen`, up to the verdict. -/
def greet (S : ServerHost) : Except Int (Bytes × Bytes) → Proc WorkerState ConnRole (ConnEnd ⊕ LoggedIn)
  | .error _ => return .inl .keyExchange
  | .ok keys => do
    let x ← zoom credsPart .credential (verifyCredentials S.db S.na.aead keys.1)
    if x.1 ≠ 0 then
      let _ ← sendB .ack (i32Enc ACK_FAIL)
      return .inl .refused
    else
      let _ ← sendB .ack (i32Enc ACK_SUC)
      return .inr ⟨keys.1, keys.2, x.2⟩

theorem handleConn_eq (S : ServerHost) :
    S.handleConn = S.serverCryptGen >>= fun x => greet S x >>= S.serveConn := by
  unfold ServerHost.handleConn ServerHost.logIn
  rw [LawfulMonad.bind_assoc]
  refine congrArg (S.serverCryptGen >>= ·) (funext fun x => congrArg (· >>= S.serveConn) ?_)
  cases x <;> rfl

end

/-! ## The runs of the parts -/

@[simp] theorem sent_relabel {ρ ρ' : Type} (l : ρ → ρ') (h : List (Ev ρ)) :
    sent (h.map (Ev.relabel l)) = sent h := by
  induction h with
  | nil => rfl
  | cons e h ih => cases e <;> simp [Ev.relabel, sent, ih]

/-- The verdict on an honest client's credentials. -/
theorem runs_verify_verdict (db : UserDb) (A : Aead) (rx : Bytes) {n1 n2 user pw : Bytes} (h1 : n1.length = 8)
    (h2 : n2.length = 8) (hu : (user ++ [0]).length ≤ FILE_ENCRYPTED_CHUNK_SIZE)
    (hp : pw.length ≤ FILE_ENCRYPTED_CHUNK_SIZE) (l : CredLocals) (rest : Bytes) (e : Bool)
    (h : List (Ev Credential)) :
    ∃ l', Runs (verifyCredentials db A rx)
      ⟨l, frame A rx n1 (user ++ [0]) ++ (frame A rx n2 pw ++ rest), e, h, []⟩
      (if db.accepts (cstr user) pw then 0 else 1, cstr user)
      ⟨l', rest, e, h ++ (frameRcvs A .username rx n1 (user ++ [0]) ++ frameRcvs A .password rx n2 pw), []⟩ := by
  apply Exists.intro
  refine Runs.ofSock_bind _ e h h1 hu ?_
  refine Runs.modify_bind ?_
  refine Runs.read_bind ?_
  refine Runs.ofSock_bind _ e _ h2 hp ?_
  refine Runs.modify_bind ?_
  refine Runs.modifyGet_bind ?_
  rw [login_fst, unwrap_received _ _ _ hu hu, unwrap_received _ _ _ hp hp]
  have hpw : (blit pw l.decrypted_password).take pw.length = pw := List.take_left' rfl
  simp only [cstr_blit_nul, hpw, List.append_assoc]
  refine (runs_ite_pure _ _ _ _ _ _).mpr ⟨?_, rfl⟩
  cases db.accepts (cstr user) pw <;> rfl

section
variable {H : ClientHost} {S : ServerHost} {up down : Bytes} (hk : Agreed H S up down)

include hk

theorem runs_awaitKeys (st : ClientState) (rest : Bytes) (e : Bool) (h : List (Ev ConnRole)) :
    Runs (awaitKeys H) ⟨st, S.server_pk ++ rest, e, h, []⟩ (.ok (down, up))
      ⟨st, rest, e, h ++ [.rcv .publicKey (some S.server_pk)], []⟩ := by
  have hr := runs_recvN_append st e h ConnRole.publicKey S.server_pk rest
  rw [hk.server_pk] at hr
  refine Runs.bind hr ?_
  simp only [hk.client]
  exact (runs_pure _ _ _ _).mpr ⟨rfl, rfl⟩

/-- The verdict, and what the worker does then. -/
theorem runs_greet {n1 n2 user pw : Bytes} (h1 : n1.length = 8) (h2 : n2.length = 8)
    (hu : (user ++ [0]).length ≤ FILE_ENCRYPTED_CHUNK_SIZE) (hp : pw.length ≤ FILE_ENCRYPTED_CHUNK_SIZE)
    (st : WorkerState) (rest : Bytes) (e : Bool) (h : List (Ev ConnRole)) :
    ∃ creds evs, sent evs = i32Enc (if S.db.accepts (cstr user) pw then ACK_SUC else ACK_FAIL) ∧
      Runs (greet S (.ok (up, down)))
        ⟨st, frame H.na.aead up n1 (user ++ [0]) ++ (frame H.na.aead up n2 pw ++ rest), e, h, []⟩
        (if S.db.accepts (cstr user) pw then .inr ⟨up, down, cstr user⟩ else .inl .refused)
        ⟨{ st with creds := creds }, rest, e, h ++ evs, []⟩ := by
  rw [← hk.na]
  let read : List (Ev ConnRole) := (frameRcvs S.na.aead Credential.username up n1 (user ++ [0]) ++
    frameRcvs S.na.aead Credential.password up n2 pw).map (Ev.relabel .credential)
  obtain ⟨creds, hv⟩ := runs_verify_verdict S.db S.na.aead up h1 h2 hu hp st.creds rest e []
  have hz : Runs (zoom credsPart ConnRole.credential (verifyCredentials S.db S.na.aead up))
      ⟨st, frame S.na.aead up n1 (user ++ [0]) ++ (frame S.na.aead up n2 pw ++ rest), e, h, []⟩
      (if S.db.accepts (cstr user) pw then 0 else 1, cstr user) ⟨{ st with creds := creds }, rest, e, h ++ read, []⟩ :=
    runs_zoom.mpr ⟨_, hv, rfl⟩
  refine ⟨creds, read ++ [.snd .ack (i32Enc (if S.db.accepts (cstr user) pw then ACK_SUC else ACK_FAIL))], ?_, ?_⟩
  · simp [read, sent]
  · rw [← List.append_assoc h, greet]
    refine Runs.bind hz ?_
    cases S.db.accepts (cstr user) pw with
    | true =>
      exact Runs.bind (runs_sendB_all { st with creds := creds } e (h ++ read) .ack rest (i32Enc ACK_SUC))
        ((runs_pure _ _ _ _).mpr ⟨rfl, rfl⟩)
    | false =>
      exact Runs.bind (runs_sendB_all { st with creds := creds } e (h ++ read) .ack rest (i32Enc ACK_FAIL))
        ((runs_pure _ _ _ _).mpr ⟨rfl, rfl⟩)

end

/-- The client with `original_nonce` drawn and the credentials sent. -/
def offered (C : ClientEnv) (st : ClientState) : ClientState :=
  { st with
    draws := st.draws + 1
    original_nonce := sodiumIncrement (sodiumIncrement (fit AEAD_NPUBBYTES (C.host.rand st.draws))) }

theorem runs_offer (C : ClientEnv) (username : Bytes) (st : ClientState) (inp : Bytes) (e : Bool)
    (h : List (Ev ConnRole)) :
    ∃ n1 n2 evs, n1.length = 8 ∧ n2.length = 8 ∧
      sent evs = frame C.na.aead C.client_tx n1 (username ++ [0]) ++
        frame C.na.aead C.client_tx n2 (C.password ++ [0]) ∧
      Runs (offer username C) ⟨st, inp, e, h, []⟩ () ⟨offered C st, inp, e, h ++ evs, []⟩ := by
  let n0 := fit AEAD_NPUBBYTES (C.host.rand st.draws)
  let ev1 : Ev ConnRole := .snd (.credential .username)
    (frame C.na.aead C.client_tx (sodiumIncrement n0) (username ++ [0]))
  let ev2 : Ev ConnRole := .snd (.credential .password)
    (frame C.na.aead C.client_tx (sodiumIncrement (sodiumIncrement n0)) (C.password ++ [0]))
  refine ⟨sodiumIncrement n0, sodiumIncrement (sodiumIncrement n0), [ev1] ++ [ev2], sodiumIncrement_length _,
    sodiumIncrement_length _, by simp [ev1, ev2, sent], ?_⟩
  rw [← List.append_assoc h]
  refine Runs.modifyGet_bind ?_
  refine Runs.modify_bind ?_
  refine Runs.bind (Runs.read_bind (Runs.bind (runs_sendFrame _ e h C.na.aead _ inp _ C.client_tx n0)
    ((runs_modify _ _ () _).mpr rfl))) ?_
  refine Runs.read_bind (Runs.bind (runs_sendFrame _ e _ C.na.aead _ inp _ C.client_tx (sodiumIncrement n0)) ?_)
  exact (runs_modify _ _ () _).mpr rfl

/-! ## To the verdict -/

section
variable {H : ClientHost} {S : ServerHost} {up down username : Bytes} (hk : Agreed H S up down)
  (hu : (username ++ [0]).length ≤ FILE_ENCRYPTED_CHUNK_SIZE)
  (hp : (H.password ++ [0]).length ≤ FILE_ENCRYPTED_CHUNK_SIZE) (first : UserAction) (more : List UserAction)
  (cst : ClientState) (wst : WorkerState)

include hk hu hp

/-- The server has made up its mind, and its verdict is on its way. -/
theorem reach_verdict :
    ∃ creds hl hr, Reach (connecting H S username first more cst wst)
      ⟨⟨recvN .ack 4 >>= fun o => onVerdict first more (H.env (down, up)) o >>= fun x => pure (exitOf x),
          offered (H.env (down, up)) cst,
          i32Enc (if S.db.accepts (cstr username) (H.password ++ [0]) then ACK_SUC else ACK_FAIL), hl⟩,
        ⟨S.serveConn (if S.db.accepts (cstr username) (H.password ++ [0]) then .inr ⟨up, down, cstr username⟩
          else .inl .refused), { wst with creds := creds }, [], hr⟩⟩ := by
  let C := H.env (down, up)
  let waiting : Proc ClientState ConnRole ClientExit :=
    recvN .ack 4 >>= fun o => onVerdict first more C o >>= fun x => pure (exitOf x)
  have hprog : withKeys H username first more (.ok (down, up)) = offer username C >>= fun _ => waiting := by
    change (H.env (down, up)).clientMain username 4 first more >>= _ = _
    rw [clientMain_eq]
    simp only [LawfulMonad.bind_assoc]
    rfl
  -- the public keys
  have h1 : Reach (connecting H S username first more cst wst)
      ⟨⟨awaitKeys H >>= withKeys H username first more, cst, [], [] ++ [.snd .publicKey H.client_pk]⟩,
        ⟨S.handleConn, wst, H.client_pk ++ [], []⟩⟩ := by
    have h := Reach.runsL (fun _ => awaitKeys H >>= withKeys H username first more)
      (runs_sendB_all cst false [] ConnRole.publicKey [] H.client_pk)
      (⟨S.handleConn, wst, [], []⟩ : Party WorkerState ConnRole ConnEnd) rfl
    rw [← main_eq] at h
    unfold connecting
    simpa only [sent, Party.feed, List.append_nil, List.nil_append] using h
  have h2 : Reach (⟨⟨awaitKeys H >>= withKeys H username first more, cst, [], [] ++ [.snd .publicKey H.client_pk]⟩,
      ⟨S.handleConn, wst, H.client_pk ++ [], []⟩⟩ : Connection)
      ⟨⟨awaitKeys H >>= withKeys H username first more, cst, S.server_pk ++ [], [] ++ [.snd .publicKey H.client_pk]⟩,
        ⟨greet S (.ok (up, down)) >>= S.serveConn, wst, [],
          [] ++ ([.snd .publicKey S.server_pk] ++ [.rcv .publicKey (some H.client_pk)])⟩⟩ := by
    have hgen := S.runs_serverCryptGen hk.client_pk hk.server wst [] false []
    rw [List.append_assoc []] at hgen
    have h := Reach.runsR (fun x => greet S x >>= S.serveConn) hgen
      (⟨awaitKeys H >>= withKeys H username first more, cst, [], [] ++ [.snd .publicKey H.client_pk]⟩ :
        Party ClientState ConnRole ClientExit) rfl
    rw [← handleConn_eq] at h
    simpa only [sent, Party.feed, List.append_nil, List.nil_append, List.cons_append] using h
  -- the credentials
  obtain ⟨n1, n2, evs, hn1, hn2, hsent, hoffer⟩ := runs_offer C username cst [] false
    ([] ++ [.snd .publicKey H.client_pk] ++ [.rcv .publicKey (some S.server_pk)])
  obtain ⟨creds, evs', hsent', hgreet⟩ := runs_greet hk hn1 hn2 hu hp wst [] false
    ([] ++ ([.snd .publicKey S.server_pk] ++ [.rcv .publicKey (some H.client_pk)]))
  have h3 := Reach.runsL (withKeys H username first more)
    (runs_awaitKeys hk cst [] false ([] ++ [.snd .publicKey H.client_pk]))
    (⟨greet S (.ok (up, down)) >>= S.serveConn, wst, [],
      [] ++ ([.snd .publicKey S.server_pk] ++ [.rcv .publicKey (some H.client_pk)])⟩ :
      Party WorkerState ConnRole ConnEnd) rfl
  rw [hprog] at h3
  have h4 := Reach.runsL (fun _ => waiting) hoffer
    (⟨greet S (.ok (up, down)) >>= S.serveConn, wst, [],
      [] ++ ([.snd .publicKey S.server_pk] ++ [.rcv .publicKey (some H.client_pk)])⟩ :
      Party WorkerState ConnRole ConnEnd) rfl
  have h5 := Reach.runsR S.serveConn hgreet
    (⟨waiting, offered C cst, [], [] ++ [.snd .publicKey H.client_pk] ++ [.rcv .publicKey (some S.server_pk)] ++ evs⟩ :
      Party ClientState ConnRole ClientExit) rfl
  simp only [sent, Party.feed, hsent, hsent', List.nil_append, List.append_nil, List.append_assoc] at h1 h2 h3 h4 h5 ⊢
  exact ⟨creds, _, _, h1.trans (h2.trans (h3.trans (h4.trans h5)))⟩

end

/-! ## From the verdict on -/

/-- What the client does with a verdict that has come whole. -/
theorem onVerdict_read (C : ClientEnv) {v : Int} (hv : v = ACK_SUC ∨ v = ACK_FAIL) (first : UserAction)
    (more : List UserAction) : (onVerdict first more C (some (i32Enc v)) >>= fun x => pure (exitOf x)) =
      if v = ACK_SUC then zoom (wholePart ClientState) ConnRole.session (C.authedComms first more) >>=
        fun e => pure (.ended e) else pure .unauthenticated := by
  have hgo := goes_on_iff hv (Nat.le_refl 4)
  rw [List.take_of_length_le (i32Enc_length v).le] at hgo
  dsimp only [onVerdict]
  by_cases h : v = ACK_SUC
  · rw [if_pos (hgo.mpr ⟨h, by decide⟩), if_pos h, LawfulMonad.bind_assoc]
    rfl
  · rw [if_neg fun h' => h (hgo.mp h').1, if_neg h]
    rfl

theorem serveConn_fine {S : ServerHost} (h : S.fails = fun _ => none) (l : LoggedIn) :
    S.serveConn (.inr l) =
      zoom opPart ConnRole.session (S.env l).session >>= fun e => pure (ServerHost.ended e) := by
  unfold ServerHost.serveConn
  rw [h, ← ServerEnv.sessionVia_openIn, ← ServerEnv.openInOn_none]

theorem reach_onVerdict (C : ClientEnv) {v : Int} (hv : v = ACK_SUC ∨ v = ACK_FAIL) (first : UserAction)
    (more : List UserAction) (st : ClientState) (hl : List (Ev ConnRole)) (r : Party WorkerState ConnRole ConnEnd) :
    Reach (⟨⟨recvN .ack 4 >>= fun o => onVerdict first more C o >>= fun x => pure (exitOf x), st, i32Enc v, hl⟩, r⟩ :
        Connection)
      ⟨⟨if v = ACK_SUC then zoom (wholePart ClientState) ConnRole.session (C.authedComms first more) >>=
          fun e => pure (.ended e) else pure .unauthenticated, st, [], hl ++ [.rcv .ack (some (i32Enc v))]⟩, r⟩ := by
  have hr := runs_recvN_append st r.done hl ConnRole.ack (i32Enc v) []
  rw [List.append_nil, i32Enc_length] at hr
  have h := Reach.runsL (fun o => onVerdict first more C o >>= fun x => pure (exitOf x)) hr r rfl
  rw [onVerdict_read C hv] at h
  simpa only [sent, Party.feed, List.append_nil] using h

section
variable {H : ClientHost} {S : ServerHost} {up down username : Bytes} (hk : Agreed H S up down)
  (hu : (username ++ [0]).length ≤ FILE_ENCRYPTED_CHUNK_SIZE)
  (hp : (H.password ++ [0]).length ≤ FILE_ENCRYPTED_CHUNK_SIZE) (first : UserAction) (more : List UserAction)
  (cst : ClientState) (wst : WorkerState)

include hk hu hp

theorem reach_opening (hfine : S.fails = fun _ => none)
    (hacc : S.db.accepts (cstr username) (H.password ++ [0]) = true) :
    ∃ creds hl hr, Reach (connecting H S username first more cst wst)
      ((opening (H.env (down, up)) (S.env ⟨up, down, cstr username⟩) first more (offered (H.env (down, up)) cst)
        wst.op).within ⟨wholePart ClientState, .session, offered (H.env (down, up)) cst, hl, .ended⟩
          ⟨opPart, .session, { wst with creds := creds }, hr, ServerHost.ended⟩) := by
  obtain ⟨creds, hl, hr, h⟩ := reach_verdict hk hu hp first more cst wst
  rw [hacc] at h
  have h' := h.trans (reach_onVerdict _ (.inl rfl) first more _ hl _)
  rw [if_pos rfl, if_pos rfl, serveConn_fine hfine] at h'
  refine ⟨creds, hl ++ [.rcv .ack (some (i32Enc ACK_SUC))], hr, ?_⟩
  unfold opening Net.within Party.within
  simp only [List.map_nil, List.append_nil]
  exact h'

theorem reach_refusal (hacc : S.db.accepts (cstr username) (H.password ++ [0]) = false) :
    ∃ creds hl hr, Reach (connecting H S username first more cst wst)
      ⟨⟨pure .unauthenticated, offered (H.env (down, up)) cst, [], hl⟩,
        ⟨pure .refused, { wst with creds := creds }, [], hr⟩⟩ := by
  obtain ⟨creds, hl, hr, h⟩ := reach_verdict hk hu hp first more cst wst
  rw [hacc] at h
  exact ⟨creds, _, hr, h.trans (reach_onVerdict _ (.inr rfl) first more _ hl _)⟩

/-- With a password the server accepts, every schedule leads into a session of the
two under their common keys, and the server's is the user's of that name. -/
theorem connection_opens (hfine : S.fails = fun _ => none)
    (hacc : S.db.accepts (cstr username) (H.password ++ [0]) = true) :
    Linked (H.env (down, up)) (S.env ⟨up, down, cstr username⟩) ∧
    ∃ creds hl hr, Sure (connecting H S username first more cst wst)
      ((opening (H.env (down, up)) (S.env ⟨up, down, cstr username⟩) first more (offered (H.env (down, up)) cst)
        wst.op).within ⟨wholePart ClientState, .session, offered (H.env (down, up)) cst, hl, .ended⟩
          ⟨opPart, .session, { wst with creds := creds }, hr, ServerHost.ended⟩) := by
  obtain ⟨creds, hl, hr, h⟩ := reach_opening hk hu hp first more cst wst hfine hacc
  exact ⟨⟨hk.na, rfl, rfl⟩, creds, hl, hr, h.sure⟩

/-- With any other, it leads to the end of both, and the server's files are as they
were. -/
theorem connection_refused (hacc : S.db.accepts (cstr username) (H.password ++ [0]) = false) :
    ∃ t, Sure (connecting H S username first more cst wst) t ∧ t.l.pr = pure .unauthenticated ∧
      t.r.pr = pure .refused ∧ t.l.inp = [] ∧ t.r.inp = [] ∧ t.r.st.op = wst.op := by
  obtain ⟨creds, hl, hr, h⟩ := reach_refusal hk hu hp first more cst wst hacc
  exact ⟨_, h.sure, rfl, rfl, rfl, rfl, rfl⟩

end

/-- Alice's machine, with the keys `aliceServer` has. -/
def aliceMachine : ClientHost :=
  ⟨plainSodium, quietHost, [], [112, 119], List.replicate 32 0, fun _ => some ([2], [1])⟩

/-- The password comes with its NUL. -/
def aliceAccount : UserDb := ⟨[(alice, [112, 119])], fun hash p => hash ++ [0] == p⟩

def aliceGate : ServerHost := { aliceHost with db := aliceAccount }

theorem alice_agreed : Agreed aliceMachine aliceGate [1] [2] :=
  ⟨rfl, List.length_replicate .., List.length_replicate .., rfl, rfl⟩

theorem connection_opens_alice :
    ∃ F F', Reach (connecting aliceMachine aliceGate alice ⟨WRITE_TO_FILESYSTEM, [97]⟩ [] aliceHome aliceWorker)
      ((opening aliceClient aliceServer ⟨WRITE_TO_FILESYSTEM, [97]⟩ [] (offered aliceClient aliceHome)
        aliceDir).within F F') := by
  obtain ⟨-, creds, hl, hr, h⟩ := connection_opens alice_agreed (by decide : (alice ++ [0]).length ≤ _) (by decide)
    ⟨WRITE_TO_FILESYSTEM, [97]⟩ [] aliceHome aliceWorker rfl (by decide)
  exact ⟨_, _, h.reach⟩

/-- Nobody of that name. -/
theorem connection_refused_mallory :
    ∃ t, Reach (connecting aliceMachine aliceGate [109] ⟨WRITE_TO_FILESYSTEM, [97]⟩ [] aliceHome aliceWorker) t ∧
      t.r.pr = pure .refused ∧ t.r.st.op = aliceDir := by
  obtain ⟨t, h, -, hr, -, -, hop⟩ := connection_refused alice_agreed (by decide : (([109] : Bytes) ++ [0]).length ≤ _)
    (by decide) ⟨WRITE_TO_FILESYSTEM, [97]⟩ [] aliceHome aliceWorker (by decide)
  exact ⟨t, h.reach, hr, hop⟩

end Mefsc.L4
