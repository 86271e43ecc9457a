import Mefsc.Core.Zoom
import Mefsc.L3Protocol.Login
import Mefsc.L3Protocol.ServerParts
import Mefsc.L3Protocol.ServerRuns

/-!
# One connection

`handle_conn` of `src/server/server.cpp` from its first line to the end of the
dispatch loop: the key exchange (`server_crypt_gen`), the login and the session.
The key pair and `crypto_kx_server_session_keys` are taken as they are. What
follows the loop (`clients`, `close`, the counter) is in the accept loop's model.

`Serves` are the rounds a session gets to, `Asks` the notice and the intent at
the front of one.
-/
namespace Mefsc.L3

open L1 L1.SessionEncWrapper L2
open Proc hiding ret recv send act iter bind

/-- The locals of `verify_credentials`, and the server's files with the
`FS_Operator`. -/
structure WorkerState where
  creds : CredLocals
  op : FsOperator

inductive ConnRole where
  | publicKey | ack
  | credential (c : Credential)
  | session (r : Role)
  deriving DecidableEq, Repr

/-- How `handle_conn` ends. -/
inductive ConnEnd where
  | keyExchange | refused | served
  | threw (e : Errno)
  deriving DecidableEq, Repr

def credsPart : Part CredLocals WorkerState where
  get t := t.creds
  set t s := { t with creds := s }
  get_set _ _ := rfl
  set_set _ _ _ := rfl
  set_get _ := rfl

def opPart : Part FsOperator WorkerState where
  get t := t.op
  set t s := { t with op := s }
  get_set _ _ := rfl
  set_set _ _ _ := rfl
  set_get _ := rfl

/-- What the session is opened with. -/
structure LoggedIn where
  server_rx : Bytes
  server_tx : Bytes
  username : Bytes
  deriving DecidableEq, Repr

/-- The server: its keys for this connection, the accounts, and a disk on which
reads may fail. -/
structure ServerHost where
  na : Sodium
  host : Host
  cwd : Path
  db : UserDb
  server_pk : Bytes
  server_session_keys : Bytes → Option (Bytes × Bytes)
  fails : Nat → Option Nat

namespace ServerHost

variable (S : ServerHost)

def env (l : LoggedIn) : ServerEnv := ⟨S.na, S.host, l.server_rx, l.server_tx, S.cwd, l.username⟩

/-- mirrors src/encryption_utils/encryption_utils.cpp:48-74 -/
def serverCryptGen : Proc WorkerState ConnRole (Except Int (Bytes × Bytes)) := do
  let _ ← sendB .publicKey S.server_pk
  match ← recvN .publicKey KX_PUBLICKEYBYTES with
  | none => return .error 2
  | some client_pk =>
    match S.server_session_keys client_pk with
    | none => return .error 1
    | some keys => return .ok keys

/-- Up to the constructor of `FS_Operator`.
mirrors src/server/server.cpp:120-139 -/
def logIn : Proc WorkerState ConnRole (ConnEnd ⊕ LoggedIn) := do
  match ← S.serverCryptGen with
  | .error _ => return .inl .keyExchange
  | .ok (server_rx, server_tx) =>
    let (ret, username) ← zoom credsPart .credential (verifyCredentials S.db S.na.aead server_rx)
    if ret ≠ 0 then
      let _ ← sendB .ack (i32Enc ACK_FAIL)
      return .inl .refused
    else
      let _ ← sendB .ack (i32Enc ACK_SUC)
      return .inr ⟨server_rx, server_tx, username⟩

def ended : ServerEnv.Ended → ConnEnd
  | .closed => .served
  | .threw e => .threw e

/-- mirrors src/server/server.cpp:139-176 -/
def serveConn : ConnEnd ⊕ LoggedIn → Proc WorkerState ConnRole ConnEnd
  | .inl e => return e
  | .inr l => do
    let e ← zoom opPart .session ((S.env l).sessionVia ((S.env l).openInOn S.fails))
    return ended e

/-- mirrors src/server/server.cpp:113-176 -/
def handleConn : Proc WorkerState ConnRole ConnEnd := S.logIn >>= S.serveConn

theorem straight_logIn : Straight S.logIn := by
  refine closed_straight.bind ?_ fun x => ?_
  · refine closed_straight.bind (closed_straight.sendB _ _) fun _ => ?_
    refine closed_straight.bind (closed_straight.recvN _ _) fun o => ?_
    cases o with
    | none => exact closed_straight.pure _
    | some client_pk =>
      dsimp only
      cases S.server_session_keys client_pk <;> exact closed_straight.pure _
  · cases x with
    | error e => exact closed_straight.pure _
    | ok keys =>
      refine closed_straight.bind (Straight.zoom ?_) fun x => ?_
      · refine closed_straight.bind (closed_ofSock closed_straight _) fun _ => ?_
        refine closed_straight.bind (fun _ => trivial) fun _ => ?_
        refine closed_straight.bind (fun _ => trivial) fun _ => ?_
        refine closed_straight.bind (closed_ofSock closed_straight _) fun _ => ?_
        refine closed_straight.bind (fun _ => trivial) fun _ => ?_
        refine closed_straight.bind (fun _ => trivial) fun _ => ?_
        exact Closed.ite (closed_straight.pure _) (closed_straight.pure _)
      · refine Closed.ite ?_ ?_
        · exact closed_straight.bind (closed_straight.sendB _ _) fun _ => closed_straight.pure _
        · exact closed_straight.bind (closed_straight.sendB _ _) fun _ => closed_straight.pure _

end ServerHost

/-! ## An honest login -/

section
variable {db : UserDb} {A : Aead} {rx n1 n2 user pw : Bytes}

theorem runs_verify_honest (h1 : n1.length = 8) (h2 : n2.length = 8)
    (hu : (user ++ [0]).length ≤ FILE_ENCRYPTED_CHUNK_SIZE) (hp : pw.length ≤ FILE_ENCRYPTED_CHUNK_SIZE)
    (hacc : db.accepts (cstr user) pw = true) (l : CredLocals) (rest : Bytes) (e : Bool)
    (h : List (Ev Credential)) :
    ∃ l' h', Runs (verifyCredentials db A rx)
      ⟨l, frame A rx n1 (user ++ [0]) ++ (frame A rx n2 pw ++ rest), e, h, []⟩ (0, cstr user)
      ⟨l', rest, e, h', []⟩ := by
  apply Exists.intro
  apply Exists.intro
  refine Runs.ofSock_bind _ e h h1 hu ?_
  refine Runs.modify_bind ?_
  refine Runs.read_bind ?_
  refine Runs.ofSock_bind _ e _ h2 hp ?_
  refine Runs.modify_bind ?_
  refine Runs.modifyGet_bind ?_
  rw [login_fst, unwrap_received _ _ _ hu hu, unwrap_received _ _ _ hp hp]
  have hpw : (blit pw l.decrypted_password).take pw.length = pw := List.take_left' rfl
  simp only [cstr_blit_nul, hpw, hacc, if_true, ne_eq, not_true_eq_false, if_false, runs_pure, true_and]
  rfl

theorem ServerHost.runs_serverCryptGen (S : ServerHost) {pk : Bytes} {keys : Bytes × Bytes}
    (hpk : pk.length = KX_PUBLICKEYBYTES) (hk : S.server_session_keys pk = some keys) (st : WorkerState)
    (rest : Bytes) (e : Bool) (h : List (Ev ConnRole)) :
    Runs S.serverCryptGen ⟨st, pk ++ rest, e, h, []⟩ (.ok keys)
      ⟨st, rest, e, h ++ [.snd .publicKey S.server_pk] ++ [.rcv .publicKey (some pk)], []⟩ := by
  have hr := runs_recvN_append st e (h ++ [.snd .publicKey S.server_pk]) ConnRole.publicKey pk rest
  rw [hpk] at hr
  refine Runs.bind (runs_sendB_all st e h _ _ _) ?_
  refine Runs.bind hr ?_
  simp only [hk]
  exact (runs_pure _ _ _ _).mpr ⟨rfl, rfl⟩

theorem ServerHost.runs_logIn (S : ServerHost) {pk tx : Bytes} (hpk : pk.length = KX_PUBLICKEYBYTES)
    (hk : S.server_session_keys pk = some (rx, tx)) (h1 : n1.length = 8) (h2 : n2.length = 8)
    (hu : (user ++ [0]).length ≤ FILE_ENCRYPTED_CHUNK_SIZE) (hp : pw.length ≤ FILE_ENCRYPTED_CHUNK_SIZE)
    (hacc : S.db.accepts (cstr user) pw = true) (st : WorkerState) (rest : Bytes) (e : Bool)
    (h : List (Ev ConnRole)) :
    ∃ creds h', Runs S.logIn
      ⟨st, pk ++ (frame S.na.aead rx n1 (user ++ [0]) ++ (frame S.na.aead rx n2 pw ++ rest)), e, h, []⟩
      (.inr ⟨rx, tx, cstr user⟩) ⟨{ st with creds := creds }, rest, e, h', []⟩ := by
  obtain ⟨creds, h', hv⟩ : ∃ creds h', Runs (verifyCredentials S.db S.na.aead rx)
      ⟨st.creds, frame S.na.aead rx n1 (user ++ [0]) ++ (frame S.na.aead rx n2 pw ++ rest), e, [], []⟩
      (0, cstr user) ⟨creds, rest, e, h', []⟩ :=
    runs_verify_honest h1 h2 hu hp hacc st.creds rest e []
  refine ⟨creds, ?_⟩
  apply Exists.intro
  refine Runs.bind (S.runs_serverCryptGen hpk hk st _ e h) ?_
  refine Runs.bind (runs_zoom.mpr ⟨_, hv, rfl⟩) ?_
  simp only [ne_eq, not_true_eq_false, if_false]
  refine Runs.bind (runs_sendB_all _ e _ _ _ _) ?_
  exact (runs_pure _ _ _ _).mpr ⟨rfl, rfl⟩

end

/-! ## Rounds -/

namespace ServerEnv

variable (E : ServerEnv)

/-- The round finds a notice and this intent, and gets to its handler. -/
def Asks (act : Nat) (intent : Int) (w w' : World FsOperator Role) : Prop :=
  intent ≠ INVALID_READ_INTENT ∧
    ∃ w1, Runs (E.receiveNoticeOfNewAction act) w 0 w1 ∧ Runs (E.readIntent act) w1 intent w'

/-- The session gets to round `act` in the world `w'`. -/
def Serves (openIn : Bytes → Server (Option Source)) (w : World FsOperator Role) (act : Nat)
    (w' : World FsOperator Role) : Prop :=
  ∃ w1 w2, Runs E.makeUserDir w (.ok ()) w1 ∧ Runs E.freshNonce w1 () w2 ∧
    Rounds (E.serveRoundVia openIn) 0 w2 act w'

variable {E} {openIn : Bytes → Server (Option Source)}

/-- On a client's request. -/
theorem asks_request (act : Nat) {n1 n2 : Bytes} (h1 : n1.length = 8) (h2 : n2.length = 8) {v : Int}
    (lo : -2 ^ 31 ≤ v) (hi : v < 2 ^ 31) (hv : v ≠ INVALID_READ_INTENT) (st : FsOperator) (rest : Bytes)
    (e : Bool) (h : List (Ev Role)) :
    E.Asks act v
      ⟨st, frame E.na.aead E.server_rx n1 (i32Enc NEW_ACTION) ++
        (frame E.na.aead E.server_rx n2 (i32Enc v) ++ rest), e, h, []⟩
      ⟨{ st with locals := st.locals + 2 }, rest, e, h ++ E.requestRcvs act n1 n2 v, []⟩ := by
  have hr := runs_receiveNotice (E := E) st (frame E.na.aead E.server_rx n2 (i32Enc v) ++ rest) e h act h1
    (v := NEW_ACTION) (by decide) (by decide)
  rw [if_pos rfl] at hr
  refine ⟨hv, _, hr, ?_⟩
  have hi' := runs_readIntent (E := E) { st with locals := st.locals + 1 } rest e
    (h ++ frameRcvs E.na.aead ⟨act, .notice⟩ E.server_rx n1 (i32Enc NEW_ACTION)) act h2 lo hi
  rw [List.append_assoc] at hi'
  exact hi'

/-- The first round. -/
theorem serves_first {st : FsOperator} {fs : FS}
    (hm : st.fs.createDirectories E.cwd (splitSlash E.user_dir) = .ok fs) (inp : Bytes) (e : Bool)
    (h : List (Ev Role)) :
    E.Serves openIn ⟨st, inp, e, h, []⟩ 0
      ⟨{ st with fs := fs, nonce := fit AEAD_NPUBBYTES (E.host.rand st.draws), draws := st.draws + 1 }, inp,
        e, h, []⟩ := by
  refine ⟨⟨{ st with fs := fs }, inp, e, h, []⟩, _, ?_, runs_freshNonce _ _ _ _, .refl⟩
  exact (runs_modifyGet _ _ _ _).mpr ⟨by rw [hm], by rw [hm]⟩

theorem straight_parts : Parts (fun {_} p => Straight p) where
  toClosed := closed_straight
  frame _ _ _ := trivial

theorem Asks.unique {act : Nat} {i j : Int} {w w1 w2 : World FsOperator Role} (h1 : E.Asks act i w w1)
    (h2 : E.Asks act j w w2) : i = j ∧ w1 = w2 := by
  obtain ⟨-, v, hv, hv1⟩ := h1
  obtain ⟨-, v', hv', hv2⟩ := h2
  obtain ⟨-, rfl⟩ := hv.unique hv'
  exact hv1.unique hv2

/-- What happens in a round, by its request. -/
theorem runs_serveRoundVia {act : Nat} {w w' : World FsOperator Role} {x : Nat ⊕ Ended} :
    Runs (E.serveRoundVia openIn act) w x w' ↔
      (∃ r, Runs (E.receiveNoticeOfNewAction act) w r w' ∧ r ≠ 0 ∧ x = .inr .closed) ∨
      (∃ w1, Runs (E.receiveNoticeOfNewAction act) w 0 w1 ∧
        Runs (E.readIntent act) w1 INVALID_READ_INTENT w' ∧ x = .inl (act + 1)) ∨
      ∃ intent w1 y, E.Asks act intent w w1 ∧ Runs (E.dispatchVia openIn act intent) w1 y w' ∧
        x = roundEnd act y := by
  unfold serveRoundVia
  rw [runs_bind]
  constructor
  · rintro ⟨r, w1, h1, hx⟩
    by_cases hr : r = 0
    · subst hr
      simp only [ne_eq, not_true_eq_false, if_false, runs_bind] at hx
      obtain ⟨intent, w2, h2, hx⟩ := hx
      by_cases hi : intent = INVALID_READ_INTENT
      · subst hi
        simp only [if_true, runs_pure] at hx
        obtain ⟨rfl, rfl⟩ := hx
        exact .inr (.inl ⟨w1, h1, h2, rfl⟩)
      · simp only [hi, if_false, runs_bind] at hx
        obtain ⟨y, w3, h3, hx⟩ := hx
        refine .inr (.inr ⟨intent, w2, y, ⟨hi, w1, h1, h2⟩, ?_⟩)
        cases y with
        | error e =>
          obtain ⟨rfl, rfl⟩ := (runs_pure _ _ _ _).mp hx
          exact ⟨h3, rfl⟩
        | ok u =>
          obtain ⟨rfl, rfl⟩ := (runs_pure _ _ _ _).mp hx
          exact ⟨h3, rfl⟩
    · simp only [ne_eq, hr, not_false_eq_true, if_true, runs_pure] at hx
      obtain ⟨rfl, rfl⟩ := hx
      exact .inl ⟨r, h1, hr, rfl⟩
  · rintro (⟨r, h1, hr, rfl⟩ | ⟨w1, h1, h2, rfl⟩ | ⟨intent, w2, y, ⟨hi, w1, h1, h2⟩, h3, rfl⟩)
    · exact ⟨r, w', h1, by simp [hr]⟩
    · refine ⟨0, w1, h1, ?_⟩
      simp only [ne_eq, not_true_eq_false, if_false, runs_bind]
      exact ⟨_, _, h2, by simp⟩
    · refine ⟨0, w1, h1, ?_⟩
      simp only [ne_eq, not_true_eq_false, if_false, runs_bind]
      refine ⟨intent, w2, h2, ?_⟩
      simp only [hi, if_false, runs_bind]
      refine ⟨y, w', h3, ?_⟩
      cases y <;> exact (runs_pure _ _ _ _).mpr ⟨rfl, rfl⟩

/-- A round that gets to its handler. -/
theorem Asks.runs_round {act : Nat} {intent : Int} {w w1 w' : World FsOperator Role} {x : Nat ⊕ Ended}
    (ha : E.Asks act intent w w1) :
    Runs (E.serveRoundVia openIn act) w x w' ↔
      ∃ y, Runs (E.dispatchVia openIn act intent) w1 y w' ∧ x = roundEnd act y := by
  rw [runs_serveRoundVia]
  constructor
  · obtain ⟨hne, v, hv, hv1⟩ := ha
    rintro (⟨r, hr, hr0, -⟩ | ⟨v', hv', hi, -⟩ | ⟨j, v', y, hj, hd, hx⟩)
    · exact absurd (hv.unique hr).1.symm hr0
    · obtain ⟨-, rfl⟩ := hv.unique hv'
      exact absurd (hv1.unique hi).1 hne
    · obtain ⟨rfl, rfl⟩ := Asks.unique ⟨hne, v, hv, hv1⟩ hj
      exact ⟨y, hd, hx⟩
  · rintro ⟨y, hd, rfl⟩
    exact .inr (.inr ⟨intent, w1, y, ha, hd, rfl⟩)

/-- Rounds are counted. -/
theorem runs_serveRoundVia_next {act act' : Nat} {w w' : World FsOperator Role}
    (h : Runs (E.serveRoundVia openIn act) w (.inl act') w') : act' = act + 1 := by
  rcases runs_serveRoundVia.mp h with ⟨r, -, -, hx⟩ | ⟨v, -, -, hx⟩ | ⟨i, v, y, -, -, hx⟩
  · cases hx
  · exact Sum.inl.inj hx
  · cases y with
    | error er => cases hx
    | ok u => exact Sum.inl.inj hx

end ServerEnv

end Mefsc.L3
