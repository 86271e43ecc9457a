import Mefsc.Core.Seen
import Mefsc.L1Encoding.Offers
import Mefsc.L3Protocol.HandleConn
import Mefsc.L4App.Ends
import Mefsc.L4App.Isolation

/-!
# Who is served, and what of

`handle_conn` on a client that may send anything, at every moment of the connection
and whatever becomes of the server's sends.

`Admitted`: the two credential frames, and where they bring nothing the earlier
contents of the two buffers, make up a name and a password that an account accepts.

`admission`: a session is opened for a user exactly when this user is admitted.
Before, and with any other client, the server's files and the operator are as they
were, and nothing but the public key and one verdict was handed to the connection.
Behind it the regular files outside the directory of this user are as they were, as
long as no name climbs.
-/
namespace Mefsc.L4

open L1 L1.SessionEncWrapper L2 L3
open Proc hiding ret recv send act iter bind

/-! ## The login -/

/-- `verify_credentials` returns 0 for `user`. -/
def Vouched (db : UserDb) (A : Aead) (rx : Bytes) (l : CredLocals) (inp : Bytes) (e : Bool) (user : Bytes) : Prop :=
  ∃ s1 r1 s2 r2, takeSlot A rx inp e = some (s1, r1) ∧ takeSlot A rx r1 e = some (s2, r2) ∧
    user = cstr (s1.fill l.decrypted_username l.decrypted_username_len).1 ∧
    db.accepts user (s2.password l.decrypted_password l.decrypted_password_len) = true

def Admitted (S : ServerHost) (l : CredLocals) (inp : Bytes) (e : Bool) (user : Bytes) : Prop :=
  KX_PUBLICKEYBYTES ≤ inp.length ∧ ∃ keys, S.server_session_keys (inp.take KX_PUBLICKEYBYTES) = some keys ∧
    Vouched S.db S.na.aead keys.1 l (inp.drop KX_PUBLICKEYBYTES) e user

section
variable {db : UserDb} {A : Aead} {rx : Bytes} {inp : Bytes} {e : Bool} {user : Bytes}

theorem vouched_iff {l : CredLocals} (h : List (Ev Credential)) (os : List (Option Nat)) :
    Vouched db A rx l inp e user ↔ ∃ w', Runs (verifyCredentials db A rx) ⟨l, inp, e, h, os⟩ (0, user) w' := by
  constructor
  · intro hv
    obtain ⟨s1, r1, s2, r2, t1, t2, rfl, hacc⟩ := hv
    have hruns : ∃ username w', Runs (verifyCredentials db A rx) ⟨l, inp, e, h, os⟩ _ w' :=
      runs_verifyCredentials db h t1 t2 l
    obtain ⟨username, w', hr⟩ := hruns
    rw [if_pos hacc] at hr
    obtain ⟨s1', r1', t1', rfl⟩ := verifyCredentials_username hr
    rw [t1] at t1'
    cases t1'
    exact ⟨w', hr⟩
  · intro hruns
    obtain ⟨w', hr⟩ := hruns
    obtain ⟨s1, r1, s2, r2, t1, t2, hret⟩ := verifyCredentials_cases hr
    obtain ⟨s1', r1', t1', rfl⟩ := verifyCredentials_username hr
    rw [t1] at t1'
    cases t1'
    refine ⟨s1, r1, s2, r2, t1, t2, rfl, ?_⟩
    by_contra hrej
    rw [if_neg hrej] at hret
    cases hret

/-- Only a name in the table. -/
theorem Vouched.mem {l : CredLocals} (h : Vouched db A rx l inp e user) : ∃ x ∈ db.users, x.1 = user := by
  obtain ⟨-, -, s2, -, -, -, -, hacc⟩ := h
  unfold UserDb.accepts at hacc
  cases hl : db.users.lookup user with
  | none => simp [hl] at hacc
  | some hash =>
    obtain ⟨l1, l2, hsplit, -⟩ := List.lookup_eq_some_iff.mp hl
    exact ⟨(user, hash), by simp [hsplit], rfl⟩

end

/-- The key exchange, whatever becomes of the send. -/
theorem runs_serverCryptGen_iff (S : ServerHost) (w : World WorkerState ConnRole) :
    ∃ h os, ∀ keys w1, Runs S.serverCryptGen w (.ok keys) w1 ↔ KX_PUBLICKEYBYTES ≤ w.inp.length ∧
      S.server_session_keys (w.inp.take KX_PUBLICKEYBYTES) = some keys ∧
      w1 = ⟨w.st, w.inp.drop KX_PUBLICKEYBYTES, w.eof, h, os⟩ := by
  obtain ⟨h, os, hpk⟩ := send_same w .publicKey S.server_pk
  refine ⟨h ++ [.rcv .publicKey (some (w.inp.take KX_PUBLICKEYBYTES))], os, fun keys w1 => ?_⟩
  unfold ServerHost.serverCryptGen
  rw [runs_bind]
  constructor
  · intro hruns
    obtain ⟨x, v, hx, hr⟩ := hruns
    rw [runs_sendB] at hx
    obtain rfl : (w.send .publicKey S.server_pk).2 = v := congrArg Prod.snd hx
    rw [hpk, runs_bind] at hr
    obtain ⟨y, v, hy, hr⟩ := hr
    rcases recvN_cases hy with ⟨hn, rfl, rfl⟩ | ⟨-, -, rfl, rfl⟩
    · dsimp only at hr
      cases hk : S.server_session_keys (w.inp.take KX_PUBLICKEYBYTES) with
      | none =>
        rw [hk] at hr
        cases ((runs_pure _ _ _ _).mp hr).1
      | some keys' =>
        rw [hk] at hr
        obtain ⟨hkeys, rfl⟩ := (runs_pure _ _ _ _).mp hr
        cases hkeys
        exact ⟨hn, rfl, rfl⟩
    · cases ((runs_pure _ _ _ _).mp hr).1
  · intro hkeys
    obtain ⟨hn, hk, rfl⟩ := hkeys
    have hsend := runs_send w .publicKey S.server_pk
    rw [hpk] at hsend
    refine ⟨_, _, hsend, ?_⟩
    refine Runs.bind (runs_recvN_take hn) ?_
    dsimp only
    rw [hk]
    exact (runs_pure _ _ _ _).mpr ⟨rfl, rfl⟩

/-- Exactly then a session is opened. -/
theorem admitted_iff {S : ServerHost} {w : World WorkerState ConnRole} {user : Bytes} :
    Admitted S w.st.creds w.inp w.eof user ↔
      ∃ l w1, Runs S.logIn w (.inr l) w1 ∧ l.username = user := by
  obtain ⟨h, os, hgen⟩ := runs_serverCryptGen_iff S w
  constructor
  · intro hadm
    obtain ⟨hlen, ⟨rx, tx⟩, hkeys, hv⟩ := hadm
    obtain ⟨w2, hv⟩ := (vouched_iff [] os).mp hv
    refine ⟨⟨rx, tx, user⟩, ((w2.within credsPart .credential w.st h).send .ack (i32Enc ACK_SUC)).2, ?_, rfl⟩
    refine Runs.bind ((hgen _ _).mpr ⟨hlen, hkeys, rfl⟩) ?_
    refine Runs.bind (runs_zoom.mpr ⟨w2, hv, rfl⟩) ?_
    simp only [ne_eq, not_true_eq_false, if_false]
    exact Runs.bind (runs_send _ _ _) ((runs_pure _ _ _ _).mpr ⟨rfl, rfl⟩)
  · intro hopen
    obtain ⟨l, w1, hr, rfl⟩ := hopen
    unfold ServerHost.logIn at hr
    rw [runs_bind] at hr
    obtain ⟨x, v, hx, hr⟩ := hr
    cases x with
    | error i => cases ((runs_pure _ _ _ _).mp hr).1
    | ok keys =>
      obtain ⟨hlen, hkeys, rfl⟩ := (hgen _ _).mp hx
      rw [runs_bind] at hr
      obtain ⟨⟨ret, username⟩, v2, hz, hr⟩ := hr
      obtain ⟨v0, hv, rfl⟩ := runs_zoom.mp hz
      refine ⟨hlen, keys, hkeys, ?_⟩
      by_cases hret : ret = 0
      · subst hret
        simp only [ne_eq, not_true_eq_false, if_false, runs_bind] at hr
        obtain ⟨_, _, -, hr⟩ := hr
        obtain ⟨heq, -⟩ := (runs_pure _ _ _ _).mp hr
        cases heq
        exact (vouched_iff [] os).mpr ⟨v0, hv⟩
      · simp only [ne_eq, hret, not_false_eq_true, if_true, runs_bind] at hr
        obtain ⟨_, _, -, hr⟩ := hr
        cases ((runs_pure _ _ _ _).mp hr).1

/-! ## Before a session -/

/-- What was handed to the connection, and the operator. -/
def Untouched (S : ServerHost) (op : FsOperator) (o : List (ConnRole × Bytes)) (s : WorkerState) : Prop :=
  s.op = op ∧ ∃ verdict, o <+: [(.publicKey, S.server_pk), (.ack, i32Enc verdict)]

section
variable {S : ServerHost} {op : FsOperator}

theorem silent_verifyCredentials (db : UserDb) (A : Aead) (rx : Bytes) (w : World CredLocals Credential) :
    Silent (fun _ => ()) (verifyCredentials db A rx) w := by
  have hL := silent_law (ρ := Credential) fun _ : CredLocals => ()
  have hact {β : Type} (g : CredLocals → β × CredLocals) :
      Sums (fun _ => ()) (SilentRel fun _ => ()) (SilentRel fun _ => ()) (modifyGet g : Proc _ Credential β) :=
    hL.modifyGet fun _ => ⟨rfl, rfl⟩
  refine Sums.silent ?_ w
  refine hL.bind (L1.Law.ofSock hL _) fun _ => ?_
  refine hL.bind (hact _) fun _ => ?_
  refine hL.bind (hact _) fun _ => ?_
  refine hL.bind (L1.Law.ofSock hL _) fun _ => ?_
  refine hL.bind (hact _) fun _ => ?_
  refine hL.bind (hact _) fun _ => ?_
  split
  · exact hL.pure _
  · exact hL.pure _

theorem always_verify (rx : Bytes) {o : List (ConnRole × Bytes)} {w : World WorkerState ConnRole}
    (hw : Untouched S op o w.st) :
    Always (OnState (Untouched S op)) (zoom credsPart .credential (verifyCredentials S.db S.na.aead rx))
      (fun _ o' v => o' = o ∧ v.st.op = op) o w := by
  intro n o' q v hg
  rw [← World.part_within credsPart ConnRole.credential w] at hg
  obtain ⟨o0, q0, v0, hg0, rfl, rfl, rfl⟩ := goes_zoom hg
  obtain ⟨rfl, -⟩ := silent_verifyCredentials _ _ _ _ _ _ _ _ hg0
  rw [relabelled, List.map_nil, List.append_nil]
  exact ⟨hw, fun _ _ => ⟨rfl, hw.1⟩⟩

/-- Nothing is touched by the login. -/
theorem always_logIn (w : World WorkerState ConnRole) :
    Always (OnState (Untouched S w.st.op)) S.logIn (fun _ _ _ => True) [] w := by
  have hstart : Untouched S w.st.op [] w.st := ⟨rfl, 0, List.nil_prefix⟩
  have hkey {s : WorkerState} (hs : s.op = w.st.op) : Untouched S w.st.op [(.publicKey, S.server_pk)] s :=
    ⟨hs, 0, by simp⟩
  have hack {s : WorkerState} (hs : s.op = w.st.op) (v : Int) :
      Untouched S w.st.op ([(.publicKey, S.server_pk)] ++ [(.ack, i32Enc v)]) s := ⟨hs, v, List.prefix_rfl⟩
  have hdone {a : ConnEnd ⊕ LoggedIn} {v : World WorkerState ConnRole} (hv : v.st.op = w.st.op) (c : Int) :
      Always (OnState (Untouched S w.st.op)) (sendB .ack (i32Enc c) >>= fun _ => Pure.pure a) (fun _ _ _ => True)
        [(.publicKey, S.server_pk)] v := by
    refine Always.bind (Always.sendB (hkey hv) ?_)
    rw [OnState, send_st]
    refine ⟨hack hv c, Always.pure ?_ trivial⟩
    rw [OnState, send_st]
    exact hack hv c
  refine Always.bind (Always.mono (Q := fun _ o v => o = [(.publicKey, S.server_pk)] ∧ v.st.op = w.st.op) ?_ ?_)
  · refine Always.bind (Always.sendB hstart ?_)
    have hsent : Untouched S w.st.op ([] ++ [(.publicKey, S.server_pk)]) (w.send .publicKey S.server_pk).2.st := by
      rw [send_st]
      exact hkey rfl
    refine ⟨hsent, Always.bind (Always.recvN hsent fun x v hx => ?_)⟩
    have hv : v.st.op = w.st.op := by rw [recv_st hx, send_st]
    refine ⟨hkey hv, ?_⟩
    cases x with
    | none => exact Always.pure (hkey hv) ⟨rfl, hv⟩
    | some client_pk =>
      dsimp only
      cases S.server_session_keys client_pk with
      | none => exact Always.pure (hkey hv) ⟨rfl, hv⟩
      | some keys => exact Always.pure (hkey hv) ⟨rfl, hv⟩
  · intro x o v _ hx
    obtain ⟨rfl, hv⟩ := hx
    cases x with
    | error i => exact Always.pure (hkey hv) trivial
    | ok keys =>
      refine Always.bind (Always.mono (always_verify _ (hkey hv)) ?_)
      intro y o v _ hy
      obtain ⟨rfl, hv⟩ := hy
      exact Always.ite (fun _ => hdone hv _) fun _ => hdone hv _

end

/-! ## In a session -/

/-- While no name climbs, what the session has open and what it changes lies in its
user's directory. -/
def Confined (E : ServerEnv) (s t : FsOperator) : Prop :=
  Isolation.Level t → Isolation.Level s ∧ ((∀ p, s.file = some p → Isolation.home E <+: p) →
    (∀ p, t.file = some p → Isolation.home E <+: p) ∧ FS.SameFiles (Isolation.home E) s.fs t.fs)

section
variable {E : ServerEnv} (hu : Plain E.username)

open Isolation

theorem confined_refl (s : FsOperator) : Confined E s s := fun h => ⟨h, fun hf => ⟨hf, .refl _ _⟩⟩

theorem Confined.trans {s t u : FsOperator} (h1 : Confined E s t) (h2 : Confined E t u) : Confined E s u := by
  intro hu
  obtain ⟨ht, h2⟩ := h2 hu
  obtain ⟨hs, h1⟩ := h1 ht
  refine ⟨hs, fun hf => ?_⟩
  obtain ⟨hf1, hsame1⟩ := h1 hf
  obtain ⟨hf2, hsame2⟩ := h2 hf1
  exact ⟨hf2, hsame1.trans hsame2⟩

/-- An operation on the state. -/
theorem keeps_confined {β : Type} {f : FsOperator → β × FsOperator} (hf : ∀ s, Confined E s (f s).2) :
    Keeps (Confined E) (modifyGet f : Server β) := keeps_modifyGet confined_refl hf

theorem confined_writeOut (b : Bytes) : Keeps (Confined E) (ServerEnv.writeOut b) := by
  refine keeps_confined fun s => ?_
  obtain ⟨fs, nonce, file, draws, locals, names⟩ := s
  cases file with
  | none => exact confined_refl _
  | some p =>
    intro hl
    refine ⟨hl, fun hf => ⟨hf, ?_⟩⟩
    exact FS.SameFiles.append (.refl _ _) (hf p rfl) b

include hu in
theorem confined_openOut (n : Bytes) : Keeps (Confined E) (E.openOut n) := by
  refine keeps_confined fun s hl => ?_
  have hl' : Level (E.opened n s) := hl
  unfold Level at hl'
  rw [opened_names] at hl'
  obtain ⟨hs, hn⟩ := Level.of_append hl'
  refine ⟨hs, fun hf => ?_⟩
  have hsame : FS.Agree (home E) s.fs s.fs := rfl
  show (∀ p, (E.opened n s).file = some p → home E <+: p) ∧ FS.SameFiles (home E) s.fs (E.opened n s).fs
  unfold ServerEnv.opened
  rcases hsame.openTrunc (leads hu) hn with ⟨h1, -⟩ | ⟨p, hp, h1, -⟩
  · simp only [h1]
    exact ⟨by simp, .refl _ _⟩
  · simp only [h1]
    refine ⟨?_, FS.SameFiles.insert (.refl _ _) hp _⟩
    intro q hq
    cases hq
    exact hp

include hu in
theorem confined_removeFile (n : Bytes) : Keeps (Confined E) (E.removeFile n) := by
  refine keeps_confined fun s hl => ?_
  obtain ⟨hs, hn⟩ : Level s ∧ climbs n = false := by
    split at hl <;> exact Level.of_append hl
  refine ⟨hs, fun hf => ?_⟩
  have hsame : FS.Agree (home E) s.fs s.fs := rfl
  rcases hsame.remove (leads hu) hn with ⟨e, h1, -⟩ | ⟨h1, -⟩ | ⟨p, hp, h1, -⟩
  · simp only [h1]
    exact ⟨hf, .refl _ _⟩
  · simp only [h1]
    exact ⟨hf, .refl _ _⟩
  · simp only [h1]
    exact ⟨hf, FS.SameFiles.erase (.refl _ _) hp⟩

theorem confined_makeUserDir : Keeps (Confined E) E.makeUserDir := by
  refine keeps_confined fun s => ?_
  cases hx : s.fs.createDirectories E.cwd (splitSlash E.user_dir) with
  | error e => exact confined_refl s
  | ok fs =>
    intro hl
    exact ⟨hl, fun hf => ⟨hf, FS.SameFiles.createDirectories (.refl _ _) hx⟩⟩

include hu in
theorem confined_session (fails : Nat → Option Nat) :
    Keeps (Confined E) (E.sessionVia (E.openInOn fails)) := by
  have hfiles : ServerEnv.Files E (E.openInOn fails) (fun {_} p => Keeps (Confined E) p) :=
    { closed_keeps confined_refl Confined.trans with
      frame := fun _ hs => keeps_confined fun s hl => by
        obtain ⟨h1, h2, h3⟩ := hs s
        unfold Level at hl ⊢
        rw [h1, h2]
        rw [h3] at hl
        exact ⟨hl, fun hf => ⟨hf, .refl _ _⟩⟩
      loop := Keeps.loop confined_refl Confined.trans
      openOut := confined_openOut hu
      writeOut := confined_writeOut
      openIn := fun n => keeps_confined fun s hl =>
        ⟨(Level.of_append hl).1, fun hf => ⟨hf, .refl _ _⟩⟩
      listDir := keeps_confined confined_refl }
  exact hfiles.sessionVia (confined_removeFile hu) confined_makeUserDir

end

/-- The session as a part of the connection. -/
theorem confined_serveConn {S : ServerHost} {l : LoggedIn} (hu : Plain l.username) {n : Nat}
    {w w' : World WorkerState ConnRole} {o : List (ConnRole × Bytes)} {q : Proc WorkerState ConnRole ConnEnd}
    (hg : Goes n (S.serveConn (.inr l)) w o q w') : Confined (S.env l) w.st.op w'.st.op := by
  have hsession {m : Nat} {o1 : List (ConnRole × Bytes)} {p : Proc WorkerState ConnRole ServerEnv.Ended}
      {v : World WorkerState ConnRole}
      (h : Goes m (zoom opPart .session ((S.env l).sessionVia ((S.env l).openInOn S.fails))) w o1 p v) :
      Confined (S.env l) w.st.op v.st.op := by
    rw [← World.part_within opPart ConnRole.session w] at h
    obtain ⟨o0, q0, v0, hg0, -, -, rfl⟩ := goes_zoom h
    exact confined_session (E := S.env l) hu S.fails _ _ _ _ _ hg0
  rcases Goes.bind_cases hg with ⟨q0, hq, -⟩ | ⟨m, k, x, w1, o1, o2, h1, h2, -, -⟩
  · exact hsession hq
  · obtain ⟨-, -, -, rfl⟩ := goes_ret h2
    exact hsession h1

/-! ## A connection -/

/-- Who gets a session, and what a client can do with and without one. `w` is the
server when a worker takes the connection, with all that the client will send. -/
theorem admission {S : ServerHost} (hdb : ∀ x ∈ S.db.users, Plain x.1) {w : World WorkerState ConnRole}
    (hf : w.st.op.file = none) :
    (∀ user, (∃ l w1, Runs S.logIn w (.inr l) w1 ∧ l.username = user) ↔
      Admitted S w.st.creds w.inp w.eof user) ∧
    ∀ n o q w', Goes n S.handleConn w o q w' →
      Untouched S w.st.op o w'.st ∨
      ∃ user, Admitted S w.st.creds w.inp w.eof user ∧
        ((∀ name ∈ w'.st.op.names, climbs name = false) →
          FS.SameFiles (S.cwd ++ [mefS, user]) w.st.op.fs w'.st.op.fs) := by
  refine ⟨fun user => admitted_iff.symm, fun n o q w' hg => ?_⟩
  rcases Goes.bind_cases hg with ⟨q0, hq, -⟩ | ⟨m, k, x, w1, o1, o2, h1, h2, -, rfl⟩
  · -- still in the login
    exact .inl (always_logIn w _ _ _ _ hq).1
  · have hw1 := (always_logIn w _ _ _ _ h1).1
    cases x with
    | inl e =>
      obtain ⟨-, rfl, -, rfl⟩ := goes_ret h2
      rw [List.append_nil]
      exact .inl hw1
    | inr l =>
      have hadm : Admitted S w.st.creds w.inp w.eof l.username := admitted_iff.mpr ⟨l, w1, h1.returns, rfl⟩
      refine .inr ⟨l.username, hadm, fun hc => ?_⟩
      have hu : Plain l.username := by
        obtain ⟨-, keys, -, hv⟩ := hadm
        obtain ⟨x, hx, hname⟩ := hv.mem
        rw [← hname]
        exact hdb x hx
      have hconf := confined_serveConn hu h2
      rw [hw1.1] at hconf
      exact ((hconf hc).2 fun p hp => by rw [hf] at hp; cases hp).2

/-- Alice is let in, and who hangs up at once has done nothing. -/
theorem admission_alice :
    Admitted aliceHost aliceWorker.creds (aliceStream []) true alice ∧
    ∀ n o q w', Goes n aliceHost.handleConn ⟨aliceWorker, [], true, [], []⟩ o q w' → w'.st.op = aliceDir := by
  have hplain : ∀ x ∈ aliceHost.db.users, Plain x.1 :=
    List.forall_mem_singleton.mpr ⟨by decide, by decide, by decide, by decide, by decide, by decide⟩
  constructor
  · obtain ⟨creds, h, hr⟩ := alice_logs_in []
    exact ((admission hplain rfl).1 alice).mp ⟨_, _, hr, rfl⟩
  · intro n o q w' hg
    rcases (admission hplain rfl).2 n o q w' hg with hw' | ⟨user, ⟨hlen, -⟩, -⟩
    · exact hw'.1
    · exact absurd hlen (by decide)

end Mefsc.L4
