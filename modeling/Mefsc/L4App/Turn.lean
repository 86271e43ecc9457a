import Mefsc.L3Protocol.Controls
import Mefsc.L4App.RoundTrip

/-!
# Sessions, action by action

A session is the net of a client in `authed_comms` and a server in
`handle_conn`. `idle`: between two actions, with nothing on its way. One lemma
for each action that is answered says how the session gets from there to the
next such state, what became of the files and what was shown; by `Core.Net`
this settles every interleaving. For the other actions see `Stop`.

`k` and `k'` count the rounds of the client and of the server. With `k = k'`
every byte is read in the role it was sent in (`Matched`). Of the client's control
messages the server unwraps each one (`Hears`).
-/
namespace Mefsc.L4

open L1 L1.SessionEncWrapper L2 L3
open Proc hiding ret recv send act iter bind bind_assoc
open Net hiding MutualWait

abbrev Session := Net ClientState FsOperator Role ClientEnd ServerEnv.Ended

/-- What the client does after an action. -/
def after (C : ClientEnv) (k : Nat) (as : List UserAction) : Option ClientEnd → Client ClientEnd
  | some e => pure e
  | none => C.actionsFrom (k + 1) as

def idle (C : ClientEnv) (E : ServerEnv) (k k' : Nat) (as : List UserAction) (cst : ClientState)
    (sst : FsOperator) (hl hr : List (Ev Role)) : Session :=
  ⟨⟨C.actionsFrom k as, cst, [], hl⟩, ⟨loop E.serveRound k', sst, [], hr⟩⟩

/-- Client and server after the login. -/
def opening (C : ClientEnv) (E : ServerEnv) (first : UserAction) (more : List UserAction) (cst : ClientState)
    (sst : FsOperator) : Session :=
  ⟨⟨C.authedComms first more, cst, [], []⟩, ⟨E.session, sst, [], []⟩⟩

/-- What each side read during an action is what the other sent, role by
role. -/
def Matched (k k' : Nat) (evl evr : List (Ev Role)) : Prop :=
  k = k' → rtags evl = stags evr ∧ rtags evr = stags evl

section
variable {C : ClientEnv} {E : ServerEnv} {k : Nat} {a : UserAction} {as : List UserAction}

theorem actionsFrom_cons : C.actionsFrom k (a :: as) = C.performAction k a >>= after C k as := by
  simp only [ClientEnv.actionsFrom]
  refine congrArg (C.performAction k a >>= ·) (funext fun y => ?_)
  cases y <;> rfl

theorem done_actionsFrom {st : ClientState} {inp : Bytes} {h : List (Ev Role)} :
    (⟨C.actionsFrom k as, st, inp, h⟩ : Party ClientState Role ClientEnd).done = false := by
  cases as <;> rfl

theorem sent_requestEvs (k : Nat) (n1 n2 : Bytes) (v : Int) :
    sent (C.requestEvs k n1 n2 v) = frame C.na.aead C.client_tx n1 (i32Enc NEW_ACTION) ++
      frame C.na.aead C.client_tx n2 (i32Enc v) := by
  simp [ClientEnv.requestEvs, sent]

@[simp] theorem rtags_requestEvs (k : Nat) (n1 n2 : Bytes) (v : Int) :
    rtags (C.requestEvs k n1 n2 v) = [] := rfl

@[simp] theorem sent_requestRcvs (k : Nat) (n1 n2 : Bytes) (v : Int) :
    sent (E.requestRcvs k n1 n2 v) = [] := by
  simp [ServerEnv.requestRcvs]

@[simp] theorem stags_requestRcvs (k : Nat) (n1 n2 : Bytes) (v : Int) :
    stags (E.requestRcvs k n1 n2 v) = [] := by
  simp [ServerEnv.requestRcvs]

theorem rtags_requestRcvs (hL : Linked C E) (k : Nat) (n1 n2 : Bytes) (v : Int) :
    rtags (E.requestRcvs k n1 n2 v) = stags (C.requestEvs k n1 n2 v) := by
  simp [ServerEnv.requestRcvs, ClientEnv.requestEvs, rtags_frameRcvs, stags, hL.na, hL.up]

theorem hears_request (hL : Linked C E) (k k' : Nat) {n1 n2 : Bytes} (hn1 : n1.length = 8) (hn2 : n2.length = 8)
    (v : Int) : Hears C.na.aead C.client_tx (C.requestEvs k n1 n2 v) (E.requestRcvs k' n1 n2 v) := by
  have h1 : Hears C.na.aead C.client_tx [.snd ⟨k, .notice⟩ (frame C.na.aead C.client_tx n1 (i32Enc NEW_ACTION))]
      (frameRcvs C.na.aead ⟨k', .notice⟩ C.client_tx n1 (i32Enc NEW_ACTION)) :=
    hears_frame rfl rfl hn1 (i32Enc_length _).le (by decide)
  have h2 : Hears C.na.aead C.client_tx [.snd ⟨k, .intent⟩ (frame C.na.aead C.client_tx n2 (i32Enc v))]
      (frameRcvs C.na.aead ⟨k', .intent⟩ C.client_tx n2 (i32Enc v)) :=
    hears_frame rfl rfl hn2 (i32Enc_length _).le (by decide)
  rw [ServerEnv.requestRcvs, hL.na, hL.up]
  exact h1.append h2

/-- The constructor of `FS_Operator` ran: the first action can begin. -/
theorem opening_idle (first : UserAction) (as : List UserAction) (cst : ClientState) {sst : FsOperator} {fs : FS}
    (hd : sst.fs.createDirectories E.cwd (splitSlash E.user_dir) = .ok fs) :
    ∃ sst' : FsOperator, sst'.fs = fs ∧
      Reach (opening C E first as cst sst) (idle C E 0 0 (first :: as) cst sst' [] []) := by
  have hmake : Runs E.makeUserDir ⟨sst, [], false, [], []⟩ (.ok ())
      ⟨{ sst with fs := fs }, [], false, [] ++ [], []⟩ := by
    refine (runs_modifyGet _ _ _ _).mpr ?_
    simp [hd]
  have hfresh := ServerEnv.runs_freshNonce (E := E) { sst with fs := fs } [] false []
  have h1 := Reach.runsR E.afterMake hmake
    (⟨C.authedComms first as, cst, [], []⟩ : Party ClientState Role ClientEnd) done_actionsFrom
  have h2 := Reach.runsR (fun _ => E.serve) hfresh
    (⟨C.authedComms first as, cst, [], []⟩ : Party ClientState Role ClientEnd) done_actionsFrom
  exact ⟨_, rfl, h1.trans h2⟩

/-- It threw: the server is gone. -/
theorem opening_threw (first : UserAction) (as : List UserAction) (cst : ClientState) {sst : FsOperator} {er : Errno}
    (hd : sst.fs.createDirectories E.cwd (splitSlash E.user_dir) = .error er) :
    Reach (opening C E first as cst sst)
      ⟨⟨C.authedComms first as, cst, [], []⟩, ⟨pure (.threw er), sst, [], []⟩⟩ := by
  have hmake : Runs E.makeUserDir ⟨sst, [], false, [], []⟩ (.error er) ⟨sst, [], false, [] ++ [], []⟩ := by
    refine (runs_modifyGet _ _ _ _).mpr ?_
    simp [hd]
  exact Reach.runsR E.afterMake hmake
    (⟨C.authedComms first as, cst, [], []⟩ : Party ClientState Role ClientEnd) done_actionsFrom

end

/-! ## From request to answer -/

section
variable {C : ClientEnv} {E : ServerEnv} (hL : Linked C E) (k k' : Nat) {a : UserAction}
  (as : List UserAction) (cst : ClientState) (sst : FsOperator) (hl hr : List (Ev Role))

/-- The client does what it can do without waiting. -/
theorem client_asks {α : Type} {req : Client α} {rep : α → Client (Option ClientEnd)} {x : α}
    {cst1 : ClientState} {evs : List (Ev Role)} (hp : C.performAction k a = req >>= rep)
    (h1 : Runs req ⟨cst, [], false, hl, []⟩ x ⟨cst1, [], false, hl ++ evs, []⟩)
    (r : Party FsOperator Role ServerEnv.Ended) (hr : r.done = false) :
    Reach (⟨⟨C.actionsFrom k (a :: as), cst, [], hl⟩, r⟩ : Session)
      ⟨⟨rep x >>= after C k as, cst1, [], hl ++ evs⟩, r.feed (sent evs)⟩ := by
  have hprog : C.actionsFrom k (a :: as) = req >>= fun x => rep x >>= after C k as := by
    rw [actionsFrom_cons, hp, bind_assoc]
  rw [hprog]
  exact Reach.runsL _ h1 r hr

theorem idle_ask {α : Type} {req : Client α} {rep : α → Client (Option ClientEnd)} {x : α}
    {cst1 : ClientState} {evs : List (Ev Role)} (hp : C.performAction k a = req >>= rep)
    (h1 : Runs req ⟨cst, [], false, hl, []⟩ x ⟨cst1, [], false, hl ++ evs, []⟩) :
    Reach (idle C E k k' (a :: as) cst sst hl hr)
      ⟨⟨rep x >>= after C k as, cst1, [], hl ++ evs⟩, ⟨loop E.serveRound k', sst, sent evs, hr⟩⟩ :=
  client_asks k as cst hl hp h1 ⟨loop E.serveRound k', sst, [], hr⟩ rfl

include hL

/-- The server takes the request of the client. -/
theorem takes_request {n1 n2 : Bytes} (hn1 : n1.length = 8) (hn2 : n2.length = 8) {v : Int}
    (lo : -2 ^ 31 ≤ v) (hi : v < 2 ^ 31) (hv : v ≠ INVALID_READ_INTENT) (evs : List (Ev Role))
    (l : Party ClientState Role ClientEnd) :
    Reach ⟨l, ⟨loop E.serveRound k', sst, sent (C.requestEvs k n1 n2 v ++ evs), hr⟩⟩
      ⟨l, ⟨E.handle k' v, { sst with locals := sst.locals + 2 }, sent evs,
        hr ++ E.requestRcvs k' n1 n2 v⟩⟩ := by
  obtain ⟨n, hs⟩ := ServerEnv.steps_request (E := E) sst (sent evs) l.done hr k' hn1 hn2 lo hi hv
  have hreach := Reach.stepsR hs l rfl
  rw [hL.na, hL.up] at hreach
  rw [sent_append, sent_requestEvs, List.append_assoc]
  simpa using hreach

/-- A request, and what the server's handler does with it. -/
theorem asked {α : Type} {req : Client α} {rep : α → Client (Option ClientEnd)} {x : α} {v : Int}
    (lo : -2 ^ 31 ≤ v) (hi : v < 2 ^ 31) (hv : v ≠ INVALID_READ_INTENT) {n1 n2 : Bytes}
    (hn1 : n1.length = 8) (hn2 : n2.length = 8) {cst1 : ClientState} {sst1 : FsOperator}
    {evs1 evs2 : List (Ev Role)} (hp : C.performAction k a = req >>= rep)
    (h1 : Runs req ⟨cst, [], false, hl, []⟩ x
      ⟨cst1, [], false, hl ++ (C.requestEvs k n1 n2 v ++ evs1), []⟩) {y : Except Errno Unit} {inp : Bytes}
    (h2 : Runs (E.dispatch k' v)
      ⟨{ sst with locals := sst.locals + 2 }, sent evs1, false, hr ++ E.requestRcvs k' n1 n2 v, []⟩ y
      ⟨sst1, inp, false, hr ++ E.requestRcvs k' n1 n2 v ++ evs2, []⟩)
    (hlive : (⟨rep x >>= after C k as, cst1, [], hl ++ (C.requestEvs k n1 n2 v ++ evs1)⟩ :
      Party ClientState Role ClientEnd).done = false) :
    Reach (idle C E k k' (a :: as) cst sst hl hr)
      ⟨⟨rep x >>= after C k as, cst1, sent evs2, hl ++ (C.requestEvs k n1 n2 v ++ evs1)⟩,
        ⟨again E.serveRound (ServerEnv.roundEnd k' y), sst1, inp,
          hr ++ (E.requestRcvs k' n1 n2 v ++ evs2)⟩⟩ := by
  have hask := idle_ask (E := E) k k' as cst sst hl hr hp h1
  have htake := takes_request hL k k' sst hr hn1 hn2 lo hi hv evs1
    ⟨rep x >>= after C k as, cst1, [], hl ++ (C.requestEvs k n1 n2 v ++ evs1)⟩
  have hhandle := Reach.runsR (fun y => again E.serveRound (ServerEnv.roundEnd k' y)) h2 _ hlive
  refine hask.trans (htake.trans ?_)
  rw [ServerEnv.handle]
  simpa [Party.feed] using hhandle

/-- An action, by what the client asks (`evs1`), how the server's handler answers
(`evs2`) and how the client takes it (`evs3`). -/
theorem turn {α : Type} {req : Client α} {rep : α → Client (Option ClientEnd)} {x : α} {v : Int}
    (lo : -2 ^ 31 ≤ v) (hi : v < 2 ^ 31) (hv : v ≠ INVALID_READ_INTENT) {n1 n2 : Bytes}
    (hn1 : n1.length = 8) (hn2 : n2.length = 8) {cst1 cst2 : ClientState} {sst1 : FsOperator}
    {evs1 evs2 evs3 : List (Ev Role)} (hp : C.performAction k a = req >>= rep)
    (h1 : Runs req ⟨cst, [], false, hl, []⟩ x
      ⟨cst1, [], false, hl ++ (C.requestEvs k n1 n2 v ++ evs1), []⟩)
    (h2 : Runs (E.dispatch k' v)
      ⟨{ sst with locals := sst.locals + 2 }, sent evs1, false, hr ++ E.requestRcvs k' n1 n2 v, []⟩
      (.ok ()) ⟨sst1, [], false, hr ++ E.requestRcvs k' n1 n2 v ++ evs2, []⟩)
    (h3 : Runs (rep x)
      ⟨cst1, sent evs2, false, hl ++ (C.requestEvs k n1 n2 v ++ evs1), []⟩ none
      ⟨cst2, [], false, hl ++ (C.requestEvs k n1 n2 v ++ evs1) ++ evs3, []⟩)
    (hq : sent evs3 = [] ∧ stags evs3 = []) (hr1 : rtags evs1 = [])
    (hm : k = k' → rtags evs3 = stags evs2 ∧ rtags evs2 = stags evs1)
    (hh : Hears C.na.aead C.client_tx (evs1 ++ evs3) evs2) :
    ∃ evl evr, evl = C.requestEvs k n1 n2 v ++ evs1 ++ evs3 ∧ evr = E.requestRcvs k' n1 n2 v ++ evs2 ∧
      Matched k k' evl evr ∧ Hears C.na.aead C.client_tx evl evr ∧
      Reach (idle C E k k' (a :: as) cst sst hl hr)
        (idle C E (k + 1) (k' + 1) as cst2 sst1 (hl ++ evl) (hr ++ evr)) := by
  refine ⟨C.requestEvs k n1 n2 v ++ evs1 ++ evs3, E.requestRcvs k' n1 n2 v ++ evs2, rfl, rfl, ?_, ?_, ?_⟩
  · intro hk
    obtain ⟨hm1, hm2⟩ := hm hk
    subst hk
    simp [hr1, hm1, hm2, hq.2, rtags_requestRcvs hL]
  · rw [List.append_assoc]
    exact (hears_request hL k k' hn1 hn2 v).append hh
  · have hasked := asked hL k k' as cst sst hl hr lo hi hv hn1 hn2 hp h1 h2
      (Party.done_bind h3 done_actionsFrom)
    have htake := Reach.runsL (after C k as) h3
      (⟨loop E.serveRound (k' + 1), sst1, [], hr ++ (E.requestRcvs k' n1 n2 v ++ evs2)⟩ :
        Party FsOperator Role ServerEnv.Ended) rfl
    refine hasked.trans ?_
    simpa [idle, after, Party.feed, hq.1, again, ServerEnv.roundEnd] using htake

/-- An action the client does not wait for. -/
theorem turn_silent {α : Type} {req : Client α} {x : α} {v : Int} (lo : -2 ^ 31 ≤ v) (hi : v < 2 ^ 31)
    (hv : v ≠ INVALID_READ_INTENT) {n1 n2 : Bytes} (hn1 : n1.length = 8) (hn2 : n2.length = 8)
    {cst1 : ClientState} {sst1 : FsOperator} {evs1 evs2 : List (Ev Role)}
    (hp : C.performAction k a = req >>= fun _ => pure none)
    (h1 : Runs req ⟨cst, [], false, hl, []⟩ x
      ⟨cst1, [], false, hl ++ (C.requestEvs k n1 n2 v ++ evs1), []⟩)
    (h2 : Runs (E.dispatch k' v)
      ⟨{ sst with locals := sst.locals + 2 }, sent evs1, false, hr ++ E.requestRcvs k' n1 n2 v, []⟩
      (.ok ()) ⟨sst1, [], false, hr ++ E.requestRcvs k' n1 n2 v ++ evs2, []⟩)
    (hq : sent evs2 = [] ∧ stags evs2 = []) (hr1 : rtags evs1 = []) (hm : k = k' → rtags evs2 = stags evs1)
    (hh : Hears C.na.aead C.client_tx evs1 evs2) :
    ∃ evl evr, evl = C.requestEvs k n1 n2 v ++ evs1 ∧ Matched k k' evl evr ∧
      Hears C.na.aead C.client_tx evl evr ∧
      Reach (idle C E k k' (a :: as) cst sst hl hr)
        (idle C E (k + 1) (k' + 1) as cst1 sst1 (hl ++ evl) (hr ++ evr)) := by
  have h3 : Runs (pure none)
      ⟨cst1, sent evs2, false, hl ++ (C.requestEvs k n1 n2 v ++ evs1), []⟩ (none : Option ClientEnd)
      ⟨cst1, [], false, hl ++ (C.requestEvs k n1 n2 v ++ evs1) ++ [], []⟩ := by
    simp [hq.1]
  obtain ⟨evl, evr, hevl, -, h⟩ := turn hL k k' as cst sst hl hr lo hi hv hn1 hn2 hp h1 h2 h3 ⟨rfl, rfl⟩ hr1
    (fun hk => ⟨hq.2.symm, hm hk⟩) (by rwa [List.append_nil])
  exact ⟨evl, evr, by rw [hevl, List.append_nil], h⟩

/-! ## Actions that are answered -/

/-- An upload of a regular file. -/
theorem turn_upload (ha : a.intention = WRITE_TO_FILESYSTEM) {c : Bytes}
    (ho : cst.fs.openRead C.cwd a.file_name = some ⟨c, false⟩)
    (hn : a.file_name.length ≤ PRE_EXT_FILE_NAME_LEN) :
    ∃ cst' sst' evl evr r key salt n1 n2 nonce nonce', salt.length = PWHASH_SALTBYTES ∧
      (C.host.oom (cst.hashes + 1) = false → key = C.na.pwhash C.password salt) ∧ cst.Same cst' ∧
      sst'.fs = sst.fs.stored E.cwd (E.user_dir ++ (cstr a.file_name ++ ext))
        (storedFile C.na.ss r key salt c) ∧
      evl = C.requestEvs k n1 n2 WRITE_TO_FILESYSTEM ++
        (initEvs C.na.aead C.client_tx k nonce a.file_name (C.na.ss.initPush r key).2 salt ++
          chunkEvs C.na.aead C.client_tx k nonce' 0
            (marked (pushAll C.na.ss (C.na.ss.initPush r key).1 (cut CHUNK_SIZE c)))) ∧
      Matched k k' evl evr ∧ Hears C.na.aead C.client_tx evl evr ∧
      Reach (idle C E k k' (a :: as) cst sst hl hr)
        (idle C E (k + 1) (k' + 1) as cst' sst' (hl ++ evl) (hr ++ evr)) := by
  obtain ⟨cst1, n1, n2, nonce, nonce', r, key, salt, h1, h2, hsalt, hk, hs1, hask⟩ :=
    ClientEnv.runs_askUpload (C := C) cst [] false hl k ho
  have hb := pushAll_blocky C.na.ss (C.na.ss.initPush r key).1 c
  obtain ⟨sst1, hfs, -, hsrv⟩ := ServerEnv.runs_wtfsHandlerServer (E := E)
    { sst with locals := sst.locals + 2 } [] false (hr ++ E.requestRcvs k' n1 n2 WRITE_TO_FILESYSTEM) k'
    nonce nonce' hn (C.na.ss.header_length r key) hsalt hb.ne_nil hb.le
  let up := fun k => initEvs C.na.aead C.client_tx k nonce a.file_name (C.na.ss.initPush r key).2 salt ++
    chunkEvs C.na.aead C.client_tx k nonce' 0
      (marked (pushAll C.na.ss (C.na.ss.initPush r key).1 (cut CHUNK_SIZE c)))
  let got := initRcvs C.na.aead C.client_tx k' nonce a.file_name (C.na.ss.initPush r key).2 salt ++
    chunkRcvs C.na.aead C.client_tx k' nonce' 0
      (marked (pushAll C.na.ss (C.na.ss.initPush r key).1 (cut CHUNK_SIZE c)))
  have hd : Runs (E.dispatch k' WRITE_TO_FILESYSTEM) ⟨{ sst with locals := sst.locals + 2 }, sent (up k),
      false, hr ++ E.requestRcvs k' n1 n2 WRITE_TO_FILESYSTEM, []⟩ (.ok ())
      ⟨sst1, [], false, hr ++ E.requestRcvs k' n1 n2 WRITE_TO_FILESYSTEM ++ got, []⟩ := by
    have hin : sent (up k) = sent (up k') := by
      simp only [up, sent_append, sent_initEvs_act _ _ k k', sent_chunkEvs_act _ _ k k']
    rw [hL.na, hL.up, List.append_nil, ← sent_append] at hsrv
    rw [ServerEnv.dispatch_write, hin]
    exact Runs.bind hsrv (by simp [got])
  obtain ⟨evl, evr, hevl, hm, hh, hreach⟩ := turn_silent hL k k' as cst sst hl hr (v := WRITE_TO_FILESYSTEM)
    (by decide) (by decide) (by decide) h1 h2
    ((ClientEnv.performAction_write ha).trans (bind_assoc _ _ _).symm) hask hd (by simp [got]) (by simp)
    (by rintro rfl; simp [got, rtags_initRcvs, rtags_chunkRcvs])
    ((hears_init k k' nonce hn (C.na.ss.header_length r key) hsalt).append (hears_chunks k k' nonce' 0 _))
  exact ⟨cst1, sst1, evl, evr, r, key, salt, n1, n2, nonce, nonce', hsalt, hk, hs1, hfs, hevl, hm, hh, hreach⟩

/-- An upload of a file the client does not have. -/
theorem turn_upload_missing (ha : a.intention = WRITE_TO_FILESYSTEM)
    (ho : cst.fs.openRead C.cwd a.file_name = none) :
    ∃ cst' sst' evl evr, cst.Same cst' ∧ sst'.fs = sst.fs ∧ Matched k k' evl evr ∧
      Hears C.na.aead C.client_tx evl evr ∧
      Reach (idle C E k k' (a :: as) cst sst hl hr)
        (idle C E (k + 1) (k' + 1) as cst' sst' (hl ++ evl) (hr ++ evr)) := by
  obtain ⟨cst1, x, n1, n2, h1, h2, hs1, -, hreq⟩ :=
    ClientEnv.runs_request (C := C) cst [] false hl k WRITE_TO_FILESYSTEM
  rw [← hs1.fs] at ho
  obtain ⟨cst2, hs2, hup⟩ := ClientEnv.runs_upload_missing (C := C) cst1 [] false
    (hl ++ C.requestEvs k n1 n2 WRITE_TO_FILESYSTEM) k x.1 ho
  have hsrv := ServerEnv.runs_wtfs_refused (E := E) { sst with locals := sst.locals + 2 } _ false
    (hr ++ E.requestRcvs k' n1 n2 WRITE_TO_FILESYSTEM) k' (k := 0) fun st buf hbuf sbuf =>
      ServerEnv.runs_initRead_missing st [] false _ k' (sodiumIncrement_length x.1.nonce) buf hbuf sbuf
  let evs1 : List (Ev Role) := [.snd ⟨k, .fileExists⟩
    (frame C.na.aead C.client_tx (sodiumIncrement x.1.nonce) [0])]
  let evs2 := frameRcvs C.na.aead (⟨k', .fileExists⟩ : Role) C.client_tx (sodiumIncrement x.1.nonce) [0]
  have hask : Runs (C.request k WRITE_TO_FILESYSTEM >>= fun x => C.wtfsHandler k x.1 a.file_name)
      ⟨cst, [], false, hl, []⟩ 1
      ⟨cst2, [], false, hl ++ (C.requestEvs k n1 n2 WRITE_TO_FILESYSTEM ++ evs1), []⟩ := by
    refine Runs.bind hreq (Runs.bind hup ?_)
    simp [evs1]
  have hd : Runs (E.dispatch k' WRITE_TO_FILESYSTEM) ⟨{ sst with locals := sst.locals + 2 }, sent evs1,
      false, hr ++ E.requestRcvs k' n1 n2 WRITE_TO_FILESYSTEM, []⟩ (.ok ())
      ⟨{ sst with locals := sst.locals + 2 + 3 }, [], false,
        hr ++ E.requestRcvs k' n1 n2 WRITE_TO_FILESYSTEM ++ evs2, []⟩ := by
    rw [hL.na, hL.up] at hsrv
    rw [ServerEnv.dispatch_write]
    exact Runs.bind hsrv (by simp [evs2])
  obtain ⟨evl, evr, -, hm, hh, hreach⟩ := turn_silent hL k k' as cst sst hl hr (v := WRITE_TO_FILESYSTEM)
    (by decide) (by decide) (by decide) h1 h2
    ((ClientEnv.performAction_write ha).trans (bind_assoc _ _ _).symm) hask hd (by simp [evs2]) rfl
    (by rintro rfl; simp [evs1, evs2, rtags_frameRcvs])
    (hears_frame rfl rfl (sodiumIncrement_length _) (by decide) (by decide))
  exact ⟨cst2, { sst with locals := sst.locals + 2 + 3 }, evl, evr, hs1.trans hs2, rfl, hm, hh, hreach⟩

/-- Every block of the file `B` is taken by a client of that password, whatever
stands in for a header or salt that `B` is too short for. -/
def Readable (C : ClientEnv) (B : Bytes) : Prop :=
  ∀ m1 m2, ∃ s, C.na.ss.initPull (ServerEnv.sentHeader B m1)
      (C.na.pwhash C.password (ServerEnv.sentSalt B m2)) = some s ∧
    (ClientEnv.pulled C.na.ss s (ServerEnv.sentChunks B)).2.2 = (ServerEnv.sentChunks B).length

/-- A download of a regular file that the client can decrypt, with what it makes of
it. -/
theorem turn_download_pulled (ha : a.intention = READ_FROM_FILESYSTEM) (h4 : ¬ a.file_name.length < 4)
    (hn : (a.file_name ++ [0]).length ≤ PRE_EXT_FILE_NAME_LEN) {B : Bytes}
    (ho : sst.fs.openRead E.cwd (E.user_dir ++ cstr a.file_name) = some ⟨B, false⟩)
    (hoom : C.host.oom (cst.hashes + 1) = false) (hB : Readable C B) :
    ∃ cst' sst' evl evr s nonce m1 m2,
      C.na.ss.initPull (ServerEnv.sentHeader B m1) (C.na.pwhash C.password (ServerEnv.sentSalt B m2)) = some s ∧
      cst'.shown = cst.shown ∧
      cst'.fs = cst.fs.stored C.cwd (a.file_name.take (a.file_name.length - 4))
        ((ClientEnv.pulled C.na.ss s (ServerEnv.sentChunks B)).2.1.map Prod.snd).flatten ∧
      sst'.fs = sst.fs ∧
      sent evr = sent (fileEvs C.na.aead C.client_rx k nonce (ServerEnv.sentHeader B m1)
        (ServerEnv.sentSalt B m2) (ServerEnv.sentChunks B)) ∧
      Matched k k' evl evr ∧ Hears C.na.aead C.client_tx evl evr ∧
      Reach (idle C E k k' (a :: as) cst sst hl hr)
        (idle C E (k + 1) (k' + 1) as cst' sst' (hl ++ evl) (hr ++ evr)) := by
  obtain ⟨cst1, n1, n2, n3, h1, h2, h3, hs1, hh, hask⟩ :=
    ClientEnv.runs_askRead (C := C) cst [] false hl k a.file_name
  obtain ⟨sst1, nonce, m1, m2, hfs, -, hsrv⟩ := ServerEnv.runs_rffsHandlerServer (E := E)
    { sst with locals := sst.locals + 2 } [] false (hr ++ E.requestRcvs k' n1 n2 READ_FROM_FILESYSTEM) k'
    h3 hn ho
  obtain ⟨s, hi, htake⟩ := hB m1 m2
  have hb := sentChunks_blocky B
  let cst2 := C.opened (a.file_name.take (a.file_name.length - 4)) cst1
  have hh2 : C.host.oom cst2.hashes = false := by
    have hopened : cst2.hashes = cst1.hashes := by
      simp only [cst2, ClientEnv.opened]
      split <;> rfl
    rw [hopened, hh, hoom]
  let evs1 : List (Ev Role) := [.snd ⟨k, .fileName⟩ (frame C.na.aead C.client_tx n3 (a.file_name ++ [0]))]
  let file := fun k => fileEvs C.na.aead C.client_rx k nonce (ServerEnv.sentHeader B m1)
    (ServerEnv.sentSalt B m2) (ServerEnv.sentChunks B)
  let evs2 := frameRcvs C.na.aead ⟨k', .fileName⟩ C.client_tx n3 (a.file_name ++ [0]) ++ file k'
  obtain ⟨evs3, rest, hrep, hall⟩ := ClientEnv.runs_decryptAndRead (C := C) cst2 [] false
    (hl ++ (C.requestEvs k n1 n2 READ_FROM_FILESYSTEM ++ evs1)) k nonce (sentHeader_length B m1)
    (sentSalt_length B m2) hb.ne_nil hb.le hh2 hi
  obtain ⟨rfl, hevs3⟩ := hall htake
  have hd : Runs (E.dispatch k' READ_FROM_FILESYSTEM) ⟨{ sst with locals := sst.locals + 2 }, sent evs1,
      false, hr ++ E.requestRcvs k' n1 n2 READ_FROM_FILESYSTEM, []⟩ (.ok ())
      ⟨sst1, [], false, hr ++ E.requestRcvs k' n1 n2 READ_FROM_FILESYSTEM ++ evs2, []⟩ := by
    rw [hL.na, hL.up, hL.down] at hsrv
    rw [ServerEnv.dispatch_read]
    exact Runs.bind hsrv (by simp [evs2, file])
  have htake' : Runs (C.readReply k a.file_name) ⟨cst1, sent evs2, false,
      hl ++ (C.requestEvs k n1 n2 READ_FROM_FILESYSTEM ++ evs1), []⟩ none
      ⟨ClientEnv.downloaded (ClientEnv.pulled C.na.ss s (ServerEnv.sentChunks B)).2.1 cst2, [], false,
        hl ++ (C.requestEvs k n1 n2 READ_FROM_FILESYSTEM ++ evs1) ++ evs3, []⟩ := by
    have hin : sent evs2 = sent (file k) ++ [] := by
      simp only [evs2, file, sent_append, sent_fileEvs_act _ _ k k', sent_frameRcvs, List.nil_append,
        List.append_nil]
    rw [hin]
    exact Runs.modify_bind (Runs.bind hrep (by simp))
  obtain ⟨evl, evr, -, hevr, hm, hh', hreach⟩ := turn hL k k' as cst sst hl hr (v := READ_FROM_FILESYSTEM)
    (by decide) (by decide) (by decide) h1 h2 (ClientEnv.performAction_read ha h4) hask hd htake'
    (by simp [hevs3]) rfl
    (by rintro rfl; simp [evs2, file, hevs3, rtags_frameRcvs, rtags_fileRcvs])
    ((hears_frame rfl rfl h3 hn (by decide)).append
      (hears_quiet (hevs3 ▸ isRcv_fileRcvs _ _ _ _ _ _ _) (isSnd_fileEvs _ _ _ _ _ _ _)))
  obtain ⟨hfs', hshown⟩ := ClientEnv.downloaded_opened (C := C)
    (ClientEnv.pulled C.na.ss s (ServerEnv.sentChunks B)).2.1 cst1
    (a.file_name.take (a.file_name.length - 4))
  refine ⟨_, sst1, evl, evr, s, nonce, m1, m2, hi, hshown.trans hs1.shown, by rw [hfs', hs1.fs], hfs, ?_, hm,
    hh', hreach⟩
  simp [hevr, evs2, file, sent_fileEvs_act _ _ k k']

theorem turn_download (ha : a.intention = READ_FROM_FILESYSTEM) (h4 : ¬ a.file_name.length < 4)
    (hn : (a.file_name ++ [0]).length ≤ PRE_EXT_FILE_NAME_LEN) {B : Bytes}
    (ho : sst.fs.openRead E.cwd (E.user_dir ++ cstr a.file_name) = some ⟨B, false⟩)
    (hoom : C.host.oom (cst.hashes + 1) = false) (hB : Readable C B) :
    ∃ cst' sst' evl evr c nonce m1 m2, cst'.shown = cst.shown ∧
      cst'.fs = cst.fs.stored C.cwd (a.file_name.take (a.file_name.length - 4)) c ∧
      sst'.fs = sst.fs ∧
      sent evr = sent (fileEvs C.na.aead C.client_rx k nonce (ServerEnv.sentHeader B m1)
        (ServerEnv.sentSalt B m2) (ServerEnv.sentChunks B)) ∧
      Matched k k' evl evr ∧ Hears C.na.aead C.client_tx evl evr ∧
      Reach (idle C E k k' (a :: as) cst sst hl hr)
        (idle C E (k + 1) (k' + 1) as cst' sst' (hl ++ evl) (hr ++ evr)) := by
  obtain ⟨cst', sst', evl, evr, s, nonce, m1, m2, -, h⟩ :=
    turn_download_pulled hL k k' as cst sst hl hr ha h4 hn ho hoom hB
  exact ⟨cst', sst', evl, evr, _, nonce, m1, m2, h⟩

/-- A list answer that the client reads to the end: only its last name may be
too long for `filename`. -/
structure Listable (ns : List Name) : Prop where
  count : ns.length < 2 ^ 31
  short : ∀ n ∈ ns, (n ++ [0]).length ≤ FILE_ENCRYPTED_CHUNK_SIZE
  fits : ∀ n ∈ ns.dropLast, (n ++ [0]).length ≤ MAX_FILE_NAME_LENGTH - 1

theorem turn_list (ha : a.intention = LIST_FILES) {ns : List Name}
    (ho : sst.fs.list E.cwd E.user_dir = .ok ns) (hns : Listable ns) :
    ∃ cst' sst' evl evr, cst'.fs = cst.fs ∧
      ((∀ n ∈ ns, (n ++ [0]).length ≤ MAX_FILE_NAME_LENGTH - 1) →
        cst'.shown = cst.shown ++ .storedFiles ns.length :: ns.map fun n => .name (cstr n)) ∧
      sst'.fs = sst.fs ∧ Matched k k' evl evr ∧ Hears C.na.aead C.client_tx evl evr ∧
      Reach (idle C E k k' (a :: as) cst sst hl hr)
        (idle C E (k + 1) (k' + 1) as cst' sst' (hl ++ evl) (hr ++ evr)) := by
  obtain ⟨cst1, x, n1, n2, h1, h2, hs1, -, hreq⟩ :=
    ClientEnv.runs_request (C := C) cst [] false hl k LIST_FILES
  obtain ⟨sst1, n0, nonce, h0, hnonce, hfs, -, hsrv⟩ := ServerEnv.runs_lffsHandlerServer (E := E)
    { sst with locals := sst.locals + 2 } [] false (hr ++ E.requestRcvs k' n1 n2 LIST_FILES) k' ho
  let evs2 := fun k => (.snd ⟨k, .listCount⟩ (frame C.na.aead C.client_rx n0 (i32Enc ns.length)) ::
    nameEvs C.na.aead C.client_rx k nonce 0 ns : List (Ev Role))
  let evs3 := fun k => frameRcvs C.na.aead (⟨k, .listCount⟩ : Role) C.client_rx n0 (i32Enc ns.length) ++
    nameRcvs C.na.aead C.client_rx k nonce 0 ns
  obtain ⟨cst2, r, hfs2, hshown, hrep⟩ := ClientEnv.runs_lffsHandler (C := C) cst1 [] false
    (hl ++ (C.requestEvs k n1 n2 LIST_FILES ++ [])) k h0 hnonce hns.short hns.fits hns.count
  have hd : Runs (E.dispatch k' LIST_FILES) ⟨{ sst with locals := sst.locals + 2 }, sent ([] : List (Ev Role)),
      false, hr ++ E.requestRcvs k' n1 n2 LIST_FILES, []⟩ (.ok ())
      ⟨sst1, [], false, hr ++ E.requestRcvs k' n1 n2 LIST_FILES ++ evs2 k', []⟩ := by
    rw [hL.na, hL.down] at hsrv
    rw [ServerEnv.dispatch_list]
    exact Runs.bind hsrv (by simp [evs2, Except.map])
  have htake : Runs (C.lffsHandler k >>= fun _ => pure none) ⟨cst1, sent (evs2 k'), false,
      hl ++ (C.requestEvs k n1 n2 LIST_FILES ++ []), []⟩ (none : Option ClientEnd)
      ⟨cst2, [], false, hl ++ (C.requestEvs k n1 n2 LIST_FILES ++ []) ++ evs3 k, []⟩ := by
    have hin : sent (evs2 k') = frame C.na.aead C.client_rx n0 (i32Enc ns.length) ++
        (sent (nameEvs C.na.aead C.client_rx k nonce 0 ns) ++ []) := by
      simp only [evs2, sent, List.append_nil, sent_nameEvs_act _ _ k k']
    rw [hin]
    exact Runs.bind hrep (by simp [evs3])
  obtain ⟨evl, evr, -, -, hm, hh, hreach⟩ := turn hL k k' as cst sst hl hr (v := LIST_FILES) (by decide)
    (by decide) (by decide) h1 h2 (ClientEnv.performAction_list ha) (by simpa using hreq) hd
    htake (by simp [evs3]) rfl
    (by rintro rfl; simp [evs2, evs3, rtags, stags, rtags_frameRcvs, rtags_nameRcvs])
    (hears_quiet (by simp [evs3, isRcv_nameRcvs]) (by simp [evs2, Ev.isSnd, isSnd_nameEvs]))
  exact ⟨cst2, sst1, evl, evr, hfs2.trans hs1.fs, fun hall => by rw [(hshown hall).2, hs1.shown], hfs, hm, hh,
    hreach⟩

theorem turn_delete (ha : a.intention = DELETE_FILE)
    (hn : (a.file_name ++ [0]).length ≤ PRE_EXT_FILE_NAME_LEN) {removed : Bool} {fs : FS}
    (ho : sst.fs.remove E.cwd (E.user_dir ++ cstr a.file_name) = .ok (removed, fs)) :
    ∃ cst' sst' evl evr n, cst'.fs = cst.fs ∧
      cst'.shown = cst.shown ++ [if removed then .deleted else .failedToDelete] ∧ sst'.fs = fs ∧
      sent evr = frame C.na.aead C.client_rx n (i32Enc (if removed then ACK_SUC else ACK_FAIL)) ∧
      Matched k k' evl evr ∧ Hears C.na.aead C.client_tx evl evr ∧
      Reach (idle C E k k' (a :: as) cst sst hl hr)
        (idle C E (k + 1) (k' + 1) as cst' sst' (hl ++ evl) (hr ++ evr)) := by
  obtain ⟨cst1, n1, n2, n3, h1, h2, h3, hs1, hask⟩ :=
    ClientEnv.runs_askDelete (C := C) cst [] false hl k a.file_name
  obtain ⟨sst1, n', hn', hfs, hsrv⟩ := ServerEnv.runs_dffsHandlerServer (E := E)
    { sst with locals := sst.locals + 2 } [] false (hr ++ E.requestRcvs k' n1 n2 DELETE_FILE) k' h3 hn ho
  let evs1 : List (Ev Role) := [.snd ⟨k, .fileName⟩ (frame C.na.aead C.client_tx n3 (a.file_name ++ [0]))]
  let result := i32Enc (if removed then ACK_SUC else ACK_FAIL)
  let evs2 : List (Ev Role) := frameRcvs C.na.aead ⟨k', .fileName⟩ C.client_tx n3 (a.file_name ++ [0]) ++
    [.snd ⟨k', .deleteResult⟩ (frame C.na.aead C.client_rx n' result)]
  obtain ⟨cst2, hfs2, hshown, hrep⟩ := ClientEnv.runs_deleteReply (C := C) cst1 [] false
    (hl ++ (C.requestEvs k n1 n2 DELETE_FILE ++ evs1)) k hn' removed
  have hd : Runs (E.dispatch k' DELETE_FILE) ⟨{ sst with locals := sst.locals + 2 }, sent evs1,
      false, hr ++ E.requestRcvs k' n1 n2 DELETE_FILE, []⟩ (.ok ())
      ⟨sst1, [], false, hr ++ E.requestRcvs k' n1 n2 DELETE_FILE ++ evs2, []⟩ := by
    rw [hL.na, hL.up, hL.down] at hsrv
    rw [ServerEnv.dispatch_delete]
    exact Runs.bind hsrv (by simp [evs2, result, Except.map])
  have htake : Runs (C.deleteReply k >>= fun _ => pure none) ⟨cst1, sent evs2, false,
      hl ++ (C.requestEvs k n1 n2 DELETE_FILE ++ evs1), []⟩ (none : Option ClientEnd)
      ⟨cst2, [], false, hl ++ (C.requestEvs k n1 n2 DELETE_FILE ++ evs1) ++
        frameRcvs C.na.aead ⟨k, .deleteResult⟩ C.client_rx n' result, []⟩ := by
    have hin : sent evs2 = frame C.na.aead C.client_rx n' result ++ [] := by
      simp [evs2, sent]
    rw [hin]
    exact Runs.bind hrep (by simp [result])
  obtain ⟨evl, evr, -, hevr, hm, hh, hreach⟩ := turn hL k k' as cst sst hl hr (v := DELETE_FILE) (by decide)
    (by decide) (by decide) h1 h2 (ClientEnv.performAction_delete ha) hask hd htake (by simp) rfl
    (by rintro rfl; simp [evs2, rtags, stags, rtags_frameRcvs])
    ((hears_frame rfl rfl h3 hn (by decide)).append (hears_quiet rfl rfl))
  exact ⟨cst2, sst1, evl, evr, n', hfs2.trans hs1.fs, by rw [hshown, hs1.shown], hfs,
    by simp [hevr, evs2, result, sent], hm, hh, hreach⟩

end

end Mefsc.L4
