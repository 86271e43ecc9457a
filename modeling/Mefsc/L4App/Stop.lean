import Mefsc.L4App.Turn

/-!
# Where a session stops

From a state between two actions (`idle`): the session ends (`end_*`), each
side waits for the other (`waits_*`), or one side sends for ever (`streams_*`).
`Settled`: up to there each side has read what the other sent; `Attended`: of the
client's control messages the server has unwrapped the first ones.
-/
namespace Mefsc.L4

open L1 L1.SessionEncWrapper L2 L3
open Proc hiding ret recv send act iter bind bind_assoc
open Net hiding MutualWait

/-- Between `hl`, `hr` and `t`, what each side read is what the other sent. -/
def Settled (k k' : Nat) (hl hr : List (Ev Role)) (t : Session) : Prop :=
  ∃ evl evr, t.l.hist = hl ++ evl ∧ t.r.hist = hr ++ evr ∧ Matched k k' evl evr

/-- Between `hl`, `hr` and `t`, the server has heard the first of what the client
said. -/
def Attended (C : ClientEnv) (hl hr : List (Ev Role)) (t : Session) : Prop :=
  ∃ evl evr, t.l.hist = hl ++ evl ∧ t.r.hist = hr ++ evr ∧ Heeds C.na.aead C.client_tx evl evr

/-- The party comes to wait with nothing sent or read before. -/
def Parks {σ α : Type} (p : Party σ Role α) : Prop :=
  ∃ n q, Party.Steps false n p q [] ∧ q.waits = true ∧ q.inp = [] ∧ q.hist = p.hist

theorem Parks.here {σ α : Type} {p : Party σ Role α} (hw : p.waits = true) (hi : p.inp = []) : Parks p :=
  ⟨0, p, .refl p, hw, hi, rfl⟩

theorem Parks.step {σ α : Type} {p q : Party σ Role α} (h : p.step false = some (q, []))
    (hh : q.hist = p.hist) (hq : Parks q) : Parks p := by
  obtain ⟨n, r, hs, hw, hi, hr⟩ := hq
  exact ⟨n + 1, r, by simpa using Party.Steps.head h hs, hw, hi, hr.trans hh⟩

section
variable {C : ClientEnv} {E : ServerEnv} (hL : Linked C E) (k k' : Nat) {a : UserAction}
  (as : List UserAction) (cst : ClientState) (sst : FsOperator) (hl hr : List (Ev Role))

include hL

/-! ## Actions that end the session -/

/-- The user has no further action. -/
theorem end_session :
    ∃ cst' sst' evl evr, cst.Same cst' ∧ sst'.fs = sst.fs ∧ Matched k k' evl evr ∧
      Hears C.na.aead C.client_tx evl evr ∧
      Reach (idle C E k k' [] cst sst hl hr)
        ⟨⟨pure (.returned 0), cst', [], hl ++ evl⟩, ⟨pure .closed, sst', [], hr ++ evr⟩⟩ := by
  let n := sodiumIncrement cst.original_nonce
  let cst1 : ClientState := { cst with original_nonce := n }
  let evs : List (Ev Role) := [.snd ⟨k, .notice⟩ (frame C.na.aead C.client_tx n (i32Enc NO_ACTION))]
  have hask : Reach (idle C E k k' [] cst sst hl hr)
      ⟨⟨pure (.returned 0), cst1, [], hl ++ evs⟩, ⟨loop E.serveRound k', sst, sent evs, hr⟩⟩ :=
    Reach.runsL (fun _ => pure (ClientEnd.returned 0))
      (ClientEnv.runs_sendSession (C := C) cst [] false hl ⟨k, .notice⟩ (i32Enc NO_ACTION))
      (⟨loop E.serveRound k', sst, [], hr⟩ : Party FsOperator Role ServerEnv.Ended) rfl
  have hclose := Reach.loopR (ServerEnv.runs_serveRound_closed (E := E) sst [] true hr
    k' (n := n) (sodiumIncrement_length _) (v := NO_ACTION) (by decide) (by decide) (by decide))
    (⟨pure (.returned 0), cst1, [], hl ++ evs⟩ : Party ClientState Role ClientEnd) rfl
  have hsent : sent evs = frame C.na.aead C.client_tx n (i32Enc NO_ACTION) ++ [] := rfl
  rw [hL.na, hL.up, ← hsent, sent_frameRcvs, Party.feed_nil] at hclose
  refine ⟨cst1, { sst with locals := sst.locals + 1 }, evs,
    frameRcvs C.na.aead ⟨k', .notice⟩ C.client_tx n (i32Enc NO_ACTION), ⟨rfl, rfl⟩, rfl, ?_,
    hears_frame rfl rfl (sodiumIncrement_length _) (i32Enc_length _).le (by decide), hask.trans hclose⟩
  rintro rfl
  simp [evs, rtags, rtags_frameRcvs]

/-- `authed_comms` returns behind the notice. -/
theorem end_confusion (ha : a.intention = CONFUSION) :
    ∃ t : Session, Reach (idle C E k k' (a :: as) cst sst hl hr) t ∧ t.l.done = true ∧ t.r.inp = [] ∧
      Settled k k' hl hr t ∧ Attended C hl hr t := by
  obtain ⟨st2, x, n, hn, -, -, hact⟩ := ClientEnv.runs_announce (C := C) cst [] false hl k
  let evs : List (Ev Role) := [.snd ⟨k, .notice⟩ (frame C.na.aead C.client_tx n (i32Enc NEW_ACTION))]
  have hask := idle_ask (E := E) k k' as cst sst hl hr (ClientEnv.performAction_confusion ha) hact
  obtain ⟨m, hs⟩ := ServerEnv.steps_notice (E := E) sst [] true hr k' hn (v := NEW_ACTION) (by decide)
    (by decide)
  have hsent : sent evs = frame C.na.aead C.client_tx n (i32Enc NEW_ACTION) ++ [] := rfl
  rw [hL.na, hL.up, ← hsent] at hs
  have htake := Reach.stepsR hs
    (⟨pure (some (ClientEnd.returned (-1))) >>= after C k as, st2, [], hl ++ evs⟩ :
      Party ClientState Role ClientEnd) rfl
  rw [Party.feed_nil] at htake
  refine ⟨_, hask.trans htake, rfl, rfl, ⟨evs, _, rfl, rfl, ?_⟩, evs, _, rfl, rfl, Hears.heeds ?_⟩
  · rintro rfl
    simp [evs, rtags, rtags_frameRcvs]
  · exact hears_frame rfl rfl hn (i32Enc_length _).le (by decide)

omit hL in
theorem handle_read : E.handle k' READ_FROM_FILESYSTEM = E.takeName k' >>= fun x => E.openFile k' x >>= fun y =>
    E.sendRest k' y >>= fun _ => loop E.serveRound (k' + 1) := by
  simp only [ServerEnv.handle, ServerEnv.dispatch_read, ServerEnv.rffsHandlerServer_eq, bind_assoc, pure_bind]
  rfl

/-- A name shorter than the extension: the client ends behind its request. -/
theorem end_threw (ha : a.intention = READ_FROM_FILESYSTEM) (h4 : a.file_name.length < 4) :
    ∃ t : Session, Reach (idle C E k k' (a :: as) cst sst hl hr) t ∧ t.l.done = true ∧ t.r.inp = [] ∧
      Settled k k' hl hr t ∧ Attended C hl hr t := by
  obtain ⟨cst1, n1, n2, n3, h1, h2, h3, -, -, hask⟩ :=
    ClientEnv.runs_askRead (C := C) cst [] false hl k a.file_name
  let evs : List (Ev Role) := [.snd ⟨k, .fileName⟩ (frame C.na.aead C.client_tx n3 (a.file_name ++ [0]))]
  let l : Party ClientState Role ClientEnd := ⟨pure (some ClientEnd.threw) >>= after C k as, cst1, [],
    hl ++ (C.requestEvs k n1 n2 READ_FROM_FILESYSTEM ++ evs)⟩
  have hs : (a.file_name ++ [0]).length ≤ FILE_ENCRYPTED_CHUNK_SIZE := by
    have : 4 ≤ FILE_ENCRYPTED_CHUNK_SIZE := by decide
    simp only [List.length_append, List.length_singleton]
    omega
  obtain ⟨sst1, buf, -, -, hname⟩ := ServerEnv.runs_takeName (E := E) { sst with locals := sst.locals + 2 }
    [] true (hr ++ E.requestRcvs k' n1 n2 READ_FROM_FILESYSTEM) k' h3 hs
  have htake := takes_request hL k k' sst hr h1 h2 (v := READ_FROM_FILESYSTEM) (by decide) (by decide)
    (by decide) evs l
  have hread := Reach.runsR (fun x => E.openFile k' x >>= fun y => E.sendRest k' y >>= fun _ =>
    loop E.serveRound (k' + 1)) hname l rfl
  rw [handle_read] at htake
  rw [hL.na, hL.up] at hread
  refine ⟨_, (idle_ask (E := E) k k' as cst sst hl hr (ClientEnv.performAction_read_threw ha h4)
    hask).trans (htake.trans hread), rfl, rfl, ⟨_, _, rfl, List.append_assoc _ _ _, ?_⟩, _, _, rfl,
    List.append_assoc _ _ _, ?_⟩
  · rintro rfl
    simp [evs, rtags, rtags_frameRcvs, rtags_requestRcvs hL]
  · exact (hears_request hL k k' h1 h2 _).append_heeds (heeds_frame rfl rfl h3 hs)

/-- The user directory cannot be listed: the server ends. -/
theorem end_list (ha : a.intention = LIST_FILES) {er : Errno}
    (ho : sst.fs.list E.cwd E.user_dir = .error er) :
    ∃ t : Session, Reach (idle C E k k' (a :: as) cst sst hl hr) t ∧ t.r.done = true ∧ t.l.inp = [] ∧
      Settled k k' hl hr t ∧ Attended C hl hr t := by
  obtain ⟨cst1, x, n1, n2, h1, h2, -, -, hreq⟩ :=
    ClientEnv.runs_request (C := C) cst [] false hl k LIST_FILES
  have hsrv := ServerEnv.runs_lffs_threw (E := E) { sst with locals := sst.locals + 2 } [] false
    (hr ++ E.requestRcvs k' n1 n2 LIST_FILES) k' ho
  have hd : Runs (E.dispatch k' LIST_FILES) ⟨{ sst with locals := sst.locals + 2 }, sent ([] : List (Ev Role)),
      false, hr ++ E.requestRcvs k' n1 n2 LIST_FILES, []⟩ (.error er)
      ⟨{ sst with locals := sst.locals + 2 }, [], false, hr ++ E.requestRcvs k' n1 n2 LIST_FILES ++ [], []⟩ := by
    rw [ServerEnv.dispatch_list]
    exact Runs.bind hsrv (by simp [Except.map])
  have hasked := asked hL k k' as cst sst hl hr (v := LIST_FILES) (by decide) (by decide) (by decide) h1 h2
    (ClientEnv.performAction_list ha) (by simpa using hreq) hd rfl
  refine ⟨_, hasked, rfl, rfl, ⟨_, _, rfl, rfl, ?_⟩, _, _, rfl, rfl, ?_⟩
  · rintro rfl
    simp [rtags_requestRcvs hL]
  · exact ((hears_request hL k k' h1 h2 _).append (hears_quiet rfl rfl)).heeds

/-- `remove` throws: the server ends. -/
theorem end_delete (ha : a.intention = DELETE_FILE)
    (hn : (a.file_name ++ [0]).length ≤ PRE_EXT_FILE_NAME_LEN) {er : Errno}
    (ho : sst.fs.remove E.cwd (E.user_dir ++ cstr a.file_name) = .error er) :
    ∃ t : Session, Reach (idle C E k k' (a :: as) cst sst hl hr) t ∧ t.r.done = true ∧ t.l.inp = [] ∧
      Settled k k' hl hr t ∧ Attended C hl hr t := by
  obtain ⟨cst1, n1, n2, n3, h1, h2, h3, -, hask⟩ :=
    ClientEnv.runs_askDelete (C := C) cst [] false hl k a.file_name
  obtain ⟨sst1, -, hsrv⟩ := ServerEnv.runs_dffs_threw (E := E) { sst with locals := sst.locals + 2 } [] false
    (hr ++ E.requestRcvs k' n1 n2 DELETE_FILE) k' h3 hn ho
  have hd : Runs (E.dispatch k' DELETE_FILE) ⟨{ sst with locals := sst.locals + 2 },
      sent [Ev.snd (⟨k, .fileName⟩ : Role) (frame C.na.aead C.client_tx n3 (a.file_name ++ [0]))], false,
      hr ++ E.requestRcvs k' n1 n2 DELETE_FILE, []⟩ (.error er)
      ⟨sst1, [], false, hr ++ E.requestRcvs k' n1 n2 DELETE_FILE ++
        frameRcvs C.na.aead ⟨k', .fileName⟩ C.client_tx n3 (a.file_name ++ [0]), []⟩ := by
    rw [hL.na, hL.up] at hsrv
    rw [ServerEnv.dispatch_delete]
    exact Runs.bind hsrv (by simp [Except.map])
  have hasked := asked hL k k' as cst sst hl hr (v := DELETE_FILE) (by decide) (by decide) (by decide) h1 h2
    (ClientEnv.performAction_delete ha) hask hd rfl
  refine ⟨_, hasked, rfl, rfl, ⟨_, _, rfl, rfl, ?_⟩, _, _, rfl, rfl, ?_⟩
  · rintro rfl
    simp [rtags, rtags_frameRcvs, rtags_requestRcvs hL]
  · exact (hears_request hL k k' h1 h2 _).append_heeds (heeds_frame rfl rfl h3 (ServerEnv.name_short hn))

/-! ## Actions without an answer -/

omit hL in
/-- The server in front of the next notice. -/
theorem parks_server : Parks (⟨loop E.serveRound k', sst, [], hr⟩ : Party FsOperator Role ServerEnv.Ended) :=
  .step rfl rfl (.step rfl rfl (.here rfl rfl))

omit hL in
/-- The client in front of the header. -/
theorem parks_download (name : Bytes) :
    Parks (⟨C.readReply k name >>= after C k as, cst, [], hl⟩ : Party ClientState Role ClientEnd) :=
  .step rfl rfl (.step rfl rfl (.step rfl rfl (.here rfl rfl)))

omit hL in
/-- The client in front of the result of a delete. -/
theorem parks_delete :
    Parks (⟨(C.deleteReply k >>= fun _ => pure none) >>= after C k as, cst, [], hl⟩ :
      Party ClientState Role ClientEnd) :=
  .step rfl rfl (.here rfl rfl)

omit hL in
/-- The server is done with an action and the client waits for an answer. -/
theorem waits_of_parks {s : Session} {evl evr : List (Ev Role)} {p : Client ClientEnd} {j : Nat}
    (h : Reach s ⟨⟨p, cst, [], hl ++ evl⟩, ⟨loop E.serveRound j, sst, [], hr ++ evr⟩⟩)
    (hp : Parks (⟨p, cst, [], hl ++ evl⟩ : Party ClientState Role ClientEnd)) (hm : Matched k k' evl evr)
    (hh : Heeds C.na.aead C.client_tx evl evr) :
    ∃ t : Session, Reach s t ∧ t.MutualWait ∧ t.l.inp = [] ∧ t.r.inp = [] ∧ Settled k k' hl hr t ∧
      Attended C hl hr t := by
  obtain ⟨n, q, hs, hw, hi, hl'⟩ := hp
  obtain ⟨n', q', hs', hw', hi', hr'⟩ := parks_server (E := E) j sst (hr ++ evr)
  have h1 := Reach.stepsL hs (⟨loop E.serveRound j, sst, [], hr ++ evr⟩ : Party FsOperator Role ServerEnv.Ended)
    rfl
  have h2 := Reach.stepsR hs' q (Party.done_of_waits hw)
  rw [Party.feed_nil] at h1 h2
  exact ⟨⟨q, q'⟩, h.trans (h1.trans h2), ⟨hw, hw'⟩, hi, hi', ⟨evl, evr, hl', hr', hm⟩, evl, evr, hl', hr', hh⟩

/-- A download of a name that does not fit, or of no file: the server is silent
and the client waits for the header. -/
theorem waits_download (ha : a.intention = READ_FROM_FILESYSTEM) (h4 : ¬ a.file_name.length < 4)
    (hs : (a.file_name ++ [0]).length ≤ FILE_ENCRYPTED_CHUNK_SIZE)
    (ho : (a.file_name ++ [0]).length ≤ PRE_EXT_FILE_NAME_LEN →
      sst.fs.openRead E.cwd (E.user_dir ++ cstr a.file_name) = none) :
    ∃ t : Session, Reach (idle C E k k' (a :: as) cst sst hl hr) t ∧ t.MutualWait ∧ t.l.inp = [] ∧
      t.r.inp = [] ∧ Settled k k' hl hr t ∧ Attended C hl hr t := by
  obtain ⟨cst1, n1, n2, n3, h1, h2, h3, -, -, hask⟩ :=
    ClientEnv.runs_askRead (C := C) cst [] false hl k a.file_name
  have hsrv : ∃ (sst1 : FsOperator) (r : Int), Runs (E.rffsHandlerServer k')
      ⟨{ sst with locals := sst.locals + 2 }, frame E.na.aead E.server_rx n3 (a.file_name ++ [0]) ++ [], false,
        hr ++ E.requestRcvs k' n1 n2 READ_FROM_FILESYSTEM, []⟩ r
      ⟨sst1, [], false, hr ++ E.requestRcvs k' n1 n2 READ_FROM_FILESYSTEM ++
        frameRcvs E.na.aead ⟨k', .fileName⟩ E.server_rx n3 (a.file_name ++ [0]), []⟩ := by
    by_cases hn : (a.file_name ++ [0]).length ≤ PRE_EXT_FILE_NAME_LEN
    · obtain ⟨sst1, -, hr⟩ := ServerEnv.runs_rffs_missing (E := E) { sst with locals := sst.locals + 2 } []
        false _ k' h3 hn (ho hn)
      exact ⟨sst1, 1, hr⟩
    · obtain ⟨sst1, -, hr⟩ := ServerEnv.runs_rffs_longName (E := E) { sst with locals := sst.locals + 2 } []
        false _ k' h3 (by omega) hs
      exact ⟨sst1, 2, hr⟩
  obtain ⟨sst1, r, hsrv⟩ := hsrv
  have hd : Runs (E.dispatch k' READ_FROM_FILESYSTEM) ⟨{ sst with locals := sst.locals + 2 },
      sent [Ev.snd (⟨k, .fileName⟩ : Role) (frame C.na.aead C.client_tx n3 (a.file_name ++ [0]))], false,
      hr ++ E.requestRcvs k' n1 n2 READ_FROM_FILESYSTEM, []⟩ (.ok ())
      ⟨sst1, [], false, hr ++ E.requestRcvs k' n1 n2 READ_FROM_FILESYSTEM ++
        frameRcvs C.na.aead ⟨k', .fileName⟩ C.client_tx n3 (a.file_name ++ [0]), []⟩ := by
    rw [hL.na, hL.up] at hsrv
    rw [ServerEnv.dispatch_read]
    exact Runs.bind hsrv (by simp)
  have hasked := asked hL k k' as cst sst hl hr (v := READ_FROM_FILESYSTEM) (by decide) (by decide)
    (by decide) h1 h2 (ClientEnv.performAction_read ha h4) hask hd rfl
  refine waits_of_parks k k' cst1 sst1 hl hr hasked (parks_download k as cst1 _ a.file_name) ?_ ?_
  · rintro rfl
    simp [rtags, rtags_frameRcvs, rtags_requestRcvs hL]
  · exact (hears_request hL k k' h1 h2 _).append_heeds (heeds_frame rfl rfl h3 hs)

/-- A delete of a name that does not fit. -/
theorem waits_delete (ha : a.intention = DELETE_FILE)
    (hn : PRE_EXT_FILE_NAME_LEN < (a.file_name ++ [0]).length)
    (hs : (a.file_name ++ [0]).length ≤ FILE_ENCRYPTED_CHUNK_SIZE) :
    ∃ t : Session, Reach (idle C E k k' (a :: as) cst sst hl hr) t ∧ t.MutualWait ∧ t.l.inp = [] ∧
      t.r.inp = [] ∧ Settled k k' hl hr t ∧ Attended C hl hr t := by
  obtain ⟨cst1, n1, n2, n3, h1, h2, h3, -, hask⟩ :=
    ClientEnv.runs_askDelete (C := C) cst [] false hl k a.file_name
  obtain ⟨sst1, -, hsrv⟩ := ServerEnv.runs_dffs_longName (E := E) { sst with locals := sst.locals + 2 } []
    false (hr ++ E.requestRcvs k' n1 n2 DELETE_FILE) k' h3 hn hs
  have hd : Runs (E.dispatch k' DELETE_FILE) ⟨{ sst with locals := sst.locals + 2 },
      sent [Ev.snd (⟨k, .fileName⟩ : Role) (frame C.na.aead C.client_tx n3 (a.file_name ++ [0]))], false,
      hr ++ E.requestRcvs k' n1 n2 DELETE_FILE, []⟩ (.ok ())
      ⟨sst1, [], false, hr ++ E.requestRcvs k' n1 n2 DELETE_FILE ++
        frameRcvs C.na.aead ⟨k', .fileName⟩ C.client_tx n3 (a.file_name ++ [0]), []⟩ := by
    rw [hL.na, hL.up] at hsrv
    rw [ServerEnv.dispatch_delete]
    exact Runs.bind hsrv (by simp [Except.map])
  have hasked := asked hL k k' as cst sst hl hr (v := DELETE_FILE) (by decide) (by decide) (by decide) h1 h2
    (ClientEnv.performAction_delete ha) hask hd rfl
  refine waits_of_parks k k' cst1 sst1 hl hr hasked (parks_delete k as cst1 _) ?_ ?_
  · rintro rfl
    simp [rtags, rtags_frameRcvs, rtags_requestRcvs hL]
  · exact (hears_request hL k k' h1 h2 _).append_heeds (heeds_frame rfl rfl h3 hs)

/-! ## Actions without an end -/

omit hL in
/-- An upload of a directory: the client sends for ever. -/
theorem streams_upload (ha : a.intention = WRITE_TO_FILESYSTEM)
    (ho : cst.fs.openRead C.cwd a.file_name = some ⟨[], true⟩) (n : Nat) :
    ∃ i j l n1 n2 nonce nonce' header salt cs, n ≤ i ∧ n1.length = 8 ∧ n2.length = 8 ∧
      header.length = STREAM_HEADERBYTES ∧ salt.length = PWHASH_SALTBYTES ∧ cs.length = n ∧
      (∀ c ∈ cs, c.1 = MEAT_CHUNK ∧ c.2.length ≤ FILE_ENCRYPTED_CHUNK_SIZE) ∧ l.done = false ∧
      l.hist = hl ++ (C.requestEvs k n1 n2 WRITE_TO_FILESYSTEM ++
        (initEvs C.na.aead C.client_tx k nonce a.file_name header salt ++
          chunkEvs C.na.aead C.client_tx k nonce' 0 cs)) ∧
      Run i j (idle C E k k' (a :: as) cst sst hl hr) ⟨l, ⟨loop E.serveRound k', sst,
        sent (C.requestEvs k n1 n2 WRITE_TO_FILESYSTEM ++
          (initEvs C.na.aead C.client_tx k nonce a.file_name header salt ++
            chunkEvs C.na.aead C.client_tx k nonce' 0 cs)), hr⟩⟩ := by
  obtain ⟨cst1, x, n1, n2, h1, h2, hs1, -, hreq⟩ :=
    ClientEnv.runs_request (C := C) cst [] false hl k WRITE_TO_FILESYSTEM
  rw [← hs1.fs] at ho
  obtain ⟨cst2, state, nonce', header, salt, -, hh, hs, hinit⟩ := ClientEnv.runs_initUpload (C := C) cst1 []
    false (hl ++ C.requestEvs k n1 n2 WRITE_TO_FILESYSTEM) k x.1 ho
  rw [List.append_assoc] at hinit
  obtain ⟨i, j, hask⟩ := idle_ask (E := E) k k' as cst sst hl hr (ClientEnv.performAction_upload ha)
    (Runs.bind hreq hinit)
  have hloop : (C.sendAll k (.inr (0, IStream.ofSource ⟨[], true⟩, state, nonce')) >>= fun _ => pure none) >>=
      after C k as = loop (C.sendRound k) (0, IStream.ofSource ⟨[], true⟩, state, nonce') >>= fun _ =>
        after C k as none := by
    simp [ClientEnv.sendAll]
  rw [hloop] at hask
  obtain ⟨m, cs, g, hm, hlen, hcs, hsteps⟩ := ClientEnv.steps_sendLoop (C := C) cst2 [] false
    (hl ++ (C.requestEvs k n1 n2 WRITE_TO_FILESYSTEM ++
      initEvs C.na.aead C.client_tx k x.1.nonce a.file_name header salt)) k
    (fun _ => after C k as none) n 0 IStream.broken_ofSource state nonce'
  have hrun := hask.trans (Run.ofStepsL hsteps _ rfl)
  refine ⟨_, _, _, n1, n2, x.1.nonce, nonce', header, salt, cs, ?_, h1, h2, hh, hs, hlen, hcs, ?_, ?_,
    by simpa [Party.feed] using hrun⟩
  · omega
  · rfl
  · simp

/-- The server takes it all. -/
theorem streams_upload_taken (ha : a.intention = WRITE_TO_FILESYSTEM)
    (ho : cst.fs.openRead C.cwd a.file_name = some ⟨[], true⟩)
    (hn : a.file_name.length ≤ PRE_EXT_FILE_NAME_LEN) (n : Nat) :
    ∃ i j u, n ≤ i ∧ n ≤ j ∧ Run i j (idle C E k k' (a :: as) cst sst hl hr) u ∧
      Settled k k' hl hr u ∧ Attended C hl hr u := by
  obtain ⟨i, j, l, n1, n2, nonce, nonce', header, salt, cs, hi, h1, h2, hh, hs, hlen, hcs, hlive, hhist, hrun⟩ :=
    streams_upload (E := E) k k' as cst sst hl hr ha ho n
  obtain ⟨i', j', htake⟩ := takes_request hL k k' sst hr h1 h2 (v := WRITE_TO_FILESYSTEM) (by decide)
    (by decide) (by decide) (initEvs C.na.aead C.client_tx k nonce a.file_name header salt ++
      chunkEvs C.na.aead C.client_tx k nonce' 0 cs) l
  have hhandle : E.handle k' WRITE_TO_FILESYSTEM = E.openUpload k' >>= fun b => E.takeAll k' b >>= fun _ =>
      loop E.serveRound (k' + 1) := by
    simp only [ServerEnv.handle, ServerEnv.dispatch_write, ServerEnv.wtfsHandlerServer_eq, bind_assoc,
      pure_bind]
    rfl
  have hopen := ServerEnv.runs_openUpload (E := E) { sst with locals := sst.locals + 2 }
    (sent (chunkEvs C.na.aead C.client_tx k' nonce' 0 cs)) false
    (hr ++ E.requestRcvs k' n1 n2 WRITE_TO_FILESYSTEM) k' nonce hn hh hs
  rw [hL.na, hL.up] at hopen
  obtain ⟨m, hopen⟩ := Party.Steps.ofRuns
    (fun b => E.takeAll k' b >>= fun _ => loop E.serveRound (k' + 1)) hopen
  have htakeAll : E.takeAll k' true >>= (fun _ => loop E.serveRound (k' + 1)) =
      loop (E.wtfsRound k') (0, END_CHUNK, []) >>= fun x => ServerEnv.writeOut (writerOutput x.2) >>= fun _ =>
        loop E.serveRound (k' + 1) := by
    simp [ServerEnv.takeAll]
  rw [htakeAll, sent_initRcvs] at hopen
  obtain ⟨m', g, hm', hloop⟩ := ServerEnv.steps_wtfsLoop (E := E)
    (ServerEnv.written (header ++ salt) (E.opened (cstr a.file_name ++ ext)
      { sst with locals := sst.locals + 2 + 4 })) [] false
    (hr ++ E.requestRcvs k' n1 n2 WRITE_TO_FILESYSTEM ++
      initRcvs C.na.aead C.client_tx k' nonce a.file_name header salt) k'
    (fun x => ServerEnv.writeOut (writerOutput x.2) >>= fun _ => loop E.serveRound (k' + 1)) hcs nonce' 0
    END_CHUNK []
  rw [hL.na, hL.up, List.append_nil] at hloop
  have hsteps := Run.ofStepsR (hopen.trans hloop) l hlive
  rw [List.nil_append, Party.feed_nil, ← hhandle, sent_chunkEvs_act _ _ k' k, sent_initEvs_act _ _ k' k,
    ← sent_append] at hsteps
  let got := E.requestRcvs k' n1 n2 WRITE_TO_FILESYSTEM ++
    (initRcvs C.na.aead C.client_tx k' nonce a.file_name header salt ++
      chunkRcvs C.na.aead C.client_tx k' nonce' 0 cs)
  refine ⟨_, _, _, ?_, ?_, hrun.trans (htake.trans hsteps), ⟨_, got, hhist, by simp [got], ?_⟩, _, got, hhist,
    by simp [got], ?_⟩
  · omega
  · omega
  · rintro rfl
    simp [got, rtags_requestRcvs hL, rtags_initRcvs, rtags_chunkRcvs]
  · exact ((hears_request hL k k' h1 h2 _).append
      ((hears_init k k' nonce hn hh hs).append (hears_chunks k k' nonce' 0 cs))).heeds

/-- A download of a directory: the server sends for ever. -/
theorem streams_download (ha : a.intention = READ_FROM_FILESYSTEM) (h4 : ¬ a.file_name.length < 4)
    (hn : (a.file_name ++ [0]).length ≤ PRE_EXT_FILE_NAME_LEN)
    (ho : sst.fs.openRead E.cwd (E.user_dir ++ cstr a.file_name) = some ⟨[], true⟩) (n : Nat) :
    ∃ i j u, n ≤ j ∧ Run i j (idle C E k k' (a :: as) cst sst hl hr) u := by
  obtain ⟨cst1, n1, n2, n3, h1, h2, h3, -, -, hask⟩ :=
    ClientEnv.runs_askRead (C := C) cst [] false hl k a.file_name
  let evs : List (Ev Role) := [.snd ⟨k, .fileName⟩ (frame C.na.aead C.client_tx n3 (a.file_name ++ [0]))]
  let l : Party ClientState Role ClientEnd := ⟨C.readReply k a.file_name >>= after C k as, cst1, [],
    hl ++ (C.requestEvs k n1 n2 READ_FROM_FILESYSTEM ++ evs)⟩
  obtain ⟨sst1, buf, hfs, -, hname⟩ := ServerEnv.runs_takeName (E := E) { sst with locals := sst.locals + 2 }
    [] false (hr ++ E.requestRcvs k' n1 n2 READ_FROM_FILESYSTEM) k' h3 (ServerEnv.name_short hn)
  obtain ⟨sst2, file, evs2, hfile, hopen⟩ := ServerEnv.runs_openFile_dir (E := E) sst1 [] false
    (hr ++ E.requestRcvs k' n1 n2 READ_FROM_FILESYSTEM ++
      frameRcvs E.na.aead ⟨k', .fileName⟩ E.server_rx n3 (a.file_name ++ [0])) k' (n := n3) buf hn
    (by rw [hfs]; exact ho)
  have htake := takes_request hL k k' sst hr h1 h2 (v := READ_FROM_FILESYSTEM) (by decide) (by decide)
    (by decide) evs l
  have hread := Reach.runsR (fun x => E.openFile k' x >>= fun y => E.sendRest k' y >>= fun _ =>
    loop E.serveRound (k' + 1)) hname l rfl
  rw [sent_frameRcvs, Party.feed_nil] at hread
  have hsend := Reach.runsR (fun y => E.sendRest k' y >>= fun _ => loop E.serveRound (k' + 1)) hopen l rfl
  have hfirst := hread.trans hsend
  rw [hL.na, hL.up] at hfirst
  obtain ⟨i, j, hrun⟩ := (idle_ask (E := E) k k' as cst sst hl hr (ClientEnv.performAction_read ha h4)
    hask).trans (htake.trans (by rw [handle_read]; exact hfirst))
  obtain ⟨m, q, o, hm, hsteps⟩ := ServerEnv.steps_rffsLoop (E := E) sst2 [] false
    (hr ++ E.requestRcvs k' n1 n2 READ_FROM_FILESYSTEM ++
      frameRcvs C.na.aead ⟨k', .fileName⟩ C.client_tx n3 (a.file_name ++ [0]) ++ evs2) k'
    (fun _ => loop E.serveRound (k' + 1)) n 0 hfile
  exact ⟨_, _, _, by omega, hrun.trans (Run.ofStepsR hsteps (l.feed (sent evs2)) rfl)⟩

end

end Mefsc.L4
