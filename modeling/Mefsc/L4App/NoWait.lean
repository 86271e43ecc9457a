import Mefsc.L4App.Stop

/-!
# No mutual wait, and where it is broken

Every handler of the server that gives up on a download or a delete does so
without a word, while the client waits for its answer: a missing file or a name
that does not fit leaves both sides in `recv` (`download_of_missing_waits`). An
upload tells the server first whether there is a file, and a delete of a file
that is not there is answered `ACK_FAIL`, so the other refusals are harmless.

`Answered`: the action, in this state of both sides, is answered to the end.
`no_mutual_wait`: in a session all of whose actions are, no reachable state has
both sides waiting. An intention the client does not know leaves it one
frame ahead of the server; this ends the connection or evens out
(`idle_noWait`).
-/
namespace Mefsc.L4

open L1 L1.SessionEncWrapper L2 L3
open Proc hiding ret recv send act iter bind bind_assoc
open Net hiding MutualWait

/-- What keeps an action from leaving its client without an answer. -/
structure Answered (C : ClientEnv) (E : ServerEnv) (a : UserAction) (cst : ClientState)
    (sst : FsOperator) : Prop where
  /-- A download: the name fits and something opens. A regular file is one the
  client can decrypt to the end; a directory is sent for ever. -/
  read : a.intention = READ_FROM_FILESYSTEM → ¬ a.file_name.length < 4 →
    (a.file_name ++ [0]).length ≤ PRE_EXT_FILE_NAME_LEN ∧
      ∃ src, sst.fs.openRead E.cwd (E.user_dir ++ cstr a.file_name) = some src ∧
        (src.bad = false → C.host.oom (cst.hashes + 1) = false ∧ Readable C src.bytes)
  /-- An upload of a regular file: the name fits a frame. -/
  write : a.intention = WRITE_TO_FILESYSTEM → ∀ c, cst.fs.openRead C.cwd a.file_name = some ⟨c, false⟩ →
    a.file_name.length ≤ FILE_ENCRYPTED_CHUNK_SIZE
  list : a.intention = LIST_FILES → ∀ ns, sst.fs.list E.cwd E.user_dir = .ok ns → Listable ns
  delete : a.intention = DELETE_FILE → (a.file_name ++ [0]).length ≤ PRE_EXT_FILE_NAME_LEN

/-- Every action of `as` is answered in the states it begins in. -/
def AllAnswered (C : ClientEnv) (E : ServerEnv) (as : List UserAction) (s : Session) : Prop :=
  ∀ k k' b bs cst sst hl hr, b :: bs <:+ as → Reach s (idle C E k k' (b :: bs) cst sst hl hr) →
    Answered C E b cst sst

theorem AllAnswered.of_reach {C : ClientEnv} {E : ServerEnv} {as bs : List UserAction} {s t : Session}
    (h : AllAnswered C E as s) (hs : bs <:+ as) (hr : Reach s t) : AllAnswered C E bs t :=
  fun k k' b cs cst sst hl hr' hb ht => h k k' b cs cst sst hl hr' (hb.trans hs) (hr.trans ht)

section
variable {C : ClientEnv} {E : ServerEnv} (hL : Linked C E) (k k' : Nat) {a : UserAction}
  (as : List UserAction) (cst : ClientState) (sst : FsOperator) (hl hr : List (Ev Role))

/-! ## Names that do not fit an upload -/

include hL

/-- The server takes the header for a notice, and closes. -/
theorem closes_upload (ha : a.intention = WRITE_TO_FILESYSTEM) {c : Bytes}
    (ho : cst.fs.openRead C.cwd a.file_name = some ⟨c, false⟩)
    (hn : PRE_EXT_FILE_NAME_LEN < a.file_name.length)
    (hs : a.file_name.length ≤ FILE_ENCRYPTED_CHUNK_SIZE) :
    ∃ t : Session, Reach (idle C E k k' (a :: as) cst sst hl hr) t ∧ t.r.done = true := by
  obtain ⟨cst1, n1, n2, nonce, nonce', r, key, salt, h1, h2, hsalt, -, -, hask⟩ :=
    ClientEnv.runs_askUpload (C := C) cst [] false hl k ho
  let header := (C.na.ss.initPush r key).2
  let m1 := sodiumIncrement nonce
  let m2 := sodiumIncrement m1
  let m3 := sodiumIncrement m2
  let later := frame C.na.aead C.client_tx (sodiumIncrement m3) salt ++
    sent (chunkEvs C.na.aead C.client_tx k nonce' 0
      (marked (pushAll C.na.ss (C.na.ss.initPush r key).1 (cut CHUNK_SIZE c))))
  have hsrv := ServerEnv.runs_wtfs_refused (E := E) { sst with locals := sst.locals + 2 } _ false
    (hr ++ E.requestRcvs k' n1 n2 WRITE_TO_FILESYSTEM) k' (k := 1) fun st buf hbuf sbuf =>
      ServerEnv.runs_initRead_longName st (frame C.na.aead C.client_tx m3 header ++ later) false _ k'
        (sodiumIncrement_length nonce) (sodiumIncrement_length m1) hn hs buf hbuf sbuf
  rw [hL.na, hL.up] at hsrv
  have hin : sent (initEvs C.na.aead C.client_tx k nonce a.file_name header salt ++
      chunkEvs C.na.aead C.client_tx k nonce' 0
        (marked (pushAll C.na.ss (C.na.ss.initPush r key).1 (cut CHUNK_SIZE c)))) =
      frame C.na.aead C.client_tx m1 [1] ++ (frame C.na.aead C.client_tx m2 a.file_name ++
        (frame C.na.aead C.client_tx m3 header ++ later)) := by
    simp [initEvs, sent, later, m1, m2, m3]
  rw [← hin] at hsrv
  have hasked := asked hL k k' as cst sst hl hr (v := WRITE_TO_FILESYSTEM) (by decide) (by decide)
    (by decide) h1 h2 ((ClientEnv.performAction_write ha).trans (bind_assoc _ _ _).symm) hask
    (y := .ok ()) (by rw [ServerEnv.dispatch_write]; exact Runs.bind hsrv ((runs_pure _ _ _ _).mpr ⟨rfl, rfl⟩))
    done_actionsFrom
  -- the next round finds 24 bytes where a notice has 4
  have h24 : header.length = STREAM_HEADERBYTES := C.na.ss.header_length r key
  have hclose := ServerEnv.runs_serveRound_tooLong (E := E) (n := m3) (m := header)
    { sst with locals := sst.locals + 2 + 3 + 1 } later false
    (hr ++ (E.requestRcvs k' n1 n2 WRITE_TO_FILESYSTEM ++
      (frameRcvs C.na.aead ⟨k', .fileExists⟩ C.client_tx m1 [1] ++
        frameRcvs C.na.aead ⟨k', .fileName⟩ C.client_tx m2 a.file_name))) (k' + 1)
    (sodiumIncrement_length _) (by rw [h24]; decide) (by rw [h24]; decide)
  rw [hL.na, hL.up] at hclose
  have hreach := hasked.trans (Reach.loopR hclose _ done_actionsFrom)
  exact ⟨_, hreach, rfl⟩

/-! ## Intentions the client does not know -/

omit hL in
/-- A notice is no intent of any handler. -/
theorem handle_notice : E.handle k' NEW_ACTION = loop E.serveRound (k' + 1) := by
  have hd : E.dispatch k' NEW_ACTION = pure (.ok ()) := by
    simp [ServerEnv.dispatch, NEW_ACTION, READ_FROM_FILESYSTEM, WRITE_TO_FILESYSTEM, LIST_FILES, DELETE_FILE]
  rw [ServerEnv.handle, hd]
  rfl

omit hL in
/-- The client goes on, one notice ahead. -/
theorem ahead (hc : a.intention ≠ CONFUSION) (hk : ¬ ClientEnv.Known a.intention)
    (r : Party FsOperator Role ServerEnv.Ended) (hd : r.done = false) :
    ∃ cst' n, n.length = 8 ∧ Reach (⟨⟨C.actionsFrom k (a :: as), cst, [], hl⟩, r⟩ : Session)
      ⟨⟨C.actionsFrom (k + 1) as, cst', [], hl ++ [.snd ⟨k, .notice⟩
        (frame C.na.aead C.client_tx n (i32Enc NEW_ACTION))]⟩,
        r.feed (frame C.na.aead C.client_tx n (i32Enc NEW_ACTION))⟩ := by
  obtain ⟨cst1, x, n, hn, -, -, hrun⟩ := ClientEnv.runs_announce (C := C) cst [] false hl k
  have h := client_asks k as cst hl (ClientEnv.performAction_other hc hk) hrun r hd
  exact ⟨cst1, n, hn, by simpa [sent, after] using h⟩

/-- Two such intentions: the second notice is taken for the intent of the
first, and both sides are between two actions again. -/
theorem ahead_twice {b : UserAction} (hc : a.intention ≠ CONFUSION) (hk : ¬ ClientEnv.Known a.intention)
    (hcb : b.intention ≠ CONFUSION) (hkb : ¬ ClientEnv.Known b.intention) :
    ∃ cst' sst' hl' hr', Reach (idle C E k k' (a :: b :: as) cst sst hl hr)
      (idle C E (k + 2) (k' + 1) as cst' sst' hl' hr') := by
  obtain ⟨cst1, n1, h1, hreach1⟩ := ahead k (b :: as) cst hl hc hk
    (⟨loop E.serveRound k', sst, [], hr⟩ : Party FsOperator Role ServerEnv.Ended) rfl
  obtain ⟨cst2, n2, h2, hreach2⟩ := ahead (k + 1) as cst1 (hl ++ [.snd ⟨k, .notice⟩
    (frame C.na.aead C.client_tx n1 (i32Enc NEW_ACTION))]) hcb hkb
    (⟨loop E.serveRound k', sst, frame C.na.aead C.client_tx n1 (i32Enc NEW_ACTION), hr⟩ :
      Party FsOperator Role ServerEnv.Ended) rfl
  have htake := takes_request hL k k' sst hr h1 h2 (v := NEW_ACTION) (by decide) (by decide) (by decide) []
    (⟨C.actionsFrom (k + 2) as, cst2, [], hl ++ [.snd ⟨k, .notice⟩
      (frame C.na.aead C.client_tx n1 (i32Enc NEW_ACTION))] ++ [.snd ⟨k + 1, .notice⟩
      (frame C.na.aead C.client_tx n2 (i32Enc NEW_ACTION))]⟩ : Party ClientState Role ClientEnd)
  rw [List.append_nil, sent_requestEvs, handle_notice] at htake
  exact ⟨_, _, _, _, hreach1.trans (hreach2.trans htake)⟩

/-- Such an intention and then a known one: the intent is taken for a notice. -/
theorem ahead_closes {b : UserAction} (hc : a.intention ≠ CONFUSION) (hk : ¬ ClientEnv.Known a.intention)
    (hkb : ClientEnv.Known b.intention) :
    ∃ t : Session, Reach (idle C E k k' (a :: b :: as) cst sst hl hr) t ∧ t.r.done = true := by
  obtain ⟨cst1, n1, h1, hreach1⟩ := ahead (C := C) k (b :: as) cst hl hc hk
    (⟨loop E.serveRound k', sst, [], hr⟩ : Party FsOperator Role ServerEnv.Ended) rfl
  obtain ⟨rest, hp⟩ := ClientEnv.performAction_known (C := C) (k + 1) hkb
  obtain ⟨cst2, x, n2, n3, h2, h3, -, -, hreq⟩ := ClientEnv.runs_request (C := C) cst1 [] false
    (hl ++ [.snd ⟨k, .notice⟩ (frame C.na.aead C.client_tx n1 (i32Enc NEW_ACTION))]) (k + 1) b.intention
  have hreach2 := client_asks (k + 1) as cst1 _ hp hreq
    (⟨loop E.serveRound k', sst, frame C.na.aead C.client_tx n1 (i32Enc NEW_ACTION), hr⟩ :
      Party FsOperator Role ServerEnv.Ended) rfl
  let l : Party ClientState Role ClientEnd := ⟨rest x >>= after C (k + 1) as, cst2, [],
    hl ++ [.snd ⟨k, .notice⟩ (frame C.na.aead C.client_tx n1 (i32Enc NEW_ACTION))] ++
      C.requestEvs (k + 1) n2 n3 b.intention⟩
  have htake := takes_request hL k k' sst hr h1 h2 (v := NEW_ACTION) (by decide) (by decide) (by decide)
    [.snd ⟨k + 1, .intent⟩ (frame C.na.aead C.client_tx n3 (i32Enc b.intention))] l
  have hv : -2 ^ 31 ≤ b.intention ∧ b.intention < 2 ^ 31 ∧ b.intention ≠ NEW_ACTION := by
    rcases hkb with h | h | h | h <;> rw [h] <;> decide
  have hclose := ServerEnv.runs_serveRound_closed (E := E) { sst with locals := sst.locals + 2 } [] l.done
    (hr ++ E.requestRcvs k' n1 n2 NEW_ACTION) (k' + 1) h3 hv.1 hv.2.1 hv.2.2
  rw [hL.na, hL.up] at hclose
  have hloop := Reach.loopR hclose l rfl
  rw [handle_notice] at htake
  have hsent : (⟨loop E.serveRound k', sst, frame C.na.aead C.client_tx n1 (i32Enc NEW_ACTION), hr⟩ :
      Party FsOperator Role ServerEnv.Ended).feed (sent (C.requestEvs (k + 1) n2 n3 b.intention)) =
      ⟨loop E.serveRound k', sst, sent (C.requestEvs k n1 n2 NEW_ACTION ++
        [.snd ⟨k + 1, .intent⟩ (frame C.na.aead C.client_tx n3 (i32Enc b.intention))]), hr⟩ := by
    simp [Party.feed, sent_requestEvs, sent]
  rw [hsent] at hreach2
  exact ⟨_, hreach1.trans (hreach2.trans (htake.trans hloop)), rfl⟩

end

/-! ## Sessions -/

section
variable {C : ClientEnv} {E : ServerEnv} (hL : Linked C E)

include hL

/-- An answered action leads to the next one, or no wait is possible any more. -/
theorem idle_noWait_known (k k' : Nat) {a : UserAction} (as : List UserAction) (cst : ClientState)
    (sst : FsOperator) (hl hr : List (Ev Role)) (hA : Answered C E a cst sst)
    (hk : ClientEnv.Known a.intention)
    (ih : ∀ cst' sst' hl' hr', Reach (idle C E k k' (a :: as) cst sst hl hr)
      (idle C E (k + 1) (k' + 1) as cst' sst' hl' hr') → NoWait (idle C E (k + 1) (k' + 1) as cst' sst' hl' hr')) :
    NoWait (idle C E k k' (a :: as) cst sst hl hr) := by
  have hnext : ∀ cst' sst' hl' hr', Reach (idle C E k k' (a :: as) cst sst hl hr)
      (idle C E (k + 1) (k' + 1) as cst' sst' hl' hr') → NoWait (idle C E k k' (a :: as) cst sst hl hr) :=
    fun cst' sst' hl' hr' h => noWait_of_run h (ih cst' sst' hl' hr' h)
  rcases hk with ha | ha | ha | ha
  · by_cases h4 : a.file_name.length < 4
    · obtain ⟨t, ht, hd, -⟩ := end_threw hL k k' as cst sst hl hr ha h4
      exact noWait_of_run ht (noWait_of_done (.inl hd))
    · obtain ⟨hn, ⟨b, bad⟩, ho, hgood⟩ := hA.read ha h4
      cases bad with
      | true =>
        obtain rfl := FS.openRead_bad ho
        refine noWait_of_unbounded fun n => ?_
        obtain ⟨i, j, u, hj, hu⟩ := streams_download hL k k' as cst sst hl hr ha h4 hn ho n
        exact ⟨i, j, u, by omega, hu⟩
      | false =>
        obtain ⟨hoom, hB⟩ := hgood rfl
        obtain ⟨cst', sst', evl, evr, -, -, -, -, -, -, -, -, -, -, h⟩ :=
          turn_download hL k k' as cst sst hl hr ha h4 hn ho hoom hB
        exact hnext _ _ _ _ h
  · cases ho : cst.fs.openRead C.cwd a.file_name with
    | none =>
      obtain ⟨cst', sst', evl, evr, -, -, -, -, h⟩ := turn_upload_missing hL k k' as cst sst hl hr ha ho
      exact hnext _ _ _ _ h
    | some src =>
      obtain ⟨b, bad⟩ := src
      cases bad with
      | true =>
        obtain rfl := FS.openRead_bad ho
        refine noWait_of_unbounded fun n => ?_
        obtain ⟨i, j, l, _, _, _, _, _, _, _, hi, -, -, -, -, -, -, -, -, hu⟩ :=
          streams_upload (E := E) k k' as cst sst hl hr ha ho n
        exact ⟨i, j, _, by omega, hu⟩
      | false =>
        have hs := hA.write ha b ho
        by_cases hn : a.file_name.length ≤ PRE_EXT_FILE_NAME_LEN
        · obtain ⟨cst', sst', evl, evr, -, -, -, -, -, -, -, -, -, -, -, -, -, -, h⟩ :=
            turn_upload hL k k' as cst sst hl hr ha ho hn
          exact hnext _ _ _ _ h
        · obtain ⟨t, ht, hd⟩ := closes_upload hL k k' as cst sst hl hr ha ho (by omega) hs
          exact noWait_of_run ht (noWait_of_done (.inr hd))
  · cases ho : sst.fs.list E.cwd E.user_dir with
    | error er =>
      obtain ⟨t, ht, hd, -⟩ := end_list hL k k' as cst sst hl hr ha ho
      exact noWait_of_run ht (noWait_of_done (.inr hd))
    | ok ns =>
      obtain ⟨cst', sst', evl, evr, -, -, -, -, -, h⟩ :=
        turn_list hL k k' as cst sst hl hr ha ho (hA.list ha ns ho)
      exact hnext _ _ _ _ h
  · have hn := hA.delete ha
    cases ho : sst.fs.remove E.cwd (E.user_dir ++ cstr a.file_name) with
    | error er =>
      obtain ⟨t, ht, hd, -⟩ := end_delete hL k k' as cst sst hl hr ha hn ho
      exact noWait_of_run ht (noWait_of_done (.inr hd))
    | ok x =>
      obtain ⟨cst', sst', evl, evr, _, -, -, -, -, -, -, h⟩ := turn_delete hL k k' as cst sst hl hr ha hn ho
      exact hnext _ _ _ _ h

omit hL in
/-- An unknown intention and then the end. -/
theorem ahead_ends (k : Nat) {a : UserAction} (cst : ClientState) (hl : List (Ev Role))
    (hc : a.intention ≠ CONFUSION) (hk : ¬ ClientEnv.Known a.intention)
    (r : Party FsOperator Role ServerEnv.Ended) (hd : r.done = false) :
    ∃ t : Session, Reach ⟨⟨C.actionsFrom k [a], cst, [], hl⟩, r⟩ t ∧ t.l.done = true := by
  obtain ⟨cst1, n, -, h1⟩ := ahead k [] cst hl hc hk r hd
  have h2 := Reach.runsL (fun _ => pure (ClientEnd.returned 0))
    (ClientEnv.runs_sendSession (C := C) cst1 [] false (hl ++ [.snd ⟨k, .notice⟩
      (frame C.na.aead C.client_tx n (i32Enc NEW_ACTION))]) ⟨k + 1, .notice⟩ (i32Enc NO_ACTION))
    (r.feed (frame C.na.aead C.client_tx n (i32Enc NEW_ACTION))) hd
  exact ⟨_, h1.trans h2, rfl⟩

omit hL in
theorem ahead_confused (k : Nat) {a b : UserAction} (as : List UserAction) (cst : ClientState)
    (hl : List (Ev Role)) (hc : a.intention ≠ CONFUSION) (hk : ¬ ClientEnv.Known a.intention)
    (hb : b.intention = CONFUSION) (r : Party FsOperator Role ServerEnv.Ended) (hd : r.done = false) :
    ∃ t : Session, Reach ⟨⟨C.actionsFrom k (a :: b :: as), cst, [], hl⟩, r⟩ t ∧ t.l.done = true := by
  obtain ⟨cst1, n, -, h1⟩ := ahead k (b :: as) cst hl hc hk r hd
  obtain ⟨cst2, x, n2, -, -, -, hrun⟩ := ClientEnv.runs_announce (C := C) cst1 [] false
    (hl ++ [.snd ⟨k, .notice⟩ (frame C.na.aead C.client_tx n (i32Enc NEW_ACTION))]) (k + 1)
  have h2 := client_asks (k + 1) as cst1 _ (ClientEnv.performAction_confusion hb) hrun
    (r.feed (frame C.na.aead C.client_tx n (i32Enc NEW_ACTION))) hd
  exact ⟨_, h1.trans h2, rfl⟩

/-- From any state between two actions. The induction is on the number of
actions left, since two unknown intentions are dealt with at once. -/
theorem idle_noWait (as : List UserAction) (k k' : Nat) (cst : ClientState) (sst : FsOperator)
    (hl hr : List (Ev Role)) (hA : AllAnswered C E as (idle C E k k' as cst sst hl hr)) :
    NoWait (idle C E k k' as cst sst hl hr) := by
  induction hn : as.length using Nat.strong_induction_on generalizing as k k' cst sst hl hr with
  | _ n ih =>
    subst hn
    cases as with
    | nil =>
      obtain ⟨cst', sst', evl, evr, -, -, -, -, h⟩ := end_session hL k k' cst sst hl hr
      exact noWait_of_run h (noWait_of_done (.inl rfl))
    | cons a as =>
      by_cases hc : a.intention = CONFUSION
      · obtain ⟨t, ht, hd, -⟩ := end_confusion hL k k' as cst sst hl hr hc
        exact noWait_of_run ht (noWait_of_done (.inl hd))
      by_cases hk : ClientEnv.Known a.intention
      · refine idle_noWait_known hL k k' as cst sst hl hr
          (hA k k' a as cst sst hl hr (List.suffix_refl _) (Reach.refl _)) hk fun cst' sst' hl' hr' h => ?_
        exact ih as.length (by simp) as _ _ _ _ _ _ (hA.of_reach (List.suffix_cons a as) h) rfl
      cases as with
      | nil =>
        obtain ⟨t, ht, hd⟩ := ahead_ends (C := C) k cst hl hc hk
          (⟨loop E.serveRound k', sst, [], hr⟩ : Party FsOperator Role ServerEnv.Ended) rfl
        exact noWait_of_run ht (noWait_of_done (.inl hd))
      | cons b bs =>
        by_cases hcb : b.intention = CONFUSION
        · obtain ⟨t, ht, hd⟩ := ahead_confused (C := C) k bs cst hl hc hk hcb
            (⟨loop E.serveRound k', sst, [], hr⟩ : Party FsOperator Role ServerEnv.Ended) rfl
          exact noWait_of_run ht (noWait_of_done (.inl hd))
        by_cases hkb : ClientEnv.Known b.intention
        · obtain ⟨t, ht, hd⟩ := ahead_closes hL k k' bs cst sst hl hr hc hk hkb
          exact noWait_of_run ht (noWait_of_done (.inr hd))
        · obtain ⟨cst', sst', hl', hr', h⟩ := ahead_twice hL k k' bs cst sst hl hr hc hk hcb hkb
          have hsuf : bs <:+ a :: b :: bs := ⟨[a, b], rfl⟩
          exact noWait_of_run h
            (ih bs.length (by simp only [List.length_cons]; omega) bs _ _ _ _ _ _ (hA.of_reach hsuf h) rfl)

/-- No reachable state of a session whose actions are all answered has both
sides waiting in `recv`. -/
theorem no_mutual_wait (first : UserAction) (more : List UserAction) (cst : ClientState) (sst : FsOperator)
    (hA : AllAnswered C E (first :: more) (opening C E first more cst sst)) :
    NoWait (opening C E first more cst sst) := by
  cases hd : sst.fs.createDirectories E.cwd (splitSlash E.user_dir) with
  | error er =>
    exact noWait_of_run (opening_threw first more cst hd) (noWait_of_done (.inr rfl))
  | ok fs =>
    obtain ⟨sst', -, h⟩ := opening_idle (C := C) first more cst hd
    exact noWait_of_run h (idle_noWait hL _ _ _ _ _ _ _ (hA.of_reach (List.suffix_refl _) h))

end

/-- An upload, a delete and an intention the client does not know. -/
theorem no_mutual_wait_alice :
    NoWait (opening aliceClient aliceServer ⟨WRITE_TO_FILESYSTEM, [97]⟩
      [⟨DELETE_FILE, [97] ++ ext⟩, ⟨7, []⟩] aliceHome aliceDir) := by
  refine no_mutual_wait alice_linked _ _ _ _ fun k k' b bs cst sst hl hr hb _ => ?_
  have hmem := hb.subset List.mem_cons_self
  simp only [List.mem_cons, List.not_mem_nil, or_false] at hmem
  rcases hmem with rfl | rfl | rfl
  · exact ⟨fun h => absurd h (by decide), fun _ _ _ => by decide, fun h => absurd h (by decide),
      fun h => absurd h (by decide)⟩
  · exact ⟨fun h => absurd h (by decide), fun h => absurd h (by decide), fun h => absurd h (by decide),
      fun _ => by decide⟩
  · exact ⟨fun h => absurd h (by decide), fun h => absurd h (by decide), fun h => absurd h (by decide),
      fun h => absurd h (by decide)⟩

/-- A download of `"none"`. -/
def askNone : UserAction := ⟨READ_FROM_FILESYSTEM, [110, 111, 110, 101]⟩

/-- In alice's empty directory: both sides wait and nothing is on its way. -/
theorem download_of_missing_waits :
    ∃ t, Reach (opening aliceClient aliceServer askNone [] aliceHome aliceDir) t ∧ t.MutualWait ∧
      t.l.inp = [] ∧ t.r.inp = [] := by
  have hd : aliceDir.fs.createDirectories aliceServer.cwd (splitSlash aliceServer.user_dir) =
      .ok aliceDir.fs := by rfl
  obtain ⟨sst, hfs, h⟩ := opening_idle (C := aliceClient) askNone [] aliceHome hd
  have hnone : sst.fs.openRead aliceServer.cwd (aliceServer.user_dir ++ cstr askNone.file_name) = none := by
    rw [hfs]
    decide +kernel
  obtain ⟨t, ht, hw, hl, hr, -⟩ := waits_download (a := askNone) alice_linked 0 0 [] aliceHome sst [] [] rfl
    (by decide) (by decide) fun _ => hnone
  exact ⟨t, h.trans ht, hw, hl, hr⟩

end Mefsc.L4
