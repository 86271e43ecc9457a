import Mefsc.L4App.Stop

/-!
# Role agreement, and where it is broken

Frames carry no type, so a byte is read in the role it was sent in only as long
as both control flows stay in step. They do not when

* the intention is none the client knows: the notice is sent and no intent, and
  the server takes the next notice for one (`unknown_intention_shifts`);
* an upload has a name that does not fit: the server leaves the handler and
  takes the header for a notice;
* the client leaves a download or a list before its end: the rest is taken for
  the answer to the next action.

`InStep` leaves these out; `roles_agree`: in a session all of whose actions are in
step, every byte received so far was received in the role it was sent in, in
every reachable state.
-/
namespace Mefsc.L4

open L1 L1.SessionEncWrapper L2 L3
open Proc hiding ret recv send act iter bind bind_assoc
open Net hiding MutualWait

/-- What keeps the two sides of an action in step. -/
structure InStep (C : ClientEnv) (E : ServerEnv) (a : UserAction) (cst : ClientState)
    (sst : FsOperator) : Prop where
  known : a.intention = CONFUSION ∨ ClientEnv.Known a.intention
  /-- A download that is answered is one the client takes to the end. -/
  read : a.intention = READ_FROM_FILESYSTEM → ¬ a.file_name.length < 4 →
    (a.file_name ++ [0]).length ≤ FILE_ENCRYPTED_CHUNK_SIZE ∧
      ((a.file_name ++ [0]).length ≤ PRE_EXT_FILE_NAME_LEN →
        ∀ src, sst.fs.openRead E.cwd (E.user_dir ++ cstr a.file_name) = some src →
          src.bad = false ∧ C.host.oom (cst.hashes + 1) = false ∧ Readable C src.bytes)
  write : a.intention = WRITE_TO_FILESYSTEM → ∀ src, cst.fs.openRead C.cwd a.file_name = some src →
    a.file_name.length ≤ PRE_EXT_FILE_NAME_LEN
  list : a.intention = LIST_FILES → ∀ ns, sst.fs.list E.cwd E.user_dir = .ok ns → Listable ns
  delete : a.intention = DELETE_FILE → (a.file_name ++ [0]).length ≤ FILE_ENCRYPTED_CHUNK_SIZE

/-- Every action of `as` is in step in the states it begins in. -/
def AllInStep (C : ClientEnv) (E : ServerEnv) (as : List UserAction) (s : Session) : Prop :=
  ∀ k k' b bs cst sst hl hr, b :: bs <:+ as → Reach s (idle C E k k' (b :: bs) cst sst hl hr) →
    InStep C E b cst sst

theorem AllInStep.of_reach {C : ClientEnv} {E : ServerEnv} {as bs : List UserAction} {s t : Session}
    (h : AllInStep C E as s) (hs : bs <:+ as) (hr : Reach s t) : AllInStep C E bs t :=
  fun k k' b cs cst sst hl hr' hb ht => h k k' b cs cst sst hl hr' (hb.trans hs) (hr.trans ht)

/-! ## Histories in step -/

/-- Everything sent has been read, in its role. -/
def Sync (hl hr : List (Ev Role)) : Prop := rtags hl = stags hr ∧ rtags hr = stags hl

theorem Sync.append {hl hr evl evr : List (Ev Role)} {k : Nat} (h : Sync hl hr)
    (hm : Matched k k evl evr) : Sync (hl ++ evl) (hr ++ evr) := by
  obtain ⟨h1, h2⟩ := hm rfl
  simp [Sync, h.1, h.2, h1, h2]

theorem Sync.agrees {s : Session} (h : Sync s.l.hist s.r.hist) : s.Agrees :=
  ⟨h.1 ▸ List.prefix_rfl, h.2 ▸ List.prefix_rfl⟩

theorem Settled.sync {k : Nat} {hl hr : List (Ev Role)} {t : Session} (h : Settled k k hl hr t)
    (hs : Sync hl hr) : Sync t.l.hist t.r.hist := by
  obtain ⟨evl, evr, h1, h2, hm⟩ := h
  rw [h1, h2]
  exact hs.append hm

theorem Sync.fifo_idle {C : ClientEnv} {E : ServerEnv} {k k' : Nat} {as : List UserAction}
    {cst : ClientState} {sst : FsOperator} {hl hr : List (Ev Role)} (h : Sync hl hr) :
    (idle C E k k' as cst sst hl hr).Fifo := by
  simp [Fifo, idle, h.1, h.2]

/-! ## Actions in step -/

/-- A session that nothing more is read in. -/
def AtEnd (t : Session) : Prop :=
  t.MutualWait ∨ t.l.done = true ∧ t.r.inp = [] ∨ t.r.done = true ∧ t.l.inp = []

theorem AtEnd.agrees {t : Session} (h : AtEnd t) (ha : t.Agrees) : t.AlwaysAgrees := by
  rcases h with hw | ⟨hd, hi⟩ | ⟨hd, hi⟩
  · exact agrees_of_stuck (stuck_of_mutualWait hw) ha
  · exact agrees_of_done_l hd hi ha
  · exact agrees_of_done_r hd hi ha

/-- How a session goes on with an action: to the next one, to an end, or for ever. -/
inductive GoesOn (C : ClientEnv) (E : ServerEnv) (k : Nat) (a : UserAction) (as : List UserAction)
    (cst : ClientState) (sst : FsOperator) (hl hr : List (Ev Role)) : Prop where
  | next (cst' : ClientState) (sst' : FsOperator) (evl evr : List (Ev Role)) (hm : Matched k k evl evr)
      (hh : Hears C.na.aead C.client_tx evl evr)
      (h : Reach (idle C E k k (a :: as) cst sst hl hr)
        (idle C E (k + 1) (k + 1) as cst' sst' (hl ++ evl) (hr ++ evr)))
  | ends (t : Session) (h : Reach (idle C E k k (a :: as) cst sst hl hr) t) (ht : AtEnd t)
      (hs : Settled k k hl hr t) (ha : Attended C hl hr t)
  | endless (h : ∀ n, ∃ i j u, n ≤ i ∧ n ≤ j ∧ Run i j (idle C E k k (a :: as) cst sst hl hr) u ∧
      Settled k k hl hr u ∧ Attended C hl hr u)

section
variable {C : ClientEnv} {E : ServerEnv} (hL : Linked C E)

include hL

theorem InStep.goesOn {a : UserAction} {cst : ClientState} {sst : FsOperator} (hI : InStep C E a cst sst)
    (as : List UserAction) (k : Nat) (hl hr : List (Ev Role)) : GoesOn C E k a as cst sst hl hr := by
  rcases hI.known with ha | ha | ha | ha | ha
  · obtain ⟨t, ht, hd, hi, hs, hh⟩ := end_confusion hL k k as cst sst hl hr ha
    exact .ends t ht (.inr (.inl ⟨hd, hi⟩)) hs hh
  · by_cases h4 : a.file_name.length < 4
    · obtain ⟨t, ht, hd, hi, hs, hh⟩ := end_threw hL k k as cst sst hl hr ha h4
      exact .ends t ht (.inr (.inl ⟨hd, hi⟩)) hs hh
    · obtain ⟨hshort, hgood⟩ := hI.read ha h4
      by_cases hn : (a.file_name ++ [0]).length ≤ PRE_EXT_FILE_NAME_LEN
      · cases ho : sst.fs.openRead E.cwd (E.user_dir ++ cstr a.file_name) with
        | none =>
          obtain ⟨t, ht, hw, -, -, hs, hh⟩ := waits_download hL k k as cst sst hl hr ha h4 hshort fun _ => ho
          exact .ends t ht (.inl hw) hs hh
        | some src =>
          obtain ⟨b, bad⟩ := src
          obtain ⟨hbad, hoom, hB⟩ := hgood hn _ ho
          obtain rfl : bad = false := hbad
          obtain ⟨cst', sst', evl, evr, _, _, _, _, -, -, -, -, hm, hh, h⟩ :=
            turn_download hL k k as cst sst hl hr ha h4 hn ho hoom hB
          exact .next cst' sst' evl evr hm hh h
      · obtain ⟨t, ht, hw, -, -, hs, hh⟩ := waits_download hL k k as cst sst hl hr ha h4 hshort
          fun hc => absurd hc hn
        exact .ends t ht (.inl hw) hs hh
  · cases ho : cst.fs.openRead C.cwd a.file_name with
    | none =>
      obtain ⟨cst', sst', evl, evr, -, -, hm, hh, h⟩ := turn_upload_missing hL k k as cst sst hl hr ha ho
      exact .next cst' sst' evl evr hm hh h
    | some src =>
      have hn := hI.write ha src ho
      obtain ⟨b, bad⟩ := src
      cases bad with
      | true =>
        obtain rfl := FS.openRead_bad ho
        exact .endless (streams_upload_taken hL k k as cst sst hl hr ha ho hn)
      | false =>
        obtain ⟨cst', sst', evl, evr, _, _, _, _, _, _, _, -, -, -, -, -, hm, hh, h⟩ :=
          turn_upload hL k k as cst sst hl hr ha ho hn
        exact .next cst' sst' evl evr hm hh h
  · cases ho : sst.fs.list E.cwd E.user_dir with
    | error er =>
      obtain ⟨t, ht, hd, hi, hs, hh⟩ := end_list hL k k as cst sst hl hr ha ho
      exact .ends t ht (.inr (.inr ⟨hd, hi⟩)) hs hh
    | ok ns =>
      obtain ⟨cst', sst', evl, evr, -, -, -, hm, hh, h⟩ :=
        turn_list hL k k as cst sst hl hr ha ho (hI.list ha ns ho)
      exact .next cst' sst' evl evr hm hh h
  · have hshort := hI.delete ha
    by_cases hn : (a.file_name ++ [0]).length ≤ PRE_EXT_FILE_NAME_LEN
    · cases ho : sst.fs.remove E.cwd (E.user_dir ++ cstr a.file_name) with
      | error er =>
        obtain ⟨t, ht, hd, hi, hs, hh⟩ := end_delete hL k k as cst sst hl hr ha hn ho
        exact .ends t ht (.inr (.inr ⟨hd, hi⟩)) hs hh
      | ok x =>
        obtain ⟨cst', sst', evl, evr, _, -, -, -, -, hm, hh, h⟩ :=
          turn_delete hL k k as cst sst hl hr ha hn ho
        exact .next cst' sst' evl evr hm hh h
    · obtain ⟨t, ht, hw, -, -, hs, hh⟩ := waits_delete hL k k as cst sst hl hr ha (by omega) hshort
      exact .ends t ht (.inl hw) hs hh

/-! ## Sessions -/

theorem idle_agrees (as : List UserAction) (k : Nat) (cst : ClientState) (sst : FsOperator)
    (hl hr : List (Ev Role)) (hS : Sync hl hr) (hA : AllInStep C E as (idle C E k k as cst sst hl hr)) :
    AlwaysAgrees (idle C E k k as cst sst hl hr) := by
  induction as generalizing k cst sst hl hr with
  | nil =>
    obtain ⟨cst', sst', evl, evr, -, -, hm, -, h⟩ := end_session hL k k cst sst hl hr
    exact agrees_of_run hS.fifo_idle h (agrees_of_done_r rfl rfl (hS.append hm).agrees)
  | cons a as ih =>
    have hI := hA k k a as cst sst hl hr (List.suffix_refl _) (Reach.refl _)
    cases hI.goesOn hL as k hl hr with
    | next cst' sst' evl evr hm _ h =>
      exact agrees_of_run hS.fifo_idle h
        (ih (k + 1) cst' sst' _ _ (hS.append hm) (hA.of_reach (List.suffix_cons a as) h))
    | ends t h ht hs _ => exact agrees_of_run hS.fifo_idle h (ht.agrees (hs.sync hS).agrees)
    | endless h =>
      refine agrees_of_unbounded hS.fifo_idle fun n => ?_
      obtain ⟨i, j, u, hi, hj, hu, hs, -⟩ := h n
      exact ⟨i, j, u, hi, hj, hu, (hs.sync hS).agrees⟩

/-- In a session whose actions are all in step, every byte is received in the
role it was sent in. -/
theorem roles_agree (first : UserAction) (more : List UserAction) (cst : ClientState) (sst : FsOperator)
    (hA : AllInStep C E (first :: more) (opening C E first more cst sst)) :
    AlwaysAgrees (opening C E first more cst sst) := by
  have hf : (opening C E first more cst sst).Fifo := ⟨Nat.le_refl 0, Nat.le_refl 0⟩
  cases hd : sst.fs.createDirectories E.cwd (splitSlash E.user_dir) with
  | error er =>
    exact agrees_of_run hf (opening_threw first more cst hd)
      (agrees_of_done_r rfl rfl ⟨List.prefix_rfl, List.prefix_rfl⟩)
  | ok fs =>
    obtain ⟨sst', -, h⟩ := opening_idle (C := C) first more cst hd
    exact agrees_of_run hf h (idle_agrees hL _ _ _ _ _ _ ⟨rfl, rfl⟩ (hA.of_reach (List.suffix_refl _) h))

end

/-- An upload, a delete and `CONFUSION`. -/
theorem alice_allInStep (s : Session) :
    AllInStep aliceClient aliceServer
      [⟨WRITE_TO_FILESYSTEM, [97]⟩, ⟨DELETE_FILE, [97] ++ ext⟩, ⟨CONFUSION, []⟩] s := by
  intro k k' b bs cst sst hl hr hb _
  have hmem := hb.subset List.mem_cons_self
  simp only [List.mem_cons, List.not_mem_nil, or_false] at hmem
  rcases hmem with rfl | rfl | rfl
  · exact ⟨.inr (.inr (.inl rfl)), fun h => absurd h (by decide), fun _ _ _ => by decide,
      fun h => absurd h (by decide), fun h => absurd h (by decide)⟩
  · exact ⟨.inr (.inr (.inr (.inr rfl))), fun h => absurd h (by decide), fun h => absurd h (by decide),
      fun h => absurd h (by decide), fun _ => by decide⟩
  · exact ⟨.inl rfl, fun h => absurd h (by decide), fun h => absurd h (by decide),
      fun h => absurd h (by decide), fun h => absurd h (by decide)⟩

theorem roles_agree_alice :
    AlwaysAgrees (opening aliceClient aliceServer ⟨WRITE_TO_FILESYSTEM, [97]⟩
      [⟨DELETE_FILE, [97] ++ ext⟩, ⟨CONFUSION, []⟩] aliceHome aliceDir) :=
  roles_agree alice_linked _ _ _ _ (alice_allInStep _)

/-- An intention the client does not know, and then no further action: the
server takes the last notice for an intent. -/
theorem shifts {C : ClientEnv} {E : ServerEnv} (hL : Linked C E) {a : UserAction}
    (hc : a.intention ≠ CONFUSION) (hk : ¬ ClientEnv.Known a.intention) (cst : ClientState)
    (sst : FsOperator) : ∃ t, Reach (idle C E 0 0 [a] cst sst [] []) t ∧ ¬ t.Agrees := by
  obtain ⟨cst1, x, n1, h1, -, -, hrun⟩ := ClientEnv.runs_announce (C := C) cst [] false [] 0
  let n2 := sodiumIncrement cst1.original_nonce
  let evs : List (Ev Role) := [.snd ⟨0, .notice⟩ (frame C.na.aead C.client_tx n1 (i32Enc NEW_ACTION)),
    .snd ⟨1, .notice⟩ (frame C.na.aead C.client_tx n2 (i32Enc NO_ACTION))]
  have hsend : Runs (C.announce 0 >>= fun _ => C.notifyServerOfAction 1 NO_ACTION) ⟨cst, [], false, [], []⟩ ()
      ⟨{ cst1 with original_nonce := n2 }, [], false, [] ++ evs, []⟩ :=
    Runs.bind hrun (ClientEnv.runs_sendSession cst1 [] false _ _ _)
  have hprog : C.actionsFrom 0 [a] = (C.announce 0 >>= fun _ => C.notifyServerOfAction 1 NO_ACTION) >>= fun _ =>
      pure (ClientEnd.returned 0) := by
    rw [actionsFrom_cons, ClientEnv.performAction_other hc hk, bind_assoc, bind_assoc]
    rfl
  have hask := Reach.runsL (fun _ => pure (ClientEnd.returned 0)) hsend
    (⟨loop E.serveRound 0, sst, [], []⟩ : Party FsOperator Role ServerEnv.Ended) rfl
  have h2 : n2.length = 8 := sodiumIncrement_length _
  have htake := takes_request hL 0 0 sst [] h1 h2 (v := NO_ACTION) (by decide) (by decide) (by decide) []
    (⟨pure (.returned 0), { cst1 with original_nonce := n2 }, [], [] ++ evs⟩ :
      Party ClientState Role ClientEnd)
  have hsent : sent (C.requestEvs 0 n1 n2 NO_ACTION ++ []) = sent evs := by
    simp [evs, sent, sent_requestEvs]
  rw [hsent] at htake
  refine ⟨_, Reach.trans (by unfold idle; rw [hprog]; exact hask) htake, ?_⟩
  rintro ⟨-, hpre⟩
  -- a byte read as an intent that was not sent as one
  have hread : (⟨0, .intent⟩ : Role) ∈ rtags ([] ++ E.requestRcvs 0 n1 n2 NO_ACTION) := by
    rw [List.nil_append, rtags_requestRcvs hL]
    simp [ClientEnv.requestEvs, stags, frame]
  have hmem := hpre.subset hread
  simp [evs, stags] at hmem

/-- The intention 7 and then nothing. -/
theorem unknown_intention_shifts :
    ∃ t, Reach (opening aliceClient aliceServer ⟨7, []⟩ [] aliceHome aliceDir) t ∧ ¬ t.Agrees := by
  have hd : aliceDir.fs.createDirectories aliceServer.cwd (splitSlash aliceServer.user_dir) =
      .ok aliceDir.fs := by rfl
  obtain ⟨sst, -, h⟩ := opening_idle (C := aliceClient) ⟨7, []⟩ [] aliceHome hd
  obtain ⟨t, ht, hn⟩ := shifts (a := ⟨7, []⟩) alice_linked (by decide) (by unfold ClientEnv.Known; decide)
    aliceHome sst
  exact ⟨t, h.trans ht, hn⟩

end Mefsc.L4
