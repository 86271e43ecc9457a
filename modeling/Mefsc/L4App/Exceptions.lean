import Mefsc.Core.Way
import Mefsc.L4App.Ends

/-!
# Exceptions that leave `handle_conn`

`create_directories`, `remove` and `directory_iterator` are called in the forms
that throw, and nothing between them and `worker` catches: one exception ends the
server for every client.

A session starts with its directory in place. Uploads and downloads leave
directories alone (`moves_files`); a delete may take one away, since nothing
checks that the name denotes a file, and from then on a list throws
(`round_open`). `no_exception_iff` says exactly which requests do it.
-/
namespace Mefsc.L4

open L1 L1.SessionEncWrapper L2 L3
open Proc hiding ret recv send act iter bind

/-! ## What is left of the way to the user's directory -/

/-- The user's directory and the ones above it are there. -/
def HomeOpen (E : ServerEnv) (fs : FS) : Prop := fs.Open E.cwd (splitSlash E.user_dir)

/-- From one state to the next the way stays as it is. -/
def SameWay (E : ServerEnv) (s t : FsOperator) : Prop := HomeOpen E t.fs ↔ HomeOpen E s.fs

section
variable {E : ServerEnv} {act : Nat} {w w' : World FsOperator Role} {fails : Nat → Option Nat}

theorem SameWay.refl (s : FsOperator) : SameWay E s s := Iff.rfl

theorem SameWay.trans {s t u : FsOperator} (h1 : SameWay E s t) (h2 : SameWay E t u) : SameWay E s u :=
  Iff.trans h2 h1

theorem sameWay_opened (n : Bytes) (s : FsOperator) : SameWay E s (E.opened n s) := by
  unfold SameWay ServerEnv.opened
  split
  · exact Iff.rfl
  · rename_i hs
    exact FS.open_openTrunc hs

theorem sameWay_written (b : Bytes) (s : FsOperator) : SameWay E s (ServerEnv.written b s) := by
  unfold SameWay ServerEnv.written
  split
  · exact Iff.rfl
  · exact FS.open_append b

/-- Everything but `remove` and `create_directories`. -/
theorem moves_files : ServerEnv.Files E (E.openInOn fails) (fun {_} p => Moves (SameWay E) p) where
  toClosed := closed_moves SameWay.refl SameWay.trans
  frame _ hf := moves_modifyGet fun s => by
    unfold SameWay
    rw [(hf s).1]
  loop hb := Moves.loop SameWay.refl SameWay.trans hb
  openOut n := moves_modifyGet fun s => sameWay_opened n s
  writeOut b := moves_modifyGet fun s => sameWay_written b s
  openIn _ := moves_modifyGet fun _ => Iff.rfl
  listDir := moves_modifyGet fun _ => Iff.rfl

/-! ## Delete -/

/-- Up to the name. -/
def takeDeleted (E : ServerEnv) (act : Nat) : Server SessionEncWrapper := do
  E.freshNonce
  ofSock ⟨act, .fileName⟩

/-- What the name frame holds. -/
def deletedName (E : ServerEnv) (wrap : SessionEncWrapper) : Unwrapped :=
  wrap.unwrap E.na.aead E.server_rx PRE_EXT_FILE_NAME_LEN (List.replicate MAX_FILE_NAME_LENGTH 0) 0

/-- It can be read. -/
def Named (E : ServerEnv) (wrap : SessionEncWrapper) : Prop :=
  wrap.corrupted = false ∧ (deletedName E wrap).ret = 0

/-- The string behind `user_dir`. -/
def deletedPath (E : ServerEnv) (wrap : SessionEncWrapper) : Bytes :=
  E.user_dir ++ cstr (deletedName E wrap).decrypted_data

/-- The answer to a delete. -/
def answerDeleted (E : ServerEnv) (act : Nat) (removed : Bool) : Server (Except Errno Int) := do
  E.freshNonce
  E.sendSession ⟨act, .deleteResult⟩ (i32Enc (if removed then ACK_SUC else ACK_FAIL))
  return .ok 0

/-- Behind the name. -/
def deleteNamed (E : ServerEnv) (act : Nat) (wrap : SessionEncWrapper) : Server (Except Errno Int) := do
  if wrap.corrupted then return .ok 2
  else if (deletedName E wrap).ret ≠ 0 then return .ok 1
  else
    match ← E.removeFile (cstr (deletedName E wrap).decrypted_data) with
    | .error e => return .error e
    | .ok removed => answerDeleted E act removed

theorem dffsHandlerServer_eq : E.dffsHandlerServer act = takeDeleted E act >>= deleteNamed E act := by
  rw [takeDeleted, LawfulMonad.bind_assoc]
  rfl

theorem takeDeleted_fs {wrap : SessionEncWrapper} (h : Runs (takeDeleted E act) w wrap w') :
    w'.st.fs = w.st.fs :=
  ServerEnv.moves_parts.bind ServerEnv.moves_parts.freshNonce
    (fun _ => closed_ofSock ServerEnv.moves_parts.toClosed _) w wrap w' h

theorem Asks.fs {intent : Int} (h : E.Asks act intent w w') : w'.st.fs = w.st.fs := by
  obtain ⟨-, w1, h1, h2⟩ := h
  exact (ServerEnv.moves_parts.readIntent act w1 _ w' h2).trans
    (ServerEnv.moves_parts.receiveNoticeOfNewAction act w _ w1 h1)

theorem answerDeleted_fs {b : Bool} {y : Except Errno Int} (h : Runs (answerDeleted E act b) w y w') :
    y = .ok 0 ∧ w'.st.fs = w.st.fs := by
  unfold answerDeleted at h
  obtain ⟨_, w1, h1, h⟩ := (runs_bind _ _ _ _ _).mp h
  obtain ⟨_, w2, h2, h⟩ := (runs_bind _ _ _ _ _).mp h
  obtain ⟨rfl, rfl⟩ := (runs_pure _ _ _ _).mp h
  exact ⟨rfl, (ServerEnv.moves_parts.sendSession _ _ w1 _ _ h2).trans (ServerEnv.moves_parts.freshNonce w _ w1 h1)⟩

theorem runs_removeFile {n : Bytes} {x : Except Errno Bool} (h : Runs (E.removeFile n) w x w') :
    (∃ e, w.st.fs.remove E.cwd (E.user_dir ++ n) = .error e ∧ x = .error e) ∨
    ∃ b, w.st.fs.remove E.cwd (E.user_dir ++ n) = .ok (b, w'.st.fs) ∧ x = .ok b := by
  obtain ⟨hx, hw⟩ := (runs_modifyGet _ _ _ _).mp h
  cases hr : w.st.fs.remove E.cwd (E.user_dir ++ n) with
  | error e =>
    rw [hr] at hx
    exact .inl ⟨e, rfl, hx⟩
  | ok r =>
    rw [hr] at hx hw
    exact .inr ⟨r.1, by rw [hw], hx⟩

/-- What the delete handler does behind the name. -/
theorem deleteNamed_cases {wrap : SessionEncWrapper} {y : Except Errno Int}
    (h : Runs (deleteNamed E act wrap) w y w') :
    (¬ Named E wrap ∧ (∃ r, y = .ok r) ∧ w'.st.fs = w.st.fs) ∨
    (Named E wrap ∧ ∃ e, w.st.fs.remove E.cwd (deletedPath E wrap) = .error e ∧ y = .error e) ∨
    (Named E wrap ∧ ∃ b, w.st.fs.remove E.cwd (deletedPath E wrap) = .ok (b, w'.st.fs) ∧ y = .ok 0) := by
  unfold deleteNamed at h
  by_cases hc : wrap.corrupted = true
  · simp only [hc, if_true, runs_pure] at h
    exact .inl ⟨fun hn => by simp [hn.1] at hc, ⟨2, h.1⟩, by rw [h.2]⟩
  by_cases hu : (deletedName E wrap).ret = 0
  · have hn : Named E wrap := ⟨by simpa using hc, hu⟩
    simp only [hc, hu, ne_eq, not_true_eq_false, if_false, Bool.false_eq_true, runs_bind] at h
    obtain ⟨x, w1, h1, h2⟩ := h
    rcases runs_removeFile h1 with ⟨e, hr, rfl⟩ | ⟨b, hr, rfl⟩
    · obtain ⟨rfl, rfl⟩ := (runs_pure _ _ _ _).mp h2
      exact .inr (.inl ⟨hn, e, hr, rfl⟩)
    · obtain ⟨rfl, hfs⟩ := answerDeleted_fs h2
      exact .inr (.inr ⟨hn, b, by rw [hfs]; exact hr, rfl⟩)
  · simp only [hc, hu, ne_eq, not_false_eq_true, if_true, if_false, Bool.false_eq_true, runs_pure] at h
    exact .inl ⟨fun hn => hu hn.2, ⟨1, h.1⟩, by rw [h.2]⟩

theorem deleteNamed_throws (act : Nat) {wrap : SessionEncWrapper} {e : Errno} (hn : Named E wrap)
    (hr : w.st.fs.remove E.cwd (deletedPath E wrap) = .error e) :
    ∃ w', Runs (deleteNamed E act wrap) w (.error e) w' := by
  obtain ⟨hc, hu⟩ := hn
  let n := cstr (deletedName E wrap).decrypted_data
  have hrun : Runs (E.removeFile n) w (.error e) { w with st := { w.st with names := w.st.names ++ [n] } } := by
    unfold deletedPath at hr
    exact (runs_modifyGet _ _ _ _).mpr ⟨by rw [hr], by rw [hr]⟩
  unfold deleteNamed
  simp only [hc, hu, ne_eq, not_true_eq_false, if_false, Bool.false_eq_true]
  exact ⟨_, hrun.bind ((runs_pure _ _ _ _).mpr ⟨rfl, rfl⟩)⟩

/-! ## Requests -/

/-- The round asks to delete what `s` denotes. -/
def Deletes (E : ServerEnv) (act : Nat) (w : World FsOperator Role) (s : Bytes) : Prop :=
  ∃ w1 wrap w2, E.Asks act DELETE_FILE w w1 ∧ Runs (takeDeleted E act) w1 wrap w2 ∧ Named E wrap ∧
    s = deletedPath E wrap

/-- That is a directory on the way to the user's own, or this one. -/
def Unlinks (E : ServerEnv) (act : Nat) (w : World FsOperator Role) : Prop :=
  ∃ s p, Deletes E act w s ∧ w.st.fs.walk E.cwd (splitSlash s) = .ok p ∧
    FS.OnWay E.cwd (splitSlash E.user_dir) p

theorem Deletes.unique {s t : Bytes} (h1 : Deletes E act w s) (h2 : Deletes E act w t) : s = t := by
  obtain ⟨w1, wrap, w2, ha, ht, -, rfl⟩ := h1
  obtain ⟨w1', wrap', w2', ha', ht', -, rfl⟩ := h2
  obtain ⟨-, rfl⟩ := ha.unique ha'
  obtain ⟨rfl, -⟩ := ht.unique ht'
  rfl

/-- The round asks for the names. -/
def Lists (E : ServerEnv) (act : Nat) (w : World FsOperator Role) : Prop := ∃ w1, E.Asks act LIST_FILES w w1

/-- Both passes see the same files. -/
theorem lffs_error_iff {e : Errno} :
    (∃ w', Runs (E.lffsHandlerServer act) w (.error e) w') ↔ w.st.fs.list E.cwd E.user_dir = .error e := by
  have hlist : ∀ v : World FsOperator Role, Runs E.listDir v (v.st.fs.list E.cwd E.user_dir) v :=
    fun v => (runs_read _ _ _ _).mpr ⟨rfl, rfl⟩
  unfold ServerEnv.lffsHandlerServer
  constructor
  · rintro ⟨w', h⟩
    obtain ⟨x, w1, h1, h⟩ := (runs_bind _ _ _ _ _).mp h
    obtain ⟨rfl, rfl⟩ := (hlist w).unique h1
    cases hl : w.st.fs.list E.cwd E.user_dir with
    | error e' =>
      rw [hl] at h
      obtain ⟨he, -⟩ := (runs_pure _ _ _ _).mp h
      cases he
      rfl
    | ok entries =>
      rw [hl] at h
      obtain ⟨_, w2, h2, h⟩ := (runs_bind _ _ _ _ _).mp h
      obtain ⟨_, w3, h3, h⟩ := (runs_bind _ _ _ _ _).mp h
      obtain ⟨x, w4, h4, h⟩ := (runs_bind _ _ _ _ _).mp h
      obtain ⟨rfl, rfl⟩ := (hlist w3).unique h4
      have hfs := (ServerEnv.moves_parts.sendSession _ _ w2 _ w3 h3).trans (ServerEnv.moves_parts.freshNonce w _ w2 h2)
      rw [hfs, hl] at h
      obtain ⟨_, w5, -, h⟩ := (runs_bind _ _ _ _ _).mp h
      obtain ⟨he, -⟩ := (runs_pure _ _ _ _).mp h
      cases he
  · intro hl
    have h1 := hlist w
    rw [hl] at h1
    exact ⟨w, h1.bind ((runs_pure _ _ _ _).mpr ⟨rfl, rfl⟩)⟩

theorem runs_dispatch_list {y : Except Errno Unit} :
    Runs (E.dispatchVia (E.openInOn fails) act LIST_FILES) w y w' ↔
      ∃ x, Runs (E.lffsHandlerServer act) w x w' ∧ y = x.map fun _ => () := by
  have hd : E.dispatchVia (E.openInOn fails) act LIST_FILES =
      E.lffsHandlerServer act >>= fun x => pure (x.map fun _ => ()) := rfl
  rw [hd, runs_bind]
  constructor
  · rintro ⟨x, w1, h1, h2⟩
    obtain ⟨rfl, rfl⟩ := (runs_pure _ _ _ _).mp h2
    exact ⟨x, h1, rfl⟩
  · rintro ⟨x, h1, rfl⟩
    exact ⟨x, w', h1, (runs_pure _ _ _ _).mpr ⟨rfl, rfl⟩⟩

theorem runs_dispatch_delete {y : Except Errno Unit} :
    Runs (E.dispatchVia (E.openInOn fails) act DELETE_FILE) w y w' ↔
      ∃ wrap w1 x, Runs (takeDeleted E act) w wrap w1 ∧ Runs (deleteNamed E act wrap) w1 x w' ∧
        y = x.map fun _ => () := by
  have hd : E.dispatchVia (E.openInOn fails) act DELETE_FILE =
      E.dffsHandlerServer act >>= fun x => pure (x.map fun _ => ()) := rfl
  rw [hd, dffsHandlerServer_eq, LawfulMonad.bind_assoc, runs_bind]
  constructor
  · rintro ⟨wrap, w1, h1, h2⟩
    obtain ⟨x, w2, h2, h3⟩ := (runs_bind _ _ _ _ _).mp h2
    obtain ⟨rfl, rfl⟩ := (runs_pure _ _ _ _).mp h3
    exact ⟨wrap, w1, x, h1, h2, rfl⟩
  · rintro ⟨wrap, w1, x, h1, h2, rfl⟩
    exact ⟨wrap, w1, h1, h2.bind ((runs_pure _ _ _ _).mpr ⟨rfl, rfl⟩)⟩

/-- The other requests do not throw and leave the directories alone. -/
theorem dispatch_other {intent : Int} {y : Except Errno Unit} (hl : intent ≠ LIST_FILES)
    (hd : intent ≠ DELETE_FILE) (h : Runs (E.dispatchVia (E.openInOn fails) act intent) w y w') :
    y = .ok () ∧ SameWay E w.st w'.st := by
  unfold ServerEnv.dispatchVia at h
  simp only [hl, hd, if_false] at h
  have hP : ServerEnv.Files E (E.openInOn fails) _ := moves_files
  split at h
  · obtain ⟨r, w1, h1, h2⟩ := (runs_bind _ _ _ _ _).mp h
    obtain ⟨rfl, rfl⟩ := (runs_pure _ _ _ _).mp h2
    exact ⟨rfl, hP.rffsVia act w r _ h1⟩
  split at h
  · obtain ⟨r, w1, h1, h2⟩ := (runs_bind _ _ _ _ _).mp h
    obtain ⟨rfl, rfl⟩ := (runs_pure _ _ _ _).mp h2
    exact ⟨rfl, hP.wtfsHandlerServer act w r _ h1⟩
  · obtain ⟨rfl, rfl⟩ := (runs_pure _ _ _ _).mp h
    exact ⟨rfl, SameWay.refl _⟩

/-! ## Rounds -/

/-- A delete that went through. -/
theorem delete_open {wrap : SessionEncWrapper} {w1 w2 : World FsOperator Role} {b : Bool}
    (ha : E.Asks act DELETE_FILE w w1) (ht : Runs (takeDeleted E act) w1 wrap w2) (hn : Named E wrap)
    (hr : w.st.fs.remove E.cwd (deletedPath E wrap) = .ok (b, w'.st.fs)) :
    HomeOpen E w'.st.fs ↔ HomeOpen E w.st.fs ∧ ¬ Unlinks E act w := by
  have hs : Deletes E act w (deletedPath E wrap) := ⟨w1, wrap, w2, ha, ht, hn, rfl⟩
  rcases FS.remove_cases hr with ⟨hfs, -, hnone⟩ | ⟨p, hp, hne, -, hfs⟩
  · rw [hfs]
    refine ⟨fun ho => ⟨ho, ?_⟩, fun h => h.1⟩
    rintro ⟨s, q, hq, hwalk, hway⟩
    rw [hq.unique hs] at hwalk
    have hdir := ho q hway
    rw [hnone q hwalk] at hdir
    cases hdir
  · unfold HomeOpen
    rw [hfs, FS.open_erase hne]
    refine and_congr_right fun _ => not_congr ⟨fun hway => ⟨_, p, hs, hp, hway⟩, ?_⟩
    rintro ⟨s, q, hq, hwalk, hway⟩
    rw [hq.unique hs, hp] at hwalk
    cases hwalk
    exact hway

/-- What a round leaves of the way. -/
theorem round_open {act' : Nat} (h : Runs (E.serveRoundVia (E.openInOn fails) act) w (.inl act') w') :
    HomeOpen E w'.st.fs ↔ HomeOpen E w.st.fs ∧ ¬ Unlinks E act w := by
  have hparts : SameWay E w.st w'.st → ¬ Unlinks E act w →
      (HomeOpen E w'.st.fs ↔ HomeOpen E w.st.fs ∧ ¬ Unlinks E act w) := by
    intro hsame hnot
    exact ⟨fun ho => ⟨hsame.mp ho, hnot⟩, fun ho => hsame.mpr ho.1⟩
  have hkeep : w'.st.fs = w.st.fs → SameWay E w.st w'.st := by
    intro hfs
    unfold SameWay
    rw [hfs]
  rcases ServerEnv.runs_serveRoundVia.mp h with ⟨r, -, -, hx⟩ | ⟨w1, h1, h2, -⟩ | ⟨intent, w1, y, ha, hd, hx⟩
  · cases hx
  · -- no intent was read
    refine hparts (hkeep ?_) ?_
    · exact (ServerEnv.moves_parts.readIntent act w1 _ w' h2).trans
        (ServerEnv.moves_parts.receiveNoticeOfNewAction act w _ w1 h1)
    · rintro ⟨s, p, ⟨v, wrap, v2, ⟨hne, v1, hv1, hv⟩, -⟩, -⟩
      obtain ⟨-, rfl⟩ := h1.unique hv1
      exact hne (hv.unique h2).1
  · have hfs := Asks.fs ha
    by_cases hdel : intent = DELETE_FILE
    · subst hdel
      obtain ⟨wrap, w2, x, ht, hrun, rfl⟩ := runs_dispatch_delete.mp hd
      have hfs2 := (takeDeleted_fs ht).trans hfs
      rcases deleteNamed_cases hrun with ⟨hn, -, hsame⟩ | ⟨-, e, -, rfl⟩ | ⟨hn, b, hr, -⟩
      · refine hparts (hkeep (hsame.trans hfs2)) ?_
        rintro ⟨s, p, ⟨v, wrap', v2, hv, hv2, hn', -⟩, -⟩
        obtain ⟨-, rfl⟩ := ha.unique hv
        obtain ⟨rfl, -⟩ := ht.unique hv2
        exact hn hn'
      · cases hx
      · rw [hfs2] at hr
        exact delete_open ha ht hn hr
    · have hnot : ¬ Unlinks E act w := by
        rintro ⟨s, p, ⟨v, wrap, v2, hv, -⟩, -⟩
        exact hdel (ha.unique hv).1
      have hsame : SameWay E w1.st w'.st := by
        by_cases hl : intent = LIST_FILES
        · subst hl
          obtain ⟨x, hx, -⟩ := runs_dispatch_list.mp hd
          have hP : ServerEnv.Files E (E.openInOn fails) _ := moves_files
          exact hP.lffsHandlerServer hP.listDir act w1 x w' hx
        · exact (dispatch_other hl hdel hd).2
      refine hparts ?_ hnot
      unfold SameWay at hsame ⊢
      rwa [hfs] at hsame

/-- Exactly when a round throws. -/
theorem round_throws_iff :
    (∃ e w', Runs (E.serveRoundVia (E.openInOn fails) act) w (.inr (.threw e)) w') ↔
      (∃ s, Deletes E act w s ∧ ¬ w.st.fs.Removable E.cwd s) ∨
      (Lists E act w ∧ ¬ ∃ ns, w.st.fs.list E.cwd E.user_dir = .ok ns) := by
  constructor
  · rintro ⟨e, w', h⟩
    rcases ServerEnv.runs_serveRoundVia.mp h with ⟨r, -, -, hx⟩ | ⟨w1, -, -, hx⟩ | ⟨intent, w1, y, ha, hd, hx⟩
    · cases hx
    · cases hx
    · have hfs := Asks.fs ha
      have hy : y = .error e := by
        cases y with
        | error e' =>
          cases hx
          rfl
        | ok u => cases hx
      subst hy
      by_cases hdel : intent = DELETE_FILE
      · subst hdel
        obtain ⟨wrap, w2, x, ht, hrun, hmap⟩ := runs_dispatch_delete.mp hd
        have hfs2 := (takeDeleted_fs ht).trans hfs
        rcases deleteNamed_cases hrun with ⟨-, ⟨r, rfl⟩, -⟩ | ⟨hn, e', hr, -⟩ | ⟨-, b, -, rfl⟩
        · cases hmap
        · refine .inl ⟨_, ⟨w1, wrap, w2, ha, ht, hn, rfl⟩, ?_⟩
          rw [← FS.remove_ok_iff, ← hfs2, hr]
          simp
        · cases hmap
      · by_cases hl : intent = LIST_FILES
        · subst hl
          obtain ⟨x, hrun, hmap⟩ := runs_dispatch_list.mp hd
          cases x with
          | ok r => cases hmap
          | error e' =>
            refine .inr ⟨⟨w1, ha⟩, ?_⟩
            rw [← hfs, lffs_error_iff.mp ⟨w', hrun⟩]
            simp
        · cases (dispatch_other hl hdel hd).1
  · rintro (⟨s, ⟨w1, wrap, w2, ha, ht, hn, rfl⟩, hrem⟩ | ⟨⟨w1, ha⟩, hlist⟩)
    · have hfs2 := (takeDeleted_fs ht).trans (Asks.fs ha)
      rw [← FS.remove_ok_iff, ← hfs2] at hrem
      cases hr : w2.st.fs.remove E.cwd (deletedPath E wrap) with
      | ok r => exact absurd ⟨r, hr⟩ hrem
      | error e =>
        obtain ⟨w', hw'⟩ := deleteNamed_throws act hn hr
        exact ⟨e, w', ha.runs_round.mpr ⟨_, runs_dispatch_delete.mpr ⟨wrap, w2, _, ht, hw', rfl⟩, rfl⟩⟩
    · rw [← Asks.fs ha] at hlist
      cases hl : w1.st.fs.list E.cwd E.user_dir with
      | ok ns => exact absurd ⟨ns, hl⟩ hlist
      | error e =>
        obtain ⟨w', hw'⟩ := lffs_error_iff.mpr hl
        exact ⟨e, w', ha.runs_round.mpr ⟨_, runs_dispatch_list.mpr ⟨_, hw', rfl⟩, rfl⟩⟩

/-! ## Sessions -/

/-- What some rounds leave of the way. -/
theorem rounds_open {v : World FsOperator Role}
    (h : Rounds (E.serveRoundVia (E.openInOn fails)) 0 v act w) :
    HomeOpen E w.st.fs ↔ HomeOpen E v.st.fs ∧ ∀ i u,
      Rounds (E.serveRoundVia (E.openInOn fails)) 0 v i u → i < act → ¬ Unlinks E i u := by
  induction h with
  | refl =>
    refine ⟨fun ho => ⟨ho, fun i u _ hlt => ?_⟩, fun ho => ho.1⟩
    omega
  | snoc h hr ih =>
    rename_i g1 g2 w1 w2
    have hn := ServerEnv.runs_serveRoundVia_next hr
    rw [round_open hr, ih]
    constructor
    · rintro ⟨⟨ho, hall⟩, hnot⟩
      refine ⟨ho, fun i u hu hlt => ?_⟩
      by_cases hi : i = g1
      · rwa [hu.unique (fun _ _ _ _ => ServerEnv.runs_serveRoundVia_next) h hi, hi]
      · exact hall i u hu (by omega)
    · rintro ⟨ho, hall⟩
      exact ⟨⟨ho, fun i u hu hlt => hall i u hu (by omega)⟩, hall g1 w1 h (by omega)⟩

/-- The rounds of a session that do not throw: a delete of something that can be
removed, and a list with the directory still there. -/
def Tame (E : ServerEnv) (fails : Nat → Option Nat) (v : World FsOperator Role) : Prop :=
  v.st.fs.Makeable E.cwd (splitSlash E.user_dir) ∧
  ∀ act w, E.Serves (E.openInOn fails) v act w →
    (∀ s, Deletes E act w s → w.st.fs.Removable E.cwd s) ∧
    (Lists E act w → ∀ i u, E.Serves (E.openInOn fails) v i u → i < act → ¬ Unlinks E i u)

theorem runs_makeUserDir_ok {v : World FsOperator Role} (h : Runs E.makeUserDir v (.ok ()) w) :
    v.st.fs.createDirectories E.cwd (splitSlash E.user_dir) = .ok w.st.fs := by
  obtain ⟨hx, hw⟩ := (runs_modifyGet _ _ _ _).mp h
  cases hm : v.st.fs.createDirectories E.cwd (splitSlash E.user_dir) with
  | error e => simp [hm] at hx
  | ok fs =>
    rw [hm] at hw
    rw [hw]

/-- The directory is there in a round unless a delete has taken it away. -/
theorem serves_open {v : World FsOperator Role} (hcwd : v.st.fs.node E.cwd = some .dir)
    (h : E.Serves (E.openInOn fails) v act w) :
    HomeOpen E w.st.fs ↔ ∀ i u, E.Serves (E.openInOn fails) v i u → i < act → ¬ Unlinks E i u := by
  obtain ⟨w1, w2, h1, h2, hr⟩ := h
  have hopen : HomeOpen E w2.st.fs := by
    have hfs := ServerEnv.moves_parts.freshNonce w1 _ w2 h2
    unfold HomeOpen
    rw [hfs]
    exact FS.createDirectories_open (runs_makeUserDir_ok h1) hcwd
  rw [rounds_open hr]
  constructor
  · rintro ⟨-, hall⟩ i u ⟨u1, u2, hu1, hu2, hu⟩ hlt
    obtain ⟨-, rfl⟩ := h1.unique hu1
    obtain ⟨-, rfl⟩ := h2.unique hu2
    exact hall i u hu hlt
  · intro hall
    exact ⟨hopen, fun i u hu hlt => hall i u ⟨w1, w2, h1, h2, hu⟩ hlt⟩

theorem makeable_short {fs : FS} {p : Path} {cs : List Name} (h : fs.Makeable p cs) :
    ∀ c ∈ cs, c.length ≤ NAME_MAX := by
  intro c hc
  obtain ⟨ds, es, rfl⟩ := List.append_of_mem hc
  exact (h ds c ⟨es, by simp⟩).1

theorem session_tame_iff {v : World FsOperator Role} (hcwd : v.st.fs.node E.cwd = some .dir) :
    (∀ e w', ¬ Runs (E.sessionVia (E.openInOn fails)) v (.threw e) w') ↔ Tame E fails v := by
  constructor
  · intro hno
    have hmake : v.st.fs.Makeable E.cwd (splitSlash E.user_dir) := by
      rw [← FS.createDirectories_ok_iff]
      cases hm : v.st.fs.createDirectories E.cwd (splitSlash E.user_dir) with
      | ok fs => exact ⟨fs, rfl⟩
      | error e =>
        have hrun : Runs E.makeUserDir v (.error e) v := by
          refine (runs_modifyGet _ _ _ _).mpr ?_
          rw [hm]
          exact ⟨rfl, rfl⟩
        exact (hno e v (hrun.bind ((runs_pure _ _ _ _).mpr ⟨rfl, rfl⟩))).elim
    have hround : ∀ act w, E.Serves (E.openInOn fails) v act w →
        ¬ ∃ e w', Runs (E.serveRoundVia (E.openInOn fails) act) w (.inr (.threw e)) w' := by
      rintro act w ⟨w1, w2, h1, h2, hr⟩ ⟨e, w', hw'⟩
      exact hno e w' (h1.bind (h2.bind (hr.runs hw')))
    refine ⟨hmake, fun act w hs => ⟨fun s hd => ?_, fun hl => ?_⟩⟩
    · by_contra hrem
      exact hround act w hs (round_throws_iff.mpr (.inl ⟨s, hd, hrem⟩))
    · have hlist : ∃ ns, w.st.fs.list E.cwd E.user_dir = .ok ns := by
        by_contra hlist
        exact hround act w hs (round_throws_iff.mpr (.inr ⟨hl, hlist⟩))
      exact (serves_open hcwd hs).mp (FS.list_ok_iff.mp hlist).2
  · rintro ⟨hmake, hall⟩ e w' hrun
    obtain ⟨x, w1, h1, hrun⟩ := (runs_bind _ _ _ _ _).mp hrun
    cases x with
    | error e' =>
      obtain ⟨fs, hfs⟩ := FS.createDirectories_ok_iff.mpr hmake
      obtain ⟨hx, -⟩ := (runs_modifyGet _ _ _ _).mp h1
      rw [hfs] at hx
      cases hx
    | ok u =>
      obtain ⟨_, w2, h2, hrun⟩ := (runs_bind _ _ _ _ _).mp hrun
      obtain ⟨act, w, hr, hlast⟩ := Runs.last_round hrun
      have hs : E.Serves (E.openInOn fails) v act w := ⟨w1, w2, h1, h2, hr⟩
      rcases round_throws_iff.mp ⟨e, w', hlast⟩ with ⟨s, hd, hrem⟩ | ⟨hl, hlist⟩
      · exact hrem ((hall act w hs).1 s hd)
      · have hopen := (serves_open hcwd hs).mpr ((hall act w hs).2 hl)
        exact hlist (FS.list_ok_iff.mpr ⟨makeable_short hmake, hopen⟩)

end

/-! ## Connections -/

section
variable {S : ServerHost} {w w1 : World WorkerState ConnRole}

/-- The login leaves the files alone. -/
theorem logIn_op {x : ConnEnd ⊕ LoggedIn} (h : Runs S.logIn w x w1) : w1.st.op = w.st.op := by
  have hP : Closed (fun {_} (p : Proc WorkerState ConnRole _) =>
      Moves (fun s t : WorkerState => t.op = s.op) p) := closed_moves (fun _ => rfl) fun h1 h2 => h2.trans h1
  have hzoom : ∀ {β : Type} (p : Proc CredLocals Credential β),
      Moves (fun s t : WorkerState => t.op = s.op) (zoom credsPart ConnRole.credential p) := by
    intro β p v a v' hv
    obtain ⟨u, -, rfl⟩ := runs_zoom.mp hv
    rfl
  have hall : Moves (fun s t : WorkerState => t.op = s.op) S.logIn := by
    refine hP.bind ?_ fun x => ?_
    · refine hP.bind (hP.sendB _ _) fun _ => ?_
      refine hP.bind (hP.recvN _ _) fun o => ?_
      cases o with
      | none => exact hP.pure _
      | some client_pk =>
        dsimp only
        cases S.server_session_keys client_pk <;> exact hP.pure _
    · cases x with
      | error e => exact hP.pure _
      | ok keys =>
        refine hP.bind (hzoom _) fun x => ?_
        dsimp only
        split
        · exact hP.bind (hP.sendB _ _) fun _ => hP.pure _
        · exact hP.bind (hP.sendB _ _) fun _ => hP.pure _
  exact hall w x w1 h

/-- It ends in one of two ways. -/
theorem logIn_inl {c : ConnEnd} (h : Runs S.logIn w (.inl c) w1) : c = .keyExchange ∨ c = .refused := by
  obtain ⟨x, v, -, h⟩ := (runs_bind _ _ _ _ _).mp h
  cases x with
  | error e =>
    obtain ⟨he, -⟩ := (runs_pure _ _ _ _).mp h
    exact .inl (Sum.inl.inj he)
  | ok keys =>
    obtain ⟨x, v1, -, h⟩ := (runs_bind _ _ _ _ _).mp h
    dsimp only at h
    split at h
    · obtain ⟨o, v2, -, h⟩ := (runs_bind _ _ _ _ _).mp h
      obtain ⟨he, -⟩ := (runs_pure _ _ _ _).mp h
      exact .inr (Sum.inl.inj he)
    · obtain ⟨o, v2, -, h⟩ := (runs_bind _ _ _ _ _).mp h
      obtain ⟨he, -⟩ := (runs_pure _ _ _ _).mp h
      cases he

theorem runs_handleConn_threw {e : Errno} {w' : World WorkerState ConnRole} :
    Runs S.handleConn w (.threw e) w' ↔ ∃ l w1 v, Runs S.logIn w (.inr l) w1 ∧
      Runs ((S.env l).sessionVia ((S.env l).openInOn S.fails)) (w1.part opPart Role) (.threw e) v ∧
      w' = v.within opPart .session w1.st w1.hist := by
  unfold ServerHost.handleConn
  rw [runs_bind]
  constructor
  · rintro ⟨x, w1, h1, h2⟩
    cases x with
    | inl c =>
      obtain ⟨rfl, -⟩ := (runs_pure _ _ _ _).mp h2
      rcases logIn_inl h1 with hc | hc <;> cases hc
    | inr l =>
      obtain ⟨en, w2, h3, h4⟩ := (runs_bind _ _ _ _ _).mp h2
      obtain ⟨he, rfl⟩ := (runs_pure _ _ _ _).mp h4
      obtain ⟨v, hv, rfl⟩ := runs_zoom.mp h3
      cases en with
      | closed => cases he
      | threw e' =>
        cases he
        exact ⟨l, w1, v, h1, hv, rfl⟩
  · rintro ⟨l, w1, v, h1, hv, rfl⟩
    refine ⟨_, w1, h1, ?_⟩
    exact Runs.bind (runs_zoom.mpr ⟨v, hv, rfl⟩) ((runs_pure _ _ _ _).mpr ⟨rfl, rfl⟩)

end

/-- No exception leaves `handle_conn`, whatever its client sends and whatever
its sends do, exactly when no session on it deletes what cannot be removed or
lists the directory it has deleted. -/
theorem no_exception_iff (S : ServerHost) {w : World WorkerState ConnRole}
    (hcwd : w.st.op.fs.node S.cwd = some .dir) :
    (∀ e w', ¬ Runs S.handleConn w (.threw e) w') ↔
      ∀ l w1, Runs S.logIn w (.inr l) w1 → Tame (S.env l) S.fails (w1.part opPart Role) := by
  have hdir : ∀ {l w1}, Runs S.logIn w (.inr l) w1 →
      (w1.part opPart Role).st.fs.node (S.env l).cwd = some .dir := by
    intro l w1 hl
    have hop : (w1.part opPart Role).st = w.st.op := logIn_op hl
    rw [hop]
    exact hcwd
  constructor
  · intro hno l w1 hl
    refine (session_tame_iff (hdir hl)).mp fun e v hv => ?_
    exact hno e _ (runs_handleConn_threw.mpr ⟨l, w1, v, hl, hv, rfl⟩)
  · intro hall e w' hrun
    obtain ⟨l, w1, v, hl, hv, -⟩ := runs_handleConn_threw.mp hrun
    exact (session_tame_iff (hdir hl)).mpr (hall l w1 hl) e v hv

/-- Alice's upload, list, download and delete throw nothing, so they are tame. -/
theorem no_exception_iff_alice :
    (∀ e w', ¬ Runs aliceHost.handleConn ⟨aliceWorker, aliceStream aliceRequests, true, [], []⟩ (.threw e) w') ∧
      ∀ l w1, Runs aliceHost.logIn ⟨aliceWorker, aliceStream aliceRequests, true, [], []⟩ (.inr l) w1 →
        Tame (aliceHost.env l) aliceHost.fails (w1.part opPart Role) := by
  obtain ⟨v, hr, -⟩ := alice_served
  have hno : ∀ e w', ¬ Runs aliceHost.handleConn ⟨aliceWorker, aliceStream aliceRequests, true, [], []⟩
      (.threw e) w' := by
    intro e w' hthrew
    obtain ⟨he, -⟩ := hr.unique hthrew
    cases he
  exact ⟨hno, (no_exception_iff aliceHost rfl).mp hno⟩

section
variable {E : ServerEnv}

/-- On a client's request. -/
theorem deletes_request (act : Nat) {n1 n2 n3 name : Bytes} (h1 : n1.length = 8) (h2 : n2.length = 8)
    (h3 : n3.length = 8) (hl : (name ++ [0]).length ≤ PRE_EXT_FILE_NAME_LEN) (st : FsOperator) (rest : Bytes)
    (e : Bool) (h : List (Ev Role)) :
    Deletes E act
      ⟨st, frame E.na.aead E.server_rx n1 (i32Enc NEW_ACTION) ++
        (frame E.na.aead E.server_rx n2 (i32Enc DELETE_FILE) ++
          (frame E.na.aead E.server_rx n3 (name ++ [0]) ++ rest)), e, h, []⟩ (E.user_dir ++ cstr name) := by
  have hs := ServerEnv.name_short hl
  have hask := ServerEnv.asks_request (E := E) act h1 h2 (by decide) (by decide) (by decide : DELETE_FILE ≠ _)
    st (frame E.na.aead E.server_rx n3 (name ++ [0]) ++ rest) e h
  apply Exists.intro
  apply Exists.intro
  apply Exists.intro
  refine ⟨hask, Runs.bind (ServerEnv.runs_freshNonce _ _ _ _) (runs_ofSock_frame _ e _ _ _ _ h3 hs rest), ?_⟩
  unfold Named deletedPath deletedName
  rw [unwrap_received _ _ _ hs hl]
  exact ⟨⟨rfl, rfl⟩, by rw [cstr_blit_nul]⟩

end

/-- A request to delete `".."`, the directory of all users. -/
def askToDeleteParent : Bytes :=
  frame plainAead [1] (u64Enc 3) (i32Enc NEW_ACTION) ++
    (frame plainAead [1] (u64Enc 4) (i32Enc DELETE_FILE) ++
      (frame plainAead [1] (u64Enc 5) (dotdot ++ [0]) ++ []))

theorem delete_of_parent_throws :
    ∃ e w', Runs aliceHost.handleConn ⟨aliceWorker, aliceStream askToDeleteParent, true, [], []⟩
      (.threw e) w' := by
  obtain ⟨creds, h, hl⟩ := alice_logs_in askToDeleteParent
  have hmake : aliceDir.fs.createDirectories aliceServer.cwd (splitSlash aliceServer.user_dir) =
      .ok aliceDir.fs := rfl
  let st : FsOperator := { aliceDir with nonce := fit AEAD_NPUBBYTES [], draws := 1 }
  have hdel : Deletes aliceServer 0 ⟨st, askToDeleteParent, true, [], []⟩ _ :=
    deletes_request 0 (u64Enc_length 3) (u64Enc_length 4) (u64Enc_length 5) (by decide) st [] true []
  have hrem : st.fs.remove aliceServer.cwd (aliceServer.user_dir ++ cstr dotdot) = .error .enotempty := by
    decide +kernel
  by_contra hno
  have htame := (session_tame_iff (E := aliceServer) (v := ⟨aliceDir, askToDeleteParent, true, [], []⟩) rfl).mp
    fun e v hv => hno ⟨e, _, runs_handleConn_threw.mpr ⟨_, _, v, hl, hv, rfl⟩⟩
  have hok := (htame.2 0 _ (ServerEnv.serves_first hmake askToDeleteParent true [])).1 _ hdel
  rw [← FS.remove_ok_iff, hrem] at hok
  simp at hok

end Mefsc.L4
