import Mefsc.Core.Confine
import Mefsc.Core.Lockstep
import Mefsc.L3Protocol.ServerParts
import Mefsc.L4App.RoundTrip

/-!
# One user's session and the files of the others

Upload, download and delete put a string of the client's behind `user_dir`
and open, truncate or remove what it denotes; nothing looks for `..` in it.

* `session_isolated`: as long as no such string climbs out of the user's
  directory, every path used lies in it, the files outside it stay as they
  are, and everything the server does and sends is the same for any other
  content of the file system outside it. This is over every peer: any bytes,
  arriving in any portions.
* `deletes_other_users_file`: a session in which a string does climb.
-/
namespace Mefsc.L4

open L1 L1.SessionEncWrapper L2 L3
open Proc hiding ret recv send act iter bind

/-! ## The server -/

namespace Isolation

/-- The directory of the session's user. -/
def home (E : ServerEnv) : Path := E.cwd ++ [mefS, E.username]

/-- The guard: no string used so far climbs. -/
def Level (s : FsOperator) : Prop := ∀ n ∈ s.names, climbs n = false

/-- Two states of the server that differ in files outside `home` alone, and
what has become of the first one's files since `fs0`. -/
structure Alike (E : ServerEnv) (fs0 : FS) (s t : FsOperator) : Prop where
  eq : t = { s with fs := t.fs }
  agree : FS.Agree (home E) s.fs t.fs
  kept : FS.SameFiles (home E) fs0 s.fs
  file : ∀ p, s.file = some p → home E <+: p

theorem leads {E : ServerEnv} (hu : Plain E.username) : FS.Leads E.cwd E.user_dir (home E) where
  plain := by
    have hm : Plain mefS := ⟨by decide, by decide, by decide, by decide, by decide, by decide⟩
    refine ⟨[mefS, E.username], by simp [hm, hu], rfl, fun s => ?_⟩
    have hdir : E.user_dir ++ s = mefS ++ slash :: (E.username ++ slash :: s) := by
      simp [ServerEnv.user_dir, base_dir, mefS, slash]
    rw [hdir, splitSlash_append, splitSlash_append, splitSlash_noSlash hm.noSlash,
      splitSlash_noSlash hu.noSlash, ← List.append_assoc]
    rfl

variable {E : ServerEnv} {fs0 : FS}

/-- An operation that leaves files and strings alone. -/
theorem lockstep_frame {β : Type} {f : FsOperator → β × FsOperator}
    (hf : ∀ s gs, f { s with fs := gs } = ((f s).1, { (f s).2 with fs := gs }))
    (hs : ∀ s, (f s).2.fs = s.fs ∧ (f s).2.file = s.file ∧ (f s).2.names = s.names) :
    Lockstep Level (Alike E fs0) (modifyGet f : Server β) := by
  refine lockstep_modifyGet (fun s h => ?_) fun s t h _ => ?_
  · unfold Level at h ⊢
    rwa [(hs s).2.2] at h
  · obtain ⟨he, ha, hk, hfile⟩ := h
    obtain ⟨h1, h2, -⟩ := hs s
    have ht : f t = ((f s).1, { (f s).2 with fs := t.fs }) := by
      rw [he]
      exact hf s t.fs
    rw [ht]
    exact ⟨rfl, rfl, by rwa [h1], by rwa [h1], by rwa [h2]⟩

/-! ### File operations -/

theorem Level.of_append {s : FsOperator} {n : Bytes} (h : ∀ m ∈ s.names ++ [n], climbs m = false) :
    Level s ∧ climbs n = false :=
  ⟨fun m hm => h m (List.mem_append_left _ hm), h n (List.mem_append_right _ List.mem_cons_self)⟩

theorem opened_names (n : Bytes) (s : FsOperator) : (E.opened n s).names = s.names ++ [n] := by
  unfold ServerEnv.opened
  split <;> rfl

theorem lockstep_openOut (hu : Plain E.username) (n : Bytes) :
    Lockstep Level (Alike E fs0) (E.openOut n) := by
  refine lockstep_modify (fun s h => ?_) fun s t h hg => ?_
  · unfold Level at h
    rw [opened_names] at h
    exact (Level.of_append h).1
  · obtain ⟨he, ha, hk, hfile⟩ := h
    unfold Level at hg
    rw [opened_names] at hg
    have hn := (Level.of_append hg).2
    rw [he]
    unfold ServerEnv.opened
    rcases ha.openTrunc (leads hu) hn with ⟨h1, h2⟩ | ⟨p, hp, h1, h2⟩
    · simp only [h1, h2]
      exact ⟨rfl, ha, hk, by simp⟩
    · simp only [h1, h2]
      refine ⟨rfl, ha.insert (FS.near_below hp) _, hk.insert hp _, ?_⟩
      intro q hq
      cases hq
      exact hp

theorem lockstep_writeOut (b : Bytes) : Lockstep Level (Alike E fs0) (ServerEnv.writeOut b) := by
  refine lockstep_modify (fun s h => ?_) fun s t h _ => ?_
  · unfold ServerEnv.written at h
    split at h
    · exact h
    · exact h
  · obtain ⟨he, ha, hk, hfile⟩ := h
    obtain ⟨fs, nonce, file, draws, locals, names⟩ := s
    rw [he]
    cases file with
    | none => exact ⟨rfl, ha, hk, by simp [ServerEnv.written]⟩
    | some p =>
      have hp := hfile p rfl
      exact ⟨rfl, ha.append hp b, hk.append hp b, hfile⟩

theorem lockstep_openIn (hu : Plain E.username) (n : Bytes) :
    Lockstep Level (Alike E fs0) (E.openIn n) := by
  refine lockstep_modifyGet (fun s h => (Level.of_append h).1) fun s t h hg => ?_
  obtain ⟨he, ha, hk, hfile⟩ := h
  have hn := (Level.of_append hg).2
  rw [he]
  exact ⟨ha.openRead (leads hu) hn, rfl, ha, hk, hfile⟩

theorem lockstep_removeFile (hu : Plain E.username) (n : Bytes) :
    Lockstep Level (Alike E fs0) (E.removeFile n) := by
  refine lockstep_modifyGet (fun s h => ?_) fun s t h hg => ?_
  · split at h <;> exact (Level.of_append h).1
  · have hn : climbs n = false := by
      split at hg <;> exact (Level.of_append hg).2
    obtain ⟨he, ha, hk, hfile⟩ := h
    rw [he]
    rcases ha.remove (leads hu) hn with ⟨e, h1, h2⟩ | ⟨h1, h2⟩ | ⟨p, hp, h1, h2⟩
    · simp only [h1, h2]
      exact ⟨trivial, rfl, ha, hk, hfile⟩
    · simp only [h1, h2]
      exact ⟨trivial, rfl, ha, hk, hfile⟩
    · simp only [h1, h2]
      exact ⟨trivial, rfl, ha.erase (FS.near_below hp), hk.erase hp, hfile⟩

theorem lockstep_listDir (hu : Plain E.username) : Lockstep Level (Alike E fs0) E.listDir :=
  lockstep_read fun _ _ h _ => h.agree.list (leads hu)

theorem lockstep_makeUserDir (hu : Plain E.username) : Lockstep Level (Alike E fs0) E.makeUserDir := by
  refine lockstep_modifyGet (fun s h => ?_) fun s t h _ => ?_
  · split at h <;> exact h
  · obtain ⟨he, ha, hk, hfile⟩ := h
    rw [he]
    rcases ha.createDirectories (leads hu).near with ⟨e, h1, h2⟩ | ⟨fs', gs', h1, h2, ha'⟩
    · simp only [h1, h2]
      exact ⟨trivial, rfl, ha, hk, hfile⟩
    · simp only [h1, h2]
      exact ⟨trivial, rfl, ha', hk.createDirectories h1, hfile⟩

theorem files (hu : Plain E.username) :
    ServerEnv.Files E E.openIn (fun {_} p => Lockstep Level (Alike E fs0) p) where
  pure := lockstep_pure
  bind := Lockstep.bind
  recvN := lockstep_recvN
  sendB := lockstep_sendB
  frame := lockstep_frame
  loop := Lockstep.loop
  openOut := lockstep_openOut hu
  writeOut := lockstep_writeOut
  openIn := lockstep_openIn hu
  listDir := lockstep_listDir hu

theorem lockstep_session (hu : Plain E.username) : Lockstep Level (Alike E fs0) E.session := by
  rw [← ServerEnv.sessionVia_openIn]
  exact (files hu).sessionVia (lockstep_removeFile hu) (lockstep_makeUserDir hu)

end Isolation

open Isolation

/-- What the session's user can reach. `s` is the server when the user has
logged in, `ms` any sequence of arrivals and server steps. -/
theorem session_isolated {E : ServerEnv} (hu : Plain E.username) {s : FsOperator} (hf : s.file = none)
    {ms : List Party.Move} {q : Party FsOperator Role ServerEnv.Ended} {o : Bytes}
    (hr : Party.run ⟨E.session, s, [], []⟩ ms = some (q, o))
    (hc : ∀ n ∈ q.st.names, climbs n = false) :
    (∀ n ∈ [] :: q.st.names, home E <+: resolve E.cwd (splitSlash (E.user_dir ++ n))) ∧
    (∀ p b, ¬ home E <+: p → (q.st.fs.lookup p = some (.file b) ↔ s.fs.lookup p = some (.file b))) ∧
    ∀ fs', FS.Agree (home E) s.fs fs' → ∃ q',
      Party.run ⟨E.session, { s with fs := fs' }, [], []⟩ ms = some (q', o) ∧ q'.hist = q.hist := by
  have hrun : ∀ fs', FS.Agree (home E) s.fs fs' → ∃ t,
      Party.run ⟨E.session, { s with fs := fs' }, [], []⟩ ms = some (q.withSt t, o) ∧
        Alike E s.fs q.st t :=
    fun fs' ha => (lockstep_session hu).run hr hc ⟨rfl, ha, fun _ _ _ => Iff.rfl, by simp [hf]⟩
  refine ⟨fun n hmem => ?_, ?_, fun fs' ha => ?_⟩
  · refine (leads hu).below ?_
    rcases List.mem_cons.mp hmem with rfl | hmem
    · decide
    · exact hc n hmem
  · obtain ⟨t, -, hk⟩ := hrun s.fs rfl
    exact hk.kept
  · obtain ⟨t, ht, -⟩ := hrun fs' ha
    exact ⟨_, ht, rfl⟩

/-- `"bob"` -/
def bob : Name := [98, 111, 98]

def bobsFile : Path := [mefS, bob, [120] ++ ext]

/-- Alice's directory is empty, bob has stored a file `"x"`. -/
def twoUsers : FsOperator :=
  { aliceDir with fs := (aliceDir.fs.insert [mefS, bob] .dir).insert bobsFile (.file [7]) }

/-- A notice, the intent to delete, and a name. -/
def deleteFrames (name : Bytes) : Bytes :=
  frame plainAead [1] (u64Enc 1) (i32Enc NEW_ACTION) ++
    (frame plainAead [1] (u64Enc 2) (i32Enc DELETE_FILE) ++ frame plainAead [1] (u64Enc 3) (name ++ [0]))

/-- The moves of a server that serves a request to delete. -/
def deleteMoves (name : Bytes) : List Party.Move :=
  .arrive (deleteFrames name) :: List.replicate 25 (.step false)

def alicesFile : Path := [mefS, alice, [97] ++ ext]

def alicesToo : FsOperator := { twoUsers with fs := twoUsers.fs.insert alicesFile (.file [9]) }

/-- Alice deletes her `"a.enc"`. -/
theorem session_isolated_alice :
    ∃ q o, Party.run ⟨aliceServer.session, alicesToo, [], []⟩ (deleteMoves ([97] ++ ext)) = some (q, o) ∧
      q.st.fs.lookup alicesFile = none ∧ q.st.fs.lookup bobsFile = some (.file [7]) := by
  have hu : Plain aliceServer.username :=
    ⟨by decide, by decide, by decide, by decide, by decide, by decide⟩
  have hsome : (Party.run ⟨aliceServer.session, alicesToo, [], []⟩ (deleteMoves ([97] ++ ext))).map
      (fun x => (x.1.st.names, x.1.st.fs.lookup alicesFile)) = some ([[97] ++ ext], none) := by decide +kernel
  obtain ⟨⟨q, o⟩, hr, hx⟩ := Option.map_eq_some_iff.mp hsome
  obtain ⟨hn, hgone⟩ := Prod.mk.inj hx
  have hc : ∀ n ∈ q.st.names, climbs n = false := by
    rw [show q.st.names = [[97] ++ ext] from hn]
    decide
  refine ⟨q, o, hr, hgone, ?_⟩
  exact ((session_isolated hu rfl hr hc).2.1 bobsFile [7] (by decide)).mpr (by decide)

/-- Alice deletes `"../bob/x.enc"`. -/
theorem deletes_other_users_file :
    twoUsers.fs.lookup bobsFile = some (.file [7]) ∧
    ∃ q o, Party.run ⟨aliceServer.session, twoUsers, [], []⟩
        (deleteMoves ([46, 46, 47] ++ bob ++ [47, 120] ++ ext)) = some (q, o) ∧
      q.st.fs.lookup bobsFile = none := by
  have hsome : (Party.run ⟨aliceServer.session, twoUsers, [], []⟩
      (deleteMoves ([46, 46, 47] ++ bob ++ [47, 120] ++ ext))).map
        (fun x => x.1.st.fs.lookup bobsFile) = some none := by decide +kernel
  obtain ⟨⟨q, o⟩, hr, hl⟩ := Option.map_eq_some_iff.mp hsome
  exact ⟨by decide, q, o, hr, hl⟩

end Mefsc.L4
