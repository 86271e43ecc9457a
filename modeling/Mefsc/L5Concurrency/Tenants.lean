import Mefsc.Core.Shared
import Mefsc.L4App.Isolation
import Mefsc.L4App.Vault

/-!
# Sessions of different users at the same time

The worker threads of `src/server/server.cpp` serve their sessions on one file
system. Here any number of sessions is open, each with a client of its own (any
program) and each of another user; a step is one operation of one party of one of
them (`Core.Shared`).

`users_apart`: whatever the interleaving, as long as no name that was used climbs,
every session has come to where it comes when it is the only one, with the same bytes
sent and received, and its user's directory holds what it holds then. What is proved
of one client and one server, on any schedule, holds of every user's session in the
server.

An exception ends the process (`L4App.Exceptions`); here the others go on, so that
the runs of the process are among those spoken of.
-/
namespace Mefsc.L5

open L1 L3 L4 L4.Isolation
open Proc hiding ret recv send act iter bind

/-- The file system as a part of the state of a session. -/
def fsPart : Part FS FsOperator where
  get s := s.fs
  set s fs := { s with fs := fs }
  get_set _ _ := rfl
  set_set _ _ _ := rfl
  set_get _ := rfl

namespace Tenants

/-- Where the directories of the users are. -/
def base (E : ServerEnv) : Path := E.cwd ++ [mefS]

/-- What the session has open is its user's. -/
def Holding (E : ServerEnv) (s : FsOperator) : Prop := ∀ p, s.file = some p → home E <+: p

/-- What the session can do to the file system does not touch `Q`. -/
structure Stable (E : ServerEnv) (Q : FS → Prop) : Prop where
  base : ∀ fs, Q fs → fs.node (base E) = some .dir
  insert : ∀ fs p x, Q fs → home E <+: p → Q (fs.insert p x)
  erase : ∀ fs p, Q fs → home E <+: p → Q (fs.erase p)

/-! ## What a session leaves alone -/

section
variable {E : ServerEnv} {Q : FS → Prop}

theorem Stable.append (hQ : Stable E Q) {fs : FS} {p : Path} (h : Q fs) (hp : home E <+: p) (b : Bytes) :
    Q (fs.append p b) := by
  unfold FS.append
  split
  · exact hQ.insert _ _ _ h hp
  · exact h

theorem Stable.createDirectories (hu : Plain E.username) (hQ : Stable E Q) {fs fs' : FS} (h : Q fs)
    (hx : fs.createDirectories E.cwd (splitSlash E.user_dir) = .ok fs') : Q fs' := by
  have hm : Plain mefS := ⟨by decide, by decide, by decide, by decide, by decide, by decide⟩
  have hdir : splitSlash E.user_dir = [mefS, E.username, []] := by
    have he : E.user_dir = mefS ++ slash :: (E.username ++ slash :: []) := by
      simp [ServerEnv.user_dir, base_dir, mefS, slash]
    rw [he, splitSlash_append, splitSlash_append, splitSlash_noSlash hm.noSlash, splitSlash_noSlash hu.noSlash]
    rfl
  have hhome : E.cwd ++ [mefS] ++ [E.username] = home E := by simp [home]
  have hb : fs.node (E.cwd ++ [mefS]) = some .dir := hQ.base fs h
  rw [hdir] at hx
  simp only [FS.createDirectories, hm.enter, hu.enter, hb, hhome] at hx
  split at hx
  · cases hx
  split at hx
  · cases hx
  split at hx
  · rename_i hn
    obtain rfl : fs = fs' := by simpa [enter, hn] using hx
    exact h
  · cases hx
  · have hn : FS.node (fs.insert (home E) .dir) (home E) = some .dir := by
      simp [FS.node, home]
    obtain rfl : fs.insert (home E) .dir = fs' := by simpa [enter, hn] using hx
    exact hQ.insert _ _ _ h List.prefix_rfl

/-- An operation that keeps an invariant. -/
theorem lockstep_inv {β : Type} {K : FsOperator → Prop} {f : FsOperator → β × FsOperator}
    (hG : ∀ s, Level (f s).2 → Level s) (hK : ∀ s, K s → Level (f s).2 → K (f s).2) :
    Lockstep Level (fun s s' => s = s' ∧ K s) (modifyGet f : Server β) := by
  refine lockstep_modifyGet hG ?_
  rintro s s' ⟨rfl, h⟩ hg
  exact ⟨rfl, rfl, hK s h hg⟩

variable (hu : Plain E.username) (hQ : Stable E Q)

include hQ

theorem stable_writeOut (b : Bytes) :
    Lockstep Level (fun s s' => s = s' ∧ Holding E s ∧ Q s.fs) (ServerEnv.writeOut b) := by
  refine lockstep_modify (fun s h => ?_) ?_
  · unfold ServerEnv.written at h
    split at h
    · exact h
    · exact h
  · rintro s s' ⟨rfl, hf, hq⟩ -
    refine ⟨rfl, ?_⟩
    unfold ServerEnv.written
    split
    · exact ⟨hf, hq⟩
    · rename_i p hp
      exact ⟨hf, hQ.append hq (hf p hp) b⟩

include hu

theorem stable_openOut (n : Bytes) :
    Lockstep Level (fun s s' => s = s' ∧ Holding E s ∧ Q s.fs) (E.openOut n) := by
  refine lockstep_modify (fun s h => ?_) ?_
  · unfold Level at h
    rw [opened_names] at h
    exact (Level.of_append h).1
  · rintro s s' ⟨rfl, hf, hq⟩ hg
    unfold Level at hg
    rw [opened_names] at hg
    have hn := (Level.of_append hg).2
    refine ⟨rfl, ?_⟩
    unfold ServerEnv.opened
    have hsame : FS.Agree (home E) s.fs s.fs := rfl
    rcases hsame.openTrunc (leads hu) hn with ⟨h1, -⟩ | ⟨p, hp, h1, -⟩
    · simp only [h1]
      exact ⟨fun p hp => by simp at hp, hq⟩
    · simp only [h1]
      refine ⟨fun q hq' => ?_, hQ.insert _ _ _ hq hp⟩
      cases hq'
      exact hp

theorem stable_removeFile (n : Bytes) :
    Lockstep Level (fun s s' => s = s' ∧ Holding E s ∧ Q s.fs) (E.removeFile n) := by
  refine lockstep_inv (fun s h => ?_) ?_
  · split at h <;> exact (Level.of_append h).1
  · rintro s ⟨hf, hq⟩ hg
    have hn : climbs n = false := by
      split at hg <;> exact (Level.of_append hg).2
    have hsame : FS.Agree (home E) s.fs s.fs := rfl
    rcases hsame.remove (leads hu) hn with
      ⟨e, h1, -⟩ | ⟨h1, -⟩ | ⟨p, hp, h1, -⟩
    · simp only [h1]
      exact ⟨hf, hq⟩
    · simp only [h1]
      exact ⟨hf, hq⟩
    · simp only [h1]
      exact ⟨hf, hQ.erase _ _ hq hp⟩

theorem stable_makeUserDir :
    Lockstep Level (fun s s' => s = s' ∧ Holding E s ∧ Q s.fs) E.makeUserDir := by
  refine lockstep_inv (fun s h => ?_) ?_
  · split at h <;> exact h
  · rintro s ⟨hf, hq⟩ -
    cases hx : s.fs.createDirectories E.cwd (splitSlash E.user_dir) with
    | error e => exact ⟨hf, hq⟩
    | ok fs => exact ⟨hf, hQ.createDirectories hu hq hx⟩

theorem stable_files : ServerEnv.Files E E.openIn
    (fun {_} p => Lockstep Level (fun s s' => s = s' ∧ Holding E s ∧ Q s.fs) p) where
  pure := lockstep_pure
  bind := Lockstep.bind
  recvN := lockstep_recvN
  sendB := lockstep_sendB
  frame {_} {f} _ hs := by
    refine lockstep_inv (fun s h => ?_) ?_
    · unfold Level at h ⊢
      rwa [(hs s).2.2] at h
    · rintro s ⟨hf, hq⟩ -
      obtain ⟨h1, h2, -⟩ := hs s
      unfold Holding
      rw [h1, h2]
      exact ⟨hf, hq⟩
  loop := Lockstep.loop
  openOut := stable_openOut hu hQ
  writeOut := stable_writeOut hQ
  openIn n := lockstep_inv (fun s h => (Level.of_append h).1) fun s h _ => h
  listDir := by
    refine lockstep_read ?_
    rintro s s' ⟨rfl, -⟩ -
    rfl

/-- Every session keeps what is stable under it. -/
theorem stable_session :
    Lockstep Level (fun s s' => s = s' ∧ Holding E s ∧ Q s.fs) E.session := by
  rw [← ServerEnv.sessionVia_openIn]
  exact (stable_files hu hQ).sessionVia (stable_removeFile hu hQ) (stable_makeUserDir hu hQ)

end

/-! ## Apart -/

/-- What the session has, and what it has when it is alone: they differ in files
elsewhere. -/
def Apart (E : ServerEnv) (s t : FsOperator) : Prop :=
  (∃ fs0, Alike E fs0 s t) ∧ Holding E s ∧ s.fs.node (base E) = some .dir

theorem stable_base (E : ServerEnv) : Stable E fun fs => fs.node (base E) = some .dir := by
  have hne {p : Path} (hp : home E <+: p) : base E ≠ p := by
    rintro rfl
    have := hp.length_le
    simp [home, base] at this
  refine ⟨fun _ h => h, fun fs p x h hp => ?_, fun fs p h hp => ?_⟩
  · rw [FS.node_insert_ne (hne hp)]
    exact h
  · rw [FS.node_erase_ne (hne hp)]
    exact h

theorem lockstep_apart {E : ServerEnv} (hu : Plain E.username) : Lockstep Level (Apart E) E.session := by
  refine Lockstep.and_inv ?_ (stable_session hu (stable_base E))
  have : Nonempty FS := ⟨∅⟩
  exact Lockstep.of_family (fun _ _ h => h) (fun c _ _ h => ⟨c, h⟩) fun fs0 => lockstep_session hu

section
variable {E E' : ServerEnv} (hne : E.username ≠ E'.username) (hcwd : E.cwd = E'.cwd)

include hne hcwd

theorem far {p : Path} (hp : home E <+: p) : FS.near (home E') p = false := by
  have hlen : (home E).length = (home E').length := by simp [home, hcwd]
  have hdiff : home E ≠ home E' := by
    intro h
    rw [home, home, hcwd] at h
    exact hne (by simpa using h)
  rw [← Bool.not_eq_true]
  intro h
  simp only [FS.near, Bool.or_eq_true, List.isPrefixOf_iff_prefix] at h
  rcases h with h | h
  · exact hdiff ((List.prefix_of_prefix_length_le hp h hlen.le).eq_of_length hlen)
  · exact hdiff ((hp.trans h).eq_of_length hlen)

theorem stable_apart (x t : FsOperator) : Stable E fun fs => Apart E' { x with fs := fs } t := by
  have hbase : base E = base E' := by rw [base, base, hcwd]
  have hkeep {fs gs : FS} (h : Apart E' { x with fs := fs } t)
      (ha : FS.Agree (home E') fs t.fs → FS.Agree (home E') gs t.fs)
      (hb : fs.node (base E) = some .dir → gs.node (base E) = some .dir) : Apart E' { x with fs := gs } t := by
    obtain ⟨⟨fs0, halike⟩, hf, hd⟩ := h
    rw [← hbase] at hd
    refine ⟨⟨gs, halike.eq, ha halike.agree, fun _ _ _ => Iff.rfl, halike.file⟩, hf, ?_⟩
    rw [← hbase]
    exact hb hd
  refine ⟨fun fs h => ?_, fun fs p v h hp => ?_, fun fs p h hp => ?_⟩
  · rw [hbase]
    exact h.2.2
  · exact hkeep h (fun ha => ha.insert_far (far hne hcwd hp) v) fun hb => (stable_base E).insert _ _ _ hb hp
  · exact hkeep h (fun ha => ha.erase_far (far hne hcwd hp)) fun hb => (stable_base E).erase _ _ hb hp

end

end Tenants

open Tenants

section
variable {ι σ α : Type} [DecidableEq ι]

/-- One session for each `i`, each with its client `cl i`. -/
def openSessions (E : ι → ServerEnv) (cl : ι → Party σ Role α) (st : ι → FsOperator) (fs : FS) :
    Shared ι σ FsOperator Role α ServerEnv.Ended FS :=
  ⟨fs, fun i => ⟨cl i, ⟨(E i).session, st i, [], []⟩⟩⟩

/-- Session `i` when it is the only one. -/
def soloSession (E : ι → ServerEnv) (cl : ι → Party σ Role α) (st : ι → FsOperator) (fs : FS) (i : ι) :
    Net σ FsOperator Role α ServerEnv.Ended :=
  ⟨cl i, ⟨(E i).session, { st i with fs := fs }, [], []⟩⟩

section
variable {E : ι → ServerEnv} (hu : ∀ i, Plain (E i).username)
  (hne : ∀ i j, i ≠ j → (E i).username ≠ (E j).username) (hcwd : ∀ i j, (E i).cwd = (E j).cwd)
  {cl : ι → Party σ Role α} {st : ι → FsOperator} {fs : FS} (hf : ∀ i, (st i).file = none)
  (hb : ∀ i, fs.node (base (E i)) = some .dir) {S : Shared ι σ FsOperator Role α ServerEnv.Ended FS}
  (h : Shared.Goes fsPart (openSessions E cl st fs) S) (hc : ∀ i, ∀ n ∈ (S.nets i).r.st.names, climbs n = false)
  (i : ι)

include hu hne hcwd hf hb h

omit hc i in
theorem sessions_alone : Shared.Alone fsPart (fun _ => Level) (fun i => Apart (E i)) (fun i => Holding (E i))
    (soloSession E cl st fs) S := by
  have hstart : Shared.Alone fsPart (fun _ => Level) (fun i => Apart (E i)) (fun i => Holding (E i))
      (soloSession E cl st fs) (openSessions E cl st fs) := by
    refine ⟨fun i => ⟨lockstep_apart (hu i), fun j hj x t => ?_⟩, fun _ i => ⟨{ st i with fs := fs }, ?_, ?_⟩⟩
    · exact stable_session (hu i) (stable_apart (hne i j hj.symm) (hcwd i j) x t)
    · have hopen : Holding (E i) { st i with fs := fs } := by
        intro p hp
        rw [show FsOperator.file { st i with fs := fs } = none from hf i] at hp
        cases hp
      exact ⟨⟨fs, rfl, rfl, fun _ _ _ => Iff.rfl, hopen⟩, hopen, hb i⟩
    · exact Net.Reach.refl _
  exact Shared.alone (fun _ _ _ => Iff.rfl) (fun _ _ _ h => h.2.1) hstart h

include hc

/-- Sessions of different users, with any clients and interleaved in any way: each of
them is where it comes to when it is alone. -/
theorem users_apart :
    ∃ gs, FS.Agree (home (E i)) S.common gs ∧
      Net.Reach (soloSession E cl st fs i)
        ⟨(S.nets i).l, (S.nets i).r.withSt { (S.nets i).r.st with fs := gs }⟩ := by
  obtain ⟨t, ⟨⟨fs0, halike⟩, -, -⟩, hreach⟩ := (sessions_alone hu hne hcwd hf hb h).reach hc i
  refine ⟨t.fs, halike.agree, ?_⟩
  have ht : t = { (S.nets i).r.st with fs := t.fs } := halike.eq
  rw [← ht]
  exact hreach

end

end

/-! ## A user among others -/

section
variable {ι : Type} [DecidableEq ι] {E : ι → ServerEnv}

/-- The session of an honest client, while the others do what they like in their own
directories: it can go on, or it has ended as the user's desk says. -/
theorem tenant_served (hu : ∀ i, Plain (E i).username) (hne : ∀ i j, i ≠ j → (E i).username ≠ (E j).username)
    (hcwd : ∀ i j, (E i).cwd = (E j).cwd) {cl : ι → Party ClientState Role ClientEnd} {st : ι → FsOperator} {fs : FS}
    (hf : ∀ i, (st i).file = none) (hb : ∀ i, fs.node (base (E i)) = some .dir)
    {S : Shared ι ClientState FsOperator Role ClientEnd ServerEnv.Ended FS}
    (h : Shared.Goes fsPart (openSessions E cl st fs) S) (hc : ∀ i, ∀ n ∈ (S.nets i).r.st.names, climbs n = false)
    (i : ι) {C : ClientEnv} (hL : Linked C (E i)) (hS : C.na.ss.Correct) (hoom : ∀ n, C.host.oom n = false)
    {first : UserAction} {more : List UserAction} {cst : ClientState}
    (hcl : cl i = ⟨C.authedComms first more, cst, [], []⟩) {v m : Store} {fs' : FS}
    (hd : fs.createDirectories (E i).cwd (splitSlash (E i).user_dir) = .ok fs')
    (hK : Kept C.na C.password v m) (hH : fs'.Holds (E i).cwd (E i).user_dir m)
    (hF : Desk.AllFit C.cwd ⟨cst.fs, v⟩ (first :: more)) :
    (∃ right S', S.stepAt fsPart i right = some S') ∨
      (S.nets i).l.pr = pure (.returned 0) ∧ (S.nets i).r.pr = pure .closed ∧
        Matches C (E i) ((first :: more).foldl (Desk.perform C.cwd) ⟨cst.fs, v⟩) (S.nets i).l.st
          { (S.nets i).r.st with fs := S.common } ∧
        ∃ xs, Desk.Prints C.cwd ⟨cst.fs, v⟩ (first :: more) xs ∧ (S.nets i).l.st.shown = cst.shown ++ xs := by
  obtain ⟨sst0, hfs0, hopen⟩ := opening_idle (C := C) (E := E i) first more cst
    (show FS.createDirectories (FsOperator.fs { st i with fs := fs }) _ _ = .ok fs' from hd)
  have hM : Matches C (E i) ⟨cst.fs, v⟩ cst sst0 := ⟨rfl, m, hK, hfs0 ▸ hH⟩
  obtain ⟨cst', sst', hl', hr', xs, hdo, hM', hxs, hshown⟩ :=
    idle_does hL hS hoom (first :: more) 0 cst sst0 [] [] _ hM hF
  have hsolo : soloSession E cl st fs i = opening C (E i) first more cst { st i with fs := fs } := by
    rw [soloSession, hcl]
    rfl
  have hend := hopen.trans hdo
  rw [← hsolo] at hend
  rcases (sessions_alone hu hne hcwd hf hb h).ends hc hend (Net.stuck_of_done rfl rfl) with hstep | ⟨t, hR, he⟩
  · exact .inl hstep
  · obtain ⟨⟨fs0, halike⟩, -, -⟩ := hR
    have hl : (S.nets i).l = ⟨pure (.returned 0), cst', [], hl'⟩ := (congrArg Net.l he).symm
    have hr : (S.nets i).r.pr = pure .closed := (congrArg (fun u => u.r.pr) he).symm
    have ht : sst' = t := congrArg (fun u => u.r.st) he
    have hagree : FS.Agree (home (E i)) sst'.fs S.common := by
      rw [ht]
      exact halike.agree.symm
    obtain ⟨m', hK', hH'⟩ := hM'.vault
    refine .inr ⟨by rw [hl], hr, ⟨?_, m', hK', hH'.agree (leads (hu i)) hagree⟩, xs, hxs, ?_⟩
    · rw [hl]
      exact hM'.files
    · rw [hl]
      exact hshown

end

/-! ## Alice and bob at the same time -/

def bobServer : ServerEnv := { aliceServer with username := bob }

def twoServers (b : Bool) : ServerEnv := if b then aliceServer else bobServer

/-- Alice uploads `"a"` while bob deletes what he has under that name. -/
def twoClients (b : Bool) : Party ClientState Role ClientEnd :=
  ⟨aliceClient.authedComms (if b then uploadA else ⟨DELETE_FILE, [97] ++ ext⟩) [], aliceHome, [], []⟩

/-- By turns. -/
def inTurn (n : Nat) : Shared Bool ClientState FsOperator Role ClientEnd ServerEnv.Ended FS :=
  (openSessions twoServers twoClients (fun _ => aliceDir) aliceDir.fs).play fsPart
    (List.replicate n [(true, false), (false, true), (true, true), (false, false)]).flatten

theorem goes_inTurn (n : Nat) :
    Shared.Goes fsPart (openSessions twoServers twoClients (fun _ => aliceDir) aliceDir.fs) (inTurn n) :=
  Shared.goes_play _ _

/-- Both come to their end. -/
theorem inTurn_ends :
    ∃ S, Shared.Goes fsPart (openSessions twoServers twoClients (fun _ => aliceDir) aliceDir.fs) S ∧
      (∀ i, ∀ n ∈ (S.nets i).r.st.names, climbs n = false) ∧
      ∀ i right, (S.stepAt fsPart i right).isNone = true := by
  refine ⟨inTurn 60, goes_inTurn 60, ?_, ?_⟩
  · decide +kernel
  · decide +kernel

theorem twoServers_plain : ∀ b, Plain (twoServers b).username := by
  intro b
  cases b <;> exact ⟨by decide, by decide, by decide, by decide, by decide, by decide⟩

theorem twoServers_apart : ∀ b c, b ≠ c → (twoServers b).username ≠ (twoServers c).username := by decide

/-- Both have ended, and each is where it comes alone. -/
theorem users_apart_alice_bob :
    ∃ S, Shared.Goes fsPart (openSessions twoServers twoClients (fun _ => aliceDir) aliceDir.fs) S ∧
      (∀ i right, (S.stepAt fsPart i right).isNone = true) ∧
      ∀ b, ∃ gs, FS.Agree (home (twoServers b)) S.common gs ∧
        Net.Reach (soloSession twoServers twoClients (fun _ => aliceDir) aliceDir.fs b)
          ⟨(S.nets b).l, (S.nets b).r.withSt { (S.nets b).r.st with fs := gs }⟩ := by
  obtain ⟨S, hgoes, hlevel, hend⟩ := inTurn_ends
  exact ⟨S, hgoes, hend, fun b => users_apart twoServers_plain twoServers_apart (by decide) (fun _ => rfl) (by decide)
    hgoes hlevel b⟩

/-- Alice's has ended, and her file is there. -/
theorem tenant_served_alice :
    ∃ S, Shared.Goes fsPart (openSessions twoServers twoClients (fun _ => aliceDir) aliceDir.fs) S ∧
      (S.nets true).l.pr = pure (.returned 0) ∧ (S.nets true).r.pr = pure .closed ∧
      Matches aliceClient aliceServer ⟨aliceHome.fs, Function.update (fun _ => none) ([97] ++ ext) (some [1, 2, 3])⟩
        (S.nets true).l.st { (S.nets true).r.st with fs := S.common } := by
  obtain ⟨S, hgoes, hlevel, hend⟩ := inTurn_ends
  have hF : Desk.AllFit aliceClient.cwd ⟨aliceHome.fs, fun _ => none⟩ [uploadA] :=
    alice_visits_seemly.1 (by decide)
  have hd : aliceDir.fs.createDirectories aliceServer.cwd (splitSlash aliceServer.user_dir) =
      .ok aliceDir.fs := rfl
  have hserved := tenant_served twoServers_plain twoServers_apart (by decide) (fun _ => rfl) (by decide) hgoes hlevel
    true alice_linked plainStream_correct (fun _ => rfl) rfl hd (kept_empty _ _) (FS.holds_empty (by decide)) hF
  rcases hserved with ⟨right, S', hstep⟩ | ⟨hl, hr, hM, -⟩
  · have hnone := hend true right
    rw [hstep] at hnone
    cases hnone
  · exact ⟨S, hgoes, hl, hr, hM⟩

end Mefsc.L5
