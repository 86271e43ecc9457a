import Mefsc.Core.Lts
import Mefsc.Core.Way
import Mefsc.L4App.RoundTrip

/-!
# A list while others change the directory

`LFFS_Handler__Server` goes through the directory twice, once for the count and
once for the names; the other workers go on creating and removing files
meanwhile. A pass yields every name that is there all the time and none that
never is; whether it yields one that comes or goes while it runs is open.

`listing_in_step`: as long as nobody adds or removes a name between the start of
the first pass and the end of the second, the client gets as many names as were
announced and reads the answer to its end. `upload_between_passes` is a run in
which somebody does.
-/
namespace Mefsc.L5

open L1 L1.SessionEncWrapper L2 L3 L4
open Proc hiding ret recv send act iter bind

/-! ## The handler and the others -/

inductive ListPc where
  | start
  /-- in the first pass -/
  | counting
  /-- the count is sent -/
  | counted
  /-- in the second pass -/
  | naming
  | done
  | threw (e : Errno)
  deriving DecidableEq, Repr

/-- `seen`: what this pass has yielded. `ever`, `always`: the names that have been
there at some time of it, and at all times. `first`: what the first pass
yielded. -/
structure Listing where
  fs : FS
  pc : ListPc
  seen : List Name
  ever : List Name
  always : List Name
  first : List Name

inductive ListAct where
  /-- `directory_iterator(user_dir)` -/
  | openDir
  /-- the iterator's next entry; in the second pass its name is sent -/
  | next (n : Name)
  /-- its end; behind the first pass the count is sent -/
  | endDir
  /-- `std::ofstream file(user_dir + name)` of another session -/
  | upload (name : Bytes)
  /-- what it writes -/
  | write (p : Path) (b : Bytes)
  /-- `std::filesystem::remove(user_dir + name)` of another session -/
  | delete (name : Bytes)
  deriving DecidableEq, Repr

namespace Listing

variable (E : ServerEnv)

/-- The user's directory. -/
def dir : Path := resolve E.cwd (splitSlash E.user_dir)

/-- Another session has changed the files. -/
def changed (s : Listing) (fs : FS) : Listing :=
  { s with fs := fs, ever := s.ever ++ fs.children (dir E),
           always := s.always.filter fun n => n ∈ fs.children (dir E) }

/-- mirrors src/server/read_write_handlers.cpp:301-324, with the steps of
:142-160 and :326-344 that other sessions take -/
def step (s : Listing) : ListAct → Option Listing
  | .openDir =>
    if s.pc = .start ∨ s.pc = .counted then
      match s.fs.list E.cwd E.user_dir with
      | .error e => some { s with pc := .threw e }
      | .ok ns => some { s with pc := if s.pc = .start then .counting else .naming,
                                seen := [], ever := ns, always := ns }
    else none
  | .next n =>
    if (s.pc = .counting ∨ s.pc = .naming) ∧ n ∈ s.ever ∧ n ∉ s.seen then
      some { s with seen := s.seen ++ [n] }
    else none
  | .endDir =>
    if ∀ n ∈ s.always, n ∈ s.seen then
      match s.pc with
      | .counting => some { s with pc := .counted, first := s.seen }
      | .naming => some { s with pc := .done }
      | _ => none
    else none
  | .upload name =>
    match s.fs.openTrunc E.cwd (E.user_dir ++ name) with
    | none => some s
    | some (_, fs) => some (s.changed E fs)
  | .write p b => some (s.changed E (s.fs.append p b))
  | .delete name =>
    match s.fs.remove E.cwd (E.user_dir ++ name) with
    | .error _ => some s
    | .ok (_, fs) => some (s.changed E fs)

def lts : LTS Listing ListAct where
  init s := s.pc = .start
  step s a s' := s.step E a = some s'

/-- The step adds a name to the directory, takes one from it, or takes the
directory away. -/
def Disturbs (s : Listing) : ListAct → Prop
  | .upload name => ∃ p fs, s.fs.openTrunc E.cwd (E.user_dir ++ name) = some (p, fs) ∧
    s.fs.node p = none ∧ p.dropLast = dir E
  | .delete name => ∃ p fs, s.fs.walk E.cwd (splitSlash (E.user_dir ++ name)) = .ok p ∧
    s.fs.remove E.cwd (E.user_dir ++ name) = .ok (true, fs) ∧
    (p.dropLast = dir E ∨ FS.OnWay E.cwd (splitSlash E.user_dir) p)
  | _ => False

/-- Nobody disturbs the passes, and the first one starts on a directory with
names the client can take: fewer than 2^31, none over 253 bytes. -/
def Steady (s : Listing) (a : ListAct) : Prop :=
  (s.pc ≠ .start ∧ s.pc ≠ .done → ¬ s.Disturbs E a) ∧
  (a = .openDir → s.pc = .start → ∃ ns, s.fs.list E.cwd E.user_dir = .ok ns ∧
    ns.length < 2 ^ 31 ∧ ∀ n ∈ ns, n.length ≤ 253)

/-! ## Undisturbed passes -/

variable {E}

/-- The directory is there, with these names. -/
def Has (E : ServerEnv) (fs : FS) (N : Name → Prop) : Prop :=
  (∃ ns, fs.list E.cwd E.user_dir = .ok ns) ∧ ∀ n, n ∈ fs.children (dir E) ↔ N n

/-- Files that come and go elsewhere do not change that. -/
theorem Has.of_open {fs fs' : FS} {N : Name → Prop} (h : Has E fs N)
    (ho : FS.Open fs E.cwd (splitSlash E.user_dir) → FS.Open fs' E.cwd (splitSlash E.user_dir))
    (hm : ∀ n, n ∈ fs'.children (dir E) ↔ n ∈ fs.children (dir E)) : Has E fs' N := by
  obtain ⟨hs, hopen⟩ := FS.list_ok_iff.mp h.1
  exact ⟨FS.list_ok_iff.mpr ⟨hs, ho hopen⟩, fun n => (hm n).trans (h.2 n)⟩

/-- The steps of the others. -/
theorem step_other_fs {s s' : Listing} {a : ListAct} (hs : s.step E a = some s')
    (ha : ∀ n, a ≠ .openDir ∧ a ≠ .next n ∧ a ≠ .endDir) : s' = s ∨ ∃ fs, s' = s.changed E fs := by
  cases a with
  | openDir => exact absurd rfl (ha []).1
  | next n => exact absurd rfl (ha n).2.1
  | endDir => exact absurd rfl (ha []).2.2
  | upload name =>
    simp only [step] at hs
    split at hs
    · exact .inl (Option.some.inj hs).symm
    · exact .inr ⟨_, (Option.some.inj hs).symm⟩
  | write p b => exact .inr ⟨_, (Option.some.inj hs).symm⟩
  | delete name =>
    simp only [step] at hs
    split at hs
    · exact .inl (Option.some.inj hs).symm
    · exact .inr ⟨_, (Option.some.inj hs).symm⟩

/-- The ones that do not disturb. -/
theorem step_other {s s' : Listing} {a : ListAct} {N : Name → Prop} (h : Has E s.fs N) (hd : ¬ s.Disturbs E a)
    (hs : s.step E a = some s') (ha : ∀ n, a ≠ .openDir ∧ a ≠ .next n ∧ a ≠ .endDir) :
    s' = s ∨ ∃ fs, s' = s.changed E fs ∧ Has E fs N := by
  cases a with
  | openDir => exact absurd rfl (ha []).1
  | next n => exact absurd rfl (ha n).2.1
  | endDir => exact absurd rfl (ha []).2.2
  | upload name =>
    simp only [step] at hs
    split at hs
    · exact .inl (Option.some.inj hs).symm
    · rename_i p fs ho
      refine .inr ⟨fs, (Option.some.inj hs).symm, h.of_open (FS.open_openTrunc ho).mpr fun n => ?_⟩
      obtain ⟨-, -, hp⟩ := FS.openTrunc_some ho
      rw [FS.openTrunc_eq ho]
      refine FS.mem_children_insert hp ?_
      by_contra hcon
      simp only [not_or, not_not] at hcon
      exact hd ⟨p, fs, ho, hcon.1, hcon.2⟩
  | write p b =>
    refine .inr ⟨_, (Option.some.inj hs).symm, h.of_open (FS.open_append b).mpr fun n => ?_⟩
    exact FS.mem_children_append b
  | delete name =>
    simp only [step] at hs
    split at hs
    · exact .inl (Option.some.inj hs).symm
    · rename_i b fs hr
      refine .inr ⟨fs, (Option.some.inj hs).symm, ?_⟩
      rcases FS.remove_cases hr with ⟨rfl, -, -⟩ | ⟨p, hp, hne, rfl, rfl⟩
      · exact h
      · have hnot : ¬ (p.dropLast = dir E ∨ FS.OnWay E.cwd (splitSlash E.user_dir) p) :=
          fun hc => hd ⟨p, _, hp, hr, hc⟩
        simp only [not_or] at hnot
        refine h.of_open (fun ho => (FS.open_erase hne).mpr ⟨ho, hnot.2⟩) fun n => ?_
        exact FS.mem_children_erase hnot.1

/-- A pass over the names `N`. -/
structure Pass (E : ServerEnv) (s : Listing) (N : Name → Prop) : Prop where
  has : Has E s.fs N
  ever : ∀ n, n ∈ s.ever ↔ N n
  always : ∀ n, n ∈ s.always ↔ N n
  seen : ∀ n ∈ s.seen, N n
  nodup : s.seen.Nodup

/-- A list without repetitions of just these names. -/
def Exactly (ns : List Name) (N : Name → Prop) : Prop := ns.Nodup ∧ ∀ n, n ∈ ns ↔ N n

theorem Exactly.perm {ns ms : List Name} {N : Name → Prop} (h1 : Exactly ns N) (h2 : Exactly ms N) :
    ns.Perm ms :=
  (List.perm_ext_iff_of_nodup h1.1 h2.1).mpr fun n => (h1.2 n).trans (h2.2 n).symm

theorem Pass.begin {s : Listing} {N : Name → Prop} {ns : List Name} {pc : ListPc} (h : Has E s.fs N)
    (hl : s.fs.list E.cwd E.user_dir = .ok ns) :
    Pass E { s with pc := pc, seen := [], ever := ns, always := ns } N := by
  have hns : ∀ n, n ∈ ns ↔ N n := by
    rw [FS.list_children hl]
    exact h.2
  exact ⟨h, hns, hns, by simp, .nil⟩

theorem Pass.next {s : Listing} {N : Name → Prop} (h : Pass E s N) {n : Name} (he : n ∈ s.ever)
    (hs : n ∉ s.seen) : Pass E { s with seen := s.seen ++ [n] } N where
  has := h.has
  ever := h.ever
  always := h.always
  seen m hm := by
    rcases List.mem_append.mp hm with hm | hm
    · exact h.seen m hm
    · rw [List.mem_singleton.mp hm]
      exact (h.ever n).mp he
  nodup := by
    refine List.Nodup.append h.nodup (List.nodup_singleton n) ?_
    simpa [List.Disjoint] using fun m hm => ne_of_mem_of_not_mem hm hs

theorem Pass.changed {s : Listing} {N : Name → Prop} (h : Pass E s N) {fs : FS} (hf : Has E fs N) :
    Pass E (s.changed E fs) N where
  has := hf
  ever n := by simp [Listing.changed, h.ever, hf.2]
  always n := by simp [Listing.changed, h.always, hf.2]
  seen := h.seen
  nodup := h.nodup

/-- It has seen them all. -/
theorem Pass.finish {s : Listing} {N : Name → Prop} (h : Pass E s N) (ha : ∀ n ∈ s.always, n ∈ s.seen) :
    Exactly s.seen N :=
  ⟨h.nodup, fun n => ⟨h.seen n, fun hn => ha n ((h.always n).mpr hn)⟩⟩

/-- Where the handler is with a list of the names `N`. -/
def At (E : ServerEnv) (s : Listing) (N : Name → Prop) : Prop :=
  match s.pc with
  | .start => False
  | .counting => Pass E s N
  | .counted => Has E s.fs N ∧ Exactly s.first N
  | .naming => Pass E s N ∧ Exactly s.first N
  | .done => Exactly s.seen N ∧ Exactly s.first N
  | .threw _ => False

theorem At.changed {s : Listing} {N : Name → Prop} (h : At E s N) {fs : FS}
    (hf : s.pc ≠ .done → Has E fs N) : At E (s.changed E fs) N := by
  unfold At at h ⊢
  have hpc : (s.changed E fs).pc = s.pc := rfl
  rw [hpc]
  cases hc : s.pc with
  | start => simp [hc] at h
  | counting =>
    simp only [hc] at h ⊢
    exact h.changed (hf (by simp [hc]))
  | counted =>
    simp only [hc] at h ⊢
    exact ⟨hf (by simp [hc]), h.2⟩
  | naming =>
    simp only [hc] at h ⊢
    exact ⟨h.1.changed (hf (by simp [hc])), h.2⟩
  | done =>
    simp only [hc] at h ⊢
    exact h
  | threw e => simp [hc] at h

/-- While a pass or the time between the passes lasts, the names are `N`. -/
theorem At.has {s : Listing} {N : Name → Prop} (h : At E s N) (hd : s.pc ≠ .done) : Has E s.fs N := by
  unfold At at h
  cases hc : s.pc with
  | start => simp [hc] at h
  | counting =>
    simp only [hc] at h
    exact h.has
  | counted =>
    simp only [hc] at h
    exact h.1
  | naming =>
    simp only [hc] at h
    exact h.1.has
  | done => exact absurd hc hd
  | threw e => simp [hc] at h

theorem At.pc_ne_start {s : Listing} {N : Name → Prop} (h : At E s N) : s.pc ≠ .start := by
  intro hc
  simp [At, hc] at h

/-- The first pass begins. -/
theorem at_first {s s' : Listing} (hpc : s.pc = .start) {ns : List Name}
    (hl : s.fs.list E.cwd E.user_dir = .ok ns) (hs : s.step E .openDir = some s') : At E s' (· ∈ ns) := by
  simp only [step, hpc, true_or, if_true, hl, Option.some.injEq] at hs
  subst hs
  refine Pass.begin ⟨⟨ns, hl⟩, fun n => ?_⟩ hl
  rw [FS.list_children hl]
  rfl

theorem At.step {s s' : Listing} {a : ListAct} {N : Name → Prop} (h : At E s N) (hst : s.Steady E a)
    (hs : s.step E a = some s') : At E s' N := by
  have hstart := h.pc_ne_start
  have hother : (∀ n, a ≠ .openDir ∧ a ≠ .next n ∧ a ≠ .endDir) → At E s' N := by
    intro ha
    by_cases hd : s.pc = .done
    · rcases step_other_fs hs ha with rfl | ⟨fs, rfl⟩
      · exact h
      · exact h.changed fun hne => absurd hd hne
    · rcases step_other (h.has hd) (hst.1 ⟨hstart, hd⟩) hs ha with rfl | ⟨fs, rfl, hf⟩
      · exact h
      · exact h.changed fun _ => hf
  cases a with
  | upload name => exact hother (by simp)
  | write p b => exact hother (by simp)
  | delete name => exact hother (by simp)
  | openDir =>
    simp only [Listing.step] at hs
    split at hs
    · rename_i hpc
      have hc : s.pc = .counted := hpc.resolve_left hstart
      have hcc : Has E s.fs N ∧ Exactly s.first N := by simpa [At, hc] using h
      obtain ⟨ns, hl⟩ := hcc.1.1
      rw [hl] at hs
      cases hs
      exact ⟨Pass.begin hcc.1 hl, hcc.2⟩
    · cases hs
  | next n =>
    simp only [Listing.step] at hs
    split at hs
    · rename_i hx
      obtain ⟨hpc, he, hn⟩ := hx
      cases hs
      rcases hpc with hc | hc
      · have hp : Pass E s N := by simpa [At, hc] using h
        simpa [At, hc] using hp.next he hn
      · have hp : Pass E s N ∧ Exactly s.first N := by simpa [At, hc] using h
        simpa [At, hc] using And.intro (hp.1.next he hn) hp.2
    · cases hs
  | endDir =>
    simp only [Listing.step] at hs
    split at hs
    · rename_i hall
      split at hs
      · rename_i hc
        cases hs
        have hp : Pass E s N := by simpa [At, hc] using h
        exact ⟨hp.has, hp.finish hall⟩
      · rename_i hc
        cases hs
        have hp : Pass E s N ∧ Exactly s.first N := by simpa [At, hc] using h
        exact ⟨hp.1.finish hall, hp.2⟩
      · cases hs
    · cases hs

/-- In every state: the list has not begun, or it is one of names the client can
take. -/
def Follows (E : ServerEnv) (s : Listing) : Prop :=
  s.pc = .start ∨ ∃ ns : List Name, ns.Nodup ∧ ns.length < 2 ^ 31 ∧ (∀ n ∈ ns, n.length ≤ 253) ∧
    At E s (· ∈ ns)

theorem follows_step {s s' : Listing} {a : ListAct} (h : Follows E s) (hst : s.Steady E a)
    (hs : s.step E a = some s') : Follows E s' := by
  rcases h with hpc | ⟨ns, hnd, hlt, hfit, hat⟩
  · by_cases ha : a = .openDir
    · subst ha
      obtain ⟨ns, hl, hlt, hfit⟩ := hst.2 rfl hpc
      refine .inr ⟨ns, ?_, hlt, hfit, at_first hpc hl hs⟩
      rw [FS.list_children hl]
      exact FS.children_nodup _ _
    · left
      cases a with
      | openDir => exact absurd rfl ha
      | next n => simp [Listing.step, hpc] at hs
      | endDir => simp [Listing.step, hpc] at hs
      | upload _ | write _ _ | delete _ =>
        rcases step_other_fs hs (by simp) with rfl | ⟨fs, rfl⟩
        · exact hpc
        · exact hpc
  · exact .inr ⟨ns, hnd, hlt, hfit, hat.step hst hs⟩

theorem follows_reachable {s : Listing} (hr : ((lts E).during (Steady E)).Reachable s) : Follows E s := by
  induction hr with
  | init h => exact .inl h
  | step _ h ih => exact follows_step ih h.2 h.1

end Listing

/-! ## What the client gets -/

/-- The handler behind the first pass, with what its passes have yielded.
mirrors src/server/read_write_handlers.cpp:308-323 -/
def lffsYields (E : ServerEnv) (act : Nat) (first second : List Name) : Server (Except Errno Int) := do
  E.freshNonce
  E.sendSession ⟨act, .listCount⟩ (i32Enc first.length)
  E.sendNames act 0 second
  return .ok 0

section
variable {E : ServerEnv} {C : ClientEnv}

theorem runs_lffsYields (act : Nat) (first second : List Name) (st : FsOperator) :
    ∃ (st' : FsOperator) (n0 : Bytes) (nonce : Nat → Bytes), n0.length = 8 ∧ (∀ i, (nonce i).length = 8) ∧
      Runs (lffsYields E act first second) ⟨st, [], false, [], []⟩ (.ok 0)
        ⟨st', [], false, .snd ⟨act, .listCount⟩ (frame E.na.aead E.server_tx n0 (i32Enc first.length)) ::
          nameEvs E.na.aead E.server_tx act nonce 0 second, []⟩ := by
  let n0 : Bytes := sodiumIncrement (fit AEAD_NPUBBYTES (E.host.rand st.draws))
  obtain ⟨st', -, -, hr⟩ := ServerEnv.runs_sendNames (E := E)
    { st with nonce := n0, draws := st.draws + 1 } [] false
    [.snd ⟨act, .listCount⟩ (frame E.na.aead E.server_tx n0 (i32Enc first.length))]
    act (st.draws + 1) second 0 rfl
  refine ⟨st', n0, fun i => sodiumIncrement (fit AEAD_NPUBBYTES (E.host.rand (st.draws + 1 + i))),
    sodiumIncrement_length _, fun i => sodiumIncrement_length _, ?_⟩
  refine Runs.bind (ServerEnv.runs_freshNonce st [] false []) ?_
  refine Runs.bind (ServerEnv.runs_sendSession _ [] false [] _ _) ?_
  refine Runs.bind hr ?_
  simp

/-- With nobody else about, both passes yield the same. -/
theorem lffsYields_alone (act : Nat) {st : FsOperator} {ns : List Name}
    (hl : st.fs.list E.cwd E.user_dir = .ok ns) :
    ∃ w, Runs (E.lffsHandlerServer act) ⟨st, [], false, [], []⟩ (.ok 0) w ∧
      Runs (lffsYields E act ns ns) ⟨st, [], false, [], []⟩ (.ok 0) w := by
  let n0 : Bytes := sodiumIncrement (fit AEAD_NPUBBYTES (E.host.rand st.draws))
  obtain ⟨st', -, -, hr⟩ := ServerEnv.runs_sendNames (E := E)
    { st with nonce := n0, draws := st.draws + 1 } [] false
    [.snd ⟨act, .listCount⟩ (frame E.na.aead E.server_tx n0 (i32Enc ns.length))]
    act (st.draws + 1) ns 0 rfl
  have hok : ∀ w, Runs (pure (.ok 0) : Server (Except Errno Int)) w (.ok 0) w :=
    fun w => (runs_pure _ _ _ _).mpr ⟨rfl, rfl⟩
  refine ⟨_, ?_, Runs.bind (ServerEnv.runs_freshNonce st [] false [])
    (Runs.bind (ServerEnv.runs_sendSession _ [] false [] _ _) (Runs.bind hr (hok _)))⟩
  refine Runs.read_bind ?_
  simp only [hl]
  refine Runs.bind (ServerEnv.runs_freshNonce st [] false []) ?_
  refine Runs.bind (ServerEnv.runs_sendSession _ [] false [] _ _) ?_
  refine Runs.read_bind ?_
  simp only [hl]
  exact Runs.bind hr (hok _)

/-- As many names as were announced, and the client reads the answer to its end. -/
structure InStep (C : ClientEnv) (E : ServerEnv) (s : Listing) : Prop where
  ran : ∀ e, s.pc ≠ .threw e
  count : s.pc = .done → (s.seen.length : Int) = i32Dec (i32Enc s.first.length)
  consumed : s.pc = .done → ∀ act st cst rest e h, ∃ st' evs cst' h',
    Runs (lffsYields E act s.first s.seen) ⟨st, [], false, [], []⟩ (.ok 0) ⟨st', [], false, evs, []⟩ ∧
    Runs (C.lffsHandler act) ⟨cst, sent evs ++ rest, e, h, []⟩ 0 ⟨cst', rest, e, h', []⟩

/-- In every run in which nobody disturbs the two passes. -/
theorem listing_in_step (hL : Linked C E) {s : Listing}
    (hr : ((Listing.lts E).during (Listing.Steady E)).Reachable s) : InStep C E s := by
  rcases Listing.follows_reachable hr with hpc | ⟨ns, hnd, hlt, hfit, hat⟩
  · exact ⟨by simp [hpc], by simp [hpc], by simp [hpc]⟩
  · have hdone : s.pc = .done → Listing.Exactly s.seen (· ∈ ns) ∧ Listing.Exactly s.first (· ∈ ns) := by
      intro hpc
      simpa [Listing.At, hpc] using hat
    have hcount : s.pc = .done → (s.seen.length : Int) = i32Dec (i32Enc s.first.length) := by
      intro hpc
      obtain ⟨hseen, hfirst⟩ := hdone hpc
      have hns : Listing.Exactly ns (· ∈ ns) := ⟨hnd, fun _ => Iff.rfl⟩
      have h1 := (hseen.perm hns).length_eq
      have h2 := (hfirst.perm hns).length_eq
      rw [i32Dec_i32Enc (by omega) (by omega)]
      omega
    refine ⟨fun e hpc => by simp [Listing.At, hpc] at hat, hcount, fun hpc act st cst rest e h => ?_⟩
    obtain ⟨hseen, -⟩ := hdone hpc
    obtain ⟨st', n0, nonce, hn0, hn, hserver⟩ := runs_lffsYields (E := E) act s.first s.seen st
    have hnames : ∀ n ∈ s.seen, (n ++ [0]).length ≤ MAX_FILE_NAME_LENGTH - 1 :=
      fun n hn => (ClientEnv.name_fits_iff n).mpr (hfit n ((hseen.2 n).mp hn))
    have hlen : s.seen.length = (i32Dec (i32Enc s.first.length)).toNat := by
      have hc := hcount hpc
      omega
    have hclient := ClientEnv.runs_lffs_fit (C := C) cst rest e h act hn0 hn hnames hlen
    rw [← List.append_assoc, ← hL.na, ← hL.down] at hclient
    exact ⟨st', _, _, _, hserver, hclient⟩

end

/-! ## Runs -/

namespace Listing

/-- Steps that are seen to be steady: no upload and no delete. -/
def quiet (E : ServerEnv) (s : Listing) : ListAct → Bool
  | .upload _ | .delete _ => false
  | .openDir =>
    s.pc ≠ .start || match s.fs.list E.cwd E.user_dir with
      | .ok ns => ns.length < 2 ^ 31 && ns.all fun n => n.length ≤ 253
      | .error _ => false
  | _ => true

theorem quiet_steady {E : ServerEnv} {s : Listing} {a : ListAct} (h : quiet E s a = true) : s.Steady E a := by
  refine ⟨fun _ hd => ?_, fun ha hpc => ?_⟩
  · cases a with
    | upload _ | delete _ => cases h
    | openDir | next _ | endDir | write _ _ => exact hd
  · subst ha
    simp only [quiet, hpc, ne_eq, not_true_eq_false, decide_false, Bool.false_or] at h
    cases hl : s.fs.list E.cwd E.user_dir with
    | error e => simp [hl] at h
    | ok ns =>
      simp only [hl, Bool.and_eq_true, decide_eq_true_eq, List.all_eq_true] at h
      exact ⟨ns, rfl, h.1, h.2⟩

end Listing

/-- Alice's directory with a file in it. -/
def aliceOne : FS := aliceDir.fs.insert [mefS, alice, [97] ++ ext] (.file [7])

/-- A list of it, with a write to the file between the passes. -/
def quietRun : List ListAct :=
  [.openDir, .next ([97] ++ ext), .endDir, .write [mefS, alice, [97] ++ ext] [8], .openDir,
    .next ([97] ++ ext), .endDir]

theorem listing_in_step_alice :
    ∃ s : Listing, s.pc = .done ∧ s.seen = [[97] ++ ext] ∧ InStep aliceClient aliceServer s := by
  have hrun : (quietRun.foldlM (LTS.guarded (Listing.quiet aliceServer) (Listing.step aliceServer))
      ⟨aliceOne, .start, [], [], [], []⟩).map (fun s => (s.pc, s.seen)) = some (.done, [[97] ++ ext]) := by
    decide +kernel
  obtain ⟨s, hs, hx⟩ := Option.map_eq_some_iff.mp hrun
  simp only [Prod.mk.injEq] at hx
  have hinit : (Listing.lts aliceServer).init ⟨aliceOne, .start, [], [], [], []⟩ := rfl
  have hr : ((Listing.lts aliceServer).during (Listing.Steady aliceServer)).Reachable s :=
    LTS.Reachable.guarded (fun _ _ => Listing.quiet_steady) (fun _ _ _ h => h) (.init hinit) hs
  exact ⟨s, hx.1, hx.2, listing_in_step alice_linked hr⟩

/-- Another session uploads a file behind the first pass over an empty directory. -/
def uploadRun : List ListAct :=
  [.openDir, .endDir, .upload ([97] ++ ext), .openDir, .next ([97] ++ ext), .endDir]

/-- No name is announced and one is sent. -/
theorem upload_between_passes : ∃ s : Listing, (Listing.lts aliceServer).Reachable s ∧ s.pc = .done ∧
    (s.seen.length : Int) ≠ i32Dec (i32Enc s.first.length) := by
  have hrun : (uploadRun.foldlM (Listing.step aliceServer) ⟨aliceDir.fs, .start, [], [], [], []⟩).map
      (fun s => (s.pc, s.first.length, s.seen.length)) = some (.done, 0, 1) := by decide +kernel
  obtain ⟨s, hs, hx⟩ := Option.map_eq_some_iff.mp hrun
  simp only [Prod.mk.injEq] at hx
  have hinit : (Listing.lts aliceServer).init ⟨aliceDir.fs, .start, [], [], [], []⟩ := rfl
  refine ⟨s, LTS.Reachable.foldlM (fun _ _ _ h => h) (.init hinit) hs, hx.1, ?_⟩
  rw [hx.2.1, hx.2.2]
  decide

end Mefsc.L5
