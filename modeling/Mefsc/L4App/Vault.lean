import Mefsc.L4App.Connection
import Mefsc.L4App.Isolation
import Mefsc.L4App.Refinement

/-!
# An account over many connections

What the program is for, in the user's terms: a `Desk` is the files of the machine at
hand and the plain contents of what was stored, and `Desk.perform` is what an action
does with it. No key, frame or block is in it.

`Kept` ties it to the server: a stored file is header, salt and blocks under a key
that the password and this salt give. `visits_refine`: a user who comes back any
number of times, each time with other session keys and from any machine, finds what
the desk says, on every schedule of every connection and whatever is done outside the
user's directory in between. A visit with a password the server does not take changes
nothing. `upload_comes_back` is what this says of one file.
-/
namespace Mefsc.L4

open L1 L1.SessionEncWrapper L2 L3
open Proc hiding ret recv send act iter bind bind_assoc
open Net hiding MutualWait

/-! ## The user's side of it -/

/-- The files of the machine, and what is stored by the name it is listed under. -/
structure Desk where
  files : FS
  vault : Store

namespace Desk

variable (cwd : Path)

def perform (d : Desk) (a : UserAction) : Desk :=
  if a.intention = WRITE_TO_FILESYSTEM then
    match d.files.openRead cwd a.file_name with
    | some src => { d with vault := Function.update d.vault (a.file_name ++ ext) (some src.bytes) }
    | none => d
  else if a.intention = READ_FROM_FILESYSTEM then
    match d.vault a.file_name with
    | some c => { d with files := d.files.stored cwd (a.file_name.take (a.file_name.length - 4)) c }
    | none => d
  else if a.intention = DELETE_FILE then
    { d with vault := Function.update d.vault a.file_name none }
  else d

/-- What the user may ask for at this desk. -/
structure Fits (d : Desk) (a : UserAction) : Prop where
  known : ClientEnv.Known a.intention
  write : a.intention = WRITE_TO_FILESYSTEM → Storable a.file_name ∧
    ∀ src, d.files.openRead cwd a.file_name = some src → src.bad = false
  read : a.intention = READ_FROM_FILESYSTEM → (d.vault a.file_name).isSome
  list : a.intention = LIST_FILES → ∀ ns : List Name, ns.Nodup → (∀ n ∈ ns, (d.vault n).isSome) →
    ns.length < 2 ^ 31
  delete : a.intention = DELETE_FILE → Plain a.file_name ∧ a.file_name.length ≤ 249

/-- What an action prints. -/
inductive Shows (d : Desk) (a : UserAction) : List Shown → Prop where
  | quiet (ha : a.intention = WRITE_TO_FILESYSTEM ∨ a.intention = READ_FROM_FILESYSTEM) : Shows d a []
  | list {ns : List Name} (ha : a.intention = LIST_FILES) (hnodup : ns.Nodup)
      (hns : ∀ n, n ∈ ns ↔ (d.vault n).isSome) : Shows d a (.storedFiles ns.length :: ns.map .name)
  | delete (ha : a.intention = DELETE_FILE) :
      Shows d a [if (d.vault a.file_name).isSome then .deleted else .failedToDelete]

/-- What the actions print, one after the other. -/
inductive Prints : Desk → List UserAction → List Shown → Prop where
  | nil (d : Desk) : Prints d [] []
  | cons {d : Desk} {a : UserAction} {as : List UserAction} {xs ys : List Shown} (ha : d.Shows a xs)
      (has : Prints (d.perform cwd a) as ys) : Prints d (a :: as) (xs ++ ys)

/-- Every action fits the desk it finds. -/
def AllFit : Desk → List UserAction → Prop
  | _, [] => True
  | d, a :: as => d.Fits cwd a ∧ AllFit (d.perform cwd a) as

variable {cwd} {d : Desk} {a : UserAction}

theorem perform_read {c : Bytes} (ha : a.intention = READ_FROM_FILESYSTEM) (hc : d.vault a.file_name = some c) :
    d.perform cwd a =
      { d with files := d.files.stored cwd (a.file_name.take (a.file_name.length - 4)) c } := by
  simp [perform, ha, hc, READ_FROM_FILESYSTEM, WRITE_TO_FILESYSTEM]

theorem perform_list (ha : a.intention = LIST_FILES) : d.perform cwd a = d := by
  simp [perform, ha, LIST_FILES, READ_FROM_FILESYSTEM, WRITE_TO_FILESYSTEM, DELETE_FILE]

theorem perform_delete (ha : a.intention = DELETE_FILE) :
    d.perform cwd a = { d with vault := Function.update d.vault a.file_name none } := by
  simp [perform, ha, READ_FROM_FILESYSTEM, WRITE_TO_FILESYSTEM, DELETE_FILE]

end Desk

/-! ## What is kept -/

/-- `m` holds the contents of `v`, each under a key of its own. -/
def Kept (na : Sodium) (password : Bytes) (v m : Store) : Prop :=
  ∀ n, (v n = none → m n = none) ∧ ∀ c, v n = some c → ∃ p r salt, Storable p ∧ n = p ++ ext ∧
    salt.length = PWHASH_SALTBYTES ∧ m n = some (storedFile na.ss r (na.pwhash password salt) salt c)

section
variable {na : Sodium} {password : Bytes} {v m : Store}

theorem kept_empty (na : Sodium) (password : Bytes) : Kept na password (fun _ => none) fun _ => none :=
  fun _ => ⟨fun _ => rfl, fun _ h => by cases h⟩

theorem Kept.isSome (h : Kept na password v m) (n : Name) : (m n).isSome = (v n).isSome := by
  cases hv : v n with
  | none => rw [(h n).1 hv]
  | some c =>
    obtain ⟨p, r, salt, -, -, -, hm⟩ := (h n).2 c hv
    rw [hm]
    rfl

/-- What is listed can be shown. -/
theorem Kept.short_name (h : Kept na password v m) {n : Name} (hv : (v n).isSome) :
    n.length ≤ 249 ∧ (0 : UInt8) ∉ n := by
  obtain ⟨c, hc⟩ := Option.isSome_iff_exists.mp hv
  obtain ⟨p, -, -, hp, rfl, -⟩ := (h n).2 c hc
  refine ⟨?_, hp.plain.noNul⟩
  have := hp.short
  simp only [ext, List.length_append, List.length_cons, List.length_nil]
  omega

theorem Kept.update (h : Kept na password v m) {p : Name} (hp : Storable p) {c r salt : Bytes}
    (hs : salt.length = PWHASH_SALTBYTES) :
    Kept na password (Function.update v (p ++ ext) (some c))
      (Function.update m (p ++ ext) (some (storedFile na.ss r (na.pwhash password salt) salt c))) := by
  intro n
  by_cases hn : n = p ++ ext
  · subst hn
    rw [Function.update_self, Function.update_self]
    refine ⟨fun hc => (by cases hc), fun c' hc => ?_⟩
    cases hc
    exact ⟨p, r, salt, hp, rfl, hs, rfl⟩
  · rw [Function.update_of_ne hn, Function.update_of_ne hn]
    exact h n

theorem Kept.erase (h : Kept na password v m) (n : Name) :
    Kept na password (Function.update v n none) (Function.update m n none) := by
  intro n'
  by_cases hn : n' = n
  · subst hn
    rw [Function.update_self, Function.update_self]
    exact ⟨fun _ => rfl, fun c hc => by cases hc⟩
  · rw [Function.update_of_ne hn, Function.update_of_ne hn]
    exact h n'

end

/-! ## One action -/

/-- The client has the files of the desk, and the server what is kept of its vault. -/
structure Matches (C : ClientEnv) (E : ServerEnv) (d : Desk) (cst : ClientState) (sst : FsOperator) : Prop where
  files : cst.fs = d.files
  vault : ∃ m, Kept C.na C.password d.vault m ∧ sst.fs.Holds E.cwd E.user_dir m

/-- The session does `a` as it is done with the desk. -/
def Does (C : ClientEnv) (E : ServerEnv) (k : Nat) (a : UserAction) (as : List UserAction) (cst : ClientState)
    (sst : FsOperator) (hl hr : List (Ev Role)) (d : Desk) : Prop :=
  ∃ cst' sst' evl evr xs,
    Reach (idle C E k k (a :: as) cst sst hl hr) (idle C E (k + 1) (k + 1) as cst' sst' (hl ++ evl) (hr ++ evr)) ∧
    Matches C E (d.perform C.cwd a) cst' sst' ∧ d.Shows a xs ∧ cst'.shown = cst.shown ++ xs

section
variable {C : ClientEnv} {E : ServerEnv} {k : Nat} {a : UserAction} {cst : ClientState} {sst : FsOperator} {d : Desk}
  (hL : Linked C E) (hM : Matches C E d cst sst) (as : List UserAction) (hl hr : List (Ev Role))

include hL hM

theorem does_upload (hoom : ∀ n, C.host.oom n = false) (ha : a.intention = WRITE_TO_FILESYSTEM)
    (hF : d.Fits C.cwd a) : Does C E k a as cst sst hl hr d := by
  obtain ⟨hn, hreg⟩ := hF.write ha
  obtain ⟨m, hK, hH⟩ := hM.vault
  cases ho : d.files.openRead C.cwd a.file_name with
  | none =>
    obtain ⟨cst', sst', evl, evr, hsame, hfs, -, -, h⟩ := turn_upload_missing hL k k as cst sst hl hr ha
      (by rw [hM.files]; exact ho)
    have hd : d.perform C.cwd a = d := by simp [Desk.perform, ha, ho]
    refine ⟨cst', sst', evl, evr, [], h, ?_, .quiet (.inl ha), by rw [List.append_nil, hsame.shown]⟩
    rw [hd]
    exact ⟨hsame.fs.trans hM.files, m, hK, hfs ▸ hH⟩
  | some src =>
    obtain ⟨c, bad⟩ := src
    obtain rfl : bad = false := hreg _ ho
    have hfits : a.file_name.length ≤ PRE_EXT_FILE_NAME_LEN := by
      have := hn.short
      unfold PRE_EXT_FILE_NAME_LEN
      omega
    obtain ⟨cst', sst', evl, evr, r, key, salt, n1, n2, nonce, nonce', hsalt, hkey, hsame, hfs, -, -, -, h⟩ :=
      turn_upload hL k k as cst sst hl hr ha (by rw [hM.files]; exact ho) hfits
    obtain rfl := hkey (hoom _)
    rw [cstr_of_noNul hn.noNul] at hfs
    have hd : d.perform C.cwd a =
        { d with vault := Function.update d.vault (a.file_name ++ ext) (some c) } := by
      simp [Desk.perform, ha, ho]
    refine ⟨cst', sst', evl, evr, [], h, ?_, .quiet (.inl ha), by rw [List.append_nil, hsame.shown]⟩
    rw [hd]
    refine ⟨hsame.fs.trans hM.files, _, hK.update (r := r) hn hsalt, ?_⟩
    rw [hfs]
    exact FS.Holds.stored hH hn.plain _

theorem does_download (hS : C.na.ss.Correct) (hoom : ∀ n, C.host.oom n = false)
    (ha : a.intention = READ_FROM_FILESYSTEM) (hF : d.Fits C.cwd a) : Does C E k a as cst sst hl hr d := by
  obtain ⟨m, hK, hH⟩ := hM.vault
  obtain ⟨c, hc⟩ := Option.isSome_iff_exists.mp (hF.read ha)
  obtain ⟨p, r, salt, hp, hname, hsalt, hB⟩ := (hK a.file_name).2 c hc
  have hplain : Plain a.file_name := hname ▸ hp.plain
  have ho := FS.Holds.openRead hH hplain
  rw [hB] at ho
  have h4 : ¬ a.file_name.length < 4 := by simp [hname, ext]
  have hfits : (a.file_name ++ [0]).length ≤ PRE_EXT_FILE_NAME_LEN := by
    rw [hname]
    exact (enc_fits p).mpr hp.short
  rw [← cstr_of_noNul hplain.noNul] at ho
  obtain ⟨cst', sst', evl, evr, s, nonce, m1, m2, hi, hshown, hfiles, hfs, -, -, -, h⟩ :=
    turn_download_pulled hL k k as cst sst hl hr ha h4 hfits ho (hoom _) (readable_stored hS r c hsalt)
  -- what the client pulls is what was pushed
  rw [sentHeader_stored, sentSalt_stored _ _ _ _ _ hsalt, hS.init] at hi
  obtain rfl := Option.some.inj hi
  rw [sentChunks_stored _ _ _ _ hsalt, (pulled_pushAll hS _ _).2, cut_flatten chunk_size_pos] at hfiles
  refine ⟨cst', sst', evl, evr, [], h, ?_, .quiet (.inr ha), by rw [List.append_nil, hshown]⟩
  rw [Desk.perform_read ha hc]
  exact ⟨by rw [hfiles, hM.files], m, hK, hfs ▸ hH⟩

theorem does_list (ha : a.intention = LIST_FILES) (hF : d.Fits C.cwd a) : Does C E k a as cst sst hl hr d := by
  obtain ⟨m, hK, hH⟩ := hM.vault
  obtain ⟨ns, ho, hnodup, hns⟩ := hH.list
  have hmem : ∀ n, n ∈ ns ↔ (d.vault n).isSome := by
    intro n
    rw [hns, hK.isSome]
  have hname : ∀ n ∈ ns, n.length ≤ 249 ∧ (0 : UInt8) ∉ n := fun n hn => hK.short_name ((hmem n).mp hn)
  have hfits : ∀ n ∈ ns, (n ++ [0]).length ≤ MAX_FILE_NAME_LENGTH - 1 := by
    intro n hn
    rw [ClientEnv.name_fits_iff]
    have := (hname n hn).1
    omega
  have hcount := hF.list ha ns hnodup fun n hn => (hmem n).mp hn
  have hlist : Listable ns :=
    ⟨hcount, fun n hn => (hfits n hn).trans (by decide), fun n hn => hfits n (List.dropLast_subset _ hn)⟩
  obtain ⟨cst', sst', evl, evr, hfiles, hshown, hfs, -, -, h⟩ := turn_list hL k k as cst sst hl hr ha ho hlist
  have hcstr : (ns.map fun n => Shown.name (cstr n)) = ns.map Shown.name :=
    List.map_congr_left fun n hn => by rw [cstr_of_noNul (hname n hn).2]
  refine ⟨cst', sst', evl, evr, _, h, ?_, .list ha hnodup hmem, by rw [hshown hfits, hcstr]⟩
  rw [Desk.perform_list ha]
  exact ⟨hfiles.trans hM.files, m, hK, hfs ▸ hH⟩

theorem does_delete (ha : a.intention = DELETE_FILE) (hF : d.Fits C.cwd a) :
    Does C E k a as cst sst hl hr d := by
  obtain ⟨m, hK, hH⟩ := hM.vault
  obtain ⟨hn, hshort⟩ := hF.delete ha
  have hfits : (a.file_name ++ [0]).length ≤ PRE_EXT_FILE_NAME_LEN := by
    unfold PRE_EXT_FILE_NAME_LEN
    simp only [List.length_append, List.length_singleton]
    omega
  obtain ⟨fs', hremove, hH'⟩ := FS.Holds.remove hH hn
  have ho : sst.fs.remove E.cwd (E.user_dir ++ cstr a.file_name) = .ok ((m a.file_name).isSome, fs') := by
    rw [cstr_of_noNul hn.noNul]
    exact hremove
  obtain ⟨cst', sst', evl, evr, nonce, hfiles, hshown, hfs, -, -, -, h⟩ :=
    turn_delete hL k k as cst sst hl hr ha hfits ho
  refine ⟨cst', sst', evl, evr, _, h, ?_, .delete ha, by rw [hshown, hK.isSome]⟩
  rw [Desk.perform_delete ha]
  exact ⟨hfiles.trans hM.files, _, hK.erase _, hfs ▸ hH'⟩

theorem does_action (hS : C.na.ss.Correct) (hoom : ∀ n, C.host.oom n = false) (hF : d.Fits C.cwd a) :
    Does C E k a as cst sst hl hr d := by
  rcases hF.known with ha | ha | ha | ha
  · exact does_download hL hM as hl hr hS hoom ha hF
  · exact does_upload hL hM as hl hr hoom ha hF
  · exact does_list hL hM as hl hr ha hF
  · exact does_delete hL hM as hl hr ha hF

end

/-! ## One session -/

section
variable {C : ClientEnv} {E : ServerEnv} (hL : Linked C E) (hS : C.na.ss.Correct) (hoom : ∀ n, C.host.oom n = false)

include hL hS hoom

theorem idle_does (as : List UserAction) (k : Nat) (cst : ClientState) (sst : FsOperator) (hl hr : List (Ev Role))
    (d : Desk) (hM : Matches C E d cst sst) (hF : d.AllFit C.cwd as) :
    ∃ cst' sst' hl' hr' xs, Reach (idle C E k k as cst sst hl hr)
        ⟨⟨pure (.returned 0), cst', [], hl'⟩, ⟨pure .closed, sst', [], hr'⟩⟩ ∧
      Matches C E (as.foldl (Desk.perform C.cwd) d) cst' sst' ∧ Desk.Prints C.cwd d as xs ∧
      cst'.shown = cst.shown ++ xs := by
  induction as generalizing k cst sst hl hr d with
  | nil =>
    obtain ⟨cst', sst', evl, evr, hsame, hfs, -, -, h⟩ := end_session hL k k cst sst hl hr
    refine ⟨cst', sst', _, _, [], h, ⟨hsame.fs.trans hM.files, ?_⟩, .nil d, by rw [List.append_nil, hsame.shown]⟩
    rw [hfs]
    exact hM.vault
  | cons a as ih =>
    obtain ⟨hFa, hFas⟩ := hF
    obtain ⟨cst1, sst1, evl, evr, xs, h, hM1, hxs, hshown⟩ := does_action hL hM as hl hr hS hoom hFa
    obtain ⟨cst', sst', hl', hr', ys, h', hM', hys, hshown'⟩ := ih (k + 1) cst1 sst1 _ _ _ hM1 hFas
    exact ⟨cst', sst', hl', hr', xs ++ ys, h.trans h', hM', .cons hxs hys,
      by rw [hshown', hshown, List.append_assoc]⟩

end

/-! ## Many connections -/

/-- A user of the server. -/
structure Account where
  na : Sodium
  cwd : Path
  username : Bytes
  password : Bytes

namespace Account

variable (A : Account)

def home : Path := A.cwd ++ [mefS, cstr A.username]

def user_dir : Bytes := base_dir ++ cstr A.username ++ [slash]

/-- What the constructor of `FS_Operator` finds or makes holds `s`. -/
def Stored (s : Store) (fs : FS) : Prop :=
  ∃ fs' m, fs.createDirectories A.cwd (splitSlash A.user_dir) = .ok fs' ∧ Kept A.na A.password s m ∧
    fs'.Holds A.cwd A.user_dir m

end Account

/-- A connection of a client: both machines, the session keys, what the user asks for
and what is on the machines. -/
structure Visit where
  H : ClientHost
  S : ServerHost
  up : Bytes
  down : Bytes
  first : UserAction
  more : List UserAction
  cst : ClientState
  wst : WorkerState

namespace Visit

variable (A : Account) (v : Visit)

def actions : List UserAction := v.first :: v.more

def accepted : Bool := v.S.db.accepts (cstr A.username) (v.H.password ++ [0])

def start (fs : FS) : Connection :=
  connecting v.H v.S A.username v.first v.more v.cst { v.wst with op := { v.wst.op with fs := fs } }

/-- The user's desk behind the visit. -/
def leaves (s : Store) : Desk :=
  if v.accepted A then v.actions.foldl (Desk.perform v.H.cwd) ⟨v.cst.fs, s⟩ else ⟨v.cst.fs, s⟩

/-- The two agree on their keys and are not short of memory, and who gets in has the
password of the account. -/
structure Honest : Prop where
  agreed : Agreed v.H v.S v.up v.down
  na : v.H.na = A.na
  cwd : v.S.cwd = A.cwd
  fine : v.S.fails = fun _ => none
  memory : ∀ n, v.H.host.oom n = false
  password : v.accepted A = true → v.H.password = A.password
  short : (v.H.password ++ [0]).length ≤ FILE_ENCRYPTED_CHUNK_SIZE

/-- How the visit ends. -/
structure Ended (s : Store) (t : Connection) : Prop where
  client : t.l.pr = pure (if v.accepted A then .ended (.returned 0) else .unauthenticated)
  server : t.r.pr = pure (if v.accepted A then .served else .refused)
  taken : t.l.inp = [] ∧ t.r.inp = []
  files : t.l.st.fs = (v.leaves A s).files
  shown : ∃ xs, t.l.st.shown = v.cst.shown ++ xs ∧
    if v.accepted A then Desk.Prints v.H.cwd ⟨v.cst.fs, s⟩ v.actions xs else xs = []

end Visit

/-- Each visit finds what those before it have left; outside the user's directory
anything may have changed. -/
def Visited (A : Account) : List Visit → Store → FS → Prop
  | [], s, fs => A.Stored s fs
  | v :: vs, s, fs => ∀ fs', FS.Agree A.home fs fs' →
    ∃ t, Sure (v.start A fs') t ∧ v.Ended A s t ∧ Visited A vs (v.leaves A s).vault t.r.st.op.fs

/-- What is asked for in each visit fits. -/
def Seemly (A : Account) : List Visit → Store → Prop
  | [], _ => True
  | v :: vs, s => (v.accepted A = true → Desk.AllFit v.H.cwd ⟨v.cst.fs, s⟩ v.actions) ∧
    Seemly A vs (v.leaves A s).vault

section
variable {A : Account} {s : Store} {fs : FS}

theorem Account.leads (hu : Plain (cstr A.username)) : FS.Leads A.cwd A.user_dir A.home :=
  Isolation.leads (E := ⟨A.na, ⟨fun _ => [], fun _ => [], fun _ => false⟩, [], [], A.cwd, cstr A.username⟩) hu

theorem Account.Stored.agree (hu : Plain (cstr A.username)) (h : A.Stored s fs) {gs : FS}
    (ha : FS.Agree A.home fs gs) : A.Stored s gs := by
  obtain ⟨fs', m, hd, hK, hH⟩ := h
  have hl := Account.leads hu
  rcases ha.createDirectories (fun ds hds => hl.near ds hds) with ⟨e, he, -⟩ | ⟨fs1, gs1, hfs, hgs, ha'⟩
  · rw [hd] at he
    cases he
  · obtain rfl : fs' = fs1 := by
      rw [hd] at hfs
      exact Except.ok.inj hfs
    exact ⟨gs1, m, hgs, hK, hH.agree hl ha'⟩

theorem Account.Stored.refused {v : Visit} (hname : (A.username ++ [0]).length ≤ FILE_ENCRYPTED_CHUNK_SIZE)
    (hv : v.Honest A) (hacc : v.accepted A = false) (h : A.Stored s fs) :
    ∃ t, Sure (v.start A fs) t ∧ v.Ended A s t ∧ A.Stored (v.leaves A s).vault t.r.st.op.fs := by
  obtain ⟨creds, hl, hr, hreach⟩ := reach_refusal hv.agreed hname hv.short v.first v.more v.cst
    { v.wst with op := { v.wst.op with fs := fs } } hacc
  have hleaves : v.leaves A s = ⟨v.cst.fs, s⟩ := by simp [Visit.leaves, hacc]
  refine ⟨_, hreach.sure, ⟨by rw [hacc]; rfl, by rw [hacc]; rfl, ⟨rfl, rfl⟩, by rw [hleaves]; rfl, [], ?_, ?_⟩, ?_⟩
  · exact (List.append_nil _).symm
  · rw [hacc]
    rfl
  · rw [hleaves]
    exact h

theorem Account.Stored.served (hS : A.na.ss.Correct) {v : Visit}
    (hname : (A.username ++ [0]).length ≤ FILE_ENCRYPTED_CHUNK_SIZE) (hv : v.Honest A)
    (hacc : v.accepted A = true) (h : A.Stored s fs) (hF : Desk.AllFit v.H.cwd ⟨v.cst.fs, s⟩ v.actions) :
    ∃ t, Sure (v.start A fs) t ∧ v.Ended A s t ∧ A.Stored (v.leaves A s).vault t.r.st.op.fs := by
  obtain ⟨fs', m, hd, hK, hH⟩ := h
  let C := v.H.env (v.down, v.up)
  let E := v.S.env ⟨v.up, v.down, cstr A.username⟩
  let wst : WorkerState := { v.wst with op := { v.wst.op with fs := fs } }
  have hL : Linked C E := ⟨hv.agreed.na, rfl, rfl⟩
  obtain ⟨creds, hl, hr, hreach⟩ := reach_opening hv.agreed hname hv.short v.first v.more v.cst wst hv.fine hacc
  have hd' : wst.op.fs.createDirectories E.cwd (splitSlash E.user_dir) = .ok fs' := by
    rw [← hd, ← hv.cwd]
    rfl
  obtain ⟨sst0, hfs0, hopen⟩ := opening_idle (C := C) v.first v.more (offered C v.cst) hd'
  have hM : Matches C E ⟨v.cst.fs, s⟩ (offered C v.cst) sst0 := by
    refine ⟨rfl, m, ?_, ?_⟩
    · rw [show C.na = A.na from hv.na, show C.password = A.password from hv.password hacc]
      exact hK
    · rw [hfs0, show E.cwd = A.cwd from hv.cwd]
      exact hH
  obtain ⟨cst', sst', hl', hr', xs, hdo, hM', hxs, hshown⟩ :=
    idle_does hL (show C.na.ss.Correct by rw [show C.na = A.na from hv.na]; exact hS) hv.memory v.actions 0
      (offered C v.cst) sst0 [] [] _ hM hF
  have hleaves : v.leaves A s = v.actions.foldl (Desk.perform v.H.cwd) ⟨v.cst.fs, s⟩ := by
    simp [Visit.leaves, hacc]
  have hall := hreach.trans (reach_within.mpr ⟨_, hopen.trans hdo, rfl⟩)
  refine ⟨_, hall.sure, ⟨by rw [hacc]; rfl, by rw [hacc]; rfl, ⟨rfl, rfl⟩, ?_, xs, hshown, ?_⟩, ?_⟩
  · rw [hleaves]
    exact hM'.files
  · rw [hacc]
    exact hxs
  · obtain ⟨m', hK', hH'⟩ := hM'.vault
    rw [hleaves]
    rw [show C.na = A.na from hv.na, show C.password = A.password from hv.password hacc] at hK'
    rw [show E.cwd = A.cwd from hv.cwd] at hH'
    exact ⟨sst'.fs, m', hH'.createDirectories, hK', hH'⟩

theorem Account.Stored.visited (hS : A.na.ss.Correct) (hu : Plain (cstr A.username))
    (hname : (A.username ++ [0]).length ≤ FILE_ENCRYPTED_CHUNK_SIZE) (vs : List Visit) (hv : ∀ v ∈ vs, v.Honest A)
    (h : A.Stored s fs) (hF : Seemly A vs s) : Visited A vs s fs := by
  induction vs generalizing s fs with
  | nil => exact h
  | cons v vs ih =>
    intro fs' ha
    have hA := h.agree hu ha
    obtain ⟨hFv, hFvs⟩ := hF
    have hv' := hv v List.mem_cons_self
    have hvs := fun w hw => hv w (List.mem_cons_of_mem v hw)
    cases hacc : v.accepted A with
    | false =>
      obtain ⟨t, ht, hend, hst⟩ := hA.refused hname hv' hacc
      exact ⟨t, ht, hend, ih hvs hst hFvs⟩
    | true =>
      obtain ⟨t, ht, hend, hst⟩ := hA.served hS hname hv' hacc (hFv hacc)
      exact ⟨t, ht, hend, ih hvs hst hFvs⟩

/-- An account from its first visit on. -/
theorem visits_refine (hS : A.na.ss.Correct) (hu : Plain (cstr A.username))
    (hname : (A.username ++ [0]).length ≤ FILE_ENCRYPTED_CHUNK_SIZE) (vs : List Visit) (hv : ∀ v ∈ vs, v.Honest A)
    {fs' : FS} (hd : fs.createDirectories A.cwd (splitSlash A.user_dir) = .ok fs')
    (he : fs'.list A.cwd A.user_dir = .ok []) (hF : Seemly A vs fun _ => none) :
    Visited A vs (fun _ => none) fs := by
  have h : A.Stored (fun _ => none) fs := ⟨fs', _, hd, kept_empty _ _, FS.holds_empty he⟩
  exact h.visited hS hu hname vs hv hF

end

/-! ## What was uploaded comes back -/

/-- The visits one after the other, each on some schedule to its end, and how the last
of them ends. -/
inductive Chain (A : Account) : List Visit → FS → Connection → Prop where
  | last {v : Visit} {fs fs' : FS} {t : Connection} (ha : FS.Agree A.home fs fs') (ht : Reach (v.start A fs') t)
      (hl : t.l.done = true) (hr : t.r.done = true) : Chain A [v] fs t
  | cons {v : Visit} {vs : List Visit} {fs fs' : FS} {t u : Connection} (ha : FS.Agree A.home fs fs')
      (ht : Reach (v.start A fs') t) (hl : t.l.done = true) (hr : t.r.done = true)
      (hu : Chain A vs t.r.st.op.fs u) : Chain A (v :: vs) fs u

/-- What is stored behind the visits. -/
def vaultAfter (A : Account) (vs : List Visit) (s : Store) : Store :=
  vs.foldl (fun s v => (v.leaves A s).vault) s

/-- The action puts something under the name, or takes it away. -/
def Touches (n : Name) (a : UserAction) : Prop :=
  (a.intention = WRITE_TO_FILESYSTEM ∧ a.file_name ++ ext = n) ∨ (a.intention = DELETE_FILE ∧ a.file_name = n)

theorem Visit.Ended.done {A : Account} {v : Visit} {s : Store} {t : Connection} (h : v.Ended A s t) :
    t.l.done = true ∧ t.r.done = true := by
  refine ⟨?_, ?_⟩
  · rw [Party.done, h.client]
    rfl
  · rw [Party.done, h.server]
    rfl

theorem Visit.Ended.stuck {A : Account} {v : Visit} {s : Store} {t : Connection} (h : v.Ended A s t) : t.Stuck :=
  stuck_of_done h.done.1 h.done.2

section
variable {A : Account} {s : Store} {n : Name}

theorem Visited.last {v : Visit} {vs : List Visit} {fs : FS} {u : Connection} (h : Visited A (vs ++ [v]) s fs)
    (hc : Chain A (vs ++ [v]) fs u) : v.Ended A (vaultAfter A vs s) u := by
  induction vs generalizing s fs with
  | nil =>
    cases hc with
    | last ha ht hl hr =>
      obtain ⟨t, hsure, hend, -⟩ := h _ ha
      obtain rfl := done_unique hsure.reach ht hend.stuck (stuck_of_done hl hr)
      exact hend
    | cons _ _ _ _ hu => cases hu
  | cons w vs ih =>
    generalize hvs : vs ++ [v] = ws at hc
    rw [List.cons_append, hvs] at hc h
    cases hc with
    | last => simp at hvs
    | cons ha ht hl hr hu =>
      obtain ⟨t, hsure, hend, hrest⟩ := h _ ha
      obtain rfl := done_unique hsure.reach ht hend.stuck (stuck_of_done hl hr)
      rw [← hvs] at hrest hu
      exact ih hrest hu

theorem Visited.chain {v : Visit} {vs : List Visit} {fs : FS} (h : Visited A (vs ++ [v]) s fs) :
    ∃ u, Chain A (vs ++ [v]) fs u := by
  induction vs generalizing s fs with
  | nil =>
    obtain ⟨t, hsure, hend, -⟩ := h fs rfl
    exact ⟨t, .last rfl hsure.reach hend.done.1 hend.done.2⟩
  | cons w vs ih =>
    obtain ⟨t, hsure, hend, hrest⟩ := h fs rfl
    obtain ⟨u, hu⟩ := ih hrest
    exact ⟨u, .cons rfl hsure.reach hend.done.1 hend.done.2 hu⟩

theorem perform_untouched {cwd : Path} {d : Desk} {a : UserAction} (h : ¬ Touches n a) :
    (d.perform cwd a).vault n = d.vault n := by
  unfold Desk.perform
  split
  · rename_i hw
    split
    · exact Function.update_of_ne (fun hn => h (.inl ⟨hw, hn.symm⟩)) _ _
    · rfl
  split
  · split <;> rfl
  split
  · rename_i hd
    exact Function.update_of_ne (fun hn => h (.inr ⟨hd, hn.symm⟩)) _ _
  · rfl

theorem performAll_untouched {cwd : Path} {as : List UserAction} (h : ∀ a ∈ as, ¬ Touches n a) (d : Desk) :
    (as.foldl (Desk.perform cwd) d).vault n = d.vault n := by
  induction as generalizing d with
  | nil => rfl
  | cons a as ih =>
    rw [List.foldl_cons, ih fun b hb => h b (List.mem_cons_of_mem a hb)]
    exact perform_untouched (h a List.mem_cons_self)

theorem vaultAfter_untouched {vs : List Visit}
    (h : ∀ v ∈ vs, v.accepted A = true → ∀ a ∈ v.actions, ¬ Touches n a) (s : Store) :
    vaultAfter A vs s n = s n := by
  induction vs generalizing s with
  | nil => rfl
  | cons v vs ih =>
    rw [vaultAfter, List.foldl_cons]
    refine (ih (fun w hw => h w (List.mem_cons_of_mem v hw)) _).trans ?_
    unfold Visit.leaves
    split
    · rename_i hacc
      exact performAll_untouched (h v List.mem_cons_self hacc) _
    · rfl

/-- What a user uploads is what a download brings in any later visit, from any machine
and on every schedule, as long as nothing in between puts something else under the
name or deletes it. -/
theorem upload_comes_back (hS : A.na.ss.Correct) (hu : Plain (cstr A.username))
    (hname : (A.username ++ [0]).length ≤ FILE_ENCRYPTED_CHUNK_SIZE) {v w : Visit} {mid : List Visit}
    (hv : ∀ x ∈ v :: (mid ++ [w]), x.Honest A) {fs : FS} (h : A.Stored s fs) (hF : Seemly A (v :: (mid ++ [w])) s)
    {as bs : List UserAction} {p : Name} {c : Bytes} (hup : v.accepted A = true)
    (hacts : v.actions = as ++ ⟨WRITE_TO_FILESYSTEM, p⟩ :: bs)
    (hfile : (as.foldl (Desk.perform v.H.cwd) ⟨v.cst.fs, s⟩).files.openRead v.H.cwd p = some ⟨c, false⟩)
    (hbs : ∀ a ∈ bs, ¬ Touches (p ++ ext) a)
    (hmid : ∀ x ∈ mid, x.accepted A = true → ∀ a ∈ x.actions, ¬ Touches (p ++ ext) a)
    (hdown : w.accepted A = true) (hw : w.actions = [⟨READ_FROM_FILESYSTEM, p ++ ext⟩]) {u : Connection}
    (hc : Chain A (v :: (mid ++ [w])) fs u) : u.l.st.fs = w.cst.fs.stored w.H.cwd p c := by
  have hvis : Visited A ((v :: mid) ++ [w]) s fs := h.visited hS hu hname _ hv hF
  have hend := hvis.last hc
  have hput : (v.leaves A s).vault (p ++ ext) = some c := by
    unfold Visit.leaves
    rw [if_pos hup, hacts, List.foldl_append, List.foldl_cons, performAll_untouched hbs]
    simp only [Desk.perform, hfile, if_true]
    exact Function.update_self _ _ _
  have hkept : vaultAfter A (v :: mid) s (p ++ ext) = some c :=
    (vaultAfter_untouched hmid _).trans hput
  have htake : (p ++ ext).take ((p ++ ext).length - 4) = p := by
    rw [List.length_append, show ext.length = 4 from rfl, Nat.add_sub_cancel, List.take_left' rfl]
  rw [hend.files, Visit.leaves, if_pos hdown, hw, List.foldl_cons, List.foldl_nil,
    Desk.perform_read rfl hkept, htake]

end

/-! ## Alice comes back -/

def aliceOwn : Account := ⟨plainSodium, [], alice, [112, 119]⟩

def aliceUp : Visit := ⟨aliceMachine, aliceGate, [1], [2], uploadA, [], aliceHome, aliceWorker⟩

/-- Someone tries another password. -/
def aliceNot : Visit := { aliceUp with H := { aliceMachine with password := [120] } }

/-- From a machine that has no files. -/
def aliceDown : Visit := { aliceUp with first := downloadA, cst := { aliceHome with fs := ∅ } }

theorem alice_visits_honest : ∀ x ∈ [aliceUp, aliceNot, aliceDown], x.Honest aliceOwn := by
  intro x hx
  simp only [List.mem_cons, List.not_mem_nil, or_false] at hx
  rcases hx with rfl | rfl | rfl
  · exact ⟨alice_agreed, rfl, rfl, rfl, fun _ => rfl, fun _ => rfl, by decide⟩
  · refine ⟨⟨rfl, alice_agreed.client_pk, alice_agreed.server_pk, rfl, rfl⟩, rfl, rfl, rfl, fun _ => rfl, ?_,
      by decide⟩
    intro h
    exact absurd h (by decide)
  · exact ⟨alice_agreed, rfl, rfl, rfl, fun _ => rfl, fun _ => rfl, by decide⟩

theorem alice_visits_seemly : Seemly aliceOwn [aliceUp, aliceNot, aliceDown] fun _ => none := by
  refine ⟨fun _ => ⟨⟨.inr (.inl rfl), fun _ => ⟨⟨by decide, by decide, by decide, by decide⟩, ?_⟩,
      fun h => absurd h (by decide), fun h => absurd h (by decide), fun h => absurd h (by decide)⟩, trivial⟩,
    fun h => absurd h (by decide), fun _ => ⟨⟨.inl rfl, fun h => absurd h (by decide), fun _ => by decide +kernel,
      fun h => absurd h (by decide), fun h => absurd h (by decide)⟩, trivial⟩, trivial⟩
  intro src hsrc
  have ho : aliceHome.fs.openRead [] [97] = some ⟨[1, 2, 3], false⟩ := by decide
  obtain rfl := Option.some.inj (ho.symm.trans hsrc)
  rfl

theorem visits_refine_alice : Visited aliceOwn [aliceUp, aliceNot, aliceDown] (fun _ => none) aliceDir.fs :=
  visits_refine plainStream_correct ⟨by decide, by decide, by decide, by decide, by decide, by decide⟩ (by decide) _
    alice_visits_honest (rfl : aliceDir.fs.createDirectories _ _ = .ok aliceDir.fs) (by decide) alice_visits_seemly

theorem upload_comes_back_alice :
    ∃ u, Chain aliceOwn [aliceUp, aliceNot, aliceDown] aliceDir.fs u ∧
      u.l.st.fs = (∅ : FS).stored [] [97] [1, 2, 3] := by
  have hplain : Plain (cstr aliceOwn.username) := ⟨by decide, by decide, by decide, by decide, by decide, by decide⟩
  have hst : aliceOwn.Stored (fun _ => none) aliceDir.fs :=
    ⟨aliceDir.fs, _, rfl, kept_empty _ _, FS.holds_empty (by decide)⟩
  have hvis : Visited aliceOwn ([aliceUp, aliceNot] ++ [aliceDown]) (fun _ => none) aliceDir.fs :=
    hst.visited plainStream_correct hplain (by decide) _ alice_visits_honest alice_visits_seemly
  obtain ⟨u, hc⟩ := hvis.chain
  have hacts : aliceUp.actions = [] ++ ⟨WRITE_TO_FILESYSTEM, [97]⟩ :: [] := rfl
  have hmid : ∀ x ∈ [aliceNot], x.accepted aliceOwn = true → ∀ a ∈ x.actions, ¬ Touches ([97] ++ ext) a := by
    intro x hx h
    obtain rfl := List.mem_singleton.mp hx
    exact absurd h (by decide)
  exact ⟨u, hc, upload_comes_back plainStream_correct hplain (by decide) alice_visits_honest hst alice_visits_seemly
    (by decide) hacts (by decide) (fun a ha => by cases ha) hmid (by decide) rfl hc⟩

end Mefsc.L4
