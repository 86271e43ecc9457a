import Mefsc.Core.Channel
import Mefsc.Core.Folder
import Mefsc.L4App.AtRest
import Mefsc.L4App.Names
import Mefsc.L4App.Stop

/-!
# A session as a map from names to files

The abstract store is a map from names to bytes, and `Performs` says what each of
the four actions does to it and what the user gets. `Mirrors`: from an `idle`
state on, action by action, the session gets to the next such state, the user
directory holds exactly the map, and the session ends with both sides done and
nothing on its way. Every schedule leads there (`Net.Sure`).

It is so from an empty user directory on (`session_refines`), as long as the
client reads each answer to its end (`ReadsAll`). It does not when

* `crypto_pwhash` fails in a download, or the stored file does not open under the
  user's key: the client leaves in front of the blocks (`starved_download_left`);
* the directory has 2^31 files or more: the count is sent in four bytes, and the
  client takes it for a negative one.
-/
namespace Mefsc.L4

open L1 L1.SessionEncWrapper L2 L3
open Proc hiding ret recv send act iter bind bind_assoc
open Net hiding MutualWait

/-! ## The abstract store -/

abbrev Store := Name → Option Bytes

/-- What an action does to the store and brings the user. -/
inductive Performs (C : ClientEnv) (k : Nat) (a : UserAction) (cst cst' : ClientState)
    (evl evr : List (Ev Role)) : Store → Store → Prop where
  /-- What the client sent takes the place of what was stored under the name. -/
  | upload {m : Store} {c header salt r key n1 n2 nonce nonce' : Bytes} {chunks : List Bytes}
      (ha : a.intention = WRITE_TO_FILESYSTEM) (ho : cst.fs.openRead C.cwd a.file_name = some ⟨c, false⟩)
      (hheader : header = (C.na.ss.initPush r key).2) (hsalt : salt.length = PWHASH_SALTBYTES)
      (hchunks : chunks = pushAll C.na.ss (C.na.ss.initPush r key).1 (cut CHUNK_SIZE c))
      (hkey : C.host.oom (cst.hashes + 1) = false → key = C.na.pwhash C.password salt)
      (hsent : sent evl = sent (C.requestEvs k n1 n2 WRITE_TO_FILESYSTEM ++
        (initEvs C.na.aead C.client_tx k nonce a.file_name header salt ++
          chunkEvs C.na.aead C.client_tx k nonce' 0 (marked chunks)))) :
      Performs C k a cst cst' evl evr m
        (Function.update m (a.file_name ++ ext) (some (header ++ salt ++ chunks.flatten)))
  | missing {m : Store} (ha : a.intention = WRITE_TO_FILESYSTEM)
      (ho : cst.fs.openRead C.cwd a.file_name = none) : Performs C k a cst cst' evl evr m m
  /-- The client has received the stored bytes as header, salt and blocks. -/
  | download {m : Store} {header salt nonce : Bytes} {chunks : List Bytes}
      (ha : a.intention = READ_FROM_FILESYSTEM) (hm : m a.file_name = some (header ++ salt ++ chunks.flatten))
      (hrcvd : rcvd evl = sent (fileEvs C.na.aead C.client_rx k nonce header salt chunks)) :
      Performs C k a cst cst' evl evr m m
  | list {m : Store} {ns : List Name} (ha : a.intention = LIST_FILES) (hnodup : ns.Nodup)
      (hns : ∀ n, n ∈ ns ↔ (m n).isSome)
      (hshown : cst'.shown = cst.shown ++ .storedFiles ns.length :: ns.map .name) :
      Performs C k a cst cst' evl evr m m
  | delete {m : Store} {nonce : Bytes} (ha : a.intention = DELETE_FILE)
      (hsent : sent evr = frame C.na.aead C.client_rx nonce
        (i32Enc (if (m a.file_name).isSome then ACK_SUC else ACK_FAIL)))
      (hshown : cst'.shown = cst.shown ++ [if (m a.file_name).isSome then .deleted else .failedToDelete]) :
      Performs C k a cst cst' evl evr m (Function.update m a.file_name none)

/-! ## Actions -/

/-- A name that can be uploaded and got back. -/
structure Storable (n : Name) : Prop where
  ne_nil : n ≠ []
  short : n.length ≤ 245
  noSlash : slash ∉ n
  noNul : (0 : UInt8) ∉ n

/-- What the user may ask for, with the files of the client and the store as they
are before the action. -/
structure Orderly (C : ClientEnv) (a : UserAction) (cst : ClientState) (m : Store) : Prop where
  known : ClientEnv.Known a.intention
  /-- The name is that of a regular local file, or of none. -/
  write : a.intention = WRITE_TO_FILESYSTEM → Storable a.file_name ∧
    ∀ src, cst.fs.openRead C.cwd a.file_name = some src → src.bad = false
  read : a.intention = READ_FROM_FILESYSTEM → (m a.file_name).isSome
  delete : a.intention = DELETE_FILE → Plain a.file_name ∧ a.file_name.length ≤ 249

/-- The client reads the answer to its end. -/
structure ReadsAll (C : ClientEnv) (E : ServerEnv) (a : UserAction) (cst : ClientState)
    (sst : FsOperator) : Prop where
  read : a.intention = READ_FROM_FILESYSTEM → C.host.oom (cst.hashes + 1) = false ∧
    ∀ src, sst.fs.openRead E.cwd (E.user_dir ++ a.file_name) = some src → Readable C src.bytes
  list : a.intention = LIST_FILES → ∀ ns, sst.fs.list E.cwd E.user_dir = .ok ns → ns.length < 2 ^ 31

/-- From `idle` on, the session does with the user directory what `Performs` does
with `m`: as long as the actions are orderly and meet `ok` in the states in which
they begin. -/
def Mirrors (C : ClientEnv) (E : ServerEnv) (ok : UserAction → ClientState → FsOperator → Prop) :
    Nat → List UserAction → ClientState → FsOperator → List (Ev Role) → List (Ev Role) → Store → Prop
  | k, [], cst, sst, hl, hr, m =>
    sst.fs.Holds E.cwd E.user_dir m ∧ ∃ t : Session, Sure (idle C E k k [] cst sst hl hr) t ∧
      t.l.done = true ∧ t.r.done = true ∧ t.l.inp = [] ∧ t.r.inp = [] ∧
      t.r.st.fs.Holds E.cwd E.user_dir m
  | k, a :: as, cst, sst, hl, hr, m =>
    sst.fs.Holds E.cwd E.user_dir m ∧ (Orderly C a cst m → ok a cst sst →
      ∃ cst' sst' evl evr m',
        Sure (idle C E k k (a :: as) cst sst hl hr)
          (idle C E (k + 1) (k + 1) as cst' sst' (hl ++ evl) (hr ++ evr)) ∧
        Performs C k a cst cst' evl evr m m' ∧
        Mirrors C E ok (k + 1) as cst' sst' (hl ++ evl) (hr ++ evr) m')

/-! ## One action -/

theorem Storable.plain {n : Name} (h : Storable n) : Plain (n ++ ext) := by
  have hl : (n ++ ext).length = n.length + 4 := by simp [ext]
  have hpos := List.length_pos_iff.mpr h.ne_nil
  have hshort := h.short
  refine ⟨by simp [ext], ?_, ?_, ?_, ?_, ?_⟩
  · simp only [List.mem_append, not_or]
    exact ⟨h.noSlash, by decide⟩
  · simp only [List.mem_append, not_or]
    exact ⟨h.noNul, by decide⟩
  · intro he
    rw [he] at hl
    simp only [dot, List.length_singleton] at hl
    omega
  · intro he
    rw [he] at hl
    simp only [dotdot, List.length_cons, List.length_nil] at hl
    omega
  · unfold NAME_MAX
    omega

/-- What the session has put into the store: files with a header and a salt, under
names that can be got back. -/
def Tidy (m : Store) : Prop :=
  ∀ n b, m n = some b → STREAM_HEADERBYTES + PWHASH_SALTBYTES ≤ b.length ∧ ∃ p, Storable p ∧ n = p ++ ext

theorem Tidy.update {m : Store} (h : Tidy m) {p : Name} (hp : Storable p) {b : Bytes}
    (hb : STREAM_HEADERBYTES + PWHASH_SALTBYTES ≤ b.length) :
    Tidy (Function.update m (p ++ ext) (some b)) := by
  intro n c hc
  by_cases hn : n = p ++ ext
  · rw [hn, Function.update_self] at hc
    cases hc
    exact ⟨hb, p, hp, hn⟩
  · rw [Function.update_of_ne hn] at hc
    exact h n c hc

theorem Tidy.erase {m : Store} (h : Tidy m) (n : Name) : Tidy (Function.update m n none) := by
  intro n' c hc
  by_cases hn : n' = n
  · rw [hn, Function.update_self] at hc
    cases hc
  · rw [Function.update_of_ne hn] at hc
    exact h n' c hc

section
variable {C : ClientEnv} {E : ServerEnv} {k : Nat} {a : UserAction} {as : List UserAction} {cst : ClientState}
  {sst : FsOperator} {hl hr : List (Ev Role)} {m : Store}

/-- Nothing is on its way between two actions. -/
def Even (hl hr : List (Ev Role)) : Prop := rcvd hl = sent hr ∧ rcvd hr = sent hl

theorem delivers_idle_iff : (idle C E k k as cst sst hl hr).Delivers ↔ Even hl hr := by
  have hlive : (idle C E k k as cst sst hl hr).l.done = false := done_actionsFrom
  constructor
  · intro h
    have h1 := h.l.whole rfl
    have h2 := h.r.whole hlive
    simp only [idle, List.append_nil] at h1 h2
    exact ⟨h1, h2⟩
  · intro h
    refine ⟨⟨?_, fun _ => ?_⟩, ⟨?_, fun _ => ?_⟩⟩
    · simp [idle, h.1]
    · simp [idle, h.1]
    · simp [idle, h.2]
    · simp [idle, h.2]

/-- Between two idle states each side has received what the other sent. -/
theorem Even.next {k' : Nat} {as' : List UserAction} {cst' : ClientState} {sst' : FsOperator}
    {evl evr : List (Ev Role)} (h : Even hl hr)
    (hreach : Reach (idle C E k k as cst sst hl hr) (idle C E k' k' as' cst' sst' (hl ++ evl) (hr ++ evr))) :
    Even (hl ++ evl) (hr ++ evr) ∧ rcvd evl = sent evr := by
  obtain ⟨i, j, hrun⟩ := hreach
  have hnext := delivers_idle_iff.mp (hrun.delivers (delivers_idle_iff.mpr h))
  refine ⟨hnext, ?_⟩
  have h1 := hnext.1
  rw [rcvd_append, sent_append, h.1] at h1
  exact List.append_cancel_left h1

/-- One action: the store and the session go on together. -/
structure Turned (C : ClientEnv) (E : ServerEnv) (k : Nat) (a : UserAction) (as : List UserAction)
    (cst : ClientState) (sst : FsOperator) (hl hr : List (Ev Role)) (m : Store) (cst' : ClientState)
    (sst' : FsOperator) (evl evr : List (Ev Role)) (m' : Store) : Prop where
  reach : Reach (idle C E k k (a :: as) cst sst hl hr)
    (idle C E (k + 1) (k + 1) as cst' sst' (hl ++ evl) (hr ++ evr))
  performs : Performs C k a cst cst' evl evr m m'
  holds : sst'.fs.Holds E.cwd E.user_dir m'
  tidy : Tidy m'

variable (hL : Linked C E) (hH : sst.fs.Holds E.cwd E.user_dir m) (hT : Tidy m) (as hl hr)

include hL hH hT

theorem performs_upload (ha : a.intention = WRITE_TO_FILESYSTEM) (hn : Storable a.file_name)
    (hreg : ∀ src, cst.fs.openRead C.cwd a.file_name = some src → src.bad = false) :
    ∃ cst' sst' evl evr m', Turned C E k a as cst sst hl hr m cst' sst' evl evr m' := by
  cases ho : cst.fs.openRead C.cwd a.file_name with
  | none =>
    obtain ⟨cst', sst', evl, evr, -, hfs, -, -, h⟩ := turn_upload_missing hL k k as cst sst hl hr ha ho
    exact ⟨cst', sst', evl, evr, m, h, .missing ha ho, hfs ▸ hH, hT⟩
  | some src =>
    obtain ⟨c, bad⟩ := src
    obtain rfl : bad = false := hreg _ ho
    have hfits : a.file_name.length ≤ PRE_EXT_FILE_NAME_LEN := by
      have := hn.short
      unfold PRE_EXT_FILE_NAME_LEN
      omega
    obtain ⟨cst', sst', evl, evr, r, key, salt, n1, n2, nonce, nonce', hsalt, hkey, -, hfs, hevl, -, -, h⟩ :=
      turn_upload hL k k as cst sst hl hr ha ho hfits
    rw [cstr_of_noNul hn.noNul] at hfs
    refine ⟨cst', sst', evl, evr, _, h, .upload ha ho rfl hsalt rfl hkey (congrArg sent hevl), ?_,
      hT.update hn ?_⟩
    · rw [hfs]
      exact FS.Holds.stored hH hn.plain _
    · simp only [List.length_append, C.na.ss.header_length, hsalt]
      omega

theorem performs_download (hE : Even hl hr) (ha : a.intention = READ_FROM_FILESYSTEM)
    (hm : (m a.file_name).isSome) (hR : ReadsAll C E a cst sst) :
    ∃ cst' sst' evl evr m', Turned C E k a as cst sst hl hr m cst' sst' evl evr m' := by
  obtain ⟨B, hB⟩ := Option.isSome_iff_exists.mp hm
  obtain ⟨hlong, p, hp, hname⟩ := hT _ _ hB
  have hplain : Plain a.file_name := hname ▸ hp.plain
  have ho : sst.fs.openRead E.cwd (E.user_dir ++ a.file_name) = some ⟨B, false⟩ := by
    have := FS.Holds.openRead hH hplain
    rwa [hB] at this
  have h4 : ¬ a.file_name.length < 4 := by simp [hname, ext]
  have hfits : (a.file_name ++ [0]).length ≤ PRE_EXT_FILE_NAME_LEN := by
    rw [hname]
    exact (enc_fits p).mpr hp.short
  obtain ⟨hoom, hread⟩ := hR.read ha
  have hreadable := hread _ ho
  rw [← cstr_of_noNul hplain.noNul] at ho
  obtain ⟨cst', sst', evl, evr, -, nonce, m1, m2, -, -, hfs, hsent, -, -, h⟩ :=
    turn_download hL k k as cst sst hl hr ha h4 hfits ho hoom hreadable
  refine ⟨cst', sst', evl, evr, m, h, .download ha ?_ ((hE.next h).2.trans hsent), hfs ▸ hH, hT⟩
  rw [sent_parts hlong, hB]

theorem performs_list (ha : a.intention = LIST_FILES) (hR : ReadsAll C E a cst sst) :
    ∃ cst' sst' evl evr m', Turned C E k a as cst sst hl hr m cst' sst' evl evr m' := by
  obtain ⟨ns, ho, hnodup, hns⟩ := hH.list
  have hname : ∀ n ∈ ns, n.length ≤ 249 ∧ (0 : UInt8) ∉ n := by
    intro n hn
    obtain ⟨b, hb⟩ := Option.isSome_iff_exists.mp ((hns n).mp hn)
    obtain ⟨-, p, hp, rfl⟩ := hT _ _ hb
    refine ⟨?_, hp.plain.noNul⟩
    have := hp.short
    simp only [ext, List.length_append, List.length_cons, List.length_nil]
    omega
  have hfits : ∀ n ∈ ns, (n ++ [0]).length ≤ MAX_FILE_NAME_LENGTH - 1 := by
    intro n hn
    rw [ClientEnv.name_fits_iff]
    have := (hname n hn).1
    omega
  have hlist : Listable ns := by
    refine ⟨hR.list ha ns ho, fun n hn => (hfits n hn).trans (by decide), fun n hn => ?_⟩
    exact hfits n (List.dropLast_subset _ hn)
  obtain ⟨cst', sst', evl, evr, -, hshown, hfs, -, -, h⟩ := turn_list hL k k as cst sst hl hr ha ho hlist
  refine ⟨cst', sst', evl, evr, m, h, .list ha hnodup hns ?_, hfs ▸ hH, hT⟩
  rw [hshown hfits]
  congr 2
  exact List.map_congr_left fun n hn => by rw [cstr_of_noNul (hname n hn).2]

theorem performs_delete (ha : a.intention = DELETE_FILE) (hn : Plain a.file_name)
    (hshort : a.file_name.length ≤ 249) :
    ∃ cst' sst' evl evr m', Turned C E k a as cst sst hl hr m cst' sst' evl evr m' := by
  have hfits : (a.file_name ++ [0]).length ≤ PRE_EXT_FILE_NAME_LEN := by
    unfold PRE_EXT_FILE_NAME_LEN
    simp only [List.length_append, List.length_singleton]
    omega
  obtain ⟨fs', hremove, hH'⟩ := FS.Holds.remove hH hn
  have ho : sst.fs.remove E.cwd (E.user_dir ++ cstr a.file_name) = .ok ((m a.file_name).isSome, fs') := by
    rw [cstr_of_noNul hn.noNul]
    exact hremove
  obtain ⟨cst', sst', evl, evr, nonce, -, hshown, hfs, hsent, -, -, h⟩ :=
    turn_delete hL k k as cst sst hl hr ha hfits ho
  exact ⟨cst', sst', evl, evr, _, h, .delete ha hsent hshown, hfs ▸ hH', hT.erase _⟩

/-- Every orderly action whose answer the client reads to its end. -/
theorem performs_action (hE : Even hl hr) (hO : Orderly C a cst m) (hR : ReadsAll C E a cst sst) :
    ∃ cst' sst' evl evr m', Turned C E k a as cst sst hl hr m cst' sst' evl evr m' := by
  rcases hO.known with ha | ha | ha | ha
  · exact performs_download as hl hr hL hH hT hE ha (hO.read ha) hR
  · obtain ⟨hn, hreg⟩ := hO.write ha
    exact performs_upload as hl hr hL hH hT ha hn hreg
  · exact performs_list as hl hr hL hH hT ha hR
  · obtain ⟨hn, hshort⟩ := hO.delete ha
    exact performs_delete as hl hr hL hH hT ha hn hshort

end

/-! ## Sessions -/

section
variable {C : ClientEnv} {E : ServerEnv} (hL : Linked C E)

include hL

theorem idle_mirrors (as : List UserAction) (k : Nat) (cst : ClientState) (sst : FsOperator)
    (hl hr : List (Ev Role)) (m : Store) (hH : sst.fs.Holds E.cwd E.user_dir m) (hT : Tidy m)
    (hE : Even hl hr) : Mirrors C E (ReadsAll C E) k as cst sst hl hr m := by
  induction as generalizing k cst sst hl hr m with
  | nil =>
    obtain ⟨cst', sst', evl, evr, -, hfs, -, -, h⟩ := end_session hL k k cst sst hl hr
    refine ⟨hH, _, h.sure, rfl, rfl, rfl, rfl, ?_⟩
    exact hfs ▸ hH
  | cons a as ih =>
    refine ⟨hH, fun hO hR => ?_⟩
    obtain ⟨cst', sst', evl, evr, m', h⟩ := performs_action as hl hr hL hH hT hE hO hR
    exact ⟨cst', sst', evl, evr, m', h.reach.sure, h.performs,
      ih (k + 1) cst' sst' _ _ m' h.holds h.tidy (hE.next h.reach).1⟩

/-- A session that finds an empty user directory does with it what the abstract
store does, for every sequence of orderly actions whose answers are read to the
end. -/
theorem session_refines (first : UserAction) (more : List UserAction) (cst : ClientState) {sst : FsOperator}
    {fs : FS} (hd : sst.fs.createDirectories E.cwd (splitSlash E.user_dir) = .ok fs)
    (he : fs.list E.cwd E.user_dir = .ok []) :
    ∃ sst0 : FsOperator, sst0.fs = fs ∧
      Sure (opening C E first more cst sst) (idle C E 0 0 (first :: more) cst sst0 [] []) ∧
      Mirrors C E (ReadsAll C E) 0 (first :: more) cst sst0 [] [] fun _ => none := by
  obtain ⟨sst0, hfs, h⟩ := opening_idle (C := C) first more cst hd
  refine ⟨sst0, hfs, h.sure, idle_mirrors hL _ _ _ _ _ _ _ ?_ ?_ ⟨rfl, rfl⟩⟩
  · rw [hfs]
    exact FS.holds_empty he
  · intro n b hb
    cases hb

end

/-! ## An upload and its download -/

theorem pulled_all {S : SecretStream} {s : S.State} {cs : List Bytes} (h : (ClientEnv.pulled S s cs).1 = 0) :
    (ClientEnv.pulled S s cs).2.2 = cs.length := by
  induction cs generalizing s with
  | nil => rfl
  | cons c cs ih =>
    cases hp : S.pull s c with
    | none => simp [ClientEnv.pulled, hp] at h
    | some x =>
      obtain ⟨s', m, t⟩ := x
      simp only [ClientEnv.pulled, hp] at h ⊢
      rw [ih h, List.length_cons]

/-- A file that was uploaded under a derived key opens under the user's password. -/
theorem readable_stored {C : ClientEnv} (hS : C.na.ss.Correct) (r c : Bytes) {salt : Bytes}
    (hs : salt.length = PWHASH_SALTBYTES) :
    Readable C (storedFile C.na.ss r (C.na.pwhash C.password salt) salt c) := by
  intro m1 m2
  refine ⟨(C.na.ss.initPush r (C.na.pwhash C.password salt)).1, ?_, ?_⟩
  · rw [sentHeader_stored, sentSalt_stored _ _ _ _ _ hs]
    exact hS.init r _
  · rw [sentChunks_stored _ _ _ _ hs]
    exact pulled_all (pulled_pushAll hS _ _).1

theorem Performs.uploaded {C : ClientEnv} {k : Nat} {a : UserAction} {cst cst' : ClientState}
    {evl evr : List (Ev Role)} {m m' : Store} (h : Performs C k a cst cst' evl evr m m')
    (ha : a.intention = WRITE_TO_FILESYSTEM) {c : Bytes}
    (ho : cst.fs.openRead C.cwd a.file_name = some ⟨c, false⟩) :
    ∃ r key salt, salt.length = PWHASH_SALTBYTES ∧
      (C.host.oom (cst.hashes + 1) = false → key = C.na.pwhash C.password salt) ∧
      m' = Function.update m (a.file_name ++ ext) (some (storedFile C.na.ss r key salt c)) := by
  cases h with
  | upload _ ho' hheader hsalt hchunks hkey _ =>
    rw [ho'] at ho
    cases ho
    subst hheader hchunks
    exact ⟨_, _, _, hsalt, hkey, rfl⟩
  | missing _ ho' =>
    rw [ho'] at ho
    cases ho
  | download ha' =>
    rw [ha] at ha'
    cases ha'
  | list ha' =>
    rw [ha] at ha'
    cases ha'
  | delete ha' =>
    rw [ha] at ha'
    cases ha'

def uploadA : UserAction := ⟨WRITE_TO_FILESYSTEM, [97]⟩

def downloadA : UserAction := ⟨READ_FROM_FILESYSTEM, [97] ++ ext⟩

theorem uploadA_orderly (C : ClientEnv) (hcwd : C.cwd = []) (m : Store) : Orderly C uploadA aliceHome m := by
  refine ⟨.inr (.inl rfl), fun _ => ⟨⟨by decide, by decide, by decide, by decide⟩, ?_⟩,
    fun h => absurd h (by decide), fun h => absurd h (by decide)⟩
  intro src hsrc
  have ho : aliceHome.fs.openRead [] [97] = some ⟨[1, 2, 3], false⟩ := by decide
  rw [hcwd] at hsrc
  obtain rfl := Option.some.inj (ho.symm.trans hsrc)
  rfl

theorem downloadA_orderly (C : ClientEnv) (cst : ClientState) {m : Store} (hm : (m ([97] ++ ext)).isSome) :
    Orderly C downloadA cst m :=
  ⟨.inl rfl, fun h => absurd h (by decide), fun _ => hm, fun h => absurd h (by decide)⟩

/-- An upload and its download, from the empty directory to the end of the
session. -/
theorem session_refines_alice :
    ∃ (t : Session) (m : Store), Reach (opening aliceClient aliceServer uploadA [downloadA] aliceHome aliceDir) t ∧
      t.l.done = true ∧ t.r.done = true ∧ t.l.inp = [] ∧ t.r.inp = [] ∧
      t.r.st.fs.Holds aliceServer.cwd aliceServer.user_dir m ∧ (m ([97] ++ ext)).isSome := by
  have hd : aliceDir.fs.createDirectories aliceServer.cwd (splitSlash aliceServer.user_dir) =
      .ok aliceDir.fs := by rfl
  obtain ⟨sst0, -, hopen, hM⟩ := session_refines alice_linked uploadA [downloadA] aliceHome hd (by decide)
  have hup : ReadsAll aliceClient aliceServer uploadA aliceHome sst0 :=
    ⟨fun h => absurd h (by decide), fun h => absurd h (by decide)⟩
  obtain ⟨cst1, sst1, evl, evr, m1, h1, hp1, hM1⟩ := hM.2 (uploadA_orderly _ rfl _) hup
  obtain ⟨r, key, salt, hsalt, hkey, hm1⟩ := hp1.uploaded rfl (c := [1, 2, 3]) (by decide)
  obtain rfl := hkey rfl
  have hm : m1 ([97] ++ ext) = some (storedFile aliceClient.na.ss r
      (aliceClient.na.pwhash aliceClient.password salt) salt [1, 2, 3]) := by
    rw [hm1]
    exact Function.update_self _ _ _
  have hdown : ReadsAll aliceClient aliceServer downloadA cst1 sst1 := by
    refine ⟨fun _ => ⟨rfl, fun src hsrc => ?_⟩, fun h => absurd h (by decide)⟩
    have ho := FS.Holds.openRead (n := [97] ++ ext) hM1.1
      ⟨by decide, by decide, by decide, by decide, by decide, by decide⟩
    rw [hm] at ho
    obtain rfl := Option.some.inj (ho.symm.trans hsrc)
    exact readable_stored plainStream_correct r [1, 2, 3] hsalt
  obtain ⟨cst2, sst2, evl', evr', m2, h2, hp2, hM2⟩ := hM1.2 (downloadA_orderly _ _ (by rw [hm]; rfl)) hdown
  obtain ⟨-, t, ht, hl, hr, hli, hri, hH⟩ := hM2
  refine ⟨t, m2, hopen.reach.trans (h1.reach.trans (h2.reach.trans ht.reach)), hl, hr, hli, hri, hH, ?_⟩
  cases hp2 with
  | download => rw [hm]; rfl
  | upload ha => cases ha
  | missing ha => cases ha
  | list ha => cases ha
  | delete ha => cases ha

/-- Out of memory when the key of the download is derived. -/
def hungryClient : ClientEnv := { aliceClient with host := { quietHost with oom := fun n => n = 3 } }

/-- The client leaves in front of the blocks: at the end of the session they have
not been read. -/
theorem starved_download_left :
    Linked hungryClient aliceServer ∧ hungryClient.na.ss.Correct ∧
      aliceDir.fs.createDirectories aliceServer.cwd (splitSlash aliceServer.user_dir) = .ok aliceDir.fs ∧
      aliceDir.fs.list aliceServer.cwd aliceServer.user_dir = .ok [] ∧
      ¬ ∃ sst0 : FsOperator, sst0.fs = aliceDir.fs ∧
        Sure (opening hungryClient aliceServer uploadA [downloadA] aliceHome aliceDir)
          (idle hungryClient aliceServer 0 0 [uploadA, downloadA] aliceHome sst0 [] []) ∧
        Mirrors hungryClient aliceServer (fun _ _ _ => True) 0 [uploadA, downloadA] aliceHome sst0 [] []
          fun _ => none := by
  refine ⟨⟨rfl, rfl, rfl⟩, plainStream_correct, rfl, by decide, ?_⟩
  rintro ⟨sst0, -, hopen, hM⟩
  obtain ⟨cst1, sst1, evl, evr, m1, h1, hp1, hM1⟩ := hM.2 (uploadA_orderly _ rfl _) trivial
  obtain ⟨r, key, salt, -, -, hm1⟩ := hp1.uploaded rfl (c := [1, 2, 3]) (by decide)
  have hm : (m1 ([97] ++ ext)).isSome := by
    rw [hm1, show uploadA.file_name = [97] from rfl, Function.update_self]
    rfl
  obtain ⟨cst2, sst2, evl', evr', m2, h2, -, hM2⟩ := hM1.2 (downloadA_orderly _ _ hm) trivial
  obtain ⟨-, t, ht, hl, hr, hli, -⟩ := hM2
  obtain ⟨u, hu, hul, hur, hne⟩ : ∃ u : Session,
      Reach (opening hungryClient aliceServer uploadA [downloadA] aliceHome aliceDir) u ∧ u.l.done = true ∧
        u.r.done = true ∧ u.l.inp ≠ [] :=
    ⟨leftFirst 300 _, reach_leftFirst 300 _, by decide +kernel⟩
  have heq := done_unique (hopen.reach.trans (h1.reach.trans (h2.reach.trans ht.reach))) hu
    (stuck_of_done hl hr) (stuck_of_done hul hur)
  rw [heq] at hli
  exact hne hli

end Mefsc.L4
