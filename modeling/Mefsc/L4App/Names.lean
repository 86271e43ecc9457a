import Mefsc.Core.Way
import Mefsc.L4App.RoundTrip

/-!
# The names the four operations take

An upload sends the bare name; list, download and delete handle it with the
extension and a NUL. `init_read` takes 250 bytes, so `n.enc` and its NUL may be
255: the download and the delete handler take 250 of them, the list on the
client's side 254.

`names_agree_iff`: what the server accepted under a name can be listed,
downloaded and deleted exactly up to 245 bytes, as long as the client gets
through the other names of the list.
-/
namespace Mefsc.L4

open L1 L1.SessionEncWrapper L2 L3
open Proc hiding ret recv send act iter bind

/-! ## What is stored -/

/-- `init_read` accepts `n` in an upload, and it is stored as `n.enc`. -/
structure Uploaded (E : ServerEnv) (st : FsOperator) (n : Name) (b : Bytes) : Prop where
  accepted : ∃ act buf hbuf sbuf w file_name_buf header salt w',
    Runs (E.initRead act buf hbuf sbuf) w (.ok (file_name_buf, header, salt)) w' ∧ cstr file_name_buf = n
  ne_nil : n ≠ []
  noSlash : slash ∉ n
  noNul : (0 : UInt8) ∉ n
  stored : st.fs.openRead E.cwd (E.user_dir ++ (n ++ ext)) = some ⟨b, false⟩
  /-- as everywhere in the file system -/
  short : ∀ ns, st.fs.list E.cwd E.user_dir = .ok ns → ∀ m ∈ ns, m.length ≤ NAME_MAX

namespace Uploaded

variable {E : ServerEnv} {st : FsOperator} {n : Name} {b : Bytes}

theorem enc_noNul (h : Uploaded E st n b) : (0 : UInt8) ∉ n ++ ext := by
  simp only [List.mem_append, not_or]
  exact ⟨h.noNul, by decide⟩

theorem enc_noSlash (h : Uploaded E st n b) : slash ∉ n ++ ext := by
  simp only [List.mem_append, not_or]
  exact ⟨h.noSlash, by decide⟩

/-- The directory and the file in it. -/
theorem walk_enc (h : Uploaded E st n b) : ∃ p q, st.fs.walk E.cwd (splitSlash (base_dir ++ E.username)) = .ok p ∧
    st.fs.node p = some .dir ∧ (n ++ ext).length ≤ NAME_MAX ∧
    st.fs.walk E.cwd (splitSlash (E.user_dir ++ (n ++ ext))) = .ok q ∧ st.fs.node q = some (.file b) := by
  have hs := h.stored
  have hsplit : splitSlash (E.user_dir ++ (n ++ ext)) = splitSlash (base_dir ++ E.username) ++ [n ++ ext] := by
    have he : E.user_dir ++ (n ++ ext) = (base_dir ++ E.username) ++ slash :: (n ++ ext) := by
      simp [ServerEnv.user_dir]
    rw [he, splitSlash_append, splitSlash_noSlash h.enc_noSlash]
  unfold FS.openRead at hs
  rw [hsplit] at hs ⊢
  rw [FS.walk_append] at hs ⊢
  cases hp : st.fs.walk E.cwd (splitSlash (base_dir ++ E.username)) with
  | error e => simp [hp, Except.bind] at hs
  | ok p =>
    simp only [hp, Except.bind] at hs ⊢
    cases hq : st.fs.walk p [n ++ ext] with
    | error e => simp [hq] at hs
    | ok q =>
      simp only [hq] at hs
      refine ⟨p, q, rfl, ?_, ?_, rfl, ?_⟩
      · unfold FS.walk at hq
        split at hq
        · cases hq
        · cases hq
        · assumption
      · exact FS.walk_short hq _ List.mem_cons_self
      · cases hn : st.fs.node q with
        | none => simp [hn] at hs
        | some x =>
          cases x with
          | dir => simp [hn] at hs
          | file c =>
            simp only [hn, Option.some.injEq, Source.mk.injEq] at hs
            rw [hs.1]

theorem listed (h : Uploaded E st n b) : ∃ ns, st.fs.list E.cwd E.user_dir = .ok ns := by
  obtain ⟨p, q, hp, hd, -⟩ := h.walk_enc
  have he : E.user_dir = (base_dir ++ E.username) ++ slash :: [] := rfl
  have hw : st.fs.walk E.cwd (splitSlash E.user_dir) = .ok p := by
    rw [he, splitSlash_append, FS.walk_append, hp]
    simp [Except.bind, splitSlash, FS.walk, hd, enter]
  exact ⟨st.fs.children p, by simp [FS.list, hw, hd]⟩

end Uploaded

/-! ## Download and delete -/

/-- A download request for `f` opens it. -/
def DownloadOpens (E : ServerEnv) (act : Nat) (st : FsOperator) (nonce f : Bytes) : Prop :=
  ∃ st' evs, Runs (E.rffsHandlerServer act)
    ⟨st, frame E.na.aead E.server_rx nonce (f ++ [0]), false, [], []⟩ 0 ⟨st', [], false, evs, []⟩ ∧
    st'.names = st.names ++ [f]

/-- A delete request for `f` removes it and is answered with `ACK_SUC`. -/
def DeleteRemoves (E : ServerEnv) (act : Nat) (st : FsOperator) (nonce f : Bytes) : Prop :=
  ∃ st' evs n', Runs (E.dffsHandlerServer act)
    ⟨st, frame E.na.aead E.server_rx nonce (f ++ [0]), false, [], []⟩ (.ok 0)
    ⟨st', [], false, evs ++ [.snd ⟨act, .deleteResult⟩ (frame E.na.aead E.server_tx n' (i32Enc ACK_SUC))], []⟩ ∧
    st'.fs.openRead E.cwd (E.user_dir ++ f) = none

section
variable {E : ServerEnv} {st : FsOperator} {n : Name} {b nonce : Bytes}

/-- The longest name with which `n.enc` and its NUL fit in 250 bytes. -/
theorem enc_fits (n : Name) : ((n ++ ext) ++ [0]).length ≤ PRE_EXT_FILE_NAME_LEN ↔ n.length ≤ 245 := by
  simp only [List.length_append, ext, List.length_cons, List.length_nil, PRE_EXT_FILE_NAME_LEN]
  omega

theorem Uploaded.enc_short (h : Uploaded E st n b) : ((n ++ ext) ++ [0]).length ≤ FILE_ENCRYPTED_CHUNK_SIZE := by
  obtain ⟨-, -, -, -, hl, -⟩ := h.walk_enc
  have hmax : NAME_MAX + 1 ≤ FILE_ENCRYPTED_CHUNK_SIZE := by decide
  rw [List.length_append]
  exact (Nat.add_le_add_right hl 1).trans hmax

theorem downloadOpens_iff (h : Uploaded E st n b) (act : Nat) (hn : nonce.length = 8) :
    DownloadOpens E act st nonce (n ++ ext) ↔ n.length ≤ 245 := by
  rw [← enc_fits]
  have hc := cstr_of_noNul h.enc_noNul
  constructor
  · rintro ⟨st', evs, hr, -⟩
    by_contra hl
    obtain ⟨st2, -, h2⟩ := ServerEnv.runs_rffs_longName (E := E) st [] false [] act hn (Nat.lt_of_not_le hl)
      h.enc_short
    rw [List.append_nil] at h2
    exact absurd (hr.unique h2).1 (by decide)
  · intro hl
    have ho := h.stored
    rw [← hc] at ho
    obtain ⟨st', _, _, _, -, hnames, hr⟩ := ServerEnv.runs_rffsHandlerServer (E := E) st [] false [] act hn hl ho
    rw [List.append_nil] at hr
    exact ⟨st', _, hr, by rw [hnames, hc]⟩

theorem deleteRemoves_iff (h : Uploaded E st n b) (act : Nat) (hn : nonce.length = 8) :
    DeleteRemoves E act st nonce (n ++ ext) ↔ n.length ≤ 245 := by
  rw [← enc_fits]
  have hc := cstr_of_noNul h.enc_noNul
  constructor
  · rintro ⟨st', evs, n', hr, -⟩
    by_contra hl
    obtain ⟨st2, -, h2⟩ := ServerEnv.runs_dffs_longName (E := E) st [] false [] act hn (Nat.lt_of_not_le hl)
      h.enc_short
    rw [List.append_nil] at h2
    exact absurd (Except.ok.inj (hr.unique h2).1) (by decide)
  · intro hl
    obtain ⟨-, q, -, -, -, hq, hfile⟩ := h.walk_enc
    have hne : q ≠ [] := by
      rintro rfl
      cases hfile
    have hrem : st.fs.remove E.cwd (E.user_dir ++ cstr (n ++ ext)) = .ok (true, st.fs.erase q) := by
      rw [hc]
      simp [FS.remove, hq, hfile]
    obtain ⟨st', n', -, hfs, hr⟩ := ServerEnv.runs_dffsHandlerServer (E := E) st [] false [] act hn hl hrem
    rw [List.append_nil] at hr
    refine ⟨st', _, n', hr, ?_⟩
    have hdir : st.fs.node q ≠ some .dir := by simp [hfile]
    rw [hfs]
    simp [FS.openRead, FS.walk_erase hdir hq, FS.node_erase_self st.fs hne]

/-! ## List -/

/-- The names the client reads of a list: the count is a 32-bit `int`. -/
def announced (ns : List Name) : List Name := ns.take (i32Dec (i32Enc ns.length)).toNat

/-- A list by the client, of what the server sends it, returns 0 and shows
`f`. -/
def ListShows (C : ClientEnv) (E : ServerEnv) (act : Nat) (st : FsOperator) (cst : ClientState) (f : Name) :
    Prop :=
  ∃ st' evs cst' inp h new,
    Runs (E.lffsHandlerServer act) ⟨st, [], false, [], []⟩ (.ok 0) ⟨st', [], false, evs, []⟩ ∧
    Runs (C.lffsHandler act) ⟨cst, sent evs, false, [], []⟩ 0 ⟨cst', inp, false, h, []⟩ ∧
    cst'.shown = cst.shown ++ new ∧ .name f ∈ new

/-- The count never exceeds the number of names. -/
theorem i32Dec_count_le (k : Nat) : i32Dec (i32Enc k) ≤ k := by
  have hk := leDec_i32Enc k
  have ht : (i32Enc k).take 4 = i32Enc k := List.take_of_length_le (by simp)
  simp only [i32Dec, ht]
  split <;> omega

theorem announced_length (ns : List Name) : (announced ns).length = (i32Dec (i32Enc ns.length)).toNat := by
  have hle := i32Dec_count_le ns.length
  rw [announced, List.length_take]
  omega

/-- A list of names that is not all short has a first one that is not. -/
theorem split_long {ns : List Name} {k : Nat} (h : ¬ ∀ m ∈ ns, m.length ≤ k) :
    ∃ l m r, ns = l ++ m :: r ∧ (∀ x ∈ l, x.length ≤ k) ∧ k < m.length := by
  induction ns with
  | nil => simp at h
  | cons a ns ih =>
    by_cases ha : a.length ≤ k
    · have htail : ¬ ∀ m ∈ ns, m.length ≤ k := by
        intro hall
        refine h fun m hm => ?_
        rcases List.mem_cons.mp hm with rfl | hm
        · exact ha
        · exact hall m hm
      obtain ⟨l, m, r, rfl, hl, hm⟩ := ih htail
      refine ⟨a :: l, m, r, rfl, fun x hx => ?_, hm⟩
      rcases List.mem_cons.mp hx with rfl | hx
      · exact ha
      · exact hl x hx
    · exact ⟨[], a, ns, rfl, by simp, Nat.lt_of_not_le ha⟩

variable {C : ClientEnv}

/-- What the client makes of a list answer. -/
theorem runs_lffs_answer (act : Nat) {n0 : Bytes} (hn0 : n0.length = 8) {nonce : Nat → Bytes}
    (hn : ∀ i, (nonce i).length = 8) {ns : List Name} (hs : ∀ m ∈ ns, m.length ≤ NAME_MAX) (cst : ClientState) :
    ∃ r cst' inp h, Runs (C.lffsHandler act)
      ⟨cst, frame C.na.aead C.client_rx n0 (i32Enc ns.length) ++
        (sent (nameEvs C.na.aead C.client_rx act nonce 0 ns) ++ []), false, [], []⟩ r ⟨cst', inp, false, h, []⟩ ∧
      (r = 0 ↔ ∀ m ∈ announced ns, m.length ≤ 253) ∧
      (r = 0 → cst' = ClientEnv.listed cst ns.length (announced ns)) := by
  have hlen := announced_length ns
  have hsplit : announced ns ++ ns.drop (i32Dec (i32Enc ns.length)).toNat = ns := List.take_append_drop _ _
  by_cases hall : ∀ m ∈ announced ns, m.length ≤ 253
  · have hrun := ClientEnv.runs_lffs_fit (C := C) cst
      (sent (nameEvs C.na.aead C.client_rx act nonce (0 + (announced ns).length)
        (ns.drop (i32Dec (i32Enc ns.length)).toNat)) ++ []) false [] act hn0 hn
      (fun m hm => (ClientEnv.name_fits_iff m).mpr (hall m hm)) hlen
    rw [← List.append_assoc (sent _), ← sent_append, ← nameEvs_append, hsplit] at hrun
    exact ⟨0, _, _, _, hrun, by simpa using hall, fun _ => rfl⟩
  · obtain ⟨l, m, r, hlr, hl, hm⟩ := split_long hall
    have hns : ns = l ++ m :: (r ++ ns.drop (i32Dec (i32Enc ns.length)).toNat) := by
      conv_lhs => rw [← hsplit, hlr]
      simp
    have hm255 : (m ++ [0]).length ≤ FILE_ENCRYPTED_CHUNK_SIZE := by
      have hmax : NAME_MAX + 1 ≤ FILE_ENCRYPTED_CHUNK_SIZE := by decide
      rw [List.length_append]
      refine (Nat.add_le_add_right (hs m ?_) 1).trans hmax
      rw [hns]
      simp
    have hlt : (l.length : Int) < i32Dec (i32Enc ns.length) := by
      rw [hlr] at hlen
      simp only [List.length_append, List.length_cons] at hlen
      omega
    have hrun := ClientEnv.runs_lffs_long (C := C) cst [] false [] act hn0 hn
      (fun m hm => (ClientEnv.name_fits_iff m).mpr (hl m hm)) hlt hm255
      (Nat.lt_of_not_le fun h => Nat.not_le_of_lt hm ((ClientEnv.name_fits_iff m).mp h))
      (r ++ ns.drop (i32Dec (i32Enc ns.length)).toNat)
    rw [← hns] at hrun
    exact ⟨1, _, _, _, hrun, by simpa using hall, by simp⟩

/-- When the client's list shows the file. -/
theorem listShows_iff (hL : Linked C E) (h : Uploaded E st n b) (act : Nat) (cst : ClientState) :
    ListShows C E act st cst (n ++ ext) ↔ ∃ ns, st.fs.list E.cwd E.user_dir = .ok ns ∧
      (∀ m ∈ announced ns, m.length ≤ 253) ∧ n ++ ext ∈ (announced ns).map cstr := by
  obtain ⟨ns, hns⟩ := h.listed
  obtain ⟨st', n0, nonce, hn0, hn, -, -, hserver⟩ :=
    ServerEnv.runs_lffsHandlerServer (E := E) st [] false [] act hns
  obtain ⟨r, cst', inp, hist, hclient, hr, hshown⟩ := runs_lffs_answer (C := C) act hn0 hn (h.short ns hns) cst
  rw [List.append_nil, ← hL.na, ← hL.down] at hclient
  have hnew : ∀ f : Name, r = 0 → (Shown.name f ∈ .storedFiles (i32Dec (i32Enc ns.length)) ::
      (announced ns).map (fun m => Shown.name (cstr m)) ↔ f ∈ (announced ns).map cstr) := by
    intro f _
    simp
  constructor
  · rintro ⟨st2, evs, cst2, inp2, h2, new, hs2, hc2, hsh, hmem⟩
    obtain ⟨-, hw⟩ := hserver.unique hs2
    obtain rfl := congrArg World.hist hw
    obtain ⟨rfl, hw'⟩ := hclient.unique hc2
    obtain rfl : cst' = cst2 := congrArg World.st hw'
    refine ⟨ns, hns, hr.mp rfl, (hnew _ rfl).mp ?_⟩
    rw [hshown rfl] at hsh
    rw [List.append_cancel_left hsh]
    exact hmem
  · rintro ⟨ns', hns', hall, hmem⟩
    obtain rfl : ns = ns' := Except.ok.inj (hns.symm.trans hns')
    obtain rfl := hr.mpr hall
    refine ⟨st', _, cst', inp, hist, _, hserver, hclient, ?_, (hnew _ rfl).mpr hmem⟩
    rw [hshown rfl]
    rfl

/-- What is stored under an accepted name is there for the other three operations
exactly when the name has at most 245 bytes and the client gets through the list
to it. -/
theorem names_agree_iff (hL : Linked C E) (h : Uploaded E st n b) (act : Nat) (cst : ClientState)
    (hn : nonce.length = 8) :
    (ListShows C E act st cst (n ++ ext) ∧ DownloadOpens E act st nonce (n ++ ext) ∧
      DeleteRemoves E act st nonce (n ++ ext)) ↔
      n.length ≤ 245 ∧ ∃ ns, st.fs.list E.cwd E.user_dir = .ok ns ∧
        (∀ m ∈ announced ns, m.length ≤ 253) ∧ n ++ ext ∈ (announced ns).map cstr := by
  rw [listShows_iff hL h, downloadOpens_iff h act hn, deleteRemoves_iff h act hn]
  constructor
  · rintro ⟨hlist, hlen, -⟩
    exact ⟨hlen, hlist⟩
  · rintro ⟨hlen, hlist⟩
    exact ⟨hlist, hlen, hlen⟩

end

/-! ## On alice's server -/

/-- Her directory with a small file stored under `n`. -/
def aliceKept (n : Name) : FS :=
  aliceDir.fs.stored [] (aliceServer.user_dir ++ (n ++ ext)) (List.replicate 57 7)

/-- She uploads it. -/
theorem alice_uploads {n : Name} (hn : (0 : UInt8) ∉ n) (hl : n.length ≤ PRE_EXT_FILE_NAME_LEN) :
    ∃ inp st evs, Runs (aliceServer.wtfsHandlerServer 0) ⟨aliceDir, inp, false, [], []⟩ 0
      ⟨st, [], false, evs, []⟩ ∧ st.fs = aliceKept n := by
  have hchunk : ∀ b ∈ [List.replicate 17 (7 : UInt8)], b.length ≤ FILE_ENCRYPTED_CHUNK_SIZE := by decide
  obtain ⟨st, hfs, -, hrun⟩ := ServerEnv.runs_wtfsHandlerServer (E := aliceServer) aliceDir [] false [] 0 [] [] hl
    (List.length_replicate (n := STREAM_HEADERBYTES) (a := (7 : UInt8)))
    (List.length_replicate (n := PWHASH_SALTBYTES) (a := (7 : UInt8))) (by simp) hchunk
  refine ⟨_, st, _, hrun, ?_⟩
  rw [hfs, cstr_of_noNul hn]
  rfl

/-- What the server has then. -/
theorem alice_uploaded {n : Name} (h0 : n ≠ []) (h1 : slash ∉ n) (hn : (0 : UInt8) ∉ n)
    (hl : n.length ≤ PRE_EXT_FILE_NAME_LEN)
    (ho : (aliceDir.fs.openTrunc [] (aliceServer.user_dir ++ (n ++ ext))).isSome)
    (hlist : (aliceKept n).list [] aliceServer.user_dir = .ok [n ++ ext]) {st : FsOperator}
    (hfs : st.fs = aliceKept n) : Uploaded aliceServer st n (List.replicate 57 7) := by
  have haccept := ServerEnv.runs_initRead (E := aliceServer) aliceDir [] false [] 0 [] hl
    (List.length_replicate (n := STREAM_HEADERBYTES) (a := (7 : UInt8)))
    (List.length_replicate (n := PWHASH_SALTBYTES) (a := (7 : UInt8))) []
    (List.replicate STREAM_HEADERBYTES 0) (List.replicate PWHASH_SALTBYTES 0) (by simp) (by simp)
  refine ⟨⟨_, _, _, _, _, _, _, _, _, haccept, ?_⟩, h0, h1, hn, ?_, ?_⟩
  · rw [cstr_terminate, cstr_of_noNul hn]
  · rw [hfs]
    exact FS.openRead_stored ho _
  · intro ns hns m hm
    rw [hfs] at hns
    obtain rfl := Except.ok.inj (hlist.symm.trans hns)
    rw [List.mem_singleton.mp hm, List.length_append]
    exact (Nat.add_le_add_right hl _).trans (by decide)

/-- Under `"a"`. -/
theorem names_agree_iff_alice : ∃ st, st.fs = aliceKept [97] ∧
    ListShows aliceClient aliceServer 1 st aliceHome ([97] ++ ext) ∧
    DownloadOpens aliceServer 1 st (u64Enc 1) ([97] ++ ext) ∧
    DeleteRemoves aliceServer 1 st (u64Enc 1) ([97] ++ ext) := by
  obtain ⟨-, st, -, -, hfs⟩ := alice_uploads (n := [97]) (by decide) (by decide)
  have hlist : (aliceKept [97]).list [] aliceServer.user_dir = .ok [[97] ++ ext] := by decide +kernel
  have hup : Uploaded aliceServer st [97] (List.replicate 57 7) :=
    alice_uploaded (by decide) (by decide) (by decide) (by decide) (by decide +kernel) hlist hfs
  refine ⟨st, hfs, (names_agree_iff alice_linked hup 1 aliceHome (u64Enc_length 1)).mpr
    ⟨by decide, [[97] ++ ext], ?_, ?_, ?_⟩⟩
  · rw [hfs]
    exact hlist
  · decide +kernel
  · decide +kernel

/-- 246 letters. -/
def longName : Name := List.replicate 246 97

theorem long_name_is_lost : ∃ inp st evs,
    Runs (aliceServer.wtfsHandlerServer 0) ⟨aliceDir, inp, false, [], []⟩ 0 ⟨st, [], false, evs, []⟩ ∧
    Uploaded aliceServer st longName (List.replicate 57 7) ∧
    ¬ DownloadOpens aliceServer 1 st (u64Enc 1) (longName ++ ext) ∧
    ¬ DeleteRemoves aliceServer 1 st (u64Enc 1) (longName ++ ext) := by
  have hlen : longName.length = 246 := List.length_replicate ..
  have hmem : ∀ c ∈ longName, c = 97 := fun c hc => List.eq_of_mem_replicate hc
  have hnul : (0 : UInt8) ∉ longName := fun hc => absurd (hmem 0 hc) (by decide)
  have hslash : slash ∉ longName := fun hc => absurd (hmem slash hc) (by decide)
  have hne : longName ≠ [] := by
    intro hnil
    rw [hnil] at hlen
    cases hlen
  have hl : longName.length ≤ PRE_EXT_FILE_NAME_LEN := by
    rw [hlen]
    decide
  have h245 : ¬ longName.length ≤ 245 := by omega
  obtain ⟨inp, st, evs, hrun, hfs⟩ := alice_uploads hnul hl
  have hup : Uploaded aliceServer st longName (List.replicate 57 7) :=
    alice_uploaded hne hslash hnul hl (by decide +kernel) (by decide +kernel) hfs
  refine ⟨inp, st, evs, hrun, hup, ?_, ?_⟩
  · rwa [downloadOpens_iff hup 1 (u64Enc_length 1)]
  · rwa [deleteRemoves_iff hup 1 (u64Enc_length 1)]

end Mefsc.L4
