import Mefsc.Core.Script
import Mefsc.L1Encoding.Offers
import Mefsc.L3Protocol.Client
import Mefsc.L3Protocol.Server
import Mefsc.L4App.Sending

/-!
# Transfers whose sends are cut

Neither the server's download and list handlers nor the client's upload look at
what `send_all` and `send_raw_blob` return. Each of them plays a script that
the stored file, the directory or the local file fixes beforehand
(`downloadItems`, `listItems`, `uploadItems`), and goes on with it behind a send
that was cut. What is on the connection is a prefix of the script exactly when the
connection takes nothing behind the first item it cut.
-/
namespace Mefsc.L4

open L1 L1.SessionEncWrapper L2 L3
open Proc hiding ret recv send act iter bind

/-! ## What the server sends -/

section
variable (E : ServerEnv) (act : Nat)

def sessionItem (kind : Kind) (m nonce : Bytes) : Item Role :=
  frameItem E.na.aead ⟨act, kind⟩ m E.server_tx nonce

/-- The nonce of draw `d`. -/
def drawnNonce (d : Nat) : Bytes := fit AEAD_NPUBBYTES (E.host.rand d)

/-- The names from the `i`-th on, each with a nonce of its own. -/
def nameItems : Nat → Nat → List Name → List (Item Role)
  | _, _, [] => []
  | i, d, filename :: ns =>
    sessionItem E act (.listName i) (filename ++ [0]) (drawnNonce E d) :: nameItems (i + 1) (d + 1) ns

def listItems (s : FsOperator) : List (Item Role) :=
  match s.fs.list E.cwd E.user_dir with
  | .error _ => []
  | .ok entries =>
    sessionItem E act .listCount (i32Enc entries.length) (drawnNonce E s.draws) ::
      nameItems E act 0 (s.draws + 1) entries

/-- A round of the download: what it sends, how it ends and the state behind. -/
def chunkItems (g : Nat × IStream) (s : FsOperator) :
    List (Item Role) × ((Nat × IStream) ⊕ Int) × FsOperator :=
  let (file_chunk, file) := g.2.read FILE_ENCRYPTED_CHUNK_SIZE
  ([sessionItem E act (.chunkPrefix g.1) (i32Enc (if file.eofbit then END_CHUNK else MEAT_CHUNK)) s.nonce,
      blobItem ⟨act, .chunk g.1⟩ file_chunk],
    if file.eofbit then .inr 0 else .inl (g.1 + 1, file),
    { s with nonce := sodiumIncrement s.nonce })

/-- The header, the salt and the first `n` chunks of a stored file. -/
def fileItems (src : Source) (s : FsOperator) (n : Nat) : List (Item Role) :=
  let (h, file) := (IStream.ofSource src).read STREAM_HEADERBYTES
  let (t, file) := file.read PWHASH_SALTBYTES
  let n1 := sodiumIncrement s.nonce
  [sessionItem E act .header (blit h (fit STREAM_HEADERBYTES (E.host.stack s.locals))) s.nonce,
      sessionItem E act .salt (blit t (fit PWHASH_SALTBYTES (E.host.stack (s.locals + 1)))) n1] ++
    rounds (chunkItems E act) n (0, file) { s with locals := s.locals + 2, nonce := sodiumIncrement n1 }

/-- The state in which a download opens the file it was asked for. -/
def sought (name : Bytes) (s : FsOperator) : FsOperator :=
  { s with
    nonce := drawnNonce E s.draws, draws := s.draws + 1, locals := s.locals + 1, names := s.names ++ [name] }

def downloadItems (s : FsOperator) (inp : Bytes) (n : Nat) : List (Item Role) :=
  match takeFrame inp with
  | none => []
  | some (w, _) =>
    if w.corrupted then []
    else
      let u := w.unwrap E.na.aead E.server_rx PRE_EXT_FILE_NAME_LEN (E.host.stack s.locals) 0
      if u.ret ≠ 0 then []
      else
        match s.fs.openRead E.cwd (E.user_dir ++ cstr u.decrypted_data) with
        | none => []
        | some src => fileItems E act src (sought E (cstr u.decrypted_data) s) n

variable {E act} {s : FsOperator} {inp : Bytes} {e : Bool}

theorem sends_freshNonce :
    Sends E.freshNonce s inp e [] () { s with nonce := drawnNonce E s.draws, draws := s.draws + 1 } inp :=
  (sends_modifyGet _ s inp e).bind (sends_modifyGet _ _ inp e)

theorem sends_sendSession (kind : Kind) (m : Bytes) :
    Sends (E.sendSession ⟨act, kind⟩ m) s inp e [sessionItem E act kind m s.nonce] ()
      { s with nonce := sodiumIncrement s.nonce } inp :=
  (sends_modifyGet _ s inp e).bind
    ((sends_sendFrame E.na.aead (⟨act, kind⟩ : Role) m E.server_tx s.nonce s inp e).bind (sends_modifyGet _ s inp e))

theorem sends_sendNames (ns : List Name) (i : Nat) (s : FsOperator) :
    ∃ s', Sends (E.sendNames act i ns) s inp e (nameItems E act i s.draws ns) () s' inp := by
  induction ns generalizing i s with
  | nil => exact ⟨s, sends_pure _ _ _ _⟩
  | cons m ns ih =>
    obtain ⟨s', h⟩ := ih (i + 1) { s with nonce := sodiumIncrement (drawnNonce E s.draws), draws := s.draws + 1 }
    exact ⟨s', sends_freshNonce.bind ((sends_sendSession _ _).bind h)⟩

theorem plays_lffs : Plays (E.lffsHandlerServer act) s inp e fun _ => listItems E act s := by
  have hlist (s : FsOperator) : Sends E.listDir s inp e [] (s.fs.list E.cwd E.user_dir) s inp :=
    sends_modifyGet _ s inp e
  unfold ServerEnv.lffsHandlerServer listItems
  refine (hlist s).plays_bind ?_
  cases hl : s.fs.list E.cwd E.user_dir with
  | error err => exact (sends_pure _ _ _ _).plays
  | ok entries =>
    refine sends_freshNonce.plays_bind ((sends_sendSession _ _).plays_bind ?_)
    refine (hlist _).plays_bind ?_
    simp only [hl]
    obtain ⟨s', h⟩ := sends_sendNames (E := E) entries 0
      { s with nonce := sodiumIncrement (drawnNonce E s.draws), draws := s.draws + 1 }
    exact h.plays.bind_pure _

theorem sends_rffsRound (g : Nat × IStream) (s : FsOperator) :
    Sends (E.rffsRound act g) s inp e (chunkItems E act g s).1 (chunkItems E act g s).2.1
      (chunkItems E act g s).2.2 inp := by
  unfold ServerEnv.rffsRound chunkItems
  generalize g.2.read FILE_ENCRYPTED_CHUNK_SIZE = x
  obtain ⟨file_chunk, rest, bad, eofbit, failbit⟩ := x
  refine (sends_sendSession _ _).bind (Sends.blob ?_)
  cases eofbit <;> exact sends_pure _ _ _ _

theorem plays_sendFile (src : Source) (s : FsOperator) :
    Plays (E.sendFile act src) s inp e (fileItems E act src s) := by
  refine (sends_modifyGet _ s inp e).plays_bind ((sends_modifyGet _ _ inp e).plays_bind ?_)
  refine (sends_sendSession _ _).plays_bind ((sends_sendSession _ _).plays_bind ?_)
  exact plays_loop sends_rffsRound _ _

/-- Behind the frame with the name. -/
theorem plays_rffs_named {w : SessionEncWrapper} {rest : Bytes} (ht : takeFrame inp = some (w, rest)) :
    Plays (do
      if w.corrupted then return 3
      else
        let u := w.unwrap E.na.aead E.server_rx PRE_EXT_FILE_NAME_LEN (E.host.stack s.locals) 0
        if u.ret ≠ 0 then return 2
        else
          match ← E.openIn (cstr u.decrypted_data) with
          | none => return 1
          | some src => E.sendFile act src)
      { s with nonce := drawnNonce E s.draws, draws := s.draws + 1, locals := s.locals + 1 } rest e
      (downloadItems E act s inp) := by
  unfold downloadItems
  simp only [ht]
  split
  · exact (sends_pure _ _ _ _).plays
  · generalize w.unwrap E.na.aead E.server_rx PRE_EXT_FILE_NAME_LEN (E.host.stack s.locals) 0 = u
    split
    · exact (sends_pure _ _ _ _).plays
    · refine (sends_modifyGet _ _ rest e).plays_bind ?_
      change Plays (match s.fs.openRead E.cwd (E.user_dir ++ cstr u.decrypted_data) with
        | none => pure 1
        | some src => E.sendFile act src) (sought E (cstr u.decrypted_data) s) rest e _
      split
      · exact (sends_pure _ _ _ _).plays
      · exact plays_sendFile _ _

theorem downloadItems_none (ht : takeFrame inp = none) : downloadItems E act s inp = fun _ => [] := by
  funext n
  simp only [downloadItems, ht]

theorem plays_rffs : Plays (E.rffsHandlerServer act) s inp e (downloadItems E act s inp) := by
  unfold ServerEnv.rffsHandlerServer
  change Plays _ s inp e fun n => [] ++ ([] ++ downloadItems E act s inp n)
  refine sends_freshNonce.plays_bind ((sends_modifyGet _ _ inp e).plays_bind ?_)
  rcases (reads_ofSock (⟨act, .fileName⟩ : Role)).sends
    { s with nonce := drawnNonce E s.draws, draws := s.draws + 1, locals := s.locals + 1 } inp e with
    ⟨w, inp', hr⟩ | hr
  · change Plays _ _ inp e fun n => [] ++ downloadItems E act s inp n
    refine hr.plays_bind ?_
    obtain ⟨o, h', ⟨n, hg⟩, -⟩ := hr [] []
    obtain ⟨rest, evs, hw, ht | ⟨ht, -, hc, -⟩⟩ := ofSock_cases hg.returns
    · cases hw
      exact plays_rffs_named (E := E) (s := s) ht
    · -- the peer closed in front of the end of the frame
      rw [downloadItems_none ht, hc]
      exact (sends_pure _ _ _ _).plays
  · have hn : takeFrame inp = none := by
      cases ht : takeFrame inp with
      | none => rfl
      | some x =>
        exact (Stuck.not_runs (w := ⟨_, inp, e, [], []⟩) hr (runs_ofSock_take _ e [] [] _ ht).choose_spec).elim
    rw [downloadItems_none hn]
    exact hr.plays_bind _

end

/-! ## What the client sends -/

section
variable (C : ClientEnv) (act : Nat)

def agentItem (kind : Kind) (m nonce : Bytes) : Item Role :=
  frameItem C.na.aead ⟨act, kind⟩ m C.client_tx nonce

/-- The agent behind `set_crypto`. -/
def keyedAgent (SA : SenderAgent) (s : ClientState) : SenderAgent :=
  let salt := fit PWHASH_SALTBYTES (C.host.rand s.draws)
  { SA with
    salt := salt
    key := if C.host.oom s.hashes then List.replicate BOX_SEEDBYTES 0 else C.na.pwhash C.password salt }

/-- A round of the upload: what it sends, how it ends and the state behind. -/
def sendItems (g : C.Sending) (s : ClientState) : List (Item Role) × (C.Sending ⊕ Bytes) × ClientState :=
  ([agentItem C act (.chunkPrefix g.1)
        (i32Enc (if (g.2.1.read CHUNK_SIZE).2.eofbit then END_CHUNK else MEAT_CHUNK)) g.2.2.2,
      blobItem ⟨act, .chunk g.1⟩ (pushOf C g).2],
    roundEnds C g, s)

/-- What `init_send` announces, and the first `n` chunks. -/
def uploadItems (SA : SenderAgent) (file_name : Bytes) (s : ClientState) (n : Nat) : List (Item Role) :=
  let SA := keyedAgent C SA s
  let (state, header) := C.na.ss.initPush (fit STREAM_HEADERBYTES (C.host.rand (s.draws + 1))) SA.key
  let n1 := sodiumIncrement SA.nonce
  let n2 := sodiumIncrement n1
  let n3 := sodiumIncrement n2
  match s.fs.openRead C.cwd file_name with
  | none => [agentItem C act .fileExists [0] SA.nonce]
  | some src =>
    [agentItem C act .fileExists [1] SA.nonce, agentItem C act .fileName file_name n1,
        agentItem C act .header header n2, agentItem C act .salt SA.salt n3] ++
      rounds (sendItems C act) n (0, IStream.ofSource src, state, sodiumIncrement n3)
        { s with draws := s.draws + 2, hashes := s.hashes + 1 }

variable {C act} {s : ClientState} {inp : Bytes} {e : Bool}

theorem sends_setCrypto (SA : SenderAgent) :
    Sends (C.setCrypto SA) s inp e [] (keyedAgent C SA s)
      { s with draws := s.draws + 1, hashes := s.hashes + 1 } inp := by
  refine (sends_modifyGet _ s inp e).bind ((sends_modifyGet _ _ inp e).bind ?_)
  unfold keyedAgent
  cases C.host.oom s.hashes <;> exact sends_pure _ _ _ _

theorem sends_sendRound (g : C.Sending) (s : ClientState) :
    Sends (C.sendRound act g) s inp e (sendItems C act g s).1 (sendItems C act g s).2.1
      (sendItems C act g s).2.2 inp := by
  rw [sendRound_eq]
  exact (sends_sendFrame _ _ _ _ _ s inp e).bind (Sends.blob (sends_pure _ _ _ _))

theorem sends_initSend_missing (SA : SenderAgent) (file_name header : Bytes) (s : ClientState) :
    Sends (C.initSend act SA none file_name header) s inp e [agentItem C act .fileExists [0] SA.nonce]
      (1, sodiumIncrement SA.nonce) s inp :=
  (sends_sendFrame _ _ _ _ _ s inp e).bind (sends_pure _ _ _ _)

theorem sends_initSend (SA : SenderAgent) (src : Source) (file_name header : Bytes) (s : ClientState) :
    Sends (C.initSend act SA (some src) file_name header) s inp e
      [agentItem C act .fileExists [1] SA.nonce, agentItem C act .fileName file_name (sodiumIncrement SA.nonce),
        agentItem C act .header header (sodiumIncrement (sodiumIncrement SA.nonce)),
        agentItem C act .salt SA.salt (sodiumIncrement (sodiumIncrement (sodiumIncrement SA.nonce)))]
      (0, sodiumIncrement (sodiumIncrement (sodiumIncrement (sodiumIncrement SA.nonce)))) s inp := by
  refine (sends_sendFrame _ _ _ _ _ s inp e).bind ((sends_sendFrame _ _ _ _ _ s inp e).bind ?_)
  exact (sends_sendFrame _ _ _ _ _ s inp e).bind ((sends_sendFrame _ _ _ _ _ s inp e).bind (sends_pure _ _ _ _))

theorem plays_upload (SA : SenderAgent) (file_name : Bytes) :
    Plays (C.encryptAndSendToServer act SA file_name) s inp e (uploadItems C act SA file_name s) := by
  unfold ClientEnv.encryptAndSendToServer
  change Plays _ s inp e fun n => [] ++ ([] ++ ([] ++ uploadItems C act SA file_name s n))
  refine (sends_setCrypto SA).plays_bind ((sends_modifyGet _ _ inp e).plays_bind ?_)
  refine (sends_modifyGet _ _ inp e).plays_bind ?_
  unfold uploadItems
  simp only
  cases s.fs.openRead C.cwd file_name with
  | none => exact (sends_initSend_missing _ _ _ _).plays.bind_pure Prod.fst
  | some src =>
    refine (sends_initSend _ _ _ _ _).plays_bind ?_
    exact (plays_loop sends_sendRound _ _).bind_pure _

end

/-! ## Every item has a role of its own -/

/-- The roles of `k` chunks from the `j`-th on. -/
def chunkRoles (act : Nat) : Nat → Nat → List Role
  | _, 0 => []
  | j, k + 1 => ⟨act, .chunkPrefix j⟩ :: ⟨act, .chunk j⟩ :: chunkRoles act (j + 1) k

theorem mem_chunkRoles {act j k : Nat} {r : Role} (h : r ∈ chunkRoles act j k) :
    ∃ i, j ≤ i ∧ (r.kind = .chunkPrefix i ∨ r.kind = .chunk i) := by
  induction k generalizing j with
  | zero => cases h
  | succ k ih =>
    rcases List.mem_cons.mp h with rfl | h
    · exact ⟨j, Nat.le_refl _, .inl rfl⟩
    rcases List.mem_cons.mp h with rfl | h
    · exact ⟨j, Nat.le_refl _, .inr rfl⟩
    · obtain ⟨i, hi, hr⟩ := ih h
      exact ⟨i, by omega, hr⟩

theorem nodup_chunkRoles (act j k : Nat) : (chunkRoles act j k).Nodup := by
  induction k generalizing j with
  | zero => exact List.nodup_nil
  | succ k ih =>
    -- the roles behind have a higher number
    have hnew (kind : Kind) (hk : kind = .chunkPrefix j ∨ kind = .chunk j) :
        (⟨act, kind⟩ : Role) ∉ chunkRoles act (j + 1) k := by
      intro h
      obtain ⟨i, hi, hr⟩ := mem_chunkRoles h
      rcases hk with rfl | rfl <;> simp at hr <;> omega
    refine List.nodup_cons.mpr ⟨?_, List.nodup_cons.mpr ⟨hnew _ (.inr rfl), ih _⟩⟩
    simpa using hnew _ (.inl rfl)

theorem rounds_roles {σ β γ : Type} {act : Nat} {f : γ → σ → List (Item Role) × (γ ⊕ β) × σ} (number : γ → Nat)
    (hf : ∀ g s, (f g s).1.map Item.role = [⟨act, .chunkPrefix (number g)⟩, ⟨act, .chunk (number g)⟩])
    (hg : ∀ g s g', (f g s).2.1 = .inl g' → number g' = number g + 1) (n : Nat) (g : γ) (s : σ) :
    ∃ k, (rounds f n g s).map Item.role = chunkRoles act (number g) k := by
  induction n generalizing g s with
  | zero => exact ⟨0, rfl⟩
  | succ n ih =>
    simp only [rounds, List.map_append, hf]
    cases hx : (f g s).2.1 with
    | inl g' =>
      obtain ⟨k, hk⟩ := ih g' (f g s).2.2
      exact ⟨k + 1, by simp only [hk, hg g s g' hx]; rfl⟩
    | inr b => exact ⟨1, rfl⟩

/-- Roles that are no chunk's, in front of those of chunks. -/
theorem nodup_before_chunks {act j k : Nat} {rs : List Role} (hn : rs.Nodup)
    (hr : ∀ r ∈ rs, ∀ i, r.kind ≠ .chunkPrefix i ∧ r.kind ≠ .chunk i) : (rs ++ chunkRoles act j k).Nodup := by
  refine List.nodup_append.mpr ⟨hn, nodup_chunkRoles act j k, fun a ha b hb hab => ?_⟩
  subst hab
  obtain ⟨i, -, h | h⟩ := mem_chunkRoles hb
  · exact (hr a ha i).1 h
  · exact (hr a ha i).2 h

theorem nodup_downloadItems (E : ServerEnv) (act : Nat) (s : FsOperator) (inp : Bytes) (n : Nat) :
    ((downloadItems E act s inp n).map Item.role).Nodup := by
  unfold downloadItems
  split
  · exact List.nodup_nil
  split
  · exact List.nodup_nil
  simp only
  split
  · exact List.nodup_nil
  split
  · exact List.nodup_nil
  rename_i src _
  obtain ⟨k, hk⟩ := rounds_roles (f := chunkItems E act) Prod.fst (fun g s => rfl) (fun g s g' hg => by
    simp only [chunkItems] at hg
    split at hg
    · cases hg
    · cases hg
      rfl) n _ _
  rw [fileItems, List.map_append, hk]
  refine nodup_before_chunks ?_ ?_
  · simp [sessionItem, frameItem]
  · simp [sessionItem, frameItem]

theorem nodup_listItems (E : ServerEnv) (act : Nat) (s : FsOperator) : ((listItems E act s).map Item.role).Nodup := by
  have key (ns : List Name) (i d : Nat) : (nameItems E act i d ns).map Item.role =
      (List.range' i ns.length).map fun i => ⟨act, .listName i⟩ := by
    induction ns generalizing i d with
    | nil => rfl
    | cons m ns ih => simp [nameItems, ih, sessionItem, frameItem, List.range'_succ]
  unfold listItems
  split
  · exact List.nodup_nil
  · rw [List.map_cons, key, List.nodup_cons]
    refine ⟨by simp [sessionItem, frameItem], ?_⟩
    exact List.Nodup.map (fun i j h => by simpa using h) List.nodup_range'

theorem nodup_uploadItems (C : ClientEnv) (act : Nat) (SA : SenderAgent) (file_name : Bytes) (s : ClientState)
    (n : Nat) : ((uploadItems C act SA file_name s n).map Item.role).Nodup := by
  unfold uploadItems
  simp only
  split
  · exact List.nodup_singleton _
  · obtain ⟨k, hk⟩ := rounds_roles (f := sendItems C act) Prod.fst (fun g s => rfl) (fun g s g' hg => by
      simp only [sendItems, roundEnds] at hg
      split at hg
      · cases hg
      · cases hg
        rfl) n _ _
    rw [List.map_append, hk]
    refine nodup_before_chunks ?_ ?_
    · simp [agentItem, frameItem]
    · simp [agentItem, frameItem]

/-! ## The prefix -/

/-- What a transfer puts on the connection is a prefix of what it would send with
full sends, whatever the sends take, exactly when the connection takes nothing
behind the first item it cut. -/
theorem short_send_prefix_iff (E : ServerEnv) (C : ClientEnv) (act : Nat) (SA : SenderAgent) (file_name : Bytes)
    (w : World FsOperator Role) (v : World ClientState Role) :
    (PrefixOfFull (E.rffsHandlerServer act) w ↔ ∀ n, Clean w.outcomes (downloadItems E act w.st w.inp n)) ∧
    (PrefixOfFull (E.lffsHandlerServer act) w ↔ Clean w.outcomes (listItems E act w.st)) ∧
    (PrefixOfFull (C.encryptAndSendToServer act SA file_name) v ↔
      ∀ n, Clean v.outcomes (uploadItems C act SA file_name v.st n)) := by
  refine ⟨?_, ?_, ?_⟩
  · exact plays_rffs.prefix_iff (nodup_downloadItems E act w.st w.inp)
  · exact (plays_lffs.prefix_iff fun _ => nodup_listItems E act w.st).trans (forall_const Nat)
  · exact (plays_upload SA file_name).prefix_iff (nodup_uploadItems C act SA file_name v.st)

def aliceSends : Client Int := aliceClient.encryptAndSendToServer 0 ⟨u64Enc 0, [], []⟩ [97]

/-- Of alice's first frame three bytes are taken, and the frames behind it whole. -/
theorem cut_upload_corrupts :
    ¬ ∀ n o q v, Goes n aliceSends ⟨aliceHome, [], false, [], [some 3]⟩ o q v →
      ∃ n' o' q' v', Goes n' aliceSends ⟨aliceHome, [], false, [], []⟩ o' q' v' ∧ sent v.hist <+: sent v'.hist := by
  intro h
  have ends (os : List (Option Nat)) (b : Bytes)
      (hx : ((exec 2 aliceSends ⟨aliceHome, [], false, [], os⟩).map fun x => (sent x.2.hist).take 4) = some b) :
      ∃ a v, Runs aliceSends ⟨aliceHome, [], false, [], os⟩ a v ∧ (sent v.hist).take 4 = b := by
    obtain ⟨⟨a, v⟩, hx, hs⟩ := Option.map_eq_some_iff.mp hx
    exact ⟨a, v, ⟨2, hx⟩, hs⟩
  obtain ⟨a, v, hcut, hb⟩ := ends [some 3] [17, 0, 0, 17] (by decide +kernel)
  obtain ⟨a', v', hfull, hb'⟩ := ends [] [17, 0, 0, 0] (by decide +kernel)
  obtain ⟨n, o, hg⟩ := hcut.goes
  obtain ⟨n2, o2, q2, v2, hg2, hpre⟩ := h n o _ v hg
  have hpre4 := (List.take_prefix 4 _).trans (hpre.trans (hfull.sent_prefix hg2))
  rw [hb] at hpre4
  have htake := List.prefix_take_iff.mpr ⟨hpre4, Nat.le_refl 4⟩
  rw [hb'] at htake
  exact absurd htake (by decide)

end Mefsc.L4
