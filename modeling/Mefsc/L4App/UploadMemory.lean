import Mefsc.L4App.Memory

/-!
# Uploads and uninitialised memory

`init_read` leaves three buffers of the upload handler behind, and looks at none of
their lengths but the name's. `wtfs_free`: what is seen of an upload depends on
memory exactly if the name's frame is shorter than a tag and what follows is not
refused (the length of the name is then itself memory), or if header or salt are not
filled and the file opens.
-/
namespace Mefsc.L4

open L1 L1.SessionEncWrapper L2 L3
open Proc hiding ret recv send act iter bind

/-! ## Into the file -/

/-- What follows `init_read`. -/
def storeUpload (E : ServerEnv) (act : Nat) : Except Int (Bytes × Bytes × Bytes) → Server Int
  | .error _ => return 1
  | .ok (file_name_buf, header, salt) => do
    E.openOut (cstr file_name_buf ++ ext)
    ServerEnv.writeOut header
    ServerEnv.writeOut salt
    let (status, published) ← loop (E.wtfsRound act) (0, END_CHUNK, [])
    ServerEnv.writeOut (writerOutput published)
    return status

section
variable {E : ServerEnv} {st : FsOperator} {inp : Bytes} {e : Bool} {h : List (Ev Role)} {os : List (Option Nat)}
  (act : Nat)

/-- The chunks, and the file behind them. -/
def storeChunks (E : ServerEnv) (act : Nat) : Server Int := do
  let (status, published) ← loop (E.wtfsRound act) (0, END_CHUNK, [])
  ServerEnv.writeOut (writerOutput published)
  return status

/-- A file that is open keeps what it has. -/
structure Grows (s t : FsOperator) : Prop where
  names : t.names = s.names
  file : t.file = s.file
  content : ∀ p c, s.file = some p → s.fs.lookup p = some (.file c) → ∃ c', t.fs.lookup p = some (.file c') ∧ c <+: c'

theorem Grows.refl (s : FsOperator) : Grows s s := ⟨rfl, rfl, fun _ c _ hc => ⟨c, hc, List.prefix_rfl⟩⟩

theorem Grows.trans {s t u : FsOperator} (h : Grows s t) (h' : Grows t u) : Grows s u := by
  refine ⟨h'.names.trans h.names, h'.file.trans h.file, fun p c hp hc => ?_⟩
  obtain ⟨c1, hc1, hpre1⟩ := h.content p c hp hc
  obtain ⟨c2, hc2, hpre2⟩ := h'.content p c1 (h.file.trans hp) hc1
  exact ⟨c2, hc2, hpre1.trans hpre2⟩

theorem grows_written (b : Bytes) (s : FsOperator) : Grows s (ServerEnv.written b s) := by
  unfold ServerEnv.written
  split
  · exact .refl s
  · rename_i p hp
    refine ⟨rfl, rfl, fun q c hq hc => ?_⟩
    obtain rfl : p = q := Option.some.inj (hp.symm.trans hq)
    exact ⟨c ++ b, by simp [FS.append, hc], List.prefix_append c b⟩

theorem grows_parts : ServerEnv.Parts (fun {_} (p : Server _) => Keeps Grows p) where
  toClosed := closed_keeps Grows.refl Grows.trans
  frame _ hf := keeps_modifyGet Grows.refl fun s =>
    ⟨(hf s).2.2, (hf s).2.1, fun _ c _ hc => ⟨c, by rw [(hf s).1]; exact hc, List.prefix_rfl⟩⟩

theorem grows_writeOut (b : Bytes) : Keeps Grows (ServerEnv.writeOut b) :=
  keeps_modifyGet Grows.refl (grows_written b)

theorem grows_storeChunks : Keeps Grows (storeChunks E act) := by
  have hP := grows_parts
  refine hP.bind (Keeps.loop Grows.refl Grows.trans (hP.wtfsRound act) _) fun x => ?_
  exact hP.bind (grows_writeOut _) fun _ => hP.pure _

theorem grows_writes (header salt : Bytes) : Keeps Grows
    (ServerEnv.writeOut header >>= fun _ => ServerEnv.writeOut salt >>= fun _ => storeChunks E act) := by
  have hP := grows_parts
  exact hP.bind (grows_writeOut _) fun _ => hP.bind (grows_writeOut _) fun _ => grows_storeChunks act

/-- The two buffers are seen once they are in the file. -/
theorem writes_blind_iff {M : Type} {H S : M → Bytes} {n : Nat} {k : Nat} (hn : 0 < n) (hk : 0 < k)
    (hH : ∀ m, (H m).length = n) (hS : ∀ m, (S m).length = k) {p : Path} {fs : FS} (hfile : st.file = some p)
    (hfs : st.fs = fs.insert p (.file [])) :
    Blind onDisk
        (fun m => ServerEnv.writeOut (H m) >>= fun _ => ServerEnv.writeOut (S m) >>= fun _ => storeChunks E act)
        ⟨st, inp, e, h, os⟩ ↔ ∀ m m', H m = H m' ∧ S m = S m' := by
  obtain ⟨fs0, nonce, file, draws, locals, names⟩ := st
  obtain rfl : file = some p := hfile
  obtain rfl : fs0 = fs.insert p (.file []) := hfs
  have hstep (b c : Bytes) : ServerEnv.written c ⟨fs.insert p (.file b), nonce, some p, draws, locals, names⟩ =
      ⟨fs.insert p (.file (b ++ c)), nonce, some p, draws, locals, names⟩ := by
    simp only [ServerEnv.written, FS.append_insert]
  let holding (b : Bytes) : World FsOperator Role :=
    ⟨⟨fs.insert p (.file b), nonce, some p, draws, locals, names⟩, inp, e, h, os⟩
  have hwrite (b c : Bytes) (k : Unit → Server Int) (hk : (k ()).value = none) :
      Seen onDisk (ServerEnv.writeOut c >>= k) (holding b) =
        insert (none, (names, fs.insert p (.file b)), []) (Seen onDisk (k ()) (holding (b ++ c))) := by
    change _ = insert _ (Seen onDisk (k ())
      ⟨⟨fs.insert p (.file (b ++ c)), nonce, some p, draws, locals, names⟩, inp, e, h, os⟩)
    rw [← hstep]
    exact seen_act hk
  have hseen (m : M) : Seen onDisk
      (ServerEnv.writeOut (H m) >>= fun _ => ServerEnv.writeOut (S m) >>= fun _ => storeChunks E act) (holding []) =
      insert (none, (names, fs.insert p (.file [])), []) (insert (none, (names, fs.insert p (.file (H m))), [])
        (Seen onDisk (storeChunks E act) (holding (H m ++ S m)))) := by
    rw [hwrite _ _ _ rfl, hwrite _ _ _ rfl]
    rfl
  have hinj {b c : Bytes} (hb : fs.insert p (.file b) = fs.insert p (.file c)) : b = c := by
    have h1 := congrArg (AList.lookup p) hb
    simpa using h1
  constructor
  · intro hb m m'
    -- the moment when both are written
    have hgo : (none, (names, fs.insert p (.file (H m ++ S m))), []) ∈ Seen onDisk
        (ServerEnv.writeOut (H m') >>= fun _ => ServerEnv.writeOut (S m') >>= fun _ => storeChunks E act)
        (holding []) := by
      refine (hb m m').subset ?_
      rw [hseen]
      exact .inr (.inr seen_start)
    have hlen : (H m ++ S m).length = n + k := by rw [List.length_append, hH, hS]
    rw [hseen] at hgo
    rcases hgo with hx | hx | hx
    · simp only [Prod.mk.injEq, true_and, and_true] at hx
      have h0 := hinj hx
      rw [h0, List.length_nil] at hlen
      omega
    · simp only [Prod.mk.injEq, true_and, and_true] at hx
      have h0 := hinj hx
      rw [h0, hH] at hlen
      omega
    · obtain ⟨s, hs, hxs⟩ := (grows_storeChunks act).seen Grows.refl hx
      obtain ⟨c, hc, hpre⟩ := hs.content p (H m' ++ S m') rfl (AList.lookup_insert _)
      have hsfs : s.fs = fs.insert p (.file (H m ++ S m)) := (congrArg Prod.snd hxs).symm
      rw [hsfs, AList.lookup_insert] at hc
      obtain rfl : H m ++ S m = c := by simpa using hc
      have heq := hpre.eq_of_length (by rw [hlen, List.length_append, hH, hS])
      obtain ⟨h1, h2⟩ := List.append_inj heq (by rw [hH, hH])
      exact ⟨h1.symm, h2.symm⟩
  · intro hb m m'
    obtain ⟨h1, h2⟩ := hb m m'
    simp only [h1, h2]

theorem writes_blind_closed {M : Type} (H S : M → Bytes) (hfile : st.file = none) :
    Blind onDisk
      (fun m => ServerEnv.writeOut (H m) >>= fun _ => ServerEnv.writeOut (S m) >>= fun _ => storeChunks E act)
      ⟨st, inp, e, h, os⟩ := by
  have hkeep (b : Bytes) : ServerEnv.written b st = st := by simp only [ServerEnv.written, hfile]
  have hrun (b : Bytes) : Runs (ServerEnv.writeOut b) ⟨st, inp, e, h, os⟩ () ⟨st, inp, e, h, os⟩ :=
    (runs_modifyGet _ _ _ _).mpr ⟨rfl, by simp only [hkeep]⟩
  have hsilent (b : Bytes) : Silent onDisk (ServerEnv.writeOut b) ⟨st, inp, e, h, os⟩ :=
    silent_act (congrArg onDisk (hkeep b))
  rw [blind_draw (fun m => hsilent (H m)) fun m => hrun (H m), blind_draw (fun m => hsilent (S m)) fun m => hrun (S m)]
  intro m m'
  rfl

theorem store_blind_iff {M : Type} {nb H S : M → Bytes} {name : Bytes} {n k : Nat} (hn : 0 < n) (hk : 0 < k)
    (hname : ∀ m, cstr (nb m) = name) (hH : ∀ m, (H m).length = n) (hS : ∀ m, (S m).length = k) :
    Blind onDisk (fun m => storeUpload E act (.ok (nb m, H m, S m))) ⟨st, inp, e, h, os⟩ ↔
      ((st.fs.openTrunc E.cwd (E.user_dir ++ (name ++ ext))).isSome → ∀ m m', H m = H m' ∧ S m = S m') := by
  have hnames : (E.opened (name ++ ext) st).names = st.names ++ [name ++ ext] := by
    unfold ServerEnv.opened
    split <;> rfl
  have hact : Blind onDisk (fun m => storeUpload E act (.ok (nb m, H m, S m))) ⟨st, inp, e, h, os⟩ ↔
      Blind onDisk
        (fun m => ServerEnv.writeOut (H m) >>= fun _ => ServerEnv.writeOut (S m) >>= fun _ => storeChunks E act)
        ⟨E.opened (name ++ ext) st, inp, e, h, os⟩ := by
    unfold storeUpload
    simp only [hname]
    refine blind_act (w := ⟨st, inp, e, h, os⟩) (g := fun s => ((), E.opened (name ++ ext) s))
      (k := fun m _ => ServerEnv.writeOut (H m) >>= fun _ => ServerEnv.writeOut (S m) >>= fun _ => storeChunks E act)
      (fun m => rfl) fun m x hx => ?_
    obtain ⟨s, hs, hxs⟩ := (grows_writes act (H m) (S m)).seen Grows.refl hx
    intro h0
    have hnm : s.names = st.names := congrArg Prod.fst (hxs.symm.trans h0)
    rw [hs.names, hnames] at hnm
    simp at hnm
  rw [hact]
  cases ho : st.fs.openTrunc E.cwd (E.user_dir ++ (name ++ ext)) with
  | none =>
    have hopened : (E.opened (name ++ ext) st).file = none := by simp only [ServerEnv.opened, ho]
    exact ⟨fun _ hno => absurd hno (by simp), fun _ => writes_blind_closed act H S hopened⟩
  | some x =>
    obtain ⟨p, fs'⟩ := x
    have hfile : (E.opened (name ++ ext) st).file = some p := by simp only [ServerEnv.opened, ho]
    have hfs : (E.opened (name ++ ext) st).fs = st.fs.insert p (.file []) := by
      simp only [ServerEnv.opened, ho]
      exact FS.openTrunc_eq ho
    rw [writes_blind_iff act hn hk hH hS hfile hfs]
    simp

end

/-! ## Header and salt -/

section
variable (E : ServerEnv)

def HeaderPasses (f : SessionEncWrapper) : Prop :=
  (∃ m, Verified E.na.aead E.server_rx f m ∧ m.length ≤ STREAM_HEADERBYTES) ∨ Stub f

def SaltPasses (f : SessionEncWrapper) : Prop :=
  ∃ m, Verified E.na.aead E.server_rx f m ∧ m.length ≤ PWHASH_SALTBYTES

/-- The salt is not there and will not come, or is turned down; -/
def SaltRefused (inp : Bytes) (e : Bool) : Prop :=
  match takeFrame inp with
  | none => e = true
  | some (sl, _) => sl.corrupted = true ∨ ¬ SaltPasses E sl

/-- the header, or the salt behind it. -/
def Refused (inp : Bytes) (e : Bool) : Prop :=
  match takeFrame inp with
  | none => e = true
  | some (hd, rest) => (hd.corrupted = true ∨ ¬ HeaderPasses E hd) ∨ SaltRefused E rest e

/-- Two frames that are let through. -/
def Headed (inp : Bytes) (hd sl : SessionEncWrapper) : Prop :=
  ∃ rest rest', takeFrame inp = some (hd, rest) ∧ hd.corrupted = false ∧ HeaderPasses E hd ∧
    takeFrame rest = some (sl, rest') ∧ sl.corrupted = false ∧ SaltPasses E sl

/-- They have as many bytes as the buffers. -/
def Filled (hd sl : SessionEncWrapper) : Prop :=
  (∃ m, Verified E.na.aead E.server_rx hd m ∧ m.length = STREAM_HEADERBYTES) ∧
    ∃ m, Verified E.na.aead E.server_rx sl m ∧ m.length = PWHASH_SALTBYTES

/-- The end of `init_read`: the salt, -/
def readSalt (act : Nat) (file_name_buf header salt : Bytes) : Server (Except Int (Bytes × Bytes × Bytes)) := do
  let salt_wrap ← ofSock ⟨act, .salt⟩
  if salt_wrap.corrupted then return .error 2
  else
    let s := salt_wrap.unwrap E.na.aead E.server_rx PWHASH_SALTBYTES salt 0
    if s.ret ≠ 0 then return .error 1
    else return .ok (file_name_buf, header, s.decrypted_data)

/-- and with the header before it. -/
def readHeaderSalt (act : Nat) (file_name_buf header salt : Bytes) :
    Server (Except Int (Bytes × Bytes × Bytes)) := do
  let header_wrap ← ofSock ⟨act, .header⟩
  if header_wrap.corrupted then return .error 4
  else
    let h := header_wrap.unwrap E.na.aead E.server_rx STREAM_HEADERBYTES header 0
    if h.ret ≠ 0 ∧ h.wrapper.corrupted = true then return .error 3
    else readSalt E act file_name_buf h.decrypted_data salt

end

section
variable {E : ServerEnv} {st : FsOperator} {inp : Bytes} {e : Bool} {h : List (Ev Role)} {os : List (Option Nat)}
  (act : Nat)

/-- The buffer a frame leaves behind, whatever it held. -/
def leftIn (E : ServerEnv) (cap : Nat) (f : SessionEncWrapper) (buf : Bytes) : Bytes :=
  (f.unwrap E.na.aead E.server_rx cap buf 0).decrypted_data

theorem leftIn_length {cap : Nat} {f : SessionEncWrapper} (hf : Taken f) {buf : Bytes} (hb : buf.length = cap)
    (hp : (∃ m, Verified E.na.aead E.server_rx f m ∧ m.length ≤ cap) ∨ Stub f) :
    (leftIn E cap f buf).length = cap := by
  unfold leftIn
  rcases hp with ⟨m, hv, hm⟩ | hs
  · rw [unwrap_verified hf hv hm]
    simp only [blit, List.length_append, List.length_drop]
    omega
  · rw [unwrap_stub hf hs]
    exact hb

/-- A buffer shows what it held unless the frame fills it. -/
theorem leftIn_same_iff {cap : Nat} (hcap : 0 < cap) {f : SessionEncWrapper} (hf : Taken f)
    (hp : (∃ m, Verified E.na.aead E.server_rx f m ∧ m.length ≤ cap) ∨ Stub f) :
    (∀ x y : Bytes, leftIn E cap f (fit cap x) = leftIn E cap f (fit cap y)) ↔
      ∃ m, Verified E.na.aead E.server_rx f m ∧ m.length = cap := by
  unfold leftIn
  constructor
  · intro hall
    have hxy := hall (List.replicate cap 0) (List.replicate cap 1)
    rcases hp with ⟨m, hv, hm⟩ | hs
    · rw [unwrap_verified hf hv hm, unwrap_verified hf hv hm] at hxy
      rcases Nat.lt_or_eq_of_le hm with hlt | heq
      · exact absurd hxy (blit_fit_differ hlt)
      · exact ⟨m, hv, heq⟩
    · rw [unwrap_stub hf hs, unwrap_stub hf hs] at hxy
      exact absurd (by simpa using hxy) (blit_fit_differ (b := []) hcap)
  · rintro ⟨m, hv, hm⟩ x y
    rw [unwrap_verified hf hv hm.le, unwrap_verified hf hv hm.le]
    simp only [blit_fit_full hm]

theorem salt_blind_iff {M : Type} {nb H sb : M → Bytes} {name : Bytes} (hname : ∀ m, cstr (nb m) = name)
    (hH : ∀ m, (H m).length = STREAM_HEADERBYTES) (hsb : ∀ m, (sb m).length = PWHASH_SALTBYTES) :
    Blind onDisk (fun m => readSalt E act (nb m) (H m) (sb m) >>= storeUpload E act) ⟨st, inp, e, h, os⟩ ↔
      ∀ sl rest, takeFrame inp = some (sl, rest) → sl.corrupted = false → SaltPasses E sl →
        (st.fs.openTrunc E.cwd (E.user_dir ++ (name ++ ext))).isSome →
        ∀ m m', H m = H m' ∧ leftIn E PWHASH_SALTBYTES sl (sb m) = leftIn E PWHASH_SALTBYTES sl (sb m') := by
  unfold readSalt
  simp only [LawfulMonad.bind_assoc]
  rw [blind_frame fun f v hf m m' => by simp only [hf, if_true]]
  refine forall_congr' fun sl => forall_congr' fun rest => forall_congr' fun ht => forall_congr' fun hc => ?_
  have hw := takeFrame_taken ht hc
  by_cases hp : SaltPasses E sl
  · have hret (m : M) := (unwrap_ret_zero_iff hw PWHASH_SALTBYTES (sb m) 0).mpr hp
    simp only [hc, Bool.false_eq_true, if_false, hret, ne_eq, not_true_eq_false, LawfulMonad.pure_bind, hp,
      forall_const]
    exact store_blind_iff act (by decide) (by decide) hname hH fun m => leftIn_length hw (hsb m) (.inl hp)
  · have hret (m : M) := mt (unwrap_ret_zero_iff hw PWHASH_SALTBYTES (sb m) 0).mp hp
    refine ⟨fun _ h => absurd h hp, fun _ m m' => ?_⟩
    simp only [hc, Bool.false_eq_true, if_false, hret, ne_eq, not_false_eq_true, if_true]

theorem header_blind_iff {M : Type} {nb hb sb : M → Bytes} {name : Bytes} (hname : ∀ m, cstr (nb m) = name)
    (hhb : ∀ m, (hb m).length = STREAM_HEADERBYTES) (hsb : ∀ m, (sb m).length = PWHASH_SALTBYTES) :
    Blind onDisk (fun m => readHeaderSalt E act (nb m) (hb m) (sb m) >>= storeUpload E act) ⟨st, inp, e, h, os⟩ ↔
      ∀ hd sl, Headed E inp hd sl → (st.fs.openTrunc E.cwd (E.user_dir ++ (name ++ ext))).isSome →
        ∀ m m', leftIn E STREAM_HEADERBYTES hd (hb m) = leftIn E STREAM_HEADERBYTES hd (hb m') ∧
          leftIn E PWHASH_SALTBYTES sl (sb m) = leftIn E PWHASH_SALTBYTES sl (sb m') := by
  have hstep : Blind onDisk (fun m => readHeaderSalt E act (nb m) (hb m) (sb m) >>= storeUpload E act)
        ⟨st, inp, e, h, os⟩ ↔
      ∀ hd rest, takeFrame inp = some (hd, rest) → hd.corrupted = false → HeaderPasses E hd →
        Blind onDisk
          (fun m => readSalt E act (nb m) (leftIn E STREAM_HEADERBYTES hd (hb m)) (sb m) >>= storeUpload E act)
          ⟨st, rest, e, h, os⟩ := by
    unfold readHeaderSalt
    simp only [LawfulMonad.bind_assoc]
    rw [blind_frame fun f v hf m m' => by simp only [hf, if_true]]
    refine forall_congr' fun hd => forall_congr' fun rest => forall_congr' fun ht => forall_congr' fun hc => ?_
    have hw := takeFrame_taken ht hc
    by_cases hp : HeaderPasses E hd
    · have hret (m : M) := (header_iff hw (hb m) 0).mpr hp
      simp only [hc, Bool.false_eq_true, if_false, if_neg (hret _), hp, forall_const]
      rfl
    · have hret (m : M) := not_not.mp (mt (header_iff hw (hb m) 0).mp hp)
      refine ⟨fun _ h => absurd h hp, fun _ m m' => ?_⟩
      simp only [hc, Bool.false_eq_true, if_false, if_pos (hret _)]
  rw [hstep]
  constructor
  · rintro hall hd sl ⟨rest, rest', ht, hc, hp, ht', hc', hp'⟩ hopen
    have hw := takeFrame_taken ht hc
    exact (salt_blind_iff act hname (fun m => leftIn_length hw (hhb m) hp) hsb).mp (hall hd rest ht hc hp)
      sl rest' ht' hc' hp' hopen
  · intro hall hd rest ht hc hp
    have hw := takeFrame_taken ht hc
    refine (salt_blind_iff act hname (fun m => leftIn_length hw (hhb m) hp) hsb).mpr ?_
    intro sl rest' ht' hc' hp' hopen
    exact hall hd sl ⟨rest, rest', ht, hc, hp, ht', hc', hp'⟩ hopen

/-- A file that opens shows what header and salt do not fill. -/
theorem drawn_blind_iff {nb : (Nat → Bytes) → Bytes} {name : Bytes} {i j : Nat} (hname : ∀ m, cstr (nb m) = name) :
    Blind onDisk (fun m : Nat → Bytes => readHeaderSalt E act (nb m) (fit STREAM_HEADERBYTES (m i))
        (fit PWHASH_SALTBYTES (m j)) >>= storeUpload E act) ⟨st, inp, e, h, os⟩ ↔
      ∀ hd sl, Headed E inp hd sl → (st.fs.openTrunc E.cwd (E.user_dir ++ (name ++ ext))).isSome → Filled E hd sl := by
  rw [header_blind_iff act hname (fun m => fit_length _ _) fun m => fit_length _ _]
  refine forall_congr' fun hd => forall_congr' fun sl => forall_congr' fun hh => forall_congr' fun _ => ?_
  obtain ⟨rest, rest', ht, hc, hp, ht', hc', hp'⟩ := hh
  unfold Filled
  rw [← leftIn_same_iff (by decide) (takeFrame_taken ht hc) hp,
    ← leftIn_same_iff (by decide) (takeFrame_taken ht' hc') (.inl hp')]
  constructor
  · intro hall
    exact ⟨fun x y => (hall (fun _ => x) fun _ => y).1, fun x y => (hall (fun _ => x) fun _ => y).2⟩
  · rintro ⟨h1, h2⟩ m m'
    exact ⟨h1 _ _, h2 _ _⟩

/-! ## What is refused -/

/-- Under `P` all that is seen is that 1 is returned, and else that is not seen. -/
def Answers1 (d : List Bytes × FS) (S : Set (Option Int × (List Bytes × FS) × List (Role × Bytes))) (P : Prop) :
    Prop :=
  (P → S = {(none, d, []), (some 1, d, [])}) ∧ (¬ P → (some 1, d, []) ∉ S)

theorem answers1_frame {r : Role} {k : SessionEncWrapper → Server Int} (bad : SessionEncWrapper → Prop)
    (P : Bytes → Prop) (hcor : ∀ f, f.corrupted = true → k f = pure 1)
    (hbad : ∀ f rest, takeFrame inp = some (f, rest) → bad f → k f = pure 1)
    (hgood : ∀ f rest, takeFrame inp = some (f, rest) → ¬ bad f →
      Answers1 (onDisk st) (Seen onDisk (k f) ⟨st, rest, e, h, os⟩) (P rest)) :
    Answers1 (onDisk st) (Seen onDisk (ofSock r >>= k) ⟨st, inp, e, h, os⟩)
      (match takeFrame inp with
        | none => e = true
        | some (f, rest) => bad f ∨ P rest) := by
  cases ht : takeFrame inp with
  | none =>
    cases e with
    | true =>
      obtain ⟨f, evs, hf, hr⟩ := runs_ofSock_eof st h os r ht
      have hseen : Seen onDisk (ofSock r >>= k) ⟨st, inp, true, h, os⟩ =
          {(none, onDisk st, []), (some 1, onDisk st, [])} := by
        rw [seen_silent (silent_ofSock r _) hr, hcor f hf, seen_pure]
      exact ⟨fun _ => hseen, fun hno => absurd rfl hno⟩
    | false =>
      have hstuck : Seen onDisk (ofSock r >>= k) ⟨st, inp, false, h, os⟩ = {(none, onDisk st, [])} := by
        refine seen_stuck (silent_ofSock r _) fun f v hr => ?_
        obtain ⟨rest, evs, -, ht' | ⟨-, he, -⟩⟩ := ofSock_cases hr
        · rw [ht] at ht'
          cases ht'
        · cases he
      refine ⟨fun he => absurd he Bool.false_ne_true, fun _ => ?_⟩
      rw [hstuck]
      simp
  | some x =>
    obtain ⟨f, rest⟩ := x
    rw [seen_taken ht]
    by_cases hf : bad f
    · simp only [hf, true_or]
      rw [hbad f rest ht hf, seen_pure]
      exact ⟨fun _ => rfl, fun hno => absurd trivial hno⟩
    · simp only [hf, false_or]
      exact hgood f rest ht hf

/-- Once the file is opened its name is seen. -/
theorem stored_not_one {nb H S : Bytes} :
    (some 1, onDisk st, []) ∉ Seen onDisk (storeUpload E act (.ok (nb, H, S))) ⟨st, inp, e, h, os⟩ := by
  intro hx
  rcases seen_act_cases hx with hx | hx
  · simp at hx
  · obtain ⟨s, hs, hxs⟩ := (grows_writes act H S).seen Grows.refl hx
    have hnames : (E.opened (cstr nb ++ ext) st).names = st.names ++ [cstr nb ++ ext] := by
      unfold ServerEnv.opened
      split <;> rfl
    have hnm : st.names = s.names := congrArg Prod.fst hxs
    rw [hs.names, hnames] at hnm
    simp at hnm

theorem answers1_salt (nb H sb : Bytes) :
    Answers1 (onDisk st) (Seen onDisk (readSalt E act nb H sb >>= storeUpload E act) ⟨st, inp, e, h, os⟩)
      (SaltRefused E inp e) := by
  unfold readSalt
  rw [LawfulMonad.bind_assoc]
  have hiff : SaltRefused E inp e = (match takeFrame inp with
      | none => e = true
      | some (f, _) => (f.corrupted = true ∨ ¬ SaltPasses E f) ∨ False) := by
    unfold SaltRefused
    simp only [or_false]
  rw [hiff]
  have hcor (f : SessionEncWrapper) (hf : f.corrupted = true) :
      ((if f.corrupted = true then pure (.error 2)
        else if (f.unwrap E.na.aead E.server_rx PWHASH_SALTBYTES sb 0).ret ≠ 0 then pure (.error 1)
        else pure (.ok (nb, H, leftIn E PWHASH_SALTBYTES f sb))) >>= storeUpload E act : Server Int) = pure 1 := by
    simp only [hf, if_true]
    rfl
  refine answers1_frame (fun f => f.corrupted = true ∨ ¬ SaltPasses E f) (fun _ => False) hcor ?_ ?_
  · intro f rest ht hf
    by_cases hc : f.corrupted = true
    · exact hcor f hc
    · have hret := mt (unwrap_ret_zero_iff (takeFrame_taken ht (by simpa using hc)) PWHASH_SALTBYTES sb 0).mp
        (hf.resolve_left hc)
      simp only [hc, Bool.false_eq_true, if_false, hret, ne_eq, not_false_eq_true, if_true]
      rfl
  · intro f rest ht hf
    obtain ⟨hc, hp⟩ : f.corrupted = false ∧ SaltPasses E f := by simpa using hf
    have hret := (unwrap_ret_zero_iff (takeFrame_taken ht hc) PWHASH_SALTBYTES sb 0).mpr hp
    simp only [hc, Bool.false_eq_true, if_false, hret, ne_eq, not_true_eq_false, LawfulMonad.pure_bind]
    exact ⟨fun h => h.elim, fun _ => stored_not_one act⟩

theorem answers1_header (nb hb sb : Bytes) :
    Answers1 (onDisk st) (Seen onDisk (readHeaderSalt E act nb hb sb >>= storeUpload E act) ⟨st, inp, e, h, os⟩)
      (Refused E inp e) := by
  unfold readHeaderSalt
  rw [LawfulMonad.bind_assoc]
  have hcor (f : SessionEncWrapper) (hf : f.corrupted = true) :
      ((if f.corrupted = true then pure (.error 4)
        else if (f.unwrap E.na.aead E.server_rx STREAM_HEADERBYTES hb 0).ret ≠ 0 ∧
          (f.unwrap E.na.aead E.server_rx STREAM_HEADERBYTES hb 0).wrapper.corrupted = true then pure (.error 3)
        else readSalt E act nb (leftIn E STREAM_HEADERBYTES f hb) sb) >>= storeUpload E act : Server Int) =
          pure 1 := by
    simp only [hf, if_true]
    rfl
  refine answers1_frame (fun f => f.corrupted = true ∨ ¬ HeaderPasses E f) (fun rest => SaltRefused E rest e) hcor
    ?_ ?_
  · intro f rest ht hf
    by_cases hc : f.corrupted = true
    · exact hcor f hc
    · have hret := not_not.mp (mt (header_iff (takeFrame_taken ht (by simpa using hc)) hb 0).mp (hf.resolve_left hc))
      simp only [hc, Bool.false_eq_true, if_false, if_pos hret]
      rfl
  · intro f rest ht hf
    obtain ⟨hc, hp⟩ : f.corrupted = false ∧ HeaderPasses E f := by simpa using hf
    have hret := (header_iff (takeFrame_taken ht hc) hb 0).mpr hp
    simp only [hc, Bool.false_eq_true, if_false, if_neg hret]
    exact answers1_salt act nb _ sb

end

/-! ## The name -/

section
variable (E : ServerEnv)

/-- `init_read` behind the `unwrap` of the name, -/
def checkName (act : Nat) (f : Unwrapped) (header salt : Bytes) : Server (Except Int (Bytes × Bytes × Bytes)) :=
  if f.ret = 2 then return .error 8
  else if MAX_FILE_NAME_LENGTH < (f.decrypted_data_len + ext.length) % 2 ^ 64 then return .error 7
  else readHeaderSalt E act (ServerEnv.terminate f.decrypted_data f.decrypted_data_len) header salt

/-- and from the name on. -/
def readName (act : Nat) (file_name_buf header salt : Bytes) : Server (Except Int (Bytes × Bytes × Bytes)) := do
  let file_name_wrap ← ofSock ⟨act, .fileName⟩
  if file_name_wrap.corrupted then return .error 9
  else
    let len0 ← E.uninit
    checkName E act (file_name_wrap.unwrap E.na.aead E.server_rx PRE_EXT_FILE_NAME_LEN file_name_buf
      (leDec (fit 8 len0))) header salt

/-- The name is there, or was overwritten when it did not verify. -/
def NameKept (f : SessionEncWrapper) : Prop :=
  (∃ m, Verified E.na.aead E.server_rx f m ∧ m.length ≤ PRE_EXT_FILE_NAME_LEN) ∨
    Forged E.na.aead E.server_rx PRE_EXT_FILE_NAME_LEN f

/-- The name it is then stored under. -/
def nameOf (f : SessionEncWrapper) : Bytes :=
  cstr ((E.na.aead.decrypt E.server_rx f.nonce f.session_encrypted_data).getD [])

end

section
variable {E : ServerEnv} {st : FsOperator} {inp : Bytes} {e : Bool} {h : List (Ev Role)} {os : List (Option Nat)}
  (act : Nat)

theorem terminate_blit (b buf : Bytes) : cstr (ServerEnv.terminate (blit b buf) b.length) = cstr b := by
  have hterm : ServerEnv.terminate (blit b buf) b.length = b ++ 0 :: (blit b buf).drop (b.length + 1) := by
    simp [ServerEnv.terminate, blit]
  rw [hterm]
  by_cases hb : 0 ∈ b
  · exact cstr_append_of_mem hb _
  · rw [cstr_append_nul hb, cstr_of_noNul hb]

/-- What the name's frame leaves, when it is kept. -/
theorem unwrap_kept {f : SessionEncWrapper} (hf : Taken f) (hk : NameKept E f) (buf : Bytes) (len : Nat) :
    (f.unwrap E.na.aead E.server_rx PRE_EXT_FILE_NAME_LEN buf len).ret ≠ 2 ∧
    ¬ MAX_FILE_NAME_LENGTH <
      ((f.unwrap E.na.aead E.server_rx PRE_EXT_FILE_NAME_LEN buf len).decrypted_data_len + ext.length) % 2 ^ 64 ∧
    cstr (ServerEnv.terminate (f.unwrap E.na.aead E.server_rx PRE_EXT_FILE_NAME_LEN buf len).decrypted_data
      (f.unwrap E.na.aead E.server_rx PRE_EXT_FILE_NAME_LEN buf len).decrypted_data_len) = nameOf E f := by
  have hpass := (name_iff hf buf len).mpr (hk.imp_right .inl)
  refine ⟨hpass.1, hpass.2, ?_⟩
  unfold nameOf
  rcases hk with ⟨m, hv, hm⟩ | hforged
  · rw [unwrap_verified hf hv hm, show E.na.aead.decrypt _ _ _ = some m from hv]
    exact terminate_blit m buf
  · rw [unwrap_forged hf hforged, hforged.rejected]
    rfl

/-- The frame of the name is shorter than a tag: its length is what memory held. -/
theorem stub_blind_iff {f : SessionEncWrapper} (hf : Taken f) (hs : Stub f) {l i j k : Nat} :
    Blind onDisk (fun m : Nat → Bytes => checkName E act
        (f.unwrap E.na.aead E.server_rx PRE_EXT_FILE_NAME_LEN (m l) (leDec (fit 8 (m k))))
        (fit STREAM_HEADERBYTES (m i)) (fit PWHASH_SALTBYTES (m j)) >>= storeUpload E act) ⟨st, inp, e, h, os⟩ ↔
      Refused E inp e := by
  simp only [unwrap_stub hf hs, checkName]
  constructor
  · intro hb
    by_contra hno
    have hm := hb (fun _ => u64Enc 1000) fun _ => []
    have hlong : leDec (fit 8 (u64Enc 1000)) = 1000 := by decide
    have hzero : leDec (fit 8 []) = 0 := by decide
    simp only [hlong, hzero] at hm
    rw [if_neg (by decide), if_pos (by decide), if_neg (by decide), if_neg (by decide)] at hm
    refine (answers1_header act _ _ _).2 hno (hm.subset ?_)
    change _ ∈ Seen onDisk (pure 1) _
    rw [seen_pure]
    exact .inr rfl
  · intro hr
    have hall (m : Nat → Bytes) : Seen onDisk ((if (3 : Int) = 2 then pure (.error 8)
        else if MAX_FILE_NAME_LENGTH < (leDec (fit 8 (m k)) + ext.length) % 2 ^ 64 then pure (.error 7)
        else readHeaderSalt E act (ServerEnv.terminate (m l) (leDec (fit 8 (m k))))
          (fit STREAM_HEADERBYTES (m i)) (fit PWHASH_SALTBYTES (m j))) >>= storeUpload E act) ⟨st, inp, e, h, os⟩ =
        {(none, onDisk st, []), (some 1, onDisk st, [])} := by
      rw [if_neg (by decide)]
      split
      · exact seen_pure onDisk 1 _
      · exact (answers1_header act _ _ _).1 hr
    intro m m'
    rw [hall m, hall m']

theorem name_blind_iff {l i j : Nat} :
    Blind onDisk (fun m => readName (withMemory E m) act (m l) (fit STREAM_HEADERBYTES (m i))
        (fit PWHASH_SALTBYTES (m j)) >>= storeUpload E act) ⟨st, inp, e, h, os⟩ ↔
      ∀ name rest, takeFrame inp = some (name, rest) → name.corrupted = false →
        (Stub name → Refused E rest e) ∧
        (NameKept E name → ∀ hd sl, Headed E rest hd sl →
          (st.fs.openTrunc E.cwd (E.user_dir ++ (nameOf E name ++ ext))).isSome → Filled E hd sl) := by
  unfold readName
  simp only [LawfulMonad.bind_assoc]
  rw [blind_frame fun f v hf m m' => by simp only [hf, if_true]]
  refine forall_congr' fun f => forall_congr' fun rest => forall_congr' fun ht => forall_congr' fun hc => ?_
  have hf := takeFrame_taken ht hc
  simp only [hc, Bool.false_eq_true, if_false, LawfulMonad.bind_assoc]
  rw [blind_uninit]
  by_cases hs : Stub f
  · have hnot : ¬ NameKept E f := by
      unfold Stub at hs
      rintro (⟨m, hv, -⟩ | hforged)
      · have hlen := hv.length hf
        omega
      · have htag := hforged.tag
        omega
    exact (stub_blind_iff act hf hs).trans ⟨fun hr => ⟨fun _ => hr, fun hk => absurd hk hnot⟩, fun hr => hr.1 hs⟩
  by_cases hk : NameKept E f
  · have hpass (m : Nat → Bytes) := unwrap_kept hf hk (m l) (leDec (fit 8 (m st.locals)))
    have hcheck (m : Nat → Bytes) : checkName E act
        (f.unwrap E.na.aead E.server_rx PRE_EXT_FILE_NAME_LEN (m l) (leDec (fit 8 (m st.locals))))
        (fit STREAM_HEADERBYTES (m i)) (fit PWHASH_SALTBYTES (m j)) =
        readHeaderSalt E act (ServerEnv.terminate
          (f.unwrap E.na.aead E.server_rx PRE_EXT_FILE_NAME_LEN (m l) (leDec (fit 8 (m st.locals)))).decrypted_data
          (f.unwrap E.na.aead E.server_rx PRE_EXT_FILE_NAME_LEN (m l)
            (leDec (fit 8 (m st.locals)))).decrypted_data_len)
        (fit STREAM_HEADERBYTES (m i)) (fit PWHASH_SALTBYTES (m j)) :=
      (if_neg (hpass m).1).trans (if_neg (hpass m).2.1)
    have hblind : Blind onDisk (fun m : Nat → Bytes => checkName E act
        (f.unwrap E.na.aead E.server_rx PRE_EXT_FILE_NAME_LEN (m l) (leDec (fit 8 (m st.locals))))
        (fit STREAM_HEADERBYTES (m i)) (fit PWHASH_SALTBYTES (m j)) >>= storeUpload E act)
        ⟨{ st with locals := st.locals + 1 }, rest, e, h, os⟩ ↔
        ∀ hd sl, Headed E rest hd sl →
          (st.fs.openTrunc E.cwd (E.user_dir ++ (nameOf E f ++ ext))).isSome → Filled E hd sl := by
      simp only [hcheck]
      exact drawn_blind_iff act fun m => (hpass m).2.2
    exact hblind.trans ⟨fun hall => ⟨fun hs' => absurd hs' hs, fun _ => hall⟩, fun hall => hall.2 hk⟩
  · have hlong (buf : Bytes) (len : Nat) : (f.unwrap E.na.aead E.server_rx PRE_EXT_FILE_NAME_LEN buf len).ret = 2 := by
      have hu : Unwraps E.na.aead E.server_rx PRE_EXT_FILE_NAME_LEN buf len f _ := hf.unwraps _ buf len
      generalize f.unwrap E.na.aead E.server_rx PRE_EXT_FILE_NAME_LEN buf len = u at hu
      cases hu with
      | stub h => exact absurd h hs
      | long => rfl
      | forged h => exact absurd (.inr h) hk
      | ok m hv hm => exact absurd (.inl ⟨m, hv, hm⟩) hk
    refine ⟨fun _ => ⟨fun h => absurd h hs, fun h => absurd h hk⟩, fun _ m m' => ?_⟩
    have hcheck (m : Nat → Bytes) (header salt : Bytes) : checkName E act
        (f.unwrap E.na.aead E.server_rx PRE_EXT_FILE_NAME_LEN (m l) (leDec (fit 8 (m st.locals)))) header salt =
        pure (.error 8) := if_pos (hlong _ _)
    exact congrArg (fun p => Seen onDisk (p >>= storeUpload E act) _) ((hcheck m _ _).trans (hcheck m' _ _).symm)

end

/-! ## The upload -/

section
variable (E : ServerEnv)

/-- An upload that is announced, up to the frame of its name. -/
def Announced (inp : Bytes) (name : SessionEncWrapper) (rest : Bytes) : Prop :=
  ∃ flag r, takeFrame inp = some (flag, r) ∧ flag.corrupted = false ∧
    (∃ b, b ≠ 0 ∧ Verified E.na.aead E.server_rx flag [b]) ∧ takeFrame r = some (name, rest) ∧ name.corrupted = false

/-- The frame of the name is shorter than a tag, and nothing behind it is refused. -/
def UnreadName (inp : Bytes) (e : Bool) : Prop :=
  ∃ name rest, Announced E inp name rest ∧ Stub name ∧ ¬ Refused E rest e

/-- Header and salt pass and do not fill their buffers, and the file opens. -/
def ShortHead (fs : FS) (inp : Bytes) : Prop :=
  ∃ name rest hd sl, Announced E inp name rest ∧ NameKept E name ∧ Headed E rest hd sl ∧
    (fs.openTrunc E.cwd (E.user_dir ++ (nameOf E name ++ ext))).isSome ∧ ¬ Filled E hd sl

end

section
variable {E : ServerEnv} {st : FsOperator} {inp : Bytes} {e : Bool} {h : List (Ev Role)} {os : List (Option Nat)}
  (act : Nat)

/-- `init_read` behind the `unwrap` of the flag. -/
def checkFlag (E : ServerEnv) (act : Nat) (c : Unwrapped) (file_name_buf header salt : Bytes) :
    Server (Except Int (Bytes × Bytes × Bytes)) :=
  if c.ret ≠ 0 then return .error 6
  else if c.decrypted_data.take 1 = [0] then return .error 5
  else readName E act file_name_buf header salt

theorem initRead_checkFlag (b hd sl : Bytes) : E.initRead act b hd sl =
    ofSock ⟨act, .fileExists⟩ >>= fun confirm_wrap =>
      checkFlag E act (confirm_wrap.unwrap E.na.aead E.server_rx 1 [0] 0) b hd sl := rfl

/-- A flag that is not set ends it. -/
theorem checkFlag_stops {c : Unwrapped} (hc : ¬ (c.ret = 0 ∧ ¬ c.decrypted_data.take 1 = [0])) (b hd sl : Bytes) :
    checkFlag E act c b hd sl >>= storeUpload E act = pure 1 := by
  unfold checkFlag
  by_cases hret : c.ret = 0
  · rw [if_neg (by simp [hret]), if_pos (by simpa [hret] using hc)]
    rfl
  · rw [if_pos hret]
    rfl

theorem wtfs_free : MemoryFree (fun E => E.wtfsHandlerServer act) E ⟨st, inp, e, h, os⟩ ↔
    ¬ UnreadName E inp e ∧ ¬ ShortHead E st.fs inp := by
  have hblind : MemoryFree (fun E => E.wtfsHandlerServer act) E ⟨st, inp, e, h, os⟩ ↔
      Blind onDisk (fun m => (withMemory E m).initRead act (m st.locals) (fit STREAM_HEADERBYTES (m (st.locals + 1)))
        (fit PWHASH_SALTBYTES (m (st.locals + 2))) >>= storeUpload E act)
        ⟨{ st with locals := st.locals + 3 }, inp, e, h, os⟩ := by
    unfold MemoryFree ServerEnv.wtfsHandlerServer
    rw [blind_uninit, blind_uninit, blind_uninit]
    rfl
  have hflag : MemoryFree (fun E => E.wtfsHandlerServer act) E ⟨st, inp, e, h, os⟩ ↔
      ∀ flag r, takeFrame inp = some (flag, r) → flag.corrupted = false →
        (∃ b, b ≠ 0 ∧ Verified E.na.aead E.server_rx flag [b]) →
        Blind onDisk (fun m => readName (withMemory E m) act (m st.locals) (fit STREAM_HEADERBYTES (m (st.locals + 1)))
          (fit PWHASH_SALTBYTES (m (st.locals + 2))) >>= storeUpload E act)
          ⟨{ st with locals := st.locals + 3 }, r, e, h, os⟩ := by
    rw [hblind]
    simp only [initRead_checkFlag, LawfulMonad.bind_assoc]
    have hstops {c : Unwrapped} (hc : ¬ (c.ret = 0 ∧ ¬ c.decrypted_data.take 1 = [0])) (v : World FsOperator Role) :
        Blind onDisk (fun m => checkFlag (withMemory E m) act c (m st.locals)
          (fit STREAM_HEADERBYTES (m (st.locals + 1)))
          (fit PWHASH_SALTBYTES (m (st.locals + 2))) >>= storeUpload E act) v := by
      intro m m'
      exact congrArg (fun p => Seen onDisk p v) ((checkFlag_stops (E := withMemory E m) act hc _ _ _).trans
        (checkFlag_stops (E := withMemory E m') act hc _ _ _).symm)
    rw [blind_frame]
    swap
    · intro f v hf
      have hret := unwrap_corrupted E.na.aead E.server_rx hf 1 [0] 0
      exact hstops (c := f.unwrap E.na.aead E.server_rx 1 [0] 0) (fun h0 => hret h0.1) v
    refine forall_congr' fun flag => forall_congr' fun r => forall_congr' fun ht => forall_congr' fun hc => ?_
    have hw := takeFrame_taken ht hc
    by_cases hb : ∃ b, b ≠ 0 ∧ Verified E.na.aead E.server_rx flag [b]
    · have hset := (flag_iff hw).mpr hb
      simp only [hb, forall_const]
      refine iff_of_eq (congrArg (fun k => Blind onDisk k _) (funext fun m => ?_))
      have hgo (b hd sl : Bytes) : checkFlag (withMemory E m) act
          (flag.unwrap (withMemory E m).na.aead (withMemory E m).server_rx 1 [0] 0) b hd sl =
          readName (withMemory E m) act b hd sl := (if_neg (not_not.mpr hset.1)).trans (if_neg hset.2)
      rw [hgo]
    · exact ⟨fun _ h => absurd h hb, fun _ => hstops (mt (flag_iff hw).mp hb) _⟩
  rw [hflag]
  constructor
  · intro hall
    constructor
    · rintro ⟨name, rest, ⟨flag, r, ht, hc, hb, ht', hc'⟩, hs, hr⟩
      exact hr ((name_blind_iff act).mp (hall flag r ht hc hb) name rest ht' hc' |>.1 hs)
    · rintro ⟨name, rest, hd, sl, ⟨flag, r, ht, hc, hb, ht', hc'⟩, hk, hh, hopen, hfill⟩
      exact hfill ((name_blind_iff act).mp (hall flag r ht hc hb) name rest ht' hc' |>.2 hk hd sl hh hopen)
  · rintro ⟨hun, hsh⟩ flag r ht hc hb
    refine (name_blind_iff act).mpr fun name rest ht' hc' => ⟨fun hs => ?_, fun hk hd sl hh hopen => ?_⟩
    · by_contra hr
      exact hun ⟨name, rest, ⟨flag, r, ht, hc, hb, ht', hc'⟩, hs, hr⟩
    · by_contra hfill
      exact hsh ⟨name, rest, hd, sl, ⟨flag, r, ht, hc, hb, ht', hc'⟩, hk, hh, hopen, hfill⟩

end

/-! ## The four handlers -/

/-- What is seen of a handler depends on memory exactly where a message that is too
short, or not terminated, is taken for what it should be. -/
theorem memory_free_iff (E : ServerEnv) (act : Nat) (w : World FsOperator Role) :
    (MemoryFree (fun E => E.receiveNoticeOfNewAction act) E w ↔ ¬ ShortNotice E w.inp) ∧
    (MemoryFree (fun E => E.readIntent act) E w ↔ ¬ ShortIntent E w.inp) ∧
    (MemoryFree (fun E => E.rffsHandlerServer act) E w ↔ ¬ OpenName E w.st.fs w.inp) ∧
    (MemoryFree (fun E => E.wtfsHandlerServer act) E w ↔ ¬ UnreadName E w.inp w.eof ∧ ¬ ShortHead E w.st.fs w.inp) :=
  ⟨receiveNotice_free act, readIntent_free act, rffs_free act, wtfs_free act⟩

/-- A message of alice's, to her server. -/
def aliceSays (m : Bytes) : Bytes := frame aliceServer.na.aead aliceServer.server_rx (u64Enc 0) m

/-- Alice sends an empty notice, an empty intent, a name without a NUL, and an upload
with an empty header. -/
theorem short_messages_show_memory :
    ¬ MemoryFree (fun E => E.receiveNoticeOfNewAction 0) aliceServer ⟨aliceDir, aliceSays [], false, [], []⟩ ∧
    ¬ MemoryFree (fun E => E.readIntent 0) aliceServer ⟨aliceDir, aliceSays [], false, [], []⟩ ∧
    ¬ MemoryFree (fun E => E.rffsHandlerServer 0) aliceServer ⟨aliceDir, aliceSays [97], false, [], []⟩ ∧
    ¬ MemoryFree (fun E => E.wtfsHandlerServer 0) aliceServer
      ⟨aliceDir, aliceSays [1] ++ aliceSays [97] ++ aliceSays [] ++ aliceSays (List.replicate 16 0), false, [],
        []⟩ := by
  have htake (m rest : Bytes) (hm : m.length ≤ FILE_ENCRYPTED_CHUNK_SIZE) :
      takeFrame (aliceSays m ++ rest) = some (received aliceServer.na.aead aliceServer.server_rx (u64Enc 0) m, rest) :=
    takeFrame_frame _ _ (u64Enc_length 0) hm rest
  have hbrings (m : Bytes) (hm : m.length ≤ FILE_ENCRYPTED_CHUNK_SIZE) : Brings aliceServer (aliceSays m) m := by
    have ht := htake m [] hm
    rw [List.append_nil] at ht
    exact ⟨_, [], ht, rfl, verified_received _ _ _ m⟩
  have hsalt := htake (List.replicate 16 0) [] (by decide)
  rw [List.append_nil] at hsalt
  refine ⟨?_, ?_, ?_, ?_⟩
  · rw [receiveNotice_free, not_not]
    exact ⟨[], hbrings [] (by decide), by decide, List.nil_prefix⟩
  · rw [readIntent_free, not_not]
    exact ⟨[], hbrings [] (by decide), by decide⟩
  · rw [rffs_free, not_not]
    exact ⟨[97], hbrings [97] (by decide), by decide, fun h => absurd h (by decide)⟩
  · rw [wtfs_free]
    intro hno
    simp only [List.append_assoc] at hno
    refine hno.2 ⟨_, _, _, _, ⟨_, _, htake [1] _ (by decide), rfl, ⟨1, by decide, verified_received _ _ _ _⟩,
      htake [97] _ (by decide), rfl⟩, .inl ⟨[97], verified_received _ _ _ _, by decide⟩,
      ⟨_, [], htake [] _ (by decide), rfl, .inl ⟨[], verified_received _ _ _ _, by decide⟩,
        hsalt, rfl,
        ⟨List.replicate 16 0, verified_received _ _ _ _, by decide⟩⟩, by decide, ?_⟩
    rintro ⟨⟨m, hv, hm⟩, -⟩
    rw [← (verified_received _ _ _ _).unique hv] at hm
    exact absurd hm (by decide)

end Mefsc.L4
