import Mefsc.L1Encoding.Socket

/-!
# Logging in

`verify_credentials` (`src/server/server.cpp`) and `login`
(`src/server/auth.cpp`). The results of the two `unwrap` calls are not looked
at, and the locals they fill are stack memory that an earlier session of the
same worker thread has used: `CredLocals` is what they hold, as the memory from
each buffer's address on. `login` clears them only when it succeeds.

* `Slot`: what a credential frame does to its buffer.
* `usernames`, `passwords`: what `login` may then be called with, over all
  earlier contents of the locals.
* `verdict_depends_on_connection_iff`: the verdict depends on this connection
  alone exactly when both frames carry a message, the username with a NUL in
  it, or nothing that may be presented is accepted.
-/
namespace Mefsc.L3

open L1 L1.SessionEncWrapper
open Proc hiding ret recv send act iter bind

/-- The rows (`username`, `hashed_pswd`) of the table `users`, and
`crypto_pwhash_str_verify`. -/
structure UserDb where
  users : List (Bytes × Bytes)
  pwhash_str_verify : Bytes → Bytes → Bool

/-- mirrors src/server/server.cpp:83-87 -/
structure CredLocals where
  decrypted_username : Bytes
  decrypted_password : Bytes
  decrypted_username_len : Nat
  decrypted_password_len : Nat

/-- `sodium_memzero` -/
def memzero (b : Bytes) (n : Nat) : Bytes := List.replicate (min n b.length) 0 ++ b.drop n

/-- mirrors src/server/auth.cpp:3-47 -/
def login (db : UserDb) (l : CredLocals) : Int × CredLocals :=
  match db.users.lookup (cstr l.decrypted_username) with
  | none => (1, l)
  | some db_password_hash =>
    if db.pwhash_str_verify db_password_hash (l.decrypted_password.take l.decrypted_password_len) then
      (0, { l with
        decrypted_username := memzero l.decrypted_username l.decrypted_username_len
        decrypted_password := memzero l.decrypted_password l.decrypted_password_len })
    else (1, l)

inductive Credential where
  | username | password
  deriving DecidableEq, Repr

/-- The return value and `username`.
mirrors src/server/server.cpp:80-111 -/
def verifyCredentials (db : UserDb) (A : Aead) (server_rx : Bytes) :
    Proc CredLocals Credential (Int × Bytes) := do
  let username_wrapper ← ofSock .username
  modify fun l =>
    let u := username_wrapper.unwrap A server_rx FILE_ENCRYPTED_CHUNK_SIZE l.decrypted_username
      l.decrypted_username_len
    { l with decrypted_username := u.decrypted_data, decrypted_username_len := u.decrypted_data_len }
  let username ← read fun l => cstr l.decrypted_username
  let password_wrapper ← ofSock .password
  modify fun l =>
    let p := password_wrapper.unwrap A server_rx FILE_ENCRYPTED_CHUNK_SIZE l.decrypted_password
      l.decrypted_password_len
    { l with decrypted_password := p.decrypted_data, decrypted_password_len := p.decrypted_data_len }
  if (← modifyGet (login db)) ≠ 0 then return (1, username) else return (0, username)

/-! ## What a frame leaves in a buffer -/

/-- A message, the zeros a failed verification writes over the message's
place, or nothing. -/
inductive Slot where
  | carried (m : Bytes)
  | cleared (n : Nat)
  | stale
  deriving DecidableEq, Repr

def slotOf (A : Aead) (rx : Bytes) (w : SessionEncWrapper) : Slot :=
  if w.enc_wrap_type ≠ .reader ∨ w.corrupted = true ∨
      stream_chunk_size < sub64 w.session_encrypted_data_length AEAD_ABYTES ∨
      FILE_ENCRYPTED_CHUNK_SIZE < sub64 w.session_encrypted_data_length AEAD_ABYTES then .stale
  else
    match A.decrypt rx w.nonce w.session_encrypted_data with
    | some m => .carried m
    | none => .cleared (w.session_encrypted_data.length - AEAD_ABYTES)

/-- Buffer and length variable behind it. -/
def Slot.fill : Slot → Bytes → Nat → Bytes × Nat
  | .carried m, buf, _ => (blit m buf, m.length)
  | .cleared n, buf, _ => (blit (List.replicate n 0) buf, 0)
  | .stale, buf, len => (buf, len)

theorem unwrap_fill (A : Aead) (rx : Bytes) (w : SessionEncWrapper) (buf : Bytes) (len : Nat) :
    ((w.unwrap A rx FILE_ENCRYPTED_CHUNK_SIZE buf len).decrypted_data,
      (w.unwrap A rx FILE_ENCRYPTED_CHUNK_SIZE buf len).decrypted_data_len) =
      (slotOf A rx w).fill buf len := by
  unfold unwrap slotOf
  by_cases h1 : w.enc_wrap_type ≠ .reader
  · simp [h1, Slot.fill]
  by_cases h2 : w.corrupted = true
  · simp [h1, h2, Slot.fill]
  by_cases h3 : stream_chunk_size < sub64 w.session_encrypted_data_length AEAD_ABYTES
  · simp [h1, h2, h3, Slot.fill]
  by_cases h4 : FILE_ENCRYPTED_CHUNK_SIZE < sub64 w.session_encrypted_data_length AEAD_ABYTES
  · simp [h1, h2, h3, h4, Slot.fill]
  · cases hd : A.decrypt rx w.nonce w.session_encrypted_data <;>
      simp [h1, h2, h3, h4, aeadDecrypt, hd, Slot.fill]

/-- The next credential frame of a stream, and the rest. -/
def takeSlot (A : Aead) (rx : Bytes) (inp : Bytes) (eof : Bool) : Option (Slot × Bytes) :=
  match takeFrame inp with
  | some (w, rest) => some (slotOf A rx w, rest)
  | none => if eof then some (.stale, []) else none

/-- The usernames the buffer may hold after it, over all earlier contents. -/
def Slot.usernames : Slot → Set Bytes
  | .carried m => if 0 ∈ m then {cstr m} else {u | ∃ t, 0 ∉ t ∧ u = m ++ t}
  | .cleared 0 => {u | 0 ∉ u}
  | .cleared (_ + 1) => {[]}
  | .stale => {u | 0 ∉ u}

def Slot.passwords : Slot → Set Bytes
  | .carried m => {m}
  | .cleared _ => {[]}
  | .stale => Set.univ

theorem mem_usernames_iff (s : Slot) (len : Nat) (u : Bytes) :
    u ∈ s.usernames ↔ ∃ buf, cstr (s.fill buf len).1 = u := by
  cases s with
  | carried m =>
    by_cases hm : 0 ∈ m
    · simp [Slot.usernames, Slot.fill, hm, blit, cstr_append_of_mem, eq_comm]
    · simp only [Slot.usernames, hm, if_false, Slot.fill, blit, Set.mem_ofPred_eq]
      constructor
      · rintro ⟨t, ht, rfl⟩
        refine ⟨m ++ t, ?_⟩
        rw [List.drop_left, cstr_append_noNul hm, cstr_of_noNul ht]
      · rintro ⟨buf, rfl⟩
        exact ⟨cstr (buf.drop m.length), cstr_noNul _, cstr_append_noNul hm _⟩
  | cleared n =>
    cases n with
    | zero =>
      simp only [Slot.usernames, Slot.fill, List.replicate_zero, blit_nil, Set.mem_ofPred_eq]
      constructor
      · intro hu
        exact ⟨u, cstr_of_noNul hu⟩
      · rintro ⟨buf, rfl⟩
        exact cstr_noNul buf
    | succ n => simp [Slot.usernames, Slot.fill, blit, List.replicate_succ, cstr, eq_comm]
  | stale =>
    simp only [Slot.usernames, Slot.fill, Set.mem_ofPred_eq]
    constructor
    · intro hu
      exact ⟨u, cstr_of_noNul hu⟩
    · rintro ⟨buf, rfl⟩
      exact cstr_noNul buf

/-- The password `login` hashes. -/
def Slot.password (s : Slot) (buf : Bytes) (len : Nat) : Bytes := (s.fill buf len).1.take (s.fill buf len).2

theorem mem_passwords_iff (s : Slot) (p : Bytes) :
    p ∈ s.passwords ↔ ∃ buf len, s.password buf len = p := by
  cases s with
  | carried m => simp [Slot.passwords, Slot.password, Slot.fill, blit, eq_comm]
  | cleared n => simp [Slot.passwords, Slot.password, Slot.fill, eq_comm]
  | stale =>
    simp only [Slot.passwords, Set.mem_univ, true_iff, Slot.password, Slot.fill]
    exact ⟨p, p.length, List.take_length⟩

/-! ## The verdict -/

/-- Some row has this name and a hash that the password verifies against. -/
def UserDb.accepts (db : UserDb) (u p : Bytes) : Bool :=
  match db.users.lookup u with
  | none => false
  | some db_password_hash => db.pwhash_str_verify db_password_hash p

theorem login_fst (db : UserDb) (l : CredLocals) :
    (login db l).1 = if db.accepts (cstr l.decrypted_username)
      (l.decrypted_password.take l.decrypted_password_len) then 0 else 1 := by
  unfold login UserDb.accepts
  cases db.users.lookup (cstr l.decrypted_username) with
  | none => simp
  | some hash => simp only; split <;> rfl

section
variable {db : UserDb} {A : Aead} {rx : Bytes} {inp : Bytes} {e : Bool} {h : List (Ev Credential)}
  {os : List (Option Nat)}

variable (A rx) in
theorem ofSock_slot {σ ρ : Type} {st : σ} {h : List (Ev ρ)} {r : ρ} {w : SessionEncWrapper}
    {w1 : World σ ρ} (hx : Runs (ofSock r) ⟨st, inp, e, h, os⟩ w w1) :
    ∃ rest evs, w1 = ⟨st, rest, e, h ++ evs, os⟩ ∧ takeSlot A rx inp e = some (slotOf A rx w, rest) := by
  obtain ⟨rest, evs, rfl, hf | ⟨hf, rfl, hc, rfl⟩⟩ := ofSock_cases hx
  · exact ⟨rest, evs, rfl, by simp [takeSlot, hf]⟩
  · exact ⟨[], evs, rfl, by simp [takeSlot, hf, slotOf, hc]⟩

/-- What `verify_credentials` returns, from what the two frames leave. -/
theorem verifyCredentials_cases {l : CredLocals} {ret : Int} {username : Bytes}
    {w' : World CredLocals Credential}
    (hx : Runs (verifyCredentials db A rx) ⟨l, inp, e, h, os⟩ (ret, username) w') :
    ∃ s1 r1 s2 r2, takeSlot A rx inp e = some (s1, r1) ∧ takeSlot A rx r1 e = some (s2, r2) ∧
      ret = if db.accepts (cstr (s1.fill l.decrypted_username l.decrypted_username_len).1)
        (s2.password l.decrypted_password l.decrypted_password_len) then 0 else 1 := by
  unfold verifyCredentials at hx
  rw [runs_bind] at hx
  obtain ⟨uw, w1, h1, hx⟩ := hx
  obtain ⟨r1, evs1, rfl, t1⟩ := ofSock_slot A rx h1
  rw [runs_bind] at hx
  obtain ⟨_, w2, h2, hx⟩ := hx
  obtain rfl := (runs_modify _ _ _ _).mp h2
  rw [runs_bind] at hx
  obtain ⟨_, w3, h3, hx⟩ := hx
  obtain ⟨rfl, rfl⟩ := (runs_read _ _ _ _).mp h3
  rw [runs_bind] at hx
  obtain ⟨pw, w4, h4, hx⟩ := hx
  obtain ⟨r2, evs2, rfl, t2⟩ := ofSock_slot A rx h4
  rw [runs_bind] at hx
  obtain ⟨_, w5, h5, hx⟩ := hx
  obtain rfl := (runs_modify _ _ _ _).mp h5
  rw [runs_bind] at hx
  obtain ⟨v, w6, h6, hx⟩ := hx
  obtain ⟨rfl, rfl⟩ := (runs_modifyGet _ _ _ _).mp h6
  rw [runs_ite_pure] at hx
  refine ⟨_, r1, _, r2, t1, t2, ?_⟩
  have hu := unwrap_fill A rx uw l.decrypted_username l.decrypted_username_len
  have hp := unwrap_fill A rx pw l.decrypted_password l.decrypted_password_len
  rw [Slot.password, ← hu, ← hp]
  have hret := congrArg Prod.fst hx.1
  rw [login_fst] at hret
  simp only at hret ⊢
  rw [hret]
  split <;> simp_all

/-- The name it returns is the one it looks up. -/
theorem verifyCredentials_username {l : CredLocals} {ret : Int} {username : Bytes}
    {w' : World CredLocals Credential}
    (hx : Runs (verifyCredentials db A rx) ⟨l, inp, e, h, os⟩ (ret, username) w') :
    ∃ s1 r1, takeSlot A rx inp e = some (s1, r1) ∧
      username = cstr (s1.fill l.decrypted_username l.decrypted_username_len).1 := by
  unfold verifyCredentials at hx
  rw [runs_bind] at hx
  obtain ⟨uw, w1, h1, hx⟩ := hx
  obtain ⟨r1, evs1, rfl, t1⟩ := ofSock_slot A rx h1
  rw [runs_bind] at hx
  obtain ⟨_, w2, h2, hx⟩ := hx
  obtain rfl := (runs_modify _ _ _ _).mp h2
  rw [runs_bind] at hx
  obtain ⟨_, w3, h3, hx⟩ := hx
  obtain ⟨rfl, rfl⟩ := (runs_read _ _ _ _).mp h3
  rw [runs_bind] at hx
  obtain ⟨pw, w4, -, hx⟩ := hx
  rw [runs_bind] at hx
  obtain ⟨_, w5, -, hx⟩ := hx
  rw [runs_bind] at hx
  obtain ⟨v, w6, -, hx⟩ := hx
  rw [runs_ite_pure] at hx
  refine ⟨_, r1, t1, ?_⟩
  rw [← unwrap_fill]
  have hname := congrArg Prod.snd hx.1
  split at hname <;> exact hname

theorem runs_ofSock_slot {σ ρ : Type} (st : σ) (h : List (Ev ρ)) (r : ρ) {s : Slot} {rest : Bytes}
    (ht : takeSlot A rx inp e = some (s, rest)) :
    ∃ w evs, slotOf A rx w = s ∧ Runs (ofSock r) ⟨st, inp, e, h, os⟩ w ⟨st, rest, e, h ++ evs, os⟩ := by
  unfold takeSlot at ht
  cases hf : takeFrame inp with
  | some x =>
    obtain ⟨w, r'⟩ := x
    simp only [hf, Option.some.injEq, Prod.mk.injEq] at ht
    obtain ⟨rfl, rfl⟩ := ht
    obtain ⟨evs, hr⟩ := runs_ofSock_take st e h _ r hf
    exact ⟨w, evs, rfl, hr⟩
  | none =>
    simp only [hf] at ht
    cases e with
    | false => simp at ht
    | true =>
      simp only [if_true, Option.some.injEq, Prod.mk.injEq] at ht
      obtain ⟨rfl, rfl⟩ := ht
      obtain ⟨w, evs, hc, hr⟩ := runs_ofSock_eof st h _ r hf
      exact ⟨w, evs, by simp [slotOf, hc], hr⟩

variable (db h) in
theorem halts_verifyCredentials {s1 s2 : Slot} {r1 r2 : Bytes} (t1 : takeSlot A rx inp e = some (s1, r1))
    (t2 : takeSlot A rx r1 e = some (s2, r2)) (l : CredLocals) :
    Halts (verifyCredentials db A rx) ⟨l, inp, e, h, os⟩ := by
  obtain ⟨uw, evs1, -, x1⟩ := runs_ofSock_slot l h Credential.username t1
  refine x1.halts_bind ?_
  refine ((runs_modify _ _ () _).mpr rfl).halts_bind ?_
  refine ((runs_read _ _ _ _).mpr ⟨rfl, rfl⟩).halts_bind ?_
  obtain ⟨pw, evs2, -, x2⟩ := runs_ofSock_slot _ (h ++ evs1) Credential.password t2
  refine x2.halts_bind ?_
  refine ((runs_modify _ _ () _).mpr rfl).halts_bind ?_
  refine ((runs_modifyGet _ _ _ _).mpr ⟨rfl, rfl⟩).halts_bind ?_
  exact ⟨_, _, (runs_ite_pure _ _ _ _ _ _).mpr ⟨rfl, rfl⟩⟩

variable (db h) in
/-- The run for given locals. -/
theorem runs_verifyCredentials {s1 s2 : Slot} {r1 r2 : Bytes} (t1 : takeSlot A rx inp e = some (s1, r1))
    (t2 : takeSlot A rx r1 e = some (s2, r2)) (l : CredLocals) :
    ∃ username w', Runs (verifyCredentials db A rx) ⟨l, inp, e, h, os⟩
      (if db.accepts (cstr (s1.fill l.decrypted_username l.decrypted_username_len).1)
        (s2.password l.decrypted_password l.decrypted_password_len) then 0 else 1, username) w' := by
  obtain ⟨⟨ret, username⟩, w', hr⟩ := halts_verifyCredentials db h t1 t2 l
  obtain ⟨s1', r1', s2', r2', t1', t2', hret⟩ := verifyCredentials_cases hr
  rw [t1] at t1'
  cases t1'
  rw [t2] at t2'
  cases t2'
  exact ⟨username, w', hret ▸ hr⟩

end

/-! ## One connection -/

/-- Both credential frames of the stream passed verification; the messages
they carry. -/
def Carries (A : Aead) (rx inp : Bytes) (e : Bool) (m1 m2 : Bytes) : Prop :=
  ∃ r1 r2, takeSlot A rx inp e = some (.carried m1, r1) ∧ takeSlot A rx r1 e = some (.carried m2, r2)

/-- Whatever the locals held before: 0 is returned only for what the two
frames carry, and the verdict does not depend on it. -/
def OnlyThisConnection (db : UserDb) (A : Aead) (rx inp : Bytes) (e : Bool) : Prop :=
  (∀ l username w', Runs (verifyCredentials db A rx) ⟨l, inp, e, [], []⟩ (0, username) w' →
    ∃ m1 m2, Carries A rx inp e m1 m2 ∧ db.accepts (cstr m1) m2 = true) ∧
  ∀ l l' ret ret' u u' w w', Runs (verifyCredentials db A rx) ⟨l, inp, e, [], []⟩ (ret, u) w →
    Runs (verifyCredentials db A rx) ⟨l', inp, e, [], []⟩ (ret', u') w' → ret = ret'

/-- Both frames pass and the username is terminated, or no account accepts
anything that the locals may present. -/
def Determined (db : UserDb) (A : Aead) (rx inp : Bytes) (e : Bool) : Prop :=
  ∀ s1 r1 s2 r2, takeSlot A rx inp e = some (s1, r1) → takeSlot A rx r1 e = some (s2, r2) →
    (∃ m1 m2, s1 = .carried m1 ∧ 0 ∈ m1 ∧ s2 = .carried m2) ∨
    ∀ u ∈ s1.usernames, ∀ p ∈ s2.passwords, db.accepts u p = false

/-- A name longer than every name in the table is not accepted. -/
theorem UserDb.accepts_of_long {db : UserDb} {u : Bytes} (hu : ∀ x ∈ db.users, x.1.length < u.length)
    (p : Bytes) : db.accepts u p = false := by
  have hnone : db.users.lookup u = none := by
    rw [List.lookup_eq_none_iff]
    intro x hx
    have hlt := hu x hx
    rw [bne_iff_ne]
    rintro rfl
    omega
  simp [UserDb.accepts, hnone]

/-- An unterminated username has a continuation that is no user's name. -/
theorem UserDb.exists_not_accepts (db : UserDb) (m p : Bytes) :
    ∃ t : Bytes, 0 ∉ t ∧ db.accepts (m ++ t) p = false := by
  let n := (db.users.map Prod.fst).flatten.length
  refine ⟨List.replicate (n + 1) 1, by simp, UserDb.accepts_of_long (fun x hx => ?_) p⟩
  have hle : x.1.length ≤ n := (List.sublist_flatten_of_mem (List.mem_map_of_mem hx)).length_le
  rw [List.length_append, List.length_replicate]
  omega

theorem verdict_depends_on_connection_iff (db : UserDb) (A : Aead) (rx inp : Bytes) (e : Bool) :
    OnlyThisConnection db A rx inp e ↔ Determined db A rx inp e := by
  constructor
  · rintro ⟨honly, hsame⟩ s1 r1 s2 r2 t1 t2
    by_contra hno
    simp only [not_or, not_forall, exists_prop, Bool.not_eq_false] at hno
    obtain ⟨hterm, u, hu, p, hp, hacc⟩ := hno
    obtain ⟨ubuf, rfl⟩ := (mem_usernames_iff s1 0 u).mp hu
    obtain ⟨pbuf, plen, rfl⟩ := (mem_passwords_iff s2 p).mp hp
    obtain ⟨n, w, hr⟩ := runs_verifyCredentials db [] t1 t2 ⟨ubuf, pbuf, 0, plen⟩
    simp only [hacc, if_true] at hr
    -- so both frames carry a message, and the username has no end
    obtain ⟨m1, m2, ⟨r1', r2', t1', t2'⟩, -⟩ := honly _ _ _ hr
    rw [t1] at t1'
    cases t1'
    rw [t2] at t2'
    cases t2'
    have h0 : 0 ∉ m1 := fun h0 => hterm ⟨m1, m2, rfl, h0, rfl⟩
    obtain ⟨t, ht, hrej⟩ := db.exists_not_accepts m1 m2
    obtain ⟨n', w', hr'⟩ := runs_verifyCredentials db [] t1 t2 ⟨m1 ++ t, pbuf, 0, plen⟩
    have hu' : cstr (m1 ++ t) = m1 ++ t := by rw [cstr_append_noNul h0, cstr_of_noNul ht]
    simp only [Slot.fill, blit, List.drop_left, Slot.password, List.take_left, hu', hrej] at hr'
    exact absurd (hsame _ _ _ _ _ _ _ _ hr hr') (by decide)
  · intro hdet
    constructor
    · intro l username w' hr
      obtain ⟨s1, r1, s2, r2, t1, t2, hret⟩ := verifyCredentials_cases hr
      rcases hdet _ _ _ _ t1 t2 with ⟨m1, m2, rfl, h0, rfl⟩ | hno
      · refine ⟨m1, m2, ⟨r1, r2, t1, t2⟩, ?_⟩
        by_contra hrej
        simp [Slot.fill, blit, cstr_append_of_mem h0, Slot.password, hrej] at hret
      · rw [hno _ ((mem_usernames_iff s1 _ _).mpr ⟨_, rfl⟩) _ ((mem_passwords_iff s2 _).mpr ⟨_, _, rfl⟩)]
          at hret
        simp at hret
    · intro l l' ret ret' u u' w w' hr hr'
      obtain ⟨s1, r1, s2, r2, t1, t2, hret⟩ := verifyCredentials_cases hr
      obtain ⟨s1', r1', s2', r2', t1', t2', hret'⟩ := verifyCredentials_cases hr'
      rw [t1] at t1'
      cases t1'
      rw [t2] at t2'
      cases t2'
      rw [hret, hret']
      rcases hdet _ _ _ _ t1 t2 with ⟨m1, m2, rfl, h0, rfl⟩ | hno
      · simp [Slot.fill, blit, cstr_append_of_mem h0, Slot.password]
      · have hrej : ∀ (ubuf pbuf : Bytes) (ulen plen : Nat),
            db.accepts (cstr (s1.fill ubuf ulen).1) (s2.password pbuf plen) = false :=
          fun ubuf pbuf ulen plen => hno _ ((mem_usernames_iff s1 _ _).mpr ⟨_, rfl⟩) _
            ((mem_passwords_iff s2 _).mpr ⟨_, _, rfl⟩)
        rw [hrej, hrej]

/-- One user, `"alice"` with the password `"pw"`, over a hash that is the
password itself. -/
def aliceDb : UserDb := ⟨[([97, 108, 105, 99, 101], [112, 119])], fun hash p => hash == p⟩

/-- The length field of the first frame is out of range; the second one
carries `"pw"`. -/
def badFirstFrame : Bytes := u64Enc (stream_chunk_size + 1) ++ frame plainAead [1] (u64Enc 7) [112, 119]

/-- With `"alice"` left in `decrypted_username` by an earlier login that was
refused, this connection is logged in as alice. -/
theorem stale_username_accepted : ¬ OnlyThisConnection aliceDb plainAead [1] badFirstFrame false := by
  have t1 : takeSlot plainAead [1] badFirstFrame false =
      some (.stale, frame plainAead [1] (u64Enc 7) [112, 119]) := by decide
  have t2 : takeSlot plainAead [1] (frame plainAead [1] (u64Enc 7) [112, 119]) false =
      some (.carried [112, 119], []) := by decide
  rintro ⟨honly, -⟩
  obtain ⟨u, w, hr⟩ := runs_verifyCredentials aliceDb [] t1 t2
    ⟨[97, 108, 105, 99, 101, 0], [], 0, 0⟩
  obtain ⟨m1, m2, ⟨r1, r2, t1', -⟩, -⟩ := honly _ _ _ hr
  rw [t1] at t1'
  cases t1'

end Mefsc.L3
