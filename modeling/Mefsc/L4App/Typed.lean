import Mefsc.L3Protocol.Prompt
import Mefsc.L4App.Connection

/-!
# What is typed is what is done

`process_runs`: the client's process at its prompt does, for every text on `std::cin`,
what the process of the other modules does with the username, the password and the
actions found in the text, and ends exactly when they are there, as far as it gets,
and that one does. So nothing is lost by giving them as values.

`spoken_done`: a text that spells them as a user would has them done. On a text that
ends behind a yes the client announces one more action and never ends
(`prompt_hangs`).
-/
namespace Mefsc.L4

open L1 L1.SessionEncWrapper L2 L3
open Proc hiding ret recv send act iter bind bind_assoc

variable {ρ : Type}

/-- The client's world with something on `std::cin`. -/
def typing (w : World ClientState ρ) (c : TextIn) : World Typing ρ :=
  ⟨⟨w.st, c⟩, w.inp, w.eof, w.hist, w.outcomes⟩

/-- On the text `c` the program at the prompt does what `q` does, and `c'` is left. -/
def Says {α : Type} (p : Proc Typing ρ α) (c : TextIn) (q : Proc ClientState ρ α) (c' : TextIn) : Prop :=
  ∀ w a w', Runs p (typing w c) a w' ↔ ∃ v, Runs q w a v ∧ w' = typing v c'

/-- It never ends. -/
def Spins {α : Type} (p : Proc Typing ρ α) (c : TextIn) : Prop := ∀ w a w', ¬ Runs p (typing w c) a w'

/-! ## Programs at the prompt -/

section
variable {α β : Type} {c c' c'' : TextIn}

theorem typing_eq_within (w : World ClientState ρ) (st : ClientState) (c : TextIn) :
    w.within clientPart id ⟨st, c⟩ [] = typing w c := by
  have hid : ∀ h : List (Ev ρ), h.map (Ev.relabel id) = h := by
    intro h
    induction h with
    | nil => rfl
    | cons e h ih => cases e <;> simp [Ev.relabel, ih]
  simp [World.within, typing, hid, clientPart]

theorem says_quiet (p : Proc ClientState ρ α) (c : TextIn) : Says (quiet p) c p c := by
  intro w a w'
  rw [← typing_eq_within w w.st c, quiet, runs_zoom_within]
  simp only [typing_eq_within]

theorem says_extract (x : TextIn → Option α × TextIn) (c : TextIn) :
    Says (ρ := ρ) (extract x) c (pure (x c).1) (x c).2 := by
  intro w a w'
  unfold extract
  rw [runs_modifyGet]
  constructor
  · intro hruns
    obtain ⟨rfl, rfl⟩ := hruns
    exact ⟨w, (runs_pure _ _ _ _).mpr ⟨rfl, rfl⟩, rfl⟩
  · intro hruns
    obtain ⟨v, hv, rfl⟩ := hruns
    obtain ⟨rfl, rfl⟩ := (runs_pure _ _ _ _).mp hv
    exact ⟨rfl, rfl⟩

theorem says_pure (a : α) (c : TextIn) : Says (ρ := ρ) (pure a) c (pure a) c := by
  intro w b w'
  simp only [runs_pure]
  constructor
  · intro hruns
    obtain ⟨rfl, rfl⟩ := hruns
    exact ⟨w, ⟨rfl, rfl⟩, rfl⟩
  · intro hruns
    obtain ⟨v, ⟨rfl, rfl⟩, rfl⟩ := hruns
    exact ⟨rfl, rfl⟩

/-- `P` is what is known of the results of the first part. -/
theorem Says.bind_of {p : Proc Typing ρ α} {q : Proc ClientState ρ α} {f : α → Proc Typing ρ β}
    {g : α → Proc ClientState ρ β} (P : α → Prop) (hP : ∀ w a v, Runs q w a v → P a)
    (h1 : Says p c q c') (h2 : ∀ a, P a → Says (f a) c' (g a) c'') :
    Says (p >>= f) c (q >>= g) c'' := by
  intro w b w'
  simp only [runs_bind]
  constructor
  · intro hruns
    obtain ⟨a, w1, ha, hb⟩ := hruns
    obtain ⟨v, hv, rfl⟩ := (h1 w a w1).mp ha
    obtain ⟨u, hu, rfl⟩ := (h2 a (hP w a v hv) v b w').mp hb
    exact ⟨u, ⟨a, v, hv, hu⟩, rfl⟩
  · intro hruns
    obtain ⟨u, ⟨a, v, hv, hu⟩, rfl⟩ := hruns
    exact ⟨a, _, (h1 w a _).mpr ⟨v, hv, rfl⟩, (h2 a (hP w a v hv) v b _).mpr ⟨u, hu, rfl⟩⟩

theorem Says.bind {p : Proc Typing ρ α} {q : Proc ClientState ρ α} {f : α → Proc Typing ρ β}
    {g : α → Proc ClientState ρ β} (h1 : Says p c q c') (h2 : ∀ a, Says (f a) c' (g a) c'') :
    Says (p >>= f) c (q >>= g) c'' :=
  h1.bind_of (fun _ => True) (fun _ _ _ _ => trivial) fun a _ => h2 a

/-- What is read is a constant of the rest. -/
theorem Says.bind_pure {p : Proc Typing ρ α} {a : α} {f : α → Proc Typing ρ β} {q : Proc ClientState ρ β}
    (h1 : Says p c (pure a) c') (h2 : Says (f a) c' q c'') : Says (p >>= f) c q c'' := by
  have h := h1.bind_of (fun b => b = a) (fun _ _ _ hb => ((runs_pure _ _ _ _).mp hb).1)
    (f := f) (g := fun _ => q) (by rintro _ rfl; exact h2)
  exact h

theorem Spins.bind {p : Proc Typing ρ α} (h : Spins p c) (f : α → Proc Typing ρ β) : Spins (p >>= f) c := by
  intro w b w' hb
  obtain ⟨a, w1, ha, -⟩ := (runs_bind _ _ _ _ _).mp hb
  exact h w a w1 ha

theorem Says.spins_of {p : Proc Typing ρ α} {q : Proc ClientState ρ α} {f : α → Proc Typing ρ β} (P : α → Prop)
    (hP : ∀ w a v, Runs q w a v → P a) (h1 : Says p c q c') (h2 : ∀ a, P a → Spins (f a) c') :
    Spins (p >>= f) c := by
  intro w b w' hb
  obtain ⟨a, w1, ha, hf⟩ := (runs_bind _ _ _ _ _).mp hb
  obtain ⟨v, hv, rfl⟩ := (h1 w a w1).mp ha
  exact h2 a (hP w a v hv) v b w' hf

theorem Says.spins {p : Proc Typing ρ α} {q : Proc ClientState ρ α} {f : α → Proc Typing ρ β} (h1 : Says p c q c')
    (h2 : ∀ a, Spins (f a) c') : Spins (p >>= f) c :=
  h1.spins_of (fun _ => True) (fun _ _ _ _ => trivial) fun a _ => h2 a

/-! ## `get_stuff` -/

variable {x : TextIn → Option α × TextIn}

theorem exec_tryOnce (n : Nat) (u : Unit) (w : World ClientState ρ) (c : TextIn) :
    exec n (tryOnce x u) (typing w c) = (TextIn.retry x u c).map fun y => (y.1, typing w y.2) := by
  have hb : exec n (extract x) (typing w c) = some ((x c).1, typing w (x c).2) := rfl
  unfold tryOnce TextIn.retry
  refine (exec_bind n _ _ _).trans ?_
  rw [hb]
  obtain ⟨o, c'⟩ := x c
  cases o <;> rfl

theorem runs_getStuff (hx : TextIn.Takes x) (w : World ClientState ρ) (c : TextIn) (a : α)
    (w' : World Typing ρ) :
    Runs (getStuff x) (typing w c) a w' ↔ ∃ c', TextIn.get x c = some (a, c') ∧ w' = typing w c' := by
  have hexec (n : Nat) : exec n (getStuff x) (typing w c) =
      (TextIn.getN x n c).map fun y => (y.1, typing w y.2) := by
    have hmap := iterN_map (f := typing w) (fun u c => exec_tryOnce (x := x) n u w c) n () c
    unfold getStuff loop
    rw [exec_iter, hmap]
    unfold TextIn.getN
    cases iterN (TextIn.retry x) n () c <;> rfl
  unfold Runs
  simp only [hexec, Option.map_eq_some_iff, Prod.mk.injEq]
  constructor
  · intro hruns
    obtain ⟨n, ⟨b, c'⟩, hn, rfl, rfl⟩ := hruns
    exact ⟨c', TextIn.getN_get hx hn, rfl⟩
  · intro hruns
    obtain ⟨c', hc, rfl⟩ := hruns
    exact ⟨_, (a, c'), hc, rfl, rfl⟩

theorem says_getStuff (hx : TextIn.Takes x) {a : α} (h : TextIn.get x c = some (a, c')) :
    Says (ρ := ρ) (getStuff x) c (pure a) c' := by
  intro w b w'
  rw [runs_getStuff hx, h]
  constructor
  · intro hruns
    obtain ⟨c1, he, rfl⟩ := hruns
    obtain ⟨rfl, rfl⟩ := Prod.mk.inj (Option.some.inj he)
    exact ⟨w, (runs_pure _ _ _ _).mpr ⟨rfl, rfl⟩, rfl⟩
  · intro hruns
    obtain ⟨v, hv, rfl⟩ := hruns
    obtain ⟨rfl, rfl⟩ := (runs_pure _ _ _ _).mp hv
    exact ⟨c', rfl, rfl⟩

theorem spins_getStuff (hx : TextIn.Takes x) (h : TextIn.get x c = none) :
    Spins (ρ := ρ) (getStuff x) c := by
  intro w a w' hr
  obtain ⟨c', hc, -⟩ := (runs_getStuff hx w c a w').mp hr
  rw [h] at hc
  cases hc

end

/-! ## One action -/

section
variable (C : ClientEnv) (act : Nat) (SA : SenderAgent) (RA : ReceiverAgent) {c c' : TextIn} {i : Int} {a : UserAction}

/-- `performAction` behind the two agents. -/
def handleAction (a : UserAction) : Client (Option ClientEnd) := do
  if a.intention = CONFUSION then return some (.returned (-1))
  else if a.intention = READ_FROM_FILESYSTEM then
    C.sendIntention act a.intention
    match ← C.rffsHandler act RA a.file_name with
    | none => return some .threw
    | some _ => return none
  else if a.intention = WRITE_TO_FILESYSTEM then
    C.sendIntention act a.intention
    let _ ← C.wtfsHandler act SA a.file_name
    return none
  else if a.intention = LIST_FILES then
    C.sendIntention act a.intention
    let _ ← C.lffsHandler act
    return none
  else if a.intention = DELETE_FILE then
    C.sendIntention act a.intention
    let _ ← C.dffsHandler act a.file_name
    return none
  else return none

theorem performAction_eq (a : UserAction) : C.performAction act a = (do
    C.notifyServerOfAction act NEW_ACTION
    let SA ← C.newSenderAgent
    let RA ← C.newReceiverAgent
    handleAction C act SA RA a) := rfl

theorem withName_intention (h : withName i c = some (a, c')) : a.intention = i := by
  unfold withName at h
  split at h
  · cases h
    rfl
  split at h
  · obtain ⟨x, -, hx⟩ := Option.map_eq_some_iff.mp h
    cases hx
    rfl
  · cases h
    rfl

theorem says_handle (h : withName i c = some (a, c')) :
    Says (C.promptHandle act SA RA i) c (handleAction C act SA RA a) c' := by
  have hi := withName_intention h
  unfold withName at h
  unfold ClientEnv.promptHandle handleAction
  rw [hi]
  by_cases hc : i = CONFUSION
  · subst hc
    cases h
    exact says_pure _ _
  by_cases hr : i = READ_FROM_FILESYSTEM
  · subst hr
    cases h
    refine (says_quiet _ _).bind fun _ => ?_
    refine (says_extract _ _).bind_pure ?_
    refine (says_quiet _ _).bind fun o => ?_
    cases o <;> exact says_pure _ _
  by_cases hw : i = WRITE_TO_FILESYSTEM
  · subst hw
    obtain ⟨⟨name, c1⟩, hname, hx⟩ := Option.map_eq_some_iff.mp
      (show (TextIn.get TextIn.word c).map _ = some (a, c') from h)
    cases hx
    refine (says_quiet _ _).bind fun _ => ?_
    refine (says_getStuff TextIn.takes_word hname).bind_pure ?_
    exact (says_quiet _ _).bind fun _ => says_pure _ _
  by_cases hl : i = LIST_FILES
  · subst hl
    cases h
    exact (says_quiet _ _).bind fun _ => (says_quiet _ _).bind fun _ => says_pure _ _
  by_cases hd : i = DELETE_FILE
  · subst hd
    cases h
    refine (says_quiet _ _).bind fun _ => ?_
    refine (says_extract _ _).bind_pure ?_
    exact (says_quiet _ _).bind fun _ => says_pure _ _
  · simp only [hc, hr, hw, hl, hd, or_self, if_false] at h ⊢
    cases h
    exact says_pure _ _

/-- Only an upload asks again for a name. -/
theorem spins_handle (h : withName i c = none) : Spins (C.promptHandle act SA RA i) c := by
  unfold withName at h
  split at h
  · cases h
  split at h
  · rename_i hw
    subst hw
    refine (says_quiet _ _).spins fun _ => ?_
    exact (spins_getStuff TextIn.takes_word (Option.map_eq_none_iff.mp h)).bind _
  · cases h

/-- Whether the client leaves is known from the action. -/
def Leaves (a : UserAction) (o : Option ClientEnd) : Prop := o.isSome ↔ Stops a

theorem runs_rffs_none {file_name : Bytes} {w v : World ClientState Role} {o : Option Int}
    (h : Runs (C.rffsHandler act RA file_name) w o v) : o = none ↔ file_name.length < 4 := by
  obtain ⟨-, w1, -, h⟩ := (runs_bind _ _ _ _ _).mp h
  split at h
  · rename_i hlt
    obtain ⟨rfl, -⟩ := (runs_pure _ _ _ _).mp h
    exact ⟨fun _ => hlt, fun _ => rfl⟩
  · rename_i hlt
    obtain ⟨-, w2, -, h⟩ := (runs_bind _ _ _ _ _).mp h
    obtain ⟨-, w3, -, h⟩ := (runs_bind _ _ _ _ _).mp h
    obtain ⟨rfl, -⟩ := (runs_pure _ _ _ _).mp h
    exact ⟨fun h => (by cases h), fun h => absurd h hlt⟩

theorem runs_handle_leaves {w v : World ClientState Role} {o : Option ClientEnd}
    (h : Runs (handleAction C act SA RA a) w o v) : Leaves a o := by
  unfold Leaves Stops
  unfold handleAction at h
  by_cases hc : a.intention = CONFUSION
  · rw [if_pos hc] at h
    obtain ⟨rfl, -⟩ := (runs_pure _ _ _ _).mp h
    simp [hc]
  rw [if_neg hc] at h
  by_cases hr : a.intention = READ_FROM_FILESYSTEM
  · rw [if_pos hr] at h
    obtain ⟨-, w1, -, h⟩ := (runs_bind _ _ _ _ _).mp h
    obtain ⟨r, w2, hr', h⟩ := (runs_bind _ _ _ _ _).mp h
    have hnone := runs_rffs_none C act RA hr'
    cases r with
    | none =>
      obtain ⟨rfl, -⟩ := (runs_pure _ _ _ _).mp h
      simp [hr, hnone.mp rfl]
    | some y =>
      obtain ⟨rfl, -⟩ := (runs_pure _ _ _ _).mp h
      have hlen : ¬ a.file_name.length < 4 := fun hlt => by cases hnone.mpr hlt
      simp [hc, hlen]
  rw [if_neg hr] at h
  have hnone : o = none := by
    split at h
    · obtain ⟨-, w1, -, h⟩ := (runs_bind _ _ _ _ _).mp h
      obtain ⟨-, w2, -, h⟩ := (runs_bind _ _ _ _ _).mp h
      exact ((runs_pure _ _ _ _).mp h).1
    split at h
    · obtain ⟨-, w1, -, h⟩ := (runs_bind _ _ _ _ _).mp h
      obtain ⟨-, w2, -, h⟩ := (runs_bind _ _ _ _ _).mp h
      exact ((runs_pure _ _ _ _).mp h).1
    split at h
    · obtain ⟨-, w1, -, h⟩ := (runs_bind _ _ _ _ _).mp h
      obtain ⟨-, w2, -, h⟩ := (runs_bind _ _ _ _ _).mp h
      exact ((runs_pure _ _ _ _).mp h).1
    · exact ((runs_pure _ _ _ _).mp h).1
  subst hnone
  simp [hc, hr]

end

/-! ## The loop -/

section
variable (C : ClientEnv) {c c' : TextIn}

theorem runs_round_again (g : Nat × UInt8) (w : World Typing Role) (e : ClientEnd) (w' : World Typing Role) :
    Runs (loop C.promptRound g) w e w' ↔ Runs (C.promptRound g >>= again C.promptRound) w e w' := by
  rw [runs_loop, runs_bind]
  refine exists_congr fun x => exists_congr fun w1 => and_congr_right fun _ => ?_
  cases x with
  | inl g' => rfl
  | inr b => exact (runs_ret _ _ _ _).symm

theorem readAction_eq {a : UserAction} : readAction c = some (a, c') ↔
    ∃ i c1, TextIn.get TextIn.int c = some (i, c1) ∧ withName i c1 = some (a, c') := by
  simp [readAction, Option.bind_eq_some_iff]

/-- What follows an action. -/
def afterHandle (act : Nat) (perform_next : UInt8) : Option ClientEnd → Prompt ((Nat × UInt8) ⊕ ClientEnd)
  | some e => return .inr e
  | none => do
    let c ← extract TextIn.char
    if yes (c.getD perform_next) then return .inl (act + 1, c.getD perform_next)
    else
      quiet (C.notifyServerOfAction (act + 1) NO_ACTION)
      return .inr (.returned 0)

theorem round_again_eq (act : Nat) (perform_next : UInt8) :
    (C.promptRound (act, perform_next) >>= again C.promptRound) = (do
      quiet (C.notifyServerOfAction act NEW_ACTION)
      let intention ← getStuff TextIn.int
      let SA ← quiet C.newSenderAgent
      let RA ← quiet C.newReceiverAgent
      let o ← C.promptHandle act SA RA intention
      afterHandle C act perform_next o >>= again C.promptRound) := by
  unfold ClientEnv.promptRound
  simp only [LawfulMonad.bind_assoc]
  refine congrArg (_ >>= ·) (funext fun _ => congrArg (_ >>= ·) (funext fun _ => congrArg (_ >>= ·) (funext fun _ =>
    congrArg (_ >>= ·) (funext fun _ => congrArg (_ >>= ·) (funext fun o => ?_)))))
  cases o <;> rfl

variable {C} {act : Nat} {perform_next : UInt8} {a : UserAction} {c1 : TextIn}

theorem says_round {as : List UserAction} (ha : readAction c = some (a, c1))
    (h : ∀ o, Leaves a o → Says (afterHandle C act perform_next o >>= again C.promptRound) c1 (after C act as o) c') :
    Says (loop C.promptRound (act, perform_next)) c (C.actionsFrom act (a :: as)) c' := by
  obtain ⟨i, c0, hint, hname⟩ := readAction_eq.mp ha
  have hround : Says (C.promptRound (act, perform_next) >>= again C.promptRound) c
      (C.performAction act a >>= after C act as) c' := by
    rw [round_again_eq, performAction_eq]
    simp only [LawfulMonad.bind_assoc]
    refine (says_quiet _ _).bind fun _ => ?_
    refine (says_getStuff TextIn.takes_int hint).bind_pure ?_
    refine (says_quiet _ _).bind fun SA => ?_
    refine (says_quiet _ _).bind fun RA => ?_
    exact (says_handle C act SA RA hname).bind_of (Leaves a) (fun _ _ _ => runs_handle_leaves C act SA RA) h
  intro w e w'
  rw [runs_round_again, actionsFrom_cons]
  exact hround w e w'

theorem spins_round (ha : readAction c = some (a, c1))
    (h : ∀ o, Leaves a o → Spins (afterHandle C act perform_next o >>= again C.promptRound) c1) :
    Spins (loop C.promptRound (act, perform_next)) c := by
  obtain ⟨i, c0, hint, hname⟩ := readAction_eq.mp ha
  have hround : Spins (C.promptRound (act, perform_next) >>= again C.promptRound) c := by
    rw [round_again_eq]
    refine (says_quiet _ _).spins fun _ => ?_
    refine (says_getStuff TextIn.takes_int hint).spins_of (fun b => b = i)
      (fun _ _ _ hb => ((runs_pure _ _ _ _).mp hb).1) ?_
    rintro _ rfl
    refine (says_quiet _ _).spins fun SA => ?_
    refine (says_quiet _ _).spins fun RA => ?_
    exact (says_handle C act SA RA hname).spins_of (Leaves a) (fun _ _ _ => runs_handle_leaves C act SA RA) h
  intro w e w' hr
  exact hround w e w' ((runs_round_again C _ _ _ _).mp hr)

/-- The input ends inside `get_stuff`. -/
theorem spins_unread (ha : readAction c = none) : Spins (loop C.promptRound (act, perform_next)) c := by
  have hround : Spins (C.promptRound (act, perform_next) >>= again C.promptRound) c := by
    rw [round_again_eq]
    refine (says_quiet _ _).spins fun _ => ?_
    cases hint : TextIn.get TextIn.int c with
    | none => exact (spins_getStuff TextIn.takes_int hint).bind _
    | some x =>
      obtain ⟨i, c0⟩ := x
      have hname : withName i c0 = none := by
        simpa [readAction, hint] using ha
      refine (says_getStuff TextIn.takes_int hint).spins_of (fun b => b = i)
        (fun _ _ _ hb => ((runs_pure _ _ _ _).mp hb).1) ?_
      rintro _ rfl
      refine (says_quiet _ _).spins fun SA => ?_
      refine (says_quiet _ _).spins fun RA => ?_
      exact (spins_handle C act SA RA hname).bind _
  intro w e w' hr
  exact hround w e w' ((runs_round_again C _ _ _ _).mp hr)

/-- What is asked behind an action that does not end the session. -/
theorem afterHandle_none : (afterHandle C act perform_next none >>= again C.promptRound) = (do
    let ch ← extract TextIn.char
    if yes (ch.getD perform_next) then loop C.promptRound (act + 1, ch.getD perform_next)
    else
      quiet (C.notifyServerOfAction (act + 1) NO_ACTION)
      return .returned 0) := by
  unfold afterHandle
  rw [LawfulMonad.bind_assoc]
  refine congrArg (_ >>= ·) (funext fun ch => ?_)
  split
  · rfl
  · rw [LawfulMonad.bind_assoc]
    rfl

/-- On the text of a list of actions the loop does what the client of that list
does. -/
theorem says_loop {n : Nat} {as : List UserAction} (h : typedN n perform_next c = some (as, c')) :
    Says (loop C.promptRound (act, perform_next)) c (C.actionsFrom act as) c' := by
  induction n generalizing act perform_next c as with
  | zero => cases h
  | succ n ih =>
    obtain ⟨⟨a, c1⟩, ha, h⟩ := Option.bind_eq_some_iff.mp h
    by_cases hs : Stops a
    · obtain ⟨rfl, rfl⟩ := Prod.mk.inj (Option.some.inj ((if_pos hs).symm.trans h))
      refine says_round ha fun o ho => ?_
      obtain ⟨e, rfl⟩ := Option.isSome_iff_exists.mp (ho.mpr hs)
      exact says_pure _ _
    have hgo : ∀ o, Leaves a o → o = none := fun o ho => Option.not_isSome_iff_eq_none.mp fun hsome => hs (ho.mp hsome)
    simp only [hs, if_false] at h
    by_cases hy : yes ((c1.char).1.getD perform_next) = true
    · rw [if_pos hy] at h
      obtain ⟨⟨bs, c2⟩, hbs, hx⟩ := Option.map_eq_some_iff.mp h
      obtain ⟨rfl, rfl⟩ := Prod.mk.inj hx
      refine says_round ha fun o ho => ?_
      obtain rfl := hgo o ho
      rw [afterHandle_none]
      refine (says_extract _ _).bind_pure ?_
      rw [if_pos hy]
      exact ih hbs
    · rw [if_neg hy] at h
      obtain ⟨rfl, rfl⟩ := Prod.mk.inj (Option.some.inj h)
      refine says_round ha fun o ho => ?_
      obtain rfl := hgo o ho
      rw [afterHandle_none]
      refine (says_extract _ _).bind_pure ?_
      rw [if_neg hy]
      exact (says_quiet _ _).bind fun _ => says_pure _ _

theorem typedN_mono {n m : Nat} (hnm : n ≤ m) {x : List UserAction × TextIn} (h : typedN n perform_next c = some x) :
    typedN m perform_next c = some x := by
  induction n generalizing m perform_next c x with
  | zero => cases h
  | succ n ih =>
    obtain ⟨m, rfl⟩ : ∃ k, m = k + 1 := ⟨m - 1, by omega⟩
    obtain ⟨⟨a, c1⟩, ha, h⟩ := Option.bind_eq_some_iff.mp h
    refine Option.bind_eq_some_iff.mpr ⟨(a, c1), ha, ?_⟩
    by_cases hs : Stops a
    · rwa [if_pos hs] at h ⊢
    rw [if_neg hs] at h ⊢
    by_cases hy : yes ((c1.char).1.getD perform_next) = true
    · rw [if_pos hy] at h ⊢
      obtain ⟨y, hy', hx⟩ := Option.map_eq_some_iff.mp h
      exact Option.map_eq_some_iff.mpr ⟨y, ih (by omega) hy', hx⟩
    · rwa [if_neg hy] at h ⊢

theorem withName_length {i : Int} (h : withName i c = some (a, c')) : c'.buf.length ≤ c.buf.length := by
  unfold withName at h
  split at h
  · cases h
    exact TextIn.takes_word.le c
  split at h
  · obtain ⟨x, hx, he⟩ := Option.map_eq_some_iff.mp h
    cases he
    exact (TextIn.get_lt TextIn.takes_word hx).le
  · cases h
    exact Nat.le_refl _

theorem readAction_length (h : readAction c = some (a, c')) : c'.buf.length < c.buf.length := by
  obtain ⟨i, c1, hint, hname⟩ := readAction_eq.mp h
  exact (withName_length hname).trans_lt (TextIn.get_lt TextIn.takes_int hint)

/-- Without such a list it never ends. The induction is on the length of the text. -/
theorem spins_loop (h : typedN (c.buf.length + 1) perform_next c = none) :
    Spins (loop C.promptRound (act, perform_next)) c := by
  induction hn : c.buf.length using Nat.strong_induction_on generalizing act perform_next c with
  | _ n ih =>
    subst hn
    cases ha : readAction c with
    | none => exact spins_unread ha
    | some x =>
      obtain ⟨a, c1⟩ := x
      have hlen := readAction_length ha
      have hchar := TextIn.char_length c1
      simp only [typedN, ha, Option.bind_some] at h
      by_cases hs : Stops a
      · rw [if_pos hs] at h
        cases h
      rw [if_neg hs] at h
      by_cases hy : yes ((c1.char).1.getD perform_next) = true
      · rw [if_pos hy, Option.map_eq_none_iff] at h
        refine spins_round ha fun o ho => ?_
        obtain rfl : o = none := Option.not_isSome_iff_eq_none.mp fun hsome => hs (ho.mp hsome)
        rw [afterHandle_none]
        refine (says_extract _ _).spins_of (fun b => b = (c1.char).1)
          (fun _ _ _ hb => ((runs_pure _ _ _ _).mp hb).1) ?_
        rintro _ rfl
        rw [if_pos hy]
        refine ih _ (by omega) ?_ rfl
        cases hx : typedN ((c1.char).2.buf.length + 1) ((c1.char).1.getD perform_next) (c1.char).2 with
        | none => rfl
        | some x =>
          rw [typedN_mono (by omega) hx] at h
          cases h
      · rw [if_neg hy] at h
        cases h

theorem typedN_cons {n : Nat} {as : List UserAction} (h : typedN n perform_next c = some (as, c')) :
    ∃ a bs, as = a :: bs := by
  cases n with
  | zero => cases h
  | succ n =>
    obtain ⟨⟨a, c1⟩, -, h⟩ := Option.bind_eq_some_iff.mp h
    split at h
    · cases h
      exact ⟨a, [], rfl⟩
    split at h
    · obtain ⟨y, -, hx⟩ := Option.map_eq_some_iff.mp h
      cases hx
      exact ⟨a, y.1, rfl⟩
    · cases h
      exact ⟨a, [], rfl⟩

end

theorem runs_promptComms (C : ClientEnv) (c : TextIn) (w : World ClientState Role) (e : ClientEnd)
    (w' : World Typing Role) : Runs C.promptComms (typing w c) e w' ↔
      ∃ first more c' v, typed c = some (first :: more, c') ∧ Runs (C.authedComms first more) w e v ∧
        w' = typing v c' := by
  cases h : typed c with
  | none =>
    constructor
    · intro hr
      exact absurd hr (spins_loop h w e w')
    · intro hruns
      obtain ⟨first, more, c', v, hx, -⟩ := hruns
      cases hx
  | some x =>
    obtain ⟨as, c'⟩ := x
    obtain ⟨a, bs, rfl⟩ := typedN_cons h
    have hloop : Says C.promptComms c (C.authedComms a bs) c' := says_loop h
    rw [hloop w e w']
    constructor
    · intro hruns
      obtain ⟨v, hv, rfl⟩ := hruns
      exact ⟨a, bs, c', v, rfl, hv, rfl⟩
    · intro hruns
      obtain ⟨first, more, c1, v, hx, hv, rfl⟩ := hruns
      cases hx
      exact ⟨v, hv, rfl⟩

/-! ## The process -/

/-- How much of the text is read by a process that ends with `e`, and what is found
there. -/
inductive Reads (c : TextIn) : ClientExit → Bytes → Bytes → List UserAction → TextIn → Prop where
  | keyExchange {username password : Bytes} {as : List UserAction} : Reads c .keyExchange username password as c
  | unauthenticated {username password : Bytes} {as : List UserAction} {c1 : TextIn}
      (h : readLogin c = some ((username, password), c1)) : Reads c .unauthenticated username password as c1
  | ended {username password : Bytes} {as : List UserAction} {c1 c2 : TextIn} {e : ClientEnd}
      (h : readLogin c = some ((username, password), c1)) (ht : typed c1 = some (as, c2)) :
      Reads c (.ended e) username password as c2

section
variable {α β : Type} {c : TextIn} {w : World ClientState ρ} {b : β} {w' : World Typing ρ}

theorem runs_quiet_bind {p : Proc ClientState ρ α} {f : α → Proc Typing ρ β} :
    Runs (quiet p >>= f) (typing w c) b w' ↔ ∃ a v, Runs p w a v ∧ Runs (f a) (typing v c) b w' := by
  rw [runs_bind]
  constructor
  · intro hruns
    obtain ⟨a, w1, ha, hb⟩ := hruns
    obtain ⟨v, hv, rfl⟩ := (says_quiet p c w a w1).mp ha
    exact ⟨a, v, hv, hb⟩
  · intro hruns
    obtain ⟨a, v, hv, hb⟩ := hruns
    exact ⟨a, _, (says_quiet p c w a _).mpr ⟨v, hv, rfl⟩, hb⟩

theorem runs_getStuff_bind {x : TextIn → Option α × TextIn} (hx : TextIn.Takes x) {f : α → Proc Typing ρ β} :
    Runs (getStuff x >>= f) (typing w c) b w' ↔
      ∃ a c', TextIn.get x c = some (a, c') ∧ Runs (f a) (typing w c') b w' := by
  rw [runs_bind]
  constructor
  · intro hruns
    obtain ⟨a, w1, ha, hb⟩ := hruns
    obtain ⟨c', hc, rfl⟩ := (runs_getStuff hx w c a w1).mp ha
    exact ⟨a, c', hc, hb⟩
  · intro hruns
    obtain ⟨a, c', hc, hb⟩ := hruns
    exact ⟨a, _, (runs_getStuff hx w c a _).mpr ⟨c', hc, rfl⟩, hb⟩

end

theorem readLogin_eq {c c1 : TextIn} {username password : Bytes} :
    readLogin c = some ((username, password), c1) ↔
      ∃ c0, TextIn.get TextIn.word c = some (username, c0) ∧ TextIn.get TextIn.word c0 = some (password, c1) := by
  unfold readLogin
  rw [Option.bind_eq_some_iff]
  constructor
  · intro hruns
    obtain ⟨⟨u, c0⟩, hu, hp⟩ := hruns
    obtain ⟨⟨p, c'⟩, hp', he⟩ := Option.map_eq_some_iff.mp hp
    cases he
    exact ⟨c0, hu, hp'⟩
  · intro hruns
    obtain ⟨c0, hu, hp⟩ := hruns
    exact ⟨(username, c0), hu, by simp [hp]⟩

/-- The session inside the process. -/
theorem runs_promptComms_zoom (C : ClientEnv) (c : TextIn) (w : World ClientState ConnRole) (e : ClientEnd)
    (w' : World Typing ConnRole) :
    Runs (zoom (wholePart Typing) ConnRole.session C.promptComms) (typing w c) e w' ↔
      ∃ first more c' v, typed c = some (first :: more, c') ∧
        Runs (zoom (wholePart ClientState) ConnRole.session (C.authedComms first more)) w e v ∧ w' = typing v c' := by
  have hpart : (typing w c).part (wholePart Typing) Role = typing (w.part (wholePart ClientState) Role) c := rfl
  simp only [runs_zoom, hpart, runs_promptComms]
  constructor
  · intro hruns
    obtain ⟨-, ⟨first, more, c', v, ht, hv, rfl⟩, rfl⟩ := hruns
    exact ⟨first, more, c', _, ht, ⟨v, hv, rfl⟩, rfl⟩
  · intro hruns
    obtain ⟨first, more, c', -, ht, ⟨v, hv, rfl⟩, rfl⟩ := hruns
    exact ⟨_, ⟨first, more, c', v, ht, hv, rfl⟩, rfl⟩

/-- Up to the verdict. -/
def Offers (C : ClientEnv) (username : Bytes) (got : Nat) (w : World ClientState ConnRole) (ok : Bool)
    (v : World ClientState ConnRole) : Prop :=
  ∃ n v1 v2, Runs (zoom (wholePart ClientState) ConnRole.session (C.randombytes AEAD_NPUBBYTES)) w n v1 ∧
    Runs (modify fun s => { s with original_nonce := n }) v1 () v2 ∧ Runs (C.sendCredentials username got) v2 ok v

theorem runs_clientMain (C : ClientEnv) (username : Bytes) (got : Nat) (first : UserAction) (more : List UserAction)
    (w v : World ClientState ConnRole) (o : Option ClientEnd) :
    Runs (C.clientMain username got first more) w o v ↔
      (o = none ∧ Offers C username got w false v) ∨
      ∃ e v1, o = some e ∧ Offers C username got w true v1 ∧
        Runs (zoom (wholePart ClientState) ConnRole.session (C.authedComms first more)) v1 e v := by
  unfold ClientEnv.clientMain Offers
  constructor
  · intro h
    obtain ⟨n, v1, hn, h⟩ := (runs_bind _ _ _ _ _).mp h
    obtain ⟨⟨⟩, v2, hset, h⟩ := (runs_bind _ _ _ _ _).mp h
    obtain ⟨ok, v3, hsend, h⟩ := (runs_bind _ _ _ _ _).mp h
    cases ok with
    | false =>
      obtain ⟨rfl, rfl⟩ := (runs_pure _ _ _ _).mp h
      exact .inl ⟨rfl, n, v1, v2, hn, hset, hsend⟩
    | true =>
      obtain ⟨e, v4, he, h⟩ := (runs_bind _ _ _ _ _).mp h
      obtain ⟨rfl, rfl⟩ := (runs_pure _ _ _ _).mp h
      exact .inr ⟨e, v3, rfl, ⟨n, v1, v2, hn, hset, hsend⟩, he⟩
  · intro h
    rcases h with ⟨rfl, n, v1, v2, hn, hset, hsend⟩ | ⟨e, v3, rfl, ⟨n, v1, v2, hn, hset, hsend⟩, he⟩
    · refine (runs_bind _ _ _ _ _).mpr ⟨n, v1, hn, (runs_bind _ _ _ _ _).mpr ⟨(), v2, hset, ?_⟩⟩
      exact (runs_bind _ _ _ _ _).mpr ⟨false, v, hsend, (runs_pure _ _ _ _).mpr ⟨rfl, rfl⟩⟩
    · refine (runs_bind _ _ _ _ _).mpr ⟨n, v1, hn, (runs_bind _ _ _ _ _).mpr ⟨(), v2, hset, ?_⟩⟩
      refine (runs_bind _ _ _ _ _).mpr ⟨true, v3, hsend, (runs_bind _ _ _ _ _).mpr ⟨e, v, he, ?_⟩⟩
      exact (runs_pure _ _ _ _).mpr ⟨rfl, rfl⟩

section
variable (H : ClientHost) (got : Nat)

/-- The three ends of the process that is given everything. -/
theorem runs_main {username : Bytes} {first : UserAction} {more : List UserAction} {w v : World ClientState ConnRole}
    {e : ClientExit} :
    Runs (H.main username got first more) w e v ↔
      (e = .keyExchange ∧ ∃ i, Runs H.clientCryptGen w (.error i) v) ∨
      ∃ keys v1, Runs H.clientCryptGen w (.ok keys) v1 ∧
        ((e = .unauthenticated ∧ Offers (H.env keys) username got v1 false v) ∨
        ∃ e' v2, e = .ended e' ∧ Offers (H.env keys) username got v1 true v2 ∧
          Runs (zoom (wholePart ClientState) ConnRole.session ((H.env keys).authedComms first more)) v2 e' v) := by
  unfold ClientHost.main
  rw [runs_bind]
  constructor
  · intro hruns
    obtain ⟨r, v1, hkeys, hr⟩ := hruns
    cases r with
    | error i =>
      obtain ⟨rfl, rfl⟩ := (runs_pure _ _ _ _).mp hr
      exact .inl ⟨rfl, i, hkeys⟩
    | ok keys =>
      obtain ⟨o, v5, hmain, hr⟩ := (runs_bind _ _ _ _ _).mp hr
      rcases (runs_clientMain _ _ _ _ _ _ _ _).mp hmain with ⟨rfl, ho⟩ | ⟨e', v2, rfl, ho, hcomms⟩
      · obtain ⟨rfl, rfl⟩ := (runs_pure _ _ _ _).mp hr
        exact .inr ⟨keys, v1, hkeys, .inl ⟨rfl, ho⟩⟩
      · obtain ⟨rfl, rfl⟩ := (runs_pure _ _ _ _).mp hr
        exact .inr ⟨keys, v1, hkeys, .inr ⟨e', v2, rfl, ho, hcomms⟩⟩
  · intro hruns
    rcases hruns with ⟨rfl, i, hkeys⟩ | ⟨keys, v1, hkeys, ⟨rfl, ho⟩ | ⟨e', v2, rfl, ho, hcomms⟩⟩
    · exact ⟨_, v, hkeys, (runs_pure _ _ _ _).mpr ⟨rfl, rfl⟩⟩
    · refine ⟨_, v1, hkeys, (runs_bind _ _ _ _ _).mpr ⟨none, v, ?_, (runs_pure _ _ _ _).mpr ⟨rfl, rfl⟩⟩⟩
      exact (runs_clientMain _ _ _ _ _ _ _ _).mpr (.inl ⟨rfl, ho⟩)
    · refine ⟨_, v1, hkeys, (runs_bind _ _ _ _ _).mpr ⟨some e', v, ?_, (runs_pure _ _ _ _).mpr ⟨rfl, rfl⟩⟩⟩
      exact (runs_clientMain _ _ _ _ _ _ _ _).mpr (.inr ⟨e', v2, rfl, ho, hcomms⟩)

/-- The three ends of the process at the prompt. -/
theorem runs_promptMain {c : TextIn} {w : World ClientState ConnRole} {e : ClientExit} {w' : World Typing ConnRole} :
    Runs (H.promptMain got) (typing w c) e w' ↔
      (e = .keyExchange ∧ ∃ i v, Runs H.clientCryptGen w (.error i) v ∧ w' = typing v c) ∨
      ∃ keys v1 username password c1, Runs H.clientCryptGen w (.ok keys) v1 ∧
        readLogin c = some ((username, password), c1) ∧
        ((e = .unauthenticated ∧ ∃ v, Offers ({ H with password := password }.env keys) username got v1 false v ∧
          w' = typing v c1) ∨
        ∃ e' v2 first more c2 v, e = .ended e' ∧
          Offers ({ H with password := password }.env keys) username got v1 true v2 ∧
          typed c1 = some (first :: more, c2) ∧
          Runs (zoom (wholePart ClientState) ConnRole.session
            (({ H with password := password }.env keys).authedComms first more)) v2 e' v ∧ w' = typing v c2) := by
  unfold ClientHost.promptMain
  rw [runs_quiet_bind]
  constructor
  · intro hruns
    obtain ⟨r, v1, hkeys, hr⟩ := hruns
    cases r with
    | error i =>
      obtain ⟨rfl, rfl⟩ := (runs_pure _ _ _ _).mp hr
      exact .inl ⟨rfl, i, v1, hkeys, rfl⟩
    | ok keys =>
      obtain ⟨n, v2, hn, hr⟩ := runs_quiet_bind.mp hr
      obtain ⟨⟨⟩, v3, hset, hr⟩ := runs_quiet_bind.mp hr
      obtain ⟨username, c0, hu, hr⟩ := (runs_getStuff_bind TextIn.takes_word).mp hr
      obtain ⟨password, c1, hp, hr⟩ := (runs_getStuff_bind TextIn.takes_word).mp hr
      obtain ⟨ok, v4, hsend, hr⟩ := runs_quiet_bind.mp hr
      have ho : Offers ({ H with password := password }.env keys) username got v1 ok v4 :=
        ⟨n, v2, v3, hn, hset, hsend⟩
      refine .inr ⟨keys, v1, username, password, c1, hkeys, readLogin_eq.mpr ⟨c0, hu, hp⟩, ?_⟩
      cases ok with
      | false =>
        obtain ⟨rfl, rfl⟩ := (runs_pure _ _ _ _).mp hr
        exact .inl ⟨rfl, v4, ho, rfl⟩
      | true =>
        obtain ⟨e', w1, hcomms, hr⟩ := (runs_bind _ _ _ _ _).mp hr
        obtain ⟨rfl, rfl⟩ := (runs_pure _ _ _ _).mp hr
        obtain ⟨first, more, c2, v, ht, hv, rfl⟩ := (runs_promptComms_zoom _ _ _ _ _).mp hcomms
        exact .inr ⟨e', v4, first, more, c2, v, rfl, ho, ht, hv, rfl⟩
  · intro hruns
    rcases hruns with ⟨rfl, i, v, hkeys, rfl⟩ | ⟨keys, v1, username, password, c1, hkeys, hlogin, hr⟩
    · exact ⟨_, v, hkeys, (runs_pure _ _ _ _).mpr ⟨rfl, rfl⟩⟩
    · refine ⟨.ok keys, v1, hkeys, ?_⟩
      obtain ⟨c0, hu, hp⟩ := readLogin_eq.mp hlogin
      rcases hr with ⟨rfl, v, ⟨n, v2, v3, hn, hset, hsend⟩, rfl⟩ |
        ⟨e', v4, first, more, c2, v, rfl, ⟨n, v2, v3, hn, hset, hsend⟩, ht, hv, rfl⟩
      · refine runs_quiet_bind.mpr ⟨n, v2, hn, runs_quiet_bind.mpr ⟨(), v3, hset, ?_⟩⟩
        refine (runs_getStuff_bind TextIn.takes_word).mpr ⟨username, c0, hu, ?_⟩
        refine (runs_getStuff_bind TextIn.takes_word).mpr ⟨password, _, hp, ?_⟩
        exact runs_quiet_bind.mpr ⟨false, v, hsend, (runs_pure _ _ _ _).mpr ⟨rfl, rfl⟩⟩
      · refine runs_quiet_bind.mpr ⟨n, v2, hn, runs_quiet_bind.mpr ⟨(), v3, hset, ?_⟩⟩
        refine (runs_getStuff_bind TextIn.takes_word).mpr ⟨username, c0, hu, ?_⟩
        refine (runs_getStuff_bind TextIn.takes_word).mpr ⟨password, _, hp, ?_⟩
        refine runs_quiet_bind.mpr ⟨true, v4, hsend, (runs_bind _ _ _ _ _).mpr ⟨e', typing v c2, ?_, ?_⟩⟩
        · exact (runs_promptComms_zoom _ _ _ _ _).mpr ⟨first, more, c2, v, ht, hv, rfl⟩
        · exact (runs_pure _ _ _ _).mpr ⟨rfl, rfl⟩

end

/-- The whole process, for every text on `std::cin`, every server and every outcome of
its sends: it does what the process does that is given the username, the password and
the actions of the text, and reads no further than it gets. -/
theorem process_runs (H : ClientHost) (got : Nat) (c : TextIn) (w : World ClientState ConnRole) (e : ClientExit)
    (w' : World Typing ConnRole) :
    Runs (H.promptMain got) (typing w c) e w' ↔
      ∃ username password first more c' v, Reads c e username password (first :: more) c' ∧
        Runs ({ H with password := password }.main username got first more) w e v ∧ w' = typing v c' := by
  rw [runs_promptMain]
  simp only [runs_main]
  constructor
  · intro hruns
    rcases hruns with ⟨rfl, i, v, hkeys, rfl⟩ | ⟨keys, v1, username, password, c1, hkeys, hlogin, hr⟩
    · exact ⟨[], [], ⟨0, []⟩, [], c, v, .keyExchange, .inl ⟨rfl, i, hkeys⟩, rfl⟩
    · rcases hr with ⟨rfl, v, ho, rfl⟩ | ⟨e', v2, first, more, c2, v, rfl, ho, ht, hv, rfl⟩
      · exact ⟨username, password, ⟨0, []⟩, [], c1, v, .unauthenticated hlogin,
          .inr ⟨keys, v1, hkeys, .inl ⟨rfl, ho⟩⟩, rfl⟩
      · exact ⟨username, password, first, more, c2, v, .ended hlogin ht,
          .inr ⟨keys, v1, hkeys, .inr ⟨e', v2, rfl, ho, hv⟩⟩, rfl⟩
  · intro hruns
    obtain ⟨username, password, first, more, c', v, hreads, hr, rfl⟩ := hruns
    cases hreads with
    | keyExchange =>
      rcases hr with ⟨-, i, hkeys⟩ | ⟨_, _, _, ⟨he, _⟩ | ⟨_, _, he, _⟩⟩
      · exact .inl ⟨rfl, i, v, hkeys, rfl⟩
      · cases he
      · cases he
    | unauthenticated hlogin =>
      rcases hr with ⟨he, _⟩ | ⟨keys, v1, hkeys, ⟨-, ho⟩ | ⟨_, _, he, _⟩⟩
      · cases he
      · exact .inr ⟨keys, v1, username, password, _, hkeys, hlogin, .inl ⟨rfl, v, ho, rfl⟩⟩
      · cases he
    | ended hlogin ht =>
      rcases hr with ⟨he, _⟩ | ⟨keys, v1, hkeys, ⟨he, _⟩ | ⟨e', v2, he, ho, hv⟩⟩
      · cases he
      · cases he
      · cases he
        exact .inr ⟨keys, v1, username, password, _, hkeys, hlogin,
          .inr ⟨_, v2, first, more, c', v, rfl, ho, ht, hv, rfl⟩⟩

/-! ## Texts -/

def Spaces (ws : Bytes) : Prop := ∀ b ∈ ws, TextIn.isspace b = true

def TakesName (i : Int) : Prop := i = READ_FROM_FILESYSTEM ∨ i = WRITE_TO_FILESYSTEM ∨ i = DELETE_FILE

/-- A text that begins with an action, and what follows it. -/
inductive Entry : UserAction → Bytes → Bytes → Prop where
  | bare {i : Int} {ws n r : Bytes} {s : UInt8} (hi : ¬ TakesName i) (hws : Spaces ws) (hn : TextIn.Spells n i)
      (hs : TextIn.isspace s = true) : Entry ⟨i, []⟩ (ws ++ (n ++ s :: r)) (s :: r)
  | named {i : Int} {ws n ws' name r : Bytes} {s s' : UInt8} (hi : TakesName i) (hws : Spaces ws)
      (hn : TextIn.Spells n i) (hs : TextIn.isspace s = true) (hws' : Spaces ws') (hne : name ≠ [])
      (hname : ∀ b ∈ name, TextIn.isspace b = false) (hs' : TextIn.isspace s' = true) :
      Entry ⟨i, name⟩ (ws ++ (n ++ s :: (ws' ++ (name ++ s' :: r)))) (s' :: r)

/-- A text that spells the actions, behind the answer `prev`. -/
inductive Spoken : UInt8 → List UserAction → Bytes → Prop where
  | leave {prev : UInt8} {a : UserAction} {t r : Bytes} (he : Entry a t r) (hs : Stops a) : Spoken prev [a] t
  | last {prev ans : UInt8} {a : UserAction} {t ws r : Bytes} (he : Entry a t (ws ++ ans :: r)) (hs : ¬ Stops a)
      (hws : Spaces ws) (hans : TextIn.isspace ans = false) (hno : yes ans = false) : Spoken prev [a] t
  /-- no answer, and none before -/
  | hush {prev : UInt8} {a : UserAction} {t ws : Bytes} (he : Entry a t ws) (hs : ¬ Stops a) (hws : Spaces ws)
      (hno : yes prev = false) : Spoken prev [a] t
  | more {prev ans : UInt8} {a : UserAction} {as : List UserAction} {t ws r : Bytes}
      (he : Entry a t (ws ++ ans :: r)) (hs : ¬ Stops a) (hws : Spaces ws) (hyes : yes ans = true)
      (h : Spoken ans as r) : Spoken prev (a :: as) t

/-- A text that ends where an action or its repetition is asked for. -/
inductive Unended : UInt8 → Bytes → Prop where
  | stop {prev : UInt8} {t : Bytes} (h : Spaces t) : Unended prev t
  /-- no answer, and a yes before -/
  | hush {prev : UInt8} {a : UserAction} {t ws : Bytes} (he : Entry a t ws) (hs : ¬ Stops a) (hws : Spaces ws)
      (hyes : yes prev = true) : Unended prev t
  | more {prev ans : UInt8} {a : UserAction} {t ws r : Bytes} (he : Entry a t (ws ++ ans :: r)) (hs : ¬ Stops a)
      (hws : Spaces ws) (hyes : yes ans = true) (h : Unended ans r) : Unended prev t

theorem Entry.reads {a : UserAction} {t r : Bytes} (h : Entry a t r) :
    readAction ⟨t, false, false⟩ = some (a, ⟨r, false, false⟩) := by
  cases h with
  | bare hi hws hn hs =>
    refine readAction_eq.mpr ⟨_, _, TextIn.get_of_some (TextIn.int_reads hws hn hs _), ?_⟩
    simp only [TakesName, not_or] at hi
    simp [withName, hi]
  | @named i ws n ws' name r s s' hi hws hn hs hws' hne hname hs' =>
    refine readAction_eq.mpr ⟨_, _, TextIn.get_of_some (TextIn.int_reads hws hn hs _), ?_⟩
    have hword : TextIn.word ⟨s :: (ws' ++ (name ++ s' :: r)), false, false⟩ =
        (some name, ⟨s' :: r, false, false⟩) := by
      have hsp : Spaces (s :: ws') := by
        intro b hb
        rcases List.mem_cons.mp hb with rfl | hb
        · exact hs
        · exact hws' b hb
      exact TextIn.word_reads hsp hne hname hs' r
    unfold withName
    rw [TextIn.get_of_some hword, hword]
    rcases hi with rfl | rfl | rfl <;> rfl

theorem not_isspace_of_yes {b : UInt8} (h : yes b = true) : TextIn.isspace b = false := by
  simp only [yes, Bool.or_eq_true, beq_iff_eq] at h
  rcases h with rfl | rfl <;> rfl

/-- One action of a text. -/
theorem typedN_entry {n : Nat} {prev : UInt8} {a : UserAction} {t r : Bytes} (he : Entry a t r) (hs : ¬ Stops a) :
    typedN (n + 1) prev ⟨t, false, false⟩ =
      if yes ((TextIn.char ⟨r, false, false⟩).1.getD prev) then
        (typedN n ((TextIn.char ⟨r, false, false⟩).1.getD prev) (TextIn.char ⟨r, false, false⟩).2).map
          fun y => (a :: y.1, y.2)
      else some ([a], (TextIn.char ⟨r, false, false⟩).2) := by
  rw [typedN, he.reads]
  simp only [Option.bind_some, hs, if_false]

theorem Spoken.typedN {prev : UInt8} {as : List UserAction} {t : Bytes} (h : Spoken prev as t) :
    ∃ c', typedN as.length prev ⟨t, false, false⟩ = some (as, c') := by
  induction h with
  | @leave prev a t r he hs => exact ⟨⟨r, false, false⟩, by simp [L3.typedN, he.reads, hs]⟩
  | last he hs hws hans hno =>
    rw [List.length_singleton, typedN_entry he hs, TextIn.char_reads hws hans]
    exact ⟨_, if_neg (by simpa using hno)⟩
  | hush he hs hws hno =>
    rw [List.length_singleton, typedN_entry he hs, TextIn.char_end hws]
    exact ⟨_, if_neg (by simpa using hno)⟩
  | more he hs hws hyes _ ih =>
    obtain ⟨c', ih⟩ := ih
    refine ⟨c', (typedN_entry he hs).trans ?_⟩
    rw [TextIn.char_reads hws (not_isspace_of_yes hyes)]
    refine (if_pos hyes).trans ?_
    simp only [Option.getD_some, ih, Option.map_some]

theorem Unended.typedN_none {prev : UInt8} {t : Bytes} (h : Unended prev t) (n : Nat) :
    L3.typedN n prev ⟨t, false, false⟩ = none := by
  induction h generalizing n with
  | stop h =>
    cases n with
    | zero => rfl
    | succ n => simp [L3.typedN, readAction, TextIn.get_int_end h]
  | hush he hs hws hyes =>
    cases n with
    | zero => rfl
    | succ n =>
      rw [typedN_entry he hs, TextIn.char_end hws]
      refine (if_pos hyes).trans ?_
      cases n with
      | zero => rfl
      | succ n => simp [L3.typedN, readAction, TextIn.get_int_nil]
  | more he hs hws hyes _ ih =>
    cases n with
    | zero => rfl
    | succ n =>
      rw [typedN_entry he hs, TextIn.char_reads hws (not_isspace_of_yes hyes)]
      refine (if_pos hyes).trans ?_
      simp only [Option.getD_some, ih, Option.map_none]

theorem typedN_typed {n : Nat} {prev : UInt8} {c : TextIn} {x : List UserAction × TextIn}
    (h : L3.typedN n prev c = some x) : L3.typedN (c.buf.length + 1) prev c = some x := by
  induction n generalizing prev c x with
  | zero => cases h
  | succ n ih =>
    obtain ⟨⟨a, c1⟩, ha, h⟩ := Option.bind_eq_some_iff.mp h
    refine Option.bind_eq_some_iff.mpr ⟨(a, c1), ha, ?_⟩
    by_cases hs : Stops a
    · rwa [if_pos hs] at h ⊢
    rw [if_neg hs] at h ⊢
    by_cases hy : yes ((c1.char).1.getD prev) = true
    · rw [if_pos hy] at h ⊢
      obtain ⟨y, hy', hx⟩ := Option.map_eq_some_iff.mp h
      have hread := readAction_length ha
      have hchar := TextIn.char_length c1
      have hlen : (c1.char).2.buf.length + 1 ≤ c.buf.length := by omega
      exact Option.map_eq_some_iff.mpr ⟨y, typedN_mono hlen (ih hy'), hx⟩
    · rwa [if_neg hy] at h ⊢

/-- A text that begins with the username and the password, and what follows them. -/
inductive Greeting : Bytes → Bytes → Bytes → Bytes → Prop where
  | mk {ws username ws' password r : Bytes} {s s' : UInt8} (hws : Spaces ws) (hu : username ≠ [])
      (hus : ∀ b ∈ username, TextIn.isspace b = false) (hs : TextIn.isspace s = true) (hws' : Spaces ws')
      (hp : password ≠ []) (hps : ∀ b ∈ password, TextIn.isspace b = false) (hs' : TextIn.isspace s' = true) :
      Greeting username password (ws ++ (username ++ s :: (ws' ++ (password ++ s' :: r)))) (s' :: r)

/-- What is left of the text behind the process. -/
def leftOver (c c1 c2 : TextIn) : ClientExit → TextIn
  | .keyExchange => c
  | .unauthenticated => c1
  | .ended _ => c2

theorem spaces_cons {s : UInt8} {ws : Bytes} (hs : TextIn.isspace s = true) (hws : Spaces ws) : Spaces (s :: ws) :=
  List.forall_mem_cons.mpr ⟨hs, hws⟩

theorem Greeting.reads {username password t r : Bytes} (h : Greeting username password t r) :
    readLogin ⟨t, false, false⟩ = some ((username, password), ⟨r, false, false⟩) := by
  obtain ⟨hws, hu, hus, hs, hws', hp, hps, hs'⟩ := h
  rename_i ws ws' r s s'
  have hfirst := TextIn.get_of_some (TextIn.word_reads hws hu hus hs (ws' ++ (password ++ s' :: r)))
  have hsecond := TextIn.get_of_some (TextIn.word_reads (spaces_cons hs hws') hp hps hs' r)
  exact readLogin_eq.mpr ⟨_, hfirst, hsecond⟩

/-- What the user spells is what the process does. -/
theorem spoken_done (H : ClientHost) (got : Nat) {username password t r : Bytes} {first : UserAction}
    {more : List UserAction} (hg : Greeting username password t r) (h : Spoken no (first :: more) r) :
    ∃ rest : ClientExit → TextIn, ∀ w e w', Runs (H.promptMain got) (typing w ⟨t, false, false⟩) e w' ↔
      ∃ v, Runs ({ H with password := password }.main username got first more) w e v ∧ w' = typing v (rest e) := by
  have hlogin := hg.reads
  obtain ⟨c2, hc2⟩ := h.typedN
  have ht : typed ⟨r, false, false⟩ = some (first :: more, c2) := typedN_typed hc2
  refine ⟨leftOver ⟨t, false, false⟩ ⟨r, false, false⟩ c2, fun w e w' => ?_⟩
  rw [runs_promptMain]
  simp only [runs_main]
  constructor
  · intro hruns
    rcases hruns with ⟨rfl, i, v, hkeys, rfl⟩ | ⟨keys, v1, u, p, c', hkeys, hl, hr⟩
    · exact ⟨v, .inl ⟨rfl, i, hkeys⟩, rfl⟩
    · rw [hlogin] at hl
      cases hl
      rcases hr with ⟨rfl, v, ho, rfl⟩ | ⟨e', v2, a, as, c3, v, rfl, ho, ht', hv, rfl⟩
      · exact ⟨v, .inr ⟨keys, v1, hkeys, .inl ⟨rfl, ho⟩⟩, rfl⟩
      · rw [ht] at ht'
        cases ht'
        exact ⟨v, .inr ⟨keys, v1, hkeys, .inr ⟨e', v2, rfl, ho, hv⟩⟩, rfl⟩
  · intro hruns
    obtain ⟨v, ⟨rfl, i, hkeys⟩ | ⟨keys, v1, hkeys, ⟨rfl, ho⟩ | ⟨e', v2, rfl, ho, hv⟩⟩, rfl⟩ := hruns
    · exact .inl ⟨rfl, i, v, hkeys, rfl⟩
    · exact .inr ⟨keys, v1, username, password, _, hkeys, hlogin, .inl ⟨rfl, v, ho, rfl⟩⟩
    · exact .inr ⟨keys, v1, username, password, _, hkeys, hlogin,
        .inr ⟨e', v2, first, more, c2, v, rfl, ho, ht, hv, rfl⟩⟩

/-- `"al pw"`, and what is typed then. -/
theorem greeting_al (r : Bytes) : Greeting [97, 108] [112, 119] ([97, 108, 32, 112, 119, 32] ++ r) (32 :: r) := by
  have hpair : ∀ x y : UInt8, TextIn.isspace x = false → TextIn.isspace y = false →
      ∀ b ∈ [x, y], TextIn.isspace b = false := by
    intro x y hx hy
    exact List.forall_mem_cons.mpr ⟨hx, List.forall_mem_singleton.mpr hy⟩
  have hnone : Spaces [] := fun _ h => by cases h
  show Greeting _ _ ([] ++ ([97, 108] ++ 32 :: ([] ++ ([112, 119] ++ 32 :: r)))) _
  exact .mk hnone (by decide) (hpair 97 108 rfl rfl) rfl hnone (by decide) (hpair 112 119 rfl rfl) rfl

/-- `" 2 a\nn\n"`: an upload of `"a"`, and no more. -/
theorem spoken_upload : Spoken no [⟨WRITE_TO_FILESYSTEM, [97]⟩] [32, 50, 32, 97, 10, 110, 10] := by
  have hd : ∀ b ∈ [(50 : UInt8)], TextIn.isdigit b = true := List.forall_mem_singleton.mpr rfl
  have hname : ∀ b ∈ [(97 : UInt8)], TextIn.isspace b = false := List.forall_mem_singleton.mpr rfl
  have hnone : Spaces [] := fun _ h => by cases h
  have hn : TextIn.Spells [50] WRITE_TO_FILESYSTEM := ⟨by decide, hd, by decide, by decide, by decide⟩
  have he : Entry ⟨WRITE_TO_FILESYSTEM, [97]⟩ ([32] ++ ([50] ++ 32 :: ([] ++ ([97] ++ 10 :: [110, 10]))))
      ([10] ++ 110 :: [10]) :=
    .named (.inr (.inl rfl)) (spaces_cons rfl hnone) hn rfl hnone (by decide) hname rfl
  exact .last he (by decide) (spaces_cons rfl hnone) rfl rfl

theorem spoken_done_upload :
    ∃ rest : ClientExit → TextIn, ∀ w e w',
      Runs (aliceMachine.promptMain 4)
        (typing w ⟨[97, 108, 32, 112, 119, 32] ++ [50, 32, 97, 10, 110, 10], false, false⟩) e w' ↔
        ∃ v, Runs ({ aliceMachine with password := [112, 119] }.main [97, 108] 4 ⟨WRITE_TO_FILESYSTEM, [97]⟩ [])
          w e v ∧ w' = typing v (rest e) :=
  spoken_done aliceMachine 4 (greeting_al _) spoken_upload

/-- Once it is logged in it never ends on a text that stops where more is asked for,
whatever the server sends. -/
theorem prompt_hangs (H : ClientHost) (got : Nat) {username password t r : Bytes} (hg : Greeting username password t r)
    (h : Unended no r) (w : World ClientState ConnRole) (e : ClientEnd) (w' : World Typing ConnRole) :
    ¬ Runs (H.promptMain got) (typing w ⟨t, false, false⟩) (.ended e) w' := by
  rw [runs_promptMain]
  intro hruns
  rcases hruns with ⟨he, -⟩ | ⟨keys, v1, u, p, c1, -, hl, ⟨he, -⟩ | ⟨e', v2, first, more, c2, v, -, -, ht, -⟩⟩
  · cases he
  · cases he
  · rw [hg.reads] at hl
    cases hl
    rw [typed, h.typedN_none] at ht
    cases ht

/-- `"3\ny\n"`: the files, and then more. -/
theorem prompt_hangs_list :
    Unended no (32 :: [51, 10, 121, 10]) ∧ ∀ w e w', ¬ Runs (aliceMachine.promptMain 4)
      (typing w ⟨[97, 108, 32, 112, 119, 32] ++ [51, 10, 121, 10], false, false⟩) (.ended e) w' := by
  have hd : ∀ b ∈ [(51 : UInt8)], TextIn.isdigit b = true := List.forall_mem_singleton.mpr rfl
  have hnone : Spaces [] := fun _ h => by cases h
  have hn : TextIn.Spells [51] LIST_FILES := ⟨by decide, hd, by decide, by decide, by decide⟩
  have hnot : ¬ TakesName LIST_FILES := by
    unfold TakesName
    decide
  have he : Entry ⟨LIST_FILES, []⟩ ([32] ++ ([51] ++ 10 :: [121, 10])) ([10] ++ 121 :: [10]) :=
    .bare hnot (spaces_cons rfl hnone) hn rfl
  have hws : Spaces [10] := spaces_cons rfl hnone
  have hu : Unended no (32 :: [51, 10, 121, 10]) := .more he (by decide) hws rfl (.stop hws)
  exact ⟨hu, prompt_hangs aliceMachine 4 (greeting_al _) hu⟩

end Mefsc.L4
