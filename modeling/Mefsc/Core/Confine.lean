import Mefsc.Core.FileSys

/-!
# Below one directory

`climbs s`: at some point the components of `s` have more `..` than names to
cancel them. A string that does not climb, read from a directory `d`, stays
below `d` (`resolve_below`).

`Agree d fs gs`: the two file systems have the same entries, in the same order,
below `d` and on the way to it. Operations on strings that do not climb, read
from `d`, have the same outcome in both and keep them in agreement.
-/
namespace Mefsc

/-! ## Strings that do not climb -/

/-- `k`: how many names there are to cancel. -/
def climbsFrom : Nat → List Name → Bool
  | _, [] => false
  | k, c :: cs =>
    if c = [] ∨ c = dot then climbsFrom k cs
    else if c = dotdot then
      match k with
      | 0 => true
      | k + 1 => climbsFrom k cs
    else climbsFrom (k + 1) cs

def climbs (s : Bytes) : Bool := climbsFrom 0 (splitSlash s)

theorem climbsFrom_cons {d l : Path} {c : Name} {cs : List Name}
    (h : climbsFrom l.length (c :: cs) = false) :
    ∃ l', enter (d ++ l) c = d ++ l' ∧ climbsFrom l'.length cs = false := by
  unfold climbsFrom at h
  unfold enter
  split at h
  · rename_i hc
    exact ⟨l, by simp [hc], h⟩
  · rename_i hc
    split at h
    · rename_i hd
      obtain rfl | ⟨l, x, rfl⟩ := List.eq_nil_or_concat' l
      · simp at h
      · refine ⟨l, ?_, by simpa using h⟩
        rw [if_neg hc, if_pos hd, ← List.append_assoc, List.dropLast_concat]
    · rename_i hd
      exact ⟨l ++ [c], by simp [hc, hd], by simpa using h⟩

theorem resolve_below_from {d l : Path} {cs : List Name} (h : climbsFrom l.length cs = false) :
    d <+: resolve (d ++ l) cs := by
  induction cs generalizing l with
  | nil => exact List.prefix_append d l
  | cons c cs ih =>
    obtain ⟨l', he, h'⟩ := climbsFrom_cons (d := d) h
    simpa [resolve, he] using ih h'

theorem resolve_below (d : Path) {s : Bytes} (h : climbs s = false) :
    d <+: resolve d (splitSlash s) := by
  simpa using resolve_below_from (d := d) (l := []) h

namespace FS

/-! ## Agreement near a directory -/

/-- Below `d`, or on the way to it. -/
def near (d p : Path) : Bool := d.isPrefixOf p || p.isPrefixOf d

theorem near_below {d p : Path} (h : d <+: p) : near d p = true := by
  simp [near, h]

theorem near_above {d p : Path} (h : p <+: d) : near d p = true := by
  simp [near, h]

def Agree (d : Path) (fs gs : FS) : Prop :=
  fs.entries.filter (fun x => near d x.1) = gs.entries.filter (fun x => near d x.1)

theorem dlookup_filter {q : Path → Bool} {p : Path} (hp : q p = true)
    (l : List (Sigma fun _ : Path => Node)) :
    (l.filter fun x => q x.1).dlookup p = l.dlookup p := by
  induction l with
  | nil => rfl
  | cons x l ih =>
    by_cases hx : p = x.1
    · obtain ⟨p', n⟩ := x
      obtain rfl : p = p' := hx
      rw [List.filter_cons_of_pos (by simpa using hp), List.dlookup_cons_eq, List.dlookup_cons_eq]
    · rw [List.dlookup_cons_ne _ _ hx]
      by_cases hq : q x.1 = true
      · rw [List.filter_cons_of_pos (by simpa using hq), List.dlookup_cons_ne _ _ hx, ih]
      · rw [List.filter_cons_of_neg (by simpa using hq), ih]

theorem filter_kerase {q : Path → Bool} {p : Path} (hp : q p = true)
    (l : List (Sigma fun _ : Path => Node)) :
    (l.kerase p).filter (fun x => q x.1) = (l.filter fun x => q x.1).kerase p := by
  induction l with
  | nil => rfl
  | cons x l ih =>
    by_cases hx : p = x.1
    · rw [List.kerase_cons_eq hx, List.filter_cons_of_pos (by simpa [← hx] using hp),
        List.kerase_cons_eq hx]
    · rw [List.kerase_cons_ne hx]
      by_cases hq : q x.1 = true
      · rw [List.filter_cons_of_pos (by simpa using hq), List.filter_cons_of_pos (by simpa using hq),
          List.kerase_cons_ne hx, ih]
      · rw [List.filter_cons_of_neg (by simpa using hq), List.filter_cons_of_neg (by simpa using hq), ih]

variable {d : Path} {fs gs : FS}

theorem Agree.lookup (h : Agree d fs gs) {p : Path} (hp : near d p = true) :
    fs.lookup p = gs.lookup p := by
  have e1 := dlookup_filter (q := near d) hp fs.entries
  have e2 := dlookup_filter (q := near d) hp gs.entries
  unfold Agree at h
  rw [h] at e1
  exact e1.symm.trans e2

theorem Agree.node (h : Agree d fs gs) {p : Path} (hp : near d p = true) : fs.node p = gs.node p := by
  simp only [FS.node, h.lookup hp]

theorem Agree.insert (h : Agree d fs gs) {p : Path} (hp : near d p = true) (x : Node) :
    Agree d (fs.insert p x) (gs.insert p x) := by
  unfold Agree at h ⊢
  have e : ∀ l : List (Sigma fun _ : Path => Node),
      (Sigma.mk p x :: l).filter (fun y => near d y.1) = Sigma.mk p x :: l.filter (fun y => near d y.1) :=
    fun l => List.filter_cons_of_pos hp
  rw [AList.entries_insert, AList.entries_insert, e, e, filter_kerase hp, filter_kerase hp, h]

theorem Agree.erase (h : Agree d fs gs) {p : Path} (hp : near d p = true) :
    Agree d (fs.erase p) (gs.erase p) := by
  unfold Agree at h ⊢
  change (fs.entries.kerase p).filter _ = (gs.entries.kerase p).filter _
  rw [filter_kerase hp, filter_kerase hp, h]

theorem filter_kerase_far {q : Path → Bool} {p : Path} (hp : q p = false)
    (l : List (Sigma fun _ : Path => Node)) :
    (l.kerase p).filter (fun x => q x.1) = l.filter fun x => q x.1 := by
  induction l with
  | nil => rfl
  | cons x l ih =>
    by_cases hx : p = x.1
    · rw [List.kerase_cons_eq hx, List.filter_cons_of_neg (by simpa [← hx] using hp)]
    · rw [List.kerase_cons_ne hx, List.filter_cons, List.filter_cons, ih]

/-- A node elsewhere. -/
theorem Agree.insert_far (h : Agree d fs gs) {p : Path} (hp : near d p = false) (x : Node) :
    Agree d (fs.insert p x) gs := by
  unfold Agree at h ⊢
  have hcons : (Sigma.mk p x :: fs.entries.kerase p).filter (fun y => near d y.1) =
      (fs.entries.kerase p).filter fun y => near d y.1 := List.filter_cons_of_neg (by simp [hp])
  rw [AList.entries_insert, hcons, filter_kerase_far hp, h]

theorem Agree.erase_far (h : Agree d fs gs) {p : Path} (hp : near d p = false) :
    Agree d (fs.erase p) gs := by
  unfold Agree at h ⊢
  change (fs.entries.kerase p).filter _ = _
  rw [filter_kerase_far hp, h]

/-- The names in a directory, from the entries below `d` alone. -/
theorem children_filter (fs : FS) {p : Path} (hp : d <+: p) :
    fs.children p = ((fs.entries.filter fun x => near d x.1).map Sigma.fst).filterMap
      fun q => if q.dropLast = p then q.getLast? else none := by
  unfold FS.children
  change (fs.entries.map Sigma.fst).filterMap _ = _
  generalize fs.entries = l
  induction l with
  | nil => rfl
  | cons x l ih =>
    by_cases hx : near d x.1 = true
    · rw [List.filter_cons_of_pos (by simpa using hx), List.map_cons, List.map_cons, List.filterMap_cons,
        List.filterMap_cons, ih]
    · rw [List.filter_cons_of_neg (by simpa using hx), List.map_cons, List.filterMap_cons_none ?_, ih]
      -- an entry of `p` is below `d`
      split
      · rename_i hq
        have hle : p <+: x.1 := hq ▸ List.dropLast_prefix x.1
        exact absurd (near_below (hp.trans hle)) hx
      · rfl

theorem Agree.children (h : Agree d fs gs) {p : Path} (hp : d <+: p) :
    fs.children p = gs.children p := by
  rw [children_filter fs hp, children_filter gs hp, h]

/-! ## The way to the directory -/

/-- The string `s0` leads from `cwd` to `d`, by plain names. -/
structure Leads (cwd : Path) (s0 : Bytes) (d : Path) : Prop where
  plain : ∃ ds : List Name, (∀ n ∈ ds, Plain n) ∧ d = cwd ++ ds ∧
    ∀ s, splitSlash (s0 ++ s) = ds ++ splitSlash s

theorem resolve_plain (p : Path) {ds : List Name} (h : ∀ n ∈ ds, Plain n) : resolve p ds = p ++ ds := by
  induction ds generalizing p with
  | nil => simp [resolve]
  | cons n ds ih =>
    have hn := (h n List.mem_cons_self).enter p
    have := ih (p ++ [n]) fun x hx => h x (List.mem_cons_of_mem _ hx)
    simpa [resolve, hn] using this

section
variable {cwd : Path} {s0 s : Bytes}

theorem Leads.resolve (hl : Leads cwd s0 d) (s : Bytes) :
    resolve cwd (splitSlash (s0 ++ s)) = resolve d (splitSlash s) := by
  obtain ⟨ds, hp, rfl, hs⟩ := hl.plain
  have hd := resolve_plain cwd hp
  unfold Mefsc.resolve at hd ⊢
  rw [hs, List.foldl_append, hd]

theorem Leads.below (hl : Leads cwd s0 d) (hc : climbs s = false) :
    d <+: Mefsc.resolve cwd (splitSlash (s0 ++ s)) := by
  rw [hl.resolve]
  exact resolve_below d hc

theorem Agree.walk_above (h : Agree d fs gs) {p : Path} {ds : List Name} (hp : ∀ n ∈ ds, Plain n)
    (hd : p ++ ds <+: d) : fs.walk p ds = gs.walk p ds := by
  induction ds generalizing p with
  | nil => rfl
  | cons n ds ih =>
    have hn := (hp n List.mem_cons_self).enter p
    have hnode := h.node (near_above ((List.prefix_append p (n :: ds)).trans hd))
    simp only [walk, hnode, hn]
    rw [ih (fun x hx => hp x (List.mem_cons_of_mem _ hx)) (by simpa using hd)]

theorem Agree.walk_below (h : Agree d fs gs) {l : Path} {cs : List Name}
    (hc : climbsFrom l.length cs = false) : fs.walk (d ++ l) cs = gs.walk (d ++ l) cs := by
  induction cs generalizing l with
  | nil => rfl
  | cons c cs ih =>
    obtain ⟨l', he, h'⟩ := climbsFrom_cons (d := d) hc
    have hnode := h.node (near_below (List.prefix_append d l))
    simp only [walk, hnode, he, ih h']

theorem Agree.walk (h : Agree d fs gs) (hl : Leads cwd s0 d) (hc : climbs s = false) :
    fs.walk cwd (splitSlash (s0 ++ s)) = gs.walk cwd (splitSlash (s0 ++ s)) := by
  obtain ⟨ds, hp, rfl, hs⟩ := hl.plain
  rw [hs, walk_append, walk_append, h.walk_above hp List.prefix_rfl]
  cases hw : gs.walk cwd ds with
  | error e => rfl
  | ok q =>
    obtain rfl : q = cwd ++ ds := (walk_ok hw).trans (resolve_plain cwd hp)
    have := h.walk_below (l := []) hc
    simpa [Except.bind] using this

theorem Leads.walk_below (hl : Leads cwd s0 d) (hc : climbs s = false) {p : Path}
    (hw : fs.walk cwd (splitSlash (s0 ++ s)) = .ok p) : d <+: p := by
  rw [walk_ok hw]
  exact hl.below hc

/-! ## Operations -/

theorem Agree.openRead (h : Agree d fs gs) (hl : Leads cwd s0 d) (hc : climbs s = false) :
    fs.openRead cwd (s0 ++ s) = gs.openRead cwd (s0 ++ s) := by
  unfold FS.openRead
  rw [h.walk hl hc]
  cases hw : gs.walk cwd (splitSlash (s0 ++ s)) with
  | error e => rfl
  | ok p =>
    simp only
    rw [h.node (near_below (hl.walk_below hc hw))]

theorem Agree.openTrunc (h : Agree d fs gs) (hl : Leads cwd s0 d) (hc : climbs s = false) :
    (fs.openTrunc cwd (s0 ++ s) = none ∧ gs.openTrunc cwd (s0 ++ s) = none) ∨
    ∃ p, d <+: p ∧ fs.openTrunc cwd (s0 ++ s) = some (p, fs.insert p (.file [])) ∧
      gs.openTrunc cwd (s0 ++ s) = some (p, gs.insert p (.file [])) := by
  unfold FS.openTrunc
  rw [h.walk hl hc]
  cases hw : gs.walk cwd (splitSlash (s0 ++ s)) with
  | error e => exact .inl ⟨rfl, rfl⟩
  | ok p =>
    have hp := hl.walk_below hc hw
    simp only
    rw [h.node (near_below hp)]
    split
    · exact .inl ⟨rfl, rfl⟩
    · exact .inr ⟨p, hp, rfl, rfl⟩

theorem Agree.append (h : Agree d fs gs) {p : Path} (hp : d <+: p) (b : Bytes) :
    Agree d (fs.append p b) (gs.append p b) := by
  unfold FS.append
  rw [h.lookup (near_below hp)]
  split
  · exact h.insert (near_below hp) _
  · exact h

theorem Agree.remove (h : Agree d fs gs) (hl : Leads cwd s0 d) (hc : climbs s = false) :
    (∃ e, fs.remove cwd (s0 ++ s) = .error e ∧ gs.remove cwd (s0 ++ s) = .error e) ∨
    (fs.remove cwd (s0 ++ s) = .ok (false, fs) ∧ gs.remove cwd (s0 ++ s) = .ok (false, gs)) ∨
    ∃ p, d <+: p ∧ fs.remove cwd (s0 ++ s) = .ok (true, fs.erase p) ∧
      gs.remove cwd (s0 ++ s) = .ok (true, gs.erase p) := by
  unfold FS.remove
  rw [h.walk hl hc]
  cases hw : gs.walk cwd (splitSlash (s0 ++ s)) with
  | error e => cases e <;> simp
  | ok p =>
    have hp := hl.walk_below hc hw
    simp only
    rw [h.node (near_below hp), h.children hp]
    cases hn : gs.node p with
    | none => exact .inr (.inl ⟨rfl, rfl⟩)
    | some x =>
      cases x with
      | file b => exact .inr (.inr ⟨p, hp, rfl, rfl⟩)
      | dir =>
        simp only
        split
        · exact .inl ⟨_, rfl, rfl⟩
        · split
          · exact .inl ⟨_, rfl, rfl⟩
          · split
            · exact .inl ⟨_, rfl, rfl⟩
            · exact .inr (.inr ⟨p, hp, rfl, rfl⟩)

theorem Agree.list (h : Agree d fs gs) (hl : Leads cwd s0 d) : fs.list cwd s0 = gs.list cwd s0 := by
  have hc : climbs [] = false := by decide
  have hw' := h.walk hl hc
  rw [List.append_nil] at hw'
  unfold FS.list
  rw [hw']
  cases hw : gs.walk cwd (splitSlash s0) with
  | error e => rfl
  | ok p =>
    have hw' : gs.walk cwd (splitSlash (s0 ++ [])) = .ok p := by rw [List.append_nil, hw]
    have hp : d <+: p := hl.walk_below hc hw'
    simp only
    rw [h.node (near_below hp), h.children hp]

theorem Agree.createDirectories (h : Agree d fs gs) {p : Path} {cs : List Name}
    (hn : ∀ ds, ds <+: cs → near d (Mefsc.resolve p ds) = true) :
    (∃ e, fs.createDirectories p cs = .error e ∧ gs.createDirectories p cs = .error e) ∨
    ∃ fs' gs', fs.createDirectories p cs = .ok fs' ∧ gs.createDirectories p cs = .ok gs' ∧
      Agree d fs' gs' := by
  induction cs generalizing p fs gs with
  | nil => exact .inr ⟨fs, gs, rfl, rfl, h⟩
  | cons c cs ih =>
    have hc : near d (enter p c) = true := hn [c] ⟨cs, rfl⟩
    have hn' : ∀ ds, ds <+: cs → near d (Mefsc.resolve (enter p c) ds) = true :=
      fun ds hds => hn (c :: ds) (List.cons_prefix_cons.mpr ⟨rfl, hds⟩)
    simp only [FS.createDirectories, h.node hc]
    split
    · exact .inl ⟨_, rfl, rfl⟩
    · split
      · exact ih h hn'
      · exact .inl ⟨_, rfl, rfl⟩
      · exact ih (h.insert hc .dir) hn'

/-- The way to the directory itself. -/
theorem Leads.near (hl : Leads cwd s0 d) (ds : List Name) (hds : ds <+: splitSlash s0) :
    FS.near d (Mefsc.resolve cwd ds) = true := by
  obtain ⟨es, hp, rfl, hs⟩ := hl.plain
  have hs0 : splitSlash s0 = es ++ [[]] := by simpa [splitSlash] using hs []
  rw [hs0] at hds
  rcases List.prefix_concat_iff.mp hds with rfl | hds
  · have hall := resolve_plain cwd hp
    unfold Mefsc.resolve at hall ⊢
    rw [List.foldl_append, hall]
    exact near_below (by simp [enter])
  · obtain ⟨rest, rfl⟩ := hds
    have hp' : ∀ n ∈ ds, Plain n := fun n hn => hp n (List.mem_append_left _ hn)
    rw [resolve_plain cwd hp', ← List.append_assoc]
    exact near_above (List.prefix_append _ _)

end

/-! ## Files elsewhere -/

/-- The same regular files outside `d`. -/
def SameFiles (d : Path) (fs gs : FS) : Prop :=
  ∀ q b, ¬ d <+: q → (gs.lookup q = some (.file b) ↔ fs.lookup q = some (.file b))

theorem SameFiles.refl (d : Path) (fs : FS) : SameFiles d fs fs := fun _ _ _ => Iff.rfl

theorem SameFiles.trans {hs : FS} (h1 : SameFiles d fs gs) (h2 : SameFiles d gs hs) : SameFiles d fs hs :=
  fun q b hq => (h2 q b hq).trans (h1 q b hq)

theorem SameFiles.insert (h : SameFiles d fs gs) {p : Path} (hp : d <+: p) (x : Node) :
    SameFiles d fs (gs.insert p x) := by
  intro q b hq
  have hne : q ≠ p := by rintro rfl; exact hq hp
  rw [AList.lookup_insert_ne hne]
  exact h q b hq

theorem SameFiles.erase (h : SameFiles d fs gs) {p : Path} (hp : d <+: p) :
    SameFiles d fs (gs.erase p) := by
  intro q b hq
  have hne : q ≠ p := by rintro rfl; exact hq hp
  rw [AList.lookup_erase_ne hne]
  exact h q b hq

theorem SameFiles.append (h : SameFiles d fs gs) {p : Path} (hp : d <+: p) (b : Bytes) :
    SameFiles d fs (gs.append p b) := by
  unfold FS.append
  split
  · exact h.insert hp _
  · exact h

theorem SameFiles.createDirectories (h : SameFiles d fs gs) {p : Path} {cs : List Name} {gs' : FS}
    (hx : gs.createDirectories p cs = .ok gs') : SameFiles d fs gs' := by
  induction cs generalizing p gs with
  | nil =>
    obtain rfl : gs = gs' := by simpa [FS.createDirectories] using hx
    exact h
  | cons c cs ih =>
    simp only [FS.createDirectories] at hx
    split at hx
    · cases hx
    · split at hx
      · exact ih h hx
      · cases hx
      · rename_i hnone
        refine ih (fun q b hq => ?_) hx
        rw [← h q b hq]
        by_cases hqp : q = enter p c
        · have hl : gs.lookup q = none := by
            subst hqp
            unfold FS.node at hnone
            split at hnone
            · cases hnone
            · exact hnone
          subst hqp
          simp [hl]
        · rw [AList.lookup_insert_ne hqp]

end FS

end Mefsc
