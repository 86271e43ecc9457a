import Mefsc.Core.FileSys

/-!
# When a file-system call throws

`OnWay cwd cs p`: `p` is one of the directories that the components `cs` go
through, read from `cwd`. `Open fs cwd cs`: all of these are directories. Files
do not change that (`open_insert`), taking a directory away does
(`open_erase`), and `create_directories` sees to it (`createDirectories_open`).
`mem_children_insert` and the lemmas with it say what keeps the names in a directory.

`list`, `create_directories` and `remove` succeed exactly when the file system
is `Open`, `Makeable`, or `Removable` there.
-/
namespace Mefsc

namespace FS

/-! ## Directories on the way -/

def OnWay (cwd : Path) (cs : List Name) (p : Path) : Prop := ∃ ds, ds <+: cs ∧ p = resolve cwd ds

def Open (fs : FS) (cwd : Path) (cs : List Name) : Prop := ∀ p, OnWay cwd cs p → fs.node p = some .dir

theorem onWay_nil {cwd p : Path} : OnWay cwd [] p ↔ p = cwd := by
  simp [OnWay, resolve]

theorem onWay_cons {cwd p : Path} {c : Name} {cs : List Name} :
    OnWay cwd (c :: cs) p ↔ p = cwd ∨ OnWay (enter cwd c) cs p := by
  constructor
  · rintro ⟨ds, hds, rfl⟩
    cases ds with
    | nil => exact .inl rfl
    | cons d ds =>
      obtain ⟨rfl, h⟩ := List.cons_prefix_cons.mp hds
      exact .inr ⟨ds, h, rfl⟩
  · rintro (rfl | ⟨ds, hds, rfl⟩)
    · exact ⟨[], List.nil_prefix, rfl⟩
    · exact ⟨c :: ds, List.cons_prefix_cons.mpr ⟨rfl, hds⟩, rfl⟩

theorem open_cons {fs : FS} {cwd : Path} {c : Name} {cs : List Name} :
    fs.Open cwd (c :: cs) ↔ fs.node cwd = some .dir ∧ fs.Open (enter cwd c) cs := by
  unfold Open
  constructor
  · intro h
    exact ⟨h cwd (onWay_cons.mpr (.inl rfl)), fun p hp => h p (onWay_cons.mpr (.inr hp))⟩
  · rintro ⟨h1, h2⟩ p hp
    rcases onWay_cons.mp hp with rfl | hp
    · exact h1
    · exact h2 p hp

/-- A walk to a directory goes through directories, and conversely. -/
theorem walk_open {fs : FS} {cwd : Path} {cs : List Name} (hs : ∀ c ∈ cs, c.length ≤ NAME_MAX) :
    (∃ p, fs.walk cwd cs = .ok p ∧ fs.node p = some .dir) ↔ fs.Open cwd cs := by
  induction cs generalizing cwd with
  | nil =>
    unfold Open
    simp [walk, onWay_nil]
  | cons c cs ih =>
    have hc := hs c List.mem_cons_self
    rw [open_cons, ← ih (fun x hx => hs x (List.mem_cons_of_mem _ hx))]
    cases hn : fs.node cwd with
    | none => simp [walk, hn]
    | some x => cases x <;> simp [walk, hn, Nat.not_lt.mpr hc]

theorem walk_short {fs : FS} {cwd p : Path} {cs : List Name} (h : fs.walk cwd cs = .ok p) :
    ∀ c ∈ cs, c.length ≤ NAME_MAX := by
  induction cs generalizing cwd with
  | nil => simp
  | cons c cs ih =>
    simp only [walk] at h
    split at h
    · cases h
    · cases h
    · split at h
      · cases h
      · rename_i hc
        intro d hd
        rcases List.mem_cons.mp hd with rfl | hd
        · exact Nat.le_of_not_lt hc
        · exact ih h d hd

theorem list_ok_iff {fs : FS} {cwd : Path} {s : Bytes} :
    (∃ ns, fs.list cwd s = .ok ns) ↔
      (∀ c ∈ splitSlash s, c.length ≤ NAME_MAX) ∧ fs.Open cwd (splitSlash s) := by
  have hl : (∃ ns, fs.list cwd s = .ok ns) ↔
      ∃ p, fs.walk cwd (splitSlash s) = .ok p ∧ fs.node p = some .dir := by
    unfold list
    cases fs.walk cwd (splitSlash s) with
    | error e => simp
    | ok p =>
      cases hn : fs.node p with
      | none => simp [hn]
      | some x => cases x <;> simp [hn]
  rw [hl]
  constructor
  · rintro ⟨p, hw, hd⟩
    have hs := walk_short hw
    exact ⟨hs, (walk_open hs).mp ⟨p, hw, hd⟩⟩
  · rintro ⟨hs, ho⟩
    exact (walk_open hs).mpr ho

/-! ## What changes it -/

theorem node_insert_self (fs : FS) {p : Path} (hp : p ≠ []) (x : Node) :
    node (fs.insert p x) p = some x := by
  simp [node, hp]

/-- A file where no directory is. -/
theorem open_insert {fs : FS} {cwd p : Path} {cs : List Name} (hp : fs.node p ≠ some .dir) (b : Bytes) :
    Open (fs.insert p (.file b)) cwd cs ↔ fs.Open cwd cs := by
  have hne : p ≠ [] := by
    rintro rfl
    exact hp rfl
  constructor
  · intro h q hq
    have hd := h q hq
    by_cases he : q = p
    · subst he
      rw [node_insert_self fs hne] at hd
      cases hd
    · rwa [node_insert_ne he] at hd
  · intro h q hq
    have he : q ≠ p := by
      rintro rfl
      exact hp (h q hq)
    rw [node_insert_ne he]
    exact h q hq

theorem node_erase_self (fs : FS) {p : Path} (hp : p ≠ []) : node (fs.erase p) p = none := by
  simp [node, hp]

/-- A file that is gone was on no way. -/
theorem walk_erase {fs : FS} {p q r : Path} {cs : List Name} (hp : fs.node p ≠ some .dir)
    (h : fs.walk q cs = .ok r) : walk (fs.erase p) q cs = .ok r := by
  induction cs generalizing q with
  | nil => exact h
  | cons c cs ih =>
    simp only [walk] at h ⊢
    split at h
    · cases h
    · cases h
    · rename_i hq
      have hne : q ≠ p := by
        rintro rfl
        exact hp hq
      rw [node_erase_ne hne, hq]
      simp only
      split at h
      · cases h
      · rename_i hc
        rw [if_neg hc]
        exact ih h

theorem open_erase {fs : FS} {cwd p : Path} {cs : List Name} (hp : p ≠ []) :
    Open (fs.erase p) cwd cs ↔ fs.Open cwd cs ∧ ¬ OnWay cwd cs p := by
  constructor
  · intro h
    have hnot : ¬ OnWay cwd cs p := by
      intro hw
      have hd := h p hw
      rw [node_erase_self fs hp] at hd
      cases hd
    refine ⟨fun q hq => ?_, hnot⟩
    have he : q ≠ p := by
      rintro rfl
      exact hnot hq
    have hd := h q hq
    rwa [node_erase_ne he] at hd
  · rintro ⟨h, hnot⟩ q hq
    have he : q ≠ p := by
      rintro rfl
      exact hnot hq
    rw [node_erase_ne he]
    exact h q hq

theorem open_openTrunc {fs fs' : FS} {cwd p cwd' : Path} {s : Bytes} {cs : List Name}
    (h : fs.openTrunc cwd s = some (p, fs')) : Open fs' cwd' cs ↔ fs.Open cwd' cs := by
  obtain ⟨-, hd, -⟩ := openTrunc_some h
  rw [openTrunc_eq h]
  exact open_insert hd []

theorem open_append {fs : FS} {p cwd : Path} {cs : List Name} (b : Bytes) :
    Open (fs.append p b) cwd cs ↔ fs.Open cwd cs := by
  unfold append
  split
  · rename_i old hl
    by_cases hp : p = []
    · -- the root is a directory whatever is entered for it
      subst hp
      have hnode : ∀ q, node (fs.insert [] (.file (old ++ b))) q = fs.node q := by
        intro q
        by_cases hq : q = []
        · subst hq
          rfl
        · exact node_insert_ne hq
      simp only [Open, hnode]
    · refine open_insert ?_ _
      simp [node, hp, hl]
  · exact Iff.rfl

/-! ## Names in a directory -/

theorem list_children {fs : FS} {cwd : Path} {s : Bytes} {ns : List Name} (h : fs.list cwd s = .ok ns) :
    ns = fs.children (resolve cwd (splitSlash s)) := by
  unfold list at h
  cases hw : fs.walk cwd (splitSlash s) with
  | error e => simp [hw] at h
  | ok p =>
    rw [← walk_ok hw]
    cases hn : fs.node p with
    | none => simp [hw, hn] at h
    | some x =>
      cases x with
      | file b => simp [hw, hn] at h
      | dir => simpa [hw, hn] using h.symm

/-- A file that was there, or is made in another directory. -/
theorem mem_children_insert {fs : FS} {p d : Path} {n : Name} {x : Node} (hp : p ≠ [])
    (h : fs.node p ≠ none ∨ p.dropLast ≠ d) :
    n ∈ children (fs.insert p x) d ↔ n ∈ fs.children d := by
  rw [mem_children, mem_children, AList.mem_insert]
  refine ⟨fun hn => ?_, .inr⟩
  rcases hn with he | hn
  · rcases h with h | h
    · rw [he, ← AList.lookup_isSome]
      simp only [node, hp, if_false] at h
      exact Option.isSome_iff_ne_none.mpr h
    · rw [← he, List.dropLast_concat] at h
      exact absurd rfl h
  · exact hn

theorem mem_children_append {fs : FS} {p d : Path} {n : Name} (b : Bytes) :
    n ∈ children (fs.append p b) d ↔ n ∈ fs.children d := by
  unfold append
  split
  · rename_i old hl
    rw [mem_children, mem_children, AList.mem_insert]
    refine ⟨fun hn => ?_, .inr⟩
    rcases hn with he | hn
    · rw [he, ← AList.lookup_isSome, hl]
      rfl
    · exact hn
  · exact Iff.rfl

theorem mem_children_erase {fs : FS} {p d : Path} {n : Name} (h : p.dropLast ≠ d) :
    n ∈ children (fs.erase p) d ↔ n ∈ fs.children d := by
  rw [mem_children, mem_children, AList.mem_erase]
  refine ⟨fun hn => hn.2, fun hn => ⟨?_, hn⟩⟩
  intro he
  rw [← he, List.dropLast_concat] at h
  exact h rfl

/-! ## `create_directories` -/

/-- No regular file stands on the way, and no name on it is too long. -/
def Makeable (fs : FS) (p : Path) (cs : List Name) : Prop :=
  ∀ ds c, ds ++ [c] <+: cs → c.length ≤ NAME_MAX ∧ ∀ b, fs.node (resolve p (ds ++ [c])) ≠ some (.file b)

theorem makeable_cons {fs : FS} {p : Path} {c : Name} {cs : List Name} :
    fs.Makeable p (c :: cs) ↔ c.length ≤ NAME_MAX ∧ (∀ b, fs.node (enter p c) ≠ some (.file b)) ∧
      fs.Makeable (enter p c) cs := by
  constructor
  · intro h
    obtain ⟨h1, h2⟩ := h [] c (List.cons_prefix_cons.mpr ⟨rfl, List.nil_prefix⟩)
    exact ⟨h1, h2, fun ds d hd => h (c :: ds) d (List.cons_prefix_cons.mpr ⟨rfl, hd⟩)⟩
  · rintro ⟨h1, h2, h3⟩ ds d hd
    cases ds with
    | nil =>
      obtain ⟨rfl, -⟩ := List.cons_prefix_cons.mp hd
      exact ⟨h1, h2⟩
    | cons d' ds =>
      obtain ⟨rfl, hd'⟩ := List.cons_prefix_cons.mp hd
      exact h3 ds d hd'

theorem makeable_insert_dir {fs : FS} {p q : Path} {cs : List Name} (hq : fs.node q = none) :
    Makeable (fs.insert q .dir) p cs ↔ fs.Makeable p cs := by
  have hne : q ≠ [] := by
    rintro rfl
    cases hq
  have hnode : ∀ r b, node (fs.insert q .dir) r ≠ some (.file b) ↔ fs.node r ≠ some (.file b) := by
    intro r b
    by_cases hr : r = q
    · subst hr
      simp [node_insert_self fs hne, hq]
    · rw [node_insert_ne hr]
  simp only [Makeable, hnode]

theorem createDirectories_ok_iff {fs : FS} {p : Path} {cs : List Name} :
    (∃ fs', fs.createDirectories p cs = .ok fs') ↔ fs.Makeable p cs := by
  induction cs generalizing fs p with
  | nil =>
    refine ⟨fun _ ds c h => ?_, fun _ => ⟨fs, rfl⟩⟩
    simp at h
  | cons c cs ih =>
    rw [makeable_cons]
    by_cases hc : NAME_MAX < c.length
    · simp [createDirectories, hc]
    · have hle := Nat.le_of_not_lt hc
      cases hn : fs.node (enter p c) with
      | none =>
        rw [← makeable_insert_dir hn, ← ih]
        simp [createDirectories, hc, hn, hle]
      | some x =>
        cases x with
        | file b => simp [createDirectories, hc, hn]
        | dir =>
          rw [← ih]
          simp [createDirectories, hc, hn, hle]

/-- Directories stay. -/
theorem createDirectories_dir {fs fs' : FS} {p q : Path} {cs : List Name}
    (h : fs.createDirectories p cs = .ok fs') (hq : fs.node q = some .dir) : fs'.node q = some .dir := by
  induction cs generalizing fs p with
  | nil =>
    cases h
    exact hq
  | cons c cs ih =>
    simp only [createDirectories] at h
    split at h
    · cases h
    · split at h
      · exact ih h hq
      · cases h
      · rename_i hn
        refine ih h ?_
        have hne : q ≠ enter p c := by
          rintro rfl
          rw [hq] at hn
          cases hn
        rw [node_insert_ne hne]
        exact hq

theorem createDirectories_open {fs fs' : FS} {p : Path} {cs : List Name}
    (h : fs.createDirectories p cs = .ok fs') (hp : fs.node p = some .dir) : fs'.Open p cs := by
  induction cs generalizing fs p with
  | nil =>
    cases h
    intro q hq
    rw [onWay_nil.mp hq]
    exact hp
  | cons c cs ih =>
    have hp' := createDirectories_dir h hp
    rw [open_cons]
    refine ⟨hp', ?_⟩
    simp only [createDirectories] at h
    split at h
    · cases h
    · split at h
      · exact ih h ‹_›
      · cases h
      · rename_i hn
        have hne : enter p c ≠ [] := by
          intro he
          rw [he] at hn
          cases hn
        exact ih h (node_insert_self fs hne .dir)

/-! ## `remove` -/

/-- The way to it meets no regular file and no name that is too long; and a
directory is empty, is not the root and is not named by a final `.`. -/
def Removable (fs : FS) (cwd : Path) (s : Bytes) : Prop :=
  match fs.walk cwd (splitSlash s) with
  | .error e => e = .enoent
  | .ok p => fs.node p = some .dir →
    ((splitSlash s).filter (· ≠ []) |>.getLast? |>.any (· = dot)) = false ∧ p ≠ [] ∧ fs.children p = []

theorem remove_ok_iff {fs : FS} {cwd : Path} {s : Bytes} :
    (∃ r, fs.remove cwd s = .ok r) ↔ fs.Removable cwd s := by
  unfold remove Removable
  cases fs.walk cwd (splitSlash s) with
  | error e => cases e <;> simp
  | ok p =>
    simp only
    cases fs.node p with
    | none => simp
    | some x =>
      cases x with
      | file b => simp
      | dir =>
        generalize ((splitSlash s).filter (· ≠ []) |>.getLast? |>.any (· = dot)) = byDot
        cases byDot with
        | true => simp
        | false =>
          by_cases h2 : p = []
          · simp [h2]
          · by_cases h3 : fs.children p = [] <;> simp [h2, h3]

/-- What `remove` takes away, if anything. -/
theorem remove_cases {fs fs' : FS} {cwd : Path} {s : Bytes} {b : Bool} (h : fs.remove cwd s = .ok (b, fs')) :
    (fs' = fs ∧ b = false ∧ ∀ p, fs.walk cwd (splitSlash s) = .ok p → fs.node p = none) ∨
    ∃ p, fs.walk cwd (splitSlash s) = .ok p ∧ p ≠ [] ∧ b = true ∧ fs' = fs.erase p := by
  unfold remove at h
  cases hw : fs.walk cwd (splitSlash s) with
  | error e =>
    rw [hw] at h
    cases e <;> simp at h
    exact .inl ⟨h.2.symm, h.1, by simp⟩
  | ok p =>
    rw [hw] at h
    simp only at h
    cases hn : fs.node p with
    | none =>
      rw [hn] at h
      simp only [Except.ok.injEq, Prod.mk.injEq] at h
      refine .inl ⟨h.2.symm, h.1.symm, fun q hq => ?_⟩
      cases hq
      exact hn
    | some x =>
      rw [hn] at h
      have hp : p ≠ [] ∧ (b, fs') = (true, fs.erase p) := by
        cases x with
        | file c =>
          simp only [Except.ok.injEq] at h
          refine ⟨?_, h.symm⟩
          rintro rfl
          cases hn
        | dir =>
          simp only at h
          split at h
          · cases h
          · split at h
            · cases h
            · split at h
              · cases h
              · exact ⟨‹_›, (Except.ok.inj h).symm⟩
      obtain ⟨hp, he⟩ := hp
      simp only [Prod.mk.injEq] at he
      exact .inr ⟨p, rfl, hp, he.1, he.2⟩

end FS

end Mefsc
