import Mathlib.Logic.Function.Basic
import Mefsc.Core.Confine
import Mefsc.Core.Way

/-!
# A directory as a map from names to contents

`Holds fs cwd d m`: the string `d` leads from `cwd` to a directory that holds
the regular files of the map `m` and nothing else. Below `d`, and for names that
denote an entry of their own (`Plain`), the calls of a program are those of the
map: reading looks up, storing sets, removing unsets, and a directory pass gives
the names.
-/
namespace Mefsc.FS

structure Holds (fs : FS) (cwd : Path) (d : Bytes) (m : Name → Option Bytes) : Prop where
  way : fs.walk cwd (splitSlash d) = .ok (resolve cwd (splitSlash d))
  dir : fs.node (resolve cwd (splitSlash d)) = some .dir
  files : ∀ n, fs.lookup (resolve cwd (splitSlash d) ++ [n]) = (m n).map .file

section
variable {fs : FS} {cwd : Path} {d : Bytes} {m : Name → Option Bytes} {n : Name}

/-- An empty directory. -/
theorem holds_empty (h : fs.list cwd d = .ok []) : fs.Holds cwd d fun _ => none := by
  have hc := list_children h
  unfold list at h
  cases hw : fs.walk cwd (splitSlash d) with
  | error e => simp [hw] at h
  | ok p =>
    obtain rfl := walk_ok hw
    refine ⟨hw, ?_, fun n => ?_⟩
    · cases hn : fs.node (resolve cwd (splitSlash d)) with
      | none => simp [hw, hn] at h
      | some x =>
        cases x with
        | file b => simp [hw, hn] at h
        | dir => rfl
    · have hmem : n ∉ fs.children (resolve cwd (splitSlash d)) := by
        rw [← hc]
        exact List.not_mem_nil
      rw [mem_children, ← AList.lookup_eq_none] at hmem
      exact hmem

/-- A pass over the directory gives each name of the map once. -/
theorem Holds.list (h : fs.Holds cwd d m) :
    ∃ ns, fs.list cwd d = .ok ns ∧ ns.Nodup ∧ ∀ n, n ∈ ns ↔ (m n).isSome := by
  refine ⟨fs.children (resolve cwd (splitSlash d)), ?_, children_nodup _ _, fun n => ?_⟩
  · simp [FS.list, h.way, h.dir]
  · rw [mem_children, ← AList.lookup_isSome, h.files n, Option.isSome_map]

/-- The way to a name below `d`. -/
theorem Holds.walk_name (h : fs.Holds cwd (d ++ [slash]) m) (hn : Plain n) :
    fs.walk cwd (splitSlash (d ++ [slash] ++ n)) = .ok (resolve cwd (splitSlash (d ++ [slash])) ++ [n]) := by
  have hdir : splitSlash (d ++ [slash]) = splitSlash d ++ [[]] := splitSlash_append d []
  have hname : splitSlash (d ++ [slash] ++ n) = splitSlash d ++ [n] := by
    rw [List.append_assoc, List.singleton_append, splitSlash_append, splitSlash_noSlash hn.noSlash]
  have hw := h.way
  rw [hdir, walk_append] at hw
  rw [hname, walk_append]
  cases hp : fs.walk cwd (splitSlash d) with
  | error e => simp [hp, Except.bind] at hw
  | ok p =>
    have hres : resolve cwd (splitSlash (d ++ [slash])) = p := by
      rw [walk_ok hp, hdir]
      simp [resolve, enter]
    rw [hres]
    exact walk_plain (hres ▸ h.dir) hn

theorem Holds.node_name (h : fs.Holds cwd d m) (n : Name) :
    fs.node (resolve cwd (splitSlash d) ++ [n]) = (m n).map .file := by
  rw [node_snoc, h.files n]

theorem Holds.openRead (h : fs.Holds cwd (d ++ [slash]) m) (hn : Plain n) :
    fs.openRead cwd (d ++ [slash] ++ n) = (m n).map fun b => ⟨b, false⟩ := by
  unfold FS.openRead
  rw [h.walk_name hn]
  simp only [h.node_name]
  cases m n <;> rfl

/-- A file in the directory is written or taken away, and the way there is left as
it was. -/
theorem Holds.update (h : fs.Holds cwd d m) {fs' : FS} {v : Option Bytes}
    (hself : fs'.lookup (resolve cwd (splitSlash d) ++ [n]) = v.map .file)
    (hother : ∀ p, p ≠ resolve cwd (splitSlash d) ++ [n] → fs'.node p = fs.node p)
    (hway : fs'.walk cwd (splitSlash d) = .ok (resolve cwd (splitSlash d))) :
    fs'.Holds cwd d (Function.update m n v) := by
  refine ⟨hway, ?_, fun n' => ?_⟩
  · rw [hother _ (by simp), h.dir]
  · by_cases hn : n' = n
    · rw [hn, Function.update_self, hself]
    · rw [Function.update_of_ne hn, ← node_snoc, hother _ (by simpa using hn), h.node_name]

theorem Holds.not_dir (h : fs.Holds cwd d m) (n : Name) :
    fs.node (resolve cwd (splitSlash d) ++ [n]) ≠ some .dir := by
  rw [h.node_name]
  cases m n <;> simp

theorem Holds.stored (h : fs.Holds cwd (d ++ [slash]) m) (hn : Plain n) (b : Bytes) :
    (fs.stored cwd (d ++ [slash] ++ n) b).Holds cwd (d ++ [slash]) (Function.update m n (some b)) := by
  have hopen : fs.openTrunc cwd (d ++ [slash] ++ n) =
      some (resolve cwd (splitSlash (d ++ [slash])) ++ [n],
        fs.insert (resolve cwd (splitSlash (d ++ [slash])) ++ [n]) (.file [])) := by
    unfold openTrunc
    rw [h.walk_name hn]
    simp only [h.node_name]
    cases m n <;> rfl
  have hst : fs.stored cwd (d ++ [slash] ++ n) b =
      fs.insert (resolve cwd (splitSlash (d ++ [slash])) ++ [n]) (.file b) := by
    unfold FS.stored
    rw [hopen]
  rw [hst]
  exact h.update (AList.lookup_insert _) (fun p hp => node_insert_ne hp) (walk_insert (h.not_dir n) _ h.way)

theorem Holds.remove (h : fs.Holds cwd (d ++ [slash]) m) (hn : Plain n) :
    ∃ fs', fs.remove cwd (d ++ [slash] ++ n) = .ok ((m n).isSome, fs') ∧
      fs'.Holds cwd (d ++ [slash]) (Function.update m n none) := by
  cases hm : m n with
  | none =>
    refine ⟨fs, ?_, ?_⟩
    · unfold FS.remove
      rw [h.walk_name hn]
      simp only [h.node_name, hm]
      rfl
    · rw [← hm, Function.update_eq_self]
      exact h
  | some b =>
    refine ⟨fs.erase (resolve cwd (splitSlash (d ++ [slash])) ++ [n]), ?_, ?_⟩
    · unfold FS.remove
      rw [h.walk_name hn]
      simp only [h.node_name, hm]
      rfl
    · exact h.update (by simp) (fun p hp => node_erase_ne hp) (walk_erase (h.not_dir n) h.way)

/-- `create_directories` on a way that is there. -/
theorem createDirectories_walk {p q : Path} {cs : List Name} (hw : fs.walk p cs = .ok q)
    (hq : fs.node q = some .dir) : fs.createDirectories p cs = .ok fs := by
  induction cs generalizing p with
  | nil => rfl
  | cons c cs ih =>
    simp only [walk] at hw
    split at hw
    · cases hw
    · cases hw
    split at hw
    · cases hw
    rename_i hlen
    have hc : fs.node (enter p c) = some .dir := by
      cases cs with
      | nil =>
        obtain rfl := walk_ok hw
        exact hq
      | cons c' cs =>
        simp only [walk] at hw
        split at hw
        · cases hw
        · cases hw
        · assumption
    simp only [createDirectories, hlen, if_false, hc]
    exact ih hw

theorem Holds.createDirectories (h : fs.Holds cwd d m) : fs.createDirectories cwd (splitSlash d) = .ok fs :=
  createDirectories_walk h.way h.dir

/-- Elsewhere anything may change. -/
theorem Holds.agree {gs : FS} {p : Path} (h : fs.Holds cwd d m) (hl : Leads cwd d p) (ha : Agree p fs gs) :
    gs.Holds cwd d m := by
  have hres : resolve cwd (splitSlash d) = p := by
    simpa [resolve, splitSlash, enter] using hl.resolve []
  have hnear : ∀ n, near p (p ++ [n]) = true := fun n => near_below (List.prefix_append p [n])
  refine ⟨?_, ?_, fun n => ?_⟩
  · have hw := ha.walk (s := []) hl (by rfl)
    rw [List.append_nil] at hw
    rw [← hw]
    exact h.way
  · have hd := h.dir
    rw [hres] at hd ⊢
    rw [← ha.node (near_below (List.prefix_refl p))]
    exact hd
  · have hf := h.files n
    rw [hres] at hf ⊢
    rw [← ha.lookup (hnear n)]
    exact hf

end

end Mefsc.FS
