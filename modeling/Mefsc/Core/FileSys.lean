import Mathlib.Data.List.AList
import Mefsc.Core.Cut

/-!
# A file system of directories and regular files

Nodes are keyed by their absolute path (`Path`, a list of names); there are no
links, so a path string resolves the way its components read. `walk` follows a
string through existing directories only and reports why it stopped; the
operations on top of it are the ones a C++ program uses: opening for reading
(a directory opens, but every read from it fails), opening with truncation,
`std::filesystem::remove`, `create_directories` and `directory_iterator`.

`resolve` is the plain reading of `.` and `..`; a successful walk ends there
(`walk_ok`).
-/
namespace Mefsc

abbrev Name := Bytes
abbrev Path := List Name

inductive Node where
  | file (b : Bytes)
  | dir
  deriving DecidableEq, Repr

/-- Why a system call failed. Permissions, descriptor limits and the device are not
among the reasons here. -/
inductive Errno where
  | enoent | enotdir | enametoolong | enotempty | einval | ebusy
  deriving DecidableEq, Repr

def NAME_MAX : Nat := 255

/-! ## Paths -/

def slash : UInt8 := 47
def dot : Name := [46]
def dotdot : Name := [46, 46]

/-- The components of a path string, empty ones included. -/
def splitSlash : Bytes → List Name
  | [] => [[]]
  | b :: bs =>
    if b = slash then [] :: splitSlash bs
    else match splitSlash bs with
      | [] => [[b]]
      | c :: cs => (b :: c) :: cs

/-- One component, read from directory `p`. -/
def enter (p : Path) (c : Name) : Path :=
  if c = [] ∨ c = dot then p else if c = dotdot then p.dropLast else p ++ [c]

def resolve (p : Path) (cs : List Name) : Path := cs.foldl enter p

theorem splitSlash_ne_nil (s : Bytes) : splitSlash s ≠ [] := by
  induction s with
  | nil => simp [splitSlash]
  | cons b s ih =>
    unfold splitSlash
    split
    · simp
    · split <;> simp

theorem splitSlash_append (s t : Bytes) :
    splitSlash (s ++ slash :: t) = splitSlash s ++ splitSlash t := by
  induction s with
  | nil => simp [splitSlash]
  | cons b s ih =>
    by_cases hb : b = slash
    · simp [splitSlash, hb, ih]
    · simp only [List.cons_append, splitSlash, hb, if_false, ih]
      cases h : splitSlash s with
      | nil => exact absurd h (splitSlash_ne_nil s)
      | cons c cs => simp

theorem splitSlash_noSlash {s : Bytes} (h : slash ∉ s) : splitSlash s = [s] := by
  induction s with
  | nil => rfl
  | cons b s ih =>
    simp only [List.mem_cons, not_or] at h
    simp [splitSlash, Ne.symm h.1, ih h.2]

/-- A name that denotes an entry of its own in a directory. -/
structure Plain (n : Name) : Prop where
  ne_nil : n ≠ []
  noSlash : slash ∉ n
  noNul : (0 : UInt8) ∉ n
  ne_dot : n ≠ dot
  ne_dotdot : n ≠ dotdot
  short : n.length ≤ NAME_MAX

theorem Plain.enter {n : Name} (h : Plain n) (p : Path) : enter p n = p ++ [n] := by
  simp [Mefsc.enter, h.ne_nil, h.ne_dot, h.ne_dotdot]

/-! ## The file system -/

abbrev FS := AList (fun _ : Path => Node)

namespace FS

/-- The node at a path; the root is always a directory. -/
def node (fs : FS) (p : Path) : Option Node := if p = [] then some .dir else fs.lookup p

def walk (fs : FS) (p : Path) : List Name → Except Errno Path
  | [] => .ok p
  | c :: cs =>
    match fs.node p with
    | none => .error .enoent
    | some (.file _) => .error .enotdir
    | some .dir => if NAME_MAX < c.length then .error .enametoolong else walk fs (enter p c) cs

/-- `std::ifstream(s)`: what it reads from, when it opens. -/
def openRead (fs : FS) (cwd : Path) (s : Bytes) : Option Source :=
  match fs.walk cwd (splitSlash s) with
  | .error _ => none
  | .ok p =>
    match fs.node p with
    | none => none
    | some .dir => some ⟨[], true⟩
    | some (.file b) => some ⟨b, false⟩

/-- `std::ofstream(s)`: the file it created or truncated. -/
def openTrunc (fs : FS) (cwd : Path) (s : Bytes) : Option (Path × FS) :=
  match fs.walk cwd (splitSlash s) with
  | .error _ => none
  | .ok p =>
    match fs.node p with
    | some .dir => none
    | _ => some (p, fs.insert p (.file []))

/-- Append to the file an `ofstream` holds open. -/
def append (fs : FS) (p : Path) (b : Bytes) : FS :=
  match fs.lookup p with
  | some (.file old) => fs.insert p (.file (old ++ b))
  | _ => fs

/-- Open with truncation, write `b`, close. -/
def stored (fs : FS) (cwd : Path) (s b : Bytes) : FS :=
  match fs.openTrunc cwd s with
  | none => fs
  | some (p, _) => fs.insert p (.file b)

/-- The names in a directory. -/
def children (fs : FS) (p : Path) : List Name :=
  fs.keys.filterMap fun q => if q.dropLast = p then q.getLast? else none

/-- `std::filesystem::remove`; `.error` is what it throws. -/
def remove (fs : FS) (cwd : Path) (s : Bytes) : Except Errno (Bool × FS) :=
  match fs.walk cwd (splitSlash s) with
  | .error .enoent => .ok (false, fs)
  | .error e => .error e
  | .ok p =>
    match fs.node p with
    | none => .ok (false, fs)
    | some (.file _) => .ok (true, fs.erase p)
    | some .dir =>
      if (splitSlash s).filter (· ≠ []) |>.getLast? |>.any (· = dot) then .error .einval
      else if p = [] then .error .ebusy
      else if fs.children p ≠ [] then .error .enotempty
      else .ok (true, fs.erase p)

/-- `std::filesystem::directory_iterator`: the names it yields, or the error
it throws. -/
def list (fs : FS) (cwd : Path) (s : Bytes) : Except Errno (List Name) :=
  match fs.walk cwd (splitSlash s) with
  | .error e => .error e
  | .ok p =>
    match fs.node p with
    | none => .error .enoent
    | some (.file _) => .error .enotdir
    | some .dir => .ok (fs.children p)

/-- `std::filesystem::create_directories`. -/
def createDirectories (fs : FS) (p : Path) : List Name → Except Errno FS
  | [] => .ok fs
  | c :: cs =>
    if NAME_MAX < c.length then .error .enametoolong
    else match fs.node (enter p c) with
      | some .dir => createDirectories fs (enter p c) cs
      | some (.file _) => .error .enotdir
      | none => createDirectories (fs.insert (enter p c) .dir) (enter p c) cs

/-! ### Walking -/

theorem walk_ok {fs : FS} {p q : Path} {cs : List Name} (h : fs.walk p cs = .ok q) :
    q = resolve p cs := by
  induction cs generalizing p with
  | nil => simpa [walk, resolve, eq_comm] using h
  | cons c cs ih =>
    simp only [walk] at h
    split at h
    · cases h
    · cases h
    · split at h
      · cases h
      · exact ih h

theorem walk_append (fs : FS) (p : Path) (cs ds : List Name) :
    fs.walk p (cs ++ ds) = (fs.walk p cs).bind fun q => fs.walk q ds := by
  induction cs generalizing p with
  | nil => rfl
  | cons c cs ih =>
    simp only [List.cons_append, walk]
    split
    · rfl
    · rfl
    · split
      · rfl
      · exact ih _

/-- A plain name in an existing directory. -/
theorem walk_plain {fs : FS} {p : Path} {n : Name} (hp : fs.node p = some .dir) (hn : Plain n) :
    fs.walk p [n] = .ok (p ++ [n]) := by
  have h := Nat.not_lt.mpr hn.short
  simp [walk, hp, h, hn.enter]

/-! ### Nodes after an update -/

theorem openTrunc_eq {fs fs' : FS} {cwd p : Path} {s : Bytes} (h : fs.openTrunc cwd s = some (p, fs')) :
    fs' = fs.insert p (.file []) := by
  unfold openTrunc at h
  split at h
  · cases h
  · split at h
    · cases h
    · cases h; rfl

theorem append_insert (fs : FS) (p : Path) (old b : Bytes) :
    FS.append (fs.insert p (.file old)) p b = fs.insert p (.file (old ++ b)) := by
  simp [append, AList.insert_insert]

theorem node_snoc (fs : FS) (p : Path) (n : Name) : fs.node (p ++ [n]) = fs.lookup (p ++ [n]) := by
  simp [node]

theorem node_insert_ne {fs : FS} {p q : Path} {x : Node} (h : q ≠ p) :
    node (fs.insert p x) q = fs.node q := by
  simp only [node]
  split
  · rfl
  · exact AList.lookup_insert_ne h

theorem node_erase_ne {fs : FS} {p q : Path} (h : q ≠ p) : node (fs.erase p) q = fs.node q := by
  simp only [node]
  split
  · rfl
  · exact AList.lookup_erase_ne h

/-- Writing a file where no directory is does not change how strings
resolve. -/
theorem walk_insert {fs : FS} {p q r : Path} {cs : List Name} (hp : fs.node p ≠ some .dir) (x : Node)
    (h : fs.walk q cs = .ok r) : walk (fs.insert p x) q cs = .ok r := by
  induction cs generalizing q with
  | nil => exact h
  | cons c cs ih =>
    simp only [walk] at h ⊢
    split at h
    · cases h
    · cases h
    · rename_i hq
      have hne : q ≠ p := by rintro rfl; exact hp hq
      rw [node_insert_ne hne, hq]
      split at h
      · cases h
      · rename_i hc
        simp only [hc, if_false]
        exact ih h

theorem openTrunc_some {fs fs' : FS} {cwd p : Path} {s : Bytes}
    (h : fs.openTrunc cwd s = some (p, fs')) :
    fs.walk cwd (splitSlash s) = .ok p ∧ fs.node p ≠ some .dir ∧ p ≠ [] := by
  unfold openTrunc at h
  split at h
  · cases h
  · rename_i q hw
    split at h
    · cases h
    · rename_i hd
      obtain rfl : q = p := by simpa using congrArg (Option.map Prod.fst) h
      refine ⟨hw, fun hc => hd hc, ?_⟩
      rintro rfl
      exact hd rfl

/-- What was stored is what is read. -/
theorem openRead_stored {fs : FS} {cwd : Path} {s : Bytes} (h : (fs.openTrunc cwd s).isSome)
    (b : Bytes) : (fs.stored cwd s b).openRead cwd s = some ⟨b, false⟩ := by
  obtain ⟨⟨p, fs'⟩, hx⟩ := Option.isSome_iff_exists.mp h
  obtain ⟨hw, hd, hp⟩ := openTrunc_some hx
  have hn : node (fs.insert p (.file b)) p = some (.file b) := by simp [node, hp]
  simp [stored, hx, openRead, walk_insert hd (.file b) hw, hn]

/-- Storing leaves everything as it was when the file does not open, or held the
same bytes before. -/
theorem stored_same_iff {fs : FS} {cwd : Path} {s b : Bytes} :
    (∀ p, (fs.stored cwd s b).lookup p = fs.lookup p) ↔
      fs.openTrunc cwd s = none ∨ fs.openRead cwd s = some ⟨b, false⟩ := by
  unfold stored
  cases hx : fs.openTrunc cwd s with
  | none => simp
  | some x =>
    obtain ⟨p, fs'⟩ := x
    obtain ⟨hw, hd, hp⟩ := openTrunc_some hx
    have hn : fs.node p = fs.lookup p := if_neg hp
    have hread : fs.openRead cwd s = some ⟨b, false⟩ ↔ fs.lookup p = some (.file b) := by
      simp only [openRead, hw, ← hn]
      cases hnp : fs.node p with
      | none => simp
      | some x =>
        cases x with
        | dir => exact absurd hnp hd
        | file c => simp
    rw [hread]
    constructor
    · intro h
      have h := h p
      simp only [AList.lookup_insert] at h
      exact .inr h.symm
    · rintro (h | h) q
      · cases h
      by_cases hq : q = p
      · rw [hq, h]
        exact AList.lookup_insert fs
      · exact AList.lookup_insert_ne hq

/-- Only a directory opens to a stream that cannot be read. -/
theorem openRead_bad {fs : FS} {cwd : Path} {s b : Bytes} (h : fs.openRead cwd s = some ⟨b, true⟩) :
    b = [] := by
  unfold openRead at h
  split at h
  · cases h
  · split at h <;> cases h
    rfl

theorem mem_children {fs : FS} {p : Path} {n : Name} :
    n ∈ fs.children p ↔ (p ++ [n]) ∈ fs := by
  simp only [children, List.mem_filterMap, AList.mem_keys]
  constructor
  · rintro ⟨q, hq, h⟩
    split at h
    · rename_i hp
      have hne : q ≠ [] := by rintro rfl; simp at h
      rw [List.getLast?_eq_some_getLast hne] at h
      obtain rfl : q = p ++ [n] := by
        rw [← List.dropLast_append_getLast hne, hp]
        simpa using h
      exact hq
    · cases h
  · intro h
    exact ⟨p ++ [n], h, by simp⟩

theorem children_nodup (fs : FS) (p : Path) : (fs.children p).Nodup := by
  refine fs.keys_nodup.filterMap ?_
  intro q q' n h1 h2
  split at h1
  · rename_i hq
    split at h2
    · rename_i hq'
      have e : ∀ r : Path, r.dropLast = p → n ∈ r.getLast? → r = p ++ [n] := by
        intro r hr hn
        have hne : r ≠ [] := by rintro rfl; simp at hn
        rw [List.getLast?_eq_some_getLast hne] at hn
        rw [← List.dropLast_append_getLast hne, hr]
        simpa using hn
      rw [e q hq h1, e q' hq' h2]
    · cases h2
  · cases h1

end FS

end Mefsc
