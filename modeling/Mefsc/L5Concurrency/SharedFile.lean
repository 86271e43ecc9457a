import Mefsc.Core.OpenFile
import Mefsc.L4App.Intake

/-!
# Uploads and downloads of one name at the same time

Workers that serve sessions of one user open the same file: an upload truncates
it and writes header, salt and chunks at its own offset, a download reads at its
own, both through the buffers of their streams. Nothing in the server keeps them
apart.

`uploads_in_turn`: when an upload of the name never overlaps with another upload
or a download of it, every download delivers all that one upload wrote, and so
does the file hold it. `uploads_mix`: two that overlap, and one that is broken off.

Opening and writing do not fail here.
-/
namespace Mefsc.L5

open L1 L1.SessionEncWrapper L2 L3 L4

/-- A run of one of the two handlers on the name. `ended`: the upload got to the
chunk announced with `END_CHUNK`; else it was broken off after these chunks. -/
inductive FileJob where
  | upload (header salt : Bytes) (chunks : List Bytes) (ended : Bool)
  | download
  deriving DecidableEq, Repr

namespace FileJob

/-- What it does to the file; the writer thread writes each chunk it was given,
however the loop ends.
mirrors src/server/read_write_handlers.cpp:157-171 -/
def job : FileJob → Job
  | .upload header salt chunks _ => .writer (header :: salt :: chunks)
  | .download => .reader

end FileJob

/-- The reads of a download.
mirrors src/server/read_write_handlers.cpp:254-278 -/
def readSize (k : Nat) : Nat :=
  if k = 0 then STREAM_HEADERBYTES else if k = 1 then PWHASH_SALTBYTES else FILE_ENCRYPTED_CHUNK_SIZE

theorem readSize_pos (k : Nat) : 0 < readSize k := by
  unfold readSize
  split
  · decide
  split
  · decide
  · decide

/-! ## One handler at a time -/

/-- What the upload handler leaves in the file when it is alone is what a job
writes, whatever arrives and however it ends. -/
theorem upload_alone {E : ServerEnv} {act : Nat} {st : FsOperator} {inp : Bytes} {e : Bool} {h : List (Ev Role)}
    {os : List (Option Nat)} {r : Int} {w' : World FsOperator Role}
    (hx : Proc.Runs (E.wtfsHandlerServer act) ⟨st, inp, e, h, os⟩ r w') :
    w'.st.fs = st.fs ∨ ∃ f chunks ended, fourFrames inp = some f ∧ Receives E END_CHUNK f.rest chunks ended ∧
      ∀ name header salt, uploadStart E st f = (name, header, salt) →
        (st.fs.openTrunc E.cwd (E.user_dir ++ (cstr name ++ ext))).isSome →
        w'.st.fs.openRead E.cwd (E.user_dir ++ (cstr name ++ ext)) =
          some ⟨(FileJob.upload header salt chunks ended).job.bytes, false⟩ := by
  rcases wtfs_takes hx with ⟨-, hfs⟩ | ⟨f, chunks, ended, hf, -, hrec, hfs⟩
  · exact .inl hfs
  · refine .inr ⟨f, chunks, ended, hf, hrec, fun name header salt hstart ho => ?_⟩
    rw [hstart] at hfs
    rw [hfs, FS.openRead_stored ho]
    simp [FileJob.job, Job.bytes]

section
variable {ι : Type} [DecidableEq ι]

/-- Any number of handlers, on one name. `eof()` is looked at from the first
chunk on. -/
def sharedFile (jobs : ι → FileJob) : LTS (OpenFile ι) (FileAct ι) :=
  OpenFile.lts (fun i => (jobs i).job) readSize 2

/-! ## In turn -/

/-- No upload of the name overlaps with another upload or a download of it. -/
def InTurn (jobs : ι → FileJob) : OpenFile ι → FileAct ι → Prop := OpenFile.Alone fun i => (jobs i).job

instance [Fintype ι] (jobs : ι → FileJob) (s : OpenFile ι) : DecidablePred (InTurn jobs s) :=
  inferInstanceAs (DecidablePred (OpenFile.Alone (fun i => (jobs i).job) s))

/-- A read is the handler's `file.read` on the whole file, after the reads before
it: what is in the buffer makes no difference. -/
theorem read_fresh {jobs : ι → FileJob} {s : OpenFile ι}
    (hr : ((sharedFile jobs).during (InTurn jobs)).Reachable s) {j : ι} {off : Nat} {ahead : Bytes} {dry : Bool}
    {got : List Bytes} (hp : s.pcs j = .reading off ahead dry got) {b ahead' : Bytes} {eof : Bool}
    (hb : OpenFile.takeAhead ahead dry (readSize got.length) = some (b, ahead', eof)) :
    ∃ c, s.content = some c ∧ (IStream.fresh (c.drop got.flatten.length)).read (readSize got.length) =
      (b, if eof then .ended else .fresh (c.drop (got ++ [b]).flatten.length)) := by
  obtain ⟨c, hc, hg, hle, hd⟩ := (OpenFile.kept_reachable hr).reading j off ahead dry got hp
  refine ⟨c, hc, ?_⟩
  -- the buffer is what follows in the file
  have hahead : c.drop got.flatten.length = ahead ++ c.drop off := by
    conv_lhs => rw [← List.take_append_drop off c, ← hg, List.append_assoc, List.drop_left]
  unfold OpenFile.takeAhead at hb
  cases dry with
  | true =>
    have hlt : ahead.length < readSize got.length := OpenFile.dry_short readSize_pos hr.of_during hp
    simp only [if_true, Option.some.injEq, Prod.mk.injEq] at hb
    obtain ⟨rfl, -, rfl⟩ := hb
    rw [hahead, hd rfl, List.drop_length, List.append_nil, IStream.read_short hlt, if_pos rfl]
  | false =>
    simp only [Bool.false_eq_true, if_false, Option.ite_none_right_eq_some, Option.some.injEq, Prod.mk.injEq] at hb
    obtain ⟨hn, rfl, -, rfl⟩ := hb
    have hfull : readSize got.length ≤ (c.drop got.flatten.length).length := by
      rw [hahead, List.length_append]
      omega
    have htake : (c.drop got.flatten.length).take (readSize got.length) = ahead.take (readSize got.length) := by
      rw [hahead, List.take_append_of_le_length hn]
    rw [IStream.read_full hfull, htake, List.drop_drop, if_neg Bool.false_ne_true]
    simp [Nat.min_eq_left hn]

theorem upload_of_closed {jobs : ι → FileJob} {s : OpenFile ι} (hr : (sharedFile jobs).Reachable s) {i : ι}
    (hi : s.pcs i = .closed) : ∃ header salt chunks ended, jobs i = .upload header salt chunks ended ∧
      (jobs i).job.bytes = header ++ salt ++ chunks.flatten := by
  obtain ⟨pieces, hp⟩ := OpenFile.writer_of_closed hr hi
  cases hj : jobs i with
  | download => simp [hj, FileJob.job] at hp
  | upload header salt chunks ended => exact ⟨header, salt, chunks, ended, rfl, by simp [FileJob.job, Job.bytes]⟩

/-- In every run in which uploads take their turn: a download that has finished
delivered all that one upload wrote, and whenever no upload is under way and one
has finished, the file is all that one wrote. -/
theorem uploads_in_turn {jobs : ι → FileJob} {s : OpenFile ι}
    (hr : ((sharedFile jobs).during (InTurn jobs)).Reachable s) :
    (∀ j got, s.pcs j = .delivered got → ∃ i header salt chunks ended, s.pcs i = .closed ∧
      jobs i = .upload header salt chunks ended ∧ got.flatten = header ++ salt ++ chunks.flatten) ∧
    ((∀ i, ¬ (s.pcs i).Writes) → (∃ i, s.pcs i = .closed) → ∃ i header salt chunks ended, s.pcs i = .closed ∧
      jobs i = .upload header salt chunks ended ∧ s.content = some (header ++ salt ++ chunks.flatten)) := by
  have hk := OpenFile.kept_reachable hr
  have hall := hr.of_during
  constructor
  · intro j got hj
    obtain ⟨i, hi, hb⟩ := hk.delivered j got hj
    obtain ⟨header, salt, chunks, ended, hup, hbytes⟩ := upload_of_closed hall hi
    exact ⟨i, header, salt, chunks, ended, hi, hup, hb.trans hbytes⟩
  · intro hno ⟨k, hk'⟩
    rcases hk.settled hno with ⟨-, hnone⟩ | ⟨i, hi, hb⟩
    · exact absurd hk' (hnone k)
    · obtain ⟨header, salt, chunks, ended, hup, hbytes⟩ := upload_of_closed hall hi
      exact ⟨i, header, salt, chunks, ended, hi, hup, by rw [hb, hbytes]⟩

end

/-! ## Runs -/

/-- Two uploads of one block each, the second one a byte longer, and a download. -/
def threeJobs : Fin 3 → FileJob
  | 0 => .upload (List.replicate 24 1) (List.replicate 16 1) [List.replicate 17 1] true
  | 1 => .upload (List.replicate 24 2) (List.replicate 16 2) [List.replicate 18 2] true
  | 2 => .download

def sharedStep (jobs : Fin 3 → FileJob) : OpenFile (Fin 3) → FileAct (Fin 3) → Option (OpenFile (Fin 3)) :=
  OpenFile.step (fun i => (jobs i).job) readSize 2

/-- The first upload, then the download. -/
def turnRun : List (FileAct (Fin 3)) :=
  [.open 0, .write 0, .write 0, .write 0, .close 0,
    .open 2, .fetch 2 8191, .read 2, .read 2, .fetch 2 8191, .read 2]

theorem uploads_in_turn_three : ∃ (s : OpenFile (Fin 3)) (got : List Bytes), s.pcs 2 = .delivered got ∧
    ∃ i header salt chunks ended, s.pcs i = .closed ∧ threeJobs i = .upload header salt chunks ended ∧
      got.flatten = header ++ salt ++ chunks.flatten := by
  have hrun : (turnRun.foldlM (LTS.guarded (fun s a => decide (InTurn threeJobs s a)) (sharedStep threeJobs))
      ⟨none, fun _ => .idle⟩).map (fun s => s.pcs 2) =
        some (.delivered [List.replicate 24 1, List.replicate 16 1, List.replicate 17 1]) := by decide +kernel
  obtain ⟨s, hs, hx⟩ := Option.map_eq_some_iff.mp hrun
  have hr : ((sharedFile threeJobs).during (InTurn threeJobs)).Reachable s :=
    LTS.Reachable.guarded (fun _ _ => of_decide_eq_true) (fun _ _ _ h => h) (.init rfl) hs
  exact ⟨s, _, hx, (uploads_in_turn hr).1 2 _ hx⟩

/-- The second upload comes and goes while the first one has the file open. Neither
fills its buffer, so each writes all it has when it closes the file. -/
def overlapRun : List (FileAct (Fin 3)) :=
  [.open 0, .write 0, .write 0, .open 1, .write 1, .write 1, .write 1, .close 1, .write 0, .close 0]

/-- The first upload is broken off before its first chunk. -/
def brokenJobs : Fin 3 → FileJob
  | 0 => .upload (List.replicate 24 1) (List.replicate 16 1) [] false
  | _ => .download

/-- It is downloaded afterwards. -/
def brokenRun : List (FileAct (Fin 3)) :=
  [.open 0, .write 0, .write 0, .close 0, .open 2, .fetch 2 8191, .read 2, .read 2, .fetch 2 8191, .read 2]

/-- The file is neither of two uploads that overlap; and what an upload leaves that
is broken off is delivered, though no upload got to its end. -/
theorem uploads_mix :
    (∃ s : OpenFile (Fin 3), (sharedFile threeJobs).Reachable s ∧ s.pcs 0 = .closed ∧ s.pcs 1 = .closed ∧
      s.content = some (List.replicate 57 1 ++ [2]) ∧
      s.content ≠ some (threeJobs 0).job.bytes ∧ s.content ≠ some (threeJobs 1).job.bytes) ∧
    ∃ s : OpenFile (Fin 3), ((sharedFile brokenJobs).during (InTurn brokenJobs)).Reachable s ∧
      s.pcs 2 = .delivered [List.replicate 24 1, List.replicate 16 1, []] ∧
      ∀ i header salt chunks, brokenJobs i ≠ .upload header salt chunks true := by
  constructor
  · have hrun : (overlapRun.foldlM (sharedStep threeJobs) ⟨none, fun _ => .idle⟩).map
        (fun s => (s.pcs 0, s.pcs 1, s.content)) =
          some (.closed, .closed, some (List.replicate 57 1 ++ [2])) := by decide +kernel
    obtain ⟨s, hs, hx⟩ := Option.map_eq_some_iff.mp hrun
    simp only [Prod.mk.injEq] at hx
    obtain ⟨h0, h1, hc⟩ := hx
    refine ⟨s, LTS.Reachable.foldlM (fun _ _ _ h => h) (.init rfl) hs, h0, h1, hc, ?_, ?_⟩
    · rw [hc]
      decide +kernel
    · rw [hc]
      decide +kernel
  · have hrun : (brokenRun.foldlM
        (LTS.guarded (fun s a => decide (InTurn brokenJobs s a)) (sharedStep brokenJobs))
        ⟨none, fun _ => .idle⟩).map (fun s => s.pcs 2) =
          some (.delivered [List.replicate 24 1, List.replicate 16 1, []]) := by decide +kernel
    obtain ⟨s, hs, hx⟩ := Option.map_eq_some_iff.mp hrun
    refine ⟨s, LTS.Reachable.guarded (fun _ _ => of_decide_eq_true) (fun _ _ _ h => h) (.init rfl) hs, hx, ?_⟩
    intro i header salt chunks hi
    unfold brokenJobs at hi
    split at hi <;> cases hi

end Mefsc.L5
