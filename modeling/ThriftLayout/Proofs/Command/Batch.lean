import Mathlib.Data.List.Nodup
import ThriftLayout.Command.FileResult
import ThriftLayout.Proofs.Files.Paths

/-!
# Files that are formatted together

The command formats files one after another, and writes some of them before it reads the next one.
Where the paths name different files this makes no difference: every file has the result that it
would have alone, and holds afterwards what it was formatted to.

Results:

* `FormatJob.verdict`: the result of one file.
* `FormatJob.runFiles_eq`: the results of several files.
* `FormatJob.file?_foldl_treeAfter`, `FormatJob.content?_foldl_treeAfter`: the files afterwards.
-/
namespace ThriftLayout

/-! ## One file -/

namespace FormatJob

variable {j : FormatJob} {r : Request} {t : FileTree} {p q : Bytes}

/-- What the file of a path is formatted to, or the exit code of the failure. -/
def formatted (j : FormatJob) (t : FileTree) (p : Bytes) : Except Nat Bytes :=
  match t.read p with
  | .error _ => .error 3
  | .ok src =>
    match j.format src with
    | .error ⟨.refused _, _⟩ => .error 2
    | .error _ => .error 3
    | .ok (out, _) => .ok out

def result (j : FormatJob) (t : FileTree) (p : Bytes) : FileResult :=
  match t.read p with
  | .error e => .failure p ExitCode.failed (FileResult.about p "read " e.message)
  | .ok src => j.run p src

def Changes (j : FormatJob) (t : FileTree) (p : Bytes) : Prop :=
  (j.result t p).code = ExitCode.ok ∧ (j.result t p).changed = true

instance (j : FormatJob) (t : FileTree) (p : Bytes) : Decidable (j.Changes t p) :=
  inferInstanceAs (Decidable (_ ∧ _))

def treeAfter (j : FormatJob) (r : Request) (t : FileTree) (p : Bytes) : FileTree :=
  if r.write = true ∧ j.Changes t p then t.write p (j.result t p).output 0 else t

theorem not_canceled_of_format {src out : Bytes} {ds : List Diagnostic}
    (h : j.format src = .ok (out, ds)) : j.canceled = false := by
  obtain ⟨o, range, diff, canceled⟩ := j
  cases canceled with
  | false => rfl
  | true => cases range <;> exact nomatch h

theorem codeOf_pos (f : FormatFault) : 0 < FileResult.codeOf f := by
  unfold FileResult.codeOf
  split <;> decide

theorem formatted_of_error {src : Bytes} {f : FormatFailure} (hread : t.read p = .ok src)
    (hformat : j.format src = .error f) :
    j.formatted t p = .error (FileResult.codeOf f.fault) := by
  rw [formatted, hread]
  simp only [hformat]
  obtain ⟨fault, ds⟩ := f
  cases fault <;> rfl

/-- The result of a file tells a failure, or what the file is formatted to. -/
inductive Verdict (j : FormatJob) (t : FileTree) (p : Bytes) : Prop
  | failed {c : Nat} (formatted : j.formatted t p = .error c) (positive : 0 < c)
    (code : (j.result t p).code = c)
  | formatted {src out : Bytes} (read : t.read p = .ok src) (formatted : j.formatted t p = .ok out)
    (wanted : j.canceled = false) (code : (j.result t p).code = ExitCode.ok)
    (output : (j.result t p).output = out) (changed : (j.result t p).changed = (out != src))

theorem verdict (j : FormatJob) (t : FileTree) (p : Bytes) : j.Verdict t p := by
  cases hread : t.read p with
  | error e =>
    have hformatted : j.formatted t p = .error 3 := by rw [formatted, hread]
    exact .failed hformatted (by decide) (by rw [result, hread]; rfl)
  | ok src =>
    have hresult : j.result t p = j.run p src := by rw [result, hread]
    cases hformat : j.format src with
    | error f =>
      refine .failed (formatted_of_error hread hformat) (codeOf_pos f.fault) ?_
      rw [hresult, run, hformat]
      rfl
    | ok r =>
      obtain ⟨out, ds⟩ := r
      have hformatted : j.formatted t p = .ok out := by
        rw [formatted, hread]
        simp only [hformat]
      refine .formatted hread hformatted (not_canceled_of_format hformat) ?_ ?_ ?_ <;>
        rw [hresult, run, hformat]

theorem result_withDiff (o : Options) (range : Option LineRange) (diff canceled : Bool)
    (t : FileTree) (p : Bytes) : ∃ d, (FormatJob.mk o range diff canceled).result t p =
      { (FormatJob.mk o range false canceled).result t p with diff := d } := by
  unfold result
  cases t.read p with
  | error e => exact ⟨[], rfl⟩
  | ok src =>
    simp only [run]
    rw [show (FormatJob.mk o range diff canceled).format src =
      (FormatJob.mk o range false canceled).format src from rfl]
    cases (FormatJob.mk o range false canceled).format src with
    | error f => exact ⟨[], rfl⟩
    | ok r => exact ⟨_, rfl⟩

theorem result_log (j : FormatJob) (t : FileTree) (p : Bytes) :
    ∀ l ∈ (j.result t p).log, l.level = .debug := by
  unfold result
  split
  · exact nofun
  · unfold run
    split
    · exact nofun
    · exact List.forall_mem_singleton.mpr rfl

theorem result_path (j : FormatJob) (t : FileTree) (p : Bytes) : (j.result t p).path = p := by
  unfold result
  split
  · rfl
  · unfold run
    split <;> rfl

/-- A file is written when it is formatted to something else, which never fails. -/
theorem runFile_eq (htokens : r.showTokens = false) (hdecls : r.showDecls = false) :
    j.runFile r t p = (j.result t p, j.treeAfter r t p, []) := by
  have hdump (src : Bytes) : Dump.wanted r j.canceled p src = [] := by
    simp [Dump.wanted, htokens, hdecls]
  unfold runFile treeAfter
  cases hread : t.read p with
  | error e =>
    have hresult : j.result t p =
        .failure p ExitCode.failed (FileResult.about p "read " e.message) := by rw [result, hread]
    have hkept : ¬ (r.write = true ∧ j.Changes t p) := fun h => by
      have hcode := h.2.1
      rw [hresult] at hcode
      exact nomatch hcode
    rw [if_neg hkept, hresult]
  | ok src =>
    have hresult : j.run p src = j.result t p := by rw [result, hread]
    simp only [hdump, hresult]
    by_cases h : r.write = true ∧ j.Changes t p
    · have hwanted : j.canceled = false := by
        cases j.verdict t p with
        | failed _ hpos hcode => exact absurd (hcode.symm.trans h.2.1) (Nat.ne_of_gt hpos)
        | formatted _ _ hwanted => exact hwanted
      rw [if_pos h, if_pos ⟨h.2.1, h.1, h.2.2⟩, FileTree.writeWhole, hwanted]
      rfl
    · rw [if_neg h, if_neg fun hc => h ⟨hc.2.1, hc.1, hc.2.2⟩]

/-! ## Several files -/

/-- A file that is formatted was there to be read. -/
theorem Changes.exists_read (h : j.Changes t p) : ∃ src out, t.read p = .ok src ∧
    j.formatted t p = .ok out ∧ (j.result t p).output = out ∧ out ≠ src := by
  cases j.verdict t p with
  | failed _ hpos hcode => exact absurd (hcode.symm.trans h.1) (Nat.ne_of_gt hpos)
  | @formatted src out hread hformatted _ _ houtput hchanged =>
    exact ⟨src, out, hread, hformatted, houtput, bne_iff_ne.mp (hchanged.symm.trans h.2)⟩

theorem place_treeAfter : (j.treeAfter r t p).place q = t.place q := by
  unfold treeAfter
  split <;> rfl

theorem file?_treeAfter (h : j.Changes t p → t.place q ≠ t.place p) :
    (j.treeAfter r t p).file? q = t.file? q := by
  unfold treeAfter
  split
  · rename_i hchanges
    exact FileTree.file?_write_of_ne (h hchanges.2)
  · rfl

/-- The file of another path is read as before. -/
theorem read_treeAfter (h : t.place q ≠ t.place p) : (j.treeAfter r t p).read q = t.read q := by
  unfold treeAfter
  split
  · rename_i hchanges
    obtain ⟨src, out, hread, -⟩ := hchanges.2.exists_read
    obtain ⟨f, hfile, -⟩ := FileTree.file?_of_read hread
    exact FileTree.read_write (hfile ▸ rfl) h
  · rfl

theorem result_treeAfter (h : t.place q ≠ t.place p) :
    j.result (j.treeAfter r t p) q = j.result t q := by
  unfold result
  rw [read_treeAfter h]

section RunFiles

variable {ps : List Bytes}

/-- The results of files of different places are those of each for itself. -/
theorem runFiles_eq (htokens : r.showTokens = false) (hdecls : r.showDecls = false)
    (h : (ps.map t.place).Nodup) :
    j.runFiles r t ps = ⟨ps.map (j.result t), ps.foldl (j.treeAfter r) t, []⟩ := by
  -- the other files are read from the tree that the first one left, which is the same to them
  induction ps generalizing t with
  | nil => rfl
  | cons p ps ih =>
    obtain ⟨hp, hps⟩ := List.nodup_cons.mp h
    have hother (q : Bytes) (hq : q ∈ ps) : t.place q ≠ t.place p := fun heq =>
      hp (heq ▸ List.mem_map_of_mem hq)
    have hplaces : (ps.map (j.treeAfter r t p).place).Nodup := by
      rwa [List.map_congr_left fun q _ => place_treeAfter]
    rw [runFiles, runFile_eq htokens hdecls]
    simp only [ih hplaces, List.map_cons, List.foldl_cons, List.nil_append]
    rw [List.map_congr_left fun q hq => result_treeAfter (hother q hq)]

/-- A file that no changing file stands for is left as it is. -/
theorem file?_foldl_treeAfter (hplaces : (ps.map t.place).Nodup)
    (h : ∀ p ∈ ps, j.Changes t p → t.place q ≠ t.place p) :
    (ps.foldl (j.treeAfter r) t).file? q = t.file? q := by
  induction ps generalizing t with
  | nil => rfl
  | cons p ps ih =>
    obtain ⟨hp, hps⟩ := List.nodup_cons.mp hplaces
    have hother (p' : Bytes) (hp' : p' ∈ ps) : t.place p' ≠ t.place p := fun heq =>
      hp (heq ▸ List.mem_map_of_mem hp')
    rw [List.foldl_cons, ih, file?_treeAfter (h p (List.mem_cons_self ..))]
    · rwa [List.map_congr_left fun q _ => place_treeAfter]
    · intro p' hp' hchanges
      rw [place_treeAfter, place_treeAfter]
      refine h p' (List.mem_cons_of_mem p hp') ?_
      rwa [Changes, result_treeAfter (hother p' hp')] at hchanges

/-- A file that changes holds what it is formatted to, once it is written. -/
theorem content?_foldl_treeAfter (hwrite : r.write = true) (hplaces : (ps.map t.place).Nodup)
    (hmem : p ∈ ps) (h : j.Changes t p) :
    (ps.foldl (j.treeAfter r) t).content? p = some (j.result t p).output := by
  induction ps generalizing t with
  | nil => exact nomatch hmem
  | cons p' ps ih =>
    obtain ⟨hp', hps⟩ := List.nodup_cons.mp hplaces
    have hplaces' : (ps.map (j.treeAfter r t p').place).Nodup := by
      rwa [List.map_congr_left fun q _ => place_treeAfter]
    rw [List.foldl_cons]
    rcases List.mem_cons.mp hmem with rfl | hmem
    · -- written here, and left alone by the files after it
      have hlater (q : Bytes) (hq : q ∈ ps) :
          (j.treeAfter r t p).place p ≠ (j.treeAfter r t p).place q := by
        rw [place_treeAfter, place_treeAfter]
        exact fun heq => hp' (heq ▸ List.mem_map_of_mem hq)
      rw [FileTree.content?, file?_foldl_treeAfter hplaces' fun q hq _ => hlater q hq,
        treeAfter, if_pos ⟨hwrite, h⟩]
      exact FileTree.content?_write.trans (if_pos rfl)
    · have hother : t.place p ≠ t.place p' := fun heq => hp' (heq ▸ List.mem_map_of_mem hmem)
      have hresult := result_treeAfter (j := j) (r := r) hother
      rw [← hresult]
      refine ih hplaces' hmem ?_
      rw [Changes, hresult]
      exact h

/-- A file that does not change is left as it is. -/
theorem file?_foldl_of_not_changes (hplaces : (ps.map t.place).Nodup) (hmem : p ∈ ps)
    (h : ¬ j.Changes t p) : (ps.foldl (j.treeAfter r) t).file? p = t.file? p := by
  refine file?_foldl_treeAfter hplaces fun p' hp' hchanges hplace => h ?_
  rwa [List.inj_on_of_nodup_map hplaces hmem hp' hplace]

theorem foldl_treeAfter_of_not_write (h : r.write = false) : ps.foldl (j.treeAfter r) t = t :=
  List.foldl_fixed' (fun _ => if_neg fun hc => Bool.false_ne_true (h.symm.trans hc.1)) ps

end RunFiles

end FormatJob

end ThriftLayout
