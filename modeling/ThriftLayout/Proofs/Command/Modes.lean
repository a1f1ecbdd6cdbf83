import ThriftLayout.Command.Run
import ThriftLayout.Proofs.Command.Batch

/-!
# The modes of the command

The command prints what files are formatted to, writes it to the files, says which of them are not
formatted, or shows the differences. All of this is read off the same results, so the modes agree on
which files change, to what, and on which ones fail.

Results:

* `Command.outcome_eq`: what the command does in a mode, read off the results of the files.
* `Command.modes_agree`: what the modes print, write and report about the same files.
-/
namespace ThriftLayout

open FormatJob

theorem LogLine.shown_debug {ls : List LogLine} (h : ∀ l ∈ ls, l.level = .debug) :
    shown .info ls = [] := by
  have hnone : (ls.filter fun l => LogLevel.info.rank ≤ l.level.rank) = [] :=
    List.filter_eq_nil_iff.mpr fun l hl => by rw [h l hl]; decide
  rw [shown, hnone, List.flatMap_nil]

namespace Command

/-- What the command makes of the texts that files are formatted to. -/
inductive Mode where
  | print
  | write
  | check
  | diff
  deriving DecidableEq, Repr

/-- A request in a mode, for files and without dumps. -/
def Mode.request (mode : Mode) (r : Request) : Request :=
  { r with
    write := mode == .write
    check := mode == .check
    diff := mode == .diff
    stdin := false
    debug := false
    showTokens := false
    showDecls := false }

def outcome (e : Environment) (r : Request) (o : Options) (range : Option LineRange) (mode : Mode) :
    Outcome :=
  format e (mode.request r) o range

/-- What the command does when it prints one file. -/
def printed (e : Environment) (r : Request) (o : Options) (range : Option LineRange) (p : Bytes) :
    Outcome :=
  outcome e { r with paths := [p] } o range .print

/-- What the file of a path is formatted to, or the exit code of the failure. -/
def formatted (e : Environment) (o : Options) (range : Option LineRange) (p : Bytes) :
    Except Nat Bytes :=
  FormatJob.formatted ⟨o, range, false, e.canceled⟩ e.tree p

/-- The exit code of a file for itself. -/
def codeOf (e : Environment) (o : Options) (range : Option LineRange) (p : Bytes) : Nat :=
  match formatted e o range p with
  | .error code => code
  | .ok _ => 0

/-- Whether the mode that writes changes the file of a path. -/
def rewrites (e : Environment) (r : Request) (o : Options) (range : Option LineRange) (p : Bytes) :
    Bool :=
  (outcome e r o range .write).tree.content? p != e.tree.content? p

variable {e : Environment} {r : Request} {o : Options} {range : Option LineRange} {p : Bytes}

/-- What the command does in a mode, read off the results of the files. -/
theorem outcome_eq (h : (r.paths.map e.tree.place).Nodup) (mode : Mode) :
    outcome e r o range mode =
      let j : FormatJob := ⟨o, range, mode == .diff, e.canceled⟩
      let report := Report.ofResults (mode.request r) (r.paths.map (j.result e.tree))
      ⟨report.code, report.stdout, report.stderr, false, false,
        r.paths.foldl (j.treeAfter (mode.request r)) e.tree⟩ := by
  have hstdin : (mode.request r).stdin = false := rfl
  have hlevel : logLevel (mode.request r) = .info := rfl
  have hlogs (j : FormatJob) :
      LogLine.shown .info ((r.paths.map (j.result e.tree)).flatMap (·.log)) = [] := by
    refine LogLine.shown_debug fun l hl => ?_
    obtain ⟨res, hres, hl⟩ := List.mem_flatMap.mp hl
    obtain ⟨p, -, rfl⟩ := List.mem_map.mp hres
    exact j.result_log e.tree p l hl
  unfold outcome format batch
  rw [if_neg (hstdin ▸ Bool.false_ne_true), hlevel]
  simp only
  rw [show (mode.request r).paths = r.paths from rfl,
    runFiles_eq (r := mode.request r) rfl rfl h]
  simp only [hlogs, List.nil_append]
  rw [LogLine.shown_debug (List.forall_mem_singleton.mpr rfl),
    LogLine.shown_debug (List.forall_mem_singleton.mpr rfl), List.nil_append, List.append_nil]
  rfl

theorem formatted_of_unreadable (o : Options) (range : Option LineRange) {f : ReadFault}
    (h : e.tree.read p = .error f) : formatted e o range p = .error ExitCode.failed := by
  unfold formatted FormatJob.formatted
  rw [h]
  rfl

/-- The mode that shows differences comes to the same results otherwise. -/
theorem result_mode (o : Options) (range : Option LineRange) (mode : Mode) (p : Bytes) :
    let res := FormatJob.result ⟨o, range, mode == .diff, e.canceled⟩ e.tree p
    let base := FormatJob.result ⟨o, range, false, e.canceled⟩ e.tree p
    res.code = base.code ∧ res.changed = base.changed ∧ res.messages = base.messages := by
  obtain ⟨d, hd⟩ := result_withDiff o range (mode == .diff) e.canceled e.tree p
  rw [hd]
  exact ⟨rfl, rfl, rfl⟩

theorem code_result (o : Options) (range : Option LineRange) (p : Bytes) :
    (FormatJob.result ⟨o, range, false, e.canceled⟩ e.tree p).code = codeOf e o range p := by
  unfold codeOf formatted
  cases FormatJob.verdict ⟨o, range, false, e.canceled⟩ e.tree p with
  | failed hformatted _ hcode => rw [hformatted, hcode]
  | formatted _ hformatted _ hcode =>
    rw [hformatted, hcode]
    rfl

section Files

variable (h : (r.paths.map e.tree.place).Nodup) (hp : p ∈ r.paths)

include h

theorem tree_write : (outcome e r o range .write).tree =
    r.paths.foldl (FormatJob.treeAfter ⟨o, range, false, e.canceled⟩ (Mode.write.request r))
      e.tree := by
  rw [outcome_eq h]
  rfl

include hp

/-- The files that change on the disk are those that are formatted to something else. -/
theorem rewrites_iff : rewrites e r o range p = true ↔
    FormatJob.Changes ⟨o, range, false, e.canceled⟩ e.tree p := by
  unfold rewrites
  rw [bne_iff_ne, tree_write h]
  refine ⟨fun hne => ?_, fun hchanges => ?_⟩
  · by_contra hkept
    exact hne (congrArg (Option.map File.content) (file?_foldl_of_not_changes h hp hkept))
  · obtain ⟨src, out, hread, -, hout, hne⟩ := hchanges.exists_read
    rw [content?_foldl_treeAfter rfl h hp hchanges, FileTree.content?_of_read hread, hout]
    exact fun heq => hne (Option.some.inj heq)

theorem content_written {out : Bytes} (hformatted : formatted e o range p = .ok out) :
    (outcome e r o range .write).tree.content? p = some out := by
  rw [tree_write h]
  cases FormatJob.verdict ⟨o, range, false, e.canceled⟩ e.tree p with
  | failed herror => exact nomatch herror.symm.trans hformatted
  | @formatted src out' hread hformatted' _ hcode houtput hchanged =>
    obtain rfl : out' = out := Except.ok.inj (hformatted'.symm.trans hformatted)
    by_cases hsame : out' = src
    · have hkept : ¬ FormatJob.Changes ⟨o, range, false, e.canceled⟩ e.tree p := fun hchanges =>
        bne_iff_ne.mp (hchanged.symm.trans hchanges.2) hsame
      rw [FileTree.content?, file?_foldl_of_not_changes h hp hkept, hsame]
      exact FileTree.content?_of_read hread
    · rw [← houtput]
      exact content?_foldl_treeAfter rfl h hp ⟨hcode, hchanged.trans (bne_iff_ne.mpr hsame)⟩

theorem file_kept {code : Nat} (hformatted : formatted e o range p = .error code) :
    (outcome e r o range .write).tree.file? p = e.tree.file? p := by
  rw [tree_write h]
  refine file?_foldl_of_not_changes h hp fun hchanges => ?_
  obtain ⟨_, out, _, hout, -⟩ := hchanges.exists_read
  exact nomatch hout.symm.trans hformatted

end Files

theorem changedCount_pos_iff (h : (r.paths.map e.tree.place).Nodup) (mode : Mode) :
    0 < Report.changedCount (r.paths.map
        (FormatJob.result ⟨o, range, mode == .diff, e.canceled⟩ e.tree)) ↔
      ∃ p ∈ r.paths, rewrites e r o range p = true := by
  unfold Report.changedCount
  rw [List.countP_map, List.countP_pos_iff]
  refine exists_congr fun p => and_congr_right fun hp => ?_
  obtain ⟨hcode, hchanged, -⟩ := result_mode (e := e) o range mode p
  rw [rewrites_iff h hp, Function.comp_apply, hcode, hchanged, Bool.and_eq_true, beq_iff_eq]
  rfl

/-- What holds of the modes of the command for the same files. -/
structure ModesAgree (e : Environment) (r : Request) (o : Options) (range : Option LineRange) :
    Prop where
  /-- Only one mode changes files. -/
  untouched : ∀ mode, mode ≠ .write → (outcome e r o range mode).tree = e.tree
  /-- That mode leaves every file that can be formatted with its text, -/
  written : ∀ p ∈ r.paths, ∀ out, formatted e o range p = .ok out →
    (outcome e r o range .write).tree.content? p = some out
  /-- every file that cannot be formatted as it is, -/
  kept : ∀ p ∈ r.paths, ∀ code, formatted e o range p = .error code →
    (outcome e r o range .write).tree.file? p = e.tree.file? p
  /-- one that is there and may not be read among them, which fails, -/
  unreadable : ∀ p ∈ r.paths, ∀ f, e.tree.read p = .error f →
    formatted e o range p = .error ExitCode.failed ∧
      (outcome e r o range .write).tree.file? p = e.tree.file? p
  /-- and every other file too. -/
  unnamed : ∀ q, (∀ p ∈ r.paths, e.tree.place q ≠ e.tree.place p) →
    (outcome e r o range .write).tree.file? q = e.tree.file? q
  /-- The same texts are printed, in the order of the files. -/
  texts : (outcome e r o range .print).stdout =
    r.paths.flatMap fun p => (formatted e o range p).toOption.getD []
  /-- Of each file the same is said, -/
  said : ∀ mode, mode ≠ .check → (outcome e r o range mode).stderr =
    r.paths.flatMap fun p => (printed e r o range p).stderr
  /-- and a check reports the files that change. -/
  reported : (outcome e r o range .check).stderr = r.paths.flatMap fun p =>
    (printed e r o range p).stderr ++
      if rewrites e r o range p then p ++ utf8 ": needs formatting\n" else []
  /-- The worst of the files gives the exit code, unless a change was asked for and found. -/
  code : ∀ mode, (outcome e r o range mode).code =
    max ((r.paths.map (codeOf e o range)).foldl max 0)
      (if (mode = .check ∨ mode = .diff) ∧ ∃ p ∈ r.paths, rewrites e r o range p = true then 1
      else 0)

/-! ## Reports -/

theorem output_print (e : Environment) (r : Request) (o : Options) (range : Option LineRange)
    (p : Bytes) : Report.output (Mode.print.request r)
        (FormatJob.result ⟨o, range, false, e.canceled⟩ e.tree p) =
      (formatted e o range p).toOption.getD [] := by
  unfold Report.output formatted
  cases FormatJob.verdict ⟨o, range, false, e.canceled⟩ e.tree p with
  | failed hformatted hpos hcode =>
    have hfailed : (FormatJob.result ⟨o, range, false, e.canceled⟩ e.tree p).code ≠ ExitCode.ok :=
      fun hok => Nat.ne_of_gt hpos (hcode.symm.trans hok)
    rw [if_pos hfailed, hformatted]
    rfl
  | formatted _ hformatted _ hcode houtput =>
    rw [if_neg (not_not_intro hcode), hformatted, houtput]
    rfl

/-- Nothing but a check adds to what is said about a file. -/
theorem messages_mode {mode : Mode} (h : mode ≠ .check) (f : FileResult) :
    Report.messages (mode.request r) f = f.messages := by
  have hcheck : (mode.request r).check = false := beq_eq_false_iff_ne.mpr h
  unfold Report.messages
  simp only [hcheck, Bool.false_eq_true, false_and, and_false, if_false, List.append_nil]

theorem stderr_outcome (h : (r.paths.map e.tree.place).Nodup) (mode : Mode) :
    (outcome e r o range mode).stderr = r.paths.flatMap fun p =>
      Report.messages (mode.request r)
        (FormatJob.result ⟨o, range, mode == .diff, e.canceled⟩ e.tree p) := by
  rw [outcome_eq h]
  exact List.flatMap_map ..

theorem stderr_printed (e : Environment) (r : Request) (o : Options) (range : Option LineRange)
    (p : Bytes) : (printed e r o range p).stderr =
      (FormatJob.result ⟨o, range, false, e.canceled⟩ e.tree p).messages := by
  have hone : (({ r with paths := [p] } : Request).paths.map e.tree.place).Nodup :=
    List.nodup_singleton _
  unfold printed
  rw [stderr_outcome hone]
  have hprint : Mode.print ≠ .check := nofun
  exact (List.append_nil _).trans (messages_mode hprint _)

theorem messages_check (h : (r.paths.map e.tree.place).Nodup) (hp : p ∈ r.paths) :
    Report.messages (Mode.check.request r)
        (FormatJob.result ⟨o, range, false, e.canceled⟩ e.tree p) =
      (printed e r o range p).stderr ++
        if rewrites e r o range p then p ++ utf8 ": needs formatting\n" else [] := by
  have hasks : (Mode.check.request r).check = true ∧ (Mode.check.request r).diff = false :=
    ⟨rfl, rfl⟩
  unfold Report.messages
  simp only [stderr_printed, result_path, hasks, rewrites_iff h hp, FormatJob.Changes,
    Bool.not_false, and_true]

theorem code_outcome (h : (r.paths.map e.tree.place).Nodup) (mode : Mode) :
    (outcome e r o range mode).code =
      max ((r.paths.map (codeOf e o range)).foldl max 0)
        (if (mode = .check ∨ mode = .diff) ∧ ∃ p ∈ r.paths, rewrites e r o range p = true then 1
        else 0) := by
  have hcodes : (r.paths.map (FormatJob.result ⟨o, range, mode == .diff, e.canceled⟩ e.tree)).map
      (·.code) = r.paths.map (codeOf e o range) := by
    rw [List.map_map]
    refine List.map_congr_left fun p _ => ?_
    exact (result_mode o range mode p).1.trans (code_result o range p)
  have hasks : ((mode.request r).check || (mode.request r).diff) = true ↔
      mode = .check ∨ mode = .diff := by
    rw [Bool.or_eq_true]
    exact or_congr beq_iff_eq beq_iff_eq
  rw [outcome_eq h]
  show Report.exitCode _ _ = _
  unfold Report.exitCode
  simp only [hcodes, hasks, changedCount_pos_iff h]
  split
  · rfl
  · exact (Nat.max_eq_left (Nat.zero_le _)).symm

/-- The modes of the command agree about files that are different files: printing, checking, showing
a diff and writing find the same inputs changed and unreadable, and what is written is what would be
printed. Two paths of one file are left out, since writing it once changes what is read the second
time. -/
theorem modes_agree (e : Environment) (r : Request) (o : Options) (range : Option LineRange)
    (h : (r.paths.map e.tree.place).Nodup) : ModesAgree e r o range where
  untouched mode hmode := by
    have hwrite : (mode.request r).write = false := beq_eq_false_iff_ne.mpr hmode
    rw [outcome_eq h]
    exact foldl_treeAfter_of_not_write hwrite
  written p hp out := content_written h hp
  kept p hp code := file_kept h hp
  unreadable p hp f hread := by
    have hformatted := formatted_of_unreadable o range hread
    exact ⟨hformatted, file_kept h hp hformatted⟩
  unnamed q hq := by
    rw [tree_write h]
    exact file?_foldl_treeAfter h fun p hp _ => hq p hp
  texts := by
    rw [outcome_eq h]
    show (r.paths.map _).flatMap _ = _
    rw [List.flatMap_map]
    exact List.flatMap_congr fun p _ => output_print e r o range p
  said mode hmode := by
    rw [stderr_outcome h]
    refine List.flatMap_congr fun p _ => ?_
    rw [messages_mode hmode, stderr_printed, (result_mode o range mode p).2.2]
  reported := by
    rw [stderr_outcome h]
    exact List.flatMap_congr fun p hp => messages_check h hp
  code := code_outcome h

/-- A directory with two files, one of which may be written but not read. -/
def twoFiles : Environment where
  tree := ⟨utf8 "/work",
    [(utf8 "/work/a.thrift", ⟨utf8 "struct S \x7b\n1: i32 a\n\x7d\n", 0o644⟩),
      (utf8 "/work/c.thrift", ⟨utf8 "struct S \x7b\n1: i32 a\n\x7d\n", 0o200⟩)],
    [utf8 "/", utf8 "/work"]⟩
  stdin := []
  canceled := false
  processors := 1

/-- A request for these files and for one that is missing. -/
def threePaths : Request where
  write := false
  check := false
  diff := false
  stdin := false
  assumedName := []
  rangeText := []
  configPath := []
  color := utf8 "auto"
  jobs := 0
  debug := false
  showTokens := false
  showDecls := false
  help := false
  overrides := []
  paths := [utf8 "./a.thrift", utf8 "b.thrift", utf8 "c.thrift"]

/-- The file that can be read is written, the one that is missing is not made, and the one that may
not be read is left as it is, which makes the whole fail. -/
theorem modes_agree_threePaths :
    (threePaths.paths.map twoFiles.tree.place).Nodup ∧
    (outcome twoFiles threePaths .standard none .write).tree.content? (utf8 "./a.thrift") =
      some (utf8 "struct S \x7b\n    1: i32 a\n\x7d\n") ∧
    (outcome twoFiles threePaths .standard none .write).tree.file? (utf8 "b.thrift") = none ∧
    twoFiles.tree.read (utf8 "c.thrift") = .error (.denied (utf8 "c.thrift")) ∧
    (outcome twoFiles threePaths .standard none .write).tree.file? (utf8 "c.thrift") =
      some ⟨utf8 "struct S \x7b\n1: i32 a\n\x7d\n", 0o200⟩ ∧
    (outcome twoFiles threePaths .standard none .check).code = 3 := by
  have h : (threePaths.paths.map twoFiles.tree.place).Nodup := by decide +kernel
  have hdenied : twoFiles.tree.read (utf8 "c.thrift") = .error (.denied (utf8 "c.thrift")) := by
    decide +kernel
  have hagree := modes_agree twoFiles threePaths .standard none h
  obtain ⟨-, hkept⟩ := hagree.unreadable _ (by decide +kernel) _ hdenied
  refine ⟨h, hagree.written _ (by decide +kernel) _ (by decide +kernel), ?_, hdenied, ?_,
    by decide +kernel⟩
  · rw [hagree.kept (utf8 "b.thrift") (by decide +kernel) 3 (by decide +kernel)]
    decide +kernel
  · rw [hkept]
    decide +kernel

end Command

end ThriftLayout
