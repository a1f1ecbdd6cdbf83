import ThriftLayout.Proofs.Layout.Scanning

/-!
# Code and comments

A text is code when a scan reads it to its end outside all literals, meets nothing on the way that
could start a comment, and finds no newline inside a literal. Code can be put together, and cut
wherever a scan is outside literals. So a line that is taken apart and written anew is still cut
where its comment starts.

Results:

* `Reads.append`, `IsCode.cut`: putting code together and cutting it.
* `IsCode.trim`, `IsCode.left`, `IsCode.right`: code without what stands around it.
* `legible_commented`, `commentsIn_commented`: code and a comment after it.
-/
namespace ThriftLayout

open Utf8 (valid runes)

/-- A byte that neither opens a literal nor starts a comment. -/
def Ascii.isPlain (b : UInt8) : Bool := !Quote.isQuote b && b != hash && b != slash

namespace Quote

/-- Nothing that a scan finds outside literals could start a comment, and no literal goes over
the end of a line. -/
def Quiet (q : Quote) : Bytes → Prop
  | [] => True
  | b :: s =>
    (if q.holds b then b ≠ Ascii.newline else b ≠ Ascii.hash ∧ b ≠ Ascii.slash) ∧
      (q.step b).Quiet s

/-- A scan in state `q` reads a text to its end and is in state `q'` then. -/
structure Reads (q : Quote) (s : Bytes) (q' : Quote) : Prop where
  quiet : q.Quiet s
  run : q.run s = q'

end Quote

/-- A text that a scan reads from outside all literals to outside all literals. -/
def IsCode (s : Bytes) : Prop := Quote.Reads {} s {}

/-! ## Putting texts together -/

namespace Quote

variable {q q' q'' : Quote} {a b s : Bytes} {x : UInt8}

theorem quiet_append : q.Quiet (a ++ b) ↔ q.Quiet a ∧ (q.run a).Quiet b := by
  induction a generalizing q with
  | nil => exact ⟨fun h => ⟨trivial, h⟩, fun h => h.2⟩
  | cons x a ih =>
    rw [List.cons_append]
    simp only [Quiet]
    rw [ih, and_assoc]
    rfl

theorem Reads.nil (q : Quote) : Reads q [] q := ⟨trivial, rfl⟩

theorem Reads.append (ha : Reads q a q') (hb : Reads q' b q'') : Reads q (a ++ b) q'' := by
  obtain ⟨hquiet, rfl⟩ := ha
  exact ⟨quiet_append.mpr ⟨hquiet, hb.quiet⟩, by rw [run_append, hb.run]⟩

theorem Reads.cut (h : Reads q (a ++ b) q') :
    Reads q a (q.run a) ∧ Reads (q.run a) b q' := by
  obtain ⟨ha, hb⟩ := quiet_append.mp h.quiet
  exact ⟨⟨ha, rfl⟩, ⟨hb, by rw [← run_append, h.run]⟩⟩

theorem Reads.tail (h : Reads q (x :: s) q') : Reads (q.step x) s q' := ⟨h.quiet.2, h.run⟩

theorem isPlain_iff :
    Ascii.isPlain x = true ↔ isQuote x = false ∧ x ≠ Ascii.hash ∧ x ≠ Ascii.slash := by
  simp [Ascii.isPlain, and_assoc]

theorem holds_start : holds {} x = isQuote x := rfl

theorem step_start (hx : isQuote x = false) : step {} x = {} := step_of_not_holds hx

theorem reads_plain_cons (hx : Ascii.isPlain x = true) :
    Reads {} (x :: s) q ↔ Reads {} s q := by
  obtain ⟨hquote, hmark⟩ := isPlain_iff.mp hx
  have hstep := step_start hquote
  have hrun : run {} (x :: s) = run {} s := by
    show run (step {} x) s = _
    rw [hstep]
  have hquiet : Quiet {} (x :: s) ↔ Quiet {} s := by
    simp only [Quiet, holds_start, hquote, Bool.false_eq_true, if_false, hstep]
    exact ⟨And.right, And.intro hmark⟩
  exact ⟨fun h => ⟨hquiet.mp h.quiet, hrun ▸ h.run⟩, fun h => ⟨hquiet.mpr h.quiet, hrun ▸ h.run⟩⟩

/-- A byte that could start a comment is not read outside literals. -/
theorem not_reads_mark_cons (hx : x = Ascii.hash ∨ x = Ascii.slash) : ¬ Reads {} (x :: s) q := by
  intro h
  have hmark := h.quiet.1
  rcases hx with rfl | rfl
  · rw [if_neg (by decide)] at hmark
    exact hmark.1 rfl
  · rw [if_neg (by decide)] at hmark
    exact hmark.2 rfl

/-- A scan that ends outside literals, and meets no quote, was outside literals. -/
theorem Good.eq_start_of_run (hq : q.Good) (hs : ∀ x ∈ s, isQuote x = false)
    (h : q.run s = {}) : q = {} := by
  cases hopen : q.open? with
  | none => exact hq.eq_start hopen
  | some c =>
    have hstays : (q.run s).open?.isSome = true := by
      have hsome : q.open?.isSome = true := by rw [hopen]; rfl
      clear h hopen
      induction s generalizing q with
      | nil => exact hsome
      | cons x s ih =>
        rw [List.forall_mem_cons] at hs
        exact ih (hq.step x) hs.2 (isSome_step hq hsome hs.1)
    rw [h] at hstays
    exact absurd hstays (by decide)

theorem run_of_no_quote (hs : ∀ x ∈ s, isQuote x = false) : run {} s = {} := by
  induction s with
  | nil => rfl
  | cons x s ih =>
    rw [List.forall_mem_cons] at hs
    show run (step {} x) s = {}
    rw [step_start hs.1]
    exact ih hs.2

end Quote

/-! ## Code -/

section Code

open Quote

variable {a b s : Bytes} {x : UInt8}

theorem IsCode.nil : IsCode [] := Reads.nil _

theorem IsCode.append (ha : IsCode a) (hb : IsCode b) : IsCode (a ++ b) := Reads.append ha hb

theorem IsCode.cut (h : IsCode (a ++ b)) (ha : run {} a = {}) : IsCode a ∧ IsCode b := by
  have hcut := Reads.cut h
  rwa [ha] at hcut

theorem isCode_cons (hx : Ascii.isPlain x = true) : IsCode (x :: s) ↔ IsCode s :=
  reads_plain_cons hx

theorem isCode_append (ha : IsCode a) : IsCode (a ++ b) ↔ IsCode b :=
  ⟨fun h => (h.cut ha.run).2, ha.append⟩

theorem IsCode.cut_cons (h : IsCode (a ++ x :: b)) (hx : Ascii.isPlain x = true)
    (ha : run {} a = {}) : IsCode a ∧ IsCode b := by
  obtain ⟨hleft, hright⟩ := h.cut ha
  exact ⟨hleft, (isCode_cons hx).mp hright⟩

theorem IsCode.of_plain (h : ∀ x ∈ s, Ascii.isPlain x = true) : IsCode s := by
  induction s with
  | nil => exact .nil
  | cons x s ih =>
    rw [List.forall_mem_cons] at h
    exact (isCode_cons h.1).mpr (ih h.2)

theorem IsCode.of_all (h : s.all Ascii.isPlain = true) : IsCode s :=
  .of_plain (List.all_eq_true.mp h)

theorem IsCode.left (h : IsCode (a ++ b)) (hb : ∀ x ∈ b, isQuote x = false) : IsCode a := by
  obtain ⟨ha, hrest⟩ := Reads.cut h
  have hclosed := (good_start.run a).eq_start_of_run hb hrest.run
  rwa [hclosed] at ha

theorem IsCode.right (h : IsCode (a ++ b)) (ha : ∀ x ∈ a, isQuote x = false) : IsCode b :=
  (h.cut (run_of_no_quote ha)).2

theorem IsCode.trim (h : IsCode s) : IsCode (Blank.trim s) := by
  obtain ⟨a, b, ha, hb, hs⟩ := trim_neutral s
  rw [hs] at h
  exact (h.left fun x hx => isQuote_eq_false (hb x hx)).right
    fun x hx => isQuote_eq_false (ha x hx)

theorem Ascii.isPlain_of_isLight (h : Ascii.isLight x = true) : Ascii.isPlain x = true :=
  Utf8.forall_byte (p := fun x => Ascii.isLight x = true → Ascii.isPlain x = true)
    (by decide +kernel) x h

theorem Ascii.isPlain_of_isBlank (h : Ascii.isBlank x = true) : Ascii.isPlain x = true :=
  isPlain_of_isLight (by simp [Ascii.isLight, h])

theorem Ascii.isPlain_of_isIdentPart (h : Ascii.isIdentPart x = true) : Ascii.isPlain x = true :=
  Utf8.forall_byte (p := fun x => Ascii.isIdentPart x = true → Ascii.isPlain x = true)
    (by decide +kernel) x h

theorem Ascii.isPlain_of_isDigit (h : Ascii.isDigit x = true) : Ascii.isPlain x = true :=
  isPlain_of_isIdentPart (by simp [Ascii.isIdentPart, h])

theorem IsCode.of_light (h : ∀ x ∈ s, Ascii.isLight x = true) : IsCode s :=
  .of_plain fun x hx => Ascii.isPlain_of_isLight (h x hx)

/-- Code does not start with the marker of a comment. -/
theorem not_isCode_mark_cons (hx : x = Ascii.hash ∨ x = Ascii.slash) : ¬ IsCode (x :: s) :=
  not_reads_mark_cons hx

end Code

/-! ## Lines of code -/

theorem IsCode.lines {s : Bytes} (h : IsCode s) :
    ∀ l ∈ Bytes.splitOn Ascii.newline s, IsCode l := by
  -- The first line goes on with the state of the scan; each later one starts outside literals.
  have hgo : ∀ q : Quote, q.Good → q.Reads s {} → ∃ l ls,
      Bytes.splitOn Ascii.newline s = l :: ls ∧ q.Reads l {} ∧ ∀ l' ∈ ls, IsCode l' := by
    clear h
    induction s with
    | nil => exact fun q _ hq => ⟨[], [], rfl, hq, List.forall_mem_nil _⟩
    | cons b s ih =>
      intro q hgood hq
      obtain ⟨l, ls, hsplit, hl, hls⟩ := ih (q.step b) (hgood.step b) hq.tail
      rw [Bytes.splitOn, hsplit]
      split
      · rename_i hb
        obtain rfl := eq_of_beq hb
        have hout : q.holds Ascii.newline = false := by
          refine Bool.eq_false_iff.mpr fun hholds => ?_
          have hnot := hq.quiet.1
          rw [if_pos hholds] at hnot
          exact hnot rfl
        obtain rfl : q = {} := hgood.eq_start (by
          simpa using (Bool.or_eq_false_iff.mp hout).1)
        refine ⟨[], l :: ls, rfl, .nil _, List.forall_mem_cons.mpr ⟨?_, hls⟩⟩
        rwa [Quote.step_of_not_holds hout] at hl
      · refine ⟨b :: l, ls, rfl, ⟨⟨hq.quiet.1, hl.quiet⟩, hl.run⟩, hls⟩
  obtain ⟨l, ls, hsplit, hl, hls⟩ := hgo {} Quote.good_start h
  rw [hsplit]
  exact List.forall_mem_cons.mpr ⟨hl, hls⟩

/-! ## Comments -/

/-- Nothing, or a text that starts with the marker of a line comment. -/
def IsComment (c : Bytes) : Prop :=
  c = [] ∨ ∃ rest, c = Ascii.hash :: rest ∨ c = Ascii.slash :: Ascii.slash :: rest

/-- A comment on one line, without the blanks around it. -/
structure IsNote (c : Bytes) : Prop where
  comment : IsComment c
  single : Ascii.newline ∉ c
  trimmed : Blank.trim c = c

/-- The comment of a line, without the blanks around it. -/
def lineComment (line : Bytes) : Bytes := Blank.trim (splitLineComment line).2

/-- Every line of a text is code and a comment. -/
def Legible (s : Bytes) : Prop :=
  ∀ l ∈ Bytes.splitOn Ascii.newline s, IsCode (splitLineComment l).1

/-- A comment, if there is one. -/
def shown (c : Bytes) : List Bytes := if c.isEmpty then [] else [c]

/-- The comments of the lines of a text. -/
def commentsIn (s : Bytes) : List Bytes :=
  (Bytes.splitOn Ascii.newline s).flatMap fun l => shown (lineComment l)

section Comments

open Quote

variable {s c : Bytes}

theorem IsNote.nil : IsNote [] := ⟨.inl rfl, List.not_mem_nil, Blank.trim_nil⟩

theorem IsComment.trim (h : IsComment c) : IsComment (Blank.trim c) := by
  rcases h with rfl | ⟨rest, rfl | rfl⟩
  · exact .inl Blank.trim_nil
  · exact .inr ⟨_, .inl (Blank.trim_cons (by decide) rest)⟩
  · refine .inr ⟨Blank.trimEnd rest, .inr ?_⟩
    rw [Blank.trim_cons (by decide), Blank.trimEnd_cons (by decide)]

theorem splitLineComment_isComment (s : Bytes) : IsComment (splitLineComment s).2 := by
  unfold splitLineComment
  generalize ({} : Quote) = q
  induction s generalizing q with
  | nil => exact .inl rfl
  | cons b s ih =>
    unfold splitLineComment.go
    split
    · rename_i h
      simp only [Bool.and_eq_true, Bool.or_eq_true, beq_iff_eq] at h
      rcases h.2 with rfl | ⟨rfl, hslash⟩
      · exact .inr ⟨s, .inl rfl⟩
      · obtain ⟨rest, rfl⟩ := List.head?_eq_some_iff.mp hslash
        exact .inr ⟨rest, .inr rfl⟩
    · exact ih (q.step b)

/-- The comment of a line of a valid text. -/
theorem isNote_lineComment (hs : Ascii.newline ∉ s) :
    IsNote (lineComment s) := by
  refine ⟨(splitLineComment_isComment s).trim, fun hmem => hs ?_, ?_⟩
  · rw [← splitLineComment_append s]
    exact List.mem_append_right _ (Blank.mem_of_mem_trim hmem)
  · exact Blank.trim_trim _

theorem splitLineComment_comment (hc : IsComment c) : splitLineComment c = ([], c) := by
  rcases hc with rfl | ⟨rest, rfl | rfl⟩
  · rfl
  · rfl
  · rfl

/-- Code before a line goes to the code of the line. -/
theorem splitLineComment_append_left (hs : IsCode s) (l : Bytes) :
    splitLineComment (s ++ l) = (s ++ (splitLineComment l).1, (splitLineComment l).2) := by
  have hgo : ∀ q : Quote, q.Reads s {} → splitLineComment.go q (s ++ l) =
      (s ++ (splitLineComment l).1, (splitLineComment l).2) := by
    clear hs
    induction s with
    | nil =>
      rintro q ⟨-, hrun⟩
      rw [show q = {} from hrun]
      rfl
    | cons b s ih =>
      intro q hq
      have hno : ¬ (!q.holds b && (b == Ascii.hash ||
          (b == Ascii.slash && (s ++ l).head? == some Ascii.slash))) = true := by
        intro h
        have hmark := hq.quiet.1
        simp only [Bool.and_eq_true, Bool.not_eq_true', Bool.or_eq_true, beq_iff_eq] at h
        rw [if_neg (by simp [h.1])] at hmark
        rcases h.2 with hb | ⟨hb, -⟩
        · exact hmark.1 hb
        · exact hmark.2 hb
      rw [List.cons_append, splitLineComment.go, if_neg hno, ih (q.step b) hq.tail]
      rfl
  exact hgo {} hs

/-- Code and a comment after it are cut where the comment starts. -/
theorem splitLineComment_eq (hs : IsCode s) (hc : IsComment c) :
    splitLineComment (s ++ c) = (s, c) := by
  rw [splitLineComment_append_left hs, splitLineComment_comment hc, List.append_nil]

theorem splitLineComment_code (hs : IsCode s) : splitLineComment s = (s, []) := by
  have h := splitLineComment_eq hs (.inl rfl)
  rwa [List.append_nil] at h

theorem lineComment_code (hs : IsCode s) : lineComment s = [] := by
  rw [lineComment, splitLineComment_code hs, Blank.trim_nil]

@[simp]
theorem shown_nil : shown [] = [] := rfl

/-- Code and a comment after it show the comment. -/
theorem commented_shown (hs : IsCode s) (hc : IsComment c) (hsingle : Ascii.newline ∉ c) :
    Legible (s ++ c) ∧ commentsIn (s ++ c) = shown (Blank.trim c) := by
  obtain ⟨ls, l, hsplit, happ⟩ := Bytes.splitOn_append_right hsingle s
  have hlines := hs.lines
  rw [hsplit, List.forall_mem_append, List.forall_mem_singleton] at hlines
  obtain ⟨hls, hl⟩ := hlines
  have hlast := splitLineComment_eq hl hc
  unfold Legible commentsIn
  rw [happ]
  constructor
  · rw [List.forall_mem_append, List.forall_mem_singleton, hlast]
    refine ⟨fun l' hl' => ?_, hl⟩
    rw [splitLineComment_code (hls l' hl')]
    exact hls l' hl'
  · have hfront : ls.flatMap (fun l => shown (lineComment l)) = [] := by
      rw [List.flatMap_eq_nil_iff]
      intro l' hl'
      rw [lineComment_code (hls l' hl'), shown_nil]
    rw [List.flatMap_append, hfront, List.nil_append, List.flatMap_singleton, lineComment, hlast]

end Comments

/-! ## Lines -/

/-- A valid line of code and a comment. -/
structure IsLine (l : Bytes) : Prop where
  valid : Utf8.valid l = true
  single : Ascii.newline ∉ l
  code : IsCode (splitLineComment l).1

namespace IsLine

variable {l : Bytes}

theorem note (h : IsLine l) : IsNote (lineComment l) := isNote_lineComment h.single

theorem commentsIn (h : IsLine l) : commentsIn l = shown (lineComment l) := by
  unfold ThriftLayout.commentsIn
  rw [Bytes.splitOn_of_not_mem h.single, List.flatMap_singleton]

end IsLine

theorem IsCode.trimStart {s : Bytes} (h : IsCode s) : IsCode (Blank.trimStart s) := by
  have hsplit : s = Blank.glue ((runes s).takeWhile Blank.isBlank) ++ Blank.trimStart s := by
    have htext : Blank.glue (runes s) = s := Utf8.runes_flatMap_text s
    rw [Blank.trimStart, ← Blank.glue_append, List.takeWhile_append_dropWhile, htext]
  rw [hsplit] at h
  refine h.right fun x hx => ?_
  obtain ⟨r, hr, hx⟩ := List.mem_flatMap.mp hx
  refine Quote.isQuote_eq_false (isNeutral_of_mem ((List.takeWhile_prefix _).subset hr) ?_ x hx)
  exact List.all_eq_true.mp List.all_takeWhile r hr

/-- A line is trimmed in its code and its comment. -/
theorem splitLineComment_trim {l : Bytes} (h : IsCode (splitLineComment l).1) :
    IsCode (splitLineComment (Blank.trim l)).1 ∧
      (splitLineComment (Blank.trim l)).2 = Blank.trim (splitLineComment l).2 := by
  have hcomment := splitLineComment_isComment l
  have happ := splitLineComment_append l
  generalize (splitLineComment l).1 = s at h happ
  generalize (splitLineComment l).2 = c at hcomment happ
  rw [← happ]
  by_cases hnil : c = []
  · rw [hnil, List.append_nil, splitLineComment_code h.trim, Blank.trim_nil]
    exact ⟨h.trim, rfl⟩
  · obtain ⟨b, rest, rfl, hb⟩ : ∃ b rest, c = b :: rest ∧ Ascii.Visible b := by
      rcases hcomment with hempty | ⟨rest, rfl | rfl⟩
      · exact absurd hempty hnil
      · exact ⟨_, rest, rfl, by decide⟩
      · exact ⟨_, _, rfl, by decide⟩
    rw [Blank.trim_append_cons hb, splitLineComment_eq h.trimStart hcomment.trim]
    exact ⟨h.trimStart, rfl⟩

theorem IsLine.trim {l : Bytes} (h : IsLine l) :
    IsLine (Blank.trim l) ∧ lineComment (Blank.trim l) = lineComment l := by
  obtain ⟨hcode, hcomment⟩ := splitLineComment_trim h.code
  refine ⟨⟨Blank.valid_trim h.valid, fun hmem => h.single (Blank.mem_of_mem_trim hmem), hcode⟩, ?_⟩
  rw [lineComment, hcomment]
  exact h.note.trimmed

/-! ## Lines together -/

/-- Texts of which every line is code and a comment, and the comments of these lines. -/
structure Shows (ls cs : List Bytes) : Prop where
  legible : ∀ l ∈ ls, Legible l
  comments : ls.flatMap commentsIn = cs

namespace Shows

variable {ls ms cs ds : List Bytes} {s c : Bytes}

theorem nil : Shows [] [] := ⟨List.forall_mem_nil _, rfl⟩

theorem append (h : Shows ls cs) (h' : Shows ms ds) : Shows (ls ++ ms) (cs ++ ds) :=
  ⟨List.forall_mem_append.mpr ⟨h.legible, h'.legible⟩, by
    rw [List.flatMap_append, h.comments, h'.comments]⟩

theorem commented (hs : IsCode s) (hc : IsNote c) : Shows [s ++ c] (shown c) := by
  obtain ⟨hlegible, hcomments⟩ := commented_shown hs hc.comment hc.single
  refine ⟨List.forall_mem_singleton.mpr hlegible, ?_⟩
  rw [List.flatMap_singleton, hcomments, hc.trimmed]

theorem code (hs : IsCode s) : Shows [s] [] := by
  have h := commented hs .nil
  rwa [List.append_nil] at h

/-- Code before a line goes to the code of the line. -/
theorem line (hs : IsCode s) {l : Bytes} (h : IsLine l) :
    Shows [s ++ l] (shown (lineComment l)) := by
  have happ := splitLineComment_append l
  have hcut : s ++ l = (s ++ (splitLineComment l).1) ++ (splitLineComment l).2 := by
    rw [List.append_assoc, happ]
  have hsingle : Ascii.newline ∉ (splitLineComment l).2 := fun hmem =>
    h.single (happ ▸ List.mem_append_right _ hmem)
  obtain ⟨hlegible, hcomments⟩ :=
    commented_shown (hs.append h.code) (splitLineComment_isComment l) hsingle
  rw [hcut]
  exact ⟨List.forall_mem_singleton.mpr hlegible, by
    rw [List.flatMap_singleton, hcomments]
    rfl⟩

theorem codes (h : ∀ l ∈ ls, IsCode l) : Shows ls [] := by
  induction ls with
  | nil => exact .nil
  | cons l ls ih =>
    rw [List.forall_mem_cons] at h
    exact (code h.1).append (ih h.2)

theorem flatten_map {α : Type} {xs : List α} {write : α → List Bytes} {f : α → List Bytes}
    (h : ∀ x ∈ xs, Shows (write x) (f x)) : Shows (xs.map write).flatten (xs.flatMap f) := by
  induction xs with
  | nil => exact .nil
  | cons x xs ih =>
    rw [List.forall_mem_cons] at h
    exact h.1.append (ih h.2)

theorem map {α : Type} {xs : List α} {write : α → Bytes} {f : α → List Bytes}
    (h : ∀ x ∈ xs, Shows [write x] (f x)) : Shows (xs.map write) (xs.flatMap f) := by
  have hflat : Shows (xs.map fun x => [write x]).flatten (xs.flatMap f) := flatten_map h
  rwa [← List.flatMap_def, ← List.map_eq_flatMap] at hflat

end Shows

end ThriftLayout
