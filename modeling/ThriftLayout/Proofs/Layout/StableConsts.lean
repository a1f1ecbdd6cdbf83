import ThriftLayout.Proofs.Layout.ConstBlocks
import ThriftLayout.Proofs.Layout.ConstHeads
import ThriftLayout.Proofs.Layout.SpreadLines

/-!
# Constants are written again as they are

The lines of a batch of constants are read back block by block. A constant on one line is the same
constant again. A collection that is spread over several lines is read as a value over several
lines, without a terminator and without a comment: both are part of its last line. Such a value is
not laid out again but indented line by line, and as its items close what they open, this gives the
lines that were read. The comment of a spread collection was not in its row, so it does not count
for the comments of the other constants, neither before nor afterwards.

All this needs the head of each constant to be found again. It is looked for at the first name
behind a blank and in front of an equals sign, so a type with an equals sign in it, inside a literal
or behind a blank that patterns do not know, can be cut in two.

Results:

* `ConstRecord.reread_stable`: the lines are written again, if no type holds an equals sign.
* `ConstRecord.not_reread_stable_tabbedPair`: a type with one, which changes its batch.
-/
namespace ThriftLayout

/-! ## Comments behind the last line -/

theorem appendComment_concat (comment : Bytes) (ls : List Bytes) {l : Bytes}
    (hl : Blank.trim l ≠ []) :
    appendComment comment (ls ++ [l]) = ls ++ [l ++ (spaced comment).getD []] := by
  unfold appendComment spaced
  split
  · simp
  · have hfilled : (Blank.trim l).isEmpty = false := by simpa using hl
    simp [appendComment.go, hfilled]

namespace ConstRecord

variable {o : Options} {level : Int} {r : ConstRecord} {row : Row}

/-! ## The head of a row -/

namespace Readable

variable (h : r.Readable)
include h

theorem isMultiline : r.isMultiline = false := by
  rw [ConstRecord.isMultiline, List.contains_eq_mem, decide_eq_false_iff_not]
  exact h.single

theorem of_single : r.Of (Ascii.newline ∉ ·) where
  type := h.type.single
  name hmem := absurd (h.name.isIdentPart _ hmem) (by decide)
  first hmem := h.single ((List.takeWhile_sublist _).mem hmem)
  terminator := h.terminator

end Readable

theorem heads_of_mem {consts : List ConstRecord} (h : (r, row) ∈ headColumns o consts) :
    r ∈ consts ∧ r.Heads row.text := by
  unfold headColumns at h
  dsimp only at h
  obtain ⟨rName, g', hmem, hg', -, hequals⟩ := Batch.mem_columnAll h
  obtain ⟨rType, g, hmem, hg, -, hname⟩ := Batch.mem_columnAll hmem
  obtain ⟨rStart, hmem, htype⟩ := Batch.mem_columnFlush hmem
  have hspace := Bytes.gap_spaces 1
  refine ⟨(Batch.mem_start hmem).1, g ++ Bytes.spaces 1, g' ++ Bytes.spaces 1, hg.append hspace,
    List.append_ne_nil_of_right_ne_nil g nofun, hg'.append hspace, ?_⟩
  have hsign : utf8 " =" = [Ascii.space, Ascii.equals] := rfl
  rw [hequals, hname, htype, (Batch.mem_start hmem).2, hsign]
  simp [Bytes.spaces]

/-! ## A constant on one line -/

/-- A constant on one line is read as itself. -/
theorem Readable.ofBlock?_kept (h : r.Readable) (hs : r.Heads row.text)
    (hnone : expanded? o level r row = none) {gap : Nat} (hgap : gap ≠ 0) :
    ∃ raw, ofBlock? (block o level gap (r, row)) = some { r with raw := raw } := by
  let g' := if r.comment.isEmpty then [] else Bytes.spaces gap
  have hg' : AllBlank g' := by
    unfold g'
    split
    · exact nofun
    · exact (Bytes.gap_spaces gap).allBlank
  have hne : r.comment ≠ [] → g' ≠ [] := by
    intro hcomment hnil
    unfold g' at hnil
    rw [if_neg (by simpa using hcomment)] at hnil
    exact hgap (List.replicate_eq_nil_iff Ascii.space |>.mp hnil)
  have hblock : block o level gap (r, row) = [o.indent level ++ (row.text ++
      Ascii.space :: ((r.value ++ r.terminator) ++ (g' ++ r.comment)))] := by
    have hcomment : rowComment (spreadOf o level (r, row)) = r.comment := by
      simp [rowComment, spreadOf, hnone, h.isMultiline]
    unfold block lines
    by_cases hnil : r.comment = []
    · simp [hcomment, hnone, h.isMultiline, codeRow, valueText, Row.write, g', hnil]
    · simp [hcomment, hnone, h.isMultiline, codeRow, valueText, Row.write, g', hnil]
  rw [hblock]
  exact ⟨_, h.ofText?_spelled hs (o.allBlank_indent level) hg' hne⟩

/-! ## A spread collection -/

/-- A value over several lines without a comment is written behind the head and indented anew. -/
theorem block_of_isMultiline (o : Options) (level : Int) (row : Row)
    (hmulti : r.isMultiline = true) (hcomment : r.comment = []) (gap : Nat) :
    rowComment (spreadOf o level (r, row)) = [] ∧
      block o level gap (r, row) = (o.indent level ++ (row.text ++
        Ascii.space :: r.value.takeWhile (· != Ascii.newline))) :: reindent o level r.value := by
  have hnone : expanded? o level r row = none := by
    unfold expanded?
    rw [hmulti]
    rfl
  have hquiet : rowComment (spreadOf o level (r, row)) = [] := by
    simp [rowComment, spreadOf, hmulti]
  refine ⟨hquiet, ?_⟩
  unfold block lines
  simp [hquiet, hnone, hmulti, hcomment, codeRow, valueText, Row.write]

/-- A collection that is spread is written as its lines, with its comment on the last one. -/
theorem block_of_expanded {ls : List Bytes} (hsome : expanded? o level r row = some ls)
    (gap : Nat) : rowComment (spreadOf o level (r, row)) = [] ∧
      block o level gap (r, row) = appendComment r.comment ls := by
  have hquiet : rowComment (spreadOf o level (r, row)) = [] := by
    simp [rowComment, spreadOf, hsome]
  refine ⟨hquiet, ?_⟩
  unfold block lines
  simp only [hsome]

/-- The value that is read off the lines of a spread collection. -/
def spreadValue (a : UInt8) (items : List Bytes) (closer : Bytes) : Bytes :=
  Bytes.join [Ascii.newline] ([a] :: (items ++ [closer]))

/-- The items and the closing bracket of a spread collection are indented to their levels. -/
theorem reindent_spreadValue {a b : UInt8} (hbrackets : IsBrackets a b) {items : List Bytes}
    (hitems : ∀ l ∈ items, IsItem l) {closer : Bytes} (hcloser : IsCloser b closer) :
    reindent o level (spreadValue a items closer) =
      items.map (o.indent (level + 1) ++ ·) ++ [o.indent level ++ closer] := by
  unfold reindent spreadValue
  rw [hbrackets.nested_spread hitems hcloser, List.map_append, List.map_map]
  rfl

/-- Without their indentation they are the items and the closing bracket again. -/
theorem trim_reindent {a b : UInt8} (hbrackets : IsBrackets a b) {items : List Bytes}
    (hitems : ∀ l ∈ items, IsItem l) {closer : Bytes} (hcloser : IsCloser b closer) :
    (reindent o level (spreadValue a items closer)).map Blank.trim = items ++ [closer] := by
  have hindented (n : Int) {l : Bytes} (hl : Blank.trim l = l) :
      Blank.trim (o.indent n ++ l) = l := by
    have haround := Blank.trim_around (s := l) (o.allBlank_indent n) .nil
    rwa [List.append_nil, hl] at haround
  rw [reindent_spreadValue hbrackets hitems hcloser, List.map_append, List.map_map,
    List.map_singleton, hindented level hcloser.trimmed]
  congr 1
  exact (List.map_congr_left fun l hl => hindented (level + 1) (hitems l hl).trimmed).trans
    (List.map_id items)

/-- A collection that is spread is written as a value over several lines would be. -/
theorem Readable.block_spread {raw : Options} (hready : raw.normalize = .ok o)
    (hlevel : o.Indents level) (h : r.Readable) (hrow : Ascii.newline ∉ row.text)
    {ls : List Bytes} (hsome : expanded? o level r row = some ls) :
    ∃ a b items closer, IsBrackets a b ∧ (∀ l ∈ items, IsItem l) ∧ IsCloser b closer ∧
      ∀ gap, block o level gap (r, row) = (o.indent level ++ (row.text ++ [Ascii.space, a])) ::
        reindent o level (spreadValue a items closer) := by
  have hexpand : expandCollection? (row.text ++ [Ascii.space]) r.value r.terminator level o =
      some ls := by
    unfold expanded? at hsome
    split at hsome
    · exact nomatch hsome
    · exact hsome
  obtain ⟨hcollection, -, hls⟩ := expandCollection?_spread hready hlevel
    (Blank.trim_of_solid h.value.solid) (by simp [hrow]; decide) h.single
    (texture_single.terminator h.terminator) hexpand
  obtain ⟨a, b, inside, hbrackets, hvalue⟩ := isCollection_eq hcollection
  have henclosed : IsEnclosed r.value := h.value.enclosed a (by rw [hvalue]; rfl)
    (hbrackets.imp (fun hab => hab.1) fun hab => hab.1)
  have hitems := IsItem.itemLines (o.commaPolicy != .remove)
    (isItem_of_enclosed hcollection henclosed h.valueFree.free h.single)
  have hcloser := hbrackets.isCloser h.terminator h.comment
  refine ⟨a, b, _, _, hbrackets, hitems, hcloser, fun gap => ?_⟩
  have hfirst : r.value.take 1 = [a] := by rw [hvalue]; rfl
  have hlast : r.value.drop (r.value.length - 1) = [b] := by rw [hvalue]; simp
  have hfilled : Blank.trim (o.indent level ++ ([b] ++ r.terminator)) ≠ [] :=
    List.ne_nil_of_mem (Blank.mem_trim hbrackets.visible.2 (by simp))
  rw [(block_of_expanded hsome gap).2, reindent_spreadValue hbrackets hitems hcloser, hls,
    spreadLines, hfirst, hlast, ← List.cons_append, appendComment_concat _ _ hfilled]
  simp only [List.append_assoc, List.cons_append, List.nil_append]

/-- The lines of a spread collection are read as a value over several lines, which is written as
these lines. -/
theorem Readable.ofBlock?_spread {raw : Options} (hready : raw.normalize = .ok o)
    (hlevel : o.Indents level) (h : r.Readable) (hs : r.Heads row.text)
    (hrow : Ascii.newline ∉ row.text) {ls : List Bytes} (hsome : expanded? o level r row = some ls)
    (gap : Nat) : ∃ again, ofBlock? (block o level gap (r, row)) = some again ∧
      again.bare = r.bare ∧ SameLines o level (r, row) (again, row) := by
  obtain ⟨a, b, items, closer, hbrackets, hitems, hcloser, hblock⟩ :=
    h.block_spread hready hlevel hrow hsome
  let again : ConstRecord := {
    raw := Blank.trim (o.indent level ++ (row.text ++ [Ascii.space, a]))
    type := r.type
    name := r.name
    value := spreadValue a items closer }
  have hread : ofBlock? (block o level gap (r, row)) = some again := by
    have hmore : reindent o level (spreadValue a items closer) ≠ [] := by
      simp [reindent_spreadValue hbrackets hitems hcloser]
    have hlines := h.ofLines?_spelled hs (o.allBlank_indent level)
      (hbrackets.imp (fun hab => hab.1) fun hab => hab.1) hmore
    rw [trim_reindent hbrackets hitems hcloser] at hlines
    rw [hblock]
    exact hlines
  obtain ⟨t, ht⟩ : ∃ t, spreadValue a items closer = [a] ++ [Ascii.newline] ++ t :=
    ⟨_, Bytes.join_cons_of_ne_nil _ _ (List.append_ne_nil_of_right_ne_nil items nofun)⟩
  have hfirst : (spreadValue a items closer).takeWhile (· != Ascii.newline) = [a] := by
    rw [ht]
    simp [hbrackets.ne_newline.1.symm]
  have hmulti : again.isMultiline = true := by simp [ConstRecord.isMultiline, again, ht]
  obtain ⟨hquiet, hagain⟩ := block_of_isMultiline o level row hmulti rfl 0
  refine ⟨again, hread, rfl, .quiet (block_of_expanded hsome 0).1 hquiet ?_⟩
  rw [hagain, hblock]
  simp only [again, hfirst]

/-! ## A batch -/

/-- A constant that is read off a line without a block comment, which is accepted as one constant
and nothing else. -/
structure OnLine (uri line : Bytes) (d : Decl) (r : ConstRecord) : Prop where
  single : IsSingleLine line
  alone : (Document.parse uri line).body = [d]
  accepted : (Document.parse uri line).diagnostics = []
  isConst : d.kind = .const
  read : ofText? line = some r

/-- If no equals sign stands in its type, it has the parts that it was declared with. -/
theorem OnLine.readable {uri line : Bytes} {d : Decl} (h : r.OnLine uri line d)
    (hdecl : Ascii.equals ∉ d.type) (hrecord : Ascii.equals ∉ r.type) : r.Readable := by
  obtain ⟨sep, hspelled⟩ := Decl.spelled_on_line h.single h.alone h.accepted h.isConst
  exact readable_of_spelled h.single hspelled h.read hdecl hrecord

/-- The lines of readable constants are read back and written again as they are. -/
theorem reread_of_readable {raw : Options} (hready : raw.normalize = .ok o)
    (hlevel : o.Indents level) {consts : List ConstRecord} (h : ∀ r ∈ consts, r.Readable) :
    ∃ again, reread? o level consts = some again ∧
      render o level again = render o level consts := by
  have hread : ∀ p ∈ headColumns o consts, ∀ gap ≠ 0, ∃ again,
      ofBlock? (block o level gap p) = some again ∧
        again.bare = p.1.bare ∧ SameLines o level p (again, p.2) := by
    rintro ⟨r, row⟩ hp gap hgap
    obtain ⟨hr, hs⟩ := heads_of_mem hp
    have hrow : Ascii.newline ∉ row.text :=
      (headColumns_of texture_single o fun r hr => (h r hr).of_single).rows r row hp
    cases hexpanded : expanded? o level r row with
    | none =>
      obtain ⟨raw, hread⟩ := (h r hr).ofBlock?_kept hs hexpanded hgap
      exact ⟨_, hread, rfl, .kept r raw row⟩
    | some ls => exact (h r hr).ofBlock?_spread hready hlevel hs hrow hexpanded gap
  have hread := fun p hp => hread p hp _ (Batch.commentGap_ne_zero
    (codeRows o level (headColumns o consts)) o.alignComments rowComment (codeRow p))
  have hfilled : ∀ ls ∈ blocks o level consts, ls ≠ [] := by
    rw [blocks_eq_map]
    refine List.forall_mem_map.mpr fun p hp hnil => ?_
    obtain ⟨again, hagain, -⟩ := hread p hp
    rw [hnil] at hagain
    exact nomatch hagain
  obtain ⟨again, hagain, hsame⟩ := exists_mapM hread
  refine ⟨again, ?_, congrArg List.flatten (blocks_congr (forall₂_headColumns hsame))⟩
  rw [reread?_eq hfilled, blocks_eq_map, List.mapM_map]
  exact hagain

/-- The lines of constants that are alone on their lines are read back, each off the lines that
were written for it, and written again as they are, if no type holds an equals sign. -/
theorem reread_stable {raw : Options} (hready : raw.normalize = .ok o) (hlevel : o.Indents level)
    {consts : List ConstRecord} (h : ∀ r ∈ consts, ∃ uri line d, r.OnLine uri line d ∧
      Ascii.equals ∉ d.type ∧ Ascii.equals ∉ r.type) :
    ∃ again, reread? o level consts = some again ∧
      render o level again = render o level consts := by
  refine reread_of_readable hready hlevel fun r hr => ?_
  obtain ⟨uri, line, d, hline, hdecl, hrecord⟩ := h r hr
  exact hline.readable hdecl hrecord

theorem exists_onLine {uri line : Bytes} (hsingle : IsSingleLine line)
    (haccepted : (Document.parse uri line).diagnostics = [])
    (halone : (Document.parse uri line).body.map (·.kind) = [.const])
    (hread : ofText? line = some r) :
    ∃ d ∈ (Document.parse uri line).body, r.OnLine uri line d := by
  obtain ⟨d, hbody, hd⟩ := List.map_eq_singleton_iff.mp halone
  exact ⟨d, hbody ▸ List.mem_singleton_self d, hsingle, hbody, haccepted, hd, hread⟩

def spreading : Options := { Options.standard with collectionStyle := utf8 "multiline" }

theorem spreading_ready : spreading.normalize = .ok spreading := by decide +kernel

theorem spreading_indents : spreading.Indents 0 := ⟨by decide, by decide, by decide +kernel⟩

/-- A collection with marks in its literals, a terminator and a comment, and a number. -/
def mixedPair : List ConstRecord :=
  [{ raw := utf8 "const list< string > NAMES=[ 'a, b', \"]\" ] ; // two",
     type := utf8 "list<string>", name := utf8 "NAMES", value := utf8 "[ 'a, b', \"]\" ]",
     terminator := utf8 ";", comment := utf8 "// two" },
    { raw := utf8 "const i32 MAX = 6, # most", type := utf8 "i32", name := utf8 "MAX",
      value := utf8 "6", terminator := utf8 ",", comment := utf8 "# most" }]

theorem onLine_mixedPair : ∀ r ∈ mixedPair, ∃ uri line d, r.OnLine uri line d ∧
    Ascii.equals ∉ d.type ∧ Ascii.equals ∉ r.type := by
  have hcheck : ∀ r ∈ mixedPair, Ascii.newline ∉ r.raw ∧
      Bytes.includes blockOpener r.raw = false ∧ (Document.parse [] r.raw).diagnostics = [] ∧
      (Document.parse [] r.raw).body.map (·.kind) = [.const] ∧ ofText? r.raw = some r ∧
      (∀ d ∈ (Document.parse [] r.raw).body, Ascii.equals ∉ d.type) ∧ Ascii.equals ∉ r.type := by
    decide +kernel
  intro r hr
  obtain ⟨hsingle, hblock, haccepted, halone, hread, hdecl, hrecord⟩ := hcheck r hr
  obtain ⟨d, hd, hline⟩ := exists_onLine ⟨hsingle, hblock⟩ haccepted halone hread
  exact ⟨[], r.raw, d, hline, hdecl d hd, hrecord⟩

theorem reread_stable_mixedPair : (∀ r ∈ mixedPair, ∃ uri line d, r.OnLine uri line d) ∧
    ∃ again, reread? spreading 0 mixedPair = some again ∧
      render spreading 0 again = render spreading 0 mixedPair := by
  refine ⟨fun r hr => ?_, reread_stable spreading_ready spreading_indents onLine_mixedPair⟩
  obtain ⟨uri, line, d, hline, -⟩ := onLine_mixedPair r hr
  exact ⟨uri, line, d, hline⟩

/-- A collection whose type has a vertical tab and an equals sign in it, and a number. -/
def tabbedPair : List ConstRecord :=
  [{ raw := utf8 "const list<a\x0bb = c> N = [1]", type := utf8 "list<a b = c>", name := utf8 "N",
     value := utf8 "[1]" },
    { raw := utf8 "const i32 M = 6", type := utf8 "i32", name := utf8 "M", value := utf8 "6" }]

/-- The vertical tab is written as a space, behind which the name is found too early. -/
theorem not_reread_stable_tabbedPair : (∀ r ∈ tabbedPair, ∃ uri line d, r.OnLine uri line d) ∧
    spreading.normalize = .ok spreading ∧ ∃ again, reread? spreading 0 tabbedPair = some again ∧
      render spreading 0 again ≠ render spreading 0 tabbedPair := by
  have hcheck : ∀ r ∈ tabbedPair, Ascii.newline ∉ r.raw ∧
      Bytes.includes blockOpener r.raw = false ∧ (Document.parse [] r.raw).diagnostics = [] ∧
      (Document.parse [] r.raw).body.map (·.kind) = [.const] ∧ ofText? r.raw = some r := by
    decide +kernel
  have hchanged : (reread? spreading 0 tabbedPair).any (fun again =>
    render spreading 0 again != render spreading 0 tabbedPair) = true := by decide +kernel
  obtain ⟨again, hagain, hne⟩ := (Option.any_eq_true _ _).mp hchanged
  refine ⟨fun r hr => ?_, spreading_ready, again, hagain, bne_iff_ne.mp hne⟩
  obtain ⟨hsingle, hblock, haccepted, halone, hread⟩ := hcheck r hr
  obtain ⟨d, -, hline⟩ := exists_onLine ⟨hsingle, hblock⟩ haccepted halone hread
  exact ⟨[], r.raw, d, hline⟩

end ConstRecord

end ThriftLayout
