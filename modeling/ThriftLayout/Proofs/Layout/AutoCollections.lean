import ThriftLayout.Proofs.Bounds.Collections
import ThriftLayout.Proofs.Config.ReadyOptions
import ThriftLayout.Proofs.Layout.Alignment
import ThriftLayout.Proofs.Layout.FirmCuts
import ThriftLayout.Proofs.Text.AsciiBlanks

/-!
# Collections that are spread when they are too wide

With the policy that goes by width, a collection is spread over several lines when its document does
not fit on one. The document is made of the items of the collection, with a comma and one space
between them and nothing inside the brackets, whatever stands between them in the source. So what
is measured is the collection in that spelling, and what is kept on the line is the collection as it
was written: where the two are not equally wide, a collection that is too wide may stay on its
line, and one that fits may be spread.

Results:

* `Doc.fits_flat`, `Doc.write_flat`: a document on one line.
* `ConstRecord.spread_iff`: a constant is spread exactly when it is too wide in the normal spelling.
* `ConstRecord.not_spreadsOverlong_loose`: a constant that is too wide as written and stays.
-/
namespace ThriftLayout

/-! ## Documents on one line -/

namespace Doc

/-- A document of printable texts that can stand on one line. -/
def OneLine : Doc → Prop
  | .text s => IsPrintable s
  | .line => False
  | .append a b => a.OneLine ∧ b.OneLine
  | .indent d | .group d => d.OneLine
  | _ => True

/-- The text of a document on one line. -/
def flatText : Doc → Bytes
  | .text s => s
  | .line | .softLine => [Ascii.space]
  | .append a b => a.flatText ++ b.flatText
  | .indent d | .group d => d.flatText
  | _ => []

theorem OneLine.printable {d : Doc} (h : d.OneLine) : IsPrintable d.flatText := by
  induction d with
  | text s => exact h
  | line => exact h.elim
  | softLine => exact (by decide : IsPrintable [Ascii.space])
  | append a b iha ihb => exact IsPrintable.append.mpr ⟨iha h.1, ihb h.2⟩
  | indent d ih | group d ih => exact ih h
  | empty | softBreak | ifBreak => exact .nil

/-- Documents that wait to be written on one line. -/
def Flat (fs : List Frame) : Prop := ∀ f ∈ fs, f.flat = true ∧ f.doc.OneLine

/-- The text of waiting documents on one line. -/
def flatTexts (fs : List Frame) : Bytes := fs.flatMap (·.doc.flatText)

theorem flatTexts_cons (f : Frame) (fs : List Frame) :
    flatTexts (f :: fs) = f.doc.flatText ++ flatTexts fs := List.flatMap_cons

theorem Flat.printable {fs : List Frame} (h : Flat fs) : IsPrintable (flatTexts fs) := by
  intro b hb
  obtain ⟨f, hf, hmem⟩ := List.mem_flatMap.mp hb
  exact (h f hf).2.printable b hmem

theorem flat_cons {f : Frame} {fs : List Frame} :
    Flat (f :: fs) ↔ (f.flat = true ∧ f.doc.OneLine) ∧ Flat fs := List.forall_mem_cons

/-- Documents fit on one line when their text does. -/
theorem fits_flat {room : Int} {fs : List Frame} (h : Flat fs) :
    fits Width.ofText room fs = decide ((Width.ofText (flatTexts fs) : Int) ≤ room) := by
  fun_induction fits Width.ofText room fs with
  | case1 room => simp [flatTexts]
  | case2 room f fs hroom =>
    refine (decide_eq_false ?_).symm
    omega
  | case3 room fs hroom i flat ih => exact ih (flat_cons.mp h).2
  | case4 room fs hroom i flat s ih =>
    obtain ⟨⟨-, hs⟩, hfs⟩ := flat_cons.mp h
    have hwidth : Width.ofText (flatTexts (⟨i, flat, .text s⟩ :: fs)) =
        Width.ofText s + Width.ofText (flatTexts fs) := Width.ofText_append hs hfs.printable
    rw [ih hfs, hwidth, decide_eq_decide]
    omega
  | case5 room fs hroom i flat s ih =>
    obtain ⟨⟨hflat, -⟩, hfs⟩ := flat_cons.mp h
    have ih := ih hfs
    simp only [show flat = true from hflat, if_true, dite_true] at ih ⊢
    exact ih
  | case6 room fs hroom i flat => exact (flat_cons.mp h).1.2.elim
  | case7 room fs hroom i ih =>
    obtain ⟨-, hfs⟩ := flat_cons.mp h
    have hspace : IsPrintable [Ascii.space] := by decide
    have hwidth : Width.ofText (flatTexts (⟨i, true, .softLine⟩ :: fs)) =
        1 + Width.ofText (flatTexts fs) := by
      rw [flatTexts_cons, flatText, Width.ofText_append hspace hfs.printable,
        Width.ofText_printable hspace]
      rfl
    rw [ih hfs, hwidth, decide_eq_decide]
    omega
  | case8 room fs hroom i flat hflat => exact absurd (flat_cons.mp h).1.1 hflat
  | case9 room fs hroom i ih => exact ih (flat_cons.mp h).2
  | case10 room fs hroom i flat hflat => exact absurd (flat_cons.mp h).1.1 hflat
  | case11 room fs hroom i flat a b ih =>
    obtain ⟨⟨hflat, ha, hb⟩, hfs⟩ := flat_cons.mp h
    rw [ih (flat_cons.mpr ⟨⟨hflat, ha⟩, flat_cons.mpr ⟨⟨hflat, hb⟩, hfs⟩⟩)]
    simp only [flatTexts_cons, flatText, List.append_assoc]
  | case12 room fs hroom i flat d ih =>
    obtain ⟨hd, hfs⟩ := flat_cons.mp h
    exact ih (flat_cons.mpr ⟨hd, hfs⟩)
  | case13 room fs hroom i flat d ih =>
    obtain ⟨⟨-, hd⟩, hfs⟩ := flat_cons.mp h
    exact ih (flat_cons.mpr ⟨⟨rfl, hd⟩, hfs⟩)

/-- Documents are written on one line as their text. -/
theorem write_flat {p : Page} {column : Nat} {fs : List Frame} (h : Flat fs) :
    write Width.ofText p column fs = flatTexts fs := by
  fun_induction write Width.ofText p column fs with
  | case1 column => rfl
  | case2 column i flat fs ih => exact ih (flat_cons.mp h).2
  | case3 column i flat s fs ih => rw [ih (flat_cons.mp h).2, flatTexts_cons, flatText]
  | case4 column i s fs ih => exact ih (flat_cons.mp h).2
  | case5 column i flat s fs hflat ih => exact absurd (flat_cons.mp h).1.1 hflat
  | case6 column i flat fs ih => exact (flat_cons.mp h).1.2.elim
  | case7 column i fs ih => rw [ih (flat_cons.mp h).2, flatTexts_cons]; rfl
  | case8 column i flat fs hflat ih => exact absurd (flat_cons.mp h).1.1 hflat
  | case9 column i fs ih => exact ih (flat_cons.mp h).2
  | case10 column i flat fs hflat ih => exact absurd (flat_cons.mp h).1.1 hflat
  | case11 column i flat a b fs ih =>
    obtain ⟨⟨hflat, ha, hb⟩, hfs⟩ := flat_cons.mp h
    rw [ih (flat_cons.mpr ⟨⟨hflat, ha⟩, flat_cons.mpr ⟨⟨hflat, hb⟩, hfs⟩⟩)]
    simp only [flatTexts_cons, flatText, List.append_assoc]
  | case12 column i flat d fs ih =>
    obtain ⟨hd, hfs⟩ := flat_cons.mp h
    exact ih (flat_cons.mpr ⟨hd, hfs⟩)
  | case13 column i flat d fs _ ih =>
    obtain ⟨⟨-, hd⟩, hfs⟩ := flat_cons.mp h
    exact ih (flat_cons.mpr ⟨⟨rfl, hd⟩, hfs⟩)
  | case14 column i flat d fs hbroken ih =>
    have hflat : flat = true := (flat_cons.mp h).1.1
    exact absurd (by rw [hflat, Bool.true_or]) hbroken

theorem oneLine_concat {ds : List Doc} : (concat ds).OneLine ↔ ∀ d ∈ ds, d.OneLine := by
  induction ds with
  | nil => simp [concat, OneLine]
  | cons d ds ih =>
    rw [List.forall_mem_cons, ← ih]
    rfl

theorem flatText_concat (ds : List Doc) : (concat ds).flatText = ds.flatMap flatText := by
  induction ds with
  | nil => rfl
  | cons d ds ih =>
    rw [List.flatMap_cons, ← ih]
    rfl

/-- A group alone on a page is written on one line exactly when that line is not too wide. -/
theorem render_group {p : Page} {d : Doc} (h : d.OneLine) {room : Int}
    (hroom : Integer.wrap (p.lineWidth - (p.baseIndent * p.indentWidth : Nat)) = room) :
    render Width.ofText p (.group d) = Bytes.repeated p.indent p.baseIndent ++
      if (Width.ofText d.flatText : Int) ≤ room then d.flatText
      else write Width.ofText p (p.baseIndent * p.indentWidth) [⟨p.baseIndent, false, d⟩] := by
  have hflat : Flat [⟨p.baseIndent, true, d⟩] := by
    rw [flat_cons]
    exact ⟨⟨rfl, h⟩, nofun⟩
  have htext : flatTexts [⟨p.baseIndent, true, d⟩] = d.flatText := by simp [flatTexts]
  unfold render
  rw [write]
  simp only [Bool.false_or, hroom, fits_flat hflat, write_flat hflat, htext, decide_eq_true_eq]

/-- A document that starts with a text and a soft break goes over several lines when it is
broken. -/
theorem newline_mem_broken {p : Page} (hp : p.newline = [Ascii.newline]) (column level : Nat)
    (s : Bytes) (inside rest : List Doc) :
    Ascii.newline ∈ write Width.ofText p column
      [⟨level, false, concat (.text s :: .indent (concat (.softBreak :: inside)) :: rest)⟩] := by
  have hbreak : Ascii.newline ∈ p.lineBreak (level + 1) := by
    simp [Page.lineBreak, hp]
  simp only [concat, List.foldr_cons, write, Bool.false_eq_true, if_false]
  exact List.mem_append_right s (List.mem_append_left _ hbreak)

end Doc

/-! ## The document of a collection -/

/-- A collection on one line: one space after each comma, none inside the brackets. -/
def oneLine (val : Bytes) : Bytes :=
  val.take 1 ++ Bytes.join (utf8 ", ") (collectionItems val) ++ val.drop (val.length - 1)

theorem flatText_itemDocs (items : List Bytes) :
    (itemDocs .softLine items).flatMap Doc.flatText = Bytes.join (utf8 ", ") items := by
  fun_induction itemDocs .softLine items with
  | case1 => rfl
  | case2 item => simp [Doc.flatText, Bytes.join]
  | case3 item items hne ih =>
    have hcomma : utf8 ", " = [Ascii.comma, Ascii.space] := rfl
    rw [Bytes.join_cons_of_ne_nil _ _ hne, ← ih, hcomma]
    simp [Doc.flatText]

theorem oneLine_itemDocs {items : List Bytes} (h : ∀ i ∈ items, IsPrintable i) :
    ∀ d ∈ itemDocs .softLine items, d.OneLine := by
  fun_induction itemDocs .softLine items with
  | case1 => exact List.forall_mem_nil _
  | case2 item => simpa [Doc.OneLine] using h
  | case3 item items hne ih =>
    obtain ⟨hitem, hitems⟩ := List.forall_mem_cons.mp h
    have hcomma : IsPrintable [Ascii.comma] := by decide
    simp only [List.forall_mem_cons]
    exact ⟨hitem, hcomma, trivial, ih hitems⟩

theorem collectionItems_printable {val : Bytes} (h : IsPrintable val) :
    ∀ i ∈ collectionItems val, IsPrintable i :=
  fun _ hi b hb => h b (mem_of_mem_collectionItems hi hb)

/-- The collection of a policy that goes by width is one group: its text on one line is that of the
collection in normal spelling. -/
theorem collectionDoc_auto {o : Options} (ho : o.collectionPolicy = .auto) {head val tail : Bytes}
    (hhead : IsPrintable head) (hval : IsPrintable val) (htail : IsPrintable tail) :
    ∃ inside rest,
      let body := Doc.concat (.text (head ++ val.take 1) ::
        .indent (Doc.concat (.softBreak :: inside)) :: rest)
      collectionDoc o head val tail (collectionItems val) = .group body ∧ body.OneLine ∧
        body.flatText = head ++ oneLine val ++ tail := by
  let last : List Doc := if o.commaPolicy == .remove then [] else [.ifBreak [Ascii.comma]]
  have hlast : (∀ d ∈ last, d.OneLine) ∧ last.flatMap Doc.flatText = [] := by
    unfold last
    split
    · exact ⟨nofun, rfl⟩
    · exact ⟨by simp [Doc.OneLine], rfl⟩
  have hbrackets : IsPrintable (val.take 1) ∧ IsPrintable (val.drop (val.length - 1)) :=
    ⟨fun b hb => hval b (List.mem_of_mem_take hb), fun b hb => hval b (List.mem_of_mem_drop hb)⟩
  refine ⟨itemDocs .softLine (collectionItems val) ++ last,
    [.softBreak, .text (val.drop (val.length - 1) ++ tail)], ?_, ?_, ?_⟩
  · simp [collectionDoc, ho, last]
  · rw [Doc.oneLine_concat]
    simp only [List.forall_mem_cons, Doc.OneLine, Doc.oneLine_concat, List.forall_mem_append]
    exact ⟨IsPrintable.append.mpr ⟨hhead, hbrackets.1⟩,
      ⟨trivial, oneLine_itemDocs (collectionItems_printable hval), hlast.1⟩, trivial,
      IsPrintable.append.mpr ⟨hbrackets.2, htail⟩, nofun⟩
  · simp only [Doc.flatText_concat, List.flatMap_cons, List.flatMap_append, List.flatMap_nil,
      Doc.flatText, flatText_itemDocs, hlast.2, List.append_nil, List.nil_append, List.append_assoc,
      oneLine]

theorem trim_collection {val : Bytes} (h : IsPrintable val) (hcollection : isCollection val = true) :
    Blank.trim val = val := by
  obtain ⟨a, b, inside, hbrackets, rfl⟩ := isCollection_eq hcollection
  have hblank : Ascii.isBlank a = false ∧ Ascii.isBlank b = false := by
    rcases hbrackets with ⟨rfl, rfl⟩ | ⟨rfl, rfl⟩ <;> decide
  have hsnug : Snug ([a] ++ (inside ++ [b])) :=
    (Snug.singleton hblank.1).join (List.cons_ne_nil a []) (.singleton hblank.2)
      (List.cons_ne_nil b []) inside
  exact Blank.trim_snug (fun x hx => Ascii.lt_of_isPrintable (h x hx)) hsnug

/-- A text with a separator is split into at least two. -/
theorem Bytes.exists_splitOn {sep : UInt8} {s : Bytes} (h : sep ∈ s) :
    ∃ first second more, splitOn sep s = first :: second :: more := by
  obtain ⟨u, t, rfl⟩ := List.append_of_mem h
  obtain ⟨ls, l, m, ms, -, hback, hsplit⟩ := splitOn_append sep u (sep :: t)
  obtain ⟨more, hmore⟩ := splitOn_eq_cons sep t
  rw [splitOn_cons_self, hmore] at hback
  obtain ⟨rfl, rfl⟩ := List.cons.inj hback
  rw [hsplit]
  cases ls with
  | nil => exact ⟨_, _, _, rfl⟩
  | cons first ls =>
    cases ls with
    | nil => exact ⟨_, _, _, rfl⟩
    | cons second ls => exact ⟨_, _, _, rfl⟩

/-- The numbers of a layout are integers of 64 bits. -/
structure Options.Representable (o : Options) (level : Int) : Prop where
  least_le : Integer.least ≤ level
  le_greatest : level ≤ Integer.greatest
  indentSize : o.indentSize ≤ Integer.greatest
  tabSize : o.tabSize ≤ Integer.greatest
  maxLineLength : o.maxLineLength ≤ Integer.greatest
  spaces : level * o.indentSize ≤ Integer.greatest
  tabs : level * o.tabSize ≤ Integer.greatest

section

variable {raw o : Options} {level : Int} (hready : raw.normalize = .ok o)
  (hnumbers : o.Representable level)
include hready hnumbers

/-- A level of indentation takes as many columns as the first one, so many times. -/
theorem Options.indentWidth_eq (h : 0 ≤ level) :
    0 < o.indentWidth 1 ∧ o.indentWidth level = level * o.indentWidth 1 ∧
      o.indentWidth level ≤ Integer.greatest := by
  obtain ⟨hindent, htab, -⟩ := normalize_sizes hready
  have hsize : ∃ size, (if o.insertSpaces then o.indentSize else o.tabSize) = size ∧ 0 < size ∧
      size ≤ Integer.greatest ∧ level * size ≤ Integer.greatest := by
    cases o.insertSpaces with
    | true => exact ⟨_, rfl, hindent, hnumbers.indentSize, hnumbers.spaces⟩
    | false => exact ⟨_, rfl, htab, hnumbers.tabSize, hnumbers.tabs⟩
  obtain ⟨size, hsize, hpos, hle, hmul⟩ := hsize
  have hnonneg : 0 ≤ level * size := Int.mul_nonneg h (Int.le_of_lt hpos)
  have hone : o.indentWidth 1 = size := by
    unfold indentWidth
    rw [if_neg (by decide), hsize, Int.one_mul]
    exact Integer.wrap_of_mem (by unfold Integer.least; omega) hle
  have hlevel : o.indentWidth level = level * size := by
    unfold indentWidth
    split
    · have hzero : level = 0 := by omega
      rw [hzero, Int.zero_mul]
    · rw [hsize]
      exact Integer.wrap_of_mem (by unfold Integer.least; omega) hmul
  exact ⟨hone ▸ hpos, by rw [hlevel, hone], hlevel ▸ hmul⟩

omit hready hnumbers in
/-- A collection with items is rendered as a document on the page that is requested. -/
theorem expandCollection?_page {head val tail : Bytes} (hval : IsPrintable val)
    (hcollection : isCollection val = true) (hitems : collectionItems val ≠ []) :
    expandCollection? head val tail level o =
      match (collectionRequest o level).page Width.ofText with
      | .error _ => none
      | .ok page =>
        let out := Doc.render Width.ofText page
          (collectionDoc o head val tail (collectionItems val))
        match Bytes.splitOn Ascii.newline out with
        | _ :: _ :: _ => some (Bytes.splitOn Ascii.newline out)
        | _ => none := by
  have hsome : (collectionItems val).isEmpty = false := by simpa using hitems
  unfold expandCollection?
  simp only [trim_collection hval hcollection, hcollection, hsome]
  rfl

theorem collectionRequest_page (h : 0 ≤ level) :
    ∃ page, (collectionRequest o level).page Width.ofText = .ok page ∧
      page.newline = [Ascii.newline] ∧ Ascii.newline ∉ page.indent ∧
      Integer.wrap (page.lineWidth - (page.baseIndent * page.indentWidth : Nat)) =
        o.maxLineLength - o.indentWidth level := by
  obtain ⟨-, -, hlimit⟩ := Options.normalize_sizes hready
  obtain ⟨hone, hlevel, hle⟩ := Options.indentWidth_eq hready hnumbers h
  have hwrap : Integer.wrap level = level :=
    Integer.wrap_of_mem hnumbers.least_le hnumbers.le_greatest
  let indent : Bytes :=
    if o.indentUnit.isEmpty then Bytes.spaces Options.defaultIndentSize else o.indentUnit
  have hindent : Ascii.newline ∉ indent := by
    unfold indent
    split
    · exact texture_single.spaces _
    · exact texture_single.indentUnit o
  refine ⟨⟨o.maxLineLength.toNat, indent, (o.indentWidth 1).toNat, level.toNat, [Ascii.newline]⟩,
    ?_, rfl, hindent, ?_⟩
  · unfold Doc.PageRequest.page collectionRequest
    simp only [hwrap, if_neg (Int.not_lt.mpr h), if_neg (Int.not_lt.mpr (Int.le_of_lt hlimit)),
      if_neg (Int.not_le.mpr hone), if_neg (Int.ne_of_gt hlimit)]
    rfl
  · have hcolumn : ((level.toNat * (o.indentWidth 1).toNat : Nat) : Int) = o.indentWidth level := by
      rw [hlevel, Int.natCast_mul, Int.toNat_of_nonneg h, Int.toNat_of_nonneg (Int.le_of_lt hone)]
    have hnonneg : 0 ≤ o.indentWidth level := by omega
    have hlimit' := hnumbers.maxLineLength
    rw [hcolumn, Int.toNat_of_nonneg (Int.le_of_lt hlimit)]
    refine Integer.wrap_of_mem ?_ ?_ <;> unfold Integer.least Integer.greatest at * <;> omega

/-- A collection is spread when its line, in normal spelling, is wider than the limit. -/
theorem expandCollection?_auto (hauto : o.collectionPolicy = .auto) {head val tail : Bytes}
    (hhead : IsPrintable head) (hval : IsPrintable val) (htail : IsPrintable tail)
    (hcollection : isCollection val = true) (hitems : collectionItems val ≠ []) :
    (expandCollection? head val tail level o).isSome = true ↔
      0 ≤ level ∧
        o.maxLineLength < o.indentWidth level + Width.ofText (head ++ oneLine val ++ tail) := by
  obtain ⟨inside, rest, hdoc, hone, htext⟩ :=
    collectionDoc_auto hauto hhead hval htail
  rw [expandCollection?_page hval hcollection hitems]
  by_cases hlevel : 0 ≤ level
  · obtain ⟨page, hpage, hnewline, hindent, hroom⟩ :=
      collectionRequest_page hready hnumbers hlevel
    rw [hpage]
    dsimp only
    rw [hdoc, Doc.render_group hone hroom, htext]
    have hlead : Ascii.newline ∉ Bytes.repeated page.indent page.baseIndent := by
      intro hmem
      obtain ⟨s, hs, hb⟩ := List.mem_flatten.mp hmem
      rw [List.eq_of_mem_replicate hs] at hb
      exact hindent hb
    by_cases hfits : (Width.ofText (head ++ oneLine val ++ tail) : Int) ≤
        o.maxLineLength - o.indentWidth level
    · have hline : Ascii.newline ∉ head ++ oneLine val ++ tail := by
        intro hmem
        rw [← htext] at hmem
        exact absurd (hone.printable _ hmem) (by decide)
      have hall : Ascii.newline ∉ Bytes.repeated page.indent page.baseIndent ++
          (head ++ oneLine val ++ tail) := by
        rw [List.mem_append, not_or]
        exact ⟨hlead, hline⟩
      rw [if_pos hfits, Bytes.splitOn_of_not_mem hall]
      refine iff_of_false (by simp) ?_
      omega
    · obtain ⟨first, second, more, hsplit⟩ := Bytes.exists_splitOn (List.mem_append_right
        (Bytes.repeated page.indent page.baseIndent) (Doc.newline_mem_broken hnewline
          (page.baseIndent * page.indentWidth) page.baseIndent (head ++ val.take 1) inside rest))
      rw [if_neg hfits, hsplit]
      refine iff_of_true rfl ⟨hlevel, ?_⟩
      omega
  · have hwrap : Integer.wrap level = level :=
      Integer.wrap_of_mem hnumbers.least_le hnumbers.le_greatest
    have hfault : (collectionRequest o level).page Width.ofText = .error (.baseIndent level) := by
      obtain ⟨-, -, hlimit⟩ := Options.normalize_sizes hready
      unfold Doc.PageRequest.page collectionRequest
      simp only [hwrap, if_neg (Int.not_lt.mpr (Int.le_of_lt hlimit)),
        if_pos (Int.not_le.mp hlevel)]
      rfl
    rw [hfault]
    exact iff_of_false (by simp) (fun h => hlevel h.1)

end

theorem one_lt_of_expandCollection? {head val tail : Bytes} {level : Int} {o : Options}
    {ls : List Bytes} (h : expandCollection? head val tail level o = some ls) : 1 < ls.length := by
  obtain ⟨-, a, b, inside, page, -, hspread⟩ := expandCollection?_inv h
  exact hspread.many

theorem length_appendComment (comment : Bytes) (ls : List Bytes) :
    (appendComment comment ls).length = ls.length := by
  have hgo : ∀ ms : List Bytes, (appendComment.go comment ms).length = ms.length := by
    intro ms
    induction ms with
    | nil => rfl
    | cons l ms ih =>
      unfold appendComment.go
      split
      · rw [List.length_cons, ih, List.length_cons]
      · rfl
  unfold appendComment
  split
  · rfl
  · rw [List.length_reverse, hgo, List.length_reverse]

namespace ConstRecord

/-- A constant of a batch, its row up to the equals sign, and the lines that are written for it. -/
structure IsBlock (o : Options) (level : Int) (consts : List ConstRecord) (r : ConstRecord)
    (head : Row) (ls : List Bytes) : Prop where
  exists_index : ∃ i : Nat, (headColumns o consts)[i]? = some (r, head) ∧
    (blocks o level consts)[i]? = some ls

/-- The columns of a constant on one line with some spelling of its value. -/
def lineWidth (o : Options) (level : Int) (r : ConstRecord) (head : Row) (val : Bytes) : Int :=
  o.indentWidth level + Width.ofText (head.text ++ [Ascii.space] ++ val ++ r.terminator)

/-- A constant on one line is written over several lines when its collection is spread. -/
theorem IsBlock.one_lt_length {o : Options} {level : Int} {consts : List ConstRecord}
    {r : ConstRecord} {head : Row} {ls : List Bytes} (hw : IsBlock o level consts r head ls)
    (hline : r.isMultiline = false) :
    1 < ls.length ↔ (expanded? o level r head).isSome = true := by
  obtain ⟨i, hhead, hblock⟩ := hw.exists_index
  have hlines : ∃ row, ls = lines o level r (expanded? o level r head) row := by
    let spread := (headColumns o consts).map fun p => ((p.1, expanded? o level p.1 p.2), p.2)
    let b := ((Batch.column spread false fun p => some p.1.valueText).comments o.alignComments
      rowComment)
    have hblocks : blocks o level consts = b.map fun p => lines o level p.1.1 p.1.2 p.2 := rfl
    have hmembers : b.map (·.1) = (headColumns o consts).map fun p =>
        (p.1, expanded? o level p.1 p.2) := by
      rw [Batch.members_comments, Batch.members_column, List.map_map]
      rfl
    rw [hblocks, List.getElem?_map, Option.map_eq_some_iff] at hblock
    obtain ⟨p, hp, rfl⟩ := hblock
    have hmember : (b.map (·.1))[i]? = some p.1 := by rw [List.getElem?_map, hp]; rfl
    rw [hmembers, List.getElem?_map, hhead] at hmember
    obtain ⟨⟨q, spread⟩, row⟩ := p
    cases hmember
    exact ⟨row, rfl⟩
  obtain ⟨row, rfl⟩ := hlines
  unfold lines
  cases hspread : expanded? o level r head with
  | none => simp [hline]
  | some ms =>
    have hmany : 1 < ms.length := by
      unfold expanded? at hspread
      split at hspread
      · exact nomatch hspread
      · exact one_lt_of_expandCollection? hspread
    simp [length_appendComment, hmany]

/-- With the policy that goes by width, a constant whose value is a collection with items is written
over several lines exactly when its line, with the value in normal spelling, is wider than the
limit. -/
theorem spread_iff {raw o : Options} (hready : raw.normalize = .ok o)
    (hauto : o.collectionPolicy = .auto) {level : Int} (hnumbers : o.Representable level)
    {consts : List ConstRecord} (hconsts : ∀ r ∈ consts, r.IsPrintable ∧ r.isMultiline = false)
    {r : ConstRecord} {head : Row} {ls : List Bytes} (hw : IsBlock o level consts r head ls)
    (hcollection : isCollection r.value = true) (hitems : collectionItems r.value ≠ []) :
    1 < ls.length ↔ 0 ≤ level ∧ o.maxLineLength < lineWidth o level r head (oneLine r.value) := by
  obtain ⟨i, hindex, -⟩ := hw.exists_index
  obtain ⟨hr, hrow⟩ := headColumns_printable (fun r hr => (hconsts r hr).1)
    (List.mem_of_getElem? hindex)
  obtain ⟨hprintable, hline⟩ := hconsts r hr
  have hhead : ThriftLayout.IsPrintable (head.text ++ [Ascii.space]) :=
    IsPrintable.append.mpr ⟨hrow, by decide⟩
  have hval : ThriftLayout.IsPrintable r.value := by
    have hfirst := hprintable.firstLine
    rwa [ConstRecord.firstLine, hline, if_neg Bool.false_ne_true] at hfirst
  rw [hw.one_lt_length hline]
  have hexpanded : expanded? o level r head =
      expandCollection? (head.text ++ [Ascii.space]) r.value r.terminator level o := by
    unfold expanded?
    rw [hline, hauto]
    rfl
  rw [hexpanded]
  exact expandCollection?_auto hready hnumbers hauto hhead hval hprintable.terminator hcollection
    hitems

/-- The constants with a collection that are written over several lines are those whose line, as it
is written in the source, is wider than the limit. -/
def SpreadsOverlong (o : Options) (level : Int) (consts : List ConstRecord) : Prop :=
  ∀ r head ls, IsBlock o level consts r head ls → isCollection r.value = true →
    collectionItems r.value ≠ [] →
      (1 < ls.length ↔ o.maxLineLength < lineWidth o level r head r.value)

/-- Options that go by width. -/
def limited (limit : Int) : Options :=
  { Options.standard with collectionStyle := utf8 "auto", maxLineLength := limit }

/-- A list with more spaces than it needs. -/
def looseList : ConstRecord :=
  { type := utf8 "list<i32>", name := utf8 "A", value := utf8 "[ 1,   2 ]" }

/-- A list with fewer spaces than in normal spelling. -/
def tightList : ConstRecord :=
  { type := utf8 "list<i32>", name := utf8 "A", value := utf8 "[1,2]" }

/-- The row of both lists up to the equals sign. -/
def listHead : Row := ⟨utf8 "const list<i32> A =", 19⟩

theorem isBlock_of_blocks {o : Options} {level : Int} {consts : List ConstRecord}
    {r : ConstRecord} {head : Row} {ls : List Bytes} (hhead : headColumns o consts = [(r, head)])
    (hblocks : blocks o level consts = [ls]) : IsBlock o level consts r head ls :=
  ⟨0, by rw [hhead]; rfl, by rw [hblocks]; rfl⟩

/-- The tight list is 25 columns wide and is spread with a limit of 25. -/
theorem spread_iff_tightList :
    (limited 25).normalize = .ok (limited 25) ∧ (limited 25).Representable 0 ∧
      ∃ ls, IsBlock (limited 25) 0 [tightList] tightList listHead ls ∧ 1 < ls.length := by
  have hready : (limited 25).normalize = .ok (limited 25) := by decide +kernel
  have hnumbers : (limited 25).Representable 0 := by constructor <;> decide +kernel
  have hconsts : ∀ r ∈ [tightList], r.IsPrintable ∧ r.isMultiline = false := by
    intro r hr
    rw [List.mem_singleton.mp hr]
    exact ⟨by constructor <;> decide +kernel, by decide +kernel⟩
  have hblock : IsBlock (limited 25) 0 [tightList] tightList listHead
      [utf8 "const list<i32> A = [", utf8 "    1,", utf8 "    2,", utf8 "]"] :=
    isBlock_of_blocks (by decide +kernel) (by decide +kernel)
  exact ⟨hready, hnumbers, _, hblock, (spread_iff hready (by decide +kernel) hnumbers hconsts hblock
    (by decide +kernel) (by decide +kernel)).mpr ⟨by decide, by decide +kernel⟩⟩

/-- The loose list is 30 columns wide and stays on its line with a limit of 26, and so the width as
written does not decide; nor does it for the tight list. -/
theorem not_spreadsOverlong_loose :
    (limited 26).normalize = .ok (limited 26) ∧ (limited 26).collectionPolicy = .auto ∧
      blocks (limited 26) 0 [looseList] = [[utf8 "const list<i32> A = [ 1,   2 ]"]] ∧
      ¬SpreadsOverlong (limited 26) 0 [looseList] ∧ ¬SpreadsOverlong (limited 25) 0 [tightList] := by
  have hloose : blocks (limited 26) 0 [looseList] = [[utf8 "const list<i32> A = [ 1,   2 ]"]] := by
    decide +kernel
  have htight : blocks (limited 25) 0 [tightList] =
      [[utf8 "const list<i32> A = [", utf8 "    1,", utf8 "    2,", utf8 "]"]] := by
    decide +kernel
  refine ⟨by decide +kernel, by decide +kernel, hloose, ?_, ?_⟩
  · intro h
    have hblock : IsBlock (limited 26) 0 [looseList] looseList listHead _ :=
      isBlock_of_blocks (by decide +kernel) hloose
    have hspread := (h _ _ _ hblock (by decide +kernel) (by decide +kernel)).mpr (by decide +kernel)
    exact absurd hspread (by decide)
  · intro h
    have hblock : IsBlock (limited 25) 0 [tightList] tightList listHead _ :=
      isBlock_of_blocks (by decide +kernel) htight
    have hwide := (h _ _ _ hblock (by decide +kernel) (by decide +kernel)).mp (by decide)
    exact absurd hwide (by decide +kernel)

end ConstRecord

end ThriftLayout
