import ThriftLayout.Proofs.Config.ReadyOptions
import ThriftLayout.Proofs.Document.ConstDecls
import ThriftLayout.Proofs.Layout.ClosedItems
import ThriftLayout.Proofs.Layout.FlatGroups
import ThriftLayout.Proofs.Layout.Spreading

/-!
# The lines of a spread collection

A collection that is spread has its brackets on the first and the last of its lines and one item on
each line between them, one level deeper. A value over several lines is indented line by line, by
the brackets that are open in front of each line. As each item closes what it opens, both ways of
writing agree: the lines of a spread collection are indented to the levels they have.

Results:

* `expandCollection?_spread`: the lines of a collection that is spread.
* `IsBrackets.nested_spread`: the levels of these lines when they are indented anew.
-/
namespace ThriftLayout

/-! ## Indentation that can be written -/

/-- A level and the next one can be written as indentation. -/
structure Options.Indents (o : Options) (level : Int) : Prop where
  least_le : Integer.least ≤ level
  lt_greatest : level < Integer.greatest
  fault : o.indentFault? (level + 1) = none

namespace Options

variable {o : Options} {level : Int}

theorem copiesFault?_mono {size m n : Nat} (hle : m ≤ n) (h : copiesFault? size n = none) :
    copiesFault? size m = none := by
  have hmul : size * m ≤ size * n := Nat.mul_le_mul_left size hle
  unfold copiesFault? at h ⊢
  split at h
  · rw [if_pos (by omega)]
  · split at h
    · exact nomatch h
    split at h
    · exact nomatch h
    split
    · rfl
    · rw [if_neg (by omega), if_neg (by omega)]

theorem isLevel_iff {n : Int} : isLevel n = true ↔ 0 < n ∧ n ≤ Integer.greatest := by
  rw [isLevel, Bool.and_eq_true, decide_eq_true_eq, decide_eq_true_eq]

theorem indentFault?_of_isLevel {n : Int} (hn : isLevel n = true) :
    o.indentFault? n = none ↔ o.unitFault? = none ∧ copiesFault? o.unitSize n.toNat = none := by
  rw [indentFault?, if_pos hn, Option.orElse_eq_orElse, Option.orElse_eq_or, Option.or_eq_none_iff]

namespace Indents

variable (h : o.Indents level)
include h

theorem isLevel_next (hlevel : 0 ≤ level) : isLevel (level + 1) = true := by
  have := h.lt_greatest
  exact isLevel_iff.mpr ⟨by omega, by omega⟩

theorem unitFault? (hlevel : 0 ≤ level) : o.unitFault? = none :=
  ((indentFault?_of_isLevel (h.isLevel_next hlevel)).mp h.fault).1

theorem indent_eq {n : Int} (hn : n ≤ level + 1) :
    o.indent n = Bytes.repeated o.indentUnit n.toNat := by
  have := h.lt_greatest
  by_cases hpos : 0 < n
  · have hlevel : isLevel n = true := isLevel_iff.mpr ⟨hpos, by omega⟩
    obtain ⟨hunit, hcopies⟩ :=
      (indentFault?_of_isLevel (h.isLevel_next (by omega))).mp h.fault
    have hnone : o.indentFault? n = none := (indentFault?_of_isLevel hlevel).mpr
      ⟨hunit, copiesFault?_mono (by omega) hcopies⟩
    rw [indent, hlevel, hnone]
    rfl
  · have hzero : n.toNat = 0 := by omega
    have hlevel : isLevel n = false := Bool.eq_false_iff.mpr fun hn => hpos (isLevel_iff.mp hn).1
    rw [indent, hlevel, hzero]
    rfl

end Indents

theorem indentUnit_ne_nil {raw : Options} (hready : raw.normalize = .ok o)
    (hunit : o.unitFault? = none) : o.indentUnit ≠ [] := by
  have hsize := (normalize_sizes hready).1
  rw [indentUnit, hunit, if_neg (by decide)]
  split
  · rename_i hspaces
    rw [unitSize, if_pos hspaces]
    intro hnil
    have := (List.replicate_eq_nil_iff Ascii.space).mp hnil
    omega
  · exact List.cons_ne_nil _ _

end Options

/-! ## Laying a collection -/

/-- The items of a collection with commas behind them; behind the last one it may be left out. -/
def itemLines (lastComma : Bool) : List Bytes → List Bytes
  | [] => []
  | [item] => [if lastComma then item ++ [Ascii.comma] else item]
  | item :: items => (item ++ [Ascii.comma]) :: itemLines lastComma items

/-- The lines of a collection that is spread, behind the indentation of its brackets and that of
its items. -/
def spreadLines (outer inner head val tail : Bytes) (lastComma : Bool) (items : List Bytes) :
    List Bytes :=
  (outer ++ (head ++ val.take 1)) ::
    ((itemLines lastComma items).map (inner ++ ·) ++
      [outer ++ (val.drop (val.length - 1) ++ tail)])

namespace Doc

variable {width : Bytes → Nat} {p : Page}

/-- Documents that are kept flat are laid on one line. -/
theorem lay_flat (l : Line) {fs : List Frame} (h : ∀ f ∈ fs, f.flat = true ∧ f.doc.Lineless) :
    ∃ m, lay width p l fs = [m] := by
  fun_induction lay width p l fs with
  | case1 l => exact ⟨l, rfl⟩
  | case2 l i flat fs ih | case3 l i flat s fs ih | case4 l i s fs ih | case7 l i fs ih
  | case9 l i fs ih => exact ih (List.forall_mem_cons.mp h).2
  | case5 l i flat s fs hflat ih | case8 l i flat fs hflat ih | case10 l i flat fs hflat ih =>
    exact absurd (List.forall_mem_cons.mp h).1.1 hflat
  | case6 l i flat fs ih => exact absurd (List.forall_mem_cons.mp h).1.2 id
  | case11 l i flat a b fs ih =>
    obtain ⟨⟨hflat, ha, hb⟩, hfs⟩ := List.forall_mem_cons.mp h
    exact ih (List.forall_mem_cons.mpr ⟨⟨hflat, ha⟩, List.forall_mem_cons.mpr ⟨⟨hflat, hb⟩, hfs⟩⟩)
  | case12 l i flat d fs ih =>
    obtain ⟨hd, hfs⟩ := List.forall_mem_cons.mp h
    exact ih (List.forall_mem_cons.mpr ⟨hd, hfs⟩)
  | case13 l i flat d fs hfits ih =>
    obtain ⟨⟨-, hd⟩, hfs⟩ := List.forall_mem_cons.mp h
    exact ih (List.forall_mem_cons.mpr ⟨⟨rfl, hd⟩, hfs⟩)
  | case14 l i flat d fs hbroken ih =>
    have hflat : flat = true := (List.forall_mem_cons.mp h).1.1
    exact absurd (by rw [hflat, Bool.true_or]) hbroken

/-- A group alone on a page is on one line, or laid as what it holds. -/
theorem lines_group (width : Bytes → Nat) (p : Page) {d : Doc} (h : d.Lineless) :
    (∃ m, (group d).lines width p = [m]) ∨ (group d).lines width p = d.lines width p := by
  unfold lines
  rw [lay]
  split
  · exact .inl (lay_flat _ (List.forall_mem_singleton.mpr ⟨rfl, h⟩))
  · exact .inr rfl

theorem lineless_concat {ds : List Doc} : (concat ds).Lineless ↔ ∀ d ∈ ds, d.Lineless := by
  induction ds with
  | nil => simp [concat, Lineless]
  | cons d ds ih =>
    rw [List.forall_mem_cons, ← ih]
    rfl

theorem lineless_itemDocs (items : List Bytes) : ∀ d ∈ itemDocs .softLine items, d.Lineless := by
  fun_induction itemDocs .softLine items with
  | case1 => exact List.forall_mem_nil _
  | case2 item => exact List.forall_mem_singleton.mpr trivial
  | case3 item items hne ih =>
    simp only [List.forall_mem_cons]
    exact ⟨trivial, trivial, trivial, ih⟩

/-- A document that breaks a line where it stands broken. -/
def Breaks (sep : Doc) : Prop :=
  ∀ (width : Bytes → Nat) (p : Page) (l : Line) (i : Nat) (fs : List Frame),
    lay width p l (⟨i, false, sep⟩ :: fs) = l :: lay width p ⟨i, []⟩ fs

theorem breaks_line : Breaks .line := fun width p l i fs => by rw [lay]

theorem breaks_softLine : Breaks .softLine := fun width p l i fs => by
  rw [lay, if_neg Bool.false_ne_true]

theorem breaks_softBreak : Breaks .softBreak := fun width p l i fs => by
  rw [lay, if_neg Bool.false_ne_true]

/-- The items of a collection, each on a line of its own. -/
theorem lay_itemDocs (width : Bytes → Nat) (p : Page) {sep : Doc} (hsep : sep.Breaks) (i : Nat)
    {items : List Bytes} (hitems : items ≠ []) (lastComma : Bool) (fs : List Frame) : ∃ ls m,
      lay width p ⟨i, []⟩ (⟨i, false, concat (itemDocs sep items ++
        if lastComma then [.ifBreak [Ascii.comma]] else [])⟩ :: fs) = ls ++ lay width p m fs ∧
      (ls ++ [m]).map (Line.written p) =
        (itemLines lastComma items).map (Bytes.repeated p.indent i ++ ·) := by
  fun_induction itemDocs sep items with
  | case1 => exact absurd rfl hitems
  | case2 item =>
    cases lastComma with
    | true =>
      refine ⟨[], ⟨i, [.text item, .text [Ascii.comma]]⟩, ?_, ?_⟩
      · simp [concat, lay, Line.put]
      · simp [Line.written, itemLines, Item.written]
    | false =>
      refine ⟨[], ⟨i, [.text item]⟩, ?_, ?_⟩
      · simp [concat, lay, Line.put]
      · simp [Line.written, itemLines, Item.written]
  | case3 item items hne ih =>
    obtain ⟨ls, m, hlay, hwritten⟩ := ih hne
    refine ⟨⟨i, [.text item, .text [Ascii.comma]]⟩ :: ls, m, ?_, ?_⟩
    · refine Eq.trans ?_ (congrArg (_ :: ·) hlay)
      simp only [concat, List.cons_append, List.foldr_cons, lay, hsep _ _ _ _ _]
      rfl
    · have hmore : itemLines lastComma (item :: items) =
          (item ++ [Ascii.comma]) :: itemLines lastComma items := by
        obtain ⟨next, items, rfl⟩ := List.exists_cons_of_ne_nil hne
        rfl
      rw [List.cons_append, List.map_cons, hwritten, hmore, List.map_cons]
      simp [Line.written, Item.written]

/-- A collection is laid on one line, or with its brackets and its items on lines of their own. -/
theorem lines_collectionDoc (width : Bytes → Nat) (p : Page) (o : Options) (head val tail : Bytes)
    {items : List Bytes} (hitems : items ≠ []) :
    (∃ m, (collectionDoc o head val tail items).lines width p = [m]) ∨
      ((collectionDoc o head val tail items).lines width p).map (Line.written p) =
        spreadLines (Bytes.repeated p.indent p.baseIndent)
          (Bytes.repeated p.indent (p.baseIndent + 1)) head val tail
          (o.commaPolicy != .remove) items := by
  have hlast : (if o.commaPolicy == .remove then [] else [Doc.ifBreak [Ascii.comma]]) =
      if o.commaPolicy != .remove then [Doc.ifBreak [Ascii.comma]] else [] := by
    cases o.commaPolicy <;> rfl
  have hbroken {edge sep : Doc} (hedge : edge.Breaks) (hsep : sep.Breaks) :
      (lay width p ⟨p.baseIndent, []⟩ [⟨p.baseIndent, false, concat [
        .text (head ++ val.take 1),
        .indent (concat (edge :: itemDocs sep items ++
          if o.commaPolicy != .remove then [Doc.ifBreak [Ascii.comma]] else [])),
        edge, .text (val.drop (val.length - 1) ++ tail)]⟩]).map (Line.written p) =
        spreadLines (Bytes.repeated p.indent p.baseIndent)
          (Bytes.repeated p.indent (p.baseIndent + 1)) head val tail
          (o.commaPolicy != .remove) items := by
    obtain ⟨ls, m, hlay, hwritten⟩ := lay_itemDocs width p hsep (p.baseIndent + 1) hitems
      (o.commaPolicy != .remove)
      [⟨p.baseIndent, false, concat [edge, .text (val.drop (val.length - 1) ++ tail)]⟩]
    have hend : lay width p m
        [⟨p.baseIndent, false, concat [edge, .text (val.drop (val.length - 1) ++ tail)]⟩] =
        [m, ⟨p.baseIndent, [.text (val.drop (val.length - 1) ++ tail)]⟩] := by
      simp only [concat, List.foldr_cons, List.foldr_nil, lay, hedge _ _ _ _ _]
      rfl
    have hwhole : lay width p ⟨p.baseIndent, []⟩ [⟨p.baseIndent, false, concat [
        .text (head ++ val.take 1),
        .indent (concat (edge :: itemDocs sep items ++
          if o.commaPolicy != .remove then [Doc.ifBreak [Ascii.comma]] else [])),
        edge, .text (val.drop (val.length - 1) ++ tail)]⟩] =
        ⟨p.baseIndent, [.text (head ++ val.take 1)]⟩ ::
          (ls ++ [m, ⟨p.baseIndent, [.text (val.drop (val.length - 1) ++ tail)]⟩]) := by
      rw [← hend, ← hlay]
      simp only [concat, List.cons_append, List.foldr_cons, List.foldr_nil, lay, hedge _ _ _ _ _]
      rfl
    rw [hwhole, spreadLines, ← hwritten]
    simp [Line.written, Item.written]
  unfold collectionDoc
  simp only [hlast]
  cases o.collectionPolicy == .multiline with
  | true => exact .inr (hbroken breaks_line breaks_line)
  | false =>
    obtain hone | hbody := lines_group width p (show Lineless (concat [
      .text (head ++ val.take 1),
      .indent (concat (.softBreak :: itemDocs .softLine items ++
        if o.commaPolicy != .remove then [Doc.ifBreak [Ascii.comma]] else [])),
      .softBreak, .text (val.drop (val.length - 1) ++ tail)]) by
        have hcomma : ∀ d ∈ (if o.commaPolicy != .remove then [Doc.ifBreak [Ascii.comma]] else []),
            d.Lineless := by
          split
          · exact List.forall_mem_singleton.mpr trivial
          · exact List.forall_mem_nil _
        simp only [lineless_concat, List.forall_mem_cons, Lineless, List.forall_mem_append]
        exact ⟨trivial, ⟨⟨trivial, lineless_itemDocs items⟩, hcomma⟩, trivial, trivial,
          List.forall_mem_nil _⟩)
    · exact .inl hone
    · refine .inr (Eq.trans ?_ (hbroken breaks_softBreak breaks_softLine))
      exact congrArg _ hbody

theorem newlineFree_iff {d : Doc} : d.NewlineFree ↔ d.Of (Ascii.newline ∉ ·) := by
  induction d with
  | append a b iha ihb => exact and_congr iha ihb
  | indent d ih | group d ih => exact ih
  | _ => exact Iff.rfl

/-- A document without newlines in its texts is split into its lines. -/
theorem splitOn_render (hnewline : p.newline = [Ascii.newline]) (hindent : Ascii.newline ∉ p.indent)
    {d : Doc} (hd : d.NewlineFree) : Bytes.splitOn Ascii.newline (render width p d) =
      (d.lines width p).map (Line.written p) := by
  have hrender : render width p d =
      Bytes.join p.newline ((d.lines width p).map (Line.written p)) := by
    rw [lines, join_lay]
    simp [render, Line.written, Line.columns]
  rw [hrender, hnewline]
  have hlines : (d.lines width p).map (Line.written p) ≠ [] :=
    mt List.map_eq_nil_iff.mp (lay_ne_nil _ _)
  refine Bytes.splitOn_join_of_not_mem hlines fun l hl => ?_
  obtain ⟨m, hm, rfl⟩ := List.mem_map.mp hl
  have hitems := newlineFree_lay (l := ⟨p.baseIndent, []⟩)
    (List.forall_mem_nil _) (List.forall_mem_singleton.mpr hd) m hm
  rw [Line.written, List.mem_append, not_or]
  refine ⟨fun hmem => ?_, fun hmem => ?_⟩
  · obtain ⟨s, hs, hmem⟩ := List.mem_flatten.mp hmem
    rw [List.eq_of_mem_replicate hs] at hmem
    exact hindent hmem
  · obtain ⟨i, hi, hmem⟩ := List.mem_flatMap.mp hmem
    exact hitems i hi hmem

end Doc

/-! ## Spreading a collection -/

/-- A collection that is spread has its brackets and its items on lines of their own. -/
theorem expandCollection?_spread {raw o : Options} (hready : raw.normalize = .ok o) {level : Int}
    (hlevel : o.Indents level) {head val tail : Bytes} (htrim : Blank.trim val = val)
    (hhead : Ascii.newline ∉ head) (hval : Ascii.newline ∉ val) (htail : Ascii.newline ∉ tail)
    {ls : List Bytes} (h : expandCollection? head val tail level o = some ls) :
    isCollection val = true ∧ collectionItems val ≠ [] ∧
      ls = spreadLines (o.indent level) (o.indent (level + 1)) head val tail
        (o.commaPolicy != .remove) (collectionItems val) := by
  obtain ⟨hcollection, a, b, inside, page, heq, hspread⟩ := expandCollection?_inv h
  rw [htrim] at hcollection heq
  have hparts : (parts inside).map (·.text) = collectionItems val := by
    rw [heq, collectionItems_brackets]
  have hitems : collectionItems val ≠ [] := hparts ▸ mt List.map_eq_nil_iff.mp hspread.items
  refine ⟨hcollection, hitems, ?_⟩
  have hlines := hspread.lines
  rw [← heq, hparts] at hlines
  obtain ⟨hbase, hindent, hnewline, -⟩ := Doc.PageRequest.yields_page hspread.laid
  have hwrap : Integer.wrap level = level :=
    Integer.wrap_of_mem hlevel.least_le (Int.le_of_lt hlevel.lt_greatest)
  simp only [collectionRequest, hwrap] at hbase hindent
  have hnonneg : 0 ≤ level := by omega
  have hunit := Options.indentUnit_ne_nil hready (hlevel.unitFault? hnonneg)
  rw [if_neg (by simpa using hunit)] at hindent
  have hwritten (n : Nat) (hn : (n : Int) ≤ level + 1) :
      o.indent n = Bytes.repeated page.indent n := by
    rw [hlevel.indent_eq hn, hindent, Int.toNat_natCast]
  have houter := hwritten page.baseIndent (by omega)
  have hinner := hwritten (page.baseIndent + 1) (by omega)
  have hdoc : (collectionDoc o head val tail (collectionItems val)).NewlineFree := by
    refine Doc.newlineFree_iff.mpr (collectionDoc_of texture_single o ?_ ?_ fun i hi hmem => ?_)
    · rw [List.mem_append, not_or]
      exact ⟨hhead, fun hmem => hval (List.mem_of_mem_take hmem)⟩
    · rw [List.mem_append, not_or]
      exact ⟨fun hmem => hval (List.mem_of_mem_drop hmem), htail⟩
    · exact hval (mem_of_mem_collectionItems hi hmem)
  rw [Doc.splitOn_render hnewline (hindent ▸ texture_single.indentUnit o) hdoc] at hlines
  obtain ⟨m, hone⟩ | hmany :=
    Doc.lines_collectionDoc Width.ofText page o head val tail hitems
  · have hshort := hspread.many
    rw [hlines, hone] at hshort
    exact absurd hshort (Nat.lt_irrefl 1)
  · rw [hlines, hmany, ← houter, ← hinner]
    congr 2
    omega

/-! ## Indenting the lines anew -/

/-- An item of a collection, with or without the comma behind it. -/
structure IsItem (l : Bytes) : Prop where
  closed : IsClosed l
  free : CommentFree {} l
  single : Ascii.newline ∉ l
  trimmed : Blank.trim l = l
  ne_nil : l ≠ []

namespace IsItem

variable {l : Bytes} {ls items : List Bytes}

theorem append_comma (h : IsItem l) : IsItem (l ++ [Ascii.comma]) where
  closed := h.closed.append (.of_terminator (.inr ⟨_, rfl, rfl⟩))
  free := h.free.concat rfl
  single hmem := (List.mem_append.mp hmem).elim h.single (by decide)
  trimmed := by
    have hcomma : Ascii.Visible Ascii.comma := by decide
    have htrim := Blank.trim_append_visible hcomma (h.trimmed.trans_ne h.ne_nil)
    rwa [h.trimmed] at htrim
  ne_nil := List.append_ne_nil_of_right_ne_nil l (List.cons_ne_nil _ [])

theorem itemLines (lastComma : Bool) (h : ∀ i ∈ items, IsItem i) :
    ∀ l ∈ itemLines lastComma items, IsItem l := by
  fun_induction ThriftLayout.itemLines lastComma items with
  | case1 => exact nofun
  | case2 item =>
    have hitem := h item List.mem_cons_self
    refine List.forall_mem_singleton.mpr ?_
    split
    · exact hitem.append_comma
    · exact hitem
  | case3 item items hne ih =>
    obtain ⟨hitem, hrest⟩ := List.forall_mem_cons.mp h
    exact List.forall_mem_cons.mpr ⟨hitem.append_comma, ih hrest⟩

theorem startsWithCloser (h : IsItem l) : startsWithCloser l = false := by
  have hclosed := h.closed
  unfold ThriftLayout.startsWithCloser
  rw [h.trimmed]
  cases l with
  | nil => rfl
  | cons b s =>
    have hb := hclosed.head
    simp only [List.mem_cons, List.not_mem_nil, or_false, not_or] at hb
    simp [hb]

/-- The items of a collection are indented by the brackets around them. -/
theorem nestedFrom_append (h : ∀ l ∈ ls, IsItem l) (level : Int) (depth : Nat)
    (more : List Bytes) : nestedFrom level depth (ls ++ more) =
      ls.map (fun l => (level + depth, l)) ++ nestedFrom level depth more := by
  induction ls with
  | nil => rfl
  | cons l ls ih =>
    obtain ⟨hl, hls⟩ := List.forall_mem_cons.mp h
    have hne : l.isEmpty = false := by simpa using hl.ne_nil
    rw [List.cons_append, nestedFrom]
    simp only [hl.trimmed, hl.free.splitLineComment, hl.startsWithCloser, hl.closed.nestingDelta,
      hne, ih hls, Int.add_zero, Int.toNat_natCast]
    rfl

end IsItem

theorem isItem_of_enclosed {val : Bytes} (hcollection : isCollection val = true)
    (henclosed : IsEnclosed val) (hfree : CommentFree {} val) (hsingle : Ascii.newline ∉ val) :
    ∀ i ∈ collectionItems val, IsItem i := by
  obtain ⟨a, b, inside, hbrackets, rfl⟩ := isCollection_eq hcollection
  obtain ⟨o, t, c, hsame, hbalanced⟩ := henclosed
  obtain ⟨rfl, hinside⟩ := List.cons.inj hsame
  obtain ⟨rfl, -⟩ := List.append_inj' hinside rfl
  have hopen : Quote.run {} [a] = {} :=
    Quote.run_plain (List.forall_mem_singleton.mpr hbrackets.plain.1)
  have hinsideFree : CommentFree {} inside := by
    rw [← List.singleton_append] at hfree
    have h := hfree.right.left
    rwa [hopen] at h
  rw [collectionItems_brackets]
  intro i hi
  obtain ⟨p, hp, rfl⟩ := List.mem_map.mp hi
  refine ⟨(IsClosed.of_balanced hbalanced).parts p hp, parts_commentFree hinsideFree hp, ?_, ?_, ?_⟩
  · exact (firm_parts (s := inside) (fun hmem => hsingle (by simp [hmem])) p hp).1.single
  · obtain ⟨q, hq, rfl⟩ := List.mem_map.mp (List.mem_filter.mp hp).1
    exact Blank.trim_trim q.text
  · simpa using (List.mem_filter.mp hp).2

/-- The last line of a spread collection: its closing bracket, a plain text and a comment. -/
structure IsCloser (b : UInt8) (l : Bytes) : Prop where
  parts : ∃ s c, l = b :: (s ++ c) ∧ (∀ x ∈ s, Ascii.isPlain x = true) ∧ IsComment c
  single : Ascii.newline ∉ l
  trimmed : Blank.trim l = l

namespace IsBrackets

variable {a b : UInt8} (h : IsBrackets a b)
include h

theorem visible : Ascii.Visible a ∧ Ascii.Visible b := by
  rcases h with ⟨rfl, rfl⟩ | ⟨rfl, rfl⟩ <;> decide

theorem ne_newline : Ascii.newline ≠ a ∧ Ascii.newline ≠ b := by
  rcases h with ⟨rfl, rfl⟩ | ⟨rfl, rfl⟩ <;> decide

/-- The terminator and the comment of a collection stand behind its closing bracket. -/
theorem isCloser {t c : Bytes} (ht : IsTerminator t) (hc : IsNote c) :
    IsCloser b (b :: (t ++ (spaced c).getD [])) := by
  have hsingle := texture_single.terminator ht
  have hb := h.visible.2
  have hnewline := h.ne_newline.2
  unfold spaced
  split
  · have hend : t ++ (none : Option Bytes).getD [] = t := List.append_nil t
    rw [hend]
    refine ⟨⟨t, [], by simp, ht.plain, .inl rfl⟩,
      List.not_mem_cons_of_ne_of_not_mem hnewline hsingle, ?_⟩
    rcases ht with rfl | ⟨x, hx, rfl⟩
    · exact Blank.trim_of_solid (.singleton hb)
    · exact Blank.trim_of_solid ((Solid.singleton hb).join
        (.singleton ⟨Ascii.lt_of_isSeparator hx, Ascii.isBlank_of_isSeparator hx⟩) [])
  · rename_i hne
    obtain ⟨x, rest, rfl, hx⟩ : ∃ x rest, c = x :: rest ∧ Ascii.Visible x := by
      rcases hc.comment with rfl | ⟨rest, rfl | rfl⟩
      · exact absurd rfl hne
      · exact ⟨_, rest, rfl, by decide⟩
      · exact ⟨_, _, rfl, by decide⟩
    have hend : b :: (t ++ (some (Ascii.space :: x :: rest)).getD []) =
        (b :: (t ++ [Ascii.space])) ++ x :: rest := by simp
    rw [hend]
    refine ⟨⟨t ++ [Ascii.space], x :: rest, rfl, ?_, hc.comment⟩, ?_, ?_⟩
    · exact List.forall_mem_append.mpr ⟨ht.plain, List.forall_mem_singleton.mpr rfl⟩
    · simp only [List.mem_append, List.mem_cons, List.not_mem_nil, or_false, not_or]
      exact ⟨⟨hnewline, hsingle, by decide⟩, List.mem_cons.not.mp hc.single |> not_or.mp⟩
    · rw [Blank.trim_append_cons hx, hc.trimmed, Blank.trimStart_cons hb]

/-- The line of the closing bracket is indented as the line of the opening one. -/
theorem nestedFrom_closer {l : Bytes} (hl : IsCloser b l) (level : Int) :
    nestedFrom level 1 [l] = [(level, l)] := by
  have htrim := hl.trimmed
  obtain ⟨s, c, rfl, hs, hc⟩ := hl.parts
  have hcode : IsCode (b :: s) := .of_plain (List.forall_mem_cons.mpr ⟨h.plain.2, hs⟩)
  have hcut := splitLineComment_eq hcode hc
  rw [List.cons_append] at hcut
  have hcloser : startsWithCloser (b :: s) = true := by
    unfold startsWithCloser
    rw [Blank.trim_cons h.visible.2]
    rcases h with ⟨-, rfl⟩ | ⟨-, rfl⟩ <;> rfl
  simp [nestedFrom, htrim, hcut, hcloser]

/-- The lines of a spread collection are indented to the levels they have. -/
theorem nested_spread {ls : List Bytes} (hls : ∀ l ∈ ls, IsItem l) {l : Bytes} (hl : IsCloser b l)
    (level : Int) : nested level (Bytes.join [Ascii.newline] ([a] :: (ls ++ [l]))) =
      ls.map (fun l => (level + 1, l)) ++ [(level, l)] := by
  have hline : ∀ l' ∈ [a] :: (ls ++ [l]), Ascii.newline ∉ l' := by
    refine List.forall_mem_cons.mpr ⟨by simpa using h.ne_newline.1, ?_⟩
    refine List.forall_mem_append.mpr ⟨fun l hl => (hls l hl).single, ?_⟩
    exact List.forall_mem_singleton.mpr hl.single
  have hopen : nestingDelta (splitLineComment [a]).1 = 1 := by
    rcases h with ⟨rfl, -⟩ | ⟨rfl, -⟩ <;> decide
  unfold nested
  rw [Bytes.splitOn_join_of_not_mem (List.cons_ne_nil _ _) hline]
  simp only [hopen]
  rw [show (1 : Int).toNat = 1 from rfl, IsItem.nestedFrom_append hls, h.nestedFrom_closer hl]
  rfl

end IsBrackets

end ThriftLayout
