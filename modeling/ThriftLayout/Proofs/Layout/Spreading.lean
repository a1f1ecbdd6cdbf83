import ThriftLayout.Layout.Collection
import ThriftLayout.Proofs.Layout.Cutting

/-!
# Collections over several lines keep their characters

A list or map is spread over lines as a document whose breaks and added commas measure nothing. So
the text that is written measures as much as the document, wherever its lines break, and the
document as much as the collection. A value that is on several lines already only has its
indentation changed.

Results:

* `Doc.write_kept`: what is written for documents.
* `expandCollection?_inv`: what a spread collection is and how it is laid.
* `expandCollection?_kept`: a collection with one item per line.
* `reindent_kept`: a value over several lines.
-/
namespace ThriftLayout

open Utf8 (valid Fresh)

variable (μ : Measure)

/-! ## Indentation -/

theorem indentUnit_light (o : Options) : ∀ b ∈ o.indentUnit, Ascii.isLight b = true := by
  unfold Options.indentUnit
  split
  · exact List.forall_mem_nil _
  split
  · exact spaces_light _
  · exact single_light (by decide)

theorem indent_light (o : Options) (level : Int) :
    ∀ b ∈ o.indent level, Ascii.isLight b = true := by
  unfold Options.indent
  split
  · exact forall_mem_repeated (indentUnit_light o) _
  · simp

/-! ## Documents -/

namespace Doc

/-- Documents whose texts are valid and whose optional texts are light. -/
def Sound : Doc → Prop
  | .text s => valid s = true
  | .ifBreak s => ∀ b ∈ s, Ascii.isLight b = true
  | .append a b => a.Sound ∧ b.Sound
  | .indent d | .group d => d.Sound
  | _ => True

def measure : Doc → Nat
  | .text s => μ.of s
  | .append a b => a.measure + b.measure
  | .indent d | .group d => d.measure
  | _ => 0

/-- The breaks and the indentation of a page are light. -/
structure Page.Light (p : Page) : Prop where
  newline : ∀ b ∈ p.newline, Ascii.isLight b = true
  indent : ∀ b ∈ p.indent, Ascii.isLight b = true

theorem Page.Light.lineBreak {p : Page} (h : p.Light) (level : Nat) :
    ∀ b ∈ p.lineBreak level, Ascii.isLight b = true := by
  intro b hb
  rcases List.mem_append.mp hb with hb | hb
  · exact h.newline b hb
  · exact forall_mem_repeated h.indent level b hb

/-- What is written for documents measures as much as the documents, wherever lines break. -/
theorem write_kept (width : Bytes → Nat) {p : Page} (hp : p.Light) (column : Nat)
    (fs : List Frame) (h : ∀ f ∈ fs, f.doc.Sound) :
    valid (write width p column fs) = true ∧
      μ.of (write width p column fs) = (fs.map fun f => f.doc.measure μ).sum := by
  have light {a s : Bytes} {n : Nat} (ha : ∀ b ∈ a, Ascii.isLight b = true)
      (hs : valid s = true ∧ μ.of s = n) : valid (a ++ s) = true ∧ μ.of (a ++ s) = n :=
    ⟨valid_light_append ha hs.1, (μ.of_light_append ha).trans hs.2⟩
  fun_induction write width p column fs
  case case1 => exact ⟨Utf8.valid_nil, μ.of_nil⟩
  all_goals
    simp only [List.forall_mem_cons, Sound, true_and, List.map_cons, List.sum_cons, measure,
      Nat.zero_add, Nat.add_assoc] at *
  case case3 ih =>
    obtain ⟨hv, hm⟩ := ih h.2
    exact ⟨Utf8.valid_append_of_valid h.1 hv, by rw [μ.of_append_valid _ hv, hm]⟩
  case case5 ih => exact light h.1 (ih h.2)
  case case6 ih | case8 ih | case10 ih => exact light (hp.lineBreak _) (ih h)
  case case7 ih => exact light (single_light (by decide)) (ih h)
  case case11 ih => exact ih ⟨h.1.1, h.1.2, h.2⟩
  case case4 ih => exact ih h.2
  all_goals
    rename_i ih
    exact ih h

/-! ## Collections -/

theorem sound_concat {ds : List Doc} : (concat ds).Sound ↔ ∀ d ∈ ds, d.Sound := by
  induction ds with
  | nil => simp [concat, Sound]
  | cons d ds ih =>
    rw [List.forall_mem_cons, ← ih]
    rfl

theorem measure_concat (ds : List Doc) :
    (concat ds).measure μ = (ds.map (measure μ)).sum := by
  induction ds with
  | nil => rfl
  | cons d ds ih =>
    rw [List.map_cons, List.sum_cons, ← ih]
    rfl

end Doc

/-- The items of a collection with light text between them. -/
theorem itemDocs_kept {sep : Doc} (hsep : sep.Sound) (hlight : sep.measure μ = 0)
    {items : List Bytes} (h : ∀ i ∈ items, valid i = true) :
    (∀ d ∈ itemDocs sep items, d.Sound) ∧
      ((itemDocs sep items).map (Doc.measure μ)).sum = μ.lines items := by
  fun_induction itemDocs sep items with
  | case1 => simp
  | case2 item => simpa [Doc.Sound, Doc.measure] using h
  | case3 item items hne ih =>
    simp only [List.forall_mem_cons] at h
    obtain ⟨hsound, hm⟩ := ih h.2
    have hcomma : ∀ b ∈ [Ascii.comma], Ascii.isLight b = true := single_light (by decide)
    constructor
    · simp only [List.forall_mem_cons]
      exact ⟨h.1, valid_of_light hcomma, hsep, hsound⟩
    · simp only [List.map_cons, List.sum_cons, hm, hlight, Doc.measure, μ.of_light hcomma,
        Measure.lines_cons, Nat.zero_add]

theorem collectionDoc_kept (o : Options) (head val tail : Bytes) {items : List Bytes}
    (hhead : valid (head ++ val.take 1) = true)
    (htail : valid (val.drop (val.length - 1) ++ tail) = true)
    (hitems : ∀ i ∈ items, valid i = true) :
    (collectionDoc o head val tail items).Sound ∧
      (collectionDoc o head val tail items).measure μ = μ.of (head ++ val.take 1) +
        μ.lines items + μ.of (val.drop (val.length - 1) ++ tail) := by
  have hbreak (a b : Doc) (ha : a.Sound ∧ a.measure μ = 0) (hb : b.Sound ∧ b.measure μ = 0)
      (force : Bool) : (if force then a else b).Sound ∧ (if force then a else b).measure μ = 0 := by
    cases force <;> assumption
  have hlast : (∀ d ∈ (if o.commaPolicy == .remove then [] else [Doc.ifBreak [Ascii.comma]]),
        d.Sound) ∧
      ((if o.commaPolicy == .remove then [] else [Doc.ifBreak [Ascii.comma]]).map
        (Doc.measure μ)).sum = 0 := by
    split
    · simp
    · refine ⟨?_, rfl⟩
      simp only [List.forall_mem_singleton, Doc.Sound]
      decide
  generalize hforce : (o.collectionPolicy == .multiline) = force
  have hsep := hbreak .line .softLine ⟨trivial, rfl⟩ ⟨trivial, rfl⟩ force
  have hedge := hbreak .line .softBreak ⟨trivial, rfl⟩ ⟨trivial, rfl⟩ force
  unfold collectionDoc
  simp only [hforce]
  generalize (if force then Doc.line else .softLine) = sep at hsep
  generalize (if force then Doc.line else .softBreak) = edge at hedge
  generalize (if o.commaPolicy == .remove then [] else [Doc.ifBreak [Ascii.comma]]) = last at hlast
  obtain ⟨hdocs, hdocsm⟩ := itemDocs_kept μ hsep.1 hsep.2 hitems
  have hsound : ∀ d ∈ edge :: itemDocs sep items ++ last, d.Sound := by
    intro d hd
    rcases List.mem_append.mp hd with hd | hd
    · rcases List.mem_cons.mp hd with rfl | hd
      · exact hedge.1
      · exact hdocs d hd
    · exact hlast.1 d hd
  have hsum : ((edge :: itemDocs sep items ++ last).map (Doc.measure μ)).sum = μ.lines items := by
    rw [List.map_append, List.sum_append, List.map_cons, List.sum_cons, hedge.2, hdocsm, hlast.2]
    omega
  have hdoc : (Doc.concat [.text (head ++ val.take 1),
        .indent (Doc.concat (edge :: itemDocs sep items ++ last)), edge,
        .text (val.drop (val.length - 1) ++ tail)]).Sound ∧
      (Doc.concat [.text (head ++ val.take 1),
        .indent (Doc.concat (edge :: itemDocs sep items ++ last)), edge,
        .text (val.drop (val.length - 1) ++ tail)]).measure μ = μ.of (head ++ val.take 1) +
          μ.lines items + μ.of (val.drop (val.length - 1) ++ tail) := by
    constructor
    · rw [Doc.sound_concat]
      simp only [List.forall_mem_cons, Doc.Sound, Doc.sound_concat]
      exact ⟨hhead, hsound, hedge.1, htail, by simp⟩
    · simp only [Doc.measure_concat, List.map_cons, List.map_nil, List.sum_cons, List.sum_nil,
        Doc.measure, hsum, hedge.2]
      omega
  cases force <;> exact hdoc

/-- The brackets around a collection. -/
def IsBrackets (a b : UInt8) : Prop :=
  a = Ascii.lbracket ∧ b = Ascii.rbracket ∨ a = Ascii.lbrace ∧ b = Ascii.rbrace

theorem IsBrackets.lt {a b : UInt8} (h : IsBrackets a b) : a < 0x80 ∧ b < 0x80 := by
  rcases h with ⟨rfl, rfl⟩ | ⟨rfl, rfl⟩ <;> decide

/-- A collection is its first bracket, what stands inside, and its last bracket. -/
theorem isCollection_eq {val : Bytes} (h : isCollection val = true) :
    ∃ a b inside, IsBrackets a b ∧ val = a :: (inside ++ [b]) := by
  unfold isCollection at h
  split at h
  · rename_i first x rest last hlast
    have hbrackets := (Bool.and_eq_true_iff.mp h).1
    refine ⟨first, last, (x :: rest).dropLast, ?_, ?_⟩
    · simp only [Bool.or_eq_true, Bool.and_eq_true, beq_iff_eq] at hbrackets
      exact hbrackets
    · rw [List.getLast?_cons_cons] at hlast
      obtain ⟨u, hu⟩ := List.getLast?_eq_some_iff.mp hlast
      rw [hu, List.dropLast_concat]
  · simp at h

theorem collectionItems_brackets (a b : UInt8) (inside : Bytes) :
    collectionItems (a :: (inside ++ [b])) = (parts inside).map (·.text) := by
  simp [collectionItems]

theorem drop_brackets (a b : UInt8) (inside : Bytes) :
    (a :: (inside ++ [b])).drop ((a :: (inside ++ [b])).length - 1) = [b] := by simp

/-- The page that is asked for when a collection is spread. -/
def collectionRequest (o : Options) (level : Int) : Doc.PageRequest where
  lineWidth := o.maxLineLength
  indent := o.indentUnit
  indentWidth := o.indentWidth 1
  baseIndent := Integer.wrap level

/-- How a text in brackets is spread: its document takes more than one line on a page. -/
structure IsSpread (o : Options) (level : Int) (head tail : Bytes) (a b : UInt8) (inside : Bytes)
    (page : Doc.Page) (ls : List Bytes) : Prop where
  brackets : IsBrackets a b
  items : parts inside ≠ []
  laid : (collectionRequest o level).page Width.ofText = .ok page
  lines : ls = Bytes.splitOn Ascii.newline (Doc.render Width.ofText page
    (collectionDoc o head (a :: (inside ++ [b])) tail ((parts inside).map (·.text))))
  many : 1 < ls.length

/-- A collection that is spread stands in brackets, without the blanks around it. -/
theorem expandCollection?_inv {head val tail : Bytes} {level : Int} {o : Options} {ls : List Bytes}
    (h : expandCollection? head val tail level o = some ls) :
    isCollection (Blank.trim val) = true ∧ ∃ a b inside page,
      Blank.trim val = a :: (inside ++ [b]) ∧ IsSpread o level head tail a b inside page ls := by
  unfold expandCollection? at h
  simp only at h
  generalize Blank.trim val = t at h
  split at h
  · exact nomatch h
  rename_i hcollection
  simp only [Bool.or_eq_true, Bool.not_eq_true', not_or, Bool.not_eq_false] at hcollection
  obtain ⟨a, b, inside, hbrackets, rfl⟩ := isCollection_eq hcollection.1
  rw [collectionItems_brackets] at h hcollection
  split at h
  · exact nomatch h
  rename_i page hpage
  split at h
  · rename_i hsplit
    refine ⟨hcollection.1, a, b, inside, page, rfl, hbrackets, ?_, hpage, (Option.some.inj h).symm,
      ?_⟩
    · simpa using hcollection.2
    · rw [← Option.some.inj h, hsplit]
      simp
  · exact nomatch h

/-- The breaks of a page are light, and its indentation is if the one asked for is. -/
theorem page_light {width : Bytes → Nat} {r : Doc.PageRequest} {p : Doc.Page}
    (h : r.page width = .ok p) (hindent : ∀ b ∈ r.indent, Ascii.isLight b = true) : p.Light := by
  have hyields := Doc.PageRequest.yields_page h
  constructor
  · intro b hb
    have hlight : ∀ b ∈ [Ascii.carriageReturn, Ascii.newline], Ascii.isLight b = true :=
      List.forall_mem_cons.mpr ⟨by decide, single_light (by decide)⟩
    rcases hyields.newline_eq with hnl | hnl
    · rw [hnl] at hb
      exact hlight b (List.mem_cons_of_mem _ hb)
    · rw [hnl] at hb
      exact hlight b hb
  · intro b hb
    rw [hyields.indent] at hb
    split at hb
    · exact spaces_light _ b hb
    · exact hindent b hb

/-- A collection with one item per line measures as much as it did, with what stands before and
after it. -/
theorem expandCollection?_kept {head val tail : Bytes} {level : Int} {o : Options}
    {ls : List Bytes} (hhead : valid head = true) (hval : valid val = true)
    (htail : ∀ b ∈ tail, Ascii.isLight b = true)
    (h : expandCollection? head val tail level o = some ls) :
    (∀ l ∈ ls, valid l = true) ∧ μ.lines ls = μ.of head + μ.of val := by
  have ht := Blank.valid_trim hval
  rw [← μ.of_trim val]
  obtain ⟨-, a, b, inside, page, hval, hspread⟩ := expandCollection?_inv h
  rw [hval] at ht ⊢
  obtain ⟨ha, hb⟩ := hspread.brackets.lt
  have hpage := page_light hspread.laid (indentUnit_light o)
  rw [Utf8.valid_cons_ascii ha] at ht
  obtain ⟨hinside, -⟩ := Utf8.valid_cut_cons hb ht
  have hlast := drop_brackets a b inside
  obtain ⟨hparts, hpartsm⟩ := parts_kept μ hinside
  have ha' : valid [a] = true := Utf8.valid_of_ascii (by simpa using ha)
  have hb' : valid [b] = true := Utf8.valid_of_ascii (by simpa using hb)
  have hitem : ∀ i ∈ (parts inside).map (·.text), valid i = true :=
    List.forall_mem_map.mpr fun p hp => (hparts p hp).1
  have hdoc := collectionDoc_kept μ o head (a :: (inside ++ [b])) tail
    (Utf8.valid_append_of_valid hhead ha')
    (by rw [hlast]; exact Utf8.valid_append_of_valid hb' (valid_of_light htail)) hitem
  rw [hspread.lines]
  generalize collectionDoc o head (a :: (inside ++ [b])) tail ((parts inside).map (·.text)) = doc
    at hdoc
  obtain ⟨hout, houtm⟩ := Doc.write_kept μ Width.ofText hpage
    (page.baseIndent * page.indentWidth) [⟨page.baseIndent, false, doc⟩]
    (List.forall_mem_singleton.mpr hdoc.1)
  have hrender := forall_mem_repeated hpage.indent page.baseIndent
  have hnewline : Ascii.isLight Ascii.newline = true := by decide
  refine ⟨Bytes.valid_splitOn (Ascii.lt_of_isLight hnewline) (valid_light_append hrender hout), ?_⟩
  rw [μ.lines_splitOn hnewline, Doc.render, μ.of_light_append hrender, houtm]
  simp only [List.map_cons, List.map_nil, List.sum_cons, List.sum_nil, hdoc.2, hlast,
    μ.of_append_light htail, List.take_succ_cons, List.take_zero, μ.of_append_valid _ ha',
    μ.of_cons ha, μ.of_cons hb, μ.of_append_cons hb, Measure.of_nil]
  unfold Measure.parts at hpartsm
  omega

/-! ## Values over several lines -/

theorem nestedFrom_kept (level : Int) (depth : Nat) {ls : List Bytes}
    (h : ∀ l ∈ ls, valid l = true) :
    (∀ p ∈ nestedFrom level depth ls, valid p.2 = true) ∧
      μ.lines ((nestedFrom level depth ls).map (·.2)) = μ.lines ls := by
  induction ls generalizing depth with
  | nil => simp [nestedFrom]
  | cons l ls ih =>
    rw [List.forall_mem_cons] at h
    obtain ⟨hv, hm⟩ := ih ((depth + nestingDelta (splitLineComment (Blank.trim l)).1).toNat) h.2
    unfold nestedFrom
    simp only [List.forall_mem_cons, List.map_cons, Measure.lines_cons, hm, μ.of_trim _]
    exact ⟨⟨Blank.valid_trim h.1, hv⟩, trivial⟩

/-- A value over several lines keeps its characters when its lines are indented. -/
theorem reindent_kept (o : Options) (level : Int) {val : Bytes} (h : valid val = true) :
    valid (val.takeWhile (· != Ascii.newline)) = true ∧
      (∀ l ∈ reindent o level val, valid l = true) ∧
      μ.of (val.takeWhile (· != Ascii.newline)) + μ.lines (reindent o level val) = μ.of val := by
  have hnewline : Ascii.isLight Ascii.newline = true := by decide
  have hlines := Bytes.valid_splitOn (Ascii.lt_of_isLight hnewline) h
  have hsum := μ.lines_splitOn hnewline val
  obtain ⟨more, hmore⟩ := Bytes.splitOn_eq_cons Ascii.newline val
  unfold reindent nested
  rw [hmore] at hlines hsum ⊢
  rw [List.forall_mem_cons] at hlines
  obtain ⟨hv, hm⟩ := nestedFrom_kept μ level (nestingDelta (splitLineComment (val.takeWhile
    (· != Ascii.newline))).1).toNat hlines.2
  refine ⟨hlines.1, ?_, ?_⟩
  · intro l hl
    obtain ⟨p, hp, rfl⟩ := List.mem_map.mp hl
    exact valid_light_append (indent_light o p.1) (hv p hp)
  · rw [← hsum, Measure.lines_cons, ← hm]
    congr 1
    simp only [Measure.lines, List.map_map, Function.comp_def,
      μ.of_light_append (indent_light o _)]

end ThriftLayout
