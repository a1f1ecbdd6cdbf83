import ThriftLayout.Formatter
import ThriftLayout.Proofs.Document.Derivations
import ThriftLayout.Proofs.Document.SingleLine
import ThriftLayout.Proofs.Layout.Conservation
import ThriftLayout.Proofs.Text.LineStarts
import ThriftLayout.Proofs.Text.Lines

/-!
# What formatting keeps of a content

The ink of a text is its characters without blanks and separators. Formatting moves ink but neither
invents nor loses any, with one exception: the equals sign of a field without a default, on a line
or in a body that holds several members, is dropped (`lostEquals`).

A line comment is moved with the code it stands behind, but its text is kept: in a content without
block comments the layout and the lexer find the same comments, as long as no slash stands outside
comments and literals. What is written for such a content shows the comments of its lines, each as
often as before. Code that holds a block comment may have the comment respaced with it, as if the
brackets in it were type arguments.

Constants need one thing more. On a line the type of a constant goes up to the first name with an
equals sign behind it, also where these stand inside a literal of the type; what is left of the
literal would be respaced as if it were code, and a line comment with it.

Results:

* `formatText_ink`: the ink of a formatted content, and when all of it is kept.
* `not_keepsMeaning_emptyMap`: a declaration that is read no more once it was formatted.
* `keepsComments_of_lineCommented`: the comments of a content with line comments only.
* `not_keepsComments_commentedTypedef`: a comment that is changed.
* `not_isStable_annotatedMember`: a formatted content that formatting changes again.
-/
namespace ThriftLayout.Formatter

open Utf8 (valid)

/-- The equals signs that are dropped when a content is laid out with normalized options. -/
def lostEquals (norm : Options) (content : Bytes) : Nat :=
  let body := dropMark content
  Layout.dropped (.ofDocument? (some (Document.parse [] body))) norm 0 (splitLines body)
    (.start norm)

theorem plain_of_mem {content : Bytes} (h : valid content = true)
    (hopener : Bytes.includes blockOpener content = false) :
    ∀ l ∈ splitLines content, Layout.Plain l := by
  intro l hl
  obtain ⟨hv, hsingle, a, b, hab⟩ := (splitLines_kept .zero h).1 l hl
  refine ⟨⟨hv, hsingle⟩, Bool.eq_false_iff.mpr fun hl => ?_⟩
  rw [hab, Bytes.includes_append a b hl] at hopener
  exact absurd hopener.symm Bool.false_ne_true

/-- The pass over a content with the declarations that are read from it. -/
def pass (norm : Options) (content : Bytes) : Layout.State :=
  let body := dropMark content
  Layout.run (.ofDocument? (some (Document.parse [] body))) norm 0 (splitLines body)

theorem prepare_eq {content : Bytes} {o norm : Options} (ho : o.normalize = .ok norm)
    (h : valid content = true) : prepare o content = .ok norm := by
  unfold prepare
  rw [ho]
  simp only [h]
  rfl

theorem mapError_ok {ε ε' α : Type} (g : ε → ε') (a : α) :
    (Except.ok a : Except ε α).mapError g = .ok a := rfl

/-- What becomes of a content once its options can be used. -/
theorem formatContent_eq {content : Bytes} {o norm : Options} (ho : o.normalize = .ok norm)
    (h : valid content = true) :
    builtin.formatContent content o =
      ((laidOut (pass norm content).lines).mapError
        (⟨·, (Document.parse [] (dropMark content)).diagnostics⟩)).map
          fun out => (some (Document.parse [] (dropMark content)), frontMark content ++ out) := by
  unfold formatContent
  rw [prepare_eq ho h]
  simp only [mapError_ok, document, builtin, ok_bind, mark_append]
  rfl

/-- A content that was laid out is valid, and its options can be used. -/
theorem prepared_of_formatContent {content out : Bytes} {o : Options} {doc : Option Document}
    (h : builtin.formatContent content o = .ok (doc, out)) :
    (∃ norm, o.normalize = .ok norm) ∧ valid content = true := by
  unfold formatContent at h
  obtain ⟨norm, hprepare, -⟩ := exists_of_bind_eq_ok h
  obtain ⟨norm, hnorm, hcheck⟩ := exists_of_bind_eq_ok (eq_ok_of_mapError hprepare)
  refine ⟨⟨norm, eq_ok_of_mapError hnorm⟩, ?_⟩
  by_contra hinvalid
  rw [Bool.not_eq_true] at hinvalid
  rw [hinvalid] at hcheck
  exact nomatch hcheck

/-- A content that is laid out without a fault is the lines of its pass. -/
theorem formatContent_out {content out : Bytes} {o norm : Options} {doc : Option Document}
    (ho : o.normalize = .ok norm) (h : valid content = true)
    (hout : builtin.formatContent content o = .ok (doc, out)) :
    out = frontMark content ++
      Bytes.join [Ascii.newline] ((pass norm content).written.map Bytes.trimRightTabs) := by
  rw [formatContent_eq ho h, Layout.State.lines] at hout
  cases hfault : (pass norm content).fault with
  | some f =>
    rw [hfault] at hout
    exact nomatch hout
  | none =>
    rw [hfault] at hout
    exact (Prod.mk.inj (Except.ok.inj hout)).2.symm

/-- A laid out content measures as much as the content, up to the equals signs that are lost. -/
theorem formatContent_kept (μ : Measure) {content out : Bytes} {o norm : Options}
    {doc : Option Document} (ho : o.normalize = .ok norm) (h : valid content = true)
    (hopener : Bytes.includes blockOpener content = false)
    (hout : builtin.formatContent content o = .ok (doc, out)) :
    μ.of out + lostEquals norm content * μ.byte Ascii.equals = μ.of content := by
  have hnewline : Ascii.isLight Ascii.newline = true := by decide
  obtain ⟨hbody, n, hcontent, hmark⟩ := dropMark_kept μ h
  have hbodyopener : Bytes.includes blockOpener (dropMark content) = false := by
    obtain ⟨a, ha⟩ := dropMark_suffix content
    refine Bool.eq_false_iff.mpr fun hincludes => ?_
    have hcontent := Bytes.includes_append a [] hincludes
    rw [List.append_nil, ← ha, hopener] at hcontent
    exact absurd hcontent Bool.false_ne_true
  obtain ⟨hrun, hrunm⟩ := Layout.run_kept μ (index_valid [] hbody)
    (Layout.plain_kept μ (o := norm)) 0 (plain_of_mem hbody hbodyopener)
  have hlines := (splitLines_kept μ hbody).2
  have htrim := (μ.lines_map fun l hl => trimRightTabs_kept μ (hrun l hl)).2
  rw [formatContent_out ho h hout, hmark, μ.of_join hnewline, hcontent]
  unfold pass lostEquals
  simp only
  rw [htrim]
  change _ + μ.lines _ + _ = _
  omega

/-- Formatting keeps the ink of a content, up to the equals signs that are lost; it keeps all of
the ink exactly when none is lost, or when the content is given back with a report. -/
theorem formatText_ink {content : Bytes} {o norm : Options} (ho : o.normalize = .ok norm)
    (h : valid content = true) (hopener : Bytes.includes blockOpener content = false) :
    ((builtin.formatText content o).reports = [] →
      (ink (builtin.formatText content o).output ++
        List.replicate (lostEquals norm content) '=').Perm (ink content)) ∧
    ((ink (builtin.formatText content o).output).Perm (ink content) ↔
      (builtin.formatText content o).reports ≠ [] ∨ lostEquals norm content = 0) := by
  cases hout : builtin.formatContent content o with
  | error e =>
    have htext : builtin.formatText content o =
        ⟨content, [⟨e.fault, utf8 "format", content.length⟩]⟩ := by
      rw [formatText, hout]
    rw [htext]
    simp
  | ok r =>
    obtain ⟨doc, out⟩ := r
    have htext : builtin.formatText content o = ⟨out, []⟩ := by
      rw [formatText, hout]
    rw [htext]
    have hperm := ink_perm fun μ => formatContent_kept μ ho h hopener hout
    refine ⟨fun _ => hperm, fun hkept => .inr ?_, fun hlost => ?_⟩
    · have hlength := hperm.length_eq
      rw [List.length_append, List.length_replicate, hkept.length_eq] at hlength
      omega
    · have hzero : lostEquals norm content = 0 := by simpa using hlost
      rwa [hzero, List.replicate_zero, List.append_nil] at hperm

/-- A struct whose first field has an equals sign and no default. -/
def bareEquals : Bytes := utf8 "struct S \x7b\n1: i32 a =, 2: i32 b\n\x7d\n"

/-- The struct is laid out with one equals sign less. -/
theorem formatText_ink_bareEquals :
    (builtin.formatText bareEquals .standard).reports = [] ∧ lostEquals .standard bareEquals = 1 ∧
    (ink (builtin.formatText bareEquals .standard).output ++ ['=']).Perm (ink bareEquals) := by
  have hreports : (builtin.formatText bareEquals .standard).reports = [] :=
    List.isEmpty_iff.mp (by decide +kernel)
  have hlost : lostEquals .standard bareEquals = 1 := by decide +kernel
  have hkept := (@formatText_ink bareEquals .standard .standard rfl (by decide +kernel)
    (by decide +kernel)).1 hreports
  rw [hlost] at hkept
  exact ⟨hreports, hlost, hkept⟩

/-- The equals sign of a field without a default is ink that goes missing. -/
theorem not_ink_perm_bareEquals :
    valid bareEquals = true ∧ Bytes.includes blockOpener bareEquals = false ∧
    ¬ (ink (builtin.formatText bareEquals .standard).output).Perm (ink bareEquals) := by
  decide +kernel

/-! ## Meaning -/

/-- A token without its place. -/
abbrev Word := TokenKind × Bytes

def words (s : Bytes) : List Word := (lex s).tokens.map fun t => (t.kind, t.text)

/-- The words of a value, without the separators of its items. -/
def valueWords (s : Bytes) : List Word :=
  (words s).filter fun w => w.1 != .mark .comma && w.1 != .mark .semi

/-- What a field means: its parts word by word, without its place and its separator. -/
structure FieldMeaning where
  id : Bytes
  qualifier : Bytes
  type : List Word
  name : Bytes
  default : List Word
  annot : List Word
  deriving DecidableEq

/-- What an enum member means. -/
structure MemberMeaning where
  name : Bytes
  value : List Word
  annot : List Word
  deriving DecidableEq

/-- What a function means. -/
structure FunctionMeaning where
  oneway : Bool
  returnType : List Word
  name : Bytes
  params : List FieldMeaning
  throws : List FieldMeaning
  annot : List Word
  deriving DecidableEq

/-- What a declaration means. -/
structure DeclMeaning where
  kind : DeclKind
  name : Bytes
  base : Bytes
  type : List Word
  value : List Word
  annot : List Word
  fields : List FieldMeaning
  members : List MemberMeaning
  functions : List FunctionMeaning
  deriving DecidableEq

def FieldMeaning.ofField (f : Field) : FieldMeaning :=
  ⟨f.id, f.qualifier, words f.type, f.name, valueWords f.default, words f.annot⟩

def MemberMeaning.ofMember (m : Member) : MemberMeaning :=
  ⟨m.name, valueWords m.value, words m.annot⟩

def FunctionMeaning.ofFunction (f : Function) : FunctionMeaning :=
  ⟨f.oneway, words f.returnType, f.name, f.params.map .ofField, f.throws.map .ofField,
    words f.annot⟩

def DeclMeaning.ofDecl (d : Decl) : DeclMeaning :=
  ⟨d.kind, d.name, d.base, words d.type, valueWords d.value, words d.annot,
    d.fields.map .ofField, d.members.map .ofMember, d.functions.map .ofFunction⟩

/-- What a content means, if it is read without a finding. -/
def meaning? (content : Bytes) : Option (List DeclMeaning) :=
  let doc := Document.parse [] content
  if doc.diagnostics.isEmpty then some (doc.body.map .ofDecl) else none

/-- Formatting keeps what a content means, if it means anything. -/
def KeepsMeaning (o : Options) (content : Bytes) : Prop :=
  ∀ m, meaning? content = some m → meaning? (builtin.formatText content o).output = some m

/-- A struct that starts on one line with a field whose default is an empty map. -/
def emptyMap : Bytes := utf8 "struct S \x7b 1: map<i32, i32> m = \x7b\x7d\n\x7d\n"

/-- The closing brace of the map is taken for the closing brace of the struct. -/
theorem not_keepsMeaning_emptyMap :
    valid emptyMap = true ∧ ¬ KeepsMeaning .standard emptyMap := by
  refine ⟨by decide +kernel, fun h => ?_⟩
  have hread : (meaning? emptyMap).isSome = true := by decide +kernel
  obtain ⟨m, hm⟩ := Option.isSome_iff_exists.mp hread
  have hlost : meaning? (builtin.formatText emptyMap .standard).output = none := by decide +kernel
  rw [h m hm] at hlost
  exact absurd hlost (Option.some_ne_none m)

/-! ## Comments -/

/-- The texts of the comments that lie on a single line, without the blanks around them. -/
def commentTexts (src : Bytes) : List Bytes :=
  (((lex src).comments.map (·.text)).filter fun t => !t.contains Ascii.newline).map Blank.trim

/-- Formatting keeps the comments of a content that can be read. -/
def KeepsComments (o : Options) (content : Bytes) : Prop :=
  (Document.parse [] content).diagnostics = [] →
    (commentTexts (builtin.formatText content o).output).Perm (commentTexts content)

/-- A content that is commented with line comments only, has no slash outside comments and literals,
and no constant whose type the layout would end inside a literal. -/
structure LineCommented (content : Bytes) : Prop where
  comments : ∀ c ∈ (lex content).comments, c.kind = .line ∨ c.kind = .hash
  slashes : ∀ t ∈ (lex content).tokens, t.kind ≠ .mark .slash
  types : ∀ l ∈ splitLines content,
    Pattern.cutsLiteral (Blank.trim (splitLineComment l).1) = false

theorem commentTexts_eq {content : Bytes} (h : Legible content) :
    commentTexts content = commentsIn content := notes_lex h

/-- A source without faults has no byte order mark. -/
theorem dropMark_of_faults {content : Bytes} (h : (lex content).faults = []) :
    frontMark content = [] ∧ dropMark content = content := by
  have hnone : byteOrderMark.isPrefixOf content = false := by
    refine Bool.eq_false_iff.mpr fun hprefix => ?_
    obtain ⟨t, rfl⟩ := List.isPrefixOf_iff_prefix.mp hprefix
    have hclassified := Lexer.classified 0xEF (0xBB :: 0xBF :: t)
    have hpieces := Lexer.pieces_cons 0xEF (0xBB :: 0xBF :: t)
    rw [lex, byteOrderMark, List.cons_append, List.cons_append, List.cons_append, List.nil_append,
      hpieces, Lexer.place] at h
    generalize Lexer.classify 0xEF (0xBB :: 0xBF :: t) = r at hclassified h
    cases hclassified with
    | unsupported | invalid => exact absurd h (List.cons_ne_nil _ _)
    | blank hb | hash hb | line hb | block hb | openBlock hb | keyword hb | identifier hb
    | number hb | string hb | openString hb | mark _ hb | unknown _ _ _ hb =>
      exact absurd hb (by decide)
  rw [frontMark, dropMark, Bytes.after?, hnone]
  exact ⟨rfl, rfl⟩

/-- The lines of a legible content are clear for the layout. -/
theorem clear_splitLines {content : Bytes} (hvalid : valid content = true)
    (h : LineCommented content) (hlegible : Legible content) :
    ∀ l ∈ splitLines content, Layout.Clear l := by
  intro l hl
  obtain ⟨hl', hsingle, -⟩ := (splitLines_kept .zero hvalid).1 l hl
  exact ⟨⟨hl', hsingle, (splitLines_legible hlegible).1 l hl⟩, h.types l hl⟩

/-- Formatting keeps the line comments of a content that has no others: the output has the same
comments by their texts, as often as they were there. With block comments this is false, since their
lines are laid out anew. -/
theorem keepsComments_of_lineCommented {content : Bytes} (o : Options)
    (h : LineCommented content) : KeepsComments o content := by
  intro hread
  have hfaults := ((diagnostics_eq_nil_iff [] content).mp hread).1
  have hlegible := legible_of_lex hfaults h.comments h.slashes
  obtain ⟨hfront, hbody⟩ := dropMark_of_faults hfaults
  unfold formatText
  cases hout : builtin.formatContent content o with
  | error e => exact .refl _
  | ok r =>
    obtain ⟨doc, out⟩ := r
    obtain ⟨⟨norm, ho⟩, hvalid⟩ := prepared_of_formatContent hout
    have hclear := clear_splitLines hvalid h hlegible
    obtain ⟨hwritten, hperm⟩ := Layout.run_comments (o := norm) (index_coded [] hlegible) 0 hclear
    have hsource : (splitLines content).flatMap commentsIn = commentsIn content := by
      rw [Layout.flatMap_commentsIn fun l hl => (hclear l hl).line]
      exact (splitLines_legible hlegible).2
    rw [hsource] at hperm
    have hshows := Shows.trimRightTabs ⟨hwritten, rfl⟩
    have hjoin := hshows.join
    have hlegibleOut := hjoin.legible _ List.mem_cons_self
    have hcomments := hjoin.comments
    rw [List.flatMap_singleton] at hcomments
    rw [formatContent_out ho hvalid hout, hfront, List.nil_append, pass]
    simp only [hbody]
    rwa [commentTexts_eq hlegibleOut, commentTexts_eq hlegible, hcomments]

/-- Comments of both kinds behind code that has their marks in a literal. -/
def commentedField : Bytes := utf8 "struct S\x7b\n1:string a=\"//#\"//\"a\n\x7d   # < b >"

/-- Both comments are moved. -/
theorem keepsComments_commentedField :
    LineCommented commentedField ∧ (Document.parse [] commentedField).diagnostics = [] ∧
      (builtin.formatText commentedField .standard).output ≠ commentedField ∧
      (commentTexts (builtin.formatText commentedField .standard).output).Perm
        [utf8 "//\"a", utf8 "# < b >"] := by
  have hcommented : LineCommented commentedField :=
    ⟨by decide +kernel, by decide +kernel, by decide +kernel⟩
  have hread : (Document.parse [] commentedField).diagnostics = [] :=
    List.isEmpty_iff.mp (by decide +kernel)
  have htexts : commentTexts commentedField = [utf8 "//\"a", utf8 "# < b >"] := by decide +kernel
  have hkept := keepsComments_of_lineCommented .standard hcommented hread
  rw [htexts] at hkept
  exact ⟨hcommented, hread, by decide +kernel, hkept⟩

/-- A typedef with a comment between its type and its name. -/
def commentedTypedef : Bytes := utf8 "typedef list<i32> /* a < b */ T\n"

/-- The comment is respaced as if it were part of the type. -/
theorem not_keepsComments_commentedTypedef :
    valid commentedTypedef = true ∧ ¬ KeepsComments .standard commentedTypedef := by
  refine ⟨by decide +kernel, fun h => ?_⟩
  have hkept := h (List.isEmpty_iff.mp (by decide +kernel))
  have hsource : commentTexts commentedTypedef = [utf8 "/* a < b */"] := by decide +kernel
  have houtput : commentTexts (builtin.formatText commentedTypedef .standard).output =
      [utf8 "/* a<b */"] := by decide +kernel
  rw [hsource, houtput, List.perm_singleton] at hkept
  exact absurd hkept (by decide)

/-! ## Formatting twice -/

def IsStable (o : Options) (content : Bytes) : Prop :=
  (builtin.formatText content o).output = content

/-- An enum that starts on one line with an annotated member. -/
def annotatedMember : Bytes := utf8 "enum E \x7b A(x) // a\n\x7d\n"

/-- Only the second time is the annotation set apart from the name. -/
theorem not_isStable_annotatedMember :
    valid annotatedMember = true ∧
    ¬ IsStable .standard (builtin.formatText annotatedMember .standard).output := by
  unfold IsStable
  decide +kernel

end ThriftLayout.Formatter
