import ThriftLayout.Document
import ThriftLayout.Proofs.Document.Reading

/-!
# What the grammar accepts

Each step of the grammar reads the phrases of its construct. So a source is read without a fault
exactly when its tokens are derived from the grammar.

Results:

* `Grammar.reads_declaration`: one declaration.
* `diagnostics_eq_nil_iff`: the sources that are read without a diagnostic.
-/
namespace ThriftLayout

open Computability Parse
open Phrase (one mark keyword)

namespace Grammar

/-! ## Parts of declarations -/

theorem reads_separator : separator.Reads (Phrase.optional Phrase.separator)
    ⟨[.mark .comma, .mark .semi], true, [.mark .comma, .mark .semi]⟩ where
  fits := by
    refine ⟨?_, nofun⟩
    rintro _ (rfl | ⟨t, rfl, ht⟩ | ⟨t, rfl, ht⟩) u hu
    · exact nomatch hu
    · simp [← Option.some.inj hu, ht]
    · simp [← Option.some.inj hu, ht]
  readsAt c hc := by
    refine readsAt_of_tries (.inl (separator_goes hc)) fun ts rest hts hrest hshuns => ?_
    exact separator_of_mem hc hts hrest hshuns

theorem reads_value : Parse.Reads value Phrase.value ⟨valueHeads, false, []⟩ where
  fits := by
    refine ⟨fun ts hts t ht => ?_, fun _ hnil => ne_nil_of_value hnil rfl⟩
    obtain ⟨u, us, rfl, hu⟩ := exists_head_of_value hts
    rwa [← Option.some.inj ht]
  readsAt c hc := readsAt_of_tries (tries_value hc) fun ts rest hts hrest _ =>
    takes_value hts c rest hc hrest

theorem reads_valueText : valueText.Reads Phrase.value ⟨valueHeads, false, []⟩ :=
  ((reads_view Cursor.peek).andThen fun _ => reads_value.andThen fun _ => reads_view _).as
    (by decide) (by rw [one_mul, mul_one])

/-- The arguments of a type, if an angle bracket follows. -/
theorem reads_arguments (first : Token) : Parse.Reads
    (view (·.sees (.mark .langle)) >>= fun angle =>
      if angle then typeArguments 0 >>= fun _ => view (·.rawFrom first)
      else view (·.rawFrom first))
    (1 + Phrase.arguments) ⟨[.mark .langle], true, [.mark .langle]⟩ := by
  have hraw := reads_view (·.rawFrom first)
  have hgroup : ∀ c : Cursor, c.eof.kind = .eof → c.sees (.mark .langle) = true →
      (typeArguments 0 >>= fun _ => view (·.rawFrom first) : Parse Bytes).ReadsAt c
        Phrase.arguments [] := by
    intro c hc hsees
    have htaken : ReadsAt (typeArguments 0) c Phrase.arguments [] :=
      readsAt_of_tries (tries_typeArguments hsees hc) fun ts rest hts hrest _ => by
        obtain ⟨d, hd⟩ := typeArguments_of_mem hts hrest
        exact ⟨(), d, hd⟩
    simpa [Shape.nothing] using htaken.bind hc nofun fun _ => hraw
  refine (Reads.choice (s := .nothing) [.mark .langle] (fun t => t.kind == .mark .langle) (by simp)
    (fun c hc hsees => (hgroup c hc hsees).of_eq ?_)
    (fun c hc hsees => (hraw.readsAt c hc).of_eq ?_) ?_ hraw.fits (by decide)).as (by decide) rfl
  · show (if c.sees (.mark .langle) then _ else view (·.rawFrom first)) c = _
    rw [Cursor.sees, if_pos hsees]
  · show (if c.sees (.mark .langle) then _ else view (·.rawFrom first)) c = _
    rw [Cursor.sees, if_neg (Bool.eq_false_iff.mp hsees)]
  · rintro _ ⟨_, ⟨_, ⟨t, rfl, ht⟩, _, -, rfl⟩, _, -, rfl⟩
    exact ⟨t, _, rfl, by simpa using ht⟩

theorem reads_typeRef : typeRef.Reads Phrase.type ⟨[.identifier], false, [.mark .langle]⟩ :=
  ((reads_expect (by decide) _).andThen reads_arguments).as (by decide) rfl

theorem reads_annotEntry : annotEntry.Reads
    (one .identifier * Phrase.optional (mark .equal * Phrase.value) *
      Phrase.optional Phrase.separator)
    ⟨[.identifier], false, [.mark .equal, .mark .comma, .mark .semi]⟩ := by
  unfold annotEntry
  have hrest : Parse.Reads (do let _ ← separator) _ _ :=
    reads_separator.bind (by decide) fun _ => reads_pure ()
  refine ((reads_expect (by decide) _).andThen fun _ => Reads.accept (by decide)
    (reads_value.andThen fun _ => hrest) hrest).as (by decide) ?_
  simp only [Phrase.optional_mul, mark, mul_add, mul_one, mul_assoc]

theorem reads_annots : annots.Reads (Phrase.optional Phrase.annotations)
    ⟨[.mark .lparen], true, [.mark .lparen]⟩ := by
  unfold annots
  have hentries : Parse.Reads (untilMark .rparen annotEntry) _ _ :=
    reads_annotEntry.untilMark rfl (by decide) (by decide)
  refine Reads.as ((reads_view Cursor.peek).andThen fun _ => Reads.accept (by decide)
    (hentries.andThen fun _ => reads_view _) (reads_pure _)) (by decide) ?_
  simp only [Phrase.optional, Phrase.annotations, mark, one_mul, mul_one, mul_assoc]

/-- The number of a field and its colon, behind its first token. -/
theorem reads_numberColon (first : Token) : Parse.Reads (do
    let _ ← accept (.mark .minus)
    let _ ← expect .int (utf8 "field id")
    let id ← view (·.rawFrom first)
    let _ ← expect (.mark .colon) (utf8 "':'")
    return id) (Phrase.number * mark .colon) ⟨[.mark .minus, .int], false, []⟩ := by
  have hrest : Parse.Reads (do
      let _ ← expect .int (utf8 "field id")
      let id ← view (·.rawFrom first)
      let _ ← expect (.mark .colon) (utf8 "':'")
      return id) _ _ :=
    (reads_expect (by decide) _).andThen fun _ => (reads_view _).andThen fun id =>
      (reads_expect (by decide) _).andThen fun _ => reads_pure id
  refine (Reads.accept (by decide) hrest hrest).as (by decide) ?_
  simp only [Phrase.number, mark, one_mul, mul_one, mul_assoc]
  rw [Phrase.optional_mul]

theorem reads_fieldId : fieldId.Reads (Phrase.optional (Phrase.number * mark .colon))
    ⟨[.int, .mark .minus], true, [.int, .mark .minus]⟩ := by
  refine (Reads.ifPeek (p := fun t => t.kind == .int || t.kind == .mark .minus)
    [.int, .mark .minus] (by simp) (by decide)
    (fun c hc _ => (reads_numberColon c.peek).readsAt c hc) (fun _ => reads_pure [])
    fun ts hts => ?_).as (by decide) rfl
  obtain ⟨t, us, rfl, ht⟩ := (reads_numberColon ⟨.eof, [], 0, 0⟩).fits.exists_head rfl hts
  exact ⟨t, us, rfl, by simpa [or_comm] using ht⟩

theorem such_or (k k' : TokenKind) :
    Phrase.such (fun t => t.kind == k || t.kind == k') = one k + one k' := by
  ext ts
  constructor
  · rintro ⟨t, rfl, ht⟩
    exact ((Bool.or_eq_true _ _).mp ht).imp (fun h => ⟨t, rfl, eq_of_beq h⟩)
      fun h => ⟨t, rfl, eq_of_beq h⟩
  · rintro (⟨t, rfl, ht⟩ | ⟨t, rfl, ht⟩) <;> exact ⟨t, rfl, by simp [ht]⟩

theorem reads_qualifier :
    qualifier.Reads (Phrase.optional (keyword .required + keyword .optional))
      ⟨[.keyword .required, .keyword .optional], true, [.keyword .required, .keyword .optional]⟩ :=
  (Reads.ifTaken [.keyword .required, .keyword .optional] (by simp) (by decide)
    (fun _ => reads_pure _) fun _ => reads_pure []).as (by decide) (by rw [mul_one, such_or]; rfl)

theorem reads_memberValue : memberValue.Reads Phrase.number ⟨[.mark .minus, .int], false, []⟩ := by
  have hrest : ∀ first : Token, Parse.Reads (do
      let _ ← expect .int (utf8 "enum value")
      view (·.rawFrom first)) _ _ :=
    fun first => (reads_expect (by decide) _).andThen fun _ => reads_view _
  unfold memberValue
  refine ((reads_view Cursor.peek).andThen fun first =>
    Reads.accept (by decide) (hrest first) (hrest first)).as (by decide) ?_
  simp only [Phrase.number, Phrase.optional_mul, mark, one_mul, mul_one]

theorem reads_enumEntry : enumEntry.Reads
    (one .identifier * Phrase.optional (mark .equal * Phrase.number))
    ⟨[.identifier], false, [.mark .equal]⟩ := by
  unfold enumEntry
  refine Reads.as ((reads_expect (by decide) _).andThen fun _ => Reads.accept (by decide)
    (reads_memberValue.andThen fun _ => reads_pure _) (reads_pure _)) (by decide) ?_
  simp only [Phrase.optional, mark, mul_one]

theorem reads_senumEntry : senumEntry.Reads (one .string) ⟨[.string], false, []⟩ :=
  ((reads_expect (by decide) _).andThen fun _ => reads_pure _).as (by decide) (by rw [mul_one])

/-! ## Members -/

def memberEnd : List TokenKind := [.mark .lparen, .mark .comma, .mark .semi]

section Endings

variable {α : Type} (first : Token)

/-- A separator ends a construct, and then its region is known. -/
theorem reads_ending (make : Bytes → Region → α) : Parse.Reads (do
    let sep ← separator
    let region ← view (·.regionFrom first)
    return make sep region) (Phrase.optional Phrase.separator)
    ⟨[.mark .comma, .mark .semi], true, [.mark .comma, .mark .semi]⟩ :=
  (reads_separator.bind (by decide) fun _ => (reads_view _).andThen fun _ => reads_pure _).as
    (by decide) (by rw [mul_one, mul_one])

theorem reads_annotatedEnding (make : Bytes → Bytes → Region → α) : Parse.Reads (do
    let annot ← annots
    let sep ← separator
    let region ← view (·.regionFrom first)
    return make annot sep region)
    (Phrase.optional Phrase.annotations * Phrase.optional Phrase.separator)
    ⟨memberEnd, true, memberEnd⟩ :=
  (reads_annots.bind (by decide) fun annot => reads_ending first (make annot)).as (by decide) rfl

end Endings

theorem reads_field : field.Reads Phrase.field
    ⟨[.int, .mark .minus, .keyword .required, .keyword .optional, .identifier], false,
      .mark .equal :: memberEnd⟩ := by
  unfold field
  refine ((reads_view Cursor.peek).andThen fun first =>
    reads_fieldId.bind (by decide) fun id =>
    reads_qualifier.bind (by decide) fun qual =>
    reads_typeRef.bind (by decide) fun type =>
    (reads_expect (by decide) _).andThen fun name => Reads.accept (by decide)
      (reads_valueText.andThen fun default => reads_annotatedEnding first _)
      (reads_annotatedEnding first _)).as (by decide) ?_
  simp only [Phrase.field, mark, one_mul, mul_assoc]
  simp only [Phrase.optional_mul, mul_assoc]

/-- A member of an enum or senum, by what its name and number are. -/
theorem reads_member {entry : Parse (Bytes × Bytes)} {l : Language Token} {hs ks : List TokenKind}
    (hentry : entry.Reads l ⟨hs, false, ks⟩) (hks : ∀ k ∈ ks, k ∉ memberEnd) :
    (member entry).Reads (l * Phrase.optional Phrase.annotations *
      Phrase.optional Phrase.separator) ⟨hs, false, ks ++ memberEnd⟩ := by
  unfold member
  refine ((reads_view Cursor.peek).andThen fun first =>
    hentry.bind hks fun ⟨name, number⟩ => reads_annotatedEnding first _).as ?_ ?_
  · exact ⟨List.Subset.refl _, fun _ => rfl, List.Subset.refl _⟩
  · simp only [one_mul, mul_assoc]

theorem reads_enumMember : (member enumEntry).Reads Phrase.enumMember
    ⟨[.identifier], false, .mark .equal :: memberEnd⟩ := reads_member reads_enumEntry (by decide)

theorem reads_senumMember : (member senumEntry).Reads Phrase.senumMember
    ⟨[.string], false, memberEnd⟩ := reads_member reads_senumEntry nofun

theorem reads_params : params.Reads Phrase.params ⟨[.mark .lparen], false, []⟩ :=
  ((reads_expect (by decide) _).andThen fun _ =>
    reads_field.untilMark rfl (by decide) (by decide)).as (by decide)
    (by rw [Phrase.params, mul_assoc]; rfl)

theorem reads_function : function.Reads Phrase.function
    ⟨[.keyword .oneway, .keyword .async, .identifier], false,
      .keyword .throws :: memberEnd⟩ := by
  unfold function
  refine ((reads_view Cursor.peek).andThen fun first =>
    (?_ : Parse.Reads _ Phrase.function ⟨[.keyword .oneway, .keyword .async, .identifier], false,
      .keyword .throws :: memberEnd⟩)).as (by decide) (by rw [one_mul])
  extract_lets rest
  have hrest : ∀ oneway : Bool, (rest oneway).Reads
      (Phrase.type * (one .identifier * (Phrase.params *
        (Phrase.optional (keyword .throws * Phrase.params) *
          (Phrase.optional Phrase.annotations * Phrase.optional Phrase.separator)))))
      ⟨[.identifier], false, .keyword .throws :: memberEnd⟩ := by
    intro oneway
    refine (reads_typeRef.bind (by decide) fun returnType =>
      (reads_expect (by decide) _).andThen fun name =>
      reads_params.andThen fun ps => Reads.accept (by decide)
        (reads_params.andThen fun throws => reads_annotatedEnding first _)
        (reads_annotatedEnding first _)).as (by decide) ?_
    simp only [Phrase.optional_mul, keyword, mul_assoc]
  refine Reads.as (Reads.accept (by decide) (hrest true)
    (Reads.accept (by decide) (hrest true) (hrest false))) (by decide) ?_
  simp only [Phrase.function, mul_assoc]
  rw [Phrase.optional_mul, add_mul, add_comm (keyword .oneway * _), ← add_assoc]
  rfl

/-! ## Declarations -/

/-- The header of a block ends with a brace that opens it. -/
theorem reads_header (what : Bytes) :
    (header what).Reads Phrase.header ⟨[.identifier], false, []⟩ := by
  have hxsd : Phrase.such (fun t => t.kind == .identifier && t.text == utf8 "xsd_all") =
      Phrase.xsdAll := by
    ext ts
    simp only [Phrase.such, Phrase.xsdAll, Bool.and_eq_true, beq_iff_eq]
  unfold header
  refine ((reads_expect (by decide) _).andThen fun name =>
    (?_ : Parse.Reads _ (Phrase.optional (keyword .extendsBase * one .identifier) *
      (Phrase.optional Phrase.xsdAll * mark .lbrace))
      ⟨[.keyword .extendsBase, .identifier, .mark .lbrace], false, []⟩)).as (by decide) ?_
  · extract_lets rest
    have hbrace : ∀ brace base : Bytes, Parse.Reads (do
        let _ ← expect (.mark .lbrace) brace
        return (name.text, base)) _ _ := fun brace base =>
      (reads_expect (by decide) brace).andThen fun _ => reads_pure _
    have hrest : ∀ base : Bytes, (rest base).Reads (Phrase.optional Phrase.xsdAll * mark .lbrace)
        ⟨[.identifier, .mark .lbrace], false, []⟩ := by
      intro base
      refine (Reads.ifTaken [.identifier] (by simp +contextual) (by decide)
        (fun _ => hbrace _ base) fun _ => hbrace _ base).as (by decide) ?_
      rw [hxsd, Phrase.optional_mul, mul_one]
      rfl
    refine (Reads.accept (by decide) ((reads_expect (by decide) _).andThen fun base =>
      hrest base.text) (hrest [])).as (by decide) ?_
    rw [Phrase.optional_mul, mul_assoc]
    rfl
  · simp only [Phrase.header, mul_assoc]

theorem reads_finalAnnots : finalAnnots.Reads (Phrase.optional Phrase.annotations)
    ⟨[.mark .lparen], true, [.mark .lparen]⟩ where
  fits := reads_annots.fits
  readsAt c hc := by
    obtain ⟨hsound, hcomplete⟩ := reads_annots.readsAt c hc
    constructor
    · obtain ⟨ts, fs, hgoes, hread⟩ := hsound
      exact ⟨ts, fs, hgoes, fun hfs => ⟨rfl, (hread hfs).2⟩⟩
    · intro ts rest hts hrest hshuns
      obtain ⟨a, d, hrun, hgoes⟩ := hcomplete ts rest hts hrest hshuns
      exact ⟨a, d, by rw [finalAnnots, hrun]; rfl, hgoes⟩

section Opened

variable {c : Cursor} (hc : c.eof.kind = .eof) {k : Keyword} (hk : c.peek.kind = .keyword k)
include hc hk

/-- A reserved word that the grammar has looked at, and what follows it. -/
theorem readsAt_word {α : Type} {f : Token → Parse α} {l : Language Token} {s : Shape}
    (hf : ∀ t, (f t).Reads l s) : (next >>= f).ReadsAt c (keyword k * l) s.shuns := by
  have hnext : next.ReadsAt c (Phrase.such fun t => t.kind == .keyword k) [] :=
    readsAt_next [.keyword k] (by simp) (by simp) hc (by rw [hk]; exact beq_self_eq_true _)
  have hsuch : Phrase.such (fun t => t.kind == .keyword k) = keyword k := by
    ext ts
    simp only [Phrase.such, beq_iff_eq]
    rfl
  exact (hnext.bind hc (List.forall_mem_nil _) hf).as (by rw [hsuch]) (by split <;> simp)

theorem readsAt_includeDecl (kind : DeclKind) :
    (includeDecl kind).ReadsAt c (Phrase.includeDecl k) memberEnd :=
  (readsAt_word hc hk fun first =>
    (reads_expect (by decide) _).andThen fun path => reads_ending first _).as
    (by simp only [Phrase.includeDecl, mul_assoc]) (by decide)

theorem readsAt_namespaceDecl (hnamespace : k = .namespaceName) :
    namespaceDecl.ReadsAt c Phrase.namespaceDecl memberEnd := by
  subst hnamespace
  have hscope : namespaceScope.Reads (one .identifier + mark .star)
      ⟨[.identifier, .mark .star], false, []⟩ := by
    refine (Reads.ifPeek (l := one .identifier + mark .star) (s := .nothing)
      [.identifier, .mark .star] (by simp) (by decide) (fun c hc hscope => ?_)
      (fun t => reads_fail _ t) ?_).as (by decide) (by rw [zero_add])
    · exact (readsAt_next [.identifier, .mark .star] (by simp) (by simp) hc hscope).as
        (such_or _ _).symm (List.Subset.refl _)
    · rw [mark, ← such_or]
      rintro _ ⟨t, rfl, ht⟩
      exact ⟨t, [], rfl, ht⟩
  exact (readsAt_word hc hk fun first => hscope.andThen fun scope =>
    (reads_expect (by decide) _).andThen fun name => reads_annotatedEnding first _).as
    (by simp only [Phrase.namespaceDecl, mul_assoc]) (by decide)

theorem readsAt_typedefDecl (htypedef : k = .typedef) :
    typedefDecl.ReadsAt c Phrase.typedefDecl memberEnd := by
  subst htypedef
  exact (readsAt_word hc hk fun first => reads_typeRef.bind (by decide) fun type =>
    (reads_expect (by decide) _).andThen fun name => reads_annotatedEnding first _).as
    (by simp only [Phrase.typedefDecl, mul_assoc]) (by decide)

theorem readsAt_constDecl (hconst : k = .const) :
    constDecl.ReadsAt c Phrase.constDecl memberEnd := by
  subst hconst
  exact (readsAt_word hc hk fun first => reads_typeRef.bind (by decide) fun type =>
    (reads_expect (by decide) _).andThen fun name => (reads_expect (by decide) _).andThen fun _ =>
    reads_valueText.andThen fun val => reads_ending first _).as
    (by simp only [Phrase.constDecl, mark, mul_assoc]) (by decide)

theorem readsAt_bodyDecl {α : Type} (kind : DeclKind) (what : Bytes) (wrap : List α → DeclBody)
    {item : Parse α} {l : Language Token} {s : Shape} (hitem : item.Reads l s)
    (hempty : s.empty = false) (hbrace : .mark .rbrace ∉ s.heads)
    (hdefinition : ∀ k ∈ s.heads, k.isDefinition = false)
    (hshuns : ∀ k ∈ s.shuns, k ∉ .mark .rbrace :: s.heads) :
    (bodyDecl kind what item wrap).ReadsAt c (Phrase.block k l) memberEnd := by
  have hbody := hitem.body hempty hbrace hdefinition hshuns
  exact (readsAt_word hc hk fun first => (reads_header what).orSkip.andThen fun ⟨name, base⟩ =>
    (hbody first).andThen fun items => reads_finalAnnots.bind (by decide) fun annot =>
    reads_ending first _).as (by simp only [Phrase.block, mul_assoc])
    (by simp [Shape.andThen, memberEnd])

end Opened

theorem head_of_declaration {k : Keyword} {ts : List Token} (h : ts ∈ Phrase.declarationOf k) :
    ∃ t us, ts = t :: us ∧ t.kind = .keyword k ∧ k.isDefinition = true := by
  have hword : ∀ {l : Language Token}, ts ∈ keyword k * l →
      ∃ t us, ts = t :: us ∧ t.kind = .keyword k := by
    rintro l ⟨_, ⟨t, rfl, ht⟩, us, -, rfl⟩
    exact ⟨t, us, rfl, ht⟩
  cases k <;> simp only [Phrase.declarationOf, Phrase.includeDecl, Phrase.namespaceDecl,
    Phrase.typedefDecl, Phrase.constDecl, Phrase.block, mul_assoc] at h
  case extendsBase | oneway | async | throws | required | optional =>
    exact absurd h (Language.notMem_zero _)
  all_goals
    obtain ⟨t, us, hts, ht⟩ := hword h
    exact ⟨t, us, hts, ht, rfl⟩

/-- The words that start declarations. -/
def definitions : List TokenKind := (Keyword.all.filter Keyword.isDefinition).map .keyword

theorem fits_declaration : (Shape.mk definitions false memberEnd).Fits Phrase.declaration where
  heads := by
    rintro ts ⟨k, hts⟩ u hu
    obtain ⟨t, us, rfl, ht, hk⟩ := head_of_declaration hts
    rw [← Option.some.inj hu, ht]
    cases k <;> first | exact absurd hk (by decide) | decide
  nonempty := by
    rintro - ⟨k, hnil⟩
    obtain ⟨t, us, ht, -⟩ := head_of_declaration hnil
    exact nomatch ht

/-- Where a declaration starts, its reserved word decides what it is. -/
theorem readsAt_declaration {c : Cursor} {k : Keyword} (hk : c.peek.kind = .keyword k)
    {m : Parse Decl} (hm : m.ReadsAt c (Phrase.declarationOf k) memberEnd) (hrun : decl c = m c) :
    decl.ReadsAt c Phrase.declaration memberEnd where
  sound := by
    obtain ⟨ts, fs, hgoes, hread⟩ := hm.sound
    rw [hrun]
    exact ⟨ts, fs, hgoes, fun hfs => ⟨(hread hfs).1, k, (hread hfs).2⟩⟩
  complete := by
    rintro ts rest ⟨k', hts⟩ hrest hshuns
    obtain ⟨t, us, rfl, ht, -⟩ := head_of_declaration hts
    rw [Cursor.peek_of_cons hrest, ht] at hk
    obtain rfl := TokenKind.keyword.inj hk
    rw [hrun]
    exact hm.complete _ rest hts hrest hshuns

theorem reads_declaration : decl.Reads Phrase.declaration ⟨definitions, false, memberEnd⟩ where
  fits := fits_declaration
  readsAt c hc := by
    have hrun := decl.eq_def c
    split at hrun
    · rename_i hk
      exact readsAt_declaration hk (readsAt_includeDecl hc hk _).orSkip hrun
    · rename_i hk
      exact readsAt_declaration hk (readsAt_includeDecl hc hk _).orSkip hrun
    · rename_i hk
      exact readsAt_declaration hk (readsAt_namespaceDecl hc hk rfl).orSkip hrun
    · rename_i hk
      exact readsAt_declaration hk (readsAt_typedefDecl hc hk rfl).orSkip hrun
    · rename_i hk
      exact readsAt_declaration hk (readsAt_constDecl hc hk rfl).orSkip hrun
    · rename_i hk
      exact readsAt_declaration hk (readsAt_bodyDecl hc hk _ _ _ reads_enumMember rfl (by decide)
        (by decide) (by decide)) hrun
    · rename_i hk
      exact readsAt_declaration hk (readsAt_bodyDecl hc hk _ _ _ reads_senumMember rfl (by decide)
        (by decide) (by decide)) hrun
    · rename_i hk
      exact readsAt_declaration hk (readsAt_bodyDecl hc hk _ _ _ reads_field rfl (by decide)
        (by decide) (by decide)) hrun
    · rename_i hk
      exact readsAt_declaration hk (readsAt_bodyDecl hc hk _ _ _ reads_field rfl (by decide)
        (by decide) (by decide)) hrun
    · rename_i hk
      exact readsAt_declaration hk (readsAt_bodyDecl hc hk _ _ _ reads_field rfl (by decide)
        (by decide) (by decide)) hrun
    · rename_i hk
      exact readsAt_declaration hk (readsAt_bodyDecl hc hk _ _ _ reads_function rfl (by decide)
        (by decide) (by decide)) hrun
    · -- No declaration starts here, and one is missed.
      constructor
      case sound =>
        obtain ⟨ts, hts⟩ := c.exists_goes_advance
        have hfail : stray c = (none, c.advance.report (.topLevel c.peek.text) c.peek) := rfl
        obtain ⟨us, hus⟩ := (hts.report (.topLevel c.peek.text) c.peek).skipWhile
          fun t => !t.kind.isDefinition
        rw [hrun, orSkip, hfail]
        exact ⟨us, _, hus, fun hfs => by simp at hfs⟩
      case complete =>
        rintro ts rest ⟨k, hts⟩ hrest -
        obtain ⟨t, us, rfl, ht, hk⟩ := head_of_declaration hts
        rw [Cursor.peek_of_cons hrest] at *
        cases k <;> first | exact absurd hk (by decide) | exact absurd ht (by assumption)

/-- Declarations are read to the end of the source, or a fault is found. -/
theorem decls_sound {c : Cursor} (hc : c.eof.kind = .eof) : ∃ ts fs, c.Goes ts fs (decls c).2 ∧
    (fs = [] → ts ∈ Phrase.document ∧ (decls c).2.rest = []) := by
  fun_induction decls c with
  | case1 c hend =>
    exact ⟨[], [], .refl c, fun _ => ⟨Language.nil_mem_kstar _, List.isEmpty_iff.mp hend⟩⟩
  | case2 c _ r hlt more ih =>
    obtain ⟨ts, fs, hgoes, hread⟩ := (reads_declaration.readsAt c hc).sound
    obtain ⟨us, gs, hmore, hreadMore⟩ := ih (hgoes.eof ▸ hc)
    refine ⟨ts ++ us, fs ++ gs, hgoes.trans hmore, fun hnil => ?_⟩
    obtain ⟨hfs, hgs⟩ := List.append_eq_nil_iff.mp hnil
    refine ⟨?_, (hreadMore hgs).2⟩
    rw [Phrase.document, ← Language.one_add_self_mul_kstar_eq_kstar]
    exact .inr (Phrase.mul_mem (hread hfs).2 (hreadMore hgs).1)
  | case3 c _ r hlt =>
    obtain ⟨ts, fs, hgoes, hread⟩ := (reads_declaration.readsAt c hc).sound
    exact ⟨ts, fs, hgoes, fun hfs =>
      absurd (reads_declaration.goes_on rfl hgoes (hread hfs).2) hlt⟩

/-- A declaration that stands in front of others is read first. -/
theorem decls_cons {c : Cursor} (hc : c.eof.kind = .eof) {ts : List Token}
    {phrases : List (List Token)} (hts : ts ∈ Phrase.declaration)
    (hphrases : ∀ us ∈ phrases, us ∈ Phrase.declaration) (hrest : c.rest = ts ++ phrases.flatten) :
    ∃ d e, decl c = (some d, e) ∧ c.Goes ts [] e ∧ decls c = (d :: (decls e).1, (decls e).2) := by
  have hbehind : Shuns memberEnd phrases.flatten := by
    cases phrases with
    | nil =>
      intro t ht
      cases ht
    | cons us phrases =>
      refine fits_declaration.shuns_append (hphrases us List.mem_cons_self) (by decide) ?_
      intro hempty
      cases hempty
  obtain ⟨d, e, hrun, hgoes⟩ := (reads_declaration.readsAt c hc).complete ts _ hts hrest hbehind
  have hlt := reads_declaration.goes_on rfl hgoes hts
  have hopen : c.atEnd ≠ true := by
    intro hend
    rw [List.isEmpty_iff.mp hend] at hlt
    exact absurd hlt (Nat.not_lt_zero _)
  refine ⟨d, e, hrun, hgoes, ?_⟩
  rw [decls, if_neg hopen, hrun]
  simp only
  rw [if_pos hlt]
  rfl

/-- Declarations that stand to the end of the source are read without a fault. -/
theorem decls_complete {c : Cursor} (hc : c.eof.kind = .eof) {phrases : List (List Token)}
    (hphrases : ∀ ts ∈ phrases, ts ∈ Phrase.declaration) (hrest : c.rest = phrases.flatten) :
    (decls c).2.faults = c.faults := by
  induction phrases generalizing c with
  | nil =>
    have hend : c.atEnd = true := List.isEmpty_iff.mpr hrest
    rw [decls, if_pos hend]
  | cons ts phrases ih =>
    rw [List.forall_mem_cons] at hphrases
    rw [List.flatten_cons] at hrest
    obtain ⟨d, e, -, hgoes, hdecls⟩ := decls_cons hc hphrases.1 hphrases.2 hrest
    rw [hdecls, ih (hgoes.eof ▸ hc) hphrases.2 (hgoes.rest_eq hrest), hgoes.faults,
      List.append_nil]

end Grammar

/-! ## Documents -/

theorem Cursor.ofLexed_ends (src : Bytes) : (Cursor.ofLexed src (lex src)).eof.kind = .eof := by
  rw [Cursor.ofLexed, Lexer.lex_eq]

theorem good_eq_tokens {src : Bytes} (h : (lex src).faults = []) :
    (lex src).good = (lex src).tokens := by
  obtain ⟨ofTokens, atEnd, hfaults, -, -, hplaces⟩ := lex_faults src
  rw [h] at hfaults
  obtain ⟨rfl, rfl⟩ := List.append_eq_nil_iff.mp hfaults.symm
  have herrors : (lex src).errors = [] := List.map_eq_nil_iff.mp hplaces.symm
  rw [Lexer.Result.errors, List.filter_eq_nil_iff] at herrors
  exact List.filter_eq_self.mpr fun t ht => by simpa using herrors t ht

/-- A source is read without a diagnostic exactly when its tokens have no fault and are derived from
the grammar. Derivations know nothing of the reader: they say which tokens make up a construct, not
how they are found, so the reader neither accepts too much nor complains without need. -/
theorem diagnostics_eq_nil_iff (uri src : Bytes) : (Document.parse uri src).diagnostics = [] ↔
    (lex src).faults = [] ∧ (lex src).tokens ∈ Phrase.document := by
  have hends := Cursor.ofLexed_ends src
  have hdiagnostics : (Document.parse uri src).diagnostics = [] ↔ (lex src).faults = [] ∧
      (Grammar.decls (.ofLexed src (lex src))).2.faults = [] := by
    rw [Document.parse]
    simp
  rw [hdiagnostics]
  refine and_congr_right fun hfaults => ?_
  rw [← good_eq_tokens hfaults]
  constructor
  · intro hnone
    obtain ⟨ts, fs, hgoes, hread⟩ := Grammar.decls_sound hends
    have hfs : fs = [] := by
      have hall := hgoes.faults
      rw [hnone] at hall
      exact (List.append_eq_nil_iff.mp hall.symm).2
    obtain ⟨hts, hrest⟩ := hread hfs
    have hgood : (lex src).good = ts := by
      rw [← List.append_nil ts, ← hrest]
      exact hgoes.rest
    rwa [hgood]
  · rintro ⟨phrases, hgood, hphrases⟩
    exact Grammar.decls_complete hends hphrases hgood

end ThriftLayout
