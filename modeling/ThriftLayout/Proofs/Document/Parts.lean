import ThriftLayout.Proofs.Document.Regions
import ThriftLayout.Proofs.Layout.LineRecords

/-!
# The parts of declarations are runs of pieces

A part of a field or an enum member is the text of successive tokens, so it stands in the source as
a run of pieces that ends in a token, within the region of the field or member.

Results:

* `Spells.stands`: the parts that are spelled by tokens.
* `parse_drawn`: the fields and members of a document.
* `index_valid`: on a valid source their parts are valid texts.
-/
namespace ThriftLayout

open Utf8 (valid)

/-- The parts of a field stand between two offsets. -/
structure Field.Fits (src : Bytes) (i j : Nat) (f : Field) : Prop where
  id : Stands src i j f.id
  qualifier : Stands src i j f.qualifier
  type : Stands src i j f.type
  name : Stands src i j f.name
  default : Stands src i j f.default
  annot : Stands src i j f.annot
  separator : IsTerminator f.separator

/-- The parts of an enum member stand between two offsets. -/
structure Member.Fits (src : Bytes) (i j : Nat) (m : Member) : Prop where
  name : Stands src i j m.name
  value : Stands src i j m.value
  annot : Stands src i j m.annot
  separator : IsTerminator m.separator

def Region.between (src : Bytes) (i j : Nat) : Region :=
  ⟨(Lines.mk src).pointAt i, (Lines.mk src).pointAt j⟩

/-- A field whose parts stand in its region. -/
def Field.Drawn (src : Bytes) (f : Field) : Prop :=
  ∃ i j, f.region = .between src i j ∧ f.Fits src i j

/-- An enum member whose parts stand in its region. -/
def Member.Drawn (src : Bytes) (m : Member) : Prop :=
  ∃ i j, m.region = .between src i j ∧ m.Fits src i j

/-- A declaration whose fields and members are drawn from a source. -/
structure Decl.Drawn (src : Bytes) (d : Decl) : Prop where
  fields : ∀ f ∈ d.fields, f.Drawn src
  members : ∀ m ∈ d.members, m.Drawn src

variable {src : Bytes} {ts : List Token} {i j : Nat}

/-! ## From tokens to pieces -/

/-- The text of successive tokens between two offsets stands there. -/
theorem textOf_stands (hpieces : ∀ t ∈ ts, t.IsPiece src) (hi : ∀ t ∈ ts, i ≤ t.start)
    (hj : ∀ t ∈ ts, t.stop ≤ j) : Stands src i j (Token.textOf src ts) := by
  by_cases hts : ts = []
  · rw [hts]
    exact .nil src i j
  · obtain ⟨a, z, ha, hz, hamem, hzmem⟩ := exists_ends hts
    rw [Token.textOf, ha, hz]
    exact (hpieces a hamem).slice_stands (hpieces z hzmem) (hi a hamem) (hj z hzmem)

/-- The parts that are spelled by tokens between two offsets stand there. -/
theorem Spells.stands {ps : List Bytes} (h : Spells src ts ps) (hpieces : ∀ t ∈ ts, t.IsPiece src)
    (hi : ∀ t ∈ ts, i ≤ t.start) (hj : ∀ t ∈ ts, t.stop ≤ j) : ∀ p ∈ ps, Stands src i j p := by
  induction h with
  | nil => exact List.forall_mem_nil _
  | cons us _ ih =>
    rw [List.forall_mem_append] at hpieces hi hj
    exact List.forall_mem_cons.mpr
      ⟨textOf_stands hpieces.1 hi.1 hj.1, ih hpieces.2 hi.2 hj.2⟩

/-- What is spelled by tokens of the source stands in the region of these tokens. -/
theorem Spells.exists_stands {ps : List Bytes} (h : Spells src ts ps) (hts : ts ≠ [])
    (hpart : ts <:+: (lex src).good) :
    ∃ i j, Region.ofTokens src ts = .between src i j ∧ ∀ p ∈ ps, Stands src i j p := by
  obtain ⟨a, z, ha, hz, -, -⟩ := exists_ends hts
  have hrun := (run_good src).sublist hpart.sublist
  have hpieces : ∀ t ∈ ts, t.IsPiece src := fun t ht => (lex_tokens src).1 t (hpart.subset ht)
  exact ⟨a.start, z.stop, Region.ofTokens_eq ha hz,
    h.stands hpieces (fun t ht => hrun.first_le ha ht) fun t ht => hrun.le_last hz ht⟩

theorem Field.From.drawn {f : Field} (hf : f.From src ts) (hpart : ts <:+: (lex src).good) :
    f.Drawn src := by
  obtain ⟨i, j, hregion, hparts⟩ := hf.parts.exists_stands hf.nonempty hpart
  refine ⟨i, j, hf.region.trans hregion, ?_⟩
  simp only [Field.parts, List.forall_mem_cons] at hparts
  obtain ⟨hid, -, hqual, htype, hname, -, hdefault, hannot, -⟩ := hparts
  exact ⟨hid, hqual, htype, hname, hdefault, hannot, hf.separator⟩

theorem Member.From.drawn {m : Member} (hm : m.From src ts) (hpart : ts <:+: (lex src).good) :
    m.Drawn src := by
  obtain ⟨i, j, hregion, hparts⟩ := hm.parts.exists_stands hm.nonempty hpart
  refine ⟨i, j, hm.region.trans hregion, ?_⟩
  simp only [Member.parts, List.forall_mem_cons] at hparts
  obtain ⟨hname, -, hvalue, hannot, -⟩ := hparts
  exact ⟨hname, hvalue, hannot, hm.separator⟩

theorem Decl.From.drawn {d : Decl} (hd : d.From src ts) (hpart : ts <:+: (lex src).good) :
    d.Drawn src where
  fields := by
    intro f hf
    obtain ⟨us, hus, hinside⟩ := hd.fields_strewn.exists_stretch hf
    exact hus.drawn (hinside.trans hpart)
  members := by
    intro m hm
    obtain ⟨us, hus, hinside⟩ := hd.members_strewn.exists_stretch hm
    exact hus.drawn (hinside.trans hpart)

/-! ## Documents -/

/-- The declarations of a source are drawn from it. -/
theorem parse_drawn (uri src : Bytes) : ∀ d ∈ (Document.parse uri src).body, d.Drawn src := by
  intro d hd
  obtain ⟨ts, hts, hpart⟩ := (parse_strewn uri src).exists_stretch hd
  exact hts.drawn hpart

/-- The index of a source knows fields and members that are drawn from it. -/
theorem index_drawn (uri src : Bytes) :
    (∀ f ∈ (Index.ofDocument? (some (Document.parse uri src))).fields, f.Drawn src) ∧
      ∀ m ∈ (Index.ofDocument? (some (Document.parse uri src))).members, m.Drawn src := by
  constructor
  · intro f hf
    obtain ⟨d, hd, hf⟩ := List.mem_flatMap.mp hf
    exact (parse_drawn uri src d hd).fields f hf
  · intro m hm
    obtain ⟨d, hd, hm⟩ := List.mem_flatMap.mp hm
    exact (parse_drawn uri src d hd).members m hm

/-- The index of a valid source knows valid parts only. -/
theorem index_valid (uri : Bytes) (hsrc : valid src = true) :
    (Index.ofDocument? (some (Document.parse uri src))).Valid := by
  obtain ⟨hfields, hmembers⟩ := index_drawn uri src
  constructor
  · intro f hf
    obtain ⟨i, j, -, hfits⟩ := hfields f hf
    exact ⟨hfits.id.valid hsrc, hfits.qualifier.valid hsrc, hfits.type.valid hsrc,
      hfits.name.valid hsrc, hfits.default.valid hsrc, hfits.annot.valid hsrc, hfits.separator⟩
  · intro m hm
    obtain ⟨i, j, -, hfits⟩ := hmembers m hm
    exact ⟨hfits.name.valid hsrc, hfits.value.valid hsrc, hfits.annot.valid hsrc,
      hfits.separator⟩

end ThriftLayout
