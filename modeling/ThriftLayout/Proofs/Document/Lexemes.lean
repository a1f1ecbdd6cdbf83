import ThriftLayout.Proofs.Document.Regions

/-!
# The tokens of fields and enum members

A layout writes a field from its parts and not from the source, so no token of the field may be
missing from its parts, and none may be in two of them. The tokens in the region of a field are
those it is read from; the parts of the field are spelled by these one after the other; and the text
of successive tokens, read again, gives these tokens.

Results:

* `lexemesIn_ofTokens`: the tokens in the region of successive tokens.
* `Spells.lexemes`: the tokens of the parts that are spelled by successive tokens.
* `parse_lexemes`: the tokens of the fields and members of a document.
-/
namespace ThriftLayout

variable {src : Bytes} {ts : List Token}

/-- A token whose bytes lie in a region of the source. -/
def Token.LiesIn (src : Bytes) (r : Region) (t : Token) : Prop :=
  r.start ≤ (Lines.mk src).pointAt t.start ∧ (Lines.mk src).pointAt t.stop ≤ r.stop

instance (src : Bytes) (r : Region) (t : Token) : Decidable (t.LiesIn src r) :=
  inferInstanceAs (Decidable (_ ∧ _))

/-- The tokens that could be read in a region of the source, by kind and text. -/
def lexemesIn (src : Bytes) (r : Region) : List (TokenKind × Bytes) :=
  ((lex src).good.filter fun t => decide (t.LiesIn src r)).map Token.lexeme

/-- The tokens that could be read in some texts, each of them read on its own. -/
def lexemesOf (texts : List Bytes) : List (TokenKind × Bytes) :=
  texts.flatMap fun s => (lex s).good.map Token.lexeme

/-- The fields of a document: those of structs, unions and exceptions, the parameters of functions
and what functions throw. -/
def Document.allFields (d : Document) : List Field :=
  d.body.flatMap fun x => x.fields ++ x.functions.flatMap fun f => f.params ++ f.throws

def Document.allMembers (d : Document) : List Member := d.body.flatMap Decl.members

/-! ## Regions -/

/-- In the region of successive tokens lie these tokens. -/
theorem lexemesIn_ofTokens (hpart : ts <:+: (lex src).good) (hts : ts ≠ []) :
    lexemesIn src (.ofTokens src ts) = ts.map Token.lexeme := by
  obtain ⟨pre, post, hgood⟩ := hpart
  have hrun := run_good src
  rw [← hgood] at hrun
  have hinside := hrun.sublist ((List.sublist_append_right pre ts).trans
    (List.sublist_append_left _ post))
  obtain ⟨a, z, ha, hz, hamem, hzmem⟩ := exists_ends hts
  have hnonemptyA := hinside.nonempty a hamem
  have hlies : ∀ t ∈ pre ++ ts ++ post, t.LiesIn src (.ofTokens src ts) ↔
      a.start ≤ t.start ∧ t.stop ≤ z.stop := by
    intro t ht
    rw [Token.LiesIn, Region.ofTokens_eq ha hz]
    exact and_congr Lines.pointAt_le_iff Lines.pointAt_le_iff
  have hpre : pre.filter (fun t => decide (t.LiesIn src (.ofTokens src ts))) = [] := by
    refine List.filter_eq_nil_iff.mpr fun t ht hin => ?_
    have hmem : t ∈ pre ++ ts ++ post := by simp [ht]
    have hfirst := ((hlies t hmem).mp (of_decide_eq_true hin)).1
    have hnonempty := hrun.nonempty t hmem
    have hfront := List.pairwise_append.mp (List.pairwise_append.mp hrun.ordered).1
    have horder := hfront.2.2 t ht a hamem
    omega
  have hpost : post.filter (fun t => decide (t.LiesIn src (.ofTokens src ts))) = [] := by
    refine List.filter_eq_nil_iff.mpr fun t ht hin => ?_
    have hmem : t ∈ pre ++ ts ++ post := by simp [ht]
    have hlast := ((hlies t hmem).mp (of_decide_eq_true hin)).2
    have hnonempty := hrun.nonempty t hmem
    have horder := (List.pairwise_append.mp hrun.ordered).2.2 z (by simp [hzmem]) t ht
    omega
  have hall : ts.filter (fun t => decide (t.LiesIn src (.ofTokens src ts))) = ts := by
    refine List.filter_eq_self.mpr fun t ht => decide_eq_true ?_
    exact (hlies t (by simp [ht])).mpr ⟨hinside.first_le ha ht, hinside.le_last hz ht⟩
  rw [lexemesIn, ← hgood, List.filter_append, List.filter_append, hpre, hall, hpost,
    List.nil_append, List.append_nil]

/-! ## Parts -/

/-- The parts that successive tokens spell have the lexemes of these tokens. -/
theorem Spells.lexemes {ps : List Bytes} (h : Spells src ts ps) (hpart : ts <:+: (lex src).good) :
    lexemesOf ps = ts.map Token.lexeme := by
  induction h with
  | nil => rfl
  | @cons us ts ps _ ih =>
    obtain ⟨pre, post, hgood⟩ := hpart
    have hfirst : (lex src).good = pre ++ (us ++ (ts ++ post)) := by
      rw [← hgood]
      simp
    have hrest : ts <:+: (lex src).good := ⟨pre ++ us, post, by rw [← hgood]; simp⟩
    rw [lexemesOf, List.flatMap_cons, lexemes_textOf hfirst, List.map_append, ← ih hrest]
    rfl

theorem Field.From.lexemes {f : Field} (hf : f.From src ts) (hpart : ts <:+: (lex src).good) :
    lexemesIn src f.region = lexemesOf f.parts := by
  rw [hf.region, lexemesIn_ofTokens hpart hf.nonempty, hf.parts.lexemes hpart]

theorem Member.From.lexemes {m : Member} (hm : m.From src ts) (hpart : ts <:+: (lex src).good) :
    lexemesIn src m.region = lexemesOf m.parts := by
  rw [hm.region, lexemesIn_ofTokens hpart hm.nonempty, hm.parts.lexemes hpart]

/-! ## Documents -/

/-- A field of a document is read from successive tokens of the source. -/
theorem from_of_mem_allFields {uri : Bytes} {f : Field}
    (hf : f ∈ (Document.parse uri src).allFields) :
    ∃ ts, f.From src ts ∧ ts <:+: (lex src).good := by
  obtain ⟨x, hx, hf⟩ := List.mem_flatMap.mp hf
  obtain ⟨ts, hts, hpart⟩ := (parse_strewn uri src).exists_stretch hx
  rcases List.mem_append.mp hf with hf | hf
  · obtain ⟨us, hus, hinside⟩ := hts.fields_strewn.exists_stretch hf
    exact ⟨us, hus, hinside.trans hpart⟩
  · obtain ⟨g, hg, hf⟩ := List.mem_flatMap.mp hf
    obtain ⟨us, hus, hinside⟩ := hts.functions_strewn.exists_stretch hg
    obtain ⟨vs, hvs, hdeep⟩ := hus.params.exists_stretch hf
    exact ⟨vs, hvs, hdeep.trans (hinside.trans hpart)⟩

theorem from_of_mem_allMembers {uri : Bytes} {m : Member}
    (hm : m ∈ (Document.parse uri src).allMembers) :
    ∃ ts, m.From src ts ∧ ts <:+: (lex src).good := by
  obtain ⟨x, hx, hm⟩ := List.mem_flatMap.mp hm
  obtain ⟨ts, hts, hpart⟩ := (parse_strewn uri src).exists_stretch hx
  obtain ⟨us, hus, hinside⟩ := hts.members_strewn.exists_stretch hm
  exact ⟨us, hus, hinside.trans hpart⟩

/-- The tokens in the region of a field are those of its parts, in the order of the parts, and so
for an enum member. Nothing of a member is lost on the way to its parts and nothing is read into
them, also in a source with faults elsewhere. -/
theorem parse_lexemes (uri src : Bytes) :
    (∀ f ∈ (Document.parse uri src).allFields, lexemesIn src f.region = lexemesOf f.parts) ∧
      ∀ m ∈ (Document.parse uri src).allMembers, lexemesIn src m.region = lexemesOf m.parts := by
  constructor
  · intro f hf
    obtain ⟨ts, hts, hpart⟩ := from_of_mem_allFields hf
    exact hts.lexemes hpart
  · intro m hm
    obtain ⟨ts, hts, hpart⟩ := from_of_mem_allMembers hm
    exact hts.lexemes hpart

/-- A source with a byte in the default of a field that no token has. -/
def strayByte : Bytes :=
  utf8 "struct S \x7b\n  1: map<i32, T> a = \x7b1 : @\n 2\x7d (x) ; \x7d enum E \x7b A = -2 \x7d"

/-- The field and the enum member of this source. -/
def strayField : Field :=
  { region := ⟨⟨1, 2⟩, ⟨2, 9⟩⟩, id := utf8 "1", qualifier := [], type := utf8 "map<i32, T>",
    name := utf8 "a", default := utf8 "\x7b1 : @\n 2\x7d", annot := utf8 "(x)",
    separator := utf8 ";" }

def strayMember : Member :=
  { region := ⟨⟨2, 21⟩, ⟨2, 27⟩⟩, name := utf8 "A", value := utf8 "-2", annot := [],
    separator := [] }

theorem parse_lexemes_strayByte :
    strayField ∈ (Document.parse [] strayByte).allFields ∧
      strayMember ∈ (Document.parse [] strayByte).allMembers ∧
      lexemesIn strayByte strayField.region = lexemesOf strayField.parts ∧
      lexemesIn strayByte strayMember.region = lexemesOf strayMember.parts := by
  have hfield : strayField ∈ (Document.parse [] strayByte).allFields := by decide +kernel
  have hmember : strayMember ∈ (Document.parse [] strayByte).allMembers := by decide +kernel
  exact ⟨hfield, hmember, (parse_lexemes [] strayByte).1 _ hfield,
    (parse_lexemes [] strayByte).2 _ hmember⟩

end ThriftLayout
