import ThriftLayout.Proofs.Document.Origins
import ThriftLayout.Proofs.Text.LineNumbers

/-!
# Regions of a document

Points are ordered by line and, on one line, by column. That is the order of the offsets they stand
for, so what is said about regions in points is said about the bytes between them.

Tokens follow one another in the source, so what is read from tokens has a region from the first to
the last of them, and what is read from earlier tokens ends before what is read from later ones
starts. Declarations are strewn over the tokens of the source, fields over those of their
declaration and parameters over those of their function: their regions are nested in the same way.

Results:

* `Lines.pointAt_le_iff`: points of a source are ordered as their offsets.
* `Token.Run.nests`: the regions of what is strewn over tokens.
* `parse_nested`: the regions of a document.
-/
namespace ThriftLayout

/-! ## Points -/

namespace Point

instance : LE Point := ⟨fun p q => p.line < q.line ∨ p.line = q.line ∧ p.column ≤ q.column⟩

theorem le_iff {p q : Point} :
    p ≤ q ↔ p.line < q.line ∨ p.line = q.line ∧ p.column ≤ q.column := Iff.rfl

instance : DecidableLE Point := fun p q =>
  inferInstanceAs (Decidable (p.line < q.line ∨ p.line = q.line ∧ p.column ≤ q.column))

theorem le_refl (p : Point) : p ≤ p := .inr ⟨rfl, Nat.le_refl _⟩

end Point

namespace Lines

/-- Places in a source are ordered as their offsets. -/
theorem pointAt_le_iff {src : Bytes} {i j : Nat} :
    (Lines.mk src).pointAt i ≤ (Lines.mk src).pointAt j ↔ i ≤ j := by
  have hlines {a b : Nat} (hab : a ≤ b) : (Lines.mk src).lineAt a ≤ (Lines.mk src).lineAt b :=
    (startOf_le_iff (lineAt_lt_count src a) b).mp (Nat.le_trans (startOf_lineAt_le src a) hab)
  rw [Point.le_iff]
  simp only [pointAt]
  refine ⟨fun h => ?_, fun hij => ?_⟩
  · rcases h with hlt | ⟨heq, hcolumn⟩
    · exact Nat.not_lt.mp fun hji => Nat.not_le.mpr hlt (hlines (Nat.le_of_lt hji))
    · have hi := startOf_lineAt_le src i
      have hj := startOf_lineAt_le src j
      rw [heq] at hi hcolumn
      omega
  · rcases Nat.lt_or_eq_of_le (hlines hij) with hlt | heq
    · exact .inl hlt
    · exact .inr ⟨heq, by rw [heq]; exact Nat.sub_le_sub_right hij _⟩

end Lines

variable {src : Bytes} {ts us : List Token}

/-! ## Runs of tokens -/

/-- Tokens of a source, in order. -/
structure Token.Run (src : Bytes) (ts : List Token) : Prop where
  nonempty : ∀ t ∈ ts, t.start < t.stop
  bound : ∀ t ∈ ts, t.stop ≤ src.length
  ordered : ts.Pairwise (fun a b => a.stop ≤ b.start)

theorem Token.IsPiece.start_lt_stop {t : Token} (h : t.IsPiece src) : t.start < t.stop := by
  obtain ⟨ps, p, qs, hpieces, hat⟩ := h
  have hmem : p ∈ Lexer.pieces src := by simp [hpieces]
  have hpos := List.length_pos_iff.mpr (Lexer.text_ne_nil hmem)
  rw [Token.stop, hat.text]
  omega

theorem Token.IsPiece.stop_le {t : Token} (h : t.IsPiece src) : t.stop ≤ src.length := by
  obtain ⟨ps, p, qs, hpieces, hat⟩ := h
  have hsrc : src = Lexer.glue (ps ++ [p]) ++ Lexer.glue qs := by
    rw [← Lexer.glue_append, List.append_assoc, List.singleton_append, ← hpieces, Lexer.glue_pieces]
  have hlength := congrArg List.length hsrc
  rw [List.length_append] at hlength
  rw [hat.stop]
  omega

/-- The tokens that could be read are in order. -/
theorem run_good (src : Bytes) : Token.Run src (lex src).good where
  nonempty t ht := ((lex_tokens src).1 t ht).start_lt_stop
  bound t ht := ((lex_tokens src).1 t ht).stop_le
  ordered := (lex_tokens src).2.1

namespace Token.Run

variable (h : Run src ts)
include h

theorem sublist (hsub : us.Sublist ts) : Run src us :=
  ⟨fun t ht => h.nonempty t (hsub.subset ht), fun t ht => h.bound t (hsub.subset ht),
    h.ordered.sublist hsub⟩

theorem first_le {a t : Token} (ha : ts.head? = some a) (ht : t ∈ ts) : a.start ≤ t.start := by
  obtain ⟨rest, rfl⟩ := List.head?_eq_some_iff.mp ha
  rcases List.mem_cons.mp ht with rfl | hrest
  · exact Nat.le_refl _
  · have hnonempty := h.nonempty a List.mem_cons_self
    have horder := (List.pairwise_cons.mp h.ordered).1 t hrest
    omega

theorem le_last {t z : Token} (hz : ts.getLast? = some z) (ht : t ∈ ts) : t.stop ≤ z.stop := by
  obtain ⟨front, rfl⟩ := List.getLast?_eq_some_iff.mp hz
  rcases List.mem_append.mp ht with hfront | hlast
  · have hnonempty := h.nonempty z (by simp)
    have horder := (List.pairwise_append.mp h.ordered).2.2 t hfront z (by simp)
    omega
  · obtain rfl := List.mem_singleton.mp hlast
    exact Nat.le_refl _

end Token.Run

/-! ## Regions -/

/-- A region of a source: it starts and stops at places in the source, and not before it starts. -/
structure Region.InSource (src : Bytes) (r : Region) : Prop where
  start : ∃ i ≤ src.length, r.start = (Lines.mk src).pointAt i
  stop : ∃ j ≤ src.length, r.stop = (Lines.mk src).pointAt j
  ordered : r.start ≤ r.stop

/-- Regions that lie in an outer one, one after the other. -/
structure Region.Nests (src : Bytes) (outer : Region) (inner : List Region) : Prop where
  inside : ∀ r ∈ inner, r.InSource src ∧ outer.start ≤ r.start ∧ r.stop ≤ outer.stop
  ordered : inner.Pairwise (fun a b => a.stop ≤ b.start)

theorem Region.ofTokens_eq {a z : Token} (ha : ts.head? = some a) (hz : ts.getLast? = some z) :
    Region.ofTokens src ts =
      ⟨(Lines.mk src).pointAt a.start, (Lines.mk src).pointAt z.stop⟩ := by
  rw [Region.ofTokens, ha, hz]

theorem exists_ends (hts : ts ≠ []) :
    ∃ a z, ts.head? = some a ∧ ts.getLast? = some z ∧ a ∈ ts ∧ z ∈ ts :=
  ⟨ts.head hts, ts.getLast hts, List.head?_eq_some_head hts, List.getLast?_eq_some_getLast hts,
    List.head_mem hts, List.getLast_mem hts⟩

namespace Token.Run

variable (h : Run src ts)
include h

theorem inSource (hts : ts ≠ []) : (Region.ofTokens src ts).InSource src := by
  obtain ⟨a, z, ha, hz, hamem, hzmem⟩ := exists_ends hts
  have hnonempty := h.nonempty a hamem
  have hlast := h.le_last hz hamem
  have hbound := h.bound z hzmem
  rw [Region.ofTokens_eq ha hz]
  refine ⟨⟨_, by omega, rfl⟩, ⟨_, hbound, rfl⟩, ?_⟩
  exact Lines.pointAt_le_iff.mpr (by omega)

/-- Some of the tokens lie in the region of all of them. -/
theorem ofTokens_inside (hsub : us.Sublist ts) (hus : us ≠ []) :
    (Region.ofTokens src ts).start ≤ (Region.ofTokens src us).start ∧
      (Region.ofTokens src us).stop ≤ (Region.ofTokens src ts).stop := by
  have hts : ts ≠ [] := fun hnil => hus (List.sublist_nil.mp (hnil ▸ hsub))
  obtain ⟨a, z, ha, hz, -, -⟩ := exists_ends hts
  obtain ⟨b, y, hb, hy, hbmem, hymem⟩ := exists_ends hus
  have hfirst := h.first_le ha (hsub.subset hbmem)
  have hlast := h.le_last hz (hsub.subset hymem)
  rw [Region.ofTokens_eq ha hz, Region.ofTokens_eq hb hy]
  exact ⟨Lines.pointAt_le_iff.mpr hfirst, Lines.pointAt_le_iff.mpr hlast⟩

/-- Tokens in front of others have a region in front of theirs. -/
theorem ofTokens_ordered {vs : List Token} (hsub : (us ++ vs).Sublist ts) (hus : us ≠ [])
    (hvs : vs ≠ []) : (Region.ofTokens src us).stop ≤ (Region.ofTokens src vs).start := by
  obtain ⟨b, y, hb, hy, -, hymem⟩ := exists_ends hus
  obtain ⟨a, z, ha, hz, hamem, -⟩ := exists_ends hvs
  have hrun := h.sublist hsub
  have horder := (List.pairwise_append.mp hrun.ordered).2.2 y hymem a hamem
  rw [Region.ofTokens_eq hb hy, Region.ofTokens_eq ha hz]
  exact Lines.pointAt_le_iff.mpr horder

/-- What is strewn over tokens has regions that are nested in the region of these tokens. -/
theorem nests {α : Type} {R : List Token → α → Prop} {as : List α} (hstrewn : Strewn R ts as)
    {region : α → Region} (hR : ∀ us a, R us a → us ≠ [] ∧ region a = .ofTokens src us) :
    Region.Nests src (.ofTokens src ts) (as.map region) where
  inside := by
    intro r hr
    obtain ⟨a, ha, rfl⟩ := List.mem_map.mp hr
    obtain ⟨us, hus, hpart⟩ := hstrewn.exists_stretch ha
    obtain ⟨hne, hregion⟩ := hR us a hus
    rw [hregion]
    exact ⟨(h.sublist hpart.sublist).inSource hne, h.ofTokens_inside hpart.sublist hne⟩
  ordered := by
    refine List.pairwise_map.mpr (hstrewn.pairwise.imp ?_)
    rintro a b ⟨us, vs, hus, hvs, hsub⟩
    obtain ⟨hneA, hregionA⟩ := hR us a hus
    obtain ⟨hneB, hregionB⟩ := hR vs b hvs
    rw [hregionA, hregionB]
    exact h.ofTokens_ordered hsub hneA hneB

end Token.Run

/-! ## Documents -/

def Region.whole (src : Bytes) : Region :=
  ⟨(Lines.mk src).pointAt 0, (Lines.mk src).pointAt src.length⟩

/-- The regions of a document are in order and nested. -/
structure Document.Nested (d : Document) : Prop where
  declarations : Region.Nests d.src (.whole d.src) (d.body.map Decl.region)
  fields : ∀ x ∈ d.body, Region.Nests d.src x.region (x.fields.map Field.region)
  members : ∀ x ∈ d.body, Region.Nests d.src x.region (x.members.map Member.region)
  functions : ∀ x ∈ d.body, Region.Nests d.src x.region (x.functions.map Function.region)
  /-- The parameters of a function stand in front of what it throws. -/
  params : ∀ x ∈ d.body, ∀ f ∈ x.functions,
    Region.Nests d.src f.region ((f.params ++ f.throws).map Field.region)

/-- What is nested in a region of the source is nested in the whole. -/
theorem Region.Nests.whole {outer : Region} {inner : List Region} (h : Nests src outer inner) :
    Nests src (.whole src) inner := by
  refine ⟨fun r hr => ?_, h.ordered⟩
  have hin := (h.inside r hr).1
  obtain ⟨i, hi, hstart⟩ := hin.start
  obtain ⟨j, hj, hstop⟩ := hin.stop
  refine ⟨hin, ?_, ?_⟩
  · rw [hstart]
    exact Lines.pointAt_le_iff.mpr (Nat.zero_le i)
  · rw [hstop]
    exact Lines.pointAt_le_iff.mpr hj

theorem Function.From.nests {f : Function} (hf : f.From src ts) (h : Token.Run src ts) :
    Region.Nests src f.region ((f.params ++ f.throws).map Field.region) := by
  rw [hf.region]
  exact h.nests hf.params fun us x hx => ⟨hx.nonempty, hx.region⟩

section Strewn

variable {x : Decl} (hx : x.From src ts)
include hx

/-- The fields of a declaration are strewn over its tokens. -/
theorem Decl.From.fields_strewn : Strewn (Field.From src) ts x.fields := by
  have hbody := hx.body
  rw [Decl.fields]
  split
  · rename_i fs hfs
    rwa [hfs] at hbody
  · exact .nil ts

theorem Decl.From.members_strewn : Strewn (Member.From src) ts x.members := by
  have hbody := hx.body
  rw [Decl.members]
  split
  · rename_i ms hms
    rwa [hms] at hbody
  · exact .nil ts

theorem Decl.From.functions_strewn : Strewn (Function.From src) ts x.functions := by
  have hbody := hx.body
  rw [Decl.functions]
  split
  · rename_i fns hfns
    rwa [hfns] at hbody
  · exact .nil ts

end Strewn

/-- The regions of every document that is read are in order and nested: declarations one after
another, members inside their declaration, parameters and exceptions inside their function. This
holds whatever was skipped on the way. -/
theorem parse_nested (uri src : Bytes) : (Document.parse uri src).Nested := by
  have hrun := run_good src
  have hstrewn := parse_strewn uri src
  have hfrom : ∀ x ∈ (Document.parse uri src).body, ∃ ts, Token.Run src ts ∧ x.From src ts := by
    intro x hx
    obtain ⟨ts, hts, hpart⟩ := hstrewn.exists_stretch hx
    exact ⟨ts, hrun.sublist hpart.sublist, hts⟩
  constructor
  case declarations => exact (hrun.nests hstrewn fun us x hx => ⟨hx.nonempty, hx.region⟩).whole
  case fields =>
    intro x hx
    obtain ⟨ts, hts, hx⟩ := hfrom x hx
    rw [hx.region]
    exact hts.nests hx.fields_strewn fun us f hf => ⟨hf.nonempty, hf.region⟩
  case members =>
    intro x hx
    obtain ⟨ts, hts, hx⟩ := hfrom x hx
    rw [hx.region]
    exact hts.nests hx.members_strewn fun us m hm => ⟨hm.nonempty, hm.region⟩
  case functions =>
    intro x hx
    obtain ⟨ts, hts, hx⟩ := hfrom x hx
    rw [hx.region]
    exact hts.nests hx.functions_strewn fun us f hf => ⟨hf.nonempty, hf.region⟩
  case params =>
    intro x hx f hf
    obtain ⟨ts, hts, hx⟩ := hfrom x hx
    obtain ⟨us, hus, hpart⟩ := hx.functions_strewn.exists_stretch hf
    exact hus.nests (hts.sublist hpart.sublist)

end ThriftLayout
