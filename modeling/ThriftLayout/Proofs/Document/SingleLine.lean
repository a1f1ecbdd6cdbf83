import ThriftLayout.Proofs.Document.Parts
import ThriftLayout.Proofs.Layout.CodeLines
import ThriftLayout.Proofs.Layout.LegibleTexts
import ThriftLayout.Proofs.Layout.NeatLines

/-!
# The parts of members on a single line

Every token ends in something visible: a word, a number and a mark have no blanks at all, and a
string literal ends in its quote. A part of a field or a member is a run of pieces up to a token, so
it ends as that token does; and where the field or member stands on a single line, so does the part.
A part of a legible source holds no comment then, as a comment would go on to the end of the part.

Results:

* `Lexer.last_token`: how a token ends.
* `Stands.firm`: a part of a region on a single line.
* `index_firm`, `index_coded`: the fields and members of a document.
-/
namespace ThriftLayout

/-- A field whose parts are on one line and end in something visible. -/
structure Field.Firm (f : Field) : Prop where
  id : ThriftLayout.Firm f.id
  qualifier : ThriftLayout.Firm f.qualifier
  type : ThriftLayout.Firm f.type
  name : ThriftLayout.Firm f.name
  default : ThriftLayout.Firm f.default
  annot : ThriftLayout.Firm f.annot
  separator : IsTerminator f.separator

/-- An enum member whose parts are on one line and end in something visible. -/
structure Member.Firm (m : Member) : Prop where
  name : ThriftLayout.Firm m.name
  value : ThriftLayout.Firm m.value
  annot : ThriftLayout.Firm m.annot
  separator : IsTerminator m.separator

/-- An index in which the parts of fields and members on a single line end in something visible. -/
structure Index.Firm (ix : Index) : Prop where
  fields : ∀ f ∈ ix.fields, f.region.IsSingle → f.Firm
  members : ∀ m ∈ ix.members, m.region.IsSingle → m.Firm

/-! ## How tokens end -/

namespace Lexer

theorem stringTail_closed {quote : UInt8} (s : Bytes) (h : (stringTail quote s).2 = true) :
    ∃ inside, s.take (stringTail quote s).1 = inside ++ [quote] := by
  fun_induction stringTail quote s with
  | case1 => cases h
  | case2 b rest hb => exact ⟨[], by rw [eq_of_beq hb]; rfl⟩
  | case3 => cases h
  | case4 => cases h
  | case5 b _ _ _ c more _ n closed hn ih =>
    rw [hn] at ih
    obtain ⟨inside, hinside⟩ := ih h
    exact ⟨b :: c :: inside, by simp [hinside]⟩
  | case6 => cases h
  | case7 b rest _ _ _ n closed hn ih =>
    rw [hn] at ih
    obtain ⟨inside, hinside⟩ := ih h
    exact ⟨b :: inside, by simp [hinside]⟩

/-- A token ends in an ASCII byte that is no blank. -/
theorem classify_last {b : UInt8} {rest : Bytes} {k : TokenKind} {n : Nat}
    (h : classify b rest = (.token k, n)) :
    ∀ x ∈ (b :: rest.take n).getLast?, Ascii.Visible x := by
  have hfirst := classify_first h
  have hvisible {s : Bytes} (hs : ∀ x ∈ s, Ascii.Visible x) :
      ∀ x ∈ (b :: s).getLast?, Ascii.Visible x := fun x hx =>
    List.forall_mem_cons.mpr ⟨hfirst, hs⟩ x (List.mem_of_getLast? hx)
  have hclassified := classified b rest
  rw [h] at hclassified
  cases hclassified with
  | keyword | identifier =>
    exact hvisible (take_takeWhile (fun _ => Ascii.visible_of_isIdentPart) rest)
  | number _ _ hn => exact hvisible fun x hx => Ascii.visible_of_isNumeral (number_tail hn x hx)
  | string _ hn =>
    obtain ⟨inside, hinside⟩ := stringTail_closed rest (congrArg Prod.snd hn)
    rw [hn] at hinside
    intro x hx
    rw [hinside, ← List.cons_append, List.getLast?_concat] at hx
    rwa [← Option.some.inj hx]
  | mark => exact hvisible (List.forall_mem_nil _)

/-- A piece that is a token ends in an ASCII byte that is no blank. -/
theorem last_token {s : Bytes} {p : Piece} (hp : p ∈ pieces s) {k : TokenKind}
    (hk : p.kind = .token k) : ∃ x, p.text.getLast? = some x ∧ Ascii.Visible x := by
  fun_induction pieces s with
  | case1 => simp at hp
  | case2 b rest kind n hclass ih =>
    rcases List.mem_cons.mp hp with rfl | hp
    · have hkind : kind = .token k := hk
      rw [hkind] at hclass
      have hlast := List.getLast?_eq_some_getLast (List.cons_ne_nil b (rest.take n))
      exact ⟨_, hlast, classify_last hclass _ hlast⟩
    · exact ih hp

end Lexer

/-! ## Parts of a region -/

open Lexer (glue)

namespace Stands

variable {src s : Bytes} {i j : Nat} (h : Stands src i j s)
include h

theorem last : ∀ x ∈ s.getLast?, Ascii.isBlank x = false := by
  obtain rfl | ⟨ps, ms, p, qs, k, hpieces, hk, rfl, -⟩ := h
  · exact nofun
  · have hp : p ∈ Lexer.pieces src := by simp [hpieces]
    obtain ⟨x, hlast, -, hx⟩ := Lexer.last_token hp hk
    intro y hy
    rw [Lexer.glue_append, Lexer.glue_cons, Lexer.glue_nil, List.append_nil,
      List.getLast?_append, hlast, Option.some_or] at hy
    rwa [← Option.some.inj hy]

/-- A part has no newline that its region does not have. -/
theorem newlines_le : Bytes.newlines (src.take i) + Bytes.newlines s ≤
    Bytes.newlines (src.take j) ∨ s = [] := by
  obtain rfl | ⟨ps, ms, p, qs, k, hpieces, -, rfl, hi, hj⟩ := h
  · exact .inr rfl
  · left
    have hsrc : src = glue ps ++ glue (ms ++ [p]) ++ glue qs := by
      rw [← Lexer.glue_pieces src, hpieces]
      simp
    have hfront : src.take i <+: glue ps := by
      rw [hsrc, List.append_assoc, List.take_append_of_le_length hi]
      exact List.take_prefix i _
    have hback : glue ps ++ glue (ms ++ [p]) <+: src.take j := by
      refine List.prefix_take_iff.mpr ⟨hsrc ▸ List.prefix_append _ _, ?_⟩
      rwa [← Lexer.glue_append]
    rw [Lexer.glue_append ps] at hj
    have hcount := hback.sublist.count_le Ascii.newline
    rw [List.count_append] at hcount
    exact Nat.le_trans (Nat.add_le_add_right (hfront.sublist.count_le _) _) hcount

/-- A part of a region on a single line. -/
theorem firm (hline : (Region.between src i j).IsSingle) : Firm s := by
  refine ⟨fun hmem => ?_, h.last⟩
  have hlines : Bytes.newlines (src.take j) ≤ Bytes.newlines (src.take i) := by
    unfold Region.IsSingle Region.between Lines.pointAt at hline
    simpa only [Lines.lineAt_eq] using hline
  have hone := List.count_pos_iff.mpr hmem
  rcases h.newlines_le with hle | rfl
  · unfold Bytes.newlines at hle hlines
    omega
  · exact List.not_mem_nil hmem

end Stands

/-- The parts of fields and members on a single line of a document are firm. -/
theorem index_firm (uri src : Bytes) :
    (Index.ofDocument? (some (Document.parse uri src))).Firm := by
  obtain ⟨hfields, hmembers⟩ := index_drawn uri src
  constructor
  · intro f hf hsingle
    obtain ⟨i, j, hregion, hfits⟩ := hfields f hf
    rw [hregion] at hsingle
    exact ⟨hfits.id.firm hsingle, hfits.qualifier.firm hsingle, hfits.type.firm hsingle,
      hfits.name.firm hsingle, hfits.default.firm hsingle, hfits.annot.firm hsingle,
      hfits.separator⟩
  · intro m hm hsingle
    obtain ⟨i, j, hregion, hfits⟩ := hmembers m hm
    rw [hregion] at hsingle
    exact ⟨hfits.name.firm hsingle, hfits.value.firm hsingle, hfits.annot.firm hsingle,
      hfits.separator⟩

/-! ## Parts of a legible source -/

open Lexer (pieces) in
/-- A part of a legible source that is on one line is code. -/
theorem Stands.isCode {src s : Bytes} {i j : Nat} (h : Stands src i j s) (hsrc : Legible src)
    (hline : Ascii.newline ∉ s) : IsCode s := by
  obtain rfl | ⟨ps, ms, p, qs, k, hpieces, hk, rfl, -⟩ := h
  · exact .nil
  · have hrun := Lexer.pieces_run hpieces hk
    refine Lexer.isCode_of_token hline ?_ ?_
    · have hinside : ms ++ [p] <:+: pieces src := ⟨ps, qs, by rw [hpieces]; simp⟩
      rw [hrun]
      exact fun q hq => legible_iff.mp hsrc q (hinside.subset hq)
    · rw [hrun]
      intro q hq
      rw [List.getLast?_concat] at hq
      rw [← Option.some.inj hq]
      exact ⟨k, hk⟩

/-- The parts of fields and members on a single line of a legible document are code. -/
theorem index_coded (uri : Bytes) {src : Bytes} (hsrc : Legible src) :
    (Index.ofDocument? (some (Document.parse uri src))).Coded := by
  obtain ⟨hfields, hmembers⟩ := index_drawn uri src
  constructor
  · intro f hf hsingle
    obtain ⟨i, j, hregion, hfits⟩ := hfields f hf
    rw [hregion] at hsingle
    have hcode {s : Bytes} (hs : Stands src i j s) : IsCode s :=
      hs.isCode hsrc (hs.firm hsingle).single
    exact ⟨hcode hfits.id, hcode hfits.qualifier, hcode hfits.type, hcode hfits.name,
      hcode hfits.default, hcode hfits.annot, hfits.separator⟩
  · intro m hm hsingle
    obtain ⟨i, j, hregion, hfits⟩ := hmembers m hm
    rw [hregion] at hsingle
    have hcode {s : Bytes} (hs : Stands src i j s) : IsCode s :=
      hs.isCode hsrc (hs.firm hsingle).single
    exact ⟨hcode hfits.name, hcode hfits.value, hcode hfits.annot, hfits.separator⟩

/-! ## Records of parsed members -/

theorem FieldRecord.ofDecl_tidy {line : Bytes} (h : Ascii.newline ∉ line) {f : Field}
    (hf : f.Firm) : (ofDecl line f).Tidy :=
  ⟨⟨hf.id.neat, hf.qualifier.neat, (firm_tightenType hf.type.single).neat, hf.name.neat,
    (Firm.trim hf.default.single).neat, (Firm.trim hf.annot.single).neat, hf.separator⟩,
    (MemberLine.ofLine_firm h).2.neat⟩

/-- The record of a parsed enum member is neat. -/
theorem MemberRecord.ofDecl_tidy {line : Bytes} (h : Ascii.newline ∉ line) {m : Member}
    (hm : m.Firm) : (ofDecl line m).Tidy :=
  ⟨⟨hm.name.neat, (Firm.trim hm.value.single).neat, (Firm.trim hm.annot.single).neat,
    hm.separator⟩, (MemberLine.ofLine_firm h).2.neat⟩

end ThriftLayout
