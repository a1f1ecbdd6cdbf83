import ThriftLayout.Layout.Index
import ThriftLayout.Proofs.Document.LineParts

/-!
# A member alone in a declaration

A plain line between the first and the last line of a declaration is read as it stands: the pieces
of the line are those it has in the source, and every token on it belongs to its code. So a field or
an enum member that starts and ends on that line has its parts in the code of the line.

Results:

* `field_on_line`, `member_on_line`: the parts of a member of such a declaration.
-/
namespace ThriftLayout

def structAround (line : Bytes) : Bytes := utf8 "struct S \x7b\n" ++ (line ++ utf8 "\n\x7d\n")

def enumAround (line : Bytes) : Bytes := utf8 "enum E \x7b\n" ++ (line ++ utf8 "\n\x7d\n")

/-- A first line behind which pieces start anew. -/
structure IsHead (head : Bytes) : Prop where
  line : ∃ h, head = h ++ [Ascii.newline] ∧ Ascii.newline ∉ h
  pieces : ∃ ps, ∀ t, Lexer.pieces (head ++ t) = ps ++ Lexer.pieces t

/-! ## First lines -/

namespace Lexer

theorem classify_comment {rest : Bytes} (h : rest.head? = some Ascii.slash) :
    (classify Ascii.slash rest).1 = .comment .line := by
  rw [classify, if_neg (by decide), if_neg (by decide), if_pos (by simp [h])]

/-- A word in front of something else is a piece. -/
theorem pieces_word_append {w : Bytes} (hw : IsWord w) {t : Bytes}
    (ht : ∀ b ∈ t.head?, Ascii.isIdentPart b = false) :
    pieces (w ++ t) = ⟨.token (wordKind w), w⟩ :: pieces t := by
  obtain ⟨b, r, rfl, hb, hr⟩ := hw
  have htake := takeWhile_append_of_head hr ht
  rw [List.cons_append, pieces_cons, classify_ident hb, htake, List.take_left, List.drop_left]

theorem pieces_space (t : Bytes) :
    pieces (Ascii.space :: t) = ⟨.blank, [Ascii.space]⟩ :: pieces t :=
  pieces_cons Ascii.space t

theorem pieces_newline (t : Bytes) :
    pieces (Ascii.newline :: t) = ⟨.blank, [Ascii.newline]⟩ :: pieces t :=
  pieces_cons Ascii.newline t

theorem pieces_lbrace (t : Bytes) :
    pieces (Ascii.lbrace :: t) = ⟨.token (.mark .lbrace), [Ascii.lbrace]⟩ :: pieces t :=
  pieces_cons Ascii.lbrace t

theorem isHead_words {w v : Bytes} (hw : IsWord w) (hv : IsWord v) :
    IsHead (w ++ Ascii.space :: (v ++ [Ascii.space, Ascii.lbrace, Ascii.newline])) where
  line := by
    have hword {u : Bytes} (hu : IsWord u) : Ascii.newline ∉ u := fun hmem =>
      absurd (hu.isIdentPart _ hmem) (by decide)
    refine ⟨w ++ Ascii.space :: (v ++ [Ascii.space, Ascii.lbrace]), by simp, ?_⟩
    simp only [List.mem_append, List.mem_cons, List.not_mem_nil, or_false, hword hw, hword hv,
      false_or]
    decide
  pieces := by
    refine ⟨[⟨.token (wordKind w), w⟩, ⟨.blank, [Ascii.space]⟩, ⟨.token (wordKind v), v⟩,
      ⟨.blank, [Ascii.space]⟩, ⟨.token (.mark .lbrace), [Ascii.lbrace]⟩,
      ⟨.blank, [Ascii.newline]⟩], fun t => ?_⟩
    have hblank (u : Bytes) : ∀ b ∈ (Ascii.space :: u).head?, Ascii.isIdentPart b = false := by
      intro b hb
      obtain rfl := Option.some.inj hb
      decide
    rw [List.append_assoc, List.cons_append, List.append_assoc, List.cons_append, List.cons_append,
      List.cons_append, List.nil_append, pieces_word_append hw (hblank _), pieces_space,
      pieces_word_append hv (hblank _), pieces_space, pieces_lbrace, pieces_newline]
    rfl

end Lexer

theorem isHead_struct : IsHead (utf8 "struct S \x7b\n") :=
  Lexer.isHead_words (w := utf8 "struct") (v := utf8 "S") (.of_isIdentifier rfl)
    (.of_isIdentifier rfl)

theorem isHead_enum : IsHead (utf8 "enum E \x7b\n") :=
  Lexer.isHead_words (w := utf8 "enum") (v := utf8 "E") (.of_isIdentifier rfl)
    (.of_isIdentifier rfl)

/-! ## The line between -/

theorem second_line {h line rest : Bytes} (hh : Ascii.newline ∉ h) {k : Nat}
    (hk : Bytes.newlines
      ((h ++ [Ascii.newline] ++ (line ++ Ascii.newline :: rest)).take k) = 1) :
    h.length < k ∧ k ≤ h.length + 1 + line.length := by
  constructor
  · by_contra hle
    rw [List.append_assoc, List.take_append_of_le_length (Nat.le_of_not_lt hle)] at hk
    have hmem := List.count_pos_iff.mp (Nat.lt_of_lt_of_eq Nat.zero_lt_one hk.symm)
    exact hh (List.mem_of_mem_take hmem)
  · by_contra hlt
    have hprefix : h ++ [Ascii.newline] ++ (line ++ [Ascii.newline]) <+:
        (h ++ [Ascii.newline] ++ (line ++ Ascii.newline :: rest)).take k := by
      refine List.prefix_take_iff.mpr ⟨⟨rest, by simp⟩, ?_⟩
      simp only [List.length_append, List.length_singleton]
      omega
    have hcount := hprefix.sublist.count_le Ascii.newline
    simp only [List.count_append, List.count_singleton_self] at hcount
    unfold Bytes.newlines at hk
    omega

/-- What stands up to a token on a line belongs to its code. -/
theorem code_prefix {line rest : Bytes} (hsingle : IsSingleLine line) {ps qs : List Lexer.Piece}
    {p : Lexer.Piece} (hpieces : Lexer.pieces (line ++ rest) = ps ++ p :: qs) {k : TokenKind}
    (hk : p.kind = .token k) (hlong : (Lexer.glue (ps ++ [p])).length ≤ line.length) :
    Lexer.glue (ps ++ [p]) <+: (splitLineComment line).1 := by
  have hwhole : line ++ rest = Lexer.glue (ps ++ [p]) ++ Lexer.glue qs := by
    rw [← Lexer.glue_append, ← Lexer.glue_pieces (line ++ rest), hpieces]
    simp
  obtain ⟨r, hline, hqs⟩ : ∃ r, line = Lexer.glue (ps ++ [p]) ++ r ∧ Lexer.glue qs = r ++ rest := by
    obtain ⟨r, hglue, hrest⟩ | ⟨r, hline, hqs⟩ := List.append_eq_append_iff.mp hwhole
    · rw [hglue, List.length_append] at hlong
      obtain rfl := List.eq_nil_of_length_eq_zero (l := r) (by omega)
      rw [List.append_nil] at hglue
      rw [List.nil_append] at hrest
      exact ⟨[], by rw [hglue, List.append_nil], by rw [List.nil_append, hrest]⟩
    · exact ⟨r, hline, hqs⟩
  have hfront := Lexer.pieces_front hpieces hk
  have hsingle' : IsSingleLine (Lexer.glue (ps ++ [p])) :=
    hsingle.of_infix ⟨[], r, by rw [List.nil_append, hline]⟩
  have hcalm := Lexer.calm_of_token hsingle' hfront hk
  have hnext : (Lexer.glue (ps ++ [p])).getLast? = some Ascii.slash →
      r.head? ≠ some Ascii.slash := by
    intro hlast hnext
    have hp : p ∈ Lexer.pieces (Lexer.glue (ps ++ [p])) := by
      rw [hfront]
      exact List.mem_append_right ps List.mem_cons_self
    rw [Lexer.glue_append, Lexer.glue_cons, Lexer.glue_nil, List.append_nil,
      List.getLast?_append_of_ne_nil _ (Lexer.text_ne_nil hp)] at hlast
    have htext := (hcalm p hp).text_of_slash hlast
    obtain ⟨b, tail, n, hsplit, hclass, hb, -⟩ := Lexer.pieces_split hpieces
    obtain ⟨rfl, -⟩ := List.cons.inj (hb.symm.trans htext)
    rw [hwhole, Lexer.glue_append, Lexer.glue_cons, Lexer.glue_nil, List.append_nil, htext,
      List.append_assoc, List.append_cancel_left_eq] at hsplit
    have htail : Lexer.glue qs = tail := (List.cons.inj hsplit).2
    have hhead : tail.head? = some Ascii.slash := by
      rw [← htail, hqs, List.head?_append, hnext, Option.some_or]
    have hcomment := Lexer.classify_comment hhead
    rw [hclass, hk] at hcomment
    exact nomatch hcomment
  rw [hline, splitLineComment_calm hcalm hsingle'.single hnext]
  exact List.prefix_append _ _

/-! ## Tokens on the line -/

section Around

variable {head line rest : Bytes} {ts : List Token}

/-- Tokens whose region starts and stops on the line between belong to its code. -/
theorem tokens_on_line (hhead : IsHead head) (hplain : IsPlainLine line) (hts : ts ≠ [])
    (hpart : ts <:+: (lex (head ++ (line ++ Ascii.newline :: rest))).good)
    (hstart : (Region.ofTokens (head ++ (line ++ Ascii.newline :: rest)) ts).start.line = 1)
    (hstop : (Region.ofTokens (head ++ (line ++ Ascii.newline :: rest)) ts).stop.line = 1) :
    ∀ t ∈ ts, head.length ≤ t.start ∧
      t.stop ≤ head.length + (splitLineComment line).1.length := by
  obtain ⟨⟨h, rfl, hh⟩, hs, hpieces⟩ := hhead
  obtain ⟨a, z, ha, hz, -, hzmem⟩ := exists_ends hts
  have hrun := (run_good _).sublist hpart.sublist
  rw [Region.ofTokens_eq ha hz] at hstart hstop
  simp only [Lines.pointAt, Lines.lineAt_eq] at hstart hstop
  have hfirst := (second_line hh hstart).1
  have hlast := (second_line hh hstop).2
  have hlow : ∀ t ∈ ts, (h ++ [Ascii.newline]).length ≤ t.start := fun t ht => by
    have hle := hrun.first_le ha ht
    rw [List.length_append, List.length_singleton]
    omega
  -- The last token is a piece of the line, so all that stands up to it is code.
  obtain ⟨ps, p, qs, hsplit, hat⟩ := (lex_tokens _).1 z (hpart.subset hzmem)
  have hheadGlue : Lexer.glue hs = h ++ [Ascii.newline] := by
    have hnil := hpieces []
    rw [List.append_nil, Lexer.pieces, List.append_nil] at hnil
    rw [← hnil, Lexer.glue_pieces]
  have hzlow := hlow z hzmem
  rw [hpieces, append_eq_append_cons] at hsplit
  obtain ⟨w, rfl, hline⟩ | ⟨w, rfl, -⟩ := hsplit
  · have hzstop := hat.stop
    rw [List.append_assoc, Lexer.glue_append, hheadGlue, List.length_append] at hzstop
    have hcode := code_prefix hplain.singleLine hline hat.kind (by
      rw [List.length_append, List.length_singleton] at hzstop
      omega)
    have hle := hcode.length_le
    exact fun t ht => ⟨hlow t ht, by have := hrun.le_last hz ht; omega⟩
  · exfalso
    have hp : p ∈ Lexer.pieces (h ++ [Ascii.newline]) := by
      have hnil := hpieces []
      rw [List.append_nil, Lexer.pieces, List.append_nil] at hnil
      simp [hnil]
    have hpos := List.length_pos_iff.mpr (Lexer.text_ne_nil hp)
    rw [hat.start, ← hheadGlue, Lexer.glue_append, Lexer.glue_cons, List.length_append,
      List.length_append] at hzlow
    omega

/-- The text of tokens between two offsets is cut from what stands there. -/
theorem textOf_infix {src : Bytes} {i e : Nat} (hrun : Token.Run src ts)
    (hin : ∀ t ∈ ts, i ≤ t.start ∧ t.stop ≤ e) :
    Token.textOf src ts <:+: Bytes.slice src i e := by
  by_cases hts : ts = []
  · rw [hts]
    exact List.nil_infix
  · obtain ⟨a, z, ha, hz, hamem, hzmem⟩ := exists_ends hts
    have hnonempty := hrun.nonempty a hamem
    have hle := hrun.le_last hz hamem
    have hlow := (hin a hamem).1
    have hhigh := (hin z hzmem).2
    rw [Token.textOf, ha, hz, Bytes.slice_trans hlow (by omega),
      Bytes.slice_trans (s := src) (i := a.start) (j := z.stop) (by omega) hhigh]
    exact ⟨_, _, List.append_assoc _ _ _⟩

variable (hhead : IsHead head) (hplain : IsPlainLine line)
  (hpart : ts <:+: (lex (head ++ (line ++ Ascii.newline :: rest))).good)
include hhead hplain hpart

/-- The parts that such tokens spell stand in the code of the line. -/
theorem strung_on_line {r : Region} (hts : ts ≠ [])
    (hr : r = .ofTokens (head ++ (line ++ Ascii.newline :: rest)) ts) (hstart : r.start.line = 1)
    (hstop : r.stop.line = 1) {ps : List Bytes}
    (h : Spells (head ++ (line ++ Ascii.newline :: rest)) ts ps) :
    Strung (fun _ => True) ps (splitLineComment line).1 ∧
      ∀ us, us <:+: ts →
        IsSingleLine (Token.textOf (head ++ (line ++ Ascii.newline :: rest)) us) := by
  rw [hr] at hstart hstop
  have hin := tokens_on_line hhead hplain hts hpart hstart hstop
  have hslice : Bytes.slice (head ++ (line ++ Ascii.newline :: rest)) head.length
      (head.length + (splitLineComment line).1.length) = (splitLineComment line).1 := by
    conv => lhs; rw [← splitLineComment_append line, List.append_assoc]
    rw [splitLineComment_append]
    exact Bytes.slice_append _ _ _
  constructor
  · rw [← hslice]
    exact h.strung hpart (fun t ht => (hin t ht).1) (fun t ht => (hin t ht).2)
      (Nat.le_add_right _ _) fun _ _ _ _ => trivial
  · intro us hus
    have hcode : (splitLineComment line).1 <:+: line := by
      conv => rhs; rw [← splitLineComment_append line]
      exact (List.prefix_append _ _).isInfix
    refine hplain.singleLine.of_infix (List.IsInfix.trans ?_ hcode)
    rw [← hslice]
    exact textOf_infix ((run_good _).sublist (hus.trans hpart).sublist)
      fun t ht => hin t (hus.subset ht)

end Around

/-! ## Fields and enum members -/

/-- The index of a source knows fields and members that are read from its tokens. -/
theorem index_from (uri src : Bytes) :
    (∀ f ∈ (Index.ofDocument? (some (Document.parse uri src))).fields,
      ∃ ts, f.From src ts ∧ ts <:+: (lex src).good) ∧
      ∀ m ∈ (Index.ofDocument? (some (Document.parse uri src))).members,
        ∃ ts, m.From src ts ∧ ts <:+: (lex src).good := by
  constructor
  · intro f hf
    obtain ⟨d, hd, hf⟩ := List.mem_flatMap.mp hf
    obtain ⟨ts, hts, hpart⟩ := (parse_strewn uri src).exists_stretch hd
    obtain ⟨us, hus, hinside⟩ := hts.fields_strewn.exists_stretch hf
    exact ⟨us, hus, hinside.trans hpart⟩
  · intro m hm
    obtain ⟨d, hd, hm⟩ := List.mem_flatMap.mp hm
    obtain ⟨ts, hts, hpart⟩ := (parse_strewn uri src).exists_stretch hd
    obtain ⟨us, hus, hinside⟩ := hts.members_strewn.exists_stretch hm
    exact ⟨us, hus, hinside.trans hpart⟩

section Alone

variable {uri line : Bytes} (hplain : IsPlainLine line)
include hplain

theorem code_ascii : AllAscii (splitLineComment line).1 := fun b hb =>
  hplain.ascii b (splitLineComment_append line ▸ List.mem_append_left _ hb)

/-- The parts of a field that stands on the line of a struct, if its record covers the line. -/
theorem field_on_line {f : Field}
    (hf : (Index.ofDocument? (some (Document.parse uri (structAround line)))).fieldOn 1 = some f)
    (hstop : f.region.stop.line = 1)
    (hcovers : (FieldRecord.ofDecl line f).covers (splitLineComment line).1 = true) :
    f.Spelled ∧ Strung AllBlank f.parts (splitLineComment line).1 := by
  have hstart : f.region.start.line = 1 := by simpa using List.find?_some hf
  obtain ⟨ts, hfrom, hpart⟩ := (index_from _ _).1 f (List.mem_of_find?_eq_some hf)
  obtain ⟨hstrung, htexts⟩ := strung_on_line isHead_struct hplain hpart hfrom.nonempty hfrom.region
    hstart hstop hfrom.parts
  have hspelled := hfrom.spelled hpart htexts
  have hparts : ∀ p ∈ f.parts, AllAscii p := fun p hp b hb =>
    code_ascii hplain b ((hstrung.infix_of_mem hp).subset hb)
  exact ⟨hspelled, hstrung.blank
    (FieldRecord.visible_of_covers hspelled hparts (code_ascii hplain) hcovers)⟩

/-- The parts of an enum member that stands on the line of an enum, if its record covers the
line. -/
theorem member_on_line {m : Member}
    (hm : (Index.ofDocument? (some (Document.parse uri (enumAround line)))).memberOn 1 = some m)
    (hstop : m.region.stop.line = 1)
    (hcovers : (MemberRecord.ofDecl line m).covers (splitLineComment line).1 = true) :
    m.Spelled ∧ Strung AllBlank m.parts (splitLineComment line).1 := by
  have hstart : m.region.start.line = 1 := by simpa using List.find?_some hm
  obtain ⟨ts, hfrom, hpart⟩ := (index_from _ _).2 m (List.mem_of_find?_eq_some hm)
  obtain ⟨hstrung, htexts⟩ := strung_on_line isHead_enum hplain hpart hfrom.nonempty hfrom.region
    hstart hstop hfrom.parts
  have hspelled := hfrom.spelled hpart htexts
  have hparts : ∀ p ∈ m.parts, AllAscii p := fun p hp b hb =>
    code_ascii hplain b ((hstrung.infix_of_mem hp).subset hb)
  exact ⟨hspelled, hstrung.blank
    (MemberRecord.visible_of_covers hspelled hparts (code_ascii hplain) hcovers)⟩

end Alone

end ThriftLayout
