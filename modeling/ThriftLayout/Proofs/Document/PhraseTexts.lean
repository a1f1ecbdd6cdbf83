import ThriftLayout.Proofs.Document.Regions
import ThriftLayout.Proofs.Layout.Brackets
import ThriftLayout.Proofs.Text.AsciiBlanks

/-!
# How phrases are written on a line

The parts of a field or an enum member are the texts of phrases. On a line such a text is calm
and starts and ends with something visible, and what phrase it is tells how it is spelled: a name is
a word, a clause of annotations stands in parentheses, and a type is a word in front of what its
angle brackets hold.

Results:

* `textOf_calm`, `textOf_snug`: the text of successive tokens.
* `Field.From.spelled`, `Member.From.spelled`: the parts of fields and enum members.
-/
namespace ThriftLayout

/-! ## The text of successive tokens -/

section Text

variable {src : Bytes} {us : List Token}

/-- The text of some tokens starts with that of the first of them. -/
theorem textOf_cons {t : Token} (hpart : t :: us <:+: (lex src).good) :
    ∃ v, Token.textOf src (t :: us) = t.text ++ v ∧
      (t.kind.isWord = true → IsWord t.text ∧ t.kind = Lexer.wordKind t.text ∧
        ∀ b ∈ v.head?, Ascii.isIdentPart b = false) := by
  obtain ⟨ps, p, qs, hpieces, hat⟩ := (lex_tokens src).1 t (hpart.subset List.mem_cons_self)
  have hsrc : src = Lexer.glue ps ++ (p.text ++ Lexer.glue qs) := by
    rw [← Lexer.glue_pieces src, hpieces]
    simp
  obtain ⟨z, hz⟩ : ∃ z, (t :: us).getLast? = some z :=
    ⟨_, List.getLast?_eq_some_getLast (List.cons_ne_nil t us)⟩
  have hlong := ((run_good src).sublist hpart.sublist).le_last hz List.mem_cons_self
  obtain ⟨n, hn⟩ := Nat.exists_eq_add_of_le hlong
  rw [hat.stop, Lexer.glue_append, List.length_append, Lexer.glue_cons, Lexer.glue_nil,
    List.append_nil] at hn
  refine ⟨(Lexer.glue qs).take n, ?_, fun hword => ?_⟩
  · have hcut : z.stop - (Lexer.glue ps).length = p.text.length + n := by omega
    rw [Token.textOf, hz, List.head?_cons]
    simp only
    rw [hat.start, hat.text, Bytes.slice, hcut]
    conv => lhs; rw [hsrc]
    rw [List.drop_left, List.take_length_add_append]
  · obtain ⟨htext, hkind, hbehind⟩ := Lexer.word_of_token hpieces hat.kind hword
    rw [hat.text]
    refine ⟨htext, hkind, fun b hb => hbehind b ?_⟩
    cases n with
    | zero => simp at hb
    | succ n => rwa [List.head?_take, if_neg (Nat.succ_ne_zero n)] at hb

/-- The text of tokens on one line is calm. -/
theorem textOf_calm (hpart : us <:+: (lex src).good)
    (hline : IsSingleLine (Token.textOf src us)) :
    CalmText (kindsOf us) (Token.textOf src us) := by
  obtain ⟨pre, post, hgood⟩ := hpart
  rw [List.append_assoc] at hgood
  cases hu : us.getLast? with
  | none =>
    rw [List.getLast?_eq_none_iff.mp hu]
    exact .nil
  | some u =>
    obtain ⟨ps, ms, p, qs, hpieces, hkind, -, htext, hlexemes⟩ := exists_textOf hgood.symm hu
    have hrun := Lexer.pieces_run hpieces hkind
    rw [← htext] at hrun
    refine ⟨ms ++ [p], hrun ▸ Lexer.calm_of_token hline hrun hkind, ?_, htext.symm⟩
    rw [Lexer.kinds, ← hlexemes, List.map_map]
    rfl

section Plain

variable (hpart : us <:+: (lex src).good) (hline : IsSingleLine (Token.textOf src us))
include hpart hline

/-- The text of tokens ends as the last of them does. -/
theorem textOf_last {u : Token} (hu : us.getLast? = some u) :
    ∃ p ∈ Lexer.pieces (Token.textOf src us), p.Calm ∧ p.kind = .token u.kind ∧
      (Token.textOf src us).getLast? = p.text.getLast? := by
  obtain ⟨pre, post, hgood⟩ := hpart
  rw [List.append_assoc] at hgood
  obtain ⟨ps, ms, p, qs, hpieces, hkind, -, htext, -⟩ := exists_textOf hgood.symm hu
  have hrun := Lexer.pieces_run hpieces hkind
  rw [← htext] at hrun
  have hp : p ∈ Lexer.pieces (Token.textOf src us) := by simp [hrun]
  refine ⟨p, hp, Lexer.calm_of_token hline hrun hkind p hp, hkind, ?_⟩
  rw [htext, Lexer.glue_append, Lexer.glue_cons, Lexer.glue_nil, List.append_nil,
    List.getLast?_append_of_ne_nil _ (Lexer.text_ne_nil hp)]

theorem textOf_snug : Snug (Token.textOf src us) := by
  cases us with
  | nil => exact .nil
  | cons t us =>
    constructor
    · obtain ⟨v, htext, -⟩ := textOf_cons hpart
      obtain ⟨ps, p, qs, hpieces, hat⟩ := (lex_tokens src).1 t (hpart.subset List.mem_cons_self)
      have hmem : p ∈ Lexer.pieces src := by simp [hpieces]
      obtain ⟨b, r, hp, -, hb⟩ := Lexer.head_of_token hmem hat.kind
      rw [htext, hat.text, hp]
      intro x hx
      obtain rfl := Option.some.inj hx
      exact hb
    · obtain ⟨u, hu⟩ : ∃ u, (t :: us).getLast? = some u :=
        ⟨_, List.getLast?_eq_some_getLast (List.cons_ne_nil t us)⟩
      obtain ⟨p, -, hcalm, hkind, hlast⟩ := textOf_last hpart hline hu
      intro x hx
      rw [hlast] at hx
      exact hcalm.last_visible hkind hx

theorem textOf_final {u : Token} (hu : us.getLast? = some u) (hfinal : u.kind.isFinal = true) :
    ∀ x ∈ (Token.textOf src us).getLast?, Ascii.isFinal x = true := by
  obtain ⟨p, -, hcalm, hkind, hlast⟩ := textOf_last hpart hline hu
  intro x hx
  rw [hlast] at hx
  exact hcalm.last hkind hfinal hx

end Plain

theorem textOf_enclosed {o c : Mark} {l r : Token} (hpart : l :: (us ++ [r]) <:+: (lex src).good)
    (hline : IsSingleLine (Token.textOf src (l :: (us ++ [r])))) (hl : l.kind = .mark o)
    (hr : r.kind = .mark c) (ho : Ascii.isSilent o.byte = false)
    (hc : Ascii.isSilent c.byte = false) (hne : o ≠ c) :
    ∃ t, Token.textOf src (l :: (us ++ [r])) = o.byte :: (t ++ [c.byte]) ∧
      CalmText (kindsOf us) t := by
  have hcalm := textOf_calm hpart hline
  obtain ⟨v, htext, -⟩ := textOf_cons hpart
  rw [((lex_tokens src).1 l (hpart.subset List.mem_cons_self)).text_of_mark hl] at htext
  obtain ⟨p, -, hp, hkind, hlast⟩ := textOf_last hpart hline
    (by rw [← List.cons_append, List.getLast?_concat])
  rw [hp.text_of_mark (hkind.trans (congrArg _ hr))] at hlast
  have hkinds : kindsOf (l :: (us ++ [r])) = .mark o :: (kindsOf us ++ [.mark c]) := by
    rw [← hl, ← hr]
    simp [kindsOf]
  rw [hkinds] at hcalm
  rw [htext] at hcalm hlast ⊢
  obtain ⟨t, ht⟩ := List.getLast?_eq_some_iff.mp hlast
  cases t with
  | nil => exact absurd (Mark.byte_injective (List.cons.inj ht).1) hne
  | cons x t =>
    obtain ⟨rfl, rfl⟩ := List.cons.inj ht
    exact ⟨t, rfl, hcalm.between ho hc⟩

end Text

/-! ## Kinds of parts -/

/-- A calm text with balanced brackets and without parentheses. -/
def BalancedText (s : Bytes) : Prop := ∃ ks, CalmText ks s ∧ Depth.Balanced ks

/-- A type: a word that is not reserved, in front of what its angle brackets hold. -/
structure IsType (s : Bytes) : Prop where
  snug : Snug s
  word : ∃ w v, s = w ++ v ∧ IsWord w ∧ Lexer.wordKind w = .identifier ∧
    ∀ b ∈ v.head?, Ascii.isIdentPart b = false
  hides : ∃ ks, CalmText ks s ∧ ∀ js ls, ks = js ++ .mark .equal :: ls → ∀ d : Depth,
    (d.after js).isTop = false
  last : IsWord s ∨ ∀ b ∈ s.getLast?, Ascii.isIdentPart b = false

/-- Balanced text in parentheses. -/
def IsClause (s : Bytes) : Prop :=
  ∃ t, s = Ascii.lparen :: (t ++ [Ascii.rparen]) ∧ BalancedText t

theorem IsClause.ne_nil {s : Bytes} (h : IsClause s) : s ≠ [] := by
  obtain ⟨t, rfl, -⟩ := h
  exact List.cons_ne_nil _ _

theorem IsClause.snug {s : Bytes} (h : IsClause s) : Snug s := by
  obtain ⟨t, rfl, -⟩ := h
  refine ⟨fun b hb => ?_, fun b hb => ?_⟩
  · obtain rfl := Option.some.inj hb
    rfl
  · rw [← List.cons_append, List.getLast?_concat] at hb
    obtain rfl := Option.some.inj hb
    rfl

/-- What ends a text may end a member. -/
def EndsFinal (s : Bytes) : Prop := ∀ b ∈ s.getLast?, Ascii.isFinal b = true

/-- How the parts of a field are spelled. -/
structure Field.Spelled (f : Field) : Prop where
  id : BalancedText f.id ∧ Snug f.id ∧ Ascii.colon ∉ f.id
  qualifier : f.qualifier ∈ [[], utf8 "required", utf8 "optional"]
  type : IsType f.type
  name : IsWord f.name
  default : BalancedText f.default ∧ Snug f.default ∧ EndsFinal f.default
  annot : f.annot = [] ∨ IsClause f.annot
  separator : IsTerminator f.separator

/-- How the parts of an enum member are spelled. -/
structure Member.Spelled (m : Member) : Prop where
  name : BalancedText m.name ∧ Snug m.name ∧ EndsFinal m.name
  word : IsWord m.name ∨ ∃ b t, m.name = b :: t ∧ Ascii.isIdentStart b = false
  value : BalancedText m.value ∧ Snug m.value ∧ EndsFinal m.value
  annot : m.annot = [] ∨ IsClause m.annot
  separator : IsTerminator m.separator

/-! ## Phrases -/

namespace Phrase

variable {ts : List Token}

theorem value_final (h : ts ∈ value) : ∃ z, ts.getLast? = some z ∧ z.kind.isFinal = true := by
  have hword : ∀ k ∈ [TokenKind.int, .float, .string, .identifier], k.isFinal = true := by decide
  cases h with
  | @word t h => exact ⟨t, rfl, hword _ h⟩
  | @signed s t hs ht =>
    exact ⟨t, rfl, hword _ (List.mem_append_left [TokenKind.string, .identifier] ht)⟩
  | @list l r items _ _ _ hr =>
    exact ⟨r, by rw [← List.cons_append, List.getLast?_concat], by rw [hr]; rfl⟩
  | @map l r entries _ _ _ _ _ hr =>
    exact ⟨r, by rw [← List.cons_append, List.getLast?_concat], by rw [hr]; rfl⟩

theorem number_final (h : ts ∈ number) : ∃ z, ts.getLast? = some z ∧ z.kind.isFinal = true := by
  obtain ⟨us, -, _, ⟨t, rfl, ht⟩, rfl⟩ := h
  exact ⟨t, List.getLast?_concat, by rw [ht]; rfl⟩

theorem number_balanced : AllBalanced number :=
  .mul (AllBalanced.one (by decide)).optional (.one (by decide))

/-- A number has no string and no mark but its sign. -/
theorem kind_of_number (h : ts ∈ number) : ∀ k ∈ kindsOf ts, k = .mark .minus ∨ k = .int := by
  obtain ⟨us, hus, _, ⟨t, rfl, ht⟩, rfl⟩ := h
  show ∀ k ∈ kindsOf (us ++ [t]), _
  rw [kindsOf_append, List.forall_mem_append]
  constructor
  · rcases hus with rfl | ⟨s, rfl, hs⟩
    · exact nofun
    · exact List.forall_mem_singleton.mpr (.inl hs)
  · exact List.forall_mem_singleton.mpr (.inr ht)

section Parts

variable {src : Bytes} (hpart : ts <:+: (lex src).good) (hline : IsSingleLine (Token.textOf src ts))
include hpart

omit hline in
/-- A token that is a word is written as one. -/
theorem word_of_one {k : TokenKind} (hk : k.isWord = true) (h : ts ∈ one k) :
    IsWord (Token.textOf src ts) ∧ Lexer.wordKind (Token.textOf src ts) = k := by
  obtain ⟨t, rfl, rfl⟩ := h
  obtain ⟨v, -, hword⟩ := textOf_cons hpart
  obtain ⟨htext, hkind, -⟩ := hword hk
  have hpiece := (lex_tokens src).1 t (hpart.subset List.mem_cons_self)
  rw [hpiece.textOf]
  exact ⟨htext, hkind.symm⟩

omit hline in
/-- A string literal is not written like a word. -/
theorem head_of_string (h : ts ∈ one .string) :
    ∃ b s, Token.textOf src ts = b :: s ∧ Ascii.isIdentStart b = false := by
  obtain ⟨t, rfl, ht⟩ := h
  obtain ⟨ps, p, qs, hpieces, hat⟩ := (lex_tokens src).1 t (hpart.subset List.mem_cons_self)
  obtain ⟨b, rest, n, -, hclass, htext, -⟩ := Lexer.pieces_split hpieces
  rw [Token.IsPiece.textOf ⟨ps, p, qs, hpieces, hat⟩, hat.text, htext]
  refine ⟨b, rest.take n, rfl, ?_⟩
  by_contra hident
  rw [Bool.not_eq_false] at hident
  rw [Lexer.classify_ident hident, hat.kind, ht] at hclass
  have hkind := Lexer.PieceKind.token.inj (Prod.mk.inj hclass).1
  have hword := Lexer.isWord_wordKind (b :: rest.takeWhile Ascii.isIdentPart)
  rw [hkind] at hword
  exact Bool.false_ne_true hword

include hline

theorem balancedText {l : Language Token} (hl : AllBalanced l) (h : ts ∈ l) :
    BalancedText (Token.textOf src ts) := ⟨_, textOf_calm hpart hline, hl ts h⟩

theorem isType_of_type (h : ts ∈ type) : IsType (Token.textOf src ts) := by
  refine ⟨textOf_snug hpart hline, ?_, ⟨_, textOf_calm hpart hline, fun js ls hks d => ?_⟩, ?_⟩
  · obtain ⟨_, ⟨t, rfl, ht⟩, us, hus, rfl⟩ := h
    obtain ⟨v, htext, hword⟩ := textOf_cons hpart
    obtain ⟨hw, hkind, hv⟩ := hword (by rw [ht]; rfl)
    exact ⟨t.text, v, htext, hw, hkind.symm.trans ht, hv⟩
  · exact type_hides h hks (by decide) d
  · obtain ⟨_, ⟨t, rfl, ht⟩, us, rfl | ⟨ws, -, _, ⟨r, rfl, hr⟩, rfl⟩, rfl⟩ := h
    · exact .inl (word_of_one hpart rfl ⟨t, rfl, ht⟩).1
    · refine .inr fun b hb => ?_
      have hr' : ([t] ++ (ws ++ [r])).getLast? = some r := by
        rw [← List.append_assoc]
        exact List.getLast?_concat
      obtain ⟨p, -, hp, hkind, hlast⟩ := textOf_last hpart hline hr'
      rw [hlast, hp.text_of_mark (hkind.trans (congrArg _ hr))] at hb
      obtain rfl := Option.some.inj hb
      rfl

theorem isClause_of_annotations (h : ts ∈ annotations) : IsClause (Token.textOf src ts) := by
  obtain ⟨l, us, r, rfl, hl, hr, hus⟩ := annotations_enclosed h
  obtain ⟨t, htext, hcalm⟩ := textOf_enclosed hpart hline hl hr rfl rfl (by decide)
  exact ⟨t, htext, kindsOf us, hcalm, hus⟩

end Parts

end Phrase

/-! ## Fields and members -/

section Members

variable {src : Bytes} {ts : List Token}

theorem SpellsIn.exists_phrase {ps : List (Language Token × Bytes)} (h : SpellsIn src ts ps)
    {l : Language Token} {p : Bytes} (hp : (l, p) ∈ ps) :
    ∃ us ∈ l, us <:+: ts ∧ p = Token.textOf src us := by
  induction h with
  | nil => exact absurd hp List.not_mem_nil
  | @cons us ts m ps hus _ ih =>
    rcases List.mem_cons.mp hp with heq | hp
    · obtain ⟨rfl, rfl⟩ := Prod.mk.inj heq
      exact ⟨us, hus, (List.prefix_append us ts).isInfix, rfl⟩
    · obtain ⟨vs, hvs, hpart, rfl⟩ := ih hp
      exact ⟨vs, hvs, hpart.trans (List.suffix_append us ts).isInfix, rfl⟩

variable (hpart : ts <:+: (lex src).good)
  (hline : ∀ us, us <:+: ts → IsSingleLine (Token.textOf src us))
include hpart hline

theorem SpellsIn.optional {ps : List (Language Token × Bytes)} (h : SpellsIn src ts ps)
    {l : Language Token} {p : Bytes} (hp : (Phrase.optional l, p) ∈ ps)
    (hl : Phrase.AllBalanced l)
    (hfinal : ∀ us ∈ l, ∃ z, us.getLast? = some z ∧ z.kind.isFinal = true) :
    BalancedText p ∧ Snug p ∧ EndsFinal p := by
  obtain ⟨us, hus, hin, rfl⟩ := h.exists_phrase hp
  have hus' := hin.trans hpart
  refine ⟨Phrase.balancedText hus' (hline us hin) hl.optional hus,
    textOf_snug hus' (hline us hin), ?_⟩
  rcases hus with rfl | hus
  · exact nofun
  · obtain ⟨z, hz, hkind⟩ := hfinal us hus
    exact textOf_final hus' (hline us hin) hz hkind

theorem SpellsIn.clause {ps : List (Language Token × Bytes)} (h : SpellsIn src ts ps) {p : Bytes}
    (hp : (Phrase.optional Phrase.annotations, p) ∈ ps) : p = [] ∨ IsClause p := by
  obtain ⟨us, rfl | hus, hin, rfl⟩ := h.exists_phrase hp
  · exact .inl rfl
  · exact .inr (Phrase.isClause_of_annotations (hin.trans hpart) (hline us hin) hus)

theorem Field.From.spelled {f : Field} (h : f.From src ts) : f.Spelled where
  id := by
    have hid : (Phrase.optional Phrase.number, f.id) ∈ f.phrases := List.mem_cons_self
    obtain ⟨hbalanced, hsnug, -⟩ := h.phrases.optional hpart hline hid Phrase.number_balanced
      fun us => Phrase.number_final
    refine ⟨hbalanced, hsnug, ?_⟩
    obtain ⟨us, rfl | hus, hin, htext⟩ := h.phrases.exists_phrase hid
    · rw [htext]
      exact List.not_mem_nil
    · have hkinds := Phrase.kind_of_number hus
      rw [htext]
      refine (textOf_calm (hin.trans hpart) (hline us hin)).not_mem (m := .colon) rfl ?_ ?_ <;>
        exact fun hmem => by simpa using hkinds _ hmem
  qualifier := by
    obtain ⟨us, hus, hin, htext⟩ := h.phrases.exists_phrase (p := f.qualifier)
      (l := Phrase.optional (Phrase.keyword .required + Phrase.keyword .optional))
      (by simp [Field.phrases])
    have hword {k : Keyword} (hus : us ∈ Phrase.keyword k) : Token.textOf src us = k.text :=
      Lexer.text_of_keyword (Phrase.word_of_one (hin.trans hpart) rfl hus).2
    rw [htext]
    rcases hus with rfl | hus | hus
    · exact List.mem_cons_self
    · exact List.mem_cons_of_mem _ (hword hus ▸ List.mem_cons_self)
    · exact List.mem_cons_of_mem _ (List.mem_cons_of_mem _ (hword hus ▸ List.mem_cons_self))
  type := by
    obtain ⟨us, hus, hin, htext⟩ := h.phrases.exists_phrase (l := Phrase.type) (p := f.type)
      (by simp [Field.phrases])
    rw [htext]
    exact Phrase.isType_of_type (hin.trans hpart) (hline us hin) hus
  name := by
    obtain ⟨us, hus, hin, htext⟩ := h.phrases.exists_phrase (l := Phrase.one .identifier)
      (p := f.name) (by simp [Field.phrases])
    rw [htext]
    exact (Phrase.word_of_one (hin.trans hpart) rfl hus).1
  default := h.phrases.optional hpart hline (by simp [Field.phrases]) Phrase.value_balanced
    fun us => Phrase.value_final
  annot := h.phrases.clause hpart hline (by simp [Field.phrases])
  separator := h.separator

theorem Member.From.spelled {m : Member} (h : m.From src ts) : m.Spelled where
  name := by
    obtain ⟨us, hus, hin, htext⟩ := h.phrases.exists_phrase (p := m.name)
      (l := Phrase.one .identifier + Phrase.one .string) (by simp [Member.phrases])
    have hus' := hin.trans hpart
    have hbalanced : Phrase.AllBalanced (Phrase.one .identifier + Phrase.one .string) :=
      .add (.one (by decide)) (.one (by decide))
    obtain ⟨z, hz, hfinal⟩ : ∃ z, us.getLast? = some z ∧ z.kind.isFinal = true := by
      rcases hus with ⟨t, rfl, ht⟩ | ⟨t, rfl, ht⟩ <;> exact ⟨t, rfl, by rw [ht]; rfl⟩
    rw [htext]
    exact ⟨Phrase.balancedText hus' (hline us hin) hbalanced hus, textOf_snug hus' (hline us hin),
      textOf_final hus' (hline us hin) hz hfinal⟩
  word := by
    obtain ⟨us, hus | hus, hin, htext⟩ := h.phrases.exists_phrase (p := m.name)
      (l := Phrase.one .identifier + Phrase.one .string) (by simp [Member.phrases])
    · rw [htext]
      exact .inl (Phrase.word_of_one (hin.trans hpart) rfl hus).1
    · rw [htext]
      exact .inr (Phrase.head_of_string (hin.trans hpart) hus)
  value := h.phrases.optional hpart hline (by simp [Member.phrases]) Phrase.number_balanced
    fun us => Phrase.number_final
  annot := h.phrases.clause hpart hline (by simp [Member.phrases])
  separator := h.separator

end Members

end ThriftLayout
